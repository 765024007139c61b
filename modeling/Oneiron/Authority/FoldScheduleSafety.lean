import Oneiron.Authority.FoldSchedule

/-!
# Authority/FoldScheduleSafety — the schedule takes the row a rescan takes

A pending row out of the queue waits, since no parent of it landed after it last did, and a queued row
that is pending no more changes nothing when its turn comes (`Sound`).  So each turn of the schedule
is a turn of the rescan or no turn at all (`schedule_eq_rescan`).
-/

open Std

namespace Oneiron

open Sum OrderedSet

open Std.ExtTreeMap List Option

namespace FoldSchedule

open Folding

/-- A strictly increasing list is searched for the least of what is sought. -/
theorem find?_of_least {α : Type} {lt : α → α → Prop} {p : α → Bool} :
    ∀ {l : List α} {a : α}, l.Pairwise lt → a ∈ l → p a →
      (∀ b ∈ l, lt b a → p b = false) → l.find? p = some a
  | b :: l, a, hl, ha, hp, hleast => by
    rw [pairwise_cons] at hl
    rcases mem_cons.mp ha with rfl | ha
    · exact find?_cons_of_pos hp
    · rw [find?_cons_of_neg (by simpa using hleast b mem_cons_self (hl.1 a ha))]
      exact find?_of_least hl.2 ha hp fun c hc => hleast c (mem_cons_of_mem _ hc)

section Soundness

variable {σ ι : Type} (fold : Transition σ ι) (rows : Rows)

/-- The transition reads its own row and its parents' states alone. -/
def ReadsParents : Prop :=
  ∀ (hash : Bytes32) (row : Row) (states states' : States σ), rows[hash]? = some row →
    (∀ parent ∈ row.parentHashes, states[parent]? = states'[parent]?) →
      fold.foldEntryState hash states = fold.foldEntryState hash states'

/-- A row found ready stays ready, with the state it had, as further rows land. -/
def ReadyStands : Prop :=
  ∀ (hash : Bytes32) (states states' : States σ) (state : σ),
    (∀ (other : Bytes32) (known : σ), states[other]? = some known → states'[other]? = some known) →
      fold.foldEntryState hash states = .ready state → fold.foldEntryState hash states' = .ready state

/-- A row that is pending no more changes nothing when its turn comes: it folds to the state it has,
or it waits for a parent that never lands. -/
def Spent (f : Folding σ ι) (hash : Bytes32) : Prop :=
  (∃ state, fold.foldEntryState hash f.states = .ready state ∧ f.states[hash]? = some state) ∨
    fold.foldEntryState hash f.states = .waiting ∧ ∃ row, rows[hash]? = some row ∧
      ∀ parent ∈ row.parentHashes, f.states[parent]? = none → parent ∉ f.pending

/-- What holds of a schedule at each turn, but for the row whose turn it is. -/
structure Sound (s : Scheduled σ ι) (turn : Option Bytes32) : Prop where
  known : ∀ hash ∈ s.pending, (rows[hash]?).isSome
  unfolded : ∀ hash ∈ s.pending, s.states[hash]? = none
  rejected : ∀ hash ∈ s.rejectedRetired, hash ∉ s.pending
  placed : ∀ place ∈ s.queue, place = order rows place.2
  idle : ∀ hash ∈ s.pending, order rows hash ∉ s.queue → turn ≠ some hash →
    fold.foldEntryState hash s.states = .waiting
  stray : ∀ hash, order rows hash ∈ s.queue → hash ∉ s.pending → Spent fold rows s.toFolding hash

variable {fold rows} {s : Scheduled σ ι} {hash : Bytes32} {state : σ}

theorem order_injective {a b : Bytes32} (h : order rows a = order rows b) : a = b :=
  (Prod.mk.inj h).2

variable {s' : Scheduled σ ι} {states : States σ} {f : Folding σ ι} {other parent : Bytes32}
  {rejected crossable : OrderedSet Bytes32}

theorem mem_children {child : Bytes32} :
    child ∈ children rows parent ↔ ∃ row, rows[child]? = some row ∧ parent ∈ row.parentHashes := by
  simp only [children, mem_flatMap, List.mem_map, List.mem_filter, decide_eq_true_eq]
  constructor
  · rintro ⟨⟨hash, row⟩, hrow, ⟨p, ⟨hp, rfl⟩, rfl⟩⟩
    exact ⟨row, mem_toList_iff_getElem?_eq_some.mp hrow, hp⟩
  · rintro ⟨row, hrow, hp⟩
    exact ⟨(child, row), mem_toList_iff_getElem?_eq_some.mpr hrow, parent, ⟨hp, rfl⟩, rfl⟩

theorem getElem?_land (other : Bytes32) : (s.toFolding.land hash state).states[other]? =
    if hash = other then some state else s.states[other]? := by
  rw [land, ExtTreeMap.getElem?_insert]
  simp only [Std.compare_eq_iff_eq]

theorem getElem?_land_of_ne (h : other ≠ hash) :
    (s.toFolding.land hash state).states[other]? = s.states[other]? := by
  rw [getElem?_land, if_neg (Ne.symm h)]

theorem mem_pending_land :
    other ∈ (s.toFolding.land hash state).pending ↔ other ≠ hash ∧ other ∈ s.pending := by
  rw [land, ExtTreeSet.mem_erase, Ne, Std.compare_eq_iff_eq, eq_comm]

/-- Landing a row that had no state keeps every state there was. -/
theorem states_land (hfresh : s.states[hash]? = none) (other : Bytes32) (known : σ)
    (h : s.states[other]? = some known) :
    (s.toFolding.land hash state).states[other]? = some known := by
  have hne : other ≠ hash := fun heq => nomatch (heq ▸ hfresh).symm.trans h
  rw [getElem?_land_of_ne hne, h]

/-- A transition is unmoved by the landing of a row its own does not name. -/
theorem foldEntryState_land (hreads : ReadsParents fold rows) {row : Row}
    (hrow : rows[other]? = some row) (hparent : hash ∉ row.parentHashes) :
    fold.foldEntryState other (s.toFolding.land hash state).states =
      fold.foldEntryState other s.states :=
  hreads other row _ _ hrow fun _ hp => getElem?_land_of_ne fun heq => hparent (heq ▸ hp)

/-- **What is spent stays spent** as a pending row lands. -/
theorem Spent.land (hreads : ReadsParents fold rows) (hstands : ReadyStands fold)
    (hpending : hash ∈ s.pending) (hfresh : s.states[hash]? = none) {other : Bytes32}
    (h : Spent fold rows s.toFolding other) :
    Spent fold rows (s.toFolding.land hash state) other := by
  rcases h with ⟨known, hready, hknown⟩ | ⟨hwaits, row, hrow, hnever⟩
  · refine Or.inl ⟨known, hstands other _ _ known (fun k v => ?_) hready, ?_⟩
    · exact states_land hfresh k v
    · exact states_land hfresh other known hknown
  · have hparent : hash ∉ row.parentHashes := fun hp => hnever hash hp hfresh hpending
    refine Or.inr ⟨(foldEntryState_land hreads hrow hparent).trans hwaits, row, hrow,
      fun parent hp hnone hin => ?_⟩
    rw [getElem?_land_of_ne fun heq : parent = hash => hparent (heq ▸ hp)] at hnone
    exact hnever parent hp hnone (mem_pending_land.mp hin).2

/-- **A landing keeps a schedule sound**: every row it may have moved is queued. -/
theorem Sound.land (hreads : ReadsParents fold rows) (hstands : ReadyStands fold)
    (h : Sound fold rows s (some hash)) (hpending : hash ∈ s.pending)
    (hspent : order rows hash ∈ s.queue → Spent fold rows (s.toFolding.land hash state) hash) :
    Sound fold rows (s.land rows hash state) none where
  known other hother := h.known other (mem_pending_land.mp hother).2
  unfolded other hother := by
    obtain ⟨hne, hother⟩ := mem_pending_land.mp hother
    exact (getElem?_land_of_ne hne).trans (h.unfolded other hother)
  rejected other hother hin := h.rejected other hother (mem_pending_land.mp hin).2
  placed place hplace := by
    rcases mem_queue_land.mp hplace with hplace | ⟨child, -, -, rfl⟩
    · exact h.placed place hplace
    · rfl
  idle other hother hqueue _ := by
    obtain ⟨hne, hin⟩ := mem_pending_land.mp hother
    obtain ⟨row, hrow⟩ := isSome_iff_exists.mp (h.known other hin)
    have hparent : hash ∉ row.parentHashes := fun hp =>
      hqueue (mem_queue_land.mpr (Or.inr ⟨other, mem_children.mpr ⟨row, hrow, hp⟩, hother, rfl⟩))
    refine (foldEntryState_land hreads hrow hparent).trans (h.idle other hin (fun hq => ?_) ?_)
    · exact hqueue (mem_queue_land.mpr (Or.inl hq))
    · exact fun heq => hne (some.inj heq).symm
  stray other hother hout := by
    rcases mem_queue_land.mp hother with hq | ⟨child, -, hchild, heq⟩
    · by_cases heq : other = hash
      · exact heq ▸ hspent (heq ▸ hq)
      · refine (h.stray other hq fun hin => ?_).land hreads hstands hpending (h.unfolded hash hpending)
        exact hout (mem_pending_land.mpr ⟨heq, hin⟩)
    · exact absurd (order_injective heq ▸ hchild) hout

/-- A schedule with a row of the queue taken out for its turn. -/
theorem Sound.pop (h : Sound fold rows s none) :
    Sound fold rows { s with queue := s.queue.erase (order rows hash) } (some hash) where
  known := h.known
  unfolded := h.unfolded
  rejected := h.rejected
  placed place hp := h.placed place (mem_erase_place.mp hp).1
  idle other hother hq hturn := h.idle other hother (fun hin => hq (mem_erase_place.mpr
    ⟨hin, fun heq => hturn (congrArg some (order_injective heq).symm)⟩)) nofun
  stray other hq := h.stray other (mem_erase_place.mp hq).1

/-- A rejection keeps a schedule sound: no transition reads what is pending. -/
theorem Sound.reject (h : Sound fold rows s (some hash)) (hqueue : order rows hash ∉ s.queue)
    (issue : ι) : Sound fold rows { s with toFolding := s.reject fold rows hash issue } none := by
  have hpending {other : Bytes32} : other ∈ (s.reject fold rows hash issue).pending ↔
      other ≠ hash ∧ other ∈ s.pending := by
    rw [Folding.reject, ExtTreeSet.mem_erase, Ne, Std.compare_eq_iff_eq, eq_comm]
  have hmono (other : Bytes32) (hspent : Spent fold rows s.toFolding other) :
      Spent fold rows (s.reject fold rows hash issue) other := by
    rcases hspent with hready | ⟨hwaits, row, hrow, hnever⟩
    · exact Or.inl hready
    · exact Or.inr ⟨hwaits, row, hrow, fun parent hp hnone hin =>
        hnever parent hp hnone (hpending.mp hin).2⟩
  exact {
    known := fun other hother => h.known other (hpending.mp hother).2
    unfolded := fun other hother => h.unfolded other (hpending.mp hother).2
    rejected := fun other hother hin => by
      obtain ⟨hne, hin⟩ := hpending.mp hin
      unfold Folding.reject at hother
      split at hother
      · rw [ExtTreeSet.mem_insert, Std.compare_eq_iff_eq] at hother
        exact hother.elim (fun heq => hne heq.symm) fun hother => h.rejected other hother hin
      · exact h.rejected other hother hin
    placed := h.placed
    idle := fun other hother hq _ => by
      obtain ⟨hne, hin⟩ := hpending.mp hother
      exact h.idle other hin hq fun heq => hne (some.inj heq).symm
    stray := fun other hq hout => by
      refine hmono other (h.stray other hq fun hin => hout (hpending.mpr ⟨fun heq => ?_, hin⟩))
      exact hqueue (heq ▸ hq) }

/-- A row that waits at its turn leaves the queue. -/
theorem Sound.waited (h : Sound fold rows s (some hash))
    (hwaits : hash ∈ s.pending → fold.foldEntryState hash s.states = .waiting) :
    Sound fold rows s none where
  known := h.known
  unfolded := h.unfolded
  rejected := h.rejected
  placed := h.placed
  idle other hother hq _ := by
    by_cases heq : other = hash
    · exact heq ▸ hwaits (heq ▸ hother)
    · exact h.idle other hother hq fun h => heq (some.inj h).symm
  stray := h.stray

/-- A row that landed before its turn lands again as it did. -/
theorem land_of_spent (hout : hash ∉ s.pending) (hknown : s.states[hash]? = some state) :
    s.toFolding.land hash state = s.toFolding := by
  have hstates : s.states.insert hash state = s.states := by
    ext k v
    rw [ExtTreeMap.getElem?_insert]
    simp only [Std.compare_eq_iff_eq]
    split
    · next heq => rw [← heq, hknown]
    · rfl
  rw [land, hstates, erase_of_notMem hout]

/-- More rows queued keep a schedule sound. -/
theorem Sound.queued (h : Sound fold rows s none) (hsame : s'.toFolding = s.toFolding)
    (hqueue : ∀ place, place ∈ s.queue → place ∈ s'.queue)
    (hnew : ∀ place ∈ s'.queue, place ∈ s.queue ∨ place = order rows place.2 ∧ place.2 ∈ s.pending)
    :
    Sound fold rows s' none := by
  obtain ⟨f', queue'⟩ := s'
  obtain rfl : f' = s.toFolding := hsame
  exact {
    known := h.known
    unfolded := h.unfolded
    rejected := h.rejected
    placed := fun place hp => (hnew place hp).elim (h.placed place) fun hnew => hnew.1
    idle := fun other hother hq => h.idle other hother fun hin => hq (hqueue _ hin)
    stray := fun other hq hout =>
      (hnew _ hq).elim (fun hq => h.stray other hq hout) fun hnew => absurd hnew.2 hout }

/-! ## The stalled pass -/

/-- **A parent resolves** only where it has a state or was rejected. -/
theorem rejected_of_resolveParent {start : Bytes32}
    (h : resolveParent fold rows states rejected start = some state) (hnone : states[start]? = none)
    : start ∈ rejected := by
  by_contra hout
  have hsupport (hash : Bytes32) (hhash : hash ∉ hashes rows) :
      pastRejected rows states rejected hash = [] := pastRejected_of_notMem hash hhash
  obtain ⟨visits, -, hmem, hsearch⟩ := search_visits (resolveRow fold rows states rejected) hsupport
    [start] (some {})
  have hstart : start ∈ visits := (hmem start).mpr ⟨start, mem_singleton_self start, .refl⟩
  have hunavailable : parentOutcome rows states rejected start = .unavailable := by
    unfold parentOutcome
    rw [hnone]
    cases rows[start]? with
    | none => rfl
    | some row => exact if_neg fun h => hout h.1
  have hrefused (found : Option (Resolving σ)) :
      resolveRow fold rows states rejected found start = none := by
    cases found with
    | none => rfl
    | some walk =>
      show (if fold.beneathItself start then none else _) = none
      rw [hunavailable]
      split <;> rfl
  have hafter (rest : List Bytes32) :
      rest.foldl (resolveRow fold rows states rejected) none = none := by
    induction rest with
    | nil => rfl
    | cons _ _ ih => exact ih
  obtain ⟨before, after, hsplit⟩ := append_of_mem hstart
  rw [hsplit, foldl_append, foldl_cons, hrefused, hafter] at hsearch
  rw [resolveParent, hsearch] at h
  exact nomatch h

/-- Scratch states hold what the states do, and past them what was rejected. -/
def Filled (states : States σ) (rejected : OrderedSet Bytes32) (scratch : States σ × Bool) : Prop :=
  ∀ hash ∈ scratch.1, states[hash]? = none → hash ∈ rejected

theorem Filled.substitute {scratch scratch' : States σ × Bool}
    (hfilled : Filled states rejected scratch)
    (h : substituteParent fold rows states rejected scratch parent = some scratch') :
    Filled states rejected scratch' ∧ (states[parent]? = none → parent ∈ rejected) := by
  unfold substituteParent at h
  split at h
  · next hin =>
    obtain rfl := some.inj h
    exact ⟨hfilled, hfilled parent hin⟩
  · obtain ⟨state, hresolve, hput⟩ := bind_eq_some_iff.mp h
    obtain rfl := some.inj hput
    refine ⟨fun hash hhash hmissing => ?_, rejected_of_resolveParent hresolve⟩
    rw [mem_insert, Std.compare_eq_iff_eq] at hhash
    rcases hhash with rfl | hhash
    · exact rejected_of_resolveParent hresolve hmissing
    · exact hfilled hash hhash hmissing

theorem rejected_of_foldlM :
    ∀ {parents : List Bytes32} {scratch out : States σ × Bool}, Filled states rejected scratch →
      parents.foldlM (substituteParent fold rows states rejected) scratch = some out →
      ∀ parent ∈ parents, states[parent]? = none → parent ∈ rejected
  | first :: parents, scratch, out, hfilled, h, parent, hin, hnone => by
    obtain ⟨scratch', hfirst, hrest⟩ := bind_eq_some_iff.mp h
    obtain ⟨hfilled', hmissing⟩ := hfilled.substitute hfirst
    rcases mem_cons.mp hin with rfl | hin
    · exact hmissing hnone
    · exact rejected_of_foldlM hfilled' hrest parent hin hnone

/-- **Every parent that substitution finds missing** was rejected. -/
theorem rejected_of_substituteParents {row : Row} {out : States σ × Bool}
    (h : substituteParents fold rows states rejected row = some out)
    (hparent : parent ∈ row.parentHashes) (hnone : states[parent]? = none) : parent ∈ rejected := by
  refine rejected_of_foldlM (fun hash hhash hmissing => ?_) h parent hparent hnone
  rw [mem_iff_isSome_getElem?, hmissing] at hhash
  exact absurd hhash Bool.false_ne_true

/-- **A row lands stalled** as its transition has it, or past parents all of which were rejected. -/
theorem landsStalled_eq_some (h : f.landsStalled fold rows crossable hash = some state) :
    fold.foldEntryState hash f.states = .ready state ∨
      fold.foldEntryState hash f.states = .waiting ∧ ∃ row, rows[hash]? = some row ∧
        ∀ parent ∈ row.parentHashes, f.states[parent]? = none → parent ∈ crossable := by
  unfold landsStalled at h
  split at h
  · exact nomatch h
  · next row hrow =>
    unfold evaluateStalled at h
    cases hresult : fold.foldEntryState hash f.states with
    | ready known =>
      rw [hresult] at h
      exact Or.inl (congrArg EntryFold.ready (some.inj h))
    | invalid issue =>
      rw [hresult] at h
      exact nomatch h
    | waiting =>
      rw [hresult] at h
      refine Or.inr ⟨rfl, row, hrow, fun parent hp hnone => ?_⟩
      cases hrevoke : stalledActorRevoke fold rows f.states crossable row hash with
      | none =>
        rw [hrevoke] at h
        exact nomatch h
      | some known =>
        unfold stalledActorRevoke at hrevoke
        split at hrevoke
        · cases hscratch : substituteParents fold rows f.states crossable row with
          | none =>
            rw [hscratch] at hrevoke
            exact nomatch hrevoke
          | some pair => exact rejected_of_substituteParents hscratch hp hnone
        · exact nomatch hrevoke

theorem Sound.ofNone (h : Sound fold rows s none) (turn : Option Bytes32) :
    Sound fold rows s turn :=
  ⟨h.known, h.unfolded, h.rejected, h.placed, fun hash hp hq _ => h.idle hash hp hq nofun, h.stray⟩

/-- A row of the stalled pass keeps a schedule sound. -/
theorem Sound.passRow (hreads : ReadsParents fold rows) (hstands : ReadyStands fold)
    (h : Sound fold rows s none) (hcrossable : ∀ hash ∈ crossable, hash ∈ s.rejectedRetired)
    (hpending : hash ∈ s.pending) (hlands : s.landsStalled fold rows crossable hash = some state) :
    Sound fold rows (s.land rows hash state) none := by
  have hfresh := h.unfolded hash hpending
  refine (h.ofNone (some hash)).land hreads hstands hpending fun _ => ?_
  rcases landsStalled_eq_some hlands with hready | ⟨hwaits, row, hrow, hmissing⟩
  · exact Or.inl ⟨state, hstands hash _ _ state (fun k v => states_land hfresh k v) hready,
      (getElem?_land hash).trans (if_pos rfl)⟩
  · have hnever (parent : Bytes32) (hp : parent ∈ row.parentHashes)
        (hnone : s.states[parent]? = none) : parent ∉ s.pending :=
      h.rejected parent (hcrossable parent (hmissing parent hp hnone))
    have hparent : hash ∉ row.parentHashes := fun hp => hnever hash hp hfresh hpending
    refine Or.inr ⟨(foldEntryState_land hreads hrow hparent).trans hwaits, row, hrow,
      fun parent hp hnone hin => ?_⟩
    rw [getElem?_land_of_ne fun heq : parent = hash => hparent (heq ▸ hp)] at hnone
    exact hnever parent hp hnone (mem_pending_land.mp hin).2

/-- **The stalled pass keeps a schedule sound.** -/
theorem Sound.pass (hreads : ReadsParents fold rows) (hstands : ReadyStands fold)
    {crossable : OrderedSet Bytes32} :
    ∀ {stalled : List Bytes32} {s : Scheduled σ ι} {landed : Bool}, Sound fold rows s none →
      (∀ hash ∈ crossable, hash ∈ s.rejectedRetired) → stalled.Nodup →
      (∀ hash ∈ stalled, hash ∈ s.pending) →
      Sound fold rows (stalled.foldl (Scheduled.passRow fold rows crossable) (s, landed)).1 none
  | [], _, _, h, _, _, _ => h
  | hash :: stalled, s, landed, h, hcrossable, hnodup, hpending => by
    rw [nodup_cons] at hnodup
    rw [forall_mem_cons] at hpending
    rw [foldl_cons, Scheduled.passRow]
    split
    · next state hlands =>
      refine Sound.pass hreads hstands
        (h.passRow hreads hstands hcrossable hpending.1 hlands) hcrossable hnodup.2 fun other ho => ?_
      exact mem_pending_land.mpr ⟨fun heq => hnodup.1 (heq ▸ ho), hpending.2 other ho⟩
    · exact Sound.pass hreads hstands h hcrossable hnodup.2 hpending.2

/-! ## One turn -/

/-- The pending rows are tried in their order. -/
theorem pairwise_inOrder (f : Folding σ ι) :
    (f.inOrder rows).Pairwise fun a b => compare (order rows a) (order rows b) = .lt := by
  unfold inOrder
  rw [pairwise_map]
  refine ExtTreeSet.ordered_toList.imp_of_mem fun {a b} ha hb hlt => ?_
  have hplaced (place : Bool × Bytes32) (hplace : place ∈ (((f.pending.toList.map (order rows)).foldl
      (fun (set : OrderedSet (Bool × Bytes32)) place => set.insert place) ∅).toList)) :
      order rows place.2 = place := by
    rw [ExtTreeSet.mem_toList, mem_foldl_insert] at hplace
    rcases hplace with hplace | hplace
    · exact absurd hplace ExtTreeSet.not_mem_empty
    · obtain ⟨hash, -, rfl⟩ := List.mem_map.mp hplace
      rfl
  rw [hplaced a ha, hplaced b hb]
  exact hlt

/-- **The first row of the queue is the first that a rescan takes**, if it is pending and does not
wait. -/
theorem Sound.find?_inOrder (h : Sound fold rows s none) (hmin : s.first = some (order rows hash))
    (hpending : hash ∈ s.pending) (hready : s.waits fold hash = false) :
    (s.inOrder rows).find? (!s.waits fold ·) = some hash := by
  refine find?_of_least (pairwise_inOrder s.toFolding) (mem_inOrder.mpr hpending) (by simp [hready])
    fun other hother hlt => ?_
  have hidle : order rows other ∉ s.queue := fun hq => by
    have hle := (ExtTreeSet.min?_eq_some_iff_mem_and_forall.mp (first_eq_min? s ▸ hmin)).2 _ hq
    rw [OrientedCmp.gt_of_lt hlt] at hle
    exact absurd hle (by decide)
  have hwaits := h.idle other (mem_inOrder.mp hother) hidle nofun
  simp [Folding.waits, hwaits]

/-- With an empty queue every pending row waits. -/
theorem Sound.find?_eq_none (h : Sound fold rows s none) (hempty : s.first = none) :
    (s.inOrder rows).find? (!s.waits fold ·) = none := by
  rw [first_eq_min?, ExtTreeSet.min?_eq_none_iff] at hempty
  refine List.find?_eq_none.mpr fun hash hhash => ?_
  have hwaits := h.idle hash (mem_inOrder.mp hhash) (hempty ▸ ExtTreeSet.not_mem_empty) nofun
  simp [Folding.waits, hwaits]

/-- What the rescan does once every pending row waits is what the schedule does once its queue is
empty. -/
theorem rescanStep_of_find?_eq_none (h : (f.inOrder rows).find? (!f.waits fold ·) = none) :
    f.rescanStep fold rows = if f.rejectedRetired = ∅ then .inr f else
      let pass := f.pending.toList.foldl (passRow fold rows (f.crossable fold)) (f, false)
      if pass.2 then .inl pass.1 else .inr pass.1 := by
  rw [rescanStep, h]

theorem waits_eq_false (h : fold.foldEntryState hash f.states ≠ .waiting) :
    f.waits fold hash = false := by
  unfold Folding.waits
  split
  · next hwaits => exact absurd hwaits h
  · rfl

/-- **A turn of the schedule** keeps it sound, and is a turn of the rescan or none at all. -/
theorem Sound.step (hreads : ReadsParents fold rows) (hstands : ReadyStands fold)
    (h : Sound fold rows s none) {s' : Scheduled σ ι} (hstep : s.step fold rows = .inl s') :
    Sound fold rows s' none ∧ (s'.toFolding = s.toFolding ∨
      s.toFolding.rescanStep fold rows = .inl s'.toFolding) := by
  unfold Scheduled.step at hstep
  split at hstep
  · next place hmin =>
    obtain ⟨hash, rfl⟩ : ∃ hash, place = order rows hash :=
      ⟨place.2, h.placed place (mem_of_first hmin)⟩
    have hpop : Sound fold rows { s with queue := s.queue.erase (order rows hash) } (some hash) := h.pop
    have hout : order rows hash ∉ s.queue.erase (order rows hash) := by simp
    dsimp only [order] at hstep
    by_cases hpending : hash ∈ s.pending
    · split at hstep
      · next state hready =>
        obtain rfl := inl.inj hstep
        refine ⟨hpop.land hreads hstands hpending fun hq => absurd hq hout, Or.inr ?_⟩
        have hfind := h.find?_inOrder hmin hpending (waits_eq_false fun hw => nomatch hready.symm.trans hw)
        rw [rescanStep, hfind]
        dsimp only
        rw [hready]
        rfl
      · next issue hinvalid =>
        obtain rfl := inl.inj hstep
        refine ⟨hpop.reject hout issue, Or.inr ?_⟩
        have hfind := h.find?_inOrder hmin hpending
          (waits_eq_false fun hw => nomatch hinvalid.symm.trans hw)
        rw [rescanStep, hfind]
        dsimp only
        rw [hinvalid]
      · next hwaits =>
        obtain rfl := inl.inj hstep
        exact ⟨hpop.waited fun _ => hwaits, Or.inl rfl⟩
    · have hspent := h.stray hash (mem_of_first hmin) hpending
      have hdropped := hpop.waited fun hin => absurd hin hpending
      split at hstep
      · next state hready =>
        obtain rfl := inl.inj hstep
        have hknown : s.states[hash]? = some state := by
          rcases hspent with ⟨known, hknown, hstate⟩ | ⟨hwaits, -⟩
          · exact EntryFold.ready.inj (hknown.symm.trans hready) ▸ hstate
          · exact nomatch hwaits.symm.trans hready
        have hsame : s.toFolding.land hash state = s.toFolding := land_of_spent hpending hknown
        refine ⟨hdropped.queued hsame (fun place hplace => mem_queue_land.mpr (Or.inl hplace))
          fun place hplace => ?_, Or.inl hsame⟩
        rcases mem_queue_land.mp hplace with hplace | ⟨child, -, hchild, rfl⟩
        · exact Or.inl hplace
        · exact Or.inr ⟨rfl, (mem_pending_land.mp hchild).2⟩
      · next issue hinvalid =>
        rcases hspent with ⟨known, hknown, -⟩ | ⟨hwaits, -⟩
        · exact nomatch hknown.symm.trans hinvalid
        · exact nomatch hwaits.symm.trans hinvalid
      · obtain rfl := inl.inj hstep
        exact ⟨hdropped, Or.inl rfl⟩
  · next hempty =>
    have hrescan := rescanStep_of_find?_eq_none (h.find?_eq_none hempty)
    split at hstep
    · exact nomatch hstep
    · next hrejected =>
      have hpass : s.pending.toList.foldl (Folding.passRow fold rows (s.crossable fold))
          (s.toFolding, false) = _ := toFolding_foldl_passRow _ s.pending.toList s false
      have hcrossable (hash : Bytes32) (hin : hash ∈ s.crossable fold) : hash ∈ s.rejectedRetired :=
        (ExtTreeSet.mem_filter.mp hin).1
      have hnodup : s.pending.toList.Nodup := (ExtTreeSet.distinct_toList (t := s.pending)).imp
        fun hab heq => hab (Std.compare_eq_iff_eq.mpr heq)
      dsimp only at hstep
      split at hstep
      · next hlanded =>
        obtain rfl := inl.inj hstep
        refine ⟨h.pass hreads hstands hcrossable hnodup fun _ => ExtTreeSet.mem_toList.mp, Or.inr ?_⟩
        rw [hrescan, if_neg hrejected, hpass]
        exact if_pos hlanded
      · exact nomatch hstep

/-- **Where the schedule stops, the rescan stops**, with the same states, rows and issues. -/
theorem Sound.stop (h : Sound fold rows s none) (hstep : s.step fold rows = .inr f) :
    s.toFolding.rescanStep fold rows = .inr f := by
  unfold Scheduled.step at hstep
  split at hstep
  · dsimp only at hstep
    split at hstep <;> exact nomatch hstep
  · next hempty =>
    rw [rescanStep_of_find?_eq_none (h.find?_eq_none hempty)]
    split at hstep
    · next hnone => rw [if_pos hnone, inr.inj hstep]
    · next hrejected =>
      have hpass : s.pending.toList.foldl (Folding.passRow fold rows (s.crossable fold))
          (s.toFolding, false) = _ := toFolding_foldl_passRow _ s.pending.toList s false
      dsimp only at hstep
      split at hstep
      · exact nomatch hstep
      · next hlanded =>
        rw [if_neg hrejected, hpass, ← inr.inj hstep]
        exact if_neg hlanded

theorem schedule_of_inl (h : s.step fold rows = .inl s') :
    schedule fold rows s = schedule fold rows s' := by
  rw [schedule]
  split
  · next s'' hstep => rw [inl.inj (hstep.symm.trans h)]
  · next hstep => cases hstep.symm.trans h

theorem schedule_of_inr (h : s.step fold rows = .inr f) : schedule fold rows s = f := by
  rw [schedule]
  split
  · next hstep => cases hstep.symm.trans h
  · next f' hstep => rw [inr.inj (hstep.symm.trans h)]

/-- **The schedule is the rescan**, from any sound schedule. -/
theorem schedule_eq_rescan (hreads : ReadsParents fold rows) (hstands : ReadyStands fold)
    (s : Scheduled σ ι) (h : Sound fold rows s none) :
    schedule fold rows s = rescan fold rows s.toFolding := by
  induction s using schedule.induct fold rows with
  | case1 s s' hstep ih =>
    obtain ⟨hsound, hturn⟩ := h.step hreads hstands hstep
    rw [schedule_of_inl hstep, ih hsound]
    rcases hturn with hsame | hrescan
    · rw [hsame]
    · exact (loop_of_inl hrescan).symm
  | case2 s f hstep =>
    rw [schedule_of_inr hstep]
    exact (loop_of_inr (h.stop hstep)).symm

theorem mem_pending_start {seed : States σ} {issues : List ι} :
    hash ∈ (startFolding rows seed issues).pending ↔ (rows[hash]?).isSome ∧ seed[hash]? = none := by
  simp only [startFolding, mem_foldl_insert, List.mem_filter, List.mem_map,
    decide_eq_true_eq, mem_iff_isSome_getElem?, isSome_iff_exists, Prod.exists,
    mem_toList_iff_getElem?_eq_some, eq_none_iff_forall_not_mem]
  simp

/-- A fold starts sound: everything pending is queued. -/
theorem sound_start (seed : States σ) (issues : List ι) :
    Sound fold rows ((startFolding rows seed issues).queueAll rows) none := by
  have hqueue {place : Bool × Bytes32} :
      place ∈ ((startFolding rows seed issues).queueAll rows).queue ↔
        ∃ hash ∈ (startFolding rows seed issues).pending, order rows hash = place := by
    simp [queueAll, mem_foldl_insert]
  exact {
    known := fun hash hin => (mem_pending_start.mp hin).1
    unfolded := fun hash hin => (mem_pending_start.mp hin).2
    rejected := fun hash hin => absurd hin ExtTreeSet.not_mem_empty
    placed := fun place hin => by
      obtain ⟨hash, -, rfl⟩ := hqueue.mp hin
      rfl
    idle := fun hash hin hout => absurd (hqueue.mpr ⟨hash, hin, rfl⟩) hout
    stray := fun hash hin hout => by
      obtain ⟨other, hother, heq⟩ := hqueue.mp hin
      exact absurd (order_injective heq ▸ hother) hout }

end Soundness

end FoldSchedule

end Oneiron
