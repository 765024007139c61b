import Oneiron.MergeQueue.Operations

/-!
# MergeQueue/QueueSafety — the line of landed batches, kept by every write

    base --greens--▸ green --pending_slow--▸ head

Each batch of the line landed on the HEAD the one before it left.  `Shows` says a state has the line,
with what its intent promises about the effect under way; every write of every operation keeps it and
only lengthens its green part (`LineMoves`), so every state a crash may leave has it.
-/

namespace Oneiron

open List Option Function

namespace MergeQueue

variable {Repo Files Stack : Type} {doors : RepoDoors Repo Files Stack}
  {s t : State Repo Files Stack} {base : Oid} {greens : List Bytes} {id : Bytes}
  {batch : MergeBatch Files}

/-- Batches landed one on another, from one HEAD to the next. -/
def Linked (batches : Bytes → Option (MergeBatch Files)) : Oid → List Bytes → Oid → Prop
  | first, [], last => first = last
  | first, id :: rest, last => ∃ batch landed, batches id = some batch ∧
      batch.expectedHead = first ∧ batch.landedHead = some landed ∧ Linked batches landed rest last

/-- A snapshot is of states at one HEAD. -/
def NamesHead (doors : RepoDoors Repo Files Stack) (snapshot : RepoForkHash) (head : Oid) : Prop :=
  ∀ r, doors.forkHash r = snapshot → doors.head r = head

/-- A batch is green by its own passing slow verdict. -/
def Passed (s : State Repo Files Stack) (id : Bytes) : Prop :=
  ∃ batch verdict, s.batches id = some batch ∧ batch.state = .greenAdvanced ∧
    batch.slowVerdict = some verdict ∧ s.verdicts verdict = some true

/-- The state of the pending batches while an intent is, or is not, under way. -/
def pendingState : Option EffectIntent → BatchState
  | some (.rollback ..) => .rollingBack
  | _ => .headAdvanced

/-- What a stored batch is held to. -/
structure Row (doors : RepoDoors Repo Files Stack) (queue : QueueRecord) (id : Bytes)
    (batch : MergeBatch Files) : Prop where
  self : batch.id = id
  snapshot : ∀ f, batch.preSnapshot = some f → NamesHead doors f batch.expectedHead
  pending : batch.state = .headAdvanced ∨ batch.state = .rollingBack → id ∈ queue.pointers.pendingSlow
  landing : batch.state = .landing → ∃ afterSeq, queue.intent = some (.landing id afterSeq)

/-- **The line.** -/
structure Shows (doors : RepoDoors Repo Files Stack) (s : State Repo Files Stack) (base : Oid)
    (greens : List Bytes) : Prop where
  greenLine : Linked s.batches base greens s.queue.pointers.green
  pendingLine : Linked s.batches s.queue.pointers.green s.queue.pointers.pendingSlow
    s.queue.pointers.head
  passed : ∀ id ∈ greens, Passed s id
  waiting : ∀ id ∈ s.queue.pointers.pendingSlow, ∃ batch, s.batches id = some batch ∧
    batch.state = pendingState s.queue.intent
  rows : ∀ id batch, s.batches id = some batch → Row doors s.queue id batch
  nodup : s.queue.pointers.pendingSlow.Nodup
  /-- A landing under way is of a batch formed on the current head. -/
  landing : ∀ id afterSeq, s.queue.intent = some (.landing id afterSeq) →
    ∃ batch, s.batches id = some batch ∧ batch.state = .landing ∧
      batch.expectedHead = s.queue.pointers.head
  /-- A rollback under way is to a snapshot of the green HEAD. -/
  rollback : ∀ snapshot expectedHead, s.queue.intent = some (.rollback snapshot expectedHead) →
    NamesHead doors snapshot s.queue.pointers.green

/-- The pending batches stay in the order they landed: a write drops the first of them, or adds at the
end the one whose landing it finishes. -/
def InOrder (s t : State Repo Files Stack) : Prop :=
  t.queue.pointers.pendingSlow <:+ s.queue.pointers.pendingSlow ∨
    ∃ batch afterSeq, s.queue.intent = some (.landing batch.id afterSeq) ∧
      s.batches batch.id = some batch ∧
      t.queue.pointers.pendingSlow = s.queue.pointers.pendingSlow ++ [batch.id] ∧
      t.batches batch.id =
        some { batch with landedHead := some t.queue.pointers.head, state := .headAdvanced }

/-- What is pending, and the effect under way, are as they were. -/
structure SamePending (s t : State Repo Files Stack) : Prop where
  intent : t.queue.intent = s.queue.intent
  pointers : t.queue.pointers = s.queue.pointers
  rows : ∀ id ∈ s.queue.pointers.pendingSlow, t.batches id = s.batches id

/-- What was pending in `s` is rolled back in `t`, all of it, and the repository is at green. -/
structure RolledBack (doors : RepoDoors Repo Files Stack) (s t : State Repo Files Stack) : Prop where
  intent : t.queue.intent = none
  pointers : t.queue.pointers = ⟨s.queue.pointers.green, s.queue.pointers.green, []⟩
  rows : ∀ id ∈ s.queue.pointers.pendingSlow, ∃ batch, t.batches id = some batch ∧
    batch.state = .rolledBack
  restored : doors.head t.repo = s.queue.pointers.green

/-- **What one write may do to the line.** -/
structure LineMoves (doors : RepoDoors Repo Files Stack) (s t : State Repo Files Stack) : Prop where
  line : ∀ base greens, Shows doors s base greens → ∃ more, Shows doors t base (greens ++ more)
  order : InOrder s t
  /-- A rollback under way stays as it is until it is finished. -/
  rolling : ∀ base greens, Shows doors s base greens → ∀ snapshot expectedHead,
    s.queue.intent = some (.rollback snapshot expectedHead) →
      SamePending s t ∨ RolledBack doors s t

/-! ## The line as rows are written -/

theorem Linked.congr {batches batches' : Bytes → Option (MergeBatch Files)} :
    ∀ {ids : List Bytes} {first last : Oid}, (∀ id ∈ ids, ∀ batch, batches id = some batch →
        ∃ batch', batches' id = some batch' ∧ batch'.expectedHead = batch.expectedHead ∧
          batch'.landedHead = batch.landedHead) →
      Linked batches first ids last → Linked batches' first ids last
  | [], _, _, _, h => h
  | id :: ids, first, last, hsame, ⟨batch, landed, hrow, hfirst, hlanded, hrest⟩ => by
    obtain ⟨batch', hrow', hexpected, hlanded'⟩ := hsame id mem_cons_self batch hrow
    have hrest := Linked.congr (fun id hid => hsame id (mem_cons_of_mem _ hid)) hrest
    exact ⟨batch', landed, hrow', hexpected.trans hfirst, hlanded'.trans hlanded, hrest⟩

variable {queue : QueueRecord} {afterSeq : ℕ} {batches : List (MergeBatch Files)} {ids : List Bytes}
  {snapshot : RepoForkHash} {last : Oid}

theorem Linked.append {batches : Bytes → Option (MergeBatch Files)} {mid : Oid} {rest : List Bytes}
    : ∀ {ids : List Bytes} {first : Oid}, Linked batches first ids mid →
      Linked batches mid rest last → Linked batches first (ids ++ rest) last
  | [], _, h, h' => h ▸ h'
  | _ :: _, _, ⟨batch, landed, hrow, hfirst, hlanded, hids⟩, h' => by
    have hids := Linked.append hids h'
    exact ⟨batch, landed, hrow, hfirst, hlanded, hids⟩

theorem saved_of_not_mem : ∀ {batches : List (MergeBatch Files)}
    {s : State Repo Files Stack}, id ∉ batches.map (·.id) → (s.saved queue batches).batches id =
      s.batches id := by
  intro batches
  induction batches with
  | nil => exact fun _ => rfl
  | cons batch batches ih =>
    intro s h
    rw [map_cons, mem_cons, not_or] at h
    have hrest := ih (s := { s with
      batches := Function.update s.batches batch.id (some batch) }) h.2
    exact hrest.trans (update_of_ne h.1 _ _)

theorem saved_of_mem : ∀ {batches : List (MergeBatch Files)}
    {s : State Repo Files Stack}, (batches.map (·.id)).Nodup → batch ∈ batches →
      (s.saved queue batches).batches batch.id = some batch := by
  intro batches
  induction batches with
  | nil => exact fun _ h => absurd h not_mem_nil
  | cons b batches ih =>
    intro s hnodup hmem
    rw [map_cons, nodup_cons] at hnodup
    rcases mem_cons.mp hmem with rfl | hin
    · have hrest : (State.saved { s with batches := Function.update s.batches batch.id (some batch) }
          queue batches).batches batch.id = Function.update s.batches batch.id (some batch) batch.id :=
        saved_of_not_mem hnodup.1
      exact hrest.trans (update_self ..)
    · exact ih (s := { s with batches := Function.update s.batches b.id (some b) }) hnodup.2 hin

theorem saved_self (s : State Repo Files Stack) (queue : QueueRecord) (batch : MergeBatch Files) :
    (s.saved queue [batch]).batches batch.id = some batch := update_self ..

theorem saved_other (hne : id ≠ batch.id) :
    (s.saved queue [batch]).batches id = s.batches id := update_of_ne hne _ _

/-! ## Writes beside the line -/

/-- What is written outside the rows moves nothing. -/
theorem Shows.frame (h : Shows doors s base greens) (hqueue : t.queue = s.queue)
    (hbatches : t.batches = s.batches)
    (hverdicts : ∀ v, s.verdicts v = some true → t.verdicts v = some true) :
    Shows doors t base greens := by
  refine ⟨?_, ?_, fun id hid => ?_, ?_, ?_, ?_, ?_, ?_⟩
  · rw [hqueue, hbatches]
    exact h.greenLine
  · rw [hqueue, hbatches]
    exact h.pendingLine
  · obtain ⟨batch, v, hrow, hstate, hv, hpass⟩ := h.passed id hid
    exact ⟨batch, v, hbatches ▸ hrow, hstate, hv, hverdicts v hpass⟩
  · rw [hqueue, hbatches]
    exact h.waiting
  · rw [hqueue, hbatches]
    exact h.rows
  · rw [hqueue]
    exact h.nodup
  · rw [hqueue, hbatches]
    exact h.landing
  · rw [hqueue]
    exact h.rollback

theorem LineMoves.frame (hqueue : t.queue = s.queue) (hbatches : t.batches = s.batches)
    (hverdicts : ∀ v, s.verdicts v = some true → t.verdicts v = some true) : LineMoves doors s t where
  line _ greens h := ⟨[], (append_nil greens).symm ▸ h.frame hqueue hbatches hverdicts⟩
  order := .inl (hqueue ▸ suffix_rfl)
  rolling _ _ _ _ _ _ := .inl ⟨congrArg _ hqueue, congrArg _ hqueue, fun _ _ => by rw [hbatches]⟩

/-- A batch outside the line. -/
def Beside (s : State Repo Files Stack) (id : Bytes) : Prop :=
  ∀ batch, s.batches id = some batch → batch.state ≠ .greenAdvanced ∧
    batch.state ≠ .headAdvanced ∧ batch.state ≠ .rollingBack

theorem Shows.not_mem_greens (h : Shows doors s base greens) (hbeside : Beside s id) :
    id ∉ greens := by
  intro hid
  obtain ⟨batch, _, hrow, hstate, -⟩ := h.passed id hid
  exact (hbeside batch hrow).1 hstate

theorem Shows.not_mem_pending (h : Shows doors s base greens) (hbeside : Beside s id) :
    id ∉ s.queue.pointers.pendingSlow := by
  intro hid
  obtain ⟨batch, hrow, hstate⟩ := h.waiting id hid
  obtain ⟨-, hhead, hroll⟩ := hbeside batch hrow
  unfold pendingState at hstate
  split at hstate
  · exact hroll hstate
  · exact hhead hstate

/-- One row written beside the line leaves the line's rows. -/
theorem Shows.put (h : Shows doors s base greens) (queue : QueueRecord) (batch : MergeBatch Files)
    (hbeside : Beside s batch.id) :
    Linked (s.saved queue [batch]).batches base greens s.queue.pointers.green ∧
      Linked (s.saved queue [batch]).batches s.queue.pointers.green
        s.queue.pointers.pendingSlow s.queue.pointers.head ∧
      (∀ id ∈ greens, Passed (s.saved queue [batch]) id) ∧
      ∀ id ∈ s.queue.pointers.pendingSlow,
        (s.saved queue [batch]).batches id = s.batches id := by
  have hgreens : ∀ id ∈ greens, (s.saved queue [batch]).batches id = s.batches id :=
    fun id hid => saved_other fun heq => h.not_mem_greens hbeside (heq ▸ hid)
  have hpending : ∀ id ∈ s.queue.pointers.pendingSlow,
      (s.saved queue [batch]).batches id = s.batches id :=
    fun id hid => saved_other fun heq => h.not_mem_pending hbeside (heq ▸ hid)
  refine ⟨?_, ?_, fun id hid => ?_, hpending⟩
  · exact h.greenLine.congr fun id hid b hb => ⟨b, (hgreens id hid).trans hb, rfl, rfl⟩
  · exact h.pendingLine.congr fun id hid b hb => ⟨b, (hpending id hid).trans hb, rfl, rfl⟩
  · obtain ⟨b, v, hrow, hrest⟩ := h.passed id hid
    exact ⟨b, v, (hgreens id hid).trans hrow, hrest⟩

/-- A row is held to the same under any queue with the same pending batches and intent. -/
theorem Row.of_queue {queue' : QueueRecord} (h : Row doors queue id batch)
    (hpointers : queue'.pointers = queue.pointers) (hintent : queue'.intent = queue.intent) :
    Row doors queue' id batch :=
  ⟨h.self, h.snapshot, hpointers ▸ h.pending, hintent ▸ h.landing⟩

/-- **A batch written beside the line, and beside any effect.** -/
theorem moves_put (hpointers : queue.pointers = s.queue.pointers)
    (hintent : queue.intent = s.queue.intent) (hbeside : Beside s batch.id)
    (hlanding : ∀ old, s.batches batch.id = some old → old.state ≠ .landing)
    (hstate : batch.state ∈ [BatchState.queued, .staged, .ready, .quarantined, .cancelled])
    (hsnapshot : (∀ base greens, Shows doors s base greens →
      ∀ f, batch.preSnapshot = some f → NamesHead doors f batch.expectedHead)) :
    LineMoves doors s (s.saved queue [batch]) := by
  refine ⟨fun base greens h => ?_, .inl (hpointers ▸ suffix_rfl),
    fun base greens h _ _ _ => .inl ⟨hintent, hpointers, (h.put queue batch hbeside).2.2.2⟩⟩
  obtain ⟨hgreens, hpending, hpassed, hsame⟩ := h.put queue batch hbeside
  have hplain : batch.state ≠ .headAdvanced ∧ batch.state ≠ .rollingBack ∧
      batch.state ≠ .landing := by
    refine ⟨?_, ?_, ?_⟩ <;> intro heq <;> simp [heq] at hstate
  refine ⟨[], ?_⟩
  rw [append_nil]
  refine ⟨hpointers ▸ hgreens, hpointers ▸ hpending, hpassed, ?_, ?_, hpointers ▸ h.nodup, ?_, ?_⟩
  · intro id hid
    replace hid : id ∈ s.queue.pointers.pendingSlow := hpointers ▸ hid
    obtain ⟨b, hrow, hb⟩ := h.waiting id hid
    exact ⟨b, (hsame id hid).trans hrow, hb.trans (congrArg pendingState hintent.symm)⟩
  · intro id b hrow
    rcases eq_or_ne id batch.id with rfl | hne
    · obtain rfl := some.inj ((saved_self ..).symm.trans hrow)
      refine ⟨rfl, hsnapshot base greens h, fun hb => ?_, fun hb => absurd hb hplain.2.2⟩
      exact hb.elim (absurd · hplain.1) (absurd · hplain.2.1)
    · exact (h.rows id b ((saved_other hne).symm.trans hrow)).of_queue hpointers hintent
  · intro id afterSeq hcase
    obtain ⟨b, hrow, hb, hexpected⟩ := h.landing id afterSeq (hintent ▸ hcase)
    have hne : id ≠ batch.id := fun heq => hlanding b (heq ▸ hrow) hb
    exact ⟨b, (saved_other hne).trans hrow, hb, hexpected.trans (congrArg _ hpointers.symm)⟩
  · intro snapshot expectedHead hcase
    have hnames := h.rollback snapshot expectedHead (hintent ▸ hcase)
    exact hpointers ▸ hnames

/-- **A slow verdict attached to a landed batch.** -/
theorem moves_slow {verdict : Option Bytes} (hrow : s.batches batch.id = some batch)
    (hstate : batch.state = .headAdvanced) :
    LineMoves doors s (s.saved s.queue [{ batch with slowVerdict := verdict }]) := by
  refine ⟨fun base greens h => ?_, .inl suffix_rfl, fun base greens h _ _ hcase => .inl
    ⟨rfl, rfl, fun id hid => update_of_ne ?_ _ _⟩⟩
  rotate_left
  · rintro rfl
    obtain ⟨b, hb, hwaits⟩ := h.waiting _ hid
    obtain rfl := some.inj (hrow.symm.trans hb)
    rw [hcase, hstate] at hwaits
    exact nomatch hwaits
  have hlink : ∀ id b, s.batches id = some b → ∃ b',
      (s.saved s.queue [{ batch with slowVerdict := verdict }]).batches id = some b' ∧
        b'.expectedHead = b.expectedHead ∧ b'.landedHead = b.landedHead ∧ b'.state = b.state := by
    intro id b hb
    rcases eq_or_ne id batch.id with rfl | hne
    · obtain rfl := some.inj (hrow.symm.trans hb)
      exact ⟨_, saved_self .., rfl, rfl, rfl⟩
    · exact ⟨b, (update_of_ne hne _ _).trans hb, rfl, rfl, rfl⟩
  refine ⟨[], ?_⟩
  rw [append_nil]
  refine ⟨?_, ?_, ?_, ?_, ?_, h.nodup, ?_, h.rollback⟩
  · refine h.greenLine.congr fun id _ b hb => ?_
    obtain ⟨b', hb', hexpected, hlanded, -⟩ := hlink id b hb
    exact ⟨b', hb', hexpected, hlanded⟩
  · refine h.pendingLine.congr fun id _ b hb => ?_
    obtain ⟨b', hb', hexpected, hlanded, -⟩ := hlink id b hb
    exact ⟨b', hb', hexpected, hlanded⟩
  · intro id hid
    obtain ⟨b, v, hb, hgreen, hrest⟩ := h.passed id hid
    have hne : id ≠ batch.id := by
      rintro rfl
      obtain rfl := some.inj (hrow.symm.trans hb)
      exact nomatch hstate.symm.trans hgreen
    exact ⟨b, v, (update_of_ne hne _ _).trans hb, hgreen, hrest⟩
  · intro id hid
    obtain ⟨b, hb, hstate'⟩ := h.waiting id hid
    obtain ⟨b', hb', -, -, hsame⟩ := hlink id b hb
    exact ⟨b', hb', hsame.trans hstate'⟩
  · intro id b hb
    rcases eq_or_ne id batch.id with rfl | hne
    · obtain rfl := some.inj ((saved_self ..).symm.trans hb)
      have hold := h.rows _ batch hrow
      exact ⟨rfl, hold.snapshot, hold.pending, hold.landing⟩
    · exact h.rows id b ((update_of_ne hne _ _).symm.trans hb)
  · intro id afterSeq hcase
    obtain ⟨b, hb, hlanding, hexpected⟩ := h.landing id afterSeq hcase
    obtain ⟨b', hb', hexpected', -, hsame⟩ := hlink id b hb
    exact ⟨b', hb', hsame.trans hlanding, hexpected'.trans hexpected⟩

/-! ## The writes of a landing -/

/-- **A landing begins**: its intent saved with its batch. -/
theorem moves_land (hintent : s.queue.intent = none) (hrow : s.batches batch.id = some batch)
    (hstate : batch.state = .ready) (hexpected : batch.expectedHead = s.queue.pointers.head) :
    LineMoves doors s (s.saved { s.queue with intent := some (.landing batch.id afterSeq) }
      [{ batch with state := .landing }]) := by
  refine ⟨fun base greens h => ?_, .inl suffix_rfl,
    fun _ _ _ _ _ hcase => nomatch hintent.symm.trans hcase⟩
  have hbeside : Beside s batch.id := by
    intro b hb
    obtain rfl := some.inj (hrow.symm.trans hb)
    rw [hstate]
    exact ⟨nofun, nofun, nofun⟩
  obtain ⟨hgreens, hpending, hpassed, hsame⟩ := h.put
    { s.queue with intent := some (.landing batch.id afterSeq) } { batch with state := .landing }
    hbeside
  refine ⟨[], ?_⟩
  rw [append_nil]
  refine ⟨hgreens, hpending, hpassed, ?_, ?_, h.nodup, ?_, nofun⟩
  · intro id hid
    obtain ⟨b, hb, hstate'⟩ := h.waiting id hid
    rw [hintent] at hstate'
    exact ⟨b, (hsame id hid).trans hb, hstate'⟩
  · intro id b hb
    rcases eq_or_ne id batch.id with rfl | hne
    · obtain rfl := some.inj ((saved_self ..).symm.trans hb)
      exact ⟨rfl, (h.rows _ batch hrow).snapshot, fun hb => hb.elim nofun nofun,
        fun _ => ⟨afterSeq, rfl⟩⟩
    · have hold := h.rows id b ((update_of_ne hne _ _).symm.trans hb)
      refine ⟨hold.self, hold.snapshot, hold.pending, fun hlanding => ?_⟩
      obtain ⟨seq, hseq⟩ := hold.landing hlanding
      exact nomatch hintent.symm.trans hseq
  · intro id seq hcase
    obtain ⟨rfl, -⟩ := EffectIntent.landing.inj (some.inj hcase)
    exact ⟨_, saved_self .., rfl, hexpected⟩

/-- The batch of a landing under way is beside the line. -/
theorem Shows.landing_row (h : Shows doors s base greens)
    (hintent : s.queue.intent = some (.landing batch.id afterSeq))
    (hrow : s.batches batch.id = some batch) :
    batch.state = .landing ∧ batch.expectedHead = s.queue.pointers.head ∧ Beside s batch.id := by
  obtain ⟨b, hb, hstate, hexpected⟩ := h.landing _ _ hintent
  obtain rfl := some.inj (hrow.symm.trans hb)
  refine ⟨hstate, hexpected, fun b' hb' => ?_⟩
  obtain rfl := some.inj (hrow.symm.trans hb')
  rw [hstate]
  exact ⟨nofun, nofun, nofun⟩

/-- No other batch is landing. -/
theorem Shows.landing_unique (h : Shows doors s base greens)
    (hintent : s.queue.intent = some (.landing batch.id afterSeq)) {b : MergeBatch Files}
    (hne : id ≠ batch.id) (hrow : s.batches id = some b) : b.state ≠ .landing := by
  intro hstate
  obtain ⟨seq, hseq⟩ := (h.rows id b hrow).landing hstate
  obtain ⟨heq, -⟩ := EffectIntent.landing.inj (some.inj (hintent.symm.trans hseq))
  exact hne heq.symm

/-- **A landing finishes**: the head moves to what it made, the batch last of the pending. -/
theorem moves_finishLanding {head : Oid}
    (hintent : s.queue.intent = some (.landing batch.id afterSeq))
    (hrow : s.batches batch.id = some batch) : LineMoves doors s (s.saved { s.queue with
        pointers := { s.queue.pointers with
          head
          pendingSlow := s.queue.pointers.pendingSlow ++ [batch.id] }
        intent := none }
      [{ batch with landedHead := some head, state := .headAdvanced }]) := by
  refine ⟨fun base greens h => ?_, .inr ⟨batch, afterSeq, hintent, hrow, rfl, saved_self ..⟩,
    fun _ _ _ _ _ hcase => nomatch hintent.symm.trans hcase⟩
  obtain ⟨hstate, hexpected, hbeside⟩ := h.landing_row hintent hrow
  obtain ⟨hgreens, hpending, hpassed, hsame⟩ :=
    h.put { s.queue with
      intent := none } { batch with landedHead := some head, state := .headAdvanced } hbeside
  refine ⟨[], ?_⟩
  rw [append_nil]
  refine ⟨hgreens, hpending.append ⟨_, head, saved_self .., hexpected, rfl, rfl⟩, hpassed,
    ?_, ?_, ?_, nofun, nofun⟩
  · intro id hid
    rcases mem_append.mp hid with hin | hin
    · obtain ⟨b, hb, hstate'⟩ := h.waiting id hin
      rw [hintent] at hstate'
      exact ⟨b, (hsame id hin).trans hb, hstate'⟩
    · obtain rfl := mem_singleton.mp hin
      exact ⟨_, saved_self .., rfl⟩
  · intro id b hb
    rcases eq_or_ne id batch.id with rfl | hne
    · obtain rfl := some.inj ((saved_self ..).symm.trans hb)
      exact ⟨rfl, (h.rows _ batch hrow).snapshot,
        fun _ => mem_append_right _ (mem_singleton_self _), nofun⟩
    · have hold := (update_of_ne hne _ _).symm.trans hb
      have hrows := h.rows id b hold
      exact ⟨hrows.self, hrows.snapshot, fun hb => mem_append_left _ (hrows.pending hb),
        fun hb => absurd hb (h.landing_unique hintent hne hold)⟩
  · refine nodup_append.mpr ⟨h.nodup, nodup_cons.mpr ⟨not_mem_nil, nodup_nil⟩, fun a ha b hb heq => ?_⟩
    obtain rfl := mem_singleton.mp hb
    exact h.not_mem_pending hbeside (heq ▸ ha)

/-- **A landing is given back.** -/
theorem moves_undoLanding (hintent : s.queue.intent = some (.landing batch.id afterSeq))
    (hrow : s.batches batch.id = some batch) :
    LineMoves doors s (s.saved { s.queue with intent := none } [{ batch with state := .ready }]) := by
  refine ⟨fun base greens h => ?_, .inl suffix_rfl,
    fun _ _ _ _ _ hcase => nomatch hintent.symm.trans hcase⟩
  obtain ⟨hstate, hexpected, hbeside⟩ := h.landing_row hintent hrow
  obtain ⟨hgreens, hpending, hpassed, hsame⟩ := h.put
    { s.queue with intent := none } { batch with state := .ready } hbeside
  refine ⟨[], ?_⟩
  rw [append_nil]
  refine ⟨hgreens, hpending, hpassed, ?_, ?_, h.nodup, nofun, nofun⟩
  · intro id hid
    obtain ⟨b, hb, hstate'⟩ := h.waiting id hid
    rw [hintent] at hstate'
    exact ⟨b, (hsame id hid).trans hb, hstate'⟩
  · intro id b hb
    rcases eq_or_ne id batch.id with rfl | hne
    · obtain rfl := some.inj ((saved_self ..).symm.trans hb)
      exact ⟨rfl, (h.rows _ batch hrow).snapshot, fun hb => hb.elim nofun nofun, nofun⟩
    · have hold := (update_of_ne hne _ _).symm.trans hb
      have hrows := h.rows id b hold
      exact ⟨hrows.self, hrows.snapshot, hrows.pending,
        fun hb => absurd hb (h.landing_unique hintent hne hold)⟩

/-! ## The writes of a settlement -/

section Restated

variable {queue : QueueRecord} {batches : List (MergeBatch Files)}

/-- The rows of a list are stored ones with other states. -/
def Restates (s : State Repo Files Stack) (batches : List (MergeBatch Files)) : Prop :=
  ∀ batch ∈ batches, ∃ old, s.batches batch.id = some old ∧ batch = { old with state := batch.state }

/-- Every row is there after a restatement, but for its state as it was. -/
theorem Restates.row (h : Restates s batches) (hnodup : (batches.map (·.id)).Nodup)
    {old : MergeBatch Files} (hold : s.batches id = some old) : ∃ batch,
      (s.saved queue batches).batches id = some batch ∧ batch = { old with state := batch.state } := by
  by_cases hid : id ∈ batches.map (·.id)
  · obtain ⟨batch, hmem, rfl⟩ := mem_map.mp hid
    obtain ⟨old', hold', heq⟩ := h batch hmem
    obtain rfl := some.inj (hold.symm.trans hold')
    exact ⟨batch, saved_of_mem hnodup hmem, heq⟩
  · exact ⟨old, (saved_of_not_mem hid).trans hold, rfl⟩

/-- …and every row after it was there before. -/
theorem Restates.old (h : Restates s batches) (hnodup : (batches.map (·.id)).Nodup)
    (hrow : (s.saved queue batches).batches id = some batch) : ∃ old,
      s.batches id = some old ∧ batch = { old with state := batch.state } := by
  by_cases hid : id ∈ batches.map (·.id)
  · obtain ⟨batch', hmem, rfl⟩ := mem_map.mp hid
    obtain rfl := some.inj ((saved_of_mem hnodup hmem).symm.trans hrow)
    exact h batch' hmem
  · exact ⟨batch, (saved_of_not_mem hid).symm.trans hrow, rfl⟩

theorem Restates.linked (h : Restates s batches) (hnodup : (batches.map (·.id)).Nodup) {first : Oid}
    (hlinked : Linked s.batches first ids last) :
    Linked (s.saved queue batches).batches first ids last := by
  refine hlinked.congr fun id _ old hold => ?_
  obtain ⟨batch, hrow, heq⟩ := h.row hnodup hold
  exact ⟨batch, hrow, by rw [heq], by rw [heq]⟩

/-- A green batch no row of the list names stays green. -/
theorem Passed.saved (h : Passed s id) (hid : id ∉ batches.map (·.id)) :
    Passed (s.saved queue batches) id := by
  obtain ⟨batch, verdict, hrow, hrest⟩ := h
  exact ⟨batch, verdict, (saved_of_not_mem hid).trans hrow, hrest⟩

end Restated

/-- The green batches are none of the pending. -/
theorem Shows.not_pending_of_green (h : Shows doors s base greens) (hid : id ∈ greens) :
    id ∉ s.queue.pointers.pendingSlow := by
  intro hpending
  obtain ⟨batch, _, hrow, hgreen, -⟩ := h.passed id hid
  obtain ⟨batch', hrow', hstate⟩ := h.waiting id hpending
  obtain rfl := some.inj (hrow.symm.trans hrow')
  rw [hgreen] at hstate
  unfold pendingState at hstate
  split at hstate <;> exact nomatch hstate

/-- Where a stretch of landed batches ends. -/
def Ends : Oid → List (MergeBatch Files) → Oid → Prop
  | first, [], last => first = last
  | _, batch :: rest, last => ∃ landed, batch.landedHead = some landed ∧ Ends landed rest last

/-- A line is cut where its first batches end. -/
theorem Linked.split {rows : Bytes → Option (MergeBatch Files)} {mid : Oid} :
    ∀ {front : List (MergeBatch Files)} {first : Oid}, (∀ b ∈ front, rows b.id = some b) →
      Ends first front mid → Linked rows first (front.map (·.id) ++ ids) last →
        Linked rows first (front.map (·.id)) mid ∧ Linked rows mid ids last
  | [], _, _, hends, h => ⟨hends, hends ▸ h⟩
  | b :: front, first, hrows, ⟨landed, hlanded, hends⟩, ⟨b', landed', hrow, hfirst, hlanded', h⟩ => by
    rw [forall_mem_cons] at hrows
    obtain rfl := some.inj (hrows.1.symm.trans hrow)
    obtain rfl := some.inj (hlanded.symm.trans hlanded')
    obtain ⟨hfront, hback⟩ := Linked.split hrows.2 hends h
    exact ⟨⟨b, landed, hrow, hfirst, hlanded, hfront⟩, hback⟩

/-- **The first of the pending go green**, by their own passing verdicts. -/
theorem moves_green {front back : List (MergeBatch Files)} {green : Oid}
    (hintent : s.queue.intent = none)
    (hids : (front ++ back).map (·.id) = s.queue.pointers.pendingSlow)
    (hrows : ∀ b ∈ front ++ back, s.batches b.id = some b)
    (hpassed : ∀ b ∈ front, ∃ v, b.slowVerdict = some v ∧ s.verdicts v = some true)
    (hends : Ends s.queue.pointers.green front green) :
    LineMoves doors s (s.saved { s.queue with
        pointers := { s.queue.pointers with
          green
          pendingSlow := s.queue.pointers.pendingSlow.drop front.length } }
      (front.map (fun b => { b with state := .greenAdvanced }) ++ back)) := by
  refine ⟨fun base greens h => ?_, .inl (drop_suffix ..),
    fun _ _ _ _ _ hcase => nomatch hintent.symm.trans hcase⟩
  set queue : QueueRecord := { s.queue with
    pointers := { s.queue.pointers with
      pendingSlow := s.queue.pointers.pendingSlow.drop front.length } } with hqueue
  set batches := front.map (fun b => { b with state := BatchState.greenAdvanced }) ++ back with hbatches
  have hmap : batches.map (·.id) = s.queue.pointers.pendingSlow := by
    rw [hbatches, ← hids]
    simp
  have hnodup : (batches.map (·.id)).Nodup := hmap ▸ h.nodup
  have hdrop : s.queue.pointers.pendingSlow.drop front.length = back.map (·.id) := by
    rw [← hids, map_append, drop_left' (length_map _)]
  have hre : Restates s batches := by
    intro b hb
    rcases mem_append.mp hb with hb | hb
    · obtain ⟨b', hb', rfl⟩ := mem_map.mp hb
      exact ⟨b', hrows b' (mem_append_left _ hb'), rfl⟩
    · exact ⟨b, hrows b (mem_append_right _ hb), rfl⟩
  have hline := h.pendingLine
  rw [← hids, map_append] at hline
  obtain ⟨hfront, hback⟩ :=
    Linked.split (fun b hb => hrows b (mem_append_left _ hb)) hends hline
  have hgreens : ∀ id ∈ greens, id ∉ batches.map (·.id) := fun id hid =>
    hmap ▸ h.not_pending_of_green hid
  refine ⟨front.map (·.id), ?_, ?_, ?_, ?_, ?_, ?_, ?_, ?_⟩
  · exact (hre.linked hnodup h.greenLine).append (hre.linked hnodup hfront)
  · show Linked (s.saved queue batches).batches green (s.queue.pointers.pendingSlow.drop front.length) _
    rw [hdrop]
    exact hre.linked hnodup hback
  · intro id hid
    rcases mem_append.mp hid with hid | hid
    · exact (h.passed id hid).saved (hgreens id hid)
    · obtain ⟨b, hb, rfl⟩ := mem_map.mp hid
      obtain ⟨v, hv, hpass⟩ := hpassed b hb
      exact ⟨{ b with state := .greenAdvanced }, v,
        saved_of_mem hnodup (mem_append_left _ (mem_map.mpr ⟨b, hb, rfl⟩)), rfl, hv, hpass⟩
  · intro id hid
    replace hid : id ∈ back.map (·.id) := hdrop ▸ hid
    obtain ⟨b, hb, rfl⟩ := mem_map.mp hid
    obtain ⟨b', hrow, hstate⟩ := h.waiting b.id (hids ▸ mem_map_of_mem
      (mem_append_right _ hb))
    obtain rfl := some.inj (hrow.symm.trans (hrows b (mem_append_right _ hb)))
    exact ⟨_, saved_of_mem hnodup (mem_append_right _ hb), hstate⟩
  · intro id b hrow
    obtain ⟨old, hold, heq⟩ := hre.old hnodup hrow
    have hrows' := h.rows id old hold
    refine ⟨?_, ?_, fun hstate => ?_, fun hstate => ?_⟩
    · rw [heq]
      exact hrows'.self
    · rw [heq]
      exact hrows'.snapshot
    · show id ∈ s.queue.pointers.pendingSlow.drop front.length
      rw [hdrop]
      by_cases hid : id ∈ batches.map (·.id)
      · obtain ⟨b', hmem, rfl⟩ := mem_map.mp hid
        obtain rfl := some.inj ((saved_of_mem hnodup hmem).symm.trans hrow)
        rcases mem_append.mp hmem with hfront | hback
        · obtain ⟨_, -, rfl⟩ := mem_map.mp hfront
          exact hstate.elim nofun nofun
        · exact mem_map_of_mem hback
      · have hsame := (saved_of_not_mem hid).symm.trans hrow
        exact absurd ((h.rows id b hsame).pending hstate) (hmap ▸ hid)
    · by_cases hid : id ∈ batches.map (·.id)
      · obtain ⟨b', hmem, rfl⟩ := mem_map.mp hid
        obtain rfl := some.inj ((saved_of_mem hnodup hmem).symm.trans hrow)
        obtain ⟨b'', hrow'', hwaits⟩ := h.waiting b'.id (hmap ▸ hid)
        rw [hintent] at hwaits
        rcases mem_append.mp hmem with hfront | hback
        · obtain ⟨_, -, rfl⟩ := mem_map.mp hfront
          exact nomatch hstate
        · obtain rfl := some.inj
            (hrow''.symm.trans (hrows b' (mem_append_right _ hback)))
          exact nomatch hstate.symm.trans hwaits
      · exact (h.rows id b ((saved_of_not_mem hid).symm.trans hrow)).landing hstate
  · show (s.queue.pointers.pendingSlow.drop front.length).Nodup
    exact h.nodup.sublist (drop_sublist _ _)
  · intro id afterSeq hcase
    exact nomatch hintent.symm.trans hcase
  · intro snapshot expectedHead hcase
    exact nomatch hintent.symm.trans hcase

/-- Pending batches, as they are read, restated one by one. -/
theorem restates_map {state : BatchState} (hrows : ∀ b ∈ batches, s.batches b.id = some b) :
    Restates s (batches.map fun b => { b with state }) := by
  intro b hb
  obtain ⟨b', hb', rfl⟩ := mem_map.mp hb
  exact ⟨b', hrows b' hb', rfl⟩

/-- **A rollback begins**: every pending batch marked, the snapshot of the first one named. -/
theorem moves_rollback {first : MergeBatch Files} (expectedHead : Oid)
    (hintent : s.queue.intent = none) (hids : batches.map (·.id) = s.queue.pointers.pendingSlow)
    (hrows : ∀ b ∈ batches, s.batches b.id = some b) (hfirst : batches.head? = some first)
    (hsnapshot : first.preSnapshot = some snapshot) :
    LineMoves doors s (s.saved { s.queue with intent := some (.rollback snapshot expectedHead) }
      (batches.map fun b => { b with state := .rollingBack })) := by
  refine ⟨fun base greens h => ?_, .inl suffix_rfl,
    fun _ _ _ _ _ hcase => nomatch hintent.symm.trans hcase⟩
  set marked := batches.map fun b => { b with state := BatchState.rollingBack } with hmarked
  have hmap : marked.map (·.id) = s.queue.pointers.pendingSlow := by
    rw [hmarked, ← hids]
    simp
  have hnodup : (marked.map (·.id)).Nodup := hmap ▸ h.nodup
  have hre : Restates s marked := restates_map hrows
  have hstates : ∀ {id b}, id ∈ s.queue.pointers.pendingSlow →
      (s.saved { s.queue with intent := some (.rollback snapshot expectedHead) } marked).batches id =
        some b → b.state = .rollingBack := by
    intro id b hid hrow
    obtain ⟨b', hmem, rfl⟩ := mem_map.mp (hmap.symm ▸ hid : id ∈ marked.map (·.id))
    obtain rfl := some.inj ((saved_of_mem hnodup hmem).symm.trans hrow)
    obtain ⟨_, -, rfl⟩ := mem_map.mp hmem
    rfl
  refine ⟨[], ?_⟩
  rw [append_nil]
  refine ⟨hre.linked hnodup h.greenLine, hre.linked hnodup h.pendingLine, fun id hid =>
    (h.passed id hid).saved (hmap ▸ h.not_pending_of_green hid), ?_, ?_, h.nodup, nofun, ?_⟩
  · intro id hid
    obtain ⟨b, hb, -⟩ := h.waiting id hid
    obtain ⟨b', hrow, -⟩ := hre.row hnodup hb
    exact ⟨b', hrow, hstates hid hrow⟩
  · intro id b hrow
    obtain ⟨old, hold, heq⟩ := hre.old hnodup hrow
    have hrows' := h.rows id old hold
    by_cases hid : id ∈ marked.map (·.id)
    · have hstate := hstates (hmap ▸ hid) hrow
      refine ⟨heq ▸ hrows'.self, heq ▸ hrows'.snapshot, fun _ => hmap ▸ hid, fun hlanding => ?_⟩
      exact nomatch hlanding.symm.trans hstate
    · have hsame := (saved_of_not_mem hid).symm.trans hrow
      have hkept := h.rows id b hsame
      refine ⟨hkept.self, hkept.snapshot, hkept.pending, fun hlanding => ?_⟩
      obtain ⟨seq, hseq⟩ := hkept.landing hlanding
      exact nomatch hintent.symm.trans hseq
  · intro f eh hcase
    obtain ⟨rfl, -⟩ := EffectIntent.rollback.inj (some.inj hcase)
    have hline := h.pendingLine
    obtain ⟨rest, rfl⟩ : ∃ rest, batches = first :: rest := by
      cases batches with
      | nil => exact nomatch hfirst
      | cons b rest => exact ⟨rest, congrArg (· :: rest) (some.inj hfirst)⟩
    rw [← hids, map_cons] at hline
    obtain ⟨b, _, hb, hexpected, -⟩ := hline
    obtain rfl := some.inj ((hrows first mem_cons_self).symm.trans hb)
    have hnames := (h.rows first.id first hb).snapshot snapshot hsnapshot
    show NamesHead doors snapshot s.queue.pointers.green
    rw [← hexpected]
    exact hnames

/-- **A rollback finishes**: the head back at green, nothing pending. -/
theorem moves_rolledBack {expectedHead : Oid}
    (hintent : s.queue.intent = some (.rollback snapshot expectedHead))
    (hhead : doors.head s.repo = s.queue.pointers.green)
    (hids : batches.map (·.id) = s.queue.pointers.pendingSlow)
    (hrows : ∀ b ∈ batches, s.batches b.id = some b) : LineMoves doors s (s.saved { s.queue with
        pointers := { s.queue.pointers with head := s.queue.pointers.green, pendingSlow := [] }
        intent := none }
      (batches.map fun b => { b with state := .rolledBack })) := by
  set marked := batches.map fun b => { b with state := BatchState.rolledBack } with hmarked
  have hmap : marked.map (·.id) = s.queue.pointers.pendingSlow := by
    rw [hmarked, ← hids]
    simp
  refine ⟨fun base greens h => ?_, .inl (nil_suffix ..), fun base greens h _ _ _ => .inr
    ⟨rfl, rfl, fun id hid => ?_, hhead⟩⟩
  rotate_left
  · obtain ⟨b, hmem, rfl⟩ := mem_map.mp (hmap.symm ▸ hid : id ∈ marked.map (·.id))
    refine ⟨b, saved_of_mem (hmap ▸ h.nodup) hmem, ?_⟩
    obtain ⟨_, -, rfl⟩ := mem_map.mp hmem
    rfl
  have hnodup : (marked.map (·.id)).Nodup := hmap ▸ h.nodup
  have hre : Restates s marked := restates_map hrows
  refine ⟨[], ?_⟩
  rw [append_nil]
  refine ⟨hre.linked hnodup h.greenLine, rfl, fun id hid =>
    (h.passed id hid).saved (hmap ▸ h.not_pending_of_green hid),
    fun _ hid => absurd hid not_mem_nil, ?_, nodup_nil, nofun, nofun⟩
  intro id b hrow
  obtain ⟨old, hold, heq⟩ := hre.old hnodup hrow
  have hrows' := h.rows id old hold
  by_cases hid : id ∈ marked.map (·.id)
  · obtain ⟨b', hmem, rfl⟩ := mem_map.mp hid
    obtain rfl := some.inj ((saved_of_mem hnodup hmem).symm.trans hrow)
    have hstate : b'.state = .rolledBack := by
      obtain ⟨_, -, rfl⟩ := mem_map.mp hmem
      rfl
    refine ⟨rfl, heq ▸ hrows'.snapshot, fun hline => ?_, fun hlanding => ?_⟩
    · exact hline.elim (fun h => nomatch h.symm.trans hstate) fun h => nomatch h.symm.trans hstate
    · exact nomatch hlanding.symm.trans hstate
  · have hkept := h.rows id b ((saved_of_not_mem hid).symm.trans hrow)
    refine ⟨hkept.self, hkept.snapshot, fun hline => absurd (hkept.pending hline) (hmap ▸ hid),
      fun hlanding => ?_⟩
    obtain ⟨seq, hseq⟩ := hkept.landing hlanding
    exact nomatch hintent.symm.trans hseq

end MergeQueue

end Oneiron
