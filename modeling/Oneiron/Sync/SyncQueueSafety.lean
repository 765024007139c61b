import Oneiron.Foundations.System
import Oneiron.Sync.SyncQueue

/-!
# Sync/SyncQueueSafety — which numbers are given, and what a clear may drop

A clear by bound is two steps, and anything may fall between them.  Its write may set the counter
back below numbers given since its read; while the last number's row is still queued that does no
harm, for the next push counts past the row.  So long as every write finds it queued, or leaves the
counter at or above it, numbers only go up (`sync_queue_safe`).

      clear reads          push 1 … clear_updates          clear writes          push
    -----------------▸ -----------------------------▸ --------------------▸ ----------▸  1 again
      counter 0           counter 1, no row             counter 0
-/

open Std

namespace Oneiron

open Std.ExtTreeMap QueueRows

open List

/-- A clear between its two transactions, with how many numbers had been given when it read. -/
structure PendingClear extends ClearPlan where
  began : ℕ

/-- The queue, the clears under way, and the numbers given so far, newest first. -/
structure QueueState where
  rows : QueueRows
  calls : List PendingClear
  assigned : List ℕ
  /-- The highest number given, or found at the start. -/
  issued : ℕ

inductive QueueAct where
  | push (windowKey update : Bytes) (deleteBearing : Bool)
  | drain
  /-- The second transaction of a drain or a clear that found malformed rows. -/
  | prune (seqs : List ℕ) (strays : List Bytes)
  | clearRead (maxSeq : ℕ) (includeDeleteBearing : Bool)
  /-- The second transaction of one of the clears under way. -/
  | clearWrite (call : ℕ)
  | clearUpdates
  | clearAll
  | retire (seqs : List ℕ)

namespace QueueState

/-- One transaction; a refused push changes nothing. -/
def run (s : QueueState) : QueueAct → QueueState
  | .push windowKey update deleteBearing =>
    match s.rows.push windowKey update deleteBearing with
    | .ok (seq, rows) => { s with rows := rows, assigned := seq :: s.assigned, issued := seq }
    | .error _ => s
  | .drain => s
  | .prune seqs strays => { s with rows := s.rows.pruneMalformedRows seqs strays }
  | .clearRead maxSeq includeDeleteBearing =>
    { s with
      calls := ⟨s.rows.clearThroughRead maxSeq includeDeleteBearing, s.assigned.length⟩ :: s.calls }
  | .clearWrite call =>
    match s.calls[call]? with
    | some plan =>
      { s with
        rows := s.rows.clearThroughWrite plan.toClearPlan
        calls := s.calls.eraseIdx call }
    | none => s
  | .clearUpdates => { s with rows := s.rows.clearUpdates }
  | .clearAll => { s with rows := s.rows.clearAll }
  | .retire seqs => { s with rows := s.rows.retireConfirmed seqs }

end QueueState

/-- The queue under any interleaving, from one whose counter is at or above its rows. -/
def queueSystem : System QueueState QueueAct where
  init s := s.calls = [] ∧ s.assigned = [] ∧ s.issued = s.rows.counter ∧
    (∀ seq ∈ s.rows.updates, seq ≤ s.rows.counter) ∧ ∀ seq ∈ s.rows.markers, seq ∈ s.rows.updates
  step s act t := t = s.run act

/-- What a clear's write must find: the last number's row still queued, or a counter of its own at
or above that number. -/
def ClearFresh (s : QueueState) (act : QueueAct) : Prop :=
  ∀ call plan, act = .clearWrite call → s.calls[call]? = some plan →
    s.issued ≤ plan.preserved ∨ s.issued ∈ s.rows.updates

/-- **What holds of the queue at every point of such a run.** -/
structure QueueState.Inv (s : QueueState) : Prop where
  assigned_desc : s.assigned.Pairwise (· > ·)
  assigned_le : ∀ seq ∈ s.assigned, seq ≤ s.issued
  head : ∀ seq, s.assigned.head? = some seq → seq = s.issued
  updates_le : ∀ seq ∈ s.rows.updates, seq ≤ s.issued
  /-- The next push counts past every number given. -/
  high : s.issued ≤ s.rows.counter ∨ (s.issued ∈ s.rows.updates ∧ s.issued ∈ s.assigned)
  markers : ∀ seq ∈ s.rows.markers, seq ∈ s.rows.updates
  /-- What was pushed decodes. -/
  wellFormed : ∀ seq ∈ s.assigned, s.rows.isMalformed seq = false
  began_le : ∀ plan ∈ s.calls, plan.began ≤ s.assigned.length
  doomed_le : ∀ plan ∈ s.calls, ∀ seq ∈ plan.doomed, seq ≤ s.issued ∧ seq ≤ plan.preserved
  /-- Nothing numbered since a clear read is among what it will delete. -/
  doomed_lt : ∀ plan ∈ s.calls, ∀ seq ∈ plan.doomed,
    ∀ new ∈ s.assigned.take (s.assigned.length - plan.began), seq < new
  doomed_marked : ∀ plan ∈ s.calls, ∀ seq ∈ plan.doomed, seq ∈ s.rows.markers →
    seq ∈ plan.doomedMarkers
  doomedMarkers : ∀ plan ∈ s.calls, ∀ seq ∈ plan.doomedMarkers,
    plan.confirmed ∧ seq ∈ plan.doomed
  /-- A counter is set back only past what was numbered since its clear read. -/
  preserved : ∀ plan ∈ s.calls, plan.began = s.assigned.length → s.issued ≤ plan.preserved

/-- **What one transaction may do to the queue.** -/
structure QueueKept (s : QueueState) (act : QueueAct) (t : QueueState) : Prop where
  /-- Numbers are given in increasing order, each once. -/
  increasing : t.assigned.Pairwise (· > ·)
  /-- A clear removes nothing that was pushed after it began. -/
  cleared : ∀ call plan, act = .clearWrite call → s.calls[call]? = some plan →
    ∀ seq ∈ s.rows.updates, seq ∉ t.rows.updates →
      seq ∉ s.assigned.take (s.assigned.length - plan.began)
  /-- A delete-bearing row stays one while it is queued. -/
  marked : ∀ seq ∈ s.rows.markers, seq ∈ t.rows.updates → seq ∈ t.rows.markers
  /-- A delete-bearing row leaves only by a confirmed clear, a retirement or as malformed. -/
  deleteBearing : ∀ seq ∈ s.rows.updates, seq ∈ s.rows.markers → seq ∉ t.rows.updates →
    (∃ call plan, act = .clearWrite call ∧ s.calls[call]? = some plan ∧ plan.confirmed) ∨
    (∃ seqs, act = .retire seqs ∧ seq ∈ seqs) ∨
    ∃ seqs strays, act = .prune seqs strays ∧ s.rows.isMalformed seq
  /-- No marker outlives its row. -/
  markers : ∀ seq ∈ t.rows.markers, seq ∈ t.rows.updates

namespace QueueState

variable {s : QueueState} {act : QueueAct} {rows : QueueRows}

namespace Inv

section

variable (h : s.Inv)

include h

/-- **Numbers given stay below what a repaired counter counts from.** -/
theorem issued_le : s.issued ≤ max s.rows.counter s.rows.maxValidUpdateSeq := by
  rcases h.high with h | ⟨h, -⟩
  · exact h.trans (le_max_left _ _)
  · exact (le_maxValidUpdateSeq h).trans (le_max_right _ _)

/-- A row lost is no harm while the counter, or the last number's row, is kept. -/
theorem of_rows
    (hupdates : ∀ seq : ℕ, rows.updates[seq]? = none ∨ rows.updates[seq]? = s.rows.updates[seq]?)
    (hmarkers : ∀ seq ∈ rows.markers, seq ∈ s.rows.markers ∧ seq ∈ rows.updates)
    (hhigh : s.issued ≤ rows.counter ∨ (s.issued ∈ rows.updates ∧ s.issued ∈ s.assigned)) :
    { s with rows := rows }.Inv where
  assigned_desc := h.assigned_desc
  assigned_le := h.assigned_le
  head := h.head
  updates_le := by
    intro seq hseq
    refine h.updates_le seq ?_
    rw [mem_iff_isSome_getElem?] at hseq ⊢
    rcases hupdates seq with he | he
    · simp [he] at hseq
    · exact he ▸ hseq
  high := hhigh
  markers := fun seq hseq => (hmarkers seq hseq).2
  wellFormed := by
    intro seq hseq
    rcases hupdates seq with he | he
    · simp [isMalformed, he]
    · have hwf := h.wellFormed seq hseq
      simp only [isMalformed] at hwf ⊢
      rw [he, hwf]
  began_le := h.began_le
  doomed_le := h.doomed_le
  doomed_lt := h.doomed_lt
  doomed_marked := fun plan hplan seq hseq hm =>
    h.doomed_marked plan hplan seq hseq (hmarkers seq hm).1
  doomedMarkers := h.doomedMarkers
  preserved := h.preserved

/-- Clears that end are no harm. -/
theorem of_calls {calls : List PendingClear} (hcalls : ∀ plan ∈ calls, plan ∈ s.calls) :
    { s with calls := calls }.Inv :=
  { h with
    began_le := fun plan hp => h.began_le plan (hcalls plan hp)
    doomed_le := fun plan hp => h.doomed_le plan (hcalls plan hp)
    doomed_lt := fun plan hp => h.doomed_lt plan (hcalls plan hp)
    doomed_marked := fun plan hp => h.doomed_marked plan (hcalls plan hp)
    doomedMarkers := fun plan hp => h.doomedMarkers plan (hcalls plan hp)
    preserved := fun plan hp => h.preserved plan (hcalls plan hp) }

theorem push {windowKey update : Bytes} {deleteBearing : Bool} {seq : ℕ}
    (hpush : s.rows.push windowKey update deleteBearing = .ok (seq, rows)) :
    { s with rows := rows, assigned := seq :: s.assigned, issued := seq }.Inv := by
  obtain ⟨value, hvalue, hseq, rfl⟩ := push_eq_ok hpush
  have hlt : s.issued < seq := hseq ▸ Nat.lt_succ_of_le h.issued_le
  have hmarked (m : ℕ) (hm : m ∈ (if deleteBearing then s.rows.markers.insert seq
      else s.rows.markers)) : m = seq ∨ m ∈ s.rows.markers := by
    split at hm
    · rw [ExtTreeSet.mem_insert, Std.compare_eq_iff_eq] at hm
      exact hm.imp_left Eq.symm
    · exact Or.inr hm
  have hdecodes : (decodeUpdateValue value).toOption.isNone = false := by
    rw [decodeUpdateValue_of_encode hvalue]
    rfl
  exact {
    assigned_desc := pairwise_cons.mpr
      ⟨fun a ha => (h.assigned_le a ha).trans_lt hlt, h.assigned_desc⟩
    assigned_le := by
      intro a ha
      rcases mem_cons.mp ha with rfl | ha
      · exact le_rfl
      · exact (h.assigned_le a ha).trans hlt.le
    head := fun a ha => (Option.some.inj ha).symm
    updates_le := by
      intro a ha
      simp only [mem_insert, Std.compare_eq_iff_eq] at ha
      rcases ha with rfl | ha
      · exact le_rfl
      · exact (h.updates_le a ha).trans hlt.le
    high := Or.inl le_rfl
    markers := by
      intro m hm
      simp only [mem_insert, Std.compare_eq_iff_eq]
      rcases hmarked m hm with rfl | hm
      · exact Or.inl rfl
      · exact Or.inr (h.markers m hm)
    wellFormed := by
      intro a ha
      by_cases hne : seq = a
      · subst hne
        simp [isMalformed, hdecodes]
      · have hwf := h.wellFormed a ((mem_cons.mp ha).resolve_left fun he => hne he.symm)
        simpa [isMalformed, ExtTreeMap.getElem?_insert, hne] using hwf
    began_le := fun plan hp => (h.began_le plan hp).trans (Nat.le_succ _)
    doomed_le := fun plan hp a ha =>
      ⟨(h.doomed_le plan hp a ha).1.trans hlt.le, (h.doomed_le plan hp a ha).2⟩
    doomed_lt := by
      intro plan hp a ha new hnew
      have hsucc : s.assigned.length + 1 - plan.began = (s.assigned.length - plan.began) + 1 :=
        Nat.succ_sub (h.began_le plan hp)
      rw [length_cons, hsucc, take_succ_cons, mem_cons] at hnew
      rcases hnew with rfl | hnew
      · exact (h.doomed_le plan hp a ha).1.trans_lt hlt
      · exact h.doomed_lt plan hp a ha new hnew
    doomed_marked := by
      intro plan hp a ha hm
      rcases hmarked a hm with rfl | hm
      · exact absurd (h.doomed_le plan hp a ha).1 (by omega)
      · exact h.doomed_marked plan hp a ha hm
    doomedMarkers := h.doomedMarkers
    preserved := fun plan hp he => absurd (h.began_le plan hp) (by
      simp only [length_cons] at he
      omega) }

/-- **A clear that begins now** counts nothing as numbered since. -/
theorem clearRead (maxSeq : ℕ) (includeDeleteBearing : Bool) :
    (s.run (.clearRead maxSeq includeDeleteBearing)).Inv := by
  have hdoomed (seq : ℕ)
      (hseq : seq ∈ (s.rows.clearThroughRead maxSeq includeDeleteBearing).doomed) :
      seq ∈ s.rows.updates ∧ seq ≤ maxSeq ∧ (seq ∈ s.rows.markers → includeDeleteBearing) := by
    simp only [clearThroughRead, mem_filter, ExtTreeMap.mem_keys] at hseq
    simp only [Bool.and_eq_true, Bool.or_eq_true, decide_eq_true_eq] at hseq
    exact ⟨hseq.1, hseq.2.1, fun hm => hseq.2.2.resolve_right (not_not_intro hm)⟩
  have hkept : s.issued ≤ (s.rows.clearThroughRead maxSeq includeDeleteBearing).preserved := by
    rcases h.high with hle | ⟨hmem, -⟩
    · exact hle.trans ((le_max_left _ _).trans (le_max_left _ _))
    · by_cases hle : s.issued ≤ maxSeq
      · exact hle.trans (le_max_right _ _)
      · -- its row stays, so it is counted among those that remain
        have hremains : s.issued ∈ s.rows.updates.keys.filter fun seq =>
            !(decide (seq ≤ maxSeq) && (includeDeleteBearing || decide (seq ∉ s.rows.markers))) :=
          mem_filter.mpr ⟨ExtTreeMap.mem_keys.mpr hmem, by simp [hle]⟩
        exact (le_foldl_max.1 _ hremains).trans
          ((le_max_right _ _).trans (le_max_left _ _))
  exact {
    assigned_desc := h.assigned_desc
    assigned_le := h.assigned_le
    head := h.head
    updates_le := h.updates_le
    high := h.high
    markers := h.markers
    wellFormed := h.wellFormed
    began_le := forall_mem_cons.mpr ⟨le_rfl, h.began_le⟩
    doomed_le := forall_mem_cons.mpr ⟨fun seq hseq =>
      ⟨h.updates_le seq (hdoomed seq hseq).1, (hdoomed seq hseq).2.1.trans (le_max_right _ _)⟩,
      h.doomed_le⟩
    doomed_lt := by
      refine forall_mem_cons.mpr ⟨fun seq _ new hnew => ?_, h.doomed_lt⟩
      have hnone : s.assigned.take (s.assigned.length - s.assigned.length) = [] := by simp
      exact absurd (hnone ▸ hnew) not_mem_nil
    doomed_marked := forall_mem_cons.mpr ⟨fun seq hseq hm =>
      mem_filter.mpr ⟨hseq, decide_eq_true hm⟩, h.doomed_marked⟩
    doomedMarkers := forall_mem_cons.mpr ⟨fun seq hseq =>
      ⟨(hdoomed seq (mem_filter.mp hseq).1).2.2 (of_decide_eq_true (mem_filter.mp hseq).2),
        (mem_filter.mp hseq).1⟩,
      h.doomedMarkers⟩
    preserved := forall_mem_cons.mpr ⟨fun _ => hkept, h.preserved⟩ }

/-- The rows a set of deletions leaves, under any counter. -/
theorem without (rows : QueueRows) (updates markers : List ℕ)
    (hmarked : ∀ seq ∈ updates, seq ∈ s.rows.markers → seq ∈ markers)
    (hrows : rows.updates = (s.rows.without updates markers).updates)
    (hmarkers : rows.markers = (s.rows.without updates markers).markers)
    (hhigh : s.issued ≤ rows.counter ∨ (s.issued ∈ rows.updates ∧ s.issued ∈ s.assigned)) :
    { s with rows := rows }.Inv := by
  refine h.of_rows (fun seq => ?_) (fun seq hseq => ?_) hhigh
  · rw [hrows, getElem?_without]
    split
    · exact Or.inl rfl
    · exact Or.inr rfl
  · rw [hmarkers, mem_markers_without] at hseq
    rw [hrows, mem_updates_without]
    exact ⟨hseq.1, h.markers seq hseq.1, fun hgone => hseq.2 (hmarked seq hgone hseq.1)⟩

/-- **A clear that writes**, and finds what `ClearFresh` asks. -/
theorem clearWrite {call : ℕ} (hfresh : ClearFresh s (.clearWrite call)) :
    (s.run (.clearWrite call)).Inv := by
  simp only [run]
  split
  · next plan hplan =>
    have hmem := mem_of_getElem? hplan
    have hrows := h.without (s.rows.clearThroughWrite plan.toClearPlan) plan.doomed
      plan.doomedMarkers (h.doomed_marked plan hmem) rfl rfl ?_
    · exact hrows.of_calls fun plan hp => (eraseIdx_sublist _ _).subset hp
    · rcases hfresh call plan rfl hplan with hle | hlast
      · exact Or.inl hle
      · by_cases hle : s.issued ≤ plan.preserved
        · exact Or.inl hle
        · have hstays : s.issued ∉ plan.doomed := fun hd => hle (h.doomed_le plan hmem _ hd).2
          have hrow : s.issued ∈ (s.rows.without plan.doomed plan.doomedMarkers).updates :=
            mem_updates_without.mpr ⟨hlast, hstays⟩
          refine Or.inr ⟨hrow, ?_⟩
          -- the counter is behind, so something was numbered since the read: the last number
          cases hhead : s.assigned with
          | nil =>
            refine absurd (h.preserved plan hmem ?_) hle
            exact Nat.le_antisymm (h.began_le plan hmem) (by rw [hhead]; exact Nat.zero_le _)
          | cons a rest =>
            have := h.head a (by rw [hhead]; rfl)
            rw [← this]
            exact mem_cons_self
  · exact h

theorem prune (seqs : List ℕ) (strays : List Bytes) : (s.run (.prune seqs strays)).Inv := by
  refine h.without _ (seqs.filter s.rows.isMalformed) (seqs.filter s.rows.isMalformed)
    (fun _ hseq _ => hseq) rfl rfl ?_
  rcases h.high with hle | ⟨hlast, hgiven⟩
  · exact Or.inl hle
  · have hstays : s.issued ∉ seqs.filter s.rows.isMalformed := by simp [h.wellFormed _ hgiven]
    have hrow : s.issued ∈ (s.rows.without (seqs.filter s.rows.isMalformed)
        (seqs.filter s.rows.isMalformed)).updates :=
      mem_updates_without.mpr ⟨hlast, hstays⟩
    exact Or.inr ⟨hrow, hgiven⟩

theorem clearUpdates : (s.run .clearUpdates).Inv := by
  refine h.without _ s.rows.unmarked [] (fun seq hseq hm => ?_)
    (by rfl) (by rfl) (Or.inl ?_)
  · simp [unmarked, hm] at hseq
  · exact h.issued_le.trans_eq counter_ensureLastUpdateSeq.symm

theorem clearAll : (s.run .clearAll).Inv := by
  refine h.without _ s.rows.unmarked [] (fun seq hseq hm => ?_)
    rfl rfl (Or.inl h.issued_le)
  simp [unmarked, hm] at hseq

theorem retire (seqs : List ℕ) : (s.run (.retire seqs)).Inv :=
  h.without _ seqs seqs (fun _ hseq _ => hseq) rfl rfl
    (Or.inl (h.issued_le.trans_eq counter_ensureLastUpdateSeq.symm))

end

/-- **One transaction keeps it.** -/
theorem step (h : s.Inv) (hfresh : ClearFresh s act) : (s.run act).Inv := by
  cases act with
  | push windowKey update deleteBearing =>
    simp only [run]
    split
    · next hpush => exact h.push hpush
    · exact h
  | drain => exact h
  | prune seqs strays => exact h.prune seqs strays
  | clearRead maxSeq confirmed => exact h.clearRead maxSeq confirmed
  | clearWrite call => exact h.clearWrite hfresh
  | clearUpdates => exact h.clearUpdates
  | clearAll => exact h.clearAll
  | retire seqs => exact h.retire seqs

/-- The rows a transaction that deletes leaves, under any counter. -/
theorem kept_without (h : s.Inv) (hfresh : ClearFresh s act) (updates markers : List ℕ)
    (hmarkers : ∀ seq ∈ markers, seq ∈ updates)
    (hleft : (s.run act).rows.updates = (s.rows.without updates markers).updates)
    (hstill : (s.run act).rows.markers = (s.rows.without updates markers).markers)
    (hcleared : ∀ call plan, act = .clearWrite call → s.calls[call]? = some plan →
      ∀ seq ∈ updates, seq ∉ s.assigned.take (s.assigned.length - plan.began))
    (hbearing : ∀ seq ∈ updates, seq ∈ s.rows.updates → seq ∈ s.rows.markers →
      (∃ call plan, act = .clearWrite call ∧ s.calls[call]? = some plan ∧ plan.confirmed) ∨
      (∃ seqs, act = .retire seqs ∧ seq ∈ seqs) ∨
      ∃ seqs strays, act = .prune seqs strays ∧ s.rows.isMalformed seq) :
    QueueKept s act (s.run act) := by
  have hgone (seq : ℕ) (hseq : seq ∈ s.rows.updates) (hnot : seq ∉ (s.run act).rows.updates) :
      seq ∈ updates := by
    rw [hleft, mem_updates_without] at hnot
    exact not_not.mp fun h => hnot ⟨hseq, h⟩
  exact {
    increasing := (h.step hfresh).assigned_desc
    cleared := fun call plan hact hplan seq hseq hnot =>
      hcleared call plan hact hplan seq (hgone seq hseq hnot)
    marked := by
      intro seq hm hrow
      rw [hleft, mem_updates_without] at hrow
      rw [hstill, mem_markers_without]
      exact ⟨hm, fun hgone => hrow.2 (hmarkers seq hgone)⟩
    deleteBearing := fun seq hseq hm hnot => hbearing seq (hgone seq hseq hnot) hseq hm
    markers := (h.step hfresh).markers }

/-- A transaction that deletes nothing. -/
theorem kept_of_subset (h : s.Inv) (hfresh : ClearFresh s act)
    (hupdates : ∀ seq ∈ s.rows.updates, seq ∈ (s.run act).rows.updates)
    (hmarkers : ∀ seq ∈ s.rows.markers, seq ∈ (s.run act).rows.markers) :
    QueueKept s act (s.run act) where
  increasing := (h.step hfresh).assigned_desc
  cleared := fun _ _ _ _ seq hseq hnot => absurd (hupdates seq hseq) hnot
  marked := fun seq hm _ => hmarkers seq hm
  deleteBearing := fun seq hseq _ hnot => absurd (hupdates seq hseq) hnot
  markers := (h.step hfresh).markers

theorem kept_push (h : s.Inv) (windowKey update : Bytes) (deleteBearing : Bool) :
    QueueKept s (.push windowKey update deleteBearing)
      (s.run (.push windowKey update deleteBearing)) := by
  refine h.kept_of_subset nofun (fun a ha => ?_) fun a ha => ?_
  all_goals
    simp only [run]
    split
    · next hpush =>
      obtain ⟨value, -, -, rfl⟩ := push_eq_ok hpush
      first
      | exact mem_insert.mpr (Or.inr ha)
      | split
        · exact ExtTreeSet.mem_insert.mpr (Or.inr ha)
        · exact ha
    · exact ha

theorem kept_clearWrite (h : s.Inv) {call : ℕ} (hfresh : ClearFresh s (.clearWrite call)) :
    QueueKept s (.clearWrite call) (s.run (.clearWrite call)) := by
  cases hplan : s.calls[call]? with
  | none =>
    have hrun : s.run (.clearWrite call) = s := by simp [run, hplan]
    exact h.kept_of_subset hfresh (fun _ ha => hrun.symm ▸ ha) fun _ ha => hrun.symm ▸ ha
  | some plan =>
    have hmem := mem_of_getElem? hplan
    refine h.kept_without hfresh plan.doomed plan.doomedMarkers
      (fun seq hseq => (h.doomedMarkers plan hmem seq hseq).2) ?_ ?_ ?_ ?_
    · simp only [run, hplan]
      rfl
    · simp only [run, hplan]
      rfl
    · rintro _ plan' ⟨⟩ hplan' seq hseq hnew
      obtain rfl := Option.some.inj (hplan.symm.trans hplan')
      exact lt_irrefl _ (h.doomed_lt plan hmem seq hseq seq hnew)
    · intro seq hseq _ hm
      exact Or.inl ⟨call, plan, rfl, hplan,
        (h.doomedMarkers plan hmem seq (h.doomed_marked plan hmem seq hseq hm)).1⟩

/-- **What one transaction may do**, from any state the invariant holds of. -/
theorem kept (h : s.Inv) (hfresh : ClearFresh s act) : QueueKept s act (s.run act) := by
  have hunmarked (seq : ℕ) (hseq : seq ∈ s.rows.unmarked) (hm : seq ∈ s.rows.markers) : False := by
    simp [unmarked, hm] at hseq
  cases act with
  | push windowKey update deleteBearing => exact h.kept_push windowKey update deleteBearing
  | drain | clearRead maxSeq confirmed =>
    exact h.kept_of_subset hfresh (fun _ ha => ha) fun _ ha => ha
  | prune seqs strays =>
    refine h.kept_without hfresh (seqs.filter s.rows.isMalformed) (seqs.filter s.rows.isMalformed)
      (fun _ hseq => hseq) rfl rfl nofun fun seq hseq _ _ => ?_
    exact Or.inr (Or.inr ⟨seqs, strays, rfl, (mem_filter.mp hseq).2⟩)
  | clearWrite call => exact h.kept_clearWrite hfresh
  | clearUpdates | clearAll =>
    exact h.kept_without hfresh s.rows.unmarked [] nofun rfl rfl nofun
      fun seq hseq _ hm => (hunmarked seq hseq hm).elim
  | retire seqs =>
    exact h.kept_without hfresh seqs seqs (fun _ hseq => hseq) rfl rfl
      nofun fun seq hseq _ _ => Or.inr (Or.inl ⟨seqs, rfl, hseq⟩)

end Inv

theorem inv_of_init (h : queueSystem.init s) : s.Inv := by
  obtain ⟨hcalls, hassigned, hissued, hupdates, hmarkers⟩ := h
  constructor <;> simp_all

end QueueState

theorem inv_of_reachable {s : QueueState} (hs : (queueSystem.restrict ClearFresh).Reachable s) :
    s.Inv := by
  induction hs with
  | start h => exact QueueState.inv_of_init h
  | step _ h ih =>
    obtain ⟨rfl, hfresh⟩ := h
    exact ih.step hfresh

/-- **Numbers only go up, and no clear takes what it did not see**, while every clear's write finds
the last number's row still queued, or leaves the counter at or above it. -/
theorem sync_queue_safe {s t : QueueState} {act : QueueAct}
    (hs : (queueSystem.restrict ClearFresh).Reachable s)
    (hstep : (queueSystem.restrict ClearFresh).step s act t) : QueueKept s act t := by
  obtain ⟨rfl, hfresh⟩ := hstep
  exact (inv_of_reachable hs).kept hfresh

/-! ## Two runs from an empty queue -/

def emptyQueue : QueueState := ⟨⟨∅, ∅, ∅, none⟩, [], [], 0⟩

def january : Bytes := ascii "2024-01"

theorem emptyQueue_init : queueSystem.init emptyQueue := by
  refine ⟨rfl, rfl, rfl, fun seq h => ?_, fun seq h => ?_⟩
  · exact absurd h not_mem_empty
  · exact absurd h ExtTreeSet.not_mem_empty

/-- An empty queue where a clear has read, and a push has followed. -/
def pushedQueue : QueueState := (emptyQueue.run (.clearRead 0 false)).run (.push january [7] true)

theorem reachable_pushedQueue : (queueSystem.restrict ClearFresh).Reachable pushedQueue :=
  .step (.step (.start emptyQueue_init) ⟨rfl, nofun⟩) ⟨rfl, nofun⟩

/-- A push between the halves of a clear is kept. -/
theorem sync_queue_safe_pushed :
    QueueKept pushedQueue (.clearWrite 0) (pushedQueue.run (.clearWrite 0)) := by
  refine sync_queue_safe reachable_pushedQueue ⟨rfl, ?_⟩
  have hlast : pushedQueue.issued ∈ pushedQueue.rows.updates := by decide +kernel
  exact fun _ _ _ _ => Or.inr hlast

/-- **A clear's write after the row it missed is gone** gives a number twice. -/
theorem sync_queue_number_twice :
    ∃ s, queueSystem.Run emptyQueue
      [.clearRead 0 false, .push january [7] false, .clearUpdates, .clearWrite 0,
        .push january [8] false] s ∧
      s.assigned = [1, 1] := by
  refine ⟨_, .cons rfl (.cons rfl (.cons rfl (.cons rfl (.cons rfl (.nil _))))), ?_⟩
  decide +kernel

/-! ## What a drain hands out -/

/-- The update a transaction pushes. -/
def QueueAct.pushed : QueueAct → Option (Bytes × Bytes)
  | .push windowKey update _ => some (windowKey, update)
  | _ => none

namespace QueueRows

variable {rows rows' : QueueRows}

/-- **A push goes last**: its number is past every row. -/
theorem drainUpdates_push {windowKey update : Bytes} {deleteBearing : Bool} {seq : ℕ}
    (h : rows.push windowKey update deleteBearing = .ok (seq, rows')) :
    rows'.drainUpdates = rows.drainUpdates ++ [(seq, windowKey, update)] := by
  obtain ⟨value, hvalue, hseq, rfl⟩ := push_eq_ok h
  have hlt (n : ℕ) (hn : n ∈ rows.updates) : n < seq :=
    hseq ▸ Nat.lt_succ_of_le ((le_maxValidUpdateSeq hn).trans (le_max_right _ _))
  have hlist : rows.updates.toList ++ [(seq, value)] = (rows.updates.insert seq value).toList := by
    refine OrderedMap.eq_toList_of_sorted (pairwise_append.mpr
      ⟨ordered_keys_toList, pairwise_singleton _ _, fun p hp q hq => ?_⟩) fun n v => ?_
    · obtain rfl := mem_singleton.mp hq
      exact Std.compare_eq_lt.mpr (hlt _ (mem_iff_isSome_getElem?.mpr
        (mem_toList_iff_getElem?_eq_some.mp hp ▸ rfl)))
    · by_cases heq : n = seq
      · subst heq
        have hnone : rows.updates[n]? = none := getElem?_eq_none fun hn => (hlt _ hn).false
        simp [mem_toList_iff_getElem?_eq_some, hnone, eq_comm]
      · simp [mem_toList_iff_getElem?_eq_some, ExtTreeMap.getElem?_insert, heq, Ne.symm heq]
  rw [drainUpdates, ← hlist, filterMap_append]
  simp only [filterMap_cons, filterMap_nil, decodeUpdateValue_of_encode hvalue]
  rfl

/-- **A prune takes nothing a drain hands out.** -/
theorem drainUpdates_prune (seqs : List ℕ) (strays : List Bytes) :
    (rows.pruneMalformedRows seqs strays).drainUpdates = rows.drainUpdates := by
  rw [drainUpdates, drainUpdates, pruneMalformedRows, without, toList_filter, filterMap_filter]
  refine filterMap_congr fun p hp => ?_
  rw [mem_toList_iff_getElem?_eq_some] at hp
  cases h : decodeUpdateValue p.2 <;> simp [isMalformed, hp, h, Except.toOption]

end QueueRows

/-- What one transaction leaves for a drain, at most what it pushed added at the end. -/
theorem QueueState.drainUpdates_run (s : QueueState) (act : QueueAct) :
    (s.run act).rows.drainUpdates.map Prod.snd <+
      s.rows.drainUpdates.map Prod.snd ++ act.pushed.toList := by
  have hfilter {rows : QueueRows} {keeps : ℕ → Bytes → Bool}
      (h : rows.updates = s.rows.updates.filter keeps) : rows.drainUpdates.map Prod.snd <+
        s.rows.drainUpdates.map Prod.snd ++ [] := by
    rw [append_nil, drainUpdates, h, toList_filter]
    exact (filter_sublist.filterMap _).map _
  cases act with
  | push windowKey update deleteBearing =>
    simp only [run]
    split
    · next hpush => simp [drainUpdates_push hpush, QueueAct.pushed]
    · exact sublist_append_left _ _
  | drain | clearRead => exact sublist_append_left _ _
  | clearWrite call =>
    simp only [run]
    split
    · exact hfilter rfl
    · exact sublist_append_left _ _
  | prune | clearUpdates | clearAll | retire => exact hfilter rfl

/-- **First in, first out**, over every run of the queue: what a drain hands out is, in order, some of
what was handed out before and then of what was pushed; a push accepted is handed out last; and
pruning what does not decode takes nothing from it. -/
theorem drainUpdates_fifo {s t : QueueState} {acts : List QueueAct} (h : queueSystem.Run s acts t) :
    t.rows.drainUpdates.map Prod.snd <+
        s.rows.drainUpdates.map Prod.snd ++ acts.filterMap QueueAct.pushed ∧
      (∀ windowKey update deleteBearing seq rows,
        t.rows.push windowKey update deleteBearing = .ok (seq, rows) →
          rows.drainUpdates = t.rows.drainUpdates ++ [(seq, windowKey, update)]) ∧
      ∀ seqs strays, (t.rows.pruneMalformedRows seqs strays).drainUpdates = t.rows.drainUpdates := by
  refine ⟨?_, fun _ _ _ _ _ => drainUpdates_push, drainUpdates_prune⟩
  induction h with
  | nil => simp
  | @cons s _ _ act acts hstep _ ih =>
    obtain rfl := hstep
    have hlater : act.pushed.toList ++ acts.filterMap QueueAct.pushed =
        (act :: acts).filterMap QueueAct.pushed := by
      rw [filterMap_cons]
      cases act.pushed <;> rfl
    refine ih.trans ?_
    rw [← hlater, ← append_assoc]
    exact (s.drainUpdates_run act).append_right _

/-- A clear that reads before a push hands the push out all the same. -/
theorem drainUpdates_fifo_pushed : pushedQueue.rows.drainUpdates.map Prod.snd <+ [(january, [7])] :=
  (drainUpdates_fifo (.cons rfl (.cons rfl (.nil pushedQueue)) :
    queueSystem.Run emptyQueue [.clearRead 0 false, .push january [7] true] _)).1

end Oneiron
