import Oneiron.MergeQueue.QueueSafety

/-!
# MergeQueue/Runs — every operation keeps the line, wherever it stops

Each operation is run step by step (`Work.From`), its writes being those of `QueueSafety`; a crash
leaves one of the states in between, and the next operation starts there.  A settlement that reads a
failing verdict marks the pending batches and names the snapshot to go back to; from then on only a
finished rollback clears the intent.
-/

namespace Oneiron

open List Option

namespace MergeQueue

open Work From

variable {Repo Files Stack : Type} {doors : RepoDoors Repo Files Stack} {asked : Asked Repo Files}
  {s t : State Repo Files Stack} {base : Oid} {greens : List Bytes} {id : Bytes}
  {batch : MergeBatch Files}

/-! ## Pieces of work -/

/-- The rows are as they were. -/
structure SameRows (s t : State Repo Files Stack) : Prop where
  queue : t.queue = s.queue
  batches : t.batches = s.batches
  verdicts : t.verdicts = s.verdicts

theorem SameRows.refl : SameRows s s := ⟨rfl, rfl, rfl⟩

variable {u : State Repo Files Stack} {R : State Repo Files Stack → State Repo Files Stack → Prop}
  {proposals : List (MergeProposal Files)} {mask afterSeq : ℕ} {queue : QueueRecord}
  {batches : List (MergeBatch Files)} {snapshot : RepoForkHash} {phase : CheckPhase} {commit : Oid}
  {passes : Bool} {verdict : Bytes}

theorem SameRows.trans (h : SameRows s t) (h' : SameRows t u) : SameRows s u :=
  ⟨h'.queue.trans h.queue, h'.batches.trans h.batches, h'.verdicts.trans h.verdicts⟩

theorem SameRows.moves (h : SameRows s t) : LineMoves doors s t :=
  .frame h.queue h.batches fun v hv => by rw [h.verdicts]; exact hv

theorem from_save {Q : Unit → State Repo Files Stack → Prop}
    (h : LineMoves doors s (s.saved queue batches)) (hQ : Q () (s.saved queue batches)) :
    From (LineMoves doors) s (save queue batches) Q :=
  read_bind (.write h hQ)

theorem from_save_bind {α : Type} {f : Unit → QueueWork Repo Files Stack α}
    {Q : α → State Repo Files Stack → Prop} (h : LineMoves doors s (s.saved queue batches))
    (hf : From (LineMoves doors) (s.saved queue batches) (f ()) Q) :
    From (LineMoves doors) s (save queue batches >>= f) Q :=
  (from_save (Q := fun _ t => t = s.saved queue batches) h rfl).bind fun _ _ ht => ht ▸ hf

theorem sameRows_mutated (operationKind : String) (result : Option Repo) :
    SameRows s (s.mutated doors operationKind result) := ⟨rfl, rfl, rfl⟩

theorem from_mutate (hR : ∀ t, SameRows s t → R s t) {operationKind : String} {result : Option Repo}
    :
    From R s (mutate doors operationKind result)
      fun _ t => SameRows s t ∧ t.repo = result.getD s.repo :=
  read_bind (.write (hR _ (sameRows_mutated ..)) ⟨sameRows_mutated .., rfl⟩)

theorem from_createWorktree : From (LineMoves doors) s (createWorktree doors)
    fun snapshot t => SameRows s t ∧ t.repo = s.repo ∧ snapshot = doors.forkHash s.repo :=
  read_bind ((from_mutate fun _ => SameRows.moves).bind
    fun _ _ ⟨hsame, hrepo⟩ => .pure ⟨hsame, hrepo, rfl⟩)

theorem from_recoverRepoSnapshot (hR : ∀ t, SameRows s t → R s t) :
    From R s (recoverRepoSnapshot doors snapshot) fun _ t => SameRows s t := by
  refine read_bind ?_
  cases doors.recoverRepoSnapshot snapshot s.repo with
  | ok repo => exact (from_mutate hR).mono fun _ _ ⟨hsame, _⟩ => hsame
  | error e => exact (from_mutate hR).bind fun _ _ _ => .lift fun _ h => nomatch h

theorem from_hostMutations : ∀ {mutations : List (String × Option Repo)}
    {s : State Repo Files Stack},
      From (LineMoves doors) s (hostMutations doors mutations) fun _ t => SameRows s t
  | [], _ => .pure .refl
  | _ :: _, _ => (from_mutate fun _ => SameRows.moves).bind fun _ _ ⟨hsame, _⟩ =>
      from_hostMutations.mono fun _ _ hrest => hsame.trans hrest

/-- A batch that is read is the stored row of its id. -/
theorem batch_ok (h : s.batch id = .ok batch) : s.batches id = some batch ∧ batch.id = id := by
  simp only [State.batch, bind_eq_ok, okOr_eq_ok, ensure_eq_ok, pure_eq_ok] at h
  obtain ⟨batch', hrow, _, ⟨hid, -⟩, _, -, _, -, rfl⟩ := h
  exact ⟨hrow, hid⟩

theorem mapM_batch_ok : ∀ {ids : List Bytes} {batches : List (MergeBatch Files)},
    ids.mapM s.batch = .ok batches →
      batches.map (·.id) = ids ∧ ∀ b ∈ batches, s.batches b.id = some b
  | [], _, h => by
    obtain rfl := pure_eq_ok.mp h
    exact ⟨rfl, fun _ h => absurd h not_mem_nil⟩
  | id :: ids, _, h => by
    simp only [mapM_cons, bind_eq_ok, pure_eq_ok] at h
    obtain ⟨b, hb, rest, hrest, rfl⟩ := h
    obtain ⟨hrow, rfl⟩ := batch_ok hb
    obtain ⟨hids, hrows⟩ := mapM_batch_ok hrest
    exact ⟨congrArg (b.id :: ·) hids, forall_mem_cons.mpr ⟨hrow, hrows⟩⟩

theorem requireCurrent_ok (h : s.requireCurrent doors = .ok ()) :
    s.queue.intent = none ∧ doors.head s.repo = s.queue.pointers.head := by
  simp only [State.requireCurrent, bind_eq_ok, ensure_eq_ok] at h
  obtain ⟨_, hintent, hhead⟩ := h
  exact ⟨hintent, hhead⟩

/-! ## Forming, staging and checking -/

/-- A row of an id no batch holds. -/
theorem beside_of_none (h : s.batches id = none) : Beside s id := fun _ hb => nomatch h.symm.trans hb

theorem queuedBatch_ok (h : queuedBatch asked s proposals = .ok (queue, batch)) :
    queue.pointers = s.queue.pointers ∧ queue.intent = s.queue.intent ∧
      s.batches batch.id = none ∧ batch.state = .queued ∧ batch.preSnapshot = none := by
  simp only [queuedBatch, bind_eq_ok, ensure_eq_ok, pure_eq_ok] at h
  obtain ⟨_, hfresh, h⟩ := h
  obtain ⟨rfl, rfl⟩ := Prod.mk.inj h
  exact ⟨rfl, rfl, hfresh, rfl, rfl⟩

theorem moves_queued (h : queuedBatch asked s proposals = .ok (queue, batch)) :
    LineMoves doors s (s.saved queue [batch]) := by
  obtain ⟨hpointers, hintent, hfresh, hstate, hsnapshot⟩ := queuedBatch_ok h
  refine moves_put hpointers hintent (beside_of_none hfresh)
    (fun _ hold => nomatch hfresh.symm.trans hold) (by simp [hstate]) fun _ _ _ f hf => ?_
  exact nomatch hsnapshot.symm.trans hf

theorem from_enqueue :
    From (LineMoves doors) s (enqueue doors asked proposals) fun _ _ => True := by
  refine .read_bind (.lift_bind fun _ _ => .lift_bind fun _ _ => .lift_bind fun _ _ =>
    .lift_bind fun ⟨queue, batch⟩ hqueued => .lift_bind fun _ _ => ?_)
  exact from_save_bind (moves_queued hqueued) (.pure trivial)

theorem from_requeueSurvivors :
    From (LineMoves doors) s (requeueSurvivors doors asked id) fun _ _ => True := by
  refine .read_bind (.lift_bind fun batch _ => .lift_bind fun quarantine _ => .lift_bind fun _ _ => ?_)
  dsimp only
  split
  · exact .pure trivial
  · refine .lift_bind fun _ _ => .lift_bind fun _ _ => .lift_bind fun _ _ =>
      .lift_bind fun ⟨queue, child⟩ hqueued => ?_
    exact from_save_bind (moves_queued hqueued) (.pure trivial)

/-- A batch that is read in one of the states before a landing is beside the line and any effect. -/
theorem beside_of_state (hrow : s.batches batch.id = some batch)
    (hstate : batch.state ∈ [BatchState.queued, .staged, .ready, .quarantined, .cancelled]) :
    Beside s batch.id ∧ ∀ old, s.batches batch.id = some old → old.state ≠ .landing := by
  have hplain : batch.state ≠ .greenAdvanced ∧ batch.state ≠ .headAdvanced ∧
      batch.state ≠ .rollingBack ∧ batch.state ≠ .landing := by
    refine ⟨?_, ?_, ?_, ?_⟩ <;> intro heq <;> simp [heq] at hstate
  refine ⟨fun old hold => ?_, fun old hold => ?_⟩
  · obtain rfl := some.inj (hrow.symm.trans hold)
    exact ⟨hplain.1, hplain.2.1, hplain.2.2.1⟩
  · obtain rfl := some.inj (hrow.symm.trans hold)
    exact hplain.2.2.2

/-- A batch before its landing, saved in another state before it. -/
theorem moves_restate {batch' : MergeBatch Files} (hrow : s.batches batch.id = some batch)
    (hold : batch.state ∈ [BatchState.queued, .staged, .ready, .quarantined, .cancelled])
    (hnew : batch'.state ∈ [BatchState.queued, .staged, .ready, .quarantined, .cancelled])
    (hid : batch'.id = batch.id) (hexpected : batch'.expectedHead = batch.expectedHead)
    (hsnapshot : ∀ f, batch'.preSnapshot = some f →
      batch.preSnapshot = some f ∨ NamesHead doors f batch.expectedHead) :
    LineMoves doors s (s.saved s.queue [batch']) := by
  obtain ⟨hbeside, hlanding⟩ := beside_of_state hrow hold
  refine moves_put rfl rfl (hid ▸ hbeside) (hid ▸ hlanding) hnew fun base greens h f hf => ?_
  rw [hexpected]
  exact (hsnapshot f hf).elim ((h.rows batch.id batch hrow).snapshot f) fun hnames => hnames

theorem from_cancel : From (LineMoves doors) s (cancel id) fun _ _ => True := by
  refine .read_bind (.lift_bind fun batch hbatch => .lift_bind fun _ hstate => ?_)
  obtain ⟨hrow, rfl⟩ := batch_ok hbatch
  refine from_save_bind ?_ (.pure trivial)
  rw [ensure_eq_ok] at hstate
  refine moves_restate hrow ?_ (by simp) rfl rfl fun f hf => Or.inl hf
  simp only [mem_cons, not_mem_nil, or_false] at hstate ⊢
  tauto

/-- A batch staged path by path on a tree nothing changes meanwhile. -/
theorem from_stagePaths : ∀ {masks : List ℕ} {batch : MergeBatch Files} {s : State Repo Files Stack},
    From (LineMoves doors) s (stagePaths doors asked masks batch) fun staged t =>
      SameRows s t ∧ staged.id = batch.id ∧ staged.expectedHead = batch.expectedHead ∧
        ∀ f, staged.preSnapshot = some f →
          batch.preSnapshot = some f ∨ f = doors.forkHash s.repo
  | [], _, _ => .pure ⟨.refl, rfl, rfl, fun _ hf => .inl hf⟩
  | _ :: _, _, s => by
    refine from_createWorktree.bind fun snapshot t ⟨hsame, hrepo, hsnapshot⟩ =>
      .lift_bind fun _ _ => .lift_bind fun _ _ => from_stagePaths.mono fun staged u h => ?_
    obtain ⟨hrest, hid, hexpected, hpre⟩ := h
    refine ⟨hsame.trans hrest, hid, hexpected, fun f hf => .inr ?_⟩
    rcases hpre f hf with heq | heq
    · exact (some.inj heq).symm.trans hsnapshot
    · rw [heq, hrepo]

theorem from_stage (hsound : doors.Sound) :
    From (LineMoves doors) s (stage doors asked id) fun _ _ => True := by
  refine .read_bind (.lift_bind fun _ hcurrent => .lift_bind fun batch hbatch => ?_)
  obtain ⟨-, hhead⟩ := requireCurrent_ok hcurrent
  obtain ⟨hrow, rfl⟩ := batch_ok hbatch
  split
  · exact .pure trivial
  rename_i hqueued
  split
  · exact .pure trivial
  refine .lift_bind fun _ hbase => .lift_bind fun _ _ =>
    from_stagePaths.bind fun staged t ⟨hsame, hid, hexpected, hpre⟩ => .lift_bind fun _ _ => ?_
  refine from_save_bind ?_ (.pure trivial)
  rw [← hsame.queue]
  rw [ensure_eq_ok] at hbase
  replace hrow : t.batches batch.id = some batch := hsame.batches ▸ hrow
  refine moves_restate hrow (by simp [not_not.mp hqueued]) (by simp) hid hexpected
    fun f hf => (hpre f hf).elim (.inl ·) fun heq => .inr fun r hr => ?_
  rw [hsound.head_of_forkHash r s.repo (hr.trans heq), hhead, hbase]

/-- A check's slot settled: a batch before its landing kept so, or a landed one with its verdict. -/
theorem moves_settleSlot {settledBatch : MergeBatch Files} (hrow : s.batches batch.id = some batch)
    (h : settleSlot asked s batch mask phase commit verdict = .ok settledBatch) :
    LineMoves doors s (s.saved s.queue [settledBatch]) := by
  cases phase with
  | fast =>
    simp only [settleSlot, bind_eq_ok, ensure_eq_ok] at h
    obtain ⟨_, hstate, path, -, slot, -, green, -, h⟩ := h
    have hold : batch.state ∈ [BatchState.queued, .staged, .ready, .quarantined, .cancelled] := by
      simp only [mem_cons, not_mem_nil, or_false] at hstate ⊢
      tauto
    split at h <;> obtain rfl := pure_eq_ok.mp h
    · exact moves_restate hrow hold (by simp) rfl rfl fun f hf => Or.inl hf
    · exact moves_restate hrow hold hold rfl rfl fun f hf => Or.inl hf
  | slow =>
    simp only [settleSlot, bind_eq_ok, ensure_eq_ok, pure_eq_ok] at h
    obtain ⟨_, ⟨hstate, -⟩, slot, -, rfl⟩ := h
    exact moves_slow hrow hstate

theorem from_check :
    From (LineMoves doors) s (check asked id mask phase commit verdict passes) fun _ _ => True := by
  refine .read_bind (.write_bind (.frame rfl rfl fun v hv => ?_) (.read_bind (.lift_bind
    fun batch hbatch => .lift_bind fun current hsettled => ?_)))
  · show Function.update s.verdicts verdict _ v = some true
    rcases eq_or_ne v verdict with rfl | hne
    · rw [Function.update_self, hv]
      rfl
    · rw [Function.update_of_ne hne]
      exact hv
  · obtain ⟨hrow, rfl⟩ := batch_ok hbatch
    exact from_save (moves_settleSlot hrow hsettled) trivial

theorem from_quarantineBatch {quarantine : Quarantine} :
    From (LineMoves doors) s (quarantineBatch id quarantine) fun _ _ => True := by
  refine .read_bind (.lift_bind fun batch hbatch => .lift_bind fun _ hstate => ?_)
  obtain ⟨hrow, rfl⟩ := batch_ok hbatch
  rw [ensure_eq_ok] at hstate
  refine from_save (moves_restate hrow ?_ (by simp) rfl rfl fun f hf => Or.inl hf) trivial
  simp only [mem_cons, not_mem_nil, or_false] at hstate ⊢
  tauto

/-! ## Landing -/

theorem from_finishLanding (hintent : s.queue.intent = some (.landing batch.id afterSeq))
    (hrow : s.batches batch.id = some batch) :
    From (LineMoves doors) s (finishLanding doors asked s.queue batch) fun _ _ => True := by
  refine .read_bind (.lift_bind fun _ _ => .lift_bind fun _ _ => .lift_bind fun _ _ => ?_)
  refine .lift_bind fun _ _ => .lift_bind fun _ _ => ?_
  exact from_save_bind (moves_finishLanding hintent hrow) (.pure trivial)

/-- What finishes a landing, once the rows are again as they were when it began. -/
theorem SameRows.finishLanding (hsame : SameRows s t)
    (hintent : s.queue.intent = some (.landing batch.id afterSeq))
    (hrow : s.batches batch.id = some batch) :
    From (LineMoves doors) t (finishLanding doors asked s.queue batch) fun _ _ => True := by
  rw [← hsame.queue]
  exact from_finishLanding (by rw [hsame.queue, hintent]) (by rw [hsame.batches, hrow])

theorem from_land : From (LineMoves doors) s (land doors asked id) fun _ _ => True := by
  refine .read_bind (.lift_bind fun _ hcurrent => .lift_bind fun batch hbatch =>
    .lift_bind fun _ hready => .lift_bind fun _ _ => .lift_bind fun _ _ =>
    .lift_bind fun _ hbase => .lift_bind fun _ _ => .lift_bind fun path _ => .lift_bind fun _ _ => ?_)
  obtain ⟨hintent, -⟩ := requireCurrent_ok hcurrent
  obtain ⟨hrow, rfl⟩ := batch_ok hbatch
  rw [ensure_eq_ok] at hready hbase
  refine from_save_bind (moves_land hintent hrow hready hbase.symm) ?_
  refine from_hostMutations.bind fun _ t hsame => .lift_bind fun _ _ => .read_bind
    (.lift_bind fun _ _ => .lift_bind fun _ _ => from_createWorktree.bind fun _ u ⟨hsame', _⟩ =>
    .lift_bind fun _ _ => ?_)
  refine bind ((hsame.trans hsame').finishLanding rfl (saved_self ..)) fun _ _ _ => .pure trivial

/-! ## Settling -/

theorem slowStatus_ok (h : slowStatus doors asked s batch = .ok (some passes)) :
    ∃ v, batch.slowVerdict = some v ∧ s.verdicts v = some passes := by
  unfold slowStatus at h
  cases hv : batch.slowVerdict with
  | none => rw [hv] at h; exact nomatch h
  | some v =>
    rw [hv] at h
    simp only [bind_eq_ok, okOr_eq_ok, pure_eq_ok] at h
    obtain ⟨p, hp, _, -, _, -, _, -, _, -, heq⟩ := h
    exact ⟨v, rfl, some.inj heq ▸ hp⟩

theorem consume_ok : ∀ {read : List (MergeBatch Files × Option Bool)} {green green' : Oid}
    {rows : List (MergeBatch Files)} {consumed : ℕ},
      consume asked read green = .ok (green', rows, consumed) → ∃ front back,
        read.map Prod.fst = front ++ back ∧
        rows = front.map (fun b => { b with state := .greenAdvanced }) ++ back ∧
        consumed = front.length ∧ Ends green front green' ∧ ∀ b ∈ front, (b, some true) ∈ read
  | [], _, _, _, _, h => by
    cases h
    exact ⟨[], [], rfl, rfl, rfl, rfl, fun _ h => absurd h not_mem_nil⟩
  | (batch, status) :: rest, green, _, _, _, h => by
    rw [consume] at h
    split at h
    · cases h
      exact ⟨[], _, rfl, rfl, rfl, rfl, fun _ h => absurd h not_mem_nil⟩
    · rename_i hstatus
      simp only [bind_eq_ok, okOr_eq_ok, pure_eq_ok] at h
      obtain ⟨landed, hlanded, _, -, ⟨green', rows, n⟩, hrest, h⟩ := h
      cases h
      obtain ⟨front, back, hread, rfl, rfl, hends, hpass⟩ := consume_ok hrest
      refine ⟨batch :: front, back, congrArg (batch :: ·) hread, rfl, rfl,
        ⟨landed, hlanded, hends⟩, ?_⟩
      refine forall_mem_cons.mpr ⟨?_, fun b hb => mem_cons_of_mem _ (hpass b hb)⟩
      rw [not_not.mp hstatus]
      exact mem_cons_self

/-- The pending batches of `s` are being rolled back in `t`. -/
structure Rolling (s t : State Repo Files Stack) : Prop where
  intent : ∃ snapshot, t.queue.intent = some (.rollback snapshot s.queue.pointers.head)
  pointers : t.queue.pointers = s.queue.pointers
  rows : ∀ id ∈ s.queue.pointers.pendingSlow, ∃ batch, s.batches id = some batch ∧
    t.batches id = some { batch with state := .rollingBack }

theorem SameRows.samePending (h : SameRows s t) : SamePending s t :=
  ⟨congrArg _ h.queue, congrArg _ h.queue, fun _ _ => by rw [h.batches]⟩

theorem Rolling.same (h : Rolling s t) (h' : SamePending t u) : Rolling s u := by
  refine ⟨h'.intent ▸ h.intent, h'.pointers.trans h.pointers, fun id hid => ?_⟩
  obtain ⟨batch, hrow, hroll⟩ := h.rows id hid
  exact ⟨batch, hrow, (h'.rows id (h.pointers ▸ hid)).trans hroll⟩

theorem Rolling.rolledBack (h : Rolling s t) (h' : RolledBack doors t u) : RolledBack doors s u :=
  ⟨h'.intent, h.pointers ▸ h'.pointers, h.pointers ▸ h'.rows, h.pointers ▸ h'.restored⟩

/-- What a rollback may leave: itself under way, or all of it done. -/
def Rolls (doors : RepoDoors Repo Files Stack) (s t : State Repo Files Stack) : Prop :=
  SamePending s t ∨ RolledBack doors s t

theorem from_finishRollback {expectedHead : Oid}
    (hintent : s.queue.intent = some (.rollback snapshot expectedHead)) :
    From (fun u t => LineMoves doors u t ∧ ∀ base greens, Shows doors s base greens → Rolls doors s t) s
      (finishRollback doors s.queue snapshot) fun queue t => queue = t.queue ∧
        ∀ base greens, Shows doors s base greens → RolledBack doors s t := by
  refine bind (Q := fun _ t => SameRows s t) (.read_bind ?_) fun _ t hsame => ?_
  · split
    · exact from_recoverRepoSnapshot fun t hsame => ⟨hsame.moves, fun _ _ _ => .inl hsame.samePending⟩
    · exact .pure .refl
  refine .read_bind (.lift_bind fun _ hhead => .lift_bind fun _ _ => .lift_bind fun batches hread => ?_)
  rw [ensure_eq_ok, ← hsame.queue] at hhead
  rw [← hsame.queue] at hread
  obtain ⟨hids, hrows⟩ := mapM_batch_ok hread
  have hmoves := moves_rolledBack (hsame.queue ▸ hintent) hhead hids hrows
  have hrolled : ∀ base greens, Shows doors s base greens → RolledBack doors s
      (t.saved _ (batches.map fun b => { b with state := .rolledBack })) := fun base greens h => by
    have ht := h.frame hsame.queue hsame.batches fun v hv => by rw [hsame.verdicts]; exact hv
    have hrolls := hmoves.rolling base greens ht snapshot expectedHead (hsame.queue ▸ hintent)
    rcases hrolls with hstays | hrolled
    · exact nomatch hstays.intent.trans (congrArg QueueRecord.intent hsame.queue |>.trans hintent)
    · have hpointers := congrArg QueueRecord.pointers hsame.queue
      exact ⟨hrolled.intent, hpointers ▸ hrolled.pointers, hpointers ▸ hrolled.rows,
        hpointers ▸ hrolled.restored⟩
  rw [hsame.queue] at hmoves hrolled
  exact bind (Q := fun _ u => u = _) (read_bind (.write ⟨hmoves, fun base greens h =>
    .inr (hrolled base greens h)⟩ rfl)) fun _ u hu => .pure (by subst hu; exact ⟨rfl, hrolled⟩)

/-- Some pending batch has a slow verdict that fails. -/
def Red (s : State Repo Files Stack) : Prop :=
  ∃ id ∈ s.queue.pointers.pendingSlow, ∃ batch verdict, s.batches id = some batch ∧
    batch.slowVerdict = some verdict ∧ s.verdicts verdict = some false

/-- A settlement that reads every pending batch reads a failing verdict where one is. -/
theorem Red.read {passing : List (Option Bool)} (hred : Red s)
    (hids : batches.map (·.id) = s.queue.pointers.pendingSlow)
    (hrows : ∀ b ∈ batches, s.batches b.id = some b)
    (hpassing : batches.mapM (slowStatus doors asked s) = .ok passing) : some false ∈ passing := by
  obtain ⟨id, hid, batch, v, hrow, hv, hfails⟩ := hred
  rw [← hids] at hid
  obtain ⟨b, hb, rfl⟩ := List.mem_map.mp hid
  obtain rfl := some.inj (hrow.symm.trans (hrows b hb))
  obtain ⟨status, hstatus⟩ := exists_ok_of_mapM hpassing batch hb
  have hmem := ((mem_zip_of_mapM (g := id) hpassing).mpr ⟨batch, hb, hstatus, rfl⟩)
  have hin := (of_mem_zip hmem).1
  cases status with
  | none =>
    simp only [slowStatus, hv, bind_eq_ok, pure_eq_ok] at hstatus
    obtain ⟨_, -, _, -, _, -, _, -, _, -, h⟩ := hstatus
    cases h
  | some passes =>
    obtain ⟨v', hv', hverdict⟩ := slowStatus_ok hstatus
    obtain rfl := some.inj (hv.symm.trans hv')
    rwa [some.inj (hfails.symm.trans hverdict)]

/-- A rollback as it begins. -/
theorem rolling_saved (snapshot : RepoForkHash) (hnodup : s.queue.pointers.pendingSlow.Nodup)
    (hids : batches.map (·.id) = s.queue.pointers.pendingSlow)
    (hrows : ∀ b ∈ batches, s.batches b.id = some b) : Rolling s (s.saved
      { s.queue with intent := some (.rollback snapshot s.queue.pointers.head) }
      (batches.map fun b => { b with state := .rollingBack })) := by
  refine ⟨⟨snapshot, rfl⟩, rfl, fun id hid => ?_⟩
  rw [← hids] at hid
  obtain ⟨b, hb, rfl⟩ := List.mem_map.mp hid
  have hmem : { b with state := .rollingBack } ∈
      batches.map fun b => { b with state := BatchState.rollingBack } :=
    List.mem_map.mpr ⟨b, hb, rfl⟩
  refine ⟨b, hrows b hb, saved_of_mem ?_ hmem⟩
  rw [List.map_map]
  exact hids ▸ hnodup

/-- **A settlement**: what it leaves when some pending batch is red is a rollback, under way or done. -/
theorem from_settleSlow : From (fun u t => LineMoves doors u t ∧
      ∀ base greens, Shows doors s base greens → Red s → Rolling s t ∨ RolledBack doors s t) s
    (settleSlow doors asked) fun pointers t => ∀ base greens, Shows doors s base greens → Red s →
      RolledBack doors s t ∧ pointers = t.queue.pointers := by
  refine .read_bind (.lift_bind fun _ hcurrent => .lift_bind fun batches hread =>
    .lift_bind fun passing hpassing => ?_)
  obtain ⟨hintent, -⟩ := requireCurrent_ok hcurrent
  obtain ⟨hids, hrows⟩ := mapM_batch_ok hread
  split
  · refine .lift_bind fun snapshot hsnapshot => ?_
    rw [okOr_eq_ok, bind_eq_some_iff] at hsnapshot
    obtain ⟨first, hfirst, hpre⟩ := hsnapshot
    have hmoves : LineMoves doors s _ :=
      moves_rollback s.queue.pointers.head hintent hids hrows hfirst hpre
    have hrolling := fun base greens (h : Shows doors s base greens) =>
      rolling_saved snapshot h.nodup hids hrows
    refine bind (Q := fun _ t => t = _) (read_bind (.write
      ⟨hmoves, fun base greens h _ => .inl (hrolling base greens h)⟩ rfl)) fun _ t ht => ?_
    subst ht
    refine bind ((from_finishRollback rfl).imp fun u t ⟨hline, hrolls⟩ => ⟨hline, ?_⟩)
      fun queue t ⟨hqueue, hrolled⟩ => .pure ?_
    · intro base greens h _
      obtain ⟨more, hmore⟩ := hmoves.line base greens h
      exact (hrolls _ _ hmore).imp (hrolling base greens h).same (hrolling base greens h).rolledBack
    · intro base greens h _
      obtain ⟨more, hmore⟩ := hmoves.line base greens h
      exact ⟨(hrolling base greens h).rolledBack (hrolled _ _ hmore), congrArg _ hqueue⟩
  · rename_i hgreen
    refine .lift_bind fun ⟨green, rows, consumed⟩ hconsume => ?_
    obtain ⟨front, back, hfst, rfl, rfl, hends, hpass⟩ := consume_ok hconsume
    have hall := forall₂_of_mapM hpassing
    rw [map_fst_zip hall.length_eq.le] at hfst
    have hcalm : ¬ Red s := fun hred => hgreen (hred.read hids hrows hpassing)
    rw [hfst] at hids hrows
    have hmoves : LineMoves doors s _ := moves_green hintent hids hrows (fun b hb => slowStatus_ok (forall₂_zip hall (hpass b hb))) hends
    refine bind (Q := fun _ _ => True) (read_bind (.write ⟨hmoves, ?_⟩ trivial))
      fun _ t _ => .pure ?_
    · exact fun _ _ _ hred => absurd hred hcalm
    · exact fun _ _ _ hred => absurd hred hcalm

/-! ## Recovery -/

section

variable (hintent : s.queue.intent = some (.landing batch.id afterSeq))

include hintent

theorem from_undoLanding (hrow : s.batches batch.id = some batch) :
    From (LineMoves doors) s (undoLanding s.queue batch) fun _ _ => True :=
  from_save_bind (moves_undoLanding hintent hrow) (.pure trivial)

theorem from_recoverReviewed (hrow : s.batches batch.id = some batch) :
    From (LineMoves doors) s (recoverReviewed doors asked s.queue batch afterSeq) fun _ _ => True := by
  refine .read_bind (.lift_bind fun _ _ => .lift_bind fun _ _ => .lift_bind fun _ _ =>
    .lift_bind fun _ _ => from_hostMutations.bind fun _ t hsame => ?_)
  refine .lift_bind fun _ _ => .lift_bind fun _ _ => from_createWorktree.bind
    fun _ u ⟨hsame', _⟩ => .lift_bind fun _ _ => ?_
  exact bind ((hsame.trans hsame').finishLanding hintent hrow) fun _ _ _ => .pure trivial

theorem from_recoverLanding (hrow : s.batches batch.id = some batch) :
    From (LineMoves doors) s (recoverLanding doors asked s.queue batch afterSeq) fun _ _ => True := by
  refine .read_bind ?_
  split
  · exact .lift_bind fun _ _ => from_undoLanding hintent hrow
  refine .lift_bind fun _ _ => from_createWorktree.bind fun _ t ⟨hsame, _⟩ => .lift_bind fun _ _ =>
    .lift_bind fun _ _ => ?_
  split
  · exact bind (hsame.finishLanding hintent hrow) fun _ _ _ => .pure trivial
  refine .lift_bind fun _ _ => (from_recoverRepoSnapshot fun _ => SameRows.moves).bind
    fun _ u hsame' => .read_bind (.lift_bind fun _ _ => ?_)
  have hrows := hsame.trans hsame'
  rw [← hrows.queue]
  exact from_undoLanding (by rw [hrows.queue, hintent]) (by rw [hrows.batches, hrow])

end

theorem from_recover : From (LineMoves doors) s (recover doors asked) fun _ _ => True := by
  refine .read_bind ?_
  split
  · exact .lift_bind fun _ _ => .pure trivial
  · rename_i id afterSeq hintent
    refine .lift_bind fun batch hbatch => ?_
    obtain ⟨hrow, rfl⟩ := batch_ok hbatch
    split
    · exact .write_bind (.frame rfl rfl fun _ hv => hv) (from_recoverReviewed hintent hrow)
    · exact from_recoverLanding hintent hrow
  · rename_i snapshot expectedHead hintent
    refine .lift_bind fun _ _ => ?_
    exact bind ((from_finishRollback hintent).imp fun _ _ h => h.1) fun _ _ _ => .pure trivial

/-- **A recovery of a rollback** leaves it under way or done, and done when it answers. -/
theorem from_recover_rolling (h : Shows doors t base greens) (hroll : Rolling s t) :
    From (fun _ u => Rolling s u ∨ RolledBack doors s u) t (recover doors asked)
      fun pointers u => RolledBack doors s u ∧ pointers = u.queue.pointers := by
  obtain ⟨snapshot, hintent⟩ := hroll.intent
  refine .read_bind ?_
  rw [hintent]
  refine .lift_bind fun _ _ => bind ((from_finishRollback hintent).imp fun _ u hu => ?_)
    fun queue u ⟨hqueue, hrolled⟩ => .pure ⟨?_, congrArg _ hqueue⟩
  · exact (hu.2 _ _ h).imp hroll.same hroll.rolledBack
  · exact hroll.rolledBack (hrolled _ _ h)

end MergeQueue

end Oneiron
