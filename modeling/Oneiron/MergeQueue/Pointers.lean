import Oneiron.Foundations.System
import Oneiron.MergeQueue.Runs

/-!
# MergeQueue/Pointers — the pointers over whole runs

A run is any sequence of operations, each left at its end or after any of its writes.  The line of
landed batches stands in every state of it (`exists_shows`), so whenever no effect is under way the
pending batches lead from green to head.  A rollback nothing refuses answers (`gives_finishRollback`).
-/

namespace Oneiron

open List Option

namespace MergeQueue

open Work

variable {Repo Files Stack : Type} {doors : RepoDoors Repo Files Stack} {asked : Asked Repo Files}
  {s t : State Repo Files Stack} {base : Oid} {greens : List Bytes} {id : Bytes}
  {batch : MergeBatch Files}

/-! ## A rollback that nothing refuses -/

/-- The restore a rollback needs is applied, and leaves nothing changed or untracked. -/
def Restores (doors : RepoDoors Repo Files Stack) (snapshot : RepoForkHash) (green : Oid)
    (repo : Repo) : Prop :=
  if doors.head repo = green then doors.clean repo = true
  else ∃ repo', doors.recoverRepoSnapshot snapshot repo = .ok repo' ∧ doors.clean repo' = true

/-- A row marked is read as the row was. -/
theorem batch_marked (hread : s.batch id = .ok batch) (hstate : batch.state = .headAdvanced)
    (hrow : t.batches id = some { batch with state := .rollingBack }) :
    t.batch id = .ok { batch with state := .rollingBack } := by
  simp only [State.batch, bind_eq_ok, okOr_eq_ok, ensure_eq_ok, pure_eq_ok] at hread ⊢
  obtain ⟨_, -, _, hself, _, hpaths, _, hmasks, rfl⟩ := hread
  refine ⟨_, hrow, ⟨⟩, hself, ⟨⟩, .inr ?_, ⟨⟩, hmasks, rfl⟩
  exact hpaths.resolve_left (by simp [hstate])

variable {snapshot : RepoForkHash} {batches : List (MergeBatch Files)}

/-- What a settlement read is read again while it is rolled back. -/
theorem Rolling.read (hroll : Rolling s t) (h : Shows doors s base greens)
    (hintent : s.queue.intent = none)
    (hread : s.queue.pointers.pendingSlow.mapM s.batch = .ok batches) :
    ∃ batches', t.queue.pointers.pendingSlow.mapM t.batch = .ok batches' := by
  rw [hroll.pointers]
  refine (exists_mapM (P := fun _ _ => True) fun id hid => ?_).imp fun _ h => h.1
  obtain ⟨batch, hbatch⟩ := exists_ok_of_mapM hread id hid
  obtain ⟨hrow, rfl⟩ := batch_ok hbatch
  obtain ⟨b, hb, hmarked⟩ := hroll.rows batch.id hid
  obtain rfl := some.inj (hrow.symm.trans hb)
  obtain ⟨b', hb', hwaits⟩ := h.waiting batch.id hid
  obtain rfl := some.inj (hrow.symm.trans hb')
  exact ⟨_, batch_marked hbatch (hwaits.trans (congrArg pendingState hintent)) hmarked, trivial⟩

theorem gives_save {queue : QueueRecord} :
    Gives s (save queue batches) () (s.saved queue batches) := Gives.read.bind .write

theorem gives_restoreGreen (hsound : doors.Sound) {green : Oid}
    (hnames : NamesHead doors snapshot green) (hrestores : Restores doors snapshot green s.repo) :
    ∃ t, Gives s (restoreGreen doors snapshot green) () t ∧ SameRows s t ∧
      doors.head t.repo = green ∧ doors.clean t.repo = true := by
  unfold Restores at hrestores
  by_cases hgreen : doors.head s.repo = green
  · rw [if_pos hgreen] at hrestores
    refine ⟨s, Gives.read.bind ?_, .refl, hgreen, hrestores⟩
    rw [if_neg (not_not.mpr hgreen)]
    exact .pure
  · rw [if_neg hgreen] at hrestores
    obtain ⟨repo', hrecover, hclean⟩ := hrestores
    refine ⟨s.mutated doors "recover_snapshot" (some repo'), Gives.read.bind ?_,
      sameRows_mutated .., hnames _ (hsound.restores _ _ _ hrecover), hclean⟩
    rw [if_pos hgreen]
    refine Gives.read.bind ?_
    rw [hrecover]
    exact Gives.read.bind .write

theorem gives_finishRollback (hsound : doors.Sound)
    (hnames : NamesHead doors snapshot s.queue.pointers.green)
    (hrestores : Restores doors snapshot s.queue.pointers.green s.repo)
    (hread : ∃ batches, s.queue.pointers.pendingSlow.mapM s.batch = .ok batches) :
    ∃ queue t, Gives s (finishRollback doors s.queue snapshot) queue t := by
  obtain ⟨t, hgives, hsame, hhead, hclean⟩ := gives_restoreGreen hsound hnames hrestores
  obtain ⟨batches, hread⟩ := hread
  have hread' : s.queue.pointers.pendingSlow.mapM t.batch = .ok batches := by
    rw [← hread]
    congr 1
    funext id
    simp only [State.batch, hsame.batches]
  exact ⟨_, _, hgives.bind (Gives.read.bind ((Gives.ensure hhead).bind
    ((Gives.ensure hclean).bind ((Gives.lift hread').bind
    (gives_save.bind .pure)))))⟩

/-- A settlement that reads what it needs, and whose restore is applied, answers. -/
theorem gives_settleSlow_red (hsound : doors.Sound) (h : Shows doors s base greens) (hred : Red s)
    (hcurrent : s.requireCurrent doors = .ok ()) {passing : List (Option Bool)}
    (hread : s.queue.pointers.pendingSlow.mapM s.batch = .ok batches)
    (hpassing : batches.mapM (slowStatus doors asked s) = .ok passing)
    (hrestores : ∀ snapshot, batches.head?.bind (·.preSnapshot) = some snapshot →
      Restores doors snapshot s.queue.pointers.green s.repo) :
    ∃ pointers t, Gives s (settleSlow doors asked) pointers t := by
  obtain ⟨hintent, -⟩ := requireCurrent_ok hcurrent
  obtain ⟨hids, hrows⟩ := mapM_batch_ok hread
  have hmem := hred.read hids hrows hpassing
  obtain ⟨first, rest, rfl⟩ : ∃ first rest, batches = first :: rest := by
    cases batches with
    | nil =>
      obtain rfl := pure_eq_ok.mp hpassing
      exact absurd hmem not_mem_nil
    | cons first rest => exact ⟨first, rest, rfl⟩
  have hrow := hrows first mem_cons_self
  have hpending : first.id ∈ s.queue.pointers.pendingSlow := hids ▸ mem_cons_self
  obtain ⟨snapshot, hsnapshot⟩ : ∃ snapshot, first.preSnapshot = some snapshot := by
    obtain ⟨b, hb⟩ := exists_ok_of_mapM hread first.id hpending
    obtain ⟨hb', -⟩ := batch_ok hb
    obtain rfl := some.inj (hrow.symm.trans hb')
    obtain ⟨b', hb'', hwaits⟩ := h.waiting first.id hpending
    obtain rfl := some.inj (hrow.symm.trans hb'')
    rw [hintent] at hwaits
    simp only [State.batch, bind_eq_ok, ensure_eq_ok] at hb
    obtain ⟨b, hb, _, -, _, hpaths, _, -, heq⟩ := hb
    obtain rfl := pure_eq_ok.mp heq
    exact isSome_iff_exists.mp (hpaths.resolve_left (by simp [hwaits, pendingState])).2
  have hmoves : LineMoves doors s _ :=
    moves_rollback s.queue.pointers.head hintent hids hrows rfl hsnapshot
  obtain ⟨more, hmore⟩ := hmoves.line base greens h
  have hroll := rolling_saved snapshot h.nodup hids hrows
  obtain ⟨queue, t, hgives⟩ := gives_finishRollback hsound (hmore.rollback _ _ rfl)
    (hrestores snapshot hsnapshot) (hroll.read h hintent hread)
  refine ⟨queue.pointers, t, Gives.read.bind ((Gives.lift hcurrent).bind ((Gives.lift hread).bind
    ((Gives.lift hpassing).bind ?_)))⟩
  rw [if_pos hmem]
  exact (Gives.lift (okOr_eq_ok.mpr hsnapshot)).bind (gives_save.bind (hgives.bind .pure))

/-- A recovery of a rollback, at a HEAD it may be at and with its restore applied, answers. -/
theorem gives_recover_rolling (hsound : doors.Sound) (h : Shows doors t base greens)
    (hroll : Rolling s t)
    (hhead : doors.head t.repo = s.queue.pointers.head ∨ doors.head t.repo = s.queue.pointers.green)
    (hread : ∃ batches, t.queue.pointers.pendingSlow.mapM t.batch = .ok batches)
    (hrestores : ∀ snapshot expectedHead, t.queue.intent = some (.rollback snapshot expectedHead) →
      Restores doors snapshot s.queue.pointers.green t.repo) :
    ∃ pointers u, Gives t (recover doors asked) pointers u := by
  obtain ⟨snapshot, hintent⟩ := hroll.intent
  rw [← hroll.pointers] at hhead hrestores
  obtain ⟨queue, u, hgives⟩ := gives_finishRollback hsound (h.rollback _ _ hintent)
    (hrestores snapshot _ hintent) hread
  refine ⟨queue.pointers, u, Gives.read.bind ?_⟩
  rw [hintent]
  exact (Gives.ensure (hroll.pointers ▸ hhead)).bind (hgives.bind .pure)

/-! ## Runs -/

variable (doors) in
/-- What may be done with a queue and its repository, in any order; an operation may stop after any of
its writes. -/
def system : System (State Repo Files Stack) (Asked Repo Files × Op Repo Files Stack) where
  init s := ∃ repo verdicts oplog reviewed, doors.clean repo = true ∧
    s = initialState doors repo verdicts oplog reviewed
  step s label t := t ∈ label.2.states doors label.1 s

/-- **The step lemma**: every write of every operation keeps the line. -/
theorem moves_states (hsound : doors.Sound) (op : Op Repo Files Stack) :
    List.IsChain (LineMoves doors) (s :: op.states doors asked s) := by
  cases op with
  | enqueue proposals => exact from_enqueue.moves
  | stage id => exact (from_stage hsound).moves
  | requeueSurvivors id => exact from_requeueSurvivors.moves
  | cancel id => exact from_cancel.moves
  | check id mask phase commit verdict passes => exact from_check.moves
  | quarantine id diagnosis => exact from_quarantineBatch.moves
  | land id => exact from_land.moves
  | settleSlow => exact (from_settleSlow.imp fun _ _ h => h.1).moves
  | recover => exact from_recover.moves
  | review reviewed => exact isChain_pair.mpr (.frame rfl rfl fun _ hv => hv)

/-- What is reached writes on shows the same line, longer. -/
theorem shows_step (hsound : doors.Sound) {label : Asked Repo Files × Op Repo Files Stack}
    (h : ∃ greens, Shows doors s base greens) (hstep : (system doors).step s label t) :
    ∃ greens, Shows doors t base greens :=
  (moves_states hsound label.2).cons_induction (fun s => ∃ greens, Shows doors s base greens) _
    (fun _ _ hmoves ⟨greens, h⟩ => (hmoves.line base greens h).imp' (greens ++ ·) fun _ h => h) h t
    hstep

theorem shows_initial {repo : Repo} {verdicts : Bytes → Option Bool}
    {oplog : List RepoMutationOplogEntry} {reviewed : Bytes → Option Stack} :
    Shows doors (initialState doors repo verdicts oplog reviewed : State Repo Files Stack)
      (doors.head repo) [] where
  greenLine := rfl
  pendingLine := rfl
  passed _ h := absurd h not_mem_nil
  waiting _ h := absurd h not_mem_nil
  rows _ _ h := nomatch h
  nodup := nodup_nil
  landing _ _ h := nomatch h
  rollback _ _ h := nomatch h

/-- The line of a state is also a line from its green on. -/
theorem Shows.fromGreen (h : Shows doors s base greens) : Shows doors s s.queue.pointers.green [] :=
  { h with greenLine := rfl, passed := fun _ h => absurd h not_mem_nil }

/-- **Every state of a run shows the line.** -/
theorem exists_shows (hsound : doors.Sound) (hs : (system doors).Reachable s) :
    Shows doors s s.queue.pointers.green [] := by
  refine hs.invariant (fun s => Shows doors s s.queue.pointers.green []) ?_
    fun {s label t} h hstep => ?_
  · rintro s ⟨repo, verdicts, oplog, reviewed, -, rfl⟩
    exact shows_initial
  · obtain ⟨greens, ht⟩ := shows_step hsound ⟨_, h⟩ hstep
    exact ht.fromGreen

/-- Where a settlement that meets a red verdict, and every recovery of its rollback, comes to. -/
structure EndsRolledBack (doors : RepoDoors Repo Files Stack) (s : State Repo Files Stack)
    (work : QueueWork Repo Files Stack MergeQueuePointers) (t : State Repo Files Stack) : Prop where
  /-- A crash finds the rollback under way or done. -/
  states : ∀ u ∈ (work t).states, Rolling s u ∨ RolledBack doors s u
  /-- It answers only once it is done. -/
  answers : ∀ pointers, (work t).value = .ok pointers →
    RolledBack doors s (work.last t) ∧ pointers = (work.last t).queue.pointers

theorem endsRolledBack_settleSlow (h : Shows doors s base greens) (hred : Red s) :
    EndsRolledBack doors s (settleSlow doors asked) s where
  states u hu := by
    obtain ⟨_, -, hmeets⟩ := from_settleSlow.mem u hu
    exact hmeets base greens h hred
  answers pointers hp := from_settleSlow.ends pointers hp base greens h hred

theorem endsRolledBack_recover (h : Shows doors t base greens) (hroll : Rolling s t) :
    EndsRolledBack doors s (recover doors asked) t where
  states u hu := ((from_recover_rolling h hroll).mem u hu).elim fun _ h => h
  answers pointers hp := (from_recover_rolling h hroll).ends pointers hp

/-- **The pointers stay consistent** over every run, with a crash after any write: with no effect
under way the pending batches lead, in the order they landed, from green to head; green moves along
batches whose slow verdicts all passed; a red verdict ends in a rollback of all that was pending. -/
theorem pointers_stay_consistent (hsound : doors.Sound) (hs : (system doors).Reachable s) :
    (s.queue.intent = none →
      s.queue.pointers.pendingSlow.Nodup ∧
      (∀ id, id ∈ s.queue.pointers.pendingSlow ↔
        ∃ batch, s.batches id = some batch ∧ batch.state = .headAdvanced) ∧
      Linked s.batches s.queue.pointers.green s.queue.pointers.pendingSlow s.queue.pointers.head) ∧
    (∀ (asked : Asked Repo Files) (op : Op Repo Files Stack),
      List.IsChain InOrder (s :: op.states doors asked s)) ∧
    (∀ labels t, (system doors).Run s labels t → ∃ more,
      Linked t.batches s.queue.pointers.green more t.queue.pointers.green ∧
        ∀ id ∈ more, Passed t id) ∧
    (Red s → ∀ asked, EndsRolledBack doors s (settleSlow doors asked) s ∧
      ∀ t, (system doors).Reachable t → Rolling s t →
        EndsRolledBack doors s (recover doors asked) t) ∧
    (Red s → s.requireCurrent doors = .ok () → ∀ batches,
      s.queue.pointers.pendingSlow.mapM s.batch = .ok batches →
      (∀ asked passing, batches.mapM (slowStatus doors asked s) = .ok passing →
        (∀ snapshot, batches.head?.bind (·.preSnapshot) = some snapshot →
          Restores doors snapshot s.queue.pointers.green s.repo) →
          ∃ pointers t, Gives s (settleSlow doors asked) pointers t) ∧
      ∀ asked t, (system doors).Reachable t → Rolling s t →
        doors.head t.repo = s.queue.pointers.head ∨ doors.head t.repo = s.queue.pointers.green →
        (∀ snapshot expectedHead, t.queue.intent = some (.rollback snapshot expectedHead) →
          Restores doors snapshot s.queue.pointers.green t.repo) →
          ∃ pointers u, Gives t (recover doors asked) pointers u) := by
  have h := exists_shows hsound hs
  refine ⟨fun hintent => ⟨h.nodup, fun id => ⟨fun hid => ?_, fun ⟨batch, hrow, hstate⟩ => ?_⟩,
    h.pendingLine⟩, fun asked op => ?_, fun labels t hrun => ?_, fun hred asked => ?_,
    fun hred hcurrent batches hread => ⟨fun asked passing hpassing hrestores => ?_,
      fun asked t ht hroll hhead hrestores => ?_⟩⟩
  · obtain ⟨batch, hrow, hstate⟩ := h.waiting id hid
    exact ⟨batch, hrow, hstate.trans (congrArg pendingState hintent)⟩
  · exact (h.rows id batch hrow).pending (.inl hstate)
  · exact (moves_states hsound op).imp fun _ _ hmoves => hmoves.order
  · have hkeep := hrun.preserves (fun t => ∃ more, Shows doors t s.queue.pointers.green more)
      (shows_step hsound) ⟨[], h⟩
    exact hkeep.imp fun more ht => ⟨ht.greenLine, ht.passed⟩
  · exact ⟨endsRolledBack_settleSlow h hred, fun t ht hroll =>
      endsRolledBack_recover (exists_shows hsound ht) hroll⟩
  · exact gives_settleSlow_red hsound h hred hcurrent hread hpassing hrestores
  · obtain ⟨hintent, -⟩ := requireCurrent_ok hcurrent
    exact gives_recover_rolling hsound (exists_shows hsound ht) hroll hhead
      (hroll.read h hintent hread) hrestores

/-- Doors of a repository that is its own snapshot. -/
def snapshotDoors : RepoDoors RepoForkHash Unit Unit where
  head repo := repo.bytes
  tree repo := repo.bytes
  clean _ := true
  forkHash repo := repo
  recoverRepoSnapshot snapshot _ := .ok snapshot
  landedPath _ batch := okOr batch.paths.getLast? (.corruptedIndex "landing path missing")
  endReviewedMergeStack stack := stack

def commitOf (b : UInt8) : RepoForkHash := ⟨List.replicate 32 b, Digest.length_filled b⟩

/-- The commit a batch is staged on. -/
def green : RepoForkHash := commitOf 0

/-- The commit its landing makes. -/
def landed : RepoForkHash := commitOf 1

/-- A host that lands one commit, with its receipt. -/
def landsOnce : Asked RepoForkHash Unit where
  nextBatchId := [1]
  admitted := .ok ()
  filesValid _ := .ok ()
  runBatchReady := true
  materialize _ := .ok (landed.bytes, landed.bytes)
  pin := .ok ()
  verifyWorktree _ := .ok ()
  requireCheckBinding _ _ _ _ _ := .ok true
  mutations := [("commit", some landed)]
  outcomes := .ok [⟨2, "commit", .applied, green, some landed⟩]
  sealIntent _ := .ok ()

/-- Where operations that run to their ends leave a queue. -/
def after (ops : List (Op RepoForkHash Unit Unit)) (s : State RepoForkHash Unit Unit) :
    State RepoForkHash Unit Unit :=
  ops.foldl (fun s op => (op.states snapshotDoors landsOnce s).getLastD s) s

/-- A batch staged, checked and landed, whose slow verdict is red. -/
def landedRed : State RepoForkHash Unit Unit :=
  after [.enqueue [⟨[2], green.bytes, ()⟩], .stage [1], .check [1] 1 .fast landed.bytes [3] true,
      .land [1], .check [1] 1 .slow landed.bytes [4] false]
    (initialState snapshotDoors green (fun _ => none) [] fun _ => none)

/-- A landing waits on its verdict, and a red one rolls it back. -/
theorem pointers_stay_consistent_red :
    (landedRed.queue.pointers = ⟨landed.bytes, green.bytes, [[1]]⟩ ∧
      Linked landedRed.batches green.bytes [[1]] landed.bytes ∧ Red landedRed ∧
      EndsRolledBack snapshotDoors landedRed (settleSlow snapshotDoors landsOnce) landedRed) ∧
    (after [.settleSlow] landedRed).queue.pointers = ⟨green.bytes, green.bytes, []⟩ ∧
      ¬∃ batch, (after [.settleSlow] landedRed).batches [1] = some batch ∧
        batch.state = .headAdvanced := by
  have hsound : snapshotDoors.Sound :=
    ⟨fun _ _ h => congrArg _ h, fun _ _ _ h => (Except.ok.inj h).symm⟩
  have hgoes (s) (op : Op RepoForkHash Unit Unit) :
      (op.states snapshotDoors landsOnce s).getLastD s = s ∨
        ∃ label, (system snapshotDoors).step s label
          ((op.states snapshotDoors landsOnce s).getLastD s) := by
    rw [getLastD_eq_getLast?]
    cases h : (op.states snapshotDoors landsOnce s).getLast? with
    | none => exact .inl rfl
    | some t => exact .inr ⟨(landsOnce, op), mem_of_getLast? h⟩
  have hlanded : (system snapshotDoors).Reachable landedRed :=
    .foldl hgoes _ (.start ⟨_, _, _, _, rfl, rfl⟩)
  have hrolled : (system snapshotDoors).Reachable (after [.settleSlow] landedRed) :=
    .foldl hgoes _ hlanded
  have hrow : (landedRed.batches [1]).bind (·.slowVerdict) = some [4] := by decide +kernel
  have hfails : landedRed.verdicts [4] = some false := by decide +kernel
  have hintent : landedRed.queue.intent = none := by decide +kernel
  have hsettled : (after [.settleSlow] landedRed).queue.intent = none := by decide +kernel
  have hpointers : landedRed.queue.pointers = ⟨landed.bytes, green.bytes, [[1]]⟩ := by
    decide +kernel
  have hback : (after [.settleSlow] landedRed).queue.pointers = ⟨green.bytes, green.bytes, []⟩ := by
    decide +kernel
  obtain ⟨hline, -, -, hends, -⟩ := pointers_stay_consistent hsound hlanded
  obtain ⟨-, hids, -⟩ := (pointers_stay_consistent hsound hrolled).1 hsettled
  generalize landedRed = s at *
  obtain ⟨batch, hbatch, hverdict⟩ := bind_eq_some_iff.mp hrow
  have hred : Red s := ⟨[1], by simp [hpointers], batch, _, hbatch, hverdict, hfails⟩
  have hgreen := (hline hintent).2.2
  rw [hpointers] at hgreen
  generalize after [.settleSlow] s = t at *
  refine ⟨⟨hpointers, hgreen, hred, (hends hred landsOnce).1⟩, hback, fun h => ?_⟩
  simpa [hback] using (hids [1]).mpr h

end MergeQueue

end Oneiron
