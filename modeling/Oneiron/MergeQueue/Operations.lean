import Oneiron.MergeQueue.Queue

/-!
# MergeQueue/Operations — forming, staging, checking, landing, settling and recovering batches

Each operation is work that a crash may stop between any two of its writes.  `land` saves its intent
before the host touches the repository and clears it in the save that moves the pointers; a rollback
does the same around the restore; `recover` is what reads an intent that was left.
-/

namespace Oneiron

open Work

namespace MergeQueue

variable {Repo Files Stack : Type} (doors : RepoDoors Repo Files Stack) (asked : Asked Repo Files)

/-! ## Forming and staging -/

/-- `validate_proposals`. -/
def validateProposals (proposals : List (MergeProposal Files)) (green : Oid) :
    Except QueueError Unit := do
  ensure (proposals ≠ [] ∧ proposals.length ≤ maxBatchProposals)
    (.invalid "a merge batch holds one to 63 proposals, the width of its path mask")
  ensure ((proposals.map (·.id)).Nodup ∧
      ∀ p ∈ proposals, p.id ≠ [] ∧ p.id.length ≤ 256 ∧ p.baseGreen = green)
    (.invalid "merge proposal identity or green base is invalid")
  proposals.forM asked.filesValid

/-- `queued_batch`: a new batch on the queue's current head and green, not yet saved. -/
def queuedBatch (s : State Repo Files Stack) (proposals : List (MergeProposal Files)) :
    Except QueueError (QueueRecord × MergeBatch Files) := do
  ensure (s.batches asked.nextBatchId = none) (.invalid "merge batch identity encoding failed")
  let queue := { s.queue with sequence := (s.queue.sequence + 1) % 2 ^ 64 }
  pure (queue, {
    id := asked.nextBatchId
    expectedHead := queue.pointers.head
    baseGreen := queue.pointers.green
    proposals
    state := .queued
    paths := []
    preSnapshot := none
    landedHead := none
    slowVerdict := none
    quarantine := none })

/-- `enqueue_checked`. -/
def enqueue (proposals : List (MergeProposal Files)) :
    QueueWork Repo Files Stack (MergeBatch Files) := do
  let s ← read
  lift (s.requireCurrent doors)
  lift (s.requireClean doors)
  lift (validateProposals asked proposals s.queue.pointers.green)
  let (queue, batch) ← lift (queuedBatch asked s proposals)
  lift asked.admitted
  save queue [batch]
  pure batch

/-- The staging of one path after another. -/
def stagePaths : List ℕ → MergeBatch Files → QueueWork Repo Files Stack (MergeBatch Files)
  | [], batch => pure batch
  | mask :: masks, batch => do
    let snapshot ← createWorktree doors
    lift (ensure (batch.preSnapshot.all (· = snapshot))
      (.concurrentWrite "live tree changed during staging"))
    let (commit, tree) ← lift (asked.materialize mask)
    stagePaths masks { batch with
      preSnapshot := some snapshot
      paths := batch.paths ++ [{ mask, commit, tree, verdict := none }] }

/-- `stage_with`. -/
def stage (id : Bytes) : QueueWork Repo Files Stack (MergeBatch Files) := do
  let s ← read
  lift (s.requireCurrent doors)
  let batch ← lift (s.batch id)
  if batch.state ≠ .queued then pure batch else
  if asked.runBatchReady = false then pure batch else do
  lift (ensure (batch.expectedHead = s.queue.pointers.head)
    (.concurrentWrite "batch base moved; no automatic rebase"))
  lift (s.requireClean doors)
  let staged ← stagePaths doors asked (speculativeMasks batch.proposals.length)
    { batch with paths := [] }
  let staged := { staged with state := .staged }
  lift asked.pin
  save s.queue [staged]
  pure staged

/-- `requeue_survivors`: the proposals a diagnosis left, as a batch of their own. -/
def requeueSurvivors (id : Bytes) : QueueWork Repo Files Stack (Option (MergeBatch Files)) := do
  let s ← read
  let batch ← lift (s.batch id)
  let quarantine ← lift (okOr batch.quarantine (.invalid "batch has not been diagnosed"))
  lift (ensure (s.queue.pointers.head = batch.expectedHead)
    (.concurrentWrite "survivors need a newly reviewed base"))
  let survivors := batch.proposals.filter (·.id ∉ quarantine.proposalIds)
  if survivors.isEmpty then pure none else do
  lift (s.requireCurrent doors)
  lift (s.requireClean doors)
  lift (validateProposals asked survivors s.queue.pointers.green)
  let (queue, child) ← lift (queuedBatch asked s survivors)
  save queue [child]
  pure (some child)

/-- `cancel`. -/
def cancel (id : Bytes) : QueueWork Repo Files Stack (MergeBatch Files) := do
  let s ← read
  let batch ← lift (s.batch id)
  lift (ensure (batch.state ∈ [.queued, .staged, .ready, .cancelled])
    (.invalid "effectful or settled merge batch cannot be cancelled"))
  let batch := { batch with state := .cancelled }
  save s.queue [batch]
  pure batch

/-! ## Checks -/

/-- A check's slot, once settled, keeps its verdict. -/
def settled (slot : Option Bytes) (verdict : Bytes) : Except QueueError (Option Bytes) := do
  ensure (slot.all (· = verdict)) (.concurrentWrite "check already settled with another result")
  pure (some verdict)

/-- `settle_slot`: a verdict attached to its path, or to the landed batch. -/
def settleSlot (s : State Repo Files Stack) (current : MergeBatch Files) (mask : ℕ)
    (phase : CheckPhase) (commit : Oid) (verdict : Bytes) : Except QueueError (MergeBatch Files) :=
  match phase with
  | .fast => do
    ensure (current.state ∈ [.staged, .ready]) (.concurrentWrite "batch changed during fast check")
    let path ← okOr (current.paths.find? (·.mask = mask)) (.invalid "speculative path not staged")
    let slot ← settled path.verdict verdict
    let current := { current with paths := current.paths.map fun path =>
      if path.mask = mask then { path with verdict := slot } else path }
    if ← s.allPathsGreen asked current then pure { current with state := .ready } else pure current
  | .slow => do
    ensure (current.state = .headAdvanced ∧ current.landedHead = some commit)
      (.concurrentWrite "batch changed during slow check")
    let slot ← settled current.slowVerdict verdict
    pure { current with slowVerdict := slot }

/-- The recording of a check: the verdict first, kept as it was recorded, then its slot. -/
def check (id : Bytes) (mask : ℕ) (phase : CheckPhase) (commit : Oid) (verdict : Bytes)
    (passes : Bool) : QueueWork Repo Files Stack Unit := do
  let s ← read
  write { s with
    verdicts := Function.update s.verdicts verdict (some ((s.verdicts verdict).getD passes)) }
  let s ← read
  let current ← lift (s.batch id)
  let current ← lift (settleSlot asked s current mask phase commit verdict)
  save s.queue [current]

/-- The end of `diagnose_red`. -/
def quarantineBatch (id : Bytes) (quarantine : Quarantine) : QueueWork Repo Files Stack Unit := do
  let s ← read
  let current ← lift (s.batch id)
  lift (ensure (current.state ∈ [.staged, .ready])
    (.concurrentWrite "batch changed during diagnosis"))
  save s.queue [{ current with state := .quarantined, quarantine := some quarantine }]

/-! ## Landing -/

/-- `receipt_chain`: the hash the receipts lead to, from the batch's own snapshot. -/
def receiptChain (entries : List RepoMutationOplogEntry) (batch : MergeBatch Files)
    (afterSeq : ℕ) : Except QueueError RepoForkHash := do
  ensure (entries ≠ []) (.invalid "landing has no content mutation receipts")
  let hash ← okOr batch.preSnapshot (.corruptedIndex "landing snapshot missing")
  go entries hash afterSeq
where
  go : List RepoMutationOplogEntry → RepoForkHash → ℕ → Except QueueError RepoForkHash
    | [], hash, _ => .ok hash
    | entry :: rest, hash, sequence => do
      ensure (sequence < entry.seq ∧ entry.status = .applied ∧ isContentWrite entry = true ∧
        entry.preActionForkHash = hash) (.concurrentWrite "landing receipt chain diverged")
      let hash ← okOr entry.expectedPostActionForkHash
        (.corruptedIndex "landing receipt postcondition missing")
      go rest hash entry.seq

/-- The mutations a host asks for, one after another. -/
def hostMutations : List (String × Option Repo) → QueueWork Repo Files Stack Unit
  | [] => pure ()
  | (operationKind, result) :: rest => do
    mutate doors operationKind result
    hostMutations rest

/-- `finish_landing`. -/
def finishLanding (queue : QueueRecord) (batch : MergeBatch Files) :
    QueueWork Repo Files Stack (QueueRecord × MergeBatch Files) := do
  let s ← read
  let path ← lift (doors.landedPath (s.reviewedStacks batch.id) batch)
  lift (ensure (doors.tree s.repo = path.tree)
    (.concurrentWrite "landed tree differs from tested tree"))
  lift (s.requireClean doors)
  let head := doors.head s.repo
  lift (ensure (head ≠ batch.expectedHead) (.invalid "landing did not create a commit"))
  lift asked.pin
  let queue := { queue with
    pointers := { queue.pointers with
      head
      pendingSlow := queue.pointers.pendingSlow ++ [batch.id] }
    intent := none }
  let batch := { batch with landedHead := some head, state := .headAdvanced }
  save queue [batch]
  pure (queue, batch)

/-- `land`. -/
def land (id : Bytes) : QueueWork Repo Files Stack (MergeBatch Files) := do
  let s ← read
  lift (s.requireCurrent doors)
  let batch ← lift (s.batch id)
  lift (ensure (batch.state = .ready) (.invalid "merge batch lacks all-path agreement"))
  let green ← lift (s.allPathsGreen asked batch)
  lift (ensure (green = true) (.invalid "merge batch lacks all-path agreement"))
  lift (ensure (s.queue.pointers.head = batch.expectedHead)
    (.concurrentWrite "tested merge base moved"))
  lift (s.requireClean doors)
  let path ← lift (okOr batch.paths.getLast? (.invalid "batch has no full path"))
  lift (asked.verifyWorktree path)
  let afterSeq := (s.oplog.getLast?.map (·.seq)).getD 0
  let queue := { s.queue with intent := some (.landing id afterSeq) }
  let batch := { batch with state := .landing }
  save queue [batch]
  hostMutations doors asked.mutations
  let outcomes ← lift asked.outcomes
  let s ← read
  lift (ensure (outcomes ≠ [] ∧ ∀ entry ∈ outcomes, entry ∈ s.oplog)
    (.invalid "landing did not return persisted repo mutation receipts"))
  let lastHash ← lift (receiptChain outcomes batch afterSeq)
  let liveHash ← createWorktree doors
  lift (ensure (lastHash = liveHash)
    (.concurrentWrite "landing receipt chain does not bind the live result"))
  let (_, batch) ← finishLanding doors asked queue batch
  pure batch

/-! ## Settling -/

/-- What a settlement reads of one pending batch: whether its slow verdict passes, once it has one. -/
def slowStatus (s : State Repo Files Stack) (batch : MergeBatch Files) :
    Except QueueError (Option Bool) :=
  match batch.slowVerdict with
  | none => .ok none
  | some id => do
    let passes ← okOr (s.verdicts id) (.corruptedIndex "slow verdict missing")
    let path ← doors.landedPath (s.reviewedStacks batch.id) batch
    let commit ← okOr batch.landedHead (.corruptedIndex "landed HEAD missing")
    let bound ← asked.requireCheckBinding batch path commit .slow id
    ensure (bound = true) (.corruptedIndex "slow verdict scope differs")
    pure (some passes)

/-- The batches a settlement takes to green, in order, up to the first that has not passed: the green
it comes to, the rows as they are then, and how many it took. -/
def consume : List (MergeBatch Files × Option Bool) → Oid →
    Except QueueError (Oid × List (MergeBatch Files) × ℕ)
  | [], green => .ok (green, [], 0)
  | (batch, status) :: rest, green =>
    if status ≠ some true then .ok (green, batch :: rest.map Prod.fst, 0) else do
    let landed ← okOr batch.landedHead (.corruptedIndex "landed HEAD missing")
    asked.sealIntent batch
    let (green, batches, consumed) ← consume rest landed
    pure (green, { batch with state := .greenAdvanced } :: batches, consumed + 1)

/-- The restore of a rollback, unless HEAD is already at green. -/
def restoreGreen (snapshot : RepoForkHash) (green : Oid) : QueueWork Repo Files Stack Unit := do
  let s ← read
  if doors.head s.repo ≠ green then recoverRepoSnapshot doors snapshot else pure ()

/-- `finish_rollback`. -/
def finishRollback (queue : QueueRecord) (snapshot : RepoForkHash) :
    QueueWork Repo Files Stack QueueRecord := do
  restoreGreen doors snapshot queue.pointers.green
  let s ← read
  lift (ensure (doors.head s.repo = queue.pointers.green)
    (.concurrentWrite "rollback did not restore green HEAD"))
  lift (s.requireClean doors)
  let batches ← lift (queue.pointers.pendingSlow.mapM s.batch)
  let queue := { queue with
    pointers := { queue.pointers with head := queue.pointers.green, pendingSlow := [] }
    intent := none }
  save queue (batches.map fun batch => { batch with state := .rolledBack })
  pure queue

/-- `settle_slow_with`. -/
def settleSlow : QueueWork Repo Files Stack MergeQueuePointers := do
  let s ← read
  lift (s.requireCurrent doors)
  let batches ← lift (s.queue.pointers.pendingSlow.mapM s.batch)
  let passing ← lift (batches.mapM (slowStatus doors asked s))
  if some false ∈ passing then do
    let snapshot ← lift
      (okOr (batches.head?.bind (·.preSnapshot)) (.corruptedIndex "rollback snapshot missing"))
    let queue := { s.queue with intent := some (.rollback snapshot s.queue.pointers.head) }
    save queue (batches.map fun batch => { batch with state := .rollingBack })
    let queue ← finishRollback doors queue snapshot
    pure queue.pointers
  else do
    let (green, batches, consumed) ←
      lift (consume asked (batches.zip passing) s.queue.pointers.green)
    let queue := { s.queue with
      pointers := { s.queue.pointers with
        green
        pendingSlow := s.queue.pointers.pendingSlow.drop consumed } }
    save queue batches
    pure queue.pointers

/-! ## Recovery -/

/-- The landing a crash left, with a reviewed stack: its proven prefix resumed. -/
def recoverReviewed (queue : QueueRecord) (batch : MergeBatch Files) (afterSeq : ℕ) :
    QueueWork Repo Files Stack MergeQueuePointers := do
  let s ← read
  let green ← lift (s.allPathsGreen asked batch)
  lift (ensure (green = true) (.invalid "reviewed recovery lacks all-path agreement"))
  let path ← lift (doors.landedPath (s.reviewedStacks batch.id) batch)
  lift (asked.verifyWorktree path)
  hostMutations doors asked.mutations
  let outcomes ← lift asked.outcomes
  let lastHash ← lift (receiptChain outcomes batch afterSeq)
  let liveHash ← createWorktree doors
  lift (ensure (lastHash = liveHash) (.concurrentWrite "reviewed recovery receipt diverged"))
  let (queue, _) ← finishLanding doors asked queue batch
  pure queue.pointers

/-- The landing a crash left, given back: nothing of it stays in the repository. -/
def undoLanding (queue : QueueRecord) (batch : MergeBatch Files) :
    QueueWork Repo Files Stack MergeQueuePointers := do
  let queue := { queue with intent := none }
  save queue [{ batch with state := .ready }]
  pure queue.pointers

/-- The landing a crash left, without a reviewed stack. -/
def recoverLanding (queue : QueueRecord) (batch : MergeBatch Files) (afterSeq : ℕ) :
    QueueWork Repo Files Stack MergeQueuePointers := do
  let s ← read
  if doors.head s.repo = batch.expectedHead then do
    lift (s.requireClean doors)
    undoLanding queue batch
  else do
    let writes := s.oplog.filter fun entry =>
      afterSeq < entry.seq ∧ entry.status = .applied ∧ isContentWrite entry = true
    let lastHash ← lift (receiptChain writes batch afterSeq)
    let liveHash ← createWorktree doors
    lift (ensure (lastHash = liveHash)
      (.concurrentWrite "landing recovery receipt does not bind live tree"))
    let path ← lift (okOr batch.paths.getLast? (.corruptedIndex "landing path missing"))
    if doors.tree s.repo = path.tree then do
      let (queue, _) ← finishLanding doors asked queue batch
      pure queue.pointers
    else do
      -- A proper prefix of the landing's writes stands: it is undone, never finished or approved.
      let snapshot ← lift (okOr batch.preSnapshot (.corruptedIndex "landing snapshot missing"))
      recoverRepoSnapshot doors snapshot
      let s ← read
      lift (ensure (doors.head s.repo = batch.expectedHead)
        (.concurrentWrite "partial landing recovery diverged"))
      undoLanding queue batch

/-- `recover`, once the repository's own prepared mutations are reconciled. -/
def recover : QueueWork Repo Files Stack MergeQueuePointers := do
  let s ← read
  match s.queue.intent with
  | none =>
    lift (s.requireCurrent doors)
    pure s.queue.pointers
  | some (.landing id afterSeq) => do
    let batch ← lift (s.batch id)
    match s.reviewedStacks id with
    | some stack => do
      let ended := Function.update s.reviewedStacks id (some (doors.endReviewedMergeStack stack))
      write { s with reviewedStacks := ended }
      recoverReviewed doors asked s.queue batch afterSeq
    | none => recoverLanding doors asked s.queue batch afterSeq
  | some (.rollback snapshot expectedHead) => do
    let actual := doors.head s.repo
    lift (ensure (actual = expectedHead ∨ actual = s.queue.pointers.green)
      (.concurrentWrite "rollback recovery HEAD diverged"))
    let queue ← finishRollback doors s.queue snapshot
    pure queue.pointers

/-! ## The system -/

/-- What may be done with the queue. -/
inductive Op (Repo Files Stack : Type) where
  | enqueue (proposals : List (MergeProposal Files))
  | stage (id : Bytes)
  | requeueSurvivors (id : Bytes)
  | cancel (id : Bytes)
  | check (id : Bytes) (mask : ℕ) (phase : CheckPhase) (commit : Oid) (verdict : Bytes)
      (passes : Bool)
  | quarantine (id : Bytes) (diagnosis : Quarantine)
  | land (id : Bytes)
  | settleSlow
  | recover
  /-- The reviewed stacks move: an admission, an erase. -/
  | review (reviewed : Bytes → Option Stack)

/-- The states an operation leaves behind, the last of them where it ends. -/
def Op.states : Op Repo Files Stack → State Repo Files Stack → List (State Repo Files Stack)
  | enqueue proposals, s => (MergeQueue.enqueue doors asked proposals s).states
  | stage id, s => (MergeQueue.stage doors asked id s).states
  | requeueSurvivors id, s => (MergeQueue.requeueSurvivors doors asked id s).states
  | cancel id, s => (MergeQueue.cancel id s).states
  | check id mask phase commit verdict passes, s =>
    (MergeQueue.check asked id mask phase commit verdict passes s).states
  | quarantine id diagnosis, s => (quarantineBatch id diagnosis s).states
  | land id, s => (MergeQueue.land doors asked id s).states
  | settleSlow, s => (MergeQueue.settleSlow doors asked s).states
  | recover, s => (MergeQueue.recover doors asked s).states
  | review reviewed, s => [{ s with reviewedStacks := reviewed }]

/-- `initialize`: a new queue at a clean repository's HEAD. -/
def initialState (repo : Repo) (verdicts : Bytes → Option Bool)
    (oplog : List RepoMutationOplogEntry) (reviewedStacks : Bytes → Option Stack) :
    State Repo Files Stack where
  queue := { sequence := 0, pointers := ⟨doors.head repo, doors.head repo, []⟩, intent := none }
  batches _ := none
  verdicts
  repo
  oplog
  reviewedStacks

end MergeQueue

end Oneiron
