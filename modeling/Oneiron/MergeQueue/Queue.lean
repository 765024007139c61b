import Oneiron.Contracts.Bytes
import Oneiron.Foundations.Crashing

/-!
# MergeQueue/Queue — the merge queue's rows, its repository, and how both are read

One queue row (pointers, and the effect under way), one row a batch, the verdicts, and a repository
that changes only through its doors.  Every operation works under the repository's lock; what it asks
outside these (`Asked`) may be anything.
-/

namespace Oneiron

namespace MergeQueue

inductive QueueError where
  | invalid (what : String)
  | concurrentWrite (what : String)
  | corruptedIndex (what : String)
  /-- What a door or a check outside refuses with. -/
  | outside (what : String)
  deriving DecidableEq

/-- A git object id, spelled. -/
abbrev Oid := Bytes

/-- `RepoForkHash`: what names a snapshot. -/
abbrev RepoForkHash := Digest

inductive BatchState where
  | queued | staged | ready | landing | headAdvanced | greenAdvanced | quarantined | rollingBack
  | rolledBack | cancelled
  deriving DecidableEq

inductive CheckPhase where
  | fast | slow
  deriving DecidableEq

structure MergeProposal (Files : Type) where
  id : Bytes
  baseGreen : Oid
  files : Files

structure SpeculativePath where
  mask : ℕ
  commit : Oid
  tree : Oid
  verdict : Option Bytes
  deriving DecidableEq

structure Quarantine where
  proposalIds : List Bytes
  failingMask : ℕ
  verdict : Bytes

structure MergeBatch (Files : Type) where
  id : Bytes
  expectedHead : Oid
  baseGreen : Oid
  proposals : List (MergeProposal Files)
  state : BatchState
  paths : List SpeculativePath
  preSnapshot : Option RepoForkHash
  landedHead : Option Oid
  slowVerdict : Option Bytes
  quarantine : Option Quarantine

structure MergeQueuePointers where
  head : Oid
  green : Oid
  pendingSlow : List Bytes
  deriving DecidableEq

inductive EffectIntent where
  | landing (batch : Bytes) (afterSeq : ℕ)
  | rollback (snapshot : RepoForkHash) (expectedHead : Oid)
  deriving DecidableEq

structure QueueRecord where
  sequence : ℕ
  pointers : MergeQueuePointers
  intent : Option EffectIntent

inductive RepoMutationStatus where
  | prepared | applied | failed
  deriving DecidableEq

structure RepoMutationOplogEntry where
  seq : ℕ
  operationKind : String
  status : RepoMutationStatus
  preActionForkHash : RepoForkHash
  expectedPostActionForkHash : Option RepoForkHash
  deriving DecidableEq

/-- `is_content_write`. -/
def isContentWrite (entry : RepoMutationOplogEntry) : Bool :=
  !(["create_worktree", "remove_worktree", "recover_snapshot"].contains entry.operationKind)

/-! ## The repository -/

/-- The repository's doors: what is read of its state, and the one that restores a snapshot. -/
structure RepoDoors (Repo Files Stack : Type) where
  head : Repo → Oid
  tree : Repo → Oid
  /-- Nothing is changed or untracked. -/
  clean : Repo → Bool
  /-- The hash a snapshot of the state is kept under. -/
  forkHash : Repo → RepoForkHash
  recoverRepoSnapshot : RepoForkHash → Repo → Except QueueError Repo
  /-- `reviewed_landed_path`: the staged path a batch lands, as its reviewed stack stands. -/
  landedPath : Option Stack → MergeBatch Files → Except QueueError SpeculativePath
  /-- `end_reviewed_merge_stack`: an erase's end request, frozen at the landed prefix. -/
  endReviewedMergeStack : Stack → Stack

/-- **What the doors are held to**: a hash names one HEAD, and a restored state has the hash asked for. -/
structure RepoDoors.Sound {Repo Files Stack : Type} (doors : RepoDoors Repo Files Stack) : Prop where
  head_of_forkHash : ∀ r r', doors.forkHash r = doors.forkHash r' → doors.head r = doors.head r'
  restores : ∀ f r r', doors.recoverRepoSnapshot f r = .ok r' → doors.forkHash r' = f

/-! ## States -/

/-- Everything durable. -/
structure State (Repo Files Stack : Type) where
  queue : QueueRecord
  batches : Bytes → Option (MergeBatch Files)
  /-- The recorded verdicts, by whether they pass. -/
  verdicts : Bytes → Option Bool
  repo : Repo
  oplog : List RepoMutationOplogEntry
  reviewedStacks : Bytes → Option Stack

/-- What one operation is given and what it hears from outside, in the order it hears it. -/
structure Asked (Repo Files : Type) where
  /-- The id the next batch's digest comes to, past every kept one. -/
  nextBatchId : Bytes
  admitted : Except QueueError Unit
  filesValid : MergeProposal Files → Except QueueError Unit
  runBatchReady : Bool
  materialize : ℕ → Except QueueError (Oid × Oid)
  pin : Except QueueError Unit
  verifyWorktree : SpeculativePath → Except QueueError Unit
  requireCheckBinding : MergeBatch Files → SpeculativePath → Oid → CheckPhase → Bytes →
    Except QueueError Bool
  /-- The mutations the host asks for while it lands, each applied or refused. -/
  mutations : List (String × Option Repo)
  /-- The receipts it answers with. -/
  outcomes : Except QueueError (List RepoMutationOplogEntry)
  sealIntent : MergeBatch Files → Except QueueError Unit

variable {Repo Files Stack : Type}

/-- Work on the queue. -/
abbrev QueueWork (Repo Files Stack : Type) := Work (State Repo Files Stack) QueueError

/-! ## Reading -/

/-- `SPECULATION_WIDTH`. -/
def speculationWidth : ℕ := 6

/-- `MAX_BATCH_PROPOSALS`. -/
def maxBatchProposals : ℕ := 63

/-- `speculative_masks`: every nonempty subset of each window over all earlier windows whole. -/
def speculativeMasks (count : ℕ) : List ℕ :=
  let windows := (min count maxBatchProposals + speculationWidth - 1) / speculationWidth
  (List.range windows).flatMap fun window =>
    let start := window * speculationWidth
    let width := min speculationWidth (count - start)
    (List.range (2 ^ width - 1)).map fun subset => (2 ^ start - 1) ||| ((subset + 1) <<< start)

namespace State

variable (doors : RepoDoors Repo Files Stack) (s : State Repo Files Stack)

/-- `require_current`. -/
def requireCurrent : Except QueueError Unit := do
  ensure (s.queue.intent = none) (.concurrentWrite "merge effect needs recovery")
  ensure (doors.head s.repo = s.queue.pointers.head) (.concurrentWrite "merge queue HEAD diverged")

/-- `require_clean`, of the live tree. -/
def requireClean : Except QueueError Unit :=
  ensure (doors.clean s.repo = true)
    (.concurrentWrite "merge check requires an unchanged materialized tree")

/-- `batch`: a row that names itself, its paths complete once it is staged. -/
def batch (id : Bytes) : Except QueueError (MergeBatch Files) := do
  let batch ← okOr (s.batches id) (.invalid "merge batch not found")
  ensure (batch.id = id ∧ batch.proposals ≠ [] ∧ batch.proposals.length ≤ maxBatchProposals)
    (.corruptedIndex "merge batch identity or schema")
  let masks := speculativeMasks batch.proposals.length
  ensure (batch.state ∈ [.queued, .quarantined, .cancelled] ∨
      batch.paths.length = masks.length ∧ batch.preSnapshot.isSome)
    (.corruptedIndex "merge batch paths incomplete")
  ensure (batch.paths.map (·.mask) <+: masks) (.corruptedIndex "merge worktree path identity")
  pure batch

/-- `all_paths_green`. -/
def allPathsGreen (asked : Asked Repo Files) (batch : MergeBatch Files) : Except QueueError Bool :=
  if batch.paths.length ≠ (speculativeMasks batch.proposals.length).length then .ok false
  else go batch.paths
where
  go : List SpeculativePath → Except QueueError Bool
    | [] => .ok true
    | path :: rest =>
      match path.verdict with
      | none => .ok false
      | some id => do
        let passes ← okOr (s.verdicts id) (.corruptedIndex "merge verdict is missing")
        let bound ← asked.requireCheckBinding batch path path.commit .fast id
        ensure (bound = true) (.corruptedIndex "merge verdict scope differs")
        if passes then go rest else pure false

/-- The state with a queue row and some batch rows written. -/
def saved (queue : QueueRecord) (batches : List (MergeBatch Files)) : State Repo Files Stack :=
  { s with
    queue
    batches := batches.foldl (fun rows batch => Function.update rows batch.id (some batch)) s.batches }

/-- The state after one journaled mutation of the repository. -/
def mutated (operationKind : String) (result : Option Repo) : State Repo Files Stack :=
  { s with
    repo := result.getD s.repo
    oplog := s.oplog ++ [{
      seq := (s.oplog.getLast?.map (·.seq)).getD 0 + 1
      operationKind
      status := if result.isSome then .applied else .failed
      preActionForkHash := doors.forkHash s.repo
      expectedPostActionForkHash := result.map doors.forkHash }] }

end State

/-! ## Writing -/

/-- `save`: the queue row and the batch rows, in one transaction. -/
def save (queue : QueueRecord) (batches : List (MergeBatch Files)) : QueueWork Repo Files Stack Unit :=
  do
    let s ← Work.read
    Work.write (s.saved queue batches)

/-- One mutation through the repository's door: applied, or refused with the tree left as it is. -/
def mutate (doors : RepoDoors Repo Files Stack) (operationKind : String) (result : Option Repo) :
    QueueWork Repo Files Stack Unit := do
  let s ← Work.read
  Work.write (s.mutated doors operationKind result)

/-- A worktree made through the door, which leaves the live tree alone: the hash of the tree before. -/
def createWorktree (doors : RepoDoors Repo Files Stack) : QueueWork Repo Files Stack RepoForkHash :=
  do
    let s ← Work.read
    mutate doors "create_worktree" (some s.repo)
    pure (doors.forkHash s.repo)

/-- `recover_repo_snapshot`. -/
def recoverRepoSnapshot (doors : RepoDoors Repo Files Stack) (snapshot : RepoForkHash) :
    QueueWork Repo Files Stack Unit := do
  let s ← Work.read
  match doors.recoverRepoSnapshot snapshot s.repo with
  | .ok repo => mutate doors "recover_snapshot" (some repo)
  | .error error =>
    mutate doors "recover_snapshot" none
    Work.lift (.error error)

end MergeQueue

end Oneiron
