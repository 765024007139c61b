import Oneiron.Overlay.Room

/-!
# Overlay/Lifecycle — a room shared by threads: its states, its write permit and its leases

    live --seal--▸ sealing --permit back--▸ sealed --rearm--▸ live
    live, sealed --close--▸ closing --leases back--▸ gone

Every stretch of a call that runs under the lifecycle mutex is one region, and the regions of all
threads interleave freely.  A call that waits on a condition variable parks its thread; the region
that runs when it wakes checks the loop's condition again, so a thread may wake at any time.
-/

open Std

namespace Oneiron

inductive OverlayLifecycleState where
  | live | sealing | sealed | closing | gone
  deriving DecidableEq

structure Lifecycle where
  state : OverlayLifecycleState
  /-- Stamps leases; bumped at close. -/
  generation : ℕ
  /-- Bumped by every mode publication. -/
  modeGeneration : ℕ
  leases : ℕ
  segmentActive : Bool
  deriving DecidableEq

/-- What a region gives back to its caller: nothing while the call is still under way. -/
abbrev Outcome (α : Type) := Option (Except Error α)

/-- `checked_add(1)` of a 64-bit counter. -/
def checkedSucc (what : String) (n : ℕ) : Except Error ℕ :=
  if n + 1 < 2 ^ 64 then .ok (n + 1) else .error (.arithmeticOverflow what)

theorem checkedSucc_eq_ok {what : String} {n m : ℕ} (h : checkedSucc what n = .ok m) :
    m = n + 1 := by
  unfold checkedSucc at h
  split at h <;> cases h
  rfl

def leaseClosed (generation : ℕ) : Error := .offRecord (.offRecordOverlayLeaseClosed generation)

def nextModeGeneration (current : ℕ) : Except Error ℕ :=
  checkedSucc "session overlay mode generation" current

namespace Lifecycle

variable (lifecycle : Lifecycle)

def new (generation : ℕ) : Lifecycle := ⟨.live, generation, 0, 0, false⟩

def sealedModeIs (modeGeneration : ℕ) : Bool :=
  lifecycle.state = .sealed && lifecycle.modeGeneration = modeGeneration

/-! ## Leases -/

/-- Counts one more lease in; its generation is the caller's. -/
def addLease : Except Error Lifecycle := do
  let leases ← checkedSucc "session overlay lease count" lifecycle.leases
  pure { lifecycle with leases }

def dropLease : Lifecycle := { lifecycle with leases := lifecycle.leases - 1 }

def acquireReadLease : Except Error Lifecycle :=
  match lifecycle.state with
  | .live | .sealed => lifecycle.addLease
  | _ => .error (leaseClosed lifecycle.generation)

def acquireExistingLease (generation : ℕ) : Except Error Lifecycle :=
  if lifecycle.state = .gone ∨ lifecycle.generation ≠ generation then
    .error (leaseClosed generation)
  else lifecycle.addLease

/-- The permit with its lease, once nobody holds it. -/
def takePermit : Except Error Lifecycle := do
  let leased ← lifecycle.addLease
  pure { leased with segmentActive := true }

/-- One turn of the loop; `none` waits for the permit. -/
def acquireSegmentLease : Outcome Lifecycle :=
  if lifecycle.segmentActive then
    if lifecycle.state ≠ .live then some (.error (leaseClosed lifecycle.generation)) else none
  else if lifecycle.state ≠ .live then some (.error (leaseClosed lifecycle.generation))
  else some lifecycle.takePermit

/-- One turn of the loop; `none` waits for the permit. -/
def acquireBaseRetirementLease (modeGeneration : ℕ) : Outcome Lifecycle :=
  if !lifecycle.sealedModeIs modeGeneration then some (.error (leaseClosed modeGeneration))
  else if lifecycle.segmentActive then none
  else some lifecycle.takePermit

def releaseSegmentWriter : Lifecycle := { lifecycle with segmentActive := false }

/-! ## Modes -/

/-- The loop of `seal_writes` and what follows it: the one active writer drains first. -/
def drainWriter : Outcome Unit × Lifecycle :=
  if lifecycle.segmentActive then (none, lifecycle)
  else
    match nextModeGeneration lifecycle.modeGeneration with
    | .ok modeGeneration => (some (.ok ()), { lifecycle with state := .sealed, modeGeneration })
    | .error e => (some (.error e), { lifecycle with state := .sealed })

def sealWrites : Outcome Unit × Lifecycle :=
  match lifecycle.state with
  | .live => drainWriter { lifecycle with state := .sealing }
  | .sealed => (some (.ok ()), lifecycle)
  | .sealing | .closing | .gone => (some (.error (leaseClosed lifecycle.generation)), lifecycle)

def rearm : Outcome Unit × Lifecycle :=
  if lifecycle.state ≠ .sealed then (some (.error (leaseClosed lifecycle.generation)), lifecycle)
  else
    match nextModeGeneration lifecycle.modeGeneration with
    | .ok modeGeneration => (some (.ok ()), { lifecycle with state := .live, modeGeneration })
    | .error e => (some (.error e), { lifecycle with state := .live })

/-- The loop of `close_inner` and what follows it: every lease drains first. -/
def drainLeases : Outcome Unit × Lifecycle :=
  if lifecycle.leases ≠ 0 then (none, lifecycle)
  else
    match checkedSucc "session overlay generation" lifecycle.generation with
    | .ok generation => (some (.ok ()), { lifecycle with state := .gone, generation })
    | .error e => (some (.error e), lifecycle)

def closeInner : Outcome Unit × Lifecycle :=
  match lifecycle.state with
  | .live | .sealed =>
    match nextModeGeneration lifecycle.modeGeneration with
    | .ok modeGeneration => drainLeases { lifecycle with state := .closing, modeGeneration }
    | .error e => (some (.error e), { lifecycle with state := .closing })
  | .sealing | .closing | .gone => (some (.error (leaseClosed lifecycle.generation)), lifecycle)

end Lifecycle

/-! ## Routes -/

inductive RouteTarget where
  | overlay | base | discard
  deriving DecidableEq

/-- A write route, with the mode it was minted under. -/
structure SessionWriteRoute where
  target : RouteTarget
  modeGeneration : ℕ

namespace SessionWriteRoute

def mint (lifecycle : Lifecycle) (target : RouteTarget) : SessionWriteRoute :=
  ⟨target, lifecycle.modeGeneration⟩

def revalidate (route : SessionWriteRoute) (lifecycle : Lifecycle) : Except Error Unit :=
  if lifecycle.modeGeneration = route.modeGeneration then .ok ()
  else .error (leaseClosed route.modeGeneration)

end SessionWriteRoute

/-! ## Rows -/

/-- A row goes only while it is still the one the base writer observed. -/
def KeyspaceState.retireSnapshotRow {d : Bool} :
    KeyspaceState d → (snapshot : KeyspaceState d) → Bytes → KeyspaceState d
  | .single clearBase rows, .single _ before, key =>
    let same : Bool := match before[key]?, rows[key]? with
      | some (.present before), some (.present now) => before = now
      | some .tombstone, some .tombstone => true
      | _, _ => false
    if same then .single clearBase (rows.erase key) else .single clearBase rows
  | rows, _, _ => rows

def retireSnapshotRow (state snapshot : OverlayState) (keyspace : OverlayKeyspace) (key : Bytes) :
    OverlayState :=
  state.setKeyspace keyspace
    ((state.keyspaces keyspace).retireSnapshotRow (snapshot.keyspaces keyspace) key)

/-- The rows of a closed keyspace: each present key, with no body. -/
def KeyspaceState.membership {d : Bool} : KeyspaceState d → KeyspaceState d
  | .single _ rows => .single false (rows.filterMap fun _ value =>
      match value with
      | .present _ => some (.present [])
      | .tombstone => none)
  | .dupSort .. => .dupSort false ∅

/-- The entity ids a closed overlay still holds. -/
def membershipOnly (state : OverlayState) : OverlayState :=
  OverlayState.empty.setKeyspace .entities (state.keyspaces .entities).membership

/-! ## Threads -/

/-- The segment in a thread's slot; `base` is the mode a base retirement was minted under. -/
structure ActiveSegment where
  generation : ℕ
  base : Option ℕ
  segment : TxnSegment

/-- Where a thread is in its calls on the overlay. -/
inductive Phase where
  | idle
  /-- Waiting for the permit. -/
  | acquiring (base : Option ℕ)
  /-- Permit and lease in hand, the segment not yet in its slot. -/
  | acquired (base : Option ℕ) (generation : ℕ)
  | holding (active : ActiveSegment)
  /-- The segment out of its slot, its lease not yet dropped. -/
  | dropping (result : Except Error Unit)
  /-- The lease dropped, the permit not yet given back. -/
  | releasing (result : Except Error Unit)
  /-- Waiting in `seal_writes`. -/
  | sealing
  /-- Waiting in `close`. -/
  | closing

namespace Phase

/-- Whether the thread has the segment permit. -/
def permit : Phase → Bool
  | .acquired .. | .holding _ | .dropping _ | .releasing _ => true
  | _ => false

/-- Whether the thread has its segment's lease. -/
def leased : Phase → Bool
  | .acquired .. | .holding _ | .dropping _ => true
  | _ => false

/-- Whether the thread has a segment that would publish rows. -/
def writes : Phase → Bool
  | .acquired base _ => base.isNone
  | .holding active => active.base.isNone
  | _ => false

end Phase

/-- The calls that stage into an open segment. -/
def RoomOp.isStaging : RoomOp → Bool
  | .install | .commit | .abort | .retirePromotedClosure .. | .retireSavedArtifacts .. => false
  | _ => true

/-- One overlay, and the threads that call on it. -/
structure SharedOverlay (Thread : Type) where
  lifecycle : Lifecycle
  budgetBytes : ℕ
  state : OverlayState
  nextSegmentNonce : ℕ
  /-- The leases that snapshots and promotion plans hold. -/
  readLeases : ℕ
  threads : Thread → Phase

/-- The regions of the calls; a loop's region runs at the call and at every wake. -/
inductive Region where
  | installSegment (base : Option ℕ)
  /-- Loads what is published and fills the slot. -/
  | fillSlot
  /-- A staging call of the room on the thread's own segment. -/
  | stage (op : RoomOp)
  | commit
  /-- A base retirement's commit. -/
  | retire (keys : List Bytes)
  /-- The guard dropped without a commit. -/
  | abort
  | dropSegment
  | releaseSegmentWriter
  | sealWrites
  | rearm
  | close
  | snapshot
  /-- A lease in hand retained: a second one of its generation. -/
  | retain (generation : ℕ)
  | dropSnapshot
  | retirePromotedClosure (plan : PromotePlan) (kept : OrderedSet EntityId)
  | releaseClosedState

namespace SharedOverlay

variable [EntryLayout] {Thread : Type} [DecidableEq Thread] (overlay : SharedOverlay Thread)
  (thread : Thread)

def new (Thread : Type) (budgetBytes generation : ℕ) : SharedOverlay Thread :=
  ⟨.new generation, budgetBytes, .empty, 1, 0, fun _ => .idle⟩

/-- The overlay with one thread moved. -/
def move (phase : Phase) : SharedOverlay Thread :=
  { overlay with threads := Function.update overlay.threads thread phase }

/-- What the overlay is to a thread that holds a segment: a room of its own. -/
def room (segment : TxnSegment) : SessionOverlay :=
  ⟨overlay.budgetBytes, overlay.state, some segment, overlay.nextSegmentNonce⟩

/-! ## Installing -/

def acquire (base : Option ℕ) : Outcome Unit × SharedOverlay Thread :=
  let outcome := match base with
    | some modeGeneration => overlay.lifecycle.acquireBaseRetirementLease modeGeneration
    | none => overlay.lifecycle.acquireSegmentLease
  match outcome with
  | none => (none, overlay.move thread (.acquiring base))
  | some (.error e) => (some (.error e), overlay.move thread .idle)
  | some (.ok lifecycle) =>
    (none, { overlay with lifecycle }.move thread (.acquired base lifecycle.generation))

def fillSlot (base : Option ℕ) (generation : ℕ) : SharedOverlay Thread :=
  { overlay with nextSegmentNonce := overlay.nextSegmentNonce + 1 }.move thread
    (.holding ⟨generation, base, {
      nonce := overlay.nextSegmentNonce
      preview := overlay.state
      mutations := []
      journal := []
      journalBytes := 0
      netBudget := none }⟩)

/-! ## Ending a segment -/

/-- What a commit publishes. -/
def applySegment (active : ActiveSegment) : Except Error OverlayState :=
  if active.segment.netBudget.isSome then
    .error (.invariantViolation "a room net-budget operation must finish before commit")
  else if overlay.lifecycle.state = .gone ∨ overlay.lifecycle.generation ≠ active.generation then
    .error (leaseClosed active.generation)
  else
    SessionOverlay.applyPreflightedToState overlay.state active.segment.mutations
      active.segment.journal

def commit (active : ActiveSegment) : SharedOverlay Thread :=
  match overlay.applySegment active with
  | .ok state => { overlay with state }.move thread (.dropping (.ok ()))
  | .error e => overlay.move thread (.dropping (.error e))

/-- Retires the rows only in the sealed mode the guard was minted under. -/
def retireRows (active : ActiveSegment) (modeGeneration : ℕ) (keys : List Bytes) : OverlayState :=
  if overlay.lifecycle.generation = active.generation ∧
      overlay.lifecycle.sealedModeIs modeGeneration then
    (keys.foldl (fun next key => retireSnapshotRow next active.segment.preview .vaultMeta key)
      overlay.state).recalculateBytes
  else overlay.state

/-! ## The regions -/

/-- A staging call leaves its segment open. -/
def stage (active : ActiveSegment) (op : RoomOp) : Outcome Unit × SharedOverlay Thread :=
  match op.result (overlay.room active.segment) with
  | .error e => (some (.error e), overlay)
  | .ok next =>
    (some (.ok ()), overlay.move thread
      (.holding { active with segment := next.segment.getD active.segment }))

/-- The refusal of a thread that holds a segment. -/
def refuse (what : String) : Outcome Unit × SharedOverlay Thread :=
  (some (.error (.invariantViolation what)), overlay)

/-- A region of a waiting call: the thread parks or is done. -/
def settle (parked : Phase) (outcome : Outcome Unit × Lifecycle) :
    Outcome Unit × SharedOverlay Thread :=
  let phase := if outcome.1.isNone then parked else .idle
  (outcome.1, { overlay with lifecycle := outcome.2 }.move thread phase)

/-- A closed overlay keeps only its membership. -/
def close (outcome : Outcome Unit × Lifecycle) : Outcome Unit × SharedOverlay Thread :=
  let state := if outcome.1 = some (.ok ()) then membershipOnly overlay.state else overlay.state
  { overlay with state }.settle thread .closing outcome

/-- A snapshot's lease. -/
def addReadLease (leased : Except Error Lifecycle) : Outcome Unit × SharedOverlay Thread :=
  match leased with
  | .error e => (some (.error e), overlay)
  | .ok lifecycle =>
    (some (.ok ()), { overlay with lifecycle, readLeases := overlay.readLeases + 1 })

/-- A retirement of promoted rows, by any thread. -/
def retirePromotedClosure (plan : PromotePlan) (kept : OrderedSet EntityId) :
    Outcome Unit × SharedOverlay Thread :=
  if overlay.lifecycle.state = .gone then
    (some (.error (leaseClosed overlay.lifecycle.generation)), overlay)
  else (some (.ok ()), { overlay with state := overlay.state.retirePromoted plan kept })

/-- The closed overlay once its registry entry is unpublished. -/
def releaseClosedState : Outcome Unit × SharedOverlay Thread :=
  (some (.ok ()), if overlay.lifecycle.state ≠ .gone then overlay
    else { overlay with state := .empty })

/-- A region a thread runs under no segment of its own, or beside the one it holds. -/
def runBeside : Region → Option (Outcome Unit × SharedOverlay Thread)
  | .rearm => some (overlay.lifecycle.rearm.1, { overlay with lifecycle := overlay.lifecycle.rearm.2 })
  | .retain generation =>
    if overlay.readLeases = 0 then none
    else some (overlay.addReadLease (overlay.lifecycle.acquireExistingLease generation))
  | .dropSnapshot =>
    if overlay.readLeases = 0 then none
    else some (some (.ok ()), { overlay with
      lifecycle := overlay.lifecycle.dropLease
      readLeases := overlay.readLeases - 1 })
  | .retirePromotedClosure plan kept => some (overlay.retirePromotedClosure plan kept)
  | .releaseClosedState => some overlay.releaseClosedState
  | _ => none

/-- A region of a thread that holds a segment. -/
def runHolding (active : ActiveSegment) : Region → Option (Outcome Unit × SharedOverlay Thread)
  | .installSegment _ =>
    some (overlay.refuse "a session txn segment is already installed on this thread")
  | .stage op => if op.isStaging then some (overlay.stage thread active op) else none
  | .commit => if active.base.isNone then some (none, overlay.commit thread active) else none
  | .retire keys =>
    active.base.map fun modeGeneration =>
      (none, { overlay with state := overlay.retireRows active modeGeneration keys }.move thread
        (.dropping (.ok ())))
  | .abort =>
    some (none, { overlay with lifecycle := overlay.lifecycle.dropLease }.move thread
      (.releasing (.ok ())))
  | .sealWrites => some (overlay.refuse
      "session overlay seal called while this thread holds an active txn segment")
  | .close => some (overlay.refuse
      "session overlay close called while this thread holds an active txn segment")
  | .snapshot =>
    some (overlay.addReadLease (overlay.lifecycle.acquireExistingLease active.generation))
  | region => overlay.runBeside region

/-- One region of one thread, where its call is at that region. -/
def run (region : Region) : Option (Outcome Unit × SharedOverlay Thread) :=
  match overlay.threads thread, region with
  | .idle, .installSegment base => some (overlay.acquire thread base)
  | .acquiring base, .installSegment base' =>
    if base' = base then some (overlay.acquire thread base) else none
  | .acquired base generation, .fillSlot =>
    some (some (.ok ()), overlay.fillSlot thread base generation)
  | .dropping result, .dropSegment =>
    some (none, { overlay with lifecycle := overlay.lifecycle.dropLease }.move thread
      (.releasing result))
  | .releasing result, .releaseSegmentWriter =>
    some (some result,
      { overlay with lifecycle := overlay.lifecycle.releaseSegmentWriter }.move thread .idle)
  | .idle, .sealWrites => some (overlay.settle thread .sealing overlay.lifecycle.sealWrites)
  | .sealing, .sealWrites => some (overlay.settle thread .sealing overlay.lifecycle.drainWriter)
  | .idle, .close => some (overlay.close thread overlay.lifecycle.closeInner)
  | .closing, .close => some (overlay.close thread overlay.lifecycle.drainLeases)
  | .idle, .snapshot => some (overlay.addReadLease overlay.lifecycle.acquireReadLease)
  | .idle, region => overlay.runBeside region
  | .holding active, region => overlay.runHolding thread active region
  | _, _ => none

end SharedOverlay

/-! ## Runs -/

/-- One region run by one thread, and what it gave back. -/
structure RegionRun (Thread : Type) where
  thread : Thread
  region : Region
  outcome : Outcome Unit

/-- A new overlay under every interleaving of the regions of its threads. -/
def lifecycles (Thread : Type) [DecidableEq Thread] [EntryLayout] (budgetBytes : ℕ) :
    System (SharedOverlay Thread) (RegionRun Thread) where
  init overlay := ∃ generation, overlay = .new Thread budgetBytes generation
  step overlay ran next := overlay.run ran.thread ran.region = some (ran.outcome, next)

end Oneiron
