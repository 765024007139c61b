import Oneiron.Contracts.EntityId
import Oneiron.Foundations.Fallible
import Oneiron.Foundations.Saturating

/-!
# Checkout/LeaseTransactions — the lease of a checkout, fenced by holder and epoch

             claim                    prepare                finish
    (none) --------▸ active --┬------------------▸ settling --------▸ (none, tombstone)
                      │  ▴    │       settle                ▴
                reclaim  └----┼--▸ settled -- prepare ------┤
               (epoch + 1)    └--▸ retained - prepare ------┘

Three rows of a checkout: its lease, the highest epoch it ever retired, and one settlement for each
epoch.  Each function is one transaction's part: what it reads, in order, and the rows it leaves.
-/

namespace Oneiron

/-- Sixteen bytes, not all zero. -/
@[ext] structure CheckoutId where
  asBytes : Bytes
  length_asBytes : asBytes.length = 16
  ne_zero : asBytes ≠ List.replicate 16 0

instance : DecidableEq CheckoutId := fun a b =>
  decidable_of_iff (a.asBytes = b.asBytes) CheckoutId.ext_iff.symm

inductive CheckoutTaskClass where
  | edit | build | verify | effect
  deriving DecidableEq

def CheckoutTaskClass.allowsTtlReclaim : CheckoutTaskClass → Bool
  | build | verify => true
  | edit | effect => false

inductive CheckoutLeaseState where
  | active | settling | settled | retained
  deriving DecidableEq

/-- The attempt that holds one checkout epoch. -/
structure CheckoutAttemptBinding where
  attempt : AttemptId
  epoch : U64
  /-- The attempt generation that started executing on it. -/
  generation : Option UInt32
  deriving DecidableEq

@[ext] structure CheckoutLeaseAct where
  checkoutId : CheckoutId
  taskRef : EntityId
  repoRef : String
  holderRef : String
  epoch : U64
  taskClass : CheckoutTaskClass
  state : CheckoutLeaseState
  claimedAt : U64
  leaseExpiresAt : Option U64
  updatedAt : U64
  boundAttempt : Option CheckoutAttemptBinding
  deriving DecidableEq

structure CheckoutClaimRequest where
  checkoutId : CheckoutId
  taskRef : EntityId
  repoRef : String
  holderRef : String
  taskClass : CheckoutTaskClass
  ttlSecs : Option U64
  now : U64

structure CheckoutLeaseFence where
  checkoutId : CheckoutId
  epoch : U64
  holderRef : String
  deriving DecidableEq

inductive CheckoutSettlementDisposition where
  | select | apply | release | discard
  deriving DecidableEq

structure CheckoutSettlementRequest where
  fence : CheckoutLeaseFence
  disposition : CheckoutSettlementDisposition
  observedRef : String
  resultRef : String
  now : U64

structure CheckoutSettlementReceipt where
  receiptId : Digest
  checkoutId : CheckoutId
  epoch : U64
  resultIdentity : Digest
  disposition : CheckoutSettlementDisposition
  observedRef : String
  resultRef : String
  settledAt : U64
  deriving DecidableEq

structure PushedHeadReceipt where
  receiptRef : String
  observedRef : String
  pushedHead : String
  checkoutId : CheckoutId
  epoch : U64

structure CheckoutLivenessPulse where
  checkoutId : CheckoutId
  epoch : U64
  holderRef : String
  observedAt : U64

inductive TeardownReceiptMatch where
  | match | mismatch | uncertain
  deriving DecidableEq

structure CheckoutTeardownInspection where
  /-- The commit's forty hex digits. -/
  observedHead : Option String
  dirty : Bool
  receiptMatch : TeardownReceiptMatch
  occupant : Option String

inductive CheckoutRetainReason where
  | missingPushedHeadReceipt | receiptMismatch | liveOccupant | dirtyOrUncertain
  deriving DecidableEq

inductive CheckoutError where
  | staleEpoch (held presented : U64)
  | settlementAlreadyWon
  | invalid (what : String)
  /-- A stored row that does not read back. -/
  | corruptedIndex (what : String)
  /-- What a repository or liveness port answered. -/
  | port (what : String)
  deriving DecidableEq

abbrev CheckoutResult := Except CheckoutError

/-- The rows of every checkout. -/
@[ext] structure CheckoutTables where
  lease : CheckoutId → Option CheckoutLeaseAct
  tombstone : CheckoutId → Option U64
  settlement : CheckoutId → U64 → Option CheckoutSettlementReceipt

namespace CheckoutTables

def empty : CheckoutTables := ⟨fun _ => none, fun _ => none, fun _ _ => none⟩

variable (tables : CheckoutTables)

/-- `load_act_in_txn`: a row that names no holder, or binds an attempt at another epoch, is corrupt. -/
def loadAct (id : CheckoutId) : CheckoutResult (Option CheckoutLeaseAct) := do
  let some act := tables.lease id | pure none
  ensure (act.holderRef ≠ "") (.corruptedIndex "checkout lease record")
  ensure (∀ bound ∈ act.boundAttempt, bound.epoch = act.epoch)
    (.corruptedIndex "checkout lease record")
  pure (some act)

/-- `load_tombstone_in_txn`: teardown never records epoch zero. -/
def loadTombstone (id : CheckoutId) : CheckoutResult (Option U64) := do
  ensure (tables.tombstone id ≠ some 0) (.corruptedIndex "checkout lease record")
  pure (tables.tombstone id)

def storeAct (act : CheckoutLeaseAct) : CheckoutTables :=
  { tables with lease := Function.update tables.lease act.checkoutId (some act) }

def putSettlement (receipt : CheckoutSettlementReceipt) : CheckoutTables :=
  { tables with
    settlement := Function.update tables.settlement receipt.checkoutId
      (Function.update (tables.settlement receipt.checkoutId) receipt.epoch (some receipt)) }

/-- The lease row goes, and its epoch is recorded as retired. -/
def retire (id : CheckoutId) (epoch : U64) : CheckoutTables :=
  { tables with
    lease := Function.update tables.lease id none
    tombstone := Function.update tables.tombstone id (some epoch) }

end CheckoutTables

section Checks

variable (act : CheckoutLeaseAct) (now : U64)

def requireNotRegressed : CheckoutResult Unit :=
  ensure (¬now.val < act.updatedAt.val) (.invalid "checkout time regressed")

def requireSettleable : CheckoutResult Unit :=
  ensure (act.state ≠ .settling) (.staleEpoch act.epoch act.epoch)

def requireSettling : CheckoutResult Unit :=
  ensure (act.state = .settling) (.staleEpoch act.epoch act.epoch)

def requireActive : CheckoutResult Unit :=
  ensure (act.state = .active) (.staleEpoch act.epoch act.epoch)

def requireUnexpired : CheckoutResult Unit :=
  ensure (¬(now.val < act.claimedAt.val ∨ ∃ expiry ∈ act.leaseExpiresAt, expiry.val ≤ now.val))
    (.staleEpoch act.epoch act.epoch)

def requireLive : CheckoutResult Unit := do
  requireNotRegressed act now
  requireActive act
  requireUnexpired act now

end Checks

namespace CheckoutTables

variable (tables : CheckoutTables)

/-- `fenced_in_txn`. -/
def fenced (fence : CheckoutLeaseFence) : CheckoutResult CheckoutLeaseAct := do
  let act ← okOr (← tables.loadAct fence.checkoutId) (.invalid "checkout missing")
  ensure (act.epoch = fence.epoch ∧ act.holderRef = fence.holderRef)
    (.staleEpoch act.epoch fence.epoch)
  pure act

/-- `claim_in_txn`, at the vault's own second. -/
def claim (r : CheckoutClaimRequest) (instant : U64) :
    CheckoutResult (CheckoutTables × CheckoutLeaseAct) := do
  ensure (r.holderRef ≠ "") (.invalid "checkout holder empty")
  ensure ((← tables.loadAct r.checkoutId) = none) (.staleEpoch 1 0)
  let retired := (← tables.loadTombstone r.checkoutId).getD 0
  let epoch ← okOr (retired.checkedAdd 1) (.invalid "lease epoch overflow")
  let expires ← r.ttlSecs.mapM fun ttl =>
    okOr (r.now.checkedAdd ttl) (.invalid "lease expiry overflow")
  let act : CheckoutLeaseAct :=
    { checkoutId := r.checkoutId, taskRef := r.taskRef, repoRef := r.repoRef
      holderRef := r.holderRef, epoch, taskClass := r.taskClass, state := .active
      claimedAt := instant, leaseExpiresAt := expires, updatedAt := r.now, boundAttempt := none }
  pure (tables.storeAct act, act)

/-- `renew_in_txn`. -/
def renew (fence : CheckoutLeaseFence) (ttl now : U64) :
    CheckoutResult (CheckoutTables × CheckoutLeaseAct) := do
  let act ← tables.fenced fence
  requireNotRegressed act now
  requireLive act now
  let expires ← okOr (now.checkedAdd ttl) (.invalid "lease expiry overflow")
  let act := { act with leaseExpiresAt := some expires, updatedAt := now }
  pure (tables.storeAct act, act)

/-- `reclaim_in_txn`: whether it made a new epoch, beside the lease. -/
def reclaim (id : CheckoutId) (new : String) (now : U64) (expectedEpoch : Option U64)
    (manual : Bool) (instant : U64) :
    CheckoutResult (CheckoutTables × CheckoutLeaseAct × Bool) := do
  ensure (new ≠ "") (.invalid "checkout holder empty")
  let act ← okOr (← tables.loadAct id) (.invalid "checkout missing")
  requireNotRegressed act now
  requireActive act
  if act.holderRef = new ∧ expectedEpoch = none then
    return (tables, act, false)
  ensure (∀ expected ∈ expectedEpoch, act.epoch = expected)
    (.staleEpoch act.epoch (expectedEpoch.getD 0))
  let expiry ← okOr act.leaseExpiresAt (.invalid "ttl reclaim requires ttl")
  ensure (manual ∨ (act.taskClass.allowsTtlReclaim ∧ ¬now.val < expiry.val))
    (.staleEpoch act.epoch act.epoch)
  let ttl ← okOr (expiry.checkedSub act.updatedAt) (.invalid "invalid lease ttl")
  let epoch ← okOr (act.epoch.checkedAdd 1) (.invalid "lease epoch overflow")
  let expires ← okOr (now.checkedAdd ttl) (.invalid "lease expiry overflow")
  -- a new epoch carries no attempt's custody
  let act :=
    { act with
      epoch, holderRef := new, boundAttempt := none, claimedAt := instant, updatedAt := now
      leaseExpiresAt := some expires }
  pure (tables.storeAct act, act, true)

end CheckoutTables

/-- `checkout_result_identity`. -/
def checkoutResultIdentity (blake3 : Bytes → Digest) (id : CheckoutId) (epoch : U64)
    (observed result : String) : Digest :=
  blake3 (ascii "oneiron:checkout-result:v1" ++ id.asBytes ++ (digits 8 epoch.val).reverse ++
    observed.toUTF8.toList ++ [0] ++ result.toUTF8.toList)

/-- Whether a settlement on record is the one asked for. -/
def CheckoutSettlementReceipt.repeats (receipt : CheckoutSettlementReceipt) (identity : Digest)
    (r : CheckoutSettlementRequest) : Bool :=
  receipt.checkoutId = r.fence.checkoutId && receipt.epoch = r.fence.epoch &&
    receipt.resultIdentity = identity && receipt.disposition = r.disposition &&
    receipt.observedRef = r.observedRef && receipt.resultRef = r.resultRef

/-- What the repository and the liveness of a checkout answer one teardown. -/
structure TeardownPorts where
  treePresent : CheckoutLeaseAct → CheckoutResult Bool
  inspectTeardown : CheckoutLeaseAct → PushedHeadReceipt → CheckoutResult CheckoutTeardownInspection
  current : CheckoutId → CheckoutResult (Option CheckoutLivenessPulse)

/-- `teardown_reason`: none where every condition of a collection is met. -/
def teardownReason (act : CheckoutLeaseAct) (receipt : Option PushedHeadReceipt)
    (ports : TeardownPorts) : CheckoutResult (Option CheckoutRetainReason) := do
  let some r := receipt | return some .missingPushedHeadReceipt
  if r.checkoutId ≠ act.checkoutId ∨ r.epoch ≠ act.epoch then
    return some .receiptMismatch
  let i ← ports.inspectTeardown act r
  let pulse ← ports.current act.checkoutId
  let headMatches := i.observedHead = some r.pushedHead
  let foreign := (∃ holder ∈ i.occupant, holder ≠ act.holderRef) ∨ ∃ p ∈ pulse,
    p.checkoutId ≠ act.checkoutId ∨ p.epoch ≠ act.epoch ∨ p.holderRef ≠ act.holderRef
  pure <|
    if foreign then some .liveOccupant
    else if i.dirty ∨ i.receiptMatch = .uncertain then some .dirtyOrUncertain
    else if i.receiptMatch ≠ .match ∨ ¬headMatches then some .receiptMismatch
    else none

/-- `live_at`. -/
def CheckoutLeaseAct.liveAt (act : CheckoutLeaseAct) (epoch : U64) (holder : String) (now : U64) :
    Bool :=
  act.epoch = epoch && act.holderRef = holder && act.state = .active &&
    act.leaseExpiresAt.all (fun expiry => decide (now.val < expiry.val)) &&
    decide (act.claimedAt.val ≤ now.val)

def checkoutBindingStale : String := "the checkout lease is not live at this epoch for this holder"

def checkoutBindingShared : String := "another attempt already holds this checkout epoch"

def checkoutBindingMismatch : String := "the checkout epoch is bound to another attempt"

namespace CheckoutTables

variable (tables : CheckoutTables)

/-- `settle_in_txn`: whether the receipt is new, beside it. -/
def settle (blake3 : Bytes → Digest) (r : CheckoutSettlementRequest) :
    CheckoutResult (CheckoutTables × CheckoutLeaseAct × CheckoutSettlementReceipt × Bool) := do
  let act ← tables.fenced r.fence
  requireNotRegressed act r.now
  let identity := checkoutResultIdentity blake3 act.checkoutId act.epoch r.observedRef r.resultRef
  if let some old := tables.settlement act.checkoutId act.epoch then
    ensure (old.repeats identity r) .settlementAlreadyWon
    return (tables, act, old, false)
  ensure (act.state ≠ .settled) .settlementAlreadyWon
  requireUnexpired act r.now
  requireSettleable act
  let receipt : CheckoutSettlementReceipt :=
    { receiptId := blake3 (identity.bytes ++ (digits 8 r.now.val).reverse)
      checkoutId := act.checkoutId, epoch := act.epoch, resultIdentity := identity
      disposition := r.disposition, observedRef := r.observedRef, resultRef := r.resultRef
      settledAt := r.now }
  let act := { act with state := .settled, updatedAt := r.now }
  pure ((tables.putSettlement receipt).storeAct act, act, receipt, true)

/-- `prepare_teardown_in_txn`. -/
def prepareTeardown (fence : CheckoutLeaseFence) (receipt : Option PushedHeadReceipt)
    (ports : TeardownPorts) (now : U64) :
    CheckoutResult (CheckoutTables × CheckoutLeaseAct × Option CheckoutRetainReason) := do
  let act ← tables.fenced fence
  requireNotRegressed act now
  if act.state = .settling then
    -- a tree still there is checked again, and the lease stays as it is
    let reason ← if ← ports.treePresent act then teardownReason act receipt ports else pure none
    return (tables, act, reason)
  let reason ← teardownReason act receipt ports
  let act :=
    { act with state := if reason.isSome then .retained else .settling, updatedAt := now }
  pure (tables.storeAct act, act, reason)

/-- `finish_teardown_in_txn`. -/
def finishTeardown (fence : CheckoutLeaseFence) (now : U64) :
    CheckoutResult (CheckoutTables × CheckoutLeaseAct) := do
  let act ← tables.fenced fence
  requireNotRegressed act now
  requireSettling act
  let prior := (← tables.loadTombstone act.checkoutId).getD 0
  pure (tables.retire act.checkoutId (prior.max act.epoch), act)

/-- `reserve_attempt_in_txn`. -/
def reserveAttempt (id : CheckoutId) (epoch : U64) (holder : String) (attempt : AttemptId)
    (instant : U64) : CheckoutResult (CheckoutTables × Except String CheckoutLeaseAct) := do
  let some act ← tables.loadAct id | return (tables, .error checkoutBindingStale)
  if !act.liveAt epoch holder instant then
    return (tables, .error checkoutBindingStale)
  match act.boundAttempt with
  | some bound =>
    pure (tables, if bound.attempt = attempt then .ok act else .error checkoutBindingShared)
  | none =>
    let act := { act with boundAttempt := some ⟨attempt, epoch, none⟩ }
    pure (tables.storeAct act, .ok act)

/-- `start_attempt_in_txn`. -/
def startAttempt (id : CheckoutId) (epoch : U64) (holder : String) (attempt : AttemptId)
    (generation : UInt32) (instant : U64) :
    CheckoutResult (CheckoutTables × Except String CheckoutLeaseAct) := do
  let some act ← tables.loadAct id | return (tables, .error checkoutBindingStale)
  if !act.liveAt epoch holder instant then
    return (tables, .error checkoutBindingStale)
  let some bound := act.boundAttempt.filter (·.attempt = attempt)
    | return (tables, .error checkoutBindingMismatch)
  if bound.generation = some generation then
    return (tables, .ok act)
  let act := { act with boundAttempt := some { bound with generation := some generation } }
  pure (tables.storeAct act, .ok act)

end CheckoutTables

end Oneiron
