import Oneiron.Contracts.Error
import Oneiron.Foundations.Fallible
import Oneiron.Foundations.Posted

/-!
# Sync/RetainedWork — peer work kept for its turn

Two queues keep exact validated work until its turn comes: signed maintenance operations past their
signer's share, and federation batches a peer sent too fast.  Each waiting item has a note in its
queue's deadline index and a row for every entity whose bytes it carries; an item that ends keeps a
receipt without bytes.
-/

open Std

namespace Oneiron

/-! ## What is kept -/

/-- `MaintenanceWorkState`. -/
inductive MaintenanceWorkState where
  | pending | expired | rejected | erased
  deriving DecidableEq

/-- The signer's key, then the row it carries; both are spelled at a fixed width. -/
abbrev MaintenanceKey := Bytes × EntityId

structure RetainedMaintenance where
  arrival : Bytes
  deadline : ℕ
  window : Bytes
  leaseVaultId : ℕ
  /-- Its exact entities-map value; none once it is a receipt. -/
  blob : Option Bytes
  state : MaintenanceWorkState

/-- `MaintenanceOp`. -/
structure MaintenanceOp where
  window : Bytes
  leaseVaultId : ℕ
  id : EntityId
  blob : Bytes

inductive WorkKind where
  | selector | memberUpdate | guestUpdate
  deriving DecidableEq

def WorkKind.toByte : WorkKind → UInt8
  | .selector => 0
  | .memberUpdate => 1
  | .guestUpdate => 2

/-- `FederationBurstWorkState`. -/
inductive FederationBurstWorkState where
  | pending | imported | rejected | expired | staleAuthority | erased
  deriving DecidableEq

/-- A batch settled for good answers a resend; one that ended otherwise may be sent again. -/
def FederationBurstWorkState.isSettled : FederationBurstWorkState → Bool
  | .imported | .rejected => true
  | _ => false

/-- The peer's digest, the selector's digest, and the request's id. -/
abbrev BurstKey := Bytes × Bytes × Bytes

/-- Each window a batch's parts import into, with that part's bytes. -/
abbrev IsolatedParts := List (Bytes × Bytes)

structure DeferredWork where
  id : Bytes
  authorityDigest : Bytes
  window : Bytes
  kind : WorkKind
  payload : Bytes
  peer : Bytes
  isolatedUpdate : Option IsolatedParts
  selector : Bytes
  arrival : Bytes
  /-- An identity never retained has none. -/
  deadline : ℕ
  carried : List EntityId

/-- An authenticated peer under one encoded selector. -/
structure FederationPeer where
  digest : Bytes
  principal : EntityId
  grant : EntityId
  selector : Bytes

inductive FederationBurstDecision where
  | allow
  | isolateAndPropose (requestId bundleId : Bytes)
  | defer (requestId : Bytes)
  deriving DecidableEq

inductive FederationBurstOutcome where
  | allow | isolateAndPropose | defer

/-- `FederationBurstReceipt`, without the peer's baseline. -/
structure FederationBurstReceipt where
  principal : EntityId
  grant : EntityId
  windowKey : Bytes
  disposition : FederationBurstDecision
  state : FederationBurstWorkState

structure FederationIsolatedUpdate where
  requestRef : Bytes
  window : Bytes
  admittedUpdate : Bytes

structure FederationBurstReviewBundle where
  requestRefs : List Bytes
  updates : List FederationIsolatedUpdate

/-- The retained item a carrier row names. -/
inductive CarriedBy where
  | burst (key : BurstKey)
  | maintenance (key : MaintenanceKey)
  | stagedImport (receipt : Bytes)
  deriving DecidableEq

/-- The letter of its kind, then its key. -/
def CarriedBy.reference : CarriedBy → UInt8 × Bytes × Bytes × Bytes
  | .burst (peer, selector, id) => (98, peer, selector, id)
  | .maintenance (peerKey, id) => (109, peerKey, id.asBytes, [])
  | .stagedImport receipt => (115, receipt, [], [])

theorem CarriedBy.reference_injective : Function.Injective CarriedBy.reference := by
  rintro (⟨_, _, _⟩ | ⟨_, _⟩ | _) (⟨_, _, _⟩ | ⟨_, _⟩ | _) h <;>
    simp_all [CarriedBy.reference, EntityId.ext_iff]

instance : Ord CarriedBy := ⟨compareOn CarriedBy.reference⟩

instance : TransOrd CarriedBy := inferInstanceAs (TransCmp (compareOn CarriedBy.reference))

instance : LawfulEqOrd CarriedBy where
  compare_self {by'} := (ReflOrd.compare_self : compare by'.reference by'.reference = .eq)
  eq_of_compare {a b} h := CarriedBy.reference_injective
    (LawfulEqOrd.eq_of_compare (show compare a.reference b.reference = .eq from h))

/-- The rows of both queues. -/
structure RetainedRows where
  work : OrderedMap MaintenanceKey RetainedMaintenance
  /-- `m:retained-deadline:v1:maintenance_ingest:`. -/
  workDeadlines : OrderedSet (ℕ × MaintenanceKey)
  /-- `m:federation-deferred:v1:`. -/
  deferred : OrderedMap BurstKey DeferredWork
  /-- `m:retained-deadline:v1:federation_burst:`. -/
  burstDeadlines : OrderedSet (ℕ × BurstKey)
  /-- `m:federation-receipt:v1:`, by request id. -/
  receipts : OrderedMap Bytes FederationBurstReceipt
  /-- `m:federation-review:v1:`, by peer. -/
  reviews : OrderedMap Bytes FederationBurstReviewBundle
  /-- `m:federation-completed:v1:`, by peer and request id. -/
  completed : OrderedSet (Bytes × Bytes)
  carriers : OrderedSet (EntityId × CarriedBy)

/-- When a wait that starts now ends: an unsigned 64-bit sum that stops at the top. -/
def deadlineAfter (now wait : ℕ) : ℕ := min (now + wait) 18446744073709551615

namespace RetainedRows

variable (rows : RetainedRows)

/-! ## Maintenance operations -/

/-- `retain_in_txn`: an operation already waiting stays as it arrived first; a receipt for the same
row gives way. -/
def retain (peerKey : Bytes) (op : MaintenanceOp) (arrival : Bytes) (now wait : ℕ) :
    RetainedRows :=
  let key := (peerKey, op.id)
  if rows.work[key]?.any (·.state = .pending) then rows else
    let work : RetainedMaintenance :=
      ⟨arrival, deadlineAfter now wait, op.window, op.leaseVaultId, some op.blob, .pending⟩
    { rows with
      work := rows.work.insert key work
      workDeadlines := rows.workDeadlines.insert (work.deadline, key)
      carriers := register rows.carriers [op.id] (.maintenance key) }

/-- `end_in_txn`: the bytes go, and only the content-free receipt stays. -/
def endWork (key : MaintenanceKey) (state : MaintenanceWorkState) : RetainedRows :=
  match rows.work[key]? with
  | none => rows
  | some work =>
    if work.state = .pending then
      { rows with
        work := rows.work.insert key { work with blob := none, state := state }
        workDeadlines := rows.workDeadlines.erase (work.deadline, key)
        carriers := forget rows.carriers [key.2] (.maintenance key) }
    else rows

/-- What the entity ladder makes of a replayed operation. -/
inductive IngestStep where
  | landed
  /-- A refusal; a terminal one holds for good. -/
  | quarantine (terminal : Bool)
  deriving DecidableEq

/-- The write half of `replay`, whose read half found the operation waiting under `window`; with it
whether the operation landed. -/
def replay (key : MaintenanceKey) (window : Bytes) (step : IngestStep) : RetainedRows × Bool :=
  match rows.work[key]? with
  | none => (rows, false)
  | some work =>
    if work.state = .pending ∧ work.blob.isSome ∧ work.window = window then
      match step with
      | .quarantine terminal => (if terminal then rows.endWork key .rejected else rows, false)
      | .landed =>
        ({ rows with
            work := rows.work.erase key
            workDeadlines := rows.workDeadlines.erase (work.deadline, key)
            carriers := forget rows.carriers [key.2] (.maintenance key) }, true)
    else (rows, false)

/-- The write half of a drain's expiry, of whatever keys its read half found past their wait. -/
def expireWork (keys : List MaintenanceKey) (now : ℕ) : RetainedRows :=
  keys.foldl (fun rows key =>
    if rows.work[key]?.any (·.deadline ≤ now) then rows.endWork key .expired else rows) rows

/-! ## Federation batches -/

/-- `review_doors::retain_in_txn`. -/
def retainReview (work : DeferredWork) : RetainedRows :=
  { rows with
    reviews := match work.isolatedUpdate with
      | none => rows.reviews
      | some parts =>
        let bundle := rows.reviews[work.peer]?.getD ⟨[], []⟩
        if work.id ∈ bundle.requestRefs then rows.reviews
        else rows.reviews.insert work.peer
          ⟨bundle.requestRefs ++ [work.id],
            bundle.updates ++ parts.map fun part => ⟨work.id, part.1, part.2⟩⟩ }

/-- `review_doors::scrub_in_txn`: the bundle keeps the request's reference, not its bytes. -/
def scrubReview (peer id : Bytes) : RetainedRows :=
  { rows with
    reviews := match rows.reviews[peer]? with
      | none => rows.reviews
      | some bundle => rows.reviews.insert peer
        { bundle with updates := bundle.updates.filter (·.requestRef ≠ id) } }

/-- `ledger::load`. -/
def loadReceipt (peer : FederationPeer) (id : Bytes) :
    Except Error (Option FederationBurstReceipt) :=
  match rows.receipts[id]? with
  | none => .ok none
  | some row =>
    if row.principal = peer.principal ∧ row.grant = peer.grant then .ok (some row)
    else .error (.corruptedIndex "federation deferred work")

/-- `ledger::settle_in_txn`: a receipt still pending moves to `state`, whoever the peer is. -/
def settleReceipt (id : Bytes) (state : FederationBurstWorkState) : RetainedRows :=
  { rows with
    receipts := match rows.receipts[id]? with
      | none => rows.receipts
      | some row =>
        if row.state = .pending then rows.receipts.insert id { row with state := state }
        else rows.receipts }

/-- `ledger::settle`, for the peer's own receipt. -/
def settleReceiptOf (peer : FederationPeer) (id : Bytes) (state : FederationBurstWorkState) :
    Except Error RetainedRows := do
  let _ ← rows.loadReceipt peer id
  pure (rows.settleReceipt id state)

section Digest

variable (blake3 : Bytes → Bytes)

/-- What a request's identity is the hash of. -/
def identityInput (peer : FederationPeer) (window : Bytes) (kind : WorkKind) (payload : Bytes) :
    Bytes :=
  ascii "oneiron/federation-work/v1" ++
    (peer.digest ++ (blake3 peer.selector ++ (window ++ kind.toByte :: payload)))

/-- `DeferredWork::new`: the request, not yet retained. -/
def newWork (peer : FederationPeer) (window : Bytes) (kind : WorkKind) (payload : Bytes) :
    DeferredWork :=
  ⟨blake3 (identityInput blake3 peer window kind payload), [], window, kind, payload, peer.digest,
    none, peer.selector, [], 0, []⟩

/-- `DeferredWork::key`. -/
def workKey (work : DeferredWork) : BurstKey := (work.peer, blake3 work.selector, work.id)

/-- `load_in_txn`: the request as it is retained, if it is. -/
def loadWork (work : DeferredWork) : Except Error (Option DeferredWork) :=
  match rows.deferred[workKey blake3 work]? with
  | none => .ok none
  | some saved =>
    if saved.id = work.id ∧ saved.peer = work.peer ∧ saved.selector = work.selector ∧
        saved.window = work.window ∧ saved.kind = work.kind ∧ saved.payload = work.payload then
      .ok (some saved)
    else .error (.corruptedIndex "federation deferred work")

/-- `put_in_txn`: a row put again under another deadline drops its old note. -/
def putWork (work : DeferredWork) : RetainedRows :=
  let key := workKey blake3 work
  let noted := match rows.deferred[key]? with
    | some saved =>
      if saved.deadline ≠ work.deadline then rows.burstDeadlines.erase (saved.deadline, key)
      else rows.burstDeadlines
    | none => rows.burstDeadlines
  { rows with
    deferred := rows.deferred.insert key work
    burstDeadlines := noted.insert (work.deadline, key)
    carriers := register rows.carriers work.carried (.burst key) }

/-- `remove_in_txn`: the row, its note, its review copies and its carrier rows. -/
def removeWork (work : DeferredWork) : RetainedRows :=
  let key := workKey blake3 work
  let scrubbed := { rows with
    deferred := rows.deferred.erase key
    burstDeadlines := rows.burstDeadlines.erase (work.deadline, key) }.scrubReview work.peer work.id
  { scrubbed with carriers := forget scrubbed.carriers work.carried (.burst key) }

/-- `retire_in_txn`: only the content-free receipt stays. -/
def retireInTxn (work : DeferredWork) (state : FederationBurstWorkState) : RetainedRows :=
  (rows.removeWork blake3 work).settleReceipt work.id state

/-- `ended_in_txn`: how a batch has ended without its turn, under the peer's authority now. -/
def endedIn (work : DeferredWork) (authority : Bytes) (now : ℕ) :
    Option FederationBurstWorkState :=
  if work.authorityDigest ≠ authority then some .staleAuthority
  else if work.deadline ≠ 0 ∧ work.deadline ≤ now then some .expired
  else none

/-- The part of `admit_work_at` a request not retained now goes through: a settled receipt answers
it, else it is retained under the observed outcome of its rate. -/
def admitAfresh (peer : FederationPeer) (work : DeferredWork) (parts : Option IsolatedParts)
    (arrival : Bytes) (now wait : ℕ) (outcome : FederationBurstOutcome) :
    Except Error (RetainedRows × FederationBurstDecision × DeferredWork) := do
  let receipt ← rows.loadReceipt peer work.id
  if receipt.any (·.state.isSettled) then pure (rows, .allow, work)
  else
    let work := { work with
      arrival := arrival
      deadline := deadlineAfter now wait
      isolatedUpdate := match outcome with
        | .isolateAndPropose => parts
        | _ => none }
    let decision := match outcome with
      | .allow => .allow
      | _ => if work.isolatedUpdate.isSome then .isolateAndPropose work.id peer.digest
        else .defer work.id
    let rows := { rows.putWork blake3 work with
      receipts := rows.receipts.insert work.id
        ⟨peer.principal, peer.grant, work.window, decision, .pending⟩ }
    pure (rows.retainReview work, decision, work)

/-- `admit_work_at`, under the peer's authority now.  A batch still retained is answered as it is;
one that has ended meanwhile ends alone, and the request is admitted afresh. -/
def admitWork (peer : FederationPeer) (window : Bytes) (kind : WorkKind) (payload : Bytes)
    (carried : List EntityId) (parts : Option IsolatedParts) (authority arrival : Bytes)
    (now wait : ℕ) (replayReady : Bool) (outcome : FederationBurstOutcome) :
    Except Error (RetainedRows × FederationBurstDecision × DeferredWork) := do
  let work : DeferredWork :=
    { newWork blake3 peer window kind payload with carried := carried, authorityDigest := authority }
  match ← rows.loadWork blake3 work with
  | some saved =>
    match endedIn saved authority now with
    | some state =>
      (rows.retireInTxn blake3 saved state).admitAfresh blake3 peer work parts arrival now wait
        outcome
    | none =>
      if saved.isolatedUpdate.isSome ∧ replayReady = false then
        pure (rows, .isolateAndPropose saved.id peer.digest, saved)
      else pure (rows, .allow, saved)
  | none => rows.admitAfresh blake3 peer work parts arrival now wait outcome

/-- `retire`, in a writer of its own, when the batch still ends as `state` there. -/
def retire (work : DeferredWork) (authority : Bytes) (now : ℕ) (state : FederationBurstWorkState) :
    Except Error RetainedRows := do
  match ← rows.loadWork blake3 work with
  | none => pure rows
  | some saved =>
    if endedIn saved authority now = some state then pure (rows.retireInTxn blake3 saved state)
    else pure rows

/-- `settle`: `complete`, or `reject` for a structural failure, of a batch taken before. -/
def settle (work : DeferredWork) (peer : FederationPeer) (structuralFailure : Bool) :
    Except Error RetainedRows := do
  ensure (work.peer = peer.digest ∧ work.selector = peer.selector)
    (.corruptedIndex "federation deferred work")
  let rows ← (rows.removeWork blake3 work).settleReceiptOf peer work.id
    (if structuralFailure then .rejected else .imported)
  pure <| if work.kind = .selector then
    { rows with completed := rows.completed.insert (work.peer, work.id) }
  else rows

/-- One batch of a review the owner settles, under the peer its stored selector names. -/
def settleReviewed (reject : Bool) (peer : FederationPeer) (authority : Bytes) (now : ℕ)
    (work : DeferredWork) : Except Error RetainedRows := do
  match ← rows.loadReceipt peer work.id with
  | some ⟨_, _, _, .isolateAndPropose _ _, _⟩ =>
    if reject then (rows.removeWork blake3 work).settleReceiptOf peer work.id .rejected
    else match endedIn work authority now with
      | some state => pure (rows.retireInTxn blake3 work state)
      | none => pure (rows.putWork blake3 { work with isolatedUpdate := none })
  | _ => pure rows

/-- `settle_federation_burst_review`, of the peer whose digest is `digest`; `peerOf` reads the grant
a stored selector names, and with it the authority it gives now. -/
def settleReview (reject : Bool) (digest : Bytes) (now : ℕ)
    (peerOf : DeferredWork → Except Error (FederationPeer × Bytes)) : Except Error RetainedRows := do
  ensure (digest ∈ rows.reviews) (.storage "EntityNotFound")
  let works := (rows.deferred.toList.filter fun row => row.1.1 = digest).map (·.2)
  works.foldlM (fun rows work => do
    let (peer, authority) ← peerOf work
    ensure (peer.digest = digest) (.corruptedIndex "federation deferred work")
    rows.settleReviewed blake3 reject peer authority now work) rows

/-- `queue::erase_in_txn`. -/
def eraseBurst (key : BurstKey) : Except Error RetainedRows :=
  match rows.deferred[key]? with
  | none => .ok rows
  | some work =>
    if workKey blake3 work = key then .ok (rows.retireInTxn blake3 work .erased)
    else .error (.corruptedIndex "federation deferred work")

/-- One retained item is scrubbed; what a staged import keeps lies elsewhere. -/
def eraseCarried : CarriedBy → Except Error RetainedRows
  | .burst key => rows.eraseBurst blake3 key
  | .maintenance key => .ok (rows.endWork key .erased)
  | .stagedImport _ => .ok rows

/-- `erase_retained_copies_in_txn`: every item that carries `id` is scrubbed. -/
def eraseRetainedCopies (id : EntityId) : Except Error RetainedRows :=
  (rows.carriers.toList.filter fun row => row.1 = id).foldlM (fun rows row => do
    let rows ← rows.eraseCarried blake3 row.2
    pure { rows with carriers := rows.carriers.erase row }) rows

/-- The batch of one note past its date; the note goes with it, or without it. -/
def expireNoted (now : ℕ) (row : ℕ × BurstKey) : RetainedRows :=
  let retired := match rows.deferred[row.2]? with
    | some work =>
      if workKey blake3 work = row.2 ∧ work.deadline ≤ now then
        rows.retireInTxn blake3 work .expired
      else rows
    | none => rows
  { retired with burstDeadlines := retired.burstDeadlines.erase row }

/-- The write half of `expire_retained_work`, of whatever notes up to `now` its read half found. -/
def expireRetained (expired : List (ℕ × BurstKey)) (now : ℕ) : RetainedRows :=
  (expired.filter (·.1 ≤ now)).foldl (fun rows row => rows.expireNoted blake3 now row) rows

end Digest

/-- `check_active_in_txn`: what every writer of a batch's import asks first. -/
def checkActive (peer : FederationPeer) (id authority current : Bytes) : Bool :=
  authority = current && match rows.loadReceipt peer id with
    | .ok (some row) => row.state = .pending
    | _ => false

/-- `earliest_retained_deadline` of the maintenance queue: its index's first row. -/
def earliestWork : Option ℕ := rows.workDeadlines.min?.map Prod.fst

/-- …and of the federation queue. -/
def earliestBurst : Option ℕ := rows.burstDeadlines.min?.map Prod.fst

end RetainedRows

end Oneiron
