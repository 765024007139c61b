import Oneiron.Contracts.EntityId
import Oneiron.Foundations.Edits
import Oneiron.Foundations.Fallible

/-!
# AttemptQueue/ClaimScan — the scans that find the attempt to lease, and their index repairs

The ready index keeps `[ready_at(8) | id(16)] ↦ id` for the rows waiting to run, and may be wrong in
any way.  A scan walks it in key order, notes what is wrong, and stops at the first row it may take;
what it noted is repaired, the rows it met held are paused, and the row it took is leased.  The
generic claim and the kind scan are one walk at two rules (`ClaimRule`); the owner-retained claim
acts entry by entry on a plan found earlier.
-/

open Std

namespace Oneiron

namespace AttemptQueue

inductive QueueError where
  | invalidRecord (what : String)
  | invalidTransition (action state : String)
  | arithmeticOverflow (what : String)
  /-- What the reads and writes outside these tables refuse with. -/
  | elsewhere (what : String)
  deriving DecidableEq

/-! ## Rows -/

/-- `AttemptState`, in the stored order. -/
inductive AttemptState where
  | queued | leased | paused | completed | failed | cancelled | scheduled | landing | abandoned
  deriving DecidableEq

def AttemptState.asStr : AttemptState → String
  | queued => "queued"
  | leased => "leased"
  | paused => "paused"
  | completed => "completed"
  | failed => "failed"
  | cancelled => "cancelled"
  | scheduled => "scheduled"
  | landing => "landing"
  | abandoned => "abandoned"

/-- The states the ready index lists. -/
def AttemptState.isReadyIndexed : AttemptState → Bool
  | queued | scheduled => true
  | _ => false

/-- The fields of a row that a claim reads or writes. -/
structure AttemptRecord where
  kind : Bytes
  state : AttemptState
  scheduledAt : Option UInt64
  backoffUntil : Option UInt64
  /-- The worker its placement assigns. -/
  worker : Option Bytes
  taskRef : Option Bytes
  leaseOwner : Option Bytes
  attemptCount : UInt32
  claimedAt : Option UInt64
  updatedAt : UInt64
  deriving DecidableEq

/-- `accepts_worker`. -/
def AttemptRecord.acceptsWorker (record : AttemptRecord) (worker : Bytes) : Bool :=
  record.worker.all (· = worker)

/-- `ready_at`: the instant a row may run from. -/
def readyAt (record : AttemptRecord) : UInt64 := (record.scheduledAt <|> record.backoffUntil).getD 0

/-- `lease_claimed_record`. -/
def leaseClaimedRecord (record : AttemptRecord) (leaseOwner : Bytes) (now : UInt64) :
    Except QueueError AttemptRecord :=
  if record.attemptCount.toNat + 1 = 2 ^ 32 then .error (.arithmeticOverflow "attempt lease count")
  else .ok { record with
    state := .leased
    leaseOwner := some leaseOwner
    attemptCount := record.attemptCount + 1
    claimedAt := some (record.claimedAt.getD now)
    scheduledAt := none
    backoffUntil := none
    updatedAt := now }

/-- What the record table holds under an id: a row that decodes, or bytes that do not and why. -/
inductive StoredRow where
  | record (record : AttemptRecord)
  | undecodable (error : QueueError)
  deriving DecidableEq

/-! ## Keys -/

/-- `AttemptId::from_bytes`. -/
def idFromBytes (bytes : Bytes) : Option AttemptId :=
  if h : bytes.length = 16 then some ⟨bytes, h⟩ else none

/-- `ready_key`: `[ready_at(8) | id(16)]`. -/
def readyKey (ready : UInt64) (id : AttemptId) : Bytes := digits 8 ready.toNat ++ id.asBytes

/-- `decode_ready_key`: only a key of `READY_KEY_LEN` bytes names an instant and an id. -/
def decodeReadyKey (key : Bytes) : Option (UInt64 × AttemptId) :=
  if key.length = 24 then
    (idFromBytes (key.drop 8)).map ((valueOf (key.take 8)).toUInt64, ·)
  else none

variable {id : AttemptId} (ready : UInt64)

@[simp] theorem length_readyKey (id : AttemptId) : (readyKey ready id).length = 24 := by
  simp [readyKey, id.length_asBytes]

@[simp] theorem idFromBytes_asBytes (id : AttemptId) : idFromBytes id.asBytes = some id :=
  dif_pos id.length_asBytes

theorem idFromBytes_eq_some {bytes : Bytes} : idFromBytes bytes = some id ↔ bytes = id.asBytes := by
  refine ⟨fun h => ?_, fun h => h ▸ idFromBytes_asBytes id⟩
  by_cases hlen : bytes.length = 16
  · rw [idFromBytes, dif_pos hlen] at h
    exact congrArg AttemptId.asBytes (Option.some.inj h)
  · rw [idFromBytes, dif_neg hlen] at h
    exact nomatch h

theorem toNat_lt_digits : ready.toNat < 256 ^ 8 := ready.toNat_lt

/-- **A key decodes exactly as the key of what it names.** -/
theorem decodeReadyKey_eq_some {key : Bytes} {ready : UInt64} :
    decodeReadyKey key = some (ready, id) ↔ key = readyKey ready id := by
  have hvalue : valueOf (digits 8 ready.toNat) = ready.toNat := valueOf_digits (toNat_lt_digits ready)
  constructor
  · intro h
    by_cases hlen : key.length = 24
    · rw [decodeReadyKey, if_pos hlen, Option.map_eq_some_iff] at h
      obtain ⟨id', hid, hpair⟩ := h
      obtain ⟨hready, rfl⟩ := Prod.mk.inj hpair
      have htake : (key.take 8).length = 8 := by rw [List.length_take, hlen]; rfl
      have hlt : valueOf (key.take 8) < 2 ^ 64 := by
        have := valueOf_lt (key.take 8)
        rwa [htake] at this
      have hdigits : digits 8 ready.toNat = key.take 8 := by
        have hspell := digits_valueOf (key.take 8)
        rw [htake] at hspell
        rw [← hready, Nat.toUInt64_eq, UInt64.toNat_ofNat_of_lt' hlt, hspell]
      rw [readyKey, hdigits, ← idFromBytes_eq_some.mp hid, List.take_append_drop]
    · rw [decodeReadyKey, if_neg hlen] at h
      exact nomatch h
  · rintro rfl
    rw [decodeReadyKey, if_pos (length_readyKey ready id), readyKey,
      List.drop_left' (length_digits 8 _), List.take_left' (length_digits 8 _), idFromBytes_asBytes,
      Option.map_some, hvalue, Nat.toUInt64_eq, UInt64.ofNat_toNat]

theorem readyKey_injective {ready ready' : UInt64} {id' : AttemptId}
    (h : readyKey ready id = readyKey ready' id') : ready = ready' ∧ id = id' := by
  have hdecode := decodeReadyKey_eq_some.mpr h
  rw [decodeReadyKey_eq_some.mpr rfl] at hdecode
  exact Prod.mk.inj (Option.some.inj hdecode)

/-- **Keys stand in the order of their instants, those of one instant in the order of their ids.** -/
theorem compare_readyKey (ready' : UInt64) (id id' : AttemptId) :
    compare (readyKey ready id) (readyKey ready' id') =
      (compare ready.toNat ready'.toNat).then (compare id.asBytes id'.asBytes) := by
  rw [readyKey, readyKey, compare_append_of_length _ _ (by simp),
    compare_digits (toNat_lt_digits ready) (toNat_lt_digits ready')]

/-! ## Tables -/

/-- The tables a claim repairs. -/
structure Tables where
  records : AttemptId → Option StoredRow
  ready : OrderedMap Bytes Bytes
  dedupe : OrderedMap Bytes Bytes

namespace Tables

variable (tables : Tables)

/-- The tables with a row written under its id. -/
def putRecord (id : AttemptId) (record : AttemptRecord) : Tables :=
  { tables with records := Function.update tables.records id (some (.record record)) }

/-- The tables with a ready entry deleted. -/
def deleteReady (key : Bytes) : Tables := { tables with ready := tables.ready.erase key }

/-- The tables with a ready entry put. -/
def putReady (key value : Bytes) : Tables := { tables with ready := tables.ready.insert key value }

/-- `delete_dedupe_entries_for_ids`. -/
def deleteDedupeEntriesForIds (ids : List AttemptId) : Except QueueError Tables :=
  if ids = [] then pure tables else do
    let named ← tables.dedupe.toList.mapM fun (key, value) => do
      let id ← okOr (idFromBytes value) (.invalidRecord "attempt id must be 16 bytes")
      pure (key, id)
    let keys := (named.filter (·.2 ∈ ids)).map Prod.fst
    pure { tables with dedupe := tables.dedupe.eraseAll keys }

end Tables

/-- The comment thread a row's TASK waits on. -/
structure AnnotationHold where
  artifactId : EntityId
  threadId : EntityId
  deriving DecidableEq

/-- What a claim asks of the tables outside the queue, in its own transaction. -/
structure Doors where
  taskDispatchReady : Option Bytes → UInt64 → Except QueueError Bool
  /-- `annotation_task_hold_in_txn`, of the TASK a row's reference names. -/
  annotationTaskHold : Option Bytes → Except QueueError (Option AnnotationHold)
  acquireTaskSymbols : Option Bytes → UInt64 → Except QueueError Unit
  /-- Whether a row may be written as it is. -/
  admits : AttemptId → AttemptRecord → Except QueueError Unit

/-- `hold_for_annotation_in_txn`: the engine's pause of a row. -/
def holdForAnnotation (doors : Doors) (tables : Tables) (id : AttemptId) (now : UInt64) :
    Except QueueError Tables := do
  match tables.records id with
  | none => throw (.invalidTransition "pause" "missing")
  | some (.undecodable error) => throw error
  | some (.record record) =>
    match record.state with
    | .paused =>
      doors.admits id record
      pure (tables.putRecord id record)
    | .queued | .scheduled =>
      let held := { record with state := .paused, leaseOwner := none, updatedAt := now }
      doors.admits id held
      pure ((tables.deleteReady (readyKey (readyAt record) id)).putRecord id held)
    | state => throw (.invalidTransition "pause" state.asStr)

/-! ## What an entry comes to -/

/-- `EntryAction`: what a claim does with one readiness entry. -/
structure EntryAction where
  /-- The entry names no ready row, or names it under another instant. -/
  stale : Bool := false
  /-- The entry the row's own instant names, put back. -/
  replacement : Option (Bytes × AttemptId) := none
  /-- The row the claim takes. -/
  claim : Option (AttemptId × AttemptRecord) := none

/-- What a scan notes of one entry. -/
structure Finding extends EntryAction where
  missing : Option AttemptId := none
  held : Option (AttemptId × AnnotationHold) := none
  undecodable : Bool := false

/-- What one door's scan asks of a row, the clock it asks with being already applied. -/
structure ClaimRule where
  /-- Rows ready after it wait. -/
  cutoff : UInt64
  passes : AttemptRecord → Bool
  dispatchReady : AttemptRecord → Except QueueError Bool
  permits : AttemptRecord → Except QueueError Bool
  hold : AttemptRecord → Except QueueError (Option AnnotationHold)

/-- The end of the walk's body, at an entry whose row waits to run. -/
def scanRecord (rule : ClaimRule) (keyReadyAt : UInt64) (id : AttemptId) (record : AttemptRecord) :
    Except QueueError Finding := do
  let stale : Bool := readyAt record ≠ keyReadyAt
  let replacement := if stale then some (readyKey (readyAt record) id, id) else none
  if rule.cutoff < readyAt record then return { stale, replacement }
  if !rule.passes record then return { stale, replacement }
  -- A misplaced entry of a row not ready for dispatch leaves without its replacement.
  if !(← rule.dispatchReady record) then return { stale }
  if !(← rule.permits record) then return { stale, replacement }
  match ← rule.hold record with
  | some hold => return { stale, held := some (id, hold) }
  | none => return { stale, claim := some (id, record) }

/-- The walk's body, at one entry of the ready index. -/
def scanEntry (records : AttemptId → Option StoredRow) (rule : ClaimRule) (entry : KvPair) :
    Except QueueError Finding :=
  match decodeReadyKey entry.1, idFromBytes entry.2 with
  | some (keyReadyAt, keyId), some id =>
    if id ≠ keyId then .ok { stale := true } else
    match records id with
    | none => .ok { stale := true, missing := some id }
    | some (.undecodable _) => .ok { undecodable := true }
    | some (.record record) =>
      if record.state.isReadyIndexed then scanRecord rule keyReadyAt id record
      else .ok { stale := true }
  | _, _ => .ok { stale := true }

/-! ## The walk -/

structure ClaimKindReadScan where
  staleReadyKeys : List Bytes := []
  readyReplacements : List (Bytes × AttemptId) := []
  staleMissingRecordIds : List AttemptId := []
  held : List (AttemptId × AnnotationHold) := []
  undecodable : ℕ := 0

/-- The scan with what it found of one more entry. -/
def ClaimKindReadScan.note (scan : ClaimKindReadScan) (key : Bytes) (found : Finding) :
    ClaimKindReadScan where
  staleReadyKeys := scan.staleReadyKeys ++ if found.stale then [key] else []
  readyReplacements := scan.readyReplacements ++ found.replacement.toList
  staleMissingRecordIds := scan.staleMissingRecordIds ++ found.missing.toList
  held := scan.held ++ found.held.toList
  undecodable := scan.undecodable + found.undecodable.toNat

/-- The key and the row of the entry a scan stops at. -/
abbrev Taken := Bytes × AttemptId × AttemptRecord

/-- The walk over the entries that are left, up to the first row the rule takes. -/
def scanEntries (records : AttemptId → Option StoredRow) (rule : ClaimRule) :
    List KvPair → ClaimKindReadScan → Except QueueError (ClaimKindReadScan × Option Taken)
  | [], scan => .ok (scan, none)
  | entry :: rest, scan => do
    let found ← scanEntry records rule entry
    let scan := scan.note entry.1 found
    match found.claim with
    | some (id, record) => pure (scan, some (entry.1, id, record))
    | none => scanEntries records rule rest scan

/-- `apply_claim_kind_read_repairs`. -/
def applyClaimKindReadRepairs (tables : Tables) (scan : ClaimKindReadScan) :
    Except QueueError Tables := do
  let tables ← tables.deleteDedupeEntriesForIds scan.staleMissingRecordIds
  pure { tables with
    ready := (tables.ready.eraseAll scan.staleReadyKeys).insertAll
      (scan.readyReplacements.map fun (key, id) => (key, id.asBytes)) }

/-- A walk over the whole index, its repairs, and the pauses of the rows it met held. -/
def scanAndRepair (doors : Doors) (rule : ClaimRule) (now : UInt64) (tables : Tables) :
    Except QueueError (Option Taken × Tables) := do
  let (scan, taken) ← scanEntries tables.records rule tables.ready.toList {}
  let tables ← applyClaimKindReadRepairs tables scan
  let tables ← scan.held.foldlM (fun tables (id, _) => holdForAnnotation doors tables id now) tables
  pure (taken, tables)

/-! ## The doors -/

structure ClaimAttempt where
  leaseOwner : Bytes
  now : UInt64

/-- What `claim_matching_in_txn` asks of a row. -/
def claimMatchingRule (doors : Doors) (input : ClaimAttempt) (kindFilter : Option Bytes)
    (cutoff : UInt64) : ClaimRule where
  cutoff
  passes record := kindFilter.all (record.kind = ·) && record.acceptsWorker input.leaseOwner
  dispatchReady record := doors.taskDispatchReady record.taskRef input.now
  permits _ := .ok true
  hold record := doors.annotationTaskHold record.taskRef

/-- What `ready_kind_matching_in_txn` asks of a row. -/
def readyKindRule (doors : Doors) (kind : Bytes) (now : UInt64)
    (permits : AttemptRecord → Except QueueError Bool) : ClaimRule where
  cutoff := now
  passes record := record.kind = kind
  dispatchReady record := doors.taskDispatchReady record.taskRef now
  permits
  hold record := doors.annotationTaskHold record.taskRef

/-- The lease of a row a claim took, its entry deleted. -/
def leaseTaken (doors : Doors) (input : ClaimAttempt) (tables : Tables) (taken : Taken) :
    Except QueueError (AttemptRecord × Tables) := do
  let (key, id, record) := taken
  let leased ← leaseClaimedRecord record input.leaseOwner input.now
  doors.acquireTaskSymbols leased.taskRef input.now
  doors.admits id leased
  pure (leased, (tables.deleteReady key).putRecord id leased)

/-- `claim_matching_in_txn`: the row it leased, if any. -/
def claimMatching (doors : Doors) (tables : Tables) (input : ClaimAttempt)
    (kindFilter : Option Bytes) (cutoff : UInt64) :
    Except QueueError (Option (AttemptId × AttemptRecord) × Tables) := do
  let rule := claimMatchingRule doors input kindFilter cutoff
  let (taken, tables) ← scanAndRepair doors rule input.now tables
  match taken with
  | none => pure (none, tables)
  | some (key, id, record) =>
    let (leased, tables) ← leaseTaken doors input tables (key, id, record)
    pure (some (id, leased), tables)

/-- `ready_kind_matching_in_txn`: the row it would lease, if any. -/
def readyKindMatching (doors : Doors) (tables : Tables) (kind : Bytes) (now : UInt64)
    (permits : AttemptRecord → Except QueueError Bool) :
    Except QueueError (Option AttemptId × Tables) := do
  let (taken, tables) ← scanAndRepair doors (readyKindRule doors kind now permits) now tables
  pure (taken.map (·.2.1), tables)

/-- The end of `owner_retained_entry_action`, at an entry whose row waits to run. -/
def ownerRetainedRow (doors : Doors) (kind : Bytes) (input : ClaimAttempt)
    (cutoff keyReadyAt : UInt64) (id : AttemptId) (record : AttemptRecord) :
    Except QueueError EntryAction := do
  let stale : Bool := readyAt record ≠ keyReadyAt
  let replacement := if stale then some (readyKey (readyAt record) id, id) else none
  if stale ∧ cutoff < readyAt record then return { stale, replacement }
  if record.kind ≠ kind ∨ record.acceptsWorker input.leaseOwner = false then
    return { stale, replacement }
  -- As in the walk, a misplaced entry of such a row leaves without its replacement.
  if !(← doors.taskDispatchReady record.taskRef input.now) then return { stale }
  return { stale, claim := some (id, record) }

/-- `owner_retained_entry_action`. -/
def ownerRetainedEntryAction (doors : Doors) (records : AttemptId → Option StoredRow)
    (kind : Bytes) (input : ClaimAttempt) (cutoff keyReadyAt : UInt64) (keyId : AttemptId)
    (value : Bytes) : Except QueueError EntryAction :=
  match idFromBytes value with
  | none => .ok { stale := true }
  | some id =>
    if id ≠ keyId then .ok { stale := true } else
    match records id with
    | none => .ok { stale := true }
    | some (.undecodable error) => .error error
    | some (.record record) =>
      if record.state.isReadyIndexed then
        ownerRetainedRow doors kind input cutoff keyReadyAt id record
      else .ok { stale := true }

/-- `permitting`: the action with its claim dropped unless the row is admitted. -/
def EntryAction.permitting (action : EntryAction)
    (permits : AttemptRecord → Except QueueError Bool) : Except QueueError EntryAction :=
  match action.claim with
  | none => .ok action
  | some (id, record) => do
    if ← permits record then pure action else
      pure { action with
        replacement :=
          if action.stale then some (readyKey (readyAt record) id, id) else action.replacement
        claim := none }

/-- The repairs of one action. -/
def EntryAction.repair (action : EntryAction) (tables : Tables) (key : Bytes) : Tables :=
  let tables := if action.stale then tables.deleteReady key else tables
  action.replacement.elim tables fun (own, id) => tables.putReady own id.asBytes

/-- `claim_owner_retained_matching_in_txn`, over the entries of a plan: the row it leased and
whether it made repairs. -/
def claimOwnerRetained (doors : Doors) (kind : Bytes) (input : ClaimAttempt) (cutoff : UInt64)
    (permits : AttemptRecord → Except QueueError Bool) :
    List KvPair → Bool → Tables →
      Except QueueError ((Option (AttemptId × AttemptRecord) × Bool) × Tables)
  | [], repaired, tables => .ok ((none, repaired), tables)
  | (key, value) :: plan, repaired, tables =>
    if tables.ready[key]? ≠ some value then
      claimOwnerRetained doors kind input cutoff permits plan repaired tables
    else
    match decodeReadyKey key with
    | none => claimOwnerRetained doors kind input cutoff permits plan repaired tables
    | some (keyReadyAt, keyId) =>
      if cutoff < keyReadyAt then
        claimOwnerRetained doors kind input cutoff permits plan repaired tables
      else do
      let action ← ownerRetainedEntryAction doors tables.records kind input cutoff keyReadyAt keyId
        value
      let action ← action.permitting permits
      let tables := action.repair tables key
      let repaired := repaired || action.stale || action.replacement.isSome
      match action.claim with
      | none => claimOwnerRetained doors kind input cutoff permits plan repaired tables
      | some (id, record) =>
        let (leased, tables) ← leaseTaken doors input tables (key, id, record)
        pure ((some (id, leased), repaired), tables)

end AttemptQueue

end Oneiron
