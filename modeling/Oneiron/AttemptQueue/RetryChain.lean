import Oneiron.AttemptQueue.ClaimScan

/-!
# AttemptQueue/RetryChain — the lineage of a try, its depth, and its compaction

A retry mints a fresh row that names the try it retries, so a try's lineage is a chain of rows, newest
first.  Compaction drops the tries a history would not keep and links each kept row to the next one
kept; what went between two of them is *folded* into a count on the newer, which the depth of a
lineage adds back.
-/

open Std

namespace Oneiron

namespace AttemptQueue

instance : Ord AttemptId := ⟨compareOn AttemptId.asBytes⟩

instance : TransOrd AttemptId := inferInstanceAs (TransCmp (compareOn AttemptId.asBytes))

instance : LawfulEqOrd AttemptId where
  compare_self {id} := (ReflOrd.compare_self : compare id.asBytes id.asBytes = .eq)
  eq_of_compare {a b} h :=
    AttemptId.ext (LawfulEqOrd.eq_of_compare (show compare a.asBytes b.asBytes = .eq from h))

/-! ## Rows -/

/-- The states no later write leaves. -/
def AttemptState.isTerminal : AttemptState → Bool
  | completed | failed | cancelled | abandoned => true
  | _ => false

/-- A row, with what its lineage and its index entries are read from. -/
structure LineageRecord extends AttemptRecord where
  payload : Bytes
  runId : Option Bytes
  dedupeKey : Option Bytes
  dedupeActorRef : Option Bytes
  retryOf : Option AttemptId
  /-- The tries deleted between the row and the one it retries. -/
  foldedRetries : UInt32
  /-- The run-tree parent its placement names, where it is placed. -/
  placement : Option (Option AttemptId)
  deriving DecidableEq

/-- A row with the id it is kept under. -/
structure Try extends LineageRecord where
  id : AttemptId
  deriving DecidableEq

/-- `TAGGING_MARKER_KIND`. -/
def taggingMarkerKind : Bytes := ascii "oneironer.tag_turn"

/-- `DREAMER_RUNNER_ATTEMPT_KIND`. -/
def dreamerRunnerAttemptKind : Bytes := ascii "dreamer"

/-- `owner_retained_kind`. -/
def ownerRetainedKind (kind : Bytes) : Bool := kind = taggingMarkerKind

/-- What a tagging marker's payload names. -/
structure MarkerIdentity where
  turn : EntityId
  checkpoint : Bytes
  stack : Option Bytes
  deriving DecidableEq

/-- The payload codecs, the hashes of the dedupe index and the encoder a row is written with. -/
structure RowCodecs where
  /-- `MarkerPayload::decode`, of what it names. -/
  markerIdentity : Bytes → Option MarkerIdentity
  /-- The parent that `decode_dreamer_attempt_payload` reads. -/
  dreamerParent : Bytes → Option AttemptId
  /-- Of a kind and a key. -/
  dedupeIndexKey : Bytes → Bytes → Bytes
  /-- Of a kind, an actor and a key. -/
  dedupeIndexKeyV2 : Bytes → Bytes → Bytes → Bytes
  /-- `encode_in_txn`: the payload the row keeps once what it may not hold is masked. -/
  encodeInTxn : Try → Except QueueError Bytes

section Rows

variable (codecs : RowCodecs)

/-- `same_marker_identity`: a payload that does not read names no marker. -/
def sameMarkerIdentity (a b : Bytes) : Bool :=
  (codecs.markerIdentity a).isSome && codecs.markerIdentity a = codecs.markerIdentity b

/-- `retries_the_same_payload`. -/
def retriesTheSamePayload (child parent : Try) : Bool :=
  child.payload = parent.payload ||
    child.kind = taggingMarkerKind && sameMarkerIdentity codecs child.payload parent.payload

/-- `retries_the_same_attempt`. -/
def retriesTheSameAttempt (child parent : Try) : Bool :=
  child.kind = parent.kind && retriesTheSamePayload codecs child parent &&
    child.taskRef = parent.taskRef && child.runId = parent.runId &&
    child.dedupeKey = parent.dedupeKey && child.dedupeActorRef = parent.dedupeActorRef

/-- `effective_parent`, in the run tree. -/
def effectiveParent (row : Try) : Option AttemptId :=
  match row.placement with
  | some parent => parent
  | none => row.retryOf <|>
      if row.kind = dreamerRunnerAttemptKind then codecs.dreamerParent row.payload else none

/-- `DedupeIndexKeys::new`, of the key a row was enqueued under. -/
def dedupeIndexKeys (row : Try) : List Bytes :=
  match row.dedupeKey, row.dedupeActorRef with
  | none, _ => []
  | some key, none => [codecs.dedupeIndexKey row.kind key]
  | some key, some actor =>
    [codecs.dedupeIndexKeyV2 row.kind actor key, codecs.dedupeIndexKey row.kind key]

end Rows

/-- `u32::saturating_add`. -/
def saturatingAdd (a b : UInt32) : UInt32 := (min (a.toNat + b.toNat) (2 ^ 32 - 1)).toUInt32

/-- A count of tries with one more row and those folded behind it. -/
def pass (count : UInt32) (row : Try) : UInt32 :=
  saturatingAdd (saturatingAdd count 1) row.foldedRetries

/-! ## Tables -/

/-- The rows, and the indexes that name them: each is a set of pairs, the id named last. -/
structure LineageTables where
  /-- A row, or why the bytes kept under the id do not decode. -/
  records : OrderedMap AttemptId (Except QueueError LineageRecord)
  ready : OrderedMap Bytes Bytes
  dedupe : OrderedMap Bytes Bytes
  kind : Finset (Bytes × AttemptId)
  task : Finset (Bytes × AttemptId)
  retryChild : Finset (AttemptId × AttemptId)
  parentChild : Finset (AttemptId × AttemptId)
  annotationHold : Finset AttemptId

/-- `retry_chain_record_in_txn`. -/
def retryChainRecord (tables : LineageTables) (id : AttemptId) : Except QueueError Try :=
  match tables.records[id]? with
  | none => .error (.invalidRecord "retry chain names a missing attempt")
  | some row => row.map fun record => { toLineageRecord := record, id }

/-- The entry of a key deleted when it names an id. -/
def deleteNaming (index : OrderedMap Bytes Bytes) (id : AttemptId) (key : Bytes) :
    OrderedMap Bytes Bytes :=
  if index[key]? = some id.asBytes then index.erase key else index

/-- The pair of a parent, where there is one, and a child. -/
def pairUnder {α : Type} (parent : Option α) (child : AttemptId) : Option (α × AttemptId) :=
  parent.map (·, child)

/-- An index with the entry of a pair deleted. -/
def deletePair {α : Type} [DecidableEq α] (index : Finset α) (pair : Option α) : Finset α :=
  pair.elim index index.erase

/-- An index with the entry of a pair put. -/
def putPair {α : Type} [DecidableEq α] (index : Finset α) (pair : Option α) : Finset α :=
  pair.elim index (insert · index)

namespace LineageTables

variable (codecs : RowCodecs) (tables : LineageTables)

/-- `delete_entries_naming`. -/
def deleteEntriesNaming (row : Try) : LineageTables :=
  { tables with
    ready := deleteNaming tables.ready row.id (readyKey (readyAt row.toAttemptRecord) row.id)
    dedupe := (dedupeIndexKeys codecs row).foldl (deleteNaming · row.id) tables.dedupe }

/-- `delete_deleted_in_txn`. -/
def deleteDeleted (row : Try) : LineageTables :=
  { tables with
    kind := tables.kind.erase (row.kind, row.id)
    task := deletePair tables.task (pairUnder row.taskRef row.id)
    retryChild := deletePair tables.retryChild (pairUnder row.retryOf row.id)
    parentChild := deletePair tables.parentChild (pairUnder (effectiveParent codecs row) row.id)
    annotationHold := tables.annotationHold.erase row.id }

/-- A row deleted with each entry that names it. -/
def delete (row : Try) : LineageTables :=
  let tables := (tables.deleteEntriesNaming codecs row).deleteDeleted codecs row
  { tables with records := tables.records.erase row.id }

/-- `move_retry_child_in_txn`. -/
def moveRetryChild (child : AttemptId) (before after : Option AttemptId) : LineageTables :=
  { tables with
    retryChild := putPair (deletePair tables.retryChild (pairUnder before child))
      (pairUnder after child) }

/-- `move_parent_child_in_txn`. -/
def moveParentChild (child : AttemptId) (before after : Option AttemptId) : LineageTables :=
  if before = after then tables else
    { tables with
      parentChild := putPair (deletePair tables.parentChild (pairUnder before child))
        (pairUnder after child) }

end LineageTables

/-! ## The walk -/

section Walk

variable (codecs : RowCodecs) (tables : LineageTables)

/-- One hop of a walk down a lineage: the row the child retries, if it retries one. -/
def hop (seen : List AttemptId) (child : Try) : Except QueueError (Option Try) :=
  match child.retryOf with
  | none => .ok none
  | some parentId => do
    ensure (parentId ∉ seen) (.invalidRecord "retry chain cycles")
    let parent ← retryChainRecord tables parentId
    ensure (retriesTheSameAttempt codecs child parent)
      (.invalidRecord "retry chain links unrelated attempts")
    pure (some parent)

/-- How many ids of the ledger a walk has not seen. -/
def unseen (seen : List AttemptId) : ℕ :=
  (tables.records.toList.map Prod.fst).countP (· ∉ seen)

variable {codecs tables}

theorem retryChainRecord_eq_ok {id : AttemptId} {row : Try} :
    retryChainRecord tables id = .ok row ↔
      tables.records[id]? = some (.ok row.toLineageRecord) ∧ row.id = id := by
  unfold retryChainRecord
  cases htable : tables.records[id]? with
  | none => simp
  | some stored =>
    cases stored with
    | error e => simp [Except.map]
    | ok record =>
      simp only [Except.map, Except.ok.injEq, Option.some.injEq]
      exact ⟨fun h => h ▸ ⟨rfl, rfl⟩, fun ⟨hrecord, hid⟩ => by rw [hrecord, ← hid]⟩

/-- **What a hop finds**: the row retried, stored, not met before and of the same attempt. -/
theorem hop_eq_ok_some {seen : List AttemptId} {child parent : Try} :
    hop codecs tables seen child = .ok (some parent) ↔ child.retryOf = some parent.id ∧
      parent.id ∉ seen ∧ tables.records[parent.id]? = some (.ok parent.toLineageRecord) ∧
      retriesTheSameAttempt codecs child parent := by
  unfold hop
  cases hretry : child.retryOf with
  | none => simp
  | some parentId =>
    simp only [bind_eq_ok, ensure_eq_ok, pure_eq_ok, Option.some.injEq, retryChainRecord_eq_ok]
    constructor
    · rintro ⟨-, hseen, row, ⟨hrow, rfl⟩, -, hsame, rfl⟩
      exact ⟨rfl, hseen, hrow, hsame⟩
    · rintro ⟨rfl, hseen, hrow, hsame⟩
      exact ⟨⟨⟩, hseen, parent, ⟨hrow, rfl⟩, ⟨⟩, hsame, rfl⟩

theorem unseen_cons_lt {seen : List AttemptId} {child parent : Try}
    (h : hop codecs tables seen child = .ok (some parent)) :
    unseen tables (parent.id :: seen) < unseen tables seen := by
  obtain ⟨-, hseen, hrow, -⟩ := hop_eq_ok_some.mp h
  have hmem : parent.id ∈ tables.records.toList.map Prod.fst :=
    List.mem_map.mpr ⟨(parent.id, _), ExtTreeMap.mem_toList_iff_getElem?_eq_some.mpr hrow, rfl⟩
  unfold unseen
  rw [List.countP_eq_length_filter, List.countP_eq_length_filter]
  have hfilter : (tables.records.toList.map Prod.fst).filter (· ∉ parent.id :: seen) =
      ((tables.records.toList.map Prod.fst).filter (· ∉ seen)).filter (· ≠ parent.id) := by
    rw [List.filter_filter]
    simp only [List.mem_cons, not_or, Bool.decide_and]
  rw [hfilter]
  refine List.length_filter_lt_length_iff_exists.mpr ⟨parent.id, ?_, by simp⟩
  exact List.mem_filter.mpr ⟨hmem, by simpa using hseen⟩

variable (codecs tables)

/-- `RETRY_CHAIN_DEPTH_LIMIT`. -/
def retryChainDepthLimit : UInt32 := 1024

/-- The walk of `retry_chain_depth_in_txn`, below a row with the depth counted so far. -/
def depthBelow (seen : List AttemptId) (child : Try) (depth : UInt32) : Except QueueError UInt32 :=
  match _h : hop codecs tables seen child with
  | .error error => .error error
  | .ok none => .ok (min depth retryChainDepthLimit)
  | .ok (some parent) =>
    if retryChainDepthLimit ≤ pass depth parent then .ok retryChainDepthLimit
    else depthBelow (parent.id :: seen) parent (pass depth parent)
termination_by unseen tables seen
decreasing_by exact unseen_cons_lt _h

/-- `retry_chain_depth_in_txn`. -/
def retryChainDepth (id : AttemptId) : Except QueueError UInt32 := do
  let child ← retryChainRecord tables id
  depthBelow codecs tables [id] child child.foldedRetries

/-- The rows a lineage goes on with below a row, newest first, with whether each stays. -/
def lineageBelow (keep : ℕ) (keptSince : UInt64) (seen : List AttemptId) (keptTries : ℕ)
    (child : Try) : Except QueueError (List (Try × Bool)) :=
  match _h : hop codecs tables seen child with
  | .error error => .error error
  | .ok none => .ok []
  | .ok (some parent) => do
    let stays := keptTries < keep && keptSince ≤ parent.updatedAt
    let rest ← lineageBelow keep keptSince (parent.id :: seen) (keptTries + stays.toNat) parent
    pure ((parent, stays) :: rest)
termination_by unseen tables seen
decreasing_by exact unseen_cons_lt _h

end Walk

/-! ## Compaction -/

/-- A compaction under way: the newest kept row whose link is not yet rebuilt, and the tries
deleted behind it so far. -/
structure Compacting where
  tables : LineageTables
  deleted : ℕ := 0
  newer : Option Try := none
  gap : UInt32 := 0

section Compaction

variable (codecs : RowCodecs)

/-- A kept row that retries `parent`, counting the tries folded between the two. -/
def Try.retrying (row : Try) (parent : Option AttemptId) (folded : UInt32) : Try :=
  { row with retryOf := parent, foldedRetries := saturatingAdd row.foldedRetries folded }

/-- `relink_in_txn`. -/
def relink (tables : LineageTables) (row : Try) (parent : Option AttemptId) (folded : UInt32) :
    Except QueueError LineageTables := do
  let linked := row.retrying parent folded
  let tables := tables.moveRetryChild row.id row.retryOf parent
  let tables := tables.moveParentChild row.id (effectiveParent codecs row)
    (effectiveParent codecs linked)
  let payload ← codecs.encodeInTxn linked
  pure { tables with
    records := tables.records.insert row.id (.ok { linked.toLineageRecord with payload }) }

/-- The link of the newest kept row rebuilt, when a try went behind it. -/
def Compacting.rebuild (c : Compacting) (parent : Option AttemptId) :
    Except QueueError LineageTables :=
  match c.newer with
  | some kept => if 0 < c.gap then relink codecs c.tables kept parent c.gap else .ok c.tables
  | none => .ok c.tables

/-- One row of a compaction. -/
def Compacting.step (c : Compacting) (row : Try × Bool) : Except QueueError Compacting :=
  match row with
  | (row, false) => do
    ensure (row.state.isTerminal ∧ row.runId = none ∧ row.taskRef = none)
      (.invalidTransition "compact" row.state.asStr)
    pure { c with
      tables := c.tables.delete codecs row, deleted := c.deleted + 1, gap := pass c.gap row }
  | (row, true) => do
    let tables ← c.rebuild codecs (some row.id)
    pure { c with tables, newer := some row, gap := 0 }

/-- `compact_retry_chain_in_txn`: how many rows went. -/
def compactRetryChain (tables : LineageTables) (id : AttemptId) (keep : ℕ) (keptSince : UInt64) :
    Except QueueError (ℕ × LineageTables) := do
  let live ← retryChainRecord tables id
  ensure (ownerRetainedKind live.kind) (.invalidTransition "compact" live.state.asStr)
  let rest ← lineageBelow codecs tables keep keptSince [id] 0 live
  let done ← ((live, true) :: rest).foldlM (Compacting.step codecs) { tables }
  let tables ← done.rebuild codecs none
  pure (done.deleted, tables)

end Compaction

end AttemptQueue

end Oneiron
