import Oneiron.Contracts.Error
import Oneiron.Foundations.Fallible

/-!
# Overlay/Keyspace — the twenty-eight keyspaces of a session overlay and their mutations

    Single      key ↦ Present bytes | Tombstone
    DUP_SORT    key ↦ ⟨delete_base, identity ↦ present value, deleted values⟩

Only `textPostings` keeps duplicates, and the type of a keyspace's state says which of the two
shapes it has, so a mutation cannot change it.  `applyMutation` is the one transition of the rows;
a keyspace it does not name is untouched (`applyMutation_keyspaces_ne`).
-/

namespace Oneiron

open Function Bool

/-! ## The typed journal a session overlay keeps beside its rows

An entry is one batch op under a role and a scope.  Promotion selects entries by role and scope
alone (`journalEntryInClosure`) and rebuilds each op for the base apply (`promotionReplayOp`); the
op keeps its subject through that rebuilding (`replayedSubject_promotionReplayOp`), which is what
lets a retirement recognise by subject what base now holds.
-/

/-- Inclusive bounds; `stop` is the source's `end`. -/
structure TimeRange where
  start : UInt64
  stop : UInt64
  deriving DecidableEq

/-- Valence, arousal and dominance, as the bits of three `f32`. -/
structure Vad where
  valence : UInt32
  arousal : UInt32
  dominance : UInt32
  deriving DecidableEq

/-- The batch op vocabulary.  An `f32` is its bits; an op the session journal refuses carries only
what the functions here read of it. -/
inductive BatchOp where
  | put (id : EntityId) (entityType : UInt8) (occurred : TimeRange) (learnedAt : UInt64)
      (rowVersion : Option UInt64) (data : Bytes)
      (allowMaintenance allowReservedPredicate hubSyncImported : Bool)
  /-- `debugBytes` is the length of the candidate's and envelope's debug text. -/
  | claimCandidate (id : EntityId) (debugBytes : ℕ)
  | reconcileLexicalQueryHints (source : EntityId) (keep : List EntityId)
  | vector (id : EntityId) (vector : List UInt32) (pendingEmbeddingToken : Option Bytes)
  | edge (src : EntityId) (kind : EdgeKind) (tgt : EntityId) (weight : UInt32) (vad : Vad)
  | publicEdgeWithCreatedAt (src : EntityId) (kind : EdgeKind) (tgt : EntityId) (weight : UInt32)
      (createdAt : UInt64) (vad : Vad)
  | edgeWithCreatedAt (src : EntityId) (kind : EdgeKind) (tgt : EntityId) (weight : UInt32)
      (createdAt : UInt64) (vad : Vad)
  | setEdgeWeight (src : EntityId) (kind : EdgeKind) (tgt : EntityId) (weight : UInt32)
  | setEdgeVad (src : EntityId) (kind : EdgeKind) (tgt : EntityId) (vad : Vad)
  | text (id : EntityId) (fields : List (Bytes × Bytes))
  | mediaVector (space : Bytes) (id : EntityId) (textHash : Option Bytes) (vector : List UInt32)
  | phonetic (id : EntityId) (codes : List Bytes)
  | delete (id : EntityId)
  | deleteEdge (src : EntityId) (kind : EdgeKind) (tgt : EntityId)
  | commitmentGapDecay (ids : List EntityId)
  deriving DecidableEq

/-- Semantic ownership tag on a typed journal entry. -/
inductive JournalRole where
  | turnPut | messagePartOf | summaryDerivedFrom | attributionEdge | conversationShell
  | turnOwnedArtifact
  deriving DecidableEq

/-- The conversation and the turn an op belongs to. -/
structure JournalScope where
  conversation : EntityId
  turn : EntityId
  deriving DecidableEq

/-- One typed journal operation. -/
structure JournalEntry where
  scope : JournalScope
  role : JournalRole
  learnedAt : UInt64
  occurred : TimeRange
  op : BatchOp
  deriving DecidableEq

/-- An entry with the identity it was published under. -/
structure PublishedEntry where
  seq : ℕ
  entry : JournalEntry
  deriving DecidableEq

/-! ## Bytes -/

/-- The in-memory sizes the target lays the journal's structs out in. -/
class EntryLayout where
  /-- `size_of::<JournalEntry>()`. -/
  journalEntry : ℕ
  /-- `size_of::<Option<RunWriteToken>>()`. -/
  sourceRun : ℕ

/-- One layout, to run the model at. -/
abbrev EntryLayout.wide : EntryLayout := ⟨256, 24⟩

/-- `batch_op_payload_bytes`. -/
def batchOpPayloadBytes : BatchOp → ℕ
  | .put _ _ _ _ _ data _ _ _ => data.length
  | .claimCandidate _ debugBytes => debugBytes
  | .reconcileLexicalQueryHints _ keep => keep.length * entityIdLen
  | .vector _ vector token => vector.length * 4 + token.elim 0 List.length
  | .text _ fields => (fields.map fun f => f.1.length + f.2.length).sum
  | .phonetic _ codes => (codes.map List.length).sum
  | .mediaVector space _ textHash vector =>
    vector.length * 4 + space.length + textHash.elim 0 List.length
  | .commitmentGapDecay ids => ids.length * entityIdLen
  | .edge .. | .publicEdgeWithCreatedAt .. | .edgeWithCreatedAt .. | .setEdgeWeight ..
  | .setEdgeVad .. | .delete .. | .deleteEdge .. => 0

/-- The bytes an entry spends of the room's budget: none for a birth facet or a media vector. -/
def JournalEntry.byteSize [EntryLayout] (entry : JournalEntry) : ℕ :=
  match entry.op with
  | .edge _ .facetOf _ _ _ | .mediaVector .. => 0
  | op => EntryLayout.journalEntry - EntryLayout.sourceRun + batchOpPayloadBytes op

/-- The ops `stage_journal_entry` takes. -/
def BatchOp.isStageable : BatchOp → Bool
  | .put .. | .edge .. | .text .. | .vector .. | .mediaVector .. | .delete .. => true
  | _ => false

/-! ## Selecting and replaying -/

/-- The entity a replayed op writes. -/
def replayedSubject : BatchOp → Option EntityId
  | .put id .. | .text id .. | .vector id .. | .mediaVector _ id .. => some id
  | .edge src .. | .publicEdgeWithCreatedAt src .. | .edgeWithCreatedAt src .. => some src
  | _ => none

/-- The closure-membership predicate a plan is cut by. -/
def journalEntryInClosure (entry : JournalEntry) (turn conversation : EntityId) : Bool :=
  match entry.role with
  | .conversationShell => entry.scope.conversation = conversation
  | .attributionEdge => entry.scope.turn = turn
  | .turnPut | .messagePartOf | .summaryDerivedFrom | .turnOwnedArtifact => entry.scope.turn = turn

/-- One journaled op as the base apply must see it: a put takes the entry's own times, an edge the
timestamped public arm. -/
def promotionReplayOp (entry : JournalEntry) : Except Error BatchOp :=
  match entry.op with
  | .put id entityType _ _ rowVersion data maintenance reserved hubSync =>
    .ok (.put id entityType entry.occurred entry.learnedAt rowVersion data maintenance reserved
      hubSync)
  | .edge src kind tgt weight vad =>
    .ok (.publicEdgeWithCreatedAt src kind tgt weight entry.learnedAt vad)
  | .text id fields => .ok (.text id fields)
  | .vector id vector token => .ok (.vector id vector token)
  | .mediaVector space id textHash vector => .ok (.mediaVector space id textHash vector)
  | .claimCandidate .. | .reconcileLexicalQueryHints .. | .phonetic .. | .publicEdgeWithCreatedAt ..
  | .edgeWithCreatedAt .. | .setEdgeWeight .. | .setEdgeVad .. | .delete .. | .deleteEdge ..
  | .commitmentGapDecay .. =>
    .error (.invariantViolation
      "promotion replay found a journal op the session write path cannot stage")

/-- **Replaying keeps the subject** — what base is given under an id is what the journal held. -/
theorem replayedSubject_promotionReplayOp {entry : JournalEntry} {op : BatchOp}
    (h : promotionReplayOp entry = .ok op) : replayedSubject op = replayedSubject entry.op := by
  cases hop : entry.op <;> simp only [promotionReplayOp, hop] at h <;> cases h <;> rfl

section Keyspace

open Std

/-- Manifest slot of one of the named databases. -/
inductive OverlayKeyspace where
  | entities | typeIndex | shortIds | shortIdsReverse | vaultMeta | vectors | hnswNeighbors
  | hnswMeta | textPostings | textMeta | textForward | textBm25FieldStats | textDocFieldLengths
  | edgesOut | edgesIn | pprCache | pprCacheDeps | temporalOccurredStart | temporalOccurredEnd
  | temporalLearned | temporalLongIntervals | phoneticIndex | phoneticForward | syncState
  | syncQueue | attemptRecords | attemptReady | attemptDedupe
  deriving DecidableEq

namespace OverlayKeyspace

def isDupsort : OverlayKeyspace → Bool
  | textPostings => true
  | _ => false

/-- Every keyspace, in slot order. -/
def all : List OverlayKeyspace :=
  [entities, typeIndex, shortIds, shortIdsReverse, vaultMeta, vectors, hnswNeighbors, hnswMeta,
    textPostings, textMeta, textForward, textBm25FieldStats, textDocFieldLengths, edgesOut, edgesIn,
    pprCache, pprCacheDeps, temporalOccurredStart, temporalOccurredEnd, temporalLearned,
    temporalLongIntervals, phoneticIndex, phoneticForward, syncState, syncQueue, attemptRecords,
    attemptReady, attemptDedupe]

end OverlayKeyspace

/-- A staged row of a single-valued keyspace. -/
inductive OverlayValue where
  | present (bytes : Bytes)
  | tombstone
  deriving DecidableEq

/-- The first sixteen bytes of a value, all of it when shorter. -/
def duplicateIdentity (value : Bytes) : Bytes := value.take 16

/-- What a room stages under one key of a DUP_SORT keyspace. -/
structure DupDelta where
  deleteBase : Bool
  present : OrderedMap Bytes Bytes
  deleted : OrderedSet Bytes
  /-- A present value is filed under its own identity. -/
  filed : ∀ {identity value}, present[identity]? = some value → duplicateIdentity value = identity
  deriving DecidableEq

namespace DupDelta

/-- The delta of a key the room has not touched. -/
def default : DupDelta := ⟨false, ∅, ∅, by simp⟩

def isEmpty (delta : DupDelta) : Bool :=
  delta.present.isEmpty && delta.deleted.isEmpty && !delta.deleteBase

/-- The delta with `value` present under its identity, and no longer deleted. -/
def put (delta : DupDelta) (value : Bytes) : DupDelta where
  deleteBase := delta.deleteBase
  present := delta.present.insert (duplicateIdentity value) value
  deleted := delta.deleted.erase value
  filed {identity old} h := by
    rw [ExtTreeMap.getElem?_insert] at h
    split at h
    · cases h
      exact LawfulEqCmp.eq_of_compare ‹_›
    · exact delta.filed h

/-- The delta without the present value under `identity`. -/
def dropPresent (delta : DupDelta) (identity : Bytes) : DupDelta where
  deleteBase := delta.deleteBase
  present := delta.present.erase identity
  deleted := delta.deleted
  filed {other value} h := by
    rw [ExtTreeMap.getElem?_erase] at h
    split at h
    · cases h
    · exact delta.filed h

/-- The delta without its own copy of `value`. -/
def dropExact (delta : DupDelta) (value : Bytes) : DupDelta :=
  if delta.present[duplicateIdentity value]? = some value then
    delta.dropPresent (duplicateIdentity value)
  else delta

/-- The delta once `value` is deleted from it: its own copy goes, and a copy base shows is hidden.
`backed` is what `base_backed` comes to under a keyspace that did not clear base. -/
def deleteDuplicate (delta : DupDelta) (value : Bytes) (backed : Bool) : DupDelta :=
  if backed && !delta.deleteBase then
    { delta.dropExact value with deleted := delta.deleted.insert value }
  else delta.dropExact value

/-! ### What each step leaves -/

section

variable (delta : DupDelta) (value : Bytes)

variable (backed : Bool) (identity : Bytes)

theorem getElem?_put_present : (delta.put value).present[identity]? =
    if duplicateIdentity value = identity then some value else delta.present[identity]? := by
  simp [put, ExtTreeMap.getElem?_insert]

theorem mem_put_deleted {w : Bytes} :
    w ∈ (delta.put value).deleted ↔ value ≠ w ∧ w ∈ delta.deleted := by
  simp [put]

@[simp] theorem put_deleteBase : (delta.put value).deleteBase = delta.deleteBase := rfl

theorem getElem?_dropExact_present : (delta.dropExact value).present[identity]? =
    if delta.present[identity]? = some value then none else delta.present[identity]? := by
  unfold dropExact
  split
  · rename_i hp
    rw [dropPresent, ExtTreeMap.getElem?_erase]
    by_cases hi : duplicateIdentity value = identity
    · subst hi
      simp [hp]
    · rw [if_neg (by simpa using hi), if_neg fun hv => hi (delta.filed hv)]
  · rename_i hp
    rw [if_neg fun hv => hp (by rw [delta.filed hv]; exact hv)]

@[simp] theorem dropExact_deleteBase : (delta.dropExact value).deleteBase = delta.deleteBase := by
  unfold dropExact
  split <;> rfl

@[simp] theorem dropExact_deleted : (delta.dropExact value).deleted = delta.deleted := by
  unfold dropExact
  split <;> rfl

@[simp] theorem deleteDuplicate_deleteBase :
    (delta.deleteDuplicate value backed).deleteBase = delta.deleteBase := by
  unfold deleteDuplicate
  split <;> simp

theorem getElem?_deleteDuplicate_present : (delta.deleteDuplicate value backed).present[identity]? =
      if delta.present[identity]? = some value then none else delta.present[identity]? := by
  unfold deleteDuplicate
  split <;> exact delta.getElem?_dropExact_present value identity

theorem mem_deleteDuplicate_deleted {w : Bytes} : w ∈ (delta.deleteDuplicate value backed).deleted ↔
      (value = w ∧ backed = true ∧ delta.deleteBase = false) ∨ w ∈ delta.deleted := by
  unfold deleteDuplicate
  split
  · rename_i h
    simp only [and_eq_true, not_eq_true'] at h
    simp [h]
  · rename_i h
    simp only [and_eq_true, not_eq_true'] at h
    simp [h]

theorem eq_default_of_isEmpty {delta : DupDelta} (h : delta.isEmpty = true) :
    delta = .default := by
  obtain ⟨deleteBase, present, deleted, filed⟩ := delta
  simp only [isEmpty, and_eq_true, ExtTreeMap.isEmpty_iff, ExtTreeSet.isEmpty_iff,
    not_eq_true'] at h
  obtain ⟨⟨rfl, rfl⟩, rfl⟩ := h
  rfl

end

end DupDelta

/-- One keyspace's staged rows; the index says whether it keeps duplicates. -/
inductive KeyspaceState : Bool → Type where
  | single (clearBase : Bool) (rows : OrderedMap Bytes OverlayValue) : KeyspaceState false
  | dupSort (clearBase : Bool) (rows : OrderedMap Bytes DupDelta) : KeyspaceState true

namespace KeyspaceState

variable {d : Bool}

/-- `KeyspaceState::empty`, and with `true` `KeyspaceState::cleared`. -/
def fresh (clearBase : Bool) : (d : Bool) → KeyspaceState d
  | false => .single clearBase ∅
  | true => .dupSort clearBase ∅

/-- Whether the room has cleared base from the keyspace. -/
def clearsBase : KeyspaceState d → Bool
  | .single clearBase _ | .dupSort clearBase _ => clearBase

/-- Whether a single-valued keyspace masks a key with a tombstone. -/
def hasTombstone : KeyspaceState d → Bytes → Bool
  | .single _ rows, key => rows[key]? = some .tombstone
  | .dupSort .., _ => false

/-- `dup_delta`: the delta under a key, the default one where there is none. -/
def dupDelta (rows : OrderedMap Bytes DupDelta) (key : Bytes) : DupDelta :=
  rows[key]?.getD .default

def put : KeyspaceState d → Bytes → Bytes → KeyspaceState d
  | .single clearBase rows, key, value => .single clearBase (rows.insert key (.present value))
  | .dupSort clearBase rows, key, value =>
    .dupSort clearBase (rows.insert key ((dupDelta rows key).put value))

/-- A delete masks what base holds; a row base does not back is dropped instead. -/
def delete : KeyspaceState d → Bytes → (baseBacked : Bool) → KeyspaceState d
  | .single clearBase rows, key, baseBacked =>
    match baseBacked && !clearBase, rows[key]? with
    | false, some (.present _) => .single clearBase (rows.erase key)
    | _, _ => .single clearBase (rows.insert key .tombstone)
  | .dupSort clearBase rows, key, _ =>
    .dupSort clearBase (rows.insert key { DupDelta.default with deleteBase := true })

def deleteDuplicate : KeyspaceState d → Bytes → Bytes → (baseBacked : Bool) →
    Except Error (KeyspaceState d)
  | .single .., _, _, _ =>
    .error (.invariantViolation "delete_one_duplicate used on a non-DUP_SORT overlay keyspace")
  | .dupSort clearBase rows, key, value, baseBacked =>
    let delta := (dupDelta rows key).deleteDuplicate value (baseBacked && !clearBase)
    .ok (.dupSort clearBase (if delta.isEmpty then rows.erase key else rows.insert key delta))

theorem dupDelta_insert (rows : OrderedMap Bytes DupDelta) (key k : Bytes)
    (delta : DupDelta) :
    dupDelta (rows.insert key delta) k = if key = k then delta else dupDelta rows k := by
  rw [dupDelta, ExtTreeMap.getElem?_insert]
  by_cases h : key = k <;> simp [h, dupDelta]

/-- An emptied delta reads as the default one, so dropping it changes nothing. -/
theorem dupDelta_erase_or_insert (rows : OrderedMap Bytes DupDelta) (key k : Bytes)
    (delta : DupDelta) :
    dupDelta (if delta.isEmpty then rows.erase key else rows.insert key delta) k =
      if key = k then delta else dupDelta rows k := by
  split
  · rename_i h
    rw [dupDelta, ExtTreeMap.getElem?_erase, DupDelta.eq_default_of_isEmpty h]
    by_cases hk : key = k <;> simp [hk, dupDelta]
  · exact dupDelta_insert ..

end KeyspaceState

/-! ## The whole overlay -/

/-- A published overlay state, or a segment's preview of one. -/
structure OverlayState where
  keyspaces : (keyspace : OverlayKeyspace) → KeyspaceState keyspace.isDupsort
  journal : List PublishedEntry
  /-- How many entries have been published: wrapped to a `u64`, the identity the next one takes. -/
  nextJournalSeq : ℕ
  bytesUsed : ℕ
  /-- The rows held as a write's own bookkeeping, by keyspace. -/
  bookkeeping : OverlayKeyspace → OrderedSet Bytes

variable {other : OverlayKeyspace} {next : OverlayState} {mutation : OverlayMutation}

namespace OverlayState

def empty : OverlayState where
  keyspaces keyspace := .fresh false keyspace.isDupsort
  journal := []
  nextJournalSeq := 0
  bytesUsed := 0
  bookkeeping _ := ∅

/-- The state with one keyspace replaced. -/
def setKeyspace (state : OverlayState) (keyspace : OverlayKeyspace)
    (rows : KeyspaceState keyspace.isDupsort) : OverlayState :=
  { state with keyspaces := Function.update state.keyspaces keyspace rows }

/-- The state with one keyspace's marks replaced. -/
def setMarks (state : OverlayState) (keyspace : OverlayKeyspace) (marks : OrderedSet Bytes) :
    OverlayState :=
  { state with bookkeeping := Function.update state.bookkeeping keyspace marks }

section

variable (state : OverlayState) (keyspace : OverlayKeyspace)
  (rows : KeyspaceState keyspace.isDupsort) (marks : OrderedSet Bytes)

@[simp] theorem setKeyspace_keyspaces_self :
    (state.setKeyspace keyspace rows).keyspaces keyspace = rows := update_self ..

theorem setKeyspace_keyspaces_ne (h : other ≠ keyspace) :
    (state.setKeyspace keyspace rows).keyspaces other = state.keyspaces other :=
  update_of_ne h ..

@[simp] theorem setMarks_keyspaces : (state.setMarks keyspace marks).keyspaces = state.keyspaces :=
  rfl

@[simp] theorem setMarks_bookkeeping_self :
    (state.setMarks keyspace marks).bookkeeping keyspace = marks := update_self ..

theorem setMarks_bookkeeping_ne (h : other ≠ keyspace) :
    (state.setMarks keyspace marks).bookkeeping other = state.bookkeeping other :=
  update_of_ne h ..

end

end OverlayState

/-! ## Byte counts -/

def scopeRecordPrefix : Bytes := ascii "scope:record:v2:"
def provenanceRowBirthPrefix : Bytes := ascii "provenance:row_birth:v1:"
def provenanceBirthByTriggerPrefix : Bytes := ascii "provenance:birth_by_trigger:v1:"
def sessionShortIdOrdinalKey : Bytes := ascii "session_short_id:v0:ordinal"

/-- Whether a row is a room's bookkeeping of a write rather than content it stages. -/
def unbudgetedRow : OverlayKeyspace → Bytes → Bool
  | .vaultMeta, key =>
    [scopeRecordPrefix, provenanceRowBirthPrefix, provenanceBirthByTriggerPrefix,
      sessionShortIdOrdinalKey].any (·.isPrefixOf key)
  | .edgesOut, key | .edgesIn, key => key[16]? = some EdgeKind.facetOf.toByte
  | _, _ => false

/-- The bytes one row of a single-valued keyspace spends. -/
def singleRowBytes (keyspace : OverlayKeyspace) (marked : OrderedSet Bytes) (key : Bytes)
    (value : OverlayValue) : ℕ :=
  if unbudgetedRow keyspace key || marked.contains key then 0 else
    key.length + match value with
      | .present value => value.length
      | .tombstone => 0

/-- The bytes one key of a DUP_SORT keyspace spends. -/
def dupRowBytes (key : Bytes) (delta : DupDelta) : ℕ :=
  key.length + OrderedMap.weigh (fun identity value => identity.length + value.length) delta.present
    + (delta.deleted.toList.map List.length).sum

/-- The bytes a keyspace's rows spend of the room's budget. -/
def KeyspaceState.byteSize {d : Bool} (keyspace : OverlayKeyspace) (marked : OrderedSet Bytes) :
    KeyspaceState d → ℕ
  | .single _ rows => OrderedMap.weigh (singleRowBytes keyspace marked) rows
  | .dupSort _ rows => OrderedMap.weigh dupRowBytes rows

/-- The bytes of every row and journal entry. -/
def OverlayState.measure [EntryLayout] (state : OverlayState) : ℕ :=
  (OverlayKeyspace.all.map fun keyspace =>
    (state.keyspaces keyspace).byteSize keyspace (state.bookkeeping keyspace)).sum +
  (state.journal.map fun published => published.entry.byteSize).sum

def OverlayState.recalculateBytes [EntryLayout] (state : OverlayState) : OverlayState :=
  { state with bytesUsed := state.measure }

@[simp] theorem OverlayState.recalculateBytes_keyspaces [EntryLayout] (state : OverlayState) :
    state.recalculateBytes.keyspaces = state.keyspaces := rfl

/-! ## Mutations -/

inductive OverlayMutation where
  | put (keyspace : OverlayKeyspace) (key value : Bytes)
  | delete (keyspace : OverlayKeyspace) (key : Bytes) (baseBacked : Bool)
  | deleteDuplicate (keyspace : OverlayKeyspace) (key value : Bytes) (baseBacked : Bool)
  | clear (keyspace : OverlayKeyspace)
  /-- Marks `key` as the room's bookkeeping of a write for as long as the room holds it. -/
  | bookkeeping (keyspace : OverlayKeyspace) (key : Bytes)
  deriving DecidableEq

/-- The keyspace a mutation names. -/
def OverlayMutation.keyspace : OverlayMutation → OverlayKeyspace
  | .put keyspace .. | .delete keyspace .. | .deleteDuplicate keyspace .. | .clear keyspace
  | .bookkeeping keyspace _ => keyspace

def applyMutation (state : OverlayState) : OverlayMutation → Except Error OverlayState
  | .clear keyspace =>
    .ok ((state.setMarks keyspace ∅).setKeyspace keyspace (.fresh true keyspace.isDupsort))
  | .bookkeeping keyspace key =>
    if keyspace.isDupsort then
      .error (.invariantViolation "a bookkeeping mark names a DUP_SORT overlay keyspace")
    else .ok (state.setMarks keyspace ((state.bookkeeping keyspace).insert key))
  | .put keyspace key value =>
    .ok (state.setKeyspace keyspace ((state.keyspaces keyspace).put key value))
  | .delete keyspace key baseBacked =>
    -- a mark lives as long as its row
    let state := state.setMarks keyspace ((state.bookkeeping keyspace).erase key)
    .ok (state.setKeyspace keyspace ((state.keyspaces keyspace).delete key baseBacked))
  | .deleteDuplicate keyspace key value baseBacked => do
    let rows ← (state.keyspaces keyspace).deleteDuplicate key value baseBacked
    pure (state.setKeyspace keyspace rows)

/-- A mutation leaves every other keyspace's rows alone. -/
theorem applyMutation_keyspaces_ne {state : OverlayState}
    (h : applyMutation state mutation = .ok next) (hne : other ≠ mutation.keyspace) :
    next.keyspaces other = state.keyspaces other := by
  cases mutation with
  | clear keyspace =>
    cases h
    exact (state.setMarks keyspace ∅).setKeyspace_keyspaces_ne keyspace _ hne
  | bookkeeping keyspace key =>
    simp only [applyMutation] at h
    split at h <;> cases h
    rfl
  | put keyspace key value =>
    cases h
    exact OverlayState.setKeyspace_keyspaces_ne _ _ _ hne
  | delete keyspace key baseBacked =>
    cases h
    exact (state.setMarks keyspace _).setKeyspace_keyspaces_ne keyspace _ hne
  | deleteDuplicate keyspace key value baseBacked =>
    obtain ⟨rows, -, h⟩ := bind_eq_ok.mp h
    cases h
    exact OverlayState.setKeyspace_keyspaces_ne _ _ _ hne

/-- …and the journal with its count. -/
theorem applyMutation_journal {state : OverlayState} (h : applyMutation state mutation = .ok next) :
    next.journal = state.journal ∧ next.nextJournalSeq = state.nextJournalSeq := by
  cases mutation with
  | bookkeeping keyspace key =>
    simp only [applyMutation] at h
    split at h <;> cases h
    exact ⟨rfl, rfl⟩
  | deleteDuplicate keyspace key value baseBacked =>
    obtain ⟨rows, -, h⟩ := bind_eq_ok.mp h
    cases h
    exact ⟨rfl, rfl⟩
  | _ => cases h; exact ⟨rfl, rfl⟩

def projectMutation [EntryLayout] (state : OverlayState) (mutation : OverlayMutation) :
    Except Error OverlayState := do
  let projected ← applyMutation state mutation
  pure projected.recalculateBytes

/-- The keyspace without the `Present` row at `key`; a mask or a duplicate stays. -/
def KeyspaceState.dropRow {d : Bool} : KeyspaceState d → Bytes → KeyspaceState d
  | .single clearBase rows, key =>
    match rows[key]? with
    | some (.present _) => .single clearBase (rows.erase key)
    | _ => .single clearBase rows
  | .dupSort clearBase rows, _ => .dupSort clearBase rows

/-- Removes one `Present` row outright, leaving no base mask. -/
def dropOverlayRow (state : OverlayState) (keyspace : OverlayKeyspace) (key : Bytes) :
    OverlayState :=
  state.setKeyspace keyspace ((state.keyspaces keyspace).dropRow key)

end Keyspace

end Oneiron
