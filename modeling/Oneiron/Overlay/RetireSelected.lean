import Oneiron.Overlay.Accessors
import Oneiron.Overlay.Retire

/-!
# Overlay/RetireSelected — retiring a saved set that is no turn closure

A row goes only while the overlay still holds the bytes the snapshot captured, so that what the room
restaged since stays.  Every key comes from the snapshot: its journal, its staged headers, its edge,
alias, birth, head, pin and document rows.
-/

open Std

namespace Oneiron

/-! ## Prefixes and key lengths -/

def noteHeadPrefix : Bytes := ascii "note_head:v1:"
def indexSourceTextPrefix : Bytes := ascii "index_source:text:v1:"
def noteHeadDocPrefix : Bytes := ascii "note_head_doc:v1:"
def notePinSourcePrefix : Bytes := ascii "note.pin/source/"
def notePinClaimPrefix : Bytes := ascii "note.pin/claim/"
def notePinCitingPrefix : Bytes := ascii "note.pin/citing/"
def documentSnapshotPrefix : Bytes := ascii "d:e:"
def documentStateVectorPrefix : Bytes := ascii "sv:e:"
def documentShallowSincePrefix : Bytes := ascii "ssv:e:"
def documentUpdatePrefix : Bytes := ascii "u:e:"
def documentUpdateSeqPrefix : Bytes := ascii "m:u_seq:e:"

def slotHexLen : ℕ := 32
def pinHashHexLen : ℕ := 64

/-- `:`. -/
def colon : UInt8 := 58

/-! ## Dropping what the snapshot captured -/

/-- `strip_prefix`. -/
def stripPrefix (start key : Bytes) : Option Bytes :=
  if start.isPrefixOf key then some (key.drop start.length) else none

/-- The keys a single-valued keyspace stages a value under. -/
def KeyspaceState.presentKeys {d : Bool} : KeyspaceState d → List Bytes
  | .single _ rows => (rows.toList.filter fun row => row.2 ≠ .tombstone).map Prod.fst
  | .dupSort .. => []

/-- Whether both states stage the same bytes under a key. -/
def stagesSame (snap next : OverlayState) (keyspace : OverlayKeyspace) (key : Bytes) : Bool :=
  match (snap.keyspaces keyspace).present key with
  | some want => (next.keyspaces keyspace).present key = some want
  | none => false

def dropSnapshotMatched (snap next : OverlayState) (keyspace : OverlayKeyspace) (key : Bytes) :
    OverlayState :=
  if stagesSame snap next keyspace key then dropOverlayRow next keyspace key else next

def dropMatchedRows (snap next : OverlayState) (rows : List (OverlayKeyspace × Bytes)) :
    OverlayState :=
  rows.foldl (fun next row => dropSnapshotMatched snap next row.1 row.2) next

/-- One present duplicate, never a base duplicate or a mask. -/
def KeyspaceState.dropPosting {d : Bool} : KeyspaceState d → (term id want : Bytes) →
    KeyspaceState d
  | .single clearBase rows, _, _, _ => .single clearBase rows
  | .dupSort clearBase rows, term, id, want =>
    match rows[term]? with
    | none => .dupSort clearBase rows
    | some delta =>
      if delta.present[id]? ≠ some want then .dupSort clearBase rows else
        let delta := delta.dropPresent id
        .dupSort clearBase (if delta.isEmpty then rows.erase term else rows.insert term delta)

def dropTextPosting (next : OverlayState) (term id want : Bytes) : OverlayState :=
  next.setKeyspace .textPostings ((next.keyspaces .textPostings).dropPosting term id want)

/-- The postings a state stages for one entity, by term. -/
def stagedPostings (snap : OverlayState) (id : Bytes) : List KvPair :=
  match snap.keyspaces .textPostings with
  | .dupSort _ rows => rows.toList.filterMap fun row => row.2.present[id]?.map (row.1, ·)

/-- The captured text revision, whole or not at all. -/
def dropTextFootprint (snap next : OverlayState) (id : EntityId) : OverlayState :=
  let key := id.asBytes
  let sourceKey := indexSourceTextPrefix ++ key
  if stagesSame snap next .textForward key && stagesSame snap next .vaultMeta sourceKey then
    let next := (stagedPostings snap key).foldl
      (fun next row => dropTextPosting next row.1 key row.2) next
    dropMatchedRows snap next [(.textForward, key), (.textDocFieldLengths, key), (.textMeta, key),
      (.vaultMeta, sourceKey)]
  else next

/-- The in-room alias pair, by the snapshot's own reverse row. -/
def dropShortIdPair (snap next : OverlayState) (id : EntityId) : OverlayState :=
  match (snap.keyspaces .shortIdsReverse).present id.asBytes with
  | some forwardKey =>
    dropMatchedRows snap next [(.shortIds, forwardKey), (.shortIdsReverse, id.asBytes)]
  | none => next

/-! ## Keys the snapshot owns -/

/-- Whether a key segment names one of `saved`. -/
def namesSaved (saved : OrderedSet EntityId) (segment : Bytes) : Bool :=
  (EntityId.fromBytes segment).any saved.contains

/-- The edge rows whose source is saved, in both directions. -/
def stagedEdges (snap : OverlayState) (saved : OrderedSet EntityId) :
    List (OverlayKeyspace × Bytes) :=
  [((.edgesOut : OverlayKeyspace), 0), (.edgesIn, entityIdLen + 1)].flatMap fun (keyspace, srcAt) =>
    ((snap.keyspaces keyspace).presentKeys.filter fun key =>
      key.length = 2 * entityIdLen + 1 && namesSaved saved ((key.drop srcAt).take entityIdLen)).map
      (keyspace, ·)

/-- The `prefix + id16 + id16` rows whose segment at `idAt` is saved. -/
def prefixedRows (snap : OverlayState) (keyspace : OverlayKeyspace) (start : Bytes) (idAt : ℕ)
    (saved : OrderedSet EntityId) : List (OverlayKeyspace × Bytes) :=
  ((snap.keyspaces keyspace).presentKeys.filter fun key =>
    (stripPrefix start key).any fun rest =>
      rest.length = 2 * entityIdLen && namesSaved saved ((rest.drop idAt).take entityIdLen)).map
    (keyspace, ·)

/-- The pin rows of one table whose citing document is saved. -/
def pinRows (snap : OverlayState) (start : Bytes) (citingFirst : Bool)
    (saved : OrderedSet EntityId) : List (OverlayKeyspace × Bytes) :=
  ((snap.keyspaces .vaultMeta).presentKeys.filter fun key =>
    (stripPrefix start key).any fun rest =>
      rest.length = slotHexLen + 1 + slotHexLen + 1 + pinHashHexLen &&
      rest[slotHexLen]? = some colon && rest[2 * slotHexLen + 1]? = some colon &&
      let citing := if citingFirst then rest.take slotHexLen
        else (rest.drop (slotHexLen + 1)).take slotHexLen
      (EntityId.parseHexId citing).any saved.contains).map (.vaultMeta, ·)

/-- One slot's snapshot, state vector, shallow-since and counter rows, and every pending update of a
slot. -/
def documentSlotRows (snap : OverlayState) (slots : OrderedSet EntityId) :
    List (OverlayKeyspace × Bytes) :=
  (slots.toList.flatMap fun slot =>
    [documentSnapshotPrefix, documentStateVectorPrefix, documentShallowSincePrefix,
      documentUpdateSeqPrefix].map fun start => (.syncState, start ++ slot.toHex)) ++
  ((snap.keyspaces .syncState).presentKeys.filter fun key =>
    (stripPrefix documentUpdatePrefix key).any fun rest =>
      (rest.length = slotHexLen + 1 + 8 || rest.length = slotHexLen + 1 + 20) &&
      rest[slotHexLen]? = some colon &&
      (EntityId.parseHexId (rest.take slotHexLen)).any slots.contains).map (.syncState, ·)

/-! ## The retirement -/

/-- The rows a journaled op retires with its entry. -/
def journaledFootprint : BatchOp → List (OverlayKeyspace × Bytes)
  | .put id entityType occurred learnedAt _ _ _ _ _ =>
    putFootprint id entityType occurred.start occurred.stop learnedAt
  | .edge src kind tgt _ _ | .publicEdgeWithCreatedAt src kind tgt _ _ _
  | .edgeWithCreatedAt src kind tgt _ _ _ => edgeFootprint src kind tgt
  | _ => []

/-- The footprint the snapshot's own staged header derives. -/
def headerFootprint (snap : OverlayState) (id : EntityId) : List (OverlayKeyspace × Bytes) :=
  match ((snap.keyspaces .entities).present id.asBytes).bind EntityMetadataHeader.parse with
  | some header => putFootprint id header.entityType header.occurredStart header.occurredEnd
      header.learnedAt
  | none => []

/-- What goes for one saved entity, journaled or not. -/
def dropSaved (snap next : OverlayState) (id : EntityId) : OverlayState :=
  let next := dropMatchedRows snap next ((.entities, id.asBytes) :: headerFootprint snap id)
  let next := dropTextFootprint snap next id
  let next := dropShortIdPair snap next id
  dropMatchedRows snap next
    ([provenanceRowBirthPrefix, scopeRecordPrefix, noteHeadPrefix].map fun start =>
      (.vaultMeta, start ++ id.asBytes))

/-- The snapshot's entries of saved subjects. -/
def savedEntries (snap : OverlayState) (saved : OrderedSet EntityId) : List PublishedEntry :=
  snap.journal.filter fun published => (replayedSubject published.entry.op).any saved.contains

def OverlayState.retireSaved [EntryLayout] (state snap : OverlayState)
    (saved documentSlots : OrderedSet EntityId) : OverlayState :=
  let entries := savedEntries snap saved
  let next := entries.foldl
    (fun next published => dropMatchedRows snap next (journaledFootprint published.entry.op)) state
  let next := saved.toList.foldl (dropSaved snap) next
  let next := dropMatchedRows snap next (stagedEdges snap saved)
  let next := dropMatchedRows snap next
    (prefixedRows snap .vaultMeta provenanceBirthByTriggerPrefix entityIdLen saved)
  let next := dropMatchedRows snap next (prefixedRows snap .vaultMeta noteHeadDocPrefix 0 saved)
  let next := dropMatchedRows snap next (pinRows snap notePinSourcePrefix false saved)
  let next := dropMatchedRows snap next (pinRows snap notePinClaimPrefix false saved)
  let next := dropMatchedRows snap next (pinRows snap notePinCitingPrefix true saved)
  let next := dropMatchedRows snap next (documentSlotRows snap documentSlots)
  next.retainJournal (entries.map PublishedEntry.seq)

/-- `retire_saved_artifacts` on a live overlay, with a snapshot of its own. -/
def SessionOverlay.retireSavedArtifacts [EntryLayout] (overlay : SessionOverlay)
    (snapshot : OverlaySnapshot) (saved documentSlots : OrderedSet EntityId) : SessionOverlay :=
  { overlay with state := overlay.state.retireSaved snapshot.state saved documentSlots }

/-! ## It thins the overlay -/

theorem KeyspaceState.Thins.dropPosting {d : Bool} : ∀ (rows : KeyspaceState d)
    (term id want : Bytes), rows.Thins (rows.dropPosting term id want)
  | .single .., _, _, _ => refl _
  | .dupSort clearBase rows, term, id, want => by
    unfold KeyspaceState.dropPosting
    dsimp only
    split
    · exact refl _
    · rename_i delta hdelta
      split
      · exact refl _
      · have hread : dupDelta rows term = delta := by simp [dupDelta, hdelta]
        refine ⟨rfl, fun key hkey => ?_, fun key => ?_⟩
        · split at hkey
          · exact (ExtTreeMap.mem_erase.mp hkey).2
          · rcases ExtTreeMap.mem_insert.mp hkey with heq | hkey
            · rw [← LawfulEqCmp.eq_of_compare heq]
              exact ExtTreeMap.mem_iff_isSome_getElem?.mpr (by simp [hdelta])
            · exact hkey
        · rw [dupDelta_erase_or_insert]
          split
          · rename_i heq
            subst heq
            rw [hread]
            refine ⟨rfl, rfl, fun {identity value} hv => ?_⟩
            simp only [DupDelta.dropPresent, ExtTreeMap.getElem?_erase] at hv
            split at hv
            · cases hv
            · exact hv
          · exact .refl _

namespace OverlayState.Thins

variable (snap : OverlayState)

variable (next : OverlayState) (id : EntityId)

theorem dropSnapshotMatched (keyspace : OverlayKeyspace) (key : Bytes) :
    next.Thins (dropSnapshotMatched snap next keyspace key) := by
  unfold Oneiron.dropSnapshotMatched
  split
  · exact dropOverlayRow next keyspace key
  · exact refl next

theorem dropMatchedRows (next : OverlayState) (rows : List (OverlayKeyspace × Bytes)) :
    next.Thins (dropMatchedRows snap next rows) := by
  exact foldl (fun next row => dropSnapshotMatched snap next _ _) rows next

theorem dropTextFootprint : next.Thins (dropTextFootprint snap next id) := by
  unfold Oneiron.dropTextFootprint
  dsimp only
  split
  · exact (foldl (f := fun next row => dropTextPosting next row.1 id.asBytes row.2)
      (fun next row => setKeyspace next (.dropPosting _ row.1 id.asBytes row.2))
      (stagedPostings snap id.asBytes) next).trans (dropMatchedRows snap _ _)
  · exact refl next

theorem dropShortIdPair : next.Thins (dropShortIdPair snap next id) := by
  unfold Oneiron.dropShortIdPair
  split
  · exact dropMatchedRows snap next _
  · exact refl next

theorem dropSaved : next.Thins (dropSaved snap next id) :=
  (((dropMatchedRows snap next _).trans (dropTextFootprint snap _ id)).trans
    (dropShortIdPair snap _ id)).trans (dropMatchedRows snap _ _)

/-- **Retiring a saved set thins the overlay.** -/
theorem retireSaved [EntryLayout] (state : OverlayState) (saved documentSlots : OrderedSet EntityId) :
    state.Thins (state.retireSaved snap saved documentSlots) := by
  refine trans ?_ (retainJournal _ _)
  refine trans ?_ (dropMatchedRows snap _ _)
  refine trans ?_ (dropMatchedRows snap _ _)
  refine trans ?_ (dropMatchedRows snap _ _)
  refine trans ?_ (dropMatchedRows snap _ _)
  refine trans ?_ (dropMatchedRows snap _ _)
  refine trans ?_ (dropMatchedRows snap _ _)
  refine trans ?_ (dropMatchedRows snap _ _)
  exact (foldl
    (fun next published => dropMatchedRows snap next _) (savedEntries snap saved) state).trans
    (foldl (dropSaved snap) _ _)

end OverlayState.Thins

end Oneiron
