import Oneiron.Overlay.Promotion

/-!
# Overlay/SelectedRetirement — what retiring a saved set takes out, and what it leaves

Every key comes from the snapshot alone, so a retirement is a fold of steps fixed beforehand
(`retireSaved_eq_steps`).  A step takes out a row the snapshot staged alike and a saved id owns
(`Takes`), and a step that has nothing to take out stays so (`Spent`).
-/

open Std

namespace Oneiron

open Std.ExtTreeMap List Option OverlayState

/-! ## The retirement as steps -/

/-- A row to take out, or an entity's captured text. -/
inductive DropStep where
  | row (staged : OverlayKeyspace × Bytes)
  | text (id : EntityId)

namespace DropStep

def apply (snap next : OverlayState) : DropStep → OverlayState
  | .row staged => dropSnapshotMatched snap next staged.1 staged.2
  | .text id => dropTextFootprint snap next id

end DropStep

/-- The rows whose keys name a saved id or slot somewhere inside. -/
def stagedRows (snap : OverlayState) (saved documentSlots : OrderedSet EntityId) :
    List (OverlayKeyspace × Bytes) :=
  stagedEdges snap saved ++
    prefixedRows snap .vaultMeta provenanceBirthByTriggerPrefix entityIdLen saved ++
    prefixedRows snap .vaultMeta noteHeadDocPrefix 0 saved ++
    pinRows snap notePinSourcePrefix false saved ++ pinRows snap notePinClaimPrefix false saved ++
    pinRows snap notePinCitingPrefix true saved ++ documentSlotRows snap documentSlots

/-- The rows a saved entity's own id keys in `vault_meta`. -/
def recordRows (id : EntityId) : List (OverlayKeyspace × Bytes) :=
  [provenanceRowBirthPrefix, scopeRecordPrefix, noteHeadPrefix].map fun start =>
    (.vaultMeta, start ++ id.asBytes)

/-- The steps for one saved entity. -/
def savedSteps (snap : OverlayState) (id : EntityId) : List DropStep :=
  ((.entities, id.asBytes) :: headerFootprint snap id).map .row ++ .text id ::
    (aliasPair snap id ++ recordRows id).map .row

/-- Everything a retirement does to the rows. -/
def retireSteps (snap : OverlayState) (saved documentSlots : OrderedSet EntityId) :
    List DropStep :=
  ((savedEntries snap saved).flatMap fun published =>
      journaledFootprint published.entry.op).map .row ++
    saved.toList.flatMap (savedSteps snap) ++ (stagedRows snap saved documentSlots).map .row

variable {snap state next : OverlayState} {saved documentSlots : OrderedSet EntityId}

theorem dropMatchedRows_eq_steps (snap next : OverlayState)
    (rows : List (OverlayKeyspace × Bytes)) : dropMatchedRows snap next rows =
      (rows.map DropStep.row).foldl (DropStep.apply snap) next := by
  rw [foldl_map, dropMatchedRows]
  rfl

theorem dropSaved_eq_steps (snap next : OverlayState) (id : EntityId) :
    dropSaved snap next id = (savedSteps snap id).foldl (DropStep.apply snap) next := by
  have halias (next : OverlayState) : dropShortIdPair snap next id =
      ((aliasPair snap id).map DropStep.row).foldl (DropStep.apply snap) next := by
    unfold dropShortIdPair aliasPair present
    cases (snap.keyspaces .shortIdsReverse).present id.asBytes with
    | none => rfl
    | some forwardKey => exact dropMatchedRows_eq_steps snap next _
  unfold dropSaved savedSteps
  rw [foldl_append, foldl_cons, map_append, foldl_append,
    dropMatchedRows_eq_steps, dropMatchedRows_eq_steps, halias]
  rfl

/-- **A retirement is a fold of steps the snapshot fixes.** -/
theorem retireSaved_eq_steps [EntryLayout] (state snap : OverlayState)
    (saved documentSlots : OrderedSet EntityId) : state.retireSaved snap saved documentSlots =
      ((retireSteps snap saved documentSlots).foldl (DropStep.apply snap) state).retainJournal
        ((savedEntries snap saved).map PublishedEntry.seq) := by
  have hentries : ∀ (entries : List PublishedEntry) (next : OverlayState),
      entries.foldl (fun next published =>
        dropMatchedRows snap next (journaledFootprint published.entry.op)) next =
      ((entries.flatMap fun published => journaledFootprint published.entry.op).map
        DropStep.row).foldl (DropStep.apply snap) next := by
    intro entries
    induction entries with
    | nil => exact fun _ => rfl
    | cons published rest ih =>
      intro next
      rw [foldl_cons, ih, dropMatchedRows_eq_steps, flatMap_cons, map_append,
        foldl_append]
  have hsaved : ∀ (ids : List EntityId) (next : OverlayState), ids.foldl (dropSaved snap) next =
      (ids.flatMap (savedSteps snap)).foldl (DropStep.apply snap) next := by
    intro ids
    induction ids with
    | nil => exact fun _ => rfl
    | cons id rest ih =>
      intro next
      rw [foldl_cons, ih, dropSaved_eq_steps, flatMap_cons, foldl_append]
  unfold retireSaved retireSteps stagedRows
  dsimp only
  rw [hentries, hsaved]
  simp only [dropMatchedRows_eq_steps, map_append, foldl_append]

/-! ## Whose row it is -/

/-- A row outside the text index that a saved id or a named slot owns. -/
inductive OwnedRow (snap : OverlayState) (saved documentSlots : OrderedSet EntityId) :
    OverlayKeyspace → Bytes → Prop
  | entity {id : EntityId} : id ∈ saved → OwnedRow snap saved documentSlots .entities id.asBytes
  | type {id : EntityId} (entityType : UInt8) : id ∈ saved →
      OwnedRow snap saved documentSlots .typeIndex (encodeTypeKey entityType id)
  | time {id : EntityId} {keyspace : OverlayKeyspace} (ts : UInt64) : id ∈ saved →
      keyspace ∈ [.temporalOccurredStart, .temporalOccurredEnd, .temporalLearned,
        .temporalLongIntervals] →
      OwnedRow snap saved documentSlots keyspace (encodeTemporalKey ts id)
  | edgeOut {id : EntityId} {rest : Bytes} : id ∈ saved → rest.length = entityIdLen + 1 →
      OwnedRow snap saved documentSlots .edgesOut (id.asBytes ++ rest)
  | edgeIn {id : EntityId} {rest : Bytes} : id ∈ saved → rest.length = entityIdLen + 1 →
      OwnedRow snap saved documentSlots .edgesIn (rest ++ id.asBytes)
  | aliasOf {id : EntityId} {forwardKey : Bytes} : id ∈ saved →
      snap.present .shortIdsReverse id.asBytes = some forwardKey →
      OwnedRow snap saved documentSlots .shortIds forwardKey
  | aliasBack {id : EntityId} : id ∈ saved →
      OwnedRow snap saved documentSlots .shortIdsReverse id.asBytes
  | record {id : EntityId} {start : Bytes} : id ∈ saved →
      start ∈ [provenanceRowBirthPrefix, scopeRecordPrefix, noteHeadPrefix] →
      OwnedRow snap saved documentSlots .vaultMeta (start ++ id.asBytes)
  | birth {id : EntityId} {trigger : Bytes} : id ∈ saved → trigger.length = entityIdLen →
      OwnedRow snap saved documentSlots .vaultMeta
        (provenanceBirthByTriggerPrefix ++ (trigger ++ id.asBytes))
  | headDoc {id : EntityId} {head : Bytes} : id ∈ saved → head.length = entityIdLen →
      OwnedRow snap saved documentSlots .vaultMeta (noteHeadDocPrefix ++ (id.asBytes ++ head))
  | pin {id : EntityId} {start cited hash : Bytes} : id ∈ saved →
      start ∈ [notePinSourcePrefix, notePinClaimPrefix] → cited.length = slotHexLen →
      hash.length = pinHashHexLen → OwnedRow snap saved documentSlots .vaultMeta
        (start ++ (cited ++ colon :: (id.toHex ++ colon :: hash)))
  | pinCiting {id : EntityId} {cited hash : Bytes} : id ∈ saved → cited.length = slotHexLen →
      hash.length = pinHashHexLen → OwnedRow snap saved documentSlots .vaultMeta
        (notePinCitingPrefix ++ (id.toHex ++ colon :: (cited ++ colon :: hash)))
  | document {slot : EntityId} {start : Bytes} : slot ∈ documentSlots →
      start ∈ [documentSnapshotPrefix, documentStateVectorPrefix, documentShallowSincePrefix,
        documentUpdateSeqPrefix] →
      OwnedRow snap saved documentSlots .syncState (start ++ slot.toHex)
  | update {slot : EntityId} {seq : Bytes} : slot ∈ documentSlots →
      seq.length = 8 ∨ seq.length = 20 → OwnedRow snap saved documentSlots .syncState
        (documentUpdatePrefix ++ (slot.toHex ++ colon :: seq))

/-! ### Reading an owner out of a key -/

variable {start term identity key value : Bytes} {d : Bool} {a b c : OverlayState} {id : EntityId}
  {step : DropStep} {keyspace : OverlayKeyspace} {gone : Bytes → Bytes → Prop}
  {dropped : Bytes → Bytes → Bytes → Prop}

theorem EntityId.asBytes_of_fromBytes {bytes : Bytes} (h : EntityId.fromBytes bytes = some id) :
    id.asBytes = bytes := by
  unfold EntityId.fromBytes at h
  split at h
  · split at h <;> cases h
    rfl
  · cases h

theorem EntityId.toHex_of_parseHexId {hex : Bytes} (h : EntityId.parseHexId hex = some id) :
    id.toHex = hex := by
  rw [EntityId.parseHexId, filter_eq_some_iff] at h
  simpa using h.2

theorem namesSaved_iff {segment : Bytes} (h : namesSaved saved segment = true) :
    ∃ id ∈ saved, id.asBytes = segment := by
  obtain ⟨id, hid, hmem⟩ := (Option.any_eq_true _ _).mp h
  exact ⟨id, ExtTreeSet.contains_iff_mem.mp hmem, EntityId.asBytes_of_fromBytes hid⟩

theorem stripPrefix_eq_some {rest : Bytes} :
    stripPrefix start key = some rest ↔ key = start ++ rest := by
  unfold stripPrefix
  constructor
  · intro h
    split at h
    · rename_i hstart
      obtain ⟨tail, rfl⟩ := isPrefixOf_iff_prefix.mp hstart
      simpa using (some.inj h)
    · cases h
  · rintro rfl
    simp

/-- A list around one of its entries. -/
theorem eq_take_append_cons {l : Bytes} {n : ℕ} {c : UInt8} (h : l[n]? = some c) :
    l = l.take n ++ c :: l.drop (n + 1) := by
  obtain ⟨hn, rfl⟩ := List.getElem?_eq_some_iff.mp h
  rw [cons_getElem_drop_succ, take_append_drop]

variable {row : OverlayKeyspace × Bytes}

theorem owned_putFootprint (hid : id ∈ saved) {entityType : UInt8} {start stop learnedAt : UInt64}
    (h : row ∈ putFootprint id entityType start stop learnedAt) :
    OwnedRow snap saved documentSlots row.1 row.2 := by
  unfold putFootprint at h
  simp only [mem_append, mem_cons, not_mem_nil, or_false] at h
  rcases h with (((rfl | rfl | rfl) | h) | rfl) | h
  · exact .entity hid
  · exact .type _ hid
  · exact .time _ hid (by simp)
  · split at h
    · obtain rfl := mem_singleton.mp h
      exact .time _ hid (by simp)
    · cases h
  · exact .time _ hid (by simp)
  · split at h
    · obtain rfl := mem_singleton.mp h
      exact .time _ hid (by simp)
    · cases h

theorem owned_edgeFootprint {src tgt : EntityId} (hsrc : src ∈ saved) {kind : EdgeKind}
    (h : row ∈ edgeFootprint src kind tgt) : OwnedRow snap saved documentSlots row.1 row.2 := by
  simp only [edgeFootprint, mem_cons, not_mem_nil, or_false] at h
  rcases h with rfl | rfl
  · exact .edgeOut hsrc (by simp [entityIdLen])
  · have hkey : encodeEdgeKey tgt kind src = (tgt.asBytes ++ [kind.toByte]) ++ src.asBytes := by
      simp [encodeEdgeKey]
    rw [hkey]
    exact .edgeIn hsrc (by simp [entityIdLen])

/-- A journaled op of a saved subject writes rows its subject owns. -/
theorem owned_journaledFootprint {op : BatchOp} (hop : (replayedSubject op).any saved.contains)
    (h : row ∈ journaledFootprint op) : OwnedRow snap saved documentSlots row.1 row.2 := by
  have hsubject : ∀ {id : EntityId}, replayedSubject op = some id → id ∈ saved := fun hid => by
    rw [hid] at hop
    exact ExtTreeSet.contains_iff_mem.mp hop
  cases op <;> simp only [journaledFootprint, not_mem_nil] at h
  · exact owned_putFootprint (hsubject rfl) h
  · exact owned_edgeFootprint (hsubject rfl) h
  · exact owned_edgeFootprint (hsubject rfl) h
  · exact owned_edgeFootprint (hsubject rfl) h

theorem owned_stagedEdges (h : row ∈ stagedEdges snap saved) :
    OwnedRow snap saved documentSlots row.1 row.2 := by
  simp only [stagedEdges, flatMap_cons, flatMap_nil, append_nil, mem_append,
    List.mem_map, List.mem_filter, Bool.and_eq_true, decide_eq_true_eq] at h
  rcases h with ⟨key, ⟨-, hlen, hsrc⟩, rfl⟩ | ⟨key, ⟨-, hlen, hsrc⟩, rfl⟩
  · obtain ⟨id, hid, hbytes⟩ := namesSaved_iff hsrc
    have hkey : key = id.asBytes ++ key.drop entityIdLen := by
      rw [hbytes, drop_zero, take_append_drop]
    rw [hkey]
    exact .edgeOut hid (by rw [length_drop, hlen, entityIdLen])
  · obtain ⟨id, hid, hbytes⟩ := namesSaved_iff hsrc
    rw [take_of_length_le (by rw [length_drop, hlen, entityIdLen])] at hbytes
    have hkey : key = key.take (entityIdLen + 1) ++ id.asBytes := by
      rw [hbytes, take_append_drop]
    rw [hkey]
    exact .edgeIn hid (by rw [length_take, hlen, entityIdLen]; rfl)

theorem owned_births
    (h : row ∈ prefixedRows snap .vaultMeta provenanceBirthByTriggerPrefix entityIdLen saved) :
    OwnedRow snap saved documentSlots row.1 row.2 := by
  simp only [prefixedRows, List.mem_map, List.mem_filter, Option.any_eq_true, Bool.and_eq_true,
    decide_eq_true_eq] at h
  obtain ⟨key, ⟨-, rest, hrest, hlen, hborn⟩, rfl⟩ := h
  obtain ⟨id, hid, hbytes⟩ := namesSaved_iff hborn
  rw [take_of_length_le (by rw [length_drop, hlen]; simp [entityIdLen])] at hbytes
  have hkey : rest = rest.take entityIdLen ++ id.asBytes := by rw [hbytes, take_append_drop]
  rw [stripPrefix_eq_some.mp hrest, hkey]
  exact .birth hid (by rw [length_take, hlen, entityIdLen]; rfl)

theorem owned_headDocs (h : row ∈ prefixedRows snap .vaultMeta noteHeadDocPrefix 0 saved) :
    OwnedRow snap saved documentSlots row.1 row.2 := by
  simp only [prefixedRows, List.mem_map, List.mem_filter, Option.any_eq_true, Bool.and_eq_true,
    decide_eq_true_eq] at h
  obtain ⟨key, ⟨-, rest, hrest, hlen, hnote⟩, rfl⟩ := h
  obtain ⟨id, hid, hbytes⟩ := namesSaved_iff hnote
  have hkey : rest = id.asBytes ++ rest.drop entityIdLen := by
    rw [hbytes, drop_zero, take_append_drop]
  rw [stripPrefix_eq_some.mp hrest, hkey]
  exact .headDoc hid (by rw [length_drop, hlen, entityIdLen])

/-- A pin's key is two ids and a hash, the citing document's where `citingFirst` says. -/
theorem mem_pinRows {citingFirst : Bool} (h : row ∈ pinRows snap start citingFirst saved) :
    ∃ id ∈ saved, ∃ cited hash : Bytes,
      cited.length = slotHexLen ∧ hash.length = pinHashHexLen ∧ row = (.vaultMeta, start ++
        if citingFirst then id.toHex ++ colon :: (cited ++ colon :: hash)
        else cited ++ colon :: (id.toHex ++ colon :: hash)) := by
  simp only [pinRows, List.mem_map, List.mem_filter, Option.any_eq_true, Bool.and_eq_true,
    decide_eq_true_eq] at h
  obtain ⟨key, ⟨-, rest, hrest, ⟨⟨hlen, hfirst⟩, hsecond⟩, id, hid, hmem⟩, rfl⟩ := h
  have hhex := EntityId.toHex_of_parseHexId hid
  have hdrop : (rest.drop (slotHexLen + 1))[slotHexLen]? = some colon := by
    rw [getElem?_drop]
    exact hsecond
  have hkey := eq_take_append_cons hfirst
  rw [eq_take_append_cons hdrop, drop_drop] at hkey
  rw [stripPrefix_eq_some.mp hrest]
  cases citingFirst with
  | true =>
    refine ⟨id, hmem, (rest.drop (slotHexLen + 1)).take slotHexLen, rest.drop 66, ?_, ?_, ?_⟩
    · rw [length_take, length_drop, hlen]
      rfl
    · rw [length_drop, hlen]
      rfl
    · rw [if_pos rfl, hhex, if_pos rfl]
      exact congrArg (fun key => ((.vaultMeta : OverlayKeyspace), start ++ key)) hkey
  | false =>
    refine ⟨id, hmem, rest.take slotHexLen, rest.drop 66, ?_, ?_, ?_⟩
    · rw [length_take, hlen]
      rfl
    · rw [length_drop, hlen]
      rfl
    · rw [if_neg Bool.false_ne_true, hhex, if_neg Bool.false_ne_true]
      exact congrArg (fun key => ((.vaultMeta : OverlayKeyspace), start ++ key)) hkey

theorem owned_documentSlots (h : row ∈ documentSlotRows snap documentSlots) :
    OwnedRow snap saved documentSlots row.1 row.2 := by
  rcases mem_append.mp h with h | h
  · simp only [mem_flatMap, List.mem_map] at h
    obtain ⟨slot, hslot, start, hstart, rfl⟩ := h
    exact .document (ExtTreeSet.mem_toList.mp hslot) hstart
  · simp only [List.mem_map, List.mem_filter, Option.any_eq_true, Bool.and_eq_true, Bool.or_eq_true,
      decide_eq_true_eq] at h
    obtain ⟨key, ⟨-, rest, hrest, ⟨hlen, hcolon⟩, slot, hslot, hmem⟩, rfl⟩ := h
    rw [stripPrefix_eq_some.mp hrest, eq_take_append_cons hcolon,
      ← EntityId.toHex_of_parseHexId hslot]
    refine .update (ExtTreeSet.contains_iff_mem.mp hmem) ?_
    rw [length_drop]
    rcases hlen with hlen | hlen <;> rw [hlen, slotHexLen] <;> simp

/-- A step for a row a saved id or a named slot owns, or for a saved id's text. -/
def DropStep.OwnedBy (snap : OverlayState) (saved documentSlots : OrderedSet EntityId) :
    DropStep → Prop
  | .row staged => OwnedRow snap saved documentSlots staged.1 staged.2
  | .text id => id ∈ saved

/-- **Every step of a retirement has its owner among those it is for.** -/
theorem owned_retireSteps : ∀ step ∈ retireSteps snap saved documentSlots,
    step.OwnedBy snap saved documentSlots := by
  intro step hstep
  rcases mem_append.mp hstep with hstep | hstep
  · rcases mem_append.mp hstep with hstep | hstep
    · obtain ⟨staged, hstaged, rfl⟩ := mem_map.mp hstep
      obtain ⟨published, hpub, hstaged⟩ := mem_flatMap.mp hstaged
      exact owned_journaledFootprint (mem_filter.mp hpub).2 hstaged
    · obtain ⟨id, hid, hstep⟩ := mem_flatMap.mp hstep
      have hid := ExtTreeSet.mem_toList.mp hid
      rcases mem_append.mp hstep with hstep | hstep
      · obtain ⟨staged, hstaged, rfl⟩ := mem_map.mp hstep
        rcases mem_cons.mp hstaged with rfl | hstaged
        · exact .entity hid
        · unfold headerFootprint at hstaged
          split at hstaged
          · exact owned_putFootprint hid hstaged
          · cases hstaged
      · rcases mem_cons.mp hstep with rfl | hstep
        · exact hid
        · obtain ⟨staged, hstaged, rfl⟩ := mem_map.mp hstep
          rcases mem_append.mp hstaged with hstaged | hstaged
          · unfold aliasPair at hstaged
            split at hstaged
            · rename_i forwardKey hforward
              simp only [mem_cons, not_mem_nil, or_false] at hstaged
              rcases hstaged with rfl | rfl
              · exact .aliasOf hid hforward
              · exact .aliasBack hid
            · cases hstaged
          · obtain ⟨start, hstart, rfl⟩ := mem_map.mp hstaged
            exact .record hid hstart
  · obtain ⟨staged, hstaged, rfl⟩ := mem_map.mp hstep
    simp only [stagedRows, mem_append] at hstaged
    rcases hstaged with (((((h | h) | h) | h) | h) | h) | h
    · exact owned_stagedEdges h
    · exact owned_births h
    · exact owned_headDocs h
    · obtain ⟨id, hid, cited, hash, hcited, hhash, rfl⟩ := mem_pinRows h
      exact .pin hid (by simp) hcited hhash
    · obtain ⟨id, hid, cited, hash, hcited, hhash, rfl⟩ := mem_pinRows h
      exact .pin hid (by simp) hcited hhash
    · obtain ⟨id, hid, cited, hash, hcited, hhash, rfl⟩ := mem_pinRows h
      exact .pinCiting hid hcited hhash
    · exact owned_documentSlots h

/-! ## A step that has nothing to take out -/

/-- Whether the text the snapshot captured of an entity is still there to go. -/
def stagesText (snap state : OverlayState) (id : EntityId) : Bool :=
  stagesSame snap state .textForward id.asBytes &&
    stagesSame snap state .vaultMeta (indexSourceTextPrefix ++ id.asBytes)

/-- A step that would take nothing out. -/
def DropStep.Spent (snap state : OverlayState) : DropStep → Prop
  | .row staged => stagesSame snap state staged.1 staged.2 = false
  | .text id => stagesText snap state id = false

theorem stagesSame_iff : stagesSame snap state keyspace key = true ↔
      ∃ value, snap.present keyspace key = some value ∧ state.present keyspace key = some value := by
  unfold stagesSame present
  cases (snap.keyspaces keyspace).present key <;> simp

/-- What no longer matches a thinned state cannot match again. -/
theorem stagesSame_of_thins (h : state.Thins next)
    (hnext : stagesSame snap next keyspace key = true) :
    stagesSame snap state keyspace key = true := by
  obtain ⟨value, hsnap, hvalue⟩ := stagesSame_iff.mp hnext
  exact stagesSame_iff.mpr ⟨value, hsnap, h.present_eq_some hvalue⟩

theorem KeyspaceState.present_dropRow_self (key : Bytes) :
    ∀ rows : KeyspaceState d, (rows.dropRow key).present key = none
  | .dupSort .. => rfl
  | .single clearBase rows => by
    cases hrow : rows[key]? with
    | none => simp [dropRow, hrow, present]
    | some value => cases value <;> simp [dropRow, hrow, present]

theorem present_dropOverlayRow_self (state : OverlayState) (keyspace : OverlayKeyspace)
    (key : Bytes) : (dropOverlayRow state keyspace key).present keyspace key = none := by
  rw [present, dropOverlayRow, setKeyspace_keyspaces_self]
  exact KeyspaceState.present_dropRow_self key _

namespace DropStep

theorem thins (snap next : OverlayState) : ∀ step : DropStep, next.Thins (step.apply snap next)
  | .row staged => .dropSnapshotMatched snap next staged.1 staged.2
  | .text id => .dropTextFootprint snap next id

theorem thins_foldl (snap : OverlayState) (steps : List DropStep) (next : OverlayState) :
    next.Thins (steps.foldl (DropStep.apply snap) next) :=
  .foldl (fun next step => thins snap next step) steps next

theorem Spent.of_thins (h : state.Thins next) (hspent : step.Spent snap state) :
    step.Spent snap next := by
  cases step with
  | row staged =>
    exact Bool.eq_false_iff.mpr fun hnext => Bool.false_ne_true
      (hspent.symm.trans (stagesSame_of_thins h hnext))
  | text id =>
    refine Bool.eq_false_iff.mpr fun hnext => Bool.false_ne_true (hspent.symm.trans ?_)
    obtain ⟨hforward, hsource⟩ := Bool.and_eq_true_iff.mp hnext
    exact Bool.and_eq_true_iff.mpr ⟨stagesSame_of_thins h hforward, stagesSame_of_thins h hsource⟩

theorem apply_of_spent (h : step.Spent snap state) : step.apply snap state = state := by
  cases step with
  | row staged =>
    rw [apply, dropSnapshotMatched, if_neg (Bool.eq_false_iff.mp h)]
  | text id =>
    rw [apply, dropTextFootprint, if_neg]
    exact Bool.eq_false_iff.mp h

theorem foldl_of_spent : ∀ {steps : List DropStep}, (∀ step ∈ steps, step.Spent snap state) →
    steps.foldl (DropStep.apply snap) state = state
  | [], _ => rfl
  | step :: rest, h => by
    rw [foldl_cons, apply_of_spent (h step mem_cons_self)]
    exact foldl_of_spent fun other hother => h other (mem_cons_of_mem _ hother)

theorem spent_row (staged : OverlayKeyspace × Bytes) :
    (DropStep.row staged).Spent snap ((DropStep.row staged).apply snap state) := by
  by_cases hsame : stagesSame snap state staged.1 staged.2 = true
  · refine Bool.eq_false_iff.mpr fun hnext => ?_
    obtain ⟨value, -, hvalue⟩ := stagesSame_iff.mp hnext
    rw [apply, dropSnapshotMatched, if_pos hsame, present_dropOverlayRow_self] at hvalue
    cases hvalue
  · have hspent : (DropStep.row staged).Spent snap state := Bool.eq_false_iff.mpr hsame
    rwa [apply_of_spent hspent]

/-- **A step leaves nothing for itself to take out.** -/
theorem spent_apply (step : DropStep) : step.Spent snap (step.apply snap state) := by
  cases step with
  | row staged => exact spent_row staged
  | text id =>
    by_cases htext : stagesText snap state id = true
    · have hforward : (DropStep.row (.textForward, id.asBytes)).Spent snap
          ((DropStep.text id).apply snap state) := by
        rw [apply, dropTextFootprint, if_pos (by simpa [stagesText] using htext), dropMatchedRows,
          foldl_cons]
        exact (spent_row _).of_thins (.dropMatchedRows snap _ _)
      exact Bool.and_eq_false_iff.mpr (.inl hforward)
    · have hspent : (DropStep.text id).Spent snap state := Bool.eq_false_iff.mpr htext
      rwa [apply_of_spent hspent]

/-- …nor does a run of steps for any of them. -/
theorem spent_foldl : ∀ {steps : List DropStep} {state : OverlayState},
    ∀ step ∈ steps, step.Spent snap (steps.foldl (DropStep.apply snap) state)
  | first :: rest, state, step, hstep => by
    rw [foldl_cons]
    rcases mem_cons.mp hstep with rfl | hstep
    · exact (spent_apply step).of_thins (thins_foldl snap rest _)
    · exact spent_foldl step hstep

end DropStep

/-- **A second retirement changes nothing.** -/
theorem retireSaved_retireSaved [EntryLayout] (state snap : OverlayState)
    (saved documentSlots : OrderedSet EntityId) :
    (state.retireSaved snap saved documentSlots).retireSaved snap saved documentSlots =
      state.retireSaved snap saved documentSlots := by
  rw [retireSaved_eq_steps state, retireSaved_eq_steps, DropStep.foldl_of_spent fun step hstep =>
    (DropStep.spent_foldl step hstep).of_thins (.retainJournal _ _)]
  simp only [retainJournal, recalculateBytes, List.filter_filter,
    Bool.and_self]
  rfl

/-! ## What is taken out -/

/-- The single-valued rows of an entity's text footprint. -/
def textRows (id : EntityId) : List (OverlayKeyspace × Bytes) :=
  [(.textForward, id.asBytes), (.textDocFieldLengths, id.asBytes), (.textMeta, id.asBytes),
    (.vaultMeta, indexSourceTextPrefix ++ id.asBytes)]

/-- A row, or the postings filed under an identity, that a saved id or a named slot owns. -/
def Owned (snap : OverlayState) (saved documentSlots : OrderedSet EntityId)
    (keyspace : OverlayKeyspace) (key : Bytes) : Prop :=
  OwnedRow snap saved documentSlots keyspace key ∨
    ∃ id ∈ saved, (keyspace, key) ∈ (.textPostings, id.asBytes) :: textRows id

namespace KeyspaceState

variable {d : Bool} {gone : Bytes → Bytes → Prop} {dropped : Bytes → Bytes → Bytes → Prop}

/-- The value staged under a key for an identity. -/
def posting : KeyspaceState d → (key identity : Bytes) → Option Bytes
  | .single .., _, _ => none
  | .dupSort _ rows, key, identity => (dupDelta rows key).present[identity]?

/-- Some `Present` rows are gone, each a key and value `gone` names, or a key, identity and value
`dropped` does, and nothing else is changed. -/
def Takes (gone : Bytes → Bytes → Prop) (dropped : Bytes → Bytes → Bytes → Prop) : {d : Bool} →
    KeyspaceState d → KeyspaceState d → Prop
  | _, .single clearBase rows, .single clearBase' rows' => clearBase' = clearBase ∧
      ∀ key : Bytes, rows'[key]? = rows[key]? ∨ (rows'[key]? = none ∧
        ∃ value, rows[key]? = some (OverlayValue.present value) ∧ gone key value)
  | _, .dupSort clearBase rows, .dupSort clearBase' rows' => clearBase' = clearBase ∧
      ∀ key : Bytes, (dupDelta rows' key).deleteBase = (dupDelta rows key).deleteBase ∧
        (dupDelta rows' key).deleted = (dupDelta rows key).deleted ∧ ∀ identity : Bytes,
          (dupDelta rows' key).present[identity]? = (dupDelta rows key).present[identity]? ∨
          ((dupDelta rows' key).present[identity]? = none ∧
            ∃ value, (dupDelta rows key).present[identity]? = some value ∧
              dropped key identity value)

namespace Takes

theorem refl : ∀ rows : KeyspaceState d, Takes gone dropped rows rows
  | .single .. => ⟨rfl, fun _ => .inl rfl⟩
  | .dupSort .. => ⟨rfl, fun _ => ⟨rfl, rfl, fun _ => .inl rfl⟩⟩

theorem trans : ∀ {a b c : KeyspaceState d}, Takes gone dropped a b → Takes gone dropped b c →
    Takes gone dropped a c
  | .single .., .single .., .single .., h, h' => by
    refine ⟨h'.1.trans h.1, fun key => ?_⟩
    rcases h'.2 key with heq | ⟨hnone, value, hv, hgone⟩
    · rw [heq]
      exact h.2 key
    · rcases h.2 key with heq | ⟨hnone', -⟩
      · exact .inr ⟨hnone, value, heq ▸ hv, hgone⟩
      · rw [hnone'] at hv
        cases hv
  | .dupSort .., .dupSort .., .dupSort .., h, h' => by
    refine ⟨h'.1.trans h.1, fun key => ?_⟩
    obtain ⟨hbase, hdeleted, hpresent⟩ := h.2 key
    obtain ⟨hbase', hdeleted', hpresent'⟩ := h'.2 key
    refine ⟨hbase'.trans hbase, hdeleted'.trans hdeleted, fun identity => ?_⟩
    rcases hpresent' identity with heq | ⟨hnone, value, hv, hdropped⟩
    · rw [heq]
      exact hpresent identity
    · rcases hpresent identity with heq | ⟨hnone', -⟩
      · exact .inr ⟨hnone, value, heq ▸ hv, hdropped⟩
      · rw [hnone'] at hv
        cases hv

theorem dropRow (hgone : gone key value) : ∀ {rows : KeyspaceState d},
    rows.present key = some value → Takes gone dropped rows (rows.dropRow key)
  | .dupSort .., _ => refl _
  | .single clearBase rows, h => by
    have hrow : rows[key]? = some (.present value) := by
      simp only [present] at h
      split at h
      · rename_i held hheld
        rw [hheld, some.inj h]
      · cases h
    have hdrop : (single clearBase rows).dropRow key = single clearBase (rows.erase key) := by
      simp [KeyspaceState.dropRow, hrow]
    rw [hdrop]
    refine ⟨rfl, fun other => ?_⟩
    rw [getElem?_erase]
    by_cases hother : key = other
    · subst hother
      exact .inr ⟨by simp, value, hrow, hgone⟩
    · exact .inl (by simp [hother])

theorem dropPosting (hdropped : dropped term identity value) :
    ∀ (rows : KeyspaceState d), Takes gone dropped rows (rows.dropPosting term identity value)
  | .single .. => refl _
  | .dupSort clearBase rows => by
    unfold KeyspaceState.dropPosting
    dsimp only
    split
    · exact refl _
    · rename_i delta hdelta
      have hread : dupDelta rows term = delta := by simp [dupDelta, hdelta]
      split
      · exact refl _
      · rename_i hnot
        have hheld : delta.present[identity]? = some value := of_not_not hnot
        refine ⟨rfl, fun key => ?_⟩
        rw [dupDelta_erase_or_insert]
        by_cases hkey : term = key
        · subst hkey
          rw [if_pos rfl, hread]
          refine ⟨rfl, rfl, fun other => ?_⟩
          simp only [DupDelta.dropPresent, getElem?_erase]
          by_cases hother : identity = other
          · subst hother
            exact .inr ⟨by simp, value, hheld, hdropped⟩
          · exact .inl (by simp [hother])
        · rw [if_neg hkey]
          exact ⟨rfl, rfl, fun _ => .inl rfl⟩

end Takes

variable {want : Bytes}

theorem posting_dropPosting_ne {other : Bytes} (h : identity ≠ other) :
    ∀ rows : KeyspaceState d, (rows.dropPosting term identity want).posting key other =
      rows.posting key other
  | .single .. => rfl
  | .dupSort clearBase rows => by
    unfold KeyspaceState.dropPosting
    dsimp only
    split
    · rfl
    · rename_i delta hdelta
      split
      · rfl
      · have hread : dupDelta rows term = delta := by simp [dupDelta, hdelta]
        rw [posting, posting, dupDelta_erase_or_insert]
        by_cases hkey : term = key
        · subst hkey
          simp [hread, DupDelta.dropPresent, getElem?_erase, h]
        · rw [if_neg hkey]

/-- A posting dropped at its own value is not there at that value. -/
theorem posting_dropPosting_self : ∀ rows : KeyspaceState d,
    (rows.dropPosting term identity want).posting term identity ≠ some want
  | .single .. => nofun
  | .dupSort clearBase rows => by
    unfold KeyspaceState.dropPosting
    dsimp only
    split
    · rename_i hdelta
      simp [posting, dupDelta, hdelta, DupDelta.default]
    · rename_i delta hdelta
      have hread : dupDelta rows term = delta := by simp [dupDelta, hdelta]
      split
      · rename_i hheld
        rwa [posting, hread]
      · rw [posting, dupDelta_erase_or_insert, if_pos rfl]
        simp [DupDelta.dropPresent]

end KeyspaceState

/-- The postings captured for an identity are those the snapshot stages. -/
theorem posting_of_staged {staged : KvPair} (h : staged ∈ stagedPostings snap identity) :
    (snap.keyspaces .textPostings).posting staged.1 identity = some staged.2 := by
  obtain ⟨clearBase, rows, hrows⟩ : ∃ clearBase rows, snap.keyspaces .textPostings =
      .dupSort clearBase rows :=
    match snap.keyspaces .textPostings with
    | .dupSort clearBase rows => ⟨clearBase, rows, rfl⟩
  rw [stagedPostings, hrows] at h
  obtain ⟨⟨term, delta⟩, hdelta, hvalue⟩ := mem_filterMap.mp h
  obtain ⟨value, hpresent, rfl⟩ := map_eq_some_iff.mp hvalue
  have hread : rows[term]? = some delta := mem_toList_iff_getElem?_eq_some.mp hdelta
  rw [hrows]
  simpa [KeyspaceState.posting, KeyspaceState.dupDelta, hread] using hpresent

/-- **All a retirement of a saved set can do to the rows**, before it turns to the journal. -/
structure Takes (snap : OverlayState) (owned : OverlayKeyspace → Bytes → Prop)
    (state next : OverlayState) : Prop where
  keyspaces : ∀ keyspace, KeyspaceState.Takes
    (fun key value => owned keyspace key ∧ snap.present keyspace key = some value)
    (fun key identity value => owned keyspace identity ∧
      (snap.keyspaces keyspace).posting key identity = some value)
    (state.keyspaces keyspace) (next.keyspaces keyspace)
  journal : next.journal = state.journal
  nextJournalSeq : next.nextJournalSeq = state.nextJournalSeq
  bookkeeping : next.bookkeeping = state.bookkeeping

namespace Takes

variable {owned : OverlayKeyspace → Bytes → Prop}

theorem refl (state : OverlayState) : Takes snap owned state state :=
  ⟨fun _ => .refl _, rfl, rfl, rfl⟩

theorem trans (h : Takes snap owned a b) (h' : Takes snap owned b c) : Takes snap owned a c :=
  ⟨fun keyspace => (h.keyspaces keyspace).trans (h'.keyspaces keyspace),
    h'.journal.trans h.journal, h'.nextJournalSeq.trans h.nextJournalSeq,
    h'.bookkeeping.trans h.bookkeeping⟩

theorem setKeyspace (state : OverlayState) {rows : KeyspaceState keyspace.isDupsort}
    (h : KeyspaceState.Takes
      (fun key value => owned keyspace key ∧ snap.present keyspace key = some value)
      (fun key identity value => owned keyspace identity ∧
        (snap.keyspaces keyspace).posting key identity = some value)
      (state.keyspaces keyspace) rows) :
    Takes snap owned state (state.setKeyspace keyspace rows) := by
  refine ⟨fun other => ?_, rfl, rfl, rfl⟩
  by_cases hk : other = keyspace
  · subst hk
    rwa [setKeyspace_keyspaces_self]
  · rw [state.setKeyspace_keyspaces_ne _ _ hk]
    exact .refl _

theorem dropSnapshotMatched (howned : owned keyspace key) (state : OverlayState) :
    Takes snap owned state (dropSnapshotMatched snap state keyspace key) := by
  unfold Oneiron.dropSnapshotMatched
  split
  · rename_i hsame
    obtain ⟨value, hsnap, hvalue⟩ := stagesSame_iff.mp hsame
    exact setKeyspace state (.dropRow ⟨howned, hsnap⟩ hvalue)
  · exact refl state

theorem foldl {α : Type} {f : OverlayState → α → OverlayState} : ∀ {l : List α},
    (∀ a ∈ l, ∀ state, Takes snap owned state (f state a)) → ∀ state,
      Takes snap owned state (l.foldl f state)
  | [], _, state => refl state
  | a :: _, h, state => (h a mem_cons_self state).trans
      (foldl (fun b hb => h b (mem_cons_of_mem _ hb)) _)

theorem dropMatchedRows {rows : List (OverlayKeyspace × Bytes)}
    (howned : ∀ staged ∈ rows, owned staged.1 staged.2) (state : OverlayState) :
    Takes snap owned state (dropMatchedRows snap state rows) :=
  foldl (f := fun next staged => Oneiron.dropSnapshotMatched snap next staged.1 staged.2)
    (fun staged hstaged state => dropSnapshotMatched (howned staged hstaged) state) state

theorem dropTextFootprint (hpostings : owned .textPostings id.asBytes)
    (hrows : ∀ staged ∈ textRows id, owned staged.1 staged.2) (state : OverlayState) :
    Takes snap owned state (dropTextFootprint snap state id) := by
  unfold Oneiron.dropTextFootprint
  dsimp only
  split
  · have hposting (staged : KvPair) (h : staged ∈ stagedPostings snap id.asBytes)
        (state : OverlayState) : Takes snap owned state
          (dropTextPosting state staged.1 id.asBytes staged.2) :=
      setKeyspace state (.dropPosting ⟨hpostings, posting_of_staged h⟩ _)
    refine (foldl hposting state).trans (dropMatchedRows (fun staged h => hrows staged ?_) _)
    simp only [mem_cons, not_mem_nil, or_false] at h
    rcases h with rfl | rfl | rfl | rfl <;> simp [textRows]
  · exact refl state

end Takes

/-- **The steps take out owned rows the snapshot staged alike**, and nothing else. -/
theorem takes_retireSteps (snap state : OverlayState) (saved documentSlots : OrderedSet EntityId) :
    Takes snap (Owned snap saved documentSlots) state
      ((retireSteps snap saved documentSlots).foldl (DropStep.apply snap) state) := by
  refine .foldl (fun step hstep state => ?_) state
  have howned := owned_retireSteps step hstep
  cases step with
  | row staged => exact .dropSnapshotMatched (.inl howned) state
  | text id =>
    exact .dropTextFootprint (.inr ⟨id, howned, mem_cons_self⟩)
      (fun staged hstaged => .inr ⟨id, howned, mem_cons_of_mem _ hstaged⟩) state

/-! ## The text footprint -/

/-- A state that stages an entity's text as another does. -/
structure SameText (id : EntityId) (state next : OverlayState) : Prop where
  rows : ∀ staged ∈ textRows id, next.present staged.1 staged.2 = state.present staged.1 staged.2
  postings : ∀ term, (next.keyspaces .textPostings).posting term id.asBytes =
    (state.keyspaces .textPostings).posting term id.asBytes

namespace SameText

variable {id : EntityId}

theorem refl (id : EntityId) (state : OverlayState) : SameText id state state :=
  ⟨fun _ _ => rfl, fun _ => rfl⟩

theorem trans (h : SameText id a b) (h' : SameText id b c) : SameText id a c :=
  ⟨fun staged hstaged => (h'.rows staged hstaged).trans (h.rows staged hstaged),
    fun term => (h'.postings term).trans (h.postings term)⟩

theorem stagesText_eq (h : SameText id state next) : stagesText snap next id =
    stagesText snap state id := by
  have hsame (staged : OverlayKeyspace × Bytes) (hstaged : staged ∈ textRows id) :
      stagesSame snap next staged.1 staged.2 = stagesSame snap state staged.1 staged.2 := by
    rw [Bool.eq_iff_iff, stagesSame_iff, stagesSame_iff, h.rows staged hstaged]
  exact congrArg₂ Bool.and (hsame (.textForward, id.asBytes) (by simp [textRows]))
    (hsame (.vaultMeta, indexSourceTextPrefix ++ id.asBytes) (by simp [textRows]))

theorem dropSnapshotMatched {staged : OverlayKeyspace × Bytes} (h : staged ∉ textRows id)
    (state : OverlayState) :
    SameText id state (dropSnapshotMatched snap state staged.1 staged.2) := by
  unfold Oneiron.dropSnapshotMatched
  split
  · refine ⟨fun other hother => present_dropOverlayRow fun heq => h ?_, fun term => ?_⟩
    · rw [heq]
      exact hother
    · rw [dropOverlayRow_dupSort rfl]
  · exact refl id state

theorem dropMatchedRows {rows : List (OverlayKeyspace × Bytes)}
    (h : ∀ staged ∈ rows, staged ∉ textRows id) (state : OverlayState) :
    SameText id state (dropMatchedRows snap state rows) := by
  induction rows generalizing state with
  | nil => exact refl id state
  | cons staged rest ih =>
    exact (dropSnapshotMatched (h staged mem_cons_self) state).trans
      (ih (fun other hother => h other (mem_cons_of_mem _ hother)) _)

/-- The text of another entity is another text. -/
theorem dropTextPosting {other : EntityId} (h : other ≠ id) (term want : Bytes)
    (state : OverlayState) : SameText id state (dropTextPosting state term other.asBytes want) := by
  refine ⟨fun staged hstaged => ?_, fun key => ?_⟩
  · have hkeyspace : staged.1 ≠ .textPostings := by
      simp only [textRows, mem_cons, not_mem_nil, or_false] at hstaged
      rcases hstaged with rfl | rfl | rfl | rfl <;> exact nofun
    rw [present, Oneiron.dropTextPosting, state.setKeyspace_keyspaces_ne _ _ hkeyspace,
      present]
  · rw [Oneiron.dropTextPosting, setKeyspace_keyspaces_self]
    exact KeyspaceState.posting_dropPosting_ne (fun heq => h (EntityId.ext heq)) _

end SameText

/-- No row a retirement finds by an owner is a text row. -/
theorem not_mem_textRows (h : OwnedRow snap saved documentSlots keyspace key) :
    (keyspace, key) ∉ textRows id := by
  have hne {start rest : Bytes} (hstart : ¬start <+: indexSourceTextPrefix)
      (hsource : ¬indexSourceTextPrefix <+: start) :
      start ++ rest ≠ indexSourceTextPrefix ++ id.asBytes := fun heq =>
    prefix_or_prefix_of_prefix (prefix_append start rest)
      (heq ▸ prefix_append indexSourceTextPrefix id.asBytes) |>.elim hstart hsource
  have hmeta {rest : Bytes} {start : Bytes} (hstart : ¬start <+: indexSourceTextPrefix)
      (hsource : ¬indexSourceTextPrefix <+: start) :
      ((.vaultMeta : OverlayKeyspace), start ++ rest) ∉ textRows id := by
    simpa [textRows] using hne hstart hsource
  cases h with
  | time _ _ hkeyspace =>
    simp only [mem_cons, not_mem_nil, or_false] at hkeyspace
    rcases hkeyspace with rfl | rfl | rfl | rfl <;> simp [textRows]
  | record _ hstart =>
    simp only [mem_cons, not_mem_nil, or_false] at hstart
    rcases hstart with rfl | rfl | rfl <;> exact hmeta (by decide) (by decide)
  | birth | headDoc | pinCiting => exact hmeta (by decide) (by decide)
  | pin _ hstart =>
    simp only [mem_cons, not_mem_nil, or_false] at hstart
    rcases hstart with rfl | rfl <;> exact hmeta (by decide) (by decide)
  | _ => simp [textRows]

/-- No row and no posting of the text the snapshot captured is there any more as it was captured. -/
structure TextSpent (snap state : OverlayState) (id : EntityId) : Prop where
  rows : ∀ staged ∈ textRows id, stagesSame snap state staged.1 staged.2 = false
  postings : ∀ {term value}, (snap.keyspaces .textPostings).posting term id.asBytes = some value →
    (state.keyspaces .textPostings).posting term id.asBytes ≠ some value

theorem KeyspaceState.Thins.posting_eq_some : ∀ {rows rows' : KeyspaceState d}, rows.Thins rows' →
      rows'.posting term identity = some value → rows.posting term identity = some value
  | .single .., .single .., _, h => h
  | .dupSort .., .dupSort .., hthins, h => (hthins.2.2 term).present h

theorem TextSpent.of_thins (h : state.Thins next) (hspent : TextSpent snap state id) :
    TextSpent snap next id where
  rows staged hstaged :=
    have hrow : (DropStep.row staged).Spent snap state := hspent.rows staged hstaged
    hrow.of_thins h
  postings hsnap hnext := hspent.postings hsnap
    ((h.keyspaces .textPostings).posting_eq_some hnext)

theorem staged_of_posting (h : (snap.keyspaces .textPostings).posting term identity = some value) :
    (term, value) ∈ stagedPostings snap identity := by
  obtain ⟨clearBase, rows, hrows⟩ : ∃ clearBase rows, snap.keyspaces .textPostings =
      .dupSort clearBase rows :=
    match snap.keyspaces .textPostings with
    | .dupSort clearBase rows => ⟨clearBase, rows, rfl⟩
  simp only [hrows, KeyspaceState.posting, KeyspaceState.dupDelta] at h
  rw [stagedPostings, hrows]
  cases hdelta : rows[term]? with
  | none => simp [hdelta, DupDelta.default] at h
  | some delta =>
    rw [hdelta, getD_some] at h
    exact mem_filterMap.mpr ⟨(term, delta),
      mem_toList_iff_getElem?_eq_some.mpr hdelta, by simp [h]⟩

/-- Postings dropped one by one are none of them left at the values dropped. -/
theorem posting_foldl_dropTextPosting : ∀ {postings : List KvPair}
    {state : OverlayState}, ∀ staged ∈ postings, ((postings.foldl
      (fun next staged => dropTextPosting next staged.1 identity staged.2) state).keyspaces
        .textPostings).posting staged.1 identity ≠ some staged.2
  | first :: rest, state, staged, hstaged, hheld => by
    rcases mem_cons.mp hstaged with rfl | hstaged
    · have hthins := OverlayState.Thins.foldl
        (f := fun next staged => dropTextPosting next staged.1 identity staged.2)
        (fun next staged => .setKeyspace next (.dropPosting _ staged.1 identity staged.2)) rest
        (dropTextPosting state staged.1 identity staged.2)
      have hheld := (hthins.keyspaces .textPostings).posting_eq_some hheld
      exact KeyspaceState.posting_dropPosting_self _ hheld
    · exact posting_foldl_dropTextPosting staged hstaged hheld

/-- **A text that matches goes as far as it matches.** -/
theorem textSpent_apply (h : stagesText snap state id = true) :
    TextSpent snap ((DropStep.text id).apply snap state) id := by
  rw [DropStep.apply, dropTextFootprint, if_pos (by simpa [stagesText] using h)]
  refine ⟨fun staged hstaged => ?_, fun {term value} hsnap hnext => ?_⟩
  · rw [dropMatchedRows_eq_steps]
    exact DropStep.spent_foldl (.row staged) (mem_map_of_mem hstaged)
  · exact posting_foldl_dropTextPosting (term, value) (staged_of_posting hsnap)
      (((OverlayState.Thins.dropMatchedRows snap _ _).keyspaces .textPostings).posting_eq_some hnext)

/-- **A text that no longer matches stays**, and so does every other entity's. -/
theorem sameText_apply (howned : step.OwnedBy snap saved documentSlots)
    (htext : step = .text id → stagesText snap state id = false) :
    SameText id state (step.apply snap state) := by
  cases step with
  | row staged => exact .dropSnapshotMatched (not_mem_textRows howned) state
  | text other =>
    by_cases hother : other = id
    · subst hother
      have hspent : (DropStep.text other).Spent snap state := htext rfl
      rw [DropStep.apply_of_spent hspent]
      exact .refl other state
    · have hrows (staged : OverlayKeyspace × Bytes) (hstaged : staged ∈ textRows other) :
          staged ∉ textRows id := fun hid => by
        have hbytes : other.asBytes ≠ id.asBytes := fun h => hother (EntityId.ext h)
        simp only [textRows, mem_cons, not_mem_nil, or_false] at hstaged hid
        rcases hstaged with rfl | rfl | rfl | rfl <;> simp [hbytes] at hid
      have hpostings (postings : List KvPair) : ∀ state, SameText id state (postings.foldl
          (fun next staged => dropTextPosting next staged.1 other.asBytes staged.2) state) := by
        induction postings with
        | nil => exact fun state => .refl id state
        | cons staged rest ih => exact fun state => (SameText.dropTextPosting hother _ _ state).trans (ih _)
      rw [DropStep.apply, dropTextFootprint]
      split
      · exact (hpostings _ state).trans (.dropMatchedRows hrows _)
      · exact .refl id state

theorem sameText_foldl : ∀ {steps : List DropStep} {state : OverlayState},
    (∀ step ∈ steps, step.OwnedBy snap saved documentSlots) → stagesText snap state id = false →
      SameText id state (steps.foldl (DropStep.apply snap) state)
  | [], state, _, _ => .refl id state
  | step :: _, state, howned, htext => by
    have hsame := sameText_apply (howned step mem_cons_self) fun _ => htext
    exact hsame.trans (sameText_foldl (fun other hother => howned other (mem_cons_of_mem _ hother))
      (hsame.stagesText_eq.trans htext))

theorem textSpent_foldl : ∀ {steps : List DropStep} {state : OverlayState},
    (∀ step ∈ steps, step.OwnedBy snap saved documentSlots) → .text id ∈ steps →
      stagesText snap state id = true →
        TextSpent snap (steps.foldl (DropStep.apply snap) state) id
  | step :: rest, state, howned, hmem, htext => by
    rw [foldl_cons]
    by_cases hstep : step = .text id
    · subst hstep
      exact (textSpent_apply htext).of_thins (DropStep.thins_foldl snap rest _)
    · have hrest : .text id ∈ rest := (mem_cons.mp hmem).resolve_left (Ne.symm hstep)
      have hsame : SameText id state (step.apply snap state) :=
        sameText_apply (howned step mem_cons_self) fun heq => absurd heq hstep
      exact textSpent_foldl (fun other hother => howned other (mem_cons_of_mem _ hother)) hrest
        (hsame.stagesText_eq.trans htext)

/-! ## The journal -/

/-- What goes from a later journal is what the snapshot held of saved subjects. -/
theorem retireSaved_journal [EntryLayout] (ho : JournalOrdered snap) (hsince : Since snap state)
    (hbound : state.nextJournalSeq ≤ 2 ^ 64) :
    (state.retireSaved snap saved documentSlots).journal = state.journal.filter fun published =>
      !(published ∈ snap.journal && (replayedSubject published.entry.op).any saved.contains) := by
  rw [retireSaved_eq_steps, retainJournal, recalculateBytes]
  rw [(takes_retireSteps snap state saved documentSlots).journal]
  refine filter_congr fun published hpub => ?_
  have hiff : published.seq ∈ (savedEntries snap saved).map PublishedEntry.seq ↔
      published ∈ snap.journal ∧ (replayedSubject published.entry.op).any saved.contains = true := by
    rw [List.mem_map]
    constructor
    · rintro ⟨other, hother, hseq⟩
      obtain ⟨hmem, hsaved⟩ := mem_filter.mp hother
      -- the number is one the snapshot had given out, so it names the same entry
      have hcut := hsince.next_le.trans hbound
      have hold := hsince.old hbound published hpub (hseq ▸ ho.below hcut other hmem)
      obtain rfl := eq_of_seq_eq (ho.sorted hcut) hmem hold hseq
      exact ⟨hold, hsaved⟩
    · exact fun h => ⟨published, mem_filter.mpr h, rfl⟩
  by_cases h : published.seq ∈ (savedEntries snap saved).map PublishedEntry.seq
  · obtain ⟨hmem, hsaved⟩ := hiff.mp h
    simp [h, hmem, hsaved]
  · have hnot := mt hiff.mpr h
    simp only [h, not_false_eq_true, decide_true, Bool.true_eq, Bool.not_eq_true', ← Bool.not_eq_true]
    simpa using hnot

/-! ## Retiring a saved set along a run -/

theorem KeyspaceState.Takes.present_eq : ∀ {rows rows' : KeyspaceState d},
    Takes gone dropped rows rows' → rows'.present key = rows.present key ∨ rows'.present key = none
  | .single .., .single .., h => by
    rcases h.2 key with heq | ⟨hnone, -⟩
    · exact .inl (by simp only [present, heq])
    · exact .inr (by simp only [present, hnone])
  | .dupSort .., .dupSort .., _ => .inl rfl

theorem KeyspaceState.Takes.posting_eq :
    ∀ {rows rows' : KeyspaceState d}, Takes gone dropped rows rows' →
      rows'.posting key identity = rows.posting key identity ∨ rows'.posting key identity = none
  | .single .., .single .., _ => .inl rfl
  | .dupSort .., .dupSort .., h => by
    rcases (h.2 key).2.2 identity with heq | ⟨hnone, -⟩
    · exact .inl heq
    · exact .inr hnone

/-- **Retiring a saved set is a frame guarded by the snapshot.**  A row goes only as it was captured
and only where a saved id or a named slot owns it; a saved entity's text goes as far as it still
matches, or stays as it is; the journal loses what the snapshot held of saved subjects (up to the
`2 ^ 64` entries a room can number); and doing it again changes nothing. -/
theorem retireSavedArtifacts_frame [EntryLayout] {budgetBytes : ℕ} {room later : Room}
    {ops : List RoomOp} (saved documentSlots : OrderedSet EntityId)
    (hroom : (rooms budgetBytes).Reachable room) {view : SessionOverlay → OverlaySnapshot}
    (hview : view ∈ views) (hrun : (rooms budgetBytes).Run room ops later) :
    let snap := (view room.overlay).state
    let live := later.overlay.state
    let next := later.overlay.retireSavedArtifacts (view room.overlay) saved documentSlots
    let retired := next.state
    (∀ keyspace, KeyspaceState.Takes
      (fun key value => Owned snap saved documentSlots keyspace key ∧
        snap.present keyspace key = some value)
      (fun key identity value => Owned snap saved documentSlots keyspace identity ∧
        (snap.keyspaces keyspace).posting key identity = some value)
      (live.keyspaces keyspace) (retired.keyspaces keyspace)) ∧
    retired.bookkeeping = live.bookkeeping ∧
    (∀ id ∈ saved, if stagesText snap live id then
        (∀ staged ∈ textRows id, stagesSame snap live staged.1 staged.2 = true →
          retired.present staged.1 staged.2 = none) ∧
        ∀ term value, (snap.keyspaces .textPostings).posting term id.asBytes = some value →
          (live.keyspaces .textPostings).posting term id.asBytes = some value →
          (retired.keyspaces .textPostings).posting term id.asBytes = none
      else SameText id live retired) ∧
    (live.nextJournalSeq ≤ 2 ^ 64 → retired.journal = live.journal.filter fun published =>
      !(published ∈ snap.journal && (replayedSubject published.entry.op).any saved.contains)) ∧
    next.retireSavedArtifacts (view room.overlay) saved documentSlots = next := by
  intro snap live next retired
  have hbehind := behind_of_view hroom hrun hview
  have howned : ∀ step ∈ retireSteps snap saved documentSlots,
      step.OwnedBy snap saved documentSlots := owned_retireSteps
  have htakes := takes_retireSteps snap live saved documentSlots
  have hretired : retired = ((retireSteps snap saved documentSlots).foldl (DropStep.apply snap)
      live).retainJournal ((savedEntries snap saved).map PublishedEntry.seq) :=
    retireSaved_eq_steps live snap saved documentSlots
  have hkeyspaces : retired.keyspaces = ((retireSteps snap saved documentSlots).foldl
      (DropStep.apply snap) live).keyspaces := by
    rw [hretired]
    rfl
  refine ⟨fun keyspace => hkeyspaces ▸ htakes.keyspaces keyspace, ?_, fun id hid => ?_,
    retireSaved_journal hbehind.ordered hbehind.since, ?_⟩
  · rw [hretired]
    exact htakes.bookkeeping
  · split
    · rename_i htext
      have hstep : .text id ∈ retireSteps snap saved documentSlots :=
        mem_append_left _ (mem_append_right _ (mem_flatMap.mpr
          ⟨id, ExtTreeSet.mem_toList.mpr hid, mem_append_right _ mem_cons_self⟩))
      have hspent := textSpent_foldl howned hstep htext
      refine ⟨fun staged hstaged hsame => ?_, fun term value hsnap hvalue => ?_⟩
      · rw [present, hkeyspaces]
        refine (htakes.keyspaces staged.1).present_eq.resolve_left fun heq => ?_
        obtain ⟨value, hsnap, hvalue⟩ := stagesSame_iff.mp hsame
        exact Bool.false_ne_true ((hspent.rows staged hstaged).symm.trans
          (stagesSame_iff.mpr ⟨value, hsnap, heq.trans hvalue⟩))
      · rw [hkeyspaces]
        exact (htakes.keyspaces .textPostings).posting_eq.resolve_left fun heq =>
          hspent.postings hsnap (heq.trans hvalue)
    · rename_i htext
      have hsame := sameText_foldl howned (Bool.eq_false_iff.mpr htext)
      exact ⟨fun staged hstaged => by
          rw [present, hkeyspaces]
          exact hsame.rows staged hstaged,
        fun term => by
          rw [hkeyspaces]
          exact hsame.postings term⟩
  · have hagain := retireSaved_retireSaved live snap saved documentSlots
    exact congrArg (fun state => { later.overlay with state }) hagain

/-! ## A text half restaged -/

/-- Publishes a forward row, its source row and the field lengths of one entity's text. -/
def publishText : List RoomOp :=
  [.install, .put .textForward (EntityId.filled 1).asBytes [1],
    .put .vaultMeta (indexSourceTextPrefix ++ (EntityId.filled 1).asBytes) [2],
    .put .textDocFieldLengths (EntityId.filled 1).asBytes [3], .commit]

/-- The room once it has published the text. -/
def textRoom [EntryLayout] : Room := Room.after ⟨.new 4096, .empty⟩ publishText

/-- …at the text retired as soon as it is published. -/
theorem retireSavedArtifacts_frame_text :
    letI : EntryLayout := .wide
    let text := (EntityId.filled 1).asBytes
    let retired := textRoom.overlay.retireSavedArtifacts textRoom.overlay.published turnKept ∅
    retired.state.present .textForward text = none ∧
      retired.state.present .textDocFieldLengths text = none := by
  let _ : EntryLayout := .wide
  have hroom : (rooms 4096).Reachable textRoom := reachable_after (.start rfl) publishText
  have hpublished : SessionOverlay.published ∈ views := by simp [views]
  have hkept : EntityId.filled 1 ∈ turnKept := by simp [turnKept]
  have htext : stagesText textRoom.overlay.published.state textRoom.overlay.state (.filled 1) =
      true := by decide
  have hlengths : stagesSame textRoom.overlay.published.state textRoom.overlay.state
      .textDocFieldLengths (EntityId.filled 1).asBytes = true := by decide
  -- the room is no longer to be run
  generalize textRoom = room at *
  obtain ⟨-, -, hrows, -, -⟩ := retireSavedArtifacts_frame turnKept ∅ hroom hpublished (.nil room)
  have hgone := hrows (.filled 1) hkept
  rw [if_pos htext] at hgone
  exact ⟨hgone.1 (.textForward, (EntityId.filled 1).asBytes) (by simp [textRows])
      (Bool.and_eq_true_iff.mp htext).1,
    hgone.1 (.textDocFieldLengths, (EntityId.filled 1).asBytes) (by simp [textRows]) hlengths⟩

/-- **A text can go in part**: its field lengths restaged since, its forward row unchanged. -/
theorem retireSavedArtifacts_part :
    letI : EntryLayout := .wide
    let text := (EntityId.filled 1).asBytes
    let later := textRoom.after [.install, .put .textDocFieldLengths text [4], .commit]
    let retired := later.overlay.retireSavedArtifacts textRoom.overlay.published turnKept ∅
    (rooms 4096).Reachable textRoom ∧ (rooms 4096).Reachable later ∧
    later.overlay.state.present .textForward text = some [1] ∧
    retired.state.present .textForward text = none ∧
    later.overlay.state.present .textDocFieldLengths text = some [4] ∧
    retired.state.present .textDocFieldLengths text = some [4] := by
  let _ : EntryLayout := .wide
  have hroom : (rooms 4096).Reachable textRoom := reachable_after (.start rfl) publishText
  exact ⟨hroom, reachable_after hroom _, by decide, by decide, by decide, by decide⟩

end Oneiron
