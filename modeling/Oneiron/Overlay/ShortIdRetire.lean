import Oneiron.Overlay.SelectedRetirement
import Oneiron.Overlay.ShortId

/-!
# Overlay/ShortIdRetire — what a retirement does to a room's aliases

Every row a retirement takes out is an owner's (`OwnedRow.elsewhere`), or one of an alias pair, and a
pair goes as a whole (`Loses.dropAliasPair`, `Loses.dropShortIdPair`).
-/

open Std

namespace Oneiron

open List

/-! ## What a retirement does to the tables -/

/-- Two states that stage the same aliases and the same ordinal. -/
structure SameAliases (state next : OverlayState) : Prop where
  back : ∀ key, next.present .shortIdsReverse key = state.present .shortIdsReverse key
  forward : ∀ key, next.present .shortIds key = state.present .shortIds key
  ordinal : next.present .vaultMeta sessionShortIdOrdinalKey =
    state.present .vaultMeta sessionShortIdOrdinalKey

theorem append_ne_ordinalKey {start rest : Bytes} (h : ¬start <+: sessionShortIdOrdinalKey) :
    start ++ rest ≠ sessionShortIdOrdinalKey := fun hordinal =>
  h (hordinal ▸ prefix_append start rest)

/-- A row that is no alias row and not the ordinal's. -/
def Elsewhere (staged : OverlayKeyspace × Bytes) : Prop :=
  staged.1 ≠ .shortIds ∧ staged.1 ≠ .shortIdsReverse ∧
    staged ≠ (.vaultMeta, sessionShortIdOrdinalKey)

variable {state next snap : OverlayState} {aliases : AliasTable}

variable {id : EntityId} {saved documentSlots : OrderedSet EntityId}
  {staged : OverlayKeyspace × Bytes} {ordinal : ℕ} {hash : UInt8}

namespace SameAliases

theorem refl (state : OverlayState) : SameAliases state state := ⟨fun _ => rfl, fun _ => rfl, rfl⟩

theorem trans {a b c : OverlayState} (h : SameAliases a b) (h' : SameAliases b c) :
    SameAliases a c :=
  ⟨fun key => (h'.back key).trans (h.back key), fun key => (h'.forward key).trans (h.forward key),
    h'.ordinal.trans h.ordinal⟩

theorem shows (h : SameAliases state next) (hshows : Shows state aliases) : Shows next aliases :=
  ⟨fun {key value} => by rw [h.back]; exact hshows.back,
    fun {key value} => by rw [h.forward]; exact hshows.forward, hshows.distinct⟩

theorem foldl {α : Type} {f : OverlayState → α → OverlayState} : ∀ {l : List α},
    (∀ a ∈ l, ∀ state, SameAliases state (f state a)) → ∀ state, SameAliases state (l.foldl f state)
  | [], _, state => refl state
  | a :: _, h, state => (h a mem_cons_self state).trans
      (foldl (fun b hb => h b (mem_cons_of_mem _ hb)) _)

theorem dropOverlayRow (h : Elsewhere staged) (state : OverlayState) :
    SameAliases state (dropOverlayRow state staged.1 staged.2) :=
  ⟨fun _ => present_dropOverlayRow fun heq => h.2.1 (congrArg Prod.fst heq),
    fun _ => present_dropOverlayRow fun heq => h.1 (congrArg Prod.fst heq),
    present_dropOverlayRow h.2.2⟩

theorem dropOverlayRows {rows : List (OverlayKeyspace × Bytes)} (h : ∀ staged ∈ rows, Elsewhere staged)
    (state : OverlayState) : SameAliases state (dropOverlayRows state rows) := by
  exact foldl (fun staged hstaged state => dropOverlayRow (h staged hstaged) state) state

theorem dropMatchedRows {rows : List (OverlayKeyspace × Bytes)} (h : ∀ staged ∈ rows, Elsewhere staged)
    (state : OverlayState) : SameAliases state (dropMatchedRows snap state rows) := by
  refine foldl (fun staged hstaged state => ?_) state
  unfold dropSnapshotMatched
  split
  · exact dropOverlayRow (h staged hstaged) state
  · exact refl state

theorem setPostings (state : OverlayState) (rows : KeyspaceState true) :
    SameAliases state (state.setKeyspace .textPostings rows) := by
  have hne (keyspace : OverlayKeyspace) (h : keyspace ≠ .textPostings) (key : Bytes) :
      (state.setKeyspace .textPostings rows).present keyspace key = state.present keyspace key := by
    rw [OverlayState.present, state.setKeyspace_keyspaces_ne .textPostings rows h, OverlayState.present]
  exact ⟨hne .shortIdsReverse (by decide), hne .shortIds (by decide), hne .vaultMeta (by decide) _⟩

theorem retainJournal [EntryLayout] (state : OverlayState) (gone : List ℕ) :
    SameAliases state (state.retainJournal gone) :=
  ⟨fun _ => rfl, fun _ => rfl, rfl⟩

theorem dropTextFootprint (id : EntityId) (state : OverlayState) :
    SameAliases state (dropTextFootprint snap state id) := by
  unfold Oneiron.dropTextFootprint
  dsimp only
  split
  · refine (foldl (fun row _ state => ?_) state).trans
      (@dropMatchedRows _ (textRows id) (fun staged hstaged => ?_) _)
    · exact setPostings state _
    · simp only [textRows, mem_cons, not_mem_nil, or_false] at hstaged
      rcases hstaged with rfl | rfl | rfl | rfl
      · simp [Elsewhere]
      · simp [Elsewhere]
      · simp [Elsewhere]
      · refine ⟨by simp, by simp, fun heq => ?_⟩
        exact append_ne_ordinalKey (by decide) (Prod.mk.inj heq).2
  · exact refl state

end SameAliases

theorem dropMatchedRows_append (next : OverlayState) (rows rest : List (OverlayKeyspace × Bytes)) :
    dropMatchedRows snap next (rows ++ rest) =
      dropMatchedRows snap (dropMatchedRows snap next rows) rest :=
  foldl_append ..

/-! ### Rows elsewhere -/

theorem elsewhere_putFootprint {entityType : UInt8} {start stop learnedAt : UInt64} :
    ∀ staged ∈ putFootprint id entityType start stop learnedAt, Elsewhere staged := by
  intro staged h
  unfold putFootprint at h
  simp only [mem_append, mem_cons, not_mem_nil, or_false] at h
  rcases h with (((rfl | rfl | rfl) | h) | rfl) | h
  · simp [Elsewhere]
  · simp [Elsewhere]
  · simp [Elsewhere]
  · split at h
    · obtain rfl := mem_singleton.mp h
      simp [Elsewhere]
    · cases h
  · simp [Elsewhere]
  · split at h
    · obtain rfl := mem_singleton.mp h
      simp [Elsewhere]
    · cases h

theorem elsewhere_edgeFootprint {src tgt : EntityId} {kind : EdgeKind} :
    ∀ staged ∈ edgeFootprint src kind tgt, Elsewhere staged := by
  simp [edgeFootprint, Elsewhere]

/-- An owned row that is no alias row is elsewhere: no owner's prefix is the ordinal key's. -/
theorem OwnedRow.elsewhere {keyspace : OverlayKeyspace} {key : Bytes}
    (h : OwnedRow snap saved documentSlots keyspace key) (hforward : keyspace ≠ .shortIds)
    (hback : keyspace ≠ .shortIdsReverse) : Elsewhere (keyspace, key) := by
  refine ⟨hforward, hback, fun heq => ?_⟩
  obtain ⟨rfl, hkey⟩ := Prod.mk.inj heq
  cases h with
  | time _ _ hkeyspace => simp at hkeyspace
  | record _ hstart =>
    simp only [mem_cons, not_mem_nil, or_false] at hstart
    rcases hstart with rfl | rfl | rfl <;> exact append_ne_ordinalKey (by decide) hkey
  | birth | headDoc | pinCiting => exact append_ne_ordinalKey (by decide) hkey
  | pin _ hstart =>
    simp only [mem_cons, not_mem_nil, or_false] at hstart
    rcases hstart with rfl | rfl <;> exact append_ne_ordinalKey (by decide) hkey

theorem elsewhere_journaledFootprint {op : BatchOp} :
    ∀ staged ∈ journaledFootprint op, Elsewhere staged := by
  intro staged h
  cases op <;> simp only [journaledFootprint, not_mem_nil] at h
  · exact elsewhere_putFootprint staged h
  all_goals exact elsewhere_edgeFootprint staged h

theorem elsewhere_stagedRows (h : staged ∈ stagedRows snap saved documentSlots) :
    Elsewhere staged := by
  have howned : (DropStep.row staged).OwnedBy snap saved documentSlots :=
    owned_retireSteps _ (mem_append_right _ (mem_map_of_mem h))
  have hkeyspace : staged.1 ∈ [OverlayKeyspace.edgesOut, .edgesIn, .vaultMeta, .syncState] := by
    simp only [stagedRows, stagedEdges, prefixedRows, pinRows, documentSlotRows, mem_append,
      mem_map, flatMap_cons, flatMap_nil, mem_flatMap, append_nil] at h
    grind
  refine howned.elsewhere (fun heq => ?_) fun heq => ?_ <;> rw [heq] at hkeyspace <;>
    simp at hkeyspace

/-! ### The pair -/

theorem present_dropOverlayRow_if (state : OverlayState) (keyspace other : OverlayKeyspace)
    (key k : Bytes) : (dropOverlayRow state keyspace key).present other k =
      if other = keyspace ∧ k = key then none else state.present other k := by
  by_cases h : other = keyspace ∧ k = key
  · obtain ⟨rfl, rfl⟩ := h
    rw [if_pos ⟨rfl, rfl⟩, present_dropOverlayRow_self]
  · rw [if_neg h]
    exact present_dropOverlayRow fun heq => h (Prod.mk.inj heq.symm)

/-- A table with an id's alias taken out. -/
def AliasTable.without (aliases : AliasTable) (id : EntityId) : AliasTable :=
  Function.update aliases id none

theorem AliasTable.below_without (aliases : AliasTable) (id : EntityId) :
    (aliases.without id).Below aliases := fun other => by
  by_cases h : other = id
  · exact .inl (by rw [h, AliasTable.without, Function.update_self])
  · exact .inr (Function.update_of_ne h ..)

/-- **The pair goes together.** -/
theorem shows_dropPair (hshows : Shows state aliases) (hid : aliases id = some (ordinal, hash)) :
    Shows (dropOverlayRow (dropOverlayRow state .shortIds (aliasKey ordinal hash)) .shortIdsReverse
      id.asBytes) (aliases.without id) := by
  have hwithout {other : EntityId} {entry : ℕ × UInt8} :
      aliases.without id other = some entry ↔ other ≠ id ∧ aliases other = some entry := by
    by_cases h : other = id
    · simp [h, AliasTable.without]
    · simp [h, AliasTable.without]
  refine ⟨fun {key value} => ?_, fun {key value} => ?_, fun hother hother' =>
    hshows.distinct (hwithout.mp hother).2 (hwithout.mp hother').2⟩
  · have hback : (dropOverlayRow (dropOverlayRow state .shortIds (aliasKey ordinal hash))
        .shortIdsReverse id.asBytes).present .shortIdsReverse key =
          if key = id.asBytes then none else state.present .shortIdsReverse key := by
      simp [present_dropOverlayRow_if]
    rw [hback]
    simp only [hwithout]
    by_cases hkey : key = id.asBytes
    · rw [if_pos hkey]
      refine ⟨nofun, ?_⟩
      rintro ⟨other, _, _, ⟨hne, -⟩, heq, -⟩
      exact absurd (EntityId.ext (heq.symm.trans hkey)) hne
    · rw [if_neg hkey, hshows.back]
      constructor
      · rintro ⟨other, n, h, hother, heq, hvalue⟩
        exact ⟨other, n, h, ⟨fun hsame => hkey (hsame ▸ heq), hother⟩, heq, hvalue⟩
      · rintro ⟨other, n, h, ⟨-, hother⟩, heq, hvalue⟩
        exact ⟨other, n, h, hother, heq, hvalue⟩
  · have hforward : (dropOverlayRow (dropOverlayRow state .shortIds (aliasKey ordinal hash))
        .shortIdsReverse id.asBytes).present .shortIds key =
          if key = aliasKey ordinal hash then none else state.present .shortIds key := by
      simp [present_dropOverlayRow_if]
    rw [hforward]
    simp only [hwithout]
    by_cases hkey : key = aliasKey ordinal hash
    · rw [if_pos hkey]
      refine ⟨nofun, ?_⟩
      rintro ⟨other, n, h, ⟨hne, hother⟩, heq, -⟩
      obtain ⟨rfl, rfl⟩ := aliasKey_inj.mp (hkey.symm.trans heq)
      exact absurd (hshows.distinct hother hid) hne
    · rw [if_neg hkey, hshows.forward]
      constructor
      · rintro ⟨other, n, h, hother, heq, hvalue⟩
        refine ⟨other, n, h, ⟨fun hsame => ?_, hother⟩, heq, hvalue⟩
        obtain ⟨rfl, rfl⟩ := Prod.mk.inj (Option.some.inj (hid.symm.trans (hsame ▸ hother)))
        exact hkey heq
      · rintro ⟨other, n, h, ⟨-, hother⟩, heq, hvalue⟩
        exact ⟨other, n, h, hother, heq, hvalue⟩

/-- A state whose tables have lost some pairs and that has minted as many. -/
structure Loses (aliases : AliasTable) (state next : OverlayState) : Prop where
  shows : ∃ less : AliasTable, less.Below aliases ∧ Shows next less
  ordinal : next.present .vaultMeta sessionShortIdOrdinalKey =
    state.present .vaultMeta sessionShortIdOrdinalKey

namespace Loses

theorem of_same (h : SameAliases state next) (hshows : Shows state aliases) :
    Loses aliases state next :=
  ⟨⟨aliases, .refl aliases, h.shows hshows⟩, h.ordinal⟩

/-- Folding steps each of which loses some pairs, loses some pairs. -/
theorem foldl {α : Type} {f : OverlayState → α → OverlayState} : ∀ {l : List α}
    {aliases : AliasTable}, (∀ a ∈ l, ∀ {state aliases}, Shows state aliases →
      Loses aliases state (f state a)) → ∀ {state}, Shows state aliases →
        Loses aliases state (l.foldl f state)
  | [], _, _, state, hshows => of_same (.refl state) hshows
  | a :: _, _, h, _, hshows => by
    obtain ⟨⟨less, hbelow, hless⟩, hordinal⟩ := h a mem_cons_self hshows
    obtain ⟨⟨least, hbelow', hleast⟩, hordinal'⟩ :=
      foldl (fun b hb => h b (mem_cons_of_mem _ hb)) hless
    exact ⟨⟨least, hbelow'.trans hbelow, hleast⟩, hordinal'.trans hordinal⟩

variable {mid : OverlayState} {captured : AliasTable}

theorem trans (h : Loses aliases state mid)
    (h' : ∀ {less : AliasTable}, Shows mid less → Loses less mid next) :
    Loses aliases state next := by
  obtain ⟨⟨less, hbelow, hless⟩, hordinal⟩ := h
  obtain ⟨⟨least, hbelow', hleast⟩, hordinal'⟩ := h' hless
  exact ⟨⟨least, hbelow'.trans hbelow, hleast⟩, hordinal'.trans hordinal⟩

theorem trans_same (h : Loses aliases state mid) (h' : SameAliases mid next) :
    Loses aliases state next :=
  h.trans fun hless => of_same h' hless

/-- The pair taken out. -/
theorem dropPair (hshows : Shows state aliases) (hid : aliases id = some (ordinal, hash)) :
    Loses aliases state
      (dropOverlayRow (dropOverlayRow state .shortIds (aliasKey ordinal hash)) .shortIdsReverse
        id.asBytes) :=
  ⟨⟨aliases.without id, aliases.below_without id, shows_dropPair hshows hid⟩,
    by simp [present_dropOverlayRow_if]⟩

theorem dropAliasPair (id : EntityId) (hshows : Shows state aliases) :
    Loses aliases state (dropAliasPair state id) := by
  have hback := hshows.back_self id
  unfold OverlayState.present at hback
  unfold Oneiron.dropAliasPair
  rw [hback]
  cases hid : aliases id with
  | none => exact of_same (.refl state) hshows
  | some entry => exact dropPair hshows hid

theorem dropShortIdPair (hsnap : Shows snap captured) (id : EntityId) (hshows : Shows state aliases)
    : Loses aliases state (dropShortIdPair snap state id) := by
  have hback := hsnap.back_self id
  unfold OverlayState.present at hback
  unfold Oneiron.dropShortIdPair
  rw [hback]
  cases hcaptured : captured id with
  | none => exact of_same (.refl state) hshows
  | some entry =>
    obtain ⟨ordinal, hash⟩ := entry
    -- the pair still matches as a whole or not at all
    have hforward : snap.present .shortIds (aliasKey ordinal hash) = some id.asBytes :=
      hsnap.forward.mpr ⟨id, ordinal, hash, hcaptured, rfl, rfl⟩
    have hback : snap.present .shortIdsReverse id.asBytes = some (aliasKey ordinal hash) :=
      hsnap.back.mpr ⟨id, ordinal, hash, hcaptured, rfl, rfl⟩
    change Loses aliases state (dropSnapshotMatched snap (dropSnapshotMatched snap state .shortIds
      (aliasKey ordinal hash)) .shortIdsReverse id.asBytes)
    by_cases hid : aliases id = some (ordinal, hash)
    · have hfirst : stagesSame snap state .shortIds (aliasKey ordinal hash) = true :=
        stagesSame_iff.mpr ⟨_, hforward, hshows.forward.mpr ⟨id, ordinal, hash, hid, rfl, rfl⟩⟩
      have hsecond : stagesSame snap (dropOverlayRow state .shortIds (aliasKey ordinal hash))
          .shortIdsReverse id.asBytes = true := by
        refine stagesSame_iff.mpr ⟨_, hback, ?_⟩
        exact hshows.back.mpr ⟨id, ordinal, hash, hid, rfl, rfl⟩
      rw [dropSnapshotMatched, dropSnapshotMatched, if_pos hfirst, if_pos hsecond]
      exact dropPair hshows hid
    · have hfirst : ¬stagesSame snap state .shortIds (aliasKey ordinal hash) = true := fun h => by
        obtain ⟨value, hsome, hvalue⟩ := stagesSame_iff.mp h
        obtain rfl := Option.some.inj (hforward.symm.trans hsome)
        obtain ⟨other, n, k, hother, hkey, hbytes⟩ := hshows.forward.mp hvalue
        obtain ⟨rfl, rfl⟩ := aliasKey_inj.mp hkey
        exact hid (EntityId.ext hbytes ▸ hother)
      have hsecond : ¬stagesSame snap state .shortIdsReverse id.asBytes = true := fun h => by
        obtain ⟨value, hsome, hvalue⟩ := stagesSame_iff.mp h
        obtain rfl := Option.some.inj (hback.symm.trans hsome)
        obtain ⟨other, n, k, hother, hbytes, hkey⟩ := hshows.back.mp hvalue
        obtain ⟨rfl, rfl⟩ := aliasKey_inj.mp hkey
        exact hid (EntityId.ext hbytes ▸ hother)
      rw [dropSnapshotMatched, dropSnapshotMatched, if_neg hfirst, if_neg hsecond]
      exact of_same (.refl state) hshows

theorem dropSaved (hsnap : Shows snap captured) (id : EntityId) (hshows : Shows state aliases) :
    Loses aliases state (dropSaved snap state id) := by
  have hheader (next : OverlayState) : SameAliases next
      (dropMatchedRows snap next ((.entities, id.asBytes) :: headerFootprint snap id)) := by
    refine .dropMatchedRows (forall_mem_cons.mpr ⟨by simp [Elsewhere], fun staged hstaged => ?_⟩)
      next
    unfold headerFootprint at hstaged
    split at hstaged
    · exact elsewhere_putFootprint staged hstaged
    · cases hstaged
  have htext (next : OverlayState) : SameAliases next (dropTextFootprint snap next id) :=
    .dropTextFootprint id next
  have hrecords : ∀ staged ∈ recordRows id, Elsewhere staged := by
    refine forall_mem_map.mpr fun start hstart => ⟨nofun, nofun, fun heq => ?_⟩
    simp only [mem_cons, not_mem_nil, or_false] at hstart
    rcases hstart with rfl | rfl | rfl <;>
      exact append_ne_ordinalKey (by decide) (Prod.mk.inj heq).2
  refine trans_same (Loses.trans (of_same ((hheader state).trans (htext _)) hshows) fun hmid =>
    dropShortIdPair hsnap id hmid) ?_
  exact .dropMatchedRows hrecords _

variable [EntryLayout]

/-- **Retiring a promoted closure loses pairs**, and no ordinal. -/
theorem retirePromoted (plan : PromotePlan) (kept : OrderedSet EntityId)
    (hshows : Shows state aliases) : Loses aliases state (state.retirePromoted plan kept) := by
  have hops : SameAliases state ((plan.keptOps kept).foldl
      (fun next op => dropOverlayRows next (replayedFootprint op.1)) state) := by
    refine .foldl (fun op _ state => .dropOverlayRows (fun staged hstaged => ?_) state) state
    cases hop : op.1 <;> simp only [replayedFootprint, hop, not_mem_nil] at hstaged
    · exact elsewhere_putFootprint staged hstaged
    · exact elsewhere_edgeFootprint staged hstaged
  refine trans_same ((of_same hops hshows).trans fun hmid => ?_) (.retainJournal _ _)
  exact foldl (fun id _ {_ _} hshows => dropAliasPair id hshows) hmid

/-- **Retiring a saved set loses pairs**, and no ordinal. -/
theorem retireSaved (hsnap : Shows snap captured) (saved documentSlots : OrderedSet EntityId)
    (hshows : Shows state aliases) :
    Loses aliases state (state.retireSaved snap saved documentSlots) := by
  unfold OverlayState.retireSaved
  have hentries : SameAliases state ((savedEntries snap saved).foldl (fun next published =>
      dropMatchedRows snap next (journaledFootprint published.entry.op)) state) :=
    .foldl (fun published _ state => .dropMatchedRows elsewhere_journaledFootprint state) state
  simp only [← dropMatchedRows_append]
  refine trans_same (trans_same ((of_same hentries hshows).trans fun hmid =>
    foldl (fun id _ {_ _} hshows => dropSaved hsnap id hshows) hmid)
      (.dropMatchedRows (fun staged hstaged => ?_) _)) (.retainJournal _ _)
  exact elsewhere_stagedRows hstaged

end Loses

end Oneiron
