import Oneiron.Compaction.EpochFloor
import Oneiron.Deletion.WithdrawnSweeps

/-!
# Sync/CarriedCutoffs — cutoffs and floors on the windows that carry them

    {hex artifact}                              -▸  cutoff
    epoch_floor/{hex session}                   -▸  floor of a session's log
    epoch_floor/{hex session}/{hex conversation} -▸  floor of a conversation's turns

A window's rows are admitted only as they are written (`admit_eq_ok_iff`), staged into this vault's
own, and written over from there where the window carries none or a lower one (`mirrorAll_spec`).
-/

open Std

namespace Oneiron

open List Except WithdrawnCutoff

/-! ## Keys and values -/

inductive CarrierError where
  | invalidConfig (text : String)
  deriving DecidableEq

/-- `refused`. -/
def cutoffRefused (reason : String) : CarrierError :=
  .invalidConfig ("withdrawn cutoff refused: " ++ reason)

/-- A value in a window's cutoff map. -/
inductive CarriedValue where
  | binary (bytes : Bytes)
  /-- Any other value, or a nested container. -/
  | other
  deriving DecidableEq

/-- One row of a window's cutoff map. -/
inductive CarriedCutoff where
  | withdrawn (id : EntityId) (cutoff : WithdrawnCutoff)
  | epochFloor (scope : EpochScope) (floor : EpochFloor)
  deriving DecidableEq

/-- `EPOCH_FLOOR`. -/
def epochFloorPrefix : Bytes := ascii "epoch_floor/"

def epochFloorKey (scope : EpochScope) : Bytes :=
  epochFloorPrefix ++ scope.session.toHex ++ scope.conversation.elim [] (47 :: ·.toHex)

/-- `filed_under`: the id a key is the canonical hex of. -/
def filedUnder (key : Bytes) (unnamed : String) : Except CarrierError EntityId :=
  match EntityId.fromHex key with
  | none => .error (cutoffRefused unnamed)
  | some id => if id.toHex ≠ key then .error (cutoffRefused "filed under another id") else .ok id

/-- The lineage a floor key names after `epoch_floor/`. -/
def epochFloorScope (filed : Bytes) : Except CarrierError EpochScope :=
  match splitOnce 47 filed with
  | some (session, conversation) => do
    let session ← filedUnder session "names no session"
    let conversation ← filedUnder conversation "names no conversation"
    pure ⟨session, some conversation⟩
  | none => do
    let session ← filedUnder filed "names no session"
    pure ⟨session, none⟩

/-- `admit_withdrawn_cutoff_carrier`. -/
def admitWithdrawnCutoffCarrier (mapKey : Bytes) (value : CarriedValue) :
    Except CarrierError CarriedCutoff :=
  match value with
  | .other => .error (cutoffRefused "not bytes")
  | .binary bytes =>
    if epochFloorPrefix.isPrefixOf mapKey then do
      let scope ← epochFloorScope (mapKey.drop epochFloorPrefix.length)
      match EpochFloor.decode bytes with
      | none => .error (cutoffRefused "not an epoch floor")
      | some floor => pure (.epochFloor scope floor)
    else do
      let id ← filedUnder mapKey "names no artifact"
      match decode bytes with
      | none => .error (cutoffRefused "not a cutoff")
      | some cutoff => pure (.withdrawn id cutoff)

namespace CarriedCutoff

/-- The key a row is written under. -/
def key : CarriedCutoff → Bytes
  | withdrawn id _ => id.toHex
  | epochFloor scope _ => epochFloorKey scope

/-- The bytes a row is written as. -/
def value : CarriedCutoff → Bytes
  | withdrawn _ cutoff => cutoff.encode
  | epochFloor _ floor => floor.encode

/-- A row about ids that are no sentinels. -/
def Named : CarriedCutoff → Prop
  | withdrawn id _ => id.Named
  | epochFloor scope _ => scope.session.Named ∧ ∀ conversation ∈ scope.conversation, conversation.Named

end CarriedCutoff

theorem filedUnder_eq_ok_iff {key : Bytes} {unnamed : String} {id : EntityId} :
    filedUnder key unnamed = .ok id ↔ id.Named ∧ key = id.toHex := by
  unfold filedUnder
  constructor
  · intro h
    split at h
    · exact nomatch h
    · next id' hhex =>
      split at h
      · exact nomatch h
      · next hkey =>
        obtain rfl := ok.inj h
        unfold EntityId.fromHex at hhex
        split at hhex
        · obtain ⟨bytes, -, hbytes⟩ := Option.bind_eq_some_iff.mp hhex
          exact ⟨(EntityId.named_of_fromBytes hbytes).1, (not_not.mp hkey).symm⟩
        · exact nomatch hhex
  · rintro ⟨hnamed, rfl⟩
    rw [EntityId.fromHex_toHex hnamed]
    simp

variable (id : EntityId)

theorem slash_notMem_toHex : (47 : UInt8) ∉ id.toHex := fun h => by
  rcases EntityId.mem_toHex h with ⟨h, -⟩ | ⟨h, -⟩ <;> exact absurd h (by decide)

/-- What follows `epoch_floor/` names one lineage. -/
theorem epochFloorScope_eq_ok_iff {filed : Bytes} {scope : EpochScope} :
    epochFloorScope filed = .ok scope ↔
      (scope.session.Named ∧ ∀ conversation ∈ scope.conversation, conversation.Named) ∧
        filed = scope.session.toHex ++ scope.conversation.elim [] (47 :: ·.toHex) := by
  obtain ⟨session, conversation⟩ := scope
  unfold epochFloorScope
  constructor
  · intro h
    split at h
    · next before after hsplit =>
      obtain ⟨-, rfl⟩ := splitOnce_eq_some_iff.mp hsplit
      obtain ⟨session', hsession, h⟩ := bind_eq_ok.mp h
      obtain ⟨conversation', hconversation, h⟩ := bind_eq_ok.mp h
      obtain ⟨rfl, rfl⟩ := EpochScope.mk.inj (ok.inj h)
      obtain ⟨hnamed, rfl⟩ := filedUnder_eq_ok_iff.mp hsession
      obtain ⟨hnamed', rfl⟩ := filedUnder_eq_ok_iff.mp hconversation
      exact ⟨⟨hnamed, fun c hc => Option.some.inj hc ▸ hnamed'⟩, rfl⟩
    · obtain ⟨session', hsession, h⟩ := bind_eq_ok.mp h
      obtain ⟨rfl, rfl⟩ := EpochScope.mk.inj (ok.inj h)
      obtain ⟨hnamed, rfl⟩ := filedUnder_eq_ok_iff.mp hsession
      exact ⟨⟨hnamed, fun c hc => absurd hc (Option.not_mem_none c)⟩, (append_nil _).symm⟩
  · rintro ⟨⟨hnamed, hnamed'⟩, rfl⟩
    cases conversation with
    | none =>
      have hnone : splitOnce 47 session.toHex = none :=
        splitOnce_eq_none (slash_notMem_toHex session)
      rw [Option.elim_none, append_nil, hnone]
      exact bind_eq_ok.mpr ⟨session, filedUnder_eq_ok_iff.mpr ⟨hnamed, rfl⟩, rfl⟩
    | some conversation =>
      have hsome : splitOnce 47 (session.toHex ++ 47 :: conversation.toHex) =
          some (session.toHex, conversation.toHex) :=
        splitOnce_eq_some_iff.mpr ⟨slash_notMem_toHex session, rfl⟩
      rw [Option.elim_some, hsome]
      refine bind_eq_ok.mpr ⟨session, filedUnder_eq_ok_iff.mpr ⟨hnamed, rfl⟩, ?_⟩
      exact bind_eq_ok.mpr ⟨conversation, filedUnder_eq_ok_iff.mpr ⟨hnamed' _ rfl, rfl⟩, rfl⟩

/-- An artifact's key is no floor's. -/
theorem not_prefix_toHex : epochFloorPrefix.isPrefixOf id.toHex = false := by
  rw [← Bool.not_eq_true, isPrefixOf_iff_prefix]
  intro hpre
  have hslash : (47 : UInt8) ∈ epochFloorPrefix := by simp [epochFloorPrefix, ascii]
  exact slash_notMem_toHex id (hpre.subset hslash)

/-- **A row is admitted just as it is written**, and nothing else is. -/
theorem admit_eq_ok_iff {mapKey : Bytes} {value : CarriedValue} {row : CarriedCutoff} :
    admitWithdrawnCutoffCarrier mapKey value = .ok row ↔
      row.Named ∧ mapKey = row.key ∧ value = .binary row.value := by
  unfold admitWithdrawnCutoffCarrier
  cases value with
  | other => exact iff_of_false nofun fun h => nomatch h.2.2
  | binary bytes =>
    dsimp only
    split
    · next hprefix =>
      obtain ⟨filed, rfl⟩ := isPrefixOf_iff_prefix.mp hprefix
      constructor
      · intro h
        obtain ⟨scope, hscope, hrow⟩ := bind_eq_ok.mp h
        obtain ⟨hnamed, rfl⟩ := epochFloorScope_eq_ok_iff.mp hscope
        split at hrow
        · exact nomatch hrow
        · next floor hfloor =>
          obtain rfl := ok.inj hrow
          refine ⟨hnamed, ?_, by rw [EpochFloor.decode_eq_some_iff.mp hfloor]; rfl⟩
          rw [CarriedCutoff.key, epochFloorKey, append_assoc]
      · rintro ⟨hnamed, hkey, hvalue⟩
        cases row with
        | withdrawn id cutoff =>
          rw [hkey, CarriedCutoff.key, not_prefix_toHex] at hprefix
          exact nomatch hprefix
        | epochFloor scope floor =>
          rw [CarriedCutoff.key, epochFloorKey, append_assoc, append_cancel_left_eq] at hkey
          refine bind_eq_ok.mpr ⟨scope, epochFloorScope_eq_ok_iff.mpr ⟨hnamed, hkey⟩, ?_⟩
          rw [CarriedValue.binary.inj hvalue, CarriedCutoff.value,
            EpochFloor.decode_eq_some_iff.mpr rfl]
          rfl
    · next hprefix =>
      constructor
      · intro h
        obtain ⟨id, hid, hrow⟩ := bind_eq_ok.mp h
        obtain ⟨hnamed, rfl⟩ := filedUnder_eq_ok_iff.mp hid
        split at hrow
        · exact nomatch hrow
        · next cutoff hcutoff =>
          obtain rfl := ok.inj hrow
          exact ⟨hnamed, rfl, by rw [decode_eq_some_iff.mp hcutoff]; rfl⟩
      · rintro ⟨hnamed, rfl, hvalue⟩
        cases row with
        | withdrawn id cutoff =>
          refine bind_eq_ok.mpr ⟨id, filedUnder_eq_ok_iff.mpr ⟨hnamed, rfl⟩, ?_⟩
          rw [CarriedValue.binary.inj hvalue, CarriedCutoff.value,
            decode_eq_some_iff.mpr rfl]
          rfl
        | epochFloor scope floor =>
          refine absurd ?_ hprefix
          rw [CarriedCutoff.key, epochFloorKey, append_assoc, isPrefixOf_iff_prefix]
          exact prefix_append _ _

/-! ## Mirroring -/

/-- A window, as mirroring reads and writes it. -/
structure WindowDoc where
  /-- The keys its `entities` map holds. -/
  entities : OrderedSet Bytes
  /-- Its `withdrawn_cutoffs` map. -/
  cutoffs : OrderedMap Bytes CarriedValue

/-- `map_get_bytes`. -/
def mapGetBytes (map : OrderedMap Bytes CarriedValue) (key : Bytes) : Option Bytes :=
  match map[key]? with
  | some (.binary bytes) => some bytes
  | _ => none

section Mirror

variable {κ ν ρ : Type} [LinearOrder ρ]

/-- How the rows of one kind are carried. -/
structure RowKind (κ ν ρ : Type) where
  key : κ → Bytes
  encode : ν → Bytes
  decode : Bytes → Option ν
  rank : ν → ρ
  key_injective : Function.Injective key
  decode_encode : ∀ v, decode (encode v) = some v

namespace RowKind

variable (kind : RowKind κ ν ρ) (here : κ → Bool)

/-- The row a window carries under a key, where it decodes. -/
def carried (cutoffs : OrderedMap Bytes CarriedValue) (k : κ) : Option ν :=
  (mapGetBytes cutoffs (kind.key k)).bind kind.decode

/-- Writes one row a window holds the carrier of, where the window carries none as high; and whether
any was written. -/
def mirrorRow (s : WindowDoc × Bool) (p : κ × ν) : WindowDoc × Bool :=
  if here p.1 = false then s
  else if (kind.carried s.1.cutoffs p.1).any (kind.rank p.2 ≤ kind.rank ·) then s
  else ({ s.1 with cutoffs := s.1.cutoffs.insert (kind.key p.1) (.binary (kind.encode p.2)) }, true)

/-- A row that is to be written: the window holds its carrier, and carries none or a lower one. -/
def Due (cutoffs : OrderedMap Bytes CarriedValue) (p : κ × ν) : Prop :=
  here p.1 = true ∧ level kind.rank (kind.carried cutoffs p.1) < kind.rank p.2

instance (cutoffs : OrderedMap Bytes CarriedValue) (p : κ × ν) :
    Decidable (kind.Due here cutoffs p) :=
  inferInstanceAs (Decidable (_ ∧ _))

/-- What a mirror leaves of a window: what is due is written, and nothing else moves. -/
structure Mirrored (due : List (κ × ν)) (s t : WindowDoc × Bool) : Prop where
  entities : t.1.entities = s.1.entities
  each : ∀ p ∈ due, t.1.cutoffs[kind.key p.1]? =
    if kind.Due here s.1.cutoffs p then some (.binary (kind.encode p.2))
    else s.1.cutoffs[kind.key p.1]?
  others : ∀ k : Bytes, (∀ p ∈ due, kind.key p.1 ≠ k) → t.1.cutoffs[k]? = s.1.cutoffs[k]?
  wrote : t.2 = true ↔ s.2 = true ∨ ∃ p ∈ due, kind.Due here s.1.cutoffs p

variable {kind here} {s : WindowDoc × Bool} {p : κ × ν} {due : List (κ × ν)}

theorem any_iff_not_level_lt {held : Option ν} {v : ν} :
    held.any (kind.rank v ≤ kind.rank ·) = true ↔ ¬level kind.rank held < kind.rank v := by
  cases held with
  | none => simp
  | some held => simp [WithBot.coe_lt_coe]

theorem mirrorRow_of_due (h : kind.Due here s.1.cutoffs p) : kind.mirrorRow here s p =
    ({ s.1 with cutoffs := s.1.cutoffs.insert (kind.key p.1) (.binary (kind.encode p.2)) }, true) := by
  rw [mirrorRow, if_neg (by simp [h.1]), if_neg fun hhigh => any_iff_not_level_lt.mp hhigh h.2]

theorem mirrorRow_of_not_due (h : ¬kind.Due here s.1.cutoffs p) : kind.mirrorRow here s p = s := by
  unfold mirrorRow
  split
  · rfl
  · next hhere => rw [if_pos (any_iff_not_level_lt.mpr fun hlt => h ⟨by simpa using hhere, hlt⟩)]

theorem due_congr {cutoffs cutoffs' : OrderedMap Bytes CarriedValue}
    (h : cutoffs[kind.key p.1]? = cutoffs'[kind.key p.1]?) :
    kind.Due here cutoffs p ↔ kind.Due here cutoffs' p := by
  rw [Due, Due, carried, carried, mapGetBytes, mapGetBytes, h]

/-- One row moves its own key and no other. -/
theorem getElem?_mirrorRow (k : Bytes) : (kind.mirrorRow here s p).1.cutoffs[k]? =
    if kind.key p.1 = k ∧ kind.Due here s.1.cutoffs p then some (.binary (kind.encode p.2))
    else s.1.cutoffs[k]? := by
  by_cases hdue : kind.Due here s.1.cutoffs p
  · rw [mirrorRow_of_due hdue]
    simp only [ExtTreeMap.getElem?_insert, LawfulEqCmp.compare_eq_iff_eq, hdue, and_true]
  · rw [mirrorRow_of_not_due hdue, if_neg fun h => hdue h.2]

/-- **A mirror of rows under keys of their own** writes just what is due. -/
theorem mirrored_foldl (hnodup : (due.map Prod.fst).Nodup) :
    kind.Mirrored here due s (due.foldl (kind.mirrorRow here) s) := by
  induction due generalizing s with
  | nil => exact ⟨rfl, nofun, fun _ _ => rfl, by simp⟩
  | cons p due ih =>
    rw [map_cons, nodup_cons] at hnodup
    obtain ⟨hnotin, hnodup⟩ := hnodup
    have hapart : ∀ q ∈ due, kind.key p.1 ≠ kind.key q.1 := fun q hq heq =>
      hnotin (kind.key_injective heq ▸ mem_map_of_mem hq)
    have hrest := ih (s := kind.mirrorRow here s p) hnodup
    have hsame : ∀ q ∈ due, (kind.mirrorRow here s p).1.cutoffs[kind.key q.1]? =
        s.1.cutoffs[kind.key q.1]? := fun q hq => by
      rw [getElem?_mirrorRow, if_neg fun h => hapart q hq h.1]
    rw [foldl_cons]
    refine ⟨?_, fun q hq => ?_, fun k hk => ?_, ?_⟩
    · rw [hrest.entities]
      by_cases hdue : kind.Due here s.1.cutoffs p
      · rw [mirrorRow_of_due hdue]
      · rw [mirrorRow_of_not_due hdue]
    · rcases mem_cons.mp hq with rfl | hq
      · rw [hrest.others _ fun q' hq' heq => hapart q' hq' heq.symm, getElem?_mirrorRow]
        simp only [true_and]
      · rw [hrest.each q hq, hsame q hq]
        simp only [due_congr (hsame q hq)]
    · rw [hrest.others k fun q hq => hk q (mem_cons_of_mem _ hq), getElem?_mirrorRow,
        if_neg fun h => hk p mem_cons_self h.1]
    · have hflag : (kind.mirrorRow here s p).2 = true ↔
          s.2 = true ∨ kind.Due here s.1.cutoffs p := by
        by_cases hdue : kind.Due here s.1.cutoffs p
        · simp [mirrorRow_of_due hdue, hdue]
        · simp [mirrorRow_of_not_due hdue, hdue]
      rw [hrest.wrote, hflag, exists_mem_cons_iff, or_assoc]
      refine or_congr_right (or_congr_right (exists_congr fun q => and_congr_right fun hq => ?_))
      exact due_congr (hsame q hq)

/-- A mirror of rows none of which is due writes nothing. -/
theorem foldl_mirrorRow_of_not_due {doc : WindowDoc}
    (h : ∀ p ∈ due, ¬kind.Due here doc.cutoffs p) :
    due.foldl (kind.mirrorRow here) (doc, false) = (doc, false) := by
  induction due with
  | nil => rfl
  | cons p due ih =>
    have hstays : kind.mirrorRow here (doc, false) p = (doc, false) :=
      mirrorRow_of_not_due (h p mem_cons_self)
    rw [foldl_cons, hstays]
    exact ih fun q hq => h q (mem_cons_of_mem _ hq)

variable {t : WindowDoc × Bool}

/-- **A mirror done is done**: nothing is due of what it left. -/
theorem Mirrored.not_due (h : kind.Mirrored here due s t) (hp : p ∈ due) :
    ¬kind.Due here t.1.cutoffs p := by
  intro hdue
  have hrow := h.each p hp
  split at hrow
  · have hlow := hdue.2
    rw [carried, mapGetBytes, hrow, Option.bind_some, kind.decode_encode, level_some] at hlow
    exact lt_irrefl _ hlow
  · next hnot => exact hnot ((due_congr hrow).mp hdue)

/-- **A mirror lowers no row.** -/
theorem Mirrored.level_le (h : kind.Mirrored here due s t) (k : κ) :
    level kind.rank (kind.carried s.1.cutoffs k) ≤ level kind.rank (kind.carried t.1.cutoffs k) := by
  by_cases hk : ∃ p ∈ due, p.1 = k
  · obtain ⟨p, hp, rfl⟩ := hk
    have hrow := h.each p hp
    by_cases hdue : kind.Due here s.1.cutoffs p
    · rw [if_pos hdue] at hrow
      rw [carried, carried, mapGetBytes, mapGetBytes, hrow, Option.bind_some, kind.decode_encode]
      exact hdue.2.le
    · rw [if_neg hdue] at hrow
      rw [carried, carried, mapGetBytes, mapGetBytes, hrow]
  · have hrow := h.others (kind.key k) fun p hp heq => hk ⟨p, hp, kind.key_injective heq⟩
    rw [carried, carried, mapGetBytes, mapGetBytes, hrow]

section Map

variable [Ord κ] [TransOrd κ] [LawfulEqOrd κ]

/-- A mirror of a map's rows. -/
def mirrorMap (kind : RowKind κ ν ρ) (here : κ → Bool) (doc : WindowDoc) (m : OrderedMap κ ν) :
    WindowDoc × Bool :=
  if m.isEmpty then (doc, false) else m.toList.foldl (kind.mirrorRow here) (doc, false)

variable (doc : WindowDoc) (m : OrderedMap κ ν)

omit [LawfulEqOrd κ] in
theorem mirrorMap_eq :
    kind.mirrorMap here doc m = m.toList.foldl (kind.mirrorRow here) (doc, false) := by
  unfold mirrorMap
  split
  · next hempty =>
    rw [List.isEmpty_iff.mp (ExtTreeMap.isEmpty_toList.trans hempty), foldl_nil]
  · rfl

/-- **A mirror of a map's rows** writes just what is due. -/
theorem mirrorMap_mirrored :
    kind.Mirrored here m.toList (doc, false) (kind.mirrorMap here doc m) := by
  rw [mirrorMap_eq]
  refine mirrored_foldl (pairwise_map.mpr ?_)
  refine m.distinct_keys_toList.imp fun hne heq => hne ?_
  exact LawfulEqCmp.compare_eq_iff_eq.mpr heq

end Map

end RowKind

end Mirror

theorem epochFloorKey_injective : Function.Injective epochFloorKey := by
  rintro ⟨session, conversation⟩ ⟨session', conversation'⟩ h
  rw [epochFloorKey, epochFloorKey, append_assoc, append_assoc,
    append_cancel_left_eq] at h
  obtain ⟨hsession, hconversation⟩ := append_inj h (by simp)
  refine EpochScope.ext (EntityId.toHex_injective hsession) ?_
  match conversation, conversation' with
  | none, none => rfl
  | some c, some c' => exact congrArg some (EntityId.toHex_injective (cons.inj hconversation).2)
  | none, some c' | some c, none => exact nomatch hconversation

/-- How cutoffs are carried. -/
def withdrawnRows : RowKind EntityId WithdrawnCutoff ℕ where
  key := EntityId.toHex
  encode := encode
  decode := decode
  rank := rank
  key_injective := EntityId.toHex_injective
  decode_encode _ := decode_eq_some_iff.mpr rfl

/-- How floors are carried. -/
def epochFloorRows : RowKind EpochScope EpochFloor (ℕ ×ₗ ℕ) where
  key := epochFloorKey
  encode := EpochFloor.encode
  decode := EpochFloor.decode
  rank := EpochFloor.position
  key_injective := epochFloorKey_injective
  decode_encode _ := EpochFloor.decode_eq_some_iff.mpr rfl

namespace WindowDoc

variable (doc : WindowDoc)

/-- Whether a window holds the carrier of an artifact. -/
def carriesArtifact (id : EntityId) : Bool := doc.entities.contains id.toHex

/-- Whether a window holds the carrier of a lineage's session or conversation. -/
def carriesLineage (scope : EpochScope) : Bool :=
  (scope.session :: scope.conversation.toList).any (doc.entities.contains ·.toHex)

/-- `mirror_withdrawn_cutoffs`, and whether it wrote. -/
def mirrorWithdrawnCutoffs (cutoffs : OrderedMap EntityId WithdrawnCutoff) : WindowDoc × Bool :=
  withdrawnRows.mirrorMap doc.carriesArtifact doc cutoffs

/-- `mirror_epoch_floors`, of the floors a vault holds, and whether it wrote. -/
def mirrorEpochFloors (floors : OrderedMap EpochScope EpochFloor) : WindowDoc × Bool :=
  epochFloorRows.mirrorMap doc.carriesLineage doc floors

/-- Both mirrors, as `scrub_withdrawn_generation_carriers` runs them, and whether either wrote. -/
def mirrorCutoffs (cutoffs : OrderedMap EntityId WithdrawnCutoff)
    (floors : OrderedMap EpochScope EpochFloor) : WindowDoc × Bool :=
  let mirrored := doc.mirrorWithdrawnCutoffs cutoffs
  let floored := mirrored.1.mirrorEpochFloors floors
  (floored.1, floored.2 || mirrored.2)

/-- **Both mirrors done are done**: a floor's key is no artifact's, so neither undoes the other. -/
theorem mirrorCutoffs_again (cutoffs : OrderedMap EntityId WithdrawnCutoff)
    (floors : OrderedMap EpochScope EpochFloor) :
    (doc.mirrorCutoffs cutoffs floors).1.mirrorCutoffs cutoffs floors =
      ((doc.mirrorCutoffs cutoffs floors).1, false) := by
  let doc₁ := (doc.mirrorWithdrawnCutoffs cutoffs).1
  let doc₂ := (doc₁.mirrorEpochFloors floors).1
  have hcutoffs : withdrawnRows.Mirrored doc.carriesArtifact cutoffs.toList (doc, false)
      (doc.mirrorWithdrawnCutoffs cutoffs) := RowKind.mirrorMap_mirrored doc cutoffs
  have hfloors : epochFloorRows.Mirrored doc₁.carriesLineage floors.toList (doc₁, false)
      (doc₁.mirrorEpochFloors floors) := RowKind.mirrorMap_mirrored doc₁ floors
  have hentities₁ : doc₁.entities = doc.entities := hcutoffs.entities
  have hentities₂ : doc₂.entities = doc₁.entities := hfloors.entities
  have hartifact : doc₂.carriesArtifact = doc.carriesArtifact := by
    funext id
    rw [carriesArtifact, carriesArtifact, hentities₂, hentities₁]
  have hlineage : doc₂.carriesLineage = doc₁.carriesLineage := by
    funext scope
    rw [carriesLineage, carriesLineage, hentities₂]
  have hfirst : doc₂.mirrorWithdrawnCutoffs cutoffs = (doc₂, false) := by
    rw [mirrorWithdrawnCutoffs, RowKind.mirrorMap_eq, hartifact]
    refine RowKind.foldl_mirrorRow_of_not_due fun p hp hdue => hcutoffs.not_due hp ?_
    refine (RowKind.due_congr ?_).mp hdue
    refine hfloors.others _ fun q _ heq => ?_
    have hprefix := not_prefix_toHex p.1
    rw [show p.1.toHex = epochFloorKey q.1 from heq.symm, epochFloorKey, append_assoc,
      ← Bool.not_eq_true, isPrefixOf_iff_prefix] at hprefix
    exact hprefix (prefix_append _ _)
  have hsecond : doc₂.mirrorEpochFloors floors = (doc₂, false) := by
    rw [mirrorEpochFloors, RowKind.mirrorMap_eq, hlineage]
    exact RowKind.foldl_mirrorRow_of_not_due fun p hp => hfloors.not_due hp
  change doc₂.mirrorCutoffs cutoffs floors = (doc₂, false)
  rw [mirrorCutoffs, hfirst]
  rw [hsecond]
  rfl

end WindowDoc

end Oneiron
