import Mathlib.Data.Finset.Sort
import Oneiron.Authority.Scope

/-!
# Authority/PactScope — what each side of a pact shares with the other

A direction's scope is three axes: worlds, facets and type-byte bands.  A band is a classification or
one family within it, so a set naming every family of a classification covers the classification.
-/

namespace Oneiron

section Scopes

open Std

/-! ## Bands -/

/-- `EntityClassification`, as far as families have one. -/
inductive EntityClassification where
  | core | maintenance | pack
  deriving DecidableEq

inductive TypeByteFamily where
  | conversation | people | world | content | agentsAndSurfacing | coreOverflow
  | authorityPolicyCustody | auditObservability | outboundCommunicationConsent | registriesDerived
  | productivity | code | documents | companion | packOverflow
  deriving DecidableEq

namespace TypeByteFamily

/-- The families of `TYPE_BYTE_FAMILIES`, in its order. -/
def typeByteFamilies : List TypeByteFamily :=
  [conversation, people, world, content, agentsAndSurfacing, coreOverflow, authorityPolicyCustody,
    auditObservability, outboundCommunicationConsent, registriesDerived, productivity, code,
    documents, companion, packOverflow]

theorem mem_typeByteFamilies (f : TypeByteFamily) : f ∈ typeByteFamilies := by cases f <;> decide

/-- Classification of the kinds in a family, independent of their bytes. -/
def classification : TypeByteFamily → EntityClassification
  | conversation | people | world | content | agentsAndSurfacing | coreOverflow => .core
  | authorityPolicyCustody | auditObservability | outboundCommunicationConsent
  | registriesDerived => .maintenance
  | productivity | code | documents | companion | packOverflow => .pack

end TypeByteFamily

/-- A classification or one family within it. -/
inductive SelectorRange where
  | semantic
  | core
  | maintenance
  | family (family : TypeByteFamily)
  deriving DecidableEq

namespace SelectorRange

/-- The place of a range in its derived order. -/
def ordinal : SelectorRange → ℕ
  | semantic => 0
  | core => 1
  | maintenance => 2
  | family f => 3 + f.ctorIdx

theorem ordinal_injective : Function.Injective ordinal := by
  rintro (_ | _ | _ | f) (_ | _ | _ | g) h <;> simp only [ordinal] at h <;> first | rfl | omega | skip
  revert h
  cases f <;> cases g <;> decide

instance : Ord SelectorRange := ⟨compareOn ordinal⟩

instance : TransOrd SelectorRange := inferInstanceAs (TransCmp (compareOn ordinal))

instance : LawfulEqOrd SelectorRange where
  compare_self {range} := (ReflOrd.compare_self : compare range.ordinal range.ordinal = .eq)
  eq_of_compare {a b} h :=
    ordinal_injective (LawfulEqOrd.eq_of_compare (show compare a.ordinal b.ordinal = .eq from h))

/-- Whether a range includes another.  Families are disjoint; a classification is their union. -/
def includes (range other : SelectorRange) : Bool :=
  range = other ||
    match range, other with
    | core, family f => f.classification = .core
    | maintenance, family f => f.classification = .maintenance
    | _, _ => false

/-- Removes the ranges another one already includes. -/
def normalize (bands : Finset SelectorRange) : Finset SelectorRange :=
  bands.filter fun band => ¬∃ wide ∈ bands, wide ≠ band ∧ wide.includes band

/-- The classification a range is the whole of. -/
def wholeOf : SelectorRange → Option EntityClassification
  | core => some .core
  | maintenance => some .maintenance
  | semantic | family _ => none

/-- A range is covered by one that includes it, or, when it is a whole classification, by ranges that
include its every family. -/
def coveredBy (range : SelectorRange) (wide : Finset SelectorRange) : Bool :=
  (∃ band ∈ wide, band.includes range) ||
    match range.wholeOf with
    | none => false
    | some classification =>
      (TypeByteFamily.typeByteFamilies.filter (·.classification = classification)).all fun f =>
        ∃ band ∈ wide, band.includes (family f)

/-- The ranges nothing nests in. -/
def IsAtom : SelectorRange → Prop
  | semantic | family _ => True
  | core | maintenance => False

variable (range : SelectorRange)

theorem includes_self : range.includes range := by simp [includes]

theorem includes_trans {a b c : SelectorRange} (h : a.includes b) (h' : b.includes c) :
    a.includes c := by
  rcases a with _ | _ | _ | f <;> rcases b with _ | _ | _ | g <;> rcases c with _ | _ | _ | k <;>
    simp_all [includes]

theorem exists_atom : ∃ atom, IsAtom atom ∧ range.includes atom := by
  match range with
  | semantic => exact ⟨semantic, trivial, rfl⟩
  | core => exact ⟨family .conversation, trivial, rfl⟩
  | maintenance => exact ⟨family .auditObservability, trivial, rfl⟩
  | family f => exact ⟨family f, trivial, includes_self _⟩

/-- **A range is covered exactly when each atom of it is included.** -/
theorem coveredBy_iff {range : SelectorRange} {wide : Finset SelectorRange} :
    range.coveredBy wide ↔
      ∀ atom, IsAtom atom → range.includes atom → ∃ band ∈ wide, band.includes atom := by
  simp only [coveredBy, Bool.or_eq_true, decide_eq_true_eq]
  constructor
  · rintro (⟨band, hband, hin⟩ | h) atom hatom hrange
    · exact ⟨band, hband, includes_trans hin hrange⟩
    · match range, atom with
      | core, family f | maintenance, family f =>
        simp only [wholeOf, List.all_eq_true, List.mem_filter, decide_eq_true_eq] at h
        exact h f ⟨f.mem_typeByteFamilies, by simpa [includes] using hrange⟩
      | semantic, _ | family _, _ => simp [wholeOf] at h
      | core, semantic | maintenance, semantic => simp [includes] at hrange
  · intro h
    match range with
    | semantic => exact .inl (h semantic trivial (includes_self _))
    | family f => exact .inl (h (family f) trivial (includes_self _))
    | core | maintenance =>
      refine .inr ?_
      simp only [wholeOf, List.all_eq_true, List.mem_filter, decide_eq_true_eq]
      exact fun f hf => h (family f) trivial (by simp [includes, hf.2])

instance : ScopeAtom SelectorRange where
  includes := includes
  coveredBy := coveredBy
  includes_self := includes_self
  covered_of_includes hband hin :=
    coveredBy_iff.mpr fun _ _ hrange => ⟨_, hband, includes_trans hin hrange⟩
  covered_trans h hmid := coveredBy_iff.mpr fun atom hatom hrange => by
    obtain ⟨band, hband, hin⟩ := coveredBy_iff.mp h atom hatom hrange
    exact coveredBy_iff.mp (hmid band hband) atom hatom hin
  not_covered_empty range := by
    rw [← Bool.not_eq_true, coveredBy_iff]
    intro h
    obtain ⟨atom, hatom, hin⟩ := range.exists_atom
    simpa using h atom hatom hin

end SelectorRange

/-! ## Scopes -/

/-- One direction of a pact's scope. -/
structure FederationDirectionScope where
  worlds : ScopeAxis EntityId
  facets : ScopeAxis EntityId
  bands : ScopeAxis SelectorRange
  deriving DecidableEq

namespace FederationDirectionScope

def narrows (scope ceiling : FederationDirectionScope) : Bool :=
  scope.worlds.isNarrowingOf ceiling.worlds && scope.facets.isNarrowingOf ceiling.facets &&
    scope.bands.isNarrowingOf ceiling.bands

/-- The meet, axis by axis. -/
def intersect (scope other : FederationDirectionScope) : FederationDirectionScope where
  worlds := scope.worlds.meet other.worlds
  facets := scope.facets.meet other.facets
  bands := scope.bands.meet other.bands

/-- `bottom_direction_scope`: shares nothing. -/
def bottom : FederationDirectionScope := ⟨.bottom, .bottom, .bottom⟩

variable {a b c : FederationDirectionScope}

theorem narrows_refl (a : FederationDirectionScope) : a.narrows a := by
  simp [narrows, ScopeAxis.isNarrowingOf_refl]

theorem narrows_trans (h : a.narrows b) (h' : b.narrows c) : a.narrows c := by
  simp only [narrows, Bool.and_eq_true] at h h' ⊢
  obtain ⟨⟨hw, hf⟩, hb⟩ := h
  obtain ⟨⟨hw', hf'⟩, hb'⟩ := h'
  exact ⟨⟨ScopeAxis.isNarrowingOf_trans hw hw', ScopeAxis.isNarrowingOf_trans hf hf'⟩,
    ScopeAxis.isNarrowingOf_trans hb hb'⟩

/-- **A meet of scopes narrows both.** -/
theorem intersect_narrows (a b : FederationDirectionScope) :
    (a.intersect b).narrows a ∧ (a.intersect b).narrows b := by
  obtain ⟨hw, hw'⟩ := ScopeAxis.meet_isNarrowingOf a.worlds b.worlds
  obtain ⟨hf, hf'⟩ := ScopeAxis.meet_isNarrowingOf a.facets b.facets
  obtain ⟨hb, hb'⟩ := ScopeAxis.meet_isNarrowingOf a.bands b.bands
  simp [narrows, intersect, hw, hf, hb, hw', hf', hb']

/-- A scope met with one after another narrows the first and each of them. -/
theorem foldl_intersect_narrows (scopes : List FederationDirectionScope)
    (ceiling : FederationDirectionScope) :
    (scopes.foldl intersect ceiling).narrows ceiling ∧
      ∀ scope ∈ scopes, (scopes.foldl intersect ceiling).narrows scope := by
  induction scopes generalizing ceiling with
  | nil => exact ⟨narrows_refl _, by simp⟩
  | cons scope scopes ih =>
    obtain ⟨hceiling, heach⟩ := ih (ceiling.intersect scope)
    obtain ⟨hleft, hright⟩ := intersect_narrows ceiling scope
    exact ⟨narrows_trans hceiling hleft,
      List.forall_mem_cons.mpr ⟨narrows_trans hceiling hright, heach⟩⟩

end FederationDirectionScope

/-- Both directions: what the vault of the lower id shares with the other, and back. -/
structure FederationPactScope where
  loToHi : FederationDirectionScope
  hiToLo : FederationDirectionScope
  deriving DecidableEq

end Scopes

/-! ## The one spelling of a pact's scope

A scope's canonical value is a map of fixed keys, so it is carried here as what stands under them.
Two scopes spelled alike are one scope (`encode_injective`): each axis is legible, and every member,
hex id or band name, is spelled its own way.
-/

section Values

open Std

/-- The value of an axis: a kind, and the members under `ids` when the kind is a set's. -/
structure AxisValue where
  kind : Bytes
  ids : Option (List Bytes)
  deriving DecidableEq

structure DirectionScopeValue where
  worlds : AxisValue
  facets : AxisValue
  bands : AxisValue
  deriving DecidableEq

structure PactScopeValue where
  schemaVersion : ℕ
  loToHi : DirectionScopeValue
  hiToLo : DirectionScopeValue
  deriving DecidableEq

/-- `FEDERATION_PACT_SCOPE_SCHEMA_VERSION`. -/
def federationPactScopeSchemaVersion : ℕ := 2

/-- How one axis spells its lattice points. -/
structure AxisSpelling (α : Type*) where
  /-- Kind of a named set. -/
  setKind : Bytes
  /-- A point with a kind of its own. -/
  namedPoint : Option (Bytes × ScopeAxis α)
  encodeMember : α → Bytes
  /-- The axis's own rule on a named set that is not empty. -/
  admitsSet : Finset α → Bool

section Axis

variable {α : Type*} [Ord α] [TransOrd α] [LawfulEqOrd α] [DecidableEq α]

local instance increasing_trans : IsTrans α fun a b => (compare a b).isLE := ⟨fun _ _ _ => TransCmp.isLE_trans⟩

local instance increasing_antisymm : Std.Antisymm fun a b : α => (compare a b).isLE :=
  ⟨fun _ _ h h' => LawfulEqOrd.eq_of_compare (OrientedCmp.isLE_antisymm h h')⟩

local instance increasing_total : Std.Total fun a b : α => (compare a b).isLE := ⟨fun a b => by
  rcases h : compare a b with _ | _ | _ <;> simp [OrientedCmp.eq_swap (a := b), h]⟩

/-- A set's members in increasing order. -/
def increasing (values : Finset α) : List α := values.sort fun a b => (compare a b).isLE

omit [DecidableEq α] in
theorem increasing_injective : Function.Injective (increasing (α := α)) := fun a b h => by
  ext x
  have hmem (s : Finset α) : x ∈ increasing s ↔ x ∈ s := Finset.mem_sort _
  rw [← hmem a, h, hmem b]

/-- The value of a point with no kind of its own. -/
def pointValue (spelling : AxisSpelling α) : ScopeAxis α → AxisValue
  | .all => ⟨ascii "all", none⟩
  | .bottom => ⟨ascii "bottom", none⟩
  | .some values => ⟨spelling.setKind, some ((increasing values).map spelling.encodeMember)⟩

def axisValue (spelling : AxisSpelling α) (axis : ScopeAxis α) : AxisValue :=
  match spelling.namedPoint.filter fun named => axis = named.2 with
  | some named => ⟨named.1, none⟩
  | none => pointValue spelling axis

def validateAxis (spelling : AxisSpelling α) : ScopeAxis α → Bool
  | .all | .bottom => true
  | .some values => values ≠ ∅ && spelling.admitsSet values

/-- A spelling no two points share. -/
structure AxisSpelling.Legible (spelling : AxisSpelling α) : Prop where
  members : Function.Injective spelling.encodeMember
  named : ∀ named ∈ spelling.namedPoint, named.1 ≠ ascii "all" ∧ named.1 ≠ ascii "bottom"

variable {spelling : AxisSpelling α}

omit [DecidableEq α] in
theorem pointValue_injective (h : spelling.Legible) : Function.Injective (pointValue spelling) := by
  have hne : ascii "all" ≠ ascii "bottom" := by decide
  intro a b heq
  cases a <;> cases b <;> simp only [pointValue, AxisValue.mk.injEq, Option.some.injEq] at heq
  case all.bottom => exact absurd heq.1 hne
  case bottom.all => exact absurd heq.1.symm hne
  case some.some => rw [increasing_injective (h.members.list_map heq.2)]
  all_goals simp_all

omit [DecidableEq α] in
theorem pointValue_ne_named (h : spelling.Legible) {named : Bytes × ScopeAxis α}
    (hnamed : named ∈ spelling.namedPoint) (axis : ScopeAxis α) :
    pointValue spelling axis ≠ ⟨named.1, none⟩ := by
  obtain ⟨hall, hbottom⟩ := h.named named hnamed
  cases axis <;> simp [pointValue, hall.symm, hbottom.symm]

/-- **An axis is legible**: no two points are spelled alike. -/
theorem axisValue_injective (h : spelling.Legible) : Function.Injective (axisValue spelling) := by
  intro a b heq
  unfold axisValue at heq
  split at heq
  · next named hnamed =>
    obtain ⟨hmem, ha⟩ := Option.filter_eq_some_iff.mp hnamed
    split at heq
    · next named' hnamed' =>
      obtain ⟨hmem', hb⟩ := Option.filter_eq_some_iff.mp hnamed'
      obtain rfl : named = named' := Option.some.inj (hmem.symm.trans hmem')
      rw [of_decide_eq_true ha, of_decide_eq_true hb]
    · exact absurd heq.symm (pointValue_ne_named h hmem b)
  · split at heq
    · next named' hnamed' =>
      exact absurd heq (pointValue_ne_named h (Option.filter_eq_some_iff.mp hnamed').1 a)
    · exact pointValue_injective h heq

end Axis

/-- `base_world_id`. -/
def baseWorldId : EntityId := ⟨List.replicate 15 0 ++ [1], by decide⟩

/-- `is_foreign_world_id_range`. -/
def isForeignWorldIdRange (id : EntityId) : Bool := id.asBytes.head?.any (0xF0 ≤ ·)

/-- `WORLDS`: a set of the base world alone is written `base`. -/
def worldsSpelling : AxisSpelling EntityId where
  setKind := ascii "worlds"
  namedPoint := some (ascii "base", .some {baseWorldId})
  encodeMember := EntityId.toHex
  admitsSet ids := ¬∃ id ∈ ids, isForeignWorldIdRange id

/-- `FACETS`. -/
def facetsSpelling : AxisSpelling EntityId where
  setKind := ascii "some"
  namedPoint := none
  encodeMember := EntityId.toHex
  admitsSet _ := true

/-- The spelling of a range. -/
def SelectorRange.wireName : SelectorRange → Bytes
  | semantic => ascii "semantic"
  | core => ascii "core"
  | maintenance => ascii "maintenance"
  | family .conversation => ascii "core/conversation"
  | family .people => ascii "core/people"
  | family .world => ascii "core/world"
  | family .content => ascii "core/content"
  | family .agentsAndSurfacing => ascii "core/agents_and_surfacing"
  | family .coreOverflow => ascii "core/core_overflow"
  | family .authorityPolicyCustody => ascii "maintenance/authority_policy_custody"
  | family .auditObservability => ascii "maintenance/audit_observability"
  | family .outboundCommunicationConsent => ascii "maintenance/outbound_communication_consent"
  | family .registriesDerived => ascii "maintenance/registries_derived"
  | family .productivity => ascii "pack/productivity"
  | family .code => ascii "pack/code"
  | family .documents => ascii "pack/documents"
  | family .companion => ascii "pack/companion"
  | family .packOverflow => ascii "pack/pack_overflow"

/-- `BANDS`: no named band is one another named band already includes. -/
def bandsSpelling : AxisSpelling SelectorRange where
  setKind := ascii "some"
  namedPoint := none
  encodeMember := SelectorRange.wireName
  admitsSet bands := (SelectorRange.normalize bands).card = bands.card

theorem wireName_injective : Function.Injective SelectorRange.wireName := by
  have hnodup : ((.semantic :: .core :: .maintenance ::
      TypeByteFamily.typeByteFamilies.map .family).map SelectorRange.wireName).Nodup := by decide +kernel
  intro a b h
  refine List.inj_on_of_nodup_map hnodup ?_ ?_ h
  · rcases a with _ | _ | _ | f <;> simp [TypeByteFamily.mem_typeByteFamilies]
  · rcases b with _ | _ | _ | f <;> simp [TypeByteFamily.mem_typeByteFamilies]

theorem worldsSpelling_legible : worldsSpelling.Legible :=
  ⟨EntityId.toHex_injective, by simp [worldsSpelling]; decide⟩

theorem facetsSpelling_legible : facetsSpelling.Legible :=
  ⟨EntityId.toHex_injective, by simp [facetsSpelling]⟩

theorem bandsSpelling_legible : bandsSpelling.Legible :=
  ⟨wireName_injective, by simp [bandsSpelling]⟩

namespace FederationDirectionScope

def validate (scope : FederationDirectionScope) : Bool :=
  validateAxis worldsSpelling scope.worlds && validateAxis facetsSpelling scope.facets &&
    validateAxis bandsSpelling scope.bands

/-- `federation_direction_scope_value`. -/
def value (scope : FederationDirectionScope) : DirectionScopeValue where
  worlds := axisValue worldsSpelling scope.worlds
  facets := axisValue facetsSpelling scope.facets
  bands := axisValue bandsSpelling scope.bands

theorem value_injective : Function.Injective value := by
  rintro ⟨w, f, b⟩ ⟨w', f', b'⟩ h
  simp only [value, DirectionScopeValue.mk.injEq] at h
  obtain ⟨hw, hf, hb⟩ := h
  rw [axisValue_injective worldsSpelling_legible hw, axisValue_injective facetsSpelling_legible hf,
    axisValue_injective bandsSpelling_legible hb]

end FederationDirectionScope

namespace FederationPactScope

def validate (scope : FederationPactScope) : Bool := scope.loToHi.validate && scope.hiToLo.validate

/-- `federation_pact_scope_value`. -/
def value (scope : FederationPactScope) : PactScopeValue where
  schemaVersion := federationPactScopeSchemaVersion
  loToHi := scope.loToHi.value
  hiToLo := scope.hiToLo.value

/-- `encode_federation_pact_scope`, given how MessagePack writes a value. -/
def encode (writeValue : PactScopeValue → Option Bytes) (scope : FederationPactScope) :
    Option Bytes :=
  if scope.validate then writeValue scope.value else none

/-- **No two scopes are spelled alike**, when no two values are written alike. -/
theorem encode_injective {writeValue : PactScopeValue → Option Bytes}
    (hwrite : ∀ v w bytes, writeValue v = some bytes → writeValue w = some bytes → v = w)
    {scope other : FederationPactScope} {bytes : Bytes} (h : scope.encode writeValue = some bytes)
    (h' : other.encode writeValue = some bytes) : scope = other := by
  unfold encode at h h'
  split at h
  · split at h'
    · obtain ⟨lo, hi⟩ := scope
      have hvalue := hwrite _ _ _ h h'
      simp only [value, PactScopeValue.mk.injEq, true_and] at hvalue
      rw [FederationDirectionScope.value_injective hvalue.1,
        FederationDirectionScope.value_injective hvalue.2]
    · cases h'
  · cases h

end FederationPactScope

end Values

end Oneiron
