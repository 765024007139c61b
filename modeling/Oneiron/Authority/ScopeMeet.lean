import Oneiron.Authority.PactScope
import Oneiron.Foundations.Merging

/-!
# Authority/ScopeMeet — the meet of two scopes is the widest scope that narrows both

    a axis  =  the atoms it covers            a ⊓ b  =  the atoms both cover

The members of an axis form a laminar family: of two that share an atom, one includes the other.  So
the narrower member of every such pair keeps each shared atom, and dropping a member another kept one
includes loses none (`covered_meet`).
-/

namespace Oneiron

open ScopeAtom Finset

universe u

/-- Members in a laminar family over atoms. -/
class LaminarAtom (α : Type u) [DecidableEq α] [ScopeAtom α] where
  /-- A member nothing else nests in. -/
  IsAtom : α → Prop
  includes_trans : ∀ {a b c : α}, includes a b → includes b c →
    includes a c
  includes_antisymm : ∀ {a b : α}, includes a b → includes b a → a = b
  laminar : ∀ {a b x : α}, includes a x → includes b x →
    includes a b ∨ includes b a
  covered_iff : ∀ {a : α} {wide : Finset α}, coveredBy a wide ↔
    ∀ x, IsAtom x → includes a x → ∃ w ∈ wide, includes w x

/-- Members that nest in nothing but themselves are all atoms. -/
@[reducible] def LaminarAtom.plain {α : Type u} [DecidableEq α] :
    @LaminarAtom α _ plain :=
  letI : ScopeAtom α := ScopeAtom.plain
  { IsAtom := fun _ => True
    includes_trans := fun h h' => by
      rw [of_decide_eq_true h]
      exact h'
    includes_antisymm := fun h _ => of_decide_eq_true h
    laminar := fun h h' => by
      rw [of_decide_eq_true h, of_decide_eq_true h']
      exact .inl (ScopeAtom.includes_self _)
    covered_iff := fun {a wide} => by
      show decide (a ∈ wide) = true ↔ _
      rw [decide_eq_true_eq]
      constructor
      · intro h x _ hx
        exact ⟨a, h, hx⟩
      · intro h
        obtain ⟨w, hw, hin⟩ := h a trivial (includes_self a)
        exact of_decide_eq_true hin ▸ hw }

instance : LaminarAtom EntityId := .plain

instance : LaminarAtom UInt8 := .plain

instance : LaminarAtom Bytes := .plain

instance : LaminarAtom SelectorRange where
  IsAtom := SelectorRange.IsAtom
  includes_trans := SelectorRange.includes_trans
  includes_antisymm {a b} h h' := by
    change SelectorRange.includes a b = true at h
    change SelectorRange.includes b a = true at h'
    rcases a with _ | _ | _ | f <;> rcases b with _ | _ | _ | g <;>
      simp_all [SelectorRange.includes]
  laminar {a b x} h h' := by
    change SelectorRange.includes a x = true at h
    change SelectorRange.includes b x = true at h'
    show SelectorRange.includes a b = true ∨ SelectorRange.includes b a = true
    rcases a with _ | _ | _ | f <;> rcases b with _ | _ | _ | g <;> rcases x with _ | _ | _ | k <;>
      simp_all [SelectorRange.includes]
  covered_iff := SelectorRange.coveredBy_iff

namespace ScopeAxis

open LaminarAtom

variable {α : Type u} [DecidableEq α]

/-- The kinds of pairs a meet tells apart. -/
theorem meet_cases (a b : ScopeAxis α) : (a.isBottom ∨ b.isBottom) ∨
    (a = all ∧ b.isBottom = false) ∨ (b = all ∧ a.isBottom = false) ∨
      ∃ s t, a = some s ∧ b = some t ∧ a.isBottom = false ∧ b.isBottom = false := by
  cases ha : a.isBottom with
  | true => exact .inl (.inl rfl)
  | false =>
    cases hb : b.isBottom with
    | true => exact .inl (.inr rfl)
    | false =>
      refine .inr ?_
      match a, b with
      | bottom, _ => exact nomatch ha
      | _, bottom => exact nomatch hb
      | all, _ => exact .inl ⟨rfl, rfl⟩
      | _, all => exact .inr (.inl ⟨rfl, rfl⟩)
      | some s, some t => exact .inr (.inr ⟨s, t, rfl, rfl, rfl, rfl⟩)

variable [ScopeAtom α] {a b c : ScopeAxis α} {s t kept : Finset α} {x : α}

/-- The members no other one of the set includes. -/
def widest (kept : Finset α) : Finset α :=
  kept.filter fun value => ¬∃ w ∈ kept, w ≠ value ∧ includes w value

theorem contains_of_isBottom (h : a.isBottom) : a.contains x = false := by
  match a with
  | bottom => rfl
  | some s =>
    obtain rfl : s = ∅ := by simpa [isBottom] using h
    exact not_covered_empty x

theorem contains_ofValues : (ofValues s).contains x = coveredBy x s := by
  unfold ofValues
  split
  · next h => exact (h ▸ not_covered_empty x).symm
  · rfl

theorem isNarrowingOf_ofValues_iff : (some s).isNarrowingOf (ofValues t) ↔
    ∀ value ∈ s, coveredBy value t := by
  unfold ofValues
  split
  · next h =>
    subst h
    constructor
    · intro hn
      obtain rfl : s = ∅ := by simpa [isBottom] using isBottom_of_isNarrowingOf hn rfl
      exact fun _ h => absurd h (notMem_empty _)
    · intro hall
      obtain rfl : s = ∅ := eq_empty_of_forall_notMem fun value hvalue => by
        simpa [not_covered_empty] using hall value hvalue
      exact isNarrowingOf_of_isBottom rfl
  · exact isNarrowingOf_some

/-- Two sets that name something meet in their widest common members. -/
theorem meet_some (hs : (some s).isBottom = false) (ht : (some t).isBottom = false) :
    (some s).meet (some t) = ofValues (widest (narrower s t ∪ narrower t s)) := by
  simp [meet, hs, ht, widest]

theorem meet_of_isBottom (h : a.isBottom ∨ b.isBottom) : a.meet b = bottom := by
  unfold meet
  rw [if_pos (by simpa using h)]

theorem meet_all_left (h : b.isBottom = false) : (all : ScopeAxis α).meet b = b := by
  cases b <;> simp_all [meet, isBottom]

theorem meet_all_right (h : a.isBottom = false) : a.meet all = a := by
  cases a <;> simp_all [meet, isBottom]

variable [LaminarAtom α]

/-- Every member is in one of the widest. -/
theorem exists_widest (h : x ∈ kept) : ∃ w ∈ widest kept, includes w x := by
  let _ : PartialOrder α :=
    { le := fun a b => includes b a
      le_refl := includes_self
      le_trans := fun _ _ _ h h' => includes_trans h' h
      le_antisymm := fun _ _ h h' => includes_antisymm h' h }
  obtain ⟨w, hle, hmax⟩ := kept.exists_le_maximal h
  refine ⟨w, mem_filter.mpr ⟨hmax.prop, ?_⟩, hle⟩
  rintro ⟨v, hv, hne, hin⟩
  exact hne (includes_antisymm hin (hmax.le_of_ge hv hin))

/-- **What a meet covers**: what both of its sides cover. -/
theorem covered_meet : coveredBy x (widest (narrower s t ∪ narrower t s)) ↔
    coveredBy x s ∧ coveredBy x t := by
  simp only [covered_iff]
  constructor
  · intro h
    have hboth : ∀ y, LaminarAtom.IsAtom y → includes x y →
        (∃ w ∈ s, includes w y) ∧ ∃ w ∈ t, includes w y := by
      intro y hy hin
      obtain ⟨w, hw, hwy⟩ := h y hy hin
      rcases mem_union.mp (mem_filter.mp hw).1 with hw | hw
      · obtain ⟨hw, v, hv, hvw⟩ := mem_filter.mp hw
        exact ⟨⟨w, hw, hwy⟩, v, hv, includes_trans hvw hwy⟩
      · obtain ⟨hw, v, hv, hvw⟩ := mem_filter.mp hw
        exact ⟨⟨v, hv, includes_trans hvw hwy⟩, w, hw, hwy⟩
    exact ⟨fun y hy hin => (hboth y hy hin).1, fun y hy hin => (hboth y hy hin).2⟩
  · rintro ⟨hs, ht⟩ y hy hin
    obtain ⟨p, hp, hpy⟩ := hs y hy hin
    obtain ⟨q, hq, hqy⟩ := ht y hy hin
    obtain ⟨k, hk, hky⟩ : ∃ k ∈ narrower s t ∪ narrower t s, includes k y := by
      rcases laminar hpy hqy with hpq | hqp
      · exact ⟨q, mem_union_right _ (mem_filter.mpr ⟨hq, p, hp, hpq⟩), hqy⟩
      · exact ⟨p, mem_union_left _ (mem_filter.mpr ⟨hp, q, hq, hqp⟩), hpy⟩
    obtain ⟨w, hw, hwk⟩ := exists_widest hk
    exact ⟨w, hw, includes_trans hwk hky⟩

/-- **A meet contains what both of its sides contain.** -/
theorem contains_meet (a b : ScopeAxis α) (x : α) :
    (a.meet b).contains x = (a.contains x && b.contains x) := by
  rcases meet_cases a b with h | ⟨rfl, hb⟩ | ⟨rfl, ha⟩ | ⟨s, t, rfl, rfl, hs, ht⟩
  · rw [meet_of_isBottom h]
    rcases h with h | h
    · rw [contains_of_isBottom h]
      rfl
    · rw [contains_of_isBottom h, Bool.and_false]
      rfl
  · rw [meet_all_left hb]
    exact (Bool.true_and _).symm
  · rw [meet_all_right ha]
    exact (Bool.and_true _).symm
  · rw [meet_some hs ht, contains_ofValues, Bool.eq_iff_iff, covered_meet, Bool.and_eq_true]
    rfl

/-- **What narrows a meet** is what narrows both of its sides. -/
theorem isNarrowingOf_meet_iff (a b c : ScopeAxis α) :
    c.isNarrowingOf (a.meet b) ↔ c.isNarrowingOf a ∧ c.isNarrowingOf b := by
  rcases meet_cases a b with h | ⟨rfl, hb⟩ | ⟨rfl, ha⟩ | ⟨s, t, rfl, rfl, hs, ht⟩
  · rw [meet_of_isBottom h]
    constructor
    · intro hc
      have hbottom := isBottom_of_isNarrowingOf hc rfl
      exact ⟨isNarrowingOf_of_isBottom hbottom, isNarrowingOf_of_isBottom hbottom⟩
    · rintro ⟨hca, hcb⟩
      exact isNarrowingOf_of_isBottom (h.elim (isBottom_of_isNarrowingOf hca)
        (isBottom_of_isNarrowingOf hcb))
  · rw [meet_all_left hb, and_iff_right isNarrowingOf_all]
  · rw [meet_all_right ha, and_iff_left isNarrowingOf_all]
  · rw [meet_some hs ht]
    match c with
    | bottom => simp [isNarrowingOf_of_isBottom (rfl : (bottom : ScopeAxis α).isBottom)]
    | all =>
      have hnot : ¬ (all : ScopeAxis α).isNarrowingOf (ofValues (widest (narrower s t ∪ narrower t s))) := by
        unfold ofValues
        split
        · exact not_isNarrowingOf_bottom rfl
        · exact not_all_isNarrowingOf_some _
      exact iff_of_false hnot fun h => not_all_isNarrowingOf_some s h.1
    | some u =>
      rw [isNarrowingOf_ofValues_iff, isNarrowingOf_some, isNarrowingOf_some]
      simp only [covered_meet]
      exact ⟨fun h => ⟨fun v hv => (h v hv).1, fun v hv => (h v hv).2⟩,
        fun h v hv => ⟨h.1 v hv, h.2 v hv⟩⟩

theorem meetLaws : MeetLaws (fun a b : ScopeAxis α => a.isNarrowingOf b = true) meet :=
  .of_glb isNarrowingOf_refl (fun _ _ _ => isNarrowingOf_trans) isNarrowingOf_meet_iff

/-- **What an axis owes its meet**: the laws, the members both sides contain, and no more from an
empty side than it had. -/
structure MeetExact (α : Type u) [DecidableEq α] [ScopeAtom α] : Prop where
  laws : MeetLaws (fun a b : ScopeAxis α => a.isNarrowingOf b = true) meet
  contains : ∀ (a b : ScopeAxis α) (x : α),
    (a.meet b).contains x = (a.contains x && b.contains x)
  empty : ∀ a b : ScopeAxis α, a.isBottom → a.meet b = bottom ∧ b.meet a = bottom ∧
    ∀ x, a.contains x = false

variable (α) in
theorem meetExact : MeetExact α where
  laws := meetLaws
  contains := contains_meet
  empty _ _ h := ⟨meet_of_isBottom (.inl h), meet_of_isBottom (.inr h),
    fun _ => contains_of_isBottom h⟩

end ScopeAxis

namespace SensitivityCeiling

/-- `TOP` permits every band. -/
def permits : SensitivityCeiling → Sensitivity → Bool
  | bottom, _ => false
  | atMost max, band => band.ctorIdx ≤ max.ctorIdx

def meet : SensitivityCeiling → SensitivityCeiling → SensitivityCeiling
  | atMost a, atMost b => atMost (if a.ctorIdx ≤ b.ctorIdx then a else b)
  | _, _ => bottom

theorem permits_meet (a b : SensitivityCeiling) (band : Sensitivity) :
    (a.meet b).permits band = (a.permits band && b.permits band) := by
  match a, b with
  | bottom, _ => rfl
  | atMost _, bottom => exact (Bool.and_false _).symm
  | atMost a, atMost b =>
    rw [Bool.eq_iff_iff]
    simp only [meet, permits, Bool.and_eq_true, decide_eq_true_eq]
    split <;> omega

theorem meetLaws : MeetLaws (fun a b => isNarrowingOf a b = true) meet := by
  refine .of_glb isNarrowingOf_refl (fun _ _ _ => isNarrowingOf_trans) fun a b c => ?_
  match a, b, c with
  | _, _, bottom => exact iff_of_true rfl ⟨rfl, rfl⟩
  | bottom, _, atMost _ => exact iff_of_false nofun fun h => nomatch h.1
  | atMost _, bottom, atMost _ => exact iff_of_false nofun fun h => nomatch h.2
  | atMost a, atMost b, atMost c =>
    simp only [meet, isNarrowingOf, decide_eq_true_eq]
    split <;> omega

end SensitivityCeiling

/-- The meet of two scopes, axis by axis. -/
def Scope.meet (scope other : Scope) : Scope where
  worlds := scope.worlds.meet other.worlds
  facets := scope.facets.meet other.facets
  bands := scope.bands.meet other.bands
  audience := scope.audience.meet other.audience
  verbs := scope.verbs.meet other.verbs
  sensitivity := scope.sensitivity.meet other.sensitivity

theorem Scope.meetLaws : MeetLaws (fun a b => Scope.isNarrowingOf a b = true) Scope.meet :=
  (ScopeAxis.meetLaws.prod (ScopeAxis.meetLaws.prod (ScopeAxis.meetLaws.prod
    (ScopeAxis.meetLaws.prod (ScopeAxis.meetLaws.prod SensitivityCeiling.meetLaws))))).comap
      (fun scope => (scope.worlds, scope.facets, scope.bands, scope.audience, scope.verbs,
        scope.sensitivity))
      (fun _ _ => by simp only [Scope.isNarrowingOf, Bool.and_eq_true, and_assoc]) fun _ _ => rfl

theorem FederationDirectionScope.meetLaws :
    MeetLaws (fun a b => narrows a b = true) intersect :=
  (ScopeAxis.meetLaws.prod (ScopeAxis.meetLaws.prod ScopeAxis.meetLaws)).comap
    (fun scope => (scope.worlds, scope.facets, scope.bands))
    (fun _ _ => by simp only [narrows, Bool.and_eq_true, and_assoc]) fun _ _ => rfl

/-- **The meet is the greatest lower bound**, of scopes, of a pact's directions and of every axis they
have; an axis meets in what both sides contain, and an empty one stays empty. -/
theorem scope_meet_is_greatest :
    MeetLaws (fun a b => Scope.isNarrowingOf a b = true) Scope.meet ∧
    MeetLaws (fun a b => FederationDirectionScope.narrows a b = true)
      FederationDirectionScope.intersect ∧
    ScopeAxis.MeetExact EntityId ∧ ScopeAxis.MeetExact UInt8 ∧ ScopeAxis.MeetExact Bytes ∧
    ScopeAxis.MeetExact SelectorRange ∧
    MeetLaws (fun a b => SensitivityCeiling.isNarrowingOf a b = true) SensitivityCeiling.meet ∧
    ∀ a b band, (SensitivityCeiling.meet a b).permits band = (a.permits band && b.permits band) :=
  ⟨Scope.meetLaws, FederationDirectionScope.meetLaws, ScopeAxis.meetExact EntityId,
    ScopeAxis.meetExact UInt8, ScopeAxis.meetExact Bytes, ScopeAxis.meetExact SelectorRange,
    SensitivityCeiling.meetLaws, SensitivityCeiling.permits_meet⟩

end Oneiron
