import Oneiron.Contracts.EntityId

/-!
# Authority/Scope — the six-axis scope, and which scope narrows which

An axis is everything, nothing, or a set of members.  Members may nest, so one set narrows another
when each of its members is *covered* by the other; two sets meet in the members of either that the
other includes.  Narrowing is a preorder on every axis and so on the whole scope, and a meet narrows
both of its sides.
-/

namespace Oneiron

universe u

/-- One member of a powerset axis. -/
class ScopeAtom (α : Type u) [DecidableEq α] where
  /-- Whether the first member includes the second. -/
  includes : α → α → Bool
  /-- Whether the members of a set together cover this one. -/
  coveredBy : α → Finset α → Bool
  includes_self : ∀ a, includes a a
  covered_of_includes : ∀ {a b wide}, b ∈ wide → includes b a → coveredBy a wide
  covered_trans : ∀ {a mid wide}, coveredBy a mid → (∀ b ∈ mid, coveredBy b wide) →
    coveredBy a wide
  not_covered_empty : ∀ a, coveredBy a ∅ = false

/-- Members that nest in nothing but themselves. -/
@[reducible] def ScopeAtom.plain {α : Type u} [DecidableEq α] : ScopeAtom α where
  includes a b := a = b
  coveredBy a wide := a ∈ wide
  includes_self a := by simp
  covered_of_includes hb h := by simpa [of_decide_eq_true h] using hb
  covered_trans h hmid := hmid _ (of_decide_eq_true h)
  not_covered_empty a := by simp

instance : ScopeAtom EntityId := .plain

instance : ScopeAtom UInt8 := .plain

instance : ScopeAtom Bytes := .plain

/-- A powerset axis. -/
inductive ScopeAxis (α : Type u) where
  | bottom
  | all
  | some (values : Finset α)
  deriving DecidableEq

namespace ScopeAxis

open ScopeAtom

variable {α : Type u} [DecidableEq α]

/-- Collects a named set; an empty collection is bottom. -/
def ofValues (values : Finset α) : ScopeAxis α := if values = ∅ then .bottom else .some values

def isBottom : ScopeAxis α → Bool
  | bottom => true
  | all => false
  | some values => values = ∅

variable [ScopeAtom α]

def contains : ScopeAxis α → α → Bool
  | bottom, _ => false
  | all, _ => true
  | some values, value => coveredBy value values

def isNarrowingOf (axis other : ScopeAxis α) : Bool :=
  if axis.isBottom then true
  else
    match axis, other with
    | _, all => true
    | some a, some b => ∀ value ∈ a, coveredBy value b
    | _, _ => false

/-- The members of one set that some member of another includes. -/
def narrower (source wide : Finset α) : Finset α :=
  source.filter fun value => ∃ w ∈ wide, includes w value

/-- The narrower member of every pair where one includes the other, less any member another kept
member includes. -/
def meet (axis other : ScopeAxis α) : ScopeAxis α :=
  if axis.isBottom || other.isBottom then .bottom
  else
    match axis, other with
    | all, rhs => rhs
    | lhs, all => lhs
    | some a, some b =>
      let kept := narrower a b ∪ narrower b a
      .ofValues (kept.filter fun value => ¬∃ w ∈ kept, w ≠ value ∧ includes w value)
    | _, _ => .bottom

variable {axis other third : ScopeAxis α}

theorem isNarrowingOf_of_isBottom (h : axis.isBottom) : axis.isNarrowingOf other := by
  simp only [isNarrowingOf, h, if_true]

@[simp] theorem isNarrowingOf_all : axis.isNarrowingOf all := by
  unfold isNarrowingOf
  split
  · rfl
  · cases axis <;> rfl

theorem isNarrowingOf_some {a b : Finset α} :
    (some a).isNarrowingOf (some b) ↔ ∀ value ∈ a, coveredBy value b := by
  unfold isNarrowingOf
  split
  · next h =>
    obtain rfl : a = ∅ := by simpa [isBottom] using h
    simp
  · simp

theorem not_isNarrowingOf_bottom (h : axis.isBottom = false) : ¬axis.isNarrowingOf bottom := by
  cases axis <;> simp_all [isNarrowingOf, isBottom]

theorem not_all_isNarrowingOf_some (b : Finset α) : ¬(all : ScopeAxis α).isNarrowingOf (some b) := by
  simp [isNarrowingOf, isBottom]

theorem covered_self {a : α} {wide : Finset α} (h : a ∈ wide) : coveredBy a wide :=
  covered_of_includes h (includes_self a)

theorem isNarrowingOf_refl (axis : ScopeAxis α) : axis.isNarrowingOf axis := by
  match axis with
  | bottom => exact isNarrowingOf_of_isBottom rfl
  | all => exact isNarrowingOf_all
  | some a => exact isNarrowingOf_some.mpr fun _ => covered_self

/-- What narrows an empty axis is empty. -/
theorem isBottom_of_isNarrowingOf (h : axis.isNarrowingOf other) (hother : other.isBottom) :
    axis.isBottom := by
  by_contra hne
  rw [Bool.not_eq_true] at hne
  match axis, other with
  | _, bottom => exact not_isNarrowingOf_bottom hne h
  | bottom, _ => simp [isBottom] at hne
  | all, some b => exact not_all_isNarrowingOf_some b h
  | some a, some b =>
    obtain rfl : b = ∅ := by simpa [isBottom] using hother
    obtain ⟨value, hvalue⟩ : a.Nonempty := by
      simpa [isBottom, Finset.nonempty_iff_ne_empty] using hne
    have := isNarrowingOf_some.mp h value hvalue
    simp [not_covered_empty] at this

theorem isNarrowingOf_trans (h : axis.isNarrowingOf other) (h' : other.isNarrowingOf third) :
    axis.isNarrowingOf third := by
  rcases hother : other.isBottom with _ | _
  · match axis, other, third with
    | _, _, all => exact isNarrowingOf_all
    | _, bottom, _ => simp [isBottom] at hother
    | _, _, bottom => exact absurd h' (not_isNarrowingOf_bottom hother)
    | bottom, _, _ => exact isNarrowingOf_of_isBottom rfl
    | _, all, some c => exact absurd h' (not_all_isNarrowingOf_some c)
    | all, some b, _ => exact absurd h (not_all_isNarrowingOf_some b)
    | some a, some b, some c =>
      rw [isNarrowingOf_some] at h h' ⊢
      exact fun value hvalue => covered_trans (h value hvalue) h'
  · exact isNarrowingOf_of_isBottom (isBottom_of_isNarrowingOf h hother)

theorem isNarrowingOf_ofValues {values b : Finset α}
    (h : ∀ value ∈ values, coveredBy value b) :
    (ofValues values).isNarrowingOf (some b) := by
  unfold ofValues
  split
  · exact isNarrowingOf_of_isBottom rfl
  · exact isNarrowingOf_some.mpr h

/-- **A meet narrows both of its sides.** -/
theorem meet_isNarrowingOf (axis other : ScopeAxis α) :
    (axis.meet other).isNarrowingOf axis ∧ (axis.meet other).isNarrowingOf other := by
  unfold meet
  split
  · exact ⟨isNarrowingOf_of_isBottom rfl, isNarrowingOf_of_isBottom rfl⟩
  · split
    · exact ⟨isNarrowingOf_all, isNarrowingOf_refl _⟩
    · exact ⟨isNarrowingOf_refl _, isNarrowingOf_all⟩
    · next a b _ =>
      have hcovered {value : α} {a b : Finset α} (h : value ∈ narrower a b ∪ narrower b a) :
          coveredBy value a := by
        rcases Finset.mem_union.mp h with h | h
        · exact covered_self (Finset.mem_filter.mp h).1
        · obtain ⟨-, w, hw, hin⟩ := Finset.mem_filter.mp h
          exact covered_of_includes hw hin
      refine ⟨isNarrowingOf_ofValues fun value h => hcovered (Finset.mem_filter.mp h).1,
        isNarrowingOf_ofValues fun value h => hcovered (b := a) ?_⟩
      rw [Finset.union_comm]
      exact (Finset.mem_filter.mp h).1
    · exact ⟨isNarrowingOf_of_isBottom rfl, isNarrowingOf_of_isBottom rfl⟩

end ScopeAxis

/-- Content sensitivity, in the order it narrows. -/
inductive Sensitivity where
  | pub | priv | sensitive | restricted
  deriving DecidableEq

/-- A channel's maximum sensitivity; bottom permits no content. -/
inductive SensitivityCeiling where
  | bottom
  | atMost (band : Sensitivity)
  deriving DecidableEq

def SensitivityCeiling.isNarrowingOf : SensitivityCeiling → SensitivityCeiling → Bool
  | bottom, _ => true
  | atMost a, atMost b => a.ctorIdx ≤ b.ctorIdx
  | _, _ => false

namespace SensitivityCeiling

variable {a b c : SensitivityCeiling}

theorem isNarrowingOf_refl (a : SensitivityCeiling) : a.isNarrowingOf a := by
  cases a <;> simp [isNarrowingOf]

theorem isNarrowingOf_trans (h : a.isNarrowingOf b) (h' : b.isNarrowingOf c) :
    a.isNarrowingOf c := by
  match a, b, c with
  | bottom, _, _ => rfl
  | atMost _, atMost _, atMost _ =>
    simp only [isNarrowingOf, decide_eq_true_eq] at h h' ⊢
    exact h.trans h'
  | atMost _, bottom, _ => simp [isNarrowingOf] at h
  | atMost _, atMost _, bottom => simp [isNarrowingOf] at h'

end SensitivityCeiling

/-- The canonical six-axis scope. -/
structure Scope where
  worlds : ScopeAxis EntityId
  facets : ScopeAxis EntityId
  bands : ScopeAxis UInt8
  audience : ScopeAxis EntityId
  verbs : ScopeAxis Bytes
  sensitivity : SensitivityCeiling
  deriving DecidableEq

namespace Scope

def top : Scope := ⟨.all, .all, .all, .all, .all, .atMost .restricted⟩

def isNarrowingOf (scope other : Scope) : Bool :=
  scope.worlds.isNarrowingOf other.worlds && scope.facets.isNarrowingOf other.facets &&
    scope.bands.isNarrowingOf other.bands && scope.audience.isNarrowingOf other.audience &&
    scope.verbs.isNarrowingOf other.verbs && scope.sensitivity.isNarrowingOf other.sensitivity

theorem isNarrowingOf_refl (scope : Scope) : scope.isNarrowingOf scope := by
  simp [isNarrowingOf, ScopeAxis.isNarrowingOf_refl, SensitivityCeiling.isNarrowingOf_refl]

theorem isNarrowingOf_trans {scope other third : Scope} (h : scope.isNarrowingOf other)
    (h' : other.isNarrowingOf third) : scope.isNarrowingOf third := by
  simp only [isNarrowingOf, Bool.and_eq_true] at h h' ⊢
  obtain ⟨⟨⟨⟨⟨hw, hf⟩, hb⟩, ha⟩, hv⟩, hs⟩ := h
  obtain ⟨⟨⟨⟨⟨hw', hf'⟩, hb'⟩, ha'⟩, hv'⟩, hs'⟩ := h'
  exact ⟨⟨⟨⟨⟨ScopeAxis.isNarrowingOf_trans hw hw', ScopeAxis.isNarrowingOf_trans hf hf'⟩,
    ScopeAxis.isNarrowingOf_trans hb hb'⟩, ScopeAxis.isNarrowingOf_trans ha ha'⟩,
    ScopeAxis.isNarrowingOf_trans hv hv'⟩, SensitivityCeiling.isNarrowingOf_trans hs hs'⟩

end Scope

end Oneiron
