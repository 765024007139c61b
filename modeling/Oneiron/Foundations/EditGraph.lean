import Mathlib.Data.List.Sublists

/-!
# Foundations/EditGraph — edit scripts, and the walks that reach furthest

An edit script keeps, deletes and inserts; `d` edits leave a common subsequence of what is kept.  A
walk takes the same steps from the front of both lists, and past their ends where there is nothing to
keep.  On a diagonal one walk of `d` edits reaches furthest, and where it is stuck and reaches past
every shorter walk's edit, it is that one (`Walk.le_of_stuck`).
-/

namespace Oneiron

open List Nat

variable {α : Type}

/-! ## Scripts -/

/-- `l` becomes `r` by keeping, deleting and inserting, in `d` deletions and insertions. -/
inductive Script : List α → List α → ℕ → Prop
  | nil : Script [] [] 0
  | keep (a : α) {l r : List α} {d : ℕ} : Script l r d → Script (a :: l) (a :: r) d
  | delete (a : α) {l r : List α} {d : ℕ} : Script l r d → Script (a :: l) r (d + 1)
  | insert (a : α) {l r : List α} {d : ℕ} : Script l r d → Script l (a :: r) (d + 1)

namespace Script

variable {l r l' r' : List α} {d e : ℕ}

theorem append (h : Script l r d) (h' : Script l' r' e) : Script (l ++ l') (r ++ r') (d + e) := by
  induction h with
  | nil => simpa using h'
  | keep a _ ih => exact .keep a ih
  | delete a _ ih => exact Nat.add_right_comm .. ▸ ih.delete a
  | insert a _ ih => exact Nat.add_right_comm .. ▸ ih.insert a

theorem refl : ∀ l : List α, Script l l 0
  | [] => .nil
  | a :: l => .keep a (refl l)

theorem insertAll : ∀ r : List α, Script [] r r.length
  | [] => .nil
  | a :: r => .insert a (insertAll r)

/-- What a script keeps is a common subsequence. -/
theorem exists_sublist (h : Script l r d) :
    ∃ s : List α, s.Sublist l ∧ s.Sublist r ∧ 2 * s.length + d = l.length + r.length := by
  induction h with
  | nil => exact ⟨[], .slnil, .slnil, rfl⟩
  | keep a _ ih =>
    obtain ⟨s, hl, hr, hlen⟩ := ih
    exact ⟨a :: s, hl.cons_cons a, hr.cons_cons a, by simp only [length_cons]; omega⟩
  | delete a _ ih =>
    obtain ⟨s, hl, hr, hlen⟩ := ih
    exact ⟨s, hl.cons a, hr, by simp only [length_cons]; omega⟩
  | insert a _ ih =>
    obtain ⟨s, hl, hr, hlen⟩ := ih
    exact ⟨s, hl, hr.cons a, by simp only [length_cons]; omega⟩

/-- **A common subsequence is kept by a script.** -/
theorem of_sublist {s : List α} (hl : s.Sublist l) (hr : s.Sublist r) :
    Script l r (l.length + r.length - 2 * s.length) := by
  induction hl generalizing r with
  | slnil => simpa using insertAll r
  | cons a hl ih =>
    have hlen := hl.length_le
    have hlen' := hr.length_le
    rw [length_cons, show ∀ x y z : ℕ, 2 * z ≤ x + y → x + 1 + y - 2 * z = x + y - 2 * z + 1 by
      omega]
    · exact (ih hr).delete a
    · omega
  | @cons_cons kept l a hl ih =>
    obtain ⟨before, after, rfl, hmem, htail⟩ := cons_sublist_iff.mp hr
    obtain ⟨front, rest, rfl⟩ := append_of_mem hmem
    have hsub := htail.trans (sublist_append_right rest after)
    have hscript := (insertAll front).append ((ih hsub).keep a)
    have hlen := hl.length_le
    have hlen' := hsub.length_le
    have hcount : front.length + (l.length + (rest ++ after).length - 2 * kept.length) =
        (a :: l).length + (front ++ a :: rest ++ after).length - 2 * (a :: kept).length := by
      simp only [length_cons, length_append] at hlen' ⊢
      omega
    rw [hcount] at hscript
    simpa using hscript

end Script

/-! ## Walks -/

/-- `d` edits from the front of both lists to position `x` of the one and `y` of the other. -/
inductive Walk (l r : List α) : ℕ → ℕ → ℕ → Prop
  | start : Walk l r 0 0 0
  | keep {d x y : ℕ} {a : α} :
    Walk l r d x y → l[x]? = some a → r[y]? = some a → Walk l r d (x + 1) (y + 1)
  | delete {d x y : ℕ} : Walk l r d x y → Walk l r (d + 1) (x + 1) y
  | insert {d x y : ℕ} : Walk l r d x y → Walk l r (d + 1) x (y + 1)

namespace Walk

variable {l r : List α} {d x y : ℕ}

theorem bounds (h : Walk l r d x y) : x ≤ l.length + d ∧ y ≤ r.length + d := by
  induction h with
  | start => simp
  | keep _ hl hr ih =>
    have := (List.getElem?_eq_some_iff.mp hl).1
    have := (List.getElem?_eq_some_iff.mp hr).1
    omega
  | delete _ ih | insert _ ih => omega

/-- The diagonals that `d` edits reach. -/
theorem diagonal (h : Walk l r d x y) : ∃ i ≤ d, x + d = y + 2 * i := by
  induction h with
  | start => exact ⟨0, by simp⟩
  | keep _ _ _ ih =>
    obtain ⟨i, hi, heq⟩ := ih
    exact ⟨i, hi, by omega⟩
  | delete _ ih =>
    obtain ⟨i, hi, heq⟩ := ih
    exact ⟨i + 1, by omega, by omega⟩
  | insert _ ih =>
    obtain ⟨i, hi, heq⟩ := ih
    exact ⟨i, by omega, by omega⟩

/-- A walk is a script of what it passed. -/
theorem script (h : Walk l r d x y) : ∃ e ≤ d, Script (l.take x) (r.take y) e := by
  induction h with
  | start => exact ⟨0, le_rfl, .nil⟩
  | keep _ hl hr ih =>
    obtain ⟨e, he, hs⟩ := ih
    refine ⟨e, he, ?_⟩
    rw [take_add_one, take_add_one, hl, hr]
    exact hs.append (.refl _)
  | @delete d x y _ ih =>
    obtain ⟨e, he, hs⟩ := ih
    rw [take_add_one]
    cases hx : l[x]? with
    | none => exact ⟨e, by omega, by simpa using hs⟩
    | some a => exact ⟨e + 1, by omega, by simpa using hs.append (Script.nil.delete a)⟩
  | @insert d x y _ ih =>
    obtain ⟨e, he, hs⟩ := ih
    rw [take_add_one]
    cases hy : r[y]? with
    | none => exact ⟨e, by omega, by simpa using hs⟩
    | some a => exact ⟨e + 1, by omega, by simpa using hs.append (Script.nil.insert a)⟩

/-- **A script is walked**, from wherever a walk has come. -/
theorem follow {l' r' : List α} {e : ℕ} (hs : Script l' r' e) {d x y : ℕ} (h : Walk l r d x y)
    (hl : l.drop x = l') (hr : r.drop y = r') : Walk l r (d + e) (x + l'.length) (y + r'.length) := by
  induction hs generalizing d x y with
  | nil => exact h
  | keep a _ ih =>
    have hstep : Walk l r d (x + 1) (y + 1) :=
      h.keep (by rw [← head?_drop, hl]; rfl) (by rw [← head?_drop, hr]; rfl)
    have hrest := ih hstep (by rw [← tail_drop, hl]; rfl) (by rw [← tail_drop, hr]; rfl)
    simpa only [length_cons, Nat.add_assoc, Nat.add_comm 1] using hrest
  | delete a _ ih =>
    have hrest := ih h.delete (by rw [← tail_drop, hl]; rfl) hr
    simpa only [length_cons, Nat.add_assoc, Nat.add_comm 1] using hrest
  | insert a _ ih =>
    have hrest := ih h.insert hl (by rw [← tail_drop, hr]; rfl)
    simpa only [length_cons, Nat.add_assoc, Nat.add_comm 1] using hrest

/-- Past both ends a walk has spent edits that reach the corner without them. -/
theorem clamp (h : Walk l r d x y) : ∃ e, Walk l r e (min x l.length) (min y r.length) ∧
    e + (x - l.length) + (y - r.length) ≤ d := by
  induction h with
  | start => exact ⟨0, by simpa using .start, by simp⟩
  | @keep d x y a _ hl hr ih =>
    obtain ⟨e, hw, he⟩ := ih
    have hx := (List.getElem?_eq_some_iff.mp hl).1
    have hy := (List.getElem?_eq_some_iff.mp hr).1
    rw [min_eq_left hx.le, min_eq_left hy.le] at hw
    rw [min_eq_left hx, min_eq_left hy]
    exact ⟨e, hw.keep hl hr, by omega⟩
  | @delete d x y _ ih =>
    obtain ⟨e, hw, he⟩ := ih
    rcases lt_or_ge x l.length with hx | hx
    · rw [min_eq_left hx.le] at hw
      exact ⟨e + 1, by rw [min_eq_left hx]; exact hw.delete, by omega⟩
    · rw [min_eq_right hx] at hw
      exact ⟨e, by rwa [min_eq_right (le_succ_of_le hx)], by omega⟩
  | @insert d x y _ ih =>
    obtain ⟨e, hw, he⟩ := ih
    rcases lt_or_ge y r.length with hy | hy
    · rw [min_eq_left hy.le] at hw
      exact ⟨e + 1, by rw [Nat.min_eq_left hy]; exact hw.insert, by omega⟩
    · rw [min_eq_right hy] at hw
      exact ⟨e, by rwa [min_eq_right (le_succ_of_le hy)], by omega⟩

/-- **Walks to the corner are the scripts.** -/
theorem corner_iff {d : ℕ} :
    (∃ e ≤ d, Walk l r e l.length r.length) ↔ ∃ e ≤ d, Script l r e := by
  constructor
  · rintro ⟨e, he, h⟩
    obtain ⟨e', he', hs⟩ := h.script
    rw [take_length, take_length] at hs
    exact ⟨e', he'.trans he, hs⟩
  · rintro ⟨e, he, hs⟩
    exact ⟨e, he, by simpa using follow hs .start rfl rfl⟩

/-- **A walk reaches furthest** on its diagonal if it is stuck, and past where an edit more brings
every walk. -/
theorem le_of_stuck (hstuck : ∀ a, l[x]? = some a → r[y]? ≠ some a)
    (hdelete : ∀ e x' y', Walk l r e x' y' → e + 1 = d → x' + 1 + y = y' + x → x' + 1 ≤ x)
    (hinsert : ∀ e x' y', Walk l r e x' y' → e + 1 = d → x' + y = y' + 1 + x → x' ≤ x)
    {x' y' : ℕ} (h : Walk l r d x' y') (hdiagonal : x' + y = y' + x) : x' ≤ x := by
  induction h with
  | start => exact zero_le x
  | @keep d x' y' a _ hl hr ih =>
    have hle := ih hdelete hinsert (by omega)
    refine lt_of_le_of_ne hle fun heq => ?_
    obtain rfl : y' = y := by omega
    exact hstuck a (heq ▸ hl) hr
  | delete h _ => exact hdelete _ _ _ h rfl hdiagonal
  | insert h _ => exact hinsert _ _ _ h rfl hdiagonal

/-- **The last edit of a walk**, and the matches it kept since. -/
theorem last (h : Walk l r d x y) : ∃ x₀ y₀, x₀ ≤ x ∧ x₀ + y = y₀ + x ∧
    (∀ j, x₀ + j < x → ∃ a, l[x₀ + j]? = some a ∧ r[y₀ + j]? = some a) ∧
    (d = 0 ∧ x₀ = 0 ∧ y₀ = 0 ∨ ∃ e, d = e + 1 ∧
      ((∃ x', x₀ = x' + 1 ∧ Walk l r e x' y₀) ∨ ∃ y', y₀ = y' + 1 ∧ Walk l r e x₀ y')) := by
  induction h with
  | start => exact ⟨0, 0, le_rfl, rfl, by simp, .inl ⟨rfl, rfl, rfl⟩⟩
  | @keep d x y a _ hl hr ih =>
    obtain ⟨x₀, y₀, hle, hdiagonal, hkept, hedit⟩ := ih
    refine ⟨x₀, y₀, by omega, by omega, fun j hj => ?_, hedit⟩
    rcases Nat.lt_succ_iff_lt_or_eq.mp hj with hlt | heq
    · exact hkept j hlt
    · rw [heq, show y₀ + j = y by omega]
      exact ⟨a, hl, hr⟩
  | @delete d x y h _ =>
    exact ⟨x + 1, y, le_rfl, by omega, fun j hj => absurd hj (by omega),
      .inr ⟨d, rfl, .inl ⟨x, rfl, h⟩⟩⟩
  | @insert d x y h _ =>
    exact ⟨x, y + 1, le_rfl, by omega, fun j hj => absurd hj (by omega),
      .inr ⟨d, rfl, .inr ⟨y, rfl, h⟩⟩⟩

end Walk

/-! ## The furthest -/

/-- `x` is where the walks of `d` edits reach furthest on a diagonal, of which `d` edits reach those
from `0` to `d`. -/
def Furthest (l r : List α) (d i x : ℕ) : Prop :=
  ∃ y, x + d = y + 2 * i ∧ Walk l r d x y ∧
    ∀ x' y', Walk l r d x' y' → x' + d = y' + 2 * i → x' ≤ x

/-- The walks of one edit less come onto a diagonal at `x₀` at the furthest. -/
structure Opens (l r : List α) (e i x₀ : ℕ) : Prop where
  delete : ∀ x y, Walk l r e x y → x + 1 + (e + 1) = y + 2 * i → x + 1 ≤ x₀
  insert : ∀ x y, Walk l r e x y → x + (e + 1) = y + 1 + 2 * i → x ≤ x₀

section Furthest

variable {l r : List α} {d e i x y : ℕ}

theorem Furthest.of_stuck_zero (h : Walk l r 0 x x) (hstuck : ∀ a, l[x]? = some a → r[x]? ≠ some a) :
    Furthest l r 0 0 x :=
  ⟨x, rfl, h, fun _ _ h' hi => h'.le_of_stuck hstuck (by omega) (by omega) (by omega)⟩

/-- **The furthest of the next step**: from where its diagonal opens, on until it is stuck. -/
theorem Opens.furthest {x₀ : ℕ} (h : Opens l r e i x₀) (hle : x₀ ≤ x) (hw : Walk l r (e + 1) x y)
    (hi : x + (e + 1) = y + 2 * i) (hstuck : ∀ a, l[x]? = some a → r[y]? ≠ some a) :
    Furthest l r (e + 1) i x := by
  refine ⟨y, hi, hw, fun x' y' h' hi' => h'.le_of_stuck hstuck (fun e' x₁ y₁ h₁ he h₁i => ?_)
    (fun e' x₁ y₁ h₁ he h₁i => ?_) (by omega)⟩
  · obtain rfl : e' = e := by omega
    exact (h.delete x₁ y₁ h₁ (by omega)).trans hle
  · obtain rfl : e' = e := by omega
    exact (h.insert x₁ y₁ h₁ (by omega)).trans hle

/-- What a walk passed on its diagonal since it could open matches. -/
theorem Opens.kept {x₀ y₀ : ℕ} (h : Opens l r e i x₀) (hw : Walk l r (e + 1) x y)
    (hi : x + (e + 1) = y + 2 * i) (h₀ : x₀ + (e + 1) = y₀ + 2 * i) {j : ℕ} (hj : x₀ + j < x) :
    ∃ a, l[x₀ + j]? = some a ∧ r[y₀ + j]? = some a := by
  obtain ⟨x₁, y₁, hle, hdiagonal, hkept, ⟨hzero, -⟩ | ⟨e', he, hedit⟩⟩ := hw.last
  · omega
  · obtain rfl : e' = e := by omega
    have hopen : x₁ ≤ x₀ := by
      rcases hedit with ⟨x', rfl, h'⟩ | ⟨y', rfl, h'⟩
      · exact h.delete x' y₁ h' (by omega)
      · exact h.insert x₁ y' h' (by omega)
    have hat := hkept (x₀ + j - x₁) (by omega)
    rwa [show x₁ + (x₀ + j - x₁) = x₀ + j by omega,
      show y₁ + (x₀ + j - x₁) = y₀ + j by omega] at hat

end Furthest

end Oneiron
