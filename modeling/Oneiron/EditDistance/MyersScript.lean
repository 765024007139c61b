import Mathlib.Tactic.Linarith
import Oneiron.EditDistance.Myers
import Oneiron.Foundations.EditGraph

/-!
# EditDistance/MyersScript — the greedy walk finds a longest common subsequence

The frontier of a step holds where its diagonals' walks reach furthest (`Row`), whatever else its stale
cells hold.  So the first step to reach the corner is the least number of edits, and the way back
passes on each diagonal what a furthest walk kept there (`backtrackFrom_spec`).
-/

namespace Oneiron

open List Option Nat

namespace Myers

variable {before after : List UInt32} {maxD d e i : ℕ} {frontier rows : List ℤ}

/-! ## Cells -/

theorem asUsize_natCast {n : ℕ} (h : n < 2 ^ 64) : asUsize n = n := by
  rw [asUsize]
  omega

theorem cell_natCast {α : Type} {cells : List α} {n : ℕ} (h : n < 2 ^ 64) :
    cell cells n = cells[n]? := by
  rw [cell, asUsize_natCast h]

theorem slice_eq {cells : List ℤ} {start stop : ℕ} (h : start ≤ stop) (h' : stop ≤ cells.length) :
    slice cells start stop = some ((cells.take stop).drop start) := if_pos ⟨h, h'⟩

/-! ## The way down a diagonal -/

/-- **A slide keeps all that matches**, and is stuck where it ends. -/
theorem slide_spec (hb : before.length < 2 ^ 31) (ha : after.length < 2 ^ 31) {x y : ℕ} :
    ∃ x' y' : ℕ, slide before after x y = some ((x' : ℤ), (y' : ℤ)) ∧ x ≤ x' ∧ x' + y = y' + x ∧
      (∀ d, Walk before after d x y → Walk before after d x' y') ∧
      ∀ a, before[x']? = some a → after[y']? ≠ some a := by
  induction hn : before.length - x generalizing x y with
  | zero =>
    refine ⟨x, y, ?_, le_rfl, add_comm .., fun _ h => h, fun a hx => ?_⟩
    · rw [slide, dif_neg (by omega)]
    · have := (List.getElem?_eq_some_iff.mp hx).1
      omega
  | succ n ih =>
    rw [slide]
    by_cases hin : x < before.length ∧ y < after.length
    · rw [dif_pos (by exact_mod_cast hin), cell_natCast (by omega), cell_natCast (by omega),
        getElem?_eq_getElem hin.1, getElem?_eq_getElem hin.2]
      by_cases heq : before[x] = after[y]
      · obtain ⟨x', y', hslide, hle, hdiagonal, hwalk, hstuck⟩ := @ih (x + 1) (y + 1) (by omega)
        refine ⟨x', y', ?_, by omega, by omega, fun d h => hwalk d (h.keep (a := before[x]) ?_ ?_), hstuck⟩
        · simpa [heq] using hslide
        · exact getElem?_eq_getElem hin.1
        · rw [heq, getElem?_eq_getElem hin.2]
      · refine ⟨x, y, by simp [heq], le_rfl, add_comm .., fun _ h => h, fun a hx hy => heq ?_⟩
        rw [getElem?_eq_getElem hin.1] at hx
        rw [getElem?_eq_getElem hin.2] at hy
        exact some.inj (hx.trans hy.symm)
    · rw [dif_neg (by exact_mod_cast hin)]
      refine ⟨x, y, rfl, le_rfl, add_comm .., fun _ h => h, fun a hx hy => hin ?_⟩
      exact ⟨(List.getElem?_eq_some_iff.mp hx).1, (List.getElem?_eq_some_iff.mp hy).1⟩

/-- The furthest walk on each of a step's diagonals, at a cell of its own. -/
def Row (before after : List UInt32) (d : ℕ) (at_ : ℤ → Option ℤ) : Prop :=
  ∀ j ≤ d, ∃ x : ℕ, at_ (2 * j - d) = some (x : ℤ) ∧ Furthest before after d j x

/-- **The greedy rule** comes from the neighbour that opens a diagonal furthest. -/
theorem comesDown_spec {at_ : ℤ → Option ℤ} (hrow : Row before after e at_) (hi : i ≤ e + 1) :
    (∃ x y : ℕ, comesDown at_ (e + 1 : ℕ) (2 * i - (e + 1 : ℕ)) = some true ∧
      at_ (2 * i - (e + 1 : ℕ) + 1) = some (x : ℤ) ∧ x + e = y + 2 * i ∧ i ≤ e ∧
      Furthest before after e i x ∧ Walk before after e x y ∧ Opens before after e i x) ∨
    ∃ x y j : ℕ, comesDown at_ (e + 1 : ℕ) (2 * i - (e + 1 : ℕ)) = some false ∧
      at_ (2 * i - (e + 1 : ℕ) - 1) = some (x : ℤ) ∧ x + e = y + 2 * j ∧ i = j + 1 ∧
      Furthest before after e j x ∧ Walk before after e x y ∧ Opens before after e i (x + 1) := by
  have hdown (hle : i ≤ e) : ∃ x y : ℕ, at_ (2 * i - (e + 1 : ℕ) + 1) = some (x : ℤ) ∧
      x + e = y + 2 * i ∧ Furthest before after e i x ∧ Walk before after e x y ∧
      ∀ x' y', Walk before after e x' y' → x' + e = y' + 2 * i → x' ≤ x := by
    obtain ⟨x, hx, hfar⟩ := hrow i hle
    obtain ⟨y, hxy, hw, hmax⟩ := id hfar
    have heq : (2 * i - (e + 1 : ℕ) + 1 : ℤ) = 2 * i - e := by omega
    exact ⟨x, y, heq ▸ hx, hxy, hfar, hw, hmax⟩
  have halong {j : ℕ} (hj : i = j + 1) : ∃ x y : ℕ, at_ (2 * i - (e + 1 : ℕ) - 1) = some (x : ℤ) ∧
      x + e = y + 2 * j ∧ Furthest before after e j x ∧ Walk before after e x y ∧
      ∀ x' y', Walk before after e x' y' → x' + e = y' + 2 * j → x' ≤ x := by
    obtain ⟨x, hx, hfar⟩ := hrow j (by omega)
    obtain ⟨y, hxy, hw, hmax⟩ := id hfar
    have heq : (2 * i - (e + 1 : ℕ) - 1 : ℤ) = 2 * j - e := by omega
    exact ⟨x, y, heq ▸ hx, hxy, hfar, hw, hmax⟩
  rw [comesDown]
  rcases Nat.eq_zero_or_pos i with rfl | hpos
  · -- the lowest diagonal opens from above only
    obtain ⟨x, y, hx, hxy, hfar, hw, hmax⟩ := hdown (zero_le e)
    refine .inl ⟨x, y, if_pos (by omega), hx, hxy, zero_le e, hfar, hw,
      fun x' y' h' hi' => ?_, fun x' y' h' hi' => hmax x' y' h' (by omega)⟩
    obtain ⟨j, -, hj⟩ := h'.diagonal
    omega
  · obtain ⟨j, rfl⟩ := Nat.exists_eq_add_of_le' hpos
    obtain ⟨x, y, hx, hxy, hfar, hw, hmax⟩ := halong rfl
    rw [if_neg (by omega)]
    rcases lt_or_ge e (j + 1) with hlt | hle
    · -- and the highest from below only
      refine .inr ⟨x, y, j, if_pos (by omega), hx, hxy, rfl, hfar, hw,
        fun x' y' h' hi' => ?_, fun x' y' h' hi' => ?_⟩
      · have := hmax x' y' h' (by omega)
        omega
      · obtain ⟨j', hj', heq⟩ := h'.diagonal
        omega
    · obtain ⟨x₁, y₁, hx₁, hxy₁, hfar₁, hw₁, hmax₁⟩ := hdown hle
      rw [if_neg (by omega), hx, hx₁]
      by_cases hlt : x < x₁
      · refine .inl ⟨x₁, y₁, by simpa using hlt, rfl, hxy₁, hle, hfar₁, hw₁,
          fun x' y' h' hi' => ?_, fun x' y' h' hi' => hmax₁ x' y' h' (by omega)⟩
        have := hmax x' y' h' (by omega)
        omega
      · refine .inr ⟨x, y, j, by simpa using hlt, rfl, hxy, rfl, hfar, hw,
          fun x' y' h' hi' => ?_, fun x' y' h' hi' => ?_⟩
        · have := hmax x' y' h' (by omega)
          omega
        · have := hmax₁ x' y' h' (by omega)
          omega

/-! ## One step -/

theorem store_spec {cells : List ℤ} {at_ x : ℤ} (h : asUsize at_ < cells.length) :
    ∃ cells', store cells at_ x = some cells' ∧ cells'.length = cells.length ∧
      cell cells' at_ = some x ∧
      ∀ other, asUsize other ≠ asUsize at_ → cell cells' other = cell cells other := by
  refine ⟨_, if_pos h, length_set, ?_, fun other hne => ?_⟩
  · rw [cell, getElem?_set_self h]
  · rw [cell, getElem?_set_ne hne.symm, cell]

/-- The corner, or what is past it, reached by `d` edits. -/
def Corner (before after : List UInt32) (d : ℕ) : Prop :=
  ∃ x y, Walk before after d x y ∧ before.length ≤ x ∧ after.length ≤ y

/-- The row a step reads: of the step before, or the seed's one cell. -/
def Entered (before after : List UInt32) (maxD d : ℕ) (frontier : List ℤ) : Prop :=
  frontier.length = 2 * maxD + 3 ∧ match d with
    | 0 => cell frontier (maxD + 1 + 1) = some 0
    | e + 1 => Row before after e fun k => cell frontier (maxD + 1 + k)

/-- Where a diagonal opens, as the frontier says it. -/
theorem opens_spec (hb : before.length + maxEditScript < 2 ^ 31) (hd : d ≤ maxEditScript)
    (hentered : Entered before after maxD d frontier) (hi : i ≤ d) :
    ∃ x y : ℕ, opening (maxD + 1) d (2 * i - d) frontier = some (x : ℤ) ∧
      x + d = y + 2 * i ∧ Walk before after d x y ∧
      ∀ x' y', x ≤ x' → Walk before after d x' y' → x' + d = y' + 2 * i →
        (∀ a, before[x']? = some a → after[y']? ≠ some a) → Furthest before after d i x' := by
  cases d with
  | zero =>
    obtain rfl : i = 0 := by omega
    refine ⟨0, 0, ?_, rfl, .start, fun x' y' _ hw hi' hstuck => ?_⟩
    · have hzero : cell frontier (maxD + 1 + 1) = some 0 := hentered.2
      simpa [opening, comesDown] using hzero
    · obtain rfl : y' = x' := by omega
      exact .of_stuck_zero hw hstuck
  | succ e =>
    rcases comesDown_spec hentered.2 hi with
      ⟨x, y, hdown, hx, hxy, hie, -, hw, hopens⟩ | ⟨x, y, j, hdown, hx, hxy, rfl, -, hw, hopens⟩
    · rw [← Int.add_assoc] at hx
      refine ⟨x, y + 1, ?_, by omega, hw.insert, fun x' y' hle hw' hi' hstuck =>
        hopens.furthest hle hw' hi' hstuck⟩
      rw [opening, hdown]
      exact hx
    · rw [← Int.add_sub_assoc] at hx
      have := hw.bounds.1
      refine ⟨x + 1, y, ?_, by omega, hw.delete, fun x' y' hle hw' hi' hstuck =>
        hopens.furthest hle hw' hi' hstuck⟩
      have hfits : i32 ((x : ℤ) + 1) = some ((x + 1 : ℕ) : ℤ) := if_pos (by omega)
      rw [opening, hdown, bind_eq_bind, bind_some, if_neg Bool.false_ne_true, hx,
        bind_eq_bind, bind_some, hfits]

/-- **A step's diagonals** reach furthest one after another, until one reaches the corner. -/
theorem diagonals_spec (hb : before.length + maxEditScript < 2 ^ 31)
    (ha : after.length + maxEditScript < 2 ^ 31) (hd : d ≤ maxD) (hmax : maxD ≤ maxEditScript)
    (hentered : Entered before after maxD d frontier) (hi : i ≤ d + 1)
    (hdone : ∀ j < i, ∃ x : ℕ, cell frontier (maxD + 1 + (2 * j - d)) = some (x : ℤ) ∧
      Furthest before after d j x ∧ ¬(before.length ≤ x ∧ after.length + 2 * j ≤ x + d)) :
    ∃ frontier' reached, diagonals before after (maxD + 1) d (2 * i - d) frontier =
        some (frontier', reached) ∧
      if reached then Corner before after d
      else ¬Corner before after d ∧ Entered before after maxD (d + 1) frontier' := by
  induction hn : d + 1 - i generalizing i frontier with
  | zero =>
    refine ⟨frontier, false, ?_, fun ⟨x, y, hw, hx, hy⟩ => ?_, hentered.1, fun j hj => ?_⟩
    · rw [diagonals, dif_neg (by omega)]
    · obtain ⟨j, hj, hxy⟩ := hw.diagonal
      obtain ⟨a, -, ⟨b, hab, -, hfar⟩, hshort⟩ := hdone j (by omega)
      have := hfar x y hw hxy
      exact hshort ⟨by omega, by omega⟩
    · obtain ⟨x, hx, hfar, -⟩ := hdone j (by omega)
      exact ⟨x, hx, hfar⟩
  | succ n ih =>
    obtain ⟨x₀, y₀, hopen, hxy₀, hw₀, hfar⟩ := opens_spec hb (hd.trans hmax) hentered (show i ≤ d by omega)
    obtain ⟨x, y, hslide, hle, hdiagonal, hwalk, hstuck⟩ :=
      @slide_spec before after (by omega) (by omega) x₀ y₀
    have hw := hwalk d hw₀
    have hfurthest := hfar x y hle hw (by omega) hstuck
    have hlen := hentered.1
    have hwithin : asUsize ((maxD : ℤ) + 1 + (2 * i - d)) < frontier.length := by
      rw [asUsize]
      omega
    obtain ⟨stored, hstore, hlength, hself, hother⟩ := @store_spec frontier _ x hwithin
    have hy : i32 ((x₀ : ℤ) - (2 * i - d)) = some (y₀ : ℤ) := by
      have := hw₀.bounds.2
      rw [i32, if_pos (by omega)]
      exact congrArg some (by omega)
    have hstep : diagonals before after (maxD + 1) d (2 * i - d) frontier =
        if (before.length : ℤ) ≤ x ∧ (after.length : ℤ) ≤ y then some (stored, true)
        else diagonals before after (maxD + 1) d (2 * i - d + 2) stored := by
      rw [diagonals, dif_pos (by omega), hopen]
      simp only [bind_eq_bind, bind_some, hy, hslide, hstore]
    rw [hstep]
    split
    · next hreached => exact ⟨stored, true, rfl, x, y, hw, by omega, by omega⟩
    · next hshort =>
      have hkept {j : ℕ} (hj : j ≤ d) (hne : j ≠ i) :
          cell stored (maxD + 1 + (2 * j - d)) = cell frontier (maxD + 1 + (2 * j - d)) :=
        hother _ (by rw [asUsize, asUsize]; omega)
      have hnext : (2 * i - d + 2 : ℤ) = 2 * (i + 1 : ℕ) - d := by omega
      rw [hnext]
      refine @ih (i + 1) stored ⟨hlength.trans hlen, ?_⟩ (by omega) (fun j hj => ?_) (by omega)
      · have hread := hentered.2
        cases d with
        | zero => exact (hother _ (by rw [asUsize, asUsize]; omega)).trans hread
        | succ e =>
          refine fun j hj => (hread j hj).imp fun a => And.imp_left fun hcell => ?_
          exact (hother _ (by rw [asUsize, asUsize]; omega)).trans hcell
      · rcases Nat.lt_succ_iff_lt_or_eq.mp hj with hlt | rfl
        · exact (hdone j hlt).imp fun a => And.imp_left (hkept (by omega) hlt.ne).trans
        · exact ⟨x, hself, hfurthest, fun hcorner => hshort ⟨by omega, by omega⟩⟩

/-! ## The way back -/

/-- The rows of the steps before `d`, each with the furthest walks it found. -/
def Traced (before after : List UInt32) (d : ℕ) (rows : List ℤ) : Prop :=
  rows.length = d * d ∧ ∀ e, e + 1 < d → ∀ j ≤ e, ∃ x : ℕ,
    rows[(e + 1) * (e + 1) + (2 * j + 1)]? = some (x : ℤ) ∧ Furthest before after e j x

/-- The frontier a step enters with is its row of the trace. -/
theorem Traced.row (h : Traced before after d rows) (hd : d ≤ maxD) (hmax : maxD ≤ maxEditScript)
    (hentered : Entered before after maxD d frontier) :
    ∃ row, slice frontier (maxD + 1 - d) (maxD + 1 + d + 1) = some row ∧
      Traced before after (d + 1) (rows ++ row) := by
  have hmax' : maxD ≤ 1024 := hmax
  have hlen := hentered.1
  refine ⟨_, slice_eq (by omega) (by omega), ?_, fun e he j hj => ?_⟩
  · rw [length_append, h.1, length_drop, length_take_of_le (by omega)]
    linarith [show maxD + 1 + d + 1 - (maxD + 1 - d) = 2 * d + 1 by omega]
  · rcases Nat.lt_succ_iff_lt_or_eq.mp he with hlt | rfl
    · obtain ⟨x, hx, hfar⟩ := h.2 e hlt j hj
      exact ⟨x, by rwa [getElem?_append_left (List.getElem?_eq_some_iff.mp hx).1], hfar⟩
    · obtain ⟨x, hx, hfar⟩ := hentered.2 j hj
      refine ⟨x, ?_, hfar⟩
      rw [getElem?_append_right (by rw [h.1]; omega), h.1, Nat.add_sub_cancel_left,
        getElem?_drop, getElem?_take_of_lt (by omega), ← cell_natCast (by omega), ← hx]
      exact congrArg _ (by omega)

/-- A step back reads the neighbour the greedy rule came from. -/
theorem predecessor_spec (h : Traced before after d rows) (hd : d ≤ maxEditScript + 1)
    (he : e + 1 < d) (hi : i ≤ e + 1) : ∃ px py x₀ y₀ j : ℕ,
      predecessor rows (e + 1) (2 * i - (e + 1 : ℕ)) = some ((px : ℤ), (py : ℤ)) ∧ j ≤ e ∧
      px + e = py + 2 * j ∧ Furthest before after e j px ∧ Opens before after e i x₀ ∧
      Walk before after (e + 1) x₀ y₀ ∧ x₀ + (e + 1) = y₀ + 2 * i ∧
      (x₀ = px ∧ y₀ = py + 1 ∨ x₀ = px + 1 ∧ y₀ = py) := by
  have hmax : maxEditScript = 1024 := rfl
  have hroom : (e + 1) * (e + 1) + (2 * (e + 1) + 1) ≤ rows.length := by
    rw [h.1]
    nlinarith
  have hrow : Row before after e fun diagonal => cell ((rows.take ((e + 1) * (e + 1) +
      (2 * (e + 1) + 1))).drop ((e + 1) * (e + 1))) (diagonal + (e + 1 : ℕ)) := by
    intro j hj
    obtain ⟨x, hx, hfar⟩ := h.2 e he j hj
    refine ⟨x, ?_, hfar⟩
    dsimp only
    rw [show (2 * j - e + (e + 1 : ℕ) : ℤ) = (2 * j + 1 : ℕ) by omega, cell_natCast (by omega),
      getElem?_drop, getElem?_take_of_lt (by omega), hx]
  rw [predecessor, slice_eq (by omega) hroom]
  simp only [bind_eq_bind, bind_some]
  rcases comesDown_spec hrow hi with ⟨x, y, hdown, hx, hxy, hie, hfar, hw, hopens⟩ |
    ⟨x, y, j, hdown, hx, hxy, rfl, hfar, hw, hopens⟩
  · refine ⟨x, y, x, y + 1, i, ?_, hie, hxy, hfar, hopens, hw.insert, by omega, .inl ⟨rfl, rfl⟩⟩
    simp only [hdown, bind_some, if_true, hx]
    exact congrArg some (Prod.ext rfl (by dsimp only; omega))
  · refine ⟨x, y, x + 1, y, j, ?_, by omega, hxy, hfar, hopens, hw.delete, by omega, .inr ⟨rfl, rfl⟩⟩
    simp only [hdown, bind_some, Bool.false_eq_true, if_false, hx]
    exact congrArg some (Prod.ext rfl (by dsimp only; omega))

theorem unslide_eq (px py : ℤ) {x y : ℕ} (hpx : px ≤ x) (hpy : py ≤ y) (hstop : px = x ∨ py = y) :
    ∀ (s : ℕ) (_ : x + s < 2 ^ 32) (_ : y + s < 2 ^ 32) (found : List (ℕ × ℕ)),
      (unslide px py (x + s : ℕ) (y + s : ℕ) found).reverse =
        ((range s).map fun t => (x + t, y + t)) ++ found.reverse
  | 0, _, _, found => by
    rw [unslide, dif_neg (by omega)]
    rfl
  | s + 1, hx, hy, found => by
    rw [unslide, dif_pos (by omega), show ((x + (s + 1) : ℕ) - 1 : ℤ) = (x + s : ℕ) by omega,
      show ((y + (s + 1) : ℕ) - 1 : ℤ) = (y + s : ℕ) by omega, asUsize_natCast (by omega),
      asUsize_natCast (by omega), unslide_eq px py hpx hpy hstop s (by omega) (by omega),
      reverse_append, range_succ, map_append, append_assoc]
    rfl

/-- Matches in text order, all of them before a position. -/
structure Matches (before after : List UInt32) (x y : ℕ) (pairs : List (ℕ × ℕ)) : Prop where
  ascending : pairs.Pairwise fun p q => p.1 < q.1 ∧ p.2 < q.2
  within : ∀ p ∈ pairs, p.1 < x ∧ p.2 < y
  equal : ∀ p ∈ pairs, ∃ a, before[p.1]? = some a ∧ after[p.2]? = some a

/-- What one diagonal kept goes after what came before it. -/
theorem Matches.slide {x y x₀ y₀ s : ℕ} {pairs : List (ℕ × ℕ)} (h : Matches before after x y pairs)
    (hx : x ≤ x₀) (hy : y ≤ y₀)
    (hkept : ∀ t < s, ∃ a, before[x₀ + t]? = some a ∧ after[y₀ + t]? = some a) :
    Matches before after (x₀ + s) (y₀ + s)
      (pairs ++ (range s).map fun t => (x₀ + t, y₀ + t)) where
  ascending := by
    refine pairwise_append.mpr ⟨h.ascending, pairwise_map.mpr ?_, fun p hp q hq => ?_⟩
    · exact pairwise_lt_range.imp fun hlt => ⟨by omega, by omega⟩
    · obtain ⟨t, -, rfl⟩ := mem_map.mp hq
      have := h.within p hp
      omega
  within p hp := by
    rcases mem_append.mp hp with hp | hp
    · have := h.within p hp
      omega
    · obtain ⟨t, ht, rfl⟩ := mem_map.mp hp
      have := mem_range.mp ht
      omega
  equal p hp := by
    rcases mem_append.mp hp with hp | hp
    · exact h.equal p hp
    · obtain ⟨t, ht, rfl⟩ := mem_map.mp hp
      exact hkept t (mem_range.mp ht)

/-- **The way back** from a furthest walk collects a match for each step that is no edit. -/
theorem backtrackFrom_spec (hb : before.length + maxEditScript < 2 ^ 31)
    (ha : after.length + maxEditScript < 2 ^ 31) (hd : d ≤ maxEditScript + 1)
    (h : Traced before after d rows) : ∀ {e i x y : ℕ}, e < d → x + e = y + 2 * i →
      Furthest before after e i x → ∀ found, ∃ found' pairs,
        backtrackFrom rows e x y found = some found' ∧
        found'.reverse = pairs ++ found.reverse ∧ Matches before after x y pairs ∧
        2 * pairs.length + e = x + y
  | 0, i, x, y, _, hi, hfar, found => by
    obtain ⟨y', hy', hw, -⟩ := hfar
    obtain ⟨x₁, y₁, hle, hdiagonal, hkept, ⟨-, rfl, rfl⟩ | ⟨e', he', -⟩⟩ := hw.last
    · obtain ⟨j, hj, heq⟩ := hw.diagonal
      have := hw.bounds
      obtain rfl : y = x := by omega
      obtain rfl : y' = y := by omega
      have hslid := @unslide_eq 0 0 0 0 le_rfl le_rfl (.inl rfl) y' (by omega) (by omega) found
      have hnone : Matches before after 0 0 [] := ⟨.nil, by simp, by simp⟩
      have hpairs := hnone.slide le_rfl le_rfl fun t (ht : t < y') => hkept t (by omega)
      rw [zero_add] at hslid hpairs
      exact ⟨_, _, rfl, hslid, hpairs, by simp; omega⟩
    · omega
  | e + 1, i, x, y, he, hi, hfar, found => by
    obtain ⟨y', hy', hw, hmax⟩ := hfar
    obtain rfl : y' = y := by omega
    obtain ⟨i', hi', heq⟩ := hw.diagonal
    obtain ⟨px, py, x₀, y₀, j, hpred, hj, hpxy, hpfar, hopens, hw₀, hxy₀, hcame⟩ :=
      predecessor_spec h hd he (show i ≤ e + 1 by omega)
    have hle := hmax x₀ y₀ hw₀ hxy₀
    obtain ⟨s, rfl⟩ := Nat.exists_eq_add_of_le hle
    obtain rfl : y' = y₀ + s := by omega
    have hbounds := hw.bounds
    have hslid := unslide_eq px py (x := x₀) (y := y₀) (by omega) (by omega) (by omega) s (by omega)
      (by omega) found
    obtain ⟨found', pairs, hback, hreverse, hpairs, hcount⟩ := backtrackFrom_spec hb ha hd h
      (show e < d by omega) hpxy hpfar (unslide px py (x₀ + s : ℕ) (y₀ + s : ℕ) found)
    refine ⟨found', pairs ++ (range s).map fun t => (x₀ + t, y₀ + t), ?_, ?_,
      hpairs.slide (by omega) (by omega) fun t ht => hopens.kept hw hi hxy₀ (by omega), ?_⟩
    · rw [backtrackFrom, show ((x₀ + s : ℕ) - (y₀ + s : ℕ) : ℤ) = 2 * i - (e + 1 : ℕ) by omega, hpred]
      exact hback
    · rw [hreverse, hslid, append_assoc]
    · rw [length_append, length_map, length_range]
      omega

/-! ## The steps -/

/-- **The step that reaches the corner first** is the least number of edits. -/
theorem steps_spec (hb : before.length + maxEditScript < 2 ^ 31)
    (ha : after.length + maxEditScript < 2 ^ 31) (hmax : maxD ≤ maxEditScript) {left : ℕ}
    (hleft : d + left = maxD + 1) (hentered : Entered before after maxD d frontier)
    (h : Traced before after d rows) (hno : ∀ e < d, ¬Corner before after e) :
    ∃ found, steps before after maxD left d frontier rows = some found ∧ match found with
      | none => ∀ e ≤ maxD, ¬Corner before after e
      | some pairs => ∃ e ≤ maxD, Corner before after e ∧ (∀ e' < e, ¬Corner before after e') ∧
          Matches before after before.length after.length pairs ∧
          2 * pairs.length + e = before.length + after.length := by
  induction left generalizing d frontier rows with
  | zero => exact ⟨none, rfl, fun e he => hno e (by omega)⟩
  | succ left ih =>
    obtain ⟨row, hrow, htraced⟩ := h.row (by omega) hmax hentered
    obtain ⟨frontier', reached, hdiagonals, hstep⟩ :=
      diagonals_spec hb ha (by omega) hmax hentered (zero_le _) (by omega)
    rw [show (2 * (0 : ℕ) - d : ℤ) = -d by omega] at hdiagonals
    simp only [steps, hrow, bind_eq_bind, bind_some, hdiagonals]
    cases reached with
    | false => exact ih (by omega) hstep.2 htraced fun e he =>
        (Nat.lt_succ_iff_lt_or_eq.mp he).elim (hno e) fun heq => heq ▸ hstep.1
    | true =>
      have hshort {x y : ℕ} (hw : Walk before after d x y) (hx : before.length ≤ x)
          (hy : after.length ≤ y) : x = before.length ∧ y = after.length := by
        obtain ⟨e, hclamped, he⟩ := hw.clamp
        have := mt (hno e) (not_not_intro ⟨_, _, hclamped, by omega, by omega⟩)
        omega
      obtain ⟨x, y, hw, hx, hy⟩ := id hstep
      obtain ⟨rfl, rfl⟩ := hshort hw hx hy
      obtain ⟨i, -, hi⟩ := hw.diagonal
      obtain ⟨found, pairs, hback, hreverse, hpairs, hcount⟩ := backtrackFrom_spec hb ha (by omega)
        htraced (lt_succ_self d) hi ⟨_, hi, hw, fun x' y' hw' hi' => by
          by_contra hlt
          have := hshort hw' (by omega) (by omega)
          omega⟩ []
      exact ⟨some pairs, by simp [backtrack, hback, hreverse], d, by omega, hstep, hno, hpairs, hcount⟩

theorem corner_of_script (h : Script before after d) : ∃ e ≤ d, Corner before after e :=
  (Walk.corner_iff.mpr ⟨d, le_rfl, h⟩).imp fun _ => And.imp_right fun hw => ⟨_, _, hw, le_rfl, le_rfl⟩

theorem Corner.script (h : Corner before after d) : ∃ e ≤ d, Script before after e := by
  obtain ⟨x, y, hw, hx, hy⟩ := h
  obtain ⟨e, hclamped, he⟩ := hw.clamp
  rw [min_eq_right hx, min_eq_right hy] at hclamped
  exact Walk.corner_iff.mp ⟨e, by omega, hclamped⟩

end Myers

open Myers

/-- **The shortest script is a longest common subsequence**: no value is out of bounds, nothing is
returned just past `MAX_EDIT_SCRIPT` edits, and the pairs ascend, match, and are as many as any common
subsequence has.  A side too long for an `i32` is refused. -/
theorem shortestEditScript_lcs (before after : List UInt32) :
    (before.length + maxEditScript < 2 ^ 31 → after.length + maxEditScript < 2 ^ 31 →
      ∃ script, shortestEditScript before after = some script ∧
        (script = none ↔ ∀ d, Script before after d → maxEditScript < d) ∧
        ∀ pairs, script = some pairs →
          (pairs.Pairwise fun p q => p.1 < q.1 ∧ p.2 < q.2) ∧
          (∀ p ∈ pairs, ∃ a, before[p.1]? = some a ∧ after[p.2]? = some a) ∧
          (∃ s : List UInt32, s.Sublist before ∧ s.Sublist after ∧ s.length = pairs.length) ∧
          ∀ s : List UInt32, s.Sublist before → s.Sublist after → s.length ≤ pairs.length) ∧
    (¬(before.length < 2 ^ 31 ∧ after.length < 2 ^ 31) →
      shortestEditScript before after = some none) := by
  refine ⟨fun hb ha => ?_, fun h => if_neg h⟩
  have hseed : Entered before after (min maxEditScript (before.length + after.length)) 0
      (replicate (2 * min maxEditScript (before.length + after.length) + 3) 0) := by
    refine ⟨length_replicate, ?_⟩
    rw [show ∀ n : ℕ, (n + 1 + 1 : ℤ) = (n + 2 : ℕ) from fun _ => rfl,
      cell_natCast (by simp only [maxEditScript]; omega), getElem?_replicate, if_pos (by omega)]
  obtain ⟨script, hscript, hspec⟩ := steps_spec hb ha (min_le_left ..) (zero_add _) hseed
    (show Traced before after 0 [] from ⟨rfl, by omega⟩) (by omega)
  refine ⟨script, by rw [shortestEditScript, if_pos (by omega)]; exact hscript, ?_⟩
  cases script with
  | none =>
    refine ⟨⟨fun _ d hd => ?_, fun _ => rfl⟩, fun _ => nofun⟩
    obtain ⟨e, he, hcorner⟩ := corner_of_script hd
    obtain ⟨e', he', hcorner'⟩ := corner_of_script (Script.of_sublist before.nil_sublist after.nil_sublist)
    have := mt (hspec e) (not_not_intro hcorner)
    have := mt (hspec e') (not_not_intro hcorner')
    omega
  | some pairs =>
    obtain ⟨e, he, hcorner, hleast, hpairs, hcount⟩ := hspec
    have hlongest (s : List UInt32) (hs : s.Sublist before) (hs' : s.Sublist after) :
        s.length ≤ pairs.length := by
      obtain ⟨e', he', hcorner'⟩ := corner_of_script (Script.of_sublist hs hs')
      have := mt (hleast e') (not_not_intro hcorner')
      have := hs.length_le
      have := hs'.length_le
      omega
    obtain ⟨e', he', hedits⟩ := hcorner.script
    refine ⟨⟨nofun, fun h => absurd (h e' hedits) (by omega)⟩, fun _ => ?_⟩
    rintro ⟨⟩
    obtain ⟨s, hs, hs', hlen⟩ := hedits.exists_sublist
    have := hlongest s hs hs'
    exact ⟨hpairs.ascending, hpairs.equal, ⟨s, hs, hs', by omega⟩, hlongest⟩

/-- Two words in common of three and four. -/
theorem shortestEditScript_lcs_words : ∃ script,
    shortestEditScript [1, 2, 3] [2, 4, 3, 1] = some script ∧ script ≠ none := by
  obtain ⟨script, hscript, hnone, -⟩ := (shortestEditScript_lcs [1, 2, 3] [2, 4, 3, 1]).1
    (by decide) (by decide)
  exact ⟨script, hscript, fun h => absurd
    (hnone.mp h _ (.delete 1 (.keep 2 (.insert 4 (.keep 3 (.insert 1 .nil)))))) (by decide)⟩

/-- Equal sides are not always aligned: `2 ^ 31` words on each are refused, at no edit. -/
theorem shortestEditScript_refuses_equal :
    shortestEditScript (replicate (2 ^ 31) 0) (replicate (2 ^ 31) 0) = some none ∧
      Script (replicate (2 ^ 31) (0 : UInt32)) (replicate (2 ^ 31) 0) 0 := by
  refine ⟨if_neg fun h => ?_, .refl _⟩
  rw [length_replicate] at h
  exact absurd h.1 (lt_irrefl _)

end Oneiron
