import Mathlib.Data.List.Basic
import Mathlib.Order.Nat

/-!
# Foundations/Chunks — a list in runs of one length, and lists that shrink under it

    S₀ ⊆ S₁ ⊆ S₂          chunk 0 of S₀ · chunk 1 of S₁ · chunk 2 of S₂

Rewriting the chunks of a list in place, each time those of a sublist of what there was, leaves chunks
of different lists side by side.  What the smallest list holds none of them loses
(`exists_mem_chunk`): the chunk a member falls in only moves up as its list grows.
-/

namespace Oneiron

open List Nat

variable {α : Type*}

/-- The `i`th run of `k`. -/
def chunk (k i : ℕ) (l : List α) : List α := (l.drop (i * k)).take k

/-- How many runs there are, at least one. -/
def chunkCount (k : ℕ) (l : List α) : ℕ := max 1 ((l.length + k - 1) / k)

variable {k i : ℕ} {l : List α} {a : α}

theorem mem_of_mem_chunk (h : a ∈ chunk k i l) : a ∈ l := mem_of_mem_drop (mem_of_mem_take h)

theorem one_le_chunkCount : 1 ≤ chunkCount k l := le_max_left ..

theorem length_le_chunkCount_mul (hk : 0 < k) : l.length ≤ chunkCount k l * k := by
  have hdiv : (l.length + k - 1) / k ≤ chunkCount k l := le_max_right ..
  have hlt : l.length + k - 1 < ((l.length + k - 1) / k + 1) * k := by
    have hmod := Nat.mod_lt (l.length + k - 1) hk
    have heq := div_add_mod (l.length + k - 1) k
    rw [Nat.add_mul, Nat.one_mul, Nat.mul_comm]
    omega
  have hmul := mul_le_mul_right k hdiv
  rw [Nat.add_mul, Nat.one_mul] at hlt
  omega

section Shrinking

variable [DecidableEq α]

theorem mem_chunk_of_idxOf (h : a ∈ l) (hlow : i * k ≤ l.idxOf a) (hhigh : l.idxOf a < i * k + k) :
    a ∈ chunk k i l := by
  have hlt := idxOf_lt_length_of_mem h
  have hget : (chunk k i l)[l.idxOf a - i * k]? = some a := by
    rw [chunk, getElem?_take, if_pos (by omega), getElem?_drop,
      Nat.add_sub_cancel' hlow, getElem?_eq_getElem hlt, getElem_idxOf hlt]
  exact mem_of_getElem? hget

/-- A member comes no later in a sublist. -/
theorem idxOf_le_of_sublist {l' : List α} (h : l.Sublist l') (hnodup : l'.Nodup) (ha : a ∈ l) :
    l.idxOf a ≤ l'.idxOf a := by
  induction h with
  | slnil => exact le_rfl
  | cons b hsub ih =>
    rw [nodup_cons] at hnodup
    have hne : b ≠ a := fun heq => hnodup.1 (heq ▸ hsub.subset ha)
    rw [idxOf_cons_ne _ hne]
    exact (ih hnodup.2 ha).trans (le_succ _)
  | cons_cons b hsub ih =>
    rw [nodup_cons] at hnodup
    by_cases heq : b = a
    · subst heq
      rw [idxOf_cons_self]
      exact zero_le _
    · rw [idxOf_cons_ne _ heq, idxOf_cons_ne _ heq]
      exact succ_le_succ (ih hnodup.2 (mem_of_ne_of_mem (Ne.symm heq) ha))

/-- A rising map of the numbers under `n` to themselves fixes one. -/
theorem exists_fixed {n : ℕ} {c : ℕ → ℕ} (hpos : 0 < n) (hlt : ∀ i < n, c i < n)
    (hmono : ∀ i j, i ≤ j → j < n → c i ≤ c j) : ∃ i < n, c i = i := by
  have hexists : ∃ i, i < n ∧ c i ≤ i := ⟨n - 1, by omega, by have := hlt (n - 1) (by omega); omega⟩
  obtain ⟨hi, hle⟩ := Nat.find_spec hexists
  refine ⟨Nat.find hexists, hi, le_antisymm hle ?_⟩
  cases hfind : Nat.find hexists with
  | zero => exact zero_le _
  | succ i =>
    rw [hfind] at hi
    have hnot := Nat.find_min hexists (show i < Nat.find hexists by omega)
    have hbelow := hmono i (i + 1) (le_succ i) hi
    push Not at hnot
    have hlow := hnot (by omega)
    omega

/-- **What the smallest list holds is in the chunks**, one taken from each of the growing lists. -/
theorem exists_mem_chunk {n : ℕ} {S : ℕ → List α} (hk : 0 < k) (hpos : 0 < n)
    (hsub : ∀ i j, i ≤ j → j < n → (S i).Sublist (S j)) (hnodup : ∀ i < n, (S i).Nodup)
    (hlen : ∀ i < n, (S i).length ≤ n * k) (ha : a ∈ S 0) : ∃ i < n, a ∈ chunk k i (S i) := by
  have hmem (i : ℕ) (hi : i < n) : a ∈ S i := (hsub 0 i (zero_le i) hi).subset ha
  obtain ⟨i, hi, hfixed⟩ := exists_fixed (c := fun i => (S i).idxOf a / k) hpos
    (fun i hi => (div_lt_iff_lt_mul hk).mpr
      ((idxOf_lt_length_of_mem (hmem i hi)).trans_le (hlen i hi)))
    fun i j hij hj => Nat.div_le_div_right
      (idxOf_le_of_sublist (hsub i j hij hj) (hnodup j hj) (hmem i (hij.trans_lt hj)))
  refine ⟨i, hi, mem_chunk_of_idxOf (hmem i hi) ?_ ?_⟩
  · calc i * k = (S i).idxOf a / k * k := by rw [hfixed]
      _ ≤ (S i).idxOf a := div_mul_le_self _ _
  · calc (S i).idxOf a < k * ((S i).idxOf a / k + 1) := lt_mul_div_succ _ hk
      _ = i * k + k := by rw [hfixed, Nat.mul_comm, Nat.add_mul, Nat.one_mul]

end Shrinking

end Oneiron
