import Mathlib.Algebra.Order.BigOperators.Group.List
import Mathlib.Algebra.GroupWithZero.Nat
import Mathlib.Algebra.Order.Group.Nat
import Std.Data.ExtTreeMap
import Std.Data.ExtTreeSet

/-!
# Foundations/Ordered — finite maps and sets that enumerate in key order

`Std.ExtTreeMap` and `Std.ExtTreeSet` at the key's own order.  Two facts carry every use of them: a
list that is strictly increasing and has a map's bindings *is* the map's enumeration
(`eq_toList_of_sorted`), and a total weight over the bindings moves by exactly the weight of the one
binding a write touches (`weigh_insert_add`, `weigh_erase_add`).
-/

open Std

namespace Oneiron

open Std.ExtTreeMap

attribute [instance] lexOrd

theorem compare_pair {α β : Type*} [Ord α] [Ord β] (a b : α × β) :
    compare a b = (compare a.1 b.1).then (compare a.2 b.2) := rfl

/-- A finite map enumerated in increasing key order. -/
abbrev OrderedMap (κ : Type*) (ν : Type*) [Ord κ] := ExtTreeMap κ ν compare

/-- A finite set enumerated in increasing order. -/
abbrev OrderedSet (κ : Type*) [Ord κ] := ExtTreeSet κ compare

/-! ## Strictly increasing lists -/

section Sorted

variable {α : Type*} (cmp : α → α → Ordering)

/-- A list that strictly increases under `cmp`. -/
def Sorted (l : List α) : Prop := l.Pairwise fun a b => cmp a b = .lt

variable {cmp}

@[simp] theorem sorted_nil : Sorted cmp [] := List.Pairwise.nil

variable {l : List α}

theorem sorted_cons {a : α} :
    Sorted cmp (a :: l) ↔ (∀ b ∈ l, cmp a b = .lt) ∧ Sorted cmp l := List.pairwise_cons

theorem Sorted.filter (h : Sorted cmp l) (p : α → Bool) : Sorted cmp (l.filter p) :=
  List.Pairwise.filter p h

theorem Sorted.nodup [ReflCmp cmp] (h : Sorted cmp l) : l.Nodup :=
  h.imp fun {a b} hab heq => by
    subst heq
    simp [ReflCmp.compare_self] at hab

/-- **A strictly increasing list is determined by its members.** -/
theorem Sorted.eq_of_mem_iff [TransCmp cmp] {l₁ l₂ : List α} (h₁ : Sorted cmp l₁)
    (h₂ : Sorted cmp l₂) (h : ∀ a, a ∈ l₁ ↔ a ∈ l₂) : l₁ = l₂ := by
  have hperm := (List.perm_ext_iff_of_nodup h₁.nodup h₂.nodup).mpr h
  refine List.Perm.eq_of_pairwise (fun a b _ _ hab hba => ?_) h₁ h₂ hperm
  exact absurd (OrientedCmp.gt_iff_lt.mpr hba) (by simp [hab])

end Sorted

section Map

variable {κ ν : Type*} [Ord κ] [TransOrd κ] [LawfulEqOrd κ]

/-- **A map's enumeration is the increasing list of its bindings.** -/
theorem OrderedMap.eq_toList_of_sorted {m : OrderedMap κ ν} {l : List (κ × ν)}
    (hl : Sorted (fun a b => compare a.1 b.1) l) (h : ∀ k v, (k, v) ∈ l ↔ m[k]? = some v) :
    l = m.toList := by
  have : TransCmp fun a b : κ × ν => compare a.1 b.1 := inferInstanceAs (TransCmp (compareOn _))
  exact hl.eq_of_mem_iff ordered_keys_toList fun p =>
    (h p.1 p.2).trans mem_toList_iff_getElem?_eq_some.symm

/-! ## Total weight -/

namespace OrderedMap

/-- The sum of a weight over every binding. -/
def weigh (w : κ → ν → ℕ) (m : OrderedMap κ ν) : ℕ := (m.toList.map fun p => w p.1 p.2).sum

/-- The weight of the one binding at `k`, none when there is none. -/
def weightAt (w : κ → ν → ℕ) (m : OrderedMap κ ν) (k : κ) : ℕ := m[k]?.elim 0 (w k)

variable (w : κ → ν → ℕ) (m : OrderedMap κ ν) (k : κ)

omit [LawfulEqOrd κ] in
@[simp] theorem weigh_empty : weigh w (∅ : OrderedMap κ ν) = 0 := rfl

omit [LawfulEqOrd κ] in
theorem nodup_toList : m.toList.Nodup :=
  (distinct_keys_toList (t := m)).imp fun {a b} hab heq => hab (by simp [heq])

theorem toList_perm_of_erase {m : OrderedMap κ ν} {k : κ} {v : ν} (h : m[k]? = some v) :
    m.toList.Perm ((k, v) :: (m.erase k).toList) := by
  refine (List.perm_ext_iff_of_nodup (nodup_toList m) (List.nodup_cons.mpr
    ⟨fun hm => ?_, nodup_toList _⟩)).mpr fun p => ?_
  · simp [mem_toList_iff_getElem?_eq_some] at hm
  · obtain ⟨j, u⟩ := p
    rw [List.mem_cons, mem_toList_iff_getElem?_eq_some,
      mem_toList_iff_getElem?_eq_some, getElem?_erase]
    by_cases hj : k = j
    · subst hj
      simp [h, eq_comm]
    · simp [hj, Ne.symm hj]

theorem erase_of_getElem?_eq_none {m : OrderedMap κ ν} {k : κ} (h : m[k]? = none) :
    m.erase k = m := ext_getElem? fun j => by
  rw [getElem?_erase]
  by_cases hj : k = j
  · subst hj
    simp [h]
  · simp [hj]

theorem erase_insert (v : ν) : (m.insert k v).erase k = m.erase k :=
  ext_getElem? fun j => by
    rw [getElem?_erase, getElem?_erase, getElem?_insert]
    split <;> rfl

/-- **Erasing a binding takes its weight off the total.** -/
theorem weigh_erase_add : weigh w (m.erase k) + weightAt w m k = weigh w m := by
  cases h : m[k]? with
  | none => simp [erase_of_getElem?_eq_none h, weightAt, h]
  | some v =>
    have hp := (toList_perm_of_erase h).map fun p => w p.1 p.2
    simp only [weigh, weightAt, h, Option.elim_some, hp.sum_eq, List.map_cons, List.sum_cons]
    omega

/-- **Writing a binding trades the weight of the old one for the new one's.** -/
theorem weigh_insert_add (v : ν) : weigh w (m.insert k v) + weightAt w m k = weigh w m + w k v := by
  have h₁ := weigh_erase_add w (m.insert k v) k
  have h₂ := weigh_erase_add w m k
  have hk : weightAt w (m.insert k v) k = w k v := by simp [weightAt]
  rw [erase_insert, hk] at h₁
  omega

omit [LawfulEqOrd κ] in
/-- A lighter weight weighs less. -/
theorem weigh_mono {w w' : κ → ν → ℕ} (h : ∀ k v, w k v ≤ w' k v) : weigh w m ≤ weigh w' m :=
  List.sum_le_sum fun p _ => h p.1 p.2

/-- **Weights compare binding by binding.** -/
theorem weigh_le_weigh {μ : Type*} {w' : κ → μ → ℕ} {m : OrderedMap κ ν} {n : OrderedMap κ μ}
    (h : ∀ k, weightAt w m k ≤ weightAt w' n k) : weigh w m ≤ weigh w' n := by
  induction hs : m.toList generalizing m n with
  | nil =>
    rw [weigh, hs]
    exact Nat.zero_le _
  | cons p l ih =>
    obtain ⟨k, v⟩ := p
    have hk : m[k]? = some v := mem_toList_iff_getElem?_eq_some.mp (by simp [hs])
    have hl : (m.erase k).toList = l := by
      have hsort : Sorted (fun a b : κ × ν => compare a.1 b.1) m.toList :=
        ordered_keys_toList
      rw [hs, sorted_cons] at hsort
      refine (eq_toList_of_sorted hsort.2 fun j u => ?_).symm
      have hp := (toList_perm_of_erase hk).mem_iff (a := (j, u))
      rw [hs, List.mem_cons, List.mem_cons, mem_toList_iff_getElem?_eq_some] at hp
      by_cases hj : j = k
      · subst hj
        have hnot : (j, u) ∉ l := fun hm => by simpa using hsort.1 _ hm
        simp [hnot]
      · simpa [hj] using hp
    have hle : weigh w (m.erase k) ≤ weigh w' (n.erase k) := ih (fun j => by
      by_cases hj : k = j
      · simp [weightAt, hj]
      · simpa [weightAt, getElem?_erase, hj] using h j) hl
    have := weigh_erase_add w m k
    have := weigh_erase_add w' n k
    have := h k
    omega

end OrderedMap

end Map

end Oneiron
