import Mathlib.Algebra.BigOperators.Group.Finset.Piecewise
import Mathlib.Data.List.GetD
import Oneiron.Foundations.Ordered
import Oneiron.Foundations.Saturating

/-!
# Foundations/Rows — a vector of counters, and entries that each move some of them

    l.modify i₁ (+ u₁) … .modify iₙ (+ uₙ)      row i moves by the sum of the uₖ with iₖ = i

A row's value under such a pass is its old one and its share (`valueAt_foldl_add`,
`valueAt_foldl_sub`), and the shares of all rows are the whole (`sum_share`).
-/

namespace Oneiron

open List

universe u v

variable {α : Type u} {β : Type v}

/-- A row's value, nothing past the end. -/
def valueAt (w : α → ℕ) (l : List α) (i : ℕ) : ℕ := l[i]?.elim 0 w

/-- What the entries at row `i` come to. -/
def share (idx : β → ℕ) (units : β → ℕ) (bs : List β) (i : ℕ) : ℕ :=
  ((bs.filter (idx · = i)).map units).sum

section Share

variable {idx units : β → ℕ} {b : β} {bs : List β} {i : ℕ}

@[simp] theorem share_nil : share idx units [] i = 0 := rfl

theorem share_cons :
    share idx units (b :: bs) i = (if idx b = i then units b else 0) + share idx units bs i := by
  unfold share
  by_cases h : idx b = i <;> simp [h]

theorem share_eq_zero (h : ∀ b ∈ bs, idx b ≠ i) : share idx units bs i = 0 := by
  unfold share
  rw [filter_eq_nil_iff.mpr fun b hb => by simpa using h b hb]
  rfl

/-- **The shares of all rows are the whole.** -/
theorem sum_share {n : ℕ} : ∀ {bs : List β}, (∀ b ∈ bs, idx b < n) →
    ∑ i ∈ Finset.range n, share idx units bs i = (bs.map units).sum
  | [], _ => by simp
  | b :: bs, h => by
    rw [forall_mem_cons] at h
    simp only [share_cons, Finset.sum_add_distrib, sum_share h.2, map_cons, sum_cons]
    simp [h.1]

/-- …over any list of rows that has them all. -/
theorem sum_map_share {rows : List ℕ} (hnodup : rows.Nodup) : ∀ {bs : List β},
    (∀ b ∈ bs, idx b ∈ rows) → (rows.map (share idx units bs)).sum = (bs.map units).sum
  | [], _ => sum_eq_zero fun x hx => by
    obtain ⟨i, -, rfl⟩ := mem_map.mp hx
    rfl
  | b :: bs, h => by
    rw [forall_mem_cons] at h
    have hrest := sum_map_share hnodup h.2
    rw [← sum_toFinset _ hnodup] at hrest ⊢
    simp only [share_cons, Finset.sum_add_distrib, hrest, map_cons, sum_cons]
    simp [h.1]

/-- Entries at distinct rows. -/
theorem share_of_nodup (h : (bs.map idx).Nodup) (hb : b ∈ bs) :
    share idx units bs (idx b) = units b := by
  induction bs with
  | nil => cases hb
  | cons c bs ih =>
    rw [map_cons, nodup_cons] at h
    rw [share_cons]
    rcases mem_cons.mp hb with rfl | hb
    · have hrest : share idx units bs (idx b) = 0 :=
        share_eq_zero fun c hc heq => h.1 (heq ▸ mem_map_of_mem hc)
      simp [hrest]
    · have hne : idx c ≠ idx b := fun heq => h.1 (heq ▸ mem_map_of_mem hb)
      rw [if_neg hne, ih h.2 hb, Nat.zero_add]

end Share

section Value

variable {w : α → ℕ} {l : List α} {i j : ℕ} {f : α → α}

theorem valueAt_modify : valueAt w (l.modify j f) i =
    if j = i then l[i]?.elim 0 (fun a => w (f a)) else valueAt w l i := by
  unfold valueAt
  rw [getElem?_modify]
  split <;> cases l[i]? <;> simp

/-- The rows' values are the whole. -/
theorem sum_valueAt : ∀ {l : List α}, ∑ i ∈ Finset.range l.length, valueAt w l i = (l.map w).sum
  | [] => rfl
  | a :: l => by
    rw [length_cons, Finset.sum_range_succ', map_cons, sum_cons, Nat.add_comm]
    congr 1
    exact sum_valueAt

/-- A pass over the rows, one entry at a time. -/
def pass (idx : β → ℕ) (g : β → α → α) (bs : List β) (l : List α) : List α :=
  bs.foldl (fun l b => l.modify (idx b) (g b)) l

variable {idx units : β → ℕ} {g : β → α → α} {bs : List β}

@[simp] theorem length_pass : ∀ {bs : List β} {l : List α}, (pass idx g bs l).length = l.length
  | [], _ => rfl
  | b :: bs, l => by
    rw [show pass idx g (b :: bs) l = pass idx g bs (l.modify (idx b) (g b)) from rfl, length_pass,
      length_modify]

/-- What the entries leave alone stays. -/
theorem valueAt_pass_of_keep (h : ∀ b a, w (g b a) = w a) : ∀ {bs : List β} {l : List α},
    valueAt w (pass idx g bs l) i = valueAt w l i
  | [], _ => rfl
  | b :: bs, l => by
    rw [show pass idx g (b :: bs) l = pass idx g bs (l.modify (idx b) (g b)) from rfl,
      valueAt_pass_of_keep h, valueAt_modify]
    split
    · unfold valueAt
      cases l[i]? <;> simp [h]
    · rfl

/-- **Adding up to the top**: each row gains its share. -/
theorem valueAt_pass_add (h : ∀ b a, w (g b a) = min (w a + units b) U64.top)
    (htop : ∀ a, w a ≤ U64.top) : ∀ {bs : List β} {l : List α}, i < l.length →
      valueAt w (pass idx g bs l) i = min (valueAt w l i + share idx units bs i) U64.top
  | [], l, _ => by
    have hle : valueAt w l i ≤ U64.top := by
      unfold valueAt
      cases l[i]? with
      | none => exact Nat.zero_le _
      | some a => exact htop a
    exact (Nat.min_eq_left hle).symm
  | b :: bs, l, hi => by
    rw [show pass idx g (b :: bs) l = pass idx g bs (l.modify (idx b) (g b)) from rfl,
      valueAt_pass_add h htop (by rwa [length_modify]), valueAt_modify, share_cons]
    split
    · rw [valueAt, getElem?_eq_getElem hi, Option.elim_some, Option.elim_some, h]
      omega
    · rw [Nat.zero_add]

/-- **Taking off down to nothing**: each row loses its share. -/
theorem valueAt_pass_sub (h : ∀ b a, w (g b a) = w a - units b) : ∀ {bs : List β} {l : List α},
    valueAt w (pass idx g bs l) i = valueAt w l i - share idx units bs i
  | [], _ => rfl
  | b :: bs, l => by
    rw [show pass idx g (b :: bs) l = pass idx g bs (l.modify (idx b) (g b)) from rfl,
      valueAt_pass_sub h, valueAt_modify, share_cons]
    split
    · unfold valueAt
      cases l[i]? with
      | none => simp
      | some a =>
        rw [Option.elim_some, Option.elim_some, h]
        omega
    · rw [Nat.zero_add]

end Value

/-! ## Weights of a map, row by row -/

namespace OrderedMap

variable {κ : Type*} {ν : Type*} [Ord κ] [Std.TransOrd κ] [Std.LawfulEqOrd κ]

omit [Std.LawfulEqOrd κ] in
theorem weigh_add (w w' : κ → ν → ℕ) (m : OrderedMap κ ν) :
    weigh (fun k v => w k v + w' k v) m = weigh w m + weigh w' m := by
  unfold weigh
  induction m.toList with
  | nil => rfl
  | cons p l ih =>
    simp only [map_cons, sum_cons, ih]
    omega

omit [Std.LawfulEqOrd κ] in
theorem weigh_zero (m : OrderedMap κ ν) : weigh (fun _ _ => 0) m = 0 := by
  unfold weigh
  simp

omit [Std.LawfulEqOrd κ] in
/-- The weights of all rows are the weight of all rows. -/
theorem sum_weigh (w : ℕ → κ → ν → ℕ) (m : OrderedMap κ ν) : ∀ n : ℕ,
    ∑ i ∈ Finset.range n, weigh (w i) m = weigh (fun k v => ∑ i ∈ Finset.range n, w i k v) m
  | 0 => (weigh_zero m).symm
  | n + 1 => by
    simp only [Finset.sum_range_succ]
    rw [sum_weigh w m n, weigh_add]

theorem weigh_congr {w w' : κ → ν → ℕ} (m : OrderedMap κ ν)
    (h : ∀ k v, m[k]? = some v → w k v = w' k v) : weigh w m = weigh w' m := by
  unfold weigh
  refine congrArg List.sum (map_congr_left fun p hp => h p.1 p.2 ?_)
  exact Std.ExtTreeMap.mem_toList_iff_getElem?_eq_some.mp hp

end OrderedMap

end Oneiron
