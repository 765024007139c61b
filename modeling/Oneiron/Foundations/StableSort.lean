import Mathlib.Data.List.Basic

/-!
# Foundations/StableSort — a stable sort is determined by its ties

Two sorted lists that hold the same ties in the same order are one list (`eq_of_ties`), and
`mergeSort` keeps the order of ties.  So what was sorted before may be sorted again with more, and
parts that share no tie may come in any order.
-/

namespace Oneiron

open List

variable {α β : Type} {le : α → α → Bool}

/-- Whether a sort leaves the two as they stood. -/
def tied (le : α → α → Bool) (a b : α) : Bool := le a b && le b a

variable (htrans : ∀ a b c, le a b → le b c → le a c) (htotal : ∀ a b, (le a b || le b a) = true)

include htotal in
theorem eq_of_ties {l r : List α} (hl : l.Pairwise (le · ·)) (hr : r.Pairwise (le · ·))
    (h : ∀ a, l.filter (tied le a) = r.filter (tied le a)) : l = r := by
  have hrefl (a : α) : le a a = true := by simpa using htotal a a
  induction l generalizing r with
  | nil =>
    cases r with
    | nil => rfl
    | cons b r => exact absurd (h b) (by simp [tied, hrefl])
  | cons a l ih =>
    cases r with
    | nil => exact absurd (h a) (by simp [tied, hrefl])
    | cons b r =>
      have hleast {x y : α} {rest : List α} (hp : (x :: rest).Pairwise (le · ·))
          (hy : y ∈ x :: rest) : le x y = true :=
        (mem_cons.mp hy).elim (fun heq => heq ▸ hrefl y) (rel_of_pairwise_cons hp)
      have ha : a ∈ b :: r := mem_of_mem_filter (p := tied le a) (h a ▸ by simp [tied, hrefl])
      have hb : b ∈ a :: l := mem_of_mem_filter (p := tied le b) (h b ▸ by simp [tied, hrefl])
      have hab : tied le a b = true := by simp [tied, hleast hl hb, hleast hr ha]
      have hhead := h a
      rw [filter_cons_of_pos (by simp [tied, hrefl]), filter_cons_of_pos hab] at hhead
      obtain rfl : a = b := (cons.inj hhead).1
      rw [ih hl.of_cons hr.of_cons fun c => ?_]
      have htail := h c
      simp only [filter_cons] at htail
      split at htail
      · exact (cons.inj htail).2
      · exact htail

include htrans htotal

theorem filter_tied_mergeSort (a : α) (l : List α) :
    (l.mergeSort le).filter (tied le a) = l.filter (tied le a) := by
  have hties : (l.filter (tied le a)).Pairwise (le · ·) := by
    refine pairwise_of_forall_mem_list fun b hb c hc => ?_
    have hb := (mem_filter.mp hb).2
    have hc := (mem_filter.mp hc).2
    rw [tied, Bool.and_eq_true] at hb hc
    exact htrans b a c hb.2 hc.1
  have hsub := (sublist_mergeSort htrans htotal hties filter_sublist).filter (tied le a)
  simp only [filter_filter, Bool.and_self] at hsub
  exact (hsub.eq_of_length ((mergeSort_perm l le).filter _).length_eq.symm).symm

/-- **A stable sort is the one** that holds its ties in their order. -/
theorem mergeSort_congr {l r : List α} (h : ∀ a, l.filter (tied le a) = r.filter (tied le a)) :
    l.mergeSort le = r.mergeSort le :=
  eq_of_ties htotal (pairwise_mergeSort htrans htotal l) (pairwise_mergeSort htrans htotal r)
    fun a => by
      rw [filter_tied_mergeSort htrans htotal, filter_tied_mergeSort htrans htotal, h]

theorem mergeSort_append_left (l r : List α) :
    (l.mergeSort le ++ r).mergeSort le = (l ++ r).mergeSort le :=
  mergeSort_congr htrans htotal fun a => by
    rw [filter_append, filter_append, filter_tied_mergeSort htrans htotal]

/-- **Parts that share no tie** are sorted alike in any order. -/
theorem mergeSort_flatMap_perm {f : β → List α} {l r : List β} (hp : l.Perm r)
    (h : l.Pairwise fun x y => ∀ a ∈ f x, ∀ b ∈ f y, tied le a b = false) :
    (l.flatMap f).mergeSort le = (r.flatMap f).mergeSort le := by
  refine mergeSort_congr htrans htotal fun a => ?_
  rw [filter_flatMap, filter_flatMap]
  have hone {x y : β} (hxy : ∀ a ∈ f x, ∀ b ∈ f y, tied le a b = false) :
      (f x).filter (tied le a) = [] ∨ (f y).filter (tied le a) = [] := by
    by_contra hboth
    rw [not_or] at hboth
    obtain ⟨b, hb⟩ := exists_mem_of_ne_nil _ hboth.1
    obtain ⟨c, hc⟩ := exists_mem_of_ne_nil _ hboth.2
    rw [mem_filter, tied, Bool.and_eq_true] at hb hc
    have hbc := hxy b hb.1 c hc.1
    rw [tied, htrans b a c hb.2.2 hc.2.1, htrans c a b hc.2.2 hb.2.1] at hbc
    exact absurd hbc (by decide)
  have hsome := h.imp hone
  clear h hone
  induction hp with
  | nil => rfl
  | cons x _ ih => rw [flatMap_cons, flatMap_cons, ih hsome.of_cons]
  | swap x y l =>
    simp only [flatMap_cons]
    rcases rel_of_pairwise_cons hsome mem_cons_self with hnil | hnil <;> simp [hnil]
  | trans hp _ ih ih' => rw [ih hsome, ih' (hp.pairwise hsome fun h => h.symm)]

end Oneiron
