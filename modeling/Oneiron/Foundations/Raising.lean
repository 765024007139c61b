import Mathlib.Order.WithBot
import Oneiron.Foundations.Ordered

/-!
# Foundations/Raising — rows that only rise, and the highest of those seen

    held < new  -▸ new            held ≥ new  -▸ held

A row is raised to the higher of what is held and what comes, equals keeping what is held.  So what a
map comes to hold is the highest of what it held and every row it saw (`level_raiseAll`), whatever
their order and however often each was seen (`newest_congr`).
-/

open Std

namespace Oneiron

open List

universe u v w

variable {κ : Type u} {ν : Type v} {ρ : Type w} (rank : ν → ρ)

/-- How high a row is, where one is held. -/
def level (held : Option ν) : WithBot ρ := held.elim ⊥ fun v => (rank v : WithBot ρ)

@[simp] theorem level_none : level rank none = ⊥ := rfl

@[simp] theorem level_some (v : ν) : level rank (some v) = rank v := rfl

variable {rank} in
/-- How high a row is tells the row, where rows of one rank are one. -/
theorem level_injective (h : Function.Injective rank) : Function.Injective (level rank) := by
  intro held held' heq
  match held, held' with
  | none, none => rfl
  | some v, some v' => rw [h (WithBot.coe_injective heq)]
  | none, some v => exact absurd heq.symm (WithBot.coe_ne_bot)
  | some v, none => exact absurd heq (WithBot.coe_ne_bot)

theorem level_eq_iff {held held' : Option ν} :
    level rank held = level rank held' ↔ held.map rank = held'.map rank := by
  cases held <;> cases held' <;> simp

variable [LinearOrder ρ]

/-- The higher of what is held and what comes. -/
def raised (held : Option ν) (v : ν) : ν :=
  held.elim v fun held => if rank held < rank v then v else held

/-- **A raise is a join.** -/
theorem level_raised (held : Option ν) (v : ν) :
    level rank (some (raised rank held v)) = level rank held ⊔ rank v := by
  cases held with
  | none => exact (bot_sup_eq _).symm
  | some held =>
    simp only [raised, level, Option.elim_some]
    split
    · next h => exact (sup_eq_right.mpr (WithBot.coe_le_coe.mpr h.le)).symm
    · next h => exact (sup_eq_left.mpr (WithBot.coe_le_coe.mpr (le_of_not_gt h))).symm

/-- **Raised to each row in turn**, one stands as high as the highest. -/
theorem level_foldl_raised_le {held : Option ν} {rows : List ν} {x : WithBot ρ} :
    level rank (rows.foldl (fun held v => some (raised rank held v)) held) ≤ x ↔
      level rank held ≤ x ∧ ∀ v ∈ rows, (rank v : WithBot ρ) ≤ x := by
  induction rows generalizing held with
  | nil => simp
  | cons v rows ih =>
    rw [foldl_cons, ih, level_raised, sup_le_iff, forall_mem_cons, and_assoc]

section Newest

variable [DecidableEq κ]

/-- The highest of the rows at a key. -/
def newest (rows : List (κ × ν)) (k : κ) : WithBot ρ :=
  rows.foldr (fun p high => if p.1 = k then (rank p.2 : WithBot ρ) ⊔ high else high) ⊥

variable {rank} {rows rows' : List (κ × ν)} {k : κ}

theorem newest_le_iff {x : WithBot ρ} :
    newest rank rows k ≤ x ↔ ∀ v, (k, v) ∈ rows → (rank v : WithBot ρ) ≤ x := by
  induction rows with
  | nil => simp [newest]
  | cons p rows ih =>
    obtain ⟨j, w⟩ := p
    rw [newest, foldr_cons]
    change (if j = k then (rank w : WithBot ρ) ⊔ newest rank rows k else newest rank rows k) ≤ x ↔ _
    split
    · next h =>
      rw [sup_le_iff, ih]
      constructor
      · rintro ⟨hw, hrest⟩ v hv
        rcases mem_cons.mp hv with heq | hv
        · obtain ⟨-, rfl⟩ := Prod.mk.inj heq
          exact hw
        · exact hrest v hv
      · intro hall
        exact ⟨hall w (h ▸ mem_cons_self), fun v hv => hall v (mem_cons_of_mem _ hv)⟩
    · next h =>
      rw [ih]
      constructor
      · intro hrest v hv
        rcases mem_cons.mp hv with heq | hv
        · exact absurd (Prod.mk.inj heq).1.symm h
        · exact hrest v hv
      · exact fun hall v hv => hall v (mem_cons_of_mem _ hv)

theorem newest_append :
    newest rank (rows ++ rows') k = newest rank rows k ⊔ newest rank rows' k := by
  refine eq_of_forall_ge_iff fun x => ?_
  simp only [newest_le_iff, sup_le_iff, mem_append]
  constructor
  · exact fun h => ⟨fun v hv => h v (.inl hv), fun v hv => h v (.inr hv)⟩
  · rintro ⟨hl, hr⟩ v (hv | hv)
    · exact hl v hv
    · exact hr v hv

theorem newest_cons {p : κ × ν} :
    newest rank (p :: rows) k = newest rank [p] k ⊔ newest rank rows k :=
  @newest_append _ _ _ rank _ _ [p] rows k

/-- **Only which rows there are matters**, not their order or how often each is there. -/
theorem newest_congr (h : ∀ p, p ∈ rows ↔ p ∈ rows') : newest rank rows k = newest rank rows' k := by
  refine eq_of_forall_ge_iff fun x => ?_
  simp only [newest_le_iff, h]

/-- **Rows held already may be left out** of what one raises to. -/
theorem sup_newest_filter {keep : κ × ν → Bool} {held : WithBot ρ}
    (h : ∀ v, (k, v) ∈ rows → keep (k, v) = false → (rank v : WithBot ρ) ≤ held) :
    held ⊔ newest rank (rows.filter keep) k = held ⊔ newest rank rows k := by
  refine eq_of_forall_ge_iff fun x => ?_
  rw [sup_le_iff, sup_le_iff, newest_le_iff, newest_le_iff]
  refine and_congr_right fun hheld => ⟨fun hall v hv => ?_, fun hall v hv => ?_⟩
  · cases hkeep : keep (k, v) with
    | true => exact hall v (mem_filter.mpr ⟨hv, hkeep⟩)
    | false => exact (h v hv hkeep).trans hheld
  · exact hall v (mem_filter.mp hv).1

end Newest

section Map

variable [Ord κ] [TransOrd κ] [LawfulEqOrd κ] [DecidableEq κ] {rank}

/-- Raises what a map holds to each row in turn. -/
def raiseAll (rank : ν → ρ) (m : OrderedMap κ ν) (rows : List (κ × ν)) : OrderedMap κ ν :=
  rows.foldl (fun m p => m.insert p.1 (raised rank m[p.1]? p.2)) m

/-- **What a map comes to hold** is the highest of what it held and every row it saw. -/
theorem level_raiseAll (m : OrderedMap κ ν) (rows : List (κ × ν)) (k : κ) :
    level rank (raiseAll rank m rows)[k]? = level rank m[k]? ⊔ newest rank rows k := by
  induction rows generalizing m with
  | nil => exact (sup_bot_eq _).symm
  | cons p rows ih =>
    obtain ⟨j, v⟩ := p
    rw [raiseAll, foldl_cons]
    change level rank (raiseAll rank _ rows)[k]? = _
    rw [ih, newest_cons, ← sup_assoc]
    congr 1
    by_cases h : j = k
    · subst h
      rw [ExtTreeMap.getElem?_insert_self, level_raised]
      simp [newest]
    · rw [ExtTreeMap.getElem?_insert, if_neg (by simpa using h)]
      simp [newest, h]

/-- What a map holds at a key is its newest row there. -/
theorem newest_toList (m : OrderedMap κ ν) (k : κ) :
    newest rank m.toList k = level rank m[k]? := by
  refine eq_of_forall_ge_iff fun x => ?_
  rw [newest_le_iff]
  simp only [ExtTreeMap.mem_toList_iff_getElem?_eq_some]
  cases m[k]? <;> simp

end Map

end Oneiron
