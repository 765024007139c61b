import Mathlib.Data.List.Count
import Mathlib.Data.List.Nodup

/-!
# Foundations/Places — whoever waits in a line has a place, and is not served yet

Waiters are numbered as they come.  `Placed` ties the lines of each key to the places still held:
the waiters in line are exactly those of a place whose turn has not come, each in one line, in the
order they came.
-/

namespace Oneiron

open List

universe u

variable {Key : Type u}

/-- The lines, and the places their waiters hold. -/
structure Placed (lineOf : Key → List ℕ) (places : List (ℕ × Key)) (granted : List ℕ)
    (nextWaiter : ℕ) : Prop where
  places_lt : ∀ place ∈ places, place.1 < nextWaiter
  granted_lt : ∀ w ∈ granted, w < nextWaiter
  nodup : (places.map Prod.fst).Nodup
  mem_lineOf : ∀ {key w}, w ∈ lineOf key ↔ (w, key) ∈ places ∧ w ∉ granted
  sorted : ∀ key, (lineOf key).Pairwise (· < ·)

/-- One more of distinct members counts. -/
theorem countP_mem_cons {w : ℕ} {s : List ℕ} (hw : w ∉ s) : ∀ {l : List (ℕ × Key)},
    (l.map Prod.fst).Nodup → w ∈ l.map Prod.fst →
      l.countP (·.1 ∈ w :: s) = l.countP (·.1 ∈ s) + 1
  | [], _, hmem => nomatch hmem
  | (v, a) :: rest, hnodup, hmem => by
    rw [map_cons, nodup_cons] at hnodup
    by_cases hv : v = w
    · subst hv
      have hrest : rest.countP (·.1 ∈ v :: s) = rest.countP (·.1 ∈ s) := by
        refine countP_congr fun p hp => ?_
        have hne : p.1 ≠ v := fun heq => hnodup.1 (mem_map.mpr ⟨p, hp, heq⟩)
        simp [hne]
      rw [countP_cons_of_pos (by simp), countP_cons_of_neg (by simpa using hw), hrest]
    · have hmem' : w ∈ rest.map Prod.fst := (mem_cons.mp hmem).resolve_left (Ne.symm hv)
      have ih := countP_mem_cons hw hnodup.2 hmem'
      by_cases hs : v ∈ s
      · rw [countP_cons_of_pos (by simp [hs]), countP_cons_of_pos (by simp [hs]), ih]
      · rw [countP_cons_of_neg (by simp [hs, hv]), countP_cons_of_neg (by simp [hs]), ih]

namespace Placed

variable {lineOf lineOf' : Key → List ℕ} {places : List (ℕ × Key)} {granted : List ℕ}
  {nextWaiter w : ℕ} {key : Key}

theorem nil (h : ∀ key, lineOf key = []) : Placed lineOf [] [] nextWaiter where
  places_lt := nofun
  granted_lt := nofun
  nodup := nodup_nil
  mem_lineOf := by simp [h]
  sorted key := h key ▸ List.Pairwise.nil

theorem fresh (h : Placed lineOf places granted nextWaiter) : nextWaiter ∉ granted :=
  fun hw => Nat.lt_irrefl _ (h.granted_lt _ hw)

variable [DecidableEq Key]

/-- The oldest waiter of a line is served. -/
theorem serve (h : Placed lineOf places granted nextWaiter) {left : List ℕ}
    (hkey : lineOf key = w :: left)
    (hother : ∀ other, lineOf' other = if other = key then left else lineOf other) :
    Placed lineOf' places (w :: granted) nextWaiter ∧
      places.countP (·.1 ∈ w :: granted) = places.countP (·.1 ∈ granted) + 1 := by
  have hmem : w ∈ lineOf key := hkey ▸ mem_cons_self
  obtain ⟨hplace, hfree⟩ := h.mem_lineOf.mp hmem
  have hsorted := h.sorted key
  rw [hkey, pairwise_cons] at hsorted
  refine ⟨⟨h.places_lt, forall_mem_cons.mpr ⟨h.places_lt _ hplace, h.granted_lt⟩, h.nodup,
    ?_, ?_⟩, countP_mem_cons hfree h.nodup (mem_map_of_mem hplace)⟩
  · intro other v
    rw [hother, mem_cons, not_or]
    by_cases hkey' : other = key
    · subst hkey'
      have hv : v ∈ lineOf other ↔ _ := h.mem_lineOf
      rw [hkey, mem_cons] at hv
      rw [if_pos rfl]
      constructor
      · intro hleft
        have hne : v ≠ w := Nat.ne_of_gt (hsorted.1 v hleft)
        obtain ⟨hp, hg⟩ := hv.mp (.inr hleft)
        exact ⟨hp, hne, hg⟩
      · rintro ⟨hp, hne, hg⟩
        exact (hv.mpr ⟨hp, hg⟩).resolve_left hne
    · rw [if_neg hkey', h.mem_lineOf]
      constructor
      · rintro ⟨hp, hg⟩
        refine ⟨hp, ?_, hg⟩
        -- one waiter has one place
        rintro rfl
        exact hkey' (congrArg Prod.snd (inj_on_of_nodup_map h.nodup hp hplace rfl))
      · rintro ⟨hp, -, hg⟩
        exact ⟨hp, hg⟩
  · intro other
    rw [hother]
    split
    · exact hsorted.2
    · exact h.sorted other

/-- A new waiter goes last in its line. -/
theorem push (h : Placed lineOf places granted nextWaiter)
    (hother : ∀ other, lineOf' other =
      if other = key then lineOf key ++ [nextWaiter] else lineOf other) :
    Placed lineOf' (places ++ [(nextWaiter, key)]) granted (nextWaiter + 1) where
  places_lt place hplace := by
    rcases mem_append.mp hplace with hplace | hplace
    · exact Nat.lt_succ_of_lt (h.places_lt place hplace)
    · obtain rfl := mem_singleton.mp hplace
      exact Nat.lt_succ_self _
  granted_lt w hw := Nat.lt_succ_of_lt (h.granted_lt w hw)
  nodup := by
    rw [map_append, map_singleton]
    refine concat_eq_append ▸ h.nodup.concat fun hmem => ?_
    obtain ⟨place, hplace, heq⟩ := mem_map.mp hmem
    exact absurd (h.places_lt place hplace) (by simp [heq])
  mem_lineOf := by
    intro other w
    have hfresh := h.fresh
    rw [hother, mem_append, mem_singleton, Prod.mk.injEq]
    have hw : w ∈ lineOf other ↔ _ := h.mem_lineOf
    by_cases hkey : other = key
    · subst hkey
      grind
    · rw [if_neg hkey, hw]
      simp [hkey]
  sorted other := by
    rw [hother]
    split
    · refine pairwise_append.mpr ⟨h.sorted key, pairwise_singleton _ _, ?_⟩
      intro v hv w hw
      rw [mem_singleton] at hw
      exact hw ▸ h.places_lt _ (h.mem_lineOf.mp hv).1
    · exact h.sorted other

section Erase

variable [BEq (ℕ × Key)] [LawfulBEq (ℕ × Key)]

variable (h : Placed lineOf places granted nextWaiter)
include h

omit [DecidableEq Key] [LawfulBEq (ℕ × Key)] in
/-- A place settled is a place less. -/
theorem nodup_erase (place : ℕ × Key) : ((places.erase place).map Prod.fst).Nodup :=
  h.nodup.sublist (erase_sublist.map _)

omit [DecidableEq Key] in
theorem mem_erase_iff {place other : ℕ × Key} :
    other ∈ places.erase place ↔ other ≠ place ∧ other ∈ places :=
  (List.Nodup.of_map _ h.nodup).mem_erase_iff

omit [DecidableEq Key] in
/-- A waiter that was served is no longer in any line. -/
theorem take {place : ℕ × Key}
    (hgranted : place.1 ∈ granted) : Placed lineOf (places.erase place) granted nextWaiter where
  places_lt other hother := h.places_lt other (mem_of_mem_erase hother)
  granted_lt := h.granted_lt
  nodup := h.nodup_erase place
  mem_lineOf := by
    intro key w
    rw [h.mem_lineOf, h.mem_erase_iff]
    grind
  sorted := h.sorted

/-- A waiter who gives up leaves its line. -/
theorem remove {place : ℕ × Key} (hother : ∀ other, lineOf' other =
      if other = place.2 then (lineOf place.2).filter (· ≠ place.1) else lineOf other) :
    Placed lineOf' (places.erase place) granted nextWaiter where
  places_lt other hother := h.places_lt other (mem_of_mem_erase hother)
  granted_lt := h.granted_lt
  nodup := h.nodup_erase place
  mem_lineOf := by
    intro key w
    obtain ⟨v, other⟩ := place
    rw [hother, h.mem_erase_iff]
    have hw : w ∈ lineOf key ↔ _ := h.mem_lineOf
    by_cases hkey : key = other
    · subst hkey
      grind
    · rw [if_neg hkey, hw]
      grind
  sorted key := by
    rw [hother]
    split
    · exact (h.sorted _).filter _
    · exact h.sorted key

end Erase

end Placed

/-- The permits handed over are those of the places that still stand. -/
theorem countP_erase_granted [BEq (ℕ × Key)] [LawfulBEq (ℕ × Key)] {places : List (ℕ × Key)} {place : ℕ × Key}
    (hplace : place ∈ places) (granted : List ℕ) :
    (places.erase place).countP (·.1 ∈ granted) =
      places.countP (·.1 ∈ granted) - if place.1 ∈ granted then 1 else 0 := by
  rw [countP_erase]
  simp [hplace]

end Oneiron
