import Oneiron.Overlay.Composed

/-!
# Overlay/Refines — a staged keyspace stands for a database of its own

`Refines base state plain`: what `state` shows over `base` is exactly what `plain` holds.  Each
mutation of the overlay is matched by the plain write it stands for.  With duplicates one more thing
has to be carried: a present value keeps every base value of its identity covered, so that deleting
it later uncovers none (`Covers`).
-/

open Std

namespace Oneiron

open KeyspaceState

variable {d : Bool}

/-- Base values that share a present value's identity are masked in their own right. -/
def KeyspaceState.Covers (base : Database d) : KeyspaceState d → Prop
  | .single .. => True
  | .dupSort clearBase rows => ∀ ⦃key v w : Bytes⦄,
      (dupDelta rows key).present[duplicateIdentity v]? = some v → (key, w) ∈ base.pairs →
      duplicateIdentity w = duplicateIdentity v → w ≠ v →
      clearBase = true ∨ (dupDelta rows key).deleteBase = true ∨ w ∈ (dupDelta rows key).deleted

/-- **The staged keyspace over `base` stands for `plain`.** -/
structure Refines (base : Database d) (state : KeyspaceState d) (plain : Database d) : Prop where
  holds : ∀ row, state.Holds base row.1 row.2 ↔ row ∈ plain.pairs
  covers : state.Covers base

namespace Refines

variable {base plain : Database d} {state : KeyspaceState d}

/-- An untouched keyspace stands for base itself. -/
theorem fresh (base : Database d) : Refines base (.fresh false d) base := by
  cases base with
  | single held => exact ⟨fun row => by simp [fresh, KeyspaceState.Holds], trivial⟩
  | dupSort held =>
    refine ⟨fun row => ?_, fun key v w hv => ?_⟩
    · simp [fresh, KeyspaceState.Holds, dupDelta, DupDelta.default]
    · simp [dupDelta, DupDelta.default] at hv

/-- **Clearing** leaves nothing of base. -/
theorem clear (base plain : Database d) : Refines base (.fresh true d) plain.clear := by
  cases base with
  | single held =>
    exact ⟨fun row => by simp [KeyspaceState.fresh, KeyspaceState.Holds], trivial⟩
  | dupSort held =>
    refine ⟨fun row => ?_, fun key v w hv => ?_⟩
    · simp [KeyspaceState.fresh, KeyspaceState.Holds, KeyspaceState.dupDelta, DupDelta.default]
    · simp [dupDelta, DupDelta.default] at hv

end Refines

section Single

variable {base plain : Database false} {clearBase : Bool} {rows : OrderedMap Bytes OverlayValue}

theorem Refines.put_single (h : Refines base (.single clearBase rows) plain) (key value : Bytes) :
    Refines base ((single clearBase rows).put key value) (plain.put key value) := by
  refine ⟨fun row => ?_, trivial⟩
  rw [Database.mem_pairs_put, ← h.holds]
  obtain ⟨k, v⟩ := row
  simp only [put, KeyspaceState.Holds, ExtTreeMap.getElem?_insert,
    LawfulEqCmp.compare_eq_iff_eq]
  by_cases hk : key = k
  · simp [hk, eq_comm]
  · simp [hk, Ne.symm hk]

theorem Refines.delete_single (h : Refines base (.single clearBase rows) plain) (key : Bytes) :
    Refines base ((single clearBase rows).delete key (base.get key).isSome)
      (plain.delete key).2 := by
  refine ⟨fun row => ?_, by unfold delete; dsimp only; split <;> trivial⟩
  rw [Database.mem_pairs_delete, ← h.holds]
  obtain ⟨k, v⟩ := row
  have hback : (base.get key).isSome = false → (key, v) ∉ base.pairs := fun hf hm => by
    rw [← Bool.not_eq_true, Database.get_isSome_iff] at hf
    exact hf ⟨v, hm⟩
  unfold delete
  dsimp only
  split
  · -- the row goes outright: base holds nothing behind it, or was cleared
    rename_i hb hr
    simp only [KeyspaceState.Holds, ExtTreeMap.getElem?_erase, LawfulEqCmp.compare_eq_iff_eq]
    by_cases hk : key = k
    · subst hk
      simp only [if_true, reduceCtorEq, false_or, true_and, ne_eq, not_true_eq_false, and_false,
        iff_false, not_and]
      intro hc
      simp only [hc, Bool.not_false, Bool.and_true] at hb
      exact hback hb
    · simp [hk, Ne.symm hk]
  · simp only [KeyspaceState.Holds, ExtTreeMap.getElem?_insert, LawfulEqCmp.compare_eq_iff_eq]
    by_cases hk : key = k
    · simp [hk]
    · simp [hk, Ne.symm hk]

end Single

/-! ## With duplicates -/

section DupSort

variable {base plain : Database true} {clearBase : Bool} {rows : OrderedMap Bytes DupDelta}

section

variable (h : Refines base (.dupSort clearBase rows) plain)

include h

/-- A present value hides every other value of its identity. -/
theorem Refines.not_mem_of_present {key v w : Bytes}
    (hv : (dupDelta rows key).present[duplicateIdentity v]? = some v)
    (hi : duplicateIdentity w = duplicateIdentity v) (hw : w ≠ v) : (key, w) ∉ plain.pairs := by
  rw [← h.holds]
  rintro (hp | ⟨-, -, -, hn, -⟩)
  · rw [hi, hv] at hp
    exact hw (Option.some.inj hp).symm
  · rw [hi, hv] at hn
    cases hn

theorem Refines.put_dupSort {key value : Bytes}
    (hfree : ∀ w, (key, w) ∈ plain.pairs → duplicateIdentity w = duplicateIdentity value →
      w = value) :
    Refines base ((dupSort clearBase rows).put key value) (plain.put key value) := by
  constructor
  · rintro ⟨k, w⟩
    rw [Database.mem_pairs_put, ← h.holds]
    simp only [put, KeyspaceState.Holds, dupDelta_insert, Prod.mk.injEq,
      Bool.true_eq_false, false_implies, and_true]
    by_cases hk : key = k
    · subst hk
      simp only [if_true, true_and, DupDelta.getElem?_put_present, DupDelta.put_deleteBase,
        DupDelta.mem_put_deleted]
      by_cases hi : duplicateIdentity value = duplicateIdentity w
      · simp only [hi, if_true, reduceCtorEq, false_and, and_false, or_false, Option.some.injEq]
        constructor
        · exact fun hw => Or.inl hw.symm
        · rintro (hw | hw)
          · exact hw.symm
          · exact (hfree w ((h.holds (key, w)).mp hw) hi.symm).symm
      · have hw : value ≠ w := fun he => hi (he ▸ rfl)
        simp [hi, hw, Ne.symm hw]
    · simp [hk, Ne.symm hk]
  · intro k v w hv hw hi hne
    simp only [dupDelta_insert] at hv ⊢
    by_cases hk : key = k
    · subst hk
      simp only [if_true, DupDelta.getElem?_put_present, DupDelta.put_deleteBase,
        DupDelta.mem_put_deleted] at hv ⊢
      by_cases hid : duplicateIdentity value = duplicateIdentity v
      · -- the value just put: what base shows of its identity was hidden before
        rw [if_pos hid, Option.some.injEq] at hv
        subst hv
        have hnot : (key, w) ∉ plain.pairs := fun hm => hne (hfree w hm hi)
        rw [← h.holds] at hnot
        simp only [KeyspaceState.Holds, not_or, not_and, not_not] at hnot
        by_contra hcon
        simp only [not_or, not_and, Bool.not_eq_true] at hcon
        obtain ⟨hc, hd, hdel⟩ := hcon
        have hdel' := hdel (Ne.symm hne)
        cases hp : (dupDelta rows key).present[duplicateIdentity w]? with
        | none => exact hdel' (hnot.2 hc hw hd hp)
        | some y =>
          have hy := (dupDelta rows key).filed hp
          have hyw : w ≠ y := fun he => hnot.1 (by rw [hp, he])
          rcases h.covers (by rw [hy]; exact hp) hw hy.symm hyw with hc' | hd' | hm
          · simp [hc] at hc'
          · simp [hd] at hd'
          · exact hdel' hm
      · rw [if_neg hid] at hv
        rcases h.covers hv hw hi hne with hc | hd | hm
        · exact Or.inl hc
        · exact Or.inr (Or.inl hd)
        · exact Or.inr (Or.inr ⟨fun he => hid (by rw [he, hi]), hm⟩)
    · rw [if_neg hk] at hv ⊢
      exact h.covers hv hw hi hne

theorem Refines.delete_dupSort (key : Bytes) (backed : Bool) :
    Refines base ((dupSort clearBase rows).delete key backed)
      (plain.delete key).2 := by
  constructor
  · rintro ⟨k, w⟩
    rw [Database.mem_pairs_delete, ← h.holds]
    simp only [delete, KeyspaceState.Holds, dupDelta_insert]
    by_cases hk : key = k
    · simp [hk, DupDelta.default]
    · simp [hk, Ne.symm hk]
  · intro k v w hv hw hi hne
    simp only [dupDelta_insert] at hv ⊢
    by_cases hk : key = k
    · simp [hk]
    · rw [if_neg hk] at hv ⊢
      exact h.covers hv hw hi hne

theorem Refines.deleteDuplicate {key value : Bytes} {backed : Bool}
    (hbacked : backed = true ↔ (key, value) ∈ base.pairs) (hvalue : (key, value) ∈ plain.pairs) :
    ∃ state, (dupSort clearBase rows).deleteDuplicate key value backed = .ok state ∧
      Refines base state (plain.deleteOneDuplicate key value).2 := by
  refine ⟨_, rfl, ?_, ?_⟩
  · rintro ⟨k, w⟩
    rw [Database.mem_pairs_deleteOneDuplicate, ← h.holds]
    simp only [KeyspaceState.Holds, dupDelta_erase_or_insert, ne_eq, Prod.mk.injEq]
    by_cases hk : key = k
    · subst hk
      simp only [if_true, true_and, DupDelta.getElem?_deleteDuplicate_present,
        DupDelta.deleteDuplicate_deleteBase, DupDelta.mem_deleteDuplicate_deleted]
      by_cases hw : w = value
      · subst hw
        simp only [not_true_eq_false, and_false, iff_false, not_or, not_and]
        refine ⟨fun hp => by split at hp <;> simp_all, fun hc hb hd _ hnot => ?_⟩
        exact absurd hd (hnot trivial (by simp [hbacked.mpr hb, hc]))
      · simp only [hw, not_false_eq_true, and_true, Ne.symm (a := w) (b := value) hw, false_and,
          false_or]
        by_cases hp : (dupDelta rows key).present[duplicateIdentity w]? = some value
        · -- `w` was hidden by the value deleted, and stays hidden under its own mask
          have hi := (dupDelta rows key).filed hp
          rw [← hi] at hp
          have hout := h.not_mem_of_present hp hi.symm hw
          rw [← h.holds] at hout
          refine iff_of_false ?_ hout
          rw [← hi, hp]
          simp only [if_true, reduceCtorEq, false_or, true_and, not_and, not_not]
          intro hc hb hd
          rcases h.covers hp hb hi.symm hw with hc' | hd' | hm
          · simp [hc] at hc'
          · simp [hd] at hd'
          · exact hm
        · simp [hp]
    · simp [hk, Ne.symm hk]
  · intro k v w hv hw hi hne
    simp only [dupDelta_erase_or_insert] at hv ⊢
    by_cases hk : key = k
    · subst hk
      simp only [if_true, DupDelta.getElem?_deleteDuplicate_present,
        DupDelta.deleteDuplicate_deleteBase, DupDelta.mem_deleteDuplicate_deleted] at hv ⊢
      split at hv
      · cases hv
      · rcases h.covers hv hw hi hne with hc | hd | hm
        · exact Or.inl hc
        · exact Or.inr (Or.inl hd)
        · exact Or.inr (Or.inr (Or.inr hm))
    · rw [if_neg hk] at hv ⊢
      exact h.covers hv hw hi hne

end

end DupSort

end Oneiron
