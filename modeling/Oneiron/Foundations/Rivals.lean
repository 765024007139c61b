import Mathlib.Order.Preorder.Finite
import Std.Data.ExtTreeMap.Basic

/-!
# Foundations/Rivals — keeping the higher of two, and flagging that there were two

    a ≻ b   -▸  flag a
    a ≈ b   -▸  tie a b
    a ≺ b   -▸  flag b

The winner of a contest is flagged, and equals are tied together.  Whatever order the contests are
held in, the highest wins: a flag sticks to whatever is tied with it, and neither a flag nor a tie
moves anyone's rank (`Rivalry`), so the join inherits its laws from the ties alone.
-/

namespace Oneiron

section Rivalries

open Std

universe u

variable {α : Type u}

/-- The higher of two, flagged; equals, tied. -/
def rivalJoin (cmp : α → α → Ordering) (flag : α → α) (tie : α → α → α) (a b : α) : α :=
  match cmp a b with
  | .gt => flag a
  | .lt => flag b
  | .eq => tie a b

/-- The higher of two; equals, tied. -/
def rankedJoin (cmp : α → α → Ordering) (tie : α → α → α) : α → α → α := rivalJoin cmp id tie

/-- On a class of rivals, flags stick and neither flags nor ties move anyone's rank. -/
structure Rivalry (Rival : α → Prop) (cmp : α → α → Ordering) (flag : α → α) (tie : α → α → α) :
    Prop where
  flag_flag : ∀ a, flag (flag a) = flag a
  cmp_flag : ∀ a b, cmp (flag a) b = cmp a b
  cmp_tie : ∀ {a b}, Rival a → Rival b → cmp a b = .eq → ∀ c, cmp (tie a b) c = cmp a c
  flag_tie : ∀ {a b}, Rival a → Rival b → cmp a b = .eq → tie (flag a) b = flag (tie a b)
  tie_flag : ∀ {a b}, Rival a → Rival b → cmp a b = .eq → tie a (flag b) = flag (tie a b)

/-- Unflagged, all that ties need is to keep rank. -/
theorem Rivalry.unflagged {Rival : α → Prop} {cmp : α → α → Ordering} {tie : α → α → α}
    (h : ∀ {a b}, Rival a → Rival b → cmp a b = .eq → ∀ c, cmp (tie a b) c = cmp a c) :
    Rivalry Rival cmp id tie :=
  ⟨fun _ => rfl, fun _ _ => rfl, h, fun _ _ _ => rfl, fun _ _ _ => rfl⟩

section Join

variable {cmp : α → α → Ordering} {flag : α → α} {tie : α → α → α} {a b c : α}

theorem rivalJoin_of_gt (h : cmp a b = .gt) : rivalJoin cmp flag tie a b = flag a := by
  rw [rivalJoin, h]

theorem rivalJoin_of_lt (h : cmp a b = .lt) : rivalJoin cmp flag tie a b = flag b := by
  rw [rivalJoin, h]

theorem rivalJoin_of_eq (h : cmp a b = .eq) : rivalJoin cmp flag tie a b = tie a b := by
  rw [rivalJoin, h]

/-- A join is one of the two, flagged, or the two tied. -/
theorem rivalJoin_cases (cmp : α → α → Ordering) (flag : α → α) (tie : α → α → α) (a b : α) :
    rivalJoin cmp flag tie a b = flag a ∨ rivalJoin cmp flag tie a b = flag b ∨
      cmp a b = .eq ∧ rivalJoin cmp flag tie a b = tie a b := by
  unfold rivalJoin
  cases cmp a b <;> simp

theorem rivalJoin_self [ReflCmp cmp] (h : tie a a = a) : rivalJoin cmp flag tie a a = a := by
  rw [rivalJoin_of_eq ReflCmp.compare_self, h]

theorem rivalJoin_comm [OrientedCmp cmp] (h : cmp a b = .eq → tie a b = tie b a) :
    rivalJoin cmp flag tie a b = rivalJoin cmp flag tie b a := by
  rcases hab : cmp a b with _ | _ | _
  · rw [rivalJoin_of_lt hab, rivalJoin_of_gt (OrientedCmp.gt_of_lt hab)]
  · rw [rivalJoin_of_eq hab, rivalJoin_of_eq (OrientedCmp.eq_symm hab), h hab]
  · rw [rivalJoin_of_gt hab, rivalJoin_of_lt (OrientedCmp.lt_of_gt hab)]

variable [TransCmp cmp] {Rival : α → Prop} (h : Rivalry Rival cmp flag tie)

include h

theorem Rivalry.cmp_flag_right (a b : α) : cmp a (flag b) = cmp a b := by
  have hswap (d : α) : cmp a d = (cmp d a).swap := OrientedCmp.eq_swap
  rw [hswap, hswap, h.cmp_flag]

theorem Rivalry.cmp_tie_right (hb : Rival b) (hc : Rival c) (hbc : cmp b c = .eq) :
    cmp a (tie b c) = cmp a b := by
  have hswap (d : α) : cmp a d = (cmp d a).swap := OrientedCmp.eq_swap
  rw [hswap, hswap, h.cmp_tie hb hc hbc]

/-- **Contests may be held in any grouping**, if ties may. -/
theorem Rivalry.assoc (ha : Rival a) (hb : Rival b) (hc : Rival c)
    (htie : cmp a b = .eq → cmp b c = .eq → tie (tie a b) c = tie a (tie b c)) :
    rivalJoin cmp flag tie (rivalJoin cmp flag tie a b) c =
      rivalJoin cmp flag tie a (rivalJoin cmp flag tie b c) := by
  rcases hab : cmp a b with _ | _ | _ <;> rcases hbc : cmp b c with _ | _ | _
  · have hac : cmp a c = .lt := TransCmp.lt_trans hab hbc
    rw [rivalJoin_of_lt hab, rivalJoin_of_lt hbc, rivalJoin_of_lt (by rwa [h.cmp_flag]),
      rivalJoin_of_lt (by rwa [h.cmp_flag_right]), h.flag_flag]
  · rw [rivalJoin_of_lt hab, rivalJoin_of_eq hbc, rivalJoin_of_eq (by rwa [h.cmp_flag]),
      rivalJoin_of_lt (by rwa [h.cmp_tie_right hb hc hbc]), h.flag_tie hb hc hbc]
  · rw [rivalJoin_of_lt hab, rivalJoin_of_gt hbc, rivalJoin_of_gt (by rwa [h.cmp_flag]),
      rivalJoin_of_lt (by rwa [h.cmp_flag_right])]
  · have hac : cmp a c = .lt := TransCmp.lt_of_eq_of_lt hab hbc
    rw [rivalJoin_of_eq hab, rivalJoin_of_lt hbc, rivalJoin_of_lt (by rwa [h.cmp_tie ha hb hab]),
      rivalJoin_of_lt (by rwa [h.cmp_flag_right]), h.flag_flag]
  · have hac : cmp a c = .eq := TransCmp.eq_trans hab hbc
    rw [rivalJoin_of_eq hab, rivalJoin_of_eq hbc, rivalJoin_of_eq (by rwa [h.cmp_tie ha hb hab]),
      rivalJoin_of_eq (by rwa [h.cmp_tie_right hb hc hbc]), htie hab hbc]
  · have hac : cmp a c = .gt := TransCmp.gt_of_eq_of_gt hab hbc
    rw [rivalJoin_of_eq hab, rivalJoin_of_gt hbc, rivalJoin_of_gt (by rwa [h.cmp_tie ha hb hab]),
      rivalJoin_of_eq (by rwa [h.cmp_flag_right]), h.tie_flag ha hb hab]
  · -- the middle one loses to both, so the outer two meet either way
    rw [rivalJoin_of_gt hab, rivalJoin_of_lt hbc]
    rcases hac : cmp a c with _ | _ | _
    · rw [rivalJoin_of_lt (by rwa [h.cmp_flag]), rivalJoin_of_lt (by rwa [h.cmp_flag_right]),
        h.flag_flag]
    · rw [rivalJoin_of_eq (by rwa [h.cmp_flag]), rivalJoin_of_eq (by rwa [h.cmp_flag_right]),
        h.flag_tie ha hc hac, h.tie_flag ha hc hac]
    · rw [rivalJoin_of_gt (by rwa [h.cmp_flag]), rivalJoin_of_gt (by rwa [h.cmp_flag_right]),
        h.flag_flag]
  · have hac : cmp a c = .gt := TransCmp.gt_of_gt_of_eq hab hbc
    rw [rivalJoin_of_gt hab, rivalJoin_of_eq hbc, rivalJoin_of_gt (by rwa [h.cmp_flag]),
      rivalJoin_of_gt (by rwa [h.cmp_tie_right hb hc hbc]), h.flag_flag]
  · have hac : cmp a c = .gt := TransCmp.gt_trans hab hbc
    rw [rivalJoin_of_gt hab, rivalJoin_of_gt hbc, rivalJoin_of_gt (by rwa [h.cmp_flag]),
      rivalJoin_of_gt (by rwa [h.cmp_flag_right]), h.flag_flag]

end Join

/-! ## The opposite order, and the higher and lower of two -/

/-- A comparison read backwards. -/
def opposite (cmp : α → α → Ordering) (a b : α) : Ordering := cmp b a

instance (cmp : α → α → Ordering) [TransCmp cmp] : TransCmp (opposite cmp) where
  eq_swap {a b} := (OrientedCmp.eq_swap : cmp b a = (cmp a b).swap)
  isLE_trans {a _ c} h h' := (TransCmp.isLE_trans h' h : (cmp c a).isLE)

/-- Keeping the first of equals joins in any grouping. -/
theorem rankedJoin_keep_assoc (cmp : α → α → Ordering) [TransCmp cmp] (a b c : α) :
    rankedJoin cmp (fun a _ => a) (rankedJoin cmp (fun a _ => a) a b) c =
      rankedJoin cmp (fun a _ => a) a (rankedJoin cmp (fun a _ => a) b c) :=
  (Rivalry.unflagged fun _ _ _ _ => rfl : Rivalry (fun _ => True) cmp id fun a _ => a).assoc
    trivial trivial trivial fun _ _ => rfl

section Pick

variable [Ord α]

/-- The first unless the second is higher. -/
def higher : α → α → α := rankedJoin compare fun a _ => a

/-- The first unless the second is lower. -/
def lower : α → α → α := rankedJoin (opposite compare) fun a _ => a

variable [TransOrd α] {a b c : α}

theorem higher_assoc (a b c : α) : higher (higher a b) c = higher a (higher b c) :=
  rankedJoin_keep_assoc compare a b c

theorem lower_assoc (a b c : α) : lower (lower a b) c = lower a (lower b c) :=
  rankedJoin_keep_assoc (opposite compare) a b c

@[simp] theorem higher_self (a : α) : higher a a = a := by
  rw [higher, rankedJoin, rivalJoin_self rfl]

@[simp] theorem lower_self (a : α) : lower a a = a := by
  rw [lower, rankedJoin, rivalJoin_self rfl]

variable [LawfulEqOrd α]

theorem higher_comm (a b : α) : higher a b = higher b a := by
  rw [higher, rankedJoin, rivalJoin_comm LawfulEqOrd.eq_of_compare]

theorem lower_comm (a b : α) : lower a b = lower b a := by
  rw [lower, rankedJoin, rivalJoin_comm]
  exact fun h => (LawfulEqOrd.eq_of_compare (show compare b a = .eq from h)).symm

end Pick

end Rivalries

/-! ## The newest of a set in a descent, and falling back until the newest agree

    heads agree    -▸ one of them
    heads differ   -▸ the newest that every head descends from, judged the same way
    no heads       -▸ nothing

What falling back comes to is one of the heads, or something every one of them descends from
(`FallsBack.head_or_common`).
-/

section Newer

universe u v

variable {α : Type u} {β : Type v} {descends : α → α → Prop} {A counted : Set α}

/-- The members no other member descends from. -/
def Newest (descends : α → α → Prop) (A : Set α) : Set α := {a ∈ A | ∀ b ∈ A, ¬ descends b a}

/-- What every member descends from. -/
def Common (descends : α → α → Prop) (A : Set α) : Set α := {a | ∀ b ∈ A, descends b a}

/-- **The newest stand over the rest** of a finite set, where descent has no cycles. -/
theorem newest_or_below (hA : A.Finite) (hirrefl : ∀ a, ¬ descends a a)
    (htrans : ∀ a b c, descends a b → descends b c → descends a c) {a : α} (ha : a ∈ A) :
    a ∈ Newest descends A ∨ ∃ b ∈ Newest descends A, descends b a := by
  let stands (x y : α) : Prop := x = y ∨ descends x y
  let _ : Preorder α :=
    { le := fun x y => stands y x
      le_refl := fun x => .inl rfl
      le_trans := fun x y z hxy hyz => by
        rcases hxy with rfl | hxy <;> rcases hyz with rfl | hyz
        · exact .inl rfl
        · exact .inr hyz
        · exact .inr hxy
        · exact .inr (htrans _ _ _ hyz hxy) }
  obtain ⟨top, htop, hmax⟩ := hA.exists_le_maximal ha
  have hnewest : top ∈ Newest descends A := by
    refine ⟨hmax.prop, fun b hb hdescends => ?_⟩
    rcases hmax.le_of_ge hb (.inr hdescends) with heq | hback
    · exact hirrefl top (heq ▸ hdescends)
    · exact hirrefl top (htrans _ _ _ hback hdescends)
  rcases htop with heq | hdescends
  · exact .inl (heq ▸ hnewest)
  · exact .inr ⟨top, hnewest, hdescends⟩

/-- Falls back from heads that differ to the newest counted ones all of them descend from. -/
inductive FallsBack (descends : α → α → Prop) (counted : Set α) (value : α → β)
    (least : α → α → Prop) : Set α → Option α → Prop where
  | none : FallsBack descends counted value least ∅ none
  | agree {heads : Set α} {a : α} (ha : a ∈ heads) (hleast : ∀ b ∈ heads, least a b)
      (hsame : ∀ b ∈ heads, value b = value a) :
      FallsBack descends counted value least heads (some a)
  | back {heads : Set α} {answer : Option α} {a b : α} (ha : a ∈ heads) (hb : b ∈ heads)
      (hdiffer : value a ≠ value b)
      (hback : FallsBack descends counted value least
        (Newest descends (counted ∩ Common descends heads)) answer) :
      FallsBack descends counted value least heads answer

namespace FallsBack

variable {value : α → β} {least : α → α → Prop} {heads : Set α} {answer : Option α}

/-- What is fallen back to is counted. -/
theorem counted_of_mem (h : FallsBack descends counted value least heads answer)
    (hheads : heads ⊆ counted) : ∀ a ∈ answer, a ∈ counted := by
  induction h with
  | none => exact fun a ha => absurd ha (Option.not_mem_none a)
  | agree ha _ _ => exact fun a hanswer => Option.some.inj hanswer ▸ hheads ha
  | back _ _ _ _ ih => exact ih fun a ha => ha.1.1

/-- Heads that agree stand for themselves; those that differ all descend from the answer. -/
theorem head_or_common (htrans : ∀ a b c, descends a b → descends b c → descends a c)
    (h : FallsBack descends counted value least heads answer) : ∀ a ∈ answer,
    (a ∈ heads ∧ ∀ b ∈ heads, value b = value a) ∨
      heads.Nonempty ∧ a ∈ Common descends heads := by
  induction h with
  | none => exact fun a ha => absurd ha (Option.not_mem_none a)
  | agree ha _ hsame =>
    intro a hanswer
    obtain rfl := Option.some.inj hanswer
    exact .inl ⟨ha, hsame⟩
  | back ha _ _ _ ih =>
    intro a hanswer
    refine .inr ⟨⟨_, ha⟩, fun b hb => ?_⟩
    rcases ih a hanswer with ⟨hin, -⟩ | ⟨⟨next, hnext⟩, hcommon⟩
    · exact hin.1.2 b hb
    · exact htrans _ _ _ (hnext.1.2 b hb) (hcommon next hnext)

/-- **Heads that differ all descend from the answer**, if there is one. -/
theorem common_of_differ (htrans : ∀ a b c, descends a b → descends b c → descends a c)
    (h : FallsBack descends counted value least heads answer) {b c : α} (hb : b ∈ heads)
    (hc : c ∈ heads) (hdiffer : value b ≠ value c) : ∀ a ∈ answer, a ∈ Common descends heads := by
  intro a ha
  rcases h.head_or_common htrans a ha with ⟨-, hsame⟩ | ⟨-, hcommon⟩
  · exact absurd ((hsame b hb).trans (hsame c hc).symm) hdiffer
  · exact hcommon

end FallsBack

end Newer

end Oneiron
