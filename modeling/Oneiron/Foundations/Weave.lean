import Oneiron.Foundations.Ordered

/-!
# Foundations/Weave — one pass over a base and an overlay, both in slot order

    base     b₁ < b₂ < b₃ < …          visible bᵢ, or nothing
    overlay     o₁ < o₂ < …      --▸   the row oⱼ stages, or nothing

A `Weaver` says which slot a row falls in, which base rows an overlay row masks and which row it
stages itself.  The pass looks at the two heads only; `mem_weave` reads off what it yields —
every base row no overlay row masks, and every staged row — and `sorted_weave` that it comes out
in slot order, each slot once.
-/

open Std

namespace Oneiron

open List

/-- How rows `ρ` of a base and rows `ο` of an overlay meet in slots `κ`. -/
structure Weaver (ρ ο κ : Type*) where
  /-- The order both inputs are read in. -/
  cmp : κ → κ → Ordering
  slot : ρ → κ
  slotOver : ο → κ
  /-- A base row no overlay row is needed to hide. -/
  hidden : ρ → Bool
  /-- Whether an overlay row hides a base row of its own slot. -/
  masks : ο → ρ → Bool
  /-- The row an overlay row stages itself. -/
  emit : ο → Option ρ

namespace Weaver

variable {ρ ο κ : Type*} (W : Weaver ρ ο κ)

/-- The pass: the smaller head goes first, and a base row meeting an overlay row in its slot passes
only if that row lets it. -/
def weave : List ρ → List ο → List ρ
  | [], [] => []
  | [], o :: os => (W.emit o).toList ++ weave [] os
  | b :: bs, [] => (if W.hidden b then [] else [b]) ++ weave bs []
  | b :: bs, o :: os =>
    match W.cmp (W.slot b) (W.slotOver o) with
    | .lt => (if W.hidden b then [] else [b]) ++ weave bs (o :: os)
    | .gt => (W.emit o).toList ++ weave (b :: bs) os
    | .eq => (if W.hidden b || W.masks o b then [] else [b]) ++ weave bs (o :: os)
  termination_by bs os => bs.length + os.length

variable {o : ο} {os : List ο} {b : ρ}

/-- An overlay row below the whole base goes first. -/
theorem weave_cons_over : ∀ {bs : List ρ},
    (∀ b ∈ bs, W.cmp (W.slot b) (W.slotOver o) = .gt) →
      W.weave bs (o :: os) = (W.emit o).toList ++ W.weave bs os
  | [], _ => by rw [weave]
  | b :: bs, h => by rw [weave, h b (by simp)]

/-- A base row the overlay `os` shows through. -/
def Shows (os : List ο) (b : ρ) : Prop :=
  W.hidden b = false ∧ ∀ o ∈ os, W.cmp (W.slot b) (W.slotOver o) = .eq → W.masks o b = false

/-- Base rows in strictly increasing slots. -/
abbrev SortedBase (bs : List ρ) : Prop := Sorted (fun a b => W.cmp (W.slot a) (W.slot b)) bs

/-- Overlay rows in strictly increasing slots. -/
abbrev SortedOver (os : List ο) : Prop :=
  Sorted (fun a b => W.cmp (W.slotOver a) (W.slotOver b)) os

/-- Each row `os` stages lands in the slot of the row staging it, and hides what base holds there. -/
def Lawful (os : List ο) : Prop :=
  ∀ o ∈ os, ∀ r, W.emit o = some r → W.slot r = W.slotOver o ∧ ∀ b, W.masks o b = true

variable {W}

theorem Lawful.tail (h : W.Lawful (o :: os)) : W.Lawful os :=
  fun p hp => h p (mem_cons_of_mem _ hp)

theorem shows_cons : W.Shows (o :: os) b ↔
      (W.cmp (W.slot b) (W.slotOver o) = .eq → W.masks o b = false) ∧ W.Shows os b := by
  simp only [Shows, forall_mem_cons]
  tauto

@[simp] theorem shows_nil : W.Shows [] b ↔ W.hidden b = false := by simp [Shows]

section

variable [TransCmp W.cmp]

omit [TransCmp W.cmp] in
theorem shows_of_lt (h : ∀ o ∈ os, W.cmp (W.slot b) (W.slotOver o) = .lt) :
    W.Shows os b ↔ W.hidden b = false :=
  ⟨And.left, fun hb => ⟨hb, fun o ho he => by simp [h o ho] at he⟩⟩

theorem lt_all_of_lt (hos : W.SortedOver (o :: os)) (h : W.cmp (W.slot b) (W.slotOver o) = .lt) :
    ∀ p ∈ o :: os, W.cmp (W.slot b) (W.slotOver p) = .lt := fun p hp => by
  rcases mem_cons.mp hp with rfl | hp
  · exact h
  · exact TransCmp.lt_trans h ((sorted_cons.mp hos).1 p hp)

variable {bs : List ρ}

/-- **What the pass yields** — the base rows that show through, and the staged rows. -/
theorem mem_weave (hbs : W.SortedBase bs) (hos : W.SortedOver os) (x : ρ) :
    x ∈ W.weave bs os ↔ (x ∈ bs ∧ W.Shows os x) ∨ ∃ o ∈ os, W.emit o = some x := by
  induction bs, os using weave.induct W with
  | case1 => simp [weave]
  | case2 o os ih =>
    simp [weave, ih sorted_nil (sorted_cons.mp hos).2]
  | case3 b bs ih =>
    rw [weave, mem_append, ih (sorted_cons.mp hbs).2 sorted_nil]
    by_cases hb : W.hidden b <;> by_cases hx : x = b <;> simp [hb, hx]
  | case4 b bs o os hc ih =>
    -- `b` lies below the whole overlay
    have hb := shows_of_lt (lt_all_of_lt hos hc)
    rw [weave, hc, mem_append, ih (sorted_cons.mp hbs).2 hos]
    by_cases hh : W.hidden b <;> by_cases hx : x = b <;> simp [hh, hx, hb]
  | case5 b bs o os hc ih =>
    -- `o` lies below the whole base, so it masks none of it
    have hskip : ∀ a ∈ b :: bs, (W.Shows (o :: os) a ↔ W.Shows os a) := fun a ha => by
      have hlt : W.cmp (W.slotOver o) (W.slot a) = .lt := by
        rcases mem_cons.mp ha with rfl | ha
        · exact OrientedCmp.gt_iff_lt.mp hc
        · exact TransCmp.lt_trans (OrientedCmp.gt_iff_lt.mp hc) ((sorted_cons.mp hbs).1 a ha)
      rw [shows_cons, and_iff_right]
      intro he
      rw [OrientedCmp.eq_comm, hlt] at he
      cases he
    rw [weave, hc, mem_append, ih hbs (sorted_cons.mp hos).2]
    constructor
    · rintro (h | ⟨h, hs⟩ | ⟨p, hp, h⟩)
      · exact Or.inr ⟨o, by simp, by simpa using h⟩
      · exact Or.inl ⟨h, (hskip x h).mpr hs⟩
      · exact Or.inr ⟨p, mem_cons_of_mem _ hp, h⟩
    · rintro (⟨h, hs⟩ | ⟨p, hp, h⟩)
      · exact Or.inr (Or.inl ⟨h, (hskip x h).mp hs⟩)
      · rcases mem_cons.mp hp with rfl | hp
        · exact Or.inl (by simp [h])
        · exact Or.inr (Or.inr ⟨p, hp, h⟩)
  | case6 b bs o os hc ih =>
    -- the slot of `b` is `o`'s, below every later one
    have hrest : ∀ p ∈ os, W.cmp (W.slot b) (W.slotOver p) = .lt := fun p hp =>
      TransCmp.lt_of_isLE_of_lt (by simp [hc]) ((sorted_cons.mp hos).1 p hp)
    have hb : W.Shows (o :: os) b ↔ (W.hidden b || W.masks o b) = false := by
      rw [shows_cons, shows_of_lt hrest]
      simp [hc, and_comm]
    rw [weave, hc, mem_append, ih (sorted_cons.mp hbs).2 hos]
    cases hh : W.hidden b || W.masks o b <;> by_cases hx : x = b <;> simp_all

/-- A slot below the whole base and every staged row is below all the pass yields. -/
theorem lt_of_mem_weave (hW : W.Lawful os) (hbs : W.SortedBase bs) (hos : W.SortedOver os) {k : κ}
    (hb : ∀ b ∈ bs, W.cmp k (W.slot b) = .lt)
    (ho : ∀ o ∈ os, (W.emit o).isSome → W.cmp k (W.slotOver o) = .lt) :
    ∀ x ∈ W.weave bs os, W.cmp k (W.slot x) = .lt := fun x hx => by
  obtain ⟨h, -⟩ | ⟨o, hm, h⟩ := (mem_weave hbs hos x).mp hx
  · exact hb x h
  · rw [(hW o hm x h).1]
    exact ho o hm (by simp [h])

/-- **The pass comes out in slot order**, each slot once. -/
theorem sorted_weave (hW : W.Lawful os) (hbs : W.SortedBase bs) (hos : W.SortedOver os) :
    W.SortedBase (W.weave bs os) := by
  induction bs, os using weave.induct W with
  | case1 => simp [weave]
  | case2 o os ih =>
    obtain ⟨ho', hos'⟩ := sorted_cons.mp hos
    rw [weave]
    cases ho : W.emit o with
    | none => exact ih hW.tail sorted_nil hos'
    | some r =>
      refine sorted_cons.mpr ⟨lt_of_mem_weave hW.tail sorted_nil hos' (by simp) fun p hp _ => ?_,
        ih hW.tail sorted_nil hos'⟩
      rw [(hW o (by simp) r ho).1]
      exact ho' p hp
  | case3 b bs ih =>
    obtain ⟨hb', hbs'⟩ := sorted_cons.mp hbs
    rw [weave]
    split
    · exact ih hW hbs' sorted_nil
    · exact sorted_cons.mpr
        ⟨lt_of_mem_weave hW hbs' sorted_nil hb' (by simp), ih hW hbs' sorted_nil⟩
  | case4 b bs o os hc ih =>
    obtain ⟨hb', hbs'⟩ := sorted_cons.mp hbs
    rw [weave, hc]
    dsimp only
    split
    · exact ih hW hbs' hos
    · exact sorted_cons.mpr ⟨lt_of_mem_weave hW hbs' hos hb' fun p hp _ => lt_all_of_lt hos hc p hp,
        ih hW hbs' hos⟩
  | case5 b bs o os hc ih =>
    obtain ⟨ho', hos'⟩ := sorted_cons.mp hos
    rw [weave, hc]
    cases ho : W.emit o with
    | none => exact ih hW.tail hbs hos'
    | some r =>
      refine sorted_cons.mpr ⟨lt_of_mem_weave hW.tail hbs hos' (fun a ha => ?_) fun p hp _ => ?_,
        ih hW.tail hbs hos'⟩
      · have hob := OrientedCmp.gt_iff_lt.mp hc
        rw [(hW o (by simp) r ho).1]
        rcases mem_cons.mp ha with rfl | ha
        · exact hob
        · exact TransCmp.lt_trans hob ((sorted_cons.mp hbs).1 a ha)
      · rw [(hW o (by simp) r ho).1]
        exact ho' p hp
  | case6 b bs o os hc ih =>
    obtain ⟨hb', hbs'⟩ := sorted_cons.mp hbs
    rw [weave, hc]
    dsimp only
    split
    · exact ih hW hbs' hos
    · rename_i hkeep
      refine sorted_cons.mpr ⟨lt_of_mem_weave hW hbs' hos hb' fun p hp hs => ?_, ih hW hbs' hos⟩
      rcases mem_cons.mp hp with rfl | hp
      · -- an overlay row that lets `b` through stages nothing
        obtain ⟨r, hr⟩ := Option.isSome_iff_exists.mp hs
        simp [(hW p (by simp) r hr).2 b] at hkeep
      · exact TransCmp.lt_of_isLE_of_lt (by simp [hc]) ((sorted_cons.mp hos).1 p hp)

end

end Weaver

end Oneiron
