import Mathlib.Data.List.Basic
import Mathlib.Order.Basic

/-!
# Foundations/Merging — branches merged in any order, any number of times

    a ⊔ (b ⊔ c)  =  (c ⊔ a) ⊔ (b ⊔ a)

Where a merge commutes, associates and repeats without effect on what it may meet, what a tree of
merges comes to depends only on which branches are in it (`MergeLaws.eval_eq`).
-/

namespace Oneiron

section Merges

universe u

variable {α : Type u}

/-- A way of merging branches. -/
inductive MergeTree (α : Type u) where
  | branch (a : α)
  | merged (left right : MergeTree α)

namespace MergeTree

/-- What the merges come to. -/
def eval (merge : α → α → α) : MergeTree α → α
  | branch a => a
  | merged left right => merge (left.eval merge) (right.eval merge)

/-- What is merged. -/
def branches : MergeTree α → List α
  | branch a => [a]
  | merged left right => left.branches ++ right.branches

end MergeTree

/-- **The laws of a merge**, on a class it keeps to. -/
structure MergeLaws (P : α → Prop) (merge : α → α → α) : Prop where
  closed : ∀ {a b}, P a → P b → P (merge a b)
  comm : ∀ {a b}, P a → P b → merge a b = merge b a
  assoc : ∀ {a b c}, P a → P b → P c → merge (merge a b) c = merge a (merge b c)
  self : ∀ {a}, P a → merge a a = a

namespace MergeLaws

variable {P : α → Prop} {merge : α → α → α} (h : MergeLaws P merge) {a b x : α}

include h

/-- What takes both in takes their merge in. -/
theorem absorbs_iff (ha : P a) (hb : P b) (hx : P x) :
    merge (merge a b) x = x ↔ merge a x = x ∧ merge b x = x := by
  constructor
  · intro hab
    constructor
    · calc merge a x = merge a (merge (merge a b) x) := by rw [hab]
        _ = merge (merge (merge a a) b) x := by
          rw [h.assoc ha ha hb, h.assoc ha (h.closed ha hb) hx]
        _ = x := by rw [h.self ha, hab]
    · calc merge b x = merge b (merge (merge b a) x) := by rw [h.comm hb ha, hab]
        _ = merge (merge (merge b b) a) x := by
          rw [h.assoc hb hb ha, h.assoc hb (h.closed hb ha) hx]
        _ = x := by rw [h.self hb, h.comm hb ha, hab]
  · rintro ⟨hax, hbx⟩
    rw [h.assoc ha hb hx, hbx, hax]

variable {t : MergeTree α}

theorem closed_eval (ht : ∀ a ∈ t.branches, P a) : P (t.eval merge) := by
  induction t with
  | branch a => exact ht a (List.mem_singleton_self a)
  | merged left right ihl ihr =>
    exact h.closed (ihl fun a ha => ht a (List.mem_append_left _ ha))
      (ihr fun a ha => ht a (List.mem_append_right _ ha))

/-- A tree is taken in where each of its branches is. -/
theorem absorbs_eval_iff (ht : ∀ a ∈ t.branches, P a) (hx : P x) :
    merge (t.eval merge) x = x ↔ ∀ a ∈ t.branches, merge a x = x := by
  induction t with
  | branch a => simp [MergeTree.eval, MergeTree.branches]
  | merged left right ihl ihr =>
    have hl := fun a ha => ht a (List.mem_append_left right.branches ha)
    have hr := fun a ha => ht a (List.mem_append_right left.branches ha)
    rw [MergeTree.eval, h.absorbs_iff (h.closed_eval hl) (h.closed_eval hr) hx, ihl hl, ihr hr,
      MergeTree.branches, List.forall_mem_append]

/-- **Only which branches are merged matters**, not in what order or how often. -/
theorem eval_eq {s : MergeTree α} (hs : ∀ a ∈ s.branches, P a)
    (hsame : ∀ a, a ∈ s.branches ↔ a ∈ t.branches) : s.eval merge = t.eval merge := by
  have ht : ∀ a ∈ t.branches, P a := fun a ha => hs a ((hsame a).mpr ha)
  have hPs := h.closed_eval hs
  have hPt := h.closed_eval ht
  have hst : merge (s.eval merge) (t.eval merge) = t.eval merge := by
    refine (h.absorbs_eval_iff hs hPt).mpr fun a ha => ?_
    exact (h.absorbs_eval_iff ht hPt).mp (h.self hPt) a ((hsame a).mp ha)
  have hts : merge (t.eval merge) (s.eval merge) = s.eval merge := by
    refine (h.absorbs_eval_iff ht hPs).mpr fun a ha => ?_
    exact (h.absorbs_eval_iff hs hPs).mp (h.self hPs) a ((hsame a).mpr ha)
  rw [← hts, h.comm hPt hPs, hst]

end MergeLaws

end Merges

/-! ## A meet as the greatest lower bound of a preorder decided by a test

    c narrows a ⊓ b  ↔  c narrows a and b

Where the test is reflexive and transitive, this one law gives the others up to mutual narrowing
(`MeetLaws.of_glb`), and it passes to products (`MeetLaws.prod`).
-/

section Meets

universe u v

variable {α : Type u} {β : Type v}

/-- Each of two narrows the other. -/
def Mutual (narrows : α → α → Prop) (a b : α) : Prop := narrows a b ∧ narrows b a

/-- **The laws of a meet.** -/
structure MeetLaws (narrows : α → α → Prop) (meet : α → α → α) : Prop where
  refl : ∀ a, narrows a a
  trans : ∀ a b c, narrows a b → narrows b c → narrows a c
  glb : ∀ a b c, narrows c (meet a b) ↔ narrows c a ∧ narrows c b
  comm : ∀ a b, Mutual narrows (meet a b) (meet b a)
  assoc : ∀ a b c, Mutual narrows (meet (meet a b) c) (meet a (meet b c))
  idem : ∀ a, Mutual narrows (meet a a) a

variable {narrows : α → α → Prop} {meet : α → α → α} {narrows' : β → β → Prop} {meet' : β → β → β}

/-- A greatest lower bound of a preorder has every law of a meet. -/
theorem MeetLaws.of_glb (refl : ∀ a, narrows a a)
    (trans : ∀ a b c, narrows a b → narrows b c → narrows a c)
    (glb : ∀ a b c, narrows c (meet a b) ↔ narrows c a ∧ narrows c b) : MeetLaws narrows meet := by
  have hleft : ∀ a b, narrows (meet a b) a := fun a b => ((glb a b _).mp (refl _)).1
  have hright : ∀ a b, narrows (meet a b) b := fun a b => ((glb a b _).mp (refl _)).2
  refine ⟨refl, trans, glb, fun a b => ⟨?_, ?_⟩, fun a b c => ⟨?_, ?_⟩, fun a => ⟨hleft a a, ?_⟩⟩
  · exact (glb b a _).mpr ⟨hright a b, hleft a b⟩
  · exact (glb a b _).mpr ⟨hright b a, hleft b a⟩
  · have hab := hleft (meet a b) c
    refine (glb _ _ _).mpr ⟨trans _ _ _ hab (hleft a b), (glb _ _ _).mpr ⟨?_, hright _ c⟩⟩
    exact trans _ _ _ hab (hright a b)
  · have hbc := hright a (meet b c)
    refine (glb _ _ _).mpr ⟨(glb _ _ _).mpr ⟨hleft a _, ?_⟩, trans _ _ _ hbc (hright b c)⟩
    exact trans _ _ _ hbc (hleft b c)
  · exact (glb a a a).mpr ⟨refl a, refl a⟩

/-- Two meets side by side. -/
theorem MeetLaws.prod (h : MeetLaws narrows meet) (h' : MeetLaws narrows' meet') :
    MeetLaws (fun p q : α × β => narrows p.1 q.1 ∧ narrows' p.2 q.2)
      (fun p q => (meet p.1 q.1, meet' p.2 q.2)) :=
  .of_glb (fun p => ⟨h.refl p.1, h'.refl p.2⟩)
    (fun _ _ _ hab hbc => ⟨h.trans _ _ _ hab.1 hbc.1, h'.trans _ _ _ hab.2 hbc.2⟩)
    fun _ _ _ => by rw [h.glb, h'.glb, and_and_and_comm]

/-- Meets read through a map that keeps the test and the meet. -/
theorem MeetLaws.comap (h : MeetLaws narrows meet) (f : β → α)
    (hnarrows : ∀ p q, narrows' p q ↔ narrows (f p) (f q))
    (hmeet : ∀ p q, f (meet' p q) = meet (f p) (f q)) : MeetLaws narrows' meet' :=
  .of_glb (fun p => (hnarrows p p).mpr (h.refl _))
    (fun _ _ _ hab hbc => (hnarrows _ _).mpr
      (h.trans _ _ _ ((hnarrows _ _).mp hab) ((hnarrows _ _).mp hbc)))
    fun _ _ _ => by rw [hnarrows, hmeet, h.glb, hnarrows, hnarrows]

end Meets

end Oneiron
