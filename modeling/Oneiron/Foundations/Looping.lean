import Mathlib.Data.Fintype.EquivFin
import Mathlib.Order.WellFounded
import Mathlib.Algebra.BigOperators.Group.Finset.Basic

/-!
# Foundations/Looping — loops that end because a measure drops, and searches by a stack

    search next:   pop --seen--▸ drop        pop --new--▸ visit, push what is next of it

A loop takes steps until one gives a result; what every step keeps holds where it ends
(`loop_rule`).  A search visits exactly what its start leads to (`mem_visited_search`), each once.
-/

namespace Oneiron

open List Finset

universe u v w

section Loop

variable {σ : Type u} {β : Type v} {step : σ → σ ⊕ β} {μ : σ → ℕ}

/-- Steps until one gives a result. -/
def loop (step : σ → σ ⊕ β) (μ : σ → ℕ) (hμ : ∀ s s', step s = .inl s' → μ s' < μ s) (s : σ) : β :=
  match _h : step s with
  | .inl s' => loop step μ hμ s'
  | .inr b => b
termination_by μ s
decreasing_by exact hμ s s' _h

variable {hμ : ∀ s s', step s = .inl s' → μ s' < μ s}

theorem loop_eq (s : σ) : loop step μ hμ s = (step s).elim (loop step μ hμ) id := by
  rw [loop]
  split <;> simp_all

theorem loop_of_inl {s s' : σ} (h : step s = .inl s') : loop step μ hμ s = loop step μ hμ s' := by
  rw [loop_eq, h]
  rfl

theorem loop_of_inr {s : σ} {b : β} (h : step s = .inr b) : loop step μ hμ s = b := by
  rw [loop_eq, h]
  rfl

/-- **The loop rule**: what holds at the start and is kept by every step gives what each end of the
loop gives from it. -/
theorem loop_rule (Inv : σ → Prop) (Q : β → Prop)
    (hstep : ∀ {s s'}, Inv s → step s = .inl s' → Inv s')
    (hend : ∀ {s b}, Inv s → step s = .inr b → Q b) {s : σ} (hs : Inv s) : Q (loop step μ hμ s) := by
  induction hn : μ s using Nat.strong_induction_on generalizing s with
  | _ n ih =>
    rw [loop_eq]
    cases h : step s with
    | inl s' => exact ih _ (hn ▸ hμ s s' h) (hstep hs h) rfl
    | inr b => exact hend hs h

end Loop

/-! ## Descent -/

/-- **Descent ends** in a relation without cycles that only finitely many descend by. -/
theorem wellFounded_of_acyclic {α : Type u} {r : α → α → Prop} (support : Finset α)
    (hsupport : ∀ a b, r a b → b ∈ support) (hacyclic : ∀ a, ¬ Relation.TransGen r a a) :
    WellFounded r := by
  refine wellFounded_iff_isEmpty_descending_chain.mpr ⟨fun ⟨f, hf⟩ => ?_⟩
  have hdescends : ∀ n k, Relation.TransGen r (f (n + k + 1)) (f n) := by
    intro n k
    induction k with
    | zero => exact .single (hf n)
    | succ k ih => exact .head (hf (n + k + 1)) ih
  refine not_injective_infinite_finite
    (fun n => (⟨f n, hsupport _ _ (hf n)⟩ : support)) fun m n hmn => ?_
  have hmn : f m = f n := Subtype.ext_iff.mp hmn
  rcases lt_trichotomy m n with hlt | heq | hlt
  · obtain ⟨k, rfl⟩ := Nat.exists_eq_add_of_lt hlt
    exact absurd (hmn ▸ hdescends m k) (hacyclic _)
  · exact heq
  · obtain ⟨k, rfl⟩ := Nat.exists_eq_add_of_lt hlt
    exact absurd (hmn ▸ hdescends n k) (hacyclic _)

/-! ## Searching -/

section Search

variable {α : Type u} {γ : Type v}

/-- What leads from one to the next, any number of times. -/
abbrev Leads (next : α → List α) : α → α → Prop := Relation.ReflTransGen fun a b => b ∈ next a

variable [DecidableEq α]

/-- A search under way: what it has visited, what it has yet to look at, and what it found. -/
structure Search (α : Type u) (γ : Type v) where
  visited : Finset α
  stack : List α
  found : γ

variable (next : α → List α) (visit : γ → α → γ)

/-- One turn of a search. -/
def searchStep (s : Search α γ) : Search α γ ⊕ γ :=
  match s.stack with
  | [] => .inr s.found
  | a :: stack =>
    if a ∈ s.visited then .inl { s with stack }
    else .inl ⟨insert a s.visited, (next a).reverse ++ stack, visit s.found a⟩

/-- What is left to do, when only the members of a set lead on. -/
def searchLeft (support : Finset α) (s : Search α γ) : ℕ :=
  s.stack.length + ((support \ s.visited).sum fun a => (next a).length)

variable {next visit}

theorem searchLeft_lt {support : Finset α} (hsupport : ∀ a, a ∉ support → next a = [])
    (s s' : Search α γ) (h : searchStep next visit s = .inl s') :
    searchLeft next support s' < searchLeft next support s := by
  unfold searchStep at h
  split at h
  · exact nomatch h
  · next a stack hstack =>
    split at h
    · obtain rfl := Sum.inl.inj h
      simp only [searchLeft, hstack, length_cons]
      omega
    · next hnew =>
      obtain rfl := Sum.inl.inj h
      simp only [searchLeft, hstack, length_cons, length_append, length_reverse]
      by_cases ha : a ∈ support
      · have hmem : a ∈ support \ s.visited := mem_sdiff.mpr ⟨ha, hnew⟩
        rw [← sum_erase_add _ _ hmem, ← sdiff_insert]
        omega
      · rw [hsupport a ha, sdiff_insert, erase_eq_of_notMem]
        · simp
        · exact fun hin => ha (mem_sdiff.mp hin).1

/-- A search of what a start leads to, whose visits gather what they find. -/
def search (next : α → List α) (visit : γ → α → γ) (support : Finset α)
    (hsupport : ∀ a, a ∉ support → next a = []) (start : List α) (found : γ) : γ :=
  loop (searchStep next visit) (searchLeft next support) (searchLeft_lt hsupport)
    ⟨∅, start.reverse, found⟩

/-- What is known of a search under way, from a start: what it visited, in order. -/
structure Searching (next : α → List α) (visit : γ → α → γ) (start : List α) (found : γ)
    (s : Search α γ) (order : List α) : Prop where
  nodup : order.Nodup
  visited : ∀ a, a ∈ s.visited ↔ a ∈ order
  found : s.found = order.foldl visit found
  led : ∀ a, a ∈ order ∨ a ∈ s.stack → ∃ r ∈ start, Leads next r a
  started : ∀ a ∈ start, a ∈ order ∨ a ∈ s.stack
  onward : ∀ a ∈ order, ∀ b ∈ next a, b ∈ order ∨ b ∈ s.stack

theorem Searching.step {start : List α} {found : γ} {s s' : Search α γ} {order : List α}
    (h : Searching next visit start found s order) (hstep : searchStep next visit s = .inl s') :
    ∃ order', Searching next visit start found s' order' := by
  unfold searchStep at hstep
  split at hstep
  · exact nomatch hstep
  next a stack hstack =>
  have hpop : ∀ b, b ∈ order ∨ b ∈ s.stack → b = a ∨ b ∈ order ∨ b ∈ stack := by
    intro b hb
    rw [hstack, List.mem_cons] at hb
    tauto
  split at hstep
  · next hseen =>
    obtain rfl := Sum.inl.inj hstep
    rw [h.visited] at hseen
    have hdrop : ∀ b, b ∈ order ∨ b ∈ s.stack → b ∈ order ∨ b ∈ stack := fun b hb =>
      (hpop b hb).elim (fun heq => .inl (heq ▸ hseen)) fun hb => hb
    refine ⟨order, h.nodup, h.visited, h.found, fun b hb => h.led b (hb.imp_right fun hb => ?_),
      fun b hb => hdrop b (h.started b hb), fun b hb c hc => hdrop c (h.onward b hb c hc)⟩
    exact hstack ▸ List.mem_cons_of_mem _ hb
  · next hnew =>
    obtain rfl := Sum.inl.inj hstep
    rw [h.visited] at hnew
    have hgrow : ∀ b, b ∈ order ∨ b ∈ s.stack →
        b ∈ order ++ [a] ∨ b ∈ (next a).reverse ++ stack := by
      intro b hb
      rw [mem_append, mem_append, List.mem_singleton]
      have hb := hpop b hb
      tauto
    refine ⟨order ++ [a], ?_, fun b => ?_, ?_, fun b hb => ?_, fun b hb => hgrow b (h.started b hb),
      fun b hb c hc => ?_⟩
    · exact nodup_append.mpr ⟨h.nodup, nodup_singleton a, fun x hx y hy heq =>
        hnew (List.mem_singleton.mp hy ▸ heq ▸ hx)⟩
    · rw [mem_insert, mem_append, List.mem_singleton, h.visited, or_comm]
    · rw [foldl_append, ← h.found]
      rfl
    · have ha := h.led a (.inr (hstack ▸ List.mem_cons_self))
      rw [mem_append, mem_append, List.mem_singleton, mem_reverse] at hb
      rcases hb with (hb | rfl) | hb | hb
      · exact h.led b (.inl hb)
      · exact ha
      · obtain ⟨r, hr, hlead⟩ := ha
        exact ⟨r, hr, hlead.tail hb⟩
      · exact h.led b (.inr (hstack ▸ List.mem_cons_of_mem _ hb))
    · rcases mem_append.mp hb with hb | hb
      · exact hgrow c (h.onward b hb c hc)
      · obtain rfl := List.mem_singleton.mp hb
        exact .inr (mem_append_left _ (mem_reverse.mpr hc))

/-- **What a search visits**: what its start leads to, each once. -/
theorem search_visits (visit : γ → α → γ) {support : Finset α} (hsupport : ∀ a, a ∉ support → next a = [])
    (start : List α) (found : γ) : ∃ order : List α, order.Nodup ∧
      (∀ a, a ∈ order ↔ ∃ r ∈ start, Leads next r a) ∧
      search next visit support hsupport start found = order.foldl visit found := by
  have hstart : Searching next visit start found ⟨∅, start.reverse, found⟩ [] := by
    refine ⟨nodup_nil, fun a => ?_, rfl, fun a ha => ?_, fun a ha => .inr ?_,
      fun a ha => absurd ha not_mem_nil⟩
    · exact iff_of_false (notMem_empty a) not_mem_nil
    · exact ⟨a, mem_reverse.mp (ha.resolve_left not_mem_nil), .refl⟩
    · exact mem_reverse.mpr ha
  refine loop_rule (fun s => ∃ order, Searching next visit start found s order)
    (fun b => ∃ order : List α, order.Nodup ∧ (∀ a, a ∈ order ↔ ∃ r ∈ start, Leads next r a) ∧
      b = order.foldl visit found) (fun ⟨order, h⟩ hstep => h.step hstep) ?_ ⟨[], hstart⟩
  · rintro s b ⟨order, h⟩ hend
    unfold searchStep at hend
    split at hend
    · next hstack =>
      refine ⟨order, h.nodup, fun a => ⟨fun ha => h.led a (.inl ha), ?_⟩, Sum.inr.inj hend ▸ h.found⟩
      have hin : ∀ a, a ∈ order ∨ a ∈ s.stack → a ∈ order := fun a ha =>
        ha.resolve_right (hstack ▸ not_mem_nil)
      rintro ⟨r, hr, hlead⟩
      induction hlead with
      | refl => exact hin r (h.started r hr)
      | tail _ hnext ih => exact hin _ (h.onward _ ih _ hnext)
    · split at hend <;> exact nomatch hend

end Search

end Oneiron
