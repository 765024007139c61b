import Mathlib.Data.List.Chain
import Oneiron.Foundations.Fallible

/-!
# Foundations/Crashing — work that may stop between any two of its writes

    s --write--▸ t₁ --write--▸ ⋯ --write--▸ tₙ        its value, or an error

Work on a durable state writes whole states one after another; a crash leaves any of them.  `From R s`
says of work started at `s` that each write is one `R` allows and how it ends; its rules run the work
step by step, and `From.mem` is what a crash may find.
-/

namespace Oneiron

open List

variable {σ ε α β : Type}

/-- The states work leaves behind, in order, and how it ends. -/
structure Done (σ ε α : Type) where
  states : List σ
  value : Except ε α

/-- Work on a durable state. -/
def Work (σ ε α : Type) := σ → Done σ ε α

namespace Work

/-- The state work started at `s` ends in. -/
def last (x : Work σ ε α) (s : σ) : σ := (x s).states.getLastD s

instance : Monad (Work σ ε) where
  pure a := fun _ => ⟨[], .ok a⟩
  bind x f := fun s =>
    match (x s).value with
    | .error e => ⟨(x s).states, .error e⟩
    | .ok a => ⟨(x s).states ++ (f a (x.last s)).states, (f a (x.last s)).value⟩

/-- The state as it is. -/
def read : Work σ ε σ := fun s => ⟨[], .ok s⟩

/-- One durable write. -/
def write (s : σ) : Work σ ε Unit := fun _ => ⟨[s], .ok ()⟩

/-- What is computed without a write. -/
def lift (x : Except ε α) : Work σ ε α := fun _ => ⟨[], x⟩

/-- **Work from a state**: every write is one `R` allows, and a value is given only as `Q` has it. -/
structure From (R : σ → σ → Prop) (s : σ) (x : Work σ ε α) (Q : α → σ → Prop) : Prop where
  moves : List.IsChain R (s :: (x s).states)
  ends : ∀ a, (x s).value = .ok a → Q a (x.last s)

variable {R : σ → σ → Prop} {s t : σ} {x : Work σ ε α} {f : α → Work σ ε β} {Q : α → σ → Prop}
  {Q' : β → σ → Prop}

namespace From

protected theorem pure {a : α} (h : Q a s) : From R s (Pure.pure a : Work σ ε α) Q where
  moves := isChain_singleton s
  ends _ ha := Except.ok.inj ha ▸ h

protected theorem lift {e : Except ε α} (h : ∀ a, e = .ok a → Q a s) : From R s (lift e) Q where
  moves := isChain_singleton s
  ends := h

protected theorem write (h : R s t) {Q : Unit → σ → Prop} (hQ : Q () t) :
    From R s (write t : Work σ ε Unit) Q where
  moves := isChain_pair.mpr h
  ends _ _ := hQ

theorem mono {Q₁ : α → σ → Prop} (h : From R s x Q₁) (hQ : ∀ a t, Q₁ a t → Q a t) : From R s x Q where
  moves := h.moves
  ends a ha := hQ a _ (h.ends a ha)

theorem imp {R' : σ → σ → Prop} (h : From R s x Q) (hR : ∀ u t, R u t → R' u t) :
    From R' s x Q where
  moves := h.moves.imp hR
  ends := h.ends

/-- **One piece of work after another.** -/
theorem bind (h : From R s x Q) (hf : ∀ a t, Q a t → From R t (f a) Q') :
    From R s (x >>= f) Q' := by
  cases hx : (x s).value with
  | error e =>
    have hbind : (x >>= f) s = ⟨(x s).states, .error e⟩ := by
      show (match (x s).value with | .error e => _ | .ok a => _) = _
      rw [hx]
    exact ⟨by rw [hbind]; exact h.moves, fun b hb => by rw [hbind] at hb; exact nomatch hb⟩
  | ok a =>
    have hbind : (x >>= f) s =
        ⟨(x s).states ++ (f a (x.last s)).states, (f a (x.last s)).value⟩ := by
      show (match (x s).value with | .error e => _ | .ok a => _) = _
      rw [hx]
    have hrest := hf a _ (h.ends a hx)
    have hlast : (x >>= f).last s = (f a).last (x.last s) := by
      simp only [Work.last, hbind, getLastD_eq_getLast?, getLast?_append]
      cases (f a (Option.getD (x s).states.getLast? s)).states.getLast? <;> rfl
    refine ⟨?_, fun b hb => ?_⟩
    · rw [hbind]
      show List.IsChain R ((s :: (x s).states) ++ _)
      refine isChain_append.mpr ⟨h.moves, (isChain_cons.mp hrest.moves).2, ?_⟩
      · intro y hy z hz
        rw [getLast?_cons, Option.mem_some_iff, ← getLastD_eq_getLast?] at hy
        exact hy ▸ (isChain_cons.mp hrest.moves).1 z hz
    · rw [hlast]
      rw [hbind] at hb
      exact hrest.ends b hb

/-- The state as it is, and then work that knows it. -/
theorem read_bind {f : σ → Work σ ε β} (h : From R s (f s) Q') : From R s (read >>= f) Q' :=
  bind (Q := fun a t => a = s ∧ t = s) ⟨isChain_singleton s, fun _ ha => ⟨(Except.ok.inj ha).symm, rfl⟩⟩
    fun _ _ ⟨ha, ht⟩ => ha ▸ ht ▸ h

/-- A computation, and then work that has what it gave. -/
theorem lift_bind {e : Except ε α} (h : ∀ a, e = .ok a → From R s (f a) Q') :
    From R s (lift e >>= f) Q' :=
  bind (Q := fun a t => e = .ok a ∧ t = s) ⟨isChain_singleton s, fun _ ha => ⟨ha, rfl⟩⟩
    fun a _ ⟨ha, ht⟩ => ht ▸ h a ha

/-- A write, and then work on what it left. -/
theorem write_bind {f : Unit → Work σ ε β} (h : R s t) (hf : From R t (f ()) Q') :
    From R s (write t >>= f) Q' :=
  bind (Q := fun _ u => u = t) (.write h rfl) fun _ _ hu => hu ▸ hf

/-- **What a crash may find** was left by a write that `R` allows. -/
theorem mem (h : From R s x Q) : ∀ t ∈ (x s).states, ∃ u, R u t := by
  have hall : ∀ {l : List σ} {s : σ}, List.IsChain R (s :: l) → ∀ t ∈ l, ∃ u, R u t := by
    intro l
    induction l with
    | nil => exact fun _ _ h => absurd h not_mem_nil
    | cons u l ih =>
      intro s hl
      obtain ⟨hsu, hl⟩ := isChain_cons_cons.mp hl
      exact forall_mem_cons.mpr ⟨⟨s, hsu⟩, ih hl⟩
  exact hall h.moves

end From

/-! ## Work that succeeds -/

/-- Work that gives a value, and the state it ends in. -/
def Gives (s : σ) (x : Work σ ε α) (a : α) (t : σ) : Prop := (x s).value = .ok a ∧ x.last s = t

namespace Gives

variable {a : α} {b : β} {u : σ}

theorem bind (h : Gives s x a t) (hf : Gives t (f a) b u) : Gives s (x >>= f) b u := by
  have hbind : (x >>= f) s =
      ⟨(x s).states ++ (f a (x.last s)).states, (f a (x.last s)).value⟩ := by
    show (match (x s).value with | .error e => _ | .ok a => _) = _
    rw [h.1]
  refine ⟨?_, ?_⟩
  · rw [hbind, h.2]
    exact hf.1
  · rw [← hf.2, ← h.2]
    simp only [Work.last, hbind, getLastD_eq_getLast?, getLast?_append]
    cases (f a (Option.getD (x s).states.getLast? s)).states.getLast? <;> rfl

protected theorem read : Gives s (read : Work σ ε σ) s s := ⟨rfl, rfl⟩

protected theorem write : Gives s (write t : Work σ ε Unit) () t := ⟨rfl, rfl⟩

protected theorem pure : Gives s (Pure.pure a : Work σ ε α) a s := ⟨rfl, rfl⟩

protected theorem lift {e : Except ε α} (h : e = .ok a) : Gives s (lift e) a s := ⟨h, rfl⟩

protected theorem ensure {p : Prop} [Decidable p] {e : ε} (h : p) :
    Gives s (Work.lift (ensure p e)) ⟨⟩ s := .lift (ensure_eq_ok.mpr h)

end Gives

end Work

end Oneiron
