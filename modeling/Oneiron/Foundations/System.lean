import Mathlib.Data.List.Basic

/-!
# Foundations/System — labelled transition systems, their runs and invariants

    s₀ --a--▸ s₁ --b--▸ s₂            a run of labels [a, b]

A safety property of every run is an invariant: it holds at the start and every step keeps it
(`System.Reachable.invariant`).  A property of a stretch of a run is an invariant from where the
stretch starts (`System.Run.preserves`).
-/

namespace Oneiron

universe u v

/-- What a call that is taken gives back, apart. -/
theorem eq_of_some_eq {α : Type u} {β : Type v} {ran : α × β} {a : α} {b : β}
    (h : some ran = some (a, b)) : ran.1 = a ∧ ran.2 = b := by
  obtain rfl := Option.some.inj h
  exact ⟨rfl, rfl⟩

/-- A labelled transition system. -/
structure System (State : Type u) (Label : Type v) where
  init : State → Prop
  step : State → Label → State → Prop

namespace System

variable {State : Type u} {Label : Type v} {sys : System State Label}

/-- The labels of a run, in order, with the states it leads between. -/
inductive Run (sys : System State Label) : State → List Label → State → Prop
  | nil (s : State) : sys.Run s [] s
  | cons {s t u : State} {label : Label} {labels : List Label} :
      sys.step s label t → sys.Run t labels u → sys.Run s (label :: labels) u

/-- The system with only the steps a condition on state and label lets through. -/
def restrict (sys : System State Label) (allowed : State → Label → Prop) : System State Label where
  init := sys.init
  step s label t := sys.step s label t ∧ allowed s label

/-- The states some run leads to from the start. -/
inductive Reachable (sys : System State Label) : State → Prop
  | start {s : State} : sys.init s → sys.Reachable s
  | step {s t : State} {label : Label} :
      sys.Reachable s → sys.step s label t → sys.Reachable t

/-- **The invariant rule**: what holds at the start and is kept by every step holds throughout. -/
theorem Reachable.invariant (Inv : State → Prop) (hinit : ∀ {s}, sys.init s → Inv s)
    (hstep : ∀ {s label t}, Inv s → sys.step s label t → Inv t) {s : State}
    (h : sys.Reachable s) : Inv s := by
  induction h with
  | start h => exact hinit h
  | step _ h ih => exact hstep ih h

/-- What computed steps lead to is reached, when each is a step or leaves the state as it is. -/
theorem Reachable.foldl {ι : Type*} {f : State → ι → State}
    (hf : ∀ s i, f s i = s ∨ ∃ label, sys.step s label (f s i)) :
    ∀ (l : List ι) {s : State}, sys.Reachable s → sys.Reachable (l.foldl f s)
  | [], _, hs => hs
  | i :: l, s, hs => foldl hf l <| (hf s i).elim (·.symm ▸ hs) fun ⟨_, h⟩ => .step hs h

namespace Run

variable {s t u : State} {labels rest : List Label}

/-- **The run rule**: what every step keeps, a whole run keeps. -/
theorem preserves (Inv : State → Prop)
    (hstep : ∀ {s label t}, Inv s → sys.step s label t → Inv t) (h : sys.Run s labels t) :
    Inv s → Inv t := by
  induction h with
  | nil => exact id
  | cons h _ ih => exact fun hs => ih (hstep hs h)

/-- **The label rule**: what an invariant lets happen is all that happens along a run whose labels
keep the invariant. -/
theorem forall_label (Inv : State → Prop) {P Q : Label → Prop}
    (hstep : ∀ {s label t}, Inv s → sys.step s label t → Q label → P label ∧ Inv t)
    (h : sys.Run s labels t) : Inv s → (∀ label ∈ labels, Q label) → ∀ label ∈ labels, P label := by
  induction h with
  | nil => exact fun _ _ _ h => absurd h List.not_mem_nil
  | cons h _ ih =>
    intro hs hall
    rw [List.forall_mem_cons] at hall ⊢
    obtain ⟨hp, ht⟩ := hstep hs h hall.1
    exact ⟨hp, ih ht hall.2⟩

theorem reachable (h : sys.Run s labels t) (hs : sys.Reachable s) : sys.Reachable t := by
  induction h with
  | nil => exact hs
  | cons h _ ih => exact ih (.step hs h)

/-- A run of a concatenation passes through a state between its halves. -/
theorem split : ∀ {s u : State} {labels rest : List Label}, sys.Run s (labels ++ rest) u →
    ∃ t, sys.Run s labels t ∧ sys.Run t rest u
  | s, _, [], _, h => ⟨s, .nil s, h⟩
  | _, _, _ :: _, _, .cons h h' => by
    obtain ⟨t, hl, hr⟩ := split h'
    exact ⟨t, .cons h hl, hr⟩

end Run

end System

end Oneiron
