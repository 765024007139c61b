import Mathlib.Data.Set.Insert

/-!
# Foundations/Forking — states folded over a log that forks and merges

    start --a--▸ s --b--▸ t -╮
                 ╰---c--▸ u -┴▸ merge t u --d--▸ …

Every row lands on a state folded from rows in its own past, and any two folded states merge.  What
holds at the start and is kept by landing and merging holds of every folded state
(`Folded.invariant`); a relation that is transitive, and leads from a state to what lands on it and
to what it merges into, leads from a state to every later one (`Later.leads`).
-/

namespace Oneiron

universe u v

/-- How rows change a state, and how the states of two branches come together. -/
structure Forking (State : Type u) (Row : Type v) where
  start : State
  land : State → Row → State → Prop
  merge : State → State → State → Prop
  /-- Whether the first row is in the past of the second. -/
  before : Row → Row → Prop

namespace Forking

variable {State : Type u} {Row : Type v} (f : Forking State Row)

/-- The folds in which only the merges a condition on the two sides lets through happen. -/
def restrict (allowed : State → State → Prop) : Forking State Row where
  start := f.start
  land := f.land
  merge s t u := f.merge s t u ∧ allowed s t
  before := f.before

/-- The states folded from a set of rows, in any order of merging. -/
inductive Folded : Set Row → State → Prop
  | start : Folded ∅ f.start
  | land {past : Set Row} {s t : State} {row : Row} : Folded past s →
      (∀ r ∈ past, f.before r row) → f.land s row t → Folded (insert row past) t
  | merge {past past' : Set Row} {s t u : State} : Folded past s → Folded past' t →
      f.merge s t u → Folded (past ∪ past') u

/-- The states that have a state in their ancestry. -/
inductive Later (s : State) : State → Prop
  | refl : Later s s
  | land {past : Set Row} {t u : State} {row : Row} : Later s t → f.Folded past t →
      f.land t row u → Later s u
  | left {past past' : Set Row} {t u v : State} : Later s t → f.Folded past t →
      f.Folded past' u → f.merge t u v → Later s v
  | right {past past' : Set Row} {t u v : State} : Later s t → f.Folded past t →
      f.Folded past' u → f.merge u t v → Later s v

variable {f} {past : Set Row} {s t : State}

/-- **The invariant rule**: what holds at the start and is kept by landing and merging holds of
every folded state. -/
theorem Folded.invariant (Inv : Set Row → State → Prop) (hstart : Inv ∅ f.start)
    (hland : ∀ {past s row t}, Inv past s → (∀ r ∈ past, f.before r row) → f.land s row t →
      Inv (insert row past) t)
    (hmerge : ∀ {past past' s t u}, Inv past s → Inv past' t → f.merge s t u →
      Inv (past ∪ past') u)
    (h : f.Folded past s) : Inv past s := by
  induction h with
  | start => exact hstart
  | land _ hpast h ih => exact hland ih hpast h
  | merge _ _ h ih ih' => exact hmerge ih ih' h

/-- A fold of few merges is a fold. -/
theorem Folded.free {allowed : State → State → Prop} (h : (f.restrict allowed).Folded past s) :
    f.Folded past s := by
  induction h with
  | start => exact .start
  | land _ hpast h ih => exact .land ih hpast h
  | merge _ _ h ih ih' => exact .merge ih ih' h.1

/-- **The ancestry rule**: what leads across every landing and every merge leads to every later
state. -/
theorem Later.leads (Leads : State → State → Prop) (hrefl : ∀ {s}, Leads s s)
    (htrans : ∀ {s t u}, Leads s t → Leads t u → Leads s u)
    (hland : ∀ {past s row t}, f.Folded past s → f.land s row t → Leads s t)
    (hmerge : ∀ {past past' s t u}, f.Folded past s → f.Folded past' t → f.merge s t u →
      Leads s u ∧ Leads t u)
    (h : f.Later s t) : Leads s t := by
  induction h with
  | refl => exact hrefl
  | land _ ht h ih => exact htrans ih (hland ht h)
  | left _ ht hu h ih => exact htrans ih (hmerge ht hu h).1
  | right _ ht hu h ih => exact htrans ih (hmerge hu ht h).2

end Forking

end Oneiron
