import Oneiron.Contracts.Bytes
import Oneiron.Foundations.Rounds

/-!
# Sync/Turns — the order one pass serves retained work in

Whoever waits past a deadline is expired; the rest that can run is served one item per caller a
round, each caller's oldest first, the first round starting after the caller the last pass left off
at.  A pass serves as much of that as its limit lets it, and files the caller it served last.
-/

open Std

namespace Oneiron

open List

variable {T : Type}

/-- One retained item as the schedule sees it. -/
structure Waiting (T : Type) where
  /-- Whose turn serves it. -/
  caller : Bytes
  /-- A store clock id, so later arrivals sort after. -/
  arrival : Bytes
  deadline : ℕ
  ready : Bool
  item : T

/-- The order one pass serves retained work in, and the items whose wait has ended. -/
structure Turns (T : Type) where
  due : List (Bytes × T)
  expired : List T

/-- The callers' queues as items are sorted out. -/
abbrev Callers (T : Type) := OrderedMap Bytes (List (Bytes × T))

/-- `callers.entry(waiting.caller).or_default().push(..)`. -/
def Callers.push (callers : Callers T) (w : Waiting T) : Callers T :=
  callers.insert w.caller (callers[w.caller]?.getD [] ++ [(w.arrival, w.item)])

/-- One item sorted out: past its deadline, else ready and under its caller, else left. -/
def sortOut (now : ℕ) (acc : Callers T × List T) (w : Waiting T) : Callers T × List T :=
  if w.deadline ≤ now then (acc.1, acc.2 ++ [w.item])
  else if w.ready then (acc.1.push w, acc.2)
  else acc

/-- A caller's items, oldest first. -/
def oldestFirst (items : List (Bytes × T)) : List T :=
  (items.mergeSort fun left right => (compare left.1 right.1).isLE).map Prod.snd

/-- Where the first round starts: at the least caller above the cursor, else at the least. -/
def startAt (queues : List (Bytes × List T)) : Option Bytes → ℕ
  | none => 0
  | some after => (queues.findIdx? fun q => compare after q.1 = .lt).getD 0

/-- `schedule::turns`. -/
def turns (items : List (Waiting T)) (after : Option Bytes) (now : ℕ) : Turns T :=
  let (callers, expired) := items.foldl (sortOut now) (∅, [])
  let queues := callers.toList.map fun entry => (entry.1, oldestFirst entry.2)
  ⟨rounds (queues.rotate (startAt queues after)), expired⟩

/-! ## Passes -/

/-- One pass: what waits as it reads, when, and how much of what is due it serves. -/
structure Pass (T : Type) where
  items : List (Waiting T)
  now : ℕ
  landed : ℕ

namespace Pass

variable (p : Pass T) (after : Option Bytes)

/-- What the pass serves, with the caller of each. -/
def served : List (Bytes × T) := (turns p.items after p.now).due.take p.landed

/-- The cursor the pass leaves: the caller it served last, or the old one when it served none. -/
def cursor : Option Bytes := ((p.served after).getLast?.map Prod.fst).or after

/-- The servings of the pass, each with the callers who had an item due as it was made. -/
def servings : List (Serving Bytes) :=
  (Oneiron.servings ((turns p.items after p.now).due.map Prod.fst)).take p.landed

end Pass

/-- The servings of passes that each start from the cursor the one before left. -/
def serve : Option Bytes → List (Pass T) → List (Serving Bytes)
  | _, [] => []
  | after, p :: passes => p.servings after ++ serve (p.cursor after) passes

/-! ## Sorting out -/

/-- Whether an item is due: its wait has not ended, and it can run. -/
def Waiting.isDue (now : ℕ) (w : Waiting T) : Bool := now < w.deadline && w.ready

theorem foldl_sortOut (now : ℕ) : ∀ (items : List (Waiting T)) (callers : Callers T)
    (expired : List T), items.foldl (sortOut now) (callers, expired) =
      ((items.filter (Waiting.isDue now)).foldl Callers.push callers,
        expired ++ (items.filter (·.deadline ≤ now)).map Waiting.item)
  | [], callers, expired => by simp
  | w :: items, callers, expired => by
    rw [foldl_cons, sortOut]
    split
    · next hpast =>
      have hnot : w.isDue now = false := by simp [Waiting.isDue, hpast]
      rw [foldl_sortOut, filter_cons_of_neg (by simp [hnot]),
        filter_cons_of_pos (by simpa using hpast), map_cons, append_assoc]
      rfl
    · next hwaits =>
      rw [filter_cons_of_neg (p := fun w : Waiting T => decide (w.deadline ≤ now))
        (by simpa using hwaits)]
      split
      · next hready =>
        have hdue : w.isDue now := by simp [Waiting.isDue, hready]; omega
        rw [foldl_sortOut, filter_cons_of_pos hdue, foldl_cons]
      · next hready =>
        have hnot : w.isDue now = false := by simp [Waiting.isDue, hready]
        rw [foldl_sortOut, filter_cons_of_neg (by simp [hnot])]

/-- A caller's queue is its own items, as they were sorted out. -/
theorem getD_foldl_push (c : Bytes) : ∀ (ws : List (Waiting T)) (callers : Callers T),
    (ws.foldl Callers.push callers)[c]?.getD [] =
      callers[c]?.getD [] ++ (ws.filter (·.caller = c)).map fun w => (w.arrival, w.item)
  | [], callers => by simp
  | w :: ws, callers => by
    rw [foldl_cons, getD_foldl_push c ws, Callers.push, ExtTreeMap.getElem?_insert]
    by_cases hc : w.caller = c
    · subst hc
      simp
    · simp [hc]

theorem mem_foldl_push (c : Bytes) : ∀ (ws : List (Waiting T)) (callers : Callers T),
    c ∈ ws.foldl Callers.push callers ↔ c ∈ callers ∨ ∃ w ∈ ws, w.caller = c
  | [], callers => by simp
  | w :: ws, callers => by
    rw [foldl_cons, mem_foldl_push c ws, Callers.push, ExtTreeMap.mem_insert,
      Std.compare_eq_iff_eq, exists_mem_cons_iff]
    tauto

end Oneiron
