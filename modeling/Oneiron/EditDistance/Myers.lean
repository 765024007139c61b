import Mathlib.Algebra.Group.Int.Defs
import Mathlib.Algebra.Group.Nat.Defs

/-!
# EditDistance/Myers — the shortest edit script, by the greedy walk

One frontier holds how far each diagonal has come; a step of `d` edits extends every other diagonal
and leaves the rest as the step before left them.  The frontier as each step found it is packed into a
trace, which the way back from the corner is read off.  Everything is `i32` and indexed as such: no
value is a panic, on an overflow or an index out of bounds.
-/

namespace Oneiron

/-- `MAX_EDIT_SCRIPT`. -/
def maxEditScript : ℕ := 1024

namespace Myers

/-- An `i32` result, unless it overflows. -/
def i32 (x : ℤ) : Option ℤ := if -2 ^ 31 ≤ x ∧ x < 2 ^ 31 then some x else none

/-- An `i32` as a `usize`. -/
def asUsize (x : ℤ) : ℕ := (x % 2 ^ 64).toNat

/-- Indexing by an `i32`. -/
def cell {α : Type} (cells : List α) (i : ℤ) : Option α := cells[asUsize i]?

/-- `cells[i] = x`. -/
def store (cells : List ℤ) (i x : ℤ) : Option (List ℤ) :=
  if asUsize i < cells.length then some (cells.set (asUsize i) x) else none

/-- `&cells[start..stop]`. -/
def slice (cells : List ℤ) (start stop : ℕ) : Option (List ℤ) :=
  if start ≤ stop ∧ stop ≤ cells.length then some ((cells.take stop).drop start) else none

/-- Whether the greedy rule comes down from diagonal `k + 1`, not along from `k - 1`. -/
def comesDown (at_ : ℤ → Option ℤ) (d k : ℤ) : Option Bool :=
  if k = -d then some true
  else if k = d then some false
  else do
    let along ← at_ (k - 1)
    let down ← at_ (k + 1)
    pure (along < down)

/-- Steps along a diagonal while it matches. -/
def slide (before after : List UInt32) (x y : ℤ) : Option (ℤ × ℤ) :=
  if _h : x < before.length ∧ y < after.length then do
    let left ← cell before x
    let right ← cell after y
    if left = right then slide before after (x + 1) (y + 1) else some (x, y)
  else some (x, y)
termination_by (before.length - x).toNat

/-- Where the greedy rule comes onto diagonal `k`. -/
def opening (offset d k : ℤ) (frontier : List ℤ) : Option ℤ := do
  if ← comesDown (fun k => cell frontier (offset + k)) d k then cell frontier (offset + k + 1)
  else i32 ((← cell frontier (offset + k - 1)) + 1)

/-- The diagonals of step `d` from `k` on: the frontier, and whether the corner was reached. -/
def diagonals (before after : List UInt32) (offset d k : ℤ) (frontier : List ℤ) :
    Option (List ℤ × Bool) :=
  if _h : k ≤ d then do
    let x ← opening offset d k frontier
    let y ← i32 (x - k)
    let (x, y) ← slide before after x y
    let frontier ← store frontier (offset + k) x
    if before.length ≤ x ∧ after.length ≤ y then some (frontier, true)
    else diagonals before after offset d (k + 2) frontier
  else some (frontier, false)
termination_by (d + 1 - k).toNat

/-- Where diagonal `k` at step `d` came from. -/
def predecessor (trace : List ℤ) (d : ℕ) (k : ℤ) : Option (ℤ × ℤ) := do
  let row ← slice trace (d * d) (d * d + (2 * d + 1))
  let at_ (diagonal : ℤ) := cell row (diagonal + d)
  let prevK := if ← comesDown at_ d k then k + 1 else k - 1
  let prevX ← at_ prevK
  pure (prevX, prevX - prevK)

/-- Steps back along a diagonal, pushing every match. -/
def unslide (prevX prevY x y : ℤ) (found : List (ℕ × ℕ)) : List (ℕ × ℕ) :=
  if _h : prevX < x ∧ prevY < y then
    unslide prevX prevY (x - 1) (y - 1) (found ++ [(asUsize (x - 1), asUsize (y - 1))])
  else found
termination_by (x - prevX).toNat

/-- The steps back from step `d` on. -/
def backtrackFrom (trace : List ℤ) : ℕ → ℤ → ℤ → List (ℕ × ℕ) → Option (List (ℕ × ℕ))
  | 0, x, y, found => some (unslide 0 0 x y found)
  | d + 1, x, y, found => do
    let (prevX, prevY) ← predecessor trace (d + 1) (x - y)
    backtrackFrom trace d prevX prevY (unslide prevX prevY x y found)

def backtrack (trace : List ℤ) (depth : ℕ) (stop : ℤ × ℤ) : Option (List (ℕ × ℕ)) :=
  List.reverse <$> backtrackFrom trace depth stop.1 stop.2 []

/-- The steps from `d` on, as many as are left. -/
def steps (before after : List UInt32) (maxD : ℕ) : (left d : ℕ) → (frontier trace : List ℤ) →
    Option (Option (List (ℕ × ℕ)))
  | 0, _, _, _ => some none
  | left + 1, d, frontier, trace => do
    let row ← slice frontier (maxD + 1 - d) (maxD + 1 + d + 1)
    let trace := trace ++ row
    let (frontier, reached) ← diagonals before after (maxD + 1) d (-d) frontier
    if reached then some <$> backtrack trace d (before.length, after.length)
    else steps before after maxD left (d + 1) frontier trace

end Myers

open Myers

/-- `shortest_edit_script`: the matched positions in text order, or nothing past `MAX_EDIT_SCRIPT`. -/
def shortestEditScript (before after : List UInt32) : Option (Option (List (ℕ × ℕ))) :=
  if before.length < 2 ^ 31 ∧ after.length < 2 ^ 31 then
    let maxD := min maxEditScript (before.length + after.length)
    steps before after maxD (maxD + 1) 0 (List.replicate (2 * maxD + 3) 0) []
  else some none

end Oneiron
