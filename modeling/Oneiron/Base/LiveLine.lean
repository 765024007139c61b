import Mathlib.Algebra.GroupWithZero.Nat
import Oneiron.Foundations.FairLine

/-!
# Base/LiveLine — live work past its row waits its turn

    enter --room, nobody ahead--▸ permit
      └--else--▸ place in line --granted--▸ settle --▸ permit
                      └--out of time--▸ settle --▸ out of the line

The bound in force is the one the latest opener read, so an open may itself free turns for those
who wait.  A permit dropped goes back, and whoever is next takes it.
-/

namespace Oneiron

variable {K : Type} [DecidableEq K]

/-- The queue of a live row, under its lock. -/
structure LiveQueue (K : Type) where
  held : ℕ
  /-- The bound in force at the latest open. -/
  bound : ℕ
  line : FairLine K ℕ
  /-- Whether the crossing in progress has asked its question. -/
  asked : Bool

/-- Openers waiting for a turn. -/
def LiveQueue.waiters (queue : LiveQueue K) : ℕ :=
  (queue.line.turns.map fun key => (queue.line.waiting key).length).sum

/-- A line, its openers' unsettled places, and the permits in their hands. -/
structure LiveLine (K : Type) where
  queue : LiveQueue K
  /-- The waiters whose `granted` flag is set. -/
  granted : List ℕ
  /-- The places not yet settled: each a waiter and its key. -/
  places : List (ℕ × K)
  permits : ℕ
  nextWaiter : ℕ

/-- What one call on a line gives out, in order, and asks. -/
structure LiveOutcome (K : Type) where
  /-- Turns handed to waiters. -/
  handed : List (K × ℕ) := []
  /-- The turn the opener takes at once. -/
  admitted : Option K := none
  /-- The bound crossed, and the live work held or waiting. -/
  crossed : Option (ℕ × ℕ) := none

/-- The keys of all turns a call gives out, in order. -/
def LiveOutcome.grants (outcome : LiveOutcome K) : List K :=
  outcome.handed.map Prod.fst ++ outcome.admitted.toList

namespace LiveLine

variable (line : LiveLine K)

omit [DecidableEq K] in
def new : LiveLine K := ⟨⟨0, 1, .empty, false⟩, [], [], 0, 0⟩

/-- The turns handed to waiters whose places are not settled. -/
def unsettled : ℕ := line.places.countP (·.1 ∈ line.granted)

/-- The crossing ends once nobody waits. -/
def endCrossing : LiveLine K :=
  { line with queue :=
      { line.queue with asked := line.queue.asked && !line.queue.line.turns.isEmpty } }

/-- Hands a free turn to whoever is next, `room` times at most. -/
def handTurns : (room : ℕ) → LiveLine K → List (K × ℕ) × LiveLine K
  | 0, line => ([], line)
  | room + 1, line =>
    match line.queue.line.serve with
    | (none, served) => ([], { line with queue := { line.queue with line := served } })
    | (some (key, w), served) =>
      let (handed, line) := handTurns room { line with
        queue := { line.queue with held := line.queue.held + 1, line := served }
        granted := w :: line.granted }
      ((key, w) :: handed, line)

/-- Hands free turns to the waiters whose turn it is while the bound leaves room. -/
def grant : List (K × ℕ) × LiveLine K :=
  let (handed, line) := handTurns (line.queue.bound - line.queue.held) line
  (handed, line.endCrossing)

/-- A turn now, or a place in line, under the row's bound. -/
def enter (bound : ℕ) (key : K) : LiveOutcome K × LiveLine K :=
  let bound := max bound 1
  -- a raised bound frees turns for those already waiting first
  let (handed, line) := { line with queue := { line.queue with bound } }.grant
  if line.queue.held < bound ∧ line.queue.line.turns = [] then
    ({ handed, admitted := some key }, { line with
      queue := { line.queue with held := line.queue.held + 1 }
      permits := line.permits + 1 })
  else
    let first := !line.queue.asked
    let queue :=
      { line.queue with line := line.queue.line.enqueue key line.nextWaiter, asked := true }
    ({ handed, crossed := if first then some (bound, queue.held + queue.waiters) else none },
      { line with
        queue
        places := line.places ++ [(line.nextWaiter, key)]
        nextWaiter := line.nextWaiter + 1 })

/-- Takes the turn that was handed over, or leaves the line. -/
def settle (place : ℕ × K) : LiveOutcome K × LiveLine K :=
  let places := line.places.erase place
  if place.1 ∈ line.granted then ({}, { line with places, permits := line.permits + 1 })
  else
    ({}, { line with
      queue := { line.queue with line := line.queue.line.leave place.2 place.1 }
      places }.endCrossing)

/-- A permit dropped goes back, and on to the next waiter. -/
def drop : LiveOutcome K × LiveLine K :=
  let (handed, line) := { line with
    queue := { line.queue with held := line.queue.held - 1 }
    permits := line.permits - 1 }.grant
  ({ handed }, line)

end LiveLine

/-! ## Runs -/

inductive LiveOp (K : Type) where
  | enter (bound : ℕ) (key : K)
  /-- On a grant, or at the deadline. -/
  | settle (place : ℕ × K)
  /-- A permit dropped. -/
  | drop

/-- A place is settled once, a permit dropped once. -/
def LiveLine.call (line : LiveLine K) : LiveOp K → Option (LiveOutcome K × LiveLine K)
  | .enter bound key => some (line.enter bound key)
  | .settle place => if place ∈ line.places then some (line.settle place) else none
  | .drop => if line.permits = 0 then none else some line.drop

/-- A new line under every sequence of calls, each with its outcome. -/
def liveLines (K : Type) [DecidableEq K] : System (LiveLine K) (LiveOp K × LiveOutcome K) where
  init line := line = .new
  step line called next := line.call called.1 = some (called.2, next)

end Oneiron
