import Mathlib.Algebra.GroupWithZero.Nat
import Mathlib.Data.List.Count
import Oneiron.Foundations.FairLine

/-!
# Base/WorkLine — a fair line for work that waits its turn

    enter --room--▸ permit
      └--none--▸ place in line --granted--▸ settle --▸ permit
                      └--out of time, caller gone--▸ settle --▸ out of the line

A permit dropped passes to the next waiter as it is, without being counted back in.  What is counted
is `held`, and `LineSafe` says what it counts: the live permits, and the permits handed to waiters
who have not come for them yet.
-/

namespace Oneiron

variable {K : Type} [DecidableEq K]

/-- The queue of a line, under its lock. -/
structure WorkQueue (K : Type) where
  held : ℕ
  line : FairLine K ℕ
  /-- The host's own work, served only when no caller waits. -/
  background : List ℕ
  /-- Whether the crossing in progress was said. -/
  asked : Bool
  /-- The largest bundle that found too little room since room for it last came back. -/
  unmet : ℕ
  epoch : ℕ

namespace WorkQueue

variable (queue : WorkQueue K)

omit [DecidableEq K] in
def new : WorkQueue K := ⟨0, .empty, [], false, 0, 0⟩

/-- The waiters of a key, oldest first; `none` is the host's own work. -/
def lineOf : Option K → List ℕ
  | some key => queue.line.waiting key
  | none => queue.background

def waiters : ℕ :=
  (queue.line.turns.map fun key => (queue.line.waiting key).length).sum + queue.background.length

/-- The epoch of a crossing that begins, and the work it observes. -/
def beginCrossing (asking : ℕ) : Option (ℕ × ℕ) × WorkQueue K :=
  if queue.asked then (none, queue)
  else (some (queue.epoch + 1, queue.held + queue.waiters + asking),
    { queue with asked := true, epoch := queue.epoch + 1 })

/-- The epoch of the crossing that ends, once nobody waits and no bundle is short. -/
def endSettledCrossing : Option ℕ × WorkQueue K :=
  if queue.waiters > 0 ∨ queue.unmet > 0 then (none, queue)
  else (if queue.asked then some queue.epoch else none, { queue with asked := false })

def roomReturned (bound : ℕ) : WorkQueue K :=
  if bound - queue.held ≥ min queue.unmet bound then { queue with unmet := 0 } else queue

/-- The next waiter whose turn it is: the oldest of the next key, then the host's own work. -/
def next : Option (Option K × ℕ) × WorkQueue K :=
  if queue.line.turns.isEmpty then
    match queue.background with
    | [] => (none, queue)
    | w :: background => (some (none, w), { queue with background })
  else
    let (served, line) := queue.line.serve
    (served.map fun (key, w) => (some key, w), { queue with line })

/-- A waiter joins the line of its key. -/
def push (key : Option K) (w : ℕ) : WorkQueue K :=
  match key with
  | some key => { queue with line := queue.line.enqueue key w }
  | none => { queue with background := queue.background ++ [w] }

/-- A waiter gives up its place. -/
def remove (key : Option K) (w : ℕ) : WorkQueue K :=
  match key with
  | some key => { queue with line := queue.line.leave key w }
  | none => { queue with background := queue.background.filter (· ≠ w) }

end WorkQueue

/-- A line, its callers' unsettled places, and the permits in their hands. -/
structure WorkLine (K : Type) where
  queue : WorkQueue K
  bound : ℕ
  /-- The waiters whose `granted` flag is set. -/
  granted : List ℕ
  /-- The places not yet settled: each a waiter and its key. -/
  places : List (ℕ × Option K)
  permits : ℕ
  nextWaiter : ℕ

/-- What one call on a line gives out and says. -/
structure LineOutcome (K : Type) where
  /-- Permits given at once. -/
  admitted : List (Option K) := []
  /-- Permits handed to waiters, in order. -/
  handed : List (Option K × ℕ) := []
  crossed : Option (ℕ × ℕ) := none
  drained : Option ℕ := none

/-- The keys of all permits a call gives out, in order. -/
def LineOutcome.grants (outcome : LineOutcome K) : List (Option K) :=
  outcome.admitted ++ outcome.handed.map Prod.fst

namespace WorkLine

variable (line : WorkLine K)

omit [DecidableEq K] in
def new (bound : ℕ) : WorkLine K := ⟨.new, max bound 1, [], [], 0, 0⟩

/-- The permits handed to waiters whose places are not settled. -/
def unsettled : ℕ := line.places.countP (·.1 ∈ line.granted)

/-- Takes a free permit, or puts the work in line. -/
def enter (key : Option K) : LineOutcome K × WorkLine K :=
  if line.queue.held < line.bound then
    ({ admitted := [key] }, { line with
      queue := { line.queue with held := line.queue.held + 1 }
      permits := line.permits + 1 })
  else
    let (crossed, queue) := (line.queue.push key line.nextWaiter).beginCrossing 0
    ({ crossed }, { line with
      queue
      places := line.places ++ [(line.nextWaiter, key)]
      nextWaiter := line.nextWaiter + 1 })

/-- Takes the permit that was handed over, or leaves the line. -/
def settle (place : ℕ × Option K) : LineOutcome K × WorkLine K :=
  let places := line.places.erase place
  if place.1 ∈ line.granted then ({}, { line with places, permits := line.permits + 1 })
  else
    let (drained, queue) := (line.queue.remove place.2 place.1).endSettledCrossing
    ({ drained }, { line with queue, places })

/-- `next` with `grant`: the next waiter is handed a permit. -/
def handOver : Option (Option K × ℕ) × WorkLine K :=
  match line.queue.next with
  | (none, queue) => (none, { line with queue })
  | (some (key, w), queue) => (some (key, w), { line with queue, granted := w :: line.granted })

/-- A permit dropped: back over a lowered bound, else on to the next waiter. -/
def release : LineOutcome K × WorkLine K :=
  let line := { line with permits := line.permits - 1 }
  if line.queue.held > line.bound then
    ({}, { line with queue := { line.queue with held := line.queue.held - 1 } })
  else
    let (handed, line) := match line.handOver with
      | (some served, line) => ([served], line)
      | (none, line) => ([], { line with
          queue := { line.queue with held := line.queue.held - 1 }.roomReturned line.bound })
    let (drained, queue) := line.queue.endSettledCrossing
    ({ handed, drained }, { line with queue })

/-- Hands a free permit to the next waiter, `room` times at most. -/
def grantFree : (room : ℕ) → WorkLine K → List (Option K × ℕ) × WorkLine K
  | 0, line => ([], line)
  | room + 1, line =>
    match line.handOver with
    | (none, line) => ([], line)
    | (some served, line) =>
      let (handed, line) := grantFree room
        { line with queue := { line.queue with held := line.queue.held + 1 } }
      (served :: handed, line)

/-- A raised bound lets waiters in at once; a lowered one takes hold as held work ends. -/
def configure (bound : ℕ) : LineOutcome K × WorkLine K :=
  let bound := max bound 1
  let (handed, line) := grantFree (bound - line.queue.held) { line with bound }
  let (drained, queue) := (line.queue.roomReturned bound).endSettledCrossing
  ({ handed, drained }, { line with queue })

/-- A free permit for the host's own work, or nothing. -/
def tryAdmitBackground : LineOutcome K × WorkLine K :=
  if line.queue.held ≥ line.bound then ({}, line)
  else
    ({ admitted := [none] }, { line with
      queue := { line.queue with held := line.queue.held + 1 }
      permits := line.permits + 1 })

/-- That many free permits at once for the host's own work, all or none. -/
def tryAdmitBackgroundBundle (permits : ℕ) : LineOutcome K × WorkLine K :=
  if permits ≤ line.bound - line.queue.held then
    ({ admitted := List.replicate permits none }, { line with
      queue := { line.queue with held := line.queue.held + permits }
      permits := line.permits + permits })
  else
    let (crossed, queue) :=
      { line.queue with unmet := max line.queue.unmet permits }.beginCrossing permits
    ({ crossed }, { line with queue })

end WorkLine

/-! ## Runs -/

inductive LineOp (K : Type) where
  | enter (key : Option K)
  /-- On a grant, at the deadline, or as the caller goes away. -/
  | settle (place : ℕ × Option K)
  /-- A permit dropped. -/
  | release
  | configure (bound : ℕ)
  | tryAdmitBackground
  | tryAdmitBackgroundBundle (permits : ℕ)

/-- A place is settled once, a permit dropped once. -/
def WorkLine.call (line : WorkLine K) : LineOp K → Option (LineOutcome K × WorkLine K)
  | .enter key => some (line.enter key)
  | .settle place => if place ∈ line.places then some (line.settle place) else none
  | .release => if line.permits = 0 then none else some line.release
  | .configure bound => some (line.configure bound)
  | .tryAdmitBackground => some line.tryAdmitBackground
  | .tryAdmitBackgroundBundle permits => some (line.tryAdmitBackgroundBundle permits)

/-- A new line under every sequence of calls, each with its outcome. -/
def workLines (K : Type) [DecidableEq K] : System (WorkLine K) (LineOp K × LineOutcome K) where
  init line := ∃ bound, line = .new bound
  step line called next := line.call called.1 = some (called.2, next)

end Oneiron
