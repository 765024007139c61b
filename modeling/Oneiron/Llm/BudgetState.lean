import Oneiron.Contracts.EntityId
import Oneiron.Foundations.Saturating

/-!
# Llm/BudgetState — one budget meter: its counters, its rows' tallies, its leases

    plan --admit--▸ commit --▸ open lease --▸ release --▸ charge
      reserve = floor₁ + … + floorₙ + shared          the same split is given back

A reservation draws the matched rows' floors in order and the rest from the shared slice.  A charge
draws them again, from what is left then, so it need not split as the reservation did.
-/

namespace Oneiron

/-! ## The resolved rows of one budget meter, and what it says as it depletes

    floor   a reservation only matching calls draw from
    cap     the most that matching calls may spend

A call may match several rows.  The rows carry no spend: a meter keeps a tally beside each.
-/

inductive CallPurpose where
  | extraction | consolidation | answerGen | autoCheck | toolRouting | voice | eval
  | autonomyForHuman | autonomyOwnTime
  | other (name : String)
  deriving DecidableEq

inductive ModelLocality where
  | onDevice | ownServer | thirdParty
  deriving DecidableEq

/-- The one call set a policy row selects. -/
inductive BudgetPolicySelector where
  | purpose (purpose : CallPurpose)
  | actor (actor : EntityId)
  deriving DecidableEq

/-- A call without a purpose matches actor rows only. -/
def BudgetPolicySelector.matches (selector : BudgetPolicySelector) (purpose : Option CallPurpose)
    (actor : Option EntityId) : Bool :=
  match selector with
  | .purpose row => purpose = some row
  | .actor row => actor = some row

/-- One row: a selector, with a floor, a cap, or both. -/
structure BudgetPolicyRow where
  selector : BudgetPolicySelector
  floorUnits : Option U64
  capUnits : Option U64
  deriving DecidableEq

abbrev BudgetPolicyTable := List BudgetPolicyRow

inductive BudgetExhaustionPolicy where
  | suspend
  | continueOnLocal
  | overdraft (cap : U64)
  deriving DecidableEq

/-- What a line of that limit admits up to. -/
def BudgetExhaustionPolicy.admissionCap (policy : BudgetExhaustionPolicy) (limit : U64) : U64 :=
  match policy with
  | .suspend | .continueOnLocal => limit
  | .overdraft cap => limit.satAdd cap

/-- The sum of every floor. -/
def BudgetPolicyTable.totalFloorUnits (policy : BudgetPolicyTable) : U64 :=
  (policy.filterMap (·.floorUnits)).foldl U64.satAdd 0

/-- The sum of the floors under one selector. -/
def BudgetPolicyTable.selectorFloorUnits (policy : BudgetPolicyTable)
    (selector : BudgetPolicySelector) : U64 :=
  ((policy.filter (·.selector = selector)).filterMap (·.floorUnits)).foldl U64.satAdd 0

/-- Each row's ladder horizon: its cap, bounded by the limit less every floor it cannot lease. -/
def BudgetPolicyTable.rowHorizons (policy : BudgetPolicyTable) (limit totalFloor : U64) :
    List U64 :=
  policy.map fun row =>
    let inaccessible := totalFloor.satSub (policy.selectorFloorUnits row.selector)
    (row.capUnits.getD ⟨U64.top, Nat.le_refl _⟩).min (limit.satSub inaccessible)

/-! ## The ladder -/

inductive BudgetThreshold where
  | silent50 | plan80 | land95
  deriving DecidableEq

/-- The order a ladder is climbed in. -/
def BudgetThreshold.all : List BudgetThreshold := [.silent50, .plan80, .land95]

def BudgetThreshold.percent : BudgetThreshold → ℕ
  | .silent50 => 50
  | .plan80 => 80
  | .land95 => 95

def BudgetThreshold.templateId : BudgetThreshold → Option String
  | .silent50 => none
  | .plan80 => some "budget.plan.80"
  | .land95 => some "budget.land.95"

inductive BudgetSignalDeliveryChannel where
  | steeringQueueNextTurn
  deriving DecidableEq

structure BudgetSteeringSignal where
  threshold : BudgetThreshold
  channel : BudgetSignalDeliveryChannel
  templateId : String
  message : String
  deriving DecidableEq

def budgetPlanPromptTemplate : String :=
  "Budget is at or above 80%. Re-rank the remaining work by value, keep quality " ++
  "honest, and make a compact PLAN for what still deserves compute."

def budgetLandPromptTemplate : String :=
  "Budget is at or above 95%. Enter LAND: start no new work, write durable " ++
  "checkpoints, and list unfinished work as cold-resumable TODOs. An " ++
  "incomplete-but-honest checkpoint is a successful landing."

/-- The first threshold is silent. -/
def steeringSignal (threshold : BudgetThreshold) : Option BudgetSteeringSignal :=
  threshold.templateId.bind fun templateId =>
    match threshold with
    | .silent50 => none
    | .plan80 => some ⟨threshold, .steeringQueueNextTurn, templateId, budgetPlanPromptTemplate⟩
    | .land95 => some ⟨threshold, .steeringQueueNextTurn, templateId, budgetLandPromptTemplate⟩

structure BudgetLadderEvent where
  threshold : BudgetThreshold
  steering : Option BudgetSteeringSignal
  /-- The row whose ladder fired; `none` is the meter's own. -/
  rowIndex : Option ℕ
  deriving DecidableEq

/-- How much of a limit is used, in percent, at most 100. -/
def percentUsed (used limit : U64) : ℕ :=
  if limit = 0 then 100 else min (used.val * 100 / limit.val) 100

/-- Fires each threshold reached for the first time. -/
def fireThresholds (percent : ℕ) :
    List BudgetThreshold → Finset BudgetThreshold → List BudgetThreshold × Finset BudgetThreshold
  | [], fired => ([], fired)
  | threshold :: rest, fired =>
    if percent < threshold.percent ∨ threshold ∈ fired then fireThresholds percent rest fired
    else
      let (crossed, fired) := fireThresholds percent rest (insert threshold fired)
      (threshold :: crossed, fired)

section State

/-- Per-row bookkeeping.  The first pair carries the full charge of every matching call; the floor
pair, how much of it the row's own floor protects. -/
structure BudgetRowTally where
  usedUnits : U64 := 0
  reservedUnits : U64 := 0
  floorUsedUnits : U64 := 0
  floorReservedUnits : U64 := 0
  firedThresholds : Finset BudgetThreshold := ∅
  deriving DecidableEq

/-- How much of one lease is protected by one matched row's floor. -/
structure FloorAllocation where
  rowIndex : ℕ
  units : U64
  deriving DecidableEq

/-- The split one admission would take. -/
structure ReserveAllocation where
  matchedRows : List ℕ := []
  floorAllocations : List FloorAllocation := []
  sharedUnits : U64 := 0
  deriving DecidableEq

inductive ReservePlan where
  | admitted (allocation : ReserveAllocation)
  | deniedByCap
  | deniedByCapacity
  deriving DecidableEq

/-- What one bound admission grants its lease for. -/
structure DispatchBinding where
  subject : String
  route : String
  locality : ModelLocality
  offer : String
  requestDigest : Option String
  deriving DecidableEq

inductive LeaseState where
  | opened
  | settled (absoluteUsedUnits : U64)
  | aborted
  deriving DecidableEq

structure LeaseRecord where
  reserveUnits : U64
  metered : Bool
  state : LeaseState
  matchedRows : List ℕ
  floorAllocations : List FloorAllocation
  sharedReservedUnits : U64
  binding : Option DispatchBinding
  /-- Bytes may have left under this lease. -/
  dispatched : Bool
  deriving DecidableEq

/-- A lease in a caller's hands.  Its text is the attempt, the kind and the seq; a meter's leases
share the attempt, and the kind is its record's, so the seq names it. -/
structure BudgetLease where
  seq : ℕ
  /-- The allocation identity of the guard that issued it. -/
  guardIdentity : ℕ
  deriving DecidableEq

structure BudgetState where
  guardIdentity : ℕ
  attemptId : String
  limitUnits : U64
  reserveUnits : U64
  onBudgetExhausted : BudgetExhaustionPolicy
  usedUnits : U64
  reservedUnits : U64
  /-- The leases issued so far: fewer than `2 ^ 64`, where the code's `u64` would stop. -/
  nextLeaseSeq : ℕ
  firedThresholds : Finset BudgetThreshold
  leases : OrderedMap ℕ LeaseRecord
  actor : Option EntityId
  policy : BudgetPolicyTable
  rowTallies : List BudgetRowTally
  totalFloorUnits : U64
  rowHorizons : List U64
  sharedUsedUnits : U64
  sharedReservedUnits : U64

structure BudgetRead where
  attemptId : String
  limitUnits : U64
  capUnits : U64
  usedUnits : U64
  reservedUnits : U64
  remainingUnits : U64
  onBudgetExhausted : BudgetExhaustionPolicy
  firedThresholds : List BudgetThreshold
  deriving DecidableEq

/-- Whether three amounts sum past a cap, summed wide. -/
def exceeds (a b c cap : U64) : Bool := a.val + b.val + c.val > cap.val

/-- Draws matched floors in order; the remainder is left for the shared slice. -/
def allocateFloors (policy : BudgetPolicyTable) (tallies : List BudgetRowTally) :
    List ℕ → U64 → List FloorAllocation × U64
  | [], remaining => ([], remaining)
  | row :: rows, remaining =>
    if remaining = 0 then ([], remaining)
    else
      match policy[row]?.bind (·.floorUnits), tallies[row]? with
      | some floor, some tally =>
        let committed := tally.floorUsedUnits.satAdd tally.floorReservedUnits
        let units := remaining.min (floor.satSub committed)
        if units = 0 then allocateFloors policy tallies rows remaining
        else
          let (allocations, remaining) :=
            allocateFloors policy tallies rows (remaining.satSub units)
          (⟨row, units⟩ :: allocations, remaining)
      | _, _ => allocateFloors policy tallies rows remaining

/-- Books spend on matched floors in order; the remainder is the shared slice's. -/
def drawFloors (policy : BudgetPolicyTable) :
    List ℕ → U64 → List BudgetRowTally → List BudgetRowTally × U64
  | [], remaining, tallies => (tallies, remaining)
  | row :: rows, remaining, tallies =>
    if remaining = 0 then (tallies, remaining)
    else
      match policy[row]?.bind (·.floorUnits) with
      | none => drawFloors policy rows remaining tallies
      | some floor =>
        let committed :=
          tallies[row]?.elim 0 fun tally => tally.floorUsedUnits.satAdd tally.floorReservedUnits
        let units := remaining.min (floor.satSub committed)
        if units = 0 then drawFloors policy rows remaining tallies
        else drawFloors policy rows (remaining.satSub units)
          (tallies.modify row fun tally =>
            { tally with floorUsedUnits := tally.floorUsedUnits.satAdd units })

namespace BudgetState

def new (guardIdentity : ℕ) (attemptId : String) (limitUnits reserveUnits : U64)
    (onBudgetExhausted : BudgetExhaustionPolicy) (actor : Option EntityId)
    (policy : BudgetPolicyTable) : BudgetState where
  guardIdentity := guardIdentity
  attemptId := attemptId
  limitUnits := limitUnits
  reserveUnits := reserveUnits
  onBudgetExhausted := onBudgetExhausted
  usedUnits := 0
  reservedUnits := 0
  nextLeaseSeq := 0
  firedThresholds := ∅
  leases := ∅
  actor := actor
  policy := policy
  rowTallies := List.replicate policy.length {}
  totalFloorUnits := policy.totalFloorUnits
  rowHorizons := policy.rowHorizons limitUnits policy.totalFloorUnits
  sharedUsedUnits := 0
  sharedReservedUnits := 0

variable (state : BudgetState)

/-- Moves the line's limit and per-call reservation. -/
def reviseLine (limitUnits reserveUnits : U64) : BudgetState :=
  { state with
    limitUnits, reserveUnits
    rowHorizons := state.policy.rowHorizons limitUnits state.totalFloorUnits }

def capUnits : U64 := state.onBudgetExhausted.admissionCap state.limitUnits

def read : BudgetRead where
  attemptId := state.attemptId
  limitUnits := state.limitUnits
  capUnits := state.capUnits
  usedUnits := state.usedUnits
  reservedUnits := state.reservedUnits
  remainingUnits := state.capUnits.satSub (state.usedUnits.satAdd state.reservedUnits)
  onBudgetExhausted := state.onBudgetExhausted
  firedThresholds := BudgetThreshold.all.filter (· ∈ state.firedThresholds)

/-! ## Planning -/

def globalDenies (reserve : U64) : Bool :=
  exceeds state.usedUnits state.reservedUnits reserve state.capUnits

/-- The rows whose selector matches this call, in order. -/
def matchedRows (purpose : Option CallPurpose) : List ℕ :=
  (List.range state.policy.length).filter fun row =>
    state.policy[row]?.any (·.selector.matches purpose state.actor)

/-- A matching call must fit every matched cap. -/
def matchedCapDenies (rows : List ℕ) (reserve : U64) : Bool :=
  rows.any fun row =>
    match state.policy[row]?.bind (·.capUnits), state.rowTallies[row]? with
    | some cap, some tally => exceeds tally.usedUnits tally.reservedUnits reserve cap
    | _, _ => false

/-- What all floors together leave of the limit. -/
def sharedSliceUnits : U64 := state.limitUnits.satSub state.totalFloorUnits

def sharedAdmissionCeiling : U64 :=
  state.sharedSliceUnits.satAdd (state.capUnits.satSub state.limitUnits)

/-- Projects one admission. -/
def planReserve (reserve : U64) (purpose : Option CallPurpose) : ReservePlan :=
  if state.policy.isEmpty then
    -- the plain meter: one pool, no rows
    if state.globalDenies reserve then .deniedByCapacity else .admitted {}
  else
    let matchedRows := state.matchedRows purpose
    if state.matchedCapDenies matchedRows reserve then .deniedByCap
    else
      let (floorAllocations, sharedUnits) :=
        allocateFloors state.policy state.rowTallies matchedRows reserve
      if 0 < sharedUnits.val ∧ exceeds state.sharedUsedUnits state.sharedReservedUnits sharedUnits
          state.sharedAdmissionCeiling then .deniedByCapacity
      else if state.globalDenies reserve then .deniedByCapacity
      else .admitted { matchedRows, floorAllocations, sharedUnits }

/-! ## Bookkeeping -/

def commitReservation (reserve : U64) (allocation : ReserveAllocation) : BudgetState :=
  { state with
    reservedUnits := state.reservedUnits.satAdd reserve
    rowTallies := allocation.floorAllocations.foldl (fun tallies floor =>
        tallies.modify floor.rowIndex fun tally =>
          { tally with floorReservedUnits := tally.floorReservedUnits.satAdd floor.units })
      (allocation.matchedRows.foldl (fun tallies row =>
          tallies.modify row fun tally =>
            { tally with reservedUnits := tally.reservedUnits.satAdd reserve })
        state.rowTallies)
    sharedReservedUnits := state.sharedReservedUnits.satAdd allocation.sharedUnits }

/-- Records a new open lease under the next seq. -/
def issueLease (reserveUnits : U64) (metered : Bool) (allocation : ReserveAllocation)
    (binding : Option DispatchBinding) : BudgetLease × BudgetState :=
  let seq := state.nextLeaseSeq + 1
  (⟨seq, state.guardIdentity⟩, { state with
    nextLeaseSeq := seq
    leases := state.leases.insert seq
      { reserveUnits, metered, binding
        state := .opened
        matchedRows := allocation.matchedRows
        floorAllocations := allocation.floorAllocations
        sharedReservedUnits := allocation.sharedUnits
        dispatched := false } })

/-- Releases every reservation one lease holds. -/
def releaseReservationsForLease (record : LeaseRecord) : BudgetState :=
  { state with
    reservedUnits := state.reservedUnits.satSub record.reserveUnits
    rowTallies := record.floorAllocations.foldl (fun tallies floor =>
        tallies.modify floor.rowIndex fun tally =>
          { tally with floorReservedUnits := tally.floorReservedUnits.satSub floor.units })
      (record.matchedRows.foldl (fun tallies row =>
          tallies.modify row fun tally =>
            { tally with reservedUnits := tally.reservedUnits.satSub record.reserveUnits })
        state.rowTallies)
    sharedReservedUnits := state.sharedReservedUnits.satSub record.sharedReservedUnits }

/-- Adds one metered lease's new spend to every matched row and partition. -/
def applyUsageForLease (record : LeaseRecord) (used : U64) : BudgetState :=
  let charged := record.matchedRows.foldl (fun tallies row =>
      tallies.modify row fun tally => { tally with usedUnits := tally.usedUnits.satAdd used })
    state.rowTallies
  let (rowTallies, remaining) := drawFloors state.policy record.matchedRows used charged
  { state with rowTallies, sharedUsedUnits := state.sharedUsedUnits.satAdd remaining }

/-! ## The ladders -/

def fireGlobalLadderEvents : List BudgetLadderEvent × BudgetState :=
  let metered := state.usedUnits.satAdd state.reservedUnits
  let (crossed, firedThresholds) := fireThresholds (percentUsed metered state.limitUnits)
    BudgetThreshold.all state.firedThresholds
  (crossed.map fun threshold => ⟨threshold, steeringSignal threshold, none⟩,
    { state with firedThresholds })

/-- One row's ladder. -/
def fireRow (row : ℕ) (horizon : U64) (tallies : List BudgetRowTally) :
    List BudgetLadderEvent × List BudgetRowTally :=
  match tallies[row]? with
  | none => ([], tallies)
  | some tally =>
    let metered := tally.usedUnits.satAdd tally.reservedUnits
    let (crossed, firedThresholds) := fireThresholds (percentUsed metered horizon)
      BudgetThreshold.all tally.firedThresholds
    (crossed.map fun threshold => ⟨threshold, steeringSignal threshold, some row⟩,
      tallies.set row { tally with firedThresholds })

def fireRows (horizons : List U64) :
    List ℕ → List BudgetRowTally → List BudgetLadderEvent × List BudgetRowTally
  | [], tallies => ([], tallies)
  | row :: rows, tallies =>
    let (events, tallies) := fireRow row (horizons[row]?.getD 0) tallies
    let (rest, tallies) := fireRows horizons rows tallies
    (events ++ rest, tallies)

/-- The meter's own ladder first, then each row's. -/
def fireLadderEvents : List BudgetLadderEvent × BudgetState :=
  let (events, state) := state.fireGlobalLadderEvents
  let (rows, rowTallies) :=
    fireRows state.rowHorizons (List.range state.policy.length) state.rowTallies
  (events ++ rows, { state with rowTallies })

end BudgetState

end State

end Oneiron
