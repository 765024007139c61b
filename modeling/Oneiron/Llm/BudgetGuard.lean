import Oneiron.Foundations.Rows
import Oneiron.Foundations.System
import Oneiron.Llm.BudgetState

/-!
# Llm/BudgetGuard — admission, dispatch, settlement and checkpoint of one meter

    admit --▸ open lease --begin_dispatch--▸ started
                  ├--settle--▸ settled          charged once
                  └--abort---▸ aborted          charged its reserve if started

Each call runs under the meter's lock, so a run is a sequence of calls.
-/

namespace Oneiron

open List U64

section Guard

inductive BudgetDenied where
  | exhausted | leaseInvalid | admissionDenied | hostCheck
  deriving DecidableEq

inductive DispatchRefused where
  | foreignLease | closed | unbound | alreadyDispatched
  | subjectMismatch | routeMismatch | offerMismatch | requestMismatch
  deriving DecidableEq

structure BudgetAdmission where
  lease : BudgetLease
  read : BudgetRead
  ladderEvents : List BudgetLadderEvent
  deriving DecidableEq

structure BudgetSettlement where
  read : BudgetRead
  ladderEvents : List BudgetLadderEvent
  deriving DecidableEq

/-- What a request's admission reads of it. -/
structure LlmEnvelope where
  purpose : CallPurpose
  locality : ModelLocality
  hostKeyless : Bool
  hostPaid : Bool
  deriving DecidableEq

/-- The token totals a usage reports. -/
structure LlmUsage where
  input : U64
  output : U64
  deriving DecidableEq

def llmUsageUnits (usage : LlmUsage) : U64 := usage.input.satAdd usage.output

namespace BudgetState

variable (state : BudgetState)

/-! ## Admission -/

/-- Reserves on the paid line, recording what the lease is granted for. -/
def reserveBound (reserve : U64) (purpose : Option CallPurpose) (binding : Option DispatchBinding) :
    Except BudgetDenied BudgetLease × BudgetState :=
  if reserve = 0 then (.error .admissionDenied, state)
  else
    match state.planReserve reserve purpose with
    | .deniedByCap | .deniedByCapacity => (.error .exhausted, state)
    | .admitted allocation =>
      let (lease, state) :=
        (state.commitReservation reserve allocation).issueLease reserve true allocation binding
      (.ok lease, state)

/-- A metered admission: the ladders fire on what it reserved. -/
def meteredAdmission (reserve : U64) (purpose : Option CallPurpose)
    (binding : Option DispatchBinding) : Except BudgetDenied BudgetAdmission × BudgetState :=
  match state.reserveBound reserve purpose binding with
  | (.error denied, state) => (.error denied, state)
  | (.ok lease, state) =>
    let (ladderEvents, state) := state.fireLadderEvents
    (.ok { lease, read := state.read, ladderEvents }, state)

/-- An unmetered admission reserves nothing. -/
def unmeteredAdmission (binding : Option DispatchBinding) :
    Except BudgetDenied BudgetAdmission × BudgetState :=
  let (lease, state) := state.issueLease 0 false {} binding
  (.ok { lease, read := state.read, ladderEvents := [] }, state)

def admitAny := state.meteredAdmission state.reserveUnits none none

def admitLocal := state.unmeteredAdmission none

/-- Work on this device, or keyless on the owner's own server, is free unless attested as paid. -/
def admitForRequest (envelope : LlmEnvelope) :=
  let freeRoute := envelope.locality = .onDevice ∨
    (envelope.hostKeyless ∧ envelope.locality = .ownServer)
  if freeRoute ∧ ¬envelope.hostPaid then state.admitLocal
  else state.meteredAdmission state.reserveUnits (some envelope.purpose) none

def admitPaidForRequest (envelope : LlmEnvelope) :=
  state.meteredAdmission state.reserveUnits (some envelope.purpose) none

def admitReserve (reserve : U64) := state.meteredAdmission reserve none none

def admitFreeWork (binding : DispatchBinding) (keyless : Bool) :
    Except BudgetDenied BudgetAdmission × BudgetState :=
  let free := binding.locality = .onDevice ∨ (keyless ∧ binding.locality = .ownServer)
  if free then state.unmeteredAdmission (some binding) else (.error .admissionDenied, state)

def admitReserveBound (reserve : U64) (binding : DispatchBinding) :=
  state.meteredAdmission reserve none (some binding)

def admitCallBound (reserve : U64) (purpose : CallPurpose) (binding : DispatchBinding) :=
  state.meteredAdmission reserve (some purpose) (some binding)

/-! ## Settlement -/

/-- The answer to a settlement. -/
def settlement : Except BudgetDenied BudgetSettlement × BudgetState :=
  let (ladderEvents, state) := state.fireLadderEvents
  (.ok { read := state.read, ladderEvents }, state)

/-- The record of a lease this meter issued. -/
def leaseRecord (lease : BudgetLease) : Option LeaseRecord :=
  if lease.guardIdentity = state.guardIdentity then state.leases[lease.seq]? else none

/-- Closes an open lease: its reservations are released. -/
def closeLease (lease : BudgetLease) (record : LeaseRecord) (closed : LeaseState) : BudgetState :=
  { state with
    leases := state.leases.insert lease.seq { record with state := closed }
    }.releaseReservationsForLease record

/-- Books the rise of a cumulative reading over the watermark. -/
def chargeAbsolute (record : LeaseRecord) (absoluteUsed : U64) : BudgetState :=
  let increment := absoluteUsed.satSub state.usedUnits
  { state with usedUnits := state.usedUnits.max absoluteUsed }.applyUsageForLease record increment

/-- Books one call's own usage. -/
def chargeUsage (record : LeaseRecord) (callUsed : U64) : BudgetState :=
  { state with usedUnits := state.usedUnits.satAdd callUsed }.applyUsageForLease record callUsed

/-- Settles a cumulative reading, exactly once. -/
def settleAbsolute (lease : BudgetLease) (absoluteUsed : U64) :
    Except BudgetDenied BudgetSettlement × BudgetState :=
  match state.leaseRecord lease with
  | none => (.error .leaseInvalid, state)
  | some record =>
    match record.state with
    | .aborted => (.error .leaseInvalid, state)
    | .settled _ => state.settlement
    | .opened =>
      let closed := state.closeLease lease record (.settled absoluteUsed)
      (if record.metered then closed.chargeAbsolute record absoluteUsed else closed).settlement

/-- Settles one call's actual spend, exactly once. -/
def settleUsage (lease : BudgetLease) (callUsed : U64) :
    Except BudgetDenied BudgetSettlement × BudgetState :=
  let absoluteUsed := state.usedUnits.satAdd callUsed
  match state.leaseRecord lease with
  | none => (.error .leaseInvalid, state)
  | some record =>
    match record.state with
    | .aborted => (.error .leaseInvalid, state)
    | .settled _ => state.settlement
    | .opened =>
      let closed := state.closeLease lease record (.settled absoluteUsed)
      (if record.metered then closed.chargeUsage record callUsed else closed).settlement

def settleTerminal (lease : BudgetLease) (usage : LlmUsage) :=
  state.settleAbsolute lease (llmUsageUnits usage)

def settlePerCall (lease : BudgetLease) (usage : LlmUsage) :=
  state.settleUsage lease (llmUsageUnits usage)

/-- Charges the lease's reserved estimate. -/
def settleReserved (lease : BudgetLease) : Except BudgetDenied BudgetSettlement × BudgetState :=
  match state.leaseRecord lease with
  | none => (.error .leaseInvalid, state)
  | some record => state.settleUsage lease record.reserveUnits

/-- Releases an open lease untouched; one that started is charged its reserve. -/
def abort (lease : BudgetLease) : Except BudgetDenied BudgetSettlement × BudgetState :=
  match state.leaseRecord lease with
  | none => (.error .leaseInvalid, state)
  | some record =>
    if record.dispatched ∧ record.state = .opened then state.settleUsage lease record.reserveUnits
    else
      match record.state with
      | .opened => (state.closeLease lease record .aborted).settlement
      | .aborted => state.settlement
      | .settled _ => (.error .leaseInvalid, state)

/-! ## Dispatch -/

/-- Starts the one call a bound lease was granted for. -/
def beginDispatch (lease : BudgetLease) (call : DispatchBinding) :
    Except DispatchRefused Unit × BudgetState :=
  match state.leaseRecord lease with
  | none => (.error .foreignLease, state)
  | some record =>
    if record.state ≠ .opened then (.error .closed, state)
    else
      match record.binding with
      | none => (.error .unbound, state)
      | some binding =>
        if record.dispatched then (.error .alreadyDispatched, state)
        else if binding.subject ≠ call.subject then (.error .subjectMismatch, state)
        else if binding.route ≠ call.route then (.error .routeMismatch, state)
        else if binding.offer ≠ call.offer ∨ binding.locality ≠ call.locality then
          (.error .offerMismatch, state)
        else if binding.requestDigest ≠ call.requestDigest then (.error .requestMismatch, state)
        else (.ok (), { state with
          leases := state.leases.insert lease.seq { record with dispatched := true } })

/-- Clears a dispatch mark of a call that was never sent. -/
def markUnsent (lease : BudgetLease) : Except BudgetDenied Unit × BudgetState :=
  match state.leaseRecord lease with
  | none => (.error .leaseInvalid, state)
  | some record =>
    if record.state ≠ .opened then (.error .leaseInvalid, state)
    else (.ok (), { state with
      leases := state.leases.insert lease.seq { record with dispatched := false } })

end BudgetState

/-! ## Checkpoint -/

structure CheckpointRow where
  policy : BudgetPolicyRow
  usedUnits : U64
  floorUsedUnits : U64
  firedThresholds : Finset BudgetThreshold
  deriving DecidableEq

/-- The settled meter. -/
structure BudgetCheckpoint where
  attemptId : String
  limitUnits : U64
  reserveUnits : U64
  onBudgetExhausted : BudgetExhaustionPolicy
  actor : Option EntityId
  usedUnits : U64
  sharedUsedUnits : U64
  nextLeaseSeq : ℕ
  firedThresholds : Finset BudgetThreshold
  rows : List CheckpointRow
  deriving DecidableEq

namespace BudgetState

variable (state : BudgetState)

/-- Whether some lease is neither settled nor aborted. -/
def anyOpen : Bool := state.leases.toList.any fun lease => lease.2.state = .opened

/-- Captures the settled meter, once its calls have all closed. -/
def checkpoint : Except BudgetDenied BudgetCheckpoint :=
  if state.anyOpen then .error .leaseInvalid
  else .ok {
    attemptId := state.attemptId
    limitUnits := state.limitUnits
    reserveUnits := state.reserveUnits
    onBudgetExhausted := state.onBudgetExhausted
    actor := state.actor
    usedUnits := state.usedUnits
    sharedUsedUnits := state.sharedUsedUnits
    nextLeaseSeq := state.nextLeaseSeq
    firedThresholds := state.firedThresholds
    rows := List.zipWith (fun policy tally =>
      ⟨policy, tally.usedUnits, tally.floorUsedUnits, tally.firedThresholds⟩)
      state.policy state.rowTallies }

/-- Rebuilds the meter, with a guard identity of its own and no live leases. -/
def fromCheckpoint (guardIdentity : ℕ) (checkpoint : BudgetCheckpoint) : BudgetState :=
  { new guardIdentity checkpoint.attemptId checkpoint.limitUnits checkpoint.reserveUnits
      checkpoint.onBudgetExhausted checkpoint.actor (checkpoint.rows.map (·.policy)) with
    usedUnits := checkpoint.usedUnits
    sharedUsedUnits := checkpoint.sharedUsedUnits
    nextLeaseSeq := checkpoint.nextLeaseSeq
    firedThresholds := checkpoint.firedThresholds
    rowTallies := checkpoint.rows.map fun row =>
      { usedUnits := row.usedUnits
        floorUsedUnits := row.floorUsedUnits
        firedThresholds := row.firedThresholds } }

end BudgetState

/-! ## Runs -/

inductive BudgetOp where
  | admitAny
  | admitForRequest (envelope : LlmEnvelope)
  | admitPaidForRequest (envelope : LlmEnvelope)
  | admitLocal
  | admitReserve (reserve : U64)
  | admitFreeWork (binding : DispatchBinding) (keyless : Bool)
  | admitReserveBound (reserve : U64) (binding : DispatchBinding)
  | admitCallBound (reserve : U64) (purpose : CallPurpose) (binding : DispatchBinding)
  | settleAbsolute (lease : BudgetLease) (absoluteUsed : U64)
  | settleTerminal (lease : BudgetLease) (usage : LlmUsage)
  | settleUsage (lease : BudgetLease) (callUsed : U64)
  | settlePerCall (lease : BudgetLease) (usage : LlmUsage)
  | settleReserved (lease : BudgetLease)
  | abort (lease : BudgetLease)
  | beginDispatch (lease : BudgetLease) (call : DispatchBinding)
  | markUnsent (lease : BudgetLease)
  | reviseLine (limit reserve : U64)

/-- What a call answers. -/
inductive BudgetResult where
  | admission (admission : Except BudgetDenied BudgetAdmission)
  | settled (settlement : Except BudgetDenied BudgetSettlement)
  | dispatch (started : Except DispatchRefused Unit)
  | unsent (cleared : Except BudgetDenied Unit)
  | revised (read : BudgetRead)

def BudgetState.call (state : BudgetState) : BudgetOp → BudgetResult × BudgetState
  | .admitAny => state.admitAny.map .admission id
  | .admitForRequest envelope => (state.admitForRequest envelope).map .admission id
  | .admitPaidForRequest envelope => (state.admitPaidForRequest envelope).map .admission id
  | .admitLocal => state.admitLocal.map .admission id
  | .admitReserve reserve => (state.admitReserve reserve).map .admission id
  | .admitFreeWork binding keyless => (state.admitFreeWork binding keyless).map .admission id
  | .admitReserveBound reserve binding => (state.admitReserveBound reserve binding).map .admission id
  | .admitCallBound reserve purpose binding =>
    (state.admitCallBound reserve purpose binding).map .admission id
  | .settleAbsolute lease absoluteUsed => (state.settleAbsolute lease absoluteUsed).map .settled id
  | .settleTerminal lease usage => (state.settleTerminal lease usage).map .settled id
  | .settleUsage lease callUsed => (state.settleUsage lease callUsed).map .settled id
  | .settlePerCall lease usage => (state.settlePerCall lease usage).map .settled id
  | .settleReserved lease => (state.settleReserved lease).map .settled id
  | .abort lease => (state.abort lease).map .settled id
  | .beginDispatch lease call => (state.beginDispatch lease call).map .dispatch id
  | .markUnsent lease => (state.markUnsent lease).map .unsent id
  | .reviseLine limit reserve =>
    let state := state.reviseLine limit reserve
    (.revised state.read, state)

/-- A new meter of any policy under every sequence of calls, each with its answer. -/
def budgetMeters : System BudgetState (BudgetOp × BudgetResult) where
  init state := ∃ guard attempt limit reserve exhausted actor policy,
    state = .new guard attempt limit reserve exhausted actor policy
  step state called next := state.call called.1 = (called.2, next)

/-- A meter after a sequence of calls. -/
def BudgetState.after (state : BudgetState) : List BudgetOp → BudgetState
  | [] => state
  | op :: ops => (state.call op).2.after ops

theorem BudgetState.reachable_after : ∀ (ops : List BudgetOp) {state : BudgetState},
    budgetMeters.Reachable state → budgetMeters.Reachable (state.after ops)
  | [], _, h => h
  | op :: ops, state, h => by
    have hstep : budgetMeters.step state (op, (state.call op).1) (state.call op).2 := rfl
    exact BudgetState.reachable_after ops (.step h hstep)

end Guard

/-! ## How a reservation is split over the floors

Both a reservation and a charge draw the matched floors in order, each down to nothing before the
next: together they give what they can (`allocateFloors_rest`), each within its own floor
(`share_allocateFloors`).
-/

section Split

variable {policy : BudgetPolicyTable} {tallies : List BudgetRowTally} {rows : List ℕ} {row : ℕ}

/-- A row's floor, nothing where it has none. -/
def BudgetPolicyTable.floorAt (policy : BudgetPolicyTable) (row : ℕ) : ℕ :=
  (policy[row]?.bind (·.floorUnits)).elim 0 U64.val

/-- What a row's floor has left. -/
def headroom (policy : BudgetPolicyTable) (tallies : List BudgetRowTally) (row : ℕ) : ℕ :=
  policy.floorAt row - (valueAt (·.floorUsedUnits.val) tallies row +
    valueAt (·.floorReservedUnits.val) tallies row)

/-- The units one step of a draw takes. -/
theorem val_draw (floor remaining used reserved : U64) :
    (remaining.min (floor.satSub (used.satAdd reserved))).val =
      min remaining.val (floor.val - (used.val + reserved.val)) := by
  have hfloor := floor.le_top
  rw [val_min, val_satSub, val_satAdd]
  omega

theorem val_ofNat_min (remaining : U64) (n : ℕ) :
    (U64.ofNat (min remaining.val n)).val = min remaining.val n := by
  have hle := remaining.le_top
  rw [val_ofNat]
  omega

theorem allocateFloors_zero : allocateFloors policy tallies rows 0 = ([], 0) := by
  cases rows with
  | nil => rfl
  | cons row rows => rw [allocateFloors, if_pos rfl]

/-- One row of a draw, all of its cases in one. -/
theorem allocateFloors_cons (hrow : row < tallies.length) (remaining : U64) :
    allocateFloors policy tallies (row :: rows) remaining =
      if min remaining.val (headroom policy tallies row) = 0 then
        allocateFloors policy tallies rows remaining
      else
        (⟨row, U64.ofNat (min remaining.val (headroom policy tallies row))⟩ ::
            (allocateFloors policy tallies rows (remaining.satSub
              (U64.ofNat (min remaining.val (headroom policy tallies row))))).1,
          (allocateFloors policy tallies rows (remaining.satSub
            (U64.ofNat (min remaining.val (headroom policy tallies row))))).2) := by
  rw [allocateFloors, getElem?_eq_getElem hrow]
  by_cases hzero : remaining = 0
  · rw [if_pos hzero, hzero, val_zero, if_pos (Nat.zero_min _), allocateFloors_zero]
  rw [if_neg hzero]
  cases hfloor : policy[row]?.bind (·.floorUnits) with
  | none =>
    have hnone : headroom policy tallies row = 0 := by
      simp [headroom, BudgetPolicyTable.floorAt, hfloor]
    rw [if_pos (by rw [hnone, Nat.min_zero])]
  | some floor =>
    have hunits : remaining.min (floor.satSub
        (tallies[row].floorUsedUnits.satAdd tallies[row].floorReservedUnits)) =
        U64.ofNat (min remaining.val (headroom policy tallies row)) := by
      rw [← val_inj, val_draw, val_ofNat_min]
      simp [headroom, BudgetPolicyTable.floorAt, hfloor, valueAt, hrow]
    dsimp only
    rw [hunits]
    by_cases hnone : min remaining.val (headroom policy tallies row) = 0
    · rw [if_pos hnone, if_pos (by rw [hnone]; rfl)]
    · rw [if_neg hnone, if_neg fun heq => hnone (by rw [← val_ofNat_min, heq]; rfl)]

/-- A draw and its remainder make up the amount. -/
theorem sum_allocateFloors : ∀ {rows : List ℕ} (remaining : U64),
    (∀ row ∈ rows, row < tallies.length) →
      ((allocateFloors policy tallies rows remaining).1.map (·.units.val)).sum +
        (allocateFloors policy tallies rows remaining).2.val = remaining.val
  | [], remaining, _ => Nat.zero_add _
  | row :: rows, remaining, h => by
    rw [forall_mem_cons] at h
    rw [allocateFloors_cons h.1]
    split
    · exact sum_allocateFloors remaining h.2
    · have ih := sum_allocateFloors (remaining.satSub
        (U64.ofNat (min remaining.val (headroom policy tallies row)))) h.2
      rw [val_satSub, val_ofNat_min] at ih
      rw [map_cons, sum_cons, val_ofNat_min]
      dsimp only
      omega

/-- A draw goes through its rows in order. -/
theorem rows_allocateFloors : ∀ {rows : List ℕ} (remaining : U64),
    (∀ row ∈ rows, row < tallies.length) →
      ((allocateFloors policy tallies rows remaining).1.map (·.rowIndex)).Sublist rows
  | [], _, _ => .refl _
  | row :: rows, remaining, h => by
    rw [forall_mem_cons] at h
    rw [allocateFloors_cons h.1]
    split
    · exact (rows_allocateFloors remaining h.2).cons _
    · exact (rows_allocateFloors _ h.2).cons_cons _

/-- A draw leaves over what all its rows cannot give. -/
theorem allocateFloors_rest : ∀ {rows : List ℕ} (remaining : U64),
    (∀ row ∈ rows, row < tallies.length) →
      (allocateFloors policy tallies rows remaining).2.val =
        remaining.val - (rows.map (headroom policy tallies)).sum
  | [], _, _ => rfl
  | row :: rows, remaining, h => by
    rw [forall_mem_cons] at h
    rw [allocateFloors_cons h.1, map_cons, sum_cons]
    split
    · rw [allocateFloors_rest remaining h.2]
      omega
    · rw [allocateFloors_rest _ h.2, val_satSub, val_ofNat_min]
      omega

/-- **No floor is drawn past what it has left.** -/
theorem share_allocateFloors : ∀ {rows : List ℕ} (remaining : U64), rows.Nodup →
    (∀ row ∈ rows, row < tallies.length) → ∀ row,
      share (·.rowIndex) (·.units.val) (allocateFloors policy tallies rows remaining).1 row ≤
        headroom policy tallies row
  | [], _, _, _, _ => Nat.zero_le _
  | first :: rows, remaining, hnodup, h, row => by
    rw [forall_mem_cons] at h
    rw [nodup_cons] at hnodup
    rw [allocateFloors_cons h.1]
    split
    · exact share_allocateFloors remaining hnodup.2 h.2 row
    · have hrest := share_allocateFloors (remaining.satSub
        (U64.ofNat (min remaining.val (headroom policy tallies first)))) hnodup.2 h.2 row
      rw [share_cons]
      by_cases hrow : first = row
      · subst hrow
        -- the row has no further entry
        have hnone : share (·.rowIndex) (·.units.val) (allocateFloors policy tallies rows
            (remaining.satSub (U64.ofNat (min remaining.val (headroom policy tallies first))))).1
            first = 0 := by
          refine share_eq_zero fun floor hmem heq => hnodup.1 ?_
          exact heq ▸ (rows_allocateFloors _ h.2).subset (mem_map_of_mem hmem)
        rw [if_pos rfl, hnone, val_ofNat_min]
        omega
      · rw [if_neg hrow, Nat.zero_add]
        exact hrest

/-- A draw depends on its own rows only. -/
theorem allocateFloors_congr {tallies' : List BudgetRowTally} :
    ∀ {rows : List ℕ} (remaining : U64), (∀ row ∈ rows, tallies'[row]? = tallies[row]?) →
      allocateFloors policy tallies' rows remaining = allocateFloors policy tallies rows remaining
  | [], _, _ => rfl
  | row :: rows, remaining, h => by
    rw [forall_mem_cons] at h
    rw [allocateFloors, allocateFloors, h.1]
    simp only [allocateFloors_congr _ h.2]

/-- Books one entry on its row's floor. -/
def drawOn (floor : FloorAllocation) (tally : BudgetRowTally) : BudgetRowTally :=
  { tally with floorUsedUnits := tally.floorUsedUnits.satAdd floor.units }

/-- **A charge draws as a reservation would**, from what is left then. -/
theorem drawFloors_eq : ∀ {rows : List ℕ} (used : U64) {tallies : List BudgetRowTally},
    rows.Nodup → (∀ row ∈ rows, row < tallies.length) →
      drawFloors policy rows used tallies =
        (pass (·.rowIndex) drawOn (allocateFloors policy tallies rows used).1 tallies,
          (allocateFloors policy tallies rows used).2)
  | [], _, _, _, _ => rfl
  | row :: rows, used, tallies, hnodup, h => by
    rw [forall_mem_cons] at h
    rw [nodup_cons] at hnodup
    rw [drawFloors, allocateFloors, getElem?_eq_getElem h.1]
    by_cases hzero : used = 0
    · rw [if_pos hzero, if_pos hzero]
      rfl
    rw [if_neg hzero, if_neg hzero]
    cases hfloor : policy[row]?.bind (·.floorUnits) with
    | none => exact drawFloors_eq used hnodup.2 h.2
    | some floor =>
      dsimp only [Option.elim_some]
      split
      · exact drawFloors_eq used hnodup.2 h.2
      · rw [drawFloors_eq _ hnodup.2 (by simpa using h.2), allocateFloors_congr]
        · rfl
        · intro other hother
          have hne : row ≠ other := fun heq => hnodup.1 (heq ▸ hother)
          simp [hne]

end Split

end Oneiron
