import Oneiron.Foundations.System
import Oneiron.Outbound.Intent

/-!
# Outbound/Ledger — the doors that write a send's row

Three tables tell one send's story in one transaction: its ledger row, with the index of its call;
what its send came to, its reserved budget among it; and, where the call carries a dedupe key, the
key's reservation, which names the one attempt that may hold the wire.
-/

namespace Oneiron

/-- `DEDUPE_COOLDOWN_S`. -/
def dedupeCooldownS : U64 := 86400

/-- The hash a dedupe key is kept under. -/
abbrev DedupeKey := Digest

structure DedupeReservation where
  id : IntentId
  stampedAt : U64
  deriving DecidableEq

inductive ProviderWaitKind where
  | rateLimit | quota
  deriving DecidableEq

/-- How long a provider asked a refused send to wait. -/
structure ProviderRetryDirective where
  kind : ProviderWaitKind
  notBefore : Option U64
  deriving DecidableEq

inductive ReservationStatus where
  | reserved | settled | released
  deriving DecidableEq

/-- The budget one admission reserved for its send. -/
structure BudgetReservation where
  debits : List EffectorBudgetDebit
  status : ReservationStatus
  spend : Option ConnectorSpendBasis
  spendRows : List EffectorBudgetLocation
  deriving DecidableEq

structure IntentSettlement where
  remoteTask : Option Bytes
  providerWait : Option ProviderRetryDirective
  reservation : Option BudgetReservation
  reportedCost : Option ConnectorSpendEstimate
  deriving DecidableEq

/-- Nothing kept. -/
def IntentSettlement.default : IntentSettlement := ⟨none, none, none, none⟩

/-- What an admission was charged: the entries its charges wrote, each row touched first, and what a
preauthorized spend stood on, with the rows it met, each once. -/
structure AdmissionCharge where
  reading : ℕ
  charged : List (EffectorBudgetLocation × U64)
  spend : Option (ConnectorSpendBasis × List EffectorBudgetLocation)
  nodup_rows : ∀ basis rows, spend = some (basis, rows) → rows.Nodup

theorem AdmissionCharge.nodup_none : ∀ basis rows,
    (none : Option (ConnectorSpendBasis × List EffectorBudgetLocation)) = some (basis, rows) →
      rows.Nodup := nofun

/-- The debits of an admission, written at an instant. -/
def AdmissionCharge.debitsAt (charge : AdmissionCharge) (now : ℕ) : List EffectorBudgetDebit :=
  charge.charged.map fun (location, amount) => ⟨location, amount, now⟩

/-- What a settling transaction reads beside the row: a clock, and which rows still preauthorize in a
unit. -/
structure MeterReading where
  reading : ℕ
  preauthorizes : EffectorBudgetLocation → String → Bool

structure OutboundLedger where
  rows : IntentId → Option IntentLedgerRecord
  attempts : AttemptCallKey → Option IntentId
  /-- The calls a restore kept only the accounting of. -/
  unavailable : AttemptCallKey → Bool
  settlements : OrderedMap IntentId IntentSettlement
  usage : UsageTable
  reservations : DedupeKey → Option DedupeReservation
  bindings : IntentId → Option DedupeKey
  /-- The floor of the meter's clock. -/
  clock : ℕ
  /-- What the meter wrote for no reservation. -/
  metered : List EffectorBudgetDebit

namespace OutboundLedger

variable (endorses : FrozenCall → Bool) (windows : EffectorBudgetLocation → EffectorBudgetWindow)
  (s : OutboundLedger)

/-! ### Rows -/

/-- `get_ledger_record`: a row that reads, under its own id. -/
def getRecord (id : IntentId) : Option IntentLedgerRecord :=
  (s.rows id).filter fun record => record.validateRecord endorses && decide (record.id = id)

/-- A row its call's index names: `read_intent_record_in_txn`. -/
def readIntent (id : IntentId) : Option IntentLedgerRecord :=
  (s.getRecord endorses id).filter fun record => decide (s.attempts record.call = some record.id)

/-- The row of a call: `read_intent_for_attempt_in_txn`, where the call has one. -/
def readForAttempt (call : AttemptCallKey) : Option IntentLedgerRecord :=
  ((s.attempts call).bind (s.readIntent endorses)).filter fun record => decide (record.call = call)

def putRecord (record : IntentLedgerRecord) : OutboundLedger :=
  { s with rows := Function.update s.rows record.id (some record) }

/-- `insert_intent_in_txn`. -/
def insertIntent (record : IntentLedgerRecord) : Option OutboundLedger :=
  if (s.attempts record.call).isSome then none
  else if s.unavailable record.call then none
  else if (s.rows record.id).isSome then none
  else if record.validateRecord endorses then
    some { s.putRecord record with
      attempts := Function.update s.attempts record.call (some record.id) }
  else none

/-- `insert_pending_in_txn`. -/
def insertPending (record : IntentLedgerRecord) : Option OutboundLedger :=
  if record.state ≠ .pending ∨ record.recordedOutcome.isSome ∨ record.deliveryUncertain then none
  else s.insertIntent endorses record

/-- `insert_suppressed_in_txn`. -/
def insertSuppressed (record : IntentLedgerRecord) : Option OutboundLedger :=
  if record.state ≠ .abandoned ∨ record.recordedOutcome ≠ some (.abandoned .dedupeSuppressed) then
    none
  else s.insertIntent endorses record

/-! ### Settlements -/

/-- `intent_settlement_in_txn`: an empty one when none was written. -/
def settlement (id : IntentId) : IntentSettlement := s.settlements[id]?.getD .default

/-- `update_settlement_in_txn`: a settlement left empty is not kept. -/
def putSettlement (id : IntentId) (settlement : IntentSettlement) : OutboundLedger :=
  { s with settlements :=
      if settlement = .default then s.settlements.erase id
      else s.settlements.insert id settlement }

/-- `reserve_budget_in_txn`. -/
def reserveBudget (id : IntentId) (debits : List EffectorBudgetDebit)
    (spend : Option (ConnectorSpendBasis × List EffectorBudgetLocation)) : OutboundLedger :=
  if debits.isEmpty ∧ spend.isNone then s
  else s.putSettlement id { s.settlement id with
    reservation := some ⟨debits, .reserved, spend.map Prod.fst, (spend.map Prod.snd).getD []⟩ }

/-- `keep_reported_cost`. -/
def keepReportedCost (id : IntentId) (cost : ConnectorSpendEstimate) : OutboundLedger :=
  if (s.settlement id).reservation.any fun reservation =>
      decide (reservation.status = .reserved) && reservation.spend.isSome then
    s.putSettlement id { s.settlement id with reportedCost := some cost }
  else s

/-- The debits without those released, each the first that is it, and with those written. -/
def swapDebits (debits released written : List EffectorBudgetDebit) : List EffectorBudgetDebit :=
  released.foldl .erase debits ++ written

/-- The meter's clock, a reading against its floor: `recorded_at_in_txn`. -/
def recordedAt (reading : ℕ) : ℕ := max s.clock reading

/-- `reconcile_spend_in_txn`: the ledger after, and the debits and the basis that take the
reservation's place. -/
def reconcileSpend (meter : MeterReading) (reservation : BudgetReservation)
    (actual : ConnectorSpendEstimate) :
    OutboundLedger × Option (List EffectorBudgetDebit × ConnectorSpendBasis) :=
  let swapped (estimated : Option ConnectorSpendEstimate) :=
    let now := s.recordedAt meter.reading
    let done := SpendReconciliation.ofRows windows meter.preauthorizes reservation.debits actual now
      s.usage reservation.spendRows
    ({ s with usage := done.usage, clock := now },
      if done.released.isEmpty ∧ done.written.isEmpty then none
      else some (swapDebits reservation.debits done.released done.written,
        ConnectorSpendBasis.reconciled estimated actual))
  match reservation.spend with
  | some (.estimated estimate) => swapped (some estimate)
  | some .unpriced => swapped none
  | some (.reconciled ..) | none => (s, none)

/-- Where a row's state leaves its reservation, when it leaves `reserved`. -/
def settlesTo (record : IntentLedgerRecord) : Option ReservationStatus :=
  match record.state with
  | .done => some .settled
  | .abandoned => if record.deliveryUncertain then none else some .released
  | .pending | .deferred => none

/-- A reservation in place of the one its settlement holds. -/
def putReservation (id : IntentId) (reservation : BudgetReservation) : OutboundLedger :=
  s.putSettlement id { s.settlement id with reservation := some reservation }

/-- `settle_reservation_in_txn`. -/
def settleReservation (meter : MeterReading) (record : IntentLedgerRecord) : OutboundLedger :=
  match settlesTo record, (s.settlement record.id).reservation with
  | some next, some reservation =>
    if reservation.status ≠ .reserved then s
    else if next = .released then
      { s with usage := s.usage.release reservation.debits }.putReservation record.id
        { reservation with status := .released }
    else
      match (s.settlement record.id).reportedCost.map (s.reconcileSpend windows meter reservation) with
      | some (t, some (debits, basis)) =>
        t.putReservation record.id { reservation with status := next, debits, spend := some basis }
      | some (t, none) => t.putReservation record.id { reservation with status := next }
      | none => s.putReservation record.id { reservation with status := next }
  | _, _ => s

/-! ### Dedupe keys -/

/-- `blocked`, where it reads: whether a key's floor stops a new attempt. -/
def blocked (key : DedupeKey) (nowS : U64) : Option Bool :=
  match s.reservations key with
  | none => some false
  | some reservation =>
    match s.readIntent endorses reservation.id with
    | none => none
    | some record =>
      if s.bindings reservation.id ≠ some key then none
      else some (record.inFlight ||
        decide (nowS.val < (reservation.stampedAt.satAdd dedupeCooldownS).val))

/-- `reserve`. -/
def reserve (key : DedupeKey) (id : IntentId) (nowS : U64) : OutboundLedger :=
  { s with reservations := Function.update s.reservations key (some ⟨id, nowS⟩)
           bindings := Function.update s.bindings id (some key) }

/-- `owns_retry`, where it reads. -/
def ownsRetry (id : IntentId) : Option Bool :=
  match s.bindings id with
  | none => some true
  | some key => (s.reservations key).map fun reservation => decide (reservation.id = id)

/-- `delivered_in_txn` and `touch_inflight`: the row's own reservation, stamped anew. -/
def stampReservation (id : IntentId) (nowS : U64) : Option OutboundLedger :=
  match s.bindings id with
  | none => some s
  | some key =>
    if s.ownsRetry id = some true then
      some { s with reservations := Function.update s.reservations key (some ⟨id, nowS⟩) }
    else none

/-! ### Doors -/

/-- A new effect's admission: its charge, its row, its reservations. -/
def admitNew (record : IntentLedgerRecord) (key : Option DedupeKey) (nowS : U64)
    (charge : AdmissionCharge) : Option OutboundLedger :=
  if key.any fun key => decide (s.blocked endorses key nowS ≠ some false) then none
  else
    let now := s.recordedAt charge.reading
    let debits := charge.debitsAt now
    ({ s with usage := debits.foldl (.charge windows) s.usage
              clock := now }.insertPending endorses record).map fun (t : OutboundLedger) =>
      let t := t.reserveBudget record.id debits charge.spend
      key.elim t fun key => t.reserve key record.id nowS

/-- `record_possible_delivery`. -/
def recordPossibleDelivery (id : IntentId) : Option OutboundLedger :=
  (s.getRecord endorses id).bind fun record =>
    if record.inFlight then some (s.putRecord { record with deliveryUncertain := true }) else none

/-- `record_definite_non_delivery`, and with a wait `record_provider_refusal`. -/
def recordDefiniteNonDelivery (id : IntentId) (wait : Option ProviderRetryDirective)
    (nowMs : U64) : Option OutboundLedger :=
  (s.getRecord endorses id).bind fun record =>
    if record.inFlight then
      let t := s.putRecord { record with
        recordedOutcome := some .definiteNonDelivery, updatedMs := nowMs.max record.createdMs }
      some (wait.elim t fun wait =>
        t.putSettlement id { t.settlement id with providerWait := some wait })
    else none

/-- `begin_definite_non_delivery_retry`: the retry opens, or its row stops for the newer attempt that
took its key over. -/
def beginRetry (meter : MeterReading) (id : IntentId) (nowMs : U64) : Option OutboundLedger :=
  (s.getRecord endorses id).bind fun record =>
    if record.state ≠ .pending ∨ record.recordedOutcome ≠ some .definiteNonDelivery then none
    else (s.ownsRetry id).map fun owns =>
      let record := if owns then
          { record with recordedOutcome := none, updatedMs := nowMs.max record.createdMs }
        else record.moved .abandoned (.abandoned .dedupeReservationReplaced) nowMs
      let t := s.putRecord record
      let t := t.putSettlement id { t.settlement id with providerWait := none }
      t.settleReservation windows meter record

/-- `transition_record_in_txn`: the moved ledger, or the ledger itself where the row already stands
there with the outcome. -/
def transition (meter : MeterReading) (id : IntentId) (next : IntentState)
    (outcome : RecordedOutboundOutcome) (nowMs nowS : U64) : Option (OutboundLedger × Bool) :=
  (s.getRecord endorses id).bind fun record =>
    if record.state = next then
      if record.recordedOutcome = some outcome then some (s, false) else none
    else if record.state.mayTransitionTo next then
      let record := record.moved next outcome nowMs
      let t := s.putRecord record
      let stamps : Bool := next = .done ∨ next = .deferred ∨
        next = .abandoned ∧ outcome ≠ .abandoned .dedupeReservationReplaced
      (if stamps then t.stampReservation id nowS else some t).map fun t =>
        (t.settleReservation windows meter record, true)
    else none

/-- `complete_record`. -/
def complete (meter : MeterReading) (id : IntentId) (nowMs nowS : U64) : Option OutboundLedger :=
  (s.transition endorses windows meter id .done .acked nowMs nowS).map Prod.fst

/-- `abandon_record`. -/
def abandon (meter : MeterReading) (id : IntentId) (reason : IntentEscalationReason)
    (nowMs nowS : U64) : Option OutboundLedger :=
  (s.transition endorses windows meter id .abandoned (.abandoned reason) nowMs nowS).map Prod.fst

/-- `defer_record`: the provider's handle is kept beside a row just moved. -/
def defer_ (meter : MeterReading) (id : IntentId) (handle : Bytes) (nowMs nowS : U64) :
    Option OutboundLedger :=
  (s.transition endorses windows meter id .deferred .deferred nowMs nowS).map fun (t, moved) =>
    if moved then t.putSettlement id { t.settlement id with remoteTask := some handle } else t

/-- `reconcile_connector_intent_in_txn`, which a stop makes abandon a Pending row. -/
def reconcileConnector (meter : MeterReading) (call : AttemptCallKey)
    (stop : Option IntentEscalationReason) (nowMs : U64) : Option OutboundLedger :=
  (s.readForAttempt endorses call).map fun record =>
    match stop with
    | none => s
    | some reason =>
      if record.state = .pending then
        let record := { record.moved .abandoned (.abandoned reason) nowMs with
          deliveryUncertain := record.deliveryUncertain || record.recordedOutcome.isNone }
        (s.putRecord record).settleReservation windows meter record
      else s

/-- `renew_admission_in_txn`, of the row as it stands. -/
def renewAdmission (id : IntentId) (nowMs : U64) : Option OutboundLedger :=
  (s.readIntent endorses id).map fun record =>
    s.putRecord { record with updatedMs := nowMs.max record.updatedMs }

/-- `touch_inflight`. -/
def touchInflight (id : IntentId) (nowS : U64) : Option OutboundLedger := s.stampReservation id nowS

/-- The meter's other writers: a row touched, and what they charge it. -/
def meters (location : EffectorBudgetLocation) (reading : ℕ) (amount : Option U64) :
    OutboundLedger :=
  let now := s.recordedAt reading
  match amount with
  | none => { s with clock := now, usage :=
      Function.update s.usage location ((s.usage location).touch (windows location) now) }
  | some amount => { s with
      clock := now, usage := s.usage.charge windows ⟨location, amount, now⟩
      metered := ⟨location, amount, now⟩ :: s.metered }

end OutboundLedger

/-! ### Runs -/

inductive LedgerOp where
  | admits (record : IntentLedgerRecord) (key : Option DedupeKey) (nowS : U64)
      (charge : AdmissionCharge)
  | suppresses (record : IntentLedgerRecord)
  | marksPossible (id : IntentId)
  | failsDefinitely (id : IntentId) (wait : Option ProviderRetryDirective) (nowMs : U64)
  | retries (id : IntentId) (nowMs : U64)
  | completes (id : IntentId) (nowMs nowS : U64)
  | defers (id : IntentId) (handle : Bytes) (nowMs nowS : U64)
  | abandons (id : IntentId) (reason : IntentEscalationReason) (nowMs nowS : U64)
  | reconciles (call : AttemptCallKey) (stop : Option IntentEscalationReason) (nowMs : U64)
  | renews (id : IntentId) (nowMs : U64)
  | touches (id : IntentId) (nowS : U64)
  | reports (id : IntentId) (cost : ConnectorSpendEstimate)
  | meters (location : EffectorBudgetLocation) (reading : ℕ) (amount : Option U64)

/-- One transaction, which commits whole or changes nothing. -/
def OutboundLedger.run (endorses : FrozenCall → Bool)
    (windows : EffectorBudgetLocation → EffectorBudgetWindow) (s : OutboundLedger)
    (meter : MeterReading) : LedgerOp → Option OutboundLedger
  | .admits record key nowS charge => s.admitNew endorses windows record key nowS charge
  | .suppresses record => s.insertSuppressed endorses record
  | .marksPossible id => s.recordPossibleDelivery endorses id
  | .failsDefinitely id wait nowMs => s.recordDefiniteNonDelivery endorses id wait nowMs
  | .retries id nowMs => s.beginRetry endorses windows meter id nowMs
  | .completes id nowMs nowS => s.complete endorses windows meter id nowMs nowS
  | .defers id handle nowMs nowS => s.defer_ endorses windows meter id handle nowMs nowS
  | .abandons id reason nowMs nowS => s.abandon endorses windows meter id reason nowMs nowS
  | .reconciles call stop nowMs => s.reconcileConnector endorses windows meter call stop nowMs
  | .renews id nowMs => s.renewAdmission endorses id nowMs
  | .touches id nowS => s.touchInflight id nowS
  | .reports id cost => some (s.keepReportedCost id cost)
  | .meters location reading amount => some (s.meters windows location reading amount)

/-- A ledger with no row, whatever a restore kept the accounting of. -/
def OutboundLedger.Fresh (s : OutboundLedger) : Prop :=
  (∀ id, s.rows id = none) ∧ (∀ call, s.attempts call = none) ∧ s.settlements = ∅ ∧
    (∀ location, s.usage location = ⟨0, []⟩) ∧ (∀ key, s.reservations key = none) ∧
    (∀ id, s.bindings id = none) ∧ s.metered = []

/-- Transactions in any order; between two a crash leaves what was committed. -/
def outboundSystem (endorses : FrozenCall → Bool)
    (windows : EffectorBudgetLocation → EffectorBudgetWindow) :
    System OutboundLedger (MeterReading × LedgerOp) where
  init := OutboundLedger.Fresh
  step s label t := s.run endorses windows label.1 label.2 = some t

end Oneiron
