import Oneiron.Contracts.EntityId
import Oneiron.Foundations.Saturating

/-!
# Outbound/Intent — one row of the outbound intent ledger

    pending --▸ done
        │ ╲       ▴
        ▾   ▸ deferred --▸ abandoned

What an admission freezes never changes; a row's state, its recorded outcome, what is known of its
delivery and its last instant do.
-/

namespace Oneiron

section Intents

open Std

/-- The id of an outbound intent. -/
@[ext] structure IntentId where
  asBytes : Bytes
  length_asBytes : asBytes.length = 32

instance : DecidableEq IntentId := fun a b =>
  decidable_of_iff (a.asBytes = b.asBytes) IntentId.ext_iff.symm

namespace IntentId

instance : Ord IntentId := ⟨compareOn asBytes⟩

instance : TransOrd IntentId := inferInstanceAs (TransCmp (compareOn asBytes))

instance : LawfulEqOrd IntentId where
  compare_self {id} := (ReflOrd.compare_self : compare id.asBytes id.asBytes = .eq)
  eq_of_compare {a b} h :=
    IntentId.ext (LawfulEqOrd.eq_of_compare (show compare a.asBytes b.asBytes = .eq from h))

end IntentId

inductive IntentState where
  | pending | done | abandoned
  /-- The provider accepted the send as a remote task. -/
  | deferred
  deriving DecidableEq

/-- Where a row may go from where it is. -/
def IntentState.mayTransitionTo : IntentState → IntentState → Bool
  | .pending, .done | .pending, .abandoned | .pending, .deferred => true
  | .deferred, .done | .deferred, .abandoned => true
  | _, _ => false

inductive IntentEscalationReason where
  | nonIdempotentAmbiguous | nonIdempotentPending | connectorRevoked | bindingInvalid
  | previouslyAbandoned | corruptLedgerRow | dedupeReservationReplaced | dedupeSuppressed
  | ownerStopped | connectorSlateNeverAllow | actorErased | recipientErased | ownerErased
  | remoteTaskFailed | sendExecutorStoodDown
  deriving DecidableEq

inductive RecordedOutboundOutcome where
  /-- The last transport attempt certainly did not deliver: a retry permit. -/
  | definiteNonDelivery
  | acked
  | abandoned (reason : IntentEscalationReason)
  | deferred
  deriving DecidableEq

/-- One logical call: the attempt that makes it, and its number there. -/
structure AttemptCallKey where
  attemptId : AttemptId
  callSeq : U64
  deriving DecidableEq

inductive EffectorBudgetRowSource where
  | key | charter
  deriving DecidableEq

/-- The tag a usage row's key carries. -/
def EffectorBudgetRowSource.tag : EffectorBudgetRowSource → ℕ
  | .key => 0
  | .charter => 1

structure EffectorBudgetRowId where
  source : EffectorBudgetRowSource
  index : U64
  deriving DecidableEq

/-- Key rows first, each source's rows ascending. -/
def EffectorBudgetRowId.before (a b : EffectorBudgetRowId) : Bool :=
  a.source.tag < b.source.tag || (decide (a.source = b.source) && decide (a.index.val < b.index.val))

/-- What an admission was charged, kept with the row it admitted. -/
structure BudgetChargeMarker where
  keyRef : Option EntityId
  isSend : Bool
  matchedRows : List EffectorBudgetRowId
  sendsDebit : U64

/-- What an admission freezes of a call: its identity, its charge and its request. -/
structure FrozenCall where
  id : IntentId
  call : AttemptCallKey
  server : String
  tool : String
  budgetAccounting : BudgetChargeMarker
  request : Bytes

structure IntentLedgerRecord extends FrozenCall where
  createdMs : U64
  state : IntentState
  recordedOutcome : Option RecordedOutboundOutcome
  /-- Some attempt of this send may have delivered. -/
  deliveryUncertain : Bool
  updatedMs : U64

/-- Whether each element comes before the next. -/
def ascends {α : Type} (before : α → α → Bool) : List α → Bool
  | a :: b :: rest => before a b && ascends before (b :: rest)
  | _ => true

namespace IntentLedgerRecord

variable (endorses : FrozenCall → Bool) (record : IntentLedgerRecord)

/-- The outcomes a state allows. -/
def outcomeMatches : IntentState → Option RecordedOutboundOutcome → Bool
  | .pending, none | .pending, some .definiteNonDelivery => true
  | .done, some .acked => true
  | .deferred, some .deferred => true
  | .abandoned, some (.abandoned _) => true
  | _, _ => false

/-- Clocks in order, a canonical budget marker, and an outcome its state allows. -/
def validateAccounting : Bool :=
  decide (record.createdMs.val ≤ record.updatedMs.val) &&
  (record.budgetAccounting.keyRef.isSome ||
    record.budgetAccounting.matchedRows.isEmpty && decide (record.budgetAccounting.sendsDebit = 0)) &&
  decide (record.budgetAccounting.sendsDebit.val ≤ 1) &&
  (record.budgetAccounting.isSend || decide (record.budgetAccounting.sendsDebit = 0)) &&
  ascends EffectorBudgetRowId.before record.budgetAccounting.matchedRows &&
  outcomeMatches record.state record.recordedOutcome

/-- `validate_record`: its endpoint, approval, payload and identity checks read only what admission
froze. -/
def validateRecord : Bool := endorses record.toFrozenCall && record.validateAccounting

/-- Outcome-free Pending: its send may be under way. -/
def inFlight : Bool := decide (record.state = .pending) && record.recordedOutcome.isNone

/-- A move to a state with its outcome. -/
def moved (next : IntentState) (outcome : RecordedOutboundOutcome) (nowMs : U64) :
    IntentLedgerRecord :=
  { record with state := next, recordedOutcome := some outcome
                updatedMs := nowMs.max record.createdMs }

end IntentLedgerRecord

end Intents

/-! ## The usage rows a send's budget is debited from

A charge writes one entry into each row it debits; a row forgets entries its window is past.  A send
that certainly never went takes its entries back out, and a delivered one whose provider reports the
cost trades its estimate's entries for it.
-/

section Meters

/-- A budget row, under the key that owns it. -/
structure EffectorBudgetLocation where
  keyRef : EntityId
  row : EffectorBudgetRowId
  deriving DecidableEq

/-- One usage entry a charge wrote. -/
structure EffectorBudgetDebit where
  location : EffectorBudgetLocation
  amount : U64
  at_ : ℕ
  deriving DecidableEq

/-- The entry a debit wrote. -/
def EffectorBudgetDebit.entry (debit : EffectorBudgetDebit) : ℕ × U64 := (debit.at_, debit.amount)

/-- How long a row remembers: an entry of the last seconds, or of the calendar's bucket. -/
inductive EffectorBudgetWindow where
  | rolling (durationS : U64) (pos : 0 < durationS.val)
  | calendar (start : ℕ → ℕ) (le : ∀ now, start now ≤ now)

structure ConnectorKeyUsage where
  windowStart : ℕ
  entries : List (ℕ × U64)

namespace ConnectorKeyUsage

/-- Drops what the window is past. -/
def touch (usage : ConnectorKeyUsage) (window : EffectorBudgetWindow) (now : ℕ) :
    ConnectorKeyUsage :=
  match window with
  | .rolling durationS _ => ⟨0, usage.entries.filter fun entry =>
      decide (now < min (entry.1 + durationS.val) U64.top)⟩
  | .calendar start _ =>
    if usage.windowStart ≠ start now then ⟨start now, []⟩
    else ⟨usage.windowStart, usage.entries.filter fun entry => decide (start now ≤ entry.1)⟩

/-- One entry in. -/
def push (usage : ConnectorKeyUsage) (entry : ℕ × U64) : ConnectorKeyUsage :=
  { usage with entries := usage.entries ++ [entry] }

/-- The first matching entry out, when there is one. -/
def take (usage : ConnectorKeyUsage) (entry : ℕ × U64) : ConnectorKeyUsage :=
  { usage with entries := usage.entries.erase entry }

end ConnectorKeyUsage

/-- The usage rows of every key. -/
abbrev UsageTable := EffectorBudgetLocation → ConnectorKeyUsage

namespace UsageTable

variable (windows : EffectorBudgetLocation → EffectorBudgetWindow) (usage : UsageTable)

/-- One debit written, its row touched first. -/
def charge (debit : EffectorBudgetDebit) : UsageTable :=
  Function.update usage debit.location
    (((usage debit.location).touch (windows debit.location) debit.at_).push debit.entry)

/-- `release_effector_debits_in_txn`. -/
def release (debits : List EffectorBudgetDebit) : UsageTable :=
  debits.foldl (fun (usage : UsageTable) debit =>
    Function.update usage debit.location ((usage debit.location).take debit.entry)) usage

end UsageTable

structure ConnectorSpendEstimate where
  unit : String
  minorUnits : U64
  deriving DecidableEq

/-- What a send's preauthorized spend stood on. -/
inductive ConnectorSpendBasis where
  | estimated (estimate : ConnectorSpendEstimate)
  | unpriced
  | reconciled (estimated : Option ConnectorSpendEstimate) (actual : ConnectorSpendEstimate)
  deriving DecidableEq

/-- What reconciling a send's spend wrote. -/
structure SpendReconciliation where
  usage : UsageTable
  released : List EffectorBudgetDebit
  written : List EffectorBudgetDebit

namespace SpendReconciliation

variable (windows : EffectorBudgetLocation → EffectorBudgetWindow)
  (preauthorizes : EffectorBudgetLocation → String → Bool)
  (estimates : List EffectorBudgetDebit) (actual : ConnectorSpendEstimate) (now : ℕ)

/-- The estimate's entry of one row, when the row still holds it. -/
def estimateAt (usage : UsageTable) (location : EffectorBudgetLocation) :
    Option EffectorBudgetDebit :=
  (estimates.find? fun debit => decide (debit.location = location)).filter fun debit =>
    decide (debit.entry ∈ (usage location).entries)

/-- One preauthorizing row: its estimate out, the actual in. -/
def row (done : SpendReconciliation) (location : EffectorBudgetLocation) : SpendReconciliation :=
  if preauthorizes location actual.unit then
    let released := estimateAt estimates done.usage location
    let kept := released.elim (done.usage location) fun debit =>
      (done.usage location).take debit.entry
    let touched := kept.touch (windows location) now
    if 0 < actual.minorUnits.val then
      ⟨Function.update done.usage location (touched.push (now, actual.minorUnits)),
        done.released ++ released.toList, done.written ++ [⟨location, actual.minorUnits, now⟩]⟩
    else ⟨Function.update done.usage location touched, done.released ++ released.toList,
      done.written⟩
  else done

/-- `reconcile_connector_spend_in_txn`, over the preauthorizing rows a send met. -/
def ofRows (usage : UsageTable) (rows : List EffectorBudgetLocation) : SpendReconciliation :=
  rows.foldl (row windows preauthorizes estimates actual now) ⟨usage, [], []⟩

end SpendReconciliation

end Meters

end Oneiron
