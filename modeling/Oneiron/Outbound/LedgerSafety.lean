import Oneiron.Outbound.Ledger

/-!
# Outbound/LedgerSafety — a send's row over every run of its doors

Thirteen doors write a row in five ways (`LedgerMove`).  What each way keeps, every run keeps: one row a
call, an outcome its state allows, a terminal row as it was, and the evidence that a send may have
gone.
-/

namespace Oneiron

open Option Function Bool OutboundLedger IntentLedgerRecord

/-! ## What a door writes of a row -/

/-- The ways a row already there is rewritten. -/
inductive LedgerMove (record : IntentLedgerRecord) : IntentLedgerRecord → Prop
  | marks : record.inFlight = true → LedgerMove record { record with deliveryUncertain := true }
  | fails (nowMs : U64) : record.inFlight = true → LedgerMove record { record with
      recordedOutcome := some .definiteNonDelivery, updatedMs := nowMs.max record.createdMs }
  | opens (nowMs : U64) : record.state = .pending →
      record.recordedOutcome = some .definiteNonDelivery → LedgerMove record { record with
        recordedOutcome := none, updatedMs := nowMs.max record.createdMs }
  | moves (next : IntentState) (outcome : RecordedOutboundOutcome) (nowMs : U64)
      (uncertain : Bool) : record.state.mayTransitionTo next = true →
      outcomeMatches next (some outcome) = true →
      (record.deliveryUncertain = true → uncertain = true) →
      LedgerMove record { record.moved next outcome nowMs with deliveryUncertain := uncertain }
  | renews (nowMs : U64) : LedgerMove record { record with updatedMs := nowMs.max record.updatedMs }

namespace LedgerMove

variable {endorses : FrozenCall → Bool} {record record' : IntentLedgerRecord}

/-- What was frozen stays frozen. -/
theorem frozen (h : LedgerMove record record') : record'.toFrozenCall = record.toFrozenCall := by
  cases h <;> rfl

theorem id_eq (h : LedgerMove record record') : record'.id = record.id := by rw [h.frozen]

theorem call_eq (h : LedgerMove record record') : record'.call = record.call := by rw [h.frozen]

theorem le_max_right (a b : U64) : b.val ≤ (a.max b).val := by
  rw [U64.max]
  split <;> omega

/-- A row keeps its clocks in order and its outcome one of its state's. -/
theorem accounts (h : LedgerMove record record') (hvalid : record.validateAccounting = true) :
    record'.validateAccounting = true := by
  simp only [validateAccounting, and_eq_true, decide_eq_true_eq]
    at hvalid ⊢
  obtain ⟨⟨⟨⟨⟨hclocks, hkey⟩, hsends⟩, hclass⟩, hrows⟩, houtcome⟩ := hvalid
  cases h with
  | marks => exact ⟨⟨⟨⟨⟨hclocks, hkey⟩, hsends⟩, hclass⟩, hrows⟩, houtcome⟩
  | fails nowMs hin =>
    simp only [inFlight, and_eq_true, decide_eq_true_eq] at hin
    exact ⟨⟨⟨⟨⟨le_max_right .., hkey⟩, hsends⟩, hclass⟩, hrows⟩, by simp [hin.1,
      outcomeMatches]⟩
  | opens nowMs hstate =>
    exact ⟨⟨⟨⟨⟨le_max_right .., hkey⟩, hsends⟩, hclass⟩, hrows⟩, by simp [hstate,
      outcomeMatches]⟩
  | moves next outcome nowMs uncertain hmay hmatch =>
    exact ⟨⟨⟨⟨⟨le_max_right .., hkey⟩, hsends⟩, hclass⟩, hrows⟩, hmatch⟩
  | renews nowMs =>
    exact ⟨⟨⟨⟨⟨hclocks.trans (le_max_right ..), hkey⟩, hsends⟩, hclass⟩, hrows⟩, houtcome⟩

theorem validates (h : LedgerMove record record') (hvalid : record.validateRecord endorses = true) :
    record'.validateRecord endorses = true := by
  rw [validateRecord, and_eq_true] at hvalid ⊢
  rw [h.frozen]
  exact ⟨hvalid.1, h.accounts hvalid.2⟩

end LedgerMove

/-- How one row stands to what it was: over, it is as it was; deferred, it is never sent again; and
what may have delivered may have delivered. -/
structure IntentLedgerRecord.Later (record record' : IntentLedgerRecord) : Prop where
  ended : record.state = .done ∨ record.state = .abandoned →
    record'.state = record.state ∧ record'.recordedOutcome = record.recordedOutcome
  deferred : record.state = .deferred → record'.state ≠ .pending
  uncertain : record.deliveryUncertain = true → record'.deliveryUncertain = true

namespace IntentLedgerRecord.Later

variable {record record' record'' : IntentLedgerRecord}

theorem refl (record : IntentLedgerRecord) : record.Later record :=
  ⟨fun _ => ⟨rfl, rfl⟩, fun h => by simp [h], id⟩

theorem trans (h : record.Later record') (h' : record'.Later record'') :
    record.Later record'' := by
  refine ⟨fun hover => ?_, fun hdeferred => ?_, fun huncertain => h'.uncertain (h.uncertain huncertain)⟩
  · obtain ⟨hstate, houtcome⟩ := h.ended hover
    obtain ⟨hstate', houtcome'⟩ := h'.ended (hstate ▸ hover)
    exact ⟨hstate'.trans hstate, houtcome'.trans houtcome⟩
  · have hnot := h.deferred hdeferred
    cases hstate : record'.state with
    | pending => exact absurd hstate hnot
    | deferred => exact h'.deferred hstate
    | done => simp [(h'.ended (.inl hstate)).1, hstate]
    | abandoned => simp [(h'.ended (.inr hstate)).1, hstate]

theorem of_move (h : LedgerMove record record') : record.Later record' := by
  cases h with
  | marks hin =>
    simp only [inFlight, and_eq_true, decide_eq_true_eq] at hin
    exact ⟨fun hover => by simp [hin.1] at hover, fun h => by simp [hin.1] at h, fun _ => rfl⟩
  | fails nowMs hin =>
    simp only [inFlight, and_eq_true, decide_eq_true_eq] at hin
    exact ⟨fun hover => by simp [hin.1] at hover, fun h => by simp [hin.1] at h, id⟩
  | opens nowMs hstate =>
    exact ⟨fun hover => by simp [hstate] at hover, fun h => by simp [hstate] at h, id⟩
  | moves next outcome nowMs uncertain hmay hmatch huncertain =>
    refine ⟨fun hover => ?_, fun hdeferred heq => ?_, huncertain⟩
    · rcases hover with hstate | hstate <;> rw [hstate] at hmay <;>
        exact absurd hmay (by cases next <;> exact Bool.false_ne_true)
    · rw [hdeferred, show next = .pending from heq] at hmay
      exact absurd hmay Bool.false_ne_true
  | renews nowMs => exact ⟨fun _ => ⟨rfl, rfl⟩, fun h => by simp [h], id⟩

end IntentLedgerRecord.Later

/-! ## What a door leaves as it was -/

namespace OutboundLedger

variable (endorses : FrozenCall → Bool) (windows : EffectorBudgetLocation → EffectorBudgetWindow)
  {s t : OutboundLedger} {id : IntentId} {nowS : U64}

@[simp] theorem putSettlement_rows (s : OutboundLedger) (id : IntentId) (x : IntentSettlement) :
    (s.putSettlement id x).rows = s.rows := rfl

/-- The rows, the index and the dedupe tables of two ledgers are the same. -/
structure SameSends (s t : OutboundLedger) : Prop where
  rows : t.rows = s.rows
  attempts : t.attempts = s.attempts
  reservations : t.reservations = s.reservations
  bindings : t.bindings = s.bindings

theorem SameSends.refl (s : OutboundLedger) : s.SameSends s := ⟨rfl, rfl, rfl, rfl⟩

variable {u : OutboundLedger} {key : Option DedupeKey} {record : IntentLedgerRecord}
  {charge : AdmissionCharge}

theorem SameSends.trans (h : s.SameSends t) (h' : t.SameSends u) : s.SameSends u :=
  ⟨h'.rows.trans h.rows, h'.attempts.trans h.attempts, h'.reservations.trans h.reservations,
    h'.bindings.trans h.bindings⟩

theorem sameSends_putSettlement (s : OutboundLedger) (id : IntentId) (x : IntentSettlement) :
    s.SameSends (s.putSettlement id x) := ⟨rfl, rfl, rfl, rfl⟩

theorem sameSends_reserveBudget (s : OutboundLedger) (id : IntentId)
    (debits : List EffectorBudgetDebit)
    (spend : Option (ConnectorSpendBasis × List EffectorBudgetLocation)) :
    s.SameSends (s.reserveBudget id debits spend) := by
  rw [reserveBudget]
  split
  · exact .refl s
  · exact sameSends_putSettlement ..

theorem sameSends_keepReportedCost (s : OutboundLedger) (id : IntentId)
    (cost : ConnectorSpendEstimate) : s.SameSends (s.keepReportedCost id cost) := by
  rw [keepReportedCost]
  split
  · exact sameSends_putSettlement ..
  · exact .refl s

theorem sameSends_reconcileSpend (s : OutboundLedger) (meter : MeterReading)
    (reservation : BudgetReservation) (actual : ConnectorSpendEstimate) :
    s.SameSends (s.reconcileSpend windows meter reservation actual).1 := by
  rw [reconcileSpend]
  split
  · exact ⟨rfl, rfl, rfl, rfl⟩
  · exact ⟨rfl, rfl, rfl, rfl⟩
  · exact .refl s
  · exact .refl s

/-- Settling a reservation touches no send. -/
theorem sameSends_settleReservation (s : OutboundLedger) (meter : MeterReading)
    (record : IntentLedgerRecord) : s.SameSends (s.settleReservation windows meter record) := by
  rw [settleReservation]
  split
  case h_2 => exact .refl s
  case h_1 next reservation _ _ =>
    split
    · exact .refl s
    · split
      · exact ⟨rfl, rfl, rfl, rfl⟩
      · split
        case h_3 => exact sameSends_putSettlement ..
        all_goals
          case _ heq =>
            obtain ⟨actual, -, hran⟩ := map_eq_some_iff.mp heq
            exact (congrArg Prod.fst hran ▸ s.sameSends_reconcileSpend windows meter reservation
              actual).trans (sameSends_putSettlement ..)

theorem sameRows_stampReservation (h : s.stampReservation id nowS = some t) :
    t.rows = s.rows ∧ t.attempts = s.attempts := by
  rw [stampReservation] at h
  split at h
  · exact some.inj h ▸ ⟨rfl, rfl⟩
  · split at h
    · exact some.inj h ▸ ⟨rfl, rfl⟩
    · exact absurd h nofun

/-- Only the row its key's reservation names stamps it. -/
theorem ownsRetry_of_stamp (h : s.stampReservation id nowS = some t) :
    s.ownsRetry id = some true := by
  rw [stampReservation] at h
  split at h
  case h_1 hbinding => rw [ownsRetry, hbinding]
  case h_2 =>
    split at h
    case isTrue howns => exact howns
    case isFalse => exact absurd h nofun

variable {endorses}

theorem getRecord_eq (h : s.getRecord endorses id = some record) :
    s.rows id = some record ∧ record.validateRecord endorses = true ∧ record.id = id := by
  rw [getRecord, filter_eq_some_iff, and_eq_true, decide_eq_true_eq] at h
  exact h

theorem readIntent_eq (h : s.readIntent endorses id = some record) :
    s.getRecord endorses id = some record ∧ s.attempts record.call = some record.id := by
  rw [readIntent, filter_eq_some_iff, decide_eq_true_eq] at h
  exact h

/-- **What a transition comes to**: nothing where the row stands there, else the row moved, its
reservation stamped where the move is its send's own, and its budget settled. -/
theorem transition_eq {next : IntentState} {outcome : RecordedOutboundOutcome} {moved : Bool}
    {meter : MeterReading} {nowMs : U64}
    (h : s.transition endorses windows meter id next outcome nowMs nowS = some (t, moved)) :
    t = s ∨ ∃ record stamped, s.getRecord endorses id = some record ∧
      record.state.mayTransitionTo next = true ∧
      (if decide (next = .done ∨ next = .deferred ∨
          next = .abandoned ∧ outcome ≠ .abandoned .dedupeReservationReplaced) then
        (s.putRecord (record.moved next outcome nowMs)).stampReservation id nowS
      else some (s.putRecord (record.moved next outcome nowMs))) = some stamped ∧
      t = stamped.settleReservation windows meter (record.moved next outcome nowMs) := by
  obtain ⟨record, hread, h⟩ := bind_eq_some_iff.mp h
  split at h
  case isTrue =>
    split at h
    · exact .inl (Prod.mk.inj (some.inj h)).1.symm
    · exact absurd h nofun
  case isFalse =>
    split at h
    case isFalse => exact absurd h nofun
    case isTrue hmay =>
      obtain ⟨stamped, hstamped, heq⟩ := map_eq_some_iff.mp h
      exact .inr ⟨record, stamped, hread, hmay, hstamped, (Prod.mk.inj heq).1.symm⟩

/-- A row in, its call's index with it. -/
theorem insertIntent_eq (h : s.insertIntent endorses record = some t) :
    s.attempts record.call = none ∧ s.rows record.id = none ∧
      record.validateRecord endorses = true ∧ t = { s.putRecord record with
        attempts := Function.update s.attempts record.call (some record.id) } := by
  rw [insertIntent] at h
  split at h
  · exact absurd h nofun
  · split at h
    · exact absurd h nofun
    · split at h
      · exact absurd h nofun
      · split at h
        case isTrue hcall _ hid hvalid =>
          exact ⟨not_isSome_iff_eq_none.mp hcall, not_isSome_iff_eq_none.mp hid,
            hvalid, (some.inj h).symm⟩
        case isFalse => exact absurd h nofun

/-- The ledger with a call's charge taken and its row in. -/
def charged (s : OutboundLedger) (record : IntentLedgerRecord) (charge : AdmissionCharge) :
    OutboundLedger :=
  { s.putRecord record with
    attempts := Function.update s.attempts record.call (some record.id)
    usage := (charge.debitsAt (s.recordedAt charge.reading)).foldl (.charge windows) s.usage
    clock := s.recordedAt charge.reading }

/-- What an admission found. -/
structure Admits (endorses : FrozenCall → Bool) (s : OutboundLedger) (record : IntentLedgerRecord)
    (key : Option DedupeKey) (nowS : U64) : Prop where
  floor : ∀ k, key = some k → s.blocked endorses k nowS = some false
  state : record.state = .pending
  outcome : record.recordedOutcome = none
  certain : record.deliveryUncertain = false
  call : s.attempts record.call = none
  id : s.rows record.id = none
  valid : record.validateRecord endorses = true

variable {windows} in
/-- An admission: its row in, then its reservations. -/
theorem admitNew_eq (h : s.admitNew endorses windows record key nowS charge = some t) :
    s.Admits endorses record key nowS ∧ t = key.elim
      ((s.charged windows record charge).reserveBudget record.id
        (charge.debitsAt (s.recordedAt charge.reading)) charge.spend)
      fun k => ((s.charged windows record charge).reserveBudget record.id
        (charge.debitsAt (s.recordedAt charge.reading)) charge.spend).reserve k record.id nowS := by
  rw [admitNew] at h
  split at h
  case isTrue => exact absurd h nofun
  case isFalse hfloor =>
    obtain ⟨u, hinsert, rfl⟩ := map_eq_some_iff.mp h
    rw [insertPending] at hinsert
    split at hinsert
    case isTrue => exact absurd hinsert nofun
    case isFalse hpending =>
      push Not at hpending
      obtain ⟨hstate, houtcome, hcertain⟩ := hpending
      obtain ⟨hcall, hid, hvalid, rfl⟩ := insertIntent_eq hinsert
      refine ⟨⟨fun k heq => ?_, hstate, by simpa using houtcome, by simpa using hcertain, hcall,
        hid, hvalid⟩, rfl⟩
      simpa [heq] using hfloor

variable (endorses)

/-- What a transaction does to the rows and their index. -/
inductive RowStep (s : OutboundLedger) (op : LedgerOp) (t : OutboundLedger) : Prop
  | keeps : t.rows = s.rows → t.attempts = s.attempts → RowStep s op t
  | inserts (record : IntentLedgerRecord) : s.attempts record.call = none →
      s.rows record.id = none → record.validateRecord endorses = true →
      t.rows = Function.update s.rows record.id (some record) →
      t.attempts = Function.update s.attempts record.call (some record.id) → RowStep s op t
  | rewrites (record record' : IntentLedgerRecord) :
      s.getRecord endorses record.id = some record → LedgerMove record record' →
      (record.recordedOutcome = some .definiteNonDelivery → record'.inFlight = true →
        s.ownsRetry record.id = some true ∧ ∃ nowMs, op = .retries record.id nowMs) →
      (record'.state = .deferred → record.state ≠ .deferred → s.ownsRetry record.id = some true) →
      t.rows = Function.update s.rows record.id (some record') → t.attempts = s.attempts →
      RowStep s op t

namespace RowStep

variable {endorses windows} {op : LedgerOp} {record record' : IntentLedgerRecord}
  {meter : MeterReading} {nowMs : U64}

theorem congr (h : RowStep endorses s op t) (hrows : u.rows = t.rows)
    (hattempts : u.attempts = t.attempts) : RowStep endorses s op u := by
  cases h with
  | keeps hr ha => exact .keeps (hrows.trans hr) (hattempts.trans ha)
  | inserts record hcall hid hvalid hr ha =>
    exact .inserts record hcall hid hvalid (hrows.trans hr) (hattempts.trans ha)
  | rewrites record record' hread hmove hopens hdefers hr ha =>
    exact .rewrites record record' hread hmove hopens hdefers (hrows.trans hr) (hattempts.trans ha)

/-- A write of a row that opens no retry. -/
theorem of_putRecord (hread : s.getRecord endorses id = some record) (hmove : LedgerMove record record')
    (hshut : record.recordedOutcome = some .definiteNonDelivery → record'.inFlight = false)
    (hdefers : record'.state = .deferred → record.state ≠ .deferred →
      s.ownsRetry record.id = some true)
    (hrows : t.rows = (s.putRecord record').rows) (hattempts : t.attempts = s.attempts) :
    RowStep endorses s op t := by
  obtain ⟨-, -, rfl⟩ := getRecord_eq hread
  refine .rewrites record record' hread hmove (fun houtcome hin => ?_) hdefers ?_ hattempts
  · exact absurd (hshut houtcome) (by simp [hin])
  · rw [hrows, putRecord, hmove.id_eq]

theorem of_insertIntent (h : s.insertIntent endorses record = some t) :
    RowStep endorses s op t := by
  obtain ⟨hcall, hid, hvalid, rfl⟩ := insertIntent_eq h
  exact .inserts record hcall hid hvalid rfl rfl

/-- A row just moved is not in flight. -/
theorem not_inFlight_moved (record : IntentLedgerRecord) (next : IntentState)
    (outcome : RecordedOutboundOutcome) (nowMs : U64) (uncertain : Bool) :
    ({ record.moved next outcome nowMs with deliveryUncertain := uncertain }).inFlight = false := by
  simp [inFlight, moved]

theorem of_transition {next : IntentState} {outcome : RecordedOutboundOutcome} {moved : Bool}
    (hmatch : outcomeMatches next (some outcome) = true)
    (h : s.transition endorses windows meter id next outcome nowMs nowS = some (t, moved)) :
    RowStep endorses s op t := by
  rcases transition_eq windows h with rfl | ⟨record, stamped, hread, hmay, hstamped, rfl⟩
  · exact .keeps rfl rfl
  have hsame := sameSends_settleReservation windows stamped meter (record.moved next outcome nowMs)
  have hstamp : stamped.rows = (s.putRecord (record.moved next outcome nowMs)).rows ∧
      stamped.attempts = s.attempts := by
    split at hstamped
    · exact sameRows_stampReservation hstamped
    · exact some.inj hstamped ▸ ⟨rfl, rfl⟩
  obtain ⟨-, -, rfl⟩ := getRecord_eq hread
  have hdefers (hnext : next = .deferred) : s.ownsRetry record.id = some true := by
    rw [if_pos (by simp [hnext])] at hstamped
    exact ownsRetry_of_stamp (s := s.putRecord (record.moved next outcome nowMs)) hstamped
  exact of_putRecord hread
    (.moves next outcome nowMs record.deliveryUncertain hmay hmatch fun h => h)
    (fun _ => not_inFlight_moved ..) (fun hnext _ => hdefers hnext) (hsame.rows.trans hstamp.1)
    (hsame.attempts.trans hstamp.2)

theorem of_admitNew (h : s.admitNew endorses windows record key nowS charge = some t) :
    RowStep endorses s op t := by
  obtain ⟨hadmits, rfl⟩ := admitNew_eq h
  have hsame := sameSends_reserveBudget (s.charged windows record charge) record.id
    (charge.debitsAt (s.recordedAt charge.reading)) charge.spend
  refine .inserts record hadmits.call hadmits.id hadmits.valid ?_ ?_
  · cases key <;> exact hsame.rows
  · cases key <;> exact hsame.attempts

theorem of_beginRetry (h : s.beginRetry endorses windows meter id nowMs = some t) :
    RowStep endorses s (.retries id nowMs) t := by
  obtain ⟨record, hread, h⟩ := bind_eq_some_iff.mp h
  split at h
  case isTrue => exact absurd h nofun
  case isFalse hpermit =>
    push Not at hpermit
    obtain ⟨owns, howns, rfl⟩ := map_eq_some_iff.mp h
    obtain ⟨-, -, rfl⟩ := getRecord_eq hread
    have hmove : LedgerMove record (if owns then
        { record with recordedOutcome := none, updatedMs := nowMs.max record.createdMs }
        else record.moved .abandoned (.abandoned .dedupeReservationReplaced) nowMs) := by
      split
      · exact .opens nowMs hpermit.1 hpermit.2
      · exact .moves .abandoned _ nowMs record.deliveryUncertain (by rw [hpermit.1]; rfl) rfl
          fun h => h
    refine .rewrites record _ hread hmove (fun _ hin => ?_) (fun hdeferred _ => ?_)
      ((sameSends_settleReservation windows _ meter _).rows.trans ?_)
      (sameSends_settleReservation windows _ meter _).attempts
    · cases owns with
      | true => exact ⟨howns, nowMs, rfl⟩
      | false => exact absurd hin (by simp [inFlight, moved])
    · cases owns with
      | true => exact howns
      | false => exact absurd hdeferred nofun
    · rw [putSettlement_rows, putRecord, hmove.id_eq]

theorem of_reconcileConnector {call : AttemptCallKey} {stop : Option IntentEscalationReason}
    (h : s.reconcileConnector endorses windows meter call stop nowMs = some t) :
    RowStep endorses s op t := by
  obtain ⟨record, hread, rfl⟩ := map_eq_some_iff.mp h
  rw [readForAttempt, filter_eq_some_iff, bind_eq_some_iff] at hread
  obtain ⟨⟨id, -, hread⟩, -⟩ := hread
  obtain ⟨hget, -⟩ := readIntent_eq hread
  cases stop with
  | none => exact .keeps rfl rfl
  | some reason =>
    dsimp only
    split
    case isTrue hpending =>
      have hsame := sameSends_settleReservation windows (s.putRecord
        { record.moved .abandoned (.abandoned reason) nowMs with
          deliveryUncertain := record.deliveryUncertain || record.recordedOutcome.isNone }) meter
        { record.moved .abandoned (.abandoned reason) nowMs with
          deliveryUncertain := record.deliveryUncertain || record.recordedOutcome.isNone }
      exact of_putRecord hget (.moves .abandoned (.abandoned reason) nowMs _
        (by rw [hpending]; rfl) rfl fun h => by simp [h])
        (fun _ => not_inFlight_moved ..) nofun hsame.rows hsame.attempts
    case isFalse => exact .keeps rfl rfl

theorem of_recordDefiniteNonDelivery {wait : Option ProviderRetryDirective}
    (h : s.recordDefiniteNonDelivery endorses id wait nowMs = some t) :
    RowStep endorses s op t := by
  obtain ⟨record, hread, h⟩ := bind_eq_some_iff.mp h
  split at h
  case isTrue hin =>
    obtain rfl := some.inj h
    refine of_putRecord hread (.fails nowMs hin) (fun _ => ?_) (fun h h' => absurd h h') ?_ ?_
    · simp [inFlight]
    · cases wait <;> rfl
    · cases wait <;> rfl
  case isFalse => exact absurd h nofun

/-- **Every transaction rewrites a row in one of the five ways, puts one in, or leaves them all.** -/
theorem of_run (h : s.run endorses windows meter op = some t) : RowStep endorses s op t := by
  cases op with
  | admits record key nowS charge => exact of_admitNew h
  | suppresses record =>
    rw [run, insertSuppressed] at h
    split at h
    · exact absurd h nofun
    · exact of_insertIntent h
  | marksPossible id =>
    obtain ⟨record, hread, h⟩ := bind_eq_some_iff.mp h
    split at h
    case isTrue hin =>
      obtain rfl := some.inj h
      refine of_putRecord hread (.marks hin) (fun houtcome => ?_) (fun h h' => absurd h h') rfl rfl
      simp [inFlight, houtcome] at hin
    case isFalse => exact absurd h nofun
  | failsDefinitely id wait nowMs => exact of_recordDefiniteNonDelivery h
  | retries id nowMs => exact of_beginRetry h
  | completes id nowMs nowS | abandons id reason nowMs nowS =>
    obtain ⟨⟨u, moved⟩, hmoved, rfl⟩ := map_eq_some_iff.mp h
    exact of_transition rfl hmoved
  | defers id handle nowMs nowS =>
    obtain ⟨⟨u, moved⟩, hmoved, rfl⟩ := map_eq_some_iff.mp h
    exact (of_transition rfl hmoved).congr (by cases moved <;> rfl) (by cases moved <;> rfl)
  | reconciles call stop nowMs => exact of_reconcileConnector h
  | renews id nowMs =>
    obtain ⟨record, hread, rfl⟩ := map_eq_some_iff.mp h
    refine of_putRecord (readIntent_eq hread).1 (.renews nowMs) (fun houtcome => ?_)
      (fun h h' => absurd h h') rfl rfl
    simp [inFlight, houtcome]
  | touches id nowS =>
    obtain ⟨hrows, hattempts⟩ := sameRows_stampReservation h
    exact .keeps hrows hattempts
  | reports id cost =>
    obtain rfl := some.inj h
    exact .keeps (sameSends_keepReportedCost ..).rows (sameSends_keepReportedCost ..).attempts
  | meters location reading amount =>
    obtain rfl := some.inj h
    cases amount <;> exact .keeps rfl rfl

end RowStep

/-! ## What every run keeps of the rows -/

/-- Each row is under its own id, valid and indexed, and each call's index names its row. -/
structure Indexed (endorses : FrozenCall → Bool) (s : OutboundLedger) : Prop where
  row : ∀ id record, s.rows id = some record → record.id = id ∧
    record.validateRecord endorses = true ∧ s.attempts record.call = some id
  index : ∀ call id, s.attempts call = some id → ∃ record, s.rows id = some record ∧
    record.call = call

namespace Indexed

variable {endorses windows} {op : LedgerOp} {meter : MeterReading}

theorem fresh (h : s.Fresh) : s.Indexed endorses :=
  ⟨fun id record hrow => by simp [h.1 id] at hrow, fun call id hindex => by simp [h.2.1 call] at hindex⟩

/-- A call's row is the only one of its call. -/
theorem unique (h : s.Indexed endorses) {id id' : IntentId} {record' : IntentLedgerRecord}
    (hrow : s.rows id = some record) (hrow' : s.rows id' = some record')
    (hcall : record.call = record'.call) : id = id' := by
  have hindex := (h.row id record hrow).2.2
  rw [hcall, (h.row id' record' hrow').2.2, some.injEq] at hindex
  exact hindex.symm

theorem step (h : s.Indexed endorses) (hstep : RowStep endorses s op t) : t.Indexed endorses := by
  cases hstep with
  | keeps hrows hattempts =>
    exact ⟨by rw [hrows, hattempts]; exact h.row, by rw [hrows, hattempts]; exact h.index⟩
  | inserts record hcall hid hvalid hrows hattempts =>
    refine ⟨fun id found hrow => ?_, fun call id hindex => ?_⟩
    · rw [hrows, update_apply] at hrow
      rw [hattempts, update_apply]
      split at hrow
      case isTrue heq =>
        obtain rfl := some.inj hrow
        exact ⟨heq.symm, hvalid, by rw [if_pos rfl, heq]⟩
      case isFalse hne =>
        obtain ⟨hown, hfound, hindex⟩ := h.row id found hrow
        refine ⟨hown, hfound, ?_⟩
        rw [if_neg, hindex]
        exact fun heq => by simp [heq, hcall] at hindex
    · rw [hattempts, update_apply] at hindex
      rw [hrows]
      split at hindex
      case isTrue heq =>
        obtain rfl := some.inj hindex
        exact ⟨record, update_self .., heq.symm⟩
      case isFalse =>
        obtain ⟨found, hrow, hfound⟩ := h.index call id hindex
        refine ⟨found, (update_of_ne ?_ ..).trans hrow, hfound⟩
        exact fun heq => by simp [heq, hid] at hrow
  | rewrites record record' hread hmove hopens hdefers hrows hattempts =>
    obtain ⟨hold, hvalid, -⟩ := getRecord_eq hread
    refine ⟨fun id found hrow => ?_, fun call id hindex => ?_⟩
    · rw [hrows, update_apply] at hrow
      rw [hattempts]
      split at hrow
      case isTrue heq =>
        obtain rfl := some.inj hrow
        rw [hmove.id_eq, hmove.call_eq]
        exact ⟨heq.symm, hmove.validates hvalid, heq ▸ (h.row _ _ hold).2.2⟩
      case isFalse => exact h.row id found hrow
    · rw [hattempts] at hindex
      obtain ⟨found, hrow, hfound⟩ := h.index call id hindex
      rw [hrows]
      by_cases heq : id = record.id
      · subst heq
        rw [hold, some.injEq] at hrow
        exact ⟨record', update_self .., hmove.call_eq.trans (hrow ▸ hfound)⟩
      · exact ⟨found, (update_of_ne heq ..).trans hrow, hfound⟩

theorem of_reachable (h : (outboundSystem endorses windows).Reachable s) : s.Indexed endorses :=
  h.invariant _ fresh fun hs hstep => hs.step (RowStep.of_run hstep)

end Indexed

/-- **A row stays, later than it was.** -/
theorem RowStep.later {op : LedgerOp} (h : RowStep endorses s op t) (hrow : s.rows id = some record)
    : ∃ record', t.rows id = some record' ∧ record.Later record' := by
  cases h with
  | keeps hrows => exact ⟨record, by rw [hrows]; exact hrow, .refl record⟩
  | inserts new hcall hid hvalid hrows =>
    refine ⟨record, ?_, .refl record⟩
    rw [hrows, update_of_ne fun heq => by simp [← heq, hrow] at hid, hrow]
  | rewrites old new hread hmove hopens hdefers hrows =>
    obtain ⟨hold, -, -⟩ := getRecord_eq hread
    rw [hrows]
    by_cases heq : id = old.id
    · subst heq
      rw [hold, some.injEq] at hrow
      exact ⟨new, update_self .., hrow ▸ .of_move hmove⟩
    · exact ⟨record, (update_of_ne heq ..).trans hrow, .refl record⟩

/-- …over every run. -/
theorem later_of_run {labels : List (MeterReading × LedgerOp)}
    (h : (outboundSystem endorses windows).Run s labels t) (hrow : s.rows id = some record) :
    ∃ record', t.rows id = some record' ∧ record.Later record' := by
  induction h generalizing record with
  | nil => exact ⟨record, hrow, .refl record⟩
  | cons hstep _ ih =>
    obtain ⟨between, hbetween, hlater⟩ := (RowStep.of_run hstep).later endorses hrow
    obtain ⟨record', hrow', hlater'⟩ := ih hbetween
    exact ⟨record', hrow', hlater.trans hlater'⟩

end OutboundLedger

/-- **The ledger over whole runs.**  A call has at most one row and its index names exactly that row;
each row's outcome is one its state allows and its clocks are in order; along any run a row that is
over stays as it is, a deferred one is never pending again and what may have delivered stays so; and
a retry opens only for the row its key's reservation names. -/
theorem outbound_rows_kept (endorses : FrozenCall → Bool)
    (windows : EffectorBudgetLocation → EffectorBudgetWindow) :
    ∀ s, (outboundSystem endorses windows).Reachable s →
      ((∀ id id' record record', s.rows id = some record → s.rows id' = some record' →
          record.call = record'.call → id = id') ∧
        ∀ call id, s.attempts call = some id ↔ ∃ record, s.rows id = some record ∧
          record.call = call) ∧
      (∀ id record, s.rows id = some record → record.id = id ∧
        outcomeMatches record.state record.recordedOutcome = true ∧
        record.createdMs.val ≤ record.updatedMs.val) ∧
      (∀ labels t, (outboundSystem endorses windows).Run s labels t → ∀ id record,
        s.rows id = some record → ∃ record', t.rows id = some record' ∧
          (record.state = .done ∨ record.state = .abandoned → record'.state = record.state ∧
            record'.recordedOutcome = record.recordedOutcome) ∧
          (record.state = .deferred → record'.state ≠ .pending) ∧
          (record.deliveryUncertain = true → record'.deliveryUncertain = true)) ∧
      ∀ meter op t, s.run endorses windows meter op = some t → ∀ id record record',
        s.rows id = some record → t.rows id = some record' →
        record.state = .pending ∧ record.recordedOutcome = some .definiteNonDelivery →
        record'.state = .pending ∧ record'.recordedOutcome = none →
          s.ownsRetry id = some true ∧ ∃ nowMs, op = .retries id nowMs := by
  intro s hreach
  have hindexed := OutboundLedger.Indexed.of_reachable hreach
  refine ⟨⟨fun id id' record record' => hindexed.unique, fun call id => ⟨hindexed.index call id, ?_⟩⟩,
    fun id record hrow => ?_, fun labels t hrun id record hrow => ?_,
    fun meter op t hstep id record record' hrow hrow' hpermit hopen => ?_⟩
  · rintro ⟨record, hrow, rfl⟩
    exact (hindexed.row id record hrow).2.2
  · obtain ⟨hid, hvalid, -⟩ := hindexed.row id record hrow
    simp only [validateRecord, validateAccounting,
      and_eq_true, decide_eq_true_eq] at hvalid
    exact ⟨hid, hvalid.2.2, hvalid.2.1.1.1.1.1⟩
  · obtain ⟨record', hrow', hlater⟩ := later_of_run endorses windows hrun hrow
    exact ⟨record', hrow', hlater.ended, hlater.deferred, hlater.uncertain⟩
  · cases OutboundLedger.RowStep.of_run hstep with
    | keeps hrows =>
      rw [hrows, hrow, some.injEq] at hrow'
      subst hrow'
      exact absurd (hpermit.2.symm.trans hopen.2) nofun
    | inserts new hcall hid hvalid hrows =>
      rw [hrows, update_of_ne fun heq => by simp [← heq, hrow] at hid, hrow,
        some.injEq] at hrow'
      subst hrow'
      exact absurd (hpermit.2.symm.trans hopen.2) nofun
    | rewrites old new hread hmove hopens hdefers hrows =>
      obtain ⟨hold, -, -⟩ := getRecord_eq hread
      rw [hrows] at hrow'
      by_cases heq : id = old.id
      · subst heq
        rw [hold, some.injEq] at hrow
        rw [update_self, some.injEq] at hrow'
        subst hrow hrow'
        exact hopens hpermit.2 (by simp [inFlight, hopen])
      · rw [update_of_ne heq, hrow, some.injEq] at hrow'
        subst hrow'
        exact absurd (hpermit.2.symm.trans hopen.2) nofun

/-! ## A run -/

namespace LedgerRun

def endorses (_ : FrozenCall) : Bool := true

def windows (_ : EffectorBudgetLocation) : EffectorBudgetWindow := .rolling 60 (by decide)

def meter : MeterReading := ⟨1, fun _ _ => true⟩

def fresh : OutboundLedger :=
  { rows := fun _ => none, attempts := fun _ => none, unavailable := fun _ => false
    settlements := ∅, usage := fun _ => ⟨0, []⟩, reservations := fun _ => none
    bindings := fun _ => none, clock := 0, metered := [] }

/-- The intent every byte of whose id is `b`. -/
def intent (b : UInt8) : IntentId := ⟨List.replicate 32 b, Digest.length_filled b⟩

/-- A first call of an attempt, just admitted. -/
def pending (b : UInt8) : IntentLedgerRecord :=
  { id := intent b, call := ⟨⟨List.replicate 16 b, EntityId.length_filled b⟩, 0⟩, server := "mail", tool := "send"
    budgetAccounting := ⟨none, true, [], 0⟩, request := [], createdMs := 1, state := .pending
    recordedOutcome := none, deliveryUncertain := false, updatedMs := 1 }

/-- A charge of nothing. -/
def free : AdmissionCharge := ⟨1, [], none, AdmissionCharge.nodup_none⟩

theorem fresh_fresh : fresh.Fresh :=
  ⟨fun _ => rfl, fun _ => rfl, rfl, fun _ => rfl, fun _ => rfl, fun _ => rfl, rfl⟩

/-- The first call's row in, charged nothing. -/
def admitted : OutboundLedger := fresh.charged windows (pending 1) free

def sendKey : DedupeKey := ⟨List.replicate 32 7, by simp⟩

/-- A transaction, or nothing where it is refused. -/
def tx (s : OutboundLedger) (op : LedgerOp) : OutboundLedger :=
  (s.run endorses windows meter op).getD s

/-- A send that fails, another of its key a day later, the first stopped as it is retried, and the
second failed too, sent again and acked. -/
def sends : List LedgerOp :=
  [.admits (pending 1) (some sendKey) 0 free, .failsDefinitely (intent 1) none 2,
    .admits (pending 2) (some sendKey) dedupeCooldownS free, .retries (intent 1) 3,
    .failsDefinitely (intent 2) none 4, .retries (intent 2) 5,
    .completes (intent 2) 6 dedupeCooldownS]

/-- The ledger after some of them. -/
def sent (n : ℕ) : OutboundLedger := (sends.take n).foldl tx fresh

theorem reachable_txs (ops : List LedgerOp) :
    (outboundSystem endorses windows).Reachable (ops.foldl tx fresh) := by
  refine .foldl (fun s op => ?_) ops (.start fresh_fresh)
  cases h : s.run endorses windows meter op with
  | none => exact .inl (by rw [tx, h]; rfl)
  | some t => exact .inr ⟨(meter, op), h.trans (by rw [tx, h]; rfl)⟩

end LedgerRun

open LedgerRun

/-- A send taken over by another stays stopped, and the other, which owns its retry, is acked. -/
theorem outbound_rows_of_retry : (sent 5).ownsRetry (intent 2) = some true ∧
    (∃ record, (sent 7).rows (intent 1) = some record ∧
      record.recordedOutcome = some (.abandoned .dedupeReservationReplaced)) ∧
    (∃ record, (sent 7).rows (intent 2) = some record ∧ record.state = .done) ∧
    ∀ call id, (sent 7).attempts call = some id ↔ ∃ record, (sent 7).rows id = some record ∧
      record.call = call := by
  obtain ⟨-, -, hlater, hopens⟩ := outbound_rows_kept endorses windows (sent 5) (reachable_txs _)
  have hretries : (sent 5).run endorses windows meter (.retries (intent 2) 5) = some (sent 6) := rfl
  have hacks : (sent 6).run endorses windows meter (.completes (intent 2) 6 dedupeCooldownS) =
    some (sent 7) := rfl
  obtain ⟨record, hrow, hended, -⟩ := hlater [(meter, _), (meter, _)] _
    (.cons hretries (.cons hacks (.nil _))) (intent 1) _ rfl
  exact ⟨(hopens meter _ _ hretries (intent 2) _ _ rfl rfl ⟨rfl, rfl⟩ ⟨rfl, rfl⟩).1,
    ⟨record, hrow, (hended (.inr rfl)).2⟩, ⟨_, rfl, rfl⟩,
    (outbound_rows_kept endorses windows _ (reachable_txs _)).1.2⟩

end Oneiron
