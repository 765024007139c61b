import Oneiron.Outbound.LedgerSafety
import Oneiron.Outbound.MeterBalance

/-!
# Outbound/SettlementSafety — a send's reserved budget settles once, by what happened

    reserved --done--▸ settled          reserved --abandoned, certainly unsent--▸ released

Where a reservation stands is read off its row in every run.  A settled one is never opened again, and
the usage rows hold exactly what reservations not released still list.
-/

namespace Oneiron

open Option Function

namespace OutboundLedger

variable {endorses : FrozenCall → Bool} {windows : EffectorBudgetLocation → EffectorBudgetWindow}
  {s t : OutboundLedger} {id : IntentId} {op : LedgerOp} {meter : MeterReading}

/-- The reservation kept for a row. -/
def reservation (s : OutboundLedger) (id : IntentId) : Option BudgetReservation :=
  (s.settlement id).reservation

theorem settlement_putSettlement (s : OutboundLedger) (id other : IntentId) (x : IntentSettlement) :
    (s.putSettlement id x).settlement other = if other = id then x else s.settlement other := by
  rw [settlement, putSettlement]
  by_cases hsame : other = id
  · subst hsame
    split
    case isTrue hdefault => simp [hdefault]
    case isFalse => simp
  · rw [if_neg hsame, settlement]
    split <;> simp [Std.ExtTreeMap.getElem?_erase, Std.ExtTreeMap.getElem?_insert, Ne.symm hsame]

/-- What the settlements a write leaves weigh. -/
theorem weigh_putSettlement (w : IntentId → IntentSettlement → ℕ)
    (hdefault : ∀ id, w id .default = 0) (s : OutboundLedger) (id : IntentId)
    (x : IntentSettlement) : (s.putSettlement id x).settlements.weigh w + w id (s.settlement id) =
      s.settlements.weigh w + w id x := by
  have hat : s.settlements.weightAt w id = w id (s.settlement id) := by
    rw [OrderedMap.weightAt, settlement]
    cases s.settlements[id]? <;> simp [hdefault]
  rw [putSettlement, ← hat]
  split
  case isTrue heq => rw [heq, hdefault, add_zero, OrderedMap.weigh_erase_add]
  case isFalse => rw [OrderedMap.weigh_insert_add]

/-- How often a reservation that was not released lists a debit. -/
def owedBy (debit : EffectorBudgetDebit) (settlement : IntentSettlement) : ℕ :=
  settlement.reservation.elim 0 fun reservation =>
    if reservation.status = .released then 0 else tally reservation.debits debit

/-- How often the reservations not released list a debit, with what was charged for none. -/
def owed (s : OutboundLedger) (debit : EffectorBudgetDebit) : ℕ :=
  s.settlements.weigh (fun _ => owedBy debit) + tally s.metered debit

/-- A write that leaves a row's reservation alone owes nothing more. -/
theorem owed_putSettlement (s : OutboundLedger) (id : IntentId) (x : IntentSettlement)
    (debit : EffectorBudgetDebit) : (s.putSettlement id x).owed debit + owedBy debit (s.settlement id) =
      s.owed debit + owedBy debit x := by
  have hweigh := weigh_putSettlement (fun _ => owedBy debit) (fun _ => rfl) s id x
  rw [owed, owed, show (s.putSettlement id x).metered = s.metered from rfl]
  omega

/-- Two ledgers' reservations, usage rows and meter are the same. -/
structure SameBooks (s t : OutboundLedger) : Prop where
  reservation : ∀ id, t.reservation id = s.reservation id
  usage : t.usage = s.usage
  clock : t.clock = s.clock
  owed : t.owed = s.owed

theorem SameBooks.refl (s : OutboundLedger) : s.SameBooks s := ⟨fun _ => rfl, rfl, rfl, rfl⟩

variable {u : OutboundLedger} {r r' : BudgetReservation} {nowS : U64} {usage : UsageTable}
  {clock : ℕ}

theorem SameBooks.trans (h : s.SameBooks t) (h' : t.SameBooks u) : s.SameBooks u :=
  ⟨fun id => (h'.reservation id).trans (h.reservation id), h'.usage.trans h.usage,
    h'.clock.trans h.clock, h'.owed.trans h.owed⟩

theorem sameBooks_putSettlement {x : IntentSettlement} (h : x.reservation = s.reservation id) :
    s.SameBooks (s.putSettlement id x) := by
  refine ⟨fun other => ?_, rfl, rfl, funext fun debit => ?_⟩
  · rw [reservation, settlement_putSettlement]
    split
    case isTrue heq => rw [heq, h]
    case isFalse => rfl
  · have howed := owed_putSettlement s id x debit
    rw [owedBy, owedBy, h] at howed
    exact Nat.add_right_cancel howed

theorem sameBooks_putRecord (s : OutboundLedger) (record : IntentLedgerRecord) :
    s.SameBooks (s.putRecord record) := ⟨fun _ => rfl, rfl, rfl, rfl⟩

theorem sameBooks_stampReservation (h : s.stampReservation id nowS = some t) :
    s.SameBooks t ∧ t.rows = s.rows := by
  rw [stampReservation] at h
  split at h
  · exact some.inj h ▸ ⟨.refl s, rfl⟩
  · split at h
    · exact some.inj h ▸ ⟨⟨fun _ => rfl, rfl, rfl, rfl⟩, rfl⟩
    · cases h

/-- An open reservation settled is owed as it then stands. -/
theorem owed_putReservation (s : OutboundLedger) (hr : s.reservation id = some r)
    (hstatus : r.status = .reserved) (r' : BudgetReservation) (debit : EffectorBudgetDebit) :
    (s.putReservation id r').owed debit + tally r.debits debit =
      s.owed debit + if r'.status = .released then 0 else tally r'.debits debit := by
  have howed := owed_putSettlement s id { s.settlement id with reservation := some r' } debit
  rw [owedBy, owedBy, show (s.settlement id).reservation = some r from hr, elim_some,
    elim_some, hstatus, if_neg nofun] at howed
  exact howed

/-! ## What a transaction does to the reservations -/

/-- A reservation settled, with the usage rows and the meter's clock after. -/
inductive Settles (windows : EffectorBudgetLocation → EffectorBudgetWindow) (s : OutboundLedger)
    (reservation reservation' : BudgetReservation) (usage : UsageTable) (clock : ℕ) : Prop
  | releases : reservation' = { reservation with status := .released } →
      usage = s.usage.release reservation.debits → clock = s.clock →
      Settles windows s reservation reservation' usage clock
  | keeps : reservation' = { reservation with status := .settled } → usage = s.usage →
      clock = s.clock → Settles windows s reservation reservation' usage clock
  | reconciles (actual : ConnectorSpendEstimate) (meter : MeterReading)
      (done : SpendReconciliation) :
      done = .ofRows windows meter.preauthorizes reservation.debits actual
        (s.recordedAt meter.reading) s.usage reservation.spendRows →
      reservation'.status = .settled →
      reservation'.debits = swapDebits reservation.debits done.released done.written →
      reservation'.spendRows = reservation.spendRows →
      (done.released = [] ∧ done.written = [] ∧ reservation'.spend = reservation.spend ∨
        ∃ estimated, reservation'.spend = some (.reconciled estimated actual)) →
      usage = done.usage → clock = s.recordedAt meter.reading →
      Settles windows s reservation reservation' usage clock

theorem Settles.congr (h : Settles windows u r r' usage clock) (husage : u.usage = s.usage)
    (hclock : u.clock = s.clock) : Settles windows s r r' usage clock := by
  have hnow (reading : ℕ) : u.recordedAt reading = s.recordedAt reading := by
    rw [recordedAt, recordedAt, hclock]
  cases h with
  | releases hr' husage' hclock' => exact .releases hr' (husage ▸ husage') (hclock'.trans hclock)
  | keeps hr' husage' hclock' => exact .keeps hr' (husage'.trans husage) (hclock'.trans hclock)
  | reconciles actual meter done hdone hstatus hdebits hrows hspend husage' hclock' =>
    rw [hnow, husage] at hdone
    exact .reconciles actual meter done hdone hstatus hdebits hrows hspend husage'
      (hclock'.trans (hnow _))

/-- What a transaction does to the reservations and the usage rows. -/
inductive BudgetStep (windows : EffectorBudgetLocation → EffectorBudgetWindow) (s : OutboundLedger)
    (op : LedgerOp) (t : OutboundLedger) : Prop
  | keeps : s.SameBooks t → (∀ id record, s.rows id = some record →
      (s.reservation id).isSome = true → ∃ record', t.rows id = some record' ∧
        settlesTo record' = settlesTo record) → BudgetStep windows s op t
  | meters (location : EffectorBudgetLocation) (reading : ℕ) (amount : Option U64) :
      (∀ id, t.reservation id = s.reservation id) → t.rows = s.rows →
      t.owed = s.owed + tally (amount.elim [] fun amount => [⟨location, amount, s.recordedAt reading⟩]) →
      t.usage = (s.meters windows location reading amount).usage →
      t.clock = s.recordedAt reading → BudgetStep windows s op t
  | admits (record : IntentLedgerRecord) (charge : AdmissionCharge) : s.rows record.id = none →
      settlesTo record = none → t.rows = Function.update s.rows record.id (some record) →
      (∀ id r, t.reservation id = some r → s.reservation id = some r ∨ id = record.id ∧
        r = ⟨charge.debitsAt (s.recordedAt charge.reading), .reserved, charge.spend.map Prod.fst,
          (charge.spend.map Prod.snd).getD []⟩) →
      (∀ id, id ≠ record.id → t.reservation id = s.reservation id) →
      t.owed = s.owed + tally (charge.debitsAt (s.recordedAt charge.reading)) →
      t.usage = (charge.debitsAt (s.recordedAt charge.reading)).foldl (.charge windows) s.usage →
      t.clock = s.recordedAt charge.reading → BudgetStep windows s op t
  | settles (id : IntentId) (record record' : IntentLedgerRecord)
      (r r' : BudgetReservation) : s.rows id = some record → settlesTo record = none →
      t.rows = Function.update s.rows id (some record') → settlesTo record' = some r'.status →
      s.reservation id = some r → r.status = .reserved →
      (∀ other, t.reservation other = if other = id then some r' else s.reservation other) →
      t.owed + tally r.debits = s.owed + (if r'.status = .released then 0 else tally r'.debits) →
      Settles windows s r r' t.usage t.clock → BudgetStep windows s op t

/-- A reservation stands where its row leaves it. -/
def Standing (s : OutboundLedger) : Prop :=
  ∀ id r, s.reservation id = some r → ∃ record, s.rows id = some record ∧
    r.status = (settlesTo record).getD .reserved ∧ r.spendRows.Nodup

namespace BudgetStep

variable {record record' : IntentLedgerRecord}

variable {next : IntentState}

/-- Where a row may still move, its reservation is open. -/
theorem settlesTo_of_may (h : record.state.mayTransitionTo next = true) :
    settlesTo record = none := by
  cases hstate : record.state <;> rw [settlesTo, hstate]
  all_goals
    rw [hstate] at h
    exact absurd h (by cases next <;> exact Bool.false_ne_true)

theorem settlesTo_ne {status : ReservationStatus} (h : settlesTo record = some status) :
    status = .settled ∨ status = .released := by
  rw [settlesTo] at h
  split at h
  · exact .inl (some.inj h).symm
  · split at h
    · exact absurd h nofun
    · exact .inr (some.inj h).symm
  · exact absurd h nofun
  · exact absurd h nofun

/-- What reconciling a reservation's spend comes to. -/
theorem reconcileSpend_eq (u : OutboundLedger) (meter : MeterReading) (r : BudgetReservation)
    (actual : ConnectorSpendEstimate) : u.reconcileSpend windows meter r actual = (u, none) ∨
      ∃ (done : SpendReconciliation) (estimated : Option ConnectorSpendEstimate),
        done = .ofRows windows meter.preauthorizes r.debits actual (u.recordedAt meter.reading)
          u.usage r.spendRows ∧
        u.reconcileSpend windows meter r actual =
          ({ u with usage := done.usage, clock := u.recordedAt meter.reading },
            if done.released.isEmpty ∧ done.written.isEmpty then none
            else some (swapDebits r.debits done.released done.written,
              .reconciled estimated actual)) := by
  rw [reconcileSpend]
  split
  case h_1 estimate _ => exact .inr ⟨_, some estimate, rfl, rfl⟩
  case h_2 => exact .inr ⟨_, none, rfl, rfl⟩
  all_goals exact .inl rfl

/-- What settling a reservation comes to. -/
theorem settleReservation_eq (u : OutboundLedger) (meter : MeterReading)
    (record : IntentLedgerRecord) : (u.settleReservation windows meter record = u ∧
      ((settlesTo record).isSome = true → ∀ r, u.reservation record.id = some r →
        r.status ≠ .reserved)) ∨
    ∃ r r' usage clock, u.reservation record.id = some r ∧ r.status = .reserved ∧
      settlesTo record = some r'.status ∧ Settles windows u r r' usage clock ∧
      u.settleReservation windows meter record =
        { u with usage := usage, clock := clock }.putReservation record.id r' := by
  rw [settleReservation]
  split
  case h_2 hnot =>
    refine .inl ⟨rfl, fun hsettles r hr => ?_⟩
    obtain ⟨next, hnext⟩ := isSome_iff_exists.mp hsettles
    exact absurd hr (hnot next r hnext)
  case h_1 next r hnext hr =>
    split
    case isTrue hstatus =>
      refine .inl ⟨rfl, fun _ r' hr' => ?_⟩
      obtain rfl : r' = r := some.inj (hr'.symm.trans hr)
      exact hstatus
    case isFalse hstatus =>
      rw [not_not] at hstatus
      refine .inr ?_
      split
      case isTrue hreleased =>
        exact ⟨r, _, _, _, hr, hstatus, hreleased ▸ hnext, .releases rfl rfl rfl, rfl⟩
      case isFalse hreleased =>
        obtain rfl : next = .settled := (settlesTo_ne hnext).resolve_right hreleased
        split
        case h_3 => exact ⟨r, _, u.usage, u.clock, hr, hstatus, hnext, .keeps rfl rfl rfl, rfl⟩
        case h_1 t debits basis heq =>
          obtain ⟨actual, -, hran⟩ := map_eq_some_iff.mp heq
          rcases reconcileSpend_eq u meter r actual with hidle | ⟨done, estimated, hdone, hswap⟩
          · cases hidle.symm.trans hran
          · rw [hran] at hswap
            obtain ⟨rfl, hsome⟩ := Prod.mk.inj hswap
            split at hsome
            · cases hsome
            · obtain ⟨rfl, rfl⟩ := Prod.mk.inj (some.inj hsome)
              refine ⟨r, { r with
                status := .settled, debits := swapDebits r.debits done.released done.written
                spend := some (.reconciled estimated actual) }, _, _, hr, hstatus, hnext, ?_, rfl⟩
              exact .reconciles actual meter done hdone rfl rfl rfl (.inr ⟨estimated, rfl⟩) rfl rfl
        case h_2 t heq =>
          obtain ⟨actual, -, hran⟩ := map_eq_some_iff.mp heq
          rcases reconcileSpend_eq u meter r actual with hidle | ⟨done, estimated, hdone, hswap⟩
          · obtain rfl := (Prod.mk.inj (hidle.symm.trans hran)).1
            exact ⟨r, _, u.usage, u.clock, hr, hstatus, hnext, .keeps rfl rfl rfl, rfl⟩
          · rw [hran] at hswap
            obtain ⟨rfl, hnone⟩ := Prod.mk.inj hswap
            split at hnone
            case isTrue hempty =>
              rw [List.isEmpty_iff, List.isEmpty_iff] at hempty
              exact ⟨r, { r with status := .settled }, _, _, hr, hstatus, hnext,
                .reconciles actual meter done hdone rfl
                  (by rw [hempty.1, hempty.2, swapDebits, List.foldl_nil, List.append_nil]) rfl
                  (.inl ⟨hempty.1, hempty.2, rfl⟩) rfl rfl, rfl⟩
            case isFalse => cases hnone

/-- A row moved where its reservation is open, then settled by where it came. -/
theorem of_moved (hs : s.Standing) (hrow : s.rows record.id = some record)
    (hopen : settlesTo record = none) (hid : record'.id = record.id) (hbooks : s.SameBooks u)
    (hrows : u.rows = Function.update s.rows record.id (some record')) :
    BudgetStep windows s op (u.settleReservation windows meter record') := by
  rcases settleReservation_eq u meter record' with ⟨hidle, hunsettled⟩ |
    ⟨r, r', usage, clock, hr, hstatus, hnext, hsettles, heq⟩
  · rw [hidle]
    refine .keeps hbooks fun id found hfound hsome => ?_
    rw [hrows, update_apply]
    split
    case isFalse => exact ⟨found, hfound, rfl⟩
    case isTrue hsame =>
      subst hsame
      obtain rfl : found = record := some.inj (hfound.symm.trans hrow)
      obtain ⟨r, hr⟩ := isSome_iff_exists.mp hsome
      obtain ⟨standing, hstanding, hstatus, -⟩ := hs _ r hr
      obtain rfl : standing = found := some.inj (hstanding.symm.trans hrow)
      refine ⟨record', rfl, ?_⟩
      rw [hopen] at hstatus ⊢
      by_contra hne
      refine hunsettled (isSome_iff_ne_none.mpr hne) r ?_ hstatus
      rw [hid, hbooks.reservation, hr]
  · rw [heq]
    rw [hid] at hr heq ⊢
    refine .settles record.id record record' r r' hrow hopen hrows hnext
      (hbooks.reservation record.id ▸ hr) hstatus (fun other => ?_) (funext fun debit => ?_)
      (hsettles.congr hbooks.usage hbooks.clock)
    · rw [reservation, putReservation, settlement_putSettlement]
      split
      · rfl
      · exact hbooks.reservation other
    · have howed := owed_putReservation { u with usage := usage, clock := clock } hr hstatus r' debit
      rw [show ({ u with usage := usage, clock := clock } : OutboundLedger).owed = s.owed from
        hbooks.owed] at howed
      rw [Pi.add_apply, Pi.add_apply, howed]
      split <;> rfl

theorem congr (h : BudgetStep windows s op t) (hbooks : t.SameBooks u) (hrows : u.rows = t.rows) :
    BudgetStep windows s op u := by
  cases h with
  | keeps hsame hkept => exact .keeps (hsame.trans hbooks) (hrows ▸ hkept)
  | meters location reading amount hr hrow howed husage hclock =>
    exact .meters location reading amount (fun id => (hbooks.reservation id).trans (hr id))
      (hrows.trans hrow) (hbooks.owed.trans howed) (hbooks.usage.trans husage)
      (hbooks.clock.trans hclock)
  | admits record charge hnone hopen hrow hr hother howed husage hclock =>
    exact .admits record charge hnone hopen (hrows.trans hrow)
      (fun id r hfound => hr id r (hbooks.reservation id ▸ hfound))
      (fun id hne => (hbooks.reservation id).trans (hother id hne)) (hbooks.owed.trans howed)
      (hbooks.usage.trans husage) (hbooks.clock.trans hclock)
  | settles id record record' r r' hrow hopen hrow' hnext hr hstatus hother howed hsettles =>
    refine .settles id record record' r r' hrow hopen (hrows.trans hrow') hnext hr hstatus
      (fun other => (hbooks.reservation other).trans (hother other)) ?_ ?_
    · rw [hbooks.owed, howed]
    · rw [hbooks.usage, hbooks.clock]
      exact hsettles

/-- An admission's charge is reserved, with its row. -/
theorem of_admitNew {key : Option DedupeKey} {charge : AdmissionCharge} (hs : s.Standing)
    (h : s.admitNew endorses windows record key nowS charge = some t) :
    BudgetStep windows s op t := by
  obtain ⟨hadmits, rfl⟩ := admitNew_eq h
  have hfree : s.reservation record.id = none := by
    by_contra hsome
    obtain ⟨r, hr⟩ := ne_none_iff_exists'.mp hsome
    obtain ⟨found, hfound, -⟩ := hs _ r hr
    exact absurd (hadmits.id.symm.trans hfound) nofun
  have hopen : settlesTo record = none := by rw [settlesTo, hadmits.state]
  have hstep : BudgetStep windows s op ((s.charged windows record charge).reserveBudget record.id
      (charge.debitsAt (s.recordedAt charge.reading)) charge.spend) := by
    rw [reserveBudget]
    split
    case isTrue hempty =>
      rw [List.isEmpty_iff] at hempty
      refine .admits record charge hadmits.id hopen rfl (fun id r hr => .inl hr) (fun _ _ => rfl) ?_
        rfl rfl
      rw [hempty.1, tally_nil, add_zero]
      rfl
    case isFalse =>
      refine .admits record charge hadmits.id hopen rfl (fun id r hr => ?_) (fun id hne => ?_) ?_
        rfl rfl
      · rw [reservation, settlement_putSettlement] at hr
        split at hr
        case isTrue heq => exact .inr ⟨heq, (some.inj hr).symm⟩
        case isFalse => exact .inl hr
      · rw [reservation, settlement_putSettlement, if_neg hne]
        rfl
      · refine funext fun debit => ?_
        have howed := owed_putSettlement (s.charged windows record charge) record.id
          { (s.charged windows record charge).settlement record.id with
            reservation := some ⟨charge.debitsAt (s.recordedAt charge.reading), .reserved,
              charge.spend.map Prod.fst, (charge.spend.map Prod.snd).getD []⟩ } debit
        rw [owedBy, show ((s.charged windows record charge).settlement record.id).reservation = none
          from hfree] at howed
        exact howed
  cases key with
  | none => exact hstep
  | some key => exact hstep.congr ⟨fun _ => rfl, rfl, rfl, rfl⟩ rfl

/-- A row rewritten where it stands: its reservation is left. -/
theorem of_rewritten (hrow : s.rows record.id = some record)
    (hsame : settlesTo record' = settlesTo record) (hbooks : s.SameBooks u)
    (hrows : u.rows = Function.update s.rows record.id (some record')) :
    BudgetStep windows s op u := by
  refine .keeps hbooks fun id found hfound _ => ?_
  rw [hrows, update_apply]
  split
  case isTrue heq =>
    subst heq
    obtain rfl : found = record := some.inj (hfound.symm.trans hrow)
    exact ⟨record', rfl, hsame⟩
  case isFalse => exact ⟨found, hfound, rfl⟩

theorem of_same (hbooks : s.SameBooks t) (hrows : t.rows = s.rows) : BudgetStep windows s op t :=
  .keeps hbooks fun _ record hrow _ => ⟨record, hrows ▸ hrow, rfl⟩

theorem of_transition {outcome : RecordedOutboundOutcome} {moved : Bool} {nowMs : U64}
    (hs : s.Standing)
    (h : s.transition endorses windows meter id next outcome nowMs nowS = some (t, moved)) :
    BudgetStep windows s op t := by
  rcases transition_eq windows h with rfl | ⟨record, stamped, hread, hmay, hstamped, rfl⟩
  · exact of_same (.refl t) rfl
  obtain ⟨hrow, -, rfl⟩ := getRecord_eq hread
  have hstamp : (s.putRecord (record.moved next outcome nowMs)).SameBooks stamped ∧
      stamped.rows = (s.putRecord (record.moved next outcome nowMs)).rows := by
    split at hstamped
    · exact sameBooks_stampReservation hstamped
    · exact some.inj hstamped ▸ ⟨.refl _, rfl⟩
  exact of_moved hs hrow (settlesTo_of_may hmay) rfl ((sameBooks_putRecord ..).trans hstamp.1)
    hstamp.2

/-- **Every transaction leaves the books, meters, reserves what an admission was charged, or settles
one open reservation by where its row came.** -/
theorem of_run (hs : s.Standing) (h : s.run endorses windows meter op = some t) :
    BudgetStep windows s op t := by
  cases op with
  | admits record key nowS charge => exact of_admitNew hs h
  | suppresses record =>
    rw [run, insertSuppressed] at h
    split at h
    · cases h
    · obtain ⟨-, hnone, -, rfl⟩ := insertIntent_eq h
      refine .keeps ⟨fun _ => rfl, rfl, rfl, rfl⟩ fun id found hfound _ => ⟨found, ?_, rfl⟩
      exact (update_of_ne (fun heq => by simp [← heq, hfound] at hnone) ..).trans hfound
  | marksPossible id =>
    obtain ⟨record, hread, hran⟩ := bind_eq_some_iff.mp h
    obtain ⟨hrow, -, rfl⟩ := getRecord_eq hread
    split at hran
    case isTrue hin =>
      obtain rfl := some.inj hran
      refine of_rewritten hrow ?_ (sameBooks_putRecord ..) rfl
      have hstate : record.state = .pending := by simpa using (Bool.and_eq_true_iff.mp hin).1
      simp [settlesTo, hstate]
    case isFalse => cases hran
  | failsDefinitely id wait nowMs =>
    obtain ⟨record, hread, hran⟩ := bind_eq_some_iff.mp h
    obtain ⟨hrow, -, rfl⟩ := getRecord_eq hread
    split at hran
    case isTrue hin =>
      obtain rfl := some.inj hran
      cases wait with
      | none =>
        refine of_rewritten hrow ?_ (sameBooks_putRecord ..) rfl
        rfl
      | some wait =>
        refine of_rewritten hrow ?_ ((sameBooks_putRecord ..).trans (sameBooks_putSettlement rfl)) rfl
        rfl
    case isFalse => cases hran
  | retries id nowMs =>
    obtain ⟨record, hread, hran⟩ := bind_eq_some_iff.mp h
    obtain ⟨hrow, -, rfl⟩ := getRecord_eq hread
    split at hran
    · cases hran
    case isFalse hpermit =>
      push Not at hpermit
      obtain ⟨owns, -, rfl⟩ := map_eq_some_iff.mp hran
      have hopen : settlesTo record = none := by rw [settlesTo, hpermit.1]
      exact of_moved hs hrow hopen (by cases owns <;> rfl)
        ((sameBooks_putRecord ..).trans (sameBooks_putSettlement rfl)) (by cases owns <;> rfl)
  | completes id nowMs nowS | abandons id reason nowMs nowS =>
    obtain ⟨⟨u, moved⟩, hmoved, rfl⟩ := map_eq_some_iff.mp h
    exact of_transition hs hmoved
  | defers id handle nowMs nowS =>
    obtain ⟨⟨u, moved⟩, hmoved, rfl⟩ := map_eq_some_iff.mp h
    cases moved with
    | true => exact (of_transition hs hmoved).congr (sameBooks_putSettlement rfl) rfl
    | false => exact of_transition hs hmoved
  | reconciles call stop nowMs =>
    obtain ⟨record, hread, rfl⟩ := map_eq_some_iff.mp h
    rw [readForAttempt, filter_eq_some_iff, bind_eq_some_iff] at hread
    obtain ⟨⟨id, -, hread⟩, -⟩ := hread
    obtain ⟨hrow, -, rfl⟩ := getRecord_eq (readIntent_eq hread).1
    cases stop with
    | none => exact of_same (.refl s) rfl
    | some reason =>
      dsimp only
      split
      case isTrue hpending =>
        have hopen : settlesTo record = none := by rw [settlesTo, hpending]
        exact of_moved hs hrow hopen rfl ⟨fun _ => rfl, rfl, rfl, rfl⟩ rfl
      case isFalse => exact of_same (.refl s) rfl
  | renews id nowMs =>
    obtain ⟨record, hread, rfl⟩ := map_eq_some_iff.mp h
    obtain ⟨hrow, -, rfl⟩ := getRecord_eq (readIntent_eq hread).1
    refine of_rewritten hrow ?_ (sameBooks_putRecord ..) rfl
    rfl
  | touches id nowS =>
    obtain ⟨hbooks, hrows⟩ := sameBooks_stampReservation h
    exact of_same hbooks hrows
  | reports id cost =>
    obtain rfl := some.inj h
    refine of_same ?_ (sameSends_keepReportedCost ..).rows
    rw [keepReportedCost]
    split
    · exact sameBooks_putSettlement rfl
    · exact .refl s
  | meters location reading amount =>
    obtain rfl := some.inj h
    cases amount with
    | none => exact .meters location reading none (fun _ => rfl) rfl rfl rfl rfl
    | some amount =>
      refine .meters location reading (some amount) (fun _ => rfl) rfl ?_ rfl rfl
      refine funext fun debit => ?_
      have htally := congrFun (tally_cons ⟨location, amount, s.recordedAt reading⟩ s.metered) debit
      rw [Pi.add_apply] at htally
      change s.settlements.weigh (fun _ => owedBy debit) + tally (_ :: s.metered) debit = _
      rw [htally, Pi.add_apply, owed, elim_some]
      omega

end BudgetStep

theorem Settles.spendRows (h : Settles windows s r r' usage clock) :
    r'.spendRows = r.spendRows := by
  cases h with
  | releases hr' | keeps hr' => rw [hr']
  | reconciles actual meter done hdone hstatus hdebits hrows => exact hrows

/-! ## What every run keeps of the books -/

/-- Every reservation stands where its row leaves it, and the usage rows hold what is owed. -/
structure Booked (windows : EffectorBudgetLocation → EffectorBudgetWindow) (s : OutboundLedger) :
    Prop where
  standing : s.Standing
  balanced : s.usage.Balanced windows s.owed s.clock

namespace Booked

theorem fresh (h : s.Fresh) : s.Booked windows := by
  obtain ⟨-, -, hsettlements, husage, -, -, hmetered⟩ := h
  refine ⟨fun id r hr => ?_, fun _ debit => .inl ?_, fun location entry hmem => ?_,
    fun location => ?_⟩
  · simp [reservation, settlement, hsettlements, IntentSettlement.default] at hr
  · rw [husage, owed, hsettlements, hmetered]
    rfl
  · simp [husage] at hmem
  · rw [husage]
    cases windows location with
    | rolling durationS pos => trivial
    | calendar start le => exact fun entry hmem => absurd hmem List.not_mem_nil

theorem standing_step (hs : s.Standing) (hstep : BudgetStep windows s op t) : t.Standing := by
  intro id r hr
  cases hstep with
  | keeps hbooks hkept =>
    rw [hbooks.reservation] at hr
    obtain ⟨record, hrow, hstatus, hnodup⟩ := hs id r hr
    obtain ⟨record', hrow', hsame⟩ := hkept id record hrow (by simp [hr])
    exact ⟨record', hrow', hsame ▸ hstatus, hnodup⟩
  | meters location reading amount hsame hrows =>
    rw [hrows]
    exact hs id r (hsame id ▸ hr)
  | admits record charge hnone hopen hrows hfound =>
    rw [hrows]
    rcases hfound id r hr with hold | ⟨rfl, rfl⟩
    · obtain ⟨found, hrow, hstatus, hnodup⟩ := hs id r hold
      refine ⟨found, (update_of_ne ?_ ..).trans hrow, hstatus, hnodup⟩
      exact fun heq => by simp [heq, hnone] at hrow
    · refine ⟨record, update_self .., by rw [hopen]; rfl, ?_⟩
      cases hspend : charge.spend with
      | none => exact List.nodup_nil
      | some spend => exact charge.nodup_rows spend.1 spend.2 hspend
  | settles row record record' old new hrow hopen hrows hnext hold hstatus hother howed hsettles =>
    rw [hother] at hr
    rw [hrows]
    split at hr
    case isTrue heq =>
      obtain rfl := some.inj hr
      obtain ⟨-, -, -, hnodup⟩ := hs row old hold
      exact ⟨record', heq ▸ update_self .., by rw [hnext]; rfl,
        hsettles.spendRows ▸ hnodup⟩
    case isFalse hne =>
      rw [update_of_ne hne]
      exact hs id r hr

/-- A row's reservation, apart from all else owed. -/
theorem owed_split (hr : s.reservation id = some r) (hstatus : r.status = .reserved) :
    ∃ rest, s.owed = rest + tally r.debits := by
  refine ⟨(s.putSettlement id .default).owed, funext fun debit => ?_⟩
  have howed := owed_putSettlement s id .default debit
  rw [owedBy, show (s.settlement id).reservation = some r from hr, elim_some, hstatus,
    if_neg nofun] at howed
  rw [Pi.add_apply, howed]
  rfl

theorem balanced_step (h : s.Booked windows) (hstep : BudgetStep windows s op t) :
    t.usage.Balanced windows t.owed t.clock := by
  have htick (reading : ℕ) : s.usage.Balanced windows s.owed (s.recordedAt reading) :=
    h.balanced.tick (le_max_left ..)
  cases hstep with
  | keeps hbooks =>
    rw [hbooks.usage, hbooks.owed, hbooks.clock]
    exact h.balanced
  | meters location reading amount hsame hrows howed husage hclock =>
    rw [husage, howed, hclock]
    cases amount with
    | none =>
      exact (htick reading).touch location
    | some amount => exact (htick reading).charge location amount
  | admits record charge hnone hopen hrows hfound hother howed husage hclock =>
    rw [husage, howed, hclock]
    refine (htick charge.reading).charges fun debit hmem => ?_
    obtain ⟨entry, -, rfl⟩ := List.mem_map.mp hmem
    rfl
  | settles row record record' r r' hrow hopen hrows hnext hr hstatus hother howed hsettles =>
    obtain ⟨rest, hrest⟩ := owed_split hr hstatus
    have hbalanced := h.balanced
    rw [hrest] at hbalanced howed
    cases hsettles with
    | releases hr' husage hclock =>
      have hrest' : t.owed = rest := by
        rw [hr', if_pos rfl, add_zero] at howed
        exact add_right_cancel howed
      rw [husage, hclock, hrest']
      exact hbalanced.release
    | keeps hr' husage hclock =>
      have hkept : t.owed = rest + tally r.debits := by
        rw [hr', if_neg nofun] at howed
        exact add_right_cancel howed
      rw [husage, hclock, hkept]
      exact hbalanced
    | reconciles actual meter done hdone hstatus' hdebits hspendRows hspend husage hclock =>
      obtain ⟨-, -, -, hnodup⟩ := h.standing row r hr
      have htraded : t.owed = rest + tally r'.debits := by
        rw [hstatus', if_neg nofun, add_right_comm] at howed
        exact add_right_cancel howed
      rw [husage, hclock, htraded, hdebits, hdone]
      exact SpendReconciliation.ofRows_balanced hbalanced (le_max_left ..) hnodup

theorem step (h : s.Booked windows) (hstep : BudgetStep windows s op t) : t.Booked windows :=
  ⟨standing_step h.standing hstep, balanced_step h hstep⟩

theorem of_reachable (h : (outboundSystem endorses windows).Reachable s) : s.Booked windows :=
  h.invariant _ fresh fun hs hstep => hs.step (.of_run hs.standing hstep)

end Booked

/-- **A reservation stays as it is, or its one settling takes it.** -/
theorem BudgetStep.reservation_moves (h : BudgetStep windows s op t) (hs : s.Standing)
    (hr : s.reservation id = some r) : t.reservation id = some r ∨
      r.status = .reserved ∧ ∃ r', t.reservation id = some r' ∧ r'.status ≠ .reserved ∧
        s.Settles windows r r' t.usage t.clock := by
  cases h with
  | keeps hbooks => exact .inl ((hbooks.reservation id).trans hr)
  | meters location reading amount hsame => exact .inl ((hsame id).trans hr)
  | admits record charge hnone hopen hrows hfound hother =>
    refine .inl ((hother id ?_).trans hr)
    rintro rfl
    obtain ⟨found, hrow, -⟩ := hs _ r hr
    exact absurd (hnone.symm.trans hrow) nofun
  | settles row record record' old new hrow hopen hrows hnext hold hstatus hother howed hsettles =>
    rw [hother]
    split
    case isFalse => exact .inl hr
    case isTrue heq =>
      subst heq
      obtain rfl : old = r := some.inj (hold.symm.trans hr)
      refine .inr ⟨hstatus, new, rfl, ?_, hsettles⟩
      rcases settlesTo_ne hnext with hsettled | hreleased
      · rw [hsettled]
        exact nofun
      · rw [hreleased]
        exact nofun

/-- Over a run, a settled reservation is as it was. -/
theorem reservation_of_run {labels : List (MeterReading × LedgerOp)}
    (hrun : (outboundSystem endorses windows).Run s labels t) (hs : s.Booked windows)
    (hr : s.reservation id = some r) :
    ∃ r', t.reservation id = some r' ∧ (r.status ≠ .reserved → r' = r) := by
  induction hrun generalizing r with
  | nil => exact ⟨r, hr, fun _ => rfl⟩
  | cons hstep _ ih =>
    have hbudget := BudgetStep.of_run hs.standing hstep
    rcases hbudget.reservation_moves hs.standing hr with hkept | ⟨hreserved, r', hr', -⟩
    · exact ih (hs.step hbudget) hkept
    · obtain ⟨last, hlast, -⟩ := ih (hs.step hbudget) hr'
      exact ⟨last, hlast, fun hne => absurd hreserved hne⟩

end OutboundLedger

/-- **A reserved budget settles once, by what happened to its send.**  A reservation is settled exactly
when its row is done, released exactly when its row was abandoned and certainly never went, and
reserved otherwise; once out of reserved it stays as it is; it leaves reserved by giving its debits
back, by keeping them, or by trading its estimate's for the reported cost's; and the usage rows hold
each debit as often as reservations not released list it, until its window is past. -/
theorem reservations_settle_once (endorses : FrozenCall → Bool)
    (windows : EffectorBudgetLocation → EffectorBudgetWindow) :
    ∀ s, (outboundSystem endorses windows).Reachable s →
      (∀ id r, s.reservation id = some r → ∃ record, s.rows id = some record ∧
        (r.status = .settled ↔ record.state = .done) ∧
        (r.status = .released ↔ record.state = .abandoned ∧ record.deliveryUncertain = false) ∧
        (r.status = .reserved ↔ record.state = .pending ∨ record.state = .deferred ∨
          record.state = .abandoned ∧ record.deliveryUncertain = true)) ∧
      (∀ labels t, (outboundSystem endorses windows).Run s labels t → ∀ id r,
        s.reservation id = some r → ∃ r', t.reservation id = some r' ∧
          (r.status ≠ .reserved → r' = r)) ∧
      (∀ meter op t, s.run endorses windows meter op = some t → ∀ id r,
        s.reservation id = some r → t.reservation id = some r ∨ r.status = .reserved ∧
          ∃ r', t.reservation id = some r' ∧ r'.status ≠ .reserved ∧
            s.Settles windows r r' t.usage t.clock) ∧
      (s.clock < U64.top → ∀ debit : EffectorBudgetDebit,
        (s.usage debit.location).entries.count debit.entry = s.owed debit ∨
          (s.usage debit.location).entries.count debit.entry = 0 ∧ debit.at_ < s.clock) := by
  intro s hreach
  have hbooked := OutboundLedger.Booked.of_reachable hreach
  refine ⟨fun id r hr => ?_, fun labels t hrun id r hr =>
      OutboundLedger.reservation_of_run hrun hbooked hr, fun meter op t hstep id r hr => ?_,
    hbooked.balanced.count⟩
  · obtain ⟨record, hrow, hstatus, -⟩ := hbooked.standing id r hr
    refine ⟨record, hrow, ?_⟩
    rw [hstatus, OutboundLedger.settlesTo]
    cases record.state <;> cases record.deliveryUncertain <;> simp
  · exact (OutboundLedger.BudgetStep.of_run hbooked.standing hstep).reservation_moves
      hbooked.standing hr

namespace LedgerRun

def location : EffectorBudgetLocation := ⟨⟨List.replicate 16 9, by simp⟩, ⟨.key, 0⟩⟩

/-- A charge of one send. -/
def oneSend : AdmissionCharge := ⟨1, [(location, 1)], none, AdmissionCharge.nodup_none⟩

/-- A charge of one send for an estimate. -/
def pricedSend : AdmissionCharge :=
  ⟨1, [(location, 5)], some (.estimated ⟨"USD", 5⟩, [location]), fun _ _ h =>
    (Prod.mk.inj (some.inj h)).2 ▸ List.nodup_singleton _⟩

/-- A send stopped before it went, and one delivered for less than its estimate. -/
def settled : OutboundLedger :=
  [.admits (pending 1) none 0 oneSend, .abandons (intent 1) .ownerStopped 2 0,
    .admits (pending 2) none 0 pricedSend, .reports (intent 2) ⟨"USD", 3⟩,
    .completes (intent 2) 3 0].foldl tx fresh

end LedgerRun

open LedgerRun

/-- The first gives its charge back, and the second owes what it cost. -/
theorem reservations_settle_reconciled :
    (∃ record, settled.rows (intent 1) = some record ∧ record.state = .abandoned ∧
      record.deliveryUncertain = false) ∧
    settled.reservation (intent 2) = some
      ⟨[⟨location, 3, 1⟩], .settled, some (.reconciled (some ⟨"USD", 5⟩) ⟨"USD", 3⟩), [location]⟩ ∧
    (settled.usage location).entries.count (1, 3) = settled.owed ⟨location, 3, 1⟩ := by
  obtain ⟨hstands, -, -, hcounts⟩ := reservations_settle_once endorses windows settled (reachable_txs _)
  obtain ⟨record, hrow, -, hreleased, -⟩ := hstands (intent 1) ⟨[⟨location, 1, 1⟩], .released, none, []⟩
    (by decide +kernel)
  refine ⟨⟨record, hrow, hreleased.mp rfl⟩, by decide +kernel,
    (hcounts (by decide +kernel) ⟨location, 3, 1⟩).resolve_right ?_⟩
  exact fun hpast => absurd hpast.2 (by decide +kernel)

end Oneiron
