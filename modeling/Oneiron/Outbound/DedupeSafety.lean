import Oneiron.Outbound.LedgerSafety

/-!
# Outbound/DedupeSafety — one semantic send at a time per dedupe key

    key --▸ reservation --▸ row --▸ key        the reservation's row is bound to the key

A reservation moves on only from a row off the wire, and to a row just put in.  The row it left can
neither retry nor stamp it again; one that waits on its provider cannot settle either.
-/

namespace Oneiron

open Option Function LedgerRun

/-- The row an operation stamps its key's reservation for. -/
def LedgerOp.stamps (id : IntentId) : LedgerOp → Prop
  | .touches row _ | .completes row .. | .defers row .. | .abandons row .. => row = id
  | _ => False

namespace OutboundLedger

variable (endorses : FrozenCall → Bool) (windows : EffectorBudgetLocation → EffectorBudgetWindow)

/-- What a transaction does to the dedupe tables. -/
inductive DedupeStep (s : OutboundLedger) (op : LedgerOp) (t : OutboundLedger) : Prop
  | keeps : t.reservations = s.reservations → t.bindings = s.bindings → DedupeStep s op t
  | reserves (record : IntentLedgerRecord) (key : DedupeKey) (nowS : U64)
      (charge : AdmissionCharge) : op = .admits record (some key) nowS charge →
      s.Admits endorses record (some key) nowS →
      t.rows = update s.rows record.id (some record) →
      t.reservations = update s.reservations key (some ⟨record.id, nowS⟩) →
      t.bindings = update s.bindings record.id (some key) → DedupeStep s op t
  | stamps (id : IntentId) (key : DedupeKey) (reservation : DedupeReservation) (nowS : U64) :
      op.stamps id → s.reservations key = some reservation → reservation.id = id →
      t.reservations = update s.reservations key (some ⟨id, nowS⟩) →
      t.bindings = s.bindings → DedupeStep s op t

variable {record : IntentLedgerRecord} {next : IntentState} {outcome : RecordedOutboundOutcome}

namespace DedupeStep

variable {endorses windows} {s t u : OutboundLedger} {op : LedgerOp} {id : IntentId}
  {record : IntentLedgerRecord} {meter : MeterReading} {nowMs nowS : U64}

theorem of_same (h : s.SameSends t) : DedupeStep endorses s op t := .keeps h.reservations h.bindings

theorem congr (h : DedupeStep endorses s op t) (hrows : u.rows = t.rows)
    (hreservations : u.reservations = t.reservations) (hbindings : u.bindings = t.bindings) :
    DedupeStep endorses s op u := by
  cases h with
  | keeps hr hb => exact .keeps (hreservations.trans hr) (hbindings.trans hb)
  | reserves record key nowS charge hop hadmits hrow hr hb =>
    exact .reserves record key nowS charge hop hadmits (hrows.trans hrow) (hreservations.trans hr)
      (hbindings.trans hb)
  | stamps id key reservation nowS hstamps hheld hid hr hb =>
    exact .stamps id key reservation nowS hstamps hheld hid (hreservations.trans hr)
      (hbindings.trans hb)

/-- A stamp is its own row's. -/
theorem stampReservation_eq (h : s.stampReservation id nowS = some t) :
    t = s ∨ ∃ key reservation, s.reservations key = some reservation ∧ reservation.id = id ∧
      t = { s with reservations := update s.reservations key (some ⟨id, nowS⟩) } := by
  have howns := ownsRetry_of_stamp h
  rw [stampReservation] at h
  split at h
  case h_1 => exact .inl (some.inj h).symm
  case h_2 key hbinding =>
    rw [if_pos howns] at h
    rw [ownsRetry, hbinding] at howns
    obtain ⟨reservation, hheld, hid⟩ := map_eq_some_iff.mp howns
    exact .inr ⟨key, reservation, hheld, of_decide_eq_true hid, (some.inj h).symm⟩

theorem of_stampReservation (hstamps : op.stamps id) (h : s.stampReservation id nowS = some t) :
    DedupeStep endorses s op t := by
  rcases stampReservation_eq h with rfl | ⟨key, reservation, hheld, hid, rfl⟩
  · exact .keeps rfl rfl
  · exact .stamps id key reservation nowS hstamps hheld hid rfl rfl

theorem of_transition {moved : Bool} (hstamps : op.stamps id)
    (h : s.transition endorses windows meter id next outcome nowMs nowS = some (t, moved)) :
    DedupeStep endorses s op t := by
  rcases transition_eq windows h with rfl | ⟨record, stamped, -, -, hstamped, rfl⟩
  · exact .keeps rfl rfl
  have hsame := sameSends_settleReservation windows stamped meter (record.moved next outcome nowMs)
  have hstep : DedupeStep endorses s op stamped := by
    split at hstamped
    · rcases stampReservation_eq hstamped with rfl | ⟨key, reservation, hheld, hid, rfl⟩
      · exact .keeps rfl rfl
      · exact .stamps id key reservation nowS hstamps hheld hid rfl rfl
    · exact some.inj hstamped ▸ .keeps rfl rfl
  exact hstep.congr hsame.rows hsame.reservations hsame.bindings

theorem of_admitNew {key : Option DedupeKey} {charge : AdmissionCharge}
    (h : s.admitNew endorses windows record key nowS charge = some t) :
    DedupeStep endorses s (.admits record key nowS charge) t := by
  obtain ⟨hadmits, rfl⟩ := admitNew_eq h
  have hsame := sameSends_reserveBudget (s.charged windows record charge) record.id
    (charge.debitsAt (s.recordedAt charge.reading)) charge.spend
  cases key with
  | none => exact .keeps hsame.reservations hsame.bindings
  | some key =>
    refine .reserves record key nowS charge rfl hadmits hsame.rows ?_ ?_
    · exact congrArg (update · key (some ⟨record.id, nowS⟩)) hsame.reservations
    · exact congrArg (update · record.id (some key)) hsame.bindings

/-- **Every transaction leaves the dedupe tables, moves a reservation to the row it puts in, or stamps
its own row's.** -/
theorem of_run (h : s.run endorses windows meter op = some t) : DedupeStep endorses s op t := by
  cases op with
  | admits record key nowS charge => exact of_admitNew h
  | suppresses record =>
    rw [run, insertSuppressed] at h
    split at h
    · cases h
    · obtain ⟨-, -, -, rfl⟩ := insertIntent_eq h
      exact .keeps rfl rfl
  | marksPossible id =>
    obtain ⟨record, -, h⟩ := bind_eq_some_iff.mp h
    split at h
    · exact some.inj h ▸ .keeps rfl rfl
    · cases h
  | failsDefinitely id wait nowMs =>
    obtain ⟨record, -, h⟩ := bind_eq_some_iff.mp h
    split at h
    · obtain rfl := some.inj h
      cases wait <;> exact .keeps rfl rfl
    · cases h
  | retries id nowMs =>
    obtain ⟨record, -, h⟩ := bind_eq_some_iff.mp h
    split at h
    · cases h
    · obtain ⟨owns, -, rfl⟩ := map_eq_some_iff.mp h
      have hsame (u : OutboundLedger) (row : IntentLedgerRecord) :=
        sameSends_settleReservation windows u meter row
      exact .keeps (hsame _ _).reservations (hsame _ _).bindings
  | completes id nowMs nowS | abandons id reason nowMs nowS =>
    obtain ⟨⟨u, moved⟩, hmoved, rfl⟩ := map_eq_some_iff.mp h
    exact of_transition rfl hmoved
  | defers id handle nowMs nowS =>
    obtain ⟨⟨u, moved⟩, hmoved, rfl⟩ := map_eq_some_iff.mp h
    have hstep : DedupeStep endorses s (.defers id handle nowMs nowS) u :=
      of_transition rfl hmoved
    exact hstep.congr (by cases moved <;> rfl) (by cases moved <;> rfl) (by cases moved <;> rfl)
  | reconciles call stop nowMs =>
    obtain ⟨record, -, rfl⟩ := map_eq_some_iff.mp h
    have hsame (u : OutboundLedger) (row : IntentLedgerRecord) :=
      sameSends_settleReservation windows u meter row
    cases stop with
    | none => exact .keeps rfl rfl
    | some reason =>
      dsimp only
      split
      · exact .keeps (hsame _ _).reservations (hsame _ _).bindings
      · exact .keeps rfl rfl
  | renews id nowMs =>
    obtain ⟨record, -, rfl⟩ := map_eq_some_iff.mp h
    exact .keeps rfl rfl
  | touches id nowS => exact of_stampReservation rfl h
  | reports id cost => exact some.inj h ▸ of_same (sameSends_keepReportedCost ..)
  | meters location reading amount =>
    obtain rfl := some.inj h
    cases amount <;> exact .keeps rfl rfl

end DedupeStep

/-! ## What every run keeps of the keys -/

/-- A key's reservation names a row bound to the key; a bound row is there, and its key reserved. -/
structure Bound (s : OutboundLedger) : Prop where
  named : ∀ key reservation, s.reservations key = some reservation →
    s.bindings reservation.id = some key
  row : ∀ id key, s.bindings id = some key → (s.rows id).isSome = true
  held : ∀ id key, s.bindings id = some key → (s.reservations key).isSome = true

/-- A row bound to a key whose reservation names another. -/
def MovedOn (s : OutboundLedger) (id : IntentId) (key : DedupeKey) : Prop :=
  s.bindings id = some key ∧ ∃ reservation, s.reservations key = some reservation ∧
    reservation.id ≠ id

/-- Every row its key's reservation left is as a condition has it. -/
def Left (s : OutboundLedger) (P : IntentLedgerRecord → Prop) : Prop :=
  ∀ id key, s.MovedOn id key → ∀ record, s.rows id = some record → P record

/-- Off the wire. -/
def OffWire (record : IntentLedgerRecord) : Prop := record.inFlight = false

/-- Off the wire, and waiting on no provider. -/
def Over (record : IntentLedgerRecord) : Prop :=
  record.inFlight = false ∧ record.state ≠ .deferred

section

variable {endorses windows} {s t : OutboundLedger} {op : LedgerOp} {id : IntentId}
  {key : DedupeKey}

theorem MovedOn.not_owns (h : s.MovedOn id key) : s.ownsRetry id = some false := by
  obtain ⟨hbinding, reservation, hheld, hne⟩ := h
  rw [ownsRetry, hbinding]
  simp [hheld, hne]

/-- A row still there after a step was there before, or was put in. -/
theorem RowStep.row_before (h : RowStep endorses s op t) (hrow : t.rows id = some record)
    (hthere : (s.rows id).isSome = true) :
    s.rows id = some record ∨ ∃ old, s.rows id = some old ∧ LedgerMove old record ∧
      (old.recordedOutcome = some .definiteNonDelivery → record.inFlight = true →
        s.ownsRetry id = some true) ∧
      (record.state = .deferred → old.state ≠ .deferred → s.ownsRetry id = some true) := by
  cases h with
  | keeps hrows => exact .inl (hrows ▸ hrow)
  | inserts new hcall hid hvalid hrows =>
    rw [hrows, update_of_ne fun heq => by simp [heq, hid] at hthere] at hrow
    exact .inl hrow
  | rewrites old new hread hmove hopens hdefers hrows =>
    rw [hrows, update_apply] at hrow
    split at hrow
    case isTrue heq =>
      obtain rfl := some.inj hrow
      subst heq
      exact .inr ⟨old, (getRecord_eq hread).1, hmove, fun houtcome hin => (hopens houtcome hin).1,
        hdefers⟩
    case isFalse => exact .inl hrow

/-- **A row off the wire whose reservation moved on stays off it.** -/
theorem RowStep.offWire (h : RowStep endorses s op t) (hleft : s.MovedOn id key)
    (hoff : ∀ record, s.rows id = some record → OffWire record) (hthere : (s.rows id).isSome = true)
    (hrow : t.rows id = some record) : OffWire record := by
  rcases h.row_before hrow hthere with hold | ⟨old, hold, hmove, hopens, -⟩
  · exact hoff record hold
  · have hshut := hoff old hold
    cases hmove with
    | marks hin | fails nowMs hin => exact absurd hin (by simp [OffWire] at hshut; simp [hshut])
    | opens nowMs hstate houtcome =>
      have howns := hopens houtcome (by simp [IntentLedgerRecord.inFlight, hstate])
      rw [hleft.not_owns] at howns
      cases howns
    | moves next outcome nowMs uncertain => exact RowStep.not_inFlight_moved ..
    | renews => exact hshut

theorem RowStep.ended (h : RowStep endorses s op t) (hleft : s.MovedOn id key)
    (hover : ∀ record, s.rows id = some record → Over record) (hthere : (s.rows id).isSome = true)
    (hrow : t.rows id = some record) : Over record := by
  refine ⟨h.offWire hleft (fun record hold => (hover record hold).1) hthere hrow, fun hstate => ?_⟩
  rcases h.row_before hrow hthere with hold | ⟨old, hold, -, -, hdefers⟩
  · exact (hover record hold).2 hstate
  · have howns := hdefers hstate (hover old hold).2
    rw [hleft.not_owns] at howns
    exact absurd howns nofun

/-- **Who has moved on from a row**: it had before, or an admission just took its key. -/
theorem DedupeStep.movedOn (h : DedupeStep endorses s op t) (hbound : s.Bound)
    (hleft : t.MovedOn id key) : s.MovedOn id key ∨ ∃ record nowS charge reservation,
      op = .admits record (some key) nowS charge ∧ s.Admits endorses record (some key) nowS ∧
      t.rows = update s.rows record.id (some record) ∧ id ≠ record.id ∧
      s.reservations key = some reservation ∧ reservation.id = id := by
  obtain ⟨hbinding, reservation, hheld, hne⟩ := hleft
  cases h with
  | keeps hr hb => exact .inl ⟨hb ▸ hbinding, reservation, hr ▸ hheld, hne⟩
  | stamps row key' old nowS hstamps hold hid hr hb =>
    rw [hr, update_apply] at hheld
    split at hheld
    case isTrue heq =>
      obtain rfl := some.inj hheld
      exact .inl ⟨hb ▸ hbinding, old, heq ▸ hold, hid.trans_ne hne⟩
    case isFalse => exact .inl ⟨hb ▸ hbinding, reservation, hheld, hne⟩
  | reserves record key' nowS charge hop hadmits hrow hr hb =>
    rw [hb, update_apply] at hbinding
    split at hbinding
    case isTrue heq =>
      subst heq
      obtain rfl := some.inj hbinding
      rw [hr, update_self, Option.some.injEq] at hheld
      exact absurd (congrArg DedupeReservation.id hheld).symm hne
    case isFalse hid =>
      rw [hr, update_apply] at hheld
      split at hheld
      case isFalse => exact .inl ⟨hbinding, reservation, hheld, hne⟩
      case isTrue heq =>
        subst heq
        obtain ⟨old, hold⟩ := isSome_iff_exists.mp (hbound.held id key hbinding)
        by_cases hown : old.id = id
        · exact .inr ⟨record, nowS, charge, old, hop, hadmits, hrow, hid, hold, hown⟩
        · exact .inl ⟨hbinding, old, hold, hown⟩

theorem Bound.step (h : s.Bound) (hrows : RowStep endorses s op t)
    (hstep : DedupeStep endorses s op t) : t.Bound := by
  have hthere {id : IntentId} (hsome : (s.rows id).isSome = true) : (t.rows id).isSome = true := by
    obtain ⟨record, hrow⟩ := isSome_iff_exists.mp hsome
    obtain ⟨record', hrow', -⟩ := hrows.later endorses hrow
    simp [hrow']
  cases hstep with
  | keeps hr hb =>
    exact ⟨by rw [hr, hb]; exact h.named, fun id key hbinding => hthere (h.row id key (hb ▸ hbinding)),
      by rw [hr, hb]; exact h.held⟩
  | stamps id key reservation nowS hstamps hheld hid hr hb =>
    refine ⟨fun key' found hfound => ?_, fun id' key' hbinding => hthere (h.row _ _ (hb ▸ hbinding)),
      fun id' key' hbinding => ?_⟩
    · rw [hr, update_apply] at hfound
      rw [hb]
      split at hfound
      case isTrue heq =>
        obtain rfl := some.inj hfound
        exact heq ▸ hid ▸ h.named key reservation hheld
      case isFalse => exact h.named key' found hfound
    · rw [hr, update_apply]
      split
      · rfl
      · exact h.held id' key' (hb ▸ hbinding)
  | reserves record key nowS charge hop hadmits hrow hr hb =>
    refine ⟨fun key' found hfound => ?_, fun id' key' hbinding => ?_, fun id' key' hbinding => ?_⟩
    · rw [hr, update_apply] at hfound
      rw [hb, update_apply]
      split at hfound
      case isTrue heq =>
        obtain rfl := some.inj hfound
        rw [if_pos rfl, heq]
      case isFalse =>
        have hold := h.named key' found hfound
        rw [if_neg, hold]
        exact fun heq => by simpa [heq, hadmits.id] using h.row found.id key' hold
    · rw [hrow, update_apply]
      split
      · rfl
      case isFalse hne =>
        rw [hb, update_of_ne hne] at hbinding
        exact h.row id' key' hbinding
    · rw [hr, update_apply]
      split
      · rfl
      case isFalse hne =>
        rw [hb, update_apply] at hbinding
        split at hbinding
        · exact absurd (some.inj hbinding).symm hne
        · exact h.held id' key' hbinding

variable {reservation : DedupeReservation}

/-- What an admission found of its key's reservation. -/
theorem of_blocked {nowS : U64} (h : s.blocked endorses key nowS = some false)
    (hheld : s.reservations key = some reservation) :
    ∃ record, s.rows reservation.id = some record ∧ OffWire record ∧
      (reservation.stampedAt.satAdd dedupeCooldownS).val ≤ nowS.val := by
  rw [blocked, hheld] at h
  dsimp only at h
  split at h
  case h_1 => exact absurd h nofun
  case h_2 record hread =>
    split at h
    case isTrue => exact absurd h nofun
    case isFalse =>
      rw [Option.some.injEq, Bool.or_eq_false_iff, decide_eq_false_iff_not, not_lt] at h
      exact ⟨record, (getRecord_eq (readIntent_eq hread).1).1, h.1, h.2⟩

theorem Left.step {P : IntentLedgerRecord → Prop} (hbound : s.Bound) (h : s.Left P)
    (hstep : DedupeStep endorses s op t)
    (hkept : ∀ id key, s.MovedOn id key → (∀ record, s.rows id = some record → P record) →
      ∀ record, t.rows id = some record → P record)
    (htaken : ∀ record key nowS charge reservation held,
      op = .admits record (some key) nowS charge → s.Admits endorses record (some key) nowS →
      s.reservations key = some reservation → s.rows reservation.id = some held → P held) :
    t.Left P := by
  intro id key hleft record hrow
  rcases hstep.movedOn hbound hleft with hold | ⟨new, nowS, charge, reservation, hop, hadmits,
    hnew, hne, hheld, rfl⟩
  · exact hkept id key hold (h id key hold) record hrow
  · rw [hnew, update_of_ne hne] at hrow
    exact htaken new key nowS charge reservation record hop hadmits hheld hrow

/-- **A reservation that moved on stays so.** -/
theorem DedupeStep.movedOn_kept (h : DedupeStep endorses s op t) (hbound : s.Bound)
    (hleft : s.MovedOn id key) : t.MovedOn id key := by
  obtain ⟨hbinding, reservation, hheld, hne⟩ := hleft
  cases h with
  | keeps hr hb => exact ⟨hb ▸ hbinding, reservation, hr ▸ hheld, hne⟩
  | stamps row key' old nowS hstamps hold hid hr hb =>
    refine ⟨hb ▸ hbinding, ?_⟩
    rw [hr, update_apply]
    split
    case isTrue heq =>
      rw [heq, hold, Option.some.injEq] at hheld
      exact ⟨_, rfl, hid.symm.trans_ne (hheld ▸ hne)⟩
    case isFalse => exact ⟨reservation, hheld, hne⟩
  | reserves record key' nowS charge hop hadmits hrow hr hb =>
    have hother : record.id ≠ id := by
      rintro rfl
      simpa [hadmits.id] using hbound.row _ key hbinding
    refine ⟨by rw [hb, update_of_ne hother.symm, hbinding], ?_⟩
    rw [hr, update_apply]
    split
    · exact ⟨_, rfl, hother⟩
    · exact ⟨reservation, hheld, hne⟩

/-- **Only its own row stamps a reservation, and only a row just put in takes it.** -/
theorem DedupeStep.reservation_moves (h : DedupeStep endorses s op t)
    (hheld : s.reservations key = some reservation) : t.reservations key = some reservation ∨
      (op.stamps reservation.id ∧ ∃ nowS, t.reservations key = some ⟨reservation.id, nowS⟩) ∨
      ∃ record nowS charge, op = .admits record (some key) nowS charge ∧
        s.Admits endorses record (some key) nowS ∧
        t.reservations key = some ⟨record.id, nowS⟩ := by
  cases h with
  | keeps hr hb => exact .inl (hr ▸ hheld)
  | stamps row key' old nowS hstamps hold hid hr hb =>
    rw [hr, update_apply]
    split
    case isTrue heq =>
      subst heq hid
      rw [hold, Option.some.injEq] at hheld
      exact .inr (.inl ⟨hheld ▸ hstamps, nowS, by rw [hheld]⟩)
    case isFalse => exact .inl hheld
  | reserves record key' nowS charge hop hadmits hrow hr hb =>
    rw [hr, update_apply]
    split
    case isTrue heq =>
      subst heq
      exact .inr (.inr ⟨record, nowS, charge, hop, hadmits, rfl⟩)
    case isFalse => exact .inl hheld

/-- What holds of the keys in every run. -/
structure Keyed (endorses : FrozenCall → Bool) (s : OutboundLedger) : Prop where
  indexed : s.Indexed endorses
  bound : s.Bound
  left : s.Left OffWire

namespace Keyed

theorem fresh (h : s.Fresh) : s.Keyed endorses :=
  ⟨.fresh h, ⟨fun key r hheld => by simp [h.2.2.2.2.1 key] at hheld,
    fun id key hbinding => by simp [h.2.2.2.2.2.1 id] at hbinding,
    fun id key hbinding => by simp [h.2.2.2.2.2.1 id] at hbinding⟩,
    fun id key hleft => by simp [MovedOn, h.2.2.2.2.2.1 id] at hleft⟩

theorem step (h : s.Keyed endorses) {meter : MeterReading}
    (hstep : s.run endorses windows meter op = some t) : t.Keyed endorses := by
  have hrows := RowStep.of_run hstep
  have hkeys := DedupeStep.of_run hstep
  refine ⟨h.indexed.step hrows, h.bound.step hrows hkeys,
    h.left.step h.bound hkeys (fun id key hleft hoff record hrow => ?_) ?_⟩
  · exact hrows.offWire hleft hoff (h.bound.row id key hleft.1) hrow
  · intro record key nowS charge reservation held hop hadmits hheld hrow
    obtain ⟨found, hfound, hoff, -⟩ := of_blocked (hadmits.floor key rfl) hheld
    exact some.inj (hfound.symm.trans hrow) ▸ hoff

theorem of_reachable (h : (outboundSystem endorses windows).Reachable s) : s.Keyed endorses :=
  h.invariant _ fresh fun hs hstep => hs.step hstep

/-- A row in flight holds its key's reservation. -/
theorem holds (h : s.Keyed endorses) (hbinding : s.bindings id = some key)
    (hrow : s.rows id = some record) (hin : record.inFlight = true) :
    ∃ reservation, s.reservations key = some reservation ∧
      reservation.id = id := by
  obtain ⟨reservation, hheld⟩ := isSome_iff_exists.mp (h.bound.held id key hbinding)
  refine ⟨reservation, hheld, ?_⟩
  by_contra hne
  exact absurd (h.left id key ⟨hbinding, reservation, hheld, hne⟩ record hrow) (by simp [OffWire, hin])

/-- What moved on stays off the wire along a run. -/
theorem movedOn_of_run {labels : List (MeterReading × LedgerOp)}
    (hrun : (outboundSystem endorses windows).Run s labels t) (h : s.Keyed endorses)
    (hleft : s.MovedOn id key) : t.Keyed endorses ∧ t.MovedOn id key := by
  induction hrun with
  | nil => exact ⟨h, hleft⟩
  | cons hstep _ ih =>
    exact ih (h.step hstep) ((DedupeStep.of_run hstep).movedOn_kept h.bound hleft)

end Keyed

/-! ## Runs that spare a deferred row -/

/-- No new attempt takes a key over from a row that waits on its provider. -/
def SparesDeferred (s : OutboundLedger) (label : MeterReading × LedgerOp) : Prop :=
  ∀ record key nowS charge reservation held, label.2 = .admits record (some key) nowS charge →
    s.reservations key = some reservation → s.rows reservation.id = some held →
      held.state ≠ .deferred

/-- Every row its key's reservation left is over, or may only retry. -/
structure Spared (endorses : FrozenCall → Bool) (s : OutboundLedger) : Prop
    extends s.Keyed endorses where
  ended : s.Left Over

namespace Spared

theorem of_reachable (h : ((outboundSystem endorses windows).restrict SparesDeferred).Reachable s) :
    s.Spared endorses := by
  refine h.invariant (Spared endorses) (fun hinit => ⟨.fresh hinit, fun id key hleft => ?_⟩) ?_
  · simp [MovedOn, hinit.2.2.2.2.2.1 id] at hleft
  · intro s label t hs hstep
    obtain ⟨hstep, hspares⟩ := hstep
    have hrows := RowStep.of_run hstep
    refine ⟨hs.toKeyed.step hstep, hs.ended.step hs.bound (DedupeStep.of_run hstep)
      (fun id key hleft hover record hrow => ?_) ?_⟩
    · exact hrows.ended hleft hover (hs.bound.row id key hleft.1) hrow
    · intro record key nowS charge reservation held hop hadmits hheld hrow
      obtain ⟨found, hfound, hoff, -⟩ := of_blocked (hadmits.floor key rfl) hheld
      exact ⟨some.inj (hfound.symm.trans hrow) ▸ hoff,
        hspares record key nowS charge reservation held hop hheld hrow⟩

/-- A row that may still be answered holds its key's reservation. -/
theorem owns (h : s.Spared endorses) (hrow : s.rows id = some record)
    (hopen : record.inFlight = true ∨ record.state = .deferred) : s.ownsRetry id = some true := by
  rw [ownsRetry]
  cases hbinding : s.bindings id with
  | none => rfl
  | some key =>
    obtain ⟨reservation, hheld⟩ := isSome_iff_exists.mp (h.bound.held id key hbinding)
    by_cases hown : reservation.id = id
    · simp [hheld, hown]
    · obtain ⟨hoff, hnot⟩ := h.ended id key ⟨hbinding, reservation, hheld, hown⟩ record hrow
      rcases hopen with hin | hdeferred
      · exact absurd hin (by simp [hoff])
      · exact absurd hdeferred hnot

/-- **A send's answer is recorded**, whatever it is. -/
theorem transition_isSome (h : s.Spared endorses) (hrow : s.rows id = some record)
    (hopen : record.inFlight = true ∨ record.state = .deferred)
    (hmay : record.state.mayTransitionTo next = true) (outcome : RecordedOutboundOutcome)
    (meter : MeterReading) (nowMs nowS : U64) :
    (s.transition endorses windows meter id next outcome nowMs nowS).isSome = true := by
  obtain ⟨hid, hvalid, -⟩ := h.indexed.row id record hrow
  have hread : s.getRecord endorses id = some record := by
    rw [getRecord, hrow, filter_eq_some_iff]
    exact ⟨rfl, by simp [hvalid, hid]⟩
  have hne : record.state ≠ next := by
    rintro rfl
    cases hstate : record.state <;> simp [hstate, IntentState.mayTransitionTo] at hmay
  have hstamp (u : OutboundLedger) (hu : u.ownsRetry id = some true) :
      (u.stampReservation id nowS).isSome = true := by
    rw [stampReservation]
    split
    · rfl
    · rw [if_pos hu]
      rfl
  rw [transition, hread, bind_some, if_neg hne, if_pos hmay, isSome_map]
  split
  · exact hstamp _ (h.owns hrow hopen)
  · rfl

theorem beginRetry_isSome (h : s.Spared endorses) (hrow : s.rows id = some record)
    (hstate : record.state = .pending)
    (houtcome : record.recordedOutcome = some .definiteNonDelivery) (meter : MeterReading)
    (nowMs : U64) : (s.beginRetry endorses windows meter id nowMs).isSome = true := by
  obtain ⟨hid, hvalid, -⟩ := h.indexed.row id record hrow
  have hread : s.getRecord endorses id = some record := by
    rw [getRecord, hrow, filter_eq_some_iff]
    exact ⟨rfl, by simp [hvalid, hid]⟩
  rw [beginRetry, hread, bind_some, if_neg (by simp [hstate, houtcome]), isSome_map,
    ownsRetry]
  split
  · rfl
  case h_2 key hbinding => rw [isSome_map, h.bound.held id key hbinding]

end Spared

/-- A row its key's reservation left stamps the reservation no more. -/
theorem DedupeStep.not_touched (h : DedupeStep endorses s op t) (hleft : s.MovedOn id key)
    (hstamps : op.stamps id) : t.reservations key = s.reservations key := by
  obtain ⟨-, reservation, hheld, hne⟩ := hleft
  rcases h.reservation_moves hheld with hkept | ⟨hown, -⟩ | ⟨record, nowS, charge, rfl, -⟩
  · rw [hkept, hheld]
  · cases op <;> first | exact hstamps.elim | exact absurd (hown.symm.trans hstamps) hne
  · exact hstamps.elim

end

/-- At most one send at a time: what a ledger promises of each dedupe key. -/
structure SendsOnce (endorses : FrozenCall → Bool)
    (windows : EffectorBudgetLocation → EffectorBudgetWindow) (s : OutboundLedger) : Prop where
  /-- Two rows of a key in flight are one. -/
  one : ∀ key id id' record record', s.bindings id = some key → s.bindings id' = some key →
    s.rows id = some record → s.rows id' = some record' → record.inFlight = true →
    record'.inFlight = true → id = id'
  /-- A reservation's row is there, bound to the key. -/
  named : ∀ key reservation, s.reservations key = some reservation →
    s.bindings reservation.id = some key ∧ (s.rows reservation.id).isSome = true
  /-- A new attempt of a key finds the reservation's row off the wire and its window over. -/
  spaced : ∀ meter record key nowS charge t,
    s.run endorses windows meter (.admits record (some key) nowS charge) = some t →
    ∀ reservation, s.reservations key = some reservation →
      ∃ held, s.rows reservation.id = some held ∧ held.inFlight = false ∧
        (reservation.stampedAt.satAdd dedupeCooldownS).val ≤ nowS.val
  /-- A row its key's reservation left is never in flight again, nor does it stamp it. -/
  left : ∀ id key, s.MovedOn id key → ∀ labels t, (outboundSystem endorses windows).Run s labels t →
    (∃ record, t.rows id = some record ∧ record.inFlight = false) ∧
      ∀ meter op u, t.run endorses windows meter op = some u → op.stamps id →
        u.reservations key = t.reservations key

/-- No send is orphaned: what may still be answered can be, whatever the answer. -/
structure Answerable (endorses : FrozenCall → Bool)
    (windows : EffectorBudgetLocation → EffectorBudgetWindow) (s : OutboundLedger) : Prop where
  answers : ∀ id record, s.rows id = some record →
    record.inFlight = true ∨ record.state = .deferred → ∀ meter nowMs nowS,
      (s.complete endorses windows meter id nowMs nowS).isSome = true ∧
        ∀ reason, (s.abandon endorses windows meter id reason nowMs nowS).isSome = true
  retries : ∀ id record, s.rows id = some record → record.state = .pending →
    record.recordedOutcome = some .definiteNonDelivery → ∀ meter nowMs,
      (s.beginRetry endorses windows meter id nowMs).isSome = true

section

variable {endorses windows} {s : OutboundLedger}

theorem Keyed.sendsOnce (h : s.Keyed endorses) : s.SendsOnce endorses windows := by
  refine ⟨fun key id id' record record' hbinding hbinding' hrow hrow' hin hin' => ?_,
    fun key reservation hheld => ?_, fun meter record key nowS charge t hstep reservation hheld => ?_,
    fun id key hleft labels t hrun => ?_⟩
  · obtain ⟨reservation, hheld, rfl⟩ := h.holds hbinding hrow hin
    obtain ⟨reservation', hheld', rfl⟩ := h.holds hbinding' hrow' hin'
    rw [hheld, Option.some.injEq] at hheld'
    rw [hheld']
  · have hbinding := h.bound.named key reservation hheld
    exact ⟨hbinding, h.bound.row _ key hbinding⟩
  · obtain ⟨hadmits, -⟩ := admitNew_eq hstep
    exact of_blocked (hadmits.floor key rfl) hheld
  · obtain ⟨hkeyed, hleft'⟩ := Keyed.movedOn_of_run hrun h hleft
    obtain ⟨record, hrow⟩ := isSome_iff_exists.mp (hkeyed.bound.row id key hleft'.1)
    exact ⟨⟨record, hrow, hkeyed.left id key hleft' record hrow⟩,
      fun meter op u hstep => (DedupeStep.of_run hstep).not_touched hleft'⟩

theorem Spared.answerable (h : s.Spared endorses) : s.Answerable endorses windows := by
  refine ⟨fun id record hrow hopen meter nowMs nowS => ?_,
    fun id record hrow hstate houtcome meter nowMs => h.beginRetry_isSome hrow hstate houtcome meter nowMs⟩
  have hmay (next : IntentState) (hnext : next = .done ∨ next = .abandoned) :
      record.state.mayTransitionTo next = true := by
    rcases hopen with hin | hdeferred
    · have hstate : record.state = .pending := by
        simpa using (Bool.and_eq_true_iff.mp hin).1
      rcases hnext with rfl | rfl <;> rw [hstate] <;> rfl
    · rcases hnext with rfl | rfl <;> rw [hdeferred] <;> rfl
  refine ⟨?_, fun reason => ?_⟩
  · rw [complete, isSome_map]
    exact h.transition_isSome hrow hopen (hmay .done (.inl rfl)) ..
  · rw [abandon, isSome_map]
    exact h.transition_isSome hrow hopen (hmay .abandoned (.inr rfl)) ..

end

end OutboundLedger

/-- **One send at a time per dedupe key, and none orphaned.**  Every reachable ledger keeps a key to
one send.  In runs where no new attempt takes a key over from a row that waits on its provider, every
row that may still be answered can be. -/
theorem dedupe_sends_kept (endorses : FrozenCall → Bool)
    (windows : EffectorBudgetLocation → EffectorBudgetWindow) :
    (∀ s, (outboundSystem endorses windows).Reachable s → s.SendsOnce endorses windows) ∧
      ∀ s, ((outboundSystem endorses windows).restrict OutboundLedger.SparesDeferred).Reachable s →
        s.SendsOnce endorses windows ∧ s.Answerable endorses windows := by
  refine ⟨fun s hreach => (OutboundLedger.Keyed.of_reachable hreach).sendsOnce, fun s hreach => ?_⟩
  have hspared := OutboundLedger.Spared.of_reachable hreach
  exact ⟨hspared.toKeyed.sendsOnce, hspared.answerable⟩

namespace LedgerRun

/-- The first call's row in, its key reserved. -/
def reserved : OutboundLedger := admitted.reserve sendKey (intent 1) 0

theorem reserves : (outboundSystem endorses windows).step fresh
    (meter, .admits (pending 1) (some sendKey) 0 free) reserved := rfl

/-- …its provider at work on it, under a handle. -/
def deferred : OutboundLedger :=
  let t := { reserved.putRecord ((pending 1).moved .deferred .deferred 2) with
    reservations := update reserved.reservations sendKey (some ⟨intent 1, 0⟩) }
  t.putSettlement (intent 1) { t.settlement (intent 1) with remoteTask := some [] }

theorem defers : (outboundSystem endorses windows).step reserved
    (meter, .defers (intent 1) [] 2 0) deferred := rfl

/-- A second call, admitted a day later with the first's key. -/
def superseded : OutboundLedger :=
  (deferred.charged windows (pending 2) free).reserve sendKey (intent 2) dedupeCooldownS

theorem supersedes : (outboundSystem endorses windows).step deferred
    (meter, .admits (pending 2) (some sendKey) dedupeCooldownS free) superseded := rfl

end LedgerRun

open LedgerRun

/-- A row that waits on its provider is answered in its time. -/
theorem dedupe_sends_deferred : ∀ meter nowMs nowS,
    (deferred.complete endorses windows meter (intent 1) nowMs nowS).isSome := by
  have hreserves : ((outboundSystem endorses windows).restrict
      OutboundLedger.SparesDeferred).Reachable reserved :=
    .step (.start fresh_fresh) ⟨reserves, fun _ _ _ _ _ _ _ hheld => absurd hheld nofun⟩
  have hdeferred : ((outboundSystem endorses windows).restrict
      OutboundLedger.SparesDeferred).Reachable deferred :=
    .step hreserves ⟨defers, fun _ _ _ _ _ _ hop => absurd hop nofun⟩
  have hanswerable := ((dedupe_sends_kept endorses windows).2 deferred
    hdeferred).2
  intro meter nowMs nowS
  exact (hanswerable.answers (intent 1) _ rfl (.inr rfl) meter nowMs nowS).1

/-- **A send can be orphaned**: once its key's window is over, a row that waits on its provider loses
the reservation to a newer attempt, and its answer is then refused. -/
theorem dedupe_deferred_orphaned : ¬ ∀ s, (outboundSystem endorses
    windows).Reachable s → s.Answerable endorses windows := by
  intro hall
  have hreach : (outboundSystem endorses windows).Reachable superseded :=
    .step (.step (.step (.start fresh_fresh) reserves) defers) supersedes
  have hanswered := ((hall superseded hreach).answers (intent 1) _ rfl (.inr rfl)
    meter 3 0).1
  exact absurd hanswered nofun

end Oneiron
