import Oneiron.Llm.BudgetMoves

/-!
# Llm/BudgetDispatch — one lease, one call, over every run of its holders

A start is let through where the lease has none (`started_step`), and only a call proved unsent takes
it back (`step_keeps`); so two starts have an unsent between them, and what was started closes
settled, never aborted.
-/

open Std

namespace Oneiron

open BudgetState U64 Prod

open Option

/-- What holders of leases do: call the meter, or let a lease go, which tells the meter nothing. -/
inductive HolderStep where
  | call (op : BudgetOp) (result : BudgetResult)
  | drop (lease : BudgetLease)

namespace HolderStep

/-- A call is started under a lease. -/
def started (lease : BudgetLease) (call : DispatchBinding) : HolderStep :=
  .call (.beginDispatch lease call) (.dispatch (.ok ()))

/-- A call is proved unsent. -/
def unsent (lease : BudgetLease) : HolderStep := .call (.markUnsent lease) (.unsent (.ok ()))

end HolderStep

/-- A meter and every holder of its leases. -/
def budgetHolders : System BudgetState HolderStep where
  init := budgetMeters.init
  step state label next :=
    match label with
    | .call op result => budgetMeters.step state (op, result) next
    | .drop _ => next = state

/-- What an admission binds its lease to. -/
def BudgetOp.binding? : BudgetOp → Option DispatchBinding
  | .admitFreeWork binding _ | .admitReserveBound _ binding | .admitCallBound _ _ binding => some binding
  | _ => none

/-- What a settlement books: the use it settles, where the lease is metered. -/
structure Settles (state : BudgetState) (op : BudgetOp) (record : LeaseRecord) (next : BudgetState) :
    Prop where
  metered : record.metered = true →
    next.usedUnits.val = min (state.usedUnits.val + (op.settledUse state record).val) U64.top
  unmetered : record.metered = false → next.spent = state.spent

/-- What a step leaves of a lease's record. -/
structure LeaseKeeps (lease : BudgetLease) (state : BudgetState) (label : HolderStep)
    (next : BudgetState) (record record' : LeaseRecord) : Prop where
  binding : record'.binding = record.binding
  metered : record'.metered = record.metered
  reserve : record'.reserveUnits = record.reserveUnits
  dispatched : record.dispatched = true → record'.dispatched = true ∨ label = .unsent lease
  /-- It closes by a call that names it: settled, or aborted where nothing was started. -/
  closed : record'.state = record.state ∨ record.state = .opened ∧ ∃ op result,
    label = .call op result ∧ op.lease? = some lease ∧
    ((∃ used, record'.state = .settled used ∧ Settles state op record next) ∨
      (record'.state = .aborted ∧ op = .abort lease ∧ record.dispatched = false))

variable {state next : BudgetState} {lease : BudgetLease} {record : LeaseRecord} {op : BudgetOp}

theorem LeaseKeeps.refl (label : HolderStep) : LeaseKeeps lease state label next record record :=
  ⟨rfl, rfl, rfl, .inl, .inl rfl⟩

/-- The rise of a reading over a watermark, added to the watermark. -/
theorem val_max_eq (a b : U64) : (a.max b).val = min (a.val + (b.satSub a).val) U64.top := by
  have htop := a.le_top
  have htop' := b.le_top
  rw [val_max, val_satSub]
  omega

variable {call : DispatchBinding} {labels : List HolderStep} {binding : Option DispatchBinding}
  {label : HolderStep} {later : BudgetState} {admission : BudgetAdmission}

namespace BudgetState

/-- A record stands as it was written. -/
theorem leaseRecord_insert {written : LeaseRecord} (hrecord : state.leaseRecord lease = some record)
    (hguard : next.guardIdentity = state.guardIdentity)
    (hleases : next.leases = state.leases.insert lease.seq written) :
    next.leaseRecord lease = some written := by
  rw [leaseRecord, hguard, if_pos (leaseRecord_eq_some hrecord).1, hleases,
    ExtTreeMap.getElem?_insert_self]

/-- An open lease settled for free or for what it is booked. -/
theorem keeps_settled (used : U64) (result : BudgetResult) {booked : U64} (hlease : op.lease? = some lease)
    (hrecord : state.leaseRecord lease = some record) (hopen : record.state = .opened)
    (hbooked : booked.val =
      min (state.usedUnits.val + (op.settledUse state record).val) U64.top) :
    let closed := state.closeLease lease record (.settled used)
    let next := (if record.metered then
      { closed with usedUnits := booked }.applyUsageForLease record (op.settledUse state record)
      else closed).settlement.2
    ∃ record', next.leaseRecord lease = some record' ∧
      LeaseKeeps lease state (.call op result) next record record' := by
  intro closed next
  refine ⟨{ record with state := .settled used }, ?_, rfl, rfl, rfl, .inl, .inr ⟨hopen, op, result, rfl,
    hlease, .inl ⟨used, rfl, fun hmetered => ?_, fun hfree => ?_⟩⟩⟩
  · refine leaseRecord_insert hrecord ?_ ?_
    · simp only [next]
      split <;> rfl
    · simp only [next]
      split <;> rfl
  · simp only [next, hmetered, if_true]
    exact hbooked
  · simp only [next, hfree, Bool.false_eq_true, if_false]
    exact (spent_fire _).trans (spent_close ..)

variable {result : BudgetResult}

theorem keeps_settleUsage {callUsed : U64} (hlease : op.lease? = some lease)
    (hrecord : state.leaseRecord lease = some record) (huse : op.settledUse state record = callUsed)
    :
    ∃ record', (state.settleUsage lease callUsed).2.leaseRecord lease = some record' ∧
      LeaseKeeps lease state (.call op result) (state.settleUsage lease callUsed).2 record record' := by
  unfold settleUsage
  rw [hrecord]
  dsimp only
  cases hstate : record.state with
  | aborted | settled units => exact ⟨record, hrecord, .refl _⟩
  | opened =>
    subst huse
    exact keeps_settled _ result hlease hrecord hstate (val_satAdd ..)

theorem keeps_settleAbsolute {absoluteUsed : U64} (hlease : op.lease? = some lease)
    (hrecord : state.leaseRecord lease = some record)
    (huse : op.settledUse state record = absoluteUsed.satSub state.usedUnits) :
    ∃ record', (state.settleAbsolute lease absoluteUsed).2.leaseRecord lease = some record' ∧
      LeaseKeeps lease state (.call op result) (state.settleAbsolute lease absoluteUsed).2 record
        record' := by
  unfold settleAbsolute
  rw [hrecord]
  dsimp only
  cases hstate : record.state with
  | aborted | settled units => exact ⟨record, hrecord, .refl _⟩
  | opened =>
    have hbooked : (state.usedUnits.max absoluteUsed).val =
        min (state.usedUnits.val + (op.settledUse state record).val) U64.top := by
      rw [huse, val_max_eq]
    have hkeeps := keeps_settled absoluteUsed result hlease hrecord hstate hbooked
    rw [huse] at hkeeps
    exact hkeeps

section

variable (hrecord : state.leaseRecord lease = some record)

include hrecord

theorem keeps_abort : ∃ record', (state.abort lease).2.leaseRecord lease = some record' ∧
      LeaseKeeps lease state (.call (.abort lease) result) (state.abort lease).2 record record' := by
  unfold abort
  rw [hrecord]
  dsimp only
  split
  · exact keeps_settleUsage rfl hrecord rfl
  · next hnot =>
    cases hstate : record.state with
    | aborted | settled units => exact ⟨record, hrecord, .refl _⟩
    | opened =>
      have hfresh : record.dispatched = false := by simpa [hstate] using hnot
      refine ⟨{ record with state := .aborted }, leaseRecord_insert hrecord rfl rfl, rfl, rfl, rfl, .inl,
        .inr ⟨hstate, _, result, rfl, rfl, .inr ⟨rfl, rfl, hfresh⟩⟩⟩

theorem keeps_beginDispatch :
    ∃ record', (state.beginDispatch lease call).2.leaseRecord lease = some record' ∧
      LeaseKeeps lease state (.call (.beginDispatch lease call) result)
        (state.beginDispatch lease call).2 record record' := by
  have hrefused : ∃ record', state.leaseRecord lease = some record' ∧
      LeaseKeeps lease state (.call (.beginDispatch lease call) result) state record record' :=
    ⟨record, hrecord, .refl _⟩
  unfold beginDispatch
  rw [hrecord]
  dsimp only
  split
  · exact hrefused
  split
  · exact hrefused
  repeat' split
  all_goals first
    | exact hrefused
    | exact ⟨{ record with dispatched := true }, leaseRecord_insert hrecord rfl rfl, rfl, rfl, rfl,
        fun _ => .inl rfl, .inl rfl⟩

theorem keeps_markUnsent : ∃ record', (state.markUnsent lease).2.leaseRecord lease = some record' ∧
      LeaseKeeps lease state (.call (.markUnsent lease) (.unsent (state.markUnsent lease).1))
        (state.markUnsent lease).2 record record' := by
  unfold markUnsent
  rw [hrecord]
  dsimp only
  split
  · exact ⟨record, hrecord, .refl _⟩
  · exact ⟨{ record with dispatched := false }, leaseRecord_insert hrecord rfl rfl, rfl, rfl, rfl,
      fun _ => .inr rfl, .inl rfl⟩

end

/-- A call that names another lease, or none, leaves a lease's record. -/
theorem leaseRecord_of_lease_ne (h : Conserved state) (hrecord : state.leaseRecord lease = some record)
    (hother : op.lease? ≠ some lease) : (state.call op).2.leaseRecord lease = some record := by
  obtain ⟨hguard, hget⟩ := leaseRecord_eq_some hrecord
  -- what it writes is another lease's record
  have hwrite : ∀ {next : BudgetState} {seq : ℕ} {written : LeaseRecord},
      next.guardIdentity = state.guardIdentity → next.leases = state.leases.insert seq written →
      seq ≠ lease.seq → next.leaseRecord lease = some record := by
    intro next seq written hguard' hleases hne
    rw [leaseRecord, hguard', if_pos hguard, hleases, ExtTreeMap.getElem?_insert,
      if_neg (by simpa using hne), hget]
  have hfresh : state.nextLeaseSeq + 1 ≠ lease.seq := fun heq => by
    rw [← heq, h.fresh] at hget
    exact nomatch hget
  have happart : ∀ {other : BudgetLease} {written : LeaseRecord}, op.lease? = some other →
      state.leaseRecord other = some written → other.seq ≠ lease.seq := by
    rintro ⟨seq, guard⟩ written hlease hwritten heq
    refine hother (hlease.trans (congrArg some ?_))
    have hsame : guard = lease.guardIdentity := (leaseRecord_eq_some hwritten).1.trans hguard.symm
    exact congr (congrArg BudgetLease.mk heq) hsame
  generalize hnext : (state.call op).2 = next
  have hmove : CallMoves state op next := hnext ▸ moves_of_call state op
  cases hmove with
  | refused heq =>
    rcases heq with rfl | rfl
    · exact hrecord
    · exact hrecord
  | admitted binding | issued binding => exact hwrite rfl rfl hfresh
  | closed hlease hwritten | charged hlease hwritten =>
    exact hwrite rfl rfl (happart hlease hwritten)
  | marked dispatched hlease hwritten => exact hwrite rfl rfl (happart hlease hwritten)
  | revised => exact hrecord

end BudgetState

/-! ## One step -/

/-- **What one step leaves of a lease**: its binding and reserve, its start unless proved unsent, and
its state unless it is settled, or aborted where nothing was started. -/
theorem step_keeps (h : Conserved state) (hrecord : state.leaseRecord lease = some record)
    (hstep : budgetHolders.step state label next) :
    ∃ record', next.leaseRecord lease = some record' ∧
      LeaseKeeps lease state label next record record' := by
  cases label with
  | drop other =>
    obtain rfl : next = state := hstep
    exact ⟨record, hrecord, .refl _⟩
  | call op result =>
    have hresult : (state.call op).1 = result := congrArg fst hstep
    obtain rfl : (state.call op).2 = next := congrArg snd hstep
    by_cases hlease : op.lease? = some lease
    · cases op with
      | settleAbsolute other absoluteUsed | settleTerminal other usage =>
        obtain rfl := some.inj hlease
        exact keeps_settleAbsolute rfl hrecord rfl
      | settleUsage other callUsed | settlePerCall other usage =>
        obtain rfl := some.inj hlease
        exact keeps_settleUsage rfl hrecord rfl
      | settleReserved other =>
        obtain rfl := some.inj hlease
        have hreserved : state.settleReserved other = state.settleUsage other record.reserveUnits := by
          rw [settleReserved, hrecord]
        simp only [call, hreserved]
        exact keeps_settleUsage rfl hrecord rfl
      | abort other =>
        obtain rfl := some.inj hlease
        exact keeps_abort hrecord
      | beginDispatch other call =>
        obtain rfl := some.inj hlease
        exact keeps_beginDispatch hrecord
      | markUnsent other =>
        obtain rfl := some.inj hlease
        exact hresult ▸ keeps_markUnsent hrecord
      | admitAny | admitForRequest | admitPaidForRequest | admitLocal | admitReserve
      | admitFreeWork | admitReserveBound | admitCallBound | reviseLine => cases hlease
    · exact ⟨record, leaseRecord_of_lease_ne h hrecord hlease, .refl _⟩

/-- **A start** is of an open lease that has none, under the exact binding it is bound to. -/
theorem started_step (hstep : budgetHolders.step state (.started lease call) next) :
    ∃ record, state.leaseRecord lease = some record ∧ record.state = .opened ∧
      record.binding = some call ∧ record.dispatched = false ∧
      next.leaseRecord lease = some { record with dispatched := true } := by
  have hcall : state.beginDispatch lease call = (.ok (), next) :=
    Prod.ext (BudgetResult.dispatch.inj (congrArg Prod.fst hstep)) (congrArg Prod.snd hstep :)
  unfold beginDispatch at hcall
  cases hrecord : state.leaseRecord lease with
  | none =>
    rw [hrecord] at hcall
    exact nomatch (mk.inj hcall).1
  | some record =>
    rw [hrecord] at hcall
    dsimp only at hcall
    split at hcall
    · exact nomatch (mk.inj hcall).1
    next hopen =>
    split at hcall
    · exact nomatch (mk.inj hcall).1
    next binding hbinding =>
    split at hcall
    · exact nomatch (mk.inj hcall).1
    next hfresh =>
    split at hcall
    · exact nomatch (mk.inj hcall).1
    next hsubject =>
    split at hcall
    · exact nomatch (mk.inj hcall).1
    next hroute =>
    split at hcall
    · exact nomatch (mk.inj hcall).1
    next hoffer =>
    split at hcall
    · exact nomatch (mk.inj hcall).1
    next hdigest =>
    obtain rfl := (mk.inj hcall).2
    obtain ⟨hoffer, hlocality⟩ := not_or.mp hoffer
    have hexact : binding = call := by
      exact DispatchBinding.mk.injEq .. ▸ ⟨not_not.mp hsubject, not_not.mp hroute,
        not_not.mp hlocality, not_not.mp hoffer, not_not.mp hdigest⟩
    exact ⟨record, rfl, not_not.mp hopen, hexact ▸ hbinding, by simpa using hfresh,
      leaseRecord_insert hrecord rfl rfl⟩

/-- A lease fresh from an admission. -/
def FreshLease (state : BudgetState) (lease : BudgetLease) (binding : Option DispatchBinding) : Prop :=
  ∃ record, state.leaseRecord lease = some record ∧ record.state = .opened ∧
    record.dispatched = false ∧ record.binding = binding

theorem freshLease_issue (state : BudgetState) (reserve : U64) (metered : Bool)
    (allocation : ReserveAllocation) (binding : Option DispatchBinding) :
    FreshLease (state.issueLease reserve metered allocation binding).2
      (state.issueLease reserve metered allocation binding).1 binding := by
  refine ⟨⟨reserve, metered, .opened, allocation.matchedRows, allocation.floorAllocations,
    allocation.sharedUnits, binding, false⟩, ?_, rfl, rfl, rfl⟩
  have hguard : (state.issueLease reserve metered allocation binding).1.guardIdentity =
      (state.issueLease reserve metered allocation binding).2.guardIdentity := rfl
  rw [leaseRecord, if_pos hguard]
  exact ExtTreeMap.getElem?_insert_self

theorem freshLease_metered {reserve : U64} {purpose : Option CallPurpose}
    (h : state.meteredAdmission reserve purpose binding = (.ok admission, next)) :
    FreshLease next admission.lease binding := by
  unfold meteredAdmission reserveBound at h
  by_cases hreserve : reserve = 0
  · rw [if_pos hreserve] at h
    exact nomatch (mk.inj h).1
  · rw [if_neg hreserve] at h
    cases hplan : state.planReserve reserve purpose with
    | deniedByCap | deniedByCapacity =>
      rw [hplan] at h
      exact nomatch (mk.inj h).1
    | admitted allocation =>
      rw [hplan] at h
      obtain ⟨hok, rfl⟩ := mk.inj h
      obtain rfl := Except.ok.inj hok
      exact freshLease_issue (state.commitReservation reserve allocation) reserve true allocation binding

theorem freshLease_unmetered (h : state.unmeteredAdmission binding = (.ok admission, next)) :
    FreshLease next admission.lease binding := by
  obtain ⟨hok, rfl⟩ := mk.inj h
  obtain rfl := Except.ok.inj hok
  exact freshLease_issue state 0 false {} binding

/-- **A lease issued** is open, unstarted, and bound as its admission said. -/
theorem issued_step {op : BudgetOp}
    (hstep : budgetHolders.step state (.call op (.admission (.ok admission))) next) :
    FreshLease next admission.lease op.binding? := by
  have hcall : state.call op = (.admission (.ok admission), next) := hstep
  have hanswer : ∀ {answer : Except BudgetDenied BudgetAdmission × BudgetState},
      answer.map BudgetResult.admission id = (.admission (.ok admission), next) →
      answer = (.ok admission, next) := fun heq =>
    Prod.ext (BudgetResult.admission.inj (congrArg Prod.fst heq)) (congrArg Prod.snd heq :)
  cases op with
  | admitAny | admitPaidForRequest envelope | admitReserve reserve
  | admitReserveBound reserve binding | admitCallBound reserve purpose binding =>
    exact freshLease_metered (hanswer hcall)
  | admitForRequest envelope =>
    have hadmitted : state.admitForRequest envelope = (.ok admission, next) := hanswer hcall
    unfold admitForRequest at hadmitted
    dsimp only at hadmitted
    split at hadmitted
    · exact freshLease_unmetered hadmitted
    · exact freshLease_metered hadmitted
  | admitLocal => exact freshLease_unmetered (hanswer hcall)
  | admitFreeWork binding keyless =>
    have hadmitted : state.admitFreeWork binding keyless = (.ok admission, next) := hanswer hcall
    unfold admitFreeWork at hadmitted
    dsimp only at hadmitted
    split at hadmitted
    · exact freshLease_unmetered hadmitted
    · exact nomatch (mk.inj hadmitted).1
  | settleAbsolute | settleTerminal | settleUsage | settlePerCall | settleReserved | abort
  | beginDispatch | markUnsent | reviseLine => exact nomatch (mk.inj hcall).1

/-! ## Runs -/

theorem step_conserved (h : Conserved state) (hstep : budgetHolders.step state label next) :
    Conserved next := by
  cases label with
  | drop other => exact (show next = state from hstep) ▸ h
  | call op result =>
    have hnext : (state.call op).2 = next := congrArg snd hstep
    exact hnext ▸ (moves_of_call state op).conserved h

theorem conserved_of_holders (h : budgetHolders.Reachable state) : Conserved state := by
  refine h.invariant Conserved (fun hinit => ?_) fun hs hstep => step_conserved hs hstep
  exact conserved_of_reachable (.start hinit)

/-- **What a run leaves of a lease**: its binding, its start unless proved unsent, and its end. -/
theorem run_keeps (hrun : budgetHolders.Run state labels later) (h : Conserved state)
    (hrecord : state.leaseRecord lease = some record) :
    Conserved later ∧ ∃ record', later.leaseRecord lease = some record' ∧
      record'.binding = record.binding ∧
      (record.dispatched = true → .unsent lease ∉ labels → record'.dispatched = true ∧
        (record'.state = .aborted → record.state = .aborted)) := by
  induction hrun generalizing record with
  | nil s => exact ⟨h, record, hrecord, rfl, fun hstarted _ => ⟨hstarted, id⟩⟩
  | @cons s t u label labels hstep _ ih =>
    obtain ⟨mid, hmid, hkeeps⟩ := step_keeps h hrecord hstep
    obtain ⟨hlater, record', hrecord', hbinding, hstays⟩ := ih (step_conserved h hstep) hmid
    refine ⟨hlater, record', hrecord', hbinding.trans hkeeps.binding, fun hstarted hnone => ?_⟩
    obtain ⟨hnot, hnone⟩ := not_or.mp (mt List.mem_cons.mpr hnone)
    have hmid' : mid.dispatched = true :=
      (hkeeps.dispatched hstarted).resolve_right fun heq => hnot heq.symm
    obtain ⟨hdispatched, haborted⟩ := hstays hmid' hnone
    refine ⟨hdispatched, fun hend => ?_⟩
    rcases hkeeps.closed with hsame | ⟨-, -, -, -, -, ⟨used, hsettled, -⟩ | ⟨-, -, hfresh⟩⟩
    · exact hsame ▸ haborted hend
    · exact nomatch hsettled.symm.trans (haborted hend)
    · exact nomatch hstarted.symm.trans hfresh

/-- **A run from a start to a close** keeps the start unless the call is proved unsent: so the lease
closes settled, and what closes it books what that settlement says. -/
theorem started_run (h : Conserved state)
    (hrun : budgetHolders.Run state (.started lease call :: labels) later)
    (hsent : .unsent lease ∉ labels) :
    Conserved later ∧ ∃ record, later.leaseRecord lease = some record ∧
      record.binding = some call ∧ record.dispatched = true ∧ record.state ≠ .aborted := by
  cases hrun with
  | @cons _ mid _ _ _ hstep hrun =>
    obtain ⟨record, -, hopen, hbinding, -, hstarted⟩ := started_step hstep
    obtain ⟨hlater, record', hrecord', hbinding', hstays⟩ :=
      run_keeps hrun (step_conserved h hstep) hstarted
    obtain ⟨hdispatched, haborted⟩ := hstays rfl hsent
    refine ⟨hlater, record', hrecord', hbinding'.trans hbinding, hdispatched, fun hend => ?_⟩
    exact nomatch hopen.symm.trans (haborted hend)

/-- **One lease starts one call, and what was started closes settled.**  A call starts only under the
binding its lease was admitted with, and only where it is proved unsent does its lease start
another.  A lease that started one and was not marked unsent closes by a call that names it, settled
and never aborted; a metered one is charged the use that call settles (its reserve, where it is an
abort or a reserved settlement), and an unmetered one is charged nothing. -/
theorem one_lease_one_call (h : budgetHolders.Reachable state) :
    (∀ op admission issued labels later call next,
      budgetHolders.step state (.call op (.admission (.ok admission))) issued →
      budgetHolders.Run issued labels later →
      budgetHolders.step later (.started admission.lease call) next → op.binding? = some call) ∧
    (∀ lease call call' labels later,
      budgetHolders.Run state (.started lease call :: (labels ++ [.started lease call'])) later →
      .unsent lease ∈ labels) ∧
    ∀ lease call labels later, budgetHolders.Run state (.started lease call :: labels) later →
      .unsent lease ∉ labels →
      ∃ record, later.leaseRecord lease = some record ∧ record.dispatched = true ∧
        record.state ≠ .aborted ∧
        ∀ label next, budgetHolders.step later label next → record.state = .opened →
          ∃ record', next.leaseRecord lease = some record' ∧
            (record'.state = .opened ∨ ∃ op result used, label = .call op result ∧
              op.lease? = some lease ∧ record'.state = .settled used ∧
              Settles later op record next) := by
  have hstate := conserved_of_holders h
  refine ⟨fun op admission issued labels later call next hissue hrun hstart => ?_,
    fun lease call call' labels later hrun => ?_,
    fun lease call labels later hrun hsent => ?_⟩
  · obtain ⟨record, hrecord, -, -, hbinding⟩ := issued_step hissue
    obtain ⟨-, record', hrecord', hbinding', -⟩ :=
      run_keeps hrun (step_conserved hstate hissue) hrecord
    obtain ⟨record'', hrecord'', -, hcall, -, -⟩ := started_step hstart
    obtain rfl := some.inj (hrecord'.symm.trans hrecord'')
    rw [← hbinding, ← hbinding', hcall]
  · by_contra hsent
    have hrun : budgetHolders.Run state ((.started lease call :: labels) ++ [.started lease call'])
        later := hrun
    obtain ⟨mid, hbefore, hlast⟩ := hrun.split
    obtain ⟨-, record, hrecord, -, hdispatched, -⟩ := started_run hstate hbefore hsent
    cases hlast with
    | cons hstart _ =>
      obtain ⟨record', hrecord', -, -, hfresh, -⟩ := started_step hstart
      obtain rfl := some.inj (hrecord.symm.trans hrecord')
      exact nomatch hdispatched.symm.trans hfresh
  · obtain ⟨hlater, record, hrecord, -, hdispatched, haborted⟩ := started_run hstate hrun hsent
    refine ⟨record, hrecord, hdispatched, haborted, fun label next hstep hopen => ?_⟩
    obtain ⟨record', hrecord', hkeeps⟩ := step_keeps hlater hrecord hstep
    refine ⟨record', hrecord', ?_⟩
    rcases hkeeps.closed with hsame | ⟨-, op, result, hlabel, hlease, ⟨used, hsettled, hbooks⟩ |
      ⟨-, -, hfresh⟩⟩
    · exact .inl (hsame.trans hopen)
    · exact .inr ⟨op, result, used, hlabel, hlease, hsettled, hbooks⟩
    · exact nomatch hdispatched.symm.trans hfresh

theorem reachable_holders (h : budgetMeters.Reachable state) : budgetHolders.Reachable state := by
  induction h with
  | start hinit => exact .start hinit
  | @step s t called _ hstep ih =>
    have hstep : budgetHolders.step s (.call called.1 called.2) t := hstep
    exact .step ih hstep

/-- A call paid for elsewhere, and one run on this device. -/
def paidCall : DispatchBinding := ⟨"model", "route", .thirdParty, "offer", none⟩

def deviceCall : DispatchBinding := ⟨"model", "route", .onDevice, "offer", none⟩

/-- A meter under a few calls. -/
def meterAfter (ops : List BudgetOp) : BudgetState :=
  after (.new 0 "attempt" (.ofNat 100) 5 .suspend none []) ops

theorem reachable_meterAfter (ops : List BudgetOp) : budgetHolders.Reachable (meterAfter ops) :=
  reachable_holders (reachable_after ops (.start ⟨_, _, _, _, _, _, _, rfl⟩))

theorem one_lease_one_call_paid :
    ∃ record, (meterAfter [.admitReserveBound 5 paidCall, .beginDispatch ⟨1, 0⟩ paidCall]).leaseRecord
      ⟨1, 0⟩ = some record ∧ record.dispatched = true ∧ record.state ≠ .aborted := by
  obtain ⟨record, hrecord, hdispatched, haborted, -⟩ :=
    (one_lease_one_call (reachable_meterAfter [.admitReserveBound 5 paidCall])).2.2 ⟨1, 0⟩ paidCall []
      (meterAfter [.admitReserveBound 5 paidCall, .beginDispatch ⟨1, 0⟩ paidCall])
      (.cons rfl (.nil _)) List.not_mem_nil
  exact ⟨record, hrecord, hdispatched, haborted⟩

/-- A metered lease that started its call closes with nothing charged where no use is reported, and
an unmetered one where it is aborted. -/
theorem started_closes_uncharged :
    let state := meterAfter [.admitReserveBound 5 paidCall, .beginDispatch ⟨1, 0⟩ paidCall]
    let next := (state.call (.settleUsage ⟨1, 0⟩ 0)).2
    let free := meterAfter [.admitFreeWork deviceCall false, .beginDispatch ⟨1, 0⟩ deviceCall]
    let freed := (free.call (.abort ⟨1, 0⟩)).2
    (budgetHolders.Reachable state ∧
      (state.leaseRecord ⟨1, 0⟩).any (fun record => record.dispatched && record.metered) ∧
      (state.leaseRecord ⟨1, 0⟩).any (·.state = .opened) ∧
      (next.leaseRecord ⟨1, 0⟩).any (·.state ≠ .opened) ∧ next.spent = state.spent) ∧
    budgetHolders.Reachable free ∧
      (free.leaseRecord ⟨1, 0⟩).any (·.dispatched) ∧ (free.leaseRecord ⟨1, 0⟩).any (·.state = .opened) ∧
      (freed.leaseRecord ⟨1, 0⟩).any (·.state ≠ .opened) ∧ freed.spent = free.spent := by
  exact ⟨⟨reachable_meterAfter _, by decide, by decide, by decide, by decide⟩,
    reachable_meterAfter _, by decide, by decide, by decide, by decide⟩

end Oneiron
