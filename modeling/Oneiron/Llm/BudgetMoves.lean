import Oneiron.Llm.BudgetConservation

/-!
# Llm/BudgetMoves — everything a call on a meter can do

    refuse    issue    close    charge    mark    revise        and fire the ladders

Each call is one of these moves (`moves_of_call`), and each move keeps the counters conserved
(`CallMoves.conserved`).
-/

open Std

namespace Oneiron

open BudgetState List

/-- The lease a call names. -/
def BudgetOp.lease? : BudgetOp → Option BudgetLease
  | .settleAbsolute lease _ | .settleTerminal lease _ | .settleUsage lease _
  | .settlePerCall lease _ | .settleReserved lease | .abort lease | .beginDispatch lease _
  | .markUnsent lease => some lease
  | _ => none

/-- The spend a call settles on an open metered lease. -/
def BudgetOp.settledUse (op : BudgetOp) (state : BudgetState) (record : LeaseRecord) : U64 :=
  match op with
  | .settleAbsolute _ absoluteUsed => absoluteUsed.satSub state.usedUnits
  | .settleTerminal _ usage => (llmUsageUnits usage).satSub state.usedUnits
  | .settleUsage _ callUsed => callUsed
  | .settlePerCall _ usage => llmUsageUnits usage
  | .settleReserved _ => record.reserveUnits
  | .abort _ => record.reserveUnits
  | _ => 0

/-- What a call can do to a meter. -/
inductive CallMoves (state : BudgetState) (op : BudgetOp) : BudgetState → Prop
  /-- Nothing, but for the ladders of a call on a lease closed before. -/
  | refused {next : BudgetState} (h : next = state ∨ next = state.fireLadderEvents.2) :
      CallMoves state op next
  | admitted {reserve : U64} {purpose : Option CallPurpose} {allocation : ReserveAllocation}
      (binding : Option DispatchBinding) (hreserve : reserve ≠ 0)
      (hplan : state.planReserve reserve purpose = .admitted allocation) :
      CallMoves state op ((state.commitReservation reserve allocation).issueLease reserve true
        allocation binding).2.fireLadderEvents.2
  /-- A lease that reserves nothing. -/
  | issued (binding : Option DispatchBinding) :
      CallMoves state op (state.issueLease 0 false {} binding).2
  /-- A lease closed for free: aborted, or unmetered. -/
  | closed {lease : BudgetLease} {record : LeaseRecord} {closed : LeaseState}
      (hlease : op.lease? = some lease) (hrecord : state.leaseRecord lease = some record)
      (hopen : record.state = .opened) (hclosed : closed ≠ .opened) :
      CallMoves state op (state.closeLease lease record closed).fireLadderEvents.2
  /-- A metered lease closed and charged. -/
  | charged {lease : BudgetLease} {record : LeaseRecord} {closed : LeaseState} {spent : U64}
      (hlease : op.lease? = some lease) (hrecord : state.leaseRecord lease = some record)
      (hopen : record.state = .opened) (hclosed : closed ≠ .opened) (hmetered : record.metered = true)
      (hspent : spent.val =
        min (state.usedUnits.val + (op.settledUse state record).val) U64.top) :
      CallMoves state op ({ state.closeLease lease record closed with usedUnits := spent
        }.applyUsageForLease record (op.settledUse state record)).fireLadderEvents.2
  | marked {lease : BudgetLease} {record : LeaseRecord} (dispatched : Bool)
      (hlease : op.lease? = some lease) (hrecord : state.leaseRecord lease = some record) :
      CallMoves state op
        { state with leases := state.leases.insert lease.seq { record with dispatched } }
  | revised {limit reserve : U64} (hop : op = .reviseLine limit reserve) :
      CallMoves state op (state.reviseLine limit reserve)

variable {lease : BudgetLease} {record : LeaseRecord}

namespace BudgetState

variable {state : BudgetState} {op : BudgetOp}

theorem moves_meteredAdmission (reserve : U64) (purpose : Option CallPurpose)
    (binding : Option DispatchBinding) :
    CallMoves state op (state.meteredAdmission reserve purpose binding).2 := by
  unfold meteredAdmission reserveBound
  by_cases hreserve : reserve = 0
  · rw [if_pos hreserve]
    exact .refused (.inl rfl)
  · rw [if_neg hreserve]
    cases hplan : state.planReserve reserve purpose with
    | deniedByCap | deniedByCapacity => exact .refused (.inl rfl)
    | admitted allocation => exact .admitted binding hreserve hplan

theorem moves_settleAbsolute {absoluteUsed : U64} (hlease : op.lease? = some lease)
    (huse : ∀ record, op.settledUse state record = absoluteUsed.satSub state.usedUnits) :
    CallMoves state op (state.settleAbsolute lease absoluteUsed).2 := by
  unfold settleAbsolute
  cases hrecord : state.leaseRecord lease with
  | none => exact .refused (.inl rfl)
  | some record =>
    dsimp only
    cases hstate : record.state with
    | aborted => exact .refused (.inl rfl)
    | settled units => exact .refused (.inr rfl)
    | opened =>
      dsimp only
      split
      · rename_i hmetered
        have hspent : ((state.closeLease lease record (.settled absoluteUsed)).usedUnits.max
            absoluteUsed).val =
            min (state.usedUnits.val + (op.settledUse state record).val) U64.top := by
          have htop := absoluteUsed.le_top
          have htop' := state.usedUnits.le_top
          rw [huse, U64.val_max, U64.val_satSub]
          show max state.usedUnits.val _ = _
          omega
        have hmove : CallMoves state op ({ state.closeLease lease record (.settled absoluteUsed) with
            usedUnits := (state.closeLease lease record (.settled absoluteUsed)).usedUnits.max
              absoluteUsed }.applyUsageForLease record (op.settledUse state record)
            ).fireLadderEvents.2 := .charged hlease hrecord hstate nofun hmetered hspent
        rw [huse] at hmove
        exact hmove
      · exact .closed hlease hrecord hstate nofun

theorem moves_settleUsage {callUsed : U64} (hlease : op.lease? = some lease)
    (hrecord : state.leaseRecord lease = some record) (huse : op.settledUse state record = callUsed)
    :
    CallMoves state op (state.settleUsage lease callUsed).2 := by
  unfold settleUsage
  rw [hrecord]
  dsimp only
  cases hstate : record.state with
  | aborted => exact .refused (.inl rfl)
  | settled units => exact .refused (.inr rfl)
  | opened =>
    dsimp only
    split
    · rename_i hmetered
      have hmove : CallMoves state op
          ({ state.closeLease lease record (.settled (state.usedUnits.satAdd callUsed)) with
            usedUnits := state.usedUnits.satAdd callUsed }.applyUsageForLease record
            (op.settledUse state record)).fireLadderEvents.2 :=
        .charged hlease hrecord hstate nofun hmetered
          (huse ▸ U64.val_satAdd state.usedUnits callUsed)
      rw [huse] at hmove
      exact hmove
    · exact .closed hlease hrecord hstate nofun

/-- **Every call is one of the moves.** -/
theorem moves_of_call (state : BudgetState) (op : BudgetOp) :
    CallMoves state op (state.call op).2 := by
  cases op with
  | admitAny | admitPaidForRequest envelope | admitReserve reserve
  | admitReserveBound reserve binding | admitCallBound reserve purpose binding =>
    exact moves_meteredAdmission ..
  | admitForRequest envelope =>
    simp only [call, admitForRequest]
    split
    · exact .issued none
    · exact moves_meteredAdmission ..
  | admitLocal => exact .issued none
  | admitFreeWork binding keyless =>
    simp only [call, admitFreeWork]
    split
    · exact .issued (some binding)
    · exact .refused (.inl rfl)
  | settleAbsolute lease absoluteUsed | settleTerminal lease usage =>
    exact moves_settleAbsolute rfl fun _ => rfl
  | settleUsage lease callUsed =>
    cases hrecord : state.leaseRecord lease with
    | none =>
      simp only [call, settleUsage, hrecord]
      exact .refused (.inl rfl)
    | some record => exact moves_settleUsage rfl hrecord rfl
  | settlePerCall lease usage =>
    cases hrecord : state.leaseRecord lease with
    | none =>
      simp only [call, settlePerCall, settleUsage, hrecord]
      exact .refused (.inl rfl)
    | some record => exact moves_settleUsage rfl hrecord rfl
  | settleReserved lease =>
    cases hrecord : state.leaseRecord lease with
    | none =>
      simp only [call, settleReserved, hrecord]
      exact .refused (.inl rfl)
    | some record =>
      simp only [call, settleReserved, hrecord]
      exact moves_settleUsage rfl hrecord rfl
  | abort lease =>
    cases hrecord : state.leaseRecord lease with
    | none =>
      simp only [call, abort, hrecord]
      exact .refused (.inl rfl)
    | some record =>
      simp only [call, abort, hrecord]
      split
      · exact moves_settleUsage rfl hrecord rfl
      · cases hstate : record.state with
        | opened => exact .closed rfl hrecord hstate nofun
        | aborted => exact .refused (.inr rfl)
        | settled units => exact .refused (.inl rfl)
  | beginDispatch lease call =>
    cases hrecord : state.leaseRecord lease with
    | none =>
      simp only [BudgetState.call, beginDispatch, hrecord]
      exact .refused (.inl rfl)
    | some record =>
      have hstarted : CallMoves state (.beginDispatch lease call) { state with
          leases := state.leases.insert lease.seq { record with dispatched := true } } :=
        .marked true rfl hrecord
      simp only [BudgetState.call, beginDispatch, hrecord]
      split
      · exact .refused (.inl rfl)
      · split
        · exact .refused (.inl rfl)
        · repeat' split
          all_goals first
            | exact .refused (.inl rfl)
            | exact hstarted
  | markUnsent lease =>
    cases hrecord : state.leaseRecord lease with
    | none =>
      simp only [call, markUnsent, hrecord]
      exact .refused (.inl rfl)
    | some record =>
      simp only [call, markUnsent, hrecord]
      split
      · exact .refused (.inl rfl)
      · exact .marked false rfl hrecord
  | reviseLine limit reserve => exact .revised rfl

end BudgetState

variable {state next : BudgetState} {op : BudgetOp}

theorem leaseRecord_eq_some (h : state.leaseRecord lease = some record) :
    lease.guardIdentity = state.guardIdentity ∧ state.leases[lease.seq]? = some record := by
  unfold leaseRecord at h
  split at h
  · exact ⟨‹_›, h⟩
  · cases h

/-! ## Conservation -/

theorem Conserved.start (guard : ℕ) (attempt : String) (limit reserve : U64)
    (exhausted : BudgetExhaustionPolicy) (actor : Option EntityId) (policy : BudgetPolicyTable) :
    Conserved (.new guard attempt limit reserve exhausted actor policy) := by
  have hzero : ∀ {w : BudgetRowTally → ℕ}, w {} = 0 → ∀ i,
      valueAt w (replicate policy.length ({} : BudgetRowTally)) i = 0 := by
    intro w hw i
    unfold valueAt
    rw [getElem?_replicate]
    split
    · exact hw
    · rfl
  have hsum : ∀ w, openSum w ∅ = 0 := fun _ => OrderedMap.weigh_empty _
  refine ⟨length_replicate, rfl, rfl, fun h => by simp [new] at h,
    fun h => by simp [new] at h, (hsum _).symm, (hsum _).symm, fun i _ => ?_,
    fun i _ => ?_, fun i => ?_, ?_⟩
  · exact (hzero rfl i).trans (hsum _).symm
  · exact (hzero rfl i).trans (hsum _).symm
  · rw [show (new guard attempt limit reserve exhausted actor policy).rowTallies =
      replicate policy.length {} from rfl, hzero rfl, hzero rfl]
    exact Nat.zero_le _
  · simp [new]

/-- An unmetered lease changes no counter. -/
theorem commit_unmetered (state : BudgetState) : state.commitReservation 0 {} = state := by
  have hadd : ∀ a : U64, a.satAdd 0 = a := fun a =>
    U64.val_inj.mp (Nat.min_eq_left a.le_top)
  simp [commitReservation, hadd]

theorem Conserved.issueUnmetered (h : Conserved state) (binding : Option DispatchBinding) :
    Conserved (state.issueLease 0 false {} binding).2 := by
  have hissued : Conserved ((state.commitReservation 0 {}).issueLease 0 false {} binding).2 := by
    refine h.issue ⟨nodup_nil, nofun, .refl _, fun _ => rfl, fun _ => rfl,
      fun _ => ⟨rfl, rfl⟩⟩ (fun _ => Nat.zero_le _) state.reservedUnits.le_top
  rwa [commit_unmetered] at hissued

theorem Conserved.admission (h : Conserved state) {reserve : U64} {allocation : ReserveAllocation}
    (hplan : Planned state reserve allocation) (binding : Option DispatchBinding) :
    Conserved ((state.commitReservation reserve allocation).issueLease reserve true allocation
      binding).2 := by
  have htop := state.capUnits.le_top
  have hfits := hplan.fits
  exact h.issue ⟨hplan.nodup, hplan.rows_lt, hplan.floors, hplan.split, hplan.plain, nofun⟩
    hplan.headroom (by omega)

theorem Conserved.mark (h : Conserved state) (hrecord : state.leaseRecord lease = some record)
    (dispatched : Bool) : Conserved { state with
      leases := state.leases.insert lease.seq { record with dispatched } } := by
  obtain ⟨-, hget⟩ := leaseRecord_eq_some hrecord
  have hsum : ∀ w : LeaseRecord → ℕ, w { record with dispatched } = w record →
      openSum w (state.leases.insert lease.seq { record with dispatched }) =
        openSum w state.leases := by
    intro w hw
    refine openSum_mark hget ?_
    unfold LeaseRecord.held
    rw [hw]
  refine { h with
    seq_le := ?_, split := ?_, reserved := ?_, shared := ?_, row := ?_, floor := ?_ }
  · intro seq other hother
    rw [ExtTreeMap.getElem?_insert] at hother
    split at hother
    · rename_i heq
      exact LawfulEqCmp.eq_of_compare heq ▸ h.seq_le hget
    · exact h.seq_le hother
  · intro seq other hother
    rw [ExtTreeMap.getElem?_insert] at hother
    split at hother
    · have hsplit := h.split hget
      exact Option.some.inj hother ▸ ⟨hsplit.nodup, hsplit.rows_lt, hsplit.floors, hsplit.split,
        hsplit.plain, hsplit.unmetered⟩
    · exact h.split hother
  · exact h.reserved.trans (hsum _ rfl).symm
  · exact h.shared.trans (hsum _ rfl).symm
  · exact fun i hi => (h.row i hi).trans (hsum _ rfl).symm
  · exact fun i hi => (h.floor i hi).trans (hsum _ rfl).symm

/-- **Every move keeps the counters conserved.** -/
theorem CallMoves.conserved (hmove : CallMoves state op next) (h : Conserved state) : Conserved next := by
  cases hmove with
  | refused heq =>
    rcases heq with rfl | rfl
    · exact h
    · exact h.fire
  | admitted binding _ hplan => exact (h.admission (planned_of_planReserve h hplan) binding).fire
  | issued binding => exact h.issueUnmetered binding
  | closed _ hrecord hopen hclosed =>
    exact (h.close (leaseRecord_eq_some hrecord).2 hopen hclosed).fire
  | charged _ hrecord hopen hclosed _ hspent =>
    have hget := (leaseRecord_eq_some hrecord).2
    have hsplit := h.split hget
    exact ((h.close hget hopen hclosed).charge hsplit hspent).fire
  | marked dispatched _ hrecord => exact h.mark hrecord dispatched
  | revised => exact h.revise _ _

theorem conserved_of_reachable (h : budgetMeters.Reachable state) : Conserved state := by
  refine h.invariant Conserved (fun hi => ?_) fun {s called t} hs hstep => ?_
  · obtain ⟨guard, attempt, limit, reserve, exhausted, actor, policy, rfl⟩ := hi
    exact .start ..
  · have hnext : (s.call called.1).2 = t := congrArg Prod.snd hstep
    exact hnext ▸ (moves_of_call s called.1).conserved hs

/-- **The floors and the shared part are the whole reserve.** -/
theorem Conserved.reserved_eq (h : Conserved state) (hpolicy : state.policy ≠ []) :
    state.reservedUnits.val = (state.rowTallies.map (·.floorReservedUnits.val)).sum +
      state.sharedReservedUnits.val := by
  have hfloors : (state.rowTallies.map (·.floorReservedUnits.val)).sum =
      openSum (fun record => (record.floorAllocations.map (·.units.val)).sum) state.leases := by
    rw [← sum_valueAt, Finset.sum_congr rfl fun i hi => h.floor i (Finset.mem_range.mp hi),
      sum_openSum]
    refine openSum_congr fun seq record hrecord => sum_share fun floor hfloor => ?_
    rw [h.tallies]
    exact (h.split hrecord).floors_lt floor hfloor
  rw [hfloors, h.shared, h.reserved, ← openSum_add]
  exact openSum_congr fun seq record hrecord => ((h.split hrecord).split hpolicy).symm

/-! ## Charges -/

/-- What a meter has booked as spent. -/
def BudgetState.spent (state : BudgetState) : U64 × U64 × List (U64 × U64) :=
  (state.usedUnits, state.sharedUsedUnits,
    state.rowTallies.map fun tally => (tally.usedUnits, tally.floorUsedUnits))

/-- A pass that leaves the spend of each row leaves it of all. -/
theorem map_pass_of_keep {α β γ : Type} {idx : β → ℕ} {g : β → α → α} {f : α → γ}
    (h : ∀ b a, f (g b a) = f a) : ∀ {bs : List β} {l : List α}, (pass idx g bs l).map f = l.map f
  | [], _ => rfl
  | b :: bs, l => by
    rw [show pass idx g (b :: bs) l = pass idx g bs (l.modify (idx b) (g b)) from rfl,
      map_pass_of_keep h]
    refine ext_getElem? fun i => ?_
    rw [getElem?_map, getElem?_map, getElem?_modify]
    cases l[i]? with
    | none => rfl
    | some a =>
      simp only [Option.map_some, Option.map_eq_map]
      split
      · rw [h]
      · rfl

theorem spent_fire (state : BudgetState) : state.fireLadderEvents.2.spent = state.spent := by
  have hsame := map_unfired_fireRows state.rowHorizons (range state.policy.length)
    state.rowTallies
  have hspent : ∀ tallies : List BudgetRowTally,
      tallies.map (fun tally => (tally.usedUnits, tally.floorUsedUnits)) =
        (tallies.map BudgetRowTally.unfired).map
          fun tally => (tally.usedUnits, tally.floorUsedUnits) := by
    intro tallies
    rw [map_map]
    rfl
  unfold spent
  rw [hspent, hspent state.rowTallies, ← hsame]
  rfl

theorem spent_commit (state : BudgetState) (reserve : U64) (allocation : ReserveAllocation) :
    (state.commitReservation reserve allocation).spent = state.spent := by
  unfold spent
  rw [rowTallies_commit, map_pass_of_keep (g := holdFloor) fun _ _ => rfl,
    map_pass_of_keep (g := holdRow reserve) fun _ _ => rfl]
  rfl

theorem spent_issue (state : BudgetState) (reserve : U64) (metered : Bool)
    (allocation : ReserveAllocation) (binding : Option DispatchBinding) :
    (state.issueLease reserve metered allocation binding).2.spent = state.spent := rfl

theorem spent_close (state : BudgetState) (lease : BudgetLease) (record : LeaseRecord)
    (closed : LeaseState) : (state.closeLease lease record closed).spent = state.spent := by
  unfold spent
  rw [rowTallies_close, map_pass_of_keep (g := freeFloor) fun _ _ => rfl,
    map_pass_of_keep (g := freeRow record.reserveUnits) fun _ _ => rfl]
  rfl

/-- A lease a charge closed. -/
theorem leases_charge {closed : LeaseState} {spent used : U64} :
    ({ state.closeLease lease record closed with usedUnits := spent
      }.applyUsageForLease record used).fireLadderEvents.2.leases =
        state.leases.insert lease.seq { record with state := closed } := rfl

/-- **A call that books spend closes the open metered lease it names.** -/
theorem CallMoves.charges (hmove : CallMoves state op next) (hspend : next.spent ≠ state.spent) :
    ∃ lease record closed, op.lease? = some lease ∧ state.leaseRecord lease = some record ∧
      record.state = .opened ∧ record.metered = true ∧ closed ≠ LeaseState.opened ∧
      next.leases[lease.seq]? = some { record with state := closed } ∧
      next.usedUnits.val = min (state.usedUnits.val + (op.settledUse state record).val) U64.top := by
  cases hmove with
  | refused heq =>
    rcases heq with rfl | rfl
    · exact absurd rfl hspend
    · exact absurd (spent_fire _) hspend
  | admitted binding =>
    rw [spent_fire, spent_issue, spent_commit] at hspend
    exact absurd rfl hspend
  | issued binding => exact absurd (spent_issue ..) hspend
  | closed =>
    rw [spent_fire, spent_close] at hspend
    exact absurd rfl hspend
  | @charged lease record closed spent hlease hrecord hopen hclosed hmetered hspent =>
    refine ⟨lease, record, closed, hlease, hrecord, hopen, hmetered, hclosed, ?_, hspent⟩
    rw [leases_charge, ExtTreeMap.getElem?_insert_self]
  | marked | revised => exact absurd rfl hspend

/-- **A closed lease stays closed**, and a lease keeps whether it is metered. -/
theorem CallMoves.closed_stays (hmove : CallMoves state op next) (h : Conserved state) {seq : ℕ}
    (hrecord : state.leases[seq]? = some record) (hclosed : record.state ≠ .opened) :
    ∃ record', next.leases[seq]? = some record' ∧ record'.state ≠ .opened := by
  -- a call writes the record of the lease it names, or of a new one
  have hwrite : ∀ {other : ℕ} {written : LeaseRecord},
      (other = seq → written.state ≠ .opened) → ∃ record',
        (state.leases.insert other written)[seq]? = some record' ∧ record'.state ≠ .opened := by
    intro other written hwritten
    rw [ExtTreeMap.getElem?_insert]
    split
    · rename_i heq
      exact ⟨written, rfl, hwritten (LawfulEqCmp.eq_of_compare heq)⟩
    · exact ⟨record, hrecord, hclosed⟩
  have hfresh : state.nextLeaseSeq + 1 = seq → False := by
    rintro rfl
    rw [h.fresh] at hrecord
    cases hrecord
  cases hmove with
  | refused heq =>
    rcases heq with rfl | rfl
    · exact ⟨record, hrecord, hclosed⟩
    · exact ⟨record, hrecord, hclosed⟩
  | admitted binding | issued binding => exact hwrite fun heq => (hfresh heq).elim
  | closed _ _ _ hnot | charged _ _ _ hnot => exact hwrite fun _ => hnot
  | marked dispatched _ hlease =>
    refine hwrite fun heq => ?_
    rw [(heq ▸ (leaseRecord_eq_some hlease).2 : state.leases[seq]? = _)] at hrecord
    exact Option.some.inj hrecord ▸ hclosed
  | revised => exact ⟨record, hrecord, hclosed⟩

/-- **A meter conserves its budget**, under every sequence of calls from any policy: what is reserved
is the reserves of the open metered leases, row by row what their floors protect; under a policy it
is the floors' and the shared part; what is used is the floors' and the shared part, up to the top
no sum passes; no floor holds more than itself; and a call books spend only as it closes the open
metered lease it names, which stays closed. -/
theorem budget_conserves (h : budgetMeters.Reachable state) :
    state.reservedUnits.val =
      openSum (fun record => if record.metered then record.reserveUnits.val else 0) state.leases ∧
    (∀ row tally, state.rowTallies[row]? = some tally →
      tally.floorReservedUnits.val = openSum (·.floorShare row) state.leases ∧
      tally.floorUsedUnits.val + tally.floorReservedUnits.val ≤ state.policy.floorAt row) ∧
    (state.policy ≠ [] → state.reservedUnits.val =
        (state.rowTallies.map (·.floorReservedUnits.val)).sum + state.sharedReservedUnits.val ∧
      state.usedUnits.val = min ((state.rowTallies.map (·.floorUsedUnits.val)).sum +
        state.sharedUsedUnits.val) U64.top) ∧
    (∀ op result next, budgetMeters.step state (op, result) next → next.spent ≠ state.spent →
      ∃ lease record closed, op.lease? = some lease ∧ state.leaseRecord lease = some record ∧
        record.state = .opened ∧ record.metered = true ∧ closed ≠ LeaseState.opened ∧
        next.leases[lease.seq]? = some { record with state := closed } ∧
        next.usedUnits.val =
          min (state.usedUnits.val + (op.settledUse state record).val) U64.top) ∧
    ∀ calls later, budgetMeters.Run state calls later → ∀ (seq : ℕ) record,
      state.leases[seq]? = some record → record.state ≠ .opened →
      ∃ record', later.leases[seq]? = some record' ∧ record'.state ≠ .opened := by
  have hstate := conserved_of_reachable h
  refine ⟨hstate.reserved.trans (openSum_congr fun seq record hrecord => ?_),
    fun row tally htally => ?_, fun hpolicy => ⟨hstate.reserved_eq hpolicy, hstate.used⟩,
    fun op result next hstep => ?_, fun calls later hrun seq record hrecord hclosed => ?_⟩
  · cases hmetered : record.metered with
    | true => rfl
    | false =>
      rw [((hstate.split hrecord).unmetered hmetered).1]
      rfl
  · have hrow : row < state.rowTallies.length := (List.getElem?_eq_some_iff.mp htally).1
    have hfloor := hstate.floor row hrow
    have hwithin := hstate.within row
    simp only [valueAt, htally, Option.elim_some] at hfloor hwithin
    exact ⟨hfloor, hwithin⟩
  · have hnext : (state.call op).2 = next := congrArg Prod.snd hstep
    exact hnext ▸ (moves_of_call state op).charges
  · have hkeeps := hrun.preserves (fun s => Conserved s ∧
      ∃ record', s.leases[seq]? = some record' ∧ record'.state ≠ .opened)
      (fun {s called t} hs hstep => by
        obtain ⟨hs, mid, hmid, hnot⟩ := hs
        have hnext : (s.call called.1).2 = t := congrArg Prod.snd hstep
        have hmove := hnext ▸ moves_of_call s called.1
        exact ⟨hmove.conserved hs, hmove.closed_stays hs hmid hnot⟩)
      ⟨hstate, record, hrecord, hclosed⟩
    exact hkeeps.2

/-- A meter of one floor row for extraction. -/
def floorMeter (limit : ℕ) : BudgetState :=
  .new 0 "attempt" (.ofNat limit) 5 .suspend none [⟨.purpose .extraction, some 10, none⟩]

theorem reachable_floorMeter (limit : ℕ) (ops : List BudgetOp) :
    budgetMeters.Reachable ((floorMeter limit).after ops) :=
  reachable_after ops (.start ⟨_, _, _, _, _, _, _, rfl⟩)

/-- …with one extraction call admitted, and the same settled. -/
theorem budget_conserves_extraction :
    let admitted := (floorMeter 100).after [.admitPaidForRequest ⟨.extraction, .thirdParty, false, false⟩]
    admitted.reservedUnits.val = 5 ∧
    admitted.reservedUnits.val = (admitted.rowTallies.map (·.floorReservedUnits.val)).sum +
      admitted.sharedReservedUnits.val := by
  exact ⟨by decide, ((budget_conserves (reachable_floorMeter 100 _)).2.2.1 (by decide)).1⟩

/-- Two leases whose usage passes the top between them: what is used stops there, the partitions
do not. -/
theorem budget_used_saturates : ∃ state, budgetMeters.Reachable state ∧ state.policy ≠ [] ∧
    state.usedUnits.val ≠
      (state.rowTallies.map (·.floorUsedUnits.val)).sum + state.sharedUsedUnits.val :=
  ⟨(floorMeter U64.top).after [.admitPaidForRequest ⟨.extraction, .thirdParty, false, false⟩,
    .admitReserve 1, .settleUsage ⟨1, 0⟩ (.ofNat U64.top), .settleUsage ⟨2, 0⟩ 1],
    reachable_floorMeter _ _, by decide, by decide⟩

end Oneiron
