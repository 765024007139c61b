import Mathlib.Algebra.Order.BigOperators.Group.Finset
import Oneiron.Llm.BudgetMoves

/-!
# Llm/BudgetFloors — what a floor promises its row

While every settled use is within its lease's reserve, a settlement moves spend no further than its
reservation had: the line's cap and every row's stand (`Fits`).  What the shared slice may hold is
what all floors leave of the cap, so a floor's headroom is there for its row whatever else was
admitted (`plan_of_headroom`).
-/

open Std

namespace Oneiron

open Finset U64 BudgetState Nat

/-- The sum of every floor, unbounded. -/
def BudgetPolicyTable.floorSum (policy : BudgetPolicyTable) : ℕ :=
  (policy.map fun row => row.floorUnits.elim 0 U64.val).sum

/-- A call that leaves the line as it is, and settles no more than its lease reserved. -/
def Frugal (state : BudgetState) (op : BudgetOp) : Prop :=
  (∀ limit reserve, op ≠ .reviseLine limit reserve) ∧
  ∀ lease record, op.lease? = some lease → state.leaseRecord lease = some record →
    record.state = .opened → record.metered = true →
    (op.settledUse state record).val ≤ record.reserveUnits.val

/-- The meters under frugal calls only. -/
def frugalMeters : System BudgetState (BudgetOp × BudgetResult) :=
  budgetMeters.restrict fun state called => Frugal state called.1

/-- The line and its rows are within their caps, and the shared slice leaves every floor. -/
structure Fits (state : BudgetState) : Prop extends Conserved state where
  floors : state.policy.floorSum ≤ state.limitUnits.val
  exact : state.usedUnits.val =
    (state.rowTallies.map (·.floorUsedUnits.val)).sum + state.sharedUsedUnits.val
  cap : state.usedUnits.val + state.reservedUnits.val ≤ state.capUnits.val
  caps : ∀ row cap, state.policy[row]?.bind (·.capUnits) = some cap →
    valueAt (·.usedUnits.val) state.rowTallies row +
      valueAt (·.reservedUnits.val) state.rowTallies row ≤ cap.val
  sharedSlice : state.policy ≠ [] → state.sharedUsedUnits.val + state.sharedReservedUnits.val +
    state.policy.floorSum ≤ state.capUnits.val

theorem val_foldl_satAdd : ∀ (l : List U64) (a : U64),
    (l.foldl U64.satAdd a).val = min (a.val + (l.map U64.val).sum) U64.top
  | [], a => (min_eq_left a.le_top).symm
  | b :: l, a => by
    rw [List.foldl_cons, val_foldl_satAdd l, val_satAdd, List.map_cons, List.sum_cons]
    omega

variable {reserve used : U64} {lease : BudgetLease} {record : LeaseRecord}
  {allocation : ReserveAllocation} {row : ℕ} {closed : LeaseState} (policy : BudgetPolicyTable)

theorem val_totalFloorUnits : policy.totalFloorUnits.val = min policy.floorSum U64.top := by
  have hsum : ((policy.filterMap (·.floorUnits)).map U64.val).sum = policy.floorSum := by
    unfold BudgetPolicyTable.floorSum
    induction policy with
    | nil => rfl
    | cons row policy ih =>
      rw [List.map_cons, List.sum_cons, ← ih]
      cases hfloor : row.floorUnits with
      | none | some floor => simp [hfloor]
  rw [BudgetPolicyTable.totalFloorUnits, val_foldl_satAdd, hsum, val_zero, zero_add]

theorem floorSum_eq : policy.floorSum = ∑ i ∈ Finset.range policy.length, policy.floorAt i := by
  unfold BudgetPolicyTable.floorSum
  rw [← sum_valueAt]
  refine sum_congr rfl fun i _ => ?_
  unfold valueAt BudgetPolicyTable.floorAt
  cases policy[i]? <;> rfl

variable {state : BudgetState}

theorem limit_le_cap (state : BudgetState) : state.limitUnits.val ≤ state.capUnits.val := by
  have htop := state.limitUnits.le_top
  unfold capUnits BudgetExhaustionPolicy.admissionCap
  split
  · exact Nat.le_refl _
  · exact Nat.le_refl _
  · rw [val_satAdd]
    omega

/-- The shared slice is what all floors leave of the cap. -/
theorem val_sharedAdmissionCeiling (htotal : state.totalFloorUnits = state.policy.totalFloorUnits)
    (hfloors : state.policy.floorSum ≤ state.limitUnits.val) :
    state.sharedAdmissionCeiling.val + state.policy.floorSum = state.capUnits.val := by
  have htop' := state.capUnits.le_top
  have hcap := limit_le_cap state
  rw [sharedAdmissionCeiling, sharedSliceUnits, htotal, val_satAdd,
    val_satSub, val_satSub, val_totalFloorUnits]
  omega

/-- A matched row's charge, on the row's own counter. -/
theorem used_charge (hsplit : LeaseSplit state.policy record)
    (htallies : state.rowTallies.length = state.policy.length)
    (hrow : row < state.rowTallies.length) :
    valueAt (·.usedUnits.val) (state.applyUsageForLease record used).rowTallies row =
      min (valueAt (·.usedUnits.val) state.rowTallies row +
        share id (fun _ => used.val) record.matchedRows row) U64.top := by
  rw [rowTallies_charge hsplit htallies, valueAt_pass_of_keep (g := drawOn) fun _ _ => rfl]
  exact valueAt_pass_add (fun _ _ => rfl) (fun tally => tally.usedUnits.le_top) hrow

theorem used_commit :
    valueAt (·.usedUnits.val) (state.commitReservation reserve allocation).rowTallies row =
      valueAt (·.usedUnits.val) state.rowTallies row := by
  rw [rowTallies_commit, valueAt_pass_of_keep (g := holdFloor) fun _ _ => rfl,
    valueAt_pass_of_keep (g := holdRow reserve) fun _ _ => rfl]

theorem used_close :
    valueAt (·.usedUnits.val) (state.closeLease lease record closed).rowTallies row =
      valueAt (·.usedUnits.val) state.rowTallies row := by
  rw [rowTallies_close, valueAt_pass_of_keep (g := freeFloor) fun _ _ => rfl,
    valueAt_pass_of_keep (g := freeRow record.reserveUnits) fun _ _ => rfl]

namespace Fits

theorem start (guard : ℕ) (attempt : String) (limit reserve : U64)
    (exhausted : BudgetExhaustionPolicy) (actor : Option EntityId) {policy : BudgetPolicyTable}
    (hfloors : policy.floorSum ≤ limit.val) :
    Fits (.new guard attempt limit reserve exhausted actor policy) := by
  refine ⟨.start .., hfloors, ?_, zero_le _, fun row cap hcap => ?_, fun _ => ?_⟩
  · simp [new]
  · simp only [valueAt, new, List.getElem?_replicate]
    split <;> exact zero_le _
  · have hcap := limit_le_cap (.new guard attempt limit reserve exhausted actor policy)
    simp only [new, val_zero, zero_add] at hcap ⊢
    exact hfloors.trans hcap

section

variable (h : Fits state)

include h

theorem fire : Fits state.fireLadderEvents.2 := by
  refine ⟨h.toConserved.fire, h.floors, ?_, h.cap, fun row cap hcap => ?_, h.sharedSlice⟩
  · refine h.exact.trans ?_
    rw [← sum_congr_valueAt (length_fire state) (valueAt_fire (fun _ => rfl) state)]
    rfl
  · rw [valueAt_fire fun _ => rfl, valueAt_fire fun _ => rfl]
    exact h.caps row cap hcap

/-- **An admission fits what it was planned against.** -/
theorem admission (hplan : Planned state reserve allocation) (binding : Option DispatchBinding) :
    Fits ((state.commitReservation reserve allocation).issueLease reserve true allocation
      binding).2 := by
  have hconserved := h.toConserved.admission hplan binding
  have htop := state.capUnits.le_top
  have hfits := hplan.fits
  refine ⟨hconserved, h.floors, ?_, ?_, fun row cap hcap => ?_, fun hpolicy => ?_⟩
  · refine h.exact.trans ?_
    rw [← sum_congr_valueAt length_commit fun _ => floorUsed_commit]
    rfl
  · have hreserved : (state.reservedUnits.satAdd reserve).val = _ :=
      val_satAdd_of_le (by omega)
    show state.usedUnits.val + (state.reservedUnits.satAdd reserve).val ≤ state.capUnits.val
    omega
  · have hcaps := h.caps row cap hcap
    rw [show ((state.commitReservation reserve allocation).issueLease reserve true allocation
      binding).2.rowTallies = (state.commitReservation reserve allocation).rowTallies from rfl,
      used_commit]
    by_cases hrow : row < state.rowTallies.length
    · rw [reserved_commit hrow]
      by_cases hmatched : row ∈ allocation.matchedRows
      · have hshare : share id (fun _ => reserve.val) allocation.matchedRows row = reserve.val :=
          share_of_nodup (by simpa using hplan.nodup) hmatched
        have hroom := hplan.caps row hmatched cap hcap
        omega
      · have hshare : share id (fun _ => reserve.val) allocation.matchedRows row = 0 :=
          share_eq_zero fun other hother (heq : id other = row) => hmatched (heq ▸ hother)
        omega
    · rw [valueAt_eq_zero (length_commit.trans_le (Nat.not_lt.mp hrow))]
      omega
  · have hslice := h.sharedSlice hpolicy
    have hceiling := val_sharedAdmissionCeiling h.totalFloor h.floors
    have hshared : (state.sharedReservedUnits.satAdd allocation.sharedUnits).val ≤
        state.sharedReservedUnits.val + allocation.sharedUnits.val := min_le_left _ _
    show state.sharedUsedUnits.val + (state.sharedReservedUnits.satAdd allocation.sharedUnits).val +
      state.policy.floorSum ≤ state.capUnits.val
    by_cases hpos : 0 < allocation.sharedUnits.val
    · have hfit := hplan.shared hpos
      omega
    · omega

theorem close (hrecord : state.leases[lease.seq]? = some record) (hopen : record.state = .opened)
    (hclosed : closed ≠ .opened) : Fits (state.closeLease lease record closed) := by
  refine ⟨h.toConserved.close hrecord hopen hclosed, h.floors, ?_, ?_, fun row cap hcap => ?_,
    fun hpolicy => ?_⟩
  · refine h.exact.trans ?_
    rw [← sum_congr_valueAt length_close fun _ => floorUsed_close]
    rfl
  · have hcap := h.cap
    have hreserved : (state.closeLease lease record closed).reservedUnits.val ≤
      state.reservedUnits.val := sub_le _ _
    exact (Nat.add_le_add_left hreserved _).trans hcap
  · have hcaps := h.caps row cap hcap
    rw [used_close, reserved_close]
    omega
  · have hslice := h.sharedSlice hpolicy
    have hshared : (state.closeLease lease record closed).sharedReservedUnits.val ≤
      state.sharedReservedUnits.val := sub_le _ _
    exact (Nat.add_le_add_right (Nat.add_le_add_left hshared _) _).trans hslice

/-- What a closed lease gave back is there for its own charge. -/
theorem charged_le (hrecord : state.leases[lease.seq]? = some record)
    (hopen : record.state = .opened) (hused : used.val ≤ record.reserveUnits.val)
    (hpolicy : state.policy ≠ []) :
    (charged (state.closeLease lease record closed) record used).2.val ≤
      record.sharedReservedUnits.val := by
  have hsplit := h.split hrecord
  have hsplit' : LeaseSplit (state.closeLease lease record closed).policy record := hsplit
  obtain ⟨-, -, -, hrest⟩ := charged_spec hsplit' (length_close.trans h.tallies) used
  have hfloors : (record.matchedRows.map record.floorShare).sum =
      (record.floorAllocations.map (·.units.val)).sum :=
    sum_map_share hsplit.nodup fun floor hfloor =>
      hsplit.floors.subset (List.mem_map_of_mem hfloor)
  have hroom : (record.matchedRows.map record.floorShare).sum ≤ (record.matchedRows.map (headroom
      state.policy (state.closeLease lease record closed).rowTallies)).sum := by
    refine List.sum_le_sum fun row hrow => ?_
    have hlt : row < state.rowTallies.length := h.tallies ▸ hsplit.rows_lt row hrow
    have hheld : record.floorShare row ≤ openSum (·.floorShare row) state.leases :=
      le_openSum (w := (·.floorShare row)) hrecord hopen
    have hwithin := h.within row
    rw [← h.floor row hlt] at hheld
    rw [headroom, floorUsed_close, floorReserved_close]
    omega
  have hsum := hsplit.split hpolicy
  rw [hrest]
  have hpolicy' : (state.closeLease lease record closed).policy = state.policy := rfl
  rw [hpolicy']
  omega

/-- **A settlement within its reserve fits where its reservation did.** -/
theorem charge (hrecord : state.leases[lease.seq]? = some record) (hopen : record.state = .opened)
    (hclosed : closed ≠ .opened) {spent : U64} (hused : used.val ≤ record.reserveUnits.val)
    (hspent : spent.val = min (state.usedUnits.val + used.val) U64.top) :
    Fits ({ state.closeLease lease record closed with usedUnits := spent
      }.applyUsageForLease record used) := by
  have hmid := h.close hrecord hopen hclosed
  have hsplit : LeaseSplit (state.closeLease lease record closed).policy record := h.split hrecord
  have hreserve : record.reserveUnits.val ≤ state.reservedUnits.val := by
    rw [h.reserved]
    exact le_openSum (w := (·.reserveUnits.val)) hrecord hopen
  have hcap := h.cap
  have htop := state.capUnits.le_top
  refine ⟨hmid.toConserved.charge hsplit hspent, h.floors, ?_, ?_, fun row cap hrowcap => ?_,
    fun hpolicy => ?_⟩
  · obtain ⟨hsum, -⟩ := charged_spec hsplit hmid.tallies used
    have hfloors := hmid.toConserved.floors_charge hsplit used
    have hshared := hmid.toConserved.sharedUsed_charge hsplit used
    have hexact : state.usedUnits.val = _ := hmid.exact
    show spent.val = (((state.closeLease lease record closed).applyUsageForLease record
      used).rowTallies.map (·.floorUsedUnits.val)).sum + ((state.closeLease lease record
        closed).applyUsageForLease record used).sharedUsedUnits.val
    omega
  · show spent.val + (state.reservedUnits.val - record.reserveUnits.val) ≤ state.capUnits.val
    omega
  · have hcaps := h.caps row cap hrowcap
    show valueAt (·.usedUnits.val) ((state.closeLease lease record closed).applyUsageForLease record
      used).rowTallies row + valueAt (·.reservedUnits.val) ((state.closeLease lease record
        closed).applyUsageForLease record used).rowTallies row ≤ cap.val
    rw [reserved_charge (w := (·.reservedUnits.val)) hsplit hmid.tallies (fun _ _ => rfl)
      (fun _ _ => rfl), reserved_close]
    by_cases hrow : row < state.rowTallies.length
    · rw [used_charge hsplit hmid.tallies (hrow.trans_eq length_close.symm), used_close]
      by_cases hmatched : row ∈ record.matchedRows
      · have hshare : share id (fun _ => used.val) record.matchedRows row = used.val :=
          share_of_nodup (by simpa using hsplit.nodup) hmatched
        have hrowShare : record.rowShare row = record.reserveUnits.val :=
          share_of_nodup (by simpa using hsplit.nodup) hmatched
        have hheld : record.rowShare row ≤ openSum (·.rowShare row) state.leases :=
          le_openSum (w := (·.rowShare row)) hrecord hopen
        rw [← h.row row hrow] at hheld
        omega
      · have hshare : share id (fun _ => used.val) record.matchedRows row = 0 :=
          share_eq_zero fun other hother (heq : id other = row) => hmatched (heq ▸ hother)
        omega
    · rw [valueAt_eq_zero ((length_charge hsplit hmid.tallies used).trans_le
        (length_close.trans_le (Nat.not_lt.mp hrow)))]
      omega
  · have hslice := h.sharedSlice hpolicy
    have hrest : (charged (state.closeLease lease record closed) record used).2.val ≤ _ :=
      h.charged_le hrecord hopen hused hpolicy
    have hheld : record.sharedReservedUnits.val ≤ state.sharedReservedUnits.val := by
      rw [h.shared]
      exact le_openSum (w := (·.sharedReservedUnits.val)) hrecord hopen
    have hshared := hmid.toConserved.sharedUsed_charge hsplit used
    have hused' : (state.closeLease lease record closed).sharedUsedUnits.val =
      state.sharedUsedUnits.val := rfl
    show ((state.closeLease lease record closed).applyUsageForLease record
      used).sharedUsedUnits.val + (state.sharedReservedUnits.val - record.sharedReservedUnits.val) +
        state.policy.floorSum ≤ state.capUnits.val
    omega

theorem mark (hrecord : state.leaseRecord lease = some record) (dispatched : Bool) :
    Fits { state with
      leases := state.leases.insert lease.seq { record with dispatched } } :=
  ⟨h.toConserved.mark hrecord dispatched, h.floors, h.exact, h.cap, h.caps, h.sharedSlice⟩

theorem issueUnmetered (binding : Option DispatchBinding) :
    Fits (state.issueLease 0 false {} binding).2 :=
  ⟨h.toConserved.issueUnmetered binding, h.floors, h.exact, h.cap, h.caps, h.sharedSlice⟩

end

end Fits

/-- **Every frugal move fits.** -/
theorem CallMoves.fits {next : BudgetState} {op : BudgetOp} (hmove : CallMoves state op next)
    (hfrugal : Frugal state op) (h : Fits state) : Fits next := by
  cases hmove with
  | refused heq =>
    rcases heq with rfl | rfl
    · exact h
    · exact h.fire
  | admitted binding _ hplan =>
    exact (h.admission (planned_of_planReserve h.toConserved hplan) binding).fire
  | issued binding => exact h.issueUnmetered binding
  | closed _ hrecord hopen hclosed =>
    exact (h.close (leaseRecord_eq_some hrecord).2 hopen hclosed).fire
  | charged hlease hrecord hopen hclosed hmetered hspent =>
    have hused := hfrugal.2 _ _ hlease hrecord hopen hmetered
    exact (h.charge (leaseRecord_eq_some hrecord).2 hopen hclosed hused hspent).fire
  | marked dispatched _ hrecord => exact h.mark hrecord dispatched
  | revised hop => exact absurd hop (hfrugal.1 _ _)

theorem fits_of_run {start : BudgetState} {calls : List (BudgetOp × BudgetResult)}
    (hrun : frugalMeters.Run start calls state) (h : Fits start) : Fits state := by
  refine hrun.preserves Fits (fun {s called t} hs hstep => ?_) h
  have hnext : (s.call called.1).2 = t := congrArg Prod.snd hstep.1
  exact hnext ▸ (moves_of_call s called.1).fits hstep.2 hs

/-- Every floor holds its row's spend, and one of them the headroom besides. -/
theorem sum_headroom (h : Conserved state) (hrow : row < state.rowTallies.length) :
    (state.rowTallies.map (·.floorUsedUnits.val)).sum +
      (state.rowTallies.map (·.floorReservedUnits.val)).sum +
        headroom state.policy state.rowTallies row ≤ state.policy.floorSum := by
  have hone : headroom state.policy state.rowTallies row =
      ∑ i ∈ Finset.range state.rowTallies.length,
        if row = i then headroom state.policy state.rowTallies row else 0 := by
    rw [sum_ite_eq, if_pos (mem_range.mpr hrow)]
  rw [hone, floorSum_eq, ← sum_valueAt, ← sum_valueAt, ← h.tallies, ← sum_add_distrib,
    ← sum_add_distrib]
  refine sum_le_sum fun i _ => ?_
  have hwithin := h.within i
  by_cases hi : row = i
  · subst hi
    rw [if_pos rfl, headroom]
    omega
  · rw [if_neg hi]
    exact hwithin

/-- **A call within its row's headroom and its caps is planned**, whatever else was admitted. -/
theorem plan_of_headroom (h : Fits state) {purpose : Option CallPurpose}
    (hrow : row ∈ state.matchedRows purpose)
    (hroom : reserve.val ≤ headroom state.policy state.rowTallies row)
    (hcaps : ∀ row ∈ state.matchedRows purpose, ∀ cap,
      state.policy[row]?.bind (·.capUnits) = some cap →
      valueAt (·.usedUnits.val) state.rowTallies row +
        valueAt (·.reservedUnits.val) state.rowTallies row + reserve.val ≤ cap.val) :
    ∃ allocation, state.planReserve reserve purpose = .admitted allocation := by
  have hlt := matchedRows_lt state purpose row hrow
  have hpolicy : state.policy ≠ [] := by
    intro hnil
    rw [hnil] at hlt
    exact absurd hlt (not_lt_zero _)
  have hcap : state.matchedCapDenies (state.matchedRows purpose) reserve = false :=
    (caps_of_matchedCapDenies h.tallies (matchedRows_lt state purpose)).mpr hcaps
  -- the matched floors cover the whole amount
  have hrest : (allocateFloors state.policy state.rowTallies (state.matchedRows purpose)
      reserve).2.val = 0 := by
    rw [allocateFloors_rest reserve fun row hrow => h.tallies ▸ matchedRows_lt state purpose row hrow]
    have hone := List.single_le_sum (fun _ _ => zero_le _) _
      (List.mem_map_of_mem (f := headroom state.policy state.rowTallies) hrow)
    omega
  have hglobal : state.globalDenies reserve = false := by
    have hsum := sum_headroom h.toConserved (h.tallies ▸ hlt)
    have hslice := h.sharedSlice hpolicy
    have hreserved := h.toConserved.reserved_eq hpolicy
    have hexact := h.exact
    rw [globalDenies, exceeds_eq_false]
    omega
  unfold planReserve
  rw [if_neg (by simpa using hpolicy)]
  dsimp only
  rw [hcap, if_neg Bool.false_ne_true, if_neg (by rw [hrest]; exact fun hand => lt_irrefl _ hand.1),
    hglobal, if_neg Bool.false_ne_true]
  exact ⟨_, rfl⟩

/-- **Floors hold and nothing is overspent**, in every frugal run from a policy whose floors sum to
at most the limit: what is used and reserved is within the line's admission cap and each row's cap;
and a call that reserves something within the headroom of a floor row it matches, and fits the caps
it matches, is admitted. -/
theorem budget_floors_hold {start state : BudgetState} (hinit : budgetMeters.init start)
    (hfloors : start.policy.floorSum ≤ start.limitUnits.val)
    {calls : List (BudgetOp × BudgetResult)} (hrun : frugalMeters.Run start calls state) :
    state.usedUnits.val + state.reservedUnits.val ≤ state.capUnits.val ∧
    (∀ (row : ℕ) tally cap, state.rowTallies[row]? = some tally →
      state.policy[row]?.bind (·.capUnits) = some cap →
      tally.usedUnits.val + tally.reservedUnits.val ≤ cap.val) ∧
    ∀ reserve purpose row binding, reserve ≠ 0 → row ∈ state.matchedRows purpose →
      reserve.val ≤ headroom state.policy state.rowTallies row →
      (∀ row ∈ state.matchedRows purpose, ∀ cap,
        state.policy[row]?.bind (·.capUnits) = some cap →
        valueAt (·.usedUnits.val) state.rowTallies row +
          valueAt (·.reservedUnits.val) state.rowTallies row + reserve.val ≤ cap.val) →
      ∃ admission, (state.meteredAdmission reserve purpose binding).1 = .ok admission := by
  obtain ⟨guard, attempt, limit, reserve, exhausted, actor, policy, rfl⟩ := hinit
  have hfits := fits_of_run hrun (.start guard attempt limit reserve exhausted actor hfloors)
  refine ⟨hfits.cap, fun row tally cap htally hcap => ?_,
    fun reserve purpose row binding hreserve hrow hroom hcaps => ?_⟩
  · have hcaps := hfits.caps row cap hcap
    simp only [valueAt, htally, Option.elim_some] at hcaps
    exact hcaps
  · obtain ⟨allocation, hplan⟩ := plan_of_headroom hfits hrow hroom hcaps
    unfold meteredAdmission reserveBound
    rw [if_neg hreserve, hplan]
    exact ⟨_, rfl⟩

/-- …at a new meter, whose floor row admits its whole floor. -/
theorem budget_floors_hold_extraction :
    ∃ admission, ((floorMeter 100).meteredAdmission 10 (some .extraction) none).1 = .ok admission :=
  (budget_floors_hold ⟨_, _, _, _, _, _, _, rfl⟩ (by decide) (.nil (floorMeter 100))).2.2 10 _ 0 none
    (by decide) (by decide) (by decide) (by decide)

/-- An overdraft line admits past its limit, and a call that reserves nothing is refused whatever
its row has left. -/
theorem budget_past_limit :
    let line := new 0 "attempt" 10 5 (.overdraft 5) none []
    (∃ calls state, frugalMeters.Run line calls state ∧
      line.limitUnits.val < state.usedUnits.val + state.reservedUnits.val) ∧
    ((floorMeter 100).meteredAdmission 0 (some .extraction) none).1 = .error .admissionDenied := by
  intro line
  have hstep : frugalMeters.step line (.admitReserve 12, (line.call (.admitReserve 12)).1)
      (line.call (.admitReserve 12)).2 :=
    ⟨rfl, nofun, nofun⟩
  exact ⟨⟨_, _, .cons hstep (.nil _), by decide⟩, by decide⟩

end Oneiron
