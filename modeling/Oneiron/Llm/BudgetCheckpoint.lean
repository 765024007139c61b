import Oneiron.Llm.BudgetMoves

/-!
# Llm/BudgetCheckpoint — a restored meter goes on as the original would

    meter --checkpoint--▸ record --from_checkpoint--▸ the same meter, without its closed leases

With no lease open every reservation is zero, which is what a checkpoint leaves out
(`fromCheckpoint_eq`).  What is left differs from the original in the guard's identity and the
closed leases alone, and no call on a new lease tells them apart (`MeterTwin.call`).
-/

open Std

namespace Oneiron

open List

variable {state : BudgetState}

theorem anyOpen_eq_true : state.anyOpen = true ↔
    ∃ (seq : ℕ) (record : LeaseRecord), state.leases[seq]? = some record ∧ record.state = .opened := by
  simp only [BudgetState.anyOpen, any_eq_true, decide_eq_true_eq, Prod.exists,
    ExtTreeMap.mem_toList_iff_getElem?_eq_some]

/-- Nothing is reserved once no lease is open. -/
theorem openSum_eq_zero (h : state.anyOpen = false) (w : LeaseRecord → ℕ) :
    openSum w state.leases = 0 := by
  refine sum_eq_zero fun x hx => ?_
  obtain ⟨p, hp, rfl⟩ := mem_map.mp hx
  have hclosed : p.2.state ≠ .opened := fun hopen => by
    rw [anyOpen_eq_true.mpr ⟨p.1, p.2, ExtTreeMap.mem_toList_iff_getElem?_eq_some.mp hp, hopen⟩] at h
    cases h
  exact if_neg hclosed

/-- The same meter under another guard, with other leases. -/
def BudgetState.swap (state : BudgetState) (guardIdentity : ℕ)
    (leases : OrderedMap ℕ LeaseRecord) : BudgetState :=
  { state with guardIdentity, leases }

/-- Each row's policy and tally are read back. -/
theorem rows_checkpoint (h : Conserved state) (hclosed : state.anyOpen = false) :
    let rows := zipWith (fun policy (tally : BudgetRowTally) => (⟨policy, tally.usedUnits,
      tally.floorUsedUnits, tally.firedThresholds⟩ : CheckpointRow)) state.policy state.rowTallies
    rows.map (·.policy) = state.policy ∧
    (rows.map fun row => ({ usedUnits := row.usedUnits
                            floorUsedUnits := row.floorUsedUnits
                            firedThresholds := row.firedThresholds } : BudgetRowTally)) =
      state.rowTallies := by
  intro rows
  have hrow : ∀ (i : ℕ) (hi : i < state.rowTallies.length), rows[i]? = some
      ⟨state.policy.get ⟨i, h.tallies ▸ hi⟩, state.rowTallies[i].usedUnits,
        state.rowTallies[i].floorUsedUnits, state.rowTallies[i].firedThresholds⟩ := by
    intro i hi
    have hi' : i < state.policy.length := h.tallies ▸ hi
    simp [rows, hi, hi']
  have hlength : rows.length = state.rowTallies.length := by
    simp [rows, h.tallies]
  constructor
  · refine ext_getElem? fun i => ?_
    rw [getElem?_map]
    by_cases hi : i < state.rowTallies.length
    · have hi' : i < state.policy.length := h.tallies ▸ hi
      rw [hrow i hi, getElem?_eq_getElem hi']
      rfl
    · rw [getElem?_eq_none (hlength.trans_le (Nat.not_lt.mp hi)),
        getElem?_eq_none (h.tallies.symm.trans_le (Nat.not_lt.mp hi))]
      rfl
  · refine ext_getElem? fun i => ?_
    rw [getElem?_map]
    by_cases hi : i < state.rowTallies.length
    · have hzero := openSum_eq_zero hclosed
      have hreserved := (h.row i hi).trans (hzero _)
      have hfloor := (h.floor i hi).trans (hzero _)
      simp only [valueAt, getElem?_eq_getElem hi, Option.elim_some] at hreserved hfloor
      rw [hrow i hi, getElem?_eq_getElem hi, Option.map_some]
      refine congrArg some ?_
      rw [BudgetRowTally.mk.injEq]
      exact ⟨rfl, (U64.val_eq_zero.mp hreserved).symm, rfl, (U64.val_eq_zero.mp hfloor).symm, rfl⟩
    · rw [getElem?_eq_none (hlength.trans_le (Nat.not_lt.mp hi)),
        getElem?_eq_none (Nat.not_lt.mp hi)]
      rfl

/-- **A restored meter is the original** without its leases. -/
theorem fromCheckpoint_eq (h : Conserved state) (hclosed : state.anyOpen = false)
    {checkpoint : BudgetCheckpoint} (hcheckpoint : state.checkpoint = .ok checkpoint)
    (guardIdentity : ℕ) :
    BudgetState.fromCheckpoint guardIdentity checkpoint = state.swap guardIdentity ∅ := by
  have hzero := openSum_eq_zero hclosed
  have hreserved : state.reservedUnits = 0 := U64.val_eq_zero.mp (h.reserved.trans (hzero _))
  have hshared : state.sharedReservedUnits = 0 := U64.val_eq_zero.mp (h.shared.trans (hzero _))
  obtain ⟨hpolicy, htallies⟩ := rows_checkpoint h hclosed
  rw [BudgetState.checkpoint, hclosed, if_neg Bool.false_ne_true] at hcheckpoint
  obtain rfl := Except.ok.inj hcheckpoint
  have hhorizons := h.horizons
  simp only [BudgetState.fromCheckpoint, BudgetState.new, BudgetState.swap, hpolicy, htallies,
    hreserved, hshared, hhorizons, h.totalFloor]

/-! ## Calls on new leases -/

/-- A lease token under another guard. -/
def BudgetLease.under (guardIdentity : ℕ) (lease : BudgetLease) : BudgetLease :=
  { lease with guardIdentity }

/-- A call with its lease under another guard. -/
def BudgetOp.under (guardIdentity : ℕ) : BudgetOp → BudgetOp
  | .settleAbsolute lease absoluteUsed => .settleAbsolute (lease.under guardIdentity) absoluteUsed
  | .settleTerminal lease usage => .settleTerminal (lease.under guardIdentity) usage
  | .settleUsage lease callUsed => .settleUsage (lease.under guardIdentity) callUsed
  | .settlePerCall lease usage => .settlePerCall (lease.under guardIdentity) usage
  | .settleReserved lease => .settleReserved (lease.under guardIdentity)
  | .abort lease => .abort (lease.under guardIdentity)
  | .beginDispatch lease call => .beginDispatch (lease.under guardIdentity) call
  | .markUnsent lease => .markUnsent (lease.under guardIdentity)
  | op => op

/-- An answer, its lease named by its number alone. -/
def BudgetResult.unguarded : BudgetResult → BudgetResult
  | .admission answer =>
    .admission (answer.map fun admitted => { admitted with lease := admitted.lease.under 0 })
  | result => result

/-- What a meter answers to a sequence of calls on its own leases. -/
def BudgetState.answers (state : BudgetState) : List BudgetOp → List BudgetResult
  | [] => []
  | op :: ops =>
    let (result, next) := state.call (op.under state.guardIdentity)
    result.unguarded :: next.answers ops

/-- Two meters that differ in the guard and in leases up to a number alone. -/
def MeterTwin (base : ℕ) (state twin : BudgetState) : Prop :=
  ∃ guardIdentity leases, twin = state.swap guardIdentity leases ∧
    ∀ seq, base < seq → leases[seq]? = state.leases[seq]?

variable {base guardIdentity : ℕ} {leases : OrderedMap ℕ LeaseRecord}

/-- A call that answers alike and leaves the meters twins. -/
def Alike (base : ℕ) (ran twin : BudgetResult × BudgetState) : Prop :=
  ran.1.unguarded = twin.1.unguarded ∧ MeterTwin base ran.2 twin.2

section Twin

variable {lease : BudgetLease} (h : ∀ seq, base < seq → leases[seq]? = state.leases[seq]?)

include h

/-- The same new record keeps the leases alike. -/
theorem getElem?_insert_congr (k : ℕ) (record : LeaseRecord) : ∀ seq, base < seq →
    (leases.insert k record)[seq]? = (state.leases.insert k record)[seq]? := by
  intro seq hseq
  rw [ExtTreeMap.getElem?_insert, ExtTreeMap.getElem?_insert, h seq hseq]

/-- Both meters hold the same record of a new lease. -/
theorem leaseRecord_swap (hnew : base < lease.seq) :
    (state.swap guardIdentity leases).leaseRecord (lease.under guardIdentity) =
      state.leaseRecord (lease.under state.guardIdentity) := by
  simp only [BudgetState.leaseRecord, BudgetLease.under, BudgetState.swap, if_true]
  exact h lease.seq hnew

theorem alike_meteredAdmission (reserve : U64) (purpose : Option CallPurpose)
    (binding : Option DispatchBinding) :
    Alike base ((state.meteredAdmission reserve purpose binding).map .admission id)
      (((state.swap guardIdentity leases).meteredAdmission reserve purpose binding).map
        .admission id) := by
  have hplan : (state.swap guardIdentity leases).planReserve reserve purpose =
    state.planReserve reserve purpose := rfl
  unfold BudgetState.meteredAdmission BudgetState.reserveBound
  rw [hplan]
  by_cases hreserve : reserve = 0
  · rw [if_pos hreserve, if_pos hreserve]
    exact ⟨rfl, _, _, rfl, h⟩
  · rw [if_neg hreserve, if_neg hreserve]
    cases state.planReserve reserve purpose with
    | deniedByCap | deniedByCapacity => exact ⟨rfl, _, _, rfl, h⟩
    | admitted allocation => exact ⟨rfl, _, _, rfl, getElem?_insert_congr h _ _⟩

theorem alike_unmeteredAdmission (binding : Option DispatchBinding) :
    Alike base ((state.unmeteredAdmission binding).map .admission id)
      (((state.swap guardIdentity leases).unmeteredAdmission binding).map .admission id) :=
  ⟨rfl, _, _, rfl, getElem?_insert_congr h _ _⟩

section

variable (hnew : base < lease.seq)

include hnew

theorem alike_settle (used : U64) :
    Alike base ((state.settleAbsolute (lease.under state.guardIdentity) used).map .settled id)
        (((state.swap guardIdentity leases).settleAbsolute (lease.under guardIdentity) used).map
          .settled id) ∧
      Alike base ((state.settleUsage (lease.under state.guardIdentity) used).map .settled id)
        (((state.swap guardIdentity leases).settleUsage (lease.under guardIdentity) used).map
          .settled id) := by
  unfold BudgetState.settleAbsolute BudgetState.settleUsage
  rw [leaseRecord_swap h hnew]
  cases state.leaseRecord (lease.under state.guardIdentity) with
  | none => exact ⟨⟨rfl, _, _, rfl, h⟩, rfl, _, _, rfl, h⟩
  | some record =>
    dsimp only
    cases record.state with
    | aborted | settled => exact ⟨⟨rfl, _, _, rfl, h⟩, rfl, _, _, rfl, h⟩
    | opened =>
      dsimp only
      constructor
      all_goals
        split
        all_goals exact ⟨rfl, _, _, rfl, getElem?_insert_congr h _ _⟩

theorem alike_settleReserved :
    Alike base ((state.settleReserved (lease.under state.guardIdentity)).map .settled id)
      (((state.swap guardIdentity leases).settleReserved (lease.under guardIdentity)).map
        .settled id) := by
  unfold BudgetState.settleReserved
  rw [leaseRecord_swap h hnew]
  cases state.leaseRecord (lease.under state.guardIdentity) with
  | none => exact ⟨rfl, _, _, rfl, h⟩
  | some record => exact (alike_settle h hnew record.reserveUnits).2

theorem alike_abort : Alike base ((state.abort (lease.under state.guardIdentity)).map .settled id)
      (((state.swap guardIdentity leases).abort (lease.under guardIdentity)).map .settled id) := by
  unfold BudgetState.abort
  rw [leaseRecord_swap h hnew]
  cases state.leaseRecord (lease.under state.guardIdentity) with
  | none => exact ⟨rfl, _, _, rfl, h⟩
  | some record =>
    dsimp only
    split
    · exact (alike_settle h hnew record.reserveUnits).2
    · cases record.state with
      | opened => exact ⟨rfl, _, _, rfl, getElem?_insert_congr h _ _⟩
      | aborted | settled => exact ⟨rfl, _, _, rfl, h⟩

theorem alike_beginDispatch (call : DispatchBinding) :
    Alike base ((state.beginDispatch (lease.under state.guardIdentity) call).map .dispatch id)
      (((state.swap guardIdentity leases).beginDispatch (lease.under guardIdentity) call).map
        .dispatch id) := by
  unfold BudgetState.beginDispatch
  rw [leaseRecord_swap h hnew]
  cases state.leaseRecord (lease.under state.guardIdentity) with
  | none => exact ⟨rfl, _, _, rfl, h⟩
  | some record =>
    repeat' split
    all_goals first
      | exact ⟨rfl, _, _, rfl, h⟩
      | exact ⟨rfl, _, _, rfl, getElem?_insert_congr h _ _⟩

theorem alike_markUnsent :
    Alike base ((state.markUnsent (lease.under state.guardIdentity)).map .unsent id)
      (((state.swap guardIdentity leases).markUnsent (lease.under guardIdentity)).map
        .unsent id) := by
  unfold BudgetState.markUnsent
  rw [leaseRecord_swap h hnew]
  cases state.leaseRecord (lease.under state.guardIdentity) with
  | none => exact ⟨rfl, _, _, rfl, h⟩
  | some record =>
    dsimp only
    split
    · exact ⟨rfl, _, _, rfl, h⟩
    · exact ⟨rfl, _, _, rfl, getElem?_insert_congr h _ _⟩

end

end Twin

/-- **No call on new leases tells twins apart**, and it leaves them twins. -/
theorem MeterTwin.call {twin : BudgetState} (h : MeterTwin base state twin) {op : BudgetOp}
    (hnew : ∀ lease, op.lease? = some lease → base < lease.seq) :
    Alike base (state.call (op.under state.guardIdentity))
      (twin.call (op.under twin.guardIdentity)) := by
  obtain ⟨guardIdentity, leases, rfl, hleases⟩ := h
  cases op with
  | admitAny | admitPaidForRequest envelope | admitReserve reserve
  | admitReserveBound reserve binding | admitCallBound reserve purpose binding =>
    exact alike_meteredAdmission hleases ..
  | admitForRequest envelope =>
    simp only [BudgetOp.under, BudgetState.call, BudgetState.admitForRequest]
    split
    · exact alike_unmeteredAdmission hleases none
    · exact alike_meteredAdmission hleases ..
  | admitLocal => exact alike_unmeteredAdmission hleases none
  | admitFreeWork binding keyless =>
    simp only [BudgetOp.under, BudgetState.call, BudgetState.admitFreeWork]
    split
    · exact alike_unmeteredAdmission hleases (some binding)
    · exact ⟨rfl, guardIdentity, leases, rfl, hleases⟩
  | settleAbsolute lease absoluteUsed | settleTerminal lease usage =>
    exact (alike_settle hleases (hnew lease rfl) _).1
  | settleUsage lease callUsed | settlePerCall lease usage =>
    exact (alike_settle hleases (hnew lease rfl) _).2
  | settleReserved lease => exact alike_settleReserved hleases (hnew lease rfl)
  | abort lease => exact alike_abort hleases (hnew lease rfl)
  | beginDispatch lease call => exact alike_beginDispatch hleases (hnew lease rfl) call
  | markUnsent lease => exact alike_markUnsent hleases (hnew lease rfl)
  | reviseLine limit reserve => exact ⟨rfl, guardIdentity, leases, rfl, hleases⟩

/-- …nor any sequence of them. -/
theorem MeterTwin.answers : ∀ (ops : List BudgetOp) {state twin : BudgetState}, MeterTwin base state twin →
    (∀ op ∈ ops, ∀ lease, op.lease? = some lease → base < lease.seq) →
      twin.answers ops = state.answers ops
  | [], _, _, _, _ => rfl
  | op :: ops, state, twin, h, hnew => by
    rw [forall_mem_cons] at hnew
    obtain ⟨hsame, htwin⟩ := h.call hnew.1
    exact congrArg₂ cons hsame.symm (MeterTwin.answers ops htwin hnew.2)

/-- **A checkpoint restores its meter**: it is refused exactly while some lease is open, and the
meter restored from it answers every sequence of calls on new leases as the original would, lease
numbers, charges and fired ladders included. -/
theorem budget_checkpoint_restores (h : budgetMeters.Reachable state) :
    (state.checkpoint = .error .leaseInvalid ↔ ∃ (seq : ℕ) (record : LeaseRecord),
      state.leases[seq]? = some record ∧ record.state = .opened) ∧
    ((¬∃ (seq : ℕ) (record : LeaseRecord), state.leases[seq]? = some record ∧
      record.state = .opened) → ∃ checkpoint, state.checkpoint = .ok checkpoint ∧
        ∀ guardIdentity ops,
          (∀ op ∈ ops, ∀ lease, op.lease? = some lease → state.nextLeaseSeq < lease.seq) →
          (BudgetState.fromCheckpoint guardIdentity checkpoint).answers ops = state.answers ops) := by
  have hstate := conserved_of_reachable h
  rw [← anyOpen_eq_true]
  refine ⟨?_, fun hnone => ?_⟩
  · unfold BudgetState.checkpoint
    split <;> simp_all
  · have hclosed : state.anyOpen = false := by simpa using hnone
    have hcheckpoint : ∃ checkpoint, state.checkpoint = .ok checkpoint := by
      rw [BudgetState.checkpoint, hclosed, if_neg Bool.false_ne_true]
      exact ⟨_, rfl⟩
    obtain ⟨checkpoint, hcheckpoint⟩ := hcheckpoint
    refine ⟨checkpoint, hcheckpoint, fun guardIdentity ops hnew => ?_⟩
    rw [fromCheckpoint_eq hstate hclosed hcheckpoint]
    refine MeterTwin.answers ops ⟨guardIdentity, ∅, rfl, fun seq hseq => ?_⟩ hnew
    -- the original has no lease of a number not given out yet
    cases hrecord : state.leases[seq]? with
    | none => simp
    | some record => exact absurd (hstate.seq_le hrecord) (Nat.not_le.mpr hseq)

/-- …at a meter with one settled extraction call. -/
theorem budget_checkpoint_restores_extraction :
    let settled := (floorMeter 100).after
      [.admitPaidForRequest ⟨.extraction, .thirdParty, false, false⟩, .settleUsage ⟨1, 0⟩ 7]
    ∃ checkpoint, settled.checkpoint = .ok checkpoint ∧
      (BudgetState.fromCheckpoint 1 checkpoint).answers [.admitAny, .settleReserved ⟨2, 1⟩] =
        settled.answers [.admitAny, .settleReserved ⟨2, 1⟩] := by
  obtain ⟨checkpoint, hok, hsame⟩ :=
    (budget_checkpoint_restores (reachable_floorMeter 100
      [.admitPaidForRequest ⟨.extraction, .thirdParty, false, false⟩, .settleUsage ⟨1, 0⟩ 7])).2
      (by rw [← anyOpen_eq_true]; decide)
  refine ⟨checkpoint, hok, hsame 1 _ fun op hop lease hlease => ?_⟩
  rcases mem_cons.mp hop with rfl | hop
  · cases hlease
  · obtain rfl := mem_singleton.mp hop
    obtain rfl := Option.some.inj hlease
    decide

end Oneiron
