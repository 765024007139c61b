import Oneiron.Llm.BudgetGuard

/-!
# Llm/BudgetConservation — a meter's counters are sums over its open leases

Every reservation is some open lease's (`Conserved.reserved`, `.shared`, `.row`, `.floor`), and each
lease's reserve is its floors' and its shared part.  Closing a lease takes off exactly what opening
it put on, so no difference of the code ever saturates; a sum does only when the spend itself passes
the top (`Conserved.used`).
-/

open Std

namespace Oneiron

open Std.ExtTreeMap OrderedMap BudgetState LeaseRecord BudgetRowTally Nat

open Option Finset

/-! ## Sums over open leases -/

/-- What an open lease counts for. -/
def LeaseRecord.held (w : LeaseRecord → ℕ) (record : LeaseRecord) : ℕ :=
  if record.state = .opened then w record else 0

/-- The sum over the open leases. -/
def openSum (w : LeaseRecord → ℕ) (leases : OrderedMap ℕ LeaseRecord) : ℕ :=
  leases.weigh fun _ record => record.held w

section OpenSum

variable {w : LeaseRecord → ℕ} {leases : OrderedMap ℕ LeaseRecord} {seq : ℕ}
  {record old : LeaseRecord}

theorem openSum_issue (h : leases[seq]? = none) (hopen : record.state = .opened) :
    openSum w (leases.insert seq record) = openSum w leases + w record := by
  have hsum := weigh_insert_add (fun _ record => held w record) leases seq
    record
  rw [OrderedMap.weightAt, h, elim_none, held, if_pos hopen] at hsum
  exact hsum

theorem openSum_close (h : leases[seq]? = some old) (hopen : old.state = .opened)
    (hclosed : record.state ≠ .opened) :
    openSum w (leases.insert seq record) + w old = openSum w leases := by
  have hsum := weigh_insert_add (fun _ record => held w record) leases seq
    record
  rw [OrderedMap.weightAt, h, elim_some, held, held, if_pos hopen,
    if_neg hclosed] at hsum
  exact hsum

/-- Rewriting a record without its amounts moves no sum. -/
theorem openSum_mark (h : leases[seq]? = some old) (hsame : record.held w = old.held w) :
    openSum w (leases.insert seq record) = openSum w leases := by
  have hsum := weigh_insert_add (fun _ record => held w record) leases seq
    record
  rw [OrderedMap.weightAt, h, elim_some, hsame] at hsum
  exact add_right_cancel hsum

theorem le_openSum (h : leases[seq]? = some record) (hopen : record.state = .opened) :
    w record ≤ openSum w leases := by
  have hsum := weigh_erase_add (fun _ record => held w record) leases seq
  rw [OrderedMap.weightAt, h, elim_some, held, if_pos hopen] at hsum
  exact le.intro ((add_comm _ _).trans hsum)

variable {w' : LeaseRecord → ℕ}

theorem openSum_mono
    (h : ∀ (seq : ℕ) (record : LeaseRecord), leases[seq]? = some record → w record ≤ w' record) :
    openSum w leases ≤ openSum w' leases := by
  refine List.sum_le_sum fun p hp => ?_
  have hrecord := mem_toList_iff_getElem?_eq_some.mp hp
  dsimp only [held]
  split
  · exact h p.1 p.2 hrecord
  · exact Nat.le_refl _

theorem openSum_congr
    (h : ∀ (seq : ℕ) (record : LeaseRecord), leases[seq]? = some record → w record = w' record) :
    openSum w leases = openSum w' leases := by
  refine weigh_congr leases fun seq record hr => ?_
  unfold held
  rw [h seq record hr]

theorem openSum_add (w w' : LeaseRecord → ℕ) (leases : OrderedMap ℕ LeaseRecord) :
    openSum (fun record => w record + w' record) leases = openSum w leases + openSum w' leases := by
  unfold openSum
  rw [← weigh_add]
  refine weigh_congr leases fun _ record _ => ?_
  unfold held
  split <;> rfl

/-- The rows' sums are the sum of the rows. -/
theorem sum_openSum (w : ℕ → LeaseRecord → ℕ) (leases : OrderedMap ℕ LeaseRecord) (n : ℕ) :
    ∑ i ∈ Finset.range n, openSum (w i) leases =
      openSum (fun record => ∑ i ∈ Finset.range n, w i record) leases := by
  unfold openSum
  rw [sum_weigh]
  refine weigh_congr leases fun _ record _ => ?_
  unfold held
  split
  · rfl
  · exact sum_const_zero

end OpenSum

/-! ## The invariant -/

/-- What a lease reserves on each row it matched. -/
def LeaseRecord.rowShare (record : LeaseRecord) (row : ℕ) : ℕ :=
  share id (fun _ => record.reserveUnits.val) record.matchedRows row

/-- What each row's floor protects of it. -/
def LeaseRecord.floorShare (record : LeaseRecord) (row : ℕ) : ℕ :=
  share (·.rowIndex) (·.units.val) record.floorAllocations row

/-- A lease's reserve is its floors' and its shared part. -/
structure LeaseSplit (policy : BudgetPolicyTable) (record : LeaseRecord) : Prop where
  nodup : record.matchedRows.Nodup
  rows_lt : ∀ row ∈ record.matchedRows, row < policy.length
  floors : (record.floorAllocations.map (·.rowIndex)).Sublist record.matchedRows
  split : policy ≠ [] → (record.floorAllocations.map (·.units.val)).sum +
    record.sharedReservedUnits.val = record.reserveUnits.val
  plain : policy = [] → record.sharedReservedUnits = 0
  unmetered : record.metered = false → record.reserveUnits = 0 ∧ record.matchedRows = []

/-- Every reservation is some open lease's, and every floor holds what is booked on it. -/
structure Conserved (state : BudgetState) : Prop where
  tallies : state.rowTallies.length = state.policy.length
  totalFloor : state.totalFloorUnits = state.policy.totalFloorUnits
  horizons : state.rowHorizons = state.policy.rowHorizons state.limitUnits state.totalFloorUnits
  seq_le : ∀ {seq : ℕ} {record : LeaseRecord}, state.leases[seq]? = some record → seq ≤ state.nextLeaseSeq
  split : ∀ {seq : ℕ} {record : LeaseRecord}, state.leases[seq]? = some record → LeaseSplit state.policy record
  reserved : state.reservedUnits.val = openSum (·.reserveUnits.val) state.leases
  shared : state.sharedReservedUnits.val = openSum (·.sharedReservedUnits.val) state.leases
  row : ∀ i < state.rowTallies.length,
    valueAt (·.reservedUnits.val) state.rowTallies i = openSum (·.rowShare i) state.leases
  floor : ∀ i < state.rowTallies.length,
    valueAt (·.floorReservedUnits.val) state.rowTallies i = openSum (·.floorShare i) state.leases
  within : ∀ i, valueAt (·.floorUsedUnits.val) state.rowTallies i +
    valueAt (·.floorReservedUnits.val) state.rowTallies i ≤ state.policy.floorAt i
  used : state.usedUnits.val =
    min ((state.rowTallies.map (·.floorUsedUnits.val)).sum + state.sharedUsedUnits.val) U64.top

namespace LeaseSplit

variable {policy : BudgetPolicyTable} {record : LeaseRecord}

/-- An allocation names rows of the table. -/
theorem floors_lt (h : LeaseSplit policy record) :
    ∀ floor ∈ record.floorAllocations, floor.rowIndex < policy.length := fun _ hfloor =>
  h.rows_lt _ (h.floors.subset (List.mem_map_of_mem hfloor))

end LeaseSplit

/-! ## The ladders -/

/-- A tally but for what its ladder fired. -/
def BudgetRowTally.unfired (tally : BudgetRowTally) : BudgetRowTally :=
  { tally with firedThresholds := ∅ }

/-- The ladders read the tallies and leave their amounts. -/
theorem map_unfired_fireRows (horizons : List U64) : ∀ (rows : List ℕ)
    (tallies : List BudgetRowTally), (fireRows horizons rows tallies).2.map
      unfired = tallies.map unfired
  | [], _ => rfl
  | row :: rows, tallies => by
    rw [fireRows]
    rw [map_unfired_fireRows horizons rows]
    unfold fireRow
    split
    · rfl
    · rename_i tally hrow
      refine List.ext_getElem? fun i => ?_
      rw [List.getElem?_map, List.getElem?_map, List.getElem?_set]
      split
      · subst row
        split <;> simp_all [unfired]
      · rfl

variable {policy : BudgetPolicyTable} {record : LeaseRecord} {reserve : U64}
  {tallies : List BudgetRowTally} {allocation : ReserveAllocation}

theorem valueAt_unfired {w : BudgetRowTally → ℕ} (h : ∀ tally, w tally.unfired = w tally)
    {tallies' : List BudgetRowTally}
    (hsame : tallies'.map unfired = tallies.map unfired) (i : ℕ) :
    valueAt w tallies' i = valueAt w tallies i := by
  have hget : ∀ l : List BudgetRowTally,
      valueAt w l i = valueAt w (l.map unfired) i := by
    intro l
    unfold valueAt
    rw [List.getElem?_map]
    cases l[i]? <;> simp [h]
  rw [hget, hsame, ← hget]

variable {state : BudgetState}

/-- A meter with other ladders fired. -/
theorem Conserved.of_fired (h : Conserved state) {fired : Finset BudgetThreshold}
    (hsame : tallies.map unfired = state.rowTallies.map unfired) :
    Conserved { state with firedThresholds := fired, rowTallies := tallies } := by
  have hlength : tallies.length = state.rowTallies.length := by
    simpa using congrArg List.length hsame
  refine { h with tallies := ?_, row := ?_, floor := ?_, within := ?_, used := ?_ }
  · exact hlength.trans h.tallies
  · intro i hi
    rw [← h.row i (hlength ▸ hi)]
    exact valueAt_unfired (fun _ => rfl) hsame i
  · intro i hi
    rw [← h.floor i (hlength ▸ hi)]
    exact valueAt_unfired (fun _ => rfl) hsame i
  · intro i
    have hwithin := h.within i
    rwa [← valueAt_unfired (fun _ => rfl) hsame i, ← valueAt_unfired (fun _ => rfl) hsame i]
      at hwithin
  · have hsum : (tallies.map (·.floorUsedUnits.val)).sum =
        (state.rowTallies.map (·.floorUsedUnits.val)).sum := by
      rw [← sum_valueAt, ← sum_valueAt, hlength]
      exact sum_congr rfl fun i _ => valueAt_unfired (fun _ => rfl) hsame i
    exact h.used.trans (by rw [← hsum])

theorem Conserved.fire (h : Conserved state) : Conserved state.fireLadderEvents.2 :=
  h.of_fired (map_unfired_fireRows _ _ _)

theorem valueAt_fire {w : BudgetRowTally → ℕ} (h : ∀ tally, w tally.unfired = w tally)
    (state : BudgetState) (i : ℕ) :
    valueAt w state.fireLadderEvents.2.rowTallies i = valueAt w state.rowTallies i :=
  valueAt_unfired h (map_unfired_fireRows _ _ _) i

theorem length_fire (state : BudgetState) :
    state.fireLadderEvents.2.rowTallies.length = state.rowTallies.length := by
  have hsame : state.fireLadderEvents.2.rowTallies.map unfired = _ :=
    map_unfired_fireRows _ _ _
  simpa using congrArg List.length hsame

theorem Conserved.revise (h : Conserved state) (limit reserve : U64) :
    Conserved (state.reviseLine limit reserve) :=
  { h with horizons := rfl }

/-! ## Admission -/

/-- What an admitted plan says: the amount fits the line, and its split fits the floors. -/
structure Planned (state : BudgetState) (reserve : U64) (allocation : ReserveAllocation) :
    Prop where
  nodup : allocation.matchedRows.Nodup
  rows_lt : ∀ row ∈ allocation.matchedRows, row < state.policy.length
  floors : (allocation.floorAllocations.map (·.rowIndex)).Sublist allocation.matchedRows
  split : state.policy ≠ [] → (allocation.floorAllocations.map (·.units.val)).sum +
    allocation.sharedUnits.val = reserve.val
  plain : state.policy = [] → allocation.sharedUnits = 0
  headroom : ∀ row, share (·.rowIndex) (·.units.val) allocation.floorAllocations row ≤
    headroom state.policy state.rowTallies row
  fits : state.usedUnits.val + state.reservedUnits.val + reserve.val ≤ state.capUnits.val
  caps : ∀ row ∈ allocation.matchedRows, ∀ cap, state.policy[row]?.bind (·.capUnits) = some cap →
    valueAt (·.usedUnits.val) state.rowTallies row +
      valueAt (·.reservedUnits.val) state.rowTallies row + reserve.val ≤ cap.val
  shared : 0 < allocation.sharedUnits.val → state.sharedUsedUnits.val +
    state.sharedReservedUnits.val + allocation.sharedUnits.val ≤ state.sharedAdmissionCeiling.val

theorem exceeds_eq_false {a b c cap : U64} :
    exceeds a b c cap = false ↔ a.val + b.val + c.val ≤ cap.val := by
  simp [exceeds]

theorem nodup_matchedRows (state : BudgetState) (purpose : Option CallPurpose) :
    (state.matchedRows purpose).Nodup :=
  List.nodup_range.filter _

theorem matchedRows_lt (state : BudgetState) (purpose : Option CallPurpose) :
    ∀ row ∈ state.matchedRows purpose, row < state.policy.length := fun _ hrow =>
  List.mem_range.mp (List.mem_of_mem_filter hrow)

/-- A call the matched caps let through fits each of them. -/
theorem caps_of_matchedCapDenies (htallies : state.rowTallies.length = state.policy.length)
    {rows : List ℕ} (hrows : ∀ row ∈ rows, row < state.policy.length) :
    state.matchedCapDenies rows reserve = false ↔
      ∀ row ∈ rows, ∀ cap, state.policy[row]?.bind (·.capUnits) = some cap →
        valueAt (·.usedUnits.val) state.rowTallies row +
          valueAt (·.reservedUnits.val) state.rowTallies row + reserve.val ≤ cap.val := by
  rw [matchedCapDenies, List.any_eq_false]
  refine forall₂_congr fun row hrow => ?_
  have hlt : row < state.rowTallies.length := htallies ▸ hrows row hrow
  simp only [valueAt, List.getElem?_eq_getElem hlt, elim_some]
  cases state.policy[row]?.bind (·.capUnits) with
  | none => simp
  | some cap => simp [exceeds]

theorem planned_of_planReserve (h : Conserved state) {purpose : Option CallPurpose}
    (hplan : state.planReserve reserve purpose = .admitted allocation) :
    Planned state reserve allocation := by
  unfold planReserve at hplan
  split at hplan
  · rename_i hempty
    rw [List.isEmpty_iff] at hempty
    split at hplan
    · cases hplan
    · rename_i hfits
      cases hplan
      rw [Bool.not_eq_true, globalDenies, exceeds_eq_false] at hfits
      exact ⟨List.nodup_nil, nofun, .refl _, fun hne => absurd hempty hne, fun _ => rfl,
        fun _ => zero_le _, hfits, nofun, fun hpos => absurd hpos (lt_irrefl _)⟩
  · rename_i hrows
    have hlt : ∀ row ∈ state.matchedRows purpose, row < state.rowTallies.length := fun row hrow =>
      h.tallies ▸ matchedRows_lt state purpose row hrow
    dsimp only at hplan
    split at hplan
    · cases hplan
    · rename_i hcaps
      rw [Bool.not_eq_true, caps_of_matchedCapDenies h.tallies (matchedRows_lt state purpose)]
        at hcaps
      split at hplan
      · cases hplan
      · rename_i hshared
        split at hplan
        · cases hplan
        · rename_i hfits
          cases hplan
          rw [Bool.not_eq_true, globalDenies, exceeds_eq_false] at hfits
          refine ⟨nodup_matchedRows state purpose, matchedRows_lt state purpose,
            rows_allocateFloors reserve hlt, fun _ => sum_allocateFloors reserve hlt,
            fun hnil => absurd hnil (by simpa using hrows),
            share_allocateFloors reserve (nodup_matchedRows state purpose) hlt, hfits, hcaps,
            fun hpos => ?_⟩
          rw [not_and, Bool.not_eq_true, exceeds_eq_false] at hshared
          exact hshared hpos

/-- The entry a reservation makes on a matched row… -/
def holdRow (reserve : U64) (_ : ℕ) (tally : BudgetRowTally) : BudgetRowTally :=
  { tally with reservedUnits := tally.reservedUnits.satAdd reserve }

/-- …and on a floor it draws. -/
def holdFloor (floor : FloorAllocation) (tally : BudgetRowTally) : BudgetRowTally :=
  { tally with floorReservedUnits := tally.floorReservedUnits.satAdd floor.units }

/-- The tallies once a reservation is committed. -/
theorem rowTallies_commit (state : BudgetState) (reserve : U64) (allocation : ReserveAllocation) :
    (state.commitReservation reserve allocation).rowTallies =
      pass (·.rowIndex) holdFloor allocation.floorAllocations
        (pass id (holdRow reserve) allocation.matchedRows state.rowTallies) := rfl

section Commit

variable {reserve : U64} {allocation : ReserveAllocation} {row : ℕ}

theorem reserved_commit (hrow : row < state.rowTallies.length) :
    valueAt (·.reservedUnits.val) (state.commitReservation reserve allocation).rowTallies row =
      min (valueAt (·.reservedUnits.val) state.rowTallies row +
        share id (fun _ => reserve.val) allocation.matchedRows row) U64.top := by
  rw [rowTallies_commit, valueAt_pass_of_keep (g := holdFloor) fun _ _ => rfl]
  exact valueAt_pass_add (fun _ _ => rfl) (fun tally => tally.reservedUnits.le_top) hrow

theorem floorReserved_commit (hrow : row < state.rowTallies.length) :
    valueAt (·.floorReservedUnits.val) (state.commitReservation reserve allocation).rowTallies row =
      min (valueAt (·.floorReservedUnits.val) state.rowTallies row +
        share (·.rowIndex) (·.units.val) allocation.floorAllocations row) U64.top := by
  rw [rowTallies_commit, valueAt_pass_add (fun _ _ => rfl) (fun tally =>
    tally.floorReservedUnits.le_top) (hrow.trans_eq length_pass.symm),
    valueAt_pass_of_keep (g := holdRow reserve) fun _ _ => rfl]

theorem floorUsed_commit : valueAt (·.floorUsedUnits.val)
    (state.commitReservation reserve allocation).rowTallies row =
      valueAt (·.floorUsedUnits.val) state.rowTallies row := by
  rw [rowTallies_commit, valueAt_pass_of_keep (g := holdFloor) fun _ _ => rfl,
    valueAt_pass_of_keep (g := holdRow reserve) fun _ _ => rfl]

theorem length_commit : (state.commitReservation reserve allocation).rowTallies.length =
    state.rowTallies.length := by
  rw [rowTallies_commit, length_pass, length_pass]

end Commit

theorem BudgetPolicyTable.floorAt_le_top (policy : BudgetPolicyTable) (row : ℕ) :
    policy.floorAt row ≤ U64.top := by
  unfold BudgetPolicyTable.floorAt
  cases policy[row]?.bind (·.floorUnits) with
  | none => exact zero_le _
  | some floor => exact floor.le_top

/-- Past the last row nothing is booked. -/
theorem valueAt_eq_zero {α : Type} {w : α → ℕ} {l : List α} {i : ℕ} (h : l.length ≤ i) :
    valueAt w l i = 0 := by
  rw [valueAt, List.getElem?_eq_none h]
  rfl

theorem sum_congr_valueAt {α : Type} {w w' : α → ℕ} {l l' : List α} (hlength : l'.length = l.length)
    (h : ∀ i, valueAt w' l' i = valueAt w l i) : (l'.map w').sum = (l.map w).sum := by
  rw [← sum_valueAt, ← sum_valueAt, hlength]
  exact sum_congr rfl fun i _ => h i

/-- What the ledger reserves on one row is part of what it reserves. -/
theorem LeaseSplit.rowShare_le (h : LeaseSplit policy record) (row : ℕ) :
    record.rowShare row ≤ record.reserveUnits.val := by
  by_cases hrow : row ∈ record.matchedRows
  · exact (share_of_nodup (by simpa using h.nodup) hrow).le
  · unfold rowShare
    rw [share_eq_zero fun other hother (heq : id other = row) => hrow (heq ▸ hother)]
    exact zero_le _

/-- No part of the reserve is past the whole. -/
theorem LeaseSplit.shared_le (h : LeaseSplit policy record) :
    record.sharedReservedUnits.val ≤ record.reserveUnits.val := by
  by_cases hpolicy : policy = []
  · rw [h.plain hpolicy]
    exact zero_le _
  · have hsplit := h.split hpolicy
    omega

section

variable (h : Conserved state)

include h

theorem Conserved.shared_le : state.sharedReservedUnits.val ≤ state.reservedUnits.val := by
  rw [h.shared, h.reserved]
  exact openSum_mono fun _ _ hrecord => (h.split hrecord).shared_le

theorem Conserved.row_le {row : ℕ} (hrow : row < state.rowTallies.length) :
    valueAt (·.reservedUnits.val) state.rowTallies row ≤ state.reservedUnits.val := by
  rw [h.row row hrow, h.reserved]
  exact openSum_mono fun _ _ hrecord => (h.split hrecord).rowShare_le row

theorem Conserved.fresh : state.leases[state.nextLeaseSeq + 1]? = none := by
  cases hrecord : state.leases[state.nextLeaseSeq + 1]? with
  | none => rfl
  | some record => exact absurd (h.seq_le hrecord) (not_succ_le_self _)

/-- Every sum gains what the new lease counts for. -/
theorem Conserved.openSum_issued (w : LeaseRecord → ℕ) (reserve : U64) (metered : Bool)
    (allocation : ReserveAllocation) (binding : Option DispatchBinding) :
    openSum w ((state.commitReservation reserve allocation).issueLease reserve metered allocation
      binding).2.leases = openSum w state.leases + w ⟨reserve, metered, .opened,
        allocation.matchedRows, allocation.floorAllocations, allocation.sharedUnits, binding,
        false⟩ :=
  openSum_issue h.fresh rfl

/-- **Opening a lease puts its reservation on every counter.** -/
theorem Conserved.issue {metered : Bool} {binding : Option DispatchBinding}
    (hsplit : LeaseSplit state.policy ⟨reserve, metered, .opened, allocation.matchedRows,
      allocation.floorAllocations, allocation.sharedUnits, binding, false⟩)
    (hroom : ∀ row, share (·.rowIndex) (·.units.val) allocation.floorAllocations row ≤
      headroom state.policy state.rowTallies row)
    (hfits : state.reservedUnits.val + reserve.val ≤ U64.top) :
    Conserved ((state.commitReservation reserve allocation).issueLease reserve metered allocation
      binding).2 where
  tallies := length_commit.trans h.tallies
  totalFloor := h.totalFloor
  horizons := h.horizons
  seq_le := by
    intro seq record hrecord
    simp only [issueLease, commitReservation,
      getElem?_insert] at hrecord ⊢
    split at hrecord
    · rename_i heq
      exact (LawfulEqCmp.eq_of_compare heq).ge
    · exact le_succ_of_le (h.seq_le hrecord)
  split := by
    intro seq record hrecord
    simp only [issueLease, commitReservation,
      getElem?_insert] at hrecord
    split at hrecord
    · exact some.inj hrecord ▸ hsplit
    · exact h.split hrecord
  reserved := by
    refine (U64.val_satAdd_of_le hfits).trans ?_
    rw [h.reserved]
    exact (h.openSum_issued (·.reserveUnits.val) reserve metered allocation binding).symm
  shared := by
    have hle := h.shared_le
    have hpart : allocation.sharedUnits.val ≤ reserve.val := hsplit.shared_le
    refine (U64.val_satAdd_of_le (by omega)).trans ?_
    rw [h.shared]
    exact (h.openSum_issued (·.sharedReservedUnits.val) reserve metered allocation binding).symm
  row := by
    intro row hrow
    rw [issueLease, length_commit] at hrow
    have hle : valueAt (·.reservedUnits.val) state.rowTallies row +
        share id (fun _ => reserve.val) allocation.matchedRows row ≤ U64.top := by
      have hpart : share id (fun _ => reserve.val) allocation.matchedRows row ≤ reserve.val :=
        hsplit.rowShare_le row
      have hrow' := h.row_le hrow
      omega
    refine ((reserved_commit hrow).trans (min_eq_left hle)).trans ?_
    rw [h.row row hrow]
    exact (h.openSum_issued (·.rowShare row) reserve metered allocation binding).symm
  floor := by
    intro row hrow
    rw [issueLease, length_commit] at hrow
    have hle : valueAt (·.floorReservedUnits.val) state.rowTallies row +
        share (·.rowIndex) (·.units.val) allocation.floorAllocations row ≤ U64.top := by
      have hroom' := hroom row
      have htop := BudgetPolicyTable.floorAt_le_top state.policy row
      have hwithin := h.within row
      rw [headroom] at hroom'
      omega
    refine ((floorReserved_commit hrow).trans (min_eq_left hle)).trans ?_
    rw [h.floor row hrow]
    exact (h.openSum_issued (·.floorShare row) reserve metered allocation binding).symm
  within := by
    intro row
    have hwithin := h.within row
    have hused : valueAt (·.floorUsedUnits.val)
      (state.commitReservation reserve allocation).rowTallies row = _ := floorUsed_commit
    have hroom' := hroom row
    rw [headroom] at hroom'
    simp only [issueLease, hused]
    by_cases hrow : row < state.rowTallies.length
    · rw [floorReserved_commit hrow]
      have hpolicy : (state.commitReservation reserve allocation).policy = state.policy := rfl
      rw [hpolicy]
      omega
    · rw [valueAt_eq_zero (l := (state.commitReservation reserve allocation).rowTallies)
        (length_commit.trans_le (Nat.not_lt.mp hrow))]
      exact (le_add_right _ _).trans hwithin
  used := by
    refine h.used.trans ?_
    rw [← sum_congr_valueAt length_commit fun _ => floorUsed_commit]
    rfl

end

/-! ## Settlement -/

/-- The entry a release makes on a matched row… -/
def freeRow (reserve : U64) (_ : ℕ) (tally : BudgetRowTally) : BudgetRowTally :=
  { tally with reservedUnits := tally.reservedUnits.satSub reserve }

/-- …and on a floor it gives back. -/
def freeFloor (floor : FloorAllocation) (tally : BudgetRowTally) : BudgetRowTally :=
  { tally with floorReservedUnits := tally.floorReservedUnits.satSub floor.units }

section Close

variable {lease : BudgetLease} {record : LeaseRecord} {closed : LeaseState} {row : ℕ}

/-- The tallies once a lease is closed. -/
theorem rowTallies_close : (state.closeLease lease record closed).rowTallies =
    pass (·.rowIndex) freeFloor record.floorAllocations
      (pass id (freeRow record.reserveUnits) record.matchedRows state.rowTallies) := rfl

theorem length_close :
    (state.closeLease lease record closed).rowTallies.length = state.rowTallies.length := by
  rw [rowTallies_close, length_pass, length_pass]

theorem reserved_close :
    valueAt (·.reservedUnits.val) (state.closeLease lease record closed).rowTallies row =
      valueAt (·.reservedUnits.val) state.rowTallies row - record.rowShare row := by
  rw [rowTallies_close, valueAt_pass_of_keep (g := freeFloor) fun _ _ => rfl]
  exact valueAt_pass_sub fun _ _ => rfl

theorem floorReserved_close :
    valueAt (·.floorReservedUnits.val) (state.closeLease lease record closed).rowTallies row =
      valueAt (·.floorReservedUnits.val) state.rowTallies row - record.floorShare row := by
  rw [rowTallies_close, valueAt_pass_sub (fun _ _ => rfl),
    valueAt_pass_of_keep (g := freeRow record.reserveUnits) fun _ _ => rfl]
  rfl

theorem floorUsed_close :
    valueAt (·.floorUsedUnits.val) (state.closeLease lease record closed).rowTallies row =
      valueAt (·.floorUsedUnits.val) state.rowTallies row := by
  rw [rowTallies_close, valueAt_pass_of_keep (g := freeFloor) fun _ _ => rfl,
    valueAt_pass_of_keep (g := freeRow record.reserveUnits) fun _ _ => rfl]

theorem reservedUnits_close : (state.closeLease lease record closed).reservedUnits.val =
    state.reservedUnits.val - record.reserveUnits.val := rfl

theorem sharedReservedUnits_close :
    (state.closeLease lease record closed).sharedReservedUnits.val =
      state.sharedReservedUnits.val - record.sharedReservedUnits.val := rfl

theorem leases_close : (state.closeLease lease record closed).leases =
    state.leases.insert lease.seq { record with state := closed } := rfl

/-- Every sum loses what the lease counted for. -/
theorem openSum_closed (w : LeaseRecord → ℕ) (hrecord : state.leases[lease.seq]? = some record)
    (hopen : record.state = .opened) (hclosed : closed ≠ .opened) :
    openSum w (state.closeLease lease record closed).leases + w record =
      openSum w state.leases :=
  openSum_close hrecord hopen hclosed

/-- **Closing a lease takes its reservation off every counter.** -/
theorem Conserved.close (h : Conserved state) (hrecord : state.leases[lease.seq]? = some record)
    (hopen : record.state = .opened) (hclosed : closed ≠ .opened) :
    Conserved (state.closeLease lease record closed) where
  tallies := length_close.trans h.tallies
  totalFloor := h.totalFloor
  horizons := h.horizons
  seq_le := by
    intro seq other hother
    rw [leases_close, getElem?_insert] at hother
    split at hother
    · rename_i heq
      exact LawfulEqCmp.eq_of_compare heq ▸ h.seq_le hrecord
    · exact h.seq_le hother
  split := by
    intro seq other hother
    rw [leases_close, getElem?_insert] at hother
    split at hother
    · have hsplit := h.split hrecord
      exact some.inj hother ▸ ⟨hsplit.nodup, hsplit.rows_lt, hsplit.floors, hsplit.split,
        hsplit.plain, hsplit.unmetered⟩
    · exact h.split hother
  reserved := by
    have hsum := openSum_closed (·.reserveUnits.val) hrecord hopen hclosed
    rw [reservedUnits_close, h.reserved]
    omega
  shared := by
    have hsum := openSum_closed (·.sharedReservedUnits.val) hrecord hopen hclosed
    rw [sharedReservedUnits_close, h.shared]
    omega
  row := by
    intro row hrow
    rw [length_close] at hrow
    have hsum := openSum_closed (·.rowShare row) hrecord hopen hclosed
    rw [reserved_close, h.row row hrow]
    omega
  floor := by
    intro row hrow
    rw [length_close] at hrow
    have hsum := openSum_closed (·.floorShare row) hrecord hopen hclosed
    rw [floorReserved_close, h.floor row hrow]
    omega
  within := by
    intro row
    rw [floorUsed_close, floorReserved_close]
    exact (Nat.add_le_add_left (Nat.sub_le _ _) _).trans (h.within row)
  used := by
    refine h.used.trans ?_
    rw [← sum_congr_valueAt length_close fun _ => floorUsed_close]
    rfl

end Close

/-- The entry a charge makes on a matched row. -/
def chargeRow (used : U64) (_ : ℕ) (tally : BudgetRowTally) : BudgetRowTally :=
  { tally with usedUnits := tally.usedUnits.satAdd used }

section Charge

variable {record : LeaseRecord} {used : U64} {row : ℕ}

/-- The floors a charge draws. -/
def charged (state : BudgetState) (record : LeaseRecord) (used : U64) :
    List FloorAllocation × U64 :=
  allocateFloors state.policy (pass id (chargeRow used) record.matchedRows state.rowTallies)
    record.matchedRows used

theorem applyUsage_eq (hsplit : LeaseSplit state.policy record)
    (htallies : state.rowTallies.length = state.policy.length) :
    state.applyUsageForLease record used = { state with
      rowTallies := pass (·.rowIndex) drawOn (charged state record used).1
        (pass id (chargeRow used) record.matchedRows state.rowTallies)
      sharedUsedUnits := state.sharedUsedUnits.satAdd (charged state record used).2 } := by
  have hlt : ∀ row ∈ record.matchedRows,
      row < (pass id (chargeRow used) record.matchedRows state.rowTallies).length := by
    intro row hrow
    rw [length_pass, htallies]
    exact hsplit.rows_lt row hrow
  have hdraw : drawFloors state.policy record.matchedRows used
      (pass id (chargeRow used) record.matchedRows state.rowTallies) = _ :=
    drawFloors_eq used hsplit.nodup hlt
  rw [show state.applyUsageForLease record used = { state with
    rowTallies := (drawFloors state.policy record.matchedRows used
      (pass id (chargeRow used) record.matchedRows state.rowTallies)).1
    sharedUsedUnits := state.sharedUsedUnits.satAdd (drawFloors state.policy record.matchedRows used
      (pass id (chargeRow used) record.matchedRows state.rowTallies)).2 } from rfl, hdraw]
  rfl

/-- A matched row's own charge leaves its floor's amounts. -/
theorem headroom_chargeRow (record : LeaseRecord) (used : U64) (row : ℕ) : headroom state.policy
    (pass id (chargeRow used) record.matchedRows state.rowTallies) row =
      headroom state.policy state.rowTallies row := by
  unfold headroom
  rw [valueAt_pass_of_keep (g := chargeRow used) fun _ _ => rfl,
    valueAt_pass_of_keep (g := chargeRow used) fun _ _ => rfl]

/-- What a charge draws: all of it, within every floor, on rows of the table. -/
theorem charged_spec (hsplit : LeaseSplit state.policy record)
    (htallies : state.rowTallies.length = state.policy.length) (used : U64) :
    ((charged state record used).1.map (·.units.val)).sum + (charged state record used).2.val =
        used.val ∧
    (∀ row, share (·.rowIndex) (·.units.val) (charged state record used).1 row ≤
      headroom state.policy state.rowTallies row) ∧
    (∀ floor ∈ (charged state record used).1, floor.rowIndex < state.rowTallies.length) ∧
    (charged state record used).2.val =
      used.val - (record.matchedRows.map (headroom state.policy state.rowTallies)).sum := by
  have hlt : ∀ row ∈ record.matchedRows,
      row < (pass id (chargeRow used) record.matchedRows state.rowTallies).length := by
    intro row hrow
    rw [length_pass, htallies]
    exact hsplit.rows_lt row hrow
  refine ⟨sum_allocateFloors used hlt, fun row => ?_, fun floor hfloor => ?_, ?_⟩
  · rw [← headroom_chargeRow record used row]
    exact share_allocateFloors used hsplit.nodup hlt row
  · rw [htallies]
    exact hsplit.rows_lt _ ((rows_allocateFloors used hlt).subset (List.mem_map_of_mem hfloor))
  · refine (allocateFloors_rest used hlt).trans ?_
    rw [List.map_congr_left fun row _ => headroom_chargeRow record used row]

variable {spent : U64}

section

variable (hsplit : LeaseSplit state.policy record)

include hsplit

variable (htallies : state.rowTallies.length = state.policy.length)
include htallies

/-- The tallies once a charge is booked. -/
theorem rowTallies_charge : (state.applyUsageForLease record used).rowTallies =
      pass (·.rowIndex) drawOn (charged state record used).1
        (pass id (chargeRow used) record.matchedRows state.rowTallies) := by
  rw [applyUsage_eq hsplit htallies]

theorem length_charge (used : U64) :
    (state.applyUsageForLease record used).rowTallies.length = state.rowTallies.length := by
  rw [rowTallies_charge hsplit htallies, length_pass, length_pass]

theorem floorUsed_charge (hrow : row < state.rowTallies.length) :
    valueAt (·.floorUsedUnits.val) (state.applyUsageForLease record used).rowTallies row =
      min (valueAt (·.floorUsedUnits.val) state.rowTallies row +
        share (·.rowIndex) (·.units.val) (charged state record used).1 row) U64.top := by
  rw [rowTallies_charge hsplit htallies, valueAt_pass_add (fun _ _ => rfl) (fun tally =>
    tally.floorUsedUnits.le_top) (hrow.trans_eq length_pass.symm),
    valueAt_pass_of_keep (g := chargeRow used) fun _ _ => rfl]

theorem reserved_charge
    {w : BudgetRowTally → ℕ} (hdraw : ∀ floor tally, w (drawOn floor tally) = w tally)
    (hcharge : ∀ row tally, w (chargeRow used row tally) = w tally) :
    valueAt w (state.applyUsageForLease record used).rowTallies row =
      valueAt w state.rowTallies row := by
  rw [rowTallies_charge hsplit htallies, valueAt_pass_of_keep hdraw, valueAt_pass_of_keep hcharge]

end

/-- Every floor has room for what a charge draws on it. -/
theorem Conserved.floorUsed_charge (h : Conserved state) (hsplit : LeaseSplit state.policy record)
    (used : U64) (hrow : row < state.rowTallies.length) :
    valueAt (·.floorUsedUnits.val) (state.applyUsageForLease record used).rowTallies row =
      valueAt (·.floorUsedUnits.val) state.rowTallies row +
        share (·.rowIndex) (·.units.val) (charged state record used).1 row := by
  obtain ⟨-, hroom, -, -⟩ := charged_spec hsplit h.tallies used
  have htop := BudgetPolicyTable.floorAt_le_top state.policy row
  have hroom' := hroom row
  have hwithin := h.within row
  rw [Oneiron.floorUsed_charge hsplit h.tallies hrow]
  rw [headroom] at hroom'
  omega

theorem Conserved.floors_charge (h : Conserved state) (hsplit : LeaseSplit state.policy record)
    (used : U64) :
    ((state.applyUsageForLease record used).rowTallies.map (·.floorUsedUnits.val)).sum =
      (state.rowTallies.map (·.floorUsedUnits.val)).sum +
        ((charged state record used).1.map (·.units.val)).sum := by
  obtain ⟨-, -, hlt, -⟩ := charged_spec hsplit h.tallies used
  rw [← sum_valueAt, ← sum_valueAt, length_charge hsplit h.tallies used, ← sum_share hlt,
    ← sum_add_distrib]
  exact sum_congr rfl fun i hi => h.floorUsed_charge hsplit used (mem_range.mp hi)

theorem Conserved.sharedUsed_charge (h : Conserved state) (hsplit : LeaseSplit state.policy record)
    (used : U64) : (state.applyUsageForLease record used).sharedUsedUnits.val =
      min (state.sharedUsedUnits.val + (charged state record used).2.val) U64.top := by
  rw [applyUsage_eq hsplit h.tallies]
  rfl

/-- **A charge is booked once over the partitions**, floors first. -/
theorem Conserved.charge (h : Conserved state) (hsplit : LeaseSplit state.policy record)
    (hspent : spent.val = min (state.usedUnits.val + used.val) U64.top) :
    Conserved ({ state with usedUnits := spent }.applyUsageForLease record used) := by
  obtain ⟨hsum, hroom, -, -⟩ := charged_spec hsplit h.tallies used
  have hlength := length_charge hsplit h.tallies used
  have hkeeps : ∀ {w : BudgetRowTally → ℕ}, (∀ floor tally, w (drawOn floor tally) = w tally) →
      (∀ row tally, w (chargeRow used row tally) = w tally) → ∀ i, valueAt w
        (state.applyUsageForLease record used).rowTallies i = valueAt w state.rowTallies i :=
    fun hdraw hcharge _ => reserved_charge hsplit h.tallies hdraw hcharge
  have hfields : { state with usedUnits := spent }.applyUsageForLease record used =
      { state.applyUsageForLease record used with usedUnits := spent } := rfl
  rw [hfields]
  refine { h with tallies := hlength.trans h.tallies, row := ?_, floor := ?_, within := ?_, used := ?_ }
  · intro i hi
    exact (hkeeps (fun _ _ => rfl) (fun _ _ => rfl) i).trans (h.row i (hi.trans_eq hlength))
  · intro i hi
    exact (hkeeps (fun _ _ => rfl) (fun _ _ => rfl) i).trans (h.floor i (hi.trans_eq hlength))
  · intro i
    have hreserved : valueAt (·.floorReservedUnits.val)
        (state.applyUsageForLease record used).rowTallies i = _ :=
      hkeeps (fun _ _ => rfl) (fun _ _ => rfl) i
    have hwithin := h.within i
    have hroom' := hroom i
    rw [headroom] at hroom'
    by_cases hi : i < state.rowTallies.length
    · dsimp only
      rw [h.floorUsed_charge hsplit used hi, hreserved]
      have hpolicy : (state.applyUsageForLease record used).policy = state.policy := rfl
      rw [hpolicy]
      omega
    · dsimp only
      rw [hreserved, valueAt_eq_zero (hlength.trans_le (Nat.not_lt.mp hi)), Nat.zero_add]
      exact (le_add_left _ _).trans hwithin
  · dsimp only
    rw [hspent, h.floors_charge hsplit used, h.sharedUsed_charge hsplit used, h.used]
    omega

end Charge

end Oneiron
