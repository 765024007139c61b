import Oneiron.Sync.CarriedCutoffs

/-!
# Sync/StagedCutoffs — carried cutoffs and floors, staged into a vault

Each read is a transaction of its own, and other doors may write before what it found is written.
None of them lowers a row, so what a staging leaves is the higher of what stood and what it carried
(`stage_rises`).
-/

open Std

namespace Oneiron

open Std.ExtTreeMap List EpochFloor WithdrawnCutoff

/-- `fold_cutoff_rows`. -/
def foldCutoffRows (carried : List CarriedCutoff) :
    OrderedMap EntityId WithdrawnCutoff × OrderedMap EpochScope EpochFloor :=
  carried.foldl (fun folded row =>
    match row with
    | .withdrawn id cutoff => (raiseCutoff folded.1 id cutoff, folded.2)
    | .epochFloor scope floor =>
      (folded.1, folded.2.insert scope ((folded.2[scope]?.getD floor).max floor))) (∅, ∅)

/-- The cutoffs among rows. -/
def cutoffsOf (rows : List CarriedCutoff) : List (EntityId × WithdrawnCutoff) :=
  rows.filterMap fun
    | .withdrawn id cutoff => some (id, cutoff)
    | .epochFloor _ _ => none

/-- The floors among rows. -/
def floorsOf (rows : List CarriedCutoff) : List (EpochScope × EpochFloor) :=
  rows.filterMap fun
    | .withdrawn _ _ => none
    | .epochFloor scope floor => some (scope, floor)

theorem cutoffsOf_append (rows rows' : List CarriedCutoff) :
    cutoffsOf (rows ++ rows') = cutoffsOf rows ++ cutoffsOf rows' := filterMap_append ..

theorem floorsOf_append (rows rows' : List CarriedCutoff) :
    floorsOf (rows ++ rows') = floorsOf rows ++ floorsOf rows' := filterMap_append ..

/-- **Folding rows** leaves the highest of each artifact's and each lineage's. -/
theorem foldCutoffRows_eq (carried : List CarriedCutoff) : foldCutoffRows carried =
    (raiseAll rank ∅ (cutoffsOf carried),
      raiseAll position ∅ (floorsOf carried)) := by
  suffices ∀ (newest : OrderedMap EntityId WithdrawnCutoff) (floors : OrderedMap EpochScope EpochFloor),
      carried.foldl (fun folded row => match row with
        | .withdrawn id cutoff => (raiseCutoff folded.1 id cutoff, folded.2)
        | .epochFloor scope floor =>
          (folded.1, folded.2.insert scope ((folded.2[scope]?.getD floor).max floor)))
        (newest, floors) =
      (raiseAll rank newest (cutoffsOf carried),
        raiseAll position floors (floorsOf carried)) from this ∅ ∅
  induction carried with
  | nil => exact fun _ _ => rfl
  | cons row carried ih =>
    intro newest floors
    rw [foldl_cons]
    cases row with
    | withdrawn id cutoff =>
      rw [ih, raiseCutoff_eq]
      rfl
    | epochFloor scope floor =>
      have hmax : (floors[scope]?.getD floor).max floor =
          raised position floors[scope]? floor := by
        rw [max_eq_raised]
        cases floors[scope]? with
        | none => simp [raised]
        | some held => rfl
      rw [ih, hmax]
      rfl

/-- A vault's rows of withdrawn generations and of epoch floors. -/
structure CutoffVault where
  rows : WithdrawnRows
  floors : OrderedMap EpochScope EpochFloor

instance : EmptyCollection CutoffVault := ⟨⟨∅, ∅⟩⟩

/-- What another door writes of them. -/
inductive CutoffWrite where
  /-- A withdrawal queues its sweep. -/
  | withdraw (id : EntityId) (named : id.Named) (cutoff : WithdrawnCutoff) (queuedAt : ℕ)
  /-- A removal raises a floor. -/
  | raiseFloor (scope : EpochScope) (floor : EpochFloor)
  /-- A queued sweep finishes. -/
  | finish (key : Bytes)
  /-- A queued sweep fails, and is put off. -/
  | putOff (key : Bytes) (retryState : HardEraseRetryState)

/-- The row a write brings. -/
def CutoffWrite.seen : CutoffWrite → List CarriedCutoff
  | withdraw id _ cutoff _ => [.withdrawn id cutoff]
  | raiseFloor scope floor => [.epochFloor scope floor]
  | finish _ => []
  | putOff _ _ => []

namespace WithdrawnRows

/-- `unseen`. -/
def unseen (rows : WithdrawnRows) (id : EntityId) (generation : UInt64) : Except Error Bool :=
  (rows.withdrawnGenerationCutoff id).map (·.all (·.generation < generation))

/-- The cutoffs a staging finds unseen. -/
def pendingOf (rows : WithdrawnRows) (newest : OrderedMap EntityId WithdrawnCutoff) :
    Except Error (List (EntityId × WithdrawnCutoff)) :=
  newest.toList.foldlM (fun pending p => do
    if ← rows.unseen p.1 p.2.generation then pure (pending ++ [p]) else pure pending) []

/-- `stage_prepared_withdrawn_in_txn`: another door may have staged one since the read. -/
def stagePrepared (rows : WithdrawnRows) (pending : List (EntityId × WithdrawnCutoff)) (recordedAt : ℕ) :
    Except Error WithdrawnRows :=
  pending.foldlM (fun rows p => do
    if ← rows.unseen p.1 p.2.generation then
      pure (rows.enqueue p.1 p.2.generation p.2.replacement recordedAt)
    else pure rows) rows

end WithdrawnRows

/-- The floors a staging finds above those held. -/
def floorsToRaise (held carried : OrderedMap EpochScope EpochFloor) : List (EpochScope × EpochFloor) :=
  carried.toList.filter fun p => held[p.1]?.all (·.position < p.2.position)

namespace CutoffVault

/-- One write of another door, in a transaction of its own. -/
def write (v : CutoffVault) : CutoffWrite → Except Error CutoffVault
  | .withdraw id _ cutoff queuedAt =>
    .ok { v with rows := v.rows.enqueue id cutoff.generation cutoff.replacement queuedAt }
  | .raiseFloor scope floor => .ok { v with floors := raiseEpochScopeFloor v.floors scope floor }
  | .finish key =>
    match v.rows.queue[key]? with
    | none => .ok v
    | some job => (v.rows.finalize key job).map ({ v with rows := · })
  | .putOff key retryState =>
    match v.rows.queue[key]? with
    | none => .ok v
    | some job => .ok { v with rows := v.rows.rewriteForRetry key job retryState }

/-- `raise_epoch_floors`, other doors writing between its read and its write. -/
def raiseEpochFloors (v : CutoffVault) (carried : OrderedMap EpochScope EpochFloor)
    (meanwhile : List CutoffWrite) : Except Error CutoffVault := do
  let raised := floorsToRaise v.floors carried
  let v ← meanwhile.foldlM write v
  pure { v with floors := raised.foldl (fun floors p => raiseEpochScopeFloor floors p.1 p.2) v.floors }

/-- `stage_withdrawn_cutoffs`, other doors writing between each read and its write.  The resident
words it withdraws are withdrawals of their own. -/
def stageWithdrawnCutoffs (v : CutoffVault) (carried : List CarriedCutoff)
    (meanwhile meanwhile' : List CutoffWrite) (recordedAt : ℕ) : Except Error CutoffVault := do
  let (newest, floors) := foldCutoffRows carried
  let v ← v.raiseEpochFloors floors meanwhile
  let pending ← v.rows.pendingOf newest
  let v ← meanwhile'.foldlM write v
  let rows ← v.rows.stagePrepared pending recordedAt
  pure { v with rows }

/-! ## Rows only rise -/

/-- Rows and floors, each raised to the higher of what stood and what came. -/
structure Rises (v : CutoffVault) (seen : List CarriedCutoff) (v' : CutoffVault) : Prop where
  sound : v'.rows.Sound
  cutoff : ∀ id, v'.rows.cutoffLevel id =
    v.rows.cutoffLevel id ⊔ newest rank (cutoffsOf seen) id
  floor : ∀ scope, level position v'.floors[scope]? =
    level position v.floors[scope]? ⊔ newest position (floorsOf seen) scope

variable {v v' v'' : CutoffVault} {seen seen' : List CarriedCutoff}

theorem Rises.refl (h : v.rows.Sound) : v.Rises [] v :=
  ⟨h, fun _ => (sup_bot_eq _).symm, fun _ => (sup_bot_eq _).symm⟩

theorem Rises.trans (h : v.Rises seen v') (h' : v'.Rises seen' v'') :
    v.Rises (seen ++ seen') v'' where
  sound := h'.sound
  cutoff id := by
    rw [h'.cutoff, h.cutoff, sup_assoc, cutoffsOf_append, newest_append]
  floor scope := by
    rw [h'.floor, h.floor, sup_assoc, floorsOf_append, newest_append]

/-- **A write brings its row**, and lowers none. -/
theorem write_rises (h : v.rows.Sound) (write : CutoffWrite) :
    ∃ v', v.write write = .ok v' ∧ v.Rises write.seen v' := by
  cases write with
  | withdraw id named cutoff queuedAt =>
    obtain ⟨hsound, hlevel⟩ := h.enqueue named cutoff.generation cutoff.replacement queuedAt
    refine ⟨_, rfl, hsound, fun other => (hlevel other).trans (congrArg _ ?_), fun _ => ?_⟩
    · simp [CutoffWrite.seen, cutoffsOf, newest]
      rfl
    · exact (sup_bot_eq _).symm
  | raiseFloor scope floor =>
    refine ⟨_, rfl, h, fun _ => (sup_bot_eq _).symm, fun other => ?_⟩
    refine (level_raiseEpochScopeFloor v.floors scope floor other).trans (congrArg _ ?_)
    simp [CutoffWrite.seen, floorsOf, newest]
  | finish key =>
    rw [CutoffVault.write]
    split
    · exact ⟨v, rfl, .refl h⟩
    · next job hjob =>
      obtain ⟨-, rows', -, hok, -, -, hsound, hlevel⟩ := h.finalize hjob
      rw [hok]
      refine ⟨_, rfl, hsound, fun id => (hlevel id).trans (sup_bot_eq _).symm, fun _ => ?_⟩
      exact (sup_bot_eq _).symm
  | putOff key retryState =>
    rw [CutoffVault.write]
    split
    · exact ⟨v, rfl, .refl h⟩
    · next job hjob =>
      obtain ⟨hsound, hlevel⟩ := h.rewriteForRetry hjob retryState
      refine ⟨_, rfl, hsound, fun id => (hlevel id).trans (sup_bot_eq _).symm, fun _ => ?_⟩
      exact (sup_bot_eq _).symm

/-- Writes of other doors, one after the other. -/
theorem writes_rise (h : v.rows.Sound) (writes : List CutoffWrite) :
    ∃ v', writes.foldlM write v = .ok v' ∧ v.Rises (writes.flatMap CutoffWrite.seen) v' := by
  induction writes generalizing v with
  | nil => exact ⟨v, rfl, .refl h⟩
  | cons write writes ih =>
    obtain ⟨v', hwrite, hrises⟩ := write_rises h write
    obtain ⟨v'', hwrites, hrises'⟩ := ih hrises.sound
    refine ⟨v'', ?_, by rw [flatMap_cons]; exact hrises.trans hrises'⟩
    rw [foldlM_cons, bind_eq_ok]
    exact ⟨v', hwrite, hwrites⟩

end CutoffVault

/-! ## A staging -/

/-- **Floors raised to those found above the held**, from a reading that was no higher. -/
theorem level_floorsToRaise {held now carried : OrderedMap EpochScope EpochFloor}
    (hle : ∀ scope : EpochScope, level position held[scope]? ≤ level position now[scope]?)
    (scope : EpochScope) :
    level position ((floorsToRaise held carried).foldl
      (fun floors p => raiseEpochScopeFloor floors p.1 p.2) now)[scope]? =
    level position now[scope]? ⊔ level position carried[scope]? := by
  have hfold : ∀ (raised : List (EpochScope × EpochFloor)) (now : OrderedMap EpochScope EpochFloor),
      level position
        (raised.foldl (fun floors p => raiseEpochScopeFloor floors p.1 p.2) now)[scope]? =
      level position now[scope]? ⊔ newest position raised scope := by
    intro raised
    induction raised with
    | nil => exact fun _ => (sup_bot_eq _).symm
    | cons p raised ih =>
      intro now
      rw [foldl_cons, ih, level_raiseEpochScopeFloor, newest_cons, ← sup_assoc]
      simp [newest]
  rw [hfold, floorsToRaise, ← newest_toList carried]
  refine sup_newest_filter fun floor _ hkept => ?_
  refine Std.le_trans ?_ (hle scope)
  cases hheld : held[scope]? with
  | none => simp [hheld] at hkept
  | some held =>
    simp only [hheld, Option.all_some, decide_eq_false_iff_not] at hkept
    exact WithBot.coe_le_coe.mpr (Std.not_lt.mp hkept)

namespace WithdrawnRows

variable {rows : WithdrawnRows}

theorem Sound.unseen (h : rows.Sound) (id : EntityId) (generation : UInt64) :
    rows.unseen id generation = .ok (decide (rows.cutoffLevel id < (generation.toNat : WithBot ℕ))) := by
  obtain ⟨cutoff, hok, hlevel⟩ := h.withdrawnGenerationCutoff_level id
  rw [WithdrawnRows.unseen, hok, ← hlevel]
  refine congrArg Except.ok ?_
  cases cutoff with
  | none => simp
  | some cutoff =>
    change decide (cutoff.generation < generation) = decide _
    rw [level_some, decide_eq_decide, UInt64.lt_iff_toNat_lt]
    exact WithBot.coe_lt_coe.symm

theorem Sound.pendingOf (h : rows.Sound) (carried : OrderedMap EntityId WithdrawnCutoff) :
    rows.pendingOf carried = .ok (carried.toList.filter fun p =>
      rows.cutoffLevel p.1 < (p.2.generation.toNat : WithBot ℕ)) :=
  foldlM_keep (f := fun p : EntityId × WithdrawnCutoff => rows.unseen p.1 p.2.generation)
    (fun p => h.unseen p.1 p.2.generation) carried.toList []

/-- **What is queued where unseen yet** raises each cutoff to the highest queued. -/
theorem Sound.stagePrepared (h : rows.Sound) {pending : List (EntityId × WithdrawnCutoff)}
    (hnamed : ∀ p ∈ pending, p.1.Named) (recordedAt : ℕ) :
    ∃ rows', rows.stagePrepared pending recordedAt = .ok rows' ∧ rows'.Sound ∧
      ∀ id, rows'.cutoffLevel id = rows.cutoffLevel id ⊔ newest rank pending id := by
  induction pending generalizing rows with
  | nil => exact ⟨rows, rfl, h, fun _ => (sup_bot_eq _).symm⟩
  | cons p pending ih =>
    have hone : ∃ rows', (do
        if ← rows.unseen p.1 p.2.generation then
          pure (rows.enqueue p.1 p.2.generation p.2.replacement recordedAt)
        else pure rows) = (.ok rows' : Except Error WithdrawnRows) ∧ rows'.Sound ∧
        ∀ id, rows'.cutoffLevel id = rows.cutoffLevel id ⊔
          newest rank [p] id := by
      by_cases hunseen : rows.cutoffLevel p.1 < (p.2.generation.toNat : WithBot ℕ)
      · obtain ⟨hsound, hlevel⟩ := h.enqueue (hnamed p mem_cons_self) p.2.generation
          p.2.replacement recordedAt
        refine ⟨_, ?_, hsound, fun id => (hlevel id).trans (congrArg _ ?_)⟩
        · rw [h.unseen, decide_eq_true hunseen]
          rfl
        · simp [newest]
          rfl
      · refine ⟨rows, ?_, h, fun id => (sup_eq_left.mpr ?_).symm⟩
        · rw [h.unseen, decide_eq_false hunseen]
          rfl
        · rw [newest_le_iff]
          intro cutoff hcutoff
          obtain rfl := mem_singleton.mp hcutoff
          exact Std.not_lt.mp hunseen
    obtain ⟨mid, hmid, hsound, hlevel⟩ := hone
    obtain ⟨rows', hrest, hsound', hlevel'⟩ := ih hsound fun q hq =>
      hnamed q (mem_cons_of_mem _ hq)
    refine ⟨rows', ?_, hsound', fun id => ?_⟩
    · rw [WithdrawnRows.stagePrepared, foldlM_cons]
      exact bind_eq_ok.mpr ⟨mid, hmid, hrest⟩
    · rw [hlevel', hlevel, sup_assoc]
      exact congrArg _ newest_cons.symm

end WithdrawnRows

namespace CutoffVault

variable {v : CutoffVault}

/-- **Raising floors** raises each to what was carried, over what other doors wrote meanwhile. -/
theorem raiseEpochFloors_rises (h : v.rows.Sound) (carried : OrderedMap EpochScope EpochFloor)
    (meanwhile : List CutoffWrite) :
    ∃ v₁ v₂, v.raiseEpochFloors carried meanwhile = .ok v₂ ∧
      v.Rises (meanwhile.flatMap CutoffWrite.seen) v₁ ∧ v₂.rows = v₁.rows ∧
      ∀ scope : EpochScope, level position v₂.floors[scope]? =
        level position v₁.floors[scope]? ⊔ level position carried[scope]? := by
  obtain ⟨v₁, hwrites, hrises⟩ := writes_rise h meanwhile
  refine ⟨v₁, _, bind_eq_ok.mpr ⟨v₁, hwrites, rfl⟩, hrises, rfl, ?_⟩
  exact level_floorsToRaise fun scope => by rw [hrises.floor]; exact le_sup_left

theorem mem_of_mem_foldCutoffRows {carried : List CarriedCutoff} {id : EntityId}
    {cutoff : WithdrawnCutoff} (h : (foldCutoffRows carried).1[id]? = some cutoff) :
    ∃ cutoff', .withdrawn id cutoff' ∈ carried := by
  by_contra hnone
  have hlevel : level rank (raiseAll rank ∅ (cutoffsOf carried))[id]? = _ :=
    level_raiseAll ∅ (cutoffsOf carried) id
  rw [foldCutoffRows_eq] at h
  rw [h, getElem?_empty, level_none, bot_sup_eq] at hlevel
  have hbot : newest rank (cutoffsOf carried) id ≤ ⊥ := by
    rw [newest_le_iff]
    intro cutoff' hin
    obtain ⟨row, hrow, heq⟩ := List.mem_filterMap.mp hin
    cases row with
    | withdrawn id' cutoff'' =>
      obtain ⟨rfl, rfl⟩ := Prod.mk.inj (Option.some.inj heq)
      exact absurd ⟨_, hrow⟩ hnone
    | epochFloor scope floor => exact nomatch heq
  rw [← hlevel, level_some] at hbot
  exact WithBot.not_coe_le_bot _ hbot

/-- **A staging never fails**, and leaves the higher of what stood, what other doors wrote meanwhile
and what it carried. -/
theorem stage_rises (h : v.rows.Sound) {carried : List CarriedCutoff}
    (hnamed : ∀ row ∈ carried, row.Named) (meanwhile meanwhile' : List CutoffWrite)
    (recordedAt : ℕ) :
    ∃ v', v.stageWithdrawnCutoffs carried meanwhile meanwhile' recordedAt = .ok v' ∧
      v.Rises (meanwhile.flatMap CutoffWrite.seen ++ carried ++
        meanwhile'.flatMap CutoffWrite.seen) v' := by
  obtain ⟨v₁, v₂, hraised, hrises, hrows, hfloors⟩ :=
    raiseEpochFloors_rises h (foldCutoffRows carried).2 meanwhile
  have hsound₂ : v₂.rows.Sound := hrows ▸ hrises.sound
  obtain ⟨v₃, hwrites, hrises'⟩ := writes_rise hsound₂ meanwhile'
  have hpending := hsound₂.pendingOf (foldCutoffRows carried).1
  have hnamed' : ∀ p ∈ (foldCutoffRows carried).1.toList.filter fun p =>
      v₂.rows.cutoffLevel p.1 < (p.2.generation.toNat : WithBot ℕ), p.1.Named := by
    intro p hp
    obtain ⟨cutoff, hin⟩ := mem_of_mem_foldCutoffRows
      (mem_toList_iff_getElem?_eq_some.mp (List.mem_filter.mp hp).1)
    exact hnamed _ hin
  obtain ⟨rows, hstaged, hsound, hlevel⟩ := hrises'.sound.stagePrepared hnamed' recordedAt
  refine ⟨{ v₃ with rows }, ?_, hsound, fun id => ?_, fun scope => ?_⟩
  · refine bind_eq_ok.mpr ⟨v₂, hraised, bind_eq_ok.mpr ⟨_, hpending, ?_⟩⟩
    exact bind_eq_ok.mpr ⟨v₃, hwrites, bind_eq_ok.mpr ⟨rows, hstaged, rfl⟩⟩
  · -- what was left out as seen stands in what other doors left
    have hcarried : newest rank (foldCutoffRows carried).1.toList id =
        newest rank (cutoffsOf carried) id := by
      rw [newest_toList, foldCutoffRows_eq, level_raiseAll, getElem?_empty, level_none,
        bot_sup_eq]
    rw [hlevel, sup_newest_filter, hcarried, hrises'.cutoff, hrows, hrises.cutoff, cutoffsOf_append,
      cutoffsOf_append, newest_append, newest_append]
    · ac_rfl
    · intro cutoff _ hseen
      rw [hrises'.cutoff]
      exact Std.le_trans (Std.not_lt.mp (of_decide_eq_false hseen)) le_sup_left
  · have hcarried : level position (foldCutoffRows carried).2[scope]? =
        newest position (floorsOf carried) scope := by
      rw [foldCutoffRows_eq, level_raiseAll, getElem?_empty, level_none, bot_sup_eq]
    rw [hrises'.floor, hfloors, hcarried, hrises.floor, floorsOf_append, floorsOf_append,
      newest_append, newest_append]
    ac_rfl

end CutoffVault

end Oneiron
