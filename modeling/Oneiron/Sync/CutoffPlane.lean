import Oneiron.Sync.StagedCutoffs

/-!
# Sync/CutoffPlane — a vault's cutoffs and floors over every run of its windows

A run of admissions, forward passes, mirrors and other doors' writes never fails, and leaves each
artifact's cutoff and each lineage's floor the highest of what stood and every row it took in
(`run_rises`): the order of the rows, their repeats and how they were batched tell nothing.
-/

open Std

namespace Oneiron

open WithdrawnCutoff

/-- `carried_cutoff_rows`: a malformed row is left out. -/
def WindowDoc.carriedCutoffRows (doc : WindowDoc) : List CarriedCutoff :=
  doc.cutoffs.toList.filterMap fun p => (admitWithdrawnCutoffCarrier p.1 p.2).toOption

theorem WindowDoc.named_of_mem_carriedCutoffRows {doc : WindowDoc} {row : CarriedCutoff}
    (h : row ∈ doc.carriedCutoffRows) : row.Named := by
  obtain ⟨p, -, hrow⟩ := List.mem_filterMap.mp h
  cases hread : admitWithdrawnCutoffCarrier p.1 p.2 with
  | error e => simp [hread, Except.toOption] at hrow
  | ok row' =>
    rw [hread] at hrow
    obtain rfl := Option.some.inj hrow
    exact (admit_eq_ok_iff.mp hread).1

/-- A vault and the windows it holds. -/
structure CutoffPlane where
  vault : CutoffVault
  windows : Bytes → WindowDoc

/-- One thing that happens to them. -/
inductive CutoffEvent where
  /-- An update's inserts into a window's cutoff map are admitted and staged, or it is refused. -/
  | receive (inserts : List (Bytes × CarriedValue)) (meanwhile meanwhile' : List CutoffWrite)
      (recordedAt : ℕ)
  /-- A window changes, as an import or any other writer leaves it. -/
  | land (window : Bytes) (doc : WindowDoc)
  /-- A forward pass stages what a window carries. -/
  | forward (window : Bytes) (meanwhile meanwhile' : List CutoffWrite) (recordedAt : ℕ)
  /-- An export mirrors the vault's rows into a window. -/
  | mirror (window : Bytes)
  /-- Another door writes. -/
  | write (write : CutoffWrite)

namespace CutoffPlane

/-- One event, and the rows it took in. -/
def step (s : CutoffPlane) : CutoffEvent → Except Error (CutoffPlane × List CarriedCutoff)
  | .receive inserts meanwhile meanwhile' recordedAt =>
    match inserts.mapM fun p => admitWithdrawnCutoffCarrier p.1 p.2 with
    | .error _ => .ok (s, [])
    | .ok carried => do
      let vault ← s.vault.stageWithdrawnCutoffs carried meanwhile meanwhile' recordedAt
      pure ({ s with vault }, meanwhile.flatMap CutoffWrite.seen ++ carried ++
        meanwhile'.flatMap CutoffWrite.seen)
  | .land window doc => .ok ({ s with windows := Function.update s.windows window doc }, [])
  | .forward window meanwhile meanwhile' recordedAt => do
    let carried := (s.windows window).carriedCutoffRows
    let vault ← s.vault.stageWithdrawnCutoffs carried meanwhile meanwhile' recordedAt
    pure ({ s with vault }, meanwhile.flatMap CutoffWrite.seen ++ carried ++
      meanwhile'.flatMap CutoffWrite.seen)
  | .mirror window => do
    let cutoffs ← s.vault.rows.withdrawnGenerationCutoffs
    let doc := ((s.windows window).mirrorCutoffs cutoffs s.vault.floors).1
    pure ({ s with windows := Function.update s.windows window doc }, [])
  | .write write => do
    let vault ← s.vault.write write
    pure ({ s with vault }, write.seen)

/-- A run of events, and the rows it took in. -/
def run (s : CutoffPlane) (events : List CutoffEvent) :
    Except Error (CutoffPlane × List CarriedCutoff) :=
  events.foldlM (fun t event => do
    let (s', seen) ← t.1.step event
    pure (s', t.2 ++ seen)) (s, [])

/-- A state some run reaches from a vault with no rows, whatever its windows are. -/
def Reached (s : CutoffPlane) : Prop :=
  ∃ windows events seen, run ⟨∅, windows⟩ events = .ok (s, seen)

variable {s s' : CutoffPlane} {seen : List CarriedCutoff}

/-- **An event never fails**, and leaves the higher of what stood and what it took in. -/
theorem step_rises (h : s.vault.rows.Sound) (event : CutoffEvent) :
    ∃ s' seen, s.step event = .ok (s', seen) ∧ s.vault.Rises seen s'.vault := by
  cases event with
  | receive inserts meanwhile meanwhile' recordedAt =>
    rw [step]
    cases hcarried : inserts.mapM fun p => admitWithdrawnCutoffCarrier p.1 p.2 with
    | error e => exact ⟨s, [], rfl, .refl h⟩
    | ok carried =>
      have hnamed : ∀ row ∈ carried, row.Named := by
        intro row hrow
        obtain ⟨p, -, hread⟩ := mem_of_mapM hcarried hrow
        exact (admit_eq_ok_iff.mp hread).1
      obtain ⟨vault, hstage, hrises⟩ :=
        CutoffVault.stage_rises h hnamed meanwhile meanwhile' recordedAt
      exact ⟨_, _, bind_eq_ok.mpr ⟨vault, hstage, rfl⟩, hrises⟩
  | land window doc => exact ⟨_, _, rfl, .refl h⟩
  | forward window meanwhile meanwhile' recordedAt =>
    obtain ⟨vault, hstage, hrises⟩ := CutoffVault.stage_rises h
      (fun _ => WindowDoc.named_of_mem_carriedCutoffRows) meanwhile meanwhile' recordedAt
    exact ⟨_, _, bind_eq_ok.mpr ⟨vault, hstage, rfl⟩, hrises⟩
  | mirror window =>
    obtain ⟨cutoffs, hok, -⟩ := h.withdrawnGenerationCutoffs_level
    exact ⟨_, _, bind_eq_ok.mpr ⟨cutoffs, hok, rfl⟩, .refl h⟩
  | write write =>
    obtain ⟨vault, hwrite, hrises⟩ := CutoffVault.write_rises h write
    exact ⟨_, _, bind_eq_ok.mpr ⟨vault, hwrite, rfl⟩, hrises⟩

/-- **A run never fails**, and leaves the highest of what stood and every row it took in. -/
theorem run_rises (h : s.vault.rows.Sound) (events : List CutoffEvent) :
    ∃ s' seen, s.run events = .ok (s', seen) ∧ s.vault.Rises seen s'.vault := by
  suffices ∀ t : CutoffPlane × List CarriedCutoff, s.vault.Rises t.2 t.1.vault →
      ∃ s' seen, events.foldlM (fun t event => do
        let (s', seen) ← t.1.step event
        pure (s', t.2 ++ seen)) t = (.ok (s', seen) : Except Error _) ∧
        s.vault.Rises seen s'.vault from this (s, []) (.refl h)
  induction events with
  | nil => exact fun t ht => ⟨t.1, t.2, rfl, ht⟩
  | cons event events ih =>
    intro t ht
    obtain ⟨s', seen, hstep, hrises⟩ := step_rises ht.sound event
    obtain ⟨s'', seen', hrun, hrises'⟩ := ih (s', t.2 ++ seen) (ht.trans hrises)
    refine ⟨s'', seen', ?_, hrises'⟩
    exact bind_eq_ok.mpr ⟨_, bind_eq_ok.mpr ⟨_, hstep, rfl⟩, hrun⟩

theorem Reached.sound (h : s.Reached) : s.vault.rows.Sound := by
  obtain ⟨windows, events, seen, hrun⟩ := h
  obtain ⟨s', seen', hrun', hrises⟩ :=
    run_rises (s := ⟨∅, windows⟩) WithdrawnRows.Sound.empty events
  obtain ⟨rfl, -⟩ := Prod.mk.inj (Except.ok.inj (hrun.symm.trans hrun'))
  exact hrises.sound

/-- What a run leaves of a vault's cutoffs and floors, as its readers find them. -/
structure Joins (s : CutoffPlane) (seen : List CarriedCutoff) (s' : CutoffPlane) : Prop where
  /-- An artifact's cutoff is the newest of what stood and what was seen, read alone or with all. -/
  cutoff : ∀ id : EntityId, ∃ before after cutoffs,
    s.vault.rows.withdrawnGenerationCutoff id = .ok before ∧
    s'.vault.rows.withdrawnGenerationCutoff id = .ok after ∧
    s'.vault.rows.withdrawnGenerationCutoffs = .ok cutoffs ∧
    level rank before ≤ level rank after ∧
    level rank after =
      level rank before ⊔ newest rank (cutoffsOf seen) id ∧
    level rank cutoffs[id]? = level rank after
  /-- A lineage's floor is the highest of what stood and what was seen. -/
  floor : ∀ scope : EpochScope,
    level EpochFloor.position s.vault.floors[scope]? ≤
      level EpochFloor.position s'.vault.floors[scope]? ∧
    level EpochFloor.position s'.vault.floors[scope]? =
      level EpochFloor.position s.vault.floors[scope]? ⊔
        newest EpochFloor.position (floorsOf seen) scope

theorem Joins.of_rises (h : s.vault.rows.Sound) (hrises : s.vault.Rises seen s'.vault) :
    s.Joins seen s' := by
  refine ⟨fun id => ?_, fun scope => ⟨?_, hrises.floor scope⟩⟩
  · obtain ⟨before, hbefore, hlevel⟩ := h.withdrawnGenerationCutoff_level id
    obtain ⟨after, hafter, hlevel'⟩ := hrises.sound.withdrawnGenerationCutoff_level id
    obtain ⟨cutoffs, hcutoffs, hall⟩ := hrises.sound.withdrawnGenerationCutoffs_level
    have hjoin : level rank after = level rank before ⊔
        newest rank (cutoffsOf seen) id := by
      rw [hlevel', hlevel, hrises.cutoff]
    exact ⟨before, after, cutoffs, hbefore, hafter, hcutoffs, hjoin ▸ le_sup_left, hjoin,
      (hall id).trans hlevel'.symm⟩
  · rw [hrises.floor]
    exact le_sup_left

/-- **Two runs that took in the same rows** leave the same generations and the same floors. -/
theorem run_congr (h : s.vault.rows.Sound) {events events' : List CutoffEvent}
    {s₁ s₂ : CutoffPlane} {seen₁ seen₂ : List CarriedCutoff}
    (hrun : s.run events = .ok (s₁, seen₁)) (hrun' : s.run events' = .ok (s₂, seen₂))
    (hsame : ∀ row, row ∈ seen₁ ↔ row ∈ seen₂) :
    (∀ id : EntityId, ∃ cutoff₁ cutoff₂,
      s₁.vault.rows.withdrawnGenerationCutoff id = .ok cutoff₁ ∧
      s₂.vault.rows.withdrawnGenerationCutoff id = .ok cutoff₂ ∧
      cutoff₁.map generation = cutoff₂.map generation) ∧
    ∀ scope : EpochScope, s₁.vault.floors[scope]? = s₂.vault.floors[scope]? := by
  obtain ⟨_, _, hok₁, hrises₁⟩ := run_rises h events
  obtain ⟨rfl, rfl⟩ := Prod.mk.inj (Except.ok.inj (hrun.symm.trans hok₁))
  obtain ⟨_, _, hok₂, hrises₂⟩ := run_rises h events'
  obtain ⟨rfl, rfl⟩ := Prod.mk.inj (Except.ok.inj (hrun'.symm.trans hok₂))
  refine ⟨fun id => ?_, fun scope => level_injective EpochFloor.position_injective ?_⟩
  · obtain ⟨cutoff₁, hread₁, hlevel₁⟩ := hrises₁.sound.withdrawnGenerationCutoff_level id
    obtain ⟨cutoff₂, hread₂, hlevel₂⟩ := hrises₂.sound.withdrawnGenerationCutoff_level id
    refine ⟨cutoff₁, cutoff₂, hread₁, hread₂, ?_⟩
    have hcutoffs : newest rank (cutoffsOf seen₁) id =
        newest rank (cutoffsOf seen₂) id :=
      newest_congr fun p => by simp only [cutoffsOf, List.mem_filterMap, hsame]
    have hlevel : level rank cutoff₁ = level rank cutoff₂ := by
      rw [hlevel₁, hlevel₂, hrises₁.cutoff, hrises₂.cutoff, hcutoffs]
    have hinj : Function.Injective (Option.map UInt64.toNat) :=
      Option.map_injective fun _ _ => UInt64.toNat_inj.mp
    refine hinj ?_
    rw [Option.map_map, Option.map_map]
    exact (level_eq_iff _).mp hlevel
  · have hfloors : newest EpochFloor.position (floorsOf seen₁) scope =
        newest EpochFloor.position (floorsOf seen₂) scope :=
      newest_congr fun p => by simp only [floorsOf, List.mem_filterMap, hsame]
    rw [hrises₁.floor, hrises₂.floor, hfloors]

end CutoffPlane

/-- What a mirror leaves of a window. -/
structure MirrorsCutoffs (doc : WindowDoc) (cutoffs : OrderedMap EntityId WithdrawnCutoff)
    (floors : OrderedMap EpochScope EpochFloor) : Prop where
  /-- A cutoff is written where the window holds its carrier and carries none or a lower one. -/
  mirroredCutoffs : withdrawnRows.Mirrored doc.carriesArtifact cutoffs.toList (doc, false)
    (doc.mirrorWithdrawnCutoffs cutoffs)
  mirroredFloors : epochFloorRows.Mirrored doc.carriesLineage floors.toList (doc, false)
    (doc.mirrorEpochFloors floors)
  cutoff_le : ∀ id, level rank (withdrawnRows.carried doc.cutoffs id) ≤
    level rank
      (withdrawnRows.carried (doc.mirrorWithdrawnCutoffs cutoffs).1.cutoffs id)
  floor_le : ∀ scope, level EpochFloor.position (epochFloorRows.carried doc.cutoffs scope) ≤
    level EpochFloor.position
      (epochFloorRows.carried (doc.mirrorEpochFloors floors).1.cutoffs scope)
  again : (doc.mirrorCutoffs cutoffs floors).1.mirrorCutoffs cutoffs floors =
    ((doc.mirrorCutoffs cutoffs floors).1, false)

/-- **Cutoffs and floors are a join.**  Over every run from a state reached: each only rises, to the
highest of what stood and every row taken in, whatever the rows' order, repeats and batches; a
finished sweep's row goes and its fence stands as high; a mirror writes what is due and no more; and
each key and value is read back, and no other bytes are. -/
theorem withdrawn_cutoffs_and_floors_join (s : CutoffPlane) (hs : s.Reached) :
    (∀ events, ∃ s' seen, s.run events = .ok (s', seen) ∧ s.Joins seen s') ∧
    (∀ events events' s₁ s₂ seen₁ seen₂, s.run events = .ok (s₁, seen₁) →
      s.run events' = .ok (s₂, seen₂) → (∀ row, row ∈ seen₁ ↔ row ∈ seen₂) →
      (∀ id : EntityId, ∃ cutoff₁ cutoff₂,
        s₁.vault.rows.withdrawnGenerationCutoff id = .ok cutoff₁ ∧
        s₂.vault.rows.withdrawnGenerationCutoff id = .ok cutoff₂ ∧
        cutoff₁.map generation = cutoff₂.map generation) ∧
      ∀ scope : EpochScope, s₁.vault.floors[scope]? = s₂.vault.floors[scope]?) ∧
    (∀ (key : Bytes) (job : WithdrawnGenerationSweepJob), s.vault.rows.queue[key]? = some job →
      ∃ id rows, key = encodeWithdrawnGenerationKey id job.scope.generation ∧
        s.vault.rows.finalize key job = .ok rows ∧ rows.queue = s.vault.rows.queue.erase key ∧
        (job.scope.generation.toNat : WithBot ℕ) ≤ level rank (rows.fence id)) ∧
    (∀ doc cutoffs floors, MirrorsCutoffs doc cutoffs floors) ∧
    (∀ mapKey value row, admitWithdrawnCutoffCarrier mapKey value = .ok row ↔
      row.Named ∧ mapKey = row.key ∧ value = .binary row.value) ∧
    (∀ bytes cutoff, decode bytes = some cutoff ↔ bytes = cutoff.encode) ∧
    (∀ bytes floor, EpochFloor.decode bytes = some floor ↔ bytes = floor.encode) ∧
    ∀ key id generation, decodeWithdrawnGenerationKey key = some (id, generation) ↔
      id.Named ∧ key = encodeWithdrawnGenerationKey id generation := by
  have hsound := hs.sound
  refine ⟨fun events => ?_, fun _ _ _ _ _ _ hrun hrun' => CutoffPlane.run_congr hsound hrun hrun',
    fun key job hjob => ?_, fun doc cutoffs floors => ?_, fun _ _ _ => admit_eq_ok_iff,
    fun _ _ => decode_eq_some_iff, fun _ _ => EpochFloor.decode_eq_some_iff,
    fun _ _ _ => decodeWithdrawnGenerationKey_eq_some_iff⟩
  · obtain ⟨s', seen, hrun, hrises⟩ := CutoffPlane.run_rises hsound events
    exact ⟨s', seen, hrun, .of_rises hsound hrises⟩
  · obtain ⟨id, rows, hkey, hok, hqueue, hfence, -, -⟩ := hsound.finalize hjob
    exact ⟨id, rows, hkey, hok, hqueue, hfence⟩
  · have hcutoffs : withdrawnRows.Mirrored doc.carriesArtifact cutoffs.toList (doc, false)
        (doc.mirrorWithdrawnCutoffs cutoffs) := RowKind.mirrorMap_mirrored doc cutoffs
    have hfloors : epochFloorRows.Mirrored doc.carriesLineage floors.toList (doc, false)
        (doc.mirrorEpochFloors floors) := RowKind.mirrorMap_mirrored doc floors
    exact ⟨hcutoffs, hfloors, hcutoffs.level_le, hfloors.level_le,
      doc.mirrorCutoffs_again cutoffs floors⟩

/-- A window with an artifact and a session, and what happens to it: a row of each is carried in while
another door raises a lower floor, the artifact's sweep finishes, the rows are mirrored, an older
generation is withdrawn, and the rows come back. -/
def sweptEvents (cutoff floor : CarriedCutoff) : List CutoffEvent :=
  [.receive [(cutoff.key, .binary cutoff.value), (floor.key, .binary floor.value)] []
      [.raiseFloor ⟨.filled 2, none⟩ ⟨1, 9⟩] 10,
    .write (.finish (encodeWithdrawnGenerationKey (.filled 1) 3)), .mirror [],
    .write (.withdraw (.filled 1) rfl ⟨2, .shell⟩ 20), .forward [] [] [] 30]

theorem withdrawn_cutoffs_and_floors_join_swept :
    let cutoff : CarriedCutoff := .withdrawn (.filled 1) ⟨3, .shell⟩
    let floor : CarriedCutoff := .epochFloor ⟨.filled 2, none⟩ ⟨2, 7⟩
    let s : CutoffPlane :=
      ⟨∅, fun _ => ⟨.ofList [(EntityId.filled 1).toHex, (EntityId.filled 2).toHex], ∅⟩⟩
    (∃ s' seen, s.run (sweptEvents cutoff floor) = .ok (s', seen) ∧ s.Joins seen s') ∧
      (s.run (sweptEvents cutoff floor)).toOption.map (fun t => ((t.1.windows []).carriedCutoffRows,
        t.1.vault.rows.queue.size, t.1.vault.floors.toList, t.2.length)) =
        some ([cutoff, floor], 1, [(⟨.filled 2, none⟩, ⟨2, 7⟩)], 6) :=
  ⟨(withdrawn_cutoffs_and_floors_join _ ⟨_, [], [], rfl⟩).1 _, by decide +kernel⟩

end Oneiron
