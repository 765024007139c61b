import Oneiron.Deletion.WithdrawnCutoff
import Oneiron.Foundations.Fallible

/-!
# Deletion/WithdrawnSweeps — the sweeps withdrawn generations are owed, queued, read and finished

The pending rows of an artifact and its fence are read as one: the newest generation of them
(`withdrawnGenerationCutoff_level`, and of all artifacts at once `withdrawnGenerationCutoffs_level`).
-/

open Std

namespace Oneiron

open WithdrawnCutoff

open Std.ExtTreeMap List Option

/-- What a vault keeps of its withdrawn generations. -/
structure WithdrawnRows where
  /-- `hw:` rows of the sweep queue. -/
  queue : OrderedMap Bytes WithdrawnGenerationSweepJob
  /-- `wg:` rows. -/
  fences : OrderedMap EntityId Bytes

namespace WithdrawnRows

instance : EmptyCollection WithdrawnRows := ⟨⟨∅, ∅⟩⟩

variable (rows : WithdrawnRows)

/-- `enqueue_withdrawn_generation_in_txn`: a repeat keeps the row already queued. -/
def enqueue (artifact : EntityId) (generation : UInt64) (replacement : WithdrawnReplacement)
    (queuedAt : ℕ) : WithdrawnRows :=
  let key := encodeWithdrawnGenerationKey artifact generation
  let job : WithdrawnGenerationSweepJob :=
    ⟨⟨artifact.toHex, generation, replacement⟩, .fresh queuedAt queuedAt⟩
  if rows.queue[key]?.isSome then rows else { rows with queue := rows.queue.insert key job }

/-- An artifact's fence, where it has one; one that does not decode fails its reader. -/
def readFence (artifact : EntityId) : Except Error (Option WithdrawnCutoff) :=
  match rows.fences[artifact]? with
  | some bytes => (fenceCutoff bytes).map some
  | none => .ok none

/-- `raise_withdrawn_generation_fence_in_txn`: a fence already as high stays. -/
def raiseFence (artifact : EntityId) (cutoff : WithdrawnCutoff) : Except Error WithdrawnRows :=
  (rows.readFence artifact).map fun held =>
    if held.any (·.generation ≥ cutoff.generation) then rows
    else { rows with fences := rows.fences.insert artifact cutoff.encode }

/-- `withdrawn_generation_cutoff_in_txn`. -/
def withdrawnGenerationCutoff (artifact : EntityId) : Except Error (Option WithdrawnCutoff) := do
  let fence ← rows.readFence artifact
  let pending := rows.queue.toList.filter fun p =>
    (withdrawnGenerationSweepPrefix ++ artifact.asBytes).isPrefixOf p.1
  pure (pending.foldl (fun cutoff p =>
    some ((cutoff.getD (pendingCutoff p.1 p.2)).raise (pendingCutoff p.1 p.2)).1) fence)

/-- `withdrawn_generation_cutoffs_in_txn`. -/
def withdrawnGenerationCutoffs : Except Error (OrderedMap EntityId WithdrawnCutoff) := do
  let cutoffs ← rows.fences.toList.foldlM
    (fun cutoffs p => (fenceCutoff p.2).map (raiseCutoff cutoffs p.1)) ∅
  pure (rows.queue.toList.foldl (fun cutoffs p =>
    match decodeWithdrawnGenerationKey p.1 with
    | some (id, _) => raiseCutoff cutoffs id (pendingCutoff p.1 p.2)
    | none => cutoffs) cutoffs)

/-- `decode_withdrawn_generation_row`, of a row whose job decodes: its scope names what its key does. -/
def decodeRow (key : Bytes) (job : WithdrawnGenerationSweepJob) : Except Error EntityId :=
  match decodeWithdrawnGenerationKey key with
  | none => .error (.corruptedIndex "withdrawn generation sweep key")
  | some (id, generation) =>
    if job.scope.artifactId ≠ id.toHex ∨ job.scope.generation ≠ generation then
      .error (.corruptedIndex "withdrawn generation sweep job")
    else .ok id

/-- `finalize_withdrawn_job`: the fence first, then the row goes. -/
def finalize (key : Bytes) (job : WithdrawnGenerationSweepJob) : Except Error WithdrawnRows := do
  let id ← decodeRow key job
  let fenced ← rows.raiseFence id job.scope.cutoff
  pure { fenced with queue := fenced.queue.erase key }

/-- `rewrite_withdrawn_job_for_retry`: one more failed attempt, its scope as it was. -/
def rewriteForRetry (key : Bytes) (job : WithdrawnGenerationSweepJob)
    (retryState : HardEraseRetryState) : WithdrawnRows :=
  { rows with queue := rows.queue.insert key { job with retryState } }

/-! ## What rows are known to be -/

/-- Each row is filed under what its job names, and each fence is a cutoff's bytes. -/
structure Sound (rows : WithdrawnRows) : Prop where
  queued : ∀ (key : Bytes) (job : WithdrawnGenerationSweepJob), rows.queue[key]? = some job →
    ∃ id : EntityId, id.Named ∧ key = encodeWithdrawnGenerationKey id job.scope.generation ∧
      job.scope.artifactId = id.toHex
  fenced : ∀ (id : EntityId) (bytes : Bytes), rows.fences[id]? = some bytes →
    ∃ cutoff : WithdrawnCutoff, bytes = cutoff.encode

/-- A fence's cutoff. -/
def fence (id : EntityId) : Option WithdrawnCutoff := rows.fences[id]?.bind decode

/-- The cutoffs pending rows stand for. -/
def pending : List (EntityId × WithdrawnCutoff) :=
  rows.queue.toList.filterMap fun p =>
    (decodeWithdrawnGenerationKey p.1).map fun d => (d.1, pendingCutoff p.1 p.2)

/-- The newest withdrawn generation of an artifact, of its fence and its pending rows. -/
def cutoffLevel (id : EntityId) : WithBot ℕ :=
  level rank (rows.fence id) ⊔ newest rank rows.pending id

variable {rows} {id : EntityId} {x : WithBot ℕ}

theorem Sound.empty : (∅ : WithdrawnRows).Sound :=
  ⟨fun key _ h => (nomatch (getElem?_empty (a := key)).symm.trans h),
    fun id _ h => (nomatch (getElem?_empty (a := id)).symm.trans h)⟩

variable {cutoff : WithdrawnCutoff} {key : Bytes} {job : WithdrawnGenerationSweepJob}

theorem Sound.decode (h : rows.Sound) (hjob : rows.queue[key]? = some job) : ∃ id : EntityId,
      key = encodeWithdrawnGenerationKey id job.scope.generation ∧
      decodeWithdrawnGenerationKey key = some (id, job.scope.generation) ∧
      pendingCutoff key job = job.scope.cutoff ∧ decodeRow key job = .ok id := by
  obtain ⟨id, hnamed, hkey, hhex⟩ := h.queued key job hjob
  have hdecode : decodeWithdrawnGenerationKey key = some (id, job.scope.generation) :=
    decodeWithdrawnGenerationKey_eq_some_iff.mpr ⟨hnamed, hkey⟩
  refine ⟨id, hkey, hdecode, by rw [pendingCutoff, hdecode]; rfl, ?_⟩
  rw [decodeRow, hdecode]
  simp [hhex]

/-- What an artifact's pending rows are. -/
theorem Sound.mem_pending (h : rows.Sound) :
    (id, cutoff) ∈ rows.pending ↔ ∃ (key : Bytes) (job : WithdrawnGenerationSweepJob),
      rows.queue[key]? = some job ∧ decodeWithdrawnGenerationKey key = some (id, cutoff.generation) ∧
        job.scope.cutoff = cutoff := by
  rw [pending, List.mem_filterMap]
  constructor
  · rintro ⟨⟨key, job⟩, hmem, hrow⟩
    have hjob := mem_toList_iff_getElem?_eq_some.mp hmem
    obtain ⟨id', -, hdecode, hpending, -⟩ := h.decode hjob
    simp only [hdecode, hpending, map_some, Option.some.injEq, Prod.mk.injEq] at hrow
    obtain ⟨rfl, rfl⟩ := hrow
    exact ⟨key, job, hjob, hdecode, rfl⟩
  · rintro ⟨key, job, hjob, hdecode, rfl⟩
    obtain ⟨id', -, hdecode', hpending, -⟩ := h.decode hjob
    refine ⟨(key, job), mem_toList_iff_getElem?_eq_some.mpr hjob, ?_⟩
    simp only [hpending, hdecode, map_some]

/-- What bounds an artifact's cutoff. -/
theorem Sound.cutoffLevel_le_iff (h : rows.Sound) : rows.cutoffLevel id ≤ x ↔
    level rank (rows.fence id) ≤ x ∧
      ∀ (key : Bytes) (job : WithdrawnGenerationSweepJob), rows.queue[key]? = some job →
        decodeWithdrawnGenerationKey key = some (id, job.scope.generation) →
        (job.scope.generation.toNat : WithBot ℕ) ≤ x := by
  rw [cutoffLevel, sup_le_iff, newest_le_iff]
  refine and_congr_right fun _ => ⟨fun hall key job hjob hdecode => ?_, fun hall cutoff hin => ?_⟩
  · exact hall job.scope.cutoff (h.mem_pending.mpr ⟨key, job, hjob, hdecode, rfl⟩)
  · obtain ⟨key, job, hjob, hdecode, rfl⟩ := h.mem_pending.mp hin
    exact hall key job hjob hdecode

theorem fence_of_encode (h : rows.fences[id]? = some cutoff.encode) :
    rows.fence id = some cutoff := by
  rw [fence, h, bind_some]
  exact decode_eq_some_iff.mpr rfl

variable (h : rows.Sound)
include h

theorem Sound.readFence (id : EntityId) : rows.readFence id = .ok (rows.fence id) := by
  unfold WithdrawnRows.readFence
  cases hbytes : rows.fences[id]? with
  | none => rw [fence, hbytes]; rfl
  | some bytes =>
    obtain ⟨cutoff, rfl⟩ := h.fenced id bytes hbytes
    have hok : fenceCutoff cutoff.encode = .ok cutoff := by
      rw [fenceCutoff, decode_eq_some_iff.mpr rfl]
    rw [fence_of_encode hbytes]
    exact congrArg (Except.map some) hok

/-! ## Reading an artifact's cutoff -/

/-- **Reading an artifact's cutoff** gives the newest generation of its fence and its pending rows. -/
theorem Sound.withdrawnGenerationCutoff_level (id : EntityId) :
    ∃ cutoff, rows.withdrawnGenerationCutoff id = .ok cutoff ∧
      level rank cutoff = rows.cutoffLevel id := by
  have hunder : ∀ p ∈ rows.queue.toList,
      (withdrawnGenerationSweepPrefix ++ id.asBytes).isPrefixOf p.1 ↔
        decodeWithdrawnGenerationKey p.1 = some (id, p.2.scope.generation) := by
    rintro ⟨key, job⟩ hmem
    obtain ⟨id', hkey, hdecode, -, -⟩ :=
      h.decode (mem_toList_iff_getElem?_eq_some.mp hmem)
    rw [hdecode, isPrefixOf_iff_prefix, hkey, encodeWithdrawnGenerationKey, append_assoc,
      prefix_append_right_inj, Option.some.injEq, Prod.mk.injEq]
    constructor
    · intro hpre
      have htake := prefix_iff_eq_take.mp hpre
      rw [id.length_asBytes, take_left' id'.length_asBytes] at htake
      exact ⟨EntityId.ext htake.symm, rfl⟩
    · rintro ⟨rfl, -⟩
      exact prefix_append _ _
  have hfold : ∀ (l : List (Bytes × WithdrawnGenerationSweepJob)) (cutoff : Option WithdrawnCutoff),
      l.foldl (fun cutoff p =>
        some ((cutoff.getD (pendingCutoff p.1 p.2)).raise (pendingCutoff p.1 p.2)).1) cutoff =
      (l.map fun p => pendingCutoff p.1 p.2).foldl
        (fun held v => some (raised rank held v)) cutoff := by
    intro l cutoff
    rw [foldl_map]
    congr
    funext held p
    rw [raise_eq_raised]
    cases held with
    | none => simp [raised]
    | some held => rfl
  refine ⟨_, by rw [withdrawnGenerationCutoff, h.readFence]; rfl, eq_of_forall_ge_iff fun x => ?_⟩
  rw [h.cutoffLevel_le_iff, hfold, level_foldl_raised_le]
  refine and_congr_right fun _ => ?_
  simp only [List.forall_mem_map, List.mem_filter]
  constructor
  · intro hall key job hjob hdecode
    have hmem := mem_toList_iff_getElem?_eq_some.mpr hjob
    obtain ⟨-, -, -, hpending, -⟩ := h.decode hjob
    have hle := hall (key, job) ⟨hmem, (hunder _ hmem).mpr hdecode⟩
    rwa [hpending] at hle
  · rintro hall ⟨key, job⟩ ⟨hmem, hpre⟩
    have hjob := mem_toList_iff_getElem?_eq_some.mp hmem
    obtain ⟨-, -, -, hpending, -⟩ := h.decode hjob
    rw [hpending]
    exact hall key job hjob ((hunder _ hmem).mp hpre)

/-- **Reading every artifact's cutoff** gives each the same. -/
theorem Sound.withdrawnGenerationCutoffs_level :
    ∃ cutoffs, rows.withdrawnGenerationCutoffs = .ok cutoffs ∧
      ∀ id : EntityId, level rank cutoffs[id]? = rows.cutoffLevel id := by
  let fenced (l : List (EntityId × Bytes)) : List (EntityId × WithdrawnCutoff) :=
    l.filterMap fun p => (WithdrawnCutoff.decode p.2).map (p.1, ·)
  have hfences : ∀ (l : List (EntityId × Bytes)) (cutoffs : OrderedMap EntityId WithdrawnCutoff),
      (∀ p ∈ l, ∃ cutoff : WithdrawnCutoff, p.2 = cutoff.encode) →
      l.foldlM (fun cutoffs p => (fenceCutoff p.2).map (raiseCutoff cutoffs p.1)) cutoffs =
        .ok (raiseAll rank cutoffs (fenced l)) := by
    intro l
    induction l with
    | nil => exact fun _ _ => rfl
    | cons p l ih =>
      intro cutoffs hl
      obtain ⟨cutoff, hcutoff⟩ := hl p mem_cons_self
      have hdecode : WithdrawnCutoff.decode p.2 = some cutoff :=
        decode_eq_some_iff.mpr hcutoff
      have hok : fenceCutoff p.2 = .ok cutoff := by rw [fenceCutoff, hdecode]
      rw [foldlM_cons, hok]
      refine (ih (raiseCutoff cutoffs p.1 cutoff) fun q hq => hl q (mem_cons_of_mem _ hq)).trans ?_
      simp only [fenced, filterMap_cons, hdecode, map_some, raiseCutoff_eq]
      rfl
  have hqueue : ∀ (l : List (Bytes × WithdrawnGenerationSweepJob))
      (cutoffs : OrderedMap EntityId WithdrawnCutoff),
      l.foldl (fun cutoffs p => match decodeWithdrawnGenerationKey p.1 with
        | some (id, _) => raiseCutoff cutoffs id (pendingCutoff p.1 p.2)
        | none => cutoffs) cutoffs =
      raiseAll WithdrawnCutoff.rank cutoffs (l.filterMap fun p =>
        (decodeWithdrawnGenerationKey p.1).map fun d => (d.1, pendingCutoff p.1 p.2)) := by
    intro l
    induction l with
    | nil => exact fun _ => rfl
    | cons p l ih =>
      intro cutoffs
      rw [foldl_cons, ih, filterMap_cons]
      cases decodeWithdrawnGenerationKey p.1 with
      | none => rfl
      | some d =>
        simp only [map_some, raiseCutoff_eq]
        rfl
  have hall := hfences rows.fences.toList ∅ fun p hp =>
    h.fenced p.1 p.2 (mem_toList_iff_getElem?_eq_some.mp hp)
  refine ⟨_, by rw [withdrawnGenerationCutoffs, hall]; rfl, fun id => ?_⟩
  rw [hqueue, level_raiseAll, level_raiseAll, cutoffLevel]
  congr 1
  refine eq_of_forall_ge_iff fun x => ?_
  rw [getElem?_empty, level_none, bot_sup_eq, newest_le_iff]
  simp only [fenced, List.mem_filterMap, map_eq_some_iff, Prod.mk.injEq, fence]
  constructor
  · intro hle
    cases hbytes : rows.fences[id]? with
    | none => exact bot_le
    | some bytes =>
      cases hdecode : WithdrawnCutoff.decode bytes with
      | none => simp [hdecode]
      | some cutoff =>
        rw [bind_some, hdecode]
        exact hle cutoff ⟨(id, bytes), mem_toList_iff_getElem?_eq_some.mpr hbytes, cutoff,
          hdecode, rfl, rfl⟩
  · rintro hle cutoff ⟨⟨id', bytes⟩, hmem, cutoff', hdecode, rfl, rfl⟩
    rw [mem_toList_iff_getElem?_eq_some.mp hmem, bind_some, hdecode] at hle
    exact hle

/-! ## What each write does -/

/-- **A row written** raises its artifact's cutoff to what it names, and no other's: a row it replaces
names the same. -/
theorem Sound.insert {artifact : EntityId} (hnamed : artifact.Named)
    (job : WithdrawnGenerationSweepJob) (hjob : job.scope.artifactId = artifact.toHex) :
    let key := encodeWithdrawnGenerationKey artifact job.scope.generation
    ({ rows with queue := rows.queue.insert key job } : WithdrawnRows).Sound ∧
      ∀ id, ({ rows with queue := rows.queue.insert key job } : WithdrawnRows).cutoffLevel id =
        rows.cutoffLevel id ⊔
          if artifact = id then (job.scope.generation.toNat : WithBot ℕ) else ⊥ := by
  intro key
  have hdecode : decodeWithdrawnGenerationKey key = some (artifact, job.scope.generation) :=
    decodeWithdrawnGenerationKey_eq_some_iff.mpr ⟨hnamed, rfl⟩
  have hsound : ({ rows with queue := rows.queue.insert key job } : WithdrawnRows).Sound := by
    refine ⟨fun other job' hjob' => ?_, h.fenced⟩
    simp only [ExtTreeMap.getElem?_insert, LawfulEqCmp.compare_eq_iff_eq] at hjob'
    split at hjob'
    · next heq =>
      obtain rfl := some.inj hjob'
      exact ⟨artifact, hnamed, heq.symm, hjob⟩
    · exact h.queued other job' hjob'
  refine ⟨hsound, fun id => eq_of_forall_ge_iff fun x => ?_⟩
  rw [hsound.cutoffLevel_le_iff, sup_le_iff, h.cutoffLevel_le_iff, and_assoc]
  refine and_congr_right fun _ => ?_
  simp only [ExtTreeMap.getElem?_insert, LawfulEqCmp.compare_eq_iff_eq]
  constructor
  · intro hall
    refine ⟨fun other job' hjob' hdecode' => ?_, ?_⟩
    · by_cases heq : key = other
      · subst heq
        obtain ⟨rfl, hgen⟩ := Prod.mk.inj (some.inj (hdecode.symm.trans hdecode'))
        rw [← hgen]
        exact hall key job (if_pos rfl) hdecode
      · exact hall other job' (by rwa [if_neg heq]) hdecode'
    · split
      · next heq => exact hall key job (if_pos rfl) (heq ▸ hdecode)
      · exact bot_le
  · rintro ⟨hall, hnew⟩ other job' hjob' hdecode'
    split at hjob'
    · next heq =>
      obtain rfl := some.inj hjob'
      subst heq
      obtain ⟨rfl, -⟩ := Prod.mk.inj (some.inj (hdecode.symm.trans hdecode'))
      rwa [if_pos rfl] at hnew
    · exact hall other job' hjob' hdecode'

/-- A pending row's generation is seen in its artifact's cutoff. -/
theorem Sound.generation_le (hjob : rows.queue[key]? = some job)
    (hdecode : decodeWithdrawnGenerationKey key = some (id, job.scope.generation)) :
    (job.scope.generation.toNat : WithBot ℕ) ≤ rows.cutoffLevel id :=
  (h.cutoffLevel_le_iff.mp le_rfl).2 key job hjob hdecode

/-- **A sweep queued** raises its artifact's cutoff, and no other's. -/
theorem Sound.enqueue {artifact : EntityId} (hnamed : artifact.Named)
    (generation : UInt64) (replacement : WithdrawnReplacement) (queuedAt : ℕ) :
    (rows.enqueue artifact generation replacement queuedAt).Sound ∧
      ∀ id, (rows.enqueue artifact generation replacement queuedAt).cutoffLevel id =
        rows.cutoffLevel id ⊔ if artifact = id then (generation.toNat : WithBot ℕ) else ⊥ := by
  unfold WithdrawnRows.enqueue
  by_cases hqueued : rows.queue[encodeWithdrawnGenerationKey artifact generation]?.isSome
  · rw [if_pos hqueued]
    refine ⟨h, fun id => (sup_eq_left.mpr ?_).symm⟩
    split
    · next heq =>
      obtain ⟨job, hjob⟩ := isSome_iff_exists.mp hqueued
      have hkey := decodeWithdrawnGenerationKey_eq_some_iff.mpr
        (⟨hnamed, rfl⟩ : artifact.Named ∧ _ = encodeWithdrawnGenerationKey artifact generation)
      obtain ⟨id', -, hdecode, -, -⟩ := h.decode hjob
      obtain ⟨rfl, hgen⟩ := Prod.mk.inj (some.inj (hkey.symm.trans hdecode))
      rw [hgen]
      exact h.generation_le hjob (heq ▸ hdecode)
    · exact bot_le
  · rw [if_neg hqueued]
    let scope : WithdrawnGenerationScope := ⟨artifact.toHex, generation, replacement⟩
    exact h.insert hnamed ⟨scope, .fresh queuedAt queuedAt⟩ rfl

/-- **A sweep put off** moves no cutoff. -/
theorem Sound.rewriteForRetry (hjob : rows.queue[key]? = some job)
    (retryState : HardEraseRetryState) : (rows.rewriteForRetry key job retryState).Sound ∧
      ∀ id, (rows.rewriteForRetry key job retryState).cutoffLevel id = rows.cutoffLevel id := by
  obtain ⟨artifact, hnamed, hkey, hhex⟩ := h.queued key job hjob
  obtain ⟨hsound, hlevel⟩ := h.insert hnamed { job with retryState } hhex
  rw [WithdrawnRows.rewriteForRetry, hkey]
  refine ⟨hsound, fun id => (hlevel id).trans (sup_eq_left.mpr ?_)⟩
  split
  · next heq =>
    have hdecode : decodeWithdrawnGenerationKey key = some (artifact, job.scope.generation) :=
      decodeWithdrawnGenerationKey_eq_some_iff.mpr ⟨hnamed, hkey⟩
    have hle := h.generation_le hjob (heq ▸ hdecode)
    exact hle
  · exact bot_le

/-- **A fence raised** is the higher of what it was and what comes. -/
theorem Sound.raiseFence (artifact : EntityId) (cutoff : WithdrawnCutoff) :
    ∃ rows', rows.raiseFence artifact cutoff = .ok rows' ∧ rows'.queue = rows.queue ∧
      rows'.Sound ∧ ∀ id, level rank (rows'.fence id) =
        level rank (rows.fence id) ⊔
          if artifact = id then (cutoff.generation.toNat : WithBot ℕ) else ⊥ := by
  rw [WithdrawnRows.raiseFence, h.readFence]
  refine ⟨_, rfl, ?_⟩
  dsimp only
  by_cases hheld : (rows.fence artifact).any (·.generation ≥ cutoff.generation)
  · rw [if_pos hheld]
    refine ⟨rfl, h, fun id => (sup_eq_left.mpr ?_).symm⟩
    split
    · next heq =>
      subst heq
      cases hfence : rows.fence artifact with
      | none => simp [hfence] at hheld
      | some held =>
        simp only [hfence, any_some, decide_eq_true_eq, ge_iff_le,
          UInt64.le_iff_toNat_le] at hheld
        exact WithBot.coe_le_coe.mpr hheld
    · exact bot_le
  · rw [if_neg hheld]
    have hfence : ∀ id : EntityId,
        ({ rows with fences := rows.fences.insert artifact cutoff.encode } : WithdrawnRows).fence id =
          if artifact = id then some cutoff else rows.fence id := fun id => by
      unfold fence
      simp only [ExtTreeMap.getElem?_insert, LawfulEqCmp.compare_eq_iff_eq]
      split
      · exact decode_eq_some_iff.mpr rfl
      · rfl
    refine ⟨rfl, ⟨h.queued, fun id bytes hbytes => ?_⟩, fun id => ?_⟩
    · simp only [ExtTreeMap.getElem?_insert] at hbytes
      split at hbytes
      · exact ⟨cutoff, (some.inj hbytes).symm⟩
      · exact h.fenced id bytes hbytes
    · rw [hfence]
      split
      · next heq =>
        subst heq
        refine (sup_eq_right.mpr ?_).symm
        cases hheld' : rows.fence artifact with
        | none => exact bot_le
        | some held =>
          simp only [hheld', any_some, decide_eq_true_eq, ge_iff_le,
            UInt64.le_iff_toNat_le] at hheld
          exact WithBot.coe_le_coe.mpr (Nat.le_of_not_le hheld)
      · exact (sup_bot_eq _).symm

/-- **A sweep finished** moves no cutoff: its row goes, and the fence stands as high. -/
theorem Sound.finalize (hjob : rows.queue[key]? = some job) : ∃ artifact rows',
      key = encodeWithdrawnGenerationKey artifact job.scope.generation ∧
      rows.finalize key job = .ok rows' ∧ rows'.queue = rows.queue.erase key ∧
      (job.scope.generation.toNat : WithBot ℕ) ≤ level rank (rows'.fence artifact) ∧
      rows'.Sound ∧ ∀ id, rows'.cutoffLevel id = rows.cutoffLevel id := by
  obtain ⟨artifact, hkey, hdecode, -, hrow⟩ := h.decode hjob
  obtain ⟨fenced, hok, hqueue, hsound, hlevel⟩ := h.raiseFence artifact job.scope.cutoff
  have hsound' : ({ fenced with queue := fenced.queue.erase key } : WithdrawnRows).Sound := by
    refine ⟨fun other job' hjob' => hsound.queued other job' ?_, hsound.fenced⟩
    simp only [getElem?_erase] at hjob'
    split at hjob'
    · exact nomatch hjob'
    · exact hjob'
  have hfinal : rows.finalize key job = .ok { fenced with queue := fenced.queue.erase key } :=
    bind_eq_ok.mpr ⟨artifact, hrow, bind_eq_ok.mpr ⟨fenced, hok, rfl⟩⟩
  have hhigh : (job.scope.generation.toNat : WithBot ℕ) ≤
      level rank (fenced.fence artifact) := by
    rw [hlevel, if_pos rfl]
    exact le_sup_right
  refine ⟨artifact, _, hkey, hfinal, by rw [← hqueue], hhigh, hsound', fun id => ?_⟩
  refine eq_of_forall_ge_iff fun x => ?_
  rw [hsound'.cutoffLevel_le_iff, h.cutoffLevel_le_iff]
  have hfence : level rank
      (({ fenced with queue := fenced.queue.erase key } : WithdrawnRows).fence id) = _ := hlevel id
  rw [hfence, sup_le_iff, and_assoc]
  refine and_congr_right fun _ => ?_
  simp only [getElem?_erase, LawfulEqCmp.compare_eq_iff_eq, hqueue]
  constructor
  · rintro ⟨hgen, hall⟩ other job' hjob' hdecode'
    by_cases heq : key = other
    · subst heq
      obtain rfl := some.inj (hjob.symm.trans hjob')
      obtain ⟨rfl, -⟩ := Prod.mk.inj (some.inj (hdecode.symm.trans hdecode'))
      rwa [if_pos rfl] at hgen
    · exact hall other job' (by rwa [if_neg heq]) hdecode'
  · intro hall
    refine ⟨?_, fun other job' hjob' hdecode' => ?_⟩
    · split
      · next heq => exact hall key job hjob (heq ▸ hdecode)
      · exact bot_le
    · split at hjob'
      · exact nomatch hjob'
      · exact hall other job' hjob' hdecode'

end WithdrawnRows

end Oneiron
