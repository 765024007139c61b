import Oneiron.AttemptQueue.RetryChainLineage

/-!
# AttemptQueue/RetryChainSafety — a compacted lineage is the lineage it was

Compaction is a plan of edits (`plan`), each of one row.  The rows kept are linked in their order and
the depth from any of them is what it was, up to the top of the counter that folds what went
(`depthSum_survivors`); a second compaction finds nothing to drop.
-/

open Std

namespace Oneiron

open List Prod

namespace AttemptQueue

open LineageTables Compacting

/-! ## The plan of a compaction -/

/-- What a compaction does to one row. -/
inductive Edit where
  | delete (row : Try)
  | relink (row : Try) (parent : Option AttemptId) (folded : UInt32)

namespace Edit

variable (codecs : RowCodecs)

def row : Edit → Try
  | delete row | relink row _ _ => row

/-- The tables once an edit is made. -/
def made (tables : LineageTables) : Edit → LineageTables
  | delete row => tables.delete codecs row
  | relink row parent folded => tables.relinked codecs row parent folded

/-- A row to delete is settled and named by no run or task; the encoder writes a relinked row as it
is. -/
def Admitted : Edit → Prop
  | delete row => row.state.isTerminal ∧ row.runId = none ∧ row.taskRef = none
  | relink row parent folded =>
    codecs.encodeInTxn (row.retrying parent folded) = .ok row.payload

end Edit

section Plan

variable {codecs : RowCodecs} {tables : LineageTables}

/-- The edit that rebuilds the link of a kept row, when a try went behind it. -/
def rebuild (newer : Try) (parent : Option AttemptId) (gap : UInt32) : List Edit :=
  if 0 < gap then [.relink newer parent gap] else []

/-- The edits of a compaction, from a kept row behind which `gap` tries went. -/
def plan : Try → UInt32 → List (Try × Bool) → List Edit
  | newer, gap, [] => rebuild newer none gap
  | newer, gap, (row, true) :: rest => rebuild newer (some row.id) gap ++ plan row 0 rest
  | newer, gap, (row, false) :: rest => .delete row :: plan newer (pass gap row) rest

/-- A kept row as it is linked once `gap` tries went behind it. -/
def Try.linked (newer : Try) (parent : Option AttemptId) (gap : UInt32) : Try :=
  if 0 < gap then newer.retrying parent gap else newer

/-- The rows of a compacted lineage, from a kept row behind which `gap` tries went. -/
def survivors : Try → UInt32 → List (Try × Bool) → List Try
  | newer, gap, [] => [newer.linked none gap]
  | newer, gap, (row, true) :: rest => newer.linked (some row.id) gap :: survivors row 0 rest
  | newer, gap, (row, false) :: rest => survivors newer (pass gap row) rest

theorem survivors_stays (newer : Try) (gap : UInt32) (row : Try) (rest : List (Try × Bool)) :
    survivors newer gap ((row, true) :: rest) =
      newer.linked (some row.id) gap :: survivors row 0 rest := rfl

theorem survivors_goes (newer : Try) (gap : UInt32) (row : Try) (rest : List (Try × Bool)) :
    survivors newer gap ((row, false) :: rest) = survivors newer (pass gap row) rest := rfl

theorem plan_stays (newer : Try) (gap : UInt32) (row : Try) (rest : List (Try × Bool)) :
    plan newer gap ((row, true) :: rest) = rebuild newer (some row.id) gap ++ plan row 0 rest := rfl

variable {id : AttemptId} {row : Try} {parent : Option AttemptId} {rest : List Try} {keep : ℕ}
  {folded : UInt32} {keptSince : UInt64}

theorem rebuild_eq {c : Compacting} {newer : Try} (hnewer : c.newer = some newer)
    (hadmitted : ∀ edit ∈ rebuild newer parent c.gap, edit.Admitted codecs) :
    c.rebuild codecs parent =
      .ok ((rebuild newer parent c.gap).foldl (Edit.made codecs) c.tables) := by
  unfold Compacting.rebuild rebuild
  rw [hnewer]
  dsimp only
  split
  · next hgap =>
    rw [rebuild, if_pos hgap, forall_mem_singleton] at hadmitted
    exact relink_eq_relinked hadmitted
  · rfl

/-- **A compaction makes the edits of its plan.** -/
theorem foldlM_step : ∀ (marked : List (Try × Bool)) (c : Compacting) {newer : Try},
    c.newer = some newer → (∀ edit ∈ plan newer c.gap marked, edit.Admitted codecs) →
    ∃ done, marked.foldlM (step codecs) c = .ok done ∧
      done.rebuild codecs none =
        .ok ((plan newer c.gap marked).foldl (Edit.made codecs) c.tables) ∧
      done.deleted = c.deleted + (marked.length - (kept marked).length)
  | [], c, _, hnewer, hadmitted => ⟨c, rfl, rebuild_eq hnewer hadmitted, rfl⟩
  | (row, true) :: marked, c, newer, hnewer, hadmitted => by
    rw [plan, forall_mem_append] at hadmitted
    obtain ⟨done, hdone, hrebuild, hcount⟩ := foldlM_step marked
      ⟨(rebuild newer (some row.id) c.gap).foldl (Edit.made codecs) c.tables, c.deleted, some row, 0⟩
      rfl hadmitted.2
    refine ⟨done, ?_, ?_, ?_⟩
    · rw [foldlM_cons, step, rebuild_eq hnewer hadmitted.1]
      exact hdone
    · rw [hrebuild, plan, foldl_append]
    · rw [hcount]
      simp [kept]
  | (row, false) :: marked, c, newer, hnewer, hadmitted => by
    rw [plan, forall_mem_cons] at hadmitted
    obtain ⟨done, hdone, hrebuild, hcount⟩ := foldlM_step marked
      ⟨c.tables.delete codecs row, c.deleted + 1, c.newer, pass c.gap row⟩ hnewer hadmitted.2
    refine ⟨done, ?_, ?_, ?_⟩
    · have hsettled : ensure (row.state.isTerminal ∧ row.runId = none ∧ row.taskRef = none)
          (QueueError.invalidTransition "compact" row.state.asStr) = .ok ⟨⟩ :=
        if_pos hadmitted.1
      rw [foldlM_cons, step, hsettled]
      exact hdone
    · rw [hrebuild, plan, foldl_cons]
      rfl
    · have hle : (kept marked).length ≤ marked.length := by
        simpa [kept] using length_filter_le snd marked
      rw [hcount]
      simp only [kept, filter_cons, Bool.false_eq_true, if_false, length_cons] at hle ⊢
      omega

/-- **The compaction of a lineage** makes the edits of its plan, and says how many rows went. -/
theorem compactRetryChain_eq {live : Try} (h : LineageFrom codecs tables id (live :: rest))
    (hkind : ownerRetainedKind live.kind)
    (hadmitted : ∀ edit ∈ plan live 0 (mark keep keptSince 0 rest), edit.Admitted codecs) :
    compactRetryChain codecs tables id keep keptSince =
      .ok (rest.length - (newestSince keep keptSince rest).length,
        (plan live 0 (mark keep keptSince 0 rest)).foldl (Edit.made codecs) tables) := by
  obtain ⟨done, hdone, hrebuild, hcount⟩ := foldlM_step _ ⟨tables, 0, some live, 0⟩ rfl
    hadmitted
  have hretained : ensure (ownerRetainedKind live.kind = true)
      (QueueError.invalidTransition "compact" live.state.asStr) = .ok ⟨⟩ := if_pos hkind
  have hlength : (mark keep keptSince 0 rest).length = rest.length := by
    rw [← length_map fst, map_fst_mark]
  have hrun : ((live, true) :: mark keep keptSince 0 rest).foldlM (step codecs)
      { tables } = .ok done := hdone
  rw [compactRetryChain, h.read]
  show (do
    ensure (ownerRetainedKind live.kind = true)
      (QueueError.invalidTransition "compact" live.state.asStr)
    let rest ← lineageBelow codecs tables keep keptSince [id] 0 live
    let done ← ((live, true) :: rest).foldlM (step codecs) { tables }
    let tables ← done.rebuild codecs none
    pure (done.deleted, tables)) = _
  rw [hretained, lineageBelow_of_walk h.walk]
  show (do
    let done ← ((live, true) :: mark keep keptSince 0 rest).foldlM (step codecs) { tables }
    let tables ← done.rebuild codecs none
    pure (done.deleted, tables)) = _
  rw [hrun]
  show (done.rebuild codecs none >>= fun tables => pure (done.deleted, tables)) = _
  rw [hrebuild, hcount, hlength, kept_mark, Nat.sub_zero, Nat.zero_add]
  rfl

/-! ## The rows of a compacted lineage -/

/-- A row but for the try it retries and the count folded behind it. -/
def Relinked (row row' : Try) : Prop :=
  ∃ parent folded, row' = { row with retryOf := parent, foldedRetries := folded }

variable {newer : Try} {gap : UInt32} {marked : List (Try × Bool)}

theorem relinked_linked (newer : Try) (parent : Option AttemptId) (gap : UInt32) :
    Relinked newer (newer.linked parent gap) := by
  unfold Try.linked
  split
  · exact ⟨_, _, rfl⟩
  · exact ⟨newer.retryOf, newer.foldedRetries, rfl⟩

/-- What makes two rows tries of one attempt is not what a relink writes. -/
theorem Relinked.same {child child' parent parent' : Try} (hparent : Relinked parent parent')
    (hchild : Relinked child child') : retriesTheSameAttempt codecs child' parent' ↔
      retriesTheSameAttempt codecs child parent := by
  obtain ⟨_, _, rfl⟩ := hparent
  obtain ⟨_, _, rfl⟩ := hchild
  rfl

theorem Relinked.id_eq {row' : Try} (h : Relinked row row') : row'.id = row.id := by
  obtain ⟨_, _, rfl⟩ := h
  rfl

/-- **The rows of a compacted lineage** are the rows kept, in their order. -/
theorem survivors_relinked : ∀ (marked : List (Try × Bool)) (newer : Try) (gap : UInt32),
    List.Forall₂ Relinked (newer :: kept marked) (survivors newer gap marked)
  | [], newer, gap => .cons (relinked_linked newer none gap) .nil
  | (row, true) :: marked, newer, gap => by
    exact .cons (relinked_linked newer (some row.id) gap) (survivors_relinked marked row 0)
  | (row, false) :: marked, newer, gap => by
    exact survivors_relinked marked newer (pass gap row)

theorem survivors_head (newer : Try) (gap : UInt32) (marked : List (Try × Bool)) :
    ∃ s rest, survivors newer gap marked = s :: rest ∧ Relinked newer s := by
  have hrows := survivors_relinked marked newer gap
  generalize survivors newer gap marked = rows at hrows
  rw [forall₂_cons_left_iff] at hrows
  obtain ⟨s, rest, hs, -, rfl⟩ := hrows
  exact ⟨s, rest, rfl, hs⟩

/-- Rows relinked one by one agree in what a relink does not write. -/
theorem map_of_relinked {β : Type} {f : Try → β} (hf : ∀ row row', Relinked row row' → f row' = f row)
    {rows rows' : List Try} (h : List.Forall₂ Relinked rows rows') : rows'.map f = rows.map f := by
  induction h with
  | nil => rfl
  | cons h _ ih => rw [map_cons, map_cons, ih, hf _ _ h]

theorem map_id_survivors : (survivors newer gap marked).map Try.id =
    newer.id :: (kept marked).map Try.id :=
  map_of_relinked (fun _ _ h => h.id_eq) (survivors_relinked marked newer gap)

theorem id_of_mem_survivors {s : Try} (h : s ∈ survivors newer gap marked) :
    s.id ∈ (newer :: marked.map fst).map Try.id := by
  have hmem : s.id ∈ newer.id :: (kept marked).map Try.id :=
    map_id_survivors ▸ mem_map_of_mem h
  refine mem_cons.mpr ((mem_cons.mp hmem).imp_right fun hin => ?_)
  obtain ⟨row, hrow, hid⟩ := mem_map.mp hin
  obtain ⟨pair, hpair, rfl⟩ := mem_map.mp hrow
  exact hid ▸ mem_map_of_mem (mem_map_of_mem (mem_of_mem_filter hpair))

theorem toNat_foldedRetries_linked (newer : Try) (parent : Option AttemptId) (gap : UInt32) :
    (newer.linked parent gap).foldedRetries.toNat =
      min (newer.foldedRetries.toNat + gap.toNat) u32Max := by
  unfold Try.linked
  split
  · exact toNat_saturatingAdd _ _
  · next hgap =>
    have hzero : gap.toNat = 0 := by
      rw [UInt32.lt_iff_toNat_lt, Nat.not_lt] at hgap
      exact Nat.le_zero.mp hgap
    have := toNat_le_u32Max newer.foldedRetries
    omega

/-- **What is folded is what went**: a compacted lineage counts no more than it did, and as much up
to the top of the counter. -/
theorem depthSum_survivors : ∀ (marked : List (Try × Bool)) (newer : Try) (gap : UInt32),
    depthSum (survivors newer gap marked) ≤
        1 + newer.foldedRetries.toNat + gap.toNat + depthSum (marked.map fst) ∧
      min (1 + newer.foldedRetries.toNat + gap.toNat + depthSum (marked.map fst)) u32Max ≤
        depthSum (survivors newer gap marked)
  | [], newer, gap => by
    have hfolded := toNat_foldedRetries_linked newer none gap
    simp only [survivors, depthSum_cons, map_nil, show depthSum [] = 0 from rfl]
    omega
  | (row, true) :: marked, newer, gap => by
    have hfolded := toNat_foldedRetries_linked newer (some row.id) gap
    have hzero : (0 : UInt32).toNat = 0 := rfl
    obtain ⟨hle, hge⟩ := depthSum_survivors marked row 0
    simp only [survivors, depthSum_cons, map_cons]
    omega
  | (row, false) :: marked, newer, gap => by
    have hpass := toNat_pass gap row
    obtain ⟨hle, hge⟩ := depthSum_survivors marked newer (pass gap row)
    simp only [survivors, depthSum_cons, map_cons]
    omega

/-- A row behind which nothing went is linked as it was. -/
theorem retryOf_linked (h : gap = 0 → newer.retryOf = parent) :
    (newer.linked parent gap).retryOf = parent := by
  unfold Try.linked
  split
  · rfl
  · next hgap => exact h (UInt32.le_zero_iff.mp (UInt32.not_lt.mp hgap))

/-- **The rows of a compacted lineage are linked**, each to the next one kept. -/
theorem linked_survivors : ∀ {newer : Try} {gap : UInt32},
    (gap = 0 → newer.retryOf = (marked.map fst).head?.map Try.id) →
    (∀ row ∈ marked.map fst, retriesTheSameAttempt codecs newer row) →
    Linked codecs (marked.map fst) → Linked codecs (survivors newer gap marked) := by
  induction marked with
  | nil => exact fun hdirect _ _ => linked_singleton (retryOf_linked hdirect)
  | cons row marked ih =>
    obtain ⟨row, stays⟩ := row
    intro newer gap hdirect hsame hlinks
    cases stays with
    | true =>
      have hrest : Linked codecs (survivors row 0 marked) :=
        ih (fun _ => hlinks.1) hlinks.same hlinks.2.2
      obtain ⟨s, rest, hs, hhead⟩ := survivors_head row 0 marked
      rw [survivors_stays, hs]
      rw [hs] at hrest
      refine ⟨?_, ?_, hrest⟩
      · have hlink : (newer.linked (some row.id) gap).retryOf = some row.id := retryOf_linked hdirect
        rw [hlink]
        exact congrArg some hhead.id_eq.symm
      · rintro _ ⟨⟩
        have hnewer := relinked_linked newer (some row.id) gap
        exact (hhead.same hnewer).mpr (hsame row mem_cons_self)
    | false =>
      refine ih (fun hzero => ?_) (fun other hother => ?_) hlinks.2.2
      · exact absurd (hzero ▸ pass_pos gap row) (UInt32.lt_irrefl 0)
      · exact hsame other (mem_cons_of_mem row hother)

/-- The rows below a kept one are the end of the compacted lineage that starts at it. -/
theorem survivors_suffix {below : List (Try × Bool)} :
    ∀ (before : List (Try × Bool)) (newer : Try) (gap : UInt32),
      survivors row 0 below <:+ survivors newer gap (before ++ (row, true) :: below)
  | [], newer, gap => by
    exact suffix_cons _ _
  | (other, true) :: before, newer, gap => by
    exact (survivors_suffix before other 0).trans (suffix_cons _ _)
  | (other, false) :: before, newer, gap => by
    exact survivors_suffix before newer (pass gap other)

/-! ## The edits of a plan -/

theorem mem_rebuild {edit : Edit} (h : edit ∈ rebuild newer parent gap) :
    edit = .relink newer parent gap ∧ 0 < gap := by
  unfold rebuild at h
  split at h
  · next hgap => exact ⟨mem_singleton.mp h, hgap⟩
  · exact absurd h not_mem_nil

/-- A plan edits rows of the lineage. -/
theorem row_of_mem_plan : ∀ {marked : List (Try × Bool)} {newer : Try} {gap : UInt32} {edit : Edit},
    edit ∈ plan newer gap marked → edit.row = newer ∨ edit.row ∈ marked.map fst
  | [], _, _, _, h => Or.inl ((mem_rebuild h).1 ▸ rfl)
  | (row, true) :: marked, newer, gap, edit, h => by
    rcases mem_append.mp h with h | h
    · exact Or.inl ((mem_rebuild h).1 ▸ rfl)
    · exact Or.inr (mem_cons.mpr (row_of_mem_plan h))
  | (row, false) :: marked, newer, gap, edit, h => by
    rcases mem_cons.mp h with rfl | h
    · exact Or.inr mem_cons_self
    · exact (row_of_mem_plan h).imp_right (mem_cons_of_mem _)

theorem id_of_mem_plan (h : id ∈ (plan newer gap marked).map fun e => e.row.id) :
    id ∈ (newer :: marked.map fst).map Try.id := by
  obtain ⟨edit, hedit, rfl⟩ := mem_map.mp h
  exact mem_map_of_mem (mem_cons.mpr (row_of_mem_plan hedit))

/-- **A plan edits a row once.** -/
theorem nodup_plan : ∀ {marked : List (Try × Bool)} {newer : Try} {gap : UInt32},
    ((newer :: marked.map fst).map Try.id).Nodup →
    ((plan newer gap marked).map fun edit => edit.row.id).Nodup
  | [], newer, gap, _ => by
    unfold plan rebuild
    split
    · exact nodup_singleton _
    · exact nodup_nil
  | (row, true) :: marked, newer, gap, h => by
    obtain ⟨hfresh, hnodup⟩ := nodup_cons.mp h
    have hrest : ((plan row 0 marked).map fun edit => edit.row.id).Nodup := nodup_plan hnodup
    unfold plan rebuild
    split
    · exact nodup_cons.mpr ⟨fun hin => hfresh (id_of_mem_plan hin), hrest⟩
    · exact hrest
  | (row, false) :: marked, newer, gap, h => by
    obtain ⟨hfresh, hnodup⟩ := nodup_cons.mp h
    obtain ⟨hrow, hnodup⟩ := nodup_cons.mp hnodup
    have hrest : ((newer :: marked.map fst).map Try.id).Nodup :=
      nodup_cons.mpr ⟨fun hin => hfresh (mem_cons_of_mem _ hin), hnodup⟩
    refine nodup_cons.mpr ⟨fun hin => ?_, nodup_plan hrest⟩
    rcases mem_cons.mp (id_of_mem_plan hin) with heq | hin
    · exact hfresh (mem_cons.mpr (Or.inl heq.symm))
    · exact hrow hin

/-- **A plan deletes exactly the rows that do not stay.** -/
theorem delete_mem_plan : ∀ {marked : List (Try × Bool)} {newer : Try} {gap : UInt32},
    Edit.delete row ∈ plan newer gap marked ↔ (row, false) ∈ marked
  | [], newer, gap => by
    refine iff_of_false (fun h => ?_) not_mem_nil
    exact nomatch (mem_rebuild h).1
  | (other, true) :: marked, newer, gap => by
    rw [plan, mem_append, delete_mem_plan, mem_cons]
    refine ⟨fun h => Or.inr (h.resolve_left fun h => nomatch (mem_rebuild h).1), fun h => ?_⟩
    exact Or.inr (h.resolve_left fun h => nomatch congrArg snd h)
  | (other, false) :: marked, newer, gap => by
    rw [plan, mem_cons, delete_mem_plan, mem_cons, Prod.mk.injEq, Edit.delete.injEq]
    simp

theorem linked_of_mem_rebuild {parent' : Option AttemptId}
    (h : Edit.relink row parent folded ∈ rebuild newer parent' gap) :
    row.retrying parent folded = newer.linked parent' gap := by
  obtain ⟨heq, hgap⟩ := mem_rebuild h
  obtain ⟨rfl, rfl, rfl⟩ := Edit.relink.inj heq
  exact (if_pos hgap).symm

/-- A relink writes a row of the compacted lineage. -/
theorem mem_survivors_of_relink : ∀ {marked : List (Try × Bool)} {newer : Try} {gap : UInt32},
      Edit.relink row parent folded ∈ plan newer gap marked →
      row.retrying parent folded ∈ survivors newer gap marked
  | [], newer, gap, h => mem_singleton.mpr (linked_of_mem_rebuild h)
  | (other, true) :: marked, newer, gap, h => by
    rw [survivors_stays, mem_cons]
    rcases mem_append.mp h with h | h
    · exact Or.inl (linked_of_mem_rebuild h)
    · exact Or.inr (mem_survivors_of_relink h)
  | (other, false) :: marked, newer, gap, h => by
    rw [survivors_goes]
    exact mem_survivors_of_relink ((mem_cons.mp h).resolve_left nofun)

/-- **A row of a compacted lineage** is one the plan relinks, or one it leaves alone. -/
theorem mem_survivors : ∀ {marked : List (Try × Bool)} {newer : Try} {gap : UInt32} {s : Try},
    ((newer :: marked.map fst).map Try.id).Nodup → s ∈ survivors newer gap marked →
    (∃ row parent folded, Edit.relink row parent folded ∈ plan newer gap marked ∧
      s = row.retrying parent folded) ∨
    s ∈ newer :: kept marked ∧ s.id ∉ (plan newer gap marked).map fun edit => edit.row.id
  | [], newer, gap, s, _, h => by
    obtain rfl := mem_singleton.mp h
    unfold Try.linked plan rebuild
    split
    · exact Or.inl ⟨newer, none, gap, mem_singleton_self _, rfl⟩
    · exact Or.inr ⟨mem_cons_self, not_mem_nil⟩
  | (row, true) :: marked, newer, gap, s, hnodup, h => by
    obtain ⟨hfresh, hnodup⟩ := nodup_cons.mp hnodup
    rw [survivors_stays, mem_cons] at h
    rw [plan_stays]
    rcases h with rfl | h
    · unfold Try.linked rebuild
      split
      · exact Or.inl ⟨newer, some row.id, gap, mem_cons_self, rfl⟩
      · exact Or.inr ⟨mem_cons_self, fun hin => hfresh (id_of_mem_plan hin)⟩
    · have hs : s.id ∈ (row :: marked.map fst).map Try.id := id_of_mem_survivors h
      rcases mem_survivors hnodup h with ⟨other, parent, folded, hedit, heq⟩ | ⟨hmem, hfree⟩
      · exact Or.inl ⟨other, parent, folded, mem_append_right _ hedit, heq⟩
      · refine Or.inr ⟨mem_cons_of_mem _ hmem, fun hin => ?_⟩
        rw [map_append, mem_append] at hin
        rcases hin with hin | hin
        · obtain ⟨edit, hedit, hid⟩ := mem_map.mp hin
          rw [(mem_rebuild hedit).1] at hid
          exact hfresh (hid ▸ hs)
        · exact hfree hin
  | (row, false) :: marked, newer, gap, s, hnodup, h => by
    obtain ⟨hfresh, hnodup⟩ := nodup_cons.mp hnodup
    obtain ⟨hrow, hnodup⟩ := nodup_cons.mp hnodup
    have hrest : ((newer :: marked.map fst).map Try.id).Nodup :=
      nodup_cons.mpr ⟨fun hin => hfresh (mem_cons_of_mem _ hin), hnodup⟩
    have hs : s.id ∈ (newer :: marked.map fst).map Try.id := id_of_mem_survivors h
    rcases mem_survivors hrest h with ⟨other, parent, folded, hedit, heq⟩ | ⟨hmem, hfree⟩
    · exact Or.inl ⟨other, parent, folded, mem_cons_of_mem _ hedit, heq⟩
    · refine Or.inr ⟨hmem, fun hin => ?_⟩
      rcases mem_cons.mp hin with heq | hin
      · rcases mem_cons.mp hs with hnewer | hin
        · exact hfresh (mem_cons.mpr (Or.inl (hnewer.symm.trans heq)))
        · exact hrow (show row.id ∈ _ from (show s.id = row.id from heq) ▸ hin)
      · exact hfree hin

/-- **A relink moves the link of the row it writes**: what the row retried went. -/
theorem retryOf_ne_of_relink : ∀ {newer : Try} {gap : UInt32},
    (gap = 0 → newer.retryOf = (marked.map fst).head?.map Try.id) →
    (0 < gap → ∃ gone, newer.retryOf = some gone ∧ gone ∉ (marked.map fst).map Try.id) →
    Linked codecs (marked.map fst) → ((marked.map fst).map Try.id).Nodup →
    Edit.relink row parent folded ∈ plan newer gap marked → row.retryOf ≠ parent := by
  induction marked with
  | nil =>
    intro newer gap _ hgone _ _ h
    obtain ⟨heq, hgap⟩ := mem_rebuild h
    obtain ⟨rfl, rfl, -⟩ := Edit.relink.inj heq
    obtain ⟨gone, hretry, -⟩ := hgone hgap
    rw [hretry]
    exact nofun
  | cons other marked ih =>
    obtain ⟨other, stays⟩ := other
    intro newer gap hdirect hgone hlinks hnodup h
    obtain ⟨hfresh, hbelow⟩ := nodup_cons.mp hnodup
    cases stays with
    | true =>
      rw [plan_stays, mem_append] at h
      rcases h with h | h
      · obtain ⟨heq, hgap⟩ := mem_rebuild h
        obtain ⟨rfl, rfl, -⟩ := Edit.relink.inj heq
        obtain ⟨gone, hretry, hnot⟩ := hgone hgap
        rw [hretry]
        exact fun heq => hnot (Option.some.inj heq ▸ mem_cons_self)
      · exact ih (fun _ => hlinks.1) (fun hlt => absurd hlt (UInt32.lt_irrefl 0)) hlinks.2.2 hbelow h
    | false =>
      refine ih (fun hzero => ?_) (fun _ => ?_) hlinks.2.2 hbelow
        ((mem_cons.mp h).resolve_left nofun)
      · exact absurd (hzero ▸ pass_pos gap other) (UInt32.lt_irrefl 0)
      · by_cases hzero : gap = 0
        · exact ⟨other.id, hdirect hzero, hfresh⟩
        · obtain ⟨gone, hretry, hnot⟩ := hgone (UInt32.pos_iff_ne_zero.mpr hzero)
          exact ⟨gone, hretry, fun hin => hnot (mem_cons_of_mem _ hin)⟩

/-! ## What the edits of a plan come to -/

theorem footprint_made_of_ne (tables : LineageTables) (edit : Edit) (id : AttemptId)
    (h : id ≠ edit.row.id) : (edit.made codecs tables).footprint id = tables.footprint id := by
  cases edit with
  | delete row => exact footprint_delete_of_ne h
  | relink row parent folded => exact footprint_relinked_of_ne h

theorem footprint_of_notMem {edits : List Edit} (h : id ∉ edits.map fun edit => edit.row.id) :
    (edits.foldl (Edit.made codecs) tables).footprint id = tables.footprint id :=
  view_foldl_of_notMem footprint footprint_made_of_ne h

section Made

variable {edits : List Edit} (hnodup : (edits.map fun edit => edit.row.id).Nodup)
include hnodup

theorem record_of_delete (h : Edit.delete row ∈ edits) :
    (edits.foldl (Edit.made codecs) tables).records[row.id]? = none :=
  view_foldl_of_mem footprint footprint_made_of_ne
    (P := fun _ => True) (Q := fun footprint => footprint.record = none)
    (fun tables _ => by simp [Edit.made, Edit.row, footprint, delete])
    hnodup h trivial

theorem footprint_of_delete (h : Edit.delete row ∈ edits)
    (hindexes : (tables.footprint row.id).Indexes codecs row) :
    (edits.foldl (Edit.made codecs) tables).footprint row.id = .gone :=
  view_foldl_of_mem footprint footprint_made_of_ne
    (i := .delete row) (P := Footprint.Indexes codecs row) (Q := fun footprint => footprint = .gone)
    (fun _ hindexes => footprint_delete hindexes) hnodup h hindexes

section

variable (h : Edit.relink row parent folded ∈ edits)

include h

theorem record_of_relink : (edits.foldl (Edit.made codecs) tables).records[row.id]? =
      some (.ok (row.retrying parent folded).toLineageRecord) :=
  view_foldl_of_mem footprint footprint_made_of_ne
    (P := fun _ => True) (Q := fun footprint => footprint.record =
      some (.ok (row.retrying parent folded).toLineageRecord))
    (fun tables _ => by
      simp [Edit.made, Edit.row, footprint, relinked]) hnodup h trivial

theorem indexes_of_relink (hindexes : (tables.footprint row.id).Indexes codecs row) :
    ((edits.foldl (Edit.made codecs) tables).footprint row.id).Indexes codecs
      (row.retrying parent folded) :=
  view_foldl_of_mem footprint footprint_made_of_ne
    (P := Footprint.Indexes codecs row) (Q := Footprint.Indexes codecs (row.retrying parent folded))
    (fun _ hindexes => indexes_relinked hindexes) hnodup h hindexes

theorem entries_of_relink : ((edits.foldl (Edit.made codecs) tables).footprint row.id).ready =
        (tables.footprint row.id).ready ∧
      ((edits.foldl (Edit.made codecs) tables).footprint row.id).dedupe =
        (tables.footprint row.id).dedupe := by
  let Same (footprint : Footprint) : Prop := footprint.ready = (tables.footprint row.id).ready ∧
    footprint.dedupe = (tables.footprint row.id).dedupe
  refine view_foldl_of_mem footprint footprint_made_of_ne
    (i := .relink row parent folded) (P := Same) (Q := Same) (fun other hsame => ?_) hnodup h
    ⟨rfl, rfl⟩
  have hready : ((other.relinked codecs row parent folded).footprint row.id).ready =
      (other.footprint row.id).ready := by
    simp [footprint, relinked, moveParentChild_eq,
      moveRetryChild]
  have hdedupe : ((other.relinked codecs row parent folded).footprint row.id).dedupe =
      (other.footprint row.id).dedupe := by
    simp [footprint, relinked, moveParentChild_eq,
      moveRetryChild]
  exact ⟨hready.trans hsame.1, hdedupe.trans hsame.2⟩

end

end Made

/-! ## A compacted lineage -/

/-- A sum is what it was, up to the top of the counter, and exactly where it is no more than that. -/
def SameDepth (before after : List Try) : Prop :=
  min (depthSum after) u32Max = min (depthSum before) u32Max ∧
    (depthSum before ≤ u32Max → depthSum after = depthSum before)

/-- What a compaction keeps of a lineage and of the tables. -/
structure Compacted (codecs : RowCodecs) (before after : LineageTables) (id : AttemptId)
    (keep : ℕ) (keptSince : UInt64) (live : Try) (rest : List Try) : Prop where
  lineage : ∃ rows, LineageFrom codecs after id rows ∧
    List.Forall₂ Relinked (live :: newestSince keep keptSince rest) rows
  depth : ∀ row ∈ live :: newestSince keep keptSince rest, ∃ rows rows',
    LineageFrom codecs before row.id rows ∧ LineageFrom codecs after row.id rows' ∧
      SameDepth rows rows' ∧ retryChainDepth codecs after row.id = retryChainDepth codecs before row.id
  named : ∀ row ∈ live :: newestSince keep keptSince rest,
    (before.footprint row.id).Indexes codecs row →
      ∃ row', Relinked row row' ∧ (after.footprint row.id).Indexes codecs row'
  waiting : ∀ row ∈ live :: newestSince keep keptSince rest,
    (after.footprint row.id).ready = (before.footprint row.id).ready ∧
      (after.footprint row.id).dedupe = (before.footprint row.id).dedupe
  deleted : ∀ row ∈ rest, row ∉ newestSince keep keptSince rest →
    after.records[row.id]? = none ∧
      ((before.footprint row.id).Indexes codecs row → after.footprint row.id = .gone)
  frame : ∀ other ∉ (live :: rest).map Try.id, after.footprint other = before.footprint other

/-- A walk marks a row as going exactly when it is not one of the newest since. -/
theorem mem_mark_false (hnodup : (rest.map Try.id).Nodup) :
    (row, false) ∈ mark keep keptSince 0 rest ↔ row ∈ rest ∧ row ∉ newestSince keep keptSince rest := by
  have hfst : (mark keep keptSince 0 rest).map fst = rest := map_fst_mark
  have hkept : kept (mark keep keptSince 0 rest) = newestSince keep keptSince rest := kept_mark
  have honce : ((mark keep keptSince 0 rest).map fst).Nodup := hfst.symm ▸ hnodup.of_map _
  have hmem (other : Try) : other ∈ kept (mark keep keptSince 0 rest) ↔
      (other, true) ∈ mark keep keptSince 0 rest := by
    simp [kept]
  rw [← hkept, hmem]
  constructor
  · refine fun h => ⟨?_, fun hkeep => ?_⟩
    · have hin : row ∈ (mark keep keptSince 0 rest).map fst := mem_map_of_mem h
      rwa [hfst] at hin
    · cases inj_on_of_nodup_map honce h hkeep rfl
  · rintro ⟨hin, hgoes⟩
    rw [← hfst] at hin
    obtain ⟨⟨other, stays⟩, hpair, rfl⟩ := mem_map.mp hin
    cases stays with
    | true => exact absurd hpair hgoes
    | false => exact hpair

section Compaction

variable {id : AttemptId} {live : Try} {rest : List Try} {keep : ℕ} {keptSince : UInt64}

/-- **Settled rows go and rows the encoder takes stay**: every edit of the plan is admitted. -/
theorem admitted_plan (h : LineageFrom codecs tables id (live :: rest))
    (hsettled : ∀ row ∈ rest, row ∉ newestSince keep keptSince rest →
      row.state.isTerminal ∧ row.runId = none ∧ row.taskRef = none)
    (hencode : ∀ row ∈ survivors live 0 (mark keep keptSince 0 rest),
      tables.records[row.id]? ≠ some (.ok row.toLineageRecord) →
        codecs.encodeInTxn row = .ok row.payload) :
    ∀ edit ∈ plan live 0 (mark keep keptSince 0 rest), edit.Admitted codecs := by
  have hfst : (mark keep keptSince 0 rest).map fst = rest := map_fst_mark
  have hnodup : (rest.map Try.id).Nodup := (nodup_cons.mp h.acyclic).2
  intro edit hedit
  cases edit with
  | delete row =>
    obtain ⟨hrow, hgoes⟩ := (mem_mark_false hnodup).mp (delete_mem_plan.mp hedit)
    exact hsettled row hrow hgoes
  | relink row parent folded =>
    refine hencode _ (mem_survivors_of_relink hedit) fun hstored => ?_
    have hmoved : row.retryOf ≠ parent := by
      have hlinks : Linked codecs ((mark keep keptSince 0 rest).map fst) :=
        hfst.symm ▸ h.links.2.2
      refine retryOf_ne_of_relink (fun _ => ?_) (fun hlt => absurd hlt (UInt32.lt_irrefl 0)) hlinks
        ?_ hedit
      · rw [hfst]
        exact h.links.1
      · rwa [hfst]
    have hrow : row ∈ live :: rest :=
      mem_cons.mpr ((row_of_mem_plan hedit).imp_right fun hin => hfst ▸ hin)
    have hsame := (h.stored row hrow).symm.trans hstored
    exact hmoved (congrArg LineageRecord.retryOf (Except.ok.inj (Option.some.inj hsame)))

/-- The tables a compaction leaves. -/
def compacted (codecs : RowCodecs) (tables : LineageTables) (keep : ℕ) (keptSince : UInt64)
    (live : Try) (rest : List Try) : LineageTables :=
  (plan live 0 (mark keep keptSince 0 rest)).foldl (Edit.made codecs) tables

section

variable (h : LineageFrom codecs tables id (live :: rest))

include h

theorem nodup_marked : ((live :: (mark keep keptSince 0 rest).map fst).map Try.id).Nodup := by
  rw [map_fst_mark]
  exact h.acyclic

theorem nodup_marked_plan :
    ((plan live 0 (mark keep keptSince 0 rest)).map fun edit => edit.row.id).Nodup :=
  nodup_plan (nodup_marked h)

/-- **The rows that stay are a lineage**, from the live row down. -/
theorem lineageFrom_survivors :
    LineageFrom codecs (compacted codecs tables keep keptSince live rest) id
      (survivors live 0 (mark keep keptSince 0 rest)) := by
  have hfst : (mark keep keptSince 0 rest).map fst = rest := map_fst_mark
  refine ⟨?_, fun s hs => ?_, ?_, ?_⟩
  · obtain ⟨s, below, hs, hhead⟩ := survivors_head live 0 (mark keep keptSince 0 rest)
    rw [hs]
    exact (congrArg some hhead.id_eq).trans h.head
  · rcases mem_survivors (nodup_marked h) hs with ⟨row, parent, folded, hedit, rfl⟩ | ⟨hrow, hfree⟩
    · exact record_of_relink (nodup_marked_plan h) hedit
    · have hframe : (compacted codecs tables keep keptSince live rest).footprint s.id =
          tables.footprint s.id := footprint_of_notMem hfree
      have hrow : s ∈ live :: rest := by
        rw [kept_mark] at hrow
        refine mem_cons.mpr ((mem_cons.mp hrow).imp_right fun hin => ?_)
        exact mem_of_mem_filter (mem_of_mem_take hin)
      exact (congrArg Footprint.record hframe).trans (h.stored s hrow)
  · refine linked_survivors (fun _ => ?_) (fun row hrow => ?_) ?_
    · rw [hfst]
      exact h.links.1
    · rw [hfst] at hrow
      exact h.links.same row hrow
    · rw [hfst]
      exact h.links.2.2
  · rw [map_id_survivors, kept_mark]
    refine h.acyclic.sublist (List.Sublist.cons_cons _ (List.Sublist.map _ ?_))
    exact (take_sublist _ _).trans filter_sublist

/-- A row that stays is relinked, or left alone. -/
theorem relink_or_notMem (hrow : row ∈ live :: newestSince keep keptSince rest) :
    (∃ parent folded, Edit.relink row parent folded ∈ plan live 0 (mark keep keptSince 0 rest)) ∨
      row.id ∉ (plan live 0 (mark keep keptSince 0 rest)).map fun edit => edit.row.id := by
  have hfst : (mark keep keptSince 0 rest).map fst = rest := map_fst_mark
  have hmem (other : Try) (hother : other ∈ newestSince keep keptSince rest) : other ∈ rest :=
    mem_of_mem_filter (mem_of_mem_take hother)
  have hin : row ∈ live :: rest := mem_cons.mpr ((mem_cons.mp hrow).imp_right (hmem row))
  have hid : row.id ∈ (survivors live 0 (mark keep keptSince 0 rest)).map Try.id := by
    rw [map_id_survivors, kept_mark]
    exact mem_map_of_mem hrow
  obtain ⟨s, hs, hsid⟩ := mem_map.mp hid
  rcases mem_survivors (nodup_marked h) hs with ⟨other, parent, folded, hedit, rfl⟩ | ⟨-, hfree⟩
  · have hother : other ∈ live :: rest :=
      mem_cons.mpr ((row_of_mem_plan hedit).imp_right fun hin => hfst ▸ hin)
    obtain rfl : other = row := inj_on_of_nodup_map h.acyclic hother hin hsid
    exact Or.inl ⟨parent, folded, hedit⟩
  · exact Or.inr (hsid ▸ hfree)

/-- **The depth from a row that stays** is what it was. -/
theorem depth_of_stays (hrow : row ∈ live :: newestSince keep keptSince rest) :
    ∃ rows rows', LineageFrom codecs tables row.id rows ∧
      LineageFrom codecs (compacted codecs tables keep keptSince live rest) row.id rows' ∧
      depthSum rows' ≤ depthSum rows ∧ min (depthSum rows) u32Max ≤ depthSum rows' := by
  have hfst : (mark keep keptSince 0 rest).map fst = rest := map_fst_mark
  have hafter : LineageFrom codecs (compacted codecs tables keep keptSince live rest) id
      (survivors live 0 (mark keep keptSince 0 rest)) := lineageFrom_survivors h
  have hzero : (0 : UInt32).toNat = 0 := rfl
  rcases mem_cons.mp hrow with rfl | hrow
  · have hid : row.id = id := Option.some.inj h.head
    obtain ⟨hle, hge⟩ := depthSum_survivors (mark keep keptSince 0 rest) row 0
    rw [hfst, hzero, Nat.add_zero, ← depthSum_cons] at hle hge
    exact ⟨_, _, hid ▸ h, hid ▸ hafter, hle, hge⟩
  · have hmarked : (row, true) ∈ mark keep keptSince 0 rest := by
      have hkept : kept (mark keep keptSince 0 rest) = newestSince keep keptSince rest := kept_mark
      rw [← hkept] at hrow
      simpa [kept] using hrow
    obtain ⟨before, below, hsplit⟩ := append_of_mem hmarked
    have hrest : live :: rest = (live :: before.map fst) ++ row :: below.map fst := by
      rw [← hfst, hsplit, map_append]
      rfl
    obtain ⟨hle, hge⟩ := depthSum_survivors below row 0
    have hend : survivors row 0 below <:+ survivors live 0 (mark keep keptSince 0 rest) :=
      hsplit ▸ survivors_suffix before live 0
    obtain ⟨newer, hsuffix⟩ := hend
    obtain ⟨s, rows', hs, hhead⟩ := survivors_head row 0 below
    rw [← hsuffix, hs] at hafter
    refine ⟨_, _, (hrest ▸ h).below, hhead.id_eq ▸ hafter.below, hs ▸ hle, hs ▸ hge⟩

/-- **A compaction keeps a lineage**, its depths and its index entries, and nothing of what went. -/
theorem compacted_lineage :
    Compacted codecs tables (compacted codecs tables keep keptSince live rest) id keep keptSince
      live rest where
  lineage := by
    refine ⟨_, lineageFrom_survivors h, ?_⟩
    have hrows := survivors_relinked (mark keep keptSince 0 rest) live 0
    rwa [kept_mark, Nat.sub_zero] at hrows
  depth row hrow := by
    obtain ⟨rows, rows', hbefore, hafter, hle, hge⟩ := depth_of_stays h hrow
    obtain ⟨d, hd, hval⟩ := hbefore.retryChainDepth_eq
    obtain ⟨d', hd', hval'⟩ := hafter.retryChainDepth_eq
    have hmax : 1025 ≤ u32Max := by decide
    have hsame : d' = d := UInt32.toNat_inj.mp (by omega)
    refine ⟨rows, rows', hbefore, hafter, ⟨by omega, fun _ => by omega⟩, ?_⟩
    rw [hd', hd, hsame]
  named row hrow hindexes := by
    rcases relink_or_notMem h hrow with ⟨parent, folded, hedit⟩ | hfree
    · exact ⟨_, ⟨parent, _, rfl⟩, indexes_of_relink (nodup_marked_plan h) hedit hindexes⟩
    · refine ⟨row, ⟨row.retryOf, row.foldedRetries, rfl⟩, ?_⟩
      rw [compacted, footprint_of_notMem hfree]
      exact hindexes
  waiting row hrow := by
    rcases relink_or_notMem h hrow with ⟨parent, folded, hedit⟩ | hfree
    · exact entries_of_relink (nodup_marked_plan h) hedit
    · rw [compacted, footprint_of_notMem hfree]
      exact ⟨rfl, rfl⟩
  deleted row hrow hgoes := by
    have hnodup : (rest.map Try.id).Nodup := (nodup_cons.mp h.acyclic).2
    have hedit : Edit.delete row ∈ plan live 0 (mark keep keptSince 0 rest) :=
      delete_mem_plan.mpr ((mem_mark_false hnodup).mpr ⟨hrow, hgoes⟩)
    exact ⟨record_of_delete (nodup_marked_plan h) hedit,
      footprint_of_delete (nodup_marked_plan h) hedit⟩
  frame other hother := by
    refine footprint_of_notMem fun hin => hother ?_
    have hmem := id_of_mem_plan hin
    rwa [map_fst_mark] at hmem

end

/-- Where every row stays, a compaction has nothing to do. -/
theorem plan_of_room (rows : List Try) (newer : Try) :
    plan newer 0 (rows.map (·, true)) = [] := by
  induction rows generalizing newer with
  | nil => rfl
  | cons row rows ih =>
    rw [map_cons, plan_stays, ih]
    rfl

/-- **A second compaction changes nothing**: every row left has room and is stamped since. -/
theorem compactRetryChain_again (h : LineageFrom codecs tables id (live :: rest))
    (hkind : ownerRetainedKind live.kind) :
    compactRetryChain codecs (compacted codecs tables keep keptSince live rest) id keep keptSince =
      .ok (0, compacted codecs tables keep keptSince live rest) := by
  have hcompacted : Compacted codecs tables (compacted codecs tables keep keptSince live rest) id keep
      keptSince live rest := compacted_lineage h
  obtain ⟨rows, hafter, hrows⟩ := hcompacted.lineage
  generalize compacted codecs tables keep keptSince live rest = after at hafter
  rw [forall₂_cons_left_iff] at hrows
  obtain ⟨live', rest', hlive, hrest, rfl⟩ := hrows
  have hkind' : ownerRetainedKind live'.kind := by
    obtain ⟨_, _, rfl⟩ := hlive
    exact hkind
  have hlength : rest'.length ≤ keep := hrest.length_eq ▸ length_take_le _ _
  have hstamped : ∀ row ∈ rest', keptSince ≤ row.updatedAt := by
    have hstamps : rest'.map (·.updatedAt) = (newestSince keep keptSince rest).map (·.updatedAt) :=
      map_of_relinked (by rintro row _ ⟨_, _, rfl⟩; rfl) hrest
    intro row hrow
    have hin : row.updatedAt ∈ rest'.map (·.updatedAt) := mem_map_of_mem hrow
    rw [hstamps] at hin
    obtain ⟨old, hold, hstamp⟩ := mem_map.mp hin
    rw [← hstamp]
    exact of_decide_eq_true (mem_filter.mp (mem_of_mem_take hold)).2
  have hmark : mark keep keptSince 0 rest' = rest'.map (·, true) :=
    mark_of_room (by omega) hstamped
  have hplan : plan live' 0 (mark keep keptSince 0 rest') = [] := by rw [hmark, plan_of_room]
  have hall : newestSince keep keptSince rest' = rest' := by
    rw [newestSince, filter_eq_self.mpr fun row hrow => by simpa using hstamped row hrow,
      take_of_length_le hlength]
  have hrun : compactRetryChain codecs after id keep keptSince = _ :=
    compactRetryChain_eq hafter hkind' (hplan ▸ fun _ hin => absurd hin not_mem_nil)
  rw [hrun, hplan, hall, Nat.sub_self, foldl_nil]

end Compaction

end Plan

/-- **Compaction keeps the lineage of a try.**  From the live row of a lineage of the owner-retained
kind, whose rows to drop are settled and named by no run or task and whose relinked rows the encoder
writes as they are, a compaction keeps that row and the newest `keep` tries stamped since, in their
order and each linked to the next, with the depth from each of them as it was; no index names a row
dropped; and a second compaction changes nothing. -/
theorem compaction_keeps_the_lineage (codecs : RowCodecs) (tables : LineageTables) (id : AttemptId)
    (keep : ℕ) (keptSince : UInt64) (live : Try) (rest : List Try)
    (hlineage : LineageFrom codecs tables id (live :: rest)) (hkind : ownerRetainedKind live.kind)
    (hsettled : ∀ row ∈ rest, row ∉ newestSince keep keptSince rest →
      row.state.isTerminal ∧ row.runId = none ∧ row.taskRef = none)
    (hencode : ∀ row ∈ survivors live 0 (mark keep keptSince 0 rest),
      tables.records[row.id]? ≠ some (.ok row.toLineageRecord) →
        codecs.encodeInTxn row = .ok row.payload) :
    ∃ tables', compactRetryChain codecs tables id keep keptSince =
        .ok (rest.length - (newestSince keep keptSince rest).length, tables') ∧
      Compacted codecs tables tables' id keep keptSince live rest ∧
      compactRetryChain codecs tables' id keep keptSince = .ok (0, tables') :=
  ⟨compacted codecs tables keep keptSince live rest,
    compactRetryChain_eq hlineage hkind (admitted_plan hlineage hsettled hencode),
    compacted_lineage hlineage, compactRetryChain_again hlineage hkind⟩

/-! ### A lineage of two -/

/-- Codecs that read no payload, and an encoder that masks nothing. -/
def plainCodecs : RowCodecs where
  markerIdentity _ := none
  dreamerParent _ := none
  dedupeIndexKey kind key := kind ++ key
  dedupeIndexKeyV2 kind actor key := kind ++ actor ++ key
  encodeInTxn row := .ok row.payload

/-- A try of one marker, under the id each byte of which is `n`. -/
def markerTry (n : UInt8) (state : AttemptState) (retryOf : Option AttemptId) (folded : UInt32) :
    Try where
  kind := taggingMarkerKind
  state
  scheduledAt := none
  backoffUntil := none
  worker := none
  taskRef := none
  leaseOwner := none
  attemptCount := 0
  claimedAt := none
  updatedAt := 0
  payload := []
  runId := none
  dedupeKey := none
  dedupeActorRef := none
  retryOf
  foldedRetries := folded
  placement := none
  id := ⟨List.replicate 16 n, EntityId.length_filled n⟩

/-- The failed try, and the one that retries it. -/
def failedTry (folded : UInt32) : Try := markerTry 2 .failed none folded

def liveTry (folded : UInt32) : Try := markerTry 1 .queued (some (failedTry folded).id) 0

/-- A ledger of the two. -/
def twoTries (folded : UInt32) : LineageTables where
  records := ((∅ : OrderedMap AttemptId (Except QueueError LineageRecord)).insert
    (failedTry folded).id (.ok (failedTry folded).toLineageRecord)).insert
    (liveTry folded).id (.ok (liveTry folded).toLineageRecord)
  ready := ∅
  dedupe := ∅
  kind := ∅
  task := ∅
  retryChild := ∅
  parentChild := ∅
  annotationHold := ∅

theorem lineageFrom_twoTries (folded : UInt32) :
    LineageFrom plainCodecs (twoTries folded) (liveTry folded).id
      [liveTry folded, failedTry folded] := by
  have hne : (liveTry folded).id ≠ (failedTry folded).id := fun h =>
    absurd (AttemptId.ext_iff.mp h) (show List.replicate 16 (1 : UInt8) ≠ List.replicate 16 2 by decide)
  have hsame : retriesTheSameAttempt plainCodecs (liveTry folded) (failedTry folded) := by
    simp [retriesTheSameAttempt, retriesTheSamePayload, liveTry, failedTry, markerTry]
  have hlive : (twoTries folded).records[(liveTry folded).id]? =
      some (.ok (liveTry folded).toLineageRecord) := ExtTreeMap.getElem?_insert_self
  have hfailed : (twoTries folded).records[(failedTry folded).id]? =
      some (.ok (failedTry folded).toLineageRecord) :=
    (OrderedMap.getElem?_insert_of_ne hne).trans ExtTreeMap.getElem?_insert_self
  exact {
    head := rfl
    stored := forall_mem_cons.mpr ⟨hlive, forall_mem_singleton.mpr hfailed⟩
    links := ⟨rfl, fun _ hnext => Option.some.inj hnext ▸ hsame, linked_singleton rfl⟩
    acyclic := nodup_cons.mpr
      ⟨fun hin => hne (mem_singleton.mp hin), nodup_singleton _⟩ }

theorem compaction_keeps_the_lineage_two : ∃ tables',
    compactRetryChain plainCodecs (twoTries 3) (liveTry 3).id 0 0 = .ok (1, tables') ∧
      Compacted plainCodecs (twoTries 3) tables' (liveTry 3).id 0 0 (liveTry 3) [failedTry 3] ∧
      compactRetryChain plainCodecs tables' (liveTry 3).id 0 0 = .ok (0, tables') :=
  compaction_keeps_the_lineage plainCodecs (twoTries 3) (liveTry 3).id 0 0 (liveTry 3) [failedTry 3]
    (lineageFrom_twoTries 3) rfl
    (fun _ hrow _ => mem_singleton.mp hrow ▸ ⟨rfl, rfl, rfl⟩) (fun _ _ _ => rfl)

/-- The count a live row folds stops at its top: a lineage that counted more counts less. -/
theorem folded_count_saturates : ∃ tables' rows',
    LineageFrom plainCodecs (twoTries 4294967295) (liveTry 4294967295).id
      [liveTry 4294967295, failedTry 4294967295] ∧
    compactRetryChain plainCodecs (twoTries 4294967295) (liveTry 4294967295).id 0 0 =
      .ok (1, tables') ∧
    LineageFrom plainCodecs tables' (liveTry 4294967295).id rows' ∧
    depthSum rows' ≠ depthSum [liveTry 4294967295, failedTry 4294967295] := by
  have h := lineageFrom_twoTries 4294967295
  refine ⟨_, _, h, compactRetryChain_eq h rfl (admitted_plan h (fun row hrow _ => ?_)
    fun _ _ _ => rfl), lineageFrom_survivors h, by decide⟩
  exact mem_singleton.mp hrow ▸ ⟨rfl, rfl, rfl⟩

end AttemptQueue

end Oneiron
