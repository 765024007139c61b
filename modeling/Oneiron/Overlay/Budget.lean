import Oneiron.Overlay.Replay
import Oneiron.Overlay.Room

/-!
# Overlay/Budget — what a room publishes stays within its byte budget

Admission measures the open segment's preview, and commit replays the segment on what is published
by then without a check.  A retirement landing in between only takes rows out, so the replay stays a
thinning of the preview and weighs no more than it — unless the segment's first act on a retired row
is to delete it as one base does not hold.  That delete dropped the row in the preview and leaves a
mask in the replay, which is charged the key's bytes (`budget_exceeded`).  Runs without it keep the
budget (`budget_of_cleanRun`).
-/

open Std

namespace Oneiron

open SessionOverlay TxnSegment

open Except Option KeyspaceState List OrderedMap OverlayState OverlayState.Thins SessionOverlay

/-! ## What a state weighs -/

theorem DupDelta.Thins.dupRowBytes_le {delta next : DupDelta} (h : delta.Thins next) (key : Bytes) :
    dupRowBytes key next ≤ dupRowBytes key delta := by
  have hpresent := weigh_le_weigh (fun identity value => identity.length + value.length)
    (m := next.present) (n := delta.present) fun identity => by
      unfold OrderedMap.weightAt
      cases hv : next.present[identity]? with
      | none => exact Nat.zero_le _
      | some value => rw [h.present hv]
  unfold dupRowBytes
  rw [h.deleted]
  omega

variable {state : OverlayState} {mutations : List OverlayMutation} {key : Bytes}
  (keyspace : OverlayKeyspace) (marked : OrderedSet Bytes)

theorem KeyspaceState.Thins.byteSize_le : ∀ {d : Bool} {p f : KeyspaceState d}, p.Thins f →
      f.byteSize keyspace marked ≤ p.byteSize keyspace marked
  | _, .single .., .single .., h => weigh_le_weigh _ fun key => by
      unfold OrderedMap.weightAt
      rcases h.2 key with heq | ⟨hnone, -⟩
      · rw [heq]
      · rw [hnone]
        exact Nat.zero_le _
  | _, .dupSort _ rows, .dupSort _ rows', h => weigh_le_weigh _ fun key => by
      obtain ⟨-, hk, h⟩ := h
      unfold OrderedMap.weightAt
      cases hf : rows'[key]? with
      | none => exact Nat.zero_le _
      | some next =>
        have hm := hk key (ExtTreeMap.mem_iff_isSome_getElem?.mpr (by simp [hf]))
        obtain ⟨delta, hp⟩ := isSome_iff_exists.mp (ExtTreeMap.mem_iff_isSome_getElem?.mp hm)
        have hthins := h key
        simp only [dupDelta, hf, hp, getD_some] at hthins
        rw [hp]
        exact hthins.dupRowBytes_le key

/-- A marked row costs nothing. -/
theorem byteSize_insert_le {d : Bool} : ∀ rows : KeyspaceState d,
      rows.byteSize keyspace (marked.insert key) ≤ rows.byteSize keyspace marked
  | .dupSort .. => Nat.le_refl _
  | .single _ rows => weigh_mono rows fun other value => by
    unfold singleRowBytes
    cases hm : marked.contains other with
    | true => simp [hm]
    | false =>
      split
      · exact Nat.zero_le _
      · rw [if_neg (by simp_all)]

namespace OverlayState

/-- The bytes of the rows. -/
def rowBytes (state : OverlayState) : ℕ :=
  (OverlayKeyspace.all.map fun keyspace =>
    (state.keyspaces keyspace).byteSize keyspace (state.bookkeeping keyspace)).sum

theorem rowBytes_le_of_trails {p f : OverlayState} (h : Trails p f) : f.rowBytes ≤ p.rowBytes :=
  sum_le_sum fun keyspace _ => by
    rw [h.bookkeeping]
    exact (h.keyspaces keyspace).byteSize_le keyspace _

variable [EntryLayout]

/-- The bytes of journal entries. -/
def entryBytes (journal : List PublishedEntry) : ℕ :=
  (journal.map fun published => published.entry.byteSize).sum

theorem measure_eq (state : OverlayState) : state.measure = state.rowBytes + entryBytes state.journal :=
  rfl

theorem measure_empty : empty.measure = 0 := by
  rfl

theorem measure_recalculateBytes (state : OverlayState) :
    state.recalculateBytes.bytesUsed = state.recalculateBytes.measure := rfl

theorem entryBytes_le_of_sublist {l l' : List PublishedEntry} (h : l.Sublist l') :
    entryBytes l ≤ entryBytes l' :=
  (h.map _).sum_le_sum fun _ _ => Nat.zero_le _

theorem measure_le_of_thins {next : OverlayState} (h : state.Thins next) :
    next.measure ≤ state.measure :=
  Nat.add_le_add (rowBytes_le_of_trails h.trails) (entryBytes_le_of_sublist h.journal)

end OverlayState

/-! ## What a segment's mutations leave alone -/

section Mutations

variable {state next : OverlayState} {mutation : OverlayMutation}

variable [EntryLayout]

/-- Every mutation leaves the count it makes, so the count is right where it was right before. -/
theorem bytesUsed_of_applyMutations (hstate : state.bytesUsed = state.measure)
    (h : applyMutations state mutations = .ok next) :
    next.bytesUsed = next.measure := by
  refine foldlM_preserves (fun s => s.bytesUsed = s.measure) (fun _ hs => ?_) h hstate
  obtain ⟨projected, -, hs⟩ := bind_eq_ok.mp hs
  rw [pure_eq_ok] at hs
  rw [← hs]
  rfl

omit [EntryLayout] in
/-- A mark only frees bytes. -/
theorem rowBytes_bookkeeping_le {keyspace : OverlayKeyspace}
    (h : applyMutation state (.bookkeeping keyspace key) = .ok next) :
    next.rowBytes ≤ state.rowBytes := by
  simp only [applyMutation] at h
  split at h
  · cases h
  · cases h
    refine sum_le_sum fun other _ => ?_
    rw [setMarks_keyspaces]
    by_cases hk : other = keyspace
    · subst hk
      rw [setMarks_bookkeeping_self]
      exact byteSize_insert_le _ _ _
    · rw [setMarks_bookkeeping_ne _ _ _ hk]

end Mutations

/-! ## The invariant -/

variable [EntryLayout]

/-- A commit that replays no drop of a retired row. -/
def Room.CommitsClean (room : Room) (op : RoomOp) : Prop :=
  op = .commit → ∀ segment, room.overlay.segment = some segment →
    ¬ DropsRetired room.installed room.overlay.state segment.mutations

/-- The runs of a room that never commit one. -/
def cleanRooms (budgetBytes : ℕ) : System Room RoomOp where
  init := (rooms budgetBytes).init
  step room op next := (rooms budgetBytes).step room op next ∧ room.CommitsClean op

/-- A segment opened on `installed` holds what its preview says, and no more than the budget. -/
structure SegmentFits (budgetBytes : ℕ) (installed : OverlayState) (segment : TxnSegment) : Prop where
  replays : applyMutations installed segment.mutations = .ok segment.preview
  journalBytes : segment.journalBytes = (segment.journal.map JournalEntry.byteSize).sum
  fits : segment.netBudget = none → segment.stagedBytes ≤ budgetBytes

/-- …and so does what an open net-budget operation would restore. -/
structure SegmentSafe (budgetBytes : ℕ) (installed : OverlayState) (segment : TxnSegment) : Prop
    extends SegmentFits budgetBytes installed segment where
  restores : ∀ {checkpoint}, segment.netBudget = some checkpoint →
    SegmentFits budgetBytes installed (segment.restore checkpoint) ∧
    checkpoint.mutationsLen ≤ segment.mutations.length ∧
    checkpoint.journalLen ≤ segment.journal.length

structure RoomSafe (room : Room) : Prop where
  counted : room.overlay.state.bytesUsed = room.overlay.state.measure
  fits : room.overlay.state.bytesUsed ≤ room.overlay.budgetBytes
  thins : ∀ {segment}, room.overlay.segment = some segment →
    room.installed.Thins room.overlay.state
  installed : ∀ {segment}, room.overlay.segment = some segment →
    room.installed.bytesUsed = room.installed.measure
  segment : ∀ {segment}, room.overlay.segment = some segment →
    SegmentSafe room.overlay.budgetBytes room.installed segment

namespace SessionOverlay

variable {overlay next : SessionOverlay} {segment : TxnSegment}

omit [EntryLayout] in
theorem ensureMutationBudget_eq_ok {budgetBytes currentBytes old new : ℕ} :
    ensureMutationBudget budgetBytes currentBytes old new = .ok () ↔
      new ≤ old ∨ currentBytes + (new - old) ≤ budgetBytes := by
  unfold ensureMutationBudget ensureBudget
  split
  · simp_all
  · split
    · simp only [reduceCtorEq, false_iff]
      omega
    · simp only [true_iff]
      omega

omit [EntryLayout] in
/-- What passes the growth check fits. -/
theorem fits_of_checkGrowth {projected : OverlayState}
    (h : overlay.checkGrowth segment projected = .ok ())
    (hnet : segment.netBudget = none) (hfits : segment.stagedBytes ≤ overlay.budgetBytes) :
    projected.bytesUsed + segment.journalBytes ≤ overlay.budgetBytes := by
  rw [checkGrowth, hnet, isNone_none, if_pos rfl, ensureMutationBudget_eq_ok] at h
  unfold stagedBytes at h hfits
  omega

end SessionOverlay

namespace RoomSafe

variable {room : Room} {next : SessionOverlay} {segment : TxnSegment} {budgetBytes : ℕ}

theorem start : RoomSafe ⟨.new budgetBytes, .empty⟩ where
  counted := measure_empty.symm
  fits := Nat.zero_le _
  thins h := nomatch h
  installed h := nomatch h
  segment h := nomatch h

/-- **The open segment may only be replaced by one that is safe.** -/
theorem replace (h : RoomSafe room) (hopen : room.overlay.segment = some segment)
    {segment' : TxnSegment}
    (hsafe : SegmentSafe room.overlay.budgetBytes room.installed segment') :
    RoomSafe { room with overlay := { room.overlay with segment := some segment' } } where
  counted := h.counted
  fits := h.fits
  thins _ := h.thins hopen
  installed _ := h.installed hopen
  segment hs := by
    cases hs
    exact hsafe

/-- Without a segment only the published state counts. -/
theorem close (hcounted : state.bytesUsed = state.measure)
    (hfits : state.bytesUsed ≤ room.overlay.budgetBytes) :
    RoomSafe { room with overlay := { room.overlay with state, segment := none } } where
  counted := hcounted
  fits := hfits
  thins hs := nomatch hs
  installed hs := nomatch hs
  segment hs := nomatch hs

/-- Staging keeps a segment safe where the new preview fits, or a net-budget operation is open. -/
theorem stages (h : RoomSafe room) {staged : List OverlayMutation}
    (hst : room.overlay.Stages staged next)
    (hfits : ∀ segment preview, room.overlay.segment = some segment →
      applyMutations segment.preview staged = .ok preview →
      segment.netBudget = none →
      preview.bytesUsed + segment.journalBytes ≤ room.overlay.budgetBytes) :
    RoomSafe { room with overlay := next } := by
  obtain ⟨segment, preview, hopen, hp, rfl⟩ := hst
  have hsafe := h.segment hopen
  refine h.replace hopen ⟨⟨?_, hsafe.journalBytes, hfits segment preview hopen hp⟩, ?_⟩
  · exact foldlM_append_eq_ok.mpr ⟨_, hsafe.replays, hp⟩
  · intro checkpoint hck
    obtain ⟨hrestored, hm, hj⟩ := hsafe.restores hck
    refine ⟨⟨?_, hrestored.journalBytes, hrestored.fits⟩, ?_, hj⟩
    · have := hrestored.replays
      simp only [restore] at this ⊢
      rwa [take_append_of_le_length hm]
    · simp only [length_append]
      omega

section

variable (h : RoomSafe room)

include h

theorem stageChecked {mutation : OverlayMutation}
    (hst : room.overlay.stageChecked mutation = .ok next) :
    RoomSafe { room with overlay := next } := by
  refine h.stages (stages_of_stageChecked hst) fun segment preview hopen hp hnet => ?_
  obtain ⟨_, hpre, -⟩ := bind_eq_ok.mp hst
  simp only [preflightSegmentMutation, bind_eq_ok,
    activeSegment_eq_ok] at hpre
  obtain ⟨segment', hopen', projected, hproj, hgrow⟩ := hpre
  obtain rfl := some.inj (hopen.symm.trans hopen')
  rw [applyMutations, foldlM_singleton_eq_ok, hproj, ok.injEq] at hp
  subst hp
  exact fits_of_checkGrowth hgrow hnet ((h.segment hopen).fits hnet)

/-- The preview counts its own bytes. -/
theorem counted_preview (hopen : room.overlay.segment = some segment) :
    segment.preview.bytesUsed = segment.preview.measure :=
  bytesUsed_of_applyMutations (h.installed hopen) (h.segment hopen).replays

theorem markBookkeepingRow {keyspace : OverlayKeyspace}
    (hst : room.overlay.markBookkeepingRow keyspace key = .ok next) :
    RoomSafe { room with overlay := next } := by
  refine h.stages (stageMutation_eq_ok.mp hst) fun segment preview hopen hp hnet => ?_
  obtain ⟨projected, hproj, rfl⟩ := applyMutations_singleton.mp hp
  have hrows := rowBytes_bookkeeping_le hproj
  have hjournal := (applyMutation_journal hproj).1
  have hcount := h.counted_preview hopen
  have hfits := (h.segment hopen).fits hnet
  unfold stagedBytes at hfits
  rw [hcount, measure_eq] at hfits
  rw [measure_recalculateBytes, measure_eq]
  have hrows' : projected.recalculateBytes.rowBytes = projected.rowBytes := rfl
  have hj' : projected.recalculateBytes.journal = projected.journal := rfl
  rw [hrows', hj', hjournal]
  omega

theorem stageMutationGroup (hst : room.overlay.stageMutationGroup mutations = .ok next) :
    RoomSafe { room with overlay := next } := by
  simp only [SessionOverlay.stageMutationGroup, bind_eq_ok,
    activeSegment_eq_ok] at hst
  obtain ⟨_, -, segment, hopen, projected, hproj, _, hgrow, hst⟩ := hst
  refine h.stages (stages_of_foldlM hopen hst) fun segment' preview hopen' hp hnet => ?_
  obtain rfl := some.inj (hopen.symm.trans hopen')
  rw [hproj, ok.injEq] at hp
  subst hp
  exact fits_of_checkGrowth hgrow hnet ((h.segment hopen).fits hnet)

theorem stageJournalEntry {entry : JournalEntry}
    (hst : room.overlay.stageJournalEntry entry = .ok next) :
    RoomSafe { room with overlay := next } := by
  simp only [SessionOverlay.stageJournalEntry, bind_eq_ok, activeSegment_eq_ok,
    pure_eq_ok] at hst
  obtain ⟨_, -, segment, hopen, _, hbudget, rfl⟩ := hst
  have hsafe := h.segment hopen
  refine h.replace hopen ⟨⟨hsafe.replays, ?_, fun hnet => ?_⟩, ?_⟩
  · simp [hsafe.journalBytes]
  · replace hnet : segment.netBudget = none := hnet
    simp only [checkEntry, hnet, isNone_none, if_true,
      ensureBudget] at hbudget
    split at hbudget
    · cases hbudget
    · unfold stagedBytes at *
      dsimp only
      omega
  · intro checkpoint hck
    obtain ⟨hrestored, hm, hj⟩ := hsafe.restores hck
    refine ⟨⟨hrestored.replays, ?_, hrestored.fits⟩, hm, ?_⟩
    · have := hrestored.journalBytes
      simp only [restore] at this ⊢
      rwa [take_append_of_le_length hj]
    · simp only [length_append]
      omega

theorem beginNetBudget (hst : room.overlay.beginNetBudget = .ok next) :
    RoomSafe { room with overlay := next } := by
  unfold SessionOverlay.beginNetBudget at hst
  split at hst
  · cases hst
  rename_i segment hopen
  split at hst
  · cases hst
  rename_i hnone
  cases hst
  have hsafe := h.segment hopen
  have hfits := hsafe.fits (by simpa using hnone)
  refine h.replace hopen ⟨⟨hsafe.replays, hsafe.journalBytes, nofun⟩, fun hck => ?_⟩
  cases hck
  refine ⟨⟨?_, ?_, fun _ => hfits⟩, Nat.le_refl _, Nat.le_refl _⟩
  · simpa [restore] using hsafe.replays
  · simpa [restore] using hsafe.journalBytes

theorem endNetBudget (stageOk : Bool) :
    RoomSafe { room with overlay := room.overlay.endNetBudget stageOk } := by
  unfold SessionOverlay.endNetBudget
  split
  · exact h
  rename_i segment hopen
  split
  · exact h
  rename_i checkpoint hck
  have hsafe := h.segment hopen
  obtain ⟨hrestored, -, -⟩ := hsafe.restores hck
  dsimp only
  split
  · rename_i hok
    refine h.replace hopen ⟨⟨hsafe.replays, hsafe.journalBytes, fun _ => ?_⟩, nofun⟩
    have hbefore := hrestored.fits rfl
    rw [ensureMutationBudget_eq_ok] at hok
    simp only [stagedBytes, restore] at hok hbefore ⊢
    omega
  · exact h.replace hopen ⟨hrestored, nofun⟩

/-- A thinned state is counted anew, and fits as before. -/
theorem retire (hthins : room.overlay.state.Thins state)
    (hcounted : state.bytesUsed = state.measure) :
    RoomSafe { room with overlay := { room.overlay with state } } where
  counted := hcounted
  fits := by
    have hle := measure_le_of_thins hthins
    have hfits := h.fits
    rw [h.counted] at hfits
    rw [hcounted]
    exact hle.trans hfits
  thins hs := (h.thins hs).trans hthins
  installed hs := h.installed hs
  segment hs := h.segment hs

end

/-! ### Commit -/

/-- Publishing entries adds their bytes to the count. -/
theorem publish (journal : List JournalEntry) : ∀ {state : OverlayState},
    state.bytesUsed = state.measure →
    (journal.foldl publishEntry state).bytesUsed =
        (journal.foldl publishEntry state).measure ∧
      (journal.foldl publishEntry state).bytesUsed =
        state.bytesUsed + (journal.map JournalEntry.byteSize).sum := by
  induction journal with
  | nil => exact fun hcount => ⟨hcount, rfl⟩
  | cons entry rest ih =>
    intro state hcount
    obtain ⟨hmeasure, hbytes⟩ := @ih (publishEntry state entry) rfl
    refine ⟨hmeasure, ?_⟩
    have hentry : (publishEntry state entry).bytesUsed =
        state.measure + entry.byteSize := by
      change OverlayState.rowBytes state + OverlayState.entryBytes (state.journal ++ [_]) = _
      rw [measure_eq, OverlayState.entryBytes, OverlayState.entryBytes]
      simp [Nat.add_assoc]
    rw [foldl_cons, hbytes, hentry, hcount, map_cons, sum_cons, Nat.add_assoc]

theorem commit (h : RoomSafe room)
    (hclean : ∀ segment, room.overlay.segment = some segment →
      ¬ DropsRetired room.installed room.overlay.state segment.mutations) :
    RoomSafe { room with overlay := room.overlay.commit.2 } := by
  unfold SessionOverlay.commit
  split
  · exact h
  rename_i segment hopen
  split
  · exact close h.counted h.fits
  rename_i hnet
  have hsafe := h.segment hopen
  have hthins := h.thins hopen
  obtain ⟨replayed, hreplayed, htrails⟩ :=
    hthins.trails.applyMutations (hclean segment hopen) hsafe.replays
  have hcount := bytesUsed_of_applyMutations h.counted hreplayed
  obtain ⟨hmeasure, hbytes⟩ := publish segment.journal hcount
  have happly : applyPreflightedToState room.overlay.state segment.mutations
      segment.journal = .ok (segment.journal.foldl publishEntry replayed) := by
    rw [applyPreflightedToState, hreplayed]
    rfl
  rw [happly]
  refine close hmeasure ?_
  -- the replay weighs no more than the preview, row for row and entry for entry
  have hrows := rowBytes_le_of_trails htrails
  have hentries := entryBytes_le_of_sublist hthins.journal
  have hpreview := h.counted_preview hopen
  have hfits := hsafe.fits (by simpa using hnet)
  rw [stagedBytes, hpreview, measure_eq,
    (journal_of_applyMutations hsafe.replays).1, hsafe.journalBytes] at hfits
  rw [hbytes, hcount, measure_eq, (journal_of_applyMutations hreplayed).1]
  omega

/-- **Every call but a commit that drops a retired row keeps the room safe.** -/
theorem perform (h : RoomSafe room) {op : RoomOp} (hclean : room.CommitsClean op) :
    RoomSafe (room.perform op) := by
  unfold Room.perform RoomOp.perform
  cases hres : op.result room.overlay with
  | error e =>
    cases op with
    | install =>
      cases hopen : room.overlay.segment with
      | none => simp [RoomOp.result, installTxnSegment, hopen] at hres
      | some segment => exact h
    | _ => exact h
  | ok next =>
    cases op with
    | install =>
      cases hopen : room.overlay.segment with
      | some segment => simp [RoomOp.result, installTxnSegment, hopen] at hres
      | none =>
        simp only [RoomOp.result, installTxnSegment, hopen, ok.injEq] at hres
        subst hres
        refine ⟨h.counted, h.fits, fun _ => .refl _, fun _ => h.counted, fun hs => ?_⟩
        cases hs
        exact ⟨⟨rfl, rfl, fun _ => h.fits⟩, by simp⟩
    | put keyspace key value | deleteDuplicate keyspace key value baseBacked =>
      obtain ⟨_, -, hst⟩ := bind_eq_ok.mp hres
      exact h.stageChecked hst
    | delete | clear => exact h.stageChecked hres
    | markBookkeepingRow => exact h.markBookkeepingRow hres
    | stageMutationGroup => exact h.stageMutationGroup hres
    | stageJournalEntry => exact h.stageJournalEntry hres
    | beginNetBudget => exact h.beginNetBudget hres
    | endNetBudget stageOk => cases hres; exact h.endNetBudget stageOk
    | commit => cases hres; exact h.commit (hclean rfl)
    | abort => cases hres; exact close h.counted h.fits
    | retirePromotedClosure plan kept =>
      cases hres
      exact h.retire (retirePromoted _ plan kept) rfl
    | retireSavedArtifacts snapshot saved documentSlots =>
      cases hres
      exact h.retire (retireSaved _ _ saved documentSlots) rfl

end RoomSafe

/-- **The budget holds** in every run that never commits a segment whose first act on a retired row
is to drop it. -/
theorem budget_of_cleanRun {budgetBytes : ℕ} {room : Room}
    (h : (cleanRooms budgetBytes).Reachable room) :
    room.overlay.state.bytesUsed ≤ budgetBytes := by
  have hsafe : RoomSafe room ∧ room.overlay.budgetBytes = budgetBytes := by
    refine h.invariant (fun room => RoomSafe room ∧ room.overlay.budgetBytes = budgetBytes)
      (fun hi => ?_) fun hs hstep => ?_
    · cases hi
      exact ⟨.start, rfl⟩
    · obtain ⟨rfl, hclean⟩ := hstep
      exact ⟨hs.1.perform hclean, (roomStep_perform _ _).budgetBytes_eq.trans hs.2⟩
  exact hsafe.2 ▸ hsafe.1.fits

/-- The first segment's entity. -/
def publishEntity : List RoomOp :=
  [.install, .put .entities (List.replicate 16 1) [1, 2, 3, 4], .commit]

/-- A room that has published it. -/
def roomWithEntity : Room := Room.after ⟨.new 32, .empty⟩ publishEntity

/-- A segment the room's save takes the entity out under. -/
def saveUnder (mutations : List RoomOp) : List RoomOp :=
  .install :: (mutations ++ [.retireSavedArtifacts roomWithEntity.overlay.snapshot
    ((∅ : OrderedSet EntityId).insert (.filled 1)) ∅, .commit])

def OverlayMutation.isPut : OverlayMutation → Bool
  | .put .. => true
  | _ => false

omit [EntryLayout] in
/-- …at a segment that puts while a save takes a row out. -/
theorem budget_of_cleanRun_put :
    letI : EntryLayout := .wide
    (roomWithEntity.after (saveUnder
      [.put .syncQueue (List.replicate 8 2) [1, 2, 3, 4]])).overlay.state.bytesUsed ≤ 32 := by
  let _ : EntryLayout := .wide
  have hputs {room : Room} {op : RoomOp} (h : (room.overlay.segment.all fun segment =>
      segment.mutations.all (·.isPut)) = true) : room.CommitsClean op := by
    rintro - segment hsegment ⟨keyspace, key, mutation, -, hfind, hdrops⟩
    rw [hsegment] at h
    have hput := all_eq_true.mp h mutation (mem_of_find?_eq_some hfind)
    cases mutation <;> first | cases hdrops | cases hput
  have hrun : (cleanRooms 32).Run ⟨.new 32, .empty⟩ (publishEntity ++ saveUnder
      [.put .syncQueue (List.replicate 8 2) [1, 2, 3, 4]]) (roomWithEntity.after (saveUnder
        [.put .syncQueue (List.replicate 8 2) [1, 2, 3, 4]])) := by
    iterate 7 refine .cons ⟨rfl, hputs (by decide)⟩ ?_
    exact .nil _
  exact budget_of_cleanRun (hrun.reachable (.start rfl))

omit [EntryLayout] in
/-- **The budget can be exceeded.**  A segment deletes a row base does not hold and spends the bytes
it frees; a save takes the row out before the segment commits; the replayed delete leaves a mask. -/
theorem budget_exceeded :
    letI : EntryLayout := .wide
    ∃ room, (rooms 32).Reachable room ∧ 32 < room.overlay.state.bytesUsed := by
  let _ : EntryLayout := .wide
  refine ⟨roomWithEntity.after (saveUnder [.delete .entities (List.replicate 16 1) false,
    .put .syncQueue (List.replicate 8 2) (List.replicate 24 3)]),
    reachable_after (reachable_after (.start rfl) _) _, ?_⟩
  decide

end Oneiron
