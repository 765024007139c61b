import Oneiron.Overlay.Room

/-!
# Overlay/Promotion — cutting a turn's closure, and what its retirement leaves in view

The journal half goes by sequence number: a number names one entry until the numbers wrap (`Since`),
so what is retired is exactly what was cut.  The row half goes by key, and is safe where
base holds what the room would show (`promotion_keeps_view`); `promotion_loses_view` shows the rows
for which base does not.
-/

open Std

namespace Oneiron

open List SessionOverlay OverlayState Composed

/-! ## Cutting a plan -/

/-- `parse_session_short_id_value`. -/
def parseSessionShortIdValue (value : Bytes) : Except Error (Bytes × UInt8) :=
  match value.getLast? with
  | none => .error (.corruptedIndex "session short id value")
  | some contentHash =>
    if isUtf8 value.dropLast then .ok (value.dropLast, contentHash)
    else .error (.corruptedIndex "session short id value")

namespace OverlaySnapshot

variable (snapshot : OverlaySnapshot)

/-- The in-room alias of an entity, where it has one. -/
def roomAlias (id : EntityId) : Except Error (Option (EntityId × Bytes)) :=
  match (snapshot.state.keyspaces .shortIdsReverse).lookupSingle id.asBytes with
  | .present value => do
    let (shortId, _) ← parseSessionShortIdValue value
    pure (some (id, shortId))
  | _ => .ok none

/-- The entries of a closure that `keep` admits. -/
def closure (turn conversation : EntityId) (keep : JournalEntry → Bool) : List PublishedEntry :=
  snapshot.state.journal.filter fun published =>
    journalEntryInClosure published.entry turn conversation && keep published.entry

/-- The entity a put journals. -/
def putSubject : BatchOp → Option EntityId
  | .put id .. => some id
  | _ => none

def cut (turn conversation : EntityId) (appends : Bool) (keep : JournalEntry → Bool) :
    Except Error PromotePlan := do
  let entries := snapshot.closure turn conversation keep
  let replayed := entries.filterMap fun published => putSubject published.entry.op
  let ops ← entries.mapM fun published => promotionReplayOp published.entry
  let aliases ← replayed.mapM snapshot.roomAlias
  pure {
    ops
    replayed
    temporaryShortIds := aliases.filterMap id
    sourceLearnedAt := (entries.foldl (fun seen published => seen.insert published.entry.learnedAt)
      (∅ : OrderedSet UInt64)).toList
    cutFrom := entries.map PublishedEntry.seq
    turn
    conversation
    appends }

/-- Refused when the journal holds no put of the turn itself. -/
def planPromotionWhere (turn : EntityId) (keep : JournalEntry → Bool) : Except Error PromotePlan :=
  match snapshot.state.journal.find? fun published =>
      published.entry.role = .turnPut && published.entry.scope.turn = turn &&
        putSubject published.entry.op = some turn with
  | some published => snapshot.cut turn published.entry.scope.conversation false keep
  | none => .error (.offRecord (.offRecordTurnNotInJournal turn))

/-- Refused when the journal holds nothing of the turn. -/
def planAppendWhere (turn : EntityId) (keep : JournalEntry → Bool) : Except Error PromotePlan :=
  match snapshot.state.journal.find? fun published => published.entry.scope.turn = turn with
  | some published => snapshot.cut turn published.entry.scope.conversation true keep
  | none => .error (.offRecord (.offRecordTurnNotInJournal turn))

/-- A plan one of the two cuts. -/
def Plans (plan : PromotePlan) : Prop :=
  ∃ turn keep, snapshot.planPromotionWhere turn keep = .ok plan ∨
    snapshot.planAppendWhere turn keep = .ok plan

end OverlaySnapshot

/-! ## What a plan was cut from -/

section Cut

variable {snapshot : OverlaySnapshot} {plan : PromotePlan}

/-- The put subjects of a closure, and each op under the entry it replays. -/
theorem closure_of_plans (h : snapshot.Plans plan) : ∃ entries : List PublishedEntry,
    entries.Sublist snapshot.state.journal ∧
    entries.mapM (fun published => promotionReplayOp published.entry) = .ok plan.ops ∧
    plan.cutFrom = entries.map PublishedEntry.seq := by
  have hcut : ∀ {turn conversation appends keep},
      snapshot.cut turn conversation appends keep = .ok plan →
      ∃ entries : List PublishedEntry, entries.Sublist snapshot.state.journal ∧
        entries.mapM (fun published => promotionReplayOp published.entry) = .ok plan.ops ∧
        plan.cutFrom = entries.map PublishedEntry.seq := by
    intro turn conversation appends keep h
    simp only [OverlaySnapshot.cut, bind_eq_ok, pure_eq_ok] at h
    obtain ⟨ops, hops, aliases, -, rfl⟩ := h
    exact ⟨snapshot.closure turn conversation keep, filter_sublist, hops, rfl⟩
  obtain ⟨turn, keep, h | h⟩ := h
  · unfold OverlaySnapshot.planPromotionWhere at h
    split at h
    · exact hcut h
    · cases h
  · unfold OverlaySnapshot.planAppendWhere at h
    split at h
    · exact hcut h
    · cases h

/-- A number names one entry. -/
theorem eq_of_seq_eq {journal : List PublishedEntry}
    (h : journal.Pairwise fun a b => a.seq < b.seq) {a b : PublishedEntry} (ha : a ∈ journal)
    (hb : b ∈ journal) (heq : a.seq = b.seq) : a = b := by
  have hnodup : (journal.map PublishedEntry.seq).Nodup :=
    pairwise_map.mpr (h.imp fun hlt => Nat.ne_of_lt hlt)
  exact inj_on_of_nodup_map hnodup ha hb heq

/-- **What retires is what was cut and kept.** -/
theorem mem_keptOps (kept : OrderedSet EntityId) (h : snapshot.Plans plan)
    (hordered : snapshot.state.journal.Pairwise fun a b => a.seq < b.seq)
    {published : PublishedEntry}
    (hpub : published ∈ snapshot.state.journal) :
    published.seq ∈ (plan.keptOps kept).map Prod.snd ↔
      published.seq ∈ plan.cutFrom ∧ (replayedSubject published.entry.op).any kept.contains := by
  obtain ⟨entries, hsub, hops, hseqs⟩ := closure_of_plans h
  have hunique : ∀ other ∈ entries, other.seq = published.seq → other = published :=
    fun other hother => eq_of_seq_eq hordered (hsub.subset hother) hpub
  simp only [PromotePlan.keptOps, hseqs, mem_map, mem_filter, Prod.exists,
    exists_eq_right, mem_zip_of_mapM hops]
  constructor
  · rintro ⟨op, ⟨other, hother, hop, heq⟩, hkept⟩
    rw [replayedSubject_promotionReplayOp hop, hunique other hother heq] at hkept
    exact ⟨⟨other, hother, heq⟩, hkept⟩
  · rintro ⟨⟨other, hother, heq⟩, hkept⟩
    obtain ⟨op, hop⟩ := exists_ok_of_mapM hops other hother
    refine ⟨op, ⟨other, hother, hop, heq⟩, ?_⟩
    rwa [replayedSubject_promotionReplayOp hop, hunique other hother heq]

end Cut

/-! ## Numbers are not reused before they wrap -/

/-- A journal in order, below the next number, while at most `2 ^ 64` entries have been published. -/
structure JournalOrdered (state : OverlayState) : Prop where
  sorted : state.nextJournalSeq ≤ 2 ^ 64 → state.journal.Pairwise fun a b => a.seq < b.seq
  below : state.nextJournalSeq ≤ 2 ^ 64 →
    ∀ published ∈ state.journal, published.seq < state.nextJournalSeq

/-- `state` came after `snap`: what it holds under the numbers `snap` had used, `snap` held. -/
structure Since (snap state : OverlayState) : Prop where
  next_le : snap.nextJournalSeq ≤ state.nextJournalSeq
  old : state.nextJournalSeq ≤ 2 ^ 64 → ∀ published ∈ state.journal,
    published.seq < snap.nextJournalSeq → published ∈ snap.journal

variable {state : OverlayState} {budgetBytes : ℕ} {room later : Room} {key : Bytes}
  {ops : List RoomOp} {view : SessionOverlay → OverlaySnapshot}

namespace Since

theorem refl (state : OverlayState) : Since state state := ⟨Nat.le_refl _, fun _ _ h _ => h⟩

theorem trans {a b c : OverlayState} (h : Since a b) (h' : Since b c) : Since a c :=
  ⟨h.next_le.trans h'.next_le, fun hbound published hp hlt =>
    h.old (h'.next_le.trans hbound) published
      (h'.old hbound published hp (Nat.lt_of_lt_of_le hlt h.next_le)) hlt⟩

theorem of_thins {next : OverlayState} (h : state.Thins next) : Since state next :=
  ⟨h.nextJournalSeq.ge, fun _ _ hp _ => h.journal.subset hp⟩

end Since

theorem JournalOrdered.of_thins {next : OverlayState} (h : state.Thins next)
    (ho : JournalOrdered state) : JournalOrdered next :=
  ⟨fun hbound => (ho.sorted (h.nextJournalSeq ▸ hbound)).sublist h.journal,
    fun hbound published hp => h.nextJournalSeq ▸
      ho.below (h.nextJournalSeq ▸ hbound) published (h.journal.subset hp)⟩

section Publish

variable [EntryLayout] {state next : OverlayState}

theorem publishEntry_since (ho : JournalOrdered state) (entry : JournalEntry) :
    JournalOrdered (publishEntry state entry) ∧
      Since state (publishEntry state entry) := by
  have hnumber : (publishEntry state entry).nextJournalSeq ≤ 2 ^ 64 →
      state.nextJournalSeq % 2 ^ 64 = state.nextJournalSeq := Nat.mod_eq_of_lt
  refine ⟨⟨fun hbound => ?_, fun hbound published hp => ?_⟩, Nat.le_succ _,
    fun hbound published hp hlt => ?_⟩
  · refine pairwise_append.mpr ⟨ho.sorted (Nat.le_of_lt hbound), pairwise_singleton _ _,
      fun a ha b hb => ?_⟩
    rw [mem_singleton] at hb
    rw [hb, hnumber hbound]
    exact ho.below (Nat.le_of_lt hbound) a ha
  · rcases mem_append.mp hp with hp | hp
    · exact Nat.lt_succ_of_lt (ho.below (Nat.le_of_lt hbound) published hp)
    · rw [mem_singleton] at hp
      rw [hp, hnumber hbound]
      exact Nat.lt_succ_self _
  · rcases mem_append.mp hp with hp | hp
    · exact hp
    · rw [mem_singleton] at hp
      rw [hp, hnumber hbound] at hlt
      exact absurd hlt (Nat.lt_irrefl _)

theorem publishEntries_since (journal : List JournalEntry) : ∀ {state : OverlayState},
    JournalOrdered state → JournalOrdered (journal.foldl publishEntry state) ∧
      Since state (journal.foldl publishEntry state) := by
  induction journal with
  | nil => exact fun ho => ⟨ho, .refl _⟩
  | cons entry rest ih =>
    intro state ho
    obtain ⟨ho', hs⟩ := publishEntry_since ho entry
    obtain ⟨ho'', hs'⟩ := ih ho'
    exact ⟨ho'', hs.trans hs'⟩

variable {mutations : List OverlayMutation}

/-- Mutations move no entry. -/
theorem applyMutations_since (ho : JournalOrdered state)
    (h : applyMutations state mutations = .ok next) :
    JournalOrdered next ∧ Since state next := by
  obtain ⟨hj, hn⟩ := journal_of_applyMutations h
  exact ⟨⟨fun hbound => hj ▸ ho.sorted (hn ▸ hbound),
    fun hbound p hp => hn ▸ ho.below (hn ▸ hbound) p (hj ▸ hp)⟩, hn.ge, fun _ p hp _ => hj ▸ hp⟩

/-- **A commit** publishes under new numbers only. -/
theorem applyPreflighted_since (ho : JournalOrdered state) {journal : List JournalEntry}
    (h : applyPreflightedToState state mutations journal = .ok next) :
    JournalOrdered next ∧ Since state next := by
  obtain ⟨replayed, hreplayed, h⟩ := bind_eq_ok.mp h
  rw [pure_eq_ok] at h
  obtain ⟨ho', hs⟩ := applyMutations_since ho hreplayed
  obtain ⟨ho'', hs'⟩ := publishEntries_since journal ho'
  exact h ▸ ⟨ho'', hs.trans hs'⟩

end Publish

/-! ## The journal along a run -/

section Run

variable [EntryLayout] {overlay next : SessionOverlay}

/-- An ordered view that what is published came after. -/
structure Behind (view state : OverlayState) : Prop where
  ordered : JournalOrdered view
  since : Since view state

/-- What is published is ordered, and so are the open segment's views of it. -/
structure JournalSafe (overlay : SessionOverlay) : Prop where
  published : JournalOrdered overlay.state
  preview : ∀ {segment}, overlay.segment = some segment → Behind segment.preview overlay.state
  checkpoint : ∀ {segment checkpoint}, overlay.segment = some segment →
    segment.netBudget = some checkpoint → Behind checkpoint.preview overlay.state

theorem JournalSafe.step (h : JournalSafe overlay) (hstep : RoomStep overlay next) :
    JournalSafe next ∧ Since overlay.state next.state := by
  cases hstep with
  | refused => exact ⟨h, .refl _⟩
  | install hinstall =>
    unfold installTxnSegment at hinstall
    split at hinstall <;> cases hinstall
    refine ⟨⟨h.published, fun hs => ?_, fun hs hck => ?_⟩, .refl _⟩
    · cases hs
      exact ⟨h.published, .refl _⟩
    · cases hs
      cases hck
  | stages hst =>
    obtain ⟨segment, preview, hopen, hp, rfl⟩ := hst
    have hbehind := h.preview hopen
    refine ⟨⟨h.published, fun hs => ?_, fun hs hck => ?_⟩, .refl _⟩
    · cases hs
      obtain ⟨hj, hn⟩ := journal_of_applyMutations hp
      exact ⟨(applyMutations_since hbehind.ordered hp).1,
        hn ▸ hbehind.since.next_le,
        fun hbound p hmem hlt => hj ▸ hbehind.since.old hbound p hmem (hn ▸ hlt)⟩
    · cases hs
      exact h.checkpoint hopen hck
  | entry journal journalBytes hopen =>
    have hbehind := h.preview hopen
    refine ⟨⟨h.published, fun hs => ?_, fun hs hck => ?_⟩, .refl _⟩
    · cases hs
      exact hbehind
    · cases hs
      exact h.checkpoint hopen hck
  | checkpoint hopen hpreview =>
    have hbehind := h.preview hopen
    refine ⟨⟨h.published, fun hs => ?_, fun hs hck => ?_⟩, .refl _⟩
    · cases hs
      exact hbehind
    · cases hs
      cases hck
      rwa [hpreview]
  | keep hopen =>
    have hbehind := h.preview hopen
    refine ⟨⟨h.published, fun hs => ?_, fun hs hck => ?_⟩, .refl _⟩
    · cases hs
      exact hbehind
    · cases hs
      cases hck
  | restore hopen hck₀ =>
    refine ⟨⟨h.published, fun hs => ?_, fun hs hck => ?_⟩, .refl _⟩
    · cases hs
      exact h.checkpoint hopen hck₀
    · cases hs
      cases hck
  | close => exact ⟨⟨h.published, nofun, nofun⟩, .refl _⟩
  | publish hopen happly =>
    obtain ⟨ho, hs⟩ := applyPreflighted_since h.published happly
    exact ⟨⟨ho, nofun, nofun⟩, hs⟩
  | retire hthins =>
    have hs := Since.of_thins hthins
    exact ⟨⟨h.published.of_thins hthins,
      fun ho => ⟨(h.preview ho).ordered, (h.preview ho).since.trans hs⟩,
      fun ho hck => ⟨(h.checkpoint ho hck).ordered, (h.checkpoint ho hck).since.trans hs⟩⟩, hs⟩

omit [EntryLayout] in
theorem JournalSafe.start (budgetBytes : ℕ) : JournalSafe (.new budgetBytes) where
  published := ⟨fun _ => List.Pairwise.nil, fun _ _ h => absurd h not_mem_nil⟩
  preview h := nomatch h
  checkpoint h := nomatch h

theorem journalSafe_of_reachable (h : (rooms budgetBytes).Reachable room) :
    JournalSafe room.overlay := by
  refine h.invariant (fun room => JournalSafe room.overlay) (fun hi => ?_) fun hs hstep => ?_
  · cases hi
    exact .start budgetBytes
  · cases hstep
    exact (hs.step (roomStep_perform _ _)).1

/-- **Numbers name what they named** in every state a run leads to. -/
theorem since_of_run (h : (rooms budgetBytes).Reachable room)
    (hrun : (rooms budgetBytes).Run room ops later) :
    Since room.overlay.state later.overlay.state := by
  refine (hrun.preserves (fun next => JournalSafe next.overlay ∧
    Since room.overlay.state next.overlay.state) (fun hs hstep => ?_)
    ⟨journalSafe_of_reachable h, .refl _⟩).2
  cases hstep
  obtain ⟨hsafe, hsince⟩ := hs.1.step (roomStep_perform _ _)
  exact ⟨hsafe, hs.2.trans hsince⟩

end Run

/-! ## Which rows a retirement drops -/

section Rows

variable {state : OverlayState} {keyspace : OverlayKeyspace} {key : Bytes}

/-- What a state stages under a key of one keyspace. -/
def OverlayState.present (state : OverlayState) (keyspace : OverlayKeyspace) (key : Bytes) :
    Option Bytes := (state.keyspaces keyspace).present key

theorem KeyspaceState.present_dropRow_ne {d : Bool} {other : Bytes} (h : other ≠ key) :
    ∀ rows : KeyspaceState d, (rows.dropRow other).present key = rows.present key
  | .dupSort .. => rfl
  | .single .. => by
    unfold dropRow
    dsimp only
    split
    · simp [present, ExtTreeMap.getElem?_erase, h]
    · rfl

variable {row : OverlayKeyspace × Bytes} {value : Bytes}

theorem present_dropOverlayRow (h : row ≠ (keyspace, key)) :
    (dropOverlayRow state row.1 row.2).present keyspace key = state.present keyspace key := by
  unfold present dropOverlayRow
  by_cases hk : keyspace = row.1
  · subst hk
    rw [setKeyspace_keyspaces_self]
    exact KeyspaceState.present_dropRow_ne (fun hkey => h (by rw [← hkey])) _
  · rw [state.setKeyspace_keyspaces_ne _ _ hk]

theorem present_dropOverlayRows : ∀ {rows : List (OverlayKeyspace × Bytes)} {state : OverlayState},
    (keyspace, key) ∉ rows →
      (dropOverlayRows state rows).present keyspace key = state.present keyspace key
  | [], _, _ => rfl
  | row :: rest, state, h => by
    obtain ⟨hne, hrest⟩ := not_or.mp (mt mem_cons.mpr h)
    exact (present_dropOverlayRows hrest).trans (present_dropOverlayRow (Ne.symm hne))

/-- What a thinned keyspace still stages, it staged before. -/
theorem KeyspaceState.Thins.present_eq_some {d : Bool} :
    ∀ {rows rows' : KeyspaceState d}, rows.Thins rows' → rows'.present key = some value →
      rows.present key = some value
  | .dupSort .., .dupSort .., _, h => h
  | .single .., .single .., hthins, h => by
    simp only [present] at h ⊢
    rcases hthins.2 key with heq | ⟨hnone, -⟩
    · rwa [heq] at h
    · rw [hnone] at h
      cases h

theorem OverlayState.Thins.present_eq_some {next : OverlayState} (h : state.Thins next)
    (hnext : next.present keyspace key = some value) : state.present keyspace key = some value :=
  (h.keyspaces keyspace).present_eq_some hnext

/-- The alias pair of an entity, as a state stages it. -/
def aliasPair (state : OverlayState) (id : EntityId) : List (OverlayKeyspace × Bytes) :=
  match state.present .shortIdsReverse id.asBytes with
  | some forwardKey => [(.shortIds, forwardKey), (.shortIdsReverse, id.asBytes)]
  | none => []

/-- The alias pairs a retirement takes out. -/
def PromotePlan.aliasRows (plan : PromotePlan) (kept : OrderedSet EntityId) (state : OverlayState) :
    List (OverlayKeyspace × Bytes) :=
  (plan.replayed.filter kept.contains).flatMap (aliasPair state)

/-- The rows the kept ops of a plan write. -/
def PromotePlan.keptRows (plan : PromotePlan) (kept : OrderedSet EntityId) :
    List (OverlayKeyspace × Bytes) :=
  (plan.keptOps kept).flatMap fun op => replayedFootprint op.1

theorem present_foldl_dropOverlayRows : ∀ {ops : List (BatchOp × ℕ)} {state : OverlayState},
    (keyspace, key) ∉ ops.flatMap (fun op => replayedFootprint op.1) →
      (ops.foldl (fun next op => dropOverlayRows next (replayedFootprint op.1)) state).present
        keyspace key = state.present keyspace key
  | [], _, _ => rfl
  | op :: rest, state, h => by
    obtain ⟨hop, hrest⟩ := not_or.mp (mt mem_append.mpr h)
    exact (present_foldl_dropOverlayRows hrest).trans (present_dropOverlayRows hop)

/-- A thinner state has no alias rows of its own. -/
theorem mem_aliasPair_of_thins {next : OverlayState} (h : state.Thins next) {id : EntityId}
    (hrow : row ∈ aliasPair next id) : row ∈ aliasPair state id := by
  unfold aliasPair at hrow ⊢
  split at hrow
  · rename_i forwardKey hf
    rwa [h.present_eq_some hf]
  · cases hrow

theorem present_foldl_dropAliasPair : ∀ {ids : List EntityId} {next : OverlayState},
    state.Thins next → (keyspace, key) ∉ ids.flatMap (aliasPair state) →
      (ids.foldl dropAliasPair next).present keyspace key = next.present keyspace key
  | [], _, _, _ => rfl
  | id :: rest, next, hthins, h => by
    obtain ⟨hid, hrest⟩ := not_or.mp (mt mem_append.mpr h)
    refine (present_foldl_dropAliasPair (hthins.trans (.dropAliasPair next id)) hrest).trans ?_
    have hid' : (keyspace, key) ∉ aliasPair next id := mt (mem_aliasPair_of_thins hthins) hid
    unfold aliasPair present at hid'
    unfold dropAliasPair
    split
    · rename_i forwardKey hf
      rw [hf] at hid'
      exact present_dropOverlayRows hid'
    · rfl

/-- **Only rows the plan names are dropped**: those its kept ops write, and the alias pairs. -/
theorem present_retirePromoted [EntryLayout] {plan : PromotePlan} {kept : OrderedSet EntityId}
    (hrow : (keyspace, key) ∉ plan.keptRows kept)
    (halias : (keyspace, key) ∉ plan.aliasRows kept state) :
    (state.retirePromoted plan kept).present keyspace key = state.present keyspace key := by
  have hthins : state.Thins ((plan.keptOps kept).foldl
      (fun next op => dropOverlayRows next (replayedFootprint op.1)) state) :=
    .foldl (fun next _ => .dropOverlayRows next _) _ state
  exact (present_foldl_dropAliasPair hthins halias).trans (present_foldl_dropOverlayRows hrow)

end Rows

/-! ## What stays in view -/

namespace KeyspaceState.Thins

variable {d : Bool}

/-- Thinning makes no tombstone and takes none away. -/
theorem hasTombstone_eq (key : Bytes) : ∀ {rows rows' : KeyspaceState d}, rows.Thins rows' →
    rows'.hasTombstone key = rows.hasTombstone key
  | .dupSort .., .dupSort .., _ => rfl
  | .single .., .single .., hthins => by
    simp only [KeyspaceState.hasTombstone]
    rcases hthins.2 key with heq | ⟨hnone, value, hv⟩
    · rw [heq]
    · simp [hnone, hv]

/-- **A point read is unchanged** where base holds what the row it loses showed. -/
theorem get_eq : ∀ {base : Database d} {rows rows' : KeyspaceState d},
    rows.Thins rows' → (d = true → rows' = rows) →
    (∀ value, rows.present key = some value → rows'.present key = none →
      rows.clearsBase = false ∧ base.get key = some value) →
    get base rows' key = get base rows key
  | .dupSort _, .dupSort .., .dupSort .., _, hdup, _ => by rw [hdup rfl]
  | .single held, .single clearBase rows, .single clearBase' rows', hthins, _, hheld => by
    obtain ⟨rfl, hrow⟩ := hthins
    rcases hrow key with heq | ⟨hnone, value, hv⟩
    · simp only [Composed.get, KeyspaceState.lookupSingle, heq]
    · obtain ⟨hclear, hbase⟩ := hheld value (by simp [present, hv]) (by simp [present, hnone])
      obtain rfl : clearBase' = false := hclear
      simp only [Composed.get, KeyspaceState.lookupSingle, hnone, hv, hbase]
      rfl

end KeyspaceState.Thins

section View

variable [EntryLayout] {state : OverlayState} {plan : PromotePlan} {kept : OrderedSet EntityId}

variable {keyspace : OverlayKeyspace} {snapshot : OverlaySnapshot}

omit [EntryLayout] in
theorem dropOverlayRow_dupSort (hd : keyspace.isDupsort = true) (state : OverlayState)
    (row : OverlayKeyspace × Bytes) :
    (dropOverlayRow state row.1 row.2).keyspaces keyspace = state.keyspaces keyspace := by
  have hsame : ∀ {d : Bool}, d = true → ∀ rows : KeyspaceState d, rows.dropRow row.2 = rows := by
    rintro _ rfl ⟨⟩
    rfl
  unfold dropOverlayRow
  by_cases hk : keyspace = row.1
  · subst hk
    rw [setKeyspace_keyspaces_self, hsame hd]
  · rw [state.setKeyspace_keyspaces_ne _ _ hk]

omit [EntryLayout] in
theorem dropOverlayRows_dupSort (hd : keyspace.isDupsort = true) :
    ∀ (rows : List (OverlayKeyspace × Bytes)) (state : OverlayState),
      (dropOverlayRows state rows).keyspaces keyspace = state.keyspaces keyspace
  | [], _ => rfl
  | row :: rest, state =>
    (dropOverlayRows_dupSort hd rest _).trans (dropOverlayRow_dupSort hd state row)

/-- No duplicate is retired. -/
theorem retirePromoted_dupSort (hd : keyspace.isDupsort = true) :
    (state.retirePromoted plan kept).keyspaces keyspace = state.keyspaces keyspace := by
  have hops : ∀ (ops : List (BatchOp × ℕ)) (state : OverlayState),
      (ops.foldl (fun next op => dropOverlayRows next (replayedFootprint op.1)) state).keyspaces
        keyspace = state.keyspaces keyspace := by
    intro ops
    induction ops with
    | nil => exact fun _ => rfl
    | cons op rest ih => exact fun state => (ih _).trans (dropOverlayRows_dupSort hd _ state)
  have hids : ∀ (ids : List EntityId) (state : OverlayState),
      (ids.foldl dropAliasPair state).keyspaces keyspace = state.keyspaces keyspace := by
    intro ids
    induction ids with
    | nil => exact fun _ => rfl
    | cons id rest ih =>
      refine fun state => (ih _).trans ?_
      unfold dropAliasPair
      split
      · exact dropOverlayRows_dupSort hd _ state
      · rfl
  exact (hids _ _).trans (hops _ _)

omit [EntryLayout] in
theorem dropOverlayRows_journal : ∀ (rows : List (OverlayKeyspace × Bytes)) (state : OverlayState),
    (dropOverlayRows state rows).journal = state.journal
  | [], _ => rfl
  | row :: rest, state => dropOverlayRows_journal rest (dropOverlayRow state row.1 row.2)

omit [EntryLayout] in
theorem dropAliasPair_journal (state : OverlayState) (id : EntityId) :
    (dropAliasPair state id).journal = state.journal := by
  unfold dropAliasPair
  split
  · exact dropOverlayRows_journal _ state
  · rfl

/-- Dropping rows leaves the journal to the last step. -/
theorem journal_retirePromoted : (state.retirePromoted plan kept).journal =
    state.journal.filter (·.seq ∉ (plan.keptOps kept).map Prod.snd) := by
  have hops : ∀ (ops : List (BatchOp × ℕ)) (state : OverlayState),
      (ops.foldl (fun next op => dropOverlayRows next (replayedFootprint op.1)) state).journal =
        state.journal := by
    intro ops
    induction ops with
    | nil => exact fun _ => rfl
    | cons op rest ih => exact fun state => (ih _).trans (dropOverlayRows_journal _ state)
  have hids : ∀ (ids : List EntityId) (state : OverlayState),
      (ids.foldl dropAliasPair state).journal = state.journal := by
    intro ids
    induction ids with
    | nil => exact fun _ => rfl
    | cons id rest ih => exact fun state => (ih _).trans (dropAliasPair_journal state id)
  unfold retirePromoted retainJournal recalculateBytes
  dsimp only
  rw [hids, hops]

/-- The journal half: exactly the entries that were cut and kept. -/
theorem retirePromoted_journal (hplan : snapshot.Plans plan) (ho : JournalOrdered snapshot.state)
    (hsince : Since snapshot.state state) (hbound : state.nextJournalSeq ≤ 2 ^ 64) :
    (state.retirePromoted plan kept).journal = state.journal.filter fun published =>
      !(published.seq ∈ plan.cutFrom && (replayedSubject published.entry.op).any kept.contains) := by
  rw [journal_retirePromoted]
  have hcut := hsince.next_le.trans hbound
  refine filter_congr fun published hpub => ?_
  by_cases hlt : published.seq < snapshot.state.nextJournalSeq
  · have hmem := mem_keptOps kept hplan (ho.sorted hcut) (hsince.old hbound published hpub hlt)
    simp [hmem]
  · -- a number the cut had not seen is in no plan cut there
    obtain ⟨entries, hsub, -, hseqs⟩ := closure_of_plans hplan
    have hnot : published.seq ∉ plan.cutFrom := by
      rw [hseqs, mem_map]
      rintro ⟨other, hother, heq⟩
      exact hlt (heq ▸ ho.below hcut other (hsub.subset hother))
    have hkept : published.seq ∉ (plan.keptOps kept).map Prod.snd := by
      intro hmem
      obtain ⟨⟨op, seq⟩, hop, heq⟩ := mem_map.mp hmem
      exact hnot (heq ▸ (of_mem_zip (mem_of_mem_filter hop)).2)
    simp [hnot, hkept]

/-- What a retirement leaves of a point read of what is published. -/
theorem get_retirePromoted {base : Vault}
    (hheld : (keyspace, key) ∈ plan.keptRows kept → ∀ value ∈ snapshot.state.present keyspace key,
      (base keyspace).get key = some value) (halias : (keyspace, key) ∉ plan.aliasRows kept state)
    (hrow : (keyspace, key) ∈ plan.keptRows kept → (state.keyspaces keyspace).clearsBase = false ∧
      (state.present keyspace key = none ∨
        state.present keyspace key = snapshot.state.present keyspace key)) :
    get (base keyspace) ((state.retirePromoted plan kept).keyspaces keyspace) key =
      get (base keyspace) (state.keyspaces keyspace) key := by
  have hthins := OverlayState.Thins.retirePromoted state plan kept
  refine (hthins.keyspaces keyspace).get_eq (fun hd => retirePromoted_dupSort hd)
    fun value hv hnone => ?_
  by_cases hmem : (keyspace, key) ∈ plan.keptRows kept
  · obtain ⟨hclear, hnow⟩ := hrow hmem
    refine ⟨hclear, hheld hmem value ?_⟩
    rcases hnow with hnow | hnow
    · exact absurd (hnow.symm.trans hv) nofun
    · exact hnow.symm.trans hv
  · have hsame := present_retirePromoted hmem halias
    exact absurd ((hsame.symm.trans hnone).symm.trans hv) nofun

end View

/-! ## Promotion along a run -/

/-- What is published, whatever segment is open. -/
def SessionOverlay.published (overlay : SessionOverlay) : OverlaySnapshot := ⟨overlay.state, none⟩

/-- The views of a room a plan is cut from and a read is captured from. -/
def views : List (SessionOverlay → OverlaySnapshot) :=
  [snapshot, published]

variable [EntryLayout]

/-- A view a room gave out stays behind what it publishes. -/
theorem behind_of_view (h : (rooms budgetBytes).Reachable room)
    (hrun : (rooms budgetBytes).Run room ops later) (hview : view ∈ views) :
    Behind (view room.overlay).state later.overlay.state := by
  have hsafe := journalSafe_of_reachable h
  have hsince := since_of_run h hrun
  have hpublished : Behind room.overlay.state later.overlay.state := ⟨hsafe.published, hsince⟩
  simp only [views, mem_cons, not_mem_nil, or_false] at hview
  rcases hview with rfl | rfl
  · unfold snapshot
    split
    · rename_i segment hopen
      have hbehind := hsafe.preview hopen
      exact ⟨hbehind.ordered, hbehind.since.trans hsince⟩
    · exact hpublished
  · exact hpublished

/-- **A promotion keeps the room's view.**  Whatever was committed since the cut, the retirement
takes out the entries that were cut and kept (up to the `2 ^ 64` entries a room can number), masks
nothing, and changes no point read but of an in-room alias or of a kept row the room has rewritten or
cleared since. -/
theorem promotion_keeps_view {budgetBytes : ℕ} {room later : Room} {ops : List RoomOp}
    {plan : PromotePlan} (kept : OrderedSet EntityId) (base : Vault)
    (hroom : (rooms budgetBytes).Reachable room) {cutView : SessionOverlay → OverlaySnapshot}
    (hcut : cutView ∈ views) (hplan : (cutView room.overlay).Plans plan)
    (hrun : (rooms budgetBytes).Run room ops later)
    (hheld : ∀ row ∈ plan.keptRows kept,
      ∀ value ∈ (cutView room.overlay).state.present row.1 row.2,
        (base row.1).get row.2 = some value) :
    let live := later.overlay
    let retired := live.retirePromotedClosure plan kept
    (live.state.nextJournalSeq ≤ 2 ^ 64 →
      retired.state.journal = live.state.journal.filter fun published =>
        !(published.seq ∈ plan.cutFrom &&
          (replayedSubject published.entry.op).any kept.contains)) ∧
    (∀ keyspace key, (retired.state.keyspaces keyspace).hasTombstone key =
      (live.state.keyspaces keyspace).hasTombstone key) ∧
    ∀ view ∈ views, ∀ keyspace key,
      (keyspace, key) ∉ plan.aliasRows kept live.state →
      ((keyspace, key) ∈ plan.keptRows kept →
        (live.state.keyspaces keyspace).clearsBase = false ∧
        (live.state.present keyspace key = none ∨ live.state.present keyspace key =
          (cutView room.overlay).state.present keyspace key)) →
      (OverlayDb.composed keyspace (view retired)).get ⟨base, retired⟩ key =
        (OverlayDb.composed keyspace (view live)).get ⟨base, live⟩ key := by
  intro live retired
  have hbehind := behind_of_view hroom hrun hcut
  have hthins := OverlayState.Thins.retirePromoted live.state plan kept
  refine ⟨retirePromoted_journal hplan hbehind.ordered hbehind.since,
    fun keyspace key => (hthins.keyspaces keyspace).hasTombstone_eq key, ?_⟩
  intro view hview keyspace key halias hrow
  have hpublished : get (base keyspace) (retired.state.keyspaces keyspace) key =
      get (base keyspace) (live.state.keyspaces keyspace) key :=
    get_retirePromoted (fun hmem => hheld (keyspace, key) hmem) halias hrow
  simp only [views, mem_cons, not_mem_nil, or_false] at hview
  rcases hview with rfl | rfl
  · -- an open segment reads its own preview, which a retirement leaves alone
    have hsegment : retired.segment = live.segment := rfl
    unfold snapshot
    rw [hsegment]
    split
    · rfl
    · exact hpublished
  · exact hpublished

/-! ## A turn promoted -/

/-- Puts a turn, its alias row and its journal entry, and publishes them. -/
def publishTurn : List RoomOp :=
  [.install, .put .entities (EntityId.filled 1).asBytes [1, 2, 3, 4],
    .put .shortIdsReverse (EntityId.filled 1).asBytes [65, 0],
    .stageJournalEntry ⟨⟨.filled 2, .filled 1⟩, .turnPut, 7, ⟨5, 5⟩,
      .put (.filled 1) 1 ⟨5, 5⟩ 7 none [1, 2, 3, 4] false false false⟩,
    .commit]

def turnKept : OrderedSet EntityId := (∅ : OrderedSet EntityId).insert (.filled 1)

/-- A base that holds the turn. -/
def turnVault : Vault :=
  Function.update Vault.empty .entities
    ((Vault.empty .entities).put (EntityId.filled 1).asBytes [1, 2, 3, 4])

/-- The plan cut from it. -/
def turnPlan : PromotePlan where
  ops := [.put (.filled 1) 1 ⟨5, 5⟩ 7 none [1, 2, 3, 4] false false false]
  replayed := [.filled 1]
  temporaryShortIds := [(.filled 1, [65])]
  sourceLearnedAt := [7]
  cutFrom := [0]
  turn := .filled 1
  conversation := .filled 2
  appends := false

/-- A point read of what is published, before a promotion retires and after. -/
def readsAround (plan : PromotePlan) (room : Room) (keyspace : OverlayKeyspace) (key : Bytes) :
    Except Error (Option Bytes) × Except Error (Option Bytes) :=
  let retired := room.overlay.retirePromotedClosure plan turnKept
  ((OverlayDb.composed keyspace room.overlay.published).get ⟨turnVault, room.overlay⟩ key,
    (OverlayDb.composed keyspace retired.published).get ⟨turnVault, retired⟩ key)

/-- The room once it has published the turn. -/
def turnRoom : Room := Room.after ⟨.new 4096, .empty⟩ publishTurn

/-- Publishes another turn. -/
def publishLater : List RoomOp :=
  [.install, .put .entities (EntityId.filled 3).asBytes [9],
    .stageJournalEntry ⟨⟨.filled 2, .filled 3⟩, .turnPut, 8, ⟨6, 6⟩,
      .put (.filled 3) 1 ⟨6, 6⟩ 8 none [9] false false false⟩,
    .commit]

omit [EntryLayout] in
/-- …at a turn promoted once another has been published since the cut. -/
theorem promotion_keeps_view_turn :
    letI : EntryLayout := .wide
    let later := turnRoom.after publishLater
    let reads := readsAround turnPlan later .entities (EntityId.filled 1).asBytes
    (later.overlay.retirePromotedClosure turnPlan turnKept).state.journal.map (·.seq) = [1] ∧
      reads.2 = reads.1 := by
  let _ : EntryLayout := .wide
  have hroom : (rooms 4096).Reachable turnRoom := reachable_after (.start rfl) publishTurn
  have hpublished : published ∈ views := by simp [views]
  have hplan : turnRoom.overlay.published.Plans turnPlan :=
    ⟨.filled 1, fun _ => true, .inl (by decide)⟩
  obtain ⟨hjournal, -, hview⟩ := promotion_keeps_view turnKept turnVault hroom hpublished hplan
    (run_after 4096 publishLater turnRoom) (by decide)
  refine ⟨?_, ?_⟩
  · rw [hjournal (by decide)]
    decide
  · have hread := hview published hpublished .entities (EntityId.filled 1).asBytes
      (by decide) fun _ => ⟨by decide, .inr (by decide)⟩
    simp only [readsAround]
    exact hread

omit [EntryLayout] in
/-- **A promotion can lose the view** of an in-room alias and of a row in a keyspace the room has
cleared, by design; and, which is not, of a row restaged since the cut. -/
theorem promotion_loses_view :
    letI : EntryLayout := .wide
    let turn := (EntityId.filled 1).asBytes
    (rooms 4096).Reachable turnRoom ∧ turnRoom.overlay.published.Plans turnPlan ∧
    (∀ row ∈ turnPlan.keptRows turnKept, ∀ value ∈ turnRoom.overlay.state.present row.1 row.2,
      (turnVault row.1).get row.2 = some value) ∧
    readsAround turnPlan (turnRoom.after [.install, .put .entities turn [9], .commit])
      .entities turn = (.ok (some [9]), .ok (some [1, 2, 3, 4])) ∧
    readsAround turnPlan turnRoom .shortIdsReverse turn = (.ok (some [65, 0]), .ok none) ∧
    readsAround turnPlan (turnRoom.after [.install, .clear .entities,
      .put .entities turn [1, 2, 3, 4], .commit]) .entities turn =
      (.ok (some [1, 2, 3, 4]), .ok none) := by
  let _ : EntryLayout := .wide
  exact ⟨reachable_after (.start rfl) publishTurn,
    ⟨.filled 1, fun _ => true, .inl (by decide)⟩, by decide, by decide, by decide, by decide⟩

end Oneiron
