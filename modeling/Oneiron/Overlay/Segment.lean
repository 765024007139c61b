import Oneiron.Overlay.Keyspace

/-!
# Overlay/Segment — a room's published state and the one open write segment over it

    put --preflight--▸ preview, mutations --commit--▸ the mutations replayed on what is published

Every staged mutation is admitted against the room's byte budget on the segment's own preview.
Commit replays the same mutations on whatever state is published by then and checks nothing.
-/

open Std

namespace Oneiron

/-- What a net-budget operation restores when it fails. -/
structure NetBudgetCheckpoint where
  preview : OverlayState
  mutationsLen : ℕ
  journalLen : ℕ
  journalBytes : ℕ

/-- The thread's open write segment. -/
structure TxnSegment where
  /-- This install's own number, never reused. -/
  nonce : ℕ
  preview : OverlayState
  mutations : List OverlayMutation
  journal : List JournalEntry
  journalBytes : ℕ
  netBudget : Option NetBudgetCheckpoint

/-- The bytes the segment would publish. -/
def TxnSegment.stagedBytes (segment : TxnSegment) : ℕ :=
  segment.preview.bytesUsed + segment.journalBytes

/-- The segment as its net-budget operation found it. -/
def TxnSegment.restore (segment : TxnSegment) (checkpoint : NetBudgetCheckpoint) : TxnSegment :=
  { segment with
    preview := checkpoint.preview
    mutations := segment.mutations.take checkpoint.mutationsLen
    journal := segment.journal.take checkpoint.journalLen
    journalBytes := checkpoint.journalBytes
    netBudget := none }

/-- A session overlay, as far as its rows go. -/
structure SessionOverlay where
  budgetBytes : ℕ
  state : OverlayState
  segment : Option TxnSegment
  nextSegmentNonce : ℕ

namespace SessionOverlay

def new (budgetBytes : ℕ) : SessionOverlay := ⟨budgetBytes, .empty, none, 1⟩

/-! ## Budget -/

def ensureBudget (budgetBytes currentBytes incomingBytes : ℕ) : Except Error Unit :=
  if budgetBytes < currentBytes + incomingBytes then
    .error (.offRecord (.offRecordOverlayFull budgetBytes (currentBytes + incomingBytes)))
  else .ok ()

/-- Only a net increase is checked. -/
def ensureMutationBudget (budgetBytes currentBytes oldMutationBytes newMutationBytes : ℕ) :
    Except Error Unit :=
  if newMutationBytes ≤ oldMutationBytes then .ok ()
  else ensureBudget budgetBytes currentBytes (newMutationBytes - oldMutationBytes)

/-- A payload larger than the whole budget is refused before it is copied. -/
def rejectUnbudgetablePayload (budgetBytes : ℕ) (key value : Bytes) : Except Error Unit :=
  if budgetBytes < key.length + value.length then
    .error (.offRecord (.offRecordOverlayFull budgetBytes (key.length + value.length)))
  else .ok ()

/-! ## Staging into the open segment -/

section

variable [EntryLayout]

/-- `apply_preflighted_to_state`: the mutations, then the journal entries under fresh identities. -/
def applyMutations (state : OverlayState) (mutations : List OverlayMutation) :
    Except Error OverlayState :=
  mutations.foldlM projectMutation state

def publishEntry (state : OverlayState) (entry : JournalEntry) : OverlayState :=
  OverlayState.recalculateBytes { state with
    nextJournalSeq := state.nextJournalSeq + 1
    journal := state.journal ++ [⟨state.nextJournalSeq % 2 ^ 64, entry⟩] }

def applyPreflightedToState (state : OverlayState) (mutations : List OverlayMutation)
    (journal : List JournalEntry) : Except Error OverlayState := do
  let next ← applyMutations state mutations
  pure (journal.foldl publishEntry next)

end

/-- The active segment, or the refusal of a write without one. -/
def activeSegment (overlay : SessionOverlay) : Except Error TxnSegment :=
  match overlay.segment with
  | some segment => .ok segment
  | none =>
    .error (.invariantViolation "session overlay write requires an active txn segment")

variable {state preview : OverlayState} {segment : TxnSegment} {mutations : List OverlayMutation}

theorem activeSegment_eq_ok {overlay : SessionOverlay} :
    overlay.activeSegment = .ok segment ↔ overlay.segment = some segment := by
  unfold activeSegment
  split <;> simp_all

def holdsBookkeepingRow (overlay : SessionOverlay) (keyspace : OverlayKeyspace) (key : Bytes) :
    Bool :=
  overlay.segment.any fun segment => (segment.preview.bookkeeping keyspace).contains key

variable [EntryLayout] (overlay : SessionOverlay)

def stageMutation (mutation : OverlayMutation) : Except Error SessionOverlay := do
  let segment ← overlay.activeSegment
  let preview ← applyPreflightedToState segment.preview [mutation] []
  pure { overlay with
    segment := some { segment with preview, mutations := segment.mutations ++ [mutation] } }

/-- The budget check of one staged change, from the preview to `projected`. -/
def checkGrowth (segment : TxnSegment) (projected : OverlayState) : Except Error Unit :=
  if segment.netBudget.isNone then
    ensureMutationBudget overlay.budgetBytes segment.stagedBytes segment.preview.bytesUsed
      projected.bytesUsed
  else .ok ()

def preflightSegmentMutation (mutation : OverlayMutation) : Except Error Unit := do
  let segment ← overlay.activeSegment
  let projected ← projectMutation segment.preview mutation
  overlay.checkGrowth segment projected

variable (keyspace : OverlayKeyspace)

/-- The payload check of a put: a bookkeeping row is exempt. -/
def rejectPut (key value : Bytes) : Except Error Unit :=
  if unbudgetedRow keyspace key || overlay.holdsBookkeepingRow keyspace key then .ok ()
  else rejectUnbudgetablePayload overlay.budgetBytes key value

/-- One mutation, checked and staged. -/
def stageChecked (mutation : OverlayMutation) : Except Error SessionOverlay := do
  overlay.preflightSegmentMutation mutation
  overlay.stageMutation mutation

def put (key value : Bytes) : Except Error SessionOverlay := do
  overlay.rejectPut keyspace key value
  overlay.stageChecked (.put keyspace key value)

def deleteWithBaseBacking (key : Bytes) (baseBacked : Bool) : Except Error SessionOverlay :=
  overlay.stageChecked (.delete keyspace key baseBacked)

def deleteDuplicate (key value : Bytes) (baseBacked : Bool) : Except Error SessionOverlay := do
  rejectUnbudgetablePayload overlay.budgetBytes key value
  overlay.stageChecked (.deleteDuplicate keyspace key value baseBacked)

def clear : Except Error SessionOverlay :=
  overlay.stageChecked (.clear keyspace)

/-- Marks a row as a write's bookkeeping: staged unchecked, it only ever frees bytes. -/
def markBookkeepingRow (key : Bytes) : Except Error SessionOverlay :=
  overlay.stageMutation (.bookkeeping keyspace key)

/-- A group is admitted once, by its net growth, and only then staged. -/
def stageMutationGroup (mutations : List OverlayMutation) : Except Error SessionOverlay := do
  mutations.forM fun
    | .put keyspace key value => overlay.rejectPut keyspace key value
    | _ => .ok ()
  let segment ← overlay.activeSegment
  let projected ← applyMutations segment.preview mutations
  overlay.checkGrowth segment projected
  mutations.foldlM stageMutation overlay

omit [EntryLayout] in
/-- The vocabulary check of a journal entry. -/
def requireStageable (entry : JournalEntry) : Except Error Unit :=
  if entry.op.isStageable then .ok ()
  else .error (.invariantViolation "session journal cannot stage an unsupported batch op")

/-- The budget check of a journal entry. -/
def checkEntry (segment : TxnSegment) (entry : JournalEntry) : Except Error Unit :=
  if segment.netBudget.isNone then
    ensureBudget overlay.budgetBytes segment.stagedBytes entry.byteSize
  else .ok ()

def stageJournalEntry (entry : JournalEntry) : Except Error SessionOverlay := do
  requireStageable entry
  let segment ← overlay.activeSegment
  overlay.checkEntry segment entry
  pure { overlay with
    segment := some { segment with
      journal := segment.journal ++ [entry]
      journalBytes := segment.journalBytes + entry.byteSize } }

/-! ## Net-budget operations -/

/-- `with_net_budget` up to the call of its closure. -/
def beginNetBudget : Except Error SessionOverlay :=
  match overlay.segment with
  | none => .error (.invariantViolation "room net-budget staging requires its active txn segment")
  | some segment =>
    if segment.netBudget.isSome then
      .error (.invariantViolation "a room net-budget operation is already active")
    else .ok { overlay with
      segment := some { segment with
        netBudget := some {
          preview := segment.preview
          mutationsLen := segment.mutations.length
          journalLen := segment.journal.length
          journalBytes := segment.journalBytes } } }

/-- `with_net_budget` after its closure returned `stageOk`: a failed closure, or a net growth past
the budget, restores the checkpoint. -/
def endNetBudget (stageOk : Bool) : SessionOverlay :=
  match overlay.segment with
  | none => overlay
  | some segment =>
    match segment.netBudget with
    | none => overlay
    | some checkpoint =>
      let before := checkpoint.preview.bytesUsed + checkpoint.journalBytes
      let after := segment.stagedBytes
      match stageOk, ensureMutationBudget overlay.budgetBytes before before after with
      | true, .ok () => { overlay with segment := some { segment with netBudget := none } }
      | _, _ => { overlay with segment := some (segment.restore checkpoint) }

/-! ## Opening and closing the segment -/

omit [EntryLayout] in
/-- One segment at a time: a second install waits, or is refused on the same thread. -/
def installTxnSegment : Except Error SessionOverlay :=
  match overlay.segment with
  | some _ =>
    .error (.invariantViolation "a session txn segment is already installed on this thread")
  | none => .ok { overlay with
      nextSegmentNonce := overlay.nextSegmentNonce + 1
      segment := some {
        nonce := overlay.nextSegmentNonce
        preview := overlay.state
        mutations := []
        journal := []
        journalBytes := 0
        netBudget := none } }

/-- The guard dropped without a commit. -/
def abort : SessionOverlay := { overlay with segment := none }

/-- `TxnSegmentGuard::commit` on a live overlay; a refused commit drops the segment. -/
def commit : Except Error Unit × SessionOverlay :=
  match overlay.segment with
  | none =>
    (.error (.invariantViolation "session txn segment disappeared before commit"), overlay)
  | some segment =>
    if segment.netBudget.isSome then
      (.error (.invariantViolation "a room net-budget operation must finish before commit"),
        overlay.abort)
    else
      match applyPreflightedToState overlay.state segment.mutations segment.journal with
      | .error e => (.error e, overlay.abort)
      | .ok state => (.ok (), { overlay with state, segment := none })

/-! ## What a write stages -/

/-- `staged` is what the open segment gained, and its preview moved by it. -/
def Stages (staged : List OverlayMutation) (next : SessionOverlay) : Prop :=
  ∃ segment preview, overlay.segment = some segment ∧
    applyMutations segment.preview staged = .ok preview ∧
    next = { overlay with
      segment := some { segment with preview, mutations := segment.mutations ++ staged } }

variable {overlay next : SessionOverlay} {mutation : OverlayMutation}

theorem applyPreflightedToState_nil :
    applyPreflightedToState state mutations [] = applyMutations state mutations := by
  unfold applyPreflightedToState
  cases applyMutations state mutations <;> rfl

theorem applyMutations_singleton : applyMutations state [mutation] = .ok preview ↔
      ∃ projected, applyMutation state mutation = .ok projected ∧
        projected.recalculateBytes = preview := by
  rw [applyMutations, foldlM_singleton_eq_ok, projectMutation, bind_eq_ok]
  simp only [pure_eq_ok]

theorem journal_of_applyMutations (h : applyMutations state mutations = .ok preview) :
    preview.journal = state.journal ∧ preview.nextJournalSeq = state.nextJournalSeq := by
  refine foldlM_preserves (fun next =>
    next.journal = state.journal ∧ next.nextJournalSeq = state.nextJournalSeq)
    (fun hi hs => ?_) h ⟨rfl, rfl⟩
  obtain ⟨projected, hp, hs⟩ := bind_eq_ok.mp hs
  rw [pure_eq_ok] at hs
  obtain ⟨hj, hn⟩ := applyMutation_journal hp
  rw [← hs]
  exact ⟨hj.trans hi.1, hn.trans hi.2⟩

theorem stageMutation_eq_ok :
    overlay.stageMutation mutation = .ok next ↔ overlay.Stages [mutation] next := by
  simp only [stageMutation, bind_eq_ok, activeSegment_eq_ok, applyPreflightedToState_nil,
    pure_eq_ok, Stages]
  constructor
  · rintro ⟨segment, hseg, preview, hp, rfl⟩
    exact ⟨segment, preview, hseg, hp, rfl⟩
  · rintro ⟨segment, preview, hseg, hp, rfl⟩
    exact ⟨segment, hseg, preview, hp, rfl⟩

theorem stages_of_stageChecked (h : overlay.stageChecked mutation = .ok next) :
    overlay.Stages [mutation] next := by
  obtain ⟨_, -, h⟩ := bind_eq_ok.mp h
  exact stageMutation_eq_ok.mp h

theorem stages_nil (h : overlay.segment = some segment) : overlay.Stages [] overlay := by
  refine ⟨segment, segment.preview, h, rfl, ?_⟩
  obtain ⟨_, _, _, _⟩ := overlay
  simp_all

end SessionOverlay

end Oneiron
