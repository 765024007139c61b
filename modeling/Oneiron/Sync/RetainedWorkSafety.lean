import Oneiron.Foundations.System
import Oneiron.Sync.RetainedWorkPosted

/-!
# Sync/RetainedWorkSafety — retained work is ended once

Whatever the order of the operations, each queue's deadline index and the carrier table list exactly
what waits (`RetainedRows.Inv`), and what has ended stays ended until it is retained again
(`retained_work_ended_once`).  A batch taken before may be settled after its row was ended and
retained again; the settle must then find the row as it was taken, for it deletes under the date and
the carried rows it was taken with.
-/

open Std

namespace Oneiron

open Except ExtTreeMap

/-- The retained rows, and the batches calls under way have taken. -/
structure RetainedState where
  rows : RetainedRows
  taken : List DeferredWork

inductive RetainedAct where
  | retain (peerKey : Bytes) (op : MaintenanceOp) (arrival : Bytes) (now wait : ℕ)
  | replay (key : MaintenanceKey) (window : Bytes) (step : RetainedRows.IngestStep)
  | expireWork (keys : List MaintenanceKey) (now : ℕ)
  | admission (peer : FederationPeer) (window : Bytes) (kind : WorkKind) (payload : Bytes)
      (carried : List EntityId) (parts : Option IsolatedParts) (authority arrival : Bytes)
      (now wait : ℕ) (replayReady : Bool) (outcome : FederationBurstOutcome)
  /-- A call reads a retained batch. -/
  | take (key : BurstKey)
  /-- A call is answered by a completed selector's witness. -/
  | takeCompleted (peer : FederationPeer) (window payload authority : Bytes)
  | retire (work : DeferredWork) (authority : Bytes) (now : ℕ) (state : FederationBurstWorkState)
  /-- One writer of a batch's import asks whether it may go on. -/
  | importWrite (peer : FederationPeer) (id authority current : Bytes)
  | settle (work : DeferredWork) (peer : FederationPeer) (structuralFailure : Bool)
  | review (reject : Bool) (digest : Bytes) (now : ℕ)
      (peerOf : DeferredWork → Except Error (FederationPeer × Bytes))
  | erase (id : EntityId)
  | expireRetained (expired : List (ℕ × BurstKey)) (now : ℕ)

section Digest

variable (blake3 : Bytes → Bytes)

namespace RetainedState

/-- One transaction; a refused one changes nothing. -/
def run (s : RetainedState) : RetainedAct → RetainedState
  | .retain peerKey op arrival now wait =>
    { s with rows := s.rows.retain peerKey op arrival now wait }
  | .replay key window step => { s with rows := (s.rows.replay key window step).1 }
  | .expireWork keys now => { s with rows := s.rows.expireWork keys now }
  | .admission peer window kind payload carried parts authority arrival now wait replayReady outcome =>
    match s.rows.admitWork blake3 peer window kind payload carried parts authority arrival now wait
        replayReady outcome with
    | .ok (rows, _, work) => ⟨rows, work :: s.taken⟩
    | .error _ => s
  | .take key => { s with taken := s.rows.deferred[key]?.toList ++ s.taken }
  | .takeCompleted peer window payload authority =>
    let work := { RetainedRows.newWork blake3 peer window .selector payload with
      authorityDigest := authority }
    if (peer.digest, work.id) ∈ s.rows.completed then { s with taken := work :: s.taken } else s
  | .retire work authority now state =>
    { s with rows := (s.rows.retire blake3 work authority now state).toOption.getD s.rows }
  | .importWrite .. => s
  | .settle work peer structuralFailure =>
    { s with rows := (s.rows.settle blake3 work peer structuralFailure).toOption.getD s.rows }
  | .review reject digest now peerOf =>
    { s with rows := (s.rows.settleReview blake3 reject digest now peerOf).toOption.getD s.rows }
  | .erase id => { s with rows := (s.rows.eraseRetainedCopies blake3 id).toOption.getD s.rows }
  | .expireRetained expired now => { s with rows := s.rows.expireRetained blake3 expired now }

end RetainedState

/-- Both queues under any interleaving; a batch is settled by a call that took it. -/
def retainedSystem : System RetainedState RetainedAct where
  init s := s = ⟨⟨∅, ∅, ∅, ∅, ∅, ∅, ∅, ∅⟩, []⟩
  step s act t := t = s.run blake3 act ∧
    ∀ work peer failure, act = .settle work peer failure → work ∈ s.taken

/-- The requests that reach the door, `seen` all that was hashed of them; and a settle finds the
row it took, or none. -/
structure RetainedAllowed (seen : Set Bytes) (s : RetainedState) (act : RetainedAct) : Prop where
  admitted : ∀ peer window kind payload carried parts authority arrival now wait replayReady outcome,
    act = .admission peer window kind payload carried parts authority arrival now wait replayReady
      outcome → RetainedRows.identityInput blake3 peer window kind payload ∈ seen ∧
      peer.digest.length = 32
  completed : ∀ peer window payload authority, act = .takeCompleted peer window payload authority →
    RetainedRows.identityInput blake3 peer window .selector payload ∈ seen ∧
      peer.digest.length = 32
  settled : ∀ work peer failure, act = .settle work peer failure → s.rows.Fresh blake3 work

variable {t : RetainedState} {key : MaintenanceKey} {authority id : Bytes} {now : ℕ}
  {work : DeferredWork} {row : FederationBurstReceipt}

namespace RetainedRows

variable {blake3} {rows : RetainedRows}

/-! ## What has ended stays so -/

/-- **Every operation but a retention, an admission and a landing** only ends what waits: a row of
either ledger keeps its data, and an ended one its state. -/
structure Ends (rows rows' : RetainedRows) : Prop where
  work : ∀ (key : MaintenanceKey) (work : RetainedMaintenance), rows.work[key]? = some work →
    rows'.work[key]? = some work ∨ work.state = .pending ∧
      ∃ state ≠ .pending, rows'.work[key]? = some { work with blob := none, state := state }
  receipt : ∀ (id : Bytes) (row : FederationBurstReceipt), rows.receipts[id]? = some row →
    rows'.receipts[id]? = some row ∨ row.state = .pending ∧
      ∃ state ≠ .pending, rows'.receipts[id]? = some { row with state := state }

namespace Ends

variable {rows' rows'' : RetainedRows}

theorem of_eq (hwork : rows'.work = rows.work) (hreceipt : rows'.receipts = rows.receipts) :
    rows.Ends rows' :=
  ⟨fun _ _ h => Or.inl (hwork ▸ h), fun _ _ h => Or.inl (hreceipt ▸ h)⟩

theorem trans (h : rows.Ends rows') (h' : rows'.Ends rows'') : rows.Ends rows'' where
  work := by
    intro key work hrow
    rcases h.work key work hrow with hsame | ⟨hp, state, hstate, hended⟩
    · exact h'.work key work hsame
    · refine Or.inr ⟨hp, state, hstate, ?_⟩
      exact (h'.work key _ hended).resolve_right fun hand => hstate hand.1
  receipt := by
    intro id row hrow
    rcases h.receipt id row hrow with hsame | ⟨hp, state, hstate, hended⟩
    · exact h'.receipt id row hsame
    · refine Or.inr ⟨hp, state, hstate, ?_⟩
      exact (h'.receipt id _ hended).resolve_right fun hand => hstate hand.1

theorem endWork (key : MaintenanceKey) {state : MaintenanceWorkState} (hstate : state ≠ .pending) :
    rows.Ends (rows.endWork key state) := by
  simp only [RetainedRows.endWork]
  split
  · exact of_eq rfl rfl
  · next work hwork =>
    split
    · next hp =>
      refine ⟨fun k w hw => ?_, fun _ _ h => Or.inl h⟩
      simp only [getElem?_insert, Std.compare_eq_iff_eq]
      by_cases hk : key = k
      · subst hk
        obtain rfl := Option.some.inj (hwork.symm.trans hw)
        exact Or.inr ⟨hp, state, hstate, if_pos rfl⟩
      · rw [if_neg hk]
        exact Or.inl hw
    · exact of_eq rfl rfl

variable {state : FederationBurstWorkState}

theorem settleReceipt (id : Bytes) (hstate : state ≠ .pending) :
    rows.Ends (rows.settleReceipt id state) := by
  refine ⟨fun _ _ h => Or.inl h, fun id' row hrow => ?_⟩
  rw [getElem?_settleReceipt]
  by_cases hid : id' = id
  · subst hid
    rw [if_pos rfl, hrow]
    by_cases hp : row.state = .pending
    · exact Or.inr ⟨hp, state, hstate, by simp [hp]⟩
    · exact Or.inl (by simp [hp])
  · rw [if_neg hid]
    exact Or.inl hrow

theorem retireInTxn (work : DeferredWork) (hstate : state ≠ .pending) :
    rows.Ends (rows.retireInTxn blake3 work state) :=
  (of_eq rfl rfl : rows.Ends (rows.removeWork blake3 work)).trans (settleReceipt work.id hstate)

theorem foldl {α : Type} {f : RetainedRows → α → RetainedRows}
    (hstep : ∀ (rows : RetainedRows) (a : α), rows.Ends (f rows a)) {l : List α} :
    rows.Ends (l.foldl f rows) := by
  induction l generalizing rows with
  | nil => exact of_eq rfl rfl
  | cons a rest ih => exact (hstep rows a).trans ih

theorem foldlM {α : Type} {f : RetainedRows → α → Except Error RetainedRows}
    (hstep : ∀ {rows : RetainedRows} {a : α} {rows'}, f rows a = .ok rows' → rows.Ends rows')
    {l : List α}     (h : l.foldlM f rows = .ok rows') : rows.Ends rows' :=
  foldlM_preserves (rows.Ends ·) (fun hends hf => hends.trans (hstep hf)) h (of_eq rfl rfl)

theorem expireWork {keys : List MaintenanceKey} : rows.Ends (rows.expireWork keys now) := by
  refine foldl fun rows key => ?_
  split
  · exact endWork key (by decide)
  · exact of_eq rfl rfl

theorem retire (h : rows.retire blake3 work authority now state = .ok rows') : rows.Ends rows' := by
  simp only [RetainedRows.retire, bind_eq_ok] at h
  obtain ⟨saved, -, h⟩ := h
  cases saved with
  | none => exact (ok.inj h) ▸ of_eq rfl rfl
  | some saved =>
    simp only at h
    split at h
    · next hended => exact (ok.inj h) ▸ retireInTxn saved (endedIn_ne_pending hended)
    · exact (ok.inj h) ▸ of_eq rfl rfl

theorem settle {work : DeferredWork} {peer : FederationPeer} {structuralFailure : Bool}
    (h : rows.settle blake3 work peer structuralFailure = .ok rows') : rows.Ends rows' := by
  simp only [RetainedRows.settle, bind_eq_ok, pure_eq_ok] at h
  obtain ⟨-, -, settled, hsettled, rfl⟩ := h
  obtain rfl := settleReceiptOf_eq_ok hsettled
  have hretired : rows.Ends (rows.retireInTxn blake3 work
      (if structuralFailure then .rejected else .imported)) :=
    retireInTxn work (by cases structuralFailure <;> decide)
  split
  · exact hretired.trans (of_eq rfl rfl)
  · exact hretired

theorem settleReview {reject : Bool} {digest : Bytes}
    {peerOf : DeferredWork → Except Error (FederationPeer × Bytes)}
    (h : rows.settleReview blake3 reject digest now peerOf = .ok rows') : rows.Ends rows' := by
  simp only [RetainedRows.settleReview, bind_eq_ok] at h
  obtain ⟨-, -, hfold⟩ := h
  refine foldlM (fun {rows work rows'} hone => ?_) hfold
  simp only [bind_eq_ok, RetainedRows.settleReviewed] at hone
  obtain ⟨⟨peer, authority⟩, -, -, -, receipt, -, hone⟩ := hone
  split at hone
  · split at hone
    · obtain rfl := settleReceiptOf_eq_ok hone
      exact retireInTxn work (by decide)
    · split at hone
      · next hended => exact (ok.inj hone) ▸ retireInTxn work (endedIn_ne_pending hended)
      · exact (ok.inj hone) ▸ of_eq rfl rfl
  · exact (ok.inj hone) ▸ of_eq rfl rfl

theorem eraseCarried {carrier : CarriedBy} (h : rows.eraseCarried blake3 carrier = .ok rows') :
    rows.Ends rows' := by
  cases carrier with
  | burst key =>
    simp only [RetainedRows.eraseCarried, RetainedRows.eraseBurst] at h
    split at h
    · exact (ok.inj h) ▸ of_eq rfl rfl
    · next work _ =>
      split at h
      · exact (ok.inj h) ▸ retireInTxn work (by decide)
      · exact absurd h (by simp)
  | maintenance key => exact (ok.inj h) ▸ endWork key (by decide)
  | stagedImport receipt => exact (ok.inj h) ▸ of_eq rfl rfl

theorem eraseRetainedCopies {id : EntityId}
    (h : rows.eraseRetainedCopies blake3 id = .ok rows') : rows.Ends rows' := by
  refine foldlM (fun {rows row rows'} hone => ?_) h
  simp only [bind_eq_ok, pure_eq_ok] at hone
  obtain ⟨scrubbed, hscrub, rfl⟩ := hone
  exact (eraseCarried hscrub).trans (of_eq rfl rfl)

theorem expireRetained {expired : List (ℕ × BurstKey)} :
    rows.Ends (rows.expireRetained blake3 expired now) := by
  refine foldl fun rows row => ?_
  simp only [RetainedRows.expireNoted]
  split
  · next work _ =>
    split
    · exact (retireInTxn work (by decide)).trans (of_eq rfl rfl)
    · exact of_eq rfl rfl
  · exact of_eq rfl rfl

end Ends

end RetainedRows

/-! ## What one transaction may do -/

/-- Whether a label retains the operation under a key. -/
def RetainedAct.Retains (key : MaintenanceKey) (act : RetainedAct) : Prop :=
  ∃ peerKey op arrival now wait, act = .retain peerKey op arrival now wait ∧ key = (peerKey, op.id)

/-- Whether a label admits the request with an id. -/
def RetainedAct.Admits (id : Bytes) (act : RetainedAct) : Prop :=
  ∃ peer window kind payload carried parts authority arrival now wait replayReady outcome,
    act = .admission peer window kind payload carried parts authority arrival now wait replayReady
      outcome ∧ id = (RetainedRows.newWork blake3 peer window kind payload).id

/-- **Each wait ends once**, in one way. -/
structure RetainedKept (s : RetainedState) (act : RetainedAct) (t : RetainedState) : Prop where
  /-- What ended stays as it is until it is retained again. -/
  workEnded : ∀ (key : MaintenanceKey) (work : RetainedMaintenance), s.rows.work[key]? = some work →
    work.state ≠ .pending → t.rows.work[key]? = some work ∨ act.Retains key
  /-- What waits goes on waiting, lands and is gone, or ends as its receipt without bytes. -/
  workWaiting : ∀ (key : MaintenanceKey) (work : RetainedMaintenance),
    s.rows.work[key]? = some work → work.state = .pending →
    t.rows.work[key]? = some work ∨
    (∃ window, act = .replay key window .landed ∧ t.rows.work[key]? = none) ∨
    ∃ state ≠ .pending, t.rows.work[key]? = some { work with blob := none, state := state }
  /-- Only what waits lands. -/
  workLanded : ∀ key window step, act = .replay key window step →
    (s.rows.replay key window step).2 → s.rows.workNotice key ≠ none
  /-- A batch's receipt stays, and an ended one stays as it is; one not settled for good gives way
  to the same request admitted again. -/
  receipt : ∀ (id : Bytes) (row : FederationBurstReceipt), s.rows.receipts[id]? = some row →
    t.rows.receipts[id]? = some row ∨
    (row.state = .pending ∧
      ∃ state ≠ .pending, t.rows.receipts[id]? = some { row with state := state }) ∨
    (row.state.isSettled = false ∧ act.Admits blake3 id ∧
      ∃ row', t.rows.receipts[id]? = some row' ∧ row'.state = .pending)
  /-- Only what waits is imported. -/
  imported : ∀ peer id authority current, act = .importWrite peer id authority current →
    s.rows.checkActive peer id authority current → ∃ key ∈ s.rows.deferred, key.2.2 = id

variable {blake3} {seen : Set Bytes} {s : RetainedState} {act : RetainedAct}

namespace RetainedKept

variable {rows rows' : RetainedRows} {peer : FederationPeer} {window arrival : Bytes}
  {work' : DeferredWork} {parts : Option IsolatedParts} {wait : ℕ}
  {outcome : FederationBurstOutcome} {decision : FederationBurstDecision}

theorem waits_of_landed {step : RetainedRows.IngestStep} (h : (rows.replay key window step).2) :
    rows.workNotice key ≠ none := by
  simp only [RetainedRows.replay] at h
  split at h
  · exact absurd h (by simp)
  · next work hwork =>
    split at h
    · next hwaits => simp [RetainedRows.workNotice, hwork, hwaits.1]
    · exact absurd h (by simp)

section

variable (hinv : s.rows.Inv blake3 seen)

include hinv

theorem waits_of_checkActive {current : Bytes} (h : s.rows.checkActive peer id authority current) :
    ∃ key ∈ s.rows.deferred, key.2.2 = id := by
  simp only [RetainedRows.checkActive, RetainedRows.loadReceipt, Bool.and_eq_true] at h
  obtain ⟨-, h⟩ := h
  refine (hinv.receipt id).mp ?_
  cases hrow : s.rows.receipts[id]? with
  | none => simp [hrow] at h
  | some row =>
    refine ⟨row, rfl, ?_⟩
    simp only [hrow] at h
    split at h
    · next heq =>
      split at heq
      · obtain rfl := Option.some.inj (ok.inj heq)
        exact of_decide_eq_true h
      · exact absurd heq (by simp)
    · exact absurd h (by simp)

theorem of_ends (h : s.rows.Ends t.rows) : RetainedKept blake3 s act t where
  workEnded := fun key work hrow hended =>
    Or.inl ((h.work key work hrow).resolve_right fun hand => hended hand.1)
  workWaiting := fun key work hrow _ =>
    (h.work key work hrow).imp_right fun hand => Or.inr hand.2
  workLanded := fun _ _ _ _ hlanded => waits_of_landed hlanded
  receipt := fun id row hrow => (h.receipt id row hrow).imp_right Or.inl
  imported := fun _ _ _ _ _ hactive => waits_of_checkActive hinv hactive

/-- A transaction that writes the maintenance queue alone. -/
theorem of_work (hreceipts : t.rows.receipts = s.rows.receipts)
    (hended : ∀ (key : MaintenanceKey) (work : RetainedMaintenance),
      s.rows.work[key]? = some work → work.state ≠ .pending →
      t.rows.work[key]? = some work ∨ act.Retains key)
    (hwaiting : ∀ (key : MaintenanceKey) (work : RetainedMaintenance),
      s.rows.work[key]? = some work → work.state = .pending → t.rows.work[key]? = some work ∨
        ∃ window, act = .replay key window .landed ∧ t.rows.work[key]? = none) :
    RetainedKept blake3 s act t where
  workEnded := hended
  workWaiting := fun key work hrow hp => (hwaiting key work hrow hp).imp_right Or.inl
  workLanded := fun _ _ _ _ hlanded => waits_of_landed hlanded
  receipt := fun _ _ hrow => Or.inl (hreceipts ▸ hrow)
  imported := fun _ _ _ _ _ hactive => waits_of_checkActive hinv hactive

theorem retain (peerKey : Bytes) (op : MaintenanceOp) (arrival : Bytes) (now wait : ℕ) :
    RetainedKept blake3 s (.retain peerKey op arrival now wait)
      (s.run blake3 (.retain peerKey op arrival now wait)) := by
  have hother {key : MaintenanceKey} {work : RetainedMaintenance}
      (hrow : s.rows.work[key]? = some work) (hkey : (peerKey, op.id) = key → work.state = .pending) :
      (s.rows.retain peerKey op arrival now wait).work[key]? = some work := by
    simp only [RetainedRows.retain]
    split
    · exact hrow
    · next hfree =>
      simp only [getElem?_insert, Std.compare_eq_iff_eq]
      rw [if_neg]
      · exact hrow
      · rintro rfl
        exact hfree (by simp [hrow, hkey rfl])
  refine of_work hinv ?_ (fun key work hrow hended => ?_) fun key work hrow hp => ?_
  · simp only [RetainedState.run, RetainedRows.retain]
    split <;> rfl
  · by_cases hkey : (peerKey, op.id) = key
    · exact Or.inr ⟨peerKey, op, arrival, now, wait, rfl, hkey.symm⟩
    · exact Or.inl (hother hrow fun he => absurd he hkey)
  · exact Or.inl (hother hrow fun _ => hp)

theorem replay (key : MaintenanceKey) (window : Bytes) (step : RetainedRows.IngestStep) :
    RetainedKept blake3 s (.replay key window step)
      (s.run blake3 (.replay key window step)) := by
  cases step with
  | quarantine terminal =>
    refine of_ends hinv ?_
    simp only [RetainedState.run, RetainedRows.replay]
    split
    · exact .of_eq rfl rfl
    · split
      · cases terminal with
        | true => exact .endWork key (by decide)
        | false => exact .of_eq rfl rfl
      · exact .of_eq rfl rfl
  | landed =>
    simp only [RetainedState.run, RetainedRows.replay]
    split
    · exact of_ends hinv (.of_eq rfl rfl)
    · next work hwork =>
      split
      · next hwaits =>
        have herase (k : MaintenanceKey) (w : RetainedMaintenance)
            (hrow : s.rows.work[k]? = some w) : (s.rows.work.erase key)[k]? = some w ∨
              key = k ∧ w = work ∧ (s.rows.work.erase key)[k]? = none := by
          by_cases hk : key = k
          · subst hk
            exact Or.inr ⟨rfl, Option.some.inj (hrow.symm.trans hwork),
              getElem?_erase_self⟩
          · left
            simpa only [getElem?_erase, Std.compare_eq_iff_eq, if_neg hk] using hrow
        refine of_work hinv rfl (fun k w hrow hended => ?_) fun k w hrow _ => ?_
        · rcases herase k w hrow with h | ⟨-, rfl, -⟩
          · exact Or.inl h
          · exact absurd hwaits.1 hended
        · rcases herase k w hrow with h | ⟨rfl, -, hnone⟩
          · exact Or.inl h
          · exact Or.inr ⟨window, rfl, hnone⟩
      · exact of_ends hinv (.of_eq rfl rfl)

end

/-- A receipt an admission finds: kept, or one not settled for good that is pending again. -/
theorem receipt_admitAfresh (h : rows.admitAfresh blake3 peer work parts arrival now wait outcome =
      .ok (rows', decision, work')) (hrow : rows.receipts[id]? = some row) :
    rows'.receipts[id]? = some row ∨ (row.state.isSettled = false ∧ id = work.id ∧
      ∃ row', rows'.receipts[id]? = some row' ∧ row'.state = .pending) := by
  simp only [RetainedRows.admitAfresh, bind_eq_ok] at h
  obtain ⟨receipt, hload, h⟩ := h
  split at h
  · obtain ⟨rfl, -, -⟩ := ok.inj h
    exact Or.inl hrow
  · next hsettled =>
    obtain ⟨rfl, -, -⟩ := ok.inj h
    simp only [RetainedRows.retainReview, getElem?_insert, Std.compare_eq_iff_eq]
    by_cases hid : work.id = id
    · subst hid
      rw [if_pos rfl]
      simp only [RetainedRows.loadReceipt, hrow] at hload
      split at hload
      · obtain rfl := ok.inj hload
        exact Or.inr ⟨by simpa using hsettled, rfl, _, rfl, rfl⟩
      · exact absurd hload (by simp)
    · rw [if_neg hid]
      exact Or.inl hrow

theorem work_admitAfresh (h : rows.admitAfresh blake3 peer work parts arrival now wait outcome =
      .ok (rows', decision, work')) : rows'.work = rows.work := by
  simp only [RetainedRows.admitAfresh, bind_eq_ok] at h
  obtain ⟨receipt, -, h⟩ := h
  split at h <;>
  · obtain ⟨rfl, -, -⟩ := ok.inj h
    rfl

theorem admission (hinv : s.rows.Inv blake3 seen) {kind : WorkKind} {payload : Bytes}
    {carried : List EntityId} {replayReady : Bool} {taken : List DeferredWork}
    (hadmitted : s.rows.admitWork blake3 peer window kind payload carried parts authority arrival now
      wait replayReady outcome = .ok (rows', decision, work)) :
    RetainedKept blake3 s (.admission peer window kind payload carried parts authority arrival now wait
      replayReady outcome) ⟨rows', taken⟩ := by
  -- the batch it retired first, if any, then what it admitted afresh
  have hsplit : s.rows.Ends rows' ∨ ∃ mid work₀ work',
      mid.admitAfresh blake3 peer work₀ parts arrival now wait outcome =
        .ok (rows', decision, work') ∧
      work₀.id = (RetainedRows.newWork blake3 peer window kind payload).id ∧ s.rows.Ends mid := by
    simp only [RetainedRows.admitWork, bind_eq_ok] at hadmitted
    obtain ⟨saved, -, hadmitted⟩ := hadmitted
    cases saved with
    | none => exact Or.inr ⟨_, _, _, hadmitted, rfl, .of_eq rfl rfl⟩
    | some saved =>
      simp only at hadmitted
      split at hadmitted
      · next hended =>
        exact Or.inr ⟨_, _, _, hadmitted, rfl,
          .retireInTxn saved (RetainedRows.endedIn_ne_pending hended)⟩
      · split at hadmitted <;>
        · obtain ⟨rfl, -, -⟩ := ok.inj hadmitted
          exact Or.inl (.of_eq rfl rfl)
  rcases hsplit with hends | ⟨mid, work₀, work', hafresh, hid, hends⟩
  · exact of_ends hinv hends
  · have hwork := work_admitAfresh hafresh
    refine ⟨fun key w hrow hended => ?_, fun key w hrow _ => ?_, fun _ _ _ _ h => waits_of_landed h,
      fun id row hrow => ?_, fun _ _ _ _ _ h => waits_of_checkActive hinv h⟩
    · rw [hwork]
      exact Or.inl ((hends.work key w hrow).resolve_right fun hand => hended hand.1)
    · rw [hwork]
      exact (hends.work key w hrow).imp_right fun hand => Or.inr hand.2
    · have hadmits (he : id = work₀.id) : RetainedAct.Admits blake3 id (.admission peer window kind
          payload carried parts authority arrival now wait replayReady outcome) :=
        ⟨peer, window, kind, payload, carried, parts, authority, arrival, now, wait, replayReady,
          outcome, rfl, he.trans hid⟩
      rcases hends.receipt id row hrow with hsame | ⟨hp, state, hstate, hended⟩
      · rcases receipt_admitAfresh hafresh hsame with hkept | ⟨hsettled, he, hagain⟩
        · exact Or.inl hkept
        · exact Or.inr (Or.inr ⟨hsettled, hadmits he, hagain⟩)
      · rcases receipt_admitAfresh hafresh hended with hkept | ⟨-, he, hagain⟩
        · exact Or.inr (Or.inl ⟨hp, state, hstate, hkept⟩)
        · exact Or.inr (Or.inr ⟨by rw [hp]; rfl, hadmits he, hagain⟩)

end RetainedKept

/-! ## Every run -/

/-- What holds of the rows and of the batches that were taken. -/
structure RetainedState.Inv (blake3 : Bytes → Bytes) (seen : Set Bytes) (s : RetainedState) :
    Prop where
  rows : s.rows.Inv blake3 seen
  taken : ∀ work ∈ s.taken, RetainedRows.Identified blake3 seen (RetainedRows.workKey blake3 work)

theorem retained_init (h : (retainedSystem blake3).init s) : s.Inv blake3 seen := by
  obtain rfl := h
  refine ⟨⟨⟨fun _ _ => ?_, fun _ _ => ?_⟩, ⟨fun _ _ => ?_, fun _ _ => ?_⟩, ?_, ?_, ?_, ?_, ?_⟩,
    nofun⟩ <;> simp [RetainedRows.workNotice, RetainedRows.burstNotice]

/-- A transaction that may be refused, on the rows alone. -/
theorem RetainedState.Inv.of_refusable (h : s.Inv blake3 seen) {result : Except Error RetainedRows}
    (hok : ∀ rows', result = .ok rows' → rows'.Inv blake3 seen ∧ s.rows.Ends rows') :
    RetainedState.Inv blake3 seen { s with rows := result.toOption.getD s.rows } ∧
      RetainedKept blake3 s act { s with rows := result.toOption.getD s.rows } := by
  cases hresult : result with
  | error e => exact ⟨h, .of_ends h.rows (.of_eq rfl rfl)⟩
  | ok rows' =>
    obtain ⟨hinv, hends⟩ := hok rows' hresult
    exact ⟨⟨hinv, h.taken⟩, .of_ends h.rows hends⟩

/-- **One transaction** keeps the rows, and ends what it ends once. -/
theorem retained_step (hlen : ∀ b, (blake3 b).length = 32) (hinj : Set.InjOn blake3 seen)
    (h : s.Inv blake3 seen) (hallowed : RetainedAllowed blake3 seen s act)
    (htaken : ∀ work peer failure, act = .settle work peer failure → work ∈ s.taken) :
    (s.run blake3 act).Inv blake3 seen ∧ RetainedKept blake3 s act (s.run blake3 act) := by
  cases act with
  | retain peerKey op arrival now wait =>
    exact ⟨⟨h.rows.retain peerKey op arrival now wait, h.taken⟩, .retain h.rows ..⟩
  | replay key window step =>
    exact ⟨⟨h.rows.replay key window step, h.taken⟩, .replay h.rows ..⟩
  | expireWork keys now => exact ⟨⟨h.rows.expireWork now, h.taken⟩, .of_ends h.rows .expireWork⟩
  | admission peer window kind payload carried parts authority arrival now wait replayReady outcome =>
    obtain ⟨hseen, hpeer⟩ := hallowed.admitted _ _ _ _ _ _ _ _ _ _ _ _ rfl
    simp only [RetainedState.run]
    split
    · next hadmitted =>
      obtain ⟨hinv, hkey⟩ := h.rows.admitWork hlen hinj hseen hpeer hadmitted
      exact ⟨⟨hinv, List.forall_mem_cons.mpr ⟨hkey, h.taken⟩⟩, .admission h.rows hadmitted⟩
    · exact ⟨h, .of_ends h.rows (.of_eq rfl rfl)⟩
  | take key =>
    refine ⟨⟨h.rows, fun work hwork => ?_⟩, .of_ends h.rows (.of_eq rfl rfl)⟩
    rcases List.mem_append.mp hwork with hrow | hwork
    · have hrow := Option.mem_toList.mp hrow
      rw [h.rows.keyed key work hrow]
      exact h.rows.identified key (mem_iff_isSome_getElem?.mpr (by rw [hrow]; rfl))
    · exact h.taken work hwork
  | takeCompleted peer window payload authority =>
    obtain ⟨hseen, hpeer⟩ := hallowed.completed _ _ _ _ rfl
    simp only [RetainedState.run]
    split
    · exact ⟨⟨h.rows, List.forall_mem_cons.mpr
        ⟨⟨peer, window, .selector, payload, hseen, hpeer, rfl⟩, h.taken⟩⟩,
        .of_ends h.rows (.of_eq rfl rfl)⟩
    · exact ⟨h, .of_ends h.rows (.of_eq rfl rfl)⟩
  | retire work authority now state =>
    exact h.of_refusable fun _ hok => ⟨h.rows.retire hlen hinj hok, .retire hok⟩
  | importWrite => exact ⟨h, .of_ends h.rows (.of_eq rfl rfl)⟩
  | settle work peer failure =>
    have hkey := h.taken work (htaken work peer failure rfl)
    exact h.of_refusable fun _ hok =>
      ⟨h.rows.settle hlen hinj hkey (hallowed.settled _ _ _ rfl) hok, .settle hok⟩
  | review reject digest now peerOf =>
    exact h.of_refusable fun _ hok => ⟨h.rows.settleReview hlen hinj hok, .settleReview hok⟩
  | erase id =>
    exact h.of_refusable fun _ hok =>
      ⟨h.rows.eraseRetainedCopies hlen hinj hok, .eraseRetainedCopies hok⟩
  | expireRetained expired now =>
    exact ⟨⟨h.rows.expireRetained hlen hinj expired now, h.taken⟩,
      .of_ends h.rows .expireRetained⟩

/-- The runs the theorem is about. -/
def retainedRuns (blake3 : Bytes → Bytes) (seen : Set Bytes) : System RetainedState RetainedAct :=
  (retainedSystem blake3).restrict (RetainedAllowed blake3 seen)

section Runs

variable (hlen : ∀ b, (blake3 b).length = 32) (hinj : Set.InjOn blake3 seen)

include hlen hinj

theorem retained_kept (h : s.Inv blake3 seen) (hstep : (retainedRuns blake3 seen).step s act t) :
    t.Inv blake3 seen ∧ RetainedKept blake3 s act t := by
  obtain ⟨⟨rfl, htaken⟩, hallowed⟩ := hstep
  exact retained_step hlen hinj h hallowed htaken

theorem retained_inv (hs : (retainedRuns blake3 seen).Reachable s) : s.Inv blake3 seen := by
  induction hs with
  | start h => exact retained_init h
  | step _ hstep ih => exact (retained_kept hlen hinj ih hstep).1

variable {labels : List RetainedAct}

/-- **What has ended stays ended** along a run that does not retain it again. -/
theorem ended_of_run {work : RetainedMaintenance} (hended : work.state ≠ .pending)
    (h : (retainedRuns blake3 seen).Run s labels t) (hinv : s.Inv blake3 seen)
    (hwork : s.rows.work[key]? = some work) (hnot : ∀ act ∈ labels, ¬act.Retains key) :
    t.rows.work[key]? = some work := by
  induction h with
  | nil => exact hwork
  | cons hstep _ ih =>
    rw [List.forall_mem_cons] at hnot
    obtain ⟨hinv', hkept⟩ := retained_kept hlen hinj hinv hstep
    exact ih hinv' ((hkept.workEnded key work hwork hended).resolve_right hnot.1) hnot.2

/-- …and a batch's receipt, along a run that does not admit its request again; one settled for good
stays whatever comes. -/
theorem receipt_of_run (hended : row.state ≠ .pending)
    (h : (retainedRuns blake3 seen).Run s labels t) (hinv : s.Inv blake3 seen)
    (hrow : s.rows.receipts[id]? = some row)
    (hnot : row.state.isSettled ∨ ∀ act ∈ labels, ¬act.Admits blake3 id) :
    t.rows.receipts[id]? = some row := by
  induction h with
  | nil => exact hrow
  | cons hstep _ ih =>
    rw [List.forall_mem_cons] at hnot
    obtain ⟨hinv', hkept⟩ := retained_kept hlen hinj hinv hstep
    rcases hkept.receipt id row hrow with hsame | ⟨hp, -⟩ | ⟨hsettled, hadmits, -⟩
    · exact ih hinv' hsame (hnot.imp_right And.right)
    · exact absurd hp hended
    · rcases hnot with hfinal | hnot
      · exact absurd hfinal (by simp [hsettled])
      · exact absurd hadmits hnot.1

/-- **Retained work is ended once.**  At every point of a run the deadline indexes and the carriers
list exactly what waits, so the first note is the earliest deadline, and only what waits has bytes;
each transaction ends a wait in at most one way; and what has ended is the same after any run that
does not retain it again. -/
theorem retained_work_ended_once (hs : (retainedRuns blake3 seen).Reachable s) :
    s.rows.Inv blake3 seen ∧
    (∀ date, s.rows.earliestWork = some date ↔
      (∃ key notice, s.rows.workNotice key = some notice ∧ notice.date = date) ∧
        ∀ key notice, s.rows.workNotice key = some notice → date ≤ notice.date) ∧
    (∀ date, s.rows.earliestBurst = some date ↔
      (∃ key notice, s.rows.burstNotice key = some notice ∧ notice.date = date) ∧
        ∀ key notice, s.rows.burstNotice key = some notice → date ≤ notice.date) ∧
    (∀ act t, (retainedRuns blake3 seen).step s act t → RetainedKept blake3 s act t) ∧
    ∀ labels t, (retainedRuns blake3 seen).Run s labels t →
      (∀ (key : MaintenanceKey) (work : RetainedMaintenance), s.rows.work[key]? = some work →
        work.state ≠ .pending → (∀ act ∈ labels, ¬act.Retains key) →
        t.rows.work[key]? = some work) ∧
      ∀ (id : Bytes) (row : FederationBurstReceipt), s.rows.receipts[id]? = some row →
        row.state ≠ .pending →
        (row.state.isSettled ∨ ∀ act ∈ labels, ¬act.Admits blake3 id) →
        t.rows.receipts[id]? = some row := by
  have hinv := retained_inv hlen hinj hs
  exact ⟨hinv.rows, fun _ => hinv.rows.work.earliest_eq_some,
    fun _ => hinv.rows.burst.earliest_eq_some,
    fun _ _ hstep => (retained_kept hlen hinj hinv hstep).2, fun _ _ hrun =>
    ⟨fun _ _ hwork hended hnot => ended_of_run hlen hinj hended hrun hinv hwork hnot,
      fun _ _ hrow hended hnot => receipt_of_run hlen hinj hended hrun hinv hrow hnot⟩⟩

end Runs

/-! ## Three runs -/

/-- A stand-in digest: the first 32 bytes, padded. -/
def paddedDigest (b : Bytes) : Bytes := (b ++ List.replicate 32 0).take 32

theorem length_paddedDigest (b : Bytes) : (paddedDigest b).length = 32 := by
  simp [paddedDigest]

def visitor : FederationPeer := ⟨List.replicate 32 1, .filled 2, .filled 3, [9]⟩

def noRows : RetainedState := ⟨⟨∅, ∅, ∅, ∅, ∅, ∅, ∅, ∅⟩, []⟩

def visit (now : ℕ) : RetainedAct :=
  .admission visitor [] .memberUpdate [7] [.filled 4] none [5] [] now 10 true .allow

def visitInput : Bytes := RetainedRows.identityInput paddedDigest visitor [] .memberUpdate [7]

theorem visit_step (s : RetainedState) (now : ℕ) :
    (retainedRuns paddedDigest {visitInput}).step s (visit now) (s.run paddedDigest (visit now)) := by
  refine ⟨⟨rfl, ?_⟩, ⟨?_, ?_, ?_⟩⟩
  · rintro _ _ _ ⟨⟩
  · rintro _ _ _ _ _ _ _ _ _ _ _ _ ⟨⟩
    exact ⟨rfl, by decide⟩
  · rintro _ _ _ _ ⟨⟩
  · rintro _ _ _ ⟨⟩

theorem erase_step (s : RetainedState) (id : EntityId) :
    (retainedRuns paddedDigest {visitInput}).step s (.erase id) (s.run paddedDigest (.erase id)) := by
  refine ⟨⟨rfl, ?_⟩, ⟨?_, ?_, ?_⟩⟩
  · rintro _ _ _ ⟨⟩
  · rintro _ _ _ _ _ _ _ _ _ _ _ _ ⟨⟩
  · rintro _ _ _ _ ⟨⟩
  · rintro _ _ _ ⟨⟩

/-- A batch admitted, and then erased with a row it carries. -/
def erasedVisit : RetainedState :=
  (noRows.run paddedDigest (visit 3)).run paddedDigest (.erase (.filled 4))

/-- It leaves its receipt, and nothing to wait for. -/
theorem retained_work_ended_once_erased :
    erasedVisit.rows.Inv paddedDigest {visitInput} :=
  (retained_work_ended_once length_paddedDigest (fun _ ha _ hb _ => ha.trans hb.symm)
    (.step (.step (.start rfl) (visit_step _ 3)) (erase_step _ _))).1

def chore : MaintenanceOp := ⟨[6], 1, .filled 4, [8]⟩

/-- An operation retained. -/
def choreRetained : RetainedState := noRows.run paddedDigest (.retain [1] chore [] 3 10)

/-- The erased batch sent again: what was taken of it first is still under way. -/
def secondVisit : RetainedState := erasedVisit.run paddedDigest (visit 5)

/-- **A landed operation keeps no receipt**, and a batch settled after its row was erased and
retained again leaves a note of nothing. -/
theorem retained_work_unreceipted :
    (((1 : UInt8) :: [], EntityId.filled 4) ∈ choreRetained.rows.work ∧
      ((1 : UInt8) :: [], EntityId.filled 4) ∉ (choreRetained.run paddedDigest
        (.replay ([1], .filled 4) [6] .landed)).rows.work) ∧
    (secondVisit.taken[1]?.any fun work =>
      let settled := secondVisit.run paddedDigest (.settle work visitor false)
      settled.rows.burstDeadlines.toList.map (·.1) = [15] &&
        settled.rows.deferred.isEmpty) = true := by
  decide +kernel

end Digest

end Oneiron
