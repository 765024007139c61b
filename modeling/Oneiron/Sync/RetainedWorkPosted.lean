import Oneiron.Sync.RetainedWork

/-!
# Sync/RetainedWorkPosted — the indexes of retained work list what waits

Whatever is done to the queues, each queue's deadline index and the carrier table list exactly what
waits, a receipt is pending while its batch waits and then only, and review copies are of batches
that wait (`RetainedRows.Inv`).  One lemma for each operation.
-/

open Std

namespace Oneiron

open Std.ExtTreeMap List Option Except CarriedBy

section Digest

variable (blake3 : Bytes → Bytes)

/-- What a call may settle of a batch: its row, if there is one, is as it was taken. -/
def RetainedRows.Fresh (rows : RetainedRows) (work : DeferredWork) : Prop :=
  ∀ saved, rows.deferred[RetainedRows.workKey blake3 work]? = some saved →
    saved.deadline = work.deadline ∧ saved.carried = work.carried

namespace RetainedRows

/-! ## What waits -/

/-- The notice of an operation that waits. -/
def workNotice (rows : RetainedRows) (key : MaintenanceKey) : Option (Notice EntityId) :=
  rows.work[key]?.bind fun work =>
    if work.state = .pending then some ⟨work.deadline, [key.2]⟩ else none

/-- The notice of a batch that waits: every batch stored. -/
def burstNotice (rows : RetainedRows) (key : BurstKey) : Option (Notice EntityId) :=
  rows.deferred[key]?.map fun work => ⟨work.deadline, work.carried⟩

/-- A key some request that was seen has. -/
def Identified (seen : Set Bytes) (key : BurstKey) : Prop :=
  ∃ peer window kind payload, identityInput blake3 peer window kind payload ∈ seen ∧
    peer.digest.length = 32 ∧ key = workKey blake3 (newWork blake3 peer window kind payload)

/-- **What holds of the retained rows at every point.** -/
structure Inv (seen : Set Bytes) (rows : RetainedRows) : Prop where
  work : Posted maintenance rows.workNotice rows.workDeadlines rows.carriers
  burst : Posted burst rows.burstNotice rows.burstDeadlines rows.carriers
  /-- Only what waits has bytes. -/
  blob : ∀ (key : MaintenanceKey) (work : RetainedMaintenance), rows.work[key]? = some work →
    (work.blob.isSome ↔ work.state = .pending)
  keyed : ∀ (key : BurstKey) (work : DeferredWork), rows.deferred[key]? = some work →
    workKey blake3 work = key
  identified : ∀ key ∈ rows.deferred, Identified blake3 seen key
  /-- A receipt is pending while its batch waits, and then only. -/
  receipt : ∀ id : Bytes, (∃ row, rows.receipts[id]? = some row ∧ row.state = .pending) ↔
    ∃ key ∈ rows.deferred, key.2.2 = id
  /-- Review copies are of batches that wait. -/
  review : ∀ (peer : Bytes) (bundle : FederationBurstReviewBundle),
    rows.reviews[peer]? = some bundle → ∀ update ∈ bundle.updates,
    ∃ key ∈ rows.deferred, key.1 = peer ∧ key.2.2 = update.requestRef

/-- **One request id, one key**: no two requests that were seen collide. -/
theorem Identified.unique {seen : Set Bytes} (hlen : ∀ b, (blake3 b).length = 32)
    (hinj : Set.InjOn blake3 seen) {key key' : BurstKey} (h : Identified blake3 seen key)
    (h' : Identified blake3 seen key') (hid : key.2.2 = key'.2.2) : key = key' := by
  obtain ⟨peer, window, kind, payload, hseen, hpeer, rfl⟩ := h
  obtain ⟨peer', window', kind', payload', hseen', hpeer', rfl⟩ := h'
  have hinput := hinj hseen hseen' hid
  rw [identityInput, identityInput, append_cancel_left_eq] at hinput
  obtain ⟨hdigest, hrest⟩ := append_inj hinput (hpeer.trans hpeer'.symm)
  obtain ⟨hselector, -⟩ := append_inj hrest ((hlen _).trans (hlen _).symm)
  exact Prod.ext hdigest (Prod.ext hselector hid)

variable {blake3} {seen : Set Bytes} {rows : RetainedRows}

/-! ## Tables a helper writes -/

variable {key k : MaintenanceKey} {id authority : Bytes} {notice : Notice EntityId}
  {peer : FederationPeer} {work : DeferredWork} {dates : OrderedSet (ℕ × MaintenanceKey)}
  {bundle : FederationBurstReviewBundle} {state : FederationBurstWorkState}
  {carriers : OrderedSet (EntityId × CarriedBy)} {update : FederationIsolatedUpdate} {now : ℕ}
  {rows' : RetainedRows}

/-- A receipt moves only while it is pending. -/
theorem getElem?_settleReceipt {id' : Bytes} : (rows.settleReceipt id state).receipts[id']? =
      if id' = id then rows.receipts[id]?.map fun row =>
        if row.state = .pending then { row with state := state } else row
      else rows.receipts[id']? := by
  simp only [settleReceipt]
  cases hrow : rows.receipts[id]? with
  | none => by_cases h : id' = id <;> simp [h, hrow]
  | some row =>
    by_cases hp : row.state = .pending
    · simp only [hp, if_true, ExtTreeMap.getElem?_insert, Std.compare_eq_iff_eq]
      by_cases h : id' = id
      · simp [h, hp]
      · rw [if_neg (Ne.symm h), if_neg h]
    · by_cases h : id' = id <;> simp [h, hrow, hp]

/-- A scrubbed bundle keeps only other requests' bytes. -/
theorem of_mem_scrubReview {peer peer' : Bytes}
    (h : (rows.scrubReview peer id).reviews[peer']? = some bundle) (hu : update ∈ bundle.updates) :
    (∃ old, rows.reviews[peer']? = some old ∧ update ∈ old.updates) ∧
      (peer' = peer → update.requestRef ≠ id) := by
  simp only [scrubReview] at h
  cases hrow : rows.reviews[peer]? with
  | none =>
    rw [hrow] at h
    exact ⟨⟨bundle, h, hu⟩, fun he => by simp [he, hrow] at h⟩
  | some old =>
    rw [hrow] at h
    simp only [ExtTreeMap.getElem?_insert, Std.compare_eq_iff_eq] at h
    split at h
    · next he =>
      subst he
      obtain rfl := some.inj h
      obtain ⟨hu, hne⟩ := List.mem_filter.mp hu
      exact ⟨⟨old, hrow, hu⟩, fun _ => of_decide_eq_true hne⟩
    · next he => exact ⟨⟨bundle, h, hu⟩, fun he' => absurd he'.symm he⟩

/-- What a bundle gains is the batch's own. -/
theorem of_mem_retainReview {peer : Bytes}
    (h : (rows.retainReview work).reviews[peer]? = some bundle) (hu : update ∈ bundle.updates) :
    (∃ old, rows.reviews[peer]? = some old ∧ update ∈ old.updates) ∨
      (peer = work.peer ∧ update.requestRef = work.id) := by
  simp only [retainReview] at h
  split at h
  · exact Or.inl ⟨bundle, h, hu⟩
  · next parts _ =>
    split at h
    · exact Or.inl ⟨bundle, h, hu⟩
    · simp only [ExtTreeMap.getElem?_insert, Std.compare_eq_iff_eq] at h
      split at h
      · next he =>
        subst he
        obtain rfl := some.inj h
        rcases mem_append.mp hu with hu | hu
        · cases hold : rows.reviews[work.peer]? with
          | none => simp [hold] at hu
          | some old => exact Or.inl ⟨old, rfl, by simpa [hold] using hu⟩
        · obtain ⟨part, -, rfl⟩ := List.mem_map.mp hu
          exact Or.inr ⟨rfl, rfl⟩
      · exact Or.inl ⟨bundle, h, hu⟩

/-! ## The maintenance queue -/

theorem injective_maintenance : Function.Injective maintenance :=
  fun _ _ h => maintenance.inj h

theorem injective_burst : Function.Injective burst := fun _ _ h => burst.inj h

theorem workNotice_eq_some :
    rows.workNotice key = some notice ↔ ∃ work, rows.work[key]? = some work ∧
      work.state = .pending ∧ notice = ⟨work.deadline, [key.2]⟩ := by
  simp only [workNotice, bind_eq_some_iff]
  refine exists_congr fun work => and_congr_right fun _ => ?_
  split
  · next hp => simp [hp, eq_comm]
  · next hp => simp [hp]

theorem workNotice_insert {work : RetainedMaintenance} : workNotice { rows with
      work := rows.work.insert key work, workDeadlines := dates, carriers := carriers } k =
      if k = key then if work.state = .pending then some ⟨work.deadline, [key.2]⟩ else none
      else rows.workNotice k := by
  simp only [workNotice, ExtTreeMap.getElem?_insert, Std.compare_eq_iff_eq]
  by_cases hk : k = key
  · subst hk
    simp
  · rw [if_neg (Ne.symm hk), if_neg hk]

theorem workNotice_erase : workNotice { rows with
      work := rows.work.erase key, workDeadlines := dates, carriers := carriers } k =
      if k = key then none else rows.workNotice k := by
  simp only [workNotice, getElem?_erase, Std.compare_eq_iff_eq]
  by_cases hk : k = key
  · subst hk
    simp
  · rw [if_neg (Ne.symm hk), if_neg hk]

namespace Inv

section

variable (h : rows.Inv blake3 seen)

include h

/-- Writing the maintenance queue leaves the federation queue as it is. -/
theorem of_work {work : OrderedMap MaintenanceKey RetainedMaintenance} (hcarriers : ∀ subject key,
      (subject, CarriedBy.burst key) ∈ carriers ↔ (subject, CarriedBy.burst key) ∈ rows.carriers)
    (hwork : Posted maintenance
      (workNotice { rows with work := work, workDeadlines := dates, carriers := carriers })
      dates carriers)
    (hblob : ∀ (key : MaintenanceKey) (w : RetainedMaintenance), work[key]? = some w →
      (w.blob.isSome ↔ w.state = .pending)) :
    Inv blake3 seen { rows with work := work, workDeadlines := dates, carriers := carriers } where
  work := hwork
  burst := h.burst.congr (fun _ => rfl) hcarriers
  blob := hblob
  keyed := h.keyed
  identified := h.identified
  receipt := h.receipt
  review := h.review

theorem blob_insert {work : RetainedMaintenance} (hwork : work.blob.isSome ↔ work.state = .pending)
    (k : MaintenanceKey) (w : RetainedMaintenance) (hk : (rows.work.insert key work)[k]? = some w) :
    w.blob.isSome ↔ w.state = .pending := by
  simp only [ExtTreeMap.getElem?_insert, Std.compare_eq_iff_eq] at hk
  split at hk
  · obtain rfl := some.inj hk
    exact hwork
  · exact h.blob k w hk

theorem retain (peerKey : Bytes) (op : MaintenanceOp) (arrival : Bytes) (now wait : ℕ) :
    (rows.retain peerKey op arrival now wait).Inv blake3 seen := by
  simp only [RetainedRows.retain]
  split
  · exact h
  · next hfree =>
    have hnone : rows.workNotice (peerKey, op.id) = none := by
      rw [eq_none_iff_forall_ne_some]
      intro notice hn
      obtain ⟨work, hw, hp, -⟩ := workNotice_eq_some.mp hn
      simp [hw, hp] at hfree
    refine h.of_work (fun _ _ => by simp) ?_ (h.blob_insert (by simp))
    refine h.work.post injective_maintenance ⟨deadlineAfter now wait, [op.id]⟩
      (fun date k => ?_) (fun k => ?_) (by simp [hnone])
    · refine (and_iff_left_of_imp fun hk => ?_).symm
      rintro rfl
      obtain ⟨notice, hn, -⟩ := (h.work.dated _ _).mp hk
      simp [hnone] at hn
    · rw [workNotice_insert]
      simp

/-- The rows of an operation that waits no more. -/
theorem dropWork {work : RetainedMaintenance} (hwork : rows.work[key]? = some work)
    {left : OrderedMap MaintenanceKey RetainedMaintenance} (hleft : ∀ k, workNotice { rows with
      work := left
      workDeadlines := rows.workDeadlines.erase (work.deadline, key)
      carriers := forget rows.carriers [key.2] (.maintenance key) } k =
        if k = key then none else rows.workNotice k)
    (hblob : ∀ (k : MaintenanceKey) (w : RetainedMaintenance), left[k]? = some w →
      (w.blob.isSome ↔ w.state = .pending)) : Inv blake3 seen { rows with
      work := left
      workDeadlines := rows.workDeadlines.erase (work.deadline, key)
      carriers := forget rows.carriers [key.2] (.maintenance key) } := by
  refine h.of_work (fun _ _ => by simp) ?_ hblob
  refine h.work.drop injective_maintenance ⟨work.deadline, [key.2]⟩ hleft ?_
  intro old hold
  obtain ⟨work', hwork', -, rfl⟩ := workNotice_eq_some.mp hold
  rw [some.inj (hwork.symm.trans hwork')]

theorem endWork (key : MaintenanceKey) {state : MaintenanceWorkState} (hstate : state ≠ .pending) :
    (rows.endWork key state).Inv blake3 seen := by
  simp only [RetainedRows.endWork]
  split
  · exact h
  · next work hwork =>
    split
    · refine h.dropWork hwork (fun k => ?_) (h.blob_insert (by simp [hstate]))
      rw [workNotice_insert, if_neg hstate]
    · exact h

theorem replay (key : MaintenanceKey) (window : Bytes) (step : IngestStep) :
    (rows.replay key window step).1.Inv blake3 seen := by
  simp only [RetainedRows.replay]
  split
  · exact h
  · next work hwork =>
    split
    · cases step with
      | quarantine terminal =>
        cases terminal with
        | true => exact h.endWork key (by decide)
        | false => exact h
      | landed =>
        refine h.dropWork hwork (fun k => workNotice_erase) fun k w hw => ?_
        rw [getElem?_erase] at hw
        split at hw
        · exact absurd hw (by simp)
        · exact h.blob k w hw
    · exact h

theorem expireWork (now : ℕ) :
    ∀ {keys : List MaintenanceKey}, (rows.expireWork keys now).Inv blake3 seen := by
  intro keys
  induction keys generalizing rows with
  | nil => exact h
  | cons key rest ih =>
    simp only [RetainedRows.expireWork, foldl_cons]
    split
    · exact ih (h.endWork key (by decide))
    · exact ih h

end

end Inv

/-! ## The federation queue -/

theorem burstNotice_eq_some {key : BurstKey} : rows.burstNotice key = some notice ↔
      ∃ work, rows.deferred[key]? = some work ∧ ⟨work.deadline, work.carried⟩ = notice := by
  simp [burstNotice]

/-- Every table a retired batch leaves, apart from its own rows. -/
theorem deferred_retireInTxn :
    (rows.retireInTxn blake3 work state).deferred = rows.deferred.erase (workKey blake3 work) := rfl

theorem mem_erase_deferred {key k : BurstKey} :
    k ∈ rows.deferred.erase key ↔ k ≠ key ∧ k ∈ rows.deferred := by
  rw [mem_erase, ne_eq, Std.compare_eq_iff_eq, eq_comm]

namespace Inv

variable (hlen : ∀ b, (blake3 b).length = 32) (hinj : Set.InjOn blake3 seen)

include hlen hinj in
/-- **A batch that ends** leaves no row behind, and its receipt says how. -/
theorem retireInTxn (h : rows.Inv blake3 seen) (hstate : state ≠ .pending)
    (hkey : Identified blake3 seen (workKey blake3 work)) (hfresh : rows.Fresh blake3 work) :
    (rows.retireInTxn blake3 work state).Inv blake3 seen where
  work := h.work.congr (fun _ => rfl) fun subject key => by
    show (subject, maintenance key) ∈ forget rows.carriers _ _ ↔ _
    simp
  burst := by
    refine h.burst.drop injective_burst ⟨work.deadline, work.carried⟩ (fun k => ?_) fun old hold => ?_
    · simp only [burstNotice, deferred_retireInTxn, getElem?_erase,
        Std.compare_eq_iff_eq]
      by_cases hk : k = workKey blake3 work
      · simp [hk]
      · rw [if_neg (Ne.symm hk), if_neg hk]
    · obtain ⟨saved, hsaved, rfl⟩ := burstNotice_eq_some.mp hold
      obtain ⟨hdeadline, hcarried⟩ := hfresh saved hsaved
      rw [hdeadline, hcarried]
  blob := h.blob
  keyed := by
    intro key saved hsaved
    rw [deferred_retireInTxn, getElem?_erase] at hsaved
    split at hsaved
    · exact absurd hsaved (by simp)
    · exact h.keyed key saved hsaved
  identified := fun key hmem => h.identified key (mem_erase_deferred.mp hmem).2
  receipt := by
    intro id
    simp only [deferred_retireInTxn, mem_erase_deferred]
    have hother (key : BurstKey) (hmem : key ∈ rows.deferred) (hid : key.2.2 = work.id) :
        key = workKey blake3 work :=
      (h.identified key hmem).unique blake3 hlen hinj hkey hid
    have hreceipt : (rows.retireInTxn blake3 work state).receipts[id]? =
        if id = work.id then rows.receipts[work.id]?.map fun row =>
          if row.state = .pending then { row with state := state } else row
        else rows.receipts[id]? := getElem?_settleReceipt
    rw [hreceipt]
    by_cases hid : id = work.id
    · subst hid
      rw [if_pos rfl]
      refine iff_of_false ?_ ?_
      · rintro ⟨row, hrow, hp⟩
        obtain ⟨old, -, rfl⟩ := map_eq_some_iff.mp hrow
        split at hp
        · exact hstate hp
        · next hne => exact hne hp
      · rintro ⟨key, ⟨hne, hmem⟩, hid⟩
        exact hne (hother key hmem hid)
    · rw [if_neg hid, h.receipt id]
      refine exists_congr fun key => and_congr_left fun hk => (and_iff_right ?_).symm
      rintro rfl
      exact hid hk.symm
  review := by
    intro peer bundle hbundle update hu
    obtain ⟨⟨old, hold, hu⟩, hne⟩ := of_mem_scrubReview hbundle hu
    obtain ⟨key, hmem, hpeer, hid⟩ := h.review peer old hold update hu
    refine ⟨key, mem_erase_deferred.mpr ⟨?_, hmem⟩, hpeer, hid⟩
    rintro rfl
    exact hne hpeer.symm hid.symm

theorem mem_putWork {k : BurstKey} :
    k ∈ (rows.putWork blake3 work).deferred ↔ k = workKey blake3 work ∨ k ∈ rows.deferred := by
  simp only [RetainedRows.putWork, mem_insert, Std.compare_eq_iff_eq]
  exact or_congr_left eq_comm

section

variable (h : rows.Inv blake3 seen)

include h

/-- **A batch that is put**, or put again with all it carried, is posted; the receipts and the
reviews are whatever goes with the new rows. -/
theorem putWork (work : DeferredWork) (hkey : Identified blake3 seen (workKey blake3 work))
    (hold : ∀ saved, rows.deferred[workKey blake3 work]? = some saved →
      ∀ id ∈ saved.carried, id ∈ work.carried) {receipts : OrderedMap Bytes FederationBurstReceipt}
    {reviews : OrderedMap Bytes FederationBurstReviewBundle}
    (hreceipt : ∀ id : Bytes, (∃ row, receipts[id]? = some row ∧ row.state = .pending) ↔
      ∃ key ∈ (rows.putWork blake3 work).deferred, key.2.2 = id)
    (hreview : ∀ (peer : Bytes) (bundle : FederationBurstReviewBundle),
      reviews[peer]? = some bundle → ∀ update ∈ bundle.updates,
      ∃ key ∈ (rows.putWork blake3 work).deferred, key.1 = peer ∧ key.2.2 = update.requestRef) :
    Inv blake3 seen
      { rows.putWork blake3 work with receipts := receipts, reviews := reviews } where
  work := h.work.congr (fun _ => rfl) fun subject key => by
    show (subject, maintenance key) ∈ register rows.carriers _ _ ↔ _
    simp
  burst := by
    refine h.burst.post injective_burst ⟨work.deadline, work.carried⟩ (fun date k => ?_)
      (fun k => ?_) fun old hsome => ?_
    · have hdated (date : ℕ) := h.burst.dated date (workKey blake3 work)
      cases hsaved : rows.deferred[workKey blake3 work]? with
      | none =>
        refine (and_iff_left_of_imp fun hk => ?_).symm
        rintro rfl
        simp [hdated, burstNotice, hsaved] at hk
      | some saved =>
        simp only [hsaved, burstNotice, map_some] at hdated
        by_cases hd : saved.deadline = work.deadline
        · simp only [hd, ne_eq, not_true_eq_false, if_false]
          refine (and_iff_left_of_imp fun hk => ?_).symm
          rintro rfl
          obtain ⟨_, ⟨⟩, hdate⟩ := (hdated date).mp hk
          exact hdate.symm.trans hd
        · simp only [ne_eq, hd, not_false_eq_true, if_true, ExtTreeSet.mem_erase,
            Std.compare_eq_iff_eq, Prod.mk.injEq]
          constructor
          · rintro ⟨hne, hmem⟩
            refine ⟨hmem, ?_⟩
            rintro rfl
            obtain ⟨_, ⟨⟩, hdate⟩ := (hdated date).mp hmem
            exact absurd ⟨hdate, rfl⟩ hne
          · rintro ⟨hmem, hk⟩
            exact ⟨fun ⟨hdate, he⟩ => hd (hdate.trans (hk he.symm)), hmem⟩
    · simp only [burstNotice, RetainedRows.putWork, ExtTreeMap.getElem?_insert,
        Std.compare_eq_iff_eq]
      by_cases hk : k = workKey blake3 work
      · simp [hk]
      · rw [if_neg (Ne.symm hk), if_neg hk]
    · obtain ⟨saved, hsaved, rfl⟩ := burstNotice_eq_some.mp hsome
      exact hold saved hsaved
  blob := h.blob
  keyed := by
    intro key saved hsaved
    simp only [RetainedRows.putWork, ExtTreeMap.getElem?_insert, Std.compare_eq_iff_eq] at hsaved
    split at hsaved
    · next he => exact some.inj hsaved ▸ he
    · exact h.keyed key saved hsaved
  identified := by
    intro key hmem
    rcases mem_putWork.mp hmem with rfl | hmem
    · exact hkey
    · exact h.identified key hmem
  receipt := hreceipt
  review := hreview

/-- A new batch, with the receipt and the review copies its admission writes. -/
theorem retainBatch (work : DeferredWork) (hkey : Identified blake3 seen (workKey blake3 work))
    (hnone : rows.deferred[workKey blake3 work]? = none) (row : FederationBurstReceipt)
    (hrow : row.state = .pending) : Inv blake3 seen (retainReview { rows.putWork blake3 work with
      receipts := rows.receipts.insert work.id row } work) := by
  refine h.putWork work hkey (fun saved hs => absurd (hnone.symm.trans hs) (by simp)) (fun id => ?_)
    fun peer bundle hbundle update hu => ?_
  · simp only [ExtTreeMap.getElem?_insert, Std.compare_eq_iff_eq, mem_putWork]
    by_cases hid : work.id = id
    · subst hid
      rw [if_pos rfl]
      exact iff_of_true ⟨row, rfl, hrow⟩ ⟨workKey blake3 work, Or.inl rfl, rfl⟩
    · rw [if_neg hid, h.receipt id]
      refine exists_congr fun key => and_congr_left fun hk => (or_iff_right ?_).symm
      rintro rfl
      exact hid hk
  · rcases of_mem_retainReview hbundle hu with ⟨old, hold, hu⟩ | ⟨rfl, hid⟩
    · obtain ⟨key, hmem, hpeer, hid⟩ := h.review peer old hold update hu
      exact ⟨key, mem_putWork.mpr (Or.inr hmem), hpeer, hid⟩
    · exact ⟨workKey blake3 work, mem_putWork.mpr (Or.inl rfl), rfl, hid.symm⟩

/-- A batch that is stored, put again without its hold. -/
theorem releaseBatch (hsaved : rows.deferred[workKey blake3 work]? = some work) :
    (rows.putWork blake3 { work with isolatedUpdate := none }).Inv blake3 seen := by
  have hmem : workKey blake3 work ∈ rows.deferred := mem_iff_isSome_getElem?.mpr
    (by rw [hsaved]; rfl)
  have hsame (k : BurstKey) :
      k ∈ (rows.putWork blake3 { work with isolatedUpdate := none }).deferred ↔
        k ∈ rows.deferred := by
    rw [mem_putWork]
    refine or_iff_right_of_imp ?_
    rintro rfl
    exact hmem
  refine h.putWork { work with isolatedUpdate := none } (h.identified _ hmem)
    (fun saved hs => ?_) (fun id => ?_) fun peer bundle hbundle update hu => ?_
  · obtain rfl := some.inj (hsaved.symm.trans hs)
    exact fun id hid => hid
  · rw [h.receipt id]
    exact exists_congr fun key => and_congr_left fun _ => (hsame key).symm
  · obtain ⟨key, hk, hkey⟩ := h.review peer bundle hbundle update hu
    exact ⟨key, (hsame key).mpr hk, hkey⟩

theorem of_completed (completed : OrderedSet (Bytes × Bytes)) :
    Inv blake3 seen { rows with completed := completed } :=
  ⟨h.work, h.burst, h.blob, h.keyed, h.identified, h.receipt, h.review⟩

end

end Inv

/-! ## The calls -/

theorem loadWork_eq_ok {saved : Option DeferredWork} (h : rows.loadWork blake3 work = .ok saved) :
    rows.deferred[workKey blake3 work]? = saved := by
  simp only [loadWork] at h
  cases hrow : rows.deferred[workKey blake3 work]? with
  | none =>
    rw [hrow] at h
    exact ok.inj h
  | some row =>
    rw [hrow] at h
    simp only at h
    split_ifs at h
    exact ok.inj h

theorem endedIn_ne_pending (h : endedIn work authority now = some state) : state ≠ .pending := by
  simp only [endedIn] at h
  split_ifs at h <;> (obtain rfl := some.inj h; decide)

theorem settleReceiptOf_eq_ok (h : rows.settleReceiptOf peer id state = .ok rows') :
    rows' = rows.settleReceipt id state := by
  simp only [settleReceiptOf, bind_eq_ok, pure_eq_ok] at h
  obtain ⟨_, -, rfl⟩ := h
  rfl

namespace Inv

variable (hlen : ∀ b, (blake3 b).length = 32) (hinj : Set.InjOn blake3 seen)

include hlen hinj

/-- A stored batch that ends. -/
theorem retireSaved (h : rows.Inv blake3 seen) {key : BurstKey} {saved : DeferredWork}
    (hsaved : rows.deferred[key]? = some saved) (hstate : state ≠ .pending) :
    (rows.retireInTxn blake3 saved state).Inv blake3 seen := by
  have hmem : key ∈ rows.deferred := mem_iff_isSome_getElem?.mpr (by rw [hsaved]; rfl)
  have hkey := h.keyed key saved hsaved
  refine h.retireInTxn hlen hinj hstate (hkey ▸ h.identified key hmem) fun other hother => ?_
  obtain rfl := some.inj (hsaved.symm.trans (hkey ▸ hother))
  exact ⟨rfl, rfl⟩

theorem retire (h : rows.Inv blake3 seen)
    (hretire : rows.retire blake3 work authority now state = .ok rows') :
    rows'.Inv blake3 seen := by
  simp only [RetainedRows.retire, bind_eq_ok] at hretire
  obtain ⟨saved, hload, hretire⟩ := hretire
  cases saved with
  | none => exact (ok.inj hretire) ▸ h
  | some saved =>
    simp only at hretire
    split at hretire
    · next hended =>
      exact (ok.inj hretire) ▸
        h.retireSaved hlen hinj (loadWork_eq_ok hload) (endedIn_ne_pending hended)
    · exact (ok.inj hretire) ▸ h

variable {reject : Bool} {row : EntityId × CarriedBy} {digest arrival : Bytes}
  {peerOf : DeferredWork → Except Error (FederationPeer × Bytes)} {parts : Option IsolatedParts}
  {wait : ℕ} {outcome : FederationBurstOutcome} {decision : FederationBurstDecision}

omit hlen hinj in
theorem admitAfresh (h : rows.Inv blake3 seen) {work' : DeferredWork}
    (hkey : Identified blake3 seen (workKey blake3 work))
    (hnone : rows.deferred[workKey blake3 work]? = none)
    (hadmitted : rows.admitAfresh blake3 peer work parts arrival now wait outcome =
      .ok (rows', decision, work')) :
    rows'.Inv blake3 seen ∧ workKey blake3 work' = workKey blake3 work := by
  simp only [RetainedRows.admitAfresh, bind_eq_ok] at hadmitted
  obtain ⟨receipt, -, hadmitted⟩ := hadmitted
  split at hadmitted
  · obtain ⟨rfl, rfl, rfl⟩ := ok.inj hadmitted
    exact ⟨h, rfl⟩
  · obtain ⟨rfl, rfl, rfl⟩ := ok.inj hadmitted
    refine ⟨h.retainBatch _ ?_ ?_ _ rfl, rfl⟩
    · exact hkey
    · exact hnone

/-- **Admission** keeps the rows, and hands out a batch of a request that was seen. -/
theorem admitWork (h : rows.Inv blake3 seen) {window : Bytes} {kind : WorkKind} {payload : Bytes}
    {carried : List EntityId} {replayReady : Bool}
    (hseen : identityInput blake3 peer window kind payload ∈ seen) (hpeer : peer.digest.length = 32)
    (hadmitted : rows.admitWork blake3 peer window kind payload carried parts authority arrival now
      wait replayReady outcome = .ok (rows', decision, work)) :
    rows'.Inv blake3 seen ∧ Identified blake3 seen (workKey blake3 work) := by
  have hkey : Identified blake3 seen (workKey blake3 (newWork blake3 peer window kind payload)) :=
    ⟨peer, window, kind, payload, hseen, hpeer, rfl⟩
  simp only [RetainedRows.admitWork, bind_eq_ok] at hadmitted
  obtain ⟨saved, hload, hadmitted⟩ := hadmitted
  have hrow := loadWork_eq_ok hload
  cases saved with
  | none =>
    have hafresh := fun hkey hnone => h.admitAfresh hkey hnone hadmitted
    obtain ⟨hinv, hsame⟩ := hafresh hkey hrow
    exact ⟨hinv, hsame ▸ hkey⟩
  | some saved =>
    have hsaved := h.keyed _ _ hrow
    simp only at hadmitted
    split at hadmitted
    · next state hended =>
      have hretired := h.retireSaved hlen hinj hrow (endedIn_ne_pending hended)
      have hafresh := fun hkey hnone => hretired.admitAfresh hkey hnone hadmitted
      obtain ⟨hinv, hsame⟩ := hafresh hkey (by
        rw [deferred_retireInTxn, hsaved]
        exact getElem?_erase_self)
      exact ⟨hinv, hsame ▸ hkey⟩
    · split at hadmitted <;>
      · obtain ⟨rfl, rfl, rfl⟩ := ok.inj hadmitted
        exact ⟨h, hsaved ▸ hkey⟩

/-- **A settle** of a batch that is as it was taken. -/
theorem settle (h : rows.Inv blake3 seen) {work : DeferredWork} {peer : FederationPeer}
    {structuralFailure : Bool} {rows' : RetainedRows}
    (hkey : Identified blake3 seen (workKey blake3 work)) (hfresh : rows.Fresh blake3 work)
    (hsettle : rows.settle blake3 work peer structuralFailure = .ok rows') :
    rows'.Inv blake3 seen := by
  simp only [RetainedRows.settle, bind_eq_ok, pure_eq_ok] at hsettle
  obtain ⟨-, -, settled, hsettled, rfl⟩ := hsettle
  obtain rfl := settleReceiptOf_eq_ok hsettled
  have hstate : (if structuralFailure then FederationBurstWorkState.rejected else .imported) ≠
      .pending := by cases structuralFailure <;> decide
  have hretired := h.retireInTxn hlen hinj hstate hkey hfresh
  split
  · exact hretired.of_completed _
  · exact hretired

/-- One batch of a review: only its own row moves. -/
theorem settleReviewed (h : rows.Inv blake3 seen)
    (hsaved : rows.deferred[workKey blake3 work]? = some work)
    (hsettle : rows.settleReviewed blake3 reject peer authority now work = .ok rows') :
    rows'.Inv blake3 seen ∧
      ∀ k ≠ workKey blake3 work, rows'.deferred[k]? = rows.deferred[k]? := by
  have herase {state : FederationBurstWorkState} (k : BurstKey) (hk : k ≠ workKey blake3 work) :
      (rows.retireInTxn blake3 work state).deferred[k]? = rows.deferred[k]? := by
    rw [deferred_retireInTxn, getElem?_erase, if_neg]
    rw [Std.compare_eq_iff_eq]
    exact Ne.symm hk
  simp only [RetainedRows.settleReviewed, bind_eq_ok] at hsettle
  obtain ⟨receipt, -, hsettle⟩ := hsettle
  split at hsettle
  · split at hsettle
    · obtain rfl := settleReceiptOf_eq_ok hsettle
      exact ⟨h.retireSaved hlen hinj hsaved (by decide), herase⟩
    · split at hsettle
      · next hended =>
        obtain rfl := ok.inj hsettle
        exact ⟨h.retireSaved hlen hinj hsaved (endedIn_ne_pending hended), herase⟩
      · obtain rfl := ok.inj hsettle
        refine ⟨h.releaseBatch hsaved, fun k hk => ?_⟩
        simp only [RetainedRows.putWork, ExtTreeMap.getElem?_insert, Std.compare_eq_iff_eq]
        exact if_neg (Ne.symm hk)
  · obtain rfl := ok.inj hsettle
    exact ⟨h, fun _ _ => rfl⟩

/-- The batches of a review, each still stored as it was listed. -/
theorem settleReviewed_foldlM :
    ∀ {works : List DeferredWork} {rows rows' : RetainedRows}, rows.Inv blake3 seen →
      (works.map (workKey blake3)).Nodup →
      (∀ work ∈ works, rows.deferred[workKey blake3 work]? = some work) →
      works.foldlM (fun rows work => do
        let (peer, authority) ← peerOf work
        ensure (peer.digest = digest) (.corruptedIndex "federation deferred work")
        rows.settleReviewed blake3 reject peer authority now work) rows = .ok rows' →
      rows'.Inv blake3 seen
  | [], _, _, h, _, _, hfold => (ok.inj hfold) ▸ h
  | work :: rest, rows, rows', h, hnodup, hsaved, hfold => by
    rw [foldlM_cons, bind_eq_ok] at hfold
    obtain ⟨next, hone, hfold⟩ := hfold
    simp only [bind_eq_ok] at hone
    obtain ⟨⟨peer, authority⟩, -, -, -, hone⟩ := hone
    rw [forall_mem_cons] at hsaved
    rw [map_cons, nodup_cons] at hnodup
    obtain ⟨hinv, hframe⟩ := h.settleReviewed hlen hinj hsaved.1 hone
    refine settleReviewed_foldlM hinv hnodup.2 (fun other hother => ?_) hfold
    rw [hframe _ fun he => hnodup.1 (List.mem_map.mpr ⟨other, hother, he⟩)]
    exact hsaved.2 other hother

theorem settleReview (h : rows.Inv blake3 seen)
    (hsettle : rows.settleReview blake3 reject digest now peerOf = .ok rows') :
    rows'.Inv blake3 seen := by
  simp only [RetainedRows.settleReview, bind_eq_ok] at hsettle
  obtain ⟨-, -, hfold⟩ := hsettle
  have hlisted (row : BurstKey × DeferredWork)
      (hrow : row ∈ rows.deferred.toList.filter fun row => row.1.1 = digest) :
      rows.deferred[row.1]? = some row.2 ∧ workKey blake3 row.2 = row.1 := by
    have hget := mem_toList_iff_getElem?_eq_some.mp (List.mem_filter.mp hrow).1
    exact ⟨hget, h.keyed _ _ hget⟩
  refine settleReviewed_foldlM hlen hinj h ?_ (fun work hwork => ?_) hfold
  · have hmap : (((rows.deferred.toList.filter fun row => row.1.1 = digest).map (·.2)).map
        (workKey blake3)) = (rows.deferred.toList.filter fun row => row.1.1 = digest).map (·.1) := by
      rw [List.map_map]
      exact map_congr_left fun row hrow => (hlisted row hrow).2
    rw [hmap]
    have hkeys : (rows.deferred.toList.map (·.1)).Nodup := by
      rw [map_fst_toList_eq_keys]
      exact nodup_keys
    exact (filter_sublist.map _).nodup hkeys
  · obtain ⟨row, hrow, rfl⟩ := List.mem_map.mp hwork
    obtain ⟨hget, hkey⟩ := hlisted row hrow
    rw [hkey, hget]

omit hlen hinj in
/-- A carrier row whose item no longer waits may be dropped. -/
theorem erase_carrier (h : rows.Inv blake3 seen)
    (hwork : ∀ key, row.2 = .maintenance key → rows.workNotice key = none)
    (hburst : ∀ key, row.2 = .burst key → rows.burstNotice key = none) :
    Inv blake3 seen { rows with carriers := rows.carriers.erase row } where
  work := h.work.congr (fun _ => rfl) fun subject key => by
    rw [ExtTreeSet.mem_erase]
    refine and_iff_right_of_imp fun hmem heq => ?_
    rw [Std.compare_eq_iff_eq] at heq
    obtain ⟨notice, hnotice, -⟩ := (h.work.carried _ _).mp hmem
    exact absurd hnotice (by rw [hwork key (by rw [heq])]; nofun)
  burst := h.burst.congr (fun _ => rfl) fun subject key => by
    rw [ExtTreeSet.mem_erase]
    refine and_iff_right_of_imp fun hmem heq => ?_
    rw [Std.compare_eq_iff_eq] at heq
    obtain ⟨notice, hnotice, -⟩ := (h.burst.carried _ _).mp hmem
    exact absurd hnotice (by rw [hburst key (by rw [heq])]; nofun)
  blob := h.blob
  keyed := h.keyed
  identified := h.identified
  receipt := h.receipt
  review := h.review

omit hlen hinj in
theorem workNotice_endWork {state : MaintenanceWorkState} (hstate : state ≠ .pending) :
    (rows.endWork key state).workNotice key = none := by
  simp only [RetainedRows.endWork]
  split
  · next hrow => simp [workNotice, hrow]
  · next work hrow =>
    split
    · rw [workNotice_insert, if_pos rfl, if_neg hstate]
    · next hp => simp [workNotice, hrow, hp]

section

variable (h : rows.Inv blake3 seen)

include h

theorem eraseBurst {key : BurstKey} (herase : rows.eraseBurst blake3 key = .ok rows') :
    rows'.Inv blake3 seen ∧ rows'.burstNotice key = none := by
  simp only [RetainedRows.eraseBurst] at herase
  split at herase
  · next hrow =>
    obtain rfl := ok.inj herase
    exact ⟨h, by simp [burstNotice, hrow]⟩
  · next work hrow =>
    split at herase
    · next hkey =>
      obtain rfl := ok.inj herase
      refine ⟨h.retireSaved hlen hinj hrow (by decide), ?_⟩
      rw [burstNotice, deferred_retireInTxn, hkey, getElem?_erase_self]
      rfl
    · exact absurd herase (by simp)

/-- One scrubbed item, and the row that named it. -/
theorem eraseCarried (herase : rows.eraseCarried blake3 row.2 = .ok rows') :
    Inv blake3 seen { rows' with carriers := rows'.carriers.erase row } := by
  obtain ⟨id, key | key | receipt⟩ := row
  · obtain ⟨hinv, hnone⟩ := h.eraseBurst hlen hinj herase
    exact hinv.erase_carrier nofun fun _ hk => burst.inj hk ▸ hnone
  · obtain rfl := ok.inj herase
    exact (h.endWork key (by decide)).erase_carrier
      (fun _ hk => maintenance.inj hk ▸ workNotice_endWork (by decide)) nofun
  · obtain rfl := ok.inj herase
    exact h.erase_carrier nofun nofun

/-- **An erase** scrubs every item that carries the row. -/
theorem eraseRetainedCopies {id : EntityId}
    (herase : rows.eraseRetainedCopies blake3 id = .ok rows') : rows'.Inv blake3 seen := by
  refine foldlM_preserves (fun rows => rows.Inv blake3 seen) ?_ herase h
  intro rows row rows' h hstep
  simp only [bind_eq_ok, pure_eq_ok] at hstep
  obtain ⟨scrubbed, hscrub, rfl⟩ := hstep
  exact h.eraseCarried hlen hinj hscrub

omit hlen hinj in
theorem erase_date {row : ℕ × BurstKey}
    (hrow : ∀ old, rows.burstNotice row.2 = some old → old.date ≠ row.1) :
    Inv blake3 seen { rows with burstDeadlines := rows.burstDeadlines.erase row } :=
  ⟨h.work, h.burst.erase_date hrow, h.blob, h.keyed, h.identified, h.receipt, h.review⟩

/-- **An expiry** drops no note of a batch that waits on. -/
theorem expireNoted {row : ℕ × BurstKey} (hrow : row.1 ≤ now) :
    (rows.expireNoted blake3 now row).Inv blake3 seen := by
  cases hsaved : rows.deferred[row.2]? with
  | none =>
    simp only [RetainedRows.expireNoted, hsaved]
    exact h.erase_date (by simp [burstNotice, hsaved])
  | some work =>
    have hkey := h.keyed _ _ hsaved
    simp only [RetainedRows.expireNoted, hsaved]
    by_cases hdue : work.deadline ≤ now
    · rw [if_pos ⟨hkey, hdue⟩]
      refine (h.retireSaved hlen hinj hsaved (by decide)).erase_date fun old hold => ?_
      rw [burstNotice, deferred_retireInTxn, hkey, getElem?_erase_self] at hold
      exact absurd hold nofun
    · rw [if_neg fun hand => hdue hand.2]
      refine h.erase_date fun old hold hdate => hdue ?_
      rw [burstNotice, hsaved] at hold
      obtain rfl := some.inj hold
      exact (hdate.trans_le hrow :)

theorem expireRetained (expired : List (ℕ × BurstKey)) (now : ℕ) :
    (rows.expireRetained blake3 expired now).Inv blake3 seen := by
  have hall : ∀ row ∈ expired.filter (·.1 ≤ now), row.1 ≤ now := fun row hrow =>
    of_decide_eq_true (List.mem_filter.mp hrow).2
  simp only [RetainedRows.expireRetained]
  generalize expired.filter (·.1 ≤ now) = due at hall
  induction due generalizing rows with
  | nil => exact h
  | cons row rest ih =>
    rw [forall_mem_cons] at hall
    exact ih (h.expireNoted hlen hinj hall.1) hall.2

end

end Inv

end RetainedRows

end Digest

end Oneiron
