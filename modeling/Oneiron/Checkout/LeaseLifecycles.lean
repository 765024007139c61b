import Oneiron.Checkout.LeaseFencing

/-!
# Checkout/LeaseLifecycles — what every run of a checkout's transactions keeps

Epochs rise over all lifecycles of a checkout, for the highest it ever had outlives its row in the
tombstone.  So a fence is one grant's for ever, and what is recorded under it (a settlement, a
collection authorised) is of that one lease.
-/

namespace Oneiron

open List CheckoutTables

variable {blake3 : Bytes → Digest}

/-- The epochs a checkout handed out, the latest first, each with its holder. -/
def grants (id : CheckoutId) (log : List LeaseEvent) : List CheckoutLeaseFence :=
  log.filterMap fun event =>
    match event.2 with
    | .granted act => if act.checkoutId = id then some act.fence else none
    | _ => none

/-- The checkout and the epoch of each new settlement, the latest first. -/
def settlements (log : List LeaseEvent) : List (CheckoutId × U64) :=
  log.filterMap fun event =>
    match event.2 with
    | .settled receipt true => some (receipt.checkoutId, receipt.epoch)
    | _ => none

section Log

variable {id : CheckoutId} {event : LeaseEvent} {log : List LeaseEvent} {act : CheckoutLeaseAct}

theorem grants_cons_of_granted (h : event.2 = .granted act) (hid : act.checkoutId = id) :
    grants id (event :: log) = act.fence :: grants id log := by
  rw [grants, filterMap_cons, h]
  simp only [hid, if_true]
  rfl

theorem grants_cons_of_not (h : ∀ act, event.2 = .granted act → act.checkoutId ≠ id) :
    grants id (event :: log) = grants id log := by
  rw [grants, filterMap_cons]
  cases hanswer : event.2 with
  | granted act => simp only [if_neg (h act hanswer)]; rfl
  | _ => rfl

theorem settlements_cons_of_not (h : ∀ receipt, event.2 ≠ .settled receipt true) :
    settlements (event :: log) = settlements log := by
  rw [settlements, filterMap_cons]
  split
  · rfl
  · next hsome =>
    split at hsome
    · next receipt hevent => exact absurd hevent (h receipt)
    · cases hsome

end Log

/-- What holds of a vault in every run. -/
structure Fenced (blake3 : Bytes → Digest) (s : CheckoutVault) : Prop where
  filed : s.tables.Filed
  readable : ∀ id act, s.tables.lease id = some act → act.Readable
  /-- Epochs handed out are no higher than the highest on record. -/
  below : ∀ id, ∀ grant ∈ grants id s.log, grant.epoch.val ≤ s.tables.highest id
  rising : ∀ id, (grants id s.log).Pairwise fun newer older => older.epoch.val < newer.epoch.val
  standing : ∀ id act, s.tables.lease id = some act → (grants id s.log).head? = some act.fence
  authorized : ∀ id act, s.tables.lease id = some act → act.state = .settling →
    ∃ event ∈ s.log, Authorizes act.fence event
  finishes : ∀ newer older fence now act,
    s.log = newer ++ (.finishTeardown fence now, .retired act) :: older →
      ∃ event ∈ older, Authorizes fence event
  receipts : ∀ id epoch receipt, s.tables.settlement id epoch = some receipt →
    receipt.checkoutId = id ∧ receipt.epoch = epoch ∧
      receipt.resultIdentity =
        checkoutResultIdentity blake3 id epoch receipt.observedRef receipt.resultRef
  once : (settlements s.log).Nodup
  settled : ∀ id epoch, (id, epoch) ∈ settlements s.log ↔ (s.tables.settlement id epoch).isSome

variable {tables after : CheckoutTables} {op : LeaseOp} {answer : LeaseAnswer}
  {fence : CheckoutLeaseFence}

namespace Fenced

variable {s : CheckoutVault} {op : LeaseOp} {answer : LeaseAnswer} {after : CheckoutTables}

theorem empty : Fenced blake3 ⟨.empty, []⟩ where
  filed _ _ h := by cases h
  readable _ _ h := by cases h
  below := nofun
  rising _ := .nil
  standing _ _ h := by cases h
  authorized _ _ h := by cases h
  finishes newer _ _ _ _ h := by cases newer <;> cases h
  receipts := nofun
  once := .nil
  settled _ _ := ⟨nofun, nofun⟩

theorem filed_after (h : Fenced blake3 s) (hdoes : Does blake3 s.tables op after answer) :
    after.Filed := by
  intro id act hact
  cases hdoes.row_move h.filed id with
  | same hrow => exact h.filed id act (hrow ▸ hact)
  | granted _ hid hrow =>
    rw [hrow] at hact
    cases hact
    exact hid
  | @kept old next hold hrow _ hfence =>
    rw [hrow] at hact
    cases hact
    have hid : act.checkoutId = old.checkoutId := congrArg CheckoutLeaseFence.checkoutId hfence
    exact hid.trans (h.filed id old hold)
  | retired _ _ _ hrow =>
    rw [hrow] at hact
    cases hact

variable {id : CheckoutId} {act : CheckoutLeaseAct}

section

variable (h : Fenced blake3 s)

include h

variable (hdoes : Does blake3 s.tables op after answer)
include hdoes

theorem readable_after (hact : after.lease id = some act) : act.Readable := by
  cases hdoes.row_move h.filed id with
  | same hrow => exact h.readable id act (hrow ▸ hact)
  | granted _ _ hrow hgrants =>
    rw [hrow] at hact
    cases hact
    exact hgrants.readable
  | kept _ hrow _ _ _ hreads =>
    rw [hrow] at hact
    cases hact
    exact hreads
  | retired _ _ _ hrow =>
    rw [hrow] at hact
    cases hact

/-- **The highest epoch on record never falls**, and a grant is past it. -/
theorem highest_le (id : CheckoutId) : s.tables.highest id ≤ after.highest id := by
  cases hdoes.row_move h.filed id with
  | same hrow htombstone => rw [highest, highest, hrow, htombstone]
  | granted _ _ hrow _ hlt =>
    refine hlt.le.trans ?_
    rw [highest, hrow]
    exact le_rfl
  | kept hold hrow _ hfence =>
    rw [highest, highest, hold, hrow]
    exact (congrArg (·.epoch.val) hfence).ge
  | retired hold _ _ _ hle =>
    rw [highest, hold]
    exact hle

theorem grants_after (id : CheckoutId) :
    (∀ grant ∈ grants id ((op, answer) :: s.log), grant.epoch.val ≤ after.highest id) ∧
      ((grants id ((op, answer) :: s.log)).Pairwise fun newer older =>
        older.epoch.val < newer.epoch.val) ∧
      ∀ act, after.lease id = some act →
        (grants id ((op, answer) :: s.log)).head? = some act.fence := by
  have hle := h.highest_le hdoes id
  have hold (grant : CheckoutLeaseFence) (hgrant : grant ∈ grants id s.log) :
      grant.epoch.val ≤ after.highest id := (h.below id grant hgrant).trans hle
  cases hdoes.row_move h.filed id with
  | same hrow _ hnot =>
    rw [grants_cons_of_not hnot]
    exact ⟨hold, h.rising id, fun act hact => h.standing id act (hrow ▸ hact)⟩
  | @granted act hgranted hid hrow _ hlt =>
    rw [grants_cons_of_granted hgranted hid]
    have hhighest : after.highest id = act.epoch.val := by rw [highest, hrow]; rfl
    refine ⟨forall_mem_cons.mpr ⟨hhighest.ge, hold⟩, pairwise_cons.mpr ⟨?_, h.rising id⟩,
      fun act' hact => ?_⟩
    · exact fun grant hgrant => (h.below id grant hgrant).trans_lt hlt
    · rw [hrow] at hact
      cases hact
      rfl
  | kept hrow hnext _ hfence _ _ hnot =>
    rw [grants_cons_of_not fun act hact => absurd hact (hnot act)]
    refine ⟨hold, h.rising id, fun act hact => ?_⟩
    rw [hnext] at hact
    cases hact
    rw [hfence]
    exact h.standing id _ hrow
  | retired _ _ _ hnone _ hnot =>
    rw [grants_cons_of_not fun act hact => absurd hact (hnot act)]
    exact ⟨hold, h.rising id, fun act hact => by rw [hnone] at hact; cases hact⟩

/-- **A row settles towards its collection by a `Prepare` that found every condition met.** -/
theorem authorized_after (hact : after.lease id = some act) (hsettling : act.state = .settling) :
    ∃ event ∈ (op, answer) :: s.log, Authorizes act.fence event := by
  cases hdoes.row_move h.filed id with
  | same hrow =>
    obtain ⟨event, hmem, hevent⟩ := h.authorized id act (hrow ▸ hact) hsettling
    exact ⟨event, mem_cons_of_mem _ hmem, hevent⟩
  | granted _ _ hrow hgrants =>
    rw [hrow] at hact
    cases hact
    rw [hgrants.state] at hsettling
    cases hsettling
  | kept _ hrow _ _ _ _ _ hauthorizes =>
    rw [hrow] at hact
    cases hact
    exact ⟨_, mem_cons_self, hauthorizes hsettling⟩
  | retired _ _ _ hnone =>
    rw [hnone] at hact
    cases hact

theorem finishes_after {newer older : List LeaseEvent} {now : U64}
    (heq : (op, answer) :: s.log = newer ++ (.finishTeardown fence now, .retired act) :: older) :
    ∃ event ∈ older, Authorizes fence event := by
  cases newer with
  | cons first newer => exact h.finishes newer older fence now act (cons.inj heq).2
  | nil =>
    obtain ⟨hevent, rfl⟩ := cons.inj heq
    cases hevent
    cases hdoes with
    | unchanged _ hnot => exact absurd rfl (hnot act)
    | retired hrow hepoch hholder hsettling =>
      have hfence : act.fence = fence := by
        rw [CheckoutLeaseAct.fence, h.filed _ _ hrow, hepoch, hholder]
      exact hfence ▸ h.authorized _ _ hrow hsettling

/-- A transaction that settles nothing keeps what was settled. -/
theorem settlements_after : (∀ id epoch receipt, after.settlement id epoch = some receipt →
      receipt.checkoutId = id ∧ receipt.epoch = epoch ∧ receipt.resultIdentity =
        checkoutResultIdentity blake3 id epoch receipt.observedRef receipt.resultRef) ∧
    (settlements ((op, answer) :: s.log)).Nodup ∧
    ∀ id epoch, (id, epoch) ∈ settlements ((op, answer) :: s.log) ↔
      (after.settlement id epoch).isSome := by
  have hkept := And.intro h.receipts (And.intro h.once h.settled)
  cases hdoes with
  | unchanged _ _ hnot =>
    rw [settlements_cons_of_not hnot]
    exact hkept
  | claimed | reclaimed | rewritten | prepared | retired =>
    rw [settlements_cons_of_not (by rintro _ ⟨⟩)]
    exact hkept
  | @settled r act next receipt _ hnone hreceipt =>
    have hlog : settlements ((.settle r, .settled receipt true) :: s.log) =
        (act.checkoutId, act.epoch) :: settlements s.log := by
      rw [settlements, filterMap_cons]
      simp only [hreceipt.checkoutId, hreceipt.epoch]
      rfl
    have hput (id : CheckoutId) (epoch : U64) :
        ((s.tables.putSettlement receipt).storeAct next).settlement id epoch =
          if id = act.checkoutId ∧ epoch = act.epoch then some receipt
          else s.tables.settlement id epoch := by
      rw [settlement_storeAct, putSettlement, hreceipt.checkoutId,
        hreceipt.epoch]
      by_cases hid : id = act.checkoutId
      · subst hid
        by_cases hepoch : epoch = act.epoch
        · subst hepoch
          simp
        · simp [hepoch]
      · simp [hid]
    rw [hlog]
    refine ⟨fun id epoch stored hstored => ?_, nodup_cons.mpr ⟨fun hmem => ?_, h.once⟩,
      fun id epoch => ?_⟩
    · rw [hput] at hstored
      split at hstored
      next hkey =>
        cases hstored
        exact ⟨hreceipt.checkoutId.trans hkey.1.symm, hreceipt.epoch.trans hkey.2.symm,
          by rw [hreceipt.identity, hkey.1, hkey.2]⟩
      · exact h.receipts id epoch stored hstored
    · have hsome := (h.settled _ _).mp hmem
      rw [hnone] at hsome
      cases hsome
    · rw [hput, mem_cons, Prod.mk.injEq, h.settled]
      split
      next hkey => simp [hkey]
      next hkey => simp [hkey]

end

/-- **Every step keeps them.** -/
theorem step {t : CheckoutVault} (h : Fenced blake3 s) (hstep : CheckoutStep blake3 s op t) :
    Fenced blake3 t := by
  cases hstep with
  | refused | rolledBack => exact h
  | done hdone =>
    have hdoes := apply_does hdone
    obtain ⟨hreceipts, honce, hsettled⟩ := h.settlements_after hdoes
    exact
      { filed := h.filed_after hdoes
        readable := fun _ _ => h.readable_after hdoes
        below := fun id => (h.grants_after hdoes id).1
        rising := fun id => (h.grants_after hdoes id).2.1
        standing := fun id => (h.grants_after hdoes id).2.2
        authorized := fun _ _ => h.authorized_after hdoes
        finishes := fun _ _ _ _ _ => h.finishes_after hdoes
        receipts := hreceipts
        once := honce
        settled := hsettled }

theorem of_reachable (h : (checkoutSystem blake3).Reachable s) : Fenced blake3 s :=
  h.invariant (Fenced blake3) (fun {s} (hinit : s = ⟨.empty, []⟩) => hinit ▸ empty) step

end Fenced

/-! ### The standing row, one step and many -/

section Rows

variable {s t : CheckoutVault} {op : LeaseOp} {ops : List LeaseOp} {id : CheckoutId}
variable {act : CheckoutLeaseAct}

/-- **A row settling stays as it is until its own fence's `Finish` takes it.** -/
theorem Fenced.settling_step (h : Fenced blake3 s) (hstep : CheckoutStep blake3 s op t)
    (hrow : s.tables.lease id = some act) (hsettling : act.state = .settling) :
    t.tables.lease id = some act ∨
      ∃ now, op = .finishTeardown act.fence now ∧ t.tables.lease id = none := by
  cases hstep with
  | refused | rolledBack => exact Or.inl hrow
  | done hdone =>
    cases (apply_does hdone).row_move h.filed id with
    | same hsame => exact Or.inl (hsame.trans hrow)
    | granted _ _ _ _ _ hactive =>
      have hstate := hactive act hrow
      rw [hsettling] at hstate
      cases hstate
    | kept hold _ hnot =>
      rw [hrow] at hold
      cases hold
      exact absurd hsettling hnot
    | @retired old now hold _ hop hnone =>
      rw [hrow] at hold
      cases hold
      exact Or.inr ⟨now, hop, hnone⟩

/-- What a row at an epoch keeps: the attempt that holds it. -/
def HeldBy (id : CheckoutId) (epoch : U64) (attempt : AttemptId) (s : CheckoutVault) : Prop :=
  epoch.val ≤ s.tables.highest id ∧ ∀ act, s.tables.lease id = some act → act.epoch = epoch →
    ∃ bound ∈ act.boundAttempt, bound.attempt = attempt

variable {epoch : U64} {attempt : AttemptId} {receipt : CheckoutSettlementReceipt}

/-- **An attempt bound to an epoch holds it to the epoch's end.** -/
theorem Fenced.heldBy_step (h : Fenced blake3 s) (hheld : HeldBy id epoch attempt s)
    (hstep : CheckoutStep blake3 s op t) : HeldBy id epoch attempt t := by
  cases hstep with
  | refused | rolledBack => exact hheld
  | done hdone =>
    have hdoes := apply_does hdone
    refine ⟨hheld.1.trans (h.highest_le hdoes id), fun act hact hepoch => ?_⟩
    cases hdoes.row_move h.filed id with
    | same hsame => exact hheld.2 act (hsame ▸ hact) hepoch
    | granted _ _ hrow _ hlt =>
      rw [hrow] at hact
      cases hact
      have hle := hheld.1
      rw [← hepoch] at hle
      exact absurd hlt (Nat.not_lt.mpr hle)
    | kept hold hrow _ hfence hbound =>
      rw [hrow] at hact
      cases hact
      obtain ⟨bound, hmem, hattempt⟩ := hheld.2 _ hold
        ((congrArg CheckoutLeaseFence.epoch hfence).symm.trans hepoch)
      obtain ⟨bound', hmem', hsame⟩ := hbound bound hmem
      exact ⟨bound', hmem', hsame.trans hattempt⟩
    | retired _ _ _ hnone =>
      rw [hnone] at hact
      cases hact

theorem Fenced.heldBy_run (h : Fenced blake3 s) (hrun : (checkoutSystem blake3).Run s ops t)
    (hheld : HeldBy id epoch attempt s) : HeldBy id epoch attempt t :=
  (hrun.preserves (fun s => Fenced blake3 s ∧ HeldBy id epoch attempt s)
    (fun ⟨h, hheld⟩ hstep => ⟨h.step hstep, h.heldBy_step hheld hstep⟩) ⟨h, hheld⟩).2

/-- **A receipt once stored stays.** -/
theorem Fenced.settlement_step (hstep : CheckoutStep blake3 s op t)
    (hreceipt : s.tables.settlement id epoch = some receipt) :
    t.tables.settlement id epoch = some receipt := by
  cases hstep with
  | refused | rolledBack => exact hreceipt
  | done hdone =>
    cases apply_does hdone with
    | claimed | reclaimed | unchanged | rewritten | prepared | retired => exact hreceipt
    | @settled r act next new _ hnone hnew =>
      rw [putSettlement, hnew.checkoutId, hnew.epoch]
      by_cases hid : id = act.checkoutId
      · subst hid
        have hepoch : epoch ≠ act.epoch := by
          rintro rfl
          rw [hnone] at hreceipt
          cases hreceipt
        simpa [Function.update_of_ne hepoch] using hreceipt
      · simpa [Function.update_of_ne hid] using hreceipt

/-- **A settlement under a fence that stands**, one being on record: the same gets its receipt again,
any other is refused. -/
theorem Fenced.settle_again (h : Fenced blake3 s) {r : CheckoutSettlementRequest}
    (hreceipt : s.tables.settlement r.fence.checkoutId r.fence.epoch = some receipt)
    (hrow : s.tables.lease r.fence.checkoutId = some act) (hfence : act.fence = r.fence)
    (hnow : act.updatedAt.val ≤ r.now.val) : (LeaseOp.settle r).apply blake3 s.tables =
      if receipt.disposition = r.disposition ∧ receipt.observedRef = r.observedRef ∧
          receipt.resultRef = r.resultRef then
        .ok (s.tables, .settled receipt false)
      else .error .settlementAlreadyWon := by
  have hid : act.checkoutId = r.fence.checkoutId := congrArg (·.checkoutId) hfence
  have hepoch : act.epoch = r.fence.epoch := congrArg (·.epoch) hfence
  have hholder : act.holderRef = r.fence.holderRef := congrArg (·.holderRef) hfence
  obtain ⟨hreceiptId, hreceiptEpoch, hidentity⟩ := h.receipts _ _ _ hreceipt
  have hfenced : s.tables.fenced r.fence = .ok act :=
    fenced_eq_ok.mpr ⟨hrow, h.readable _ _ hrow, hepoch, hholder⟩
  have hfresh : requireNotRegressed act r.now = .ok ⟨⟩ := ensure_eq_ok.mpr (Nat.not_lt.mpr hnow)
  have hrepeats : receipt.repeats (checkoutResultIdentity blake3 r.fence.checkoutId r.fence.epoch
      r.observedRef r.resultRef) r = true ↔ receipt.disposition = r.disposition ∧
        receipt.observedRef = r.observedRef ∧ receipt.resultRef = r.resultRef := by
    simp only [CheckoutSettlementReceipt.repeats, Bool.and_eq_true, decide_eq_true_eq, hreceiptId,
      hreceiptEpoch, hidentity, true_and]
    constructor
    · rintro ⟨⟨⟨-, hdisposition⟩, hobserved⟩, hresult⟩
      exact ⟨hdisposition, hobserved, hresult⟩
    · rintro ⟨hdisposition, hobserved, hresult⟩
      exact ⟨⟨⟨by rw [hobserved, hresult], hdisposition⟩, hobserved⟩, hresult⟩
  have hbind {α β : Type} (a : α) (f : α → CheckoutResult β) : (Except.ok a >>= f) = f a := rfl
  simp only [LeaseOp.apply, settle, hfenced, hbind, hfresh, hid, hepoch, hreceipt,
    ensure]
  by_cases hsame : receipt.disposition = r.disposition ∧ receipt.observedRef = r.observedRef ∧
      receipt.resultRef = r.resultRef
  · rw [if_pos hsame, if_pos (hrepeats.mpr hsame)]
    rfl
  · rw [if_neg hsame, if_neg (hrepeats.not.mpr hsame)]
    rfl

end Rows

/-- An answer that leaves an attempt unbound leaves the rows alone. -/
theorem Does.unbound {reason : String} (h : Does blake3 tables op after (.unbound reason)) :
    after = tables := by
  cases h
  rfl

/-- An operation under a fence goes through where the fence stands. -/
theorem Does.fenced (h : Does blake3 tables op after answer) (hfence : op.fence = some fence) :
    tables.Stands fence ∨ ∃ reason, answer = .unbound reason := by
  cases h with
  | claimed | reclaimed => cases hfence
  | unchanged _ _ _ hstands => exact hstands fence hfence
  | rewritten hop hrewrites =>
    cases hop.symm.trans hfence
    exact Or.inl ⟨_, hrewrites.row, hrewrites.fenced⟩
  | settled hrewrites | prepared hrewrites =>
    cases hfence
    exact Or.inl ⟨_, hrewrites.row, hrewrites.fenced⟩
  | retired hrow hepoch hholder =>
    cases hfence
    exact Or.inl ⟨_, hrow, hepoch, hholder⟩

/-- **A checkout's lease over all its lifecycles.**  Its epochs rise, and the standing row is the
latest grant's; what presents a fence needs it to stand; an epoch has one settlement, for good; a row
settling goes by its own fence's `Finish`, after a `Prepare` that found every condition met; an
attempt bound holds its epoch to the end. -/
theorem checkout_lease_fencing (blake3 : Bytes → Digest) {s : CheckoutVault}
    (h : (checkoutSystem blake3).Reachable s) :
    (∀ id, ((grants id s.log).Pairwise fun newer older => older.epoch.val < newer.epoch.val) ∧
      ∀ act, s.tables.lease id = some act → (grants id s.log).head? = some act.fence) ∧
    (∀ (op : LeaseOp) after answer, op.apply blake3 s.tables = .ok (after, answer) → ∀ fence ∈ op.fence,
      s.tables.Stands fence ∨ after = s.tables ∧ ∃ reason, answer = .unbound reason) ∧
    ((settlements s.log).Nodup ∧ ∀ id epoch receipt,
      s.tables.settlement id epoch = some receipt →
        (∀ ops t, (checkoutSystem blake3).Run s ops t →
          t.tables.settlement id epoch = some receipt) ∧
        ∀ r act, r.fence.checkoutId = id → r.fence.epoch = epoch → s.tables.lease id = some act →
          act.fence = r.fence → act.updatedAt.val ≤ r.now.val →
          (LeaseOp.settle r).apply blake3 s.tables =
            if receipt.disposition = r.disposition ∧ receipt.observedRef = r.observedRef ∧
                receipt.resultRef = r.resultRef then
              .ok (s.tables, .settled receipt false)
            else .error .settlementAlreadyWon) ∧
    ((∀ id act op t, s.tables.lease id = some act → act.state = .settling →
        CheckoutStep blake3 s op t → t.tables.lease id = some act ∨
          ∃ now, op = .finishTeardown act.fence now ∧ t.tables.lease id = none) ∧
      ∀ newer older fence now act,
        s.log = newer ++ (.finishTeardown fence now, .retired act) :: older →
          ∃ event ∈ older, Authorizes fence event) ∧
    ∀ id act bound, s.tables.lease id = some act → act.boundAttempt = some bound →
      ∀ ops t next, (checkoutSystem blake3).Run s ops t → t.tables.lease id = some next →
        next.epoch = act.epoch → ∃ bound' ∈ next.boundAttempt, bound'.attempt = bound.attempt := by
  have hs := Fenced.of_reachable h
  refine ⟨fun id => ⟨hs.rising id, hs.standing id⟩, fun op after answer hdone fence hfence => ?_,
    ⟨hs.once, fun id epoch receipt hreceipt => ⟨fun ops t hrun => ?_, ?_⟩⟩,
    ⟨fun id act op t hrow hsettling hstep => hs.settling_step hstep hrow hsettling, hs.finishes⟩,
    fun id act bound hrow hbound ops t next hrun hnext hepoch => ?_⟩
  · refine ((apply_does hdone).fenced hfence).imp_right ?_
    rintro ⟨reason, rfl⟩
    exact ⟨(apply_does hdone).unbound, reason, rfl⟩
  · exact hrun.preserves (·.tables.settlement id epoch = some receipt)
      (fun hreceipt hstep => Fenced.settlement_step hstep hreceipt) hreceipt
  · rintro r act rfl rfl hrow hfence hnow
    exact hs.settle_again hreceipt hrow hfence hnow
  · refine (hs.heldBy_run hrun ⟨?_, fun other hother _ => ?_⟩).2 next hnext hepoch
    · rw [highest, hrow]
      exact le_rfl
    · rw [hrow] at hother
      cases hother
      exact ⟨bound, hbound, rfl⟩

section Runs

/-- A checkout of ones, claimed at second zero by `a`. -/
def onesClaim : CheckoutClaimRequest where
  checkoutId := ⟨List.replicate 16 1, rfl, by decide⟩
  taskRef := .filled 2
  repoRef := "r"
  holderRef := "a"
  taskClass := .edit
  ttlSecs := none
  now := 0

/-- Its settlement at second ten. -/
def onesSettlement : CheckoutSettlementRequest :=
  ⟨⟨onesClaim.checkoutId, 1, "a"⟩, .apply, "o", "r", 10⟩

/-- A teardown that finds no receipt asks no port. -/
def noPorts : TeardownPorts :=
  ⟨fun _ => .ok true, fun _ _ => .error (.port ""), fun _ => .ok none⟩

theorem reachable_done {s : CheckoutVault} (h : (checkoutSystem blake3).Reachable s) (op : LeaseOp)
    (hdone : op.apply blake3 s.tables = .ok (after, answer)) :
    (checkoutSystem blake3).Reachable ⟨after, (op, answer) :: s.log⟩ := h.step (.done hdone)

/-- The BLAKE3 hash of the settlement's identity. -/
def onesIdentity : Digest :=
  ⟨[122, 129, 247, 213, 214, 48, 70, 60, 192, 199, 200, 127, 9, 119, 180, 209, 122, 140, 54,
    159, 56, 144, 13, 201, 82, 162, 69, 57, 178, 11, 241, 250], rfl⟩

/-- The BLAKE3 hash of its receipt. -/
def onesReceipt : Digest :=
  ⟨[92, 116, 70, 57, 36, 186, 31, 181, 211, 216, 90, 215, 107, 154, 65, 81, 190, 195, 75, 6,
    179, 93, 107, 245, 115, 246, 188, 244, 53, 35, 157, 222], rfl⟩

/-- BLAKE3, on the two inputs of the settlement. -/
def onesHash (input : Bytes) : Digest := if input.length = 40 then onesReceipt else onesIdentity

/-- A tree found clean and unoccupied, its head pushed as `h`. -/
def pushedPorts : TeardownPorts :=
  ⟨fun _ => .ok true, fun _ _ => .ok ⟨some "h", false, .match, none⟩, fun _ => .ok none⟩

def onesPushed : PushedHeadReceipt := ⟨"p", "o", "h", onesClaim.checkoutId, 1⟩

/-- The second lifecycle, held by `b` for five seconds at a time. -/
def onesRelet : CheckoutClaimRequest :=
  { onesClaim with holderRef := "b", taskClass := .build, ttlSecs := some 5, now := 13 }

/-- The attempt every byte of whose id is `b`. -/
def attemptOf (b : UInt8) : AttemptId := ⟨List.replicate 16 b, List.length_replicate⟩

/-- **A settled lease is collected and let again**: `a`'s epoch is settled and torn down; `b`'s, of
the second lifecycle, executes an attempt and lapses, and `c` reclaims it. -/
theorem checkout_lease_fencing_relet : ∃ s act, (checkoutSystem onesHash).Reachable s ∧
    grants onesClaim.checkoutId s.log = [⟨onesClaim.checkoutId, 3, "c"⟩,
      ⟨onesClaim.checkoutId, 2, "b"⟩, onesSettlement.fence] ∧ (settlements s.log).Nodup ∧
    (∃ event ∈ s.log, Authorizes onesSettlement.fence event) ∧
    s.tables.lease onesClaim.checkoutId = some act ∧
    ∀ ops t next, (checkoutSystem onesHash).Run s ops t →
      t.tables.lease onesClaim.checkoutId = some next → next.epoch = act.epoch →
      ∃ bound ∈ next.boundAttempt, bound.attempt = attemptOf 5 := by
  have hempty : (checkoutSystem onesHash).Reachable ⟨.empty, []⟩ := .start rfl
  have hclaimed := reachable_done hempty (.claim onesClaim 0) rfl
  have hsettled := reachable_done hclaimed (.settle onesSettlement) rfl
  have hsettling := reachable_done hsettled
    (.prepareTeardown onesSettlement.fence onesPushed pushedPorts 11) rfl
  have hretired := reachable_done hsettling (.finishTeardown onesSettlement.fence 12) rfl
  have hrelet := reachable_done hretired (.claim onesRelet 13) rfl
  have hbound := reachable_done hrelet
    (.reserveAttempt ⟨onesClaim.checkoutId, 2, "b"⟩ (attemptOf 4) 14) rfl
  have hstarted := reachable_done hbound
    (.startAttempt ⟨onesClaim.checkoutId, 2, "b"⟩ (attemptOf 4) 1 15) rfl
  have hreclaimed := reachable_done hstarted
    (.reclaim onesClaim.checkoutId "c" 20 none false 20) rfl
  have hrebound := reachable_done hreclaimed
    (.reserveAttempt ⟨onesClaim.checkoutId, 3, "c"⟩ (attemptOf 5) 21) rfl
  obtain ⟨-, -, ⟨honce, -⟩, ⟨-, hfinishes⟩, hheld⟩ := checkout_lease_fencing onesHash hrebound
  obtain ⟨event, hevent, hauthorizes⟩ := hfinishes [_, _, _, _, _] _ _ _ _ rfl
  refine ⟨_, _, hrebound, rfl, honce, ⟨event, ?_, hauthorizes⟩, rfl, hheld _ _ ⟨attemptOf 5, 3, none⟩ rfl rfl⟩
  iterate 6 apply mem_cons_of_mem
  exact hevent

/-- **A settlement asked for again on an earlier clock than the row's is refused**: a lease claimed,
settled at second ten, and retained by a teardown at second twenty. -/
theorem checkout_settlement_repeated_late : ¬∀ (s : CheckoutVault) (r : CheckoutSettlementRequest),
    (checkoutSystem onesHash).Reachable s → ∀ receipt act,
      s.tables.settlement r.fence.checkoutId r.fence.epoch = some receipt →
      s.tables.lease r.fence.checkoutId = some act → act.fence = r.fence →
      receipt.disposition = r.disposition ∧ receipt.observedRef = r.observedRef ∧
        receipt.resultRef = r.resultRef →
      (LeaseOp.settle r).apply onesHash s.tables = .ok (s.tables, .settled receipt false) := by
  intro h
  have hempty : (checkoutSystem onesHash).Reachable ⟨.empty, []⟩ := .start rfl
  have hclaimed := reachable_done hempty (.claim onesClaim 0) rfl
  have hsettled := reachable_done hclaimed (.settle onesSettlement) rfl
  have hretained := reachable_done hsettled
    (.prepareTeardown onesSettlement.fence none noPorts 20) rfl
  have hagain := h _ onesSettlement hretained _ _ rfl rfl rfl ⟨rfl, rfl, rfl⟩
  cases hagain

end Runs

end Oneiron
