import Oneiron.Checkout.LeaseTransactions
import Oneiron.Foundations.System

/-!
# Checkout/LeaseFencing — epochs, settlements and teardowns over every run of a lease's transactions

A transaction that succeeds does one of seven things (`Does`), and so does one of four to the row of
each checkout (`RowMove`); what holds over runs is read off those.
-/

namespace Oneiron

open Function CheckoutTables

/-- What a stored row has to say to be read back. -/
structure CheckoutLeaseAct.Readable (act : CheckoutLeaseAct) : Prop where
  holder : act.holderRef ≠ ""
  bound : ∀ bound ∈ act.boundAttempt, bound.epoch = act.epoch

/-- The fence the row's own holder presents. -/
def CheckoutLeaseAct.fence (act : CheckoutLeaseAct) : CheckoutLeaseFence :=
  ⟨act.checkoutId, act.epoch, act.holderRef⟩

inductive LeaseOp where
  | claim (r : CheckoutClaimRequest) (instant : U64)
  | renew (fence : CheckoutLeaseFence) (ttl now : U64)
  | reclaim (id : CheckoutId) (new : String) (now : U64) (expectedEpoch : Option U64)
      (manual : Bool) (instant : U64)
  | settle (r : CheckoutSettlementRequest)
  | reserveAttempt (fence : CheckoutLeaseFence) (attempt : AttemptId) (instant : U64)
  | startAttempt (fence : CheckoutLeaseFence) (attempt : AttemptId) (generation : UInt32)
      (instant : U64)
  | prepareTeardown (fence : CheckoutLeaseFence) (receipt : Option PushedHeadReceipt)
      (ports : TeardownPorts) (now : U64)
  | finishTeardown (fence : CheckoutLeaseFence) (now : U64)

/-- The fence an operation presents. -/
def LeaseOp.fence : LeaseOp → Option CheckoutLeaseFence
  | claim .. | reclaim .. => none
  | settle r => some r.fence
  | renew fence .. | reserveAttempt fence .. | startAttempt fence .. | prepareTeardown fence ..
  | finishTeardown fence .. => some fence

inductive LeaseAnswer where
  /-- A new epoch. -/
  | granted (act : CheckoutLeaseAct)
  | held (act : CheckoutLeaseAct)
  | settled (receipt : CheckoutSettlementReceipt) (new : Bool)
  | unbound (reason : String)
  | prepared (act : CheckoutLeaseAct) (reason : Option CheckoutRetainReason)
  | retired (act : CheckoutLeaseAct)

/-- The answer to a request for a checkout's epoch. -/
def LeaseAnswer.ofBinding : Except String CheckoutLeaseAct → LeaseAnswer
  | .ok act => held act
  | .error reason => unbound reason

def LeaseOp.apply (blake3 : Bytes → Digest) (tables : CheckoutTables) :
    LeaseOp → CheckoutResult (CheckoutTables × LeaseAnswer)
  | claim r instant => do
    let (tables, act) ← tables.claim r instant
    pure (tables, .granted act)
  | renew fence ttl now => do
    let (tables, act) ← tables.renew fence ttl now
    pure (tables, .held act)
  | reclaim id new now expectedEpoch manual instant => do
    let (tables, act, granted) ← tables.reclaim id new now expectedEpoch manual instant
    pure (tables, if granted then .granted act else .held act)
  | settle r => do
    let (tables, _, receipt, new) ← tables.settle blake3 r
    pure (tables, .settled receipt new)
  | reserveAttempt fence attempt instant => do
    let (tables, answer) ←
      tables.reserveAttempt fence.checkoutId fence.epoch fence.holderRef attempt instant
    pure (tables, .ofBinding answer)
  | startAttempt fence attempt generation instant => do
    let (tables, answer) ←
      tables.startAttempt fence.checkoutId fence.epoch fence.holderRef attempt generation instant
    pure (tables, .ofBinding answer)
  | prepareTeardown fence receipt ports now => do
    let (tables, act, reason) ← tables.prepareTeardown fence receipt ports now
    pure (tables, .prepared act reason)
  | finishTeardown fence now => do
    let (tables, act) ← tables.finishTeardown fence now
    pure (tables, .retired act)

abbrev LeaseEvent := LeaseOp × LeaseAnswer

/-- The rows, and what was done so far, the latest first. -/
structure CheckoutVault where
  tables : CheckoutTables
  log : List LeaseEvent

inductive CheckoutStep (blake3 : Bytes → Digest) : CheckoutVault → LeaseOp → CheckoutVault → Prop
  | done {s : CheckoutVault} {op : LeaseOp} {tables : CheckoutTables} {answer : LeaseAnswer} :
      op.apply blake3 s.tables = .ok (tables, answer) →
      CheckoutStep blake3 s op ⟨tables, (op, answer) :: s.log⟩
  | refused {s : CheckoutVault} {op : LeaseOp} {e : CheckoutError} :
      op.apply blake3 s.tables = .error e → CheckoutStep blake3 s op s
  /-- Its transaction did not commit: the TASK fact was refused, or the process ended. -/
  | rolledBack {s : CheckoutVault} {op : LeaseOp} : CheckoutStep blake3 s op s

def checkoutSystem (blake3 : Bytes → Digest) : System CheckoutVault LeaseOp where
  init s := s = ⟨.empty, []⟩
  step := CheckoutStep blake3

/-! ### What is read -/

namespace CheckoutTables

variable {tables after : CheckoutTables} {id : CheckoutId} {fence : CheckoutLeaseFence}
variable {act next : CheckoutLeaseAct} {now : U64}

@[simp] theorem loadAct_eq_ok {row : Option CheckoutLeaseAct} :
    tables.loadAct id = .ok row ↔ tables.lease id = row ∧ ∀ act ∈ row, act.Readable := by
  rw [loadAct]
  cases tables.lease id with
  | none => cases row <;> simp
  | some act =>
    simp only [bind_eq_ok, ensure_eq_ok, pure_eq_ok]
    constructor
    · rintro ⟨-, hholder, -, hbound, rfl⟩
      exact ⟨rfl, fun act' hact => Option.mem_some_iff.mp hact ▸ ⟨hholder, hbound⟩⟩
    · rintro ⟨rfl, hreads⟩
      have hact := hreads act rfl
      exact ⟨⟨⟩, hact.holder, ⟨⟩, hact.bound, rfl⟩

@[simp] theorem loadTombstone_eq_ok {row : Option U64} :
    tables.loadTombstone id = .ok row ↔ tables.tombstone id = row ∧ row ≠ some 0 := by
  simp only [loadTombstone, bind_eq_ok, ensure_eq_ok, pure_eq_ok]
  exact ⟨fun h => ⟨h.choose_spec.2, h.choose_spec.2 ▸ h.choose_spec.1⟩,
    fun h => ⟨⟨⟩, h.1 ▸ h.2, h.1⟩⟩

/-- The standing row's holder and epoch are the fence's. -/
def Stands (tables : CheckoutTables) (fence : CheckoutLeaseFence) : Prop :=
  ∃ act, tables.lease fence.checkoutId = some act ∧ act.epoch = fence.epoch ∧
    act.holderRef = fence.holderRef

@[simp] theorem fenced_eq_ok : tables.fenced fence = .ok act ↔
    tables.lease fence.checkoutId = some act ∧ act.Readable ∧ act.epoch = fence.epoch ∧
      act.holderRef = fence.holderRef := by
  simp only [fenced, bind_eq_ok, okOr_eq_ok, ensure_eq_ok, pure_eq_ok, loadAct_eq_ok]
  constructor
  · rintro ⟨row, ⟨hrow, hreads⟩, found, rfl, -, hfence, rfl⟩
    exact ⟨hrow, hreads _ rfl, hfence⟩
  · rintro ⟨hrow, hreads, hfence⟩
    exact ⟨some act, ⟨hrow, fun _ hact => Option.mem_some_iff.mp hact ▸ hreads⟩, act, rfl, ⟨⟩,
      hfence, rfl⟩

end CheckoutTables

/-! ### What one transaction does -/

section Does

open CheckoutLeaseState

variable (blake3 : Bytes → Digest) (tables : CheckoutTables)

/-- A fenced row, not settling, written again at its own epoch. -/
structure Rewrites (fence : CheckoutLeaseFence) (act next : CheckoutLeaseAct) : Prop where
  row : tables.lease fence.checkoutId = some act
  fenced : act.epoch = fence.epoch ∧ act.holderRef = fence.holderRef
  notSettling : act.state ≠ settling
  checkoutId : next.checkoutId = act.checkoutId
  epoch : next.epoch = act.epoch
  holderRef : next.holderRef = act.holderRef
  bound : ∀ b ∈ act.boundAttempt, ∃ b' ∈ next.boundAttempt, b'.attempt = b.attempt
  readable : next.Readable

/-- What a new receipt says of the settlement it is for. -/
structure ReceiptOf (act : CheckoutLeaseAct) (r : CheckoutSettlementRequest)
    (receipt : CheckoutSettlementReceipt) : Prop where
  checkoutId : receipt.checkoutId = act.checkoutId
  epoch : receipt.epoch = act.epoch
  identity : receipt.resultIdentity =
    checkoutResultIdentity blake3 act.checkoutId act.epoch receipt.observedRef receipt.resultRef
  asked : receipt.disposition = r.disposition ∧ receipt.observedRef = r.observedRef ∧
    receipt.resultRef = r.resultRef

/-- A new epoch's row. -/
structure Grants (act : CheckoutLeaseAct) : Prop where
  state : act.state = active
  unbound : act.boundAttempt = none
  holder : act.holderRef ≠ ""

theorem Grants.readable {act : CheckoutLeaseAct} (h : Grants act) : act.Readable :=
  ⟨h.holder, by rw [h.unbound]; nofun⟩

/-- Everything a transaction that succeeds can do. -/
inductive Does : LeaseOp → CheckoutTables → LeaseAnswer → Prop
  | claimed {r : CheckoutClaimRequest} {instant : U64} {act : CheckoutLeaseAct} :
      tables.lease act.checkoutId = none →
      act.epoch.val = ((tables.tombstone act.checkoutId).getD 0).val + 1 → Grants act →
      Does (.claim r instant) (tables.storeAct act) (.granted act)
  | reclaimed {id : CheckoutId} {new : String} {now : U64} {expected : Option U64} {manual : Bool}
      {instant : U64} {act next : CheckoutLeaseAct} : tables.lease id = some act →
      act.state = active → next.checkoutId = act.checkoutId →
      next.epoch.val = act.epoch.val + 1 → Grants next →
      Does (.reclaim id new now expected manual instant) (tables.storeAct next) (.granted next)
  | unchanged {op : LeaseOp} {answer : LeaseAnswer} : (∀ act, answer ≠ .granted act) →
      (∀ act, answer ≠ .retired act) → (∀ receipt, answer ≠ .settled receipt true) →
      (∀ fence ∈ op.fence, tables.Stands fence ∨ ∃ reason, answer = .unbound reason) →
      Does op tables answer
  | rewritten {op : LeaseOp} {fence : CheckoutLeaseFence} {act next : CheckoutLeaseAct} :
      op.fence = some fence → Rewrites tables fence act next → next.state = act.state →
      Does op (tables.storeAct next) (.held next)
  | settled {r : CheckoutSettlementRequest} {act next : CheckoutLeaseAct}
      {receipt : CheckoutSettlementReceipt} : Rewrites tables r.fence act next →
      tables.settlement act.checkoutId act.epoch = none → ReceiptOf blake3 act r receipt →
      next.state = .settled →
      Does (.settle r) ((tables.putSettlement receipt).storeAct next) (.settled receipt true)
  | prepared {fence : CheckoutLeaseFence} {pushed : Option PushedHeadReceipt}
      {ports : TeardownPorts} {now : U64} {act next : CheckoutLeaseAct}
      {reason : Option CheckoutRetainReason} : Rewrites tables fence act next →
      teardownReason act pushed ports = .ok reason →
      next =
        { act with state := if reason.isSome then retained else settling, updatedAt := now } →
      Does (.prepareTeardown fence pushed ports now) (tables.storeAct next) (.prepared next reason)
  | retired {fence : CheckoutLeaseFence} {now : U64} {act : CheckoutLeaseAct} :
      tables.lease fence.checkoutId = some act → act.epoch = fence.epoch →
      act.holderRef = fence.holderRef → act.state = settling →
      Does (.finishTeardown fence now)
        (tables.retire act.checkoutId (((tables.tombstone act.checkoutId).getD 0).max act.epoch))
        (.retired act)

variable {blake3 tables} {after : CheckoutTables} {act next : CheckoutLeaseAct}

variable {fence : CheckoutLeaseFence} {attempt : AttemptId} {now instant : U64}

theorem claim_does {r : CheckoutClaimRequest} (h : tables.claim r instant = .ok (after, act)) :
    Does blake3 tables (.claim r instant) after (.granted act) := by
  simp only [claim, bind_eq_ok, ensure_eq_ok, okOr_eq_ok, pure_eq_ok,
    loadAct_eq_ok, loadTombstone_eq_ok, Prod.mk.injEq] at h
  obtain ⟨-, hholder, row, ⟨hrow, -⟩, -, rfl, retired, ⟨hretired, -⟩, epoch, hepoch, expires, -,
    rfl, rfl⟩ := h
  refine .claimed hrow ?_ ⟨rfl, rfl, hholder⟩
  rw [U64.checkedAdd_eq_some hepoch, hretired]
  rfl

theorem renew_does {ttl : U64} (h : tables.renew fence ttl now = .ok (after, next)) :
    Does blake3 tables (.renew fence ttl now) after (.held next) := by
  simp only [renew, bind_eq_ok, ensure_eq_ok, okOr_eq_ok, pure_eq_ok,
    fenced_eq_ok, requireLive, requireActive, Prod.mk.injEq] at h
  obtain ⟨act, ⟨hrow, hreads, hfence⟩, -, -, -, ⟨-, -, -, hactive, -⟩, expires, -, rfl, rfl⟩ := h
  refine .rewritten rfl ⟨hrow, hfence, by simp [hactive], rfl, rfl, rfl, fun b hb => ⟨b, hb, rfl⟩,
    ⟨hreads.holder, hreads.bound⟩⟩ rfl

theorem reclaim_does {id : CheckoutId} {new : String} {expected : Option U64}
    {manual granted : Bool}
    (h : tables.reclaim id new now expected manual instant = .ok (after, next, granted)) :
    Does blake3 tables (.reclaim id new now expected manual instant) after
      (if granted then .granted next else .held next) := by
  simp only [reclaim, bind_eq_ok, ensure_eq_ok, okOr_eq_ok, requireActive,
    loadAct_eq_ok] at h
  obtain ⟨-, hnew, row, ⟨hrow, hreads⟩, act, rfl, -, -, -, hactive, h⟩ := h
  split at h
  · simp only [pure_eq_ok, Prod.mk.injEq] at h
    obtain ⟨rfl, rfl, rfl⟩ := h
    exact .unchanged (by simp) (by simp) (by simp) (by simp [LeaseOp.fence])
  · simp only [bind_eq_ok, ensure_eq_ok, okOr_eq_ok, pure_eq_ok, Prod.mk.injEq] at h
    obtain ⟨-, -, expiry, -, -, -, ttl, -, epoch, hepoch, expires, -, rfl, rfl, rfl⟩ := h
    exact .reclaimed hrow hactive rfl (U64.checkedAdd_eq_some hepoch) ⟨hactive, rfl, hnew⟩

theorem settle_does {r : CheckoutSettlementRequest} {receipt : CheckoutSettlementReceipt} {new : Bool}
    (h : tables.settle blake3 r = .ok (after, next, receipt, new)) :
    Does blake3 tables (.settle r) after (.settled receipt new) := by
  simp only [settle, bind_eq_ok, fenced_eq_ok] at h
  obtain ⟨act, ⟨hrow, hreads, hfence⟩, -, -, h⟩ := h
  cases hold : tables.settlement act.checkoutId act.epoch with
  | some old =>
    simp only [hold, bind_eq_ok, ensure_eq_ok, pure_eq_ok, Prod.mk.injEq] at h
    obtain ⟨-, -, rfl, rfl, rfl, rfl⟩ := h
    exact .unchanged (by simp) (by simp) (by simp) (by simpa [LeaseOp.fence] using ⟨act, hrow, hfence⟩)
  | none =>
    simp only [hold, bind_eq_ok, ensure_eq_ok, pure_eq_ok, Prod.mk.injEq, requireSettleable] at h
    obtain ⟨-, -, -, -, -, hsettleable, rfl, rfl, rfl, rfl⟩ := h
    exact .settled ⟨hrow, hfence, hsettleable, rfl, rfl, rfl, fun b hb => ⟨b, hb, rfl⟩,
      ⟨hreads.holder, hreads.bound⟩⟩ hold ⟨rfl, rfl, rfl, rfl, rfl, rfl⟩ rfl

theorem prepareTeardown_does {pushed : Option PushedHeadReceipt} {ports : TeardownPorts}
    {reason : Option CheckoutRetainReason}
    (h : tables.prepareTeardown fence pushed ports now = .ok (after, next, reason)) :
    Does blake3 tables (.prepareTeardown fence pushed ports now) after (.prepared next reason) := by
  simp only [prepareTeardown, bind_eq_ok, fenced_eq_ok] at h
  obtain ⟨act, ⟨hrow, hreads, hfence⟩, -, -, h⟩ := h
  split at h
  next hsettling =>
    have hsame : after = tables := by
      simp only [bind_eq_ok] at h
      obtain ⟨present, -, h⟩ := h
      cases present <;>
      · simp only [Bool.false_eq_true, if_true, if_false, bind_eq_ok, pure_eq_ok, Prod.mk.injEq] at h
        obtain ⟨-, -, rfl, -⟩ := h
        rfl
    rw [hsame]
    exact .unchanged (by simp) (by simp) (by simp) (by simpa [LeaseOp.fence] using ⟨act, hrow, hfence⟩)
  next hnot =>
    simp only [bind_eq_ok, pure_eq_ok, Prod.mk.injEq] at h
    obtain ⟨reason, hreason, rfl, rfl, rfl⟩ := h
    exact .prepared ⟨hrow, hfence, hnot, rfl, rfl, rfl, fun b hb => ⟨b, hb, rfl⟩,
      ⟨hreads.holder, hreads.bound⟩⟩ hreason rfl

theorem finishTeardown_does (h : tables.finishTeardown fence now = .ok (after, act)) :
    Does blake3 tables (.finishTeardown fence now) after (.retired act) := by
  simp only [finishTeardown, bind_eq_ok, ensure_eq_ok, pure_eq_ok,
    fenced_eq_ok, loadTombstone_eq_ok, requireSettling,
    Prod.mk.injEq] at h
  obtain ⟨act, ⟨hrow, -, hepoch, hholder⟩, -, -, -, hsettling, retired, ⟨rfl, -⟩, rfl, rfl⟩ := h
  exact .retired hrow hepoch hholder hsettling

/-- A row live for a fence is active, and the fence's. -/
theorem liveAt_iff {epoch : U64} {holder : String} (h : act.liveAt epoch holder now = true) :
    act.epoch = epoch ∧ act.holderRef = holder ∧ act.state = active := by
  simp only [CheckoutLeaseAct.liveAt, Bool.and_eq_true, decide_eq_true_eq] at h
  exact ⟨h.1.1.1.1, h.1.1.1.2, h.1.1.2⟩

/-- An answer about an attempt that writes nothing. -/
theorem binding_does {op : LeaseOp} {binding : Except String CheckoutLeaseAct}
    (h : ∀ act, binding = .ok act → ∀ fence ∈ op.fence, tables.Stands fence) :
    Does blake3 tables op tables (.ofBinding binding) := by
  cases binding with
  | ok act => exact .unchanged nofun nofun nofun fun fence hfence => .inl (h act rfl fence hfence)
  | error reason => exact .unchanged nofun nofun nofun fun _ _ => .inr ⟨reason, rfl⟩

theorem refused_does {op : LeaseOp} {reason : String} :
    Does blake3 tables op tables (.ofBinding (.error reason)) :=
  binding_does (by simp)

theorem reserveAttempt_does {answer : Except String CheckoutLeaseAct}
    (h : tables.reserveAttempt fence.checkoutId fence.epoch fence.holderRef attempt instant =
      .ok (after, answer)) :
    Does blake3 tables (.reserveAttempt fence attempt instant) after (.ofBinding answer) := by
  simp only [reserveAttempt, bind_eq_ok, loadAct_eq_ok] at h
  obtain ⟨row, ⟨hrow, hreads⟩, h⟩ := h
  cases row with
  | none =>
    obtain ⟨rfl, rfl⟩ := h
    exact refused_does
  | some act =>
    by_cases hlive : act.liveAt fence.epoch fence.holderRef instant = true
    · obtain ⟨hepoch, hholder, hactive⟩ := liveAt_iff hlive
      simp only [hlive, Bool.not_true, Bool.false_eq_true, if_false] at h
      cases hbound : act.boundAttempt with
      | some bound =>
        simp only [hbound, pure_eq_ok, Prod.mk.injEq] at h
        obtain ⟨rfl, rfl⟩ := h
        by_cases hsame : bound.attempt = attempt
        · rw [if_pos hsame]
          exact binding_does fun _ _ => by simpa [LeaseOp.fence] using ⟨act, hrow, hepoch, hholder⟩
        · rw [if_neg hsame]
          exact refused_does
      | none =>
        simp only [hbound, pure_eq_ok, Prod.mk.injEq] at h
        obtain ⟨rfl, rfl⟩ := h
        refine .rewritten rfl ⟨hrow, ⟨hepoch, hholder⟩, by simp [hactive], rfl, rfl, rfl,
          by simp [hbound], ⟨(hreads act rfl).holder, ?_⟩⟩ rfl
        rintro b ⟨⟩
        exact hepoch.symm
    · simp only [hlive, Bool.not_false, if_true, pure_eq_ok, Prod.mk.injEq] at h
      obtain ⟨rfl, rfl⟩ := h
      exact refused_does

theorem startAttempt_does {generation : UInt32} {answer : Except String CheckoutLeaseAct}
    (h : tables.startAttempt fence.checkoutId fence.epoch fence.holderRef attempt generation
      instant = .ok (after, answer)) :
    Does blake3 tables (.startAttempt fence attempt generation instant) after
      (.ofBinding answer) := by
  simp only [startAttempt, bind_eq_ok, loadAct_eq_ok] at h
  obtain ⟨row, ⟨hrow, hreads⟩, h⟩ := h
  cases row with
  | none =>
    obtain ⟨rfl, rfl⟩ := h
    exact refused_does
  | some act =>
    by_cases hlive : act.liveAt fence.epoch fence.holderRef instant = true
    · obtain ⟨hepoch, hholder, hactive⟩ := liveAt_iff hlive
      simp only [hlive, Bool.not_true, Bool.false_eq_true, if_false] at h
      cases hbound : act.boundAttempt.filter (·.attempt = attempt) with
      | none =>
        simp only [hbound, pure_eq_ok, Prod.mk.injEq] at h
        obtain ⟨rfl, rfl⟩ := h
        exact refused_does
      | some bound =>
        obtain ⟨hheld, hsame⟩ := Option.filter_eq_some_iff.mp hbound
        simp only [hbound] at h
        split at h
        · simp only [pure_eq_ok, Prod.mk.injEq] at h
          obtain ⟨rfl, rfl⟩ := h
          exact binding_does fun _ _ => by simpa [LeaseOp.fence] using ⟨act, hrow, hepoch, hholder⟩
        · simp only [pure_eq_ok, Prod.mk.injEq] at h
          obtain ⟨rfl, rfl⟩ := h
          refine .rewritten rfl ⟨hrow, ⟨hepoch, hholder⟩, by simp [hactive], rfl, rfl, rfl,
            fun b hb => ?_, ⟨(hreads act rfl).holder, ?_⟩⟩ rfl
          · rw [hheld] at hb
            exact ⟨_, rfl, by rw [Option.mem_some_iff.mp hb]⟩
          · rintro b ⟨⟩
            exact (hreads act rfl).bound bound hheld
    · simp only [hlive, Bool.not_false, if_true, pure_eq_ok, Prod.mk.injEq] at h
      obtain ⟨rfl, rfl⟩ := h
      exact refused_does

/-- **Whatever succeeds does one of these.** -/
theorem apply_does {op : LeaseOp} {answer : LeaseAnswer}
    (h : op.apply blake3 tables = .ok (after, answer)) : Does blake3 tables op after answer := by
  cases op <;> simp only [LeaseOp.apply, bind_eq_ok, pure_eq_ok, Prod.mk.injEq, Prod.exists] at h
  case claim =>
    obtain ⟨_, _, h, rfl, rfl⟩ := h
    exact claim_does h
  case renew =>
    obtain ⟨_, _, h, rfl, rfl⟩ := h
    exact renew_does h
  case reclaim =>
    obtain ⟨_, _, _, h, rfl, rfl⟩ := h
    exact reclaim_does h
  case settle =>
    obtain ⟨_, _, _, _, h, rfl, rfl⟩ := h
    exact settle_does h
  case reserveAttempt =>
    obtain ⟨_, _, h, rfl, rfl⟩ := h
    exact reserveAttempt_does h
  case startAttempt =>
    obtain ⟨_, _, h, rfl, rfl⟩ := h
    exact startAttempt_does h
  case prepareTeardown =>
    obtain ⟨_, _, _, h, rfl, rfl⟩ := h
    exact prepareTeardown_does h
  case finishTeardown =>
    obtain ⟨_, _, h, rfl, rfl⟩ := h
    exact finishTeardown_does h

end Does

/-! ### What a transaction does to one row -/

namespace CheckoutTables

variable (tables : CheckoutTables) (act : CheckoutLeaseAct) (id : CheckoutId)

/-- The highest epoch a checkout has had, zero before its first. -/
def highest : ℕ := ((tables.lease id).elim ((tables.tombstone id).getD 0) (·.epoch)).val

@[simp] theorem lease_storeAct_self : (tables.storeAct act).lease act.checkoutId = some act :=
  update_self ..

theorem lease_storeAct_of_ne (h : act.checkoutId ≠ id) : (tables.storeAct act).lease id = tables.lease id :=
  update_of_ne h.symm ..

@[simp] theorem settlement_storeAct : (tables.storeAct act).settlement = tables.settlement := rfl

variable (receipt : CheckoutSettlementReceipt) (epoch : U64)

@[simp] theorem lease_retire_self : (tables.retire id epoch).lease id = none :=
  update_self ..

@[simp] theorem tombstone_retire_self : (tables.retire id epoch).tombstone id = some epoch :=
  update_self ..

/-- Every row is under its own checkout. -/
def Filed : Prop := ∀ id act, tables.lease id = some act → act.checkoutId = id

end CheckoutTables

/-- A `Prepare` of a fence that found every condition of a collection met by the fence's row, and
left that row settling. -/
def Authorizes (fence : CheckoutLeaseFence) (event : LeaseEvent) : Prop :=
  ∃ pushed ports now act, act.fence = fence ∧ act.state ≠ .settling ∧
    teardownReason act pushed ports = .ok none ∧
      event = (.prepareTeardown fence pushed ports now,
        .prepared { act with state := .settling, updatedAt := now } none)

/-- What a transaction does to one checkout's row. -/
inductive RowMove (tables after : CheckoutTables) (event : LeaseEvent) (id : CheckoutId) : Prop
  | same : after.lease id = tables.lease id → after.tombstone id = tables.tombstone id →
      (∀ act, event.2 = .granted act → act.checkoutId ≠ id) → RowMove tables after event id
  | granted {act : CheckoutLeaseAct} : event.2 = .granted act → act.checkoutId = id →
      after.lease id = some act → Grants act → tables.highest id < act.epoch.val →
      (∀ old, tables.lease id = some old → old.state = .active) → RowMove tables after event id
  | kept {act next : CheckoutLeaseAct} : tables.lease id = some act → after.lease id = some next →
      act.state ≠ .settling → next.fence = act.fence →
      (∀ b ∈ act.boundAttempt, ∃ b' ∈ next.boundAttempt, b'.attempt = b.attempt) →
      next.Readable → (∀ act, event.2 ≠ .granted act) →
      (next.state = .settling → Authorizes next.fence event) → RowMove tables after event id
  | retired {act : CheckoutLeaseAct} {now : U64} : tables.lease id = some act →
      act.state = .settling → event.1 = .finishTeardown act.fence now → after.lease id = none →
      act.epoch.val ≤ after.highest id → (∀ act, event.2 ≠ .granted act) →
      RowMove tables after event id

section Moves

variable {blake3 : Bytes → Digest} {tables after : CheckoutTables} {op : LeaseOp}
variable {answer : LeaseAnswer} {id : CheckoutId} {fence : CheckoutLeaseFence}
variable {act next : CheckoutLeaseAct}

theorem Rewrites.checkoutId_eq (h : Rewrites tables fence act next) (hfiled : tables.Filed) :
    next.checkoutId = fence.checkoutId :=
  h.checkoutId.trans (hfiled _ _ h.row)

theorem Rewrites.fence_eq (h : Rewrites tables fence act next) (hfiled : tables.Filed) :
    act.fence = fence ∧ next.fence = fence := by
  have hid := hfiled _ _ h.row
  obtain ⟨hepoch, hholder⟩ := h.fenced
  refine ⟨?_, ?_⟩
  · rw [CheckoutLeaseAct.fence, hid, hepoch, hholder]
  · rw [CheckoutLeaseAct.fence, h.checkoutId, h.epoch, h.holderRef, hid, hepoch, hholder]

/-- A row rewritten is kept, and every other is as it was. -/
theorem Rewrites.row_move (h : Rewrites tables fence act next) (hfiled : tables.Filed)
    (stored : CheckoutTables) (hlease : stored.lease = tables.lease)
    (htombstone : stored.tombstone = tables.tombstone) (event : LeaseEvent)
    (hanswer : ∀ act, event.2 ≠ .granted act)
    (hsettling : next.state = .settling → Authorizes next.fence event) (id : CheckoutId) :
    RowMove tables (stored.storeAct next) event id := by
  by_cases hid : next.checkoutId = id
  · have hrow : tables.lease id = some act := by rw [← hid, h.checkoutId_eq hfiled, h.row]
    have hfences := h.fence_eq hfiled
    exact .kept hrow (hid ▸ stored.lease_storeAct_self next) h.notSettling
      (hfences.2.trans hfences.1.symm) h.bound h.readable hanswer hsettling
  · exact .same (by rw [stored.lease_storeAct_of_ne next id hid, hlease])
      (congrFun htombstone id) fun act hact => absurd hact (hanswer act)

/-- A row that grants a new epoch, and every other as it was. -/
theorem Grants.row_move (h : Grants next) {event : LeaseEvent} (hanswer : event.2 = .granted next)
    (hepoch : tables.highest next.checkoutId < next.epoch.val)
    (hactive : ∀ old, tables.lease next.checkoutId = some old → old.state = .active)
    (id : CheckoutId) : RowMove tables (tables.storeAct next) event id := by
  by_cases hid : next.checkoutId = id
  · subst hid
    exact .granted hanswer rfl (tables.lease_storeAct_self next) h hepoch hactive
  · refine .same (tables.lease_storeAct_of_ne next id hid) rfl fun act hact => ?_
    rw [hanswer] at hact
    cases hact
    exact hid

/-- **What a transaction does to each row.** -/
theorem Does.row_move (h : Does blake3 tables op after answer) (hfiled : tables.Filed)
    (id : CheckoutId) : RowMove tables after (op, answer) id := by
  cases h with
  | @claimed r instant act hnone hepoch hgrants =>
    refine hgrants.row_move rfl ?_ (by rw [hnone]; nofun) id
    rw [highest, hnone, hepoch]
    exact Nat.lt_succ_self _
  | @reclaimed id₀ new now expected manual instant act next hrow hactive hid hepoch hgrants =>
    have hrow : tables.lease next.checkoutId = some act := by rw [hid, hfiled _ _ hrow, hrow]
    refine hgrants.row_move rfl ?_ (fun old hold => ?_) id
    · rw [highest, hrow, hepoch]
      exact Nat.lt_succ_self _
    · rw [hrow] at hold
      cases hold
      exact hactive
  | unchanged hgranted =>
    exact .same rfl rfl fun act hact => absurd hact (hgranted act)
  | rewritten _ hrewrites hstate =>
    exact hrewrites.row_move hfiled tables rfl rfl _ (by rintro _ ⟨⟩)
      (fun hsettling => absurd (hstate ▸ hsettling) hrewrites.notSettling) id
  | @settled r act next receipt hrewrites _ _ hstate =>
    exact hrewrites.row_move hfiled (tables.putSettlement receipt) rfl rfl _ (by rintro _ ⟨⟩)
      (by rw [hstate]; nofun) id
  | @prepared fence pushed ports now act next reason hrewrites hreason hrow =>
    refine hrewrites.row_move hfiled tables rfl rfl _ (by rintro _ ⟨⟩) (fun hsettling => ?_) id
    obtain ⟨hact, hnext⟩ := hrewrites.fence_eq hfiled
    cases reason with
    | some reason => rw [hrow] at hsettling; cases hsettling
    | none =>
      rw [hnext, hrow]
      exact ⟨pushed, ports, now, act, hact, hrewrites.notSettling, hreason, rfl⟩
  | @retired fence now act hrow hepoch hholder hsettling =>
    have hid := hfiled _ _ hrow
    have hfence : act.fence = fence := by rw [CheckoutLeaseAct.fence, hid, hepoch, hholder]
    by_cases heq : act.checkoutId = id
    · subst heq
      have hop : LeaseOp.finishTeardown fence now = .finishTeardown act.fence now := by rw [hfence]
      refine .retired (by rw [hid, hrow]) hsettling hop
        (tables.lease_retire_self ..) ?_ (by rintro _ ⟨⟩)
      rw [highest, lease_retire_self,
        tombstone_retire_self]
      exact U64.val_max .. ▸ Nat.le_max_right ..
    · exact .same (update_of_ne (Ne.symm heq) ..) (update_of_ne (Ne.symm heq) ..)
        (by rintro _ ⟨⟩)

end Moves

end Oneiron
