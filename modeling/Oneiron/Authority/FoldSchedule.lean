import Oneiron.Authority.LogStructure
import Oneiron.Foundations.EachKey
import Oneiron.Foundations.Looping

/-!
# Authority/FoldSchedule — the scheduler of the authority fold, and the rescan it stands for

    queue --pop--▸ ready: land, wake its children | invalid: reject | waiting: drop
      └-empty--▸ stalled pass over what is pending, past the retired enrolments that failed

A step takes the first pending row whose transition does not wait.  The schedule finds it in a queue
of the rows that may have changed since they last waited; the rescan tries every pending row.
-/

open Std

namespace Oneiron

open Sum List OrderedSet ExtTreeSet

namespace FoldSchedule

/-! ## Rows -/

def roleAgent : UInt16 := 0x0004

/-- The operations the scheduler and the stalled pass tell apart. -/
inductive RowOp where
  | enrollDevice (roles : UInt16)
  | rotateKey
  | revokeActor
  | revokeDevice
  | bindActor
  | rebindActor
  | federationLifecycle
  | federationConfirm
  | criticalWriteConfirm
  | ownerRoot
  | slipMint
  | slipRevoke
  | slipConsume
  | slipGrantRevoke
  | removalArchiveConsume
  | frontierJoin
  | custodyPermitPiece
  | machineProfile (role : MachineRole)
  | other
  deriving DecidableEq

/-- The revokes, which go before any ready grant. -/
def RowOp.revokes : RowOp → Bool
  | revokeActor | revokeDevice => true
  | _ => false

def RowOp.enrolls : RowOp → Bool
  | enrollDevice _ => true
  | _ => false

/-- `op_is_retired_device_op`. -/
def RowOp.isRetiredDeviceOp : RowOp → Bool
  | enrollDevice roles => roles ≠ roleAgent
  | rotateKey => true
  | _ => false

/-- `restrictive_withdrawal`. -/
def RowOp.restrictiveWithdrawal : RowOp → Bool
  | revokeActor | slipRevoke | slipConsume | slipGrantRevoke | removalArchiveConsume => true
  | machineProfile role => role = .removed
  | _ => false

/-- `skippable_permissive`. -/
def RowOp.skippablePermissive : RowOp → Bool
  | bindActor | rebindActor | enrollDevice _ | federationLifecycle | ownerRoot => true
  | slipMint | federationConfirm | criticalWriteConfirm | frontierJoin | custodyPermitPiece => true
  | machineProfile role => role ≠ .removed
  | _ => false

/-- `AuthorityLogEntry`, as the scheduler and the stalled pass read it. -/
structure Row where
  op : RowOp
  parentHashes : List Bytes32
  vaultId : Option Bytes32
  signerKey : AuthorityKey
  seq : UInt64

abbrev Rows := OrderedMap Bytes32 Row

/-- `EntryFold`. -/
inductive EntryFold (σ ι : Type) where
  | ready (state : σ)
  | waiting
  | invalid (issue : ι)

/-- The states folded so far. -/
abbrev States (σ : Type) := OrderedMap Bytes32 σ

/-- A fold's transition and its context, over any states and issues. -/
structure Transition (σ ι : Type) where
  /-- `fold_entry_state`, of the row of a hash. -/
  foldEntryState : Bytes32 → States σ → EntryFold σ ι
  /-- `fold_entry_state` in the context without its pre-handoff rows. -/
  foldHistorical : Bytes32 → States σ → EntryFold σ ι
  /-- Whether the context names pre-handoff rows, and not this one. -/
  pastHandoffs : Bytes32 → Bool
  /-- Whether the context's ancestor index has a row beneath itself. -/
  beneathItself : Bytes32 → Bool
  vaultId : σ → Bytes32
  mergeStates : σ → σ → σ
  /-- A state with the sequence of a key at least this high. -/
  raiseSeq : σ → AuthorityKey → UInt64 → σ
  /-- `AuthorityFoldIssue::InvalidAncestry`. -/
  invalidAncestry : Bytes32 → ι

section Evaluation

variable {σ ι : Type} (fold : Transition σ ι) (rows : Rows)

/-- `entry_is_retired`. -/
def entryIsRetired (row : Row) (hash : Bytes32) : Bool :=
  row.op.isRetiredDeviceOp && fold.pastHandoffs hash

/-! ## The stalled ancestry of a withdrawal -/

/-- `ParentOutcome`. -/
inductive ParentOutcome (σ : Type) where
  | ready (state : σ)
  | rejectedAncestry (row : Row)
  | unavailable

/-- `parent_outcome`. -/
def parentOutcome (states : States σ) (rejected : OrderedSet Bytes32) (hash : Bytes32) :
    ParentOutcome σ :=
  match states[hash]? with
  | some state => .ready state
  | none =>
    match rows[hash]? with
    | some row =>
      if hash ∈ rejected ∧ row.op.skippablePermissive then .rejectedAncestry row else .unavailable
    | none => .unavailable

/-- What a walk up a rejected ancestry has gathered. -/
structure Resolving (σ : Type) where
  merged : Option σ := none
  crossedVaults : List (Option Bytes32) := []
  crossedSeqs : OrderedMap AuthorityKey UInt64 := ∅

/-- What a rejected row leads on to. -/
def pastRejected (states : States σ) (rejected : OrderedSet Bytes32) (hash : Bytes32) :
    List Bytes32 :=
  match parentOutcome rows states rejected hash with
  | .rejectedAncestry row => row.parentHashes
  | _ => []

/-- One row of the walk; what refuses the proof refuses whatever comes after. -/
def resolveRow (states : States σ) (rejected : OrderedSet Bytes32)
    (found : Option (Resolving σ)) (hash : Bytes32) : Option (Resolving σ) := do
  let walk ← found
  if fold.beneathItself hash then none else
  match parentOutcome rows states rejected hash with
  | .ready state =>
    match walk.merged with
    | some current =>
      if fold.vaultId current ≠ fold.vaultId state then none
      else some { walk with merged := some (fold.mergeStates current state) }
    | none => some { walk with merged := some state }
  | .rejectedAncestry row =>
    if row.parentHashes = [] then none else some { walk with
      crossedVaults := walk.crossedVaults ++ [row.vaultId]
      crossedSeqs := walk.crossedSeqs.insert row.signerKey
        (max ((walk.crossedSeqs[row.signerKey]?).getD row.seq) row.seq) }
  | .unavailable => none

/-- The hashes of the rows. -/
def hashes : Finset Bytes32 := (rows.toList.map Prod.fst).toFinset

variable {rows} in
theorem pastRejected_of_notMem {states : States σ} {rejected : OrderedSet Bytes32} (hash : Bytes32)
    (h : hash ∉ hashes rows) : pastRejected rows states rejected hash = [] := by
  have hnone : rows[hash]? = none := by
    refine Option.eq_none_iff_forall_not_mem.mpr fun row hrow => h ?_
    exact mem_toFinset.mpr (mem_map.mpr
      ⟨(hash, row), ExtTreeMap.mem_toList_iff_getElem?_eq_some.mpr hrow, rfl⟩)
  unfold pastRejected parentOutcome
  rw [hnone]
  cases states[hash]? <;> rfl

/-- `resolve_parent`. -/
def resolveParent (states : States σ) (rejected : OrderedSet Bytes32) (start : Bytes32) : Option σ := do
  let walk ← search (pastRejected rows states rejected) (resolveRow fold rows states rejected)
    (hashes rows) pastRejected_of_notMem [start] (some {})
  if walk.crossedVaults.any (· ≠ walk.merged.map fold.vaultId) then none else
  let merged ← walk.merged
  pure (walk.crossedSeqs.toList.foldl (fun state (key, seq) => fold.raiseSeq state key seq) merged)

/-- A parent that is missing resolved past what was rejected. -/
def substituteParent (states : States σ) (rejected : OrderedSet Bytes32) (scratch : States σ × Bool)
    (parent : Bytes32) : Option (States σ × Bool) :=
  if parent ∈ scratch.1 then some scratch else do
    let state ← resolveParent fold rows states rejected parent
    pure (scratch.1.insert parent state, true)

/-- The states with every parent of a row, and whether one was missing. -/
def substituteParents (states : States σ) (rejected : OrderedSet Bytes32) (row : Row) :
    Option (States σ × Bool) :=
  row.parentHashes.foldlM (substituteParent fold rows states rejected) (states, false)

/-- `stalled_actor_revoke`. -/
def stalledActorRevoke (states : States σ) (rejected : OrderedSet Bytes32) (row : Row)
    (hash : Bytes32) : Option σ :=
  if row.op.restrictiveWithdrawal then do
    let (scratch, substituted) ← substituteParents fold rows states rejected row
    if substituted then
      match fold.foldEntryState hash scratch with
      | .ready state => some state
      | _ => none
    else none
  else none

/-- `evaluate_entry` in the stalled phase. -/
def evaluateStalled (states : States σ) (rejected : OrderedSet Bytes32) (row : Row)
    (hash : Bytes32) : EntryFold σ ι :=
  match fold.foldEntryState hash states with
  | .waiting => (stalledActorRevoke fold rows states rejected row hash).elim .waiting .ready
  | result => result

end Evaluation

/-! ## A fold under way -/

/-- A fold under way: its states, the rows still pending, the retired enrolments that failed and the
issues found. -/
structure Folding (σ ι : Type) where
  states : States σ
  pending : OrderedSet Bytes32
  rejectedRetired : OrderedSet Bytes32 := ∅
  issues : List ι

/-- A fold under way with the rows that may have changed since they last waited. -/
structure Scheduled (σ ι : Type) extends Folding σ ι where
  queue : OrderedSet (Bool × Bytes32)

section Steps

variable {σ ι : Type} (fold : Transition σ ι) (rows : Rows)

/-- A row's place in the fold: the revokes first, then by hash. -/
def order (hash : Bytes32) : Bool × Bytes32 := (!(rows[hash]?).any (·.op.revokes), hash)

/-- `children`: the rows that name a parent, once for each time they name it. -/
def children (parent : Bytes32) : List Bytes32 :=
  rows.toList.flatMap fun (hash, row) =>
    (row.parentHashes.filter (· = parent)).map fun _ => hash

namespace Folding

variable (f : Folding σ ι)

/-- A row's state landed. -/
def land (hash : Bytes32) (state : σ) : Folding σ ι :=
  { f with states := f.states.insert hash state, pending := f.pending.erase hash }

/-- A row found invalid. -/
def reject (hash : Bytes32) (issue : ι) : Folding σ ι :=
  { f with
    pending := f.pending.erase hash
    rejectedRetired :=
      if (rows[hash]?).any fun row => row.op.enrolls && entryIsRetired fold row hash then
        f.rejectedRetired.insert hash
      else f.rejectedRetired
    issues := f.issues ++ [issue] }

/-- The retired enrolments a withdrawal may be judged past. -/
def crossable : OrderedSet Bytes32 :=
  f.rejectedRetired.filter fun hash =>
    match fold.foldHistorical hash f.states with
    | .ready _ => true
    | _ => false

/-- A stalled row's state, if it lands past what was rejected. -/
def landsStalled (crossable : OrderedSet Bytes32) (hash : Bytes32) : Option σ :=
  match rows[hash]? with
  | none => none
  | some row =>
    match evaluateStalled fold rows f.states crossable row hash with
    | .ready state => some state
    | _ => none

end Folding

/-! ## The schedule -/

namespace Scheduled

variable (s : Scheduled σ ι)

/-- The row whose turn it is. -/
def first : Option (Bool × Bytes32) := s.queue.toList.head?

/-- The schedule once a row's state landed: its pending children are queued. -/
def land (hash : Bytes32) (state : σ) : Scheduled σ ι :=
  let landed := s.toFolding.land hash state
  { landed with
    queue := (((children rows hash).filter (· ∈ landed.pending)).map (order rows)).foldl
      (fun queue place => queue.insert place) s.queue }

/-- One row of the stalled pass, and whether any landed. -/
def passRow (crossable : OrderedSet Bytes32) (pass : Scheduled σ ι × Bool) (hash : Bytes32) :
    Scheduled σ ι × Bool :=
  match pass.1.landsStalled fold rows crossable hash with
  | some state => (pass.1.land rows hash state, true)
  | none => pass

/-- A turn of the schedule: a row of the queue, or the stalled pass once the queue is empty. -/
def step : Scheduled σ ι ⊕ Folding σ ι :=
  match s.first with
  | some place =>
    let popped := { s with queue := s.queue.erase place }
    match fold.foldEntryState place.2 s.states with
    | .ready state => .inl (popped.land rows place.2 state)
    | .invalid issue => .inl { popped with toFolding := s.reject fold rows place.2 issue }
    | .waiting => .inl popped
  | none =>
    if s.rejectedRetired = ∅ then .inr s.toFolding else
      let pass := s.pending.toList.foldl (passRow fold rows (s.crossable fold)) (s, false)
      if pass.2 then .inl pass.1 else .inr pass.1.toFolding

/-- The queued rows that landed before their turn. -/
def strays : OrderedSet (Bool × Bytes32) := s.queue.filter (·.2 ∉ s.pending)

end Scheduled

/-! ## The rescan -/

namespace Folding

variable (f : Folding σ ι)

/-- The pending rows in their order. -/
def inOrder : List Bytes32 :=
  ((f.pending.toList.map (order rows)).foldl (fun (set : OrderedSet (Bool × Bytes32)) place =>
    set.insert place) ∅).toList.map Prod.snd

/-- Whether a row's transition waits. -/
def waits (hash : Bytes32) : Bool :=
  match fold.foldEntryState hash f.states with
  | .waiting => true
  | _ => false

/-- One row of the stalled pass, and whether any landed. -/
def passRow (crossable : OrderedSet Bytes32) (pass : Folding σ ι × Bool) (hash : Bytes32) :
    Folding σ ι × Bool :=
  match pass.1.landsStalled fold rows crossable hash with
  | some state => (pass.1.land hash state, true)
  | none => pass

/-- A turn of the rescan: the first pending row that does not wait, or the stalled pass when every
one does. -/
def rescanStep : Folding σ ι ⊕ Folding σ ι :=
  match (f.inOrder rows).find? (!f.waits fold ·) with
  | some hash =>
    match fold.foldEntryState hash f.states with
    | .ready state => .inl (f.land hash state)
    | .invalid issue => .inl (f.reject fold rows hash issue)
    | .waiting => .inr f
  | none =>
    if f.rejectedRetired = ∅ then .inr f else
      let pass := f.pending.toList.foldl (passRow fold rows (f.crossable fold)) (f, false)
      if pass.2 then .inl pass.1 else .inr pass.1

end Folding

/-! ## Both end -/

variable {fold rows}

variable {set : OrderedSet Bytes32} {hash : Bytes32} {place : Bool × Bytes32} (s : Scheduled σ ι)

theorem mem_inOrder {f : Folding σ ι} : hash ∈ f.inOrder rows ↔ hash ∈ f.pending := by
  simp only [Folding.inOrder, mem_map, mem_toList, mem_foldl_insert]
  constructor
  · rintro ⟨place, hplace | ⟨h, hh, rfl⟩, rfl⟩
    · exact absurd hplace not_mem_empty
    · exact hh
  · exact fun h => ⟨order rows hash, Or.inr ⟨hash, h, rfl⟩, rfl⟩

theorem size_erase_lt (h : hash ∈ set) : (set.erase hash).size < set.size :=
  size_lt (fun _ hk => (mem_erase.mp hk).2) h (by simp)

/-- What a stalled pass lands is pending no more. -/
theorem size_foldl_passRow (crossable : OrderedSet Bytes32) :
    ∀ (stalled : List Bytes32) (pass : Folding σ ι × Bool), stalled.Nodup →
      (∀ hash ∈ stalled, hash ∈ pass.1.pending) →
      (stalled.foldl (Folding.passRow fold rows crossable) pass).1.pending.size <
          pass.1.pending.size ∨
        stalled.foldl (Folding.passRow fold rows crossable) pass = pass
  | [], _, _, _ => Or.inr rfl
  | hash :: stalled, (f, landed), hnodup, hpending => by
    rw [nodup_cons] at hnodup
    rw [forall_mem_cons] at hpending
    rw [foldl_cons, Folding.passRow]
    split
    · next state _ =>
      have hrest : ∀ other ∈ stalled, other ∈ (f.land hash state).pending := fun other hother =>
        mem_erase.mpr ⟨fun heq =>
          hnodup.1 (Std.compare_eq_iff_eq.mp heq ▸ hother), hpending.2 other hother⟩
      have hlt : (f.land hash state).pending.size < f.pending.size := size_erase_lt hpending.1
      have hbelow := size_foldl_passRow crossable stalled (f.land hash state, true) hnodup.2 hrest
      exact Or.inl (hbelow.elim (fun h => h.trans hlt) fun h => by rw [h]; exact hlt)
    · exact size_foldl_passRow crossable stalled (f, landed) hnodup.2 hpending.2

/-- A pass that lands a row leaves fewer pending. -/
theorem size_pass_lt {f : Folding σ ι} {crossable : OrderedSet Bytes32}
    (h : (f.pending.toList.foldl (Folding.passRow fold rows crossable) (f, false)).2) :
    (f.pending.toList.foldl (Folding.passRow fold rows crossable) (f, false)).1.pending.size <
      f.pending.size := by
  have hnodup : f.pending.toList.Nodup := (distinct_toList (t := f.pending)).imp
    fun hab heq => hab (Std.compare_eq_iff_eq.mpr heq)
  refine (size_foldl_passRow crossable _ (f, false) hnodup fun _ => mem_toList.mp).resolve_right
    fun heq => ?_
  rw [heq] at h
  exact Bool.false_ne_true h

theorem rescanStep_lt (f f' : Folding σ ι) (h : f.rescanStep fold rows = .inl f') :
    f'.pending.size < f.pending.size := by
  unfold Folding.rescanStep at h
  split at h
  · next hash hfind =>
    have hpending : hash ∈ f.pending := mem_inOrder.mp (mem_of_find?_eq_some hfind)
    split at h
    · exact inl.inj h ▸ size_erase_lt hpending
    · exact inl.inj h ▸ size_erase_lt hpending
    · exact nomatch h
  · split at h
    · exact nomatch h
    · dsimp only at h
      split at h
      · next hlanded => exact inl.inj h ▸ size_pass_lt hlanded
      · exact nomatch h

/-- The stalled pass of the schedule lands what the rescan's does. -/
theorem toFolding_foldl_passRow (crossable : OrderedSet Bytes32) :
    ∀ (stalled : List Bytes32) (s : Scheduled σ ι) (landed : Bool),
      stalled.foldl (Folding.passRow fold rows crossable) (s.toFolding, landed) =
        ((stalled.foldl (Scheduled.passRow fold rows crossable) (s, landed)).1.toFolding,
          (stalled.foldl (Scheduled.passRow fold rows crossable) (s, landed)).2)
  | [], _, _ => rfl
  | hash :: stalled, s, landed => by
    rw [foldl_cons, foldl_cons, Folding.passRow, Scheduled.passRow]
    cases s.landsStalled fold rows crossable hash with
    | none => exact toFolding_foldl_passRow crossable stalled s landed
    | some state => exact toFolding_foldl_passRow crossable stalled (s.land rows hash state) true

/-- The measure of a schedule: the rows pending, the strays, the queue. -/
def Scheduled.left (s : Scheduled σ ι) : ℕ × ℕ × ℕ :=
  (s.pending.size, s.strays.size, s.queue.size)

theorem mem_strays {s : Scheduled σ ι} :
    place ∈ s.strays ↔ place ∈ s.queue ∧ place.2 ∉ s.pending := by
  simp [Scheduled.strays]

theorem erase_of_notMem (h : hash ∉ set) : set.erase hash = set := by
  ext k
  rw [mem_erase, Ne, Std.compare_eq_iff_eq]
  exact ⟨fun hk => hk.2, fun hk => ⟨fun heq => h (heq ▸ hk), hk⟩⟩

/-- A turn that leaves what is pending takes a stray, or shortens the queue. -/
theorem left_lt_of_popped {s s' : Scheduled σ ι} (hplace : place ∈ s.queue)
    (hpending : s'.pending = s.pending)
    (hqueue : ∀ k ∈ s'.queue, k ∈ s.queue ∧ k ≠ place ∨ place.2 ∉ s.pending ∧ k.2 ∈ s.pending)
    (hkept : ∀ k ∈ s.queue, k ≠ place → k ∈ s'.queue) :
    Prod.Lex (· < ·) (Prod.Lex (· < ·) (· < ·)) s'.left s.left := by
  unfold Scheduled.left
  rw [hpending]
  refine Prod.Lex.right _ ?_
  by_cases hin : place.2 ∈ s.pending
  · have hstrays : s'.strays = s.strays := by
      ext k
      rw [mem_strays, mem_strays, hpending]
      refine and_congr_left fun hk => ⟨fun h => ?_, fun h => hkept k h fun heq => hk (heq ▸ hin)⟩
      exact (hqueue k h).elim (fun h => h.1) fun h => absurd hin h.1
    rw [hstrays]
    refine Prod.Lex.right _ (size_lt (fun k hk => ?_) hplace fun h => ?_)
    · exact (hqueue k hk).elim (fun h => h.1) fun h => absurd hin h.1
    · exact (hqueue place h).elim (fun h => h.2 rfl) fun h => h.1 hin
  · refine Prod.Lex.left _ _ (size_lt (fun k hk => ?_) (mem_strays.mpr ⟨hplace, hin⟩)
      fun h => ?_)
    · rw [mem_strays, hpending] at hk
      exact mem_strays.mpr ⟨(hqueue k hk.1).elim (fun h => h.1) fun h => absurd h.2 hk.2, hk.2⟩
    · rw [mem_strays] at h
      exact (hqueue place h.1).elim (fun h => h.2 rfl) fun h => hin h.2

theorem first_eq_min? : s.first = s.queue.min? :=
  min?_eq_head?_toList.symm

theorem mem_of_first {s : Scheduled σ ι} (h : s.first = some place) :
    place ∈ s.queue := min?_mem (first_eq_min? s ▸ h)

/-- The queue once a row landed. -/
theorem mem_queue_land {s : Scheduled σ ι} {state : σ} :
    place ∈ (s.land rows hash state).queue ↔ place ∈ s.queue ∨
      ∃ child ∈ children rows hash, child ∈ (s.toFolding.land hash state).pending ∧
        order rows child = place := by
  simp only [Scheduled.land, mem_foldl_insert, mem_map, mem_filter,
    decide_eq_true_eq, and_assoc]

theorem mem_erase_place {queue : OrderedSet (Bool × Bytes32)} {k : Bool × Bytes32} :
    k ∈ queue.erase place ↔ k ∈ queue ∧ k ≠ place := by
  rw [mem_erase, Ne, Std.compare_eq_iff_eq, eq_comm, and_comm]

/-- **Every turn of the schedule leaves less to do**: a row pending no more, or else a stray taken,
or else a shorter queue. -/
theorem step_lt (s' : Scheduled σ ι) (h : s.step fold rows = .inl s') :
    Prod.Lex (· < ·) (Prod.Lex (· < ·) (· < ·)) s'.left s.left := by
  unfold Scheduled.step at h
  split at h
  · next place hmin =>
    have hplace : place ∈ s.queue := mem_of_first hmin
    have hkept (k : Bool × Bytes32) (hk : k ∈ s.queue) (hne : k ≠ place) :
        k ∈ s.queue.erase place := mem_erase_place.mpr ⟨hk, hne⟩
    by_cases hin : place.2 ∈ s.pending
    · split at h
      · exact inl.inj h ▸ Prod.Lex.left _ _ (size_erase_lt hin)
      · exact inl.inj h ▸ Prod.Lex.left _ _ (size_erase_lt hin)
      · refine inl.inj h ▸ left_lt_of_popped hplace rfl (fun k hk => ?_) hkept
        exact Or.inl (mem_erase_place.mp hk)
    · split at h
      · next state _ =>
        refine inl.inj h ▸ left_lt_of_popped hplace (erase_of_notMem hin) (fun k hk => ?_)
          fun k hk hne => mem_queue_land.mpr (Or.inl (hkept k hk hne))
        rcases mem_queue_land.mp hk with hk | ⟨child, -, hchild, rfl⟩
        · exact Or.inl (mem_erase_place.mp hk)
        · exact Or.inr ⟨hin, (mem_erase.mp hchild).2⟩
      · refine inl.inj h ▸ left_lt_of_popped hplace (erase_of_notMem hin) (fun k hk => ?_) hkept
        exact Or.inl (mem_erase_place.mp hk)
      · refine inl.inj h ▸ left_lt_of_popped hplace rfl (fun k hk => ?_) hkept
        exact Or.inl (mem_erase_place.mp hk)
  · split at h
    · exact nomatch h
    · dsimp only at h
      split at h
      · next hlanded =>
        have hpass : s.pending.toList.foldl (Folding.passRow fold rows (s.crossable fold))
            (s.toFolding, false) = _ := toFolding_foldl_passRow _ s.pending.toList s false
        have hlt := size_pass_lt (f := s.toFolding) (congrArg Prod.snd hpass ▸ hlanded)
        rw [hpass] at hlt
        exact inl.inj h ▸ Prod.Lex.left _ _ hlt
      · exact nomatch h

variable (fold rows)

/-- The turns of a schedule, until it stops. -/
def schedule (s : Scheduled σ ι) : Folding σ ι :=
  match _h : s.step fold rows with
  | .inl s' => schedule s'
  | .inr f => f
termination_by s.left
decreasing_by exact step_lt _ _ _h

/-- The turns of a rescan, until it stops. -/
def rescan (f : Folding σ ι) : Folding σ ι :=
  loop (Folding.rescanStep fold rows) (·.pending.size) rescanStep_lt f

/-- What a fold leaves: the states, the rows it never folded, and its issues, theirs last. -/
structure Folded (σ ι : Type) where
  states : States σ
  unfolded : List Bytes32
  issues : List ι

/-- What is left pending never folds. -/
def Folding.finish (f : Folding σ ι) : Folded σ ι where
  states := f.states
  unfolded := f.pending.toList
  issues := f.issues ++ f.pending.toList.map fold.invalidAncestry

/-- Every row the seed does not hold is pending. -/
def startFolding (seed : States σ) (issues : List ι) : Folding σ ι where
  states := seed
  pending := ((rows.toList.map Prod.fst).filter (· ∉ seed)).foldl
    (fun (set : OrderedSet Bytes32) hash => set.insert hash) ∅
  issues

/-- Every pending row is queued. -/
def Folding.queueAll (f : Folding σ ι) : Scheduled σ ι :=
  { f with
    queue := (f.pending.toList.map (order rows)).foldl
      (fun (queue : OrderedSet (Bool × Bytes32)) place => queue.insert place) ∅ }

/-- `fold_entry_states_seeded`. -/
def foldEntryStatesSeeded (seed : States σ) (issues : List ι) : Folded σ ι :=
  (schedule fold rows ((startFolding rows seed issues).queueAll rows)).finish fold

/-- The fold that tries every pending row at each turn. -/
def foldRescanned (seed : States σ) (issues : List ι) : Folded σ ι :=
  (rescan fold rows (startFolding rows seed issues)).finish fold

end Steps

end FoldSchedule

end Oneiron
