import Oneiron.Contracts.EntityId
import Oneiron.Foundations.Fallible

/-!
# Deletion/TopologyDeleteIntent — the interlock between a published tombstone and its purge

One row per entity says which deletion request holds it and how far that request has come.

      reserve            reserve             reserve
    ----------▸ prepared -------▸ published -------▸ committed
                    │                 │                  │
                    ▾                 ▾                  ▾
                  clear      clear, replay done,    (the same three)
                             a hard take-over

A hard deletion is finished only once its own `dt:` marker stands, so every function here reads the
two rows together.
-/

namespace Oneiron

/-! ## The values deletion rows carry

A tombstone value is a reason byte, the second the deletion was asked for and the request's id.
What a receiver reads back is hard unless it decodes to a reason it knows to be soft: the legacy
eight-byte shape, an unknown byte and every malformed length are all hard.
-/

/-- A deletion request's sixteen-byte id. -/
@[ext] structure RequestId where
  asBytes : Bytes
  length_asBytes : asBytes.length = 16

instance : DecidableEq RequestId := fun a b =>
  decidable_of_iff (a.asBytes = b.asBytes) RequestId.ext_iff.symm

attribute [simp] RequestId.length_asBytes

/-- The id every byte of which is `b`. -/
def RequestId.filled (b : UInt8) : RequestId := ⟨List.replicate 16 b, EntityId.length_filled b⟩

inductive TombstoneReason where
  | userDelete | userHardDelete | gdprDelete | policyDelete
  /-- The vault's own archive: soft, and never sent to a peer. -/
  | archivedByCleanup
  | ownerErase
  deriving DecidableEq

namespace TombstoneReason

def wireByte : TombstoneReason → UInt8
  | userDelete => 1
  | userHardDelete => 2
  | gdprDelete => 3
  | policyDelete => 4
  | archivedByCleanup => 5
  | ownerErase => 6

/-- `None` for the reserved byte 0 and every unknown one. -/
def fromWireByte (b : UInt8) : Option TombstoneReason :=
  if b = 1 then some userDelete
  else if b = 2 then some userHardDelete
  else if b = 3 then some gdprDelete
  else if b = 4 then some policyDelete
  else if b = 5 then some archivedByCleanup
  else if b = 6 then some ownerErase
  else none

/-- `is_hard`: only a user's delete and the archive keep the shell. -/
def isHard (reason : TombstoneReason) : Bool := reason ≠ userDelete && reason ≠ archivedByCleanup

@[simp] theorem fromWireByte_wireByte (reason : TombstoneReason) :
    fromWireByte reason.wireByte = some reason := by
  cases reason <;> rfl

end TombstoneReason

/-- The eight little-endian bytes of a word. -/
def leBytes (x : UInt64) : Bytes := (digits 8 x.toNat).reverse

/-- The word eight little-endian bytes spell. -/
def ofLeBytes (b : Bytes) : UInt64 := (valueOf b.reverse).toUInt64

@[ext] structure TombstoneValueV2 where
  reason : TombstoneReason
  /-- The second the deletion was asked for. -/
  deletedAt : UInt64
  requestId : RequestId
  deriving DecidableEq

/-- `[reason:1][deleted_at:8 LE][request_id:16]`. -/
def TombstoneValueV2.encode (value : TombstoneValueV2) : Bytes :=
  value.reason.wireByte :: (leBytes value.deletedAt ++ value.requestId.asBytes)

@[ext] structure DecodedTombstoneValue where
  reason : Option TombstoneReason
  deletedAt : UInt64
  /-- Only the twenty-five-byte shape carries one. -/
  requestId : Option RequestId
  deriving DecidableEq

/-- The receiver's branch: hard unless the reason is known and soft. -/
def DecodedTombstoneValue.isHard (value : DecodedTombstoneValue) : Bool :=
  value.reason.all TombstoneReason.isHard

/-- What any value a peer may have sent is read as. -/
def decodeTombstoneValue (value : Bytes) : DecodedTombstoneValue :=
  if value.length = 8 then ⟨none, ofLeBytes value, none⟩
  else if h : value.length = 25 then
    ⟨value.head?.bind TombstoneReason.fromWireByte, ofLeBytes ((value.drop 1).take 8),
      some ⟨value.drop 9, by simp [h]⟩⟩
  else ⟨none, 0, none⟩

@[simp] theorem DecodedTombstoneValue.isHard_some {reason : TombstoneReason} {time : UInt64}
    {id : Option RequestId} :
    DecodedTombstoneValue.isHard ⟨some reason, time, id⟩ = reason.isHard := rfl

section Intents

inductive TopologyDeletePhase where
  /-- Reserved before an attempted publication. -/
  | prepared
  /-- The matching tombstone was durably published. -/
  | published
  /-- The first destructive transaction committed. -/
  | committed
  deriving DecidableEq

def TopologyDeletePhase.byte : TopologyDeletePhase → UInt8
  | prepared => 0
  | published => 1
  | committed => 2

def TopologyDeletePhase.ofByte (b : UInt8) : Option TopologyDeletePhase :=
  if b = 0 then some prepared else if b = 1 then some published else if b = 2 then some committed
  else none

@[simp] theorem TopologyDeletePhase.ofByte_byte (phase : TopologyDeletePhase) :
    ofByte phase.byte = some phase := by
  cases phase <;> rfl

@[ext] structure TopologyDeleteIntent where
  phase : TopologyDeletePhase
  requestId : RequestId
  reason : TombstoneReason
  deletedAt : UInt64
  windowTs : UInt64
  deriving DecidableEq

/-- The errors these functions return. -/
inductive TopologyDeleteError where
  | corruptedIndex (what : String)
  | activeMergeParticipantDeletion (entity : EntityId)
  deriving DecidableEq

namespace TopologyDeleteIntent

/-- `[phase:1][request_id:16][reason:1][deleted_at:8 LE][window_ts:8 LE]`. -/
def toRaw (intent : TopologyDeleteIntent) : Bytes :=
  intent.phase.byte :: (intent.requestId.asBytes ++
    intent.reason.wireByte :: (leBytes intent.deletedAt ++ leBytes intent.windowTs))

/-- A malformed row is an error, never a default. -/
def fromRaw (raw : Bytes) : Except TopologyDeleteError TopologyDeleteIntent :=
  if h : raw.length = 34 then do
    let phase ← okOr (raw.head?.bind TopologyDeletePhase.ofByte)
      (.corruptedIndex "topology delete intent")
    let reason ← okOr ((raw.drop 17).head?.bind TombstoneReason.fromWireByte)
      (.corruptedIndex "topology delete intent reason")
    pure ⟨phase, ⟨(raw.drop 1).take 16, by simp [h]⟩, reason, ofLeBytes ((raw.drop 18).take 8),
      ofLeBytes (raw.drop 26)⟩
  else .error (.corruptedIndex "topology delete intent")

/-- The request a deletion's own value names, reserved at a phase. -/
def ofValue (value : TombstoneValueV2) (windowTs : UInt64) (phase : TopologyDeletePhase) :
    TopologyDeleteIntent :=
  ⟨phase, value.requestId, value.reason, value.deletedAt, windowTs⟩

end TopologyDeleteIntent

/-- One entity's rows: its reservation, and the `dt:` marker of a completed hard deletion. -/
@[ext] structure TopologyRows where
  intent : Option TopologyDeleteIntent
  hardDeleteMarker : Option Bytes
  deriving DecidableEq

namespace TopologyRows

variable (rows : TopologyRows)

/-- Whether the `dt:` marker is this request's own. -/
def markedBy (requestId : RequestId) : Bool :=
  rows.hardDeleteMarker.any fun marker => (decodeTombstoneValue marker).requestId = some requestId

/-- `local_topology_delete_complete_in_txn`: a soft deletion is done once committed, a hard one once
its own marker stands too. -/
def localTopologyDeleteComplete (intent : TopologyDeleteIntent) : Bool :=
  intent.phase = .committed && (!intent.reason.isHard || rows.markedBy intent.requestId)

/-- `hard_request_subsumes`: what another request's hard tombstone leaves nothing to add to. -/
def hardRequestSubsumes (existing : TopologyDeleteIntent) (value : TombstoneValueV2) : Bool :=
  if existing.requestId = value.requestId || !value.reason.isHard then false
  else if !existing.reason.isHard then true
  else existing.phase ≠ .prepared && !rows.localTopologyDeleteComplete existing

/-- `reserve_topology_delete_in_txn`: a retry advances its own phase, and a published or committed
hard request takes over what it subsumes. -/
def reserveTopologyDelete (entity : EntityId) (value : TombstoneValueV2) (windowTs : UInt64)
    (phase : TopologyDeletePhase) : Except TopologyDeleteError TopologyRows :=
  let put := { rows with intent := some (.ofValue value windowTs phase) }
  match rows.intent with
  | none => .ok put
  | some existing =>
    if rows.hardRequestSubsumes existing value then
      if phase = .prepared then .ok rows else .ok put
    else if existing.requestId ≠ value.requestId ∨ existing.reason ≠ value.reason ∨
        existing.deletedAt ≠ value.deletedAt ∨ existing.windowTs ≠ windowTs then
      .error (.activeMergeParticipantDeletion entity)
    else if phase.byte ≤ existing.phase.byte then .ok rows
    else .ok put

/-- `guard_topology_delete_request_in_txn`: a replay of another request waits for the holder's own
deletion, and passes only when it is no stronger. -/
def guardTopologyDeleteRequest (entity : EntityId) (value : DecodedTombstoneValue) :
    Except TopologyDeleteError Unit :=
  match rows.intent with
  | none => .ok ()
  | some intent =>
    if value.requestId = some intent.requestId ∨ ((!value.isHard || intent.reason.isHard) &&
        rows.localTopologyDeleteComplete intent) then .ok ()
    else .error (.activeMergeParticipantDeletion entity)

/-- `clear_own_topology_delete_in_txn`. -/
def clearOwnTopologyDelete (requestId : RequestId) (preparedOnly : Bool) : TopologyRows :=
  match rows.intent with
  | none => rows
  | some intent =>
    if intent.requestId = requestId ∧ (!preparedOnly || intent.phase = .prepared) then
      { rows with intent := none }
    else rows

/-- `complete_replayed_topology_delete_in_txn`, on the row a retired `pt:` marker held. -/
def completeReplayedTopologyDelete (requestId : RequestId) (isHard : Bool) : TopologyRows :=
  match rows.intent with
  | none => rows
  | some intent =>
    if intent.requestId ≠ requestId ∨ intent.phase = .prepared then rows
    else if isHard && !rows.markedBy requestId then rows
    else { rows with intent := none }

/-! ## What each function can do -/

variable {rows} {t : TopologyRows} {entity : EntityId} {value : TombstoneValueV2}
  {windowTs : UInt64} {phase : TopologyDeletePhase}

/-- **A reservation is granted in three ways**: the entity is free, the request takes over what it
subsumes, or it advances its own phase. -/
theorem reserveTopologyDelete_cases
    (h : rows.reserveTopologyDelete entity value windowTs phase = .ok t) :
    t = rows ∨ (t = { rows with intent := some (.ofValue value windowTs phase) } ∧
      ∀ existing, rows.intent = some existing →
        (rows.hardRequestSubsumes existing value ∧ phase ≠ .prepared) ∨
          (existing.requestId = value.requestId ∧ existing.reason = value.reason ∧
            existing.phase.byte < phase.byte)) := by
  unfold reserveTopologyDelete at h
  split at h
  · next hnone =>
    refine Or.inr ⟨(Except.ok.inj h).symm, fun existing he => ?_⟩
    rw [hnone] at he
    cases he
  · next existing hsome =>
    split_ifs at h with hsub hprep hdiff hle
    · exact Or.inl (Except.ok.inj h).symm
    · refine Or.inr ⟨(Except.ok.inj h).symm, fun e he => ?_⟩
      obtain rfl := Option.some.inj (hsome.symm.trans he)
      exact Or.inl ⟨hsub, hprep⟩
    · exact Or.inl (Except.ok.inj h).symm
    · refine Or.inr ⟨(Except.ok.inj h).symm, fun e he => ?_⟩
      obtain rfl := Option.some.inj (hsome.symm.trans he)
      push Not at hdiff
      exact Or.inr ⟨hdiff.1, hdiff.2.1, UInt8.not_le.mp hle⟩

variable {existing : TopologyDeleteIntent} (requestId : RequestId)

/-- **What a request subsumes** is another's soft deletion, or an unfinished hard one past its
preparation; and only a hard request subsumes. -/
theorem hardRequestSubsumes_iff : rows.hardRequestSubsumes existing value ↔
      existing.requestId ≠ value.requestId ∧ value.reason.isHard ∧
        (existing.reason.isHard →
          existing.phase ≠ .prepared ∧ rows.localTopologyDeleteComplete existing = false) := by
  unfold hardRequestSubsumes
  cases existing.reason.isHard <;> cases value.reason.isHard <;>
    by_cases hid : existing.requestId = value.requestId <;> simp [hid]

theorem clearOwnTopologyDelete_cases (preparedOnly : Bool) :
    rows.clearOwnTopologyDelete requestId preparedOnly = rows ∨
      (rows.clearOwnTopologyDelete requestId preparedOnly = { rows with intent := none } ∧
        ∃ existing, rows.intent = some existing ∧ existing.requestId = requestId ∧
          (preparedOnly → existing.phase = .prepared)) := by
  unfold clearOwnTopologyDelete
  split
  · exact Or.inl rfl
  · next existing hsome =>
    split_ifs with hown
    · refine Or.inr ⟨rfl, existing, hsome, hown.1, fun hp => ?_⟩
      simpa [hp] using hown.2
    · exact Or.inl rfl

theorem completeReplayedTopologyDelete_cases (isHard : Bool) :
    rows.completeReplayedTopologyDelete requestId isHard = rows ∨
      (rows.completeReplayedTopologyDelete requestId isHard = { rows with intent := none } ∧
        ∃ existing, rows.intent = some existing ∧ existing.requestId = requestId ∧
          existing.phase ≠ .prepared ∧ (isHard → rows.markedBy requestId)) := by
  unfold completeReplayedTopologyDelete
  split
  · exact Or.inl rfl
  · next existing hsome =>
    split_ifs with hother hunmarked
    · exact Or.inl rfl
    · exact Or.inl rfl
    · push Not at hother
      refine Or.inr ⟨rfl, existing, hsome, hother.1, hother.2, fun hh => ?_⟩
      simpa [hh] using hunmarked

/-- **A replay of another request passes only behind a finished deletion at least as hard.** -/
theorem complete_of_guardTopologyDeleteRequest {decoded : DecodedTombstoneValue}
    (hsome : rows.intent = some existing) (hother : decoded.requestId ≠ some existing.requestId)
    (h : rows.guardTopologyDeleteRequest entity decoded = .ok ()) :
    rows.localTopologyDeleteComplete existing ∧ (decoded.isHard → existing.reason.isHard) := by
  unfold guardTopologyDeleteRequest at h
  rw [hsome] at h
  simp only at h
  split_ifs at h with hpass
  simp only [hother, false_or, Bool.and_eq_true, Bool.or_eq_true, Bool.not_eq_true'] at hpass
  refine ⟨hpass.2, fun hhard => ?_⟩
  simpa [hhard] using hpass.1

end TopologyRows

end Intents

/-! ## The codecs -/

open List

@[simp] theorem length_leBytes (x : UInt64) : (leBytes x).length = 8 := by simp [leBytes]

@[simp] theorem ofLeBytes_leBytes (x : UInt64) : ofLeBytes (leBytes x) = x := by
  rw [ofLeBytes, leBytes, reverse_reverse, valueOf_digits x.toNat_lt]
  exact UInt64.ofNat_toNat

theorem leBytes_ofLeBytes {b : Bytes} (h : b.length = 8) : leBytes (ofLeBytes b) = b := by
  have hlt := valueOf_lt b.reverse
  have hdigits := digits_valueOf b.reverse
  rw [length_reverse, h] at hlt hdigits
  rw [leBytes, ofLeBytes, Nat.toUInt64, UInt64.toNat_ofNat_of_lt' hlt, hdigits, reverse_reverse]

theorem TombstoneReason.fromWireByte_eq_some {b : UInt8} {reason : TombstoneReason} :
    fromWireByte b = some reason ↔ b = reason.wireByte := by
  refine ⟨fun h => ?_, fun h => h ▸ fromWireByte_wireByte reason⟩
  unfold fromWireByte at h
  split_ifs at h <;> obtain rfl := Option.some.inj h <;> assumption

theorem TopologyDeletePhase.ofByte_eq_some {b : UInt8} {phase : TopologyDeletePhase} :
    ofByte b = some phase ↔ b = phase.byte := by
  refine ⟨fun h => ?_, fun h => h ▸ ofByte_byte phase⟩
  unfold ofByte at h
  split_ifs at h <;> obtain rfl := Option.some.inj h <;> assumption

/-- **The codecs of a deletion's rows.**  An intent is read off its own bytes and nothing else; a
tombstone value is read back whole; and a value is soft only as the bytes of a soft request. -/
theorem topology_delete_codecs :
    (∀ raw intent, TopologyDeleteIntent.fromRaw raw = .ok intent ↔ raw = intent.toRaw) ∧
      (∀ value : TombstoneValueV2, decodeTombstoneValue value.encode =
        ⟨some value.reason, value.deletedAt, some value.requestId⟩) ∧
      ∀ raw, (decodeTombstoneValue raw).isHard = false ↔
        ∃ value : TombstoneValueV2, raw = value.encode ∧ value.reason.isHard = false := by
  have hvalue (value : TombstoneValueV2) : decodeTombstoneValue value.encode =
      ⟨some value.reason, value.deletedAt, some value.requestId⟩ := by
    simp [decodeTombstoneValue, TombstoneValueV2.encode]
  have hcut (raw : Bytes) (n m : ℕ) : (raw.drop n).take m ++ raw.drop (n + m) = raw.drop n := by
    rw [← drop_drop, take_append_drop]
  refine ⟨fun raw intent => ⟨fun h => ?_, ?_⟩, hvalue, fun raw => ⟨fun h => ?_, ?_⟩⟩
  · unfold TopologyDeleteIntent.fromRaw at h
    split_ifs at h with hlen
    simp only [bind_eq_ok, okOr_eq_ok, pure_eq_ok, Option.bind_eq_some_iff,
      TopologyDeletePhase.ofByte_eq_some, TombstoneReason.fromWireByte_eq_some] at h
    obtain ⟨phase, ⟨_, hphase, rfl⟩, reason, ⟨_, hreason, rfl⟩, rfl⟩ := h
    have hrest := cons_head?_tail hreason
    rw [← drop_one, drop_drop] at hrest
    rw [TopologyDeleteIntent.toRaw, leBytes_ofLeBytes (by simp [hlen]),
      leBytes_ofLeBytes (by simp [hlen]), hcut raw 18 8, hrest, hcut raw 1 16]
    exact (drop_one (l := raw) ▸ cons_head?_tail hphase).symm
  · rintro rfl
    simp [TopologyDeleteIntent.fromRaw, TopologyDeleteIntent.toRaw, drop_append, drop_of_length_le]
    rfl
  · unfold decodeTombstoneValue at h
    split_ifs at h with h8 h25
    · cases h
    · cases hreason : raw.head?.bind TombstoneReason.fromWireByte with
      | none =>
        rw [hreason] at h
        cases h
      | some reason =>
        rw [hreason] at h
        obtain ⟨_, hhead, hbyte⟩ := Option.bind_eq_some_iff.mp hreason
        obtain rfl := TombstoneReason.fromWireByte_eq_some.mp hbyte
        refine ⟨⟨reason, ofLeBytes ((raw.drop 1).take 8), ⟨raw.drop 9, by simp [h25]⟩⟩, ?_, h⟩
        rw [TombstoneValueV2.encode, leBytes_ofLeBytes (by simp [h25]), hcut raw 1 8, drop_one]
        exact (cons_head?_tail hhead).symm
    · cases h
  · rintro ⟨value, rfl, hsoft⟩
    rw [hvalue]
    exact hsoft

end Oneiron
