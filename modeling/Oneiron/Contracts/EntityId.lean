import Oneiron.Contracts.Bytes

/-!
# Contracts/EntityId — sixteen-byte ids and the layouts that embed them

The index keys a row's id is spelled into, the hex spelling document keys use, and the metadata
header at the head of a stored entity row.
-/

open Std

namespace Oneiron

open List

/-- `ENTITY_ID_LEN`. -/
def entityIdLen : ℕ := 16

/-- A sixteen-byte id. -/
@[ext] structure EntityId where
  asBytes : Bytes
  length_asBytes : asBytes.length = 16
  deriving DecidableEq

namespace EntityId

attribute [simp] length_asBytes

instance : Ord EntityId := ⟨compareOn asBytes⟩

instance : TransOrd EntityId := inferInstanceAs (TransCmp (compareOn asBytes))

instance : LawfulEqOrd EntityId where
  compare_self {id} := (ReflOrd.compare_self : compare id.asBytes id.asBytes = .eq)
  eq_of_compare {a b} h :=
    EntityId.ext (LawfulEqOrd.eq_of_compare (show compare a.asBytes b.asBytes = .eq from h))

instance : TransOrd (Bytes × EntityId) := instTransOrdProd

/-- The entity types that mint short ids, in the registry's order. -/
def shortIdTypes : List UInt8 :=
  [0, 1, 2, 3, 10, 11, 20, 40, 5, 21, 31, 4, 12, 13, 22, 30, 42, 41, 43, 100, 101, 102, 105, 106,
    110, 111, 68, 90, 80]

/-- `is_reserved_entity_id_bytes`: the sentinels no entity is named by. -/
def isReserved (bytes : Bytes) : Bool :=
  bytes = replicate 16 0x00 || bytes = replicate 16 0xFF ||
    (bytes.tail.all (· = 0xFF) && bytes.head?.any shortIdTypes.contains)

/-- `from_bytes`, on a slice of any length. -/
def fromBytes (bytes : Bytes) : Option EntityId :=
  if h : bytes.length = 16 then if isReserved bytes then none else some ⟨bytes, h⟩ else none

/-- An id that is no sentinel: what `EntityId`'s constructors give. -/
def Named (id : EntityId) : Prop := isReserved id.asBytes = false

variable {n : UInt8} {id : EntityId}

theorem named_of_fromBytes {bytes : Bytes} (h : fromBytes bytes = some id) :
    id.Named ∧ id.asBytes = bytes := by
  unfold fromBytes at h
  split at h
  · split at h
    · exact nomatch h
    · next hnamed =>
      obtain rfl := Option.some.inj h
      exact ⟨by simpa [Named] using hnamed, rfl⟩
  · exact nomatch h

theorem fromBytes_of_named (h : id.Named) : fromBytes id.asBytes = some id := by
  unfold fromBytes
  rw [dif_pos id.length_asBytes, if_neg (by rw [h]; exact Bool.false_ne_true)]

/-- `bytes_to_hex_lower`. -/
def toHex (id : EntityId) : Bytes :=
  id.asBytes.flatMap fun (b : UInt8) => [digit (b >>> 4), digit (b &&& 0x0f)]
where
  digit (n : UInt8) : UInt8 := if n < 10 then 48 + n else 87 + n

/-- `hex_nibble`. -/
def hexNibble (b : UInt8) : Option UInt8 :=
  if 48 ≤ b ∧ b ≤ 57 then some (b - 48)
  else if 97 ≤ b ∧ b ≤ 102 then some (b - 97 + 10)
  else if 65 ≤ b ∧ b ≤ 70 then some (b - 65 + 10)
  else none

/-- The bytes a string of hex digits spells. -/
def hexBytes : Bytes → Option Bytes
  | [] => some []
  | [_] => none
  | hi :: lo :: rest => do
    let hi ← hexNibble hi
    let lo ← hexNibble lo
    let rest ← hexBytes rest
    pure ((hi <<< 4 ||| lo) :: rest)

def fromHex (hex : Bytes) : Option EntityId :=
  if hex.length = 32 then (hexBytes hex).bind fromBytes else none

/-- `parse_hex_id`: only the canonical spelling names an id. -/
def parseHexId (hex : Bytes) : Option EntityId := (fromHex hex).filter (·.toHex = hex)

theorem toNat_digit (h : n.toNat < 16) :
    (toHex.digit n).toNat = if n.toNat < 10 then 48 + n.toNat else 87 + n.toNat := by
  simp only [toHex.digit, UInt8.lt_iff_toNat_lt, UInt8.reduceToNat]
  split <;> simp only [UInt8.toNat_add, UInt8.reduceToNat] <;> omega

theorem digit_injective {m : UInt8} (hn : n.toNat < 16) (hm : m.toNat < 16)
    (h : toHex.digit n = toHex.digit m) : n.toNat = m.toNat := by
  have h := congrArg UInt8.toNat h
  rw [toNat_digit hn, toNat_digit hm] at h
  split at h <;> split at h <;> omega

theorem toNat_nibbles (b : UInt8) :
    (b >>> 4).toNat = b.toNat / 16 ∧ (b &&& 0x0f).toNat = b.toNat % 16 :=
  ⟨by simp [UInt8.toNat_shiftRight, Nat.shiftRight_eq_div_pow],
    by simpa using Nat.and_two_pow_sub_one_eq_mod b.toNat 4⟩

/-- A byte is its two nibbles. -/
theorem eq_of_digits {a b : UInt8} (hhi : toHex.digit (a >>> 4) = toHex.digit (b >>> 4))
    (hlo : toHex.digit (a &&& 0x0f) = toHex.digit (b &&& 0x0f)) : a = b := by
  obtain ⟨hahi, halo⟩ := toNat_nibbles a
  obtain ⟨hbhi, hblo⟩ := toNat_nibbles b
  have ha := a.toNat_lt
  have hb := b.toNat_lt
  have hhi := digit_injective (by omega) (by omega) hhi
  have hlo := digit_injective (by omega) (by omega) hlo
  exact UInt8.toNat_inj.mp (by omega)

/-- **No two ids have one spelling.** -/
theorem toHex_injective : Function.Injective toHex := by
  have hbytes : ∀ l m : Bytes, (l.flatMap fun (b : UInt8) =>
      [toHex.digit (b >>> 4), toHex.digit (b &&& 0x0f)]) = (m.flatMap fun (b : UInt8) =>
      [toHex.digit (b >>> 4), toHex.digit (b &&& 0x0f)]) → l = m := by
    intro l
    induction l with
    | nil => rintro (_ | ⟨b, m⟩) h <;> simp_all
    | cons a l ih =>
      rintro (_ | ⟨b, m⟩) h
      · simp at h
      · simp only [flatMap_cons, cons_append, nil_append, cons.injEq] at h
        rw [eq_of_digits h.1 h.2.1, ih m h.2.2]
  exact fun a b h => EntityId.ext (hbytes _ _ h)

theorem hexNibble_digit (h : n.toNat < 16) : hexNibble (toHex.digit n) = some n := by
  have hall : ∀ m : Fin 16, hexNibble (toHex.digit (UInt8.ofNat m)) = some (UInt8.ofNat m) := by
    decide
  simpa using hall ⟨n.toNat, h⟩

theorem lowercase_digit (h : n.toNat < 16) :
    48 ≤ toHex.digit n ∧ toHex.digit n ≤ 57 ∨ 97 ≤ toHex.digit n ∧ toHex.digit n ≤ 102 := by
  have hall : ∀ m : Fin 16, 48 ≤ toHex.digit (UInt8.ofNat m) ∧ toHex.digit (UInt8.ofNat m) ≤ 57 ∨
      97 ≤ toHex.digit (UInt8.ofNat m) ∧ toHex.digit (UInt8.ofNat m) ≤ 102 := by
    decide
  simpa using hall ⟨n.toNat, h⟩

theorem nibbles_join (b : UInt8) : (b >>> 4) <<< 4 ||| (b &&& 0x0f) = b := by
  have hall : ∀ m : Fin 256, (UInt8.ofNat m >>> 4) <<< 4 ||| (UInt8.ofNat m &&& 0x0f) =
      UInt8.ofNat m := by
    decide +kernel
  simpa using hall ⟨b.toNat, b.toNat_lt⟩

theorem hexBytes_flatMap (bytes : Bytes) : hexBytes (bytes.flatMap fun (b : UInt8) =>
    [toHex.digit (b >>> 4), toHex.digit (b &&& 0x0f)]) = some bytes := by
  induction bytes with
  | nil => rfl
  | cons b bytes ih =>
    obtain ⟨hhi, hlo⟩ := toNat_nibbles b
    have hb := b.toNat_lt
    simp [hexBytes, hexNibble_digit (n := b >>> 4) (by omega),
      hexNibble_digit (n := b &&& 0x0f) (by omega), ih, nibbles_join]

@[simp] theorem length_toHex (id : EntityId) : id.toHex.length = 32 := by
  simp [toHex, length_flatMap]

/-- **An id no sentinel is reads back from its spelling.** -/
theorem fromHex_toHex (h : isReserved id.asBytes = false) : fromHex id.toHex = some id := by
  rw [fromHex, if_pos id.length_toHex, toHex, hexBytes_flatMap, Option.bind_some, fromBytes,
    dif_pos id.length_asBytes, h]
  rfl

theorem parseHexId_toHex (h : isReserved id.asBytes = false) : parseHexId id.toHex = some id := by
  rw [parseHexId, fromHex_toHex h]
  simp

theorem mem_toHex {c : UInt8} (h : c ∈ id.toHex) : 48 ≤ c ∧ c ≤ 57 ∨ 97 ≤ c ∧ c ≤ 102 := by
  obtain ⟨b, -, hc⟩ := mem_flatMap.mp h
  obtain ⟨hhi, hlo⟩ := toNat_nibbles b
  have hb := b.toNat_lt
  simp only [mem_cons, not_mem_nil, or_false] at hc
  rcases hc with rfl | rfl
  · exact lowercase_digit (by omega)
  · exact lowercase_digit (by omega)

theorem length_filled (b : UInt8) : (replicate 16 b).length = 16 := length_replicate

/-- The id every byte of which is `b`. -/
def filled (b : UInt8) : EntityId := ⟨replicate 16 b, length_filled b⟩

end EntityId

/-- The sixteen-byte id of a queued attempt. -/
@[ext] structure AttemptId where
  asBytes : Bytes
  length_asBytes : asBytes.length = 16
  deriving DecidableEq

/-- Relationship kinds, in stored-byte order. -/
inductive EdgeKind where
  | authoredBy | scopedTo | partOf | supersedes | belongsTo | claimOf | childOf | assignedTo
  | derivedFrom | mentions | about | supports | opposes | participatesIn | attached | employedBy
  | hasFacet | facetOf | inWorld | setIn | sameAs | mergedInto | splitInto | blockedBy | blocks
  | fulfills | dischargedBy | parent | spawnedBy | addressedTo | repliesTo | regenerates | calls
  | imports | refs
  deriving DecidableEq

/-- The byte an edge key stores: the kinds are pinned in declaration order. -/
def EdgeKind.toByte (kind : EdgeKind) : UInt8 := kind.ctorIdx.toUInt8

/-- `LONG_INTERVAL_THRESHOLD_SECS`. -/
def longIntervalThresholdSecs : ℕ := 14 * 86400

/-- Whether an interval has its own index row; one that ends before it starts has no length. -/
def isLongInterval (start stop : UInt64) : Bool :=
  longIntervalThresholdSecs < stop.toNat - start.toNat

/-- The header at the head of a stored entity row. -/
structure EntityMetadataHeader where
  entityType : UInt8
  occurredStart : UInt64
  occurredEnd : UInt64
  learnedAt : UInt64
  rowVersion : UInt64

/-- `[entity_type(1) | occurred_start(8) | occurred_end(8) | learned_at(8) | row_version(8)]`. -/
def EntityMetadataHeader.parse : Bytes → Option EntityMetadataHeader
  | [] => none
  | entityType :: rest =>
    if rest.length < 32 then none else
      let word (i : ℕ) := ofBeBytes ((rest.drop (8 * i)).take 8)
      some ⟨entityType, word 0, word 1, word 2, word 3⟩

/-! ## Index keys -/

/-- `[src(16) | kind(1) | tgt(16)]`. -/
def encodeEdgeKey (src : EntityId) (kind : EdgeKind) (tgt : EntityId) : Bytes :=
  src.asBytes ++ kind.toByte :: tgt.asBytes

/-- `[timestamp_be(8) | id(16)]`. -/
def encodeTemporalKey (ts : UInt64) (id : EntityId) : Bytes := beBytes ts ++ id.asBytes

/-- `[entity_type(1) | id(16)]`. -/
def encodeTypeKey (entityType : UInt8) (id : EntityId) : Bytes := entityType :: id.asBytes

end Oneiron
