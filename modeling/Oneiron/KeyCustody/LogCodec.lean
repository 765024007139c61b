import Oneiron.Contracts.Error
import Oneiron.Foundations.Slices
import Oneiron.KeyCustody.BodyHistory

/-!
# KeyCustody/LogCodec — the body of a custody log's frame

    1 | tag | len | item | generation (8)              a mint
    2 | tag | len | item | through (8) | cause         a retirement
    3 | len | label | fingerprint (32) | receipt (16)
    4 | digest (32)
    5 | count (4) | (len (4) | key | len (4) | value)*
    6 | credential (16) | fact
    7 | standing | ref (32) | holder (16)

The bytes are a frame's own, so a reader takes no length in them on trust.  What it accepts is what
an entry is written as (`CodedEntry.encode_of_decode`), and what is written is read back
(`CodedEntry.decode_encode`).
-/

namespace Oneiron

open List Except

open Slice

/-! ## Subjects -/

namespace CustodyKind

def tag : CustodyKind → UInt8
  | claimDecision => 0x01
  | bodyInstance => 0x02
  | knownValueIndex => 0x03
  | knownValueEntry => 0x04
  | worldPad => 0x05
  | credentialValue => 0x06
  | checkpointPayload => 0x07
  | trainingLink => 0x08
  | custodyTransition => 0x09
  | custodyRequestInput => 0x0a
  | connectorResume => 0x0b
  | inferenceSnapshot => 0x0c
  | erasableKey => 0x0d
  | hostIssuerSeed => 0x0e

/-- `from_tag`. -/
def ofTag (tag : UInt8) : Option CustodyKind :=
  match tag.toNat with
  | 0x01 => some claimDecision
  | 0x02 => some bodyInstance
  | 0x03 => some knownValueIndex
  | 0x04 => some knownValueEntry
  | 0x05 => some worldPad
  | 0x06 => some credentialValue
  | 0x07 => some checkpointPayload
  | 0x08 => some trainingLink
  | 0x09 => some custodyTransition
  | 0x0a => some custodyRequestInput
  | 0x0b => some connectorResume
  | 0x0c => some inferenceSnapshot
  | 0x0d => some erasableKey
  | 0x0e => some hostIssuerSeed
  | _ => none

/-- The width of the kind's canonical item id. -/
def itemLen : CustodyKind → ℕ
  | claimDecision => 16
  | bodyInstance => 17
  | knownValueEntry | credentialValue | connectorResume | inferenceSnapshot => 16
  | custodyTransition | custodyRequestInput => 32
  | worldPad => 40
  | checkpointPayload => 49
  | erasableKey => 81
  | knownValueIndex | trainingLink | hostIssuerSeed => 0

def corrupt : CustodyKind → Error
  | claimDecision => .corruptedIndex "gate decision ORCB"
  | bodyInstance => .corruptedIndex "body file key custody"
  | knownValueIndex => .corruptedIndex "known-value index key custody"
  | knownValueEntry => .corruptedIndex "known-value history custody"
  | worldPad => .corruptedIndex "world key pad custody"
  | checkpointPayload => .corruptedIndex "checkpoint payload custody"
  | trainingLink => .corruptedIndex "training link key"
  | credentialValue => .corruptedIndex "credential value custody"
  | custodyTransition => .corruptedIndex "custody transition custody"
  | custodyRequestInput => .corruptedIndex "custody request input custody"
  | connectorResume => .corruptedIndex "connector resume custody"
  | inferenceSnapshot => .corruptedIndex "inference snapshot custody"
  | erasableKey => .corruptedIndex "erasable key custody"
  | hostIssuerSeed => .corruptedIndex "host issuer seed custody"

@[simp] theorem ofTag_tag : ∀ kind : CustodyKind, ofTag kind.tag = some kind := by
  intro kind
  cases kind <;> rfl

theorem tag_of_ofTag {tag : UInt8} {kind : CustodyKind} (h : ofTag tag = some kind) :
    kind.tag = tag := by
  unfold ofTag at h
  split at h <;> cases h <;> rw [← UInt8.toNat_inj] <;> symm <;> assumption

/-- An item's width is one byte's. -/
theorem itemLen_lt (kind : CustodyKind) : kind.itemLen < 256 := by
  cases kind <;> decide

end CustodyKind

/-- A subject of one vault, its item of its kind's width. -/
@[ext] structure CodedSubject where
  vault : CustodyVaultId
  kind : CustodyKind
  item : Bytes
  length_item : item.length = kind.itemLen
  deriving DecidableEq

/-- `CustodySubject::new`. -/
def CodedSubject.new (vault : CustodyVaultId) (kind : CustodyKind) (item : Bytes) :
    Except Error CodedSubject :=
  if h : item.length = kind.itemLen then .ok ⟨vault, kind, item, h⟩ else .error kind.corrupt

theorem CodedSubject.new_eq_ok {vault : CustodyVaultId} {kind : CustodyKind} {item : Bytes}
    {subject : CodedSubject} : CodedSubject.new vault kind item = .ok subject ↔
      subject.vault = vault ∧ subject.kind = kind ∧ subject.item = item := by
  unfold CodedSubject.new
  constructor
  · intro h
    split at h
    · obtain rfl := ok.inj h
      exact ⟨rfl, rfl, rfl⟩
    · cases h
  · rintro ⟨rfl, rfl, rfl⟩
    exact dif_pos subject.length_item

/-! ## Entries -/

/-- Where one erased credential's erase stands. -/
inductive FenceFact where
  | owed | noSubject | keyed | complete
  deriving DecidableEq

namespace FenceFact

def code : FenceFact → UInt8
  | owed => 0
  | noSubject => 1
  | keyed => 2
  | complete => 3

/-- `from_code`. -/
def ofCode (code : UInt8) : Option FenceFact :=
  match code.toNat with
  | 0 => some owed
  | 1 => some noSubject
  | 2 => some keyed
  | 3 => some complete
  | _ => none

theorem code_of_ofCode {code : UInt8} {fact : FenceFact} (h : ofCode code = some fact) :
    fact.code = code := by
  unfold ofCode at h
  split at h <;> cases h <;> rw [← UInt8.toNat_inj] <;> symm <;> assumption

end FenceFact

namespace RetireCause

def code : RetireCause → UInt8
  | retention => 0
  | erase => 1

def ofCode (code : UInt8) : Option RetireCause :=
  match code.toNat with
  | 0 => some retention
  | 1 => some erase
  | _ => none

@[simp] theorem ofCode_code (cause : RetireCause) : ofCode cause.code = some cause := by
  cases cause <;> rfl

theorem code_of_ofCode {code : UInt8} {cause : RetireCause} (h : ofCode code = some cause) :
    cause.code = code := by
  unfold ofCode at h
  split at h <;> cases h <;> rw [← UInt8.toNat_inj] <;> symm <;> assumption

end RetireCause

/-- `LogEntry`, as its bytes spell it. -/
inductive CodedEntry where
  | mint (subject : CodedSubject) (generation : U64)
  | retire (subject : CodedSubject) (through : U64) (cause : RetireCause)
  | retireRecipient (label : Bytes) (fingerprint : FixedBytes 32) (receipt : FixedBytes 16)
  | publicationPolicy (digest : FixedBytes 32)
  | bodyHistory (rows : List HistoryRow)
  | eraseEvidence (credential : EntityId) (fact : FenceFact)
  | holderDebt (keyRef : FixedBytes 32) (holder : EntityId) (standing : Bool)
  deriving DecidableEq

def opMint : UInt8 := 1
def opRetire : UInt8 := 2
def opRetireRecipient : UInt8 := 3
def opPublicationPolicy : UInt8 := 4
def opBodyHistory : UInt8 := 5
def opEraseEvidence : UInt8 := 6
def opHolderDebt : UInt8 := 7

/-- The longest label a fact holds. -/
def labelMax : ℕ := 64

/-- A part with its length before it, in four bytes. -/
def encodePart (part : Bytes) : Bytes := digits 4 part.length ++ part

def encodeRow (row : HistoryRow) : Bytes := encodePart row.1 ++ encodePart row.2

/-- `u32be count`, then each row as `u32be len | key | u32be len | value`. -/
def encodeRows (rows : List HistoryRow) : Bytes :=
  digits 4 rows.length ++ rows.flatMap encodeRow

/-- `op | tag | len | item | generation`, and what follows it. -/
def encodeKeyed (op : UInt8) (subject : CodedSubject) (generation : U64) (cause : Bytes) : Bytes :=
  [op, subject.kind.tag, subject.item.length.toUInt8] ++ subject.item ++ digits 8 generation.val ++
    cause

namespace CodedEntry

def encode : CodedEntry → Bytes
  | retireRecipient label fingerprint receipt =>
    opRetireRecipient :: ([label.length.toUInt8] ++ label ++ fingerprint.bytes ++ receipt.bytes)
  | publicationPolicy digest => opPublicationPolicy :: digest.bytes
  | eraseEvidence credential fact => opEraseEvidence :: (credential.asBytes ++ [fact.code])
  | holderDebt keyRef holder standing =>
    opHolderDebt :: ([if standing then 1 else 0] ++ keyRef.bytes ++ holder.asBytes)
  | bodyHistory rows => opBodyHistory :: encodeRows rows
  | mint subject generation => encodeKeyed opMint subject generation []
  | retire subject through cause => encodeKeyed opRetire subject through [cause.code]

end CodedEntry

/-! ## Reading rows -/

/-- `take`: the part at an offset, and the offset past it. -/
def takePart (bytes : Bytes) (offset : ℕ) : Except Stop (Bytes × ℕ) := do
  let stop ← add offset 4
  let word ← getRange offset stop bytes
  let len ← toNumber 4 word
  let start ← add offset 4
  let stop ← checkedAdd start len
  let part ← getRange start stop bytes
  let width ← add 4 len
  let past ← add offset width
  pure (part, past)

/-- The next `count` rows from an offset, and the offset past them. -/
def takeRows (bytes : Bytes) : (count offset : ℕ) → Except Stop (List HistoryRow × ℕ)
  | 0, offset => .ok ([], offset)
  | count + 1, offset => do
    let (key, offset) ← takePart bytes offset
    let (value, offset) ← takePart bytes offset
    if BodyHistory.admits key then
      let (rows, offset) ← takeRows bytes count offset
      pure ((key, value) :: rows, offset)
    else .error .refused

/-- The rows `encodeRows` wrote, refused when one is not a history row's. -/
def decodeRows (bytes : Bytes) : Except Stop (List HistoryRow) := do
  let word ← getTo 4 bytes
  let count ← toNumber 4 word
  let (rows, offset) ← takeRows bytes count 4
  if offset = bytes.length then pure rows else .error .refused

/-! ## Reading entries -/

/-- An id that is an array of just the width. -/
def toEntityId (bytes : Bytes) : Except Stop EntityId := okOr (EntityId.fromBytes bytes) .refused

/-- An array of just the width. -/
def toFixed (n : ℕ) (bytes : Bytes) : Except Stop (FixedBytes n) :=
  okOr (FixedBytes.ofBytes n bytes) .refused

/-- `RecipientRetirement::decode`. -/
def decodeRecipient (bytes : Bytes) : Except Stop CodedEntry := do
  let (len, rest) ← splitFirst bytes
  if len.toNat = 0 ∨ labelMax < len.toNat ∨ rest.length ≠ len.toNat + 48 then .error .refused
  else
    let label ← indexTo len.toNat rest
    if isUtf8 label then
      let fingerprint ← indexRange len.toNat (len.toNat + 32) rest
      let fingerprint ← toFixed 32 fingerprint
      let receipt ← indexFrom (len.toNat + 32) rest
      let receipt ← toFixed 16 receipt
      pure (.retireRecipient label fingerprint receipt)
    else .error .refused

/-- `CredentialFenceFact::decode`. -/
def decodeFence (bytes : Bytes) : Except Stop CodedEntry := do
  let id ← getTo 16 bytes
  match bytes.drop 16 with
  | [fact] => do
    let credential ← toEntityId id
    let fact ← okOr (FenceFact.ofCode fact) .refused
    pure (.eraseEvidence credential fact)
  | _ => .error .refused

def decodeDebt (bytes : Bytes) : Except Stop CodedEntry := do
  let (standing, rest) ← splitFirst bytes
  let keyRef ← getTo 32 rest
  let keyRef ← toFixed 32 keyRef
  let holder ← toEntityId (rest.drop 32)
  if standing = 0 then pure (.holderDebt keyRef holder false)
  else if standing = 1 then pure (.holderDebt keyRef holder true)
  else .error .refused

/-- The closure of `decode`: a mint or a retirement. -/
def decodeKeyed (vault : CustodyVaultId) (bytes : Bytes) : Except Stop CodedEntry := do
  let (op, rest) ← splitFirst bytes
  let (tag, rest) ← splitFirst rest
  let (len, rest) ← splitFirst rest
  let item ← getTo len.toNat rest
  let rest ← indexFrom len.toNat rest
  let word ← getTo 8 rest
  let generation ← toNumber 8 word
  let rest ← indexFrom 8 rest
  let kind ← okOr (CustodyKind.ofTag tag) .refused
  let subject ← okOr (CodedSubject.new vault kind item).toOption .refused
  if op = opMint ∧ rest = [] then pure (.mint subject (.ofNat generation))
  else if op = opRetire then
    match rest with
    | [cause] => do
      let cause ← okOr (RetireCause.ofCode cause) .refused
      pure (.retire subject (.ofNat generation) cause)
    | _ => .error .refused
  else .error .refused

/-- `LogEntry::decode`; a refusal is `log_corrupt()`. -/
def CodedEntry.decode (vault : CustodyVaultId) (bytes : Bytes) : Except Stop CodedEntry :=
  match bytes with
  | [] => decodeKeyed vault []
  | op :: body =>
    if op = opRetireRecipient then decodeRecipient body
    else if op = opPublicationPolicy then CodedEntry.publicationPolicy <$> toFixed 32 body
    else if op = opEraseEvidence then decodeFence body
    else if op = opHolderDebt then decodeDebt body
    else if op = opBodyHistory then CodedEntry.bodyHistory <$> decodeRows body
    else decodeKeyed vault (op :: body)

/-! ## Rows come back -/

variable {bytes before tail part : Bytes} {past : ℕ}

@[simp] theorem length_encodePart (part : Bytes) : (encodePart part).length = 4 + part.length := by
  simp [encodePart]

/-- What `takePart` reads is a part as it is written. -/
theorem takePart_ok (h : takePart (before ++ tail) before.length = .ok (part, past)) :
    part.length < 2 ^ 32 ∧ past = (before ++ encodePart part).length ∧
      ∃ after, tail = encodePart part ++ after := by
  simp only [takePart, bind_eq_ok, pure_eq_ok, add_eq_ok, checkedAdd_eq_ok, getRange_eq_ok,
    toNumber_eq_ok] at h
  obtain ⟨_, ⟨rfl, -⟩, word, ⟨front, back, hword, hfront, -⟩, len, ⟨hlen, rfl⟩, _, ⟨rfl, -⟩, _,
    ⟨rfl, -⟩, found, ⟨front', back', hfound, hfront', hwidth⟩, _, ⟨rfl, -⟩, _, ⟨rfl, -⟩, heq⟩ := h
  obtain ⟨rfl, rfl⟩ := Prod.mk.inj heq
  have hpart : found.length = len := by omega
  subst hpart
  rw [append_assoc] at hword hfound
  obtain ⟨rfl, rfl⟩ := append_inj hword hfront.symm
  rw [← append_assoc] at hfound
  obtain ⟨-, rfl⟩ := append_inj hfound (by simp [hfront'])
  refine ⟨Nat.lt_of_lt_of_eq hlen (by norm_num), by simp, back', ?_⟩
  rw [encodePart, append_assoc]

/-- A part as it is written is read. -/
theorem takePart_encodePart (hlen : (before ++ (encodePart part ++ tail)).length ≤ maxLen)
    (hpart : part.length < 2 ^ 32) : takePart (before ++ (encodePart part ++ tail)) before.length =
      .ok (part, (before ++ encodePart part).length) := by
  simp only [length_append, length_encodePart, maxLen] at hlen
  simp only [takePart, bind_eq_ok, pure_eq_ok, add_eq_ok, checkedAdd_eq_ok, getRange_eq_ok,
    toNumber_eq_ok]
  refine ⟨_, ⟨rfl, by omega⟩, digits 4 part.length, ⟨before, part ++ tail, ?_, rfl, by simp⟩,
    part.length, ⟨Nat.lt_of_lt_of_eq hpart (by norm_num), rfl⟩, _, ⟨rfl, by omega⟩, _,
    ⟨rfl, by omega⟩, part, ⟨before ++ digits 4 part.length, tail, ?_, by simp, rfl⟩, _,
    ⟨rfl, by omega⟩, _, ⟨rfl, by omega⟩, ?_⟩
  · simp [encodePart]
  · simp [encodePart]
  · simp

/-- What `takeRows` reads is rows as they are written. -/
theorem takeRows_ok : ∀ {count : ℕ} {before tail : Bytes} {rows : List HistoryRow} {past : ℕ},
    takeRows (before ++ tail) count before.length = .ok (rows, past) →
      rows.length = count ∧ past = (before ++ rows.flatMap encodeRow).length ∧
      (∀ row ∈ rows, BodyHistory.admits row.1) ∧ ∃ after, tail = rows.flatMap encodeRow ++ after
  | 0, _, tail, _, _, h => by
    obtain ⟨rfl, rfl⟩ := Prod.mk.inj (ok.inj h)
    exact ⟨rfl, by simp, fun _ hrow => absurd hrow not_mem_nil, tail, rfl⟩
  | count + 1, before, tail, _, _, h => by
    obtain ⟨⟨key, offset⟩, hkey, h⟩ := bind_eq_ok.mp h
    obtain ⟨⟨value, offset'⟩, hvalue, h⟩ := bind_eq_ok.mp h
    obtain ⟨-, rfl, tail, rfl⟩ := takePart_ok hkey
    rw [← append_assoc] at hvalue
    obtain ⟨-, rfl, tail, rfl⟩ := takePart_ok hvalue
    have hsplit : before ++ (encodePart key ++ (encodePart value ++ tail)) =
        before ++ encodePart key ++ encodePart value ++ tail := by simp
    dsimp only at h
    split at h
    · rename_i hadmits
      obtain ⟨⟨rows, past⟩, hrows, h⟩ := bind_eq_ok.mp h
      obtain ⟨rfl, rfl⟩ := Prod.mk.inj (ok.inj h)
      rw [hsplit] at hrows
      obtain ⟨rfl, rfl, hall, after, rfl⟩ := takeRows_ok hrows
      refine ⟨rfl, ?_, forall_mem_cons.mpr ⟨hadmits, hall⟩, after, ?_⟩
      · simp [encodeRow, Nat.add_assoc]
      · simp [encodeRow]
    · cases h

/-- A history row whose two lengths four bytes hold. -/
def FitsRow (row : HistoryRow) : Prop :=
  BodyHistory.admits row.1 ∧ row.1.length < 2 ^ 32 ∧ row.2.length < 2 ^ 32

/-- Rows as they are written are read. -/
theorem takeRows_encodeRow : ∀ {rows : List HistoryRow} {before tail : Bytes},
    (before ++ (rows.flatMap encodeRow ++ tail)).length ≤ maxLen → (∀ row ∈ rows, FitsRow row) →
      takeRows (before ++ (rows.flatMap encodeRow ++ tail)) rows.length before.length =
        .ok (rows, (before ++ rows.flatMap encodeRow).length)
  | [], _, _, _, _ => by simp [takeRows]
  | (key, value) :: rows, before, tail, hlen, hall => by
    obtain ⟨⟨hadmits, hkey, hvalue⟩, hall⟩ := forall_mem_cons.mp hall
    rw [flatMap_cons, encodeRow, append_assoc, append_assoc] at hlen ⊢
    have hsecond : takePart (before ++ (encodePart key ++ (encodePart value ++
        (rows.flatMap encodeRow ++ tail)))) (before ++ encodePart key).length =
          .ok (value, (before ++ encodePart key ++ encodePart value).length) := by
      rw [← append_assoc] at hlen ⊢
      exact takePart_encodePart hlen hvalue
    have hrest : takeRows (before ++ (encodePart key ++ (encodePart value ++
        (rows.flatMap encodeRow ++ tail)))) rows.length
          (before ++ encodePart key ++ encodePart value).length =
          .ok (rows, (before ++ encodePart key ++ encodePart value ++ rows.flatMap encodeRow).length) := by
      rw [← append_assoc, ← append_assoc (before ++ encodePart key)] at hlen ⊢
      exact takeRows_encodeRow hlen hall
    refine bind_eq_ok.mpr ⟨_, takePart_encodePart hlen hkey, bind_eq_ok.mpr ⟨_, hsecond, ?_⟩⟩
    dsimp only
    rw [if_pos hadmits]
    exact bind_eq_ok.mpr ⟨_, hrest, by simp [append_assoc]⟩

/-- **The rows accepted are as they are written.** -/
theorem encodeRows_of_decodeRows {rows : List HistoryRow} (h : decodeRows bytes = .ok rows) :
    encodeRows rows = bytes ∧ ∀ row ∈ rows, BodyHistory.admits row.1 := by
  simp only [decodeRows, bind_eq_ok, getTo_eq_ok, toNumber_eq_ok] at h
  obtain ⟨_, ⟨hword, rest, rfl⟩, count, ⟨-, rfl⟩, ⟨rows', past⟩, hrows, h⟩ := h
  obtain ⟨rfl, rfl, hall, after, rfl⟩ := takeRows_ok hrows
  split at h
  · rename_i hend
    obtain rfl := ok.inj h
    obtain rfl : after = [] := by simpa using hend
    exact ⟨by simp [encodeRows], hall⟩
  · cases h

/-- **The rows written are read.** -/
theorem decodeRows_encodeRows {rows : List HistoryRow} (hlen : (encodeRows rows).length ≤ maxLen)
    (hcount : rows.length < 2 ^ 32) (hall : ∀ row ∈ rows, FitsRow row) :
    decodeRows (encodeRows rows) = .ok rows := by
  have hword : (digits 4 rows.length).length = 4 := length_digits 4 _
  have hrows : takeRows (encodeRows rows) rows.length 4 = .ok (rows, (encodeRows rows).length) := by
    have hread := @takeRows_encodeRow rows (digits 4 rows.length) [] (by simpa [encodeRows] using hlen) hall
    rwa [append_nil, hword] at hread
  simp only [decodeRows, bind_eq_ok, getTo_eq_ok, toNumber_eq_ok]
  refine ⟨digits 4 rows.length, ⟨hword, _, rfl⟩, rows.length,
    ⟨Nat.lt_of_lt_of_eq hcount (by norm_num), rfl⟩, _, hrows, ?_⟩
  simp

/-! ## Entries come back -/

variable {vault : CustodyVaultId} {entry : CodedEntry}

theorem toFixed_eq_ok {n : ℕ} {fixed : FixedBytes n} : toFixed n bytes = .ok fixed ↔
    fixed.bytes = bytes := by
  rw [toFixed, okOr_eq_ok, FixedBytes.ofBytes]
  constructor
  · intro h
    split at h
    · rw [← Option.some.inj h]
    · cases h
  · rintro rfl
    exact FixedBytes.ofBytes_bytes fixed

theorem asBytes_of_toEntityId {id : EntityId} (h : toEntityId bytes = .ok id) : id.asBytes = bytes := by
  rw [toEntityId, okOr_eq_ok, EntityId.fromBytes] at h
  split at h
  · split at h
    · cases h
    · rw [← Option.some.inj h]
  · cases h

theorem ofNat_val {n : ℕ} (h : n < 256 ^ 8) : (U64.ofNat n).val = n := by
  rw [U64.val_ofNat, min_eq_left]
  unfold U64.top
  omega

/-- A mint or a retirement accepted is as it is written. -/
theorem encode_of_decodeKeyed (h : decodeKeyed vault bytes = .ok entry) : entry.encode = bytes := by
  simp only [decodeKeyed, bind_eq_ok, splitFirst_eq_ok, okOr_eq_ok, Prod.exists] at h
  obtain ⟨op, _, rfl, tag, _, rfl, len, _, rfl, item, hitem, _, hrest, word, hword, generation,
    hgeneration, rest, hrest', kind, hkind, subject, hsubject, h⟩ := h
  obtain ⟨hlen, rfl⟩ := split_of_getTo hitem hrest
  obtain ⟨-, rfl⟩ := split_of_getTo hword hrest'
  obtain ⟨hlt, rfl⟩ := toNumber_eq_ok.mp hgeneration
  obtain ⟨-, rfl, rfl⟩ : subject.vault = vault ∧ subject.kind = kind ∧ subject.item = item := by
    rw [← CodedSubject.new_eq_ok]
    cases hnew : CodedSubject.new vault kind item <;> rw [hnew] at hsubject <;> cases hsubject
    rfl
  have hkeyed (op : UInt8) (cause : Bytes) : encodeKeyed op subject (.ofNat generation) cause =
      op :: tag :: len :: (subject.item ++ (digits 8 generation ++ cause)) := by
    have hbyte : subject.item.length.toUInt8 = len := by
      rw [hlen]
      exact UInt8.ofNat_toNat
    rw [encodeKeyed, ofNat_val hlt, CustodyKind.tag_of_ofTag hkind, hbyte]
    simp
  split at h
  · rename_i hmint
    obtain ⟨rfl, rfl⟩ := hmint
    obtain rfl := ok.inj h
    exact hkeyed opMint []
  · split at h
    · rename_i hop
      subst hop
      split at h
      · rename_i cause
        obtain ⟨found, hcause, h⟩ := bind_eq_ok.mp h
        obtain rfl := ok.inj h
        rw [okOr_eq_ok] at hcause
        rw [← RetireCause.code_of_ofCode hcause]
        exact hkeyed opRetire _
      · cases h
    · cases h

/-- A mint or a retirement is read as it was written. -/
theorem decodeKeyed_encodeKeyed (op : UInt8) (subject : CodedSubject) (generation : U64)
    (cause : Bytes) (h : subject.vault = vault) :
    decodeKeyed vault (encodeKeyed op subject generation cause) =
      if op = opMint ∧ cause = [] then .ok (.mint subject generation)
      else if op = opRetire then
        match cause with
        | [code] => do
          let cause ← okOr (RetireCause.ofCode code) Stop.refused
          pure (.retire subject generation cause)
        | _ => .error .refused
      else .error .refused := by
  have hbyte : subject.item.length.toUInt8.toNat = subject.item.length := by
    have := subject.kind.itemLen_lt
    rw [← subject.length_item] at this
    exact Nat.mod_eq_of_lt this
  have hword : (digits 8 generation.val).length = 8 := length_digits 8 _
  have hlt : generation.val < 256 ^ 8 := by
    have := generation.le
    omega
  have hnumber : toNumber 8 (digits 8 generation.val) = .ok generation.val :=
    toNumber_eq_ok.mpr ⟨hlt, rfl⟩
  have hgeneration : U64.ofNat generation.val = generation := U64.ext (ofNat_val hlt)
  have hsubject : CodedSubject.new vault subject.kind subject.item = .ok subject :=
    CodedSubject.new_eq_ok.mpr ⟨h, rfl, rfl⟩
  have hbind {α β : Type} (a : α) (f : α → Except Stop β) : (Except.ok a >>= f) = f a := rfl
  have hsome {α : Type} (a : α) : okOr (some a) Stop.refused = .ok a := rfl
  simp only [encodeKeyed, decodeKeyed, cons_append, nil_append, append_assoc,
    splitFirst, hbind, getTo_append hbyte.symm, indexFrom_append hbyte.symm, getTo_append hword,
    indexFrom_append hword, hnumber, CustodyKind.ofTag_tag, hsubject, Except.toOption, hsome,
    hgeneration]
  rfl

theorem encode_of_decodeRecipient (h : decodeRecipient bytes = .ok entry) :
    entry.encode = opRetireRecipient :: bytes := by
  obtain ⟨⟨len, rest⟩, hlen, hread⟩ := bind_eq_ok.mp h
  obtain rfl := splitFirst_eq_ok.mp hlen
  dsimp only at hread
  split at hread
  · cases hread
  · obtain ⟨label, hlabel, h⟩ := bind_eq_ok.mp hread
    split at h
    · simp only [bind_eq_ok, indexRange_eq_ok, indexFrom_eq_ok, toFixed_eq_ok] at h
      obtain ⟨_, ⟨before, after, hmid, hbefore, hwide⟩, fingerprint, rfl, _, ⟨front, hfront, hend⟩,
        receipt, rfl, h⟩ := h
      obtain rfl := ok.inj h
      obtain ⟨hlabel, back, hrest⟩ := indexTo_eq_ok.mp hlabel
      rw [hrest, append_assoc] at hmid
      obtain ⟨rfl, rfl⟩ := append_inj hmid (hlabel.trans hbefore.symm)
      rw [hrest, ← append_assoc] at hend
      obtain ⟨rfl, rfl⟩ := append_inj hend (by simp [hfront, hlabel])
      have hbyte : label.length.toUInt8 = len := by
        rw [hlabel]
        exact UInt8.ofNat_toNat
      rw [CodedEntry.encode, hbyte, hrest]
      simp
    · cases h

theorem encode_of_decodeFence (h : decodeFence bytes = .ok entry) :
    entry.encode = opEraseEvidence :: bytes := by
  obtain ⟨id, hid, h⟩ := bind_eq_ok.mp h
  obtain ⟨hlen, rest, rfl⟩ := getTo_eq_ok.mp hid
  rw [← hlen, drop_left] at h
  split at h
  · simp only [bind_eq_ok, okOr_eq_ok] at h
    obtain ⟨credential, hcredential, fact, hfact, h⟩ := h
    obtain rfl := ok.inj h
    rw [CodedEntry.encode, asBytes_of_toEntityId hcredential, FenceFact.code_of_ofCode hfact]
  · cases h

theorem encode_of_decodeDebt (h : decodeDebt bytes = .ok entry) :
    entry.encode = opHolderDebt :: bytes := by
  simp only [decodeDebt, bind_eq_ok, splitFirst_eq_ok, toFixed_eq_ok, getTo_eq_ok, Prod.exists] at h
  obtain ⟨standing, _, rfl, _, ⟨hlen, rest, rfl⟩, keyRef, rfl, holder, hholder, h⟩ := h
  rw [drop_append_of_le_length hlen.ge, drop_eq_nil_of_le hlen.le, nil_append] at hholder
  obtain rfl := asBytes_of_toEntityId hholder
  split at h
  · rename_i hzero
    obtain rfl := ok.inj h
    simp [CodedEntry.encode, hzero]
  · split at h
    · rename_i hone
      obtain rfl := ok.inj h
      simp [CodedEntry.encode, hone]
    · cases h

namespace CodedEntry

/-- **An entry accepted is as it is written**, whatever its kind. -/
theorem encode_of_decode (h : decode vault bytes = .ok entry) : entry.encode = bytes := by
  cases bytes with
  | nil => exact encode_of_decodeKeyed h
  | cons op body =>
    unfold decode at h
    dsimp only at h
    split_ifs at h with hrecipient hpolicy hfence hdebt hrows
    · rw [hrecipient]
      exact encode_of_decodeRecipient h
    · cases hdigest : toFixed 32 body <;> rw [hdigest] at h <;> cases h
      rw [hpolicy, encode, toFixed_eq_ok.mp hdigest]
    · rw [hfence]
      exact encode_of_decodeFence h
    · rw [hdebt]
      exact encode_of_decodeDebt h
    · cases hread : decodeRows body <;> rw [hread] at h <;> cases h
      rw [hrows, encode, (encodeRows_of_decodeRows hread).1]
    · exact encode_of_decodeKeyed h

/-- A mint, a retirement, a policy or a history of `vault`, as its codec takes it. -/
def WrittenFor (vault : CustodyVaultId) : CodedEntry → Prop
  | mint subject _ | retire subject _ _ => subject.vault = vault
  | publicationPolicy _ => True
  | bodyHistory rows => rows.length < 2 ^ 32 ∧ ∀ row ∈ rows, FitsRow row
  | _ => False

/-- **An entry written is read back.** -/
theorem decode_encode (h : entry.WrittenFor vault) (hlen : entry.encode.length ≤ maxLen) :
    decode vault entry.encode = .ok entry := by
  cases entry with
  | mint subject generation =>
    have hkeyed := decodeKeyed_encodeKeyed opMint subject generation [] h
    exact hkeyed
  | retire subject through cause =>
    have hkeyed := decodeKeyed_encodeKeyed opRetire subject through [cause.code] h
    dsimp only at hkeyed
    rw [RetireCause.ofCode_code] at hkeyed
    exact hkeyed
  | publicationPolicy digest =>
    have hdigest : toFixed 32 digest.bytes = .ok digest := toFixed_eq_ok.mpr rfl
    change publicationPolicy <$> toFixed 32 digest.bytes = _
    rw [hdigest]
    rfl
  | bodyHistory rows =>
    have hrows := decodeRows_encodeRows (by simp only [encode, length_cons] at hlen; omega) h.1 h.2
    change bodyHistory <$> decodeRows (encodeRows rows) = _
    rw [hrows]
    rfl
  | retireRecipient | eraseEvidence | holderDebt => exact h.elim

end CodedEntry

/-! ## No read panics -/

theorem quiet_takePart {offset : ℕ} (hlen : bytes.length ≤ maxLen) (hoffset : offset ≤ bytes.length) :
    Quiet (takePart bytes offset) := by
  unfold maxLen at hlen
  refine .bind (.add (by omega)) fun stop hstop => .bind (.getRange _ _ _) fun word hword =>
    .bind (.toNumber _ _) fun len hcount => .bind (.add (by omega)) fun start hstart =>
      .bind (.checkedAdd _ _) fun stop' hstop' => .bind (.getRange _ _ _) fun part hpart => ?_
  obtain ⟨rfl, -⟩ := add_eq_ok.mp hstart
  obtain ⟨rfl, -⟩ := checkedAdd_eq_ok.mp hstop'
  obtain ⟨before, after, rfl, hbefore, hwidth⟩ := getRange_eq_ok.mp hpart
  simp only [length_append] at hlen hoffset
  refine .bind (.add (by omega)) fun width hwide => .bind (.add ?_) fun _ _ => .ok _
  obtain ⟨rfl, -⟩ := add_eq_ok.mp hwide
  omega

/-- A part read ends in the bytes. -/
theorem past_le_of_takePart {offset : ℕ} (hoffset : offset ≤ bytes.length)
    (h : takePart bytes offset = .ok (part, past)) : past ≤ bytes.length := by
  have hsplit := take_append_drop offset bytes
  have hlen : (bytes.take offset).length = offset := length_take_of_le hoffset
  rw [← hsplit] at h
  conv at h => lhs; arg 2; rw [← hlen]
  obtain ⟨-, rfl, after, hafter⟩ := takePart_ok h
  have hwhole := congrArg List.length hsplit
  rw [hafter, ← append_assoc, length_append] at hwhole
  omega

theorem quiet_takeRows (hlen : bytes.length ≤ maxLen) : ∀ {count offset : ℕ},
    offset ≤ bytes.length → Quiet (takeRows bytes count offset)
  | 0, _, _ => .ok _
  | _ + 1, _, hoffset => by
    refine .bind (quiet_takePart hlen hoffset) fun (key, offset) hkey => ?_
    have hoffset := past_le_of_takePart hoffset hkey
    refine .bind (quiet_takePart hlen hoffset) fun (value, offset') hvalue => ?_
    have hoffset' := past_le_of_takePart hoffset hvalue
    exact .ite (fun _ => .bind (quiet_takeRows hlen hoffset') fun _ _ => .ok _) fun _ => .refused

theorem quiet_decodeRows (hlen : bytes.length ≤ maxLen) : Quiet (decodeRows bytes) := by
  refine .bind (.getTo _ _) fun word hword => .bind (.toNumber _ _) fun count _ => ?_
  obtain ⟨hwide, rest, rfl⟩ := getTo_eq_ok.mp hword
  have hoffset : 4 ≤ (word ++ rest).length := by simp [hwide]
  exact .bind (quiet_takeRows hlen hoffset) fun _ _ => .ite (fun _ => .ok _) fun _ => .refused

theorem quiet_decodeRecipient (bytes : Bytes) : Quiet (decodeRecipient bytes) := by
  refine .bind (.splitFirst _) fun (len, rest) _ => .ite (fun _ => .refused) fun hwidth => ?_
  refine .bind (.indexTo (by omega)) fun label _ => .ite (fun _ => ?_) fun _ => .refused
  refine .bind (.indexRange (by omega) (by omega)) fun _ _ => .bind (.okOr _) fun _ _ => ?_
  exact .bind (.indexFrom (by omega)) fun _ _ => .bind (.okOr _) fun _ _ => .ok _

theorem quiet_decodeFence (bytes : Bytes) : Quiet (decodeFence bytes) := by
  refine .bind (.getTo _ _) fun id _ => ?_
  split
  · exact .bind (.okOr _) fun _ _ => .bind (.okOr _) fun _ _ => .ok _
  · exact .refused

theorem quiet_decodeDebt (bytes : Bytes) : Quiet (decodeDebt bytes) := by
  refine .bind (.splitFirst _) fun _ _ => .bind (.getTo _ _) fun _ _ => .bind (.okOr _) fun _ _ =>
    .bind (.okOr _) fun _ _ => ?_
  exact .ite (fun _ => .ok _) fun _ => .ite (fun _ => .ok _) fun _ => .refused

theorem quiet_decodeKeyed (vault : CustodyVaultId) (bytes : Bytes) :
    Quiet (decodeKeyed vault bytes) := by
  refine .bind (.splitFirst _) fun _ _ => .bind (.splitFirst _) fun _ _ =>
    .bind (.splitFirst _) fun (len, rest) _ => .bind (.getTo _ _) fun item hitem => ?_
  obtain ⟨hlen, rest, rfl⟩ := getTo_eq_ok.mp hitem
  refine .bind (.indexFrom (by simp [hlen])) fun tail _ => .bind (.getTo _ _) fun word hword => ?_
  obtain ⟨hlen', rest, rfl⟩ := getTo_eq_ok.mp hword
  refine .bind (.toNumber _ _) fun _ _ => .bind (.indexFrom (by simp [hlen'])) fun tail _ =>
    .bind (.okOr _) fun _ _ => .bind (.okOr _) fun _ _ => ?_
  refine .ite (fun _ => .ok _) fun _ => .ite (fun _ => ?_) fun _ => .refused
  split
  · exact .bind (.okOr _) fun _ _ => .ok _
  · exact .refused

/-- **No bytes make `decode` panic.** -/
theorem CodedEntry.quiet_decode (vault : CustodyVaultId) (hlen : bytes.length ≤ maxLen) :
    Quiet (decode vault bytes) := by
  cases bytes with
  | nil => exact quiet_decodeKeyed vault []
  | cons op body =>
    have hbody : body.length ≤ maxLen := (Nat.le_succ _).trans hlen
    refine .ite (fun _ => quiet_decodeRecipient _) fun _ => .ite (fun _ => .map (.okOr _)) fun _ =>
      .ite (fun _ => quiet_decodeFence _) fun _ => .ite (fun _ => quiet_decodeDebt _) fun _ =>
        .ite (fun _ => .map (quiet_decodeRows hbody)) fun _ => quiet_decodeKeyed vault _

end Oneiron
