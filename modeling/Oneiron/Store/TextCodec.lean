import Oneiron.Contracts.Error
import Oneiron.Foundations.EachKey
import Oneiron.Foundations.Reading

/-!
# Store/TextCodec — terms, posting keys, and the rows of the text index

      posting        id(16) ‖ count(1) ‖ (field_be(2) ‖ tf_le(4))*
      forward row    (term_len_le(8) ‖ term ‖ field_be(2))*
      field lengths  (field_be(2) ‖ length_le(4))*

A term is its own posting key while LMDB takes it; a longer one keeps its head, a `U+0001` and half
of its digest.  So over terms free of `U+0001` whose digests differ, a key names one term
(`Vocabulary.posting_key_injOn`).
-/

open Std

namespace Oneiron

open Std.ExtTreeMap List Reader

/-- The bytes of a valid string. -/
@[ext] structure Term where
  asBytes : Bytes
  utf8 : isUtf8 asBytes = true
  deriving DecidableEq

namespace Term

instance : Ord Term := ⟨compareOn asBytes⟩

instance : TransOrd Term := inferInstanceAs (TransCmp (compareOn asBytes))

instance : LawfulEqOrd Term where
  compare_self {t} := (ReflOrd.compare_self : compare t.asBytes t.asBytes = .eq)
  eq_of_compare {a b} h :=
    Term.ext (LawfulEqOrd.eq_of_compare (show compare a.asBytes b.asBytes = .eq from h))

end Term

/-- Each channel is one field of the index. -/
inductive AnalyzerChannel where
  | surface | stem | normalizedOverlay | cjkNgram | shingle | synonym | phonetic
  deriving DecidableEq

namespace AnalyzerChannel

def fieldId : AnalyzerChannel → ℕ
  | surface => 0
  | stem => 1
  | normalizedOverlay => 2
  | cjkNgram => 3
  | shingle => 4
  | synonym => 5
  | phonetic => 6

def fromFieldId : ℕ → Option AnalyzerChannel
  | 0 => some surface
  | 1 => some stem
  | 2 => some normalizedOverlay
  | 3 => some cjkNgram
  | 4 => some shingle
  | 5 => some synonym
  | 6 => some phonetic
  | _ => none

def permitsZeroDocFieldLength : AnalyzerChannel → Bool
  | normalizedOverlay | synonym => true
  | surface | stem | cjkNgram | shingle | phonetic => false

variable (channel : AnalyzerChannel)

@[simp] theorem fromFieldId_fieldId :
    fromFieldId channel.fieldId = some channel := by cases channel <;> rfl

theorem fieldId_lt : channel.fieldId < 256 ^ 2 := by
  cases channel <;> simp [fieldId]

end AnalyzerChannel

/-! ## Posting keys -/

/-- BLAKE3 under the derive-key context of long terms. -/
structure TermDigest where
  hash : Bytes → Bytes
  length_hash : ∀ b, (hash b).length = 32

/-- `MAX_RAW_POSTING_KEY_BYTES`. -/
def maxRawPostingKeyBytes : ℕ := 511

/-- `LONG_TERM_HEAD_BYTES`. -/
def longTermHeadBytes : ℕ := 256

/-- Whether an offset falls between two characters. -/
def isCharBoundary (b : Bytes) (i : ℕ) : Bool :=
  i = 0 || b[i]?.elim (i = b.length) fun c => c < 0x80 || 0xC0 ≤ c

/-- The last boundary at or before an offset. -/
def charBoundaryBefore (b : Bytes) : ℕ → ℕ
  | 0 => 0
  | i + 1 => if isCharBoundary b (i + 1) then i + 1 else charBoundaryBefore b i

/-- The first 128 bits of a term's digest, in hex. -/
def digestHex (digest : TermDigest) (term : Term) : Bytes :=
  ((digest.hash term.asBytes).flatMap fun (b : UInt8) =>
    [EntityId.toHex.digit (b >>> 4), EntityId.toHex.digit (b &&& 0x0f)]).take 32

def postingKey (digest : TermDigest) (term : Term) : Bytes :=
  if term.asBytes.length ≤ maxRawPostingKeyBytes then term.asBytes else
    term.asBytes.take (charBoundaryBefore term.asBytes longTermHeadBytes) ++
      0x01 :: digestHex digest term

/-- Terms that no two posting keys confuse. -/
structure Vocabulary (digest : TermDigest) where
  terms : Set Term
  /-- None has a `U+0001` in it. -/
  plain : ∀ t ∈ terms, 0x01 ∉ t.asBytes
  /-- No two collide. -/
  apart : Set.InjOn (digestHex digest) terms

theorem length_digestHex (digest : TermDigest) (term : Term) :
    (digestHex digest term).length = 32 := by
  simp [digestHex, digest.length_hash]

/-- **A posting key names one term.** -/
theorem Vocabulary.postingKey_injOn {digest : TermDigest} (vocabulary : Vocabulary digest) :
    Set.InjOn (postingKey digest) vocabulary.terms := by
  intro t ht u hu h
  unfold postingKey at h
  split at h <;> split at h
  · exact Term.ext h
  · exact absurd (h ▸ by simp) (vocabulary.plain t ht)
  · exact absurd (h ▸ by simp) (vocabulary.plain u hu)
  · -- the digests end both keys, and are as long as each other
    obtain ⟨-, h⟩ := append_inj' h (by simp [length_digestHex])
    exact vocabulary.apart ht hu (cons.inj h).2

/-! ## Posting entries -/

def corrupted (message : String) : Error := .corruptedIndex message

structure PostingEntry where
  id : EntityId
  fields : List (ℕ × ℕ)

/-- `field_id_u16_be + u32_le`. -/
def spellFieldNumber (p : ℕ × ℕ) : Bytes := digits 2 p.1 ++ (digits 4 p.2).reverse

/-- …and read back. -/
def fieldNumber (short : Error) : Reader Error (ℕ × ℕ) := do
  let fid ← number 2 short
  let n ← numberLe 4 short
  pure (fid, n)

/-- What an entry is when it can be spelled. -/
def spellPostingEntry (id : EntityId) (fields : OrderedMap ℕ ℕ) : Bytes :=
  id.asBytes ++ fields.size.toUInt8 :: fields.toList.flatMap spellFieldNumber

def encodePostingEntry (id : EntityId) (fields : OrderedMap ℕ ℕ) : Except Error Bytes := do
  ensure (fields.size < 256) (.arithmeticOverflow "bm25 posting field count")
  ensure (fields.size ≠ 0) (corrupted "posting entry has zero field count")
  pure (spellPostingEntry id fields)

def decodePostingEntry (raw : Bytes) : Except Error PostingEntry := do
  ensure (entityIdLen + 1 ≤ raw.length) (corrupted "posting entry truncated at header")
  let id ← okOr (EntityId.fromBytes (raw.take 16)) (corrupted "posting entry has invalid id")
  let fieldCount := (raw.getD 16 0).toNat
  ensure (fieldCount ≠ 0) (corrupted "posting entry has zero field count")
  ensure (17 + fieldCount * 6 = raw.length) (corrupted "posting entry length mismatches field count")
  let (fields, _) ← (many fieldCount
    (fieldNumber (corrupted "posting entry length mismatches field count"))).run (raw.drop 17)
  fields.forM fun field =>
    ensure (field.2 ≠ 0) (corrupted "posting entry has zero term frequency")
  pure ⟨id, fields⟩

/-! ## Forward rows -/

/-- A forward row's records: each term with each of its fields. -/
def forwardRecords (perTerm : OrderedMap Term (OrderedMap ℕ ℕ)) : List (Term × ℕ) :=
  perTerm.toList.flatMap fun row => row.2.keys.map (row.1, ·)

def spellForwardRecord (record : Term × ℕ) : Bytes :=
  (digits 8 record.1.asBytes.length).reverse ++ record.1.asBytes ++ digits 2 record.2

def encodeForward (perTerm : OrderedMap Term (OrderedMap ℕ ℕ)) : Except Error Bytes := do
  perTerm.keys.forM fun term =>
    ensure (term.asBytes.length < 256 ^ 8) (.arithmeticOverflow "bm25 forward term length")
  pure ((forwardRecords perTerm).flatMap spellForwardRecord)

/-- `str::from_utf8`. -/
def Term.ofBytes (raw : Bytes) : Except Error Term :=
  if h : isUtf8 raw = true then .ok ⟨raw, h⟩ else .error (corrupted "forward index has non-utf8 term")

def forwardRecord : Reader Error (Term × ℕ) := do
  let termLen ← numberLe 8 (corrupted "forward index truncated at term-len")
  lift (ensure (termLen ≠ 0) (corrupted "forward index has zero-length term"))
  let termBytes ← take termLen (corrupted "forward index truncated at term body")
  let fieldId ← number 2 (corrupted "forward index truncated at term body")
  let term ← lift (Term.ofBytes termBytes)
  pure (term, fieldId)

def decodeForward (raw : Bytes) : Except Error (List (Term × ℕ)) := do
  ensure (raw ≠ []) (corrupted "empty forward row")
  toEnd forwardRecord (corrupted "forward index truncated at term-len") raw.length raw

/-! ## Field lengths -/

def encodeFieldLengths (lengths : OrderedMap ℕ ℕ) : Bytes := lengths.toList.flatMap spellFieldNumber

def decodeFieldLengths (raw : Bytes) : Except Error (OrderedMap ℕ ℕ) := do
  ensure (raw ≠ []) (corrupted "empty field lengths row")
  ensure (raw.length % 6 = 0) (corrupted "per-doc field lengths has invalid byte length")
  let (chunks, _) ← (many (raw.length / 6)
    (fieldNumber (corrupted "per-doc field lengths has invalid byte length"))).run raw
  pure (chunks.foldl (fun map p => map.insert p.1 p.2) ∅)

/-! ## Corpus statistics -/

/-- `doc_count_u32_le + total_length_u64_le`. -/
def spellFieldStats (docCount totalLength : ℕ) : Bytes :=
  (digits 4 docCount).reverse ++ (digits 8 totalLength).reverse

def decodeFieldStats (raw : Bytes) : Except Error (ℕ × ℕ) := do
  ensure (raw.length = 12) (corrupted "field stats has invalid byte length")
  pure (valueOf (raw.take 4).reverse, valueOf (raw.drop 4).reverse)

def decodeTotalDocs (raw : Bytes) : Except Error ℕ := do
  ensure (raw.length = 4) (corrupted "total_docs sentinel has invalid length")
  pure (valueOf raw.reverse)

/-- `doc_len_u32_le + field_count_u32_le`. -/
def spellDocMeta (docLen fieldCount : ℕ) : Bytes :=
  (digits 4 docLen).reverse ++ (digits 4 fieldCount).reverse

/-! ## What was spelled reads back -/

variable {total : ℕ} (short : Error)

theorem exact_fieldNumber :
    Reader.Exact (fieldNumber short) (fun p => p.1 < 256 ^ 2 ∧ p.2 < 256 ^ 4) spellFieldNumber :=
  (exact_number 2 short).pair (exact_numberLe 4 short)

@[simp] theorem length_spellFieldNumber (p : ℕ × ℕ) : (spellFieldNumber p).length = 6 := by
  simp [spellFieldNumber]

theorem length_flatMap_spellFieldNumber (l : List (ℕ × ℕ)) :
    (l.flatMap spellFieldNumber).length = l.length * 6 := by
  induction l with
  | nil => rfl
  | cons p l ih =>
    rw [flatMap_cons, length_append, ih, length_spellFieldNumber, length_cons]
    omega

/-- So many field numbers, and nothing after. -/
theorem run_many_fieldNumber {l : List (ℕ × ℕ)} (h : ∀ p ∈ l, p.1 < 256 ^ 2 ∧ p.2 < 256 ^ 4) :
    (many l.length (fieldNumber short)).run (l.flatMap spellFieldNumber) = .ok (l, []) :=
  ((exact_fieldNumber short).many l.length _ l []).mpr ⟨⟨rfl, h⟩, (append_nil _).symm⟩

theorem decodePostingEntry_spell {id : EntityId} {fields : OrderedMap ℕ ℕ}
    (hid : EntityId.isReserved id.asBytes = false) (hsize : fields.size < 256)
    (hfields : ∀ fid tf, fields[fid]? = some tf → fid < 256 ^ 2 ∧ 0 < tf ∧ tf < 256 ^ 4)
    (hne : fields.size ≠ 0) :
    decodePostingEntry (spellPostingEntry id fields) = .ok ⟨id, fields.toList⟩ := by
  have hmem (p : ℕ × ℕ) (hp : p ∈ fields.toList) : p.1 < 256 ^ 2 ∧ 0 < p.2 ∧ p.2 < 256 ^ 4 :=
    hfields p.1 p.2 (mem_toList_iff_getElem?_eq_some.mp hp)
  have htake : (spellPostingEntry id fields).take 16 = id.asBytes :=
    take_left' id.length_asBytes
  have hread : EntityId.fromBytes id.asBytes = some id := by simp [EntityId.fromBytes, hid]
  have hcount : ((spellPostingEntry id fields).getD 16 0).toNat = fields.size := by
    have hbyte : (spellPostingEntry id fields).getD 16 0 = fields.size.toUInt8 := by
      simp [spellPostingEntry, getD_eq_getElem?_getD]
    rw [hbyte]
    exact Nat.mod_eq_of_lt hsize
  have hdrop : (spellPostingEntry id fields).drop 17 = fields.toList.flatMap spellFieldNumber := by
    simp [spellPostingEntry, drop_append]
  have hlen : (spellPostingEntry id fields).length = 17 + fields.size * 6 := by
    rw [spellPostingEntry, length_append, length_cons, length_flatMap_spellFieldNumber,
      id.length_asBytes, length_toList]
    omega
  have hmany := run_many_fieldNumber (corrupted "posting entry length mismatches field count")
    (l := fields.toList) fun p hp => ⟨(hmem p hp).1, (hmem p hp).2.2⟩
  rw [length_toList] at hmany
  simp only [decodePostingEntry, bind_eq_ok, pure_eq_ok, ensure_eq_ok, okOr_eq_ok, htake, hcount,
    hdrop, hlen, Prod.exists]
  refine ⟨⟨⟩, ?_, id, hread, ⟨⟩, hne, ⟨⟩, trivial, fields.toList, [], hmany, ⟨⟩, ?_, rfl⟩
  · unfold entityIdLen
    omega
  · exact forM_eq_ok.mpr fun p hp => ensure_eq_ok.mpr (hmem p hp).2.1.ne'

theorem exact_forwardRecord : Reader.Exact forwardRecord
    (fun record => record.1.asBytes ≠ [] ∧ record.1.asBytes.length < 256 ^ 8 ∧ record.2 < 256 ^ 2)
    spellForwardRecord := by
  rintro s ⟨term, fid⟩ t
  simp only [forwardRecord, run_bind_ok, run_pure_ok, run_lift_ok,
    ensure_eq_ok, exact_take _ _ _, exact_number _ _ _, exact_numberLe _ _ _]
  constructor
  · rintro ⟨len, s₁, ⟨hlen, rfl⟩, ⟨⟩, s₂, ⟨hne, rfl⟩, b, s₃, ⟨rfl, rfl⟩, fid', s₄, ⟨hfid, rfl⟩,
      term', s₅, ⟨hterm, rfl⟩, heq, rfl⟩
    obtain ⟨rfl, rfl⟩ := Prod.mk.inj heq
    unfold Term.ofBytes at hterm
    split at hterm
    · obtain rfl := Except.ok.inj hterm
      refine ⟨⟨fun h => hne (by rw [show b = [] from h]; rfl), hlen, hfid⟩, ?_⟩
      simp [spellForwardRecord]
    · cases hterm
  · rintro ⟨⟨hne, hlen, hfid⟩, rfl⟩
    refine ⟨_, _, ⟨hlen, ?_⟩, ⟨⟩, _, ⟨?_, rfl⟩, term.asBytes, _, ⟨rfl, rfl⟩, fid, t, ⟨hfid, rfl⟩,
      term, t, ⟨?_, rfl⟩, rfl, rfl⟩
    · simp [spellForwardRecord]
    · exact fun h => hne (length_eq_zero_iff.mp h)
    · simp [Term.ofBytes, term.utf8]

theorem mem_forwardRecords {perTerm : OrderedMap Term (OrderedMap ℕ ℕ)} {record : Term × ℕ} :
    record ∈ forwardRecords perTerm ↔
      ∃ fields, perTerm[record.1]? = some fields ∧ record.2 ∈ fields := by
  simp only [forwardRecords, mem_flatMap, List.mem_map, Prod.exists,
    mem_toList_iff_getElem?_eq_some, ExtTreeMap.mem_keys]
  constructor
  · rintro ⟨term, fields, hrow, fid, hfid, rfl⟩
    exact ⟨fields, hrow, hfid⟩
  · rintro ⟨fields, hrow, hfid⟩
    exact ⟨record.1, fields, hrow, record.2, hfid, rfl⟩

/-- **A forward row of records reads back**, when it has one and no term is empty. -/
theorem decodeForward_spell {records : List (Term × ℕ)} (hne : records ≠ [])
    (h : ∀ record ∈ records, record.1.asBytes ≠ [] ∧ record.1.asBytes.length < 256 ^ 8 ∧
      record.2 < 256 ^ 2) :
    decodeForward (records.flatMap spellForwardRecord) = .ok records := by
  have hspell (record : Term × ℕ) : spellForwardRecord record ≠ [] := by
    have hlen : (spellForwardRecord record).length ≠ 0 := by simp [spellForwardRecord]
    exact fun h => hlen (by rw [h]; rfl)
  have hraw : records.flatMap spellForwardRecord ≠ [] := by
    obtain ⟨record, rest, rfl⟩ := exists_cons_of_ne_nil hne
    exact append_ne_nil_of_left_ne_nil (hspell record) _
  simp only [decodeForward, bind_eq_ok, ensure_eq_ok]
  exact ⟨⟨⟩, hraw, (exact_forwardRecord.toEnd (fun _ _ => hspell _) le_rfl).mpr ⟨h, rfl⟩⟩

theorem decodeFieldLengths_encode {lengths : OrderedMap ℕ ℕ} (hne : lengths.size ≠ 0)
    (h : ∀ fid len, lengths[fid]? = some len → fid < 256 ^ 2 ∧ len < 256 ^ 4) :
    decodeFieldLengths (encodeFieldLengths lengths) = .ok lengths := by
  have hlen : (encodeFieldLengths lengths).length = lengths.size * 6 := by
    rw [encodeFieldLengths, length_flatMap_spellFieldNumber, length_toList]
  have hraw : encodeFieldLengths lengths ≠ [] := by
    intro hnil
    rw [hnil] at hlen
    exact hne (by simpa using hlen.symm)
  have hmany := run_many_fieldNumber (corrupted "per-doc field lengths has invalid byte length")
    (l := lengths.toList) fun p hp => h p.1 p.2 (mem_toList_iff_getElem?_eq_some.mp hp)
  rw [length_toList] at hmany
  have hback : lengths.toList.foldl (fun map p => map.insert p.1 p.2) (∅ : OrderedMap ℕ ℕ) =
      lengths := ExtTreeMap.ext_getElem? fun fid => by
    rw [OrderedMap.foldl_at (fun map fid => map[fid]?) _ (fun _ _ len => some len)
      (fun map fid len => getElem?_insert_self)
      (fun map fid len j hne => by simp [ExtTreeMap.getElem?_insert, hne.symm])]
    cases lengths[fid]? <;> simp
  simp only [decodeFieldLengths, bind_eq_ok, ensure_eq_ok, pure_eq_ok, hlen, Prod.exists,
    Nat.mul_mod_left, Nat.mul_div_cancel _ (by decide : 0 < 6)]
  exact ⟨⟨⟩, hraw, ⟨⟩, trivial, lengths.toList, [], hmany, hback⟩

theorem decodeFieldStats_spell {docCount totalLength : ℕ} (hdocs : docCount < 256 ^ 4)
    (htotal : totalLength < 256 ^ 8) :
    decodeFieldStats (spellFieldStats docCount totalLength) = .ok (docCount, totalLength) := by
  have htake : (spellFieldStats docCount totalLength).take 4 = (digits 4 docCount).reverse :=
    take_left' (by simp)
  have hdrop : (spellFieldStats docCount totalLength).drop 4 = (digits 8 totalLength).reverse :=
    drop_left' (by simp)
  simp only [decodeFieldStats, bind_eq_ok, ensure_eq_ok, pure_eq_ok, htake, hdrop,
    reverse_reverse, valueOf_digits hdocs, valueOf_digits htotal]
  exact ⟨⟨⟩, by simp [spellFieldStats], trivial⟩

theorem decodeTotalDocs_spell (h : total < 256 ^ 4) :
    decodeTotalDocs (digits 4 total).reverse = .ok total := by
  simp only [decodeTotalDocs, bind_eq_ok, ensure_eq_ok, pure_eq_ok, reverse_reverse,
    valueOf_digits h]
  exact ⟨⟨⟩, by simp, trivial⟩

theorem total_lt_of_decodeTotalDocs {raw : Bytes} (h : decodeTotalDocs raw = .ok total) :
    total < 256 ^ 4 := by
  simp only [decodeTotalDocs, bind_eq_ok, ensure_eq_ok, pure_eq_ok] at h
  obtain ⟨-, hlen, rfl⟩ := h
  have := valueOf_lt raw.reverse
  rwa [length_reverse, hlen] at this

end Oneiron
