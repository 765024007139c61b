import Oneiron.Store.TextCodec

/-!
# Store/TextIndex — the tables of the text index, and what writes them

Six tables and the caller's own text.  `indexText` takes a document's last rows back before it
writes new ones; `deindexText` works from the forward row, and where postings it names are gone it
goes on only after counting the documents again (`proveCounted`).

A transaction that fails is dropped, so a call that errs leaves the tables as they were.
-/

namespace Oneiron

open List

section Index

open Std

/-- What the analyzer emits, as far as the index reads it. -/
structure Token where
  term : Term
  channel : AnalyzerChannel
  lengthIncrement : UInt8

/-- A caller's fields, by name. -/
abbrev TextFields := List (Bytes × Bytes)

/-- Terms, each with its frequency in each field. -/
abbrev PerTerm := OrderedMap Term (OrderedMap ℕ ℕ)

/-! ## Analysis -/

/-- `analyze`'s accumulators. -/
structure TokenTally where
  perField : OrderedMap ℕ (OrderedMap Term ℕ)
  perFieldLen : OrderedMap ℕ ℕ
  docLenTotal : ℕ

def TokenTally.add (tally : TokenTally) (tok : Token) : Except Error TokenTally := do
  let fid := tok.channel.fieldId
  let inc := tok.lengthIncrement.toNat
  let entry := tally.perField[fid]?.getD ∅
  let tf := entry[tok.term]?.getD 0 + 1
  -- a plain `+= 1`: past the word it panics
  ensure (tf < 256 ^ 4) (.arithmeticOverflow "attempt to add with overflow")
  let slot := tally.perFieldLen[fid]?.getD 0 + inc
  ensure (slot < 256 ^ 4) (.arithmeticOverflow "bm25 per-field length")
  let docLenTotal := tally.docLenTotal + inc
  ensure (docLenTotal < 256 ^ 4) (.arithmeticOverflow "bm25 doc length")
  pure ⟨tally.perField.insert fid (entry.insert tok.term tf), tally.perFieldLen.insert fid slot,
    docLenTotal⟩

structure Analysis where
  perTerm : PerTerm
  perFieldLen : OrderedMap ℕ ℕ
  docLenTotal : ℕ

/-- `MAX_INDEXED_TEXT_BYTES`. -/
def maxIndexedTextBytes : ℕ := 2 * 1024 * 1024

def checkIndexedTextBytes (fields : TextFields) : Except Error PUnit :=
  let bytes := (fields.map fun field => field.1.length + field.2.length).sum
  ensure (bytes ≤ maxIndexedTextBytes) (.indexedTextTooLarge bytes maxIndexedTextBytes)

def analyze (analyzer : Bytes → List Token) (fields : TextFields) : Except Error Analysis := do
  checkIndexedTextBytes fields
  let tally ← (fields.flatMap fun field => analyzer field.2).foldlM TokenTally.add ⟨∅, ∅, 0⟩
  pure ⟨tally.perField.turned, tally.perFieldLen, tally.docLenTotal⟩

/-! ## The tables -/

structure TextIndex where
  sourceText : OrderedMap EntityId TextFields
  /-- `DUP_SORT`: keys, each with its sorted duplicates. -/
  textPostings : OrderedSet KvPair
  textForward : OrderedMap EntityId Bytes
  textDocFieldLengths : OrderedMap EntityId Bytes
  textMeta : OrderedMap EntityId Bytes
  textBm25FieldStats : OrderedMap ℕ Bytes

/-- An empty store. -/
def TextIndex.empty : TextIndex := ⟨∅, ∅, ∅, ∅, ∅, ∅⟩

/-- `TOTAL_DOCS_KEY`. -/
def totalDocsKey : EntityId := EntityId.filled 0x00

def validateTextDocId (id : EntityId) : Except Error PUnit :=
  ensure (EntityId.isReserved id.asBytes = false) .invalidKey

def readFieldStats (stats : OrderedMap ℕ Bytes) (fid : ℕ) : Except Error (ℕ × ℕ) :=
  stats[fid]?.elim (.ok (0, 0)) decodeFieldStats

def readTotalDocs (textMeta : OrderedMap EntityId Bytes) : Except Error ℕ :=
  textMeta[totalDocsKey]?.elim (.ok 0) decodeTotalDocs

def writeTotalDocs (textMeta : OrderedMap EntityId Bytes) (total : ℕ) : OrderedMap EntityId Bytes :=
  textMeta.insert totalDocsKey (digits 4 total).reverse

/-- What LMDB takes as a key, and as a duplicate, of a `DUP_SORT` table. -/
def LmdbTakes (key value : Bytes) : Prop :=
  (0 < key.length ∧ key.length ≤ 511) ∧ value.length ≤ 511

instance (key value : Bytes) : Decidable (LmdbTakes key value) :=
  inferInstanceAs (Decidable ((_ ∧ _) ∧ _))

/-! ## Postings -/

inductive PostingLookup where
  | rowMissing
  | entityMissing
  | found (entry : Bytes)

/-- The duplicates filed under a key, in order. -/
def duplicates (postings : OrderedSet KvPair) (key : Bytes) : List Bytes :=
  (postings.toList.filter (·.1 = key)).map (·.2)

/-- The walk over a key's duplicates, up to the first past the entity. -/
def scanDuplicates (id : EntityId) : List Bytes → Option Bytes → Except Error (Option Bytes)
  | [], found => .ok found
  | dup :: rest, found =>
    if dup.length < entityIdLen + 1 then .error (corrupted "posting entry truncated at header") else
    match compare (dup.take entityIdLen) id.asBytes with
    | .lt => scanDuplicates id rest found
    | .eq =>
      if found.isSome then .error (corrupted "duplicate posting entries for one entity")
      else scanDuplicates id rest (some dup)
    | .gt => .ok found

def findPostingDup (digest : TermDigest) (postings : OrderedSet KvPair) (term : Term)
    (id : EntityId) : Except Error PostingLookup :=
  match duplicates postings (postingKey digest term) with
  | [] => .ok .rowMissing
  | dups@(_ :: _) => do
    let found ← scanDuplicates id dups none
    pure (found.elim .entityMissing .found)

def putPosting (digest : TermDigest) (id : EntityId) (postings : OrderedSet KvPair)
    (row : Term × OrderedMap ℕ ℕ) : Except Error (OrderedSet KvPair) := do
  let entry ← encodePostingEntry id row.2
  ensure (LmdbTakes (postingKey digest row.1) entry) (.storage "MDB_BAD_VALSIZE")
  pure (postings.insert (postingKey digest row.1, entry))

/-! ## Counting the documents again -/

/-- What the count has come to. -/
structure Recount where
  sawDoc : Bool
  totalDocs : ℕ
  fieldStats : OrderedMap ℕ (ℕ × ℕ)

def Recount.addField (stats : OrderedMap ℕ (ℕ × ℕ)) (field : ℕ × ℕ) :
    Except Error (OrderedMap ℕ (ℕ × ℕ)) := do
  let (docCount, totalLength) := stats[field.1]?.getD (0, 0)
  ensure (docCount + 1 < 256 ^ 4) (.arithmeticOverflow "bm25 field doc_count recompute")
  ensure (totalLength + field.2 < 256 ^ 8) (.arithmeticOverflow "bm25 field total_length recompute")
  pure (stats.insert field.1 (docCount + 1, totalLength + field.2))

def Recount.add (id : EntityId) (expectedLengths : OrderedMap ℕ ℕ) (recount : Recount)
    (row : EntityId × Bytes) : Except Error Recount := do
  let lengths ← decodeFieldLengths row.2
  ensure (row.1 = id → lengths = expectedLengths)
    (corrupted "field lengths changed during missing posting repair")
  ensure (recount.totalDocs + 1 < 256 ^ 4) (.arithmeticOverflow "bm25 total_docs recompute")
  let stats ← lengths.toList.foldlM addField recount.fieldStats
  pure ⟨recount.sawDoc || row.1 = id, recount.totalDocs + 1, stats⟩

/-- `prove_bm25_doc_counted_for_missing_posting_repair`. -/
def proveCounted (idx : TextIndex) (id : EntityId) (expectedLengths : OrderedMap ℕ ℕ) :
    Except Error PUnit := do
  let recount ← idx.textDocFieldLengths.toList.foldlM (Recount.add id expectedLengths) ⟨false, 0, ∅⟩
  ensure recount.sawDoc (corrupted "missing field lengths for missing posting repair")
  let totalDocs ← readTotalDocs idx.textMeta
  ensure (totalDocs = recount.totalDocs)
    (corrupted "missing posting repair cannot prove document is counted in total_docs")
  recount.fieldStats.toList.forM fun row => do
    let stats ← readFieldStats idx.textBm25FieldStats row.1
    ensure (stats = row.2)
      (corrupted "missing posting repair cannot prove document is counted in field stats")
  idx.textBm25FieldStats.toList.forM fun row => do
    ensure (row.2.length = 12) (corrupted "field stats has invalid byte length")
    ensure (row.1 ∈ recount.fieldStats) (corrupted "field stats row has no matching doc lengths")

/-! ## Taking a document out -/

/-- The forward row and the lengths name the same fields, and a length is zero only where it may. -/
def checkFields (forward : List (Term × ℕ)) (lengths : OrderedMap ℕ ℕ) : Except Error PUnit := do
  let forwardFields : OrderedSet ℕ := ExtTreeSet.ofList (forward.map (·.2)) compare
  forwardFields.toList.forM fun fid => do
    let len ← okOr lengths[fid]? (corrupted "forward field missing from per-doc field lengths")
    ensure (∀ channel ∈ AnalyzerChannel.fromFieldId fid,
        channel.permitsZeroDocFieldLength = false → len ≠ 0)
      (corrupted "zero length for indexed field that does not emit zero-length tokens")
  lengths.keys.forM fun fid =>
    ensure (fid ∈ forwardFields) (corrupted "per-doc field length has no matching forward field")

/-- A field's statistics without one document's. -/
def uncountField (stats : OrderedMap ℕ Bytes) (field : ℕ × ℕ) :
    Except Error (OrderedMap ℕ Bytes) := do
  let (docCount, totalLength) ← readFieldStats stats field.1
  ensure (1 ≤ docCount) (corrupted "field doc_count underflow during deindex")
  ensure (field.2 ≤ totalLength) (corrupted "field total_length underflow during deindex")
  pure (if docCount - 1 = 0 ∧ totalLength - field.2 = 0 then stats.erase field.1
    else stats.insert field.1 (spellFieldStats (docCount - 1) (totalLength - field.2)))

/-- The posting of each term, as far as there is one. -/
def lookupPostings (digest : TermDigest) (idx : TextIndex) (id : EntityId) (terms : List Term) :
    Except Error (List (Term × PostingLookup)) :=
  terms.mapM fun term => (term, ·) <$> findPostingDup digest idx.textPostings term id

/-- Each posting found, with its key. -/
def postingsToDelete (digest : TermDigest) (lookups : List (Term × PostingLookup)) : List KvPair :=
  lookups.filterMap fun
    | (term, .found entry) => some (postingKey digest term, entry)
    | (_, .rowMissing) | (_, .entityMissing) => none

/-- Where a posting is missing, only a document still counted is taken out. -/
def proveIfMissing (digest : TermDigest) (idx : TextIndex) (id : EntityId) (lengths : OrderedMap ℕ ℕ)
    (lookups : List (Term × PostingLookup)) : Except Error PUnit :=
  if (postingsToDelete digest lookups).length < lookups.length then proveCounted idx id lengths
  else .ok ⟨⟩

/-- The rest of a deindex, once a forward row is found. -/
def removeRows (digest : TermDigest) (idx : TextIndex) (id : EntityId) (forwardRaw : Bytes) :
    Except Error TextIndex := do
  let forward ← decodeForward forwardRaw
  ensure (id ∈ idx.textMeta) (corrupted "missing text metadata for deindex")
  let raw ← okOr idx.textDocFieldLengths[id]?
    (corrupted "missing field lengths for indexed document")
  let lengths ← decodeFieldLengths raw
  checkFields forward lengths
  let terms : OrderedSet Term := ExtTreeSet.ofList (forward.map (·.1)) compare
  let lookups ← lookupPostings digest idx id terms.toList
  proveIfMissing digest idx id lengths lookups
  let postings ← (postingsToDelete digest lookups).foldlM
    (OrderedSet.take (corrupted "posting entry vanished mid-transaction during deindex"))
    idx.textPostings
  let stats ← lengths.toList.foldlM uncountField idx.textBm25FieldStats
  let totalDocs ← readTotalDocs idx.textMeta
  ensure (1 ≤ totalDocs) (corrupted "total_docs underflow during deindex")
  pure { idx with
    textPostings := postings
    textBm25FieldStats := stats
    textMeta := (writeTotalDocs idx.textMeta (totalDocs - 1)).erase id
    textForward := idx.textForward.erase id
    textDocFieldLengths := idx.textDocFieldLengths.erase id }

def deindexText (digest : TermDigest) (idx : TextIndex) (id : EntityId) :
    Except Error TextIndex := do
  validateTextDocId id
  let idx := { idx with sourceText := idx.sourceText.erase id }
  match idx.textForward[id]? with
  | some forwardRaw => removeRows digest idx id forwardRaw
  | none =>
    ensure (id ∉ idx.textMeta) (corrupted "missing forward index for indexed document")
    pure idx

/-! ## Putting a document in -/

/-- A field's statistics with one document's. -/
def countField (stats : OrderedMap ℕ Bytes) (field : ℕ × ℕ) : Except Error (OrderedMap ℕ Bytes) := do
  let (docCount, totalLength) ← readFieldStats stats field.1
  ensure (docCount + 1 < 256 ^ 4) (.arithmeticOverflow "bm25 field doc_count")
  ensure (totalLength + field.2 < 256 ^ 8) (.arithmeticOverflow "bm25 field total_length")
  pure (stats.insert field.1 (spellFieldStats (docCount + 1) (totalLength + field.2)))

/-- The rows of a document that has terms. -/
def putRows (digest : TermDigest) (idx : TextIndex) (id : EntityId) (analysis : Analysis) :
    Except Error TextIndex := do
  let postings ← analysis.perTerm.toList.foldlM (putPosting digest id) idx.textPostings
  let forwardBytes ← encodeForward analysis.perTerm
  ensure (analysis.perFieldLen.size < 256 ^ 4) (.arithmeticOverflow "bm25 field count")
  let textMeta := idx.textMeta.insert id
    (spellDocMeta analysis.docLenTotal analysis.perFieldLen.size)
  let stats ← analysis.perFieldLen.toList.foldlM countField idx.textBm25FieldStats
  let totalDocs ← readTotalDocs textMeta
  ensure (totalDocs + 1 < 256 ^ 4) (.arithmeticOverflow "bm25 total_docs")
  pure { idx with
    textPostings := postings
    textForward := idx.textForward.insert id forwardBytes
    textDocFieldLengths := idx.textDocFieldLengths.insert id (encodeFieldLengths analysis.perFieldLen)
    textMeta := writeTotalDocs textMeta (totalDocs + 1)
    textBm25FieldStats := stats }

/-- What a document's last indexing left, taken back. -/
def clearRows (digest : TermDigest) (idx : TextIndex) (id : EntityId) : Except Error TextIndex :=
  match idx.textForward[id]? with
  | some _ => deindexText digest idx id
  | none => do
    ensure (id ∉ idx.textMeta) (corrupted "missing forward index for indexed document")
    pure idx

def writeIndex (digest : TermDigest) (idx : TextIndex) (id : EntityId) (fields : TextFields)
    (analysis : Analysis) : Except Error TextIndex := do
  let idx ← clearRows digest idx id
  let idx := { idx with sourceText := idx.sourceText.insert id fields }
  if analysis.perTerm.isEmpty then pure idx else putRows digest idx id analysis

def indexText (digest : TermDigest) (analyzer : Bytes → List Token) (idx : TextIndex) (id : EntityId)
    (fields : TextFields) : Except Error TextIndex := do
  validateTextDocId id
  let analysis ← analyze analyzer fields
  writeIndex digest idx id fields analysis

end Index

/-! ## Finding, putting and taking one document's postings

The duplicates of a key are in byte order, so in the order of the ids they begin with.  A walk that
stops past an id has seen every entry of it (`scanDuplicates_eq`).
-/

section Postings

open Std

variable {digest : TermDigest} {id : EntityId} {postings : OrderedSet KvPair}

theorem mem_duplicates {key dup : Bytes} : dup ∈ duplicates postings key ↔ (key, dup) ∈ postings := by
  simp only [duplicates, mem_map, mem_filter, ExtTreeSet.mem_toList, decide_eq_true_eq,
    Prod.exists]
  constructor
  · rintro ⟨_, _, ⟨h, rfl⟩, rfl⟩
    exact h
  · exact fun h => ⟨key, dup, ⟨h, rfl⟩, rfl⟩

theorem sorted_duplicates (postings : OrderedSet KvPair) (key : Bytes) :
    Sorted compare (duplicates postings key) := by
  have hsorted : Sorted compare (postings.toList.filter (·.1 = key)) :=
    Sorted.filter ExtTreeSet.ordered_toList _
  refine pairwise_map.mpr (List.Pairwise.imp_of_mem (fun {p q} hp hq h => ?_) hsorted)
  have hkeys : p.1 = q.1 := by
    rw [of_decide_eq_true (mem_filter.mp hp).2, of_decide_eq_true (mem_filter.mp hq).2]
  rw [compare_pair, hkeys, ReflOrd.compare_self] at h
  exact h

/-- Past the entries of an id there is none of it. -/
theorem scanDuplicates_past (found : Option Bytes) : ∀ {dups : List Bytes},
    (∀ dup ∈ dups, entityIdLen + 1 ≤ dup.length) →
    (∀ dup ∈ dups, dup.take entityIdLen ≠ id.asBytes) →
    scanDuplicates id dups found = .ok found
  | [], _, _ => rfl
  | dup :: rest, hlen, hnot => by
    rw [forall_mem_cons] at hlen hnot
    rw [scanDuplicates, if_neg (Nat.not_lt.mpr hlen.1)]
    have hrest := scanDuplicates_past found hlen.2 hnot.2
    cases h : compare (dup.take entityIdLen) id.asBytes with
    | lt => exact hrest
    | eq => exact absurd (LawfulEqOrd.eq_of_compare h) hnot.1
    | gt => rfl

/-- **The walk finds an id's one entry**, if it has one. -/
theorem scanDuplicates_eq (id : EntityId) : ∀ {dups : List Bytes}, Sorted compare dups →
    (∀ dup ∈ dups, entityIdLen + 1 ≤ dup.length) →
    (∀ dup ∈ dups, ∀ dup' ∈ dups, dup.take entityIdLen = id.asBytes →
      dup'.take entityIdLen = id.asBytes → dup = dup') →
    ∃ found, scanDuplicates id dups none = .ok found ∧
      ∀ dup, found = some dup ↔ dup ∈ dups ∧ dup.take entityIdLen = id.asBytes
  | [], _, _, _ => ⟨none, rfl, fun dup => by simp⟩
  | dup :: rest, hsorted, hlen, hone => by
    rw [sorted_cons] at hsorted
    rw [forall_mem_cons] at hlen
    rw [scanDuplicates, if_neg (Nat.not_lt.mpr hlen.1)]
    cases h : compare (dup.take entityIdLen) id.asBytes with
    | lt =>
      obtain ⟨found, hfound, hiff⟩ := scanDuplicates_eq id hsorted.2 hlen.2 fun a ha b hb =>
        hone a (mem_cons_of_mem _ ha) b (mem_cons_of_mem _ hb)
      refine ⟨found, hfound, fun a => (hiff a).trans ⟨fun ⟨ha, heq⟩ =>
        ⟨mem_cons_of_mem _ ha, heq⟩, fun ⟨ha, heq⟩ => ⟨?_, heq⟩⟩⟩
      rcases mem_cons.mp ha with rfl | ha
      · rw [heq, ReflOrd.compare_self] at h
        cases h
      · exact ha
    | eq =>
      have heq := LawfulEqOrd.eq_of_compare h
      have hrest (a : Bytes) (ha : a ∈ rest) : a.take entityIdLen ≠ id.asBytes := by
        intro hid
        have hsame := hone dup mem_cons_self a (mem_cons_of_mem _ ha) heq hid
        have hlt := hsorted.1 a ha
        rw [hsame, ReflOrd.compare_self] at hlt
        cases hlt
      refine ⟨some dup, scanDuplicates_past _ hlen.2 hrest, fun a => ?_⟩
      rw [Option.some.injEq, mem_cons]
      constructor
      · rintro rfl
        exact ⟨Or.inl rfl, heq⟩
      · rintro ⟨rfl | ha, hid⟩
        · rfl
        · exact absurd hid (hrest a ha)
    | gt =>
      refine ⟨none, rfl, fun a => ⟨nofun, ?_⟩⟩
      rintro ⟨ha, hid⟩
      rcases mem_cons.mp ha with rfl | ha
      · rw [hid, ReflOrd.compare_self] at h
        cases h
      · -- what is filed after sorts no earlier in its first sixteen bytes
        have hle := isLE_compare_take entityIdLen (hsorted.1 a ha)
        rw [hid, h] at hle
        cases hle

/-- **What is found of a term** is the document's own entry, while it is there. -/
theorem findPostingDup_eq {term : Term} {entry : Bytes} (hentry : entry.take entityIdLen = id.asBytes)
    (hlen : ∀ dup, (postingKey digest term, dup) ∈ postings → entityIdLen + 1 ≤ dup.length)
    (hone : ∀ dup, (postingKey digest term, dup) ∈ postings → dup.take entityIdLen = id.asBytes →
      dup = entry) :
    ∃ lookup, findPostingDup digest postings term id = .ok lookup ∧
      ∀ found, lookup = .found found ↔ found = entry ∧ (postingKey digest term, entry) ∈ postings := by
  obtain ⟨found, hscan, hiff⟩ := scanDuplicates_eq id
    (sorted_duplicates postings (postingKey digest term))
    (fun dup hdup => hlen dup (mem_duplicates.mp hdup)) fun a ha b hb haid hbid => by
      rw [hone a (mem_duplicates.mp ha) haid, hone b (mem_duplicates.mp hb) hbid]
  have hfound (a : Bytes) : found = some a ↔ a = entry ∧ (postingKey digest term, entry) ∈ postings := by
    rw [hiff, mem_duplicates]
    constructor
    · rintro ⟨ha, hid⟩
      obtain rfl := hone a ha hid
      exact ⟨rfl, ha⟩
    · rintro ⟨rfl, ha⟩
      exact ⟨ha, hentry⟩
  unfold findPostingDup
  split
  · next hnil =>
    rw [hnil] at hscan
    obtain rfl := Except.ok.inj hscan
    exact ⟨.rowMissing, rfl, fun a => ⟨nofun, fun h => by cases (hfound a).mpr h⟩⟩
  · next hcons =>
    rw [hcons] at hscan
    refine ⟨found.elim .entityMissing .found, by rw [hscan]; rfl, fun a => ?_⟩
    rw [← hfound]
    cases found <;> simp

/-- **Every term looked up**, of a document with the given entries: those still there are found, and
no two by one key. -/
theorem lookupPostings_eq (digest : TermDigest) (idx : TextIndex) (id : EntityId)
    (entry : Term → Bytes) {terms : List Term} (hterms : terms.Nodup)
    (hkeys : ∀ t ∈ terms, ∀ u ∈ terms, postingKey digest t = postingKey digest u → t = u)
    (hfind : ∀ t ∈ terms, ∃ lookup, findPostingDup digest idx.textPostings t id = .ok lookup ∧
      ∀ found, lookup = .found found ↔
        found = entry t ∧ (postingKey digest t, entry t) ∈ idx.textPostings) :
    ∃ lookups, lookupPostings digest idx id terms = .ok lookups ∧
      (postingsToDelete digest lookups).Nodup ∧
      ∀ p, p ∈ postingsToDelete digest lookups ↔
        ∃ t ∈ terms, p = (postingKey digest t, entry t) ∧ p ∈ idx.textPostings := by
  obtain ⟨lookups, hlookups, hall⟩ := exists_mapM (l := terms)
    (f := fun term => (term, ·) <$> findPostingDup digest idx.textPostings term id)
    (P := fun t row => row.1 = t ∧ ∀ found, row.2 = .found found ↔
      found = entry t ∧ (postingKey digest t, entry t) ∈ idx.textPostings) fun t ht => by
      obtain ⟨lookup, hfound, hiff⟩ := hfind t ht
      exact ⟨(t, lookup), by rw [hfound]; rfl, rfl, hiff⟩
  refine ⟨lookups, hlookups, ?_, fun p => ?_⟩
  · -- each posting has the key of its own term
    have hsub : ((postingsToDelete digest lookups).map Prod.fst).Sublist
        (terms.map (postingKey digest)) := by
      clear hterms hkeys hfind hlookups
      induction hall with
      | nil => exact List.Sublist.slnil
      | @cons t row terms lookups hrow _ ih =>
        obtain ⟨u, lookup⟩ := row
        obtain rfl : u = t := hrow.1
        cases lookup with
        | rowMissing | entityMissing => exact ih.cons _
        | found entry => exact ih.cons_cons _
    exact .of_map _ (hsub.nodup (hterms.map_on hkeys))
  · clear hterms hkeys hfind hlookups
    induction hall with
    | nil => simp [postingsToDelete]
    | @cons t row terms lookups hrow _ ih =>
      obtain ⟨u, lookup⟩ := row
      obtain ⟨rfl, hiff⟩ := hrow
      rw [exists_mem_cons_iff, ← ih]
      cases lookup with
      | rowMissing | entityMissing =>
        have hnone : (postingKey digest u, entry u) ∉ idx.textPostings := fun h => by
          cases (hiff (entry u)).mpr ⟨rfl, h⟩
        exact ⟨Or.inr, fun h => h.resolve_left fun ⟨heq, hp⟩ => hnone (heq ▸ hp)⟩
      | found found =>
        obtain ⟨hfound, hp⟩ := (hiff found).mp rfl
        show p ∈ (postingKey digest u, found) :: postingsToDelete digest lookups ↔ _
        rw [mem_cons, hfound]
        exact or_congr_left ⟨fun h => ⟨h, h ▸ hp⟩, And.left⟩

/-! ## A document's postings put -/

/-- What the store takes of one term's posting. -/
def PutTakes (digest : TermDigest) (id : EntityId) (row : Term × OrderedMap ℕ ℕ) : Prop :=
  (row.2.size < 256 ∧ row.2.size ≠ 0) ∧
    LmdbTakes (postingKey digest row.1) (spellPostingEntry id row.2)

theorem putPosting_eq_ok {row : Term × OrderedMap ℕ ℕ} {postings' : OrderedSet KvPair} :
    putPosting digest id postings row = .ok postings' ↔ PutTakes digest id row ∧
      postings' = postings.insert (postingKey digest row.1, spellPostingEntry id row.2) := by
  simp only [putPosting, encodePostingEntry, bind_eq_ok, ensure_eq_ok, pure_eq_ok, PutTakes]
  constructor
  · rintro ⟨_, ⟨⟨⟩, hlt, ⟨⟩, hne, rfl⟩, ⟨⟩, htakes, rfl⟩
    exact ⟨⟨⟨hlt, hne⟩, htakes⟩, rfl⟩
  · rintro ⟨⟨⟨hlt, hne⟩, htakes⟩, rfl⟩
    exact ⟨_, ⟨⟨⟩, hlt, ⟨⟩, hne, rfl⟩, ⟨⟩, htakes, rfl⟩

/-- **A document's postings put** are those there were and its own. -/
theorem foldlM_putPosting (digest : TermDigest) (id : EntityId) :
    ∀ (rows : List (Term × OrderedMap ℕ ℕ)) (postings : OrderedSet KvPair),
    (∀ {final}, rows.foldlM (putPosting digest id) postings = .ok final →
      (∀ row ∈ rows, PutTakes digest id row) ∧ ∀ p, p ∈ final ↔ p ∈ postings ∨
        ∃ row ∈ rows, p = (postingKey digest row.1, spellPostingEntry id row.2)) ∧
    ((∀ row ∈ rows, PutTakes digest id row) →
      ∃ final, rows.foldlM (putPosting digest id) postings = .ok final)
  | [], postings => by
    refine ⟨fun {final} h => ?_, fun _ => ⟨postings, rfl⟩⟩
    rw [foldlM_nil, pure_eq_ok] at h
    subst h
    exact ⟨nofun, fun p => by simp⟩
  | row :: rows, postings => by
    constructor
    · intro final h
      obtain ⟨mid, hput, h⟩ := bind_eq_ok.mp h
      obtain ⟨htakes, rfl⟩ := putPosting_eq_ok.mp hput
      obtain ⟨hall, hmem⟩ := (foldlM_putPosting digest id rows _).1 h
      refine ⟨forall_mem_cons.mpr ⟨htakes, hall⟩, fun p => ?_⟩
      rw [hmem, ExtTreeSet.mem_insert, Std.compare_eq_iff_eq, exists_mem_cons_iff, eq_comm]
      tauto
    · intro hall
      rw [forall_mem_cons] at hall
      obtain ⟨final, hfinal⟩ := (foldlM_putPosting digest id rows _).2 hall.2
      exact ⟨final, bind_eq_ok.mpr ⟨_, putPosting_eq_ok.mpr ⟨hall.1, rfl⟩, hfinal⟩⟩

end Postings

end Oneiron
