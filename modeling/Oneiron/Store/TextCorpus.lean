import Oneiron.Foundations.Rows
import Oneiron.Store.TextIndex

/-!
# Store/TextCorpus — the documents an index is of

What is indexed is a corpus, a map from ids to analysed documents that have terms.  `Indexes` says
what rows a corpus has, as a function of it alone, so two indexes of one corpus have the same rows
(`Indexes.sameRows`).  Postings may be lost; every other row is exact.
-/

open Std

namespace Oneiron

open Std.ExtTreeMap Option OrderedMap

/-! ## Sound analyses -/

/-- What an analyzer keeps to on some fields. -/
def Emits {digest : TermDigest} (vocabulary : Vocabulary digest) (analyzer : Bytes → List Token)
    (fields : TextFields) : Prop :=
  ∀ field ∈ fields, ∀ tok ∈ analyzer field.2, tok.term ∈ vocabulary.terms ∧
    (tok.lengthIncrement = 0 → tok.channel.permitsZeroDocFieldLength)

/-- A length a field may have. -/
def FieldLength (fid len : ℕ) : Prop :=
  len < 256 ^ 4 ∧ ∃ channel : AnalyzerChannel, channel.fieldId = fid ∧
    (len = 0 → channel.permitsZeroDocFieldLength)

/-- **What an analysis is like**: frequencies and lengths agree on the fields, and all fit. -/
structure Analysis.Sound (analysis : Analysis) (terms : Set Term) : Prop where
  row : ∀ (t : Term) (fields : OrderedMap ℕ ℕ), analysis.perTerm[t]? = some fields →
    ∃ fid tf : ℕ, fields[fid]? = some tf
  frequency : ∀ t fid tf, entry analysis.perTerm t fid = some tf →
    t ∈ terms ∧ 0 < tf ∧ tf < 256 ^ 4
  field : ∀ fid, fid ∈ analysis.perFieldLen ↔
    ∃ t, (entry analysis.perTerm t fid).isSome
  length : ∀ fid len, analysis.perFieldLen[fid]? = some len → FieldLength fid len

/-- The same of what is tallied so far. -/
structure TokenTally.Sound (tally : TokenTally) (terms : Set Term) : Prop where
  frequency : ∀ fid t tf, entry tally.perField fid t = some tf →
    t ∈ terms ∧ 0 < tf ∧ tf < 256 ^ 4
  field : ∀ fid, fid ∈ tally.perFieldLen ↔
    ∃ t, (entry tally.perField fid t).isSome
  length : ∀ fid len, tally.perFieldLen[fid]? = some len → FieldLength fid len

theorem TokenTally.Sound.add {tally tally' : TokenTally} {terms : Set Term} {tok : Token}
    (h : tally.Sound terms) (hterm : tok.term ∈ terms)
    (hzero : tok.lengthIncrement = 0 → tok.channel.permitsZeroDocFieldLength)
    (hadd : tally.add tok = .ok tally') : tally'.Sound terms := by
  simp only [TokenTally.add, bind_eq_ok, pure_eq_ok, ensure_eq_ok] at hadd
  obtain ⟨-, htf, -, hslot, -, -, rfl⟩ := hadd
  have hentry (fid : ℕ) (t : Term) : entry (tally.perField.insert tok.channel.fieldId
      ((tally.perField[tok.channel.fieldId]?.getD ∅).insert tok.term
        ((tally.perField[tok.channel.fieldId]?.getD ∅)[tok.term]?.getD 0 + 1))) fid t =
      if tok.channel.fieldId = fid ∧ tok.term = t then
        some ((tally.perField[tok.channel.fieldId]?.getD ∅)[tok.term]?.getD 0 + 1)
      else entry tally.perField fid t :=
    entry_file tally.perField tok.channel.fieldId fid tok.term t _
  constructor
  · intro fid t tf htfs
    rw [hentry] at htfs
    split at htfs
    · next heq =>
      obtain rfl := some.inj htfs
      exact ⟨heq.2 ▸ hterm, Nat.succ_pos _, htf⟩
    · exact h.frequency fid t tf htfs
  · intro fid
    simp only [mem_insert, Std.compare_eq_iff_eq, hentry]
    by_cases hfid : tok.channel.fieldId = fid
    · exact iff_of_true (Or.inl hfid) ⟨tok.term, by simp [hfid]⟩
    · simp only [hfid, false_or, false_and, if_false]
      exact h.field fid
  · intro fid len hlen
    simp only [getElem?_insert, Std.compare_eq_iff_eq] at hlen
    split at hlen
    · next hfid =>
      obtain rfl := some.inj hlen
      exact ⟨hslot, tok.channel, hfid, fun h => hzero (UInt8.toNat_inj.mp (by simpa using
        (Nat.add_eq_zero_iff.mp h).2))⟩
    · exact h.length fid len hlen

/-- **An analysis of what keeps to the vocabulary is sound.** -/
theorem analyze_sound {digest : TermDigest} {vocabulary : Vocabulary digest}
    {analyzer : Bytes → List Token} {fields : TextFields} {analysis : Analysis}
    (hemits : Emits vocabulary analyzer fields) (h : analyze analyzer fields = .ok analysis) :
    analysis.Sound vocabulary.terms := by
  simp only [analyze, bind_eq_ok, pure_eq_ok] at h
  obtain ⟨-, -, tally, htally, rfl⟩ := h
  have hstart : TokenTally.Sound ⟨∅, ∅, 0⟩ vocabulary.terms :=
    ⟨fun fid t tf h => by simp [entry] at h,
      fun fid => by simp [entry], fun fid len h => by simp at h⟩
  have hsound : tally.Sound vocabulary.terms := by
    have hall : ∀ tok ∈ fields.flatMap fun field => analyzer field.2,
        tok.term ∈ vocabulary.terms ∧
          (tok.lengthIncrement = 0 → tok.channel.permitsZeroDocFieldLength) := by
      intro tok htok
      obtain ⟨field, hfield, htok⟩ := List.mem_flatMap.mp htok
      exact hemits field hfield tok htok
    generalize (fields.flatMap fun field => analyzer field.2) = tokens at htally hall
    generalize (⟨∅, ∅, 0⟩ : TokenTally) = start at htally hstart
    induction tokens generalizing start with
    | nil =>
      rw [List.foldlM_nil, pure_eq_ok] at htally
      exact htally ▸ hstart
    | cons tok tokens ih =>
      rw [List.forall_mem_cons] at hall
      obtain ⟨next, hadd, htally⟩ := bind_eq_ok.mp htally
      exact ih hall.2 next htally (hstart.add hall.1.1 hall.1.2 hadd)
  constructor
  · exact fun t fields h => exists_entry_of_turned h
  · intro t fid tf htf
    rw [entry_turned] at htf
    exact hsound.frequency fid t tf htf
  · intro fid
    simp only [entry_turned]
    exact hsound.field fid
  · exact hsound.length

/-! ## Corpora -/

/-- A document as it was indexed: what was given, and what the analyzer made of it. -/
structure IndexedText {digest : TermDigest} (vocabulary : Vocabulary digest) where
  source : TextFields
  analyzer : Bytes → List Token
  analysis : Analysis
  emits : Emits vocabulary analyzer source
  reads : analyze analyzer source = .ok analysis

/-- The documents that have terms. -/
abbrev Corpus {digest : TermDigest} (vocabulary : Vocabulary digest) :=
  OrderedMap EntityId (IndexedText vocabulary)

variable {digest : TermDigest} {vocabulary : Vocabulary digest}

namespace IndexedText

variable (text : IndexedText vocabulary)

theorem sound : text.analysis.Sound vocabulary.terms := analyze_sound text.emits text.reads

def forwardRow : Bytes := (forwardRecords text.analysis.perTerm).flatMap spellForwardRecord

def lengthsRow : Bytes := encodeFieldLengths text.analysis.perFieldLen

def metaRow : Bytes := spellDocMeta text.analysis.docLenTotal text.analysis.perFieldLen.size

/-- Whether a document counts in a field. -/
def counted (fid : ℕ) : ℕ := if fid ∈ text.analysis.perFieldLen then 1 else 0

/-- How long a document is in a field. -/
def lengthIn (fid : ℕ) : ℕ := text.analysis.perFieldLen[fid]?.getD 0

/-- A posting of the document, under its id. -/
def Posts (id : EntityId) (p : KvPair) : Prop :=
  ∃ (t : Term) (fields : OrderedMap ℕ ℕ), text.analysis.perTerm[t]? = some fields ∧
    p = (postingKey digest t, spellPostingEntry id fields)

/-- **What the store takes of a document**: an id of its own, terms, and rows that fit. -/
structure Filed (id : EntityId) : Prop where
  valid : EntityId.isReserved id.asBytes = false
  terms : text.analysis.perTerm.isEmpty = false
  posting : ∀ (t : Term) (fields : OrderedMap ℕ ℕ), text.analysis.perTerm[t]? = some fields →
    fields.size < 256 ∧ LmdbTakes (postingKey digest t) (spellPostingEntry id fields) ∧
      t.asBytes.length < 256 ^ 8
  fields : text.analysis.perFieldLen.size < 256 ^ 4

end IndexedText

namespace Corpus

variable (corpus : Corpus vocabulary)

def docCount (fid : ℕ) : ℕ := weigh (fun _ text => text.counted fid) corpus

def totalLength (fid : ℕ) : ℕ := weigh (fun _ text => text.lengthIn fid) corpus

def totalDocs : ℕ := weigh (fun _ _ => 1) corpus

/-- A posting of some document. -/
def Posts (p : KvPair) : Prop :=
  ∃ (id : EntityId) (text : IndexedText vocabulary), corpus[id]? = some text ∧ text.Posts id p

/-- The statistics row of a field, none where no document counts. -/
def statsRow (fid : ℕ) : Option Bytes :=
  if corpus.docCount fid = 0 then none
  else some (spellFieldStats (corpus.docCount fid) (corpus.totalLength fid))

end Corpus

/-- **An index of a corpus**: its postings, but for those lost, and every other row exactly. -/
structure Indexes (corpus : Corpus vocabulary) (lost : Set KvPair) (idx : TextIndex) : Prop where
  postings : ∀ p, p ∈ idx.textPostings ↔ corpus.Posts p ∧ p ∉ lost
  forward : ∀ id : EntityId, idx.textForward[id]? = corpus[id]?.map IndexedText.forwardRow
  fieldLengths : ∀ id : EntityId,
    idx.textDocFieldLengths[id]? = corpus[id]?.map IndexedText.lengthsRow
  docMeta : ∀ id : EntityId, id ≠ totalDocsKey →
    idx.textMeta[id]? = corpus[id]?.map IndexedText.metaRow
  fieldStats : ∀ fid, idx.textBm25FieldStats[fid]? = corpus.statsRow fid
  totalDocs : readTotalDocs idx.textMeta = .ok corpus.totalDocs
  fits : ∀ fid, corpus.docCount fid < 256 ^ 4 ∧ corpus.totalLength fid < 256 ^ 8
  filed : ∀ (id : EntityId) (text : IndexedText vocabulary), corpus[id]? = some text → text.Filed id

namespace IndexedText

variable {text : IndexedText vocabulary} {id : EntityId}

theorem Filed.ne_totalDocsKey (h : text.Filed id) : id ≠ totalDocsKey := by
  rintro rfl
  have hreserved : EntityId.isReserved totalDocsKey.asBytes = true := rfl
  rw [h.valid] at hreserved
  cases hreserved

variable {t : Term} {fields : OrderedMap ℕ ℕ}

section

variable (ht : text.analysis.perTerm[t]? = some fields)

include ht

/-- Every field of a term is a field of the document. -/
theorem field_of_posting {fid tf : ℕ} (hfid : fields[fid]? = some tf) :
    t ∈ vocabulary.terms ∧ (0 < tf ∧ tf < 256 ^ 4) ∧ fid ∈ text.analysis.perFieldLen ∧
      fid < 256 ^ 2 := by
  have hentry : entry text.analysis.perTerm t fid = some tf := by
    rw [entry, ht, bind_some, hfid]
  have hmem : fid ∈ text.analysis.perFieldLen :=
    (text.sound.field fid).mpr ⟨t, by rw [hentry]; rfl⟩
  obtain ⟨len, hlen⟩ := isSome_iff_exists.mp (mem_iff_isSome_getElem?.mp hmem)
  obtain ⟨-, channel, rfl, -⟩ := text.sound.length fid len hlen
  obtain ⟨hterm, htf⟩ := text.sound.frequency t _ tf hentry
  exact ⟨hterm, htf, hmem, channel.fieldId_lt⟩

/-- Every term is of the vocabulary. -/
theorem term_mem : t ∈ vocabulary.terms := by
  obtain ⟨fid, tf, hfid⟩ := text.sound.row t fields ht
  exact (field_of_posting ht hfid).1

theorem size_ne_zero_of_row : fields.size ≠ 0 := by
  obtain ⟨fid, tf, hfid⟩ := text.sound.row t fields ht
  intro hzero
  have hempty := eq_empty_iff_size_eq_zero.mpr hzero
  rw [hempty] at hfid
  simp at hfid

end

theorem Filed.exists_row (h : text.Filed id) :
    ∃ (t : Term) (fields : OrderedMap ℕ ℕ), text.analysis.perTerm[t]? = some fields := by
  have hne := mt eq_empty_iff_forall_not_mem.mpr
    (isEmpty_eq_false_iff.mp h.terms)
  push Not at hne
  obtain ⟨t, ht⟩ := hne
  exact ⟨t, isSome_iff_exists.mp (mem_iff_isSome_getElem?.mp ht)⟩

/-- A document's forward row reads back as its records. -/
theorem Filed.decodeForward (h : text.Filed id) :
    decodeForward text.forwardRow = .ok (forwardRecords text.analysis.perTerm) := by
  refine decodeForward_spell (fun hnil => ?_) fun record hrecord => ?_
  · obtain ⟨t, fields, ht⟩ := h.exists_row
    obtain ⟨fid, tf, hfid⟩ := text.sound.row t fields ht
    have hmem : (t, fid) ∈ forwardRecords text.analysis.perTerm := mem_forwardRecords.mpr
      ⟨fields, ht, mem_iff_isSome_getElem?.mpr (by simp [hfid])⟩
    rw [hnil] at hmem
    cases hmem
  · obtain ⟨fields, ht, hfid⟩ := mem_forwardRecords.mp hrecord
    obtain ⟨-, htakes, hlen⟩ := h.posting record.1 fields ht
    obtain ⟨tf, htf⟩ := isSome_iff_exists.mp (mem_iff_isSome_getElem?.mp hfid)
    refine ⟨fun hempty => ?_, hlen, (field_of_posting ht htf).2.2.2⟩
    have hkey : postingKey digest record.1 = [] := by simp [postingKey, hempty]
    rw [hkey] at htakes
    exact absurd htakes.1.1 (by simp)

/-- …and its lengths row as its lengths. -/
theorem Filed.decodeFieldLengths (h : text.Filed id) :
    decodeFieldLengths text.lengthsRow = .ok text.analysis.perFieldLen := by
  refine decodeFieldLengths_encode (fun hzero => ?_) fun fid len hlen => ?_
  · obtain ⟨t, fields, ht⟩ := h.exists_row
    obtain ⟨fid, tf, hfid⟩ := text.sound.row t fields ht
    have hmem := (field_of_posting ht hfid).2.2.1
    rw [eq_empty_iff_size_eq_zero.mpr hzero] at hmem
    exact not_mem_empty hmem
  · obtain ⟨hlt, channel, rfl, -⟩ := text.sound.length fid len hlen
    exact ⟨channel.fieldId_lt, hlt⟩

/-- …and each posting as the term's frequencies. -/
theorem Filed.decodePostingEntry (h : text.Filed id) (ht : text.analysis.perTerm[t]? = some fields)
    :
    decodePostingEntry (spellPostingEntry id fields) = .ok ⟨id, fields.toList⟩ :=
  decodePostingEntry_spell h.valid (h.posting t fields ht).1
    (fun _ _ hfid => ⟨(field_of_posting ht hfid).2.2.2, (field_of_posting ht hfid).2.1⟩)
    (size_ne_zero_of_row ht)

/-- Its own forward row and lengths pass the check between them. -/
theorem checkFields_eq (text : IndexedText vocabulary) :
    checkFields (forwardRecords text.analysis.perTerm) text.analysis.perFieldLen = .ok ⟨⟩ := by
  have hforward (fid : ℕ) : fid ∈ (forwardRecords text.analysis.perTerm).map (·.2) ↔
      fid ∈ text.analysis.perFieldLen := by
    rw [text.sound.field, List.mem_map]
    constructor
    · rintro ⟨record, hrecord, rfl⟩
      obtain ⟨fields, ht, hfid⟩ := mem_forwardRecords.mp hrecord
      refine ⟨record.1, ?_⟩
      rw [entry, ht]
      exact mem_iff_isSome_getElem?.mp hfid
    · rintro ⟨t, hentry⟩
      unfold entry at hentry
      cases ht : text.analysis.perTerm[t]? with
      | none => simp [ht] at hentry
      | some fields =>
        rw [ht] at hentry
        exact ⟨(t, fid), mem_forwardRecords.mpr
          ⟨fields, ht, mem_iff_isSome_getElem?.mpr hentry⟩, rfl⟩
  have hset (fid : ℕ) : fid ∈ (ExtTreeSet.ofList ((forwardRecords text.analysis.perTerm).map (·.2))
      compare : OrderedSet ℕ) ↔ fid ∈ text.analysis.perFieldLen := by
    rw [← hforward, ExtTreeSet.mem_ofList, List.contains_iff_mem]
  simp only [checkFields, bind_eq_ok, forM_eq_ok]
  refine ⟨⟨⟩, fun fid hfid => ?_, fun fid hfid => ?_⟩
  · rw [ExtTreeSet.mem_toList, hset] at hfid
    obtain ⟨len, hlen⟩ := isSome_iff_exists.mp (mem_iff_isSome_getElem?.mp hfid)
    obtain ⟨-, channel, rfl, hzero⟩ := text.sound.length fid len hlen
    refine ⟨len, okOr_eq_ok.mpr hlen, ensure_eq_ok.mpr ?_⟩
    rw [AnalyzerChannel.fromFieldId_fieldId]
    rintro _ ⟨⟩ hpermits rfl
    rw [hzero rfl] at hpermits
    cases hpermits
  · exact ensure_eq_ok.mpr ((hset fid).mpr (mem_keys.mp hfid))

end IndexedText

end Oneiron
