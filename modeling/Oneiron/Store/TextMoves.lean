import Oneiron.Store.TextCounts

/-!
# Store/TextMoves — a document put into a corpus's index, and taken out

Taking out succeeds whatever postings are lost (`Indexes.removeRows`); putting in succeeds while the
rows and the counts fit (`Indexes.exists_putRows`).
-/

open Std

namespace Oneiron

open Corpus IndexedText ExtTreeSet

open Std.ExtTreeMap Option

variable {digest : TermDigest} {vocabulary : Vocabulary digest} {corpus : Corpus vocabulary}
  {idx idx' : TextIndex} {lost : Set KvPair} {id : EntityId} {text : IndexedText vocabulary}

theorem take_spellPostingEntry (id : EntityId) (fields : OrderedMap ℕ ℕ) :
    (spellPostingEntry id fields).take entityIdLen = id.asBytes :=
  List.take_left' id.length_asBytes

theorem length_spellPostingEntry (id : EntityId) (fields : OrderedMap ℕ ℕ) :
    entityIdLen + 1 ≤ (spellPostingEntry id fields).length := by
  rw [spellPostingEntry, List.length_append, id.length_asBytes, List.length_cons, entityIdLen]
  omega

variable {fields : OrderedMap ℕ ℕ}

/-- An entry names the id it is of. -/
theorem id_of_spellPostingEntry {id id' : EntityId} {fields' : OrderedMap ℕ ℕ}
    (h : spellPostingEntry id fields = spellPostingEntry id' fields') : id = id' := by
  have := congrArg (List.take entityIdLen) h
  rw [take_spellPostingEntry, take_spellPostingEntry] at this
  exact EntityId.ext this

namespace Indexes

/-- **A document's term is looked up** and its own entry found, unless that is lost. -/
theorem findPostingDup (h : Indexes corpus lost idx) (hin : corpus[id]? = some text) {t : Term}
    (ht : text.analysis.perTerm[t]? = some fields) :
    ∃ lookup, findPostingDup digest idx.textPostings t id = .ok lookup ∧
      ∀ found, lookup = .found found ↔ found = spellPostingEntry id fields ∧
        (postingKey digest t, spellPostingEntry id fields) ∈ idx.textPostings := by
  have hposted {dup : Bytes} (hdup : (postingKey digest t, dup) ∈ idx.textPostings) :
      ∃ (id' : EntityId) (text' : IndexedText vocabulary) (fields' : OrderedMap ℕ ℕ),
        corpus[id']? = some text' ∧ text'.analysis.perTerm[t]? = some fields' ∧
          dup = spellPostingEntry id' fields' := by
    obtain ⟨⟨id', text', hin', u, fields', hu, heq⟩, -⟩ := (h.postings _).mp hdup
    obtain ⟨hkey, rfl⟩ := Prod.mk.inj heq
    -- the key names one term
    obtain rfl := vocabulary.postingKey_injOn (term_mem ht) (term_mem hu) hkey
    exact ⟨id', text', fields', hin', hu, rfl⟩
  refine findPostingDup_eq (take_spellPostingEntry id fields) (fun dup hdup => ?_)
    fun dup hdup hid => ?_
  · obtain ⟨id', -, fields', -, -, rfl⟩ := hposted hdup
    exact length_spellPostingEntry id' fields'
  · obtain ⟨id', text', fields', hin', hu, rfl⟩ := hposted hdup
    rw [take_spellPostingEntry] at hid
    obtain rfl := EntityId.ext hid
    obtain rfl := some.inj (hin.symm.trans hin')
    rw [some.inj (ht.symm.trans hu)]

/-- The postings of the corpus without a document. -/
theorem posts_erase (hin : corpus[id]? = some text) {p : KvPair} :
    Corpus.Posts (corpus.erase id) p ↔ corpus.Posts p ∧ ¬ text.Posts id p := by
  simp only [Corpus.Posts, getElem?_erase, Std.compare_eq_iff_eq]
  constructor
  · rintro ⟨id', text', hin', hposts⟩
    split at hin'
    · cases hin'
    · next hne =>
      refine ⟨⟨id', text', hin', hposts⟩, ?_⟩
      rintro ⟨t, fields, -, rfl⟩
      obtain ⟨u, fields', -, heq⟩ := hposts
      exact hne (id_of_spellPostingEntry (Prod.mk.inj heq).2)
  · rintro ⟨⟨id', text', hin', hposts⟩, hnot⟩
    have hne : id ≠ id' := by
      rintro rfl
      rw [some.inj (hin.symm.trans hin')] at hnot
      exact hnot hposts
    exact ⟨id', text', by rw [if_neg hne, hin'], hposts⟩

/-- …and with another. -/
theorem posts_insert (hnew : corpus[id]? = none) {p : KvPair} :
    Corpus.Posts (corpus.insert id text) p ↔ corpus.Posts p ∨ text.Posts id p := by
  simp only [Corpus.Posts, getElem?_insert, Std.compare_eq_iff_eq]
  constructor
  · rintro ⟨id', text', hin', hposts⟩
    split at hin'
    · next heq =>
      obtain rfl := some.inj hin'
      exact Or.inr (heq ▸ hposts)
    · exact Or.inl ⟨id', text', hin', hposts⟩
  · rintro (⟨id', text', hin', hposts⟩ | hposts)
    · have hne : id ≠ id' := by
        rintro rfl
        rw [hnew] at hin'
        cases hin'
      exact ⟨id', text', by rw [if_neg hne, hin'], hposts⟩
    · exact ⟨id, text, if_pos rfl, hposts⟩

/-- The terms of a forward row are the document's. -/
theorem mem_terms (text : IndexedText vocabulary) {t : Term} : t ∈ (ofList
    ((forwardRecords text.analysis.perTerm).map (·.1)) compare : OrderedSet Term).toList ↔
    ∃ fields, text.analysis.perTerm[t]? = some fields := by
  rw [ExtTreeSet.mem_toList, ExtTreeSet.mem_ofList, List.contains_iff_mem, List.mem_map]
  constructor
  · rintro ⟨record, hrecord, rfl⟩
    obtain ⟨fields, ht, -⟩ := mem_forwardRecords.mp hrecord
    exact ⟨fields, ht⟩
  · rintro ⟨fields, ht⟩
    obtain ⟨fid, tf, hfid⟩ := text.sound.row t fields ht
    have hmem : fid ∈ fields := mem_iff_isSome_getElem?.mpr (by rw [hfid]; rfl)
    exact ⟨(t, fid), mem_forwardRecords.mpr ⟨fields, ht, hmem⟩, rfl⟩

/-- **The postings a deindex deletes** are the document's that are still there. -/
theorem lookupPostings (h : Indexes corpus lost idx) (hin : corpus[id]? = some text) :
    ∃ lookups, lookupPostings digest idx id (ofList
      ((forwardRecords text.analysis.perTerm).map (·.1)) compare : OrderedSet Term).toList =
        .ok lookups ∧ (postingsToDelete digest lookups).Nodup ∧
      ∀ p, p ∈ postingsToDelete digest lookups ↔ text.Posts id p ∧ p ∈ idx.textPostings := by
  have hrow {t : Term} {fields : OrderedMap ℕ ℕ} (ht : text.analysis.perTerm[t]? = some fields) :
      text.analysis.perTerm[t]?.getD ∅ = fields := by
    rw [ht]
    rfl
  have hsorted : Sorted compare (ofList
      ((forwardRecords text.analysis.perTerm).map (·.1)) compare : OrderedSet Term).toList :=
    ordered_toList
  obtain ⟨lookups, hlookups, hnodup, hfound⟩ := lookupPostings_eq digest idx id
    (fun t => spellPostingEntry id (text.analysis.perTerm[t]?.getD ∅)) hsorted.nodup
    (by
      intro t ht u hu heq
      obtain ⟨_, ht⟩ := (mem_terms text).mp ht
      obtain ⟨_, hu⟩ := (mem_terms text).mp hu
      exact vocabulary.postingKey_injOn (term_mem ht) (term_mem hu) heq)
    (by
      intro t ht
      obtain ⟨fields, ht⟩ := (mem_terms text).mp ht
      rw [hrow ht]
      exact h.findPostingDup hin ht)
  refine ⟨lookups, hlookups, hnodup, fun p => ?_⟩
  rw [hfound]
  constructor
  · rintro ⟨t, ht, rfl, hp⟩
    obtain ⟨fields, ht⟩ := (mem_terms text).mp ht
    exact ⟨⟨t, fields, ht, by rw [hrow ht]⟩, hp⟩
  · rintro ⟨⟨t, fields, ht, rfl⟩, hp⟩
    exact ⟨t, (mem_terms text).mpr ⟨fields, ht⟩, by rw [hrow ht], hp⟩

variable {postings : OrderedSet KvPair} {stats : OrderedMap ℕ Bytes}

/-- What is left once a document's rows are gone is the index of the others. -/
theorem removed (h : Indexes corpus lost idx) (hin : corpus[id]? = some text)
    (hpostings : ∀ p, p ∈ postings ↔ p ∈ idx.textPostings ∧ ¬ text.Posts id p)
    (hstats : ∀ fid, stats[fid]? = Corpus.statsRow (corpus.erase id) fid) :
    Indexes (corpus.erase id) lost
      { idx with
        textPostings := postings
        textBm25FieldStats := stats
        textMeta := (writeTotalDocs idx.textMeta (corpus.totalDocs - 1)).erase id
        textForward := idx.textForward.erase id
        textDocFieldLengths := idx.textDocFieldLengths.erase id } := by
  have hne := (h.filed id text hin).ne_totalDocsKey
  have htotal := totalDocs_erase hin
  have hlt := h.totalDocs_lt
  have hrest {β : Type} {rows : OrderedMap EntityId β} {f : IndexedText vocabulary → β}
      (hrows : ∀ id' : EntityId, rows[id']? = corpus[id']?.map f) (id' : EntityId) :
      (rows.erase id)[id']? = (corpus.erase id)[id']?.map f := by
    rw [getElem?_erase, getElem?_erase, hrows]
    split <;> rfl
  constructor
  · intro p
    rw [hpostings, h.postings, posts_erase hin]
    tauto
  · exact hrest h.forward
  · exact hrest h.fieldLengths
  · intro id' hid'
    simp only [writeTotalDocs, getElem?_erase, getElem?_insert,
      Std.compare_eq_iff_eq, if_neg hid'.symm, h.docMeta id' hid']
    split <;> rfl
  · exact hstats
  · simp only [readTotalDocs, writeTotalDocs, getElem?_erase, Std.compare_eq_iff_eq,
      if_neg hne, getElem?_insert_self, elim_some]
    rw [decodeTotalDocs_spell (by omega), ← htotal, Nat.add_sub_cancel]
  · intro fid
    obtain ⟨hdocs, hlength⟩ := counts_erase hin fid
    have := h.fits fid
    omega
  · intro id' text' hin'
    rw [getElem?_erase] at hin'
    split at hin'
    · cases hin'
    · exact h.filed id' text' hin'

/-- **A document of the corpus is taken out**, whatever postings are lost. -/
theorem removeRows (h : Indexes corpus lost idx) (hin : corpus[id]? = some text) :
    ∃ idx', removeRows digest idx id text.forwardRow = .ok idx' ∧
      Indexes (corpus.erase id) lost idx' ∧ idx'.sourceText = idx.sourceText := by
  have hfiled := h.filed id text hin
  have hmeta : id ∈ idx.textMeta := mem_iff_isSome_getElem?.mpr (by
    rw [h.docMeta id hfiled.ne_totalDocsKey, hin]
    rfl)
  have hlengths : idx.textDocFieldLengths[id]? = some text.lengthsRow := by
    rw [h.fieldLengths, hin]
    rfl
  obtain ⟨lookups, hlookups, hnodup, hdelete⟩ := h.lookupPostings hin
  have hproved : proveIfMissing digest idx id text.analysis.perFieldLen lookups = .ok ⟨⟩ := by
    unfold proveIfMissing
    split
    · exact h.proveCounted_eq hin
    · rfl
  obtain ⟨postings, hpostings, hleft⟩ := OrderedSet.foldlM_take
    (e := corrupted "posting entry vanished mid-transaction during deindex") hnodup
    fun p hp => ((hdelete p).mp hp).2
  obtain ⟨stats, hstats, hstatsRow⟩ := h.uncountFields hin
  have hothers (p : KvPair) : p ∈ postings ↔ p ∈ idx.textPostings ∧ ¬ text.Posts id p := by
    rw [hleft, hdelete]
    tauto
  have htotal := totalDocs_erase hin
  refine ⟨_, ?_, h.removed hin hothers hstatsRow, rfl⟩
  simp only [Oneiron.removeRows, bind_eq_ok, ensure_eq_ok, okOr_eq_ok, pure_eq_ok]
  exact ⟨_, hfiled.decodeForward, ⟨⟩, hmeta, _, hlengths, _, hfiled.decodeFieldLengths, ⟨⟩,
    text.checkFields_eq, lookups, hlookups, ⟨⟩, hproved, postings, hpostings, stats, hstats, _,
    h.totalDocs, ⟨⟩, by omega, rfl⟩

/-- What is there once a document's rows are put is the index with it. -/
theorem inserted (h : Indexes corpus ∅ idx) (hnew : corpus[id]? = none) (hfiled : text.Filed id)
    (hpostings : ∀ p, p ∈ postings ↔ p ∈ idx.textPostings ∨ text.Posts id p)
    (hstats : ∀ fid, stats[fid]? = Corpus.statsRow (corpus.insert id text) fid ∧
      Corpus.docCount (corpus.insert id text) fid < 256 ^ 4 ∧
      Corpus.totalLength (corpus.insert id text) fid < 256 ^ 8)
    (htotal : corpus.totalDocs + 1 < 256 ^ 4) : Indexes (corpus.insert id text) ∅
      { idx with
        textPostings := postings
        textForward := idx.textForward.insert id text.forwardRow
        textDocFieldLengths := idx.textDocFieldLengths.insert id text.lengthsRow
        textMeta := writeTotalDocs (idx.textMeta.insert id text.metaRow) (corpus.totalDocs + 1)
        textBm25FieldStats := stats } := by
  have hmore {β : Type} {rows : OrderedMap EntityId β} {f : IndexedText vocabulary → β}
      (hrows : ∀ id' : EntityId, rows[id']? = corpus[id']?.map f) (id' : EntityId) :
      (rows.insert id (f text))[id']? = (corpus.insert id text)[id']?.map f := by
    rw [getElem?_insert, getElem?_insert, hrows]
    split <;> rfl
  constructor
  · intro p
    rw [hpostings, h.postings, posts_insert hnew]
    simp
  · exact hmore h.forward
  · exact hmore h.fieldLengths
  · intro id' hid'
    simp only [writeTotalDocs, getElem?_insert, Std.compare_eq_iff_eq, if_neg hid'.symm,
      h.docMeta id' hid']
    split <;> rfl
  · exact fun fid => (hstats fid).1
  · simp only [readTotalDocs, writeTotalDocs, getElem?_insert_self, elim_some]
    rw [decodeTotalDocs_spell htotal, Corpus.totalDocs_insert hnew text]
  · exact fun fid => (hstats fid).2
  · intro id' text' hin'
    rw [getElem?_insert] at hin'
    split at hin'
    · next heq =>
      rw [← Std.compare_eq_iff_eq.mp heq, ← some.inj hin']
      exact hfiled
    · exact h.filed id' text' hin'

/-- The total is read past a document's own metadata. -/
theorem readTotalDocs_insert (h : Indexes corpus lost idx) (hvalid : id ≠ totalDocsKey) (row : Bytes) :
    readTotalDocs (idx.textMeta.insert id row) = .ok corpus.totalDocs := by
  rw [← h.totalDocs, readTotalDocs, readTotalDocs, getElem?_insert, if_neg]
  exact fun heq => hvalid (Std.compare_eq_iff_eq.mp heq)

theorem ne_totalDocsKey (hvalid : EntityId.isReserved id.asBytes = false) : id ≠ totalDocsKey := by
  rintro rfl
  have hreserved : EntityId.isReserved totalDocsKey.asBytes = true := rfl
  rw [hvalid] at hreserved
  cases hreserved

/-- **A document put in** makes the index of the corpus with it. -/
theorem putRows (h : Indexes corpus ∅ idx) (text : IndexedText vocabulary) (hnew : corpus[id]? = none)
    (hvalid : EntityId.isReserved id.asBytes = false)
    (hterms : text.analysis.perTerm.isEmpty = false)
    (hput : putRows digest idx id text.analysis = .ok idx') :
    Indexes (corpus.insert id text) ∅ idx' ∧ idx'.sourceText = idx.sourceText := by
  simp only [Oneiron.putRows, encodeForward, bind_eq_ok, ensure_eq_ok, forM_eq_ok, pure_eq_ok,
    h.readTotalDocs_insert (ne_totalDocsKey hvalid), Except.ok.injEq] at hput
  obtain ⟨postings, hpostings, _, ⟨-, hlens, rfl⟩, -, hfields, stats, hstats, _, rfl, -, htotal,
    rfl⟩ := hput
  obtain ⟨htakes, hmem⟩ := (foldlM_putPosting digest id _ _).1 hpostings
  have hfiled : text.Filed id := by
    refine ⟨hvalid, hterms, fun t fields ht => ?_, hfields⟩
    obtain ⟨⟨hsize, -⟩, hlmdb⟩ := htakes (t, fields)
      (mem_toList_iff_getElem?_eq_some.mpr ht)
    have hkey : t ∈ text.analysis.perTerm.keys :=
      mem_keys.mpr (mem_iff_isSome_getElem?.mpr (by rw [ht]; rfl))
    exact ⟨hsize, hlmdb, hlens t hkey⟩
  refine ⟨h.inserted hnew hfiled (fun p => ?_) (h.countFields hnew hstats) htotal, rfl⟩
  simp only [hmem, IndexedText.Posts, Prod.exists, mem_toList_iff_getElem?_eq_some]

/-- …and it is put in, while its rows and the counts fit. -/
theorem exists_putRows (h : Indexes corpus ∅ idx) (hnew : corpus[id]? = none)
    (hfiled : text.Filed id)
    (hfits : ∀ fid, Corpus.docCount (corpus.insert id text) fid < 256 ^ 4 ∧
      Corpus.totalLength (corpus.insert id text) fid < 256 ^ 8)
    (htotal : corpus.totalDocs + 1 < 256 ^ 4) :
    ∃ idx', Oneiron.putRows digest idx id text.analysis = .ok idx' := by
  obtain ⟨postings, hpostings⟩ := (foldlM_putPosting digest id
    text.analysis.perTerm.toList idx.textPostings).2 fun row hrow => by
      rw [mem_toList_iff_getElem?_eq_some] at hrow
      obtain ⟨hsize, hlmdb, -⟩ := hfiled.posting row.1 row.2 hrow
      exact ⟨⟨hsize, size_ne_zero_of_row hrow⟩, hlmdb⟩
  obtain ⟨stats, hstats⟩ := h.exists_countFields hnew hfits
  have hlens : ∀ term ∈ text.analysis.perTerm.keys, term.asBytes.length < 256 ^ 8 := by
    intro term hterm
    obtain ⟨fields, hrow⟩ := isSome_iff_exists.mp
      (mem_iff_isSome_getElem?.mp (mem_keys.mp hterm))
    exact (hfiled.posting term fields hrow).2.2
  refine ⟨{ idx with
    textPostings := postings
    textForward := idx.textForward.insert id text.forwardRow
    textDocFieldLengths := idx.textDocFieldLengths.insert id text.lengthsRow
    textMeta := writeTotalDocs (idx.textMeta.insert id text.metaRow) (corpus.totalDocs + 1)
    textBm25FieldStats := stats }, ?_⟩
  simp only [Oneiron.putRows, encodeForward, bind_eq_ok, ensure_eq_ok, forM_eq_ok, pure_eq_ok,
    h.readTotalDocs_insert hfiled.ne_totalDocsKey, Except.ok.injEq]
  exact ⟨postings, hpostings, _, ⟨⟨⟩, hlens, rfl⟩, ⟨⟩, hfiled.fields, stats, hstats, _, rfl, ⟨⟩, htotal,
    rfl⟩

end Indexes

/-- **The same rows** throughout, and the same total. -/
structure SameRows (a b : TextIndex) : Prop where
  sourceText : a.sourceText = b.sourceText
  postings : a.textPostings = b.textPostings
  forward : a.textForward = b.textForward
  fieldLengths : a.textDocFieldLengths = b.textDocFieldLengths
  docMeta : a.textMeta.erase totalDocsKey = b.textMeta.erase totalDocsKey
  fieldStats : a.textBm25FieldStats = b.textBm25FieldStats
  totalDocs : readTotalDocs a.textMeta = readTotalDocs b.textMeta

/-- **Indexes of one corpus have the same rows.** -/
theorem Indexes.sameRows (h : Indexes corpus lost idx) (h' : Indexes corpus lost idx')
    (hsource : idx.sourceText = idx'.sourceText) : SameRows idx idx' where
  sourceText := hsource
  postings := ext_mem fun p => (h.postings p).trans (h'.postings p).symm
  forward := ext_getElem? fun id => (h.forward id).trans (h'.forward id).symm
  fieldLengths := ext_getElem? fun id =>
    (h.fieldLengths id).trans (h'.fieldLengths id).symm
  docMeta := ext_getElem? fun id => by
    rw [getElem?_erase, getElem?_erase]
    split
    · rfl
    · next hne =>
      have hne : id ≠ totalDocsKey := fun heq => hne (by rw [heq, ReflOrd.compare_self])
      rw [h.docMeta id hne, h'.docMeta id hne]
  fieldStats := ext_getElem? fun fid => (h.fieldStats fid).trans (h'.fieldStats fid).symm
  totalDocs := h.totalDocs.trans h'.totalDocs.symm

end Oneiron
