import Oneiron.Foundations.System
import Oneiron.Store.TextMoves

/-!
# Store/TextIndexSafety — every run leaves the index of what is indexed

      empty --index / deindex / index again, in any order--▸ index
        │                                                      ‖
        └--each document indexed now, once, in any order--▸ the same rows

And from there, whatever postings are lost, a document can still be taken out, and only once
(`text_index_consistent`).
-/

open Std

namespace Oneiron

open Except OrderedMap IndexedText

open Std.ExtTreeMap Option

/-- What a document was indexed as. -/
structure TextDoc where
  fields : TextFields
  analyzer : Bytes → List Token

/-- A store, with the documents indexed in it now. -/
structure TextState where
  index : TextIndex
  docs : OrderedMap EntityId TextDoc

inductive TextAct where
  | index (id : EntityId) (doc : TextDoc)
  | deindex (id : EntityId)

/-- One base store under any calls; one that fails leaves it as it was. -/
def textSystem {digest : TermDigest} (vocabulary : Vocabulary digest) : System TextState TextAct where
  init s := s = ⟨.empty, ∅⟩
  step s act t := match act with
    | .index id doc => Emits vocabulary doc.analyzer doc.fields ∧
        ((∃ e, indexText digest doc.analyzer s.index id doc.fields = .error e) ∧ t = s ∨
          indexText digest doc.analyzer s.index id doc.fields = .ok t.index ∧
            t.docs = s.docs.insert id doc)
    | .deindex id =>
        (∃ e, deindexText digest s.index id = .error e) ∧ t = s ∨
          deindexText digest s.index id = .ok t.index ∧ t.docs = s.docs.erase id

/-- Documents indexed one after another into an empty store. -/
def indexAll (digest : TermDigest) (docs : List (EntityId × TextDoc)) : Except Error TextIndex :=
  docs.foldlM (fun idx p => indexText digest p.2.analyzer idx p.1 p.2.fields) .empty

/-- The store with some postings deleted. -/
def TextIndex.lose (idx : TextIndex) (lost : OrderedSet KvPair) : TextIndex :=
  { idx with textPostings := idx.textPostings.filter (· ∉ lost) }

/-- **Every row reads back**, and no field's row counts nothing. -/
structure RowsDecode (idx : TextIndex) : Prop where
  postings : ∀ p ∈ idx.textPostings, ∃ entry, decodePostingEntry p.2 = .ok entry
  forward : ∀ (id : EntityId) (raw : Bytes), idx.textForward[id]? = some raw →
    ∃ records, decodeForward raw = .ok records
  fieldLengths : ∀ (id : EntityId) (raw : Bytes), idx.textDocFieldLengths[id]? = some raw →
    ∃ lengths, decodeFieldLengths raw = .ok lengths
  fieldStats : ∀ (fid : ℕ) (raw : Bytes), idx.textBm25FieldStats[fid]? = some raw →
    ∃ docCount totalLength, decodeFieldStats raw = .ok (docCount, totalLength) ∧ docCount ≠ 0
  totalDocs : ∃ total, readTotalDocs idx.textMeta = .ok total

/-- **What holds of an index and the documents in it.** -/
structure TextConsistent (digest : TermDigest) (docs : OrderedMap EntityId TextDoc)
    (idx : TextIndex) : Prop where
  /-- Each document indexed once, in any order, makes the same rows. -/
  rebuilt : ∀ l : List (EntityId × TextDoc), l.Perm docs.toList →
    ∃ idx', indexAll digest l = .ok idx' ∧ SameRows idx idx'
  decodes : RowsDecode idx
  /-- With any postings deleted, a deindex leaves what there is without the document, and another
  changes nothing. -/
  healed : ∀ (lost : OrderedSet KvPair) (id : EntityId), EntityId.isReserved id.asBytes = false →
    ∃ idx', deindexText digest (idx.lose lost) id = .ok idx' ∧
      (∀ l : List (EntityId × TextDoc), l.Perm (docs.erase id).toList →
        ∃ other, indexAll digest l = .ok other ∧ SameRows idx' (other.lose lost)) ∧
      deindexText digest idx' id = .ok idx'

variable {digest : TermDigest} {vocabulary : Vocabulary digest} {corpus : Corpus vocabulary}
  {idx idx' : TextIndex} {lost : Set KvPair} {id : EntityId} {text : IndexedText vocabulary}

/-- What a document was indexed as, forgetting what the analyzer made of it. -/
def IndexedText.doc (text : IndexedText vocabulary) : TextDoc := ⟨text.source, text.analyzer⟩

/-- Whether a document has terms. -/
def IndexedText.hasTerms (text : IndexedText vocabulary) : Bool := !text.analysis.perTerm.isEmpty

/-- **The index of some documents**: the rows of those with terms, and what each was given as. -/
structure IndexesDocs (texts : Corpus vocabulary) (lost : Set KvPair) (idx : TextIndex) : Prop where
  indexes : ∃ corpus : Corpus vocabulary, Indexes corpus lost idx ∧
    ∀ id : EntityId, corpus[id]? = texts[id]?.filter hasTerms
  source : ∀ id : EntityId, idx.sourceText[id]? = texts[id]?.map (·.source)
  valid : ∀ (id : EntityId) (text : IndexedText vocabulary), texts[id]? = some text →
    EntityId.isReserved id.asBytes = false

namespace Indexes

/-- What the caller gave is no part of the rows. -/
theorem of_source (h : Indexes corpus lost idx) (source : OrderedMap EntityId TextFields) :
    Indexes corpus lost { idx with sourceText := source } :=
  ⟨h.postings, h.forward, h.fieldLengths, h.docMeta, h.fieldStats, h.totalDocs, h.fits, h.filed⟩

/-- A document that is not in the corpus has no rows. -/
theorem no_rows (h : Indexes corpus lost idx) (hnone : corpus[id]? = none)
    (hvalid : EntityId.isReserved id.asBytes = false) :
    idx.textForward[id]? = none ∧ id ∉ idx.textMeta := by
  refine ⟨by rw [h.forward, hnone]; rfl, fun hmem => ?_⟩
  rw [mem_iff_isSome_getElem?, h.docMeta id (ne_totalDocsKey hvalid), hnone] at hmem
  cases hmem

/-- **A deindex succeeds**, and leaves the index without the document. -/
theorem deindexText (h : Indexes corpus lost idx)
    (hvalid : EntityId.isReserved id.asBytes = false) :
    ∃ idx', deindexText digest idx id = .ok idx' ∧ Indexes (corpus.erase id) lost idx' ∧
      idx'.sourceText = idx.sourceText.erase id := by
  unfold Oneiron.deindexText validateTextDocId
  simp only [bind_eq_ok, ensure_eq_ok]
  have h' := h.of_source (idx.sourceText.erase id)
  cases hin : corpus[id]? with
  | none =>
    obtain ⟨hforward, hmeta⟩ := h.no_rows hin hvalid
    refine ⟨_, ⟨⟨⟩, hvalid, ?_⟩, (erase_of_getElem?_eq_none hin).symm ▸ h', rfl⟩
    simp only [hforward]
    exact bind_eq_ok.mpr ⟨⟨⟩, ensure_eq_ok.mpr hmeta, rfl⟩
  | some text =>
    obtain ⟨idx', hremove, hleft, hsource⟩ := h'.removeRows hin
    have hforward : idx.textForward[id]? = some text.forwardRow := by
      rw [h.forward, hin]
      rfl
    refine ⟨idx', ⟨⟨⟩, hvalid, ?_⟩, hleft, hsource⟩
    simp only [hforward]
    exact hremove

/-- **What a document's last indexing left is taken back.** -/
theorem clearRows (h : Indexes corpus ∅ idx) (hvalid : EntityId.isReserved id.asBytes = false) :
    ∃ idx', clearRows digest idx id = .ok idx' ∧ Indexes (corpus.erase id) ∅ idx' ∧
      idx'.sourceText.erase id = idx.sourceText.erase id := by
  unfold Oneiron.clearRows
  cases hin : corpus[id]? with
  | none =>
    obtain ⟨hforward, hmeta⟩ := h.no_rows hin hvalid
    simp only [hforward]
    refine ⟨idx, bind_eq_ok.mpr ⟨⟨⟩, ensure_eq_ok.mpr hmeta, rfl⟩, ?_, rfl⟩
    rw [erase_of_getElem?_eq_none hin]
    exact h
  | some text =>
    have hforward : idx.textForward[id]? = some text.forwardRow := by
      rw [h.forward, hin]
      rfl
    simp only [hforward]
    obtain ⟨idx', hdeindex, hleft, hsource⟩ := h.deindexText hvalid
    refine ⟨idx', hdeindex, hleft, ?_⟩
    rw [hsource]
    exact erase_of_getElem?_eq_none getElem?_erase_self

end Indexes

namespace IndexesDocs

variable {texts : Corpus vocabulary}

/-- **A deindex** leaves the index of the other documents. -/
theorem deindexText (h : IndexesDocs texts lost idx)
    (hvalid : EntityId.isReserved id.asBytes = false) :
    ∃ idx', deindexText digest idx id = .ok idx' ∧ IndexesDocs (texts.erase id) lost idx' := by
  obtain ⟨corpus, hindexes, hcorpus⟩ := h.indexes
  obtain ⟨idx', hok, hleft, hsource⟩ := hindexes.deindexText hvalid
  refine ⟨idx', hok, ⟨_, hleft, fun id' => ?_⟩, fun id' => ?_, fun id' text hin => ?_⟩
  · rw [getElem?_erase, getElem?_erase, hcorpus]
    split <;> rfl
  · rw [hsource, getElem?_erase, getElem?_erase, h.source]
    split <;> rfl
  · rw [getElem?_erase] at hin
    split at hin
    · cases hin
    · exact h.valid id' text hin

/-- A document put among the others, over what it was before. -/
theorem insert (h : IndexesDocs texts ∅ idx) (hvalid : EntityId.isReserved id.asBytes = false)
    {corpus : Corpus vocabulary} (hindexes : Indexes corpus ∅ idx')
    (hcorpus : ∀ id' : EntityId, corpus[id']? =
      (texts.insert id text)[id']?.filter hasTerms)
    (hsource : idx'.sourceText = (idx.sourceText.erase id).insert id text.source) :
    IndexesDocs (texts.insert id text) ∅ idx' := by
  refine ⟨⟨corpus, hindexes, hcorpus⟩, fun id' => ?_, fun id' text' hin => ?_⟩
  · simp only [hsource, getElem?_insert, getElem?_erase, h.source]
    split <;> rfl
  · rw [getElem?_insert] at hin
    split at hin
    · next heq => exact Std.compare_eq_iff_eq.mp heq ▸ hvalid
    · exact h.valid id' text' hin

/-- The documents with terms, before a document is put among them. -/
theorem corpus_insert {corpus : Corpus vocabulary}
    (hcorpus : ∀ id' : EntityId, corpus[id']? = texts[id']?.filter hasTerms)
    (id : EntityId) (text : IndexedText vocabulary) (id' : EntityId) :
    (if text.hasTerms then (corpus.erase id).insert id text else corpus.erase id)[id']? =
      (texts.insert id text)[id']?.filter hasTerms := by
  rw [getElem?_insert]
  split
  · next hterms =>
    rw [getElem?_insert, getElem?_erase, hcorpus]
    split
    · rw [filter_some, if_pos hterms]
    · rfl
  · next hterms =>
    rw [getElem?_erase, hcorpus]
    split
    · rw [filter_some, if_neg hterms]
    · rfl

/-- **A document indexed** makes the index of the documents with it. -/
theorem indexText (h : IndexesDocs texts ∅ idx) {doc : TextDoc}
    (hemits : Emits vocabulary doc.analyzer doc.fields)
    (hok : indexText digest doc.analyzer idx id doc.fields = .ok idx') :
    ∃ text : IndexedText vocabulary, text.doc = doc ∧ IndexesDocs (texts.insert id text) ∅ idx' := by
  simp only [Oneiron.indexText, validateTextDocId, bind_eq_ok, ensure_eq_ok] at hok
  obtain ⟨-, hvalid, analysis, hreads, hwrite⟩ := hok
  let text : IndexedText vocabulary := ⟨doc.fields, doc.analyzer, analysis, hemits, hreads⟩
  refine ⟨text, rfl, ?_⟩
  obtain ⟨corpus, hindexes, hcorpus⟩ := h.indexes
  obtain ⟨idx₁, hclear, hleft, hsource⟩ := hindexes.clearRows hvalid
  have hrest := hleft.of_source (idx₁.sourceText.insert id doc.fields)
  have hsourced : idx₁.sourceText.insert id doc.fields =
      (idx.sourceText.erase id).insert id text.source := ext_getElem? fun id' => by
    rw [← hsource, getElem?_insert, getElem?_insert,
      getElem?_erase]
    split <;> rfl
  have hall := corpus_insert hcorpus id text
  simp only [writeIndex, hclear, bind_eq_ok, ok.injEq] at hwrite
  obtain ⟨_, rfl, hwrite⟩ := hwrite
  split at hwrite
  · next hempty =>
    obtain rfl := ok.inj hwrite
    have hnone : text.hasTerms = false := by simp [hasTerms, text, hempty]
    rw [hnone] at hall
    exact h.insert hvalid hrest hall hsourced
  · next hterms =>
    have hsome : text.hasTerms = true := by simp [hasTerms, text, hterms]
    rw [hsome] at hall
    obtain ⟨hindexes', hsource'⟩ := hrest.putRows text getElem?_erase_self hvalid
      (Bool.not_eq_true _ ▸ hterms) hwrite
    exact h.insert hvalid hindexes' hall (hsource'.trans hsourced)

/-- The analysis follows from what was given. -/
theorem eq_of_doc {text text' : IndexedText vocabulary} (h : text.doc = text'.doc) : text = text' := by
  obtain ⟨source, analyzer, analysis, _, hreads⟩ := text
  obtain ⟨source', analyzer', analysis', _, hreads'⟩ := text'
  obtain ⟨rfl, rfl⟩ := TextDoc.mk.inj h
  obtain rfl := ok.inj (hreads.symm.trans hreads')
  rfl

/-- Where some documents are indexed together, each can be indexed after any of the others. -/
theorem exists_indexText (h : IndexesDocs texts ∅ idx) {done : Corpus vocabulary} {start : TextIndex}
    (hstart : IndexesDocs done ∅ start) (hin : texts[id]? = some text) (hnew : done[id]? = none)
    (hdone : ∀ (id' : EntityId) (text' : IndexedText vocabulary), done[id']? = some text' →
      texts[id']? = some text') :
    ∃ next, Oneiron.indexText digest text.analyzer start id text.source = .ok next := by
  have hvalid := h.valid id text hin
  obtain ⟨corpus, hindexes, hcorpus⟩ := h.indexes
  obtain ⟨corpus', hindexes', hcorpus'⟩ := hstart.indexes
  obtain ⟨start₁, hclear, hleft, -⟩ := hindexes'.clearRows hvalid
  have hnone : corpus'[id]? = none := by
    rw [hcorpus', hnew]
    rfl
  rw [erase_of_getElem?_eq_none hnone] at hleft
  have hwrite : ∃ next, writeIndex digest start id text.source text.analysis = .ok next := by
    unfold writeIndex
    cases hterms : text.analysis.perTerm.isEmpty with
    | true => exact ⟨_, bind_eq_ok.mpr ⟨start₁, hclear, rfl⟩⟩
    | false =>
      have hsome : text.hasTerms = true := by simp [hasTerms, hterms]
      have hfull : corpus[id]? = some text := by
        rw [hcorpus, hin, filter_some, if_pos hsome]
      -- so far there is no more than there will be
      have hle (w : EntityId → IndexedText vocabulary → ℕ) :
          OrderedMap.weigh w (corpus'.insert id text) ≤ OrderedMap.weigh w corpus := by
        refine weigh_le_weigh w fun id' => ?_
        unfold OrderedMap.weightAt
        rw [getElem?_insert]
        split
        · next heq =>
          rw [← Std.compare_eq_iff_eq.mp heq, hfull]
        · rw [hcorpus', hcorpus]
          cases hdoc : done[id']? with
          | none => exact Nat.zero_le _
          | some text' => rw [hdone id' text' hdoc]
      have htotal := hle fun _ _ => 1
      have hinsert := Corpus.totalDocs_insert hnone text
      obtain ⟨next, hput⟩ := (hleft.of_source (start₁.sourceText.insert id text.source)).exists_putRows
        hnone (hindexes.filed id text hfull)
        (fun fid => ⟨(hle _).trans_lt (hindexes.fits fid).1, (hle _).trans_lt (hindexes.fits fid).2⟩)
        (hinsert ▸ htotal.trans_lt hindexes.totalDocs_lt)
      exact ⟨next, bind_eq_ok.mpr ⟨start₁, hclear, hput⟩⟩
  obtain ⟨next, hwrite⟩ := hwrite
  refine ⟨next, ?_⟩
  simp only [Oneiron.indexText, validateTextDocId, bind_eq_ok, ensure_eq_ok]
  exact ⟨⟨⟩, hvalid, text.analysis, text.reads, hwrite⟩

/-- **Each document indexed once**, in any order, makes the index of all. -/
theorem indexAll (h : IndexesDocs texts ∅ idx) :
    ∀ {pending : List (EntityId × TextDoc)} {done : Corpus vocabulary} {start : TextIndex},
      (pending.map Prod.fst).Nodup →
      (∀ p ∈ pending, ∃ text, texts[p.1]? = some text ∧ text.doc = p.2) →
      (∀ id : EntityId, done[id]? = if id ∈ pending.map Prod.fst then none else texts[id]?) →
      IndexesDocs done ∅ start →
      ∃ final, pending.foldlM (fun idx p =>
        Oneiron.indexText digest p.2.analyzer idx p.1 p.2.fields) start = .ok final ∧
        IndexesDocs texts ∅ final
  | [], done, start, _, _, hdone, hstart => by
    have hall : done = texts := ext_getElem? fun id => by simp [hdone]
    exact ⟨start, rfl, hall ▸ hstart⟩
  | p :: pending, done, start, hnodup, htexts, hdone, hstart => by
    rw [List.map_cons, List.nodup_cons] at hnodup
    rw [List.forall_mem_cons] at htexts
    obtain ⟨⟨text, hin, hdoc⟩, htexts⟩ := htexts
    obtain ⟨next, hnext⟩ := h.exists_indexText hstart hin (by simp [hdone]) fun id' text' hin' => by
      rw [hdone] at hin'
      split at hin'
      · cases hin'
      · exact hin'
    have hstep : Oneiron.indexText digest p.2.analyzer start p.1 p.2.fields = .ok next := by
      rw [← hdoc]
      exact hnext
    obtain ⟨text', hdoc', hnextDocs⟩ := hstart.indexText (by rw [← hdoc]; exact text.emits) hstep
    obtain rfl := eq_of_doc (hdoc'.trans hdoc.symm)
    have hrest (id : EntityId) : (done.insert p.1 text')[id]? =
        if id ∈ pending.map Prod.fst then none else texts[id]? := by
      simp only [getElem?_insert, Std.compare_eq_iff_eq, hdone, List.map_cons,
        List.mem_cons]
      by_cases heq : p.1 = id
      · rw [if_pos heq, if_neg (heq ▸ hnodup.1), ← heq, hin]
      · have hne : id ≠ p.1 := Ne.symm heq
        simp only [heq, hne, if_false, false_or]
    obtain ⟨final, hfinal, hdocs⟩ := h.indexAll hnodup.2 htexts hrest hnextDocs
    exact ⟨final, bind_eq_ok.mpr ⟨next, hstep, hfinal⟩, hdocs⟩

/-- A document that is not indexed is taken out to no effect. -/
theorem deindexText_none (h : IndexesDocs texts lost idx) (hnone : texts[id]? = none)
    (hvalid : EntityId.isReserved id.asBytes = false) :
    Oneiron.deindexText digest idx id = .ok idx := by
  obtain ⟨corpus, hindexes, hcorpus⟩ := h.indexes
  obtain ⟨hforward, hmeta⟩ := hindexes.no_rows (by rw [hcorpus, hnone]; rfl) hvalid
  have hsource : idx.sourceText.erase id = idx.sourceText :=
    erase_of_getElem?_eq_none (by rw [h.source, hnone]; rfl)
  simp only [Oneiron.deindexText, validateTextDocId, bind_eq_ok, ensure_eq_ok, hforward, hsource]
  exact ⟨⟨⟩, hvalid, ⟨⟩, hmeta, rfl⟩

/-- **Every row of such an index reads back.** -/
theorem rowsDecode (h : IndexesDocs texts lost idx) : RowsDecode idx := by
  obtain ⟨corpus, hindexes, -⟩ := h.indexes
  constructor
  · intro p hp
    obtain ⟨⟨id, text, hin, t, fields, ht, rfl⟩, -⟩ := (hindexes.postings p).mp hp
    exact ⟨_, (hindexes.filed id text hin).decodePostingEntry ht⟩
  · intro id raw hraw
    rw [hindexes.forward, map_eq_some_iff] at hraw
    obtain ⟨text, hin, rfl⟩ := hraw
    exact ⟨_, (hindexes.filed id text hin).decodeForward⟩
  · intro id raw hraw
    rw [hindexes.fieldLengths, map_eq_some_iff] at hraw
    obtain ⟨text, hin, rfl⟩ := hraw
    exact ⟨_, (hindexes.filed id text hin).decodeFieldLengths⟩
  · intro fid raw hraw
    rw [hindexes.fieldStats, Corpus.statsRow] at hraw
    split at hraw
    · cases hraw
    · next hne =>
      obtain rfl := some.inj hraw
      exact ⟨_, _, decodeFieldStats_spell (hindexes.fits fid).1 (hindexes.fits fid).2, hne⟩
  · exact ⟨_, hindexes.totalDocs⟩

/-- **Indexes of the same documents have the same rows.** -/
theorem sameRows (h : IndexesDocs texts lost idx) (h' : IndexesDocs texts lost idx') :
    SameRows idx idx' := by
  obtain ⟨corpus, hindexes, hcorpus⟩ := h.indexes
  obtain ⟨corpus', hindexes', hcorpus'⟩ := h'.indexes
  obtain rfl : corpus = corpus' := ext_getElem? fun id => by rw [hcorpus, hcorpus']
  exact hindexes.sameRows hindexes' (ext_getElem? fun id => by rw [h.source, h'.source])

/-- Postings deleted are the postings lost. -/
theorem lose (h : IndexesDocs texts ∅ idx) (lost : OrderedSet KvPair) :
    IndexesDocs texts {p | p ∈ lost} (idx.lose lost) := by
  obtain ⟨corpus, hindexes, hcorpus⟩ := h.indexes
  refine ⟨⟨corpus, ⟨fun p => ?_, hindexes.forward, hindexes.fieldLengths, hindexes.docMeta,
    hindexes.fieldStats, hindexes.totalDocs, hindexes.fits, hindexes.filed⟩, hcorpus⟩,
    h.source, h.valid⟩
  simp [TextIndex.lose, ExtTreeSet.mem_filter, hindexes.postings]

end IndexesDocs

/-- An empty store is the index of nothing. -/
theorem indexesDocs_empty : IndexesDocs (∅ : Corpus vocabulary) ∅ .empty := by
  have hposts (p : KvPair) : ¬ Corpus.Posts (∅ : Corpus vocabulary) p := by
    rintro ⟨id, text, hin, -⟩
    simp at hin
  refine ⟨⟨∅, ⟨fun p => ?_, fun id => ?_, fun id => ?_, fun id _ => ?_, fun fid => ?_, rfl,
    fun fid => ⟨?_, ?_⟩, fun id text hin => ?_⟩, fun id => ?_⟩, fun id => ?_, fun id text hin => ?_⟩
  all_goals simp_all [TextIndex.empty, Corpus.statsRow, Corpus.docCount, Corpus.totalLength]

/-! ## Runs -/

/-- **The invariant**: the store is the index of what is indexed in it now. -/
def TextState.Inv (vocabulary : Vocabulary digest) (s : TextState) : Prop :=
  ∃ texts : Corpus vocabulary, IndexesDocs texts ∅ s.index ∧
    ∀ id : EntityId, s.docs[id]? = texts[id]?.map doc

/-- **One call keeps it.** -/
theorem TextState.Inv.step {s t : TextState} {act : TextAct} (h : s.Inv vocabulary)
    (hstep : (textSystem vocabulary).step s act t) : t.Inv vocabulary := by
  obtain ⟨texts, hindexes, hdocs⟩ := h
  cases act with
  | index id doc =>
    obtain ⟨hemits, ⟨-, rfl⟩ | ⟨hok, hput⟩⟩ := hstep
    · exact ⟨texts, hindexes, hdocs⟩
    · obtain ⟨text, hdoc, hnext⟩ := hindexes.indexText hemits hok
      refine ⟨_, hnext, fun id' => ?_⟩
      rw [hput, getElem?_insert, getElem?_insert, hdocs]
      split
      · rw [map_some, hdoc]
      · rfl
  | deindex id =>
    obtain ⟨-, rfl⟩ | ⟨hok, hleft⟩ := hstep
    · exact ⟨texts, hindexes, hdocs⟩
    · have hvalid : EntityId.isReserved id.asBytes = false := by
        simp only [deindexText, validateTextDocId, bind_eq_ok, ensure_eq_ok] at hok
        obtain ⟨-, hvalid, -⟩ := hok
        exact hvalid
      obtain ⟨idx', hok', hnext⟩ := hindexes.deindexText hvalid
      obtain rfl := ok.inj (hok'.symm.trans hok)
      refine ⟨_, hnext, fun id' => ?_⟩
      rw [hleft, getElem?_erase, getElem?_erase, hdocs]
      split <;> rfl

theorem inv_of_reachable_text {s : TextState} (hs : (textSystem vocabulary).Reachable s) :
    s.Inv vocabulary := by
  refine hs.invariant (TextState.Inv vocabulary) ?_ fun h hstep => h.step hstep
  rintro _ rfl
  exact ⟨∅, indexesDocs_empty, fun id => by simp⟩

/-- Documents indexed one after another, in any order, make the index of all. -/
theorem IndexesDocs.exists_indexAll {texts : Corpus vocabulary} {docs : OrderedMap EntityId TextDoc}
    (h : IndexesDocs texts ∅ idx) (hdocs : ∀ id : EntityId, docs[id]? = texts[id]?.map doc)
    {l : List (EntityId × TextDoc)} (hl : l.Perm docs.toList) :
    ∃ other, Oneiron.indexAll digest l = .ok other ∧ IndexesDocs texts ∅ other := by
  have hmem (p : EntityId × TextDoc) : p ∈ l ↔ texts[p.1]?.map doc = some p.2 := by
    rw [hl.mem_iff, mem_toList_iff_getElem?_eq_some, hdocs]
  have hnodup : (l.map Prod.fst).Nodup := (hl.map Prod.fst).nodup_iff.mpr docs.nodup_map_fst_toList
  have hnone (id : EntityId) : (∅ : Corpus vocabulary)[id]? =
      if id ∈ l.map Prod.fst then none else texts[id]? := by
    split
    · rfl
    · next hnot =>
      cases hin : texts[id]? with
      | none => rfl
      | some text =>
        refine absurd (List.mem_map.mpr ⟨(id, text.doc), (hmem _).mpr ?_, rfl⟩) hnot
        rw [hin]
        rfl
  exact h.indexAll hnodup (fun p hp => map_eq_some_iff.mp ((hmem p).mp hp)) hnone
    indexesDocs_empty

/-- **Every run leaves the index of what is indexed**: each document indexed once, in any order, makes
the same rows, every row reads back, and with any postings deleted a document can still be taken
out, once. -/
theorem text_index_consistent {s : TextState} (hs : (textSystem vocabulary).Reachable s) :
    TextConsistent digest s.docs s.index := by
  obtain ⟨texts, hindexes, hdocs⟩ := inv_of_reachable_text hs
  refine ⟨fun l hl => ?_, hindexes.rowsDecode, fun lost id hvalid => ?_⟩
  · obtain ⟨other, hother, h⟩ := hindexes.exists_indexAll hdocs hl
    exact ⟨other, hother, hindexes.sameRows h⟩
  · obtain ⟨idx', hok, hleft⟩ := (hindexes.lose lost).deindexText hvalid
    have hdocs' (id' : EntityId) :
        (s.docs.erase id)[id']? = (texts.erase id)[id']?.map doc := by
      rw [getElem?_erase, getElem?_erase, hdocs]
      split <;> rfl
    obtain ⟨_, -, hwithout⟩ := hindexes.deindexText hvalid
    refine ⟨idx', hok, fun l hl => ?_, ?_⟩
    · obtain ⟨other, hother, h⟩ := hwithout.exists_indexAll hdocs' hl
      exact ⟨other, hother, hleft.sameRows (h.lose lost)⟩
    · exact hleft.deindexText_none getElem?_erase_self hvalid

/-! ## Notes indexed -/

/-- A digest that shows a short term. -/
def noteDigest : TermDigest := ⟨fun b => (b.rightpad 32 0).take 32, fun b => by simp; omega⟩

def noteTerms : List Term := [⟨ascii "hello", by decide⟩, ⟨ascii "world", by decide⟩]

def noteVocabulary : Vocabulary noteDigest where
  terms := {t | t ∈ noteTerms}
  plain := show ∀ t ∈ noteTerms, _ from by decide
  apart := show ∀ t ∈ noteTerms, ∀ u ∈ noteTerms, _ from by decide +kernel

/-- A note, analyzed into the terms it has in it. -/
def note (text : Bytes) : TextDoc :=
  ⟨[(ascii "body", text)], fun b =>
    (noteTerms.filter (·.asBytes <:+: b)).map fun t => ⟨t, .surface, 1⟩⟩

/-- A note indexed, or taken out. -/
def noteStep (s : TextState) : EntityId × Option Bytes → TextState
  | (id, some text) =>
    match indexText noteDigest (note text).analyzer s.index id (note text).fields with
    | .ok index => ⟨index, s.docs.insert id (note text)⟩
    | .error _ => s
  | (id, none) =>
    match deindexText noteDigest s.index id with
    | .ok index => ⟨index, s.docs.erase id⟩
    | .error _ => s

/-- Two notes indexed, one of them again with other words, and the other taken out. -/
def notes : TextState :=
  [(.filled 7, some (ascii "hello")), (.filled 8, some (ascii "hello world")),
    (.filled 7, some (ascii "world")), (.filled 8, none)].foldl noteStep ⟨.empty, ∅⟩

theorem reachable_notes : (textSystem noteVocabulary).Reachable notes := by
  refine System.Reachable.foldl (fun s op => ?_) _ (.start rfl)
  fun_cases noteStep s op with
  | case1 id text index h =>
    refine .inr ⟨.index id (note text), fun field _ tok htok => ?_, .inr ⟨h, rfl⟩⟩
    obtain ⟨t, ht, rfl⟩ := List.mem_map.mp htok
    exact ⟨(List.mem_filter.mp ht).1, nofun⟩
  | case3 id index h => exact .inr ⟨.deindex id, .inr ⟨h, rfl⟩⟩
  | _ => exact .inl rfl

/-- …leave the index of the first as it is now, which goes even with its posting lost. -/
theorem text_index_consistent_notes :
    notes.docs.keys = [.filled 7] ∧ notes.index.textPostings.size = 1 ∧
      TextConsistent noteDigest notes.docs notes.index ∧
      ∃ index, deindexText noteDigest (notes.index.lose notes.index.textPostings) (.filled 7) =
        .ok index ∧ SameRows index (TextIndex.empty.lose notes.index.textPostings) := by
  have hall := text_index_consistent reachable_notes
  obtain ⟨index, hok, hwithout, -⟩ := hall.healed notes.index.textPostings (.filled 7) (by decide)
  obtain ⟨other, hother, hsame⟩ := hwithout [] (.of_eq (List.isEmpty_iff.mp (by decide +kernel)).symm)
  obtain rfl := Except.ok.inj hother
  exact ⟨by decide +kernel, by decide +kernel, hall, index, hok, hsame⟩

end Oneiron
