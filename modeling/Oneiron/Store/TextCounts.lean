import Oneiron.Store.TextCorpus

/-!
# Store/TextCounts — the statistics of a corpus, kept and proved

A document put in adds one to the count of each of its fields, and its length; taken out, it takes
the same off again.  Where the rows are those of a corpus the document is in, counting the documents
again comes to what the statistics say (`Indexes.proveCounted_eq`).
-/

open Std

namespace Oneiron

open Corpus OrderedMap Recount

open Std.ExtTreeMap Option Except

variable {digest : TermDigest} {vocabulary : Vocabulary digest} {corpus : Corpus vocabulary}
  {idx : TextIndex} {lost : Set KvPair} {id : EntityId} {text : IndexedText vocabulary}

namespace Corpus

theorem counts_insert (hnew : corpus[id]? = none) (text : IndexedText vocabulary) (fid : ℕ) :
    docCount (corpus.insert id text) fid = corpus.docCount fid + text.counted fid ∧
      totalLength (corpus.insert id text) fid = corpus.totalLength fid + text.lengthIn fid := by
  have hcount := weigh_insert_add
    (fun _ (text : IndexedText vocabulary) => text.counted fid) corpus id text
  have hlength := weigh_insert_add
    (fun _ (text : IndexedText vocabulary) => text.lengthIn fid) corpus id text
  simp only [weightAt, hnew, elim_none, Nat.add_zero] at hcount hlength
  exact ⟨hcount, hlength⟩

theorem counts_erase (hin : corpus[id]? = some text) (fid : ℕ) :
    docCount (corpus.erase id) fid + text.counted fid = corpus.docCount fid ∧
      totalLength (corpus.erase id) fid + text.lengthIn fid = corpus.totalLength fid := by
  have hcount := weigh_erase_add
    (fun _ (text : IndexedText vocabulary) => text.counted fid) corpus id
  have hlength := weigh_erase_add
    (fun _ (text : IndexedText vocabulary) => text.lengthIn fid) corpus id
  simp only [weightAt, hin, elim_some] at hcount hlength
  exact ⟨hcount, hlength⟩

theorem totalDocs_insert (hnew : corpus[id]? = none) (text : IndexedText vocabulary) :
    totalDocs (corpus.insert id text) = corpus.totalDocs + 1 := by
  have := weigh_insert_add (fun _ (_ : IndexedText vocabulary) => 1) corpus id text
  simp only [weightAt, hnew, elim_none, Nat.add_zero] at this
  exact this

theorem totalDocs_erase (hin : corpus[id]? = some text) :
    totalDocs (corpus.erase id) + 1 = corpus.totalDocs := by
  have := weigh_erase_add (fun _ (_ : IndexedText vocabulary) => 1) corpus id
  simp only [weightAt, hin, elim_some] at this
  exact this

/-- A field nothing counts in has no length. -/
theorem totalLength_eq_zero {fid : ℕ} (h : corpus.docCount fid = 0) : corpus.totalLength fid = 0 := by
  have hzero : corpus.totalLength fid = weigh (fun _ _ => 0) corpus := by
    refine weigh_congr corpus fun id text hin => ?_
    have hle := weight_le_weigh (w := fun _ (text : IndexedText vocabulary) =>
      text.counted fid) hin
    have hnone : text.counted fid = 0 := Nat.le_zero.mp (hle.trans_eq h)
    unfold IndexedText.counted at hnone
    split at hnone
    · cases hnone
    · next hnot =>
      rw [IndexedText.lengthIn, getElem?_eq_none hnot]
      rfl
  rw [hzero, weigh_zero]

end Corpus

/-! ## One field's row -/

/-- A statistics row of some counts. -/
def statsRowOf (docCount totalLength : ℕ) : Option Bytes :=
  if docCount = 0 then none else some (spellFieldStats docCount totalLength)

/-- What a row says. -/
def readRow (row : Option Bytes) : Except Error (ℕ × ℕ) := row.elim (.ok (0, 0)) decodeFieldStats

theorem readRow_statsRowOf {docCount totalLength : ℕ} (hdocs : docCount < 256 ^ 4)
    (hlength : totalLength < 256 ^ 8) (hzero : docCount = 0 → totalLength = 0) :
    readRow (statsRowOf docCount totalLength) = .ok (docCount, totalLength) := by
  unfold statsRowOf
  split
  · next h =>
    rw [h, hzero h]
    rfl
  · exact decodeFieldStats_spell hdocs hlength

/-- What `countField` does to the row of its field. -/
def countRow (_ : ℕ) (row : Option Bytes) (len : ℕ) : Except Error (Option Bytes) := do
  let (docCount, totalLength) ← readRow row
  ensure (docCount + 1 < 256 ^ 4) (.arithmeticOverflow "bm25 field doc_count")
  ensure (totalLength + len < 256 ^ 8) (.arithmeticOverflow "bm25 field total_length")
  pure (some (spellFieldStats (docCount + 1) (totalLength + len)))

/-- What `uncountField` does to the row of its field. -/
def uncountRow (_ : ℕ) (row : Option Bytes) (len : ℕ) : Except Error (Option Bytes) := do
  let (docCount, totalLength) ← readRow row
  ensure (1 ≤ docCount) (corrupted "field doc_count underflow during deindex")
  ensure (len ≤ totalLength) (corrupted "field total_length underflow during deindex")
  pure (if docCount - 1 = 0 ∧ totalLength - len = 0 then none
    else some (spellFieldStats (docCount - 1) (totalLength - len)))

theorem countRow_eq_ok (fid : ℕ) {len docCount totalLength : ℕ} {row row' : Option Bytes}
    (hread : readRow row = .ok (docCount, totalLength)) :
    countRow fid row len = .ok row' ↔ docCount + 1 < 256 ^ 4 ∧ totalLength + len < 256 ^ 8 ∧
      row' = statsRowOf (docCount + 1) (totalLength + len) := by
  simp only [countRow, bind_eq_ok, ensure_eq_ok, pure_eq_ok, hread, Except.ok.injEq, statsRowOf,
    Nat.succ_ne_zero, if_false]
  constructor
  · rintro ⟨_, rfl, ⟨⟩, hdocs, ⟨⟩, hlength, rfl⟩
    exact ⟨hdocs, hlength, rfl⟩
  · rintro ⟨hdocs, hlength, rfl⟩
    exact ⟨_, rfl, ⟨⟩, hdocs, ⟨⟩, hlength, rfl⟩

theorem uncountRow_eq (fid : ℕ) {len docCount totalLength : ℕ} {row : Option Bytes}
    (hread : readRow row = .ok (docCount + 1, totalLength + len))
    (hzero : docCount = 0 → totalLength = 0) :
    uncountRow fid row len = .ok (statsRowOf docCount totalLength) := by
  simp only [uncountRow, bind_eq_ok, ensure_eq_ok, pure_eq_ok, hread, Except.ok.injEq]
  refine ⟨_, rfl, ⟨⟩, Nat.le_add_left .., ⟨⟩, Nat.le_add_left .., ?_⟩
  simp only [Nat.add_sub_cancel, statsRowOf]
  by_cases h : docCount = 0
  · rw [if_pos ⟨h, hzero h⟩, if_pos h]
  · rw [if_neg fun h' => h h'.1, if_neg h]

variable (stats : OrderedMap ℕ Bytes)

/-- A field step does to its field's row what it says. -/
theorem countField_at (fid len : ℕ) :
    (countField stats (fid, len)).map (fun stats => stats[fid]?) = countRow fid stats[fid]? len := by
  simp only [countField, countRow, map_bind_except, map_pure_except, getElem?_insert_self]
  rfl

theorem uncountField_at (fid len : ℕ) :
    (uncountField stats (fid, len)).map (fun stats => stats[fid]?) =
      uncountRow fid stats[fid]? len := by
  simp only [uncountField, uncountRow, map_bind_except, map_pure_except]
  refine bind_congr fun held => bind_congr fun _ => bind_congr fun _ => congrArg pure ?_
  split
  · exact getElem?_erase_self
  · exact getElem?_insert_self

/-- …and nothing to any other. -/
theorem countField_other (fid len : ℕ) {stats' : OrderedMap ℕ Bytes} {j : ℕ}
    (h : countField stats (fid, len) = .ok stats') (hne : j ≠ fid) : stats'[j]? = stats[j]? := by
  simp only [countField, bind_eq_ok, ensure_eq_ok, pure_eq_ok] at h
  obtain ⟨_, -, -, -, -, -, rfl⟩ := h
  simp [getElem?_insert, hne.symm]

theorem uncountField_other (fid len : ℕ) {stats' : OrderedMap ℕ Bytes} {j : ℕ}
    (h : uncountField stats (fid, len) = .ok stats') (hne : j ≠ fid) : stats'[j]? = stats[j]? := by
  simp only [uncountField, bind_eq_ok, ensure_eq_ok, pure_eq_ok] at h
  obtain ⟨_, -, -, -, -, -, rfl⟩ := h
  split
  · simp [getElem?_erase, hne.symm]
  · simp [getElem?_insert, hne.symm]

namespace Indexes

/-- What the statistics of a corpus say of a field. -/
theorem readRow_eq (h : Indexes corpus lost idx) (fid : ℕ) :
    readRow idx.textBm25FieldStats[fid]? = .ok (corpus.docCount fid, corpus.totalLength fid) := by
  rw [h.fieldStats]
  exact readRow_statsRowOf (h.fits fid).1 (h.fits fid).2 totalLength_eq_zero

theorem counted_lengthIn (text : IndexedText vocabulary) {fid len : ℕ}
    (hlen : text.analysis.perFieldLen[fid]? = some len) :
    text.counted fid = 1 ∧ text.lengthIn fid = len := by
  have hmem : fid ∈ text.analysis.perFieldLen :=
    mem_iff_isSome_getElem?.mpr (by rw [hlen]; rfl)
  exact ⟨if_pos hmem, by rw [IndexedText.lengthIn, hlen]; rfl⟩

theorem counted_lengthIn_none (text : IndexedText vocabulary) {fid : ℕ}
    (hlen : text.analysis.perFieldLen[fid]? = none) :
    text.counted fid = 0 ∧ text.lengthIn fid = 0 := by
  have hmem : fid ∉ text.analysis.perFieldLen := fun hmem => by
    have := mem_iff_isSome_getElem?.mp hmem
    rw [hlen] at this
    cases this
  exact ⟨if_neg hmem, by rw [IndexedText.lengthIn, hlen]; rfl⟩

/-- **Counting a new document's fields** gives the statistics of the corpus with it… -/
theorem countFields (h : Indexes corpus lost idx) (hnew : corpus[id]? = none)
    {stats : OrderedMap ℕ Bytes}
    (hcount : text.analysis.perFieldLen.toList.foldlM countField idx.textBm25FieldStats = .ok stats)
    (fid : ℕ) : stats[fid]? = statsRow (corpus.insert id text) fid ∧
      docCount (corpus.insert id text) fid < 256 ^ 4 ∧
      totalLength (corpus.insert id text) fid < 256 ^ 8 := by
  have hat := foldlM_at countField_at countField_other hcount fid
  obtain ⟨hdocs, hlength⟩ := counts_insert hnew text fid
  unfold statsRow
  rw [hdocs, hlength]
  cases hlen : text.analysis.perFieldLen[fid]? with
  | some len =>
    rw [hlen] at hat
    obtain ⟨hone, hlenIn⟩ := counted_lengthIn text hlen
    obtain ⟨hd, hl, heq⟩ := (countRow_eq_ok fid (h.readRow_eq fid)).mp hat
    rw [hone, hlenIn]
    exact ⟨heq, hd, hl⟩
  | none =>
    rw [hlen] at hat
    obtain ⟨hone, hlenIn⟩ := counted_lengthIn_none text hlen
    rw [hone, hlenIn, ← ok.inj hat, h.fieldStats]
    exact ⟨rfl, h.fits fid⟩

/-- …and succeeds while those fit. -/
theorem exists_countFields (h : Indexes corpus lost idx) (hnew : corpus[id]? = none)
    (hfits : ∀ fid, docCount (corpus.insert id text) fid < 256 ^ 4 ∧
      totalLength (corpus.insert id text) fid < 256 ^ 8) :
    ∃ stats, text.analysis.perFieldLen.toList.foldlM countField idx.textBm25FieldStats =
      .ok stats := by
  refine exists_foldlM_at countField_at countField_other fun fid len hlen => ?_
  obtain ⟨hdocs, hlength⟩ := counts_insert hnew text fid
  obtain ⟨hone, hlenIn⟩ := counted_lengthIn text hlen
  have hfit := hfits fid
  rw [hdocs, hlength, hone, hlenIn] at hfit
  exact ⟨_, (countRow_eq_ok fid (h.readRow_eq fid)).mpr ⟨hfit.1, hfit.2, rfl⟩⟩

/-- **Taking a document's fields off the statistics** gives those of the corpus without it. -/
theorem uncountFields (h : Indexes corpus lost idx) (hin : corpus[id]? = some text) :
    ∃ stats, text.analysis.perFieldLen.toList.foldlM uncountField idx.textBm25FieldStats =
      .ok stats ∧ ∀ fid, stats[fid]? = statsRow (corpus.erase id) fid := by
  have hrow (fid len : ℕ) (hlen : text.analysis.perFieldLen[fid]? = some len) :
      uncountRow fid idx.textBm25FieldStats[fid]? len =
        .ok (statsRow (corpus.erase id) fid) := by
    obtain ⟨hdocs, hlength⟩ := counts_erase hin fid
    obtain ⟨hone, hlenIn⟩ := counted_lengthIn text hlen
    have hread := h.readRow_eq fid
    rw [← hdocs, ← hlength, hone, hlenIn] at hread
    exact uncountRow_eq fid hread totalLength_eq_zero
  obtain ⟨stats, hstats⟩ := exists_foldlM_at uncountField_at
    uncountField_other (m := text.analysis.perFieldLen) fun fid len hlen => ⟨_, hrow fid len hlen⟩
  refine ⟨stats, hstats, fun fid => ?_⟩
  have hat := foldlM_at uncountField_at uncountField_other hstats fid
  cases hlen : text.analysis.perFieldLen[fid]? with
  | some len =>
    rw [hlen] at hat
    exact ok.inj (hat.symm.trans (hrow fid len hlen))
  | none =>
    rw [hlen] at hat
    obtain ⟨hdocs, hlength⟩ := counts_erase hin fid
    obtain ⟨hone, hlenIn⟩ := counted_lengthIn_none text hlen
    rw [hone] at hdocs
    rw [hlenIn] at hlength
    rw [← ok.inj hat, h.fieldStats, statsRow, statsRow, ← hdocs, ← hlength]
    rfl

end Indexes

/-! ## Counting the documents again -/

/-- What is counted so far: a field with its documents and their lengths. -/
def Tallied (stats : OrderedMap ℕ (ℕ × ℕ)) (docCount totalLength : ℕ → ℕ) : Prop :=
  ∀ fid, (docCount fid = 0 → totalLength fid = 0) ∧
    stats[fid]? = if docCount fid = 0 then none else some (docCount fid, totalLength fid)

theorem Tallied.getD {stats : OrderedMap ℕ (ℕ × ℕ)} {docCount totalLength : ℕ → ℕ}
    (h : Tallied stats docCount totalLength) (fid : ℕ) :
    stats[fid]?.getD (0, 0) = (docCount fid, totalLength fid) := by
  obtain ⟨hzero, hrow⟩ := h fid
  rw [hrow]
  split
  · next hnone => rw [hnone, hzero hnone]; rfl
  · rfl

/-- What `addField` does to what is counted of its field. -/
def addRow (_ : ℕ) (held : Option (ℕ × ℕ)) (len : ℕ) : Except Error (Option (ℕ × ℕ)) := do
  let (docCount, totalLength) := held.getD (0, 0)
  ensure (docCount + 1 < 256 ^ 4) (.arithmeticOverflow "bm25 field doc_count recompute")
  ensure (totalLength + len < 256 ^ 8) (.arithmeticOverflow "bm25 field total_length recompute")
  pure (some (docCount + 1, totalLength + len))

theorem addField_at (stats : OrderedMap ℕ (ℕ × ℕ)) (fid len : ℕ) :
    (addField stats (fid, len)).map (fun stats => stats[fid]?) =
      addRow fid stats[fid]? len := by
  simp only [addField, addRow, map_bind_except, map_pure_except,
    getElem?_insert_self]

theorem addField_other (stats : OrderedMap ℕ (ℕ × ℕ)) (fid len : ℕ)
    {stats' : OrderedMap ℕ (ℕ × ℕ)} {j : ℕ} (h : addField stats (fid, len) = .ok stats')
    (hne : j ≠ fid) : stats'[j]? = stats[j]? := by
  simp only [addField, bind_eq_ok, ensure_eq_ok, pure_eq_ok] at h
  obtain ⟨-, -, -, -, rfl⟩ := h
  simp [getElem?_insert, hne.symm]

/-- Whether a field is among some lengths. -/
def countedIn (lengths : OrderedMap ℕ ℕ) (fid : ℕ) : ℕ := if fid ∈ lengths then 1 else 0

/-- One document's fields counted again. -/
theorem Tallied.addFields {stats : OrderedMap ℕ (ℕ × ℕ)} {docCount totalLength : ℕ → ℕ}
    (h : Tallied stats docCount totalLength) (lengths : OrderedMap ℕ ℕ)
    (hfits : ∀ fid, docCount fid + countedIn lengths fid < 256 ^ 4 ∧
      totalLength fid + lengths[fid]?.getD 0 < 256 ^ 8) :
    ∃ stats', lengths.toList.foldlM addField stats = .ok stats' ∧
      Tallied stats' (fun fid => docCount fid + countedIn lengths fid)
        fun fid => totalLength fid + lengths[fid]?.getD 0 := by
  have hrow (fid len : ℕ) (hlen : lengths[fid]? = some len) : countedIn lengths fid = 1 ∧
      addRow fid stats[fid]? len = .ok (some (docCount fid + 1, totalLength fid + len)) := by
    have hone : countedIn lengths fid = 1 :=
      if_pos (mem_iff_isSome_getElem?.mpr (by rw [hlen]; rfl))
    have hfit := hfits fid
    rw [hone, hlen, getD_some] at hfit
    simp only [addRow, h.getD fid, bind_eq_ok, ensure_eq_ok, pure_eq_ok]
    exact ⟨hone, ⟨⟩, hfit.1, ⟨⟩, hfit.2, trivial⟩
  obtain ⟨stats', hstats'⟩ := exists_foldlM_at addField_at addField_other
    (m := lengths) fun fid len hlen => ⟨_, (hrow fid len hlen).2⟩
  refine ⟨stats', hstats', fun fid => ?_⟩
  have hat := foldlM_at addField_at addField_other hstats' fid
  cases hlen : lengths[fid]? with
  | some len =>
    rw [hlen] at hat
    obtain ⟨hone, hadd⟩ := hrow fid len hlen
    rw [← ok.inj (hadd.symm.trans hat)]
    simp only [hone, hlen]
    exact ⟨by simp, rfl⟩
  | none =>
    rw [hlen] at hat
    have hone : countedIn lengths fid = 0 := if_neg fun hmem => by
      have := mem_iff_isSome_getElem?.mp hmem
      rw [hlen] at this
      cases this
    rw [← ok.inj hat]
    simp only [hone, hlen]
    exact h fid

/-- The lengths a row of lengths holds. -/
def lengthsOf (raw : Bytes) : OrderedMap ℕ ℕ := (decodeFieldLengths raw).toOption.getD ∅

/-- **Rows counted again** come to their number, and to each field's counts. -/
theorem Recount.foldlM_eq (id : EntityId) (expected : OrderedMap ℕ ℕ) :
    ∀ (rows : List (EntityId × Bytes)) (start : Recount) {docCount totalLength : ℕ → ℕ},
    Tallied start.fieldStats docCount totalLength →
    (∀ row ∈ rows, decodeFieldLengths row.2 = .ok (lengthsOf row.2) ∧
      (row.1 = id → lengthsOf row.2 = expected)) →
    start.totalDocs + rows.length < 256 ^ 4 →
    (∀ fid, docCount fid + (rows.map fun row => countedIn (lengthsOf row.2) fid).sum < 256 ^ 4 ∧
      totalLength fid + (rows.map fun row => (lengthsOf row.2)[fid]?.getD 0).sum < 256 ^ 8) →
    ∃ final, rows.foldlM (add id expected) start = .ok final ∧
      final.totalDocs = start.totalDocs + rows.length ∧
      (start.sawDoc ∨ id ∈ rows.map Prod.fst → final.sawDoc) ∧
      Tallied final.fieldStats
        (fun fid => docCount fid + (rows.map fun row => countedIn (lengthsOf row.2) fid).sum)
        fun fid => totalLength fid + (rows.map fun row => (lengthsOf row.2)[fid]?.getD 0).sum
  | [], start, docCount, totalLength, h, _, _, _ => by
    exact ⟨start, rfl, rfl, by simp, by simpa using h⟩
  | row :: rows, start, docCount, totalLength, h, hrows, htotal, hfits => by
    rw [List.forall_mem_cons] at hrows
    simp only [List.map_cons, List.sum_cons, ← Nat.add_assoc, List.length_cons] at hfits htotal ⊢
    obtain ⟨⟨hdecode, hexpected⟩, hrest⟩ := hrows
    obtain ⟨stats, hstats, hnext⟩ := h.addFields (lengthsOf row.2) fun fid =>
      ⟨(Nat.le_add_right _ _).trans_lt (hfits fid).1, (Nat.le_add_right _ _).trans_lt (hfits fid).2⟩
    obtain ⟨final, hfinal, hcount, hsaw, htallied⟩ := foldlM_eq id expected rows
      ⟨start.sawDoc || row.1 = id, start.totalDocs + 1, stats⟩ hnext hrest
      (by simpa [Nat.add_right_comm, ← Nat.add_assoc] using htotal) hfits
    have hstep : add id expected start row =
        .ok ⟨start.sawDoc || row.1 = id, start.totalDocs + 1, stats⟩ := by
      simp only [add, bind_eq_ok, ensure_eq_ok, pure_eq_ok]
      exact ⟨_, hdecode, ⟨⟩, hexpected, ⟨⟩, by omega, stats, hstats, rfl⟩
    refine ⟨final, bind_eq_ok.mpr ⟨_, hstep, hfinal⟩, ?_, fun hseen => hsaw ?_, htallied⟩
    · rw [hcount]
      show start.totalDocs + 1 + rows.length = start.totalDocs + rows.length + 1
      omega
    · rcases hseen with hseen | hseen
      · exact Or.inl (by simp [hseen])
      · rcases List.mem_cons.mp hseen with rfl | hseen
        · exact Or.inl (by simp)
        · exact Or.inr hseen

namespace Indexes

/-- A row of lengths is some document's. -/
theorem exists_text (h : Indexes corpus lost idx) {raw : Bytes}
    (hrow : idx.textDocFieldLengths[id]? = some raw) :
    ∃ text, corpus[id]? = some text ∧ text.lengthsRow = raw := by
  rwa [h.fieldLengths, map_eq_some_iff] at hrow

theorem lengthsOf_lengthsRow (h : text.Filed id) :
    lengthsOf text.lengthsRow = text.analysis.perFieldLen := by
  rw [lengthsOf, h.decodeFieldLengths]
  rfl

/-- What is weighed of the rows of lengths is weighed of the documents. -/
theorem weigh_lengths (h : Indexes corpus lost idx) (w : OrderedMap ℕ ℕ → ℕ) :
    weigh (fun _ raw => w (lengthsOf raw)) idx.textDocFieldLengths =
      weigh (fun _ text => w text.analysis.perFieldLen) corpus := by
  refine weigh_eq_weigh _ fun id => ?_
  rw [weightAt, weightAt, h.fieldLengths]
  cases hin : corpus[id]? with
  | none => rfl
  | some text => exact congrArg w (lengthsOf_lengthsRow (h.filed id text hin))

theorem totalDocs_lt (h : Indexes corpus lost idx) : corpus.totalDocs < 256 ^ 4 := by
  have htotal := h.totalDocs
  unfold readTotalDocs at htotal
  cases hrow : idx.textMeta[totalDocsKey]? with
  | none =>
    rw [hrow] at htotal
    rw [← ok.inj htotal]
    norm_num
  | some raw =>
    rw [hrow] at htotal
    exact total_lt_of_decodeTotalDocs htotal

/-- **A document of the corpus is found counted**, whatever postings are lost. -/
theorem proveCounted_eq (h : Indexes corpus lost idx) (hin : corpus[id]? = some text) :
    proveCounted idx id text.analysis.perFieldLen = .ok ⟨⟩ := by
  have hcount (fid : ℕ) : (idx.textDocFieldLengths.toList.map fun row =>
      countedIn (lengthsOf row.2) fid).sum = corpus.docCount fid :=
    h.weigh_lengths fun lengths => countedIn lengths fid
  have hlength (fid : ℕ) : (idx.textDocFieldLengths.toList.map fun row =>
      (lengthsOf row.2)[fid]?.getD 0).sum = corpus.totalLength fid :=
    h.weigh_lengths fun lengths => lengths[fid]?.getD 0
  have htotal : idx.textDocFieldLengths.toList.length = corpus.totalDocs := by
    rw [Corpus.totalDocs, ← h.weigh_lengths fun _ => 1]
    simp [weigh]
  have hempty : Tallied ∅ (fun _ => 0) fun _ => 0 := fun fid => ⟨fun _ => rfl, by simp⟩
  have hrows (row : EntityId × Bytes) (hrow : row ∈ idx.textDocFieldLengths.toList) :
      decodeFieldLengths row.2 = .ok (lengthsOf row.2) ∧
        (row.1 = id → lengthsOf row.2 = text.analysis.perFieldLen) := by
    rw [mem_toList_iff_getElem?_eq_some] at hrow
    obtain ⟨text', hin', hraw⟩ := h.exists_text hrow
    have hfiled := h.filed row.1 text' hin'
    rw [← hraw, lengthsOf_lengthsRow hfiled]
    refine ⟨hfiled.decodeFieldLengths, ?_⟩
    rintro rfl
    rw [some.inj (hin.symm.trans hin')]
  obtain ⟨final, hfinal, hdocs, hsaw, htallied⟩ := foldlM_eq id text.analysis.perFieldLen
    idx.textDocFieldLengths.toList ⟨false, 0, ∅⟩ hempty hrows
    (by simpa [htotal] using h.totalDocs_lt)
    fun fid => by simpa only [hcount, hlength, Nat.zero_add] using h.fits fid
  simp only [hcount, hlength, Nat.zero_add] at htallied hdocs
  simp only [proveCounted, bind_eq_ok, ensure_eq_ok, forM_eq_ok]
  refine ⟨final, hfinal, ⟨⟩, hsaw (Or.inr ?_), _, h.totalDocs, ⟨⟩, by rw [hdocs, htotal],
    ⟨⟩, fun row hrow => ?_, fun row hrow => ⟨⟨⟩, ?_⟩⟩
  · refine List.mem_map.mpr ⟨(id, text.lengthsRow), ?_, rfl⟩
    rw [mem_toList_iff_getElem?_eq_some, h.fieldLengths, hin]
    rfl
  · -- a field counted again is as its row says
    rw [mem_toList_iff_getElem?_eq_some, (htallied row.1).2] at hrow
    split at hrow
    · cases hrow
    · exact ⟨_, h.readRow_eq row.1, some.inj hrow⟩
  · -- a field with a row is counted in
    rw [mem_toList_iff_getElem?_eq_some, h.fieldStats, statsRow] at hrow
    split at hrow
    · cases hrow
    · next hne =>
      rw [← some.inj hrow, mem_iff_isSome_getElem?, (htallied row.1).2,
        if_neg hne]
      exact ⟨by simp [spellFieldStats], rfl⟩

end Indexes

end Oneiron
