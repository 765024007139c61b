import Oneiron.Foundations.XxHash32
import Oneiron.Store.LeaseJournal

/-!
# Store/LeaseJournalSafety — no decision's time is lost to a crash

The last whole record of the file bounds every time this open covered, for as long as the committed
row does not (`Closes`, `Sound`).  An open that succeeds has read that record, so its bound reaches
the row before the file may be emptied.  Where the times covered only rise, so do the bounds through
the file (`Ordered`).
-/

namespace Oneiron

open List Option CrashFile XxHash32 LeaseStep LeaseVault

variable {xxh32 : Bytes → UInt32}

@[simp] theorem length_recordTag (body : Bytes) : (recordTag xxh32 body).length = 4 := by
  rw [recordTag, length_reverse, length_digits]

variable {fault : Option FileFault} {t : ℕ} {slots : List (List Cell)} {now : U64} {answer : Bool}
  {slot : List Cell} {after : JournalState} {file' : Option JournalFile} (bound : U64)

@[simp] theorem length_record : (record xxh32 bound).length = recordLen := by
  simp [record, leaseRecordMagic, recordLen, ascii]

/-- **A record reads as the bound it was written for.** -/
theorem parseRecord_record : parseRecord xxh32 (record xxh32 bound) = some bound := by
  have hbound : (digits 8 bound.val).reverse.length = 8 := by
    rw [length_reverse, length_digits]
  have hmagic : leaseRecordMagic.length = 4 := rfl
  have hbody : ((digits 8 bound.val).reverse ++ leaseRecordMagic).length = 12 := by
    rw [length_append, hbound, hmagic]
  have htake : (record xxh32 bound).take 12 = (digits 8 bound.val).reverse ++ leaseRecordMagic :=
    take_left' hbody
  have hdrop : (record xxh32 bound).drop 12 =
      recordTag xxh32 ((digits 8 bound.val).reverse ++ leaseRecordMagic) := drop_left' hbody
  have hmiddle : ((record xxh32 bound).drop 8).take 4 = leaseRecordMagic := by
    rw [record, append_assoc, drop_left' hbound, take_left' hmagic]
  have hfirst : (record xxh32 bound).take 8 = (digits 8 bound.val).reverse := by
    rw [record, append_assoc, take_left' hbound]
  have hlt : bound.val < 256 ^ 8 := Nat.lt_succ_of_le bound.le
  have hval : U64.ofNat (valueOf ((record xxh32 bound).take 8).reverse) = bound := by
    rw [hfirst, reverse_reverse, valueOf_digits hlt]
    exact U64.ext (Nat.min_eq_left bound.le)
  rw [parseRecord, if_neg, hval]
  rw [htake, hdrop, hmiddle, length_record]
  simp

/-! ### The bound read off the file -/

/-- The bound the append of a slot's bytes was writing. -/
def boundOf (slot : List Cell) : U64 := (slot.map Prod.snd).headD 0

@[simp] theorem boundOf_recordCells : boundOf (recordCells xxh32 bound) = bound := by
  have hlen : (record xxh32 bound).length = recordLen := length_record bound
  rw [boundOf, recordCells, List.map_map]
  generalize record xxh32 bound = bytes at hlen
  cases bytes with
  | nil => cases hlen
  | cons => rfl

@[simp] theorem readSlot_recordCells : readSlot xxh32 (recordCells xxh32 bound) = some bound := by
  rw [readSlot, recordCells, List.map_map]
  simp only [Function.comp_def, List.map_id']
  exact parseRecord_record bound

@[simp] theorem length_recordCells : (recordCells xxh32 bound).length = recordLen := by
  rw [recordCells, length_map, length_record]

/-- **An open that succeeds has read the last whole record, and its bound is no less.** -/
theorem journaledBound_last {bytes last : Bytes} {bound : U64}
    (h : journaledBound xxh32 (some bytes) = .ok bound)
    (hlast : (chunksExact recordLen bytes).getLast? = some last) :
    ∃ v, parseRecord xxh32 last = some v ∧ v.val ≤ bound.val := by
  obtain ⟨chunks, hchunks⟩ := getLast?_eq_some_iff.mp hlast
  rw [journaledBound, hchunks, foldl_concat] at h
  cases hread : parseRecord xxh32 last with
  | none => simp [scanChunk, hread] at h
  | some v =>
    simp only [scanChunk, hread, Bool.false_eq_true, if_false, Except.ok.injEq] at h
    refine ⟨v, rfl, ?_⟩
    rw [← h, U64.val_max]
    exact Nat.le_max_right ..

/-! ### What holds of the slots -/

/-- Each slot reads as the bound its append was writing, or not at all. -/
def ReadsTrue (xxh32 : Bytes → UInt32) (slots : List (List Cell)) : Prop :=
  ∀ slot ∈ slots, ∀ v, readSlot xxh32 slot = some v → v = boundOf slot

/-- The last record is past a time. -/
def Closes (t : ℕ) (slots : List (List Cell)) : Prop :=
  ∃ slot, slots.getLast? = some slot ∧ t ≤ (boundOf slot).val

/-- The bounds do not fall through the file. -/
def Rising (slots : List (List Cell)) : Prop :=
  slots.Pairwise fun slot later => (boundOf slot).val ≤ (boundOf later).val

abbrev Holds := CrashFile.Holds (α := Cell) recordLen

abbrev Keeps := CrashFile.Keeps (α := Cell) recordLen

theorem Closes.mono {u : ℕ} (hle : u ≤ t) : Closes t slots → Closes u slots
  | ⟨slot, hslot, ht⟩ => ⟨slot, hslot, hle.trans ht⟩

theorem closes_concat (h : t ≤ (boundOf slot).val) : Closes t (slots ++ [slot]) :=
  ⟨slot, getLast?_concat, h⟩

theorem ReadsTrue.concat (h : ReadsTrue xxh32 slots) (bound : U64) :
    ReadsTrue xxh32 (slots ++ [recordCells xxh32 bound]) := by
  intro slot hslot v hread
  rcases mem_append.mp hslot with hslot | hslot
  · exact h slot hslot v hread
  · obtain rfl := mem_singleton.mp hslot
    rw [readSlot_recordCells, some.injEq] at hread
    rw [boundOf_recordCells, hread]

theorem Rising.concat (h : Rising slots) (hle : ∀ s ∈ slots, (boundOf s).val ≤ (boundOf slot).val) :
    Rising (slots ++ [slot]) := by
  refine pairwise_append.mpr ⟨h, pairwise_singleton .., ?_⟩
  intro s hs s' hs'
  obtain rfl := mem_singleton.mp hs'
  exact hle s hs

abbrev JournalDamaged (xxh32 : Bytes → UInt32) :=
  CrashFile.Damaged recordLen (fun slot => (readSlot xxh32 slot).isSome) (Prod.snd : Cell → U64)

section Damage

variable {l l' : List Cell}

section

variable (h : JournalDamaged xxh32 l l')

include h

theorem map_boundOf_damaged :
    (chunksExact recordLen l').map boundOf = (chunksExact recordLen l).map boundOf := by
  have hnotes := congrArg (List.map fun bounds => bounds.headD 0) h.notes_slots
  rw [List.map_map, List.map_map] at hnotes
  exact hnotes

theorem ReadsTrue.damaged (hreads : ReadsTrue xxh32 (chunksExact recordLen l)) :
    ReadsTrue xxh32 (chunksExact recordLen l') := by
  intro slot hslot v hread
  refine hreads slot (h.mem_of_reads hslot ?_) v hread
  rw [hread]
  rfl

theorem Closes.damaged (hcloses : Closes t (chunksExact recordLen l)) :
    Closes t (chunksExact recordLen l') := by
  obtain ⟨slot, hslot, ht⟩ := hcloses
  have hlast := congrArg List.getLast? (map_boundOf_damaged h)
  rw [getLast?_map, getLast?_map, hslot, map_some, map_eq_some_iff] at hlast
  obtain ⟨slot', hslot', hbound⟩ := hlast
  exact ⟨slot', hslot', hbound ▸ ht⟩

theorem Rising.damaged (hrising : Rising (chunksExact recordLen l)) :
    Rising (chunksExact recordLen l') := by
  rw [Rising, ← pairwise_map (f := boundOf) (R := fun b c => b.val ≤ c.val)] at hrising ⊢
  rwa [map_boundOf_damaged h]

end

end Damage

/-- What a bound read at an open is past, where the slots read true. -/
theorem le_journaledBound {f : JournalFile} {bound : U64}
    (hread : journaledBound xxh32 (some (f.content.map Prod.fst)) = .ok bound)
    (htrue : ReadsTrue xxh32 (chunksExact recordLen f.content))
    (hcloses : Closes t (chunksExact recordLen f.content)) : t ≤ bound.val := by
  obtain ⟨slot, hslot, ht⟩ := hcloses
  have hlast : (chunksExact recordLen (f.content.map Prod.fst)).getLast? =
      some (slot.map Prod.fst) := by
    rw [chunksExact_map, getLast?_map, hslot, map_some]
  obtain ⟨v, hv, hle⟩ := journaledBound_last hread hlast
  rw [htrue slot (mem_of_getLast? hslot) v hv] at hle
  exact ht.trans hle

/-! ### The file under the calls -/

section Calls

variable {P : List (List Cell) → Prop} {file : Option JournalFile} {fault : Option FileFault}
variable {syncDir : Bool} {now : U64} {state : JournalState}

/-- The file a linked one leaves is linked. -/
def Linked (file : Option JournalFile) : Prop := Keeps (fun _ => True) file

/-- The bound a decision at `now` appends. -/
def boundAt (now : U64) : U64 := now.satAdd authorizationLeaseSecs

theorem le_boundAt (now : U64) : now.val ≤ (boundAt now).val := by
  exact Nat.le_min.mpr ⟨Nat.le_add_right .., now.le⟩

/-- **What a cover may do**: answer from what it synced, fail to open, fail to append, or append and
sync. -/
theorem cover_cases (h : cover xxh32 fault now state file = (answer, after, file')) :
    (now.val ≤ state.covered.val ∧ answer = true ∧ after = state ∧ file' = file) ∨
    (state.covered.val < now.val ∧ ∃ opened : Except (Option JournalFile) JournalFile,
      CrashFile.openForAppend recordLen fault (!state.dirSynced) file = opened ∧
      ((answer = false ∧ after = state ∧ opened = .error file') ∨
       ∃ f g, opened = .ok f ∧ file' = some g ∧
        f.appendSynced fault (recordCells xxh32 (boundAt now)) = (answer, g) ∧
        after = if answer then ⟨true, boundAt now, true⟩ else { state with dirSynced := true })) := by
  rw [cover] at h
  by_cases hle : now.val ≤ state.covered.val
  · rw [if_pos hle] at h
    cases h
    exact Or.inl ⟨hle, rfl, rfl, rfl⟩
  rw [if_neg hle] at h
  refine Or.inr ⟨by omega, _, rfl, ?_⟩
  cases hopened : CrashFile.openForAppend recordLen fault (!state.dirSynced) file with
  | error left =>
    rw [hopened] at h
    cases h
    exact Or.inl ⟨rfl, rfl, rfl⟩
  | ok f =>
    rw [hopened] at h
    rcases happended : f.appendSynced fault (recordCells xxh32 (boundAt now)) with ⟨answered, g⟩
    rw [boundAt] at happended
    simp only [happended] at h
    cases answered <;> cases h <;> exact Or.inr ⟨f, _, rfl, rfl, happended, rfl⟩

/-- What a cover keeps of the slots, whatever comes of it. -/
theorem cover_holds (h : cover xxh32 fault now state file = (answer, after, file'))
    (hP : Holds P file) (hnil : P []) (hconcat : state.covered.val < now.val →
      (answer = true ∧ after.covered = boundAt now ∨
        answer = false ∧ fault.any (·.atAppend) = true) →
      ∀ slots, P slots → P (slots ++ [recordCells xxh32 (boundAt now)])) : Holds P file' := by
  rcases cover_cases h with ⟨-, -, -, rfl⟩ | ⟨hlt, opened, hopened, hr⟩
  · exact hP
  have hleft : Holds P (CrashFile.leftBy opened) := by
    rw [← hopened]
    exact openForAppend_holds _ _ (by decide) hP hnil
  rcases hr with ⟨-, -, rfl⟩ | ⟨f, g, rfl, rfl, happended, rfl⟩
  · exact hleft
  have hf : f.AtCrash recordLen P := hleft f rfl
  have hdvd := (openForAppend_ok (by decide) hopened).1
  have hcame : answer = true ∧ JournalState.covered
      (if answer then ⟨true, boundAt now, true⟩ else { state with dirSynced := true }) =
        boundAt now ∨ answer = false ∧ fault.any (·.atAppend) = true := by
    rcases appendSynced_cases fault (recordCells xxh32 (boundAt now)) f with ⟨hanswer, hfault, -⟩ | ⟨hanswer, -⟩ <;>
      rw [happended] at hanswer <;> obtain rfl := hanswer
    · exact Or.inr ⟨rfl, hfault⟩
    · exact Or.inl ⟨rfl, rfl⟩
  have hrecord := hconcat hlt hcame _ hf.content
  rintro g' ⟨⟩
  have happend := hf.appendSynced fault (by decide) hdvd
    (length_recordCells (boundAt now)) hrecord
  rw [happended] at happend
  exact happend

end Calls

/-! ### What was covered stays covered -/

section Sound

/-- Of an open at work: each time it covered is at or below the row or `covered`, and `covered` is at
or below the row or the last record. -/
structure Covers (row : ClockRow) (file : Option JournalFile) (taken : List U64)
    (state : JournalState) : Prop where
  taken : ∀ t ∈ taken, t.val ≤ row.high ∨ t.val ≤ state.covered.val
  covered : state.covered.val ≤ row.high ∨ Keeps (Closes state.covered.val) file
  linked : state.dirSynced = true → Linked file

/-- What each stage of an open has made of the times covered before it. -/
def OpeningSound (s : LeaseVault) : Opening → Prop
  | .closed => True
  | .replayed bound => ∀ t ∈ s.taken, t.val ≤ s.row.high ∨ t.val ≤ bound.val
  | .committed => ∀ t ∈ s.taken, t.val ≤ s.row.high
  | .live state => Covers s.row s.file s.taken state

/-- **Every time covered is at or below the committed row, or the file's last record.** -/
structure Sound (xxh32 : Bytes → UInt32) (s : LeaseVault) : Prop where
  reads : Holds (ReadsTrue xxh32) s.file
  guarded : ∀ t ∈ s.taken, t.val ≤ s.row.high ∨ Keeps (Closes t.val) s.file
  opening : OpeningSound s s.opening

variable {row row' : ClockRow} {file : Option JournalFile} {taken : List U64}
variable {state : JournalState} {s s' : LeaseVault} {move : LeaseMove}

theorem Covers.guarded (h : Covers row file taken state) :
    ∀ t ∈ taken, t.val ≤ row.high ∨ Keeps (Closes t.val) file := by
  intro t ht
  rcases h.taken t ht with hrow | hcovered
  · exact Or.inl hrow
  · rcases h.covered with hrow | hkeeps
    · exact Or.inl (hcovered.trans hrow)
    · exact Or.inr (hkeeps.mono fun _ => Closes.mono hcovered)

theorem Covers.raised (h : Covers row file taken state) (hle : row.high ≤ row'.high) :
    Covers row' file taken state where
  taken t ht := (h.taken t ht).imp_left (·.trans hle)
  covered := h.covered.imp_left (·.trans hle)
  linked := h.linked

/-- A fresh open of a journal whose bounds the row holds. -/
theorem covers_default (h : ∀ t ∈ taken, t.val ≤ row.high) : Covers row file taken default where
  taken t ht := Or.inl (h t ht)
  covered := Or.inl (Nat.zero_le _)
  linked := nofun

/-- A later row holds as much. -/
theorem Sound.raised (h : Sound xxh32 s) (hle : s.row.high ≤ row.high) :
    Sound xxh32 { s with row := row } where
  reads := h.reads
  guarded t ht := (h.guarded t ht).imp_left (·.trans hle)
  opening := by
    have hopening := h.opening
    cases hphase : s.opening <;> rw [hphase] at hopening
    · trivial
    · exact fun t ht => (hopening t ht).imp_left (·.trans hle)
    · exact fun t ht => (hopening t ht).trans hle
    · exact Covers.raised hopening hle

theorem high_le_raised {floor : U64} (h : row.floor.val ≤ floor.val) :
    row.high ≤ ClockRow.high { row with floor := floor } := max_le_max_right _ h

theorem high_le_renewed (h : row.floor.val ≤ now.val) : row.high ≤ (row.renewed now).high := by
  refine max_le_max h ?_
  rw [ClockRow.renewed]
  split
  · exact le_rfl
  · exact le_trans (by omega) (le_boundAt now)

theorem high_le_replayed (row : ClockRow) (bound : U64) :
    row.high ≤ (row.replayed bound).high ∧ bound.val ≤ (row.replayed bound).floor.val := by
  rw [ClockRow.replayed]
  split
  next hlt => exact ⟨max_le_max_right _ hlt.le, le_rfl⟩
  next hle => exact ⟨le_rfl, not_lt.mp hle⟩

/-- **A cover that answers true has synced a record past its time, or had.** -/
theorem Covers.cover (h : Covers row file taken state)
    (hcover : cover xxh32 fault now state file = (answer, after, file')) :
    Covers row file' (if answer then now :: taken else taken) after := by
  rcases cover_cases hcover with ⟨hle, rfl, rfl, rfl⟩ | ⟨hlt, opened, hopened, hr⟩
  · refine { h with taken := forall_mem_cons.mpr ⟨Or.inr hle, h.taken⟩ }
  have hleft {P : List (List Cell) → Prop} (hP : Keeps P file) :
      Keeps P (CrashFile.leftBy opened) := by
    rw [← hopened]
    exact openForAppend_keeps _ _ (by decide) hP
  rcases hr with ⟨rfl, rfl, rfl⟩ | ⟨f, g, rfl, rfl, happended, rfl⟩
  · exact ⟨h.taken, h.covered.imp_right hleft, fun hsynced => hleft (h.linked hsynced)⟩
  obtain ⟨hdvd, hlinked⟩ := openForAppend_ok (by decide) hopened
  have hlinked : g.linked = true := by
    have hsame := linked_appendSynced fault (recordCells xxh32 (boundAt now)) f
    rw [happended] at hsame
    rw [hsame]
    refine hlinked ?_
    cases hsynced : state.dirSynced
    · exact Or.inl rfl
    · exact Or.inr (h.linked hsynced)
  have hcloses : Closes (boundAt now).val
      (chunksExact recordLen f.content ++ [recordCells xxh32 (boundAt now)]) :=
    closes_concat (by rw [boundOf_recordCells])
  have hle : state.covered.val ≤ (boundAt now).val := hlt.le.trans (le_boundAt now)
  cases answer with
  | false =>
    refine ⟨h.taken, h.covered.imp_right fun hkeeps => ?_, fun _ => ⟨_, rfl, hlinked, fun _ _ => trivial⟩⟩
    obtain ⟨f', hf', -, hf⟩ := hleft hkeeps
    obtain rfl := some.inj hf'
    have happend := hf.appendSynced fault (by decide) hdvd (length_recordCells _)
      (hcloses.mono hle)
    rw [happended] at happend
    exact ⟨g, rfl, hlinked, happend⟩
  | true =>
    have hsynced := CrashFile.AtCrash.of_appendSynced fault (by decide) hdvd
      (length_recordCells _) (by rw [happended]) hcloses
    rw [happended] at hsynced
    refine ⟨forall_mem_cons.mpr ⟨Or.inr (le_boundAt now), fun t ht => ?_⟩,
      Or.inr ⟨g, rfl, hlinked, hsynced⟩, fun _ => ⟨g, rfl, hlinked, fun _ _ => trivial⟩⟩
    exact (h.taken t ht).imp_right fun htaken => htaken.trans hle

variable {failed : Bool} {leased : U64}

/-- A truncate leaves the file as it is, or whatever a crash leaves of it empty or as it was. -/
theorem truncate_holds {P : List (List Cell) → Prop} (h : truncate failed file = some file')
    (hP : Holds P file) (hnil : P []) : Holds P file' := by
  rw [truncate] at h
  split at h
  · cases h
  obtain rfl := some.inj h
  cases file with
  | none => nofun
  | some f =>
    rintro g ⟨⟩
    refine (hP f rfl).setLen ?_
    rw [take_zero, chunksExact_of_short (by decide)]
    exact hnil

theorem truncate_linked (h : truncate failed file = some file') : Linked file → Linked file' := by
  rintro ⟨f, rfl, hlinked, -⟩
  rw [truncate] at h
  split at h
  · cases h
  obtain rfl := some.inj h
  exact ⟨_, rfl, hlinked, fun _ _ => trivial⟩

/-- What a settle may do: nothing, or empty a journal whose bounds the lease is past. -/
theorem settle_cases (h : settle failed leased state file = (after, file')) :
    (after = state ∧ file' = file) ∨
      (state.covered.val ≤ leased.val ∧ after = { state with owed := false } ∧
        truncate failed file = some file') := by
  rw [settle] at h
  split at h
  · cases h
    exact Or.inl ⟨rfl, rfl⟩
  next hdue =>
    cases htruncate : truncate failed file with
    | none =>
      rw [htruncate] at h
      cases h
      exact Or.inl ⟨rfl, rfl⟩
    | some emptied =>
      rw [htruncate] at h
      cases h
      exact Or.inr ⟨by omega, rfl, rfl⟩

theorem settle_holds {P : List (List Cell) → Prop}
    (h : settle failed leased state file = (after, file')) (hP : Holds P file) (hnil : P []) :
    Holds P file' := by
  rcases settle_cases h with ⟨-, rfl⟩ | ⟨-, -, htruncate⟩
  · exact hP
  · exact truncate_holds htruncate hP hnil

theorem Covers.settle {failed : Bool} {leased : U64} {after : JournalState}
    {file' : Option JournalFile} (h : Covers row file taken state)
    (hleased : leased.val ≤ row.lease.val)
    (hsettle : settle failed leased state file = (after, file')) :
    Covers row file' taken after := by
  rcases settle_cases hsettle with ⟨rfl, rfl⟩ | ⟨hle, rfl, htruncate⟩
  · exact h
  · have hrow : state.covered.val ≤ row.high := (hle.trans hleased).trans (Nat.le_max_right ..)
    exact ⟨h.taken, Or.inl hrow, fun hsynced => truncate_linked htruncate (h.linked hsynced)⟩

theorem readsTrue_nil : ReadsTrue xxh32 [] := nofun

/-- **Every step keeps what was covered covered.** -/
theorem Sound.step (h : Sound xxh32 s) (hstep : LeaseStep xxh32 s move s') : Sound xxh32 s' := by
  have hopening := h.opening
  cases hstep with
  | @openEmpty bound hphase hread hzero =>
    refine { reads := h.reads, guarded := h.guarded, opening := covers_default fun t ht => ?_ }
    rcases h.guarded t ht with hrow | ⟨f, hf, -, hcloses⟩
    · exact hrow
    · rw [bytes, hf] at hread
      have hle := le_journaledBound hread (h.reads f hf).content hcloses.content
      rw [hzero] at hle
      exact hle.trans (Nat.zero_le _)
  | @openReplayed bound hphase hread hne =>
    refine { reads := h.reads, guarded := h.guarded, opening := fun t ht => ?_ }
    refine (h.guarded t ht).imp_right fun ⟨f, hf, _, hcloses⟩ => ?_
    rw [bytes, hf] at hread
    exact le_journaledBound hread (h.reads f hf).content hcloses.content
  | @commitBound bound hphase =>
    rw [hphase] at hopening
    obtain ⟨hhigh, hbound⟩ := high_le_replayed s.row bound
    have hcommitted : ∀ t ∈ s.taken, t.val ≤ (s.row.replayed bound).high := by
      intro t ht
      rcases hopening t ht with hrow | hle
      · exact hrow.trans hhigh
      · exact (hle.trans hbound).trans (Nat.le_max_left ..)
    exact { reads := h.reads, guarded := fun t ht => Or.inl (hcommitted t ht), opening := hcommitted }
  | truncateAfterReplay failed hphase =>
    rw [hphase] at hopening
    refine
      { reads := ?_
        guarded := fun t ht => Or.inl (hopening t ht)
        opening := covers_default hopening }
    cases htruncate : truncate failed s.file with
    | none => exact h.reads
    | some emptied => exact truncate_holds htruncate h.reads readsTrue_nil
  | cover fault now hphase hcover =>
    rw [hphase] at hopening
    have hcovers := Covers.cover hopening hcover
    exact
      { reads := cover_holds hcover h.reads readsTrue_nil fun _ _ _ hslots => hslots.concat _
        guarded := hcovers.guarded
        opening := hcovers }
  | raise floor hfloor => exact h.raised (high_le_raised hfloor)
  | renew now hnow => exact h.raised (high_le_renewed hnow)
  | settle failed leased hphase hleased hsettle =>
    rw [hphase] at hopening
    have hcovers := Covers.settle hopening hleased hsettle
    exact
      { reads := settle_holds hsettle h.reads readsTrue_nil
        guarded := hcovers.guarded
        opening := hcovers }
  | crash hcrash =>
    exact
      { reads := hcrash.holds h.reads fun _ _ => ReadsTrue.damaged
        guarded := fun t ht => (h.guarded t ht).imp_right fun hkeeps =>
          hcrash.keeps hkeeps fun _ _ => Closes.damaged
        opening := trivial }

theorem sound_fresh : Sound xxh32 fresh where
  reads := nofun
  guarded := nofun
  opening := trivial

end Sound

/-! ### Bounds rise through the file where the times covered do -/

section Ordered

/-- A cover asked at or past the committed floor, and every time at which an append of this open
failed. -/
def Onward (s : LeaseVault) : LeaseMove → Prop
  | .cover _ now => s.row.floor.val ≤ now.val ∧ ∀ t ∈ s.refused, t.val ≤ now.val
  | _ => True

/-- What an open at work may have left in the file: a bound the row holds, one it synced, or one whose
append failed. -/
def LeftAt (row : ClockRow) (state : JournalState) (refused : List U64) (bound : U64) : Prop :=
  bound.val ≤ row.floor.val ∨ bound.val ≤ state.covered.val ∨
    ∃ t ∈ refused, bound.val ≤ (boundAt t).val

/-- Something of every bound in the file. -/
abbrev EachBound (P : U64 → Prop) : Option JournalFile → Prop :=
  Holds fun slots => ∀ slot ∈ slots, P (boundOf slot)

/-- A file with nothing pending, as an open finds it. -/
def Settled (file : Option JournalFile) : Prop := ∀ f ∈ file, f.pending = []

/-- What bounds the records each stage of an open leaves. -/
def OpeningOrdered (s : LeaseVault) : Opening → Prop
  | .closed => Settled s.file
  | .replayed bound => EachBound (·.val ≤ bound.val) s.file
  | .committed => EachBound (·.val ≤ s.row.floor.val) s.file
  | .live state => EachBound (LeftAt s.row state s.refused) s.file

/-- **The bounds in the file rise, and none is past what the next cover is asked for.** -/
structure Ordered (xxh32 : Bytes → UInt32) (s : LeaseVault) : Prop where
  reads : Holds (ReadsTrue xxh32) s.file
  rising : Holds Rising s.file
  opening : OpeningOrdered s s.opening

variable {s s' : LeaseVault} {move : LeaseMove} {row row' : ClockRow} {state : JournalState}
variable {refused : List U64} {file : Option JournalFile} {P Q : U64 → Prop}

theorem EachBound.mono (h : EachBound P file) (hPQ : ∀ bound, P bound → Q bound) :
    EachBound Q file :=
  fun f hf => (h f hf).mono fun _ hall slot hslot => hPQ _ (hall slot hslot)

/-- **In a file whose bounds rise, what is read at an open is past them all.** -/
theorem eachBound_journaledBound {bound : U64}
    (hread : journaledBound xxh32 (file.map fun f => f.content.map Prod.fst) = .ok bound)
    (hsettled : Settled file) (htrue : Holds (ReadsTrue xxh32) file) (hrising : Holds Rising file) :
    EachBound (·.val ≤ bound.val) file := by
  rintro f ⟨⟩ l hl slot hslot
  obtain rfl : l = f.content := by
    rw [survives_synced (hsettled f rfl) hl, CrashFile.content, hsettled f rfl,
      foldl_nil]
  have hrising := (hrising f rfl).content
  obtain ⟨slots, last, heq⟩ :=
    (eq_nil_or_concat (chunksExact recordLen f.content)).resolve_left (ne_nil_of_mem hslot)
  rw [concat_eq_append] at heq
  refine le_journaledBound hread (htrue f rfl).content ⟨last, by rw [heq, getLast?_concat], ?_⟩
  rw [heq, Rising, pairwise_append] at hrising
  rw [heq] at hslot
  rcases mem_append.mp hslot with hslot | hslot
  · exact hrising.2.2 slot hslot last mem_cons_self
  · obtain rfl := mem_singleton.mp hslot
    exact le_rfl

theorem forall_boundOf_concat (h : ∀ s ∈ slots, P (boundOf s)) (hslot : P (boundOf slot)) :
    ∀ s ∈ slots ++ [slot], P (boundOf s) :=
  forall_mem_append.mpr ⟨h, forall_mem_singleton.mpr hslot⟩

/-- The bound of an onward cover is past every bound left in the file. -/
theorem LeftAt.le_boundAt {bound : U64} (h : LeftAt row state refused bound)
    (hfloor : row.floor.val ≤ now.val) (hrefused : ∀ t ∈ refused, t.val ≤ now.val)
    (hcovered : state.covered.val < now.val) : bound.val ≤ (boundAt now).val := by
  rcases h with hle | hle | ⟨t, ht, hle⟩
  · exact (hle.trans hfloor).trans (Oneiron.le_boundAt now)
  · exact (hle.trans hcovered.le).trans (Oneiron.le_boundAt now)
  · refine hle.trans ?_
    exact min_le_min_right _ (Nat.add_le_add_right (hrefused t ht) _)

/-- A cover leaves a bound it synced or failed to append. -/
theorem LeftAt.cover (h : EachBound (LeftAt row state refused) file)
    (hcover : cover xxh32 fault now state file = (answer, after, file')) :
    EachBound (LeftAt row after
      (if !answer && fault.any (·.atAppend) then now :: refused else refused)) file' := by
  have hnil : ∀ slot ∈ ([] : List (List Cell)), LeftAt row after
      (if !answer && fault.any (·.atAppend) then now :: refused else refused) (boundOf slot) := nofun
  have hgrown : ∀ bound, LeftAt row state refused bound → LeftAt row after
      (if !answer && fault.any (·.atAppend) then now :: refused else refused) bound := by
    have hcovered : state.covered.val ≤ after.covered.val := by
      rcases cover_cases hcover with
        ⟨-, -, rfl, -⟩ | ⟨hlt, opened, -, ⟨-, rfl, -⟩ | ⟨f, g, -, -, -, rfl⟩⟩
      · exact le_rfl
      · exact le_rfl
      · cases answer
        · exact le_rfl
        · exact hlt.le.trans (Oneiron.le_boundAt now)
    rintro bound (hle | hle | ⟨t, ht, hle⟩)
    · exact Or.inl hle
    · exact Or.inr (Or.inl (hle.trans hcovered))
    · refine Or.inr (Or.inr ⟨t, ?_, hle⟩)
      split
      · exact mem_cons_of_mem _ ht
      · exact ht
  refine cover_holds hcover (h.mono hgrown) hnil fun _ happended slots hslots => ?_
  refine forall_boundOf_concat hslots ?_
  rw [boundOf_recordCells]
  rcases happended with ⟨-, hcovered⟩ | ⟨rfl, hfault⟩
  · exact Or.inr (Or.inl (by rw [hcovered]))
  · refine Or.inr (Or.inr ⟨now, ?_, le_rfl⟩)
    rw [hfault]
    exact mem_cons_self

/-- **An onward cover keeps the bounds rising.** -/
theorem Rising.cover (hrising : Holds Rising file)
    (hleft : EachBound (LeftAt row state refused) file) (hfloor : row.floor.val ≤ now.val)
    (hrefused : ∀ t ∈ refused, t.val ≤ now.val)
    (hcover : Oneiron.cover xxh32 fault now state file = (answer, after, file')) :
    Holds Rising file' := by
  have hboth : Holds (fun slots => Rising slots ∧ (state.covered.val < now.val →
      ∀ slot ∈ slots, (boundOf slot).val ≤ (boundAt now).val)) file := fun f hf l hl =>
    ⟨hrising f hf l hl, fun hlt slot hslot =>
      (hleft f hf l hl slot hslot).le_boundAt hfloor hrefused hlt⟩
  have hafter := cover_holds hcover hboth ⟨List.Pairwise.nil, nofun⟩ fun hlt _ slots hslots =>
    ⟨hslots.1.concat (by rw [boundOf_recordCells]; exact hslots.2 hlt),
      fun _ => forall_boundOf_concat (P := fun c => c.val ≤ (boundAt now).val) (hslots.2 hlt)
        (by rw [boundOf_recordCells])⟩
  exact fun f hf => (hafter f hf).mono fun _ h => h.1

theorem LeftAt.raised (h : EachBound (LeftAt row state refused) file)
    (hle : row.floor.val ≤ row'.floor.val) : EachBound (LeftAt row' state refused) file :=
  EachBound.mono h fun _ hbound => hbound.imp_left (·.trans hle)

/-- A later floor bounds as much. -/
theorem Ordered.raised (h : Ordered xxh32 s) (hle : s.row.floor.val ≤ row.floor.val) :
    Ordered xxh32 { s with row := row } where
  reads := h.reads
  rising := h.rising
  opening := by
    have hopening := h.opening
    cases hphase : s.opening <;> rw [hphase] at hopening
    · exact hopening
    · exact hopening
    · have hfloor : EachBound (·.val ≤ s.row.floor.val) s.file := hopening
      exact hfloor.mono fun _ hbound => hbound.trans hle
    · exact LeftAt.raised hopening hle

/-- **Every onward step keeps the bounds rising.** -/
theorem Ordered.step (h : Ordered xxh32 s) (hstep : LeaseStep xxh32 s move s')
    (honward : Onward s move) : Ordered xxh32 s' := by
  have hopening := h.opening
  cases hstep with
  | @openEmpty bound hphase hread hzero =>
    rw [hphase] at hopening
    have hbounds := eachBound_journaledBound hread hopening h.reads h.rising
    refine { reads := h.reads, rising := h.rising, opening := ?_ }
    refine hbounds.mono fun c hc => Or.inl ?_
    rw [hzero] at hc
    exact hc.trans (Nat.zero_le _)
  | @openReplayed bound hphase hread hne =>
    rw [hphase] at hopening
    have hbounds := eachBound_journaledBound hread hopening h.reads h.rising
    exact { reads := h.reads, rising := h.rising, opening := hbounds }
  | @commitBound bound hphase =>
    rw [hphase] at hopening
    have hread : EachBound (·.val ≤ bound.val) s.file := hopening
    have hbound := (high_le_replayed s.row bound).2
    exact
      { reads := h.reads
        rising := h.rising
        opening := hread.mono fun _ hc => hc.trans hbound }
  | truncateAfterReplay failed hphase =>
    rw [hphase] at hopening
    have hfloor : EachBound (·.val ≤ s.row.floor.val) s.file := hopening
    have hleft : EachBound (LeftAt s.row default []) s.file := hfloor.mono fun _ hc => Or.inl hc
    cases htruncate : truncate failed s.file with
    | none => exact { reads := h.reads, rising := h.rising, opening := hleft }
    | some emptied =>
      exact
        { reads := truncate_holds htruncate h.reads readsTrue_nil
          rising := truncate_holds htruncate h.rising List.Pairwise.nil
          opening := truncate_holds htruncate hleft nofun }
  | cover fault now hphase hcover =>
    rw [hphase] at hopening
    exact
      { reads := cover_holds hcover h.reads readsTrue_nil fun _ _ _ hslots => hslots.concat _
        rising := Rising.cover h.rising hopening honward.1 honward.2 hcover
        opening := LeftAt.cover hopening hcover }
  | raise floor hfloor => exact h.raised hfloor
  | renew now hnow => exact h.raised hnow
  | @settle state after file failed leased hphase hleased hsettle =>
    rw [hphase] at hopening
    have hleft := settle_holds hsettle hopening nofun
    refine
      { reads := settle_holds hsettle h.reads readsTrue_nil
        rising := settle_holds hsettle h.rising List.Pairwise.nil
        opening := ?_ }
    rcases settle_cases hsettle with ⟨rfl, -⟩ | ⟨-, rfl, -⟩
    · exact hleft
    · exact hleft
  | crash hcrash =>
    exact
      { reads := hcrash.holds h.reads fun _ _ => ReadsTrue.damaged
        rising := hcrash.holds h.rising fun _ _ => Rising.damaged
        opening := hcrash.pending }

theorem ordered_fresh : Ordered xxh32 fresh where
  reads := nofun
  rising := nofun
  opening := nofun

end Ordered

/-! ### The journal's promise -/

/-- A time is no later than the committed row or the bound an open reads. -/
def Bounded (s : LeaseVault) (bound t : U64) : Prop :=
  t.val ≤ s.row.floor.val ∨ t.val ≤ s.row.lease.val ∨ t.val ≤ bound.val

/-- The bounds of the file's whole records rise, and each that reads bounds those before it. -/
def BoundsRise (xxh32 : Bytes → UInt32) (s : LeaseVault) : Prop :=
  ∀ f ∈ s.file, (chunksExact recordLen f.content).Pairwise fun slot later =>
    (boundOf slot).val ≤ (boundOf later).val ∧
      ∀ v, readSlot xxh32 later = some v → (boundOf slot).val ≤ v.val

/-- **No decision's time is lost to a crash**: whenever the journal's bound reads, each time covered is
at or below the committed floor or lease or that bound; and where covers are asked onward, a record
bounds every whole record before it, whether or not it reads. -/
theorem lease_journal_covers (xxh32 : Bytes → UInt32) :
    (∀ s bound, (leaseSystem xxh32).Reachable s → journaledBound xxh32 s.bytes = .ok bound →
      ∀ t ∈ s.taken, Bounded s bound t) ∧
    ∀ s, ((leaseSystem xxh32).restrict Onward).Reachable s → BoundsRise xxh32 s := by
  constructor
  · intro s bound hs hread t ht
    have hsound : Sound xxh32 s :=
      hs.invariant (Sound xxh32) (by rintro _ rfl; exact sound_fresh) fun h hstep => h.step hstep
    rcases hsound.guarded t ht with hrow | ⟨f, hf, -, hcloses⟩
    · rcases le_max_iff.mp hrow with hfloor | hlease
      · exact Or.inl hfloor
      · exact Or.inr (Or.inl hlease)
    · rw [bytes, hf] at hread
      exact Or.inr (Or.inr (le_journaledBound hread (hsound.reads f hf).content hcloses.content))
  · intro s hs f hf
    have hordered : Ordered xxh32 s :=
      hs.invariant (Ordered xxh32) (by rintro _ rfl; exact ordered_fresh)
        fun {s label t} h (hstep : LeaseStep xxh32 s label t ∧ Onward s label) =>
          h.step hstep.1 hstep.2
    have htrue := (hordered.reads f hf).content
    refine ((hordered.rising f hf).content).imp_of_mem fun {slot later} _ hlater hle => ?_
    refine ⟨hle, fun v hread => ?_⟩
    rw [htrue later hlater v hread]
    exact hle

section Runs

/-- A decision at 100, a crash before its renewal, and the bound 105 the next open reads. -/
theorem lease_journal_covers_crash : ∃ s, journaledBound hash s.bytes = .ok 105 ∧
    100 ∈ s.taken ∧ Bounded s 105 100 ∧ BoundsRise hash s := by
  let cells := recordCells hash 105
  let covered : LeaseVault := ⟨some ⟨true, cells, []⟩, ⟨0, 0⟩, .live ⟨true, 105, true⟩, [100], []⟩
  let crashed : LeaseVault := ⟨some ⟨true, cells, []⟩, ⟨0, 0⟩, .closed, [100], []⟩
  have hundamaged : JournalDamaged hash cells cells :=
    ⟨rfl, forall₂_same.mpr fun _ _ => Or.inl rfl⟩
  have hcrash : LeaseStep hash covered .crash crashed :=
    .crash (.kept (.whole 0) hundamaged)
  have hs : (leaseSystem hash).Reachable crashed := by
    have hfresh : (leaseSystem hash).Reachable fresh := .start rfl
    have hopen := hfresh.step (openEmpty rfl rfl rfl)
    have hcovered := hopen.step (LeaseStep.cover none 100 rfl rfl)
    exact hcovered.step hcrash
  have honward : ((leaseSystem hash).restrict Onward).Reachable crashed := by
    have hfresh : ((leaseSystem hash).restrict Onward).Reachable fresh := .start rfl
    have hnext {s t : LeaseVault} {move : LeaseMove} (hstep : LeaseStep hash s move t)
        (hmove : Onward s move) (hs : ((leaseSystem hash).restrict Onward).Reachable s) :
        ((leaseSystem hash).restrict Onward).Reachable t := hs.step ⟨hstep, hmove⟩
    have hopen := hnext (openEmpty rfl rfl rfl) trivial hfresh
    have hcovered := hnext (LeaseStep.cover none 100 rfl rfl) ⟨by decide, by decide⟩ hopen
    exact hnext hcrash trivial hcovered
  have hread : journaledBound hash crashed.bytes = .ok 105 := by decide +kernel
  exact ⟨crashed, hread, mem_cons_self,
    (lease_journal_covers hash).1 crashed 105 hs hread 100 mem_cons_self,
    (lease_journal_covers hash).2 crashed honward⟩

/-- **The committed floor alone does not bound them, and without onward covers the bounds fall**: a
lease of 105 covers a decision at 103 over a floor of 100; an append that failed at 20 stands before
one at 10. -/
theorem lease_journal_floor_alone :
    (¬∀ s bound, (leaseSystem hash).Reachable s →
      journaledBound hash s.bytes = .ok bound →
      ∀ t ∈ s.taken, t.val ≤ s.row.floor.val ∨ t.val ≤ bound.val) ∧
    ¬∀ s, (leaseSystem hash).Reachable s → BoundsRise hash s := by
  have hfresh : (leaseSystem hash).Reachable fresh := .start rfl
  have hopen := hfresh.step (openEmpty rfl rfl rfl)
  constructor
  · intro h
    have hcovered := hopen.step (LeaseStep.cover none 100 rfl rfl)
    have hrenewed := hcovered.step (renew 100 (by decide))
    have hunderLease := hrenewed.step (LeaseStep.cover none 103 rfl rfl)
    have hsettled := hunderLease.step (LeaseStep.settle false 105 rfl (by decide) rfl)
    have hundamaged : JournalDamaged hash [] [] := ⟨rfl, .nil⟩
    have hcrashed := hsettled.step (crash (.kept (.whole 1) hundamaged))
    have hbad := h _ 0 hcrashed rfl 103 mem_cons_self
    revert hbad
    decide
  · intro h
    have hfailed := hopen.step (LeaseStep.cover (some .sync) 20 rfl rfl)
    have hcovered := hfailed.step (LeaseStep.cover none 10 rfl rfl)
    have hbad := h _ hcovered _ rfl
    have hfalls := hbad.imp fun {slot later} (hle : (boundOf slot).val ≤ (boundOf later).val ∧
      ∀ v, readSlot hash later = some v → (boundOf slot).val ≤ v.val) => hle.1
    revert hfalls
    decide +kernel

end Runs

end Oneiron
