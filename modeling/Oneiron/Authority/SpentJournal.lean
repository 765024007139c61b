import Oneiron.Authority.SpentNonces

/-!
# Authority/SpentJournal — what the spend journal holds of a proof, whatever a crash leaves

A proof is `Logged` where some record names it and the last record's proof clock is within a window
of it.  A replay that succeeds has read the last record, so it either reads the proof's own or bounds
it (`readJournal_logged`).
-/

open Std

namespace Oneiron

open List Option

namespace SpendJournal

variable {xxh32 : Bytes → UInt32} {r : JournalRecord} {slots : List (List Cell)} {k : SpentKey}

@[simp] theorem length_leBytes (x : U64) : (leBytes x).length = 8 := by
  rw [leBytes, length_reverse, length_digits]

@[simp] theorem length_recordTag (body : Bytes) : (recordTag xxh32 body).length = 4 := by
  rw [recordTag, length_reverse, length_digits]

@[simp] theorem length_recordBody : (recordBody r).length = 64 := by
  simp [recordBody, r.key.digest.length_bytes]

@[simp] theorem length_journalRecord : (journalRecord xxh32 r).length = recordLen := by
  rw [journalRecord, length_append, length_recordBody, length_recordTag]
  rfl

/-- An integer reads as it was written. -/
theorem leU64_leBytes (before : Bytes) {rest : Bytes} {x : U64} {n : ℕ} (h : before.length = n) :
    leU64 (before ++ (leBytes x ++ rest)) n = x := by
  have hlt : x.val < 256 ^ 8 := Nat.lt_succ_of_le x.le
  rw [leU64, drop_left' h, take_left' (length_leBytes x), leBytes, reverse_reverse,
    valueOf_digits hlt]
  exact U64.ext (Nat.min_eq_left x.le)

/-- **A record reads as what was written.** -/
theorem parseJournalRecord_journalRecord :
    parseJournalRecord xxh32 (journalRecord xxh32 r) = some r := by
  have htag : recordTag xxh32 ((journalRecord xxh32 r).take 64) = (journalRecord xxh32 r).drop 64 := by
    rw [journalRecord, take_left' length_recordBody, drop_left' length_recordBody]
  have hdigest : r.key.digest.bytes.length = 32 := r.key.digest.length_bytes
  have htime : leU64 (journalRecord xxh32 r) 0 = r.key.timestamp := by
    rw [journalRecord, recordBody]
    simp only [append_assoc]
    exact leU64_leBytes [] rfl
  have hends : leU64 (journalRecord xxh32 r) 40 = r.windowEnd := by
    have hsplit : journalRecord xxh32 r = (leBytes r.key.timestamp ++ r.key.digest.bytes) ++
        (leBytes r.windowEnd ++ (leBytes r.proofNow ++ leBytes r.high ++
          recordTag xxh32 (recordBody r))) := by
      rw [journalRecord]
      nth_rewrite 1 [recordBody]
      simp only [append_assoc]
    rw [hsplit]
    exact leU64_leBytes _ (by simp [hdigest])
  have hnow : leU64 (journalRecord xxh32 r) 48 = r.proofNow := by
    have hsplit : journalRecord xxh32 r =
        (leBytes r.key.timestamp ++ r.key.digest.bytes ++ leBytes r.windowEnd) ++
        (leBytes r.proofNow ++ (leBytes r.high ++ recordTag xxh32 (recordBody r))) := by
      rw [journalRecord]
      nth_rewrite 1 [recordBody]
      simp only [append_assoc]
    rw [hsplit]
    exact leU64_leBytes _ (by simp [hdigest])
  have hhigh : leU64 (journalRecord xxh32 r) 56 = r.high := by
    have hsplit : journalRecord xxh32 r =
        (leBytes r.key.timestamp ++ r.key.digest.bytes ++ leBytes r.windowEnd ++
          leBytes r.proofNow) ++ (leBytes r.high ++ recordTag xxh32 (recordBody r)) := by
      rw [journalRecord]
      nth_rewrite 1 [recordBody]
      simp only [append_assoc]
    rw [hsplit]
    exact leU64_leBytes _ (by simp [hdigest])
  have hmiddle : ((journalRecord xxh32 r).drop 8).take 32 = r.key.digest.bytes := by
    rw [journalRecord, recordBody]
    simp only [append_assoc]
    rw [drop_left' (length_leBytes _), take_left' hdigest]
  rw [parseJournalRecord, dif_pos length_journalRecord, if_neg (not_not.mpr htag)]
  simp only [htime, hends, hnow, hhigh, hmiddle]

/-- What the append of a slot's bytes was writing. -/
def noteOf (slot : List Cell) : Option JournalRecord := (slot.map Prod.snd).head?

@[simp] theorem length_recordCells : (recordCells xxh32 r).length = recordLen := by
  rw [recordCells, length_map, length_journalRecord]

@[simp] theorem noteOf_recordCells : noteOf (recordCells xxh32 r) = some r := by
  have hlen : (journalRecord xxh32 r).length = recordLen := length_journalRecord
  rw [noteOf, recordCells, List.map_map]
  generalize journalRecord xxh32 r = bytes at hlen
  cases bytes with
  | nil => cases hlen
  | cons => rfl

@[simp] theorem readSlot_recordCells : readSlot xxh32 (recordCells xxh32 r) = some r := by
  rw [readSlot, recordCells, List.map_map]
  simp only [Function.comp_def, List.map_id']
  exact parseJournalRecord_journalRecord

/-! ### What holds of the slots -/

/-- Each slot reads as what its append was writing, or not at all. -/
def ReadsTrue (xxh32 : Bytes → UInt32) (slots : List (List Cell)) : Prop :=
  ∀ slot ∈ slots, ∀ r, readSlot xxh32 slot = some r → noteOf slot = some r

/-- A record names the proof, and the last record's proof clock is within a window of it. -/
structure Logged (k : SpentKey) (slots : List (List Cell)) : Prop where
  named : ∃ slot ∈ slots, ∃ r, noteOf slot = some r ∧ r.key = k
  last : ∃ slot r, slots.getLast? = some slot ∧ noteOf slot = some r ∧
    k.timestamp.val ≤ r.proofNow.val + windowSecs.val

abbrev Holds := CrashFile.Holds (α := Cell) recordLen

abbrev Keeps := CrashFile.Keeps (α := Cell) recordLen

abbrev Damaged (xxh32 : Bytes → UInt32) :=
  CrashFile.Damaged recordLen (fun slot => (readSlot xxh32 slot).isSome)
    (Prod.snd : Cell → JournalRecord)

theorem readsTrue_nil : ReadsTrue xxh32 [] := nofun

theorem ReadsTrue.concat (h : ReadsTrue xxh32 slots) (r : JournalRecord) :
    ReadsTrue xxh32 (slots ++ [recordCells xxh32 r]) := by
  intro slot hslot r' hread
  rcases mem_append.mp hslot with hslot | hslot
  · exact h slot hslot r' hread
  · obtain rfl := mem_singleton.mp hslot
    rw [readSlot_recordCells] at hread
    rw [noteOf_recordCells, hread]

/-- A later record keeps a proof logged that its clock is within a window of. -/
theorem Logged.concat (h : Logged k slots)
    (hclock : k.timestamp.val ≤ r.proofNow.val + windowSecs.val) :
    Logged k (slots ++ [recordCells xxh32 r]) where
  named := by
    obtain ⟨slot, hslot, hnote⟩ := h.named
    exact ⟨slot, mem_append_left _ hslot, hnote⟩
  last := ⟨_, r, getLast?_concat, noteOf_recordCells, hclock⟩

theorem logged_concat_self (hclock : r.key.timestamp.val ≤ r.proofNow.val + windowSecs.val) :
    Logged r.key (slots ++ [recordCells xxh32 r]) where
  named := ⟨_, mem_append_right _ mem_cons_self, r, noteOf_recordCells, rfl⟩
  last := ⟨_, r, getLast?_concat, noteOf_recordCells, hclock⟩

section Damage

variable {l l' : List Cell}

theorem map_noteOf_damaged (h : Damaged xxh32 l l') :
    (chunksExact recordLen l').map noteOf = (chunksExact recordLen l).map noteOf := by
  have hnotes := congrArg (List.map List.head?) h.notes_slots
  rw [List.map_map, List.map_map] at hnotes
  exact hnotes

theorem ReadsTrue.damaged (h : Damaged xxh32 l l')
    (hreads : ReadsTrue xxh32 (chunksExact recordLen l)) :
    ReadsTrue xxh32 (chunksExact recordLen l') := by
  intro slot hslot r hread
  refine hreads slot (h.mem_of_reads hslot ?_) r hread
  rw [hread]
  rfl

theorem Logged.damaged (h : Damaged xxh32 l l') (hlogged : Logged k (chunksExact recordLen l)) :
    Logged k (chunksExact recordLen l') where
  named := by
    obtain ⟨slot, hslot, r, hnote, hkey⟩ := hlogged.named
    have hmem : some r ∈ (chunksExact recordLen l').map noteOf := by
      rw [map_noteOf_damaged h]
      exact List.mem_map.mpr ⟨slot, hslot, hnote⟩
    obtain ⟨slot', hslot', hnote'⟩ := List.mem_map.mp hmem
    exact ⟨slot', hslot', r, hnote', hkey⟩
  last := by
    obtain ⟨slot, r, hslot, hnote, hclock⟩ := hlogged.last
    have hlast := congrArg List.getLast? (map_noteOf_damaged h)
    rw [getLast?_map, getLast?_map, hslot, map_some, hnote,
      map_eq_some_iff] at hlast
    obtain ⟨slot', hslot', hnote'⟩ := hlast
    exact ⟨slot', r, hslot', hnote', hclock⟩

end Damage

/-! ### What a replay reads -/

/-- What a scan has seen of some chunks. -/
structure Scanned (xxh32 : Bytes → UInt32) (chunks : List Bytes)
    (seen : List JournalRecord × ℕ × Bool) : Prop where
  records : ∀ chunk ∈ chunks, ∀ r, parseJournalRecord xxh32 chunk = some r → r ∈ seen.1
  unreadable : ∀ chunk ∈ chunks, parseJournalRecord xxh32 chunk = none → 0 < seen.2.1
  unbounded : ∀ last, chunks.getLast? = some last → parseJournalRecord xxh32 last = none →
    seen.2.2 = true

theorem scanned_scanChunk (chunks : List Bytes) :
    Scanned xxh32 chunks (chunks.foldl (scanChunk xxh32) ([], 0, false)) := by
  induction chunks using List.reverseRecOn with
  | nil => exact ⟨nofun, nofun, nofun⟩
  | append_singleton chunks chunk ih =>
    rw [foldl_concat, scanChunk]
    cases hread : parseJournalRecord xxh32 chunk with
    | some record =>
      refine ⟨fun c hc r hr => ?_, fun c hc hnone => ?_, fun last hlast hnone => ?_⟩
      · rcases mem_append.mp hc with hc | hc
        · exact mem_append_left _ (ih.records c hc r hr)
        · obtain rfl := mem_singleton.mp hc
          rw [hread] at hr
          exact mem_append_right _ (mem_singleton.mpr (some.inj hr).symm)
      · rcases mem_append.mp hc with hc | hc
        · exact ih.unreadable c hc hnone
        · obtain rfl := mem_singleton.mp hc
          rw [hread] at hnone
          cases hnone
      · rw [getLast?_concat, Option.some.injEq] at hlast
        rw [← hlast, hread] at hnone
        cases hnone
    | none =>
      refine ⟨fun c hc r hr => ?_, fun _ _ _ => Nat.succ_pos _, fun _ _ _ => rfl⟩
      rcases mem_append.mp hc with hc | hc
      · exact ih.records c hc r hr
      · obtain rfl := mem_singleton.mp hc
        rw [hread] at hr
        cases hr

/-- The bound is past every proof clock read. -/
theorem le_proofBound : ∀ (records : List JournalRecord) (written : U64),
    written.val ≤ (proofBound written records).val ∧
      ∀ r ∈ records, r.proofNow.val ≤ (proofBound written records).val
  | [], _ => ⟨le_rfl, nofun⟩
  | r :: records, written => by
    obtain ⟨hstart, hrest⟩ :=
      le_proofBound records ((written.max r.proofNow).max r.high)
    rw [U64.val_max, U64.val_max] at hstart
    refine ⟨(Nat.le_trans (Nat.le_max_left ..) (Nat.le_max_left ..)).trans hstart, ?_⟩
    intro r' hr'
    rcases mem_cons.mp hr' with rfl | hr'
    · exact (Nat.le_trans (Nat.le_max_right ..) (Nat.le_max_left ..)).trans hstart
    · exact hrest r' hr'

/-- **A replay that succeeds reads a logged proof's record, or has seen one that does not read; and its
bound is within a window of the proof.** -/
theorem readJournal_logged {f : File} {written : U64} {replay : Option Replay}
    (hread : readJournal xxh32 written (bytes (some f)) = .ok replay)
    (htrue : ReadsTrue xxh32 (chunksExact recordLen f.content))
    (hlogged : Logged k (chunksExact recordLen f.content)) :
    ∃ read, replay = some read ∧
      k.timestamp.val ≤ read.proofBound.val + windowSecs.val ∧
      ((∃ r ∈ read.records, r.key = k) ∨ 0 < read.unreadable) := by
  set chunks := chunksExact recordLen (f.content.map Prod.fst) with hchunks
  have hmap : chunks = (chunksExact recordLen f.content).map (·.map Prod.fst) := by
    rw [hchunks, chunksExact_map]
  obtain ⟨slot, hslot, r, hnote, hkey⟩ := hlogged.named
  obtain ⟨last, lastRecord, hlast, hlastNote, hclock⟩ := hlogged.last
  have hscanned : Scanned xxh32 chunks (chunks.foldl (scanChunk xxh32) ([], 0, false)) :=
    scanned_scanChunk chunks
  set seen := chunks.foldl (scanChunk xxh32) ([], 0, false) with hseen
  have hne : f.content.map Prod.fst ≠ [] := by
    intro hnil
    rw [map_eq_nil_iff] at hnil
    rw [hnil, chunksExact_of_short (by decide)] at hslot
    cases hslot
  have hok : seen.2.2 = false ∧ replay = some
      { records := seen.1
        unreadable := seen.2.1
        proofBound := proofBound written seen.1
        readLen := (f.content.map Prod.fst).length - (f.content.map Prod.fst).length % recordLen } := by
    rw [bytes, map_some] at hread
    generalize f.content.map Prod.fst = content at hread hne hchunks
    cases content with
    | nil => exact absurd rfl hne
    | cons b rest =>
      simp only [readJournal, ← hchunks, ← hseen] at hread
      split at hread
      · cases hread
      next hbounded => exact ⟨Bool.eq_false_iff.mpr hbounded, (Except.ok.inj hread).symm⟩
  obtain ⟨hbounded, rfl⟩ := hok
  have hreadNote {slot : List Cell} {r : JournalRecord}
      (hslot : slot ∈ chunksExact recordLen f.content) (hnote : noteOf slot = some r) :
      readSlot xxh32 slot = none ∨ readSlot xxh32 slot = some r := by
    cases hr : readSlot xxh32 slot with
    | none => exact Or.inl rfl
    | some r' =>
      rw [htrue slot hslot r' hr] at hnote
      exact Or.inr hnote
  refine ⟨_, rfl, ?_, ?_⟩
  · have hlastRead : readSlot xxh32 last = some lastRecord := by
      refine (hreadNote (mem_of_getLast? hlast) hlastNote).resolve_left fun hnone => ?_
      have hunbounded := hscanned.unbounded (last.map Prod.fst)
        (by rw [hmap, getLast?_map, hlast, map_some]) hnone
      rw [hbounded] at hunbounded
      cases hunbounded
    have hmem : lastRecord ∈ seen.1 := hscanned.records (last.map Prod.fst)
      (hmap ▸ List.mem_map_of_mem (mem_of_getLast? hlast)) lastRecord hlastRead
    exact hclock.trans (Nat.add_le_add_right ((le_proofBound _ _).2 lastRecord hmem) _)
  · have hchunk : slot.map Prod.fst ∈ chunks := hmap ▸ List.mem_map_of_mem hslot
    rcases hreadNote hslot hnote with hnone | hr
    · exact Or.inr (hscanned.unreadable _ hchunk hnone)
    · exact Or.inl ⟨r, hscanned.records _ hchunk r hr, hkey⟩

end SpendJournal

end Oneiron
