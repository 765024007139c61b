import Oneiron.Authority.HolderProofs
import Oneiron.Authority.SpentHeld

/-!
# Authority/HolderProofSafety — no holder proof is admitted twice

    guarded by the rows        ◂--landed-- held in memory, and logged in the journal

Every proof admitted is on one side or the other (`Sound`), whatever the clocks do: its row is kept,
or `not_before` is past it, or the set in memory holds it and the journal names it.  A crash takes
the memory, and the replay puts each proof the journal names on the other side before any admission.
Only the last second an unsigned clock can name is out of the watermark's reach.
-/

open Std

namespace Oneiron

open Nonces ProofTables SpendJournal

open List

open SpendJournal (Holds Keeps Logged ReadsTrue recordLen)

variable {xxh32 : Bytes → UInt32} {blake3 : Bytes → Digest}

/-! ### The rows under the calls -/

namespace ProofTables

variable {tables after : ProofTables} {readings : Readings} {high : U64} {k : SpentKey}

variable (proofNow : U64)

theorem follows_raiseFloor : tables.Follows (tables.raiseFloor proofNow) := by
  rw [raiseFloor]
  split
  · exact .of_rows rfl le_rfl
  · exact .refl

theorem putSpendRows_eq : putSpendRows = fun tables readings high k proofNow =>
    (((tables.raiseFloor proofNow).admissionNow readings high).1.putNonceRow k
      ((tables.raiseFloor proofNow).admissionNow readings high).2).1 := rfl

theorem putRecords_cons (clock : ProofClock) (r : JournalRecord) (records : List JournalRecord) :
    tables.putRecords clock (r :: records) =
      (tables.putNonceRow r.key clock).1.putRecords clock records := by
  rw [putRecords, putRecords, foldl_cons]

theorem putSpendRows_guards (tables : ProofTables) (readings : Readings) (high : U64) (k : SpentKey)
    (proofNow : U64) :
    tables.Follows (tables.putSpendRows readings high k proofNow) ∧
      (tables.putSpendRows readings high k proofNow).Guarded k := by
  have hraises : tables.Follows (tables.raiseFloor proofNow) := follows_raiseFloor proofNow
  obtain ⟨hfollows, hguarded⟩ := putNonceRow_guards
    ((tables.raiseFloor proofNow).admissionNow readings high).1 k
    ((tables.raiseFloor proofNow).admissionNow readings high).2
  rw [putSpendRows_eq]
  exact ⟨hraises.trans ((follows_admissionNow readings high).trans hfollows), hguarded⟩

theorem putRecords_guards (tables : ProofTables) (clock : ProofClock) (records : List JournalRecord) :
    tables.Follows (tables.putRecords clock records) ∧
      ∀ r ∈ records, (tables.putRecords clock records).Guarded r.key := by
  induction records generalizing tables with
  | nil => exact ⟨.refl, nofun⟩
  | cons r records ih =>
    obtain ⟨hfollows, hguarded⟩ := putNonceRow_guards tables r.key clock
    obtain ⟨hrest, hall⟩ := ih (tables.putNonceRow r.key clock).1
    rw [putRecords_cons]
    exact ⟨hfollows.trans hrest, forall_mem_cons.mpr ⟨hrest.guarded _ hguarded, hall⟩⟩

/-- **A replay's landing refuses every proof it read.** -/
theorem landRecords_guards {records : List JournalRecord} :
    tables.Follows (tables.landRecords readings high records) ∧
      ∀ r ∈ records, (tables.landRecords readings high records).Guarded r.key := by
  obtain ⟨hfollows, hall⟩ := putRecords_guards (tables.admissionNow readings high).1
    (tables.admissionNow readings high).2 records
  exact ⟨(follows_admissionNow readings high).trans hfollows, hall⟩

/-- A raised watermark is at or past what it was raised to. -/
theorem raiseWatermark_le (tables : ProofTables) (floor : U64) : tables.Follows (tables.raiseWatermark floor) ∧
    floor.val ≤ (tables.raiseWatermark floor).watermark.val := by
  rw [raiseWatermark]
  cases hkept : tables.notBefore with
  | none => exact ⟨.of_rows rfl (by rw [watermark, hkept]; exact Nat.zero_le _), le_rfl⟩
  | some kept =>
    rw [Option.all_some]
    by_cases hlt : kept.val < floor.val
    · rw [if_pos (decide_eq_true hlt)]
      exact ⟨.of_rows rfl (by rw [watermark, hkept]; exact hlt.le), le_rfl⟩
    · rw [if_neg (by simpa using hlt)]
      refine ⟨.refl, ?_⟩
      rw [watermark, hkept]
      exact Nat.not_lt.mp hlt

/-- **A refused journal refuses every proof within a window of its bound**, the last second apart. -/
theorem refuseJournaledProofs_guards (tables : ProofTables) (readings : Readings)
    (high proofBound : U64) :
    tables.Follows (tables.refuseJournaledProofs readings high proofBound) ∧
      ∀ k : SpentKey, k.timestamp.val < U64.top →
        k.timestamp.val ≤ proofBound.val + windowSecs.val →
        (tables.refuseJournaledProofs readings high proofBound).Guarded k := by
  set now := (tables.admissionNow readings high).2.now
  obtain ⟨hfollows, hraised⟩ := raiseWatermark_le (tables.admissionNow readings high).1
    ((now.max proofBound).satAdd (windowSecs.satAdd 1))
  refine ⟨(follows_admissionNow readings high).trans hfollows, fun k htop hle => Or.inr ?_⟩
  refine Nat.lt_of_lt_of_le ?_ hraised
  have hwindow : (windowSecs.satAdd 1).val = windowSecs.val + 1 := rfl
  rw [U64.val_satAdd, U64.val_max, hwindow]
  exact Nat.lt_min.mpr ⟨by omega, htop⟩

end ProofTables

/-! ### The state of a vault -/

/-- Each proof at most once, those of the last second apart. -/
def Once (l : List HolderProof) : Prop :=
  (l.filter fun p => decide (p.timestamp.val < U64.top)).Nodup

theorem Once.cons {p : HolderProof} {l : List HolderProof}
    (h : p.timestamp.val < U64.top → p ∉ l) (hl : Once l) : Once (p :: l) := by
  rw [Once, filter_cons]
  split
  next htop =>
    refine nodup_cons.mpr ⟨fun hmem => ?_, hl⟩
    exact h (of_decide_eq_true htop) (mem_of_mem_filter hmem)
  · exact hl

variable {stage : ReplayStage} {old spend new : NonceSpend} {tables after : ProofTables}
  {l l' : List HolderProof} {nonces nonces' : Nonces} {p proof : HolderProof} {clock : ProofClock}
  {owner : Bool} {lastTxn : ℕ}

theorem Once.not_mem (h : Once (p :: l)) (htop : p.timestamp.val < U64.top) : p ∉ l := by
  intro hmem
  rw [Once, filter_cons, if_pos (decide_eq_true htop)] at h
  exact (nodup_cons.mp h).1 (mem_filter.mpr ⟨hmem, decide_eq_true htop⟩)

theorem Once.perm (h : l.Perm l') (hl : Once l) : Once l' :=
  (h.filter _).nodup_iff.mp hl

theorem Once.of_append (h : Once (l ++ l')) : Once l' := by
  rw [Once, filter_append] at h
  exact (nodup_append.mp h).2.1

namespace ProofVault

variable (blake3) (s : ProofVault)

/-- A proof's row refuses it. -/
abbrev Recorded (p : HolderProof) : Prop := s.tables.Guarded (.of blake3 p)

/-- The proofs admitted, and those the open transaction admits if it commits. -/
def admitting : List HolderProof := s.writer.elim [] (·.spent) ++ s.admitted

/-- What holds of each proof admitted that a watermark can pass. -/
abbrev EachAdmitted (P : HolderProof → Prop) : Prop :=
  ∀ p ∈ s.admitted, p.timestamp.val < U64.top → P p

/-- What a process at work knows of each proof admitted: its row refuses it, or it is held here. -/
structure LiveSound : Prop where
  held : s.EachAdmitted fun p => s.Recorded blake3 p ∨
    (s.owner = true ∧ s.nonces.Holding (.of blake3 p) ∧
      p.timestamp.val ≤ s.nonces.liveHigh.val + windowSecs.val)
  opened : s.nonces.Opened s.file

/-- What each stage of an open has made of the proofs the journal may hold. -/
def StageSound : ReplayStage → Prop
  | .closed => s.nonces = .new
  | .landing replay => s.nonces = .new ∧ s.EachAdmitted fun p => s.Recorded blake3 p ∨
      (p.timestamp.val ≤ replay.proofBound.val + windowSecs.val ∧
        ((∃ r ∈ replay.records, r.key = .of blake3 p) ∨ 0 < replay.unreadable))
  | .refusing proofBound => s.nonces = .new ∧ s.EachAdmitted fun p => s.Recorded blake3 p ∨
      p.timestamp.val ≤ proofBound.val + windowSecs.val
  | .emptying _ => s.nonces = .new ∧ s.EachAdmitted (s.Recorded blake3)
  | .live => s.LiveSound blake3

/-- The open transaction refuses what the committed rows do, and what it spends is staged. -/
structure WriterSound (w : ProofWriter) : Prop where
  live : s.stage = .live
  follows : s.tables.Follows w.tables
  spent : ∀ p ∈ w.spent, w.tables.Guarded (.of blake3 p)
  staged : s.owner = true → ∀ p ∈ w.spent,
    s.nonces.staged[SpentKey.of blake3 p]? = some (s.lastTxn + 1)
  grouped : ∀ spend ∈ s.pending, spend.stage = .grouped → w.tables.Guarded spend.key

variable (xxh32)

/-- **Every proof admitted is refused by its row, or named in the journal.** -/
structure Sound : Prop where
  reads : Holds (ReadsTrue xxh32) s.file
  covered : s.EachAdmitted fun p => s.Recorded blake3 p ∨ Keeps (Logged (.of blake3 p)) s.file
  stage : s.StageSound blake3 s.stage
  once : Once s.admitting
  writer : ∀ w, s.writer = some w → s.WriterSound blake3 w
  landed : ∀ spend ∈ s.pending, spend.stage = .landed → s.tables.Guarded spend.key
  ungrouped : s.writer = none → ∀ spend ∈ s.pending, spend.stage ≠ .grouped

variable {xxh32 blake3 s} {t : ProofVault} {move : ProofMove} {w : ProofWriter}

/-- What a stage says rests on the rows, the file, the memory and the proofs admitted. -/
theorem StageSound.congr (h : s.StageSound blake3 stage) (htables : t.tables = s.tables)
    (hfile : t.file = s.file) (howner : t.owner = s.owner) (hnonces : t.nonces = s.nonces)
    (hadmitted : t.admitted = s.admitted) : t.StageSound blake3 stage := by
  cases stage with
  | live =>
    obtain ⟨hheld, hopened⟩ := h
    refine ⟨?_, hfile ▸ hnonces ▸ hopened⟩
    rw [EachAdmitted, hadmitted, howner, hnonces]
    simpa only [Recorded, htables] using hheld
  | closed => exact hnonces.trans h
  | landing replay | refusing proofBound | emptying =>
    refine ⟨hnonces.trans h.1, ?_⟩
    rw [EachAdmitted, hadmitted]
    simpa only [Recorded, htables] using h.2

/-- A pending spend in another's place is the other, or was pending. -/
theorem mem_repend (h : spend ∈ s.repend old new) : spend = new ∨ spend ∈ s.pending :=
  (mem_cons.mp h).imp_right mem_of_mem_erase

/-- What an abort leaves pending is as it was, or failed. -/
theorem mem_pending_aborted (h : spend ∈ s.aborted.pending) :
    spend.stage ≠ .grouped ∧ (spend.stage = .landed → spend ∈ s.pending) := by
  obtain ⟨old, hold, rfl⟩ := mem_map.mp h
  by_cases hgrouped : old.stage = .grouped
  · rw [if_pos hgrouped]
    exact ⟨nofun, nofun⟩
  · rw [if_neg hgrouped]
    exact ⟨hgrouped, fun _ => hold⟩

/-- **An abort loses nothing but what it was to admit.** -/
theorem Sound.aborted (h : s.Sound xxh32 blake3) : s.aborted.Sound xxh32 blake3 where
  reads := h.reads
  covered := h.covered
  stage := h.stage.congr rfl rfl rfl rfl rfl
  once := h.once.of_append
  writer := nofun
  landed spend hspend hlanded := h.landed spend ((mem_pending_aborted hspend).2 hlanded) hlanded
  ungrouped _ _ hspend := (mem_pending_aborted hspend).1

/-- **A commit puts the proofs it admits on record.** -/
theorem Sound.committed (h : s.Sound xxh32 blake3) (hw : s.writer = some w) :
    (s.committed w).Sound xxh32 blake3 := by
  have hws := h.writer w hw
  have hlive : s.LiveSound blake3 := by
    have hstage := h.stage
    rw [hws.live] at hstage
    exact hstage
  have hpending (spend : NonceSpend) (hspend : spend ∈ (s.committed w).pending) :
      spend.stage ≠ .grouped ∧ (spend.stage = .landed → w.tables.Guarded spend.key) := by
    obtain ⟨old, hold, rfl⟩ := mem_map.mp hspend
    by_cases hgrouped : old.stage = .grouped
    · rw [if_pos hgrouped]
      exact ⟨nofun, fun _ => hws.grouped old hold hgrouped⟩
    · rw [if_neg hgrouped]
      exact ⟨hgrouped, fun hlanded => hws.follows.guarded _ (h.landed old hold hlanded)⟩
  refine
    { reads := h.reads
      covered := fun p hp htop => ?_
      stage := ?_
      once := ?_
      writer := nofun
      landed := fun spend hspend => (hpending spend hspend).2
      ungrouped := fun _ spend hspend => (hpending spend hspend).1 }
  · rcases mem_append.mp hp with hp | hp
    · exact Or.inl (hws.spent p hp)
    · exact (h.covered p hp htop).imp_left (hws.follows.guarded _)
  · show (s.committed w).StageSound blake3 s.stage
    rw [hws.live]
    refine ⟨fun p hp htop => ?_, hlive.opened⟩
    rcases mem_append.mp hp with hp | hp
    · exact Or.inl (hws.spent p hp)
    · exact (hlive.held p hp htop).imp_left (hws.follows.guarded _)
  · have hall := h.once
    rw [admitting, hw] at hall
    exact hall

/-- A proof the rows or the memory refuse is in neither the transaction nor the past. -/
theorem Sound.not_mem_admitting (h : s.Sound xxh32 blake3) (hlive : s.stage = .live)
    (htop : p.timestamp.val < U64.top) (hnotGuarded : ¬s.Recorded blake3 p)
    (hnotHeld : s.owner = true → ¬s.nonces.Holding (.of blake3 p))
    (hnotSpent : ∀ w, s.writer = some w → p ∉ w.spent) : p ∉ s.admitting := by
  have hstage := h.stage
  rw [hlive] at hstage
  intro hp
  rcases mem_append.mp hp with hp | hp
  · cases hw : s.writer with
    | none => rw [hw] at hp; cases hp
    | some w => rw [hw] at hp; exact hnotSpent w hw hp
  · rcases hstage.held p hp htop with hguarded | ⟨howner, hheld, -⟩
    · exact hnotGuarded hguarded
    · exact hnotHeld howner hheld

end ProofVault

/-- **What `record_nonce` records was fresh**: within its window, staged, and on no row. -/
theorem recordNonce_some
    (h : recordNonce blake3 tables nonces owner lastTxn proof clock = (some after, nonces')) :
    requestChallenge proof.timestamp proof.nonce clock = true ∧
      nonces.stage owner lastTxn (.of blake3 proof) = (true, nonces') ∧
      tables.putNonceRow (.of blake3 proof) clock = (after, true) := by
  rw [recordNonce] at h
  generalize hput : tables.putNonceRow (.of blake3 proof) clock = put at h
  generalize hstage : nonces.stage owner lastTxn (.of blake3 proof) = staged at h
  obtain ⟨put, fresh⟩ := put
  obtain ⟨staged, mid⟩ := staged
  split at h
  · cases h
  next hchallenge =>
  cases staged with
  | false => cases h
  | true =>
    cases fresh with
    | false => cases h
    | true =>
      cases h
      exact ⟨by simpa using hchallenge, rfl, rfl⟩

/-- Whatever comes of it, the set in memory is as it was, or as staging left it. -/
theorem recordNonce_nonces {after : Option ProofTables}
    (h : recordNonce blake3 tables nonces owner lastTxn proof clock = (after, nonces')) :
    nonces' = nonces ∨
      ∃ answer, nonces.stage owner lastTxn (.of blake3 proof) = (answer, nonces') := by
  rw [recordNonce] at h
  generalize tables.putNonceRow (.of blake3 proof) clock = put at h
  generalize nonces.stage owner lastTxn (.of blake3 proof) = staged at h
  obtain ⟨put, fresh⟩ := put
  obtain ⟨staged, mid⟩ := staged
  split at h
  · cases h
    exact Or.inl rfl
  refine Or.inr ⟨staged, ?_⟩
  cases staged with
  | false => cases h; rfl
  | true => cases fresh <;> cases h <;> rfl

namespace ProofVault

variable {s t : ProofVault} {move : ProofMove} {w : ProofWriter} {nonces : Nonces}
variable {file : Option SpendJournal.File}

section

variable (h : s.Sound xxh32 blake3)

include h

theorem Sound.live (hlive : s.stage = .live) : s.LiveSound blake3 := by
  have hstage := h.stage
  rw [hlive] at hstage
  exact hstage

/-- An open transaction is a live process's. -/
theorem Sound.writer_eq_none (hstage : s.stage ≠ .live) : s.writer = none := by
  cases hw : s.writer with
  | none => rfl
  | some w => exact absurd (h.writer w hw).live hstage

/-! ### One step -/

/-- A live process's memory and journal may change, where what refuses each proof still does. -/
theorem Sound.remembers (hlive : s.stage = .live)
    (hheld : ∀ p : HolderProof, s.nonces.Holding (.of blake3 p) →
      p.timestamp.val ≤ s.nonces.liveHigh.val + windowSecs.val → s.Recorded blake3 p ∨
      (nonces.Holding (.of blake3 p) ∧ p.timestamp.val ≤ nonces.liveHigh.val + windowSecs.val))
    (hstaged : ∀ k : SpentKey, s.nonces.staged[k]? = some (s.lastTxn + 1) →
      nonces.staged[k]? = some (s.lastTxn + 1)) (hopened : nonces.Opened file)
    (hreads : Holds (ReadsTrue xxh32) file)
    (hcovered : s.EachAdmitted fun p => s.Recorded blake3 p ∨ Keeps (Logged (.of blake3 p)) file) :
    { s with nonces := nonces, file := file }.Sound xxh32 blake3 where
  reads := hreads
  covered := hcovered
  stage := by
    rw [hlive]
    refine ⟨fun p hp htop => ?_, hopened⟩
    rcases (h.live hlive).held p hp htop with hrow | ⟨howner, hmem, hnear⟩
    · exact Or.inl hrow
    · exact (hheld p hmem hnear).imp_right fun hnow => ⟨howner, hnow⟩
  once := h.once
  writer w hw :=
    have hws := h.writer w hw
    ⟨hws.live, hws.follows, hws.spent, fun howner p hp => hstaged _ (hws.staged howner p hp),
      hws.grouped⟩
  landed := h.landed
  ungrouped := h.ungrouped

/-- A change of memory that holds what was held, over the same journal. -/
theorem Sound.remembers_same (hlive : s.stage = .live)
    (hheld : ∀ k, nonces.Holding k ↔ s.nonces.Holding k)
    (hstaged : ∀ k : SpentKey, s.nonces.staged[k]? = some (s.lastTxn + 1) →
      nonces.staged[k]? = some (s.lastTxn + 1)) (hjournal : nonces.journal = s.nonces.journal)
    (hhigh : nonces.liveHigh = s.nonces.liveHigh) :
    { s with nonces := nonces }.Sound xxh32 blake3 :=
  h.remembers hlive (fun _ hmem hnear => Or.inr ⟨(hheld _).mpr hmem, hhigh ▸ hnear⟩) hstaged
    (fun hopen => (h.live hlive).opened (hjournal ▸ hopen)) h.reads h.covered

end

variable {written : U64} {replay : SpendJournal.Replay} {failed : Bool}

/-- **The journal is emptied of nothing still owed.** -/
theorem Sound.truncated (h : s.Sound xxh32 blake3) (hlive : s.stage = .live)
    (heq : s.nonces.truncateJournalIfDrained failed s.file = (nonces, file)) :
    { s with nonces := nonces, file := file }.Sound xxh32 blake3 := by
  obtain ⟨hheld, hstaged, hhigh, hopened, hholds, hsame⟩ :=
    truncateJournalIfDrained_leaves heq
  refine h.remembers hlive (fun _ hmem hnear => Or.inr ⟨(hheld _).mpr hmem, hhigh ▸ hnear⟩)
    (fun _ hk => hstaged ▸ hk) (hopened (h.live hlive).opened)
    (hholds _ h.reads readsTrue_nil) fun p hp htop => ?_
  rcases hsame with rfl | hnone
  · exact h.covered p hp htop
  · rcases (h.live hlive).held p hp htop with hrow | ⟨-, hmem, -⟩
    · exact Or.inl hrow
    · exact absurd hmem (hnone _)

/-- The spends on their way may be any whose rows the tables, and the open transaction, have. -/
theorem Sound.repended (pending : List NonceSpend) (h : s.Sound xxh32 blake3)
    (hlanded : ∀ spend ∈ pending, spend.stage = .landed → spend ∈ s.pending)
    (hgrouped : ∀ spend ∈ pending, spend.stage = .grouped → spend ∈ s.pending) :
    { s with pending := pending }.Sound xxh32 blake3 where
  reads := h.reads
  covered := h.covered
  stage := h.stage.congr rfl rfl rfl rfl rfl
  once := h.once
  writer w hw :=
    have hws := h.writer w hw
    ⟨hws.live, hws.follows, hws.spent, hws.staged,
      fun spend hspend heq => hws.grouped spend (hgrouped spend hspend heq) heq⟩
  landed spend hspend heq := h.landed spend (hlanded spend hspend heq) heq
  ungrouped hnone spend hspend heq := h.ungrouped hnone spend (hgrouped spend hspend heq) heq

/-- The open transaction may go on to rows that refuse what it did. -/
theorem Sound.rewritten (h : s.Sound xxh32 blake3) (hw : s.writer = some w)
    (hfollows : w.tables.Follows tables) :
    { s with writer := some { w with tables := tables } }.Sound xxh32 blake3 := by
  have hws := h.writer w hw
  refine
    { reads := h.reads
      covered := h.covered
      stage := h.stage.congr rfl rfl rfl rfl rfl
      once := ?_
      writer := ?_
      landed := h.landed
      ungrouped := nofun }
  · have honce := h.once
    rw [admitting, hw] at honce
    exact honce
  · rintro w' ⟨⟩
    exact ⟨hws.live, hws.follows.trans hfollows, fun p hp => hfollows.guarded _ (hws.spent p hp),
      hws.staged, fun spend hspend heq => hfollows.guarded _ (hws.grouped spend hspend heq)⟩

/-- A replay's transaction, before the process is live. -/
theorem Sound.replayed (h : s.Sound xxh32 blake3) (hstage : s.stage ≠ .live)
    (hfollows : s.tables.Follows tables)
    (hafter : { s with tables := tables, lastTxn := lastTxn, stage := stage }.StageSound blake3
      stage) :
    { s with tables := tables, lastTxn := lastTxn, stage := stage }.Sound xxh32 blake3 where
  reads := h.reads
  covered p hp htop := (h.covered p hp htop).imp_left (hfollows.guarded _)
  stage := hafter
  once := h.once
  writer _ hw := nomatch (h.writer_eq_none hstage).symm.trans hw
  landed spend hspend heq := hfollows.guarded _ (h.landed spend hspend heq)
  ungrouped := h.ungrouped

/-- **An open refuses every proof the journal may hold**, before anything is admitted. -/
theorem Sound.opens {replay : Option SpendJournal.Replay} (h : s.Sound xxh32 blake3)
    (hread : readJournal xxh32 written (bytes s.file) = .ok replay) :
    s.EachAdmitted fun p => s.Recorded blake3 p ∨
      ∃ read, replay = some read ∧ p.timestamp.val ≤ read.proofBound.val + windowSecs.val ∧
        ((∃ r ∈ read.records, r.key = .of blake3 p) ∨ 0 < read.unreadable) := by
  intro p hp htop
  rcases h.covered p hp htop with hrow | ⟨f, hf, -, hlogged⟩
  · exact Or.inl hrow
  · rw [hf] at hread
    exact Or.inr (readJournal_logged hread (h.reads f hf).content hlogged.content)

theorem Sound.openEmpty {written : U64} (owner : Bool) (h : s.Sound xxh32 blake3)
    (hclosed : s.stage = .closed)
    (hread : readJournal xxh32 written (bytes s.file) = .ok none) :
    { s with stage := .live, owner := owner }.Sound xxh32 blake3 := by
  have hnew := h.stage
  rw [hclosed] at hnew
  refine
    { reads := h.reads
      covered := h.covered
      stage := ⟨fun p hp htop => Or.inl ?_, fun hopen => ?_⟩
      once := h.once
      writer := fun w hw => nomatch (h.writer_eq_none (by rw [hclosed]; nofun)).symm.trans hw
      landed := h.landed
      ungrouped := h.ungrouped }
  · exact (h.opens hread p hp htop).resolve_right fun ⟨_, hnone, _⟩ => nomatch hnone
  · have hnonces : s.nonces = .new := hnew
    rw [show s.nonces.journal = false by rw [hnonces]; rfl] at hopen
    cases hopen

theorem Sound.openJournaled (owner : Bool) (h : s.Sound xxh32 blake3) (hclosed : s.stage = .closed)
    (hread : readJournal xxh32 written (bytes s.file) =
      .ok (some replay)) :
    { s with stage := .landing replay, owner := owner }.Sound xxh32 blake3 := by
  have hnew := h.stage
  rw [hclosed] at hnew
  refine
    { reads := h.reads
      covered := h.covered
      stage := ⟨hnew, fun p hp htop => ?_⟩
      once := h.once
      writer := fun w hw => nomatch (h.writer_eq_none (by rw [hclosed]; nofun)).symm.trans hw
      landed := h.landed
      ungrouped := h.ungrouped }
  refine (h.opens hread p hp htop).imp_right ?_
  rintro ⟨read, heq, hread⟩
  obtain rfl := Option.some.inj heq
  exact hread

/-- **The records read are refused by their rows**, and those that do not read by what comes next. -/
theorem Sound.land {replay : SpendJournal.Replay} (h : s.Sound xxh32 blake3)
    (hlanding : s.stage = .landing replay) :
    { s with
      tables := if replay.records = [] then s.tables
        else s.tables.landRecords s.readings s.nonces.liveHigh replay.records
      lastTxn := if replay.records = [] then s.lastTxn else s.lastTxn + 1
      stage := if 0 < replay.unreadable then .refusing replay.proofBound
        else .emptying (some replay.readLen) }.Sound xxh32 blake3 := by
  have hstage := h.stage
  rw [hlanding] at hstage
  obtain ⟨hnew, hheld⟩ := hstage
  have hlands : s.tables.Follows (if replay.records = [] then s.tables
      else s.tables.landRecords s.readings s.nonces.liveHigh replay.records) ∧
      ∀ r ∈ replay.records, (if replay.records = [] then s.tables
        else s.tables.landRecords s.readings s.nonces.liveHigh replay.records).Guarded r.key := by
    by_cases hnil : replay.records = []
    · rw [if_pos hnil, hnil]
      exact ⟨.refl, nofun⟩
    · rw [if_neg hnil]
      exact landRecords_guards
  generalize (if replay.records = [] then s.tables
    else s.tables.landRecords s.readings s.nonces.liveHigh replay.records) = tables at hlands ⊢
  obtain ⟨hfollows, hread⟩ := hlands
  refine h.replayed (by rw [hlanding]; nofun) hfollows ?_
  by_cases hunreadable : 0 < replay.unreadable
  · rw [if_pos hunreadable]
    refine ⟨hnew, fun p hp htop => ?_⟩
    exact (hheld p hp htop).imp (hfollows.guarded _) And.left
  · rw [if_neg hunreadable]
    refine ⟨hnew, fun p hp htop => ?_⟩
    rcases hheld p hp htop with hrow | ⟨-, ⟨r, hr, hkey⟩ | hnot⟩
    · exact hfollows.guarded _ hrow
    · have hguarded : tables.Guarded (.of blake3 p) := hkey ▸ hread r hr
      exact hguarded
    · exact absurd hnot hunreadable

/-- A landing that fails leaves every journaled proof to be refused. -/
theorem Sound.landFails (h : s.Sound xxh32 blake3) (hlanding : s.stage = .landing replay) :
    { s with stage := .refusing replay.proofBound }.Sound xxh32 blake3 := by
  have hstage := h.stage
  rw [hlanding] at hstage
  refine h.replayed (by rw [hlanding]; nofun) .refl
    ⟨hstage.1, fun p hp htop => (hstage.2 p hp htop).imp_right And.left⟩

theorem Sound.refuse {proofBound : U64} (h : s.Sound xxh32 blake3)
    (hrefusing : s.stage = .refusing proofBound) :
    { s with
      tables := s.tables.refuseJournaledProofs s.readings s.nonces.liveHigh proofBound
      lastTxn := s.lastTxn + 1
      stage := .emptying none }.Sound xxh32 blake3 := by
  have hstage := h.stage
  rw [hrefusing] at hstage
  obtain ⟨hfollows, hrefuses⟩ := s.tables.refuseJournaledProofs_guards s.readings s.nonces.liveHigh
    proofBound
  refine h.replayed (by rw [hrefusing]; nofun) hfollows ⟨hstage.1, fun p hp htop => ?_⟩
  rcases hstage.2 p hp htop with hrow | hnear
  · exact hfollows.guarded _ hrow
  · exact hrefuses (.of blake3 p) htop hnear

/-- **The journal replayed is emptied once every proof is refused by its row.** -/
theorem Sound.emptied {fault : Option FileFault} {unread : Bool} {readLen : Option ℕ}
    (h : s.Sound xxh32 blake3) (hemptying : s.stage = .emptying readLen) :
    (s.emptied xxh32 fault unread failed readLen).Sound xxh32 blake3 := by
  have hstage := h.stage
  rw [hemptying] at hstage
  obtain ⟨hnew, hrecorded⟩ := hstage
  have hclosed : s.nonces.Opened s.file := by
    intro hopen
    have hnonces : s.nonces = .new := hnew
    rw [show s.nonces.journal = false by rw [hnonces]; rfl] at hopen
    cases hopen
  rw [ProofVault.emptied]
  rcases hopen : s.nonces.openJournalIfNeeded xxh32 fault unread s.file with ⟨opened, mid, left⟩
  obtain ⟨-, huntouched, -⟩ := openJournalIfNeeded_leaves hclosed hopen
  have hreads := huntouched.holds _ h.reads readsTrue_nil trivial
  have hafter {nonces : Nonces} {file : Option SpendJournal.File} (hopened : nonces.Opened file)
      (hfile : Holds (ReadsTrue xxh32) file) :
      { s with stage := .live, nonces := nonces, file := file }.Sound xxh32 blake3 :=
    { reads := hfile
      covered := fun p hp htop => Or.inl (hrecorded p hp htop)
      stage := ⟨fun p hp htop => Or.inl (hrecorded p hp htop), hopened⟩
      once := h.once
      writer := fun w hw => nomatch (h.writer_eq_none (by rw [hemptying]; nofun)).symm.trans hw
      landed := h.landed
      ungrouped := h.ungrouped }
  by_cases hempties : (opened && mid.drained && readLen.all (· == mid.journalLen)) = true
  · rcases hempty : mid.emptyJournal failed left with ⟨nonces, file⟩
    obtain ⟨-, -, -, hopened, hholds⟩ := emptyJournal_leaves hempty
    simp only [if_pos hempties, hempty]
    exact hafter (hopened huntouched.opened) (hholds _ hreads readsTrue_nil)
  · simp only [if_neg hempties]
    exact hafter huntouched.opened hreads

/-- Rows that refuse a proof let no writer record it. -/
theorem WriterSound.not_recorded {high : U64}
    (hjudged : w.tables.admissionNow s.readings high = (tables, clock))
    (hrecord : recordNonce blake3 tables nonces owner lastTxn p clock = (some after, nonces')) :
    ¬w.tables.Guarded (.of blake3 p) := by
  intro hguarded
  obtain ⟨hchallenge, -, hput⟩ := recordNonce_some hrecord
  have htables : (w.tables.admissionNow s.readings high).1 = tables := by rw [hjudged]
  have hclock : (w.tables.admissionNow s.readings high).2 = clock := by rw [hjudged]
  have hkept : tables.Guarded (.of blake3 p) :=
    htables ▸ (follows_admissionNow s.readings high).guarded _ hguarded
  have hrefused := putNonceRow_refuses hkept hchallenge (by rw [← hclock, ← htables]; rfl)
  rw [hput] at hrefused
  cases hrefused

section

variable (h : s.Sound xxh32 blake3)

include h

/-- **A writer spends no proof spent before.** -/
theorem Sound.spendInWriter (hw : s.writer = some w)
    (hjudged : w.tables.admissionNow s.readings s.nonces.liveHigh = (tables, clock))
    (hrecord : recordNonce blake3 tables s.nonces s.owner s.lastTxn p clock = (some after, nonces)) :
    { s with writer := some ⟨after, p :: w.spent⟩, nonces := nonces }.Sound xxh32 blake3 := by
  have hws := h.writer w hw
  obtain ⟨hchallenge, hstage, hput⟩ := recordNonce_some hrecord
  obtain ⟨hheld, hjournal, hhigh, hkept, hadded⟩ := stage_leaves hstage
  have hnot := WriterSound.not_recorded hjudged hrecord
  obtain ⟨hfollows, hguarded⟩ := putNonceRow_guards tables (.of blake3 p) clock
  have hjudgedTables : w.tables.Follows tables := by
    have hread : w.tables.Follows (w.tables.admissionNow s.readings s.nonces.liveHigh).1 :=
      follows_admissionNow s.readings s.nonces.liveHigh
    rwa [hjudged] at hread
  rw [hput] at hfollows hguarded
  have hmid := h.remembers_same hws.live hheld hkept hjournal hhigh
  have hnext := hmid.rewritten (w := w) hw (hjudgedTables.trans hfollows)
  refine
    { reads := hnext.reads
      covered := hnext.covered
      stage := hnext.stage.congr rfl rfl rfl rfl rfl
      once := ?_
      writer := ?_
      landed := hnext.landed
      ungrouped := nofun }
  · have honce := h.once
    rw [admitting, hw] at honce
    refine Once.cons (fun htop hmem => ?_) honce
    refine h.not_mem_admitting hws.live htop (fun hrow => hnot (hws.follows.guarded _ hrow))
      (fun howner => (hadded howner rfl).1) (fun w' hw' hspent => ?_) (by rw [admitting, hw]; exact hmem)
    obtain rfl := Option.some.inj (hw.symm.trans hw')
    exact hnot (hws.spent p hspent)
  · rintro w' ⟨⟩
    have hold := hnext.writer _ rfl
    refine ⟨hold.live, hold.follows, fun q hq => ?_, fun howner q hq => ?_, hold.grouped⟩
    · rcases mem_cons.mp hq with rfl | hq
      · exact hguarded
      · exact hold.spent q hq
    · rcases mem_cons.mp hq with rfl | hq
      · exact (hadded howner rfl).2
      · exact hold.staged howner q hq

/-- A door that is refused spends nothing. -/
theorem Sound.refusedInWriter {after : Option ProofTables} (hw : s.writer = some w)
    (hrecord : recordNonce blake3 tables s.nonces s.owner s.lastTxn p clock = (after, nonces)) :
    { s.aborted with nonces := nonces }.Sound xxh32 blake3 := by
  have hlive := (h.writer w hw).live
  rcases recordNonce_nonces hrecord with rfl | ⟨answer, hstage⟩
  · exact h.aborted
  · obtain ⟨hheld, hjournal, hhigh, hkept, -⟩ := stage_leaves hstage
    exact h.aborted.remembers_same hlive hheld hkept hjournal hhigh

/-- **Its rows, in the open transaction, refuse a spend made in memory.** -/
theorem Sound.landRow (hw : s.writer = some w) : { s with
      writer := some { w with
        tables := w.tables.putSpendRows s.readings s.nonces.liveHigh spend.key spend.proofNow }
      pending := s.repend spend { spend with stage := .grouped } }.Sound xxh32 blake3 := by
  obtain ⟨hfollows, hguarded⟩ :=
    w.tables.putSpendRows_guards s.readings s.nonces.liveHigh spend.key spend.proofNow
  generalize w.tables.putSpendRows s.readings s.nonces.liveHigh spend.key spend.proofNow = tables
    at hfollows hguarded ⊢
  have hmid := h.rewritten hw hfollows
  have hws := hmid.writer _ rfl
  refine
    { reads := hmid.reads
      covered := hmid.covered
      stage := hmid.stage.congr rfl rfl rfl rfl rfl
      once := hmid.once
      writer := ?_
      landed := fun other hother hlanded => ?_
      ungrouped := nofun }
  · rintro w' ⟨⟩
    refine ⟨hws.live, hws.follows, hws.spent, hws.staged, fun other hother hgrouped => ?_⟩
    rcases mem_repend hother with rfl | hother
    · exact hguarded
    · exact hws.grouped other hother hgrouped
  · rcases mem_repend hother with rfl | hother
    · cases hlanded
    · exact hmid.landed other hother hlanded

/-- A spend whose rows did not land takes its place again, or none. -/
theorem Sound.requeued (hnew : new.stage ≠ .landed ∧ new.stage ≠ .grouped) :
    { s with pending := s.repend old new }.Sound xxh32 blake3 :=
  h.repended _ (fun _ hmem hlanded => (mem_repend hmem).resolve_left fun heq => hnew.1 (heq ▸ hlanded))
    fun _ hmem hgrouped => (mem_repend hmem).resolve_left fun heq => hnew.2 (heq ▸ hgrouped)

/-- **A spend lands once its rows are committed**, and only then is it let go. -/
theorem Sound.landedCallback (hlive : s.stage = .live) (hspend : spend ∈ s.pending)
    (hlanded : spend.stage = .landed)
    (heq : s.nonces.landed failed spend.key s.file = (nonces, file)) :
    { s with nonces := nonces, file := file, pending := s.pending.erase spend }.Sound
      xxh32 blake3 := by
  have hrow := h.landed spend hspend hlanded
  obtain ⟨hstaged, hjournal, hhigh⟩ := s.nonces.leave_others spend.key
  have hleft : { s with nonces := s.nonces.leave spend.key }.Sound xxh32 blake3 := by
    refine h.remembers hlive (fun p hmem hnear => ?_) (fun _ hk => hstaged ▸ hk)
      (fun hopen => (h.live hlive).opened (hjournal ▸ hopen)) h.reads h.covered
    by_cases hkey : SpentKey.of blake3 p = spend.key
    · exact Or.inl (show s.tables.Guarded _ from hkey ▸ hrow)
    · exact Or.inr ⟨holding_leave hmem hkey, hhigh ▸ hnear⟩
  have htruncated := hleft.truncated hlive heq
  exact htruncated.repended (s.pending.erase spend) (fun _ hmem _ => mem_of_mem_erase hmem)
    fun _ hmem _ => mem_of_mem_erase hmem

end

section InMemory

variable {p : HolderProof} {clock : ProofClock} {now expiresAt : U64} {fault : Option FileFault}
variable {unread snapshotFails answer : Bool}

/-- What an admission leaves of a live process, but the proof it admits. -/
theorem Sound.admission (h : s.Sound xxh32 blake3) (hlive : s.stage = .live)
    (hadmits : Nonces.Admits xxh32 s.tables s.lastTxn (.of blake3 p) clock answer s.nonces nonces
      s.file file) :
    { s with nonces := nonces, file := file }.Sound xxh32 blake3 := by
  refine h.remembers hlive
    (fun q hmem hnear => Or.inr ⟨hadmits.held _ hmem, hnear.trans (Nat.add_le_add_right hadmits.liveHigh _)⟩)
    (fun k hk => hadmits.staged k _ hk (Nat.lt_succ_self _)) hadmits.journals.opened
    (hadmits.journals.holds _ h.reads readsTrue_nil
      fun _ slots r _ _ hreads => hreads.concat r) fun q hq htop => ?_
  rcases h.covered q hq htop with hrow | hlogged
  · exact Or.inl hrow
  rcases (h.live hlive).held q hq htop with hrow | ⟨-, -, hnear⟩
  · exact Or.inl hrow
  -- the clock a spend is judged on is no earlier than the latest before it
  · refine Or.inr (hadmits.journals.keeps _ hlogged fun hclock slots r _ hnow hslots => ?_)
    exact hslots.concat (hnow ▸ hnear.trans (Nat.add_le_add_right hclock _))

/-- The signed time of a proof let in, beside the clock it was judged on. -/
theorem timestamp_of_challenge (h : requestChallenge p.timestamp p.nonce clock = true) :
    p.timestamp.val ≤ clock.now.val + windowSecs.val ∧ clock.notBefore.val ≤ p.timestamp.val := by
  simp only [requestChallenge, Bool.and_eq_true, decide_eq_true_eq] at h
  exact ⟨h.1.1.1.2, h.1.1.2⟩

/-- **A proof admitted in memory was never admitted**, and is in the journal to stay. -/
theorem Sound.spentInMemory (h : s.Sound xxh32 blake3) (hlive : s.stage = .live)
    (howner : s.owner = true) (hchallenge : requestChallenge p.timestamp p.nonce clock = true)
    (hadmits : Nonces.Admits xxh32 s.tables s.lastTxn (.of blake3 p) clock true s.nonces nonces
      s.file file) :
    { s with
      nonces := nonces
      file := file
      pending := ⟨.of blake3 p, clock.now, 0, .queued⟩ :: s.pending
      admitted := p :: s.admitted }.Sound xxh32 blake3 := by
  obtain ⟨hnear, hnotBefore⟩ := timestamp_of_challenge hchallenge
  obtain ⟨hrow, hwatermark⟩ := hadmits.notGuarded rfl
  have hnotGuarded : ¬s.Recorded blake3 p := by
    rintro (hmem | hlt)
    · exact hrow hmem
    · exact absurd hlt (Nat.not_lt.mpr (hwatermark.trans hnotBefore))
  have hmid := (h.admission hlive hadmits).repended
    (⟨.of blake3 p, clock.now, 0, .queued⟩ :: s.pending)
    (fun spend hspend hlanded => (mem_cons.mp hspend).resolve_left (by rintro rfl; cases hlanded))
    fun spend hspend hgrouped => (mem_cons.mp hspend).resolve_left (by rintro rfl; cases hgrouped)
  have hmidLive := hmid.live hlive
  refine
    { reads := hmid.reads
      covered := fun q hq htop => ?_
      stage := ?_
      once := ?_
      writer := fun w hw =>
        have hws := hmid.writer w hw
        ⟨hws.live, hws.follows, hws.spent, hws.staged, hws.grouped⟩
      landed := hmid.landed
      ungrouped := hmid.ungrouped }
  · rcases mem_cons.mp hq with rfl | hq
    · refine Or.inr (hadmits.synced rfl _ fun slots r hkey hnow => ?_)
      have hself : Logged r.key (slots ++ [recordCells xxh32 r]) :=
        logged_concat_self (by rw [hkey, hnow]; exact hnear)
      rwa [hkey] at hself
    · exact hmid.covered q hq htop
  · show StageSound blake3 _ s.stage
    rw [hlive]
    refine ⟨fun q hq htop => ?_, hmidLive.opened⟩
    rcases mem_cons.mp hq with rfl | hq
    · exact Or.inr ⟨howner, hadmits.added rfl,
        hnear.trans (Nat.add_le_add_right (hadmits.high rfl) _)⟩
    · exact hmidLive.held q hq htop
  · refine Once.perm (l := p :: s.admitting) perm_middle.symm (Once.cons (fun htop => ?_) h.once)
    refine h.not_mem_admitting hlive htop hnotGuarded (fun _ => hadmits.notHeld rfl)
      fun w hw hspent => ?_
    have hstaged := hadmits.notStaged rfl _ ((h.writer w hw).staged howner p hspent)
    exact Nat.not_succ_le_self _ hstaged

end InMemory

section

variable (h : s.Sound xxh32 blake3)

include h

/-- **A swap leaves no spend only its process knows of.** -/
theorem Sound.swap (hlive : s.stage = .live) (hfence : s.nonces.fence s.tables = true) : { s with
      file := none
      nonces := { s.nonces with fenced := true, journal := false, journalLen := 0 } }.Sound
        xxh32 blake3 := by
  rw [Nonces.fence, Bool.and_eq_true, all_eq_true, all_eq_true] at hfence
  have hrow (k : SpentKey) (hk : s.nonces.Holding k) : s.tables.Guarded k := by
    refine Or.inl (ExtTreeSet.contains_iff_mem.mp ?_)
    rcases hk with hk | hk
    · exact hfence.1 k (ExtTreeMap.mem_keys.mpr hk)
    · exact hfence.2 k (ExtTreeSet.mem_toList.mpr hk)
  refine h.remembers hlive (fun p hmem _ => Or.inl (hrow _ hmem)) (fun _ => id) nofun nofun
    fun p hp htop => ?_
  rcases (h.live hlive).held p hp htop with hguarded | ⟨-, hmem, -⟩
  · exact Or.inl hguarded
  · exact Or.inl (hrow _ hmem)

/-- A recovery starts with nothing owed. -/
theorem Sound.beginClockRecovery (hlive : s.stage = .live)
    (hbegin : s.nonces.beginClockRecovery = some nonces) :
    { s with nonces := nonces }.Sound xxh32 blake3 := by
  rw [Nonces.beginClockRecovery] at hbegin
  split at hbegin
  · cases hbegin
  next hidle =>
  obtain rfl := Option.some.inj hbegin
  have hdrained : s.nonces.drained = true := by
    cases hd : s.nonces.drained with
    | true => rfl
    | false => simp [hd] at hidle
  exact h.remembers hlive (fun p hmem _ => absurd hmem (not_holding_of_drained hdrained))
    (fun _ => id) (h.live hlive).opened h.reads h.covered

/-- What an ended recovery leaves in memory is as it was, whatever the stage. -/
theorem Sound.endClockRecovery :
    { s with nonces := { s.nonces with recovering := false } }.Sound xxh32 blake3 := by
  by_cases hlive : s.stage = .live
  · exact h.remembers_same hlive (fun _ => Iff.rfl) (fun _ => id) rfl rfl
  · have hstage := h.stage
    have hnew : s.nonces = .new := by
      cases hs : s.stage with
      | live => exact absurd hs hlive
      | closed => rw [hs] at hstage; exact hstage
      | landing | refusing | emptying => rw [hs] at hstage; exact hstage.1
    have hsame : { s with nonces := { s.nonces with recovering := false } } = s := by
      rw [show ({ s.nonces with recovering := false } : Nonces) = s.nonces by rw [hnew]; rfl]
    exact hsame.symm ▸ h

/-- **A crash loses the memory**, and no proof the journal names. -/
theorem Sound.crash (hcrash : CrashFile.Crash recordLen (fun slot => (readSlot xxh32 slot).isSome)
      Prod.snd s.file file) : (s.ended file).Sound xxh32 blake3 where
  reads := hcrash.holds h.reads fun _ _ hdamaged => SpendJournal.ReadsTrue.damaged hdamaged
  covered p hp htop := (h.covered p hp htop).imp_right fun hkeeps =>
    hcrash.keeps hkeeps fun _ _ hdamaged => SpendJournal.Logged.damaged hdamaged
  stage := rfl
  once := h.once.of_append
  writer := nofun
  landed := nofun
  ungrouped := nofun

end

end ProofVault

end Oneiron
