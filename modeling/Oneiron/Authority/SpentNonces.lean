import Oneiron.Authority.SlipReplay
import Oneiron.Contracts.Error
import Oneiron.Foundations.CrashFile
import Oneiron.Foundations.System

/-!
# Authority/SpentNonces — holder-proof nonces spent in memory, and their journal

    timestamp (8) ‖ digest (32) ‖ window end (8) ‖ proof clock (8) ‖ highest before (8) ‖ xxh32 (4)

An admission that takes no writer appends its proof to `slip-spend.journal` and syncs it, holds it in
memory, and lets go once its row is committed.  A spend in a writer is staged in memory until its
transaction is decided.  An open with the writer lease lands every record of the journal, or raises
`not_before` past those it cannot prove landed, before it empties the file.
-/

open Std

namespace Oneiron

/-! ### The journal -/

structure JournalRecord where
  key : SpentKey
  windowEnd : U64
  proofNow : U64
  /-- The highest proof clock a record before it named. -/
  high : U64
  deriving DecidableEq

namespace SpendJournal

def recordLen : ℕ := 68

def capBytes : ℕ := 1024 * 1024

/-- A byte of the journal, and the record its append was writing, which nothing reads. -/
abbrev Cell := UInt8 × JournalRecord

abbrev File := CrashFile Cell

/-- An unsigned integer as it is written: eight bytes, little-endian. -/
def leBytes (x : U64) : Bytes := (digits 8 x.val).reverse

/-- The integer written at an offset. -/
def leU64 (bytes : Bytes) (offset : ℕ) : U64 :=
  U64.ofNat (valueOf ((bytes.drop offset).take 8).reverse)

section Record

variable (xxh32 : Bytes → UInt32)

def recordTag (body : Bytes) : Bytes := (digits 4 (xxh32 body).toNat).reverse

/-- The first sixty-four bytes. -/
def recordBody (r : JournalRecord) : Bytes :=
  leBytes r.key.timestamp ++ r.key.digest.bytes ++ leBytes r.windowEnd ++ leBytes r.proofNow ++
    leBytes r.high

def journalRecord (r : JournalRecord) : Bytes := recordBody r ++ recordTag xxh32 (recordBody r)

def parseJournalRecord (bytes : Bytes) : Option JournalRecord :=
  if h : bytes.length = recordLen then
    if recordTag xxh32 (bytes.take 64) ≠ bytes.drop 64 then none else
    some
      { key :=
          { timestamp := leU64 bytes 0
            digest := ⟨(bytes.drop 8).take 32, by
              rw [List.length_take, List.length_drop, h]; rfl⟩ }
        windowEnd := leU64 bytes 40
        proofNow := leU64 bytes 48
        high := leU64 bytes 56 }
  else
    none

/-- The bytes of a record as its append writes them. -/
def recordCells (r : JournalRecord) : List Cell := (journalRecord xxh32 r).map (·, r)

/-- What a slot of the journal reads as. -/
def readSlot (slot : List Cell) : Option JournalRecord := parseJournalRecord xxh32 (slot.map Prod.fst)

end Record

/-- The bytes a reader finds. -/
def bytes (file : Option File) : Option Bytes := file.map fun f => f.content.map Prod.fst

end SpendJournal

/-! ### The set of one environment's spends in memory -/

structure Nonces where
  fenced : Bool
  recovering : Bool
  /-- Spent and not landed, each with the second its slip's replay window ends. -/
  admitted : OrderedMap SpentKey U64
  /-- `admitted` in the order its entries leave. -/
  leaving : OrderedSet (U64 × SpentKey)
  expiredUnlanded : OrderedSet SpentKey
  /-- Spent in a writer, each with the id its transaction commits as. -/
  staged : OrderedMap SpentKey ℕ
  queuing : ℕ
  /-- Whether the journal is open. -/
  journal : Bool
  journalLen : ℕ
  journalHigh : U64
  liveHigh : U64

namespace Nonces

def new : Nonces := ⟨false, false, ∅, ∅, ∅, ∅, 0, false, 0, 0, 0⟩

variable (nonces : Nonces)

/-- One entry whose replay window ended: its journal record stays owed. -/
def expire (gone : U64 × SpentKey) : Nonces :=
  { nonces with
    leaving := nonces.leaving.erase gone
    admitted := nonces.admitted.erase gone.2
    expiredUnlanded := nonces.expiredUnlanded.insert gone.2 }

def leaveBefore (now : U64) : Nonces :=
  (nonces.leaving.toList.takeWhile fun gone => decide (gone.1.val < now.val)).foldl expire nonces

def leave (key : SpentKey) : Nonces :=
  let nonces := match nonces.admitted[key]? with
    | some ends =>
      { nonces with
        admitted := nonces.admitted.erase key
        leaving := nonces.leaving.erase (ends, key) }
    | none => nonces
  { nonces with expiredUnlanded := nonces.expiredUnlanded.erase key }

/-- Whether every spend journaled here has landed its rows. -/
def drained : Bool := nonces.admitted.isEmpty && nonces.expiredUnlanded.isEmpty && nonces.queuing == 0

/-- What opening the journal reads its highest proof clock from. -/
def highOf (xxh32 : Bytes → UInt32) (content : Bytes) (high : U64) : U64 :=
  ((chunksExact SpendJournal.recordLen content).filterMap
    (SpendJournal.parseJournalRecord xxh32)).foldl
      (fun high record => (high.max record.proofNow).max record.high) high

/-- The records may not read: then no clock is taken from them. -/
def openJournalIfNeeded (xxh32 : Bytes → UInt32) (fault : Option FileFault) (unread : Bool)
    (file : Option SpendJournal.File) : Bool × Nonces × Option SpendJournal.File :=
  if nonces.journal then (true, nonces, file) else
  match CrashFile.openForAppend SpendJournal.recordLen fault true file with
  | .error file => (false, nonces, file)
  | .ok opened =>
    let content := opened.content.map Prod.fst
    let high := if content.isEmpty || unread then nonces.journalHigh
      else highOf xxh32 content nonces.journalHigh
    (true, { nonces with journal := true, journalLen := content.length, journalHigh := high },
      some opened)

/-- Appends one spend's record and syncs it. -/
def appendJournal (xxh32 : Bytes → UInt32) (fault : Option FileFault) (unread : Bool)
    (key : SpentKey) (windowEnd proofNow : U64) (file : Option SpendJournal.File) :
    Bool × Nonces × Option SpendJournal.File :=
  match nonces.openJournalIfNeeded xxh32 fault unread file with
  | (false, nonces, file) => (false, nonces, file)
  | (true, nonces, none) => (false, nonces, none)
  | (true, nonces, some f) =>
    if SpendJournal.capBytes < nonces.journalLen + SpendJournal.recordLen then
      (false, nonces, some f)
    else
      let high := nonces.journalHigh.max proofNow
      let cells := SpendJournal.recordCells xxh32 ⟨key, windowEnd, proofNow, high⟩
      match f.appendSynced fault cells with
      | (true, f) =>
        (true,
          { nonces with
            journalLen := nonces.journalLen + SpendJournal.recordLen
            journalHigh := high
            liveHigh := nonces.liveHigh.max proofNow },
          some f)
      | (false, f) => (false, { nonces with journal := false, journalLen := 0 }, some f)

/-- Empties the open journal. -/
def emptyJournal (failed : Bool) (file : Option SpendJournal.File) :
    Nonces × Option SpendJournal.File :=
  if nonces.journal && !failed then
    ({ nonces with journalLen := 0 }, file.map (·.setLen 0))
  else
    (nonces, file)

def truncateJournalIfDrained (failed : Bool) (file : Option SpendJournal.File) :
    Nonces × Option SpendJournal.File :=
  if !nonces.drained || nonces.journalLen == 0 then (nonces, file)
  else nonces.emptyJournal failed file

/-- Whether the clock read now, or the committed rows, send a spend to the writer's path. -/
def moved (tables : ProofTables) (readings : Readings) (key : SpentKey) (clock : ProofClock) : Bool :=
  let floor := tables.proofFloor readings
  let now := (floor.max readings.wall).max nonces.liveHigh
  decide (clock.now.val < floor.val) || decide (now.val < clock.now.val) ||
    decide (clock.notBefore.val < tables.watermark.val) || tables.rows.contains key

/-- Spends a proof judged on `clock` for an admission at authority second `now`. -/
def admission (xxh32 : Bytes → UInt32) (fault : Option FileFault) (unread snapshotFails : Bool)
    (tables : ProofTables) (readings : Readings) (decided : ℕ) (key : SpentKey)
    (now expiresAt : U64) (clock : ProofClock) (file : Option SpendJournal.File) :
    Bool × Nonces × Option SpendJournal.File :=
  if nonces.fenced || nonces.recovering then (false, nonces, file) else
  if clock.now.val < nonces.liveHigh.val then (false, nonces, file) else
  let nonces := nonces.leaveBefore now
  let nonces := { nonces with staged := nonces.staged.filter fun _ commitsAs => decided < commitsAs }
  if nonces.admitted.contains key || nonces.expiredUnlanded.contains key ||
      nonces.staged.contains key then
    (false, nonces, file)
  else if snapshotFails || nonces.moved tables readings key clock then (false, nonces, file)
  else
    let ends := expiresAt.satAdd windowSecs
    match nonces.appendJournal xxh32 fault unread key ends clock.now file with
    | (false, nonces, file) => (false, nonces, file)
    | (true, nonces, file) =>
      (true,
        { nonces with
          admitted := nonces.admitted.insert key ends
          leaving := nonces.leaving.insert (ends, key)
          queuing := nonces.queuing + 1 },
        file)

/-- Stages a writer's spend; where the process holds no lease, no admission spends in memory. -/
def stage (owner : Bool) (lastTxn : ℕ) (key : SpentKey) : Bool × Nonces :=
  if !owner then (true, nonces) else
  let commitsAs := lastTxn + 1
  let nonces := { nonces with staged := nonces.staged.filter fun _ staged => commitsAs ≤ staged }
  if nonces.admitted.contains key || nonces.expiredUnlanded.contains key then (false, nonces)
  else (true, { nonces with staged := nonces.staged.insert key commitsAs })

def noteQueued (failed : Bool) (file : Option SpendJournal.File) :
    Nonces × Option SpendJournal.File :=
  { nonces with queuing := nonces.queuing - 1 }.truncateJournalIfDrained failed file

def landed (failed : Bool) (key : SpentKey) (file : Option SpendJournal.File) :
    Nonces × Option SpendJournal.File :=
  (nonces.leave key).truncateJournalIfDrained failed file

/-- An owner's clock recovery, while every spend here has landed and no other is under way. -/
def beginClockRecovery : Option Nonces :=
  if nonces.recovering || !nonces.drained then none
  else some { nonces with recovering := true, liveHigh := 0 }

/-- Whether every spend here is a committed row. -/
def fence (tables : ProofTables) : Bool :=
  nonces.admitted.keys.all (tables.rows.contains ·) &&
    nonces.expiredUnlanded.toList.all (tables.rows.contains ·)

end Nonces

/-! ### The journal's replay -/

namespace SpendJournal

/-- What a replay reads off the journal. -/
structure Replay where
  records : List JournalRecord
  unreadable : ℕ
  /-- The largest proof clock the journal names, and its last write time. -/
  proofBound : U64
  readLen : ℕ

/-- One chunk's part: the records read, those that do not read, and whether one such stands since the
last that does. -/
def scanChunk (xxh32 : Bytes → UInt32) (seen : List JournalRecord × ℕ × Bool) (chunk : Bytes) :
    List JournalRecord × ℕ × Bool :=
  match parseJournalRecord xxh32 chunk with
  | some record => (seen.1 ++ [record], seen.2.1, false)
  | none => (seen.1, seen.2.1 + 1, true)

/-- The largest proof clock of some records, from one on. -/
def proofBound (written : U64) (records : List JournalRecord) : U64 :=
  records.foldl (fun bound record => (bound.max record.proofNow).max record.high) written

/-- The journal as a replay reads it; none where it holds nothing. -/
def readJournal (xxh32 : Bytes → UInt32) (written : U64) (bytes : Option Bytes) :
    Except Error (Option Replay) :=
  match bytes with
  | none | some [] => .ok none
  | some bytes =>
    let seen := (chunksExact recordLen bytes).foldl (scanChunk xxh32) ([], 0, false)
    if seen.2.2 then .error (.corruptedIndex "slip-spend journal") else
    .ok (some
      { records := seen.1
        unreadable := seen.2.1
        proofBound := proofBound written seen.1
        readLen := bytes.length - bytes.length % recordLen })

end SpendJournal

namespace ProofTables

variable (tables : ProofTables)

/-- The proof clock a spend judged on rises into the floor. -/
def raiseFloor (proofNow : U64) : ProofTables :=
  if tables.floor.all fun floor => decide (floor.val < proofNow.val) then
    { tables with floor := some proofNow }
  else
    tables

/-- The rows a spend made in memory leaves, on the proof clock read here. -/
def putSpendRows (readings : Readings) (proofHigh : U64) (key : SpentKey)
    (proofNow : U64) : ProofTables :=
  let admission := (tables.raiseFloor proofNow).admissionNow readings proofHigh
  (admission.1.putNonceRow key admission.2).1

/-- The rows of the records a replay read, on one clock. -/
def putRecords (clock : ProofClock) (records : List JournalRecord) : ProofTables :=
  records.foldl (fun tables record => (tables.putNonceRow record.key clock).1) tables

/-- A replay's landing of the records read. -/
def landRecords (readings : Readings) (proofHigh : U64)
    (records : List JournalRecord) : ProofTables :=
  let admission := tables.admissionNow readings proofHigh
  admission.1.putRecords admission.2 records

/-- No watermark under a floor. -/
def raiseWatermark (floor : U64) : ProofTables :=
  if tables.notBefore.all fun kept => decide (kept.val < floor.val) then
    { tables with notBefore := some floor }
  else
    tables

/-- `refuse_journaled_proofs`: `not_before` rises past every proof the journal may hold. -/
def refuseJournaledProofs (readings : Readings) (proofHigh proofBound : U64) : ProofTables :=
  let admission := tables.admissionNow readings proofHigh
  admission.1.raiseWatermark ((admission.2.now.max proofBound).satAdd (windowSecs.satAdd 1))

end ProofTables

/-- `record_nonce`; nothing is written where the proof is refused. -/
def recordNonce (blake3 : Bytes → Digest) (tables : ProofTables) (nonces : Nonces) (owner : Bool)
    (lastTxn : ℕ) (proof : HolderProof) (clock : ProofClock) : Option ProofTables × Nonces :=
  if !requestChallenge proof.timestamp proof.nonce clock then (none, nonces) else
  match nonces.stage owner lastTxn (.of blake3 proof) with
  | (false, nonces) => (none, nonces)
  | (true, nonces) =>
    match tables.putNonceRow (.of blake3 proof) clock with
    | (tables, true) => (some tables, nonces)
    | (_, false) => (none, nonces)

end Oneiron
