import Oneiron.Contracts.Error
import Oneiron.Foundations.CrashFile
import Oneiron.Foundations.Saturating
import Oneiron.Foundations.System

/-!
# Store/LeaseJournal — the bounds a decision past the lease journals before it is returned

    bound (8, little-endian) ‖ OCL1 ‖ xxh32 of the twelve bytes before (4)

A decision past the committed lease appends a bound past its time to `clock-lease.journal` and syncs
it; an open replays the highest bound into the committed clock floor; a renewal that commits a lease
past every bound empties the file.  Each byte of the file is kept with the bound whose append wrote
it, which nothing in the program reads.
-/

namespace Oneiron

/-- A byte of the journal, and the bound its append was writing. -/
abbrev Cell := UInt8 × U64

def authorizationLeaseSecs : U64 := 5

def recordLen : ℕ := 16

def leaseRecordMagic : Bytes := ascii "OCL1"

section Record

variable (xxh32 : Bytes → UInt32)

/-- The little-endian tag over a record's first twelve bytes. -/
def recordTag (body : Bytes) : Bytes := (digits 4 (xxh32 body).toNat).reverse

def record (bound : U64) : Bytes :=
  let body := (digits 8 bound.val).reverse ++ leaseRecordMagic
  body ++ recordTag xxh32 body

def parseRecord (bytes : Bytes) : Option U64 :=
  if bytes.length ≠ recordLen ∨ (bytes.drop 8).take 4 ≠ leaseRecordMagic ∨
      recordTag xxh32 (bytes.take 12) ≠ bytes.drop 12 then
    none
  else
    some (U64.ofNat (valueOf (bytes.take 8).reverse))

/-- One chunk's part in the bound: whether a record that does not read stands since the last that
does. -/
def scanChunk (seen : U64 × Bool) (chunk : Bytes) : U64 × Bool :=
  match parseRecord xxh32 chunk with
  | some bound => (seen.1.max bound, false)
  | none => (seen.1, true)

/-- The highest time a decision the journal covers may have taken. -/
def journaledBound (bytes : Option Bytes) : Except Error U64 :=
  match bytes with
  | none => .ok 0
  | some bytes =>
    let seen := (chunksExact recordLen bytes).foldl (scanChunk xxh32) (0, false)
    if seen.2 then .error (.corruptedIndex "clock lease journal") else .ok seen.1

end Record

/-- What the owned open keeps of its journal. -/
structure JournalState where
  dirSynced : Bool
  /-- The highest bound this open synced. -/
  covered : U64
  /-- A record was appended since the last truncate. -/
  owed : Bool
  deriving DecidableEq

instance : Inhabited JournalState := ⟨⟨false, 0, false⟩⟩

abbrev JournalFile := CrashFile Cell

/-- The bytes of a record as its append writes them. -/
def recordCells (xxh32 : Bytes → UInt32) (bound : U64) : List Cell :=
  (record xxh32 bound).map (·, bound)

/-- Makes a decision at `now` durable before it is returned. -/
def cover (xxh32 : Bytes → UInt32) (fault : Option FileFault) (now : U64) (state : JournalState)
    (file : Option JournalFile) : Bool × JournalState × Option JournalFile :=
  if now.val ≤ state.covered.val then (true, state, file) else
  match CrashFile.openForAppend recordLen fault (!state.dirSynced) file with
  | .error file => (false, state, file)
  | .ok opened =>
    let bound := now.satAdd authorizationLeaseSecs
    match opened.appendSynced fault (recordCells xxh32 bound) with
    | (true, file) => (true, ⟨true, bound, true⟩, some file)
    | (false, file) => (false, { state with dirSynced := true }, some file)

/-- Empties the journal; an absent one is empty already. -/
def truncate (failed : Bool) (file : Option JournalFile) : Option (Option JournalFile) :=
  if failed then none else some (file.map (·.setLen 0))

/-- A renewal committed `leased`. -/
def settle (failed : Bool) (leased : U64) (state : JournalState) (file : Option JournalFile) :
    JournalState × Option JournalFile :=
  if ¬state.owed ∨ leased.val < state.covered.val then (state, file) else
  match truncate failed file with
  | some file => ({ state with owed := false }, file)
  | none => (state, file)

/-- The committed clock floor and authorization lease. -/
structure ClockRow where
  floor : U64
  lease : U64
  deriving DecidableEq

namespace ClockRow

/-- The latest time the row holds. -/
def high (row : ClockRow) : ℕ := max row.floor.val row.lease.val

/-- `renew_authorization_lease_in_txn` at the time it observed: a lease another handle committed may
already cover it. -/
def renewed (row : ClockRow) (now : U64) : ClockRow :=
  ⟨now, if now.val ≤ row.lease.val then row.lease else now.satAdd authorizationLeaseSecs⟩

/-- The owned open's commit of the bound it replayed. -/
def replayed (row : ClockRow) (bound : U64) : ClockRow :=
  if row.floor.val < bound.val then { row with floor := bound } else row

end ClockRow

/-- Where the vault's owner is. -/
inductive Opening where
  | closed
  /-- The bound is read, and not committed. -/
  | replayed (bound : U64)
  /-- The bound is committed, and the journal not emptied. -/
  | committed
  | live (state : JournalState)

/-- The journal's file, the committed row and the owner; of the past, the times covered, and those
at which an append of this open failed. -/
structure LeaseVault where
  file : Option JournalFile
  row : ClockRow
  opening : Opening
  taken : List U64
  refused : List U64

/-- A vault that no decision was made on. -/
def LeaseVault.fresh : LeaseVault := ⟨none, ⟨0, 0⟩, .closed, [], []⟩

/-- The bytes a reader of the journal finds. -/
def LeaseVault.bytes (s : LeaseVault) : Option Bytes := s.file.map fun f => f.content.map Prod.fst

inductive LeaseMove where
  | replayAtOpen
  | commitBound
  | truncateAfterReplay (failed : Bool)
  | cover (fault : Option FileFault) (now : U64)
  | raise (floor : U64)
  | renew (now : U64)
  | settle (failed : Bool) (leased : U64)
  | crash

/-- What a slot of the journal reads as. -/
def readSlot (xxh32 : Bytes → UInt32) (slot : List Cell) : Option U64 :=
  parseRecord xxh32 (slot.map Prod.fst)

inductive LeaseStep (xxh32 : Bytes → UInt32) : LeaseVault → LeaseMove → LeaseVault → Prop
  /-- An open with nothing journaled has nothing to commit. -/
  | openEmpty {s : LeaseVault} {bound : U64} : s.opening = .closed →
      journaledBound xxh32 s.bytes = .ok bound → bound = 0 →
      LeaseStep xxh32 s .replayAtOpen { s with opening := .live default, refused := [] }
  | openReplayed {s : LeaseVault} {bound : U64} : s.opening = .closed →
      journaledBound xxh32 s.bytes = .ok bound → bound ≠ 0 →
      LeaseStep xxh32 s .replayAtOpen { s with opening := .replayed bound }
  | commitBound {s : LeaseVault} {bound : U64} : s.opening = .replayed bound →
      LeaseStep xxh32 s .commitBound { s with row := s.row.replayed bound, opening := .committed }
  /-- A failed truncate leaves records at or below the committed floor. -/
  | truncateAfterReplay {s : LeaseVault} (failed : Bool) : s.opening = .committed →
      LeaseStep xxh32 s (.truncateAfterReplay failed)
        { s with
          file := (truncate failed s.file).getD s.file
          opening := .live default
          refused := [] }
  | cover {s : LeaseVault} {state after : JournalState} {file : Option JournalFile} {taken : Bool}
      (fault : Option FileFault) (now : U64) : s.opening = .live state →
      Oneiron.cover xxh32 fault now state s.file = (taken, after, file) →
      LeaseStep xxh32 s (.cover fault now)
        { s with
          file := file
          opening := .live after
          taken := if taken then now :: s.taken else s.taken
          refused := if !taken && fault.any (·.atAppend) then now :: s.refused else s.refused }
  /-- A write commits a later floor. -/
  | raise {s : LeaseVault} (floor : U64) : s.row.floor.val ≤ floor.val →
      LeaseStep xxh32 s (.raise floor) { s with row := { s.row with floor := floor } }
  /-- A renewal's time is never below the committed floor. -/
  | renew {s : LeaseVault} (now : U64) : s.row.floor.val ≤ now.val →
      LeaseStep xxh32 s (.renew now) { s with row := s.row.renewed now }
  /-- A lease is settled after it is committed. -/
  | settle {s : LeaseVault} {state after : JournalState} {file : Option JournalFile}
      (failed : Bool) (leased : U64) : s.opening = .live state → leased.val ≤ s.row.lease.val →
      Oneiron.settle failed leased state s.file = (after, file) →
      LeaseStep xxh32 s (.settle failed leased) { s with file := file, opening := .live after }
  | crash {s : LeaseVault} {file : Option JournalFile} :
      CrashFile.Crash recordLen (fun slot => (readSlot xxh32 slot).isSome) Prod.snd s.file file →
      LeaseStep xxh32 s .crash { s with file := file, opening := .closed }

def leaseSystem (xxh32 : Bytes → UInt32) : System LeaseVault LeaseMove where
  init s := s = LeaseVault.fresh
  step := LeaseStep xxh32

end Oneiron
