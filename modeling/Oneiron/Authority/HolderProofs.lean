import Oneiron.Authority.SpentNonces

/-!
# Authority/HolderProofs — a vault that admits holder proofs, through crashes and reopens

    closed --replay--▸ landing --▸ (refusing --▸) emptying --▸ live --crash--▸ closed

One process at a time holds the writer lease: an owner, which may spend in memory, or another that
took it for its own writer's spends.  One writer transaction is open at a time, on a draft of the
committed rows.  The rows of a spend made in memory land in some later transaction, or fail and are
tried again, and its callback runs later still.
-/

namespace Oneiron

open SpendJournal

inductive SpendStage where
  | queued
  /-- Its rows are in the open transaction. -/
  | grouped
  /-- Its rows are committed, and its callback has not run. -/
  | landed
  | failed
  deriving DecidableEq

/-- One in-memory spend's rows, on their way through the detached door. -/
structure NonceSpend where
  key : SpentKey
  proofNow : U64
  /-- Its tries whose rows did not land. -/
  failures : ℕ
  stage : SpendStage
  deriving DecidableEq

def nonceSpendAttempts : ℕ := 3

/-- A writer's transaction: its view of the rows, and the proofs it admits when it commits. -/
structure ProofWriter where
  tables : ProofTables
  spent : List HolderProof

/-- Where the environment's process is. -/
inductive ReplayStage where
  | closed
  | landing (replay : SpendJournal.Replay)
  | refusing (proofBound : U64)
  /-- Every journaled proof is refused; the journal is emptied where nothing was appended since. -/
  | emptying (readLen : Option ℕ)
  | live

structure ProofVault where
  tables : ProofTables
  file : Option SpendJournal.File
  readings : Readings
  lastTxn : ℕ
  writer : Option ProofWriter
  stage : ReplayStage
  /-- The process holds the lease by its open, and may spend in memory. -/
  owner : Bool
  nonces : Nonces
  pending : List NonceSpend
  /-- The proofs admitted so far: those answered from memory, and those a writer committed. -/
  admitted : List HolderProof

namespace ProofVault

def fresh (readings : Readings) : ProofVault :=
  ⟨.empty, none, readings, 0, none, .closed, false, .new, [], []⟩

/-- What a process leaves when it ends. -/
def ended (s : ProofVault) (file : Option SpendJournal.File) : ProofVault :=
  { s with file := file, writer := none, stage := .closed, nonces := .new, pending := [] }

/-- A group that did not commit. -/
def aborted (s : ProofVault) : ProofVault :=
  { s with
    writer := none
    pending := s.pending.map fun spend =>
      if spend.stage = .grouped then { spend with stage := .failed } else spend }

/-- A group that did. -/
def committed (s : ProofVault) (writer : ProofWriter) : ProofVault :=
  { s with
    tables := writer.tables
    lastTxn := s.lastTxn + 1
    writer := none
    pending := s.pending.map fun spend =>
      if spend.stage = .grouped then { spend with stage := .landed } else spend
    admitted := writer.spent ++ s.admitted }

/-- A pending spend in another's place. -/
def repend (s : ProofVault) (old new : NonceSpend) : List NonceSpend := new :: s.pending.erase old

/-- What an open does once every journaled proof is refused. -/
def emptied (s : ProofVault) (xxh32 : Bytes → UInt32) (fault : Option FileFault)
    (unread failed : Bool) (readLen : Option ℕ) : ProofVault :=
  let (opened, nonces, file) := s.nonces.openJournalIfNeeded xxh32 fault unread s.file
  let (nonces, file) :=
    if opened && nonces.drained && readLen.all (· == nonces.journalLen) then
      nonces.emptyJournal failed file
    else
      (nonces, file)
  { s with stage := .live, nonces := nonces, file := file }

end ProofVault

inductive ProofMove where
  | tick (readings : Readings)
  | replayAtOpen (owner : Bool) (written : U64)
  | land
  | landFails
  | refuse
  | empty (fault : Option FileFault) (unread failed : Bool)
  | beginWrite
  | spendInWriter (proof : HolderProof)
  | landRow (spend : NonceSpend)
  | rowLost (spend : NonceSpend)
  | commit
  | abort
  | landedCallback (spend : NonceSpend) (failed : Bool)
  | retryCallback (spend : NonceSpend)
  | spendInMemory (proof : HolderProof) (now expiresAt : U64) (clock : ProofClock)
      (fault : Option FileFault) (unread snapshotFails : Bool)
  | noteQueued (failed : Bool)
  | closeForSwap
  | swap
  | beginClockRecovery
  | recoverProofClock
  | endClockRecovery
  | crash

inductive ProofStep (xxh32 : Bytes → UInt32) (blake3 : Bytes → Digest) :
    ProofVault → ProofMove → ProofVault → Prop
  | tick {s : ProofVault} (readings : Readings) :
      ProofStep xxh32 blake3 s (.tick readings) { s with readings := readings }
  | openEmpty {s : ProofVault} (owner : Bool) (written : U64) : s.stage = .closed →
      readJournal xxh32 written (bytes s.file) = .ok none →
      ProofStep xxh32 blake3 s (.replayAtOpen owner written)
        { s with stage := .live, owner := owner }
  | openJournaled {s : ProofVault} {replay : SpendJournal.Replay} (owner : Bool) (written : U64) :
      s.stage = .closed →
      readJournal xxh32 written (bytes s.file) = .ok (some replay) →
      ProofStep xxh32 blake3 s (.replayAtOpen owner written)
        { s with stage := .landing replay, owner := owner }
  /-- The records read are committed rows; those that do not read are refused next. -/
  | land {s : ProofVault} {replay : SpendJournal.Replay} : s.stage = .landing replay →
      ProofStep xxh32 blake3 s .land
        { s with
          tables := if replay.records = [] then s.tables
            else s.tables.landRecords s.readings s.nonces.liveHigh replay.records
          lastTxn := if replay.records = [] then s.lastTxn else s.lastTxn + 1
          stage := if 0 < replay.unreadable then .refusing replay.proofBound
            else .emptying (some replay.readLen) }
  | landFails {s : ProofVault} {replay : SpendJournal.Replay} : s.stage = .landing replay →
      replay.records ≠ [] →
      ProofStep xxh32 blake3 s .landFails { s with stage := .refusing replay.proofBound }
  | refuse {s : ProofVault} {proofBound : U64} : s.stage = .refusing proofBound →
      ProofStep xxh32 blake3 s .refuse
        { s with
          tables := s.tables.refuseJournaledProofs s.readings s.nonces.liveHigh proofBound
          lastTxn := s.lastTxn + 1
          stage := .emptying none }
  | empty {s : ProofVault} {readLen : Option ℕ} (fault : Option FileFault) (unread failed : Bool) :
      s.stage = .emptying readLen →
      ProofStep xxh32 blake3 s (.empty fault unread failed)
        (s.emptied xxh32 fault unread failed readLen)
  | beginWrite {s : ProofVault} : s.stage = .live → s.writer = none →
      ProofStep xxh32 blake3 s .beginWrite { s with writer := some ⟨s.tables, []⟩ }
  | spendInWriter {s : ProofVault} {writer : ProofWriter} {tables : ProofTables} {clock : ProofClock}
      {after : ProofTables} {nonces : Nonces} (proof : HolderProof) : s.writer = some writer →
      writer.tables.admissionNow s.readings s.nonces.liveHigh = (tables, clock) →
      recordNonce blake3 tables s.nonces s.owner s.lastTxn proof clock = (some after, nonces) →
      ProofStep xxh32 blake3 s (.spendInWriter proof)
        { s with writer := some ⟨after, proof :: writer.spent⟩, nonces := nonces }
  /-- A door that is refused lets its writer go. -/
  | refusedInWriter {s : ProofVault} {writer : ProofWriter} {tables : ProofTables}
      {clock : ProofClock} {nonces : Nonces} (proof : HolderProof) : s.writer = some writer →
      writer.tables.admissionNow s.readings s.nonces.liveHigh = (tables, clock) →
      recordNonce blake3 tables s.nonces s.owner s.lastTxn proof clock = (none, nonces) →
      ProofStep xxh32 blake3 s (.spendInWriter proof) { s.aborted with nonces := nonces }
  | landRow {s : ProofVault} {writer : ProofWriter} {spend : NonceSpend} : s.writer = some writer →
      spend ∈ s.pending → spend.stage = .queued →
      ProofStep xxh32 blake3 s (.landRow spend)
        { s with
          writer := some { writer with
            tables := writer.tables.putSpendRows s.readings s.nonces.liveHigh spend.key
              spend.proofNow }
          pending := s.repend spend { spend with stage := .grouped } }
  /-- Its closure failed, or it was lost before any group ran it. -/
  | rowLost {s : ProofVault} {spend : NonceSpend} : spend ∈ s.pending → spend.stage = .queued →
      ProofStep xxh32 blake3 s (.rowLost spend)
        { s with pending := s.repend spend { spend with stage := .failed } }
  | commit {s : ProofVault} {writer : ProofWriter} : s.writer = some writer →
      ProofStep xxh32 blake3 s .commit (s.committed writer)
  | abort {s : ProofVault} : ProofStep xxh32 blake3 s .abort s.aborted
  | landedCallback {s : ProofVault} {spend : NonceSpend} {nonces : Nonces}
      {file : Option SpendJournal.File} (failed : Bool) : s.stage = .live →
      spend ∈ s.pending → spend.stage = .landed →
      s.nonces.landed failed spend.key s.file = (nonces, file) →
      ProofStep xxh32 blake3 s (.landedCallback spend failed)
        { s with nonces := nonces, file := file, pending := s.pending.erase spend }
  /-- Its rows are queued again, or given up for a healer item. -/
  | retryCallback {s : ProofVault} {spend : NonceSpend} : spend ∈ s.pending →
      spend.stage = .failed →
      ProofStep xxh32 blake3 s (.retryCallback spend)
        { s with
          pending := if spend.failures + 1 < nonceSpendAttempts then
              s.repend spend { spend with failures := spend.failures + 1, stage := .queued }
            else s.pending.erase spend }
  /-- The proof was judged on a clock read in some earlier snapshot. -/
  | spentInMemory {s : ProofVault} {nonces : Nonces} {file : Option SpendJournal.File}
      (proof : HolderProof) (now expiresAt : U64) (clock : ProofClock) (fault : Option FileFault)
      (unread snapshotFails : Bool) : s.stage = .live → s.owner = true →
      requestChallenge proof.timestamp proof.nonce clock = true →
      s.nonces.admission xxh32 fault unread snapshotFails s.tables s.readings s.lastTxn
        (.of blake3 proof) now expiresAt clock s.file = (true, nonces, file) →
      ProofStep xxh32 blake3 s (.spendInMemory proof now expiresAt clock fault unread snapshotFails)
        { s with
          nonces := nonces
          file := file
          pending := ⟨.of blake3 proof, clock.now, 0, .queued⟩ :: s.pending
          admitted := proof :: s.admitted }
  | notInMemory {s : ProofVault} {nonces : Nonces} {file : Option SpendJournal.File}
      (proof : HolderProof) (now expiresAt : U64) (clock : ProofClock) (fault : Option FileFault)
      (unread snapshotFails : Bool) : s.stage = .live → s.owner = true →
      requestChallenge proof.timestamp proof.nonce clock = true →
      s.nonces.admission xxh32 fault unread snapshotFails s.tables s.readings s.lastTxn
        (.of blake3 proof) now expiresAt clock s.file = (false, nonces, file) →
      ProofStep xxh32 blake3 s (.spendInMemory proof now expiresAt clock fault unread snapshotFails)
        { s with nonces := nonces, file := file }
  | noteQueued {s : ProofVault} {nonces : Nonces} {file : Option SpendJournal.File}
      (failed : Bool) : s.stage = .live → s.nonces.noteQueued failed s.file = (nonces, file) →
      ProofStep xxh32 blake3 s (.noteQueued failed) { s with nonces := nonces, file := file }
  | closeForSwap {s : ProofVault} : s.stage = .live →
      ProofStep xxh32 blake3 s .closeForSwap { s with nonces := { s.nonces with fenced := true } }
  /-- In the swap's own writer, to a replacement with the same rows: the journal moves aside with the
  directory. -/
  | swap {s : ProofVault} : s.stage = .live → s.writer = none → s.nonces.fence s.tables = true →
      ProofStep xxh32 blake3 s .swap
        { s with
          file := none
          nonces := { s.nonces with fenced := true, journal := false, journalLen := 0 } }
  | beginClockRecovery {s : ProofVault} {nonces : Nonces} : s.stage = .live → s.owner = true →
      s.nonces.beginClockRecovery = some nonces →
      ProofStep xxh32 blake3 s .beginClockRecovery { s with nonces := nonces }
  | recoverProofClock {s : ProofVault} {writer : ProofWriter} {tables : ProofTables} :
      s.writer = some writer → s.nonces.recovering = true →
      writer.tables.recoverProofClock s.readings = some tables →
      ProofStep xxh32 blake3 s .recoverProofClock
        { s with writer := some { writer with tables := tables } }
  | endClockRecovery {s : ProofVault} :
      ProofStep xxh32 blake3 s .endClockRecovery
        { s with nonces := { s.nonces with recovering := false } }
  | crash {s : ProofVault} {file : Option SpendJournal.File} :
      CrashFile.Crash recordLen
        (fun slot => (readSlot xxh32 slot).isSome) Prod.snd s.file file →
      ProofStep xxh32 blake3 s .crash (s.ended file)

def proofSystem (xxh32 : Bytes → UInt32) (blake3 : Bytes → Digest) : System ProofVault ProofMove where
  init s := ∃ readings, s = .fresh readings
  step := ProofStep xxh32 blake3

end Oneiron
