import Oneiron.Crypto.Suite
import Oneiron.Foundations.Reading

/-!
# Crypto/SignatureRecord — the record's encoding, strict parser and roster rules

    ONSG · version · suite · purpose · epoch · signer · 1 · count · (descriptor · signature)*
                                                     · 2 · checkpoint reference

A descriptor is an entry's suite, key id and signature length.  What the components sign is the
record without its signature bytes (`transcript`).
-/

namespace Oneiron

/-! ## Encoding primitives -/

def beU16 (x : UInt16) : Bytes := digits 2 x.toNat

def beU64 (x : UInt64) : Bytes := digits 8 x.toNat

/-- `put_lp8`: a length byte and the bytes, cut at what the byte can say. -/
def putLp8 (bytes : Bytes) : Bytes := (min bytes.length 255).toUInt8 :: bytes.take 255

/-- `check_len`. -/
def checkLen (field : String) (len min max : ℕ) : Except CryptoError Unit :=
  ensure (min ≤ len ∧ len ≤ max) (.fieldLength field len min max)

namespace CryptoReader

open Reader

def bytes (n : ℕ) (field : String) : Reader CryptoError Bytes := Reader.take n (.truncated field)

def u8 (field : String) : Reader CryptoError UInt8 :=
  Nat.toUInt8 <$> number 1 (.truncated field)

def u16 (field : String) : Reader CryptoError UInt16 :=
  Nat.toUInt16 <$> number 2 (.truncated field)

def u32 (field : String) : Reader CryptoError ℕ := number 4 (.truncated field)

def u64 (field : String) : Reader CryptoError UInt64 :=
  Nat.toUInt64 <$> number 8 (.truncated field)

def bytes32 (field : String) : Reader CryptoError Bytes32 := fun s =>
  if h : 32 ≤ s.length then .ok (⟨s.take 32, List.length_take_of_le h⟩, s.drop 32)
  else .error (.truncated field)

/-- A length byte and that many bytes, the length within its bounds. -/
def lp8 (field : String) (min max : ℕ) : Reader CryptoError Bytes := do
  let len ← u8 field
  lift (checkLen field len.toNat min max)
  bytes len.toNat field

end CryptoReader

/-! ## The record -/

def SigPurpose.wire : SigPurpose → UInt16
  | rootDelegation => 1
  | releaseManifest => 2
  | batchCheckpoint => 3
  | receipt => 4
  | recoveryPolicy => 5
  | keyHistory => 6

/-- `from_wire`. -/
def SigPurpose.fromWire (value : UInt16) : Except CryptoError SigPurpose :=
  if value = 1 then .ok rootDelegation
  else if value = 2 then .ok releaseManifest
  else if value = 3 then .ok batchCheckpoint
  else if value = 4 then .ok receipt
  else if value = 5 then .ok recoveryPolicy
  else if value = 6 then .ok keyHistory
  else .error (.unknownSigPurpose value)

@[ext] structure SignatureEntry where
  suite : SuiteId
  keyId : Bytes
  signature : Bytes
  deriving DecidableEq

/-- A reference to a batch checkpoint that covers the subject. -/
@[ext] structure CheckpointRef where
  checkpointEpoch : UInt64
  treeSize : UInt64
  leafIndex : UInt64
  root : Bytes32
  proof : List Bytes32
  deriving DecidableEq

inductive RecordBody where
  | signatures (entries : List SignatureEntry)
  | checkpoint (cref : CheckpointRef)
  deriving DecidableEq

/-- The fields of a record, checked or not. -/
@[ext] structure RecordFields where
  suite : SuiteId
  purpose : SigPurpose
  epoch : UInt64
  signer : Bytes
  body : RecordBody
  deriving DecidableEq

/-- `MAGIC`. -/
def recordMagic : Bytes := ascii "ONSG"

/-- `VERSION`. -/
def recordVersion : UInt16 := 1

/-- `MAX_ID_LEN`. -/
def maxIdLen : ℕ := 64

/-- `MAX_SIGNATURES`. -/
def maxSignatures : ℕ := 4

/-- `MAX_PROOF_LEN`. -/
def maxProofLen : ℕ := 64

/-- The kinds of suite a record may be of. -/
def recordKinds : List SuiteKind := [.signature, .dualSignature]

/-- The walk over neighbours in `check_roster`: each suite once, ascending. -/
def checkAscending : List SignatureEntry → Except CryptoError Unit
  | a :: b :: rest =>
    if a.suite = b.suite then .error (.signatureDuplicate (Suite.nameOf a.suite))
    else if b.suite < a.suite then .error .unsortedSignatures
    else checkAscending (b :: rest)
  | _ => .ok ()

/-- `check_roster`: the entries are the roster, each once, ascending. -/
def checkRoster (suite : Suite) (entries : List SignatureEntry) : Except CryptoError Unit := do
  checkAscending entries
  match entries.find? (fun entry => entry.suite ∉ suite.roster) with
  | some extra => .error (.signatureUnexpected (Suite.nameOf extra.suite))
  | none =>
    match suite.roster.find? (fun id => id ∉ entries.map (·.suite)) with
    | some missing => .error (.signatureMissing (Suite.nameOf missing))
    | none => .ok ()

/-- One entry's checks, at the record's epoch. -/
def SignatureEntry.check (epoch : UInt64) (entry : SignatureEntry) : Except CryptoError Unit := do
  let component ← Suite.require entry.suite [.signature] epoch
  checkLen "signature key_id" entry.keyId.length 1 maxIdLen
  checkLen "signature" entry.signature.length component.signatureLen component.signatureLen

/-- A checkpoint reference's checks. -/
def CheckpointRef.check (cref : CheckpointRef) : Except CryptoError Unit := do
  checkLen "inclusion proof" cref.proof.length 0 maxProofLen
  ensure (cref.leafIndex < cref.treeSize)
    (.checkpointIndexOutOfRange cref.leafIndex cref.treeSize)

/-- The checks of a body, under the record's own suite. -/
def RecordBody.check (suite : Suite) (epoch : UInt64) : RecordBody → Except CryptoError Unit
  | .signatures entries => do
    checkLen "signatures" entries.length 1 maxSignatures
    entries.forM (SignatureEntry.check epoch)
    checkRoster suite entries
  | .checkpoint cref => cref.check

/-- An entry without its signature bytes. -/
def SignatureEntry.descriptor (entry : SignatureEntry) : Bytes :=
  beU16 entry.suite ++ putLp8 entry.keyId ++ digits 4 (min entry.signature.length (2 ^ 32 - 1))

/-- A count byte, saturating. -/
def countByte (n : ℕ) : Bytes := [(min n 255).toUInt8]

def CheckpointRef.encode (cref : CheckpointRef) : Bytes :=
  beU64 cref.checkpointEpoch ++ beU64 cref.treeSize ++ beU64 cref.leafIndex ++ cref.root.asBytes ++
    countByte cref.proof.length ++ cref.proof.flatMap Bytes32.asBytes

namespace RecordFields

variable (fields : RecordFields)

/-- `validate`: suite table and epoch, id bounds, the roster, lengths. -/
def validate : Except CryptoError Unit := do
  let suite ← Suite.require fields.suite recordKinds fields.epoch
  checkLen "signer" fields.signer.length 1 maxIdLen
  fields.body.check suite fields.epoch

/-- What a record begins with. -/
def header : Bytes :=
  recordMagic ++ beU16 recordVersion ++ beU16 fields.suite ++ beU16 fields.purpose.wire ++
    beU64 fields.epoch ++ putLp8 fields.signer

/-- The part signed over: everything but signature bytes. -/
def transcript : Bytes :=
  fields.header ++ match fields.body with
    | .signatures entries =>
      1 :: (countByte entries.length ++ entries.flatMap SignatureEntry.descriptor)
    | .checkpoint cref => 2 :: cref.encode

/-- The canonical bytes. -/
def toBytes : Bytes :=
  match fields.body with
  | .signatures entries =>
    fields.header ++ 1 :: (countByte entries.length ++
      entries.flatMap fun entry => entry.descriptor ++ entry.signature)
  | .checkpoint _ => fields.transcript

end RecordFields

/-- A record that has passed every structural check. -/
structure SignatureRecord extends RecordFields where
  valid : toRecordFields.validate = .ok ()

/-- Fields that pass the checks, as a record. -/
def SignatureRecord.ofFields (fields : RecordFields) : Except CryptoError SignatureRecord :=
  match h : fields.validate with
  | .ok () => .ok ⟨fields, h⟩
  | .error e => .error e

/-! ## The parser -/

namespace SignatureRecord

open CryptoReader Reader

def readEntry (epoch : UInt64) : Reader CryptoError SignatureEntry := do
  let suite ← u16 "signature suite"
  let component ← lift (Suite.require suite [.signature] epoch)
  let keyId ← lp8 "signature key_id" 1 maxIdLen
  let len ← u32 "signature length"
  lift (checkLen "signature" len component.signatureLen component.signatureLen)
  let signature ← bytes len "signature"
  pure ⟨suite, keyId, signature⟩

def readCheckpoint : Reader CryptoError CheckpointRef := do
  let checkpointEpoch ← u64 "checkpoint epoch"
  let treeSize ← u64 "tree size"
  let leafIndex ← u64 "leaf index"
  let root ← bytes32 "checkpoint root"
  let proofLen ← u8 "inclusion proof length"
  lift (checkLen "inclusion proof" proofLen.toNat 0 maxProofLen)
  let proof ← many proofLen.toNat (bytes32 "inclusion proof node")
  pure ⟨checkpointEpoch, treeSize, leafIndex, root, proof⟩

def readSignatures (epoch : UInt64) : Reader CryptoError (List SignatureEntry) := do
  let count ← u8 "signature count"
  lift (checkLen "signatures" count.toNat 1 maxSignatures)
  many count.toNat (readEntry epoch)

def readBody (epoch : UInt64) : Reader CryptoError RecordBody := do
  let tag ← u8 "body"
  if tag = 1 then .signatures <$> readSignatures epoch
  else if tag = 2 then .checkpoint <$> readCheckpoint
  else lift (.error (.unknownBody tag))

def readFields : Reader CryptoError RecordFields := do
  let magic ← bytes recordMagic.length "magic"
  lift (ensure (magic = recordMagic) (.badMagic "signature record"))
  let version ← u16 "version"
  lift (ensure (version = recordVersion) (.unsupportedVersion version))
  let suite ← u16 "suite"
  let _ ← lift (Suite.require suite recordKinds (UInt64.ofNat (2 ^ 64 - 1)))
  let purpose ← u16 "purpose"
  let purpose ← lift (SigPurpose.fromWire purpose)
  let epoch ← u64 "epoch"
  let signer ← lp8 "signer" 1 maxIdLen
  let body ← readBody epoch
  pure ⟨suite, purpose, epoch, signer, body⟩

/-- Strict parse: every bound, the roster, exact lengths, exact consumption.  Verifies nothing. -/
def parse (bytes : Bytes) : Except CryptoError SignatureRecord := do
  let (fields, rest) ← readFields.run bytes
  ensure (rest.length = 0) (.trailingBytes rest.length)
  ofFields fields

end SignatureRecord

end Oneiron
