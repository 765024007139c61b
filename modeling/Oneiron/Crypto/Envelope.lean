import Oneiron.Crypto.SignatureRecord
import Oneiron.KeyCustody.Frame

/-!
# Crypto/Envelope — the sealed envelope's header, its canonical encoding and strict parser

    ONEV · version · suite · wrap · purpose · epoch · key id · recipient · vault id
         · kdf · wrap parameters · nonce · ciphertext length │ ciphertext

The wrap type decides which kdf the header names and which wrap parameters it carries, the suite how
long its nonce is.  A header is read off the front of an envelope or of a prefix by one decoder, and
what it read is compared with what the header encodes to.
-/

namespace Oneiron

/-! ## The header -/

namespace WrapType

def wire : WrapType → UInt8
  | symmetricKek => 1
  | passphrase => 2
  | deviceKeystore => 3
  | passkey => 4
  | shamirRecovery => 5
  | hybridCapsule => 6

/-- `from_wire`. -/
def fromWire (byte : UInt8) : Except CryptoError WrapType :=
  match byte.toNat with
  | 1 => .ok symmetricKek
  | 2 => .ok passphrase
  | 3 => .ok deviceKeystore
  | 4 => .ok passkey
  | 5 => .ok shamirRecovery
  | 6 => .ok hybridCapsule
  | _ => .error (.unknownWrap byte)

end WrapType

/-- What the sealed payload is for. -/
inductive Purpose where
  | vaultDek | recoveryKek | checkpointArtifact | backupArtifact | exportBundle | secretFile
  | deviceSigningSeed | federationGrant | guestShare | escrowRecipient | worldDek
  | sealedWorldContent | sealedVaultBundle | sealedKeyPads | sealedWorldAuthority
  | sealedPadAdmission | bodyFileKey | bodyFileChunk | publisherTrainingOffer
  | custodyCompartment | custodyCompartmentKey | custodyLogFrame | homeHandoff
  | checkpointPayload | inferenceSnapshotChunk | erasableKey | checkpointHostOrderHolds
  | checkpointHostOrderHoldsKey | worldSideRow | sealedWorldUpdate | legalClone
  deriving DecidableEq

namespace Purpose

def wire : Purpose → UInt16
  | vaultDek => 1
  | recoveryKek => 2
  | checkpointArtifact => 3
  | backupArtifact => 4
  | exportBundle => 5
  | secretFile => 6
  | deviceSigningSeed => 7
  | federationGrant => 8
  | guestShare => 9
  | escrowRecipient => 10
  | worldDek => 11
  | sealedWorldContent => 12
  | sealedVaultBundle => 13
  | sealedKeyPads => 14
  | sealedWorldAuthority => 15
  | sealedPadAdmission => 16
  | bodyFileKey => 17
  | bodyFileChunk => 18
  | publisherTrainingOffer => 19
  | custodyCompartment => 20
  | custodyCompartmentKey => 21
  | custodyLogFrame => 22
  | homeHandoff => 23
  | checkpointPayload => 24
  | inferenceSnapshotChunk => 25
  | erasableKey => 26
  | checkpointHostOrderHolds => 27
  | checkpointHostOrderHoldsKey => 28
  | worldSideRow => 29
  | sealedWorldUpdate => 30
  | legalClone => 31

/-- `from_wire`. -/
def fromWire (value : UInt16) : Except CryptoError Purpose :=
  match value.toNat with
  | 1 => .ok vaultDek
  | 2 => .ok recoveryKek
  | 3 => .ok checkpointArtifact
  | 4 => .ok backupArtifact
  | 5 => .ok exportBundle
  | 6 => .ok secretFile
  | 7 => .ok deviceSigningSeed
  | 8 => .ok federationGrant
  | 9 => .ok guestShare
  | 10 => .ok escrowRecipient
  | 11 => .ok worldDek
  | 12 => .ok sealedWorldContent
  | 13 => .ok sealedVaultBundle
  | 14 => .ok sealedKeyPads
  | 15 => .ok sealedWorldAuthority
  | 16 => .ok sealedPadAdmission
  | 17 => .ok bodyFileKey
  | 18 => .ok bodyFileChunk
  | 19 => .ok publisherTrainingOffer
  | 20 => .ok custodyCompartment
  | 21 => .ok custodyCompartmentKey
  | 22 => .ok custodyLogFrame
  | 23 => .ok homeHandoff
  | 24 => .ok checkpointPayload
  | 25 => .ok inferenceSnapshotChunk
  | 26 => .ok erasableKey
  | 27 => .ok checkpointHostOrderHolds
  | 28 => .ok checkpointHostOrderHoldsKey
  | 29 => .ok worldSideRow
  | 30 => .ok sealedWorldUpdate
  | 31 => .ok legalClone
  | _ => .error (.unknownPurpose value)

end Purpose

structure Argon2Cost where
  /-- Memory in KiB. -/
  mKib : UInt32
  /-- Passes. -/
  t : UInt32
  /-- Lanes. -/
  p : UInt8
  deriving DecidableEq

/-- `bound`. -/
def bound (param : String) (value min max : ℕ) : Except CryptoError Unit :=
  ensure (min ≤ value ∧ value ≤ max) (.kdfParamOutOfRange param value min max)

/-- `Argon2Cost::check`. -/
def Argon2Cost.check (cost : Argon2Cost) : Except CryptoError Unit := do
  bound "argon2id m_kib" cost.mKib.toNat (19 * 1024) (2 * 1024 * 1024)
  bound "argon2id t" cost.t.toNat 1 64
  bound "argon2id p" cost.p.toNat 1 16

/-- How the wrap secret becomes the payload key. -/
inductive Kdf where
  | hkdfSha256 (salt : Bytes32)
  | argon2idHkdfSha256 (cost : Argon2Cost) (salt : Bytes32)
  deriving DecidableEq

/-- `Kdf::name`. -/
def Kdf.name : Kdf → String
  | hkdfSha256 _ => "hkdf-sha256-v1"
  | argon2idHkdfSha256 _ _ => "argon2id-hkdf-sha256-v1"

/-- `Kdf::check_wrap`: Argon2id only for passphrases, HKDF for the rest. -/
def Kdf.checkWrap (wrap : WrapType) : Kdf → Except CryptoError Unit
  | kdf@(argon2idHkdfSha256 cost _) =>
    if wrap = .passphrase then cost.check else .error (.kdfWrapMismatch wrap kdf.name)
  | kdf@(hkdfSha256 _) =>
    if wrap = .passphrase then .error (.kdfWrapMismatch wrap kdf.name) else .ok ()

/-- Parameters that belong to one wrap type. -/
inductive WrapParams where
  | none
  | shamir (threshold shares : UInt8) (shareSetId : FixedBytes 16)
  | hybrid (kemSuite : SuiteId) (x25519Ephemeral : Bytes32) (mlkemCiphertext : FixedBytes 1568)
  deriving DecidableEq

/-- `MAX_SHARES`. -/
def maxShares : UInt8 := 16

/-- `WrapParams::check`. -/
def WrapParams.check (wrap : WrapType) (epoch : UInt64) (params : WrapParams) :
    Except CryptoError Unit :=
  match wrap, params with
  | .shamirRecovery, shamir threshold shares _ =>
    if threshold < 2 ∨ threshold > shares ∨ shares > maxShares then
      .error (.shamirParamsInvalid threshold shares)
    else .ok ()
  | .hybridCapsule, hybrid kemSuite _ _ => do
    let _ ← Suite.require kemSuite [.kem] epoch
    pure ()
  | .shamirRecovery, _ | .hybridCapsule, _ => .error (.wrongKeyForWrap wrap)
  | _, shamir .. | _, hybrid .. => .error (.wrongKeyForWrap wrap)
  | _, none => .ok ()

/-- `Suite::nonce_len`: AES-256-GCM's nonce is the short one. -/
def Suite.nonceLen (suite : Suite) : ℕ := if suite.id = 0x0002 then 12 else 24

/-- `TAG_LEN`. -/
def tagLen : ℕ := 16

/-- `MAX_PLAINTEXT_LEN`. -/
def maxPlaintextLen : ℕ := 16 * 1024 * 1024

@[ext] structure Header where
  suite : SuiteId
  wrap : WrapType
  purpose : Purpose
  epoch : UInt64
  keyId : Bytes
  recipient : Bytes
  vaultId : Bytes
  kdf : Kdf
  wrapParams : WrapParams
  nonce : Bytes
  /-- Plaintext length plus the tag. -/
  ciphertextLen : UInt32
  deriving DecidableEq

/-- `MAGIC`. -/
def envelopeMagic : Bytes := ascii "ONEV"

/-- `VERSION`. -/
def envelopeVersion : UInt16 := 1

def beU32 (x : UInt32) : Bytes := digits 4 x.toNat

/-- A kdf's place in the header. -/
def Kdf.encode : Kdf → Bytes
  | hkdfSha256 salt => 1 :: salt.asBytes
  | argon2idHkdfSha256 cost salt => 2 :: (beU32 cost.mKib ++ beU32 cost.t ++ [cost.p] ++ salt.asBytes)

/-- The wrap parameters' place in the header. -/
def WrapParams.encode : WrapParams → Bytes
  | none => []
  | shamir threshold shares shareSetId => [threshold, shares] ++ shareSetId.bytes
  | hybrid kemSuite x25519Ephemeral mlkemCiphertext =>
    beU16 kemSuite ++ x25519Ephemeral.asBytes ++ mlkemCiphertext.bytes

namespace Header

variable (header : Header)

/-- `validate`: suite table, epoch, lengths, matrices. -/
def validate : Except CryptoError Unit := do
  let suite ← Suite.require header.suite [.aead] header.epoch
  checkLen "key_id" header.keyId.length 1 maxIdLen
  checkLen "recipient" header.recipient.length 1 maxIdLen
  checkLen "vault_id" header.vaultId.length 1 maxIdLen
  header.kdf.checkWrap header.wrap
  header.wrapParams.check header.wrap header.epoch
  checkLen "nonce" header.nonce.length suite.nonceLen suite.nonceLen
  checkLen "ciphertext" header.ciphertextLen.toNat tagLen (maxPlaintextLen + tagLen)

/-- `encode`: the canonical header bytes. -/
def encode : Bytes :=
  envelopeMagic ++ beU16 envelopeVersion ++ beU16 header.suite ++ [header.wrap.wire] ++
    beU16 header.purpose.wire ++ beU64 header.epoch ++ putLp8 header.keyId ++
    putLp8 header.recipient ++ putLp8 header.vaultId ++ header.kdf.encode ++
    header.wrapParams.encode ++ header.nonce ++ beU32 header.ciphertextLen

/-! ## The decoder -/

open CryptoReader Reader

def word (field : String) : Reader CryptoError UInt32 := Nat.toUInt32 <$> u32 field

/-- `Reader::array`, at a length of its own. -/
def fixed (n : ℕ) (field : String) : Reader CryptoError (FixedBytes n) := fun s =>
  if h : n ≤ s.length then .ok (⟨s.take n, List.length_take_of_le h⟩, s.drop n)
  else .error (.truncated field)

def readKdf : Reader CryptoError Kdf := do
  let tag ← u8 "kdf"
  if tag = 1 then .hkdfSha256 <$> bytes32 "kdf salt"
  else if tag = 2 then do
    let mKib ← word "argon2id m_kib"
    let t ← word "argon2id t"
    let p ← u8 "argon2id p"
    let salt ← bytes32 "kdf salt"
    pure (.argon2idHkdfSha256 ⟨mKib, t, p⟩ salt)
  else lift (.error (.unknownKdf tag))

def readWrapParams (wrap : WrapType) (epoch : UInt64) : Reader CryptoError WrapParams :=
  match wrap with
  | .shamirRecovery => do
    let threshold ← u8 "shamir threshold"
    let shares ← u8 "shamir shares"
    let shareSetId ← fixed 16 "shamir share_set_id"
    pure (.shamir threshold shares shareSetId)
  | .hybridCapsule => do
    let kemSuite ← u16 "kem suite"
    let _ ← lift (Suite.require kemSuite [.kem] epoch)
    let x25519Ephemeral ← bytes32 "x25519 ephemeral"
    let mlkemCiphertext ← fixed 1568 "mlkem ciphertext"
    pure (.hybrid kemSuite x25519Ephemeral mlkemCiphertext)
  | _ => pure .none

/-- The fields up to the epoch, with the suite the first names. -/
def readFront : Reader CryptoError (SuiteId × Suite × WrapType × Purpose × UInt64) := do
  let magic ← bytes envelopeMagic.length "magic"
  lift (ensure (magic = envelopeMagic) (.badMagic "envelope"))
  let version ← u16 "version"
  lift (ensure (version = envelopeVersion) (.unsupportedVersion version))
  let suiteId ← u16 "suite"
  let suite ← lift (Suite.require suiteId [.aead] (UInt64.ofNat (2 ^ 64 - 1)))
  let wrap ← u8 "wrap"
  let wrap ← lift (WrapType.fromWire wrap)
  let purpose ← u16 "purpose"
  let purpose ← lift (Purpose.fromWire purpose)
  let epoch ← u64 "epoch"
  let _ ← lift (Suite.require suiteId [.aead] epoch)
  pure (suiteId, suite, wrap, purpose, epoch)

/-- The key id, the recipient and the vault id. -/
def readIds : Reader CryptoError (Bytes × Bytes × Bytes) := do
  let keyId ← lp8 "key_id" 1 maxIdLen
  let recipient ← lp8 "recipient" 1 maxIdLen
  let vaultId ← lp8 "vault_id" 1 maxIdLen
  pure (keyId, recipient, vaultId)

/-- `decode`: field by field, refusing at the first bad one. -/
def decode : Reader CryptoError Header := do
  let (suiteId, suite, wrap, purpose, epoch) ← readFront
  let (keyId, recipient, vaultId) ← readIds
  let kdf ← readKdf
  lift (kdf.checkWrap wrap)
  let wrapParams ← readWrapParams wrap epoch
  let nonce ← bytes suite.nonceLen "nonce"
  let ciphertextLen ← word "ciphertext_len"
  let header : Header :=
    ⟨suiteId, wrap, purpose, epoch, keyId, recipient, vaultId, kdf, wrapParams, nonce, ciphertextLen⟩
  lift header.validate
  pure header

/-- `decode_canonical`: the header, its canonical bytes, and what follows them. -/
def decodeCanonical (bytes : Bytes) : Except CryptoError (Header × Bytes × Bytes) := do
  let (header, rest) ← decode.run bytes
  let headerBytes := header.encode
  ensure (headerBytes = bytes.take (bytes.length - rest.length)) .nonCanonical
  pure (header, headerBytes, rest)

/-- `Header::parse_prefix`: the header at the start, and how many bytes it took. -/
def parsePrefix (bytes : Bytes) : Except CryptoError (Header × ℕ) := do
  let (header, _, rest) ← decodeCanonical bytes
  pure (header, bytes.length - rest.length)

end Header

/-! ## The envelope -/

@[ext] structure Envelope where
  header : Header
  headerBytes : Bytes
  ciphertext : Bytes
  deriving DecidableEq

namespace Envelope

/-- `Envelope::to_bytes`. -/
def toBytes (envelope : Envelope) : Bytes := envelope.headerBytes ++ envelope.ciphertext

/-- Strict parse, with exact consumption.  Runs no kdf and no cipher. -/
def parse (bytes : Bytes) : Except CryptoError Envelope := do
  let (header, headerBytes, rest) ← Header.decodeCanonical bytes
  let (ciphertext, rest) ← (CryptoReader.bytes header.ciphertextLen.toNat "ciphertext").run rest
  ensure (rest.length = 0) (.trailingBytes rest.length)
  pure ⟨header, headerBytes, ciphertext⟩

end Envelope

end Oneiron
