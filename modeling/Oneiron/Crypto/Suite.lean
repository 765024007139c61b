import Oneiron.Authority.Keys
import Oneiron.Foundations.Fallible

/-!
# Crypto/Suite — the suite table

Every algorithm combination the formats can name, its state and its least epoch.  Only the allowed
rows are ever accepted; the others are named so that a relabel to one is refused by name.
-/

namespace Oneiron

/-- A suite's wire id. -/
abbrev SuiteId := UInt16

inductive SuiteKind where
  | aead | kem | signature
  /-- Every one of the component signatures is required. -/
  | dualSignature
  deriving DecidableEq

inductive SuiteStatus where
  | allowed | forbidden | reserved
  deriving DecidableEq

/-- What a record is signed for. -/
inductive SigPurpose where
  | rootDelegation | releaseManifest | batchCheckpoint | receipt | recoveryPolicy | keyHistory
  deriving DecidableEq

/-- How an envelope's payload key is wrapped. -/
inductive WrapType where
  | symmetricKek | passphrase | deviceKeystore | passkey | shamirRecovery | hybridCapsule
  deriving DecidableEq

/-- The refusals of the formats. -/
inductive CryptoError where
  | badMagic (expected : String)
  | unsupportedVersion (version : UInt16)
  | unknownSuite (id : SuiteId)
  | forbiddenSuite (name : String)
  | reservedSuite (name : String)
  | wrongSuiteKind (suite : String) (expected actual : SuiteKind)
  | suiteNotAccepted (name : String)
  | epochBelowSuiteMinimum (suite : String) (epoch min : UInt64)
  | epochBelowPolicyMinimum (epoch min : UInt64)
  | unknownWrap (wire : UInt8)
  | unknownKdf (wire : UInt8)
  | unknownPurpose (wire : UInt16)
  | unknownSigPurpose (wire : UInt16)
  | unknownBody (tag : UInt8)
  | kdfWrapMismatch (wrap : WrapType) (kdf : String)
  | kdfParamOutOfRange (param : String) (value min max : ℕ)
  | shamirParamsInvalid (threshold shares : UInt8)
  | wrongKeyForWrap (wrap : WrapType)
  | nonCanonical
  | truncated (field : String)
  | fieldLength (field : String) (len min max : ℕ)
  | trailingBytes (extra : ℕ)
  | sigPurposeMismatch (expected found : SigPurpose)
  | signerMismatch
  | signatureMissing (name : String)
  | signatureDuplicate (name : String)
  | signatureUnexpected (name : String)
  | signatureInvalid (name : String)
  | verifyingKeyMissing (name : String)
  | signingKeyMissing (name : String)
  | checkpointRefUnverified
  | unsortedSignatures
  | checkpointIndexOutOfRange (leafIndex treeSize : UInt64)
  deriving DecidableEq

structure Suite where
  id : SuiteId
  name : String
  kind : SuiteKind
  status : SuiteStatus
  /-- The lowest epoch the suite is accepted at. -/
  minEpoch : UInt64 := 1
  /-- For a dual suite: every suite the record must carry. -/
  components : List SuiteId := []
  /-- For a signature suite: the exact length of a signature. -/
  signatureLen : ℕ := 0
  deriving DecidableEq

/-- `SIG_ED25519_V1`. -/
def sigEd25519V1 : SuiteId := 0x0201

/-- `SIG_SLHDSA_SHA2_256S_V1`. -/
def sigSlhdsaV1 : SuiteId := 0x0202

/-- `SIG_DUAL_ED25519_SLHDSA_SHA2_256S_V1`. -/
def sigDualV1 : SuiteId := 0x0203

/-- `SUITES`. -/
def suiteTable : List Suite :=
  [ { id := 0x0001, name := "xchacha20poly1305-v1", kind := .aead, status := .allowed },
    { id := 0x0002, name := "aes256gcm-v1", kind := .aead, status := .allowed },
    -- Below the 256-bit key floor.
    { id := 0x0003, name := "aes128gcm-v1", kind := .aead, status := .forbidden },
    { id := 0x0101, name := "kem-x25519-mlkem1024-v1", kind := .kem, status := .allowed },
    { id := 0x0102, name := "kem-x25519-mlkem768-v1", kind := .kem, status := .forbidden },
    { id := 0x0103, name := "kem-x25519-v1", kind := .kem, status := .forbidden },
    { id := 0x01f0, name := "kem-x25519-mlkem1024-mceliece8192128-v1", kind := .kem,
      status := .reserved },
    { id := 0x01f1, name := "kem-x25519-mlkem1024-hqc256-v1", kind := .kem, status := .reserved },
    { id := sigEd25519V1, name := "sig-ed25519-v1", kind := .signature, status := .allowed,
      signatureLen := 64 },
    { id := sigSlhdsaV1, name := "sig-slhdsa-sha2-256s-v1", kind := .signature, status := .allowed,
      signatureLen := 29792 },
    { id := sigDualV1, name := "sig-dual-ed25519-slhdsa-sha2-256s-v1", kind := .dualSignature,
      status := .allowed, components := [sigEd25519V1, sigSlhdsaV1] } ]

namespace Suite

/-- `Suite::allowed`. -/
def allowed (id : SuiteId) : Except CryptoError Suite := do
  let suite ← okOr (suiteTable.find? (·.id = id)) (.unknownSuite id)
  match suite.status with
  | .allowed => .ok suite
  | .forbidden => .error (.forbiddenSuite suite.name)
  | .reserved => .error (.reservedSuite suite.name)

/-- `Suite::require`: allowed, of one of the slot's kinds, from its least epoch on. -/
def require (id : SuiteId) (kinds : List SuiteKind) (epoch : UInt64) : Except CryptoError Suite := do
  let suite ← allowed id
  ensure (suite.kind ∈ kinds) (.wrongSuiteKind suite.name (kinds.headD .aead) suite.kind)
  ensure (suite.minEpoch ≤ epoch) (.epochBelowSuiteMinimum suite.name epoch suite.minEpoch)
  pure suite

/-- `name_of`. -/
def nameOf (id : SuiteId) : String := ((suiteTable.find? (·.id = id)).map name).getD "unknown"

/-- `roster`: the suites a record must carry, ascending. -/
def roster (suite : Suite) : List SuiteId :=
  if suite.kind = .dualSignature then suite.components else [suite.id]

variable {id : SuiteId} {kinds : List SuiteKind} {epoch : UInt64} {suite : Suite}

theorem allowed_eq_ok :
    allowed id = .ok suite ↔ suiteTable.find? (·.id = id) = some suite ∧ suite.status = .allowed := by
  simp only [allowed, bind_eq_ok, okOr_eq_ok]
  constructor
  · rintro ⟨found, hfind, h⟩
    cases hst : found.status <;> rw [hst] at h <;> cases h
    exact ⟨hfind, hst⟩
  · rintro ⟨hfind, hst⟩
    exact ⟨suite, hfind, by rw [hst]⟩

theorem require_eq_ok : require id kinds epoch = .ok suite ↔
    allowed id = .ok suite ∧ suite.kind ∈ kinds ∧ suite.minEpoch ≤ epoch := by
  simp only [require, bind_eq_ok, ensure_eq_ok, pure_eq_ok]
  constructor
  · rintro ⟨found, h, _, hkind, _, hepoch, rfl⟩
    exact ⟨h, hkind, hepoch⟩
  · rintro ⟨h, hkind, hepoch⟩
    exact ⟨suite, h, ⟨⟩, hkind, ⟨⟩, hepoch, rfl⟩

theorem mem_of_allowed (h : allowed id = .ok suite) : suite ∈ suiteTable :=
  List.mem_of_find?_eq_some (allowed_eq_ok.mp h).1

/-- **Every roster is ascending**, and no signature is longer than its length field can say. -/
theorem roster_pairwise : ∀ suite ∈ suiteTable, suite.roster.Pairwise (· < ·) := by decide

theorem signatureLen_lt : ∀ suite ∈ suiteTable, suite.signatureLen < 256 ^ 4 := by decide

end Suite

end Oneiron
