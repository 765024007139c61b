import Oneiron.Crypto.RecordRoundTrip

/-!
# Crypto/RecordVerify — a verified record binds what it signs

Every component signs `LABEL || transcript || subject`, with nothing between.  The transcript is
prefix-free over both body kinds, so the message names the subject and everything of the record but
signature bytes (`signedMessage_inj`); and what `verify` accepts, each required component's key was
asked to sign (`signatureRecord_binds`).
-/

namespace Oneiron

open List SignatureRecord SignatureEntry Suite

open Reader CryptoReader

/-! ## The signed message -/

/-- `LABEL`. -/
def sigLabel : Bytes := ascii "oneiron-crypto/v1/sig"

/-- `message`. -/
def signedMessage (transcript subject : Bytes) : Bytes := sigLabel ++ transcript ++ subject

/-- What of a body is signed over: everything but signature bytes. -/
inductive SignedBody where
  | signatures (entries : List (SuiteId × Bytes × ℕ))
  | checkpoint (cref : CheckpointRef)
  deriving DecidableEq

def RecordBody.signed : RecordBody → SignedBody
  | .signatures entries =>
    .signatures (entries.map fun entry => (entry.suite, entry.keyId, entry.signature.length))
  | .checkpoint cref => .checkpoint cref

theorem descriptor_append_inj {epoch : UInt64} {a b : SignatureEntry} {s t : Bytes}
    (ha : a.check epoch = .ok ()) (hb : b.check epoch = .ok ())
    (h : a.descriptor ++ s = b.descriptor ++ t) :
    (a.suite, a.keyId, a.signature.length) = (b.suite, b.keyId, b.signature.length) ∧ s = t := by
  obtain ⟨hlenA, hdescA⟩ := descriptor_of_check ha
  obtain ⟨hlenB, hdescB⟩ := descriptor_of_check hb
  obtain ⟨_, -, hidA, -⟩ := check_eq_ok.mp ha
  obtain ⟨_, -, hidB, -⟩ := check_eq_ok.mp hb
  rw [hdescA, hdescB] at h
  simp only [append_assoc] at h
  obtain ⟨hsuite, h⟩ := (exact_u16 "").append_inj trivial trivial h
  obtain ⟨hid, h⟩ := (exact_lp8 "" 1 maxIdLen (by decide)).append_inj hidA hidB h
  obtain ⟨hlen, h⟩ := (exact_u32 "").append_inj hlenA hlenB h
  exact ⟨by rw [hsuite, hid, hlen], h⟩

theorem descriptors_append_inj {epoch : UInt64} :
    ∀ {l m : List SignatureEntry} {s t : Bytes}, l.length = m.length →
      (∀ entry ∈ l, entry.check epoch = .ok ()) → (∀ entry ∈ m, entry.check epoch = .ok ()) →
      l.flatMap descriptor ++ s = m.flatMap descriptor ++ t →
      (l.map fun entry => (entry.suite, entry.keyId, entry.signature.length)) =
        (m.map fun entry => (entry.suite, entry.keyId, entry.signature.length)) ∧ s = t
  | [], [], s, t, _, _, _, h => ⟨rfl, h⟩
  | a :: l, b :: m, s, t, hlen, hl, hm, h => by
    rw [forall_mem_cons] at hl hm
    simp only [flatMap_cons, append_assoc] at h
    obtain ⟨hab, h⟩ := descriptor_append_inj hl.1 hm.1 h
    obtain ⟨hlm, hst⟩ := descriptors_append_inj (by simpa using hlen) hl.2 hm.2 h
    exact ⟨by rw [map_cons, map_cons, hab, hlm], hst⟩

/-- **No transcript begins another**: what is signed names the subject and the record, all but its
signature bytes. -/
theorem signedMessage_inj (r r' : SignatureRecord) {subject subject' : Bytes}
    (h : signedMessage r.transcript subject = signedMessage r'.transcript subject') :
    subject = subject' ∧ r.suite = r'.suite ∧ r.purpose = r'.purpose ∧ r.epoch = r'.epoch ∧
      r.signer = r'.signer ∧ r.body.signed = r'.body.signed := by
  obtain ⟨-, hsigner, hbody⟩ := fieldsRead_of_validate r.valid
  obtain ⟨-, hsigner', hbody'⟩ := fieldsRead_of_validate r'.valid
  simp only [signedMessage, RecordFields.transcript, RecordFields.header, append_assoc] at h
  have h := append_cancel_left (append_cancel_left (append_cancel_left h))
  obtain ⟨hsuite, h⟩ := (exact_u16 "").append_inj trivial trivial h
  obtain ⟨hwire, h⟩ := (exact_u16 "").append_inj trivial trivial h
  obtain ⟨hepoch, h⟩ := (exact_u64 "").append_inj trivial trivial h
  obtain ⟨hsig, h⟩ :=
    (exact_lp8 "" 1 maxIdLen (by decide)).append_inj hsigner hsigner' h
  have hpurpose : r.purpose = r'.purpose :=
    Except.ok.inj ((fromWire_eq_ok.mpr rfl).symm.trans
      (fromWire_eq_ok.mpr hwire))
  suffices hrest : r.body.signed = r'.body.signed ∧ subject = subject' from
    ⟨hrest.2, hsuite, hpurpose, hepoch, hsig, hrest.1⟩
  cases hb : r.body with
  | signatures entries =>
    cases hb' : r'.body with
    | signatures entries' =>
      rw [hb] at hbody h
      rw [hb', ← hepoch] at hbody'
      rw [hb'] at h
      simp only [cons_append, cons.injEq, true_and, append_assoc] at h
      have hle := hbody.1.2.trans (show maxSignatures ≤ 255 by decide)
      have hle' := hbody'.1.2.trans (show maxSignatures ≤ 255 by decide)
      rw [countByte_of_le hle, countByte_of_le hle', singleton_append, singleton_append,
        cons.injEq] at h
      have hcount : entries.length = entries'.length := by
        rw [← toNat_toUInt8 hle, ← toNat_toUInt8 hle', h.1]
      obtain ⟨hmap, hst⟩ := descriptors_append_inj hcount hbody.2 hbody'.2 h.2
      exact ⟨congrArg SignedBody.signatures hmap, hst⟩
    | checkpoint cref' => rw [hb, hb'] at h; simp at h
  | checkpoint cref =>
    cases hb' : r'.body with
    | signatures entries' => rw [hb, hb'] at h; simp at h
    | checkpoint cref' =>
      rw [hb] at hbody h
      rw [hb'] at hbody' h
      simp only [cons_append, cons.injEq, true_and] at h
      obtain ⟨rfl, hst⟩ := exact_readCheckpoint.append_inj hbody hbody' h
      exact ⟨rfl, hst⟩

/-! ## The roster -/

theorem pairwise_of_checkAscending : ∀ {entries : List SignatureEntry},
    checkAscending entries = .ok () → (entries.map (·.suite)).Pairwise (· < ·)
  | [], _ => List.Pairwise.nil
  | [a], _ => pairwise_singleton _ _
  | a :: b :: rest, h => by
    rw [checkAscending] at h
    split_ifs at h with hdup hunsorted
    have hrest := pairwise_of_checkAscending h
    have hab : a.suite < b.suite :=
      UInt16.lt_of_le_of_ne (UInt16.not_lt.mp hunsorted) hdup
    rw [map_cons, pairwise_cons]
    refine ⟨fun suite hmem => ?_, hrest⟩
    rw [map_cons, mem_cons] at hmem
    rcases hmem with rfl | hmem
    · exact hab
    · exact UInt16.lt_trans hab ((pairwise_cons.mp hrest).1 suite hmem)

/-- **A checked roster is the suite's own**: nothing missing, extra, doubled or out of order. -/
theorem suites_of_checkRoster {id : SuiteId} {suite : Suite} {entries : List SignatureEntry}
    (hsuite : allowed id = .ok suite) (h : checkRoster suite entries = .ok ()) :
    entries.map (·.suite) = suite.roster := by
  simp only [checkRoster, bind_eq_ok] at h
  obtain ⟨⟨⟩, hasc, h⟩ := h
  split at h
  · cases h
  · next hextra =>
    split at h
    · cases h
    · next hmissing =>
      refine (pairwise_of_checkAscending hasc).eq_of_mem_iff
        (roster_pairwise suite (mem_of_allowed hsuite)) fun a => ⟨fun ha => ?_, fun ha => ?_⟩
      · obtain ⟨entry, hmem, rfl⟩ := mem_map.mp ha
        simpa using find?_eq_none.mp hextra entry hmem
      · simpa using find?_eq_none.mp hmissing a ha

/-! ## Signing and verifying -/

/-- The component schemes: keys of either half, their suites, and what they sign and accept. -/
structure SignatureSchemes (SigningKey VerifyingKey : Type) where
  signingSuite : SigningKey → SuiteId
  suite : VerifyingKey → SuiteId
  verifyingKey : SigningKey → VerifyingKey
  signMessage : SigningKey → Bytes → Except CryptoError Bytes
  verifyMessage : VerifyingKey → Bytes → Bytes → Bool

/-- What one call of `sign` is asked. -/
structure SignCall (SigningKey : Type) where
  suite : SuiteId
  purpose : SigPurpose
  epoch : UInt64
  signer : Bytes
  subject : Bytes
  /-- Each key with its key id. -/
  keys : List (Bytes × SigningKey)

structure VerifyPolicy where
  /-- The exact record suite required. -/
  suite : SuiteId
  purpose : SigPurpose
  signer : Bytes
  minEpoch : UInt64

namespace SignatureSchemes

variable {SigningKey VerifyingKey : Type} (schemes : SignatureSchemes SigningKey VerifyingKey)

/-- The key a call signs a component with, and the entry it will fill. -/
def choose (call : SignCall SigningKey) (component : SuiteId) :
    Except CryptoError (SigningKey × SignatureEntry) := do
  let spec ← require component [.signature] call.epoch
  let (keyId, key) ← okOr (call.keys.find? fun pair => schemes.signingSuite pair.2 = component)
    (.signingKeyMissing spec.name)
  pure (key, ⟨component, keyId, List.replicate spec.signatureLen 0⟩)

/-- The keys chosen and the record before its signatures. -/
def draft (call : SignCall SigningKey) :
    Except CryptoError (List (SigningKey × SignatureEntry) × SignatureRecord) := do
  let suite ← require call.suite recordKinds call.epoch
  let chosen ← suite.roster.mapM (schemes.choose call)
  let record ← ofFields
    ⟨call.suite, call.purpose, call.epoch, call.signer, .signatures (chosen.map Prod.snd)⟩
  pure (chosen, record)

/-- `sign`: every chosen key signs the one message. -/
def sign (call : SignCall SigningKey) : Except CryptoError SignatureRecord := do
  let (chosen, record) ← schemes.draft call
  let message := signedMessage record.transcript call.subject
  let entries ← chosen.mapM fun (key, entry) => do
    let signature ← schemes.signMessage key message
    pure { entry with signature := signature }
  ofFields { record.toRecordFields with body := .signatures entries }

/-- Verifies one entry under a key with its suite and key id. -/
def verifyEntry (keys : List (Bytes × VerifyingKey)) (message : Bytes) (entry : SignatureEntry) :
    Except CryptoError Unit := do
  let (_, key) ← okOr (keys.find? fun pair =>
    pair.1 = entry.keyId && schemes.suite pair.2 = entry.suite)
    (.verifyingKeyMissing (nameOf entry.suite))
  ensure (schemes.verifyMessage key message entry.signature)
    (.signatureInvalid (nameOf entry.suite))

/-- `verify`: the policy's suite, never the record's own, says what is required. -/
def verify (record : SignatureRecord) (subject : Bytes) (policy : VerifyPolicy)
    (keys : List (Bytes × VerifyingKey)) : Except CryptoError Unit := do
  ensure (record.suite = policy.suite) (.suiteNotAccepted (nameOf record.suite))
  ensure (record.purpose = policy.purpose) (.sigPurposeMismatch policy.purpose record.purpose)
  ensure (record.signer = policy.signer) .signerMismatch
  ensure (policy.minEpoch ≤ record.epoch) (.epochBelowPolicyMinimum record.epoch policy.minEpoch)
  let suite ← require record.suite recordKinds record.epoch
  match record.body with
  | .checkpoint _ => .error .checkpointRefUnverified
  | .signatures entries => do
    checkRoster suite entries
    entries.forM (schemes.verifyEntry keys (signedMessage record.transcript subject))

/-- Whether a call has a key sign a message. -/
def Asks (call : SignCall SigningKey) (key : SigningKey) (message : Bytes) : Prop :=
  ∃ chosen record, schemes.draft call = .ok (chosen, record) ∧ key ∈ chosen.map Prod.fst ∧
    message = signedMessage record.transcript call.subject

/-- **Unforgeability**: what a verifying key accepts, its signing key was asked to sign. -/
def Unforgeable (calls : Set (SignCall SigningKey)) : Prop :=
  ∀ key message signature, schemes.verifyMessage key message signature →
    ∃ call ∈ calls, ∃ signing, schemes.verifyingKey signing = key ∧
      schemes.Asks call signing message

variable {schemes} {call : SignCall SigningKey} {record : SignatureRecord} {subject : Bytes}
  {policy : VerifyPolicy} {keys : List (Bytes × VerifyingKey)}

theorem record_of_draft {chosen : List (SigningKey × SignatureEntry)}
    (h : schemes.draft call = .ok (chosen, record)) : record.suite = call.suite ∧
      record.purpose = call.purpose ∧ record.epoch = call.epoch ∧ record.signer = call.signer := by
  simp only [draft, bind_eq_ok, pure_eq_ok, ofFields_eq_ok] at h
  obtain ⟨suite, -, picks, -, drafted, hfields, hpair⟩ := h
  obtain ⟨rfl, rfl⟩ := Prod.mk.inj hpair
  rw [hfields]
  exact ⟨rfl, rfl, rfl, rfl⟩

/-- What `verify` accepts, taken apart. -/
theorem verify_eq_ok : schemes.verify record subject policy keys = .ok () ↔
    record.suite = policy.suite ∧ record.purpose = policy.purpose ∧
      record.signer = policy.signer ∧ policy.minEpoch ≤ record.epoch ∧
      ∃ suite entries, require record.suite recordKinds record.epoch = .ok suite ∧
        record.body = .signatures entries ∧ checkRoster suite entries = .ok () ∧
        ∀ entry ∈ entries,
          schemes.verifyEntry keys (signedMessage record.transcript subject) entry = .ok () := by
  simp only [verify, bind_eq_ok, ensure_eq_ok]
  constructor
  · rintro ⟨⟨⟩, hsuite, ⟨⟩, hpurpose, ⟨⟩, hsigner, ⟨⟩, hepoch, suite, hreq, h⟩
    refine ⟨hsuite, hpurpose, hsigner, hepoch, suite, ?_⟩
    cases hb : record.body with
    | checkpoint cref => rw [hb] at h; cases h
    | signatures entries =>
      rw [hb] at h
      simp only [bind_eq_ok] at h
      obtain ⟨⟨⟩, hroster, hall⟩ := h
      exact ⟨entries, hreq, rfl, hroster, forM_eq_ok.mp hall⟩
  · rintro ⟨hsuite, hpurpose, hsigner, hepoch, suite, entries, hreq, hb, hroster, hall⟩
    refine ⟨(), hsuite, (), hpurpose, (), hsigner, (), hepoch, suite, hreq, ?_⟩
    rw [hb]
    simp only [bind_eq_ok]
    exact ⟨(), hroster, forM_eq_ok.mpr hall⟩

theorem verifyEntry_eq_ok {message : Bytes} {entry : SignatureEntry}
    (h : schemes.verifyEntry keys message entry = .ok ()) : ∃ key, (entry.keyId, key) ∈ keys ∧
      schemes.suite key = entry.suite ∧ schemes.verifyMessage key message entry.signature := by
  simp only [verifyEntry, bind_eq_ok, okOr_eq_ok, ensure_eq_ok] at h
  obtain ⟨⟨keyId, key⟩, hfind, hverified⟩ := h
  have hpair := find?_some hfind
  simp only [Bool.and_eq_true, decide_eq_true_eq] at hpair
  exact ⟨key, hpair.1 ▸ mem_of_find?_eq_some hfind, hpair.2, hverified⟩

/-- **What is verified was signed**: under unforgeable schemes, a record a policy accepts carries
exactly the policy's roster, and each component's key was asked to sign that very subject with the
record's own suite, purpose, epoch and signer. -/
theorem signed_of_verify {calls : Set (SignCall SigningKey)} (hun : schemes.Unforgeable calls)
    (h : schemes.verify record subject policy keys = .ok ()) :
    record.purpose = policy.purpose ∧ record.signer = policy.signer ∧
      policy.minEpoch ≤ record.epoch ∧
      ∃ suite entries, allowed policy.suite = .ok suite ∧
        record.body = .signatures entries ∧ entries.map (·.suite) = suite.roster ∧
        ∀ component ∈ suite.roster, ∃ keyId key signing, (keyId, key) ∈ keys ∧
          schemes.suite key = component ∧ schemes.verifyingKey signing = key ∧
          ∃ call ∈ calls, call.subject = subject ∧ call.suite = policy.suite ∧
            call.purpose = policy.purpose ∧ call.epoch = record.epoch ∧
            call.signer = policy.signer ∧
            schemes.Asks call signing (signedMessage record.transcript subject) := by
  obtain ⟨hsuite, hpurpose, hsigner, hepoch, suite, entries, hreq, hb, hroster, hall⟩ :=
    verify_eq_ok.mp h
  have hallowed := hsuite ▸ (require_eq_ok.mp hreq).1
  have hmap := suites_of_checkRoster hallowed hroster
  refine ⟨hpurpose, hsigner, hepoch, suite, entries, hallowed, hb, hmap, fun component hc => ?_⟩
  rw [← hmap] at hc
  obtain ⟨entry, hentry, rfl⟩ := mem_map.mp hc
  obtain ⟨key, hkey, hks, hverified⟩ := verifyEntry_eq_ok (hall entry hentry)
  obtain ⟨call, hcall, signing, hsigning, hasks⟩ := hun key _ _ hverified
  obtain ⟨chosen, drafted, hdraft, -, hmessage⟩ := id hasks
  obtain ⟨hs, hrs, hrp, hre, hrn, -⟩ := signedMessage_inj record drafted hmessage
  obtain ⟨hds, hdp, hde, hdn⟩ := record_of_draft hdraft
  exact ⟨entry.keyId, key, signing, hkey, hks, hsigning, call, hcall, hs.symm,
    by rw [← hds, ← hrs, hsuite], by rw [← hdp, ← hrp, hpurpose], by rw [← hde, ← hre],
    by rw [← hdn, ← hrn, hsigner], hasks⟩

/-! ## What is signed verifies -/

/-- Every key's public half is of its suite and accepts what the key signs. -/
structure Matched (schemes : SignatureSchemes SigningKey VerifyingKey) : Prop where
  suite : ∀ key, schemes.suite (schemes.verifyingKey key) = schemes.signingSuite key
  accepts : ∀ {key message signature}, schemes.signMessage key message = .ok signature →
    schemes.verifyMessage (schemes.verifyingKey key) message signature

/-- The public halves of a call's keys, under the same key ids. -/
def publicKeys (schemes : SignatureSchemes SigningKey VerifyingKey) (call : SignCall SigningKey) :
    List (Bytes × VerifyingKey) :=
  call.keys.map fun pair => (pair.1, schemes.verifyingKey pair.2)

variable {component : SuiteId} {key : SigningKey} {entry : SignatureEntry} {signature : Bytes}

/-- **An entry is verified under the key that signed it**: no key before it is of its component. -/
theorem verifyEntry_of_choose (hmatched : schemes.Matched)
    (h : schemes.choose call component = .ok (key, entry)) {message : Bytes}
    (hsign : schemes.signMessage key message = .ok signature) :
    schemes.verifyEntry (schemes.publicKeys call) message { entry with signature } = .ok () := by
  simp only [choose, bind_eq_ok, okOr_eq_ok, pure_eq_ok] at h
  obtain ⟨spec, -, ⟨keyId, key'⟩, hfind, hpair⟩ := h
  obtain ⟨rfl, rfl⟩ := Prod.mk.inj hpair
  obtain ⟨hsuite, before, after, hkeys, hbefore⟩ := find?_eq_some_iff_append.mp hfind
  simp only [verifyEntry, bind_eq_ok, okOr_eq_ok, ensure_eq_ok]
  refine ⟨(keyId, schemes.verifyingKey key'), find?_eq_some_iff_append.mpr
    ⟨by simpa [hmatched.suite] using hsuite, before.map fun pair => (pair.1, schemes.verifyingKey pair.2), _,
      by rw [publicKeys, hkeys, map_append]; rfl, ?_⟩, hmatched.accepts hsign⟩
  rw [forall_mem_map]
  intro pair hpair
  simpa [hmatched.suite] using Or.inr (hbefore pair hpair)

/-- A signature as long as its component's leaves the descriptor as it was drafted. -/
theorem descriptor_of_choose (h : schemes.choose call component = .ok (key, entry))
    (hcheck : check call.epoch { entry with signature } = .ok ()) :
    descriptor { entry with signature } = entry.descriptor := by
  simp only [choose, bind_eq_ok, okOr_eq_ok, pure_eq_ok] at h
  obtain ⟨spec, hspec, ⟨keyId, key'⟩, -, hpair⟩ := h
  obtain ⟨rfl, rfl⟩ := Prod.mk.inj hpair
  obtain ⟨spec', hspec', -, hlen⟩ := check_eq_ok.mp hcheck
  obtain rfl := Except.ok.inj (hspec.symm.trans hspec')
  simp only at hlen
  rw [descriptor, descriptor, length_replicate, hlen]

/-- **What is signed verifies**, under the public halves of the call's keys and any policy the call
meets, and the record is read back off its bytes. -/
theorem verify_sign (hmatched : schemes.Matched) (h : schemes.sign call = .ok record)
    {minEpoch : UInt64} (hepoch : minEpoch ≤ call.epoch) :
    schemes.verify record call.subject ⟨call.suite, call.purpose, call.signer, minEpoch⟩
        (schemes.publicKeys call) = .ok () ∧
      parse record.toBytes = .ok record := by
  refine ⟨?_, parse_eq_ok.mpr rfl⟩
  simp only [sign, draft, bind_eq_ok, pure_eq_ok, ofFields_eq_ok] at h
  obtain ⟨⟨chosen, drafted⟩, ⟨_, -, picks, hpicks, drafted', hfields, hpair⟩, entries, hentries,
    hrecord⟩ := h
  obtain ⟨rfl, rfl⟩ := Prod.mk.inj hpair
  have hvalid := record.valid
  rw [hrecord, hfields] at hvalid
  simp only [RecordFields.validate, RecordBody.check, bind_eq_ok, forM_eq_ok] at hvalid
  obtain ⟨suite, hsuite, -, -, -, -, -, hall, hroster⟩ := hvalid
  have hsigned := forall₂_of_mapM hentries
  simp only [bind_eq_ok, pure_eq_ok] at hsigned
  have hdescriptors : picks.map (·.2.descriptor) = entries.map descriptor := by
    rw [← forall₂_eq_eq_eq, forall₂_map_left_iff, forall₂_map_right_iff, forall₂_iff_zip]
    refine ⟨hsigned.length_eq, fun {pick entry} hzip => ?_⟩
    obtain ⟨signature, -, rfl⟩ := forall₂_zip hsigned hzip
    obtain ⟨component, -, hchoose⟩ := mem_of_mapM hpicks (of_mem_zip hzip).1
    exact (descriptor_of_choose hchoose (hall _ (of_mem_zip hzip).2)).symm
  have htranscript : record.transcript = drafted'.transcript := by
    rw [hrecord, hfields]
    simp only [RecordFields.transcript, RecordFields.header, flatMap_def, ← hdescriptors, map_map,
      length_map, hsigned.length_eq]
    rfl
  rw [verify_eq_ok, htranscript]
  refine ⟨by rw [hrecord, hfields], by rw [hrecord, hfields], by rw [hrecord, hfields],
    by rwa [hrecord, hfields], suite, entries, by rwa [hrecord, hfields], by rw [hrecord], hroster,
    fun entry hentry => ?_⟩
  obtain ⟨pick, hpick, hentry⟩ := mem_of_mapM hentries hentry
  simp only [bind_eq_ok, pure_eq_ok] at hentry
  obtain ⟨signature, hsign, rfl⟩ := hentry
  obtain ⟨component, -, hchoose⟩ := mem_of_mapM hpicks hpick
  exact verifyEntry_of_choose hmatched hchoose hsign

end SignatureSchemes

/-- **Signature records bind what they sign**: the bytes and the record are one another's, the signed
message names the subject and the record, and what a policy accepts was signed under it. -/
theorem signatureRecord_binds {SigningKey VerifyingKey : Type}
    (schemes : SignatureSchemes SigningKey VerifyingKey) (calls : Set (SignCall SigningKey))
    (hun : schemes.Unforgeable calls) :
    (∀ record : SignatureRecord, parse record.toBytes = .ok record) ∧
    (∀ bytes record, parse bytes = .ok record → record.toBytes = bytes) ∧
    (∀ (r r' : SignatureRecord) subject subject',
      signedMessage r.transcript subject = signedMessage r'.transcript subject' →
      subject = subject' ∧ r.suite = r'.suite ∧ r.purpose = r'.purpose ∧ r.epoch = r'.epoch ∧
        r.signer = r'.signer ∧ r.body.signed = r'.body.signed) ∧
    ∀ record subject policy keys, schemes.verify record subject policy keys = .ok () →
      record.purpose = policy.purpose ∧ record.signer = policy.signer ∧
      policy.minEpoch ≤ record.epoch ∧
      ∃ suite entries, allowed policy.suite = .ok suite ∧
        record.body = .signatures entries ∧ entries.map (·.suite) = suite.roster ∧
        ∀ component ∈ suite.roster, ∃ keyId key signing, (keyId, key) ∈ keys ∧
          schemes.suite key = component ∧ schemes.verifyingKey signing = key ∧
          ∃ call ∈ calls, call.subject = subject ∧ call.suite = policy.suite ∧
            call.purpose = policy.purpose ∧ call.epoch = record.epoch ∧
            call.signer = policy.signer ∧
            schemes.Asks call signing (signedMessage record.transcript subject) :=
  ⟨fun _ => parse_eq_ok.mpr rfl,
    fun _ _ h => (parse_eq_ok.mp h).symm,
    fun r r' _ _ h => signedMessage_inj r r' h,
    fun _ _ _ _ h => SignatureSchemes.signed_of_verify hun h⟩

namespace RecordDemo

/-- What stands for a signature: the last sixty-four bytes of the message. -/
def tag (message : Bytes) : Bytes := (message.reverse ++ replicate 64 0).take 64

/-- One Ed25519 entry over a one-byte signer. -/
def fields (signature : Bytes) : RecordFields :=
  ⟨sigEd25519V1, .receipt, 3, [9], .signatures [⟨sigEd25519V1, [5], signature⟩]⟩

/-- The record before its signature is filled in. -/
def blank : SignatureRecord := ⟨fields (replicate 64 0), by decide⟩

/-- What is signed. -/
def message : Bytes := signedMessage blank.transcript [1, 2]

def record : SignatureRecord := ⟨fields (tag message), by decide +kernel⟩

/-- One key, which tags what it signs and accepts the one message signed under its tag alone. -/
def schemes : SignatureSchemes Unit Unit where
  signingSuite _ := sigEd25519V1
  suite _ := sigEd25519V1
  verifyingKey := id
  signMessage _ asked := .ok (tag asked)
  verifyMessage _ asked signature := asked = message && signature = tag asked

def call : SignCall Unit := ⟨sigEd25519V1, .receipt, 3, [9], [1, 2], [([5], ())]⟩

theorem draft_call : schemes.draft call =
    .ok ([((), ⟨sigEd25519V1, [5], replicate 64 0⟩)], blank) := rfl

theorem unforgeable : schemes.Unforgeable {call} := by
  intro key asked signature h
  obtain ⟨hasked, -⟩ := Bool.and_eq_true_iff.mp h
  exact ⟨call, rfl, (), rfl, _, blank, draft_call, by simp, of_decide_eq_true hasked⟩

end RecordDemo

open RecordDemo in
/-- A verified receipt, the call that signed it, and its signature under a changed subject. -/
theorem signatureRecord_binds_receipt :
    schemes.verify record [1, 2] ⟨sigEd25519V1, .receipt, [9], 2⟩ [([5], ())] = .ok () ∧
      parse record.toBytes = .ok record ∧ record.signer = [9] ∧
      schemes.verify record [1, 3] ⟨sigEd25519V1, .receipt, [9], 2⟩ [([5], ())] ≠ .ok () ∧
      schemes.verify blank [1, 2] ⟨sigEd25519V1, .receipt, [9], 2⟩ [([5], ())] ≠ .ok () := by
  obtain ⟨hparse, -, -, hverify⟩ := signatureRecord_binds schemes {call} unforgeable
  have h : schemes.verify record [1, 2] ⟨sigEd25519V1, .receipt, [9], 2⟩ [([5], ())] = .ok () := by
    decide +kernel
  exact ⟨h, hparse record, (hverify _ _ _ _ h).2.1, by decide +kernel, by decide +kernel⟩

open RecordDemo in
/-- The receipt a call signs is verified under the call's own key. -/
theorem verify_sign_receipt :
    let fixed := { schemes with verifyMessage := fun _ asked signature => signature = tag asked }
    fixed.verify record [1, 2] ⟨sigEd25519V1, .receipt, [9], 2⟩ [([5], ())] = .ok () := by
  intro fixed
  have hsign : fixed.sign call = .ok record := rfl
  exact (SignatureSchemes.verify_sign ⟨fun _ => rfl, fun h => decide_eq_true (Except.ok.inj h).symm⟩ hsign
    (show 2 ≤ call.epoch by decide)).1

end Oneiron
