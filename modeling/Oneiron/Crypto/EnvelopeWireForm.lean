import Oneiron.Crypto.Envelope
import Oneiron.Crypto.RecordRoundTrip
import Oneiron.Foundations.Slices

/-!
# Crypto/EnvelopeWireForm — an envelope has one spelling, and a header's end is found from its front

The decoder is exact for the canonical header bytes (`exact_decode`), which gives both round trips and
the refusal of everything else, and it reads a stream (`streaming_decode`), so a header cut short is
short and what follows a header does not matter.
-/

namespace Oneiron

open List Except Header WrapParams

open Reader CryptoReader

/-! ## Reading by position -/

/-- `Reader::take` as it indexes its input; nothing is a slice out of bounds. -/
def takeAt (input : Bytes) (pos len : ℕ) (field : String) : Option (Except CryptoError (Bytes × ℕ)) :=
  match Slice.checkedAdd pos len with
  | .error _ => some (.error (.truncated field))
  | .ok stop =>
    if stop ≤ input.length then
      match Slice.indexRange pos stop input with
      | .ok out => some (.ok (out, stop))
      | .error _ => none
    else some (.error (.truncated field))

/-- **No read is past the input**: from a position within it, a reader takes of what is left there. -/
theorem takeAt_eq {input : Bytes} (hmax : input.length ≤ Slice.maxLen) {pos : ℕ}
    (hpos : pos ≤ input.length) (len : ℕ) (field : String) : takeAt input pos len field =
      some (((bytes len field).run (input.drop pos)).map fun out => (out.1, input.length - out.2.length)) := by
  have hrun : (bytes len field).run (input.drop pos) =
      if len ≤ (input.drop pos).length then .ok ((input.drop pos).take len, (input.drop pos).drop len)
      else .error (.truncated field) := rfl
  rw [hrun, length_drop]
  by_cases hlen : len ≤ input.length - pos
  · have hadd : Slice.checkedAdd pos len = .ok (pos + len) :=
      if_pos (by simp only [Slice.maxLen] at hmax; omega)
    have hrange : Slice.indexRange pos (pos + len) input = .ok ((input.take (pos + len)).drop pos) :=
      if_pos ⟨by omega, by omega⟩
    simp only [takeAt, hadd, hrange, if_pos hlen, if_pos (show pos + len ≤ input.length by omega)]
    rw [drop_take, drop_drop, Nat.add_sub_cancel_left]
    simp only [Except.map, length_drop]
    congr 3
    omega
  · rw [if_neg hlen, takeAt, Slice.checkedAdd]
    split
    · rfl
    · next stop hstop =>
      split at hstop
      · obtain rfl := ok.inj hstop
        rw [if_neg (by omega)]
        rfl
      · cases hstop

/-! ## Fields -/

variable {bytes : Bytes} {wrap : WrapType} {epoch : UInt64}

theorem WrapType.fromWire_eq_ok {byte : UInt8} : fromWire byte = .ok wrap ↔ byte = wrap.wire := by
  constructor
  · intro h
    unfold fromWire at h
    split at h <;> cases h <;> exact UInt8.toNat_inj.mp ‹_›
  · rintro rfl
    cases wrap <;> rfl

theorem Purpose.fromWire_eq_ok {value : UInt16} {purpose : Purpose} :
    fromWire value = .ok purpose ↔ value = purpose.wire := by
  constructor
  · intro h
    unfold fromWire at h
    split at h <;> cases h <;> exact UInt16.toNat_inj.mp ‹_›
  · rintro rfl
    cases purpose <;> rfl

section Readers

variable (field : String)

theorem exact_word : Exact (word field) (fun _ => True) beU32 :=
  ((exact_number 4 _).map (f := Nat.toUInt32) (g := UInt32.toNat) (fun _ => UInt32.ofNat_toNat)
    fun n hn => UInt32.toNat_ofNat_of_lt (by simpa using hn)).congr
    (fun x => iff_true_intro (by simpa using x.toNat_lt)) fun _ _ => rfl

theorem exact_fixed (n : ℕ) : Exact (fixed n field) (fun _ => True) FixedBytes.bytes := by
  intro s b t
  show (if h : n ≤ s.length then _ else _) = _ ↔ _
  split_ifs with h
  · constructor
    · intro he
      obtain ⟨rfl, rfl⟩ := Prod.mk.inj (ok.inj he)
      exact ⟨trivial, (take_append_drop n s).symm⟩
    · rintro ⟨-, rfl⟩
      congr 2
      · exact FixedBytes.ext (take_left' b.length_bytes)
      · exact drop_left' b.length_bytes
  · refine ⟨nofun, ?_⟩
    rintro ⟨-, rfl⟩
    exact absurd (by simp) h

end Readers

theorem exact_readKdf : Exact readKdf (fun _ => True) Kdf.encode := by
  intro s kdf t
  rw [readKdf, run_bind_ok]
  simp only [exact_u8 _ _, true_and]
  constructor
  · rintro ⟨tag, s', rfl, h⟩
    split at h
    · next htag =>
      obtain ⟨salt, hsalt, rfl⟩ := run_map_ok.mp h
      obtain ⟨-, rfl⟩ := (exact_bytes32 _ _ _ _).mp hsalt
      rw [htag]
      rfl
    · split at h
      · next htag =>
        simp only [run_bind_ok, run_pure_ok, exact_word _ _, exact_u8 _ _, exact_bytes32 _ _,
          true_and] at h
        obtain ⟨mKib, _, rfl, passes, _, rfl, lanes, _, rfl, salt, _, rfl, rfl, rfl⟩ := h
        rw [htag]
        simp [Kdf.encode]
      · exact nomatch (run_lift_ok.mp h).1
  · rintro rfl
    cases kdf with
    | hkdfSha256 salt =>
      refine ⟨1, _, rfl, ?_⟩
      exact run_map_ok.mpr ⟨salt, (exact_bytes32 _ _ _ _).mpr ⟨trivial, rfl⟩, rfl⟩
    | argon2idHkdfSha256 cost salt =>
      have hspell : (Kdf.argon2idHkdfSha256 cost salt).encode ++ t =
          2 :: (beU32 cost.mKib ++ (beU32 cost.t ++ ([cost.p] ++ (salt.asBytes ++ t)))) := by
        simp [Kdf.encode]
      refine ⟨2, _, hspell, ?_⟩
      rw [if_neg (by decide), if_pos rfl]
      simp only [run_bind_ok, run_pure_ok, exact_word _ _, exact_u8 _ _, exact_bytes32 _ _, true_and]
      exact ⟨cost.mKib, _, rfl, cost.t, _, rfl, cost.p, _, rfl, salt, _, rfl, rfl, rfl⟩

/-- What a wrap type's parameters are when they are read. -/
def WrapParams.Read (wrap : WrapType) (epoch : UInt64) : WrapParams → Prop
  | none => wrap ≠ .shamirRecovery ∧ wrap ≠ .hybridCapsule
  | shamir .. => wrap = .shamirRecovery
  | hybrid kemSuite _ _ =>
    wrap = .hybridCapsule ∧ ∃ suite, Suite.require kemSuite [.kem] epoch = .ok suite

theorem read_of_check {params : WrapParams} (h : params.check wrap epoch = .ok ()) :
    params.Read wrap epoch := by
  cases params with
  | none =>
    constructor <;> rintro rfl <;> simp [check] at h
  | shamir =>
    cases wrap with
    | shamirRecovery => exact rfl
    | _ => simp [check] at h
  | hybrid kemSuite =>
    cases wrap with
    | hybridCapsule =>
      obtain ⟨suite, hsuite, -⟩ := bind_eq_ok.mp h
      exact ⟨rfl, suite, hsuite⟩
    | _ => simp [check] at h

theorem exact_readWrapParams (wrap : WrapType) (epoch : UInt64) :
    Exact (readWrapParams wrap epoch) (WrapParams.Read wrap epoch) WrapParams.encode := by
  intro s params t
  unfold readWrapParams
  split
  · simp only [run_bind_ok, run_pure_ok, exact_u8 _ _, exact_fixed _ _ _, true_and]
    constructor
    · rintro ⟨threshold, _, rfl, shares, _, rfl, shareSetId, _, rfl, rfl, rfl⟩
      exact ⟨rfl, rfl⟩
    · rintro ⟨hread, rfl⟩
      cases params with
      | none => exact absurd rfl hread.1
      | shamir threshold shares shareSetId =>
        exact ⟨threshold, _, rfl, shares, _, rfl, shareSetId, _, rfl, rfl, rfl⟩
      | hybrid => exact nomatch hread.1
  · simp only [run_bind_ok, run_pure_ok, run_lift_ok, exact_u16 _ _, exact_bytes32 _ _, exact_fixed _ _ _,
      true_and]
    constructor
    · rintro ⟨kemSuite, _, rfl, suite, _, ⟨hsuite, rfl⟩, x25519, _, rfl, mlkem, _, rfl, rfl, rfl⟩
      exact ⟨⟨rfl, suite, hsuite⟩, by simp [WrapParams.encode]⟩
    · rintro ⟨hread, rfl⟩
      cases params with
      | none => exact absurd rfl hread.2
      | shamir => exact nomatch hread
      | hybrid kemSuite x25519 mlkem =>
        obtain ⟨suite, hsuite⟩ := hread.2
        exact ⟨kemSuite, _, by simp only [WrapParams.encode, append_assoc], suite, _,
          ⟨hsuite, rfl⟩, x25519, _, rfl, mlkem, _, rfl, rfl, rfl⟩
  · next hshamir hhybrid =>
    rw [run_pure_ok]
    constructor
    · rintro ⟨rfl, rfl⟩
      exact ⟨⟨hshamir, hhybrid⟩, rfl⟩
    · rintro ⟨hread, rfl⟩
      cases params with
      | none => exact ⟨rfl, rfl⟩
      | shamir => exact absurd hread hshamir
      | hybrid => exact absurd hread.1 hhybrid

/-! ## The header -/

namespace Header

variable {header : Header} (field : String)

theorem validate_eq_ok : header.validate = .ok () ↔
    ∃ suite, Suite.require header.suite [.aead] header.epoch = .ok suite ∧
      (1 ≤ header.keyId.length ∧ header.keyId.length ≤ maxIdLen) ∧
      (1 ≤ header.recipient.length ∧ header.recipient.length ≤ maxIdLen) ∧
      (1 ≤ header.vaultId.length ∧ header.vaultId.length ≤ maxIdLen) ∧
      header.kdf.checkWrap header.wrap = .ok () ∧
      header.wrapParams.check header.wrap header.epoch = .ok () ∧
      header.nonce.length = suite.nonceLen ∧
      tagLen ≤ header.ciphertextLen.toNat ∧
      header.ciphertextLen.toNat ≤ maxPlaintextLen + tagLen := by
  simp only [validate, bind_eq_ok, checkLen_eq_ok]
  constructor
  · rintro ⟨suite, hsuite, ⟨⟩, hkey, ⟨⟩, hrecipient, ⟨⟩, hvault, ⟨⟩, hkdf, ⟨⟩, hparams, ⟨⟩, hnonce, hct⟩
    exact ⟨suite, hsuite, hkey, hrecipient, hvault, hkdf, hparams, Nat.le_antisymm hnonce.2 hnonce.1, hct⟩
  · rintro ⟨suite, hsuite, hkey, hrecipient, hvault, hkdf, hparams, hnonce, hct⟩
    exact ⟨suite, hsuite, (), hkey, (), hrecipient, (), hvault, (), hkdf, (), hparams, (),
      ⟨hnonce.ge, hnonce.le⟩, hct⟩

/-- A suite an epoch accepts is accepted at the last one. -/
theorem require_last {id : SuiteId} {suite : Suite} (h : Suite.require id [.aead] epoch = .ok suite)
    :
    Suite.require id [.aead] (UInt64.ofNat (2 ^ 64 - 1)) = .ok suite := by
  obtain ⟨hallowed, hkind, -⟩ := Suite.require_eq_ok.mp h
  refine Suite.require_eq_ok.mpr ⟨hallowed, hkind, UInt64.le_iff_toNat_le.mpr ?_⟩
  exact Nat.le_of_lt_succ suite.minEpoch.toNat_lt

theorem exact_readFront : Exact readFront
    (fun (suiteId, suite, _, _, epoch) => Suite.require suiteId [.aead] epoch = .ok suite)
    fun (suiteId, _, wrap, purpose, epoch) => envelopeMagic ++ (beU16 envelopeVersion ++
      (beU16 suiteId ++ ([wrap.wire] ++ (beU16 purpose.wire ++ beU64 epoch)))) := by
  rintro s ⟨suiteId, suite, wrap, purpose, epoch⟩ t
  simp only [readFront, run_bind_ok, run_lift_ok, run_pure_ok, exact_u8 _ _, exact_u16 _ _,
    exact_u64 _ _, exact_bytes _ _ _, true_and, ensure_eq_ok, WrapType.fromWire_eq_ok,
    Purpose.fromWire_eq_ok]
  constructor
  · rintro ⟨magic, _, ⟨-, rfl⟩, ⟨⟩, _, ⟨rfl, rfl⟩, version, _, rfl, ⟨⟩, _, ⟨rfl, rfl⟩, suiteId, _, rfl,
      suite, _, ⟨hlast, rfl⟩, _, _, rfl, wrap, _, ⟨rfl, rfl⟩, _, _, rfl, purpose, _, ⟨rfl, rfl⟩, epoch, _,
      rfl, accepted, _, ⟨hsuite, rfl⟩, ⟨⟩, rfl⟩
    have hsame := require_last hsuite
    rw [hlast] at hsame
    exact ⟨(ok.inj hsame) ▸ hsuite, by simp only [append_assoc]⟩
  · rintro ⟨hsuite, rfl⟩
    exact ⟨envelopeMagic, _, ⟨rfl, by simp only [append_assoc]⟩, (), _, ⟨rfl, rfl⟩,
      envelopeVersion, _, rfl, (), _, ⟨rfl, rfl⟩, suiteId, _, rfl, suite, _, ⟨require_last hsuite, rfl⟩,
      wrap.wire, _, rfl, wrap, _, ⟨rfl, rfl⟩, purpose.wire, _, rfl, purpose, _, ⟨rfl, rfl⟩, epoch, _, rfl,
      suite, _, ⟨hsuite, rfl⟩, rfl, rfl⟩

/-- What three ids must be. -/
def IdsRead (ids : Bytes × Bytes × Bytes) : Prop :=
  (1 ≤ ids.1.length ∧ ids.1.length ≤ maxIdLen) ∧ (1 ≤ ids.2.1.length ∧ ids.2.1.length ≤ maxIdLen) ∧
    1 ≤ ids.2.2.length ∧ ids.2.2.length ≤ maxIdLen

theorem exact_readIds : Exact readIds IdsRead
    fun (keyId, recipient, vaultId) => putLp8 keyId ++ (putLp8 recipient ++ putLp8 vaultId) := by
  rintro s ⟨keyId, recipient, vaultId⟩ t
  have hid (field : String) := exact_lp8 field 1 maxIdLen (by decide)
  simp only [readIds, run_bind_ok, run_pure_ok, hid _ _]
  constructor
  · rintro ⟨keyId, _, ⟨hkey, rfl⟩, recipient, _, ⟨hrecipient, rfl⟩, vaultId, _, ⟨hvault, rfl⟩, ⟨⟩, rfl⟩
    exact ⟨⟨hkey, hrecipient, hvault⟩, by simp only [append_assoc]⟩
  · rintro ⟨⟨hkey, hrecipient, hvault⟩, rfl⟩
    exact ⟨keyId, _, ⟨hkey, by simp only [append_assoc]⟩, recipient, _, ⟨hrecipient, rfl⟩, vaultId, _,
      ⟨hvault, rfl⟩, rfl, rfl⟩

/-- **The decoder accepts exactly the canonical bytes of what passes its checks.** -/
theorem exact_decode : Exact decode (fun header => header.validate = .ok ()) encode := by
  intro s header t
  simp only [decode, run_bind_ok, run_lift_ok, run_pure_ok, exact_readFront _, exact_readIds _,
    exact_readKdf _, exact_readWrapParams _ _ _, exact_bytes _ _ _, exact_word _ _, true_and]
  constructor
  · rintro ⟨⟨suiteId, suite, wrap, purpose, epoch⟩, _, ⟨-, rfl⟩, ⟨keyId, recipient, vaultId⟩, _, ⟨-, rfl⟩,
      kdf, _, rfl, ⟨⟩, _, ⟨-, rfl⟩, params, _, ⟨-, rfl⟩, nonce, _, ⟨-, rfl⟩, len, _, rfl, ⟨⟩, _,
      ⟨hvalid, rfl⟩, rfl, rfl⟩
    exact ⟨hvalid, by simp only [encode, append_assoc]⟩
  · rintro ⟨hvalid, rfl⟩
    obtain ⟨suite, hsuite, hkey, hrecipient, hvault, hkdf, hparams, hnonce, -⟩ := validate_eq_ok.mp hvalid
    exact ⟨(header.suite, suite, header.wrap, header.purpose, header.epoch), _,
      ⟨hsuite, by simp only [encode, append_assoc]; rfl⟩,
      (header.keyId, header.recipient, header.vaultId), _,
      ⟨⟨hkey, hrecipient, hvault⟩, by simp only [append_assoc]⟩, header.kdf, _, rfl, (), _,
      ⟨hkdf, rfl⟩, header.wrapParams, _, ⟨read_of_check hparams, rfl⟩, header.nonce, _,
      ⟨hnonce, rfl⟩, header.ciphertextLen, _, rfl, (), _, ⟨hvalid, rfl⟩, rfl, rfl⟩

/-! ## A header on a stream -/

/-- Whether a refusal says that the input ended inside a field. -/
def IsTruncated (e : CryptoError) : Prop := ∃ field, e = .truncated field

theorem streaming_bytes (n : ℕ) (field : String) : Streaming IsTruncated (CryptoReader.bytes n field) :=
  .take ⟨field, rfl⟩

theorem streaming_number (width : ℕ) (field : String) :
    Streaming IsTruncated (number width (CryptoError.truncated field)) := .number ⟨field, rfl⟩

theorem streaming_u8 : Streaming IsTruncated (u8 field) := (streaming_number 1 field).map

theorem streaming_u16 : Streaming IsTruncated (u16 field) := (streaming_number 2 field).map

theorem streaming_u64 : Streaming IsTruncated (u64 field) := (streaming_number 8 field).map

theorem streaming_word : Streaming IsTruncated (word field) :=
  (streaming_number 4 field).map

theorem streaming_lp8 (lo hi : ℕ) : Streaming IsTruncated (lp8 field lo hi) :=
  (streaming_u8 field).bind fun _ => (Streaming.lift _).bind fun _ => streaming_bytes _ field

/-- A reader of a fixed number of bytes is a stream's. -/
theorem streaming_of_exact {α : Type} {reader : Reader CryptoError α} {spell : α → Bytes} {n : ℕ}
    {field : String} (hexact : Exact reader (fun _ => True) spell) (hlen : ∀ a, (spell a).length = n)
    (hshort : ∀ s, s.length < n → reader.run s = .error (.truncated field)) :
    Streaming IsTruncated reader := by
  intro s a t h
  obtain ⟨-, rfl⟩ := (hexact s a t).mp h
  refine ⟨spell a, rfl, fun t' => (hexact _ a t').mpr ⟨trivial, rfl⟩, fun p q heq hq => ?_⟩
  refine ⟨_, ⟨field, rfl⟩, hshort p ?_⟩
  have hpos := length_pos_of_ne_nil hq
  have := hlen a
  rw [heq, length_append] at this
  omega

theorem streaming_bytes32 : Streaming IsTruncated (bytes32 field) :=
  streaming_of_exact (exact_bytes32 field) (fun b => b.length_asBytes) fun _ hs => dif_neg (by omega)

theorem streaming_fixed (n : ℕ) (field : String) : Streaming IsTruncated (fixed n field) :=
  streaming_of_exact (exact_fixed field n) (fun b => b.length_bytes) fun _ hs => dif_neg (by omega)

theorem streaming_readKdf : Streaming IsTruncated readKdf := by
  refine (streaming_u8 _).bind fun tag => ?_
  split
  · exact (streaming_bytes32 _).map
  · split
    · exact (streaming_word _).bind fun _ => (streaming_word _).bind fun _ =>
        (streaming_u8 _).bind fun _ => (streaming_bytes32 _).bind fun _ => .pure _
    · exact .lift _

theorem streaming_readWrapParams (wrap : WrapType) (epoch : UInt64) :
    Streaming IsTruncated (readWrapParams wrap epoch) := by
  unfold readWrapParams
  split
  · exact (streaming_u8 _).bind fun _ => (streaming_u8 _).bind fun _ =>
      (streaming_fixed _ _).bind fun _ => .pure _
  · exact (streaming_u16 _).bind fun _ => (Streaming.lift _).bind fun _ =>
      (streaming_bytes32 _).bind fun _ => (streaming_fixed _ _).bind fun _ => .pure _
  · exact .pure _

theorem streaming_readFront : Streaming IsTruncated readFront :=
  (streaming_bytes _ _).bind fun _ => (Streaming.lift _).bind fun _ => (streaming_u16 _).bind fun _ =>
    (Streaming.lift _).bind fun _ => (streaming_u16 _).bind fun _ => (Streaming.lift _).bind fun _ =>
      (streaming_u8 _).bind fun _ => (Streaming.lift _).bind fun _ => (streaming_u16 _).bind fun _ =>
        (Streaming.lift _).bind fun _ => (streaming_u64 _).bind fun _ => (Streaming.lift _).bind fun _ =>
          .pure _

theorem streaming_readIds : Streaming IsTruncated readIds :=
  (streaming_lp8 _ _ _).bind fun _ => (streaming_lp8 _ _ _).bind fun _ =>
    (streaming_lp8 _ _ _).bind fun _ => .pure _

/-- **The decoder reads a stream.** -/
theorem streaming_decode : Streaming IsTruncated decode :=
  streaming_readFront.bind fun (_, _, wrap, _, epoch) => streaming_readIds.bind fun (_, _, _) =>
    streaming_readKdf.bind fun _ => (Streaming.lift _).bind fun _ =>
      (streaming_readWrapParams wrap epoch).bind fun _ => (streaming_bytes _ _).bind fun _ =>
        (streaming_word _).bind fun _ => (Streaming.lift _).bind fun _ => .pure _

/-! ## A header's length -/

/-- `ONEV_HEADER_PREFIX_MIN`. -/
def prefixMin : ℕ := 74

/-- `ONEV_HEADER_PREFIX_MAX`. -/
def prefixMax : ℕ := 1877

theorem length_putLp8 {b : Bytes} (h : b.length ≤ maxIdLen) : (putLp8 b).length = b.length + 1 := by
  rw [putLp8_of_length_le (h.trans (by decide)), length_cons]

/-- Every part of a header but its ids, kdf, parameters and nonce has one length. -/
theorem length_encode (h : header.validate = .ok ()) :
    header.encode.length = 26 + header.keyId.length + header.recipient.length + header.vaultId.length +
      header.kdf.encode.length + header.wrapParams.encode.length + header.nonce.length := by
  obtain ⟨suite, -, hkey, hrecipient, hvault, -⟩ := validate_eq_ok.mp h
  have hmagic : envelopeMagic.length = 4 := by decide
  simp only [encode, length_append, length_putLp8 hkey.2, length_putLp8 hrecipient.2,
    length_putLp8 hvault.2, beU16, beU32, beU64, length_digits, length_singleton, hmagic]
  omega

/-- **The two derived bounds hold** of every canonical header. -/
theorem encode_bounds (h : header.validate = .ok ()) :
    prefixMin ≤ header.encode.length ∧ header.encode.length ≤ prefixMax := by
  obtain ⟨suite, -, hkey, hrecipient, hvault, hkdf, hparams, hnonce, -⟩ := validate_eq_ok.mp h
  have hread := read_of_check hparams
  have hnonce' : header.nonce.length = 12 ∨ header.nonce.length = 24 := by
    rw [hnonce, Suite.nonceLen]
    split
    · exact .inl rfl
    · exact .inr rfl
  have hparts : (header.kdf.encode.length = 33 ∧ header.wrapParams.encode.length ≤ 1602) ∨
      (header.kdf.encode.length = 42 ∧ header.wrapParams.encode.length = 0) := by
    cases hk : header.kdf with
    | hkdfSha256 salt =>
      refine .inl ⟨by simp [Kdf.encode, salt.length_asBytes], ?_⟩
      cases header.wrapParams with
      | none | shamir => simp [WrapParams.encode]
      | hybrid kemSuite x25519 mlkem =>
        simp [WrapParams.encode, beU16, x25519.length_asBytes]
    | argon2idHkdfSha256 cost salt =>
      have hwrap : header.wrap = .passphrase := by
        rw [hk, Kdf.checkWrap] at hkdf
        exact by_contra fun hne => by simp [hne] at hkdf
      refine .inr ⟨by simp [Kdf.encode, beU32, salt.length_asBytes], ?_⟩
      cases hp : header.wrapParams with
      | none => rfl
      | shamir =>
        rw [hp] at hread
        exact nomatch hwrap.symm.trans hread
      | hybrid =>
        rw [hp] at hread
        exact nomatch hwrap.symm.trans hread.1
  rw [length_encode h]
  simp only [prefixMin, prefixMax, maxIdLen] at *
  omega

/-! ## The two parsers -/

theorem decodeCanonical_eq_ok {headerBytes rest : Bytes} :
    decodeCanonical bytes = .ok (header, headerBytes, rest) ↔
      header.validate = .ok () ∧ headerBytes = header.encode ∧ bytes = header.encode ++ rest := by
  simp only [decodeCanonical, bind_eq_ok, ensure_eq_ok, pure_eq_ok]
  constructor
  · rintro ⟨⟨header, rest⟩, hread, ⟨⟩, -, ⟨⟩⟩
    obtain ⟨hvalid, hbytes⟩ := (exact_decode _ _ _).mp hread
    exact ⟨hvalid, rfl, hbytes⟩
  · rintro ⟨hvalid, rfl, rfl⟩
    refine ⟨(header, rest), (exact_decode _ _ _).mpr ⟨hvalid, rfl⟩, (), ?_, rfl⟩
    rw [length_append, Nat.add_sub_cancel, take_left]

theorem parsePrefix_eq_ok {n : ℕ} : parsePrefix bytes = .ok (header, n) ↔
      header.validate = .ok () ∧ n = header.encode.length ∧ ∃ rest, bytes = header.encode ++ rest := by
  simp only [parsePrefix, bind_eq_ok, pure_eq_ok]
  constructor
  · rintro ⟨⟨header, headerBytes, rest⟩, hread, ⟨⟩⟩
    obtain ⟨hvalid, rfl, rfl⟩ := decodeCanonical_eq_ok.mp hread
    exact ⟨hvalid, by rw [length_append, Nat.add_sub_cancel], rest, rfl⟩
  · rintro ⟨hvalid, rfl, rest, rfl⟩
    refine ⟨(header, header.encode, rest), decodeCanonical_eq_ok.mpr ⟨hvalid, rfl, rfl⟩, ?_⟩
    rw [length_append, Nat.add_sub_cancel]

/-- **A header cut short is short.** -/
theorem parsePrefix_truncated (h : header.validate = .ok ()) {p q : Bytes}
    (heq : header.encode = p ++ q) (hq : q ≠ []) :
    ∃ field, parsePrefix p = .error (.truncated field) := by
  obtain ⟨e, ⟨field, rfl⟩, hcut⟩ := streaming_decode.short_of_exact exact_decode h heq hq
  refine ⟨field, ?_⟩
  rw [parsePrefix, decodeCanonical, hcut]
  rfl

end Header

namespace Envelope

/-- What a parsed or sealed envelope is: a checked header, its canonical bytes, and as much ciphertext
as it declares. -/
structure Canonical (envelope : Envelope) : Prop where
  valid : envelope.header.validate = .ok ()
  headerBytes_eq : envelope.headerBytes = envelope.header.encode
  length_ciphertext : envelope.ciphertext.length = envelope.header.ciphertextLen.toNat

theorem parse_eq_ok {envelope : Envelope} :
    parse bytes = .ok envelope ↔ envelope.Canonical ∧ bytes = envelope.toBytes := by
  simp only [parse, bind_eq_ok, ensure_eq_ok, pure_eq_ok]
  constructor
  · rintro ⟨⟨header, headerBytes, rest⟩, hread, ⟨ciphertext, rest'⟩, htake, ⟨⟩, hrest, rfl⟩
    obtain ⟨hvalid, rfl, rfl⟩ := decodeCanonical_eq_ok.mp hread
    obtain ⟨hlen, rfl⟩ := (exact_bytes _ _ _ _ _).mp htake
    obtain rfl : rest' = [] := length_eq_zero_iff.mp hrest
    exact ⟨⟨hvalid, rfl, hlen⟩, by rw [append_nil]; rfl⟩
  · rintro ⟨⟨hvalid, hbytes, hlen⟩, rfl⟩
    refine ⟨(envelope.header, envelope.headerBytes, envelope.ciphertext),
      decodeCanonical_eq_ok.mpr ⟨hvalid, hbytes, by rw [toBytes, hbytes]⟩,
      (envelope.ciphertext, []), (exact_bytes _ _ _ _ _).mpr ⟨hlen, (append_nil _).symm⟩, (), rfl, rfl⟩

/-- **The sealed envelope's wire form.**  A checked header with its ciphertext parses back from its
bytes; what parses is spelled by nothing else; a canonical header lies between the two bounds, is found
at the front of whatever goes on from it, and cut short is truncated; and all else is refused, no read
indexing past the input. -/
theorem sealed_envelope_wire_form :
    (∀ (header : Header) (ciphertext : Bytes), header.validate = .ok () →
      ciphertext.length = header.ciphertextLen.toNat →
        parse (toBytes ⟨header, header.encode, ciphertext⟩) = .ok ⟨header, header.encode, ciphertext⟩) ∧
    (∀ (bytes : Bytes) (envelope : Envelope), parse bytes = .ok envelope → envelope.toBytes = bytes) ∧
    (∀ header : Header, header.validate = .ok () →
      (prefixMin ≤ header.encode.length ∧ header.encode.length ≤ prefixMax) ∧
      (∀ rest, parsePrefix (header.encode ++ rest) = .ok (header, header.encode.length)) ∧
      ∀ p q, header.encode = p ++ q → q ≠ [] →
        ∃ field, parsePrefix p = .error (.truncated field)) ∧
    (∀ bytes : Bytes,
      ((∀ header : Header, header.validate = .ok () → ¬ header.encode <+: bytes) →
        ∃ e, parsePrefix bytes = .error e) ∧
      ((∀ envelope : Envelope, envelope.Canonical → envelope.toBytes ≠ bytes) →
        ∃ e, parse bytes = .error e)) ∧
    ∀ (input : Bytes) (pos len : ℕ) (field : String), input.length ≤ Slice.maxLen →
      pos ≤ input.length → takeAt input pos len field =
        some (((CryptoReader.bytes len field).run (input.drop pos)).map fun out =>
          (out.1, input.length - out.2.length)) := by
  refine ⟨fun header ciphertext hvalid hlen => parse_eq_ok.mpr ⟨⟨hvalid, rfl, hlen⟩, rfl⟩,
    fun bytes envelope h => (parse_eq_ok.mp h).2.symm, fun header hvalid => ⟨encode_bounds hvalid,
      fun rest => parsePrefix_eq_ok.mpr ⟨hvalid, rfl, rest, rfl⟩,
      fun p q => parsePrefix_truncated hvalid⟩, fun bytes => ⟨fun hnone => ?_, fun hnone => ?_⟩,
    fun input pos len field hmax hpos => takeAt_eq hmax hpos len field⟩
  · cases h : parsePrefix bytes with
    | error e => exact ⟨e, rfl⟩
    | ok out =>
      obtain ⟨hvalid, -, rest, rfl⟩ := parsePrefix_eq_ok.mp h
      exact absurd (prefix_append _ _) (hnone out.1 hvalid)
  · cases h : parse bytes with
    | error e => exact ⟨e, rfl⟩
    | ok envelope =>
      obtain ⟨hcanonical, rfl⟩ := parse_eq_ok.mp h
      exact absurd rfl (hnone envelope hcanonical)

/-- A header of the shortest kind. -/
def shortHeader : Header where
  suite := 0x0002
  wrap := .symmetricKek
  purpose := .vaultDek
  epoch := 1
  keyId := [7]
  recipient := [8]
  vaultId := [9]
  kdf := .hkdfSha256 ⟨List.replicate 32 0, rfl⟩
  wrapParams := .none
  nonce := List.replicate 12 0
  ciphertextLen := 16

theorem sealed_envelope_wire_form_short :
    parse (toBytes ⟨shortHeader, shortHeader.encode, List.replicate 16 5⟩) =
      .ok ⟨shortHeader, shortHeader.encode, List.replicate 16 5⟩ :=
  sealed_envelope_wire_form.1 shortHeader (List.replicate 16 5) (by decide) (by decide)

end Envelope

end Oneiron
