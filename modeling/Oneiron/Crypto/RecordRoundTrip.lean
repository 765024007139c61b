import Oneiron.Crypto.SignatureRecord

/-!
# Crypto/RecordRoundTrip — the parser accepts exactly the canonical bytes

Each field's reader is exact for its spelling (`Foundations/Reading`), so the record's is: what it
reads is a record's canonical bytes, and every checked record's bytes are read.
-/

namespace Oneiron

open Reader CryptoReader Except List Suite RecordFields

theorem Reader.Exact.congr {ε α : Type} {reader : Reader ε α} {P Q : α → Prop}
    {spell spell' : α → Bytes} (h : Exact reader P spell) (hPQ : ∀ a, P a ↔ Q a)
    (hspell : ∀ a, P a → spell a = spell' a) : Exact reader Q spell' := by
  intro s a t
  rw [h s a t, ← hPQ a]
  exact and_congr_right fun hP => by rw [hspell a hP]

section Fields

variable (field : String)

theorem exact_bytes (n : ℕ) : Exact (bytes n field) (fun b => b.length = n) fun b => b :=
  exact_take n _

theorem exact_u8 : Exact (u8 field) (fun _ => True) fun x => [x] :=
  ((exact_number 1 _).map (f := Nat.toUInt8) (g := UInt8.toNat) (fun _ => UInt8.ofNat_toNat)
    fun n hn => UInt8.toNat_ofNat_of_lt (by simpa using hn)).congr
    (fun x => iff_true_intro (by simpa using x.toNat_lt)) fun x _ => by
      simp [digits]

theorem exact_u16 : Exact (u16 field) (fun _ => True) beU16 :=
  ((exact_number 2 _).map (f := Nat.toUInt16) (g := UInt16.toNat) (fun _ => UInt16.ofNat_toNat)
    fun n hn => UInt16.toNat_ofNat_of_lt (by simpa using hn)).congr
    (fun x => iff_true_intro (by simpa using x.toNat_lt)) fun _ _ => rfl

theorem exact_u64 : Exact (u64 field) (fun _ => True) beU64 :=
  ((exact_number 8 _).map (f := Nat.toUInt64) (g := UInt64.toNat) (fun _ => UInt64.ofNat_toNat)
    fun n hn => UInt64.toNat_ofNat_of_lt (by simpa using hn)).congr
    (fun x => iff_true_intro (by simpa using x.toNat_lt)) fun _ _ => rfl

theorem exact_u32 : Exact (u32 field) (· < 256 ^ 4) (digits 4) := exact_number 4 _

theorem exact_bytes32 : Exact (bytes32 field) (fun _ => True) Bytes32.asBytes := by
  intro s b t
  show (if h : 32 ≤ s.length then _ else _) = _ ↔ _
  split_ifs with h
  · constructor
    · intro he
      obtain ⟨rfl, rfl⟩ := Prod.mk.inj (ok.inj he)
      exact ⟨trivial, (take_append_drop 32 s).symm⟩
    · rintro ⟨-, rfl⟩
      congr 2
      · exact Bytes32.ext (by simp)
      · simp
  · refine ⟨nofun, ?_⟩
    rintro ⟨-, rfl⟩
    exact absurd (by simp) h

@[simp] theorem checkLen_eq_ok {len lo hi : ℕ} {u : Unit} :
    checkLen field len lo hi = .ok u ↔ lo ≤ len ∧ len ≤ hi := ensure_eq_ok

theorem toNat_toUInt8 {n : ℕ} (h : n ≤ 255) : n.toUInt8.toNat = n :=
  UInt8.toNat_ofNat_of_lt (show n < 256 by omega)

theorem putLp8_of_length_le {b : Bytes} (h : b.length ≤ 255) :
    putLp8 b = b.length.toUInt8 :: b := by
  rw [putLp8, take_of_length_le h, Nat.min_eq_left h]

theorem countByte_of_le {n : ℕ} (h : n ≤ 255) : countByte n = [n.toUInt8] := by
  rw [countByte, Nat.min_eq_left h]

theorem exact_lp8 (lo hi : ℕ) (hhi : hi ≤ 255) :
    Exact (lp8 field lo hi) (fun b => lo ≤ b.length ∧ b.length ≤ hi) putLp8 := by
  intro s b t
  simp only [lp8, run_bind_ok, run_lift_ok, exact_u8 field _, exact_bytes field _ _, true_and]
  constructor
  · rintro ⟨len, s₁, rfl, ⟨⟩, s₂, ⟨hlen, rfl⟩, hb, rfl⟩
    rw [checkLen_eq_ok, ← hb] at hlen
    have hbyte : b.length.toUInt8 = len := by
      rw [hb]
      exact UInt8.ofNat_toNat
    refine ⟨hlen, ?_⟩
    rw [putLp8_of_length_le (by omega), hbyte]
    rfl
  · rintro ⟨hlen, rfl⟩
    have hbyte := toNat_toUInt8 (hlen.2.trans hhi)
    refine ⟨b.length.toUInt8, b ++ t, ?_, (), _, ⟨?_, rfl⟩, hbyte.symm, rfl⟩
    · rw [putLp8_of_length_le (hlen.2.trans hhi)]
      rfl
    · rw [checkLen_eq_ok, hbyte]
      exact hlen

end Fields

namespace SignatureRecord

/-- What a list of entries must satisfy on its own. -/
def EntriesRead (epoch : UInt64) (entries : List SignatureEntry) : Prop :=
  (1 ≤ entries.length ∧ entries.length ≤ maxSignatures) ∧
    ∀ entry ∈ entries, entry.check epoch = .ok ()

def BodyRead (epoch : UInt64) : RecordBody → Prop
  | .signatures entries => EntriesRead epoch entries
  | .checkpoint cref => cref.proof.length ≤ maxProofLen

variable {fields : RecordFields} {entry : SignatureEntry} {record : SignatureRecord}
  (epoch : UInt64)

theorem check_eq_ok {epoch : UInt64} : entry.check epoch = .ok () ↔
    ∃ component, Suite.require entry.suite [.signature] epoch = .ok component ∧
      (1 ≤ entry.keyId.length ∧ entry.keyId.length ≤ maxIdLen) ∧
      entry.signature.length = component.signatureLen := by
  simp only [SignatureEntry.check, bind_eq_ok, checkLen_eq_ok]
  constructor
  · rintro ⟨component, h, ⟨⟩, hid, hlen⟩
    exact ⟨component, h, hid, Nat.le_antisymm hlen.2 hlen.1⟩
  · rintro ⟨component, h, hid, hlen⟩
    exact ⟨component, h, (), hid, hlen.ge, hlen.le⟩

/-- A checked entry's descriptor says its signature's own length. -/
theorem descriptor_of_check {epoch : UInt64} (h : entry.check epoch = .ok ()) :
    entry.signature.length < 256 ^ 4 ∧ entry.descriptor =
      beU16 entry.suite ++ putLp8 entry.keyId ++ digits 4 entry.signature.length := by
  obtain ⟨component, hreq, -, hlen⟩ := check_eq_ok.mp h
  have hlt := signatureLen_lt component
    (mem_of_allowed (require_eq_ok.mp hreq).1)
  rw [← hlen] at hlt
  refine ⟨hlt, ?_⟩
  rw [SignatureEntry.descriptor, Nat.min_eq_left (by norm_num at hlt ⊢; omega)]

theorem exact_readEntry : Exact (readEntry epoch)
    (fun entry => entry.check epoch = .ok ()) fun entry => entry.descriptor ++ entry.signature := by
  intro s entry t
  have hid := exact_lp8 "signature key_id" 1 maxIdLen (by decide)
  simp only [readEntry, run_bind_ok, run_lift_ok, run_pure_ok, exact_u16 _ _, exact_u32 _ _,
    exact_bytes _ _ _, hid _, true_and, checkLen_eq_ok]
  constructor
  · rintro ⟨suite, _, rfl, component, _, ⟨hreq, rfl⟩, keyId, _, ⟨hkey, rfl⟩, len, _, ⟨hlt, rfl⟩,
      ⟨⟩, _, ⟨hlen, rfl⟩, signature, _, ⟨hsig, rfl⟩, rfl, rfl⟩
    have hcheck : SignatureEntry.check epoch ⟨suite, keyId, signature⟩ = .ok () :=
      check_eq_ok.mpr ⟨component, hreq, hkey, hsig.trans (Nat.le_antisymm hlen.2 hlen.1)⟩
    refine ⟨hcheck, ?_⟩
    rw [(descriptor_of_check hcheck).2]
    simp only [append_assoc, hsig]
  · rintro ⟨hcheck, rfl⟩
    obtain ⟨component, hreq, hkey, hlen⟩ := check_eq_ok.mp hcheck
    obtain ⟨hlt, hdesc⟩ := descriptor_of_check hcheck
    refine ⟨entry.suite, _, ?_, component, _, ⟨hreq, rfl⟩, entry.keyId, _, ⟨hkey, rfl⟩,
      entry.signature.length, _, ⟨hlt, rfl⟩, (), _, ⟨⟨hlen.ge, hlen.le⟩, rfl⟩, entry.signature, t,
      ⟨rfl, rfl⟩, rfl, rfl⟩
    rw [hdesc]
    simp only [append_assoc]

theorem exact_readSignatures : Exact (readSignatures epoch) (EntriesRead epoch)
    fun entries => countByte entries.length ++
      entries.flatMap fun entry => entry.descriptor ++ entry.signature := by
  intro s entries t
  simp only [readSignatures, run_bind_ok, run_lift_ok, exact_u8 _ _, true_and, checkLen_eq_ok,
    (exact_readEntry epoch).many _ _]
  constructor
  · rintro ⟨count, _, rfl, ⟨⟩, _, ⟨hcount, rfl⟩, ⟨hlen, hall⟩, rfl⟩
    have hbyte : entries.length.toUInt8 = count := hlen ▸ UInt8.ofNat_toNat
    refine ⟨⟨hlen ▸ hcount, hall⟩, ?_⟩
    rw [countByte_of_le (by simp only [maxSignatures] at hcount; omega), hbyte]
    simp
  · rintro ⟨⟨hcount, hall⟩, rfl⟩
    have hle : entries.length ≤ 255 := hcount.2.trans (by decide)
    have hbyte := toNat_toUInt8 hle
    refine ⟨entries.length.toUInt8, _, ?_, (), _, ⟨hbyte.symm ▸ hcount, rfl⟩, ⟨hbyte.symm, hall⟩,
      rfl⟩
    rw [countByte_of_le hle]
    simp

theorem exact_readCheckpoint : Exact readCheckpoint (fun cref => cref.proof.length ≤ maxProofLen)
    CheckpointRef.encode := by
  intro s cref t
  simp only [readCheckpoint, run_bind_ok, run_lift_ok, run_pure_ok, exact_u8 _ _, exact_u64 _ _,
    exact_bytes32 _ _, true_and, checkLen_eq_ok, (exact_bytes32 _).many _ _, CheckpointRef.encode]
  constructor
  · rintro ⟨epoch, _, rfl, size, _, rfl, leaf, _, rfl, root, _, rfl, len, _, rfl, ⟨⟩, _,
      ⟨⟨-, hle⟩, rfl⟩, proof, _, ⟨⟨hlen, -⟩, rfl⟩, rfl, rfl⟩
    have hbyte : proof.length.toUInt8 = len := hlen ▸ UInt8.ofNat_toNat
    refine ⟨hlen ▸ hle, ?_⟩
    simp only
    rw [countByte_of_le (by simp only [maxProofLen] at hle; omega), hbyte]
    simp
  · rintro ⟨hle, rfl⟩
    have h255 : cref.proof.length ≤ 255 := hle.trans (by decide)
    have hbyte := toNat_toUInt8 h255
    refine ⟨_, _, ?_, _, _, rfl, _, _, rfl, _, _, rfl, cref.proof.length.toUInt8, _, rfl, (), _,
      ⟨⟨Nat.zero_le _, hbyte.symm ▸ hle⟩, rfl⟩, cref.proof, t,
      ⟨⟨hbyte.symm, fun _ _ => trivial⟩, rfl⟩, rfl, rfl⟩
    rw [countByte_of_le h255]
    simp

/-- A body's canonical spelling, its tag first. -/
def spellBody : RecordBody → Bytes
  | .signatures entries => 1 :: (countByte entries.length ++
      entries.flatMap fun entry => entry.descriptor ++ entry.signature)
  | .checkpoint cref => 2 :: cref.encode

theorem exact_readBody : Exact (readBody epoch) (BodyRead epoch) spellBody := by
  intro s body t
  simp only [readBody, run_bind_ok, exact_u8 _ _, true_and]
  constructor
  · rintro ⟨tag, s', rfl, h⟩
    split_ifs at h with hsigs hcheckpoint
    · obtain ⟨entries, hread, rfl⟩ := run_map_ok.mp h
      obtain ⟨hentries, rfl⟩ := (exact_readSignatures epoch _ _ _).mp hread
      exact ⟨hentries, by simp [spellBody, hsigs]⟩
    · obtain ⟨cref, hread, rfl⟩ := run_map_ok.mp h
      obtain ⟨hproof, rfl⟩ := (exact_readCheckpoint _ _ _).mp hread
      exact ⟨hproof, by simp [spellBody, hcheckpoint]⟩
    · exact absurd (run_lift_ok.mp h).1 nofun
  · rintro ⟨hbody, rfl⟩
    cases body with
    | signatures entries =>
      refine ⟨1, _, rfl, ?_⟩
      rw [if_pos rfl, run_map_ok]
      exact ⟨entries, (exact_readSignatures epoch _ _ _).mpr ⟨hbody, rfl⟩, rfl⟩
    | checkpoint cref =>
      refine ⟨2, cref.encode ++ t, by simp [spellBody], ?_⟩
      rw [if_neg (by decide), if_pos rfl, run_map_ok]
      exact ⟨cref, (exact_readCheckpoint _ _ _).mpr ⟨hbody, rfl⟩, rfl⟩

theorem fromWire_eq_ok {value : UInt16} {purpose : SigPurpose} :
    SigPurpose.fromWire value = .ok purpose ↔ value = purpose.wire := by
  constructor
  · intro h
    unfold SigPurpose.fromWire at h
    split_ifs at h with h₁ h₂ h₃ h₄ h₅ h₆ <;> (obtain rfl := ok.inj h; assumption)
  · rintro rfl
    cases purpose <;> rfl

/-- What the fields must satisfy to be read at all: everything `validate` asks but the epoch of the
record's own suite, the roster and the checkpoint's place. -/
def FieldsRead (fields : RecordFields) : Prop :=
  (∃ suite, Suite.require fields.suite recordKinds (UInt64.ofNat (2 ^ 64 - 1)) = .ok suite) ∧
    (1 ≤ fields.signer.length ∧ fields.signer.length ≤ maxIdLen) ∧
    BodyRead fields.epoch fields.body

theorem toBytes_eq (fields : RecordFields) :
    fields.toBytes = fields.header ++ spellBody fields.body := by
  unfold toBytes transcript
  split <;> simp_all [spellBody]

theorem exact_readFields : Exact readFields FieldsRead toBytes := by
  intro s fields t
  have hid := exact_lp8 "signer" 1 maxIdLen (by decide)
  simp only [readFields, run_bind_ok, run_lift_ok, run_pure_ok, exact_u16 _ _, exact_u64 _ _,
    exact_bytes _ _ _, hid _, true_and, ensure_eq_ok, exact_readBody _ _, fromWire_eq_ok]
  constructor
  · rintro ⟨magic, _, ⟨-, rfl⟩, ⟨⟩, _, ⟨rfl, rfl⟩, version, _, rfl, ⟨⟩, _, ⟨rfl, rfl⟩, suite, _,
      rfl, row, _, ⟨hrow, rfl⟩, wire, _, rfl, purpose, _, ⟨rfl, rfl⟩, epoch, _, rfl, signer, _,
      ⟨hsigner, rfl⟩, body, _, ⟨hbody, rfl⟩, rfl, rfl⟩
    refine ⟨⟨⟨row, hrow⟩, hsigner, hbody⟩, ?_⟩
    simp [toBytes_eq, header]
  · rintro ⟨⟨⟨row, hrow⟩, hsigner, hbody⟩, rfl⟩
    refine ⟨recordMagic, _, ⟨rfl, ?_⟩, (), _, ⟨rfl, rfl⟩, recordVersion, _, rfl, (), _, ⟨rfl, rfl⟩,
      fields.suite, _, rfl, row, _, ⟨hrow, rfl⟩, _, _, rfl, fields.purpose, _, ⟨rfl, rfl⟩,
      fields.epoch, _, rfl, fields.signer, _, ⟨hsigner, rfl⟩, fields.body, t, ⟨hbody, rfl⟩, rfl,
      rfl⟩
    simp [toBytes_eq, header]

/-- Checked fields are read. -/
theorem fieldsRead_of_validate (h : fields.validate = .ok ()) : FieldsRead fields := by
  simp only [validate, bind_eq_ok, checkLen_eq_ok] at h
  obtain ⟨suite, hreq, ⟨⟩, hsigner, hbody⟩ := h
  refine ⟨⟨suite, ?_⟩, hsigner, ?_⟩
  · rw [require_eq_ok] at hreq ⊢
    refine ⟨hreq.1, hreq.2.1, UInt64.le_iff_toNat_le.mpr ?_⟩
    have := suite.minEpoch.toNat_lt
    simp
    omega
  · cases hb : fields.body with
    | signatures entries =>
      rw [hb] at hbody
      simp only [RecordBody.check, bind_eq_ok, checkLen_eq_ok] at hbody
      obtain ⟨⟨⟩, hlen, ⟨⟩, hall, -⟩ := hbody
      exact ⟨hlen, forM_eq_ok.mp hall⟩
    | checkpoint cref =>
      rw [hb] at hbody
      simp only [RecordBody.check, CheckpointRef.check, bind_eq_ok, checkLen_eq_ok] at hbody
      obtain ⟨⟨⟩, hlen, -⟩ := hbody
      exact hlen.2

theorem ofFields_eq_ok : ofFields fields = .ok record ↔ record.toRecordFields = fields := by
  unfold ofFields
  constructor
  · intro h
    split at h
    · exact congrArg toRecordFields (ok.inj h).symm
    · cases h
  · rintro rfl
    split
    · rfl
    · next h =>
      rw [record.valid] at h
      cases h

/-- **The parser accepts exactly a checked record's canonical bytes.** -/
theorem parse_eq_ok {bytes : Bytes} : parse bytes = .ok record ↔ bytes = record.toBytes := by
  simp only [parse, bind_eq_ok, ensure_eq_ok, ofFields_eq_ok]
  constructor
  · rintro ⟨⟨fields, rest⟩, hread, ⟨⟩, hrest, rfl⟩
    obtain ⟨-, rfl⟩ := (exact_readFields _ _ _).mp hread
    obtain rfl : rest = [] := length_eq_zero_iff.mp hrest
    exact append_nil _
  · rintro rfl
    refine ⟨(record.toRecordFields, []), ?_, (), rfl, rfl⟩
    exact (exact_readFields _ _ _).mpr ⟨fieldsRead_of_validate record.valid, by simp⟩

end SignatureRecord

end Oneiron
