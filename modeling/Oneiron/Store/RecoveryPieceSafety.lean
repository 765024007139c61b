import Oneiron.Store.RecoveryPiece

/-!
# Store/RecoveryPieceSafety — a piece's forms are spellings of it, and are read back exactly

The fifty bytes are accepted just when they are the bytes of a valid point (`decodeCodeBytes_eq_ok`),
and an export just when it is a stored piece's (`imported_eq_ok`).
-/

namespace Oneiron

open List Except

namespace RecoveryKit

/-! ## The packed fields -/

/-- What holds of every byte below 256 holds of every byte. -/
theorem forall_byte {P : UInt8 → Prop} (h : ∀ n < 256, P n.toUInt8) (b : UInt8) : P b := by
  have hb := h b.toNat b.toNat_lt
  rwa [show b.toNat.toUInt8 = b from UInt8.ofNat_toNat] at hb

variable {passphraseX : UInt8} {home : Option PieceHome} (cost : PassphraseCost)

theorem header_fields (kind : KitSecretKind) {x : UInt8} (hp : passphraseX ≤ 3) (hx : x ≤ 3) :
    header kind passphraseX x >>> 5 = version ∧
      (header kind passphraseX x >>> 4) &&& 1 = kindBit kind ∧
      (header kind passphraseX x >>> 2) &&& 3 = passphraseX ∧ header kind passphraseX x &&& 3 = x := by
  have hall : ∀ n < 4, ∀ m < 4, ∀ kind, header kind n.toUInt8 m.toUInt8 >>> 5 = version ∧
      (header kind n.toUInt8 m.toUInt8 >>> 4) &&& 1 = kindBit kind ∧
      (header kind n.toUInt8 m.toUInt8 >>> 2) &&& 3 = n.toUInt8 ∧
      header kind n.toUInt8 m.toUInt8 &&& 3 = m.toUInt8 := by
    intro n hn m hm kind
    cases kind <;> revert n m <;> decide
  have hback (b : UInt8) : b.toNat.toUInt8 = b := UInt8.ofNat_toNat
  have h := hall passphraseX.toNat (Nat.lt_succ_of_le (UInt8.le_iff_toNat_le.mp hp)) x.toNat
    (Nat.lt_succ_of_le (UInt8.le_iff_toNat_le.mp hx)) kind
  rwa [hback, hback] at h

/-- **A header is its fields.** -/
theorem eq_header (h : UInt8) (hversion : h >>> 5 = version) :
    h = header (if (h >>> 4) &&& 1 = 0 then .vaultKey else .recoveryRoot) ((h >>> 2) &&& 3) (h &&& 3) := by
  revert hversion
  exact forall_byte (P := fun h => h >>> 5 = version → h = header
    (if (h >>> 4) &&& 1 = 0 then .vaultKey else .recoveryRoot) ((h >>> 2) &&& 3) (h &&& 3))
    (by decide +kernel) h

theorem and_three_le (b : UInt8) : b &&& 3 ≤ 3 := by
  rw [UInt8.le_iff_toNat_le, UInt8.toNat_and]
  exact Nat.and_le_right

theorem mem_of_inBounds {memoryMib : UInt32} {passes : UInt8} (h : CostInBounds memoryMib passes) :
    memoryMib ∈ ([64, 128, 256, 512, 1024] : List UInt32) ∧ passes ∈ ([3, 4, 5, 6, 7, 8] : List UInt8) := by
  obtain ⟨hpower, ⟨hfloor, hceiling⟩, hlow, hhigh⟩ := h
  have hmemory : ∀ n < 1025, isPowerOfTwo n.toUInt32 → 64 ≤ n.toUInt32 →
      n.toUInt32 ∈ ([64, 128, 256, 512, 1024] : List UInt32) := by decide +kernel
  have hpasses : passes ∈ ([3, 4, 5, 6, 7, 8] : List UInt8) := by
    simp only [mem_cons, not_mem_nil, or_false, ← UInt8.toNat_inj, UInt8.le_iff_toNat_le,
      UInt8.reduceToNat] at hlow hhigh ⊢
    omega
  have hback : memoryMib.toNat.toUInt32 = memoryMib := UInt32.ofNat_toNat
  have hm := hmemory memoryMib.toNat (Nat.lt_succ_of_le (UInt32.le_iff_toNat_le.mp hceiling))
  rw [hback] at hm
  exact ⟨hm hpower hfloor, hpasses⟩

theorem costByte_fields : costByte (some cost) ≠ 0 ∧
    (1 : UInt32) <<< (costByte (some cost) >>> 4).toUInt32 = cost.memoryMib ∧
      costByte (some cost) &&& 0x0f = cost.passes := by
  -- a check of the two lists: a decision over all words would run through each of them
  have hall : (([64, 128, 256, 512, 1024] : List UInt32).all fun m =>
      ([3, 4, 5, 6, 7, 8] : List UInt8).all fun p => decide (((trailingZeros m <<< 4) ||| p) ≠ 0 ∧
        (1 : UInt32) <<< (((trailingZeros m <<< 4) ||| p) >>> 4).toUInt32 = m ∧
        ((trailingZeros m <<< 4) ||| p) &&& 0x0f = p)) = true := by decide
  simp only [all_eq_true, decide_eq_true_eq] at hall
  obtain ⟨hm, hp⟩ := mem_of_inBounds cost.inBounds
  exact hall _ hm _ hp

/-- **A cost byte is its fields**, when they are in bounds. -/
theorem eq_costByte {b : UInt8} {cost : PassphraseCost}
    (h : PassphraseCost.new ((1 : UInt32) <<< (b >>> 4).toUInt32) (b &&& 0x0f) = .ok cost) :
    b = costByte (some cost) := by
  have hall := forall_byte (P := fun b =>
    CostInBounds ((1 : UInt32) <<< (b >>> 4).toUInt32) (b &&& 0x0f) →
      b = (trailingZeros ((1 : UInt32) <<< (b >>> 4).toUInt32) <<< 4) ||| (b &&& 0x0f))
    (by decide +kernel) b
  unfold PassphraseCost.new at h
  split at h
  · next hbounds =>
    obtain rfl := ok.inj h
    exact hall hbounds
  · exact nomatch h

theorem new_costByte : PassphraseCost.new ((1 : UInt32) <<< (costByte (some cost) >>> 4).toUInt32)
      (costByte (some cost) &&& 0x0f) = .ok cost := by
  obtain ⟨-, hm, hp⟩ := costByte_fields cost
  rw [hm, hp, PassphraseCost.new, dif_pos cost.inBounds]

/-! ## The fifty bytes -/

section Codec

variable (deriveKey : Bytes → FixedBytes 32)

/-- A body is its two packed bytes and its three strings. -/
theorem body_parts (b : FixedBytes bodyLen) : b.bytes = b.bytes[0]! :: b.bytes[1]! ::
    ((slice b 2 4 (by decide)).bytes ++ (slice b 6 32 (by decide)).bytes ++
      (slice b 38 9 (by decide)).bytes) := by
  obtain ⟨bytes, hlen⟩ := b
  match bytes, hlen with
  | b0 :: b1 :: rest, hlen =>
    have hrest : rest.length = 4 + 32 + 9 := by simpa [bodyLen] using hlen
    have hlast : (rest.drop 36).take 9 = rest.drop 36 :=
      take_of_length_le (by rw [length_drop]; omega)
    have hmid : (rest.drop 4).take 32 ++ rest.drop 36 = rest.drop 4 := by
      have := take_append_drop 32 (rest.drop 4)
      rwa [drop_drop] at this
    show b0 :: b1 :: rest = b0 :: b1 :: (rest.take 4 ++ (rest.drop 4).take 32 ++ (rest.drop 36).take 9)
    rw [hlast, append_assoc, hmid, take_append_drop]

/-- A string of two parts is its slices. -/
theorem eq_append_iff {k n m : ℕ} {b : FixedBytes k} {left right : Bytes} (hk : k = n + m)
    (hlen : left.length = n) : b.bytes = left ++ right ↔
      (slice b 0 n (by omega)).bytes = left ∧ (slice b n m (by omega)).bytes = right := by
  have hlast : (b.bytes.drop n).take m = b.bytes.drop n :=
    take_of_length_le (by rw [length_drop, b.length_bytes]; omega)
  show _ ↔ (b.bytes.drop 0).take n = left ∧ (b.bytes.drop n).take m = right
  rw [hlast, drop_zero]
  constructor
  · intro h
    rw [h, ← hlen, take_left, drop_left]
    exact ⟨rfl, rfl⟩
  · rintro ⟨rfl, rfl⟩
    exact (take_append_drop n b.bytes).symm

variable {bytes : FixedBytes codeLen} {p : Point}

/-- The bytes of a code are its body and the check of it. -/
theorem eq_codeBytes :
    bytes = codeBytes deriveKey p ↔ (slice bytes 0 bodyLen (by decide)).bytes = body p ∧
      check deriveKey (slice bytes 0 bodyLen (by decide)).bytes = slice bytes bodyLen 3 (by decide) := by
  rw [FixedBytes.ext_iff]
  refine (eq_append_iff (show codeLen = bodyLen + 3 from rfl) (length_body p)).trans
    (and_congr_right fun hbody => ?_)
  rw [hbody, FixedBytes.ext_iff, eq_comm]

theorem decodeCost_eq_ok {byte : UInt8} {cost : Option PassphraseCost} :
    decodeCost passphraseX byte = .ok cost ↔
      (cost.isSome ↔ passphraseX ≠ 0) ∧ byte = costByte cost := by
  unfold decodeCost
  by_cases hx : passphraseX = 0
  · subst hx
    by_cases hb : byte = 0
    · subst hb
      cases cost with
      | none => simp [costByte]
      | some cost => simp
    · rw [if_neg fun h => hb h.2, if_pos (Or.inl rfl)]
      refine ⟨nofun, fun ⟨hsome, hbyte⟩ => ?_⟩
      cases cost with
      | none => exact absurd hbyte hb
      | some cost => simp at hsome
  · rw [if_neg fun h => hx h.1]
    by_cases hb : byte = 0
    · rw [if_pos (Or.inr hb)]
      refine ⟨nofun, fun ⟨hsome, hbyte⟩ => ?_⟩
      obtain ⟨cost, rfl⟩ := Option.isSome_iff_exists.mp (hsome.mpr hx)
      exact absurd (hbyte.symm.trans hb) (costByte_fields cost).1
    · rw [if_neg fun h => h.elim hx hb]
      constructor
      · intro h
        split at h
        · next found hnew =>
          obtain rfl := ok.inj h
          exact ⟨by simp [hx], eq_costByte hnew⟩
        · exact nomatch h
      · rintro ⟨hsome, rfl⟩
        obtain ⟨cost, rfl⟩ := Option.isSome_iff_exists.mp (hsome.mpr hx)
        rw [new_costByte]

/-- **A body is accepted exactly** where it is a valid point's. -/
theorem decodeBody_eq_ok {b : FixedBytes bodyLen} :
    decodeBody b = .ok p ↔ p.Valid ∧ b.bytes = body p := by
  have hparts := body_parts b
  simp only [decodeBody, bind_eq_ok, ensure_eq_ok, pure_eq_ok, decodeCost_eq_ok]
  constructor
  · rintro ⟨-, hversion, -, hx, cost, ⟨hcost, hbyte⟩, -, hkit, rfl⟩
    obtain ⟨hzero, hpassphrase⟩ := not_or.mp hx
    refine ⟨⟨?_, and_three_le _, and_three_le _, hpassphrase, hcost, hkit⟩, ?_⟩
    · exact UInt8.le_iff_toNat_le.mpr (Nat.pos_of_ne_zero fun h => hzero (UInt8.toNat_inj.mp h))
    · rw [body, ← eq_header _ hversion, ← hbyte]
      exact hparts
  · rintro ⟨hvalid, hbody⟩
    obtain ⟨hversion, hkind, hpassphrase, hx⟩ := header_fields p.kind hvalid.passphraseX_le hvalid.x_le
    rw [hparts, body] at hbody
    obtain ⟨hheader, hrest⟩ := cons.inj hbody
    obtain ⟨hbyte, hrest⟩ := cons.inj hrest
    obtain ⟨hrest, htag⟩ := append_inj hrest (by simp)
    obtain ⟨hkit, hy⟩ := append_inj hrest (by simp)
    have hkit := FixedBytes.ext hkit
    have hy := FixedBytes.ext hy
    have htag := FixedBytes.ext htag
    rw [hheader, hbyte, hversion, hkind, hpassphrase, hx, hkit, hy, htag]
    have hzero : ¬ (p.x = 0 ∨ p.x = p.passphraseX) := not_or.mpr
      ⟨fun h => absurd hvalid.x_pos (by rw [h]; decide), hvalid.x_ne⟩
    refine ⟨⟨⟩, rfl, ⟨⟩, hzero, p.cost, ⟨hvalid.cost_iff, rfl⟩, ⟨⟩, hvalid.kitId_ne, ?_⟩
    have hsame : (if kindBit p.kind = 0 then KitSecretKind.vaultKey else .recoveryRoot) = p.kind := by
      cases p.kind <;> rfl
    rw [hsame]

/-- **The code is accepted exactly** where it is the bytes of a valid point. -/
theorem decodeCodeBytes_eq_ok :
    decodeCodeBytes deriveKey bytes = .ok p ↔ p.Valid ∧ bytes = codeBytes deriveKey p := by
  rw [eq_codeBytes]
  simp only [decodeCodeBytes, bind_eq_ok, ensure_eq_ok, decodeBody_eq_ok]
  constructor
  · rintro ⟨-, hcheck, hvalid, hbody⟩
    exact ⟨hvalid, hbody, hcheck⟩
  · rintro ⟨hvalid, hbody, hcheck⟩
    exact ⟨⟨⟩, hcheck, hvalid, hbody⟩

theorem decodeCodeBytes_codeBytes (hp : p.Valid) :
    decodeCodeBytes deriveKey (codeBytes deriveKey p) = .ok p :=
  (decodeCodeBytes_eq_ok deriveKey).mpr ⟨hp, rfl⟩

/-- **Points have codes of their own.** -/
theorem codeBytes_injective {q : Point} (hp : p.Valid) (hq : q.Valid)
    (h : codeBytes deriveKey p = codeBytes deriveKey q) : p = q := by
  have hread := decodeCodeBytes_codeBytes deriveKey hp
  rw [h, decodeCodeBytes_codeBytes deriveKey hq] at hread
  exact (ok.inj hread).symm

end Codec

/-! ## Homes -/

/-- The homes a stored piece has: a passphrase is never one, and a machine's id is an entity's. -/
def StoredHome : Option PieceHome → Prop
  | some .passphrase => False
  | some (.otherMachine id) | some (.recoveryCode (.fileOn (.other id))) => id.Named
  | _ => True

@[simp] theorem length_encodeHome (home : Option PieceHome) : (encodeHome home).length = homeLen := by
  have hblock (kind sub : UInt8) (id : Option EntityId) : (homeBlock kind sub id).length = homeLen := by
    cases id <;> simp [homeBlock, homeLen]
  unfold encodeHome
  split
  all_goals first | exact hblock _ _ _ | (split <;> exact hblock _ _ _)

/-- A home's block is its kind, its sub and its id. -/
theorem home_parts (b : FixedBytes homeLen) : b.bytes = b.bytes[0]! :: b.bytes[1]! :: b.bytes.drop 2 := by
  obtain ⟨bytes, hlen⟩ := b
  match bytes, hlen with
  | _ :: _ :: _, _ => rfl

/-- A machine id is read where it is an entity's. -/
theorem machine_eq_ok {id : Bytes} {f : EntityId → Option PieceHome} :
    (okOr (EntityId.fromBytes id) KitError.invalidPiece).map f = .ok home ↔
      ∃ machine, EntityId.Named machine ∧ machine.asBytes = id ∧ f machine = home := by
  cases hid : EntityId.fromBytes id with
  | none =>
    refine ⟨nofun, ?_⟩
    rintro ⟨machine, hnamed, rfl, -⟩
    exact nomatch hid.symm.trans (EntityId.fromBytes_of_named hnamed)
  | some machine =>
    obtain ⟨hnamed, hbytes⟩ := EntityId.named_of_fromBytes hid
    constructor
    · exact fun h => ⟨machine, hnamed, hbytes, ok.inj h⟩
    · rintro ⟨other, hother, rfl, rfl⟩
      obtain rfl := Option.some.inj (hid.symm.trans (EntityId.fromBytes_of_named hother))
      rfl

/-- **A home's block is accepted exactly** where it is a stored home's. -/
theorem decodeHome_eq_ok {b : FixedBytes homeLen} :
    decodeHome b = .ok home ↔ StoredHome home ∧ b.bytes = encodeHome home := by
  have hparts := home_parts b
  have hid : (b.bytes.drop 2).length = 16 := by rw [length_drop, b.length_bytes]; rfl
  have hzeros : ((b.bytes.drop 2).all (· = 0) = true) ↔ b.bytes.drop 2 = List.replicate 16 0 := by
    rw [eq_replicate_iff, and_iff_right hid]
    simp
  unfold decodeHome
  generalize b.bytes[0]! = kind at *
  generalize b.bytes[1]! = sub at *
  generalize b.bytes.drop 2 = id at *
  rw [hparts]
  dsimp only
  simp only [hzeros]
  constructor
  · intro h
    simp only [ite_eq_iff] at h
    rcases h with ⟨hc, h⟩ | ⟨-, ⟨hc, h⟩ | ⟨-, ⟨hc, h⟩ | ⟨-, ⟨hc, h⟩ | ⟨-, ⟨hc, ⟨hs, h⟩ | ⟨-, ⟨hs, h⟩ |
      ⟨-, ⟨hs, h⟩ | ⟨-, ⟨hs, h⟩ | ⟨-, ⟨hs, h⟩ | ⟨-, h⟩⟩⟩⟩⟩⟩ | ⟨-, ⟨hc, h⟩ | ⟨-, ⟨hc, h⟩ | ⟨-, h⟩⟩⟩⟩⟩⟩⟩
    -- a refusal, a home without a machine, or a home on one
    all_goals first
      | simp at h; done
      | obtain rfl := ok.inj h
        simp_all [StoredHome, encodeHome, homeBlock]
      | obtain ⟨machine, hnamed, rfl, rfl⟩ := machine_eq_ok.mp h
        simp_all [StoredHome, encodeHome, homeBlock]
  · rintro ⟨hstored, heq⟩
    rcases home with _ | _ | machine | ((_ | machine) | _ | _ | _ | _) | _ | _ | _
    all_goals
      simp only [encodeHome, homeBlock, cons.injEq, Option.elim] at heq
      obtain ⟨rfl, rfl, rfl⟩ := heq
    all_goals first
      | exact hstored.elim
      | simp; done
      | simpa using machine_eq_ok.mpr ⟨machine, hstored, rfl, rfl⟩

/-! ## Exports -/

section Export

variable (deriveKey : Bytes → FixedBytes 32)

@[simp] theorem length_exported (piece : KitPiece) : (piece.exported deriveKey).length = exportLen := by
  simp [KitPiece.exported, exportLen]
  omega

/-- **An export is accepted exactly** where it is a stored piece's. -/
theorem imported_eq_ok {bytes : Bytes} {piece : KitPiece} :
    KitPiece.imported deriveKey bytes = .ok piece ↔
      StoredHome piece.home ∧ piece.point.Valid ∧ bytes = piece.exported deriveKey := by
  unfold KitPiece.imported
  split
  · next h =>
    obtain ⟨hlen, rest, rfl⟩ := h
    simp only [bind_eq_ok, pure_eq_ok, decodeHome_eq_ok, decodeCodeBytes_eq_ok, drop_left]
    constructor
    · rintro ⟨home, ⟨hstored, hhome⟩, point, ⟨hvalid, hpoint⟩, rfl⟩
      refine ⟨hstored, hvalid, ?_⟩
      have hrest := (eq_append_iff rfl (length_encodeHome home)).mpr
        ⟨hhome, congrArg FixedBytes.bytes hpoint⟩
      rw [KitPiece.exported, append_assoc]
      exact congrArg (magic ++ ·) hrest
    · rintro ⟨hstored, hvalid, heq⟩
      rw [KitPiece.exported, append_assoc] at heq
      obtain rfl := append_cancel_left heq
      have hrest : (⟨encodeHome piece.home ++ (codeBytes deriveKey piece.point).bytes, by simp⟩ :
          FixedBytes (homeLen + codeLen)).bytes =
            encodeHome piece.home ++ (codeBytes deriveKey piece.point).bytes := rfl
      obtain ⟨hhome, hpoint⟩ := (eq_append_iff rfl (length_encodeHome piece.home)).mp hrest
      exact ⟨piece.home, ⟨hstored, hhome⟩, piece.point, ⟨hvalid, FixedBytes.ext hpoint⟩, rfl⟩
  · next h =>
    refine ⟨by simp, ?_⟩
    rintro ⟨-, -, rfl⟩
    exact absurd ⟨length_exported deriveKey piece, by simp [KitPiece.exported]⟩ h

end Export

end RecoveryKit

end Oneiron
