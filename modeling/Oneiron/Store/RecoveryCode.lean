import Oneiron.Store.RecoveryPieceSafety

/-!
# Store/RecoveryCode — a typed code reads back as the piece it spells

Writing a code regroups fifty bytes into eighty symbols, none of their bits left over
(`writes_recoveryCode`); reading regroups symbols into bytes, each in its place of the buffer
(`chars_spec`).  One number has one spelling of either width, so what is read is what was written
(`fromRecoveryCode_of_respells`).
-/

namespace Oneiron

open List Option Nat

namespace RecoveryKit

open KitPiece Writing

/-! ## Writing -/

/-- The text of symbols, in groups. -/
def spelled (written : List ℕ) : List Char := written.foldl pushSymbol []

theorem spelled_concat (written : List ℕ) (symbol : ℕ) :
    spelled (written ++ [symbol]) = pushSymbol (spelled written) symbol := by
  simp [spelled]

/-- A code being written has written its symbols' text, with what waits behind them. -/
structure Writes (taken written : List ℕ) (w : Writing) : Prop where
  text : w.text = spelled written
  regroups : Regroups 8 5 taken written (w.acc % 2 ^ w.bits) w.bits

/-- The first five bits that wait, under a mask of them. -/
theorem shiftRight_and_eq (acc bits : ℕ) :
    (acc >>> bits) &&& 31 = acc % 2 ^ (bits + 5) / 2 ^ bits := by
  rw [show 31 = 2 ^ 5 - 1 from rfl, and_two_pow_sub_one_eq_mod, shiftRight_eq_div_pow, pow_add,
    mod_mul_right_div_self]

variable {taken written vs : List ℕ} {text : List Char} {bytes : FixedBytes codeLen} {c : Char}
  {v : ℕ}

/-- **What waits is written** until fewer than five bits do. -/
theorem Writes.drain {w : Writing} (h : Writes taken written w) :
    ∃ written', Writes taken written' w.drain ∧ w.drain.bits < 5 := by
  induction w using drain.induct generalizing written with
  | case1 w hbits ih =>
    obtain ⟨bits, hbits'⟩ := Nat.exists_eq_add_of_le' hbits
    rw [drain, if_pos hbits]
    have hsub : w.bits - 5 = bits := by omega
    rw [hsub] at ih ⊢
    refine @ih (written ++ [(w.acc >>> bits) &&& 31]) ⟨?_, ?_⟩
    · rw [spelled_concat, h.text]
    · have hregroups := h.regroups
      rw [hbits'] at hregroups
      rw [shiftRight_and_eq]
      have hmod : w.acc % 2 ^ (bits + 5) % 2 ^ bits = w.acc % 2 ^ bits :=
        mod_mod_of_dvd _ (pow_dvd_pow 2 (by omega))
      exact hmod ▸ hregroups.write
  | case2 w hbits =>
    rw [drain, if_neg hbits]
    exact ⟨written, h, by omega⟩

/-- **A byte is taken**, and what waits is written. -/
theorem Writes.byte {w : Writing} (h : Writes taken written w) (hacc : w.acc < 2 ^ w.bits)
    (byte : UInt8) : ∃ written', Writes (taken ++ [byte.toNat]) written' (w.byte byte) ∧
      (w.byte byte).bits < 5 ∧ (w.byte byte).acc < 2 ^ (w.byte byte).bits := by
  have hbyte : byte.toNat < 2 ^ 8 := byte.toNat_lt
  have htaken : Writes (taken ++ [byte.toNat]) written
      { w with acc := (w.acc <<< 8) ||| byte.toNat, bits := w.bits + 8 } := by
    have hregroups := h.regroups.take hbyte
    refine ⟨h.text, ?_⟩
    rw [mod_eq_of_lt hacc] at hregroups
    rw [← shiftLeft_add_eq_or_of_lt hbyte, shiftLeft_eq]
    rwa [mod_eq_of_lt hregroups.acc_lt]
  obtain ⟨written', hdrained, hbits⟩ := htaken.drain
  have hmask : (w.byte byte).acc = (Writing.drain { w with
      acc := (w.acc <<< 8) ||| byte.toNat, bits := w.bits + 8 }).acc % 2 ^ (w.byte byte).bits := by
    show _ &&& ((1 <<< _) - 1) = _
    rw [one_shiftLeft, and_two_pow_sub_one_eq_mod]
    rfl
  have hlt : (w.byte byte).acc < 2 ^ (w.byte byte).bits := hmask ▸ mod_lt _ (Nat.two_pow_pos _)
  refine ⟨written', ⟨hdrained.text, ?_⟩, hbits, hlt⟩
  rw [mod_eq_of_lt hlt, hmask]
  exact hdrained.regroups

theorem writes_foldl (bytes : Bytes) : ∃ written, Writes (bytes.map UInt8.toNat) written
    (bytes.foldl Writing.byte ⟨[], 0, 0⟩) ∧ (bytes.foldl Writing.byte ⟨[], 0, 0⟩).bits < 5 ∧
      (bytes.foldl byte ⟨[], 0, 0⟩).acc < 2 ^ (bytes.foldl byte ⟨[], 0, 0⟩).bits := by
  induction bytes using reverseRecOn with
  | nil => exact ⟨[], ⟨rfl, Regroups.start 8 5⟩, by decide, by decide⟩
  | append_singleton bytes byte ih =>
    obtain ⟨written, hwrites, -, hacc⟩ := ih
    rw [foldl_append, map_append]
    exact hwrites.byte hacc byte

/-- **A code is the eighty symbols** of its bytes' number. -/
theorem codeText_eq (bytes : FixedBytes codeLen) : ∃ written, codeText bytes = spelled written ∧
    written.length = codeSymbols ∧ (∀ v ∈ written, v < 32) ∧
      numberIn 32 written = numberIn 256 (bytes.bytes.map UInt8.toNat) := by
  obtain ⟨written, hwrites, hbits, hacc⟩ := writes_foldl bytes.bytes
  have hcount := hwrites.regroups.count
  rw [length_map, FixedBytes.length_bytes] at hcount
  have hnone : (foldl byte ⟨[], 0, 0⟩ bytes.bytes).bits = 0 ∧ written.length = 80 := by
    unfold codeLen at hcount
    omega
  have hnumber := hwrites.regroups.number
  rw [hnone.1, pow_zero, mul_one, mod_one, add_zero] at hnumber
  exact ⟨written, hwrites.text, hnone.2, hwrites.regroups.digit_lt, hnumber.symm⟩

/-! ## Reading -/

/-- The symbols of a typed code, past what is passed over, if each is one. -/
def symbolsOf (text : List Char) : Option (List ℕ) :=
  (text.filter fun c => !passedOver c).mapM symbolOf

theorem symbolOf_lt (h : symbolOf c = some v) : v < 32 := by
  unfold symbolOf at h
  split at h
  · exact some.inj h ▸ (by omega)
  · split at h
    · exact some.inj h ▸ (by omega)
    · exact (findIdx?_eq_some_iff_findIdx_eq.mp h).1

theorem symbolsOf_cons (c : Char) (text : List Char) : symbolsOf (c :: text) =
    if passedOver c then symbolsOf text
    else (symbolOf c).bind fun v => (symbolsOf text).map (v :: ·) := by
  unfold symbolsOf
  cases hc : passedOver c with
  | true => simp [hc]
  | false =>
    rw [filter_cons_of_pos (by simp [hc]), mapM_cons, if_neg Bool.false_ne_true]
    cases symbolOf c with
    | none => rfl
    | some v => cases mapM symbolOf (text.filter fun c => !passedOver c) <;> rfl

theorem lt_of_symbolsOf (h : symbolsOf text = some vs) : ∀ v ∈ vs, v < 32 := by
  induction text generalizing vs with
  | nil =>
    obtain rfl := some.inj h
    exact nofun
  | cons c text ih =>
    rw [symbolsOf_cons] at h
    split at h
    · exact ih h
    · obtain ⟨v, hv, hrest⟩ := bind_eq_some_iff.mp h
      obtain ⟨others, hothers, rfl⟩ := map_eq_some_iff.mp hrest
      exact forall_mem_cons.mpr ⟨symbolOf_lt hv, ih hothers⟩

/-- A code being read has taken symbols, and filled its buffer with the bytes they give. -/
structure Reads (taken written : List ℕ) (t : Typed) : Prop where
  bytes : t.bytes = written.map Nat.toUInt8 ++ replicate (codeLen - written.length) 0
  filled : t.filled = written.length
  symbols : t.symbols = taken.length
  bits_lt : t.bits < 8
  regroups : Regroups 5 8 taken written t.acc t.bits

theorem Reads.start : Reads [] [] ⟨replicate codeLen 0, 0, 0, 0, 0⟩ where
  bytes := rfl
  filled := rfl
  symbols := rfl
  bits_lt := by decide
  regroups := Regroups.start 5 8

/-- The next byte has its place in the buffer. -/
theorem set_filled (hroom : written.length < codeLen) (byte : ℕ) :
    (written.map Nat.toUInt8 ++ replicate (codeLen - written.length) 0).set written.length
        byte.toUInt8 =
      (written ++ [byte]).map Nat.toUInt8 ++
        replicate (codeLen - (written ++ [byte]).length) (0 : UInt8) := by
  obtain ⟨left, hleft⟩ : ∃ left, codeLen - written.length = left + 1 := ⟨_, (succ_pred (by omega)).symm⟩
  have hrest : codeLen - (written ++ [byte]).length = left := by
    rw [length_append, length_singleton]
    omega
  rw [hleft, hrest, replicate_succ, set_append_right _ _ (by simp), length_map,
    Nat.sub_self, set_cons_zero, map_append, append_assoc]
  rfl

/-- **A symbol is taken**, and a byte of eight bits goes in its place: there is one. -/
theorem Reads.symbol {t : Typed} (h : Reads taken written t) (hroom : taken.length < codeSymbols)
    (hc : passedOver c = false) (hv : symbolOf c = some v) :
    ∃ t' written', t.char c = some (.ok t') ∧ Reads (taken ++ [v]) written' t' := by
  have hlt : v < 2 ^ 5 := symbolOf_lt hv
  have htaken := h.regroups.take hlt
  have hacc : (t.acc <<< 5) ||| v = t.acc * 2 ^ 5 + v := by
    rw [← shiftLeft_add_eq_or_of_lt hlt, shiftLeft_eq]
  have hcounted : ¬ t.symbols + 1 > codeSymbols := by rw [h.symbols]; omega
  have hlength : (taken ++ [v]).length = t.symbols + 1 := by rw [h.symbols]; simp
  rw [Typed.char, hc, if_neg Bool.false_ne_true, hv]
  dsimp only
  rw [if_neg hcounted, hacc]
  have hcount := htaken.count
  rw [hlength, h.symbols] at hcount
  split
  · next hbits =>
    obtain ⟨bits, hbits'⟩ := Nat.exists_eq_add_of_le' (show 8 ≤ t.bits + 5 from hbits)
    have hsub : t.bits + 5 - 8 = bits := by omega
    have hplace : written.length < codeLen := by
      unfold codeSymbols codeLen at hroom
      unfold codeLen
      omega
    rw [hbits'] at htaken
    have hwritten := htaken.write
    have hput : t.filled < t.bytes.length := by
      rw [h.filled, h.bytes]
      simp
      omega
    have hmask (acc : ℕ) : acc &&& ((1 <<< bits) - 1) = acc % 2 ^ bits := by
      rw [one_shiftLeft, and_two_pow_sub_one_eq_mod]
    rw [Typed.put, if_pos hput, hsub, shiftRight_eq_div_pow]
    refine ⟨_, written ++ [(t.acc * 2 ^ 5 + v) / 2 ^ bits], rfl, ?_, ?_, hlength.symm, ?_, ?_⟩
    · rw [← set_filled hplace, ← h.bytes, ← h.filled]
    · rw [length_append, ← h.filled]
      rfl
    · show bits < 8
      have := h.bits_lt
      omega
    · exact (hmask _).symm ▸ hwritten
  · next hbits =>
    exact ⟨_, written, rfl, ⟨h.bytes, h.filled, hlength.symm, not_le.mp hbits, htaken⟩⟩

/-- **A typed code is read through**, each symbol in its place, when each is one and there are at most
eighty; else it is refused, and in no case is the buffer written past its end. -/
theorem chars_spec {t : Typed} (h : Reads taken written t) (hroom : taken.length ≤ codeSymbols)
    (text : List Char) :
    (∃ vs t' written', symbolsOf text = some vs ∧ taken.length + vs.length ≤ codeSymbols ∧
        t.chars text = some (.ok t') ∧ Reads (taken ++ vs) written' t') ∨
      (∀ vs, symbolsOf text = some vs → codeSymbols < taken.length + vs.length) ∧
        t.chars text = some (.error .invalidPiece) := by
  induction text generalizing t taken written with
  | nil => exact Or.inl ⟨[], t, written, rfl, hroom, rfl, (append_nil taken).symm ▸ h⟩
  | cons c text ih =>
    rw [symbolsOf_cons, Typed.chars]
    cases hc : passedOver c with
    | true =>
      have hchar : t.char c = some (.ok t) := by rw [Typed.char, if_pos hc]
      rw [hchar, if_pos rfl]
      exact ih h hroom
    | false =>
      rw [if_neg Bool.false_ne_true]
      cases hv : symbolOf c with
      | none =>
        have hchar : t.char c = some (.error .invalidPiece) := by
          rw [Typed.char, hc, if_neg Bool.false_ne_true, hv]
        rw [hchar]
        exact Or.inr ⟨nofun, rfl⟩
      | some v =>
        by_cases hfull : taken.length = codeSymbols
        · have hchar : t.char c = some (.error .invalidPiece) := by
            rw [Typed.char, hc, if_neg Bool.false_ne_true, hv]
            exact if_pos (show codeSymbols < t.symbols + 1 by rw [h.symbols]; omega)
          rw [hchar]
          refine Or.inr ⟨fun vs hvs => ?_, rfl⟩
          obtain ⟨rest, -, rfl⟩ := map_eq_some_iff.mp hvs
          rw [length_cons]
          omega
        · obtain ⟨t', written', hchar, hreads⟩ := h.symbol (by omega) hc hv
          rw [hchar]
          have hlen : (taken ++ [v]).length = taken.length + 1 := by simp
          rcases ih hreads (by omega) with ⟨vs, last, final, hvs, hle, hchars, hlast⟩ | ⟨hmany, hchars⟩
          · refine Or.inl ⟨v :: vs, last, final, ?_, ?_, hchars, ?_⟩
            · rw [hvs]
              rfl
            · rw [length_cons]
              omega
            · rwa [append_assoc] at hlast
          · refine Or.inr ⟨fun vs hvs => ?_, hchars⟩
            obtain ⟨rest, hrest, rfl⟩ := map_eq_some_iff.mp hvs
            have := hmany rest hrest
            rw [length_cons]
            omega

/-! ## Respellings -/

/-- A character typed for a symbol's: either case, `O` for `0`, `I` or `L` for `1`. -/
def TypedAs (c typed : Char) : Prop :=
  typed.toUpper = c ∨ c = '0' ∧ typed.toUpper = 'O' ∨
    c = '1' ∧ (typed.toUpper = 'I' ∨ typed.toUpper = 'L')

/-- A typed code: its symbols' characters in turn, with dashes and whitespace anywhere. -/
def Respells (text code : List Char) : Prop :=
  List.Forall₂ TypedAs (code.filter (· ≠ '-')) (text.filter fun c => ¬ (c = '-' ∨ isWhitespace c))

theorem filter_spelled (written : List ℕ) (hlt : ∀ v ∈ written, v < 32) :
    (spelled written).filter (· ≠ '-') = written.map fun v => alphabet[v]! := by
  induction written using reverseRecOn with
  | nil => rfl
  | append_singleton written v ih =>
    have hsymbol : ∀ v < 32, alphabet[v]! ≠ '-' := by decide
    rw [spelled_concat, pushSymbol, filter_append, map_append]
    have hlast : [alphabet[v]!].filter (· ≠ '-') = [alphabet[v]!] :=
      filter_cons_of_pos (by simpa using hsymbol v (hlt v (by simp)))
    rw [hlast, ← ih fun w hw => hlt w (mem_append_left _ hw)]
    split <;> simp

/-- `to_ascii_uppercase` moves letters alone, and onto letters. -/
theorem toUpper_cases (c : Char) : c.toUpper = c ∨ 97 ≤ c.toNat ∧ c.toNat ≤ 122 ∧
    65 ≤ c.toUpper.toNat ∧ c.toUpper.toNat ≤ 90 := by
  unfold Char.toUpper
  split
  · next h =>
    have hlow : 97 ≤ c.toNat := UInt32.le_iff_toNat_le.mp h.1
    have hhigh : c.toNat ≤ 122 := UInt32.le_iff_toNat_le.mp h.2
    have hmoved : (c.val + ('A'.val - 'a'.val)).toNat = c.toNat - 32 := by
      rw [UInt32.toNat_add]
      show (c.toNat + 4294967264) % 2 ^ 32 = c.toNat - 32
      omega
    refine Or.inr ⟨hlow, hhigh, ?_, ?_⟩
    · show 65 ≤ (c.val + ('A'.val - 'a'.val)).toNat
      omega
    · show (c.val + ('A'.val - 'a'.val)).toNat ≤ 90
      omega
  · exact Or.inl rfl

theorem passedOver_iff (c : Char) : passedOver c ↔ c = '-' ∨ isWhitespace c := by
  rw [passedOver, decide_eq_true_eq]
  rcases toUpper_cases c with heq | ⟨hlow, hhigh, hlow', hhigh'⟩
  · rw [heq]
  · have hdash (d : Char) (hd : 65 ≤ d.toNat) : d ≠ '-' := by
      rintro rfl
      exact absurd hd (by decide)
    have hspace (d : Char) (hd : 65 ≤ d.toNat ∧ d.toNat ≤ 122) : ¬ isWhitespace d := by
      simp only [isWhitespace, decide_eq_true_eq]
      omega
    have hupper := not_or.mpr ⟨hdash c.toUpper hlow', hspace c.toUpper ⟨hlow', by omega⟩⟩
    have hlower := not_or.mpr ⟨hdash c (by omega), hspace c ⟨by omega, hhigh⟩⟩
    exact iff_of_false hupper hlower

/-- What a character typed for a symbol is read as. -/
theorem typedAs_iff (hv : v < 32) : TypedAs alphabet[v]! c ↔ symbolOf c = some v := by
  have hself : ∀ v < 32, alphabet[v]! ≠ 'O' ∧ alphabet[v]! ≠ 'I' ∧ alphabet[v]! ≠ 'L' ∧
      alphabet.findIdx? (· = alphabet[v]!) = some v := by decide
  have hzero : ∀ v < 32, alphabet[v]! = '0' → v = 0 := by decide
  have hone : ∀ v < 32, alphabet[v]! = '1' → v = 1 := by decide
  unfold TypedAs symbolOf
  generalize c.toUpper = u
  constructor
  · rintro (rfl | ⟨hv0, rfl⟩ | ⟨hv1, hu⟩)
    · obtain ⟨hO, hI, hL, hfind⟩ := hself v hv
      rw [if_neg hO, if_neg (not_or.mpr ⟨hI, hL⟩), hfind]
    · rw [if_pos rfl, hzero v hv hv0]
    · rw [hone v hv hv1]
      rcases hu with rfl | rfl <;> rfl
  · intro h
    split at h
    · next hO =>
      obtain rfl := some.inj h
      exact Or.inr (Or.inl ⟨rfl, hO⟩)
    · split at h
      · next hu =>
        obtain rfl := some.inj h
        exact Or.inr (Or.inr ⟨rfl, hu⟩)
      · obtain ⟨hlt, hfound, -⟩ := findIdx?_eq_some_iff_getElem.mp h
        rw [getElem!_pos alphabet v hlt]
        exact Or.inl (of_decide_eq_true hfound).symm

/-- **A code's respellings are the texts of its symbols.** -/
theorem respells_spelled (hlt : ∀ v ∈ written, v < 32) :
    Respells text (spelled written) ↔ symbolsOf text = some written := by
  have hsame : (text.filter fun c => ¬ (c = '-' ∨ isWhitespace c)) = text.filter fun c => !passedOver c := by
    refine filter_congr fun c _ => ?_
    rw [Bool.eq_iff_iff, decide_eq_true_eq, Bool.not_eq_true', ← Bool.not_eq_true, passedOver_iff]
  rw [Respells, filter_spelled written hlt, hsame, symbolsOf]
  refine forall₂_map_left_iff.trans ?_
  generalize (text.filter fun c => !passedOver c) = typed
  induction typed generalizing written with
  | nil => cases written <;> simp
  | cons c typed ih =>
    cases written with
    | nil => simp [bind_eq_some_iff]
    | cons v written =>
      obtain ⟨hv, hrest⟩ := forall_mem_cons.mp hlt
      refine forall₂_cons.trans ((and_congr (typedAs_iff hv) (ih hrest)).trans ?_)
      simp [bind_eq_some_iff]

/-! ## The piece of a typed code -/

variable (deriveKey : Bytes → FixedBytes 32)

/-- **A typed code is eighty symbols**, whose number the fifty bytes are of, or it is refused. -/
theorem fromRecoveryCode_spec (text : List Char) :
    (∃ vs, ∃ bytes : FixedBytes codeLen, symbolsOf text = some vs ∧ vs.length = codeSymbols ∧
        numberIn 32 vs = numberIn 256 (bytes.bytes.map UInt8.toNat) ∧
        fromRecoveryCode deriveKey text =
          some ((decodeCodeBytes deriveKey bytes).map fun point => ⟨none, point⟩)) ∨
      (∀ vs, symbolsOf text = some vs → vs.length ≠ codeSymbols) ∧
        fromRecoveryCode deriveKey text = some (.error .invalidPiece) := by
  rcases chars_spec Reads.start (Nat.zero_le _) text with
    ⟨vs, t, written, hvs, -, hchars, hreads⟩ | ⟨hmany, hchars⟩
  · rw [nil_append] at hreads
    by_cases hlen : vs.length = codeSymbols
    · have hcount := hreads.regroups.count
      have hbits := hreads.bits_lt
      obtain ⟨hzero, hwritten⟩ : t.bits = 0 ∧ written.length = codeLen := by
        rw [hlen] at hcount
        unfold codeSymbols codeLen at hcount
        unfold codeLen
        omega
      have hnumber := hreads.regroups.number
      have hacc := hreads.regroups.acc_lt
      rw [hzero, pow_zero] at hacc
      rw [hzero, pow_zero, mul_one, lt_one_iff.mp hacc, add_zero] at hnumber
      have hbytes : t.bytes = written.map Nat.toUInt8 := by
        rw [hreads.bytes, hwritten, Nat.sub_self]
        exact append_nil _
      have hlength : t.bytes.length = codeLen := by rw [hbytes, length_map, hwritten]
      have hback : t.bytes.map UInt8.toNat = written := by
        rw [hbytes, List.map_map]
        refine (map_congr_left fun v hv => ?_).trans (map_id written)
        exact mod_eq_of_lt (hreads.regroups.digit_lt v hv)
      refine Or.inl ⟨vs, ⟨t.bytes, hlength⟩, hvs, hlen, ?_, ?_⟩
      · show numberIn 32 vs = numberIn 256 (t.bytes.map UInt8.toNat)
        rw [hback]
        exact hnumber
      · rw [fromRecoveryCode, hchars]
        dsimp only
        rw [if_neg (not_not.mpr (hreads.symbols.trans hlen)), FixedBytes.ofBytes, dif_pos hlength]
        dsimp only
        cases decodeCodeBytes deriveKey ⟨t.bytes, hlength⟩ <;> rfl
    · refine Or.inr ⟨fun other hother => ?_, ?_⟩
      · obtain rfl := some.inj (hvs.symm.trans hother)
        exact hlen
      · rw [fromRecoveryCode, hchars]
        dsimp only
        rw [if_pos (by rwa [hreads.symbols])]
  · refine Or.inr ⟨fun vs hvs => ?_, ?_⟩
    · have := hmany vs hvs
      rw [length_nil] at this
      omega
    · rw [fromRecoveryCode, hchars]

theorem map_toNat_lt (b : Bytes) : ∀ n ∈ b.map UInt8.toNat, n < 256 := by
  intro n hn
  obtain ⟨c, -, rfl⟩ := mem_map.mp hn
  exact c.toNat_lt

/-- Fifty bytes are named by their number. -/
theorem eq_of_numberIn {n : ℕ} {a b : FixedBytes n}
    (h : numberIn 256 (a.bytes.map UInt8.toNat) = numberIn 256 (b.bytes.map UInt8.toNat)) : a = b := by
  have hmap := numberIn_injective (by omega) (by simp) (map_toNat_lt a.bytes) (map_toNat_lt b.bytes) h
  exact FixedBytes.ext (map_injective_iff.mpr (fun a b => UInt8.toNat_inj.mp) hmap)

/-- **A text respells the code of just the bytes of its number.** -/
theorem respells_codeText {other : FixedBytes codeLen} (hvs : symbolsOf text = some vs)
    (hlen : vs.length = codeSymbols)
    (hnumber : numberIn 32 vs = numberIn 256 (bytes.bytes.map UInt8.toNat)) :
    Respells text (codeText other) ↔ bytes = other := by
  obtain ⟨written, hcode, hlen', hlt, hnumber'⟩ := codeText_eq other
  rw [hcode, respells_spelled hlt, hvs, Option.some.injEq]
  constructor
  · rintro rfl
    exact eq_of_numberIn (hnumber.symm.trans hnumber')
  · rintro rfl
    exact numberIn_injective (by omega) (hlen.trans hlen'.symm) (lt_of_symbolsOf hvs) hlt
      (hnumber.trans hnumber'.symm)

/-- **A typed code of some bytes is read as they are**. -/
theorem fromRecoveryCode_of_respells (h : Respells text (codeText bytes)) :
    fromRecoveryCode deriveKey text =
      some ((decodeCodeBytes deriveKey bytes).map fun point => ⟨none, point⟩) := by
  rcases fromRecoveryCode_spec deriveKey text with ⟨vs, found, hvs, hlen, hnumber, hread⟩ | ⟨hnone, -⟩
  · rwa [(respells_codeText hvs hlen hnumber).mp h] at hread
  · obtain ⟨written, hcode, hlen, hlt, -⟩ := codeText_eq bytes
    exact absurd hlen (hnone written ((respells_spelled hlt).mp (hcode ▸ h)))

/-- **Every other text is refused.** -/
theorem fromRecoveryCode_cases (text : List Char) :
    (∃ bytes, Respells text (codeText bytes)) ∨
      fromRecoveryCode deriveKey text = some (.error .invalidPiece) := by
  rcases fromRecoveryCode_spec deriveKey text with ⟨vs, bytes, hvs, hlen, hnumber, -⟩ | ⟨-, hread⟩
  · exact Or.inl ⟨bytes, (respells_codeText hvs hlen hnumber).mpr rfl⟩
  · exact Or.inr hread

theorem exists_of_forall₂ {α β : Type} {R : α → β → Prop} {l : List α} {m : List β}
    (h : List.Forall₂ R l m) : ∀ b ∈ m, ∃ a ∈ l, R a b := by
  induction h with
  | nil => exact nofun
  | cons hab _ ih =>
    refine forall_mem_cons.mpr ⟨⟨_, mem_cons_self, hab⟩, fun b hb => ?_⟩
    obtain ⟨a, ha, hR⟩ := ih b hb
    exact ⟨a, mem_cons_of_mem _ ha, hR⟩

/-- What a code's respelling holds: eighty characters, each typed for a symbol. -/
theorem Respells.symbols (h : Respells text (codeText bytes)) :
    (text.filter fun c => ¬ (c = '-' ∨ isWhitespace c)).length = codeSymbols ∧
      ∀ c ∈ text, ¬ (c = '-' ∨ isWhitespace c) → ∃ v < 32, TypedAs alphabet[v]! c := by
  obtain ⟨written, hcode, hlen, hlt, -⟩ := codeText_eq bytes
  rw [Respells, hcode, filter_spelled written hlt] at h
  refine ⟨?_, fun c hc hkept => ?_⟩
  · rw [← h.length_eq, length_map, hlen]
  · have hin : c ∈ text.filter fun c => ¬ (c = '-' ∨ isWhitespace c) :=
      mem_filter.mpr ⟨hc, by simpa using hkept⟩
    obtain ⟨a, ha, htyped⟩ := exists_of_forall₂ h c hin
    obtain ⟨v, hv, rfl⟩ := mem_map.mp ha
    exact ⟨v, hlt v hv, htyped⟩

theorem fromSlotBytes_slotBytes {piece : KitPiece} (hp : piece.point.Valid) :
    fromSlotBytes deriveKey (piece.slotBytes deriveKey).bytes =
      .ok ⟨some .thisMachine, piece.point⟩ := by
  rw [fromSlotBytes, slotBytes, FixedBytes.ofBytes_bytes]
  dsimp only
  rw [decodeCodeBytes_codeBytes deriveKey hp]
  rfl

/-- **A code's text names its bytes.** -/
theorem codeText_injective {a b : FixedBytes codeLen} (h : codeText a = codeText b) : a = b := by
  have hsymbol : ∀ v < 32, alphabet.idxOf alphabet[v]! = v := by decide
  have hback (written : List ℕ) (hlt : ∀ v ∈ written, v < 32) :
      ((spelled written).filter (· ≠ '-')).map alphabet.idxOf = written := by
    rw [filter_spelled written hlt, List.map_map]
    exact (map_congr_left fun v hv => hsymbol v (hlt v hv)).trans (map_id written)
  obtain ⟨written, hcode, -, hlt, hnumber⟩ := codeText_eq a
  obtain ⟨written', hcode', -, hlt', hnumber'⟩ := codeText_eq b
  have hsame : written = written' := by
    rw [← hback written hlt, ← hback written' hlt', ← hcode, ← hcode', h]
  exact eq_of_numberIn (hnumber.symm.trans ((congrArg (numberIn 32) hsame).trans hnumber'))

/-- **Every form of a point is its own.** -/
theorem point_eq_of_forms {home home' : Option PieceHome} {p q : Point} (hp : p.Valid) (hq : q.Valid)
    (h : exported deriveKey ⟨home, p⟩ = exported deriveKey ⟨home', q⟩ ∨
      recoveryCode deriveKey ⟨home, p⟩ = recoveryCode deriveKey ⟨home', q⟩ ∨
      slotBytes deriveKey ⟨home, p⟩ = slotBytes deriveKey ⟨home', q⟩) : p = q := by
  refine codeBytes_injective deriveKey hp hq ?_
  rcases h with hexport | hcode | hslot
  · refine FixedBytes.ext (append_inj_right hexport ?_)
    simp
  · exact codeText_injective hcode
  · exact hslot

/-- **A recovery piece's forms read back.**  A valid point's code is read in any respelling, its export
and its slot as they are, and each form is its own; an export that is accepted exports as it was; and a
typed code of another count, with another character, or of fifty bytes no valid point has, is refused,
no code being written past its buffer. -/
theorem recovery_piece_codec :
    (∀ (home : Option PieceHome) (p : Point), p.Valid →
      (∀ text, Respells text (recoveryCode deriveKey ⟨home, p⟩) →
        fromRecoveryCode deriveKey text = some (.ok ⟨none, p⟩)) ∧
      (StoredHome home →
        imported deriveKey (exported deriveKey ⟨home, p⟩) = .ok ⟨home, p⟩) ∧
      (∃ piece, fromSlotBytes deriveKey (slotBytes deriveKey ⟨home, p⟩).bytes =
        .ok piece ∧ piece.point = p) ∧
      ∀ (home' : Option PieceHome) (q : Point), q.Valid →
        exported deriveKey ⟨home, p⟩ = exported deriveKey ⟨home', q⟩ ∨
          recoveryCode deriveKey ⟨home, p⟩ = recoveryCode deriveKey ⟨home', q⟩ ∨
          slotBytes deriveKey ⟨home, p⟩ = slotBytes deriveKey ⟨home', q⟩ → p = q) ∧
    (∀ (bytes : Bytes) (piece : KitPiece), imported deriveKey bytes = .ok piece →
      exported deriveKey piece = bytes) ∧
    ∀ text : List Char,
      ((text.filter fun c => ¬ (c = '-' ∨ isWhitespace c)).length ≠ codeSymbols →
        fromRecoveryCode deriveKey text = some (.error .invalidPiece)) ∧
      ((∃ c ∈ text, ¬ (c = '-' ∨ isWhitespace c) ∧ ∀ v < 32, ¬ TypedAs alphabet[v]! c) →
        fromRecoveryCode deriveKey text = some (.error .invalidPiece)) ∧
      (∀ bytes, Respells text (codeText bytes) →
        (∀ q : Point, q.Valid → codeBytes deriveKey q ≠ bytes) →
          ∃ e, fromRecoveryCode deriveKey text = some (.error e)) ∧
      fromRecoveryCode deriveKey text ≠ none := by
  refine ⟨fun home p hp => ⟨fun text htext => ?_, fun hhome => ?_, ⟨_, fromSlotBytes_slotBytes deriveKey hp, rfl⟩,
    fun home' q hq h => point_eq_of_forms deriveKey hp hq h⟩, fun bytes piece h => ?_, fun text => ?_⟩
  · rw [fromRecoveryCode_of_respells deriveKey htext, decodeCodeBytes_codeBytes deriveKey hp]
    rfl
  · exact (imported_eq_ok deriveKey).mpr ⟨hhome, hp, rfl⟩
  · exact ((imported_eq_ok deriveKey).mp h).2.2.symm
  · have hcases := fromRecoveryCode_cases deriveKey text
    refine ⟨fun hcount => ?_, fun ⟨c, hc, hkept, hnone⟩ => ?_, fun bytes hrespells hinvalid => ?_, ?_⟩
    · exact hcases.resolve_left fun ⟨bytes, h⟩ => hcount h.symbols.1
    · refine hcases.resolve_left fun ⟨bytes, h⟩ => ?_
      obtain ⟨v, hv, htyped⟩ := h.symbols.2 c hc hkept
      exact hnone v hv htyped
    · rw [fromRecoveryCode_of_respells deriveKey hrespells]
      cases hdecode : decodeCodeBytes deriveKey bytes with
      | error e => exact ⟨e, rfl⟩
      | ok q =>
        obtain ⟨hq, hbytes⟩ := (decodeCodeBytes_eq_ok deriveKey).mp hdecode
        exact absurd hbytes.symm (hinvalid q hq)
    · rcases hcases with ⟨bytes, h⟩ | h
      · rw [fromRecoveryCode_of_respells deriveKey h]
        exact nofun
      · rw [h]
        exact nofun

/-- A kit's second piece, on paper, beside a passphrase. -/
theorem recovery_piece_codec_paper :
    imported (fun _ => .zeros 32) (exported (fun _ => .zeros 32)
        ⟨some (.recoveryCode .paper), ⟨2, .recoveryRoot, 3, some ⟨256, 3, by decide⟩, ⟨[1, 2, 3, 4], rfl⟩,
          .zeros 32, .zeros 9⟩⟩) =
      .ok ⟨some (.recoveryCode .paper), ⟨2, .recoveryRoot, 3, some ⟨256, 3, by decide⟩,
        ⟨[1, 2, 3, 4], rfl⟩, .zeros 32, .zeros 9⟩⟩ :=
  ((recovery_piece_codec fun _ => .zeros 32).1 (some (.recoveryCode .paper)) _
    ⟨by decide, by decide, by decide, by decide, by decide, by decide⟩).2.1 trivial

end RecoveryKit

end Oneiron
