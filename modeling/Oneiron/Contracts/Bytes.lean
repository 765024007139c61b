import Oneiron.Foundations.Digits

/-!
# Contracts/Bytes — byte strings, and the order LMDB keeps keys in

Keys and values are byte lists; `compare` on them is the unsigned lexicographic order, a proper
prefix first.  Cutting a string short never reorders it (`isLE_compare_take`), which is what lets a
duplicate be filed under the first sixteen of its bytes.
-/

namespace Oneiron

open List

section Bytes

open Std

abbrev Bytes := List UInt8

instance : LawfulBEq Bytes := List.instLawfulBEq

instance : TransOrd (Bytes × Bytes) := instTransOrdProd

instance : TransOrd (Bytes × Bytes × Bytes) := instTransOrdProd

/-- A 32-byte hash. -/
@[ext] structure Digest where
  bytes : Bytes
  length_bytes : bytes.length = 32
  deriving DecidableEq

theorem Digest.length_filled (b : UInt8) : (List.replicate 32 b).length = 32 := List.length_replicate

/-- A key with its value. -/
abbrev KvPair := Bytes × Bytes

/-- The bytes of an ASCII text. -/
def ascii (s : String) : Bytes := s.toList.map fun c => c.toNat.toUInt8

/-- The eight big-endian bytes of a word. -/
def beBytes (x : UInt64) : Bytes :=
  (List.range 8).map fun i => (x >>> (8 * (7 - i)).toUInt64).toUInt8

/-- The word a big-endian byte string spells. -/
def ofBeBytes (b : Bytes) : UInt64 := b.foldl (fun x c => (x <<< 8) ||| c.toUInt64) 0

/-- `str::split_once`. -/
def splitOnce (sep : UInt8) (s : Bytes) : Option (Bytes × Bytes) :=
  match s.dropWhile (· ≠ sep) with
  | [] => none
  | _ :: rest => some (s.takeWhile (· ≠ sep), rest)

theorem splitOnce_cons (sep c : UInt8) (s : Bytes) : splitOnce sep (c :: s) =
    if c = sep then some ([], s) else (splitOnce sep s).map fun p => (c :: p.1, p.2) := by
  unfold splitOnce
  by_cases hc : c = sep
  · simp [hc]
  · rw [if_neg hc, dropWhile_cons_of_pos (by simpa using hc),
      takeWhile_cons_of_pos (by simpa using hc)]
    split <;> rfl

/-- **A text splits** at the first separator, where it has one. -/
theorem splitOnce_eq_some_iff {sep : UInt8} {s before after : Bytes} :
    splitOnce sep s = some (before, after) ↔ sep ∉ before ∧ s = before ++ sep :: after := by
  induction s generalizing before with
  | nil => simp [splitOnce]
  | cons c s ih =>
    rw [splitOnce_cons]
    split
    · next hc =>
      subst hc
      constructor
      · intro h
        obtain ⟨rfl, rfl⟩ := Prod.mk.inj (Option.some.inj h)
        exact ⟨not_mem_nil, rfl⟩
      · rintro ⟨hnot, heq⟩
        cases before with
        | nil => rw [(cons.inj heq).2]
        | cons b before => exact absurd ((cons.inj heq).1 ▸ mem_cons_self) hnot
    · next hc =>
      rw [Option.map_eq_some_iff]
      constructor
      · rintro ⟨⟨before', after'⟩, hrest, heq⟩
        obtain ⟨rfl, rfl⟩ := Prod.mk.inj heq
        obtain ⟨hnot, rfl⟩ := ih.mp hrest
        exact ⟨not_mem_cons_of_ne_of_not_mem (Ne.symm hc) hnot, rfl⟩
      · rintro ⟨hnot, heq⟩
        cases before with
        | nil => exact absurd (cons.inj heq).1 hc
        | cons b before =>
          obtain ⟨rfl, hrest⟩ := cons.inj heq
          exact ⟨(before, after), ih.mpr ⟨fun h => hnot (mem_cons_of_mem _ h), hrest⟩, rfl⟩

theorem splitOnce_eq_none {sep : UInt8} {s : Bytes} (h : sep ∉ s) : splitOnce sep s = none := by
  cases hsplit : splitOnce sep s with
  | none => rfl
  | some p =>
    have heq : s = p.1 ++ sep :: p.2 := (splitOnce_eq_some_iff.mp hsplit).2
    exact absurd (heq ▸ mem_append_right p.1 mem_cons_self) h

/-- Whether bytes are well-formed UTF-8: no overlong form, no surrogate, nothing past U+10FFFF. -/
def isUtf8 : Bytes → Bool
  | [] => true
  | a :: rest =>
    if a < 0x80 then isUtf8 rest else
    match rest with
    | [] => false
    | b :: rest =>
      if 0xC2 ≤ a ∧ a ≤ 0xDF then continues b && isUtf8 rest else
      match rest with
      | [] => false
      | c :: rest =>
        if 0xE0 ≤ a ∧ a ≤ 0xEF then
          continues b && (a ≠ 0xE0 || 0xA0 ≤ b) && (a ≠ 0xED || b ≤ 0x9F) && continues c && isUtf8 rest
        else
        match rest with
        | [] => false
        | e :: rest => 0xF0 ≤ a && a ≤ 0xF4 && continues b && (a ≠ 0xF0 || 0x90 ≤ b) &&
            (a ≠ 0xF4 || b ≤ 0x8F) && continues c && continues e && isUtf8 rest
where
  continues (b : UInt8) : Bool := 0x80 ≤ b && b ≤ 0xBF

theorem isUtf8_of_ascii : ∀ {b : Bytes}, (∀ c ∈ b, c < 0x80) → isUtf8 b = true
  | [], _ => by simp [isUtf8]
  | c :: rest, h => by
    rw [forall_mem_cons] at h
    unfold isUtf8
    rw [if_pos h.1]
    exact isUtf8_of_ascii h.2

@[simp] theorem length_beBytes (x : UInt64) : (beBytes x).length = 8 := by simp [beBytes]

theorem compare_bytes_cons (a b : UInt8) (l m : Bytes) :
    compare (a :: l) (b :: m) = (compare a b).then (compare l m) := List.compareLex_cons_cons

/-- **Cutting at a fixed length keeps the order**, up to collapsing strings onto one another. -/
theorem isLE_compare_take : ∀ (n : ℕ) {v w : Bytes}, compare v w = .lt →
    (compare (v.take n) (w.take n)).isLE
  | 0, _, _, _ => by simp [ReflCmp.compare_self]
  | _ + 1, [], [], h => by simp [ReflCmp.compare_self] at h
  | _ + 1, [], _ :: _, _ => rfl
  | _ + 1, _ :: _, [], h => by cases h
  | n + 1, a :: v, b :: w, h => by
    rw [compare_bytes_cons] at h
    rw [take_succ_cons, take_succ_cons, compare_bytes_cons]
    cases hab : compare a b with
    | lt => rfl
    | gt => simp [hab] at h
    | eq => simpa [hab] using isLE_compare_take n (by simpa [hab] using h)

end Bytes

/-! ## A word and its eight big-endian bytes, each read back from the other -/

theorem toNat_shift_or {x : UInt64} (c : UInt8) (h : x.toNat < 256 ^ 7) :
    ((x <<< 8) ||| c.toUInt64).toNat = x.toNat * 256 + c.toNat := by
  have hc : c.toNat < 2 ^ 8 := c.toNat_lt
  have height : (8 : UInt64).toNat % 64 = 8 := rfl
  have hx : x.toNat <<< 8 < 2 ^ 64 := by
    rw [Nat.shiftLeft_eq]
    omega
  rw [UInt64.toNat_or, UInt64.toNat_shiftLeft, UInt8.toNat_toUInt64, height, Nat.mod_eq_of_lt hx,
    ← Nat.shiftLeft_add_eq_or_of_lt hc, Nat.shiftLeft_eq]

/-- Bytes read on from a word spell on from its number. -/
theorem toNat_foldl_shift (b : Bytes) : ∀ {x : UInt64} {k : ℕ}, x.toNat < 256 ^ k →
    k + b.length ≤ 8 →
    (b.foldl (fun (x : UInt64) (c : UInt8) => (x <<< 8) ||| c.toUInt64) x).toNat =
      b.foldl (fun (n : ℕ) (c : UInt8) => n * 256 + c.toNat) x.toNat := by
  induction b with
  | nil => exact fun _ _ => rfl
  | cons c b ih =>
    intro x k hx hlen
    rw [length_cons] at hlen
    have hc := c.toNat_lt
    have hpow : 256 ^ k ≤ 256 ^ 7 := Nat.pow_le_pow_right (by decide) (by omega)
    have hstep := toNat_shift_or c (hx.trans_le hpow)
    have hnext : ((x <<< 8) ||| c.toUInt64).toNat < 256 ^ (k + 1) := by
      rw [hstep, Nat.pow_succ]
      omega
    rw [foldl_cons, ih hnext (by omega), hstep]
    rfl

theorem toNat_ofBeBytes {b : Bytes} (h : b.length = 8) : (ofBeBytes b).toNat = valueOf b :=
  toNat_foldl_shift b (x := 0) (k := 0) (by decide) (by omega)

/-- A word's bytes are its number's digits. -/
theorem beBytes_eq_digits (x : UInt64) : beBytes x = digits 8 x.toNat := by
  have hbyte : ∀ s : UInt64, s.toNat < 64 → ((x >>> s).toUInt8).toNat =
      x.toNat / 2 ^ s.toNat % 256 := fun s hs => by
    rw [UInt64.toNat_toUInt8, UInt64.toNat_shiftRight, Nat.mod_eq_of_lt hs,
      Nat.shiftRight_eq_div_pow]
  have hdigit : ∀ (s : UInt64) (n : ℕ), s.toNat < 64 → x.toNat / 2 ^ s.toNat = n →
      (x >>> s).toUInt8 = n.toUInt8 := fun s n hs hn => by
    apply UInt8.toNat_inj.mp
    rw [hbyte s hs, hn]
    exact (UInt8.toNat_ofNat' (n := n)).symm
  simp only [beBytes, List.range, List.range.loop, map_cons, map_nil, digits,
    nil_append, cons_append, List.cons.injEq, and_true, Nat.div_div_eq_div_mul]
  refine ⟨?_, ?_, ?_, ?_, ?_, ?_, ?_, ?_⟩
  all_goals exact hdigit _ _ (by decide) (by simp)

/-- **A word is read back from its bytes.** -/
theorem ofBeBytes_beBytes (x : UInt64) : ofBeBytes (beBytes x) = x := by
  apply UInt64.toNat_inj.mp
  rw [toNat_ofBeBytes (length_beBytes x), beBytes_eq_digits, valueOf_digits]
  exact x.toNat_lt

/-- **Eight bytes are those of the word they spell.** -/
theorem beBytes_ofBeBytes {b : Bytes} (h : b.length = 8) : beBytes (ofBeBytes b) = b := by
  rw [beBytes_eq_digits, toNat_ofBeBytes h, ← h, digits_valueOf]

end Oneiron
