import Mathlib.Data.Nat.Digits.Lemmas
import Oneiron.Foundations.Ordered

/-!
# Foundations/Digits — numbers of a fixed width in base 256

`digits width n` spells `n` most significant byte first; `valueOf` reads a byte string back.  At one
width the two are inverse below `256 ^ width`, so a spelling is as good as its number.
-/

namespace Oneiron

open List Nat

section Digits

/-- The `width` big-endian digits of a number. -/
def digits : ℕ → ℕ → List UInt8
  | 0, _ => []
  | width + 1, n => digits width (n / 256) ++ [n.toUInt8]

/-- The number a big-endian byte string spells. -/
def valueOf (b : List UInt8) : ℕ := b.foldl (fun n c => n * 256 + c.toNat) 0

@[simp] theorem length_digits : ∀ width n : ℕ, (digits width n).length = width
  | 0, _ => rfl
  | width + 1, n => by simp [digits, length_digits width]

@[simp] theorem valueOf_append_singleton (b : List UInt8) (c : UInt8) :
    valueOf (b ++ [c]) = valueOf b * 256 + c.toNat := by
  simp [valueOf, foldl_append]

@[simp] theorem valueOf_digits : ∀ {width n : ℕ}, n < 256 ^ width → valueOf (digits width n) = n
  | 0, n, h => by
    obtain rfl : n = 0 := by omega
    rfl
  | width + 1, n, h => by
    have hdiv : n / 256 < 256 ^ width := by
      rw [div_lt_iff_lt_mul (by norm_num), ← pow_succ]
      exact h
    have hbyte : n.toUInt8.toNat = n % 256 := rfl
    rw [digits, valueOf_append_singleton, valueOf_digits hdiv, hbyte]
    omega

/-- **A byte string is the spelling of its value at its own length.** -/
@[simp] theorem digits_valueOf (b : List UInt8) : digits b.length (valueOf b) = b := by
  induction b using List.reverseRecOn with
  | nil => rfl
  | append_singleton b c ih =>
    have hc : c.toNat < 256 := c.toNat_lt
    have hdiv : (valueOf b * 256 + c.toNat) / 256 = valueOf b := by omega
    have hbyte : (valueOf b * 256 + c.toNat).toUInt8 = c := by
      apply UInt8.toNat_inj.mp
      show (valueOf b * 256 + c.toNat) % 256 = c.toNat
      omega
    rw [valueOf_append_singleton, length_append, length_singleton, digits, hdiv, hbyte, ih]

theorem valueOf_lt (b : List UInt8) : valueOf b < 256 ^ b.length := by
  induction b using List.reverseRecOn with
  | nil => simp [valueOf]
  | append_singleton b c ih =>
    have hc : c.toNat < 256 := c.toNat_lt
    rw [valueOf_append_singleton, length_append, length_singleton, pow_succ]
    omega

/-! ## Spellings of one width stand in the order of their numbers

Byte strings of one length compare as the numbers they spell, and what follows decides only between
equal ones.
-/

section DigitOrder

open Std

theorem compare_cons_uint8 (a b : UInt8) (l m : List UInt8) :
    compare (a :: l) (b :: m) = (compare a.toNat b.toNat).then (compare l m) := by
  have hbyte : compare a b = compare a.toNat b.toNat := by
    simp only [compare, compareOfLessAndEq, UInt8.lt_iff_toNat_lt, UInt8.ext_iff]
  rw [← hbyte]
  exact List.compareLex_cons_cons

theorem compare_append_of_length : ∀ {a b : List UInt8} (x y : List UInt8), a.length = b.length →
    compare (a ++ x) (b ++ y) = (compare a b).then (compare x y)
  | [], [], x, y, _ => by simp
  | c :: a, d :: b, x, y, h => by
    have hrest := compare_append_of_length x y (succ.inj h)
    rw [cons_append, cons_append, compare_cons_uint8, compare_cons_uint8, hrest]
    cases compare c.toNat d.toNat <;> rfl

theorem foldl_valueOf (n : ℕ) (b : List UInt8) :
    b.foldl (fun n c => n * 256 + c.toNat) n = n * 256 ^ b.length + valueOf b := by
  induction b using List.reverseRecOn with
  | nil => simp [valueOf]
  | append_singleton b c ih =>
    rw [foldl_append, ih, valueOf_append_singleton, length_append, length_singleton,
      pow_succ]
    simp only [foldl_cons, foldl_nil]
    ring

theorem valueOf_cons (c : UInt8) (b : List UInt8) :
    valueOf (c :: b) = c.toNat * 256 ^ b.length + valueOf b := by
  have h := foldl_valueOf c.toNat b
  rw [← h, valueOf, foldl_cons]
  simp

/-- **Strings of one length compare as their numbers.** -/
theorem compare_eq_compare_valueOf : ∀ {a b : List UInt8}, a.length = b.length →
    compare a b = compare (valueOf a) (valueOf b)
  | [], [], _ => by simp [ReflCmp.compare_self]
  | c :: a, d :: b, h => by
    have hlen : a.length = b.length := succ.inj h
    have hrest := compare_eq_compare_valueOf hlen
    have ha := valueOf_lt a
    have hb := valueOf_lt b
    rw [← hlen] at hb
    rw [compare_cons_uint8, hrest, valueOf_cons, valueOf_cons, ← hlen]
    generalize 256 ^ a.length = w at *
    generalize c.toNat = x at *
    generalize d.toNat = y at *
    rcases Nat.lt_trichotomy x y with hlt | rfl | hgt
    · have hw : (x + 1) * w ≤ y * w := mul_le_mul_right w hlt
      have hstep : x * w + valueOf a < y * w + valueOf b := by
        rw [succ_mul] at hw
        omega
      rw [compare_eq_lt.mpr hlt, compare_eq_lt.mpr hstep]
      rfl
    · rw [Nat.compare_eq_eq.mpr rfl, Ordering.eq_then, compare_eq_ite_lt, compare_eq_ite_lt]
      simp only [add_lt_add_iff_left]
    · have hw : (y + 1) * w ≤ x * w := mul_le_mul_right w hgt
      have hstep : y * w + valueOf b < x * w + valueOf a := by
        rw [succ_mul] at hw
        omega
      rw [compare_eq_gt.mpr hgt, compare_eq_gt.mpr hstep]
      rfl

theorem compare_digits {width n m : ℕ} (hn : n < 256 ^ width) (hm : m < 256 ^ width) :
    compare (digits width n) (digits width m) = compare n m := by
  rw [compare_eq_compare_valueOf (by simp), valueOf_digits hn, valueOf_digits hm]

end DigitOrder

/-! ## Horner's rule over a word, and the window that rolls along it

    horner b (x₀ x₁ … xₙ) = x₀bⁿ + x₁bⁿ⁻¹ + … + xₙ

The window one letter on is the old one, times the base, less the weight of the letter that left, and
the letter that entered (`horner_roll`).
-/

section Horner

universe u

variable {R : Type u} [CommRing R] (base : R)

/-- Horner's rule, from a first state. -/
def hornerFrom (state : R) (word : List R) : R :=
  word.foldl (fun state x => state * base + x) state

/-- Horner's rule. -/
def horner (word : List R) : R := hornerFrom base 0 word

@[simp] theorem hornerFrom_cons (state x : R) (word : List R) :
    hornerFrom base state (x :: word) = hornerFrom base (state * base + x) word := rfl

theorem horner_concat (word : List R) (x : R) :
    horner base (word ++ [x]) = horner base word * base + x := by
  simp [horner, hornerFrom]

/-- A first state weighs as much as a letter in front of the word would. -/
theorem hornerFrom_eq (state : R) (word : List R) :
    hornerFrom base state word = state * base ^ word.length + horner base word := by
  induction word generalizing state with
  | nil => simp [horner, hornerFrom]
  | cons x word ih =>
    rw [horner, hornerFrom_cons, hornerFrom_cons, ih, ih, length_cons]
    ring

theorem horner_cons (x : R) (word : List R) :
    horner base (x :: word) = x * base ^ word.length + horner base word := by
  rw [horner, hornerFrom_cons, hornerFrom_eq]
  ring

/-- **A window rolls**: what leaves goes with the weight it has one place on. -/
theorem horner_roll {leaving entering : R} {word next : List R}
    (h : word ++ [entering] = leaving :: next) :
    horner base next = horner base word * base - leaving * base ^ next.length + entering := by
  have hboth : horner base word * base + entering = leaving * base ^ next.length + horner base next := by
    rw [← horner_concat, h, horner_cons]
  calc horner base next
      = (leaving * base ^ next.length + horner base next) - leaving * base ^ next.length := by ring
    _ = horner base word * base - leaving * base ^ next.length + entering := by
      rw [← hboth]
      ring

end Horner

end Digits

/-! ## The bits of a spelling, regrouped into digits of another width

    take m d     acc ← acc·2ᵐ + d          drain n     while n bits wait: write the first n of them

What is written, the waiting bits behind it, is the number that was taken (`Regroups.take`,
`Regroups.write`); with none waiting at the end the two spellings are of one number, and of a width
each, so either determines the other (`numberIn_injective`).
-/

section Regroup

/-- The number that digits spell, most significant first. -/
def numberIn (base : ℕ) (ds : List ℕ) : ℕ := ds.foldl (fun n d => n * base + d) 0

@[simp] theorem numberIn_concat (base : ℕ) (ds : List ℕ) (d : ℕ) :
    numberIn base (ds ++ [d]) = numberIn base ds * base + d := by
  simp [numberIn]

theorem numberIn_eq_ofDigits (base : ℕ) (ds : List ℕ) :
    numberIn base ds = ofDigits base ds.reverse := by
  induction ds using List.reverseRecOn with
  | nil => rfl
  | append_singleton ds d ih =>
    rw [numberIn_concat, reverse_concat, ofDigits_cons, ih]
    ring

/-- **A number has one spelling of a width.** -/
theorem numberIn_injective {base : ℕ} (hbase : 1 < base) {ds es : List ℕ} (hlen : ds.length = es.length)
    (hds : ∀ d ∈ ds, d < base) (hes : ∀ e ∈ es, e < base) (h : numberIn base ds = numberIn base es) :
    ds = es := by
  rw [numberIn_eq_ofDigits, numberIn_eq_ofDigits] at h
  refine reverse_injective (ofDigits_inj_of_len_eq hbase ?_ ?_ ?_ h)
  · simpa using hlen
  · simpa using hds
  · simpa using hes

/-- Digits of `n` bits written, and the bits that wait behind them, when digits of `m` bits were
taken. -/
structure Regroups (m n : ℕ) (taken written : List ℕ) (acc bits : ℕ) : Prop where
  number : numberIn (2 ^ m) taken = numberIn (2 ^ n) written * 2 ^ bits + acc
  acc_lt : acc < 2 ^ bits
  count : m * taken.length = n * written.length + bits
  digit_lt : ∀ d ∈ written, d < 2 ^ n

namespace Regroups

variable {m n : ℕ} {taken written : List ℕ} {acc bits : ℕ}

theorem start (m n : ℕ) : Regroups m n [] [] 0 0 where
  number := rfl
  acc_lt := one_pos
  count := rfl
  digit_lt := nofun

/-- A digit taken waits behind the bits before it. -/
theorem take (h : Regroups m n taken written acc bits) {d : ℕ} (hd : d < 2 ^ m) :
    Regroups m n (taken ++ [d]) written (acc * 2 ^ m + d) (bits + m) where
  number := by
    rw [numberIn_concat, h.number, pow_add]
    ring
  acc_lt := by
    have := h.acc_lt
    calc acc * 2 ^ m + d < (acc + 1) * 2 ^ m := by rw [add_mul, one_mul]; omega
      _ ≤ 2 ^ bits * 2 ^ m := mul_le_mul_right _ this
      _ = 2 ^ (bits + m) := (pow_add 2 bits m).symm
  count := by
    rw [length_append, length_singleton, mul_add, h.count]
    omega
  digit_lt := h.digit_lt

/-- The first `n` bits that wait are written. -/
theorem write (h : Regroups m n taken written acc (bits + n)) :
    Regroups m n taken (written ++ [acc / 2 ^ bits]) (acc % 2 ^ bits) bits where
  number := by
    have hsplit := div_add_mod' acc (2 ^ bits)
    calc numberIn (2 ^ m) taken
        = numberIn (2 ^ n) written * 2 ^ (bits + n) + acc := h.number
      _ = numberIn (2 ^ n) written * 2 ^ (bits + n) + (acc / 2 ^ bits * 2 ^ bits + acc % 2 ^ bits) := by
        rw [hsplit]
      _ = numberIn (2 ^ n) (written ++ [acc / 2 ^ bits]) * 2 ^ bits + acc % 2 ^ bits := by
        rw [numberIn_concat, pow_add]
        ring
  acc_lt := mod_lt _ (Nat.two_pow_pos bits)
  count := by
    rw [h.count, length_append, length_singleton, mul_add]
    omega
  digit_lt d hd := by
    rcases mem_append.mp hd with hd | hd
    · exact h.digit_lt d hd
    · obtain rfl := mem_singleton.mp hd
      refine Nat.div_lt_of_lt_mul ?_
      rw [← pow_add]
      exact h.acc_lt

end Regroups

end Regroup

end Oneiron
