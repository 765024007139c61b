import Mathlib.Data.List.TakeWhile
import Oneiron.Sync.SyncQueue

/-!
# Sync/WindowKey — monthly window keys and the seconds they cover

    1970-01      1970-02      …      9999-12
    ├------------┼------------┼------┼------------┤
    0            2678400                          253402300800

Two loops read the calendar: one from seconds to a label, the other from a label back to seconds.
The months are numbered from January 1970, and `startDay` says on which day each starts: the first
loop ends in the month whose days are left, the second counts the same days up (`dateToUnix_month`).
-/

namespace Oneiron

open List Option Bool Nat Prod EntityId

/-- `is_leap_year`. -/
def isLeapYear (year : ℤ) : Bool := (year % 4 = 0 && year % 100 ≠ 0) || year % 400 = 0

def daysInYear (year : ℤ) : ℕ := if isLeapYear year then 366 else 365

/-- `month_days`. -/
def monthDays (year : ℤ) : List ℕ :=
  [31, if isLeapYear year then 29 else 28, 31, 30, 31, 30, 31, 31, 30, 31, 30, 31]

/-- The year's loop, so many years before 9999: the year, and its days left; nothing past 9999. -/
def labelYear : (left days : ℕ) → Option (ℕ × ℕ)
  | 0, days => if days < daysInYear 9999 then some (9999, days) else none
  | left + 1, days =>
    let year := 9999 - (left + 1)
    if days < daysInYear year then some (year, days) else labelYear left (days - daysInYear year)

/-- The month's loop. -/
def labelMonth : (lengths : List ℕ) → (month days : ℕ) → ℕ
  | [], month, _ => month
  | length :: lengths, month, days =>
    if days < length then month else labelMonth lengths (month + 1) (days - length)

/-- A number in decimal, zeros before it up to a width. -/
def decimal : (width n : ℕ) → Bytes
  | 0, n => if n = 0 then [] else (toDigits 10 n).map fun c => c.toNat.toUInt8
  | width + 1, n => decimal width (n / 10) ++ [48 + (n % 10).toUInt8]

/-- `{year:04}-{month:02}`. -/
def formatWindowLabel (year month : ℕ) : Bytes := decimal 4 year ++ 45 :: decimal 2 month

/-- `window_label_from_timestamp`. -/
def windowLabelFromTimestamp (ts : ℕ) : Bytes :=
  match labelYear (9999 - 1970) (ts / 86400) with
  | none => ascii "9999-12"
  | some (year, days) => formatWindowLabel year (labelMonth (monthDays year) 1 days)

/-- `date_to_unix`: the seconds before a date, none before 1970. -/
def dateToUnix (year : ℤ) (month day : ℕ) : Option ℕ :=
  let after := ((List.range (year - 1970).toNat).map fun i : ℕ => daysInYear (1970 + i)).sum
  let before := ((List.range (1970 - year).toNat).map fun i : ℕ => daysInYear (year + i)).sum
  let days : ℤ := after - before + ((monthDays year).take (month - 1)).sum + (day - 1)
  if days < 0 then none else some (days.toNat * 86400)

namespace WindowKey

/-- `WindowKey::from_timestamp`. -/
def fromTimestamp (ts : ℕ) : Bytes := windowLabelFromTimestamp ts

/-- `WindowKey::for_month_world`. -/
def forMonthWorld (month : Bytes) (world : EntityId) : Bytes := month.take 7 ++ 64 :: world.toHex

/-- `WindowKey::world`: what follows the first `@`, where it spells an id. -/
def world (key : Bytes) : Option EntityId :=
  match key.dropWhile (· ≠ 64) with
  | [] => none
  | _ :: hex => EntityId.fromHex hex

def startTimestamp (key : Bytes) : Option ℕ :=
  (parseWindowLabel key).bind fun (year, month) => dateToUnix year month 1

def endTimestamp (key : Bytes) : Option ℕ :=
  (parseWindowLabel key).bind fun (year, month) =>
    let (nextYear, nextMonth) := if month = 12 then (year + 1, 1) else (year, month + 1)
    dateToUnix nextYear nextMonth 1

def previousMonth (key : Bytes) : Option Bytes :=
  (parseWindowLabel key).bind fun (year, month) =>
    let (prevYear, prevMonth) := if month = 1 then (year - 1, 12) else (year, month - 1)
    if prevYear < 1970 then none
    else match world key with
      | some world => some (forMonthWorld (formatWindowLabel prevYear prevMonth) world)
      | none => some (formatWindowLabel prevYear prevMonth)

end WindowKey

/-! ## Decimals -/

theorem ofDecimal_append_singleton (b : Bytes) (c : UInt8) :
    ofDecimal (b ++ [c]) = ofDecimal b * 10 + (c.toNat - 48) := by
  simp [ofDecimal, foldl_append]

theorem toNat_decimalDigit (n : ℕ) : (48 + (n % 10).toUInt8).toNat = 48 + n % 10 := by
  have hbyte : (n % 10).toUInt8.toNat = n % 10 :=
    UInt8.toNat_ofNat_of_lt (show n % 10 < 256 by omega)
  rw [UInt8.toNat_add, hbyte]
  exact mod_eq_of_lt (by simp only [UInt8.reduceToNat]; omega)

theorem length_decimal : ∀ {width n : ℕ}, n < 10 ^ width → (decimal width n).length = width
  | 0, n, h => by simp [decimal, show n = 0 by omega]
  | width + 1, n, h => by
    have hdiv : n / 10 < 10 ^ width := by
      rw [div_lt_iff_lt_mul (by decide), ← pow_succ]
      exact h
    simp [decimal, length_decimal hdiv]

theorem all_isAsciiDigit_decimal : ∀ {width n : ℕ}, n < 10 ^ width →
    (decimal width n).all isAsciiDigit
  | 0, n, h => by simp [decimal, show n = 0 by omega]
  | width + 1, n, h => by
    have hdiv : n / 10 < 10 ^ width := by
      rw [div_lt_iff_lt_mul (by decide), ← pow_succ]
      exact h
    have hdigit : isAsciiDigit (48 + (n % 10).toUInt8) := by
      simp only [isAsciiDigit, and_eq_true, decide_eq_true_eq, UInt8.le_iff_toNat_le,
        toNat_decimalDigit, UInt8.reduceToNat]
      omega
    rw [decimal, all_append, all_isAsciiDigit_decimal hdiv]
    simpa using hdigit

theorem ofDecimal_decimal : ∀ {width n : ℕ}, n < 10 ^ width → ofDecimal (decimal width n) = n
  | 0, n, h => by simp [decimal, ofDecimal, show n = 0 by omega]
  | width + 1, n, h => by
    have hdiv : n / 10 < 10 ^ width := by
      rw [div_lt_iff_lt_mul (by decide), ← pow_succ]
      exact h
    rw [decimal, ofDecimal_append_singleton, ofDecimal_decimal hdiv, toNat_decimalDigit]
    omega

/-- So many digits spell less than a power of ten. -/
theorem ofDecimal_lt {b : Bytes} (h : b.all isAsciiDigit) : ofDecimal b < 10 ^ b.length := by
  induction b using List.reverseRecOn with
  | nil => decide
  | append_singleton b c ih =>
    rw [all_append, and_eq_true] at h
    have hc : c.toNat ≤ 57 := by
      have hdigit := h.2
      simp only [all_cons, all_nil, isAsciiDigit, and_eq_true, decide_eq_true_eq,
        UInt8.le_iff_toNat_le, UInt8.reduceToNat] at hdigit
      exact hdigit.1.2
    have hb := ih h.1
    rw [ofDecimal_append_singleton, length_append, length_singleton, pow_succ]
    omega

/-- **Digits are the spelling of their number at their own length.** -/
theorem decimal_ofDecimal {b : Bytes} (h : b.all isAsciiDigit) : decimal b.length (ofDecimal b) = b := by
  induction b using List.reverseRecOn with
  | nil => rfl
  | append_singleton b c ih =>
    rw [all_append, and_eq_true] at h
    have hdigit := h.2
    simp only [all_cons, all_nil, isAsciiDigit, and_eq_true, decide_eq_true_eq,
      UInt8.le_iff_toNat_le, UInt8.reduceToNat] at hdigit
    have hdiv : (ofDecimal b * 10 + (c.toNat - 48)) / 10 = ofDecimal b := by omega
    have hlast : (48 + ((ofDecimal b * 10 + (c.toNat - 48)) % 10).toUInt8) = c := by
      apply UInt8.toNat_inj.mp
      rw [toNat_decimalDigit]
      omega
    rw [ofDecimal_append_singleton, length_append, length_singleton, decimal, hdiv, hlast,
      ih h.1]

/-! ## Months, numbered from January 1970 -/

/-- The year and month of a number. -/
def monthOf (k : ℕ) : ℕ × ℕ := (1970 + k / 12, k % 12 + 1)

/-- The months a label can name. -/
def monthCount : ℕ := 12 * 8030

/-- The days before a year, counted from 1970. -/
def yearDay (n : ℕ) : ℕ := ((List.range n).map fun i : ℕ => daysInYear (1970 + i)).sum

/-- The day a month starts on. -/
def startDay (k : ℕ) : ℕ := yearDay (k / 12) + ((monthDays (1970 + (k / 12 : ℕ))).take (k % 12)).sum

theorem yearDay_succ (n : ℕ) : yearDay (n + 1) = yearDay n + daysInYear (1970 + (n : ℕ)) := by
  simp [yearDay, range_succ]

theorem sum_monthDays (year : ℤ) : (monthDays year).sum = daysInYear year := by
  unfold monthDays daysInYear
  split <;> rfl

/-- No month is empty. -/
theorem sum_take_lt (year : ℤ) {r : ℕ} (h : r < 12) :
    ((monthDays year).take r).sum < ((monthDays year).take (r + 1)).sum := by
  have hlen : r < (monthDays year).length := h
  have hpos : ∀ length ∈ monthDays year, 0 < length := by
    unfold monthDays
    split <;> decide
  rw [take_succ_eq_append_getElem hlen, List.sum_append, sum_singleton]
  exact Nat.lt_add_of_pos_right (hpos _ (getElem_mem hlen))

theorem startDay_mul (n : ℕ) : startDay (12 * n) = yearDay n := by
  rw [startDay, Nat.mul_div_cancel_left n (by decide), mul_mod_right, take_zero,
    sum_nil, add_zero]

theorem startDay_of_lt {n r : ℕ} (h : r < 12) :
    startDay (12 * n + r) = yearDay n + ((monthDays (1970 + (n : ℕ))).take r).sum := by
  rw [startDay, show (12 * n + r) / 12 = n by omega, show (12 * n + r) % 12 = r by omega]

/-- A year's last month ends where the next year starts. -/
theorem startDay_year (n : ℕ) :
    startDay (12 * (n + 1)) = yearDay n + ((monthDays (1970 + (n : ℕ))).take 12).sum := by
  rw [take_of_length_le (le_refl 12), sum_monthDays, ← yearDay_succ, startDay_mul]

/-- The months follow one another. -/
theorem startDay_succ {n r : ℕ} (h : r < 12) :
    startDay (12 * n + r + 1) = yearDay n + ((monthDays (1970 + (n : ℕ))).take (r + 1)).sum := by
  rcases lt_or_eq_of_le (le_of_lt_succ h) with hlt | rfl
  · exact startDay_of_lt (succ_lt_succ hlt)
  · exact startDay_year n

theorem startDay_strictMono : StrictMono startDay := by
  refine strictMono_nat_of_lt_succ fun k => ?_
  have hmod : k % 12 < 12 := mod_lt k (by decide)
  rw [← div_add_mod k 12, startDay_of_lt hmod, startDay_succ hmod]
  exact Nat.add_lt_add_left (sum_take_lt _ hmod) _

/-- **A day is in one month only.** -/
theorem month_unique {i j day : ℕ} (hi : startDay i ≤ day) (hi' : day < startDay (i + 1))
    (hj : startDay j ≤ day) (hj' : day < startDay (j + 1)) : i = j := by
  have hmono := startDay_strictMono
  have hij : i < j + 1 := hmono.lt_iff_lt.mp (hi.trans_lt hj')
  have hji : j < i + 1 := hmono.lt_iff_lt.mp (hj.trans_lt hi')
  omega

/-! ## From a label to seconds -/

theorem dateToUnix_of_nat (n m : ℕ) : dateToUnix (1970 + (n : ℕ)) m 1 =
    some ((yearDay n + ((monthDays (1970 + (n : ℕ))).take (m - 1)).sum) * 86400) := by
  have hafter : (1970 + (n : ℤ) - 1970).toNat = n := by omega
  have hbefore : (1970 - (1970 + (n : ℤ))).toNat = 0 := by omega
  have hpos : ¬ ((yearDay n + ((monthDays (1970 + (n : ℕ))).take (m - 1)).sum : ℕ) : ℤ) < 0 := by
    omega
  unfold dateToUnix
  rw [hafter, hbefore]
  simp only [range_zero, map_nil, sum_nil, cast_zero, sub_zero, cast_one,
    sub_self, add_zero, ← cast_add]
  rw [← yearDay, if_neg hpos, Int.toNat_natCast]

/-- The first second of a month. -/
theorem dateToUnix_month (k : ℕ) :
    dateToUnix (monthOf k).1 (monthOf k).2 1 = some (startDay k * 86400) := by
  simpa [monthOf, startDay] using dateToUnix_of_nat (k / 12) (k % 12 + 1)

/-! ## From seconds to a label -/

/-- **The year's loop** ends in the year the days are left in, or past the last. -/
theorem labelYear_spec : ∀ left days : ℕ, left ≤ 8029 →
    (labelYear left days = none → yearDay 8030 ≤ yearDay (8029 - left) + days) ∧
    ∀ year rest, labelYear left days = some (year, rest) → ∃ n < 8030, year = 1970 + n ∧
      yearDay n + rest = yearDay (8029 - left) + days ∧ rest < daysInYear year
  | 0, days, _ => by
    unfold labelYear
    split
    case isTrue hlt =>
      refine ⟨nofun, fun year rest h => ?_⟩
      obtain ⟨rfl, rfl⟩ := mk.inj (some.inj h)
      exact ⟨8029, by decide, rfl, rfl, hlt⟩
    case isFalse hge =>
      refine ⟨fun _ => ?_, nofun⟩
      have hsucc := yearDay_succ 8029
      norm_num at hsucc
      simp only [Nat.sub_zero]
      omega
  | left + 1, days, hleft => by
    have hyear : 9999 - (left + 1) = 1970 + (8029 - (left + 1)) := by omega
    unfold labelYear
    dsimp only
    split
    case isTrue hlt =>
      refine ⟨nofun, fun year rest h => ?_⟩
      obtain ⟨rfl, rfl⟩ := mk.inj (some.inj h)
      exact ⟨8029 - (left + 1), by omega, hyear, rfl, hlt⟩
    case isFalse hge =>
      have hsucc := yearDay_succ (8029 - (left + 1))
      rw [show 8029 - (left + 1) + 1 = 8029 - left by omega] at hsucc
      have hdays : daysInYear ((9999 - (left + 1) : ℕ) : ℤ) =
          daysInYear (1970 + ((8029 - (left + 1) : ℕ) : ℤ)) := by
        rw [hyear, cast_add]
        rfl
      obtain ⟨hnone, hsome⟩ := labelYear_spec left
        (days - daysInYear ((9999 - (left + 1) : ℕ) : ℤ)) (by omega)
      refine ⟨fun h => ?_, fun year rest h => ?_⟩
      · have hle := hnone h
        omega
      · obtain ⟨n, hn, hy, hsum, hlt⟩ := hsome year rest h
        exact ⟨n, hn, hy, by omega, hlt⟩

/-- **The month's loop** ends in the month the days are left in. -/
theorem labelMonth_spec : ∀ (lengths : List ℕ) (month days : ℕ), days < lengths.sum →
    ∃ r < lengths.length, labelMonth lengths month days = month + r ∧
      (lengths.take r).sum ≤ days ∧ days < (lengths.take (r + 1)).sum
  | [], _, _, h => absurd h (not_lt_zero _)
  | length :: lengths, month, days, h => by
    unfold labelMonth
    split
    case isTrue hlt => exact ⟨0, succ_pos _, rfl, zero_le _, by simpa using hlt⟩
    case isFalse hge =>
      rw [sum_cons] at h
      obtain ⟨r, hr, heq, hle, hlt⟩ := labelMonth_spec lengths (month + 1) (days - length)
        (by omega)
      refine ⟨r + 1, succ_lt_succ hr, by omega, ?_, ?_⟩
      · rw [take_succ_cons, sum_cons]
        omega
      · rw [take_succ_cons, sum_cons]
        omega

/-- The label of a month. -/
def monthLabel (k : ℕ) : Bytes := formatWindowLabel (monthOf k).1 (monthOf k).2

/-- **A timestamp's label is its month's**, the last month's past the last. -/
theorem windowLabelFromTimestamp_eq (ts : ℕ) : ∃ k < monthCount,
    windowLabelFromTimestamp ts = monthLabel k ∧ startDay k ≤ ts / 86400 ∧
      (ts / 86400 < startDay monthCount → ts / 86400 < startDay (k + 1)) := by
  obtain ⟨hnone, hsome⟩ := labelYear_spec (9999 - 1970) (ts / 86400) (by decide)
  have hzero : yearDay (8029 - (9999 - 1970)) = 0 := rfl
  have hlast : startDay monthCount = yearDay 8030 := startDay_mul 8030
  unfold windowLabelFromTimestamp
  cases hyear : labelYear (9999 - 1970) (ts / 86400) with
  | none =>
    have hle := hnone hyear
    have hmono := startDay_strictMono.monotone (show monthCount - 1 ≤ monthCount by decide)
    have hlabel : ascii "9999-12" = monthLabel (monthCount - 1) := by
      decide
    exact ⟨monthCount - 1, by decide, hlabel, by omega, fun hlt => by omega⟩
  | some found =>
    obtain ⟨year, rest⟩ := found
    obtain ⟨n, hn, rfl, hsum, hrest⟩ := hsome year rest hyear
    have hcast : ((1970 + n : ℕ) : ℤ) = 1970 + (n : ℤ) := by omega
    rw [hcast, ← sum_monthDays] at hrest
    obtain ⟨r, hr, hmonth, hle, hlt⟩ := labelMonth_spec _ 1 rest hrest
    have hr : r < 12 := hr
    refine ⟨12 * n + r, by simp only [monthCount]; omega, ?_, ?_, fun _ => ?_⟩
    · dsimp only
      rw [hcast, hmonth, monthLabel, monthOf, show (12 * n + r) / 12 = n by omega,
        show (12 * n + r) % 12 = r by omega, add_comm 1 r]
    · rw [startDay_of_lt hr]
      omega
    · rw [startDay_succ hr]
      omega

/-! ## Labels and keys that are accepted -/

theorem monthOf_lt {k : ℕ} (hk : k < monthCount) :
    1970 ≤ (monthOf k).1 ∧ (monthOf k).1 < 10 ^ 4 ∧ 1 ≤ (monthOf k).2 ∧ (monthOf k).2 ≤ 12 := by
  simp only [monthOf, monthCount] at hk ⊢
  omega

/-- An accepted key names a month. -/
theorem month_of_parse {key : Bytes} {found : ℕ × ℕ} (h : parseWindowLabel key = some found) :
    ∃ k < monthCount, found = monthOf k := by
  unfold parseWindowLabel at h
  dsimp only at h
  split at h
  case isFalse => cases h
  case isTrue hkey =>
    obtain ⟨hlen, -, hyear, -, -, hfirst, hone, htwelve⟩ := hkey
    obtain rfl := some.inj h
    have hlt := ofDecimal_lt hyear
    rw [length_take, show min 4 key.length = 4 by omega] at hlt
    generalize ofDecimal (key.take 4) = year at *
    generalize ofDecimal ((key.drop 5).take 2) = month at *
    refine ⟨12 * (year - 1970) + (month - 1), by simp only [monthCount]; omega, ?_⟩
    rw [monthOf, Prod.mk.injEq]
    omega

theorem length_monthLabel {k : ℕ} (hk : k < monthCount) : (monthLabel k).length = 7 := by
  obtain ⟨-, hyear, -, hmonth⟩ := monthOf_lt hk
  rw [monthLabel, formatWindowLabel, length_append, length_cons, length_decimal hyear,
    length_decimal (show (monthOf k).2 < 10 ^ 2 by omega)]

/-- A key that starts with a month's label is accepted where what follows is. -/
theorem parse_monthLabel_append {k : ℕ} (hk : k < monthCount) {rest : Bytes}
    (hrest : rest = [] ∨ ∃ hex, rest = 64 :: hex ∧ hex.length = 32 ∧
      hex.all (fun b => isAsciiDigit b || (97 ≤ b && b ≤ 102)) ∧
      (EntityId.parseHexId hex).isSome) :
    parseWindowLabel (monthLabel k ++ rest) = some (monthOf k) := by
  obtain ⟨hfirst, hyear, hone, hmonth⟩ := monthOf_lt hk
  have hmonth' : (monthOf k).2 < 10 ^ 2 := by omega
  have hlenYear := length_decimal hyear
  have hlenMonth := length_decimal hmonth'
  have htakeYear : (monthLabel k ++ rest).take 4 = decimal 4 (monthOf k).1 := by
    rw [monthLabel, formatWindowLabel, append_assoc, take_left' hlenYear]
  have hdash : (monthLabel k ++ rest)[4]? = some 45 := by
    rw [monthLabel, formatWindowLabel, append_assoc, getElem?_append_right hlenYear.le,
      hlenYear]
    rfl
  have hdrop : (monthLabel k ++ rest).drop 5 = decimal 2 (monthOf k).2 ++ rest := by
    rw [monthLabel, formatWindowLabel, append_assoc, show 5 = 4 + 1 from rfl,
      ← drop_drop, drop_left' hlenYear]
    rfl
  have hseven : ∀ n, (monthLabel k ++ rest)[7 + n]? = rest[n]? := fun n => by
    rw [getElem?_append_right (by rw [length_monthLabel hk]; omega), length_monthLabel hk,
      Nat.add_sub_cancel_left]
  have height : (monthLabel k ++ rest).drop 8 = rest.drop 1 := by
    rw [drop_append, length_monthLabel hk, drop_eq_nil_of_le, nil_append]
    rw [length_monthLabel hk]
    decide
  unfold parseWindowLabel
  rw [htakeYear, hdrop, take_left' hlenMonth, ofDecimal_decimal hyear,
    ofDecimal_decimal hmonth', hdash, height, if_pos]
  refine ⟨?_, rfl, all_isAsciiDigit_decimal hyear, all_isAsciiDigit_decimal hmonth', ?_, hfirst, hone,
    hmonth⟩
  · rw [length_append, length_monthLabel hk]
    rcases hrest with rfl | ⟨hex, rfl, hhex, -⟩
    · exact .inl rfl
    · exact .inr (by rw [length_cons, hhex])
  · rw [length_append, length_monthLabel hk]
    rcases hrest with rfl | ⟨hex, rfl, -, hall, hsome⟩
    · exact fun h => absurd h (by decide)
    · exact fun _ => ⟨hseven 0, hall, hsome⟩

theorem parse_monthLabel {k : ℕ} (hk : k < monthCount) :
    parseWindowLabel (monthLabel k) = some (monthOf k) := by
  simpa using parse_monthLabel_append hk (.inl rfl)

/-- A number is one month's. -/
theorem monthOf_injective : Function.Injective monthOf := fun i j h => by
  obtain ⟨hyear, hmonth⟩ := mk.inj h
  omega

/-- An accepted key starts with its month's label. -/
theorem take_of_parse {key : Bytes} {k : ℕ} (h : parseWindowLabel key = some (monthOf k)) :
    key.take 7 = monthLabel k := by
  unfold parseWindowLabel at h
  dsimp only at h
  split at h
  case isFalse => cases h
  case isTrue hkey =>
    obtain ⟨hlen, hdash, hyear, hmonth, -⟩ := hkey
    obtain ⟨hy, hm⟩ := mk.inj (some.inj h)
    have hfour : (key.take 4).length = 4 := by
      rw [length_take]
      omega
    have htwo : ((key.drop 5).take 2).length = 2 := by
      rw [length_take, length_drop]
      omega
    have hyear' := decimal_ofDecimal hyear
    have hmonth' := decimal_ofDecimal hmonth
    rw [hfour] at hyear'
    rw [htwo] at hmonth'
    have hdrop : key.drop 4 = 45 :: key.drop 5 := by
      obtain ⟨hlt, hget⟩ := List.getElem?_eq_some_iff.mp hdash
      rw [drop_eq_getElem_cons hlt, hget]
    rw [monthLabel, formatWindowLabel, monthOf, ← hy, ← hm, hyear', hmonth',
      show 7 = 4 + 3 from rfl, take_add, hdrop, take_succ_cons]

/-- No label has an `@`. -/
theorem ne_at_of_mem_monthLabel {k : ℕ} (hk : k < monthCount) {c : UInt8} (hc : c ∈ monthLabel k) :
    c ≠ 64 := by
  obtain ⟨-, hyear, -, hmonth⟩ := monthOf_lt hk
  have hmonth' : (monthOf k).2 < 10 ^ 2 := by omega
  have hdigit (c : UInt8) (h : isAsciiDigit c) : c ≠ 64 := by
    rintro rfl
    exact absurd h (by decide)
  rw [monthLabel, formatWindowLabel, mem_append, mem_cons] at hc
  rcases hc with hc | rfl | hc
  · exact hdigit c (List.all_eq_true.mp (all_isAsciiDigit_decimal hyear) c hc)
  · decide
  · exact hdigit c (List.all_eq_true.mp (all_isAsciiDigit_decimal hmonth') c hc)

namespace WindowKey

variable {key : Bytes} {k : ℕ}

/-- A month's window starts on its first second. -/
theorem startTimestamp_eq (h : parseWindowLabel key = some (monthOf k)) :
    startTimestamp key = some (startDay k * 86400) := by
  rw [startTimestamp, h, bind_some]
  exact dateToUnix_month k

/-- …and ends as the next starts. -/
theorem endTimestamp_eq (h : parseWindowLabel key = some (monthOf k)) :
    endTimestamp key = some (startDay (k + 1) * 86400) := by
  have hnext : (if (monthOf k).2 = 12 then ((monthOf k).1 + 1, 1) else
      ((monthOf k).1, (monthOf k).2 + 1)) = monthOf (k + 1) := by
    unfold monthOf
    split <;> (rw [Prod.mk.injEq]; omega)
  rw [endTimestamp, h, bind_some]
  dsimp only
  rw [hnext]
  exact dateToUnix_month (k + 1)

theorem fromTimestamp_eq (ts : ℕ) : ∃ k < monthCount, fromTimestamp ts = monthLabel k ∧
    startDay k * 86400 ≤ ts ∧ (ts < startDay monthCount * 86400 → ts < startDay (k + 1) * 86400) := by
  obtain ⟨k, hk, hlabel, hle, hlt⟩ := windowLabelFromTimestamp_eq ts
  rw [div_lt_iff_lt_mul (by decide), div_lt_iff_lt_mul (by decide)] at hlt
  exact ⟨k, hk, hlabel, (le_div_iff_mul_le (by decide)).mp hle, hlt⟩

/-! ### Worlds -/

theorem forMonthWorld_eq (h : parseWindowLabel key = some (monthOf k)) (world : EntityId) :
    forMonthWorld key world = monthLabel k ++ 64 :: world.toHex := by
  rw [forMonthWorld, take_of_parse h]

/-- A world's key of a month is accepted, as that month. -/
theorem parse_forMonthWorld (hk : k < monthCount) (h : parseWindowLabel key = some (monthOf k))
    {world : EntityId} (hworld : EntityId.isReserved world.asBytes = false) :
    parseWindowLabel (forMonthWorld key world) = some (monthOf k) := by
  rw [forMonthWorld_eq h]
  refine parse_monthLabel_append hk (.inr ⟨world.toHex, rfl, world.length_toHex, ?_, ?_⟩)
  · rw [List.all_eq_true]
    intro c hc
    simpa [isAsciiDigit] using mem_toHex hc
  · rw [parseHexId_toHex hworld]
    rfl

/-- …and names its world. -/
theorem world_forMonthWorld (hk : k < monthCount) (h : parseWindowLabel key = some (monthOf k))
    {world : EntityId} (hworld : EntityId.isReserved world.asBytes = false) :
    WindowKey.world (forMonthWorld key world) = some world := by
  rw [forMonthWorld_eq h, WindowKey.world, dropWhile_append_of_pos
    fun c hc => by simpa using ne_at_of_mem_monthLabel hk hc]
  exact fromHex_toHex hworld

/-- A base label names none. -/
theorem world_monthLabel (hk : k < monthCount) : world (monthLabel k) = none := by
  rw [world, dropWhile_eq_nil_iff.mpr fun c hc => by
    simpa using ne_at_of_mem_monthLabel hk hc]

theorem isReserved_of_world {found : EntityId} (h : world key = some found) :
    EntityId.isReserved found.asBytes = false := by
  unfold world at h
  split at h
  · cases h
  · unfold EntityId.fromHex at h
    split at h
    case isFalse => cases h
    case isTrue =>
      obtain ⟨bytes, -, hbytes⟩ := bind_eq_some_iff.mp h
      unfold EntityId.fromBytes at hbytes
      split_ifs at hbytes with hlen hreserved
      obtain rfl := some.inj hbytes
      exact eq_false_iff.mpr hreserved

theorem previousMonth_zero (h : parseWindowLabel key = some (monthOf 0)) :
    previousMonth key = none := by
  rw [previousMonth, h]
  rfl

/-- **The month before**, of the same world. -/
theorem previousMonth_succ (hk : k + 1 < monthCount)
    (h : parseWindowLabel key = some (monthOf (k + 1))) : ∃ prev, previousMonth key = some prev ∧
      parseWindowLabel prev = some (monthOf k) ∧ world prev = world key := by
  have hk' : k < monthCount := lt_of_succ_lt hk
  have hprev : (if (monthOf (k + 1)).2 = 1 then ((monthOf (k + 1)).1 - 1, 12) else
      ((monthOf (k + 1)).1, (monthOf (k + 1)).2 - 1)) = monthOf k := by
    unfold monthOf
    split <;> (rw [Prod.mk.injEq]; omega)
  have hparse := parse_monthLabel hk'
  rw [previousMonth, h, bind_some]
  dsimp only
  rw [hprev, if_neg (not_lt.mpr (monthOf_lt hk').1)]
  cases hworld : world key with
  | none => exact ⟨_, rfl, hparse, world_monthLabel hk'⟩
  | some found =>
    have hfound := isReserved_of_world hworld
    exact ⟨_, rfl, parse_forMonthWorld hk' hparse hfound, world_forMonthWorld hk' hparse hfound⟩

/-! ### What a window covers -/

variable {limit ts ts' : ℕ}

theorem limit_eq (h : dateToUnix 10000 1 1 = some limit) : limit = startDay monthCount * 86400 := by
  have hlast := dateToUnix_month monthCount
  rw [show monthOf monthCount = (10000, 1) from rfl, cast_ofNat, h] at hlast
  exact some.inj hlast

section

variable (hlimit : dateToUnix 10000 1 1 = some limit)

include hlimit

/-- **A timestamp's window holds it.** -/
theorem window_of_timestamp (hts : ts < limit) :
    ∃ start stop, startTimestamp (fromTimestamp ts) = some start ∧
      endTimestamp (fromTimestamp ts) = some stop ∧ start ≤ ts ∧ ts < stop := by
  obtain ⟨k, hk, hlabel, hle, hlt⟩ := fromTimestamp_eq ts
  have hparse := parse_monthLabel hk
  rw [hlabel]
  exact ⟨_, _, startTimestamp_eq hparse, endTimestamp_eq hparse, hle, hlt (limit_eq hlimit ▸ hts)⟩

/-- A window that holds a timestamp is the one of its label. -/
theorem label_of_window {start stop : ℕ} (hts : ts < limit)
    (hstart : startTimestamp key = some start) (hstop : endTimestamp key = some stop)
    (hle : start ≤ ts) (hlt : ts < stop) :
    ∃ k < monthCount, fromTimestamp ts = monthLabel k ∧ parseWindowLabel key = some (monthOf k) := by
  obtain ⟨found, hfound, -⟩ := bind_eq_some_iff.mp hstart
  obtain ⟨k, hk, rfl⟩ := month_of_parse hfound
  obtain ⟨j, hj, hlabel, hjle, hjlt⟩ := fromTimestamp_eq ts
  rw [startTimestamp_eq hfound, some.injEq] at hstart
  rw [endTimestamp_eq hfound, some.injEq] at hstop
  have hjlt := hjlt (limit_eq hlimit ▸ hts)
  have hday : 0 < 86400 := by decide
  have hkle : startDay k ≤ ts / 86400 := (le_div_iff_mul_le hday).mpr (hstart ▸ hle)
  have hklt : ts / 86400 < startDay (k + 1) := (div_lt_iff_lt_mul hday).mpr (hstop ▸ hlt)
  obtain rfl := month_unique hkle hklt ((le_div_iff_mul_le hday).mpr hjle)
    ((div_lt_iff_lt_mul hday).mpr hjlt)
  exact ⟨k, hk, hlabel, hfound⟩

/-- **One label, one window.** -/
theorem label_eq_iff (hts : ts < limit) (hts' : ts' < limit) :
    fromTimestamp ts = fromTimestamp ts' ↔
      ∃ key start stop, startTimestamp key = some start ∧ endTimestamp key = some stop ∧
        start ≤ ts ∧ ts < stop ∧ start ≤ ts' ∧ ts' < stop := by
  constructor
  · intro hlabel
    obtain ⟨start, stop, hstart, hstop, hle, hlt⟩ := window_of_timestamp hlimit hts
    obtain ⟨start', stop', hstart', hstop', hle', hlt'⟩ := window_of_timestamp hlimit hts'
    rw [← hlabel, hstart, some.injEq] at hstart'
    rw [← hlabel, hstop, some.injEq] at hstop'
    exact ⟨_, start, stop, hstart, hstop, hle, hlt, hstart' ▸ hle', hstop' ▸ hlt'⟩
  · rintro ⟨key, start, stop, hstart, hstop, hle, hlt, hle', hlt'⟩
    obtain ⟨k, -, hlabel, hparse⟩ := label_of_window hlimit hts hstart hstop hle hlt
    obtain ⟨j, -, hlabel', hparse'⟩ := label_of_window hlimit hts' hstart hstop hle' hlt'
    rw [hparse, some.injEq] at hparse'
    rw [hlabel, hlabel', monthOf_injective hparse']

end

/-- **A window ends where the next starts.** -/
theorem endTimestamp_eq_next {key' : Bytes} {year month : ℕ}
    (h : parseWindowLabel key = some (year, month))
    (h' : parseWindowLabel key' = some (if month = 12 then (year + 1, 1) else (year, month + 1))) :
    (endTimestamp key).isSome ∧ endTimestamp key = startTimestamp key' := by
  obtain ⟨k, hk, hmonth⟩ := month_of_parse h
  have hnext : (if month = 12 then (year + 1, 1) else (year, month + 1)) = monthOf (k + 1) := by
    rw [monthOf, Prod.mk.injEq] at hmonth
    unfold monthOf
    split <;> (rw [Prod.mk.injEq]; omega)
  rw [hmonth] at h
  rw [hnext] at h'
  rw [endTimestamp_eq h, startTimestamp_eq h']
  exact ⟨rfl, rfl⟩

/-- **The month before is the predecessor**, from January 1970 on. -/
theorem previousMonth_spec {year month : ℕ} (h : parseWindowLabel key = some (year, month)) :
    (previousMonth key = none ↔ year = 1970 ∧ month = 1) ∧
    ∀ prev, previousMonth key = some prev →
      parseWindowLabel prev = some (if month = 1 then (year - 1, 12) else (year, month - 1)) ∧
      world prev = world key ∧ endTimestamp prev = startTimestamp key := by
  obtain ⟨_ | k, hk, hmonth⟩ := month_of_parse h
  all_goals
    rw [hmonth] at h
    rw [monthOf, Prod.mk.injEq] at hmonth
  · rw [previousMonth_zero h]
    exact ⟨⟨fun _ => hmonth, fun _ => rfl⟩, nofun⟩
  · obtain ⟨prev, hprev, hparse, hworld⟩ := previousMonth_succ hk h
    have hmonthOf : (if month = 1 then (year - 1, 12) else (year, month - 1)) = monthOf k := by
      unfold monthOf
      split <;> (rw [Prod.mk.injEq]; omega)
    rw [hprev, hmonthOf]
    refine ⟨⟨nofun, fun hfirst => by omega⟩, fun prev' heq => ?_⟩
    obtain rfl := some.inj heq
    refine ⟨hparse, hworld, ?_⟩
    rw [endTimestamp_eq hparse, startTimestamp_eq h]

/-- **A world's key of a month**, its month's bounds and its world. -/
theorem forMonthWorld_spec {member : EntityId} (h : (parseWindowLabel key).isSome)
    (hmember : EntityId.isReserved member.asBytes = false) :
    (forMonthWorld key member).length = 40 ∧
    parseWindowLabel (forMonthWorld key member) = parseWindowLabel key ∧
    world (forMonthWorld key member) = some member ∧
    startTimestamp (forMonthWorld key member) = startTimestamp key ∧
    endTimestamp (forMonthWorld key member) = endTimestamp key := by
  obtain ⟨found, hfound⟩ := isSome_iff_exists.mp h
  obtain ⟨k, hk, rfl⟩ := month_of_parse hfound
  have hparse := parse_forMonthWorld hk hfound hmember
  refine ⟨?_, hparse.trans hfound.symm, world_forMonthWorld hk hfound hmember, ?_, ?_⟩
  · rw [forMonthWorld_eq hfound, length_append, length_cons, member.length_toHex,
      length_monthLabel hk]
  · rw [startTimestamp_eq hparse, startTimestamp_eq hfound]
  · rw [endTimestamp_eq hparse, endTimestamp_eq hfound]

end WindowKey

open WindowKey

/-- **The windows tile time.**  Every timestamp's label is accepted; before year 10000 its window
holds it, and two timestamps have one label exactly where one window holds both; a window ends where
the next starts, and the month before it is its predecessor, from January 1970 on; and a world's key
of an accepted key's month is accepted, names its world, and has that month's bounds. -/
theorem windowKey_tiles :
    (∀ ts, (parseWindowLabel (fromTimestamp ts)).isSome) ∧
    (∀ limit, dateToUnix 10000 1 1 = some limit →
      (∀ ts < limit, ∃ start stop, startTimestamp (fromTimestamp ts) = some start ∧
        endTimestamp (fromTimestamp ts) = some stop ∧ start ≤ ts ∧ ts < stop) ∧
      ∀ ts < limit, ∀ ts' < limit, (fromTimestamp ts = fromTimestamp ts' ↔
        ∃ key start stop, startTimestamp key = some start ∧ endTimestamp key = some stop ∧
          start ≤ ts ∧ ts < stop ∧ start ≤ ts' ∧ ts' < stop)) ∧
    (∀ key key' year month, parseWindowLabel key = some (year, month) →
      parseWindowLabel key' = some (if month = 12 then (year + 1, 1) else (year, month + 1)) →
      (endTimestamp key).isSome ∧ endTimestamp key = startTimestamp key') ∧
    (∀ key year month, parseWindowLabel key = some (year, month) →
      (previousMonth key = none ↔ year = 1970 ∧ month = 1) ∧
      ∀ prev, previousMonth key = some prev →
        parseWindowLabel prev = some (if month = 1 then (year - 1, 12) else (year, month - 1)) ∧
        world prev = world key ∧ endTimestamp prev = startTimestamp key) ∧
    ∀ key member, (parseWindowLabel key).isSome → EntityId.isReserved member.asBytes = false →
      (forMonthWorld key member).length = 40 ∧
      parseWindowLabel (forMonthWorld key member) = parseWindowLabel key ∧
      world (forMonthWorld key member) = some member ∧
      startTimestamp (forMonthWorld key member) = startTimestamp key ∧
      endTimestamp (forMonthWorld key member) = endTimestamp key := by
  refine ⟨fun ts => ?_, fun limit hlimit => ⟨fun ts hts => window_of_timestamp hlimit hts,
      fun ts hts ts' hts' => label_eq_iff hlimit hts hts'⟩,
    fun key key' year month h h' => endTimestamp_eq_next h h',
    fun key year month h => previousMonth_spec h, fun key member h hm => forMonthWorld_spec h hm⟩
  obtain ⟨k, hk, hlabel, -⟩ := fromTimestamp_eq ts
  rw [hlabel, parse_monthLabel hk]
  rfl

/-- …on a leap day. -/
theorem windowKey_tiles_leap : (parseWindowLabel (fromTimestamp 951782400)).isSome ∧
    (∃ start stop, startTimestamp (fromTimestamp 951782400) = some start ∧
      endTimestamp (fromTimestamp 951782400) = some stop ∧ start ≤ 951782400 ∧ 951782400 < stop) ∧
    (forMonthWorld (ascii "2000-02") (EntityId.filled 7)).length = 40 :=
  ⟨windowKey_tiles.1 951782400,
    (windowKey_tiles.2.1 _ (dateToUnix_month monthCount)).1 951782400
      ((by decide : 951782400 < monthCount * 86400).trans_le
        (mul_le_mul_right _ startDay_strictMono.le_apply)),
    (windowKey_tiles.2.2.2.2 (ascii "2000-02") (EntityId.filled 7) (by decide) (by decide)).1⟩

end Oneiron
