import Oneiron.Foundations.Digits
import Oneiron.Foundations.Fallible

/-!
# Foundations/Slices — byte slices read by index

    get       out of range: refused, the caller sees a value that is none
    index     out of range: a panic
    +         past the word: a panic

A slice is of at most `Slice.maxLen` bytes.  `Quiet` says that a computation does not panic;
`getTo_eq_ok` and its siblings say what one that succeeds has read.
-/

namespace Oneiron

open List Except

variable {α β : Type}

/-- What ends a read: a refusal, or a panic. -/
inductive Stop where
  | refused | panicked
  deriving DecidableEq

namespace Slice

/-- The most bytes a slice holds. -/
def maxLen : ℕ := 2 ^ 63 - 1

/-- `split_first`. -/
def splitFirst : List UInt8 → Except Stop (UInt8 × List UInt8)
  | [] => .error .refused
  | b :: rest => .ok (b, rest)

/-- `get(..n)`. -/
def getTo (n : ℕ) (s : List UInt8) : Except Stop (List UInt8) :=
  if n ≤ s.length then .ok (s.take n) else .error .refused

/-- `get(from..to)`. -/
def getRange (start stop : ℕ) (s : List UInt8) : Except Stop (List UInt8) :=
  if start ≤ stop ∧ stop ≤ s.length then .ok ((s.take stop).drop start) else .error .refused

/-- `[..n]`. -/
def indexTo (n : ℕ) (s : List UInt8) : Except Stop (List UInt8) :=
  if n ≤ s.length then .ok (s.take n) else .error .panicked

/-- `[n..]`. -/
def indexFrom (n : ℕ) (s : List UInt8) : Except Stop (List UInt8) :=
  if n ≤ s.length then .ok (s.drop n) else .error .panicked

/-- `[from..to]`. -/
def indexRange (start stop : ℕ) (s : List UInt8) : Except Stop (List UInt8) :=
  if start ≤ stop ∧ stop ≤ s.length then .ok ((s.take stop).drop start) else .error .panicked

/-- `+` of two indices. -/
def add (a b : ℕ) : Except Stop ℕ := if a + b < 2 ^ 64 then .ok (a + b) else .error .panicked

/-- `checked_add` of two indices. -/
def checkedAdd (a b : ℕ) : Except Stop ℕ := if a + b < 2 ^ 64 then .ok (a + b) else .error .refused

/-- The big-endian number in an array of just the width. -/
def toNumber (width : ℕ) (s : List UInt8) : Except Stop ℕ :=
  if s.length = width then .ok (valueOf s) else .error .refused

/-! ## What a successful read has read -/

variable {n m : ℕ} {s part rest : List UInt8}

theorem splitFirst_eq_ok {b : UInt8} : splitFirst s = .ok (b, rest) ↔ s = b :: rest := by
  cases s with
  | nil => exact ⟨nofun, nofun⟩
  | cons c s => simp [splitFirst]

theorem getTo_eq_ok : getTo n s = .ok part ↔ part.length = n ∧ ∃ rest, s = part ++ rest := by
  unfold getTo
  constructor
  · intro h
    split at h
    · rename_i hle
      obtain rfl := ok.inj h
      exact ⟨length_take_of_le hle, _, (take_append_drop n s).symm⟩
    · cases h
  · rintro ⟨rfl, rest, rfl⟩
    rw [if_pos (by simp), take_left]

theorem indexFrom_eq_ok : indexFrom n s = .ok rest ↔ ∃ part, part.length = n ∧ s = part ++ rest := by
  unfold indexFrom
  constructor
  · intro h
    split at h
    · rename_i hle
      obtain rfl := ok.inj h
      exact ⟨_, length_take_of_le hle, (take_append_drop n s).symm⟩
    · cases h
  · rintro ⟨part, rfl, rfl⟩
    rw [if_pos (by simp), drop_left]

/-- A part read off the front, and what follows it. -/
theorem split_of_getTo (h : getTo n s = .ok part) (h' : indexFrom n s = .ok rest) :
    part.length = n ∧ s = part ++ rest := by
  obtain ⟨hlen, after, rfl⟩ := getTo_eq_ok.mp h
  obtain ⟨front, hlen', heq⟩ := indexFrom_eq_ok.mp h'
  obtain ⟨rfl, rfl⟩ := append_inj heq (hlen.trans hlen'.symm)
  exact ⟨hlen, rfl⟩

theorem getTo_append (h : part.length = n) (rest : List UInt8) : getTo n (part ++ rest) = .ok part :=
  getTo_eq_ok.mpr ⟨h, rest, rfl⟩

theorem indexFrom_append (h : part.length = n) (rest : List UInt8) :
    indexFrom n (part ++ rest) = .ok rest :=
  indexFrom_eq_ok.mpr ⟨part, h, rfl⟩

theorem indexTo_eq_ok : indexTo n s = .ok part ↔ part.length = n ∧ ∃ rest, s = part ++ rest := by
  rw [← getTo_eq_ok]
  unfold indexTo getTo
  split <;> simp

theorem getRange_eq_ok {start stop : ℕ} : getRange start stop s = .ok part ↔
    ∃ before after, s = before ++ part ++ after ∧ before.length = start ∧
      start + part.length = stop := by
  unfold getRange
  constructor
  · intro h
    split at h
    · rename_i hle
      obtain rfl := ok.inj h
      refine ⟨s.take start, s.drop stop, ?_, length_take_of_le (hle.1.trans hle.2), ?_⟩
      · have hsplit : s.take start ++ (s.take stop).drop start = s.take stop := by
          have hboth := take_append_drop start (s.take stop)
          rwa [take_take, min_eq_left hle.1] at hboth
        rw [hsplit, take_append_drop]
      · rw [length_drop, length_take_of_le hle.2]
        omega
    · cases h
  · rintro ⟨before, after, rfl, rfl, rfl⟩
    rw [if_pos (by simp), ← length_append, take_left, drop_left]

theorem indexRange_eq_ok {start stop : ℕ} : indexRange start stop s = .ok part ↔
    ∃ before after, s = before ++ part ++ after ∧ before.length = start ∧
      start + part.length = stop := by
  rw [← getRange_eq_ok]
  unfold indexRange getRange
  split <;> simp

theorem add_eq_ok {k : ℕ} : add n m = .ok k ↔ n + m = k ∧ k < 2 ^ 64 := by
  unfold add
  constructor
  · intro h
    split at h
    · obtain rfl := ok.inj h
      exact ⟨rfl, ‹_›⟩
    · cases h
  · rintro ⟨rfl, hlt⟩
    rw [if_pos hlt]

theorem checkedAdd_eq_ok {k : ℕ} : checkedAdd n m = .ok k ↔ n + m = k ∧ k < 2 ^ 64 := by
  rw [← add_eq_ok]
  unfold checkedAdd add
  split <;> simp

theorem toNumber_eq_ok {width : ℕ} : toNumber width s = .ok n ↔ n < 256 ^ width ∧ s = digits width n := by
  unfold toNumber
  constructor
  · intro h
    split at h
    · rename_i hlen
      obtain rfl := ok.inj h
      subst hlen
      exact ⟨valueOf_lt s, (digits_valueOf s).symm⟩
    · cases h
  · rintro ⟨hlt, rfl⟩
    rw [if_pos (length_digits width n), valueOf_digits hlt]

end Slice

/-! ## Panics -/

/-- The computation does not panic. -/
def Quiet (x : Except Stop α) : Prop := x ≠ .error .panicked

namespace Quiet

variable {x : Except Stop α} {f : α → Except Stop β} {s : List UInt8}

theorem ok (a : α) : Quiet (.ok a : Except Stop α) := nofun

theorem refused : Quiet (.error .refused : Except Stop α) := nofun

theorem bind (h : Quiet x) (hf : ∀ a, x = .ok a → Quiet (f a)) : Quiet (x >>= f) := by
  cases x with
  | error e => exact fun heq => h (by injection heq with he; rw [he])
  | ok a => exact hf a rfl

theorem map {g : α → β} (h : Quiet x) : Quiet (g <$> x) := by
  cases x with
  | error e => exact fun heq => h (by injection heq with he; rw [he])
  | ok a => exact ok _

theorem okOr (o : Option α) : Quiet (okOr o Stop.refused) := by
  cases o <;> exact nofun

theorem ite {p : Prop} [Decidable p] {y : Except Stop α} (h : p → Quiet x) (h' : ¬p → Quiet y) :
    Quiet (if p then x else y) := by
  split
  · exact h ‹_›
  · exact h' ‹_›

theorem splitFirst (s : List UInt8) : Quiet (Slice.splitFirst s) := by
  cases s <;> exact nofun

theorem getTo (n : ℕ) (s : List UInt8) : Quiet (Slice.getTo n s) := ite (fun _ => ok _) fun _ => refused

theorem getRange (start stop : ℕ) (s : List UInt8) : Quiet (Slice.getRange start stop s) :=
  ite (fun _ => ok _) fun _ => refused

theorem toNumber (width : ℕ) (s : List UInt8) : Quiet (Slice.toNumber width s) :=
  ite (fun _ => ok _) fun _ => refused

theorem checkedAdd (a b : ℕ) : Quiet (Slice.checkedAdd a b) := ite (fun _ => ok _) fun _ => refused

theorem indexTo {n : ℕ} (h : n ≤ s.length) : Quiet (Slice.indexTo n s) :=
  ite (fun _ => ok _) fun hn => absurd h hn

theorem indexFrom {n : ℕ} (h : n ≤ s.length) : Quiet (Slice.indexFrom n s) :=
  ite (fun _ => ok _) fun hn => absurd h hn

theorem indexRange {start stop : ℕ} (h : start ≤ stop) (h' : stop ≤ s.length) :
    Quiet (Slice.indexRange start stop s) :=
  ite (fun _ => ok _) fun hn => absurd ⟨h, h'⟩ hn

theorem add {a b : ℕ} (h : a + b < 2 ^ 64) : Quiet (Slice.add a b) :=
  ite (fun _ => ok _) fun hn => absurd h hn

end Quiet

end Oneiron
