import Oneiron.Contracts.Error
import Oneiron.Foundations.Fallible

/-!
# Sync/SyncQueue — the persistent offline queue

Updates are keyed by sequence number (`q:`), a delete-bearing one has a marker beside it (`d:`), and
a counter remembers the last number given (`m:last_update_seq`).  A number is taken one past the
counter, or past the highest row when the counter has fallen behind.

A clear by bound reads in one transaction what it will delete and which counter it will write, and
writes both in another.
-/

open Std

namespace Oneiron

open List

/-! ## Values -/

/-- `MAX_WINDOW_KEY_LEN`. -/
def maxWindowKeyLen : ℕ := 40

def isAsciiDigit (b : UInt8) : Bool := 48 ≤ b && b ≤ 57

/-- The number a string of ASCII digits spells. -/
def ofDecimal (b : Bytes) : ℕ := b.foldl (fun n c => n * 10 + (c.toNat - 48)) 0

/-- `parse_window_label`: `YYYY-MM`, or that with `@` and a world's lowercase hex id. -/
def parseWindowLabel (key : Bytes) : Option (ℕ × ℕ) :=
  let year := ofDecimal (key.take 4)
  let month := ofDecimal ((key.drop 5).take 2)
  if (key.length = 7 ∨ key.length = 40) ∧ key[4]? = some 45 ∧ (key.take 4).all isAsciiDigit ∧
      ((key.drop 5).take 2).all isAsciiDigit ∧
      (key.length = 40 → key[7]? = some 64 ∧
        (key.drop 8).all (fun b => isAsciiDigit b || (97 ≤ b && b ≤ 102)) ∧
        (EntityId.parseHexId (key.drop 8)).isSome) ∧
      1970 ≤ year ∧ 1 ≤ month ∧ month ≤ 12 then
    some (year, month)
  else none

/-- `encode_update_value`: `[window_key_len:1][window_key][encoded_update]`. -/
def encodeUpdateValue (windowKey update : Bytes) : Except Error Bytes :=
  if windowKey = [] ∨ maxWindowKeyLen < windowKey.length ∨ parseWindowLabel windowKey = none then
    .error .invalidKey
  else .ok (windowKey.length.toUInt8 :: (windowKey ++ update))

/-- `decode_update_value_parts`. -/
def decodeUpdateValue : Bytes → Except Error (Bytes × Bytes)
  | [] => .error (.corruptedIndex "sync queue update row")
  | keyLen :: rest =>
    let windowKey := rest.take keyLen.toNat
    if keyLen = 0 ∨ maxWindowKeyLen < keyLen.toNat ∨ rest.length < keyLen.toNat ∨
        isUtf8 windowKey = false ∨ parseWindowLabel windowKey = none then
      .error (.corruptedIndex "sync queue update row")
    else .ok (windowKey, rest.drop keyLen.toNat)

theorem lt_of_isAsciiDigit {b : UInt8} (h : isAsciiDigit b) : b < 0x80 := by
  simp only [isAsciiDigit, Bool.and_eq_true, decide_eq_true_eq, UInt8.le_iff_toNat_le,
    UInt8.lt_iff_toNat_lt, UInt8.reduceToNat] at h ⊢
  omega

/-- A window label is ASCII. -/
theorem ascii_of_parseWindowLabel {key : Bytes} (h : parseWindowLabel key ≠ none) :
    ∀ b ∈ key, b < 0x80 := by
  unfold parseWindowLabel at h
  simp only [ne_eq, ite_eq_right_iff, reduceCtorEq, imp_false, not_not, all_eq_true,
    Bool.or_eq_true, Bool.and_eq_true, decide_eq_true_eq] at h
  obtain ⟨hlen, hdash, hyear, hmonth, hworld, -⟩ := h
  intro b hb
  obtain ⟨i, hi, rfl⟩ := getElem_of_mem hb
  rcases Nat.lt_trichotomy i 4 with h4 | rfl | h4
  · exact lt_of_isAsciiDigit (hyear _ (mem_take_iff_getElem.mpr ⟨i, by omega, rfl⟩))
  · rw [getElem?_eq_getElem hi, Option.some.injEq] at hdash
    rw [hdash]
    decide
  · rcases Nat.lt_trichotomy i 7 with h7 | rfl | h7
    · refine lt_of_isAsciiDigit (hmonth _ (mem_take_iff_getElem.mpr ⟨i - 5, ?_, ?_⟩))
      · rw [length_drop]
        omega
      · rw [getElem_drop]
        congr 1
        omega
    · have h := (hworld (by omega)).1
      rw [getElem?_eq_getElem hi, Option.some.injEq] at h
      rw [h]
      decide
    · have hmem : key[i] ∈ key.drop 8 := by
        refine mem_drop_iff_getElem.mpr ⟨i - 8, by omega, ?_⟩
        congr 1
        omega
      rcases (hworld (by omega)).2.1 _ hmem with h | h
      · exact lt_of_isAsciiDigit h
      · exact UInt8.lt_of_le_of_lt h.2 (by decide)

variable {windowKey update : Bytes}

/-- **What is queued is read back.** -/
theorem decodeUpdateValue_of_encode {value : Bytes}
    (h : encodeUpdateValue windowKey update = .ok value) :
    decodeUpdateValue value = .ok (windowKey, update) := by
  unfold encodeUpdateValue at h
  split_ifs at h with hbad
  obtain rfl := Except.ok.inj h
  push Not at hbad
  have hlen : windowKey.length.toUInt8.toNat = windowKey.length :=
    UInt8.toNat_ofNat_of_lt (show windowKey.length < 256 by
      have := hbad.2.1
      simp only [maxWindowKeyLen] at this
      omega)
  have hne : windowKey.length.toUInt8 ≠ 0 := fun h0 => by
    rw [h0] at hlen
    exact hbad.1 (length_eq_zero_iff.mp hlen.symm)
  have hutf := isUtf8_of_ascii (ascii_of_parseWindowLabel hbad.2.2)
  simp [decodeUpdateValue, hlen, hne, hutf, hbad.2.1, hbad.2.2]

/-! ## The rows -/

/-- The queue's rows. -/
structure QueueRows where
  /-- `q:{seq}`. -/
  updates : OrderedMap ℕ Bytes
  /-- `q:` keys that spell no number. -/
  strays : OrderedSet Bytes
  /-- `d:{seq}`. -/
  markers : OrderedSet ℕ
  /-- `m:last_update_seq`, where it decodes. -/
  lastUpdateSeq : Option ℕ

/-- What a clear by bound decided in its read transaction. -/
structure ClearPlan where
  confirmed : Bool
  doomed : List ℕ
  doomedMarkers : List ℕ
  /-- The counter its write transaction will leave. -/
  preserved : ℕ

namespace QueueRows

variable (rows : QueueRows)

/-- `max_valid_update_seq_in_txn`: the highest number a row or a marker has. -/
def maxValidUpdateSeq : ℕ := (rows.updates.keys ++ rows.markers.toList).foldl max 0

/-- `ensure_last_update_seq_metadata_in_txn`: a counter that is missing or behind is repaired. -/
def ensureLastUpdateSeq : QueueRows :=
  { rows with
    lastUpdateSeq := some <| match rows.lastUpdateSeq with
      | some seq => if rows.maxValidUpdateSeq ≤ seq then seq else rows.maxValidUpdateSeq
      | none => rows.maxValidUpdateSeq }

/-- The counter as it reads; a missing one is none at all. -/
def counter : ℕ := rows.lastUpdateSeq.getD 0

/-- `allocate_next_update_seq_in_txn`. -/
def allocateNextUpdateSeq : Except Error (ℕ × QueueRows) := do
  let ensured := rows.ensureLastUpdateSeq
  let next := ensured.counter + 1
  ensure (next < 2 ^ 64) (.arithmeticOverflow "sync queue sequence")
  ensure (next ∉ rows.updates) (.corruptedIndex "sync queue metadata")
  pure (next, { ensured with lastUpdateSeq := some next })

/-- `push_for`, and with its marker `push_delete_bearing_in_txn`. -/
def push (windowKey update : Bytes) (deleteBearing : Bool) : Except Error (ℕ × QueueRows) := do
  let value ← encodeUpdateValue windowKey update
  let (seq, rows) ← rows.allocateNextUpdateSeq
  pure (seq, { rows with
    updates := rows.updates.insert seq value
    markers := if deleteBearing then rows.markers.insert seq else rows.markers })

/-- The rows without some updates and some markers. -/
def without (updates markers : List ℕ) : QueueRows :=
  { rows with
    updates := rows.updates.filter fun seq _ => seq ∉ updates
    markers := rows.markers.filter fun seq => seq ∉ markers }

/-- The read half of `clear_through_inner`. -/
def clearThroughRead (maxSeq : ℕ) (includeDeleteBearing : Bool) : ClearPlan :=
  let goes (seq : ℕ) : Bool := seq ≤ maxSeq && (includeDeleteBearing || seq ∉ rows.markers)
  let doomed := rows.updates.keys.filter goes
  let remainingMaxSeq := (rows.updates.keys.filter fun seq => !goes seq).foldl max 0
  ⟨includeDeleteBearing, doomed, doomed.filter (· ∈ rows.markers),
    max (max rows.counter remainingMaxSeq) maxSeq⟩

/-- Its write half. -/
def clearThroughWrite (plan : ClearPlan) : QueueRows :=
  { rows.without plan.doomed plan.doomedMarkers with lastUpdateSeq := some plan.preserved }

/-- The updates no marker keeps. -/
def unmarked : List ℕ := rows.updates.keys.filter (· ∉ rows.markers)

/-- `clear_updates`. -/
def clearUpdates : QueueRows :=
  { rows.ensureLastUpdateSeq.without rows.unmarked [] with strays := ∅ }

/-- `clear_all`. -/
def clearAll : QueueRows :=
  { rows.without rows.unmarked [] with
    strays := ∅
    lastUpdateSeq := some (max rows.counter rows.maxValidUpdateSeq) }

/-- `retire_confirmed`. -/
def retireConfirmed (seqs : List ℕ) : QueueRows := rows.ensureLastUpdateSeq.without seqs seqs

/-- Whether a row is still malformed when the prune's own transaction reads it. -/
def isMalformed (seq : ℕ) : Bool :=
  rows.updates[seq]?.any fun value => (decodeUpdateValue value).toOption.isNone

/-- `prune_malformed_rows`, of any rows a drain or a clear found malformed before. -/
def pruneMalformedRows (seqs : List ℕ) (strays : List Bytes) : QueueRows :=
  let gone := seqs.filter rows.isMalformed
  { rows.without gone gone with strays := rows.strays.filter (· ∉ strays) }

/-- `drain_updates`: what decodes, in order of number. -/
def drainUpdates : List (ℕ × Bytes × Bytes) :=
  rows.updates.toList.filterMap fun (seq, value) =>
    (decodeUpdateValue value).toOption.map fun parts => (seq, parts)

/-! ## Rows and the counter -/

variable {rows} {seq n : ℕ}

theorem le_foldl_max {l : List ℕ} : ∀ {m : ℕ}, (∀ a ∈ l, a ≤ l.foldl max m) ∧ m ≤ l.foldl max m := by
  induction l with
  | nil => exact fun {m} => ⟨nofun, le_rfl⟩
  | cons a rest ih =>
    intro m
    obtain ⟨hrest, hm⟩ := ih (m := max m a)
    rw [forall_mem_cons]
    exact ⟨⟨(le_max_right m a).trans hm, hrest⟩, (le_max_left m a).trans hm⟩

variable {updates markers : List ℕ}

theorem getElem?_without : (rows.without updates markers).updates[seq]? =
      if seq ∈ updates then none else rows.updates[seq]? := by
  rw [without, ExtTreeMap.getElem?_filter']
  by_cases h : seq ∈ updates <;> cases rows.updates[seq]? <;> simp [h]

@[simp] theorem mem_updates_without :
    seq ∈ (rows.without updates markers).updates ↔ seq ∈ rows.updates ∧ seq ∉ updates := by
  simp [without, ExtTreeMap.mem_filter]

@[simp] theorem mem_markers_without :
    seq ∈ (rows.without updates markers).markers ↔ seq ∈ rows.markers ∧ seq ∉ markers := by
  simp [without, ExtTreeSet.mem_filter]

theorem le_maxValidUpdateSeq (h : seq ∈ rows.updates) : seq ≤ rows.maxValidUpdateSeq :=
  le_foldl_max.1 seq (mem_append_left _ (ExtTreeMap.mem_keys.mpr h))

/-- **Repairing the counter** takes it past every row and every marker, and never back. -/
@[simp] theorem counter_ensureLastUpdateSeq :
    rows.ensureLastUpdateSeq.counter = max rows.counter rows.maxValidUpdateSeq := by
  simp only [ensureLastUpdateSeq, counter]
  cases rows.lastUpdateSeq with
  | none => simp
  | some seq =>
    simp only [Option.getD_some]
    split
    · next h => exact (max_eq_left h).symm
    · next h => exact (max_eq_right (Nat.le_of_not_le h)).symm

/-- What a push that succeeds does. -/
theorem push_eq_ok {deleteBearing : Bool} {rows' : QueueRows}
    (h : rows.push windowKey update deleteBearing = .ok (seq, rows')) :
    ∃ value, encodeUpdateValue windowKey update = .ok value ∧
      seq = max rows.counter rows.maxValidUpdateSeq + 1 ∧
      rows' = { rows with
        updates := rows.updates.insert seq value
        markers := if deleteBearing then rows.markers.insert seq else rows.markers
        lastUpdateSeq := some seq } := by
  simp only [push, allocateNextUpdateSeq, bind_eq_ok, pure_eq_ok, ensure_eq_ok,
    counter_ensureLastUpdateSeq] at h
  obtain ⟨value, hvalue, ⟨next, allocated⟩, ⟨⟨⟩, -, ⟨⟩, -, hpair⟩, hrows⟩ := h
  obtain ⟨rfl, rfl⟩ := Prod.mk.inj hpair
  obtain ⟨rfl, rfl⟩ := Prod.mk.inj hrows
  exact ⟨value, hvalue, rfl, rfl⟩

end QueueRows

end Oneiron
