import Mathlib.Data.UInt
import Oneiron.Contracts.Bytes

/-!
# Store/RollingPrefilter — the rolling values a scan of a text is filtered by

    state   Σ (xᵢ + offset) base^(w-1-i)         value   the high half of state · mix
    hits    bit n: the n-th window length fits here, and its set holds the value of the window

Every step is arithmetic mod 2³².  A lane's state is that of its window as long as the window fits
(`RollingScan.At`), whichever offsets were read; where it no longer fits, no longer window does, and
the scan stops before them both when it steps and when it reads.
-/

namespace Oneiron

open Nat

open UInt32.CommRing

/-! ## The key -/

/-- `RollingKey`. -/
structure RollingKey where
  base : UInt32
  offset : UInt32
  mix : UInt32

namespace RollingKey

variable (key : RollingKey)

def term (byte : UInt8) : UInt32 := byte.toUInt32 + key.offset

def state (window : Bytes) : UInt32 :=
  window.foldl (fun state byte => state * key.base + key.term byte) 0

/-- The high half of `state * mix`. -/
def fold (state : UInt32) : UInt16 := ((state * key.mix) >>> 16).toUInt16

def value (window : Bytes) : UInt16 := key.fold (key.state window)

def leaving (window : ℕ) : UInt32 := (List.range window).foldl (fun power _ => power * key.base) 1

theorem state_eq (window : Bytes) : key.state window = horner key.base (window.map key.term) := by
  rw [state, horner, hornerFrom, List.foldl_map]

theorem leaving_eq (window : ℕ) : key.leaving window = key.base ^ window := by
  induction window with
  | zero => rfl
  | succ window ih =>
    rw [leaving, List.range_succ, List.foldl_concat, pow_succ]
    exact congrArg (· * key.base) ih

/-- **A window's state rolls** one byte on. -/
theorem state_roll {out entering : UInt8} {window next : Bytes}
    (h : window ++ [entering] = out :: next) :
    key.state next = key.state window * key.base - key.term out * key.leaving next.length +
      key.term entering := by
  have hterms : window.map key.term ++ [key.term entering] = key.term out :: next.map key.term := by
    simpa using congrArg (List.map key.term) h
  rw [state_eq, state_eq, leaving_eq, horner_roll key.base hterms, List.length_map]

end RollingKey

/-! ## The sets -/

/-- `RollingSet`: the values of one window length, as 65,536 bits. -/
structure RollingSet where
  words : Vector UInt64 1024

variable (entries : List (ℕ × UInt16)) (w : ℕ) (v : UInt16)

namespace RollingSet

def new : RollingSet := ⟨Vector.replicate 1024 0⟩

/-- The word a value's bit is in. -/
def word (value : UInt16) : Fin 1024 := ⟨value.toNat >>> 6, by
  rw [shiftRight_eq_div_pow]
  have := value.toNat_lt
  omega⟩

/-- A value's bit in its word. -/
def bit (value : UInt16) : UInt64 := (value.toNat &&& 63).toUInt64

def insert (set : RollingSet) (value : UInt16) : RollingSet :=
  ⟨set.words.set (word value) (set.words[word value] ||| (1 <<< bit value))⟩

def contains (set : RollingSet) (value : UInt16) : Bool :=
  (set.words[word value] >>> bit value) &&& 1 ≠ 0

variable (value : UInt16) (set : RollingSet)

theorem toNat_bit : (bit value).toNat = value.toNat % 64 := by
  have hand : value.toNat &&& 63 = value.toNat % 64 := and_two_pow_sub_one_eq_mod value.toNat 6
  rw [bit, hand]
  exact mod_eq_of_lt (by omega)

theorem contains_iff (value : UInt16) :
    set.contains value ↔ (set.words[word value]).toNat.testBit (value.toNat % 64) := by
  have hbit : (bit value).toNat % 64 = value.toNat % 64 := by rw [toNat_bit, mod_mod]
  rw [contains, decide_eq_true_eq, testBit_eq_decide_div_mod_eq, decide_eq_true_eq, Ne,
    ← UInt64.toNat_inj, UInt64.toNat_and, UInt64.toNat_shiftRight, hbit,
    shiftRight_eq_div_pow]
  show ¬ _ &&& 1 = 0 ↔ _
  rw [and_one_is_mod]
  omega

theorem eq_of_word_bit {v w : UInt16} (hword : word v = word w) (hbit : v.toNat % 64 = w.toNat % 64) :
    v = w := by
  have hdiv : v.toNat / 64 = w.toNat / 64 := by
    simpa [word, shiftRight_eq_div_pow] using congrArg Fin.val hword
  exact UInt16.toNat_inj.mp (by omega)

/-- **A set holds** what was inserted, and what it held. -/
theorem contains_insert (w : UInt16) : (set.insert v).contains w ↔ w = v ∨ set.contains w := by
  rw [contains_iff, contains_iff, insert]
  by_cases hword : word v = word w
  · have hself : (set.words.set (word v) (set.words[word v] ||| (1 <<< bit v)))[word w] =
        set.words[word w] ||| (1 <<< bit v) := by
      simp [← hword]
    have hone : (1 <<< bit v : UInt64).toNat = 2 ^ (v.toNat % 64) := by
      rw [UInt64.toNat_shiftLeft, toNat_bit, mod_mod, UInt64.toNat_one, one_shiftLeft]
      exact mod_eq_of_lt (Nat.pow_lt_pow_right (by omega) (mod_lt _ (by omega)))
    rw [hself, UInt64.toNat_or, hone, testBit_or, testBit_two_pow, Bool.or_eq_true,
      decide_eq_true_eq, or_comm]
    refine or_congr_left ⟨fun hbit => (eq_of_word_bit hword hbit).symm, ?_⟩
    rintro rfl
    rfl
  · have hother : (set.words.set (word v) (set.words[word v] ||| (1 <<< bit v)))[word w] =
        set.words[word w] :=
      Vector.getElem_set_ne _ _ fun heq => hword (Fin.ext heq)
    rw [hother, or_iff_right]
    rintro rfl
    exact hword rfl

theorem not_contains_new : new.contains value = false := by
  rw [Bool.eq_false_iff, Ne, contains_iff]
  simp [new]

end RollingSet

/-! ## The sets of an index -/

/-- The lengths with one more entry, ascending still. -/
def insertEntry (window : ℕ) (value : UInt16) : List (ℕ × RollingSet) → List (ℕ × RollingSet)
  | [] => [(window, RollingSet.new.insert value)]
  | (held, set) :: rest =>
    if held < window then (held, set) :: insertEntry window value rest
    else if held = window then (held, set.insert value) :: rest
    else (window, RollingSet.new.insert value) :: (held, set) :: rest

theorem mem_windows_insertEntry (window : ℕ) (value : UInt16) :
    ∀ (sets : List (ℕ × RollingSet)) (w : ℕ),
      w ∈ (insertEntry window value sets).map Prod.fst ↔ w = window ∨ w ∈ sets.map Prod.fst
  | [], w => by simp [insertEntry]
  | (held, set) :: rest, w => by
    have ih := mem_windows_insertEntry window value rest w
    rw [insertEntry]
    split
    · rw [List.map_cons, List.mem_cons, ih, List.map_cons, List.mem_cons]
      exact or_left_comm
    · split
      · next heq => simp [heq]
      · simp

theorem pairwise_insertEntry (window : ℕ) (value : UInt16) :
    ∀ {sets : List (ℕ × RollingSet)}, (sets.map Prod.fst).Pairwise (· < ·) →
      ((insertEntry window value sets).map Prod.fst).Pairwise (· < ·)
  | [], _ => List.pairwise_singleton ..
  | (held, set) :: rest, h => by
    obtain ⟨hheld, hrest⟩ := List.pairwise_cons.mp h
    rw [insertEntry]
    split
    · next hlt =>
      refine List.pairwise_cons.mpr ⟨fun w hw => ?_, pairwise_insertEntry window value hrest⟩
      rcases (mem_windows_insertEntry window value rest w).mp hw with rfl | hw
      · exact hlt
      · exact hheld w hw
    · split
      · exact h
      · next hnlt hne =>
        refine List.pairwise_cons.mpr ⟨fun w hw => ?_, h⟩
        have hle : held ≤ w := by
          rcases List.mem_cons.mp hw with heq | hw
          · exact heq.ge
          · exact (hheld w hw).le
        omega

/-- `RollingSets`: each window length some entry has, ascending, with its entries' values. -/
structure RollingSets where
  sets : List (ℕ × RollingSet)
  ascending : (sets.map Prod.fst).Pairwise (· < ·)

namespace RollingSets

def empty : RollingSets := ⟨[], List.Pairwise.nil⟩

/-- `RollingSets::insert`: the set of a length is found, or put in, by binary search. -/
def insert (s : RollingSets) (window : ℕ) (value : UInt16) : RollingSets :=
  ⟨insertEntry window value s.sets, pairwise_insertEntry window value s.ascending⟩

def windows (s : RollingSets) : List ℕ := s.sets.map Prod.fst

/-- The sets after a list of entries. -/
def ofEntries (entries : List (ℕ × UInt16)) : RollingSets :=
  entries.foldl (fun s entry => s.insert entry.1 entry.2) empty

end RollingSets

/-- The set of a length holds a value. -/
def SetsHold (sets : List (ℕ × RollingSet)) (window : ℕ) (value : UInt16) : Prop :=
  ∃ set, (window, set) ∈ sets ∧ set.contains value

theorem not_setsHold_nil : ¬ SetsHold [] w v := fun ⟨_, h, _⟩ => nomatch h

theorem setsHold_cons (held : ℕ) (set : RollingSet) (rest : List (ℕ × RollingSet)) (w : ℕ) (v : UInt16) :
    SetsHold ((held, set) :: rest) w v ↔ (w = held ∧ set.contains v) ∨ SetsHold rest w v := by
  simp only [SetsHold, List.mem_cons, Prod.mk.injEq, or_and_right, exists_or, and_assoc]
  refine or_congr_left ⟨?_, fun ⟨hw, hv⟩ => ⟨set, hw, rfl, hv⟩⟩
  rintro ⟨_, hw, rfl, hv⟩
  exact ⟨hw, hv⟩

theorem contains_insert_new (w : UInt16) : (RollingSet.new.insert v).contains w ↔ w = v := by
  rw [RollingSet.contains_insert, RollingSet.not_contains_new]
  exact or_iff_left Bool.false_ne_true

/-- **An entry is held** beside what was. -/
theorem setsHold_insertEntry (window : ℕ) (value : UInt16) (w : ℕ) (v : UInt16) :
    ∀ sets : List (ℕ × RollingSet),
      SetsHold (insertEntry window value sets) w v ↔ (w = window ∧ v = value) ∨ SetsHold sets w v
  | [] => by rw [insertEntry, setsHold_cons, contains_insert_new]
  | (held, set) :: rest => by
    rw [insertEntry]
    split
    · rw [setsHold_cons, setsHold_cons, setsHold_insertEntry window value w v rest]
      exact or_left_comm
    · split
      · next heq =>
        rw [setsHold_cons, setsHold_cons, RollingSet.contains_insert, heq, and_or_left, or_assoc]
      · rw [setsHold_cons, contains_insert_new]

theorem setsHold_foldl (s : RollingSets) :
    SetsHold (entries.foldl (fun s entry => s.insert entry.1 entry.2) s).sets w v ↔
      (w, v) ∈ entries ∨ SetsHold s.sets w v := by
  induction entries generalizing s with
  | nil => simp
  | cons entry entries ih =>
    rw [List.foldl_cons, ih, RollingSets.insert, setsHold_insertEntry, List.mem_cons, Prod.ext_iff]
    exact or_left_comm.trans or_assoc.symm

theorem setsHold_ofEntries : SetsHold (RollingSets.ofEntries entries).sets w v ↔ (w, v) ∈ entries :=
  (setsHold_foldl entries w v .empty).trans (or_iff_left (not_setsHold_nil w v))

/-! ## The scan -/

/-- `Lane`: one window length's state over a text. -/
structure Lane where
  window : ℕ
  leaving : UInt32
  state : UInt32
  set : RollingSet

/-- `RollingScan`: the states of every window length at one offset of a text. -/
structure RollingScan where
  key : RollingKey
  data : Bytes
  /-- The offset every lane's state is at. -/
  offset : ℕ
  lanes : List Lane

namespace RollingScan

/-- A scan of a text from its start; a window longer than the text is never read. -/
def new (key : RollingKey) (sets : RollingSets) (data : Bytes) : RollingScan where
  key
  data
  offset := 0
  lanes := sets.sets.map fun (window, set) => {
    window
    leaving := key.leaving window
    state := if window ≤ data.length then key.state (data.take window) else 0
    set }

/-- The lanes one byte on, up to the first that no longer fits. -/
def stepLanes (key : RollingKey) (data : Bytes) (offset : ℕ) : List Lane → List Lane
  | [] => []
  | lane :: lanes =>
    match data[offset + lane.window]? with
    | none => lane :: lanes
    | some entering =>
      { lane with
        state := lane.state * key.base - key.term data[offset]! * lane.leaving + key.term entering } ::
        stepLanes key data offset lanes

def step (scan : RollingScan) : RollingScan :=
  { scan with
    lanes := stepLanes scan.key scan.data scan.offset scan.lanes
    offset := scan.offset + 1 }

/-- The steps up to an offset. -/
def catchUp (scan : RollingScan) (offset : ℕ) : RollingScan :=
  if scan.offset < offset then scan.step.catchUp offset else scan
termination_by offset - scan.offset
decreasing_by
  show offset - (scan.offset + 1) < offset - scan.offset
  omega

/-- The lanes from the n-th on whose set holds their value, up to the first that no longer fits. -/
def readLanes (scan : RollingScan) : ℕ → UInt32 → List Lane → UInt32
  | _, hits, [] => hits
  | laneAt, hits, lane :: lanes =>
    if scan.offset + lane.window > scan.data.length then hits
    else scan.readLanes (laneAt + 1)
      (if lane.set.contains (scan.key.fold lane.state) then hits ||| (1 <<< laneAt.toUInt32) else hits)
      lanes

/-- `RollingScan::hits`. -/
def hits (scan : RollingScan) (offset : ℕ) : UInt32 × RollingScan :=
  let scan := scan.catchUp offset
  (scan.readLanes 0 0 scan.lanes, scan)

/-- The hits at one offset after another. -/
def run (scan : RollingScan) : List ℕ → List UInt32
  | [] => []
  | offset :: offsets =>
    let (hits, scan) := scan.hits offset
    hits :: scan.run offsets

end RollingScan

end Oneiron
