import Oneiron.Store.RollingPrefilter

/-!
# Store/RollingPrefilterSafety — a scan hits what the index holds

The lanes ascend, so the first that no longer fits the text is followed by none that does: a step
leaves every lane that still fits with the state of its window (`Tracks.step`), and a read gives each
of them its bit (`testBit_readLanes`).
-/

namespace Oneiron

open UInt32.CommRing RollingSets

/-- The window of a length at an offset. -/
def windowAt (data : Bytes) (offset window : ℕ) : Bytes := (data.drop offset).take window

variable {data : Bytes} {offset window : ℕ} (entries : List (ℕ × UInt16))

theorem length_windowAt (h : offset + window ≤ data.length) :
    (windowAt data offset window).length = window := by
  rw [windowAt, List.length_take, List.length_drop]
  omega

/-- A window and the byte past it are the byte before the next window and that window. -/
theorem windowAt_succ {entering : UInt8} (h : data[offset + window]? = some entering) :
    windowAt data offset window ++ [entering] = data[offset]! :: windowAt data (offset + 1) window := by
  have hlt : offset < data.length := by
    have := (List.getElem?_eq_some_iff.mp h).1
    omega
  have hlast : (data.drop offset)[window]? = some entering := by rw [List.getElem?_drop, h]
  have htake := List.take_add_one (l := data.drop offset) (i := window)
  rw [hlast, List.drop_eq_getElem_cons hlt, List.take_succ_cons] at htake
  rw [windowAt, windowAt, getElem!_pos data offset hlt, htake, List.drop_eq_getElem_cons hlt]
  rfl

namespace RollingScan

variable {key : RollingKey} {data : Bytes} {offset : ℕ}

/-- A lane is at an offset: while its window fits, its state is the window's. -/
structure LaneAt (key : RollingKey) (data : Bytes) (offset : ℕ) (lane : Lane)
    (entry : ℕ × RollingSet) : Prop where
  window : lane.window = entry.1
  set : lane.set = entry.2
  leaving : lane.leaving = key.leaving entry.1
  state : offset + entry.1 ≤ data.length → lane.state = key.state (windowAt data offset entry.1)

/-- The lanes are at an offset, those of the sets' lengths in their order. -/
def LanesAt (key : RollingKey) (data : Bytes) (offset : ℕ) : List Lane → List (ℕ × RollingSet) → Prop :=
  List.Forall₂ (LaneAt key data offset)

variable {entry : ℕ × RollingSet} {lanes : List Lane} {n : ℕ}

/-- A lane that does not fit here does not fit one byte on. -/
theorem LaneAt.past {lane : Lane} (h : LaneAt key data offset lane entry)
    (hpast : data.length ≤ offset + entry.1) : LaneAt key data (offset + 1) lane entry where
  window := h.window
  set := h.set
  leaving := h.leaving
  state hfits := by omega

theorem LanesAt.past {sets : List (ℕ × RollingSet)} (h : LanesAt key data offset lanes sets)
    (hpast : ∀ entry ∈ sets, data.length ≤ offset + entry.1) :
    LanesAt key data (offset + 1) lanes sets := by
  induction h with
  | nil => exact .nil
  | cons hlane _ ih =>
    exact .cons (hlane.past (hpast _ List.mem_cons_self)) (ih fun entry hentry =>
      hpast entry (List.mem_cons_of_mem _ hentry))

/-- No longer window fits where one does not. -/
theorem le_of_ascending {sets : List (ℕ × RollingSet)} {bound : ℕ}
    (hascending : ((entry :: sets).map Prod.fst).Pairwise (· < ·))
    (hpast : bound ≤ offset + entry.1) : ∀ other ∈ sets, bound ≤ offset + other.1 := by
  intro other hother
  have := (List.pairwise_cons.mp hascending).1 other.1 (List.mem_map_of_mem hother)
  omega

/-- **A step rolls every lane that still fits**, and leaves no other to read. -/
theorem LanesAt.step {lanes : List Lane} {sets : List (ℕ × RollingSet)}
    (h : LanesAt key data offset lanes sets) (hascending : (sets.map Prod.fst).Pairwise (· < ·)) :
    LanesAt key data (offset + 1) (stepLanes key data offset lanes) sets := by
  induction h with
  | nil => exact .nil
  | @cons lane entry lanes sets hlane hlanes ih =>
    rw [stepLanes]
    split
    · next hnone =>
      rw [List.getElem?_eq_none_iff, hlane.window] at hnone
      exact .cons (hlane.past hnone) (LanesAt.past hlanes (le_of_ascending hascending hnone))
    · next entering hentering =>
      rw [hlane.window] at hentering
      have hfits : offset + entry.1 ≤ data.length := (List.getElem?_eq_some_iff.mp hentering).1.le
      refine .cons ⟨hlane.window, hlane.set, hlane.leaving, fun hfits' => ?_⟩
        (ih (List.pairwise_cons.mp hascending).2)
      rw [key.state_roll (windowAt_succ hentering), length_windowAt hfits', hlane.leaving,
        hlane.state hfits]

/-- The n-th set from one on holds the value of its window, which fits. -/
def Hit (key : RollingKey) (data : Bytes) (offset : ℕ) (sets : List (ℕ × RollingSet)) (n : ℕ) : Prop :=
  ∃ entry, sets[n]? = some entry ∧ offset + entry.1 ≤ data.length ∧
    entry.2.contains (key.value (windowAt data offset entry.1))

theorem hit_cons_zero (entry : ℕ × RollingSet) (sets : List (ℕ × RollingSet)) :
    Hit key data offset (entry :: sets) 0 ↔ offset + entry.1 ≤ data.length ∧
      entry.2.contains (key.value (windowAt data offset entry.1)) := by
  simp [Hit]

theorem hit_cons_succ (entry : ℕ × RollingSet) (sets : List (ℕ × RollingSet)) (n : ℕ) :
    Hit key data offset (entry :: sets) (n + 1) ↔ Hit key data offset sets n := by
  simp [Hit]

theorem testBit_or_one {hits : UInt32} {k : ℕ} (hk : k < 32) :
    (hits ||| (1 <<< k.toUInt32)).toNat.testBit n ↔ hits.toNat.testBit n ∨ n = k := by
  have hone : ((1 : UInt32) <<< k.toUInt32).toNat = 2 ^ k := by
    have hmod : k.toUInt32.toNat % 32 = k := by
      show k % 2 ^ 32 % 32 = k
      omega
    rw [UInt32.toNat_shiftLeft, hmod, UInt32.toNat_one, Nat.one_shiftLeft]
    exact Nat.mod_eq_of_lt (Nat.pow_lt_pow_right (by omega) hk)
  rw [UInt32.toNat_or, hone, Nat.testBit_or, Nat.testBit_two_pow, Bool.or_eq_true, decide_eq_true_eq,
    eq_comm (a := k)]

theorem hit_cons {sets : List (ℕ × RollingSet)} {k : ℕ} (hfits : offset + entry.1 ≤ data.length) :
    (k ≤ n ∧ Hit key data offset (entry :: sets) (n - k)) ↔
      (n = k ∧ entry.2.contains (key.value (windowAt data offset entry.1))) ∨
        k + 1 ≤ n ∧ Hit key data offset sets (n - (k + 1)) := by
  rcases lt_trichotomy n k with hlt | rfl | hlt
  · omega
  · simp [hit_cons_zero, hfits]
  · obtain ⟨m, rfl⟩ := Nat.exists_eq_add_of_lt hlt
    have hsub : k + m + 1 - k = m + 1 := by omega
    have hsub' : k + m + 1 - (k + 1) = m := by omega
    rw [hsub, hsub', hit_cons_succ]
    constructor
    · exact fun h => Or.inr ⟨by omega, h.2⟩
    · rintro (⟨heq, -⟩ | h)
      · omega
      · exact ⟨by omega, h.2⟩

/-- **A read gives each lane that hits its bit**, and stops past the last that fits. -/
theorem testBit_readLanes {scan : RollingScan} {sets : List (ℕ × RollingSet)}
    (h : LanesAt scan.key scan.data scan.offset lanes sets)
    (hascending : (sets.map Prod.fst).Pairwise (· < ·)) (k : ℕ) (hcount : k + sets.length ≤ 32)
    (hits : UInt32) (n : ℕ) : (scan.readLanes k hits lanes).toNat.testBit n ↔
      hits.toNat.testBit n ∨ k ≤ n ∧ Hit scan.key scan.data scan.offset sets (n - k) := by
  induction h generalizing k hits with
  | nil => simp [readLanes, Hit]
  | @cons lane entry lanes sets hlane hlanes ih =>
    rw [readLanes]
    split
    · next hlong =>
      rw [hlane.window] at hlong
      refine (or_iff_left ?_).symm
      rintro ⟨-, other, hother, hfits, -⟩
      rcases List.mem_cons.mp (List.mem_of_getElem? hother) with rfl | hother
      · omega
      · have := le_of_ascending hascending (Nat.succ_le_of_lt hlong) other hother
        omega
    · next hfits =>
      rw [hlane.window, not_lt] at hfits
      rw [List.length_cons] at hcount
      rw [ih (List.pairwise_cons.mp hascending).2 (k + 1) (by omega), hlane.set, hlane.state hfits,
        hit_cons hfits, ← or_assoc]
      refine or_congr_left ?_
      change (if entry.2.contains (scan.key.value _) then _ else _ : UInt32).toNat.testBit n ↔ _
      split
      · next hheld => rw [testBit_or_one (by omega), and_iff_left hheld]
      · next hnot => rw [or_iff_left fun h => hnot h.2]

/-! ## A run of reads -/

/-- A scan of a text by the sets of an index, at some offset of it. -/
structure Scans (key : RollingKey) (sets : RollingSets) (data : Bytes) (scan : RollingScan) : Prop where
  key_eq : scan.key = key
  data_eq : scan.data = data
  lanes : LanesAt key data scan.offset scan.lanes sets.sets

variable {sets : RollingSets} {scan : RollingScan}

theorem Scans.start : Scans key sets data (.new key sets data) where
  key_eq := rfl
  data_eq := rfl
  lanes := List.forall₂_map_left_iff.mpr (List.forall₂_same.mpr fun (window, set) _ => {
    window := rfl
    set := rfl
    leaving := rfl
    state := fun hfits => (if_pos (by omega)).trans rfl })

theorem Scans.step (h : Scans key sets data scan) : Scans key sets data scan.step where
  key_eq := h.key_eq
  data_eq := h.data_eq
  lanes := by
    have hlanes := h.lanes.step sets.ascending
    rwa [← h.key_eq, ← h.data_eq] at hlanes ⊢

/-- **A scan catches up** with any offset ahead. -/
theorem Scans.catchUp (h : Scans key sets data scan) (hoffset : scan.offset ≤ offset) :
    Scans key sets data (scan.catchUp offset) ∧ (scan.catchUp offset).offset = offset := by
  induction scan using RollingScan.catchUp.induct offset with
  | case1 scan hlt ih =>
    rw [RollingScan.catchUp, if_pos hlt]
    exact ih h.step hlt
  | case2 scan hnlt =>
    rw [RollingScan.catchUp, if_neg hnlt]
    exact ⟨h, by omega⟩

theorem Scans.testBit (h : Scans key sets data scan) (hcount : sets.sets.length ≤ 32) (n : ℕ) :
    (scan.readLanes 0 0 scan.lanes).toNat.testBit n ↔ Hit key data scan.offset sets.sets n := by
  have hlanes := h.lanes
  rw [← h.key_eq, ← h.data_eq] at hlanes ⊢
  rw [testBit_readLanes hlanes sets.ascending 0 (by omega)]
  simp

/-- **Each read of a run is exact**, whichever offsets it skipped. -/
theorem Scans.run (h : Scans key sets data scan) (hcount : sets.sets.length ≤ 32) {offsets : List ℕ}
    (hpairs : offsets.Pairwise (· ≤ ·)) (hahead : ∀ offset ∈ offsets, scan.offset ≤ offset) :
    List.Forall₂ (fun offset (hits : UInt32) => ∀ n, hits.toNat.testBit n ↔
      Hit key data offset sets.sets n) offsets (scan.run offsets) := by
  induction offsets generalizing scan with
  | nil => exact .nil
  | cons offset offsets ih =>
    obtain ⟨hle, hpairs⟩ := List.pairwise_cons.mp hpairs
    obtain ⟨hscans, hoffset⟩ := h.catchUp (hahead offset List.mem_cons_self)
    refine .cons (fun n => ?_) (ih hscans hpairs fun other hother => ?_)
    · have hbit := hscans.testBit hcount n
      rwa [hoffset] at hbit
    · rw [hoffset]
      exact hle other hother

/-- A length's bit is that of its set. -/
theorem hit_iff : Hit key data offset sets.sets n ↔ ∃ window,
    sets.windows[n]? = some window ∧ offset + window ≤ data.length ∧
      SetsHold sets.sets window (key.value (windowAt data offset window)) := by
  have hnodup : (sets.sets.map Prod.fst).Nodup := sets.ascending.imp Nat.ne_of_lt
  constructor
  · rintro ⟨⟨window, set⟩, hentry, hfits, hheld⟩
    exact ⟨window, by simp [windows, hentry], hfits, set, List.mem_of_getElem? hentry, hheld⟩
  · rintro ⟨window, hwindow, hfits, set, hset, hheld⟩
    obtain ⟨entry, hentry, rfl⟩ : ∃ entry, sets.sets[n]? = some entry ∧ entry.1 = window := by
      simpa [windows] using hwindow
    have heq := List.inj_on_of_nodup_map hnodup hset (List.mem_of_getElem? hentry) rfl
    exact ⟨entry, hentry, hfits, heq ▸ hheld⟩

end RollingScan

theorem mem_windows_ofEntries (w : ℕ) :
    w ∈ (ofEntries entries).windows ↔ w ∈ entries.map Prod.fst := by
  have hfold (s : RollingSets) : w ∈ (entries.foldl (fun s entry => s.insert entry.1 entry.2) s).windows ↔
      w ∈ entries.map Prod.fst ∨ w ∈ s.windows := by
    induction entries generalizing s with
    | nil => simp
    | cons entry entries ih =>
      rw [List.foldl_cons, ih, RollingSets.windows, RollingSets.insert, mem_windows_insertEntry,
        List.map_cons, List.mem_cons]
      exact or_left_comm.trans or_assoc.symm
  exact (hfold .empty).trans (or_iff_left List.not_mem_nil)

/-- The distinct window lengths of entries. -/
theorem length_windows_ofEntries :
    (ofEntries entries).sets.length = (entries.map Prod.fst).toFinset.card := by
  have hnodup : (ofEntries entries).windows.Nodup :=
    (ofEntries entries).ascending.imp Nat.ne_of_lt
  have hsame : (ofEntries entries).windows.toFinset = (entries.map Prod.fst).toFinset := by
    ext w
    rw [List.mem_toFinset, List.mem_toFinset, mem_windows_ofEntries]
  rw [← hsame, List.toFinset_card_of_nodup hnodup, windows, List.length_map]

/-- **The prefilter misses nothing.**  Read at ascending offsets, a scan has the bit of a window length
set exactly where the window fits and an entry of that length has its value; so where the first window
of an entry stands, the entry's bit is set. -/
theorem rolling_prefilter_exact (key : RollingKey) (entries : List (ℕ × UInt16))
    (hcount : (entries.map Prod.fst).toFinset.card ≤ 32) (data : Bytes) (offsets : List ℕ)
    (hascending : offsets.Pairwise (· ≤ ·)) :
    List.Forall₂ (fun offset (hits : UInt32) =>
      (∀ n, hits.toNat.testBit n ↔ ∃ window, (ofEntries entries).windows[n]? = some window ∧
        offset + window ≤ data.length ∧ (window, key.value (windowAt data offset window)) ∈ entries) ∧
      ∀ first : Bytes, (first.length, key.value first) ∈ entries → first <+: data.drop offset →
        offset + first.length ≤ data.length → ∃ n, hits.toNat.testBit n ∧
          (ofEntries entries).windows[n]? = some first.length)
      offsets ((RollingScan.new key (.ofEntries entries) data).run offsets) := by
  have hsets : (ofEntries entries).sets.length ≤ 32 := length_windows_ofEntries entries ▸ hcount
  refine (RollingScan.Scans.start.run hsets hascending fun _ _ => Nat.zero_le _).imp
    fun offset hits hbits => ?_
  have hexact (n : ℕ) : hits.toNat.testBit n ↔ ∃ window,
      (ofEntries entries).windows[n]? = some window ∧ offset + window ≤ data.length ∧
        (window, key.value (windowAt data offset window)) ∈ entries := by
    rw [hbits n, RollingScan.hit_iff]
    simp only [setsHold_ofEntries]
  refine ⟨hexact, fun first hfirst hstands hfits => ?_⟩
  have hwindow : first.length ∈ (ofEntries entries).windows :=
    (mem_windows_ofEntries entries _).mpr (List.mem_map_of_mem hfirst)
  obtain ⟨n, hn⟩ := List.mem_iff_getElem?.mp hwindow
  refine ⟨n, (hexact n).mpr ⟨first.length, hn, hfits, ?_⟩, hn⟩
  rwa [windowAt, ← List.prefix_iff_eq_take.mp hstands]

theorem rolling_prefilter_exact_two :
    List.Forall₂ (fun offset (hits : UInt32) =>
      (∀ n, hits.toNat.testBit n ↔ ∃ window,
        (ofEntries [(2, 0), (1, 0)]).windows[n]? = some window ∧
        offset + window ≤ [1, 2, 3].length ∧
          (window, (⟨3, 5, 7⟩ : RollingKey).value (windowAt [1, 2, 3] offset window)) ∈
            ([(2, 0), (1, 0)] : List (ℕ × UInt16))) ∧
      ∀ first : Bytes, (first.length, (⟨3, 5, 7⟩ : RollingKey).value first) ∈
          ([(2, 0), (1, 0)] : List (ℕ × UInt16)) → first <+: [1, 2, 3].drop offset →
        offset + first.length ≤ [1, 2, 3].length → ∃ n, hits.toNat.testBit n ∧
          (ofEntries [(2, 0), (1, 0)]).windows[n]? = some first.length)
      [0, 2] ((RollingScan.new ⟨3, 5, 7⟩ (.ofEntries [(2, 0), (1, 0)]) [1, 2, 3]).run [0, 2]) :=
  rolling_prefilter_exact ⟨3, 5, 7⟩ [(2, 0), (1, 0)] (by decide) [1, 2, 3] [0, 2] (by decide)

end Oneiron
