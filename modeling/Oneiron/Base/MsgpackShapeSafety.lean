import Oneiron.Base.MsgpackShape

/-!
# Base/MsgpackShapeSafety — the loop reads a tree as the tree is

Started on an encoding with one value owed, the loop either finds a budget broken or ends up past the
encoding with the value paid for (`reads_of_encodes`), whatever follows it and encloses it.  A fixed
extension carries a payload the loop does not count: that is all it misses.
-/

namespace Oneiron

open List Option MsgValue Nat

namespace MsgpackShape

variable {bytes b head body pre post rest : Bytes} {budget : ShapeBudget} {marker : UInt8}
  {skip children payload width extra per n count pos values owed sized fixed : ℕ}
  {opened : List ℕ} {shape shape' : MsgShape}

/-! ## One marker -/

/-- The marker at a position, with what it skips, opens and carries, all there. -/
def Marks (bytes : Bytes) (pos skip children payload : ℕ) : Prop :=
  ∃ hpos : pos < bytes.length,
    step bytes[pos] bytes (pos + 1) = some (skip, children, payload) ∧ pos + 1 + skip ≤ bytes.length

theorem Marks.of_append (hstep : step marker (pre ++ marker :: rest) (pre.length + 1) =
    some (skip, children, payload)) (hskip : skip ≤ rest.length) :
    Marks (pre ++ marker :: rest) pre.length skip children payload := by
  have hpos : pre.length < (pre ++ marker :: rest).length := by simp
  refine ⟨hpos, ?_, ?_⟩
  · rw [getElem_append_right (le_refl _)]
    simpa using hstep
  · rw [length_append, length_cons]
    omega

theorem lengthField_append (hn : n < 256 ^ width) :
    lengthField (pre ++ marker :: (digits width n ++ rest)) (pre.length + 1) width = some n := by
  have hdrop : (pre ++ marker :: (digits width n ++ rest)).drop (pre.length + 1) =
      digits width n ++ rest := by
    rw [← drop_drop, drop_left]
    rfl
  rw [lengthField, if_pos, hdrop, take_left' (length_digits width n), valueOf_digits hn]
  simp only [length_append, length_cons, length_digits]
  omega

theorem marks_fixed (harm : markerArm marker = .fixed skip children payload)
    (hskip : skip ≤ rest.length) :
    Marks (pre ++ marker :: rest) pre.length skip children payload :=
  .of_append (by rw [step, harm]) hskip

theorem marks_sized (harm : markerArm marker = .sized width extra) (hn : n < 256 ^ width)
    (hrest : extra + n ≤ rest.length) :
    Marks (pre ++ marker :: (digits width n ++ rest)) pre.length (width + extra + n) 0 n := by
  refine .of_append (by rw [step, harm]; simp [lengthField_append hn]) ?_
  rw [length_append, length_digits]
  omega

theorem marks_counted (harm : markerArm marker = .counted width per) (hn : n < 256 ^ width) :
    Marks (pre ++ marker :: (digits width n ++ rest)) pre.length width (n * per) 0 := by
  refine .of_append (by rw [step, harm]; simp [lengthField_append hn]) ?_
  rw [length_append, length_digits]
  omega

/-! ## One turn of the loop -/

/-- A finished container closes. -/
theorem walk_zero (bytes : Bytes) (budget : ShapeBudget) (pos values : ℕ) (opened : List ℕ) :
    walk bytes budget pos values (0 :: opened) = walk bytes budget pos values opened := by
  rw [walk, walk.eq_def bytes budget pos values opened]
  rfl

theorem walk_marks (h : Marks bytes pos skip children payload) :
    walk bytes budget pos values ((owed + 1) :: opened) =
      if values + 1 > budget.maxValues then some .values
      else if payload > budget.maxScalarBytes then some .scalar
      else if children > 0 then
        if opened.length ≥ budget.maxDepth then some .depth
        else walk bytes budget (pos + 1 + skip) (values + 1) (children :: owed :: opened)
      else walk bytes budget (pos + 1 + skip) (values + 1) (owed :: opened) := by
  obtain ⟨hpos, hstep, hskip⟩ := h
  rw [walk]
  simp only [nextOwed, dif_pos hpos, hstep, if_neg (not_lt.mpr hskip)]

/-! ## A value, or values, read through -/

/-- What so many values so deep leave of the budget is enough. -/
def Fits (budget : ShapeBudget) (values depth : ℕ) (shape : MsgShape) (sized : ℕ) : Prop :=
  values + shape.values ≤ budget.maxValues ∧ depth + shape.depth ≤ budget.maxDepth ∧
    sized ≤ budget.maxScalarBytes

/-- **The loop reads a string of bytes as so many values**: to its end where they fit the budget, to
the budget they break where they do not. -/
def Reads (budget : ShapeBudget) (b : Bytes) (shape : MsgShape) (count sized : ℕ) : Prop :=
  ∀ (pre post : Bytes) (values owed : ℕ) (opened : List ℕ), values ≤ budget.maxValues →
    opened.length ≤ budget.maxDepth →
    (Fits budget values opened.length shape sized →
      walk (pre ++ b ++ post) budget pre.length values ((owed + count) :: opened) =
        walk (pre ++ b ++ post) budget (pre ++ b).length (values + shape.values) (owed :: opened)) ∧
    (¬ Fits budget values opened.length shape sized →
      (walk (pre ++ b ++ post) budget pre.length values ((owed + count) :: opened)).isSome)

/-- One marker with nothing in it. -/
theorem reads_leaf (skip : ℕ)
    (hmarks : ∀ pre post, Marks (pre ++ b ++ post) pre.length skip 0 sized)
    (hlen : b.length = 1 + skip) : Reads budget b ⟨1, 0, payload⟩ 1 sized := by
  intro pre post values owed opened hvalues hdepth
  have hend : (pre ++ b).length = pre.length + 1 + skip := by
    rw [length_append, hlen]
    omega
  rw [walk_marks (hmarks pre post), hend]
  simp only [Fits, not_lt_zero, gt_iff_lt, if_false, add_zero]
  refine ⟨fun hfits => ?_, fun hfits => ?_⟩
  · rw [if_neg (by omega), if_neg (by omega)]
  · split
    · rfl
    · rw [if_pos (by omega)]
      rfl

theorem reads_nil : Reads budget [] .none 0 0 := by
  intro pre post values owed opened hvalues hdepth
  refine ⟨fun _ => ?_, fun hfits => absurd ⟨hvalues, hdepth, zero_le _⟩ hfits⟩
  rw [append_nil]
  rfl

/-- One value, then the others. -/
theorem reads_cons {sized' : ℕ} (h : Reads budget b shape 1 sized)
    (hrest : Reads budget rest shape' count sized') :
    Reads budget (b ++ rest) (shape.join shape') (count + 1) (max sized sized') := by
  intro pre post values owed opened hvalues hdepth
  have hassoc : pre ++ (b ++ rest) ++ post = pre ++ b ++ (rest ++ post) := by simp
  have hassoc' : pre ++ b ++ (rest ++ post) = pre ++ b ++ rest ++ post := by simp
  obtain ⟨hfirst, hbroken⟩ := h pre (rest ++ post) values (owed + count) opened hvalues hdepth
  rw [hassoc, ← add_assoc]
  by_cases hfits : Fits budget values opened.length shape sized
  · obtain ⟨hlater, hlaterBroken⟩ :=
      hrest (pre ++ b) post (values + shape.values) owed opened hfits.1 hdepth
    rw [hfirst hfits, hassoc', ← append_assoc pre b rest, MsgShape.join, ← add_assoc values]
    refine ⟨fun hall => hlater ?_, fun hall => hlaterBroken fun hfits' => hall ?_⟩
    · simp only [Fits] at hall ⊢
      omega
    · simp only [Fits] at hfits hfits' ⊢
      omega
  · refine ⟨fun hall => absurd ?_ hfits, fun _ => hbroken hfits⟩
    simp only [Fits, MsgShape.join] at hall ⊢
    omega

/-- A marker that opens so many values, then those. -/
theorem reads_enclose (hmarks : ∀ pre post, Marks (pre ++ head ++ post) pre.length skip count 0)
    (hlen : head.length = 1 + skip) (hcount : count = 0 ↔ shape.values = 0)
    (hempty : shape.values = 0 → shape.depth = 0) (h : Reads budget body shape count sized) :
    Reads budget (head ++ body) shape.enclose 1 sized := by
  intro pre post values owed opened hvalues hdepth
  have hassoc : pre ++ (head ++ body) ++ post = pre ++ head ++ (body ++ post) := by simp
  have hassoc' : pre ++ head ++ (body ++ post) = pre ++ head ++ body ++ post := by simp
  have hend : pre.length + 1 + skip = (pre ++ head).length := by
    rw [length_append, hlen]
    omega
  rw [hassoc, walk_marks (hmarks pre (body ++ post)), hend, hassoc', ← append_assoc pre head body]
  have henclose : shape.enclose.values = shape.values + 1 := rfl
  have hdeep : shape.enclose.depth = if shape.values = 0 then 0 else shape.depth + 1 := rfl
  by_cases hmore : values + 1 > budget.maxValues
  · rw [if_pos hmore]
    refine ⟨fun hfits => ?_, fun _ => rfl⟩
    simp only [Fits] at hfits
    omega
  rw [if_neg hmore, if_neg (not_lt_zero _)]
  by_cases hnone : count = 0
  · -- an empty container opens nothing
    have hzero := hcount.mp hnone
    rw [if_neg (by omega)]
    obtain ⟨hread, hbroken⟩ := h (pre ++ head) post (values + 1) owed opened (by omega) hdepth
    rw [hnone, add_zero] at hread hbroken
    rw [show values + shape.enclose.values = values + 1 + shape.values by omega]
    refine ⟨fun hfits => hread ?_, fun hfits => hbroken fun hfits' => hfits ?_⟩
    all_goals
      simp only [Fits, henclose, hdeep, if_pos hzero] at *
      omega
  · have hpos : ¬ shape.values = 0 := fun hzero => hnone (hcount.mpr hzero)
    rw [if_pos (pos_of_ne_zero hnone)]
    by_cases hfull : opened.length ≥ budget.maxDepth
    · rw [if_pos hfull]
      refine ⟨fun hfits => ?_, fun _ => rfl⟩
      simp only [Fits, hdeep, if_neg hpos] at hfits
      omega
    · rw [if_neg hfull]
      obtain ⟨hread, hbroken⟩ := h (pre ++ head) post (values + 1) 0 (owed :: opened) (by omega)
        (by rw [length_cons]; omega)
      rw [zero_add] at hread hbroken
      rw [show values + shape.enclose.values = values + 1 + shape.values by omega]
      refine ⟨fun hfits => ?_, fun hfits => hbroken fun hfits' => hfits ?_⟩
      · rw [hread, walk_zero]
        simp only [Fits, henclose, hdeep, if_neg hpos, length_cons] at *
        omega
      · simp only [Fits, henclose, hdeep, if_neg hpos, length_cons] at *
        omega

/-! ## The formats -/

variable {items : List MsgValue} {stack : List ℕ} {base : UInt8} {tail : Bytes} {bound : ℕ}
  {fields : List (UInt8 × ℕ)} {hit : OverBudget}

/-- A marker with so many bytes after it that the marker says. -/
theorem leaf_fixed (harm : markerArm marker = .fixed tail.length 0 sized) :
    Reads budget (marker :: tail) ⟨1, 0, payload⟩ 1 sized := by
  refine reads_leaf tail.length (fun pre post => ?_) (by rw [length_cons]; omega)
  rw [append_assoc, cons_append]
  exact marks_fixed harm (by rw [length_append]; omega)

/-- A payload after its length. -/
theorem leaf_sized (h : LengthForm base bound fields n head) (htail : tail.length = extra + n)
    (hmarker : ∀ i < bound, extra = 0 ∧ markerArm (base + i.toUInt8) = .fixed i 0 i)
    (hfields : ∀ field ∈ fields, markerArm field.1 = .sized field.2 extra) :
    Reads budget (head ++ tail) ⟨1, 0, payload⟩ 1 n := by
  cases h with
  | marker hn =>
    obtain ⟨hextra, harm⟩ := hmarker n hn
    have hlen : tail.length = n := by omega
    rw [singleton_append]
    exact leaf_fixed (by rw [hlen]; exact harm)
  | @field marker width hmem hn =>
    refine reads_leaf (width + extra + n) (fun pre post => ?_) ?_
    · rw [append_assoc, append_assoc, cons_append]
      exact marks_sized (hfields _ hmem) hn (by rw [length_append]; omega)
    · rw [length_append, length_cons, length_digits]
      omega

/-- The marker of a container, with its count. -/
theorem marks_head (per : ℕ) (h : LengthForm base bound fields n head)
    (hmarker : ∀ i < bound, markerArm (base + i.toUInt8) = .fixed 0 (i * per) 0)
    (hfields : ∀ field ∈ fields, markerArm field.1 = .counted field.2 per) :
    ∃ skip, (∀ pre post, Marks (pre ++ head ++ post) pre.length skip (n * per) 0) ∧
      head.length = 1 + skip := by
  cases h with
  | marker hn =>
    refine ⟨0, fun pre post => ?_, rfl⟩
    rw [append_assoc, cons_append]
    exact marks_fixed (hmarker n hn) (zero_le _)
  | @field marker width hmem hn =>
    refine ⟨width, fun pre post => ?_, by rw [length_cons, length_digits]; omega⟩
    rw [append_assoc, cons_append]
    exact marks_counted (hfields _ hmem) hn

theorem reads_integer {n : ℤ} (h : IntForm n b) : Reads budget b ⟨1, 0, 0⟩ 1 0 := by
  cases h with
  | @positive n hn =>
    have harm : ∀ i < 128, markerArm i.toUInt8 = .fixed 0 0 0 := by decide
    exact leaf_fixed (harm n hn)
  | @negative n hn =>
    have harm : ∀ i < 32, markerArm (0xff - i.toUInt8) = .fixed 0 0 0 := by decide
    exact leaf_fixed (harm n hn)
  | unsigned hmem =>
    have harm : ∀ field ∈ [((0xcc : UInt8), 1), (0xcd, 2), (0xce, 4), (0xcf, 8)],
      markerArm field.1 = .fixed field.2 0 0 := by decide
    exact leaf_fixed (by rw [length_digits]; exact harm _ hmem)
  | signed hmem =>
    have harm : ∀ field ∈ [((0xd0 : UInt8), 1), (0xd1, 2), (0xd2, 4), (0xd3, 8)],
      markerArm field.1 = .fixed field.2 0 0 := by decide
    exact leaf_fixed (by rw [length_digits]; exact harm _ hmem)

/-! ## Trees -/

/-- A map holds its keys and values. -/
theorem allShape_entries : ∀ entries : List (MsgValue × MsgValue),
    allShape (entries.flatMap fun entry => [entry.1, entry.2]) = entriesShape entries
  | [] => by rw [flatMap_nil, allShape, entriesShape]
  | (key, value) :: entries => by
    rw [flatMap_cons, entriesShape, ← allShape_entries entries]
    simp [allShape]

theorem values_pos : ∀ value : MsgValue, 0 < value.shape.values
  | .string _ | .binary _ | .ext _ _ | .nil | .boolean _ | .integer _ | .float32 _ | .float64 _ =>
    by simp [shape]
  | .array _ | .map _ => by simp [shape, MsgShape.enclose]

/-- Nothing is held exactly where there is no value. -/
theorem allShape_values_eq_zero : items.length = 0 ↔ (allShape items).values = 0 := by
  cases items with
  | nil => simp [allShape, MsgShape.none]
  | cons value values =>
    have hpos := values_pos value
    simp only [length_cons, allShape, MsgShape.join]
    omega

theorem allShape_depth (h : (allShape items).values = 0) : (allShape items).depth = 0 := by
  rw [← allShape_values_eq_zero, length_eq_zero_iff] at h
  rw [h, allShape]
  rfl

mutual

/-- **An encoding is read as its value.** -/
theorem reads_of_encodes (budget : ShapeBudget) {value : MsgValue} {b : Bytes} {sized fixed : ℕ} :
    Encodes value b sized fixed → Reads budget b value.shape 1 sized
  | .nil => by
    rw [shape]
    exact leaf_fixed rfl
  | .boolean b => by
    rw [shape]
    exact leaf_fixed (by cases b <;> rfl)
  | .integer h => by
    rw [shape]
    exact reads_integer h
  | .float32 bits | .float64 bits => by
    rw [shape]
    exact leaf_fixed (by rw [length_digits]; rfl)
  | .string h | .binary h => by
    rw [shape]
    exact leaf_sized h (zero_add _).symm (by decide) (by decide)
  | .ext h => by
    rw [shape]
    exact leaf_sized h (by rw [length_cons, add_comm]) (by decide) (by decide)
  | .fixedExt h => by
    have harm : ∀ field ∈ [((0xd4 : UInt8), 1), (0xd5, 2), (0xd6, 4), (0xd7, 8), (0xd8, 16)],
      markerArm field.1 = .fixed (field.2 + 1) 0 0 := by decide
    rw [shape]
    exact leaf_fixed (harm _ h)
  | .array hhead hbody => by
    obtain ⟨skip, hmarks, hlen⟩ := marks_head 1 hhead (by decide) (by decide)
    rw [mul_one] at hmarks
    rw [shape]
    exact reads_enclose hmarks hlen allShape_values_eq_zero allShape_depth
      (reads_of_encodesAll budget hbody)
  | @Encodes.map entries _ _ _ _ hhead hbody => by
    obtain ⟨skip, hmarks, hlen⟩ := marks_head 2 hhead (by decide) (by decide)
    have hread := reads_of_encodesAll budget hbody
    have hlength : (entries.flatMap fun entry => [entry.1, entry.2]).length = entries.length * 2 := by
      simp [length_flatMap]
    rw [← hlength] at hmarks
    rw [shape, ← allShape_entries]
    exact reads_enclose hmarks hlen allShape_values_eq_zero allShape_depth hread

theorem reads_of_encodesAll (budget : ShapeBudget) {values : List MsgValue} {b : Bytes}
    {sized fixed : ℕ} : EncodesAll values b sized fixed →
      Reads budget b (allShape values) values.length sized
  | .nil => by
    rw [allShape]
    exact reads_nil
  | .cons h hrest => by
    rw [allShape]
    exact reads_cons (reads_of_encodes budget h) (reads_of_encodesAll budget hrest)

end

/-- **On an encoding**, whatever follows it, the check passes where the tree fits, fixed extensions
aside. -/
theorem overBudget_of_encodes {value : MsgValue} (h : Encodes value b sized fixed) (trailing : Bytes)
    (budget : ShapeBudget) :
    overBudget (b ++ trailing) budget = none ↔ Fits budget 0 0 value.shape sized := by
  obtain ⟨hread, hbroken⟩ :=
    reads_of_encodes budget h [] trailing 0 0 [] (zero_le _) (zero_le _)
  constructor
  · intro hnone
    by_contra hfits
    have hsome : (overBudget (b ++ trailing) budget).isSome := hbroken hfits
    rw [hnone] at hsome
    cases hsome
  · intro hfits
    refine (hread hfits).trans ?_
    rw [walk_zero, walk]
    rfl

mutual

/-- Every payload is of one kind or the other. -/
theorem payload_of_encodes {value : MsgValue} {b : Bytes} {sized fixed : ℕ} :
    Encodes value b sized fixed → value.shape.payload = max sized fixed
  | .nil | .boolean _ | .integer _ | .float32 _ | .float64 _ => by
    rw [shape]
    rfl
  | .string _ | .binary _ | .ext _ | .fixedExt _ => by
    rw [shape]
    simp
  | .array _ hbody => by
    rw [shape]
    exact payload_of_encodesAll hbody
  | .map _ hbody => by
    rw [shape, ← allShape_entries]
    exact payload_of_encodesAll hbody

theorem payload_of_encodesAll {values : List MsgValue} {b : Bytes} {sized fixed : ℕ} :
    EncodesAll values b sized fixed → (allShape values).payload = max sized fixed
  | .nil => by
    rw [allShape]
    rfl
  | .cons h hrest => by
    rw [allShape, MsgShape.join, payload_of_encodes h, payload_of_encodesAll hrest]
    dsimp only
    omega

end

/-! ## Any bytes -/

/-- What the markers read so far, and the one at hand, break. -/
inductive Breaks (bytes : Bytes) (budget : ShapeBudget) (s : MarkerWalk) : OverBudget → Prop
  /-- More values are declared, those still owed among them. -/
  | values : budget.maxValues < s.values + s.stack.sum → Breaks bytes budget s .values
  | scalar {skip children payload : ℕ} (hpos : s.pos < bytes.length) :
    step bytes[s.pos] bytes (s.pos + 1) = some (skip, children, payload) →
    budget.maxScalarBytes < payload → Breaks bytes budget s .scalar
  | depth {owed skip children payload : ℕ} {opened : List ℕ} (hpos : s.pos < bytes.length) :
    nextOwed s.stack = some (owed, opened) →
    step bytes[s.pos] bytes (s.pos + 1) = some (skip, children, payload) → 0 < children →
    budget.maxDepth < opened.length + 1 → Breaks bytes budget s .depth

theorem sum_pos_of_nextOwed : ∀ {stack : List ℕ}, nextOwed stack ≠ none → 0 < stack.sum
  | [], h => absurd rfl h
  | 0 :: _, h => by
    rw [sum_cons, zero_add]
    exact sum_pos_of_nextOwed h
  | (owed + 1) :: _, _ => by
    rw [sum_cons]
    omega

/-- The loop stands within its input. -/
theorem pos_le_of_reachable {s : MarkerWalk} (h : (markerWalks bytes).Reachable s) :
    s.pos ≤ bytes.length := by
  refine h.invariant (fun s => s.pos ≤ bytes.length) (fun hi => ?_) fun _ hstep => ?_
  · obtain rfl := hi
    exact zero_le _
  · obtain ⟨_, _, _, _, _, -, -, -, hle, rfl⟩ := hstep
    exact hle

theorem reachable_next (h : (markerWalks bytes).Reachable ⟨pos, values, stack⟩)
    (hnext : nextOwed stack = some (owed, opened)) (hpos : pos < bytes.length)
    (hstep : step bytes[pos] bytes (pos + 1) = some (skip, children, payload))
    (hle : pos + 1 + skip ≤ bytes.length) :
    (markerWalks bytes).Reachable ⟨pos + 1 + skip, values + 1,
      if children > 0 then children :: owed :: opened else owed :: opened⟩ :=
  h.step (show (markerWalks bytes).step _ () _ from
    ⟨owed, opened, skip, children, payload, hnext, hpos, hstep, hle, rfl⟩)

/-- **A budget is reported only where the markers break it.** -/
theorem breaks_of_walk (pos values : ℕ) (stack : List ℕ)
    (h : (markerWalks bytes).Reachable ⟨pos, values, stack⟩) :
    walk bytes budget pos values stack = some hit →
      ∃ s, (markerWalks bytes).Reachable s ∧ Breaks bytes budget s hit := by
  fun_induction walk bytes budget pos values stack with
  | case1 | case3 | case5 | case9 => exact nofun
  | case2 pos values stack owed opened hnext hmore =>
    rintro ⟨⟩
    have hpos := sum_pos_of_nextOwed (hnext ▸ some_ne_none _)
    exact ⟨_, h, .values (by dsimp only; omega)⟩
  | case4 pos values stack owed opened hnext _ hpos skip children payload hstep hlong =>
    rintro ⟨⟩
    exact ⟨_, h, .scalar hpos hstep hlong⟩
  | case6 pos values stack owed opened hnext _ hpos skip children payload hstep _ _ hopens hdeep =>
    rintro ⟨⟩
    exact ⟨_, h, .depth hpos hnext hstep hopens (lt_succ_of_le hdeep)⟩
  | case7 pos values stack owed opened hnext _ hpos skip children payload hstep _ hle hopens _ ih =>
    have hnext := reachable_next h hnext hpos hstep (Nat.le_of_not_lt hle)
    rw [if_pos hopens] at hnext
    exact ih hnext
  | case8 pos values stack owed opened hnext _ hpos skip children payload hstep _ hle hopens ih =>
    have hnext := reachable_next h hnext hpos hstep (Nat.le_of_not_lt hle)
    rw [if_neg hopens] at hnext
    exact ih hnext

theorem lengthField_append_right {n : ℕ} (h : lengthField bytes pos width = some n) (more : Bytes) :
    lengthField (bytes ++ more) pos width = some n := by
  unfold lengthField at h ⊢
  split at h
  case isFalse => cases h
  case isTrue hle =>
    rw [if_pos (by rw [length_append]; omega), drop_append_of_le_length (by omega),
      take_append_of_le_length (by rw [length_drop]; omega)]
    exact h

/-- What is read of the input is read of any longer one. -/
theorem step_append {found : ℕ × ℕ × ℕ} (h : step marker bytes pos = some found) (more : Bytes) :
    step marker (bytes ++ more) pos = some found := by
  unfold step at h ⊢
  cases harm : markerArm marker with
  | fixed skip children payload =>
    rw [harm] at h
    exact h
  | sized width extra =>
    rw [harm] at h
    obtain ⟨len, hlen, rfl⟩ := map_eq_some_iff.mp h
    exact map_eq_some_iff.mpr ⟨len, lengthField_append_right hlen more, rfl⟩
  | counted width per =>
    rw [harm] at h
    obtain ⟨n, hn, rfl⟩ := map_eq_some_iff.mp h
    exact map_eq_some_iff.mpr ⟨n, lengthField_append_right hn more, rfl⟩

theorem walk_step (hnext : nextOwed stack = some (owed, opened))
    (hmore : ¬ values + 1 > budget.maxValues) (hpos : pos < bytes.length)
    (hstep : step bytes[pos] bytes (pos + 1) = some (skip, children, payload)) (more : Bytes) :
    walk (bytes ++ more) budget pos values stack =
      if payload > budget.maxScalarBytes then some .scalar
      else if pos + 1 + skip > (bytes ++ more).length then none
      else if children > 0 then
        if opened.length ≥ budget.maxDepth then some .depth
        else walk (bytes ++ more) budget (pos + 1 + skip) (values + 1) (children :: owed :: opened)
      else walk (bytes ++ more) budget (pos + 1 + skip) (values + 1) (owed :: opened) := by
  have hpos' : pos < (bytes ++ more).length := by
    rw [length_append]
    omega
  have hstep' : step (bytes ++ more)[pos] (bytes ++ more) (pos + 1) = some (skip, children, payload) := by
    rw [getElem_append_left hpos]
    exact step_append hstep more
  rw [walk]
  simp only [hnext, if_neg hmore, dif_pos hpos', hstep']

/-- **What is reported of the input is reported of any longer one.** -/
theorem walk_append (more : Bytes) (pos values : ℕ) (stack : List ℕ) :
    walk bytes budget pos values stack = some hit →
      walk (bytes ++ more) budget pos values stack = some hit := by
  have hlonger {end' : ℕ} (hle : ¬ end' > bytes.length) : ¬ end' > (bytes ++ more).length := by
    rw [length_append]
    omega
  fun_induction walk bytes budget pos values stack with
  | case1 | case3 | case5 | case9 => exact nofun
  | case2 pos values stack owed opened hnext hmore =>
    intro h
    rw [walk]
    simp only [hnext, if_pos hmore]
    exact h
  | case4 pos values stack owed opened hnext hmore hpos skip children payload hstep hlong =>
    rw [walk_step hnext hmore hpos hstep more, if_pos hlong]
    exact id
  | case6 pos values stack owed opened hnext hmore hpos skip children payload hstep hshort hle hopens
      hdeep =>
    rw [walk_step hnext hmore hpos hstep more, if_neg hshort, if_neg (hlonger hle), if_pos hopens,
      if_pos hdeep]
    exact id
  | case7 pos values stack owed opened hnext hmore hpos skip children payload hstep hshort hle hopens
      hroom ih =>
    rw [walk_step hnext hmore hpos hstep more, if_neg hshort, if_neg (hlonger hle), if_pos hopens,
      if_neg hroom]
    exact ih
  | case8 pos values stack owed opened hnext hmore hpos skip children payload hstep hshort hle hopens
      ih =>
    rw [walk_step hnext hmore hpos hstep more, if_neg hshort, if_neg (hlonger hle), if_neg hopens]
    exact ih

end MsgpackShape

open MsgpackShape

/-- **The check is exact but for fixed extensions.**  On every legal encoding of a value tree,
whatever follows it, it passes exactly where the tree fits the budget, if and only if every fixed
extension's payload fits or something else of the tree does not.  On any bytes it keeps within them,
and reports a budget only where the markers read so far break it; no encoding that goes on from them
passes. -/
theorem overBudget_exact (bytes : Bytes) (budget : ShapeBudget) :
    (∀ value b sized fixed trailing, Encodes value b sized fixed → bytes = b ++ trailing →
      ((overBudget bytes budget = none ↔ value.shape.values ≤ budget.maxValues ∧
          value.shape.depth ≤ budget.maxDepth ∧ value.shape.payload ≤ budget.maxScalarBytes) ↔
        (budget.maxScalarBytes < fixed → budget.maxValues < value.shape.values ∨
          budget.maxDepth < value.shape.depth ∨ budget.maxScalarBytes < sized))) ∧
    (∀ s, (markerWalks bytes).Reachable s → s.pos ≤ bytes.length) ∧
    ∀ hit, overBudget bytes budget = some hit →
      (∃ s, (markerWalks bytes).Reachable s ∧ Breaks bytes budget s hit) ∧
      ∀ more, overBudget (bytes ++ more) budget = some hit := by
  refine ⟨?_, fun s => pos_le_of_reachable, fun hit hover => ⟨breaks_of_walk 0 0 [1] (.start rfl) hover,
    fun more => walk_append more 0 0 [1] hover⟩⟩
  rintro value b sized fixed trailing h rfl
  rw [overBudget_of_encodes h, payload_of_encodes h]
  simp only [Fits]
  omega

/-- …on a string of five bytes, under a budget of four. -/
theorem overBudget_exact_string : overBudget ((0xa5 :: ascii "owned") ++ [0xc0]) ⟨1, 0, 4⟩ ≠ none := by
  have h : Encodes (.string (ascii "owned")) ([0xa5] ++ ascii "owned") 5 0 :=
    .string (.marker (show (ascii "owned").length < 32 by decide))
  intro hnone
  obtain ⟨hencoded, -, -⟩ := overBudget_exact ((0xa5 :: ascii "owned") ++ [0xc0]) ⟨1, 0, 4⟩
  have hfits := ((hencoded _ _ _ _ [0xc0] h rfl).mpr (by simp)).mp hnone
  exact absurd hfits.2.2 (by rw [shape]; decide)

/-- A fixed extension of sixteen bytes passes a budget of fifteen. -/
theorem overBudget_fixedExt :
    Encodes (.ext 1 (List.replicate 16 0)) (0xd8 :: 1 :: List.replicate 16 0) 0 16 ∧
    overBudget (0xd8 :: 1 :: List.replicate 16 0) ⟨1, 0, 15⟩ = none ∧
    ¬ (ext 1 (List.replicate 16 0)).shape.payload ≤ 15 := by
  have h : Encodes (.ext 1 (List.replicate 16 0)) (0xd8 :: 1 :: List.replicate 16 0) 0 16 :=
    .fixedExt (by decide)
  refine ⟨h, ?_, by simp [shape]⟩
  exact (overBudget_of_encodes h [] ⟨1, 0, 15⟩).mpr (by simp [Fits, shape])

end Oneiron
