import Oneiron.MergeQueue.Composition

/-!
# MergeQueue/CompositionWeave — a composition renders every line and run once

Runs that follow one another in the base are woven into it: each line no run covers and each run's
replacement, once and in place (`weave_spec`).  A valid script's runs follow one another, and woven
they give the postimage (`changedRuns_spec`).
-/

namespace Oneiron

open List Option Function Nat

namespace LineComposition

variable {c : LineComposition} {base : Bytes} {i j k n : ℕ} {run : ChangedRun}
  {runs rest : List ChangedRun}

/-! ## Spans of lines -/

/-- Line starts that ascend from the base's start to its end. -/
structure Lined (c : LineComposition) : Prop where
  first : c.lineStarts[0]? = some 0
  ascending : c.lineStarts.Pairwise (· ≤ ·)
  last : c.lineStarts[c.lineCount]? = some c.base.length

theorem lined (base : Bytes) (runs : List ChangedRun) : Lined ⟨base, lineStartsOf base, runs⟩ := by
  have hsub : ((base.zipIdx.filter fun p => p.1 = 10).map fun p => p.2 + 1).Sublist
      (range' 1 base.length) := by
    have h := (filter_sublist (p := fun p : UInt8 × ℕ => decide (p.1 = 10)) (l := base.zipIdx)).map
      fun p => p.2 + 1
    have hall : base.zipIdx.map (fun p => p.2 + 1) = (base.zipIdx.map Prod.snd).map (1 + ·) := by
      rw [List.map_map]
      exact map_congr_left fun p _ => add_comm ..
    rwa [hall, zipIdx_map_snd, map_add_range'] at h
  have hle (x : ℕ) (hx : x ∈ 0 :: (base.zipIdx.filter fun p => p.1 = 10).map fun p => p.2 + 1) :
      x ≤ base.length := by
    rcases mem_cons.mp hx with rfl | hx
    · exact zero_le _
    · have := mem_range'_1.mp (hsub.subset hx)
      omega
  have hasc : (0 :: (base.zipIdx.filter fun p => p.1 = 10).map fun p => p.2 + 1).Pairwise (· ≤ ·) :=
    pairwise_cons.mpr ⟨fun _ _ => zero_le _, ((pairwise_lt_range' 1 (by omega)).sublist
      hsub).imp le_of_lt⟩
  have hlast {starts : List ℕ} (h : starts.getLast? = some base.length) :
      starts[starts.length - 1]? = some base.length := getLast?_eq_getElem? ▸ h
  rw [lineStartsOf]
  split
  · next h => exact ⟨rfl, hasc, hlast h⟩
  · refine ⟨rfl, pairwise_append.mpr ⟨hasc, pairwise_singleton .., fun x hx y hy => ?_⟩,
      hlast getLast?_concat⟩
    exact mem_singleton.mp hy ▸ hle x hx

/-- Where line `i` starts, or past the last the base's end. -/
def startOfLine (c : LineComposition) (i : ℕ) : ℕ := c.lineStarts[i]?.getD c.base.length

/-- The bytes of base lines `i..j`. -/
def spanOf (c : LineComposition) (i j : ℕ) : Bytes :=
  (c.base.take (c.startOfLine j)).drop (c.startOfLine i)

theorem Lined.start_le (h : Lined c) (hij : i ≤ j) :
    c.startOfLine i ≤ c.startOfLine j ∧ c.startOfLine j ≤ c.base.length := by
  have hmono {i j x y : ℕ} (hij : i ≤ j) (hi : c.lineStarts[i]? = some x)
      (hj : c.lineStarts[j]? = some y) : x ≤ y := by
    rcases lt_or_eq_of_le hij with hlt | rfl
    · obtain ⟨_, rfl⟩ := List.getElem?_eq_some_iff.mp hi
      obtain ⟨_, rfl⟩ := List.getElem?_eq_some_iff.mp hj
      exact pairwise_iff_getElem.mp h.ascending i j _ _ hlt
    · exact (some.inj (hi.symm.trans hj)).le
  have hend {i x : ℕ} (hi : c.lineStarts[i]? = some x) : x ≤ c.base.length := by
    have := (List.getElem?_eq_some_iff.mp hi).1
    exact hmono (by rw [lineCount]; omega) hi h.last
  rw [startOfLine, startOfLine]
  cases hi : c.lineStarts[i]? with
  | none =>
    rw [getElem?_eq_none ((getElem?_eq_none_iff.mp hi).trans hij)]
    exact ⟨le_rfl, le_rfl⟩
  | some x =>
    cases hj : c.lineStarts[j]? with
    | none => exact ⟨hend hi, le_rfl⟩
    | some y => exact ⟨hmono hij hi hj, hend hj⟩

theorem Lined.baseSpan_eq (h : Lined c) (hij : i ≤ j) (hj : j ≤ c.lineCount) :
    c.baseSpan i j = some (c.spanOf i j) := by
  have hlen := (List.getElem?_eq_some_iff.mp h.last).1
  have hstart {i : ℕ} (hi : i ≤ c.lineCount) : c.lineStarts[i]? = some (c.startOfLine i) := by
    rw [startOfLine, getElem?_eq_getElem (by omega), getD_some]
  simp only [baseSpan, hstart (hij.trans hj), hstart hj, bind_eq_bind, bind_some]
  exact if_pos (h.start_le hij)

@[simp] theorem spanOf_self : c.spanOf i i = [] := by simp [spanOf]

theorem Lined.spanOf_append (h : Lined c) (hij : i ≤ j) (hjk : j ≤ k) :
    c.spanOf i j ++ c.spanOf j k = c.spanOf i k := by
  have hij := h.start_le hij
  have hjk := (h.start_le hjk).1
  have htake := take_append_drop (c.startOfLine j) (c.base.take (c.startOfLine k))
  rw [take_take, min_eq_left hjk] at htake
  rw [spanOf, spanOf, spanOf, ← drop_append_of_le_length, htake]
  rw [length_take_of_le hij.2]
  exact hij.1

theorem Lined.spanOf_all (h : Lined c) : c.spanOf 0 c.lineCount = c.base := by
  rw [spanOf, startOfLine, startOfLine, h.first, h.last]
  simp

/-- Lines one by one are their span. -/
theorem Lined.flatMap_lines (h : Lined c) (m : ℕ) {i : ℕ} :
    ((range' i m).flatMap fun line => c.spanOf line (line + 1)) = c.spanOf i (i + m) := by
  induction m generalizing i with
  | zero => simp
  | succ m ih =>
    rw [range'_succ, flatMap_cons, ih, h.spanOf_append (by omega) (by omega),
      add_assoc, add_comm 1]

/-! ## Runs woven into the base -/

/-- Runs that follow one another between two lines. -/
def Placed : ℕ → List ChangedRun → ℕ → Prop
  | i, [], j => i ≤ j
  | i, run :: runs, j => i ≤ run.start ∧ run.start ≤ run.stop ∧ Placed run.stop runs j

theorem placed_iff : Placed i runs j ↔ i ≤ j ∧ (runs.Pairwise fun r s => r.stop ≤ s.start) ∧
    ∀ r ∈ runs, i ≤ r.start ∧ r.start ≤ r.stop ∧ r.stop ≤ j := by
  induction runs generalizing i with
  | nil => simp [Placed]
  | cons run runs ih =>
    simp only [Placed, ih, pairwise_cons, forall_mem_cons]
    constructor
    · rintro ⟨hi, hrun, hj, hruns, hall⟩
      exact ⟨by omega, ⟨fun r hr => (hall r hr).1, hruns⟩, ⟨hi, hrun, hj⟩,
        fun r hr => ⟨by have := (hall r hr).1; omega, (hall r hr).2⟩⟩
    · rintro ⟨-, ⟨hfirst, hruns⟩, ⟨hi, hrun, hj⟩, hall⟩
      exact ⟨hi, hrun, hj, hruns, fun r hr => ⟨hfirst r hr, (hall r hr).2⟩⟩

theorem Placed.le (h : Placed i runs j) : i ≤ j := (placed_iff.mp h).1

theorem Placed.append (h : Placed i runs j) (h' : Placed j rest k) : Placed i (runs ++ rest) k := by
  induction runs generalizing i with
  | nil =>
    cases rest with
    | nil => exact le_trans h h'
    | cons run rest => exact ⟨le_trans h h'.1, h'.2⟩
  | cons run runs ih => exact ⟨h.1, h.2.1, ih h.2.2⟩

/-- Lines no run covers and runs, as they follow one another. -/
def weave : ℕ → List ChangedRun → ℕ → List (ℕ ⊕ ChangedRun)
  | i, [], j => (range' i (j - i)).map .inl
  | i, run :: runs, j =>
    (range' i (run.start - i)).map .inl ++ .inr run :: weave run.stop runs j

/-- What stands there in the output. -/
def bytesAt (c : LineComposition) : ℕ ⊕ ChangedRun → Bytes
  | .inl line => c.spanOf line (line + 1)
  | .inr run => run.replacement

/-- Whether the one comes before the other. -/
def InPlace : ℕ ⊕ ChangedRun → ℕ ⊕ ChangedRun → Prop
  | .inl line, .inl line' => line < line'
  | .inl line, .inr run => line < run.start
  | .inr run, .inl line => run.stop ≤ line
  | .inr run, .inr run' => run.stop ≤ run'.start

def covered (runs : List ChangedRun) (line : ℕ) : Bool :=
  runs.any fun run => run.start ≤ line && line < run.stop

theorem Lined.flatMap_range (h : Lined c) (hij : i ≤ j) :
    ((range' i (j - i)).map Sum.inl).flatMap c.bytesAt = c.spanOf i j := by
  rw [flatMap_map]
  exact (h.flatMap_lines (j - i)).trans (by rw [Nat.add_sub_cancel' hij])

/-- The bytes of a weave. -/
def woven (c : LineComposition) (i : ℕ) (runs : List ChangedRun) (j : ℕ) : Bytes :=
  (weave i runs j).flatMap c.bytesAt

theorem Lined.woven_nil (h : Lined c) (hij : i ≤ j) : c.woven i [] j = c.spanOf i j :=
  h.flatMap_range hij

theorem Lined.woven_cons (h : Lined c) (hi : i ≤ run.start) : c.woven i (run :: runs) j =
    c.spanOf i run.start ++ run.replacement ++ c.woven run.stop runs j := by
  rw [woven, weave, flatMap_append, h.flatMap_range hi, flatMap_cons, append_assoc]
  rfl

theorem Lined.woven_append (h : Lined c) (hruns : Placed i runs j) (hrest : Placed j rest k) :
    c.woven i (runs ++ rest) k = c.woven i runs j ++ c.woven j rest k := by
  induction runs generalizing i with
  | nil =>
    cases rest with
    | nil => rw [append_nil, h.woven_nil hruns, h.woven_nil hrest, h.woven_nil (hruns.trans hrest),
        h.spanOf_append hruns hrest]
    | cons run rest =>
      rw [nil_append, h.woven_cons (hruns.trans hrest.1), h.woven_cons hrest.1, h.woven_nil hruns,
        ← h.spanOf_append hruns hrest.1]
      simp only [append_assoc]
  | cons run runs ih =>
    rw [cons_append, h.woven_cons hruns.1, h.woven_cons hruns.1, ih hruns.2.2]
    simp only [append_assoc]

/-- **Rendering is weaving**, and is never out of range. -/
theorem Lined.renderFrom_eq (h : Lined c) (hruns : Placed i runs c.lineCount) :
    c.renderFrom i runs = some (c.woven i runs c.lineCount) := by
  induction runs generalizing i with
  | nil => rw [renderFrom, h.baseSpan_eq hruns le_rfl, h.woven_nil hruns]
  | cons run runs ih =>
    rw [renderFrom, h.baseSpan_eq hruns.1 (hruns.2.1.trans hruns.2.2.le), ih hruns.2.2,
      h.woven_cons hruns.1]
    rfl

/-- **A weave has every line no run covers and every run, once, in place.** -/
theorem weave_spec (h : Placed i runs j) :
    (weave i runs j).filterMap Sum.getLeft? = (range' i (j - i)).filter (!covered runs ·) ∧
      (weave i runs j).filterMap Sum.getRight? = runs ∧ (weave i runs j).Pairwise InPlace ∧
      ∀ piece ∈ weave i runs j, (∀ line, piece = .inl line → i ≤ line ∧ line < j) ∧
        ∀ run, piece = .inr run → i ≤ run.start := by
  have hlines (i m : ℕ) : ((range' i m).map Sum.inl).Pairwise InPlace :=
    pairwise_map.mpr pairwise_lt_range'
  induction runs generalizing i with
  | nil =>
    refine ⟨?_, ?_, hlines .., fun piece hpiece => ?_⟩
    · simp [weave, covered, filterMap_map, comp_def]
    · simp [weave, filterMap_map, comp_def]
    · obtain ⟨line, hline, rfl⟩ := mem_map.mp hpiece
      have := mem_range'_1.mp hline
      exact ⟨fun _ heq => by cases heq; omega, nofun⟩
  | cons run runs ih =>
    obtain ⟨hi, hrun, hrest⟩ := h
    obtain ⟨hleft, hright, hinPlace, hwithin⟩ := ih hrest
    have hle := hrest.le
    have hrange : range' i (j - i) = range' i (run.start - i) ++
        (range' run.start (run.stop - run.start) ++ range' run.stop (j - run.stop)) := by
      rw [show j - i = (run.start - i) + ((run.stop - run.start) + (j - run.stop)) by omega,
        ← range'_append_1, ← range'_append_1, Nat.add_sub_cancel' hi,
        Nat.add_sub_cancel' hrun]
    have hbefore : (range' i (run.start - i)).filter (!covered (run :: runs) ·) =
        range' i (run.start - i) := by
      refine filter_eq_self.mpr fun line hline => ?_
      have hlt := mem_range'_1.mp hline
      simp only [covered, Bool.not_eq_true', List.any_eq_false, Bool.and_eq_true, decide_eq_true_eq]
      intro r hr
      rcases mem_cons.mp hr with rfl | hr
      · omega
      · have := ((placed_iff.mp hrest).2.2 r hr).1
        omega
    have hwithinRun : (List.range' run.start (run.stop - run.start)).filter
        (!covered (run :: runs) ·) = [] := by
      refine filter_eq_nil_iff.mpr fun line hline => ?_
      have hlt := mem_range'_1.mp hline
      simp [covered, hlt.1, show line < run.stop by omega]
    have hafter : (range' run.stop (j - run.stop)).filter (!covered (run :: runs) ·) =
        (range' run.stop (j - run.stop)).filter (!covered runs ·) := by
      refine filter_congr fun line hline => ?_
      have hge := (mem_range'_1.mp hline).1
      simp [covered, show ¬line < run.stop by omega]
    refine ⟨?_, ?_, pairwise_append.mpr ⟨hlines .., pairwise_cons.mpr
      ⟨fun piece hpiece => ?_, hinPlace⟩, fun piece hpiece piece' hpiece' => ?_⟩, fun piece hpiece => ?_⟩
    · rw [hrange, filter_append, filter_append, hbefore, hwithinRun, hafter, ← hleft, weave,
        filterMap_append, filterMap_cons_none rfl]
      simp [filterMap_map, comp_def]
    · rw [weave, filterMap_append, filterMap_cons_some (f := Sum.getRight?) rfl, hright]
      simp [filterMap_map, comp_def]
    · cases piece with
      | inl line => exact ((hwithin _ hpiece).1 line rfl).1
      | inr r => exact (hwithin _ hpiece).2 r rfl
    · obtain ⟨line, hline, rfl⟩ := mem_map.mp hpiece
      have hlt := mem_range'_1.mp hline
      rcases mem_cons.mp hpiece' with rfl | hpiece'
      · show line < run.start
        omega
      · cases piece' with
        | inl line' =>
          have := ((hwithin _ hpiece').1 line' rfl).1
          show line < line'
          omega
        | inr r =>
          have := (hwithin _ hpiece').2 r rfl
          show line < r.start
          omega
    · rcases mem_append.mp hpiece with hpiece | hpiece
      · obtain ⟨line, hline, rfl⟩ := mem_map.mp hpiece
        have hlt := mem_range'_1.mp hline
        exact ⟨fun _ heq => by cases heq; omega, nofun⟩
      · rcases mem_cons.mp hpiece with rfl | hpiece
        · exact ⟨nofun, fun _ heq => Sum.inr.inj heq ▸ hi⟩
        · refine ⟨fun line heq => ?_, fun r heq => ?_⟩
          · have := (hwithin _ hpiece).1 line heq
            omega
          · have := (hwithin _ hpiece).2 r heq
            omega

/-! ## The runs of a script -/

/-- A valid edit script from a place in both line lists on: what it covers is in order, and what it
says is equal is. -/
inductive ScriptFrom (old new : List Bytes) : ℕ → ℕ → List DiffOp → Prop
  | nil : ScriptFrom old new old.length new.length []
  | cons {op : DiffOp} {ops : List DiffOp} (hold : op.old.1 ≤ op.old.2) (hnew : op.new.1 ≤ op.new.2)
    (hequal : op.tag = .equal →
      (old.take op.old.2).drop op.old.1 = (new.take op.new.2).drop op.new.1) :
    ScriptFrom old new op.old.2 op.new.2 ops → ScriptFrom old new op.old.1 op.new.1 (op :: ops)

theorem ScriptFrom.le {old new : List Bytes} {ops : List DiffOp} (h : ScriptFrom old new i j ops) :
    i ≤ old.length ∧ j ≤ new.length := by
  induction h with
  | nil => exact ⟨le_rfl, le_rfl⟩
  | cons hold hnew _ _ ih => exact ⟨hold.trans ih.1, hnew.trans ih.2⟩

theorem flatten_splitInclusive (b : Bytes) : (splitInclusive b).flatten = b := by
  fun_induction splitInclusive b with
  | case1 => rfl
  | case2 => simp [*]
  | case3 b rest _ hnil ih =>
    rw [hnil] at ih
    simp [← ih]
  | case4 b rest _ line lines hcons ih =>
    rw [hcons] at ih
    simp [← ih]

/-- The base's lines, as the diff is given them. -/
def linesOf (c : LineComposition) : List Bytes :=
  (range c.lineCount).map fun line => c.spanOf line (line + 1)

theorem Lined.flatten_linesOf (h : Lined c) (hij : i ≤ j) (hj : j ≤ c.lineCount) :
    ((c.linesOf.take j).drop i).flatten = c.spanOf i j := by
  have hrange : ((range c.lineCount).take j).drop i = range' i (j - i) := by
    rw [range_eq_range', take_range'_of_length_ge hj, drop_range']
    simp
  rw [linesOf, ← map_take, ← map_drop, hrange, ← flatMap_def, h.flatMap_lines,
    Nat.add_sub_cancel' hij]

theorem Placed.of_concat (h : Placed i (runs ++ [run]) j) :
    Placed i runs run.start ∧ run.start ≤ run.stop ∧ run.stop ≤ j := by
  induction runs generalizing i with
  | nil => exact ⟨h.1, h.2⟩
  | cons r runs ih => exact ⟨⟨h.1, h.2.1, (ih h.2.2).1⟩, (ih h.2.2).2⟩

theorem Lined.woven_concat (h : Lined c) (hruns : Placed i runs run.start) (hrun : run.start ≤ run.stop) :
    c.woven i (runs ++ [run]) run.stop = c.woven i runs run.start ++ run.replacement := by
  have hone : Placed run.start [run] run.stop := ⟨le_rfl, hrun, le_rfl⟩
  rw [h.woven_append hruns hone, h.woven_cons le_rfl, h.woven_nil le_rfl]
  simp

/-- Runs with an unchanged line between any two. -/
def Apart (runs : List ChangedRun) : Prop := runs.Pairwise fun r s => r.stop < s.start

/-- **An operation keeps the runs**: they follow one another, and woven they are the lines so far. -/
theorem Lined.foldlM_changedRunsStep (h : Lined c) {lines : List Bytes} {ops : List DiffOp}
    (hs : ScriptFrom c.linesOf lines i j ops) {opened : Option ChangedRun}
    (hplaced : Placed 0 (runs ++ opened.toList) i) (hopened : ∀ r ∈ opened, r.stop = i)
    (hwoven : c.woven 0 (runs ++ opened.toList) i = (lines.take j).flatten) :
    ∃ runs' opened', ops.foldlM (changedRunsStep lines) (runs, opened) = some (runs', opened') ∧
      Placed 0 (runs' ++ opened'.toList) c.lineCount ∧
      c.woven 0 (runs' ++ opened'.toList) c.lineCount = lines.flatten ∧
      ((∀ op ∈ ops, op.tag = .equal → op.old.1 < op.old.2) → Apart (runs ++ opened.toList) →
        (opened = none → ∀ r ∈ runs, r.stop < i) → Apart (runs' ++ opened'.toList)) := by
  have hcount : c.linesOf.length = c.lineCount := by simp [linesOf]
  induction hs generalizing runs opened with
  | nil =>
    rw [hcount] at hplaced hwoven
    exact ⟨runs, opened, rfl, hplaced, hwoven.trans (by rw [take_length]), fun _ h _ => h⟩
  | @cons op ops hold hnew hequal hrest ih =>
    have hbounds := hrest.le
    have hlines : (lines.take op.new.1).flatten ++ ((lines.take op.new.2).drop op.new.1).flatten =
        (lines.take op.new.2).flatten := by
      rw [← flatten_append, ← min_eq_left hnew, ← take_take, min_eq_left hnew,
        take_append_drop]
    by_cases htag : op.tag = .equal
    · have hspan := h.flatten_linesOf hold (hcount ▸ hbounds.1)
      have hstill : Placed op.old.1 [] op.old.2 := hold
      obtain ⟨runs', opened', hfold, hplaced', hwoven', hapart⟩ :=
        @ih (runs ++ opened.toList) none (hplaced.append hstill) nofun (by
          rw [toList_none, append_nil, ← append_nil (runs ++ _),
            h.woven_append hplaced hstill, h.woven_nil hold, hwoven, ← hspan, hequal htag, hlines])
      refine ⟨runs', opened', ?_, hplaced', hwoven', fun hne hpair _ => hapart
        (fun o ho => hne o (mem_cons_of_mem _ ho)) (by simpa using hpair) fun _ r hr => ?_⟩
      · simpa [changedRunsStep, htag] using hfold
      · exact ((placed_iff.mp hplaced).2.2 r hr).2.2.trans_lt (hne op mem_cons_self htag)
    · have hnew' : sliceOf lines op.new = some ((lines.take op.new.2).drop op.new.1) :=
        if_pos ⟨hnew, hbounds.2⟩
      -- the run the operation goes on with, and where it starts
      obtain ⟨r, hr, hruns, hri, hsofar, hstart⟩ : ∃ r, opened.getD ⟨op.old.1, op.old.1, []⟩ = r ∧
          Placed 0 runs r.start ∧ r.start ≤ op.old.1 ∧
          c.woven 0 runs r.start ++ r.replacement = (lines.take op.new.1).flatten ∧
          (Apart (runs ++ opened.toList) → (opened = none → ∀ s ∈ runs, s.stop < op.old.1) →
            ∀ s ∈ runs, s.stop < r.start) := by
        cases opened with
        | none =>
          rw [toList_none, append_nil] at hplaced hwoven
          exact ⟨_, rfl, hplaced, le_rfl, by simpa using hwoven, fun _ hlast => hlast rfl⟩
        | some r =>
          obtain ⟨hruns, hrun, hle⟩ := hplaced.of_concat
          rw [← hopened r rfl, toList_some, h.woven_concat hruns hrun] at hwoven
          exact ⟨r, rfl, hruns, hrun.trans hle, hwoven, fun hpair _ s hs =>
            (pairwise_append.mp hpair).2.2 s hs r mem_cons_self⟩
      have hgrown : r.start ≤ op.old.2 := hri.trans hold
      obtain ⟨runs', opened', hfold, hplaced', hwoven', hapart⟩ := @ih runs
        (some ⟨r.start, op.old.2, r.replacement ++ ((lines.take op.new.2).drop op.new.1).flatten⟩)
        (hruns.append (by exact ⟨le_rfl, hgrown, le_rfl⟩)) (by rintro _ ⟨⟩; rfl) (by
          rw [toList_some, @Lined.woven_concat _ _ ⟨r.start, op.old.2, _⟩ _ h hruns hgrown,
            ← append_assoc, hsofar, hlines])
      refine ⟨runs', opened', ?_, hplaced', hwoven', fun hne hpair hlast => hapart
        (fun o ho => hne o (mem_cons_of_mem _ ho)) (pairwise_append.mpr
          ⟨(pairwise_append.mp hpair).1, pairwise_singleton .., fun s hs t ht => ?_⟩) nofun⟩
      · simpa [changedRunsStep, htag, hnew', hr] using hfold
      · exact mem_singleton.mp ht ▸ hstart hpair hlast s hs

variable {diff : List Bytes → List Bytes → List DiffOp}

/-- Whether a diff's equal operations are never empty. -/
def EqualsNonempty (diff : List Bytes → List Bytes → List DiffOp) : Prop :=
  ∀ old new, ∀ op ∈ diff old new, op.tag = .equal → op.old.1 < op.old.2

/-- **A valid script's runs** follow one another, and woven into the base they are the postimage. -/
theorem Lined.changedRuns_spec (h : Lined c) (hdiff : ∀ old new, ScriptFrom old new 0 0 (diff old new))
    (postimage : Bytes) : ∃ runs, c.changedRuns diff postimage = some runs ∧
      Placed 0 runs c.lineCount ∧ c.woven 0 runs c.lineCount = postimage ∧
      (EqualsNonempty diff → Apart runs) := by
  have hlines (l : List ℕ) (hl : ∀ line ∈ l, line < c.lineCount) : (l.mapM fun line =>
      c.baseSpan line (line + 1)) = some (l.map fun line => c.spanOf line (line + 1)) := by
    induction l with
    | nil => rfl
    | cons line l ih =>
      rw [forall_mem_cons] at hl
      rw [mapM_cons, h.baseSpan_eq (le_succ line) hl.1, ih hl.2]
      rfl
  have hbase := hlines (range c.lineCount) fun _ => mem_range.mp
  obtain ⟨runs, opened, hfold, hplaced, hwoven, hapart⟩ := @Lined.foldlM_changedRunsStep c 0 0 [] h _ _
    (hdiff c.linesOf (splitInclusive postimage)) none (zero_le _) nofun
    (by rw [toList_none, append_nil, h.woven_nil le_rfl]; simp)
  refine ⟨_, ?_, hplaced, hwoven.trans (flatten_splitInclusive postimage), fun hne =>
    hapart (hne _ _) .nil fun _ => nofun⟩
  rw [linesOf] at hfold
  simp only [changedRuns, hbase, hfold, bind_eq_bind, bind_some]

end LineComposition

end Oneiron
