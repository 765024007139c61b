import Oneiron.Sync.Turns

/-!
# Sync/TurnsFairness — no caller is passed over twice

The queues stand in the order of their callers, so from any cursor on they stand in turn order, and
their rounds serve in turn.  Each pass starts from the caller the one before left off at, so a run of
passes serves in turn as one list does, whatever arrives, ends or is refused between them.
-/

open Std

namespace Oneiron

open List Waiting

variable {T : Type}

/-- The order callers stand in. -/
def Before (a b : Bytes) : Prop := compare a b = .lt

instance : IsStrictTotalOrder Bytes Before where
  irrefl a h := by simp [Before, ReflCmp.compare_self] at h
  trans a b c hab hbc := TransCmp.lt_trans hab hbc
  trichotomous a b hab hba := by
    cases h : compare a b with
    | lt => exact absurd h hab
    | eq => exact LawfulEqOrd.eq_of_compare h
    | gt => exact absurd (OrientedCmp.gt_iff_lt.mp h) hba

/-! ## The queues of a pass -/

/-- The callers' queues as the rounds find them. -/
def queuesOf (items : List (Waiting T)) (now : ℕ) : List (Bytes × List T) :=
  (((items.filter (isDue now)).foldl Callers.push (∅ : Callers T)).toList).map fun entry =>
    (entry.1, oldestFirst entry.2)

variable {q : Bytes × List T} (items : List (Waiting T)) (after : Option Bytes) (now : ℕ)

theorem turns_eq : turns items after now =
      ⟨rounds ((queuesOf items now).rotate (startAt (queuesOf items now) after)),
        (items.filter (·.deadline ≤ now)).map Waiting.item⟩ := by
  rw [turns, foldl_sortOut]
  rfl

/-- A caller's due items, oldest first; those that arrived together stay as they were. -/
def dueOf (items : List (Waiting T)) (now : ℕ) (c : Bytes) : List (Waiting T) :=
  ((items.filter (isDue now)).filter (·.caller = c)).mergeSort fun v w =>
    (compare v.arrival w.arrival).isLE

theorem mem_queuesOf {items : List (Waiting T)} {now : ℕ} (h : q ∈ queuesOf items now) :
    q.2 = (dueOf items now q.1).map Waiting.item := by
  obtain ⟨⟨c, ws⟩, hmem, rfl⟩ := mem_map.mp h
  have hws : ws = ((items.filter (isDue now)).filter (·.caller = c)).map fun w =>
      (w.arrival, w.item) := by
    have hget := getD_foldl_push c (items.filter (isDue now)) ∅
    rw [ExtTreeMap.mem_toList_iff_getElem?_eq_some.mp hmem] at hget
    simpa using hget
  rw [hws, oldestFirst, dueOf, ← map_mergeSort (r := fun v w : Waiting T =>
    (compare v.arrival w.arrival).isLE) (fun _ _ _ _ => rfl), map_map]
  rfl

theorem map_fst_queuesOf : (queuesOf items now).map Prod.fst =
    ((items.filter (isDue now)).foldl Callers.push (∅ : Callers T)).keys := by
  rw [queuesOf, map_map]
  exact ExtTreeMap.map_fst_toList_eq_keys

theorem sorted_queuesOf : ((queuesOf items now).map Prod.fst).Pairwise Before := by
  rw [map_fst_queuesOf]
  exact ExtTreeMap.ordered_keys

/-- Who has a queue is who has an item due. -/
theorem mem_map_fst_queuesOf {items : List (Waiting T)} {now : ℕ} {c : Bytes} :
    c ∈ (queuesOf items now).map Prod.fst ↔ ∃ w ∈ items, w.isDue now ∧ w.caller = c := by
  rw [map_fst_queuesOf, ExtTreeMap.mem_keys, mem_foldl_push]
  simp [and_assoc]

theorem nodup_queuesOf : ((queuesOf items now).map Prod.fst).Nodup :=
  (sorted_queuesOf items now).imp fun {a b} (hab : Before a b) (heq : a = b) =>
    irrefl_of Before a (heq ▸ hab)

/-- **The queues hold what is due.** -/
theorem queuesOf_perm : ((queuesOf items now).flatMap fun q => q.2.map (q.1, ·)).Perm
      ((items.filter (isDue now)).map fun w => (w.caller, w.item)) := by
  have hparts := perm_flatMap_filter (f := caller) (l := items.filter (isDue now))
    (nodup_queuesOf items now) fun w hw => mem_map_fst_queuesOf.mpr
      ⟨w, (mem_filter.mp hw).1, (mem_filter.mp hw).2, rfl⟩
  refine .trans ?_ (hparts.symm.map _)
  rw [flatMap_map, map_flatMap]
  refine List.Perm.flatMap_left _ fun q hq => ?_
  rw [mem_queuesOf hq, map_map]
  refine ((mergeSort_perm _ _).map _).trans (.of_eq ?_)
  refine map_congr_left fun w hw => ?_
  rw [← of_decide_eq_true (mem_filter.mp hw).2]
  rfl

/-! ## The turns of a pass -/

/-- Whether a caller stands past the cursor. -/
def past (after : Option Bytes) (c : Bytes) : Bool := after.all fun a => compare a c = .lt

/-- **The first round starts past the cursor** and goes round. -/
theorem rotate_startAt : (queuesOf items now).rotate (startAt (queuesOf items now) after) =
      (queuesOf items now).filter (past after ·.1) ++ (queuesOf items now).filter (!past after ·.1) := by
  cases after with
  | none => simp [startAt, past]
  | some a =>
    refine rotate_findIdx? ?_
    have hsorted := sorted_queuesOf items now
    rw [pairwise_map] at hsorted
    refine hsorted.imp fun hbc hab => ?_
    exact decide_eq_true (TransCmp.lt_trans (of_decide_eq_true hab) hbc)

/-- The queues stand in turn order from the cursor. -/
theorem pairwise_rotate :
    (((queuesOf items now).rotate (startAt (queuesOf items now) after)).map Prod.fst).Pairwise
      (After Before after) := by
  have hsorted := sorted_queuesOf items now
  rw [rotate_startAt, map_append]
  rw [pairwise_map] at hsorted
  cases after with
  | none => simpa [past, pairwise_map, After] using hsorted
  | some a =>
    have hpast {c : Bytes} : past (some a) c = true ↔ Before a c := decide_eq_true_iff
    refine pairwise_append.mpr ⟨?_, ?_, ?_⟩
    · refine pairwise_map.mpr (List.Pairwise.imp_of_mem ?_ (hsorted.filter _))
      intro q q' hq hq' hbefore
      have hq := hpast.mp (mem_filter.mp hq).2
      have hq' := hpast.mp (mem_filter.mp hq').2
      exact .inr ⟨iff_of_true hq hq', hbefore⟩
    · refine pairwise_map.mpr (List.Pairwise.imp_of_mem ?_ (hsorted.filter _))
      intro q q' hq hq' hbefore
      have hq : ¬ Before a q.1 := fun h => by simpa [hpast.mpr h] using (mem_filter.mp hq).2
      have hq' : ¬ Before a q'.1 := fun h => by simpa [hpast.mpr h] using (mem_filter.mp hq').2
      exact .inr ⟨iff_of_false hq hq', hbefore⟩
    · intro c hc c' hc'
      obtain ⟨q, hq, rfl⟩ := mem_map.mp hc
      obtain ⟨q', hq', rfl⟩ := mem_map.mp hc'
      refine .inl ⟨hpast.mp (mem_filter.mp hq).2, fun h => ?_⟩
      simpa [hpast.mpr h] using (mem_filter.mp hq').2

theorem inTurn_turns :
    InTurn Before after (servings ((turns items after now).due.map Prod.fst)) := by
  rw [turns_eq]
  exact inTurn_rounds (pairwise_rotate items after now)

/-- **A pass reports what is due and what has ended**, each once. -/
theorem turns_perm : (turns items after now).due.Perm
      ((items.filter (isDue now)).map fun w => (w.caller, w.item)) := by
  rw [turns_eq]
  exact (rounds_perm _).trans (((rotate_perm _ _).flatMap_right _).trans (queuesOf_perm items now))

/-- **A caller's items are served oldest first.** -/
theorem filter_turns (c : Bytes) : ((turns items after now).due.filter (·.1 = c)).map Prod.snd =
      (dueOf items now c).map Waiting.item := by
  have hnodup := (nodup_queuesOf items now)
  by_cases hc : c ∈ (queuesOf items now).map Prod.fst
  · obtain ⟨q, hq, rfl⟩ := mem_map.mp hc
    rw [turns_eq, ← mem_queuesOf hq]
    refine filter_rounds ?_ (mem_rotate.mpr hq)
    rwa [map_rotate, nodup_rotate]
  · have hnone : ∀ w ∈ items, w.isDue now → w.caller ≠ c := fun w hw hdue heq =>
      hc (mem_map_fst_queuesOf.mpr ⟨w, hw, hdue, heq⟩)
    have hdue : (items.filter (isDue now)).filter (·.caller = c) = [] :=
      filter_eq_nil_iff.mpr fun w hw => by
        simpa using hnone w (mem_filter.mp hw).1 (mem_filter.mp hw).2
    have hserved : (turns items after now).due.filter (·.1 = c) = [] :=
      filter_eq_nil_iff.mpr fun p hp hpc => by
        obtain ⟨w, hw, rfl⟩ := mem_map.mp ((turns_perm items after now).mem_iff.mp hp)
        exact hnone w (mem_filter.mp hw).1 (mem_filter.mp hw).2 (of_decide_eq_true hpc)
    rw [hserved, dueOf, hdue, mergeSort_nil]
    rfl

theorem ne_nil_of_mem_queuesOf {items : List (Waiting T)} {now : ℕ} (h : q ∈ queuesOf items now) :
    q.2 ≠ [] := by
  obtain ⟨w, hw, hdue, hc⟩ := mem_map_fst_queuesOf.mp (mem_map.mpr ⟨q, h, rfl⟩)
  rw [mem_queuesOf h]
  refine ne_nil_of_mem (mem_map.mpr ⟨w, ?_, rfl⟩)
  exact mem_mergeSort.mpr (mem_filter.mpr ⟨mem_filter.mpr ⟨hw, hdue⟩, by simpa using hc⟩)

/-- **The first round** serves every caller with an item due, those past the cursor first, each
part in order. -/
theorem first_round : ∃ rest, (turns items after now).due.map Prod.fst =
      ((queuesOf items now).map Prod.fst).filter (past after) ++
        ((queuesOf items now).map Prod.fst).filter (!past after ·) ++ rest := by
  let turned := (queuesOf items now).rotate (startAt (queuesOf items now) after)
  refine ⟨(rounds (poppedLeft turned)).map Prod.fst, ?_⟩
  have hround : (popped turned).map Prod.fst = turned.map Prod.fst := by
    rw [map_fst_popped, filter_eq_self.mpr]
    intro q hq
    simpa using ne_nil_of_mem_queuesOf (mem_rotate.mp hq)
  have hturned : turned.map Prod.fst = ((queuesOf items now).map Prod.fst).filter (past after) ++
      ((queuesOf items now).map Prod.fst).filter (!past after ·) := by
    rw [show turned = _ from rotate_startAt items after now, map_append, filter_map,
      filter_map]
    rfl
  rw [turns_eq, rounds_eq, map_append, hround, hturned]

/-! ## Runs of passes -/

theorem Pass.leftOff_servings (p : Pass T) (after : Option Bytes) :
    leftOff (p.servings after) after = p.cursor after := by
  rw [leftOff, cursor, ← getLast?_map, ← getLast?_map, servings, map_take,
    map_caller_servings, served, map_take]

/-- **A run of passes serves in turn.** -/
theorem inTurn_serve : ∀ (passes : List (Pass T)) (after : Option Bytes),
    InTurn Before after (serve after passes)
  | [], _ => trivial
  | p :: passes, after => by
    rw [serve, inTurn_append, Pass.leftOff_servings]
    exact ⟨(inTurn_turns p.items after p.now).take p.landed, inTurn_serve passes _⟩

/-- **Retained-work turns are fair.**  A pass expires what is past its wait and serves the rest that
can run, each once, each caller's in arrival order; callers that still have an item have been served
equally often but for one; the first round goes round from the cursor.  And over passes that each
serve a prefix and leave their cursor, no caller with an item due is passed over twice by
another. -/
theorem retained_turns_fair :
    (∀ (items : List (Waiting T)) (after : Option Bytes) (now : ℕ),
      (turns items after now).expired = (items.filter (·.deadline ≤ now)).map Waiting.item ∧
      (turns items after now).due.Perm
        ((items.filter (isDue now)).map fun w => (w.caller, w.item)) ∧
      (∀ c, ((turns items after now).due.filter (·.1 = c)).map Prod.snd =
        (dueOf items now c).map Waiting.item) ∧
      (items.Pairwise (fun v w => (compare v.arrival w.arrival).isLE) → ∀ c,
        dueOf items now c = (items.filter (isDue now)).filter (·.caller = c)) ∧
      (∀ served left, (turns items after now).due.map Prod.fst = served ++ left →
        ∀ x ∈ left, ∀ y ∈ left, served.count y ≤ served.count x + 1) ∧
      ∃ callers rest : List Bytes, callers.Pairwise Before ∧
        (∀ c, c ∈ callers ↔ ∃ w ∈ items, w.isDue now ∧ w.caller = c) ∧
        (turns items after now).due.map Prod.fst =
          callers.filter (past after) ++ callers.filter (!past after ·) ++ rest) ∧
    ∀ (passes : List (Pass T)) (after : Option Bytes) (l l' mid : List (Serving Bytes))
      (e e' : Serving Bytes), serve after passes = l ++ e :: (mid ++ e' :: l') →
        e'.caller = e.caller → ∀ x ≠ e.caller, (∀ f ∈ mid ++ [e'], x ∈ f.waiting) →
          ∃ f ∈ mid, f.caller = x := by
  refine ⟨fun items after now => ⟨?_, turns_perm items after now, filter_turns items after now,
    fun harrival c => ?_, fun served left heq x hx y hy => ?_, ?_⟩,
    fun passes after l l' mid e e' heq hcaller x hx hwait => ?_⟩
  · rw [turns_eq]
  · exact mergeSort_of_pairwise ((harrival.filter _).filter _)
  · by_cases hxy : x = y
    · exact hxy ▸ Nat.le_succ _
    · exact (InTurn.count_le hxy hx (heq ▸ inTurn_turns items after now)).1
  · obtain ⟨rest, hrest⟩ := first_round items after now
    exact ⟨_, rest, sorted_queuesOf items now, fun c => mem_map_fst_queuesOf, hrest⟩
  · exact (heq ▸ inTurn_serve passes after).served_between hcaller hx hwait

/-- Two callers with one item each, and room to serve one. -/
def onePlace (m n : ℕ) : Pass ℕ := ⟨[⟨[1], [], 9, true, m⟩, ⟨[2], [], 9, true, n⟩], 3, 1⟩

theorem queuesOf_onePlace (m n : ℕ) :
    queuesOf (onePlace m n).items (onePlace m n).now = [([1], [m]), ([2], [n])] := by
  have hlist : (((∅ : Callers ℕ).insert [1] [([], m)]).insert [2] [([], n)]).toList =
      [([1], [([], m)]), ([2], [([], n)])] := rfl
  simp [queuesOf, onePlace, isDue, Callers.push, oldestFirst, hlist]

theorem rounds_pair (q q' : Bytes × ℕ) : rounds [(q.1, [q.2]), (q'.1, [q'.2])] = [q, q'] := by
  simp [rounds, popped, poppedLeft]

theorem serve_onePlace : serve none [onePlace 0 0, onePlace 1 0, onePlace 1 1] =
    [⟨[1], [[1], [2]]⟩, ⟨[2], [[2], [1]]⟩, ⟨[1], [[1], [2]]⟩] := by
  have hlanded (m n : ℕ) : (onePlace m n).landed = 1 := rfl
  have hfirst (after : Option Bytes) (hafter : after = none ∨ after = some [2]) (m n : ℕ) :
      (turns (onePlace m n).items after (onePlace m n).now).due = [([1], m), ([2], n)] := by
    rw [turns_eq, queuesOf_onePlace]
    rcases hafter with rfl | rfl <;> exact rounds_pair ([1], m) ([2], n)
  have hsecond (m n : ℕ) :
      (turns (onePlace m n).items (some [1]) (onePlace m n).now).due = [([2], n), ([1], m)] := by
    rw [turns_eq, queuesOf_onePlace]
    exact rounds_pair ([2], n) ([1], m)
  simp [serve, Pass.servings, Pass.cursor, Pass.served, hlanded, hfirst, hsecond, servings]

theorem retained_turns_fair_onePlace : ∃ f ∈ [(⟨[2], [[2], [1]]⟩ : Serving Bytes)], f.caller = [2] :=
  retained_turns_fair.2 [onePlace 0 0, onePlace 1 0, onePlace 1 1] none [] [] [⟨[2], [[2], [1]]⟩]
    ⟨[1], [[1], [2]]⟩ ⟨[1], [[1], [2]]⟩ serve_onePlace rfl [2] (by decide) (by simp)

end Oneiron
