import Oneiron.Base.WorkLineSafety

/-!
# Base/WorkLineTurns — whose turn it is

While a key waits, every permit is out, so nothing is admitted past it and permits only pass on in
turn.  Each passes to the first of the keys ahead of it (`PassesOn`), until its own turn comes: before
that each other key has at most one, and the host's own work none (`workLine_fair`).
-/

namespace Oneiron

open FairLine WorkQueue List

variable {K : Type} [DecidableEq K]

namespace WorkLine

variable {line next : WorkLine K} {a : K}

/-- The keys with a turn before `a`'s. -/
def ahead (a : K) (line : WorkLine K) : List (Option K) := (line.queue.line.ahead a).map some

/-- Permits passed on in turn while `a` waits. -/
def PassesOn (a : K) (line : WorkLine K) (grants : List (Option K)) (next : WorkLine K) : Prop :=
  Passes (some a) (line.ahead a) grants (next.ahead a) (a ∈ next.queue.line.turns)

/-- A call that grants nothing and brings nobody ahead. -/
theorem PassesOn.nil (hwaits : a ∈ next.queue.line.turns)
    (hahead : (next.queue.line.ahead a).Sublist (line.queue.line.ahead a)) :
    PassesOn a line [] next :=
  Passes.nil hwaits (hahead.map some)

/-- A permit that passes to the first key of the round, before what follows. -/
theorem PassesOn.cons (h : Lines line) (hwaits : a ∈ line.queue.line.turns) {key : Option K} {w : ℕ}
    (hsome : line.handOver.1 = some (key, w)) {grants : List (Option K)}
    (hrest : a ∈ line.handOver.2.queue.line.turns → PassesOn a line.handOver.2 grants next) :
    PassesOn a line (key :: grants) next := by
  have hturns : line.queue.line.turns.isEmpty = false := by
    rw [isEmpty_eq_false_iff]
    exact ne_nil_of_mem hwaits
  obtain ⟨first, v, hserve, hturn⟩ := FairLine.serve_turn h.wellFormed hwaits
  have hnext : line.queue.next =
      (some (some first, v), { line.queue with line := line.queue.line.serve.2 }) := by
    simp [WorkQueue.next, hturns, hserve]
  rw [handOver, hnext] at hsome hrest
  obtain ⟨rfl, rfl⟩ := Prod.mk.inj (Option.some.inj hsome)
  refine Passes.cons fun hne => ?_
  obtain ⟨hwaits', hahead⟩ := hturn fun heq => hne (heq ▸ rfl)
  refine ⟨_, ?_, hrest hwaits'⟩
  unfold ahead
  rw [hahead, map_cons]

theorem passes_grantFree : ∀ (room : ℕ) {line : WorkLine K}, Lines line →
    a ∈ line.queue.line.turns →
      PassesOn a line ((grantFree room line).1.map Prod.fst) (grantFree room line).2
  | 0, line, _, hwaits => .nil hwaits (.refl _)
  | room + 1, line, h, hwaits => by
    rw [grantFree]
    cases hserved : line.handOver with
    | mk served passed =>
      cases served with
      | none =>
        obtain ⟨heq, -⟩ := h.handOver_none (congrArg Prod.fst hserved)
        rw [hserved] at heq
        obtain rfl : passed = line := heq
        exact .nil hwaits (.refl _)
      | some served =>
        have hsome := congrArg Prod.fst hserved
        have hpassed := (h.lines_handOver hsome).1
        refine PassesOn.cons h hwaits hsome fun hwaits' => ?_
        rw [hserved] at hpassed hwaits' ⊢
        have hraised : Lines { passed with
            queue := { passed.queue with held := passed.queue.held + 1 } } :=
          hpassed.congr _ _ rfl rfl
        exact passes_grantFree room hraised hwaits'

/-- Only the round counts. -/
theorem PassesOn.congr {line' next' : WorkLine K} {grants : List (Option K)}
    (h : PassesOn a line grants next) (hline : line'.queue.line = line.queue.line)
    (hnext : next'.queue.line = next.queue.line) : PassesOn a line' grants next' := by
  unfold PassesOn ahead at *
  rwa [hline, hnext]

theorem passes_release (h : LineSafe line) (hwaits : a ∈ line.queue.line.turns) :
    PassesOn a line line.release.1.grants line.release.2 := by
  have hlines : Lines { line with permits := line.permits - 1 } := h.toLines.congr _ _ rfl rfl
  unfold release
  dsimp only
  split
  · exact .nil hwaits (.refl _)
  · cases hserved : ({ line with permits := line.permits - 1 } : WorkLine K).handOver with
    | mk served passed =>
      cases served with
      | none =>
        obtain ⟨-, hempty⟩ := hlines.handOver_none (congrArg Prod.fst hserved)
        exact absurd (hempty (some a)) (h.wellFormed.mem_turns.mp hwaits)
      | some served =>
        obtain ⟨key, w⟩ := served
        have hone : PassesOn a { line with permits := line.permits - 1 } [key] _ :=
          .cons hlines hwaits (congrArg Prod.fst hserved) fun hwaits' => .nil hwaits' (.refl _)
        rw [hserved] at hone
        exact hone.congr rfl endSettledCrossing_line

theorem passes_configure (h : LineSafe line) (hwaits : a ∈ line.queue.line.turns) (bound : ℕ) :
    PassesOn a line (line.configure bound).1.grants (line.configure bound).2 := by
  have hraised : Lines { line with bound := max bound 1 } := h.toLines.congr _ _ rfl rfl
  have hpass := passes_grantFree (max bound 1 - line.queue.held) hraised hwaits
  exact hpass.congr rfl (endSettledCrossing_line.trans roomReturned_line)

omit [DecidableEq K] in
/-- A key waits only at a full line. -/
theorem full_of_waits (h : LineSafe line) (hwaits : a ∈ line.queue.line.turns) :
    line.bound ≤ line.queue.held := by
  by_contra hfree
  exact h.wellFormed.mem_turns.mp hwaits (h.idle (Nat.lt_of_not_le hfree) (some a))

/-- **Every call passes permits on in turn** while a key waits. -/
theorem passes_call (h : LineSafe line) (hwaits : a ∈ line.queue.line.turns) {op : LineOp K}
    {outcome : LineOutcome K} (hcall : line.call op = some (outcome, next))
    (hstill : some a ∉ outcome.grants → a ∈ next.queue.line.turns) :
    PassesOn a line outcome.grants next := by
  have hfull := full_of_waits h hwaits
  cases op with
  | enter key =>
    obtain ⟨rfl, rfl⟩ := eq_of_some_eq hcall
    rw [enter, if_neg (Nat.not_lt.mpr hfull)] at hstill ⊢
    refine .nil (hstill not_mem_nil) ?_
    rw [beginCrossing_line]
    cases key with
    | none => exact .refl _
    | some key => rw [WorkQueue.push, ahead_enqueue hwaits]
  | settle place =>
    simp only [call] at hcall
    split at hcall
    · obtain ⟨rfl, rfl⟩ := eq_of_some_eq hcall
      obtain ⟨w, key⟩ := place
      unfold settle at hstill ⊢
      split at hstill
      · rw [if_pos ‹_›]
        exact .nil hwaits (.refl _)
      · rw [if_neg ‹_›]
        have hleft := hstill not_mem_nil
        refine .nil hleft ?_
        rw [endSettledCrossing_line] at hleft ⊢
        cases key with
        | none => exact .refl _
        | some key => exact ahead_leave hleft
    · cases hcall
  | release =>
    simp only [call] at hcall
    split at hcall
    · cases hcall
    · obtain ⟨rfl, rfl⟩ := eq_of_some_eq hcall
      exact passes_release h hwaits
  | configure bound =>
    obtain ⟨rfl, rfl⟩ := eq_of_some_eq hcall
    exact passes_configure h hwaits bound
  | tryAdmitBackground =>
    obtain ⟨rfl, rfl⟩ := eq_of_some_eq hcall
    rw [tryAdmitBackground, if_pos hfull]
    exact .nil hwaits (.refl _)
  | tryAdmitBackgroundBundle permits =>
    obtain ⟨rfl, rfl⟩ := eq_of_some_eq hcall
    unfold tryAdmitBackgroundBundle
    split
    · obtain rfl : permits = 0 := by omega
      exact .nil hwaits (.refl _)
    · refine .nil ?_ ?_
      · rw [beginCrossing_line]
        exact hwaits
      · rw [beginCrossing_line]

/-! ## Within one key -/

/-- The waiters of a key among those handed a permit, in order. -/
def handedTo (key : Option K) (handed : List (Option K × ℕ)) : List ℕ :=
  (handed.filter (·.1 = key)).map Prod.snd

theorem handedTo_grantFree (key : Option K) : ∀ (room : ℕ) {line : WorkLine K}, Lines line →
    handedTo key (grantFree room line).1 <+: line.queue.lineOf key
  | 0, line, _ => nil_prefix
  | room + 1, line, h => by
    rw [grantFree]
    cases hserved : line.handOver with
    | mk served passed =>
      cases served with
      | none => exact nil_prefix
      | some served =>
        obtain ⟨first, w⟩ := served
        have hsome := congrArg Prod.fst hserved
        have hpassed := (h.lines_handOver hsome).1
        obtain ⟨⟨left, hfirst, hother⟩, -⟩ := h.handOver_some hsome
        rw [hserved] at hpassed hother
        have hraised : Lines { passed with
            queue := { passed.queue with held := passed.queue.held + 1 } } :=
          hpassed.congr _ _ rfl rfl
        have hrest := handedTo_grantFree key room hraised
        have hsame : ({ passed.queue with held := passed.queue.held + 1 } : WorkQueue K).lineOf key =
            passed.queue.lineOf key := lineOf_congr rfl rfl key
        rw [hsame, show passed.queue.lineOf key = _ from hother key] at hrest
        unfold handedTo at hrest ⊢
        by_cases hkey : key = first
        · subst hkey
          rw [if_pos rfl] at hrest
          rw [filter_cons_of_pos (by simp), map_cons, hfirst]
          exact cons_prefix_cons.mpr ⟨rfl, hrest⟩
        · rw [if_neg hkey] at hrest
          rw [filter_cons_of_neg (by simpa using Ne.symm hkey)]
          exact hrest

theorem handedTo_release (h : LineSafe line) (key : Option K) :
    handedTo key line.release.1.handed <+: line.queue.lineOf key := by
  have hlines : Lines { line with permits := line.permits - 1 } := h.toLines.congr _ _ rfl rfl
  unfold release
  dsimp only
  split
  · exact nil_prefix
  · cases hserved : ({ line with permits := line.permits - 1 } : WorkLine K).handOver with
    | mk served passed =>
      cases served with
      | none => exact nil_prefix
      | some served =>
        obtain ⟨first, w⟩ := served
        obtain ⟨⟨left, hfirst, -⟩, -⟩ := hlines.handOver_some (congrArg Prod.fst hserved)
        by_cases hkey : first = key
        · subst hkey
          rw [show line.queue.lineOf first = w :: left from hfirst]
          exact ⟨left, by simp [handedTo]⟩
        · simp [handedTo, hkey]

/-- Each call hands permits to the oldest waiters of a key. -/
theorem handedTo_call (h : LineSafe line) {op : LineOp K} {outcome : LineOutcome K}
    (hcall : line.call op = some (outcome, next)) (key : Option K) :
    handedTo key outcome.handed <+: line.queue.lineOf key := by
  cases op with
  | enter other =>
    obtain ⟨rfl, rfl⟩ := eq_of_some_eq hcall
    unfold enter
    split <;> exact nil_prefix
  | settle place =>
    simp only [call] at hcall
    split at hcall
    · obtain ⟨rfl, rfl⟩ := eq_of_some_eq hcall
      unfold settle
      split <;> exact nil_prefix
    · cases hcall
  | release =>
    simp only [call] at hcall
    split at hcall
    · cases hcall
    · obtain ⟨rfl, rfl⟩ := eq_of_some_eq hcall
      exact handedTo_release h key
  | configure bound =>
    obtain ⟨rfl, rfl⟩ := eq_of_some_eq hcall
    have hraised : Lines { line with bound := max bound 1 } := h.toLines.congr _ _ rfl rfl
    exact handedTo_grantFree key _ hraised
  | tryAdmitBackground =>
    obtain ⟨rfl, rfl⟩ := eq_of_some_eq hcall
    unfold tryAdmitBackground
    split <;> exact nil_prefix
  | tryAdmitBackgroundBundle permits =>
    obtain ⟨rfl, rfl⟩ := eq_of_some_eq hcall
    unfold tryAdmitBackgroundBundle
    split <;> exact nil_prefix

end WorkLine

open WorkLine

/-- **A line is fair**: from any moment on, for as long as a key waits, each other key has at most
one permit before its own and the host's own work has none; and each call hands permits to the
oldest waiters of a key, who are numbered as they come. -/
theorem workLine_fair {line later : WorkLine K} (h : (workLines K).Reachable line)
    {calls : List (LineOp K × LineOutcome K)} (hrun : (workLines K).Run line calls later) :
    (∀ a, (workLines K).WaitsFor (fun called => called.2.grants)
        (fun line => line.queue.lineOf (some a) ≠ []) (some a) line calls →
      ((calls.flatMap fun called => called.2.grants).takeWhile (· ≠ some a)).Nodup ∧
      none ∉ (calls.flatMap fun called => called.2.grants).takeWhile (· ≠ some a)) ∧
    ∀ key, (later.queue.lineOf key ++ [later.nextWaiter]).Pairwise (· < ·) ∧
      ∀ op outcome next, (workLines K).step later (op, outcome) next →
        handedTo key outcome.handed <+: later.queue.lineOf key := by
  refine ⟨fun a hwaits => ?_, fun key => ?_⟩
  · have hsafe := safe_of_reachable h
    have hsub : ((calls.flatMap fun called => called.2.grants).takeWhile (· ≠ some a)).Sublist
        (line.ahead a) := by
      refine hrun.grants_sublist LineSafe (fun {s called t} hs hw hcall => ?_) hsafe hwaits
      have ht := safe_of_call hs hcall
      refine ⟨ht, fun hstill => ?_⟩
      have hpass := passes_call hs (hs.wellFormed.mem_turns.mpr hw) hcall fun hnot =>
        ht.wellFormed.mem_turns.mpr (hstill hnot)
      exact ⟨fun hnot => ⟨hstill hnot, (hpass.others hnot).2⟩, hpass.own⟩
    refine ⟨?_, fun hmem => ?_⟩
    · exact ((nodup_ahead hsafe.wellFormed a).map fun _ _ => Option.some.inj).sublist hsub
    · obtain ⟨key, -, hnone⟩ := mem_map.mp (hsub.mem hmem)
      cases hnone
  · have hsafe := safe_of_reachable (hrun.reachable h)
    refine ⟨pairwise_append.mpr ⟨hsafe.sorted key, pairwise_singleton _ _, ?_⟩,
      fun op outcome next hcall => handedTo_call hsafe hcall key⟩
    intro w hw v hv
    rw [mem_singleton] at hv
    exact hv ▸ hsafe.places_lt _ (hsafe.mem_lineOf.mp hw).1

/-- A line of one permit, with two keys waiting for it. -/
def lineWaiting : WorkLine ℕ :=
  (((WorkLine.new 1).enter (some 3)).2.enter (some 7)).2.enter (some 5) |>.2

theorem reachable_lineWaiting : (workLines ℕ).Reachable lineWaiting :=
  .foldl (f := fun (line : WorkLine ℕ) key => (line.enter (some key)).2)
    (fun _ key => .inr ⟨(.enter (some key), _), rfl⟩) [3, 7, 5] (.start ⟨1, rfl⟩)

/-- …as its permit passes to the first of them. -/
theorem workLine_fair_waiting :
    ((lineWaiting.release.1.grants ++ []).takeWhile (· ≠ some 5)) = [some 7] ∧
    ((lineWaiting.release.1.grants ++ []).takeWhile (· ≠ some 5)).Nodup := by
  have hcall : (workLines ℕ).step lineWaiting (.release, lineWaiting.release.1)
      lineWaiting.release.2 := rfl
  refine ⟨by decide, ((workLine_fair reachable_lineWaiting (.cons hcall (.nil _))).1 5 ?_).1⟩
  intro before later mid heq hrun _
  rcases hrun with _ | ⟨hstep, hrest⟩
  · decide
  · obtain ⟨rfl, hnil⟩ := cons.inj heq
    obtain ⟨rfl, rfl⟩ := append_eq_nil_iff.mp hnil.symm
    cases hrest
    obtain ⟨-, rfl⟩ := eq_of_some_eq (hcall.symm.trans hstep)
    decide

end Oneiron
