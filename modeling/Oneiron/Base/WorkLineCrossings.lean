import Mathlib.Data.List.Range
import Oneiron.Base.WorkLineSafety

/-!
# Base/WorkLineCrossings — when a line is crossed, and what its crossing hears of it

    nobody waits --first wait, first shortage--▸ crossing e + 1 --last of them gone--▸ nobody waits
                                                    │ crossed                           │ drained
                                                    ▾                                   ▾
                                              owed, then said outside the lock, in any order

A crossing begins and ends under the line's lock (`CrossingMove`); what is said of it is said after
the lock is let go, so it may be heard late.  The order of the decisions is `Told`.
-/

namespace Oneiron

open WorkLine WorkQueue List

/-- What is said once in a list is said once in fewer of it, in any order. -/
theorem nodup_filterMap_of_subperm {α β : Type} {f : α → Option β} {l l' : List α}
    (h : l.Subperm l') (hnodup : (l'.filterMap f).Nodup) : (l.filterMap f).Nodup := by
  obtain ⟨kept, hperm, hsub⟩ := h
  exact (hperm.filterMap f).nodup_iff.mp ((hsub.filterMap f).nodup hnodup)

/-- What a line says to its crossing. -/
inductive Saying where
  | crossed (epoch observed : ℕ)
  | drained (epoch : ℕ)
  deriving DecidableEq

namespace Saying

def crossedEpoch : Saying → Option ℕ
  | crossed epoch _ => some epoch
  | drained _ => none

def drainedEpoch : Saying → Option ℕ
  | crossed _ _ => none
  | drained epoch => some epoch

end Saying

variable {K : Type}

/-- `say_crossed` and `say_drained`: what a call says once it let go of the lock. -/
def LineOutcome.sayings (outcome : LineOutcome K) : List Saying :=
  (outcome.crossed.map fun (epoch, observed) => Saying.crossed epoch observed).toList ++
    (outcome.drained.map Saying.drained).toList

/-- A line with its crossing, and what was decided, is owed and was said to it. -/
structure CrossedLine (K : Type) where
  line : WorkLine K
  /-- Whether a crossing is installed. -/
  crossing : Bool
  /-- In the order of the lock. -/
  decided : List Saying
  /-- Decided, the lock let go, not yet said. -/
  owed : List Saying
  /-- In the order a crossing heard it. -/
  said : List Saying

inductive CrossedOp (K : Type) where
  | call (op : LineOp K) (outcome : LineOutcome K)
  /-- `configure` swaps the crossing before it takes the queue's lock. -/
  | install (crossing : Bool)
  /-- A caller past the lock says what it owes. -/
  | say (saying : Saying)

variable [DecidableEq K]

/-- A new line under every sequence of calls, what each owes said at any later time. -/
def crossedLines (K : Type) [DecidableEq K] : System (CrossedLine K) (CrossedOp K) where
  init s := (∃ bound, s.line = .new bound) ∧ s.decided = [] ∧ s.owed = [] ∧ s.said = []
  step s op t := match op with
    | .call op outcome => ∃ line, s.line.call op = some (outcome, line) ∧ t = { s with
        line
        decided := s.decided ++ outcome.sayings
        owed := s.owed ++ outcome.sayings }
    | .install crossing => t = { s with crossing }
    | .say saying => ∃ before after, s.owed = before ++ saying :: after ∧ t = { s with
        owed := before ++ after
        said := if s.crossing then s.said ++ [saying] else s.said }

/-- Each saying is said before the next call, to a crossing that stays. -/
def CrossedLine.Prompt (s : CrossedLine K) : CrossedOp K → Prop
  | .call _ _ => s.owed = []
  | .install _ => False
  | .say _ => True

/-! ## What keeps a crossing in progress -/

namespace WorkQueue

variable {queue passed : WorkQueue K} {key : Option K} {w bound asking : ℕ}

/-- Somebody waits, or a bundle is short. -/
def Needs (queue : WorkQueue K) : Prop := queue.waiters > 0 ∨ queue.unmet > 0

omit [DecidableEq K] in
theorem waiters_pos (h : queue.line.WellFormed) :
    queue.waiters > 0 ↔ ∃ key, queue.lineOf key ≠ [] := by
  simp only [waiters, gt_iff_lt, Nat.add_pos_iff_pos_or_pos, length_pos_iff,
    List.sum_pos_iff_exists_pos_nat, List.mem_map]
  constructor
  · rintro (⟨n, ⟨key, -, rfl⟩, hpos⟩ | hbackground)
    · exact ⟨some key, List.length_pos_iff.mp hpos⟩
    · exact ⟨none, hbackground⟩
  · rintro ⟨_ | key, hkey⟩
    · exact .inr hkey
    · exact .inl ⟨_, ⟨key, h.mem_turns.mpr hkey, rfl⟩, List.length_pos_iff.mpr hkey⟩

/-- Fewer wait, no more is short, and no crossing began or ended. -/
structure Eases (queue eased : WorkQueue K) : Prop where
  needs : eased.Needs → queue.Needs
  asked : eased.asked = queue.asked
  epoch : eased.epoch = queue.epoch

namespace Eases

omit [DecidableEq K] in
theorem refl (queue : WorkQueue K) : Eases queue queue := ⟨id, rfl, rfl⟩

omit [DecidableEq K] in
theorem trans {eased : WorkQueue K} (h : Eases queue passed) (h' : Eases passed eased) :
    Eases queue eased :=
  ⟨h.needs ∘ h'.needs, h'.asked.trans h.asked, h'.epoch.trans h.epoch⟩

omit [DecidableEq K] in
/-- Whoever waits now waited before. -/
theorem of_lineOf (h : queue.line.WellFormed) (h' : passed.line.WellFormed)
    (hline : ∀ key, passed.lineOf key ≠ [] → queue.lineOf key ≠ [])
    (hunmet : passed.unmet = queue.unmet) (hasked : passed.asked = queue.asked)
    (hepoch : passed.epoch = queue.epoch) : Eases queue passed where
  needs := by
    rw [Needs, waiters_pos h', Needs, waiters_pos h, hunmet]
    exact Or.imp_left fun ⟨key, hkey⟩ => ⟨key, hline key hkey⟩
  asked := hasked
  epoch := hepoch

omit [DecidableEq K] in
theorem held (queue : WorkQueue K) (held : ℕ) : Eases queue { queue with held } := ⟨id, rfl, rfl⟩

omit [DecidableEq K] in
theorem roomReturned (queue : WorkQueue K) (bound : ℕ) : Eases queue (queue.roomReturned bound) := by
  rw [WorkQueue.roomReturned]
  split
  · exact ⟨Or.imp_right fun h => absurd h (Nat.lt_irrefl 0), rfl, rfl⟩
  · exact .refl queue

theorem remove (h : queue.line.WellFormed) (key : Option K) (w : ℕ) :
    Eases queue (queue.remove key w) := by
  refine of_lineOf h (wellFormed_remove h key w) (fun other hne hnil => hne ?_) ?_ ?_ ?_
  · rw [lineOf_remove]
    split
    case isTrue heq => rw [← heq, hnil, filter_nil]
    case isFalse => exact hnil
  all_goals cases key <;> rfl

theorem next_frame : queue.next.2.unmet = queue.unmet ∧ queue.next.2.asked = queue.asked ∧
    queue.next.2.epoch = queue.epoch := by
  unfold next
  split
  · split <;> exact ⟨rfl, rfl, rfl⟩
  · exact ⟨rfl, rfl, rfl⟩

theorem next (h : queue.line.WellFormed) : Eases queue queue.next.2 := by
  have hframe : queue.next.2.unmet = queue.unmet ∧ queue.next.2.asked = queue.asked ∧
      queue.next.2.epoch = queue.epoch := next_frame
  obtain ⟨hunmet, hasked, hepoch⟩ := hframe
  cases hnext : queue.next.1 with
  | none => exact (next_eq_none h hnext).1.symm ▸ .refl queue
  | some served =>
    obtain ⟨⟨left, hkey, hline⟩, -, hwf⟩ := next_eq_some h hnext
    refine of_lineOf h hwf (fun other hne hnil => hne ?_) hunmet hasked hepoch
    rw [hline]
    split
    case isTrue heq => simp [← heq, hnil] at hkey
    case isFalse => exact hnil

end Eases

/-- A crossing in progress is one somebody needs. -/
def InProgress (queue : WorkQueue K) : Prop := queue.asked = true ↔ queue.Needs

omit [DecidableEq K] in
/-- A crossing that somebody needs, after the end is looked for, is in progress; no other is. -/
theorem inProgress_endSettledCrossing (h : queue.Needs → queue.asked = true) :
    queue.endSettledCrossing.2.InProgress := by
  unfold endSettledCrossing
  split
  case isTrue hneeds => exact ⟨fun _ => hneeds, h⟩
  case isFalse hnone => exact ⟨nofun, fun hneeds => absurd hneeds hnone⟩

omit [DecidableEq K] in
theorem Eases.inProgress (h : Eases queue passed) (hprogress : queue.InProgress) :
    passed.endSettledCrossing.2.InProgress :=
  inProgress_endSettledCrossing fun hneeds => h.asked ▸ hprogress.mpr (h.needs hneeds)

omit [DecidableEq K] in
theorem inProgress_beginCrossing (h : queue.Needs) : (queue.beginCrossing asking).2.InProgress := by
  unfold beginCrossing
  split
  case isTrue hasked => exact ⟨fun _ => h, fun _ => hasked⟩
  case isFalse => exact ⟨fun _ => h, fun _ => rfl⟩

end WorkQueue

/-! ## What a call decides -/

/-- What a call does to the crossing: nothing, it begins the next, or it ends the one in progress. -/
inductive CrossingMove (queue : WorkQueue K) (outcome : LineOutcome K) (next : WorkQueue K) : Prop
  | stays : outcome.sayings = [] → next.asked = queue.asked → next.epoch = queue.epoch →
      CrossingMove queue outcome next
  | begins (observed : ℕ) : outcome.sayings = [.crossed (queue.epoch + 1) observed] →
      queue.asked = false → next.asked = true → next.epoch = queue.epoch + 1 →
      CrossingMove queue outcome next
  | ends : outcome.sayings = [.drained queue.epoch] → queue.asked = true → next.asked = false →
      next.epoch = queue.epoch → CrossingMove queue outcome next

namespace CrossingMove

variable {queue asking : WorkQueue K} {outcome : LineOutcome K}

omit [DecidableEq K] in
/-- A call that waits, or asks for more than there is. -/
theorem beginCrossing (hasked : asking.asked = queue.asked) (hepoch : asking.epoch = queue.epoch)
    (n : ℕ) (hcrossed : outcome.crossed = (asking.beginCrossing n).1)
    (hdrained : outcome.drained = none) :
    CrossingMove queue outcome (asking.beginCrossing n).2 := by
  unfold WorkQueue.beginCrossing at hcrossed ⊢
  split at hcrossed
  case isTrue h =>
    rw [if_pos h]
    exact .stays (by simp [LineOutcome.sayings, hcrossed, hdrained]) hasked hepoch
  case isFalse h =>
    rw [if_neg h]
    refine .begins (asking.held + asking.waiters + n) ?_ ?_ rfl (congrArg (· + 1) hepoch)
    · simp [LineOutcome.sayings, hcrossed, hdrained, hepoch]
    · rw [← hasked]
      exact Bool.eq_false_iff.mpr h

omit [DecidableEq K] in
/-- A call after which fewer wait. -/
theorem endSettledCrossing (h : WorkQueue.Eases queue asking) (hcrossed : outcome.crossed = none)
    (hdrained : outcome.drained = asking.endSettledCrossing.1) :
    CrossingMove queue outcome asking.endSettledCrossing.2 := by
  unfold WorkQueue.endSettledCrossing at hdrained ⊢
  split at hdrained
  case isTrue hneeds =>
    rw [if_pos hneeds]
    exact .stays (by simp [LineOutcome.sayings, hcrossed, hdrained]) h.asked h.epoch
  case isFalse hnone =>
    rw [if_neg hnone]
    cases hasked : asking.asked with
    | true =>
      refine .ends ?_ (h.asked ▸ hasked) rfl h.epoch
      simp [LineOutcome.sayings, hcrossed, hdrained, hasked, h.epoch]
    | false =>
      refine .stays ?_ (by rw [← h.asked, hasked]) h.epoch
      simp [LineOutcome.sayings, hcrossed, hdrained, hasked]

end CrossingMove

namespace Lines

variable {line : WorkLine K}

theorem eases_handOver (h : Lines line) : WorkQueue.Eases line.queue line.handOver.2.queue := by
  have hnext := WorkQueue.Eases.next h.wellFormed
  unfold WorkLine.handOver
  split
  all_goals
    rename_i hserved
    rw [hserved] at hnext
    exact hnext

theorem eases_grantFree : ∀ (room : ℕ) {line : WorkLine K}, Lines line →
    WorkQueue.Eases line.queue (WorkLine.grantFree room line).2.queue
  | 0, line, _ => .refl line.queue
  | room + 1, line, h => by
    have hpassed := h.eases_handOver
    rw [WorkLine.grantFree]
    cases hserved : line.handOver with
    | mk served passed =>
      rw [hserved] at hpassed
      cases served with
      | none => exact hpassed
      | some served =>
        have hlines := (h.lines_handOver (congrArg Prod.fst hserved)).1
        rw [hserved] at hlines
        have hraised : Lines { passed with
            queue := { passed.queue with held := passed.queue.held + 1 } } :=
          hlines.congr _ _ rfl rfl
        exact (hpassed.trans (.held _ _)).trans (eases_grantFree room hraised)

end Lines

variable {outcome : LineOutcome K}

namespace WorkLine

variable {line next : WorkLine K}

/-- **What a call does to the crossing**, and that it stays in progress while somebody needs it. -/
theorem crossing_of_call (h : LineSafe line) (hprogress : line.queue.InProgress) {op : LineOp K}
    (hcall : line.call op = some (outcome, next)) :
    CrossingMove line.queue outcome next.queue ∧ next.queue.InProgress := by
  cases op with
  | enter key =>
    obtain ⟨rfl, rfl⟩ := eq_of_some_eq hcall
    unfold enter
    split
    · exact ⟨.stays rfl rfl rfl, hprogress⟩
    · have hneeds : (line.queue.push key line.nextWaiter).Needs := by
        refine .inl ((waiters_pos (wellFormed_push h.wellFormed _ _)).mpr ⟨key, ?_⟩)
        rw [lineOf_push, if_pos rfl]
        simp
      exact ⟨.beginCrossing (by cases key <;> rfl) (by cases key <;> rfl) _ rfl rfl,
        inProgress_beginCrossing hneeds⟩
  | settle place =>
    simp only [call] at hcall
    split at hcall
    case isFalse => cases hcall
    case isTrue =>
      obtain ⟨rfl, rfl⟩ := eq_of_some_eq hcall
      unfold settle
      split
      · exact ⟨.stays rfl rfl rfl, hprogress⟩
      · have heases := WorkQueue.Eases.remove h.wellFormed place.2 place.1
        exact ⟨.endSettledCrossing heases rfl rfl, heases.inProgress hprogress⟩
  | release =>
    simp only [call] at hcall
    split at hcall
    case isTrue => cases hcall
    case isFalse =>
      obtain ⟨rfl, rfl⟩ := eq_of_some_eq hcall
      have hlines : Lines { line with permits := line.permits - 1 } := h.toLines.congr _ _ rfl rfl
      unfold release
      dsimp only
      split
      · exact ⟨.stays rfl rfl rfl, hprogress⟩
      · have hpassed := hlines.eases_handOver
        cases hserved : ({ line with permits := line.permits - 1 } : WorkLine K).handOver with
        | mk served passed =>
          rw [hserved] at hpassed
          cases served with
          | some served =>
            exact ⟨.endSettledCrossing hpassed rfl rfl, hpassed.inProgress hprogress⟩
          | none =>
            have heases := (hpassed.trans (.held _ (passed.queue.held - 1))).trans
              (.roomReturned _ passed.bound)
            exact ⟨.endSettledCrossing heases rfl rfl, heases.inProgress hprogress⟩
  | configure bound =>
    obtain ⟨rfl, rfl⟩ := eq_of_some_eq hcall
    have hraised : Lines { line with bound := max bound 1 } := h.toLines.congr _ _ rfl rfl
    have heases := (Lines.eases_grantFree (max bound 1 - line.queue.held) hraised).trans
      (.roomReturned _ (max bound 1))
    exact ⟨.endSettledCrossing heases rfl rfl, heases.inProgress hprogress⟩
  | tryAdmitBackground =>
    obtain ⟨rfl, rfl⟩ := eq_of_some_eq hcall
    unfold tryAdmitBackground
    split <;> exact ⟨.stays rfl rfl rfl, hprogress⟩
  | tryAdmitBackgroundBundle permits =>
    obtain ⟨rfl, rfl⟩ := eq_of_some_eq hcall
    unfold tryAdmitBackgroundBundle
    split
    case isTrue => exact ⟨.stays rfl rfl rfl, hprogress⟩
    case isFalse hroom =>
      have hshort : { line.queue with unmet := max line.queue.unmet permits }.Needs :=
        .inr (Nat.lt_of_lt_of_le (by omega) (Nat.le_max_right _ _))
      refine ⟨?_, inProgress_beginCrossing hshort⟩
      apply CrossingMove.beginCrossing <;> rfl

omit [DecidableEq K] in
/-- A bundle that finds too little room again begins no crossing. -/
theorem crossed_of_unmet (hprogress : line.queue.InProgress) (hunmet : line.queue.unmet > 0)
    (permits : ℕ) : (line.tryAdmitBackgroundBundle permits).1.crossed = none := by
  have hasked : line.queue.asked = true := hprogress.mpr (.inr hunmet)
  unfold tryAdmitBackgroundBundle
  split
  · rfl
  · simp [beginCrossing, hasked]

end WorkLine

/-! ## The order of the decisions -/

/-- Crossings one after another, each begun and then over, the last perhaps in progress. -/
inductive Told : List Saying → (epoch : ℕ) → (asked : Bool) → Prop
  | nil : Told [] 0 false
  | crossed {decided : List Saying} {epoch : ℕ} (observed : ℕ) : Told decided epoch false →
      Told (decided ++ [.crossed (epoch + 1) observed]) (epoch + 1) true
  | drained {decided : List Saying} {epoch : ℕ} : Told decided epoch true →
      Told (decided ++ [.drained epoch]) epoch false

namespace Told

variable {decided : List Saying} {epoch : ℕ} {asked : Bool}

/-- The epochs count up. -/
theorem crossed_eq (h : Told decided epoch asked) :
    decided.filterMap Saying.crossedEpoch = range' 1 epoch := by
  induction h with
  | nil => rfl
  | crossed observed _ ih =>
    rw [filterMap_append, ih, range'_concat, Nat.one_mul, Nat.add_comm 1]
    rfl
  | drained _ ih =>
    rw [filterMap_append, ih]
    exact append_nil _

/-- Each but the one in progress is over, in the same order. -/
theorem drained_eq (h : Told decided epoch asked) :
    decided.filterMap Saying.drainedEpoch = range' 1 (if asked then epoch - 1 else epoch) := by
  induction h with
  | nil => rfl
  | crossed observed _ ih =>
    rw [filterMap_append, ih]
    exact append_nil _
  | @drained decided epoch h ih =>
    have hpos : 0 < epoch := by cases h with | crossed => exact Nat.succ_pos _
    obtain ⟨n, rfl⟩ := Nat.exists_eq_succ_of_ne_zero hpos.ne'
    rw [filterMap_append, ih]
    simp [range'_concat, Saying.drainedEpoch, Nat.add_comm 1]

/-- A crossing that is over had begun. -/
theorem crossed_before (h : Told decided epoch asked) {before after : List Saying} {ended : ℕ}
    (heq : decided = before ++ .drained ended :: after) :
    ended ∈ before.filterMap Saying.crossedEpoch := by
  induction h generalizing before after with
  | nil => simp at heq
  | crossed observed h ih =>
    rcases eq_nil_or_concat after with rfl | ⟨after, last, rfl⟩
    · cases (append_inj' heq rfl).2
    · rw [concat_eq_append, ← cons_append, ← append_assoc] at heq
      exact ih (append_inj' heq rfl).1
  | drained h ih =>
    rcases eq_nil_or_concat after with rfl | ⟨after, last, rfl⟩
    · obtain ⟨rfl, hlast⟩ := append_inj' heq rfl
      cases hlast
      rw [h.crossed_eq]
      cases h with | crossed => simp [mem_range'_1]
    · rw [concat_eq_append, ← cons_append, ← append_assoc] at heq
      exact ih (append_inj' heq rfl).1

end Told

/-! ## Runs -/

/-- The line is safe, its crossing in progress while needed, and all that was decided is told. -/
structure Crossings (s : CrossedLine K) : Prop where
  safe : LineSafe s.line
  inProgress : s.line.queue.InProgress
  told : Told s.decided s.line.queue.epoch s.line.queue.asked
  /-- Nothing is said twice, and nothing that was not decided. -/
  subperm : (s.said ++ s.owed).Subperm s.decided

namespace Crossings

variable {s t : CrossedLine K}

omit [DecidableEq K] in
theorem told_of_move {queue next : WorkQueue K} {decided : List Saying}
    (hmove : CrossingMove queue outcome next) (h : Told decided queue.epoch queue.asked) :
    Told (decided ++ outcome.sayings) next.epoch next.asked := by
  cases hmove with
  | stays hnone hasked hepoch => rwa [hnone, append_nil, hasked, hepoch]
  | begins observed hsaid hasked hasked' hepoch =>
    rw [hsaid, hasked', hepoch]
    exact .crossed observed (hasked ▸ h)
  | ends hsaid hasked hasked' hepoch =>
    rw [hsaid, hasked', hepoch]
    exact .drained (hasked ▸ h)

theorem step (h : Crossings s) {op : CrossedOp K} (hstep : (crossedLines K).step s op t) :
    Crossings t := by
  cases op with
  | call op outcome =>
    obtain ⟨line, hcall, rfl⟩ := hstep
    obtain ⟨hmove, hprogress⟩ := crossing_of_call h.safe h.inProgress hcall
    refine ⟨safe_of_call h.safe hcall, hprogress, told_of_move hmove h.told, ?_⟩
    rw [← append_assoc]
    exact (subperm_append_right _).mpr h.subperm
  | install crossing =>
    obtain rfl := hstep
    exact ⟨h.safe, h.inProgress, h.told, h.subperm⟩
  | say saying =>
    obtain ⟨before, after, howed, rfl⟩ := hstep
    refine ⟨h.safe, h.inProgress, h.told, List.Subperm.trans ?_ h.subperm⟩
    rw [howed]
    split
    · refine List.Perm.subperm ?_
      rw [append_assoc, singleton_append]
      exact List.Perm.append_left _ perm_middle.symm
    · exact ((sublist_cons_self _ _).append_left before |>.append_left s.said).subperm

theorem of_reachable (h : (crossedLines K).Reachable s) : Crossings s := by
  refine h.invariant Crossings (fun hi => ?_) fun hs hstep => hs.step hstep
  obtain ⟨⟨bound, hline⟩, hdecided, howed, hsaid⟩ := hi
  refine ⟨hline ▸ .start bound, ?_, ?_, by simp [hdecided, howed, hsaid]⟩
  · simp [hline, WorkQueue.InProgress, WorkQueue.Needs, WorkLine.new, WorkQueue.new,
      waiters, FairLine.empty]
  · simpa [hline, hdecided, WorkLine.new, WorkQueue.new] using Told.nil

end Crossings

omit [DecidableEq K] in
theorem CrossingMove.sayings_length {queue next : WorkQueue K} (h : CrossingMove queue outcome next)
    : outcome.sayings.length ≤ 1 := by
  cases h with
  | stays hsaid => exact hsaid ▸ Nat.zero_le 1
  | begins observed hsaid | ends hsaid => exact hsaid ▸ Nat.le_refl 1

/-- Said at once, to one crossing, what is heard is what was decided, in its order. -/
theorem said_of_prompt {s : CrossedLine K}
    (h : ((crossedLines K).restrict CrossedLine.Prompt).Reachable s) (hcrossing : s.crossing = true) :
    s.said ++ s.owed = s.decided := by
  suffices hall : Crossings s ∧ s.owed.length ≤ 1 ∧
      (s.crossing = true → s.said ++ s.owed = s.decided) from hall.2.2 hcrossing
  refine h.invariant (fun s => Crossings s ∧ s.owed.length ≤ 1 ∧
    (s.crossing = true → s.said ++ s.owed = s.decided)) (fun {s} hi => ?_) fun {s op t} hs hstep => ?_
  · have hcrossings : Crossings s := .of_reachable (.start hi)
    obtain ⟨-, hdecided, howed, hsaid⟩ := hi
    exact ⟨hcrossings, by simp [howed], fun _ => by simp [hdecided, howed, hsaid]⟩
  · obtain ⟨hcrossings, hlength, hsame⟩ := hs
    obtain ⟨hstep, hprompt⟩ := hstep
    refine ⟨hcrossings.step hstep, ?_⟩
    cases op with
    | call op outcome =>
      obtain ⟨line, hcall, rfl⟩ := hstep
      obtain ⟨hmove, -⟩ := crossing_of_call hcrossings.safe hcrossings.inProgress hcall
      have hnone : s.owed = [] := hprompt
      refine ⟨by simpa [hnone] using hmove.sayings_length, fun hcrossing => ?_⟩
      rw [← hsame hcrossing, append_assoc]
    | install crossing => exact hprompt.elim
    | say saying =>
      obtain ⟨before, after, howed, rfl⟩ := hstep
      obtain ⟨rfl, rfl⟩ : before = [] ∧ after = [] := by
        simp only [howed, length_append, length_cons] at hlength
        exact ⟨length_eq_zero_iff.mp (by omega), length_eq_zero_iff.mp (by omega)⟩
      refine ⟨Nat.zero_le 1, fun hcrossing => ?_⟩
      rw [if_pos hcrossing, ← hsame hcrossing, howed]
      simp

/-- **Crossings of a line.**  They begin, under its lock, with epochs strictly increasing, and each
is over once at most, after it began; a crossing hears each saying at most once, and only what was
decided before: in its order, while each is said before the next call.  A crossing is in progress
exactly while somebody waits or a bundle is short, and a bundle tried again meanwhile begins none. -/
theorem workLine_crossings :
    (∀ s : CrossedLine K, (crossedLines K).Reachable s →
      (s.decided.filterMap Saying.crossedEpoch).Pairwise (· < ·) ∧
      (s.decided.filterMap Saying.drainedEpoch).Nodup ∧
      (∀ before after epoch, s.decided = before ++ .drained epoch :: after →
        epoch ∈ before.filterMap Saying.crossedEpoch) ∧
      (s.said.filterMap Saying.crossedEpoch).Nodup ∧
      (s.said.filterMap Saying.drainedEpoch).Nodup ∧
      (∀ saying ∈ s.said, saying ∈ s.decided) ∧
      (s.line.queue.asked = true ↔
        (∃ key w, w ∈ s.line.queue.lineOf key) ∨ 0 < s.line.queue.unmet) ∧
      ∀ permits, 0 < s.line.queue.unmet →
        (s.line.tryAdmitBackgroundBundle permits).1.crossed = none) ∧
    ∀ s : CrossedLine K, ((crossedLines K).restrict CrossedLine.Prompt).Reachable s →
      s.crossing = true → s.said ++ s.owed = s.decided := by
  refine ⟨fun s h => ?_, fun s h => said_of_prompt h⟩
  have hs := Crossings.of_reachable h
  have hcrossed : (s.decided.filterMap Saying.crossedEpoch).Pairwise (· < ·) := by
    rw [hs.told.crossed_eq]
    exact pairwise_lt_range'
  have hdrained : (s.decided.filterMap Saying.drainedEpoch).Nodup := by
    rw [hs.told.drained_eq]
    exact nodup_range'
  have hsaid : s.said.Subperm s.decided :=
    (sublist_append_left s.said s.owed).subperm.trans hs.subperm
  have hneeds : s.line.queue.Needs ↔
      (∃ key w, w ∈ s.line.queue.lineOf key) ∨ 0 < s.line.queue.unmet := by
    simp only [WorkQueue.Needs, waiters_pos hs.safe.wellFormed, ne_eq,
      eq_nil_iff_forall_not_mem, not_forall, not_not]
  exact ⟨hcrossed, hdrained, fun before after epoch heq => hs.told.crossed_before heq,
    nodup_filterMap_of_subperm hsaid (hcrossed.imp Nat.ne_of_lt),
    nodup_filterMap_of_subperm hsaid hdrained, fun saying hsaying => hsaid.subset hsaying,
    hs.inProgress.trans hneeds,
    fun permits hunmet => crossed_of_unmet hs.inProgress hunmet permits⟩

/-- A line of one permit, held by a caller of key 3 while one of key 7 waits. -/
def waitingLine : CrossedLine ℕ :=
  ⟨((WorkLine.new 1).enter (some 3)).2.enter (some 7) |>.2, true, [.crossed 1 2], [.crossed 1 2], []⟩

theorem reachable_waitingLine : (crossedLines ℕ).Reachable waitingLine := by
  have hfirst : (crossedLines ℕ).Reachable ⟨((WorkLine.new 1).enter (some 3)).2, true, [], [], []⟩ :=
    .step (.start ⟨⟨1, rfl⟩, rfl, rfl, rfl⟩)
      (show (crossedLines ℕ).step ⟨.new 1, true, [], [], []⟩ (.call (.enter (some 3)) _) _ from
        ⟨_, rfl, rfl⟩)
  exact .step hfirst (show (crossedLines ℕ).step _ (.call (.enter (some 7)) _) _ from ⟨_, rfl, rfl⟩)

/-- …where one crossing is in progress. -/
theorem workLine_crossings_waiting :
    waitingLine.line.queue.asked = true ∧
      (waitingLine.decided.filterMap Saying.crossedEpoch).Pairwise (· < ·) :=
  ⟨(workLine_crossings.1 waitingLine reachable_waitingLine).2.2.2.2.2.2.1.mpr
      (.inl ⟨some 7, 0, by decide⟩),
    (workLine_crossings.1 waitingLine reachable_waitingLine).1⟩

/-- A caller slow to say its crossing is overtaken: the crossing ends as its waiter is granted, the
next begins, and both are heard before it. -/
theorem crossings_heard_late : ∃ s : CrossedLine ℕ, (crossedLines ℕ).Reachable s ∧
    ¬ (s.said.filterMap Saying.crossedEpoch).Pairwise (· < ·) ∧ s.said.head? = some (.drained 1) := by
  have hpassed := (reachable_waitingLine).step
    (show (crossedLines ℕ).step _ (.call .release _) _ from ⟨_, rfl, rfl⟩)
  have hnext := hpassed.step
    (show (crossedLines ℕ).step _ (.call (.enter (some 9)) _) _ from ⟨_, rfl, rfl⟩)
  have hdrained := hnext.step (show (crossedLines ℕ).step _ (.say (.drained 1)) _ from
    ⟨[.crossed 1 2], [.crossed 2 2], by decide, rfl⟩)
  have hlater := hdrained.step (show (crossedLines ℕ).step _ (.say (.crossed 2 2)) _ from
    ⟨[.crossed 1 2], [], by decide, rfl⟩)
  have hfirst := hlater.step (show (crossedLines ℕ).step _ (.say (.crossed 1 2)) _ from
    ⟨[], [], by decide, rfl⟩)
  exact ⟨_, hfirst, by decide, by decide⟩

end Oneiron
