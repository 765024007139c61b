import Oneiron.Base.WorkLine
import Oneiron.Foundations.Places

/-!
# Base/WorkLineSafety — a line neither loses a permit nor gives one too many

`Lines` ties the queue to the callers' places: whoever waits in a line has an unsettled place and no
permit.  With it, `held` counts the live permits and the permits handed over and not come for
(`LineSafe.held`), and a line with a free permit has nobody waiting (`LineSafe.idle`).
-/

namespace Oneiron

open FairLine WorkQueue

variable {K : Type}

/-! ## The queue -/

namespace WorkQueue

variable {queue : WorkQueue K} {key other : Option K} {w bound asking : ℕ}

@[simp] theorem beginCrossing_held : (queue.beginCrossing asking).2.held = queue.held := by
  unfold beginCrossing; split <;> rfl

@[simp] theorem beginCrossing_line : (queue.beginCrossing asking).2.line = queue.line := by
  unfold beginCrossing; split <;> rfl

@[simp] theorem beginCrossing_background :
    (queue.beginCrossing asking).2.background = queue.background := by
  unfold beginCrossing; split <;> rfl

@[simp] theorem endSettledCrossing_held : queue.endSettledCrossing.2.held = queue.held := by
  unfold endSettledCrossing; split <;> rfl

@[simp] theorem endSettledCrossing_line : queue.endSettledCrossing.2.line = queue.line := by
  unfold endSettledCrossing; split <;> rfl

@[simp] theorem endSettledCrossing_background :
    queue.endSettledCrossing.2.background = queue.background := by
  unfold endSettledCrossing; split <;> rfl

@[simp] theorem roomReturned_held : (queue.roomReturned bound).held = queue.held := by
  unfold roomReturned; split <;> rfl

@[simp] theorem roomReturned_line : (queue.roomReturned bound).line = queue.line := by
  unfold roomReturned; split <;> rfl

@[simp] theorem roomReturned_background :
    (queue.roomReturned bound).background = queue.background := by
  unfold roomReturned; split <;> rfl

theorem lineOf_congr {queue' : WorkQueue K} (hline : queue'.line = queue.line)
    (hbackground : queue'.background = queue.background) (key : Option K) :
    queue'.lineOf key = queue.lineOf key := by
  cases key <;> simp [lineOf, hline, hbackground]

variable [DecidableEq K]

theorem lineOf_push : (queue.push key w).lineOf other =
    if other = key then queue.lineOf key ++ [w] else queue.lineOf other := by
  cases key <;> cases other <;> simp [push, lineOf, FairLine.enqueue, Function.update_apply]

theorem lineOf_remove : (queue.remove key w).lineOf other =
    if other = key then (queue.lineOf key).filter (· ≠ w) else queue.lineOf other := by
  cases key <;> cases other <;> simp [remove, lineOf, waiting_leave]

@[simp] theorem push_held : (queue.push key w).held = queue.held := by cases key <;> rfl

@[simp] theorem remove_held : (queue.remove key w).held = queue.held := by cases key <;> rfl

section

variable (h : queue.line.WellFormed)

include h

theorem wellFormed_push (key : Option K) (w : ℕ) : (queue.push key w).line.WellFormed := by
  cases key with
  | none => exact h
  | some key => exact h.enqueue key w

theorem wellFormed_remove (key : Option K) (w : ℕ) : (queue.remove key w).line.WellFormed := by
  cases key with
  | none => exact h
  | some key => exact h.leave key w

/-- Nobody is next only where nobody waits. -/
theorem next_eq_none (hnone : queue.next.1 = none) :
    queue.next.2 = queue ∧ ∀ key, queue.lineOf key = [] := by
  unfold next at hnone ⊢
  split
  · rename_i hturns
    rw [if_pos hturns] at hnone
    rw [List.isEmpty_iff] at hturns
    cases hb : queue.background with
    | cons w background => simp [hb] at hnone
    | nil =>
      refine ⟨rfl, fun key => ?_⟩
      cases key with
      | none => exact hb
      | some key =>
        have hnone : key ∉ queue.line.turns := by simp [hturns]
        exact not_not.mp fun hne => hnone (h.mem_turns.mpr hne)
  · rename_i hturns
    rw [if_neg hturns] at hnone
    have hserve : queue.line.serve.1 = none := by simpa using hnone
    exact absurd (serve_eq_none h hserve).1 (by simpa using hturns)

/-- The next waiter is the oldest of its line. -/
theorem next_eq_some (hsome : queue.next.1 = some (key, w)) :
    (∃ left, queue.lineOf key = w :: left ∧
      ∀ other, queue.next.2.lineOf other = if other = key then left else queue.lineOf other) ∧
    queue.next.2.held = queue.held ∧ queue.next.2.line.WellFormed := by
  unfold next at hsome ⊢
  split at hsome
  · rename_i hturns
    rw [if_pos hturns]
    cases hb : queue.background with
    | nil => simp [hb] at hsome
    | cons v background =>
      simp only [hb, Option.some.injEq, Prod.mk.injEq] at hsome
      obtain ⟨rfl, rfl⟩ := hsome
      exact ⟨⟨background, hb, fun other => by cases other <;> simp [lineOf]⟩, rfl, h⟩
  · rename_i hturns
    rw [if_neg hturns]
    obtain ⟨⟨served, w'⟩, hserve, heq⟩ := Option.map_eq_some_iff.mp hsome
    cases heq
    obtain ⟨rest, left, -, hw, hline⟩ := serve_eq_some hserve
    refine ⟨⟨left, hw, fun other => ?_⟩, rfl, h.serve⟩
    cases other <;> simp [lineOf, hline, Function.update_apply]

end

end WorkQueue

/-! ## Places -/

variable [DecidableEq K]

/-- The queue and the callers' places agree. -/
structure Lines (line : WorkLine K) : Prop extends
    Placed line.queue.lineOf line.places line.granted line.nextWaiter where
  wellFormed : line.queue.line.WellFormed

variable {place : ℕ × Option K} {queue : WorkQueue K}

namespace Lines

variable {line : WorkLine K} {key : Option K} {w : ℕ}

omit [DecidableEq K] in
/-- Counts and crossings aside, the lines are what they were. -/
theorem congr (h : Lines line) (bound permits : ℕ) (hline : queue.line = line.queue.line)
    (hbackground : queue.background = line.queue.background) :
    Lines { line with queue, bound, permits } where
  toPlaced := by
    rw [show queue.lineOf = line.queue.lineOf from
      funext (lineOf_congr hline hbackground)]
    exact h.toPlaced
  wellFormed := hline ▸ h.wellFormed

/-- Handing over to nobody changes nothing; nobody waits. -/
theorem handOver_none (h : Lines line) (hnone : line.handOver.1 = none) :
    line.handOver.2 = line ∧ ∀ key, line.queue.lineOf key = [] := by
  unfold WorkLine.handOver at hnone ⊢
  split at hnone
  · rename_i queue hnext
    obtain ⟨heq, hempty⟩ := next_eq_none h.wellFormed (by rw [hnext])
    rw [hnext] at heq
    exact ⟨by rw [show queue = line.queue from heq], hempty⟩
  · cases hnone

/-- A permit is handed to the oldest waiter of a line. -/
theorem handOver_some (h : Lines line) (hsome : line.handOver.1 = some (key, w)) :
    (∃ left, line.queue.lineOf key = w :: left ∧ ∀ other,
      line.handOver.2.queue.lineOf other = if other = key then left else line.queue.lineOf other) ∧
    line.handOver.2.queue.held = line.queue.held ∧ line.handOver.2.bound = line.bound ∧
    line.handOver.2.permits = line.permits ∧ line.handOver.2.granted = w :: line.granted ∧
    line.handOver.2.places = line.places ∧ line.handOver.2.nextWaiter = line.nextWaiter ∧
    line.handOver.2.queue.line.WellFormed := by
  unfold WorkLine.handOver at hsome ⊢
  split at hsome
  · cases hsome
  · rename_i key' w' queue hnext
    cases hsome
    obtain ⟨hline, hheld, hwf⟩ := next_eq_some h.wellFormed (by rw [hnext])
    rw [hnext] at hline hheld hwf
    exact ⟨hline, hheld, rfl, rfl, rfl, rfl, rfl, hwf⟩

/-- …and keeps the lines, with one more permit handed over. -/
theorem lines_handOver (h : Lines line) (hsome : line.handOver.1 = some (key, w)) :
    Lines line.handOver.2 ∧ line.handOver.2.unsettled = line.unsettled + 1 := by
  obtain ⟨⟨left, hkey, hother⟩, -, -, -, hgranted, hplaces, hnext, hwf⟩ := h.handOver_some hsome
  obtain ⟨hplaced, hcount⟩ := h.toPlaced.serve hkey hother
  rw [← hgranted, ← hplaces, ← hnext] at hplaced
  refine ⟨⟨hplaced, hwf⟩, ?_⟩
  rw [WorkLine.unsettled, hgranted, hplaces]
  exact hcount

/-- A new waiter goes last in its line. -/
theorem push (h : Lines line) (key : Option K) : Lines { line with
    queue := line.queue.push key line.nextWaiter
    places := line.places ++ [(line.nextWaiter, key)]
    nextWaiter := line.nextWaiter + 1 } where
  toPlaced := h.toPlaced.push fun _ => lineOf_push
  wellFormed := wellFormed_push h.wellFormed key _

/-- A waiter who comes for its permit is no longer in any line. -/
theorem take (h : Lines line) {place : ℕ × Option K} (hgranted : place.1 ∈ line.granted) :
    Lines { line with places := line.places.erase place } where
  toPlaced := h.toPlaced.take hgranted
  wellFormed := h.wellFormed

/-- A waiter who gives up leaves its line. -/
theorem remove (h : Lines line) : Lines { line with
      queue := line.queue.remove place.2 place.1
      places := line.places.erase place } where
  toPlaced := h.toPlaced.remove fun _ => lineOf_remove
  wellFormed := wellFormed_remove h.wellFormed _ _

end Lines

/-! ## The invariant -/

/-- Every permit is accounted for, and none is free while a waiter waits. -/
structure LineSafe (line : WorkLine K) : Prop extends Lines line where
  /-- `held` counts the live permits and those handed over and not come for. -/
  held : line.queue.held = line.permits + line.unsettled
  /-- No free permit idles past a waiter. -/
  idle : line.queue.held < line.bound → ∀ key, line.queue.lineOf key = []

namespace LineSafe

variable {line : WorkLine K}

omit [DecidableEq K] in
theorem start (bound : ℕ) : LineSafe (.new bound : WorkLine K) where
  toPlaced := .nil fun key => by cases key <;> rfl
  wellFormed := wellFormed_empty
  held := rfl
  idle _ key := by cases key <;> rfl

omit [DecidableEq K] in
/-- Crossings aside, a line is as safe as it was. -/
theorem congr (h : LineSafe line) (hline : queue.line = line.queue.line)
    (hbackground : queue.background = line.queue.background) (hheld : queue.held = line.queue.held)
    :
    LineSafe { line with queue } where
  toLines := h.toLines.congr _ _ hline hbackground
  held := hheld.trans h.held
  idle hlt key := by
    rw [lineOf_congr hline hbackground]
    exact h.idle (hheld ▸ hlt) key

omit [DecidableEq K] in
/-- Free permits given at once. -/
theorem takeFree (h : LineSafe line) (permits : ℕ) : LineSafe { line with
      queue := { line.queue with held := line.queue.held + permits }
      permits := line.permits + permits } where
  toLines := h.toLines.congr _ _ rfl rfl
  held := by
    have hheld := h.held
    simp only [WorkLine.unsettled] at hheld ⊢
    omega
  idle hlt := h.idle (by dsimp only at hlt; omega)

theorem enter (h : LineSafe line) (key : Option K) : LineSafe (line.enter key).2 := by
  unfold WorkLine.enter
  split
  · exact h.takeFree 1
  · rename_i hfull
    have hpush := h.toLines.push key
    have hfresh := h.fresh
    have hsafe : LineSafe { line with
        queue := line.queue.push key line.nextWaiter
        places := line.places ++ [(line.nextWaiter, key)]
        nextWaiter := line.nextWaiter + 1 } := by
      refine ⟨hpush, ?_, fun hlt => absurd hlt (by simpa using hfull)⟩
      have hheld := h.held
      simpa [WorkLine.unsettled, List.countP_append, hfresh] using hheld
    exact hsafe.congr (by simp) (by simp) (by simp)

theorem settle (h : LineSafe line) {place : ℕ × Option K} (hplace : place ∈ line.places) :
    LineSafe (line.settle place).2 := by
  have hcount := countP_erase_granted hplace line.granted
  have hheld := h.held
  unfold WorkLine.settle
  split
  · rename_i hgranted
    have hpos : 0 < line.unsettled := List.countP_pos_iff.mpr ⟨place, hplace, by simpa using hgranted⟩
    refine ⟨(h.toLines.take hgranted).congr _ _ rfl rfl, ?_, h.idle⟩
    rw [if_pos hgranted] at hcount
    simp only [WorkLine.unsettled] at hheld hcount hpos ⊢
    omega
  · rename_i hwaiting
    have hsafe : LineSafe { line with
        queue := line.queue.remove place.2 place.1
        places := line.places.erase place } := by
      refine ⟨h.toLines.remove, ?_, fun hlt key => ?_⟩
      · rw [if_neg hwaiting] at hcount
        simp only [WorkLine.unsettled, remove_held] at hheld hcount ⊢
        omega
      · have hnil := h.idle (by simpa using hlt)
        rw [lineOf_remove, hnil, hnil]
        simp
    exact hsafe.congr (by simp) (by simp) (by simp)

theorem release (h : LineSafe line) (hpermits : line.permits ≠ 0) : LineSafe line.release.2 := by
  have hheld := h.held
  have hlines : Lines { line with permits := line.permits - 1 } := h.toLines.congr _ _ rfl rfl
  unfold WorkLine.release
  dsimp only
  split
  · rename_i hover
    refine ⟨h.toLines.congr _ _ rfl rfl, ?_, fun hlt => absurd hlt (by dsimp only; omega)⟩
    simp only [WorkLine.unsettled] at hheld ⊢
    omega
  · rename_i hbound
    cases hserved : ({ line with permits := line.permits - 1 } : WorkLine K).handOver with
    | mk served passed =>
      cases served with
      | some served =>
        obtain ⟨key, w⟩ := served
        have hsome := congrArg Prod.fst hserved
        obtain ⟨hpassed, hcount⟩ := hlines.lines_handOver hsome
        obtain ⟨⟨left, hkey, -⟩, hheld', hbound', hpermits', -⟩ := hlines.handOver_some hsome
        rw [hserved] at hpassed hcount hheld' hbound' hpermits'
        -- a permit passes on only from a line that is full
        have hfull : ¬ line.queue.held < line.bound := fun hlt => by
          have hnil : _ = [] := h.idle hlt key
          rw [show line.queue.lineOf key = w :: left from hkey] at hnil
          cases hnil
        have hsafe : LineSafe passed := by
          refine ⟨hpassed, ?_, fun hlt => absurd hlt (by dsimp only at *; omega)⟩
          simp only [WorkLine.unsettled] at *
          omega
        exact hsafe.congr (by simp) (by simp) (by simp)
      | none =>
        obtain ⟨heq, hempty⟩ := hlines.handOver_none (congrArg Prod.fst hserved)
        rw [hserved] at heq
        obtain rfl : passed = _ := heq
        have hsafe : LineSafe { line with
            queue := { line.queue with held := line.queue.held - 1 }
            permits := line.permits - 1 } := by
          refine ⟨h.toLines.congr _ _ rfl rfl, ?_, fun _ => hempty⟩
          simp only [WorkLine.unsettled] at hheld ⊢
          omega
        exact hsafe.congr (by simp) (by simp) (by simp)

theorem grantFree : ∀ (room : ℕ) {line : WorkLine K}, Lines line →
    line.queue.held = line.permits + line.unsettled →
    Lines (WorkLine.grantFree room line).2 ∧
    (WorkLine.grantFree room line).2.queue.held =
      (WorkLine.grantFree room line).2.permits + (WorkLine.grantFree room line).2.unsettled ∧
    (WorkLine.grantFree room line).2.bound = line.bound ∧
    ((WorkLine.grantFree room line).2.queue.held < line.queue.held + room →
      ∀ key, (WorkLine.grantFree room line).2.queue.lineOf key = [])
  | 0, line, h, hheld => ⟨h, hheld, rfl, fun hlt => absurd hlt (by simp [WorkLine.grantFree])⟩
  | room + 1, line, h, hheld => by
    rw [WorkLine.grantFree]
    cases hserved : line.handOver with
    | mk served passed =>
      cases served with
      | none =>
        obtain ⟨heq, hempty⟩ := h.handOver_none (congrArg Prod.fst hserved)
        rw [hserved] at heq
        obtain rfl : passed = line := heq
        exact ⟨h, hheld, rfl, fun _ => hempty⟩
      | some served =>
        have hsome := congrArg Prod.fst hserved
        obtain ⟨hpassed, hcount⟩ := h.lines_handOver hsome
        obtain ⟨-, hheld', hbound', hpermits', -⟩ := h.handOver_some hsome
        rw [hserved] at hpassed hcount hheld' hbound' hpermits'
        dsimp only at hcount hheld' hbound' hpermits' ⊢
        have hraised : Lines { passed with
            queue := { passed.queue with held := passed.queue.held + 1 } } :=
          hpassed.congr _ _ rfl rfl
        obtain ⟨hlines, hsum, hbound, hidle⟩ := grantFree room hraised
          (by simp only [WorkLine.unsettled] at *; omega)
        exact ⟨hlines, hsum, hbound.trans hbound', fun hlt => hidle (by dsimp only; omega)⟩

theorem configure (h : LineSafe line) (bound : ℕ) : LineSafe (line.configure bound).2 := by
  have hraised : Lines { line with bound := max bound 1 } := h.toLines.congr _ _ rfl rfl
  obtain ⟨hlines, hsum, hbound, hidle⟩ := grantFree (max bound 1 - line.queue.held) hraised h.held
  have hsafe : LineSafe (WorkLine.grantFree (max bound 1 - line.queue.held)
      { line with bound := max bound 1 }).2 :=
    ⟨hlines, hsum, fun hlt => hidle (by rw [hbound] at hlt; dsimp only at hlt ⊢; omega)⟩
  exact hsafe.congr (endSettledCrossing_line.trans roomReturned_line)
    (endSettledCrossing_background.trans roomReturned_background)
    (endSettledCrossing_held.trans roomReturned_held)

omit [DecidableEq K] in
theorem tryAdmitBackground (h : LineSafe line) : LineSafe line.tryAdmitBackground.2 := by
  unfold WorkLine.tryAdmitBackground
  split
  · exact h
  · exact h.takeFree 1

omit [DecidableEq K] in
theorem tryAdmitBackgroundBundle (h : LineSafe line) (permits : ℕ) :
    LineSafe (line.tryAdmitBackgroundBundle permits).2 := by
  unfold WorkLine.tryAdmitBackgroundBundle
  split
  · exact h.takeFree permits
  · exact h.congr (by simp) (by simp) (by simp)

end LineSafe

/-! ## Permits given out -/

namespace WorkLine

variable {line next : WorkLine K}

theorem grantFree_held : ∀ (room : ℕ) {line : WorkLine K}, Lines line →
    (grantFree room line).2.queue.held = line.queue.held + (grantFree room line).1.length ∧
      (grantFree room line).1.length ≤ room
  | 0, line, _ => ⟨rfl, Nat.le_refl _⟩
  | room + 1, line, h => by
    rw [grantFree]
    cases hserved : line.handOver with
    | mk served passed =>
      cases served with
      | none =>
        obtain ⟨heq, -⟩ := h.handOver_none (congrArg Prod.fst hserved)
        rw [hserved] at heq
        obtain rfl : passed = line := heq
        exact ⟨rfl, Nat.zero_le _⟩
      | some served =>
        have hsome := congrArg Prod.fst hserved
        have hpassed := (h.lines_handOver hsome).1
        obtain ⟨-, hheld, -⟩ := h.handOver_some hsome
        rw [hserved] at hpassed hheld
        have hraised : Lines { passed with
            queue := { passed.queue with held := passed.queue.held + 1 } } :=
          hpassed.congr _ _ rfl rfl
        obtain ⟨hsum, hle⟩ := grantFree_held room hraised
        dsimp only at hheld hsum hle ⊢
        rw [List.length_cons]
        exact ⟨by omega, by omega⟩

/-- A dropped permit passes on or goes back; none comes new. -/
theorem release_held (h : LineSafe line) : line.release.2.queue.held ≤ line.queue.held ∧
    (line.release.1.grants ≠ [] → line.queue.held ≤ line.bound) := by
  have hlines : Lines { line with permits := line.permits - 1 } := h.toLines.congr _ _ rfl rfl
  unfold release
  dsimp only
  split
  · exact ⟨Nat.sub_le _ _, fun hne => absurd rfl hne⟩
  · rename_i hbound
    refine ⟨?_, fun _ => Nat.le_of_not_lt hbound⟩
    cases hserved : ({ line with permits := line.permits - 1 } : WorkLine K).handOver with
    | mk served passed =>
      cases served with
      | some served =>
        obtain ⟨-, hheld, -⟩ := hlines.handOver_some (congrArg Prod.fst hserved)
        rw [hserved] at hheld
        simpa using hheld.le
      | none =>
        obtain ⟨heq, -⟩ := hlines.handOver_none (congrArg Prod.fst hserved)
        rw [hserved] at heq
        obtain rfl : passed = _ := heq
        simp

variable {op : LineOp K} {outcome : LineOutcome K}

/-- Every other call counts in the permits it gives, and gives them under the bound. -/
theorem held_of_call (h : LineSafe line) (hcall : line.call op = some (outcome, next))
    (hop : op ≠ .release) : next.queue.held = line.queue.held + outcome.grants.length ∧
      (outcome.grants ≠ [] → next.queue.held ≤ next.bound) := by
  cases op with
  | release => exact absurd rfl hop
  | enter key =>
    obtain ⟨rfl, rfl⟩ := eq_of_some_eq hcall
    unfold enter
    split
    · rename_i hroom
      exact ⟨rfl, fun _ => hroom⟩
    · exact ⟨by simp [LineOutcome.grants], fun hne => absurd rfl hne⟩
  | settle place =>
    simp only [call] at hcall
    split at hcall
    · obtain ⟨rfl, rfl⟩ := eq_of_some_eq hcall
      unfold settle
      split
      · exact ⟨rfl, fun hne => absurd rfl hne⟩
      · exact ⟨by simp [LineOutcome.grants], fun hne => absurd rfl hne⟩
    · cases hcall
  | configure bound =>
    obtain ⟨rfl, rfl⟩ := eq_of_some_eq hcall
    have hraised : Lines { line with bound := max bound 1 } := h.toLines.congr _ _ rfl rfl
    obtain ⟨hsum, hle⟩ := grantFree_held (max bound 1 - line.queue.held) hraised
    obtain ⟨-, -, hbound, -⟩ := LineSafe.grantFree (max bound 1 - line.queue.held) hraised h.held
    unfold configure
    dsimp only [LineOutcome.grants] at hsum hle hbound ⊢
    rw [endSettledCrossing_held, roomReturned_held, hsum, hbound]
    refine ⟨by simp, fun hne => ?_⟩
    have hpos : 0 < (grantFree (max bound 1 - line.queue.held)
        { line with bound := max bound 1 }).1.length := by
      simpa [List.length_pos_iff] using hne
    omega
  | tryAdmitBackground =>
    obtain ⟨rfl, rfl⟩ := eq_of_some_eq hcall
    unfold tryAdmitBackground
    split
    · exact ⟨rfl, fun hne => absurd rfl hne⟩
    · rename_i hroom
      exact ⟨rfl, fun _ => Nat.lt_of_not_le hroom⟩
  | tryAdmitBackgroundBundle permits =>
    obtain ⟨rfl, rfl⟩ := eq_of_some_eq hcall
    unfold tryAdmitBackgroundBundle
    split
    · rename_i hroom
      refine ⟨by simp [LineOutcome.grants], fun hne => ?_⟩
      have hpos : permits ≠ 0 := by
        rintro rfl
        exact hne rfl
      dsimp only
      omega
    · exact ⟨by simp [LineOutcome.grants], fun hne => absurd rfl hne⟩

/-- **Every call keeps a line safe.** -/
theorem safe_of_call (h : LineSafe line) (hcall : line.call op = some (outcome, next)) :
    LineSafe next := by
  cases op with
  | enter key => exact (eq_of_some_eq hcall).2 ▸ h.enter key
  | settle place =>
    simp only [call] at hcall
    split at hcall
    · exact (eq_of_some_eq hcall).2 ▸ h.settle ‹_›
    · cases hcall
  | release =>
    simp only [call] at hcall
    split at hcall
    · cases hcall
    · exact (eq_of_some_eq hcall).2 ▸ h.release ‹_›
  | configure bound => exact (eq_of_some_eq hcall).2 ▸ h.configure bound
  | tryAdmitBackground => exact (eq_of_some_eq hcall).2 ▸ h.tryAdmitBackground
  | tryAdmitBackgroundBundle permits =>
    exact (eq_of_some_eq hcall).2 ▸ h.tryAdmitBackgroundBundle permits

theorem safe_of_reachable (h : (workLines K).Reachable line) : LineSafe line := by
  refine h.invariant LineSafe (fun hi => ?_) fun hs hstep => safe_of_call hs hstep
  obtain ⟨bound, rfl⟩ := hi
  exact .start bound

/-- A waiter that was granted settles with its permit. -/
theorem permits_of_settle (hcall : line.call (.settle place) = some (outcome, next))
    (hgranted : place.1 ∈ line.granted) : next.permits = line.permits + 1 := by
  simp only [call] at hcall
  split at hcall
  · obtain ⟨-, rfl⟩ := eq_of_some_eq hcall
    simp [settle, hgranted]
  · cases hcall

end WorkLine

open WorkLine

/-- **A line conserves its permits**, under every sequence of calls: `held` counts the live permits
and those handed over and not come for; a waiter waits only while every permit is out; the round
lists each key with a waiter once, and no other; a new permit is given only under the bound; and a
waiter that was granted comes out of its wait with its permit, however the wait ended. -/
theorem workLine_conserves {line : WorkLine K} (h : (workLines K).Reachable line) :
    line.queue.held = line.permits + line.unsettled ∧
    (∀ key w, w ∈ line.queue.lineOf key → line.bound ≤ line.queue.held) ∧
    (line.queue.line.turns.Nodup ∧
      ∀ key, key ∈ line.queue.line.turns ↔ line.queue.line.waiting key ≠ []) ∧
    ∀ op outcome next, (workLines K).step line (op, outcome) next →
      (op ≠ .release → next.queue.held = line.queue.held + outcome.grants.length ∧
        (outcome.grants ≠ [] → next.queue.held ≤ next.bound)) ∧
      (op = .release → next.queue.held ≤ line.queue.held ∧
        (outcome.grants ≠ [] → line.queue.held ≤ line.bound)) ∧
      ∀ place, op = .settle place → place.1 ∈ line.granted →
        next.permits = line.permits + 1 := by
  have hsafe := safe_of_reachable h
  refine ⟨hsafe.held, fun key w hw => ?_,
    ⟨hsafe.wellFormed.nodup, fun key => hsafe.wellFormed.mem_turns⟩, fun op outcome next hcall => ?_⟩
  · by_contra hfree
    rw [hsafe.idle (Nat.lt_of_not_le hfree) key] at hw
    cases hw
  · refine ⟨fun hop => held_of_call hsafe hcall hop, fun hop => ?_, fun place hop hgranted => ?_⟩
    · subst hop
      simp only [workLines, call] at hcall
      split at hcall
      · cases hcall
      · obtain ⟨rfl, rfl⟩ := eq_of_some_eq hcall
        exact release_held hsafe
    · subst hop
      exact permits_of_settle hcall hgranted

/-- …at a line of one permit with one key waiting behind it. -/
theorem workLine_conserves_waiting :
    ∃ line : WorkLine ℕ, line.queue.line.turns = [7] ∧ line.bound ≤ line.queue.held := by
  have hfirst : (workLines ℕ).Reachable _ :=
    .step (.start ⟨1, rfl⟩) (show (workLines ℕ).step _ (.enter (some 3), _) _ from rfl)
  have hsecond : (workLines ℕ).Reachable _ :=
    .step hfirst (show (workLines ℕ).step _ (.enter (some 7), _) _ from rfl)
  exact ⟨_, by decide, (workLine_conserves hsecond).2.1 (some 7) 0 (by decide)⟩

end Oneiron
