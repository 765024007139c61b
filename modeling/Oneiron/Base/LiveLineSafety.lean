import Oneiron.Base.LiveLine
import Oneiron.Foundations.Places

/-!
# Base/LiveLineSafety — a live row loses no turn, and asks once a crossing

A free turn never idles past a waiter (`LiveSafe.idle`), so while a key waits every turn is out and
turns only pass on in the order of the round.  The question is open exactly while somebody waits
(`LiveSafe.asked`): it is asked where the first waiter joins, and not again before the last leaves.
-/

namespace Oneiron

open Function FairLine List

variable {K : Type} [DecidableEq K]

/-- The queue and the openers' places agree. -/
structure LiveLines (line : LiveLine K) : Prop extends
    Placed line.queue.line.waiting line.places line.granted line.nextWaiter where
  wellFormed : line.queue.line.WellFormed

/-- Every turn is accounted for, none is free while a waiter waits, and the question is open
exactly while one does. -/
structure LiveSafe (line : LiveLine K) : Prop extends LiveLines line where
  held : line.queue.held = line.permits + line.unsettled
  idle : line.queue.held < line.queue.bound → line.queue.line.turns = []
  asked : line.queue.asked = true ↔ line.queue.line.turns ≠ []

/-- What handing out turns does to a line. -/
structure HandsTurns (line : LiveLine K) (room : ℕ) (handed : List (K × ℕ)) (next : LiveLine K) :
    Prop extends LiveLines next where
  held : next.queue.held = line.queue.held + handed.length
  unsettled : next.unsettled = line.unsettled + handed.length
  le : handed.length ≤ room
  idle : handed.length < room → next.queue.line.turns = []
  turns : line.queue.line.turns = [] → next.queue.line.turns = []
  mem : ∀ {key w}, w ∈ next.queue.line.waiting key → w ∈ line.queue.line.waiting key
  bound : next.queue.bound = line.queue.bound
  asked : next.queue.asked = line.queue.asked
  permits : next.permits = line.permits
  nextWaiter : next.nextWaiter = line.nextWaiter

namespace LiveLine

variable {line next : LiveLine K} {a : K}

theorem handsTurns : ∀ (room : ℕ) {line : LiveLine K}, LiveLines line →
    HandsTurns line room (handTurns room line).1 (handTurns room line).2
  | 0, line, h => ⟨h, rfl, rfl, Nat.le_refl _, fun hlt => absurd hlt (Nat.lt_irrefl _), id, id, rfl,
      rfl, rfl, rfl⟩
  | room + 1, line, h => by
    rw [handTurns]
    cases hserve : line.queue.line.serve with
    | mk first served =>
      cases first with
      | none =>
        obtain ⟨hturns, heq⟩ := serve_eq_none h.wellFormed (congrArg Prod.fst hserve)
        rw [hserve] at heq
        obtain rfl : served = line.queue.line := heq
        exact ⟨h, rfl, rfl, Nat.zero_le _, fun _ => hturns, id, id, rfl, rfl, rfl, rfl⟩
      | some first =>
        obtain ⟨key, w⟩ := first
        have hwf := h.wellFormed.serve
        obtain ⟨rest, left, hturns, hw, heq⟩ :=
          serve_eq_some (congrArg Prod.fst hserve)
        rw [hserve] at heq hwf
        have hother : ∀ other, served.waiting other =
            if other = key then left else line.queue.line.waiting other := by
          intro other
          rw [show served = _ from heq]
          exact update_apply ..
        obtain ⟨hplaced, hcount⟩ := h.toPlaced.serve hw hother
        have hserved : LiveLines { line with
            queue := { line.queue with held := line.queue.held + 1, line := served }
            granted := w :: line.granted } := ⟨hplaced, hwf⟩
        obtain ⟨hlines, hheld, hunsettled, hle, hidle, -, hmem, hbound, hasked, hpermits, hnext⟩ :=
          handsTurns room hserved
        refine ⟨hlines, ?_, ?_, ?_, fun hlt => hidle ?_, ?_, ?_, hbound, hasked, hpermits, hnext⟩
        · rw [hheld, length_cons]
          dsimp only
          omega
        · rw [hunsettled, length_cons]
          simp only [unsettled] at hcount ⊢
          omega
        · exact Nat.succ_le_succ hle
        · exact Nat.lt_of_succ_lt_succ hlt
        · intro hnil
          rw [hturns] at hnil
          cases hnil
        · intro other v hv
          have hv' := hmem hv
          rw [hother] at hv'
          split at hv'
          · subst other
            exact hw ▸ mem_cons_of_mem _ hv'
          · exact hv'

omit [DecidableEq K] in
/-- The question closes once nobody waits. -/
theorem asked_endCrossing (h : line.queue.line.turns ≠ [] → line.queue.asked = true) :
    line.endCrossing.queue.asked = true ↔ line.queue.line.turns ≠ [] := by
  simp only [endCrossing, Bool.and_eq_true, Bool.not_eq_true', isEmpty_eq_false_iff]
  exact ⟨And.right, fun hne => ⟨h hne, hne⟩⟩

/-- Handing out the free turns of an accounted line leaves it safe. -/
theorem safe_grant (h : LiveLines line) (hheld : line.queue.held = line.permits + line.unsettled)
    (hasked : line.queue.line.turns ≠ [] → line.queue.asked = true) : LiveSafe line.grant.2 := by
  have hands := handsTurns (line.queue.bound - line.queue.held) h
  refine ⟨⟨hands.toPlaced, hands.wellFormed⟩, ?_, fun hlt => ?_, asked_endCrossing fun hne => ?_⟩
  · have hsum : (handTurns (line.queue.bound - line.queue.held) line).2.queue.held =
        (handTurns (line.queue.bound - line.queue.held) line).2.permits +
          (handTurns (line.queue.bound - line.queue.held) line).2.unsettled := by
      rw [hands.held, hands.unsettled, hands.permits, hheld, Nat.add_assoc]
    exact hsum
  · have hsum := hands.held
    have hbound := hands.bound
    refine hands.idle ?_
    simp only [grant, endCrossing] at hlt
    omega
  · rw [hands.asked]
    exact hasked fun hnil => hne (hands.turns hnil)

omit [DecidableEq K] in
theorem safe_new : LiveSafe (.new : LiveLine K) where
  toPlaced := .nil fun _ => rfl
  wellFormed := wellFormed_empty
  held := rfl
  idle _ := rfl
  asked := by simp [new, FairLine.empty]

/-- The line an opener finds, its bound in force and the turns it frees handed on. -/
def opened (line : LiveLine K) (bound : ℕ) : List (K × ℕ) × LiveLine K :=
  { line with queue := { line.queue with bound := max bound 1 } }.grant

theorem safe_opened (h : LiveSafe line) (bound : ℕ) : LiveSafe (line.opened bound).2 := by
  refine safe_grant ⟨h.toPlaced, h.wellFormed⟩ h.held h.asked.mpr

theorem enter_eq (line : LiveLine K) (bound : ℕ) (key : K) : line.enter bound key =
    if (line.opened bound).2.queue.held < max bound 1 ∧
        (line.opened bound).2.queue.line.turns = [] then
      ({ handed := (line.opened bound).1, admitted := some key }, { (line.opened bound).2 with
        queue := { (line.opened bound).2.queue with held := (line.opened bound).2.queue.held + 1 }
        permits := (line.opened bound).2.permits + 1 })
    else
      ({ handed := (line.opened bound).1
         crossed := if !(line.opened bound).2.queue.asked then
           some (max bound 1, (line.opened bound).2.queue.held + LiveQueue.waiters
             { (line.opened bound).2.queue with
               line := (line.opened bound).2.queue.line.enqueue key (line.opened bound).2.nextWaiter
               asked := true }) else none },
        { (line.opened bound).2 with
          queue := { (line.opened bound).2.queue with
            line := (line.opened bound).2.queue.line.enqueue key (line.opened bound).2.nextWaiter
            asked := true }
          places := (line.opened bound).2.places ++ [((line.opened bound).2.nextWaiter, key)]
          nextWaiter := (line.opened bound).2.nextWaiter + 1 }) := rfl

section

variable (h : LiveSafe line)

include h

theorem bound_opened (bound : ℕ) : (line.opened bound).2.queue.bound = max bound 1 := by
  have hlines : LiveLines { line with queue := { line.queue with bound := max bound 1 } } :=
    ⟨h.toPlaced, h.wellFormed⟩
  exact (handsTurns _ hlines).bound

/-- A new waiter finds every turn out. -/
theorem safe_wait (key : K)
    (hfull : ¬(line.queue.held < line.queue.bound ∧ line.queue.line.turns = [])) :
    LiveSafe { line with
      queue := { line.queue with line := line.queue.line.enqueue key line.nextWaiter, asked := true }
      places := line.places ++ [(line.nextWaiter, key)]
      nextWaiter := line.nextWaiter + 1 } where
  toPlaced := h.toPlaced.push fun _ => update_apply ..
  wellFormed := h.wellFormed.enqueue key _
  held := by
    have hheld := h.held
    have hfresh := h.fresh
    simpa [unsettled, countP_append, hfresh] using hheld
  idle hlt := absurd ⟨hlt, h.idle hlt⟩ hfull
  asked := by
    have hmem : key ∈ (line.queue.line.enqueue key line.nextWaiter).turns := by
      rw [(h.wellFormed.enqueue key _).mem_turns]
      simp [FairLine.enqueue]
    exact iff_of_true rfl (ne_nil_of_mem hmem)

theorem safe_enter (bound : ℕ) (key : K) : LiveSafe (line.enter bound key).2 := by
  have hopened := safe_opened h bound
  have hbound := bound_opened h bound
  rw [enter_eq]
  split
  · rename_i hroom
    refine ⟨⟨hopened.toPlaced, hopened.wellFormed⟩, ?_, fun _ => hroom.2, hopened.asked⟩
    have hheld := hopened.held
    simp only [unsettled] at hheld ⊢
    omega
  · rename_i hfull
    rw [← hbound] at hfull
    exact safe_wait hopened key hfull

theorem safe_settle {place : ℕ × K} (hplace : place ∈ line.places) :
    LiveSafe (line.settle place).2 := by
  have hcount := countP_erase_granted hplace line.granted
  have hheld := h.held
  unfold settle
  split
  · rename_i hgranted
    have hpos : 0 < line.unsettled := countP_pos_iff.mpr ⟨place, hplace, by simpa using hgranted⟩
    refine ⟨⟨h.toPlaced.take hgranted, h.wellFormed⟩, ?_, h.idle, h.asked⟩
    rw [if_pos hgranted] at hcount
    simp only [unsettled] at hheld hcount hpos ⊢
    omega
  · rename_i hwaiting
    have hshorter : line.queue.line.turns = [] →
        (line.queue.line.leave place.2 place.1).turns = [] := by
      intro hnil
      unfold FairLine.leave
      split
      · exact hnil
      · dsimp only
        split <;> simp [hnil]
    refine ⟨⟨h.toPlaced.remove fun _ => waiting_leave, h.wellFormed.leave _ _⟩, ?_,
      fun hlt => hshorter (h.idle hlt), asked_endCrossing fun hne => ?_⟩
    · rw [if_neg hwaiting, Nat.sub_zero] at hcount
      exact hheld.trans (congrArg (line.permits + ·) hcount.symm)
    · exact h.asked.mpr fun hnil => hne (hshorter hnil)

theorem safe_drop (hpermits : line.permits ≠ 0) : LiveSafe line.drop.2 := by
  refine safe_grant ⟨h.toPlaced, h.wellFormed⟩ ?_ h.asked.mpr
  have hheld := h.held
  simp only [unsettled] at hheld ⊢
  omega

end

variable {op : LiveOp K} {outcome : LiveOutcome K} {key : K} {w : ℕ}

/-- **Every call keeps a line safe.** -/
theorem safe_of_call (h : LiveSafe line) (hcall : line.call op = some (outcome, next)) :
    LiveSafe next := by
  cases op with
  | enter bound key => exact (eq_of_some_eq hcall).2 ▸ safe_enter h bound key
  | settle place =>
    simp only [call] at hcall
    split at hcall
    · exact (eq_of_some_eq hcall).2 ▸ safe_settle h ‹_›
    · cases hcall
  | drop =>
    simp only [call] at hcall
    split at hcall
    · cases hcall
    · exact (eq_of_some_eq hcall).2 ▸ safe_drop h ‹_›

theorem safe_of_reachable (h : (liveLines K).Reachable line) : LiveSafe line :=
  h.invariant LiveSafe (fun hi => hi ▸ safe_new) fun hs hstep => safe_of_call hs hstep

/-! ## Turns given out -/

/-- Turns are counted in as they are handed out, under the bound. -/
theorem held_grant (h : LiveLines line) :
    line.grant.2.queue.held = line.queue.held + line.grant.1.length ∧
      line.grant.2.queue.bound = line.queue.bound ∧
      (line.grant.1 ≠ [] → line.grant.2.queue.held ≤ line.queue.bound) := by
  have hands := handsTurns (line.queue.bound - line.queue.held) h
  refine ⟨hands.held, hands.bound, fun hne => ?_⟩
  have hpos : 0 < (handTurns (line.queue.bound - line.queue.held) line).1.length :=
    length_pos_iff.mpr hne
  have hle := hands.le
  have hsum : line.grant.2.queue.held = _ := hands.held
  omega

/-- The turns a call gives back. -/
def returned : LiveOp K → ℕ
  | .drop => 1
  | _ => 0

/-- Each call counts in the turns it gives and out the one dropped, and gives them under the bound
in force. -/
theorem held_of_call (h : LiveSafe line) (hcall : line.call op = some (outcome, next)) :
    next.queue.held + returned op = line.queue.held + outcome.grants.length ∧
      (outcome.grants ≠ [] → next.queue.held ≤ next.queue.bound) := by
  cases op with
  | enter bound key =>
    obtain ⟨rfl, rfl⟩ := eq_of_some_eq hcall
    have hlines : LiveLines { line with queue := { line.queue with bound := max bound 1 } } :=
      ⟨h.toPlaced, h.wellFormed⟩
    obtain ⟨hheld, hbound, hle⟩ := held_grant hlines
    have hopened : (line.opened bound).2.queue.held =
      line.queue.held + (line.opened bound).1.length := hheld
    rw [enter_eq]
    split
    · rename_i hroom
      refine ⟨?_, fun _ => hroom.1.trans_eq hbound.symm⟩
      simp only [LiveOutcome.grants, Option.toList, length_append, length_map,
        length_singleton, returned]
      omega
    · refine ⟨by simpa [LiveOutcome.grants, returned] using hopened, fun hne => ?_⟩
      have hhanded : (line.opened bound).1 ≠ [] := by simpa [LiveOutcome.grants] using hne
      exact (hle hhanded).trans_eq hbound.symm
  | settle place =>
    simp only [call] at hcall
    split at hcall
    · obtain ⟨rfl, rfl⟩ := eq_of_some_eq hcall
      unfold settle
      split <;> exact ⟨rfl, fun hne => absurd rfl hne⟩
    · cases hcall
  | drop =>
    simp only [call] at hcall
    split at hcall
    · cases hcall
    · rename_i hpermits
      obtain ⟨rfl, rfl⟩ := eq_of_some_eq hcall
      have hlines : LiveLines { line with
          queue := { line.queue with held := line.queue.held - 1 }
          permits := line.permits - 1 } := ⟨h.toPlaced, h.wellFormed⟩
      obtain ⟨hheld, hbound, hle⟩ := held_grant hlines
      have hsum := h.held
      have hdropped : line.drop.2.queue.held =
        line.queue.held - 1 + line.drop.1.handed.length := hheld
      have hgrants : line.drop.1.grants = line.drop.1.handed.map Prod.fst := append_nil _
      rw [hgrants, length_map]
      refine ⟨by rw [returned]; omega, fun hne => ?_⟩
      exact (hle (fun hnil => hne (by rw [show line.drop.1.handed = _ from hnil]; rfl))).trans_eq
        hbound.symm

/-! ## Whose turn it is -/

theorem passes_handTurns : ∀ (room : ℕ) {line : LiveLine K}, LiveLines line →
    a ∈ line.queue.line.turns →
      Passes a (line.queue.line.ahead a) ((handTurns room line).1.map Prod.fst)
        ((handTurns room line).2.queue.line.ahead a)
        (a ∈ (handTurns room line).2.queue.line.turns)
  | 0, line, _, hwaits => .nil hwaits (.refl _)
  | room + 1, line, h, hwaits => by
    obtain ⟨first, w, hserve, hturn⟩ := serve_turn h.wellFormed hwaits
    have hserve' : line.queue.line.serve = (some (first, w), line.queue.line.serve.2) :=
      Prod.ext hserve rfl
    rw [handTurns, hserve']
    refine .cons fun hne => ?_
    obtain ⟨hwaits', hahead⟩ := hturn hne
    obtain ⟨rest, left, -, hw, heq⟩ := serve_eq_some hserve
    have hother : ∀ other, line.queue.line.serve.2.waiting other =
        if other = first then left else line.queue.line.waiting other := by
      intro other
      rw [heq]
      exact update_apply ..
    have hserved : LiveLines { line with
        queue := { line.queue with held := line.queue.held + 1, line := line.queue.line.serve.2 }
        granted := w :: line.granted } := ⟨(h.toPlaced.serve hw hother).1, h.wellFormed.serve⟩
    exact ⟨_, hahead, passes_handTurns room hserved hwaits'⟩

/-- The keys with a turn before `a`'s. -/
def ahead (a : K) (line : LiveLine K) : List K := line.queue.line.ahead a

/-- **Every call hands turns on in the order of the round** while a key waits. -/
theorem passes_call (h : LiveSafe line) (hwaits : a ∈ line.queue.line.turns)
    (hcall : line.call op = some (outcome, next))
    (hstill : a ∉ outcome.grants → a ∈ next.queue.line.turns) :
    Passes a (line.ahead a) outcome.grants (next.ahead a) (a ∈ next.queue.line.turns) := by
  unfold ahead
  cases op with
  | enter bound key =>
    obtain ⟨rfl, rfl⟩ := eq_of_some_eq hcall
    have hlines : LiveLines { line with queue := { line.queue with bound := max bound 1 } } :=
      ⟨h.toPlaced, h.wellFormed⟩
    have hpass : Passes a (line.queue.line.ahead a) ((line.opened bound).1.map Prod.fst)
        ((line.opened bound).2.queue.line.ahead a) (a ∈ (line.opened bound).2.queue.line.turns) :=
      passes_handTurns _ hlines hwaits
    have hgrants : (line.enter bound key).1.grants =
        (line.opened bound).1.map Prod.fst ++ (line.enter bound key).1.admitted.toList := by
      rw [LiveOutcome.grants, enter_eq]
      split <;> rfl
    by_cases hmem : a ∈ (line.opened bound).1.map Prod.fst
    · -- the key's own turn comes as the row opens, before the opener's
      rw [hgrants]
      exact hpass.append hmem _ _ _
    · obtain ⟨hwaits', hsub⟩ := hpass.others hmem
      have hfull : ¬((line.opened bound).2.queue.held < max bound 1 ∧
          (line.opened bound).2.queue.line.turns = []) := by
        rintro ⟨-, hnil⟩
        rw [hnil] at hwaits'
        cases hwaits'
      rw [enter_eq, if_neg hfull] at hgrants hstill ⊢
      rw [show Option.toList _ = [] from rfl, append_nil] at hgrants
      rw [hgrants] at hstill ⊢
      refine ⟨fun hnot => ⟨hstill hnot, ?_⟩, fun hin => absurd hin hmem⟩
      rw [ahead_enqueue hwaits']
      exact hsub
  | settle place =>
    simp only [call] at hcall
    split at hcall
    · obtain ⟨rfl, rfl⟩ := eq_of_some_eq hcall
      unfold settle at hstill ⊢
      split at hstill
      · rw [if_pos ‹_›]
        exact .nil hwaits (.refl _)
      · rw [if_neg ‹_›]
        have hleft := hstill not_mem_nil
        exact .nil hleft (ahead_leave hleft)
    · cases hcall
  | drop =>
    simp only [call] at hcall
    split at hcall
    · cases hcall
    · obtain ⟨rfl, rfl⟩ := eq_of_some_eq hcall
      have hlines : LiveLines { line with
          queue := { line.queue with held := line.queue.held - 1 }
          permits := line.permits - 1 } := ⟨h.toPlaced, h.wellFormed⟩
      have hpass := passes_handTurns (line.queue.bound - (line.queue.held - 1)) hlines hwaits
      have hgrants : line.drop.1.grants = line.drop.1.handed.map Prod.fst := append_nil _
      rw [hgrants]
      exact hpass

/-! ## The question -/

/-- Only an opener who waits asks, and only where nobody waits before it. -/
theorem crossed_enter (h : LiveSafe line) (bound : ℕ) (key : K) :
    (line.enter bound key).1.crossed ≠ none ↔
      (line.enter bound key).1.admitted = none ∧ (line.opened bound).2.queue.line.turns = [] := by
  have hopened := safe_opened h bound
  rw [enter_eq]
  split
  · simp
  · rename_i hfull
    cases hasked : (line.opened bound).2.queue.asked with
    | true => simp [hopened.asked.mp hasked]
    | false =>
      have hnil : (line.opened bound).2.queue.line.turns = [] := by
        by_contra hne
        rw [hopened.asked.mpr hne] at hasked
        cases hasked
      simp [hnil]

omit [DecidableEq K] in
/-- A waiter of a line is numbered below those to come. -/
theorem lt_of_waits (h : LiveSafe line) (hw : w ∈ line.queue.line.waiting key) :
    w < line.nextWaiter :=
  h.places_lt _ (h.mem_lineOf.mp hw).1

/-- No call puts back a waiter who is out of the line. -/
theorem mem_of_call (h : LiveSafe line) (hcall : line.call op = some (outcome, next))
    (hlt : w < line.nextWaiter) :
    (w ∈ next.queue.line.waiting key → w ∈ line.queue.line.waiting key ∧ outcome.crossed = none) ∧
      w < next.nextWaiter := by
  cases op with
  | enter bound other =>
    obtain ⟨rfl, rfl⟩ := eq_of_some_eq hcall
    have hlines : LiveLines { line with queue := { line.queue with bound := max bound 1 } } :=
      ⟨h.toPlaced, h.wellFormed⟩
    have hands := handsTurns (max bound 1 - line.queue.held) hlines
    have hnext : (line.opened bound).2.nextWaiter = line.nextWaiter := hands.nextWaiter
    have hstays : ∀ {v}, v ∈ (line.opened bound).2.queue.line.waiting key →
        v ∈ line.queue.line.waiting key := hands.mem
    have hmem : w ∈ (line.enter bound other).2.queue.line.waiting key →
        w ∈ (line.opened bound).2.queue.line.waiting key := by
      rw [enter_eq]
      split
      · exact id
      · intro hw
        rcases mem_waiting_enqueue.mp hw with hw | ⟨-, rfl⟩
        · exact hw
        · exact absurd hlt (Nat.not_lt.mpr hnext.ge)
    refine ⟨fun hw => ⟨hstays (hmem hw), ?_⟩, ?_⟩
    · by_contra hne
      have hnil := ((crossed_enter h bound other).mp hne).2
      have hturn := (safe_opened h bound).wellFormed.mem_turns.mpr (ne_nil_of_mem (hmem hw))
      rw [hnil] at hturn
      cases hturn
    · rw [enter_eq]
      split
      · exact hlt.trans_eq hnext.symm
      · exact Nat.lt_succ_of_lt (hlt.trans_eq hnext.symm)
  | settle place =>
    simp only [call] at hcall
    split at hcall
    · obtain ⟨rfl, rfl⟩ := eq_of_some_eq hcall
      unfold settle
      split
      · exact ⟨fun hw => ⟨hw, rfl⟩, hlt⟩
      · refine ⟨fun hw => ⟨?_, rfl⟩, hlt⟩
        have hw' : w ∈ (line.queue.line.leave place.2 place.1).waiting key := hw
        rw [waiting_leave] at hw'
        split at hw'
        · subst key
          exact mem_of_mem_filter hw'
        · exact hw'
    · cases hcall
  | drop =>
    simp only [call] at hcall
    split at hcall
    · cases hcall
    · obtain ⟨rfl, rfl⟩ := eq_of_some_eq hcall
      have hlines : LiveLines { line with
          queue := { line.queue with held := line.queue.held - 1 }
          permits := line.permits - 1 } := ⟨h.toPlaced, h.wellFormed⟩
      have hands := handsTurns (line.queue.bound - (line.queue.held - 1)) hlines
      exact ⟨fun hw => ⟨hands.mem hw, rfl⟩, hlt.trans_eq hands.nextWaiter.symm⟩

/-- **The question is not asked again** while somebody it was asked for waits. -/
theorem crossed_of_run {later : LiveLine K} {calls : List (LiveOp K × LiveOutcome K)}
    (hrun : (liveLines K).Run line calls later) : LiveSafe line →
    w < line.nextWaiter → w ∈ later.queue.line.waiting key →
      w ∈ line.queue.line.waiting key ∧ ∀ called ∈ calls, called.2.crossed = none := by
  induction hrun with
  | nil => exact fun _ _ hw => ⟨hw, fun _ hmem => absurd hmem not_mem_nil⟩
  | cons hcall _ ih =>
    intro h hlt hw
    obtain ⟨hback, hlt'⟩ := mem_of_call h hcall hlt
    obtain ⟨hmid, hrest⟩ := ih (safe_of_call h hcall) hlt' hw
    obtain ⟨hfirst, hquiet⟩ := hback hmid
    exact ⟨hfirst, forall_mem_cons.mpr ⟨hquiet, hrest⟩⟩

end LiveLine

open LiveLine

/-- **A live row conserves its turns and is fair**, under every sequence of calls: `held` counts the
live permits and the turns handed over and not come for; a waiter waits only while every turn is
out; the round lists each key with a waiter once, and no other; a turn is given only under the bound
in force; from any moment on, for as long as a key waits, each other key has at most one turn before
its own; and the owner is asked exactly where a wait begins with nobody waiting, so never while
somebody waits. -/
theorem liveLine_conserves {line later : LiveLine K} (h : (liveLines K).Reachable line)
    {calls : List (LiveOp K × LiveOutcome K)} (hrun : (liveLines K).Run line calls later) :
    line.queue.held = line.permits + line.unsettled ∧
    (∀ key w, w ∈ line.queue.line.waiting key → line.queue.bound ≤ line.queue.held) ∧
    (line.queue.line.turns.Nodup ∧
      ∀ key, key ∈ line.queue.line.turns ↔ line.queue.line.waiting key ≠ []) ∧
    (∀ op outcome next, (liveLines K).step line (op, outcome) next →
      next.queue.held + returned op = line.queue.held + outcome.grants.length ∧
      (outcome.grants ≠ [] → next.queue.held ≤ next.queue.bound)) ∧
    (∀ a, (liveLines K).WaitsFor (fun called => called.2.grants)
        (fun line => line.queue.line.waiting a ≠ []) a line calls →
      ((calls.flatMap fun called => called.2.grants).takeWhile (· ≠ a)).Nodup) ∧
    (∀ bound key, (line.enter bound key).1.crossed ≠ none ↔
      (line.enter bound key).1.admitted = none ∧ (line.opened bound).2.queue.line.turns = []) ∧
    ∀ key w, w ∈ line.queue.line.waiting key → w ∈ later.queue.line.waiting key →
      ∀ called ∈ calls, called.2.crossed = none := by
  have hsafe := safe_of_reachable h
  refine ⟨hsafe.held, fun key w hw => ?_,
    ⟨hsafe.wellFormed.nodup, fun key => hsafe.wellFormed.mem_turns⟩,
    fun op outcome next hcall => held_of_call hsafe hcall, fun a hwaits => ?_,
    crossed_enter hsafe, fun key w hw hstays => ?_⟩
  · by_contra hfree
    have hturn := hsafe.wellFormed.mem_turns.mpr (ne_nil_of_mem hw)
    rw [hsafe.idle (Nat.lt_of_not_le hfree)] at hturn
    cases hturn
  · have hnodup : (line.ahead a).Nodup := nodup_ahead hsafe.wellFormed a
    refine hnodup.sublist ?_
    refine hrun.grants_sublist LiveSafe (fun {s called t} hs hw hcall => ?_) hsafe hwaits
    have ht := safe_of_call hs hcall
    refine ⟨ht, fun hstill => ?_⟩
    have hpass := passes_call hs (hs.wellFormed.mem_turns.mpr hw) hcall fun hnot =>
      ht.wellFormed.mem_turns.mpr (hstill hnot)
    exact ⟨fun hnot => ⟨hstill hnot, (hpass.others hnot).2⟩, hpass.own⟩
  · exact (crossed_of_run hrun hsafe (lt_of_waits hsafe hw) hstays).2

/-- A row of one turn, with two keys waiting for it. -/
def liveWaiting : LiveLine ℕ :=
  (((LiveLine.new.enter 1 3).2.enter 1 7).2.enter 1 5).2

theorem reachable_liveWaiting : (liveLines ℕ).Reachable liveWaiting :=
  .foldl (f := fun (line : LiveLine ℕ) key => (line.enter 1 key).2)
    (fun _ key => .inr ⟨(.enter 1 key, _), rfl⟩) [3, 7, 5] (.start rfl)

/-- …as its turn passes to the first of them, and the second waits on. -/
theorem liveLine_conserves_waiting :
    ((liveWaiting.drop.1.grants ++ []).takeWhile (· ≠ 5)) = [7] ∧
    ((liveWaiting.drop.1.grants ++ []).takeWhile (· ≠ 5)).Nodup ∧
    liveWaiting.queue.bound ≤ liveWaiting.queue.held ∧ liveWaiting.drop.1.crossed = none := by
  have hcall : (liveLines ℕ).step liveWaiting (.drop, liveWaiting.drop.1) liveWaiting.drop.2 := rfl
  obtain ⟨-, hfull, -, -, hfair, -, hquiet⟩ :=
    liveLine_conserves reachable_liveWaiting (.cons hcall (.nil _))
  refine ⟨by decide, hfair 5 ?_, hfull 5 1 (by decide),
    hquiet 5 1 (by decide) (by decide) _ mem_cons_self⟩
  intro before later mid heq hrun _
  rcases hrun with _ | ⟨hstep, hrest⟩
  · decide
  · obtain ⟨rfl, hnil⟩ := cons.inj heq
    obtain ⟨rfl, rfl⟩ := append_eq_nil_iff.mp hnil.symm
    cases hrest
    obtain ⟨-, rfl⟩ := eq_of_some_eq (hcall.symm.trans hstep)
    decide

end Oneiron
