import Oneiron.Outbound.Ledger

/-!
# Outbound/MeterBalance — what the usage rows hold is what is owed

    charge  +1        take  −1        touch  entries past their window, of one debit all at once

Equal entries of a row were written at one instant, so a row forgets all of them or none: its count of
a debit is what is owed of it, or zero once the clock has moved on.
-/

namespace Oneiron

open List Function Option ConnectorKeyUsage

/-- How often a list holds each debit. -/
def tally (debits : List EffectorBudgetDebit) : EffectorBudgetDebit → ℕ := fun debit =>
  debits.count debit

@[simp] theorem tally_nil : tally [] = 0 := rfl

theorem tally_append (a b : List EffectorBudgetDebit) : tally (a ++ b) = tally a + tally b :=
  funext fun _ => count_append

theorem tally_cons (debit : EffectorBudgetDebit) (debits : List EffectorBudgetDebit) :
    tally (debit :: debits) = tally [debit] + tally debits := tally_append [debit] debits

namespace ConnectorKeyUsage

variable (usage : ConnectorKeyUsage) (window : EffectorBudgetWindow) (now : ℕ)

variable {entry : ℕ × U64}

theorem mem_touch (h : entry ∈ (usage.touch window now).entries) : entry ∈ usage.entries := by
  cases window with
  | rolling durationS pos => exact mem_of_mem_filter h
  | calendar start le =>
    rw [touch] at h
    split at h
    · exact absurd h not_mem_nil
    · exact mem_of_mem_filter h

/-- A row's calendar bucket is the one its entries were written in. -/
def Bucketed (usage : ConnectorKeyUsage) (window : EffectorBudgetWindow) : Prop :=
  match window with
  | .rolling .. => True
  | .calendar start _ => ∀ entry ∈ usage.entries, start entry.1 = usage.windowStart

variable {usage window now}

/-- **A row forgets equal entries together**, and none of the instant it is touched at. -/
theorem count_touch (hbucket : usage.Bucketed window) (hnow : now < U64.top)
    (hearly : entry ∈ usage.entries → entry.1 ≤ now) :
    (usage.touch window now).entries.count entry = usage.entries.count entry ∨
      (usage.touch window now).entries.count entry = 0 ∧ entry.1 < now := by
  by_cases hmem : entry ∈ usage.entries
  case neg => exact .inl ((count_eq_zero_of_not_mem fun h => hmem (usage.mem_touch window now h)).trans
    (count_eq_zero_of_not_mem hmem).symm)
  case pos =>
    have hle := hearly hmem
    cases window with
    | rolling durationS pos =>
      by_cases hkept : now < min (entry.1 + durationS.val) U64.top
      · exact .inl (count_filter (by simpa using hkept))
      · refine .inr ⟨count_eq_zero_of_not_mem fun h => hkept ?_, ?_⟩
        · simpa using (mem_filter.mp h).2
        · rw [lt_min_iff] at hkept
          omega
    | calendar start le =>
      have hstart : start entry.1 = usage.windowStart := hbucket entry hmem
      rw [touch]
      split
      case isTrue hmoved =>
        refine .inr ⟨rfl, hle.lt_of_ne fun heq => hmoved ?_⟩
        rw [← hstart, heq]
      case isFalse hsame =>
        refine .inl (count_filter ?_)
        rw [not_not] at hsame
        simpa [← hsame, hstart] using hstart ▸ le entry.1

theorem Bucketed.touch (h : usage.Bucketed window) (now : ℕ) :
    (usage.touch window now).Bucketed window := by
  cases window with
  | rolling durationS pos => trivial
  | calendar start le =>
    rw [ConnectorKeyUsage.touch]
    split
    · exact fun entry hmem => absurd hmem not_mem_nil
    · exact fun entry hmem => h entry (mem_of_mem_filter hmem)

theorem Bucketed.push (h : usage.Bucketed window) (amount : U64) :
    ((usage.touch window now).push (now, amount)).Bucketed window := by
  have htouched := h.touch now
  cases window with
  | rolling durationS pos => trivial
  | calendar start le =>
    intro entry hmem
    rcases mem_append.mp hmem with hold | hnew
    · exact htouched entry hold
    · obtain rfl := mem_singleton.mp hnew
      rw [ConnectorKeyUsage.touch]
      split
      · rfl
      case isFalse hsame => exact (not_not.mp hsame).symm

theorem Bucketed.take (h : usage.Bucketed window) (entry : ℕ × U64) :
    (usage.take entry).Bucketed window := by
  cases window with
  | rolling durationS pos => trivial
  | calendar start le => exact fun other hmem => h other (mem_of_mem_erase hmem)

end ConnectorKeyUsage

/-- The usage rows hold what is owed of each debit, or its window is past. -/
structure UsageTable.Balanced (windows : EffectorBudgetLocation → EffectorBudgetWindow)
    (usage : UsageTable) (owed : EffectorBudgetDebit → ℕ) (clock : ℕ) : Prop where
  count : clock < U64.top → ∀ debit : EffectorBudgetDebit,
    (usage debit.location).entries.count debit.entry = owed debit ∨
      (usage debit.location).entries.count debit.entry = 0 ∧ debit.at_ < clock
  early : ∀ location, ∀ entry ∈ (usage location).entries, entry.1 ≤ clock
  bucketed : ∀ location, (usage location).Bucketed (windows location)

variable {debits : List EffectorBudgetDebit}

namespace UsageTable.Balanced

variable {windows : EffectorBudgetLocation → EffectorBudgetWindow} {usage : UsageTable}
  {owed : EffectorBudgetDebit → ℕ} {clock now : ℕ} {location : EffectorBudgetLocation}

theorem tick (h : usage.Balanced windows owed clock) (hle : clock ≤ now) :
    usage.Balanced windows owed now := by
  refine ⟨fun hnow debit => ?_, fun location entry hmem => (h.early location entry hmem).trans hle,
    h.bucketed⟩
  exact (h.count (hle.trans_lt hnow) debit).imp_right fun ⟨hzero, hpast⟩ =>
    ⟨hzero, hpast.trans_le hle⟩

theorem touch (h : usage.Balanced windows owed now) (location : EffectorBudgetLocation) :
    UsageTable.Balanced windows (Function.update usage location
      ((usage location).touch (windows location) now)) owed now := by
  refine ⟨fun hnow debit => ?_, fun other entry hmem => ?_, fun other => ?_⟩
  · by_cases hother : debit.location = location
    · subst hother
      rw [update_self]
      rcases count_touch (h.bucketed debit.location) hnow
        (h.early debit.location debit.entry) with hcount | hforgotten
      · rw [hcount]
        exact h.count hnow debit
      · exact .inr hforgotten
    · rw [update_of_ne hother]
      exact h.count hnow debit
  · rw [update_apply] at hmem
    split at hmem
    · exact h.early location entry (mem_touch _ _ _ hmem)
    · exact h.early other entry hmem
  · rw [update_apply]
    split
    case isTrue heq => exact heq ▸ (h.bucketed location).touch now
    case isFalse => exact h.bucketed other

/-- **A charge is owed.** -/
theorem charge (h : usage.Balanced windows owed now) (location : EffectorBudgetLocation)
    (amount : U64) :
    (usage.charge windows ⟨location, amount, now⟩).Balanced windows
      (owed + tally [⟨location, amount, now⟩]) now := by
  have htouched := h.touch location
  refine ⟨fun hnow debit => ?_, fun other entry hmem => ?_, fun other => ?_⟩
  · have hcount := htouched.count hnow debit
    rw [update_apply] at hcount
    rw [UsageTable.charge, update_apply, Pi.add_apply, tally, count_singleton]
    split at hcount
    case isTrue hlocation =>
      rw [if_pos hlocation, ConnectorKeyUsage.push, count_append, count_singleton]
      by_cases hsame : debit = ⟨location, amount, now⟩
      · subst hsame
        rcases hcount with hcount | ⟨-, hpast⟩
        · refine .inl ?_
          rw [hcount]
          simp
        · exact absurd hpast (lt_irrefl now)
      · have hentry : (⟨location, amount, now⟩ : EffectorBudgetDebit).entry ≠ debit.entry := by
          intro heq
          obtain ⟨hat, hamount⟩ := Prod.mk.inj heq
          obtain ⟨place, paid, instant⟩ := debit
          exact hsame (by simp_all)
        simpa [hentry, Ne.symm hsame] using hcount
    case isFalse hlocation =>
      have hne : (⟨location, amount, now⟩ : EffectorBudgetDebit) ≠ debit := by
        rintro rfl
        exact hlocation rfl
      rw [if_neg hlocation]
      simpa [hne] using hcount
  · rw [UsageTable.charge, update_apply] at hmem
    split at hmem
    · rcases mem_append.mp hmem with hold | hnew
      · exact h.early location entry (mem_touch _ _ _ hold)
      · exact (congrArg Prod.fst (mem_singleton.mp hnew)).le
    · exact h.early other entry hmem
  · rw [UsageTable.charge, update_apply]
    split
    case isTrue heq =>
      subst heq
      exact (h.bucketed other).push amount
    case isFalse => exact h.bucketed other

/-- **What is given back is owed no more.** -/
theorem take {debit : EffectorBudgetDebit}
    (h : usage.Balanced windows (owed + tally [debit]) clock) :
    UsageTable.Balanced windows (Function.update usage debit.location
      ((usage debit.location).take debit.entry)) owed clock := by
  refine ⟨fun hnow other => ?_, fun other entry hmem => ?_, fun other => ?_⟩
  · have hcount := h.count hnow other
    rw [Pi.add_apply, tally, count_singleton] at hcount
    rw [update_apply]
    split
    case isTrue hlocation =>
      rw [ConnectorKeyUsage.take, count_erase, ← hlocation]
      by_cases hsame : debit = other
      · subst hsame
        rcases hcount with hcount | ⟨hzero, hpast⟩
        · exact .inl (by simp [hcount])
        · exact .inr ⟨by simp [hzero], hpast⟩
      · have hentry : debit.entry ≠ other.entry := by
          intro heq
          obtain ⟨hat, hamount⟩ := Prod.mk.inj heq
          obtain ⟨place, paid, instant⟩ := debit
          obtain ⟨place', paid', instant'⟩ := other
          exact hsame (by simp_all)
        simpa [hentry, hsame] using hcount
    case isFalse hlocation =>
      have hne : debit ≠ other := fun heq => hlocation (heq ▸ rfl)
      simpa [hne] using hcount
  · rw [update_apply] at hmem
    split at hmem
    · exact h.early debit.location entry (mem_of_mem_erase hmem)
    · exact h.early other entry hmem
  · rw [update_apply]
    split
    case isTrue heq => exact heq ▸ (h.bucketed debit.location).take debit.entry
    case isFalse => exact h.bucketed other

/-- Every debit of an admission written. -/
theorem charges (hnow : ∀ debit ∈ debits, debit.at_ = now) (h : usage.Balanced windows owed now) :
    (debits.foldl (.charge windows) usage).Balanced windows
      (owed + tally debits) now := by
  induction debits generalizing usage owed with
  | nil => exact h
  | cons debit debits ih =>
    rw [forall_mem_cons] at hnow
    obtain ⟨location, amount, instant⟩ := debit
    obtain rfl : instant = now := hnow.1
    rw [tally_cons, ← add_assoc]
    exact ih hnow.2 (h.charge location amount)

/-- Every debit of a reservation given back. -/
theorem release (h : usage.Balanced windows (owed + tally debits) clock) :
    (usage.release debits).Balanced windows owed clock := by
  induction debits generalizing usage with
  | nil => exact h
  | cons debit debits ih =>
    rw [tally_cons, add_comm (tally _), ← add_assoc] at h
    exact ih h.take

end UsageTable.Balanced

/-! ## A spend reconciled -/

namespace SpendReconciliation

variable {windows : EffectorBudgetLocation → EffectorBudgetWindow}
  {preauthorizes : EffectorBudgetLocation → String → Bool} {estimates : List EffectorBudgetDebit}
  {actual : ConnectorSpendEstimate} {now : ℕ} {owed : EffectorBudgetDebit → ℕ}
  {done : SpendReconciliation} {location : EffectorBudgetLocation}
  {rows : List EffectorBudgetLocation}

variable {usage : UsageTable} {debit : EffectorBudgetDebit}

theorem estimateAt_eq (h : estimateAt estimates usage location = some debit) :
    debit ∈ estimates ∧ debit.location = location := by
  obtain ⟨hfound, -⟩ := filter_eq_some_iff.mp h
  exact ⟨mem_of_find?_eq_some hfound, by simpa using find?_some hfound⟩

theorem tally_erase (h : debit ∈ debits) :
    tally (debits.erase debit) + tally [debit] = tally debits := by
  rw [← tally_append]
  exact funext fun other => ((perm_append_singleton ..).trans
    (perm_cons_erase h).symm).count_eq other

/-- With some rows still to go: the estimates not yet released are owed, and what was written. -/
structure Trades (windows : EffectorBudgetLocation → EffectorBudgetWindow)
    (estimates : List EffectorBudgetDebit) (now : ℕ) (owed : EffectorBudgetDebit → ℕ)
    (rows : List EffectorBudgetLocation) (done : SpendReconciliation) : Prop where
  balanced : done.usage.Balanced windows
    (owed + tally (estimates.diff done.released) + tally done.written) now
  passed : ∀ debit ∈ done.released, debit.location ∉ rows

/-- The estimate of a row given back, when it has one. -/
theorem Trades.releases (h : Trades windows estimates now owed (location :: rows) done) :
    UsageTable.Balanced windows (Function.update done.usage location
      ((estimateAt estimates done.usage location).elim (done.usage location) fun debit =>
        (done.usage location).take debit.entry))
      (owed + tally (estimates.diff
        (done.released ++ (estimateAt estimates done.usage location).toList)) +
        tally done.written) now := by
  cases hestimate : estimateAt estimates done.usage location with
  | none => simpa using h.balanced
  | some debit =>
    obtain ⟨hmem, rfl⟩ := estimateAt_eq hestimate
    have hleft : debit ∈ estimates.diff done.released :=
      mem_diff_of_mem hmem fun hreleased => h.passed debit hreleased mem_cons_self
    have hbalanced := h.balanced
    rw [← tally_erase hleft, ← add_assoc, add_right_comm] at hbalanced
    rw [toList_some, diff_append, diff_cons, diff_nil]
    exact hbalanced.take

theorem Trades.row (h : Trades windows estimates now owed (location :: rows) done)
    (hnodup : location ∉ rows) : Trades windows estimates now owed rows
      (row windows preauthorizes estimates actual now done location) := by
  have hpassed (debit : EffectorBudgetDebit) (hmem : debit ∈ done.released ++
      (estimateAt estimates done.usage location).toList) : debit.location ∉ rows := by
    rcases mem_append.mp hmem with hold | hnew
    · exact fun hrow => h.passed debit hold (mem_cons_of_mem _ hrow)
    · rw [(estimateAt_eq (mem_toList.mp hnew)).2]
      exact hnodup
  rw [SpendReconciliation.row]
  split
  case isFalse =>
    exact ⟨h.balanced, fun debit hmem hrow => h.passed debit hmem (mem_cons_of_mem _ hrow)⟩
  case isTrue =>
    split
    · refine ⟨?_, hpassed⟩
      have hcharged := h.releases.charge location actual.minorUnits
      rw [UsageTable.charge, update_self, update_idem, add_assoc, ← tally_append]
        at hcharged
      exact hcharged
    · refine ⟨?_, hpassed⟩
      have htouched := h.releases.touch location
      rw [update_self, update_idem] at htouched
      exact htouched

/-- **Reconciling trades debits for debits**: what is owed after is what a reservation then lists. -/
theorem ofRows_balanced {clock : ℕ} (h : usage.Balanced windows (owed + tally estimates) clock)
    (hle : clock ≤ now) (hnodup : rows.Nodup) :
    (ofRows windows preauthorizes estimates actual now usage rows).usage.Balanced windows
      (owed + tally (OutboundLedger.swapDebits estimates
        (ofRows windows preauthorizes estimates actual now usage rows).released
        (ofRows windows preauthorizes estimates actual now usage rows).written)) now := by
  have hall : Trades windows estimates now owed []
      (ofRows windows preauthorizes estimates actual now usage rows) := by
    have hstart : Trades windows estimates now owed rows ⟨usage, [], []⟩ :=
      ⟨by simpa using h.tick hle, fun debit hmem => absurd hmem not_mem_nil⟩
    rw [ofRows]
    generalize (⟨usage, [], []⟩ : SpendReconciliation) = done at hstart
    induction rows generalizing done with
    | nil => exact hstart
    | cons location rows ih =>
      rw [nodup_cons] at hnodup
      exact ih hnodup.2 _ (hstart.row hnodup.1)
  have hbalanced := hall.balanced
  rw [add_assoc, ← tally_append, diff_eq_foldl] at hbalanced
  exact hbalanced

end SpendReconciliation

end Oneiron
