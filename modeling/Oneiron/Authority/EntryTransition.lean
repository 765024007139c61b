import Oneiron.Authority.FoldScheduleSafety

/-!
# Authority/EntryTransition — an entry folds once its parents have

    decided by the row alone --▸ ready | invalid
    else its parents, in turn: one missing --▸ waiting | two vaults --▸ invalid
    else their merge, in the row's vault --▸ the operation applies, or is invalid

So the fold of the log's own transition is a rescan (`scheduled_fold_is_rescan`), and that
of any transition whose ready rows stand as further rows land is one too.
-/

open Std

namespace Oneiron

namespace FoldSchedule

/-- What a context makes of an entry, but for its parents. -/
structure EntryRules (σ ι : Type) where
  /-- A row the checks before its parents refuse, or a genesis. -/
  decides : Bytes32 → Option (Except ι σ)
  vaultId : σ → Bytes32
  mergeStates : σ → σ → σ
  /-- The operation, over the merge of the parents. -/
  applyOp : Bytes32 → σ → Except ι σ
  /-- `AuthorityFoldIssue::WrongVault`. -/
  wrongVault : Bytes32 → ι
  /-- `AuthorityFoldIssue::InvalidAncestry`. -/
  invalidAncestry : Bytes32 → ι

namespace EntryRules

section Rules

variable {σ ι : Type} (rules : EntryRules σ ι)

/-- The walk of an entry's parents: their merge, or what ends the fold of the entry. -/
def mergeParents (hash : Bytes32) (states : States σ) :
    Option σ → List Bytes32 → Except (EntryFold σ ι) (Option σ)
  | parentState, [] => .ok parentState
  | parentState, parent :: parents =>
    match states[parent]? with
    | none => .error .waiting
    | some state =>
      match parentState with
      | none => mergeParents hash states (some state) parents
      | some current =>
        if rules.vaultId current ≠ rules.vaultId state then .error (.invalid (rules.wrongVault hash))
        else mergeParents hash states (some (rules.mergeStates current state)) parents

/-- What a refusal or a state makes of an entry. -/
def ended : Except ι σ → EntryFold σ ι
  | .ok state => .ready state
  | .error issue => .invalid issue

/-- `fold_entry_state`. -/
def foldEntryState (row : Row) (hash : Bytes32) (states : States σ) : EntryFold σ ι :=
  match rules.decides hash with
  | some decided => ended decided
  | none =>
    match rules.mergeParents hash states none row.parentHashes with
    | .error stopped => stopped
    | .ok none => .invalid (rules.invalidAncestry hash)
    | .ok (some state) =>
      if row.vaultId ≠ some (rules.vaultId state) then .invalid (rules.wrongVault hash)
      else ended (rules.applyOp hash state)

/-- The transition of a fold by the rules of its context, and by those of the context without its
pre-handoff rows. -/
def transition (historical : EntryRules σ ι) (rows : Rows) (pastHandoffs beneathItself : Bytes32 → Bool)
    (raiseSeq : σ → AuthorityKey → UInt64 → σ) : Transition σ ι where
  foldEntryState hash states :=
    (rows[hash]?).elim .waiting fun row => rules.foldEntryState row hash states
  foldHistorical hash states :=
    (rows[hash]?).elim .waiting fun row => historical.foldEntryState row hash states
  pastHandoffs
  beneathItself
  vaultId := rules.vaultId
  mergeStates := rules.mergeStates
  raiseSeq
  invalidAncestry := rules.invalidAncestry

variable {rules}

variable {hash : Bytes32} {states states' : States σ} {state : σ} (historical : EntryRules σ ι)
  (rows : Rows) (pastHandoffs beneathItself : Bytes32 → Bool)
  (raiseSeq : σ → AuthorityKey → UInt64 → σ)

theorem mergeParents_congr (hash : Bytes32) : ∀ (parents : List Bytes32) (parentState : Option σ),
      (∀ parent ∈ parents, states[parent]? = states'[parent]?) →
        rules.mergeParents hash states parentState parents =
          rules.mergeParents hash states' parentState parents
  | [], _, _ => rfl
  | parent :: parents, parentState, hsame => by
    have ih (merged : Option σ) := mergeParents_congr hash parents merged fun other hother =>
      hsame other (List.mem_cons_of_mem _ hother)
    rw [mergeParents, mergeParents, hsame parent List.mem_cons_self]
    simp only [ih]

/-- A walk that met every parent ends the same as further rows land. -/
theorem mergeParents_of_le {hash : Bytes32} {states states' : States σ}
    (hle : ∀ (other : Bytes32) (known : σ), states[other]? = some known →
      states'[other]? = some known) :
    ∀ (parents : List Bytes32) (parentState : Option σ) {merged : Option σ},
      rules.mergeParents hash states parentState parents = .ok merged →
        rules.mergeParents hash states' parentState parents = .ok merged
  | [], _, _, h => h
  | parent :: parents, parentState, merged, h => by
    have ih (current : Option σ) := @mergeParents_of_le hash states states' hle parents current merged
    rw [mergeParents] at h ⊢
    cases hparent : states[parent]? with
    | none =>
      rw [hparent] at h
      exact nomatch h
    | some state =>
      rw [hparent] at h
      rw [hle parent state hparent]
      dsimp only at h ⊢
      split at h
      · exact ih _ h
      · split at h
        · exact nomatch h
        · next hvault => exact (if_neg hvault).trans (ih _ h)

/-- A walk of parents that stops never makes the entry ready. -/
theorem mergeParents_ne_ready : ∀ (parents : List Bytes32) (parentState : Option σ),
      rules.mergeParents hash states parentState parents ≠ .error (.ready state)
  | [], _, h => nomatch h
  | parent :: parents, parentState, h => by
    rw [mergeParents] at h
    split at h
    · exact nomatch h
    · split at h
      · exact mergeParents_ne_ready parents _ h
      · split at h
        · exact nomatch h
        · exact mergeParents_ne_ready parents _ h

/-- The log's transition reads its row and its parents' states alone. -/
theorem readsParents :
    ReadsParents (rules.transition historical rows pastHandoffs beneathItself raiseSeq) rows := by
  intro hash row states states' hrow hsame
  show (rows[hash]?).elim _ _ = (rows[hash]?).elim _ _
  rw [hrow]
  show rules.foldEntryState row hash states = rules.foldEntryState row hash states'
  unfold foldEntryState
  rw [mergeParents_congr hash row.parentHashes none hsame]

/-- An entry the log's transition found ready had every parent's state, so it stays ready. -/
theorem foldEntryState_of_le {row : Row}
    (hle : ∀ (other : Bytes32) (known : σ), states[other]? = some known →
      states'[other]? = some known) (h : rules.foldEntryState row hash states = .ready state) :
    rules.foldEntryState row hash states' = .ready state := by
  unfold foldEntryState at h ⊢
  split at h
  · exact h
  · split at h
    · next stopped hstopped => exact absurd (h ▸ hstopped) (mergeParents_ne_ready _ _)
    · exact nomatch h
    · next merged hmerged =>
      rw [mergeParents_of_le hle row.parentHashes none hmerged]
      exact h

theorem readyStands :
    ReadyStands (rules.transition historical rows pastHandoffs beneathItself raiseSeq) := by
  intro hash states states' state hle h
  change (rows[hash]?).elim _ _ = _ at h
  show (rows[hash]?).elim _ _ = _
  cases hrow : rows[hash]? with
  | none =>
    rw [hrow] at h
    exact nomatch h
  | some row =>
    rw [hrow] at h
    exact foldEntryState_of_le hle h

end Rules

end EntryRules

/-- **The scheduled fold is the rescan fold.**  Whatever the rows, the states they start from and the
transition, if it reads its parents' states alone and a row it found ready stays ready as further rows
land, the schedule leaves the states, the unfolded rows and the issues that the rescan does. -/
theorem scheduled_fold_is_rescan {σ ι : Type} (fold : Transition σ ι) (rows : Rows) (seed : States σ)
    (issues : List ι) (hreads : ReadsParents fold rows) (hstands : ReadyStands fold) :
    foldEntryStatesSeeded fold rows seed issues = foldRescanned fold rows seed issues := by
  rw [foldEntryStatesSeeded, foldRescanned,
    schedule_eq_rescan hreads hstands _ (sound_start seed issues)]
  rfl

/-! ## Rows beneath an enrolment that fails -/

/-- A retired enrolment, a revoke beneath it, and two rows beneath the revoke, one beneath the
other too. -/
def hastyRows : Rows :=
  (((∅ : Rows).insert (.of 1) ⟨.enrollDevice 0, [.of 0], some (.of 9), .ed25519 (.of 7), 1⟩).insert
    (.of 2) ⟨.revokeActor, [.of 1], some (.of 9), .ed25519 (.of 7), 2⟩).insert
    (.of 3) ⟨.other, [.of 2, .of 4], some (.of 9), .ed25519 (.of 7), 3⟩ |>.insert
    (.of 4) ⟨.other, [.of 2], some (.of 9), .ed25519 (.of 7), 4⟩

/-- The states the fold of the hasty rows starts from. -/
def hastySeed : States ℕ := (∅ : States ℕ).insert (.of 0) 0

def hastyRejected : OrderedSet Bytes32 := (∅ : OrderedSet Bytes32).insert (.of 1)

/-- Every row waits, but the enrolment, which failed. -/
def hastyStalled : Scheduled ℕ Unit where
  states := hastySeed
  pending := ((∅ : OrderedSet Bytes32).insert (.of 2)).insert (.of 3) |>.insert (.of 4)
  rejectedRetired := hastyRejected
  issues := [()]
  queue := ∅

section Stalled

variable {fold : Transition ℕ Unit}

/-- The enrolment's place is taken by the state beneath it. -/
theorem resolveParent_hasty (hbeneath : fold.beneathItself = fun _ => false)
    (hvault : fold.vaultId = fun _ => .of 9) (hraise : fold.raiseSeq = fun state _ _ => state) :
    resolveParent fold hastyRows hastySeed hastyRejected (.of 1) = some 0 := by
  have hfirst : searchStep (pastRejected hastyRows hastySeed hastyRejected)
      (resolveRow fold hastyRows hastySeed hastyRejected) ⟨∅, [.of 1], some {}⟩ =
      .inl ⟨{.of 1}, [.of 0], some ⟨none, [some (.of 9)],
        (∅ : OrderedMap AuthorityKey UInt64).insert (.ed25519 (.of 7)) 1⟩⟩ := by
    simp only [searchStep, resolveRow, hbeneath]
    rfl
  have hsecond : searchStep (pastRejected hastyRows hastySeed hastyRejected)
      (resolveRow fold hastyRows hastySeed hastyRejected)
      ⟨{.of 1}, [.of 0], some ⟨none, [some (.of 9)],
        (∅ : OrderedMap AuthorityKey UInt64).insert (.ed25519 (.of 7)) 1⟩⟩ =
      .inl ⟨insert (.of 0) {.of 1}, [], some ⟨some 0, [some (.of 9)],
        (∅ : OrderedMap AuthorityKey UInt64).insert (.ed25519 (.of 7)) 1⟩⟩ := by
    simp only [searchStep, resolveRow, hbeneath]
    rfl
  rw [resolveParent, search, List.reverse_singleton, loop_of_inl hfirst, loop_of_inl hsecond,
    loop_eq]
  simp only [hvault, hraise]
  rfl

/-- The revoke lands past the rejected enrolment. -/
theorem landsStalled_hasty
    (hresolved : resolveParent fold hastyRows hastySeed hastyRejected (.of 1) = some 0)
    (hwaits : fold.foldEntryState (.of 2) hastySeed = .waiting)
    (hready : fold.foldEntryState (.of 2) (hastySeed.insert (.of 1) 0) = .ready 1) :
    hastyStalled.landsStalled fold hastyRows hastyRejected (.of 2) = some 1 := by
  have hsubstituted : substituteParents fold hastyRows hastySeed hastyRejected
      ⟨.revokeActor, [.of 1], some (.of 9), .ed25519 (.of 7), 2⟩ =
      some (hastySeed.insert (.of 1) 0, true) := by
    rw [substituteParents, List.foldlM_cons, substituteParent, if_neg (by decide), hresolved]
    rfl
  have hrevoked : stalledActorRevoke fold hastyRows hastySeed hastyRejected
      ⟨.revokeActor, [.of 1], some (.of 9), .ed25519 (.of 7), 2⟩ (.of 2) = some 1 := by
    rw [stalledActorRevoke, if_pos (show RowOp.revokeActor.restrictiveWithdrawal by rfl), hsubstituted]
    simp [hready]
  have hrow : hastyRows[(.of 2 : Bytes32)]? =
      some ⟨.revokeActor, [.of 1], some (.of 9), .ed25519 (.of 7), 2⟩ := rfl
  rw [Folding.landsStalled, hrow]
  dsimp only
  rw [evaluateStalled, show hastyStalled.states = hastySeed from rfl, hwaits]
  rw [hrevoked]
  rfl

/-- The pass goes on from the revoke to the two rows beneath it. -/
theorem pass_from_revoke {passed : Scheduled ℕ Unit} (hhistorical : ∃ state,
      fold.foldHistorical (.of 1) hastySeed = .ready state)
    (hlands : hastyStalled.landsStalled fold hastyRows hastyRejected (.of 2) = some 1)
    (hpasses : [(.of 3 : Bytes32), .of 4].foldl (Scheduled.passRow fold hastyRows hastyRejected)
      (hastyStalled.land hastyRows (.of 2) 1, true) = (passed, true)) :
    hastyStalled.pending.toList.foldl
      (Scheduled.passRow fold hastyRows (hastyStalled.crossable fold)) (hastyStalled, false) =
        (passed, true) := by
  have hcrossable : hastyStalled.crossable fold = hastyRejected := by
    obtain ⟨state, hstate⟩ := hhistorical
    ext hash
    refine ExtTreeSet.mem_filter.trans
      ⟨fun h => h.1, fun (h : hash ∈ hastyStalled.rejectedRetired) => ⟨h, ?_⟩⟩
    obtain rfl : .of 1 = hash := by simpa [hastyStalled, hastyRejected] using h
    rw [ExtTreeSet.get_eq, show hastyStalled.states = hastySeed from rfl, hstate]
  have hrevoke : Scheduled.passRow fold hastyRows hastyRejected (hastyStalled, false) (.of 2) =
      (hastyStalled.land hastyRows (.of 2) 1, true) := by
    rw [Scheduled.passRow, hlands]
  rw [hcrossable, show hastyStalled.pending.toList = [.of 2, .of 3, .of 4] from rfl,
    List.foldl_cons, hrevoke, hpasses]

end Stalled

/-- Rules that count the rows to an entry, and may refuse one. -/
def countingRules (refused : Option Bytes32) : EntryRules ℕ Unit where
  decides _ := none
  vaultId _ := .of 9
  mergeStates := max
  applyOp hash state := if refused = some hash then .error () else .ok (state + 1)
  wrongVault _ := ()
  invalidAncestry _ := ()

/-- The enrolment is refused, but not where the pre-handoff rows are left out. -/
def countingFold : Transition ℕ Unit :=
  (countingRules (some (.of 1))).transition (countingRules none) hastyRows (fun _ => true)
    (fun _ => false) fun state _ _ => state

/-- The stalled pass landed the revoke and row 4, for which row 3 waited. -/
def countingPassed : Scheduled ℕ Unit where
  states := (hastySeed.insert (.of 2) 1).insert (.of 4) 2
  pending := (hastyStalled.pending.erase (.of 2)).erase (.of 4)
  rejectedRetired := hastyRejected
  issues := [()]
  queue := ((∅ : OrderedSet (Bool × Bytes32)).insert (true, .of 3)).insert (true, .of 4)

theorem rescan_counting : rescan countingFold hastyRows (startFolding hastyRows hastySeed []) =
    { countingPassed.toFolding with
      states := countingPassed.states.insert (.of 3) 3
      pending := countingPassed.pending.erase (.of 3) } := by
  have hreject : (startFolding hastyRows hastySeed []).rescanStep countingFold hastyRows =
      .inl hastyStalled.toFolding := rfl
  have hlands : hastyStalled.landsStalled countingFold hastyRows hastyRejected (.of 2) = some 1 :=
    landsStalled_hasty (resolveParent_hasty rfl rfl rfl) rfl rfl
  have hpass : hastyStalled.toFolding.rescanStep countingFold hastyRows =
      .inl countingPassed.toFolding := by
    rw [rescanStep_of_find?_eq_none rfl, if_neg (by decide), toFolding_foldl_passRow,
      pass_from_revoke ⟨1, rfl⟩ hlands rfl]
    rfl
  have hthird : countingPassed.toFolding.rescanStep countingFold hastyRows =
      .inl (countingPassed.toFolding.land (.of 3) 3) := rfl
  rw [rescan, loop_of_inl hreject, loop_of_inl hpass, loop_of_inl hthird]
  exact loop_of_inr rfl

/-- The rows land in the stalled pass and after it, and the schedule leaves what the rescan does. -/
theorem scheduled_fold_is_rescan_stalled :
    foldEntryStatesSeeded countingFold hastyRows hastySeed [] =
        foldRescanned countingFold hastyRows hastySeed [] ∧
      (foldEntryStatesSeeded countingFold hastyRows hastySeed []).states[(.of 3 : Bytes32)]? =
        some 3 ∧
      (foldEntryStatesSeeded countingFold hastyRows hastySeed []).unfolded = [] := by
  have h := scheduled_fold_is_rescan countingFold hastyRows hastySeed []
    (EntryRules.readsParents _ _ _ _ _) (EntryRules.readyStands _ _ _ _ _)
  refine ⟨h, ?_⟩
  rw [h, foldRescanned, rescan_counting]
  exact ⟨rfl, rfl⟩

/-! ## A transition that does not wait for every parent -/

/-- A transition that takes row 3 once one of its parents landed, and takes it for more once both
did. -/
def hastyFold : Transition ℕ Unit where
  foldEntryState hash states :=
    if hash = .of 1 then .invalid ()
    else if hash = .of 2 then if .of 1 ∈ states then .ready 1 else .waiting
    else if hash = .of 4 then if .of 2 ∈ states then .ready 1 else .waiting
    else if hash = .of 3 ∧ .of 4 ∈ states then .ready 2
    else if hash = .of 3 ∧ .of 2 ∈ states then .ready 1 else .waiting
  foldHistorical _ _ := .ready 0
  pastHandoffs _ := true
  beneathItself _ := false
  vaultId _ := .of 9
  mergeStates current _ := current
  raiseSeq state _ _ := state
  invalidAncestry _ := ()

theorem readsParents_hasty : ReadsParents hastyFold hastyRows := by
  intro hash row states states' hrow hsame
  have hmem (parent : Bytes32) (hp : parent ∈ row.parentHashes) :
      parent ∈ states ↔ parent ∈ states' := by
    rw [ExtTreeMap.mem_iff_isSome_getElem?, ExtTreeMap.mem_iff_isSome_getElem?, hsame parent hp]
  simp only [hastyRows, ExtTreeMap.getElem?_insert, Std.compare_eq_iff_eq] at hrow
  dsimp only [hastyFold]
  split at hrow
  · next h4 => simp +decide [← h4, hmem (.of 2) (by simp [← Option.some.inj hrow])]
  · split at hrow
    · next h3 =>
      obtain rfl := Option.some.inj hrow
      simp +decide [← h3, hmem (.of 2) (by simp), hmem (.of 4) (by simp)]
    · split at hrow
      · next h2 => simp +decide [← h2, hmem (.of 1) (by simp [← Option.some.inj hrow])]
      · split at hrow
        · next h1 => simp +decide [← h1]
        · exact nomatch hrow

/-- The stalled pass landed all three, row 3 before row 4. -/
def hastyPassed : Scheduled ℕ Unit where
  states := ((hastySeed.insert (.of 2) 1).insert (.of 3) 1).insert (.of 4) 1
  pending := ∅
  rejectedRetired := hastyRejected
  issues := [()]
  queue := ((∅ : OrderedSet (Bool × Bytes32)).insert (true, .of 3)).insert (true, .of 4)

/-- The stalled pass queues row 3 as row 2 lands, and row 3 lands before its turn. -/
theorem pass_hasty : hastyStalled.pending.toList.foldl
    (Scheduled.passRow hastyFold hastyRows (hastyStalled.crossable hastyFold))
    (hastyStalled, false) = (hastyPassed, true) :=
  pass_from_revoke ⟨0, rfl⟩ (landsStalled_hasty (resolveParent_hasty rfl rfl rfl) rfl rfl) rfl

/-- The schedule takes row 3 again once row 4 landed. -/
theorem schedule_hasty : (schedule hastyFold hastyRows
    ((startFolding hastyRows hastySeed []).queueAll hastyRows)).states[(.of 3 : Bytes32)]? =
      some 2 := by
  have hstalled : schedule hastyFold hastyRows
      ((startFolding hastyRows hastySeed []).queueAll hastyRows) =
        schedule hastyFold hastyRows hastyStalled :=
    (schedule_of_inl rfl).trans <| (schedule_of_inl rfl).trans <|
      (schedule_of_inl rfl).trans (schedule_of_inl rfl)
  have hpass : hastyStalled.step hastyFold hastyRows = .inl hastyPassed := by
    rw [Scheduled.step, show hastyStalled.first = none from rfl]
    rw [if_neg (by decide), pass_hasty]
    rfl
  have hagain : schedule hastyFold hastyRows hastyPassed =
      { hastyPassed.toFolding with states := hastyPassed.states.insert (.of 3) 2 } :=
    (schedule_of_inl rfl).trans <| (schedule_of_inl rfl).trans (schedule_of_inr rfl)
  rw [hstalled, schedule_of_inl hpass, hagain]
  rfl

/-- The rescan takes row 3 once. -/
theorem rescan_hasty : (rescan hastyFold hastyRows
    (startFolding hastyRows hastySeed [])).states[(.of 3 : Bytes32)]? = some 1 := by
  have hreject : (startFolding hastyRows hastySeed []).rescanStep hastyFold hastyRows =
      .inl hastyStalled.toFolding := rfl
  have hpass : hastyStalled.toFolding.rescanStep hastyFold hastyRows =
      .inl hastyPassed.toFolding := by
    rw [rescanStep_of_find?_eq_none rfl, if_neg (by decide), toFolding_foldl_passRow, pass_hasty]
    rfl
  have hend : hastyPassed.toFolding.rescanStep hastyFold hastyRows =
      .inr hastyPassed.toFolding := rfl
  rw [rescan, loop_of_inl hreject, loop_of_inl hpass, loop_of_inr hend]
  rfl

/-- **A transition that reads its parents' states alone may fold apart**, when it takes a row before
all its parents landed: what the stalled pass landed is taken again as its last parent lands. -/
theorem hasty_folds_apart : ReadsParents hastyFold hastyRows ∧
    foldEntryStatesSeeded hastyFold hastyRows hastySeed [] ≠
      foldRescanned hastyFold hastyRows hastySeed [] := by
  refine ⟨readsParents_hasty, fun h => ?_⟩
  have hstates : (some 2 : Option ℕ) = some 1 := by
    rw [← schedule_hasty, ← rescan_hasty]
    exact congrArg (·.states[(.of 3 : Bytes32)]?) h
  exact absurd hstates (by decide)

end FoldSchedule

end Oneiron
