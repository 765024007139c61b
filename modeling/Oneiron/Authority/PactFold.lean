import Oneiron.Authority.PactMerge

/-!
# Authority/PactFold — pacts folded over a log that forks and merges

Every state a log folds to keeps a sound record of each pact, so long as no merge meets a tie it
cannot break (`sound_of_folded`).  Then the merge is a join, ended pacts stay ended, and what one
branch narrowed no merge gives back (`pacts_merge`).
-/

open Std

namespace Oneiron

open Std.ExtTreeMap Option

open FederationPactState

/-- A log entry, as the pacts read it. -/
structure PactEntry where
  parentHashes : List Bytes32
  signer : AuthorityKey
  /-- Every other entry leaves the pacts alone. -/
  action : Option FederationLifecycleAction := none

/-- A log: an entry's hash covers its parents', so no row is its own ancestor. -/
structure PactLog where
  entry : Bytes32 → PactEntry
  acyclic : ∀ hash,
    ¬Relation.TransGen (fun parent hash => parent ∈ (entry hash).parentHashes) hash hash

namespace PactLog

variable (log : PactLog)

/-- Whether the first row is among the second's ancestors. -/
def before : Bytes32 → Bytes32 → Prop :=
  Relation.TransGen fun parent hash => parent ∈ (log.entry hash).parentHashes

/-- The narrowing an entry makes, under the party its signer stands for in its ancestry. -/
def made (sight : Bytes32 → PactSight) (hash : Bytes32) : Option FederationNarrowing := do
  let action ← (log.entry hash).action
  let scope ← action.effectiveScope
  pure ⟨narrowingParty (sight hash).actors (log.entry hash).signer, scope⟩

end PactLog

namespace FederationState

/-- `merge_states`, the pacts' part of it. -/
def mergeStates (context : PactContext) (left right : FederationState) : FederationState where
  federationPacts :=
    OrderedMap.joinWith (mergePactStates context) left.federationPacts right.federationPacts
  federationGrantBindings :=
    OrderedMap.joinWith (· ∪ ·) left.federationGrantBindings right.federationGrantBindings

/-- Whether every pact both states hold is one the merge can settle. -/
def Agrees (context : PactContext) (left right : FederationState) : Prop :=
  ∀ (id : Bytes32) (pact other : FederationPactState), left.federationPacts[id]? = some pact →
    right.federationPacts[id]? = some other → pact.Agrees context other

end FederationState

/-- The pacts folded from a log; `sight` is what each entry's ancestry says of its signers. -/
def pactFold (context : PactContext) (log : PactLog) (sight : Bytes32 → PactSight) :
    Forking FederationState Bytes32 where
  start := {}
  land state hash next :=
    match (log.entry hash).action with
    | none => next = state
    | some action => context.applyFederationLifecycle state action hash (log.entry hash).signer
        (sight hash) = .ok next
  merge left right merged := merged = left.mergeStates context right
  before := log.before

/-! ## What one action does -/

variable {hash : Bytes32}

namespace FederationPactState

variable {context : PactContext} {made : Bytes32 → Option FederationNarrowing}
  {past : Set Bytes32} {pact next : FederationPactState}

/-- A pact's record, all of whose narrowings are rows of the past. -/
structure Recorded (context : PactContext) (made : Bytes32 → Option FederationNarrowing)
    (past : Set Bytes32) (pact : FederationPactState) : Prop where
  sound : pact.Sound context made
  superseded : ∀ hash ∈ pact.supersededNarrowings, hash ∈ past
  narrowings : ∀ {hash : Bytes32} {narrowing : FederationNarrowing},
    pact.narrowings[hash]? = some narrowing → hash ∈ past

theorem Recorded.mono {past' : Set Bytes32} (h : pact.Recorded context made past)
    (hpast : past ⊆ past') : pact.Recorded context made past' :=
  ⟨h.sound, fun hash hs => hpast (h.superseded hash hs), fun hs => hpast (h.narrowings hs)⟩

/-- With nothing narrowed, the outbound half is the ceiling. -/
theorem scopeBeside_of_empty (h : pact.narrowings = ∅) (vault : Bytes32) :
    pact.scopeBeside vault none = pact.ceiling vault := by
  rw [scopeBeside_none, h]
  rfl

/-- A scope just signed, nothing narrowed. -/
theorem recorded_of_fresh {bytes : Bytes} (hstatus : pact.status = .active)
    (hsuccessor : pact.successorVaultId = none) (hterminal : pact.terminalEpoch = none)
    (hcanonical : pact.pactScope.encode context.writeValue = some bytes)
    (hnarrowings : pact.narrowings = ∅) (hsuperseded : pact.supersededNarrowings = ∅)
    (heffective : pact.effectiveScope = pact.ceiling context.localVaultId) :
    pact.Recorded context made past where
  sound := .live {
    live := by rw [hstatus]; rfl
    successor := hsuccessor
    terminalEpoch := hterminal
    canonical := by rw [hcanonical]; rfl
    effective := by rw [heffective, scopeBeside_of_empty hnarrowings]
    standing := fun h => by simp [hnarrowings] at h }
  superseded := by simp [hsuperseded]
  narrowings h := by simp [hnarrowings] at h

variable {entry : Bytes32} {party : NarrowingParty} {scope : FederationDirectionScope}

theorem getElem?_recordNarrowing (hash : Bytes32) :
    (pact.recordNarrowing entry party scope).narrowings[hash]? =
      if hash = entry then some ⟨party, scope⟩
      else pact.narrowings[hash]?.filter fun n => n.party ≠ party := by
  simp only [recordNarrowing, getElem?_insert, Std.compare_eq_iff_eq,
    getElem?_filter']
  by_cases h : hash = entry
  · simp [h]
  · simp [h, Ne.symm h]

theorem mem_superseded_recordNarrowing :
    hash ∈ (pact.recordNarrowing entry party scope).supersededNarrowings ↔
      hash ∈ pact.supersededNarrowings ∨
        ∃ narrowing, pact.narrowings[hash]? = some narrowing ∧ narrowing.party = party := by
  simp only [recordNarrowing, Finset.mem_union, List.mem_toFinset, List.mem_map, List.mem_filter,
    decide_eq_true_eq]
  refine or_congr Iff.rfl ⟨?_, ?_⟩
  · rintro ⟨⟨h, n⟩, ⟨hmem, hparty⟩, rfl⟩
    exact ⟨n, mem_toList_iff_getElem?_eq_some.mp hmem, hparty⟩
  · rintro ⟨n, hmem, hparty⟩
    exact ⟨(hash, n), ⟨mem_toList_iff_getElem?_eq_some.mpr hmem, hparty⟩, rfl⟩

/-- **A party's new narrowing stands, and its old ones never stand again.** -/
theorem Recorded.recordNarrowing (h : pact.Recorded context made past)
    {effectiveScope : FederationDirectionScope} (hlive : pact.status.isTerminal = false)
    (hentry : entry ∉ past) (hmade : made entry = some ⟨party, scope⟩)
    (heffective : effectiveScope =
      (pact.recordNarrowing entry party scope).scopeBeside context.localVaultId none) :
    ({ pact.recordNarrowing entry party scope with effectiveScope } : FederationPactState).Recorded
      context made (insert entry past) where
  sound := by
    have hpact := h.sound.standing hlive
    refine .live ⟨hlive, hpact.successor, hpact.terminalEpoch, hpact.canonical, heffective,
      fun {hash n} hn => ?_⟩
    rw [getElem?_recordNarrowing] at hn
    rw [mem_superseded_recordNarrowing]
    split at hn
    · next heq =>
      subst heq
      obtain rfl := some.inj hn
      refine ⟨?_, hmade⟩
      rintro (hs | ⟨n, hn, -⟩)
      · exact hentry (h.superseded _ hs)
      · exact hentry (h.narrowings hn)
    · obtain ⟨hn, hparty⟩ := filter_eq_some_iff.mp hn
      obtain ⟨hnot, hmade⟩ := hpact.standing hn
      refine ⟨?_, hmade⟩
      rintro (hs | ⟨n', hn', hparty'⟩)
      · exact hnot hs
      · obtain rfl := some.inj (hn.symm.trans hn')
        simp [hparty'] at hparty
  superseded hash hs := by
    have hs : hash ∈ (pact.recordNarrowing entry party scope).supersededNarrowings := hs
    rcases mem_superseded_recordNarrowing.mp hs with hs | ⟨n, hn, -⟩
    · exact Set.mem_insert_of_mem _ (h.superseded _ hs)
    · exact Set.mem_insert_of_mem _ (h.narrowings hn)
  narrowings {hash n} hn := by
    rw [getElem?_recordNarrowing] at hn
    split at hn
    · next heq => exact heq ▸ Set.mem_insert _ _
    · exact Set.mem_insert_of_mem _ (h.narrowings (filter_eq_some_iff.mp hn).1)

/-- A pact that ends has nothing left to record. -/
theorem Recorded.ended (h : pact.Recorded context made past) (hterminal : next.status.isTerminal)
    (hsuperseded : next.supersededNarrowings = pact.supersededNarrowings) :
    next.eraseScope.Recorded context made past where
  sound := .ended ⟨hterminal, rfl, rfl, rfl⟩
  superseded hash hs := h.superseded hash (hsuperseded ▸ hs)
  narrowings hn := by simp [eraseScope] at hn

/-- **A merge of two records is a record.** -/
theorem Recorded.merge {left right : FederationPactState} (hl : left.Recorded context made past)
    (hr : right.Recorded context made past) (h : Agrees context left right) :
    (mergePactStates context left right).Recorded context made past where
  sound := mergePactStates_sound hl.sound hr.sound h
  superseded hash hs := by
    rcases mergePactStates_cases context left right with ⟨heq, -⟩ | ⟨heq, -⟩ |
      ⟨-, ⟨-, heq⟩ | ⟨-, heq | heq⟩⟩ <;> rw [heq] at hs
    · exact hl.superseded hash hs
    · exact hr.superseded hash hs
    · exact (Finset.mem_union.mp hs).elim (hl.superseded hash) (hr.superseded hash)
    · exact hl.superseded hash hs
    · exact hr.superseded hash hs
  narrowings {hash n} hn := by
    rcases mergePactStates_cases context left right with ⟨heq, -⟩ | ⟨heq, -⟩ |
      ⟨-, ⟨-, heq⟩ | ⟨-, heq | heq⟩⟩ <;> rw [heq] at hn
    · exact hl.narrowings hn
    · exact hr.narrowings hn
    · rw [getElem?_combine] at hn
      split at hn
      · cases hn
      · cases hleft : left.narrowings[hash]? with
        | none =>
          rw [hleft, merge_none_left] at hn
          exact hr.narrowings hn
        | some held => exact hl.narrowings hleft
    · exact hl.narrowings hn
    · exact hr.narrowings hn

end FederationPactState

namespace PactContext

variable {context : PactContext} {made : Bytes32 → Option FederationNarrowing}
  {past : Set Bytes32} {pact next : FederationPactState} {action : FederationLifecycleAction}
  {entry : Bytes32} {signer : AuthorityKey} {sight : PactSight}

/-- An action lands only on a live pact… -/
theorem live_of_transition (h : context.transition pact action entry signer sight = .ok next) :
    pact.status.isTerminal = false := by
  obtain ⟨_, h, -⟩ := bind_eq_ok.mp h
  simpa using ensure_eq_ok.mp h

/-- …**and leaves a sound record of it.** -/
theorem recorded_transition (h : pact.Recorded context made past) (hentry : entry ∉ past)
    (hmade : ∀ scope ∈ action.effectiveScope,
      made entry = some ⟨narrowingParty sight.actors signer, scope⟩)
    (hok : context.transition pact action entry signer sight = .ok next) :
    next.Recorded context made (insert entry past) := by
  have hlive := live_of_transition hok
  have hpact := h.sound.standing hlive
  have hpast := Set.subset_insert entry past
  simp only [transition, bind_eq_ok, ensure_eq_ok, exists_const, pure_eq_ok] at hok
  obtain ⟨-, -, -, -, moved, hmoved, rfl⟩ := hok
  unfold move at hmoved
  split at hmoved
  · cases hmoved
  · next effective heffective _ =>
    simp only [narrow, bind_eq_ok, ensure_eq_ok, exists_const, pure_eq_ok] at hmoved
    obtain ⟨-, -, -, rfl⟩ := hmoved
    rw [if_neg (by simpa [recordNarrowing] using hlive)]
    exact h.recordNarrowing hlive hentry (hmade _ (by assumption)) rfl
  · simp only [repact, verifyPactScopeDigest, bind_eq_ok, ensure_eq_ok, okOr_eq_ok, exists_const,
      pure_eq_ok] at hmoved
    obtain ⟨-, scope, -, digest, -, bytes, hbytes, -, -, rfl⟩ := hmoved
    exact recorded_of_fresh rfl hpact.successor hpact.terminalEpoch hbytes rfl rfl rfl
  · simp only [promote, bind_eq_ok, ensure_eq_ok, okOr_eq_ok, exists_const, pure_eq_ok] at hmoved
    obtain ⟨-, -, digest, -, -, -, -, rfl⟩ := hmoved
    exact (h.ended (by rfl) (by rfl)).mono hpast
  all_goals
    simp only [sever, bind_eq_ok, ensure_eq_ok, exists_const, pure_eq_ok] at hmoved
    obtain ⟨-, rfl⟩ := hmoved
    exact (h.ended (by rfl) (by rfl)).mono hpast

variable {state : FederationState}

/-- **An action touches the pact it names, which had not ended, and no other.** -/
theorem applyFederationLifecycle_frame {next : FederationState}
    (hok : context.applyFederationLifecycle state action entry signer sight = .ok next) :
    (∀ pact, state.federationPacts[action.pactId]? = some pact → pact.status.isTerminal = false) ∧
      ∃ pact, next.federationPacts = state.federationPacts.insert action.pactId pact := by
  unfold applyFederationLifecycle at hok
  split at hok
  · next hnone =>
    simp only [connect, bind_eq_ok, pure_eq_ok] at hok
    obtain ⟨-, -, -, -, -, -, scope, -, digest, -, -, -, key, -, rfl⟩ := hok
    exact ⟨fun pact hpact => (by cases hnone.symm.trans hpact), _, rfl⟩
  · next pact hpact =>
    simp only [bind_eq_ok, pure_eq_ok] at hok
    obtain ⟨moved, hmoved, rfl⟩ := hok
    refine ⟨fun pact' hpact' => ?_, moved, rfl⟩
    rw [← some.inj (hpact.symm.trans hpact')]
    exact live_of_transition hmoved

/-- **What it leaves of that pact is a sound record.** -/
theorem applyFederationLifecycle_recorded {next : FederationState} (hentry : entry ∉ past)
    (hmade : ∀ scope ∈ action.effectiveScope,
      made entry = some ⟨narrowingParty sight.actors signer, scope⟩)
    (h : ∀ pact, state.federationPacts[action.pactId]? = some pact → pact.Recorded context made past)
    (hok : context.applyFederationLifecycle state action entry signer sight = .ok next) :
    ∀ pact, next.federationPacts[action.pactId]? = some pact →
      pact.Recorded context made (insert entry past) := by
  unfold applyFederationLifecycle at hok
  split at hok
  · simp only [connect, verifyPactScopeDigest, bind_eq_ok, ensure_eq_ok, okOr_eq_ok, exists_const,
      pure_eq_ok] at hok
    obtain ⟨-, -, -, scope, -, digest, -, bytes, hbytes, peerOwnerKey, -, rfl⟩ := hok
    intro pact hpact
    rw [getElem?_insert_self] at hpact
    exact some.inj hpact ▸ recorded_of_fresh rfl rfl rfl hbytes rfl rfl rfl
  · next pact hpact =>
    simp only [bind_eq_ok, pure_eq_ok] at hok
    obtain ⟨moved, hmoved, rfl⟩ := hok
    intro pact' hpact'
    rw [getElem?_insert_self] at hpact'
    exact some.inj hpact' ▸ recorded_transition (h pact hpact) hentry hmade hmoved

end PactContext

/-! ## Every log -/

section Fold

variable {context : PactContext} {log : PactLog} {sight : Bytes32 → PactSight}
  {past past' : Set Bytes32} {hash : Bytes32} {s t u : FederationState}

/-- Every pact a state folded from some rows holds has a sound record of them. -/
def FederationState.Records (context : PactContext) (made : Bytes32 → Option FederationNarrowing)
    (past : Set Bytes32) (state : FederationState) : Prop :=
  ∀ (id : Bytes32) (pact : FederationPactState), state.federationPacts[id]? = some pact →
    pact.Recorded context made past

theorem PactLog.not_mem_past (h : ∀ row ∈ past, log.before row hash) : hash ∉ past :=
  fun hmem => log.acyclic hash (h hash hmem)

theorem made_of_action {action : FederationLifecycleAction}
    (h : (log.entry hash).action = some action) :
    ∀ scope ∈ action.effectiveScope, log.made sight hash =
      some ⟨narrowingParty (sight hash).actors (log.entry hash).signer, scope⟩ := by
  intro scope hscope
  simp [PactLog.made, h, mem_def.mp hscope]

/-- A row that lands writes at most one pact, and no ended one. -/
theorem land_frame (h : (pactFold context log sight).land s hash t) :
    t = s ∨ ∃ action, (log.entry hash).action = some action ∧
      context.applyFederationLifecycle s action hash (log.entry hash).signer (sight hash) = .ok t := by
  simp only [pactFold] at h
  split at h
  · exact .inl h
  · exact .inr ⟨_, ‹_›, h⟩

/-- **Every folded state keeps a sound record of its pacts.** -/
theorem records_of_folded
    (h : ((pactFold context log sight).restrict (FederationState.Agrees context)).Folded past s) :
    s.Records context (log.made sight) past := by
  refine h.invariant (fun past s => s.Records context (log.made sight) past) ?_ ?_ ?_
  · intro id pact hpact
    simp [pactFold, Forking.restrict] at hpact
  · intro past s row t hs hpast hland
    rcases land_frame hland with rfl | ⟨action, haction, hok⟩
    · exact fun id pact h => (hs id pact h).mono (Set.subset_insert _ _)
    · intro id pact hpact
      obtain rfl | hne := eq_or_ne id action.pactId
      · exact PactContext.applyFederationLifecycle_recorded (PactLog.not_mem_past hpast)
          (made_of_action haction) (hs _) hok pact hpact
      · obtain ⟨-, moved, hinsert⟩ := PactContext.applyFederationLifecycle_frame hok
        rw [hinsert, getElem?_insert, if_neg (by simpa using hne.symm)] at hpact
        exact (hs id pact hpact).mono (Set.subset_insert _ _)
  · rintro past past' s t u hs ht ⟨hmerge, hagrees⟩ id pact hpact
    obtain rfl : u = s.mergeStates context t := hmerge
    rw [FederationState.mergeStates, OrderedMap.getElem?_joinWith] at hpact
    cases hleft : s.federationPacts[id]? with
    | none =>
      rw [hleft, merge_none_left] at hpact
      exact (ht id pact hpact).mono Set.subset_union_right
    | some left =>
      cases hright : t.federationPacts[id]? with
      | none =>
        rw [hleft, hright, merge_none_right] at hpact
        exact some.inj hpact ▸ (hs id left hleft).mono Set.subset_union_left
      | some right =>
        rw [hleft, hright, merge_some_some] at hpact
        obtain rfl := some.inj hpact
        exact ((hs id left hleft).mono Set.subset_union_left).merge
          ((ht id right hright).mono Set.subset_union_right) (hagrees id left right hleft hright)

/-- Whether a state holds a pact, ended. -/
def FederationState.EndedAt (state : FederationState) (id : Bytes32) : Prop :=
  ∃ pact, state.federationPacts[id]? = some pact ∧ pact.status.isTerminal

/-- **What has ended stays ended**, whatever lands or merges on top. -/
theorem endedAt_of_later {id : Bytes32} (hended : s.EndedAt id)
    (h : ((pactFold context log sight).restrict (FederationState.Agrees context)).Later s t) :
    t.EndedAt id := by
  refine h.leads (fun s t => s.EndedAt id → t.EndedAt id) (fun h => h) (fun h h' hs => h' (h hs))
    ?_ ?_ hended
  · rintro past s row t - hland ⟨pact, hpact, hterminal⟩
    rcases land_frame hland with rfl | ⟨action, -, hok⟩
    · exact ⟨pact, hpact, hterminal⟩
    · obtain ⟨hlive, moved, hinsert⟩ := PactContext.applyFederationLifecycle_frame hok
      refine ⟨pact, ?_, hterminal⟩
      rw [hinsert, getElem?_insert, if_neg, hpact]
      intro heq
      obtain rfl : action.pactId = id := by simpa using heq
      simp [hlive pact hpact] at hterminal
  · rintro past past' s t u hs ht ⟨hmerge, -⟩
    obtain rfl : u = s.mergeStates context t := hmerge
    have hs := records_of_folded hs
    have ht := records_of_folded ht
    constructor
    · rintro ⟨pact, hpact, hterminal⟩
      simp only [FederationState.EndedAt, FederationState.mergeStates, OrderedMap.getElem?_joinWith,
        hpact]
      cases hright : t.federationPacts[id]? with
      | none => exact ⟨pact, rfl, hterminal⟩
      | some right => exact ⟨_, rfl, (mergePactStates_ended (hs id pact hpact).sound
          (ht id right hright).sound (.inl hterminal)).terminal⟩
    · rintro ⟨pact, hpact, hterminal⟩
      simp only [FederationState.EndedAt, FederationState.mergeStates, OrderedMap.getElem?_joinWith,
        hpact]
      cases hleft : s.federationPacts[id]? with
      | none => exact ⟨pact, rfl, hterminal⟩
      | some left => exact ⟨_, rfl, (mergePactStates_ended (hs id left hleft).sound
          (ht id pact hpact).sound (.inr hterminal)).terminal⟩

/-- **The merge of pacts is a join and never widens** the consent it keeps, wherever its ties can be
broken.  In a fold whose every merge met only ties it could break, states of one pact whose ties can
be broken merge commutatively, associatively and idempotently; a merge with an ended side has ended
and has none of the scope; what has ended stays ended; and a live merge narrows what each surviving
side agreed to and every narrowing either side holds, but those of a consent that gave way and those
the other side saw superseded. -/
theorem pacts_merge
    (hwrite : ∀ v w bytes, context.writeValue v = some bytes → context.writeValue w = some bytes →
      v = w) {pastₛ pastₜ pastᵤ : Set Bytes32}
    (hs : ((pactFold context log sight).restrict (FederationState.Agrees context)).Folded pastₛ s)
    (ht : ((pactFold context log sight).restrict (FederationState.Agrees context)).Folded pastₜ t)
    (hu : ((pactFold context log sight).restrict (FederationState.Agrees context)).Folded pastᵤ u)
    {id : Bytes32} {left mid right : FederationPactState}
    (hleft : s.federationPacts[id]? = some left) (hmid : t.federationPacts[id]? = some mid)
    (hright : u.federationPacts[id]? = some right)
    (hlm : Agrees context left mid) (hmr : Agrees context mid right) (hlr : Agrees context left right) :
    let merged := mergePactStates context left right
    (merged = mergePactStates context right left ∧
      mergePactStates context (mergePactStates context left mid) right =
        mergePactStates context left (mergePactStates context mid right) ∧
      mergePactStates context left left = left) ∧
    (left.status.isTerminal ∨ right.status.isTerminal → merged.Ended) ∧
    (left.status.isTerminal → ∀ later,
      ((pactFold context log sight).restrict (FederationState.Agrees context)).Later s later →
        later.EndedAt id) ∧
    (merged.status.isTerminal = false →
      Honored context left right merged ∧ Honored context right left merged) := by
  have ls := (records_of_folded hs id left hleft).sound
  have ms := (records_of_folded ht id mid hmid).sound
  have rs := (records_of_folded hu id right hright).sound
  exact ⟨⟨mergePactStates_comm hwrite ls rs hlr, mergePactStates_assoc hwrite ls ms rs hlm hmr,
      mergePactStates_self hwrite ls⟩,
    mergePactStates_ended ls rs,
    fun hterminal _ => endedAt_of_later ⟨left, hleft, hterminal⟩,
    mergePactStates_honors ls rs hlr⟩

end Fold

/-! ## A pact connected, and then acted on from two branches -/

/-- MessagePack of a scope whose every axis is a bare kind. -/
def writeKinds (value : PactScopeValue) : Bytes :=
  let text (s : Bytes) : Bytes := (0xa0 + s.length.toUInt8) :: s
  let axis (v : AxisValue) : Bytes := 0x81 :: text (ascii "kind") ++ text v.kind
  let direction (v : DirectionScopeValue) : Bytes :=
    0x83 :: text (ascii "worlds") ++ axis v.worlds ++ text (ascii "facets") ++ axis v.facets ++
      text (ascii "bands") ++ axis v.bands
  0x83 :: text (ascii "schema_version") ++ value.schemaVersion.toUInt8 :: text (ascii "lo_to_hi") ++
    direction value.loToHi ++ text (ascii "hi_to_lo") ++ direction value.hiToLo

/-- Everything, both ways. -/
def openScope : FederationPactScope := ⟨⟨.all, .all, .all⟩, ⟨.all, .all, .all⟩⟩

/-- A vault whose peer signs with one key. -/
def forkedContext : PactContext where
  localVaultId := .of 9
  writeValue value :=
    if value = openScope.value ∨ value = (⟨.bottom, .bottom⟩ : FederationPactScope).value then
      some (writeKinds value)
    else none
  peerConsentRoots := ∅
  verifySignature key _ signature := key = .ed25519 (.of 6) && signature = [1]

def forkedAction (kind : FederationLifecycleKind) (epoch : ℕ) : FederationLifecycleAction where
  kind
  pactId := .of 7
  grantRef := .filled 5
  peerVaultId := .of 8
  pactEpoch := epoch
  scopeDigest := some (.of 3)
  gesture := some ⟨.ed25519 (.of 6), [1]⟩
  pactNonce := List.replicate 16 1

/-- Row 1 connects, and rows 2 and 3 act on it from branches of their own. -/
def forkedLog (left right : FederationLifecycleAction) : PactLog where
  entry hash := {
    parentHashes := if hash = .of 1 then [] else [.of 1]
    signer := if hash = .of 3 then .ed25519 (.of 4) else .ed25519 (.of 2)
    action := some <|
      if hash = .of 1 then { forkedAction .connect 1 with pactScope := some openScope }
      else if hash = .of 2 then left
      else right }
  acyclic hash h := by
    have hstep {a b : Bytes32} (h : a ∈ if b = .of 1 then ([] : List Bytes32) else [.of 1]) :
        a = .of 1 ∧ b ≠ .of 1 := by
      split at h
      · cases h
      · exact ⟨List.mem_singleton.mp h, ‹_›⟩
    have hends {a b : Bytes32} (h : Relation.TransGen (fun parent hash : Bytes32 =>
        parent ∈ if hash = .of 1 then ([] : List Bytes32) else [.of 1]) a b) :
        a = .of 1 ∧ b ≠ .of 1 := by
      induction h with
      | single h => exact hstep h
      | tail _ h ih => exact ⟨ih.1, (hstep h).2⟩
    exact (hends h).2 (hends h).1

theorem forkedLog_before (left right : FederationLifecycleAction) (h : hash ≠ .of 1) :
    ∀ row ∈ insert (Bytes32.of 1) (∅ : Set Bytes32),
      (forkedLog left right).before row hash := by
  intro row hrow
  obtain rfl : row = .of 1 := by simpa using hrow
  exact .single (by simp [forkedLog, h])

/-- What a row leaves of a state it lands on. -/
def forkedLand (log : PactLog) (state : FederationState) (hash : Bytes32) : FederationState :=
  ((log.entry hash).action.bind fun action =>
    (forkedContext.applyFederationLifecycle state action hash (log.entry hash).signer
      {}).toOption).getD {}

/-- Row 1, then a row on a branch of its own. -/
def forkedBranch (log : PactLog) (hash : Bytes32) : FederationState :=
  forkedLand log (forkedLand log {} (.of 1)) hash

/-- The folds of a fork whose merges can break their ties. -/
abbrev forkedFold (log : PactLog) : Forking FederationState Bytes32 :=
  (pactFold forkedContext log fun _ => {}).restrict (FederationState.Agrees forkedContext)

theorem folded_branch (log : PactLog) (hash : Bytes32)
    (hbefore : ∀ row ∈ insert (Bytes32.of 1) (∅ : Set Bytes32), log.before row hash)
    (hone : (forkedFold log).land {} (.of 1) (forkedLand log {} (.of 1)))
    (hland : (forkedFold log).land (forkedLand log {} (.of 1)) hash (forkedBranch log hash)) :
    (forkedFold log).Folded (insert hash (insert (.of 1) ∅)) (forkedBranch log hash) :=
  .land (.land .start (fun _ h => h.elim) hone) hbefore hland

/-- Two states of one pact, folded from two branches of a log. -/
def OnBranches (log : PactLog) (left right : FederationPactState) : Prop :=
  ∃ (pastₛ pastₜ : Set Bytes32) (s t : FederationState),
    (pactFold forkedContext log fun _ => {}).Folded pastₛ s ∧
    (pactFold forkedContext log fun _ => {}).Folded pastₜ t ∧
    s.federationPacts[Bytes32.of 7]? = some left ∧ t.federationPacts[Bytes32.of 7]? = some right

/-- One party narrows the worlds it shares; unseen, both sign the open scope again. -/
def repact : PactLog :=
  forkedLog { forkedAction .rescope 1 with
      effectiveScope := some ⟨.some {.filled 1}, .all, .all⟩ }
    { forkedAction .rescope 2 with pactScope := some openScope }

/-- Two promotions of one pact, to two successors. -/
def promotions : PactLog :=
  forkedLog { forkedAction .promote 2 with successorVaultId := some (.of 20) }
    { forkedAction .promote 2 with successorVaultId := some (.of 21) }

/-- **A re-pact replaces a narrowing it did not see**, and a pact promoted on two branches to two
successors keeps whichever the merge was handed first. -/
theorem pacts_merge_repact :
    (∃ left right narrowing, OnBranches repact left right ∧
      left.narrowings[Bytes32.of 2]? = some narrowing ∧
      (mergePactStates forkedContext left right).status = .active ∧
      ¬(mergePactStates forkedContext left right).effectiveScope.narrows narrowing.scope) ∧
    ∃ left right, OnBranches promotions left right ∧
      mergePactStates forkedContext left right ≠ mergePactStates forkedContext right left := by
  have folded (log : PactLog) (hash : Bytes32) := fun hbefore hone hland =>
    (folded_branch log hash hbefore hone hland).free
  refine ⟨⟨_, _, _, ⟨_, _, _, _, folded repact (.of 2) (forkedLog_before _ _ (by decide)) rfl rfl,
      folded repact (.of 3) (forkedLog_before _ _ (by decide)) rfl rfl, rfl, rfl⟩, rfl, rfl,
      by decide⟩, _, _, ⟨_, _, _, _,
      folded promotions (.of 2) (forkedLog_before _ _ (by decide)) rfl rfl,
      folded promotions (.of 3) (forkedLog_before _ _ (by decide)) rfl rfl, rfl, rfl⟩, fun h => ?_⟩
  have h := congrArg successorVaultId h
  revert h
  decide

/-- One party narrows the worlds it shares, and another, unseen, the bands. -/
def narrowings : PactLog :=
  forkedLog { forkedAction .rescope 1 with
      effectiveScope := some ⟨.some {.filled 1}, .all, .all⟩ }
    { forkedAction .rescope 1 with effectiveScope := some ⟨.all, .all, .some {.core}⟩ }

/-- Both narrowings bind what the branches make of the pact together. -/
theorem pacts_merge_narrowings :
    ∃ left right, (forkedBranch narrowings (.of 2)).federationPacts[Bytes32.of 7]? = some left ∧
      (forkedBranch narrowings (.of 3)).federationPacts[Bytes32.of 7]? = some right ∧
      (mergePactStates forkedContext left right).effectiveScope.narrows
        ⟨.some {.filled 1}, .all, .all⟩ ∧
      (mergePactStates forkedContext left right).effectiveScope.narrows
        ⟨.all, .all, .some {.core}⟩ ∧
      mergePactStates forkedContext left right = mergePactStates forkedContext right left := by
  have hwrite : ∀ v w bytes, forkedContext.writeValue v = some bytes →
      forkedContext.writeValue w = some bytes → v = w := by
    intro v w bytes hv hw
    simp only [forkedContext] at hv hw
    have hne : writeKinds openScope.value ≠
        writeKinds (⟨.bottom, .bottom⟩ : FederationPactScope).value := by decide
    split at hv <;> split at hw <;> simp_all
    rename_i h h'
    rcases h with rfl | rfl <;> rcases h' with rfl | rfl
    · rfl
    · exact absurd (hv.trans hw.symm) hne
    · exact absurd (hw.trans hv.symm) hne
    · rfl
  have h₂ := folded_branch narrowings (.of 2) (forkedLog_before _ _ (by decide)) rfl rfl
  have h₃ := folded_branch narrowings (.of 3) (forkedLog_before _ _ (by decide)) rfl rfl
  have hagrees {pact other : FederationPactState} (h : pact.status.isTerminal = false)
      (hceiling : pact.ceiling (.of 9) = other.ceiling (.of 9)) :
      Agrees forkedContext pact other :=
    ⟨fun hended => absurd hended (by simp [h]), fun _ _ _ _ => hceiling⟩
  let left := ((forkedBranch narrowings (.of 2)).federationPacts[Bytes32.of 7]?).get rfl
  let right := ((forkedBranch narrowings (.of 3)).federationPacts[Bytes32.of 7]?).get rfl
  have hlr : Agrees forkedContext left right := hagrees rfl rfl
  have hrr : Agrees forkedContext right right := hagrees rfl rfl
  obtain ⟨⟨hcomm, -⟩, -, -, hhonors⟩ :=
    pacts_merge hwrite h₂ h₃ h₃ (some_get rfl).symm (some_get rfl).symm
      (some_get rfl).symm hlr hrr hlr
  obtain ⟨hleft, hright⟩ := hhonors (by decide)
  refine ⟨left, right, rfl, rfl, ?_, ?_, hcomm⟩
  · exact ((hleft.held (.of 2) ⟨.key (.ed25519 (.of 2)), _⟩ rfl).resolve_right (by decide)).2
  · exact ((hright.held (.of 3) ⟨.key (.ed25519 (.of 4)), _⟩ rfl).resolve_right (by decide)).2

end Oneiron
