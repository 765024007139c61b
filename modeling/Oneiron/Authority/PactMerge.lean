import Oneiron.Authority.FederationPact
import Oneiron.Foundations.Rivals

/-!
# Authority/PactMerge — what two branches make of one pact

    terminal ≻ live
    terminals :  status, then epoch, then the lower key
    live      :  epoch, then -- one consent --▸ combine
                             └- two --▸ the lower key, suspended

Every level is a contest (`Rivalry`), so the merge is a join as far as its ties are: two terminals
that tie must be one, and two states of one consent must agree which half of the scope is outbound.
-/

open Std

namespace Oneiron

open Option Finset LawfulEqOrd

namespace FederationPactState

variable (context : PactContext) (pact left right : FederationPactState)

/-- What two live states are compared by. -/
def competitor : Bytes32 × EntityId × FederationPactScope × Bytes × ℕ :=
  (pact.scopeDigest, pact.grantRef, pact.pactScope, pact.pactNonce, pact.scopeEpoch)

/-- What a tie is broken by. -/
def tiebreakKey : Bytes32 × EntityId × Bytes × Bytes × ℕ :=
  (pact.scopeDigest, pact.grantRef, (pact.pactScope.encode context.writeValue).getD [],
    pact.pactNonce, pact.scopeEpoch)

/-- `pact_merge_tiebreak_side`: the side of the lower key. -/
def mergeTiebreakSide : FederationPactState :=
  if (compare (left.tiebreakKey context) (right.tiebreakKey context)).isLE then left else right

/-- Joins the right side's narrowings in, less every one either side saw superseded. -/
def mergeNarrowings : FederationPactState :=
  let superseded := left.supersededNarrowings ∪ right.supersededNarrowings
  let merged := { left with
    supersededNarrowings := superseded
    narrowings := (OrderedMap.joinWith (fun held _ => held) left.narrowings right.narrowings).filter
      fun hash _ => hash ∉ superseded }
  { merged with effectiveScope := merged.scopeBeside context.localVaultId none }

/-- Two states of one consent. -/
def combine : FederationPactState :=
  { left.mergeNarrowings context right with
    peerOwnerKey := lower left.peerOwnerKey right.peerOwnerKey
    peerVaultId := lower left.peerVaultId right.peerVaultId
    status := higher left.status right.status }

/-- Fails closed on two consents at one epoch. -/
def suspend : FederationPactState :=
  { pact with status := .suspended, successorVaultId := none, terminalEpoch := none }

end FederationPactState

open FederationPactState

/-- `merge_pact_states`. -/
def mergePactStates (context : PactContext) (left right : FederationPactState) :
    FederationPactState :=
  if left.status.isTerminal ≠ right.status.isTerminal then
    if left.status.isTerminal then left else right
  else if left.status.isTerminal && right.status.isTerminal then
    if left.status ≠ right.status then
      if compare left.status right.status = .gt then left else right
    else if left.pactEpoch ≠ right.pactEpoch then
      if left.pactEpoch > right.pactEpoch then left else right
    else left.mergeTiebreakSide context right
  else if left.pactEpoch ≠ right.pactEpoch then
    if left.pactEpoch > right.pactEpoch then left else right
  else if left.competitor = right.competitor then left.combine context right
  else (left.mergeTiebreakSide context right).suspend

/-! ## What a state is known to hold -/

namespace FederationPactState

/-- A live pact's record: its scope can be written, its outbound half is the ceiling met with what
stands, and what stands is what its entry made. -/
structure Live (context : PactContext) (made : Bytes32 → Option FederationNarrowing)
    (pact : FederationPactState) : Prop where
  live : pact.status.isTerminal = false
  successor : pact.successorVaultId = none
  terminalEpoch : pact.terminalEpoch = none
  canonical : (pact.pactScope.encode context.writeValue).isSome
  effective : pact.effectiveScope = pact.scopeBeside context.localVaultId none
  standing : ∀ {hash narrowing}, pact.narrowings[hash]? = some narrowing →
    hash ∉ pact.supersededNarrowings ∧ made hash = some narrowing

/-- An ended pact's record: none of its scope. -/
structure Ended (pact : FederationPactState) : Prop where
  terminal : pact.status.isTerminal
  pactScope : pact.pactScope = ⟨.bottom, .bottom⟩
  effective : pact.effectiveScope = .bottom
  narrowings : pact.narrowings = ∅

/-- A pact's record, by whether it lives. -/
inductive Sound (context : PactContext) (made : Bytes32 → Option FederationNarrowing)
    (pact : FederationPactState) : Prop
  | live : pact.Live context made → Sound context made pact
  | ended : pact.Ended → Sound context made pact

/-- Whether the ties of two states can be broken: terminals that tie are one state, and two states of
one consent have one outbound half. -/
structure Agrees (context : PactContext) (left right : FederationPactState) : Prop where
  ended : left.status.isTerminal → right.status.isTerminal → left.status = right.status →
    left.pactEpoch = right.pactEpoch → left.tiebreakKey context = right.tiebreakKey context →
    left = right
  outbound : left.status.isTerminal = false → right.status.isTerminal = false →
    left.pactEpoch = right.pactEpoch → left.competitor = right.competitor →
    left.ceiling context.localVaultId = right.ceiling context.localVaultId

variable {context : PactContext} {made : Bytes32 → Option FederationNarrowing}
  {pact left mid right : FederationPactState}

/-! ## One outbound half, met with what stands -/

/-- What stands besides nothing is the ceiling met with every narrowing. -/
theorem scopeBeside_none (pact : FederationPactState) (vault : Bytes32) :
    pact.scopeBeside vault none =
      (pact.narrowings.toList.map fun p => p.2.scope).foldl .intersect (pact.ceiling vault) := by
  simp [scopeBeside]

/-- The outbound half narrows the ceiling and every narrowing that stands. -/
theorem scopeBeside_narrows (pact : FederationPactState) (vault : Bytes32) :
    (pact.scopeBeside vault none).narrows (pact.ceiling vault) ∧
      ∀ (hash : Bytes32) (narrowing : FederationNarrowing), pact.narrowings[hash]? = some narrowing →
        (pact.scopeBeside vault none).narrows narrowing.scope := by
  rw [scopeBeside_none]
  obtain ⟨hceiling, heach⟩ := FederationDirectionScope.foldl_intersect_narrows
    (pact.narrowings.toList.map fun p => p.2.scope) (pact.ceiling vault)
  refine ⟨hceiling, fun hash narrowing h => heach _ (List.mem_map.mpr ⟨(hash, narrowing), ?_, rfl⟩)⟩
  exact ExtTreeMap.mem_toList_iff_getElem?_eq_some.mpr h

/-! ## One consent -/

theorem getElem?_combine (hash : Bytes32) : (left.combine context right).narrowings[hash]? =
    if hash ∈ left.supersededNarrowings ∪ right.supersededNarrowings then none
    else Option.merge (fun held _ => held) left.narrowings[hash]? right.narrowings[hash]? := by
  simp only [combine, mergeNarrowings, ExtTreeMap.getElem?_filter', OrderedMap.getElem?_joinWith]
  split <;> rename_i h <;>
    cases Option.merge (fun held _ => held) left.narrowings[hash]? right.narrowings[hash]? <;>
    simp [h]

theorem effectiveScope_combine : (left.combine context right).effectiveScope =
    ((left.combine context right).narrowings.toList.map fun p => p.2.scope).foldl .intersect
      (left.ceiling context.localVaultId) :=
  scopeBeside_none _ _

/-- When both sides have one outbound half, the lower peer has it too. -/
theorem ceiling_combine (h : left.ceiling context.localVaultId = right.ceiling context.localVaultId)
    (hscope : left.pactScope = right.pactScope) :
    (left.combine context right).ceiling context.localVaultId =
      left.ceiling context.localVaultId := by
  rcases rivalJoin_cases (opposite compare) id (fun a _ => a) left.peerVaultId
    right.peerVaultId with hpeer | hpeer | ⟨-, hpeer⟩
  · exact congrArg (localOutboundScope _ · left.pactScope) hpeer
  · rw [h, ceiling, ceiling, ← hscope]
    exact congrArg (localOutboundScope _ · left.pactScope) hpeer
  · exact congrArg (localOutboundScope _ · left.pactScope) hpeer

theorem combine_comm (hl : left.Live context made) (hr : right.Live context made)
    (hepoch : left.pactEpoch = right.pactEpoch) (hcompetitor : left.competitor = right.competitor)
    (hceiling : left.ceiling context.localVaultId = right.ceiling context.localVaultId) :
    left.combine context right = right.combine context left := by
  simp only [competitor, Prod.mk.injEq] at hcompetitor
  obtain ⟨hdigest, hgrant, hscope, hnonce, hscopeEpoch⟩ := hcompetitor
  have hnarrowings : (left.combine context right).narrowings =
      (right.combine context left).narrowings := ExtTreeMap.ext_getElem? fun hash => by
    rw [getElem?_combine, getElem?_combine, union_comm]
    split
    · rfl
    · cases hleft : left.narrowings[hash]? <;> cases hright : right.narrowings[hash]? <;>
        simp only [merge_none_left, merge_none_right, merge_some_some]
      rw [← (hl.standing hleft).2, ← (hr.standing hright).2]
  ext1
  case status => exact higher_comm _ _
  case grantRef => exact hgrant
  case peerVaultId => exact lower_comm _ _
  case peerOwnerKey => exact lower_comm _ _
  case pactEpoch => exact hepoch
  case scopeDigest => exact hdigest
  case pactNonce => exact hnonce
  case scopeEpoch => exact hscopeEpoch
  case pactScope => exact hscope
  case effectiveScope => rw [effectiveScope_combine, effectiveScope_combine, hnarrowings, hceiling]
  case narrowings => exact hnarrowings
  case supersededNarrowings => exact union_comm _ _
  case successorVaultId => exact hl.successor.trans hr.successor.symm
  case terminalEpoch => exact hl.terminalEpoch.trans hr.terminalEpoch.symm

/-- A consent combines in any grouping. -/
theorem combine_assoc (h : left.ceiling context.localVaultId = mid.ceiling context.localVaultId)
    (hscope : left.pactScope = mid.pactScope) :
    (left.combine context mid).combine context right =
      left.combine context (mid.combine context right) := by
  have hnarrowings : ((left.combine context mid).combine context right).narrowings =
      (left.combine context (mid.combine context right)).narrowings :=
    ExtTreeMap.ext_getElem? fun hash => by
      simp only [getElem?_combine]
      have hleft : (left.combine context mid).supersededNarrowings =
        left.supersededNarrowings ∪ mid.supersededNarrowings := rfl
      have hright : (mid.combine context right).supersededNarrowings =
        mid.supersededNarrowings ∪ right.supersededNarrowings := rfl
      rw [hleft, hright, union_assoc]
      split
      · rfl
      · next hnot =>
        simp only [mem_union, not_or] at hnot
        rw [if_neg (by simp [hnot]), if_neg (by simp [hnot])]
        cases left.narrowings[hash]? <;> cases mid.narrowings[hash]? <;>
          cases right.narrowings[hash]? <;> rfl
  ext1
  case status => exact higher_assoc _ _ _
  case peerVaultId => exact lower_assoc _ _ _
  case peerOwnerKey => exact lower_assoc _ _ _
  case effectiveScope =>
    rw [effectiveScope_combine, effectiveScope_combine, hnarrowings, ceiling_combine h hscope]
  case narrowings => exact hnarrowings
  case supersededNarrowings => exact union_assoc _ _ _
  all_goals rfl

theorem combine_self (h : pact.Live context made) : pact.combine context pact = pact := by
  have hnarrowings : (pact.combine context pact).narrowings = pact.narrowings :=
    ExtTreeMap.ext_getElem? fun hash => by
      rw [getElem?_combine, union_self]
      cases hheld : pact.narrowings[hash]? with
      | none => simp
      | some narrowing => simp [(h.standing hheld).1]
  ext1
  case status => exact higher_self _
  case peerVaultId => exact lower_self _
  case peerOwnerKey => exact lower_self _
  case effectiveScope =>
    rw [effectiveScope_combine, hnarrowings, h.effective, scopeBeside_none]
  case narrowings => exact hnarrowings
  case supersededNarrowings => exact union_self _
  all_goals rfl

/-- **Scopes written alike are alike**, so the tie-break tells any two consents apart. -/
theorem tiebreakKey_inj
    (hwrite : ∀ v w bytes, context.writeValue v = some bytes → context.writeValue w = some bytes →
      v = w) (hl : left.Live context made) (hr : right.Live context made) :
    left.tiebreakKey context = right.tiebreakKey context ↔ left.competitor = right.competitor := by
  obtain ⟨bytes, hbytes⟩ := isSome_iff_exists.mp hl.canonical
  obtain ⟨bytes', hbytes'⟩ := isSome_iff_exists.mp hr.canonical
  have hscope : bytes = bytes' ↔ left.pactScope = right.pactScope := by
    constructor
    · rintro rfl
      exact FederationPactScope.encode_injective hwrite hbytes hbytes'
    · intro h
      rw [h, hbytes'] at hbytes
      exact (some.inj hbytes).symm
  simp only [tiebreakKey, competitor, hbytes, hbytes', getD_some, Prod.mk.injEq, hscope]

/-! ## The four contests -/

/-- Who may be compared: a live state has a live record. -/
def Standing (context : PactContext) (made : Bytes32 → Option FederationNarrowing)
    (pact : FederationPactState) : Prop :=
  pact.status.isTerminal = false → pact.Live context made

theorem Sound.standing (h : pact.Sound context made) : pact.Standing context made :=
  fun hlive => match h with
  | .live h => h
  | .ended h => absurd h.terminal (by simp [hlive])

/-- The lower key is the higher rival. -/
def byKey (context : PactContext) : FederationPactState → FederationPactState → Ordering :=
  opposite (compareOn (tiebreakKey context))

def byEpoch : FederationPactState → FederationPactState → Ordering := compareOn pactEpoch

def byEnd (context : PactContext) : FederationPactState → FederationPactState → Ordering :=
  compareLex (compareOn status) (compareLex byEpoch (byKey context))

def byStanding : FederationPactState → FederationPactState → Ordering :=
  compareOn fun pact => pact.status.isTerminal

instance : TransCmp (byKey context) := inferInstanceAs (TransCmp (opposite (compareOn _)))

instance : TransCmp byEpoch := inferInstanceAs (TransCmp (compareOn _))

instance : TransCmp (byEnd context) := inferInstanceAs (TransCmp (compareLex _ _))

instance : TransCmp byStanding := inferInstanceAs (TransCmp (compareOn _))

/-- Two live states of one epoch. -/
def compete (context : PactContext) :
    FederationPactState → FederationPactState → FederationPactState :=
  rivalJoin (byKey context) suspend (combine context)

/-- Two live states. -/
def meetLive (context : PactContext) :
    FederationPactState → FederationPactState → FederationPactState :=
  rankedJoin byEpoch (compete context)

/-- Two ended states. -/
def meetEnded (context : PactContext) :
    FederationPactState → FederationPactState → FederationPactState :=
  rankedJoin (byEnd context) fun left _ => left

/-- Two states of one standing. -/
def meetEqual (context : PactContext) (left right : FederationPactState) : FederationPactState :=
  if left.status.isTerminal then left.meetEnded context right else left.meetLive context right

theorem suspend_rivalry :
    Rivalry (Live context made) (byKey context) suspend (combine context) where
  flag_flag _ := rfl
  cmp_flag _ _ := rfl
  cmp_tie _ _ _ _ := rfl
  flag_tie {a b} ha hb _ := by
    have hstatus : higher .suspended b.status = .suspended := by
      have := hb.live
      cases h : b.status <;> rw [h] at this <;> first | rfl | cases this
    ext1
    case status => exact hstatus
    all_goals rfl
  tie_flag {a b} ha hb _ := by
    have hstatus : higher a.status .suspended = .suspended := by
      have := ha.live
      cases h : a.status <;> rw [h] at this <;> first | rfl | cases this
    ext1
    case status => exact hstatus
    case successorVaultId => exact ha.successor
    case terminalEpoch => exact ha.terminalEpoch
    all_goals rfl

theorem isTerminal_higher {a b : FederationPactStatus} (ha : a.isTerminal = false)
    (hb : b.isTerminal = false) : (higher a b).isTerminal = false := by
  revert ha hb
  cases a <;> cases b <;> decide

/-- What live states of one epoch make of one another is live, at that epoch. -/
theorem compete_spec (context : PactContext) (hl : left.status.isTerminal = false)
    (hr : right.status.isTerminal = false)
    (hepoch : left.pactEpoch = right.pactEpoch) :
    (left.compete context right).status.isTerminal = false ∧
      (left.compete context right).pactEpoch = left.pactEpoch := by
  rcases rivalJoin_cases (byKey context) suspend (combine context) left right with
    h | h | ⟨-, h⟩ <;> rw [compete, h]
  · exact ⟨rfl, rfl⟩
  · exact ⟨rfl, hepoch.symm⟩
  · exact ⟨isTerminal_higher hl hr, rfl⟩

theorem eq_of_byEpoch (h : byEpoch left right = .eq) : left.pactEpoch = right.pactEpoch :=
  eq_of_compare h

theorem epoch_rivalry : Rivalry (Live context made) byEpoch id (compete context) :=
  .unflagged fun ha hb h c => by
    have := (compete_spec context ha.live hb.live (eq_of_byEpoch h)).2
    rw [byEpoch, compareOn, compareOn, this]

theorem meetLive_isTerminal (hl : left.status.isTerminal = false)
    (hr : right.status.isTerminal = false) :
    (left.meetLive context right).status.isTerminal = false := by
  rcases rivalJoin_cases byEpoch id (compete context) left right with
    h | h | ⟨heq, h⟩ <;> rw [meetLive, rankedJoin, h]
  · exact hl
  · exact hr
  · exact (compete_spec context hl hr (eq_of_byEpoch heq)).1

/-- One of two ended states is kept. -/
theorem meetEnded_cases (context : PactContext) (left right : FederationPactState) :
    left.meetEnded context right = left ∨ left.meetEnded context right = right := by
  rcases rivalJoin_cases (byEnd context) id (fun left _ => left) left right with
    h | h | ⟨-, h⟩ <;> rw [meetEnded, rankedJoin, h] <;> simp

theorem meetEqual_isTerminal (context : PactContext)
    (h : left.status.isTerminal = right.status.isTerminal) :
    (left.meetEqual context right).status.isTerminal = left.status.isTerminal := by
  unfold meetEqual
  split
  · rcases meetEnded_cases context left right with heq | heq <;>
      rw [heq]
    exact h.symm
  · next hl =>
    rw [Bool.not_eq_true] at hl
    rw [hl, meetLive_isTerminal hl (h ▸ hl)]

theorem standing_rivalry : Rivalry (Standing context made) byStanding id (meetEqual context) :=
  .unflagged fun _ _ h c => by
    have := meetEqual_isTerminal context (eq_of_compare h)
    rw [byStanding, compareOn, compareOn, this]

theorem mergeTiebreakSide_eq : left.mergeTiebreakSide context right =
    rankedJoin (byKey context) (fun left _ => left) left right := by
  have hswap : byKey context left right =
      (compare (left.tiebreakKey context) (right.tiebreakKey context)).swap := OrientedCmp.eq_swap
  unfold mergeTiebreakSide rankedJoin rivalJoin
  rw [hswap]
  cases compare (left.tiebreakKey context) (right.tiebreakKey context) <;> rfl

theorem byEpoch_of_gt (h : left.pactEpoch > right.pactEpoch) : byEpoch left right = .gt :=
  Nat.compare_eq_gt.mpr h

theorem byEpoch_of_lt (h : left.pactEpoch < right.pactEpoch) : byEpoch left right = .lt :=
  Nat.compare_eq_lt.mpr h

theorem byEpoch_of_eq (h : left.pactEpoch = right.pactEpoch) : byEpoch left right = .eq :=
  Nat.compare_eq_eq.mpr h

theorem meetEnded_eq : left.meetEnded context right =
    if left.status ≠ right.status then if compare left.status right.status = .gt then left else right
    else if left.pactEpoch ≠ right.pactEpoch then
      if left.pactEpoch > right.pactEpoch then left else right
    else left.mergeTiebreakSide context right := by
  have hby : byEnd context left right = (compare left.status right.status).then
    ((byEpoch left right).then (byKey context left right)) := rfl
  unfold meetEnded rankedJoin rivalJoin
  rw [hby]
  by_cases hstatus : left.status = right.status
  · rw [if_neg (not_not.mpr hstatus), hstatus, ReflOrd.compare_self, Ordering.then]
    by_cases hepoch : left.pactEpoch = right.pactEpoch
    · rw [if_neg (not_not.mpr hepoch), byEpoch_of_eq hepoch, Ordering.then, mergeTiebreakSide_eq]
      rfl
    · rcases Nat.lt_or_gt_of_ne hepoch with h | h
      · rw [if_pos hepoch, byEpoch_of_lt h, if_neg (Nat.not_lt_of_gt h)]
        rfl
      · rw [if_pos hepoch, byEpoch_of_gt h, if_pos h]
        rfl
  · rw [if_pos hstatus]
    rcases h : compare left.status right.status with _ | _ | _
    · rfl
    · exact absurd (eq_of_compare h) hstatus
    · rfl

/-! ## What a merge leaves -/

/-- **A merge keeps one side, or makes one of two live states of one epoch**: of one consent, both
combined; of two, one of them suspended. -/
theorem mergePactStates_cases (context : PactContext) (left right : FederationPactState) :
    (mergePactStates context left right = left ∧
        (right.status.isTerminal → left.status.isTerminal) ∧
        (left.status.isTerminal = false → right.pactEpoch < left.pactEpoch)) ∨
      (mergePactStates context left right = right ∧
        (left.status.isTerminal → right.status.isTerminal) ∧
        (right.status.isTerminal = false → left.pactEpoch < right.pactEpoch)) ∨
      ((left.status.isTerminal = false ∧ right.status.isTerminal = false ∧
          left.pactEpoch = right.pactEpoch) ∧
        (left.competitor = right.competitor ∧
            mergePactStates context left right = left.combine context right ∨
          left.competitor ≠ right.competitor ∧
            (mergePactStates context left right = left.suspend ∨
              mergePactStates context left right = right.suspend))) := by
  have htiebreak : left.mergeTiebreakSide context right = left ∨
      left.mergeTiebreakSide context right = right := by
    unfold mergeTiebreakSide
    split <;> simp
  unfold mergePactStates
  rcases hl : left.status.isTerminal with _ | _ <;> rcases hr : right.status.isTerminal with _ | _
  · by_cases hepoch : left.pactEpoch = right.pactEpoch
    · refine .inr (.inr ⟨⟨rfl, rfl, hepoch⟩, ?_⟩)
      by_cases hcompetitor : left.competitor = right.competitor
      · exact .inl ⟨hcompetitor, by simp [hepoch, hcompetitor]⟩
      · refine .inr ⟨hcompetitor, ?_⟩
        rcases htiebreak with h | h <;> simp [hepoch, hcompetitor, h]
    · by_cases h : left.pactEpoch > right.pactEpoch
      · exact .inl ⟨by simp [hepoch, h], by simp, fun _ => h⟩
      · exact .inr (.inl ⟨by simp [hepoch, h], by simp, fun _ => by omega⟩)
  · exact .inr (.inl ⟨by simp, by simp, by simp⟩)
  · exact .inl ⟨by simp, by simp, by simp⟩
  · have hside : mergePactStates context left right = left ∨
        mergePactStates context left right = right := by
      unfold mergePactStates
      simp only [hl, hr, ne_eq, not_true, if_false, Bool.and_self, if_true]
      split
      · split <;> simp
      · split
        · split <;> simp
        · exact htiebreak
    unfold mergePactStates at hside
    rw [hl, hr] at hside
    rcases hside with h | h
    · exact .inl ⟨h, by simp, by simp⟩
    · exact .inr (.inl ⟨h, by simp, by simp⟩)

theorem Live.suspend (h : pact.Live context made) : pact.suspend.Live context made :=
  ⟨rfl, rfl, rfl, h.canonical, h.effective, h.standing⟩

theorem Live.combine (hl : left.Live context made) (hr : right.Live context made)
    (hscope : left.pactScope = right.pactScope)
    (hceiling : left.ceiling context.localVaultId = right.ceiling context.localVaultId) :
    (left.combine context right).Live context made where
  live := isTerminal_higher hl.live hr.live
  successor := hl.successor
  terminalEpoch := hl.terminalEpoch
  canonical := hl.canonical
  effective := by
    rw [effectiveScope_combine, scopeBeside_none, ceiling_combine hceiling hscope]
  standing {hash narrowing} h := by
    rw [getElem?_combine] at h
    split at h
    · cases h
    · next hnot =>
      refine ⟨hnot, ?_⟩
      cases hleft : left.narrowings[hash]? with
      | none =>
        rw [hleft, merge_none_left] at h
        exact (hr.standing h).2
      | some held =>
        have h : held = narrowing := by cases hright : right.narrowings[hash]? <;> simp_all
        exact h ▸ (hl.standing hleft).2

/-- **What the merge of sound states leaves is sound.** -/
theorem mergePactStates_sound (hl : left.Sound context made) (hr : right.Sound context made)
    (h : Agrees context left right) : (mergePactStates context left right).Sound context made := by
  rcases mergePactStates_cases context left right with ⟨heq, -⟩ | ⟨heq, -⟩ |
    ⟨⟨hll, hrl, hepoch⟩, ⟨hcompetitor, heq⟩ | ⟨-, heq | heq⟩⟩ <;> rw [heq]
  · exact hl
  · exact hr
  · have hscope : left.pactScope = right.pactScope := (Prod.mk.inj (Prod.mk.inj
      (Prod.mk.inj hcompetitor).2).2).1
    exact .live ((hl.standing hll).combine (hr.standing hrl) hscope
      (h.outbound hll hrl hepoch hcompetitor))
  · exact .live (hl.standing hll).suspend
  · exact .live (hr.standing hrl).suspend

/-- **A merge with a terminal side is terminal**, and has none of the scope. -/
theorem mergePactStates_ended (hl : left.Sound context made) (hr : right.Sound context made)
    (h : left.status.isTerminal ∨ right.status.isTerminal) :
    (mergePactStates context left right).Ended := by
  have hended {side : FederationPactState} (hside : side.Sound context made)
      (hterminal : side.status.isTerminal) : side.Ended := match hside with
    | .live hlive => absurd hterminal (by simp [hlive.live])
    | .ended h => h
  rcases mergePactStates_cases context left right with ⟨heq, hle, -⟩ | ⟨heq, hle, -⟩ |
    ⟨⟨hll, hrl, -⟩, -⟩
  · rw [heq]
    exact hended hl (h.elim id hle)
  · rw [heq]
    exact hended hr (h.elim hle id)
  · simp [hll, hrl] at h

/-- Whether a side's consent is the one a merge left standing. -/
def Survives (side merged : FederationPactState) : Prop :=
  side.status.isTerminal = false ∧ side.pactEpoch = merged.pactEpoch ∧
    side.competitor = merged.competitor

instance (side merged : FederationPactState) : Decidable (side.Survives merged) :=
  inferInstanceAs (Decidable (_ ∧ _ ∧ _))

/-- Whether a side's consent gave way: to a later re-pact, or to a rival of its epoch, suspended. -/
def Replaced (side merged : FederationPactState) : Prop :=
  side.pactEpoch < merged.pactEpoch ∨
    side.pactEpoch = merged.pactEpoch ∧ side.competitor ≠ merged.competitor ∧
      merged.status = .suspended

instance (side merged : FederationPactState) : Decidable (side.Replaced merged) :=
  inferInstanceAs (Decidable (_ ∨ _ ∧ _ ∧ _))

/-- What a live merge owes a side: within the outbound half a surviving side agreed to, it holds and
narrows every narrowing the side holds, unless the side's consent gave way or the other side,
surviving, superseded it; and when it is active it is one consent, so a live side of its epoch
survives. -/
structure Honored (context : PactContext) (side other merged : FederationPactState) : Prop where
  ceiling : side.Survives merged →
    merged.effectiveScope.narrows (side.ceiling context.localVaultId)
  held : ∀ (hash : Bytes32) (narrowing : FederationNarrowing),
    side.narrowings[hash]? = some narrowing →
    merged.narrowings[hash]? = some narrowing ∧ merged.effectiveScope.narrows narrowing.scope ∨
      side.Replaced merged ∨ other.Survives merged ∧ hash ∈ other.supersededNarrowings
  survives : merged.status = .active → side.status.isTerminal = false →
    side.pactEpoch = merged.pactEpoch → side.Survives merged

/-- A live pact shares no more than its ceiling and each narrowing it holds. -/
theorem Live.narrows (h : pact.Live context made) :
    pact.effectiveScope.narrows (pact.ceiling context.localVaultId) ∧
      ∀ (hash : Bytes32) (narrowing : FederationNarrowing), pact.narrowings[hash]? = some narrowing →
        pact.effectiveScope.narrows narrowing.scope := by
  rw [h.effective]
  exact scopeBeside_narrows pact context.localVaultId

/-- A state that is kept, or only suspended, honors itself. -/
theorem Live.honored (h : pact.Live context made) {other merged : FederationPactState}
    (hmerged : merged = pact ∨ merged = pact.suspend) : Honored context pact other merged := by
  obtain ⟨hceiling, hheld⟩ := h.narrows
  rcases hmerged with rfl | rfl
  · exact ⟨fun _ => hceiling, fun hash n hn => .inl ⟨hn, hheld hash n hn⟩,
      fun _ hlive _ => ⟨hlive, rfl, rfl⟩⟩
  · exact ⟨fun _ => hceiling, fun hash n hn => .inl ⟨hn, hheld hash n hn⟩, nofun⟩

/-- A side whose consent gave way is owed nothing. -/
theorem Replaced.honored {side other merged : FederationPactState} (h : side.Replaced merged) :
    Honored context side other merged := by
  refine ⟨fun ⟨_, hepoch, hsame⟩ => ?_, fun _ _ _ => .inr (.inl h), fun hactive _ hepoch => ?_⟩ <;>
    rcases h with h | ⟨-, hne, h⟩
  · exact absurd hepoch h.ne
  · exact absurd hsame hne
  · exact absurd hepoch h.ne
  · cases hactive.symm.trans h

/-- Two states of one consent, combined, honor both. -/
theorem Live.honored_combine (hl : left.Live context made) (hr : right.Live context made)
    (hepoch : left.pactEpoch = right.pactEpoch) (hcompetitor : left.competitor = right.competitor)
    (hceiling : left.ceiling context.localVaultId = right.ceiling context.localVaultId) :
    Honored context left right (left.combine context right) ∧
      Honored context right left (left.combine context right) := by
  have hscope : left.pactScope = right.pactScope := (Prod.mk.inj (Prod.mk.inj
    (Prod.mk.inj hcompetitor).2).2).1
  obtain ⟨hnarrows, heach⟩ := (hl.combine hr hscope hceiling).narrows
  rw [ceiling_combine hceiling hscope] at hnarrows
  have hsl : left.Survives (left.combine context right) := ⟨hl.live, rfl, rfl⟩
  have hsr : right.Survives (left.combine context right) := ⟨hr.live, hepoch.symm, hcompetitor.symm⟩
  refine ⟨⟨fun _ => hnarrows, fun hash n hheld => ?_, fun _ _ _ => hsl⟩,
    ⟨fun _ => hceiling ▸ hnarrows, fun hash n hheld => ?_, fun _ _ _ => hsr⟩⟩
  · by_cases hnot : hash ∈ right.supersededNarrowings
    · exact .inr (.inr ⟨hsr, hnot⟩)
    have hholds : (left.combine context right).narrowings[hash]? = some n := by
      rw [getElem?_combine, if_neg (by simp [(hl.standing hheld).1, hnot]), hheld]
      cases right.narrowings[hash]? <;> rfl
    exact .inl ⟨hholds, heach hash n hholds⟩
  · by_cases hnot : hash ∈ left.supersededNarrowings
    · exact .inr (.inr ⟨hsl, hnot⟩)
    have hholds : (left.combine context right).narrowings[hash]? = some n := by
      rw [getElem?_combine, if_neg (by simp [(hr.standing hheld).1, hnot]), hheld]
      cases hleft : left.narrowings[hash]? with
      | none => rfl
      | some held => rw [merge_some_some, ← (hl.standing hleft).2, (hr.standing hheld).2]
    exact .inl ⟨hholds, heach hash n hholds⟩

/-- **No merge widens.**  A live merge honors both of its sides. -/
theorem mergePactStates_honors (hl : left.Sound context made) (hr : right.Sound context made)
    (h : Agrees context left right)
    (hlive : (mergePactStates context left right).status.isTerminal = false) :
    Honored context left right (mergePactStates context left right) ∧
      Honored context right left (mergePactStates context left right) := by
  rcases mergePactStates_cases context left right with ⟨heq, -, hlt⟩ | ⟨heq, -, hlt⟩ |
    ⟨⟨hll, hrl, hepoch⟩, ⟨hcompetitor, heq⟩ | ⟨hne, heq | heq⟩⟩ <;> rw [heq] at hlive ⊢
  · exact ⟨(hl.standing hlive).honored (.inl rfl), Replaced.honored (.inl (hlt hlive))⟩
  · exact ⟨Replaced.honored (.inl (hlt hlive)), (hr.standing hlive).honored (.inl rfl)⟩
  · exact (hl.standing hll).honored_combine (hr.standing hrl) hepoch hcompetitor
      (h.outbound hll hrl hepoch hcompetitor)
  · exact ⟨(hl.standing hll).honored (.inr rfl),
      Replaced.honored (.inr ⟨hepoch.symm, hne.symm, rfl⟩)⟩
  · exact ⟨Replaced.honored (.inr ⟨hepoch, hne, rfl⟩), (hr.standing hrl).honored (.inr rfl)⟩

variable (hwrite : ∀ v w bytes, context.writeValue v = some bytes →
  context.writeValue w = some bytes → v = w)

include hwrite

theorem meetLive_eq (hl : left.Live context made) (hr : right.Live context made) :
    left.meetLive context right =
      if left.pactEpoch ≠ right.pactEpoch then
        if left.pactEpoch > right.pactEpoch then left else right
      else if left.competitor = right.competitor then left.combine context right
      else (left.mergeTiebreakSide context right).suspend := by
  by_cases hepoch : left.pactEpoch = right.pactEpoch
  · rw [if_neg (not_not.mpr hepoch), meetLive, rankedJoin, rivalJoin_of_eq (byEpoch_of_eq hepoch),
      compete]
    have hkey : byKey context left right = .eq ↔ left.competitor = right.competitor := by
      rw [← tiebreakKey_inj hwrite hl hr]
      exact Std.compare_eq_iff_eq.trans eq_comm
    split
    · next h => rw [rivalJoin_of_eq (hkey.mpr h)]
    · next h =>
      rw [mergeTiebreakSide_eq, rankedJoin]
      unfold rivalJoin
      rcases hby : byKey context left right with _ | _ | _
      · rfl
      · exact absurd (hkey.mp hby) h
      · rfl
  · rw [if_pos hepoch, meetLive, rankedJoin]
    rcases Nat.lt_or_gt_of_ne hepoch with h | h
    · rw [rivalJoin_of_lt (byEpoch_of_lt h), if_neg (Nat.not_lt_of_gt h), id]
    · rw [rivalJoin_of_gt (byEpoch_of_gt h), if_pos h, id]

/-- **The merge is a contest of standings.** -/
theorem mergePactStates_eq (hl : left.Sound context made) (hr : right.Sound context made) :
    mergePactStates context left right = rankedJoin byStanding (meetEqual context) left right := by
  have hby : byStanding left right = compare left.status.isTerminal right.status.isTerminal := rfl
  unfold mergePactStates
  rcases hlt : left.status.isTerminal with _ | _ <;> rcases hrt : right.status.isTerminal with _ | _ <;>
    rw [hlt, hrt] at hby
  · have hlive := meetLive_eq hwrite (hl.standing hlt) (hr.standing hrt)
    rw [rankedJoin, rivalJoin_of_eq hby, meetEqual, hlt]
    simpa using hlive.symm
  · rw [rankedJoin, rivalJoin_of_lt hby]
    simp
  · rw [rankedJoin, rivalJoin_of_gt hby]
    simp
  · rw [rankedJoin, rivalJoin_of_eq hby, meetEqual, hlt, if_pos rfl, meetEnded_eq]
    simp

/-! ## A join, as far as its ties are -/

theorem mergePactStates_comm (hl : left.Sound context made) (hr : right.Sound context made)
    (h : Agrees context left right) :
    mergePactStates context left right = mergePactStates context right left := by
  rw [mergePactStates_eq hwrite hl hr, mergePactStates_eq hwrite hr hl]
  refine rivalJoin_comm fun hstanding => ?_
  have hterminal : left.status.isTerminal = right.status.isTerminal :=
    eq_of_compare hstanding
  unfold meetEqual
  rw [← hterminal]
  split
  · next hlt =>
    rw [meetEnded, rankedJoin]
    refine rivalJoin_comm fun hend => ?_
    obtain ⟨hstatus, hrest⟩ := Ordering.then_eq_eq.mp hend
    obtain ⟨hepoch, hkey⟩ := Ordering.then_eq_eq.mp hrest
    exact h.ended hlt (hterminal ▸ hlt) (eq_of_compare hstatus)
      (eq_of_compare hepoch) (eq_of_compare hkey).symm
  · next hlt =>
    rw [Bool.not_eq_true] at hlt
    have ll := hl.standing hlt
    have rl := hr.standing (hterminal ▸ hlt)
    refine rivalJoin_comm fun hepoch => ?_
    refine rivalJoin_comm fun hkey => ?_
    have hepoch := eq_of_byEpoch hepoch
    have hcompetitor := (tiebreakKey_inj hwrite ll rl).mp (eq_of_compare hkey).symm
    exact combine_comm ll rl hepoch hcompetitor (h.outbound ll.live rl.live hepoch hcompetitor)

theorem mergePactStates_self (h : pact.Sound context made) :
    mergePactStates context pact pact = pact := by
  rw [mergePactStates_eq hwrite h h, rankedJoin, rivalJoin_self]
  unfold meetEqual
  split
  · rw [meetEnded, rankedJoin, rivalJoin_self rfl]
  · next hlive =>
    rw [Bool.not_eq_true] at hlive
    rw [meetLive, rankedJoin, rivalJoin_self]
    rw [compete, rivalJoin_self (combine_self (h.standing hlive))]

theorem mergePactStates_assoc (hl : left.Sound context made) (hm : mid.Sound context made)
    (hr : right.Sound context made) (hlm : Agrees context left mid) (hmr : Agrees context mid right) :
    mergePactStates context (mergePactStates context left mid) right =
      mergePactStates context left (mergePactStates context mid right) := by
  have hlm' := mergePactStates_sound hl hm hlm
  have hmr' := mergePactStates_sound hm hr hmr
  rw [mergePactStates_eq hwrite hlm' hr, mergePactStates_eq hwrite hl hmr',
    mergePactStates_eq hwrite hl hm, mergePactStates_eq hwrite hm hr]
  refine standing_rivalry.assoc hl.standing hm.standing hr.standing fun hsl hsr => ?_
  have htl : left.status.isTerminal = mid.status.isTerminal := eq_of_compare hsl
  have htr : mid.status.isTerminal = right.status.isTerminal := eq_of_compare hsr
  rw [meetEqual, meetEqual_isTerminal context htl]
  rcases hlive : left.status.isTerminal with _ | _
  · have ll := hl.standing hlive
    have ml := hm.standing (htl ▸ hlive)
    have rl := hr.standing (htr ▸ htl ▸ hlive)
    simp only [meetEqual, hlive, ml.live, Bool.false_eq_true, if_false]
    refine epoch_rivalry.assoc ll ml rl fun hel _ => suspend_rivalry.assoc ll ml rl fun hkl _ => ?_
    have hcompetitor := (tiebreakKey_inj hwrite ll ml).mp (eq_of_compare hkl).symm
    have hscope : left.pactScope = mid.pactScope := (Prod.mk.inj (Prod.mk.inj
      (Prod.mk.inj hcompetitor).2).2).1
    exact combine_assoc (hlm.outbound ll.live ml.live (eq_of_byEpoch hel) hcompetitor) hscope
  · simp only [meetEqual, hlive, ← htl, if_true]
    exact rankedJoin_keep_assoc (byEnd context) left mid right

end FederationPactState

end Oneiron
