import Oneiron.Authority.LogStructure
import Oneiron.Foundations.Forking
import Oneiron.Foundations.Joined

/-!
# Authority/ActorBindings — which actor a key speaks for

    bind --▸ live --revoke--▸ dead --bind, above the watermark--▸ live

A binding remembers the revocations its entry saw.  It is live while its epoch is above the
revocation watermark, no branch bound the key to anyone else at that epoch, and it saw every
revocation there is; so liveness is read off the merged state, never stored in it.
-/

open Std

namespace Oneiron

/-- `ACTOR_CLASS_HUMAN`. -/
def actorClassHuman : Bytes := ascii "human"

/-- What a log entry asks of the bindings. -/
inductive ActorOp where
  | bindActor (authorityKey : AuthorityKey) (actorRef : EntityId) (actorClass : Bytes) (epoch : ℕ)
  | rebindActor (authorityKey : AuthorityKey) (actorRef : EntityId) (actorClass : Bytes) (epoch : ℕ)
  | revokeActor (authorityKey : AuthorityKey) (epoch : ℕ)
  /-- Every other entry leaves the bindings alone. -/
  | other

/-- A log entry, as the bindings read it. -/
structure ActorEntry where
  parentHashes : List Bytes32
  op : ActorOp

/-- Whether the first row is among the second's ancestors. -/
def isAncestor (log : Bytes32 → ActorEntry) : Bytes32 → Bytes32 → Prop :=
  Relation.TransGen fun parent hash => parent ∈ (log hash).parentHashes

inductive ActorBindingRejection where
  | keyNotInRoster
  | ownerCapabilityRequired
  | bindingExists
  | bindingMissing
  | epochNotAdvanced
  deriving DecidableEq

/-- `ActorBindingState`. -/
structure ActorBindingState where
  /-- The valid revocations in the bind's ancestry. -/
  observedRevocations : Finset Bytes32
  actorRef : EntityId
  actorClass : Bytes
  epoch : ℕ
  /-- Set when divergent bindings of one epoch merged. -/
  conflicted : Bool
  deriving DecidableEq

/-- The content two bindings of one epoch are compared by. -/
def ActorBindingState.tuple (binding : ActorBindingState) : EntityId × Bytes :=
  (binding.actorRef, binding.actorClass)

/-- The part of a fold's state that says who keys speak for. -/
structure ActorState where
  actorBindings : OrderedMap AuthorityKey ActorBindingState := ∅
  actorBindingRevocations : OrderedMap AuthorityKey ℕ := ∅
  actorRevocationHashes : OrderedMap AuthorityKey (Finset Bytes32) := ∅
  actorRows : Finset EntityId := ∅

namespace ActorState

variable (state : ActorState) (key : AuthorityKey)

/-- The revocation watermark of a key. -/
def watermark : ℕ := state.actorBindingRevocations[key]?.getD 0

/-- The revocations of a key. -/
def revocations : Finset Bytes32 := state.actorRevocationHashes[key]?.getD ∅

def liveActorBinding : Option ActorBindingState :=
  state.actorBindings[key]?.filter fun binding =>
    state.watermark key < binding.epoch && !binding.conflicted &&
      state.revocations key ⊆ binding.observedRevocations

/-- One max and one union, for a folded revocation and for one proved on its own branch alike. -/
def recordActorRevoke (epoch : ℕ) (entryHash : Bytes32) : ActorState :=
  { state with
    actorBindingRevocations :=
      state.actorBindingRevocations.insert key (max (state.watermark key) epoch)
    actorRevocationHashes :=
      state.actorRevocationHashes.insert key (insert entryHash (state.revocations key)) }

/-- A bind wants no live binding on its key, a rebind a live one of a lower epoch. -/
def checkLive (epoch : ℕ) (isRebind : Bool) : Except ActorBindingRejection Unit :=
  match isRebind, state.liveActorBinding key with
  | false, some _ => .error .bindingExists
  | true, none => .error .bindingMissing
  | true, some existing => if epoch ≤ existing.epoch then .error .epochNotAdvanced else .ok ()
  | false, none => .ok ()

/-- A bind, or a rebind, of a key, judged on the roster its entry sees. -/
def bind (roster : Roster) (consentArm : FoldedDevice → Bool) (actorRef : EntityId)
    (actorClass : Bytes) (epoch : ℕ) (isRebind : Bool) : Except ActorBindingRejection ActorState :=
  match roster[key]?.filter fun device => !device.revoked with
  | none => .error .keyNotInRoster
  | some device =>
    if actorClass = actorClassHuman ∧ !consentArm device then .error .ownerCapabilityRequired
    else do
      state.checkLive key epoch isRebind
      -- a dead binding still parked on the key keeps its epoch from coming back
      let floor := max (state.watermark key) (state.actorBindings[key]?.elim 0 (·.epoch))
      if epoch ≤ floor then .error .epochNotAdvanced
      else .ok { state with
        actorBindings := state.actorBindings.insert key
          { observedRevocations := state.revocations key, actorRef, actorClass, epoch
            conflicted := false }
        actorRows := insert actorRef state.actorRows }

/-- The actor-binding transition table.  A revocation is never rejected. -/
def applyActorBinding (roster : Roster) (consentArm : FoldedDevice → Bool) (op : ActorOp)
    (entryHash : Bytes32) : Except ActorBindingRejection ActorState :=
  match op with
  | .revokeActor authorityKey epoch => .ok (state.recordActorRevoke authorityKey epoch entryHash)
  | .bindActor authorityKey actorRef actorClass epoch =>
    state.bind authorityKey roster consentArm actorRef actorClass epoch false
  | .rebindActor authorityKey actorRef actorClass epoch =>
    state.bind authorityKey roster consentArm actorRef actorClass epoch true
  | .other => .ok state

end ActorState

/-- Higher epoch wins; at one epoch the smaller content does, and different content is a conflict. -/
def mergeActorBindings (left right : ActorBindingState) : ActorBindingState :=
  match compare left.epoch right.epoch with
  | .gt => left
  | .lt => right
  | .eq =>
    let winner := if (compare left.tuple right.tuple).isLE then left else right
    { winner with
      observedRevocations := left.observedRevocations ∩ right.observedRevocations
      conflicted := winner.conflicted || left.tuple ≠ right.tuple || left.conflicted ||
        right.conflicted }

/-- `merge_states`, the bindings' part of it. -/
def ActorState.mergeStates (left right : ActorState) : ActorState where
  actorBindings := OrderedMap.joinWith mergeActorBindings left.actorBindings right.actorBindings
  actorBindingRevocations :=
    OrderedMap.joinWith max left.actorBindingRevocations right.actorBindingRevocations
  actorRevocationHashes :=
    OrderedMap.joinWith (· ∪ ·) left.actorRevocationHashes right.actorRevocationHashes
  actorRows := left.actorRows ∪ right.actorRows

/-- The bindings folded from a log, each entry judged on whatever roster it sees. -/
def actorFold (consentArm : FoldedDevice → Bool) (log : Bytes32 → ActorEntry) :
    Forking ActorState Bytes32 where
  start := {}
  land state hash next :=
    ∃ roster, state.applyActorBinding roster consentArm (log hash).op hash = .ok next
  merge left right merged := merged = left.mergeStates right
  before := isAncestor log

/-- `RevokeFacts::apply_to`: revocations proved on their own signed branches join the merged state. -/
def ActorState.applyFacts (log : Bytes32 → ActorEntry) (facts : List Bytes32) (state : ActorState) :
    ActorState :=
  facts.foldl (fun state hash =>
    match (log hash).op with
    | .revokeActor authorityKey epoch => state.recordActorRevoke authorityKey epoch hash
    | _ => state) state

end Oneiron
