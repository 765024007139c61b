import Oneiron.Authority.ActorBindings
import Oneiron.Authority.PactScope
import Oneiron.Foundations.Fallible

/-!
# Authority/FederationPact — two vaults' consent, and how log entries move it

    connect --▸ active --narrow--▸ active --repact, epoch + 1--▸ active
                  │
                  ├--promote, epoch + 1--▸ promoted
                  ├--disconnect--▸ disconnected
                  └--dissolve--▸ dissolved

A pact's scope is a ceiling both owners signed.  Either side narrows its own outbound half alone,
and only the party that narrowed takes it back; a fresh dual-signed scope clears every narrowing.
A pact that ends keeps none of its scope.
-/

open Std

namespace Oneiron

/-! ## Actions -/

inductive FederationLifecycleKind where
  | connect | rescope | disconnect | promote | dissolve
  deriving DecidableEq

/-- The peer owner's signature over the transcript. -/
structure FederationPactGesture where
  signer : AuthorityKey
  signature : Bytes

structure FederationLifecycleAction where
  kind : FederationLifecycleKind
  pactId : Bytes32
  grantRef : EntityId
  peerVaultId : Bytes32
  pactEpoch : ℕ
  pactScope : Option FederationPactScope := none
  effectiveScope : Option FederationDirectionScope := none
  scopeDigest : Option Bytes32 := none
  gesture : Option FederationPactGesture := none
  successorVaultId : Option Bytes32 := none
  pactNonce : Bytes

inductive FederationLifecycleRejection where
  | unknownPact
  | duplicateConnect
  | grantAlreadyBound
  | terminalPact
  | suspendedPact
  | epochMismatch
  | gestureMissing
  | gestureInvalid
  | scopeDigestMismatch
  | widenWithoutGesture
  | peerVaultMismatch
  | scopeInvalid
  deriving DecidableEq

/-- What both owners sign, the vaults in byte order. -/
structure PactTranscript where
  kind : FederationLifecycleKind
  pactId : Bytes32
  vaultLo : Bytes32
  vaultHi : Bytes32
  pactEpoch : ℕ
  scopeDigest : Bytes32
  successorVaultId : Option Bytes32
  pactNonce : Bytes

/-- `federation_pact_transcript`: a promotion names a successor, and nothing else does. -/
def federationPactTranscript (action : FederationLifecycleAction) (vault : Bytes32)
    (scopeDigest : Bytes32) : Option PactTranscript :=
  if decide (action.kind = .promote) ≠ action.successorVaultId.isSome then none
  else
    let inOrder := (compare vault action.peerVaultId).isLE
    some {
      kind := action.kind
      pactId := action.pactId
      vaultLo := if inOrder then vault else action.peerVaultId
      vaultHi := if inOrder then action.peerVaultId else vault
      pactEpoch := action.pactEpoch
      scopeDigest
      successorVaultId := action.successorVaultId
      pactNonce := action.pactNonce }

/-! ## Pacts -/

/-- `FederationPactStatus`, in its derived order. -/
inductive FederationPactStatus where
  | active
  | suspended
  | promoted
  | disconnected
  | dissolved
  deriving DecidableEq

namespace FederationPactStatus

def isTerminal : FederationPactStatus → Bool
  | promoted | disconnected | dissolved => true
  | active | suspended => false

instance : Ord FederationPactStatus := ⟨compareOn FederationPactStatus.ctorIdx⟩

instance : TransOrd FederationPactStatus :=
  inferInstanceAs (TransCmp (compareOn FederationPactStatus.ctorIdx))

instance : LawfulEqOrd FederationPactStatus where
  compare_self {status} := (ReflOrd.compare_self : compare status.ctorIdx status.ctorIdx = .eq)
  eq_of_compare {a b} h := by
    have h : a.ctorIdx = b.ctorIdx :=
      LawfulEqOrd.eq_of_compare (show compare a.ctorIdx b.ctorIdx = .eq from h)
    revert h
    cases a <;> cases b <;> decide

end FederationPactStatus

/-- Who made a narrowing: the owner a live human binding names for the signer, else the key. -/
inductive NarrowingParty where
  | owner (person : EntityId)
  | key (key : AuthorityKey)
  deriving DecidableEq

structure FederationNarrowing where
  party : NarrowingParty
  scope : FederationDirectionScope
  deriving DecidableEq

@[ext] structure FederationPactState where
  status : FederationPactStatus
  grantRef : EntityId
  peerVaultId : Bytes32
  peerOwnerKey : AuthorityKey
  pactEpoch : ℕ
  scopeDigest : Bytes32
  pactNonce : Bytes
  scopeEpoch : ℕ
  pactScope : FederationPactScope
  effectiveScope : FederationDirectionScope
  /-- Each standing narrowing, by the entry that made it. -/
  narrowings : OrderedMap Bytes32 FederationNarrowing
  /-- Every narrowing a later one by its own party saw. -/
  supersededNarrowings : Finset Bytes32
  successorVaultId : Option Bytes32
  terminalEpoch : Option ℕ

/-- The pacts of a folded state, and every pact a grant was ever bound to. -/
structure FederationState where
  federationPacts : OrderedMap Bytes32 FederationPactState := ∅
  federationGrantBindings : OrderedMap EntityId (Finset Bytes32) := ∅

/-- What a fold judges every pact by. -/
structure PactContext where
  localVaultId : Bytes32
  /-- How MessagePack writes a value. -/
  writeValue : PactScopeValue → Option Bytes
  /-- The consent roots of each peer whose log this vault has admitted. -/
  peerConsentRoots : OrderedMap Bytes32 (Finset AuthorityKey)
  verifySignature : AuthorityKey → PactTranscript → Bytes → Bool

/-- What an entry's ancestry says of its signers. -/
structure PactSight where
  roster : Roster := ∅
  actors : ActorState := {}

/-- The half this vault shares: the low half when it is the lower of the two. -/
def localOutboundScope (localVaultId peerVaultId : Bytes32) (scope : FederationPactScope) :
    FederationDirectionScope :=
  if (compare localVaultId peerVaultId).isLE then scope.loToHi else scope.hiToLo

def narrowingParty (actors : ActorState) (signer : AuthorityKey) : NarrowingParty :=
  match (actors.liveActorBinding signer).filter fun b => b.actorClass = actorClassHuman with
  | none => .key signer
  | some binding => .owner binding.actorRef

namespace FederationPactState

variable (pact : FederationPactState)

/-- Drops the plaintext scope of a pact that ended. -/
def eraseScope : FederationPactState :=
  { pact with
    pactScope := ⟨.bottom, .bottom⟩
    effectiveScope := .bottom
    narrowings := ∅ }

/-- The ceiling of the outbound half. -/
def ceiling (localVaultId : Bytes32) : FederationDirectionScope :=
  localOutboundScope localVaultId pact.peerVaultId pact.pactScope

/-- The ceiling met with every standing narrowing but one party's. -/
def scopeBeside (localVaultId : Bytes32) (except : Option NarrowingParty) :
    FederationDirectionScope :=
  let standing := pact.narrowings.toList.filter fun p => some p.2.party ≠ except
  (standing.map fun p => p.2.scope).foldl .intersect (pact.ceiling localVaultId)

/-- Records a party's narrowing; the ones it made before are superseded. -/
def recordNarrowing (entry : Bytes32) (party : NarrowingParty) (scope : FederationDirectionScope) :
    FederationPactState :=
  let superseded := (pact.narrowings.toList.filter fun p => p.2.party = party).map Prod.fst
  { pact with
    narrowings := (pact.narrowings.filter fun _ n => n.party ≠ party).insert entry ⟨party, scope⟩
    supersededNarrowings := pact.supersededNarrowings ∪ superseded.toFinset }

end FederationPactState

/-! ## The transition table -/

namespace PactContext

variable (context : PactContext)

/-- `verify_pact_scope_digest`: the scope must be canonical; no fold holds its digest's key. -/
def verifyPactScopeDigest (scope : FederationPactScope) :
    Except FederationLifecycleRejection Bytes :=
  okOr (scope.encode context.writeValue) .scopeInvalid

def peerRosterAuthorizesGesture (peerVaultId : Bytes32) (signer : AuthorityKey) : Bool :=
  context.peerConsentRoots[peerVaultId]?.any fun roots => signer ∈ roots

/-- Verifies the peer's gesture: no local device signs for the peer, and once a key is pinned only
that key does, or a consent root of the peer's own log. -/
def verifyLifecycleGesture (roster : Roster) (action : FederationLifecycleAction)
    (scopeDigest : Bytes32) (pinnedPeerKey : Option AuthorityKey) :
    Except FederationLifecycleRejection AuthorityKey := do
  let gesture ← okOr action.gesture .gestureMissing
  ensure (¬roster.contains gesture.signer) .gestureInvalid
  ensure (pinnedPeerKey.all (· = gesture.signer) ∨
    context.peerRosterAuthorizesGesture action.peerVaultId gesture.signer) .gestureInvalid
  let transcript ← okOr (federationPactTranscript action context.localVaultId scopeDigest)
    .gestureInvalid
  ensure (context.verifySignature gesture.signer transcript gesture.signature) .gestureInvalid
  pure gesture.signer

/-- A first connection. -/
def connect (state : FederationState) (action : FederationLifecycleAction) (roster : Roster) :
    Except FederationLifecycleRejection FederationState := do
  ensure (action.kind = .connect) .unknownPact
  ensure (¬state.federationGrantBindings.contains action.grantRef) .grantAlreadyBound
  ensure (action.pactEpoch = 1) .epochMismatch
  let scope ← okOr action.pactScope .scopeInvalid
  let claimedDigest ← okOr action.scopeDigest .scopeDigestMismatch
  let _ ← context.verifyPactScopeDigest scope
  let peerOwnerKey ← context.verifyLifecycleGesture roster action claimedDigest none
  pure {
    federationGrantBindings := state.federationGrantBindings.insert action.grantRef
      (insert action.pactId (state.federationGrantBindings[action.grantRef]?.getD ∅))
    federationPacts := state.federationPacts.insert action.pactId {
      status := .active
      grantRef := action.grantRef
      peerVaultId := action.peerVaultId
      peerOwnerKey
      pactEpoch := action.pactEpoch
      scopeDigest := claimedDigest
      pactNonce := action.pactNonce
      scopeEpoch := action.pactEpoch
      pactScope := scope
      effectiveScope := localOutboundScope context.localVaultId action.peerVaultId scope
      narrowings := ∅
      supersededNarrowings := ∅
      successorVaultId := none
      terminalEpoch := none } }

/-- A unilateral narrowing, under the ceiling met with what other parties narrowed. -/
def narrow (pact : FederationPactState) (action : FederationLifecycleAction)
    (effective : FederationDirectionScope) (entry : Bytes32) (party : NarrowingParty) :
    Except FederationLifecycleRejection FederationPactState := do
  ensure (pact.status ≠ .suspended) .suspendedPact
  ensure (action.pactEpoch = pact.pactEpoch) .epochMismatch
  ensure (effective.narrows (pact.scopeBeside context.localVaultId (some party)))
    .widenWithoutGesture
  let pact := pact.recordNarrowing entry party effective
  pure { pact with effectiveScope := pact.scopeBeside context.localVaultId none }

/-- A fresh dual-signed scope; heals a suspended pact. -/
def repact (pact : FederationPactState) (action : FederationLifecycleAction) (roster : Roster) :
    Except FederationLifecycleRejection FederationPactState := do
  ensure (action.pactEpoch = pact.pactEpoch + 1) .epochMismatch
  let scope ← okOr action.pactScope .scopeInvalid
  let claimedDigest ← okOr action.scopeDigest .scopeDigestMismatch
  let _ ← context.verifyPactScopeDigest scope
  let _ ← context.verifyLifecycleGesture roster action claimedDigest (some pact.peerOwnerKey)
  pure { pact with
    status := .active
    pactEpoch := action.pactEpoch
    scopeDigest := claimedDigest
    pactNonce := action.pactNonce
    scopeEpoch := action.pactEpoch
    pactScope := scope
    effectiveScope := localOutboundScope context.localVaultId pact.peerVaultId scope
    narrowings := ∅
    supersededNarrowings := ∅ }

/-- Succession into a co-owned vault, under the digest already stored. -/
def promote (pact : FederationPactState) (action : FederationLifecycleAction) (roster : Roster) :
    Except FederationLifecycleRejection FederationPactState := do
  ensure (pact.status ≠ .suspended) .suspendedPact
  ensure (action.pactEpoch = pact.pactEpoch + 1) .epochMismatch
  let claimedDigest ← okOr action.scopeDigest .scopeDigestMismatch
  ensure (claimedDigest = pact.scopeDigest) .scopeDigestMismatch
  let _ ← context.verifyLifecycleGesture roster action claimedDigest (some pact.peerOwnerKey)
  pure { pact with
    status := .promoted
    pactEpoch := action.pactEpoch
    successorVaultId := action.successorVaultId
    terminalEpoch := some action.pactEpoch }

/-- Severance, or dissolution: one side alone ends the pact at its epoch. -/
def sever (status : FederationPactStatus) (pact : FederationPactState)
    (action : FederationLifecycleAction) :
    Except FederationLifecycleRejection FederationPactState := do
  ensure (action.pactEpoch = pact.pactEpoch) .epochMismatch
  pure { pact with status, terminalEpoch := some pact.pactEpoch }

/-- Where an action of each kind moves a pact. -/
def move (pact : FederationPactState) (action : FederationLifecycleAction) (entry : Bytes32)
    (signer : AuthorityKey) (sight : PactSight) :
    Except FederationLifecycleRejection FederationPactState :=
  match action.kind, action.effectiveScope with
  | .connect, _ => .error .duplicateConnect
  | .rescope, some effective =>
    context.narrow pact action effective entry (narrowingParty sight.actors signer)
  | .rescope, none => context.repact pact action sight.roster
  | .promote, _ => context.promote pact action sight.roster
  | .disconnect, _ => sever .disconnected pact action
  | .dissolve, _ => sever .dissolved pact action

/-- What an action makes of a pact that is there; one that ends keeps none of its scope. -/
def transition (pact : FederationPactState) (action : FederationLifecycleAction)
    (entry : Bytes32) (signer : AuthorityKey) (sight : PactSight) :
    Except FederationLifecycleRejection FederationPactState := do
  ensure (¬pact.status.isTerminal) .terminalPact
  ensure (action.kind ≠ .connect) .duplicateConnect
  ensure (action.peerVaultId = pact.peerVaultId) .peerVaultMismatch
  ensure (action.grantRef = pact.grantRef) .grantAlreadyBound
  let next ← context.move pact action entry signer sight
  pure (if next.status.isTerminal then next.eraseScope else next)

/-- `apply_federation_lifecycle`. -/
def applyFederationLifecycle (state : FederationState) (action : FederationLifecycleAction)
    (entry : Bytes32) (signer : AuthorityKey) (sight : PactSight) :
    Except FederationLifecycleRejection FederationState :=
  match state.federationPacts[action.pactId]? with
  | none => context.connect state action sight.roster
  | some pact => do
    let next ← context.transition pact action entry signer sight
    pure { state with federationPacts := state.federationPacts.insert action.pactId next }

end PactContext

end Oneiron
