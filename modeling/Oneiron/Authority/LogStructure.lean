import Oneiron.Authority.Keys
import Oneiron.Foundations.Edits

/-!
# Authority/LogStructure — a log's consent structure, grown a row at a time

    push --▸ fresh --settle--▸ placed | filed under a key that could grant it
                                         └--the key is granted--▸ placed

A genesis names the root; admissions name admitters and slip issuers; root records name anchors;
machine revisions name install keys, as own when an issuer or one of this install's anchors signed,
as a stranger's when any other anchor did.  A revision with a carrier stands as its carrier's key
stands.  A log with any number of roots but one grants nothing.
-/

namespace Oneiron

section Structure

open Std

/-! ## Rows -/

def roleOwner : UInt16 := 0x0001
def roleAdmin : UInt16 := 0x0002

/-- `DeviceAuthority`, as the structure reads it. -/
structure DeviceAuthority where
  key : AuthorityKey
  roles : UInt16
  deriving DecidableEq

/-- `is_consent_device`. -/
def DeviceAuthority.isConsentDevice (device : DeviceAuthority) : Bool :=
  device.roles &&& (roleOwner ||| roleAdmin) ≠ 0

/-- Whether a role mask holds the owner role. -/
def holdsOwner (roles : UInt16) : Bool := roles &&& roleOwner ≠ 0

inductive MachineOwnership where
  | yours
  | workSchool
  | rented
  deriving DecidableEq

inductive MachineRole where
  | owned (ownership : MachineOwnership)
  | hostedNode
  | executionNode
  /-- Terminal. -/
  | removed
  | unanswered
  deriving DecidableEq

/-- `MachineProfile`, as the structure reads it. -/
structure MachineProfile where
  machine : EntityId
  machineKey : Bytes32
  role : MachineRole
  /-- The machine whose install key signed the revision. -/
  carrier : Option EntityId
  deriving DecidableEq

/-- The install key a revision names. -/
def MachineProfile.installKey (profile : MachineProfile) : EntityId × AuthorityKey :=
  (profile.machine, .ed25519 profile.machineKey)

/-- `OwnerRootRecord`, as the structure reads it. -/
structure OwnerRootRecord where
  root : Bytes32
  anchorKey : Bytes32
  deriving DecidableEq

/-- The operations the structure tells apart. -/
inductive AuthorityOp where
  | genesis (device : DeviceAuthority)
  | enrollDevice (device : DeviceAuthority)
  | rotateKey (oldKey : AuthorityKey) (newDevice : DeviceAuthority)
  | reRoot (newDevice : DeviceAuthority)
  | ownerKeyEnroll (device : DeviceAuthority)
  | machineProfile (profile : MachineProfile)
  | ownerRoot (record : OwnerRootRecord)
  | other
  deriving DecidableEq

/-- A signed row. -/
structure AuthorityLogEntry where
  op : AuthorityOp
  signer : AuthorityKey
  cosigns : List AuthorityKey
  /-- The row's canonical bytes, signatures and all. -/
  body : Bytes
  deriving DecidableEq

/-- `admits_device`: the key an admission names. -/
def AuthorityOp.admitsDevice : AuthorityOp → Option DeviceAuthority
  | .enrollDevice device | .rotateKey _ device | .reRoot device | .ownerKeyEnroll device =>
    some device
  | _ => none

namespace AuthorityLogEntry

/-- The keys that signed a row, its primary signer first. -/
def signers (entry : AuthorityLogEntry) : List AuthorityKey := entry.signer :: entry.cosigns

/-- `signed_by`. -/
def signedBy (entry : AuthorityLogEntry) (keys : Finset AuthorityKey) : Bool :=
  entry.signers.any (· ∈ keys)

/-- The consent device an admission names. -/
def admission (entry : AuthorityLogEntry) : Option DeviceAuthority :=
  entry.op.admitsDevice.filter (·.isConsentDevice)

end AuthorityLogEntry

/-! ## The structure -/

/-- The roots whose anchors this install takes as its own. -/
structure LocalRoots where
  anchors : Finset Bytes32
  roots : Finset Bytes32

/-- `AuthorityStructure`. -/
structure AuthorityStructure where
  /-- The verified genesis rows. -/
  roots : List AuthorityLogEntry := []
  admitters : Finset AuthorityKey := ∅
  issuers : Finset AuthorityKey := ∅
  /-- The install keys an issuer, an own anchor or an own carrier named. -/
  machineKeys : Finset (EntityId × AuthorityKey) := ∅
  /-- The install keys only other anchors named. -/
  strangerKeys : Finset (EntityId × AuthorityKey) := ∅
  removed : Finset EntityId := ∅
  anchors : Finset Bytes32 := ∅
  ownAnchors : Finset Bytes32 := ∅
  awaitedAnchors : Finset Bytes32 := ∅
  localRoots : LocalRoots := ⟨∅, ∅⟩

namespace AuthorityStructure

variable (held : AuthorityStructure)

/-- `vouching_key`. -/
def vouchingKey (key : EntityId × AuthorityKey) : Bool :=
  key ∈ held.machineKeys ∨ key ∈ held.strangerKeys

/-- `is_own_anchor`. -/
def isOwnAnchor : AuthorityKey → Bool
  | .ed25519 anchor => anchor ∈ held.ownAnchors
  | .p256 _ => false

/-- `is_anchor`. -/
def isAnchor : AuthorityKey → Bool
  | .ed25519 anchor => anchor ∈ held.anchors ∨ anchor ∈ held.ownAnchors
  | .p256 _ => false

/-- Whether a revision's authority stands as own, and whether as a stranger's. -/
def standing (profile : MachineProfile) (signer : AuthorityKey) : Bool × Bool :=
  match profile.carrier with
  | some carrier => ((carrier, signer) ∈ held.machineKeys, (carrier, signer) ∈ held.strangerKeys)
  | none =>
    let own := signer ∈ held.issuers ∨ held.isOwnAnchor signer
    (own, ¬own ∧ held.isAnchor signer)

end AuthorityStructure

/-- What a settle granted a key. -/
inductive Grant where
  | admitter (key : AuthorityKey)
  | issuer (key : AuthorityKey)
  | installKey (machine : EntityId) (key : AuthorityKey)
  | anchor (key : AuthorityKey)
  deriving DecidableEq

/-- `StructureBuilder`. -/
structure StructureBuilder extends AuthorityStructure where
  rootRoles : UInt16 := 0
  /-- Admissions, revisions and root records pushed since the last settle. -/
  fresh : List AuthorityLogEntry := []
  /-- Admissions no admitter has signed yet, under each key that signed them. -/
  admissions : Shelves AuthorityKey AuthorityLogEntry := ∅
  /-- Revisions whose authority does not stand yet, under their signer. -/
  profiles : Shelves AuthorityKey AuthorityLogEntry := ∅
  /-- Install keys granted that have not yet woken the answers they carry, the last first. -/
  woken : List AuthorityKey := []
  grown : List Grant := []

/-- A builder inside a settle, with the settle's own stacks, each key granted last on top. -/
structure Settling extends StructureBuilder where
  admitted : List AuthorityKey := []
  issued : List AuthorityKey := []
  anchored : List AuthorityKey := []

variable (verifies : AuthorityLogEntry → Bool)

/-- `self_signed_root`. -/
def selfSignedRoot (entry : AuthorityLogEntry) : Option Bytes32 :=
  match entry.op with
  | .ownerRoot record =>
    if entry.signer = .ed25519 record.anchorKey ∧ entry.cosigns = [] ∧ verifies entry then
      some record.anchorKey
    else none
  | _ => none

/-- Whether a row is a genesis `push` takes for a root. -/
def isRoot (entry : AuthorityLogEntry) : Bool :=
  match entry.op with
  | .genesis device => device.key = entry.signer ∧ device.isConsentDevice ∧ verifies entry
  | _ => false

namespace Settling

variable (s : Settling)

/-- Grants the slip issuer's place. -/
def issue (key : AuthorityKey) : Settling :=
  if key ∈ s.issuers then s else { s with issuers := insert key s.issuers, issued := key :: s.issued }

/-- Grants the admitter's place. -/
def admitKey (key : AuthorityKey) : Settling :=
  if key ∈ s.admitters then s
  else { s with admitters := insert key s.admitters, admitted := key :: s.admitted }

/-- The key a device takes: an issuer's when it holds the owner role, an admitter's in any case. -/
def seat (device : DeviceAuthority) : Settling :=
  (if holdsOwner device.roles then s.issue device.key else s).admitKey device.key

/-- Admits the key an admission an admitter signed names. -/
def admitEntry (entry : AuthorityLogEntry) : Settling :=
  match entry.op.admitsDevice with
  | none => s
  | some device => if verifies entry then s.seat device else s

/-- Takes the install key a revision names, as own or as a stranger's. -/
def takeKey (profile : MachineProfile) (own : Bool) : Settling :=
  let key := profile.installKey
  let vouched := s.vouchingKey key
  let s := if profile.role = .removed then { s with removed := insert profile.machine s.removed }
    else s
  let s :=
    if own then
      { s with strangerKeys := s.strangerKeys.erase key, machineKeys := insert key s.machineKeys }
    else if key ∈ s.machineKeys then s
    else { s with strangerKeys := insert key s.strangerKeys }
  if vouched then s
  else { s with woken := key.2 :: s.woken, grown := s.grown ++ [.installKey key.1 key.2] }

/-- `file_profile`. -/
def fileProfile (entry : AuthorityLogEntry) : Settling :=
  match entry.op with
  | .machineProfile profile =>
    if profile.carrier.isSome ∧ entry.cosigns ≠ [] then s
    else
      let (own, stranger) := s.standing profile entry.signer
      if ¬own ∧ ¬stranger then { s with profiles := s.profiles.file entry.signer entry }
      else if verifies entry then s.takeKey profile own else s
  | _ => s

/-- Takes a root record its own anchor signed. -/
def takeRoot (record : OwnerRootRecord) (anchor : Bytes32) : Settling :=
  let s :=
    if record.root ∈ s.localRoots.roots ∧ anchor ∉ s.ownAnchors then
      { s with awaitedAnchors := insert anchor s.awaitedAnchors }
    else s
  if anchor ∈ s.anchors then s
  else { s with anchors := insert anchor s.anchors, anchored := .ed25519 anchor :: s.anchored }

/-- Places one row pushed since the last settle, or files it. -/
def place (entry : AuthorityLogEntry) : Settling :=
  match entry.op with
  | .ownerRoot record =>
    match selfSignedRoot verifies entry with
    | none => s
    | some anchor => s.takeRoot record anchor
  | .machineProfile _ => s.fileProfile verifies entry
  | _ =>
    if entry.signedBy s.admitters then s.admitEntry verifies entry
    else { s with admissions := s.admissions.fileAll entry.signers entry }

/-- Notes a grant for the caller. -/
def note (grant : Grant) : Settling := { s with grown := s.grown ++ [grant] }

/-- Admits the admissions filed under a key. -/
def wakeAdmissions (key : AuthorityKey) : Settling :=
  (s.admissions.shelf key).foldl (admitEntry verifies) { s with admissions := s.admissions.clear key }

/-- Files the revisions filed under a key again. -/
def wakeProfiles (key : AuthorityKey) : Settling :=
  (s.profiles.shelf key).foldl (fileProfile verifies) { s with profiles := s.profiles.clear key }

/-- One turn of the settle's loop: the key granted last wakes the rows filed under it, admitters
first, then issuers, anchors and install keys. -/
def wake : Option Settling :=
  match s.admitted, s.issued, s.anchored, s.woken with
  | key :: admitted, _, _, _ =>
    some (({ s with admitted }.wakeAdmissions verifies key).note (.admitter key))
  | [], key :: issued, _, _ =>
    some (({ s with issued }.wakeProfiles verifies key).note (.issuer key))
  | [], [], key :: anchored, _ =>
    some (({ s with anchored }.wakeProfiles verifies key).note (.anchor key))
  | [], [], [], key :: woken => some ({ s with woken }.wakeProfiles verifies key)
  | [], [], [], [] => none

/-- The loop, for at most `fuel` turns. -/
def drain : (fuel : ℕ) → Settling → Settling
  | 0, s => s
  | fuel + 1, s =>
    match s.wake verifies with
    | none => s
    | some s' => drain fuel s'

/-- A bound on the turns left: what is on the stacks, and the grants the filed rows could make. -/
def pending : ℕ :=
  s.admitted.length + s.issued.length + s.anchored.length + s.woken.length
    + 2 * s.admissions.load + s.profiles.load

end Settling

namespace StructureBuilder

/-- A builder that takes the local roots' anchors as this install's own. -/
def under (localRoots : LocalRoots) : StructureBuilder :=
  { ownAnchors := localRoots.anchors, localRoots }

variable (b : StructureBuilder)

/-- Adds a row unsettled. -/
def push (entry : AuthorityLogEntry) : StructureBuilder :=
  match entry.op with
  | .genesis device =>
    if isRoot verifies entry ∧ entry ∉ b.roots then
      { b with roots := b.roots ++ [entry], rootRoles := b.rootRoles ||| device.roles }
    else b
  | .machineProfile _ | .ownerRoot _ => { b with fresh := b.fresh ++ [entry] }
  | _ => if entry.admission.isSome then { b with fresh := b.fresh ++ [entry] } else b

/-- Grants nothing any more. -/
def clear : StructureBuilder :=
  { b with
    admitters := ∅, issuers := ∅, machineKeys := ∅, strangerKeys := ∅, removed := ∅, anchors := ∅
    ownAnchors := ∅, awaitedAnchors := ∅ }

/-- A settle about to place its rows, the one root seated. -/
def seatRoot (root : AuthorityKey) : Settling :=
  Settling.seat ⟨{ b with fresh := [] }, [], [], []⟩ ⟨root, b.rootRoles⟩

/-- Admits what the rows pushed so far admit.  A log with more than one root admits nothing. -/
def settle : StructureBuilder :=
  match b.roots with
  | [genesis] =>
    let s := b.fresh.foldl (Settling.place verifies) (b.seatRoot genesis.signer)
    (s.drain verifies s.pending).toStructureBuilder
  | _ => b.clear

end StructureBuilder

/-! ## Schedules -/

/-- What a caller does to a builder. -/
inductive StructureTurn where
  | push (entry : AuthorityLogEntry)
  | settle
  deriving DecidableEq

def StructureBuilder.turn (b : StructureBuilder) : StructureTurn → StructureBuilder
  | .push entry => b.push verifies entry
  | .settle => b.settle verifies

/-- The rows a schedule pushes, in order. -/
def pushedRows (turns : List StructureTurn) : List AuthorityLogEntry :=
  turns.filterMap fun
    | .push entry => some entry
    | .settle => none

/-- What a schedule leaves, after a last settle. -/
def grownStructure (localRoots : LocalRoots) (turns : List StructureTurn) : StructureBuilder :=
  (turns.foldl (StructureBuilder.turn verifies) (.under localRoots)).settle verifies

end Structure

/-! ## The devices a folded log vouches for -/

/-- `AuthorityTier`. -/
inductive AuthorityTier where
  | software | hardware | cloudCustodial
  deriving DecidableEq

/-- A device key after folding. -/
structure FoldedDevice where
  key : AuthorityKey
  tier : AuthorityTier
  roles : UInt16
  revoked : Bool
  deriving DecidableEq

abbrev Roster := OrderedMap AuthorityKey FoldedDevice

end Oneiron
