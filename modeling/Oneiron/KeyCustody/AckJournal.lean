import Oneiron.Foundations.System
import Oneiron.KeyCustody.TargetProtocol

/-!
# KeyCustody/AckJournal — the required set, its members' acknowledgements, and the owner's drains

The set is one file, an ack one a member, and a begun drain's fence another.  An ack is checked with no
lock held, then written under the journal's; a drain that commits writes the set, and only then removes
the member's files, one at a time.
-/

namespace Oneiron

open Function

/-! ### The required set -/

/-- One member of the required set, as persisted. -/
structure Member where
  spec : TargetSpec
  /-- The revision that added it. -/
  added : U64

inductive SetChange where
  | drained | reenrolled
  deriving DecidableEq

structure DrainEvidence where
  operationId : Digest
  ackDigest : Digest
  inventoryDigest : Option Bytes
  supersededRemoved : U64

/-- One owner change of the set's membership. -/
structure SetEvent where
  revision : U64
  target : Bytes
  change : SetChange
  evidence : Option DrainEvidence
  at_ : U64

/-- The required set at one revision. -/
structure RequiredSet where
  revision : U64
  members : List Member
  history : List SetEvent

namespace RequiredSet

variable (set : RequiredSet)

def empty : RequiredSet := ⟨0, [], []⟩

def member (id : TargetId) : Option Member := set.members.find? (·.spec.id = id)

/-- Whether `id` is a member a publication goes to. -/
def holds (id : TargetId) : Bool := (set.member id).isSome

/-- Whether the owner drained `id` and has not re-enrolled it since. -/
def drained (id : TargetId) : Bool :=
  (set.history.reverse.find? (·.target = id.name)).any (·.change = .drained)

/-- Adds every member of `specs` the set lacks, at the next revision; none the owner drained.  There
may be no next revision. -/
def register (specs : List TargetSpec) : Option RequiredSet :=
  match specs.filter fun spec => !set.holds spec.id && !set.drained spec.id with
  | [] => some set
  | missing => (set.revision.checkedAdd 1).map fun revision =>
      { set with
        revision := revision
        members := set.members ++ missing.map fun spec => ⟨spec, revision⟩ }

/-- Adds `spec` back at the next revision, the one way a drained member returns. -/
def reenrol (spec : TargetSpec) (now : U64) : Option RequiredSet :=
  if set.holds spec.id then some set
  else (set.revision.checkedAdd 1).map fun revision =>
    { revision := revision
      members := set.members ++ [⟨spec, revision⟩]
      history :=
        if set.drained spec.id then
          set.history ++ [⟨revision, spec.id.name, .reenrolled, none, now⟩]
        else set.history }

/-- The set without `id`, at a revision, with its drain in the history. -/
def drain (id : TargetId) (revision : U64) (evidence : DrainEvidence) (now : U64) : RequiredSet :=
  { revision := revision
    members := set.members.filter (·.spec.id ≠ id)
    history := set.history ++ [⟨revision, id.name, .drained, some evidence, now⟩] }

end RequiredSet

/-! ### The files beside it -/

/-- A begun drain's fence. -/
structure Fence where
  target : TargetId
  revision : U64
  position : CustodyPosition
  operationId : Digest
  token : FixedBytes 32

inductive PendingCode where
  | offline | locked | denied | noAdapter | moved | failed

/-- Why a member is pending, as the last attempt left it. -/
structure PendingNote where
  at_ : U64
  code : PendingCode
  detail : Bytes

structure AckFiles where
  set : RequiredSet
  acks : TargetId → Option AckRecord
  pending : TargetId → Option PendingNote
  /-- Whose head is wrapped to the recovery root alone. -/
  rootOnly : TargetId → Bool
  fences : TargetId → Option Fence

inductive AckRefusal where
  | invalidTarget
  | mismatch
  /-- A begun drain fences the member. -/
  | draining

section Acks

variable (hashes : CustodyHashes)

/-- Whether the inventory leaves what a member of a scope keeps. -/
def DeletionEvidence.fits (evidence : DeletionEvidence) (scope : TargetScope) : Bool :=
  (evidence.remainingHeads = match scope with | .headAndLog => 1 | .logOnly => 0) &&
    (decide (scope = .headAndLog) != decide (evidence.kind = .noHeadInScope)) &&
    evidence.inventoryDigest.any (·.length = 32)

/-- The member `ack` names, once it names exactly the batch `facts` describes. -/
def checkAck (set : RequiredSet) (fenced : Bool) (facts : BatchFacts) (ack : AckRecord) :
    Except AckRefusal TargetId :=
  match TargetId.new ack.targetId with
  | none => .error .invalidTarget
  | some id =>
    match set.member id with
    | none => .error .mismatch
    | some member =>
      let expected := facts.ack hashes id ack.evidence ack.attester ack.ackedAt
      if fenced then .error .draining
      else if ack.version ≠ ackVersion ∨ ack.operation ≠ .publishAndDeleteSuperseded ∨
          ack.setRevision ≠ facts.setRevision ∨ ack.setRevision.val < member.added.val ∨
          ack.position ≠ expected.position ∨ ack.headObjectId ≠ expected.headObjectId ∨
          ack.operationId ≠ expected.operationId ∨ ack.attester = [] ∨
          ack.evidence.fits member.spec.scope = false then .error .mismatch
      else .ok id

/-- Whether a drain's ack names exactly the drain begun of the member. -/
def Fence.fits (fence : Fence) (member : Member) (ack : DrainAck) : Bool :=
  decide (ack.version = drainVersion) && decide (ack.setRevision = fence.revision) &&
    decide (ack.position = fence.position) && decide (ack.operationId = fence.operationId) &&
    decide (ack.evidence.remainingHeads = 0) && ack.evidence.inventoryDigest.any (·.length = 32) &&
    decide (ack.placement = drainPlacement hashes member.spec) &&
    decide (ack.origin = drainOrigin hashes fence.position) &&
    (ack.macUnder hashes fence.token).any fun mac => ack.mac.getD [] = mac.bytes

end Acks

namespace AckFiles

variable (files : AckFiles)

/-- The write of a checked ack: an older one never replaces a newer. -/
def accept (facts : BatchFacts) (id : TargetId) (ack : AckRecord) : AckFiles :=
  if (files.acks id).all (·.position.Reaches ack.position) then
    { files with
      acks := update files.acks id (some ack)
      pending := update files.pending id none
      rootOnly := update files.rootOnly id (!facts.dataKey) }
  else files

/-- The fence that stands once a drain of `id` is begun: a retry at one revision keeps it. -/
def beginDrain (hashes : CustodyHashes) (id : TargetId) (position : CustodyPosition)
    (token : FixedBytes 32) : Option (Fence × Bool) :=
  if files.set.holds id then
    let fence : Fence :=
      { target := id, revision := files.set.revision, position
        operationId := drainOperationId hashes id files.set.revision position, token }
    match files.fences id with
    | some standing =>
      if standing.revision = files.set.revision then some (standing, false) else some (fence, true)
    | none => some (fence, true)
  else none

/-- The member the drain `ack` names takes out of the set, and the set without it. -/
def commitDrain (hashes : CustodyHashes) (ack : DrainAck) (now : U64) :
    Option (TargetId × RequiredSet) :=
  match TargetId.new ack.targetId with
  | none => none
  | some id =>
    match files.fences id, files.set.member id with
    | some fence, some member =>
      if fence.revision = files.set.revision ∧ fence.fits hashes member ack = true then
        match files.set.revision.checkedAdd 1, hashes.encode ack with
        | some revision, some bytes =>
          some (id, files.set.drain id revision
            { operationId := ack.operationId, ackDigest := hashes.hash bytes
              inventoryDigest := ack.evidence.inventoryDigest
              supersededRemoved := ack.evidence.supersededRemoved } now)
        | _, _ => none
      else none
    | _, _ => none

/-- The files a committed drain removes, in its order. -/
inductive OfMember where
  | fence | ack | pending | rootOnly
  deriving DecidableEq

def remove (id : TargetId) : OfMember → AckFiles
  | .fence => { files with fences := update files.fences id none }
  | .ack => { files with acks := update files.acks id none }
  | .pending => { files with pending := update files.pending id none }
  | .rootOnly => { files with rootOnly := update files.rootOnly id false }

end AckFiles

/-! ### A publication pass's counting -/

/-- Acks as `acks()` returns them. -/
abbrev AckMap := TargetId → Option AckRecord

/-- The log position `id`'s ack names, when it is of `here`'s lineage and writer epoch. -/
def ackedSeq (acks : AckMap) (id : TargetId) (here : CustodyPosition) : Option U64 :=
  match acks id with
  | none => none
  | some held =>
    if held.position.SameLineage here ∧ held.position.epoch = here.epoch then some held.position.seq
    else none

/-- The least advanced member's acknowledged position, once every member acknowledged one in `here`'s
lineage and epoch. -/
def leastAcked (acks : AckMap) (here : CustodyPosition) :
    List Member → Option CustodyPosition → Option CustodyPosition
  | [], least => least
  | member :: members, least =>
    match ackedSeq acks member.spec.id here, acks member.spec.id with
    | some _, some held =>
      leastAcked acks here members
        (if least.all (held.position.seq.val < ·.seq.val) then some held.position else least)
    | _, _ => none

/-! ### Calls under way -/

/-- What a call does next. -/
inductive AckStage where
  | idle
  /-- An ack's check read the set, and reads the fence; no drain began or ended since these. -/
  | checking (facts : BatchFacts) (ack : AckRecord) (set : RequiredSet) (since : TargetId → ℕ)
  /-- An ack checked, to be written. -/
  | checked (facts : BatchFacts) (ack : AckRecord) (id : TargetId) (since : TargetId → ℕ)
  /-- A committed drain, under the lock. -/
  | removing (id : TargetId) (rest : List AckFiles.OfMember)
  /-- A publication pass with the set it read or registered. -/
  | passing (set : RequiredSet)
  /-- …within `acks()`, which read the set again. -/
  | reading (set again : RequiredSet) (rest : List Member) (found : AckMap)
  | counting (set again : RequiredSet) (found : AckMap)
  | stopped

/-- The journal's files, and the calls at work on them. -/
structure AckJournal where
  files : AckFiles
  lock : Option ℕ
  tasks : ℕ → AckStage
  /-- How many drains of each target began or were committed. -/
  drains : TargetId → ℕ
  /-- The acks accepted, each with its batch. -/
  accepted : List (BatchFacts × AckRecord)

inductive AckOp where
  | registers (specs : List TargetSpec)
  | readsSet
  | readsSetAgain
  | readsAck
  | endsReading
  | checks (facts : BatchFacts) (ack : AckRecord)
  | readsFence
  | accepts
  | notes (id : TargetId) (note : PendingNote)
  | begins (id : TargetId) (position : CustodyPosition) (token : FixedBytes 32)
  | commits (ack : DrainAck) (now : U64)
  /-- A file removed, or left where that failed. -/
  | removes (removed : Bool)
  | unlocks
  | reenrols (spec : TargetSpec) (now : U64)
  | stops

namespace AckJournal

variable (s : AckJournal)

def init : AckJournal :=
  { files := ⟨.empty, fun _ => none, fun _ => none, fun _ => false, fun _ => none⟩
    lock := none, tasks := fun _ => .idle, drains := fun _ => 0, accepted := [] }

/-- A call goes on. -/
def goes (c : ℕ) (stage : AckStage) : AckJournal :=
  { s with tasks := update s.tasks c stage }

def withSet (set : RequiredSet) : AckJournal := { s with files := { s.files with set := set } }

def withFiles (files : AckFiles) : AckJournal := { s with files := files }

/-- A drain of `id` begins, or ends. -/
def counts (id : TargetId) : AckJournal :=
  { s with drains := update s.drains id (s.drains id + 1) }

/-- Whoever held the lock and stopped let go of it. -/
def releases (c : ℕ) : AckJournal := if s.lock = some c then { s with lock := none } else s

end AckJournal

/-- One step of a call.  A lock is taken where no one holds it, and a call that needs it to one end
only is one step. -/
inductive AckStep (hashes : CustodyHashes) : AckJournal → ℕ × AckOp → AckJournal → Prop
  | registers {s : AckJournal} {c : ℕ} {specs : List TargetSpec} {set : RequiredSet} :
      s.tasks c = .idle → s.lock = none → s.files.set.register specs = some set →
      AckStep hashes s (c, .registers specs) ((s.withSet set).goes c (.passing set))
  | readsSet {s : AckJournal} {c : ℕ} : s.tasks c = .idle →
      AckStep hashes s (c, .readsSet) (s.goes c (.passing s.files.set))
  | readsSetAgain {s : AckJournal} {c : ℕ} {set : RequiredSet} : s.tasks c = .passing set →
      AckStep hashes s (c, .readsSetAgain)
        (s.goes c (.reading set s.files.set s.files.set.members fun _ => none))
  | readsAck {s : AckJournal} {c : ℕ} {set again : RequiredSet} {member : Member}
      {rest : List Member} {found : AckMap} : s.tasks c = .reading set again (member :: rest) found →
      AckStep hashes s (c, .readsAck)
        (s.goes c (.reading set again rest (match s.files.acks member.spec.id with
          | none => found
          | some ack => update found member.spec.id (some ack))))
  | endsReading {s : AckJournal} {c : ℕ} {set again : RequiredSet} {found : AckMap} :
      s.tasks c = .reading set again [] found →
      AckStep hashes s (c, .endsReading) (s.goes c (.counting set again found))
  | checks {s : AckJournal} {c : ℕ} (facts : BatchFacts) (ack : AckRecord) : s.tasks c = .idle →
      AckStep hashes s (c, .checks facts ack) (s.goes c (.checking facts ack s.files.set s.drains))
  | readsFence {s : AckJournal} {c : ℕ} {facts : BatchFacts} {ack : AckRecord} {set : RequiredSet}
      {since : TargetId → ℕ} {id : TargetId} : s.tasks c = .checking facts ack set since →
      TargetId.new ack.targetId = some id →
      checkAck hashes set (s.files.fences id).isSome facts ack = .ok id →
      AckStep hashes s (c, .readsFence) (s.goes c (.checked facts ack id since))
  | accepts {s : AckJournal} {c : ℕ} {facts : BatchFacts} {ack : AckRecord} {id : TargetId}
      {since : TargetId → ℕ} : s.tasks c = .checked facts ack id since → s.lock = none →
      AckStep hashes s (c, .accepts)
        ({ s.withFiles (s.files.accept facts id ack) with
            accepted := s.accepted ++ [(facts, ack)] }.goes c .idle)
  | notes {s : AckJournal} {c : ℕ} (id : TargetId) (note : PendingNote) :
      AckStep hashes s (c, .notes id note)
        (s.withFiles { s.files with pending := update s.files.pending id (some note) })
  | begins {s : AckJournal} {c : ℕ} {id : TargetId} {position : CustodyPosition}
      {token : FixedBytes 32} {fence : Fence} : s.tasks c = .idle → s.lock = none →
      s.files.beginDrain hashes id position token = some (fence, true) →
      AckStep hashes s (c, .begins id position token)
        ((s.withFiles { s.files with fences := update s.files.fences id (some fence) }).counts
          id)
  /-- A retry at one revision writes nothing. -/
  | beginsAgain {s : AckJournal} {c : ℕ} {id : TargetId} {position : CustodyPosition}
      {token : FixedBytes 32} {fence : Fence} : s.tasks c = .idle → s.lock = none →
      s.files.beginDrain hashes id position token = some (fence, false) →
      AckStep hashes s (c, .begins id position token) s
  | commits {s : AckJournal} {c : ℕ} {ack : DrainAck} {now : U64} {id : TargetId}
      {set : RequiredSet} : s.tasks c = .idle → s.lock = none →
      s.files.commitDrain hashes ack now = some (id, set) →
      AckStep hashes s (c, .commits ack now)
        ({ (s.withSet set).counts id with lock := some c }.goes c
          (.removing id [.fence, .ack, .pending, .rootOnly]))
  | removes {s : AckJournal} {c : ℕ} {id : TargetId} {file : AckFiles.OfMember}
      {rest : List AckFiles.OfMember} (removed : Bool) : s.tasks c = .removing id (file :: rest) →
      AckStep hashes s (c, .removes removed)
        ((s.withFiles (if removed then s.files.remove id file else s.files)).goes c
          (.removing id rest))
  | unlocks {s : AckJournal} {c : ℕ} {id : TargetId} : s.tasks c = .removing id [] →
      AckStep hashes s (c, .unlocks) ((s.releases c).goes c .idle)
  | reenrols {s : AckJournal} {c : ℕ} {spec : TargetSpec} {now : U64} {set : RequiredSet} :
      s.tasks c = .idle → s.lock = none → s.files.set.reenrol spec now = some set →
      AckStep hashes s (c, .reenrols spec now) (s.withSet set)
  | stops {s : AckJournal} {c : ℕ} : AckStep hashes s (c, .stops) ((s.releases c).goes c .stopped)

/-- The acknowledgement journal of one lineage, from before its first registration. -/
def ackSystem (hashes : CustodyHashes) : System AckJournal (ℕ × AckOp) where
  init s := s = .init
  step := AckStep hashes

end Oneiron
