import Oneiron.KeyCustody.Frame

/-!
# KeyCustody/TargetProtocol — the holders a custody is published to, and what they answer

An ack names the batch it is of, a drain's ack the drain.  Digests and positions are hex at rest, read
in its one canonical spelling: a field here is the bytes its hex spells.
-/

namespace Oneiron

/-- A lowercase letter or a digit. -/
def isLowerOrDigit (b : UInt8) : Bool := (97 ≤ b && b ≤ 122) || (48 ≤ b && b ≤ 57)

/-- `<kind>:<name>`, lowercase, at most 128 bytes. -/
def isTargetId (id : Bytes) : Bool :=
  id.length ≤ 128 && (splitOnce 58 id).any fun (kind, name) =>
    !kind.isEmpty && kind.all isLowerOrDigit && !name.isEmpty &&
      name.all fun b => isLowerOrDigit b || b = 46 || b = 95 || b = 45

/-- A member's stable id in the required set. -/
structure TargetId where
  name : Bytes
  valid : isTargetId name = true
  deriving DecidableEq

def TargetId.new (id : Bytes) : Option TargetId :=
  if h : isTargetId id = true then some ⟨id, h⟩ else none

inductive HostedKind where
  | wasabi | s3 | r2 | sshShelf | hypnosOutbox
  deriving DecidableEq

inductive TargetKind where
  | folder
  | residence
  | hosted (kind : HostedKind)
  deriving DecidableEq

def TargetKind.name : TargetKind → Bytes
  | folder => ascii "folder"
  | residence => ascii "residence"
  | hosted .wasabi => ascii "wasabi"
  | hosted .s3 => ascii "s3"
  | hosted .r2 => ascii "r2"
  | hosted .sshShelf => ascii "ssh_shelf"
  | hosted .hypnosOutbox => ascii "hypnos_outbox"

inductive TargetScope where
  | headAndLog | logOnly
  deriving DecidableEq

/-- One member of the required set. -/
structure TargetSpec where
  id : TargetId
  kind : TargetKind
  scope : TargetScope
  /-- A folder member's absolute folder, in its native bytes. -/
  folder : Option Bytes
  deriving DecidableEq

inductive EvidenceKind where
  | filesystemSweep | residenceSweep | sshVersionSweep | objectVersionSweep | noHeadInScope
  | unversionedObjectSweep
  deriving DecidableEq

/-- The inventory a target took after its deletions. -/
structure DeletionEvidence where
  kind : EvidenceKind
  supersededRemoved : U64
  remainingHeads : U64
  /-- What its hex spells, where it spells anything. -/
  inventoryDigest : Option Bytes
  deriving DecidableEq

namespace CustodyPosition

variable (p q : CustodyPosition)

def toBytes : Bytes :=
  p.vault.bytes ++ p.namespace_.bytes ++ digits 8 p.epoch.val ++ digits 8 p.seq.val ++ p.tip.bytes

def SameLineage : Prop := p.vault = q.vault ∧ p.namespace_ = q.namespace_

instance : Decidable (p.SameLineage q) := inferInstanceAs (Decidable (_ ∧ _))

/-- Whether a position is at or past another, by writer epoch and then by number. -/
def Reaches : Prop := p.epoch.val < q.epoch.val ∨ p.epoch = q.epoch ∧ p.seq.val ≤ q.seq.val

instance : Decidable (p.Reaches q) := inferInstanceAs (Decidable (_ ∨ _))

theorem reaches_refl : p.Reaches p := Or.inr ⟨rfl, le_rfl⟩

end CustodyPosition

inductive AckOperation where
  | publishAndDeleteSuperseded
  deriving DecidableEq

/-- A target's durable acknowledgement of one batch. -/
structure AckRecord where
  version : UInt8
  targetId : Bytes
  setRevision : U64
  position : CustodyPosition
  headObjectId : Digest
  operation : AckOperation
  operationId : Digest
  evidence : DeletionEvidence
  attester : Bytes
  ackedAt : U64
  deriving DecidableEq

structure DrainAck where
  version : UInt8
  targetId : Bytes
  setRevision : U64
  position : CustodyPosition
  operationId : Digest
  evidence : DeletionEvidence
  placement : Digest
  origin : Digest
  /-- What its hex spells, where it spells anything. -/
  mac : Option Bytes

/-- BLAKE3 in its three modes, and the named MessagePack of a drain's ack. -/
structure CustodyHashes where
  hash : Bytes → Digest
  deriveKey (context material : Bytes) : Digest
  keyed (key : FixedBytes 32) (material : Bytes) : Digest
  encode : DrainAck → Option Bytes

def ackVersion : UInt8 := 1

def drainVersion : UInt8 := 1

section Digests

variable (hashes : CustodyHashes)

/-- A batch's keyless facts: what its ack must name. -/
structure BatchFacts where
  position : CustodyPosition
  headObjectId : Digest
  setRevision : U64
  /-- Whether the head is wrapped to the vault data key too. -/
  dataKey : Bool

def operationId (position : CustodyPosition) (headObjectId : Digest) : Digest :=
  hashes.deriveKey (ascii "oneiron/custody-operation/v1") (position.toBytes ++ headObjectId.bytes)

/-- The ack of this batch by `target`. -/
def BatchFacts.ack (facts : BatchFacts) (target : TargetId) (evidence : DeletionEvidence)
    (attester : Bytes) (now : U64) : AckRecord :=
  { version := ackVersion, targetId := target.name, setRevision := facts.setRevision
    position := facts.position, headObjectId := facts.headObjectId
    operation := .publishAndDeleteSuperseded
    operationId := operationId hashes facts.position facts.headObjectId
    evidence, attester, ackedAt := now }

def drainOperationId (target : TargetId) (revision : U64) (position : CustodyPosition) : Digest :=
  hashes.deriveKey (ascii "oneiron/custody-drain/operation/v1")
    (position.toBytes ++ digits 8 revision.val ++ target.name)

def drainOrigin (position : CustodyPosition) : Digest :=
  hashes.deriveKey (ascii "oneiron/custody-drain/origin/v1")
    (position.vault.bytes ++ position.namespace_.bytes)

/-- Where a member keeps the lineage. -/
def drainPlacement (spec : TargetSpec) : Digest :=
  hashes.deriveKey (ascii "oneiron/custody-drain/placement/v1")
    (digits 8 spec.kind.name.length ++ spec.kind.name ++ digits 8 spec.id.name.length ++
      spec.id.name ++ spec.folder.getD [])

/-- The MAC of every field but `mac` under `token`. -/
def DrainAck.macUnder (ack : DrainAck) (token : FixedBytes 32) : Option Digest :=
  (hashes.encode { ack with mac := some [] }).map fun bytes =>
    hashes.keyed token (ascii "oneiron/custody-drain/ack-mac/v1" ++ bytes)

end Digests

end Oneiron
