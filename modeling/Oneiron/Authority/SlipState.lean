import Oneiron.Authority.LogStructure
import Oneiron.Authority.Scope
import Oneiron.Foundations.Joined

/-!
# Authority/SlipState — mint ancestry and subtree tombstones, folded from a log

    mint --▸ live --revoke | consume | the grant's revoke--▸ dead, and every slip below with it

A mint under a parent must narrow it while the parent's whole ancestry lives.  Merging two branches
unions every withdrawal; an id two branches minted differently is revoked, and a mint either side
holds under a grant either side withdrew is revoked.
-/

namespace Oneiron

/-! ## What a capability slip's mint commits to

A slip delegated from another may narrow it and nothing else: the same holder, the same bounds it
stands under, no wider scope or reach and no longer life.  Narrowing is a preorder, so each slip of
a delegation chain narrows every slip above it.
-/

section Claims

/-- Whom a slip's holder may message, in the order it narrows. -/
inductive CommReach where
  | parent | subtree | project | vault
  deriving DecidableEq

/-- `effective_slip_comm`: an absent reach is the vault's. -/
def effectiveSlipComm : Option CommReach → CommReach
  | some reach => reach
  | none => .vault

/-- The immutable, log-committed part of a slip.  The delegation, the contact and the seat claim are
kept as the bytes they encode to: a delegated slip carries them unchanged. -/
structure SlipClaims where
  slipId : Bytes32
  vaultId : Bytes32
  parentId : Option Bytes32 := none
  holderRef : Bytes
  bindingKey : Bytes32
  scope : Scope
  issuedAt : ℕ
  expiresAt : ℕ
  ttlSecs : ℕ
  singleUse : Bool := false
  records : Finset Bytes := ∅
  channels : Finset Bytes := ∅
  actorClass : Option Bytes := none
  orgRef : Option Bytes := none
  grantRef : Option Bytes := none
  invitationRef : Option Bytes := none
  delegation : Option Bytes := none
  comm : Option CommReach := none
  trustedContact : Option Bytes := none
  seatClaim : Option Bytes := none
  deriving DecidableEq

/-- The signed mint payload. -/
structure SlipMintAction where
  claims : SlipClaims
  renews : Option Bytes32 := none
  mintingMember : Option EntityId := none
  deriving DecidableEq

namespace SlipClaims

/-- The clauses that compare the named bounds: records narrow to a subset, or from no bound at all;
channels narrow to a subset. -/
def boundsNarrow (claims parent : SlipClaims) : Bool :=
  (claims.records = parent.records ||
    (claims.records ≠ ∅ &&
      ((parent.records = ∅ && parent.channels = ∅) || claims.records ⊆ parent.records))) &&
  (claims.channels = parent.channels ||
    (claims.channels ≠ ∅ && claims.channels ⊆ parent.channels))

/-- The clauses a delegated slip may not change. -/
def sameStanding (claims parent : SlipClaims) : Bool :=
  claims.vaultId = parent.vaultId && claims.bindingKey = parent.bindingKey &&
    claims.holderRef = parent.holderRef && claims.actorClass = parent.actorClass &&
    claims.orgRef = parent.orgRef && claims.grantRef = parent.grantRef &&
    claims.invitationRef = parent.invitationRef && claims.delegation = parent.delegation &&
    claims.trustedContact = parent.trustedContact && claims.seatClaim = parent.seatClaim

/-- Whether these claims are a valid narrowing of a parent's. -/
def narrows (claims parent : SlipClaims) : Bool :=
  claims.sameStanding parent &&
    claims.scope.isNarrowingOf parent.scope &&
    (parent.issuedAt ≤ claims.issuedAt : Bool) &&
    (claims.expiresAt ≤ parent.expiresAt : Bool) &&
    (claims.ttlSecs ≤ parent.ttlSecs : Bool) &&
    (!parent.singleUse || claims.singleUse) &&
    ((effectiveSlipComm claims.comm).ctorIdx ≤ (effectiveSlipComm parent.comm).ctorIdx : Bool) &&
    claims.boundsNarrow parent

variable {a b c : SlipClaims}

theorem boundsNarrow_refl (a : SlipClaims) : a.boundsNarrow a := by simp [boundsNarrow]

theorem boundsNarrow_trans (h : a.boundsNarrow b) (h' : b.boundsNarrow c) : a.boundsNarrow c := by
  simp only [boundsNarrow, Bool.and_eq_true, Bool.or_eq_true, decide_eq_true_eq] at h h' ⊢
  obtain ⟨hrecords, hchannels⟩ := h
  obtain ⟨hrecords', hchannels'⟩ := h'
  constructor
  · rcases hrecords with heq | ⟨hne, ⟨hrec, hchan⟩ | hsub⟩
    · rw [heq]
      exact hrecords'
    · -- nothing narrows to no bound at all but no bound at all
      have hrec' : c.records = ∅ := by
        rcases hrecords' with heq | ⟨hne', -⟩
        · rw [← heq, hrec]
        · exact absurd hrec hne'
      have hchan' : c.channels = ∅ := by
        rcases hchannels' with heq | ⟨hne', -⟩
        · rw [← heq, hchan]
        · exact absurd hchan hne'
      exact .inr ⟨hne, .inl ⟨hrec', hchan'⟩⟩
    · rcases hrecords' with heq | ⟨-, hnone | hsub'⟩
      · exact .inr ⟨hne, .inr (heq ▸ hsub)⟩
      · exact .inr ⟨hne, .inl hnone⟩
      · exact .inr ⟨hne, .inr (hsub.trans hsub')⟩
  · rcases hchannels with heq | ⟨hne, hsub⟩
    · rw [heq]
      exact hchannels'
    · rcases hchannels' with heq | ⟨-, hsub'⟩
      · exact .inr ⟨hne, heq ▸ hsub⟩
      · exact .inr ⟨hne, hsub.trans hsub'⟩

theorem sameStanding_trans (h : a.sameStanding b) (h' : b.sameStanding c) : a.sameStanding c := by
  simp only [sameStanding, Bool.and_eq_true, decide_eq_true_eq] at h h' ⊢
  simp [h, h']

theorem narrows_refl (a : SlipClaims) : a.narrows a := by
  simp [narrows, sameStanding, Scope.isNarrowingOf_refl, boundsNarrow_refl]

/-- **Narrowing chains**: what narrows a slip that narrows another narrows that one. -/
theorem narrows_trans (h : a.narrows b) (h' : b.narrows c) : a.narrows c := by
  simp only [narrows, Bool.and_eq_true, decide_eq_true_eq] at h h' ⊢
  obtain ⟨⟨⟨⟨⟨⟨⟨hsame, hscope⟩, hissued⟩, hexpires⟩, httl⟩, hsingle⟩, hcomm⟩, hbounds⟩ := h
  obtain ⟨⟨⟨⟨⟨⟨⟨hsame', hscope'⟩, hissued'⟩, hexpires'⟩, httl'⟩, hsingle'⟩, hcomm'⟩, hbounds'⟩ := h'
  refine ⟨⟨⟨⟨⟨⟨⟨sameStanding_trans hsame hsame', Scope.isNarrowingOf_trans hscope hscope'⟩,
    hissued'.trans hissued⟩, hexpires.trans hexpires'⟩, httl.trans httl'⟩, ?_⟩,
    hcomm.trans hcomm'⟩, boundsNarrow_trans hbounds hbounds'⟩
  cases hc : c.singleUse <;> simp_all

end SlipClaims

end Claims

section State

open Std

/-- `FoldedSlip`. -/
structure FoldedSlip where
  action : SlipMintAction
  signer : AuthorityKey
  entryHash : Bytes32
  deriving DecidableEq

namespace FoldedSlip

abbrev claims (slip : FoldedSlip) : SlipClaims := slip.action.claims

abbrev parentId (slip : FoldedSlip) : Option Bytes32 := slip.claims.parentId

end FoldedSlip

/-- What a log entry asks of the slips. -/
inductive SlipOp where
  | slipMint (action : SlipMintAction)
  | slipRevoke (slipId : Bytes32)
  | slipGrantRevoke (grantRef : EntityId)
  | slipConsume (slipId : Bytes32)
  | removalArchiveConsume (slipId : Bytes32) (member : EntityId)
  /-- A membership change's record, whose carrier stands: it withdraws each grant it names. -/
  | membershipExecution (withdrawnGrants : List EntityId)
  /-- Every other entry leaves the slips alone. -/
  | other

/-- A log entry, as the slips read it. -/
structure SlipEntry where
  vaultId : Option Bytes32
  signer : AuthorityKey
  op : SlipOp

/-- `SlipAuthorityState`. -/
@[ext] structure SlipAuthorityState where
  mints : OrderedMap Bytes32 FoldedSlip := ∅
  /-- Explicit withdrawals, and colliding ids. -/
  revoked : Finset Bytes32 := ∅
  explicitRevoked : Finset Bytes32 := ∅
  consumed : Finset Bytes32 := ∅
  revokedGrants : Finset Bytes := ∅

namespace SlipAuthorityState

variable (s : SlipAuthorityState)

/-! ## Ancestry -/

/-- The walk up the parents from an id: it stops at the root, and gives up at a dead id, a missing
mint or an id seen before.  Each turn sees a new id that is minted, so one turn more than there are
mints is enough. -/
def walk (dead : Bytes32 → Bool) : ℕ → Finset Bytes32 → Option Bytes32 → Option (List FoldedSlip)
  | _, _, none => some []
  | 0, _, some _ => none
  | fuel + 1, seen, some id =>
    if id ∈ seen ∨ dead id then none
    else
      match s.mints[id]? with
      | none => none
      | some mint => (walk dead fuel (insert id seen) mint.parentId).map (mint :: ·)

def ancestorsWhere (dead : Bytes32 → Bool) (id : Bytes32) : Option (List FoldedSlip) :=
  s.walk dead (s.mints.size + 1) ∅ (some id)

/-- A slip and its ancestors, none of them revoked or consumed. -/
def ancestors (id : Bytes32) : Option (List FoldedSlip) :=
  s.ancestorsWhere (fun slip => slip ∈ s.revoked ∨ slip ∈ s.consumed) id

def ancestryLive (id : Bytes32) : Bool := (s.ancestors id).isSome

/-- Whether every slip of a path was minted by a host that still stands. -/
def hostsLive (path : Option (List FoldedSlip)) (roster : Roster) : Bool :=
  path.any fun path => path.all fun mint => roster[mint.signer]?.any fun host =>
    !host.revoked && host.roles &&& (roleOwner ||| roleAdmin) ≠ 0

/-- Every ancestor's minting host must still be live in the final roster. -/
def isLive (id : Bytes32) (roster : Roster) : Bool := hostsLive (s.ancestors id) roster

/-! ## Withdrawn grants -/

def underRevokedGrant (claims : SlipClaims) : Bool := claims.grantRef.any (· ∈ s.revokedGrants)

/-- Every mint whose grant was withdrawn joins the revoked. -/
def tombstoneWithdrawnGrants (withdrawn : Bytes → Bool) : SlipAuthorityState :=
  let dead := s.mints.toList.filter fun p => p.1 ∉ s.revoked ∧ p.2.claims.grantRef.any withdrawn
  { s with revoked := s.revoked ∪ (dead.map Prod.fst).toFinset }

def tombstoneRevokedGrants : SlipAuthorityState := s.tombstoneWithdrawnGrants (· ∈ s.revokedGrants)

/-- Withdraws every slip minted under a grant, now and when one merges later. -/
def revokeGrant (grantRef : Bytes) : SlipAuthorityState :=
  if grantRef ∈ s.revokedGrants then s
  else { s with revokedGrants := insert grantRef s.revokedGrants }.tombstoneRevokedGrants

/-! ## Entries -/

/-- The single-use slips from an id up: burning a descendant spends them too. -/
def singleUseAbove : ℕ → Option Bytes32 → Option (List Bytes32)
  | _, none => some []
  | 0, some _ => none
  | fuel + 1, some id =>
    match s.mints[id]? with
    | none => none
    | some mint => (singleUseAbove fuel mint.parentId).map fun above =>
      if mint.claims.singleUse then id :: above else above

/-- Whether a mint has no parent, or narrows one whose ancestry lives. -/
def narrowsLiveParent (claims : SlipClaims) : Bool :=
  match claims.parentId with
  | none => true
  | some parent =>
    match s.mints[parent]? with
    | none => false
    | some prior => claims.narrows prior.claims && s.ancestryLive parent

/-- `validates` is the shape check of an action alone. -/
def mint (validates : SlipMintAction → Bool) (vaultId : Option Bytes32) (signer : AuthorityKey)
    (action : SlipMintAction) (hash : Bytes32) : Option SlipAuthorityState :=
  let claims := action.claims
  if !validates action || vaultId ≠ some claims.vaultId || s.mints.contains claims.slipId ||
      claims.slipId ∈ s.revoked || claims.slipId ∈ s.consumed then none
  else if !s.narrowsLiveParent claims then none
  else some { s with
    revoked := if s.underRevokedGrant claims then insert claims.slipId s.revoked else s.revoked
    mints := s.mints.insert claims.slipId ⟨action, signer, hash⟩ }

def consume (slipId : Bytes32) : Option SlipAuthorityState :=
  if s.ancestryLive slipId then
    (s.singleUseAbove (s.mints.size + 1) (s.mints[slipId]?.bind (·.parentId))).map fun burn =>
      { s with consumed := s.consumed ∪ (slipId :: burn).toFinset }
  else none

/-- The removal-archive door burns a slip whatever its standing, if its mint names the member. -/
def consumeArchive (slipId : Bytes32) (member : EntityId) : Option SlipAuthorityState :=
  match s.mints[slipId]? with
  | none => none
  | some mint =>
    if EntityId.fromHex mint.claims.holderRef = some member then
      some { s with consumed := insert slipId s.consumed }
    else none

/-- `none` when the entry is refused. -/
def apply (validates : SlipMintAction → Bool) (entry : SlipEntry) (hash : Bytes32) :
    Option SlipAuthorityState :=
  match entry.op with
  | .slipMint action => s.mint validates entry.vaultId entry.signer action hash
  | .slipRevoke slipId => some { s with
      revoked := insert slipId s.revoked
      explicitRevoked := insert slipId s.explicitRevoked }
  | .slipGrantRevoke grantRef => some (s.revokeGrant grantRef.toHex)
  | .slipConsume slipId => s.consume slipId
  | .removalArchiveConsume slipId member => s.consumeArchive slipId member
  | .membershipExecution withdrawnGrants =>
    some (withdrawnGrants.foldl (fun s grant => s.revokeGrant grant.toHex) s)
  | .other => some s

/-! ## Merging -/

/-- Takes one mint of the other branch in. -/
def mergeMint (s : SlipAuthorityState) (p : Bytes32 × FoldedSlip) : SlipAuthorityState :=
  let (id, mint) := p
  match s.mints[id]? with
  | some prior =>
    if prior ≠ mint then { s with
      revoked := insert id s.revoked
      mints := if compare mint.entryHash prior.entryHash = .lt then s.mints.insert id mint
        else s.mints }
    else s
  | none => { s with
      revoked := if s.underRevokedGrant mint.claims then insert id s.revoked else s.revoked
      mints := s.mints.insert id mint }

/-- Colliding ids are unusable, never first-wins. -/
def mergeFrom (other : SlipAuthorityState) : SlipAuthorityState :=
  let freshGrants := ¬other.revokedGrants ⊆ s.revokedGrants
  let merged := other.mints.toList.foldl mergeMint { s with
    revoked := s.revoked ∪ other.revoked
    explicitRevoked := s.explicitRevoked ∪ other.explicitRevoked
    consumed := s.consumed ∪ other.consumed
    revokedGrants := s.revokedGrants ∪ other.revokedGrants }
  if freshGrants then merged.tombstoneRevokedGrants else merged

end SlipAuthorityState

end State

end Oneiron
