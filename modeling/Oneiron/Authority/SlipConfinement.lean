import Oneiron.Authority.SlipLiveness

/-!
# Authority/SlipConfinement — slips over every forking log

    mint g ----------╮
       ╰-- mint x ---┴▸ merge: x is dead, whichever branch comes first
    grant revoke ----╯

Every state folded from a log is *confined*: grounded in the log's rows, and with each mint's parent
beside it, narrowed by the mint unless one of the two is revoked.  Landing and merging keep it and
only grow.
-/

open Std

namespace Oneiron

open Finset

open Std.ExtTreeMap Option

namespace SlipAuthorityState

variable {s t u : SlipAuthorityState} {id : Bytes32} {slip : FoldedSlip}
  {log : Bytes32 → SlipEntry} {validates : SlipMintAction → Bool}

/-- A grounded state in which each mint narrows the parent beside it, if neither is revoked. -/
structure Confined (log : Bytes32 → SlipEntry) (s : SlipAuthorityState) : Prop
    extends Grounded log s where
  parent : ∀ {id p : Bytes32} {slip : FoldedSlip}, s.mints[id]? = some slip →
    slip.parentId = some p → ∃ prior, s.mints[p]? = some prior ∧
      (slip.claims.narrows prior.claims ∨ id ∈ s.revoked ∨ p ∈ s.revoked)

variable {entry : SlipEntry} {ids : List Bytes32} {hash : Bytes32} {path : List FoldedSlip}

namespace Confined

theorem start : Confined log {} where
  source h := by simp at h
  tombstoned h := by simp at h
  parent h := by simp at h

section

variable (h : Confined log s)

include h

/-- Withdrawals alone keep it, when no grant is newly withdrawn. -/
theorem withdraw (hm : t.mints = s.mints) (hr : s.revoked ⊆ t.revoked)
    (hg : t.revokedGrants = s.revokedGrants) : Confined log t where
  source hid := h.source (hm ▸ hid)
  tombstoned hid hunder := hr (h.tombstoned (hm ▸ hid) (by rwa [underRevokedGrant_eq, ← hg]))
  parent hid hp := by
    obtain ⟨prior, hprior, hnarrow⟩ := h.parent (hm ▸ hid) hp
    exact ⟨prior, hm ▸ hprior, hnarrow.imp_right (Or.imp (hr ·) (hr ·))⟩

theorem revokeGrant (grant : Bytes) : Confined log (s.revokeGrant grant) := by
  unfold SlipAuthorityState.revokeGrant
  split
  · exact h
  · refine ⟨⟨h.source, fun hid hunder => mem_tombstone.mpr (.inr ⟨_, hid, hunder⟩)⟩, fun hid hp => ?_⟩
    obtain ⟨prior, hprior, hnarrow⟩ := h.parent hid hp
    exact ⟨prior, hprior, hnarrow.imp_right
      (Or.imp (mem_tombstone.mpr <| .inl ·) (mem_tombstone.mpr <| .inl ·))⟩

theorem mint {action : SlipMintAction} (hlog : log hash = entry) (hop : entry.op = .slipMint action)
    (hmint : s.mint validates entry.vaultId entry.signer action hash = some t) :
    Confined log t := by
  obtain ⟨hnew, hparent, rfl⟩ := mint_eq_some hmint
  have hold {j : Bytes32} {old : FoldedSlip} (hj : s.mints[j]? = some old) :
      (s.mints.insert action.claims.slipId ⟨action, entry.signer, hash⟩)[j]? = some old := by
    have hne : action.claims.slipId ≠ j := by
      rintro rfl
      rw [hnew] at hj
      cases hj
    simp [getElem?_insert, hne, hj]
  have hcases {j : Bytes32} {slip : FoldedSlip}
      (hj : (s.mints.insert action.claims.slipId ⟨action, entry.signer, hash⟩)[j]? = some slip) :
      (j = action.claims.slipId ∧ slip = ⟨action, entry.signer, hash⟩) ∨ s.mints[j]? = some slip := by
    rw [getElem?_insert] at hj
    split at hj
    · next heq => exact .inl ⟨(LawfulEqOrd.eq_of_compare heq).symm, (some.inj hj).symm⟩
    · exact .inr hj
  have hrevoked : s.revoked ⊆ if s.underRevokedGrant action.claims then
      insert action.claims.slipId s.revoked else s.revoked := by
    split
    · exact subset_insert _ _
    · exact subset_rfl
  refine ⟨⟨fun hid => ?_, fun hid hunder => ?_⟩, fun hid hp => ?_⟩
  · obtain ⟨rfl, rfl⟩ | hid := hcases hid
    · exact ⟨hlog ▸ hop, congrArg SlipEntry.signer hlog, rfl⟩
    · exact h.source hid
  · obtain ⟨rfl, rfl⟩ | hid := hcases hid
    · exact (if_pos (show s.underRevokedGrant action.claims = true from hunder)).symm ▸
        mem_insert_self _ _
    · exact hrevoked (h.tombstoned hid hunder)
  · obtain ⟨rfl, rfl⟩ | hid := hcases hid
    · obtain ⟨prior, hprior, hnarrow⟩ := hparent _ hp
      exact ⟨prior, hold hprior, .inl hnarrow⟩
    · obtain ⟨prior, hprior, hnarrow⟩ := h.parent hid hp
      exact ⟨prior, hold hprior, hnarrow.imp_right (Or.imp (hrevoked ·) (hrevoked ·))⟩

/-- **An entry that lands keeps it.** -/
theorem apply (happly : s.apply validates (log hash) hash = some t) : Confined log t := by
  obtain ⟨action, hop, hmint⟩ | ⟨burnt, rfl⟩ | ⟨slipId, rfl⟩ | ⟨grants, rfl⟩ := apply_cases happly
  · exact h.mint rfl hop hmint
  · exact h.withdraw rfl subset_rfl rfl
  · exact h.withdraw rfl (subset_insert _ _) rfl
  · clear happly
    induction grants generalizing s with
    | nil => exact h
    | cons grant grants ih => exact ih (h.revokeGrant grant.toHex)

/-- **A merge keeps it**: a parent the two sides minted differently is revoked. -/
theorem merge (h' : Confined log t) : Confined log (s.mergeFrom t) where
  toGrounded := h.toGrounded.merge h'.toGrounded
  parent {id p slip} hid hp := by
    have hrevoked {j : Bytes32} (hj : j ∈ s.revoked ∨ j ∈ t.revoked) : j ∈ (s.mergeFrom t).revoked :=
      h.mem_revoked_mergeFrom.mpr (.inl hj)
    have hside {prior : FoldedSlip} (hprior : Holds s t p prior)
        (hnarrow : slip.claims.narrows prior.claims ∨ id ∈ (s.mergeFrom t).revoked ∨
          p ∈ (s.mergeFrom t).revoked) :
        ∃ prior, (s.mergeFrom t).mints[p]? = some prior ∧ (slip.claims.narrows prior.claims ∨
          id ∈ (s.mergeFrom t).revoked ∨ p ∈ (s.mergeFrom t).revoked) := by
      obtain ⟨merged, hmerged, rfl | hc⟩ := merged_of_holds hprior
      · exact ⟨merged, hmerged, hnarrow⟩
      · exact ⟨merged, hmerged, .inr (.inr (h.mem_revoked_mergeFrom.mpr (.inr (.inl hc))))⟩
    rcases holds_of_merged hid with hs | ht
    · obtain ⟨prior, hprior, hnarrow⟩ := h.parent hs hp
      exact hside (.inl hprior) (hnarrow.imp_right (Or.imp (hrevoked <| .inl ·) (hrevoked <| .inl ·)))
    · obtain ⟨prior, hprior, hnarrow⟩ := h'.parent ht hp
      exact hside (.inr hprior) (hnarrow.imp_right (Or.imp (hrevoked <| .inr ·) (hrevoked <| .inr ·)))

end

end Confined

/-! ## What landing and merging lead to -/

theorem grows_apply (h : s.apply validates entry hash = some t) : Grows s t := by
  obtain ⟨action, -, hmint⟩ | ⟨burnt, rfl⟩ | ⟨slipId, rfl⟩ | ⟨grants, rfl⟩ := apply_cases h
  · obtain ⟨hnew, -, rfl⟩ := mint_eq_some hmint
    refine ⟨fun {j old} hj => ⟨old, ?_, .inl rfl⟩, ?_, subset_rfl, subset_rfl⟩
    · have hne : action.claims.slipId ≠ j := by
        rintro rfl
        rw [hnew] at hj
        cases hj
      simp [getElem?_insert, hne, hj]
    · dsimp only
      split
      · exact subset_insert _ _
      · exact subset_rfl
  · exact .withdraw rfl subset_rfl subset_union_left subset_rfl
  · exact .withdraw rfl (subset_insert _ _) subset_rfl subset_rfl
  · clear h
    induction grants generalizing s with
    | nil => exact .refl s
    | cons grant grants ih => exact (grows_revokeGrant s grant.toHex).trans ih

theorem Grounded.grows_merge (hs : Grounded log s) : Grows s (s.mergeFrom t) where
  mints h := by
    obtain ⟨merged, hmerged, hsame⟩ := merged_of_holds (t := t) (.inl h)
    exact ⟨merged, hmerged, hsame.imp_right fun hc => hs.mem_revoked_mergeFrom.mpr (.inr (.inl hc))⟩
  revoked _ h := hs.mem_revoked_mergeFrom.mpr (.inl (.inl h))
  consumed := (mergeFrom_rest s t).2.1 ▸ subset_union_left
  revokedGrants := (mergeFrom_rest s t).2.2 ▸ subset_union_left

/-! ## Dead stays dead -/

/-- Whether one id is the other, or an ancestor of it. -/
def Above (s : SlipAuthorityState) : Bytes32 → Bytes32 → Prop :=
  Relation.ReflTransGen fun id p => ∃ slip, s.mints[id]? = some slip ∧ slip.parentId = some p

/-- A slip that was withdrawn: it or an ancestor was revoked or consumed, or minted under a
withdrawn grant. -/
def Withdrawn (s : SlipAuthorityState) (id : Bytes32) : Prop :=
  ∃ above, s.Above id above ∧ (above ∈ s.revoked ∨ above ∈ s.consumed ∨
    ∃ slip, s.mints[above]? = some slip ∧ s.underRevokedGrant slip.claims)

theorem Above.mem_lineage {above : Bytes32} (h : s.Above id above)
    (hids : Lineage s (some id) ids path) : above ∈ ids := by
  induction h using Relation.ReflTransGen.head_induction_on generalizing ids path with
  | refl =>
    obtain _ | ⟨-, -⟩ := hids
    exact List.mem_cons_self
  | head hstep _ ih =>
    obtain ⟨slip, hslip, hp⟩ := hstep
    obtain _ | ⟨hmint, habove⟩ := hids
    obtain rfl := some.inj (hslip.symm.trans hmint)
    rw [hp] at habove
    exact List.mem_cons_of_mem _ (ih habove)

/-- **A withdrawn slip is not live.** -/
theorem Grounded.not_live (hs : Grounded log s) (h : s.Withdrawn id) : ¬s.ancestryLive id := by
  rw [ancestryLive_iff]
  rintro ⟨ids, path, hids, hlive⟩
  obtain ⟨above, habove, hr | hc | ⟨slip, hslip, hunder⟩⟩ := h
  · exact (hlive above (habove.mem_lineage hids)).1 hr
  · exact (hlive above (habove.mem_lineage hids)).2 hc
  · exact (hlive above (habove.mem_lineage hids)).1 (hs.tombstoned hslip hunder)

/-- A lineage that lives later lived before, from a slip minted before on. -/
theorem Confined.lineage_before {current : Option Bytes32} (hs : Confined log s)
    (hgrows : Grows s t) (h : Lineage t current ids path) (hlive : ∀ above ∈ ids, above ∉ t.revoked)
    (hminted : ∀ id ∈ current, id ∈ s.mints) : Lineage s current ids path := by
  induction h with
  | root => exact .root
  | @child id mint ids path hmint _ ih =>
    rw [List.forall_mem_cons] at hlive
    have hid := hminted id rfl
    rw [mem_iff_isSome_getElem?, isSome_iff_exists] at hid
    obtain ⟨slip, hslip⟩ := hid
    obtain ⟨slip', hslip', rfl | hr⟩ := hgrows.mints hslip
    · obtain rfl := some.inj (hslip'.symm.trans hmint)
      refine .child hslip (ih hlive.2 fun p hp => ?_)
      obtain ⟨prior, hprior, -⟩ := hs.parent hslip hp
      exact mem_iff_isSome_getElem?.mpr (by simp [hprior])
    · exact absurd hr hlive.1

/-- **What is minted and not live is live in nothing that grows from it.** -/
theorem Confined.not_live_of_grows (hs : Confined log s) (hgrows : Grows s t) (hid : id ∈ s.mints)
    (h : ¬s.ancestryLive id) : ¬t.ancestryLive id := by
  intro ht
  obtain ⟨ids, path, hids, hlive⟩ := ancestryLive_iff.mp ht
  refine h (ancestryLive_iff.mpr ⟨ids, path, hs.lineage_before hgrows hids
    (fun above habove => (hlive above habove).1) (by simpa using hid), fun above habove => ?_⟩)
  exact ⟨fun hr => (hlive above habove).1 (hgrows.revoked hr),
    fun hc => (hlive above habove).2 (hgrows.consumed hc)⟩

/-- A slip withdrawn in one state is live in nothing that grows from it. -/
theorem Confined.not_live_of_withdrawn (hs : Confined log s) (hgrows : Grows s t)
    (h : s.Withdrawn id) : ¬t.ancestryLive id := by
  by_cases hid : id ∈ s.mints
  · exact hs.not_live_of_grows hgrows hid (hs.not_live h)
  · -- an unminted id has no ancestor but itself
    obtain ⟨above, habove, hdead⟩ := h
    obtain rfl | ⟨_, ⟨slip, hslip, -⟩, -⟩ := habove.cases_head
    · rw [ancestryLive_iff]
      rintro ⟨ids, path, hids, hlive⟩
      have hmem : id ∈ ids := Above.mem_lineage .refl hids
      rcases hdead with hr | hc | ⟨slip, hslip, -⟩
      · exact (hlive id hmem).1 (hgrows.revoked hr)
      · exact (hlive id hmem).2 (hgrows.consumed hc)
      · exact hid (mem_iff_isSome_getElem?.mpr (by simp [hslip]))
    · exact absurd (mem_iff_isSome_getElem?.mpr (by simp [hslip])) hid

/-! ## Live stays confined -/

/-- **A live lineage narrows at every link**, so its first slip narrows every slip of it. -/
theorem Confined.narrows_of_lineage (hs : Confined log s) (h : Lineage s (some id) ids path)
    (hlive : ∀ above ∈ ids, above ∉ s.revoked) (hslip : s.mints[id]? = some slip) :
    ∀ above ∈ path, slip.claims.narrows above.claims := by
  generalize hcurrent : some id = current at h
  induction h generalizing id slip with
  | root => cases hcurrent
  | @child id' mint ids path hmint hrest ih =>
    obtain rfl := some.inj hcurrent
    obtain rfl := some.inj (hslip.symm.trans hmint)
    rw [List.forall_mem_cons] at hlive ⊢
    refine ⟨SlipClaims.narrows_refl _, fun above habove => ?_⟩
    cases hp : slip.parentId with
    | none =>
      rw [hp] at hrest
      cases hrest
      cases habove
    | some p =>
      obtain ⟨prior, hprior, hnarrow⟩ := hs.parent hslip hp
      have hp' : p ∈ ids := by
        rw [hp] at hrest
        exact Above.mem_lineage .refl hrest
      have hnarrow : slip.claims.narrows prior.claims :=
        hnarrow.resolve_right (not_or.mpr ⟨hlive.1, hlive.2 p hp'⟩)
      exact SlipClaims.narrows_trans hnarrow (ih hlive.2 hprior hp.symm above habove)

end SlipAuthorityState

/-! ## Every forking log -/

open SlipAuthorityState

variable {validates : SlipMintAction → Bool} {log : Bytes32 → SlipEntry}
  {before : Bytes32 → Bytes32 → Prop} {past : Set Bytes32} {s t : SlipAuthorityState}

/-- The slips folded from a log: each row by its hash, checked by `validates` where it mints. -/
def slipFold (validates : SlipMintAction → Bool) (log : Bytes32 → SlipEntry)
    (before : Bytes32 → Bytes32 → Prop) : Forking SlipAuthorityState Bytes32 where
  start := {}
  land s hash t := s.apply validates (log hash) hash = some t
  merge s t merged := merged = s.mergeFrom t
  before := before

theorem confined_of_folded (h : (slipFold validates log before).Folded past s) : Confined log s :=
  h.invariant (fun _ s => Confined log s) Confined.start (fun h _ hland => h.apply hland)
    fun {_ _ s t _} h h' hmerge => by
      obtain rfl : _ = s.mergeFrom t := hmerge
      exact h.merge h'

theorem grows_of_later (h : (slipFold validates log before).Later s t) : Grows s t := by
  refine h.leads Grows (.refl _) .trans (fun _ hland => grows_apply hland)
    fun {_ _ s t _} hs ht hmerge => ?_
  have cs := confined_of_folded hs
  have ct := confined_of_folded ht
  obtain rfl : _ = s.mergeFrom t := hmerge
  refine ⟨cs.grows_merge, ?_⟩
  rw [cs.mergeFrom_comm ct.toGrounded]
  exact ct.grows_merge

/-- **Slips are a monotone, confined delegation.**  On every forking log: states merge as a
semilattice; a slip that is withdrawn, or minted and not live, is live in no state that has that one
in its ancestry; a live slip narrows every slip of its lineage; and a slip the other branch minted
differently, or whose grant the other branch withdrew, is live in nothing merged from the two, in
either order. -/
theorem slips_confined (validates : SlipMintAction → Bool) (log : Bytes32 → SlipEntry)
    (before : Bytes32 → Bytes32 → Prop) {pastₛ pastₜ pastᵤ : Set Bytes32} {s t u : SlipAuthorityState}
    (hs : (slipFold validates log before).Folded pastₛ s)
    (ht : (slipFold validates log before).Folded pastₜ t)
    (hu : (slipFold validates log before).Folded pastᵤ u) :
    (s.mergeFrom s = s ∧ s.mergeFrom t = t.mergeFrom s ∧
      (s.mergeFrom t).mergeFrom u = s.mergeFrom (t.mergeFrom u)) ∧
    (∀ id, s.Withdrawn id ∨ (id ∈ s.mints ∧ ¬s.ancestryLive id) →
      ∀ later, (slipFold validates log before).Later s later →
        ¬later.ancestryLive id ∧ ∀ roster, ¬later.isLive id roster) ∧
    (∀ id slip path, s.mints[id]? = some slip → s.ancestors id = some path →
      ∀ above ∈ path, slip.claims.narrows above.claims) ∧
    (∀ id slip, s.mints[id]? = some slip →
      (underGrants t.revokedGrants slip.claims ∨ ∃ other ∈ t.mints[id]?, other ≠ slip) →
      ∀ merged ∈ [s.mergeFrom t, t.mergeFrom s],
        ∀ later, (slipFold validates log before).Later merged later →
          ¬later.ancestryLive id ∧ ∀ roster, ¬later.isLive id roster) := by
  have cs := confined_of_folded hs
  have ct := confined_of_folded ht
  have cu := confined_of_folded hu
  have hcomm := cs.mergeFrom_comm ct.toGrounded
  refine ⟨⟨mergeFrom_self s, hcomm, cs.mergeFrom_assoc ct.toGrounded cu.toGrounded⟩,
    fun id hdead later hlater => ?_, fun id slip path hslip hpath => ?_, fun id slip hslip hother => ?_⟩
  · have hnot : ¬later.ancestryLive id := by
      have hgrows := grows_of_later hlater
      exact hdead.elim (cs.not_live_of_withdrawn hgrows) fun h => cs.not_live_of_grows hgrows h.1 h.2
    exact ⟨hnot, fun _ h => hnot (ancestryLive_of_isLive h)⟩
  · obtain ⟨ids, hids, hlive⟩ := ancestors_eq_some.mp hpath
    exact cs.narrows_of_lineage hids (fun above habove => (hlive above habove).1) hslip
  · have hrevoked : id ∈ (s.mergeFrom t).revoked := by
      refine cs.mem_revoked_mergeFrom.mpr (.inr ?_)
      rcases hother with hunder | ⟨other, hheld, hne⟩
      · exact .inr ⟨slip, .inl hslip, underGrants_mono subset_union_right hunder⟩
      · exact .inl ⟨slip, other, hslip, hheld, hne.symm⟩
    intro merged hmerged later hlater
    have heq : merged = s.mergeFrom t := by simpa [← hcomm] using hmerged
    subst heq
    have hnot : ¬later.ancestryLive id :=
      (confined_of_folded (.merge hs ht rfl)).not_live_of_withdrawn (grows_of_later hlater)
        ⟨id, .refl, .inl hrevoked⟩
    exact ⟨hnot, fun _ h => hnot (ancestryLive_of_isLive h)⟩

/-- A guest's slip, minted under a grant. -/
def guestSlip : SlipClaims :=
  { slipId := .of 1, vaultId := .of 9, holderRef := [104], bindingKey := .of 7, scope := .top
    issuedAt := 0, expiresAt := 10, ttlSecs := 5, grantRef := some (EntityId.filled 3).toHex }

/-- One branch mints the guest's slip, another withdraws its grant. -/
def guestLog (hash : Bytes32) : SlipEntry :=
  if hash = .of 1 then ⟨some (.of 9), .ed25519 (.of 2), .slipMint ⟨guestSlip, none, none⟩⟩
  else ⟨some (.of 9), .ed25519 (.of 2), .slipGrantRevoke (.filled 3)⟩

/-- The guest's slip is live on its own branch, and dead when the other comes in. -/
theorem slips_confined_guest :
    let minted := (({} : SlipAuthorityState).apply (fun _ => true) (guestLog (.of 1)) (.of 1)).getD {}
    let withdrawn := ({} : SlipAuthorityState).revokeGrant (EntityId.filled 3).toHex
    minted.ancestryLive (.of 1) ∧ ¬(withdrawn.mergeFrom minted).ancestryLive (.of 1) := by
  intro minted withdrawn
  have hminted : (slipFold (fun _ => true) guestLog fun _ _ => False).Folded (insert (.of 1) ∅)
      minted := .land .start (fun _ h => h.elim) rfl
  have hwithdrawn : (slipFold (fun _ => true) guestLog fun _ _ => False).Folded (insert (.of 2) ∅)
      withdrawn := .land .start (fun _ h => h.elim) rfl
  have hslip : minted.mints[Bytes32.of 1]? =
      some ⟨⟨guestSlip, none, none⟩, .ed25519 (.of 2), .of 1⟩ := by decide
  have hunder : underGrants withdrawn.revokedGrants guestSlip := by decide
  exact ⟨by decide, ((slips_confined _ _ _ hminted hwithdrawn .start).2.2.2 _ _ hslip (.inl hunder) _
    (by simp) _ .refl).1⟩

end Oneiron
