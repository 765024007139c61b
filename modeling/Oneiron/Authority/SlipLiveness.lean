import Oneiron.Authority.SlipMerge

/-!
# Authority/SlipLiveness — a dead slip stays dead, a live one is confined

The walk up a slip's parents finds its lineage exactly when no slip of it is dead
(`ancestors_eq_some`).  Landing and merging only add withdrawals, and replace a mint only at an id
they revoke (`Grows`), so whatever lineage lives later lived before: what died stays dead.  A mint
narrowed its parent when it landed, and a branch that minted the parent differently revokes it.
-/

open Std

namespace Oneiron

open Option

namespace SlipAuthorityState

variable {s t u : SlipAuthorityState} {id : Bytes32} {slip : FoldedSlip}

/-! ## Lineage -/

/-- The ids and the mints from an id up to its root. -/
inductive Lineage (s : SlipAuthorityState) : Option Bytes32 → List Bytes32 → List FoldedSlip → Prop
  | root : Lineage s none [] []
  | child {id : Bytes32} {mint : FoldedSlip} {ids : List Bytes32} {path : List FoldedSlip} :
      s.mints[id]? = some mint → Lineage s mint.parentId ids path →
      Lineage s (some id) (id :: ids) (mint :: path)

namespace Lineage

variable {current : Option Bytes32} {ids ids' : List Bytes32} {path path' : List FoldedSlip}

section

variable (h : Lineage s current ids path)

include h

theorem ids_eq (h' : Lineage s current ids' path') : ids = ids' := by
  induction h generalizing ids' path' with
  | root =>
    cases h'
    rfl
  | child hmint _ ih =>
    obtain _ | ⟨hmint', h'⟩ := h'
    obtain rfl := some.inj (hmint.symm.trans hmint')
    rw [ih h']

/-- Every id of a lineage has the rest of it as its own. -/
theorem suffix (hid : id ∈ ids) :
    ∃ rest above, Lineage s (some id) rest above ∧ rest.length ≤ ids.length := by
  induction h with
  | root => simp at hid
  | child hmint h ih =>
    rcases List.mem_cons.mp hid with rfl | hid
    · exact ⟨_, _, .child hmint h, le_rfl⟩
    · obtain ⟨rest, above, hrest, hle⟩ := ih hid
      exact ⟨rest, above, hrest, hle.trans (Nat.le_succ _)⟩

/-- **A lineage that ends meets no id twice.** -/
theorem nodup : ids.Nodup := by
  induction h with
  | root => exact List.nodup_nil
  | child hmint h ih =>
    refine List.nodup_cons.mpr ⟨fun hid => ?_, ih⟩
    obtain ⟨rest, above, hrest, hle⟩ := h.suffix hid
    have := (Lineage.child hmint h).ids_eq hrest
    simp [← this] at hle

theorem minted (hid : id ∈ ids) : id ∈ s.mints := by
  obtain ⟨_, _, hrest, -⟩ := h.suffix hid
  obtain _ | ⟨hmint, -⟩ := hrest
  exact ExtTreeMap.mem_iff_isSome_getElem?.mpr (by simp [hmint])

theorem length_le : ids.length ≤ s.mints.size := by
  rw [← ExtTreeMap.length_keys]
  exact (List.subperm_of_subset h.nodup fun id hid => ExtTreeMap.mem_keys.mpr (h.minted hid)).length_le

end

end Lineage

/-! ## The walk -/

section Walk

variable {dead : Bytes32 → Bool} {fuel : ℕ} {seen : Finset Bytes32} {current : Option Bytes32}
  {path : List FoldedSlip} {ids : List Bytes32}

theorem lineage_of_walk (h : s.walk dead fuel seen current = some path) :
    ∃ ids, Lineage s current ids path ∧ ∀ id ∈ ids, dead id = false := by
  induction fuel generalizing seen current path with
  | zero =>
    cases current with
    | none => exact ⟨[], some.inj h ▸ .root, by simp⟩
    | some id => cases h
  | succ fuel ih =>
    cases current with
    | none => exact ⟨[], some.inj h ▸ .root, by simp⟩
    | some id =>
      simp only [walk] at h
      split at h
      · cases h
      · next hlive =>
        rw [not_or] at hlive
        cases hmint : s.mints[id]? with
        | none => simp [hmint] at h
        | some mint =>
          simp only [hmint, map_eq_some_iff] at h
          obtain ⟨above, habove, rfl⟩ := h
          obtain ⟨ids, hids, hdead⟩ := ih habove
          refine ⟨id :: ids, .child hmint hids, List.forall_mem_cons.mpr ⟨?_, hdead⟩⟩
          simpa using hlive.2

theorem walk_of_lineage (h : Lineage s current ids path) (hdead : ∀ id ∈ ids, dead id = false)
    (hseen : ∀ id ∈ ids, id ∉ seen) (hfuel : ids.length ≤ fuel) :
    s.walk dead fuel seen current = some path := by
  have hnodup := h.nodup
  induction h generalizing fuel seen with
  | root => cases fuel <;> rfl
  | child hmint h ih =>
    obtain ⟨fuel, rfl⟩ : ∃ n, fuel = n + 1 := ⟨fuel - 1, by simp at hfuel; omega⟩
    rw [List.forall_mem_cons] at hdead hseen
    rw [List.nodup_cons] at hnodup
    simp only [walk, hmint]
    rw [if_neg (by simp [hdead.1, hseen.1]), ih hdead.2 ?_ (by simpa using hfuel) hnodup.2]
    · rfl
    · intro id hid hin
      rcases Finset.mem_insert.mp hin with rfl | hin
      · exact hnodup.1 hid
      · exact hseen.2 id hid hin

end Walk

/-- **A slip's ancestors are its lineage, when no slip of it is revoked or consumed.** -/
theorem ancestors_eq_some {path : List FoldedSlip} : s.ancestors id = some path ↔
    ∃ ids, Lineage s (some id) ids path ∧ ∀ above ∈ ids, above ∉ s.revoked ∧ above ∉ s.consumed := by
  constructor
  · intro h
    obtain ⟨ids, hids, hdead⟩ := lineage_of_walk h
    exact ⟨ids, hids, fun above habove => by simpa using hdead above habove⟩
  · rintro ⟨ids, hids, hdead⟩
    exact walk_of_lineage hids (fun above habove => by simpa using hdead above habove) (by simp)
      (hids.length_le.trans (Nat.le_succ _))

theorem ancestryLive_iff : s.ancestryLive id ↔ ∃ ids path, Lineage s (some id) ids path ∧
    ∀ above ∈ ids, above ∉ s.revoked ∧ above ∉ s.consumed := by
  rw [ancestryLive, isSome_iff_exists]
  simp only [ancestors_eq_some]
  exact exists_comm

/-- A slip is live for some roster only while its ancestry is. -/
theorem ancestryLive_of_isLive {roster : Roster} (h : s.isLive id roster) : s.ancestryLive id := by
  unfold isLive hostsLive at h
  unfold ancestryLive
  cases ha : s.ancestors id with
  | none => simp [ha] at h
  | some _ => rfl

/-! ## What grows -/

/-- What landing and merging do to a state: withdrawals are added, and a mint is replaced only at an
id that is revoked. -/
structure Grows (s t : SlipAuthorityState) : Prop where
  mints : ∀ {id : Bytes32} {slip : FoldedSlip}, s.mints[id]? = some slip →
    ∃ slip', t.mints[id]? = some slip' ∧ (slip' = slip ∨ id ∈ t.revoked)
  revoked : s.revoked ⊆ t.revoked
  consumed : s.consumed ⊆ t.consumed
  revokedGrants : s.revokedGrants ⊆ t.revokedGrants

namespace Grows

theorem refl (s : SlipAuthorityState) : Grows s s :=
  ⟨fun h => ⟨_, h, .inl rfl⟩, subset_rfl, subset_rfl, subset_rfl⟩

theorem trans (h : Grows s t) (h' : Grows t u) : Grows s u where
  mints hs := by
    obtain ⟨b, ht, hb⟩ := h.mints hs
    obtain ⟨c, hu, hc⟩ := h'.mints ht
    refine ⟨c, hu, ?_⟩
    rcases hc with rfl | hc
    · exact hb.imp_right (h'.revoked ·)
    · exact .inr hc
  revoked := h.revoked.trans h'.revoked
  consumed := h.consumed.trans h'.consumed
  revokedGrants := h.revokedGrants.trans h'.revokedGrants

/-- Withdrawals alone, the mints as they are. -/
theorem withdraw (hm : t.mints = s.mints) (hr : s.revoked ⊆ t.revoked) (hc : s.consumed ⊆ t.consumed)
    (hg : s.revokedGrants ⊆ t.revokedGrants) : Grows s t :=
  ⟨fun h => ⟨_, hm ▸ h, .inl rfl⟩, hr, hc, hg⟩

end Grows

theorem grows_revokeGrant (s : SlipAuthorityState) (grant : Bytes) : Grows s (s.revokeGrant grant) := by
  unfold revokeGrant
  split
  · exact .refl s
  · exact .withdraw rfl Finset.subset_union_left subset_rfl (Finset.subset_insert _ _)

variable {validates : SlipMintAction → Bool} {hash : Bytes32}

/-- What a mint that lands was checked for. -/
theorem mint_eq_some {vaultId : Option Bytes32} {signer : AuthorityKey} {action : SlipMintAction}
    (h : s.mint validates vaultId signer action hash = some t) :
    s.mints[action.claims.slipId]? = none ∧
      (∀ parent ∈ action.claims.parentId, ∃ prior, s.mints[parent]? = some prior ∧
        action.claims.narrows prior.claims) ∧
      t = { s with
        revoked := if s.underRevokedGrant action.claims then insert action.claims.slipId s.revoked
          else s.revoked
        mints := s.mints.insert action.claims.slipId ⟨action, signer, hash⟩ } := by
  simp only [mint] at h
  split at h
  · cases h
  · next hnew =>
    simp only [Bool.or_eq_true, decide_eq_true_eq, not_or] at hnew
    split at h
    · cases h
    · next hparent =>
      refine ⟨by simpa using hnew.1.1.2, fun parent hp => ?_, (some.inj h).symm⟩
      rw [mem_def] at hp
      simp only [narrowsLiveParent, hp, Bool.not_eq_true', Bool.not_eq_false] at hparent
      cases hprior : s.mints[parent]? with
      | none => simp [hprior] at hparent
      | some prior =>
        simp only [hprior, Bool.and_eq_true] at hparent
        exact ⟨prior, rfl, hparent.1⟩

/-- What consuming burns is all it changes. -/
theorem consume_eq_some (h : s.consume id = some t) :
    ∃ burnt, t = { s with consumed := s.consumed ∪ burnt } := by
  unfold consume at h
  split at h
  · obtain ⟨burn, -, rfl⟩ := map_eq_some_iff.mp h
    exact ⟨_, rfl⟩
  · cases h

theorem consumeArchive_eq_some {member : EntityId} (h : s.consumeArchive id member = some t) :
    ∃ burnt, t = { s with consumed := s.consumed ∪ burnt } := by
  unfold consumeArchive at h
  split at h
  · cases h
  · split at h
    · exact ⟨{id}, by rw [Finset.union_comm]; exact (some.inj h).symm⟩
    · cases h

/-- **An entry mints at a new id, burns ids, revokes an id, or withdraws grants.** -/
theorem apply_cases {entry : SlipEntry} (h : s.apply validates entry hash = some t) :
    (∃ action, entry.op = .slipMint action ∧
        s.mint validates entry.vaultId entry.signer action hash = some t) ∨
      (∃ burnt, t = { s with consumed := s.consumed ∪ burnt }) ∨
      (∃ slipId, t = { s with
        revoked := insert slipId s.revoked
        explicitRevoked := insert slipId s.explicitRevoked }) ∨
      ∃ grants : List EntityId, t = grants.foldl (fun s grant => s.revokeGrant grant.toHex) s := by
  unfold apply at h
  split at h
  · next action hop => exact .inl ⟨action, hop, h⟩
  · exact .inr (.inr (.inl ⟨_, (some.inj h).symm⟩))
  · next grant _ => exact .inr (.inr (.inr ⟨[grant], (some.inj h).symm⟩))
  · exact .inr (.inl (consume_eq_some h))
  · exact .inr (.inl (consumeArchive_eq_some h))
  · next grants _ => exact .inr (.inr (.inr ⟨grants, (some.inj h).symm⟩))
  · exact .inr (.inr (.inr ⟨[], (some.inj h).symm⟩))

end SlipAuthorityState

end Oneiron
