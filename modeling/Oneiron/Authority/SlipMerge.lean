import Oneiron.Authority.SlipState
import Oneiron.Foundations.Forking

/-!
# Authority/SlipMerge — merging slip states is a semilattice

States folded from one log are *grounded*: each mint is the one its row carries, and a mint under a
grant its own state withdrew is revoked.  Between grounded states a merge is what the two sides hold
(`getElem?_mergeFrom`, `mem_revoked_mergeFrom`): at each id the mint of the smaller row hash, and
revoked is what either side revoked, what two sides minted differently, and what any side minted
under a grant any side withdrew.
-/

open Std

namespace Oneiron

open Finset

namespace SlipAuthorityState

variable {s t u : SlipAuthorityState} {id : Bytes32} {slip : FoldedSlip}

/-! ## One mint at two ids -/

/-- The mint of the smaller row hash. -/
def earlier (prior mint : FoldedSlip) : FoldedSlip :=
  if compare mint.entryHash prior.entryHash = .lt then mint else prior

theorem earlier_eq_or (a b : FoldedSlip) : earlier a b = a ∨ earlier a b = b := by
  unfold earlier
  split
  · exact .inr rfl
  · exact .inl rfl

@[simp] theorem earlier_self (a : FoldedSlip) : earlier a a = a := by simp [earlier]

theorem earlier_isLE (a b : FoldedSlip) :
    (compare (earlier a b).entryHash a.entryHash).isLE ∧
      (compare (earlier a b).entryHash b.entryHash).isLE := by
  unfold earlier
  split
  · next h => exact ⟨by simp [h], by simp⟩
  · next h =>
    refine ⟨by simp, ?_⟩
    rw [← Ordering.isGE_swap, ← OrientedCmp.eq_swap]
    cases hc : compare b.entryHash a.entryHash <;> simp_all

/-- Whether claims were minted under one of a set of grants. -/
def underGrants (grants : Finset Bytes) (claims : SlipClaims) : Bool :=
  claims.grantRef.any (· ∈ grants)

theorem underGrants_mono {grants grants' : Finset Bytes} {claims : SlipClaims} (h : grants ⊆ grants')
    (hunder : underGrants grants claims) : underGrants grants' claims := by
  unfold underGrants at hunder ⊢
  cases hg : claims.grantRef with
  | none => simp [hg] at hunder
  | some grant =>
    simp only [hg, Option.any_some, decide_eq_true_eq] at hunder ⊢
    exact h hunder

theorem underRevokedGrant_eq (s : SlipAuthorityState) (claims : SlipClaims) :
    s.underRevokedGrant claims = underGrants s.revokedGrants claims := rfl

/-! ## Tombstones -/

@[simp] theorem mem_tombstone {withdrawn : Bytes → Bool} :
    id ∈ (s.tombstoneWithdrawnGrants withdrawn).revoked ↔
      id ∈ s.revoked ∨ ∃ slip, s.mints[id]? = some slip ∧ slip.claims.grantRef.any withdrawn := by
  simp only [tombstoneWithdrawnGrants, mem_union, List.mem_toFinset, List.mem_map,
    List.mem_filter, decide_eq_true_eq]
  constructor
  · rintro (h | ⟨⟨_, slip⟩, ⟨hslip, -, hany⟩, rfl⟩)
    · exact .inl h
    · exact .inr ⟨slip, ExtTreeMap.mem_toList_iff_getElem?_eq_some.mp hslip, hany⟩
  · rintro (h | ⟨slip, hslip, hany⟩)
    · exact .inl h
    · refine (em (id ∈ s.revoked)).imp_right fun hid => ⟨(id, slip), ⟨?_, hid, hany⟩, rfl⟩
      exact ExtTreeMap.mem_toList_iff_getElem?_eq_some.mpr hslip

/-! ## What a merge holds -/

/-- The loop takes in mints and touches nothing else. -/
theorem foldl_mergeMint (l : List (Bytes32 × FoldedSlip)) (s : SlipAuthorityState) :
    (l.foldl mergeMint s).explicitRevoked = s.explicitRevoked ∧
      (l.foldl mergeMint s).consumed = s.consumed ∧
      (l.foldl mergeMint s).revokedGrants = s.revokedGrants := by
  induction l generalizing s with
  | nil => exact ⟨rfl, rfl, rfl⟩
  | cons p l ih =>
    have hp : (s.mergeMint p).explicitRevoked = s.explicitRevoked ∧
        (s.mergeMint p).consumed = s.consumed ∧
        (s.mergeMint p).revokedGrants = s.revokedGrants := by
      simp only [mergeMint]
      split
      · split <;> exact ⟨rfl, rfl, rfl⟩
      · exact ⟨rfl, rfl, rfl⟩
    obtain ⟨he, hc, hg⟩ := ih (s.mergeMint p)
    exact ⟨he.trans hp.1, hc.trans hp.2.1, hg.trans hp.2.2⟩

/-- What the loop sees at an id. -/
def seenAt (s : SlipAuthorityState) (id : Bytes32) : Option FoldedSlip × Prop × Finset Bytes :=
  (s.mints[id]?, id ∈ s.revoked, s.revokedGrants)

/-- What one turn of the loop leaves at its id. -/
def turnAt (at_ : Option FoldedSlip × Prop × Finset Bytes) (mint : FoldedSlip) :
    Option FoldedSlip × Prop × Finset Bytes :=
  (some (at_.1.elim mint (earlier · mint)),
    at_.2.1 ∨ at_.1.elim (underGrants at_.2.2 mint.claims = true) (· ≠ mint), at_.2.2)

theorem seenAt_mergeMint_self (s : SlipAuthorityState) (id : Bytes32) (mint : FoldedSlip) :
    seenAt (s.mergeMint (id, mint)) id = turnAt (seenAt s id) mint := by
  simp only [seenAt, turnAt, mergeMint]
  cases hs : s.mints[id]? with
  | none =>
    cases hu : s.underRevokedGrant mint.claims <;>
      simp [← underRevokedGrant_eq, hu, or_comm]
  | some prior =>
    by_cases hne : prior = mint
    · simp [hne, hs]
    · by_cases hlt : compare mint.entryHash prior.entryHash = .lt <;> simp [hne, hs, earlier, hlt]

theorem seenAt_mergeMint_ne (s : SlipAuthorityState) (id : Bytes32) (mint : FoldedSlip) {j : Bytes32}
    (hj : j ≠ id) : seenAt (s.mergeMint (id, mint)) j = seenAt s j := by
  simp only [seenAt, mergeMint]
  split
  · split
    · split <;> simp [ExtTreeMap.getElem?_insert, hj, hj.symm]
    · rfl
  · cases s.underRevokedGrant mint.claims <;> simp [ExtTreeMap.getElem?_insert, hj, hj.symm]

variable (s t) in
/-- Both branches' withdrawals, before the other's mints come in. -/
def unioned : SlipAuthorityState :=
  { s with
    revoked := s.revoked ∪ t.revoked
    explicitRevoked := s.explicitRevoked ∪ t.explicitRevoked
    consumed := s.consumed ∪ t.consumed
    revokedGrants := s.revokedGrants ∪ t.revokedGrants }

variable (s t) in
theorem mergeFrom_eq : s.mergeFrom t =
    if ¬t.revokedGrants ⊆ s.revokedGrants then
      (t.mints.toList.foldl mergeMint (unioned s t)).tombstoneRevokedGrants
    else t.mints.toList.foldl mergeMint (unioned s t) := rfl

theorem seenAt_loop (s t : SlipAuthorityState) (id : Bytes32) :
    seenAt (t.mints.toList.foldl mergeMint (unioned s t)) id =
      t.mints[id]?.elim (seenAt (unioned s t) id) (turnAt (seenAt (unioned s t) id)) :=
  OrderedMap.foldl_at seenAt mergeMint (fun _ => turnAt) seenAt_mergeMint_self
    (fun s id mint _ => seenAt_mergeMint_ne s id mint) t.mints (unioned s t) id

/-- **A merge holds, at each id, the mint of the smaller row hash.** -/
theorem getElem?_mergeFrom (s t : SlipAuthorityState) (id : Bytes32) :
    (s.mergeFrom t).mints[id]? = Option.merge earlier s.mints[id]? t.mints[id]? := by
  have hmints : (s.mergeFrom t).mints = (t.mints.toList.foldl mergeMint (unioned s t)).mints := by
    rw [mergeFrom_eq]
    split <;> rfl
  have hloop := congrArg Prod.fst (seenAt_loop s t id)
  rw [hmints]
  refine hloop.trans ?_
  cases ht : t.mints[id]? <;> cases hs : s.mints[id]? <;> simp [seenAt, turnAt, unioned, hs]

theorem mergeFrom_rest (s t : SlipAuthorityState) :
    (s.mergeFrom t).explicitRevoked = s.explicitRevoked ∪ t.explicitRevoked ∧
      (s.mergeFrom t).consumed = s.consumed ∪ t.consumed ∧
      (s.mergeFrom t).revokedGrants = s.revokedGrants ∪ t.revokedGrants := by
  rw [mergeFrom_eq]
  split <;> exact foldl_mergeMint t.mints.toList (unioned s t)

/-- What the loop alone revokes. -/
theorem mem_revoked_loop (s t : SlipAuthorityState) (id : Bytes32) :
    id ∈ (t.mints.toList.foldl mergeMint (unioned s t)).revoked ↔
      (id ∈ s.revoked ∨ id ∈ t.revoked) ∨ ∃ mint, t.mints[id]? = some mint ∧
        s.mints[id]?.elim (underGrants (s.revokedGrants ∪ t.revokedGrants) mint.claims = true)
          (· ≠ mint) := by
  have hloop := congrArg (·.2.1) (seenAt_loop s t id)
  refine (Iff.of_eq hloop).trans ?_
  cases ht : t.mints[id]? <;> simp [seenAt, turnAt, unioned]

/-! ## Grounded states -/

/-- What every state folded from a log keeps. -/
structure Grounded (log : Bytes32 → SlipEntry) (s : SlipAuthorityState) : Prop where
  source : ∀ {id : Bytes32} {slip : FoldedSlip}, s.mints[id]? = some slip → (log slip.entryHash).op = .slipMint slip.action ∧
    (log slip.entryHash).signer = slip.signer ∧ slip.claims.slipId = id
  tombstoned : ∀ {id : Bytes32} {slip : FoldedSlip}, s.mints[id]? = some slip → s.underRevokedGrant slip.claims →
    id ∈ s.revoked

variable {log : Bytes32 → SlipEntry}

/-- A row carries one mint. -/
theorem Grounded.eq_of_hash (hs : Grounded log s) (ht : Grounded log t) {id id' : Bytes32}
    {a b : FoldedSlip} (ha : s.mints[id]? = some a) (hb : t.mints[id']? = some b)
    (h : a.entryHash = b.entryHash) : a = b := by
  obtain ⟨hop, hsigner, -⟩ := hs.source ha
  obtain ⟨hop', hsigner', -⟩ := ht.source hb
  rw [h] at hop hsigner
  obtain ⟨action, signer, hash⟩ := a
  simp_all

/-- Whether one of two sides holds a mint at an id. -/
def Holds (s t : SlipAuthorityState) (id : Bytes32) (slip : FoldedSlip) : Prop :=
  s.mints[id]? = some slip ∨ t.mints[id]? = some slip

theorem holds_of_merged (h : (s.mergeFrom t).mints[id]? = some slip) : Holds s t id slip := by
  rw [getElem?_mergeFrom] at h
  unfold Holds
  cases hs : s.mints[id]? <;> cases ht : t.mints[id]? <;> simp_all
  exact (earlier_eq_or _ _).imp (·.symm.trans h) (·.symm.trans h)

/-- Whether two sides hold different mints at an id. -/
def Collides (s t : SlipAuthorityState) (id : Bytes32) : Prop :=
  ∃ a b, s.mints[id]? = some a ∧ t.mints[id]? = some b ∧ a ≠ b

/-- A mint a side holds is the merge's, unless the sides collide. -/
theorem merged_of_holds (h : Holds s t id slip) :
    ∃ merged, (s.mergeFrom t).mints[id]? = some merged ∧ (merged = slip ∨ Collides s t id) := by
  rw [getElem?_mergeFrom]
  unfold Holds at h
  cases hs : s.mints[id]? with
  | none => simp_all
  | some a =>
    cases ht : t.mints[id]? with
    | none => simp_all
    | some b =>
      refine ⟨earlier a b, rfl, ?_⟩
      by_cases hab : a = b
      · subst hab
        simp_all
      · exact .inr ⟨a, b, hs, ht, hab⟩

/-- **A merge revokes what either side revoked, what the sides minted differently, and what either
minted under a grant either withdrew.** -/
theorem Grounded.mem_revoked_mergeFrom (hs : Grounded log s) :
    id ∈ (s.mergeFrom t).revoked ↔ (id ∈ s.revoked ∨ id ∈ t.revoked) ∨ Collides s t id ∨
      ∃ slip, Holds s t id slip ∧
        underGrants (s.revokedGrants ∪ t.revokedGrants) slip.claims := by
  have hmints : ∀ {slip}, (t.mints.toList.foldl mergeMint (unioned s t)).mints[id]? = some slip ↔
      (s.mergeFrom t).mints[id]? = some slip := by
    intro slip
    rw [mergeFrom_eq]
    split <;> rfl
  have hgrants : (t.mints.toList.foldl mergeMint (unioned s t)).revokedGrants =
      s.revokedGrants ∪ t.revokedGrants := (foldl_mergeMint _ _).2.2
  have hloop : id ∈ (t.mints.toList.foldl mergeMint (unioned s t)).revoked →
      (id ∈ s.revoked ∨ id ∈ t.revoked) ∨ Collides s t id ∨
        ∃ slip, Holds s t id slip ∧
          underGrants (s.revokedGrants ∪ t.revokedGrants) slip.claims := by
    rw [mem_revoked_loop]
    refine Or.imp_right ?_
    rintro ⟨mint, ht, hseen⟩
    cases hs : s.mints[id]? with
    | none => exact .inr ⟨mint, .inr ht, by simpa [hs] using hseen⟩
    | some prior => exact .inl ⟨prior, mint, hs, ht, by simpa [hs] using hseen⟩
  rw [mergeFrom_eq]
  constructor
  · intro h
    split at h
    · rcases mem_tombstone.mp h with h | ⟨slip, hslip, hunder⟩
      · exact hloop h
      · refine .inr (.inr ⟨slip, holds_of_merged (hmints.mp hslip), ?_⟩)
        simpa [underGrants, hgrants] using hunder
    · exact hloop h
  · intro h
    have hin : id ∈ (t.mints.toList.foldl mergeMint (unioned s t)).revoked ∨
        (∃ slip, s.mints[id]? = some slip ∧ Holds s t id slip ∧ ¬Collides s t id ∧
          underGrants (s.revokedGrants ∪ t.revokedGrants) slip.claims) := by
      rw [mem_revoked_loop]
      rcases h with h | ⟨a, b, ha, hb, hab⟩ | ⟨slip, hslip, hunder⟩
      · exact .inl (.inl h)
      · exact .inl (.inr ⟨b, hb, by simpa [ha] using hab⟩)
      · by_cases hc : Collides s t id
        · obtain ⟨a, b, ha, hb, hab⟩ := hc
          exact .inl (.inr ⟨b, hb, by simpa [ha] using hab⟩)
        · cases hsid : s.mints[id]? with
          | none =>
            rcases hslip with h | h
            · rw [hsid] at h
              cases h
            · exact .inl (.inr ⟨slip, h, by simpa [hsid] using hunder⟩)
          | some a =>
            have ha : a = slip := by
              rcases hslip with h | h
              · rw [hsid] at h
                exact Option.some.inj h
              · by_contra hne
                exact hc ⟨a, slip, hsid, h, hne⟩
            exact .inr ⟨a, rfl, .inl hsid, hc, ha ▸ hunder⟩
    split
    · refine mem_tombstone.mpr (hin.imp_right ?_)
      rintro ⟨slip, -, hholds, hc, hunder⟩
      obtain ⟨merged, hmerged, rfl | hcol⟩ := merged_of_holds hholds
      · exact ⟨merged, hmints.mpr hmerged, by simpa [underGrants, hgrants] using hunder⟩
      · exact absurd hcol hc
    · next hfresh =>
      -- no grant is new here, so what is under one was revoked before the merge
      rw [not_not] at hfresh
      rw [union_eq_left.mpr hfresh] at hin
      rcases hin with hin | ⟨slip, hslip, -, -, hunder⟩
      · exact hin
      · exact (mem_revoked_loop s t id).mpr (.inl (.inl (hs.tombstoned hslip hunder)))

/-! ## The laws -/

theorem Grounded.earlier_comm (hs : Grounded log s) (ht : Grounded log t) {a b : FoldedSlip}
    (ha : s.mints[id]? = some a) (hb : t.mints[id]? = some b) : earlier a b = earlier b a := by
  have heq : a.entryHash = b.entryHash → a = b := hs.eq_of_hash ht ha hb
  rcases earlier_eq_or a b with hab | hab <;> rcases earlier_eq_or b a with hba | hba <;>
    rw [hab, hba]
  · refine heq (LawfulEqOrd.eq_of_compare (OrientedCmp.isLE_antisymm ?_ ?_))
    · exact hab ▸ (earlier_isLE a b).2
    · exact hba ▸ (earlier_isLE b a).2
  · refine (heq (LawfulEqOrd.eq_of_compare (OrientedCmp.isLE_antisymm ?_ ?_))).symm
    · exact hba ▸ (earlier_isLE b a).1
    · exact hab ▸ (earlier_isLE a b).1

/-- The mint of the smallest hash of three does not depend on how they are paired. -/
theorem earlier_assoc {a b c : FoldedSlip} (hab : a.entryHash = b.entryHash → a = b)
    (hac : a.entryHash = c.entryHash → a = c) (hbc : b.entryHash = c.entryHash → b = c) :
    earlier (earlier a b) c = earlier a (earlier b c) := by
  have hleft := earlier_isLE (earlier a b) c
  have hright := earlier_isLE a (earlier b c)
  have hb₁ := TransCmp.isLE_trans hleft.1 (earlier_isLE a b).2
  have ha₁ := TransCmp.isLE_trans hleft.1 (earlier_isLE a b).1
  have hb₂ := TransCmp.isLE_trans hright.2 (earlier_isLE b c).1
  have hc₂ := TransCmp.isLE_trans hright.2 (earlier_isLE b c).2
  have hhash : (earlier (earlier a b) c).entryHash = (earlier a (earlier b c)).entryHash := by
    refine LawfulEqOrd.eq_of_compare (OrientedCmp.isLE_antisymm ?_ ?_)
    · rcases earlier_eq_or a (earlier b c) with h | h
      · rwa [h]
      · rw [h]
        rcases earlier_eq_or b c with h' | h' <;> rw [h']
        · exact hb₁
        · exact hleft.2
    · rcases earlier_eq_or (earlier a b) c with h | h
      · rw [h]
        rcases earlier_eq_or a b with h' | h' <;> rw [h']
        · exact hright.1
        · exact hb₂
      · rwa [h]
  have hx : ∀ x ∈ [a, b, c], ∀ y ∈ [a, b, c], x.entryHash = y.entryHash → x = y := by
    intro x hx y hy h
    simp only [List.mem_cons, List.not_mem_nil, or_false] at hx hy
    grind
  refine hx _ ?_ _ ?_ hhash
  · rcases earlier_eq_or (earlier a b) c with h | h <;> rw [h]
    · rcases earlier_eq_or a b with h' | h' <;> simp [h']
    · simp
  · rcases earlier_eq_or a (earlier b c) with h | h <;> rw [h]
    · simp
    · rcases earlier_eq_or b c with h' | h' <;> simp [h']

theorem holds_comm : Holds s t id slip ↔ Holds t s id slip := or_comm

theorem collides_comm : Collides s t id ↔ Collides t s id :=
  ⟨fun ⟨a, b, ha, hb, hne⟩ => ⟨b, a, hb, ha, hne.symm⟩,
    fun ⟨a, b, ha, hb, hne⟩ => ⟨b, a, hb, ha, hne.symm⟩⟩

/-- **Merging is commutative.** -/
theorem Grounded.mergeFrom_comm (hs : Grounded log s) (ht : Grounded log t) :
    s.mergeFrom t = t.mergeFrom s := by
  obtain ⟨he, hc, hg⟩ := mergeFrom_rest s t
  obtain ⟨he', hc', hg'⟩ := mergeFrom_rest t s
  ext id
  · refine iff_of_eq (congrArg (· = some _) ?_)
    rw [getElem?_mergeFrom, getElem?_mergeFrom]
    cases hsid : s.mints[id]? <;> cases htid : t.mints[id]? <;> simp
    exact hs.earlier_comm ht hsid htid
  · rw [hs.mem_revoked_mergeFrom, ht.mem_revoked_mergeFrom, collides_comm,
      or_comm (a := id ∈ s.revoked), union_comm]
    simp only [holds_comm (s := s)]
  · rw [he, he', union_comm]
  · rw [hc, hc', union_comm]
  · rw [hg, hg', union_comm]

/-- A merge with itself changes nothing. -/
theorem mergeFrom_self (s : SlipAuthorityState) : s.mergeFrom s = s := by
  have hloop (id : Bytes32) : seenAt (s.mints.toList.foldl mergeMint (unioned s s)) id =
      seenAt s id := by
    rw [seenAt_loop]
    cases hs : s.mints[id]? <;> simp [seenAt, turnAt, unioned, hs]
  have hmerge : s.mergeFrom s = s.mints.toList.foldl mergeMint (unioned s s) := by
    rw [mergeFrom_eq, if_neg (by simp)]
  obtain ⟨he, hc, hg⟩ := mergeFrom_rest s s
  ext id
  · exact iff_of_eq (congrArg (· = some _) (hmerge ▸ congrArg Prod.fst (hloop id)))
  · exact iff_of_eq (hmerge ▸ congrArg (·.2.1) (hloop id))
  · rw [he, union_self]
  · rw [hc, union_self]
  · rw [hg, union_self]

/-- **A merge of grounded states is grounded.** -/
theorem Grounded.merge (hs : Grounded log s) (ht : Grounded log t) :
    Grounded log (s.mergeFrom t) where
  source h := (holds_of_merged h).elim hs.source ht.source
  tombstoned h hunder := by
    rw [underRevokedGrant_eq, (mergeFrom_rest s t).2.2] at hunder
    exact hs.mem_revoked_mergeFrom.mpr (.inr (.inr ⟨_, holds_of_merged h, hunder⟩))

/-- What a merge of three revokes, however it is paired. -/
def RevokedAmong (s t u : SlipAuthorityState) (id : Bytes32) : Prop :=
  (id ∈ s.revoked ∨ id ∈ t.revoked ∨ id ∈ u.revoked) ∨
    (Collides s t id ∨ Collides t u id ∨ Collides u s id) ∨
      ∃ slip, (s.mints[id]? = some slip ∨ t.mints[id]? = some slip ∨ u.mints[id]? = some slip) ∧
        underGrants (s.revokedGrants ∪ t.revokedGrants ∪ u.revokedGrants) slip.claims

theorem revokedAmong_rotate : RevokedAmong s t u id ↔ RevokedAmong t u s id := by
  have hgrants : s.revokedGrants ∪ t.revokedGrants ∪ u.revokedGrants =
      t.revokedGrants ∪ u.revokedGrants ∪ s.revokedGrants := by
    rw [union_assoc, union_comm]
  unfold RevokedAmong
  rw [hgrants]
  constructor
  · rintro ((h | h | h) | (h | h | h) | ⟨slip, h | h | h, hunder⟩)
    · exact .inl (.inr (.inr h))
    · exact .inl (.inl h)
    · exact .inl (.inr (.inl h))
    · exact .inr (.inl (.inr (.inr h)))
    · exact .inr (.inl (.inl h))
    · exact .inr (.inl (.inr (.inl h)))
    · exact .inr (.inr ⟨slip, .inr (.inr h), hunder⟩)
    · exact .inr (.inr ⟨slip, .inl h, hunder⟩)
    · exact .inr (.inr ⟨slip, .inr (.inl h), hunder⟩)
  · rintro ((h | h | h) | (h | h | h) | ⟨slip, h | h | h, hunder⟩)
    · exact .inl (.inr (.inl h))
    · exact .inl (.inr (.inr h))
    · exact .inl (.inl h)
    · exact .inr (.inl (.inr (.inl h)))
    · exact .inr (.inl (.inr (.inr h)))
    · exact .inr (.inl (.inl h))
    · exact .inr (.inr ⟨slip, .inr (.inl h), hunder⟩)
    · exact .inr (.inr ⟨slip, .inr (.inr h), hunder⟩)
    · exact .inr (.inr ⟨slip, .inl h, hunder⟩)

theorem Grounded.mem_revoked_mergeFrom₃ (hs : Grounded log s) (ht : Grounded log t) :
    id ∈ ((s.mergeFrom t).mergeFrom u).revoked ↔ RevokedAmong s t u id := by
  rw [(hs.merge ht).mem_revoked_mergeFrom, hs.mem_revoked_mergeFrom, (mergeFrom_rest s t).2.2]
  have hsub : s.revokedGrants ∪ t.revokedGrants ⊆
      s.revokedGrants ∪ t.revokedGrants ∪ u.revokedGrants := subset_union_left
  constructor
  · rintro ((((h | h) | h | ⟨slip, h, hunder⟩) | h) | ⟨a, c, ha, hc, hne⟩ | ⟨slip, h, hunder⟩)
    · exact .inl (.inl h)
    · exact .inl (.inr (.inl h))
    · exact .inr (.inl (.inl h))
    · exact .inr (.inr ⟨slip, h.imp_right .inl, underGrants_mono hsub hunder⟩)
    · exact .inl (.inr (.inr h))
    · rcases holds_of_merged ha with ha | ha
      · exact .inr (.inl (.inr (.inr ⟨c, a, hc, ha, hne.symm⟩)))
      · exact .inr (.inl (.inr (.inl ⟨a, c, ha, hc, hne⟩)))
    · refine .inr (.inr ⟨slip, ?_, hunder⟩)
      rcases h with h | h
      · exact (holds_of_merged h).imp_right .inl
      · exact .inr (.inr h)
  · have hcollides {a c : FoldedSlip} (ha : Holds s t id a) (hc : u.mints[id]? = some c)
        (hne : a ≠ c) : Collides s t id ∨ Collides (s.mergeFrom t) u id := by
      obtain ⟨merged, hmerged, rfl | h⟩ := merged_of_holds ha
      · exact .inr ⟨merged, c, hmerged, hc, hne⟩
      · exact .inl h
    rintro ((h | h | h) | (h | ⟨b, c, hb, hc, hne⟩ | ⟨c, a, hc, ha, hne⟩) | ⟨slip, h, hunder⟩)
    · exact .inl (.inl (.inl (.inl h)))
    · exact .inl (.inl (.inl (.inr h)))
    · exact .inl (.inr h)
    · exact .inl (.inl (.inr (.inl h)))
    · exact (hcollides (.inr hb) hc hne).elim (.inl <| .inl <| .inr <| .inl ·) (.inr <| .inl ·)
    · exact (hcollides (.inl ha) hc hne.symm).elim (.inl <| .inl <| .inr <| .inl ·) (.inr <| .inl ·)
    · have hholds : Holds s t id slip ∨ u.mints[id]? = some slip := by
        rwa [← or_assoc] at h
      rcases hholds with h | h
      · obtain ⟨merged, hmerged, rfl | hc⟩ := merged_of_holds h
        · exact .inr (.inr ⟨merged, .inl hmerged, hunder⟩)
        · exact .inl (.inl (.inr (.inl hc)))
      · exact .inr (.inr ⟨slip, .inr h, hunder⟩)

/-- **Merging is associative.** -/
theorem Grounded.mergeFrom_assoc (hs : Grounded log s) (ht : Grounded log t) (hu : Grounded log u) :
    (s.mergeFrom t).mergeFrom u = s.mergeFrom (t.mergeFrom u) := by
  ext id
  · refine iff_of_eq (congrArg (· = some _) ?_)
    simp only [getElem?_mergeFrom]
    cases hsid : s.mints[id]? <;> cases htid : t.mints[id]? <;> cases huid : u.mints[id]? <;> simp
    exact earlier_assoc (hs.eq_of_hash ht hsid htid) (hs.eq_of_hash hu hsid huid)
      (ht.eq_of_hash hu htid huid)
  · rw [hs.mem_revoked_mergeFrom₃ ht, hs.mergeFrom_comm (ht.merge hu), ht.mem_revoked_mergeFrom₃ hu,
      revokedAmong_rotate]
  all_goals simp only [mergeFrom_rest, union_assoc]

end SlipAuthorityState

end Oneiron
