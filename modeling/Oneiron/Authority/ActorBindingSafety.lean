import Oneiron.Authority.ActorBindings
import Oneiron.Foundations.Fallible

/-!
# Authority/ActorBindingSafety — a binding survives only by an informed bind

Whatever the branches and the order they merge in, a state *accounts* for the rows it was folded
from: the watermark is above every revocation's epoch, a key's binding is at the greatest epoch any
row binds it at and, unless conflicted, names what every row of that epoch names, and what it
observed are ancestors of a row that binds just that.  So a live binding has a bind entry behind it
that saw every revocation there is.
-/

open Std

namespace Oneiron

open Option

/-- Whether an entry binds a key, anew or again, to some content at some epoch. -/
def ActorOp.Binds (op : ActorOp) (key : AuthorityKey) (tuple : EntityId × Bytes) (epoch : ℕ) : Prop :=
  op = .bindActor key tuple.1 tuple.2 epoch ∨ op = .rebindActor key tuple.1 tuple.2 epoch

/-- Whether an entry revokes a key's actor at some epoch. -/
def ActorOp.Revokes (op : ActorOp) (key : AuthorityKey) (epoch : ℕ) : Prop :=
  op = .revokeActor key epoch

section Merge

variable (left right : ActorBindingState)

/-- The join is at the epoch of the side it takes, names what that side names, and has observed no
more than it did. -/
theorem mergeActorBindings_side : ∃ side ∈ [left, right],
    (mergeActorBindings left right).tuple = side.tuple ∧
      (mergeActorBindings left right).epoch = side.epoch ∧
      (mergeActorBindings left right).observedRevocations ⊆ side.observedRevocations := by
  unfold mergeActorBindings
  split
  · exact ⟨left, by simp, rfl, rfl, subset_rfl⟩
  · exact ⟨right, by simp, rfl, rfl, subset_rfl⟩
  · split
    · exact ⟨left, by simp, rfl, rfl, Finset.inter_subset_left⟩
    · exact ⟨right, by simp, rfl, rfl, Finset.inter_subset_right⟩

/-- **Neither side is above the join, and a side at its epoch agrees with it or poisons it.** -/
theorem mergeActorBindings_above : ∀ side ∈ [left, right],
    side.epoch ≤ (mergeActorBindings left right).epoch ∧
      (side.epoch = (mergeActorBindings left right).epoch →
        (mergeActorBindings left right).conflicted = false →
          side.conflicted = false ∧ side.tuple = (mergeActorBindings left right).tuple) := by
  simp only [List.forall_mem_cons, List.not_mem_nil, false_implies, implies_true, and_true]
  unfold mergeActorBindings
  split
  · next h =>
    rw [Nat.compare_eq_gt] at h
    exact ⟨⟨le_rfl, fun _ hc => ⟨hc, rfl⟩⟩, h.le, fun he => absurd he h.ne⟩
  · next h =>
    rw [Nat.compare_eq_lt] at h
    exact ⟨⟨h.le, fun he => absurd he h.ne⟩, le_rfl, fun _ hc => ⟨hc, rfl⟩⟩
  · next h =>
    rw [Nat.compare_eq_eq] at h
    split <;> simp only [Bool.or_eq_false_iff, decide_eq_false_iff_not, not_not] <;>
      refine ⟨⟨by simp [h], fun _ hc => ⟨hc.1.2, ?_⟩⟩, by simp [h], fun _ hc => ⟨hc.2, ?_⟩⟩
    · rfl
    · exact hc.1.1.2.symm
    · exact hc.1.1.2
    · rfl

end Merge

namespace ActorState

variable {log : Bytes32 → ActorEntry} {past past' : Set Bytes32} {s t : ActorState}
  {key : AuthorityKey} {row : Bytes32}

@[simp] theorem watermark_mergeStates :
    (s.mergeStates t).watermark key = max (s.watermark key) (t.watermark key) := by
  simp only [watermark, mergeStates, OrderedMap.getElem?_joinWith]
  cases s.actorBindingRevocations[key]? <;> cases t.actorBindingRevocations[key]? <;> simp

@[simp] theorem revocations_mergeStates :
    (s.mergeStates t).revocations key = s.revocations key ∪ t.revocations key := by
  simp only [revocations, mergeStates, OrderedMap.getElem?_joinWith]
  cases s.actorRevocationHashes[key]? <;> cases t.actorRevocationHashes[key]? <;> simp

variable {revoked : AuthorityKey} {consentArm : FoldedDevice → Bool} {epoch : ℕ}

theorem watermark_recordActorRevoke : (s.recordActorRevoke revoked epoch row).watermark key =
      if revoked = key then max (s.watermark key) epoch else s.watermark key := by
  simp only [watermark, recordActorRevoke, ExtTreeMap.getElem?_insert, Std.compare_eq_iff_eq]
  split
  · next h => simp [h]
  · rfl

theorem revocations_recordActorRevoke : (s.recordActorRevoke revoked epoch row).revocations key =
      if revoked = key then insert row (s.revocations key) else s.revocations key := by
  simp only [revocations, recordActorRevoke, ExtTreeMap.getElem?_insert, Std.compare_eq_iff_eq]
  split
  · next h => simp [h]
  · rfl

/-- What a bind that lands was checked for. -/
theorem bind_spec {roster : Roster} {actorRef : EntityId} {actorClass : Bytes} {isRebind : Bool}
    (h : s.bind key roster consentArm actorRef actorClass epoch isRebind = .ok t) :
    (∀ binding ∈ s.actorBindings[key]?, binding.epoch < epoch) ∧
      t = { s with
        actorBindings := s.actorBindings.insert key
          ⟨s.revocations key, actorRef, actorClass, epoch, false⟩
        actorRows := insert actorRef s.actorRows } := by
  unfold bind at h
  split at h
  · cases h
  · split at h
    · cases h
    · obtain ⟨_, -, h⟩ := bind_eq_ok.mp h
      dsimp only at h
      split at h
      · cases h
      · next hfloor =>
        refine ⟨fun binding hbinding => ?_, (Except.ok.inj h).symm⟩
        rw [mem_def] at hbinding
        simp only [hbinding, elim_some] at hfloor
        omega

/-- What a state folded from rows, or joined by proved revocations, says of them. -/
structure Accounts (log : Bytes32 → ActorEntry) (past : Set Bytes32) (s : ActorState) : Prop where
  /-- The watermark is above every revocation's epoch. -/
  epochs : ∀ {row key epoch}, row ∈ past → (log row).op.Revokes key epoch → epoch ≤ s.watermark key
  /-- The revocations are those of the rows. -/
  revocations : ∀ {row key}, row ∈ s.revocations key ↔
    row ∈ past ∧ ∃ epoch, (log row).op.Revokes key epoch
  /-- A key some row binds has a binding no lower, which names what the row does or is conflicted. -/
  bound : ∀ {row key tuple epoch}, row ∈ past → (log row).op.Binds key tuple epoch →
    ∃ binding, s.actorBindings[key]? = some binding ∧ epoch ≤ binding.epoch ∧
      (epoch = binding.epoch → binding.conflicted = false → tuple = binding.tuple)
  /-- What a binding observed are ancestors of a row that binds it. -/
  informed : ∀ {key binding}, s.actorBindings[key]? = some binding →
    ∃ row ∈ past, (log row).op.Binds key binding.tuple binding.epoch ∧
      ∀ seen ∈ binding.observedRevocations, isAncestor log seen row

namespace Accounts

theorem start : Accounts log ∅ {} where
  epochs h := absurd h (Set.notMem_empty _)
  revocations := by simp [ActorState.revocations]
  bound h := absurd h (Set.notMem_empty _)
  informed h := by simp at h

/-- A row that revokes no actor and binds none changes nothing. -/
theorem other (h : Accounts log past s) (hop : (log row).op = .other) :
    Accounts log (insert row past) s where
  epochs hr hrevokes := by
    rcases Set.mem_insert_iff.mp hr with rfl | hr
    · simp [ActorOp.Revokes, hop] at hrevokes
    · exact h.epochs hr hrevokes
  revocations := by
    intro r key
    rw [h.revocations, Set.mem_insert_iff]
    refine ⟨fun hr => ⟨.inr hr.1, hr.2⟩, fun ⟨hr, epoch, hrevokes⟩ => ⟨hr.resolve_left ?_, epoch, hrevokes⟩⟩
    rintro rfl
    simp [ActorOp.Revokes, hop] at hrevokes
  bound hr hbinds := by
    rcases Set.mem_insert_iff.mp hr with rfl | hr
    · simp [ActorOp.Binds, hop] at hbinds
    · exact h.bound hr hbinds
  informed hb := by
    obtain ⟨r, hr, hinformed⟩ := h.informed hb
    exact ⟨r, .inr hr, hinformed⟩

/-- **A revocation that joins raises the watermark and is seen by nothing there.** -/
theorem revoke (h : Accounts log past s) (hop : (log row).op = .revokeActor revoked epoch) :
    Accounts log (insert row past) (s.recordActorRevoke revoked epoch row) where
  epochs {r key e} hr hrevokes := by
    rw [watermark_recordActorRevoke]
    rcases Set.mem_insert_iff.mp hr with rfl | hr
    · obtain ⟨rfl, rfl⟩ : revoked = key ∧ epoch = e := by
        simpa [ActorOp.Revokes, hop] using hrevokes
      simp
    · have := h.epochs hr hrevokes
      split <;> omega
  revocations {r key} := by
    rw [revocations_recordActorRevoke, Set.mem_insert_iff]
    have hrow : (r = row ∧ ∃ e, (log r).op.Revokes key e) ↔ r = row ∧ revoked = key := by
      refine and_congr_right fun hr => ?_
      simp [hr, ActorOp.Revokes, hop]
    rw [or_and_right, hrow, ← h.revocations]
    split
    · next hkey => simp [hkey]
    · next hkey => simp [hkey]
  bound hr hbinds := by
    rcases Set.mem_insert_iff.mp hr with rfl | hr
    · simp [ActorOp.Binds, hop] at hbinds
    · exact h.bound hr hbinds
  informed hb := by
    obtain ⟨r, hr, hinformed⟩ := h.informed hb
    exact ⟨r, .inr hr, hinformed⟩

/-- **A bind that lands is above every row that bound the key, and has observed its ancestors.** -/
theorem bind {tuple : EntityId × Bytes} (h : Accounts log past s)
    (hpast : ∀ r ∈ past, isAncestor log r row) (hop : (log row).op.Binds key tuple epoch)
    (habove : ∀ binding ∈ s.actorBindings[key]?, binding.epoch < epoch) :
    Accounts log (insert row past) { s with
      actorBindings := s.actorBindings.insert key
        ⟨s.revocations key, tuple.1, tuple.2, epoch, false⟩
      actorRows := insert tuple.1 s.actorRows } where
  epochs {r k e} hr hrevokes := by
    rcases Set.mem_insert_iff.mp hr with rfl | hr
    · rcases hop with hop | hop <;> simp [ActorOp.Revokes, hop] at hrevokes
    · exact h.epochs hr hrevokes
  revocations {r k} := by
    refine h.revocations.trans ?_
    refine ⟨fun hr => ⟨.inr hr.1, hr.2⟩, fun ⟨hr, e, hrevokes⟩ => ⟨hr.resolve_left ?_, e, hrevokes⟩⟩
    rintro rfl
    rcases hop with hop | hop <;> simp [ActorOp.Revokes, hop] at hrevokes
  bound {r k tuple' e} hr hbinds := by
    rw [ExtTreeMap.getElem?_insert]
    simp only [Std.compare_eq_iff_eq]
    rcases Set.mem_insert_iff.mp hr with rfl | hr
    · obtain ⟨rfl, rfl, rfl⟩ : key = k ∧ tuple = tuple' ∧ epoch = e := by
        rcases hop with hop | hop <;>
          simpa [ActorOp.Binds, hop, Prod.ext_iff, and_assoc] using hbinds
      exact ⟨_, if_pos rfl, le_rfl, fun _ _ => rfl⟩
    · obtain ⟨binding, hbinding, hle, hsame⟩ := h.bound hr hbinds
      split
      · next hkey =>
        subst hkey
        have := habove binding hbinding
        exact ⟨_, rfl, by dsimp only; omega, fun heq => by dsimp only at heq; omega⟩
      · exact ⟨binding, hbinding, hle, hsame⟩
  informed {k binding} hb := by
    rw [ExtTreeMap.getElem?_insert] at hb
    simp only [Std.compare_eq_iff_eq] at hb
    split at hb
    · next hkey =>
      subst hkey
      obtain rfl := some.inj hb
      exact ⟨row, .inl rfl, hop, fun seen hseen => hpast seen (h.revocations.mp hseen).1⟩
    · obtain ⟨r, hr, hinformed⟩ := h.informed hb
      exact ⟨r, .inr hr, hinformed⟩

/-- **An entry that lands is accounted for.** -/
theorem land {roster : Roster} {consentArm : FoldedDevice → Bool} (h : Accounts log past s)
    (hpast : ∀ r ∈ past, isAncestor log r row)
    (hland : s.applyActorBinding roster consentArm (log row).op row = .ok t) :
    Accounts log (insert row past) t := by
  cases hop : (log row).op with
  | revokeActor revoked epoch =>
    rw [hop] at hland
    exact Except.ok.inj hland ▸ h.revoke hop
  | bindActor k actorRef actorClass epoch =>
    rw [hop] at hland
    obtain ⟨habove, rfl⟩ := bind_spec hland
    have hbinds : (log row).op.Binds k (actorRef, actorClass) epoch := .inl hop
    exact h.bind hpast hbinds habove
  | rebindActor k actorRef actorClass epoch =>
    rw [hop] at hland
    obtain ⟨habove, rfl⟩ := bind_spec hland
    have hbinds : (log row).op.Binds k (actorRef, actorClass) epoch := .inr hop
    exact h.bind hpast hbinds habove
  | other =>
    rw [hop] at hland
    exact Except.ok.inj hland ▸ h.other hop

/-- **A merge accounts for both sides' rows.** -/
theorem merge (h : Accounts log past s) (h' : Accounts log past' t) :
    Accounts log (past ∪ past') (s.mergeStates t) where
  epochs hr hrevokes := by
    rw [watermark_mergeStates]
    rcases hr with hr | hr
    · exact (h.epochs hr hrevokes).trans (le_max_left _ _)
    · exact (h'.epochs hr hrevokes).trans (le_max_right _ _)
  revocations := by
    intro r key
    rw [revocations_mergeStates, Finset.mem_union, h.revocations, h'.revocations, ← or_and_right,
      Set.mem_union]
  bound {r key tuple epoch} hr hbinds := by
    have hside {left right side : ActorBindingState} (hmem : side ∈ [left, right])
        (hle : epoch ≤ side.epoch)
        (hsame : epoch = side.epoch → side.conflicted = false → tuple = side.tuple) :
        epoch ≤ (mergeActorBindings left right).epoch ∧
          (epoch = (mergeActorBindings left right).epoch →
            (mergeActorBindings left right).conflicted = false →
              tuple = (mergeActorBindings left right).tuple) := by
      obtain ⟨habove, hagrees⟩ := mergeActorBindings_above left right side hmem
      refine ⟨hle.trans habove, fun heq hc => ?_⟩
      have hepoch : side.epoch = (mergeActorBindings left right).epoch := by omega
      obtain ⟨hclear, htuple⟩ := hagrees hepoch hc
      exact (hsame (heq.trans hepoch.symm) hclear).trans htuple
    simp only [mergeStates, OrderedMap.getElem?_joinWith]
    rcases hr with hr | hr
    · obtain ⟨binding, hbinding, hle, hsame⟩ := h.bound hr hbinds
      rw [hbinding]
      cases ht : t.actorBindings[key]? with
      | none => exact ⟨binding, rfl, hle, hsame⟩
      | some other => exact ⟨_, rfl, hside (by simp) hle hsame⟩
    · obtain ⟨binding, hbinding, hle, hsame⟩ := h'.bound hr hbinds
      rw [hbinding]
      cases hs : s.actorBindings[key]? with
      | none => exact ⟨binding, rfl, hle, hsame⟩
      | some other => exact ⟨_, rfl, hside (by simp) hle hsame⟩
  informed {key binding} hb := by
    have hleft {side : ActorBindingState} (hs : s.actorBindings[key]? = some side) := h.informed hs
    have hright {side : ActorBindingState} (ht : t.actorBindings[key]? = some side) := h'.informed ht
    simp only [mergeStates, OrderedMap.getElem?_joinWith] at hb
    cases hs : s.actorBindings[key]? with
    | none =>
      rw [hs, merge_none_left] at hb
      obtain ⟨r, hr, hinformed⟩ := hright hb
      exact ⟨r, .inr hr, hinformed⟩
    | some left =>
      cases ht : t.actorBindings[key]? with
      | none =>
        rw [hs, ht, merge_none_right] at hb
        obtain ⟨r, hr, hinformed⟩ := hleft (hs.trans hb)
        exact ⟨r, .inl hr, hinformed⟩
      | some right =>
        rw [hs, ht, merge_some_some] at hb
        obtain rfl := some.inj hb
        obtain ⟨side, hmem, htuple, hepoch, hobserved⟩ := mergeActorBindings_side left right
        rw [htuple, hepoch]
        have hrow : ∃ r ∈ past ∪ past', (log r).op.Binds key side.tuple side.epoch ∧
            ∀ seen ∈ side.observedRevocations, isAncestor log seen r := by
          rcases List.mem_pair.mp hmem with rfl | rfl
          · obtain ⟨r, hr, hinformed⟩ := hleft hs
            exact ⟨r, .inl hr, hinformed⟩
          · obtain ⟨r, hr, hinformed⟩ := hright ht
            exact ⟨r, .inr hr, hinformed⟩
        obtain ⟨r, hr, hbinds, hseen⟩ := hrow
        exact ⟨r, hr, hbinds, fun seen h => hseen seen (hobserved h)⟩

/-- **Revocations proved on their own branches join the account.** -/
theorem applyFacts {facts : List Bytes32} (h : Accounts log past s)
    (hfacts : ∀ row ∈ facts, ∃ key epoch, (log row).op.Revokes key epoch) :
    Accounts log (past ∪ {row | row ∈ facts}) (s.applyFacts log facts) := by
  induction facts generalizing s past with
  | nil => simpa [ActorState.applyFacts] using h
  | cons row facts ih =>
    obtain ⟨⟨key, epoch, hop⟩, hfacts⟩ := List.forall_mem_cons.mp hfacts
    have hset : past ∪ {r | r ∈ row :: facts} = insert row past ∪ {r | r ∈ facts} := by
      ext r
      simp only [Set.mem_union, Set.mem_ofPred_eq, List.mem_cons, Set.mem_insert_iff]
      tauto
    have hstate : s.applyFacts log (row :: facts) =
        (s.recordActorRevoke key epoch row).applyFacts log facts := by
      simp only [ActorState.applyFacts, List.foldl_cons]
      rw [show (log row).op = .revokeActor key epoch from hop]
    rw [hset, hstate]
    exact ih (h.revoke hop) hfacts

end Accounts

theorem accounts_of_folded (h : (actorFold consentArm log).Folded past s) :
    Accounts log past s := by
  refine h.invariant (Accounts log) .start (fun h hpast hland => ?_)
    fun {_ _ s t _} h h' hmerge => ?_
  · obtain ⟨roster, hland⟩ := hland
    exact h.land hpast hland
  · obtain rfl : _ = s.mergeStates t := hmerge
    exact h.merge h'

end ActorState

/-- **A binding survives only by an informed bind.**  In every state folded from a log in any order
of merging, with whatever revocations were proved beside it: if a key's binding is live, then some
bind entry with its values has every revocation of the key among its ancestors, its epoch is above
every revocation's and above the watermark, and no bind of the key at its epoch or a higher one
names anyone else. -/
theorem actorBinding_informed (consentArm : FoldedDevice → Bool) (log : Bytes32 → ActorEntry)
    {past : Set Bytes32} {s : ActorState} (hs : (actorFold consentArm log).Folded past s)
    {facts : List Bytes32} (hfacts : ∀ row ∈ facts, ∃ key epoch, (log row).op.Revokes key epoch)
    {key : AuthorityKey} {binding : ActorBindingState}
    (hlive : (s.applyFacts log facts).liveActorBinding key = some binding) :
    let history := past ∪ {row | row ∈ facts}
    (∃ entry ∈ history, (log entry).op.Binds key (binding.actorRef, binding.actorClass) binding.epoch ∧
      ∀ revoke ∈ history, ∀ epoch, (log revoke).op.Revokes key epoch → isAncestor log revoke entry) ∧
    ((s.applyFacts log facts).watermark key < binding.epoch ∧
      ∀ revoke ∈ history, ∀ epoch, (log revoke).op.Revokes key epoch → epoch < binding.epoch) ∧
    ∀ entry ∈ history, ∀ tuple epoch, (log entry).op.Binds key tuple epoch → binding.epoch ≤ epoch →
      tuple = (binding.actorRef, binding.actorClass) := by
  have h := (ActorState.accounts_of_folded hs).applyFacts hfacts
  obtain ⟨hbinding, hclear⟩ := filter_eq_some_iff.mp hlive
  simp only [Bool.and_eq_true, decide_eq_true_eq, Bool.not_eq_true'] at hclear
  obtain ⟨⟨hwatermark, hconflicted⟩, hobserved⟩ := hclear
  obtain ⟨entry, hentry, hbinds, hseen⟩ := h.informed hbinding
  refine ⟨⟨entry, hentry, hbinds, fun revoke hrevoke epoch hop => ?_⟩,
    ⟨hwatermark, fun revoke hrevoke epoch hop => ?_⟩, fun other hother tuple epoch hop hle => ?_⟩
  · exact hseen revoke (hobserved (h.revocations.mpr ⟨hrevoke, epoch, hop⟩))
  · exact (h.epochs hrevoke hop).trans_lt hwatermark
  · obtain ⟨held, hheld, hepoch, hsame⟩ := h.bound hother hop
    obtain rfl := some.inj (hheld.symm.trans hbinding)
    exact hsame (Nat.le_antisymm hepoch hle) hconflicted

/-- A key bound, revoked on two branches, and bound again to someone else by an entry that saw both;
on a branch that saw one revocation it is bound to a third, an epoch lower. -/
def reboundLog (hash : Bytes32) : ActorEntry :=
  if hash = .of 1 then ⟨[], .bindActor (.ed25519 (.of 9)) (.filled 5) actorClassHuman 1⟩
  else if hash = .of 2 then ⟨[.of 1], .revokeActor (.ed25519 (.of 9)) 1⟩
  else if hash = .of 3 then ⟨[.of 1], .revokeActor (.ed25519 (.of 9)) 1⟩
  else if hash = .of 4 then
    ⟨[.of 2, .of 3], .bindActor (.ed25519 (.of 9)) (.filled 6) actorClassHuman 3⟩
  else ⟨[.of 2], .bindActor (.ed25519 (.of 9)) (.filled 7) actorClassHuman 2⟩

/-- The roster that vouches for the key. -/
def reboundRoster : Roster :=
  (∅ : Roster).insert (.ed25519 (.of 9)) ⟨.ed25519 (.of 9), .software, roleOwner, false⟩

def reboundLand (state : ActorState) (hash : Bytes32) : ActorState :=
  (state.applyActorBinding reboundRoster (fun _ => true) (reboundLog hash).op hash).toOption.getD {}

/-- The first bind, and a revocation beneath it. -/
def reboundBranch (hash : Bytes32) : ActorState := reboundLand (reboundLand {} (.of 1)) hash

/-- The three branches, merged. -/
def rebound : ActorState :=
  (reboundLand ((reboundBranch (.of 2)).mergeStates (reboundBranch (.of 3))) (.of 4)).mergeStates
    (reboundLand (reboundBranch (.of 2)) (.of 5))

abbrev reboundFold : Forking ActorState Bytes32 := actorFold (fun _ => true) reboundLog

theorem folded_reboundBranch (hash : Bytes32) (hparent : .of 1 ∈ (reboundLog hash).parentHashes)
    (hland : reboundFold.land (reboundLand {} (.of 1)) hash (reboundBranch hash)) :
    reboundFold.Folded (insert hash (insert (.of 1) ∅)) (reboundBranch hash) := by
  have hfirst : reboundFold.Folded (insert (.of 1) ∅) (reboundLand {} (.of 1)) :=
    .land .start (fun _ h => h.elim) ⟨reboundRoster, rfl⟩
  refine .land hfirst (fun r hr => ?_) hland
  obtain rfl : r = .of 1 := by simpa using hr
  exact .single hparent

/-- The live binding is the one that saw both revocations, over the bind of the branch that saw
one. -/
theorem actorBinding_informed_rebound :
    rebound.liveActorBinding (.ed25519 (.of 9)) =
        some ⟨{.of 2, .of 3}, .filled 6, actorClassHuman, 3, false⟩ ∧
      rebound.watermark (.ed25519 (.of 9)) < 3 ∧
      ∃ entry, (reboundLog entry).op.Binds (.ed25519 (.of 9)) (.filled 6, actorClassHuman) 3 ∧
        isAncestor reboundLog (.of 2) entry ∧ isAncestor reboundLog (.of 3) entry := by
  have hleft := folded_reboundBranch (.of 2) (by decide) ⟨reboundRoster, rfl⟩
  have hright := folded_reboundBranch (.of 3) (by decide) ⟨reboundRoster, rfl⟩
  have hparent (r row : Bytes32) (h : r ∈ (reboundLog row).parentHashes) :
      isAncestor reboundLog r row := .single h
  have hfirst (r row : Bytes32) (h : .of 1 ∈ (reboundLog r).parentHashes)
      (h' : r ∈ (reboundLog row).parentHashes) : isAncestor reboundLog (.of 1) row :=
    Relation.TransGen.trans (hparent (.of 1) r h) (hparent r row h')
  have hinformed : reboundFold.Folded (insert (.of 4) (insert (.of 2) (insert (.of 1) ∅) ∪
      insert (.of 3) (insert (.of 1) ∅)))
      (reboundLand ((reboundBranch (.of 2)).mergeStates (reboundBranch (.of 3))) (.of 4)) := by
    refine .land (.merge hleft hright rfl) (fun r hr => ?_) ⟨reboundRoster, rfl⟩
    obtain rfl | rfl | rfl : r = .of 3 ∨ r = .of 2 ∨ r = .of 1 := by simpa using hr
    · exact hparent _ _ (by decide)
    · exact hparent _ _ (by decide)
    · exact hfirst (.of 2) _ (by decide) (by decide)
  have hother : reboundFold.Folded (insert (.of 5) (insert (.of 2) (insert (.of 1) ∅)))
      (reboundLand (reboundBranch (.of 2)) (.of 5)) := by
    refine .land hleft (fun r hr => ?_) ⟨reboundRoster, rfl⟩
    obtain rfl | rfl : r = .of 2 ∨ r = .of 1 := by simpa using hr
    · exact hparent _ _ (by decide)
    · exact hfirst (.of 2) _ (by decide) (by decide)
  have hlive : (rebound.applyFacts reboundLog []).liveActorBinding (.ed25519 (.of 9)) =
      some ⟨{.of 2, .of 3}, .filled 6, actorClassHuman, 3, false⟩ := by decide +kernel
  obtain ⟨⟨entry, -, hbinds, hseen⟩, ⟨habove, -⟩, -⟩ :=
    actorBinding_informed _ _ (.merge hinformed hother rfl) (by simp) hlive
  exact ⟨hlive, habove, entry, hbinds, hseen (.of 2) (by simp) 1 rfl, hseen (.of 3) (by simp) 1 rfl⟩

end Oneiron
