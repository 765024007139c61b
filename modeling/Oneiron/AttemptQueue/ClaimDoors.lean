import Oneiron.AttemptQueue.ClaimScanSafety

/-!
# AttemptQueue/ClaimDoors — readiness across the three claims

The generic claim and the kind scan reach a prefix of the index, the owner-retained claim a prefix of
its plan.  In each, what is reached and passed over keeps or regains the entry at its own instant,
what is not reached stays, nothing that stands goes while its row waits, and the row taken is that of
the first entry reached that names one the door takes.
-/

open Std

namespace Oneiron

open List Option Except Prod

namespace AttemptQueue

variable {doors : Doors} {rule : ClaimRule} {tables next : Tables} {id : AttemptId}
  {record : AttemptRecord} {ready : UInt64}

/-- No row the door takes stands behind an entry that the index holds. -/
def Idle (rule : ClaimRule) (tables : Tables) (entry : KvPair) : Prop :=
  tables.ready[entry.1]? = some entry.2 →
    ∀ id record, ¬ Eligible rule tables.records entry id record

/-- **What a claim that goes through a list of entries did**, `acts` being those it looks into. -/
def Claimed (rule : ClaimRule) (acts : KvPair → Prop) (source : List KvPair) (tables next : Tables) :
    Option AttemptId → Prop
  | none => Keeps rule (fun entry => entry ∈ source ∧ acts entry) tables next ∧
      ∀ entry ∈ source, acts entry → Idle rule tables entry
  | some id => ∃ passed ready left record, source = passed ++ entryAt ready id :: left ∧
      Keeps rule (fun entry => entry ∈ passed ++ [entryAt ready id] ∧ acts entry) tables next ∧
      (∀ entry ∈ passed, acts entry → Idle rule tables entry) ∧
      Eligible rule tables.records (entryAt ready id) id record

/-! ## The whole index -/

theorem claimed_of_walk {walked : List (KvPair × Finding)} {taken : Option Taken}
    {left : List KvPair} (hwalk : Walk tables.records rule tables.ready.toList walked taken left)
    (hkeeps : Keeps rule (· ∈ walked.map fst) tables next) :
    Claimed rule (fun _ => True) tables.ready.toList tables next (taken.map (·.2.1)) := by
  have hentries := hwalk.entries_eq
  obtain ⟨passed, hpassed, hstop⟩ := hwalk.stops
  match taken, hstop with
  | none, ⟨hwalked, hleft⟩ =>
    rw [hleft, append_nil] at hentries
    rw [← hentries] at hkeeps
    refine ⟨hkeeps.congr fun _ => and_true _ |>.to_iff, fun entry hentry _ _ => ?_⟩
    exact hpassed entry (hwalked ▸ hentries ▸ hentry)
  | some (key, id, record), ⟨value, heligible, hwalked⟩ =>
    obtain ⟨ready, hentry⟩ := heligible.1
    rw [hentry] at heligible hwalked
    rw [hwalked] at hkeeps hentries
    refine ⟨passed, ready, left, record, ?_, hkeeps.congr fun _ => and_true _ |>.to_iff,
      fun entry hentry _ _ => hpassed entry hentry, heligible⟩
    rw [hentries, append_assoc]
    rfl

/-- **The row taken is the first of those the door takes, in the order of instants and ids.** -/
theorem Claimed.first (h : Claimed rule (fun _ => True) tables.ready.toList tables next (some id)) :
    ∃ ready record, Eligible rule tables.records (entryAt ready id) id record ∧
      tables.ready[readyKey ready id]? = some id.asBytes ∧
      ∀ ready' id' record', Eligible rule tables.records (entryAt ready' id') id' record' →
        tables.ready[readyKey ready' id']? = some id'.asBytes →
          ((compare ready.toNat ready'.toNat).then (compare id.asBytes id'.asBytes)).isLE := by
  obtain ⟨passed, ready, left, record, hsource, -, hpassed, heligible⟩ := h
  have hmem : ∀ {entry : KvPair}, entry ∈ tables.ready.toList ↔ tables.ready[entry.1]? = some entry.2 :=
    fun {entry} => ExtTreeMap.mem_toList_iff_getElem?_eq_some (k := entry.1) (v := entry.2)
  have hsorted : Sorted (fun a b : KvPair => compare a.1 b.1) tables.ready.toList :=
    ExtTreeMap.ordered_keys_toList
  have htaken : entryAt ready id ∈ tables.ready.toList := by
    rw [hsource]
    exact mem_append_right _ mem_cons_self
  refine ⟨ready, record, heligible, hmem.mp htaken, ?_⟩
  intro ready' id' record' heligible' hat
  have hin : entryAt ready' id' ∈ passed ++ entryAt ready id :: left := hsource ▸ hmem.mpr hat
  rw [← compare_readyKey]
  rcases mem_append.mp hin with hin | hin
  · exact absurd heligible' (hpassed _ hin trivial hat id' record')
  · rcases mem_cons.mp hin with heq | hin
    · have hself : compare (readyKey ready id) (readyKey ready id) = .eq := ReflOrd.compare_self
      rw [(mk.inj heq).1, hself]
      rfl
    · rw [hsource] at hsorted
      have hlt := (sorted_cons.mp (pairwise_append.mp hsorted).2.1).1 _ hin
      rw [show compare (readyKey ready id) (readyKey ready' id') = .lt from hlt]
      rfl

theorem claimed_scanAndRepair {now : UInt64} {taken : Option Taken}
    (h : scanAndRepair doors rule now tables = .ok (taken, next)) :
    Claimed rule (fun _ => True) tables.ready.toList tables next (taken.map (·.2.1)) := by
  obtain ⟨walked, left, hwalk, hkeeps⟩ := keeps_scanAndRepair h
  exact claimed_of_walk hwalk hkeeps

variable {acts : KvPair → Prop} {kind key value : Bytes} {input : ClaimAttempt}
  {source : List KvPair} {cutoff : UInt64} {entry : KvPair} {taken : Option AttemptId}
  {action permitted : EntryAction} {permits : AttemptRecord → Except QueueError Bool}

/-- **A lease.** -/
theorem keeps_leaseTaken {leased : AttemptRecord}
    (hrow : ∀ e, tables.records id ≠ some (.undecodable e))
    (h : leaseTaken doors input tables (readyKey ready id, id, record) = .ok (leased, next)) :
    Keeps rule (fun _ => False) tables next ∧ next.records id = some (.record leased) ∧
      leased.state = .leased ∧ leased.leaseOwner = some input.leaseOwner := by
  obtain ⟨leased', hleased, h⟩ := bind_eq_ok.mp h
  obtain ⟨_, -, h⟩ := bind_eq_ok.mp h
  obtain ⟨_, -, h⟩ := bind_eq_ok.mp h
  obtain ⟨rfl, rfl⟩ := mk.inj (pure_eq_ok.mp h)
  unfold leaseClaimedRecord at hleased
  split at hleased
  · exact nomatch hleased
  · obtain rfl := ok.inj hleased
    exact ⟨.retire hrow rfl fun _ => not_false, Function.update_self .., rfl, rfl⟩

/-- A row a claim takes decodes, and did before. -/
theorem Claimed.decodes (h : Claimed rule acts source tables next (some id)) (e : QueueError) :
    next.records id ≠ some (.undecodable e) := by
  obtain ⟨passed, ready, left, record, -, hkeeps, -, heligible⟩ := h
  intro he
  exact nomatch ((hkeeps.undecodable id e).mp he).symm.trans heligible.2.1.1

/-- A claim and then a stretch that acts on no entry. -/
theorem Claimed.followed {mid : Tables} (h : Claimed rule acts source tables mid taken)
    (hkeeps : Keeps rule (fun _ => False) mid next) :
    Claimed rule acts source tables next taken := by
  match taken, h with
  | none, ⟨hfirst, hidle⟩ => exact ⟨(hfirst.trans hkeeps).congr fun _ => by rw [or_false], hidle⟩
  | some id, ⟨passed, ready, left, record, hsource, hfirst, hpassed, heligible⟩ =>
    exact ⟨passed, ready, left, record, hsource, (hfirst.trans hkeeps).congr fun _ => by rw [or_false],
      hpassed, heligible⟩

/-- **The generic claim.** -/
theorem claimed_claimMatching {kindFilter : Option Bytes}
    {outcome : Option (AttemptId × AttemptRecord)}
    (h : claimMatching doors tables input kindFilter cutoff = .ok (outcome, next)) :
    Claimed (claimMatchingRule doors input kindFilter cutoff) (fun _ => True) tables.ready.toList
        tables next (outcome.map fst) ∧
      ∀ p, outcome = some p → next.records p.1 = some (.record p.2) ∧ p.2.state = .leased ∧
        p.2.leaseOwner = some input.leaseOwner := by
  obtain ⟨⟨taken, mid⟩, hscan, h⟩ := bind_eq_ok.mp h
  have hclaimed := claimed_scanAndRepair hscan
  match taken, h with
  | none, h =>
    obtain ⟨rfl, rfl⟩ := mk.inj (pure_eq_ok.mp h)
    exact ⟨hclaimed, fun _ hnone => by cases hnone⟩
  | some (key, id, record), h =>
    obtain ⟨⟨leased, final⟩, hlease, h⟩ := bind_eq_ok.mp h
    obtain ⟨rfl, rfl⟩ := mk.inj (pure_eq_ok.mp h)
    obtain ⟨walked, left, hwalk, -⟩ := keeps_scanAndRepair hscan
    obtain ⟨_, -, _, heligible, -⟩ := hwalk.stops
    obtain ⟨ready, hentry⟩ := heligible.1
    obtain rfl := (mk.inj hentry).1
    obtain ⟨hkeeps, hleased⟩ := keeps_leaseTaken (fun e => hclaimed.decodes e) hlease
    refine ⟨hclaimed.followed hkeeps, fun p hp => ?_⟩
    obtain rfl := some.inj hp
    exact hleased

/-! ## The plan of the owner-retained claim -/

/-- What `claim_owner_retained_matching_in_txn` asks of a row. -/
def ownerRetainedRule (doors : Doors) (kind : Bytes) (input : ClaimAttempt) (cutoff : UInt64)
    (permits : AttemptRecord → Except QueueError Bool) : ClaimRule where
  cutoff
  passes record := record.kind = kind && record.acceptsWorker input.leaseOwner
  dispatchReady record := doors.taskDispatchReady record.taskRef input.now
  permits
  hold _ := .ok none

/-- An entry whose key names an instant that has come. -/
def Within (cutoff : UInt64) (entry : KvPair) : Prop :=
  ∃ ready id, entry.1 = readyKey ready id ∧ ¬ cutoff < ready

theorem permitting_of_claim_none (hclaim : action.claim = none)
    (h : action.permitting permits = .ok permitted) : permitted = action := by
  rw [EntryAction.permitting, hclaim] at h
  exact (ok.inj h).symm

/-- An entry of a waiting row is left by one of four ways. -/
theorem ownerRetainedRow_cases (hdue : ¬ cutoff < ready)
    (h : ownerRetainedRow doors kind input cutoff ready id record = .ok action)
    (hpermitted : action.permitting permits = .ok permitted) :
    let rule := ownerRetainedRule doors kind input cutoff permits;
    let stale : Bool := readyAt record ≠ ready;
    let replacement := if stale then some (readyKey (readyAt record) id, id) else none;
    (rule.PassesOver record ∧ permitted = { stale, replacement }) ∨
    (rule.dispatchReady record = .ok false ∧ (readyAt record ≠ ready → ¬ cutoff < readyAt record) ∧
      rule.passes record = true ∧ permitted = { stale }) ∨
    (rule.Takes record ∧ permitted = { stale, claim := some (id, record) }) := by
  simp only [ownerRetainedRow] at h
  split at h
  · next hearly =>
    obtain rfl := pure_eq_ok.mp h
    exact Or.inl ⟨.early hearly.2, permitting_of_claim_none rfl hpermitted⟩
  next hearly =>
  have hlate : readyAt record ≠ ready → ¬ cutoff < readyAt record := fun hne hlt =>
    hearly ⟨by simpa using hne, hlt⟩
  have hnow : ¬ cutoff < readyAt record := by
    by_cases hready : readyAt record = ready
    · rwa [hready]
    · exact hlate hready
  split at h
  · next hforeign =>
    obtain rfl := pure_eq_ok.mp h
    refine Or.inl ⟨.foreign ?_, permitting_of_claim_none rfl hpermitted⟩
    rcases hforeign with hkind | hworker
    · simp [ownerRetainedRule, hkind]
    · simp [ownerRetainedRule, hworker]
  next hpasses =>
  have hpasses : (ownerRetainedRule doors kind input cutoff permits).passes record = true := by
    simpa [ownerRetainedRule] using hpasses
  obtain ⟨dispatch, hdispatch, h⟩ := bind_eq_ok.mp h
  cases dispatch with
  | false =>
    obtain rfl := pure_eq_ok.mp h
    exact Or.inr (Or.inl ⟨hdispatch, hlate, hpasses, permitting_of_claim_none rfl hpermitted⟩)
  | true =>
    obtain rfl := pure_eq_ok.mp h
    obtain ⟨permitted', hpermits, hpermitted⟩ := bind_eq_ok.mp hpermitted
    cases permitted' with
    | false => exact Or.inl ⟨.refused hdispatch hpermits, (pure_eq_ok.mp hpermitted).symm⟩
    | true =>
      exact Or.inr (Or.inr ⟨⟨hnow, hpasses, hdispatch, hpermits, rfl⟩,
        (pure_eq_ok.mp hpermitted).symm⟩)

/-- …each of them an action on the entry. -/
theorem of_ownerRetainedRow (hdue : ¬ cutoff < ready) (hwaits : Waits tables.records id record)
    (h : ownerRetainedRow doors kind input cutoff ready id record = .ok action)
    (hpermitted : action.permitting permits = .ok permitted) :
    EntryAction.Of tables.records (ownerRetainedRule doors kind input cutoff permits)
      (entryAt ready id) permitted := by
  rcases ownerRetainedRow_cases hdue h hpermitted with ⟨hover, rfl⟩ |
    ⟨hdispatch, hlate, hpasses, rfl⟩ | ⟨htakes, rfl⟩
  · refine .row hwaits rfl ?_ ?_ (fun _ hp => (some_ne_none _ hp.symm).elim)
      fun htakes => absurd htakes hover.not_takes
    · intro p hp
      split at hp
      · exact (some.inj hp).symm
      · exact (some_ne_none _ hp.symm).elim
    · intro _ hready
      rw [if_pos (by simpa using hready)]
      rfl
  · refine .row hwaits rfl (fun _ hp => (some_ne_none _ hp.symm).elim) ?_
      (fun _ hp => (some_ne_none _ hp.symm).elim)
      fun htakes => nomatch hdispatch.symm.trans htakes.dispatchReady
    rintro (hearly | hforeign | ⟨hready, -⟩) hne
    · exact absurd hearly (hlate hne)
    · exact nomatch hforeign.symm.trans hpasses
    · exact nomatch hdispatch.symm.trans hready
  · exact .row hwaits rfl (fun _ hp => (some_ne_none _ hp.symm).elim)
      (fun hover => absurd htakes hover.not_takes)
      (fun _ hp => ⟨(some.inj hp).symm, htakes⟩) fun _ => some_ne_none _

/-- **What the owner-retained claim does with an entry whose instant has come is an action on it.** -/
theorem of_ownerRetainedEntryAction {keyReadyAt : UInt64} {keyId : AttemptId}
    (hdue : ¬ cutoff < keyReadyAt)
    (h : ownerRetainedEntryAction doors tables.records kind input cutoff keyReadyAt keyId value =
      .ok action) (hpermitted : action.permitting permits = .ok permitted) :
    EntryAction.Of tables.records (ownerRetainedRule doors kind input cutoff permits)
      (readyKey keyReadyAt keyId, value) permitted := by
  unfold ownerRetainedEntryAction at h
  split at h
  · next hvalue =>
    obtain rfl := ok.inj h
    obtain rfl := permitting_of_claim_none rfl hpermitted
    exact .unnamed (ne_entryAt_of_decode fun _ _ _ h => nomatch hvalue.symm.trans h)
  next id hvalue =>
  obtain rfl := idFromBytes_eq_some.mp hvalue
  split at h
  · next hne =>
    obtain rfl := ok.inj h
    obtain rfl := permitting_of_claim_none rfl hpermitted
    refine .unnamed fun ready id' he => hne ?_
    obtain ⟨hkey, hid⟩ := mk.inj he
    rw [(readyKey_injective hkey).2]
    exact AttemptId.ext hid
  next heq =>
  obtain rfl := not_not.mp heq
  split at h
  · next hnone =>
    obtain rfl := ok.inj h
    obtain rfl := permitting_of_claim_none rfl hpermitted
    exact .idle (fun record hwaits => nomatch hnone.symm.trans hwaits.1)
      fun e he => nomatch hnone.symm.trans he
  · exact nomatch h
  next record hrecord =>
  split at h
  · next hstate => exact of_ownerRetainedRow hdue ⟨hrecord, hstate⟩ h hpermitted
  · next hstate =>
    obtain rfl := ok.inj h
    obtain rfl := permitting_of_claim_none rfl hpermitted
    refine .idle (fun record' hwaits => ?_) fun e he => nomatch hrecord.symm.trans he
    obtain rfl : record = record' := by simpa using hrecord.symm.trans hwaits.1
    exact hstate hwaits.2

@[simp] theorem records_repair (action : EntryAction) (key : Bytes) :
    (action.repair tables key).records = tables.records := by
  unfold EntryAction.repair
  cases action.replacement <;> cases action.stale <;> rfl

/-- **The repairs of one action** act on its entry alone. -/
theorem keeps_repair (hat : tables.ready[key]? = some value)
    (h : EntryAction.Of tables.records rule (key, value) action) :
    Keeps rule (· = (key, value)) tables (action.repair tables key) := by
  have hready : (action.repair tables key).ready =
      (tables.ready.eraseAll (if action.stale then [key] else [])).insertAll
        (action.replacement.toList.map fun p => (p.1, p.2.asBytes)) := by
    unfold EntryAction.repair
    cases action.replacement <;> cases action.stale <;> rfl
  refine .edits (records_repair action key) hready ?_ ?_ ?_
  · intro key' hkey value' hvalue
    split at hkey
    · next hstale =>
      obtain rfl := mem_singleton.mp hkey
      obtain rfl : value = value' := by simpa using hat.symm.trans hvalue
      exact ⟨h.faulty hstale, rfl⟩
    · exact absurd hkey not_mem_nil
  · exact fun p hp => h.own p (mem_toList.mp hp)
  · intro ready id record hacted hwaits _ hover
    exact (h.restored ready id record hacted.symm hwaits hover).imp_right mem_toList.mpr

/-- An entry a claim skips, because it is gone or its instant has not come, is one it leaves. -/
theorem Claimed.skip {plan : List KvPair}
    (hskip : Within cutoff entry → tables.ready[entry.1]? ≠ some entry.2)
    (h : Claimed rule (Within cutoff) plan tables next taken) :
    Claimed rule (Within cutoff) (entry :: plan) tables next taken := by
  have hidle : Within cutoff entry → Idle rule tables entry := fun hwithin hat =>
    absurd hat (hskip hwithin)
  have hkeeps : ∀ {reached : List KvPair},
      Keeps rule (fun e => e ∈ reached ∧ Within cutoff e) tables next →
        Keeps rule (fun e => e ∈ entry :: reached ∧ Within cutoff e) tables next := by
    intro reached hkeeps
    refine { hkeeps with restored := ?_, spared := ?_ }
    · intro ready id record hwaits hacted hat hover
      rcases mem_cons.mp hacted.1 with heq | hin
      · exact absurd (heq ▸ hat) (hskip (heq ▸ hacted.2))
      · exact hkeeps.restored ready id record hwaits ⟨hin, hacted.2⟩ hat hover
    · intro ready id record hwaits hacted hat
      refine hkeeps.spared ready id record hwaits (fun hin => hacted ?_) hat
      exact ⟨mem_cons_of_mem _ hin.1, hin.2⟩
  match taken, h with
  | none, ⟨hrest, hpassed⟩ => exact ⟨hkeeps hrest, forall_mem_cons.mpr ⟨hidle, hpassed⟩⟩
  | some id, ⟨passed, ready, left, record, hsource, hrest, hpassed, heligible⟩ =>
    exact ⟨entry :: passed, ready, left, record, congrArg (entry :: ·) hsource, hkeeps hrest,
      forall_mem_cons.mpr ⟨hidle, hpassed⟩, heligible⟩

/-- An entry of the index still there after a repair elsewhere, and idle then, was idle before. -/
theorem Idle.of_repair (hkeeps : Keeps rule (· = (key, value)) tables (action.repair tables key))
    (hhead : Idle rule tables (key, value)) (h : Idle rule (action.repair tables key) entry) :
    Idle rule tables entry := by
  intro hat id record heligible
  rcases eq_or_ne entry (key, value) with rfl | hne
  · exact hhead hat id record heligible
  · obtain ⟨ready, rfl⟩ := heligible.1
    have hwaits : Waits (action.repair tables key).records id record := by
      rw [records_repair]
      exact heligible.2.1
    refine h (hkeeps.spared ready id record hwaits hne hat) id record ?_
    rwa [records_repair]

/-- An entry a claim acts on without taking its row, and then the rest of the plan. -/
theorem Claimed.cons {cutoff : UInt64} {plan : List KvPair} {key value : Bytes}
    {action : EntryAction} {taken : Option AttemptId} (hwithin : Within cutoff (key, value))
    (hkeeps : Keeps rule (· = (key, value)) tables (action.repair tables key))
    (hhead : Idle rule tables (key, value))
    (h : Claimed rule (Within cutoff) plan (action.repair tables key) next taken) :
    Claimed rule (Within cutoff) ((key, value) :: plan) tables next taken := by
  have hall : ∀ {reached : List KvPair},
      Keeps rule (fun e => e ∈ reached ∧ Within cutoff e) (action.repair tables key) next →
        Keeps rule (fun e => e ∈ (key, value) :: reached ∧ Within cutoff e) tables next := by
    intro reached hrest
    refine (hkeeps.trans hrest).congr fun e => ?_
    rw [mem_cons, or_and_right]
    exact or_congr_left ⟨And.left, fun he => ⟨he, he ▸ hwithin⟩⟩
  match taken, h with
  | none, ⟨hrest, hpassed⟩ =>
    exact ⟨hall hrest, forall_mem_cons.mpr ⟨fun _ => hhead,
      fun e he hin => .of_repair hkeeps hhead (hpassed e he hin)⟩⟩
  | some id, ⟨passed, ready, left, record, hsource, hrest, hpassed, heligible⟩ =>
    rw [records_repair] at heligible
    exact ⟨(key, value) :: passed, ready, left, record, congrArg ((key, value) :: ·) hsource,
      hall hrest, forall_mem_cons.mpr ⟨fun _ => hhead,
        fun e he hin => .of_repair hkeeps hhead (hpassed e he hin)⟩, heligible⟩

/-- **The owner-retained claim over a plan.** -/
theorem claimed_claimOwnerRetained :
    ∀ {plan : List KvPair} {repaired repaired' : Bool} {tables next : Tables}
      {outcome : Option (AttemptId × AttemptRecord)},
      claimOwnerRetained doors kind input cutoff permits plan repaired tables =
        .ok ((outcome, repaired'), next) →
      Claimed (ownerRetainedRule doors kind input cutoff permits) (Within cutoff) plan tables next
          (outcome.map fst) ∧
        ∀ p, outcome = some p → next.records p.1 = some (.record p.2) ∧ p.2.state = .leased ∧
          p.2.leaseOwner = some input.leaseOwner
  | [], repaired, repaired', tables, next, outcome, h => by
    obtain ⟨hout, rfl⟩ := mk.inj (ok.inj h)
    obtain ⟨rfl, -⟩ := mk.inj hout
    refine ⟨⟨.refl fun _ h => absurd h.1 not_mem_nil, fun _ h => absurd h not_mem_nil⟩, fun _ hnone => by cases hnone⟩
  | (key, value) :: plan, repaired, repaired', tables, next, outcome, h => by
    rw [claimOwnerRetained] at h
    split at h
    · next hgone =>
      obtain ⟨hrest, hleased⟩ := claimed_claimOwnerRetained h
      exact ⟨hrest.skip fun _ => hgone, hleased⟩
    next hat =>
    have hat : tables.ready[key]? = some value := not_not.mp hat
    split at h
    · next hkey =>
      obtain ⟨hrest, hleased⟩ := claimed_claimOwnerRetained h
      refine ⟨hrest.skip ?_, hleased⟩
      rintro ⟨ready, id, hnamed, -⟩
      exact nomatch hkey.symm.trans (decodeReadyKey_eq_some.mpr hnamed)
    next keyReadyAt keyId hkey =>
    obtain rfl := decodeReadyKey_eq_some.mp hkey
    split at h
    · next hlater =>
      obtain ⟨hrest, hleased⟩ := claimed_claimOwnerRetained h
      refine ⟨hrest.skip ?_, hleased⟩
      rintro ⟨ready, id, hnamed, hdue⟩
      exact absurd ((readyKey_injective hnamed).1 ▸ hlater) hdue
    next hdue =>
    obtain ⟨action, haction, h⟩ := bind_eq_ok.mp h
    obtain ⟨permitted, hpermitted, h⟩ := bind_eq_ok.mp h
    have hof := of_ownerRetainedEntryAction hdue haction hpermitted
    have hkeeps := keeps_repair hat hof
    have hwithin : Within cutoff (readyKey keyReadyAt keyId, value) := ⟨_, _, rfl, hdue⟩
    split at h
    · next hclaim =>
      obtain ⟨hrest, hleased⟩ := claimed_claimOwnerRetained h
      exact ⟨hrest.cons hwithin hkeeps fun _ => hof.unclaimed hclaim, hleased⟩
    · next id record hclaim =>
      obtain ⟨⟨leased, final⟩, hlease, h⟩ := bind_eq_ok.mp h
      obtain ⟨hout, rfl⟩ := mk.inj (pure_eq_ok.mp h)
      obtain ⟨rfl, -⟩ := mk.inj hout
      have heligible := hof.claimed id record hclaim
      obtain ⟨ready, hentry⟩ := heligible.1
      have hdecodes : ∀ e, (permitted.repair tables (readyKey keyReadyAt keyId)).records id ≠
          some (.undecodable e) := fun e he => by
        rw [records_repair] at he
        exact nomatch he.symm.trans heligible.2.1.1
      rw [(mk.inj hentry).1] at hlease hdecodes
      obtain ⟨hlast, hleased⟩ := keeps_leaseTaken hdecodes hlease
      refine ⟨⟨[], ready, plan, record, congrArg (· :: plan) hentry, ?_,
        fun _ h => absurd h not_mem_nil, hentry ▸ heligible⟩, fun p hp => ?_⟩
      · rw [(mk.inj hentry).1] at hkeeps
        refine (hkeeps.trans hlast).congr fun e => ?_
        rw [or_false, nil_append, mem_singleton, ← hentry, (mk.inj hentry).1]
        refine ⟨And.left, fun he => ⟨he, ?_⟩⟩
        rw [he, ← (mk.inj hentry).1]
        exact hwithin
      · obtain rfl := some.inj hp
        exact hleased

/-! ## All three claims -/

/-- **Readiness across a claim.**  What it reaches and passes over is left with the entry at its own
instant; what it does not reach, and every entry that stood, stays; what goes did not stand or is of a
row leased or held; and the row taken is the first in the order of the entries reached. -/
theorem claims_keep_readiness (doors : Doors) (tables : Tables) :
    (∀ input kindFilter cutoff outcome next,
      claimMatching doors tables input kindFilter cutoff = .ok (outcome, next) →
        Claimed (claimMatchingRule doors input kindFilter cutoff) (fun _ => True)
            tables.ready.toList tables next (outcome.map fst) ∧
          ∀ p, outcome = some p → next.records p.1 = some (.record p.2) ∧ p.2.state = .leased ∧
            p.2.leaseOwner = some input.leaseOwner) ∧
    (∀ kind now permits candidate next,
      readyKindMatching doors tables kind now permits = .ok (candidate, next) →
        Claimed (readyKindRule doors kind now permits) (fun _ => True) tables.ready.toList tables next
          candidate) ∧
    (∀ kind input cutoff permits plan outcome repaired next,
      claimOwnerRetained doors kind input cutoff permits plan false tables =
        .ok ((outcome, repaired), next) →
        Claimed (ownerRetainedRule doors kind input cutoff permits) (Within cutoff) plan tables next
            (outcome.map fst) ∧
          ∀ p, outcome = some p → next.records p.1 = some (.record p.2) ∧ p.2.state = .leased ∧
            p.2.leaseOwner = some input.leaseOwner) ∧
    ∀ rule next id,
      Claimed rule (fun _ => True) tables.ready.toList tables next (some id) →
        ∃ ready record, Eligible rule tables.records (entryAt ready id) id record ∧
          tables.ready[readyKey ready id]? = some id.asBytes ∧
          ∀ ready' id' record', Eligible rule tables.records (entryAt ready' id') id' record' →
            tables.ready[readyKey ready' id']? = some id'.asBytes →
              ((compare ready.toNat ready'.toNat).then (compare id.asBytes id'.asBytes)).isLE := by
  refine ⟨fun _ _ _ _ _ h => claimed_claimMatching h, fun kind now permits candidate next h => ?_,
    fun _ _ _ _ _ _ _ _ h => claimed_claimOwnerRetained h, fun _ _ _ h => h.first⟩
  obtain ⟨⟨taken, mid⟩, hscan, h⟩ := bind_eq_ok.mp h
  obtain ⟨rfl, rfl⟩ := mk.inj (pure_eq_ok.mp h)
  exact claimed_scanAndRepair hscan

/-- An id of one byte repeated. -/
def idOf (b : UInt8) : AttemptId := ⟨List.replicate 16 b, EntityId.length_filled b⟩

/-- A row of kind "mail", waiting from an instant on. -/
def mailRow (scheduledAt : Option UInt64) : AttemptRecord where
  kind := ascii "mail"
  state := .queued
  scheduledAt
  backoffUntil := none
  worker := none
  taskRef := none
  leaseOwner := none
  attemptCount := 0
  claimedAt := none
  updatedAt := 0

/-- Doors that stop nothing. -/
def openDoors : Doors where
  taskDispatchReady _ _ := .ok true
  annotationTaskHold _ := .ok none
  acquireTaskSymbols _ _ := .ok ()
  admits _ _ := .ok ()

/-- Two rows waiting from the start, the second indexed only under a later instant. -/
def oneMisplaced : Tables where
  records id := if id = idOf 1 ∨ id = idOf 2 then some (.record (mailRow none)) else none
  ready := ((∅ : OrderedMap Bytes Bytes).insert (readyKey 0 (idOf 1)) (idOf 1).asBytes).insert
    (readyKey 5 (idOf 2)) (idOf 2).asBytes
  dedupe := ∅

/-- **A claim that leases the first row leaves the second where it is misplaced**: its walk ends at
the lease, before the entry it would have repaired. -/
theorem claim_stops_before_misplaced : ∃ outcome next,
    claimMatching openDoors oneMisplaced ⟨ascii "w", 9⟩ none 9 = .ok (outcome, next) ∧
      outcome.map fst = some (idOf 1) ∧
      Waits oneMisplaced.records (idOf 2) (mailRow none) ∧
      oneMisplaced.ready[readyKey 5 (idOf 2)]? = some (idOf 2).asBytes ∧
      Waits next.records (idOf 2) (mailRow none) ∧
      next.ready[readyKey (readyAt (mailRow none)) (idOf 2)]? = none := by
  refine ⟨_, _, rfl, ?_, ⟨?_, ?_⟩, ?_, ⟨?_, ?_⟩, ?_⟩ <;> rfl

/-- A claim of another kind walks past both rows and puts the second's entry back. -/
theorem claims_keep_readiness_misplaced : ∃ next,
    Claimed (claimMatchingRule openDoors ⟨ascii "w", 9⟩ (some (ascii "chat")) 9) (fun _ => True)
        oneMisplaced.ready.toList oneMisplaced next none ∧
      next.ready[readyKey 0 (idOf 2)]? = some (idOf 2).asBytes ∧
      next.ready[readyKey 5 (idOf 2)]? = none :=
  ⟨_, ((claims_keep_readiness openDoors oneMisplaced).1 ⟨ascii "w", 9⟩ (some (ascii "chat")) 9 none _
    rfl).1, rfl, rfl⟩

end AttemptQueue

end Oneiron
