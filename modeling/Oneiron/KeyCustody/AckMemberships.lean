import Oneiron.KeyCustody.AckJournal

/-!
# KeyCustody/AckMemberships — what a membership's acknowledgements are for

A set once read stays in the past (`Past`): of a member it named, every later membership is at a higher
revision, and every ack stored is for a batch at that revision or past it.  What keeps the second so is
that an ack is written before its member's next drain begins, and that a member comes back to no ack.
-/

namespace Oneiron

open List Option Function RequiredSet TargetId

/-! ### The required set -/

variable {files : AckFiles} {set : RequiredSet} {id : TargetId} {facts : BatchFacts}
  {revision now : U64} {ack : AckRecord}

theorem name_inj {id' : TargetId} (h : id.name = id'.name) : id = id' := by
  cases id
  cases h
  rfl

namespace RequiredSet

variable {set t : RequiredSet} {id id' : TargetId} {m : Member} {specs : List TargetSpec}

theorem holds_iff : set.holds id = true ↔ ∃ m ∈ set.members, m.spec.id = id := by
  rw [holds, member, find?_isSome]
  simp only [decide_eq_true_eq]

theorem mem_of_member (h : set.member id = some m) : m ∈ set.members ∧ m.spec.id = id :=
  ⟨mem_of_find?_eq_some h, by simpa using find?_some h⟩

theorem holds_of_member (h : set.member id = some m) : set.holds id = true := by rw [holds, h]; rfl

/-- Whether the set has or had the member. -/
def Known (set : RequiredSet) (id : TargetId) : Prop := set.holds id = true ∨ set.drained id = true

theorem drained_append {event : SetEvent} {members : List Member} :
    (⟨revision, members, set.history ++ [event]⟩ : RequiredSet).drained id =
      if event.target = id.name then decide (event.change = .drained) else set.drained id := by
  rw [drained, reverse_append, reverse_singleton, singleton_append, find?_cons]
  split
  next h => rw [if_pos (of_decide_eq_true h)]; rfl
  next h => rw [if_neg (of_decide_eq_false h)]; rfl

/-- What adding members does, whoever adds them. -/
structure Adds (set t : RequiredSet) (specs : List TargetSpec) : Prop where
  revision : t.revision.val = set.revision.val + 1
  members : t.members = set.members ++ specs.map fun spec => ⟨spec, t.revision⟩
  fresh : ∀ spec ∈ specs, set.holds spec.id = false
  drained : ∀ id, (∀ spec ∈ specs, spec.id ≠ id) → t.drained id = set.drained id

theorem register_cases (h : set.register specs = some t) :
    t = set ∨ ∃ missing, Adds set t missing ∧ ∀ spec ∈ missing, set.drained spec.id = false := by
  rw [register] at h
  split at h
  · exact Or.inl (some.inj h).symm
  next missing hmissing =>
    obtain ⟨revision, hrevision, rfl⟩ := map_eq_some_iff.mp h
    have hmem (spec : TargetSpec)
        (hspec : spec ∈ specs.filter fun spec => !set.holds spec.id && !set.drained spec.id) :
        set.holds spec.id = false ∧ set.drained spec.id = false := by
      simpa using (mem_filter.mp hspec).2
    exact Or.inr ⟨_, ⟨U64.checkedAdd_eq_some hrevision, rfl, fun spec hspec => (hmem spec hspec).1,
      fun _ _ => rfl⟩, fun spec hspec => (hmem spec hspec).2⟩

theorem reenrol_cases {spec : TargetSpec} (h : set.reenrol spec now = some t) :
    t = set ∨ set.member spec.id = none ∧ Adds set t [spec] := by
  rw [reenrol] at h
  split at h
  · exact Or.inl (some.inj h).symm
  next hholds =>
    obtain ⟨revision, hrevision, rfl⟩ := map_eq_some_iff.mp h
    refine Or.inr ⟨by simpa [holds] using hholds, U64.checkedAdd_eq_some hrevision, rfl, ?_, ?_⟩
    · simpa using hholds
    · intro id hid
      have hne : spec.id.name ≠ id.name := fun hname =>
        hid spec mem_cons_self (name_inj hname)
      by_cases hdrained : set.drained spec.id = true
      · rw [if_pos hdrained, drained_append, if_neg hne]
      · rw [if_neg hdrained]
        rfl

namespace Adds

variable (h : Adds set t specs)
include h

theorem mem_cases (hm : m ∈ t.members) :
    m ∈ set.members ∨ ∃ spec ∈ specs, m = ⟨spec, t.revision⟩ := by
  rw [h.members, mem_append, List.mem_map] at hm
  rcases hm with hm | ⟨spec, hspec, rfl⟩
  exacts [Or.inl hm, Or.inr ⟨spec, hspec, rfl⟩]

theorem member_of_member (hm : set.member id = some m) : t.member id = some m := by
  rw [member] at hm ⊢
  rw [h.members, find?_append, hm]
  rfl

theorem holds_of_holds (hm : set.holds id = true) : t.holds id = true := by
  obtain ⟨m, hm⟩ := isSome_iff_exists.mp hm
  exact holds_of_member (h.member_of_member hm)

theorem known (hknown : set.Known id) : t.Known id := by
  by_cases hid : ∃ spec ∈ specs, spec.id = id
  · obtain ⟨spec, hspec, rfl⟩ := hid
    refine Or.inl (holds_iff.mpr ⟨⟨spec, t.revision⟩, ?_, rfl⟩)
    rw [h.members]
    exact mem_append_right _ (List.mem_map_of_mem hspec)
  · push Not at hid
    rcases hknown with hholds | hdrained
    · exact Or.inl (h.holds_of_holds hholds)
    · exact Or.inr ((h.drained id hid).trans hdrained)

end Adds

variable {revision now : U64} {evidence : DrainEvidence}

theorem member_drain_self : (set.drain id revision evidence now).member id = none := by
  refine find?_eq_none.mpr fun m hm => ?_
  simpa using (mem_filter.mp hm).2

theorem member_drain_of_ne (hne : id' ≠ id) :
    (set.drain id revision evidence now).member id' = set.member id' := by
  simp only [member, drain]
  induction set.members with
  | nil => rfl
  | cons m members ih =>
    by_cases hm : m.spec.id = id
    · rw [filter_cons_of_neg (by simpa using hm), ih,
        find?_cons_of_neg (by simpa [hm] using hne.symm)]
    · rw [filter_cons_of_pos (by simpa using hm), find?_cons, find?_cons, ih]

theorem known_drain (h : set.Known id') : (set.drain id revision evidence now).Known id' := by
  by_cases hid : id' = id
  · subst hid
    exact Or.inr (by rw [drain, drained_append, if_pos rfl]; rfl)
  · rcases h with hholds | hdrained
    · exact Or.inl (by rwa [holds, member_drain_of_ne hid])
    · refine Or.inr ?_
      rwa [drain, drained_append, if_neg fun hname => hid (name_inj hname).symm]

end RequiredSet

/-! ### What a check, a begin and a commit say -/

section Calls

variable {hashes : CustodyHashes} {id : TargetId}

/-- The ack names the member and exactly the batch. -/
def AckRecord.IsOf (hashes : CustodyHashes) (ack : AckRecord) (facts : BatchFacts) (id : TargetId) :
    Prop :=
  TargetId.new ack.targetId = some id ∧ ack.setRevision = facts.setRevision ∧
    ack.position = facts.position ∧ ack.headObjectId = facts.headObjectId ∧
    ack.operationId = Oneiron.operationId hashes facts.position facts.headObjectId

theorem checkAck_ok {fenced : Bool} (h : checkAck hashes set fenced facts ack = .ok id) :
    fenced = false ∧ ack.IsOf hashes facts id ∧
      ∃ m, set.member id = some m ∧ m.added.val ≤ ack.setRevision.val := by
  rw [checkAck] at h
  split at h
  · cases h
  next id' hid =>
    split at h
    · cases h
    next m hm =>
      dsimp only at h
      split at h
      · cases h
      next hfenced =>
        split at h
        · cases h
        next hfits =>
          obtain rfl : id' = id := by injection h
          simp only [not_or, not_not, not_lt] at hfits
          obtain ⟨-, -, hrevision, hadded, hposition, hhead, hoperation, -⟩ := hfits
          exact ⟨by simpa using hfenced, ⟨hid, hrevision, hposition, hhead, hoperation⟩, m, hm, hadded⟩

/-- **A drain commits on an ack that matches the standing fence at the current revision.** -/
theorem AckFiles.commitDrain_cases {ack : DrainAck} {t : RequiredSet}
    (h : files.commitDrain hashes ack now = some (id, t)) :
    ∃ fence member revision evidence, TargetId.new ack.targetId = some id ∧
      files.fences id = some fence ∧ files.set.member id = some member ∧
      fence.revision = files.set.revision ∧ fence.fits hashes member ack = true ∧
      revision.val = files.set.revision.val + 1 ∧ t = files.set.drain id revision evidence now := by
  rw [commitDrain] at h
  split at h
  · cases h
  next id' hid =>
    split at h
    next fence member hfence hmember =>
      split at h
      next hfits =>
        split at h
        next revision bytes hrevision hbytes =>
          obtain ⟨rfl, rfl⟩ := Prod.mk.inj (some.inj h)
          exact ⟨fence, member, revision, _, hid, hfence, hmember, hfits.1, hfits.2,
            U64.checkedAdd_eq_some hrevision, rfl⟩
        · cases h
      · cases h
    · cases h

end Calls

/-! ### What is past -/

namespace AckJournal

/-- A set read earlier, of this journal: its members' later memberships and acks are no older. -/
structure Past (s : AckJournal) (r : RequiredSet) : Prop where
  revision : r.revision.val ≤ s.files.set.revision.val
  added : ∀ m ∈ r.members, m.added.val ≤ r.revision.val
  known : ∀ m ∈ r.members, s.files.set.Known m.spec.id
  later : ∀ m ∈ r.members, ∀ m' ∈ s.files.set.members, m'.spec.id = m.spec.id →
    m.added.val ≤ m'.added.val
  acked : ∀ m ∈ r.members, ∀ ack, s.files.acks m.spec.id = some ack →
    m.added.val ≤ ack.setRevision.val

/-- The ack was accepted, of a batch it names exactly. -/
def Accepted (hashes : CustodyHashes) (s : AckJournal) (id : TargetId) (ack : AckRecord) : Prop :=
  ∃ facts, (facts, ack) ∈ s.accepted ∧ ack.IsOf hashes facts id

/-- Acks read for the members of a set: each accepted, for a batch no older than the membership. -/
def Counts (hashes : CustodyHashes) (s : AckJournal) (found : AckMap) (set : RequiredSet) : Prop :=
  ∀ m ∈ set.members, ∀ ack, found m.spec.id = some ack →
    s.Accepted hashes m.spec.id ack ∧ m.added.val ≤ ack.setRevision.val

/-- What holds of a call at each stage. -/
def StageHeld (hashes : CustodyHashes) (s : AckJournal) : AckStage → Prop
  | .idle | .removing _ _ | .stopped => True
  | .checking _ _ set since => s.Past set ∧ ∀ id, since id ≤ s.drains id ∧
      (s.drains id = since id → ∀ m, set.member id = some m → s.files.set.member id = some m)
  | .checked facts ack id since => ack.IsOf hashes facts id ∧ s.files.set.Known id ∧
      since id ≤ s.drains id ∧ (s.drains id = since id → s.files.fences id = none ∧
        ∃ m, s.files.set.member id = some m ∧ m.added.val ≤ ack.setRevision.val)
  | .passing set => s.Past set
  | .reading set again _ found | .counting set again found => s.Past set ∧ s.Past again ∧
      s.Counts hashes found set ∧ s.Counts hashes found again

/-- **What holds of the journal** in every run that keeps a drain out of an ack's window and brings a
member back to no ack. -/
structure Held (hashes : CustodyHashes) (s : AckJournal) : Prop where
  present : s.Past s.files.set
  stored : ∀ id ack, s.files.acks id = some ack →
    s.files.set.Known id ∧ s.Accepted hashes id ack
  stages : ∀ c, s.StageHeld hashes (s.tasks c)

/-- How a journal moves on, as far as calls under way can tell. -/
structure Carries (s t : AckJournal) : Prop where
  accepted : s.accepted ⊆ t.accepted
  drains : ∀ id, s.drains id ≤ t.drains id
  known : ∀ id, s.files.set.Known id → t.files.set.Known id
  past : ∀ r, s.Past r → t.Past r
  member : ∀ id, t.drains id = s.drains id → ∀ m, s.files.set.member id = some m →
    t.files.set.member id = some m
  fences : ∀ id, t.drains id = s.drains id → s.files.fences id = none → t.files.fences id = none

variable {hashes : CustodyHashes} {s t : AckJournal} {c : ℕ} {stage : AckStage}

theorem Carries.accepts (h : Carries s t) {id : TargetId} {ack : AckRecord}
    (hack : s.Accepted hashes id ack) : t.Accepted hashes id ack := by
  obtain ⟨facts, hmem, hof⟩ := hack
  exact ⟨facts, h.accepted hmem, hof⟩

theorem Carries.counts (h : Carries s t) {found : AckMap} (hcounts : s.Counts hashes found set) :
    t.Counts hashes found set := by
  intro m hm ack hack
  obtain ⟨haccepted, hle⟩ := hcounts m hm ack hack
  exact ⟨h.accepts haccepted, hle⟩

theorem StageHeld.carried (h : s.StageHeld hashes stage) (hcarries : Carries s t) :
    t.StageHeld hashes stage := by
  have hsame {id : TargetId} {since : ℕ} (hle : since ≤ s.drains id) (heq : t.drains id = since) :
      s.drains id = since ∧ t.drains id = s.drains id := by
    have hrises := hcarries.drains id
    omega
  cases stage with
  | idle | removing | stopped => trivial
  | checking facts ack set since =>
    obtain ⟨hpast, hsince⟩ := h
    refine ⟨hcarries.past _ hpast, fun id => ⟨(hsince id).1.trans (hcarries.drains id), ?_⟩⟩
    intro heq m hm
    obtain ⟨hs, ht⟩ := hsame (hsince id).1 heq
    exact hcarries.member id ht m ((hsince id).2 hs m hm)
  | checked facts ack id since =>
    obtain ⟨hof, hknown, hle, hstands⟩ := h
    refine ⟨hof, hcarries.known id hknown, hle.trans (hcarries.drains id), fun heq => ?_⟩
    obtain ⟨hs, ht⟩ := hsame hle heq
    obtain ⟨hfence, m, hm, hadded⟩ := hstands hs
    exact ⟨hcarries.fences id ht hfence, m, hcarries.member id ht m hm, hadded⟩
  | passing set => exact hcarries.past _ h
  | reading set again rest found | counting set again found =>
    obtain ⟨hset, hagain, hcounts, hcounts'⟩ := h
    exact ⟨hcarries.past _ hset, hcarries.past _ hagain, hcarries.counts hcounts,
      hcarries.counts hcounts'⟩

/-- A call that goes on knowing enough. -/
theorem Held.goes (h : s.Held hashes) (hstage : s.StageHeld hashes stage) :
    (s.goes c stage).Held hashes where
  present := ⟨h.present.1, h.present.2, h.present.3, h.present.4, h.present.5⟩
  stored := h.stored
  stages c' := by
    have hcarries : Carries s (s.goes c stage) :=
      ⟨fun _ => id, fun _ => le_rfl, fun _ => id, fun _ h => ⟨h.1, h.2, h.3, h.4, h.5⟩,
        fun _ _ _ => id, fun _ _ => id⟩
    by_cases hc : c' = c
    · subst hc
      rw [show (s.goes c' stage).tasks c' = stage from update_self ..]
      exact hstage.carried hcarries
    · rw [show (s.goes c stage).tasks c' = s.tasks c' from update_of_ne hc ..]
      exact (h.stages c').carried hcarries

/-- A move of the files, while every call stays where it is. -/
theorem Held.carried (h : s.Held hashes) (htasks : t.tasks = s.tasks) (hcarries : Carries s t)
    (hpresent : t.Past t.files.set)
    (hstored : ∀ id ack, t.files.acks id = some ack →
      s.files.acks id = some ack ∨ t.files.set.Known id ∧ t.Accepted hashes id ack) :
    t.Held hashes where
  present := hpresent
  stored id ack hack := by
    rcases hstored id ack hack with hold | hnew
    · obtain ⟨hknown, haccepted⟩ := h.stored id ack hold
      exact ⟨hcarries.known id hknown, hcarries.accepts haccepted⟩
    · exact hnew
  stages c := by
    rw [htasks]
    exact (h.stages c).carried hcarries

/-! ### The set changes -/

variable {specs : List TargetSpec}

section

variable (h : s.Held hashes)

include h

/-- **Members come at a higher revision than any set read before**, to no ack. -/
theorem Held.adds (hadds : s.files.set.Adds set specs)
    (hnone : ∀ spec ∈ specs, s.files.acks spec.id = none) : (s.withSet set).Held hashes := by
  have hrises := hadds.revision
  have hpast (r : RequiredSet) (hr : s.Past r) : (s.withSet set).Past r := by
    refine ⟨hr.revision.trans (by show _ ≤ set.revision.val; omega), hr.added, fun m hm =>
      hadds.known (hr.known m hm), fun m hm m' hm' hid => ?_, hr.acked⟩
    rcases hadds.mem_cases hm' with hold | ⟨spec, -, rfl⟩
    · exact hr.later m hm m' hold hid
    · have hadded := hr.added m hm
      have hrevision := hr.revision
      show _ ≤ set.revision.val
      omega
  refine h.carried rfl ⟨fun _ => id, fun _ => le_rfl, fun _ => hadds.known, hpast,
    fun _ _ _ => hadds.member_of_member, fun _ _ => id⟩ ⟨le_rfl, fun m hm => ?_, fun m hm => ?_,
    fun m hm m' hm' hid => ?_, fun m hm ack hack => ?_⟩ fun _ _ => Or.inl
  · rcases hadds.mem_cases hm with hold | ⟨spec, -, rfl⟩
    · have hadded := h.present.added m hold
      show _ ≤ set.revision.val
      omega
    · exact le_rfl
  · exact Or.inl (holds_iff.mpr ⟨m, hm, rfl⟩)
  · rcases hadds.mem_cases hm' with hold' | ⟨spec', -, rfl⟩
    · rcases hadds.mem_cases hm with hold | ⟨spec, hspec, rfl⟩
      · exact h.present.later m hold m' hold' hid
      · have hfresh := hadds.fresh spec hspec
        rw [holds_iff.mpr ⟨m', hold', hid⟩] at hfresh
        cases hfresh
    · rcases hadds.mem_cases hm with hold | ⟨spec, hspec, rfl⟩
      · have hadded := h.present.added m hold
        show _ ≤ set.revision.val
        omega
      · exact le_rfl
  · rcases hadds.mem_cases hm with hold | ⟨spec, hspec, rfl⟩
    · exact h.present.acked m hold ack hack
    · exact absurd ((hnone spec hspec).symm.trans hack) nofun

/-- A registered member never came before, so no ack of it is stored. -/
theorem Held.register (hset : s.files.set.register specs = some set) :
    (s.withSet set).Held hashes := by
  rcases register_cases hset with rfl | ⟨missing, hadds, hdrained⟩
  · exact h
  · refine h.adds hadds fun spec hspec => ?_
    cases hack : s.files.acks spec.id with
    | none => rfl
    | some ack =>
      rcases (h.stored _ _ hack).1 with hholds | hdrain
      · rw [hadds.fresh spec hspec] at hholds
        cases hholds
      · rw [hdrained spec hspec] at hdrain
        cases hdrain

/-- **A drain takes its member out of the set alone.** -/
theorem Held.drain {evidence : DrainEvidence} (hrises : revision.val = s.files.set.revision.val + 1)
    (lock : Option ℕ) :
    ({ (s.withSet (s.files.set.drain id revision evidence now)).counts id with lock := lock } :
      AckJournal).Held hashes := by
  have hcount (id' : TargetId) (heq : update s.drains id (s.drains id + 1) id' =
      s.drains id') : id' ≠ id := by
    rintro rfl
    rw [update_self] at heq
    omega
  have hpast (r : RequiredSet) (hr : s.Past r) :
      ({ (s.withSet (s.files.set.drain id revision evidence now)).counts id with lock := lock } :
        AckJournal).Past r :=
    ⟨hr.revision.trans (by show _ ≤ revision.val; omega), hr.added,
      fun m hm => known_drain (hr.known m hm),
      fun m hm m' hm' => hr.later m hm m' (mem_filter.mp hm').1, hr.acked⟩
  refine h.carried rfl ⟨fun _ h => h, fun id' => ?_, fun _ => known_drain,
    hpast, fun id' heq m hm => ?_, fun _ _ => fun h => h⟩ ?_ fun _ _ => Or.inl
  · show s.drains id' ≤ update s.drains id (s.drains id + 1) id'
    rw [update_apply]
    split
    next heq => subst heq; omega
    · exact le_rfl
  · exact (member_drain_of_ne (hcount id' heq)).trans hm
  · have hpresent := hpast _ h.present
    refine ⟨le_rfl, fun m hm => ?_, fun m hm => hpresent.known m (mem_filter.mp hm).1,
      fun m hm => hpresent.later m (mem_filter.mp hm).1,
      fun m hm => hpresent.acked m (mem_filter.mp hm).1⟩
    have hadded := h.present.added m (mem_filter.mp hm).1
    show _ ≤ revision.val
    omega

/-! ### The files change -/

/-- Files that change nothing but fewer acks, notes and fences. -/
theorem Held.fewer (hset : files.set = s.files.set)
    (hacks : ∀ id ack, files.acks id = some ack → s.files.acks id = some ack)
    (hfences : ∀ id, s.files.fences id = none → files.fences id = none) :
    (s.withFiles files).Held hashes := by
  have hpast (r : RequiredSet) (hr : s.Past r) : (s.withFiles files).Past r :=
    ⟨by rw [withFiles, hset]; exact hr.revision, hr.added, by rw [withFiles, hset]; exact hr.known,
      by rw [withFiles, hset]; exact hr.later, fun m hm ack hack => hr.acked m hm ack (hacks _ _ hack)⟩
  refine h.carried rfl ⟨fun _ h => h, fun _ => le_rfl, fun id => ?_, hpast, fun id _ m => ?_,
    fun id _ => hfences id⟩ ?_ fun id ack hack => Or.inl (hacks id ack hack)
  · rw [withFiles, hset]
    exact fun h => h
  · rw [withFiles, hset]
    exact fun h => h
  · rw [show (s.withFiles files).files.set = s.files.set from hset]
    exact hpast _ h.present

theorem Held.remove (id : TargetId) (file : AckFiles.OfMember) :
    (s.withFiles (s.files.remove id file)).Held hashes := by
  cases file with
  | fence =>
    refine h.fewer rfl (fun _ _ h => h) fun id' hid' => ?_
    show update s.files.fences id none id' = none
    rw [update_apply]
    split
    exacts [rfl, hid']
  | ack =>
    refine h.fewer rfl (fun id' ack hack => ?_) fun _ h => h
    rw [show (s.files.remove id .ack).acks = update s.files.acks id none from rfl,
      update_apply] at hack
    split at hack
    exacts [absurd hack nofun, hack]
  | pending | rootOnly => exact h.fewer rfl (fun _ _ h => h) fun _ h => h

/-- A fence, as its drain is counted. -/
theorem Held.begin (id : TargetId) (fence : Fence) :
    ((s.withFiles { s.files with fences := update s.files.fences id (some fence) }).counts
      id).Held hashes := by
  have hcount (id' : TargetId) (heq : update s.drains id (s.drains id + 1) id' =
      s.drains id') : id' ≠ id := by
    rintro rfl
    rw [update_self] at heq
    omega
  refine h.carried rfl ⟨fun _ h => h, fun id' => ?_, fun _ h => h,
    fun _ hr => ⟨hr.1, hr.2, hr.3, hr.4, hr.5⟩, fun _ _ _ h => h, fun id' heq hnone => ?_⟩
    ⟨h.present.1, h.present.2, h.present.3, h.present.4, h.present.5⟩ fun _ _ => Or.inl
  · show s.drains id' ≤ update s.drains id (s.drains id + 1) id'
    rw [update_apply]
    split
    next heq => subst heq; omega
    · exact le_rfl
  · show update s.files.fences id (some fence) id' = none
    rw [update_of_ne (hcount id' heq)]
    exact hnone

/-- **An ack whose check still stands is written.** -/
theorem Held.accept {m : Member} (hof : ack.IsOf hashes facts id)
    (hm : s.files.set.member id = some m) (hadded : m.added.val ≤ ack.setRevision.val) :
    ({ s.withFiles (s.files.accept facts id ack) with
      accepted := s.accepted ++ [(facts, ack)] } : AckJournal).Held hashes := by
  obtain ⟨hmem, hid⟩ := mem_of_member hm
  have hset : (s.files.accept facts id ack).set = s.files.set := by
    rw [AckFiles.accept]
    split <;> rfl
  have hfences : (s.files.accept facts id ack).fences = s.files.fences := by
    rw [AckFiles.accept]
    split <;> rfl
  have hacks (id' : TargetId) (ack' : AckRecord)
      (hack' : (s.files.accept facts id ack).acks id' = some ack') :
      s.files.acks id' = some ack' ∨ id' = id ∧ ack' = ack := by
    rw [AckFiles.accept] at hack'
    split at hack'
    · dsimp only at hack'
      rw [update_apply] at hack'
      split at hack'
      next heq => exact Or.inr ⟨heq, (some.inj hack').symm⟩
      · exact Or.inl hack'
    · exact Or.inl hack'
  have hpast (r : RequiredSet) (hr : s.Past r) :
      ({ s.withFiles (s.files.accept facts id ack) with
        accepted := s.accepted ++ [(facts, ack)] } : AckJournal).Past r := by
    refine ⟨?_, hr.added, fun m' hm' => ?_, fun m' hm' => ?_, fun m' hm' ack' hack' => ?_⟩
    · show _ ≤ (s.files.accept facts id ack).set.revision.val
      rw [hset]
      exact hr.revision
    · show (s.files.accept facts id ack).set.Known _
      rw [hset]
      exact hr.known m' hm'
    · show ∀ m'' ∈ (s.files.accept facts id ack).set.members, _
      rw [hset]
      exact hr.later m' hm'
    · rcases hacks _ _ hack' with hold | ⟨heq, rfl⟩
      · exact hr.acked m' hm' ack' hold
      · exact (hr.later m' hm' m hmem (hid.trans heq.symm)).trans hadded
  refine h.carried rfl ⟨subset_append_left _ _, fun _ => le_rfl, fun id' => ?_, hpast,
    fun id' _ m' => ?_, fun id' _ hnone => ?_⟩ ?_ fun id' ack' hack' => ?_
  · show _ → (s.files.accept facts id ack).set.Known _
    rw [hset]
    exact fun h => h
  · show _ → (s.files.accept facts id ack).set.member _ = _
    rw [hset]
    exact fun h => h
  · show (s.files.accept facts id ack).fences id' = none
    rw [hfences]
    exact hnone
  · show Past _ (s.files.accept facts id ack).set
    rw [hset]
    exact hpast _ h.present
  · rcases hacks id' ack' hack' with hold | ⟨rfl, rfl⟩
    · exact Or.inl hold
    · refine Or.inr ⟨?_, facts, mem_append_right _ mem_cons_self, hof⟩
      show (s.files.accept facts id' ack').set.Known id'
      rw [hset]
      exact Or.inl (holds_of_member hm)

end

end AckJournal

end Oneiron
