import Oneiron.KeyCustody.AckMemberships

/-!
# KeyCustody/AckJournalSafety — whose acknowledgement counts, in every run

Two orders break it, and no other: an ack checked before a drain of its member and written after, and a
member brought back to the ack a commit cut short left it.  Without them no member is counted as holding
a head it does not hold; the set's own moves are sound in any order.
-/

namespace Oneiron

open Option Function AckJournal RequiredSet

/-! ### Runs -/

/-- An ack is written before another drain of its member begins or ends, and a member is brought back
where no ack of it is left. -/
def Orderly (s : AckJournal) : ℕ × AckOp → Prop
  | (c, .accepts) => ∀ facts ack id since, s.tasks c = .checked facts ack id since →
      s.drains id = since id
  | (_, .reenrols spec _) => s.files.set.member spec.id = none → s.files.acks spec.id = none
  | _ => True

variable {id : TargetId}

namespace AckJournal

variable {hashes : CustodyHashes} {s t : AckJournal} {c : ℕ} {op : AckOp}

theorem Held.releases (h : s.Held hashes) (c : ℕ) : (s.releases c).Held hashes := by
  rw [AckJournal.releases]
  split
  · exact h.carried rfl ⟨fun _ h => h, fun _ => le_rfl, fun _ h => h,
      fun _ hr => ⟨hr.1, hr.2, hr.3, hr.4, hr.5⟩, fun _ _ _ h => h, fun _ _ h => h⟩
      ⟨h.present.1, h.present.2, h.present.3, h.present.4, h.present.5⟩ fun _ _ => Or.inl
  · exact h

/-- What one more ack read adds to those found. -/
theorem Held.counts_found (h : s.Held hashes) {set : RequiredSet} (hset : s.Past set)
    {found : AckMap} (hcounts : s.Counts hashes found set) (id : TargetId) :
    s.Counts hashes (match s.files.acks id with
      | none => found
      | some ack => Function.update found id (some ack)) set := by
  cases hstored : s.files.acks id with
  | none => exact hcounts
  | some stored =>
    intro m hm ack hack
    dsimp only at hack
    rw [update_apply] at hack
    split at hack
    next hid =>
      obtain rfl := some.inj hack
      rw [← hid] at hstored
      exact ⟨(h.stored _ _ hstored).2, hset.acked m hm stored hstored⟩
    · exact hcounts m hm ack hack

/-- **Every orderly step keeps it.** -/
theorem Held.step (h : s.Held hashes) {label : ℕ × AckOp} (hstep : AckStep hashes s label t)
    (horderly : Orderly s label) : t.Held hashes := by
  cases hstep with
  | registers _ _ hset => exact (h.register hset).goes (h.register hset).present
  | readsSet => exact h.goes h.present
  | @readsSetAgain c set hstage =>
    have hset := h.stages c
    rw [hstage] at hset
    exact h.goes ⟨hset, h.present, fun _ _ _ => nofun, fun _ _ _ => nofun⟩
  | @readsAck c set again member rest found hstage =>
    have hknows := h.stages c
    rw [hstage] at hknows
    obtain ⟨hset, hagain, hcounts, hcounts'⟩ := hknows
    exact h.goes ⟨hset, hagain, h.counts_found hset hcounts _, h.counts_found hagain hcounts' _⟩
  | @endsReading c set again found hstage =>
    have hknows := h.stages c
    rw [hstage] at hknows
    exact h.goes hknows
  | checks facts ack => exact h.goes ⟨h.present, fun _ => ⟨le_rfl, fun _ _ hm => hm⟩⟩
  | @readsFence c facts ack set since id hstage hid hcheck =>
    have hknows := h.stages c
    rw [hstage] at hknows
    obtain ⟨hpast, hsince⟩ := hknows
    obtain ⟨hfence, hof, m, hm, hadded⟩ := checkAck_ok hcheck
    obtain ⟨hmem, heq⟩ := mem_of_member hm
    refine h.goes ⟨hof, heq ▸ hpast.known m hmem, (hsince id).1, fun hsame => ⟨?_, m,
      (hsince id).2 hsame m hm, hadded⟩⟩
    simpa using hfence
  | @accepts c facts ack id since hstage =>
    have hknows := h.stages c
    rw [hstage] at hknows
    obtain ⟨hof, -, -, hstands⟩ := hknows
    obtain ⟨-, m, hm, hadded⟩ := hstands (horderly _ _ _ _ hstage)
    exact (h.accept hof hm hadded).goes trivial
  | notes id note => exact h.fewer rfl (fun _ _ h => h) fun _ h => h
  | begins => exact h.begin _ _
  | beginsAgain => exact h
  | commits _ _ hcommit =>
    obtain ⟨_, _, revision, evidence, -, -, -, -, -, hrises, rfl⟩ := AckFiles.commitDrain_cases hcommit
    exact (h.drain hrises _).goes trivial
  | @removes c id file rest removed hstage =>
    cases removed with
    | true => exact (h.remove id file).goes trivial
    | false => exact Held.goes (s := s.withFiles s.files) h trivial
  | unlocks | stops => exact (h.releases _).goes trivial
  | reenrols _ _ hset =>
    rcases reenrol_cases hset with rfl | ⟨hmember, hadds⟩
    · exact h
    · refine h.adds hadds fun spec hspec => ?_
      obtain rfl := List.mem_singleton.mp hspec
      exact horderly hmember

theorem held_init : init.Held hashes where
  present := ⟨le_rfl, nofun, nofun, nofun, nofun⟩
  stored := nofun
  stages _ := trivial

theorem Held.of_reachable (h : ((ackSystem hashes).restrict Orderly).Reachable s) : s.Held hashes :=
  h.invariant (·.Held hashes) (fun hinit => hinit ▸ held_init) fun hs hstep => hs.step hstep.1 hstep.2

/-! ### Whatever the order -/

/-- A drain that removes files holds the lock, and its member is out of the set. -/
def Locked (s : AckJournal) : Prop :=
  ∀ c id rest, s.tasks c = .removing id rest → s.lock = some c ∧ s.files.set.member id = none

variable {label : ℕ × AckOp} {stage : AckStage}

theorem Locked.goes (h : s.Locked) (hstage : ∀ id rest, stage = .removing id rest →
      s.lock = some c ∧ s.files.set.member id = none) : (s.goes c stage).Locked := by
  intro c' id rest hc'
  by_cases hc : c' = c
  · subst hc
    rw [show (s.goes c' stage).tasks c' = stage from update_self ..] at hc'
    exact hstage id rest hc'
  · rw [show (s.goes c stage).tasks c' = s.tasks c' from update_of_ne hc ..] at hc'
    exact h c' id rest hc'

/-- Where no one holds the lock, no drain removes files. -/
theorem Locked.of_free (h : s.Locked) (hfree : s.lock = none) (htasks : t.tasks = s.tasks) :
    t.Locked := by
  intro c id rest hc
  rw [htasks] at hc
  have hlock := (h c id rest hc).1
  rw [hfree] at hlock
  cases hlock

/-- A call that lets go of the lock and goes on elsewhere. -/
theorem Locked.lets_go (h : s.Locked) (hstage : ∀ id rest, stage ≠ .removing id rest) :
    ((s.releases c).goes c stage).Locked := by
  intro c' id rest hc'
  by_cases hc : c' = c
  · subst hc
    rw [show ((s.releases c').goes c' stage).tasks c' = stage from update_self ..] at hc'
    exact absurd hc' (hstage id rest)
  · rw [show ((s.releases c).goes c stage).tasks c' = (s.releases c).tasks c' from
      update_of_ne hc ..] at hc'
    rw [AckJournal.goes, releases]
    split
    next hlock =>
      rw [releases, if_pos hlock] at hc'
      have hheld := (h c' id rest hc').1
      rw [hlock] at hheld
      exact absurd (some.inj hheld).symm hc
    next hlock =>
      rw [releases, if_neg hlock] at hc'
      exact h c' id rest hc'

theorem Locked.step (h : s.Locked) {label : ℕ × AckOp} (hstep : AckStep hashes s label t) :
    t.Locked := by
  cases hstep with
  | registers _ hfree | accepts _ hfree =>
    refine Locked.goes (h.of_free hfree ?_) (by simp)
    rfl
  | readsSet | readsSetAgain | readsAck | endsReading | checks | readsFence =>
    exact h.goes (by simp)
  | notes | beginsAgain => exact h
  | begins _ hfree | reenrols _ hfree => exact h.of_free hfree rfl
  | commits _ hfree hcommit =>
    obtain ⟨_, _, _, _, -, -, -, -, -, -, rfl⟩ := AckFiles.commitDrain_cases hcommit
    refine Locked.goes (h.of_free hfree ?_) fun id rest hstage => ?_
    · rfl
    · obtain ⟨rfl, -⟩ := AckStage.removing.inj hstage
      exact ⟨rfl, member_drain_self⟩
  | @removes c id file rest removed hstage =>
    have hset (removed : Bool) : (if removed then s.files.remove id file else s.files).set =
        s.files.set := by
      cases removed with
      | false => rfl
      | true => cases file <;> rfl
    have hfiles : (s.withFiles (if removed then s.files.remove id file else s.files)).Locked := by
      intro c' id' rest' hc'
      rw [withFiles, hset]
      exact h c' id' rest' hc'
    refine hfiles.goes fun id' rest' heq => ?_
    obtain ⟨rfl, -⟩ := AckStage.removing.inj heq
    rw [withFiles, hset]
    exact h c _ _ hstage
  | unlocks | stops => exact h.lets_go (by simp)

theorem Locked.of_reachable (h : (ackSystem hashes).Reachable s) : s.Locked :=
  h.invariant Locked (fun hinit => by rw [hinit]; exact fun _ _ _ => nofun)
    fun hs hstep => hs.step hstep

/-- **What a step does to the set**: nothing, members added at the next revision, or one drained. -/
theorem set_cases (hstep : AckStep hashes s label t) : t.files.set = s.files.set ∨
    (∃ specs, s.files.set.Adds t.files.set specs ∧
      ((∀ spec ∈ specs, s.files.set.drained spec.id = false) ∨
        ∃ spec now, label.2 = .reenrols spec now ∧ specs = [spec])) ∨
    ∃ ack now id fence member revision evidence, label.2 = .commits ack now ∧
      TargetId.new ack.targetId = some id ∧ s.files.fences id = some fence ∧
      s.files.set.member id = some member ∧ fence.revision = s.files.set.revision ∧
      fence.fits hashes member ack = true ∧ revision.val = s.files.set.revision.val + 1 ∧
      t.files.set = s.files.set.drain id revision evidence now := by
  cases hstep with
  | registers _ _ hset =>
    rcases register_cases hset with rfl | ⟨missing, hadds, hdrained⟩
    exacts [Or.inl rfl, Or.inr (Or.inl ⟨missing, hadds, Or.inl hdrained⟩)]
  | reenrols _ _ hset =>
    rcases reenrol_cases hset with rfl | ⟨-, hadds⟩
    exacts [Or.inl rfl, Or.inr (Or.inl ⟨_, hadds, Or.inr ⟨_, _, rfl, rfl⟩⟩)]
  | commits _ _ hcommit =>
    obtain ⟨fence, member, revision, evidence, hid, hfence, hmember, hrevision, hfits, hrises, rfl⟩ :=
      AckFiles.commitDrain_cases hcommit
    exact Or.inr (Or.inr ⟨_, _, _, fence, member, revision, evidence, rfl, hid, hfence, hmember,
      hrevision, hfits, hrises, rfl⟩)
  | accepts =>
    refine Or.inl ?_
    rw [AckFiles.accept]
    split <;> rfl
  | @removes c id file rest removed =>
    cases removed with
    | false => exact Or.inl rfl
    | true => cases file <;> exact Or.inl rfl
  | unlocks | stops =>
    refine Or.inl ?_
    rw [goes, releases]
    split <;> rfl
  | _ => exact Or.inl rfl

theorem known_step (hstep : AckStep hashes s label t) (h : s.files.set.Known id) :
    t.files.set.Known id := by
  rcases set_cases hstep with heq | ⟨specs, hadds, -⟩ |
    ⟨_, _, _, _, _, _, _, -, -, -, -, -, -, -, heq⟩
  · rwa [heq]
  · exact hadds.known h
  · rw [heq]
    exact known_drain h

/-- **The revision rises with every change of the set**, and a member leaves only by a commit whose ack
matched the fence standing at the current revision. -/
theorem revision_rises (hstep : AckStep hashes s label t) :
    (t.files.set = s.files.set ∨ s.files.set.revision.val < t.files.set.revision.val) ∧
    ∀ id, s.files.set.holds id = true → t.files.set.holds id = false →
      ∃ ack now fence member, label.2 = .commits ack now ∧ TargetId.new ack.targetId = some id ∧
        s.files.fences id = some fence ∧ s.files.set.member id = some member ∧
        fence.revision = s.files.set.revision ∧ fence.fits hashes member ack = true := by
  rcases set_cases hstep with heq | ⟨specs, hadds, -⟩ |
    ⟨ack, now, id, fence, member, revision, evidence, hop, hid, hfence, hmember, hrevision, hfits,
      hrises, heq⟩
  · refine ⟨Or.inl heq, fun id hold hnew => ?_⟩
    rw [heq, hold] at hnew
    cases hnew
  · refine ⟨Or.inr (by rw [hadds.revision]; omega), fun id hold hnew => ?_⟩
    rw [hadds.holds_of_holds hold] at hnew
    cases hnew
  · refine ⟨Or.inr ?_, fun id' hold hnew => ?_⟩
    · rw [heq]
      show _ < revision.val
      omega
    · have hid' : id' = id := by
        by_contra hne
        rw [heq, RequiredSet.holds, member_drain_of_ne hne] at hnew
        rw [RequiredSet.holds, hnew] at hold
        cases hold
      subst hid'
      exact ⟨ack, now, fence, member, hop, hid, hfence, hmember, hrevision, hfits⟩

/-- **A drained member comes back only by its re-enrolment.** -/
theorem comes_back {u : AckJournal} {labels : List (ℕ × AckOp)}
    (hrun : (ackSystem hashes).Run s labels t) (hwas : s.files.set.holds id = true)
    (hnot : t.files.set.holds id = false) (hstep : AckStep hashes t label u)
    (hback : u.files.set.holds id = true) :
    ∃ spec now, label.2 = .reenrols spec now ∧ spec.id = id := by
  have hknown := hrun.preserves (·.files.set.Known id) (fun h hstep => known_step hstep h)
    (Or.inl hwas)
  have hdrained : t.files.set.drained id = true := by
    rcases hknown with hholds | hdrained
    · rw [hnot] at hholds
      cases hholds
    · exact hdrained
  rcases set_cases hstep with heq | ⟨specs, hadds, hcame⟩ |
    ⟨_, _, id', _, _, _, _, -, -, -, -, -, -, -, heq⟩
  · rw [heq, hnot] at hback
    cases hback
  · obtain ⟨m, hm, hid⟩ := holds_iff.mp hback
    rcases hadds.mem_cases hm with hold | ⟨spec, hspec, rfl⟩
    · rw [holds_iff.mpr ⟨m, hold, hid⟩] at hnot
      cases hnot
    · rcases hcame with hfresh | ⟨spec', now, hop, rfl⟩
      · have hfresh := hfresh spec hspec
        rw [show spec.id = id from hid, hdrained] at hfresh
        cases hfresh
      · obtain rfl := List.mem_singleton.mp hspec
        exact ⟨spec, now, hop, hid⟩
  · obtain ⟨m, hm, hid⟩ := holds_iff.mp hback
    rw [heq] at hm
    rw [holds_iff.mpr ⟨m, (List.mem_filter.mp hm).1, hid⟩] at hnot
    cases hnot

/-- **A member's stored ack never goes back.** -/
theorem ack_rises (h : (ackSystem hashes).Reachable s) (hstep : AckStep hashes s label t)
    {ack : AckRecord} (hmember : s.files.set.holds id = true) (hack : s.files.acks id = some ack) :
    ∃ ack', t.files.acks id = some ack' ∧ ack.position.Reaches ack'.position := by
  have hsame (heq : t.files.acks id = s.files.acks id) :
      ∃ ack', t.files.acks id = some ack' ∧ ack.position.Reaches ack'.position :=
    ⟨ack, heq.trans hack, ack.position.reaches_refl⟩
  cases hstep with
  | @accepts c facts accepted id' since =>
    by_cases hreaches : (s.files.acks id').all (·.position.Reaches accepted.position) = true
    · have hfiles : (s.files.accept facts id' accepted).acks =
          Function.update s.files.acks id' (some accepted) := by rw [AckFiles.accept, if_pos hreaches]
      by_cases hid : id = id'
      · subst hid
        rw [hack, all_some, decide_eq_true_eq] at hreaches
        exact ⟨accepted, (congrFun hfiles id).trans (update_self ..), hreaches⟩
      · exact hsame ((congrFun hfiles id).trans (update_of_ne hid ..))
    · refine hsame ?_
      show (s.files.accept facts id' accepted).acks id = _
      rw [AckFiles.accept, if_neg hreaches]
  | @removes c id' file rest removed hstage =>
    have hout := (Locked.of_reachable h c _ _ hstage).2
    have hne : id ≠ id' := by
      rintro rfl
      rw [RequiredSet.holds, hout] at hmember
      cases hmember
    cases removed with
    | false => exact hsame rfl
    | true =>
      cases file with
      | ack => exact hsame (update_of_ne hne ..)
      | _ => exact hsame rfl
  | unlocks | stops =>
    refine hsame ?_
    rw [goes, releases]
    split <;> rfl
  | _ => exact hsame rfl

end AckJournal

/-- **The position counted as published is held by every member it is counted for.** -/
theorem leastAcked_held {acks : AckMap} {here least : CustodyPosition} :
    ∀ {members : List Member} {sofar : Option CustodyPosition},
      leastAcked acks here members sofar = some least →
      (∀ p, sofar = some p → least.seq.val ≤ p.seq.val) ∧ ∀ m ∈ members, ∃ ack,
        acks m.spec.id = some ack ∧ ack.position.SameLineage here ∧ ack.position.epoch = here.epoch ∧
          least.seq.val ≤ ack.position.seq.val
  | [], sofar, h => ⟨fun p hp => by rw [leastAcked, hp] at h; exact (some.inj h) ▸ le_rfl, nofun⟩
  | member :: members, sofar, h => by
    rw [leastAcked] at h
    split at h
    next _ held hseq hheld =>
      obtain ⟨hleast, hmembers⟩ := leastAcked_held h
      have hhere : held.position.SameLineage here ∧ held.position.epoch = here.epoch := by
        by_contra hnot
        rw [ackedSeq, hheld] at hseq
        simp only [if_neg hnot] at hseq
        cases hseq
      cases sofar with
      | none =>
        refine ⟨nofun, List.forall_mem_cons.mpr ⟨⟨held, hheld, hhere.1, hhere.2, ?_⟩, hmembers⟩⟩
        exact hleast _ rfl
      | some p =>
        by_cases hlt : held.position.seq.val < p.seq.val
        · have hheld' := hleast held.position (by simp [hlt])
          refine ⟨fun p' hp' => ?_, List.forall_mem_cons.mpr ⟨⟨held, hheld, hhere.1, hhere.2, hheld'⟩,
            hmembers⟩⟩
          obtain rfl := some.inj hp'
          omega
        · have hp := hleast p (by simp [hlt])
          refine ⟨fun p' hp' => ?_, List.forall_mem_cons.mpr ⟨⟨held, hheld, hhere.1, hhere.2, ?_⟩,
            hmembers⟩⟩
          · obtain rfl := some.inj hp'
            exact hp
          · omega
    · cases h

/-- A fence goes only with a drain that committed. -/
theorem fence_stays {hashes : CustodyHashes} {s t : AckJournal} {c : ℕ} {op : AckOp}
    (hstep : AckStep hashes s (c, op) t) (hfence : s.files.fences id ≠ none)
    (hgone : t.files.fences id = none) : ∃ rest, s.tasks c = .removing id (.fence :: rest) := by
  have hsame (heq : t.files.fences id = s.files.fences id) :
      ∃ rest, s.tasks c = .removing id (.fence :: rest) := absurd (heq.symm.trans hgone) hfence
  cases hstep with
  | @begins id' =>
    have hgone : Function.update s.files.fences _ _ id = none := hgone
    rw [update_apply] at hgone
    split at hgone
    exacts [absurd hgone nofun, absurd hgone hfence]
  | @removes _ id' file rest removed hstage =>
    cases removed with
    | false => exact hsame rfl
    | true =>
      cases file with
      | fence =>
        by_cases hid : id = id'
        · exact ⟨rest, hid ▸ hstage⟩
        · exact hsame (update_of_ne hid ..)
      | _ => exact hsame rfl
  | accepts =>
    refine hsame ?_
    rw [AckFiles.accept]
    split <;> rfl
  | unlocks | stops =>
    refine hsame ?_
    rw [goes, releases]
    split <;> rfl
  | _ => exact hsame rfl

/-- **No member is counted as holding a head it does not hold**, in every run that writes an ack before
another drain of its member begins or ends, and brings a member back only where no ack of it is left.
The set's own moves, and that a stored ack never goes back, hold in every run. -/
theorem custody_acks_held (hashes : CustodyHashes) :
    (∀ s c op t, (ackSystem hashes).Reachable s → AckStep hashes s (c, op) t →
      (t.files.set = s.files.set ∨ s.files.set.revision.val < t.files.set.revision.val) ∧
      (∀ id, s.files.set.holds id = true → t.files.set.holds id = false →
        ∃ ack now fence member, op = .commits ack now ∧ TargetId.new ack.targetId = some id ∧
          s.files.fences id = some fence ∧ s.files.set.member id = some member ∧
          fence.revision = s.files.set.revision ∧ fence.fits hashes member ack = true) ∧
      (∀ id, s.files.fences id ≠ none → t.files.fences id = none →
        ∃ rest, s.tasks c = .removing id (.fence :: rest)) ∧
      ∀ id ack, s.files.set.holds id = true → s.files.acks id = some ack →
        ∃ ack', t.files.acks id = some ack' ∧ ack.position.Reaches ack'.position) ∧
    (∀ s labels t c op u id, (ackSystem hashes).Reachable s → (ackSystem hashes).Run s labels t →
      s.files.set.holds id = true → t.files.set.holds id = false → AckStep hashes t (c, op) u →
      u.files.set.holds id = true → ∃ spec now, op = .reenrols spec now ∧ spec.id = id) ∧
    ∀ s, ((ackSystem hashes).restrict Orderly).Reachable s →
      (∀ m ∈ s.files.set.members, ∀ ack, s.files.acks m.spec.id = some ack →
        s.Accepted hashes m.spec.id ack ∧ m.added.val ≤ ack.setRevision.val) ∧
      (∀ c set again found, s.tasks c = .counting set again found → s.Counts hashes found again ∧
        ∀ here least, leastAcked found here set.members none = some least →
          ∀ m ∈ set.members, ∃ ack, found m.spec.id = some ack ∧ s.Accepted hashes m.spec.id ack ∧
            m.added.val ≤ ack.setRevision.val ∧ ack.position.SameLineage here ∧
            ack.position.epoch = here.epoch ∧ least.seq.val ≤ ack.position.seq.val) ∧
      ∀ c facts ack id since, s.tasks c = .checked facts ack id since → Orderly s (c, .accepts) →
        s.files.fences id = none := by
  refine ⟨fun s c op t hreach hstep => ?_, fun s labels t c op u id _ hrun hwas hnot hstep hback =>
    comes_back hrun hwas hnot hstep hback, fun s hreach => ?_⟩
  · obtain ⟨hrises, hleaves⟩ := revision_rises hstep
    exact ⟨hrises, hleaves, fun id => fence_stays hstep,
      fun id ack => ack_rises hreach hstep⟩
  · have hheld := AckJournal.Held.of_reachable hreach
    refine ⟨fun m hm ack hack => ⟨(hheld.stored _ _ hack).2, hheld.present.acked m hm ack hack⟩,
      fun c set again found hstage => ?_, fun c facts ack id since hstage horderly => ?_⟩
    · have hknows := hheld.stages c
      rw [hstage] at hknows
      obtain ⟨-, -, hset, hagain⟩ := hknows
      refine ⟨hagain, fun here least hleast m hm => ?_⟩
      obtain ⟨ack, hack, hlineage, hepoch, hseq⟩ := (leastAcked_held hleast).2 m hm
      obtain ⟨haccepted, hadded⟩ := hset m hm ack hack
      exact ⟨ack, hack, haccepted, hadded, hlineage, hepoch, hseq⟩
    · have hknows := hheld.stages c
      rw [hstage] at hknows
      obtain ⟨-, -, -, hstands⟩ := hknows
      exact (hstands (horderly _ _ _ _ hstage)).1

section Runs

namespace AckRun

/-- Hashes that are all zero, which say nothing apart. -/
def hashes : CustodyHashes :=
  let zero : Digest := ⟨List.replicate 32 0, List.length_replicate⟩
  { hash := fun _ => zero, deriveKey := fun _ _ => zero, keyed := fun _ _ => zero
    encode := fun _ => some [] }

/-- `a:b`. -/
def target : TargetId := ⟨[97, 58, 98], by decide⟩

def spec : TargetSpec := ⟨target, .folder, .headAndLog, none⟩

def position : CustodyPosition := ⟨.zeros 32, .zeros 16, 0, 1, .zeros 32⟩

def evidence (heads : U64) : DeletionEvidence :=
  ⟨.filesystemSweep, 0, heads, some (List.replicate 32 0)⟩

/-- The batch sealed at a set revision, and its ack. -/
def facts (setRevision : U64) : BatchFacts := ⟨position, hashes.hash [], setRevision, true⟩

@[inherit_doc facts] def record (setRevision : U64) : AckRecord :=
  (facts setRevision).ack hashes target (evidence 1) [1] 0

def drainAck : DrainAck :=
  { version := 1, targetId := target.name, setRevision := 1, position
    operationId := hashes.hash [], evidence := evidence 0, placement := hashes.hash []
    origin := hashes.hash [], mac := some (List.replicate 32 0) }

/-- The set, its first member registered. -/
def set : RequiredSet := ⟨1, [⟨spec, 1⟩], []⟩

def registered : AckJournal := (AckJournal.init.withSet set).goes 0 (.passing set)

theorem register_eq : RequiredSet.empty.register [spec] = some set := rfl

/-- The check of the first ack, done. -/
def checked : AckJournal :=
  (registered.goes 1 (.checking (facts 1) (record 1) set fun _ => 0)).goes 1
    (.checked (facts 1) (record 1) target fun _ => 0)

/-- The first ack, written. -/
def accepted : AckJournal :=
  { checked.withFiles (checked.files.accept (facts 1) target (record 1)) with
    accepted := [(facts 1, record 1)] }.goes 1 .idle

theorem checkAck_eq : checkAck hashes set false (facts 1) (record 1) = .ok target := rfl

theorem registers : AckStep hashes .init (0, .registers [spec]) registered :=
  .registers rfl rfl register_eq

theorem checks : AckStep hashes registered (1, .checks (facts 1) (record 1))
    (registered.goes 1 (.checking (facts 1) (record 1) set fun _ => 0)) := .checks _ _ rfl

theorem readsFence : AckStep hashes
    (registered.goes 1 (.checking (facts 1) (record 1) set fun _ => 0)) (1, .readsFence) checked :=
  .readsFence rfl rfl checkAck_eq

theorem accepts : AckStep hashes checked (1, .accepts) accepted := .accepts rfl rfl

theorem begins (s : AckJournal) (hset : s.files.set = set) (hfence : s.files.fences target = none) :
    s.files.beginDrain hashes target position (.zeros 32) =
      some (⟨target, 1, position, hashes.hash [], .zeros 32⟩, true) := by
  rw [AckFiles.beginDrain, hset, hfence]
  rfl

/-- The set once its member is drained, and once it is back. -/
def emptied : RequiredSet :=
  set.drain target 2 ⟨hashes.hash [], hashes.hash [], some (List.replicate 32 0), 0⟩ 0

@[inherit_doc emptied] def reenrolled : RequiredSet :=
  ⟨3, [⟨spec, 3⟩], emptied.history ++ [⟨3, target.name, .reenrolled, none, 0⟩]⟩

/-- One more step, none out of order. -/
theorem orderly {s t : AckJournal} {label : ℕ × AckOp}
    (h : ((ackSystem hashes).restrict Orderly).Reachable s) (hstep : AckStep hashes s label t)
    (horderly : Orderly s label) : ((ackSystem hashes).restrict Orderly).Reachable t :=
  .step h ⟨hstep, horderly⟩

end AckRun

open AckRun

/-- A member that acked the first batch, was drained and came back counts by its ack of the third. -/
theorem custody_acks_held_of_reenrolled : ∃ s : AckJournal,
    s.files.set = reenrolled ∧ s.files.acks target = some (record 3) ∧
      ∀ m ∈ s.files.set.members, ∀ ack, s.files.acks m.spec.id = some ack →
        s.Accepted hashes m.spec.id ack ∧ m.added.val ≤ ack.setRevision.val := by
  have hchecked := orderly (orderly (orderly (.start rfl) registers trivial) checks trivial) readsFence trivial
  have haccepted := orderly hchecked accepts fun facts ack id since hstage => by
    obtain ⟨-, -, -, rfl⟩ := AckStage.checked.inj hstage
    rfl
  have hbegun := orderly haccepted (.begins (c := 2) rfl rfl (begins accepted rfl rfl)) trivial
  have hcommitted := orderly hbegun (show AckStep hashes _ (2, .commits drainAck 0) _ from
    .commits rfl rfl (rfl : _ = some (target, emptied))) trivial
  have hfence := orderly hcommitted (.removes (c := 2) true rfl) trivial
  have hack := orderly hfence (.removes (c := 2) true rfl) trivial
  have hpending := orderly hack (.removes (c := 2) true rfl) trivial
  have hremoved := orderly hpending (.removes (c := 2) true rfl) trivial
  have hunlocked := orderly hremoved (.unlocks (c := 2) rfl) trivial
  have hback := orderly hunlocked (show AckStep hashes _ (3, .reenrols spec 0) _ from
    .reenrols rfl rfl (rfl : _ = some reenrolled)) fun _ => rfl
  have hchecks := orderly hback (.checks (c := 1) (facts 3) (record 3) rfl) trivial
  have hreads := orderly hchecks (.readsFence (c := 1) rfl rfl (rfl : _ = Except.ok target)) trivial
  have hlast := orderly hreads (.accepts (c := 1) rfl rfl) fun facts ack id since hstage => by
    obtain ⟨-, -, -, rfl⟩ := AckStage.checked.inj hstage
    rfl
  exact ⟨_, rfl, rfl, ((custody_acks_held hashes).2.2 _ hlast).1⟩

/-- **A drain cut short leaves its member's ack behind, and the member comes back to it; and an ack
checked before a drain begins is written within it.** -/
theorem custody_ack_outlasts_drain :
    (¬∀ (hashes : CustodyHashes) (s : AckJournal), (ackSystem hashes).Reachable s →
      ∀ m ∈ s.files.set.members, ∀ ack, s.files.acks m.spec.id = some ack →
        m.added.val ≤ ack.setRevision.val) ∧
    ¬∀ (hashes : CustodyHashes) (s t : AckJournal) (c : ℕ), (ackSystem hashes).Reachable s →
      AckStep hashes s (c, .accepts) t → ∀ facts ack id since,
        s.tasks c = .checked facts ack id since → s.files.fences id = none := by
  have hregistered : (ackSystem hashes).Reachable registered := .step (.start rfl) registers
  have hchecked : (ackSystem hashes).Reachable checked :=
    .step (.step hregistered checks) readsFence
  constructor
  · intro h
    have hbegun := (hchecked.step accepts).step
      (.begins (c := 2) rfl rfl (begins accepted rfl rfl))
    have hdrained := hbegun.step
      (show AckStep hashes _ (2, .commits drainAck 0) _ from .commits rfl rfl
        (rfl : _ = some (target, emptied)))
    have hcut := hdrained.step (.stops (c := 2))
    have hback := hcut.step
      (show AckStep hashes _ (3, .reenrols spec 0) _ from .reenrols rfl rfl
        (rfl : _ = some reenrolled))
    exact absurd (h hashes _ hback ⟨spec, 3⟩ List.mem_cons_self (record 1) rfl) (by decide)
  · intro h
    have hbegun := hchecked.step
      (.begins (c := 2) rfl rfl (begins checked rfl rfl))
    exact absurd (h hashes _ _ 1 hbegun (.accepts rfl rfl) (facts 1) (record 1) target _ rfl)
      nofun

end Runs

end Oneiron
