import Oneiron.Authority.StructureStages

/-!
# Authority/StructureOrder — when the order of rows and settles does not show

At the end of a schedule with one root everything is read off the rows but two things: which class a
key a stranger could also name is in, and the copies a cosigned admission leaves on the shelves of
keys never granted.  So the order shows exactly through those, through own anchors a settle before
the root forgets, and through rows a settle places before a second root takes all grants away.
-/

namespace Oneiron

open List

/-! ## What the rows say of a settled builder -/

namespace Settling

variable {verifies : AuthorityLogEntry → Bool} {rows : Set AuthorityLogEntry} {roots : Finset Bytes32}
  {s : Settling}

/-- A settled builder: every row pushed, none to be placed, every stack empty. -/
structure Settled (verifies : AuthorityLogEntry → Bool) (rows : Set AuthorityLogEntry)
    (roots : Finset Bytes32) (s : Settling) : Prop extends s.Mid verifies rows rows roots rows [] where
  noStacks : s.admitted = [] ∧ s.issued = [] ∧ s.anchored = [] ∧ s.woken = []

section

variable (h : s.Settled verifies rows roots)

include h

theorem Settled.admission_done {e : AuthorityLogEntry} {device : DeviceAuthority} (he : e ∈ rows)
    (hd : e.admission = some device) :
    (∀ k ∈ e.signers, e ∈ s.admissions.shelf k) ∨ s.TakenAdmission verifies e device :=
  (h.complete.admissions e he device hd).resolve_left not_mem_nil

/-- No shelf of an admitter holds an admission. -/
theorem Settled.not_mem_admissions {k : AuthorityKey} (hk : k ∈ s.admitters) (e : AuthorityLogEntry) :
    e ∉ s.admissions.shelf k := fun he => by
  have := h.complete.admissionsAsleep k hk e he
  simp [h.noStacks.1] at this

theorem Settled.profile_done {e : AuthorityLogEntry} {profile : MachineProfile} (he : e ∈ rows)
    (hop : e.op = .machineProfile profile) (hd : ¬ Dropped e profile)
    (hs : s.Stands profile e.signer) : s.TakenProfile verifies rows e profile := by
  obtain hd' | hin | ht := (h.complete.profiles e he profile hop).resolve_left not_mem_nil
  · exact absurd hd' hd
  · have := h.complete.profilesAsleep e.signer e hin profile hop hs
    simp [h.noStacks] at this
  · exact ht

/-- **The admitters are those the rows admit.** -/
theorem Settled.admitters_iff (k : AuthorityKey) : k ∈ s.admitters ↔ Admits verifies rows k := by
  refine ⟨h.sound.admitters k, fun hk => ?_⟩
  induction hk with
  | root hg hroot => exact h.sound.rootAdmits _ hg hroot
  | @named e device key he hd hv hk _ ih =>
    obtain hall | ht := h.admission_done he hd
    · exact absurd (hall key hk) (h.not_mem_admissions ih e)
    · exact (ht.2 hv).1

/-- **The issuers are those the rows make issuers.** -/
theorem Settled.issuers_iff (k : AuthorityKey) : k ∈ s.issuers ↔ Issues verifies rows k := by
  refine ⟨h.sound.issuers k, ?_⟩
  rintro (hk | ⟨e, he, device, hd, hv, rfl, ho, signer, hs, ha⟩)
  · exact h.sound.rootIssues k hk
  · obtain hall | ht := h.admission_done he hd
    · exact absurd (hall signer hs) (h.not_mem_admissions ((h.admitters_iff signer).mpr ha) e)
    · exact (ht.2 hv).2 ho

theorem Settled.anchors_iff (a : Bytes32) : a ∈ s.anchors ↔ Anchors verifies rows a := by
  refine ⟨h.sound.anchors a, ?_⟩
  rintro ⟨e, he, ha⟩
  exact (((h.complete.roots e he).resolve_left not_mem_nil) a ha).1

theorem Settled.awaited_iff (a : Bytes32) :
    a ∈ s.awaitedAnchors ↔ Awaits verifies rows roots a := by
  refine ⟨h.sound.awaited a, ?_⟩
  rintro ⟨e, he, ha, record, hop, hr⟩
  exact (((h.complete.roots e he).resolve_left not_mem_nil) a ha).2 record hop
    (h.sound.localRoots ▸ hr)

theorem Settled.isAnchor_iff (k : AuthorityKey) : s.isAnchor k ↔ AnchorKey verifies rows k := by
  refine ⟨h.sound.isAnchor, ?_⟩
  rintro ⟨a, rfl, ha⟩
  simp [AuthorityStructure.isAnchor, (h.anchors_iff a).mpr ha]

/-- **The keys that vouch are those the rows name.** -/
theorem Settled.vouching_iff (key : EntityId × AuthorityKey) :
    s.vouchingKey key ↔ Names verifies rows (Vouches verifies rows) key := by
  refine ⟨fun hk => ?_, fun hk => hk.least (s.vouchingKey ·) fun e profile he hop hv hd hvia => ?_⟩
  · obtain hk | hk := mem_vouching.mp hk
    · exact (h.sound.own key hk).mono (fun _ hr _ _ => hr) fun _ => .inl
    · exact (h.sound.strangers key hk).mono (fun _ hr _ _ => hr) fun _ => Strays.vouches
  · refine ((h.profile_done he hop hd ?_).2 hv).1
    exact hvia.mono (fun k hk => hk.imp (h.issuers_iff k).mpr (h.isAnchor_iff k).mpr) fun _ => id

theorem Settled.stands_iff {profile : MachineProfile} {signer : AuthorityKey} :
    s.Stands profile signer ↔
      Via (Vouches verifies rows) (Names verifies rows (Vouches verifies rows)) profile signer :=
  ⟨h.sound.stands, fun hvia => hvia.mono
    (fun k hk => hk.imp (h.issuers_iff k).mpr (h.isAnchor_iff k).mpr) fun k => (h.vouching_iff k).mpr⟩

theorem Settled.removed_iff (m : EntityId) : m ∈ s.removed ↔ Removes verifies rows m := by
  refine ⟨h.sound.removed m, ?_⟩
  rintro ⟨e, he, profile, hop, hv, hd, hr, rfl, hvia⟩
  exact ((h.profile_done he hop hd (h.stands_iff.mpr hvia)).2 hv).2.1 hr

/-- **A key named as own by rows no stranger may carry is own.** -/
theorem Settled.own_of_firm {key : EntityId × AuthorityKey}
    (hk : Names verifies (firmRows verifies rows) (Issues verifies rows) key) :
    key ∈ s.machineKeys := by
  refine hk.least (· ∈ s.machineKeys) fun e profile he hop hv hd hvia => ?_
  refine ((h.profile_done he.1 hop hd ?_).2 hv).2.2 he.2
  exact hvia.mono (fun k hk => .inl ((h.issuers_iff k).mpr hk)) fun k hk => mem_vouching.mpr (.inl hk)

/-- **The revisions left filed are those whose authority the rows do not give.** -/
theorem Settled.profiles_iff (k : AuthorityKey) (e : AuthorityLogEntry) :
    e ∈ s.profiles.shelf k ↔ e ∈ rows ∧ e.signer = k ∧
      ∃ profile, e.op = .machineProfile profile ∧ ¬ Dropped e profile ∧
        ¬ Via (Vouches verifies rows) (Names verifies rows (Vouches verifies rows)) profile k := by
  constructor
  · intro hin
    obtain ⟨he, hk, profile, hop, hd⟩ := h.sound.profileRows k e hin
    refine ⟨he, hk, profile, hop, hd, fun hvia => ?_⟩
    have := h.complete.profilesAsleep k e hin profile hop (h.stands_iff.mpr hvia)
    simp [h.noStacks] at this
  · rintro ⟨he, rfl, profile, hop, hd, hvia⟩
    obtain hd' | hin | ht := (h.complete.profiles e he profile hop).resolve_left not_mem_nil
    · exact absurd hd' hd
    · exact hin
    · exact absurd (h.stands_iff.mp ht.1) hvia

/-- **The admissions left filed**, where those an admitter signed leave no copy behind. -/
theorem Settled.admissions_iff
    (hcos : ∀ e ∈ rows, e.admission.isSome → (∃ k ∈ e.signers, Admits verifies rows k) →
      (∃ g ∈ rows, isRoot verifies g ∧ g.signer ∈ e.signers) ∨
        ∀ k ∈ e.signers, Admits verifies rows k) (k : AuthorityKey) (e : AuthorityLogEntry) :
    e ∈ s.admissions.shelf k ↔
      e ∈ rows ∧ e.admission.isSome ∧ k ∈ e.signers ∧ ∀ k ∈ e.signers, ¬ Admits verifies rows k := by
  constructor
  · intro hin
    obtain ⟨he, hk, ha, hroot⟩ := h.sound.admissionRows k e hin
    refine ⟨he, ha, hk, fun k' hk' hadm => ?_⟩
    obtain ⟨g, hg, hr, hs⟩ | hall := hcos e he ha ⟨k', hk', hadm⟩
    · exact hroot g hg hr hs
    · exact h.not_mem_admissions ((h.admitters_iff k).mpr (hall k hk)) e hin
  · rintro ⟨he, ha, hk, hnone⟩
    obtain ⟨device, hd⟩ := Option.isSome_iff_exists.mp ha
    obtain hall | ht := h.admission_done he hd
    · exact hall k hk
    · obtain ⟨k', hk', hin⟩ := any_eq_true.mp ht.1
      exact absurd ((h.admitters_iff k').mp (of_decide_eq_true hin)) (hnone k' hk')

end

end Settling

/-! ## The same structure -/

/-- Two builders with the same structure, and the same rows left unplaced. -/
structure SameStructure (b b' : StructureBuilder) : Prop where
  roots : ∀ e, e ∈ b.roots ↔ e ∈ b'.roots
  admitters : b.admitters = b'.admitters
  issuers : b.issuers = b'.issuers
  anchors : b.anchors = b'.anchors
  ownAnchors : b.ownAnchors = b'.ownAnchors
  awaitedAnchors : b.awaitedAnchors = b'.awaitedAnchors
  machineKeys : b.machineKeys = b'.machineKeys
  strangerKeys : b.strangerKeys = b'.strangerKeys
  removed : b.removed = b'.removed
  fresh : ∀ e, e ∈ b.fresh ↔ e ∈ b'.fresh
  admissions : ∀ k e, e ∈ b.admissions.shelf k ↔ e ∈ b'.admissions.shelf k
  profiles : ∀ k e, e ∈ b.profiles.shelf k ↔ e ∈ b'.profiles.shelf k

/-- When the order of rows and settles does not show. -/
structure Orderless (verifies : AuthorityLogEntry → Bool) (localRoots : LocalRoots)
    (rows : Set AuthorityLogEntry) : Prop where
  /-- A log of several roots holds nothing else to place. -/
  severalRoots : ∀ g ∈ rows, isRoot verifies g → ∀ g' ∈ rows, isRoot verifies g' → g ≠ g' →
    ∀ e ∈ rows, ¬ waits e
  /-- With one root, this install takes no anchor as its own… -/
  anchors : ∀ g, OneRoot verifies rows g → localRoots.anchors = ∅
  /-- …no own key hangs on a row a stranger may carry… -/
  keys : ∀ g, OneRoot verifies rows g → ∀ key, Names verifies rows (Issues verifies rows) key →
    Names verifies (firmRows verifies rows) (Issues verifies rows) key
  /-- …and an admission an admitter signed is the root's, or all its signers are admitters. -/
  cosigned : ∀ g, OneRoot verifies rows g → ∀ e ∈ rows, e.admission.isSome →
    (∃ k ∈ e.signers, Admits verifies rows k) →
      g.signer ∈ e.signers ∨ ∀ k ∈ e.signers, Admits verifies rows k

/-! ## With one root -/

variable {verifies : AuthorityLogEntry → Bool} {rows : Set AuthorityLogEntry}

namespace StructureBuilder

/-- **A schedule with one root ends settled**, whatever its order. -/
theorem settled_grown {localRoots : LocalRoots} {g : AuthorityLogEntry} {turns : List StructureTurn}
    (hg : OneRoot verifies rows g) (hlocal : localRoots.anchors = ∅)
    (ht : {e | e ∈ pushedRows turns} = rows) :
    (grownStructure verifies localRoots turns).atRest.Settled verifies rows localRoots.roots ∧
      (grownStructure verifies localRoots turns).fresh = [] ∧
        (grownStructure verifies localRoots turns).Stage verifies rows rows localRoots.roots rows := by
  have hstage := Stage.turns hg _ (Set.empty_subset rows) (fun e he => ⟨ht ▸ he, fun _ => ht ▸ he⟩)
    (stage_under verifies localRoots hlocal)
  rw [Set.empty_union, ht] at hstage
  have hr := (hstage.roots_eq hg subset_rfl).resolve_left fun hnil => by
    have := (hstage.mem_roots g).mpr ⟨hg.mem, hg.isRoot⟩
    simp [hnil] at this
  obtain ⟨hend, hf, hw, hmid⟩ := hstage.settle_root hg hr
  exact ⟨⟨hmid, rfl, rfl, rfl, hw⟩, hf, hend⟩

end StructureBuilder

/-- **Settled builders of the same rows have the same structure**, if their own keys are the same and
their admissions leave no copies. -/
theorem sameStructure_of_settled {roots : Finset Bytes32} {b b' : StructureBuilder}
    {g : AuthorityLogEntry} (hg : OneRoot verifies rows g)
    (h : b.atRest.Settled verifies rows roots) (h' : b'.atRest.Settled verifies rows roots)
    (hf : b.fresh = []) (hf' : b'.fresh = []) (hkeys : b.machineKeys = b'.machineKeys)
    (hcos : ∀ e ∈ rows, e.admission.isSome → (∃ k ∈ e.signers, Admits verifies rows k) →
      g.signer ∈ e.signers ∨ ∀ k ∈ e.signers, Admits verifies rows k) :
    SameStructure b b' where
  roots e := by
    obtain ⟨x, hx, hr, hroots, -⟩ := h.sound.oneRoot
    obtain ⟨x', hx', hr', hroots', -⟩ := h'.sound.oneRoot
    obtain rfl := hg.unique x hx hr
    obtain rfl := hg.unique x' hx' hr'
    have hroots : b.roots = [x'] := hroots
    have hroots' : b'.roots = [x'] := hroots'
    rw [hroots, hroots']
  admitters := by
    ext k
    exact (h.admitters_iff k).trans (h'.admitters_iff k).symm
  issuers := by
    ext k
    exact (h.issuers_iff k).trans (h'.issuers_iff k).symm
  anchors := by
    ext a
    exact (h.anchors_iff a).trans (h'.anchors_iff a).symm
  ownAnchors := h.sound.noOwnAnchors.trans h'.sound.noOwnAnchors.symm
  awaitedAnchors := by
    ext a
    exact (h.awaited_iff a).trans (h'.awaited_iff a).symm
  machineKeys := hkeys
  strangerKeys := by
    -- what vouches and is not own
    have hstranger (c : StructureBuilder) (hc : c.atRest.Settled verifies rows roots)
        (k : EntityId × AuthorityKey) : k ∈ c.strangerKeys ↔
          Names verifies rows (Vouches verifies rows) k ∧ k ∉ c.machineKeys := by
      rw [← hc.vouching_iff k, Settling.mem_vouching]
      exact ⟨fun hk => ⟨.inr hk, hc.sound.apart k hk⟩, fun hk => hk.1.resolve_left hk.2⟩
    ext k
    rw [hstranger b h, hstranger b' h', hkeys]
  removed := by
    ext m
    exact (h.removed_iff m).trans (h'.removed_iff m).symm
  fresh e := by rw [hf, hf']
  admissions k e := by
    have hcos' : ∀ e ∈ rows, e.admission.isSome → (∃ k ∈ e.signers, Admits verifies rows k) →
        (∃ g ∈ rows, isRoot verifies g ∧ g.signer ∈ e.signers) ∨
          ∀ k ∈ e.signers, Admits verifies rows k := fun e he ha hk =>
      (hcos e he ha hk).imp_left fun hs => ⟨g, hg.mem, hg.isRoot, hs⟩
    exact (h.admissions_iff hcos' k e).trans (h'.admissions_iff hcos' k e).symm
  profiles k e := (h.profiles_iff k e).trans (h'.profiles_iff k e).symm

/-! ## With no root, or several -/

/-- A builder that has placed nothing. -/
structure Idle (verifies : AuthorityLogEntry → Bool) (pushed : Set AuthorityLogEntry)
    (b : StructureBuilder) : Prop where
  nodup : b.roots.Nodup
  mem_roots : ∀ e, e ∈ b.roots ↔ e ∈ pushed ∧ isRoot verifies e
  mem_fresh : ∀ e, e ∈ b.fresh ↔ e ∈ pushed ∧ waits e
  admissions : ∀ k, b.admissions.shelf k = []
  profiles : ∀ k, b.profiles.shelf k = []
  noWoken : b.woken = []

namespace Idle

open StructureBuilder Settling

variable {pushed : Set AuthorityLogEntry} {b : StructureBuilder} {e : AuthorityLogEntry}

theorem push (h : Idle verifies pushed b) : Idle verifies (insert e pushed) (b.push verifies e) := by
  have hroots (x : AuthorityLogEntry) (hx : isRoot verifies e = false ∨ e ∈ b.roots) :
      x ∈ b.roots ↔ x ∈ insert e pushed ∧ isRoot verifies x := by
    rw [Set.mem_insert_iff, h.mem_roots x]
    refine ⟨fun hin => ⟨.inr hin.1, hin.2⟩, fun hin => ⟨hin.1.elim (fun heq => ?_) id, hin.2⟩⟩
    subst heq
    exact hx.elim (fun hn => by simp [hn] at hin) fun hr => ((h.mem_roots x).mp hr).1
  obtain ⟨device, hop, hr, hnot, heq⟩ | ⟨hr, hw, heq⟩ | ⟨hr, hw, heq⟩ :=
    push_cases verifies b e
  · have hnw := not_waits_of_isRoot hr
    rw [heq]
    refine ⟨?_, fun x => ?_, fun x => ?_, h.admissions, h.profiles, h.noWoken⟩
    · exact h.nodup.append (nodup_singleton e) (by simpa using hnot)
    · rw [mem_append, mem_singleton, h.mem_roots x, Set.mem_insert_iff]
      grind
    · rw [h.mem_fresh x, Set.mem_insert_iff]
      grind
  · rw [heq]
    refine ⟨h.nodup, fun x => hroots x (.inl hr), fun x => ?_, h.admissions, h.profiles, h.noWoken⟩
    rw [mem_append, mem_singleton, h.mem_fresh x, Set.mem_insert_iff]
    grind
  · rw [heq]
    refine ⟨h.nodup, fun x => hroots x ?_, fun x => ?_, h.admissions, h.profiles, h.noWoken⟩
    · cases hre : isRoot verifies e with
      | false => exact .inl rfl
      | true => exact .inr (hr hre)
    · rw [h.mem_fresh x, Set.mem_insert_iff]
      grind

/-- A settle with nothing to place. -/
def Empty (b : StructureBuilder) (s : Settling) : Prop :=
  s.roots = b.roots ∧ s.fresh = [] ∧ (∀ k, s.admissions.shelf k = []) ∧ ∀ k, s.profiles.shelf k = []

variable (verifies) in
theorem Empty.wake {s s' : Settling} (h : Empty b s) (hw : s.wake verifies = some s') :
    Empty b s' := by
  obtain ⟨hr, hf, ha, hp⟩ := h
  have hclear (shelves : Shelves AuthorityKey AuthorityLogEntry) (hs : ∀ k, shelves.shelf k = [])
      (key k : AuthorityKey) : (shelves.clear key).shelf k = [] :=
    eq_nil_iff_forall_not_mem.mpr fun x hx => by
      have := (Shelves.mem_clear.mp hx).1
      simp [hs k] at this
  obtain ⟨key, rest, -, rfl⟩ | ⟨key, rest, -, rfl⟩ | ⟨key, rest, -, rfl⟩ | ⟨key, rest, -, rfl⟩ :=
    wake_cases hw
  · simp only [wakeAdmissions, ha, foldl_nil]
    exact ⟨hr, hf, hclear _ ha key, hp⟩
  all_goals
    simp only [wakeProfiles, hp, foldl_nil]
    exact ⟨hr, hf, ha, hclear _ hp key⟩

/-- **Where one root leaves nothing to place, a settle places nothing.** -/
theorem settle (h : Idle verifies pushed b)
    (hnone : ∀ g ∈ pushed, isRoot verifies g → ∀ e ∈ pushed, ¬ waits e) :
    Idle verifies pushed (b.settle verifies) := by
  unfold StructureBuilder.settle
  split
  · next g hg =>
    have hin := (h.mem_roots g).mp (by simp [hg])
    have hfresh : b.fresh = [] := eq_nil_iff_forall_not_mem.mpr fun x hx =>
      hnone g hin.1 hin.2 x ((h.mem_fresh x).mp hx).1 ((h.mem_fresh x).mp hx).2
    have hseat : Empty b (b.seatRoot g.signer) := by
      unfold seatRoot seat
      split
      · unfold Settling.issue Settling.admitKey
        split <;> split <;> exact ⟨rfl, rfl, h.admissions, h.profiles⟩
      · unfold Settling.admitKey
        split <;> exact ⟨rfl, rfl, h.admissions, h.profiles⟩
    rw [hfresh, foldl_nil]
    obtain ⟨hr, hf, ha, hp⟩ := drain_keeps _ (fun hs hw => Empty.wake verifies hs hw)
      (b.seatRoot g.signer).pending hseat
    have hend := stacks_of_wake (wake_drain verifies
      (le_refl (b.seatRoot g.signer).pending))
    refine ⟨hr ▸ h.nodup, fun x => ?_, fun x => ?_, ha, hp, hend.2.2.2⟩
    · rw [hr]
      exact h.mem_roots x
    · rw [hf, ← hfresh]
      exact h.mem_fresh x
  · exact ⟨h.nodup, h.mem_roots, h.mem_fresh, h.admissions, h.profiles, h.noWoken⟩

theorem turns (turns : List StructureTurn) (h : Idle verifies pushed b)
    (hnone : ∀ g ∈ pushed ∪ {e | e ∈ pushedRows turns}, isRoot verifies g →
      ∀ e ∈ pushed ∪ {e | e ∈ pushedRows turns}, ¬ waits e) :
    Idle verifies (pushed ∪ {e | e ∈ pushedRows turns}) (turns.foldl (turn verifies) b) := by
  induction turns generalizing b pushed with
  | nil => simpa [pushedRows] using h
  | cons t turns ih =>
    cases t with
    | push e =>
      have hset : insert e pushed ∪ {x | x ∈ pushedRows turns}
          = pushed ∪ {x | x ∈ pushedRows (.push e :: turns)} := by
        ext x
        simp only [pushedRows, filterMap_cons, Set.mem_union, Set.mem_ofPred_eq, mem_cons,
          Set.mem_insert_iff]
        tauto
      rw [← hset] at hnone ⊢
      exact ih h.push hnone
    | settle =>
      exact ih (h.settle fun g hg hr e he => hnone g (.inl hg) hr e (.inl he)) hnone

/-- **A schedule with no root, or several and nothing else to place, ends idle**, all grants off. -/
theorem grown {localRoots : LocalRoots} {turns : List StructureTurn}
    (hmany : ∀ g, ¬ OneRoot verifies rows g)
    (hnone : ∀ g ∈ rows, isRoot verifies g → ∀ e ∈ rows, ¬ waits e)
    (ht : {e | e ∈ pushedRows turns} = rows) :
    ∃ b, Idle verifies rows b ∧ grownStructure verifies localRoots turns = b.clear := by
  have hstart : Idle verifies ∅ (.under localRoots) :=
    ⟨nodup_nil, fun e => by simp [under], fun e => by simp [under], fun k => Shelves.shelf_empty,
      fun k => Shelves.shelf_empty, rfl⟩
  have hidle := hstart.turns turns (by simpa [ht] using hnone)
  rw [Set.empty_union, ht] at hidle
  refine ⟨_, hidle, ?_⟩
  unfold grownStructure StructureBuilder.settle
  split
  · next g hg =>
    have hin := (hidle.mem_roots g).mp (by simp [hg])
    refine absurd ⟨hin.1, hin.2, fun e he hr => ?_⟩ (hmany g)
    have := (hidle.mem_roots e).mpr ⟨he, hr⟩
    simpa [hg] using this
  · rfl

end Idle

/-- Idle builders of the same rows have the same structure, once all grants are off. -/
theorem sameStructure_of_idle {b b' : StructureBuilder} (h : Idle verifies rows b)
    (h' : Idle verifies rows b') : SameStructure b.clear b'.clear where
  roots e := (h.mem_roots e).trans (h'.mem_roots e).symm
  admitters := rfl
  issuers := rfl
  anchors := rfl
  ownAnchors := rfl
  awaitedAnchors := rfl
  machineKeys := rfl
  strangerKeys := rfl
  removed := rfl
  fresh e := (h.mem_fresh e).trans (h'.mem_fresh e).symm
  admissions k e := by
    rw [show b.clear.admissions.shelf k = [] from h.admissions k,
      show b'.clear.admissions.shelf k = [] from h'.admissions k]
  profiles k e := by
    rw [show b.clear.profiles.shelf k = [] from h.profiles k,
      show b'.clear.profiles.shelf k = [] from h'.profiles k]

/-- **Where the order does not show, every two schedules end in the same structure.** -/
theorem Orderless.sameStructure {localRoots : LocalRoots} {turns turns' : List StructureTurn}
    (h : Orderless verifies localRoots rows) (ht : {e | e ∈ pushedRows turns} = rows)
    (ht' : {e | e ∈ pushedRows turns'} = rows) :
    SameStructure (grownStructure verifies localRoots turns)
      (grownStructure verifies localRoots turns') := by
  by_cases hone : ∃ g, OneRoot verifies rows g
  · obtain ⟨g, hg⟩ := hone
    obtain ⟨hs, hf, -⟩ := StructureBuilder.settled_grown hg (h.anchors g hg) ht
    obtain ⟨hs', hf', -⟩ := StructureBuilder.settled_grown hg (h.anchors g hg) ht'
    have hown {b : StructureBuilder} (hb : b.atRest.Settled verifies rows localRoots.roots)
        (k : EntityId × AuthorityKey) :
        k ∈ b.machineKeys ↔ Names verifies rows (Issues verifies rows) k :=
      ⟨hb.sound.own k, fun hk => hb.own_of_firm (h.keys g hg k hk)⟩
    refine sameStructure_of_settled hg hs hs' hf hf' ?_ (h.cosigned g hg)
    ext k
    exact (hown hs k).trans (hown hs' k).symm
  · have hmany (g : AuthorityLogEntry) : ¬ OneRoot verifies rows g := fun hg => hone ⟨g, hg⟩
    have hnone : ∀ g ∈ rows, isRoot verifies g → ∀ e ∈ rows, ¬ waits e := by
      intro g hg hr
      have hother : ∃ g' ∈ rows, isRoot verifies g' ∧ g ≠ g' := by
        by_contra hcon
        refine hmany g ⟨hg, hr, fun e he hre => ?_⟩
        by_contra hne
        exact hcon ⟨e, he, hre, Ne.symm hne⟩
      obtain ⟨g', hg', hr', hne⟩ := hother
      exact h.severalRoots g hg hr g' hg' hr' hne
    obtain ⟨b, hb, heq⟩ := Idle.grown hmany hnone ht
    obtain ⟨b', hb', heq'⟩ := Idle.grown hmany hnone ht'
    rw [heq, heq']
    exact sameStructure_of_idle hb hb'

end Oneiron
