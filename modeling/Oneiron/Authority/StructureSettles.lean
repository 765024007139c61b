import Oneiron.Authority.StructureLoop

/-!
# Authority/StructureSettles — placing a row keeps a settle sound and complete

One lemma for each thing a settle does to its state: seating a key, taking a root record or an
install key, filing a row; then the pass over the fresh rows and the loop (`Mid.place`, `Mid.wake`).
At the end of the loop nothing filed is granted (`Mid.finished`).
-/

namespace Oneiron

open Finset Option Shelves List AuthorityStructure

/-! ## What a settle keeps while it places rows

Two halves.  A settle is *sound* when all it granted the rows grant (`Sound`), and *complete* when
every row pushed is either still to be placed, or filed under keys none of which is granted and off
the stacks, or done (`Complete`).  A row taken off a shelf is to be placed again, so the loop and the
pass over fresh rows keep the same two halves.
-/

variable {device : DeviceAuthority} {profile : MachineProfile}

section Filing

variable (verifies : AuthorityLogEntry → Bool) (rows : Set AuthorityLogEntry)

namespace Settling

/-- Whether a revision's authority stands in the builder, as own or as a stranger's. -/
def Stands (s : Settling) (profile : MachineProfile) (signer : AuthorityKey) : Prop :=
  Via (fun k => k ∈ s.issuers ∨ s.isAnchor k) (fun k => s.vouchingKey k) profile signer

/-- All a settle granted the rows grant, and what it granted as own the rows it still places from
grant. -/
structure Sound (kept : Set AuthorityLogEntry) (roots : Finset Bytes32) (s : Settling) : Prop where
  keptRows : kept ⊆ rows
  fresh : s.fresh = []
  localRoots : s.localRoots.roots = roots
  oneRoot : ∃ g ∈ rows, isRoot verifies g ∧ s.roots = [g] ∧
    ∀ device, g.op = .genesis device → s.rootRoles = device.roles
  admitters : ∀ k ∈ s.admitters, Admits verifies rows k
  issuers : ∀ k ∈ s.issuers, Issues verifies rows k
  anchors : ∀ a ∈ s.anchors, Anchors verifies rows a
  awaited : ∀ a ∈ s.awaitedAnchors, Awaits verifies rows roots a
  own : ∀ k ∈ s.machineKeys, Names verifies kept (Issues verifies rows) k
  strangers : ∀ k ∈ s.strangerKeys, Names verifies rows (Strays verifies rows) k
  removed : ∀ m ∈ s.removed, Removes verifies rows m
  apart : ∀ k ∈ s.strangerKeys, k ∉ s.machineKeys
  noOwnAnchors : s.ownAnchors = ∅
  rootAdmits : ∀ g ∈ rows, isRoot verifies g → g.signer ∈ s.admitters
  rootIssues : ∀ k, RootIssues verifies rows k → k ∈ s.issuers
  admitted : ∀ k ∈ s.admitted, k ∈ s.admitters
  admissionRows : ∀ k, ∀ e ∈ s.admissions.shelf k, e ∈ kept ∧ k ∈ e.signers ∧
    e.admission.isSome ∧ ∀ g ∈ rows, isRoot verifies g → g.signer ∉ e.signers
  profileRows : ∀ k, ∀ e ∈ s.profiles.shelf k, e ∈ kept ∧ e.signer = k ∧
    ∃ profile, e.op = .machineProfile profile ∧ ¬ Dropped e profile

/-- A root record placed. -/
def TakenRoot (s : Settling) (e : AuthorityLogEntry) : Prop :=
  ∀ a, selfSignedRoot verifies e = some a → a ∈ s.anchors ∧
    ∀ record, e.op = .ownerRoot record → record.root ∈ s.localRoots.roots → a ∈ s.awaitedAnchors

/-- An admission an admitter signed, its device seated if it verifies. -/
def TakenAdmission (s : Settling) (e : AuthorityLogEntry) (device : DeviceAuthority) : Prop :=
  e.signedBy s.admitters ∧
    (verifies e → device.key ∈ s.admitters ∧ (holdsOwner device.roles → device.key ∈ s.issuers))

/-- A revision whose authority stands, its install key taken if it verifies: as own, unless a
stranger may carry the row. -/
def TakenProfile (s : Settling) (e : AuthorityLogEntry) (profile : MachineProfile) : Prop :=
  s.Stands profile e.signer ∧
    (verifies e → s.vouchingKey profile.installKey ∧
      (profile.role = .removed → profile.machine ∈ s.removed) ∧
      (¬ MayStray verifies rows e → profile.installKey ∈ s.machineKeys))

/-- Every row pushed is still to be placed, filed, or done, and a shelf whose key is granted is on a
stack. -/
structure Complete (pushed : Set AuthorityLogEntry) (todo : List AuthorityLogEntry) (s : Settling) :
    Prop where
  roots : ∀ e ∈ pushed, e ∈ todo ∨ s.TakenRoot verifies e
  admissions : ∀ e ∈ pushed, ∀ device, e.admission = some device →
    e ∈ todo ∨ (∀ k ∈ e.signers, e ∈ s.admissions.shelf k) ∨ s.TakenAdmission verifies e device
  profiles : ∀ e ∈ pushed, ∀ profile, e.op = .machineProfile profile →
    e ∈ todo ∨ Dropped e profile ∨ e ∈ s.profiles.shelf e.signer ∨
      s.TakenProfile verifies rows e profile
  admissionsAsleep : ∀ k ∈ s.admitters, ∀ e ∈ s.admissions.shelf k, k ∈ s.admitted
  profilesAsleep : ∀ k, ∀ e ∈ s.profiles.shelf k, ∀ profile, e.op = .machineProfile profile →
    s.Stands profile k → k ∈ s.issued ∨ k ∈ s.anchored ∨ k ∈ s.woken

/-- A settle in the middle of its work, some rows still to be placed. -/
structure Mid (kept : Set AuthorityLogEntry) (roots : Finset Bytes32)
    (pushed : Set AuthorityLogEntry) (todo : List AuthorityLogEntry) (s : Settling) : Prop where
  sound : s.Sound verifies rows kept roots
  complete : s.Complete verifies rows pushed todo
  todoRows : ∀ e ∈ todo, e ∈ kept ∧ waits e

/-- Nothing granted is taken back. -/
structure Grows (s s' : Settling) : Prop where
  admitters : s.admitters ⊆ s'.admitters
  issuers : s.issuers ⊆ s'.issuers
  machineKeys : s.machineKeys ⊆ s'.machineKeys
  vouching : ∀ k, s.vouchingKey k → s'.vouchingKey k
  anchors : s.anchors ⊆ s'.anchors
  awaited : s.awaitedAnchors ⊆ s'.awaitedAnchors
  removed : s.removed ⊆ s'.removed
  ownAnchors : s'.ownAnchors = s.ownAnchors
  localRoots : s'.localRoots = s.localRoots
  roots : s'.roots = s.roots
  fresh : s'.fresh = s.fresh

variable {verifies rows} {pushed : Set AuthorityLogEntry} {todo : List AuthorityLogEntry}
  {s s' : Settling} {e : AuthorityLogEntry}

/-! ## Growth -/

theorem Grows.refl (s : Settling) : Grows s s :=
  ⟨fun _ => id, fun _ => id, fun _ => id, fun _ => id, fun _ => id, fun _ => id, fun _ => id, rfl, rfl,
    rfl, rfl⟩

theorem Grows.trans {s'' : Settling} (h : Grows s s') (h' : Grows s' s'') : Grows s s'' where
  admitters := h.admitters.trans h'.admitters
  issuers := h.issuers.trans h'.issuers
  machineKeys := h.machineKeys.trans h'.machineKeys
  vouching k hk := h'.vouching k (h.vouching k hk)
  anchors := h.anchors.trans h'.anchors
  awaited := h.awaited.trans h'.awaited
  removed := h.removed.trans h'.removed
  ownAnchors := h'.ownAnchors.trans h.ownAnchors
  localRoots := h'.localRoots.trans h.localRoots
  roots := h'.roots.trans h.roots
  fresh := h'.fresh.trans h.fresh

variable {k : AuthorityKey}

theorem Grows.isAnchor (h : Grows s s') (hk : s.isAnchor k) : s'.isAnchor k := by
  cases k with
  | ed25519 a =>
    simp only [isAnchor, decide_eq_true_eq, h.ownAnchors] at hk ⊢
    exact hk.imp_left fun ha => h.anchors ha
  | p256 => simp [isAnchor] at hk

theorem Grows.stands (h : Grows s s') (hs : s.Stands profile k) : s'.Stands profile k :=
  hs.mono (fun _ hk => hk.imp (fun hi => h.issuers hi) h.isAnchor) h.vouching

theorem Grows.signedBy (h : Grows s s') (hs : e.signedBy s.admitters) :
    e.signedBy s'.admitters := by
  simp only [AuthorityLogEntry.signedBy, List.any_eq_true, decide_eq_true_eq] at hs ⊢
  obtain ⟨k, hk, ha⟩ := hs
  exact ⟨k, hk, h.admitters ha⟩

theorem TakenRoot.grow (hg : Grows s s') (h : s.TakenRoot verifies e) : s'.TakenRoot verifies e := by
  intro a ha
  obtain ⟨hin, haw⟩ := h a ha
  refine ⟨hg.anchors hin, fun record hop hr => hg.awaited (haw record hop ?_)⟩
  rwa [hg.localRoots] at hr

theorem TakenAdmission.grow (hg : Grows s s') (h : s.TakenAdmission verifies e device) :
    s'.TakenAdmission verifies e device :=
  ⟨hg.signedBy h.1, fun hv => ⟨hg.admitters (h.2 hv).1, fun ho => hg.issuers ((h.2 hv).2 ho)⟩⟩

theorem TakenProfile.grow (hg : Grows s s') (h : s.TakenProfile verifies rows e profile) :
    s'.TakenProfile verifies rows e profile := by
  refine ⟨hg.stands h.1, fun hv => ?_⟩
  obtain ⟨hk, hr, hf⟩ := h.2 hv
  exact ⟨hg.vouching _ hk, fun h => hg.removed (hr h), fun h => hg.machineKeys (hf h)⟩

/-- **Completeness under growth**: what is newly granted has to be on a stack. -/
theorem Complete.of_grows (h : s.Complete verifies rows pushed todo) (hg : Grows s s')
    (hadmissions : s'.admissions = s.admissions) (hprofiles : s'.profiles = s.profiles)
    (hadmitters : ∀ k ∈ s'.admitters, k ∈ s.admitters ∨ k ∈ s'.admitted)
    (hadmitted : ∀ k ∈ s.admitted, k ∈ s'.admitted)
    (hstands : ∀ profile k, s'.Stands profile k →
      s.Stands profile k ∨ k ∈ s'.issued ∨ k ∈ s'.anchored ∨ k ∈ s'.woken)
    (hstacks : ∀ k, k ∈ s.issued ∨ k ∈ s.anchored ∨ k ∈ s.woken →
      k ∈ s'.issued ∨ k ∈ s'.anchored ∨ k ∈ s'.woken) :
    s'.Complete verifies rows pushed todo where
  roots e he := (h.roots e he).imp_right (·.grow hg)
  admissions e he device hd := by
    rw [hadmissions]
    exact (h.admissions e he device hd).imp_right (Or.imp_right (·.grow hg))
  profiles e he profile hop := by
    rw [hprofiles]
    exact (h.profiles e he profile hop).imp_right (Or.imp_right (Or.imp_right (·.grow hg)))
  admissionsAsleep k hk e he := by
    rw [hadmissions] at he
    obtain hk | hk := hadmitters k hk
    · exact hadmitted k (h.admissionsAsleep k hk e he)
    · exact hk
  profilesAsleep k e he profile hop hs := by
    rw [hprofiles] at he
    obtain hs | hs := hstands profile k hs
    · exact hstacks k (h.profilesAsleep k e he profile hop hs)
    · exact hs

/-- A row done need not be placed. -/
theorem Complete.discharge (h : s.Complete verifies rows pushed (e :: todo))
    (hroots : s.TakenRoot verifies e)
    (hadmissions : ∀ device, e.admission = some device →
      (∀ k ∈ e.signers, e ∈ s.admissions.shelf k) ∨ s.TakenAdmission verifies e device)
    (hprofiles : ∀ profile, e.op = .machineProfile profile →
      Dropped e profile ∨ e ∈ s.profiles.shelf e.signer ∨ s.TakenProfile verifies rows e profile) :
    s.Complete verifies rows pushed todo where
  roots e' he := by
    obtain hm | hd := h.roots e' he
    · obtain rfl | hm := mem_cons.mp hm
      · exact .inr hroots
      · exact .inl hm
    · exact .inr hd
  admissions e' he device hd := by
    obtain hm | hdone := h.admissions e' he device hd
    · obtain rfl | hm := mem_cons.mp hm
      · exact .inr (hadmissions device hd)
      · exact .inl hm
    · exact .inr hdone
  profiles e' he profile hop := by
    obtain hm | hdone := h.profiles e' he profile hop
    · obtain rfl | hm := mem_cons.mp hm
      · exact .inr (hprofiles profile hop)
      · exact .inl hm
    · exact .inr hdone
  admissionsAsleep := h.admissionsAsleep
  profilesAsleep := h.profilesAsleep

end Settling

end Filing

section Settles

namespace Settling

variable {verifies : AuthorityLogEntry → Bool} {rows kept pushed : Set AuthorityLogEntry}
  {roots : Finset Bytes32} {todo : List AuthorityLogEntry} {s : Settling} {e : AuthorityLogEntry}

/-! ## Seats -/

theorem grows_issue (s : Settling) (key : AuthorityKey) : Grows s (s.issue key) := by
  unfold issue
  split
  · exact .refl s
  · exact { Grows.refl s with issuers := subset_insert _ _ }

theorem grows_admitKey (s : Settling) (key : AuthorityKey) : Grows s (s.admitKey key) := by
  unfold admitKey
  split
  · exact .refl s
  · exact { Grows.refl s with admitters := subset_insert _ _ }

theorem mem_issue (s : Settling) (key : AuthorityKey) : key ∈ (s.issue key).issuers := by
  unfold issue
  split
  · assumption
  · exact mem_insert_self _ _

theorem mem_admitKey (s : Settling) (key : AuthorityKey) : key ∈ (s.admitKey key).admitters := by
  unfold admitKey
  split
  · assumption
  · exact mem_insert_self _ _

variable {key : AuthorityKey}

theorem Mid.issue (h : s.Mid verifies rows kept roots pushed todo) (hkey : Issues verifies rows key)
    : (s.issue key).Mid verifies rows kept roots pushed todo := by
  by_cases hin : key ∈ s.issuers
  · rwa [Settling.issue, if_pos hin]
  have hg := grows_issue s key
  rw [Settling.issue, if_neg hin] at hg ⊢
  refine ⟨{ h.sound with issuers := ?_, rootIssues := fun k hk => hg.issuers (h.sound.rootIssues k hk) },
    h.complete.of_grows hg rfl rfl (fun k hk => .inl hk) (fun k hk => hk) ?_ ?_, h.todoRows⟩
  · intro k hk
    obtain rfl | hk := mem_insert.mp hk
    · exact hkey
    · exact h.sound.issuers k hk
  · intro profile k hs
    unfold Stands Via at hs ⊢
    split at hs
    · obtain hi | ha := hs
      · obtain rfl | hi := mem_insert.mp hi
        · exact .inr (.inl (mem_cons_self ..))
        · exact .inl (.inl hi)
      · exact .inl (.inr ha)
    · exact .inl hs
  · exact fun k hk => hk.imp_left (mem_cons_of_mem _)

theorem Mid.admitKey (h : s.Mid verifies rows kept roots pushed todo)
    (hkey : Admits verifies rows key) :
    (s.admitKey key).Mid verifies rows kept roots pushed todo := by
  by_cases hin : key ∈ s.admitters
  · rwa [Settling.admitKey, if_pos hin]
  have hg := grows_admitKey s key
  rw [Settling.admitKey, if_neg hin] at hg ⊢
  refine ⟨{ h.sound with
      admitters := ?_, rootAdmits := fun g hr hroot => hg.admitters (h.sound.rootAdmits g hr hroot)
      admitted := ?_ },
    h.complete.of_grows hg rfl rfl ?_ (fun k hk => mem_cons_of_mem _ hk)
      (fun profile k hs => .inl hs) (fun k hk => hk), h.todoRows⟩
  · intro k hk
    obtain rfl | hk := mem_insert.mp hk
    · exact hkey
    · exact h.sound.admitters k hk
  · intro k hk
    obtain rfl | hk := mem_cons.mp hk
    · exact mem_insert_self _ _
    · exact mem_insert_of_mem (h.sound.admitted k hk)
  · intro k hk
    obtain rfl | hk := mem_insert.mp hk
    · exact .inr (mem_cons_self ..)
    · exact .inl hk

theorem grows_seat (s : Settling) (device : DeviceAuthority) : Grows s (s.seat device) := by
  unfold seat
  split
  · exact (grows_issue s _).trans (grows_admitKey _ _)
  · exact grows_admitKey s _

theorem Mid.seat (h : s.Mid verifies rows kept roots pushed todo)
    (hadmits : Admits verifies rows device.key)
    (hissues : holdsOwner device.roles → Issues verifies rows device.key) :
    (s.seat device).Mid verifies rows kept roots pushed todo := by
  unfold Settling.seat
  split
  · next ho => exact (h.issue (hissues ho)).admitKey hadmits
  · exact h.admitKey hadmits

/-- A seat is an admitter's, and an issuer's when the device holds the owner role. -/
theorem mem_seat (s : Settling) (device : DeviceAuthority) :
    device.key ∈ (s.seat device).admitters ∧
      (holdsOwner device.roles → device.key ∈ (s.seat device).issuers) := by
  refine ⟨mem_admitKey _ _, fun ho => ?_⟩
  unfold seat
  rw [if_pos ho]
  exact (grows_admitKey _ _).issuers (mem_issue s _)

/-! ## Admissions -/

theorem admitsDevice_of_admission (h : e.admission = some device) :
    e.op.admitsDevice = some device := by
  exact (filter_eq_some_iff.mp h).1

theorem no_profile_of_admission (h : e.admission = some device) :
    e.op ≠ .machineProfile profile := by
  intro hop
  have := admitsDevice_of_admission h
  simp [hop, AuthorityOp.admitsDevice] at this

theorem no_root_of_admission (h : e.admission = some device) :
    selfSignedRoot verifies e = none := by
  have := admitsDevice_of_admission h
  unfold selfSignedRoot
  split
  · next hop => simp [hop, AuthorityOp.admitsDevice] at this
  · rfl

theorem Mid.admitEntry (h : s.Mid verifies rows kept roots pushed (e :: todo))
    (hd : e.admission = some device) (hby : e.signedBy s.admitters) :
    (s.admitEntry verifies e).Mid verifies rows kept roots pushed todo := by
  have he := h.sound.keptRows (h.todoRows e (mem_cons_self ..)).1
  have hdone {s' : Settling} (h' : s'.Mid verifies rows kept roots pushed (e :: todo)) (hg : Grows s s')
      (hseat : verifies e → device.key ∈ s'.admitters ∧
        (holdsOwner device.roles → device.key ∈ s'.issuers)) :
      s'.Mid verifies rows kept roots pushed todo := by
    refine ⟨h'.sound, h'.complete.discharge ?_ ?_ ?_,
      fun x hx => h'.todoRows x (mem_cons_of_mem _ hx)⟩
    · intro a ha
      simp [no_root_of_admission hd] at ha
    · intro device' hd'
      obtain rfl := some.inj (hd.symm.trans hd')
      exact .inr ⟨hg.signedBy hby, hseat⟩
    · exact fun profile hop => absurd hop (no_profile_of_admission hd)
  simp only [Settling.admitEntry, admitsDevice_of_admission hd]
  split
  · next hv =>
    have hby' := hby
    simp only [AuthorityLogEntry.signedBy, List.any_eq_true, decide_eq_true_eq] at hby'
    obtain ⟨k, hk, ha⟩ := hby'
    have hadmits := h.sound.admitters k ha
    exact hdone (h.seat (.named he hd hv hk hadmits)
      fun ho => .inr ⟨e, he, device, hd, hv, rfl, ho, k, hk, hadmits⟩) (grows_seat s device)
      fun _ => mem_seat s device
  · next hv => exact hdone h (.refl s) fun hv' => absurd hv' hv

/-- An admission no admitter signed is filed under each key that signed it. -/
theorem Mid.fileAdmission (h : s.Mid verifies rows kept roots pushed (e :: todo))
    (hd : e.admission = some device) (hby : ¬ e.signedBy s.admitters) :
    { s with admissions := s.admissions.fileAll e.signers e }.Mid verifies rows kept roots pushed
      todo := by
  have he := (h.todoRows e (List.mem_cons_self ..)).1
  have hnot (k : AuthorityKey) (hk : k ∈ e.signers) : k ∉ s.admitters := fun ha =>
    hby (any_eq_true.mpr ⟨k, hk, decide_eq_true ha⟩)
  refine ⟨{ h.sound with admissionRows := ?_ }, ?_,
    fun x hx => h.todoRows x (mem_cons_of_mem _ hx)⟩
  · intro k x hx
    obtain hx | ⟨hk, rfl⟩ := mem_fileAll.mp hx
    · exact h.sound.admissionRows k x hx
    · exact ⟨he, hk, by simp [hd], fun g hg hroot hs => hnot _ hs (h.sound.rootAdmits g hg hroot)⟩
  have hc : { s with admissions := s.admissions.fileAll e.signers e }.Complete verifies rows pushed
      (e :: todo) := by
    refine ⟨h.complete.roots, fun x hx device' hd' => ?_, h.complete.profiles, fun k hk x hx => ?_,
      h.complete.profilesAsleep⟩
    · exact (h.complete.admissions x hx device' hd').imp_right
        (Or.imp_left fun hall k hk => mem_fileAll.mpr (.inl (hall k hk)))
    · obtain hx | ⟨hk', rfl⟩ := mem_fileAll.mp hx
      · exact h.complete.admissionsAsleep k hk x hx
      · exact absurd hk (hnot k hk')
  refine hc.discharge ?_ ?_ fun profile hop => absurd hop (no_profile_of_admission hd)
  · intro a ha
    simp [no_root_of_admission hd] at ha
  · exact fun _ _ => .inl fun k hk => mem_fileAll.mpr (.inr ⟨hk, rfl⟩)

/-! ## Root records -/

theorem op_of_selfSignedRoot {a : Bytes32} (h : selfSignedRoot verifies e = some a) :
    ∃ record, e.op = .ownerRoot record := by
  unfold selfSignedRoot at h
  split at h
  · next record hop => exact ⟨record, hop⟩
  · simp at h

theorem grows_takeRoot (s : Settling) (record : OwnerRootRecord) (a : Bytes32) :
    Grows s (s.takeRoot record a) := by
  unfold takeRoot
  dsimp only
  split <;> split
  · exact { Grows.refl s with awaited := subset_insert _ _ }
  · exact { Grows.refl s with
      awaited := subset_insert _ _, anchors := subset_insert _ _ }
  · exact .refl s
  · exact { Grows.refl s with anchors := subset_insert _ _ }

/-- What taking a root record changes. -/
theorem takeRoot_spec (s : Settling) (record : OwnerRootRecord) (a : Bytes32) :
    ∃ awaited anchors anchored,
      s.takeRoot record a = { s with awaitedAnchors := awaited, anchors, anchored } ∧
      (∀ x, x ∈ anchors ↔ x = a ∨ x ∈ s.anchors) ∧
      (∀ x ∈ awaited, x ∈ s.awaitedAnchors ∨ x = a ∧ record.root ∈ s.localRoots.roots) ∧
      (s.ownAnchors = ∅ → record.root ∈ s.localRoots.roots → a ∈ awaited) ∧
      (∀ k ∈ s.anchored, k ∈ anchored) ∧ (a ∉ s.anchors → .ed25519 a ∈ anchored) := by
  unfold takeRoot
  dsimp only
  split
  · next hr =>
    split
    · next ha =>
      refine ⟨_, _, _, rfl, ?_, ?_, ?_, fun _ => id, fun hn => absurd ha hn⟩
      · exact fun x => ⟨.inr, fun hx => hx.elim (fun h => h ▸ ha) id⟩
      · exact fun x hx => (mem_insert.mp hx).symm.imp_right fun h => ⟨h, hr.1⟩
      · exact fun _ _ => mem_insert_self _ _
    · refine ⟨_, _, _, rfl, fun x => mem_insert, ?_, ?_, fun _ => mem_cons_of_mem _,
        fun _ => mem_cons_self ..⟩
      · exact fun x hx => (mem_insert.mp hx).symm.imp_right fun h => ⟨h, hr.1⟩
      · exact fun _ _ => mem_insert_self _ _
  · next hr =>
    have hnot (h : s.ownAnchors = ∅) (h' : record.root ∈ s.localRoots.roots) : False :=
      hr ⟨h', by simp [h]⟩
    split
    · next ha =>
      exact ⟨_, _, _, rfl, fun x => ⟨.inr, fun hx => hx.elim (fun h => h ▸ ha) id⟩, fun x => .inl,
        fun h h' => (hnot h h').elim, fun _ => id, fun hn => absurd ha hn⟩
    · exact ⟨_, _, _, rfl, fun x => mem_insert, fun x => .inl,
        fun h h' => (hnot h h').elim, fun _ => mem_cons_of_mem _, fun _ => mem_cons_self ..⟩

theorem Mid.takeRoot {record : OwnerRootRecord} {a : Bytes32}
    (h : s.Mid verifies rows kept roots pushed (e :: todo)) (hop : e.op = .ownerRoot record)
    (ha : selfSignedRoot verifies e = some a) :
    (s.takeRoot record a).Mid verifies rows kept roots pushed todo := by
  have he := h.sound.keptRows (h.todoRows e (mem_cons_self ..)).1
  have hg := grows_takeRoot s record a
  obtain ⟨awaited, anchors, anchored, hs, hanchors, hawaited, haw, hold, hnew⟩ :=
    takeRoot_spec s record a
  rw [hs] at hg ⊢
  refine ⟨{ h.sound with anchors := ?_, awaited := ?_ }, ?_,
    fun x hx => h.todoRows x (mem_cons_of_mem _ hx)⟩
  · intro x hx
    obtain rfl | hx := (hanchors x).mp hx
    · exact ⟨e, he, ha⟩
    · exact h.sound.anchors x hx
  · intro x hx
    obtain hx | ⟨rfl, hr⟩ := hawaited x hx
    · exact h.sound.awaited x hx
    · exact ⟨e, he, ha, record, hop, h.sound.localRoots ▸ hr⟩
  refine (h.complete.of_grows hg rfl rfl (fun k => .inl) (fun k => id) ?_ ?_).discharge ?_ ?_ ?_
  · intro profile k hst
    unfold Stands Via at hst ⊢
    split at hst
    · obtain hi | hk := hst
      · exact .inl (.inl hi)
      cases k with
      | ed25519 x =>
        simp only [isAnchor, decide_eq_true_eq, hanchors] at hk
        by_cases hx : x ∈ s.anchors ∨ x ∈ s.ownAnchors
        · exact .inl (.inr (by simpa [isAnchor] using hx))
        · obtain (rfl | hk) | hk := hk
          · exact .inr (.inr (.inl (hnew fun h => hx (.inl h))))
          · exact absurd (.inl hk) hx
          · exact absurd (.inr hk) hx
      | p256 => simp [isAnchor] at hk
    · exact .inl hst
  · exact fun k hk => hk.imp_right (Or.imp_left (hold k))
  · intro x hx
    obtain rfl := some.inj (ha.symm.trans hx)
    refine ⟨(hanchors a).mpr (.inl rfl), fun record' hop' hr => ?_⟩
    obtain rfl := AuthorityOp.ownerRoot.inj (hop.symm.trans hop')
    exact haw h.sound.noOwnAnchors hr
  · intro device hd
    simp [no_root_of_admission hd] at ha
  · exact fun profile hop' => by simp [hop] at hop'

end Settling

end Settles

end Oneiron
