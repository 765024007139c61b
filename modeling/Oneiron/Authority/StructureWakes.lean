import Oneiron.Authority.StructureSettles

/-!
# Authority/StructureWakes — taking an install key, waking a shelf

The step that makes the classes of keys: a revision whose authority stands takes the key it names,
and wakes the answers that key carries if nothing named it before (`Mid.takeKey`).  A row taken as a
stranger's while it may stray stays so whatever is learnt later; one no stranger may carry is taken
as own.
-/

namespace Oneiron

open List Option AuthorityOp.machineProfile Shelves AuthorityStructure

namespace Settling

variable {verifies : AuthorityLogEntry → Bool} {rows kept pushed : Set AuthorityLogEntry}
  {roots : Finset Bytes32} {todo : List AuthorityLogEntry} {s : Settling} {e : AuthorityLogEntry}

/-! ## Standing -/

variable {key signer : AuthorityKey} {profile : MachineProfile}

/-- With no own anchors, a revision stands as own through an issuer or an own carrier. -/
theorem standing_own (h : s.ownAnchors = ∅) : (s.standing profile signer).1 = true ↔
      Via (· ∈ s.issuers) (· ∈ s.machineKeys) profile signer := by
  have hnot : s.isOwnAnchor signer = false := by
    cases signer <;> simp [isOwnAnchor, h]
  cases hc : profile.carrier <;> simp [standing, Via, hc, hnot]

/-- …and as a stranger's through an anchor that is no issuer, or a stranger carrier. -/
theorem standing_stranger (h : s.ownAnchors = ∅) : (s.standing profile signer).2 = true ↔
      Via (fun k => k ∉ s.issuers ∧ s.isAnchor k) (· ∈ s.strangerKeys) profile signer := by
  have hnot : s.isOwnAnchor signer = false := by
    cases signer <;> simp [isOwnAnchor, h]
  cases hc : profile.carrier <;> simp [standing, Via, hc, hnot]

theorem mem_vouching {k : EntityId × AuthorityKey} :
    s.vouchingKey k = true ↔ k ∈ s.machineKeys ∨ k ∈ s.strangerKeys := by
  simp [vouchingKey]

/-- A revision that stands stands as own or as a stranger's, and the other way round. -/
theorem stands_iff (h : s.ownAnchors = ∅) : s.Stands profile signer ↔
      (s.standing profile signer).1 = true ∨ (s.standing profile signer).2 = true := by
  rw [standing_own h, standing_stranger h]
  unfold Stands Via
  split
  · by_cases hi : signer ∈ s.issuers <;> simp [hi]
  · exact mem_vouching

section

variable (h : s.Sound verifies rows kept roots)

include h

theorem Sound.isAnchor {k : AuthorityKey} (hk : s.isAnchor k) : AnchorKey verifies rows k := by
  cases k with
  | ed25519 a =>
    simp only [AuthorityStructure.isAnchor, decide_eq_true_eq, h.noOwnAnchors,
      Finset.notMem_empty, or_false] at hk
    exact ⟨a, rfl, h.anchors a hk⟩
  | p256 => simp [AuthorityStructure.isAnchor] at hk

/-- What stands as own, the rows grant as own. -/
theorem Sound.standing_own (hs : (s.standing profile signer).1 = true) :
    Via (Issues verifies rows) (Names verifies kept (Issues verifies rows)) profile signer :=
  ((Settling.standing_own h.noOwnAnchors).mp hs).mono h.issuers h.own

/-- What stands as a stranger's, a stranger may carry. -/
theorem Sound.standing_stranger (hs : (s.standing profile signer).2 = true) :
    Via (Strays verifies rows) (Names verifies rows (Strays verifies rows)) profile signer :=
  ((Settling.standing_stranger h.noOwnAnchors).mp hs).mono
    (fun _ hk => ⟨h.isAnchor hk.2, fun hr => hk.1 (h.rootIssues _ hr)⟩) h.strangers

/-- What stands, the rows vouch for. -/
theorem Sound.stands (hs : s.Stands profile signer) :
    Via (Vouches verifies rows) (Names verifies rows (Vouches verifies rows)) profile signer := by
  obtain hs | hs := (stands_iff h.noOwnAnchors).mp hs
  · exact (h.standing_own hs).mono (fun _ => .inl)
      fun _ hk => hk.mono (fun _ hr _ _ => h.keptRows hr) fun _ => .inl
  · exact (h.standing_stranger hs).mono (fun _ => Strays.vouches)
      fun _ hk => hk.mono (fun _ hr _ _ => hr) fun _ => Strays.vouches

end

/-! ## Taking a key -/

/-- What taking an install key changes. -/
theorem takeKey_spec (s : Settling) (profile : MachineProfile) (own : Bool) :
    ∃ machineKeys strangerKeys removed woken grown,
      s.takeKey profile own = { s with machineKeys, strangerKeys, removed, woken, grown } ∧
      (∀ k, k ∈ machineKeys ↔ k ∈ s.machineKeys ∨ own = true ∧ k = profile.installKey) ∧
      (∀ k, k ∈ strangerKeys ↔ k ∈ s.strangerKeys ∧ ¬ (own = true ∧ k = profile.installKey) ∨
        own = false ∧ k = profile.installKey ∧ k ∉ s.machineKeys) ∧
      (∀ m, m ∈ removed ↔ m ∈ s.removed ∨ profile.role = .removed ∧ m = profile.machine) ∧
      (∀ k ∈ s.woken, k ∈ woken) ∧
      (s.vouchingKey profile.installKey = false → profile.installKey.2 ∈ woken) := by
  have hcase (t : Settling) (removed : Finset EntityId) (ht : t = { s with removed })
      (hremoved : ∀ m, m ∈ removed ↔ m ∈ s.removed ∨ profile.role = .removed ∧ m = profile.machine) :
      ∃ machineKeys strangerKeys,
        (if own then
          { t with
            strangerKeys := t.strangerKeys.erase profile.installKey
            machineKeys := insert profile.installKey t.machineKeys }
        else if profile.installKey ∈ t.machineKeys then t
        else { t with strangerKeys := insert profile.installKey t.strangerKeys }) =
          { s with machineKeys, strangerKeys, removed } ∧
        (∀ k, k ∈ machineKeys ↔ k ∈ s.machineKeys ∨ own = true ∧ k = profile.installKey) ∧
        (∀ k, k ∈ strangerKeys ↔ k ∈ s.strangerKeys ∧ ¬ (own = true ∧ k = profile.installKey) ∨
          own = false ∧ k = profile.installKey ∧ k ∉ s.machineKeys) := by
    subst ht
    cases own with
    | true =>
      exact ⟨_, _, rfl, fun k => by simp [or_comm], fun k => by simp [and_comm]⟩
    | false =>
      by_cases hm : profile.installKey ∈ s.machineKeys
      · refine ⟨s.machineKeys, s.strangerKeys, by simp [hm], fun k => by simp, fun k => ?_⟩
        simp only [Bool.false_eq_true, false_and, not_false_eq_true, and_true, true_and]
        exact ⟨.inl, fun h => h.elim id fun ⟨hk, hn⟩ => absurd (hk ▸ hm) hn⟩
      · refine ⟨s.machineKeys, insert profile.installKey s.strangerKeys, by simp [hm],
          fun k => by simp, fun k => ?_⟩
        simp only [Bool.false_eq_true, false_and, not_false_eq_true, and_true, true_and,
          Finset.mem_insert]
        exact ⟨fun h => h.elim (fun hk => .inr ⟨hk, hk ▸ hm⟩) .inl,
          fun h => h.elim .inr fun hk => .inl hk.1⟩
  unfold takeKey
  dsimp only
  have hremoved : ∃ removed, (if profile.role = .removed then
      { s with removed := insert profile.machine s.removed } else s) = { s with removed } ∧
      ∀ m, m ∈ removed ↔ m ∈ s.removed ∨ profile.role = .removed ∧ m = profile.machine := by
    by_cases hr : profile.role = .removed
    · exact ⟨_, by rw [if_pos hr], fun m => by simp [hr, or_comm]⟩
    · exact ⟨s.removed, by rw [if_neg hr], fun m => by simp [hr]⟩
  obtain ⟨removed, ht, hremoved⟩ := hremoved
  obtain ⟨machineKeys, strangerKeys, hs, hmachine, hstranger⟩ := hcase _ removed ht hremoved
  rw [hs]
  split
  · next hv =>
    exact ⟨_, _, _, _, _, rfl, hmachine, hstranger, hremoved, fun _ => id,
      fun hn => by simp [hv] at hn⟩
  · exact ⟨_, _, _, _, _, rfl, hmachine, hstranger, hremoved, fun _ => mem_cons_of_mem _,
      fun _ => mem_cons_self ..⟩

/-- A key taken vouches, and no key that vouched stops. -/
theorem grows_takeKey (s : Settling) (profile : MachineProfile) (own : Bool) :
    Grows s (s.takeKey profile own) := by
  obtain ⟨machineKeys, strangerKeys, removed, woken, grown, hs, hmachine, hstranger, hremoved, -, -⟩ :=
    takeKey_spec s profile own
  rw [hs]
  refine { Grows.refl s with machineKeys := ?_, vouching := ?_, removed := ?_ }
  · exact fun k hk => (hmachine k).mpr (.inl hk)
  · intro k hk
    rw [mem_vouching] at hk ⊢
    obtain hk | hk := hk
    · exact .inl ((hmachine k).mpr (.inl hk))
    · by_cases ho : own = true ∧ k = profile.installKey
      · exact .inl ((hmachine k).mpr (.inr ho))
      · exact .inr ((hstranger k).mpr (.inl ⟨hk, ho⟩))
  · exact fun m hm => (hremoved m).mpr (.inl hm)

section

variable (h : s.Mid verifies rows kept roots pushed (e :: todo))

include h

theorem Mid.takeKey (hop : e.op = .machineProfile profile) (hv : verifies e)
    (hd : ¬ Dropped e profile) (hs : s.Stands profile e.signer) :
    (s.takeKey profile (s.standing profile e.signer).1).Mid verifies rows kept roots pushed todo := by
  have hkept := (h.todoRows e (mem_cons_self ..)).1
  have he := h.sound.keptRows hkept
  have hstands := (stands_iff h.sound.noOwnAnchors).mp hs
  have hvia := h.sound.stands hs
  have hg := grows_takeKey s profile (s.standing profile e.signer).1
  obtain ⟨machineKeys, strangerKeys, removed, woken, grown, ht, hmachine, hstranger, hremoved, hold,
    hnew⟩ := takeKey_spec s profile (s.standing profile e.signer).1
  have hown : (s.standing profile e.signer).1 = true →
      Names verifies kept (Issues verifies rows) profile.installKey := fun ho =>
    .of_via hkept hop hv hd (h.sound.standing_own ho)
  have hstray : (s.standing profile e.signer).1 = false →
      Via (Strays verifies rows) (Names verifies rows (Strays verifies rows)) profile e.signer :=
    fun ho => h.sound.standing_stranger (hstands.resolve_left (by simp [ho]))
  rw [ht] at hg ⊢
  refine ⟨{ h.sound with own := ?_, strangers := ?_, removed := ?_, apart := ?_ }, ?_,
    fun x hx => h.todoRows x (mem_cons_of_mem _ hx)⟩
  · intro k hk
    obtain hk | ⟨ho, rfl⟩ := (hmachine k).mp hk
    · exact h.sound.own k hk
    · exact hown ho
  · intro k hk
    obtain ⟨hk, -⟩ | ⟨ho, rfl, -⟩ := (hstranger k).mp hk
    · exact h.sound.strangers k hk
    · exact .of_via he hop hv hd (hstray ho)
  · intro m hm
    obtain hm | ⟨hr, rfl⟩ := (hremoved m).mp hm
    · exact h.sound.removed m hm
    · exact ⟨e, he, profile, hop, hv, hd, hr, rfl, hvia⟩
  · intro k hk hm
    obtain ⟨hk, hn⟩ | ⟨ho, rfl, hn⟩ := (hstranger k).mp hk
    · exact ((hmachine k).mp hm).elim (h.sound.apart k hk) hn
    · exact ((hmachine _).mp hm).elim hn fun ⟨ho', _⟩ => by simp [ho] at ho'
  refine (h.complete.of_grows hg rfl rfl (fun k => .inl) (fun k => id) ?_ ?_).discharge ?_ ?_ ?_
  · intro profile' k hst
    unfold Stands Via at hst ⊢
    split at hst
    · exact .inl hst
    · next carrier hc =>
      by_cases hvk : s.vouchingKey (carrier, k)
      · exact .inl hvk
      rw [mem_vouching] at hst
      have hk : (carrier, k) = profile.installKey := by
        rw [mem_vouching] at hvk
        obtain hst | hst := hst
        · exact ((hmachine _).mp hst).elim (fun h => absurd (.inl h) hvk) (·.2)
        · exact ((hstranger _).mp hst).elim (fun h => absurd (.inr h.1) hvk) (·.2.1)
      have := hnew (by rw [← hk]; simpa using hvk)
      rw [← hk] at this
      exact .inr (.inr (.inr this))
  · exact fun k hk => hk.imp_right (Or.imp_right (hold k))
  · intro a ha
    obtain ⟨record, hop'⟩ := op_of_selfSignedRoot ha
    simp [hop] at hop'
  · exact fun device hd => absurd hop (no_profile_of_admission hd)
  · intro profile' hop'
    obtain rfl := inj (hop.symm.trans hop')
    refine .inr (.inr ⟨hg.stands hs, fun _ => ⟨?_, ?_, ?_⟩⟩)
    · rw [mem_vouching]
      cases ho : (s.standing profile e.signer).1 with
      | true => exact .inl ((hmachine _).mpr (.inr ⟨ho, rfl⟩))
      | false =>
        by_cases hm : profile.installKey ∈ s.machineKeys
        · exact .inl ((hmachine _).mpr (.inl hm))
        · exact .inr ((hstranger _).mpr (.inr ⟨ho, rfl, hm⟩))
    · exact fun hr => (hremoved _).mpr (.inr ⟨hr, rfl⟩)
    · intro hn
      cases ho : (s.standing profile e.signer).1 with
      | true => exact (hmachine _).mpr (.inr ⟨ho, rfl⟩)
      | false => exact absurd ⟨profile, hop, hstray ho⟩ hn

/-! ## Filing a revision -/

theorem Mid.fileProfile (hop : e.op = .machineProfile profile) :
    (s.fileProfile verifies e).Mid verifies rows kept roots pushed todo := by
  have he := (h.todoRows e (mem_cons_self ..)).1
  have htodo : ∀ x ∈ todo, x ∈ kept ∧ waits x := fun x hx =>
    h.todoRows x (mem_cons_of_mem _ hx)
  have hroot : s.TakenRoot verifies e := fun a ha => by
    obtain ⟨record, hop'⟩ := op_of_selfSignedRoot ha
    simp [hop] at hop'
  have hdone (hp : Dropped e profile ∨ e ∈ s.profiles.shelf e.signer ∨
      s.TakenProfile verifies rows e profile) : s.Mid verifies rows kept roots pushed todo :=
    ⟨h.sound, h.complete.discharge hroot (fun _ hd => absurd hop (no_profile_of_admission hd))
      fun profile' hop' => inj (hop.symm.trans hop') ▸ hp, htodo⟩
  simp only [Settling.fileProfile, hop]
  split
  · next hd => exact hdone (.inl hd)
  · next hd =>
    split
    · next hn =>
      have hn' : ¬ s.Stands profile e.signer := by
        rw [stands_iff h.sound.noOwnAnchors]
        simpa using hn
      refine ⟨{ h.sound with profileRows := ?_ }, ?_, htodo⟩
      · intro k x hx
        obtain hx | ⟨rfl, rfl⟩ := mem_file.mp hx
        · exact h.sound.profileRows k x hx
        · exact ⟨he, rfl, profile, hop, hd⟩
      have hc : { s with profiles := s.profiles.file e.signer e }.Complete verifies rows pushed
          (e :: todo) := by
        refine ⟨h.complete.roots, h.complete.admissions, fun x hx p hp => ?_,
          h.complete.admissionsAsleep, fun k x hx p hp hst => ?_⟩
        · exact (h.complete.profiles x hx p hp).imp_right (Or.imp_right (Or.imp_left fun hin =>
            mem_file.mpr (.inl hin)))
        · obtain hx | ⟨rfl, rfl⟩ := mem_file.mp hx
          · exact h.complete.profilesAsleep k x hx p hp hst
          · exact absurd (inj (hop.symm.trans hp) ▸ hst) hn'
      exact hc.discharge hroot (fun _ hd => absurd hop (no_profile_of_admission hd))
        fun _ _ => .inr (.inl (mem_file.mpr (.inr ⟨rfl, rfl⟩)))
    · next hn =>
      have hst : s.Stands profile e.signer := by
        rw [stands_iff h.sound.noOwnAnchors]
        by_contra hcon
        exact hn (by simpa using hcon)
      split
      · next hv => exact h.takeKey hop hv hd hst
      · next hv => exact hdone (.inr (.inr ⟨hst, fun hv' => absurd hv' hv⟩))

/-! ## The pass over fresh rows, and the loop -/

theorem Mid.place : (s.place verifies e).Mid verifies rows kept roots pushed todo := by
  obtain ⟨-, hw⟩ := h.todoRows e (mem_cons_self ..)
  unfold Settling.place
  split
  · next record hop =>
    split
    · next hn =>
      refine ⟨h.sound, h.complete.discharge (fun a ha => by simp [hn] at ha) (fun device hd => ?_)
        (fun profile hop' => by simp [hop] at hop'), fun x hx => h.todoRows x (mem_cons_of_mem _ hx)⟩
      have := admitsDevice_of_admission hd
      simp [hop, AuthorityOp.admitsDevice] at this
    · next a ha => exact h.takeRoot hop ha
  · next profile hop => exact h.fileProfile hop
  · next hroot hprofile =>
    have hd : ∃ device, e.admission = some device := by
      refine isSome_iff_exists.mp ?_
      unfold waits at hw
      split at hw
      · next profile hop => exact absurd hop (hprofile profile)
      · next record hop => exact absurd hop (hroot record)
      · exact hw
    obtain ⟨device, hd⟩ := hd
    split
    · next hby => exact h.admitEntry hd hby
    · next hby => exact h.fileAdmission hd hby

end

/-- A key off the admitters' stack wakes the admissions filed under it. -/
theorem Mid.wakeAdmissions {admitted : List AuthorityKey}
    (h : s.Mid verifies rows kept roots pushed []) (hs : s.admitted = key :: admitted) :
    ({ s with admitted }.wakeAdmissions verifies key).Mid verifies rows kept roots pushed [] := by
  have hkey : key ∈ s.admitters := h.sound.admitted key (by simp [hs])
  -- a shelf taken off is still to be placed
  have hshelf : { s with admitted, admissions := s.admissions.clear key }.Mid verifies rows kept roots pushed
      (s.admissions.shelf key) := by
    refine ⟨{ h.sound with
        admitted := fun k hk => h.sound.admitted k (by simp [hs, hk])
        admissionRows := fun k x hx => h.sound.admissionRows k x (mem_clear.mp hx).1 },
      ⟨fun x hx => .inr ((h.complete.roots x hx).resolve_left not_mem_nil), ?_,
        fun x hx p hp => .inr ((h.complete.profiles x hx p hp).resolve_left not_mem_nil), ?_,
        h.complete.profilesAsleep⟩, ?_⟩
    · intro x hx device hd
      obtain hall | hdone := (h.complete.admissions x hx device hd).resolve_left not_mem_nil
      · by_cases hk : key ∈ x.signers
        · exact .inl (hall key hk)
        · exact .inr (.inl fun k hk' => mem_clear.mpr ⟨hall k hk', fun heq => hk (heq ▸ hk')⟩)
      · exact .inr (.inr hdone)
    · intro k hk x hx
      obtain ⟨hx, hne⟩ := mem_clear.mp hx
      have := h.complete.admissionsAsleep k hk x hx
      rw [hs, mem_cons] at this
      exact this.resolve_left fun heq => hne heq.symm
    · intro x hx
      obtain ⟨hin, -, ha, -⟩ := h.sound.admissionRows key x hx
      obtain ⟨device, hd⟩ := isSome_iff_exists.mp ha
      refine ⟨hin, ?_⟩
      unfold waits
      split
      · next hop => exact absurd hop (no_profile_of_admission hd)
      · rfl
      · exact ha
  have hrows (x : AuthorityLogEntry) (hx : x ∈ s.admissions.shelf key) :
      key ∈ x.signers ∧ x.admission.isSome := by
    obtain ⟨-, hk, ha, -⟩ := h.sound.admissionRows key x hx
    exact ⟨hk, ha⟩
  unfold Settling.wakeAdmissions
  dsimp only
  generalize s.admissions.shelf key = shelf at hshelf hrows ⊢
  have hin : key ∈ { s with admitted, admissions := s.admissions.clear key }.admitters := hkey
  generalize { s with admitted, admissions := s.admissions.clear key } = t at hshelf hin ⊢
  induction shelf generalizing t with
  | nil => exact hshelf
  | cons x shelf ih =>
    obtain ⟨hk, ha⟩ := hrows x (mem_cons_self ..)
    obtain ⟨device, hd⟩ := isSome_iff_exists.mp ha
    have hby : x.signedBy t.admitters := any_eq_true.mpr ⟨key, hk, decide_eq_true hin⟩
    have hm := hshelf.admitEntry hd hby
    refine ih (fun y hy => hrows y (mem_cons_of_mem _ hy)) _ hm ?_
    have hg : Grows t (t.admitEntry verifies x) := by
      simp only [Settling.admitEntry, admitsDevice_of_admission hd]
      split
      · exact grows_seat t device
      · exact .refl t
    exact hg.admitters hin

/-- A key off one of the other stacks wakes the revisions filed under it. -/
theorem Mid.wakeProfiles {t : Settling} (h : s.Mid verifies rows kept roots pushed [])
    (ht : t.Sound verifies rows kept roots)
    (hheld : t.toStructureBuilder = { s.toStructureBuilder with woken := t.woken })
    (hadmitted : t.admitted = s.admitted)
    (hstacks : ∀ k, k ≠ key → k ∈ s.issued ∨ k ∈ s.anchored ∨ k ∈ s.woken →
      k ∈ t.issued ∨ k ∈ t.anchored ∨ k ∈ t.woken) :
    (t.wakeProfiles verifies key).Mid verifies rows kept roots pushed [] := by
  have hshelf : { t with profiles := t.profiles.clear key }.Mid verifies rows kept roots pushed
      (t.profiles.shelf key) := by
    obtain ⟨builder, admitted, issued, anchored⟩ := t
    obtain rfl : admitted = s.admitted := hadmitted
    dsimp only at hheld hstacks
    rw [hheld] at ht ⊢
    refine ⟨{ ht with profileRows := fun k x hx => ht.profileRows k x (mem_clear.mp hx).1 },
      ⟨fun x hx => .inr ((h.complete.roots x hx).resolve_left not_mem_nil),
        fun x hx d hd => .inr ((h.complete.admissions x hx d hd).resolve_left not_mem_nil), ?_,
        h.complete.admissionsAsleep, ?_⟩, ?_⟩
    · intro x hx p hp
      obtain hd | hin | hdone := (h.complete.profiles x hx p hp).resolve_left not_mem_nil
      · exact .inr (.inl hd)
      · by_cases hk : key = x.signer
        · exact .inl (hk ▸ hin)
        · exact .inr (.inr (.inl (mem_clear.mpr ⟨hin, hk⟩)))
      · exact .inr (.inr (.inr hdone))
    · intro k x hx p hp hst
      obtain ⟨hx, hne⟩ := mem_clear.mp hx
      exact hstacks k hne.symm (h.complete.profilesAsleep k x hx p hp hst)
    · intro x hx
      obtain ⟨hin, -, p, hop, -⟩ := ht.profileRows key x hx
      exact ⟨hin, by simp [waits, hop]⟩
  have hrows (x : AuthorityLogEntry) (hx : x ∈ t.profiles.shelf key) :
      ∃ profile, x.op = .machineProfile profile := by
    obtain ⟨-, -, p, hop, -⟩ := ht.profileRows key x hx
    exact ⟨p, hop⟩
  unfold Settling.wakeProfiles
  generalize t.profiles.shelf key = shelf at hshelf hrows ⊢
  generalize { t with profiles := t.profiles.clear key } = u at hshelf ⊢
  induction shelf generalizing u with
  | nil => exact hshelf
  | cons x shelf ih =>
    obtain ⟨profile, hop⟩ := hrows x (mem_cons_self ..)
    exact ih (fun y hy => hrows y (mem_cons_of_mem _ hy)) _ (hshelf.fileProfile hop)

theorem Mid.note {grant : Grant} (h : s.Mid verifies rows kept roots pushed todo) :
    (s.note grant).Mid verifies rows kept roots pushed todo :=
  ⟨{ h.sound with }, { h.complete with }, h.todoRows⟩

/-- **A turn of the loop keeps a settle sound and complete.** -/
theorem Mid.wake {s' : Settling} (h : s.Mid verifies rows kept roots pushed [])
    (hw : s.wake verifies = some s') : s'.Mid verifies rows kept roots pushed [] := by
  obtain ⟨key, admitted, hs, rfl⟩ | ⟨key, issued, hs, rfl⟩ | ⟨key, anchored, hs, rfl⟩ |
    ⟨key, woken, hs, rfl⟩ := wake_cases hw
  · exact (h.wakeAdmissions hs).note
  · refine (h.wakeProfiles (t := { s with issued }) { h.sound with } rfl rfl
      fun k hk hst => ?_).note
    simpa [hs, hk] using hst
  · refine (h.wakeProfiles (t := { s with anchored }) { h.sound with } rfl rfl
      fun k hk hst => ?_).note
    simpa [hs, hk] using hst
  · refine h.wakeProfiles (t := { s with woken }) { h.sound with } rfl rfl fun k hk hst => ?_
    simpa [hs, hk] using hst

end Settling

end Oneiron
