import Oneiron.Authority.StructureOrder

/-!
# Authority/StructureDisorder — where the order of rows and settles shows

Each of the four conditions is needed: for a set of rows that breaks one, two schedules in two
phases end in different structures.

    own first:       [all but root records] settle [root records]      an own key stays own
    strangers first: [root, root records, rows that may stray] settle [the rest]
                                                                       …or is taken as a stranger's
-/

namespace Oneiron

open List Option Settling StructureBuilder Grows

variable {verifies : AuthorityLogEntry → Bool}

/-! ## Growth over a settle -/

variable {R : Set AuthorityLogEntry} {g : AuthorityLogEntry} {k : AuthorityKey}

namespace Settling

variable {s s' : Settling} {e : AuthorityLogEntry}

theorem grows_admitEntry (s : Settling) (e : AuthorityLogEntry) : Grows s (s.admitEntry verifies e) := by
  unfold admitEntry
  split
  · exact .refl s
  · split
    · exact grows_seat s _
    · exact .refl s

theorem grows_fileProfile (s : Settling) (e : AuthorityLogEntry) :
    Grows s (s.fileProfile verifies e) := by
  unfold fileProfile
  split
  · split
    · exact .refl s
    · dsimp only
      split
      · exact { refl s with }
      · split
        · exact grows_takeKey s _ _
        · exact .refl s
  · exact .refl s

theorem grows_place (s : Settling) (e : AuthorityLogEntry) : Grows s (s.place verifies e) := by
  unfold place
  split
  · split
    · exact .refl s
    · exact grows_takeRoot s _ _
  · exact grows_fileProfile s e
  · split
    · exact grows_admitEntry s e
    · exact { refl s with }

variable {f : Settling → AuthorityLogEntry → Settling}

theorem grows_foldl (hf : ∀ s e, Grows s (f s e)) (s : Settling) (entries : List AuthorityLogEntry)
    : Grows s (entries.foldl f s) := by
  induction entries generalizing s with
  | nil => exact .refl s
  | cons e entries ih => exact (hf s e).trans (ih _)

theorem grows_wake (h : s.wake verifies = some s') : Grows s s' := by
  have hnote (t : Settling) (grant : Grant) : Grows t (t.note grant) := { refl t with }
  obtain ⟨key, rest, -, rfl⟩ | ⟨key, rest, -, rfl⟩ | ⟨key, rest, -, rfl⟩ | ⟨key, rest, -, rfl⟩ :=
    wake_cases h
  · refine (trans ?_ (grows_foldl grows_admitEntry _ _)).trans (hnote _ _)
    exact { refl s with }
  · refine (trans ?_ (grows_foldl grows_fileProfile _ _)).trans (hnote _ _)
    exact { refl s with }
  · refine (trans ?_ (grows_foldl grows_fileProfile _ _)).trans (hnote _ _)
    exact { refl s with }
  · refine trans ?_ (grows_foldl grows_fileProfile _ _)
    exact { refl s with }

/-- What an admission leaves on the shelves. -/
theorem admissions_admitEntry (s : Settling) (e : AuthorityLogEntry) :
    (s.admitEntry verifies e).admissions = s.admissions := by
  unfold admitEntry seat issue admitKey
  repeat' split
  all_goals rfl

theorem admissions_fileProfile (s : Settling) (e : AuthorityLogEntry) :
    (s.fileProfile verifies e).admissions = s.admissions := by
  unfold fileProfile
  split
  · split
    · rfl
    · dsimp only
      split
      · rfl
      · split
        · obtain ⟨_, _, _, _, _, h, -⟩ := takeKey_spec s _ _
          rw [h]
        · rfl
  · rfl

theorem admissions_foldl (hf : ∀ s e, (f s e).admissions = s.admissions) (s : Settling)
    (entries : List AuthorityLogEntry) : (entries.foldl f s).admissions = s.admissions := by
  induction entries generalizing s with
  | nil => rfl
  | cons e entries ih => exact (ih _).trans (hf s e)

/-- **A turn of the loop clears at most the shelf of the admitter on top.** -/
theorem mem_admissions_wake (h : s.wake verifies = some s') :
    e ∈ s'.admissions.shelf k ↔ e ∈ s.admissions.shelf k ∧ s.admitted.head? ≠ some k := by
  have hprofiles (t : Settling) (key : AuthorityKey) :
      (t.wakeProfiles verifies key).admissions = t.admissions :=
    admissions_foldl admissions_fileProfile _ _
  unfold wake at h
  split at h
  · next key rest ha =>
    obtain rfl := some.inj h
    have heq : ({ s with admitted := rest }.wakeAdmissions verifies key).admissions
        = s.admissions.clear key := admissions_foldl admissions_admitEntry _ _
    simp only [note, heq, Shelves.mem_clear, ha, head?_cons, ne_eq, Option.some.injEq]
  · next key rest ha _ =>
    obtain rfl := some.inj h
    simp [note, hprofiles, ha]
  · next key rest ha _ _ =>
    obtain rfl := some.inj h
    simp [note, hprofiles, ha]
  · next key rest ha _ _ _ =>
    obtain rfl := some.inj h
    simp [hprofiles, ha]
  · simp at h

/-- Placing a row takes no admission off a shelf, and files none but itself. -/
theorem mem_admissions_place {x : AuthorityLogEntry} :
    e ∈ (s.place verifies x).admissions.shelf k ↔ e ∈ s.admissions.shelf k ∨
      e = x ∧ k ∈ x.signers ∧ ¬ x.signedBy s.admitters ∧
        (∀ profile, x.op ≠ .machineProfile profile) ∧ ∀ record, x.op ≠ .ownerRoot record := by
  unfold place
  split
  · next record hop =>
    split
    · simp [hop]
    · obtain ⟨_, _, _, h, -⟩ := takeRoot_spec s record ‹_›
      rw [h]
      simp [hop]
  · next profile hop =>
    rw [admissions_fileProfile]
    simp [hop]
  · next hroot hprofile =>
    split
    · next hby =>
      rw [admissions_admitEntry]
      simp [hby]
    · next hby =>
      rw [Shelves.mem_fileAll]
      grind

end Settling

namespace StructureBuilder

variable {b : StructureBuilder} {e g : AuthorityLogEntry}

/-- **A settle with one root runs its pass and its loop**; what both keep, it keeps. -/
theorem settle_spec (hr : b.roots = [g]) (Inv : Settling → Prop)
    (hplace : ∀ s, ∀ e ∈ b.fresh, Inv s → Inv (s.place verifies e))
    (hwake : ∀ {s s'}, Inv s → s.wake verifies = some s' → Inv s') (h : Inv (b.seatRoot g.signer)) :
    ∃ t : Settling, Inv t ∧ b.settle verifies = t.toStructureBuilder := by
  have hfold (fresh : List AuthorityLogEntry) (hf : ∀ e ∈ fresh, e ∈ b.fresh) (s : Settling)
      (hs : Inv s) : Inv (fresh.foldl (place verifies) s) := by
    induction fresh generalizing s with
    | nil => exact hs
    | cons e fresh ih =>
      exact ih (fun x hx => hf x (mem_cons_of_mem _ hx)) _
        (hplace s e (hf e (mem_cons_self ..)) hs)
  refine ⟨_, drain_keeps _ hwake
    (b.fresh.foldl (place verifies) (b.seatRoot g.signer)).pending
    (hfold b.fresh (fun _ => id) _ h), ?_⟩
  simp only [settle, hr]

theorem grows_seatRoot (b : StructureBuilder) (root : AuthorityKey) :
    Settling.Grows b.atRest (b.seatRoot root) := grows_seat _ _

variable (verifies) in
/-- A settle with one root takes nothing back, and leaves nothing fresh. -/
theorem grows_settle (hr : b.roots = [g]) :
    Settling.Grows b.atRest (b.settle verifies).atRest ∧ (b.settle verifies).fresh = [] := by
  obtain ⟨t, ht, heq⟩ := settle_spec hr (Settling.Grows b.atRest)
    (fun s e _ hs => hs.trans (grows_place s e)) (fun hs hw => hs.trans (grows_wake hw))
    (grows_seatRoot b g.signer)
  rw [heq]
  exact ⟨{ ht with fresh := rfl }, ht.fresh⟩

/-! ## Pushes -/

/-- Pushes alone. -/
def pushAll (verifies : AuthorityLogEntry → Bool) (b : StructureBuilder)
    (entries : List AuthorityLogEntry) : StructureBuilder :=
  (entries.map StructureTurn.push).foldl (turn verifies) b

variable (verifies) in
/-- A push changes no grant. -/
theorem push_held (b : StructureBuilder) (e : AuthorityLogEntry) :
    ∃ roots rootRoles fresh, b.push verifies e = { b with roots, rootRoles, fresh } := by
  obtain ⟨device, -, -, -, heq⟩ | ⟨-, -, heq⟩ | ⟨-, -, heq⟩ := push_cases verifies b e
  · exact ⟨_, _, _, heq⟩
  · exact ⟨_, _, _, heq⟩
  · exact ⟨_, _, _, heq⟩

variable (verifies) in
theorem pushAll_held (b : StructureBuilder) (entries : List AuthorityLogEntry) :
    ∃ roots rootRoles fresh, b.pushAll verifies entries = { b with roots, rootRoles, fresh } := by
  induction entries generalizing b with
  | nil => exact ⟨b.roots, b.rootRoles, b.fresh, rfl⟩
  | cons e entries ih =>
    obtain ⟨_, _, _, h⟩ := push_held verifies b e
    obtain ⟨roots, rootRoles, fresh, h'⟩ := ih (b.push verifies e)
    refine ⟨roots, rootRoles, fresh, ?_⟩
    rw [show b.pushAll verifies (e :: entries) = (b.push verifies e).pushAll verifies entries from rfl,
      h', h]

end StructureBuilder

/-! ## Schedules in two phases -/

/-- Rows pushed, a settle, and more rows. -/
def twoPhases (first second : List AuthorityLogEntry) : List StructureTurn :=
  first.map .push ++ .settle :: second.map .push

theorem pushedRows_map (entries : List AuthorityLogEntry) :
    pushedRows (entries.map .push) = entries := by
  induction entries with
  | nil => rfl
  | cons e entries ih =>
    exact congrArg (e :: ·) ih

theorem pushedRows_twoPhases (rows : List AuthorityLogEntry) (keep : AuthorityLogEntry → Bool) :
    (pushedRows (twoPhases (rows.filter keep) (rows.filter fun x => !keep x))).Perm rows := by
  have happend (t t' : List StructureTurn) : pushedRows (t ++ t') = pushedRows t ++ pushedRows t' :=
    filterMap_append
  rw [twoPhases, happend, pushedRows_map]
  exact (congrArg (_ ++ ·) (pushedRows_map _)).symm ▸ filter_append_perm keep rows

/-- The first phase of a schedule, settled. -/
def firstPhase (verifies : AuthorityLogEntry → Bool) (localRoots : LocalRoots)
    (first : List AuthorityLogEntry) : StructureBuilder :=
  grownStructure verifies localRoots (first.map .push)

theorem grownStructure_twoPhases (localRoots : LocalRoots) (first second : List AuthorityLogEntry) :
    grownStructure verifies localRoots (twoPhases first second) =
      ((firstPhase verifies localRoots first).pushAll verifies second).settle verifies := by
  simp only [grownStructure, twoPhases, foldl_append]
  rfl

/-! ## Several roots, and own anchors -/

open StructureBuilder

variable {rows : List AuthorityLogEntry} {localRoots : LocalRoots}

/-- Every two schedules of the rows end in the same structure. -/
def SameEitherWay (verifies : AuthorityLogEntry → Bool) (localRoots : LocalRoots)
    (rows : List AuthorityLogEntry) : Prop :=
  ∀ turns turns', (pushedRows turns).Perm rows → (pushedRows turns').Perm rows →
    SameStructure (grownStructure verifies localRoots turns)
      (grownStructure verifies localRoots turns')

variable (verifies) in
theorem idle_under (localRoots : LocalRoots) : Idle verifies ∅ (under localRoots) :=
  ⟨nodup_nil, fun e => by simp [under], fun e => by simp [under], fun _ => Shelves.shelf_empty,
    fun _ => Shelves.shelf_empty, rfl⟩

theorem Idle.pushAll {pushed : Set AuthorityLogEntry} {b : StructureBuilder}
    (h : Idle verifies pushed b) (entries : List AuthorityLogEntry) :
    Idle verifies (pushed ∪ {e | e ∈ entries}) (b.pushAll verifies entries) := by
  induction entries generalizing b pushed with
  | nil => simpa [StructureBuilder.pushAll] using h
  | cons e entries ih =>
    have hset : insert e pushed ∪ {x | x ∈ entries} = pushed ∪ {x | x ∈ e :: entries} := by
      ext x
      simp only [Set.mem_union, Set.mem_insert_iff, Set.mem_ofPred_eq, mem_cons]
      tauto
    rw [← hset]
    exact ih h.push

/-- An idle builder of a log with one root holds that root. -/
theorem Idle.roots_eq {b : StructureBuilder} {rows : Set AuthorityLogEntry}
    (h : Idle verifies rows b) (hg : OneRoot verifies rows g) : b.roots = [g] := by
  have hmem (e : AuthorityLogEntry) : e ∈ b.roots ↔ e ∈ [g] := by
    rw [h.mem_roots e, mem_singleton]
    exact ⟨fun he => hg.unique e he.1 he.2, fun he => he ▸ ⟨hg.mem, hg.isRoot⟩⟩
  exact perm_singleton.mp ((perm_ext_iff_of_nodup h.nodup (nodup_singleton g)).mpr hmem)

theorem fresh_settle {b : StructureBuilder} (h : b.fresh = []) : (b.settle verifies).fresh = [] := by
  by_cases hr : ∃ g, b.roots = [g]
  · obtain ⟨g, hr⟩ := hr
    exact (grows_settle verifies hr).2
  · unfold settle
    split
    · next g hg => exact absurd ⟨g, hg⟩ hr
    · exact h

/-- Roots pushed leave nothing fresh. -/
theorem fresh_pushAll {b : StructureBuilder} {entries : List AuthorityLogEntry}
    (hw : ∀ e ∈ entries, ¬ waits e) (h : b.fresh = []) : (b.pushAll verifies entries).fresh = [] := by
  induction entries generalizing b with
  | nil => exact h
  | cons e entries ih =>
    refine ih (fun x hx => hw x (mem_cons_of_mem _ hx)) ?_
    change (b.push verifies e).fresh = []
    obtain ⟨_, -, -, -, heq⟩ | ⟨-, hwe, -⟩ | ⟨-, -, heq⟩ := push_cases verifies b e
    · rw [heq]
      exact h
    · exact absurd hwe (hw e (mem_cons_self ..))
    · rw [heq]
      exact h

/-- **Rows beside several roots show**: a settle while one root is in places them, and one at the end
does not. -/
theorem SameEitherWay.severalRoots (h : SameEitherWay verifies localRoots rows)
    {g g' e : AuthorityLogEntry} (hg : g ∈ rows) (hr : isRoot verifies g) (hg' : g' ∈ rows)
    (hr' : isRoot verifies g') (hne : g ≠ g') (he : e ∈ rows) : ¬ waits e := by
  intro hw
  let keep (x : AuthorityLogEntry) : Bool := !isRoot verifies x || x = g
  have hsame := h (rows.map .push) (twoPhases (rows.filter keep) (rows.filter fun x => !keep x))
    (by rw [pushedRows_map]) (pushedRows_twoPhases rows keep)
  -- all in one phase: both roots are in, and nothing is placed
  have hidle := (idle_under verifies localRoots).pushAll rows
  rw [Set.empty_union] at hidle
  have hall : e ∈ (grownStructure verifies localRoots (rows.map .push)).fresh := by
    change e ∈ (((under localRoots).pushAll verifies rows).settle verifies).fresh
    unfold settle
    split
    · next x hx =>
      have h1 := (hidle.mem_roots g).mpr ⟨hg, hr⟩
      have h2 := (hidle.mem_roots g').mpr ⟨hg', hr'⟩
      rw [hx, mem_singleton] at h1 h2
      exact absurd (h1.trans h2.symm) hne
    · exact (hidle.mem_fresh e).mpr ⟨he, hw⟩
  -- in two: the first settle has one root
  have hone : OneRoot verifies {x | x ∈ rows.filter keep} g :=
    ⟨mem_filter.mpr ⟨hg, by simp [keep]⟩, hr, fun x hx hrx => by
      have := (mem_filter.mp hx).2
      simpa [keep, hrx] using this⟩
  have hfirst := (idle_under verifies localRoots).pushAll (rows.filter keep)
  rw [Set.empty_union] at hfirst
  have hnone : (grownStructure verifies localRoots
      (twoPhases (rows.filter keep) (rows.filter fun x => !keep x))).fresh = [] := by
    rw [grownStructure_twoPhases]
    refine fresh_settle (fresh_pushAll (fun x hx => ?_) (grows_settle verifies (hfirst.roots_eq hone)).2)
    have := (mem_filter.mp hx).2
    simp only [keep, Bool.not_or, Bool.not_not, Bool.and_eq_true] at this
    exact not_waits_of_isRoot this.1
  have := (hsame.fresh e).mp hall
  simp [hnone] at this

/-- **Own anchors show**: a settle before the root forgets them. -/
theorem SameEitherWay.anchors (h : SameEitherWay verifies localRoots rows)
    (hg : OneRoot verifies {e | e ∈ rows} g) : localRoots.anchors = ∅ := by
  have hown (b : StructureBuilder) (hb : Idle verifies ∅ b) :
      ((b.pushAll verifies rows).settle verifies).ownAnchors = b.ownAnchors := by
    have hidle := hb.pushAll rows
    rw [Set.empty_union] at hidle
    obtain ⟨_, _, _, heq⟩ := pushAll_held verifies b rows
    exact (grows_settle verifies (hidle.roots_eq hg)).1.ownAnchors.trans (by rw [heq]; rfl)
  have hsame := h (rows.map .push) (.settle :: rows.map .push) (by rw [pushedRows_map])
    (by rw [show pushedRows (.settle :: rows.map .push) = pushedRows (rows.map .push) from rfl,
      pushedRows_map])
  have hclear : Idle verifies ∅ (under localRoots).clear :=
    ⟨nodup_nil, fun e => by simp [under, clear],
      fun e => by simp [under, clear], fun _ => Shelves.shelf_empty,
      fun _ => Shelves.shelf_empty, rfl⟩
  exact (hown _ (idle_under verifies localRoots)).symm.trans (hsame.ownAnchors.trans (hown _ hclear))

/-! ## More rows -/

section Mono

variable {rows₁ rows kept kept₁ pushed : Set AuthorityLogEntry}

section

variable (hsub : rows₁ ⊆ rows)

include hsub

theorem Admits.mono (h : Admits verifies rows₁ k) : Admits verifies rows k := by
  induction h with
  | root hg hr => exact .root (hsub hg) hr
  | named he hd hv hk _ ih => exact .named (hsub he) hd hv hk ih

theorem RootIssues.mono (h : RootIssues verifies rows₁ k) : RootIssues verifies rows k := by
  obtain ⟨g, hg, hr⟩ := h
  exact ⟨g, hsub hg, hr⟩

theorem Issues.mono (h : Issues verifies rows₁ k) : Issues verifies rows k := by
  obtain h | ⟨e, he, device, hd, hv, hk, ho, signer, hs, ha⟩ := h
  · exact .inl (h.mono hsub)
  · exact .inr ⟨e, hsub he, device, hd, hv, hk, ho, signer, hs, ha.mono hsub⟩

theorem AnchorKey.mono (h : AnchorKey verifies rows₁ k) : AnchorKey verifies rows k := by
  obtain ⟨a, rfl, e, he, ha⟩ := h
  exact ⟨a, rfl, e, hsub he, ha⟩

theorem Vouches.mono (h : Vouches verifies rows₁ k) :
    Vouches verifies rows k := h.imp (·.mono hsub) (·.mono hsub)

/-- More rows with no other root make no stray a root's. -/
theorem Strays.mono (hroot : ∀ g ∈ rows, isRoot verifies g → g ∈ rows₁)
    (h : Strays verifies rows₁ k) : Strays verifies rows k := by
  refine ⟨h.1.mono hsub, fun ⟨g, hg, hr, hk⟩ => h.2 ⟨g, hroot g hg hr, hr, hk⟩⟩

theorem MayStray.mono (hroot : ∀ g ∈ rows, isRoot verifies g → g ∈ rows₁) {e : AuthorityLogEntry}
    (h : MayStray verifies rows₁ e) : MayStray verifies rows e := by
  obtain ⟨profile, hop, hvia⟩ := h
  exact ⟨profile, hop, hvia.mono (fun _ => Strays.mono hsub hroot)
    fun _ hk => hk.mono (fun _ hr _ _ => hsub hr) fun _ => Strays.mono hsub hroot⟩

end

/-- A settle of fewer rows is one of more, with no other root, if what it holds as own is granted by
the rows kept and its shelves hold only those. -/
theorem Settling.Mid.mono {roots : Finset Bytes32} {s : Settling}
    (h : s.Mid verifies rows₁ kept₁ roots pushed []) (hsub : rows₁ ⊆ rows) (hkept : kept ⊆ rows)
    (hroot : ∀ g ∈ rows, isRoot verifies g → g ∈ rows₁)
    (hown : ∀ k ∈ s.machineKeys, Names verifies kept (Issues verifies rows) k)
    (hadmissions : ∀ k, ∀ e ∈ s.admissions.shelf k, e ∈ kept)
    (hprofiles : ∀ k, ∀ e ∈ s.profiles.shelf k, e ∈ kept) :
    s.Mid verifies rows kept roots pushed [] where
  sound := { h.sound with
    keptRows := hkept
    oneRoot := by
      obtain ⟨g, hg, hr⟩ := h.sound.oneRoot
      exact ⟨g, hsub hg, hr⟩
    admitters := fun k hk => (h.sound.admitters k hk).mono hsub
    issuers := fun k hk => (h.sound.issuers k hk).mono hsub
    anchors := fun a ha => by
      obtain ⟨e, he, hs⟩ := h.sound.anchors a ha
      exact ⟨e, hsub he, hs⟩
    awaited := fun a ha => by
      obtain ⟨e, he, hs⟩ := h.sound.awaited a ha
      exact ⟨e, hsub he, hs⟩
    own := hown
    strangers := fun k hk =>
      (h.sound.strangers k hk).mono (fun _ hr _ _ => hsub hr) fun _ => Strays.mono hsub hroot
    removed := fun m hm => by
      obtain ⟨e, he, profile, hop, hv, hd, hr, hm, hvia⟩ := h.sound.removed m hm
      exact ⟨e, hsub he, profile, hop, hv, hd, hr, hm, hvia.mono (fun _ => Vouches.mono hsub)
        fun _ hk => hk.mono (fun _ hr _ _ => hsub hr) fun _ => Vouches.mono hsub⟩
    rootAdmits := fun g hg hr => h.sound.rootAdmits g (hroot g hg hr) hr
    rootIssues := fun k ⟨g, hg, hr, hk⟩ => h.sound.rootIssues k ⟨g, hroot g hg hr, hr, hk⟩
    admissionRows := fun k e he =>
      ⟨hadmissions k e he, (h.sound.admissionRows k e he).2.1, (h.sound.admissionRows k e he).2.2.1,
        fun g hg hr => (h.sound.admissionRows k e he).2.2.2 g (hroot g hg hr) hr⟩
    profileRows := fun k e he => ⟨hprofiles k e he, (h.sound.profileRows k e he).2⟩ }
  complete := { h.complete with
    profiles := fun e he profile hop => (h.complete.profiles e he profile hop).imp_right
      (Or.imp_right (Or.imp_right fun ht => ⟨ht.1, fun hv =>
        ⟨(ht.2 hv).1, (ht.2 hv).2.1, fun hn => (ht.2 hv).2.2 fun hs => hn (hs.mono hsub hroot)⟩⟩)) }
  todoRows := fun e he => absurd he not_mem_nil

end Mono

/-! ## The second phase -/

section Phases

variable {g : AuthorityLogEntry} {first second : List AuthorityLogEntry}

variable (localRoots) in
/-- The first phase of a schedule that pushes the root ends settled. -/
theorem firstPhase_settled (hg : OneRoot verifies {e | e ∈ first} g) (hlocal : localRoots.anchors = ∅) :
    (firstPhase verifies localRoots first).atRest.Settled verifies {e | e ∈ first}
        localRoots.roots ∧
      (firstPhase verifies localRoots first).fresh = [] ∧
        (firstPhase verifies localRoots first).Stage verifies {e | e ∈ first} {e | e ∈ first}
          localRoots.roots {e | e ∈ first} :=
  settled_grown hg hlocal (by rw [pushedRows_map])

variable {kept : Set AuthorityLogEntry}

/-- **The second phase**: it goes on from what the first phase settled, placing the rows kept. -/
theorem secondPhase_stage (hg : OneRoot verifies {e | e ∈ rows} g) (hlocal : localRoots.anchors = ∅)
    (hg₁ : g ∈ first) (hperm : (first ++ second).Perm rows) (hkept : kept ⊆ {e | e ∈ rows})
    (hsecond : ∀ e ∈ second, waits e → e ∈ kept)
    (hown : ∀ k ∈ (firstPhase verifies localRoots first).machineKeys,
      Names verifies kept (Issues verifies {e | e ∈ rows}) k)
    (hadmissions : ∀ k, ∀ e ∈ (firstPhase verifies localRoots first).admissions.shelf k, e ∈ kept)
    (hprofiles : ∀ k, ∀ e ∈ (firstPhase verifies localRoots first).profiles.shelf k, e ∈ kept) :
    ((firstPhase verifies localRoots first).pushAll verifies second).Stage verifies {e | e ∈ rows}
      kept localRoots.roots {e | e ∈ rows} := by
  have hsub : {e | e ∈ first} ⊆ {e | e ∈ rows} := fun e he =>
    hperm.mem_iff.mp (mem_append_left _ he)
  have hone : OneRoot verifies {e | e ∈ first} g := ⟨hg₁, hg.isRoot, fun e he => hg.unique e (hsub he)⟩
  have hroot : ∀ x ∈ {e | e ∈ rows}, isRoot verifies x → x ∈ {e | e ∈ first} := fun x hx hr => by
    rw [hg.unique x hx hr]
    exact hg₁
  obtain ⟨hs, hf, hstage⟩ := firstPhase_settled localRoots hone hlocal
  have hmid := hs.toMid.mono hsub hkept hroot hown hadmissions hprofiles
  have hbig : (firstPhase verifies localRoots first).Stage verifies {e | e ∈ rows} kept
      localRoots.roots {e | e ∈ first} :=
    { hstage with
      keptRows := hkept
      freshRows := fun e he => by simp [hf] at he
      progress := .inr (by rw [hf]; exact hmid) }
  have hall := Stage.turns hg (second.map .push) hsub (fun e he => by
    rw [pushedRows_map] at he
    exact ⟨hperm.mem_iff.mp (mem_append_right _ he), hsecond e he⟩) hbig
  have hset : {e | e ∈ first} ∪ {e | e ∈ pushedRows (second.map .push)} = {e | e ∈ rows} := by
    rw [pushedRows_map]
    ext e
    exact mem_append.symm.trans hperm.mem_iff
  rw [hset] at hall
  exact hall

/-- A schedule of two phases that gives no row up. -/
theorem bothPhases_stage (keep : AuthorityLogEntry → Bool) (hg : OneRoot verifies {e | e ∈ rows} g)
    (hlocal : localRoots.anchors = ∅) (hg₁ : g ∈ rows.filter keep) :
    (firstPhase verifies localRoots (rows.filter keep)).atRest.Settled verifies
        {e | e ∈ rows.filter keep} localRoots.roots ∧
      ((firstPhase verifies localRoots (rows.filter keep)).pushAll verifies
        (rows.filter fun x => !keep x)).Stage verifies {e | e ∈ rows} {e | e ∈ rows}
          localRoots.roots {e | e ∈ rows} := by
  obtain ⟨hs, -, -⟩ := firstPhase_settled localRoots
    ⟨hg₁, hg.isRoot, fun e he => hg.unique e (mem_filter.mp he).1⟩ hlocal
  exact ⟨hs, secondPhase_stage hg hlocal hg₁ (filter_append_perm keep rows) subset_rfl
    (fun e he _ => (mem_filter.mp he).1)
    (fun k hk => (hs.sound.own k hk).mono (fun _ hr _ _ => (mem_filter.mp hr).1)
      fun _ => Issues.mono fun _ hr => (mem_filter.mp hr).1)
    (fun k e he => (mem_filter.mp (hs.sound.admissionRows k e he).1).1)
    (fun k e he => (mem_filter.mp (hs.sound.profileRows k e he).1).1)⟩

theorem Stage.roots_of_all {b : StructureBuilder} {rows : Set AuthorityLogEntry}
    {roots : Finset Bytes32} (hg : OneRoot verifies rows g)
    (h : b.Stage verifies rows kept roots rows) : b.roots = [g] :=
  (h.roots_eq hg subset_rfl).resolve_left fun hnil => by
    have := (h.mem_roots g).mpr ⟨hg.mem, hg.isRoot⟩
    simp [hnil] at this

end Phases

/-! ## The classes of keys -/

/-- Own keys are named by rows other than root records. -/
theorem own_without_roots {key : EntityId × AuthorityKey}
    (h : Names verifies R (Issues verifies R) key) :
    Names verifies {e | e ∈ R ∧ ∀ record, e.op ≠ .ownerRoot record}
      (Issues verifies {e | e ∈ R ∧ ∀ record, e.op ≠ .ownerRoot record}) key := by
  have hadmission {e : AuthorityLogEntry} {device : DeviceAuthority} (he : e ∈ R)
      (hd : e.admission = some device) : e ∈ {e | e ∈ R ∧ ∀ record, e.op ≠ .ownerRoot record} := by
    refine ⟨he, fun record hop => ?_⟩
    have := admitsDevice_of_admission hd
    simp [hop, AuthorityOp.admitsDevice] at this
  have hroot {x : AuthorityLogEntry} (hx : x ∈ R) (hr : isRoot verifies x) :
      x ∈ {e | e ∈ R ∧ ∀ record, e.op ≠ .ownerRoot record} := by
    refine ⟨hx, fun record hop => ?_⟩
    simp [isRoot, hop] at hr
  have hadmits (k : AuthorityKey) (hk : Admits verifies R k) :
      Admits verifies {e | e ∈ R ∧ ∀ record, e.op ≠ .ownerRoot record} k := by
    induction hk with
    | root hx hr => exact .root (hroot hx hr) hr
    | named he hd hv hk _ ih => exact .named (hadmission he hd) hd hv hk ih
  refine h.mono (fun e he profile hop => ?_) fun k hk => ?_
  · exact ⟨he, fun record hop' => by simp [hop] at hop'⟩
  obtain ⟨x, hx, hr, hk⟩ | ⟨e, he, device, hd, hv, hk, ho, signer, hs, ha⟩ := hk
  · exact .inl ⟨x, hroot hx hr, hr, hk⟩
  · exact .inr ⟨e, hadmission he hd, device, hd, hv, hk, ho, signer, hs, hadmits signer ha⟩

/-- With no root record no row may stray. -/
theorem not_mayStray_of_no_roots (h : ∀ e ∈ R, ∀ record, e.op ≠ .ownerRoot record)
    (e : AuthorityLogEntry) : ¬ MayStray verifies R e := by
  have hnone (k : AuthorityKey) : ¬ Strays verifies R k := by
    rintro ⟨⟨a, -, x, hx, ha⟩, -⟩
    obtain ⟨record, hop⟩ := op_of_selfSignedRoot ha
    exact h x hx record hop
  have hnames (k : EntityId × AuthorityKey) : ¬ Names verifies R (Strays verifies R) k := fun hk =>
    hk.least (fun _ => False) fun e profile _ _ _ _ hvia => by
      unfold Via at hvia
      split at hvia
      · exact hnone _ hvia
      · exact hvia
  rintro ⟨profile, -, hvia⟩
  unfold Via at hvia
  split at hvia
  · exact hnone _ hvia
  · exact hnames _ hvia

open Classical in
/-- **Own first**: a schedule that keeps the root records for last ends with every own key own. -/
theorem exists_ownFirst (hg : OneRoot verifies {e | e ∈ rows} g) (hlocal : localRoots.anchors = ∅) :
    ∃ turns, (pushedRows turns).Perm rows ∧
      ∀ key, Names verifies {e | e ∈ rows} (Issues verifies {e | e ∈ rows}) key →
        key ∈ (grownStructure verifies localRoots turns).machineKeys := by
  let keep (x : AuthorityLogEntry) : Bool := decide (∀ record, x.op ≠ .ownerRoot record)
  have hset : {e | e ∈ rows.filter keep}
      = {e | e ∈ {e | e ∈ rows} ∧ ∀ record, e.op ≠ .ownerRoot record} := by
    ext e
    simp [keep]
  have hg₁ : g ∈ rows.filter keep := by
    refine mem_filter.mpr ⟨hg.mem, decide_eq_true fun record hop => ?_⟩
    have := hg.isRoot
    simp [isRoot, hop] at this
  refine ⟨twoPhases (rows.filter keep) (rows.filter fun x => !keep x),
    pushedRows_twoPhases rows keep, fun key hkey => ?_⟩
  obtain ⟨hs, hstage⟩ := bothPhases_stage keep hg hlocal hg₁
  have hfirst : key ∈ (firstPhase verifies localRoots (rows.filter keep)).machineKeys := by
    refine hs.own_of_firm ?_
    rw [hset]
    refine (own_without_roots hkey).mono (fun e he _ _ => ?_) fun _ => id
    exact ⟨he, not_mayStray_of_no_roots (fun x hx => hx.2) e⟩
  rw [grownStructure_twoPhases]
  obtain ⟨_, _, _, heq⟩ := pushAll_held verifies
    (firstPhase verifies localRoots (rows.filter keep)) (rows.filter fun x => !keep x)
  refine (grows_settle verifies (Stage.roots_of_all hg hstage)).1.machineKeys ?_
  rw [heq]
  exact hfirst

open Classical in
/-- **Strangers first**: a schedule that starts with every row that may stray ends with only those
keys own that other rows name. -/
theorem exists_strangersFirst (hg : OneRoot verifies {e | e ∈ rows} g)
    (hlocal : localRoots.anchors = ∅) : ∃ turns, (pushedRows turns).Perm rows ∧
      ∀ key ∈ (grownStructure verifies localRoots turns).machineKeys,
        Names verifies (firmRows verifies {e | e ∈ rows}) (Issues verifies {e | e ∈ rows}) key := by
  let keep (x : AuthorityLogEntry) : Bool :=
    decide (isRoot verifies x ∨ (∃ record, x.op = .ownerRoot record) ∨
      MayStray verifies {e | e ∈ rows} x)
  have hkeep {x : AuthorityLogEntry} : x ∈ rows.filter keep ↔ x ∈ rows ∧ (isRoot verifies x ∨
      (∃ record, x.op = .ownerRoot record) ∨ MayStray verifies {e | e ∈ rows} x) := by
    simp [keep]
  have hperm : (rows.filter keep ++ rows.filter fun x => !keep x).Perm rows :=
    filter_append_perm keep rows
  have hg₁ : g ∈ rows.filter keep := hkeep.mpr ⟨hg.mem, .inl hg.isRoot⟩
  have hsub : {e | e ∈ rows.filter keep} ⊆ {e | e ∈ rows} := fun e he => (hkeep.mp he).1
  obtain ⟨hs, hf, -⟩ := firstPhase_settled localRoots
    ⟨hg₁, hg.isRoot, fun e he => hg.unique e (hsub he)⟩ hlocal
  -- the first phase holds no admission, so its one issuer is the root
  have hadmission {x : AuthorityLogEntry} {device : DeviceAuthority} (hx : x ∈ rows.filter keep) :
      x.admission ≠ some device := by
    intro hd
    obtain hr | ⟨record, hop⟩ | ⟨profile, hop, -⟩ := (hkeep.mp hx).2
    · refine not_waits_of_isRoot hr ?_
      unfold waits
      split
      · rfl
      · rfl
      · simp [hd]
    · have := admitsDevice_of_admission hd
      simp [hop, AuthorityOp.admitsDevice] at this
    · exact no_profile_of_admission hd hop
  -- so nothing it takes is own
  have hownNone (key : EntityId × AuthorityKey)
      (hkey : Names verifies {e | e ∈ rows.filter keep} (Issues verifies {e | e ∈ rows.filter keep}) key) :
      False := by
    refine hkey.least (fun _ => False) fun e profile he hop _ _ hvia => ?_
    obtain hr | ⟨record, hop'⟩ | ⟨profile', hop', hstray⟩ := (hkeep.mp he).2
    · simp [isRoot, hop] at hr
    · simp [hop] at hop'
    obtain rfl := AuthorityOp.machineProfile.inj (hop.symm.trans hop')
    unfold Via at hvia hstray
    cases hc : profile.carrier with
    | some carrier => simp [hc] at hvia
    | none =>
      simp only [hc] at hvia hstray
      obtain hroot | ⟨x, hx, device, hd, -⟩ := hvia
      · exact hstray.2 (hroot.mono hsub)
      · exact hadmission hx hd
  -- and every row that may stray is taken
  have hnames (key : EntityId × AuthorityKey)
      (hkey : Names verifies {e | e ∈ rows} (Strays verifies {e | e ∈ rows}) key) :
      Names verifies {e | e ∈ rows.filter keep} (Vouches verifies {e | e ∈ rows.filter keep}) key := by
    have hsource (k : AuthorityKey) (hk : Strays verifies {e | e ∈ rows} k) :
        Vouches verifies {e | e ∈ rows.filter keep} k := by
      obtain ⟨⟨a, rfl, x, hx, ha⟩, -⟩ := hk
      exact .inr ⟨a, rfl, x, hkeep.mpr ⟨hx, .inr (.inl (op_of_selfSignedRoot ha))⟩, ha⟩
    refine (hkey.least (fun k => Names verifies {e | e ∈ rows} (Strays verifies {e | e ∈ rows}) k ∧
      Names verifies {e | e ∈ rows.filter keep} (Vouches verifies {e | e ∈ rows.filter keep}) k)
      fun e profile he hop hv hd hvia => ?_).2
    have hstray := hvia.mono (fun _ => id) fun _ hk => hk.1
    exact ⟨.of_via he hop hv hd hstray,
      .of_via (hkeep.mpr ⟨he, .inr (.inr ⟨profile, hop, hstray⟩)⟩) hop hv hd
        (hvia.mono hsource fun _ hk => hk.2)⟩
  have hstage := secondPhase_stage hg hlocal hg₁ hperm
    (show firmRows verifies {e | e ∈ rows} ⊆ {e | e ∈ rows} from fun e he => he.1)
    (fun e he _ => ⟨(mem_filter.mp he).1, fun hm => by
      have := (mem_filter.mp he).2
      simp [keep, hm] at this⟩)
    (fun k hk => (hownNone k (hs.sound.own k hk)).elim)
    (fun k e he => by
      obtain ⟨hin, -, ha, -⟩ := hs.sound.admissionRows k e he
      obtain ⟨device, hd⟩ := isSome_iff_exists.mp ha
      exact absurd hd (hadmission hin))
    (fun k e he => by
      obtain ⟨hin, rfl, profile, hop, hd, hvia⟩ := (hs.profiles_iff k e).mp he
      obtain hr | ⟨record, hop'⟩ | ⟨profile', hop', hstray⟩ := (hkeep.mp hin).2
      · simp [isRoot, hop] at hr
      · simp [hop] at hop'
      obtain rfl := AuthorityOp.machineProfile.inj (hop.symm.trans hop')
      refine absurd (hstray.mono (fun k hk => ?_) hnames) hvia
      obtain ⟨⟨a, rfl, x, hx, ha⟩, -⟩ := hk
      exact .inr ⟨a, rfl, x, hkeep.mpr ⟨hx, .inr (.inl (op_of_selfSignedRoot ha))⟩, ha⟩)
  refine ⟨twoPhases (rows.filter keep) (rows.filter fun x => !keep x),
    pushedRows_twoPhases rows keep, fun key hkey => ?_⟩
  rw [grownStructure_twoPhases] at hkey
  obtain ⟨-, -, -, hmid⟩ := hstage.settle_root hg (Stage.roots_of_all hg hstage)
  exact hmid.sound.own key hkey

/-- **Keys hanging on a row that may stray show.** -/
theorem SameEitherWay.keys (h : SameEitherWay verifies localRoots rows)
    (hg : OneRoot verifies {e | e ∈ rows} g) (key : EntityId × AuthorityKey)
    (hkey : Names verifies {e | e ∈ rows} (Issues verifies {e | e ∈ rows}) key) :
    Names verifies (firmRows verifies {e | e ∈ rows}) (Issues verifies {e | e ∈ rows}) key := by
  obtain ⟨turns, ht, hown⟩ := exists_ownFirst hg (h.anchors hg)
  obtain ⟨turns', ht', hstray⟩ := exists_strangersFirst hg (h.anchors hg)
  exact hstray key ((h turns turns' ht ht').machineKeys ▸ hown key hkey)

/-! ## Cosigned admissions -/

section Cosigned

variable {g e : AuthorityLogEntry} {a b : AuthorityKey}

open Classical in
/-- **The row first**: an admission settled before the admitters it needs stays on the shelf of a
signer the log never admits. -/
theorem exists_copyLeft (hg : OneRoot verifies {x | x ∈ rows} g) (hlocal : localRoots.anchors = ∅)
    (he : e ∈ rows) (ha : e.admission.isSome) (hnot : g.signer ∉ e.signers) (hb : b ∈ e.signers)
    (hnever : ¬ Admits verifies {x | x ∈ rows} b) : ∃ turns, (pushedRows turns).Perm rows ∧
      e ∈ (grownStructure verifies localRoots turns).admissions.shelf b := by
  obtain ⟨device, hd⟩ := isSome_iff_exists.mp ha
  let keep (x : AuthorityLogEntry) : Bool := decide (isRoot verifies x ∨ x = e)
  have hkeep {x : AuthorityLogEntry} :
      x ∈ rows.filter keep ↔ x ∈ rows ∧ (isRoot verifies x ∨ x = e) := by
    simp [keep]
  have hg₁ : g ∈ rows.filter keep := hkeep.mpr ⟨hg.mem, .inl hg.isRoot⟩
  obtain ⟨hs, hstage⟩ := bothPhases_stage keep hg hlocal hg₁
  -- the first phase admits the root alone
  have hroot (k : AuthorityKey) (hk : Admits verifies {x | x ∈ rows.filter keep} k) :
      k = g.signer := by
    induction hk with
    | root hx hr => rw [hg.unique _ (hkeep.mp hx).1 hr]
    | named hx hdx _ hk _ ih =>
      obtain hr | rfl := (hkeep.mp hx).2
      · refine absurd ?_ (not_waits_of_isRoot hr)
        unfold waits
        split
        · rfl
        · rfl
        · simp [hdx]
      · exact absurd (ih ▸ hk) hnot
  have hfirst : e ∈ (firstPhase verifies localRoots (rows.filter keep)).admissions.shelf b := by
    obtain hall | ht := hs.admission_done (hkeep.mpr ⟨he, .inr rfl⟩) hd
    · exact hall b hb
    · obtain ⟨k, hk, hin⟩ := List.any_eq_true.mp ht.1
      have := hroot k ((hs.admitters_iff k).mp (of_decide_eq_true hin))
      exact absurd (this ▸ hk) hnot
  obtain ⟨_, _, _, heq⟩ := pushAll_held verifies
    (firstPhase verifies localRoots (rows.filter keep)) (rows.filter fun x => !keep x)
  obtain ⟨t, ht, -, hin, -⟩ := hstage.settle_keeps hg (Stage.roots_of_all hg hstage)
    (fun s => e ∈ s.admissions.shelf b)
    (fun _ hin => mem_admissions_place.mpr (.inl hin))
    (fun {s s'} hm hin hw => (mem_admissions_wake hw).mpr ⟨hin, fun hhead => hnever
      (hm.sound.admitters b (hm.sound.admitted b (mem_of_mem_head? hhead)))⟩)
    (by
      rw [show ((firstPhase verifies localRoots (rows.filter keep)).pushAll verifies
        (rows.filter fun x => !keep x)).seatRoot g.signer = seat _ _ from rfl, heq]
      unfold seat issue admitKey
      repeat' split
      all_goals exact hfirst)
  refine ⟨twoPhases (rows.filter keep) (rows.filter fun x => !keep x),
    pushedRows_twoPhases rows keep, ?_⟩
  rw [grownStructure_twoPhases, ht]
  exact hin

/-- Without an admission, some signer of it is admitted if any key hangs on it. -/
theorem admits_without (hr : ¬ isRoot verifies e) (h : Admits verifies R k) :
    Admits verifies {x | x ∈ R ∧ x ≠ e} k ∨
      ∃ a ∈ e.signers, Admits verifies {x | x ∈ R ∧ x ≠ e} a := by
  induction h with
  | @root x hx hrx => exact .inl (.root ⟨hx, fun heq => hr (heq ▸ hrx)⟩ hrx)
  | @named x device k hx hd hv hk _ ih =>
    obtain ih | ih := ih
    · by_cases hxe : x = e
      · exact .inr ⟨k, hxe ▸ hk, ih⟩
      · exact .inl (.named ⟨hx, hxe⟩ hd hv hk ih)
    · exact .inr ih

open Classical in
/-- **The admitters first**: an admission settled after an admitter that signed it is on no shelf. -/
theorem exists_noCopy (hg : OneRoot verifies {x | x ∈ rows} g) (hlocal : localRoots.anchors = ∅)
    (ha : e.admission.isSome) (hk : a ∈ e.signers)
    (hadmits : Admits verifies {x | x ∈ rows} a) : ∃ turns, (pushedRows turns).Perm rows ∧
      ∀ k, e ∉ (grownStructure verifies localRoots turns).admissions.shelf k := by
  have hr : ¬ isRoot verifies e := fun hr => by
    refine not_waits_of_isRoot hr ?_
    unfold waits
    split
    · rfl
    · rfl
    · exact ha
  let keep (x : AuthorityLogEntry) : Bool := decide (x ≠ e)
  have hset : {x | x ∈ rows.filter keep} = {x | x ∈ {x | x ∈ rows} ∧ x ≠ e} := by
    ext x
    simp [keep]
  have hg₁ : g ∈ rows.filter keep :=
    mem_filter.mpr ⟨hg.mem, decide_eq_true fun heq => hr (heq ▸ hg.isRoot)⟩
  obtain ⟨hs, hstage⟩ := bothPhases_stage keep hg hlocal hg₁
  obtain ⟨a', hk', ha'⟩ : ∃ a' ∈ e.signers, Admits verifies {x | x ∈ rows.filter keep} a' := by
    rw [hset]
    exact (admits_without hr hadmits).elim (fun h => ⟨a, hk, h⟩) id
  obtain ⟨_, _, _, heq⟩ := pushAll_held verifies
    (firstPhase verifies localRoots (rows.filter keep)) (rows.filter fun x => !keep x)
  obtain ⟨t, ht, -, hin, -⟩ := hstage.settle_keeps hg (Stage.roots_of_all hg hstage)
    (fun s => a' ∈ s.admitters ∧ ∀ k, e ∉ s.admissions.shelf k)
    (fun {s x _} _ hin => by
      refine ⟨(grows_place s x).admitters hin.1, fun k hm => ?_⟩
      obtain hm | ⟨rfl, -, hby, -⟩ := mem_admissions_place.mp hm
      · exact hin.2 k hm
      · exact hby (List.any_eq_true.mpr ⟨a', hk', decide_eq_true hin.1⟩))
    (fun {s s'} _ hin hw => ⟨(grows_wake hw).admitters hin.1,
      fun k hm => hin.2 k ((mem_admissions_wake hw).mp hm).1⟩)
    (by
      have hadmitters : a' ∈ ((firstPhase verifies localRoots (rows.filter keep)).pushAll verifies
          (rows.filter fun x => !keep x)).atRest.admitters := by
        rw [heq]
        exact (hs.admitters_iff a').mpr ha'
      refine ⟨(grows_seatRoot _ g.signer).admitters hadmitters, fun k hm => ?_⟩
      have hfirst : e ∉ (firstPhase verifies localRoots (rows.filter keep)).admissions.shelf k :=
        fun hin => by
          have := (mem_filter.mp (hs.sound.admissionRows k e hin).1).2
          simp [keep] at this
      rw [show ((firstPhase verifies localRoots (rows.filter keep)).pushAll verifies
        (rows.filter fun x => !keep x)).seatRoot g.signer = seat _ _ from rfl, heq] at hm
      unfold seat issue admitKey at hm
      revert hm
      repeat' split
      all_goals exact hfirst)
  refine ⟨twoPhases (rows.filter keep) (rows.filter fun x => !keep x),
    pushedRows_twoPhases rows keep, ?_⟩
  rw [grownStructure_twoPhases, ht]
  exact hin.2

end Cosigned

/-- **Copies left on shelves show.** -/
theorem SameEitherWay.cosigned (h : SameEitherWay verifies localRoots rows) {e : AuthorityLogEntry}
    (hg : OneRoot verifies {x | x ∈ rows} g) (he : e ∈ rows) (ha : e.admission.isSome)
    (hsigned : ∃ k ∈ e.signers, Admits verifies {x | x ∈ rows} k) :
    g.signer ∈ e.signers ∨ ∀ k ∈ e.signers, Admits verifies {x | x ∈ rows} k := by
  obtain ⟨a, hk, hadmits⟩ := hsigned
  by_contra hcon
  rw [not_or, not_forall] at hcon
  obtain ⟨hnot, b, hb⟩ := hcon
  rw [Classical.not_imp] at hb
  obtain ⟨turns, ht, hleft⟩ := exists_copyLeft hg (h.anchors hg) he ha hnot hb.1 hb.2
  obtain ⟨turns', ht', hnone⟩ := exists_noCopy hg (h.anchors hg) ha hk hadmits
  exact hnone b (((h turns turns' ht ht').admissions b e).mp hleft)

/-! ## The order of rows and settles -/

/-- **The order of rows and settles does not show exactly where the rows leave nothing to it.** -/
theorem logStructure_orderless (verifies : AuthorityLogEntry → Bool) (localRoots : LocalRoots)
    (rows : List AuthorityLogEntry) :
    SameEitherWay verifies localRoots rows ↔ Orderless verifies localRoots {e | e ∈ rows} := by
  refine ⟨fun h => ⟨?_, fun g hg => h.anchors hg, fun g hg => h.keys hg,
    fun g hg e he ha => h.cosigned hg he ha⟩, fun h turns turns' ht ht' => h.sameStructure ?_ ?_⟩
  · exact fun g hg hr g' hg' hr' hne e he => h.severalRoots hg hr hg' hr' hne he
  · ext e
    exact ht.mem_iff
  · ext e
    exact ht'.mem_iff

/-- An owner's log: its root, another owner's root record, that anchor's revision of a machine, the
root's own revision of it, and an answer the machine carries. -/
def carriedAnswer : List AuthorityLogEntry :=
  let root : AuthorityKey := .ed25519 (.of 1)
  let anchor : AuthorityKey := .ed25519 (.of 2)
  let machine (b : UInt8) : EntityId := ⟨List.replicate 16 b, EntityId.length_filled b⟩
  [⟨.genesis ⟨root, roleOwner⟩, root, [], []⟩,
    ⟨.ownerRoot ⟨.of 9, .of 2⟩, anchor, [], []⟩,
    ⟨.machineProfile ⟨machine 1, .of 3, .hostedNode, none⟩, anchor, [], []⟩,
    ⟨.machineProfile ⟨machine 2, .of 4, .hostedNode, some (machine 1)⟩, .ed25519 (.of 3), [], []⟩,
    ⟨.machineProfile ⟨machine 1, .of 3, .hostedNode, none⟩, root, [], []⟩]

/-- **The order shows**: the answer's key is a stranger's when the anchor's revision comes first, and
own when the root's does. -/
theorem carriedAnswer_order_shows : ¬ SameEitherWay (fun _ => true) ⟨∅, ∅⟩ carriedAnswer := by
  intro h
  have hsame := (h (carriedAnswer.map .push) ((carriedAnswer.take 2 ++
    (carriedAnswer.drop 2).reverse).map .push) (by decide) (by decide)).machineKeys
  revert hsame
  decide

end Oneiron
