import Oneiron.Authority.StructureWakes

/-!
# Authority/StructureStages — what a builder holds between calls

    blank --push--▸ blank --genesis, settle--▸ settled --push, settle--▸ settled

For a log with one root, and a builder with no anchors of its own, a schedule is either still blank,
every row it pushed fresh, or settled; and once every row is in and settled, all but the classes of
keys is given by the rows (`Mid.admitters_iff` on).  The classes are given up to the rows a stranger
may carry (`Mid.own_of_firm`).
-/

namespace Oneiron

open List Finset AuthorityOp.genesis Settling

variable (verifies : AuthorityLogEntry → Bool) (rows : Set AuthorityLogEntry)

/-- The one root of a log. -/
structure OneRoot (g : AuthorityLogEntry) : Prop where
  mem : g ∈ rows
  isRoot : isRoot verifies g
  unique : ∀ e ∈ rows, Oneiron.isRoot verifies e → e = g

namespace Settling

variable {verifies rows} {pushed : Set AuthorityLogEntry} {s : Settling}
  {todo more : List AuthorityLogEntry} {e : AuthorityLogEntry}

/-- A row that does not wait is done as soon as it is pushed. -/
theorem Complete.insert (h : s.Complete verifies rows pushed todo) (hw : waits e → e ∈ todo) :
    s.Complete verifies rows (insert e pushed) todo where
  roots x hx := by
    obtain rfl | hx := Set.mem_insert_iff.mp hx
    · by_cases hwx : waits x
      · exact .inl (hw hwx)
      · refine .inr fun a ha => ?_
        obtain ⟨record, hop⟩ := op_of_selfSignedRoot ha
        simp [waits, hop] at hwx
    · exact h.roots x hx
  admissions x hx device hd := by
    obtain rfl | hx := Set.mem_insert_iff.mp hx
    · refine .inl (hw ?_)
      unfold waits
      split
      · rfl
      · rfl
      · simp [hd]
    · exact h.admissions x hx device hd
  profiles x hx profile hop := by
    obtain rfl | hx := Set.mem_insert_iff.mp hx
    · exact .inl (hw (by simp [waits, hop]))
    · exact h.profiles x hx profile hop
  admissionsAsleep := h.admissionsAsleep
  profilesAsleep := h.profilesAsleep

theorem Complete.append (h : s.Complete verifies rows pushed todo) : s.Complete verifies rows pushed (todo ++ more) where
  roots x hx := (h.roots x hx).imp_left (mem_append_left _)
  admissions x hx device hd := (h.admissions x hx device hd).imp_left (mem_append_left _)
  profiles x hx profile hop := (h.profiles x hx profile hop).imp_left (mem_append_left _)
  admissionsAsleep := h.admissionsAsleep
  profilesAsleep := h.profilesAsleep

end Settling

namespace StructureBuilder

/-- A builder no settle is at work on, its fresh rows set apart. -/
def atRest (b : StructureBuilder) : Settling := ⟨{ b with fresh := [] }, [], [], []⟩

/-- A builder no settle has granted anything. -/
def Blank (b : StructureBuilder) : Prop :=
  b = { roots := b.roots, rootRoles := b.rootRoles, fresh := b.fresh, localRoots := b.localRoots }

/-- What a builder holds once `pushed` is pushed. -/
structure Stage (kept : Set AuthorityLogEntry) (roots : Finset Bytes32)
    (pushed : Set AuthorityLogEntry) (b : StructureBuilder) : Prop where
  keptRows : kept ⊆ rows
  localRoots : b.localRoots.roots = roots
  nodup : b.roots.Nodup
  mem_roots : ∀ e, e ∈ b.roots ↔ e ∈ pushed ∧ isRoot verifies e
  noRoles : b.roots = [] → b.rootRoles = 0
  roles : ∀ g device, b.roots = [g] → g.op = .genesis device → b.rootRoles = device.roles
  freshRows : ∀ e ∈ b.fresh, e ∈ kept ∧ waits e
  progress : (b.Blank ∧ ∀ e ∈ pushed, waits e → e ∈ b.fresh) ∨
    b.atRest.Mid verifies rows kept roots pushed b.fresh

variable {verifies rows} {roots : Finset Bytes32} {kept pushed : Set AuthorityLogEntry}
  {b : StructureBuilder} {e g : AuthorityLogEntry}

variable (verifies) in
theorem stage_under (localRoots : LocalRoots) (h : localRoots.anchors = ∅) :
    (under localRoots).Stage verifies rows rows localRoots.roots ∅ where
  keptRows := subset_rfl
  localRoots := rfl
  nodup := nodup_nil
  mem_roots e := by simp [under]
  noRoles _ := rfl
  roles g device hg := by simp [under] at hg
  freshRows e he := by simp [under] at he
  progress := .inl ⟨by simp [Blank, under, h], fun e he => absurd he (Set.notMem_empty e)⟩

/-- With one root in the log, a builder holds it or none. -/
theorem Stage.roots_eq (hg : OneRoot verifies rows g) (hp : pushed ⊆ rows)
    (h : b.Stage verifies rows kept roots pushed) : b.roots = [] ∨ b.roots = [g] := by
  have hall : ∀ e ∈ b.roots, e = g := fun e he =>
    hg.unique e (hp ((h.mem_roots e).mp he).1) ((h.mem_roots e).mp he).2
  have hnodup := h.nodup
  match hr : b.roots with
  | [] => exact .inl rfl
  | [x] => exact .inr (by rw [hall x (by simp [hr])])
  | x :: y :: _ =>
    rw [hr, nodup_cons] at hnodup
    exact absurd ((hall x (by simp [hr])).trans (hall y (by simp [hr])).symm)
      fun heq => hnodup.1 (heq ▸ List.mem_cons_self ..)

/-! ## Pushes -/

theorem not_waits_of_isRoot (h : isRoot verifies e) : ¬ waits e := by
  unfold isRoot at h
  split at h
  · next device hop =>
    simp [waits, hop, AuthorityLogEntry.admission, AuthorityOp.admitsDevice]
  · simp at h

variable (verifies) in
/-- A push takes a root, keeps a row for the next settle, or does nothing. -/
theorem push_cases (b : StructureBuilder) (e : AuthorityLogEntry) :
    (∃ device, e.op = .genesis device ∧ isRoot verifies e ∧ e ∉ b.roots ∧ b.push verifies e =
      { b with roots := b.roots ++ [e], rootRoles := b.rootRoles ||| device.roles }) ∨
    (isRoot verifies e = false ∧ waits e ∧ b.push verifies e = { b with fresh := b.fresh ++ [e] }) ∨
    ((isRoot verifies e → e ∈ b.roots) ∧ ¬ waits e ∧ b.push verifies e = b) := by
  unfold push
  split
  · next device hop =>
    have hw : ¬ waits e := by
      simp [waits, hop, AuthorityLogEntry.admission, AuthorityOp.admitsDevice]
    split
    · next hr => exact .inl ⟨device, hop, hr.1, hr.2, rfl⟩
    · next hr => exact .inr (.inr ⟨fun h => not_not.mp fun hn => hr ⟨h, hn⟩, hw, rfl⟩)
  · next profile hop => exact .inr (.inl ⟨by simp [isRoot, hop], by simp [waits, hop], rfl⟩)
  · next record hop => exact .inr (.inl ⟨by simp [isRoot, hop], by simp [waits, hop], rfl⟩)
  · next hgen hprofile hroot =>
    have hr : isRoot verifies e = false := by
      unfold isRoot
      split
      · next device hop => exact absurd hop (hgen device)
      · rfl
    have hw : waits e = e.admission.isSome := by
      unfold waits
      split
      · next profile hop => exact absurd hop (hprofile profile)
      · next record hop => exact absurd hop (hroot record)
      · rfl
    split
    · next ha => exact .inr (.inl ⟨hr, hw.trans ha, rfl⟩)
    · next ha => exact .inr (.inr ⟨fun h => by simp [hr] at h, fun h => ha (hw ▸ h), rfl⟩)

theorem Stage.push (hg : OneRoot verifies rows g) (hp : pushed ⊆ rows) (he : e ∈ rows)
    (hk : waits e → e ∈ kept)
    (h : b.Stage verifies rows kept roots pushed) :
    (b.push verifies e).Stage verifies rows kept roots (insert e pushed) := by
  obtain ⟨device, hop, hr, hnot, heq⟩ | ⟨hr, hw, heq⟩ | ⟨hr, hw, heq⟩ := push_cases verifies b e
  · -- the root itself, the first time
    obtain rfl := hg.unique e he hr
    have hnil : b.roots = [] := (h.roots_eq hg hp).resolve_right fun hs => hnot (by simp [hs])
    have hnw := not_waits_of_isRoot hr
    rw [heq]
    refine ⟨h.keptRows, h.localRoots, by simp [hnil], fun x => ?_, fun hs => by simp at hs, ?_, h.freshRows, ?_⟩
    · have := h.mem_roots x
      simp only [hnil, nil_append, List.mem_singleton, Set.mem_insert_iff, not_mem_nil,
        false_iff] at this ⊢
      exact ⟨fun hx => ⟨.inl hx, hx ▸ hr⟩, fun hx => hx.1.elim id fun hin => absurd ⟨hin, hx.2⟩ this⟩
    · intro g' device' hs hop'
      simp only [hnil, nil_append, cons.injEq, and_true] at hs
      subst hs
      obtain rfl := inj (hop.symm.trans hop')
      simp [h.noRoles hnil]
    · refine .inl ⟨?_, fun x hx hwx => ?_⟩
      · obtain ⟨hblank, -⟩ | hmid := h.progress
        · unfold Blank at hblank ⊢
          rw [hblank]
        · obtain ⟨g', -, -, hroots, -⟩ := hmid.sound.oneRoot
          exact absurd (hnil.symm.trans hroots) (by simp)
      · obtain rfl | hx := Set.mem_insert_iff.mp hx
        · exact absurd hwx hnw
        · obtain ⟨-, hfresh⟩ | hmid := h.progress
          · exact hfresh x hx hwx
          · obtain ⟨g', -, -, hroots, -⟩ := hmid.sound.oneRoot
            exact absurd (hnil.symm.trans hroots) (by simp)
  · rw [heq]
    refine ⟨h.keptRows, h.localRoots, h.nodup, fun x => ?_, h.noRoles, h.roles, fun x hx => ?_, ?_⟩
    · rw [Set.mem_insert_iff, h.mem_roots x]
      exact ⟨fun hx => ⟨.inr hx.1, hx.2⟩,
        fun hx => ⟨hx.1.resolve_left fun heq => by simp [heq, hr] at hx, hx.2⟩⟩
    · obtain hx | hx := mem_append.mp hx
      · exact h.freshRows x hx
      · obtain rfl := List.mem_singleton.mp hx
        exact ⟨hk hw, hw⟩
    · obtain ⟨hblank, hfresh⟩ | hmid := h.progress
      · refine .inl ⟨?_, fun x hx hwx => ?_⟩
        · unfold Blank at hblank ⊢
          rw [hblank]
        · obtain rfl | hx := Set.mem_insert_iff.mp hx
          · exact mem_append_right _ (List.mem_singleton_self x)
          · exact mem_append_left _ (hfresh x hx hwx)
      · refine .inr ⟨hmid.sound, hmid.complete.append.insert
          (fun _ => mem_append_right _ (List.mem_singleton_self e)), fun x hx => ?_⟩
        obtain hx | hx := mem_append.mp hx
        · exact hmid.todoRows x hx
        · obtain rfl := List.mem_singleton.mp hx
          exact ⟨hk hw, hw⟩
  · rw [heq]
    refine ⟨h.keptRows, h.localRoots, h.nodup, fun x => ?_, h.noRoles, h.roles, h.freshRows, ?_⟩
    · rw [Set.mem_insert_iff, h.mem_roots x]
      refine ⟨fun hx => ⟨.inr hx.1, hx.2⟩, fun hx => ⟨hx.1.elim (fun heq => ?_) id, hx.2⟩⟩
      subst heq
      exact ((h.mem_roots x).mp (hr hx.2)).1
    · obtain ⟨hblank, hfresh⟩ | hmid := h.progress
      · refine .inl ⟨hblank, fun x hx hwx => ?_⟩
        obtain rfl | hx := Set.mem_insert_iff.mp hx
        · exact absurd hwx hw
        · exact hfresh x hx hwx
      · exact .inr ⟨hmid.sound, hmid.complete.insert fun hwe => absurd hwe hw, hmid.todoRows⟩

/-! ## Settles -/

/-- A root already seated is not seated again. -/
theorem seat_of_mem {s : Settling} {device : DeviceAuthority} (ha : device.key ∈ s.admitters)
    (hi : holdsOwner device.roles → device.key ∈ s.issuers) : s.seat device = s := by
  unfold seat
  split
  · next ho => simp [issue, admitKey, hi ho, ha]
  · simp [admitKey, ha]

/-- The first seat of a settle. -/
theorem seat_of_empty {s : Settling} {device : DeviceAuthority} (ha : s.admitters = ∅)
    (hi : s.issuers = ∅) : s.seat device =
      { s with
        admitters := {device.key}, admitted := device.key :: s.admitted
        issuers := if holdsOwner device.roles then {device.key} else ∅
        issued := if holdsOwner device.roles then device.key :: s.issued else s.issued } := by
  unfold seat
  split
  · next ho => simp [issue, admitKey, ha, hi]
  · next ho =>
    simp only [admitKey, ha, notMem_empty, if_false]
    simp [hi]

section

variable (hg : OneRoot verifies rows g)

include hg

variable (h : b.Stage verifies rows kept roots pushed)
include h

/-- Seating the root of a blank builder starts a settle. -/
theorem mid_seatRoot (hr : b.roots = [g])
    (hblank : b.Blank) (hfresh : ∀ e ∈ pushed, waits e → e ∈ b.fresh) :
    (b.seatRoot g.signer).Mid verifies rows kept roots pushed b.fresh := by
  obtain ⟨device, hop⟩ : ∃ device, g.op = .genesis device := by
    have := hg.isRoot
    unfold isRoot at this
    split at this
    · next device hop => exact ⟨device, hop⟩
    · simp at this
  have hroles := h.roles g device hr hop
  have hloc := h.localRoots
  have hrows := h.freshRows
  generalize hf : b.fresh = fresh at hfresh hrows ⊢
  have hcomplete (s : Settling) (hs : s.admissions = ∅) (hs' : s.profiles = ∅) :
      s.Complete verifies rows pushed fresh := by
    refine ⟨fun e he => ?_, fun e he device hd => .inl (hfresh e he ?_),
      fun e he profile hop => .inl (hfresh e he (by simp [waits, hop])), ?_, ?_⟩
    · by_cases hw : waits e
      · exact .inl (hfresh e he hw)
      · refine .inr fun a ha => ?_
        obtain ⟨record, hop⟩ := op_of_selfSignedRoot ha
        simp [waits, hop] at hw
    · unfold waits
      split
      · rfl
      · rfl
      · simp [hd]
    · intro k hk e he
      rw [hs, Shelves.shelf_empty] at he
      exact absurd he not_mem_nil
    · intro k e he
      rw [hs', Shelves.shelf_empty] at he
      exact absurd he not_mem_nil
  have hissues (k : AuthorityKey) (hk : RootIssues verifies rows k) :
      k = g.signer ∧ holdsOwner device.roles := by
    obtain ⟨g', hg', hroot, rfl, device', hop', ho⟩ := hk
    obtain rfl := hg.unique g' hg' hroot
    obtain rfl := inj (hop.symm.trans hop')
    exact ⟨rfl, ho⟩
  have hmem (k : AuthorityKey) :
      k ∈ (if holdsOwner device.roles then {g.signer} else ∅ : Finset AuthorityKey) ↔
        k = g.signer ∧ holdsOwner device.roles := by
    split <;> simp_all
  unfold seatRoot
  rw [hblank]
  dsimp only
  rw [hr, hroles, seat_of_empty rfl rfl]
  refine ⟨⟨h.keptRows, rfl, hloc, ⟨g, hg.mem, hg.isRoot, rfl, fun d hd => ?_⟩, ?_, ?_, ?_, ?_, ?_, ?_, ?_, ?_,
    rfl, ?_, ?_, ?_, ?_, ?_⟩, hcomplete _ rfl rfl, hrows⟩
  · exact congrArg DeviceAuthority.roles (inj (hop.symm.trans hd))
  · intro k hk
    obtain rfl := Finset.mem_singleton.mp hk
    exact .root hg.mem hg.isRoot
  · intro k hk
    obtain ⟨rfl, ho⟩ := (hmem k).mp hk
    exact .inl ⟨g, hg.mem, hg.isRoot, rfl, device, hop, ho⟩
  · exact fun a ha => absurd ha (notMem_empty a)
  · exact fun a ha => absurd ha (notMem_empty a)
  · exact fun k hk => absurd hk (notMem_empty k)
  · exact fun k hk => absurd hk (notMem_empty k)
  · exact fun m hm => absurd hm (notMem_empty m)
  · exact fun k hk => absurd hk (notMem_empty k)
  · intro g' hg' hroot
    obtain rfl := hg.unique g' hg' hroot
    exact Finset.mem_singleton_self _
  · exact fun k hk => (hmem k).mpr (hissues k hk)
  · exact fun k hk => Finset.mem_singleton.mpr (List.mem_singleton.mp hk)
  · exact fun k e he => by simp at he
  · exact fun k e he => by simp at he

/-- **Seating the root starts a settle**, whatever the stage. -/
theorem Stage.seatRoot (hr : b.roots = [g]) :
    (b.seatRoot g.signer).Mid verifies rows kept roots pushed b.fresh := by
  obtain ⟨hblank, hfresh⟩ | hmid := h.progress
  · exact mid_seatRoot hg h hr hblank hfresh
  · have : b.seatRoot g.signer = b.atRest := by
      refine seat_of_mem (hmid.sound.rootAdmits g hg.mem hg.isRoot) fun ho => ?_
      obtain ⟨g', -, -, hroots, -⟩ := hmid.sound.oneRoot
      refine hmid.sound.rootIssues _ ⟨g, hg.mem, hg.isRoot, rfl, ?_⟩
      have hroot := hg.isRoot
      unfold isRoot at hroot
      split at hroot
      · next device hop => exact ⟨device, hop, by rwa [h.roles g device hr hop] at ho⟩
      · simp at hroot
    rwa [this]

/-- **The settle rule**: what its pass and its loop keep, a settle keeps; and it ends with every
stack empty. -/
theorem Stage.settle_keeps (hr : b.roots = [g]) (Inv : Settling → Prop)
    (hplace : ∀ {s e todo}, s.Mid verifies rows kept roots pushed (e :: todo) → Inv s →
      Inv (s.place verifies e))
    (hwake : ∀ {s s'}, s.Mid verifies rows kept roots pushed [] → Inv s →
      s.wake verifies = some s' → Inv s') (hseat : Inv (b.seatRoot g.signer)) :
    ∃ t : Settling, b.settle verifies = t.toStructureBuilder ∧
      t.Mid verifies rows kept roots pushed [] ∧ Inv t ∧
        t.admitted = [] ∧ t.issued = [] ∧ t.anchored = [] ∧ t.woken = [] := by
  have hfold (fresh : List AuthorityLogEntry) (s : Settling)
      (hs : s.Mid verifies rows kept roots pushed fresh) (hi : Inv s) :
      (fresh.foldl (place verifies) s).Mid verifies rows kept roots pushed [] ∧
        Inv (fresh.foldl (place verifies) s) := by
    induction fresh generalizing s with
    | nil => exact ⟨hs, hi⟩
    | cons e fresh ih => exact ih _ hs.place (hplace hs hi)
  obtain ⟨hmid, hinv⟩ := drain_keeps
    (fun s => s.Mid verifies rows kept roots pushed [] ∧ Inv s)
    (fun {s s'} hs hw => ⟨hs.1.wake hw, hwake hs.1 hs.2 hw⟩)
    (b.fresh.foldl (place verifies) (b.seatRoot g.signer)).pending
    (hfold b.fresh _ (h.seatRoot hg hr) hseat)
  refine ⟨_, by simp only [settle, hr], hmid, hinv, ?_⟩
  exact stacks_of_wake (wake_drain verifies (le_refl _))

/-- **A settle of a builder that holds the root leaves nothing fresh and every stack empty.** -/
theorem Stage.settle_root (hr : b.roots = [g]) :
    (b.settle verifies).Stage verifies rows kept roots pushed ∧ (b.settle verifies).fresh = [] ∧
      (b.settle verifies).woken = [] ∧
        (b.settle verifies).atRest.Mid verifies rows kept roots pushed [] := by
  obtain ⟨t, hsettle, hmid, -, hend⟩ := h.settle_keeps hg hr (fun _ => True) (fun _ _ => trivial)
    (fun _ _ _ => trivial) trivial
  have hrest : (b.settle verifies).atRest = t := by
    obtain ⟨builder, admitted, issued, anchored⟩ := t
    obtain ⟨rfl, rfl, rfl, -⟩ := hend
    rw [hsettle]
    have hf := hmid.sound.fresh
    dsimp only at hf
    simp only [atRest, ← hf]
  have hf : (b.settle verifies).fresh = [] := by rw [hsettle]; exact hmid.sound.fresh
  have hw : (b.settle verifies).woken = [] := by rw [hsettle]; exact hend.2.2.2
  obtain ⟨g', hg', hroot', hroots, hroles⟩ := hmid.sound.oneRoot
  obtain rfl := hg.unique g' hg' hroot'
  have hroots' : (b.settle verifies).roots = [g'] := by rw [hsettle]; exact hroots
  refine ⟨⟨h.keptRows, ?_, ?_, ?_, ?_, ?_, ?_, .inr ?_⟩, hf, hw, hrest ▸ hmid⟩
  · rw [hsettle]
    exact hmid.sound.localRoots
  · simp [hroots']
  · rw [hroots', ← hr]
    exact h.mem_roots
  · simp [hroots']
  · intro x device hx hop
    rw [hroots'] at hx
    obtain rfl := (cons.inj hx).1
    rw [hsettle]
    exact hroles device hop
  · simp [hf]
  · rw [hf, hrest]
    exact hmid

end

/-- A settle before the root is pushed does nothing. -/
theorem Stage.settle_noRoot (h : b.Stage verifies rows kept roots pushed) (hr : b.roots = []) :
    b.settle verifies = b := by
  obtain ⟨hblank, -⟩ | hmid := h.progress
  · unfold Blank at hblank
    rw [hblank]
    simp [settle, hr, clear]
  · obtain ⟨g', -, -, hroots, -⟩ := hmid.sound.oneRoot
    exact absurd (hr.symm.trans hroots) (by simp)

theorem Stage.settle (hg : OneRoot verifies rows g) (hp : pushed ⊆ rows)
    (h : b.Stage verifies rows kept roots pushed) :
    (b.settle verifies).Stage verifies rows kept roots pushed := by
  obtain hr | hr := h.roots_eq hg hp
  · rwa [h.settle_noRoot hr]
  · exact (h.settle_root hg hr).1

/-- **The schedule rule**: whatever the order of pushes and settles, a builder is at its stage. -/
theorem Stage.turns (hg : OneRoot verifies rows g) (turns : List StructureTurn)
    (hp : pushed ⊆ rows) (ht : ∀ e ∈ pushedRows turns, e ∈ rows ∧ (waits e → e ∈ kept))
    (h : b.Stage verifies rows kept roots pushed) :
    (turns.foldl (turn verifies) b).Stage verifies rows kept roots
      (pushed ∪ {e | e ∈ pushedRows turns}) := by
  induction turns generalizing b pushed with
  | nil => simpa [pushedRows] using h
  | cons t turns ih =>
    cases t with
    | push e =>
      obtain ⟨he, hk⟩ := ht e (by simp [pushedRows])
      have hrest := ih (b := b.push verifies e) (Set.insert_subset he hp)
        (fun x hx => ht x (by simp only [pushedRows, filterMap_cons] at hx ⊢; simp [hx]))
        (h.push hg hp he hk)
      have hset : insert e pushed ∪ {x | x ∈ pushedRows turns}
          = pushed ∪ {x | x ∈ pushedRows (.push e :: turns)} := by
        ext x
        simp only [pushedRows, filterMap_cons, Set.mem_union, Set.mem_ofPred_eq, List.mem_cons,
          Set.mem_insert_iff]
        tauto
      exact hset ▸ hrest
    | settle => exact ih hp (fun x hx => ht x (by simpa [pushedRows] using hx)) (h.settle hg hp)

end StructureBuilder

end Oneiron
