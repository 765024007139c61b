import Oneiron.Authority.WorldFrontier

/-!
# Authority/WorldReading — the rule edit by edit, and that the walk reads the same

    contribution e  =  own e                                          at full strength
                    =  own e ⊓ (default) ⊓ contributions replaced     otherwise

A lower bound of every live contribution bounds whatever the walk meets (`Walking.sound`), and what
the walk has met bounds everything it is done with (`Walking.settled`); where nothing is pending the
two bounds are one.
-/

open Std

namespace Oneiron

open Std.ExtTreeMap Option Finset

variable {hash : Bytes32}

section Reading

variable (race : OwnerActRace) (view : StandingView) {frontier : WorldFrontier WorldPrivacy}

/-- The default, where an edit not at full strength meets it. -/
def FrontierEdit.floor (edit : WorldEdit) : WithTop PrivacyMeet :=
  if edit.meetsDefault then (defaultMeet : WithTop PrivacyMeet) else ⊤

/-- What one edit contributes, by what each edit it replaced contributes; an edit the register does
not keep contributes nothing. -/
noncomputable def contribution (h : frontier.Acyclic) : Bytes32 → WithTop PrivacyMeet :=
  h.wellFounded.fix fun hash below =>
    match hedit : frontier.choiceOf hash with
    | none => ⊤
    | some edit =>
      if fullStrength race hash edit view then (edit.own : WithTop PrivacyMeet)
      else edit.own ⊓ edit.floor ⊓
        (edit.replaced.toList.toFinset.attach.inf fun old =>
          below old.1 ⟨edit, hedit, ExtTreeSet.mem_toList.mp (List.mem_toFinset.mp old.2)⟩)

variable {race view}

theorem contribution_of_none (h : frontier.Acyclic) (hedit : frontier.choiceOf hash = none) :
    contribution race view h hash = ⊤ := by
  rw [contribution, WellFounded.fix_eq]
  split
  · rfl
  · next hsome => exact nomatch hedit.symm.trans hsome

/-- **The rule**: an edit at full strength gives its own settings; any other, its settings met with
what every edit it replaced contributes, and with the default when it replaced none or is disputed. -/
theorem contribution_of_some (h : frontier.Acyclic) {edit : WorldEdit}
    (hedit : frontier.choiceOf hash = some edit) : contribution race view h hash =
      if fullStrength race hash edit view then (edit.own : WithTop PrivacyMeet)
      else edit.own ⊓ edit.floor ⊓ edit.replaced.toList.toFinset.inf (contribution race view h) := by
  rw [contribution, WellFounded.fix_eq]
  split
  · next hnone => exact nomatch hnone.symm.trans hedit
  · next hsome =>
    obtain rfl := some.inj (hsome.symm.trans hedit)
    conv_rhs => rw [← inf_attach]

variable (race view)

/-- The meet of every live edit's contribution, or the default where there is none. -/
noncomputable def worldReading (h : frontier.Acyclic) : WithTop PrivacyMeet :=
  if frontier.live.isEmpty then (defaultMeet : WithTop PrivacyMeet)
  else frontier.live.keys.toFinset.inf (contribution race view h)

end Reading

/-! ## The walk, step by step -/

section Walking

variable {race : OwnerActRace} {view : StandingView} {frontier : WorldFrontier WorldPrivacy}
  {h : frontier.Acyclic} {bound : WithTop PrivacyMeet} {walk : WorldWalk} {hash : Bytes32}
  {edit : WorldEdit}

/-- What lies under everything behind an edit. -/
def UnderRest (race : OwnerActRace) (view : StandingView) (h : frontier.Acyclic)
    (bound : WithTop PrivacyMeet) (edit : WorldEdit) : Prop :=
  bound ≤ edit.floor ∧ ∀ old ∈ edit.replaced, bound ≤ contribution race view h old

/-- Everything behind an edit has been met or reached. -/
def TakenBehind (walk : WorldWalk) (edit : WorldEdit) : Prop :=
  (walk.meet : WithTop PrivacyMeet) ≤ edit.floor ∧ ∀ old ∈ edit.replaced, old ∈ walk.visited

/-- What is known of a walk under way, from a bound on what it should meet, with some edits in hand
besides those it has pending. -/
structure Walking (race : OwnerActRace) (view : StandingView) (h : frontier.Acyclic)
    (bound : WithTop PrivacyMeet) (hand : List WorldEdit) (walk : WorldWalk) : Prop where
  sound : bound ≤ walk.meet
  rest : ∀ edit ∈ walk.pending, UnderRest race view h bound edit
  met : ∀ hash ∈ walk.visited, ∀ edit, frontier.choiceOf hash = some edit → walk.meet ≤ edit.own
  settled : ∀ hash ∈ walk.visited, ∀ edit, frontier.choiceOf hash = some edit →
    fullStrength race hash edit view = false →
    edit ∈ walk.pending ∨ edit ∈ hand ∨ TakenBehind walk edit

/-- A bound on what an edit contributes bounds its own settings, and what is behind it if it is not
at full strength. -/
theorem le_contribution_iff (hedit : frontier.choiceOf hash = some edit) :
    bound ≤ contribution race view h hash ↔ bound ≤ (edit.own : WithTop PrivacyMeet) ∧
      (fullStrength race hash edit view = false → UnderRest race view h bound edit) := by
  rw [contribution_of_some h hedit]
  have hall : bound ≤ edit.replaced.toList.toFinset.inf (contribution race view h) ↔
      ∀ old ∈ edit.replaced, bound ≤ contribution race view h old := by
    rw [Finset.le_inf_iff]
    simp only [List.mem_toFinset, ExtTreeSet.mem_toList]
  cases hfull : fullStrength race hash edit view with
  | true => simp
  | false => simp [UnderRest, hall, and_assoc]

theorem TakenBehind.mono {walk walk' : WorldWalk} (hbehind : TakenBehind walk edit)
    (hmeet : walk'.meet ≤ walk.meet) (hvisited : walk.visited ⊆ walk'.visited) :
    TakenBehind walk' edit :=
  ⟨(WithTop.coe_le_coe.mpr hmeet).trans hbehind.1, fun old hold => hvisited (hbehind.2 old hold)⟩

variable {hand : List WorldEdit}

/-- **Meeting one edit**, reached now or before. -/
theorem Walking.takeLive (hw : Walking race view h bound hand walk)
    (hedit : frontier.choiceOf hash = some edit) (hbound : bound ≤ contribution race view h hash) :
    Walking race view h bound hand (takeLive race view walk (hash, edit)) := by
  obtain ⟨hown, hrest⟩ := (le_contribution_iff hedit).mp hbound
  have hmeet : walk.meet ⊓ edit.own ≤ walk.meet := inf_le_left
  have hvisited : walk.visited ⊆ insert hash walk.visited := subset_insert _ _
  refine ⟨le_inf hw.sound hown, fun e he => ?_, fun g hg e he => ?_, fun g hg e he hweak => ?_⟩
  · simp only [Oneiron.takeLive] at he
    split at he
    · next hpush =>
      rcases List.mem_cons.mp he with rfl | he
      · exact hrest hpush.2
      · exact hw.rest e he
    · exact hw.rest e he
  · rcases Finset.mem_insert.mp hg with rfl | hg
    · obtain rfl := some.inj (hedit.symm.trans he)
      exact inf_le_right
    · exact hmeet.trans (hw.met g hg e he)
  · have hkeeps : g ∈ walk.visited → e ∈ (Oneiron.takeLive race view walk (hash, edit)).pending ∨
        e ∈ hand ∨ TakenBehind (Oneiron.takeLive race view walk (hash, edit)) e := fun hg => by
      refine (hw.settled g hg e he hweak).imp (fun hpending => ?_)
        (Or.imp_right fun hbehind => hbehind.mono hmeet hvisited)
      simp only [Oneiron.takeLive]
      split
      · exact List.mem_cons_of_mem _ hpending
      · exact hpending
    by_cases hseen : g ∈ walk.visited
    · exact hkeeps hseen
    · obtain rfl := (Finset.mem_insert.mp hg).resolve_right hseen
      obtain rfl := some.inj (hedit.symm.trans he)
      left
      rw [Oneiron.takeLive, if_pos ⟨hseen, hweak⟩]
      exact List.mem_cons_self

theorem takeReplaced_of_some (hnew : hash ∉ walk.visited)
    (hedit : frontier.choiceOf hash = some edit) (hlive : frontier.live[hash]? = none) :
    takeReplaced race view frontier walk hash = takeLive race view walk (hash, edit) := by
  have hprior : (frontier.superseded[hash]? <|> frontier.live[hash]?) = some edit := by
    rw [WorldFrontier.choiceOf, hlive] at hedit
    cases hs : frontier.superseded[hash]? <;> simp_all
  unfold takeReplaced takeLive
  rw [if_neg hnew, hprior]
  cases hfull : fullStrength race hash edit view <;> simp [hnew, hfull]

/-- **Reaching one replaced edit**: live edits were reached at the start. -/
theorem Walking.takeReplaced (hw : Walking race view h bound hand walk)
    (hlive : ∀ g, g ∉ walk.visited → frontier.live[g]? = none)
    (hbound : bound ≤ contribution race view h hash) :
    Walking race view h bound hand (takeReplaced race view frontier walk hash) := by
  by_cases hseen : hash ∈ walk.visited
  · rw [Oneiron.takeReplaced, if_pos hseen]
    exact hw
  cases hedit : frontier.choiceOf hash with
  | some edit =>
    rw [takeReplaced_of_some hseen hedit (hlive hash hseen)]
    exact hw.takeLive hedit hbound
  | none =>
    have hprior : (frontier.superseded[hash]? <|> frontier.live[hash]?) = none := by
      rw [WorldFrontier.choiceOf, hlive hash hseen] at hedit
      cases hs : frontier.superseded[hash]? <;> simp_all
    rw [Oneiron.takeReplaced, if_neg hseen, hprior]
    have hold : ∀ {g e}, g ∈ insert hash walk.visited → frontier.choiceOf g = some e →
        g ∈ walk.visited := fun {g e} hg he => by
      refine (Finset.mem_insert.mp hg).resolve_left fun heq => ?_
      cases (heq ▸ hedit).symm.trans he
    refine ⟨hw.sound, hw.rest, fun g hg e he => hw.met g (hold hg he) e he,
      fun g hg e he hweak => ?_⟩
    refine (hw.settled g (hold hg he) e he hweak).imp_right (Or.imp_right fun hbehind => ?_)
    exact hbehind.mono le_rfl (subset_insert _ _)

theorem takeReplaced_mono (walk : WorldWalk) (hash : Bytes32) :
    (takeReplaced race view frontier walk hash).meet ≤ walk.meet ∧
      insert hash walk.visited ⊆ (takeReplaced race view frontier walk hash).visited := by
  unfold takeReplaced
  split
  · next hseen => exact ⟨le_rfl, insert_subset hseen subset_rfl⟩
  · split
    · exact ⟨le_rfl, subset_rfl⟩
    · exact ⟨inf_le_left, subset_rfl⟩

/-- **Reaching everything an edit replaced.** -/
theorem Walking.foldl (hashes : List Bytes32) (hw : Walking race view h bound hand walk)
    (hlive : ∀ g, g ∉ walk.visited → frontier.live[g]? = none)
    (hbound : ∀ old ∈ hashes, bound ≤ contribution race view h old) :
    Walking race view h bound hand (hashes.foldl (Oneiron.takeReplaced race view frontier) walk) ∧
      (hashes.foldl (Oneiron.takeReplaced race view frontier) walk).meet ≤ walk.meet ∧
      walk.visited ⊆ (hashes.foldl (Oneiron.takeReplaced race view frontier) walk).visited ∧
      ∀ old ∈ hashes, old ∈ (hashes.foldl (Oneiron.takeReplaced race view frontier) walk).visited := by
  induction hashes generalizing walk with
  | nil => exact ⟨hw, le_rfl, subset_rfl, fun _ hold => absurd hold List.not_mem_nil⟩
  | cons first hashes ih =>
    obtain ⟨hmeet, hvisited⟩ := @takeReplaced_mono race view frontier walk first
    have hgrow := (subset_insert first walk.visited).trans hvisited
    obtain ⟨hw', hmeet', hvisited', hall⟩ := ih
      (hw.takeReplaced hlive (hbound first List.mem_cons_self))
      (fun g hg => hlive g fun hin => hg (hgrow hin))
      (fun old hold => hbound old (List.mem_cons_of_mem _ hold))
    refine ⟨hw', hmeet'.trans hmeet, hgrow.trans hvisited', fun old hold => ?_⟩
    rcases List.mem_cons.mp hold with rfl | hold
    · exact hvisited' (hvisited (Finset.mem_insert_self _ _))
    · exact hall old hold

/-- **Looking behind one edit** settles it. -/
theorem Walking.lookBehind {next : WorldEdit} {pending : List WorldEdit}
    (hw : Walking race view h bound [] { walk with pending := next :: pending })
    (hlive : ∀ g, g ∉ walk.visited → frontier.live[g]? = none) :
    Walking race view h bound [] (lookBehind race view frontier next { walk with pending }) ∧
      walk.visited ⊆ (lookBehind race view frontier next { walk with pending }).visited := by
  obtain ⟨hfloor, hold⟩ := hw.rest next List.mem_cons_self
  have hstart : ∀ meet : PrivacyMeet, meet ≤ walk.meet → bound ≤ meet →
      Walking race view h bound [next] ⟨meet, walk.visited, pending⟩ := by
    intro meet hmeet hsound
    refine ⟨hsound, fun e he => hw.rest e (List.mem_cons_of_mem _ he),
      fun g hg e he => hmeet.trans (hw.met g hg e he), fun g hg e he hweak => ?_⟩
    rcases hw.settled g hg e he hweak with hin | hin | hbehind
    · exact (List.mem_cons.mp hin).elim (fun heq => .inr (.inl (List.mem_singleton.mpr heq))) .inl
    · exact absurd hin List.not_mem_nil
    · exact .inr (.inr (hbehind.mono hmeet subset_rfl))
  let meet := if next.meetsDefault then walk.meet ⊓ defaultMeet else walk.meet
  have hmeet : meet ≤ walk.meet ∧ bound ≤ meet ∧ (meet : WithTop PrivacyMeet) ≤ next.floor := by
    simp only [meet]
    unfold FrontierEdit.floor at hfloor ⊢
    split
    · next hdefault =>
      rw [if_pos hdefault] at hfloor
      exact ⟨inf_le_left, le_inf hw.sound hfloor, WithTop.coe_le_coe.mpr inf_le_right⟩
    · exact ⟨le_rfl, hw.sound, le_top⟩
  obtain ⟨hw', hdown, hgrow, hall⟩ := (hstart meet hmeet.1 hmeet.2.1).foldl next.replaced.toList
    hlive (fun old hin => hold old (ExtTreeSet.mem_toList.mp hin))
  refine ⟨⟨hw'.sound, hw'.rest, hw'.met, fun g hg e he hweak => ?_⟩, hgrow⟩
  rcases hw'.settled g hg e he hweak with hin | hin | hbehind
  · exact .inl hin
  · obtain rfl := List.mem_singleton.mp hin
    exact .inr (.inr ⟨(WithTop.coe_le_coe.mpr hdown).trans hmeet.2.2,
      fun old hold => hall old (ExtTreeSet.mem_toList.mpr hold)⟩)
  · exact .inr (.inr hbehind)

/-- Where nothing is pending, what was met bounds what was reached. -/
theorem Walking.le_contribution (hw : Walking race view h bound [] walk) (hend : walk.pending = [])
    (hash : Bytes32) (hin : hash ∈ walk.visited) :
    (walk.meet : WithTop PrivacyMeet) ≤ contribution race view h hash := by
  induction hash using h.wellFounded.induction with
  | _ hash ih =>
    cases hedit : frontier.choiceOf hash with
    | none => exact contribution_of_none h hedit ▸ le_top
    | some edit =>
      refine (le_contribution_iff hedit).mpr
        ⟨WithTop.coe_le_coe.mpr (hw.met hash hin edit hedit), fun hweak => ?_⟩
      rcases hw.settled hash hin edit hedit hweak with hpending | hhand | hbehind
      · exact absurd (hend ▸ hpending) List.not_mem_nil
      · exact absurd hhand List.not_mem_nil
      · exact ⟨hbehind.1, fun old hold => ih old ⟨edit, hedit, hold⟩ (hbehind.2 old hold)⟩

/-- Every live edit met, from the first one's settings. -/
theorem Walking.start {first : Bytes32 × WorldEdit} {rest : List (Bytes32 × WorldEdit)}
    (hlist : frontier.live.toList = first :: rest)
    (hbound : ∀ g ∈ frontier.live, bound ≤ contribution race view h g) :
    Walking race view h bound []
        (frontier.live.toList.foldl (Oneiron.takeLive race view) ⟨first.2.own, ∅, []⟩) ∧
      ∀ g ∈ frontier.live, g ∈
        (frontier.live.toList.foldl (Oneiron.takeLive race view) ⟨first.2.own, ∅, []⟩).visited := by
  have hkept : ∀ p ∈ frontier.live.toList, frontier.choiceOf p.1 = some p.2 ∧
      bound ≤ contribution race view h p.1 := by
    intro p hp
    have hget := mem_toList_iff_getElem?_eq_some.mp hp
    exact ⟨by rw [WorldFrontier.choiceOf, hget]; rfl,
      hbound p.1 (mem_iff_isSome_getElem?.mpr (hget ▸ rfl))⟩
  have hfold : ∀ (l : List (Bytes32 × WorldEdit)) (walk : WorldWalk),
      (∀ p ∈ l, frontier.choiceOf p.1 = some p.2 ∧ bound ≤ contribution race view h p.1) →
      Walking race view h bound [] walk →
      Walking race view h bound [] (l.foldl (Oneiron.takeLive race view) walk) ∧
        ∀ g, (g ∈ walk.visited ∨ ∃ e, (g, e) ∈ l) →
          g ∈ (l.foldl (Oneiron.takeLive race view) walk).visited := by
    intro l
    induction l with
    | nil => exact fun walk _ hw => ⟨hw, fun g hg =>
        hg.resolve_right fun hin => List.not_mem_nil hin.choose_spec⟩
    | cons p l ih =>
      intro walk hl hw
      obtain ⟨hedit, hle⟩ := hl p List.mem_cons_self
      obtain ⟨hw', hall⟩ := ih _ (fun q hq => hl q (List.mem_cons_of_mem _ hq))
        (hw.takeLive hedit hle)
      refine ⟨hw', fun g hg => hall g ?_⟩
      rcases hg with hg | ⟨e, hin⟩
      · exact .inl (mem_insert_of_mem hg)
      · rcases List.mem_cons.mp hin with heq | hin
        · exact .inl (heq ▸ Finset.mem_insert_self _ _)
        · exact .inr ⟨e, hin⟩
  obtain ⟨hedit, hle⟩ := hkept first (hlist ▸ List.mem_cons_self)
  obtain ⟨hw, hall⟩ := hfold frontier.live.toList ⟨first.2.own, ∅, []⟩ hkept
    ⟨((le_contribution_iff hedit).mp hle).1, fun _ he => absurd he List.not_mem_nil,
      fun _ hg => absurd hg (notMem_empty _), fun _ hg => absurd hg (notMem_empty _)⟩
  refine ⟨hw, fun g hg => hall g (.inr ⟨frontier.live[g], ?_⟩)⟩
  exact mem_toList_iff_getElem?_eq_some.mpr (getElem?_eq_some_getElem hg)

end Walking

/-- **The walk reads the rule.** -/
theorem worldMeet_eq_reading (race : OwnerActRace) (view : StandingView)
    {frontier : WorldFrontier WorldPrivacy} (h : frontier.Acyclic) :
    (worldMeet race view (some frontier) : WithTop PrivacyMeet) = worldReading race view h := by
  simp only [worldMeet, worldReading, ← isEmpty_toList]
  split
  · next hlist => simp [hlist]
  next first rest hlist =>
  rw [if_neg (by simp [hlist])]
  let bound := frontier.live.keys.toFinset.inf (contribution race view h)
  have hmem : ∀ g, g ∈ frontier.live.keys.toFinset ↔ g ∈ frontier.live := fun g => by
    rw [List.mem_toFinset, mem_keys]
  have hbound : ∀ g ∈ frontier.live, bound ≤ contribution race view h g := fun g hg =>
    inf_le ((hmem g).mpr hg)
  obtain ⟨hw, hlive⟩ := Walking.start hlist hbound
  refine loop_rule (fun walk => Walking race view h bound [] walk ∧
      ∀ g ∈ frontier.live, g ∈ walk.visited)
    (fun meet : PrivacyMeet => (meet : WithTop PrivacyMeet) = bound) ?_ ?_ ⟨hw, hlive⟩
  · rintro ⟨meet, visited, pending⟩ walk' ⟨hw, hlive⟩ hstep
    unfold walkStep at hstep
    split at hstep
    · cases hstep
    next next pending hpending =>
    obtain rfl := Sum.inl.inj hstep
    obtain rfl : _ = next :: pending := hpending
    have hlive' : ∀ g, g ∉ (⟨meet, visited, pending⟩ : WorldWalk).visited →
        frontier.live[g]? = none := fun g hg =>
      getElem?_eq_none fun hin => hg (hlive g hin)
    obtain ⟨hw', hgrow⟩ := Walking.lookBehind hw hlive'
    exact ⟨hw', fun g hg => hgrow (hlive g hg)⟩
  · rintro walk meet ⟨hw, hlive⟩ hstep
    unfold walkStep at hstep
    split at hstep
    · next hpending =>
      obtain rfl := Sum.inr.inj hstep
      refine (Finset.le_inf fun g hg => ?_).antisymm hw.sound
      exact hw.le_contribution hpending g (hlive g ((hmem g).mp hg))
    · cases hstep

/-! ## What a chain of edits reads -/

section Chain

variable (race : OwnerActRace) (view : StandingView) (frontier : WorldFrontier WorldPrivacy)

/-- An edit not at full strength is read through to what it replaced. -/
def ReadThrough (hash old : Bytes32) : Prop :=
  ∃ edit, frontier.choiceOf hash = some edit ∧ fullStrength race hash edit view = false ∧
    old ∈ edit.replaced

/-- Reads no wider than any edit a chain of edits comes down to, nor than the default where the chain
meets it. -/
def WithinChain (read : PrivacyMeet) (hash : Bytes32) : Prop :=
  ∀ g edit, Relation.ReflTransGen (ReadThrough race view frontier) hash g →
    frontier.choiceOf g = some edit →
    read.effective.Within edit.own.effective ∧
      (fullStrength race g edit view = false → edit.meetsDefault →
        read.effective.Within defaultMeet.effective)

variable {race view frontier} {h : frontier.Acyclic}

/-- **No chain widens.** -/
theorem withinChain_of_le {read : PrivacyMeet}
    (hread : (read : WithTop PrivacyMeet) ≤ contribution race view h hash) :
    WithinChain race view frontier read hash := by
  intro g edit hchain hedit
  have hle : (read : WithTop PrivacyMeet) ≤ contribution race view h g := by
    induction hchain generalizing edit with
    | refl => exact hread
    | tail _ hstep ih =>
      obtain ⟨above, habove, hweak, hold⟩ := hstep
      exact (((le_contribution_iff habove).mp (ih above habove)).2 hweak).2 _ hold
  obtain ⟨hown, hrest⟩ := (le_contribution_iff hedit).mp hle
  refine ⟨PrivacyMeet.effective_within (WithTop.coe_le_coe.mp hown), fun hweak hdefault => ?_⟩
  have hfloor := (hrest hweak).1
  rw [FrontierEdit.floor, if_pos hdefault] at hfloor
  exact PrivacyMeet.effective_within (WithTop.coe_le_coe.mp hfloor)

end Chain

/-- **A world's settings are its rule, read edit by edit**: the walk gives the meet of every live
edit's contribution, an edit contributes as the rule says, no chain of weak or raced edits reads wider
in any dimension than what it comes down to, and meets are a semilattice. -/
theorem world_meet_is_recursive_reading (race : OwnerActRace) (view : StandingView)
    {frontier : WorldFrontier WorldPrivacy} (h : frontier.Acyclic) :
    worldMeet race view none = defaultMeet ∧
      (worldMeet race view (some frontier) : WithTop PrivacyMeet) = worldReading race view h ∧
      (∀ hash edit, frontier.choiceOf hash = some edit → contribution race view h hash =
        if fullStrength race hash edit view then (edit.own : WithTop PrivacyMeet)
        else edit.own ⊓
          (if edit.replaced.isEmpty || edit.disputed then (defaultMeet : WithTop PrivacyMeet)
            else ⊤) ⊓
          edit.replaced.toList.toFinset.inf (contribution race view h)) ∧
      (∀ hash ∈ frontier.live,
        WithinChain race view frontier (worldMeet race view (some frontier)) hash) ∧
      (∀ hash (read : PrivacyMeet), (read : WithTop PrivacyMeet) = contribution race view h hash →
        WithinChain race view frontier read hash) ∧
      (∀ a b : PrivacyMeet, a.meet b = b.meet a) ∧
      (∀ a b c : PrivacyMeet, (a.meet b).meet c = a.meet (b.meet c)) ∧
      ∀ a : PrivacyMeet, a.meet a = a := by
  refine ⟨rfl, worldMeet_eq_reading race view h, fun _ _ => contribution_of_some h,
    fun hash hlive => ?_, fun hash read hread => withinChain_of_le hread.le,
    PrivacyMeet.meet_comm, PrivacyMeet.meet_assoc, PrivacyMeet.meet_self⟩
  refine withinChain_of_le (h := h) ?_
  have hin : hash ∈ frontier.live.keys.toFinset := by
    rwa [List.mem_toFinset, mem_keys]
  rw [worldMeet_eq_reading race view h, worldReading, if_neg]
  · exact inf_le hin
  · rw [ExtTreeMap.isEmpty_iff]
    rintro hempty
    exact not_mem_empty (hempty ▸ hlive)

/-- A world one edit kept on one machine, and a later one opened. -/
def reopened : WorldFrontier WorldPrivacy where
  live := (∅ : OrderedMap Bytes32 WorldEdit).insert (.of 2)
    ⟨.default, .filled 2, .of 2, {.of 1}, false, ∅, false, false⟩
  superseded := (∅ : OrderedMap Bytes32 WorldEdit).insert (.of 1)
    ⟨⟨.oneMachine (.filled 1), .off, .inherit⟩, .filled 1, .of 1, ∅, false, ∅, false, false⟩

theorem reopened_acyclic : reopened.Acyclic := by
  have hreplaces : ∀ old new, reopened.Replaces old new → old = .of 1 ∧ new = .of 2 := by
    rintro old new ⟨edit, hedit, hold⟩
    simp only [WorldFrontier.choiceOf, reopened, getElem?_insert,
      getElem?_empty, LawfulEqCmp.compare_eq_iff_eq] at hedit
    split at hedit
    · next hnew =>
      obtain rfl := some.inj hedit
      exact ⟨(LawfulEqOrd.eq_of_compare (by simpa using hold)).symm, hnew.symm⟩
    · split at hedit
      · obtain rfl := some.inj hedit
        exact absurd hold ExtTreeSet.not_mem_empty
      · cases hedit
  intro hash hcycle
  obtain ⟨next, hfirst, -⟩ := (Relation.TransGen.head'_iff).mp hcycle
  obtain ⟨last, -, hlast⟩ := (Relation.TransGen.tail'_iff).mp hcycle
  have hsame : Bytes32.of 1 = .of 2 :=
    (hreplaces _ _ hfirst).1.symm.trans (hreplaces _ _ hlast).2
  exact absurd (congrArg Bytes32.asBytes hsame) (by decide)

theorem world_meet_is_recursive_reading_reopened :
    (worldMeet (fun _ _ _ _ _ => false) .install (some reopened) : WithTop PrivacyMeet) =
      worldReading (fun _ _ _ _ _ => false) .install reopened_acyclic :=
  (world_meet_is_recursive_reading _ _ reopened_acyclic).2.1

end Oneiron
