import Oneiron.Authority.OwnerChoice

/-!
# Authority/OwnerChoiceRuns — choices landed and merged over a DAG of entries

    Sound      a replaced choice is superseded, and in the past of what replaced it;
               a superseded choice was replaced

Every landing and every merge keeps a register sound (`Folded.sound`).  So what is live is what no
kept choice descends from, merging is a join, and the heads the walk back starts from are the newest
counted choices there are.
-/

open Std

namespace Oneiron

open FrontierEdit WorldFrontier OwnerChoiceState Relation.TransGen

open Std.ExtTreeMap Option

variable {P : Type}

/-- A DAG of owner choices: what each entry's hash commits to, and what is in each entry's past. -/
structure ChoiceDag (P : Type) where
  target : Bytes32 → EntityId
  content : WorldFrontier.Content (SignedOwnerChoice P)
  /-- The first is in the past of the second. -/
  Past : Bytes32 → Bytes32 → Prop
  past_trans : ∀ {a b c}, Past a b → Past b c → Past a c
  past_irrefl : ∀ a, ¬ Past a a

/-- A register some choices of a DAG were folded into. -/
structure ChoiceFrontierSound (dag : ChoiceDag P) (frontier : ChoiceFrontier P) : Prop where
  committed : frontier.Committed dag.content
  past : ∀ hash edit, frontier.choiceOf hash = some edit → ∀ old ∈ edit.replaced,
    old ∈ frontier.superseded ∧ dag.Past old hash
  replaced : ∀ old ∈ frontier.superseded,
    ∃ hash edit, frontier.choiceOf hash = some edit ∧ old ∈ edit.replaced

namespace WorldFrontier

open ExtTreeSet

variable {S : Type} {frontier : WorldFrontier S} {hash : Bytes32}

theorem mem_superseded_of_choiceOf (h : hash ∈ frontier.superseded) :
    frontier.choiceOf hash ≠ none := by
  rw [mem_iff_isSome_getElem?, isSome_iff_exists] at h
  obtain ⟨edit, hedit⟩ := h
  unfold choiceOf
  rw [hedit]
  cases frontier.live[hash]? <;> exact nofun

variable (edit : OrderedSet Bytes32 → FrontierEdit S)

theorem getElem?_superseded_supersede (old : Bytes32) :
    (frontier.supersede hash edit).superseded[old]? = frontier.choiceOf old := by
  rw [supersede, OrderedMap.foldl_at (fun (m : OrderedMap Bytes32 (FrontierEdit S)) k => m[k]?) _
    (fun _ _ v => some v) (fun m k v => getElem?_insert_self)
    (fun m k v j h => by simp [getElem?_insert, h.symm])]
  unfold choiceOf
  cases frontier.live[old]? <;> rfl

theorem choiceOf_supersede (old : Bytes32) : (frontier.supersede hash edit).choiceOf old =
      if hash = old then some (edit (ofList frontier.live.keys))
      else frontier.choiceOf old := by
  rw [choiceOf, getElem?_superseded_supersede, supersede, getElem?_insert]
  simp only [LawfulEqCmp.compare_eq_iff_eq, getElem?_empty]
  split <;> rfl

variable [DecidableEq S] {content : Content S} {f g : WorldFrontier S}

theorem Committed.mem_superseded_merge (hf : Committed content f) (hg : Committed content g) :
    hash ∈ (f.merge g).superseded ↔ hash ∈ f.superseded ∨ hash ∈ g.superseded := by
  have hmem : ∀ k : WorldFrontier S,
      hash ∈ k.superseded ↔ ∃ edit, k.seat hash = some (true, edit) := by
    intro k
    simp only [seat_eq_some_true, mem_iff_isSome_getElem?, isSome_iff_exists]
  rw [hmem, hmem, hmem, hf.seat_merge hg]
  rcases f.seat hash with _ | ⟨_ | _, a⟩ <;> rcases g.seat hash with _ | ⟨_ | _, b⟩ <;>
    simp [meetSeat]

end WorldFrontier

namespace ChoiceFrontierSound

open WorldFrontier

variable {dag : ChoiceDag P} {f g : ChoiceFrontier P}

variable {new hash old : Bytes32}

/-- **A landing** supersedes exactly the live choices. -/
theorem supersede (h : ChoiceFrontierSound dag f) {settings : SignedOwnerChoice P}
    {machine : EntityId} {key : Bytes32} (narrowOnly : Bool) (marks : AdmitterMarks)
    (restrictionOnly : Bool) (hcontent : dag.content hash = (settings, machine, key))
    (hpast : ∀ old ∈ f.kept, dag.Past old hash) :
    ChoiceFrontierSound dag (f.supersede hash fun replaced =>
      ⟨settings, machine, key, replaced, narrowOnly, marks, restrictionOnly, false⟩) := by
  have hfresh : f.choiceOf hash = none := by
    by_contra hkept
    exact dag.past_irrefl hash (hpast hash (f.mem_kept.mpr hkept))
  have hsuperseded : ∀ old edit, old ∈ (f.supersede hash edit).superseded ↔
      f.choiceOf old ≠ none := fun old edit => by
    rw [mem_iff_isSome_getElem?, getElem?_superseded_supersede,
      isSome_iff_ne_none]
  have hreplaced : ∀ old, old ∈ ExtTreeSet.ofList f.live.keys ↔ old ∈ f.live := fun old => by
    rw [ExtTreeSet.mem_ofList, List.contains_iff_mem, mem_keys]
  refine ⟨⟨fun old => ?_, fun old edit hedit => ?_⟩, fun new edit hedit old hold => ?_,
    fun old hold => ?_⟩
  · by_cases hold : hash = old
    · right
      rw [getElem?_superseded_supersede, ← hold, hfresh]
    · left
      rw [WorldFrontier.supersede, getElem?_insert]
      simp [hold]
  · rw [mem_def, choiceOf_supersede] at hedit
    split at hedit
    · next heq =>
      obtain rfl := some.inj hedit
      subst heq
      exact ⟨by rw [hcontent], by rw [hcontent], by rw [hcontent]⟩
    · exact h.committed.states old edit hedit
  · rw [hsuperseded]
    rw [choiceOf_supersede] at hedit
    split at hedit
    · next heq =>
      obtain rfl := some.inj hedit
      have hlive : f.choiceOf old ≠ none := by
        obtain ⟨e, he⟩ := isSome_iff_exists.mp
          (mem_iff_isSome_getElem?.mp ((hreplaced old).mp hold))
        rw [choiceOf, he]
        exact some_ne_none _
      exact ⟨hlive, heq ▸ hpast old (f.mem_kept.mpr hlive)⟩
    · obtain ⟨hold, hbefore⟩ := h.past new edit hedit old hold
      exact ⟨mem_superseded_of_choiceOf hold, hbefore⟩
  · rw [hsuperseded] at hold
    by_cases hlive : old ∈ f.live
    · exact ⟨hash, _, by rw [choiceOf_supersede, if_pos rfl], (hreplaced old).mpr hlive⟩
    · have hin : old ∈ f.superseded := by
        rw [choiceOf, getElem?_eq_none hlive] at hold
        rw [mem_iff_isSome_getElem?, isSome_iff_ne_none]
        exact fun hnone => hold (by rw [hnone]; rfl)
      obtain ⟨new, edit, hedit, hmem⟩ := h.replaced old hin
      refine ⟨new, edit, ?_, hmem⟩
      rw [choiceOf_supersede, if_neg]
      · exact hedit
      · intro heq
        cases (heq ▸ hfresh).symm.trans hedit

variable [DecidableEq P]

/-- **A merge** joins what each side superseded. -/
theorem merge (hf : ChoiceFrontierSound dag f) (hg : ChoiceFrontierSound dag g) :
    ChoiceFrontierSound dag (f.merge g) := by
  have hmem : ∀ old, old ∈ (f.merge g).superseded ↔ old ∈ f.superseded ∨ old ∈ g.superseded :=
    fun old => hf.committed.mem_superseded_merge hg.committed
  have hchoice := hf.committed.choiceOf_merge hg.committed
  refine ⟨hf.committed.merge hg.committed, fun hash edit hedit old hold => ?_, fun old hold => ?_⟩
  · rw [hchoice, merge_eq_some_iff] at hedit
    rw [hmem]
    rcases hedit with ⟨hedit, -⟩ | ⟨-, hedit⟩ | ⟨a, b, ha, hb, rfl⟩
    · exact (hf.past hash edit hedit old hold).imp_left .inl
    · exact (hg.past hash edit hedit old hold).imp_left .inr
    · rw [meet_eq_meetCopies, FrontierEdit.meetCopies, ExtTreeSet.mem_union_iff] at hold
      rcases hold with hold | hold
      · exact (hf.past hash a ha old hold).imp_left .inl
      · exact (hg.past hash b hb old hold).imp_left .inr
  · -- a copy met with another replaced at least as much
    have hkeeps : ∀ (hash : Bytes32) (edit : OwnerChoiceEdit P), old ∈ edit.replaced →
        f.choiceOf hash = some edit ∨ g.choiceOf hash = some edit →
        ∃ edit', (f.merge g).choiceOf hash = some edit' ∧ old ∈ edit'.replaced := by
      intro hash edit hin hedit
      rw [hchoice]
      rcases hedit with hedit | hedit <;> rw [hedit]
      · cases g.choiceOf hash with
        | none => exact ⟨edit, rfl, hin⟩
        | some b =>
          refine ⟨_, rfl, ?_⟩
          rw [meet_eq_meetCopies]
          exact mem_union_of_left hin
      · cases f.choiceOf hash with
        | none => exact ⟨edit, rfl, hin⟩
        | some a =>
          refine ⟨_, rfl, ?_⟩
          rw [meet_eq_meetCopies]
          exact mem_union_of_right hin
    rcases (hmem old).mp hold with hold | hold
    · obtain ⟨hash, edit, hedit, hin⟩ := hf.replaced old hold
      exact ⟨hash, hkeeps hash edit hin (.inl hedit)⟩
    · obtain ⟨hash, edit, hedit, hin⟩ := hg.replaced old hold
      exact ⟨hash, hkeeps hash edit hin (.inr hedit)⟩

/-! ## What descends from what -/

omit [DecidableEq P] in
theorem mem_replacedBy : old ∈ f.replacedBy new ↔
    ∃ edit, f.choiceOf new = some edit ∧ old ∈ edit.replaced := by
  unfold replacedBy
  cases f.choiceOf new with
  | none | some edit => simp

omit [DecidableEq P] in
theorem past_of_descends (h : ChoiceFrontierSound dag f) (hdescends : Descends f new old) :
    dag.Past old new := by
  have hstep : ∀ {new old}, old ∈ f.replacedBy new → dag.Past old new := fun hold => by
    obtain ⟨edit, hedit, hin⟩ := mem_replacedBy.mp hold
    exact (h.past _ edit hedit _ hin).2
  induction hdescends with
  | single hold => exact hstep hold
  | tail _ hold ih => exact dag.past_trans (hstep hold) ih

omit [DecidableEq P] in
theorem descends_irrefl (h : ChoiceFrontierSound dag f) (hash : Bytes32) :
    ¬ Descends f hash hash := fun hself => dag.past_irrefl hash (h.past_of_descends hself)

omit [DecidableEq P] in
theorem kept_of_descends (h : Descends f new old) : new ∈ f.kept := by
  obtain ⟨next, hnext, -⟩ := head'_iff.mp h
  obtain ⟨edit, hedit, -⟩ := mem_replacedBy.mp hnext
  exact f.mem_kept.mpr (by rw [hedit]; exact nofun)

omit [DecidableEq P] in
/-- **What is live** is what no kept choice descends from. -/
theorem mem_live_iff (h : ChoiceFrontierSound dag f) (hash : Bytes32) :
    hash ∈ f.live ↔ hash ∈ Newest (Descends f) {a | a ∈ f.kept} := by
  constructor
  · intro hlive
    obtain ⟨edit, hedit⟩ := isSome_iff_exists.mp (mem_iff_isSome_getElem?.mp hlive)
    refine ⟨f.mem_kept.mpr (by rw [choiceOf, hedit]; exact some_ne_none _), fun new _ hdescends => ?_⟩
    obtain ⟨last, -, hlast⟩ := tail'_iff.mp hdescends
    obtain ⟨later, hlater, hin⟩ := mem_replacedBy.mp hlast
    have hsuperseded := (h.past last later hlater hash hin).1
    rcases h.committed.apart hash with hnone | hnone
    · cases hnone.symm.trans hedit
    · rw [mem_iff_isSome_getElem?, hnone] at hsuperseded
      cases hsuperseded
  · rintro ⟨hkept, hnewest⟩
    by_contra hlive
    have hin : hash ∈ f.superseded := by
      have hchoice := f.mem_kept.mp hkept
      rw [choiceOf, getElem?_eq_none hlive] at hchoice
      rw [mem_iff_isSome_getElem?, isSome_iff_ne_none]
      exact fun hnone => hchoice (by rw [hnone]; rfl)
    obtain ⟨new, edit, hedit, hmem⟩ := h.replaced hash hin
    have hdescends : Descends f new hash := .single (mem_replacedBy.mpr ⟨edit, hedit, hmem⟩)
    exact hnewest new (kept_of_descends hdescends) hdescends

omit [DecidableEq P] in
theorem kept_of_counted {race : OwnerActRace} (h : counted race f hash) : hash ∈ f.kept := by
  rw [f.mem_kept]
  intro hnone
  rw [counted, hnone] at h
  exact nomatch h

omit [DecidableEq P] in
theorem newest_counted (h : ChoiceFrontierSound dag f) (race : OwnerActRace) {a : Bytes32}
    (ha : counted race f a) : a ∈ Newest (Descends f) {a | counted race f a} ∨
      ∃ b ∈ Newest (Descends f) {a | counted race f a}, Descends f b a :=
  newest_or_below (f.kept.finite_toSet.subset fun _ hb => kept_of_counted hb) h.descends_irrefl
    (fun _ _ _ => trans) ha

omit [DecidableEq P] in
/-- **What stands for the live choices** is the newest counted ones. -/
theorem mem_standingHeads_live (h : ChoiceFrontierSound dag f) (race : OwnerActRace)
    (hash : Bytes32) : hash ∈ standingHeads race f f.live.keys ↔
      hash ∈ Newest (Descends f) {a | counted race f a} := by
  -- down to a newest counted choice, nothing above it counts
  have hreached : ∀ a ∈ Newest (Descends f) {a | counted race f a},
      ∃ r ∈ f.live.keys, Leads (behind race f) r a := by
    rintro a ⟨hcounted, hnewest⟩
    have hkept : a ∈ f.kept := kept_of_counted hcounted
    obtain ⟨r, hr, hleads⟩ : ∃ r, r ∈ f.live ∧ Leads f.replacedBy r a := by
      rcases newest_or_below f.kept.finite_toSet h.descends_irrefl
        (fun _ _ _ => trans) hkept with hlive | ⟨r, hr, hdescends⟩
      · exact ⟨a, (h.mem_live_iff a).mpr hlive, .refl⟩
      · exact ⟨r, (h.mem_live_iff r).mpr hr, hdescends.to_reflTransGen⟩
    refine ⟨r, mem_keys.mpr hr, ?_⟩
    clear hr
    induction hleads using Relation.ReflTransGen.head_induction_on with
    | refl => exact .refl
    | @head new old hold hrest ih =>
      have hover : counted race f new = false := by
        rw [← Bool.not_eq_true]
        exact fun hnew => hnewest new hnew (.head' hold hrest)
      refine .head ?_ ih
      rw [behind, hover]
      exact hold
  rw [mem_standingHeads]
  constructor
  · rintro ⟨⟨hcounted, -⟩, hnewest⟩
    refine ⟨hcounted, fun b hb hdescends => ?_⟩
    rcases h.newest_counted race hb with hb | ⟨top, htop, hover⟩
    · exact hnewest b ⟨hb.1, hreached b hb⟩ hdescends
    · exact hnewest top ⟨htop.1, hreached top htop⟩ (hover.trans hdescends)
  · intro hin
    exact ⟨⟨hin.1, hreached hash hin⟩, fun b hb => hin.2 b hb.1⟩

end ChoiceFrontierSound

/-! ## The walk back -/

section WalkBack

variable {race : OwnerActRace} {frontier : ChoiceFrontier P}

/-- What a kept choice chose. -/
def choiceAt (frontier : ChoiceFrontier P) (hash : Bytes32) : Option (Option P) :=
  (frontier.choiceOf hash).map (·.settings.choice)

/-- Lower in the order of hashes, or the same. -/
def Lower (a b : Bytes32) : Prop := (compare a b).isLE

/-- What the walk back comes to, from the heads it started at. -/
structure WalkedBack [DecidableEq P] (race : OwnerActRace) (frontier : ChoiceFrontier P)
    (heads : OrderedSet Bytes32) (b : Option Bytes32 × OrderedSet Bytes32) : Prop where
  inForce : FallsBack (Descends frontier) {a | counted race frontier a} (choiceAt frontier) Lower
    {a | a ∈ heads} b.1
  conflict : b.2 = ∅ ∧ (∀ a ∈ heads, ∀ a' ∈ heads, choiceAt frontier a = choiceAt frontier a') ∨
    b.2 = heads ∧ ∃ a ∈ heads, ∃ a' ∈ heads, choiceAt frontier a ≠ choiceAt frontier a'

variable [DecidableEq P]

/-- **One turn of the walk back**: no heads, heads that agree, or heads that differ. -/
theorem inForceStep_cases {s : OrderedSet Bytes32 × OrderedSet Bytes32}
    (hcounted : ∀ a ∈ s.1, counted race frontier a) :
    (s.1 = ∅ ∧ inForceStep race frontier s = .inr (none, s.2)) ∨
    (∃ a ∈ s.1, (∀ b ∈ s.1, Lower a b) ∧ (∀ b ∈ s.1, choiceAt frontier b = choiceAt frontier a) ∧
      inForceStep race frontier s = .inr (some a, s.2)) ∨
    ((∃ a ∈ s.1, ∃ b ∈ s.1, choiceAt frontier a ≠ choiceAt frontier b) ∧
      inForceStep race frontier s =
        .inl (standingHeads race frontier (commonAncestors frontier s.1).toList,
          if s.2.isEmpty then s.1 else s.2)) := by
  have hkept : ∀ a ∈ s.1, ∃ choice, choiceAt frontier a = some choice := by
    intro a ha
    obtain ⟨edit, hedit⟩ := ne_none_iff_exists'.mp
      (frontier.mem_kept.mp (ChoiceFrontierSound.kept_of_counted (hcounted a ha)))
    exact ⟨edit.settings.choice, by rw [choiceAt, hedit]; rfl⟩
  have hmem : ∀ choice, choice ∈ s.1.toList.filterMap (choiceAt frontier) ↔
      ∃ a ∈ s.1, choiceAt frontier a = some choice := fun choice => by
    simp only [List.mem_filterMap, ExtTreeSet.mem_toList]
  rw [inForceStep, show (fun hash => (frontier.choiceOf hash).map (·.settings.choice)) =
    choiceAt frontier from rfl]
  rcases hchoices : s.1.toList.filterMap (choiceAt frontier) with _ | ⟨first, rest⟩
  · refine .inl ⟨?_, rfl⟩
    by_contra hheads
    obtain ⟨a, ha⟩ := OrderedSet.exists_mem hheads
    obtain ⟨choice, hchoice⟩ := hkept a ha
    exact absurd ((hmem choice).mpr ⟨a, ha, hchoice⟩) (hchoices ▸ List.not_mem_nil)
  · rw [hchoices] at hmem
    dsimp only
    right
    split
    · next hsame =>
      have hfirst : ∀ a ∈ s.1, choiceAt frontier a = some first := by
        intro a ha
        obtain ⟨choice, hchoice⟩ := hkept a ha
        rcases List.mem_cons.mp ((hmem choice).mpr ⟨a, ha, hchoice⟩) with rfl | hrest
        · exact hchoice
        · rw [hchoice, hsame choice hrest]
      have hsorted : s.1.toList.Pairwise fun a b => compare a b = .lt := ExtTreeSet.ordered_toList
      rcases hlist : s.1.toList with _ | ⟨a, more⟩
      · rw [hlist] at hchoices
        cases hchoices
      · rw [hlist, List.pairwise_cons] at hsorted
        have ha : a ∈ s.1 := ExtTreeSet.mem_toList.mp (hlist ▸ List.mem_cons_self)
        refine .inl ⟨a, ha, fun b hb => ?_, fun b hb => ?_, rfl⟩
        · rcases List.mem_cons.mp (hlist ▸ ExtTreeSet.mem_toList.mpr hb) with rfl | hb
          · rw [Lower, ReflOrd.compare_self]
            rfl
          · rw [Lower, hsorted.1 b hb]
            rfl
        · rw [hfirst a ha, hfirst b hb]
    · next hdiffer =>
      refine .inr ⟨?_, rfl⟩
      push Not at hdiffer
      obtain ⟨choice, hin, hne⟩ := hdiffer
      obtain ⟨a, ha, hfirst⟩ := (hmem first).mp List.mem_cons_self
      obtain ⟨b, hb, hchoice⟩ := (hmem choice).mp (List.mem_cons_of_mem _ hin)
      refine ⟨a, ha, b, hb, ?_⟩
      rw [hfirst, hchoice]
      exact fun heq => hne (some.inj heq).symm

/-- **The walk back falls back** from the heads that stand for the live choices. -/
theorem inForce_walkedBack (race : OwnerActRace) (frontier : ChoiceFrontier P) :
    WalkedBack race frontier (standingHeads race frontier frontier.live.keys)
      (inForce race frontier) := by
  generalize hstart : standingHeads race frontier frontier.live.keys = start
  let Falls (heads : OrderedSet Bytes32) (answer : Option Bytes32) : Prop :=
    FallsBack (Descends frontier) {a | counted race frontier a} (choiceAt frontier) Lower
      {a | a ∈ heads} answer
  let Differ (heads : OrderedSet Bytes32) : Prop :=
    ∃ a ∈ heads, ∃ a' ∈ heads, choiceAt frontier a ≠ choiceAt frontier a'
  rw [inForce, hstart]
  refine loop_rule (fun s => (∀ answer, Falls s.1 answer → Falls start answer) ∧
      (∀ a ∈ s.1, counted race frontier a) ∧ (s = (start, ∅) ∨ s.2 = start ∧ Differ start))
    (WalkedBack race frontier start) ?_ ?_ ⟨fun _ h => h, ?_, .inl rfl⟩
  · rintro ⟨heads, conflict⟩ s' ⟨hfalls, hcounted, hconflict⟩ hstep
    rcases inForceStep_cases hcounted with ⟨-, h⟩ | ⟨a, -, -, -, h⟩ | ⟨hdiffer, h⟩
    · exact nomatch h.symm.trans hstep
    · exact nomatch h.symm.trans hstep
    obtain rfl := Sum.inl.inj (h.symm.trans hstep)
    obtain ⟨a, ha, b, hb, hne⟩ := hdiffer
    have hheads : heads ≠ ∅ := fun hempty => not_mem_empty (hempty ▸ ha)
    have hnewest := mem_standingHeads_common race frontier hheads
    refine ⟨fun answer hanswer => hfalls answer (.back ha hb hne ?_), fun c hc => ?_, .inr ?_⟩
    · have hset : {c | c ∈ standingHeads race frontier (commonAncestors frontier heads).toList} =
          Newest (Descends frontier)
            ({c | counted race frontier c} ∩ Common (Descends frontier) {c | c ∈ heads}) :=
        Set.ext hnewest
      exact hset ▸ hanswer
    · exact ((hnewest c).mp hc).1.1
    · rcases hconflict with heq | ⟨heq, hstart⟩
      · obtain ⟨rfl, rfl⟩ := Prod.mk.inj heq
        exact ⟨rfl, a, ha, b, hb, hne⟩
      · obtain ⟨c, hc, -⟩ := id hstart
        have hfull : conflict ≠ ∅ := fun hempty =>
          not_mem_empty (hempty ▸ heq.symm ▸ hc)
        exact ⟨(if_neg (mt ExtTreeSet.isEmpty_iff.mp hfull)).trans heq, hstart⟩
  · rintro ⟨heads, conflict⟩ b ⟨hfalls, hcounted, hconflict⟩ hstep
    rcases inForceStep_cases hcounted with ⟨hempty, h⟩ | ⟨a, ha, hlower, hsame, h⟩ | ⟨-, h⟩
    · obtain rfl := Sum.inr.inj (h.symm.trans hstep)
      obtain rfl : heads = ∅ := hempty
      have hset : {a | a ∈ (∅ : OrderedSet Bytes32)} = ∅ :=
        Set.eq_empty_of_forall_notMem fun _ => not_mem_empty
      have hnone : Falls ∅ none := by
        simp only [Falls, hset]
        exact .none
      refine ⟨hfalls none hnone, hconflict.imp (fun heq => ?_) fun hlater => hlater⟩
      obtain ⟨rfl, rfl⟩ := Prod.mk.inj heq
      exact ⟨rfl, fun a ha => absurd ha (Set.eq_empty_iff_forall_notMem.mp hset a)⟩
    · obtain rfl := Sum.inr.inj (h.symm.trans hstep)
      refine ⟨hfalls (some a) (.agree ha hlower hsame),
        hconflict.imp (fun heq => ?_) fun hlater => hlater⟩
      obtain ⟨rfl, rfl⟩ := Prod.mk.inj heq
      exact ⟨rfl, fun b hb c hc => (hsame b hb).trans (hsame c hc).symm⟩
    · exact nomatch h.symm.trans hstep
  · intro a ha
    rw [← hstart, mem_standingHeads] at ha
    exact ha.1.1

end WalkBack

/-! ## The states of a fold -/

section Fold

variable [DecidableEq P]

/-- A landing of one of the DAG's choices: whatever its carrier's standing made of it, it lands on a
state of its past. -/
def Lands (dag : ChoiceDag P) (state : OwnerChoiceState P) : OwnerChoiceLanding P → Prop
  | .refused _ => True
  | .recorded target hash settings machine key _ _ _ =>
    target = dag.target hash ∧ dag.content hash = (settings, machine, key) ∧
      ∀ old ∈ (state.frontiers[target]?.getD ∅).kept, dag.Past old hash

/-- **Every way of forking and merging**: the states choices of a DAG may be folded into. -/
inductive Folded (dag : ChoiceDag P) : OwnerChoiceState P → Prop where
  | start : Folded dag ∅
  | land {state : OwnerChoiceState P} {landing : OwnerChoiceLanding P} (h : Folded dag state)
      (hlands : Lands dag state landing) : Folded dag (state.land landing)
  | merge {left right : OwnerChoiceState P} (hleft : Folded dag left) (hright : Folded dag right) :
      Folded dag (left.merge right)

/-- Every target's register is sound. -/
def OwnerChoiceState.Sound (dag : ChoiceDag P) (state : OwnerChoiceState P) : Prop :=
  ∀ (target : EntityId) (frontier : ChoiceFrontier P), state.frontiers[target]? = some frontier →
    ChoiceFrontierSound dag frontier

namespace OwnerChoiceState

variable {dag : ChoiceDag P} {s t u : OwnerChoiceState P}

omit [DecidableEq P] in
theorem ext_frontiers (hfrontiers : ∀ target : EntityId, s.frontiers[target]? = t.frontiers[target]?)
    (hrefused : s.refused = t.refused) : s = t := by
  cases s
  cases t
  congr
  exact ext_getElem? hfrontiers

omit [DecidableEq P] in
theorem sound_empty (dag : ChoiceDag P) : ChoiceFrontierSound dag (∅ : ChoiceFrontier P) :=
  ⟨⟨fun _ => .inl rfl, fun _ _ h => absurd h (not_mem_none _)⟩,
    fun _ _ h => absurd h (not_mem_none _),
    fun _ h => absurd h not_mem_empty⟩

theorem getElem?_merge (hright : t.Sound dag) (target : EntityId) :
    (s.merge t).frontiers[target]? =
      Option.merge WorldFrontier.merge s.frontiers[target]? t.frontiers[target]? := by
  rw [merge, mergeFrontiers, OrderedMap.foldl_at
    (fun (m : OrderedMap EntityId (ChoiceFrontier P)) k => m[k]?) _
    (fun _ held v => some ((held.getD ∅).merge v)) (fun m k v => getElem?_insert_self)
    (fun m k v j h => by simp [getElem?_insert, h.symm])]
  cases hr : t.frontiers[target]? with
  | none => simp
  | some right =>
    cases s.frontiers[target]? with
    | none => simp [empty_merge (hright target right hr).committed]
    | some left => simp

theorem Sound.merge (hs : s.Sound dag) (ht : t.Sound dag) : (s.merge t).Sound dag := by
  intro target frontier hfrontier
  rw [getElem?_merge ht, merge_eq_some_iff] at hfrontier
  rcases hfrontier with ⟨h, -⟩ | ⟨-, h⟩ | ⟨a, b, ha, hb, rfl⟩
  · exact hs target frontier h
  · exact ht target frontier h
  · exact (hs target a ha).merge (ht target b hb)

/-- **Merging states is a join.** -/
theorem merge_laws (dag : ChoiceDag P) : MergeLaws (Sound dag) merge where
  closed := Sound.merge
  comm {s t} hs ht := ext_frontiers (fun target => by
    rw [getElem?_merge ht, getElem?_merge hs]
    cases ha : s.frontiers[target]? <;> cases hb : t.frontiers[target]? <;> simp
    exact (WorldFrontier.merge_laws dag.content).comm (hs target _ ha).committed
      (ht target _ hb).committed) (union_comm _ _)
  assoc {s t u} hs ht hu := ext_frontiers (fun target => by
    rw [getElem?_merge hu, getElem?_merge ht, getElem?_merge (ht.merge hu), getElem?_merge hu]
    cases ha : s.frontiers[target]? <;> cases hb : t.frontiers[target]? <;>
      cases hc : u.frontiers[target]? <;> simp
    exact (WorldFrontier.merge_laws dag.content).assoc (hs target _ ha).committed
      (ht target _ hb).committed (hu target _ hc).committed) (union_assoc _ _ _)
  self {s} hs := ext_frontiers (fun target => by
    rw [getElem?_merge hs]
    cases ha : s.frontiers[target]? <;> simp
    exact (WorldFrontier.merge_laws dag.content).self (hs target _ ha).committed)
    (union_self _)

end OwnerChoiceState

/-- **Every state of a fold is sound.** -/
theorem Folded.sound {dag : ChoiceDag P} {state : OwnerChoiceState P} (h : Folded dag state) :
    state.Sound dag := by
  induction h with
  | start => exact fun target _ h => nomatch (getElem?_empty (a := target)).symm.trans h
  | merge _ _ ihl ihr => exact ihl.merge ihr
  | @land state landing _ hlands ih =>
    cases landing with
    | refused hash => exact ih
    | recorded target hash settings machine key narrowOnly marks restrictionOnly =>
      obtain ⟨-, hcontent, hpast⟩ := hlands
      have hbefore : ChoiceFrontierSound dag (state.frontiers[target]?.getD ∅) := by
        cases hfrontier : state.frontiers[target]? with
        | none => exact sound_empty dag
        | some frontier => exact ih target frontier hfrontier
      intro other frontier hfrontier
      simp only [OwnerChoiceState.land, getElem?_insert] at hfrontier
      split at hfrontier
      · obtain rfl := some.inj hfrontier
        exact hbefore.supersede narrowOnly marks restrictionOnly hcontent hpast
      · exact ih other frontier hfrontier

/-- A target's choice in force, and what conflicts there. -/
def OwnerChoiceState.inForceAt (state : OwnerChoiceState P) (race : OwnerActRace)
    (target : EntityId) : Option (Option Bytes32 × OrderedSet Bytes32) :=
  state.frontiers[target]?.map (inForce race ·)

/-- **The owner-choice register**, however its choices are forked and merged: merging is a join and
leaves live what no kept choice descends from; what is in force counts, and is one of the newest
counted choices where they agree, else what falling back from them comes to, which all of them descend
from; and neither the order of merges nor merging a branch again changes it. -/
theorem owner_choice_register (dag : ChoiceDag P) (race : OwnerActRace) :
    MergeLaws (Folded dag) merge ∧
    (∀ state, Folded dag state → ∀ (target : EntityId) (frontier : ChoiceFrontier P),
      state.frontiers[target]? = some frontier →
      (∀ hash, hash ∈ frontier.live ↔
        hash ∈ frontier.kept ∧ ∀ other ∈ frontier.kept, ¬ Descends frontier other hash) ∧
      let heads := Newest (Descends frontier) {a | counted race frontier a}
      let answer := (inForce race frontier).1
      (∀ a ∈ answer, counted race frontier a) ∧
      FallsBack (Descends frontier) {a | counted race frontier a} (choiceAt frontier) Lower heads
        answer ∧
      (∀ b ∈ heads, ∀ c ∈ heads, choiceAt frontier b ≠ choiceAt frontier c →
        ∀ a ∈ answer, ∀ head ∈ heads, Descends frontier head a)) ∧
    (∀ s t : MergeTree (OwnerChoiceState P), (∀ state ∈ s.branches, Folded dag state) →
      (∀ state, state ∈ s.branches ↔ state ∈ t.branches) →
      ∀ target, (s.eval OwnerChoiceState.merge).inForceAt race target =
        (t.eval OwnerChoiceState.merge).inForceAt race target) ∧
    ∀ state branch, Folded dag state → Folded dag branch → ∀ target,
      ((state.merge branch).merge branch).inForceAt race target =
        (state.merge branch).inForceAt race target := by
  have hlaws : MergeLaws (Folded dag) merge :=
    { closed := .merge
      comm := fun hs ht => (merge_laws dag).comm hs.sound ht.sound
      assoc := fun hs ht hu => (merge_laws dag).assoc hs.sound ht.sound hu.sound
      self := fun hs => (merge_laws dag).self hs.sound }
  refine ⟨hlaws, fun state hstate target frontier hfrontier => ?_,
    fun s t hs hsame target => by rw [hlaws.eval_eq hs hsame], fun state branch hs hb target => ?_⟩
  · have hsound := hstate.sound target frontier hfrontier
    have hwalk := (inForce_walkedBack race frontier).inForce
    have hheads : {a | a ∈ standingHeads race frontier frontier.live.keys} =
        Newest (Descends frontier) {a | counted race frontier a} :=
      Set.ext (hsound.mem_standingHeads_live race)
    rw [hheads] at hwalk
    refine ⟨hsound.mem_live_iff, hwalk.counted_of_mem fun a ha => ha.1, hwalk, ?_⟩
    intro b hb c hc hdiffer a ha head hhead
    exact hwalk.common_of_differ (fun _ _ _ => Relation.TransGen.trans) hb hc hdiffer a ha head hhead
  · rw [hlaws.assoc hs hb hb, hlaws.self hb]

end Fold

/-- A DAG whose first entry installs, and whose others revoke or clear it with that entry alone in
their past. -/
def rivalChoices : ChoiceDag Bool where
  target _ := .filled 1
  content hash := (⟨if hash = .of 1 then some true else if hash = .of 2 then some false else none, 0⟩,
    .filled 2, .of 2)
  Past a b := a = .of 1 ∧ b ≠ .of 1
  past_trans h h' := absurd h'.1 h.2
  past_irrefl _ h := h.2 h.1

def rival (b : UInt8) : OwnerChoiceLanding Bool :=
  .recorded (.filled 1) (.of b) (rivalChoices.content (.of b)).1 (.filled 2) (.of 2) false ∅ false

/-- The first choice, a second and a third on it, and the two branches merged. -/
def firstChoice : OwnerChoiceState Bool := land ∅ (rival 1)

theorem folded_rivals (b : UInt8) (hb : Bytes32.of b ≠ .of 1) :
    Folded rivalChoices (land firstChoice (rival b)) := by
  refine .land (.land .start ⟨rfl, rfl, fun old hold => (List.not_mem_nil hold).elim⟩)
    ⟨rfl, rfl, fun old hold => ⟨?_, hb⟩⟩
  revert old
  decide +kernel

/-- …disagree, and fall back to the first choice whatever the order and however often. -/
theorem owner_choice_register_rivals :
    let left := land firstChoice (rival 2)
    let right := land firstChoice (rival 3)
    let seen (s : OwnerChoiceState Bool) := s.inForceAt (fun _ _ _ _ _ => true) (.filled 1)
    (seen (left.merge right)).map (fun a => (a.1, a.2.toList)) = some (some (.of 1), [.of 2, .of 3]) ∧
      seen (right.merge left) = seen (left.merge right) ∧
      seen ((left.merge right).merge right) = seen (left.merge right) := by
  intro left right seen
  obtain ⟨hlaws, -, -, hagain⟩ := owner_choice_register rivalChoices fun _ _ _ _ _ => true
  have hleft := folded_rivals 2 (by decide)
  have hright := folded_rivals 3 (by decide)
  exact ⟨by decide +kernel, congrArg seen (hlaws.comm hright hleft), hagain _ _ hleft hright _⟩

end Oneiron
