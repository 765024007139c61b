import Oneiron.Foundations.StableSort
import Oneiron.MergeQueue.CompositionWeave

/-!
# MergeQueue/CompositionOrder — composing proposals is exact and knows no order

What a composition keeps is one stable sort of all its proposals' runs (`accepted_iff`), and whether
they are accepted is a condition on each two.  Runs of different proposals share no tie, so every
order of the proposals keeps the same.
-/

namespace Oneiron

open List Option ChangedRun

namespace ChangedRun

variable {r s : ChangedRun}

theorem overlaps_comm : r.overlaps s = s.overlaps r := by
  rw [Bool.eq_iff_iff, overlaps, overlaps]
  cases r.isInsertion <;> cases s.isInsertion <;> simp <;> omega

theorem le_trans (r s t : ChangedRun) (h : r.le s = true) (h' : s.le t = true) : r.le t = true := by
  simp only [le, Bool.or_eq_true, Bool.and_eq_true, decide_eq_true_eq] at h h' ⊢
  omega

theorem le_total (r s : ChangedRun) : (r.le s || s.le r) = true := by
  simp only [le, Bool.or_eq_true, Bool.and_eq_true, decide_eq_true_eq]
  omega

/-- Runs that do not overlap are in order as they are sorted, and never tied. -/
theorem of_overlaps_eq_false (hr : r.start ≤ r.stop) (hs : s.start ≤ s.stop)
    (h : r.overlaps s = false) : (r.le s = true → r.stop ≤ s.start) ∧ tied le r s = false := by
  simp only [overlaps, isInsertion, tied, le, Bool.or_eq_true, Bool.and_eq_true, decide_eq_true_eq,
    Bool.and_eq_false_iff, Bool.or_eq_false_iff, decide_eq_false_iff_not] at h ⊢
  split at h <;> simp_all <;> omega

theorem overlaps_eq_false_of_lt (hr : r.start ≤ r.stop) (h : r.stop < s.start) :
    r.overlaps s = false := by
  simp only [overlaps, isInsertion]
  split <;> simp <;> omega

end ChangedRun

namespace LineComposition

/-- The runs of one proposal. -/
def runsOf (diff : List Bytes → List Bytes → List DiffOp) (base postimage : Bytes) : List ChangedRun :=
  (changedRuns diff ⟨base, lineStartsOf base, []⟩ postimage).getD []

/-- All the proposals' runs in base order. -/
def kept (diff : List Bytes → List Bytes → List DiffOp) (base : Bytes) (ps : List Bytes) :
    LineComposition :=
  ⟨base, lineStartsOf base, (ps.flatMap (runsOf diff base)).mergeSort ChangedRun.le⟩

/-- Two proposals of which no runs overlap. -/
def Clear (diff : List Bytes → List Bytes → List DiffOp) (base p q : Bytes) : Prop :=
  ∀ r ∈ runsOf diff base p, ∀ s ∈ runsOf diff base q, r.overlaps s = false

variable {diff : List Bytes → List Bytes → List DiffOp} {base p : Bytes} {ps qs : List Bytes}

theorem Clear.symm {p q : Bytes} (h : Clear diff base p q) : Clear diff base q p :=
  fun r hr s hs => overlaps_comm ▸ h s hs r hr

theorem lined_kept (ps : List Bytes) : Lined (kept diff base ps) := lined ..

section Script

variable (hdiff : ∀ old new, ScriptFrom old new 0 0 (diff old new))
include hdiff

theorem runsOf_spec (ps : List Bytes) (base p : Bytes) :
    changedRuns diff (kept diff base ps) p = some (runsOf diff base p) ∧
      Placed 0 (runsOf diff base p) (kept diff base ps).lineCount ∧
      (kept diff base ps).woven 0 (runsOf diff base p) (kept diff base ps).lineCount = p ∧
      (EqualsNonempty diff → Apart (runsOf diff base p)) := by
  obtain ⟨found, hfound, hspec⟩ := (lined base []).changedRuns_spec hdiff p
  have hruns : runsOf diff base p = found := by rw [runsOf, hfound, getD_some]
  exact hruns ▸ ⟨hfound, hspec⟩

theorem bounds_of_mem {r : ChangedRun} (hr : r ∈ runsOf diff base p) :
    r.start ≤ r.stop ∧ r.stop ≤ (kept diff base []).lineCount :=
  ((placed_iff.mp (runsOf_spec hdiff [] base p).2.1).2.2 r hr).2

/-- **The runs kept follow one another.** -/
theorem placed_kept (h : ps.Pairwise (Clear diff base)) :
    Placed 0 (kept diff base ps).runs (kept diff base ps).lineCount := by
  have hsame : (ps.flatMap (runsOf diff base)).Pairwise fun r s =>
      (r.le s = true → r.stop ≤ s.start) ∧ (s.le r = true → s.stop ≤ r.start) := by
    refine pairwise_flatMap.mpr ⟨fun p _ => ?_, h.imp fun hclear r hr s hs => ?_⟩
    · have hplaced := (placed_iff.mp (runsOf_spec hdiff ps base p).2.1).2
      refine hplaced.1.imp_of_mem fun hr hs hle => ⟨fun _ => hle, fun hback => ?_⟩
      have := hplaced.2 _ hr
      simp only [ChangedRun.le, Bool.or_eq_true, Bool.and_eq_true, decide_eq_true_eq] at hback
      omega
    · have hr' := (bounds_of_mem hdiff hr).1
      have hs' := (bounds_of_mem hdiff hs).1
      exact ⟨(of_overlaps_eq_false hr' hs' (hclear r hr s hs)).1,
        (of_overlaps_eq_false hs' hr' (hclear.symm s hs r hr)).1⟩
  refine placed_iff.mpr ⟨Nat.zero_le _, ?_, fun r hr => ⟨Nat.zero_le _, ?_⟩⟩
  · have hsorted := pairwise_mergeSort le_trans le_total
      (ps.flatMap (runsOf diff base))
    exact hsorted.imp₂ (fun _ _ hle hboth => hboth.1 hle)
      ((mergeSort_perm _ _).symm.pairwise hsame fun h => h.symm)
  · obtain ⟨p, -, hp⟩ := mem_flatMap.mp ((mergeSort_perm _ _).mem_iff.mp hr)
    exact bounds_of_mem hdiff hp

/-- **The runs kept know no order** of their proposals. -/
theorem kept_perm (hperm : ps.Perm qs) (h : ps.Pairwise (Clear diff base)) :
    kept diff base ps = kept diff base qs :=
  congrArg (LineComposition.mk base _) (mergeSort_flatMap_perm le_trans le_total
    hperm (h.imp fun hclear r hr s hs => (of_overlaps_eq_false
      (bounds_of_mem hdiff hr).1 (bounds_of_mem hdiff hs).1 (hclear r hr s hs)).2))

end Script

theorem Lined.scalarRegionsFrom_isSome {c : LineComposition} {runs : List ChangedRun} (h : Lined c)
    (offset : ℕ) {at_ : ℕ} (hruns : Placed at_ runs c.lineCount) :
    ∃ regions, c.scalarRegionsFrom offset at_ runs = some regions := by
  induction runs generalizing offset at_ with
  | nil => exact ⟨[], rfl⟩
  | cons run runs ih =>
    choose regions hregions using fun offset => ih offset hruns.2.2
    simp [scalarRegionsFrom, h.baseSpan_eq hruns.1 (hruns.2.1.trans hruns.2.2.le), hregions]

theorem Lined.output_eq {c : LineComposition} (h : Lined c) (hruns : Placed 0 c.runs c.lineCount) :
    c.output = some (c.woven 0 c.runs c.lineCount) := h.renderFrom_eq hruns

/-- A proposal that changes something and is clear of those kept, on the bytes they give. -/
structure Fits (diff : List Bytes → List Bytes → List DiffOp) (base : Bytes) (ps : List Bytes)
    (staged p : Bytes) : Prop where
  text : isUtf8 p = true
  changes : runsOf diff base p ≠ []
  clear : ∀ q ∈ ps, Clear diff base q p
  staged : (kept diff base ps).output = some staged

/-- **Composing accepts what fits**; else nothing changes. -/
theorem compose_kept (hdiff : ∀ old new, ScriptFrom old new 0 0 (diff old new))
    (h : ps.Pairwise (Clear diff base)) (staged p : Bytes) : ∃ composed c',
      compose diff (kept diff base ps) staged p = some (composed, c') ∧
      (Fits diff base ps staged p ∧ c' = kept diff base (ps ++ [p]) ∧
          (∃ file, composed = some file ∧ c'.output = some file.bytes) ∨
        ¬Fits diff base ps staged p ∧ composed = none ∧ c' = kept diff base ps) := by
  have hplaced := placed_kept hdiff h
  have hout := (lined_kept ps).output_eq hplaced
  rw [compose]
  by_cases hutf : isUtf8 p = true
  swap
  · exact ⟨_, _, if_pos (Bool.eq_false_iff.mpr hutf), .inr ⟨fun h => hutf h.text, rfl, rfl⟩⟩
  have hclash : (runsOf diff base p = [] ∨ (runsOf diff base p).any fun run =>
      (kept diff base ps).runs.any fun kept => kept.overlaps run) ↔
      ¬(runsOf diff base p ≠ [] ∧ ∀ q ∈ ps, Clear diff base q p) := by
    simp only [kept, List.any_eq_true, (mergeSort_perm _ _).mem_iff, mem_flatMap, Clear,
      not_and_or, not_not, not_forall, Bool.not_eq_false]
    refine or_congr_right ⟨?_, ?_⟩
    · rintro ⟨s, hs, r, ⟨q, hq, hr⟩, hover⟩
      exact ⟨q, hq, r, hr, s, hs, hover⟩
    · rintro ⟨q, hq, r, hr, s, hs, hover⟩
      exact ⟨s, hs, r, ⟨q, hq, hr⟩, hover⟩
  simp only [hutf, Bool.true_eq_false, if_false, (runsOf_spec hdiff ps base p).1, hout,
    bind_eq_bind, bind_some]
  by_cases hclear : runsOf diff base p ≠ [] ∧ ∀ q ∈ ps, Clear diff base q p
  swap
  · exact ⟨_, _, if_pos (hclash.mpr hclear), .inr ⟨fun h => hclear ⟨h.changes, h.clear⟩, rfl, rfl⟩⟩
  rw [if_neg fun h => hclash.mp h hclear]
  by_cases hstaged : (kept diff base ps).woven 0 (kept diff base ps).runs (kept diff base ps).lineCount =
    staged
  swap
  · exact ⟨_, _, if_pos hstaged, .inr ⟨fun h => hstaged (some.inj (hout.symm.trans h.staged)),
      rfl, rfl⟩⟩
  rw [if_neg (not_not_intro hstaged)]
  have hmore : (ps ++ [p]).Pairwise (Clear diff base) := pairwise_append.mpr
    ⟨h, pairwise_singleton .., fun q hq _ hp => mem_singleton.mp hp ▸ hclear.2 q hq⟩
  have hkept : ((kept diff base ps).runs ++ runsOf diff base p).mergeSort ChangedRun.le =
      (kept diff base (ps ++ [p])).runs := by
    rw [kept, kept, mergeSort_append_left le_trans le_total]
    simp
  have hout' := (lined_kept (ps ++ [p])).output_eq (placed_kept hdiff hmore)
  obtain ⟨regions, hregions⟩ := (lined_kept ps).scalarRegionsFrom_isSome 0 hplaced
  obtain ⟨covers, hcovers⟩ : ∃ covers, (kept diff base ps).coversEarlier staged
      ((kept diff base (ps ++ [p])).woven 0 (kept diff base (ps ++ [p])).runs
        (kept diff base (ps ++ [p])).lineCount) = some covers := by
    rw [coversEarlier]
    split
    · exact ⟨_, rfl⟩
    · split
      · exact ⟨_, rfl⟩
      · exact ⟨_, by rw [hregions]; rfl⟩
  have hrender : (kept diff base ps).render (kept diff base (ps ++ [p])).runs =
      some ((kept diff base (ps ++ [p])).woven 0 (kept diff base (ps ++ [p])).runs
        (kept diff base (ps ++ [p])).lineCount) :=
    (lined_kept ps).renderFrom_eq (placed_kept hdiff hmore)
  rw [hkept, hrender, bind_some, hcovers, bind_some]
  exact ⟨_, _, rfl, .inl ⟨⟨hutf, hclear.1, hclear.2, hout.trans (congrArg some hstaged)⟩, rfl, _, rfl,
    hout'⟩⟩

/-- The compositions that proposals, accepted one after another, give. -/
inductive Accepted (diff : List Bytes → List Bytes → List DiffOp) (base : Bytes) :
    List Bytes → LineComposition → Prop
  | start : isUtf8 base = true → Accepted diff base [] ⟨base, lineStartsOf base, []⟩
  | compose {ps : List Bytes} {c c' : LineComposition} {staged p : Bytes} {file : ComposedFile} :
    Accepted diff base ps c → LineComposition.compose diff c staged p = some (some file, c') →
    Accepted diff base (ps ++ [p]) c'

/-- Proposals that each change something and are clear of one another. -/
structure Composable (diff : List Bytes → List Bytes → List DiffOp) (base : Bytes) (ps : List Bytes) :
    Prop where
  text : isUtf8 base = true
  each : ∀ p ∈ ps, isUtf8 p = true ∧ runsOf diff base p ≠ []
  clear : ps.Pairwise (Clear diff base)

theorem kept_nil : kept diff base [] = ⟨base, lineStartsOf base, []⟩ := by simp [kept]

theorem composable_concat : Composable diff base (ps ++ [p]) ↔ Composable diff base ps ∧
    isUtf8 p = true ∧ runsOf diff base p ≠ [] ∧ ∀ q ∈ ps, Clear diff base q p := by
  constructor
  · rintro ⟨htext, heach, hclear⟩
    obtain ⟨hps, -, hlast⟩ := pairwise_append.mp hclear
    obtain ⟨hp, hchanges⟩ := heach p (mem_append_right ps mem_cons_self)
    exact ⟨⟨htext, fun q hq => heach q (mem_append_left _ hq), hps⟩, hp, hchanges, fun q hq =>
      hlast q hq p mem_cons_self⟩
  · rintro ⟨h, hp, hchanges, hclear⟩
    refine ⟨h.text, fun q hq => ?_, pairwise_append.mpr ⟨h.clear, pairwise_singleton ..,
      fun q hq _ hlast => mem_singleton.mp hlast ▸ hclear q hq⟩⟩
    exact (mem_append.mp hq).elim (h.each q) fun hlast =>
      mem_singleton.mp hlast ▸ ⟨hp, hchanges⟩

section Accepted

variable (hdiff : ∀ old new, ScriptFrom old new 0 0 (diff old new))
include hdiff

/-- **What is accepted** is what is composable, and gives the runs kept. -/
theorem accepted_iff {c : LineComposition} :
    Accepted diff base ps c ↔ Composable diff base ps ∧ c = kept diff base ps := by
  constructor
  · intro h
    induction h with
    | start htext => exact ⟨⟨htext, nofun, .nil⟩, kept_nil.symm⟩
    | @compose ps c c' staged p file _ hcompose ih =>
      obtain ⟨hps, rfl⟩ := ih
      obtain ⟨composed, c'', hcompose', hcases⟩ := compose_kept hdiff hps.clear staged p
      obtain ⟨hfile, rfl⟩ := Prod.mk.inj (some.inj (hcompose.symm.trans hcompose'))
      rcases hcases with ⟨hfits, rfl, -⟩ | ⟨-, hnone, -⟩
      · exact ⟨composable_concat.mpr ⟨hps, hfits.text, hfits.changes, hfits.clear⟩, rfl⟩
      · exact absurd (hfile.trans hnone) (some_ne_none _)
  · rintro ⟨h, rfl⟩
    induction ps using List.reverseRecOn with
    | nil => exact kept_nil ▸ .start h.text
    | append_singleton ps p ih =>
      obtain ⟨hps, hp, hchanges, hclear⟩ := composable_concat.mp h
      have hout := Lined.output_eq (lined_kept ps) (placed_kept hdiff hps.clear)
      obtain ⟨composed, c', hcompose, ⟨-, rfl, file, rfl, -⟩ | ⟨hnot, -⟩⟩ :=
        compose_kept hdiff hps.clear _ p
      · exact .compose (ih hps) hcompose
      · exact absurd ⟨hp, hchanges, hclear, hout⟩ hnot

/-- The first composition is the base's, with one proposal composed. -/
theorem new_iff (p : Bytes) : ∃ found, new diff base p = some found ∧
    ∀ c, found = some c ↔ Accepted diff base [p] c := by
  rw [new]
  by_cases htext : isUtf8 base = true
  swap
  · exact ⟨none, if_pos (Bool.eq_false_iff.mpr htext), fun c => ⟨nofun, fun h =>
      absurd ((accepted_iff hdiff).mp h).1.text htext⟩⟩
  obtain ⟨composed, c, hcompose, hcases⟩ := @compose_kept diff base [] hdiff .nil base p
  have hout : (kept diff base []).output = some base := by
    rw [(lined_kept []).output_eq (placed_kept hdiff .nil), kept_nil, (lined base []).woven_nil
      (Nat.zero_le _), (lined base []).spanOf_all]
  rw [kept_nil] at hcompose
  refine ⟨composed.map fun _ => c, by simp [htext, hcompose], fun c' => ?_⟩
  rw [accepted_iff hdiff, ← nil_append [p], composable_concat]
  rcases hcases with ⟨hfits, rfl, file, rfl, -⟩ | ⟨hnot, rfl, -⟩
  · exact ⟨fun h => ⟨⟨⟨htext, nofun, .nil⟩, hfits.text, hfits.changes, hfits.clear⟩,
      (some.inj h).symm⟩, fun h => congrArg some h.2.symm⟩
  · exact ⟨nofun, fun h => absurd ⟨h.1.2.1, h.1.2.2.1, h.1.2.2.2, hout⟩ hnot⟩

end Accepted

/-- **Line composition is exact and knows no order**, whatever valid scripts the diff gives: one
proposal alone is its postimage; what is accepted renders every line outside the runs and every run,
once and in place; any order of the proposals, and all but one of them, are accepted too, to the same
runs; a refusal changes nothing; and the runs kept follow one another. -/
theorem lineComposition_exact (diff : List Bytes → List Bytes → List DiffOp) (base : Bytes)
    (hdiff : ∀ old new, ScriptFrom old new 0 0 (diff old new)) :
    (∀ p, ∃ found, new diff base p = some found ∧ ∀ c, found = some c ↔ Accepted diff base [p] c) ∧
    ∀ ps c, Accepted diff base ps c →
      (∀ p, ps = [p] → c.output = some p) ∧
      (∃ pieces : List (ℕ ⊕ ChangedRun), c.output = some (pieces.flatMap c.bytesAt) ∧
        pieces.filterMap Sum.getLeft? = (List.range c.lineCount).filter (!covered c.runs ·) ∧
        pieces.filterMap Sum.getRight? = c.runs ∧ pieces.Pairwise InPlace) ∧
      c.runs.Perm (ps.flatMap (runsOf diff base)) ∧
      (∀ qs, ps.Perm qs → Accepted diff base qs c) ∧
      (∀ p rest, ps.Perm (p :: rest) → ∃ c', Accepted diff base rest c' ∧
        c'.runs.Sublist c.runs ∧ c.runs.Perm (runsOf diff base p ++ c'.runs)) ∧
      (∀ staged p, ∃ composed c', compose diff c staged p = some (composed, c') ∧
        (composed = none → c' = c) ∧ ∀ file, composed = some file → c.output = some staged ∧
          c'.output = some file.bytes) ∧
      c.runs.Pairwise (·.le ·) ∧ Placed 0 c.runs c.lineCount ∧
      (EqualsNonempty diff → c.runs.Pairwise fun r s => r.overlaps s = false) := by
  refine ⟨new_iff hdiff, fun ps c h => ?_⟩
  obtain ⟨hps, rfl⟩ := (accepted_iff hdiff).mp h
  have hplaced := placed_kept hdiff hps.clear
  have hout := (lined_kept ps).output_eq hplaced
  have hperm : (kept diff base ps).runs.Perm (ps.flatMap (runsOf diff base)) := mergeSort_perm _ _
  have horder {qs : List Bytes} (hqs : ps.Perm qs) : Composable diff base qs ∧
      kept diff base ps = kept diff base qs :=
    ⟨⟨hps.text, fun q hq => hps.each q (hqs.mem_iff.mpr hq), hqs.pairwise hps.clear Clear.symm⟩,
      kept_perm hdiff hqs hps.clear⟩
  refine ⟨?_, ⟨_, hout, ?_, (weave_spec hplaced).2.1, (weave_spec hplaced).2.2.1⟩, hperm,
    fun qs hqs => ?_, fun p rest hrest => ?_, fun staged p => ?_, ?_, hplaced, fun hne => ?_⟩
  · rintro p rfl
    obtain ⟨-, hruns, hwoven, -⟩ := runsOf_spec hdiff [p] base p
    have hsorted : (runsOf diff base p).Pairwise (·.le ·) := by
      refine (placed_iff.mp hruns).2.1.imp_of_mem fun hr hs hle => ?_
      have hr := bounds_of_mem hdiff hr
      have hs := bounds_of_mem hdiff hs
      simp only [ChangedRun.le, Bool.or_eq_true, Bool.and_eq_true, decide_eq_true_eq]
      omega
    rw [hout, show (kept diff base [p]).runs = runsOf diff base p by
      rw [kept, flatMap_singleton, mergeSort_of_pairwise hsorted], hwoven]
  · rw [(weave_spec hplaced).1, range_eq_range', Nat.sub_zero]
  · exact (accepted_iff hdiff).mpr (horder hqs)
  · obtain ⟨hcomposable, heq⟩ := horder (hrest.trans (perm_append_singleton p rest).symm)
    refine ⟨kept diff base rest, (accepted_iff hdiff).mpr ⟨(composable_concat.mp hcomposable).1, rfl⟩,
      ?_, hperm.trans ((hrest.flatMap_right _).trans ((mergeSort_perm _ _).symm.append_left _))⟩
    rw [heq, kept, kept, flatMap_append, ← mergeSort_append_left le_trans
      le_total]
    exact sublist_mergeSort le_trans le_total (pairwise_mergeSort
      le_trans le_total _) (sublist_append_left ..)
  · obtain ⟨composed, c', hcompose, hcases⟩ := compose_kept hdiff hps.clear staged p
    refine ⟨composed, c', hcompose, ?_⟩
    rcases hcases with ⟨hfits, rfl, file, rfl, hfile⟩ | ⟨-, rfl, rfl⟩
    · exact ⟨nofun, fun _ heq => ⟨hfits.staged, some.inj heq ▸ hfile⟩⟩
    · exact ⟨fun _ => rfl, nofun⟩
  · exact pairwise_mergeSort le_trans le_total _
  · refine hperm.symm.pairwise (pairwise_flatMap.mpr ⟨fun p _ => ?_, hps.clear⟩)
      (overlaps_comm ▸ ·)
    refine ((runsOf_spec hdiff ps base p).2.2.2 hne).imp_of_mem fun hr _ hlt => ?_
    have hr := bounds_of_mem hdiff hr
    exact overlaps_eq_false_of_lt hr.1 hlt

/-- A diff that pairs lines by their places. -/
def linesByPlace (i : ℕ) : List Bytes → List Bytes → List DiffOp
  | a :: old, b :: new =>
    ⟨if a = b then .equal else .replace, (i, i + 1), (i, i + 1)⟩ :: linesByPlace (i + 1) old new
  | [], [] => []
  | old, new => [⟨.replace, (i, i + old.length), (i, i + new.length)⟩]

theorem scriptFrom_linesByPlace (old new : List Bytes) :
    ScriptFrom old new 0 0 (linesByPlace 0 old new) := by
  suffices h : ∀ (i : ℕ) (left left' : List Bytes), old.drop i = left → new.drop i = left' →
      i ≤ old.length → i ≤ new.length → ScriptFrom old new i i (linesByPlace i left left') from
    h 0 old new rfl rfl (Nat.zero_le _) (Nat.zero_le _)
  intro i left left' ho hn hi hi'
  fun_induction linesByPlace i left left' with
  | case1 i a left b left' ih =>
    have ho' := congrArg length ho
    have hn' := congrArg length hn
    rw [length_drop, length_cons] at ho' hn'
    refine @ScriptFrom.cons old new ⟨_, (i, _), (i, _)⟩ _ (Nat.le_succ i) (Nat.le_succ i) ?_
      (ih ?_ ?_ (by omega) (by omega))
    · intro htag
      obtain rfl : a = b := by
        by_contra hne
        simp [hne] at htag
      simp only [drop_take, ho, hn, Nat.add_sub_cancel_left, take_succ_cons, take_zero]
    · rw [drop_add_one_eq_tail_drop, ho, tail_cons]
    · rw [drop_add_one_eq_tail_drop, hn, tail_cons]
  | case2 i =>
    rw [drop_eq_nil_iff] at ho hn
    have hnil : ScriptFrom old new old.length new.length [] := .nil
    rwa [← hi.antisymm ho, ← hi'.antisymm hn] at hnil
  | case3 i left left' =>
    subst ho hn
    refine @ScriptFrom.cons old new ⟨_, (i, _), (i, _)⟩ [] (Nat.le_add_right ..)
      (Nat.le_add_right ..) nofun ?_
    rw [length_drop, length_drop, Nat.add_sub_cancel' hi, Nat.add_sub_cancel' hi']
    exact .nil

/-- Three lines, and two proposals: one for the first of them and one for the last. -/
def threeLines : Bytes := ascii "a\nb\nc"

@[inherit_doc threeLines] def firstLine : Bytes := ascii "A\nb\nc"

@[inherit_doc threeLines] def lastLine : Bytes := ascii "a\nb\nC"

/-- …composed line by line, in either order, and with the first removed. -/
theorem lineComposition_exact_lines : ∃ c,
    Accepted (linesByPlace 0) threeLines [firstLine, lastLine] c ∧
    c.output = some (ascii "A\nb\nC") ∧
    Accepted (linesByPlace 0) threeLines [lastLine, firstLine] c ∧
    ∃ c', Accepted (linesByPlace 0) threeLines [lastLine] c' ∧ c'.output = some lastLine := by
  have hclear : Clear (linesByPlace 0) threeLines firstLine lastLine := by
    unfold Clear
    decide +kernel
  have haccepted : Accepted (linesByPlace 0) threeLines [firstLine, lastLine] _ :=
    (accepted_iff scriptFrom_linesByPlace).mpr
      ⟨⟨by decide +kernel, by decide +kernel, pairwise_pair.mpr hclear⟩, rfl⟩
  rw [kept, mergeSort_of_pairwise (by decide +kernel)] at haccepted
  obtain ⟨-, -, -, horder, hwithout, -⟩ :=
    (lineComposition_exact _ _ scriptFrom_linesByPlace).2 _ _ haccepted
  obtain ⟨c', hc', -⟩ := hwithout _ _ (Perm.refl _)
  exact ⟨_, haccepted, by decide +kernel, horder _ (.swap ..), c', hc',
    ((lineComposition_exact _ _ scriptFrom_linesByPlace).2 _ _ hc').1 _ rfl⟩

end LineComposition

end Oneiron
