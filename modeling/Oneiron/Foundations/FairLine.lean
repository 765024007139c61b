import Mathlib.Data.List.Nodup
import Mathlib.Data.List.TakeWhile
import Oneiron.Foundations.System

/-!
# Foundations/FairLine — waiters served round-robin across keys, in arrival order within one

    turns    k₁  k₂  k₃            the next key's oldest waiter is served, and the key goes last
    waiting  w…  w…  w…

A key is **ahead** of another while its turn comes first.  Serving a key moves it behind every key
that waits, an arrival joins behind them, and a departure only shortens the round: the keys served
before a waiting key's own turn are, in order, among those ahead of it at the start
(`System.Run.grants_sublist`).
-/

namespace Oneiron

open List

universe u v w

/-- What follows a member does not count towards the stretch before it. -/
theorem takeWhile_ne_append {α : Type u} [DecidableEq α] {a : α} {l : List α} (h : a ∈ l)
    (l' : List α) : (l ++ l').takeWhile (· ≠ a) = l.takeWhile (· ≠ a) := by
  rw [takeWhile_append, if_neg]
  intro hall
  have heq : l.takeWhile (· ≠ a) = l := (List.takeWhile_prefix _).eq_of_length hall
  rw [← heq] at h
  simpa using mem_takeWhile_imp h

/-- A line: each key's waiters, oldest first, and the keys with a waiter in the order of their
turns. -/
structure FairLine (K : Type u) (W : Type v) where
  waiting : K → List W
  turns : List K

namespace FairLine

variable {K : Type u} {W : Type v} [DecidableEq K]

def empty : FairLine K W := ⟨fun _ => [], []⟩

/-- A waiter joins its key's line; a key's first waiter puts it last in the round. -/
def enqueue (line : FairLine K W) (key : K) (w : W) : FairLine K W where
  waiting := Function.update line.waiting key (line.waiting key ++ [w])
  turns := if line.waiting key = [] then line.turns ++ [key] else line.turns

/-- A waiter leaves; a key's last waiter takes it out of the round. -/
def leave [DecidableEq W] (line : FairLine K W) (key : K) (w : W) : FairLine K W :=
  if line.waiting key = [] then line
  else
    let left := (line.waiting key).filter (· ≠ w)
    { waiting := Function.update line.waiting key left
      turns := if left = [] then line.turns.filter (· ≠ key) else line.turns }

/-- The oldest waiter of the next key; the key goes last while it has another. -/
def serve (line : FairLine K W) : Option (K × W) × FairLine K W :=
  match line.turns with
  | [] => (none, line)
  | key :: rest =>
    match line.waiting key with
    | [] => (none, { line with turns := rest })
    | w :: left =>
      (some (key, w),
        { waiting := Function.update line.waiting key left
          turns := if left = [] then rest else rest ++ [key] })

/-- The round lists each key with a waiter once, and no other. -/
structure WellFormed (line : FairLine K W) : Prop where
  nodup : line.turns.Nodup
  mem_turns : ∀ {key}, key ∈ line.turns ↔ line.waiting key ≠ []

/-- The keys whose turns come before a key's own. -/
def ahead (line : FairLine K W) (key : K) : List K := line.turns.takeWhile (· ≠ key)

variable {line : FairLine K W} {key other : K} {w : W}

omit [DecidableEq K] in
theorem wellFormed_empty : (empty : FairLine K W).WellFormed :=
  ⟨nodup_nil, by simp [empty]⟩

/-! ## Waiters -/

theorem mem_waiting_enqueue {v : W} :
    v ∈ (line.enqueue key w).waiting other ↔ v ∈ line.waiting other ∨ (other = key ∧ v = w) := by
  unfold enqueue
  by_cases h : other = key
  · subst h
    simp
  · simp [h]

theorem waiting_leave [DecidableEq W] :
    (line.leave key w).waiting other =
      if other = key then (line.waiting key).filter (· ≠ w) else line.waiting other := by
  unfold leave
  split
  · split
    · rename_i hnil heq
      subst heq
      simp [hnil]
    · rfl
  · exact Function.update_apply ..

/-- What serving a well-formed line does: nothing to an empty one. -/
theorem serve_eq_none (h : line.WellFormed) (hnone : line.serve.1 = none) :
    line.turns = [] ∧ line.serve.2 = line := by
  unfold serve at hnone ⊢
  split
  · exact ⟨‹_›, rfl⟩
  · rename_i first rest hturns
    have hne := h.mem_turns.mp (hturns ▸ mem_cons_self : first ∈ line.turns)
    cases hw : line.waiting first with
    | nil => exact absurd hw hne
    | cons w left => simp [hturns, hw] at hnone

/-- …and otherwise takes the first key's oldest waiter. -/
theorem serve_eq_some (hsome : line.serve.1 = some (key, w)) : ∃ rest left,
    line.turns = key :: rest ∧ line.waiting key = w :: left ∧
    line.serve.2 = { waiting := Function.update line.waiting key left
                     turns := if left = [] then rest else rest ++ [key] } := by
  unfold serve at hsome ⊢
  split at hsome
  · cases hsome
  · rename_i first rest hturns
    split at hsome
    · cases hsome
    · rename_i v left hw
      cases hsome
      simp [hturns, hw]

/-! ## The round stays well formed -/

namespace WellFormed

theorem enqueue (h : line.WellFormed) (key : K) (w : W) : (line.enqueue key w).WellFormed := by
  have hkey : line.waiting key = [] → key ∉ line.turns := fun hnil hmem => h.mem_turns.mp hmem hnil
  unfold FairLine.enqueue
  constructor
  · dsimp only
    split
    · rename_i hnil
      simpa using h.nodup.concat (hkey hnil)
    · exact h.nodup
  · intro other
    by_cases hother : other = key
    · subst hother
      by_cases hnil : line.waiting other = []
      · simp [hnil]
      · simp [hnil, h.mem_turns]
    · by_cases hnil : line.waiting key = [] <;> simp [hother, hnil, h.mem_turns]

theorem leave [DecidableEq W] (h : line.WellFormed) (key : K) (w : W) :
    (line.leave key w).WellFormed := by
  unfold FairLine.leave
  split
  · exact h
  · rename_i hne
    constructor
    · dsimp only
      split
      · exact h.nodup.filter _
      · exact h.nodup
    · intro other
      dsimp only
      by_cases hother : other = key
      · subst hother
        split
        · rename_i hnil
          simpa using hnil
        · rename_i hleft
          simp only [Function.update_self, h.mem_turns]
          exact iff_of_true hne hleft
      · split <;> simp [hother, h.mem_turns]

theorem serve (h : line.WellFormed) : line.serve.2.WellFormed := by
  cases hserve : line.serve.1 with
  | none =>
    rw [(serve_eq_none h hserve).2]
    exact h
  | some served =>
    obtain ⟨key, w⟩ := served
    obtain ⟨rest, left, hturns, hw, heq⟩ := serve_eq_some hserve
    have hnodup := h.nodup
    rw [hturns, nodup_cons] at hnodup
    have hrest : ∀ {other}, other ≠ key → (other ∈ rest ↔ line.waiting other ≠ []) := by
      intro other hother
      rw [← h.mem_turns, hturns]
      simp [hother]
    rw [heq]
    constructor
    · dsimp only
      split
      · exact hnodup.2
      · simpa using hnodup.2.concat hnodup.1
    · intro other
      by_cases hother : other = key
      · subst hother
        split
        · rename_i hnil
          simp [hnil, hnodup.1]
        · rename_i hleft
          simp [hleft]
      · split <;> simp [hother, hrest hother]

end WellFormed

/-! ## Who is ahead -/

theorem nodup_ahead (h : line.WellFormed) (key : K) : (line.ahead key).Nodup :=
  h.nodup.sublist (takeWhile_sublist _)

/-- An arrival joins behind whoever waits. -/
theorem ahead_enqueue (hkey : key ∈ line.turns) (other : K) (w : W) :
    (line.enqueue other w).ahead key = line.ahead key := by
  unfold ahead enqueue
  split
  · exact takeWhile_ne_append hkey _
  · rfl

/-- A departure brings nobody ahead of a key that still waits. -/
theorem ahead_leave [DecidableEq W] (hkey : key ∈ (line.leave other w).turns) :
    ((line.leave other w).ahead key).Sublist (line.ahead key) := by
  unfold ahead leave at *
  split
  · exact .refl _
  · rename_i hne
    rw [if_neg hne] at hkey
    dsimp only at hkey ⊢
    split
    · rename_i hleft
      rw [if_pos hleft, mem_filter, decide_eq_true_eq] at hkey
      rw [takeWhile_filter]
      have hsame : ∀ a : K, (!decide (a ≠ other) || decide (a ≠ key)) = decide (a ≠ key) := by
        intro a
        by_cases ha : a = other
        · subst ha
          simp [Ne.symm hkey.2]
        · simp [ha]
      simp only [hsame]
      exact filter_sublist
    · exact .refl _

/-- Serving another key takes the first of those ahead. -/
theorem ahead_serve (hkey : key ∈ line.turns) (hne : other ≠ key)
    (hserve : line.serve.1 = some (other, w)) :
    line.ahead key = other :: line.serve.2.ahead key := by
  obtain ⟨rest, left, hturns, hw, heq⟩ := serve_eq_some hserve
  have hrest : key ∈ rest := by
    rw [hturns] at hkey
    exact (mem_cons.mp hkey).resolve_left hne.symm
  unfold ahead
  rw [heq, hturns, takeWhile_cons_of_pos (by simpa using hne)]
  split
  · rfl
  · rw [takeWhile_ne_append hrest]

/-- The next key of a round is ahead of each other key that waits, and leaves it waiting. -/
theorem serve_turn (h : line.WellFormed) (hkey : key ∈ line.turns) : ∃ first w,
    line.serve.1 = some (first, w) ∧
      (first ≠ key → key ∈ line.serve.2.turns ∧ line.ahead key = first :: line.serve.2.ahead key) := by
  cases hserve : line.serve.1 with
  | none =>
    rw [(serve_eq_none h hserve).1] at hkey
    cases hkey
  | some served =>
    obtain ⟨first, w⟩ := served
    refine ⟨first, w, rfl, fun hne => ⟨?_, ahead_serve hkey hne hserve⟩⟩
    obtain ⟨rest, left, hturns, -, heq⟩ := serve_eq_some hserve
    have hrest : key ∈ rest := by
      rw [hturns] at hkey
      exact (mem_cons.mp hkey).resolve_left hne.symm
    rw [heq]
    split
    · exact hrest
    · exact mem_append_left _ hrest

end FairLine

/-! ## Serving in turn -/

section Passes

variable {G : Type u} [DecidableEq G]

/-- What serving in turn does to those ahead of a goal: until the goal is served it waits on, behind
what is left of them. -/
structure Passes (goal : G) (ahead served ahead' : List G) (waits : Prop) : Prop where
  others : goal ∉ served → waits ∧ (served ++ ahead').Sublist ahead
  own : goal ∈ served → (served.takeWhile (· ≠ goal)).Sublist ahead

namespace Passes

variable {goal first : G} {ahead ahead' mid served : List G} {waits : Prop}

/-- Nobody is served, and nobody comes ahead. -/
theorem nil (hwaits : waits) (hahead : ahead'.Sublist ahead) : Passes goal ahead [] ahead' waits :=
  ⟨fun _ => ⟨hwaits, hahead⟩, fun hmem => absurd hmem not_mem_nil⟩

/-- The first of those ahead is served before what follows. -/
theorem cons (h : first ≠ goal → ∃ mid, ahead = first :: mid ∧ Passes goal mid served ahead' waits) :
    Passes goal ahead (first :: served) ahead' waits := by
  by_cases hfirst : first = goal
  · subst hfirst
    refine ⟨fun hnot => absurd mem_cons_self hnot, fun _ => ?_⟩
    rw [takeWhile_cons_of_neg (by simp)]
    exact nil_sublist _
  · obtain ⟨mid, rfl, hrest⟩ := h hfirst
    constructor
    · intro hnot
      obtain ⟨hwaits, hsub⟩ := hrest.others fun hmem => hnot (mem_cons_of_mem _ hmem)
      exact ⟨hwaits, hsub.cons_cons _⟩
    · intro hmem
      have hmem' : goal ∈ served :=
        (mem_cons.mp hmem).resolve_left fun heq => hfirst heq.symm
      rw [takeWhile_cons_of_pos (by simpa using hfirst)]
      exact (hrest.own hmem').cons_cons _

/-- What follows the goal's own turn does not count. -/
theorem append (h : Passes goal ahead served ahead' waits) (hmem : goal ∈ served) (more ahead'' : List G)
    (waits' : Prop) : Passes goal ahead (served ++ more) ahead'' waits' := by
  refine ⟨fun hnot => absurd (mem_append_left _ hmem) hnot, fun _ => ?_⟩
  rw [takeWhile_ne_append hmem]
  exact h.own hmem

end Passes

end Passes

/-! ## Grants along a run -/

namespace System

variable {State : Type u} {Label : Type v} {G : Type w} {sys : System State Label}

/-- `waits` holds along a run for as long as nothing has granted `goal`. -/
def WaitsFor (sys : System State Label) (grants : Label → List G) (waits : State → Prop) (goal : G)
    (s : State) (labels : List Label) : Prop :=
  ∀ before later mid, labels = before ++ later → sys.Run s before mid →
    goal ∉ before.flatMap grants → waits mid

/-- **The round rule.**  Where each step grants only those ahead of `goal`, in their order, so does
a run up to its first grant of `goal`. -/
theorem Run.grants_sublist [DecidableEq G] {grants : Label → List G} {ahead : State → List G}
    {waits : State → Prop} {goal : G} (Inv : State → Prop)
    (hstep : ∀ {s label t}, Inv s → waits s → sys.step s label t → Inv t ∧
      ((goal ∉ grants label → waits t) → Passes goal (ahead s) (grants label) (ahead t) (waits t)))
    {s t : State} {labels : List Label} (hrun : sys.Run s labels t) (hs : Inv s)
    (hwaits : sys.WaitsFor grants waits goal s labels) :
    ((labels.flatMap grants).takeWhile (· ≠ goal)).Sublist (ahead s) := by
  induction hrun with
  | nil => exact nil_sublist _
  | @cons s t u label labels h hrest ih =>
    have hw : waits s := hwaits [] _ s rfl (.nil s) (by simp)
    have hwt : goal ∉ grants label → waits t := fun hnot =>
      hwaits [label] labels t rfl (.cons h (.nil t)) (by simpa using hnot)
    obtain ⟨ht, hpass⟩ := hstep hs hw h
    rw [flatMap_cons]
    by_cases hmem : goal ∈ grants label
    · rw [takeWhile_ne_append hmem]
      exact (hpass hwt).own hmem
    · have hsub := ((hpass hwt).others hmem).2
      have hrest' := ih ht fun before later mid heq hrun hnot =>
        hwaits (label :: before) later mid (by rw [heq, cons_append]) (.cons h hrun)
          (by simpa [hmem] using hnot)
      rw [takeWhile_append_of_pos fun a ha => by
        simpa using fun heq : a = goal => hmem (heq ▸ ha)]
      exact (hrest'.append_left _).trans hsub

end System

end Oneiron
