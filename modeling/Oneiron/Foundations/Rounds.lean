import Mathlib.Algebra.GroupWithZero.Nat
import Mathlib.Data.List.Count
import Mathlib.Data.List.Perm.Basic
import Mathlib.Data.List.Rotate
import Mathlib.Order.RelClasses

/-!
# Foundations/Rounds — queues served one item each a round, and whose turn comes next

    queues      a: 1 2 3    b: 4    c: 5 6          rounds     a₁ b₄ c₅ │ a₂ c₆ │ a₃

An order of the keys taken **round** from just after one of them is again a total order, with that
key last (`Around`).  Serving in rounds is, at every serving, serving the first key round from the
key served before that still has an item (`inTurn_rounds`), and that alone is what fairness needs:
it bounds how far two waiting keys drift apart (`InTurn.count_le`), and it goes on from one pass to
the next when the second starts where the first was cut (`inTurn_append`), so that between two
servings of one key every other that waits is served (`InTurn.served_between`).
-/

namespace Oneiron

open List Option Prod

universe u v

/-! ## An order taken round -/

section Around

variable {K : Type u} {r : K → K → Prop}

/-- The order `r` taken round from just after `c`. -/
def Around (r : K → K → Prop) (c x y : K) : Prop := (r c x ∧ ¬ r c y) ∨ ((r c x ↔ r c y) ∧ r x y)

/-- The order `r`, taken round from just after a key where there is one. -/
def After (r : K → K → Prop) : Option K → K → K → Prop
  | none => r
  | some c => Around r c

variable [IsStrictTotalOrder K r]

instance (c : K) : IsStrictTotalOrder K (Around r c) where
  irrefl x h := by
    rcases h with ⟨hx, hnot⟩ | ⟨-, hx⟩
    · exact hnot hx
    · exact irrefl_of r x hx
  trans x y z hxy hyz := by
    rcases hxy with ⟨hx, hy⟩ | ⟨hxy, hx⟩ <;> rcases hyz with ⟨hy', hz⟩ | ⟨hyz, hy'⟩
    · exact absurd hy' hy
    · exact .inl ⟨hx, fun hz => hy (hyz.mpr hz)⟩
    · exact .inl ⟨hxy.mpr hy', hz⟩
    · exact .inr ⟨hxy.trans hyz, trans_of r hx hy'⟩
  trichotomous x y hxy hyx := by
    have hiff : r c x ↔ r c y :=
      ⟨fun hx => by_contra fun hy => hxy (.inl ⟨hx, hy⟩),
        fun hy => by_contra fun hx => hyx (.inl ⟨hy, hx⟩)⟩
    exact Std.Trichotomous.trichotomous (r := r) x y (fun h => hxy (.inr ⟨hiff, h⟩))
      fun h => hyx (.inr ⟨hiff.symm, h⟩)

instance : (c : Option K) → IsStrictTotalOrder K (After r c)
  | none => inferInstanceAs (IsStrictTotalOrder K r)
  | some c => inferInstanceAs (IsStrictTotalOrder K (Around r c))

theorem not_around_self (c x : K) : ¬ Around r c c x := by
  rintro (⟨h, -⟩ | ⟨hiff, h⟩)
  · exact irrefl_of r c h
  · exact irrefl_of r c (hiff.mpr h)

/-- **Where an order starts does not matter** once it is taken round from a key. -/
theorem around_around (c z x y : K) : Around (Around r c) z x y ↔ Around r z x y := by
  have htri : ∀ a b : K, ¬ r a b → ¬ r b a → a = b := Std.Trichotomous.trichotomous
  have htrans : ∀ {a b d : K}, r a b → r b d → r a d := fun h h' => trans_of r h h'
  unfold Around
  grind

theorem around_after (c : Option K) (z x y : K) : Around (After r c) z x y ↔ After r (some z) x y := by
  cases c with
  | none => exact Iff.rfl
  | some c => exact around_around c z x y

/-- What comes before a key from one start, and before it still from there, comes before it from the
first start. -/
theorem around_trans {y z w x : K} (hz : Around r y z x) (hw : Around r z w x) : Around r y w x := by
  rw [← around_around y] at hw
  rcases hw with ⟨-, hnot⟩ | ⟨-, h⟩
  · exact absurd hz hnot
  · exact h

end Around

/-! ## Servings -/

/-- One serving: of whom, and who had an item due as it was served. -/
structure Serving (K : Type u) where
  caller : K
  waiting : List K

/-- The servings of a list of callers, in order. -/
def servings {K : Type u} : List K → List (Serving K)
  | [] => []
  | k :: l => ⟨k, k :: l⟩ :: servings l

/-- The caller a list of servings leaves off at. -/
def leftOff {K : Type u} (l : List (Serving K)) (c : Option K) : Option K :=
  (l.getLast?.map Serving.caller).or c

/-- Servings in turn: each is of the first waiting caller round from the one served before. -/
def InTurn {K : Type u} (r : K → K → Prop) : Option K → List (Serving K) → Prop
  | _, [] => True
  | c, s :: l => (∀ x ∈ s.waiting, ¬ After r c x s.caller) ∧ InTurn r (some s.caller) l

section Servings

variable {K : Type u} {r : K → K → Prop} {c : Option K}

@[simp] theorem map_caller_servings : ∀ l : List K, (servings l).map Serving.caller = l
  | [] => rfl
  | k :: l => congrArg (k :: ·) (map_caller_servings l)

theorem leftOff_cons (s : Serving K) (l : List (Serving K)) (c : Option K) :
    leftOff (s :: l) c = leftOff l (some s.caller) := by
  unfold leftOff
  rw [getLast?_cons]
  cases l.getLast? <;> rfl

/-- **Servings go on in turn** where the second stretch starts from the last caller of the first. -/
theorem inTurn_append : ∀ {l l' : List (Serving K)} {c : Option K},
    InTurn r c (l ++ l') ↔ InTurn r c l ∧ InTurn r (leftOff l c) l'
  | [], l', c => by simp [InTurn, leftOff]
  | s :: l, l', c => by
    rw [cons_append, InTurn, InTurn, inTurn_append (l := l), leftOff_cons, and_assoc]

theorem InTurn.take {l : List (Serving K)} (h : InTurn r c l) (n : ℕ) : InTurn r c (l.take n) := by
  rw [← take_append_drop n l, inTurn_append] at h
  exact h.1

variable [IsStrictTotalOrder K r]

/-- A caller passed over by none is served, or another before it. -/
theorem After.served_or {x k : K} (h : ¬ After r c x k) (hne : k ≠ x) : After r c k x :=
  by_contra fun hnot => hne (Std.Trichotomous.trichotomous (r := After r c) k x hnot h)

/-- **Between two servings of one caller every other is served** that had an item due at each serving
since. -/
theorem InTurn.served_between {e e' : Serving K} {mid l l' : List (Serving K)} {x : K}
    (h : InTurn r c (l ++ e :: (mid ++ e' :: l'))) (heq : e'.caller = e.caller) (hx : x ≠ e.caller)
    (hwait : ∀ f ∈ mid ++ [e'], x ∈ f.waiting) : ∃ f ∈ mid, f.caller = x := by
  -- From `e` on the callers served stay before `x` round from `e`'s, which is last there.
  have key : ∀ (mid : List (Serving K)) (z : K), (z = e.caller ∨ Around r e.caller z x) →
      InTurn r (some z) (mid ++ e' :: l') → (∀ f ∈ mid ++ [e'], x ∈ f.waiting) →
        ∃ f ∈ mid, f.caller = x := by
    intro mid
    induction mid with
    | nil =>
      intro z hz hturn hwait
      have hsooner : Around r z e.caller x :=
        After.served_or (c := some z) (heq ▸ hturn.1 x (hwait e' mem_cons_self)) hx.symm
      rcases hz with rfl | hz
      · exact absurd hsooner (not_around_self _ _)
      · exact absurd (around_trans hz hsooner) (not_around_self _ _)
    | cons f mid ih =>
      intro z hz hturn hwait
      by_cases hf : f.caller = x
      · exact ⟨f, mem_cons_self, hf⟩
      · have hsooner : Around r z f.caller x :=
          After.served_or (c := some z) (hturn.1 x (hwait f mem_cons_self)) hf
        have hnext : Around r e.caller f.caller x := by
          rcases hz with rfl | hz
          · exact hsooner
          · exact around_trans hz hsooner
        obtain ⟨g, hg, hgx⟩ := ih f.caller (.inr hnext) hturn.2 fun g hg =>
          hwait g (mem_cons_of_mem f hg)
        exact ⟨g, mem_cons_of_mem f hg, hgx⟩
  exact key mid e.caller (.inl rfl) (inTurn_append.mp h).2.2 hwait

/-- **Two callers who both still wait drift apart by at most one**, and not at all in favour of the
one whose turn came second. -/
theorem InTurn.count_le [BEq K] [LawfulBEq K] {x y : K} (hne : x ≠ y) {suffix : List K} (hx : x ∈ suffix) :
    ∀ {p : List K} {c : Option K}, InTurn r c (servings (p ++ suffix)) →
      p.count y ≤ p.count x + 1 ∧ (After r c x y → p.count y ≤ p.count x)
  | [], _, _ => by simp
  | k :: p, c, h => by
    have hmem : x ∈ k :: (p ++ suffix) := mem_cons_of_mem k (mem_append_right p hx)
    obtain ⟨hle, hsooner⟩ := count_le hne hx h.2
    by_cases hkx : k = x
    · subst hkx
      rw [count_cons_self, count_cons_of_ne hne]
      exact ⟨by omega, fun _ => hle⟩
    rw [count_cons_of_ne hkx]
    by_cases hky : k = y
    · subst hky
      rw [count_cons_self]
      -- Just served, `y` is last, so the rest has not favoured it.
      have hlast : Around r k x k :=
        After.served_or (c := some k) (not_around_self k x) hne
      exact ⟨Nat.succ_le_succ (hsooner hlast), fun hxy => absurd hxy (h.1 x hmem)⟩
    · rw [count_cons_of_ne hky]
      refine ⟨hle, fun hxy => hsooner ?_⟩
      have hkx' : After r c k x := After.served_or (h.1 x hmem) hkx
      exact (around_after c k x y).mp (.inr ⟨⟨fun _ => trans_of _ hkx' hxy, fun _ => hkx'⟩, hxy⟩)

end Servings

/-! ## Turning a list -/

section Turning

variable {α : Type u}

/-- **A list turned to its first member past a point** has those past it first, where none past it
comes before one that is not. -/
theorem rotate_findIdx? {p : α → Bool} : ∀ {l : List α}, l.Pairwise (fun a b => p a → p b) →
    l.rotate ((l.findIdx? p).getD 0) = l.filter p ++ l.filter (!p ·) := by
  have hsplit : ∀ {l : List α} {i : ℕ}, l.Pairwise (fun a b => p a → p b) → l.findIdx? p = some i →
      i ≤ l.length ∧ l.drop i = l.filter p ∧ l.take i = l.filter (!p ·) := by
    intro l
    induction l with
    | nil => exact fun _ h => nomatch h
    | cons a l ih =>
      intro i hpair h
      rw [pairwise_cons] at hpair
      rw [findIdx?_cons] at h
      split at h
      · next ha =>
        obtain rfl := some.inj h
        have hall : ∀ b ∈ a :: l, p b = true := forall_mem_cons.mpr ⟨ha, fun b hb => hpair.1 b hb ha⟩
        refine ⟨Nat.zero_le _, (filter_eq_self.mpr hall).symm, ?_⟩
        exact (filter_eq_nil_iff.mpr fun b hb => by simp [hall b hb]).symm
      · next ha =>
        obtain ⟨j, hj, rfl⟩ := map_eq_some_iff.mp h
        obtain ⟨hle, hdrop, htake⟩ := ih hpair.2 hj
        refine ⟨Nat.succ_le_succ hle, ?_, ?_⟩
        · rw [drop_succ_cons, hdrop, filter_cons_of_neg ha]
        · rw [take_succ_cons, htake, filter_cons_of_pos (by simpa using ha)]
  intro l hpair
  cases h : l.findIdx? p with
  | none =>
    have hnone := findIdx?_eq_none_iff.mp h
    rw [getD_none, rotate_zero, filter_eq_nil_iff.mpr fun a ha => by simp [hnone a ha],
      nil_append, filter_eq_self.mpr fun a ha => by simp [hnone a ha]]
  | some i =>
    obtain ⟨hle, hdrop, htake⟩ := hsplit hpair h
    rw [getD_some, rotate_eq_drop_append_take hle, hdrop, htake]

/-- **A list is its keys' stretches of it**, up to order. -/
theorem perm_flatMap_filter {κ : Type v} [DecidableEq κ] {f : α → κ} :
    ∀ {keys : List κ} {l : List α}, keys.Nodup → (∀ a ∈ l, f a ∈ keys) →
      l.Perm (keys.flatMap fun k => l.filter (f · = k))
  | [], [], _, _ => .nil
  | [], a :: l, _, h => absurd (h a mem_cons_self) not_mem_nil
  | k :: keys, l, hnodup, h => by
    rw [nodup_cons] at hnodup
    have hrest := perm_flatMap_filter (l := l.filter (f · ≠ k)) hnodup.2 fun a ha =>
      (mem_cons.mp (h a (mem_filter.mp ha).1)).resolve_left
        (by simpa using (mem_filter.mp ha).2)
    have heq : (keys.flatMap fun j => (l.filter (f · ≠ k)).filter (f · = j)) =
        keys.flatMap fun j => l.filter (f · = j) := by
      refine flatMap_congr fun j hj => ?_
      rw [List.filter_filter]
      refine filter_congr fun a _ => ?_
      have hne : j ≠ k := fun heq => hnodup.1 (heq ▸ hj)
      by_cases ha : f a = j <;> simp [ha, hne]
    rw [heq] at hrest
    rw [flatMap_cons]
    refine (filter_append_perm (f · = k) l).symm.trans (.append_left _ ?_)
    simpa only [decide_not] using hrest

end Turning

/-! ## Rounds -/

section Rounds

variable {K : Type u} {A : Type v}

/-- What one round serves: the first item of each queue that has one. -/
def popped (queues : List (K × List A)) : List (K × A) :=
  queues.filterMap fun q => q.2.head?.map (q.1, ·)

/-- The queues after a round. -/
def poppedLeft (queues : List (K × List A)) : List (K × List A) := queues.map fun q => (q.1, q.2.tail)

theorem popped_cons (q : K × List A) (queues : List (K × List A)) :
    popped (q :: queues) = (q.2.head?.map (q.1, ·)).toList ++ popped queues := by
  unfold popped
  rw [filterMap_cons]
  cases q.2.head? <;> rfl

theorem length_popped : ∀ queues : List (K × List A),
    (popped queues).length + ((poppedLeft queues).map (·.2.length)).sum =
      (queues.map (·.2.length)).sum
  | [] => rfl
  | (k, items) :: queues => by
    have ih := length_popped queues
    rw [popped_cons, length_append, poppedLeft, map_cons, map_cons, map_cons,
      sum_cons, sum_cons, ← ih, poppedLeft]
    cases items with
    | nil => simp
    | cons a items => simp; omega

theorem popped_eq_nil_iff {queues : List (K × List A)} :
    popped queues = [] ↔ ∀ q ∈ queues, q.2 = [] := by
  rw [popped, filterMap_eq_nil_iff]
  simp

/-- Rounds, until one serves nothing. -/
def rounds (queues : List (K × List A)) : List (K × A) :=
  if popped queues = [] then [] else popped queues ++ rounds (poppedLeft queues)
termination_by (queues.map (·.2.length)).sum
decreasing_by
  have := length_popped queues
  have := length_pos_iff.mpr ‹popped queues ≠ []›
  omega

variable (queues : List (K × List A))

/-- **A round, then the rounds of what it leaves.** -/
theorem rounds_eq : rounds queues = popped queues ++ rounds (poppedLeft queues) := by
  rw [rounds]
  split
  · next hnone =>
    have hleft : popped (poppedLeft queues) = [] := by
      refine popped_eq_nil_iff.mpr fun q hq => ?_
      obtain ⟨q, hmem, rfl⟩ := List.mem_map.mp hq
      exact congrArg List.tail (popped_eq_nil_iff.mp hnone q hmem)
    rw [hnone, rounds, if_pos hleft, nil_append]
  · rfl

/-- What a round takes and what it leaves of each queue. -/
theorem popped_append_perm : ∀ queues : List (K × List A),
    (popped queues ++ (poppedLeft queues).flatMap fun q => q.2.map (q.1, ·)).Perm
      (queues.flatMap fun q => q.2.map (q.1, ·))
  | [] => .nil
  | (k, items) :: queues => by
    have ih := popped_append_perm queues
    rw [popped_cons, poppedLeft, map_cons, flatMap_cons, flatMap_cons]
    cases items with
    | nil => simpa [poppedLeft] using ih
    | cons a items =>
      refine .cons _ ?_
      refine (perm_append_comm_assoc _ _ _).trans (.append_left _ ?_)
      exact ih

/-- **Rounds serve every item once.** -/
theorem rounds_perm : (rounds queues).Perm (queues.flatMap fun q => q.2.map (q.1, ·)) := by
  induction queues using rounds.induct with
  | case1 queues hnone =>
    have hnil : (queues.flatMap fun q => q.2.map (q.1, ·)) = [] :=
      flatMap_eq_nil_iff.mpr fun q hq =>
        map_eq_nil_iff.mpr (popped_eq_nil_iff.mp hnone q hq)
    rw [rounds, if_pos hnone, hnil]
  | case2 queues _ ih =>
    rw [rounds_eq]
    exact (ih.append_left _).trans (popped_append_perm queues)

theorem mem_rounds {queues : List (K × List A)} {p : K × A} :
    p ∈ rounds queues ↔ ∃ q ∈ queues, q.1 = p.1 ∧ p.2 ∈ q.2 := by
  rw [(rounds_perm queues).mem_iff, mem_flatMap]
  refine exists_congr fun q => and_congr_right fun _ => ?_
  rw [List.mem_map]
  constructor
  · rintro ⟨a, ha, rfl⟩
    exact ⟨rfl, ha⟩
  · rintro ⟨hk, ha⟩
    exact ⟨p.2, ha, Prod.ext hk rfl⟩

/-- A round serves the keys whose queues are not empty, in the order of the queues. -/
theorem map_fst_popped :
    (popped queues).map fst = (queues.filter (·.2 ≠ [])).map fst := by
  induction queues with
  | nil => rfl
  | cons q queues ih =>
    obtain ⟨k, items⟩ := q
    rw [popped_cons, map_append, ih]
    cases items <;> simp

theorem map_fst_poppedLeft : (poppedLeft queues).map fst = queues.map fst := by
  rw [poppedLeft, List.map_map]
  rfl

/-- **Each queue is served in its own order.** -/
theorem filter_rounds [DecidableEq K] {queues : List (K × List A)}
    (hnodup : (queues.map fst).Nodup) {k : K} {items : List A} (h : (k, items) ∈ queues) :
    ((rounds queues).filter (·.1 = k)).map snd = items := by
  have hround : ∀ {queues : List (K × List A)} {items : List A},
      (queues.map fst).Nodup → (k, items) ∈ queues →
        ((popped queues).filter (·.1 = k)).map snd = items.head?.toList := by
    intro queues
    induction queues with
    | nil => exact fun _ h => absurd h not_mem_nil
    | cons q queues ih =>
      intro items hnodup h
      rw [map_cons, nodup_cons] at hnodup
      rw [popped_cons, filter_append, map_append]
      rcases mem_cons.mp h with rfl | h
      · have hrest : (popped queues).filter (·.1 = k) = [] := by
          refine filter_eq_nil_iff.mpr fun p hp hpk => hnodup.1 ?_
          obtain ⟨q, hq, hsome⟩ := mem_filterMap.mp hp
          obtain ⟨a, -, rfl⟩ := map_eq_some_iff.mp hsome
          exact List.mem_map.mpr ⟨q, hq, of_decide_eq_true hpk⟩
        rw [hrest]
        cases items <;> simp
      · have hne : q.1 ≠ k := fun heq => hnodup.1 (heq ▸ List.mem_map.mpr ⟨_, h, rfl⟩)
        rw [ih hnodup.2 h]
        cases q.2 <;> simp [hne]
  induction queues using rounds.induct generalizing items with
  | case1 queues hnone =>
    obtain rfl : items = [] := popped_eq_nil_iff.mp hnone _ h
    rw [rounds, if_pos hnone]
    rfl
  | case2 queues _ ih =>
    rw [rounds_eq, filter_append, map_append, hround hnodup h,
      ih (by rwa [map_fst_poppedLeft]) (List.mem_map.mpr ⟨_, h, rfl⟩)]
    cases items <;> rfl

variable {r : K → K → Prop} [IsStrictTotalOrder K r] {c : Option K}

/-- A round's callers go on in turn into servings only of callers of the round. -/
theorem inTurn_round_append {rest : List K} : ∀ {ks : List K} {z : K},
    (z :: ks).Pairwise (After r c) → (∀ x ∈ rest, ¬ After r c z x ∨ x ∈ ks) →
      InTurn r c (servings rest) → InTurn r (some z) (servings (ks ++ rest))
  | [], z, _, hrest, h => by
    -- No caller of the rest is past the last one served, so the round starts again at the first.
    cases rest with
    | nil => exact trivial
    | cons k rest =>
      have hback : ∀ x ∈ k :: rest, ¬ After r c z x := fun x hx =>
        (hrest x hx).resolve_right not_mem_nil
      refine ⟨fun x hx hsooner => ?_, h.2⟩
      rw [← around_after c] at hsooner
      rcases hsooner with ⟨hz, -⟩ | ⟨-, hxk⟩
      · exact hback x hx hz
      · exact h.1 x hx hxk
  | k :: ks, z, hpair, hrest, h => by
    rw [pairwise_cons] at hpair
    have hzk : After r c z k := hpair.1 k mem_cons_self
    have hks := pairwise_cons.mp hpair.2
    have hnot : ∀ x, ¬ After r c z x ∨ x ∈ k :: ks → ¬ After r (some z) x k := by
      intro x hx hsooner
      rw [← around_after c] at hsooner
      rcases hsooner with ⟨-, hnot⟩ | ⟨hiff, hxk⟩
      · exact hnot hzk
      · rcases hx with hx | hx
        · exact hx (hiff.mpr hzk)
        · rcases mem_cons.mp hx with rfl | hx
          · exact irrefl_of _ _ hxk
          · exact irrefl_of _ _ (trans_of _ hxk (hks.1 x hx))
    refine ⟨fun x hx => hnot x ?_, inTurn_round_append hpair.2 (fun x hx => ?_) h⟩
    · rcases mem_append.mp (show x ∈ k :: ks ++ rest from hx) with hx | hx
      · exact .inr hx
      · exact hrest x hx
    · rcases hrest x hx with hx | hx
      · exact .inl fun hkx => hx (trans_of _ hzk hkx)
      · rcases mem_cons.mp hx with rfl | hx
        · exact .inl (irrefl_of _ _)
        · exact .inr hx

/-- **Rounds of queues that stand in turn order serve in turn.** -/
theorem inTurn_rounds {queues : List (K × List A)}
    (h : (queues.map fst).Pairwise (After r c)) :
    InTurn r c (servings ((rounds queues).map fst)) := by
  induction queues using rounds.induct with
  | case1 queues hnone =>
    rw [rounds, if_pos hnone]
    exact trivial
  | case2 queues _ ih =>
    have hpair : ((popped queues).map fst).Pairwise (After r c) := by
      rw [map_fst_popped]
      exact h.sublist ((filter_sublist).map _)
    have hrest : ∀ x ∈ (rounds (poppedLeft queues)).map fst, x ∈ (popped queues).map fst := by
      intro x hx
      obtain ⟨p, hp, rfl⟩ := List.mem_map.mp hx
      obtain ⟨q, hq, hqp, hitem⟩ := mem_rounds.mp hp
      obtain ⟨q, hmem, rfl⟩ := List.mem_map.mp hq
      rw [map_fst_popped]
      refine List.mem_map.mpr ⟨q, mem_filter.mpr ⟨hmem, decide_eq_true fun hnil => ?_⟩, hqp⟩
      simp [hnil] at hitem
    have hturn := ih (by rwa [map_fst_poppedLeft])
    rw [rounds_eq, map_append]
    cases hks : (popped queues).map fst with
    | nil =>
      rwa [nil_append]
    | cons k ks =>
      rw [hks] at hpair hrest
      refine ⟨fun x hx => ?_, inTurn_round_append hpair (fun x hx => ?_) hturn⟩
      · have hx : x ∈ k :: ks := by
          rcases mem_append.mp (show x ∈ k :: ks ++ _ from hx) with hx | hx
          · exact hx
          · exact hrest x hx
        rcases mem_cons.mp hx with rfl | hx
        · exact irrefl_of _ _
        · exact fun hxk => irrefl_of _ _ (trans_of _ hxk ((pairwise_cons.mp hpair).1 x hx))
      · rcases mem_cons.mp (hrest x hx) with rfl | hx
        · exact .inl (irrefl_of _ _)
        · exact .inr hx

end Rounds

end Oneiron
