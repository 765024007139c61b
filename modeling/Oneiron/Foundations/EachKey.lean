import Oneiron.Foundations.Fallible
import Oneiron.Foundations.Joined

/-!
# Foundations/EachKey — loops over a map's bindings that may fail, and a map of maps turned about

A loop that may fail, and whose step at a key reads and writes what is at that key alone, does at
each key what its one step there does (`foldlM_at`), and fails only if some step would have failed
by itself (`exists_foldlM_at`).

      a ↦ {x, y}                 x ↦ {a, b}
      b ↦ {x}        turned      y ↦ {a}
-/

open Std

namespace Oneiron

open Std.ExtTreeMap List ExtTreeSet

namespace OrderedMap

section Loops

universe u v

variable {ε σ τ : Type u} {κ ν : Type u} [Ord κ] [TransOrd κ] [LawfulEqOrd κ]
  {sees : σ → κ → τ} {step : σ → κ × ν → Except ε σ} {effect : κ → τ → ν → Except ε τ}

omit [LawfulEqOrd κ] in
theorem nodup_map_fst_toList (m : OrderedMap κ ν) : (m.toList.map Prod.fst).Nodup := by
  rw [map_fst_toList_eq_keys]
  exact nodup_keys

omit [Ord κ] [TransOrd κ] [LawfulEqOrd κ] in
/-- What a loop over distinct keys leaves, and that it fails only where a step does. -/
theorem foldlM_distinct (hself : ∀ s k v, (step s (k, v)).map (sees · k) = effect k (sees s k) v)
    (hother : ∀ s k v {s' j}, step s (k, v) = .ok s' → j ≠ k → sees s' j = sees s j) :
    ∀ {l : List (κ × ν)} {s : σ}, (l.map Prod.fst).Nodup →
      (∀ {s'}, l.foldlM step s = .ok s' →
        (∀ k v, (k, v) ∈ l → effect k (sees s k) v = .ok (sees s' k)) ∧
        ∀ k, k ∉ l.map Prod.fst → sees s' k = sees s k) ∧
      ((∀ k v, (k, v) ∈ l → ∃ t, effect k (sees s k) v = .ok t) → ∃ s', l.foldlM step s = .ok s')
  | [], s, _ => by
    refine ⟨fun {s'} h => ?_, fun _ => ⟨s, rfl⟩⟩
    rw [foldlM_nil, pure_eq_ok] at h
    subst h
    exact ⟨nofun, fun _ _ => rfl⟩
  | (j, w) :: l, s, hnodup => by
    rw [map_cons, nodup_cons] at hnodup
    have hne {k : κ} {v : ν} (h : (k, v) ∈ l) : k ≠ j := fun he =>
      hnodup.1 (List.mem_map.mpr ⟨_, h, he⟩)
    have hrest (s₁ : σ) := foldlM_distinct hself hother (s := s₁) hnodup.2
    constructor
    · intro s' h
      obtain ⟨s₁, hstep, h⟩ := bind_eq_ok.mp h
      obtain ⟨hmem, hnot⟩ := (hrest s₁).1 h
      have hj := hself s j w
      rw [hstep] at hj
      constructor
      · intro k v hk
        rcases mem_cons.mp hk with heq | hk
        · obtain ⟨rfl, rfl⟩ := Prod.mk.inj heq
          rw [hnot k hnodup.1, ← hj]
          rfl
        · rw [← hmem k v hk, hother s j w hstep (hne hk)]
      · intro k hk
        rw [map_cons, mem_cons, not_or] at hk
        rw [hnot k hk.2, hother s j w hstep hk.1]
    · intro h
      obtain ⟨t, ht⟩ := h j w mem_cons_self
      rw [← hself s j w] at ht
      cases hstep : step s (j, w) with
      | error e => simp [hstep, Except.map] at ht
      | ok s₁ =>
        obtain ⟨s', hs'⟩ := (hrest s₁).2 fun k v hk => by
          rw [hother s j w hstep (hne hk)]
          exact h k v (mem_cons_of_mem _ hk)
        exact ⟨s', bind_eq_ok.mpr ⟨s₁, hstep, hs'⟩⟩

/-- **The loop rule**: a loop that does not fail leaves at each key what that key's step leaves. -/
theorem foldlM_at (hself : ∀ s k v, (step s (k, v)).map (sees · k) = effect k (sees s k) v)
    (hother : ∀ s k v {s' j}, step s (k, v) = .ok s' → j ≠ k → sees s' j = sees s j)
    {m : OrderedMap κ ν} {s s' : σ} (h : m.toList.foldlM step s = .ok s') (k : κ) :
    m[k]?.elim (.ok (sees s k)) (effect k (sees s k)) = .ok (sees s' k) := by
  obtain ⟨hmem, hnot⟩ := (foldlM_distinct hself hother m.nodup_map_fst_toList).1 h
  cases hk : m[k]? with
  | some v => exact hmem k v (mem_toList_iff_getElem?_eq_some.mpr hk)
  | none =>
    have hk : k ∉ m.toList.map Prod.fst := by
      rw [map_fst_toList_eq_keys, ExtTreeMap.mem_keys, mem_iff_isSome_getElem?,
        hk]
      exact Bool.false_ne_true
    rw [hnot k hk]
    rfl

/-- …and it does not fail while no step by itself does. -/
theorem exists_foldlM_at (hself : ∀ s k v, (step s (k, v)).map (sees · k) = effect k (sees s k) v)
    (hother : ∀ s k v {s' j}, step s (k, v) = .ok s' → j ≠ k → sees s' j = sees s j)
    {m : OrderedMap κ ν} {s : σ} (h : ∀ k v, m[k]? = some v → ∃ t, effect k (sees s k) v = .ok t) :
    ∃ s', m.toList.foldlM step s = .ok s' :=
  (foldlM_distinct hself hother m.nodup_map_fst_toList).2 fun k v hk =>
    h k v (mem_toList_iff_getElem?_eq_some.mp hk)

end Loops

/-! ## Weights of two maps -/

section Weights

variable {κ ν μ : Type*} [Ord κ] [TransOrd κ] [LawfulEqOrd κ]

theorem weigh_eq_weigh (w : κ → ν → ℕ) {w' : κ → μ → ℕ} {m : OrderedMap κ ν} {n : OrderedMap κ μ}
    (h : ∀ k, weightAt w m k = weightAt w' n k) : weigh w m = weigh w' n :=
  Nat.le_antisymm (weigh_le_weigh w fun k => (h k).le) (weigh_le_weigh w' fun k => (h k).ge)

theorem weight_le_weigh {w : κ → ν → ℕ} {m : OrderedMap κ ν} {k : κ} {v : ν} (h : m[k]? = some v) :
    w k v ≤ weigh w m := by
  have hat : weightAt w m k = w k v := by simp [weightAt, h]
  have := weigh_erase_add w m k
  omega

end Weights

/-! ## A map of maps turned about -/

section Turned

variable {α β γ : Type} [Ord α] [TransOrd α] [LawfulEqOrd α] [Ord β] [TransOrd β] [LawfulEqOrd β]

/-- The entry of a map of maps at a row and a column. -/
def entry (m : OrderedMap α (OrderedMap β γ)) (a : α) (b : β) : Option γ := m[a]?.bind (·[b]?)

/-- A map of maps with one entry written. -/
def file (m : OrderedMap α (OrderedMap β γ)) (a : α) (b : β) (c : γ) : OrderedMap α (OrderedMap β γ) :=
  m.insert a ((m[a]?.getD ∅).insert b c)

/-- A map of maps whose rows are another's columns. -/
def turned (m : OrderedMap α (OrderedMap β γ)) : OrderedMap β (OrderedMap α γ) :=
  m.toList.foldl (fun out row => row.2.toList.foldl (fun out p => file out p.1 row.1 p.2) out) ∅

section

variable [DecidableEq α] [DecidableEq β]

variable (m : OrderedMap α (OrderedMap β γ)) (a : α)

theorem entry_file (a' : α) (b b' : β) (c : γ) :
    entry (file m a b c) a' b' = if a = a' ∧ b = b' then some c else entry m a' b' := by
  unfold entry file
  by_cases ha : a = a'
  · subst ha
    rw [getElem?_insert_self, Option.bind_some, ExtTreeMap.getElem?_insert]
    cases m[a]? <;> simp
  · simp [ExtTreeMap.getElem?_insert, ha]

/-- A row filed as a column. -/
theorem entry_foldl_file (row : OrderedMap β γ) (out : OrderedMap β (OrderedMap α γ)) (a' : α)
    (b : β) : entry (row.toList.foldl (fun out p => file out p.1 a p.2) out) b a' =
      if a = a' then (row[b]?).or (entry out b a') else entry out b a' := by
  rw [foldl_at (fun out b => entry out b a') _ (fun _ held c => if a = a' then some c else held)
    (fun out b c => by simp [entry_file]) (fun out b c j hne => by simp [entry_file, hne.symm])]
  cases row[b]? <;> simp

/-- **Turning a map of maps swaps its rows and columns.** -/
theorem entry_turned (b : β) : entry (turned m) b a = entry m a b := by
  rw [turned, foldl_at (fun out a => entry out b a) _ (fun _ held row => (row[b]?).or held)
    (fun out a row => by rw [entry_foldl_file, if_pos rfl])
    (fun out a row j hne => by rw [entry_foldl_file, if_neg hne.symm])]
  cases h : m[a]? with
  | none => simp [entry, h]
  | some row => cases hrow : row[b]? <;> simp [entry, h, hrow]

end

omit [LawfulEqOrd α] [LawfulEqOrd β] in
/-- Turning leaves no row without an entry. -/
theorem exists_entry_of_turned {m : OrderedMap α (OrderedMap β γ)} {b : β} {row : OrderedMap α γ}
    (h : (turned m)[b]? = some row) : ∃ (a : α) (c : γ), row[a]? = some c := by
  let Filled (out : OrderedMap β (OrderedMap α γ)) : Prop :=
    ∀ (b : β) (row : OrderedMap α γ), out[b]? = some row → ∃ (a : α) (c : γ), row[a]? = some c
  have hfile (out : OrderedMap β (OrderedMap α γ)) (hout : Filled out) (b : β) (a : α) (c : γ) :
      Filled (file out b a c) := by
    intro b' row' h'
    rw [file, ExtTreeMap.getElem?_insert] at h'
    split at h'
    · obtain rfl := Option.some.inj h'
      exact ⟨a, c, getElem?_insert_self⟩
    · exact hout b' row' h'
  have hall : Filled (turned m) :=
    List.foldlRecOn m.toList _ (fun _ _ h => by simp at h) fun out hout row _ =>
      List.foldlRecOn row.2.toList _ hout fun out hout p _ => hfile out hout p.1 row.1 p.2
  exact hall b row h

end Turned

end OrderedMap

/-! ## Members taken out of a set -/

section Taken

universe u

variable {ε κ : Type u} [Ord κ] [TransOrd κ] [LawfulEqOrd κ]

/-- Takes a member out; what is no member is an error. -/
def OrderedSet.take (e : ε) (s : OrderedSet κ) (k : κ) : Except ε (OrderedSet κ) :=
  if k ∈ s then .ok (s.erase k) else .error e

/-- **Distinct members taken out one by one** leave the others. -/
theorem OrderedSet.foldlM_take [DecidableEq κ] {e : ε} : ∀ {l : List κ} {s : OrderedSet κ},
    l.Nodup → (∀ k ∈ l, k ∈ s) →
      ∃ s', l.foldlM (OrderedSet.take e) s = .ok s' ∧ ∀ k, k ∈ s' ↔ k ∈ s ∧ k ∉ l
  | [], s, _, _ => ⟨s, rfl, fun k => by simp⟩
  | j :: l, s, hnodup, hmem => by
    rw [nodup_cons] at hnodup
    rw [forall_mem_cons] at hmem
    obtain ⟨s', hs', hleft⟩ := foldlM_take (e := e) (s := s.erase j) hnodup.2 fun k hk =>
      ExtTreeSet.mem_erase.mpr ⟨fun h => hnodup.1 (Std.compare_eq_iff_eq.mp h ▸ hk), hmem.2 k hk⟩
    refine ⟨s', bind_eq_ok.mpr ⟨s.erase j, if_pos hmem.1, hs'⟩, fun k => ?_⟩
    rw [hleft, ExtTreeSet.mem_erase, mem_cons, not_or, Ne, Std.compare_eq_iff_eq]
    tauto

variable {s : OrderedSet κ}

/-- **Members put one by one** join those there. -/
theorem OrderedSet.mem_foldl_insert {l : List κ} {k : κ} :
    k ∈ l.foldl (fun s j => s.insert j) s ↔ k ∈ s ∨ k ∈ l := by
  induction l generalizing s with
  | nil => simp
  | cons j l ih =>
    rw [foldl_cons, ih, ExtTreeSet.mem_insert, mem_cons, Std.compare_eq_iff_eq]
    tauto

/-- **Members erased one by one** leave the others. -/
theorem OrderedSet.mem_foldl_erase {l : List κ} {k : κ} :
    k ∈ l.foldl (fun s j => s.erase j) s ↔ k ∈ s ∧ k ∉ l := by
  induction l generalizing s with
  | nil => simp
  | cons j l ih =>
    rw [foldl_cons, ih, ExtTreeSet.mem_erase, mem_cons, not_or, Ne, Std.compare_eq_iff_eq,
      eq_comm]
    tauto

omit [LawfulEqOrd κ] in
theorem OrderedSet.toList_ne_nil (h : s ≠ ∅) : s.toList ≠ [] :=
  fun hnil => h (toList_eq_nil_iff.mp hnil)

theorem OrderedSet.exists_mem (h : s ≠ ∅) : ∃ k, k ∈ s := by
  obtain ⟨k, hk⟩ := exists_mem_of_ne_nil s.toList (toList_ne_nil h)
  exact ⟨k, mem_toList.mp hk⟩

/-- **A set with a member more is larger.** -/
theorem OrderedSet.size_lt {t : OrderedSet κ} (h : ∀ k ∈ s, k ∈ t) {k : κ} (hk : k ∈ t)
    (hnot : k ∉ s) : s.size < t.size := by
  have hnodup : (k :: s.toList).Nodup := by
    refine nodup_cons.mpr ⟨fun hin => hnot (ExtTreeSet.mem_toList.mp hin), ?_⟩
    exact (distinct_toList (t := s)).imp fun hab heq =>
      hab (Std.compare_eq_iff_eq.mpr heq)
  have hsub : k :: s.toList ⊆ t.toList :=
    cons_subset.mpr ⟨mem_toList.mpr hk, fun j hj =>
      mem_toList.mpr (h j (mem_toList.mp hj))⟩
  have hlen := (subperm_of_subset hnodup hsub).length_le
  rwa [length_cons, ExtTreeSet.length_toList, ExtTreeSet.length_toList] at hlen

end Taken

end Oneiron
