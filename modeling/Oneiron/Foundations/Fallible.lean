import Mathlib.Data.List.Forall2

/-!
# Foundations/Fallible — computations in `Except`, taken apart where they succeed
-/

namespace Oneiron

open List

universe u

variable {ε α β : Type u}

variable {x : Except ε α} {f : α → Except ε β} {e : ε} {a : α} {final : β}

@[simp] theorem bind_eq_ok {b : β} : (x >>= f) = .ok b ↔ ∃ a, x = .ok a ∧ f a = .ok b := by
  cases x with
  | error e => exact ⟨nofun, fun ⟨_, h, _⟩ => nomatch h⟩
  | ok a => exact ⟨fun h => ⟨a, rfl, h⟩, fun ⟨_, h, hb⟩ => by cases h; exact hb⟩

@[simp] theorem pure_eq_ok {b : α} : (pure a : Except ε α) = .ok b ↔ a = b :=
  Except.ok.injEq a b ▸ Iff.rfl

@[simp] theorem throw_ne_ok {b : α} : (throw e : Except ε α) = .ok b ↔ False :=
  ⟨nofun, False.elim⟩

theorem map_bind_except {γ : Type u} {g : β → γ} :
    (x >>= f).map g = x >>= fun a => (f a).map g := by
  cases x <;> rfl

theorem map_pure_except {g : α → β} : (pure a : Except ε α).map g = pure (g a) := rfl

/-- What an option holds, or the error for its absence. -/
def okOr (o : Option α) (e : ε) : Except ε α := o.elim (.error e) .ok

@[simp] theorem okOr_eq_ok {o : Option α} : okOr o e = .ok a ↔ o = some a := by
  cases o <;> simp [okOr]

/-- Nothing, or the error when a check fails. -/
def ensure (p : Prop) [Decidable p] (e : ε) : Except ε PUnit := if p then .ok ⟨⟩ else .error e

@[simp] theorem ensure_eq_ok {p : Prop} [Decidable p] {u : PUnit} : ensure p e = .ok u ↔ p := by
  unfold ensure
  split <;> simp_all

/-- A list checked without failure passes everywhere. -/
theorem forM_eq_ok {f : α → Except ε PUnit.{u + 1}} {p : PUnit} :
    ∀ {l : List α}, l.forM f = .ok p ↔ ∀ a ∈ l, f a = .ok ⟨⟩
  | [] => ⟨fun _ => nofun, fun _ => rfl⟩
  | a :: rest => by
    show (f a >>= fun _ => rest.forM f) = .ok p ↔ _
    rw [bind_eq_ok, forall_mem_cons]
    simp only [forM_eq_ok (l := rest)]
    exact ⟨fun ⟨_, h, hrest⟩ => ⟨h, hrest⟩, fun ⟨h, hrest⟩ => ⟨⟨⟩, h, hrest⟩⟩

/-- A successful fold over a concatenation succeeds on each half. -/
theorem foldlM_append_eq_ok {f : β → α → Except ε β} {init : β} {l l' : List α} :
    (l ++ l').foldlM f init = .ok final ↔
      ∃ mid, l.foldlM f init = .ok mid ∧ l'.foldlM f mid = .ok final := by
  rw [foldlM_append, bind_eq_ok]

theorem foldlM_singleton_eq_ok {f : β → α → Except ε β} {init : β} :
    [a].foldlM f init = .ok final ↔ f init a = .ok final := by
  simp [foldlM_cons]

/-- What every successful step keeps, a successful fold keeps. -/
theorem foldlM_preserves {f : β → α → Except ε β} (Inv : β → Prop)
    (hstep : ∀ {b a b'}, Inv b → f b a = .ok b' → Inv b') :
    ∀ {l : List α} {init final : β}, l.foldlM f init = .ok final → Inv init → Inv final
  | [], _, _, h, hi => by
    rw [foldlM_nil, pure_eq_ok] at h
    exact h ▸ hi
  | _ :: _, _, _, h, hi => by
    obtain ⟨_, hb, h⟩ := bind_eq_ok.mp h
    exact foldlM_preserves Inv hstep h (hstep hi hb)

/-- A list sifted by a check that never fails. -/
theorem foldlM_keep {ε α : Type} {f : α → Except ε Bool} {g : α → Bool} (h : ∀ a, f a = .ok (g a)) :
    ∀ (l kept : List α), l.foldlM (fun kept a => do
      if ← f a then pure (kept ++ [a]) else pure kept) kept = .ok (kept ++ l.filter g)
  | [], kept => by rw [foldlM_nil, filter_nil, append_nil]; rfl
  | a :: l, kept => by
    rw [foldlM_cons, bind_eq_ok]
    cases hg : g a with
    | true =>
      refine ⟨kept ++ [a], by rw [h, hg]; rfl, ?_⟩
      rw [foldlM_keep h l, filter_cons_of_pos hg, append_assoc, singleton_append]
    | false =>
      refine ⟨kept, by rw [h, hg]; rfl, ?_⟩
      rw [foldlM_keep h l, filter_cons_of_neg (by rw [hg]; exact Bool.false_ne_true)]

/-- A list mapped without failure pairs each result with what it came from. -/
theorem mem_zip_of_mapM {γ : Type u} {g : α → γ} :
    ∀ {l : List α} {bs : List β}, l.mapM f = .ok bs → ∀ {b : β} {c : γ},
      (b, c) ∈ bs.zip (l.map g) ↔ ∃ a ∈ l, f a = .ok b ∧ g a = c
  | [], bs, h, b, c => by
    rw [mapM_nil, pure_eq_ok] at h
    simp [← h]
  | a :: rest, bs, h, b, c => by
    simp only [mapM_cons, bind_eq_ok, pure_eq_ok] at h
    obtain ⟨b₀, hb₀, bs₀, hbs₀, rfl⟩ := h
    rw [map_cons, zip_cons_cons, mem_cons, mem_zip_of_mapM hbs₀, Prod.mk.injEq]
    constructor
    · rintro (⟨rfl, rfl⟩ | ⟨a', ha', h⟩)
      · exact ⟨a, mem_cons_self, hb₀, rfl⟩
      · exact ⟨a', mem_cons_of_mem _ ha', h⟩
    · rintro ⟨a', ha', hb, hc⟩
      rcases mem_cons.mp ha' with rfl | ha'
      · exact Or.inl ⟨Except.ok.inj (hb.symm.trans hb₀), hc.symm⟩
      · exact Or.inr ⟨a', ha', hb, hc⟩

/-- A list mapped without failure has each result from what stands at its place. -/
theorem forall₂_of_mapM : ∀ {l : List α} {bs : List β}, l.mapM f = .ok bs →
    List.Forall₂ (fun a b => f a = .ok b) l bs
  | [], bs, h => by
    rw [mapM_nil, pure_eq_ok] at h
    exact h ▸ .nil
  | a :: rest, bs, h => by
    simp only [mapM_cons, bind_eq_ok, pure_eq_ok] at h
    obtain ⟨b, hb, bs', hbs', rfl⟩ := h
    exact .cons hb (forall₂_of_mapM hbs')

/-- What a list was mapped to came from it. -/
theorem mem_of_mapM :
    ∀ {l : List α} {bs : List β}, l.mapM f = .ok bs → ∀ {b : β}, b ∈ bs → ∃ a ∈ l, f a = .ok b
  | [], bs, h, b, hb => by
    rw [mapM_nil, pure_eq_ok] at h
    exact absurd (h ▸ hb) not_mem_nil
  | a :: rest, bs, h, b, hb => by
    simp only [mapM_cons, bind_eq_ok, pure_eq_ok] at h
    obtain ⟨b', hb', bs', hbs', rfl⟩ := h
    rcases mem_cons.mp hb with rfl | hb
    · exact ⟨a, mem_cons_self, hb'⟩
    · obtain ⟨a', ha', hf⟩ := mem_of_mapM hbs' hb
      exact ⟨a', mem_cons_of_mem _ ha', hf⟩

/-- A list mapped with no step that fails gives a result for each. -/
theorem exists_mapM {P : α → β → Prop} : ∀ {l : List α}, (∀ a ∈ l, ∃ b, f a = .ok b ∧ P a b) →
      ∃ bs, l.mapM f = .ok bs ∧ List.Forall₂ P l bs
  | [], _ => ⟨[], rfl, .nil⟩
  | a :: rest, h => by
    rw [forall_mem_cons] at h
    obtain ⟨⟨b, hb, hP⟩, hrest⟩ := h
    obtain ⟨bs, hbs, hall⟩ := exists_mapM hrest
    simp only [mapM_cons, bind_eq_ok, pure_eq_ok]
    exact ⟨b :: bs, ⟨b, hb, bs, hbs, rfl⟩, .cons hP hall⟩

/-- …and fails nowhere. -/
theorem exists_ok_of_mapM :
    ∀ {l : List α} {bs : List β}, l.mapM f = .ok bs → ∀ a ∈ l, ∃ b, f a = .ok b
  | a :: rest, bs, h, a', ha' => by
    simp only [mapM_cons, bind_eq_ok, pure_eq_ok] at h
    obtain ⟨b, hb, bs', hbs', -⟩ := h
    rcases mem_cons.mp ha' with rfl | ha'
    · exact ⟨b, hb⟩
    · exact exists_ok_of_mapM hbs' a' ha'

end Oneiron
