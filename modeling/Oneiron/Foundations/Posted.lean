import Oneiron.Foundations.Ordered

/-!
# Foundations/Posted — notes that follow what waits

Things wait under keys, each until a date and on behalf of some subjects.  A set of dated notes and
a table of who stands for each subject are *posted* when they list exactly that (`Posted`): posting
a thing adds its rows (`Posted.post`), dropping it takes them away again (`Posted.drop`), and the
first note is the earliest date anything waits until (`Posted.earliest_eq_some`).

      waits k = some ⟨date, subjects⟩   ↔   (date, k) ∈ dates,  (subject, ref k) ∈ carriers
-/

open Std

namespace Oneiron

open ExtTreeSet

variable {κ ι γ : Type*} [Ord κ] [TransOrd κ] [LawfulEqOrd κ] [Ord ι] [TransOrd ι] [LawfulEqOrd ι]
  [Ord γ] [TransOrd γ] [LawfulEqOrd γ]

/-- What is noted of a thing that waits. -/
@[ext] structure Notice (ι : Type*) where
  date : ℕ
  subjects : List ι

/-! ## Registrations -/

/-- Names `ref` as a carrier of each subject. -/
def register (carriers : OrderedSet (ι × γ)) (subjects : List ι) (ref : γ) : OrderedSet (ι × γ) :=
  subjects.foldl (fun c subject => c.insert (subject, ref)) carriers

/-- Forgets `ref` as a carrier of each subject. -/
def forget (carriers : OrderedSet (ι × γ)) (subjects : List ι) (ref : γ) : OrderedSet (ι × γ) :=
  subjects.foldl (fun c subject => c.erase (subject, ref)) carriers

@[simp] theorem mem_register {subjects : List ι} {ref : γ} {row : ι × γ} :
    ∀ {carriers : OrderedSet (ι × γ)}, row ∈ register carriers subjects ref ↔
      row ∈ carriers ∨ (row.1 ∈ subjects ∧ row.2 = ref) := by
  induction subjects with
  | nil => simp [register]
  | cons subject rest ih =>
    intro carriers
    rw [show register carriers (subject :: rest) ref
      = register (carriers.insert (subject, ref)) rest ref from rfl, ih, mem_insert,
      Std.compare_eq_iff_eq, List.mem_cons, Prod.ext_iff]
    constructor
    · rintro ((⟨h₁, h₂⟩ | h) | ⟨h₁, h₂⟩)
      · exact Or.inr ⟨Or.inl h₁.symm, h₂.symm⟩
      · exact Or.inl h
      · exact Or.inr ⟨Or.inr h₁, h₂⟩
    · rintro (h | ⟨h₁ | h₁, h₂⟩)
      · exact Or.inl (Or.inr h)
      · exact Or.inl (Or.inl ⟨h₁.symm, h₂.symm⟩)
      · exact Or.inr ⟨h₁, h₂⟩

@[simp] theorem mem_forget {subjects : List ι} {ref : γ} {row : ι × γ} :
    ∀ {carriers : OrderedSet (ι × γ)}, row ∈ forget carriers subjects ref ↔
      row ∈ carriers ∧ ¬(row.1 ∈ subjects ∧ row.2 = ref) := by
  induction subjects with
  | nil => simp [forget]
  | cons subject rest ih =>
    intro carriers
    rw [show forget carriers (subject :: rest) ref
      = forget (carriers.erase (subject, ref)) rest ref from rfl, ih, mem_erase]
    simp only [ne_eq, Std.compare_eq_iff_eq, Prod.ext_iff, List.mem_cons, not_and]
    constructor
    · rintro ⟨⟨hne, h⟩, hrest⟩
      refine ⟨h, ?_⟩
      rintro (h₁ | h₁) h₂
      · exact hne h₁.symm h₂.symm
      · exact hrest h₁ h₂
    · rintro ⟨h, hall⟩
      exact ⟨⟨fun h₁ h₂ => hall (Or.inl h₁.symm) h₂.symm, h⟩, fun h₁ => hall (Or.inr h₁)⟩

/-! ## What is posted -/

/-- **The notes and the registrations are exactly those of what waits.** -/
structure Posted (ref : κ → γ) (waits : κ → Option (Notice ι)) (dates : OrderedSet (ℕ × κ))
    (carriers : OrderedSet (ι × γ)) : Prop where
  dated : ∀ date key, (date, key) ∈ dates ↔ ∃ notice, waits key = some notice ∧ notice.date = date
  carried : ∀ subject key, (subject, ref key) ∈ carriers ↔
    ∃ notice, waits key = some notice ∧ subject ∈ notice.subjects

namespace Posted

variable {ref : κ → γ} {waits waits' : κ → Option (Notice ι)} {dates : OrderedSet (ℕ × κ)}
  {carriers carriers' : OrderedSet (ι × γ)} {key : κ}

omit [LawfulEqOrd κ] [LawfulEqOrd ι] [LawfulEqOrd γ] in
theorem congr (h : Posted ref waits dates carriers) (hwaits : ∀ key, waits' key = waits key)
    (hcarriers : ∀ subject key, (subject, ref key) ∈ carriers' ↔ (subject, ref key) ∈ carriers) :
    Posted ref waits' dates carriers' where
  dated := fun date key => by rw [hwaits, h.dated]
  carried := fun subject key => by rw [hwaits, hcarriers, h.carried]

variable [DecidableEq κ]

section

variable (h : Posted ref waits dates carriers)

include h

/-- **A thing that begins to wait** is posted; one that waits again keeps its subjects, and a note of
it at another date is gone. -/
theorem post (href : Function.Injective ref) (notice : Notice ι) {dates' : OrderedSet (ℕ × κ)}
    (hdates : ∀ date k, (date, k) ∈ dates' ↔ (date, k) ∈ dates ∧ (k = key → date = notice.date))
    (hwaits : ∀ k, waits' k = if k = key then some notice else waits k)
    (hold : ∀ old, waits key = some old → ∀ subject ∈ old.subjects, subject ∈ notice.subjects) :
    Posted ref waits' (dates'.insert (notice.date, key))
      (register carriers notice.subjects (ref key)) where
  dated := by
    intro date k
    rw [mem_insert, Std.compare_eq_iff_eq, Prod.mk.injEq, hwaits, hdates]
    by_cases hk : k = key
    · subst hk
      rw [if_pos rfl]
      constructor
      · rintro (⟨hd, -⟩ | ⟨-, hd⟩)
        · exact ⟨notice, rfl, hd⟩
        · exact ⟨notice, rfl, (hd rfl).symm⟩
      · rintro ⟨_, ⟨⟩, hd⟩
        exact Or.inl ⟨hd, rfl⟩
    · rw [if_neg hk, h.dated]
      constructor
      · rintro (⟨-, he⟩ | ⟨hold, -⟩)
        · exact absurd he.symm hk
        · exact hold
      · exact fun hold => Or.inr ⟨hold, fun he => absurd he hk⟩
  carried := by
    intro subject k
    rw [mem_register, h.carried, hwaits]
    by_cases hk : k = key
    · subst hk
      rw [if_pos rfl]
      constructor
      · rintro (⟨old, hw, hs⟩ | ⟨hs, -⟩)
        · exact ⟨notice, rfl, hold old hw subject hs⟩
        · exact ⟨notice, rfl, hs⟩
      · rintro ⟨_, ⟨⟩, hs⟩
        exact Or.inr ⟨hs, rfl⟩
    · rw [if_neg hk]
      exact or_iff_left fun he => hk (href he.2)

/-- **A thing that waits no more** leaves no row behind. -/
theorem drop (href : Function.Injective ref) (notice : Notice ι)
    (hwaits : ∀ k, waits' k = if k = key then none else waits k)
    (hnotice : ∀ old, waits key = some old → old = notice) :
    Posted ref waits' (dates.erase (notice.date, key))
      (forget carriers notice.subjects (ref key)) where
  dated := by
    intro date k
    rw [mem_erase, ne_eq, Std.compare_eq_iff_eq, Prod.mk.injEq, h.dated, hwaits]
    by_cases hk : k = key
    · subst hk
      rw [if_pos rfl]
      refine iff_of_false ?_ nofun
      rintro ⟨hne, old, hw, hd⟩
      exact hne ⟨by rw [← hd, hnotice old hw], rfl⟩
    · rw [if_neg hk]
      exact and_iff_right fun he => hk he.2.symm
  carried := by
    intro subject k
    rw [mem_forget, h.carried, hwaits]
    by_cases hk : k = key
    · subst hk
      rw [if_pos rfl]
      refine iff_of_false ?_ nofun
      rintro ⟨⟨old, hw, hs⟩, hnot⟩
      exact hnot ⟨hnotice old hw ▸ hs, rfl⟩
    · rw [if_neg hk]
      exact and_iff_left fun he => hk (href he.2)

omit [LawfulEqOrd ι] [LawfulEqOrd γ] [DecidableEq κ] in
/-- A note that nothing waits under may be dropped. -/
theorem erase_date {date : ℕ} (hnone : ∀ old, waits key = some old → old.date ≠ date) :
    Posted ref waits (dates.erase (date, key)) carriers where
  dated := by
    intro d k
    rw [mem_erase, ne_eq, Std.compare_eq_iff_eq, Prod.mk.injEq, h.dated]
    refine and_iff_right_of_imp ?_
    rintro ⟨old, hw, rfl⟩ ⟨rfl, rfl⟩
    exact hnone old hw rfl
  carried := h.carried

omit [LawfulEqOrd ι] [LawfulEqOrd γ] [DecidableEq κ] in
/-- **The first note is the earliest date** anything waits until. -/
theorem earliest_eq_some {date : ℕ} : dates.min?.map Prod.fst = some date ↔
      (∃ key notice, waits key = some notice ∧ notice.date = date) ∧
        ∀ key notice, waits key = some notice → date ≤ notice.date := by
  have hle {a b : ℕ × κ} (hab : (compare a b).isLE) : a.1 ≤ b.1 := by
    rw [compare_pair] at hab
    by_contra hlt
    rw [Nat.compare_eq_gt.mpr (Nat.lt_of_not_le hlt)] at hab
    exact absurd hab (by simp)
  constructor
  · intro hmin
    obtain ⟨⟨date', key⟩, hfirst, rfl⟩ := Option.map_eq_some_iff.mp hmin
    rw [min?_eq_some_iff_mem_and_forall] at hfirst
    obtain ⟨hmem, hall⟩ := hfirst
    refine ⟨⟨key, (h.dated _ _).mp hmem⟩, fun k n hw => ?_⟩
    exact hle (hall _ ((h.dated _ _).mpr ⟨n, hw, rfl⟩))
  · rintro ⟨⟨key, n, hw, rfl⟩, hall⟩
    have hmem := (h.dated _ _).mpr ⟨n, hw, rfl⟩
    cases hmin : dates.min? with
    | none =>
      rw [min?_eq_none_iff] at hmin
      simp [hmin] at hmem
    | some first =>
      obtain ⟨date', k⟩ := first
      rw [min?_eq_some_iff_mem_and_forall] at hmin
      obtain ⟨n', hw', hd⟩ := (h.dated _ _).mp hmin.1
      have h₁ : date' ≤ n.date := hle (hmin.2 _ hmem)
      have h₂ : n.date ≤ date' := hd ▸ hall k n' hw'
      exact congrArg some (Nat.le_antisymm h₁ h₂)

end

end Posted

end Oneiron
