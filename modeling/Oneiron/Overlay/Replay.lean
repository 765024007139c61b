import Oneiron.Overlay.RetireSelected

/-!
# Overlay/Replay — replaying a segment on rows a retirement has thinned

    installed --mutations--▸ preview
        │ retired
    published --mutations--▸ replayed

The preview was built on what was published when the segment opened; commit replays on what is
published by then.  The replay stays a thinning of the preview, and so never larger, as long as the
first thing the segment does to a retired row is not to delete it as a row base does not back: on
the preview such a delete drops the row, on the thinned state it leaves a mask (`DeletesRetired`).
-/

open Std

namespace Oneiron

open Std.ExtTreeMap KeyspaceState List OverlayState OverlayMutation

namespace DupDelta.Thins

variable {p f : DupDelta}

theorem isEmpty (h : p.Thins f) (hp : p.isEmpty = true) : f.isEmpty = true := by
  have hd := eq_default_of_isEmpty hp
  subst hd
  obtain ⟨deleteBase, present, deleted, filed⟩ := f
  obtain ⟨hb, hd, hpres⟩ := h
  have hnone : present = ∅ := ExtTreeMap.ext_getElem? fun identity => by
    cases hv : present[identity]? with
    | none => simp
    | some value => simpa [default] using hpres hv
  simp only [default] at hb hd
  simp [DupDelta.isEmpty, hb, hd, hnone]

theorem deleteDuplicate (h : p.Thins f) (value : Bytes) (backed : Bool) :
    (p.deleteDuplicate value backed).Thins (f.deleteDuplicate value backed) := by
  refine ⟨?_, ?_, fun {identity v} hv => ?_⟩
  · rw [deleteDuplicate_deleteBase, deleteDuplicate_deleteBase, h.deleteBase]
  · unfold DupDelta.deleteDuplicate
    rw [h.deleteBase]
    split
    · simp only [h.deleted]
    · rw [dropExact_deleted, dropExact_deleted, h.deleted]
  · rw [getElem?_deleteDuplicate_present] at hv ⊢
    split at hv
    · cases hv
    · rename_i hne
      rw [h.present hv]
      rw [hv] at hne
      exact if_neg hne

end DupDelta.Thins

namespace KeyspaceState

variable {d : Bool}

namespace Thins

theorem put : ∀ {p f : KeyspaceState d}, p.Thins f → ∀ key value : Bytes,
    (p.put key value).Thins (f.put key value)
  | .single .., .single .., h, key, value => by
    refine ⟨h.1, fun other => ?_⟩
    rw [ExtTreeMap.getElem?_insert, ExtTreeMap.getElem?_insert]
    split
    · exact Or.inl rfl
    · exact h.2 other
  | .dupSort .., .dupSort .., h, key, value => by
    obtain ⟨hc, hk, h⟩ := h
    refine ⟨hc, fun other hm => ?_, fun other => ?_⟩
    · rw [mem_insert] at hm ⊢
      exact hm.imp_right (hk other)
    · rw [dupDelta_insert, dupDelta_insert]
      split
      · refine ⟨(h key).deleteBase, ?_, fun {identity v} hv => ?_⟩
        · simp only [DupDelta.put, (h key).deleted]
        · rw [DupDelta.getElem?_put_present] at hv ⊢
          split at hv
          · rwa [if_pos ‹_›]
          · rw [if_neg ‹_›]
            exact (h key).present hv
      · exact h other

/-- A delete keeps the thinning unless it drops on one side a row the other has lost. -/
theorem delete : ∀ {p f : KeyspaceState d}, p.Thins f → ∀ {key : Bytes} {baseBacked : Bool},
    ((baseBacked && !f.clearsBase) = false → (p.present key).isSome → (f.present key).isSome) →
    (p.delete key baseBacked).Thins (f.delete key baseBacked)
  | .dupSort .., .dupSort .., h, key, _, _ => by
    obtain ⟨hc, hk, h⟩ := h
    refine ⟨hc, fun other hm => ?_, fun other => ?_⟩
    · rw [mem_insert] at hm ⊢
      exact hm.imp_right (hk other)
    · rw [dupDelta_insert, dupDelta_insert]
      split
      · exact .refl _
      · exact h other
  | .single clearBase rows, .single clearBase' rows', h, key, baseBacked, hsafe => by
    obtain ⟨rfl, h⟩ := h
    simp only [clearsBase, present] at hsafe
    unfold KeyspaceState.delete
    dsimp only
    split
    · rename_i value hb hr
      rw [hb, hr] at hsafe
      split
      · refine ⟨rfl, fun other => ?_⟩
        rw [getElem?_erase, getElem?_erase]
        split
        · exact Or.inl rfl
        · exact h other
      · rename_i hf
        refine absurd (hsafe rfl rfl) fun hs => ?_
        split at hs
        · exact hf _ hb ‹_›
        · cases hs
    · rename_i hp
      split
      · rename_i value hb hr
        rcases h key with heq | ⟨hnone, -⟩
        · exact absurd (heq ▸ hr) (hp value hb)
        · rw [hr] at hnone
          cases hnone
      · refine ⟨rfl, fun other => ?_⟩
        rw [ExtTreeMap.getElem?_insert, ExtTreeMap.getElem?_insert]
        split
        · exact Or.inl rfl
        · exact h other

theorem deleteDuplicate : ∀ {p f p' : KeyspaceState d}, p.Thins f → ∀ {key value : Bytes}
    {baseBacked : Bool}, p.deleteDuplicate key value baseBacked = .ok p' →
    ∃ f', f.deleteDuplicate key value baseBacked = .ok f' ∧ p'.Thins f'
  | .single .., .single .., _, _, _, _, _, hp => nomatch hp
  | .dupSort clearBase rows, .dupSort clearBase' rows', _, h, key, value, baseBacked, hp => by
    cases hp
    obtain ⟨rfl, hk, h⟩ := h
    refine ⟨_, rfl, rfl, fun other hm => ?_, fun other => ?_⟩
    · have hempty := ((h key).deleteDuplicate value (baseBacked && !clearBase')).isEmpty
      split at hm
      · obtain ⟨hne, hm⟩ := mem_erase.mp hm
        split
        · exact mem_erase.mpr ⟨hne, hk other hm⟩
        · exact mem_insert.mpr (Or.inr (hk other hm))
      · rename_i hf
        rw [if_neg (mt hempty hf)]
        exact mem_insert.mpr ((mem_insert.mp hm).imp_right (hk other))
    · rw [dupDelta_erase_or_insert, dupDelta_erase_or_insert]
      split
      · exact (h key).deleteDuplicate value _
      · exact h other

end Thins

end KeyspaceState

/-! ## One mutation -/

/-- Whether a mutation settles what is staged under a key. -/
def OverlayMutation.touches (keyspace : OverlayKeyspace) (key : Bytes) : OverlayMutation → Bool
  | .put other otherKey _ | .delete other otherKey _ => other = keyspace ∧ otherKey = key
  | .clear other => other = keyspace
  | .deleteDuplicate .. | .bookkeeping .. => false

/-- A row that one state stages and the other does not. -/
def Retired (p f : OverlayState) (keyspace : OverlayKeyspace) (key : Bytes) : Prop :=
  ((p.keyspaces keyspace).present key).isSome ∧ (f.keyspaces keyspace).present key = none

/-- Two states alike but for rows and values the second has lost. -/
structure Trails (p f : OverlayState) : Prop where
  keyspaces : ∀ keyspace, (p.keyspaces keyspace).Thins (f.keyspaces keyspace)
  bookkeeping : f.bookkeeping = p.bookkeeping

theorem OverlayState.Thins.trails {p f : OverlayState} (h : p.Thins f) : Trails p f :=
  ⟨h.keyspaces, h.bookkeeping⟩

/-- A delete that drops a row outright where it is staged. -/
def OverlayMutation.dropsRow (f : OverlayState) (keyspace : OverlayKeyspace) (key : Bytes) :
    OverlayMutation → Bool
  | .delete other otherKey baseBacked => (other = keyspace ∧ otherKey = key) ∧
      (baseBacked && !(f.keyspaces keyspace).clearsBase) = false
  | _ => false

section Step

variable {p f p' : OverlayState} {mutation : OverlayMutation}

/-- Replacing one keyspace on both sides. -/
theorem Trails.setKeyspace (h : Trails p f) {keyspace : OverlayKeyspace}
    {rows rows' : KeyspaceState keyspace.isDupsort} (hrows : rows.Thins rows') :
    Trails (p.setKeyspace keyspace rows) (f.setKeyspace keyspace rows') := by
  refine ⟨fun other => ?_, h.bookkeeping⟩
  by_cases hk : other = keyspace
  · subst hk
    rwa [setKeyspace_keyspaces_self, setKeyspace_keyspaces_self]
  · rw [p.setKeyspace_keyspaces_ne _ _ hk, f.setKeyspace_keyspaces_ne _ _ hk]
    exact h.keyspaces other

theorem Trails.setMarks (h : Trails p f) (keyspace : OverlayKeyspace) (marks : OrderedSet Bytes) :
    Trails (p.setMarks keyspace marks) (f.setMarks keyspace marks) :=
  ⟨h.keyspaces, by simp only [OverlayState.setMarks, h.bookkeeping]⟩

theorem Trails.recalculateBytes [EntryLayout] (h : Trails p f) :
    Trails p.recalculateBytes f.recalculateBytes := ⟨h.keyspaces, h.bookkeeping⟩

/-- **One mutation keeps the thinning**, unless it drops a row that is retired. -/
theorem Trails.applyMutation (h : Trails p f)
    (hsafe : ∀ keyspace key, mutation.dropsRow f keyspace key = true →
      ¬ Retired p f keyspace key)
    (hp : applyMutation p mutation = .ok p') :
    ∃ f', applyMutation f mutation = .ok f' ∧ Trails p' f' := by
  cases mutation with
  | clear keyspace =>
    cases hp
    exact ⟨_, rfl, (h.setMarks keyspace ∅).setKeyspace (.refl _)⟩
  | bookkeeping keyspace key =>
    simp only [Oneiron.applyMutation] at hp ⊢
    split at hp
    · cases hp
    · rename_i hd
      cases hp
      rw [if_neg hd, h.bookkeeping]
      exact ⟨_, rfl, h.setMarks keyspace _⟩
  | put keyspace key value =>
    cases hp
    exact ⟨_, rfl, h.setKeyspace ((h.keyspaces keyspace).put key value)⟩
  | delete keyspace key baseBacked =>
    cases hp
    refine ⟨_, rfl, ?_⟩
    have hmarks := h.setMarks keyspace ((p.bookkeeping keyspace).erase key)
    rw [show (p.bookkeeping keyspace).erase key = (f.bookkeeping keyspace).erase key by
      rw [h.bookkeeping]] at hmarks ⊢
    refine hmarks.setKeyspace ((hmarks.keyspaces keyspace).delete fun hb hs => ?_)
    have hb' : (baseBacked && !(f.keyspaces keyspace).clearsBase) = false := hb
    have hnot := hsafe keyspace key (by simp [dropsRow, -Bool.and_eq_false_imp, hb'])
    exact Option.isSome_iff_ne_none.mpr fun hnone => hnot ⟨hs, hnone⟩
  | deleteDuplicate keyspace key value baseBacked =>
    obtain ⟨rows, hrows, hp⟩ := bind_eq_ok.mp hp
    obtain ⟨rows', hrows', hthins⟩ := (h.keyspaces keyspace).deleteDuplicate hrows
    cases hp
    exact ⟨_, by rw [Oneiron.applyMutation, hrows']; rfl, h.setKeyspace hthins⟩

end Step

/-! ## A whole segment -/

namespace KeyspaceState

variable {d : Bool} {key other : Bytes}

theorem present_put_ne (h : other ≠ key) : ∀ (rows : KeyspaceState d) (value : Bytes),
    (rows.put other value).present key = rows.present key
  | .single .., _ => by simp [put, present, ExtTreeMap.getElem?_insert, h]
  | .dupSort .., _ => rfl

theorem present_put_self {rows rows' : KeyspaceState d} {value : Bytes}
    (h : ((rows.put key value).present key).isSome) :
    (rows'.put key value).present key ≠ none := by
  cases rows with
  | dupSort => cases h
  | single => cases rows'; simp [put, present]

theorem present_delete_self : ∀ (rows : KeyspaceState d) (baseBacked : Bool),
    (rows.delete key baseBacked).present key = none
  | .dupSort .., _ => rfl
  | .single .., _ => by
    unfold delete
    dsimp only
    split <;> simp [present]

theorem present_delete_ne (h : other ≠ key) : ∀ (rows : KeyspaceState d) (baseBacked : Bool),
    (rows.delete other baseBacked).present key = rows.present key
  | .dupSort .., _ => rfl
  | .single .., _ => by
    unfold delete
    dsimp only
    split <;> simp [present, ExtTreeMap.getElem?_insert, getElem?_erase, h]

theorem clearsBase_put (rows : KeyspaceState d) (value : Bytes) :
    (rows.put key value).clearsBase = rows.clearsBase := by
  cases rows <;> rfl

theorem clearsBase_delete (rows : KeyspaceState d) (baseBacked : Bool) :
    (rows.delete key baseBacked).clearsBase = rows.clearsBase := by
  cases rows with
  | dupSort => rfl
  | single =>
    unfold delete
    dsimp only
    split <;> rfl

theorem present_deleteDuplicate {rows next : KeyspaceState d} {value : Bytes} {baseBacked : Bool}
    (h : rows.deleteDuplicate other value baseBacked = .ok next) :
    next.present key = rows.present key ∧ next.clearsBase = rows.clearsBase := by
  cases rows with
  | single => cases h
  | dupSort => cases h; exact ⟨rfl, rfl⟩

end KeyspaceState

section Replay

variable {p f p' f' : OverlayState} {mutation : OverlayMutation} {keyspace : OverlayKeyspace}
  {key : Bytes}

/-- What a mutation does not touch, it leaves as staged. -/
theorem present_of_not_touches (h : applyMutation p mutation = .ok p')
    (ht : mutation.touches keyspace key = false) :
    (p'.keyspaces keyspace).present key = (p.keyspaces keyspace).present key ∧
      (p'.keyspaces keyspace).clearsBase = (p.keyspaces keyspace).clearsBase := by
  by_cases hk : keyspace = mutation.keyspace
  · subst hk
    cases mutation with
    | clear other => simp [touches, keyspace] at ht
    | bookkeeping other otherKey =>
      simp only [applyMutation] at h
      split at h <;> cases h
      exact ⟨rfl, rfl⟩
    | put other otherKey value =>
      have hne : otherKey ≠ key := by simpa [touches, keyspace] using ht
      cases h
      simp only [keyspace, setKeyspace_keyspaces_self]
      exact ⟨present_put_ne hne _ _, clearsBase_put _ _⟩
    | delete other otherKey baseBacked =>
      have hne : otherKey ≠ key := by simpa [touches, keyspace] using ht
      cases h
      simp only [keyspace, setKeyspace_keyspaces_self]
      exact ⟨present_delete_ne hne _ _, clearsBase_delete _ _⟩
    | deleteDuplicate other otherKey value baseBacked =>
      obtain ⟨rows, hrows, h⟩ := bind_eq_ok.mp h
      cases h
      simp only [keyspace, setKeyspace_keyspaces_self]
      exact present_deleteDuplicate hrows
  · rw [applyMutation_keyspaces_ne h hk]
    exact ⟨rfl, rfl⟩

/-- What a mutation touches, it leaves alike on both sides. -/
theorem not_retired_of_touches (hp : applyMutation p mutation = .ok p')
    (hf : applyMutation f mutation = .ok f') (ht : mutation.touches keyspace key = true) :
    ¬ Retired p' f' keyspace key := by
  rintro ⟨hsome, hnone⟩
  cases mutation with
  | clear other =>
    obtain rfl : other = keyspace := by simpa [touches] using ht
    cases hp
    cases other <;> cases hsome
  | bookkeeping | deleteDuplicate => cases ht
  | put other otherKey value =>
    obtain ⟨rfl, rfl⟩ : other = keyspace ∧ otherKey = key := by
      simpa [touches] using ht
    cases hp
    cases hf
    rw [setKeyspace_keyspaces_self] at hsome hnone
    exact present_put_self hsome hnone
  | delete other otherKey baseBacked =>
    obtain ⟨rfl, rfl⟩ : other = keyspace ∧ otherKey = key := by
      simpa [touches] using ht
    cases hp
    rw [setKeyspace_keyspaces_self, present_delete_self] at hsome
    cases hsome

/-- The defect: the first thing a segment does to a retired row is to drop it. -/
def DropsRetired (p f : OverlayState) (mutations : List OverlayMutation) : Prop :=
  ∃ keyspace key mutation, Retired p f keyspace key ∧
    mutations.find? (·.touches keyspace key) = some mutation ∧
    mutation.dropsRow f keyspace key = true

theorem touches_of_dropsRow (h : mutation.dropsRow f keyspace key = true) :
    mutation.touches keyspace key = true := by
  cases mutation with
  | delete => exact decide_eq_true (of_decide_eq_true h).1
  | _ => cases h

theorem dropsRow_congr {g : OverlayState}
    (h : (g.keyspaces keyspace).clearsBase = (f.keyspaces keyspace).clearsBase) :
    mutation.dropsRow g keyspace key = mutation.dropsRow f keyspace key := by
  cases mutation with
  | delete => simp only [dropsRow, h]
  | _ => rfl

/-- **A whole segment keeps the thinning** when it drops no retired row first. -/
theorem Trails.applyMutations [EntryLayout] {mutations : List OverlayMutation} (h : Trails p f)
    (hclean : ¬ DropsRetired p f mutations)
    (hp : SessionOverlay.applyMutations p mutations = .ok p') :
    ∃ f', SessionOverlay.applyMutations f mutations = .ok f' ∧ Trails p' f' := by
  induction mutations generalizing p f with
  | nil =>
    rw [SessionOverlay.applyMutations, foldlM_nil, pure_eq_ok] at hp
    exact ⟨f, rfl, hp ▸ h⟩
  | cons mutation rest ih =>
    obtain ⟨mid, hm, hp⟩ := bind_eq_ok.mp hp
    obtain ⟨projected, hproj, hm⟩ := bind_eq_ok.mp hm
    rw [pure_eq_ok] at hm
    subst hm
    obtain ⟨f₁, hf₁, htrails⟩ := h.applyMutation (fun keyspace key hd hr =>
      hclean ⟨keyspace, key, mutation, hr,
        find?_cons_of_pos (touches_of_dropsRow hd), hd⟩) hproj
    have hrest : ¬ DropsRetired projected.recalculateBytes f₁.recalculateBytes rest := by
      rintro ⟨keyspace, key, first, hr, hfirst, hd⟩
      cases ht : mutation.touches keyspace key with
      | true => exact not_retired_of_touches hproj hf₁ ht hr
      | false =>
        -- untouched so far, the row is retired already before this mutation
        obtain ⟨hp₀, -⟩ := present_of_not_touches hproj ht
        obtain ⟨hf₀, hc₀⟩ := present_of_not_touches hf₁ ht
        refine hclean ⟨keyspace, key, first, ⟨hp₀ ▸ hr.1, hf₀ ▸ hr.2⟩, ?_, ?_⟩
        · rw [find?_cons_of_neg (by simp [ht])]
          exact hfirst
        · rwa [← dropsRow_congr hc₀]
    obtain ⟨f', hf', hend⟩ := ih htrails.recalculateBytes hrest hp
    refine ⟨f', ?_, hend⟩
    rw [SessionOverlay.applyMutations, foldlM_cons, projectMutation, hf₁]
    exact hf'

end Replay

end Oneiron
