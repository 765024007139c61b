import Oneiron.Foundations.Ordered

/-!
# Foundations/Edits — deletes and puts applied one after another to an ordered map

What a key reads after a batch: a key no delete names and no put names keeps its binding, and a key
every put to which carries one value reads that value once some put names it.  Edits of any state
that each touch one key are read the same way, key by key (`view_foldl_of_mem`).
-/

namespace Oneiron

open List

section Edits

open Std

namespace OrderedMap

variable {κ ν : Type*} [Ord κ] [TransOrd κ] [LawfulEqOrd κ] {m : OrderedMap κ ν} {k : κ} {v : ν}

/-- The map with every key of a list deleted. -/
def eraseAll (m : OrderedMap κ ν) (keys : List κ) : OrderedMap κ ν := keys.foldl .erase m

/-- The map with every pair of a list put, the later over the earlier. -/
def insertAll (m : OrderedMap κ ν) (pairs : List (κ × ν)) : OrderedMap κ ν :=
  pairs.foldl (fun m p => m.insert p.1 p.2) m

theorem getElem?_erase_of_ne {k' : κ} (h : k' ≠ k) : (m.erase k')[k]? = m[k]? := by
  rw [ExtTreeMap.getElem?_erase, if_neg (by simpa using h)]

theorem getElem?_insert_of_ne {k' : κ} (h : k' ≠ k) : (m.insert k' v)[k]? = m[k]? := by
  rw [ExtTreeMap.getElem?_insert, if_neg (by simpa using h)]

theorem getElem?_eraseAll : ∀ {keys : List κ} {m : OrderedMap κ ν}, k ∉ keys →
    (m.eraseAll keys)[k]? = m[k]?
  | [], _, _ => rfl
  | k' :: keys, m, h => by
    rw [mem_cons, not_or] at h
    have hrest := getElem?_eraseAll (m := m.erase k') h.2
    rw [getElem?_erase_of_ne (Ne.symm h.1)] at hrest
    exact hrest

/-- **A key that every put to it gives one value reads that value**, once it had it or is put. -/
theorem getElem?_insertAll : ∀ {pairs : List (κ × ν)} {m : OrderedMap κ ν},
    (∀ p ∈ pairs, p.1 = k → p.2 = v) → (m[k]? = some v ∨ (k, v) ∈ pairs) →
    (m.insertAll pairs)[k]? = some v
  | [], _, _, h => h.resolve_right not_mem_nil
  | p :: pairs, m, hpairs, h => by
    rw [forall_mem_cons] at hpairs
    refine getElem?_insertAll (m := m.insert p.1 p.2) hpairs.2 ?_
    by_cases hp : p.1 = k
    · exact Or.inl (by rw [ExtTreeMap.getElem?_insert, if_pos (by simpa using hp), hpairs.1 hp])
    · rw [getElem?_insert_of_ne hp]
      refine h.imp_right fun hmem => ?_
      rcases mem_cons.mp hmem with rfl | hin
      · exact absurd rfl hp
      · exact hin

end OrderedMap

/-! ## Edits that each touch one key -/

section Local

variable {σ ι κ ν : Type*} (view : σ → κ → ν) {edit : σ → ι → σ} {key : ι → κ}

/-- What is seen of a key no edit names stays as it is. -/
theorem view_foldl_of_notMem (hlocal : ∀ s i k, k ≠ key i → view (edit s i) k = view s k) {k : κ} :
    ∀ {edits : List ι} {s : σ}, k ∉ edits.map key → view (edits.foldl edit s) k = view s k
  | [], _, _ => rfl
  | i :: edits, s, h => by
    rw [map_cons, mem_cons, not_or] at h
    exact (view_foldl_of_notMem hlocal (s := edit s i) h.2).trans (hlocal s i k h.1)

/-- **What one edit makes of its key is what is seen of it in the end**, when no other edit names
the key. -/
theorem view_foldl_of_mem (hlocal : ∀ s i k, k ≠ key i → view (edit s i) k = view s k)
    {P Q : ν → Prop} {i : ι} (hedit : ∀ s, P (view s (key i)) → Q (view (edit s i) (key i))) :
    ∀ {edits : List ι} {s : σ}, (edits.map key).Nodup → i ∈ edits → P (view s (key i)) →
      Q (view (edits.foldl edit s) (key i))
  | i' :: edits, s, hnodup, hmem, hP => by
    obtain ⟨hfresh, hnodup⟩ := nodup_cons.mp hnodup
    rcases mem_cons.mp hmem with rfl | hmem
    · rw [foldl_cons, view_foldl_of_notMem view hlocal hfresh]
      exact hedit s hP
    · have hne : key i ≠ key i' := fun heq => hfresh (heq ▸ mem_map_of_mem hmem)
      exact view_foldl_of_mem hlocal hedit (s := edit s i') hnodup hmem (by rwa [hlocal s i' _ hne])

end Local

end Edits

/-! ## Items filed under keys until a key is called for

A worklist that parks what it cannot do yet files each item under the keys that could wake it, and
clears a key's shelf when that key is granted.  What is on a shelf afterwards is given by `mem_file`
and `mem_clear`; how much is on all of them, which bounds the work left to do, by `load_file` and
`load_clear`.
-/

section Shelved

open Std

/-- Items filed under keys, each shelf in filing order. -/
abbrev Shelves (κ α : Type) [Ord κ] := OrderedMap κ (List α)

namespace Shelves

variable {κ α : Type} [Ord κ] [TransOrd κ] (shelves : Shelves κ α)

/-- The items filed under a key. -/
def shelf (key : κ) : List α := shelves[key]?.getD []

/-- Files an item under a key. -/
def file (key : κ) (item : α) : Shelves κ α := shelves.insert key (shelves.shelf key ++ [item])

/-- Files an item under each of some keys. -/
def fileAll (keys : List κ) (item : α) : Shelves κ α :=
  keys.foldl (fun shelves key => shelves.file key item) shelves

/-- Empties a key's shelf. -/
def clear (key : κ) : Shelves κ α := shelves.erase key

/-- How many items all the shelves hold. -/
def load : ℕ := OrderedMap.weigh (fun _ items => items.length) shelves

variable [LawfulEqOrd κ] {shelves : Shelves κ α} {key key' : κ} {item item' : α}

omit [LawfulEqOrd κ] in
@[simp] theorem shelf_empty : shelf (∅ : Shelves κ α) key = [] := by
  simp [shelf]

theorem mem_file : item' ∈ (shelves.file key item).shelf key' ↔
    item' ∈ shelves.shelf key' ∨ key = key' ∧ item = item' := by
  by_cases h : key = key'
  · subst h
    simp [file, shelf, eq_comm]
  · simp [file, shelf, ExtTreeMap.getElem?_insert, h]

theorem mem_fileAll {keys : List κ} : item' ∈ (shelves.fileAll keys item).shelf key' ↔
    item' ∈ shelves.shelf key' ∨ key' ∈ keys ∧ item = item' := by
  induction keys generalizing shelves with
  | nil => simp [fileAll]
  | cons key keys ih =>
    rw [show shelves.fileAll (key :: keys) item = (shelves.file key item).fileAll keys item from rfl,
      ih, mem_file, mem_cons]
    grind

theorem mem_clear :
    item ∈ (shelves.clear key).shelf key' ↔ item ∈ shelves.shelf key' ∧ key ≠ key' := by
  by_cases h : key = key'
  · subst h
    simp [clear, shelf]
  · simp [clear, shelf, ExtTreeMap.getElem?_erase, h]

omit [LawfulEqOrd κ] in
theorem weightAt_length : OrderedMap.weightAt (fun _ items => items.length) shelves key
    = (shelves.shelf key).length := by
  unfold OrderedMap.weightAt shelf
  cases shelves[key]? <;> rfl

@[simp] theorem load_file : (shelves.file key item).load = shelves.load + 1 := by
  have := OrderedMap.weigh_insert_add (fun _ items => items.length) shelves key
    (shelves.shelf key ++ [item])
  rw [weightAt_length, length_append, length_singleton] at this
  unfold load file
  omega

/-- **Clearing a shelf takes what it held off the load.** -/
theorem load_clear (shelves : Shelves κ α) (key : κ) :
    (shelves.clear key).load + (shelves.shelf key).length = shelves.load := by
  rw [← weightAt_length]
  exact OrderedMap.weigh_erase_add _ shelves key

end Shelves

end Shelved

end Oneiron
