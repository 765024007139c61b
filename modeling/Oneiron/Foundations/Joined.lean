import Oneiron.Foundations.Ordered

/-!
# Foundations/Joined — folding one ordered map into another, key by key

A loop over a map's bindings whose step at a key touches that key alone leaves each key as its one
step leaves it (`foldl_at`).  So joining two maps is joining what they hold at each key
(`getElem?_joinWith`), and whatever laws the join of values has at each key the join of maps has.
-/

open Std

namespace Oneiron

open Std.ExtTreeMap

universe u v

variable {κ : Type u} {ν : Type v} [Ord κ] [TransOrd κ] [LawfulEqOrd κ]

namespace OrderedMap

/-- **The loop rule**: when the step at a key reads and writes what `sees` sees there and nothing
else, the loop leaves at each key what that key's one step leaves. -/
theorem foldl_at {σ : Type*} {τ : Type*} (sees : σ → κ → τ) (step : σ → κ × ν → σ)
    (effect : κ → τ → ν → τ) (hself : ∀ s k v, sees (step s (k, v)) k = effect k (sees s k) v)
    (hother : ∀ s k v {j}, j ≠ k → sees (step s (k, v)) j = sees s j) (m : OrderedMap κ ν) (s : σ)
    (k : κ) : sees (m.toList.foldl step s) k = m[k]?.elim (sees s k) (effect k (sees s k)) := by
  have hloop : ∀ (l : List (κ × ν)) (s : σ), (l.map Prod.fst).Nodup →
      ((∃ v, (k, v) ∈ l ∧ sees (l.foldl step s) k = effect k (sees s k) v) ∨
        (k ∉ l.map Prod.fst ∧ sees (l.foldl step s) k = sees s k)) := by
    intro l
    induction l with
    | nil => exact fun s _ => .inr ⟨by simp, rfl⟩
    | cons p l ih =>
      obtain ⟨j, v⟩ := p
      intro s hnodup
      rw [List.map_cons, List.nodup_cons] at hnodup
      rw [List.foldl_cons, List.map_cons]
      obtain ⟨w, hw, heq⟩ | ⟨hk, heq⟩ := ih (step s (j, v)) hnodup.2
      · have hne : k ≠ j := fun h => hnodup.1 (List.mem_map.mpr ⟨_, hw, h⟩)
        exact .inl ⟨w, List.mem_cons_of_mem _ hw, by rw [heq, hother s j v hne]⟩
      · obtain rfl | hne := eq_or_ne k j
        · exact .inl ⟨v, List.mem_cons_self, by rw [heq, hself]⟩
        · exact .inr ⟨by simp [hne, hk], by rw [heq, hother s j v hne]⟩
  have hnodup : (m.toList.map Prod.fst).Nodup := by
    rw [map_fst_toList_eq_keys]
    exact nodup_keys
  obtain ⟨v, hv, heq⟩ | ⟨hk, heq⟩ := hloop m.toList s hnodup
  · rw [heq, mem_toList_iff_getElem?_eq_some.mp hv, Option.elim_some]
  · rw [heq, getElem?_eq_none, Option.elim_none]
    rwa [← mem_keys, ← map_fst_toList_eq_keys]

/-- Puts a map's bindings into this one, joined with what is there. -/
def joinWith (join : ν → ν → ν) (m n : OrderedMap κ ν) : OrderedMap κ ν :=
  n.toList.foldl (fun m p => m.insert p.1 (m[p.1]?.elim p.2 (join · p.2))) m

/-- **A join of maps joins what they hold at each key.** -/
theorem getElem?_joinWith (join : ν → ν → ν) (m n : OrderedMap κ ν) (k : κ) :
    (joinWith join m n)[k]? = Option.merge join m[k]? n[k]? := by
  rw [joinWith, foldl_at (fun m k => m[k]?) _ (fun _ held v => some (held.elim v (join · v)))
    (fun s k v => getElem?_insert_self)
    (fun s k v j hne => by simp [getElem?_insert, hne.symm])]
  cases n[k]? <;> cases m[k]? <;> rfl

end OrderedMap

end Oneiron
