import Oneiron.Overlay.MergeWeave

/-!
# Overlay/Composed — the rows a composed read answers with

`KeyspaceState.Holds base key value` says, row by row, what a keyspace staged over `base` shows: the
present rows, and the base rows no mask hides.  The streaming merge yields exactly these, in order
(`mem_composedRows`, `sorted_composedRows`), so a read of the composed store is the read of any
database that holds the same rows.
-/

open Std

namespace Oneiron

open Database KeyspaceState MergedRows Weaver LawfulEqCmp

open Std.ExtTreeMap List

/-! ## What a keyspace's rows come to over base -/

/-- `lookup_single` and what the accessor makes of it, for one key of a single-valued keyspace. -/
inductive SnapshotLookup where
  | passthrough
  | tombstone
  | present (value : Bytes)
  deriving DecidableEq

namespace KeyspaceState

variable {d : Bool}

def lookupSingle : KeyspaceState d → Bytes → SnapshotLookup
  | .single clearBase rows, key =>
    match rows[key]? with
    | some (.present value) => .present value
    | some .tombstone => .tombstone
    | none => if clearBase then .tombstone else .passthrough
  | .dupSort .., _ => .passthrough

/-- **What the composed store holds** — a staged row, or a base row that no mask hides. -/
def Holds (base : Database d) : KeyspaceState d → Bytes → Bytes → Prop
  | .single clearBase rows, key, value =>
    rows[key]? = some (.present value) ∨
      (rows[key]? = none ∧ clearBase = false ∧ (key, value) ∈ base.pairs)
  | .dupSort clearBase rows, key, value =>
    (dupDelta rows key).present[duplicateIdentity value]? = some value ∨
      (clearBase = false ∧ (key, value) ∈ base.pairs ∧ (dupDelta rows key).deleteBase = false ∧
        (dupDelta rows key).present[duplicateIdentity value]? = none ∧
        value ∉ (dupDelta rows key).deleted)

end KeyspaceState

/-! ## The plan, read row by row -/

variable {key : Bytes} {deleted : OrderedSet Bytes} {staged : SnapshotMergeRow}

namespace DupDelta

variable (delta : DupDelta)

variable (l : List Bytes) (identity : Bytes)

private theorem mem_foldl_deleted (value : Bytes) : ∀ filed : OrderedMap Bytes (OrderedSet Bytes),
    (value ∈ ((l.foldl (fun filed value => filed.insert (duplicateIdentity value)
        ((filed[duplicateIdentity value]?.getD ∅).insert value)) filed)[identity]?.getD ∅) ↔
      value ∈ (filed[identity]?.getD ∅) ∨ (value ∈ l ∧ duplicateIdentity value = identity)) := by
  induction l with
  | nil => simp
  | cons a l ih =>
    intro filed
    rw [foldl_cons, ih, ExtTreeMap.getElem?_insert]
    by_cases h : duplicateIdentity a = identity
    · subst h
      simp only [LawfulEqCmp.compare_eq_iff_eq, if_true, Option.getD_some, ExtTreeSet.mem_insert,
        mem_cons]
      constructor
      · rintro ((rfl | h) | h)
        · exact Or.inr ⟨Or.inl rfl, rfl⟩
        · exact Or.inl h
        · exact Or.inr ⟨Or.inr h.1, h.2⟩
      · rintro (h | ⟨rfl | h, h'⟩)
        · exact Or.inl (Or.inr h)
        · exact Or.inl (Or.inl rfl)
        · exact Or.inr ⟨h, h'⟩
    · simp only [LawfulEqCmp.compare_eq_iff_eq, if_neg h, mem_cons]
      constructor
      · rintro (h' | h')
        · exact Or.inl h'
        · exact Or.inr ⟨Or.inr h'.1, h'.2⟩
      · rintro (h' | ⟨rfl | h', h''⟩)
        · exact Or.inl h'
        · exact absurd h'' h
        · exact Or.inr ⟨h', h''⟩

private theorem isSome_foldl_deleted : ∀ filed : OrderedMap Bytes (OrderedSet Bytes),
    ((l.foldl (fun filed value => filed.insert (duplicateIdentity value)
        ((filed[duplicateIdentity value]?.getD ∅).insert value)) filed)[identity]?.isSome ↔
      filed[identity]?.isSome ∨ ∃ value ∈ l, duplicateIdentity value = identity) := by
  induction l with
  | nil => simp
  | cons a l ih =>
    intro filed
    rw [foldl_cons, ih, ExtTreeMap.getElem?_insert]
    by_cases h : duplicateIdentity a = identity <;> simp [h]

private theorem foldl_present : ∀ filed : OrderedMap Bytes (OrderedSet Bytes),
    ((l.foldl (fun filed identity => filed.insertIfNew identity ∅) filed)[identity]?.getD ∅ =
        filed[identity]?.getD ∅) ∧
      ((l.foldl (fun filed identity => filed.insertIfNew identity ∅) filed)[identity]?.isSome ↔
        filed[identity]?.isSome ∨ identity ∈ l) := by
  induction l with
  | nil => simp
  | cons a l ih =>
    intro filed
    obtain ⟨h₁, h₂⟩ := ih (filed.insertIfNew a ∅)
    rw [foldl_cons, h₁, h₂, getElem?_insertIfNew]
    by_cases h : a = identity
    · subst h
      by_cases hm : a ∈ filed <;> simp [hm]
    · simp [h, Ne.symm h]

/-- The set filed under an identity is the deleted values of that identity. -/
theorem mem_of_byIdentity {identity : Bytes} (h : delta.byIdentity[identity]? = some deleted)
    (value : Bytes) :
    value ∈ deleted ↔ value ∈ delta.deleted ∧ duplicateIdentity value = identity := by
  have hd : delta.byIdentity[identity]?.getD ∅ = deleted := by rw [h]; rfl
  rw [← hd, byIdentity, (foldl_present _ _ _).1, mem_foldl_deleted, ExtTreeSet.mem_toList]
  simp

/-- …and the identities are those the delta touches. -/
theorem isSome_byIdentity : delta.byIdentity[identity]?.isSome ↔
      (∃ value ∈ delta.deleted, duplicateIdentity value = identity) ∨
      delta.present[identity]?.isSome := by
  rw [byIdentity, (foldl_present _ _ _).2, isSome_foldl_deleted, ExtTreeMap.mem_keys,
    mem_iff_isSome_getElem?]
  simp

/-- The rows a delta contributes to a plan. -/
theorem mem_mergeRows : staged ∈ delta.mergeRows key ↔ ∃ identity deleted,
      delta.byIdentity[identity]? = some deleted ∧
      staged = .duplicate key identity deleted delta.present[identity]? := by
  simp only [mergeRows, List.mem_map, Prod.exists, mem_toList_iff_getElem?_eq_some]
  exact exists₂_congr fun _ _ => and_congr_right fun _ => eq_comm

end DupDelta

namespace KeyspaceState

variable {d : Bool} {includeKey : Bytes → Bool} {keys : OrderedSet Bytes} {direction : Direction}

variable {clearBase : Bool} {rows : OrderedMap Bytes DupDelta} {row : KvPair}

theorem mem_mergePlan_single {rows : OrderedMap Bytes OverlayValue} :
    staged ∈ ((single clearBase rows).mergePlan includeKey).rows ↔
      ∃ key value, rows[key]? = some value ∧ includeKey key ∧ staged = .single key value.staged := by
  simp only [mergePlan, List.mem_map, List.mem_filter, Prod.exists,
    mem_toList_iff_getElem?_eq_some, and_assoc]
  exact exists₂_congr fun _ _ => and_congr_right fun _ => and_congr_right fun _ => eq_comm

theorem mem_mergePlan_dupSort : staged ∈ ((dupSort clearBase rows).mergePlan includeKey).rows ↔
      ∃ key delta, rows[key]? = some delta ∧ includeKey key ∧ ∃ identity deleted,
        delta.byIdentity[identity]? = some deleted ∧
        staged = .duplicate key identity deleted delta.present[identity]? := by
  simp only [mergePlan, mem_flatMap, List.mem_filter, Prod.exists,
    mem_toList_iff_getElem?_eq_some, and_assoc, DupDelta.mem_mergeRows]

/-- Each staged row has the shape of its keyspace. -/
theorem isDuplicate_mergePlan : ∀ (state : KeyspaceState d),
    ∀ staged ∈ (state.mergePlan includeKey).rows, staged.isDuplicate = d
  | .single .., _, h => by
    obtain ⟨_, _, _, _, rfl⟩ := mem_mergePlan_single.mp h
    rfl
  | .dupSort .., _, h => by
    obtain ⟨_, _, _, _, _, _, _, rfl⟩ := mem_mergePlan_dupSort.mp h
    rfl

/-- **A plan's rows come in strictly increasing slots.** -/
theorem sorted_mergePlan : ∀ (state : KeyspaceState d),
    (mergeWeaver d keys .forward).SortedOver (state.mergePlan includeKey).rows
  | .single _ rows => by
    refine pairwise_map.mpr (List.Pairwise.filter _ ?_)
    refine (ordered_keys_toList (t := rows)).imp fun {a b} h => ?_
    change compare (a.1, ([] : Bytes)) (b.1, []) = .lt
    rw [compare_pair, h]
    rfl
  | .dupSort _ rows => by
    refine pairwise_flatMap.mpr ⟨fun row _ => ?_, ?_⟩
    · refine pairwise_map.mpr
        ((ordered_keys_toList (t := row.2.byIdentity)).imp fun {a b} h => ?_)
      change compare (row.1, a.1) (row.1, b.1) = .lt
      rw [compare_pair, ReflOrd.compare_self]
      exact h
    · refine ((ordered_keys_toList (t := rows)).filter _).imp fun {a b} h x hx y hy => ?_
      obtain ⟨i, _, _, rfl⟩ := (DupDelta.mem_mergeRows _).mp hx
      obtain ⟨j, _, _, rfl⟩ := (DupDelta.mem_mergeRows _).mp hy
      change compare (a.1, i) (b.1, j) = .lt
      rw [compare_pair, h]
      rfl

/-- A staged row lands in its own slot and hides what base holds there. -/
theorem lawful_mergePlan : ∀ (state : KeyspaceState d),
    (mergeWeaver d keys direction).Lawful (state.mergePlan includeKey).rows
  | .single .., _, h, row, hrow => by
    obtain ⟨key, value, -, -, rfl⟩ := mem_mergePlan_single.mp h
    obtain ⟨v, -, rfl⟩ := Option.map_eq_some_iff.mp hrow
    exact ⟨rfl, fun _ => rfl⟩
  | .dupSort .., _, h, row, hrow => by
    obtain ⟨key, delta, -, -, identity, deleted, -, rfl⟩ := mem_mergePlan_dupSort.mp h
    obtain ⟨v, hv, rfl⟩ := Option.map_eq_some_iff.mp hrow
    refine ⟨?_, fun b => by simp [mergeWeaver, hv]⟩
    change (key, duplicateIdentity v) = (key, identity)
    rw [delta.filed hv]

theorem contains_deletedKeys :
    ((dupSort clearBase rows).mergePlan includeKey).deletedKeys.contains key ↔
      includeKey key ∧ (dupDelta rows key).deleteBase := by
  have hfold : ∀ (l : List (Bytes × DupDelta)) (s : OrderedSet Bytes),
      key ∈ l.foldl (fun keys row => keys.insert row.1) s ↔ key ∈ s ∨ ∃ row ∈ l, row.1 = key := by
    intro l
    induction l with
    | nil => simp
    | cons a l ih =>
      intro s
      rw [foldl_cons, ih]
      simp [or_assoc, or_left_comm]
  rw [ExtTreeSet.contains_iff_mem]
  simp only [mergePlan, hfold, ExtTreeSet.not_mem_empty, false_or, List.mem_filter, Prod.exists,
    mem_toList_iff_getElem?_eq_some, dupDelta]
  cases h : rows[key]? with
  | none =>
    simp only [Option.getD_none, DupDelta.default, Bool.false_eq_true, and_false, iff_false]
    rintro ⟨k, delta, ⟨⟨hk, -⟩, -⟩, rfl⟩
    rw [h] at hk
    cases hk
  | some delta =>
    constructor
    · rintro ⟨k, delta', ⟨⟨hk, hi⟩, hd⟩, rfl⟩
      rw [h] at hk
      cases hk
      exact ⟨hi, hd⟩
    · rintro ⟨hi, hd⟩
      exact ⟨key, delta, ⟨⟨h, hi⟩, hd⟩, rfl⟩

/-! ## What the merge yields -/

/-- The base rows a merge reads: none once the keyspace cleared base. -/
def mergedBase (base : Database d) (state : KeyspaceState d) (includeKey : Bytes → Bool) :
    List KvPair :=
  if (state.mergePlan includeKey).clearBase then [] else base.pairs.filter fun row => includeKey row.1

/-- The rows of the merge, as pairs. -/
def mergedPairs (base : Database d) (state : KeyspaceState d) (includeKey : Bytes → Bool) :
    List KvPair :=
  (mergeWeaver d (state.mergePlan includeKey).deletedKeys .forward).weave
    (mergedBase base state includeKey) (state.mergePlan includeKey).rows

theorem slot_lt_of_compare_lt {base : Database d} (hbase : base.IdentityUnique) {a b : KvPair}
    (ha : a ∈ base.pairs) (hb : b ∈ base.pairs) (h : compare a b = .lt) :
    (mergeWeaver d keys .forward).cmp ((mergeWeaver d keys .forward).slot a)
      ((mergeWeaver d keys .forward).slot b) = .lt := by
  change compare _ _ = _
  rw [compare_pair, Ordering.then_eq_lt] at h ⊢
  obtain hk | ⟨hk, hv⟩ := h
  · exact Or.inl hk
  · refine Or.inr ⟨hk, ?_⟩
    obtain ⟨k, v⟩ := a
    obtain ⟨k', w⟩ := b
    obtain rfl : k = k' := eq_of_compare hk
    have hvw : v ≠ w := fun he => by simp [he] at hv
    cases base with
    | single rows =>
      rw [mem_pairs_single] at ha hb
      exact absurd (Option.some.inj (ha.symm.trans hb)) hvw
    | dupSort rows =>
      have hle := isLE_compare_take 16 hv
      change compare (duplicateIdentity v) (duplicateIdentity w) = .lt
      cases hc : compare (duplicateIdentity v) (duplicateIdentity w) with
      | lt => rfl
      | eq => exact absurd (hbase ha hb (eq_of_compare hc)) hvw
      | gt => exact absurd hle (by rw [duplicateIdentity, duplicateIdentity] at hc; simp [hc])

/-- …and back: rows in slot order are in the order a database keeps them in. -/
theorem compare_lt_of_slot_lt {a b : KvPair}
    (h : (mergeWeaver d keys .forward).cmp ((mergeWeaver d keys .forward).slot a)
      ((mergeWeaver d keys .forward).slot b) = .lt) : compare a b = .lt := by
  change compare _ _ = _ at h
  rw [compare_pair, Ordering.then_eq_lt] at h ⊢
  obtain hk | ⟨hk, hi⟩ := h
  · exact Or.inl hk
  · refine Or.inr ⟨hk, ?_⟩
    cases d with
    | false => simp [mergeWeaver] at hi
    | true =>
      change compare (duplicateIdentity a.2) (duplicateIdentity b.2) = .lt at hi
      cases hc : compare a.2 b.2 with
      | lt => rfl
      | eq => simp [eq_of_compare hc] at hi
      | gt =>
        have hle := isLE_compare_take 16 (OrientedCmp.gt_iff_lt.mp hc)
        change (compare (duplicateIdentity b.2) (duplicateIdentity a.2)).isLE at hle
        rw [OrientedCmp.gt_iff_lt.mpr hi] at hle
        cases hle

theorem sorted_mergedBase {base : Database d} (hbase : base.IdentityUnique)
    (state : KeyspaceState d) :
    (mergeWeaver d keys .forward).SortedBase (mergedBase base state includeKey) := by
  unfold mergedBase
  split
  · exact sorted_nil
  · refine (List.Pairwise.and_mem.mp (base.sorted_pairs.filter _)).imp fun {a b} h => ?_
    exact slot_lt_of_compare_lt hbase (List.mem_of_mem_filter h.1) (List.mem_of_mem_filter h.2.1)
      h.2.2

theorem sorted_mergedPairs {base : Database d} (hbase : base.IdentityUnique)
    (state : KeyspaceState d) : Sorted compare (mergedPairs base state includeKey) :=
  (sorted_weave (lawful_mergePlan state) (sorted_mergedBase hbase state)
    (sorted_mergePlan state)).imp fun {_ _} h => compare_lt_of_slot_lt h

theorem emit_single {rows : OrderedMap Bytes OverlayValue} :
    (∃ staged ∈ ((single clearBase rows).mergePlan includeKey).rows,
      takeOverlay staged = some row) ↔
      includeKey row.1 ∧ rows[row.1]? = some (.present row.2) := by
  simp only [mem_mergePlan_single]
  constructor
  · rintro ⟨_, ⟨key, value, hk, hi, rfl⟩, hrow⟩
    obtain ⟨v, hv, rfl⟩ := Option.map_eq_some_iff.mp hrow
    cases value <;> cases hv
    exact ⟨hi, hk⟩
  · rintro ⟨hi, hk⟩
    exact ⟨_, ⟨row.1, _, hk, hi, rfl⟩, rfl⟩

theorem shows_single {rows : OrderedMap Bytes OverlayValue} (hi : includeKey row.1) :
    (mergeWeaver false ∅ direction).Shows ((single clearBase rows).mergePlan includeKey).rows row ↔
      rows[row.1]? = none := by
  constructor
  · rintro ⟨-, h⟩
    cases hk : rows[row.1]? with
    | none => rfl
    | some value =>
      have := h _ (mem_mergePlan_single.mpr ⟨row.1, value, hk, hi, rfl⟩)
        (compare_eq_iff_eq.mpr rfl)
      cases this
  · refine fun hk => ⟨by simp [mergeWeaver], fun staged hs he => ?_⟩
    obtain ⟨key, value, hkey, -, rfl⟩ := mem_mergePlan_single.mp hs
    have hslot := congrArg Prod.fst (eq_of_compare he)
    change row.1 = key at hslot
    rw [hslot, hkey] at hk
    cases hk

theorem emit_dupSort : (∃ staged ∈ ((dupSort clearBase rows).mergePlan includeKey).rows,
      takeOverlay staged = some row) ↔
      includeKey row.1 ∧
        (dupDelta rows row.1).present[duplicateIdentity row.2]? = some row.2 := by
  simp only [mem_mergePlan_dupSort]
  constructor
  · rintro ⟨_, ⟨key, delta, hk, hi, identity, deleted, -, rfl⟩, hrow⟩
    obtain ⟨v, hv, rfl⟩ := Option.map_eq_some_iff.mp hrow
    refine ⟨hi, ?_⟩
    rw [dupDelta, hk, Option.getD_some, delta.filed hv]
    exact hv
  · rintro ⟨hi, hp⟩
    cases hk : rows[row.1]? with
    | none => simp [dupDelta, hk, DupDelta.default] at hp
    | some delta =>
      rw [dupDelta, hk, Option.getD_some] at hp
      obtain ⟨deleted, hd⟩ := Option.isSome_iff_exists.mp
        ((delta.isSome_byIdentity _).mpr (Or.inr (Option.isSome_of_eq_some hp)))
      refine ⟨_, ⟨row.1, delta, hk, hi, _, deleted, hd, rfl⟩, ?_⟩
      rw [takeOverlay, hp]
      rfl

theorem masks_duplicate {identity : Bytes} {present : Option Bytes} :
    (mergeWeaver true keys direction).masks (.duplicate key identity deleted present) row = false ↔
      present = none ∧ row.2 ∉ deleted := by
  change (present.isSome || deleted.contains row.2) = false ↔ _
  rw [Bool.or_eq_false_iff, ← Bool.not_eq_true (deleted.contains row.2),
    ExtTreeSet.contains_iff_mem]
  simp

theorem shows_dupSort (hi : includeKey row.1) :
    (mergeWeaver true ((dupSort clearBase rows).mergePlan includeKey).deletedKeys direction).Shows
        ((dupSort clearBase rows).mergePlan includeKey).rows row ↔
      (dupDelta rows row.1).deleteBase = false ∧
        (dupDelta rows row.1).present[duplicateIdentity row.2]? = none ∧
        row.2 ∉ (dupDelta rows row.1).deleted := by
  have hhidden : ((dupSort clearBase rows).mergePlan includeKey).deletedKeys.contains row.1 = false ↔
      (dupDelta rows row.1).deleteBase = false := by
    rw [← Bool.not_eq_true, contains_deletedKeys, ← Bool.not_eq_true]
    simp [hi]
  refine and_congr hhidden ?_
  constructor
  · intro h
    cases hk : rows[row.1]? with
    | none => simp [dupDelta, hk, DupDelta.default]
    | some delta =>
      rw [dupDelta, hk, Option.getD_some]
      -- an identity the delta touches has a plan row, which lets the base row through
      have htouched : ∀ deleted, delta.byIdentity[duplicateIdentity row.2]? = some deleted →
          delta.present[duplicateIdentity row.2]? = none ∧ row.2 ∉ delta.deleted := fun deleted hd => by
        have := h _ (mem_mergePlan_dupSort.mpr ⟨row.1, delta, hk, hi, _, deleted, hd, rfl⟩)
          (compare_eq_iff_eq.mpr rfl)
        rw [masks_duplicate, delta.mem_of_byIdentity hd] at this
        exact ⟨this.1, fun hm => this.2 ⟨hm, rfl⟩⟩
      cases hd : delta.byIdentity[duplicateIdentity row.2]? with
      | some deleted => exact htouched deleted hd
      | none =>
        have hnone := mt (delta.isSome_byIdentity (duplicateIdentity row.2)).mpr (by simp [hd])
        rw [not_or] at hnone
        exact ⟨by simpa using hnone.2, fun hm => hnone.1 ⟨row.2, hm, rfl⟩⟩
  · rintro ⟨hp, hm⟩ staged hs he
    obtain ⟨key, delta, hk, -, identity, deleted, hd, rfl⟩ := mem_mergePlan_dupSort.mp hs
    have hslot := eq_of_compare he
    obtain rfl : row.1 = key := congrArg Prod.fst hslot
    obtain rfl : duplicateIdentity row.2 = identity := congrArg Prod.snd hslot
    rw [dupDelta, hk, Option.getD_some] at hp hm
    rw [masks_duplicate, delta.mem_of_byIdentity hd]
    exact ⟨hp, fun h => hm h.1⟩

/-- **The merge yields what the composed store holds** among the keys it includes. -/
theorem mem_mergedPairs {base : Database d} (hbase : base.IdentityUnique) (state : KeyspaceState d)
    (row : KvPair) : row ∈ mergedPairs base state includeKey ↔
      includeKey row.1 ∧ state.Holds base row.1 row.2 := by
  rw [mergedPairs, mem_weave (sorted_mergedBase hbase _) (sorted_mergePlan _)]
  cases state with
  | single clearBase rows =>
    change (_ ∈ _ ∧ (mergeWeaver false ∅ .forward).Shows _ _) ∨
      (∃ staged ∈ _, takeOverlay staged = some row) ↔ _
    rw [emit_single, Holds]
    by_cases hi : includeKey row.1
    · rw [shows_single hi]
      cases clearBase <;> simp [mergedBase, mergePlan, hi, or_comm, and_comm]
    · cases clearBase <;> simp [mergedBase, mergePlan, hi]
  | dupSort clearBase rows =>
    change (_ ∈ _ ∧ _) ∨ (∃ staged ∈ _, takeOverlay staged = some row) ↔ _
    rw [emit_dupSort, Holds]
    by_cases hi : includeKey row.1
    · rw [shows_dupSort hi]
      cases clearBase <;> simp [mergedBase, mergePlan, hi, or_comm]
    · cases clearBase <;> simp [mergedBase, mergePlan, hi]

/-- The rows of one key come in increasing order of identity. -/
theorem sorted_identities {base : Database d} (hbase : base.IdentityUnique)
    (state : KeyspaceState d) (key : Bytes) :
    Sorted (fun a b : KvPair => compare (duplicateIdentity a.2) (duplicateIdentity b.2))
      (state.mergedPairs base (· = key)) := by
  refine (List.Pairwise.and_mem.mp (sorted_weave state.lawful_mergePlan
    (state.sorted_mergedBase hbase) state.sorted_mergePlan)).imp fun {a b} hab => ?_
  obtain ⟨ha, hb, hlt⟩ := hab
  have hka := of_decide_eq_true ((mem_mergedPairs hbase state a).mp ha).1
  have hkb := of_decide_eq_true ((mem_mergedPairs hbase state b).mp hb).1
  change compare (a.1, if d then duplicateIdentity a.2 else [])
    (b.1, if d then duplicateIdentity b.2 else []) = .lt at hlt
  rw [hka, hkb, compare_pair, ReflOrd.compare_self] at hlt
  cases d with
  | false => simp at hlt
  | true => exact hlt

/-- **Two stores that hold the same rows merge to one another's enumeration.** -/
theorem mergedPairs_eq {base plain : Database d} (hbase : base.IdentityUnique)
    {state : KeyspaceState d} (h : ∀ row, state.Holds base row.1 row.2 ↔ row ∈ plain.pairs)
    (includeKey : Bytes → Bool) :
    mergedPairs base state includeKey = plain.pairs.filter fun row => includeKey row.1 :=
  (sorted_mergedPairs hbase state).eq_of_mem_iff (plain.sorted_pairs.filter _) fun row => by
    rw [mem_mergedPairs hbase, h, List.mem_filter, and_comm]

end KeyspaceState

/-! ## Composed reads -/

section Reads

variable {d : Bool}

/-- The streaming merge of a base cursor with a keyspace's plan. -/
def MergedRows.over (cursor : List ReadRow) (state : KeyspaceState d) (includeKey : Bytes → Bool) :
    MergedRows :=
  .new cursor (state.mergePlan includeKey) .forward

theorem rows_over {base : Database d} (hbase : base.IdentityUnique)
    (state : KeyspaceState d) (includeKey : Bytes → Bool) :
    (MergedRows.over (base.rowsWhere includeKey) state includeKey).rows =
      (state.mergedPairs base includeKey).map .ok := by
  refine rows_eq_weave ⟨?_, rfl, state.isDuplicate_mergePlan,
    state.sorted_mergedBase hbase, rfl, rfl⟩
  unfold KeyspaceState.mergedBase
  cases hc : (state.mergePlan includeKey).clearBase <;>
    simp [MergedRows.over, new, pending, hc, Database.rowsWhere]

namespace Composed

variable (base : Database d) (state : KeyspaceState d)

def iter : List ReadRow := (MergedRows.over base.iter state fun _ => true).rows

def prefixIter (start : Bytes) : List ReadRow :=
  mergedPrefixRows false none (MergedRows.over (base.prefixIter start) state start.isPrefixOf).rows

def range (start stop : Bound) : List ReadRow :=
  (MergedRows.over (base.range start stop) state (keyInRange start stop)).rows

/-- The rows under one key; an error in the first of them is the call's own. -/
def getDuplicates (key : Bytes) : Except Error (Option (List ReadRow)) :=
  match (MergedRows.over ((base.getDuplicates key).getD []) state (· = key)).rows with
  | [] => .ok none
  | .error e :: _ => .error e
  | .ok row :: rest => .ok (some (prefetchedMergedRows none (.ok row :: rest)))

def get (key : Bytes) : Except Error (Option Bytes) :=
  match d, base, state with
  | true, base, state => do
    match ← getDuplicates base state key with
    | none => pure none
    | some [] => pure none
    | some (row :: _) => row.map fun row => some row.2
  | false, base, state =>
    match state.lookupSingle key with
    | .passthrough => .ok (base.get key)
    | .tombstone => .ok none
    | .present value => .ok (some value)

variable {base state} {plain : Database d}

theorem mergedPrefixRows_false : ∀ (previous : Option Bytes) (rows : List ReadRow),
    mergedPrefixRows false previous rows = rows
  | _, [] => rfl
  | previous, .error e :: rest => by rw [mergedPrefixRows, mergedPrefixRows_false]
  | _, .ok row :: rest => by
    rw [mergedPrefixRows, Bool.false_and, if_neg (by simp), mergedPrefixRows_false]

/-- Increasing identities pass the duplicate check. -/
theorem prefetchedMergedRows_of_sorted : ∀ (last : Option Bytes) (rows : List KvPair),
    (∀ row ∈ rows, ∀ previous ∈ last, compare previous (duplicateIdentity row.2) = .lt) →
    Sorted (fun a b : KvPair => compare (duplicateIdentity a.2) (duplicateIdentity b.2)) rows →
    prefetchedMergedRows last (rows.map .ok) = rows.map .ok
  | _, [], _, _ => rfl
  | last, row :: rest, hlast, hsorted => by
    obtain ⟨hrow, hrest⟩ := sorted_cons.mp hsorted
    rw [map_cons, prefetchedMergedRows, if_neg,
      prefetchedMergedRows_of_sorted _ rest (fun a ha p hp => ?_) hrest]
    · obtain rfl := Option.mem_some.mp hp
      exact hrow a ha
    · simp only [Option.any_eq_true, not_exists, not_and]
      intro previous hp hle
      rw [OrientedCmp.gt_iff_lt.mpr (hlast row (by simp) previous hp)] at hle
      cases hle

section

variable (hbase : base.IdentityUnique)

include hbase

variable (h : ∀ row, state.Holds base row.1 row.2 ↔ row ∈ plain.pairs)
include h

/-- **A composed scan is the scan of any database that holds the same rows.** -/
theorem rows_over_eq (includeKey : Bytes → Bool) :
    (MergedRows.over (base.rowsWhere includeKey) state includeKey).rows =
      plain.rowsWhere includeKey := by
  rw [rows_over hbase, mergedPairs_eq hbase h, Database.rowsWhere]

theorem iter_eq : iter base state = plain.iter := rows_over_eq hbase h _

theorem prefixIter_eq (start : Bytes) : prefixIter base state start = plain.prefixIter start := by
  rw [prefixIter, mergedPrefixRows_false]
  exact rows_over_eq hbase h _

theorem range_eq (start stop : Bound) :
    range base state start stop = plain.range start stop := rows_over_eq hbase h _

end

theorem getDuplicates_eq {base plain : Database true} {state : KeyspaceState true}
    (hbase : base.IdentityUnique) (h : ∀ row, state.Holds base row.1 row.2 ↔ row ∈ plain.pairs)
    (key : Bytes) : getDuplicates base state key = .ok (plain.getDuplicates key) := by
  have hcursor : (base.getDuplicates key).getD [] = base.rowsWhere (· = key) := by
    cases base with
    | dupSort rows =>
      rw [Database.getDuplicates]
      split <;> rename_i hr <;> simp [hr]
  have hpairs := mergedPairs_eq hbase h (· = key)
  have hsorted := state.sorted_identities hbase key
  cases plain
  rw [getDuplicates, hcursor, rows_over hbase, Database.getDuplicates, Database.rowsWhere, ← hpairs]
  cases hl : state.mergedPairs base (· = key) with
  | nil => rfl
  | cons row rest =>
    rw [hl] at hsorted
    have hpass := prefetchedMergedRows_of_sorted none (row :: rest) (by simp) hsorted
    simpa using hpass

theorem get_eq (hbase : base.IdentityUnique)
    (h : ∀ row, state.Holds base row.1 row.2 ↔ row ∈ plain.pairs) (key : Bytes) :
    get base state key = .ok (plain.get key) := by
  cases state with
  | single clearBase rows =>
    obtain ⟨held⟩ := base
    obtain ⟨plain⟩ := plain
    have hk : ∀ value, plain[key]? = some value ↔ rows[key]? = some (.present value) ∨
        (rows[key]? = none ∧ clearBase = false ∧ held[key]? = some value) := fun value => by
      have hheld : (key, value) ∈ (Database.single held).pairs ↔ held[key]? = some value :=
        mem_pairs_single
      rw [← hheld]
      exact mem_pairs_single.symm.trans (h (key, value)).symm
    change (match KeyspaceState.lookupSingle _ key with
      | .passthrough => Except.ok held[key]?
      | .tombstone => .ok none
      | .present value => .ok (some value)) = Except.ok plain[key]?
    rw [KeyspaceState.lookupSingle]
    cases hr : rows[key]? with
    | some staged =>
      cases staged with
      | present value => rw [(hk value).mpr (Or.inl hr)]
      | tombstone =>
        refine congrArg Except.ok (Option.eq_none_iff_forall_ne_some.mpr fun value hv => ?_).symm
        simp [hk, hr] at hv
    | none =>
      cases clearBase with
      | true =>
        refine congrArg Except.ok (Option.eq_none_iff_forall_ne_some.mpr fun value hv => ?_).symm
        simp [hk, hr] at hv
      | false =>
        refine congrArg Except.ok (Option.ext fun value => ?_)
        simp [hk, hr]
  | dupSort clearBase rows =>
    change (do
      match ← getDuplicates base (.dupSort clearBase rows) key with
      | none | some [] => pure none
      | some (row :: _) => row.map fun row => some row.2 : Except Error (Option Bytes)) = _
    rw [getDuplicates_eq hbase h, get_eq_head?]
    cases plain with
    | dupSort held =>
      rw [Database.getDuplicates, Database.rowsWhere]
      cases (Database.dupSort held).pairs.filter fun row => decide (row.1 = key) <;> rfl

end Composed

end Reads

end Oneiron
