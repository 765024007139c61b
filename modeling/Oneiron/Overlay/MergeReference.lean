import Oneiron.Foundations.EachKey
import Oneiron.Overlay.Composed

/-!
# Overlay/MergeReference — the streaming merge against the merge of two maps

    base rows --file--▸ key ↦ identity ↦ value --each staged delta--▸ the same map, merged --▸ rows

`mergeRows` builds the whole map and enumerates it; `MergedRows` walks the two inputs once.  Both
hold what the composed store holds (`mem_mergeRows`, `mem_mergedPairs`) in the same order, so one
enumerates the other, forwards (`rows_forward`) and backwards (`rows_reverse`).
-/

open Std

namespace Oneiron

open Database KeyspaceState MergedRows OrderedMap Weaver

open Std.ExtTreeMap List Option

variable {d : Bool}

namespace DupDelta

/-- The values of a key, by identity, with a delta merged in. -/
def mergeValues (delta : DupDelta) (values : OrderedMap Bytes Bytes) : OrderedMap Bytes Bytes :=
  let values := if delta.deleteBase then ∅ else values
  let values := delta.deleted.toList.foldl
    (fun values deleted => if values[duplicateIdentity deleted]? = some deleted then
      values.erase (duplicateIdentity deleted) else values) values
  delta.present.toList.foldl (fun values row => values.insert row.1 row.2) values

end DupDelta

namespace KeyspaceState

/-- The base rows of a DUP_SORT keyspace, filed by key and identity. -/
def fileRows (base : List KvPair) : OrderedMap Bytes (OrderedMap Bytes Bytes) :=
  base.foldl (fun merged row => file merged row.1 (duplicateIdentity row.2) row.2) ∅

/-- The map `merge_rows` builds of a single-valued keyspace. -/
def mergedValues (clearBase : Bool) (rows : OrderedMap Bytes OverlayValue) (base : List KvPair) :
    OrderedMap Bytes Bytes :=
  rows.toList.foldl (fun merged row =>
    match row.2 with
    | .present value => merged.insert row.1 value
    | .tombstone => merged.erase row.1)
    (if clearBase then ∅ else base.foldl (fun merged row => merged.insert row.1 row.2) ∅)

/-- The map `merge_rows` builds of a DUP_SORT keyspace. -/
def mergedDuplicates (clearBase : Bool) (rows : OrderedMap Bytes DupDelta) (base : List KvPair) :
    OrderedMap Bytes (OrderedMap Bytes Bytes) :=
  rows.toList.foldl (fun merged row =>
    let values := row.2.mergeValues (merged[row.1]?.getD ∅)
    if values.isEmpty then merged.erase row.1 else merged.insert row.1 values)
    (if clearBase then ∅ else fileRows base)

/-- `merge_rows`: the rows of the two maps merged. -/
def mergeRows : KeyspaceState d → List KvPair → List KvPair
  | .single clearBase rows, base => (mergedValues clearBase rows base).toList
  | .dupSort clearBase rows, base => (mergedDuplicates clearBase rows base).toList.flatMap
      fun row => row.2.toList.map fun filed => (row.1, filed.2)

/-! ## The map of a single-valued keyspace -/

theorem getElem?_foldl_insert (rows : OrderedMap Bytes Bytes) (key : Bytes) :
    (rows.toList.foldl (fun merged row => merged.insert row.1 row.2)
      (∅ : OrderedMap Bytes Bytes))[key]? = rows[key]? := by
  rw [foldl_at (fun merged key => merged[key]?) _ (fun _ _ value => some value)
    (fun merged k value => getElem?_insert_self)
    (fun merged k value j hne => by simp [ExtTreeMap.getElem?_insert, hne.symm])]
  cases rows[key]? <;> simp

/-! ## The map of a DUP_SORT keyspace -/

/-- The last row of a key and identity is the one filed. -/
theorem entry_fileRows (key identity : Bytes) : ∀ (base : List KvPair)
    (merged : OrderedMap Bytes (OrderedMap Bytes Bytes)),
    entry (base.foldl (fun merged row =>
        file merged row.1 (duplicateIdentity row.2) row.2) merged) key identity =
      ((base.reverse.find? fun row => row.1 = key ∧ duplicateIdentity row.2 = identity).map
        Prod.snd).or (entry merged key identity)
  | [], merged => by simp
  | row :: base, merged => by
    rw [foldl_cons, entry_fileRows key identity base, entry_file, reverse_cons,
      find?_append, map_or, Option.or_assoc, find?_singleton]
    by_cases h : row.1 = key ∧ duplicateIdentity row.2 = identity <;> simp [h]

/-- **A base of one value an identity is filed as it is.** -/
theorem entry_fileRows_eq_some {base : Database true} (hbase : base.IdentityUnique)
    {key identity value : Bytes} : entry (fileRows base.pairs) key identity = some value ↔
      (key, value) ∈ base.pairs ∧ duplicateIdentity value = identity := by
  rw [fileRows, entry_fileRows, show entry (∅ : OrderedMap Bytes (OrderedMap Bytes Bytes))
    key identity = none by simp [entry], or_none, map_eq_some_iff]
  constructor
  · rintro ⟨row, hrow, rfl⟩
    obtain ⟨rfl, hidentity⟩ : row.1 = key ∧ duplicateIdentity row.2 = identity := by
      simpa using find?_some hrow
    exact ⟨mem_reverse.mp (mem_of_find?_eq_some hrow), hidentity⟩
  · rintro ⟨hrow, hidentity⟩
    cases hfound : base.pairs.reverse.find? fun row =>
        row.1 = key ∧ duplicateIdentity row.2 = identity with
    | none =>
      refine absurd ?_ (find?_eq_none.mp hfound (key, value) (mem_reverse.mpr hrow))
      simpa using hidentity
    | some row =>
      obtain ⟨hkey, hidentity'⟩ : row.1 = key ∧ duplicateIdentity row.2 = identity := by
        simpa using find?_some hfound
      have hmem := mem_reverse.mp (mem_of_find?_eq_some hfound)
      refine ⟨row, rfl, hbase (hkey ▸ hmem) hrow (hidentity'.trans hidentity.symm)⟩

/-- A deleted value goes where it is the one filed. -/
theorem getElem?_foldl_deleted (identity value : Bytes) : ∀ (deleted : List Bytes)
    (values : OrderedMap Bytes Bytes),
    (deleted.foldl (fun values value => if values[duplicateIdentity value]? = some value then
        values.erase (duplicateIdentity value) else values) values)[identity]? = some value ↔
      values[identity]? = some value ∧ (duplicateIdentity value = identity → value ∉ deleted)
  | [], values => by simp
  | first :: deleted, values => by
    rw [foldl_cons, getElem?_foldl_deleted identity value deleted]
    by_cases hfirst : values[duplicateIdentity first]? = some first
    · rw [if_pos hfirst, getElem?_erase]
      by_cases hidentity : duplicateIdentity first = identity
      · subst hidentity
        simp only [compare_self, if_true, hfirst, Option.some.injEq]
        simp
        rintro rfl
        simp
      · have hne (heq : duplicateIdentity value = identity) : value ≠ first := fun hsame =>
          hidentity (hsame ▸ heq)
        simp only [Std.compare_eq_iff_eq, hidentity, if_false, mem_cons, not_or]
        exact and_congr_right fun _ => ⟨fun h heq => ⟨hne heq, h heq⟩, fun h heq => (h heq).2⟩
    · rw [if_neg hfirst, mem_cons, not_or]
      refine and_congr_right fun hvalue => ⟨fun h heq => ⟨fun hsame => hfirst ?_, h heq⟩,
        fun h heq => (h heq).2⟩
      rw [← hsame, heq, hvalue]

/-- A merge keeps the values a delta has present, and those filed before that it does not touch. -/
theorem getElem?_mergeValues (delta : DupDelta) (values : OrderedMap Bytes Bytes)
    (identity value : Bytes) : (delta.mergeValues values)[identity]? = some value ↔
      delta.present[identity]? = some value ∨ (delta.present[identity]? = none ∧
        delta.deleteBase = false ∧ values[identity]? = some value ∧
        (duplicateIdentity value = identity → value ∉ delta.deleted)) := by
  rw [DupDelta.mergeValues, foldl_at (fun values identity => values[identity]?) _
    (fun _ _ value => some value) (fun values k value => getElem?_insert_self)
    (fun values k value j hne => by simp [ExtTreeMap.getElem?_insert, hne.symm])]
  cases delta.present[identity]? with
  | some present => simp
  | none =>
    rw [elim_none, getElem?_foldl_deleted]
    cases delta.deleteBase <;> simp

theorem getElem?_mergedValues {base : Database false} {clearBase : Bool}
    {rows : OrderedMap Bytes OverlayValue} {key value : Bytes} :
    (mergedValues clearBase rows base.pairs)[key]? = some value ↔
      (single clearBase rows).Holds base key value := by
  obtain ⟨held⟩ := base
  rw [mergedValues, foldl_at (fun merged key => merged[key]?) _
    (fun _ _ staged => staged.staged)
    (fun merged k staged => by cases staged <;> simp [OverlayValue.staged])
    (fun merged k staged j hne => by
      cases staged <;> simp [ExtTreeMap.getElem?_insert, getElem?_erase, hne.symm]),
    Holds, mem_pairs_single]
  cases hstaged : rows[key]? with
  | some staged => cases staged <;> simp [OverlayValue.staged]
  | none =>
    cases clearBase with
    | true => simp
    | false =>
      rw [elim_none, if_neg Bool.false_ne_true, Database.pairs, getElem?_foldl_insert]
      simp

theorem entry_mergedDuplicates {base : Database true} (hbase : base.IdentityUnique)
    {clearBase : Bool} {rows : OrderedMap Bytes DupDelta} {key identity value : Bytes} :
    entry (mergedDuplicates clearBase rows base.pairs) key identity = some value ↔
      duplicateIdentity value = identity ∧ (dupSort clearBase rows).Holds base key value := by
  have hentry (merged : OrderedMap Bytes (OrderedMap Bytes Bytes)) :
      entry merged key identity = (merged[key]?.getD ∅)[identity]? := by
    rw [entry]
    cases merged[key]? <;> simp
  have hfiled : (((if clearBase then ∅ else fileRows base.pairs :
      OrderedMap Bytes (OrderedMap Bytes Bytes))[key]?).getD ∅)[identity]? = some value ↔
      clearBase = false ∧ (key, value) ∈ base.pairs ∧ duplicateIdentity value = identity := by
    rw [← hentry, ← entry_fileRows_eq_some hbase]
    cases clearBase <;> simp [entry]
  rw [hentry, mergedDuplicates, foldl_at (fun merged key => merged[key]?.getD ∅) _
    (fun _ values delta => delta.mergeValues values) (fun merged k delta => ?_)
    (fun merged k delta j hne => ?_), Holds, dupDelta]
  · cases hdelta : rows[key]? with
    | none =>
      simp [DupDelta.default]
      tauto
    | some delta =>
      rw [elim_some, getElem?_mergeValues, hfiled, getD_some]
      constructor
      · rintro (hpresent | ⟨hpresent, hdelete, ⟨hclear, hrow, rfl⟩, hdeleted⟩)
        · obtain rfl := delta.filed hpresent
          exact ⟨rfl, Or.inl hpresent⟩
        · exact ⟨rfl, Or.inr ⟨hclear, hrow, hdelete, hpresent, hdeleted rfl⟩⟩
      · rintro ⟨rfl, hpresent | ⟨hclear, hrow, hdelete, hpresent, hdeleted⟩⟩
        · exact Or.inl hpresent
        · exact Or.inr ⟨hpresent, hdelete, ⟨hclear, hrow, rfl⟩, fun _ => hdeleted⟩
  · dsimp only
    split
    · rename_i hempty
      rw [getElem?_erase_self, ExtTreeMap.isEmpty_iff.mp hempty, getD_none]
    · rw [getElem?_insert_self, getD_some]
  · dsimp only
    split <;> simp [ExtTreeMap.getElem?_insert, getElem?_erase, hne.symm]

/-! ## What the map merge holds -/

/-- **The map merge holds what the composed store holds.** -/
theorem mem_mergeRows {base : Database d} (hbase : base.IdentityUnique) (state : KeyspaceState d)
    (row : KvPair) : row ∈ state.mergeRows base.pairs ↔ state.Holds base row.1 row.2 := by
  cases state with
  | single clearBase rows =>
    rw [mergeRows, ← getElem?_mergedValues]
    exact mem_toList_iff_getElem?_eq_some (k := row.1) (v := row.2)
  | dupSort clearBase rows =>
    have hentry (identity : Bytes) :
        entry (mergedDuplicates clearBase rows base.pairs) row.1 identity = some row.2 ↔
          duplicateIdentity row.2 = identity ∧ (dupSort clearBase rows).Holds base row.1 row.2 :=
      entry_mergedDuplicates hbase
    simp only [entry, bind_eq_some_iff] at hentry
    simp only [mergeRows, mem_flatMap, List.mem_map, Prod.exists,
      mem_toList_iff_getElem?_eq_some]
    constructor
    · rintro ⟨key, values, hvalues, identity, value, hvalue, rfl⟩
      exact ((hentry identity).mp ⟨values, hvalues, hvalue⟩).2
    · intro hholds
      obtain ⟨values, hvalues, hvalue⟩ := (hentry _).mpr ⟨rfl, hholds⟩
      exact ⟨row.1, values, hvalues, _, row.2, hvalue, rfl⟩

/-- …in increasing order. -/
theorem sorted_mergeRows {base : Database d} (hbase : base.IdentityUnique) (state : KeyspaceState d) :
    Sorted compare (state.mergeRows base.pairs) := by
  cases state with
  | single clearBase rows => exact (Database.single (mergedValues clearBase rows base.pairs)).sorted_pairs
  | dupSort clearBase rows =>
    refine pairwise_flatMap.mpr ⟨fun row hrow => pairwise_map.mpr ?_, ?_⟩
    · have hfiled (filed : Bytes × Bytes) (h : filed ∈ row.2.toList) :
          duplicateIdentity filed.2 = filed.1 := by
        have hentry : entry (mergedDuplicates clearBase rows base.pairs) row.1 filed.1 =
            some filed.2 → _ := fun h => ((entry_mergedDuplicates hbase).mp h).1
        refine hentry ?_
        rw [entry, mem_toList_iff_getElem?_eq_some.mp hrow, bind_some]
        exact mem_toList_iff_getElem?_eq_some.mp h
      refine (List.Pairwise.and_mem.mp ordered_keys_toList).imp fun {a b} h => ?_
      obtain ⟨ha, hb, hlt⟩ := h
      refine @compare_lt_of_slot_lt true ∅ _ _ ?_
      change compare (row.1, duplicateIdentity a.2) (row.1, duplicateIdentity b.2) = .lt
      rw [hfiled a ha, hfiled b hb, compare_pair, ReflOrd.compare_self]
      exact hlt
    · refine (ordered_keys_toList).imp fun {a b} h x hx y hy => ?_
      obtain ⟨i, _, rfl⟩ := List.mem_map.mp hx
      obtain ⟨j, _, rfl⟩ := List.mem_map.mp hy
      rw [compare_pair, h]
      rfl

/-- **The streaming merge yields the map merge's rows**, where the bound includes their keys. -/
theorem mergedPairs_eq_mergeRows {base : Database d} (hbase : base.IdentityUnique)
    (state : KeyspaceState d) (includeKey : Bytes → Bool) :
    mergedPairs base state includeKey = (state.mergeRows base.pairs).filter fun row =>
      includeKey row.1 :=
  (sorted_mergedPairs hbase state).eq_of_mem_iff ((sorted_mergeRows hbase state).filter _)
    fun row => by rw [mem_mergedPairs hbase, List.mem_filter, mem_mergeRows hbase, and_comm]

end KeyspaceState

/-! ## Backwards -/

/-- The streaming merge run backwards, over a cursor that runs backwards. -/
def MergedRows.back (cursor : List ReadRow) (state : KeyspaceState d) (includeKey : Bytes → Bool) :
    MergedRows :=
  .new cursor (state.mergePlan includeKey) .reverse

/-- A base row shows through the same staged rows whichever way they are met. -/
theorem shows_reverse {keys : OrderedSet Bytes} {staged : List SnapshotMergeRow} {row : KvPair} :
    (mergeWeaver d keys .reverse).Shows staged.reverse row ↔
      (mergeWeaver d keys .forward).Shows staged row := by
  refine and_congr_right fun _ => ⟨fun h o ho he => ?_, fun h o ho he => ?_⟩
  · exact h o (mem_reverse.mpr ho) (OrientedCmp.eq_comm.mp he)
  · exact h o (mem_reverse.mp ho) (OrientedCmp.eq_comm.mp he)

/-- **Backwards the merge yields the same rows, last first.** -/
theorem rows_back {base : Database d} (hbase : base.IdentityUnique)
    (state : KeyspaceState d) (includeKey : Bytes → Bool) :
    (back (base.rowsWhere includeKey).reverse state includeKey).rows =
      (state.mergedPairs base includeKey).reverse.map .ok := by
  let keys := (state.mergePlan includeKey).deletedKeys
  have hsorted : (mergeWeaver d keys .forward).SortedBase (state.mergedBase base includeKey) :=
    state.sorted_mergedBase hbase
  have hover : (mergeWeaver d keys .forward).SortedOver (state.mergePlan includeKey).rows :=
    state.sorted_mergePlan
  have hbases : (mergeWeaver d keys .reverse).SortedBase (state.mergedBase base includeKey).reverse :=
    pairwise_reverse.mpr hsorted
  have hovers : (mergeWeaver d keys .reverse).SortedOver
      (state.mergePlan includeKey).rows.reverse := pairwise_reverse.mpr hover
  have hlawful : (mergeWeaver d keys .reverse).Lawful (state.mergePlan includeKey).rows.reverse :=
    fun staged h => state.lawful_mergePlan staged (mem_reverse.mp h)
  have hreads : MergedRows.Reads d keys .reverse
      (back (base.rowsWhere includeKey).reverse state includeKey)
      (state.mergedBase base includeKey).reverse (state.mergePlan includeKey).rows.reverse := by
    refine ⟨?_, rfl, fun staged h => state.isDuplicate_mergePlan staged (mem_reverse.mp h),
      hbases, rfl, rfl⟩
    unfold KeyspaceState.mergedBase
    cases hc : (state.mergePlan includeKey).clearBase <;>
      simp [back, new, pending, hc, Database.rowsWhere]
  rw [rows_eq_weave hreads]
  refine congrArg (List.map Except.ok) (reverse_eq_iff.mp ?_)
  have hwoven : Sorted compare ((mergeWeaver d keys .reverse).weave
      (state.mergedBase base includeKey).reverse (state.mergePlan includeKey).rows.reverse).reverse :=
    pairwise_reverse.mpr ((sorted_weave hlawful hbases hovers).imp fun {a b} h =>
      @compare_lt_of_slot_lt d keys _ _ h)
  refine hwoven.eq_of_mem_iff (state.sorted_mergedPairs hbase) fun row => ?_
  rw [mem_reverse, KeyspaceState.mergedPairs, mem_weave hbases hovers,
    mem_weave hsorted hover, shows_reverse, mem_reverse]
  simp [mergeWeaver]

/-! ## Moving between keys, and the check of duplicates -/

/-- **Moving between keys keeps the first row of each key.** -/
theorem mergedPrefixRows_true : ∀ {rows : List KvPair} {previous : Option Bytes},
    Sorted compare rows → (∀ key ∈ previous, ∀ row ∈ rows, (compare key row.1).isLE) →
    mergedPrefixRows true previous (rows.map .ok) =
      (rows.filter fun row => previous ≠ some row.1 ∧ rows.find? (·.1 = row.1) = some row).map .ok
  | [], _, _, _ => rfl
  | row :: rest, previous, hsorted, hprevious => by
    obtain ⟨hrow, hrest⟩ := sorted_cons.mp hsorted
    have hle (other : KvPair) (h : other ∈ rest) : (compare row.1 other.1).isLE := by
      have := hrow other h
      rw [compare_pair, Ordering.then_eq_lt] at this
      rcases this with h | ⟨h, -⟩ <;> simp [h]
    rw [map_cons, mergedPrefixRows, Bool.true_and]
    by_cases hsame : previous = some row.1
    · -- the key has been met: the row is passed over
      rw [if_pos (by simpa using hsame), mergedPrefixRows_true hrest fun key hkey other h =>
        hprevious key hkey other (mem_cons_of_mem _ h),
        filter_cons_of_neg (by simp [hsame])]
      refine congrArg (List.map Except.ok) (filter_congr fun other hother => ?_)
      by_cases hkey : row.1 = other.1 <;> simp [hsame, hkey]
    · rw [if_neg (by simpa using hsame), mergedPrefixRows_true hrest fun key hkey other h =>
        mem_some.mp hkey ▸ hle other h,
        filter_cons_of_pos (by simp [hsame]), map_cons]
      refine congrArg _ (congrArg (List.map Except.ok) (filter_congr fun other hother => ?_))
      by_cases hkey : row.1 = other.1
      · have hne : row ≠ other := fun h => by simpa [h] using hrow other hother
        simp [hkey, hne]
      · have hother' : previous ≠ some other.1 := fun h => by
          -- a key met before is at or below this row's, and so below every later one
          have hbelow := hprevious other.1 (by simp [h]) row mem_cons_self
          cases hc : compare row.1 other.1 with
          | lt => simp [OrientedCmp.gt_iff_lt.mpr hc] at hbelow
          | eq => exact hkey (LawfulEqCmp.eq_of_compare hc)
          | gt => simpa [hc] using hle other hother
        simp [hkey, hother']

/-- **The streaming merge is the map merge.**  Under any bound on the keys it yields the rows of the
two maps merged, each once, and backwards the same rows in the opposite order; moving between keys
keeps the first row of each key, and the rows of one key pass the check of duplicates. -/
theorem mergedRows_eq_mergeRows {base : Database d} (hbase : base.IdentityUnique)
    (state : KeyspaceState d) :
    (∀ includeKey : Bytes → Bool,
      let rows := (state.mergeRows base.pairs).filter fun row => includeKey row.1
      rows.Nodup ∧
      (MergedRows.over (base.rowsWhere includeKey) state includeKey).rows = rows.map .ok ∧
      (back (base.rowsWhere includeKey).reverse state includeKey).rows =
        rows.reverse.map .ok ∧
      mergedPrefixRows true none (MergedRows.over (base.rowsWhere includeKey) state includeKey).rows =
        (rows.filter fun row => rows.find? (·.1 = row.1) = some row).map .ok) ∧
    ∀ key, let rows := (MergedRows.over (base.rowsWhere (· = key)) state (· = key)).rows
      prefetchedMergedRows none rows = rows := by
  refine ⟨fun includeKey => ?_, fun key => ?_⟩
  · have hsorted := (sorted_mergeRows hbase state).filter fun row => includeKey row.1
    refine ⟨hsorted.nodup, ?_, ?_, ?_⟩
    · rw [rows_over hbase, mergedPairs_eq_mergeRows hbase]
    · rw [rows_back hbase, mergedPairs_eq_mergeRows hbase]
    · rw [rows_over hbase, mergedPairs_eq_mergeRows hbase,
        mergedPrefixRows_true hsorted fun _ h => by cases h]
      simp
  · dsimp only
    rw [rows_over hbase]
    refine Composed.prefetchedMergedRows_of_sorted none _ (fun _ _ _ h => by cases h)
      (state.sorted_identities hbase key)

/-- …at two postings of one key, one shorter than an identity, under a room that deletes the first
and replaces the second. -/
theorem mergedRows_eq_mergeRows_postings :
    let long (last : UInt8) : Bytes := List.replicate 16 7 ++ [last]
    let base : Database true := ((Database.empty true).put [1] [3]).put [1] (long 1)
    let delta : DupDelta := (DupDelta.default.put (long 2)).deleteDuplicate [3] true
    let state : KeyspaceState true := .dupSort false ((∅ : OrderedMap Bytes DupDelta).insert [1] delta)
    state.mergeRows base.pairs = [([1], long 2)] ∧
      (MergedRows.over (base.rowsWhere fun _ => true) state fun _ => true).rows =
        [.ok ([1], long 2)] := by
  intro long base delta state
  have hbase : base.IdentityUnique := by
    intro key v w hv hw h
    simp only [base, mem_pairs_put, pairs_empty] at hv hw
    rcases hv with hv | ⟨hv | hv, -⟩ <;> rcases hw with hw | ⟨hw | hw, -⟩ <;>
      simp_all [duplicateIdentity, long]
  have hrows : state.mergeRows base.pairs = [([1], long 2)] := by decide
  refine ⟨hrows, ?_⟩
  have hover := ((mergedRows_eq_mergeRows hbase state).1 fun _ => true).2.1
  rw [hrows] at hover
  exact hover

end Oneiron
