import Oneiron.Overlay.Keyspace

/-!
# Overlay/Database — the LMDB database underneath, as a sorted set of rows

A database without duplicates is a finite map; one with `DUP_SORT` is a set of key–value pairs in
lexicographic order.  Reads yield rows in that order.
-/

open Std

namespace Oneiron

open Std.ExtTreeMap List Option

/-- The rows of one named database; the index says whether it keeps duplicates. -/
inductive Database : Bool → Type where
  | single (rows : OrderedMap Bytes Bytes) : Database false
  | dupSort (rows : OrderedSet KvPair) : Database true

/-- One end of a key range. -/
inductive Bound where
  | included (key : Bytes)
  | excluded (key : Bytes)
  | unbounded
  deriving DecidableEq

/-- `key_in_range`. -/
def keyInRange (start stop : Bound) (key : Bytes) : Bool :=
  (match start with
    | .included start => (compare start key).isLE
    | .excluded start => compare start key = .lt
    | .unbounded => true) &&
  (match stop with
    | .included stop => (compare key stop).isLE
    | .excluded stop => compare key stop = .lt
    | .unbounded => true)

namespace Database

variable {d : Bool}

def empty : (d : Bool) → Database d
  | false => .single ∅
  | true => .dupSort ∅

/-- Every row, in the order a cursor meets them. -/
def pairs : Database d → List KvPair
  | .single rows => rows.toList
  | .dupSort rows => rows.toList

/-- The value under a key, the first of them where it has several. -/
def get : Database d → Bytes → Option Bytes
  | .single rows, key => rows[key]?
  | .dupSort rows, key => (rows.toList.find? (·.1 = key)).map Prod.snd

def put : Database d → Bytes → Bytes → Database d
  | .single rows, key, value => .single (rows.insert key value)
  | .dupSort rows, key, value => .dupSort (rows.insert (key, value))

/-- Every value under the key goes; whether there was one. -/
def delete : Database d → Bytes → Bool × Database d
  | .single rows, key => (rows.contains key, .single (rows.erase key))
  | .dupSort rows, key =>
    (rows.toList.any (·.1 = key), .dupSort (rows.filter (·.1 ≠ key)))

/-- `mdb_del` with a value: a database without duplicates ignores the value. -/
def deleteOneDuplicate : Database d → Bytes → Bytes → Bool × Database d
  | .single rows, key, _ => (rows.contains key, .single (rows.erase key))
  | .dupSort rows, key, value => (rows.contains (key, value), .dupSort (rows.erase (key, value)))

def clear : Database d → Database d
  | .single _ => .single ∅
  | .dupSort _ => .dupSort ∅

/-- The rows whose key satisfies `include`, as a cursor yields them. -/
def rowsWhere (db : Database d) (includeKey : Bytes → Bool) : List (Except Error KvPair) :=
  (db.pairs.filter fun row => includeKey row.1).map .ok

def iter (db : Database d) : List (Except Error KvPair) := db.rowsWhere fun _ => true

def prefixIter (db : Database d) (start : Bytes) : List (Except Error KvPair) :=
  db.rowsWhere start.isPrefixOf

def range (db : Database d) (start stop : Bound) : List (Except Error KvPair) :=
  db.rowsWhere (keyInRange start stop)

/-- The rows under one key, none at all when the key is absent.  The cursor of a database without
duplicates refuses to step over them. -/
def getDuplicates : Database d → Bytes → Option (List (Except Error KvPair))
  | .single rows, key =>
    if rows.contains key then some [.error (.storage "MDB_INCOMPATIBLE")] else none
  | .dupSort rows, key =>
    match (Database.dupSort rows).rowsWhere (· = key) with
    | [] => none
    | row :: rest => some (row :: rest)

/-! ## Contents -/

/-- Two values under one key never share an identity.  Without duplicates there are no two values. -/
def IdentityUnique (db : Database d) : Prop :=
  ∀ ⦃key v w : Bytes⦄, (key, v) ∈ db.pairs → (key, w) ∈ db.pairs →
    duplicateIdentity v = duplicateIdentity w → v = w

@[simp] theorem pairs_empty : (empty d).pairs = [] := by
  cases d <;> rfl

variable {db : Database true} {row : KvPair} {value : Bytes}

@[simp] theorem mem_pairs_single {rows : OrderedMap Bytes Bytes} :
    row ∈ (single rows).pairs ↔ rows[row.1]? = some row.2 :=
  mem_toList_iff_getElem?_eq_some (k := row.1) (v := row.2)

@[simp] theorem mem_pairs_dupSort {rows : OrderedSet KvPair} :
    row ∈ (dupSort rows).pairs ↔ row ∈ rows := ExtTreeSet.mem_toList

theorem identityUnique_single (rows : OrderedMap Bytes Bytes) : (single rows).IdentityUnique :=
  fun key v w hv hw _ => by
    rw [mem_pairs_single] at hv hw
    exact some.inj (hv.symm.trans hw)

/-- Only where there are duplicates can an identity be shared. -/
theorem identityUnique_of_isDupsort {db : Database d} (h : d = true → db.IdentityUnique) :
    db.IdentityUnique := by
  cases db with
  | single rows => exact identityUnique_single rows
  | dupSort => exact h rfl

/-- Rows come in increasing order of key, then value. -/
theorem sorted_pairs : ∀ db : Database d, Sorted compare db.pairs
  | .single rows => (ordered_keys_toList (t := rows)).imp fun {a b} h => by
      rw [compare_pair, h]
      rfl
  | .dupSort _ => ExtTreeSet.ordered_toList

theorem get_eq_head? : ∀ (db : Database d) (key : Bytes),
    db.get key = ((db.pairs.filter (·.1 = key)).head?).map Prod.snd
  | .dupSort rows, key => by simp [get, pairs, head?_filter]
  | .single rows, key => by
    rw [get, head?_filter]
    cases h : rows[key]? with
    | some v =>
      have hm : (key, v) ∈ (single rows).pairs := mem_pairs_single.mpr h
      obtain ⟨row, hrow⟩ := isSome_iff_exists.mp
        (find?_isSome.mpr ⟨(key, v), hm, by simp⟩ :
          ((single rows).pairs.find? (·.1 = key)).isSome)
      have hkey : row.1 = key := by simpa using find?_some hrow
      have := mem_pairs_single.mp (mem_of_find?_eq_some hrow)
      rw [hkey, h] at this
      rw [hrow, map_some, ← some.inj this]
    | none =>
      rw [find?_eq_none.mpr fun row hrow => ?_, map_none]
      rw [mem_pairs_single] at hrow
      rintro hkey
      simp only [decide_eq_true_eq] at hkey
      rw [hkey, h] at hrow
      cases hrow

theorem get_isSome_iff (db : Database d) (key : Bytes) :
    (db.get key).isSome ↔ ∃ v, (key, v) ∈ db.pairs := by
  rw [get_eq_head?, isSome_map, isSome_head?, ← length_pos_iff,
    length_pos_iff_exists_mem]
  constructor
  · rintro ⟨row, hrow⟩
    obtain ⟨hm, hk⟩ := List.mem_filter.mp hrow
    exact ⟨row.2, by rwa [← of_decide_eq_true hk]⟩
  · rintro ⟨v, hv⟩
    exact ⟨(key, v), List.mem_filter.mpr ⟨hv, by simp⟩⟩

theorem mem_pairs_put : ∀ {db : Database d} {key value : Bytes} {row : KvPair},
    row ∈ (db.put key value).pairs ↔
      row = (key, value) ∨ (row ∈ db.pairs ∧ (d = false → row.1 ≠ key))
  | .single rows, key, value, (k, v) => by
    simp only [put, mem_pairs_single, ExtTreeMap.getElem?_insert, LawfulEqCmp.compare_eq_iff_eq,
      Prod.mk.injEq, true_implies, ne_eq]
    by_cases h : key = k
    · simp [h, eq_comm]
    · simp [h, Ne.symm h]
  | .dupSort rows, key, value, row => by
    simp [put, ExtTreeSet.mem_insert, eq_comm (a := row)]

theorem mem_pairs_delete : ∀ {db : Database d} {key : Bytes} {row : KvPair},
    row ∈ (db.delete key).2.pairs ↔ row ∈ db.pairs ∧ row.1 ≠ key
  | .single rows, key, (k, v) => by
    simp only [delete, mem_pairs_single, getElem?_erase, LawfulEqCmp.compare_eq_iff_eq]
    by_cases h : key = k
    · simp [h]
    · simp [h, Ne.symm h]
  | .dupSort rows, key, row => by
    simp [delete, ExtTreeSet.mem_filter]

theorem delete_fst (db : Database d) (key : Bytes) :
    (db.delete key).1 = (db.get key).isSome := by
  rw [Bool.eq_iff_iff, get_isSome_iff]
  cases db with
  | single rows =>
    simp only [delete, mem_pairs_single, ← isSome_getElem?_eq_contains,
      isSome_iff_exists]
  | dupSort rows => simp [delete]

@[simp] theorem mem_pairs_clear {db : Database d} : row ∈ db.clear.pairs ↔ False := by
  cases db <;> simp [clear]

theorem mem_pairs_deleteOneDuplicate {key : Bytes} :
    row ∈ (db.deleteOneDuplicate key value).2.pairs ↔ row ∈ db.pairs ∧ row ≠ (key, value) := by
  cases db
  simp [deleteOneDuplicate, ExtTreeSet.mem_erase, and_comm, eq_comm (a := row)]

theorem deleteOneDuplicate_fst {key : Bytes} :
    (db.deleteOneDuplicate key value).1 = true ↔ (key, value) ∈ db.pairs := by
  cases db
  simp [deleteOneDuplicate]

end Database

end Oneiron
