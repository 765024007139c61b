import Oneiron.Foundations.Weave
import Oneiron.Overlay.Database

/-!
# Overlay/MergeWeave — the iterator's loop is the weave of its two sides

On a base that reads without error and a plan of one shape, everything `MergedRows` yields is
`Weaver.weave` of the base rows and the plan (`rows_eq_weave`): `fill_base` only decides when a base
row is fetched, never which (`pending_fillBase`).
-/

namespace Oneiron

/-! ## The streaming merge of a base cursor with a keyspace's plan

    base cursor --fill_base--▸ base_next -┐
                                           ├-▸ next row, in key order
    plan of staged rows -------------------┘

`loopBody` is one turn of the iterator's loop and `rows` everything it yields until it ends.  On a
base that reads without error and a plan of one shape the loop is the weave of the two
(`rows_eq_weave`), so `Foundations/Weave` says which rows come out and in what order.
-/

section Rows

open Std

/-- A staged row as a merge meets it. -/
inductive SnapshotMergeRow where
  | single (key : Bytes) (value : Option Bytes)
  | duplicate (key identity : Bytes) (deleted : OrderedSet Bytes) (present : Option Bytes)

/-- `SnapshotMergePlan`. -/
structure SnapshotMergePlan where
  clearBase : Bool
  deletedKeys : OrderedSet Bytes
  rows : List SnapshotMergeRow

/-! ## The plan of a keyspace -/

/-- The staged value, `none` for a tombstone over base. -/
def OverlayValue.staged : OverlayValue → Option Bytes
  | .present value => some value
  | .tombstone => none

namespace DupDelta

/-- The deleted values filed under their identities, and every present identity. -/
def byIdentity (delta : DupDelta) : OrderedMap Bytes (OrderedSet Bytes) :=
  let deleted := delta.deleted.toList.foldl
    (fun filed value => filed.insert (duplicateIdentity value)
      ((filed[duplicateIdentity value]?.getD ∅).insert value))
    (∅ : OrderedMap Bytes (OrderedSet Bytes))
  delta.present.keys.foldl (fun filed identity => filed.insertIfNew identity ∅) deleted

/-- One merge row for each identity the delta touches. -/
def mergeRows (key : Bytes) (delta : DupDelta) : List SnapshotMergeRow :=
  delta.byIdentity.toList.map fun filed =>
    .duplicate key filed.1 filed.2 delta.present[filed.1]?

end DupDelta

/-- `merge_plan`. -/
def KeyspaceState.mergePlan {d : Bool} (includeKey : Bytes → Bool) :
    KeyspaceState d → SnapshotMergePlan
  | .single clearBase rows =>
    { clearBase
      deletedKeys := ∅
      rows := (rows.toList.filter fun row => includeKey row.1).map fun row =>
        .single row.1 row.2.staged }
  | .dupSort clearBase rows =>
    let included := rows.toList.filter fun row => includeKey row.1
    { clearBase
      deletedKeys := (included.filter fun row => row.2.deleteBase).foldl
        (fun keys row => keys.insert row.1) ∅
      rows := included.flatMap fun row => row.2.mergeRows row.1 }

/-! ## The iterator -/

inductive Direction where
  | forward | reverse
  deriving DecidableEq

/-- A row of a merge, or the error that stood in its place. -/
abbrev ReadRow := Except Error KvPair

structure MergedRows where
  /-- What the base cursor has still to yield. -/
  base : List ReadRow
  baseNext : Option ReadRow
  baseDone : Bool
  overlay : List SnapshotMergeRow
  deletedKeys : OrderedSet Bytes
  direction : Direction

namespace MergedRows

def new (base : List ReadRow) (plan : SnapshotMergePlan) (direction : Direction) : MergedRows where
  base := if plan.clearBase then [] else base
  baseNext := none
  baseDone := plan.clearBase
  overlay := match direction with
    | .forward => plan.rows
    | .reverse => plan.rows.reverse
  deletedKeys := plan.deletedKeys
  direction

def fillBase (s : MergedRows) : MergedRows :=
  if s.baseNext.isNone && !s.baseDone then
    match s.base with
    | [] => { s with baseDone := true }
    | row :: base => { s with base, baseNext := some row }
  else s

/-- Where a base row stands against a staged one, in the order the merge runs in. -/
def basePrecedesOverlay (direction : Direction) (row : KvPair) (staged : SnapshotMergeRow) :
    Ordering :=
  let ordering := match staged with
    | .single key _ => compare row.1 key
    | .duplicate key identity _ _ =>
      (compare row.1 key).then (compare (duplicateIdentity row.2) identity)
  match direction with
  | .forward => ordering
  | .reverse => ordering.swap

/-- The row a staged row yields itself. -/
def takeOverlay : SnapshotMergeRow → Option KvPair
  | .single key value => value.map (key, ·)
  | .duplicate key _ _ present => present.map (key, ·)

/-- One turn of the loop: `none` once both sides are used up, else the row it returns, if the turn
returns one, and the iterator after it. -/
def loopBody (s : MergedRows) : Option (Option ReadRow × MergedRows) :=
  let s := s.fillBase
  let dropBase := { s with baseNext := none }
  match s.baseNext, s.overlay with
  | some (.error e), _ => some (some (.error e), dropBase)
  | none, [] => none
  | some (.ok row), [] =>
    some (if s.deletedKeys.contains row.1 then none else some (.ok row), dropBase)
  | none, staged :: overlay => some ((takeOverlay staged).map .ok, { s with overlay })
  | some (.ok row), staged :: overlay =>
    match basePrecedesOverlay s.direction row staged with
    | .lt => some (if s.deletedKeys.contains row.1 then none else some (.ok row), dropBase)
    | .gt => some ((takeOverlay staged).map .ok, { s with overlay })
    | .eq =>
      match staged with
      | .single .. => some ((takeOverlay staged).map .ok, { dropBase with overlay })
      | .duplicate _ _ deleted present =>
        some (if s.deletedKeys.contains row.1 || present.isSome || deleted.contains row.2 then none
          else some (.ok row), dropBase)

/-- The rows still to be looked at, on both sides. -/
def size (s : MergedRows) : ℕ :=
  s.base.length + (s.baseNext.elim 0 fun _ => 1) + s.overlay.length

/-- What `Iterator::next` yields, call after call, over at most `fuel` turns of its loop. -/
def rowsWithin : ℕ → MergedRows → List ReadRow
  | 0, _ => []
  | fuel + 1, s =>
    match s.loopBody with
    | none => []
    | some (row, rest) => row.toList ++ rowsWithin fuel rest

/-- Everything the iterator yields. -/
def rows (s : MergedRows) : List ReadRow := rowsWithin (s.size + 1) s

end MergedRows

/-- `MergedPrefixRows`: the same rows, only the first of each key when moving between keys. -/
def mergedPrefixRows (moveBetweenKeys : Bool) : Option Bytes → List ReadRow → List ReadRow
  | _, [] => []
  | previous, .error e :: rest => .error e :: mergedPrefixRows moveBetweenKeys previous rest
  | previous, .ok row :: rest =>
    if moveBetweenKeys && previous = some row.1 then
      mergedPrefixRows moveBetweenKeys previous rest
    else .ok row :: mergedPrefixRows moveBetweenKeys (some row.1) rest

/-- `PrefetchedMergedRows`: an identity that does not increase is reported in the row's place. -/
def prefetchedMergedRows : Option Bytes → List ReadRow → List ReadRow
  | _, [] => []
  | last, .error e :: rest => .error e :: prefetchedMergedRows last rest
  | last, .ok row :: rest =>
    if last.any fun previous => (compare (duplicateIdentity row.2) previous).isLE then
      .error (.corruptedIndex "duplicate posting entries for one entity") ::
        prefetchedMergedRows last rest
    else .ok row :: prefetchedMergedRows (some (duplicateIdentity row.2)) rest

end Rows

section Weave

open Std

/-! ## The loop ends -/

variable {s : MergedRows}

namespace MergedRows

theorem size_fillBase_le (s : MergedRows) : s.fillBase.size ≤ s.size := by
  unfold fillBase
  split
  · rename_i h
    have hn : s.baseNext = none := by simpa using And.left (by simpa using h)
    split <;> rename_i hb <;> simp [size, hn, hb]
  · exact Nat.le_refl _

/-- **Every turn that does not end the loop uses a row up.** -/
theorem size_lt_of_loopBody {rest : MergedRows} {row : Option ReadRow}
    (h : s.loopBody = some (row, rest)) : rest.size < s.size := by
  refine Nat.lt_of_lt_of_le ?_ (size_fillBase_le s)
  unfold loopBody at h
  dsimp only at h
  split at h
  next hb => cases h; simp [size, hb]
  next => cases h
  next hb _ => cases h; simp [size, hb]
  next hb ho => cases h; simp [size, hb, ho]
  next hb ho =>
    split at h
    next => cases h; simp [size, hb]
    next => cases h; simp [size, hb, ho]
    next =>
      split at h
      · cases h
        simp only [size, hb, ho, Option.elim, List.length_cons]
        omega
      · cases h; simp [size, hb]

/-! ## The base rows still to come -/

/-- The base rows the loop has still to look at, fetched or not. -/
def pending (s : MergedRows) : List ReadRow :=
  s.baseNext.toList ++ if s.baseDone then [] else s.base

/-- The iterator with the fetched base row taken. -/
def dropBase (s : MergedRows) : MergedRows := { s with baseNext := none }

/-- **Fetching fetches the next base row**, and changes nothing else the loop reads. -/
theorem fillBase_spec (s : MergedRows) :
    s.fillBase.baseNext = s.pending.head? ∧ s.fillBase.dropBase.pending = s.pending.tail ∧
    s.fillBase.pending = s.pending ∧ s.fillBase.overlay = s.overlay ∧
    s.fillBase.deletedKeys = s.deletedKeys ∧ s.fillBase.direction = s.direction := by
  obtain ⟨base, _ | row, _ | _, overlay, deletedKeys, direction⟩ := s <;>
    (try cases base) <;> simp [fillBase, pending, dropBase]

end MergedRows

/-! ## The weave of a keyspace's shape -/

/-- How base rows and staged rows of one keyspace meet: by key, and by identity where the keyspace
keeps duplicates. -/
def mergeWeaver (d : Bool) (deletedKeys : OrderedSet Bytes) (direction : Direction) :
    Weaver KvPair SnapshotMergeRow (Bytes × Bytes) where
  cmp := match direction with
    | .forward => compare
    | .reverse => fun a b => compare b a
  slot row := (row.1, if d then duplicateIdentity row.2 else [])
  slotOver
    | .single key _ => (key, [])
    | .duplicate key identity _ _ => (key, identity)
  hidden row := deletedKeys.contains row.1
  masks
    | .single .., _ => true
    | .duplicate _ _ deleted present, row => present.isSome || deleted.contains row.2
  emit := MergedRows.takeOverlay

instance (d : Bool) (deletedKeys : OrderedSet Bytes) :
    ∀ direction, TransCmp (mergeWeaver d deletedKeys direction).cmp
  | .forward => inferInstanceAs (TransCmp (compare : Bytes × Bytes → _ → _))
  | .reverse => inferInstanceAs (TransCmp fun a b : Bytes × Bytes => compare b a)

instance (d : Bool) (deletedKeys : OrderedSet Bytes) :
    ∀ direction, LawfulEqCmp (mergeWeaver d deletedKeys direction).cmp
  | .forward => inferInstanceAs (LawfulEqCmp (compare : Bytes × Bytes → _ → _))
  | .reverse => inferInstanceAs (LawfulEqCmp fun a b : Bytes × Bytes => compare b a)

/-- Whether a staged row has the shape of the keyspace. -/
def SnapshotMergeRow.isDuplicate : SnapshotMergeRow → Bool
  | .single .. => false
  | .duplicate .. => true

namespace MergedRows

variable {d : Bool} {deletedKeys : OrderedSet Bytes} {direction : Direction}

theorem basePrecedesOverlay_eq (deletedKeys : OrderedSet Bytes) (direction : Direction)
    (row : KvPair) {staged : SnapshotMergeRow} (h : staged.isDuplicate = d) :
    basePrecedesOverlay direction row staged = (mergeWeaver d deletedKeys direction).cmp
      ((mergeWeaver d deletedKeys direction).slot row)
      ((mergeWeaver d deletedKeys direction).slotOver staged) := by
  subst h
  cases staged <;> cases direction <;>
    simp [basePrecedesOverlay, mergeWeaver, compare_pair, SnapshotMergeRow.isDuplicate,
      ← OrientedCmp.eq_swap, Ordering.swap_then]

/-- An iterator with the base rows `bs` and the staged rows `os` still to look at. -/
structure Reads (d : Bool) (deletedKeys : OrderedSet Bytes) (direction : Direction)
    (s : MergedRows) (bs : List KvPair) (os : List SnapshotMergeRow) : Prop where
  pending : s.pending = bs.map .ok
  overlay : s.overlay = os
  shape : ∀ staged ∈ os, staged.isDuplicate = d
  sorted : (mergeWeaver d deletedKeys direction).SortedBase bs
  deletedKeys_eq : s.deletedKeys = deletedKeys
  direction_eq : s.direction = direction

private theorem map_ok_ite (c : Bool) (row : KvPair) :
    (if c then none else some (.ok row) : Option ReadRow) =
      (if c then none else some row).map .ok := by cases c <;> rfl

private theorem toList_ite (c : Bool) (row : KvPair) :
    (if c then [] else [row]) = (if c then none else some row).toList := by cases c <;> rfl

variable {bs : List KvPair} {os : List SnapshotMergeRow}

/-- **One turn of the loop is one step of the weave** — two where a staged row of a single-valued
keyspace meets a base row, which the turn takes together. -/
theorem loopBody_spec (h : Reads d deletedKeys direction s bs os) :
    (s.loopBody = none ∧ bs = [] ∧ os = []) ∨
    ∃ (row : Option KvPair) (rest : MergedRows) (bs' : List KvPair) (os' : List SnapshotMergeRow),
      s.loopBody = some (row.map .ok, rest) ∧ Reads d deletedKeys direction rest bs' os' ∧
      (mergeWeaver d deletedKeys direction).weave bs os =
        row.toList ++ (mergeWeaver d deletedKeys direction).weave bs' os' := by
  obtain ⟨hpending, hoverlay, hshape, hsorted, hdeleted, hdirection⟩ := h
  obtain ⟨hnext, htail, hpend, hover, hdel, hdir⟩ := s.fillBase_spec
  rw [hpending] at hnext htail hpend
  rw [hoverlay] at hover
  rw [hdeleted] at hdel
  rw [hdirection] at hdir
  unfold loopBody
  generalize s.fillBase = t at *
  obtain ⟨base, baseNext, baseDone, overlay, keys, dir⟩ := t
  dsimp only [dropBase] at *
  subst hnext hover hdel hdir
  obtain _ | ⟨b, bs⟩ := bs <;> obtain _ | ⟨o, os⟩ := overlay <;>
    simp only [List.map_nil, List.map_cons, List.head?_nil, List.head?_cons]
  · simp
  · refine Or.inr ⟨takeOverlay o, _, [], os, rfl,
      ⟨hpend, rfl, fun p hp => hshape p (List.mem_cons_of_mem _ hp), hsorted, rfl, rfl⟩, ?_⟩
    rw [Weaver.weave]
    rfl
  · refine Or.inr ⟨if keys.contains b.1 then none else some b, _, bs, [], by rw [map_ok_ite],
      ⟨htail, rfl, hshape, (sorted_cons.mp hsorted).2, rfl, rfl⟩, ?_⟩
    rw [Weaver.weave, toList_ite]
    rfl
  · rw [basePrecedesOverlay_eq keys dir b (hshape o (by simp))]
    have hshape' : ∀ p ∈ os, p.isDuplicate = d := fun p hp => hshape p (List.mem_cons_of_mem _ hp)
    cases hc : (mergeWeaver d keys dir).cmp ((mergeWeaver d keys dir).slot b)
        ((mergeWeaver d keys dir).slotOver o) with
    | lt =>
      refine Or.inr ⟨if keys.contains b.1 then none else some b, _, bs, o :: os,
        by rw [map_ok_ite], ⟨htail, rfl, hshape, (sorted_cons.mp hsorted).2, rfl, rfl⟩, ?_⟩
      rw [Weaver.weave, hc]
      rw [toList_ite]
      rfl
    | gt =>
      refine Or.inr ⟨takeOverlay o, _, b :: bs, os, rfl,
        ⟨hpend, rfl, hshape', hsorted, rfl, rfl⟩, ?_⟩
      rw [Weaver.weave, hc]
      rfl
    | eq =>
      cases o with
      | single key value =>
        -- every later base row lies past the staged row
        have hpast : ∀ a ∈ bs, (mergeWeaver d keys dir).cmp ((mergeWeaver d keys dir).slot a)
            ((mergeWeaver d keys dir).slotOver (.single key value)) = .gt := by
          intro a ha
          rw [← LawfulEqCmp.eq_of_compare hc]
          exact OrientedCmp.gt_iff_lt.mpr ((sorted_cons.mp hsorted).1 a ha)
        refine Or.inr ⟨takeOverlay (.single key value), _, bs, os, rfl,
          ⟨htail, rfl, hshape', (sorted_cons.mp hsorted).2, rfl, rfl⟩, ?_⟩
        rw [Weaver.weave, hc]
        rw [Weaver.weave_cons_over _ hpast]
        simp [mergeWeaver]
      | duplicate key identity deleted present =>
        refine Or.inr ⟨if keys.contains b.1 || present.isSome || deleted.contains b.2 then none
          else some b, _, bs, _ :: os, by dsimp only; rw [map_ok_ite],
          ⟨htail, rfl, hshape, (sorted_cons.mp hsorted).2, rfl, rfl⟩, ?_⟩
        rw [Weaver.weave, hc]
        dsimp only
        rw [toList_ite, Bool.or_assoc]
        rfl

theorem rowsWithin_eq_weave : ∀ {fuel : ℕ} {s : MergedRows} {bs : List KvPair}
    {os : List SnapshotMergeRow}, s.size < fuel → Reads d deletedKeys direction s bs os →
    rowsWithin fuel s = ((mergeWeaver d deletedKeys direction).weave bs os).map .ok
  | fuel + 1, s, bs, os, hsize, h => by
    obtain ⟨hb, rfl, rfl⟩ | ⟨row, rest, bs', os', hb, hr, hw⟩ := loopBody_spec h
    · simp [rowsWithin, hb, Weaver.weave]
    · have hlt := size_lt_of_loopBody hb
      rw [rowsWithin, hb, hw, List.map_append]
      simp only [rowsWithin_eq_weave (show rest.size < fuel by omega) hr]
      cases row <;> rfl

/-- **Everything the iterator yields is the weave of its two sides.** -/
theorem rows_eq_weave (h : Reads d deletedKeys direction s bs os) :
    s.rows = ((mergeWeaver d deletedKeys direction).weave bs os).map .ok :=
  rowsWithin_eq_weave (Nat.lt_succ_self _) h

end MergedRows

end Weave

end Oneiron
