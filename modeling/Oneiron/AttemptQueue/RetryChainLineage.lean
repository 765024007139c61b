import Oneiron.AttemptQueue.RetryChain

/-!
# AttemptQueue/RetryChainLineage — the lineage a walk finds, its depth, and what of it stays

A lineage is a chain of stored rows, each the try the one above it retries.  Both walks of the queue
find it (`walk_of_linked`): one counts it (`retryChainDepth_eq`), the other marks the rows that stay,
which are the newest stamped since (`kept_mark`).
-/

namespace Oneiron

open List Option

/-! ## What the ledger keeps of one attempt

Deleting a row and relinking one each touch the row's own footprint alone: its row, and the index
entries that name its id.  A deleted row leaves no trace (`footprint_delete`), a relinked one is named
under its new parent and elsewhere as it was (`indexes_relinked`).
-/

section Footprint

open Std

namespace AttemptQueue

open LineageTables

/-- The row kept under an id, and the entries that name the id, by the key or parent they stand
under. -/
@[ext] structure Footprint where
  record : Option (Except QueueError LineageRecord)
  ready : Set Bytes
  dedupe : Set Bytes
  kind : Set Bytes
  task : Set Bytes
  retryChild : Set AttemptId
  parentChild : Set AttemptId
  annotationHold : Prop

/-- An id the ledger does not know. -/
def Footprint.gone : Footprint := ⟨none, ∅, ∅, ∅, ∅, ∅, ∅, False⟩

/-- What the ledger keeps of an attempt. -/
def LineageTables.footprint (tables : LineageTables) (id : AttemptId) : Footprint where
  record := tables.records[id]?
  ready := {key | tables.ready[key]? = some id.asBytes}
  dedupe := {key | tables.dedupe[key]? = some id.asBytes}
  kind := {kind | (kind, id) ∈ tables.kind}
  task := {task | (task, id) ∈ tables.task}
  retryChild := {parent | (parent, id) ∈ tables.retryChild}
  parentChild := {parent | (parent, id) ∈ tables.parentChild}
  annotationHold := id ∈ tables.annotationHold

/-- The indexes name a row as it was created, and no ready or dedupe entry names it elsewhere. -/
structure Footprint.Indexes (codecs : RowCodecs) (row : Try) (footprint : Footprint) : Prop where
  record : footprint.record = some (.ok row.toLineageRecord)
  ready : ∀ key ∈ footprint.ready, key = readyKey (readyAt row.toAttemptRecord) row.id
  dedupe : ∀ key ∈ footprint.dedupe, key ∈ dedupeIndexKeys codecs row
  kind : footprint.kind = {row.kind}
  task : footprint.task = {task | row.taskRef = some task}
  retryChild : footprint.retryChild = {parent | row.retryOf = some parent}
  parentChild : footprint.parentChild = {parent | effectiveParent codecs row = some parent}

/-! ## Index entries -/

variable {child id x : AttemptId}

theorem pairUnder_eq_some {α : Type} {parent : Option α} {p : α} :
    pairUnder parent child = some (p, id) ↔ parent = some p ∧ child = id := by
  cases parent <;> simp [pairUnder]

section Entries

variable {α : Type} [DecidableEq α] {index : Finset (α × AttemptId)} {pair : Option (α × AttemptId)}
  {entry : α × AttemptId}

theorem mem_deletePair : entry ∈ deletePair index pair ↔ entry ∈ index ∧ pair ≠ some entry := by
  cases pair with
  | none => simp [deletePair]
  | some p => simp [deletePair, and_comm, eq_comm]

theorem mem_putPair : entry ∈ putPair index pair ↔ pair = some entry ∨ entry ∈ index := by
  cases pair with
  | none => simp [putPair]
  | some p => simp [putPair, eq_comm]

end Entries

theorem asBytes_inj {a b : AttemptId} : a.asBytes = b.asBytes ↔ a = b :=
  ⟨AttemptId.ext, congrArg _⟩

theorem getElem?_deleteNaming {index : OrderedMap Bytes Bytes} {key k : Bytes} :
    (deleteNaming index id key)[k]? = some x.asBytes ↔
      index[k]? = some x.asBytes ∧ (x = id → k ≠ key) := by
  unfold deleteNaming
  by_cases hkey : key = k
  · subst hkey
    split
    · next hnames =>
      rw [ExtTreeMap.getElem?_erase, if_pos (by simp), hnames, Option.some.injEq, asBytes_inj]
      exact ⟨nofun, fun h => absurd rfl (h.2 h.1.symm)⟩
    · next hnames => exact ⟨fun h => ⟨h, fun hx => absurd (hx ▸ h) hnames⟩, fun h => h.1⟩
  · split
    · rw [OrderedMap.getElem?_erase_of_ne hkey]
      exact ⟨fun h => ⟨h, fun _ => Ne.symm hkey⟩, fun h => h.1⟩
    · exact ⟨fun h => ⟨h, fun _ => Ne.symm hkey⟩, fun h => h.1⟩

theorem getElem?_foldl_deleteNaming {k : Bytes} :
    ∀ {keys : List Bytes} {index : OrderedMap Bytes Bytes},
      (keys.foldl (deleteNaming · id) index)[k]? = some x.asBytes ↔
        index[k]? = some x.asBytes ∧ (x = id → k ∉ keys)
  | [], index => by simp
  | key :: keys, index => by
    rw [foldl_cons, getElem?_foldl_deleteNaming, getElem?_deleteNaming, mem_cons, not_or]
    tauto

/-! ## Edits -/

section Edits

variable {codecs : RowCodecs} {tables : LineageTables} {row : Try} {id : AttemptId}

/-- **A deletion touches what the ledger keeps of the row it deletes alone.** -/
theorem footprint_delete_of_ne (h : id ≠ row.id) :
    (tables.delete codecs row).footprint id = tables.footprint id := by
  have hrecord : (tables.records.erase row.id)[id]? = tables.records[id]? :=
    OrderedMap.getElem?_erase_of_ne (Ne.symm h)
  ext x <;> simp [footprint, delete, deleteDeleted,
    deleteEntriesNaming, getElem?_deleteNaming, getElem?_foldl_deleteNaming,
    mem_deletePair, pairUnder_eq_some, hrecord, h, Ne.symm h]

/-- **A row the indexes name as it was created leaves no trace when it is deleted.** -/
theorem footprint_delete (h : (tables.footprint row.id).Indexes codecs row) :
    (tables.delete codecs row).footprint row.id = .gone := by
  have hready (key : Bytes) (hkey : tables.ready[key]? = some row.id.asBytes) := h.ready key hkey
  have hdedupe (key : Bytes) (hkey : tables.dedupe[key]? = some row.id.asBytes) := h.dedupe key hkey
  have hkind (kind : Bytes) : (kind, row.id) ∈ tables.kind ↔ kind = row.kind :=
    Set.ext_iff.mp h.kind kind
  have htask (task : Bytes) : (task, row.id) ∈ tables.task ↔ row.taskRef = some task :=
    Set.ext_iff.mp h.task task
  have hretry (parent : AttemptId) :
      (parent, row.id) ∈ tables.retryChild ↔ row.retryOf = some parent :=
    Set.ext_iff.mp h.retryChild parent
  have hparent (parent : AttemptId) :
      (parent, row.id) ∈ tables.parentChild ↔ effectiveParent codecs row = some parent :=
    Set.ext_iff.mp h.parentChild parent
  ext x <;> simp [footprint, delete, deleteDeleted,
    deleteEntriesNaming, getElem?_deleteNaming, getElem?_foldl_deleteNaming,
    mem_deletePair, pairUnder_eq_some, Footprint.gone, hkind, htask, hretry, hparent]
  · exact hready x
  · exact hdedupe x

/-- The tables with a row relinked, as the encoder writes a row it masks nothing of. -/
def LineageTables.relinked (codecs : RowCodecs) (tables : LineageTables) (row : Try)
    (parent : Option AttemptId) (folded : UInt32) : LineageTables :=
  let linked := row.retrying parent folded
  let tables := (tables.moveRetryChild row.id row.retryOf parent).moveParentChild row.id
    (effectiveParent codecs row) (effectiveParent codecs linked)
  { tables with records := tables.records.insert row.id (.ok linked.toLineageRecord) }

variable {parent : Option AttemptId} {folded : UInt32}

theorem relink_eq_relinked (h : codecs.encodeInTxn (row.retrying parent folded) = .ok row.payload) :
    relink codecs tables row parent folded = .ok (tables.relinked codecs row parent folded) := by
  rw [relink, h]
  rfl

theorem moveParentChild_eq {before after : Option AttemptId} :
    tables.moveParentChild child before after = { tables with
      parentChild := if before = after then tables.parentChild else
        putPair (deletePair tables.parentChild (pairUnder before child)) (pairUnder after child) } := by
  unfold moveParentChild
  split <;> rfl

/-- **A relink touches what the ledger keeps of the row it relinks alone.** -/
theorem footprint_relinked_of_ne (h : id ≠ row.id) :
    (tables.relinked codecs row parent folded).footprint id = tables.footprint id := by
  have hrecord (linked : Except QueueError LineageRecord) :
      (tables.records.insert row.id linked)[id]? = tables.records[id]? :=
    OrderedMap.getElem?_insert_of_ne (Ne.symm h)
  have hparent (x : AttemptId) (before after : Option AttemptId) :
      (x, id) ∈ (if before = after then tables.parentChild else
        putPair (deletePair tables.parentChild (pairUnder before row.id))
          (pairUnder after row.id)) ↔ (x, id) ∈ tables.parentChild := by
    split
    · rfl
    · simp [mem_putPair, mem_deletePair, pairUnder_eq_some, Ne.symm h]
  ext x <;> simp [footprint, relinked, moveParentChild_eq,
    moveRetryChild, hrecord, hparent, mem_putPair, mem_deletePair, pairUnder_eq_some,
    Ne.symm h]

/-- **A relinked row is named under its new parent**, and elsewhere as it was. -/
theorem indexes_relinked (h : (tables.footprint row.id).Indexes codecs row) :
    ((tables.relinked codecs row parent folded).footprint row.id).Indexes codecs
      (row.retrying parent folded) := by
  have hretry (x : AttemptId) : (x, row.id) ∈ tables.retryChild ↔ row.retryOf = some x :=
    Set.ext_iff.mp h.retryChild x
  have hparent (x : AttemptId) :
      (x, row.id) ∈ tables.parentChild ↔ effectiveParent codecs row = some x :=
    Set.ext_iff.mp h.parentChild x
  constructor
  · simp [footprint, relinked, Try.retrying]
  · intro key hkey
    refine h.ready key ?_
    simpa [footprint, relinked, moveParentChild_eq,
      moveRetryChild] using hkey
  · intro key hkey
    refine h.dedupe key ?_
    simpa [footprint, relinked, moveParentChild_eq,
      moveRetryChild] using hkey
  · rw [show (row.retrying parent folded).kind = row.kind from rfl, ← h.kind]
    simp [footprint, relinked, moveParentChild_eq,
      moveRetryChild]
  · rw [show (row.retrying parent folded).taskRef = row.taskRef from rfl, ← h.task]
    simp [footprint, relinked, moveParentChild_eq,
      moveRetryChild]
  · ext x
    show (x, row.id) ∈ (tables.relinked codecs row parent folded).retryChild ↔ parent = some x
    simp [relinked, moveParentChild_eq, moveRetryChild, mem_putPair,
      mem_deletePair, pairUnder_eq_some, hretry]
  · ext x
    show (x, row.id) ∈ (tables.relinked codecs row parent folded).parentChild ↔
      effectiveParent codecs (row.retrying parent folded) = some x
    simp only [relinked, moveParentChild_eq, moveRetryChild]
    split
    · next hsame => rw [hparent, hsame]
    · simp [mem_putPair, mem_deletePair, pairUnder_eq_some, hparent]

end Edits

end AttemptQueue

end Footprint

section Lineage

open Std

namespace AttemptQueue

/-! ## Saturating counts -/

/-- The largest count a row keeps of the tries folded behind it. -/
def u32Max : ℕ := 2 ^ 32 - 1

variable (a count : UInt32)

@[simp] theorem toNat_saturatingAdd (b : UInt32) :
    (saturatingAdd a b).toNat = min (a.toNat + b.toNat) u32Max := by
  rw [saturatingAdd, Nat.toUInt32_eq, UInt32.toNat_ofNat_of_lt' (by
    have : min (a.toNat + b.toNat) (2 ^ 32 - 1) ≤ 2 ^ 32 - 1 := Nat.min_le_right _ _
    exact Nat.lt_of_le_of_lt this (by decide))]
  rfl

theorem toNat_le_u32Max : a.toNat ≤ u32Max := Nat.le_pred_of_lt a.toNat_lt

theorem toNat_min (b : UInt32) : (min a b).toNat = min a.toNat b.toNat := by
  show (if a ≤ b then a else b).toNat = _
  split
  · next h =>
    rw [UInt32.le_iff_toNat_le] at h
    omega
  · next h =>
    rw [UInt32.le_iff_toNat_le] at h
    omega

theorem toNat_pass (row : Try) :
    (pass count row).toNat = min (count.toNat + (1 + row.foldedRetries.toNat)) u32Max := by
  have hone : (1 : UInt32).toNat = 1 := rfl
  rw [pass, toNat_saturatingAdd, toNat_saturatingAdd, hone]
  omega

theorem pass_pos (row : Try) : 0 < pass count row := by
  rw [UInt32.lt_iff_toNat_lt, toNat_pass]
  have : 0 < u32Max := by decide
  show 0 < _
  omega

/-! ## Lineages -/

section Lineages

variable (codecs : RowCodecs)

/-- Each row retries the next, a try of the same attempt, and the last retries none. -/
def Linked : List Try → Prop
  | [] => True
  | row :: rows => row.retryOf = rows.head?.map Try.id ∧
      (∀ next ∈ rows.head?, retriesTheSameAttempt codecs row next) ∧ Linked rows

/-- The rows of a lineage, from the row of an id down. -/
structure LineageFrom (tables : LineageTables) (id : AttemptId) (rows : List Try) : Prop where
  head : rows.head?.map Try.id = some id
  stored : ∀ row ∈ rows, tables.records[row.id]? = some (.ok row.toLineageRecord)
  links : Linked codecs rows
  acyclic : (rows.map Try.id).Nodup

/-- The tries a lineage counts: each row, and those folded behind it. -/
def depthSum (rows : List Try) : ℕ := (rows.map fun row => 1 + row.foldedRetries.toNat).sum

@[simp] theorem depthSum_cons (row : Try) (rows : List Try) :
    depthSum (row :: rows) = 1 + row.foldedRetries.toNat + depthSum rows := sum_cons

/-- The rows a walk finds below a row, having seen some ids. -/
inductive WalkBack (tables : LineageTables) : List AttemptId → Try → List Try → Prop
  | ends {seen : List AttemptId} {child : Try} (h : child.retryOf = none) : WalkBack tables seen child []
  | hop {seen : List AttemptId} {child parent : Try} {rows : List Try}
      (h : hop codecs tables seen child = .ok (some parent))
      (below : WalkBack tables (parent.id :: seen) parent rows) : WalkBack tables seen child (parent :: rows)

variable {codecs} {tables : LineageTables} {id : AttemptId}

/-- **A walk finds a lineage** below its first row. -/
theorem walk_of_linked : ∀ {rows : List Try} {seen : List AttemptId} {child : Try},
    Linked codecs (child :: rows) →
    (∀ row ∈ rows, tables.records[row.id]? = some (.ok row.toLineageRecord)) →
    (rows.map Try.id).Nodup → (∀ row ∈ rows, row.id ∉ seen) → WalkBack codecs tables seen child rows
  | [], _, _, hlinks, _, _, _ => .ends hlinks.1
  | parent :: rows, seen, child, hlinks, hstored, hnodup, hseen => by
    rw [forall_mem_cons] at hstored hseen
    obtain ⟨hfresh, hnodup⟩ := nodup_cons.mp hnodup
    refine .hop (hop_eq_ok_some.mpr ⟨hlinks.1, hseen.1, hstored.1, hlinks.2.1 _ rfl⟩) ?_
    refine walk_of_linked hlinks.2.2 hstored.2 hnodup fun row hrow => ?_
    rw [mem_cons, not_or]
    exact ⟨fun heq => hfresh (heq ▸ List.mem_map_of_mem hrow), hseen.2 row hrow⟩

variable {live : Try} {seen : List AttemptId} {rows : List Try}

theorem LineageFrom.walk (h : LineageFrom codecs tables id (live :: rows)) :
    WalkBack codecs tables [id] live rows := by
  have hid : live.id = id := some.inj h.head
  obtain ⟨hfresh, hnodup⟩ := nodup_cons.mp h.acyclic
  refine walk_of_linked h.links (forall_mem_cons.mp h.stored).2 hnodup fun row hrow => ?_
  rw [mem_singleton, ← hid]
  exact fun heq => hfresh (heq ▸ List.mem_map_of_mem hrow)

theorem LineageFrom.read (h : LineageFrom codecs tables id (live :: rows)) :
    retryChainRecord tables id = .ok live :=
  have hid : live.id = id := some.inj h.head
  retryChainRecord_eq_ok.mpr ⟨hid ▸ h.stored live mem_cons_self, hid⟩

/-- A row that retries none is a lineage of its own. -/
theorem linked_singleton {row : Try} (h : row.retryOf = none) : Linked codecs [row] :=
  ⟨h, fun next hnext => absurd hnext (not_mem_none next), trivial⟩

theorem Linked.below : ∀ {before rows : List Try}, Linked codecs (before ++ rows) →
    Linked codecs rows
  | [], _, h => h
  | _ :: _, _, h => below h.2.2

/-- A lineage goes on as the lineage of each of its rows. -/
theorem LineageFrom.below {before : List Try} {row : Try}
    (h : LineageFrom codecs tables id (before ++ row :: rows)) :
    LineageFrom codecs tables row.id (row :: rows) where
  head := rfl
  stored row' hrow := h.stored row' (mem_append_right _ hrow)
  links := h.links.below
  acyclic := by
    have hnodup := h.acyclic
    rw [map_append] at hnodup
    exact (nodup_append.mp hnodup).2.1

/-- Tries of one attempt each with the next are tries of one attempt. -/
theorem retriesTheSameAttempt_trans {a b c : Try} (hab : retriesTheSameAttempt codecs a b)
    (hbc : retriesTheSameAttempt codecs b c) : retriesTheSameAttempt codecs a c := by
  simp only [retriesTheSameAttempt, retriesTheSamePayload, sameMarkerIdentity, Bool.and_eq_true,
    Bool.or_eq_true, decide_eq_true_eq] at hab hbc ⊢
  obtain ⟨⟨⟨⟨⟨hkind, hpayload⟩, htask⟩, hrun⟩, hkey⟩, hactor⟩ := hab
  obtain ⟨⟨⟨⟨⟨hkind', hpayload'⟩, htask'⟩, hrun'⟩, hkey'⟩, hactor'⟩ := hbc
  refine ⟨⟨⟨⟨⟨hkind.trans hkind', ?_⟩, htask.trans htask'⟩, hrun.trans hrun'⟩,
    hkey.trans hkey'⟩, hactor.trans hactor'⟩
  rcases hpayload with heq | ⟨hmarker, hnames, heq⟩
  · rw [heq, hkind]
    exact hpayload'
  · rcases hpayload' with heq' | ⟨-, -, heq'⟩
    · exact Or.inr ⟨hmarker, hnames, heq.trans (congrArg _ heq')⟩
    · exact Or.inr ⟨hmarker, hnames, heq.trans heq'⟩

/-- **Every row of a lineage is a try of one attempt.** -/
theorem Linked.same : ∀ {row : Try}, Linked codecs (row :: rows) →
    ∀ other ∈ rows, retriesTheSameAttempt codecs row other := by
  induction rows with
  | nil => exact fun _ _ hother => absurd hother not_mem_nil
  | cons next rows ih =>
    intro row h other hother
    have hnext := h.2.1 next rfl
    rcases mem_cons.mp hother with rfl | hother
    · exact hnext
    · exact retriesTheSameAttempt_trans hnext (ih h.2.2 other hother)

/-! ### Depth -/

theorem depthBelow_of_walk {child : Try} (h : WalkBack codecs tables seen child rows)
    (depth : UInt32) : ∃ d, depthBelow codecs tables seen child depth = .ok d ∧
      d.toNat = min (depth.toNat + depthSum rows) 1024 := by
  have hlimit : retryChainDepthLimit.toNat = 1024 := rfl
  induction h generalizing depth with
  | @ends seen child hend =>
    have hhop : hop codecs tables seen child = .ok none := by rw [hop, hend]
    rw [depthBelow]
    split
    · next hstep => cases hstep.symm.trans hhop
    · refine ⟨_, rfl, ?_⟩
      exact toNat_min depth _
    · next hstep => cases hstep.symm.trans hhop
  | @hop seen child parent rows hhop _ ih =>
    rw [depthBelow]
    split
    · next hstep => cases hstep.symm.trans hhop
    · next hstep => cases hstep.symm.trans hhop
    · next parent' hstep =>
      obtain rfl : parent' = parent := some.inj (Except.ok.inj (hstep.symm.trans hhop))
      have hpass := toNat_pass depth parent'
      have hmax : 1024 ≤ u32Max := by decide
      rw [depthSum_cons]
      split
      · next hle =>
        rw [UInt32.le_iff_toNat_le, hlimit] at hle
        exact ⟨_, rfl, by omega⟩
      · next hlt =>
        obtain ⟨d, hd, hval⟩ := ih (pass depth parent')
        exact ⟨d, hd, by omega⟩

/-- **The depth of a lineage**: the tries it counts but the first, up to the limit. -/
theorem LineageFrom.retryChainDepth_eq (h : LineageFrom codecs tables id rows) :
    ∃ d, retryChainDepth codecs tables id = .ok d ∧ d.toNat = min (depthSum rows - 1) 1024 := by
  cases rows with
  | nil => exact nomatch h.head
  | cons live rows =>
    obtain ⟨d, hd, hval⟩ := depthBelow_of_walk h.walk live.foldedRetries
    refine ⟨d, ?_, ?_⟩
    · rw [retryChainDepth, h.read]
      exact hd
    · rw [hval, depthSum_cons]
      omega

/-! ### What stays -/

/-- Each row below the live one with whether it stays, some tries being kept already. -/
def mark (keep : ℕ) (keptSince : UInt64) : ℕ → List Try → List (Try × Bool)
  | _, [] => []
  | keptTries, row :: rows =>
    let stays := keptTries < keep && keptSince ≤ row.updatedAt
    (row, stays) :: mark keep keptSince (keptTries + stays.toNat) rows

/-- The newest tries stamped at or after an instant, so many at most. -/
def newestSince (keep : ℕ) (keptSince : UInt64) (rows : List Try) : List Try :=
  (rows.filter (keptSince ≤ ·.updatedAt)).take keep

/-- The rows that stay. -/
def kept (marked : List (Try × Bool)) : List Try := (marked.filter Prod.snd).map Prod.fst

theorem lineageBelow_of_walk {child : Try} {keep : ℕ} {keptSince : UInt64}
    (h : WalkBack codecs tables seen child rows) (keptTries : ℕ) :
    lineageBelow codecs tables keep keptSince seen keptTries child =
      .ok (mark keep keptSince keptTries rows) := by
  induction h generalizing keptTries with
  | @ends seen child hend =>
    have hhop : hop codecs tables seen child = .ok none := by rw [hop, hend]
    rw [lineageBelow]
    split
    · next hstep => cases hstep.symm.trans hhop
    · rfl
    · next hstep => cases hstep.symm.trans hhop
  | @hop seen child parent rows hhop _ ih =>
    rw [lineageBelow]
    split
    · next hstep => cases hstep.symm.trans hhop
    · next hstep => cases hstep.symm.trans hhop
    · next parent' hstep =>
      obtain rfl : parent' = parent := some.inj (Except.ok.inj (hstep.symm.trans hhop))
      dsimp only
      rw [ih]
      rfl

variable {keep : ℕ} {keptSince : UInt64}

@[simp] theorem map_fst_mark : ∀ {rows : List Try} {keptTries : ℕ},
    (mark keep keptSince keptTries rows).map Prod.fst = rows
  | [], _ => rfl
  | row :: _, _ => congrArg (row :: ·) map_fst_mark

/-- **Exactly the newest tries stamped since stay**, up to the number kept. -/
theorem kept_mark : ∀ {rows : List Try} {keptTries : ℕ},
    kept (mark keep keptSince keptTries rows) = newestSince (keep - keptTries) keptSince rows
  | [], _ => by simp [mark, kept, newestSince]
  | row :: rows, keptTries => by
    have ih (k : ℕ) : kept (mark keep keptSince k rows) = newestSince (keep - k) keptSince rows :=
      kept_mark
    have hcons (stays : Bool) : kept ((row, stays) :: mark keep keptSince (keptTries + stays.toNat)
        rows) = if stays then row :: newestSince (keep - (keptTries + 1)) keptSince rows
          else newestSince (keep - keptTries) keptSince rows := by
      cases stays with
      | true => exact congrArg (row :: ·) (ih _)
      | false => exact ih _
    rw [mark, hcons]
    by_cases hstamp : keptSince ≤ row.updatedAt
    · by_cases hroom : keptTries < keep
      · have hsucc : keep - keptTries = keep - (keptTries + 1) + 1 := by omega
        simp only [hroom, hstamp, decide_true, Bool.and_self, if_true, newestSince]
        rw [filter_cons_of_pos (by simpa using hstamp), hsucc, take_succ_cons]
      · have hzero : keep - keptTries = 0 := by omega
        simp [hroom, newestSince, hzero]
    · simp only [hstamp, decide_false, Bool.and_false, Bool.false_eq_true, if_false, newestSince]
      rw [filter_cons_of_neg (by simpa using hstamp)]

/-- Where every try has room and is stamped since, every try stays. -/
theorem mark_of_room : ∀ {rows : List Try} {keptTries : ℕ}, keptTries + rows.length ≤ keep →
    (∀ row ∈ rows, keptSince ≤ row.updatedAt) →
    mark keep keptSince keptTries rows = rows.map (·, true)
  | [], _, _, _ => rfl
  | row :: rows, keptTries, hroom, hstamp => by
    rw [length_cons] at hroom
    rw [forall_mem_cons] at hstamp
    have hstays : (decide (keptTries < keep) && decide (keptSince ≤ row.updatedAt)) = true := by
      simp [hstamp.1, show keptTries < keep by omega]
    have hrest : mark keep keptSince (keptTries + 1) rows = rows.map (·, true) :=
      mark_of_room (by omega) hstamp.2
    simp only [mark, hstays, Bool.toNat_true, hrest, map_cons]

end Lineages

end AttemptQueue

end Lineage

end Oneiron
