import Oneiron.Overlay.Segment

/-!
# Overlay/Retire — taking promoted rows out of the live overlay

A retirement removes rows outright and masks nothing: it only drops `Present` rows.  Which rows is
decided by the plan, not by what is published; `Thins` is all a retirement can do to a state.
-/

open Std

namespace Oneiron

/-! ## Plans -/

/-- One turn's promotable closure, cut out of the typed journal. -/
structure PromotePlan where
  /-- The replay program, in journal-staging order. -/
  ops : List BatchOp
  /-- The entities the replay puts, in the same order. -/
  replayed : List EntityId
  /-- The in-room alias of each promoted entity that carries one. -/
  temporaryShortIds : List (EntityId × Bytes)
  /-- The entries' distinct `learnedAt` values, ascending. -/
  sourceLearnedAt : List UInt64
  /-- The published identity each op was cut from. -/
  cutFrom : List ℕ
  turn : EntityId
  conversation : EntityId
  /-- Whether the plan only adds messages to a turn already in base. -/
  appends : Bool
  deriving DecidableEq

/-! ## Footprints -/

/-- The index rows of one put. -/
def putFootprint (id : EntityId) (entityType : UInt8) (start stop learnedAt : UInt64) :
    List (OverlayKeyspace × Bytes) :=
  [(.entities, id.asBytes), (.typeIndex, encodeTypeKey entityType id),
    (.temporalOccurredStart, encodeTemporalKey start id)] ++
  (if start ≠ stop then [(.temporalOccurredEnd, encodeTemporalKey stop id)] else []) ++
  [(.temporalLearned, encodeTemporalKey learnedAt id)] ++
  if isLongInterval start stop then [(.temporalLongIntervals, encodeTemporalKey stop id)] else []

/-- Both directions of one edge. -/
def edgeFootprint (src : EntityId) (kind : EdgeKind) (tgt : EntityId) :
    List (OverlayKeyspace × Bytes) :=
  [(.edgesOut, encodeEdgeKey src kind tgt), (.edgesIn, encodeEdgeKey tgt kind src)]

/-- The rows a replayed op retires. -/
def replayedFootprint : BatchOp → List (OverlayKeyspace × Bytes)
  | .put id entityType occurred learnedAt _ _ _ _ _ =>
    putFootprint id entityType occurred.start occurred.stop learnedAt
  | .publicEdgeWithCreatedAt src kind tgt _ _ _ => edgeFootprint src kind tgt
  | _ => []

/-! ## Retiring a closure -/

def dropOverlayRows (state : OverlayState) (rows : List (OverlayKeyspace × Bytes)) : OverlayState :=
  rows.foldl (fun state row => dropOverlayRow state row.1 row.2) state

/-- `snapshot_present`: the bytes a single-valued keyspace stages under a key. -/
def KeyspaceState.present {d : Bool} : KeyspaceState d → Bytes → Option Bytes
  | .single _ rows, key =>
    match rows[key]? with
    | some (.present value) => some value
    | _ => none
  | .dupSort .., _ => none

/-- The in-room alias pair; the reverse row's value is the forward key. -/
def dropAliasPair (state : OverlayState) (id : EntityId) : OverlayState :=
  match (state.keyspaces .shortIdsReverse).present id.asBytes with
  | some forwardKey =>
    dropOverlayRows state [(.shortIds, forwardKey), (.shortIdsReverse, id.asBytes)]
  | none => state

/-- The journal without the entries published under `retired`. -/
def OverlayState.retainJournal [EntryLayout] (state : OverlayState) (retired : List ℕ) :
    OverlayState :=
  { state with journal := state.journal.filter (·.seq ∉ retired) }.recalculateBytes

/-- The ops of a plan whose entity base now holds, each with the entry it was cut from. -/
def PromotePlan.keptOps (plan : PromotePlan) (kept : OrderedSet EntityId) : List (BatchOp × ℕ) :=
  (plan.ops.zip plan.cutFrom).filter fun op => (replayedSubject op.1).any kept.contains

def OverlayState.retirePromoted [EntryLayout] (state : OverlayState) (plan : PromotePlan)
    (kept : OrderedSet EntityId) : OverlayState :=
  let ops := plan.keptOps kept
  let next := ops.foldl (fun next op => dropOverlayRows next (replayedFootprint op.1)) state
  let next := (plan.replayed.filter kept.contains).foldl dropAliasPair next
  next.retainJournal (ops.map Prod.snd)

/-- `retire_promoted_closure` on a live overlay. -/
def SessionOverlay.retirePromotedClosure [EntryLayout] (overlay : SessionOverlay)
    (plan : PromotePlan) (kept : OrderedSet EntityId) : SessionOverlay :=
  { overlay with state := overlay.state.retirePromoted plan kept }

/-! ## What a retirement can do -/

/-- A delta with some of its own values taken out. -/
structure DupDelta.Thins (delta next : DupDelta) : Prop where
  deleteBase : next.deleteBase = delta.deleteBase
  deleted : next.deleted = delta.deleted
  present : ∀ {identity value : Bytes}, next.present[identity]? = some value →
    delta.present[identity]? = some value

/-- A keyspace with some of its `Present` rows taken out. -/
def KeyspaceState.Thins : {d : Bool} → KeyspaceState d → KeyspaceState d → Prop
  | _, .single clearBase rows, .single clearBase' rows' => clearBase' = clearBase ∧
      ∀ key : Bytes, rows'[key]? = rows[key]? ∨
        (rows'[key]? = none ∧ ∃ value, rows[key]? = some (OverlayValue.present value))
  | _, .dupSort clearBase rows, .dupSort clearBase' rows' => clearBase' = clearBase ∧
      (∀ key ∈ rows', key ∈ rows) ∧ ∀ key, (dupDelta rows key).Thins (dupDelta rows' key)

/-- **All a retirement can do**: some `Present` rows and some journal entries are gone. -/
structure OverlayState.Thins (state next : OverlayState) : Prop where
  keyspaces : ∀ keyspace, (state.keyspaces keyspace).Thins (next.keyspaces keyspace)
  journal : next.journal.Sublist state.journal
  nextJournalSeq : next.nextJournalSeq = state.nextJournalSeq
  bookkeeping : next.bookkeeping = state.bookkeeping

namespace DupDelta.Thins

theorem refl (delta : DupDelta) : delta.Thins delta := ⟨rfl, rfl, id⟩

theorem trans {a b c : DupDelta} (h : a.Thins b) (h' : b.Thins c) : a.Thins c :=
  ⟨h'.deleteBase.trans h.deleteBase, h'.deleted.trans h.deleted, fun hv => h.present (h'.present hv)⟩

end DupDelta.Thins

namespace KeyspaceState.Thins

variable {d : Bool}

theorem refl : ∀ rows : KeyspaceState d, rows.Thins rows
  | .single .. => ⟨rfl, fun _ => Or.inl rfl⟩
  | .dupSort .. => ⟨rfl, fun _ h => h, fun _ => .refl _⟩

theorem trans : ∀ {a b c : KeyspaceState d}, a.Thins b → b.Thins c → a.Thins c
  | .single .., .single .., .single .., h, h' => by
    obtain ⟨hc, h⟩ := h
    obtain ⟨hc', h'⟩ := h'
    refine ⟨hc'.trans hc, fun key => ?_⟩
    rcases h' key with heq | ⟨hnone, value, hv⟩
    · rw [heq]
      exact h key
    · rcases h key with heq | ⟨hnone', -⟩
      · exact Or.inr ⟨hnone, value, heq ▸ hv⟩
      · rw [hnone'] at hv
        cases hv
  | .dupSort .., .dupSort .., .dupSort .., h, h' => by
    obtain ⟨hc, hk, h⟩ := h
    obtain ⟨hc', hk', h'⟩ := h'
    exact ⟨hc'.trans hc, fun key hm => hk key (hk' key hm), fun key => (h key).trans (h' key)⟩

theorem dropRow : ∀ (rows : KeyspaceState d) (key : Bytes), rows.Thins (rows.dropRow key)
  | .dupSort .., _ => refl _
  | .single clearBase rows, key => by
    unfold KeyspaceState.dropRow
    dsimp only
    split
    · rename_i value hv
      refine ⟨rfl, fun other => ?_⟩
      rw [ExtTreeMap.getElem?_erase]
      by_cases hk : key = other
      · subst hk
        exact Or.inr ⟨by simp, value, hv⟩
      · simp [hk]
    · exact refl _

end KeyspaceState.Thins

namespace OverlayState.Thins

variable {state next : OverlayState}

theorem refl (state : OverlayState) : state.Thins state :=
  ⟨fun _ => .refl _, .refl _, rfl, rfl⟩

theorem trans {a b c : OverlayState} (h : a.Thins b) (h' : b.Thins c) : a.Thins c :=
  ⟨fun keyspace => (h.keyspaces keyspace).trans (h'.keyspaces keyspace),
    h'.journal.trans h.journal, h'.nextJournalSeq.trans h.nextJournalSeq,
    h'.bookkeeping.trans h.bookkeeping⟩

/-- One keyspace thinned is the state thinned. -/
theorem setKeyspace (state : OverlayState) {keyspace : OverlayKeyspace}
    {rows : KeyspaceState keyspace.isDupsort} (h : (state.keyspaces keyspace).Thins rows) :
    state.Thins (state.setKeyspace keyspace rows) := by
  refine ⟨fun other => ?_, .refl _, rfl, rfl⟩
  by_cases hk : other = keyspace
  · subst hk
    rwa [OverlayState.setKeyspace_keyspaces_self]
  · rw [state.setKeyspace_keyspaces_ne _ _ hk]
    exact .refl _

theorem dropOverlayRow (state : OverlayState) (keyspace : OverlayKeyspace) (key : Bytes) :
    state.Thins (dropOverlayRow state keyspace key) :=
  setKeyspace state (.dropRow _ _)

/-- Folding steps that thin, thins. -/
theorem foldl {α : Type} {f : OverlayState → α → OverlayState}
    (hf : ∀ (state : OverlayState) (a : α), state.Thins (f state a)) (l : List α) (state : OverlayState) :
    state.Thins (l.foldl f state) := by
  induction l generalizing state with
  | nil => exact refl state
  | cons a rest ih => exact (hf state a).trans (ih _)

theorem dropOverlayRows (state : OverlayState) (rows : List (OverlayKeyspace × Bytes)) :
    state.Thins (dropOverlayRows state rows) := by
  exact foldl (fun state row => dropOverlayRow state _ _) rows state

theorem dropAliasPair (state : OverlayState) (id : EntityId) :
    state.Thins (dropAliasPair state id) := by
  unfold Oneiron.dropAliasPair
  split
  · exact dropOverlayRows state _
  · exact refl state

theorem retainJournal [EntryLayout] (state : OverlayState) (retired : List ℕ) :
    state.Thins (state.retainJournal retired) :=
  ⟨fun _ => .refl _, List.filter_sublist, rfl, rfl⟩

/-- **Retiring a promoted closure thins the overlay.** -/
theorem retirePromoted [EntryLayout] (state : OverlayState) (plan : PromotePlan)
    (kept : OrderedSet EntityId) : state.Thins (state.retirePromoted plan kept) :=
  ((foldl (f := fun next op => Oneiron.dropOverlayRows next (replayedFootprint op.1))
    (fun next _ => dropOverlayRows next _) (plan.keptOps kept) state).trans
    (foldl dropAliasPair _ _)).trans (retainJournal _ _)

end OverlayState.Thins

end Oneiron
