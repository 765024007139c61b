import Oneiron.Foundations.System
import Oneiron.Overlay.RetireSelected

/-!
# Overlay/Room — the calls on a room, and all that each of them can do

A room is driven by the calls of its one writer and by the retirements of other threads.  `RoomStep`
lists what a call can do to the overlay, and `roomStep_perform` says every call is one of these; an
invariant of runs is proved from the list.
-/

open Std

namespace Oneiron

open SessionOverlay

variable [EntryLayout]

/-! ## Calls -/

/-- One call on a room; a promotion's or a save's retirement may come from another thread. -/
inductive RoomOp where
  | install
  | put (keyspace : OverlayKeyspace) (key value : Bytes)
  | delete (keyspace : OverlayKeyspace) (key : Bytes) (baseBacked : Bool)
  | deleteDuplicate (keyspace : OverlayKeyspace) (key value : Bytes) (baseBacked : Bool)
  | clear (keyspace : OverlayKeyspace)
  | markBookkeepingRow (keyspace : OverlayKeyspace) (key : Bytes)
  | stageMutationGroup (mutations : List OverlayMutation)
  | stageJournalEntry (entry : JournalEntry)
  | beginNetBudget
  | endNetBudget (stageOk : Bool)
  | commit
  | abort
  | retirePromotedClosure (plan : PromotePlan) (kept : OrderedSet EntityId)
  | retireSavedArtifacts (snapshot : OverlaySnapshot) (saved documentSlots : OrderedSet EntityId)

namespace RoomOp

/-- The call's result; a refused call changes nothing. -/
def result (overlay : SessionOverlay) : RoomOp → Except Error SessionOverlay
  | .install => overlay.installTxnSegment
  | .put keyspace key value => overlay.put keyspace key value
  | .delete keyspace key baseBacked => overlay.deleteWithBaseBacking keyspace key baseBacked
  | .deleteDuplicate keyspace key value baseBacked =>
    overlay.deleteDuplicate keyspace key value baseBacked
  | .clear keyspace => overlay.clear keyspace
  | .markBookkeepingRow keyspace key => overlay.markBookkeepingRow keyspace key
  | .stageMutationGroup mutations => overlay.stageMutationGroup mutations
  | .stageJournalEntry entry => overlay.stageJournalEntry entry
  | .beginNetBudget => overlay.beginNetBudget
  | .endNetBudget stageOk => .ok (overlay.endNetBudget stageOk)
  | .commit => .ok overlay.commit.2
  | .abort => .ok overlay.abort
  | .retirePromotedClosure plan kept => .ok (overlay.retirePromotedClosure plan kept)
  | .retireSavedArtifacts snapshot saved documentSlots =>
    .ok (overlay.retireSavedArtifacts snapshot saved documentSlots)

def perform (op : RoomOp) (overlay : SessionOverlay) : SessionOverlay :=
  match op.result overlay with
  | .ok next => next
  | .error _ => overlay

end RoomOp

/-- A room, and what it had published when its open segment was installed. -/
structure Room where
  overlay : SessionOverlay
  installed : OverlayState

def Room.perform (room : Room) (op : RoomOp) : Room where
  overlay := op.perform room.overlay
  installed := match op, room.overlay.segment with
    | .install, none => room.overlay.state
    | _, _ => room.installed

/-- A new room under every sequence of calls. -/
def rooms (budgetBytes : ℕ) : System Room RoomOp where
  init room := room = ⟨.new budgetBytes, .empty⟩
  step room op next := next = room.perform op

/-- A room after some calls. -/
def Room.after (room : Room) (ops : List RoomOp) : Room := ops.foldl Room.perform room

theorem run_after (budgetBytes : ℕ) : ∀ (ops : List RoomOp) (room : Room),
    (rooms budgetBytes).Run room ops (room.after ops)
  | [], room => .nil room
  | _ :: rest, _ => .cons rfl (run_after budgetBytes rest _)

theorem reachable_after {budgetBytes : ℕ} {room : Room} (h : (rooms budgetBytes).Reachable room)
    (ops : List RoomOp) : (rooms budgetBytes).Reachable (room.after ops) :=
  (run_after budgetBytes ops room).reachable h

/-! ## What a call can do -/

/-- All that one call can do to an overlay. -/
inductive RoomStep (overlay : SessionOverlay) : SessionOverlay → Prop
  | refused : RoomStep overlay overlay
  | install {next : SessionOverlay} : overlay.installTxnSegment = .ok next → RoomStep overlay next
  | stages {staged : List OverlayMutation} {next : SessionOverlay} :
      overlay.Stages staged next → RoomStep overlay next
  | entry {segment : TxnSegment} (journal : List JournalEntry) (journalBytes : ℕ) :
      overlay.segment = some segment → RoomStep overlay
        { overlay with segment := some { segment with journal, journalBytes } }
  | checkpoint {segment : TxnSegment} {checkpoint : NetBudgetCheckpoint} :
      overlay.segment = some segment → checkpoint.preview = segment.preview → RoomStep overlay
        { overlay with segment := some { segment with netBudget := some checkpoint } }
  | keep {segment : TxnSegment} : overlay.segment = some segment → RoomStep overlay
      { overlay with segment := some { segment with netBudget := none } }
  | restore {segment : TxnSegment} {checkpoint : NetBudgetCheckpoint} :
      overlay.segment = some segment → segment.netBudget = some checkpoint → RoomStep overlay
        { overlay with segment := some (segment.restore checkpoint) }
  | close : RoomStep overlay { overlay with segment := none }
  | publish {segment : TxnSegment} {state : OverlayState} : overlay.segment = some segment →
      applyPreflightedToState overlay.state segment.mutations segment.journal =
        .ok state → RoomStep overlay { overlay with state, segment := none }
  | retire {state : OverlayState} : overlay.state.Thins state → RoomStep overlay
      { overlay with state }

namespace SessionOverlay

variable {overlay next : SessionOverlay} {segment : TxnSegment}

/-- Staging one mutation after another stages them all. -/
theorem stages_of_foldlM : ∀ {mutations : List OverlayMutation} {overlay : SessionOverlay}
    {segment : TxnSegment}, overlay.segment = some segment →
      mutations.foldlM stageMutation overlay = .ok next → overlay.Stages mutations next
  | [], _, _, hopen, h => by
    rw [List.foldlM_nil, pure_eq_ok] at h
    exact h ▸ stages_nil hopen
  | mutation :: rest, _, _, _, h => by
    obtain ⟨mid, hm, h⟩ := bind_eq_ok.mp h
    obtain ⟨segment₀, preview, hopen₀, hp, rfl⟩ := stageMutation_eq_ok.mp hm
    obtain ⟨segment₁, preview₁, hopen₁, hp₁, rfl⟩ := stages_of_foldlM rfl h
    cases hopen₁
    refine ⟨segment₀, preview₁, hopen₀, ?_, ?_⟩
    · exact foldlM_append_eq_ok (l := [mutation]).mpr ⟨preview, hp, hp₁⟩
    · simp

end SessionOverlay

theorem roomStep_endNetBudget (overlay : SessionOverlay) (stageOk : Bool) :
    RoomStep overlay (overlay.endNetBudget stageOk) := by
  unfold endNetBudget
  split
  · exact .refused
  · rename_i segment hopen
    split
    · exact .refused
    · rename_i checkpoint hck
      dsimp only
      split
      · exact .keep hopen
      · exact .restore hopen hck

theorem roomStep_commit (overlay : SessionOverlay) : RoomStep overlay overlay.commit.2 := by
  unfold commit
  split
  · exact .refused
  · rename_i segment hopen
    split
    · exact .close
    · split
      · exact .close
      · exact .publish hopen ‹_›

/-- **Every call is one of these.** -/
theorem roomStep_perform (overlay : SessionOverlay) (op : RoomOp) :
    RoomStep overlay (op.perform overlay) := by
  unfold RoomOp.perform
  cases hres : op.result overlay with
  | error e => exact .refused
  | ok next =>
    cases op with
    | install => exact .install hres
    | put keyspace key value | deleteDuplicate keyspace key value baseBacked =>
      obtain ⟨_, -, hst⟩ := bind_eq_ok.mp hres
      exact .stages (stages_of_stageChecked hst)
    | delete | clear => exact .stages (stages_of_stageChecked hres)
    | markBookkeepingRow => exact .stages (stageMutation_eq_ok.mp hres)
    | stageMutationGroup mutations =>
      simp only [RoomOp.result, stageMutationGroup, bind_eq_ok,
        activeSegment_eq_ok] at hres
      obtain ⟨_, -, segment, hopen, _, -, _, -, hst⟩ := hres
      exact .stages (stages_of_foldlM hopen hst)
    | stageJournalEntry entry =>
      simp only [RoomOp.result, stageJournalEntry, bind_eq_ok, pure_eq_ok,
        activeSegment_eq_ok] at hres
      obtain ⟨_, -, segment, hopen, _, -, rfl⟩ := hres
      exact .entry _ _ hopen
    | beginNetBudget =>
      simp only [RoomOp.result, beginNetBudget] at hres
      split at hres
      · cases hres
      · rename_i segment hopen
        split at hres <;> cases hres
        exact .checkpoint hopen rfl
    | endNetBudget stageOk => cases hres; exact roomStep_endNetBudget overlay stageOk
    | commit => cases hres; exact roomStep_commit overlay
    | abort => cases hres; exact .close
    | retirePromotedClosure plan kept =>
      cases hres
      exact .retire (.retirePromoted _ plan kept)
    | retireSavedArtifacts snapshot saved documentSlots =>
      cases hres
      exact .retire (.retireSaved _ _ saved documentSlots)

/-- The budget is the room's own. -/
theorem RoomStep.budgetBytes_eq {overlay next : SessionOverlay} (h : RoomStep overlay next) :
    next.budgetBytes = overlay.budgetBytes := by
  cases h with
  | install h =>
    unfold installTxnSegment at h
    split at h <;> cases h
    rfl
  | stages h =>
    obtain ⟨_, _, _, _, rfl⟩ := h
    rfl
  | _ => rfl

end Oneiron
