import Oneiron.Deletion.TopologyDeleteIntent
import Oneiron.Foundations.System

/-!
# Deletion/TopologyDeleteSafety — who may hold an entity's reservation, and lose it

Reservations, clears, retired `pt:` rows and `dt:` writes of any requests arrive in any order.  A
request past its preparation gives the reservation up only itself, or to a hard request past its own
preparation, while its deletion is soft or not yet finished (`topology_delete_kept`).

Finished is read off the rows as they stand: another request's `dt:` write over a finished one's
makes it unfinished again, and a request displaced can come back at an earlier phase
(`topology_delete_reopened`).
-/

namespace Oneiron

open Option List TopologyRows

/-- One transaction on an entity's rows. -/
inductive TopologyAct where
  | reserve (value : TombstoneValueV2) (windowTs : UInt64) (phase : TopologyDeletePhase)
  | clear (requestId : RequestId) (preparedOnly : Bool)
  /-- A replayed `pt:` row is retired. -/
  | replayed (pending : Bytes)
  /-- The `dt:` marker is written, or neutralized. -/
  | mark (marker : Option Bytes)

namespace TopologyRows

/-- A refused transaction is rolled back. -/
def run (entity : EntityId) (rows : TopologyRows) : TopologyAct → TopologyRows
  | .reserve value windowTs phase =>
    (rows.reserveTopologyDelete entity value windowTs phase).toOption.getD rows
  | .clear requestId preparedOnly => rows.clearOwnTopologyDelete requestId preparedOnly
  | .replayed pending =>
    match (decodeTombstoneValue pending).requestId with
    | none => rows
    | some requestId =>
      rows.completeReplayedTopologyDelete requestId (decodeTombstoneValue pending).isHard
  | .mark marker => { rows with hardDeleteMarker := marker }

/-- Whether a request holds the reservation. -/
def HeldBy (rows : TopologyRows) (requestId : RequestId) : Prop :=
  ∃ intent, rows.intent = some intent ∧ intent.requestId = requestId

end TopologyRows

/-- The rows of one entity, from before any reservation. -/
def topologySystem (entity : EntityId) : System TopologyRows TopologyAct where
  init rows := rows.intent = none
  step rows act rows' := rows' = rows.run entity act

instance {entity : EntityId} {rows rows' : TopologyRows} {act : TopologyAct} :
    Decidable ((topologySystem entity).step rows act rows') :=
  inferInstanceAs (Decidable (rows' = rows.run entity act))

/-- **What one transaction may do to the reservation.** -/
structure TopologyKept (entity : EntityId) (s : TopologyRows) (act : TopologyAct)
    (t : TopologyRows) : Prop where
  one_holder : ∀ r r', s.HeldBy r → s.HeldBy r' → r = r'
  /-- A request that goes on holding the reservation is no less far. -/
  phase_le : ∀ intent intent', s.intent = some intent → t.intent = some intent' →
    intent.requestId = intent'.requestId → intent.phase.byte ≤ intent'.phase.byte
  /-- Past its preparation, a request loses the reservation by its own clear, by its own replay, or
  to a hard request past its preparation while its own deletion is soft or unfinished. -/
  lost : ∀ intent, s.intent = some intent → intent.phase ≠ .prepared → ¬t.HeldBy intent.requestId →
    act = .clear intent.requestId false ∨
    (∃ pending, act = .replayed pending ∧
      (decodeTombstoneValue pending).requestId = some intent.requestId) ∨
    ∃ value windowTs phase, act = .reserve value windowTs phase ∧ phase ≠ .prepared ∧
      value.reason.isHard ∧ t.HeldBy value.requestId ∧
      (intent.reason.isHard → s.localTopologyDeleteComplete intent = false)
  /-- A soft request leaves a hard one's reservation as it is. -/
  soft : ∀ intent value windowTs phase, s.intent = some intent → intent.reason.isHard →
    act = .reserve value windowTs phase → value.reason.isHard = false → t = s
  /-- A merely prepared request leaves any reservation as it is. -/
  prepared : ∀ intent value windowTs, s.intent = some intent →
    act = .reserve value windowTs .prepared → t = s
  /-- A replay releases a hard reservation only behind the request's own `dt:` marker. -/
  replay : ∀ intent pending, s.intent = some intent → intent.reason.isHard →
    act = .replayed pending → ¬t.HeldBy intent.requestId → s.markedBy intent.requestId
  /-- A replay of another request is admitted only behind a finished deletion at least as hard. -/
  guard : ∀ intent (decoded : DecodedTombstoneValue), s.intent = some intent →
    decoded.requestId ≠ some intent.requestId →
    s.guardTopologyDeleteRequest entity decoded = .ok () →
    s.localTopologyDeleteComplete intent ∧ (decoded.isHard → intent.reason.isHard)

/-- Each id names one deletion: a `pt:` row of a request is as hard as the request. -/
def OneRequestPerId (acts : List TopologyAct) : Prop :=
  ∀ value windowTs phase pending, .reserve value windowTs phase ∈ acts → .replayed pending ∈ acts →
    (decodeTombstoneValue pending).requestId = some value.requestId →
    (decodeTombstoneValue pending).isHard = value.reason.isHard

section Runs

variable (entity : EntityId) (s : TopologyRows)

/-- A reservation that stands was asked for, with its reason. -/
def TopologyRows.Asked (rows : TopologyRows) (acts : List TopologyAct) : Prop :=
  ∀ intent, rows.intent = some intent → ∃ value windowTs phase,
    .reserve value windowTs phase ∈ acts ∧ value.requestId = intent.requestId ∧
      value.reason = intent.reason

/-- A reserving transaction changes nothing, or grants the reservation to its own request. -/
theorem run_reserve (value : TombstoneValueV2) (windowTs : UInt64) (phase : TopologyDeletePhase) :
    s.run entity (.reserve value windowTs phase) = s ∨
      (s.run entity (.reserve value windowTs phase) =
          { s with intent := some (.ofValue value windowTs phase) } ∧
        ∀ existing, s.intent = some existing →
          (s.hardRequestSubsumes existing value ∧ phase ≠ .prepared) ∨
            (existing.requestId = value.requestId ∧ existing.reason = value.reason ∧
              existing.phase.byte < phase.byte)) := by
  cases h : s.reserveTopologyDelete entity value windowTs phase with
  | error e => simp [run, h, Except.toOption]
  | ok rows => simpa [run, h, Except.toOption] using
      reserveTopologyDelete_cases h

/-- A transaction leaves the reservation, withdraws it, or grants it to the request asking. -/
theorem intent_run (act : TopologyAct) : (s.run entity act).intent = s.intent ∨ (s.run entity act).intent = none ∨
    ∃ value windowTs phase, act = .reserve value windowTs phase ∧
      s.run entity act = { s with intent := some (.ofValue value windowTs phase) } ∧
      ∀ existing, s.intent = some existing →
        (s.hardRequestSubsumes existing value ∧ phase ≠ .prepared) ∨
          (existing.requestId = value.requestId ∧ existing.reason = value.reason ∧
            existing.phase.byte < phase.byte) := by
  cases act with
  | reserve value windowTs phase =>
    rcases run_reserve entity s value windowTs phase with h | h
    · exact Or.inl (congrArg _ h)
    · exact Or.inr (Or.inr ⟨value, windowTs, phase, rfl, h⟩)
  | clear requestId preparedOnly =>
    rcases s.clearOwnTopologyDelete_cases requestId preparedOnly with h | ⟨h, -⟩ <;> simp [run, h]
  | replayed pending =>
    simp only [run]
    split
    · exact Or.inl rfl
    · next requestId _ =>
      rcases s.completeReplayedTopologyDelete_cases requestId
        (decodeTombstoneValue pending).isHard with h | ⟨h, -⟩ <;> simp [h]
  | mark marker => exact Or.inl rfl

variable {entity s} {acts : List TopologyAct} {act : TopologyAct}

theorem TopologyRows.Asked.run (h : s.Asked acts) : (s.run entity act).Asked (acts ++ [act]) := by
  intro intent hintent
  rcases intent_run entity s act with he | he | ⟨value, w, p, rfl, he, -⟩
  · obtain ⟨value, w, p, hmem, hv⟩ := h intent (he ▸ hintent)
    exact ⟨value, w, p, mem_append_left _ hmem, hv⟩
  · rw [he] at hintent
    cases hintent
  · rw [he] at hintent
    obtain rfl := some.inj hintent
    exact ⟨value, w, p, mem_append_right _ (mem_singleton.mpr rfl), rfl, rfl⟩

/-- A request that stops holding the reservation cleared it, had its replay retired, or was
subsumed. -/
theorem lost_run {intent : TopologyDeleteIntent} (hs : s.intent = some intent)
    (hlost : ¬(s.run entity act).HeldBy intent.requestId) :
    (∃ preparedOnly, act = .clear intent.requestId preparedOnly ∧
      (preparedOnly → intent.phase = .prepared)) ∨
    (∃ pending, act = .replayed pending ∧
      (decodeTombstoneValue pending).requestId = some intent.requestId ∧
      ((decodeTombstoneValue pending).isHard → s.markedBy intent.requestId)) ∨
    ∃ value windowTs phase, act = .reserve value windowTs phase ∧ phase ≠ .prepared ∧
      s.hardRequestSubsumes intent value ∧ (s.run entity act).HeldBy value.requestId := by
  have hkept (h : s.run entity act = s) : False := hlost (h.symm ▸ ⟨intent, hs, rfl⟩)
  cases act with
  | reserve value windowTs phase =>
    rcases run_reserve entity s value windowTs phase with h | ⟨h, hcase⟩
    · exact (hkept h).elim
    · rcases hcase intent hs with ⟨hsub, hp⟩ | ⟨hid, -⟩
      · exact Or.inr (Or.inr ⟨value, windowTs, phase, rfl, hp, hsub, h ▸ ⟨_, rfl, rfl⟩⟩)
      · exact absurd (h ▸ ⟨_, rfl, hid.symm⟩) hlost
  | clear requestId preparedOnly =>
    rcases s.clearOwnTopologyDelete_cases requestId preparedOnly with h | ⟨-, existing, he, rfl, hprep⟩
    · exact (hkept h).elim
    · obtain rfl := some.inj (hs.symm.trans he)
      exact Or.inl ⟨preparedOnly, rfl, hprep⟩
  | replayed pending =>
    cases hid : (decodeTombstoneValue pending).requestId with
    | none => exact (hkept (by simp [run, hid])).elim
    | some requestId =>
      rcases s.completeReplayedTopologyDelete_cases requestId
        (decodeTombstoneValue pending).isHard with h | ⟨-, existing, he, rfl, -, hmark⟩
      · exact (hkept (by simp [run, hid, h])).elim
      · obtain rfl := some.inj (hs.symm.trans he)
        exact Or.inr (Or.inl ⟨pending, rfl, hid, hmark⟩)
  | mark marker => exact absurd ⟨intent, hs, rfl⟩ hlost

/-- **One transaction keeps the interlock.** -/
theorem topologyKept_run (hasked : s.Asked acts) (hone : OneRequestPerId (acts ++ [act])) :
    TopologyKept entity s act (s.run entity act) where
  one_holder := by
    rintro r r' ⟨intent, hs, rfl⟩ ⟨intent', hs', rfl⟩
    rw [some.inj (hs.symm.trans hs')]
  phase_le := by
    intro intent intent' hs ht hid
    rcases intent_run entity s act with he | he | ⟨v, w, p, -, he, hcase⟩
    · obtain rfl := some.inj (hs.symm.trans (he ▸ ht))
      exact UInt8.le_refl _
    · rw [he] at ht
      cases ht
    · rw [he] at ht
      obtain rfl := some.inj ht
      rcases hcase intent hs with ⟨hsub, -⟩ | ⟨-, -, hlt⟩
      · exact absurd hid (hardRequestSubsumes_iff.mp hsub).1
      · exact UInt8.le_of_lt hlt
  lost := by
    intro intent hs hphase hlost
    rcases lost_run hs hlost with ⟨only, rfl, hprep⟩ | ⟨pending, rfl, hid, -⟩ |
      ⟨v, w, p, rfl, hp, hsub, hheld⟩
    · cases only with
      | false => exact Or.inl rfl
      | true => exact absurd (hprep rfl) hphase
    · exact Or.inr (Or.inl ⟨pending, rfl, hid⟩)
    · obtain ⟨-, hhard, hunfinished⟩ := hardRequestSubsumes_iff.mp hsub
      exact Or.inr (Or.inr ⟨v, w, p, rfl, hp, hhard, hheld, fun h => (hunfinished h).2⟩)
  soft := by
    rintro intent v w p hs hhard rfl hsoft
    rcases run_reserve entity s v w _ with h | ⟨-, hcase⟩
    · exact h
    · rcases hcase intent hs with ⟨hsub, -⟩ | ⟨-, hreason, -⟩
      · rw [(hardRequestSubsumes_iff.mp hsub).2.1] at hsoft
        cases hsoft
      · rw [← hreason, hhard] at hsoft
        cases hsoft
  prepared := by
    rintro intent v w hs rfl
    rcases run_reserve entity s v w _ with h | ⟨-, hcase⟩
    · exact h
    · rcases hcase intent hs with ⟨-, hp⟩ | ⟨-, -, hlt⟩
      · exact absurd rfl hp
      · exact absurd hlt UInt8.not_lt_zero
  replay := by
    rintro intent pending hs hhard rfl hlost
    rcases lost_run hs hlost with ⟨_, hact, -⟩ | ⟨pending', hact, hid, hmark⟩ | ⟨_, _, _, hact, -⟩
    · cases hact
    · cases hact
      obtain ⟨v, w, p, hmem, hv, hreason⟩ := hasked intent hs
      have hpending := hone v w p pending (mem_append_left _ hmem)
        (mem_append_right _ (mem_singleton.mpr rfl)) (hid.trans (congrArg some hv.symm))
      exact hmark (by rw [hpending, hreason, hhard])
    · cases hact
  guard := fun _ _ hs hother h =>
    complete_of_guardTopologyDeleteRequest hs hother h

end Runs

/-- Along a run every reservation was asked for. -/
theorem asked_of_run {entity : EntityId} {s t : TopologyRows} {acts : List TopologyAct}
    (h : (topologySystem entity).Run s acts t) :
    ∀ {before : List TopologyAct}, s.Asked before → t.Asked (before ++ acts) := by
  induction h with
  | nil => intro before h; simpa using h
  | cons hstep _ ih =>
    intro before h
    subst hstep
    simpa using ih h.run

/-- **Any requests, in any order**: every transaction of every run keeps the interlock. -/
theorem topology_delete_kept {entity : EntityId} {start s t : TopologyRows}
    {acts : List TopologyAct} {act : TopologyAct} (hinit : (topologySystem entity).init start)
    (hrun : (topologySystem entity).Run start acts s) (hstep : (topologySystem entity).step s act t)
    (hone : OneRequestPerId (acts ++ [act])) : TopologyKept entity s act t := by
  have hstart : start.Asked [] := by
    intro intent h
    rw [show start.intent = none from hinit] at h
    cases h
  obtain rfl : t = s.run entity act := hstep
  exact topologyKept_run (by simpa using asked_of_run hrun hstart) hone

namespace TopologyDemo

def entity : EntityId := .filled 0x55

/-- A user's hard delete under a request id. -/
def hard (b : UInt8) : TombstoneValueV2 := ⟨.userHardDelete, 1772000000, .filled b⟩

def free : TopologyRows := ⟨none, none⟩

end TopologyDemo

open TopologyDemo in
/-- A published hard request gives way to the next one published. -/
theorem topology_delete_kept_takeover :
    TopologyKept entity ⟨some (.ofValue (hard 1) 7 .published), none⟩
      (.reserve (hard 2) 7 .published) ⟨some (.ofValue (hard 2) 7 .published), none⟩ := by
  have hrun : (topologySystem entity).Run free [.reserve (hard 1) 7 .published]
      ⟨some (.ofValue (hard 1) 7 .published), none⟩ :=
    .cons (t := ⟨some (.ofValue (hard 1) 7 .published), none⟩) (by decide) (.nil _)
  have hone : OneRequestPerId ([.reserve (hard 1) 7 .published] ++ [.reserve (hard 2) 7 .published]) := by
    intro value w p pending _ hmem
    simp at hmem
  have hfree : (topologySystem entity).init free := rfl
  have hstep : (topologySystem entity).step ⟨some (.ofValue (hard 1) 7 .published), none⟩
      (.reserve (hard 2) 7 .published) ⟨some (.ofValue (hard 2) 7 .published), none⟩ := by decide
  exact topology_delete_kept hfree hrun hstep hone

open TopologyDemo in
/-- **A finished deletion can be reopened.**  The first request committed and its own `dt:` marker
stood, then the second's was written over it and a third took the reservation; and a committed
request displaced by a published one comes back merely published. -/
theorem topology_delete_reopened :
    (∃ s t, (topologySystem entity).Run free
        [.reserve (hard 1) 7 .committed, .mark (some (hard 1).encode)] s ∧
      s.localTopologyDeleteComplete (.ofValue (hard 1) 7 .committed) ∧ s.HeldBy (.filled 1) ∧
      (topologySystem entity).Run s
        [.mark (some (hard 2).encode), .reserve (hard 3) 7 .committed] t ∧ t.HeldBy (.filled 3)) ∧
    ∃ s t, (topologySystem entity).Run free [.reserve (hard 1) 7 .committed] s ∧
      s.intent = some (.ofValue (hard 1) 7 .committed) ∧
      (topologySystem entity).Run s
        [.reserve (hard 2) 7 .published, .reserve (hard 1) 7 .published] t ∧
      t.intent = some (.ofValue (hard 1) 7 .published) := by
  refine ⟨⟨⟨some (.ofValue (hard 1) 7 .committed), some (hard 1).encode⟩,
      ⟨some (.ofValue (hard 3) 7 .committed), some (hard 2).encode⟩, ?_, by decide,
      ⟨_, rfl, rfl⟩, ?_, ⟨_, rfl, rfl⟩⟩,
    ⟨⟨some (.ofValue (hard 1) 7 .committed), none⟩,
      ⟨some (.ofValue (hard 1) 7 .published), none⟩, ?_, rfl, ?_, rfl⟩⟩
  · exact .cons (t := ⟨some (.ofValue (hard 1) 7 .committed), none⟩) (by decide)
      (.cons (by decide) (.nil _))
  · exact .cons (t := ⟨some (.ofValue (hard 1) 7 .committed), some (hard 2).encode⟩) (by decide)
      (.cons (by decide) (.nil _))
  · exact .cons (by decide) (.nil _)
  · exact .cons (t := ⟨some (.ofValue (hard 2) 7 .published), none⟩) (by decide)
      (.cons (by decide) (.nil _))

end Oneiron
