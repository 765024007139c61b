import Oneiron.Overlay.Lifecycle

/-!
# Overlay/LifecycleSafety — what holds of a shared overlay under every interleaving

`Moves` lists all that one region can do to its thread's phase, to the lifecycle and to the read
leases; the invariant `LifecycleSafe` and the three run facts (nothing is written after a seal,
nothing after a close, modes only grow) are proved from that list.
-/

open Std

namespace Oneiron

open Nat Option Phase Lifecycle Function

open Function

variable {Thread : Type} [DecidableEq Thread]

/-! ## What a region can do -/

/-- All that a region can do to its thread, the lifecycle and the read leases. -/
inductive Moves (region : Region) (l : Lifecycle) (n : ℕ) (p : Phase) : Lifecycle → ℕ → Phase → Prop
  | stays : Moves region l n p l n p
  | waits {base : Option ℕ} : p.permit = false → p ≠ .sealing → p ≠ .closing →
      Moves region l n p l n (.acquiring base)
  | givesUp : p.permit = false → Moves region l n p l n .idle
  | acquires {base : Option ℕ} {generation : ℕ} : p.permit = false → p ≠ .sealing →
      p ≠ .closing → l.segmentActive = false →
      l.state = (if base.isNone then .live else .sealed) →
      Moves region l n p { l with leases := l.leases + 1, segmentActive := true } n
        (.acquired base generation)
  | fills {base : Option ℕ} {generation : ℕ} (segment : TxnSegment) :
      p = .acquired base generation → Moves region l n p l n (.holding ⟨generation, base, segment⟩)
  | stages {active : ActiveSegment} (segment : TxnSegment) : p = .holding active →
      Moves region l n p l n (.holding { active with segment })
  | finishes {active : ActiveSegment} {result : Except Error Unit} : p = .holding active →
      Moves region l n p l n (.dropping result)
  | drops {result : Except Error Unit} : p.leased = true → Moves region l n p l.dropLease n (.releasing result)
  | releases {result : Except Error Unit} : p = .releasing result →
      Moves region l n p l.releaseSegmentWriter n .idle
  | parksSeal : p = .idle → l.state = .live → l.segmentActive = true →
      Moves region l n p { l with state := .sealing } n .sealing
  | seals {modeGeneration : ℕ} : (p = .idle ∧ l.state = .live) ∨ p = .sealing →
      l.segmentActive = false → l.modeGeneration ≤ modeGeneration →
      Moves region l n p { l with state := .sealed, modeGeneration } n .idle
  | rearms {modeGeneration : ℕ} : region = .rearm → l.state = .sealed → l.modeGeneration ≤ modeGeneration →
      Moves region l n p { l with state := .live, modeGeneration } n p
  | startsClose {modeGeneration : ℕ} {phase : Phase} : p = .idle →
      l.state = .live ∨ l.state = .sealed → l.modeGeneration ≤ modeGeneration →
      phase = .idle ∨ phase = .closing →
      Moves region l n p { l with state := .closing, modeGeneration } n phase
  | closes {modeGeneration generation : ℕ} :
      (p = .idle ∧ (l.state = .live ∨ l.state = .sealed)) ∨ p = .closing →
      l.leases = 0 → l.modeGeneration ≤ modeGeneration →
      Moves region l n p { l with state := .gone, modeGeneration, generation } n .idle
  | adds : l.state ≠ .gone → Moves region l n p { l with leases := l.leases + 1 } (n + 1) p
  | removes : 0 < n → Moves region l n p l.dropLease (n - 1) p

variable {active : ActiveSegment}

namespace SharedOverlay

variable {overlay next : SharedOverlay Thread} {thread : Thread} {region : Region}
  {outcome : Outcome Unit}

/-- The move a region makes of its thread, to the phase it leaves it in. -/
def MovesTo (overlay : SharedOverlay Thread) (region : Region) (thread : Thread) (next : SharedOverlay Thread) : Prop :=
  ∃ phase, next.threads = update overlay.threads thread phase ∧
    Moves region overlay.lifecycle overlay.readLeases (overlay.threads thread) next.lifecycle
      next.readLeases phase

theorem MovesTo.refl (overlay : SharedOverlay Thread) (region : Region) (thread : Thread) :
    overlay.MovesTo region thread overlay :=
  ⟨overlay.threads thread, (update_eq_self ..).symm, .stays⟩

theorem MovesTo.keep {lifecycle : Lifecycle} {readLeases : ℕ} {state : OverlayState}
    (h : Moves region overlay.lifecycle overlay.readLeases (overlay.threads thread) lifecycle readLeases
      (overlay.threads thread)) :
    overlay.MovesTo region thread { overlay with lifecycle, readLeases, state } :=
  ⟨overlay.threads thread, (update_eq_self ..).symm, h⟩

variable {l : Lifecycle} {n : ℕ}

theorem takePermit_eq_ok {l' : Lifecycle} (h : l.takePermit = .ok l') :
    l' = { l with leases := l.leases + 1, segmentActive := true } := by
  simp only [takePermit, addLease, bind_eq_ok, pure_eq_ok] at h
  obtain ⟨_, ⟨leases, hleases, rfl⟩, rfl⟩ := h
  rw [checkedSucc_eq_ok hleases]

theorem movesTo_acquire {base : Option ℕ} (hidle : overlay.threads thread = .idle ∨
    overlay.threads thread = .acquiring base) : overlay.MovesTo region thread (overlay.acquire thread base).2 := by
  have hfree : (overlay.threads thread).permit = false ∧ overlay.threads thread ≠ .sealing ∧
      overlay.threads thread ≠ .closing := by
    rcases hidle with h | h <;> simp [h, Phase.permit]
  obtain ⟨hp, hs, hc⟩ := hfree
  unfold acquire
  dsimp only
  split
  · exact ⟨_, rfl, .waits hp hs hc⟩
  · exact ⟨_, rfl, .givesUp hp⟩
  · rename_i lifecycle hok
    have htaken : overlay.lifecycle.takePermit = .ok lifecycle ∧
        overlay.lifecycle.segmentActive = false ∧
        overlay.lifecycle.state = (if base.isNone then .live else .sealed) := by
      cases base with
      | none => grind [acquireSegmentLease]
      | some modeGeneration =>
        grind [acquireBaseRetirementLease, sealedModeIs]
    obtain ⟨htaken, hactive, hstate⟩ := htaken
    obtain rfl := takePermit_eq_ok htaken
    exact ⟨_, rfl, .acquires hp hs hc hactive hstate⟩

theorem moves_drainWriter : Moves region l n .sealing l.drainWriter.2 n
      (if l.drainWriter.1.isNone then .sealing else .idle) := by
  unfold drainWriter
  split
  · exact .stays
  · rename_i hactive
    rw [Bool.not_eq_true] at hactive
    split
    · rename_i modeGeneration hmode
      exact .seals (.inr rfl) hactive (checkedSucc_eq_ok hmode ▸ le_succ _)
    · exact .seals (.inr rfl) hactive (Nat.le_refl _)

theorem moves_sealWrites :
    Moves region l n .idle l.sealWrites.2 n (if l.sealWrites.1.isNone then .sealing else .idle) := by
  unfold sealWrites
  split
  · rename_i hlive
    unfold drainWriter
    split
    · exact .parksSeal rfl hlive ‹_›
    · rename_i hactive
      rw [Bool.not_eq_true] at hactive
      split
      · rename_i modeGeneration hmode
        exact .seals (.inl ⟨rfl, hlive⟩) hactive (checkedSucc_eq_ok hmode ▸ le_succ _)
      · exact .seals (.inl ⟨rfl, hlive⟩) hactive (Nat.le_refl _)
  all_goals exact .stays

theorem moves_rearm {p : Phase} : Moves .rearm l n p l.rearm.2 n p := by
  unfold rearm
  split
  · exact .stays
  · rename_i hsealed
    rw [not_not] at hsealed
    split
    · rename_i modeGeneration hmode
      exact .rearms rfl hsealed (checkedSucc_eq_ok hmode ▸ le_succ _)
    · exact .rearms rfl hsealed (Nat.le_refl _)

theorem moves_drainLeases : Moves region l n .closing l.drainLeases.2 n
    (if l.drainLeases.1.isNone then .closing else .idle) := by
  unfold drainLeases
  split
  · exact .stays
  · rename_i hdrained
    rw [not_not] at hdrained
    split
    · exact .closes (.inr rfl) hdrained (Nat.le_refl _)
    · exact .givesUp rfl

theorem moves_closeInner :
    Moves region l n .idle l.closeInner.2 n (if l.closeInner.1.isNone then .closing else .idle) := by
  have hopen : l.state = .live ∨ l.state = .sealed →
      ∀ {modeGeneration : ℕ}, nextModeGeneration l.modeGeneration = .ok modeGeneration →
      Moves region l n .idle ({ l with state := .closing, modeGeneration } : Lifecycle).drainLeases.2 n
        (if ({ l with state := .closing, modeGeneration } : Lifecycle).drainLeases.1.isNone
          then .closing else .idle) := by
    intro hstate modeGeneration hmode
    have hle : l.modeGeneration ≤ modeGeneration := checkedSucc_eq_ok hmode ▸ le_succ _
    unfold drainLeases
    split
    · exact .startsClose rfl hstate hle (.inr rfl)
    · rename_i hdrained
      rw [not_not] at hdrained
      split
      · exact .closes (.inl ⟨rfl, hstate⟩) hdrained hle
      · exact .startsClose rfl hstate hle (.inl rfl)
  unfold closeInner
  split
  case h_1 h | h_2 h =>
    split
    · exact hopen (by simp [h]) ‹_›
    · exact .startsClose rfl (by simp [h]) (Nat.le_refl _) (.inl rfl)
  all_goals exact .stays

theorem movesTo_settle {parked : Phase} {outcome : Outcome Unit × Lifecycle}
    (h : Moves region overlay.lifecycle overlay.readLeases (overlay.threads thread) outcome.2
      overlay.readLeases (if outcome.1.isNone then parked else .idle)) :
    overlay.MovesTo region thread (overlay.settle thread parked outcome).2 := ⟨_, rfl, h⟩

theorem movesTo_close {outcome : Outcome Unit × Lifecycle}
    (h : Moves region overlay.lifecycle overlay.readLeases (overlay.threads thread) outcome.2
      overlay.readLeases (if outcome.1.isNone then .closing else .idle)) :
    overlay.MovesTo region thread (overlay.close thread outcome).2 := ⟨_, rfl, h⟩

theorem movesTo_addReadLease {leased : Except Error Lifecycle}
    (h : ∀ {lifecycle}, leased = .ok lifecycle → overlay.lifecycle.state ≠ .gone ∧
      overlay.lifecycle.addLease = .ok lifecycle) :
    overlay.MovesTo region thread (overlay.addReadLease leased).2 := by
  unfold addReadLease
  split
  · exact .refl ..
  · obtain ⟨hgone, hadd⟩ := h rfl
    simp only [addLease, bind_eq_ok, pure_eq_ok] at hadd
    obtain ⟨leases, hleases, rfl⟩ := hadd
    obtain rfl := checkedSucc_eq_ok hleases
    exact .keep (.adds hgone)

theorem movesTo_acquireExistingLease {generation : ℕ} : overlay.MovesTo region thread
    (overlay.addReadLease (overlay.lifecycle.acquireExistingLease generation)).2 := by
  refine movesTo_addReadLease fun hok => ?_
  unfold acquireExistingLease at hok
  split at hok
  · cases hok
  · rename_i hopen
    exact ⟨fun hgone => hopen (.inl hgone), hok⟩

omit [DecidableEq Thread] in
theorem next_eq {ran : Outcome Unit × SharedOverlay Thread} (h : some ran = some (outcome, next)) :
    ran.2 = next := by rw [some.inj h]

variable [EntryLayout]

theorem movesTo_runBeside
    (h : overlay.runBeside region = some (outcome, next)) : overlay.MovesTo region thread next := by
  cases region with
  | rearm =>
    cases h
    exact .keep moves_rearm
  | retain generation =>
    simp only [runBeside] at h
    split at h
    · cases h
    · obtain rfl := next_eq h
      exact movesTo_acquireExistingLease
  | dropSnapshot =>
    simp only [runBeside] at h
    split at h
    · cases h
    · cases h
      exact .keep (.removes (Nat.pos_of_ne_zero ‹_›))
  | retirePromotedClosure plan kept =>
    obtain rfl := next_eq h
    unfold retirePromotedClosure
    split
    · exact .refl ..
    · exact .keep .stays
  | releaseClosedState =>
    obtain rfl := next_eq h
    unfold releaseClosedState
    split
    · exact .refl ..
    · exact .keep .stays
  | _ => cases h

theorem movesTo_runHolding (hholding : overlay.threads thread = .holding active)
    (h : overlay.runHolding thread active region = some (outcome, next)) :
    overlay.MovesTo region thread next := by
  unfold runHolding at h
  split at h
  case h_2 op =>
    split at h
    · obtain rfl := next_eq h
      unfold stage
      split
      · exact .refl ..
      · exact ⟨_, rfl, .stages _ hholding⟩
    · cases h
  case h_3 =>
    split at h
    · obtain rfl := next_eq h
      unfold commit
      split
      · exact ⟨_, rfl, .finishes hholding⟩
      · exact ⟨_, rfl, .finishes hholding⟩
    · cases h
  case h_4 keys =>
    obtain ⟨modeGeneration, -, heq⟩ := map_eq_some_iff.mp h
    obtain rfl := next_eq (congrArg some heq)
    exact ⟨_, rfl, .finishes hholding⟩
  case h_5 =>
    obtain rfl := next_eq h
    exact ⟨_, rfl, .drops (by rw [hholding]; rfl)⟩
  case h_8 =>
    obtain rfl := next_eq h
    exact movesTo_acquireExistingLease
  case h_9 => exact movesTo_runBeside h
  all_goals
    obtain rfl := next_eq h
    exact .refl ..

/-- **Every region is one of these moves.** -/
theorem movesTo_run (h : overlay.run thread region = some (outcome, next)) :
    overlay.MovesTo region thread next := by
  unfold run at h
  split at h
  case h_1 hp =>
    obtain rfl := next_eq h
    exact movesTo_acquire (.inl hp)
  case h_2 hp =>
    split at h
    · obtain rfl := next_eq h
      exact movesTo_acquire (.inr hp)
    · cases h
  case h_3 hp =>
    obtain rfl := next_eq h
    exact ⟨_, rfl, .fills _ hp⟩
  case h_4 hp =>
    obtain rfl := next_eq h
    exact ⟨_, rfl, .drops (by rw [hp]; rfl)⟩
  case h_5 hp =>
    obtain rfl := next_eq h
    exact ⟨_, rfl, .releases hp⟩
  case h_6 hp =>
    obtain rfl := next_eq h
    exact movesTo_settle (by rw [hp]; exact moves_sealWrites)
  case h_7 hp =>
    obtain rfl := next_eq h
    exact movesTo_settle (by rw [hp]; exact moves_drainWriter)
  case h_8 hp =>
    obtain rfl := next_eq h
    exact movesTo_close (by rw [hp]; exact moves_closeInner)
  case h_9 hp =>
    obtain rfl := next_eq h
    exact movesTo_close (by rw [hp]; exact moves_drainLeases)
  case h_10 =>
    obtain rfl := next_eq h
    refine movesTo_addReadLease fun hok => ?_
    unfold acquireReadLease at hok
    split at hok
    case h_1 hs | h_2 hs => exact ⟨by simp [hs], hok⟩
    cases hok
  case h_11 => exact movesTo_runBeside h
  case h_12 => exact movesTo_runHolding ‹_› h
  case h_13 => cases h

end SharedOverlay

/-! ## The invariant -/

theorem permit_of_leased : ∀ {p : Phase}, p.leased = true → p.permit = true
  | .acquired .., _ | .holding _, _ | .dropping _, _ => rfl

theorem permit_of_writes : ∀ {p : Phase}, p.writes = true → p.permit = true
  | .acquired .., _ | .holding _, _ => rfl

namespace Moves

variable {region : Region} {l l' : Lifecycle} {n n' : ℕ} {p p' : Phase}

section

variable (h : Moves region l n p l' n' p')

include h

/-- The permit and its flag move together. -/
theorem permit_eq : (p'.permit = p.permit ∧ l'.segmentActive = l.segmentActive) ∨
      (p.permit = false ∧ l.segmentActive = false ∧ p'.permit = true ∧ l'.segmentActive = true) ∨
      (p.permit = true ∧ p'.permit = false ∧ l'.segmentActive = false) := by
  cases h <;> grind [Phase.permit, permit_of_leased, releaseSegmentWriter,
    dropLease]

/-- A lease is counted in as it is handed out and counted out as it drops. -/
theorem leases_add (hle : n + p.leased.toNat ≤ l.leases) :
    l'.leases + (n + p.leased.toNat) = l.leases + (n' + p'.leased.toNat) := by
  cases h <;> grind [Phase.permit, Phase.leased, releaseSegmentWriter,
    dropLease, permit_of_leased]

/-- A second lease of a segment is never handed out under the permit. -/
theorem leased_of_leased (hp' : p'.leased = true) : p.leased = true ∨ l.segmentActive = false := by
  cases h <;> grind [Phase.leased]

/-- While another thread waits in a seal, the overlay stays as it is waiting. -/
theorem sealing (hp : p = .closing → l.state = .closing) (hl : l.state = .sealing)
    (hne : p ≠ .sealing) : l'.state = .sealing := by
  cases h <;> grind [releaseSegmentWriter, dropLease]

theorem closing (hp : p = .sealing → l.state = .sealing) (hl : l.state = .closing)
    (hne : p ≠ .closing) : l'.state = .closing := by
  cases h <;> grind [releaseSegmentWriter, dropLease]

theorem state_of_sealing (hp' : p' = .sealing) :
    (p = .sealing ∧ (l.state = .sealing → l'.state = .sealing)) ∨
      (l.state = .live ∧ l'.state = .sealing) := by
  cases h <;> grind [dropLease]

theorem state_of_closing (hp' : p' = .closing) :
    (p = .closing ∧ (l.state = .closing → l'.state = .closing)) ∨
      ((l.state = .live ∨ l.state = .sealed) ∧ l'.state = .closing) := by
  cases h <;> grind [dropLease]

/-- An overlay seals with no permit out, and a sealed one hands none to a writer. -/
theorem sealed (hl' : l'.state = .sealed) :
    (l.state = .sealed ∧ (p'.writes = true → p.writes = true)) ∨
      (l.segmentActive = false ∧ p'.writes = false) := by
  cases h <;> grind [releaseSegmentWriter, dropLease, Phase.writes]

theorem gone (hl : l.state = .gone → l.leases = 0) (hl' : l'.state = .gone) : l'.leases = 0 := by
  cases h <;> grind [releaseSegmentWriter, dropLease]

/-- Only a rearm opens an overlay that has been sealed, is closing or is gone. -/
theorem shut (hregion : region ≠ .rearm)
    (hl : l.state = .sealed ∨ l.state = .closing ∨ l.state = .gone) :
    l'.state = .sealed ∨ l'.state = .closing ∨ l'.state = .gone := by
  cases h <;> grind [releaseSegmentWriter, dropLease]

/-- Only a live overlay hands its permit to a writer. -/
theorem writes (hp' : p'.writes = true) : p.writes = true ∨ l.state = .live := by
  cases h <;> grind [Phase.writes]

theorem stays_gone (hsealing : p = .sealing → l.state = .sealing) (hl : l.state = .gone) :
    l'.state = .gone := by
  cases h <;> grind [releaseSegmentWriter, dropLease]

theorem modeGeneration_le : l.modeGeneration ≤ l'.modeGeneration := by
  cases h <;> grind [releaseSegmentWriter, dropLease]

end

end Moves

/-- What holds of an overlay's lifecycle, its read leases and its threads at every moment. -/
structure LifecycleSafe (l : Lifecycle) (n : ℕ) (threads : Thread → Phase) : Prop where
  /-- At most one segment permit is out. -/
  permit_unique : ∀ {t t'}, (threads t).permit = true → (threads t').permit = true → t = t'
  active : l.segmentActive = true ↔ ∃ t, (threads t).permit = true
  /-- A lease counts for each snapshot, and for the permit's segment while it stands. -/
  leases : ((∀ t, (threads t).leased = false) ∧ l.leases = n) ∨
    ∃ t, (threads t).leased = true ∧ l.leases = n + 1
  sealing : ∀ {t}, threads t = .sealing → l.state = .sealing ∧ ∀ {t'}, threads t' = .sealing → t' = t
  closing : ∀ {t}, threads t = .closing → l.state = .closing ∧ ∀ {t'}, threads t' = .closing → t' = t
  sealed : l.state = .sealed → ∀ t, (threads t).writes = false
  gone : l.state = .gone → l.leases = 0

namespace LifecycleSafe

variable {region : Region} {l l' : Lifecycle} {n n' : ℕ} {threads : Thread → Phase} {thread : Thread}
  {phase : Phase}

omit [DecidableEq Thread] in
theorem start (generation : ℕ) :
    LifecycleSafe (.new generation) 0 fun _ : Thread => .idle where
  permit_unique := nofun
  active := ⟨nofun, nofun⟩
  leases := .inl ⟨fun _ => rfl, rfl⟩
  sealing := nofun
  closing := nofun
  sealed := nofun
  gone := nofun

omit [DecidableEq Thread] in
/-- Nobody has the permit while its flag is down. -/
theorem permit_eq_false (h : LifecycleSafe l n threads) (hl : l.segmentActive = false) (t : Thread) :
    (threads t).permit = false := by
  rw [Bool.eq_false_iff]
  intro ht
  rw [h.active.mpr ⟨t, ht⟩] at hl
  cases hl

section Step

variable (h : LifecycleSafe l n threads) (hm : Moves region l n (threads thread) l' n' phase)
include h hm

variable {t : Thread}

omit hm [DecidableEq Thread] in
theorem leased_unique {t' : Thread} (ht : (threads t).leased = true)
    (ht' : (threads t').leased = true) : t = t' :=
  h.permit_unique (permit_of_leased ht) (permit_of_leased ht')

/-- A permit is given only while nobody has one. -/
theorem permit_unique_step {t' : Thread}
    (ht : (update threads thread phase t).permit = true)
    (ht' : (update threads thread phase t').permit = true) : t = t' := by
  rcases hm.permit_eq with ⟨hsame, -⟩ | ⟨-, hl, -⟩ | ⟨-, hgone, -⟩
  · refine h.permit_unique ?_ ?_ <;> grind
  · have hnone := h.permit_eq_false hl
    grind
  · grind [h.permit_unique]

theorem active_step : l'.segmentActive = true ↔
    ∃ t, (update threads thread phase t).permit = true := by
  rcases hm.permit_eq with ⟨hsame, hflag⟩ | ⟨-, hl, hgiven, hflag⟩ | ⟨hheld, hgone, hflag⟩
  · rw [hflag, h.active]
    constructor
    · rintro ⟨t, ht⟩
      exact ⟨t, by grind⟩
    · rintro ⟨t, ht⟩
      exact ⟨t, by grind⟩
  · exact ⟨fun _ => ⟨thread, by rwa [update_self]⟩, fun _ => hflag⟩
  · rw [hflag]
    grind [h.permit_unique]

theorem leases_step :
    ((∀ t, (update threads thread phase t).leased = false) ∧ l'.leases = n') ∨
      ∃ t, (update threads thread phase t).leased = true ∧ l'.leases = n' + 1 := by
  rcases h.leases with ⟨hnone, hcount⟩ | ⟨t, ht, hcount⟩
  · have hadd := hm.leases_add (by simp [hnone, hcount])
    cases hp : phase.leased with
    | false => exact .inl ⟨by grind, by simp [hnone, hp] at hadd; omega⟩
    | true => exact .inr ⟨thread, by rwa [update_self], by simp [hnone, hp] at hadd; omega⟩
  · by_cases hthread : t = thread
    · subst hthread
      have hadd := hm.leases_add (by simp [ht, hcount])
      cases hp : phase.leased with
      | false => exact .inl ⟨by grind [h.leased_unique], by simp [ht, hp] at hadd; omega⟩
      | true => exact .inr ⟨t, by rwa [update_self], by simp [ht, hp] at hadd; omega⟩
    · -- the segment's lease is another thread's, and the permit with it
      have hfalse : (threads thread).leased = false := by grind [h.leased_unique]
      have hphase : phase.leased = false := by
        rw [Bool.eq_false_iff]
        intro hp
        rcases hm.leased_of_leased hp with hl | hl
        · rw [hfalse] at hl
          cases hl
        · exact absurd (permit_of_leased ht) (by simp [h.permit_eq_false hl])
      have hadd := hm.leases_add (by simp [hfalse, hcount])
      exact .inr ⟨t, by rwa [update_of_ne hthread], by simp [hfalse, hphase] at hadd; omega⟩

theorem sealing_step (ht : update threads thread phase t = .sealing) :
    l'.state = .sealing ∧
      ∀ {t'}, update threads thread phase t' = .sealing → t' = t := by
  by_cases hthread : t = thread
  · subst hthread
    rw [update_self] at ht
    rcases hm.state_of_sealing ht with ⟨hp, hstate⟩ | ⟨hlive, hstate⟩
    · obtain ⟨hl, hsole⟩ := h.sealing hp
      exact ⟨hstate hl, by grind⟩
    · exact ⟨hstate, by grind [h.sealing]⟩
  · rw [update_of_ne hthread] at ht
    obtain ⟨hl, hsole⟩ := h.sealing ht
    have hne : threads thread ≠ .sealing := fun hs => hthread (hsole hs).symm
    exact ⟨hm.sealing (fun hs => (h.closing hs).1) hl hne, by grind [hm.state_of_sealing]⟩

theorem closing_step (ht : update threads thread phase t = .closing) :
    l'.state = .closing ∧
      ∀ {t'}, update threads thread phase t' = .closing → t' = t := by
  by_cases hthread : t = thread
  · subst hthread
    rw [update_self] at ht
    rcases hm.state_of_closing ht with ⟨hp, hstate⟩ | ⟨hopen, hstate⟩
    · obtain ⟨hl, hsole⟩ := h.closing hp
      exact ⟨hstate hl, by grind⟩
    · exact ⟨hstate, by grind [h.closing]⟩
  · rw [update_of_ne hthread] at ht
    obtain ⟨hl, hsole⟩ := h.closing ht
    have hne : threads thread ≠ .closing := fun hs => hthread (hsole hs).symm
    exact ⟨hm.closing (fun hs => (h.sealing hs).1) hl hne, by grind [hm.state_of_closing]⟩

theorem sealed_step (hl' : l'.state = .sealed) (t : Thread) :
    (update threads thread phase t).writes = false := by
  rcases hm.sealed hl' with ⟨hl, hkept⟩ | ⟨hl, hnone⟩
  · have hwrites := h.sealed hl
    grind
  · have hfree := h.permit_eq_false hl t
    grind [permit_of_writes]

/-- **Every move keeps the lifecycle safe.** -/
theorem step : LifecycleSafe l' n' (update threads thread phase) where
  permit_unique := h.permit_unique_step hm
  active := h.active_step hm
  leases := h.leases_step hm
  sealing := h.sealing_step hm
  closing := h.closing_step hm
  sealed := h.sealed_step hm
  gone := hm.gone h.gone

end Step

end LifecycleSafe

/-! ## Publishing a mode -/

namespace Lifecycle

variable {l : Lifecycle}

theorem drainWriter_ok (h : l.drainWriter.1 = some (.ok ())) :
    l.drainWriter.2.state = .sealed ∧ l.modeGeneration < l.drainWriter.2.modeGeneration := by
  revert h
  unfold drainWriter
  split
  · nofun
  · split
    · rename_i hmode
      exact fun _ => ⟨rfl, checkedSucc_eq_ok hmode ▸ lt_succ_self _⟩
    · nofun

theorem sealWrites_ok (h : l.sealWrites.1 = some (.ok ())) : l.sealWrites.2.state = .sealed ∧
    (l.state ≠ .sealed → l.modeGeneration < l.sealWrites.2.modeGeneration) := by
  revert h
  unfold sealWrites
  split
  · exact fun h => ⟨(drainWriter_ok h).1, fun _ => (drainWriter_ok h).2⟩
  · rename_i hsealed
    exact fun _ => ⟨hsealed, fun hne => absurd hsealed hne⟩
  all_goals nofun

theorem rearm_ok (h : l.rearm.1 = some (.ok ())) : l.modeGeneration < l.rearm.2.modeGeneration := by
  revert h
  unfold rearm
  split
  · nofun
  · split
    · rename_i hmode
      exact fun _ => checkedSucc_eq_ok hmode ▸ lt_succ_self _
    · nofun

theorem drainLeases_ok (h : l.drainLeases.1 = some (.ok ())) : l.drainLeases.2.state = .gone := by
  revert h
  unfold drainLeases
  split
  · nofun
  · split
    · exact fun _ => rfl
    · nofun

theorem modeGeneration_drainLeases : l.drainLeases.2.modeGeneration = l.modeGeneration := by
  unfold drainLeases
  split
  · rfl
  · split <;> rfl

theorem closeInner_ok (h : l.closeInner.1 = some (.ok ())) : l.closeInner.2.state = .gone := by
  revert h
  unfold closeInner
  split
  case h_1 | h_2 =>
    split
    · exact drainLeases_ok
    · nofun
  all_goals nofun

theorem modeGeneration_lt_closeInner (h : ∀ e, l.closeInner.1 ≠ some (.error e)) :
    l.modeGeneration < l.closeInner.2.modeGeneration := by
  revert h
  unfold closeInner
  split
  case h_1 | h_2 =>
    split
    · rename_i hmode
      rw [modeGeneration_drainLeases]
      exact fun _ => checkedSucc_eq_ok hmode ▸ lt_succ_self _
    · exact fun h => absurd rfl (h _)
  all_goals exact fun h => absurd rfl (h _)

end Lifecycle

/-! ## Runs -/

namespace SharedOverlay

/-- An overlay's lifecycle is safe. -/
def Safe (overlay : SharedOverlay Thread) : Prop :=
  LifecycleSafe overlay.lifecycle overlay.readLeases overlay.threads

/-- Shut to writers, with no writer left. -/
structure Quiet (overlay : SharedOverlay Thread) : Prop where
  shut : overlay.lifecycle.state = .sealed ∨ overlay.lifecycle.state = .closing ∨
    overlay.lifecycle.state = .gone
  writes : ∀ t, (overlay.threads t).writes = false

variable {overlay next : SharedOverlay Thread} {thread : Thread} {region : Region}
  {outcome : Outcome Unit}

theorem Safe.step (h : overlay.Safe) (hm : overlay.MovesTo region thread next) : next.Safe := by
  obtain ⟨phase, hthreads, hm⟩ := hm
  unfold Safe
  rw [hthreads]
  exact LifecycleSafe.step h hm

theorem Quiet.step (hq : overlay.Quiet)
    (hm : overlay.MovesTo region thread next) (hregion : region ≠ .rearm) : next.Quiet := by
  obtain ⟨phase, hthreads, hm⟩ := hm
  refine ⟨hm.shut hregion hq.shut, fun t => ?_⟩
  rw [hthreads, Bool.eq_false_iff]
  intro ht
  by_cases hthread : t = thread
  · subst hthread
    rw [update_self] at ht
    rcases hm.writes ht with hwas | hlive
    · rw [hq.writes] at hwas
      cases hwas
    · rcases hq.shut with hs | hs | hs <;> rw [hlive] at hs <;> cases hs
  · rw [update_of_ne hthread, hq.writes] at ht
    cases ht

variable [EntryLayout]

/-- A commit's region is run by a thread that holds a writing segment. -/
theorem writes_of_commit (h : overlay.run thread region = some (outcome, next))
    (hregion : region = .commit) :
    (overlay.threads thread).writes = true ∧ (overlay.threads thread).leased = true := by
  subst hregion
  cases hp : overlay.threads thread with
  | holding active =>
    unfold run at h
    simp only [hp, runHolding] at h
    split at h
    · exact ⟨‹_›, rfl⟩
    · cases h
  | _ =>
    unfold run at h
    simp [hp, runBeside] at h

/-- A base retirement's commit is run by a thread that holds one. -/
theorem retire_eq {keys : List Bytes} (h : overlay.run thread (.retire keys) = some (outcome, next)) :
    ∃ active modeGeneration, overlay.threads thread = .holding active ∧
      active.base = some modeGeneration ∧
      next.state = overlay.retireRows active modeGeneration keys := by
  cases hp : overlay.threads thread with
  | holding active =>
    unfold run at h
    simp only [hp, runHolding, map_eq_some_iff] at h
    obtain ⟨modeGeneration, hbase, heq⟩ := h
    cases heq
    exact ⟨active, modeGeneration, rfl, hbase, rfl⟩
  | _ =>
    unfold run at h
    simp [hp, runBeside] at h

omit [DecidableEq Thread] in
/-- **A base retirement minted under another mode retires nothing.** -/
theorem retireRows_eq_self {modeGeneration : ℕ}
    (h : overlay.lifecycle.modeGeneration ≠ modeGeneration) (keys : List Bytes) :
    overlay.retireRows active modeGeneration keys = overlay.state := by
  unfold retireRows
  rw [if_neg]
  simp [sealedModeIs, h]

/-- A seal that returns leaves the overlay sealed, under a new mode unless it already was. -/
theorem sealed_of_sealWrites (h : overlay.run thread .sealWrites = some (some (.ok ()), next)) :
    next.lifecycle.state = .sealed ∧ (overlay.lifecycle.state ≠ .sealed →
      overlay.lifecycle.modeGeneration < next.lifecycle.modeGeneration) := by
  cases hp : overlay.threads thread with
  | idle =>
    unfold run at h
    simp only [hp, settle, Option.some.injEq, Prod.mk.injEq] at h
    obtain ⟨hok, rfl⟩ := h
    exact sealWrites_ok hok
  | sealing =>
    unfold run at h
    simp only [hp, settle, Option.some.injEq, Prod.mk.injEq] at h
    obtain ⟨hok, rfl⟩ := h
    exact ⟨(drainWriter_ok hok).1, fun _ => (drainWriter_ok hok).2⟩
  | holding active =>
    unfold run at h
    simp [hp, runHolding, refuse] at h
  | _ =>
    unfold run at h
    simp [hp] at h

theorem modeGeneration_lt_of_rearm (h : overlay.run thread .rearm = some (some (.ok ()), next)) :
    overlay.lifecycle.modeGeneration < next.lifecycle.modeGeneration := by
  have hbeside : overlay.runBeside .rearm = some (some (.ok ()), next) := by
    unfold run at h
    cases hp : overlay.threads thread <;> simp only [hp, runHolding, reduceCtorEq] at h <;> exact h
  simp only [runBeside, Option.some.injEq, Prod.mk.injEq] at hbeside
  obtain ⟨hok, rfl⟩ := hbeside
  exact rearm_ok hok

/-- A close that returns leaves the overlay gone. -/
theorem gone_of_close (h : overlay.run thread .close = some (some (.ok ()), next)) :
    next.lifecycle.state = .gone := by
  cases hp : overlay.threads thread with
  | idle =>
    unfold run at h
    simp only [hp, close, settle, Option.some.injEq, Prod.mk.injEq] at h
    obtain ⟨hok, rfl⟩ := h
    exact closeInner_ok hok
  | closing =>
    unfold run at h
    simp only [hp, close, settle, Option.some.injEq, Prod.mk.injEq] at h
    obtain ⟨hok, rfl⟩ := h
    exact drainLeases_ok hok
  | holding active =>
    unfold run at h
    simp [hp, runHolding, refuse] at h
  | _ =>
    unfold run at h
    simp [hp] at h

/-- A close that is not refused is under a new mode from its first region on. -/
theorem modeGeneration_lt_of_close (hidle : overlay.threads thread = .idle)
    (h : overlay.run thread .close = some (outcome, next)) (hok : ∀ e, outcome ≠ some (.error e)) :
    overlay.lifecycle.modeGeneration < next.lifecycle.modeGeneration := by
  unfold run at h
  simp only [hidle, close, settle, Option.some.injEq, Prod.mk.injEq] at h
  obtain ⟨rfl, rfl⟩ := h
  exact modeGeneration_lt_closeInner hok

/-- Whether a region publishes a mode: a seal of an overlay that was not sealed, a rearm, the first
region of a close that is not refused. -/
def PublishesMode (overlay : SharedOverlay Thread) (ran : RegionRun Thread) : Prop :=
  match ran.region with
  | .sealWrites => ran.outcome = some (.ok ()) ∧ overlay.lifecycle.state ≠ .sealed
  | .rearm => ran.outcome = some (.ok ())
  | .close => overlay.threads ran.thread = .idle ∧ ∀ e, ran.outcome ≠ some (.error e)
  | _ => False

theorem modeGeneration_lt_of_publishesMode {ran : RegionRun Thread}
    (h : overlay.run ran.thread ran.region = some (ran.outcome, next))
    (hpub : overlay.PublishesMode ran) :
    overlay.lifecycle.modeGeneration < next.lifecycle.modeGeneration := by
  obtain ⟨thread, region, outcome⟩ := ran
  cases region with
  | sealWrites =>
    obtain ⟨rfl, hstate⟩ := hpub
    exact (sealed_of_sealWrites h).2 hstate
  | rearm =>
    obtain rfl : outcome = some (.ok ()) := hpub
    exact modeGeneration_lt_of_rearm h
  | close =>
    obtain ⟨hidle, hok⟩ := hpub
    exact modeGeneration_lt_of_close hidle h hok
  | _ => exact hpub.elim

variable {budgetBytes : ℕ} {later : SharedOverlay Thread} {rans : List (RegionRun Thread)}

theorem safe_of_reachable (h : (lifecycles Thread budgetBytes).Reachable overlay) : overlay.Safe := by
  refine h.invariant Safe (fun hi => ?_) fun hs hstep => hs.step (movesTo_run hstep)
  obtain ⟨generation, rfl⟩ := hi
  exact .start generation

/-- Modes only grow along a run. -/
theorem modeGeneration_le_of_run (hrun : (lifecycles Thread budgetBytes).Run overlay rans later) :
    overlay.lifecycle.modeGeneration ≤ later.lifecycle.modeGeneration := by
  refine hrun.preserves (fun next => overlay.lifecycle.modeGeneration ≤ next.lifecycle.modeGeneration)
    (fun hle hstep => ?_) (Nat.le_refl _)
  obtain ⟨phase, -, hm⟩ := movesTo_run hstep
  exact hle.trans hm.modeGeneration_le

/-- **A quiet overlay publishes no segment** until it is rearmed. -/
theorem no_commit_of_quiet (hrun : (lifecycles Thread budgetBytes).Run overlay rans later)
    (hq : overlay.Quiet) (hrearm : ∀ ran ∈ rans, ran.region ≠ .rearm) :
    ∀ ran ∈ rans, ran.region ≠ .commit := by
  refine hrun.forall_label Quiet (fun hq hstep hregion => ?_) hq hrearm
  refine ⟨fun hcommit => ?_, hq.step (movesTo_run hstep) hregion⟩
  have hwrites := (writes_of_commit hstep hcommit).1
  rw [hq.writes] at hwrites
  cases hwrites

omit [DecidableEq Thread] [EntryLayout] in
/-- No lease stands on an overlay that is gone. -/
theorem Safe.leased_of_gone (h : overlay.Safe) (hgone : overlay.lifecycle.state = .gone) :
    overlay.readLeases = 0 ∧ ∀ t, (overlay.threads t).leased = false := by
  have hzero := h.gone hgone
  rcases h.leases with ⟨hnone, hcount⟩ | ⟨t, ht, hcount⟩
  · exact ⟨hcount.symm.trans hzero, hnone⟩
  · omega

/-- **A closed overlay publishes no segment**, ever. -/
theorem no_commit_of_gone (hrun : (lifecycles Thread budgetBytes).Run overlay rans later)
    (hsafe : overlay.Safe) (hgone : overlay.lifecycle.state = .gone) :
    ∀ ran ∈ rans, ran.region ≠ .commit := by
  refine hrun.forall_label (Q := fun _ => True)
    (fun overlay => overlay.Safe ∧ overlay.lifecycle.state = .gone)
    (fun ⟨hs, hg⟩ hstep _ => ?_) ⟨hsafe, hgone⟩ fun _ _ => trivial
  have hm := movesTo_run hstep
  refine ⟨fun hcommit => ?_, hs.step hm, ?_⟩
  · have hleased := (writes_of_commit hstep hcommit).2
    rw [(hs.leased_of_gone hg).2] at hleased
    cases hleased
  · obtain ⟨phase, -, hm⟩ := hm
    exact hm.stays_gone (fun hs' => (hs.sealing hs').1) hg

end SharedOverlay

open SharedOverlay

variable [EntryLayout] {budgetBytes : ℕ} {overlay : SharedOverlay Thread}

/-- **The overlay's lifecycle is safe** under every interleaving: one permit at a time; a returned
seal lets no segment publish until a rearm, and a returned close none ever, with no lease out; every
publication of a mode raises the mode, which no route and no base retirement minted before
survives. -/
theorem lifecycle_safe (h : (lifecycles Thread budgetBytes).Reachable overlay) :
    (∀ t t', (overlay.threads t).permit = true → (overlay.threads t').permit = true → t = t') ∧
    (∀ ran next, (lifecycles Thread budgetBytes).step overlay ran next →
      ran.outcome = some (.ok ()) → ran.region = .sealWrites →
      ∀ rans later, (lifecycles Thread budgetBytes).Run next rans later →
        (∀ ran ∈ rans, ran.region ≠ .rearm) → ∀ ran ∈ rans, ran.region ≠ .commit) ∧
    (∀ ran next, (lifecycles Thread budgetBytes).step overlay ran next →
      ran.outcome = some (.ok ()) → ran.region = .close →
      (next.readLeases = 0 ∧ ∀ t, (next.threads t).leased = false) ∧
      ∀ rans later, (lifecycles Thread budgetBytes).Run next rans later →
        ∀ ran ∈ rans, ran.region ≠ .commit) ∧
    ∀ rans before ran next, (lifecycles Thread budgetBytes).Run overlay rans before →
      (lifecycles Thread budgetBytes).step before ran next → before.PublishesMode ran →
      before.lifecycle.modeGeneration < next.lifecycle.modeGeneration ∧
      ∀ rans' later, (lifecycles Thread budgetBytes).Run next rans' later → ∀ target,
        let route := SessionWriteRoute.mint overlay.lifecycle target
        route.revalidate later.lifecycle = .error (leaseClosed route.modeGeneration) ∧
        ∀ thread active keys outcome retired, later.threads thread = .holding active →
          active.base = some route.modeGeneration →
          later.run thread (.retire keys) = some (outcome, retired) →
          retired.state = later.state := by
  have hsafe := safe_of_reachable h
  refine ⟨fun t t' => hsafe.permit_unique, ?_, ?_, ?_⟩
  · rintro ⟨thread, region, outcome⟩ next hstep rfl rfl rans later hrun
    have hnext := hsafe.step (movesTo_run hstep)
    have hsealed := (sealed_of_sealWrites hstep).1
    exact no_commit_of_quiet hrun ⟨.inl hsealed, hnext.sealed hsealed⟩
  · rintro ⟨thread, region, outcome⟩ next hstep rfl rfl
    have hnext := hsafe.step (movesTo_run hstep)
    have hgone := gone_of_close hstep
    exact ⟨hnext.leased_of_gone hgone, fun rans later hrun => no_commit_of_gone hrun hnext hgone⟩
  · intro rans before ran next hbefore hstep hpub
    have hlt := modeGeneration_lt_of_publishesMode hstep hpub
    refine ⟨hlt, fun rans' later hlater target => ?_⟩
    have hstale : overlay.lifecycle.modeGeneration < later.lifecycle.modeGeneration :=
      (modeGeneration_le_of_run hbefore).trans_lt
        (hlt.trans_le (modeGeneration_le_of_run hlater))
    refine ⟨if_neg hstale.ne', fun thread active keys outcome retired hholding hbase hretire => ?_⟩
    obtain ⟨active', modeGeneration, hholding', hbase', heq⟩ := retire_eq hretire
    cases hholding.symm.trans hholding'
    cases hbase.symm.trans hbase'
    exact heq.trans (retireRows_eq_self hstale.ne' keys)

omit [EntryLayout] in
/-- …at a route minted on a new overlay that another thread then seals. -/
theorem lifecycle_safe_sealed :
    letI : EntryLayout := .wide
    (SessionWriteRoute.mint (.new 1) .overlay).revalidate (new 1).sealWrites.2 =
      .error (leaseClosed 0) := by
  let _ : EntryLayout := .wide
  have hnew : (lifecycles ℕ 64).Reachable (.new ℕ 64 1) := .start ⟨1, rfl⟩
  have hseal : (lifecycles ℕ 64).step (.new ℕ 64 1) ⟨0, .sealWrites, some (.ok ())⟩ _ := rfl
  obtain ⟨-, -, -, hmodes⟩ := lifecycle_safe hnew
  exact ((hmodes [] _ _ _ (.nil _) hseal ⟨rfl, nofun⟩).2 [] _ (.nil _) .overlay).1

omit [EntryLayout] in
/-- **A second seal publishes nothing**: it returns on the sealed overlay, under the mode that was,
and a route minted before it stays good. -/
theorem seal_again_keeps_mode :
    letI : EntryLayout := .wide
    ∃ overlay next : SharedOverlay ℕ, (lifecycles ℕ 64).Reachable overlay ∧
      (lifecycles ℕ 64).step overlay ⟨0, .sealWrites, some (.ok ())⟩ next ∧
      next.lifecycle.modeGeneration = overlay.lifecycle.modeGeneration ∧
      (SessionWriteRoute.mint overlay.lifecycle .base).revalidate next.lifecycle = .ok () := by
  let _ : EntryLayout := .wide
  have hseal : (lifecycles ℕ 64).step (.new ℕ 64 1) ⟨0, .sealWrites, some (.ok ())⟩ _ := rfl
  exact ⟨_, _, .step (.start ⟨1, rfl⟩) hseal, rfl, rfl, rfl⟩

end Oneiron
