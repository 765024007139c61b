import Oneiron.Authority.HolderProofSafety
import Oneiron.Foundations.XxHash32

/-!
# Authority/HolderProofRuns — what every run of a vault admits

Every step keeps `ProofVault.Sound`, and rows that refuse what they did.  So along any run each proof
is admitted at most once, and one admitted is refused ever after.
-/

open Std

namespace Oneiron

open List Nonces

open SpendJournal (recordLen)

variable {xxh32 : Bytes → UInt32} {blake3 : Bytes → Digest}

namespace ProofVault

variable {s t : ProofVault} {move : ProofMove} {moves : List ProofMove}

theorem sound_fresh (readings : Readings) : (fresh readings).Sound xxh32 blake3 where
  reads := nofun
  covered := nofun
  stage := rfl
  once := nodup_nil
  writer := nofun
  landed := nofun
  ungrouped := nofun

/-- **Every step keeps every admitted proof refused.** -/
theorem Sound.step (h : s.Sound xxh32 blake3) (hstep : ProofStep xxh32 blake3 s move t) :
    t.Sound xxh32 blake3 := by
  cases hstep with
  | tick readings =>
    exact ⟨h.reads, h.covered, h.stage.congr rfl rfl rfl rfl rfl, h.once,
      fun w hw => have hws := h.writer w hw
        ⟨hws.live, hws.follows, hws.spent, hws.staged, hws.grouped⟩, h.landed, h.ungrouped⟩
  | openEmpty owner _ hclosed hread => exact h.openEmpty owner hclosed hread
  | openJournaled owner _ hclosed hread => exact h.openJournaled owner hclosed hread
  | land hlanding => exact h.land hlanding
  | landFails hlanding _ => exact h.landFails hlanding
  | refuse hrefusing => exact h.refuse hrefusing
  | empty fault unread failed hemptying => exact h.emptied hemptying
  | beginWrite hlive hnone =>
    refine ⟨h.reads, h.covered, h.stage.congr rfl rfl rfl rfl rfl, ?_, ?_, h.landed, by simp⟩
    · have honce := h.once
      rw [admitting, hnone] at honce
      exact honce
    · rintro w ⟨⟩
      exact ⟨hlive, .refl, by simp, by simp,
        fun spend hspend hgrouped => absurd hgrouped (h.ungrouped hnone spend hspend)⟩
  | spendInWriter proof hw hjudged hrecord => exact h.spendInWriter hw hjudged hrecord
  | refusedInWriter proof hw _ hrecord => exact h.refusedInWriter hw hrecord
  | landRow hw _ _ => exact h.landRow hw
  | rowLost _ _ => exact h.requeued (by simp)
  | commit hw => exact h.committed hw
  | abort => exact h.aborted
  | landedCallback failed hlive hspend hlanded heq => exact h.landedCallback hlive hspend hlanded heq
  | @retryCallback spend hspend hfailed =>
    by_cases hagain : spend.failures + 1 < nonceSpendAttempts
    · rw [if_pos hagain]
      exact h.requeued (by simp)
    · rw [if_neg hagain]
      exact h.repended _ (fun _ hmem _ => mem_of_mem_erase hmem)
        fun _ hmem _ => mem_of_mem_erase hmem
  | spentInMemory proof now expiresAt clock fault unread snapshotFails hlive howner hchallenge hadmits =>
    exact h.spentInMemory hlive howner hchallenge
      (admission_leaves (h.live hlive).opened hadmits)
  | notInMemory proof now expiresAt clock fault unread snapshotFails hlive howner hchallenge hadmits =>
    exact h.admission hlive (admission_leaves (h.live hlive).opened hadmits)
  | noteQueued failed hlive heq =>
    have hmid : { s with nonces := { s.nonces with queuing := s.nonces.queuing - 1 } }.Sound
        xxh32 blake3 := h.remembers_same hlive (fun _ => Iff.rfl) (fun _ => id) rfl rfl
    exact hmid.truncated hlive heq
  | closeForSwap hlive =>
    exact h.remembers_same hlive (fun _ => Iff.rfl) (fun _ => id) rfl rfl
  | swap hlive _ hfence => exact h.swap hlive hfence
  | beginClockRecovery hlive _ hbegin => exact h.beginClockRecovery hlive hbegin
  | recoverProofClock hw _ hrecovers => exact h.rewritten hw (ProofTables.follows_recover hrecovers)
  | endClockRecovery => exact h.endClockRecovery
  | crash hcrash => exact h.crash hcrash

/-- **The rows committed refuse ever after what they refused.** -/
theorem Sound.follows (h : s.Sound xxh32 blake3) (hstep : ProofStep xxh32 blake3 s move t) :
    s.tables.Follows t.tables := by
  cases hstep with
  | @land replay =>
    split
    · exact .refl
    · exact ProofTables.landRecords_guards.1
  | refuse => exact (s.tables.refuseJournaledProofs_guards ..).1
  | commit hw => exact (h.writer _ hw).follows
  | _ => exact .refl

/-- No proof admitted is forgotten. -/
theorem admitted_subset (hstep : ProofStep xxh32 blake3 s move t) : s.admitted ⊆ t.admitted := by
  cases hstep with
  | commit => exact subset_append_right ..
  | spentInMemory => exact subset_cons_self ..
  | _ => exact List.Subset.refl _

/-- The calls that would admit a proof answer it refused: in memory, whatever the clock it is judged
on, and in a writer, on the clock its transaction reads. -/
structure Refuses (xxh32 : Bytes → UInt32) (blake3 : Bytes → Digest) (s : ProofVault)
    (p : HolderProof) : Prop where
  inMemory : s.stage = .live → s.owner = true → ∀ clock now expiresAt fault unread snapshotFails,
    requestChallenge p.timestamp p.nonce clock = true →
    (s.nonces.admission xxh32 fault unread snapshotFails s.tables s.readings s.lastTxn
      (.of blake3 p) now expiresAt clock s.file).1 = false
  inWriter : ∀ w, s.writer = some w →
    let judged := w.tables.admissionNow s.readings s.nonces.liveHigh
    (recordNonce blake3 judged.1 s.nonces s.owner s.lastTxn p judged.2).1 = none

/-- **An admitted proof is refused.** -/
theorem Sound.refuses (h : s.Sound xxh32 blake3) {p : HolderProof} (hp : p ∈ s.admitted)
    (htop : p.timestamp.val < U64.top) : s.Refuses xxh32 blake3 p where
  inMemory hlive howner clock now expiresAt fault unread snapshotFails hchallenge := by
    rw [Bool.eq_false_iff]
    intro hadmitted
    obtain ⟨nonces, file, hadmits⟩ : ∃ nonces file, s.nonces.admission xxh32 fault unread
        snapshotFails s.tables s.readings s.lastTxn (.of blake3 p) now expiresAt clock s.file =
          (true, nonces, file) := ⟨_, _, Prod.ext hadmitted rfl⟩
    have hs := h.spentInMemory hlive howner hchallenge
      (admission_leaves (h.live hlive).opened hadmits)
    have honce : Once (p :: s.admitted) := hs.once.of_append
    exact honce.not_mem htop hp
  inWriter w hw := by
    intro judged
    rcases hrecord : recordNonce blake3 judged.1 s.nonces s.owner s.lastTxn p judged.2 with
      ⟨after, nonces⟩
    cases after with
    | none => rfl
    | some after =>
      have honce : Once (p :: (w.spent ++ s.admitted)) := (h.spendInWriter hw rfl hrecord).once
      exact absurd (mem_append_right _ hp) (honce.not_mem htop)

end ProofVault

/-- **No holder proof is admitted twice, none admitted is admitted by any call in any later state, and
`not_before` never falls**; a proof of the last second an unsigned clock names apart. -/
theorem holder_proofs_spent_once (xxh32 : Bytes → UInt32) (blake3 : Bytes → Digest)
    {s t : ProofVault} {moves : List ProofMove} (hs : (proofSystem xxh32 blake3).Reachable s)
    (hrun : (proofSystem xxh32 blake3).Run s moves t) :
    Once t.admitted ∧ s.tables.watermark.val ≤ t.tables.watermark.val ∧
      ∀ p ∈ s.admitted, p.timestamp.val < U64.top → t.Refuses xxh32 blake3 p := by
  have hsound : s.Sound xxh32 blake3 := hs.invariant (·.Sound xxh32 blake3)
    (fun ⟨readings, hfresh⟩ => hfresh ▸ ProofVault.sound_fresh readings) ProofVault.Sound.step
  obtain ⟨ht, hfollows, hadmitted⟩ := hrun.preserves
    (fun t => t.Sound xxh32 blake3 ∧ s.tables.Follows t.tables ∧ s.admitted ⊆ t.admitted)
    (fun ⟨h, hfollows, hadmitted⟩ hstep => ⟨h.step hstep, hfollows.trans (h.follows hstep),
      fun _ hp => ProofVault.admitted_subset hstep (hadmitted hp)⟩)
    ⟨hsound, .refl, List.Subset.refl _⟩
  exact ⟨ht.once.of_append, hfollows.watermark, fun p hp htop => ht.refuses (hadmitted hp) htop⟩

section Runs

/-- A nonce of zeros, under a binding key of zero bytes. -/
def zeroProof (timestamp : U64) : HolderProof :=
  ⟨List.replicate 32 0, List.replicate 32 48, timestamp⟩

/-- The BLAKE3 hash of a zero proof's binding key and nonce. -/
def zeroDigest : Digest :=
  ⟨[200, 127, 131, 167, 85, 135, 209, 88, 173, 248, 233, 112, 12, 181, 254, 101, 126, 27, 232, 208,
    9, 63, 129, 176, 240, 206, 188, 99, 21, 87, 122, 29], rfl⟩

abbrev zeroSystem : System ProofVault ProofMove := proofSystem XxHash32.hash fun _ => zeroDigest

/-- A call that writes, and what it writes. -/
theorem eq_of_isSome {α β : Type} {ran : Option α × β} (h : ran.1.isSome = true) :
    ran = (some (ran.1.get h), ran.2) := Prod.ext (Option.some_get h).symm rfl

/-- The journal with one record of a zero proof, spent at its own second. -/
def zeroJournal (time : U64) : SpendJournal.File :=
  ⟨true, SpendJournal.recordCells XxHash32.hash ⟨⟨time, zeroDigest⟩, 60, time, time⟩, []⟩

/-- A vault whose owner spent a zero proof in memory at its own second. -/
def zeroSpent (time : U64) (nonces : Nonces) : ProofVault :=
  { ProofVault.fresh ⟨time, 0⟩ with
    stage := .live
    owner := true
    nonces := nonces
    file := some (zeroJournal time)
    pending := [⟨⟨time, zeroDigest⟩, time, 0, .queued⟩]
    admitted := [zeroProof time] }

theorem reachable_zeroSpent {time : U64} {nonces : Nonces}
    (hchallenge : requestChallenge time (zeroProof time).nonce ⟨time, 0⟩ = true)
    (hspends : Nonces.new.admission XxHash32.hash none false false .empty ⟨time, 0⟩ 0
      ⟨time, zeroDigest⟩ 0 0 ⟨time, 0⟩ none = (true, nonces, some (zeroJournal time))) :
    zeroSystem.Reachable (zeroSpent time nonces) := by
  have hfresh : zeroSystem.Reachable (.fresh ⟨time, 0⟩) := .start ⟨_, rfl⟩
  have hopened := hfresh.step (.openEmpty true 0 rfl rfl)
  exact hopened.step
    (.spentInMemory (zeroProof time) 0 0 ⟨time, 0⟩ none false false rfl rfl hchallenge hspends)

/-- The journal outlasts a crash. -/
theorem zeroSpent_crash (time : U64) (nonces : Nonces) :
    zeroSystem.step (zeroSpent time nonces) .crash
      ((zeroSpent time nonces).ended (some (zeroJournal time))) :=
  .crash (.synced true _)

/-- A spend at second 1000, a crash, and the open that lands it. -/
theorem holder_proofs_spent_once_crash : ∃ s t moves, zeroSystem.Run s moves t ∧
    zeroProof 1000 ∈ s.admitted ∧ t.stage = .live ∧ Once t.admitted ∧
    s.tables.watermark.val ≤ t.tables.watermark.val ∧
    ∀ p ∈ s.admitted, p.timestamp.val < U64.top →
      t.Refuses XxHash32.hash (fun _ => zeroDigest) p := by
  obtain ⟨nonces, hspends⟩ : ∃ nonces, Nonces.new.admission XxHash32.hash none false false .empty
      ⟨1000, 0⟩ 0 ⟨1000, zeroDigest⟩ 0 0 ⟨1000, 0⟩ none =
        (true, nonces, some (zeroJournal 1000)) := ⟨_, rfl⟩
  have hs := reachable_zeroSpent (by decide) hspends
  have hrun := System.Run.cons (zeroSpent_crash 1000 nonces)
    (.cons (.openJournaled true 0 rfl rfl)
      (.cons (.land rfl) (.cons (.empty none false false rfl) (.nil _))))
  exact ⟨_, _, _, hrun, mem_cons_self, rfl,
    holder_proofs_spent_once XxHash32.hash (fun _ => zeroDigest) hs hrun⟩

/-- **A proof of the last second is let in again**: its replay fails to land it, and no watermark an
unsigned clock can hold is past it. -/
theorem holder_proof_last_second : ¬∀ s, zeroSystem.Reachable s → s.admitted.Nodup := by
  intro h
  obtain ⟨nonces, hspends⟩ : ∃ nonces, Nonces.new.admission XxHash32.hash none false false .empty
      ⟨18446744073709551615, 0⟩ 0 ⟨18446744073709551615, zeroDigest⟩ 0 0 ⟨18446744073709551615, 0⟩
      none = (true, nonces, some (zeroJournal 18446744073709551615)) := ⟨_, rfl⟩
  have hs := reachable_zeroSpent (by decide) hspends
  have hcrashed : zeroSystem.Reachable
      { ProofVault.fresh ⟨18446744073709551615, 0⟩ with
        owner := true
        file := some (zeroJournal 18446744073709551615)
        admitted := [zeroProof 18446744073709551615] } := hs.step (zeroSpent_crash _ nonces)
  have hopened := hcrashed.step (.openJournaled true 0 rfl rfl)
  have hrefusing := hopened.step (.landFails rfl nofun)
  have hrefused := hrefusing.step (.refuse rfl)
  have hlive := hrefused.step (.empty none false false rfl)
  have hwriting := hlive.step (.beginWrite rfl rfl)
  have hspent := hwriting.step
    (.spendInWriter (zeroProof 18446744073709551615) rfl rfl (eq_of_isSome (by decide +kernel)))
  have htwice := h _ (hspent.step (.commit rfl))
  exact (nodup_cons.mp htwice).1 mem_cons_self

end Runs

end Oneiron
