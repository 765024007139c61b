import Mathlib.Order.Lattice.Nat
import Oneiron.Contracts.Error
import Oneiron.Foundations.Raising

/-!
# Deletion/WithdrawnCutoff — a withdrawn generation, and the rows that keep it

    cutoff    [generation(8) | replacement(1)]
    hw:       [id(16) | generation(8)]  -▸  the sweep it is owed
    wg:       [hex id(32)]              -▸  cutoff, once that sweep is done

Of an artifact's pending rows and its fence the newest generation stands
(`withdrawnGenerationCutoff_level`), so finishing a sweep, which deletes the row and raises the
fence, moves nothing.
-/

open Std

namespace Oneiron

open List Option

/-- What stands in history for a withdrawn generation. -/
inductive WithdrawnReplacement where
  | epochKeyframe | shell
  deriving DecidableEq

namespace WithdrawnReplacement

def tag : WithdrawnReplacement → UInt8
  | epochKeyframe => 1
  | shell => 2

def ofTag (tag : UInt8) : Option WithdrawnReplacement :=
  if tag = 1 then some epochKeyframe else if tag = 2 then some shell else none

theorem ofTag_eq_some {b : UInt8} {replacement : WithdrawnReplacement} :
    ofTag b = some replacement ↔ b = replacement.tag := by
  unfold ofTag
  constructor
  · intro h
    split at h
    · next hb =>
      obtain rfl := some.inj h
      exact hb
    · split at h
      · next hb =>
        obtain rfl := some.inj h
        exact hb
      · exact nomatch h
  · rintro rfl
    cases replacement <;> rfl

end WithdrawnReplacement

/-- An artifact's newest withdrawn generation and what stands in history for it. -/
structure WithdrawnCutoff where
  generation : UInt64
  replacement : WithdrawnReplacement
  deriving DecidableEq

namespace WithdrawnCutoff

/-- What cutoffs are raised by. -/
abbrev rank (cutoff : WithdrawnCutoff) : ℕ := cutoff.generation.toNat

def encode (cutoff : WithdrawnCutoff) : Bytes :=
  beBytes cutoff.generation ++ [cutoff.replacement.tag]

/-- `decode`: `WITHDRAWN_CUTOFF_LEN` bytes, or none. -/
def decode (bytes : Bytes) : Option WithdrawnCutoff :=
  if bytes.length = 9 then
    (bytes[8]?.bind WithdrawnReplacement.ofTag).map (⟨ofBeBytes (bytes.take 8), ·⟩)
  else none

/-- `raise`, and whether it did. -/
def raise (held other : WithdrawnCutoff) : WithdrawnCutoff × Bool :=
  if other.generation > held.generation then (other, true) else (held, false)

/-- **A cutoff is read back from its bytes, and from no others.** -/
theorem decode_eq_some_iff {bytes : Bytes} {cutoff : WithdrawnCutoff} :
    decode bytes = some cutoff ↔ bytes = cutoff.encode := by
  unfold decode encode
  constructor
  · intro h
    split at h
    · next hlen =>
      obtain ⟨replacement, hreplacement, rfl⟩ := map_eq_some_iff.mp h
      obtain ⟨b, hb, htag⟩ := bind_eq_some_iff.mp hreplacement
      rw [WithdrawnReplacement.ofTag_eq_some] at htag
      have hlast : bytes.drop 8 = [b] := by
        rw [drop_eq_getElem_cons (by omega), drop_of_length_le (by omega)]
        rw [getElem?_eq_getElem (by omega)] at hb
        rw [some.inj hb]
      rw [beBytes_ofBeBytes (by simp [hlen]), ← htag, ← hlast, take_append_drop]
    · exact nomatch h
  · rintro rfl
    have htag : (beBytes cutoff.generation ++ [cutoff.replacement.tag])[8]? =
        some cutoff.replacement.tag := by simp
    have htake : (beBytes cutoff.generation ++ [cutoff.replacement.tag]).take 8 =
        beBytes cutoff.generation := take_left' (length_beBytes _)
    rw [if_pos (by simp), htag, htake, ofBeBytes_beBytes, bind_some,
      WithdrawnReplacement.ofTag_eq_some.mpr rfl]
    rfl

theorem raise_eq_raised (held other : WithdrawnCutoff) :
    (held.raise other).1 = raised rank (some held) other := by
  unfold raise
  simp only [raised, rank, elim_some, gt_iff_lt, UInt64.lt_iff_toNat_lt]
  split <;> rfl

end WithdrawnCutoff

/-- `raise_cutoff`: what is held, raised, or the cutoff itself where none is. -/
def raiseCutoff (cutoffs : OrderedMap EntityId WithdrawnCutoff) (id : EntityId)
    (cutoff : WithdrawnCutoff) : OrderedMap EntityId WithdrawnCutoff :=
  cutoffs.insert id ((cutoffs[id]?.getD cutoff).raise cutoff).1

theorem raiseCutoff_eq (cutoffs : OrderedMap EntityId WithdrawnCutoff) (id : EntityId)
    (cutoff : WithdrawnCutoff) : raiseCutoff cutoffs id cutoff =
      cutoffs.insert id (raised WithdrawnCutoff.rank cutoffs[id]? cutoff) := by
  rw [raiseCutoff, WithdrawnCutoff.raise_eq_raised]
  cases cutoffs[id]? with
  | none => simp [raised]
  | some held => rfl

/-! ## The rows of the sweep queue -/

structure HardEraseRetryState where
  attemptCount : ℕ
  nextAttemptAt : ℕ
  lastErrorCode : Option Bytes
  queuedAt : ℕ
  deadlineAt : ℕ
  deriving DecidableEq

/-- `HARD_ERASE_SWEEP_SLA_SECS`. -/
def hardEraseSweepSlaSecs : ℕ := 30 * 86400

/-- `fresh`: due at queue time, with a deadline counted from the request. -/
def HardEraseRetryState.fresh (queuedAt requestedAt : ℕ) : HardEraseRetryState :=
  ⟨0, queuedAt, none, queuedAt, Nat.min (requestedAt + hardEraseSweepSlaSecs) (2 ^ 64 - 1)⟩

/-- What the historical sweep owes one withdrawn generation. -/
structure WithdrawnGenerationScope where
  /-- Lowercase hex of the artifact's id. -/
  artifactId : Bytes
  generation : UInt64
  replacement : WithdrawnReplacement
  deriving DecidableEq

def WithdrawnGenerationScope.cutoff (scope : WithdrawnGenerationScope) : WithdrawnCutoff :=
  ⟨scope.generation, scope.replacement⟩

structure WithdrawnGenerationSweepJob where
  scope : WithdrawnGenerationScope
  retryState : HardEraseRetryState
  deriving DecidableEq

/-- `WITHDRAWN_GENERATION_SWEEP_PREFIX`. -/
def withdrawnGenerationSweepPrefix : Bytes := ascii "hw:"

def encodeWithdrawnGenerationKey (artifact : EntityId) (generation : UInt64) : Bytes :=
  withdrawnGenerationSweepPrefix ++ artifact.asBytes ++ beBytes generation

def decodeWithdrawnGenerationKey (key : Bytes) : Option (EntityId × UInt64) :=
  if withdrawnGenerationSweepPrefix <+: key then
    let rest := key.drop 3
    if rest.length = 24 then
      (EntityId.fromBytes (rest.take 16)).map (·, ofBeBytes (rest.drop 16))
    else none
  else none

/-- **A row's key is read back, and no other key is read.** -/
theorem decodeWithdrawnGenerationKey_eq_some_iff {key : Bytes} {id : EntityId}
    {generation : UInt64} : decodeWithdrawnGenerationKey key = some (id, generation) ↔
      id.Named ∧ key = encodeWithdrawnGenerationKey id generation := by
  unfold decodeWithdrawnGenerationKey encodeWithdrawnGenerationKey
  constructor
  · intro h
    split at h
    · next hprefix =>
      obtain ⟨rest, rfl⟩ := hprefix
      have hdrop : (withdrawnGenerationSweepPrefix ++ rest).drop 3 = rest := drop_left' rfl
      simp only [hdrop] at h
      split at h
      · next hlen =>
        obtain ⟨id', hid, heq⟩ := map_eq_some_iff.mp h
        obtain ⟨rfl, rfl⟩ := Prod.mk.inj heq
        obtain ⟨hnamed, hbytes⟩ := EntityId.named_of_fromBytes hid
        refine ⟨hnamed, ?_⟩
        rw [hbytes, beBytes_ofBeBytes (by simp [hlen]), append_assoc, take_append_drop]
      · exact nomatch h
    · exact nomatch h
  · rintro ⟨hnamed, rfl⟩
    have hdrop : (withdrawnGenerationSweepPrefix ++ id.asBytes ++ beBytes generation).drop 3 =
        id.asBytes ++ beBytes generation := by
      rw [append_assoc]
      exact drop_left' rfl
    rw [if_pos ⟨id.asBytes ++ beBytes generation, by rw [append_assoc]⟩]
    simp only [hdrop]
    rw [if_pos (by simp), take_left' id.length_asBytes, drop_left' id.length_asBytes,
      EntityId.fromBytes_of_named hnamed, ofBeBytes_beBytes]
    rfl

/-- `fence_cutoff`. -/
def fenceCutoff (bytes : Bytes) : Except Error WithdrawnCutoff :=
  match WithdrawnCutoff.decode bytes with
  | some cutoff => .ok cutoff
  | none => .error (.corruptedIndex "withdrawn generation fence")

/-- `pending_cutoff`, of a row whose job decodes: a key that does not fences every generation. -/
def pendingCutoff (key : Bytes) (job : WithdrawnGenerationSweepJob) : WithdrawnCutoff :=
  ⟨(decodeWithdrawnGenerationKey key).elim 0xFFFFFFFFFFFFFFFF (·.2), job.scope.replacement⟩

end Oneiron
