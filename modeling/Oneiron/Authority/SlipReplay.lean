import Mathlib.Data.List.TakeWhile
import Oneiron.Contracts.Bytes
import Oneiron.Foundations.EachKey
import Oneiron.Foundations.Saturating

/-!
# Authority/SlipReplay — the nonce rows of holder proofs, and the clock they are judged on

    forgotten  <  not_before  ≤  … kept rows …  ≤  now ± 60

A proof is admitted within a minute of the proof clock and at or past `not_before`; its row is kept
until the clock is a day past it, and `not_before` rises past every row let go.  So a proof on record,
or once on record, is `Guarded` in every later state of the tables, however the clock moves.
-/

open Std

namespace Oneiron

open List

/-- How far, either way, a proof's signed time may sit from the proof clock. -/
def windowSecs : U64 := 60

/-- How long behind the proof clock a nonce row is kept. -/
def retainSecs : U64 := 86400

instance : Ord U64 := ⟨compareOn U64.val⟩

instance : TransOrd U64 := inferInstanceAs (TransCmp (compareOn U64.val))

/-- One spent holder proof, as its nonce row names it. -/
@[ext] structure SpentKey where
  timestamp : U64
  digest : Digest
  deriving DecidableEq

namespace SpentKey

/-- The spelling rows are kept in the order of. -/
def row (k : SpentKey) : ℕ × Bytes := (k.timestamp.val, k.digest.bytes)

instance : Ord SpentKey := ⟨compareOn row⟩

instance : TransOrd SpentKey := inferInstanceAs (TransCmp (compareOn row))

instance : LawfulEqOrd SpentKey where
  compare_self {k} := (ReflOrd.compare_self : compare k.row k.row = .eq)
  eq_of_compare {a b} h := by
    have hrow : a.row = b.row := LawfulEqOrd.eq_of_compare (show compare a.row b.row = .eq from h)
    obtain ⟨htime, hdigest⟩ := Prod.mk.inj hrow
    exact SpentKey.ext (U64.ext htime) (Digest.ext hdigest)

/-- Rows earlier in order were signed no later. -/
theorem timestamp_le_of_lt {a b : SpentKey} (h : compare a b = .lt) :
    a.timestamp.val ≤ b.timestamp.val := by
  change compare a.row b.row = .lt at h
  rw [compare_pair] at h
  rcases Nat.lt_or_ge b.timestamp.val a.timestamp.val with hlt | hle
  · have hgt : compare a.row.1 b.row.1 = .gt := Nat.compare_eq_gt.mpr hlt
    rw [hgt] at h
    cases h
  · exact hle

end SpentKey

/-- A holder proof, as a request presents it. -/
structure HolderProof where
  bindingKey : Bytes
  nonce : Bytes
  timestamp : U64
  deriving DecidableEq

/-- The proof's key under a hash. -/
def SpentKey.of (blake3 : Bytes → Digest) (proof : HolderProof) : SpentKey :=
  ⟨proof.timestamp, blake3 (proof.bindingKey ++ proof.nonce)⟩

/-- The clock a holder proof is judged on, as one transaction reads it. -/
structure ProofClock where
  now : U64
  notBefore : U64
  deriving DecidableEq

/-- The committed rows a proof is judged on. -/
structure ProofTables where
  /-- `REPLAY_NONCE`. -/
  rows : OrderedSet SpentKey
  /-- `PROOF_CLOCK_FLOOR`. -/
  floor : Option U64
  /-- `PROOF_NOT_BEFORE`. -/
  notBefore : Option U64

/-- The clocks outside: the host's wall, and the floor an absent proof floor stands on. -/
structure Readings where
  wall : U64
  authorizationFloor : U64

namespace ProofTables

def empty : ProofTables := ⟨∅, none, none⟩

variable (tables : ProofTables) (readings : Readings)

/-- `proof_floor_in_txn`. -/
def proofFloor : U64 := tables.floor.getD readings.authorizationFloor

/-- `not_before` as a reader takes it. -/
def watermark : U64 := tables.notBefore.getD 0

/-- `request_now_in_txn`: no earlier than the highest clock an in-memory spend was judged on. -/
def requestNow (proofHigh : U64) : ProofClock :=
  ⟨((tables.proofFloor readings).max readings.wall).max proofHigh, tables.watermark⟩

/-- `admission_now_in_txn`: the reading is committed as the floor. -/
def admissionNow (proofHigh : U64) : ProofTables × ProofClock :=
  let clock := tables.requestNow readings proofHigh
  ({ tables with floor := some clock.now }, clock)

end ProofTables

/-- `request_challenge`, whether it gives a challenge. -/
def requestChallenge (timestamp : U64) (nonce : Bytes) (clock : ProofClock) : Bool :=
  decide (clock.now.val ≤ timestamp.val + windowSecs.val) &&
    decide (timestamp.val ≤ clock.now.val + windowSecs.val) &&
    decide (clock.notBefore.val ≤ timestamp.val) && decide (nonce.length = 32) &&
    nonce.all fun b => (48 ≤ b && b ≤ 57) || (97 ≤ b && b ≤ 102)

/-- `not_before` for a vault whose admissions kept no mark. -/
def unmarkedNotBefore (oldest : Option U64) (now : U64) : U64 :=
  oldest.elim 0 fun oldest => oldest.min (now.satSub windowSecs)

/-- The signed time of the first row. -/
def ProofTables.oldest (tables : ProofTables) : Option U64 := tables.rows.toList.head?.map (·.timestamp)

/-- `put_nonce_row_in_txn`: the rows past keeping go, `not_before` rises past them, and the proof's own
row is put; false when it is there already. -/
def ProofTables.putNonceRow (tables : ProofTables) (spent : SpentKey) (clock : ProofClock) :
    ProofTables × Bool :=
  let floor := clock.now.satSub retainSecs
  let expired := tables.rows.toList.takeWhile fun key => decide (key.timestamp.val < floor.val)
  let kept := tables.notBefore.getD (unmarkedNotBefore tables.oldest clock.now)
  let evicted := expired.getLast?.elim kept fun newest => kept.max (newest.timestamp.satAdd 1)
  let late := decide (spent.timestamp.val < floor.val)
  let notBefore := if late then evicted.max (spent.timestamp.satAdd 1) else evicted
  let rows := expired.foldl (fun rows key => rows.erase key) tables.rows
  let tables := { tables with rows := rows, notBefore := some notBefore }
  if late then (tables, true)
  else if spent ∈ rows then (tables, false)
  else ({ tables with rows := rows.insert spent }, true)

/-- `recover_proof_clock`, as its writer sees it; none when it changes nothing. -/
def ProofTables.recoverProofClock (tables : ProofTables) (readings : Readings) :
    Option ProofTables :=
  let floor := tables.proofFloor readings
  let forgottenBefore := tables.notBefore.getD (unmarkedNotBefore tables.oldest floor)
  if floor.val ≤ readings.wall.val then none
  else if (readings.wall.satAdd windowSecs).val < forgottenBefore.val then none
  else
    some { tables with
      floor := some readings.wall
      notBefore := some (forgottenBefore.max readings.wall) }

/-! ### What stays refused -/

/-- A proof on record, or signed before every proof still let in. -/
def ProofTables.Guarded (tables : ProofTables) (k : SpentKey) : Prop :=
  k ∈ tables.rows ∨ k.timestamp.val < tables.watermark.val

/-- Tables that refuse what others did: no watermark is lower, and what was guarded is. -/
structure ProofTables.Follows (before after : ProofTables) : Prop where
  watermark : before.watermark.val ≤ after.watermark.val
  guarded : ∀ k, before.Guarded k → after.Guarded k

namespace ProofTables

variable {tables before after : ProofTables} {spent k : SpentKey} {clock : ProofClock}

theorem Follows.refl : tables.Follows tables := ⟨le_rfl, fun _ => id⟩

theorem Follows.trans {last : ProofTables} (h : before.Follows after) (h' : after.Follows last) :
    before.Follows last :=
  ⟨h.watermark.trans h'.watermark, fun k hk => h'.guarded k (h.guarded k hk)⟩

/-- Tables with the same rows follow where the watermark does not fall. -/
theorem Follows.of_rows (hrows : after.rows = before.rows)
    (hle : before.watermark.val ≤ after.watermark.val) : before.Follows after where
  watermark := hle
  guarded _ := Or.imp (hrows ▸ ·) (·.trans_le hle)

variable (readings : Readings) (high : U64)

theorem follows_admissionNow :
    tables.Follows (tables.admissionNow readings high).1 := .of_rows rfl le_rfl

theorem follows_recover {readings : Readings}
    (h : tables.recoverProofClock readings = some after) : tables.Follows after := by
  rw [recoverProofClock] at h
  split at h
  · cases h
  split at h
  · cases h
  obtain rfl := Option.some.inj h
  refine .of_rows rfl ?_
  show tables.watermark.val ≤ U64.val (U64.max _ _)
  rw [U64.val_max, watermark]
  cases tables.notBefore with
  | none => exact Nat.zero_le _
  | some kept => exact Nat.le_max_left ..

/-- The rows let go are signed no later than the newest of them. -/
theorem timestamp_le_newest {p : SpentKey → Bool} {newest : SpentKey}
    (hnewest : (tables.rows.toList.takeWhile p).getLast? = some newest)
    (hk : k ∈ tables.rows.toList.takeWhile p) : k.timestamp.val ≤ newest.timestamp.val := by
  have hsorted : (tables.rows.toList.takeWhile p).Pairwise fun a b => compare a b = .lt :=
    ExtTreeSet.ordered_toList.sublist (takeWhile_sublist p)
  obtain ⟨earlier, heq⟩ := getLast?_eq_some_iff.mp hnewest
  rw [heq] at hk hsorted
  rcases mem_append.mp hk with hk | hk
  · exact SpentKey.timestamp_le_of_lt
      ((pairwise_append.mp hsorted).2.2 k hk newest mem_cons_self)
  · obtain rfl := mem_singleton.mp hk
    exact le_rfl

section Put

variable (tables : ProofTables) (spent : SpentKey) (clock : ProofClock)

/-- The rows a put lets go. -/
def expired : List SpentKey :=
  tables.rows.toList.takeWhile fun key =>
    decide (key.timestamp.val < (clock.now.satSub retainSecs).val)

/-- The watermark past the rows let go. -/
def evicted : U64 :=
  let kept := tables.notBefore.getD (unmarkedNotBefore tables.oldest clock.now)
  (tables.expired clock).getLast?.elim kept fun newest => kept.max (newest.timestamp.satAdd 1)

/-- The rows kept. -/
def keptRows : OrderedSet SpentKey :=
  (tables.expired clock).foldl (fun rows key => rows.erase key) tables.rows

variable {tables spent clock}

/-- **What a put does**: a late proof raises the watermark, one on record changes no row, and any other
is put on record. -/
theorem putNonceRow_cases (tables : ProofTables) (spent : SpentKey) (clock : ProofClock) :
    (spent.timestamp.val < (clock.now.satSub retainSecs).val ∧
      tables.putNonceRow spent clock = ({ tables with
        rows := tables.keptRows clock
        notBefore := some ((tables.evicted clock).max (spent.timestamp.satAdd 1)) }, true)) ∨
    (clock.now.satSub retainSecs).val ≤ spent.timestamp.val ∧
      ((spent ∈ tables.keptRows clock ∧ tables.putNonceRow spent clock = ({ tables with
          rows := tables.keptRows clock
          notBefore := some (tables.evicted clock) }, false)) ∨
        (spent ∉ tables.keptRows clock ∧ tables.putNonceRow spent clock = ({ tables with
          rows := (tables.keptRows clock).insert spent
          notBefore := some (tables.evicted clock) }, true))) := by
  by_cases hlate : spent.timestamp.val < (clock.now.satSub retainSecs).val
  · refine Or.inl ⟨hlate, ?_⟩
    unfold putNonceRow
    simp only [decide_eq_true hlate, if_true]
    rfl
  · refine Or.inr ⟨Nat.not_lt.mp hlate, ?_⟩
    unfold putNonceRow
    simp only [decide_eq_false hlate, Bool.false_eq_true, if_false]
    by_cases hon : spent ∈ tables.keptRows clock
    · exact Or.inl ⟨hon, if_pos hon⟩
    · exact Or.inr ⟨hon, if_neg hon⟩

/-- A time behind the rows kept is before the second after it. -/
theorem timestamp_lt_succ {bound : U64} (h : k.timestamp.val < bound.val) :
    k.timestamp.val < (k.timestamp.satAdd 1).val := by
  have hle : k.timestamp.val + (1 : U64).val ≤ U64.top := Nat.lt_of_lt_of_le h bound.le
  rw [U64.val_satAdd_of_le hle]
  exact Nat.lt_succ_self _

theorem timestamp_lt_of_takeWhile {bound : ℕ} {l : List SpentKey}
    (hk : k ∈ l.takeWhile fun key => decide (key.timestamp.val < bound)) :
    k.timestamp.val < bound := by
  simpa using mem_takeWhile_imp hk

theorem timestamp_lt_of_expired (hk : k ∈ tables.expired clock) :
    k.timestamp.val < (clock.now.satSub retainSecs).val := timestamp_lt_of_takeWhile hk

theorem watermark_le_evicted : tables.watermark.val ≤ (tables.evicted clock).val := by
  have hkept : tables.watermark.val ≤
      (tables.notBefore.getD (unmarkedNotBefore tables.oldest clock.now)).val := by
    rw [watermark]
    cases tables.notBefore with
    | none => exact Nat.zero_le _
    | some kept => exact le_rfl
  refine hkept.trans ?_
  rw [evicted]
  cases (tables.expired clock).getLast? with
  | none => exact le_rfl
  | some newest => exact U64.val_max .. ▸ Nat.le_max_left ..

/-- **The watermark is past every row let go.** -/
theorem lt_evicted (hk : k ∈ tables.expired clock) :
    k.timestamp.val < (tables.evicted clock).val := by
  cases hnewest : (tables.expired clock).getLast? with
  | none => simp [getLast?_eq_none_iff.mp hnewest] at hk
  | some newest =>
    have hlast := timestamp_lt_succ (timestamp_lt_of_expired (mem_of_getLast? hnewest))
    rw [evicted, hnewest, Option.elim_some, U64.val_max]
    exact lt_max_of_lt_right ((timestamp_le_newest hnewest hk).trans_lt hlast)

/-- Tables that keep the rows kept, with the watermark past those let go, refuse what was refused. -/
theorem Follows.of_kept (hrows : ∀ k ∈ tables.keptRows clock, k ∈ after.rows)
    (hle : (tables.evicted clock).val ≤ after.watermark.val) : tables.Follows after where
  watermark := watermark_le_evicted.trans hle
  guarded k hk := by
    rcases hk with hrow | hlt
    · by_cases hexpired : k ∈ tables.expired clock
      · exact Or.inr ((lt_evicted hexpired).trans_le hle)
      · exact Or.inl (hrows k (OrderedSet.mem_foldl_erase.mpr ⟨hrow, hexpired⟩))
    · exact Or.inr (hlt.trans_le (watermark_le_evicted.trans hle))

/-- **A put keeps refusing what was refused, and refuses the proof it was for.** -/
theorem putNonceRow_guards (tables : ProofTables) (spent : SpentKey) (clock : ProofClock) :
    tables.Follows (tables.putNonceRow spent clock).1 ∧
      (tables.putNonceRow spent clock).1.Guarded spent := by
  rcases putNonceRow_cases tables spent clock with
    ⟨hlate, heq⟩ | ⟨-, ⟨hon, heq⟩ | ⟨-, heq⟩⟩ <;> rw [heq]
  · refine ⟨.of_kept (fun _ => id) ?_, Or.inr ?_⟩
    · exact U64.val_max .. ▸ Nat.le_max_left ..
    · exact (timestamp_lt_succ hlate).trans_le (U64.val_max .. ▸ Nat.le_max_right ..)
  · exact ⟨.of_kept (fun _ => id) le_rfl, Or.inl hon⟩
  · exact ⟨.of_kept (fun _ hk => ExtTreeSet.mem_insert.mpr (Or.inr hk)) le_rfl,
      Or.inl ExtTreeSet.mem_insert_self⟩

/-- **A proof refused before is not put on record again**, while it is within the window. -/
theorem putNonceRow_refuses {nonce : Bytes} (hguarded : tables.Guarded spent)
    (hchallenge : requestChallenge spent.timestamp nonce clock = true)
    (hclock : clock.notBefore = tables.watermark) : (tables.putNonceRow spent clock).2 = false := by
  simp only [requestChallenge, Bool.and_eq_true, decide_eq_true_eq] at hchallenge
  obtain ⟨⟨⟨⟨hnow, -⟩, hnotBefore⟩, -⟩, -⟩ := hchallenge
  rw [hclock] at hnotBefore
  have hrow : spent ∈ tables.rows := hguarded.resolve_right (Nat.not_lt.mpr hnotBefore)
  have hkept : (clock.now.satSub retainSecs).val ≤ spent.timestamp.val := by
    have hwindow : windowSecs.val = 60 := rfl
    have hretain : retainSecs.val = 86400 := rfl
    rw [U64.val_satSub]
    omega
  have hon : spent ∈ tables.keptRows clock :=
    OrderedSet.mem_foldl_erase.mpr
      ⟨hrow, fun hexpired => absurd (timestamp_lt_of_expired hexpired) (Nat.not_lt.mpr hkept)⟩
  rcases putNonceRow_cases tables spent clock with
    ⟨hlate, -⟩ | ⟨-, ⟨-, heq⟩ | ⟨hoff, -⟩⟩
  · exact absurd hlate (Nat.not_lt.mpr hkept)
  · rw [heq]
  · exact absurd hon hoff

end Put

end ProofTables

end Oneiron
