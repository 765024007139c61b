import Mathlib.Data.Prod.Lex
import Oneiron.Contracts.EntityId
import Oneiron.Foundations.Raising

/-!
# Compaction/EpochFloor — where a removed epoch summary leaves the count

A lineage is a session's own log, or one conversation's turns within it.  Its floor is the highest
removed epoch and the turn that one ended at; a floor only rises (`level_raiseEpochScopeFloor`).
-/

open Std

namespace Oneiron

/-- A lineage epochs are counted in. -/
@[ext] structure EpochScope where
  session : EntityId
  conversation : Option EntityId
  deriving DecidableEq

namespace EpochScope

/-- `[session(16)]`, then `[conversation(16)]` for a conversation's lineage. -/
def asBytes (scope : EpochScope) : Bytes :=
  scope.session.asBytes ++ scope.conversation.elim [] (·.asBytes)

theorem asBytes_injective : Function.Injective asBytes := by
  rintro ⟨a, c⟩ ⟨b, d⟩ h
  obtain ⟨hsession, hconversation⟩ := List.append_inj h (by simp)
  refine EpochScope.ext (EntityId.ext hsession) ?_
  match c, d with
  | none, none => rfl
  | some c, some d => exact congrArg some (EntityId.ext hconversation)
  | none, some d | some c, none => exact absurd (congrArg List.length hconversation) (by simp)

instance : Ord EpochScope := ⟨compareOn asBytes⟩

instance : TransOrd EpochScope := inferInstanceAs (TransCmp (compareOn asBytes))

instance : LawfulEqOrd EpochScope where
  compare_self {scope} := (ReflOrd.compare_self : compare scope.asBytes scope.asBytes = .eq)
  eq_of_compare {a b} h :=
    asBytes_injective (LawfulEqOrd.eq_of_compare (show compare a.asBytes b.asBytes = .eq from h))

end EpochScope

/-- The highest removed epoch of one lineage and the turn it ended at. -/
structure EpochFloor where
  epoch : UInt64
  turnEnd : UInt64
  deriving DecidableEq

namespace EpochFloor

/-- What floors are raised by: the epoch, then the turn it ended at. -/
def position (floor : EpochFloor) : ℕ ×ₗ ℕ := toLex (floor.epoch.toNat, floor.turnEnd.toNat)

theorem position_injective : Function.Injective position := by
  rintro ⟨epoch, turnEnd⟩ ⟨epoch', turnEnd'⟩ h
  obtain ⟨hepoch, hturnEnd⟩ := Prod.mk.inj (toLex.injective h)
  exact EpochFloor.mk.injEq .. ▸ ⟨UInt64.toNat_inj.mp hepoch, UInt64.toNat_inj.mp hturnEnd⟩

/-- The higher of two floors of one lineage, as positions are ordered. -/
def max (held floor : EpochFloor) : EpochFloor :=
  if held.position ≤ floor.position then floor else held

theorem max_eq_raised (held floor : EpochFloor) : held.max floor = raised position (some held) floor := by
  rw [max, raised, Option.elim_some]
  rcases Std.lt_trichotomy held.position floor.position with hlt | heq | hgt
  · rw [if_pos hlt.le, if_pos hlt]
  · rw [position_injective heq, if_pos le_rfl, if_neg (Std.lt_irrefl)]
  · rw [if_neg (Std.not_le_of_gt hgt), if_neg hgt.not_gt]

/-- `encode_floor`. -/
def encode (floor : EpochFloor) : Bytes := beBytes floor.epoch ++ beBytes floor.turnEnd

/-- `decode_floor`. -/
def decode (bytes : Bytes) : Option EpochFloor :=
  if bytes.length = 16 then some ⟨ofBeBytes (bytes.take 8), ofBeBytes (bytes.drop 8)⟩ else none

/-- **A floor is read back from its bytes, and from no others.** -/
theorem decode_eq_some_iff {bytes : Bytes} {floor : EpochFloor} :
    decode bytes = some floor ↔ bytes = floor.encode := by
  unfold decode encode
  constructor
  · intro h
    split at h
    · next hlen =>
      obtain rfl := Option.some.inj h
      rw [beBytes_ofBeBytes (by simp [hlen]), beBytes_ofBeBytes (by simp [hlen]),
        List.take_append_drop]
    · exact nomatch h
  · rintro rfl
    rw [if_pos (by simp), List.take_left' (length_beBytes _), List.drop_left' (length_beBytes _),
      ofBeBytes_beBytes, ofBeBytes_beBytes]

end EpochFloor

/-- `raise_epoch_scope_floor_in_txn`: a held floor at or above this one stays. -/
def raiseEpochScopeFloor (floors : OrderedMap EpochScope EpochFloor) (scope : EpochScope)
    (floor : EpochFloor) : OrderedMap EpochScope EpochFloor :=
  if floors[scope]?.any (floor.position ≤ ·.position) then floors else floors.insert scope floor

/-- **A floor raised** is the higher of what it was and what comes, and no other floor moves. -/
theorem level_raiseEpochScopeFloor (floors : OrderedMap EpochScope EpochFloor) (scope : EpochScope)
    (floor : EpochFloor) (other : EpochScope) :
    level EpochFloor.position (raiseEpochScopeFloor floors scope floor)[other]? =
      level EpochFloor.position floors[other]? ⊔
        if scope = other then (floor.position : WithBot (ℕ ×ₗ ℕ)) else ⊥ := by
  unfold raiseEpochScopeFloor
  split
  · next hheld =>
    refine (sup_eq_left.mpr ?_).symm
    split
    · next heq =>
      subst heq
      cases hfloor : floors[scope]? with
      | none => simp [hfloor] at hheld
      | some held =>
        simp only [hfloor, Option.any_some, decide_eq_true_eq] at hheld
        exact WithBot.coe_le_coe.mpr hheld
    · exact bot_le
  · next hheld =>
    rw [ExtTreeMap.getElem?_insert]
    simp only [LawfulEqCmp.compare_eq_iff_eq]
    split
    · next heq =>
      subst heq
      refine (sup_eq_right.mpr ?_).symm
      cases hfloor : floors[scope]? with
      | none => exact bot_le
      | some held =>
        simp only [hfloor, Option.any_some, decide_eq_true_eq] at hheld
        exact WithBot.coe_le_coe.mpr (Std.le_of_not_ge hheld)
    · exact (sup_bot_eq _).symm

end Oneiron
