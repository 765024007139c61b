import Oneiron.Contracts.EntityId

/-!
# Authority/WorldPrivacy — a world's settings, and the lattice their meets live in

Each part of a meet is joined on its own: the machines a one-machine pick names by intersection, the
machines that contend by union, sealed copies by the stricter, and model orders by equality.  So the
meet is a semilattice, and what lies lower in it reads no wider (`effective_within`).
-/

open Std

namespace Oneiron

open ExtTreeSet

inductive ReadLocation where
  | oneMachine (machine : EntityId)
  | myMachines
  | everywhere
  deriving DecidableEq

/-- Where sealed copies of a world may rest, strictest first. -/
inductive SealedCopies where
  | off | myMachines | cloudAndMyMachines
  deriving DecidableEq

inductive ModelOrder where
  | inherit
  | ordered (routes : List Bytes)
  deriving DecidableEq

/-- One world's settings, as one edit states them in full. -/
structure WorldPrivacy where
  read : ReadLocation
  sealed : SealedCopies
  models : ModelOrder
  deriving DecidableEq

/-- A new world is readable everywhere, with sealed copies on the cloud and the owner's machines. -/
def WorldPrivacy.default : WorldPrivacy := ⟨.everywhere, .cloudAndMyMachines, .inherit⟩

inductive EffectiveModelOrder where
  | inherit
  | ordered (routes : List Bytes)
  /-- Concurrent edits named different orders. -/
  | conflicted
  deriving DecidableEq

inductive EffectiveRead where
  | everywhere
  | myMachines
  | oneMachine (machine : EntityId)
  | conflicted (contenders : OrderedSet EntityId)
  deriving DecidableEq

structure EffectiveWorldPrivacy where
  read : EffectiveRead
  sealed : SealedCopies
  models : EffectiveModelOrder
  deriving DecidableEq

/-- `readable`, on a machine destination or another. -/
def readable (read : EffectiveRead) (destination : Option EntityId) (isMine : EntityId → Bool) :
    Bool :=
  let machine := destination.filter isMine
  match read with
  | .everywhere => true
  | .myMachines => machine.isSome
  | .oneMachine only => machine = some only
  | .conflicted _ => false

/-- The settings lattice one edit, or a meet of edits, stands for. -/
@[ext] structure PrivacyMeet where
  /-- The machines every one-machine pick in the meet names, if there is a pick. -/
  named : Option (OrderedSet EntityId)
  mineOnly : Bool
  /-- Every machine any one-machine pick in the meet named. -/
  contenders : OrderedSet EntityId
  sealed : SealedCopies
  models : EffectiveModelOrder
  one_named : ∀ machines ∈ named, machines.size ≤ 1
  deriving DecidableEq

namespace SealedCopies

/-- How much is allowed. -/
def rank : SealedCopies → ℕ
  | off => 0
  | myMachines => 1
  | cloudAndMyMachines => 2

theorem rank_injective : Function.Injective rank := by
  rintro (_ | _ | _) (_ | _ | _) h <;> first | rfl | exact nomatch h

/-- The stricter. -/
def min (a b : SealedCopies) : SealedCopies := if a.rank ≤ b.rank then a else b

theorem rank_min (a b : SealedCopies) : (a.min b).rank = Min.min a.rank b.rank := by
  unfold min
  split
  · next h => exact (Nat.min_eq_left h).symm
  · next h => exact (Nat.min_eq_right (Nat.le_of_not_le h)).symm

theorem min_comm (a b : SealedCopies) : a.min b = b.min a := by
  apply rank_injective
  rw [rank_min, rank_min, Nat.min_comm]

theorem min_assoc (a b c : SealedCopies) : (a.min b).min c = a.min (b.min c) := by
  apply rank_injective
  rw [rank_min, rank_min, rank_min, rank_min, Nat.min_assoc]

theorem min_self (a : SealedCopies) : a.min a = a := by
  apply rank_injective
  rw [rank_min, Nat.min_self]

end SealedCopies

namespace PrivacyMeet

/-- What both picks name. -/
def meetNamed : Option (OrderedSet EntityId) → Option (OrderedSet EntityId) →
    Option (OrderedSet EntityId)
  | left, none => left
  | none, some right => some right
  | some left, some right => some (left ∩ right)

/-- The order both name, if they do. -/
def meetModels (a b : EffectiveModelOrder) : EffectiveModelOrder :=
  if a = b then a else .conflicted

theorem size_meetNamed {a b : Option (OrderedSet EntityId)} (ha : ∀ s ∈ a, s.size ≤ 1)
    (hb : ∀ s ∈ b, s.size ≤ 1) : ∀ s ∈ meetNamed a b, s.size ≤ 1 := by
  intro s hs
  match a, b with
  | _, none => exact ha s hs
  | none, some _ => exact hb s hs
  | some left, some right =>
    obtain rfl := Option.some.inj hs
    exact size_inter_le_size_left.trans (ha left rfl)

/-- `of`. -/
def of (settings : WorldPrivacy) : PrivacyMeet where
  named := match settings.read with
    | .oneMachine machine => some {machine}
    | _ => none
  mineOnly := settings.read = .myMachines
  contenders := match settings.read with
    | .oneMachine machine => {machine}
    | _ => ∅
  sealed := settings.sealed
  models := match settings.models with
    | .inherit => .inherit
    | .ordered routes => .ordered routes
  one_named machines h := by
    split at h
    · obtain rfl := Option.some.inj h
      exact size_insert_le
    · exact absurd h (Option.not_mem_none _)

/-- `meet_with`. -/
def meet (left right : PrivacyMeet) : PrivacyMeet where
  named := meetNamed left.named right.named
  mineOnly := left.mineOnly || right.mineOnly
  contenders := left.contenders ∪ right.contenders
  sealed := left.sealed.min right.sealed
  models := meetModels left.models right.models
  one_named := size_meetNamed left.one_named right.one_named

/-- `effective`. -/
def effective (meet : PrivacyMeet) : EffectiveWorldPrivacy where
  read := match meet.named with
    | none => if meet.mineOnly then .myMachines else .everywhere
    | some named => match named.toList with
      | [only] => .oneMachine only
      | _ => .conflicted meet.contenders
  sealed := meet.sealed
  models := meet.models

/-! ## The semilattice -/

theorem meetNamed_comm (a b : Option (OrderedSet EntityId)) : meetNamed a b = meetNamed b a := by
  match a, b with
  | none, none | none, some _ | some _, none => rfl
  | some left, some right =>
    refine congrArg some (ext_mem fun k => ?_)
    rw [mem_inter_iff, mem_inter_iff, and_comm]

theorem meetNamed_assoc (a b c : Option (OrderedSet EntityId)) :
    meetNamed (meetNamed a b) c = meetNamed a (meetNamed b c) := by
  match a, b, c with
  | none, none, none | none, none, some _ | none, some _, none | some _, none, none
  | some _, none, some _ | none, some _, some _ | some _, some _, none => rfl
  | some l, some m, some n =>
    refine congrArg some (ext_mem fun k => ?_)
    rw [mem_inter_iff, mem_inter_iff, mem_inter_iff,
      mem_inter_iff, and_assoc]

theorem meetNamed_self (a : Option (OrderedSet EntityId)) : meetNamed a a = a := by
  match a with
  | none => rfl
  | some s =>
    refine congrArg some (ext_mem fun k => ?_)
    rw [mem_inter_iff, and_self]

theorem meetModels_comm (a b : EffectiveModelOrder) : meetModels a b = meetModels b a := by
  unfold meetModels
  split
  · next h => rw [h, if_pos rfl]
  · next h => rw [if_neg (Ne.symm h)]

theorem meetModels_self (a : EffectiveModelOrder) : meetModels a a = a := if_pos rfl

theorem meetModels_conflicted (a : EffectiveModelOrder) : meetModels a .conflicted = .conflicted := by
  unfold meetModels
  split
  · next h => exact h
  · rfl

theorem meetModels_assoc (a b c : EffectiveModelOrder) :
    meetModels (meetModels a b) c = meetModels a (meetModels b c) := by
  by_cases hab : a = b
  · subst hab
    rw [meetModels_self]
    by_cases hac : a = c
    · rw [← hac, meetModels_self, meetModels_self]
    · rw [meetModels, if_neg hac, meetModels_conflicted]
  · have hconflict : meetModels a b = .conflicted := if_neg hab
    rw [hconflict, meetModels_comm, meetModels_conflicted]
    by_cases hbc : b = c
    · rw [← hbc, meetModels_self, hconflict]
    · rw [meetModels.eq_def b, if_neg hbc, meetModels_conflicted]

theorem meet_comm (a b : PrivacyMeet) : a.meet b = b.meet a := by
  refine PrivacyMeet.ext (meetNamed_comm _ _) (Bool.or_comm _ _) (ext_mem fun k => ?_)
    (SealedCopies.min_comm _ _) (meetModels_comm _ _)
  rw [meet, meet, mem_union_iff, mem_union_iff, or_comm]

theorem meet_assoc (a b c : PrivacyMeet) : (a.meet b).meet c = a.meet (b.meet c) := by
  refine PrivacyMeet.ext (meetNamed_assoc _ _ _) (Bool.or_assoc _ _ _)
    (ext_mem fun k => ?_) (SealedCopies.min_assoc _ _ _) (meetModels_assoc _ _ _)
  simp only [meet, mem_union_iff, or_assoc]

theorem meet_self (a : PrivacyMeet) : a.meet a = a := by
  refine PrivacyMeet.ext (meetNamed_self _) (Bool.or_self _) (ext_mem fun k => ?_)
    (SealedCopies.min_self _) (meetModels_self _)
  rw [meet, mem_union_iff, or_self]

instance : Min PrivacyMeet := ⟨meet⟩

/-- **Meets are a semilattice**: lower is stricter. -/
instance : SemilatticeInf PrivacyMeet := SemilatticeInf.mk' meet_comm meet_assoc meet_self

end PrivacyMeet

/-- Reads no wider, in any dimension. -/
structure EffectiveWorldPrivacy.Within (a b : EffectiveWorldPrivacy) : Prop where
  read : ∀ destination isMine, readable a.read destination isMine →
    readable b.read destination isMine
  sealed : a.sealed.rank ≤ b.sealed.rank
  models : a.models = b.models ∨ a.models = .conflicted

namespace PrivacyMeet

variable {a b : PrivacyMeet}

theorem one_of_mem (meet : PrivacyMeet) {named : OrderedSet EntityId} {machine : EntityId}
    (hnamed : named ∈ meet.named) (hin : machine ∈ named) : named.toList = [machine] := by
  have hlen : named.toList.length ≤ 1 := by
    rw [length_toList]
    exact meet.one_named named hnamed
  have hmem := mem_toList.mpr hin
  match hlist : named.toList with
  | [] => exact absurd (hlist ▸ hmem) List.not_mem_nil
  | [only] =>
    rw [hlist, List.mem_singleton] at hmem
    rw [hmem]
  | _ :: _ :: _ => simp [hlist] at hlen

/-- **What a meet reads as**: a destination every pick in it names, and one of the owner's machines
where an edit in it keeps the world there. -/
theorem readable_effective (meet : PrivacyMeet) (destination : Option EntityId)
    (isMine : EntityId → Bool) : readable meet.effective.read destination isMine ↔
      (∀ named ∈ meet.named, ∃ machine ∈ destination.filter isMine, machine ∈ named) ∧
        (meet.mineOnly → (destination.filter isMine).isSome) := by
  unfold effective
  match hnamed : meet.named with
  | none => cases meet.mineOnly <;> simp [readable]
  | some named =>
    have hnone : ∀ only ∈ named, named.toList = [only] := fun only => meet.one_of_mem hnamed
    match hlist : named.toList with
    | [] =>
      have hempty : ∀ machine, machine ∉ named := fun machine hin =>
        absurd (hlist ▸ hnone machine hin) (List.cons_ne_nil _ _).symm
      simp [hlist, readable, hempty]
    | [only] =>
      have honly : ∀ machine, machine ∈ named ↔ machine = only := fun machine => by
        rw [← mem_toList, hlist, List.mem_singleton]
      simp only [hlist, readable, decide_eq_true_eq, Option.mem_some_iff, forall_eq', honly]
      constructor
      · intro h
        exact ⟨⟨only, h, rfl⟩, fun _ => h ▸ rfl⟩
      · rintro ⟨⟨machine, h, rfl⟩, -⟩
        exact h
    | first :: second :: rest =>
      have hfirst : first ∈ named :=
        mem_toList.mp (hlist ▸ List.mem_cons_self)
      exact absurd (hlist.symm.trans (hnone first hfirst)) (by simp)

/-- **What lies lower reads no wider.** -/
theorem effective_within (h : a ≤ b) : a.effective.Within b.effective := by
  have hmeet : a.meet b = a := inf_eq_left.mpr h
  refine ⟨fun destination isMine hread => ?_, ?_, ?_⟩
  · have hnamed : meetNamed a.named b.named = a.named := congrArg named hmeet
    have hmine : (a.mineOnly || b.mineOnly) = a.mineOnly := congrArg mineOnly hmeet
    rw [readable_effective] at hread ⊢
    refine ⟨fun right hright => ?_, fun hb => hread.2 (hmine ▸ by rw [hb, Bool.or_true])⟩
    rw [Option.mem_def.mp hright] at hnamed
    match ha : a.named with
    | none => exact nomatch ha ▸ hnamed
    | some left =>
      obtain ⟨machine, hmachine, hin⟩ := hread.1 left ha
      rw [ha] at hnamed
      rw [← Option.some.inj hnamed, mem_inter_iff] at hin
      exact ⟨machine, hmachine, hin.2⟩
  · have hsealed : (a.sealed.min b.sealed).rank = a.sealed.rank :=
      congrArg (fun m => m.sealed.rank) hmeet
    rw [SealedCopies.rank_min] at hsealed
    exact min_eq_left_iff.mp hsealed
  · have hmodels : meetModels a.models b.models = a.models := congrArg models hmeet
    unfold meetModels at hmodels
    split at hmodels
    · next heq => exact .inl heq
    · exact .inr hmodels.symm

end PrivacyMeet

end Oneiron
