import Oneiron.Authority.Keys
import Oneiron.Authority.WorldPrivacy
import Oneiron.Foundations.Joined
import Oneiron.Foundations.Looping
import Oneiron.Foundations.Rivals

/-!
# Authority/WorldFrontier — the register of what owners signed: its edits, landed and merged

    live        what no later edit has seen
    superseded  what some later edit replaced

A landing replaces exactly the live edits; a merge joins two registers edit by edit, and what either
side superseded is superseded.  The same register keeps a world's settings and every owner choice.
-/

namespace Oneiron

open Finset

section Frontier

open Std

/-- Who admitted a chain of a machine's revisions. -/
inductive MachineAdmitter where
  | roster
  | anchor (key : Bytes32)
  deriving DecidableEq

namespace MachineAdmitter

/-- What an admitter sorts by. -/
def sortKey : MachineAdmitter → Bytes
  | roster => []
  | anchor key => 1 :: key.asBytes

theorem sortKey_injective : Function.Injective sortKey := by
  rintro (_ | a) (_ | b) h
  · rfl
  · exact nomatch h
  · exact nomatch h
  · exact congrArg anchor (Bytes32.ext (List.cons.inj h).2)

instance : Ord MachineAdmitter := ⟨compareOn sortKey⟩

instance : TransOrd MachineAdmitter := inferInstanceAs (TransCmp (compareOn sortKey))

instance : LawfulEqOrd MachineAdmitter where
  compare_self {admitter} := (ReflOrd.compare_self : compare admitter.sortKey admitter.sortKey = .eq)
  eq_of_compare {a b} h :=
    sortKey_injective (LawfulEqOrd.eq_of_compare (show compare a.sortKey b.sortKey = .eq from h))

end MachineAdmitter

/-- The live head of a chain an act was signed under, and the revisions in its past. -/
structure AdmitterMark where
  entry : Bytes32
  prior : Finset Bytes32
  deriving DecidableEq

abbrev AdmitterMarks := OrderedMap MachineAdmitter AdmitterMark

/-- One accepted edit, of what it states. -/
structure FrontierEdit (S : Type) where
  settings : S
  machine : EntityId
  /-- The install key that signed it. -/
  key : Bytes32
  /-- The live edits at its parents. -/
  replaced : OrderedSet Bytes32
  narrowOnly : Bool
  marks : AdmitterMarks
  restrictionOnly : Bool
  disputed : Bool
  deriving DecidableEq

structure WorldFrontier (S : Type) where
  live : OrderedMap Bytes32 (FrontierEdit S)
  superseded : OrderedMap Bytes32 (FrontierEdit S)
  deriving DecidableEq

variable {S : Type}

namespace WorldFrontier

variable (frontier : WorldFrontier S)

/-- An edit the register keeps, live or superseded. -/
def choiceOf (hash : Bytes32) : Option (FrontierEdit S) :=
  frontier.live[hash]? <|> frontier.superseded[hash]?

/-- Every hash the register keeps an edit under. -/
def kept : Finset Bytes32 := frontier.live.keys.toFinset ∪ frontier.superseded.keys.toFinset

theorem mem_kept {hash : Bytes32} : hash ∈ frontier.kept ↔ frontier.choiceOf hash ≠ none := by
  rw [kept, choiceOf, mem_union, List.mem_toFinset, List.mem_toFinset, ExtTreeMap.mem_keys,
    ExtTreeMap.mem_keys, ExtTreeMap.mem_iff_isSome_getElem?, ExtTreeMap.mem_iff_isSome_getElem?]
  cases frontier.live[hash]? <;> cases frontier.superseded[hash]? <;> simp

/-- One edit is among those another replaced. -/
def Replaces (old new : Bytes32) : Prop :=
  ∃ edit, frontier.choiceOf new = some edit ∧ old ∈ edit.replaced

/-- No edit descends from itself. -/
def Acyclic : Prop := ∀ hash, ¬ Relation.TransGen frontier.Replaces hash hash

variable {frontier}

/-- **Descent ends**: a finite register without cycles is well founded. -/
theorem Acyclic.wellFounded (h : frontier.Acyclic) : WellFounded frontier.Replaces := by
  refine wellFounded_of_acyclic frontier.kept (fun old new hreplaces => ?_) h
  obtain ⟨edit, hedit, -⟩ := hreplaces
  rw [mem_kept, hedit]
  exact nofun

end WorldFrontier

end Frontier

/-! ## The settings a world is read under, as one walk of its edits

    live -▸ edit --strong--▸ (stop)
                 --weak----▸ what it replaced, each once; none, or disputed -▸ the default

The walk meets each edit it reaches once, however many live edits share it.  It reads the same as the
rule taken edit by edit (`worldMeet_eq_reading`): a meet does not count how often it meets.
-/

section Meet

open Std

/-- Whose trust a machine is judged under. -/
inductive StandingView where
  | under (admitter : MachineAdmitter)
  | install
  deriving DecidableEq

/-- What a standing decides of an edit: whether its carrier's removal race passes, by the carrier, the
edit, the key that signed it and the marks it was signed under. -/
abbrev OwnerActRace := EntityId → Bytes32 → Bytes32 → AdmitterMarks → StandingView → Bool

section Strength

variable {S : Type} (race : OwnerActRace) (hash : Bytes32) (edit : FrontierEdit S)
  (view : StandingView)

/-- `full_strength`. -/
def fullStrength : Bool :=
  let countedThen := match view with
    | .under _ => true
    | .install => !(edit.narrowOnly || edit.restrictionOnly)
  !edit.disputed && countedThen && race edit.machine hash edit.key edit.marks view

end Strength

abbrev WorldEdit := FrontierEdit WorldPrivacy

/-- What an edit states, as a meet. -/
abbrev FrontierEdit.own (edit : WorldEdit) : PrivacyMeet := .of edit.settings

/-- Whether an edit that is not at full strength meets the default as well. -/
def FrontierEdit.meetsDefault (edit : WorldEdit) : Bool := edit.replaced.isEmpty || edit.disputed

abbrev defaultMeet : PrivacyMeet := .of .default

/-! ## The walk -/

/-- A walk under way: its meet so far, the edits it reached, and those it has yet to look behind. -/
structure WorldWalk where
  meet : PrivacyMeet
  visited : Finset Bytes32
  pending : List WorldEdit

section Walk

variable (race : OwnerActRace) (view : StandingView) (frontier : WorldFrontier WorldPrivacy)

/-- Meets one live edit. -/
def takeLive (walk : WorldWalk) (live : Bytes32 × WorldEdit) : WorldWalk where
  meet := walk.meet ⊓ live.2.own
  visited := insert live.1 walk.visited
  pending :=
    if live.1 ∉ walk.visited ∧ fullStrength race live.1 live.2 view = false then
      live.2 :: walk.pending
    else walk.pending

/-- Meets one replaced edit, unless it was reached before. -/
def takeReplaced (walk : WorldWalk) (hash : Bytes32) : WorldWalk :=
  if hash ∈ walk.visited then walk
  else
    match frontier.superseded[hash]? <|> frontier.live[hash]? with
    | none => { walk with visited := insert hash walk.visited }
    | some prior =>
      { meet := walk.meet ⊓ prior.own
        visited := insert hash walk.visited
        pending :=
          if fullStrength race hash prior view then walk.pending else prior :: walk.pending }

/-- Looks behind one edit. -/
def lookBehind (next : WorldEdit) (walk : WorldWalk) : WorldWalk :=
  let meet := if next.meetsDefault then walk.meet ⊓ defaultMeet else walk.meet
  next.replaced.toList.foldl (takeReplaced race view frontier) { walk with meet }

/-- One turn of the walk. -/
def walkStep (walk : WorldWalk) : WorldWalk ⊕ PrivacyMeet :=
  match walk.pending with
  | [] => .inr walk.meet
  | next :: pending => .inl (lookBehind race view frontier next { walk with pending })

/-- What is left to do. -/
def walkLeft (walk : WorldWalk) : ℕ :=
  walk.pending.length + (frontier.kept \ walk.visited).card

variable {race view frontier}

theorem walkLeft_takeReplaced (walk : WorldWalk) (hash : Bytes32) :
    walkLeft frontier (takeReplaced race view frontier walk hash) ≤ walkLeft frontier walk := by
  have hshrinks : (frontier.kept \ insert hash walk.visited).card ≤
      (frontier.kept \ walk.visited).card := by
    exact card_le_card (sdiff_subset_sdiff le_rfl (subset_insert _ _))
  unfold takeReplaced
  split
  · exact le_rfl
  next hnew =>
  split
  · exact Nat.add_le_add_left hshrinks _
  simp only [walkLeft]
  split
  · exact Nat.add_le_add_left hshrinks _
  · have hkept : hash ∈ frontier.kept \ walk.visited := by
      refine mem_sdiff.mpr ⟨frontier.mem_kept.mpr ?_, hnew⟩
      unfold WorldFrontier.choiceOf
      cases hs : frontier.superseded[hash]? <;> cases hl : frontier.live[hash]? <;> simp_all
    have hcard := card_erase_add_one hkept
    rw [sdiff_insert, List.length_cons]
    omega

theorem walkLeft_foldl (hashes : List Bytes32) (walk : WorldWalk) :
    walkLeft frontier (hashes.foldl (takeReplaced race view frontier) walk) ≤
      walkLeft frontier walk := by
  induction hashes generalizing walk with
  | nil => exact le_rfl
  | cons hash hashes ih => exact (ih _).trans (walkLeft_takeReplaced walk hash)

theorem walkLeft_lt (walk walk' : WorldWalk) (h : walkStep race view frontier walk = .inl walk') :
    walkLeft frontier walk' < walkLeft frontier walk := by
  unfold walkStep at h
  split at h
  · exact nomatch h
  next next pending hpending =>
  obtain rfl := Sum.inl.inj h
  refine (walkLeft_foldl _ _).trans_lt ?_
  simp only [walkLeft, hpending, List.length_cons]
  omega

end Walk

/-- `world_meet`, of what a fold keeps of the world. -/
def worldMeet (race : OwnerActRace) (view : StandingView) :
    Option (WorldFrontier WorldPrivacy) → PrivacyMeet
  | none => defaultMeet
  | some frontier =>
    match frontier.live.toList with
    | [] => defaultMeet
    | first :: _ =>
      loop (walkStep race view frontier) (walkLeft frontier) walkLeft_lt
        (frontier.live.toList.foldl (takeLive race view) ⟨first.2.own, ∅, []⟩)

end Meet

end Oneiron
