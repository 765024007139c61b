import Oneiron.Authority.FrontierMerge
import Oneiron.Foundations.EachKey

/-!
# Authority/OwnerChoice — the register of an owner's choices, and the choice in force

    live heads --counted--▸ stand        heads agree   -▸ in force: the first
               --not------▸ what each    heads differ  -▸ what every head descends from,
                            replaced                       judged the same way

The walk back ends on any register: a head that stands is none of its own ancestors, so what the
heads share shrinks every time (`commonSize_lt`).
-/

open Std

namespace Oneiron

open ExtTreeSet

/-- What one signed choice states: the value chosen, none for a clear, and its advisory time. -/
structure SignedOwnerChoice (P : Type) where
  choice : Option P
  at_ : ℕ
  deriving DecidableEq

abbrev ChoiceFrontier (P : Type) := WorldFrontier (SignedOwnerChoice P)

abbrev OwnerChoiceEdit (P : Type) := FrontierEdit (SignedOwnerChoice P)

structure OwnerChoiceState (P : Type) where
  frontiers : OrderedMap EntityId (ChoiceFrontier P)
  /-- Well-signed choices whose carrier was not admitted. -/
  refused : OrderedSet Bytes32

/-- What a valid choice does to its register. -/
inductive OwnerChoiceLanding (P : Type) where
  | refused (hash : Bytes32)
  | recorded (target : EntityId) (hash : Bytes32) (settings : SignedOwnerChoice P)
      (machine : EntityId) (key : Bytes32) (narrowOnly : Bool) (marks : AdmitterMarks)
      (restrictionOnly : Bool)

section Register

variable {P : Type} [DecidableEq P]

namespace WorldFrontier

variable {S : Type}

/-- Every live edit superseded, and one new edit live. -/
def supersede (frontier : WorldFrontier S) (hash : Bytes32)
    (edit : OrderedSet Bytes32 → FrontierEdit S) : WorldFrontier S where
  live := (∅ : OrderedMap Bytes32 (FrontierEdit S)).insert hash
    (edit (ofList frontier.live.keys))
  superseded := frontier.live.toList.foldl (fun superseded p => superseded.insert p.1 p.2)
    frontier.superseded

end WorldFrontier

/-- `merge_world_frontiers`. -/
def mergeFrontiers {S : Type} [DecidableEq S]
    (merged right : OrderedMap EntityId (WorldFrontier S)) : OrderedMap EntityId (WorldFrontier S) :=
  right.toList.foldl
    (fun merged p => merged.insert p.1 ((merged[p.1]?.getD ∅).merge p.2)) merged

namespace OwnerChoiceState

instance : EmptyCollection (OwnerChoiceState P) := ⟨⟨∅, ∅⟩⟩

/-- `merge_owner_choices`. -/
def merge (merged right : OwnerChoiceState P) : OwnerChoiceState P :=
  ⟨mergeFrontiers merged.frontiers right.frontiers, merged.refused ∪ right.refused⟩

/-- `land`. -/
def land (state : OwnerChoiceState P) : OwnerChoiceLanding P → OwnerChoiceState P
  | .refused hash => { state with refused := state.refused.insert hash }
  | .recorded target hash settings machine key narrowOnly marks restrictionOnly =>
    let frontier := (state.frontiers[target]?.getD ∅).supersede hash fun replaced =>
      { settings, machine, key, replaced, narrowOnly, marks, restrictionOnly, disputed := false }
    { state with frontiers := state.frontiers.insert target frontier }

end OwnerChoiceState

end Register

/-! ## The choice in force -/

section InForce

variable {P : Type}

namespace WorldFrontier

/-- The choices a kept choice replaced. -/
def replacedBy {S : Type} (frontier : WorldFrontier S) (hash : Bytes32) : List Bytes32 :=
  (frontier.choiceOf hash).elim [] (·.replaced.toList)

theorem replacedBy_eq_nil {S : Type} (frontier : WorldFrontier S) (hash : Bytes32)
    (h : hash ∉ frontier.kept) : frontier.replacedBy hash = [] := by
  rw [mem_kept, not_not] at h
  rw [replacedBy, h]
  rfl

end WorldFrontier

variable (race : OwnerActRace) (frontier : ChoiceFrontier P)

/-- `counts_here`. -/
def countsHere (hash : Bytes32) (choice : OwnerChoiceEdit P) : Bool :=
  !choice.disputed && !choice.narrowOnly && !choice.restrictionOnly &&
    race choice.machine hash choice.key choice.marks .install

/-- `ancestors`. -/
def ancestors (hash : Bytes32) : OrderedSet Bytes32 :=
  search frontier.replacedBy (fun seen next => seen.insert next) frontier.kept
    frontier.replacedBy_eq_nil (frontier.replacedBy hash) ∅

/-- A kept choice that counts. -/
def counted (hash : Bytes32) : Bool := (frontier.choiceOf hash).any (countsHere race hash)

/-- What a choice that does not count is read through to. -/
def behind (hash : Bytes32) : List Bytes32 :=
  if counted race frontier hash then [] else frontier.replacedBy hash

theorem behind_eq_nil (hash : Bytes32) (h : hash ∉ frontier.kept) :
    behind race frontier hash = [] := by
  unfold behind
  split
  · rfl
  · exact frontier.replacedBy_eq_nil hash h

/-- `standing_heads`. -/
def standingHeads (start : List Bytes32) : OrderedSet Bytes32 :=
  let heads : OrderedSet Bytes32 := search (behind race frontier)
    (fun heads hash => if counted race frontier hash then heads.insert hash else heads)
    frontier.kept (behind_eq_nil race frontier) start ∅
  let older : OrderedSet Bytes32 :=
    ofList (heads.toList.flatMap fun hash => (ancestors frontier hash).toList)
  heads.filter fun hash => !older.contains hash

/-- What all of some heads descend from. -/
def commonAncestors (heads : OrderedSet Bytes32) : OrderedSet Bytes32 :=
  match heads.toList.map (ancestors frontier) with
  | [] => ∅
  | first :: rest => rest.foldl (· ∩ ·) first

/-! ## What the walk reads -/

/-- One choice descends from another, through the choices each replaced. -/
def Descends {S : Type} (frontier : WorldFrontier S) : Bytes32 → Bytes32 → Prop :=
  Relation.TransGen fun new old => old ∈ frontier.replacedBy new

variable {race frontier}

theorem mem_foldl_insert_if (order : List Bytes32) (seen : OrderedSet Bytes32) (p : Bytes32 → Bool)
    (a : Bytes32) : a ∈ order.foldl (fun seen next => if p next then seen.insert next else seen) seen ↔
      a ∈ seen ∨ a ∈ order ∧ p a := by
  induction order generalizing seen with
  | nil => simp
  | cons next order ih =>
    rw [List.foldl_cons, ih, List.mem_cons]
    split
    · next hp =>
      rw [mem_insert, LawfulEqCmp.compare_eq_iff_eq]
      constructor
      · rintro ((rfl | h) | h)
        · exact .inr ⟨.inl rfl, hp⟩
        · exact .inl h
        · exact .inr ⟨.inr h.1, h.2⟩
      · rintro (h | ⟨rfl | h, ha⟩)
        · exact .inl (.inr h)
        · exact .inl (.inl rfl)
        · exact .inr ⟨h, ha⟩
    · next hp =>
      constructor
      · rintro (h | h)
        · exact .inl h
        · exact .inr ⟨.inr h.1, h.2⟩
      · rintro (h | ⟨rfl | h, ha⟩)
        · exact .inl h
        · exact absurd ha hp
        · exact .inr ⟨h, ha⟩

/-- **A choice's ancestors** are what it descends from. -/
theorem mem_ancestors (hash old : Bytes32) :
    old ∈ ancestors frontier hash ↔ Descends frontier hash old := by
  obtain ⟨order, -, hmem, heq⟩ := search_visits (fun (seen : OrderedSet Bytes32) next =>
    seen.insert next) frontier.replacedBy_eq_nil (frontier.replacedBy hash) ∅
  have hfold := mem_foldl_insert_if order ∅ (fun _ => true) old
  simp only [if_true, and_true] at hfold
  rw [ancestors, heq, hfold, hmem, Descends, Relation.TransGen.head'_iff]
  simp

/-- **What stands**: of the counted choices a start is read through to, the newest. -/
theorem mem_standingHeads (start : List Bytes32) (hash : Bytes32) :
    hash ∈ standingHeads race frontier start ↔ hash ∈ Newest (Descends frontier)
      {a | counted race frontier a ∧ ∃ r ∈ start, Leads (behind race frontier) r a} := by
  obtain ⟨order, -, hmem, heq⟩ := search_visits
    (fun (heads : OrderedSet Bytes32) hash =>
      if counted race frontier hash then heads.insert hash else heads)
    (behind_eq_nil race frontier) start ∅
  rw [standingHeads, heq]
  have hheads : ∀ a, a ∈ order.foldl (fun (heads : OrderedSet Bytes32) hash =>
      if counted race frontier hash then heads.insert hash else heads) ∅ ↔
      counted race frontier a ∧ ∃ r ∈ start, Leads (behind race frontier) r a := fun a => by
    rw [mem_foldl_insert_if, hmem]
    simp [and_comm]
  generalize order.foldl _ _ = heads at hheads
  have holder : ∀ a, a ∈ ofList
      (heads.toList.flatMap fun hash => (ancestors frontier hash).toList) ↔
      ∃ b ∈ heads, Descends frontier b a := fun a => by
    rw [mem_ofList, List.contains_iff_mem, List.mem_flatMap]
    simp only [mem_toList, mem_ancestors]
  simp only [mem_filter, get_eq, exists_prop, Bool.not_eq_true',
    ← Bool.not_eq_true, ← mem_iff_contains, holder, Newest, hheads]
  simp

/-- What some heads share is what all of them descend from. -/
theorem mem_commonAncestors {heads : OrderedSet Bytes32} (hheads : heads ≠ ∅) (old : Bytes32) :
    old ∈ commonAncestors frontier heads ↔ old ∈ Common (Descends frontier) {a | a ∈ heads} := by
  have hfold : ∀ (rest : List (OrderedSet Bytes32)) (first : OrderedSet Bytes32),
      old ∈ rest.foldl (· ∩ ·) first ↔ old ∈ first ∧ ∀ s ∈ rest, old ∈ s := by
    intro rest
    induction rest with
    | nil => simp
    | cons s rest ih =>
      intro first
      rw [List.foldl_cons, ih, mem_inter_iff, List.forall_mem_cons, and_assoc]
  unfold commonAncestors Common
  split
  · next hnil =>
    rw [List.map_eq_nil_iff, toList_eq_nil_iff] at hnil
    exact absurd hnil hheads
  · next first rest hcons =>
    have hall : (∀ s ∈ heads.toList.map (ancestors frontier), old ∈ s) ↔
        ∀ a ∈ heads, Descends frontier a old := by
      simp [mem_ancestors]
    rw [hcons, List.forall_mem_cons] at hall
    exact (hfold rest first).trans hall

theorem Descends.of_leads {hash old : Bytes32} (h : Leads (behind race frontier) hash old) :
    hash = old ∨ Descends frontier hash old := by
  have hreplaced : ∀ new old, old ∈ behind race frontier new → old ∈ frontier.replacedBy new := by
    intro new old hold
    unfold behind at hold
    split at hold
    · exact absurd hold List.not_mem_nil
    · exact hold
  have hleads := Relation.ReflTransGen.mono hreplaced _ _ h
  exact (Relation.reflTransGen_iff_eq_or_transGen.mp hleads).imp_left Eq.symm

variable (race frontier) in
/-- **What stands for what some heads share**: the newest counted choices all of them descend from. -/
theorem mem_standingHeads_common {heads : OrderedSet Bytes32} (hheads : heads ≠ ∅) (hash : Bytes32) :
    hash ∈ standingHeads race frontier (commonAncestors frontier heads).toList ↔
      hash ∈ Newest (Descends frontier)
        ({a | counted race frontier a} ∩ Common (Descends frontier) {a | a ∈ heads}) := by
  have hset : {a | counted race frontier a ∧
        ∃ r ∈ (commonAncestors frontier heads).toList, Leads (behind race frontier) r a} =
      ({a | counted race frontier a} ∩ Common (Descends frontier) {a | a ∈ heads}) := by
    ext a
    refine and_congr_right fun _ => ⟨?_, fun ha => ⟨a, ?_, .refl⟩⟩
    · rintro ⟨r, hr, hleads⟩
      rw [mem_toList, mem_commonAncestors hheads] at hr
      rcases Descends.of_leads hleads with rfl | hdescends
      · exact hr
      · exact fun b hb => (hr b hb).trans hdescends
    · rwa [mem_toList, mem_commonAncestors hheads]
  rw [mem_standingHeads, hset]

/-! ## The walk back -/

variable [DecidableEq P] (race frontier)

/-- One turn of the walk back, with the heads and the conflict so far. -/
def inForceStep (s : OrderedSet Bytes32 × OrderedSet Bytes32) :
    (OrderedSet Bytes32 × OrderedSet Bytes32) ⊕ (Option Bytes32 × OrderedSet Bytes32) :=
  match s.1.toList.filterMap fun hash => (frontier.choiceOf hash).map (·.settings.choice) with
  | [] => .inr (none, s.2)
  | first :: rest =>
    if ∀ choice ∈ rest, choice = first then .inr (s.1.toList.head?, s.2)
    else .inl (standingHeads race frontier (commonAncestors frontier s.1).toList,
      if s.2.isEmpty then s.1 else s.2)

/-- What is left to walk back over. -/
def commonSize (s : OrderedSet Bytes32 × OrderedSet Bytes32) : ℕ :=
  if s.1.isEmpty then 0 else (commonAncestors frontier s.1).size + 1

variable {race frontier}

/-- **What some heads share shrinks**, since a head that stands is none of its own ancestors. -/
theorem commonSize_lt (s s' : OrderedSet Bytes32 × OrderedSet Bytes32)
    (h : inForceStep race frontier s = .inl s') : commonSize frontier s' < commonSize frontier s := by
  obtain ⟨heads, conflict⟩ := s
  unfold inForceStep at h
  split at h
  · exact nomatch h
  next first rest hchoices =>
  have hheads : heads ≠ ∅ := by
    intro hempty
    rw [toList_eq_nil_iff.mpr hempty] at hchoices
    exact nomatch hchoices
  split at h
  · exact nomatch h
  obtain rfl := Sum.inl.inj h
  have hnewest := mem_standingHeads_common race frontier hheads
  simp only [commonSize]
  generalize standingHeads race frontier (commonAncestors frontier heads).toList = next at hnewest
  rw [if_neg (mt ExtTreeSet.isEmpty_iff.mp hheads)]
  split
  · exact Nat.succ_pos _
  next hnext =>
  have hnext : next ≠ ∅ := mt isEmpty_iff.mpr hnext
  obtain ⟨a, ha⟩ := OrderedSet.exists_mem hnext
  have ha' := (hnewest a).mp ha
  refine Nat.succ_lt_succ (OrderedSet.size_lt (fun old hold => ?_) (k := a) ?_ ?_)
  · rw [mem_commonAncestors hnext] at hold
    rw [mem_commonAncestors hheads]
    exact fun b hb => (ha'.1.2 b hb).trans (hold a ha)
  · rw [mem_commonAncestors hheads]
    exact ha'.1.2
  · rw [mem_commonAncestors hnext]
    exact fun hself => ha'.2 a ha'.1 (hself a ha)

variable (race frontier)

/-- `in_force`: the choice in force, and the heads that conflict. -/
def inForce : Option Bytes32 × OrderedSet Bytes32 :=
  loop (inForceStep race frontier) (commonSize frontier) commonSize_lt
    (standingHeads race frontier frontier.live.keys, ∅)

end InForce

end Oneiron
