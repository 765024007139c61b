import Oneiron.Authority.WorldFrontier
import Oneiron.Foundations.Merging

/-!
# Authority/FrontierMerge — two registers joined edit by edit

    live ⊔ live  -▸ live            superseded ⊔ anything  -▸ superseded

A register that keeps no edit twice is read hash by hash (`seat`): what it keeps there, and whether
that is superseded.  A merge merges the seats (`seat_merge`), so it has whatever laws the meet of two
copies of one edit has.
-/

open Std

namespace Oneiron

open Std.ExtTreeMap FrontierEdit

namespace AdmitterMark

/-- The lower head, and the past both saw. -/
def meet (mark other : AdmitterMark) : AdmitterMark := ⟨lower mark.entry other.entry, mark.prior ∩ other.prior⟩

theorem meet_comm (a b : AdmitterMark) : a.meet b = b.meet a := by
  rw [meet, meet, lower_comm, Finset.inter_comm]

theorem meet_assoc (a b c : AdmitterMark) : (a.meet b).meet c = a.meet (b.meet c) := by
  simp only [meet, lower_assoc, Finset.inter_assoc]

theorem meet_self (a : AdmitterMark) : a.meet a = a := by rw [meet, lower_self, Finset.inter_self]

end AdmitterMark

namespace FrontierEdit

/-- The marks both copies were signed under. -/
def meetMarks (left right : AdmitterMarks) : AdmitterMarks :=
  left.filterMap fun admitter mark => right[admitter]?.map mark.meet

theorem getElem?_meetMarks (left right : AdmitterMarks) (admitter : MachineAdmitter) :
    (meetMarks left right)[admitter]? =
      left[admitter]?.bind fun mark => right[admitter]?.map mark.meet :=
  getElem?_filterMap'

theorem meetMarks_comm (a b : AdmitterMarks) : meetMarks a b = meetMarks b a :=
  ext_getElem? fun k => by
    rw [getElem?_meetMarks, getElem?_meetMarks]
    cases a[k]? <;> cases b[k]? <;> simp [AdmitterMark.meet_comm]

theorem meetMarks_assoc (a b d : AdmitterMarks) :
    meetMarks (meetMarks a b) d = meetMarks a (meetMarks b d) :=
  ext_getElem? fun k => by
    simp only [getElem?_meetMarks]
    cases a[k]? <;> cases b[k]? <;> cases d[k]? <;> simp [AdmitterMark.meet_assoc]

theorem meetMarks_self (a : AdmitterMarks) : meetMarks a a = a :=
  ext_getElem? fun k => by
    rw [getElem?_meetMarks]
    cases a[k]? <;> simp [AdmitterMark.meet_self]

variable {S : Type}

/-- What two copies of one edit both grant, of copies that differ. -/
def meetCopies (left right : FrontierEdit S) : FrontierEdit S where
  settings := left.settings
  machine := left.machine
  key := left.key
  replaced := left.replaced ∪ right.replaced
  narrowOnly := left.narrowOnly || right.narrowOnly
  marks := meetMarks left.marks right.marks
  restrictionOnly := left.restrictionOnly || right.restrictionOnly
  disputed := left.disputed || right.disputed || decide (left.marks ≠ right.marks) ||
    decide (left.replaced ≠ right.replaced)

/-- `meet`. -/
def meet [DecidableEq S] (left right : FrontierEdit S) : FrontierEdit S :=
  if left = right then left else left.meetCopies right

/-- Two copies of one edit: a hash commits to what the edit states and to who signed it. -/
structure Twins (a b : FrontierEdit S) : Prop where
  settings : a.settings = b.settings
  machine : a.machine = b.machine
  key : a.key = b.key

variable (s : OrderedSet Bytes32) (a : FrontierEdit S) (t : OrderedSet Bytes32)
  (b c : FrontierEdit S)

theorem union_self : s ∪ s = s := ExtTreeSet.ext_mem fun k => by
  rw [ExtTreeSet.mem_union_iff, or_self]

theorem union_comm : s ∪ t = t ∪ s := ExtTreeSet.ext_mem fun k => by
  rw [ExtTreeSet.mem_union_iff, ExtTreeSet.mem_union_iff, or_comm]

theorem union_assoc (u : OrderedSet Bytes32) : s ∪ t ∪ u = s ∪ (t ∪ u) :=
  ExtTreeSet.ext_mem fun k => by simp only [ExtTreeSet.mem_union_iff, or_assoc]

theorem meetCopies_self : a.meetCopies a = a := by
  simp [meetCopies, union_self, meetMarks_self]

variable [DecidableEq S]

theorem meet_eq_meetCopies : a.meet b = a.meetCopies b := by
  unfold meet
  split
  · next h => rw [← h, meetCopies_self]
  · rfl

theorem meet_self : a.meet a = a := if_pos rfl

theorem meet_comm {a b : FrontierEdit S} (h : a.Twins b) : a.meet b = b.meet a := by
  rw [meet_eq_meetCopies, meet_eq_meetCopies, meetCopies, meetCopies, h.settings, h.machine, h.key,
    union_comm, meetMarks_comm, Bool.or_comm a.narrowOnly, Bool.or_comm a.restrictionOnly,
    Bool.or_comm a.disputed]
  simp only [ne_comm]

omit [DecidableEq S] in
/-- Three that differ somewhere do so in any grouping. -/
theorem differ_assoc {α : Type} {op : α → α → α} (hop : ∀ x, op x x = x) (x y z : α) :
    x ≠ y ∨ op x y ≠ z ↔ y ≠ z ∨ x ≠ op y z := by
  by_cases hxy : x = y
  · subst hxy
    by_cases hxz : x = z
    · simp [← hxz, hop]
    · simp [hop, hxz]
  · by_cases hyz : y = z
    · simp [← hyz, hop, hxy]
    · simp [hxy, hyz]

omit [DecidableEq S] in
theorem disputed_meetCopies : (a.meetCopies b).disputed ↔
    (a.disputed ∨ b.disputed) ∨ a.marks ≠ b.marks ∨ a.replaced ≠ b.replaced := by
  simp only [meetCopies, Bool.or_eq_true, decide_eq_true_eq, or_assoc]

omit [DecidableEq S] in
theorem disputed_assoc :
    ((a.meetCopies b).meetCopies c).disputed = (a.meetCopies (b.meetCopies c)).disputed := by
  have hmarks := differ_assoc meetMarks_self a.marks b.marks c.marks
  have hreplaced := differ_assoc union_self a.replaced b.replaced c.replaced
  rw [Bool.eq_iff_iff, disputed_meetCopies, disputed_meetCopies, disputed_meetCopies,
    disputed_meetCopies]
  calc (((a.disputed ∨ b.disputed) ∨ a.marks ≠ b.marks ∨ a.replaced ≠ b.replaced) ∨ c.disputed) ∨
        meetMarks a.marks b.marks ≠ c.marks ∨ a.replaced ∪ b.replaced ≠ c.replaced
    _ ↔ (a.disputed ∨ b.disputed ∨ c.disputed) ∨
        (a.marks ≠ b.marks ∨ meetMarks a.marks b.marks ≠ c.marks) ∨
        (a.replaced ≠ b.replaced ∨ a.replaced ∪ b.replaced ≠ c.replaced) := Iff.of_eq (by ac_rfl)
    _ ↔ (a.disputed ∨ b.disputed ∨ c.disputed) ∨
        (b.marks ≠ c.marks ∨ a.marks ≠ meetMarks b.marks c.marks) ∨
        (b.replaced ≠ c.replaced ∨ a.replaced ≠ b.replaced ∪ c.replaced) := by
      rw [hmarks, hreplaced]
    _ ↔ (a.disputed ∨ (b.disputed ∨ c.disputed) ∨ b.marks ≠ c.marks ∨ b.replaced ≠ c.replaced) ∨
        a.marks ≠ meetMarks b.marks c.marks ∨ a.replaced ≠ b.replaced ∪ c.replaced :=
      Iff.of_eq (by ac_rfl)

theorem meet_assoc : (a.meet b).meet c = a.meet (b.meet c) := by
  have hdisputed := disputed_assoc a b c
  simp only [meet_eq_meetCopies]
  unfold meetCopies at hdisputed ⊢
  simp only [union_assoc, meetMarks_assoc, Bool.or_assoc, mk.injEq] at hdisputed ⊢
  exact ⟨trivial, trivial, trivial, trivial, trivial, trivial, trivial, hdisputed⟩

end FrontierEdit

/-! ## Two registers -/

section Merge

variable {S : Type} [DecidableEq S]

/-- `meet_copy`. -/
def meetCopy (edits : OrderedMap Bytes32 (FrontierEdit S)) (hash : Bytes32)
    (edit : FrontierEdit S) : OrderedMap Bytes32 (FrontierEdit S) :=
  edits.insert hash (edits[hash]?.elim edit (meet · edit))

namespace WorldFrontier

/-- Moves a live edit over to what it is superseded beside. -/
def moveOver (frontier : WorldFrontier S) (hash : Bytes32) : WorldFrontier S :=
  match frontier.live[hash]? with
  | none => frontier
  | some edit => ⟨frontier.live.erase hash, meetCopy frontier.superseded hash edit⟩

/-- `merge_world_frontiers`, of one world. -/
def merge (into frontier : WorldFrontier S) : WorldFrontier S :=
  let superseded := frontier.superseded.toList.foldl (fun edits p => meetCopy edits p.1 p.2)
    into.superseded
  let live := frontier.live.toList.foldl (fun edits p => meetCopy edits p.1 p.2) into.live
  let moved := live.filter fun hash _ => superseded.contains hash
  moved.toList.foldl (fun frontier p => frontier.moveOver p.1) ⟨live, superseded⟩

instance : EmptyCollection (WorldFrontier S) := ⟨⟨∅, ∅⟩⟩

/-- No edit is both live and superseded. -/
def Apart (frontier : WorldFrontier S) : Prop :=
  ∀ hash : Bytes32, frontier.live[hash]? = none ∨ frontier.superseded[hash]? = none

/-- What a register keeps under a hash, and whether that is superseded. -/
def seat (frontier : WorldFrontier S) (hash : Bytes32) : Option (Bool × FrontierEdit S) :=
  (frontier.superseded[hash]?.map (true, ·)).or (frontier.live[hash]?.map (false, ·))

/-- Superseded on either side is superseded. -/
def meetSeat (a b : Bool × FrontierEdit S) : Bool × FrontierEdit S := (a.1 || b.1, a.2.meet b.2)

variable {f g : WorldFrontier S}

omit [DecidableEq S] in
/-- **A register that keeps no edit twice is its seats.** -/
theorem ext_seat (hf : f.Apart) (hg : g.Apart) (h : ∀ hash, f.seat hash = g.seat hash) : f = g := by
  have hboth : ∀ hash : Bytes32, f.live[hash]? = g.live[hash]? ∧
      f.superseded[hash]? = g.superseded[hash]? := by
    intro hash
    have hseat := h hash
    unfold seat at hseat
    rcases hf hash with hl | hs <;> rcases hg hash with hl' | hs' <;>
      cases hfl : f.live[hash]? <;> cases hfs : f.superseded[hash]? <;>
      cases hgl : g.live[hash]? <;> cases hgs : g.superseded[hash]? <;> simp_all
  cases f
  cases g
  congr
  · exact ext_getElem? fun hash => (hboth hash).1
  · exact ext_getElem? fun hash => (hboth hash).2

theorem getElem?_foldl_meetCopy (edits more : OrderedMap Bytes32 (FrontierEdit S)) (hash : Bytes32) :
    (more.toList.foldl (fun edits p => meetCopy edits p.1 p.2) edits)[hash]? =
      Option.merge meet edits[hash]? more[hash]? :=
  OrderedMap.getElem?_joinWith meet edits more hash

/-- What is live and what is superseded at a hash. -/
def held (frontier : WorldFrontier S) (hash : Bytes32) :
    Option (FrontierEdit S) × Option (FrontierEdit S) :=
  (frontier.live[hash]?, frontier.superseded[hash]?)

variable (frontier : WorldFrontier S) (hash : Bytes32)

theorem held_moveOver : (frontier.moveOver hash).held hash =
      (none, Option.merge meet (frontier.held hash).2 (frontier.held hash).1) := by
  unfold moveOver held
  cases hlive : frontier.live[hash]? with
  | none => simp [hlive]
  | some edit => cases hold : frontier.superseded[hash]? <;> simp [meetCopy, hold]

theorem held_moveOver_of_ne {hash other : Bytes32} (h : other ≠ hash) :
    (frontier.moveOver hash).held other = frontier.held other := by
  unfold moveOver held
  cases frontier.live[hash]? with
  | none => rfl
  | some edit => simp [meetCopy, getElem?_erase, getElem?_insert, h.symm]

/-- **What a merge leaves at a hash.** -/
theorem held_merge (f g : WorldFrontier S) (hash : Bytes32) : (f.merge g).held hash =
    let live := Option.merge meet f.live[hash]? g.live[hash]?
    let superseded := Option.merge meet f.superseded[hash]? g.superseded[hash]?
    if superseded.isSome then (none, Option.merge meet superseded live)
    else (live, none) := by
  rw [merge, OrderedMap.foldl_at held _
    (fun _ held _ => (none, Option.merge meet held.2 held.1))
    (fun frontier hash _ => held_moveOver frontier hash)
    (fun frontier hash _ _ h => held_moveOver_of_ne frontier h)]
  simp only [held, getElem?_filter', getElem?_foldl_meetCopy,
    contains_eq_isSome_getElem?]
  cases Option.merge meet f.live[hash]? g.live[hash]? <;>
    cases Option.merge meet f.superseded[hash]? g.superseded[hash]? <;>
    simp [Option.filter]

theorem Apart.merge (f g : WorldFrontier S) : (f.merge g).Apart := by
  intro hash
  have hheld := held_merge f g hash
  simp only [held] at hheld
  split at hheld
  · exact .inl (congrArg Prod.fst hheld)
  · exact .inr (congrArg Prod.snd hheld)

omit [DecidableEq S] in
theorem seat_eq : frontier.seat hash =
    ((frontier.held hash).2.map (true, ·)).or ((frontier.held hash).1.map (false, ·)) := rfl

/-- **A merge merges the seats**, when what both keep at a hash are copies of one edit. -/
theorem seat_merge (hf : f.Apart) (hg : g.Apart) (hash : Bytes32)
    (htwins : ∀ a ∈ f.choiceOf hash, ∀ b ∈ g.choiceOf hash, a.Twins b) :
    (f.merge g).seat hash = Option.merge meetSeat (f.seat hash) (g.seat hash) := by
  rw [seat_eq, held_merge]
  unfold choiceOf at htwins
  unfold seat
  rcases hf hash with hl | hs <;> rcases hg hash with hl' | hs'
  · rw [hl, hl']
    cases f.superseded[hash]? <;> cases g.superseded[hash]? <;> simp [meetSeat]
  · rw [hl, hs']
    cases f.superseded[hash]? <;> cases g.live[hash]? <;> simp [meetSeat]
  · rw [hs, hl']
    cases hl : f.live[hash]? with
    | none => cases g.superseded[hash]? <;> simp
    | some a =>
      cases hs' : g.superseded[hash]? with
      | none => simp
      | some b =>
        -- the copies meet the other way about where a live one is moved over
        have hab : a.Twins b := htwins a (by simp [hl]) b (by simp [hl', hs'])
        simp [meetSeat, meet_comm hab]
  · rw [hs, hs']
    cases f.live[hash]? <;> cases g.live[hash]? <;> simp [meetSeat]

omit [DecidableEq S] in
theorem Apart.choiceOf_eq (hf : f.Apart) (hash : Bytes32) :
    f.choiceOf hash = (f.seat hash).map Prod.snd := by
  unfold choiceOf seat
  rcases hf hash with h | h <;> rw [h]
  · cases f.superseded[hash]? <;> rfl
  · cases f.live[hash]? <;> rfl

omit [DecidableEq S] in
theorem seat_eq_some_true {edit : FrontierEdit S} :
    f.seat hash = some (true, edit) ↔ f.superseded[hash]? = some edit := by
  unfold seat
  cases f.superseded[hash]? <;> cases f.live[hash]? <;> simp

/-- What each hash commits to: what the edit states, who signed it and by which key. -/
abbrev Content (S : Type) := Bytes32 → S × EntityId × Bytes32

/-- An edit is what its hash commits to. -/
structure States (content : Content S) (hash : Bytes32) (edit : FrontierEdit S) : Prop where
  settings : edit.settings = (content hash).1
  machine : edit.machine = (content hash).2.1
  key : edit.key = (content hash).2.2

/-- A register of edits that are what their hashes commit to, none kept twice. -/
structure Committed (content : Content S) (frontier : WorldFrontier S) : Prop where
  apart : frontier.Apart
  states : ∀ hash, ∀ edit ∈ frontier.choiceOf hash, States content hash edit

variable {content : Content S} {f g k : WorldFrontier S}

section

variable (hf : Committed content f)

include hf

omit [DecidableEq S] in
theorem Committed.twins (hg : Committed content g) (hash : Bytes32) :
    ∀ a ∈ f.choiceOf hash, ∀ b ∈ g.choiceOf hash, a.Twins b := by
  intro a ha b hb
  have hsa := hf.states hash a ha
  have hsb := hg.states hash b hb
  exact ⟨hsa.settings.trans hsb.settings.symm, hsa.machine.trans hsb.machine.symm,
    hsa.key.trans hsb.key.symm⟩

theorem Committed.seat_merge (hg : Committed content g) (hash : Bytes32) :
    (f.merge g).seat hash = Option.merge meetSeat (f.seat hash) (g.seat hash) :=
  WorldFrontier.seat_merge hf.apart hg.apart hash (hf.twins hg hash)

/-- **A merge keeps what either side keeps**, two copies met. -/
theorem Committed.choiceOf_merge (hg : Committed content g) (hash : Bytes32) :
    (f.merge g).choiceOf hash =
      Option.merge meet (f.choiceOf hash) (g.choiceOf hash) := by
  rw [(Apart.merge f g).choiceOf_eq, hf.seat_merge hg, hf.apart.choiceOf_eq, hg.apart.choiceOf_eq]
  cases f.seat hash <;> cases g.seat hash <;> rfl

theorem Committed.merge (hg : Committed content g) : Committed content (f.merge g) := by
  refine ⟨Apart.merge f g, fun hash edit hedit => ?_⟩
  rw [hf.choiceOf_merge hg, Option.mem_def, Option.merge_eq_some_iff] at hedit
  rcases hedit with ⟨hedit, -⟩ | ⟨-, hedit⟩ | ⟨a, b, ha, -, rfl⟩
  · exact hf.states hash edit hedit
  · exact hg.states hash edit hedit
  · have hstates := hf.states hash a ha
    rw [meet_eq_meetCopies]
    exact ⟨hstates.settings, hstates.machine, hstates.key⟩

theorem Committed.seat_comm (hg : Committed content g) (hash : Bytes32) :
    Option.merge meetSeat (f.seat hash) (g.seat hash) =
      Option.merge meetSeat (g.seat hash) (f.seat hash) := by
  have htwins := hf.twins hg hash
  rw [hf.apart.choiceOf_eq, hg.apart.choiceOf_eq] at htwins
  cases ha : f.seat hash with
  | none => cases g.seat hash <;> rfl
  | some a =>
    cases hb : g.seat hash with
    | none => rfl
    | some b =>
      have hab : a.2.Twins b.2 := htwins a.2 (by simp [ha]) b.2 (by simp [hb])
      simp only [Option.merge, meetSeat, Bool.or_comm a.1, meet_comm hab]

end

/-- **Merging is a join** of registers whose edits are what their hashes commit to. -/
theorem merge_laws (content : Content S) : MergeLaws (Committed content) merge where
  closed := Committed.merge
  comm {f g} hf hg := ext_seat (Apart.merge f g) (Apart.merge g f) fun hash => by
    rw [hf.seat_merge hg, hg.seat_merge hf, hf.seat_comm hg]
  assoc {f g k} hf hg hk := ext_seat (Apart.merge _ _) (Apart.merge _ _) fun hash => by
    rw [(hf.merge hg).seat_merge hk, hf.seat_merge hg, hf.seat_merge (hg.merge hk),
      hg.seat_merge hk]
    cases f.seat hash <;> cases g.seat hash <;> cases k.seat hash <;>
      simp [meetSeat, meet_assoc, Bool.or_assoc]
  self {f} hf := ext_seat (Apart.merge f f) hf.apart fun hash => by
    rw [hf.seat_merge hf]
    cases f.seat hash <;> simp [meetSeat, meet_self]

theorem empty_merge (hf : Committed content f) : (∅ : WorldFrontier S).merge f = f := by
  have hempty : Committed content (∅ : WorldFrontier S) :=
    ⟨fun _ => .inl rfl, fun _ _ h => absurd h (Option.not_mem_none _)⟩
  refine ext_seat (Apart.merge _ f) hf.apart fun hash => ?_
  rw [hempty.seat_merge hf]
  exact Option.merge_none_left

end WorldFrontier

end Merge

end Oneiron
