import Oneiron.KeyCustody.BodyHistory

/-!
# KeyCustody/BodyHistorySafety — a fold read back is the walk it shortens

A part further on is of an older write, so it was pruned of no more: what the newest prune keeps is in
some part (`exists_mem_chunk`).  A fold of instances is pruned of nothing, and is exact.
-/

open Std

namespace Oneiron

open Std.ExtTreeMap List

open BodyHistory FoldJournal

namespace BodyHistory

variable {retired retired' : BodyInstanceId → Bool} {whole rows : HistoryRows} {key value : Bytes}

/-- `rows` is `whole`, but that it may lack rows whose instance is retired. -/
def Lacks (retired : BodyInstanceId → Bool) (whole rows : HistoryRows) : Prop :=
  ∀ key : Bytes, rows[key]? = whole[key]? ∨
    rows[key]? = none ∧ ∃ instance_, owedInstance key = some instance_ ∧ retired instance_ = true

theorem lacks_refl (retired : BodyInstanceId → Bool) (rows : HistoryRows) :
    Lacks retired rows rows := fun _ => .inl rfl

/-- What is there is there whole. -/
theorem Lacks.sound (h : Lacks retired whole rows) (hrow : rows[key]? = some value) :
    whole[key]? = some value := by
  rcases h key with heq | ⟨hnone, -⟩
  · exact heq ▸ hrow
  · exact absurd hrow (by simp [hnone])

@[simp] theorem extend_nil (rows : HistoryRows) : extend rows [] = rows := rfl

@[simp] theorem extend_cons (rows : HistoryRows) (row : HistoryRow) (put : List HistoryRow) :
    extend rows (row :: put) = extend (rows.insert row.1 row.2) put := rfl

theorem Lacks.inserted (h : Lacks retired whole rows) (row : HistoryRow) :
    Lacks retired (whole.insert row.1 row.2) (rows.insert row.1 row.2) := by
  intro key
  rw [ExtTreeMap.getElem?_insert, ExtTreeMap.getElem?_insert]
  split
  · exact .inl rfl
  · exact h key

theorem Lacks.extended (h : Lacks retired whole rows) (put : List HistoryRow) :
    Lacks retired (extend whole put) (extend rows put) := by
  induction put generalizing whole rows with
  | nil => exact h
  | cons row put ih => exact ih (h.inserted row)

theorem Lacks.collected (h : Lacks retired whole rows) (entry : LogEntry) :
    Lacks retired (collectHistory whole entry) (collectHistory rows entry) := by
  cases entry with
  | bodyHistory put => exact h.extended put
  | _ => exact h

theorem getElem?_prune (retired : BodyInstanceId → Bool) (rows : HistoryRows) (key : Bytes) :
    (prune retired rows)[key]? =
      if (owedInstance key).all (fun instance_ => !retired instance_) then rows[key]? else none := by
  rw [prune, getElem?_filter']
  cases rows[key]? <;> simp [Option.filter]

/-- Pruning takes only what is retired. -/
theorem Lacks.pruned (h : Lacks retired whole rows)
    (hsub : ∀ i, retired i = true → retired' i = true) :
    prune retired' rows = prune retired' whole := by
  refine ExtTreeMap.ext_getElem? fun key => ?_
  rw [getElem?_prune, getElem?_prune]
  rcases h key with heq | ⟨-, instance_, howed, hretired⟩
  · rw [heq]
  · simp [howed, hsub _ hretired]

/-- A looser prune keeps no less. -/
theorem prune_sublist (hsub : ∀ i, retired i = true → retired' i = true) (rows : HistoryRows) :
    (prune retired' rows).toList.Sublist (prune retired rows).toList := by
  rw [prune, prune, toList_filter, toList_filter]
  refine monotone_filter_right _ fun row hrow => ?_
  cases howed : owedInstance row.1 with
  | none => simp
  | some instance_ =>
    simp only [howed, Option.all_some, Bool.not_eq_true'] at hrow ⊢
    exact Bool.eq_false_iff.mpr fun hretired => by simp [hsub _ hretired] at hrow

theorem prune_none (rows : HistoryRows) : prune (fun _ => false) rows = rows := by
  refine ExtTreeMap.ext_getElem? fun key => ?_
  rw [getElem?_prune]
  cases owedInstance key <;> simp

/-- Each row of `put` is `whole`'s. -/
def Within (whole : HistoryRows) (put : List HistoryRow) : Prop :=
  ∀ row ∈ put, whole[row.1]? = some row.2

variable {put : List HistoryRow}

/-- Rows `whole` holds, over rows it holds. -/
theorem extend_sound (hput : Within whole put)
    (hrows : ∀ key value : Bytes, rows[key]? = some value → whole[key]? = some value) :
    ∀ key value : Bytes, (extend rows put)[key]? = some value → whole[key]? = some value := by
  induction put generalizing rows with
  | nil => exact hrows
  | cons row put ih =>
    refine ih (forall_mem_cons.mp hput).2 fun key value hrow => ?_
    rw [ExtTreeMap.getElem?_insert] at hrow
    split at hrow
    case isTrue heq =>
      obtain rfl := Option.some.inj hrow
      exact LawfulEqCmp.eq_of_compare heq ▸ (forall_mem_cons.mp hput).1
    case isFalse => exact hrows key value hrow

/-- A row not just put was there before. -/
theorem getElem?_extend (hput : (key, value) ∉ put) (hrow : (extend rows put)[key]? = some value) :
    rows[key]? = some value := by
  induction put generalizing rows with
  | nil => exact hrow
  | cons row put ih =>
    rw [mem_cons, not_or] at hput
    have hrest := ih hput.2 hrow
    rw [ExtTreeMap.getElem?_insert] at hrest
    split at hrest
    case isTrue heq =>
      obtain rfl := LawfulEqCmp.eq_of_compare heq
      exact absurd (show (row.1, value) = row from Option.some.inj hrest ▸ rfl) hput.1
    case isFalse => exact hrest

theorem mem_extend : key ∈ extend rows put ↔ key ∈ rows ∨ ∃ row ∈ put, row.1 = key := by
  induction put generalizing rows with
  | nil => simp
  | cons row put ih => simp [ih, mem_insert, or_assoc, or_left_comm]

end BodyHistory

/-! ## The log -/

variable {retired : BodyInstanceId → Bool} {parts : ℕ → Option HistoryPart} {at_ point : LogPoint}
  {seq i : ℕ} {fold : HistoryFold} {tip : FrameHash}

namespace FoldJournal

variable (frameHash : OpenedFrame → FrameHash) {s : FoldJournal} {α : Type}

/-- What every frame past the base to a number folds to. -/
def foldTo (s : FoldJournal) (collect : α → LogEntry → α) (folded : α) (seq : ℕ) : α :=
  (s.log.take (seq - s.base.seq)).foldl (fun folded frame => collect folded frame.entry) folded

/-- The history rows at a number, walked from what landed. -/
abbrev wholeHistory (s : FoldJournal) (landed : HistoryRows) (seq : ℕ) : HistoryRows :=
  s.foldTo collectHistory landed seq

/-- The instances minted to a number. -/
abbrev mintedTo (s : FoldJournal) (seq : ℕ) : OrderedSet BodyInstanceId :=
  s.foldTo collectMinted ∅ seq

/-- Each frame extends the one before it, and holds only history rows. -/
structure Linked (s : FoldJournal) : Prop where
  seq : ∀ i frame, s.log[i]? = some frame → frame.seq = s.base.seq + i + 1
  prev : ∀ i frame, s.log[i]? = some frame → s.tipAt frameHash (s.base.seq + i) = some frame.prev
  admits : ∀ frame ∈ s.log, ∀ put, frame.entry = .bodyHistory put →
    ∀ row ∈ put, BodyHistory.admits row.1 = true

@[simp] theorem frame_succ (s : FoldJournal) (i : ℕ) :
    s.frame (s.base.seq + i + 1) = s.log[i]? := by
  rw [frame, if_pos (by omega)]
  congr 1
  omega

@[simp] theorem tipAt_baseSeq (s : FoldJournal) :
    s.tipAt frameHash s.base.seq = some s.base.tip := if_pos rfl

@[simp] theorem tipAt_succ (s : FoldJournal) (i : ℕ) :
    s.tipAt frameHash (s.base.seq + i + 1) = s.log[i]?.map frameHash := by
  rw [tipAt, if_neg (by omega), frame_succ]

variable {frameHash} in
/-- A number with a tip is on the log. -/
theorem exists_add_of_tipAt (h : s.tipAt frameHash seq = some tip) :
    ∃ i ≤ s.log.length, seq = s.base.seq + i := by
  rw [tipAt] at h
  split at h
  case isTrue heq => exact ⟨0, Nat.zero_le _, heq⟩
  case isFalse hne =>
    rw [frame] at h
    split at h
    case isTrue hlt =>
      obtain ⟨frame, hframe, -⟩ := Option.map_eq_some_iff.mp h
      obtain ⟨hbound, -⟩ := List.getElem?_eq_some_iff.mp hframe
      exact ⟨seq - s.base.seq, by omega, by omega⟩
    case isFalse => exact absurd h nofun

theorem stands_iff (point : LogPoint) :
    s.stands frameHash point = true ↔ s.tipAt frameHash point.seq = some point.tip := by
  rw [stands, tipAt]
  split
  case isTrue => simp [eq_comm]
  case isFalse hne =>
    rw [frame]
    split
    case isTrue hlt => cases s.log[point.seq - s.base.seq - 1]? <;> simp [hlt]
    case isFalse hge => simp [hge]

@[simp] theorem foldTo_base (s : FoldJournal) (collect : α → LogEntry → α) (folded : α) :
    s.foldTo collect folded s.base.seq = folded := by simp [foldTo]

theorem foldTo_succ {collect : α → LogEntry → α} {folded : α} {frame : OpenedFrame}
    (h : s.log[i]? = some frame) : s.foldTo collect folded (s.base.seq + i + 1) =
      collect (s.foldTo collect folded (s.base.seq + i)) frame.entry := by
  rw [foldTo, foldTo, show s.base.seq + i + 1 - s.base.seq = i + 1 by omega,
    Nat.add_sub_cancel_left, take_add_one, h, Option.toList_some, foldl_append]
  rfl

/-- What the walk itself keeps. -/
theorem foldTo_induct (s : FoldJournal) (collect : α → LogEntry → α) (folded : α) {P : ℕ → α → Prop}
    (hbase : P s.base.seq folded)
    (hstep : ∀ i frame x, s.log[i]? = some frame → P (s.base.seq + i) x →
      P (s.base.seq + i + 1) (collect x frame.entry)) :
    ∀ i ≤ s.log.length, P (s.base.seq + i) (s.foldTo collect folded (s.base.seq + i)) := by
  intro i hi
  induction i with
  | zero => exact (s.foldTo_base collect folded).symm ▸ hbase
  | succ i ih =>
    have hframe := getElem?_eq_getElem (show i < s.log.length by omega)
    exact (foldTo_succ hframe).symm ▸ hstep i _ _ hframe (ih (by omega))

variable {frameHash}

/-- **A walk from a point of the log to another gives the tip there**, and what is between. -/
theorem Linked.replay_eq (hlinked : s.Linked frameHash) (collect : α → LogEntry → α) (landed : α)
    {R : α → α → Prop} (hkept : ∀ x y entry, R x y → R (collect x entry) (collect y entry)) :
    ∀ (n i : ℕ) (tip : FrameHash) (folded : α), i + n ≤ s.log.length →
      s.tipAt frameHash (s.base.seq + i) = some tip →
      R (s.foldTo collect landed (s.base.seq + i)) folded →
      ∃ tip' rows, s.replay frameHash collect n ⟨s.base.seq + i, tip⟩ folded = some (tip', rows) ∧
        s.tipAt frameHash (s.base.seq + i + n) = some tip' ∧
        R (s.foldTo collect landed (s.base.seq + i + n)) rows
  | 0, i, tip, folded, _, htip, hfolded => ⟨tip, folded, rfl, htip, hfolded⟩
  | n + 1, i, tip, folded, hn, htip, hfolded => by
    have hframe := getElem?_eq_getElem (show i < s.log.length by omega)
    have hprev := hlinked.prev i _ hframe
    rw [htip, Option.some.injEq] at hprev
    obtain ⟨tip', rows, heq, htip', hrows⟩ := hlinked.replay_eq collect landed hkept n (i + 1)
      (frameHash s.log[i]) (collect folded s.log[i].entry) (by omega)
      (by rw [← Nat.add_assoc, tipAt_succ, hframe]; rfl)
      (by rw [← Nat.add_assoc, foldTo_succ hframe]; exact hkept _ _ _ hfolded)
    rw [show s.base.seq + (i + 1) + n = s.base.seq + i + (n + 1) by omega] at htip' hrows
    refine ⟨tip', rows, ?_, htip', hrows⟩
    simp only [replay, frame_succ, hframe]
    rw [if_neg (by simp [hlinked.seq i _ hframe, hprev])]
    exact heq

/-- The walk that checks nothing folds the same. -/
theorem mintedFromBase_eq : ∀ (n i : ℕ), i + n ≤ s.log.length →
    s.mintedFromBase n (s.base.seq + i) (s.mintedTo (s.base.seq + i)) =
      some (s.mintedTo (s.base.seq + i + n))
  | 0, _, _ => rfl
  | n + 1, i, hn => by
    have hframe := getElem?_eq_getElem (show i < s.log.length by omega)
    have hrest := mintedFromBase_eq n (i + 1) (by omega)
    rw [← Nat.add_assoc, mintedTo, foldTo_succ hframe] at hrest
    simp only [mintedFromBase, frame_succ, hframe]
    rw [hrest, show s.base.seq + i + 1 + n = s.base.seq + i + (n + 1) by omega]

end FoldJournal

/-! ## Reading a fold back -/

section Reading

/-- The rows of a part, none where it is missing. -/
def rowsAt (parts : ℕ → Option HistoryPart) (index : ℕ) : List HistoryRow :=
  (parts index).elim [] (·.rows)

def instancesAt (parts : ℕ → Option MintedPart) (index : ℕ) : List BodyInstanceId :=
  (parts index).elim [] (·.minted)

variable {count : ℕ}

theorem readHistoryParts_eq : ∀ {left index : ℕ} {rows read : HistoryRows},
      readHistoryParts parts point count left index rows = some (some read) →
      read = extend rows ((List.range' index left).flatMap (rowsAt parts)) ∧
      ∀ i, index ≤ i → i < index + left →
        ∃ part, parts i = some part ∧ part.point = point ∧ part.count = count
  | 0, _, _, _, h => ⟨(Option.some.inj (Option.some.inj h)).symm, fun i hle hlt => by omega⟩
  | left + 1, index, rows, read, h => by
    rw [readHistoryParts] at h
    split at h
    case h_1 => exact absurd h nofun
    case h_2 part hpart =>
      split at h
      case isFalse => exact absurd h nofun
      case isTrue =>
        split at h
        case isTrue => exact absurd h nofun
        case isFalse hsame =>
          push Not at hsame
          obtain ⟨-, hcount, hpoint⟩ := hsame
          obtain ⟨hread, hparts⟩ := readHistoryParts_eq h
          refine ⟨?_, fun i hle hlt => ?_⟩
          · rw [hread, range'_succ, flatMap_cons, rowsAt, hpart, extend, extend, extend,
              foldl_append]
            rfl
          · rcases hle.eq_or_lt with rfl | hlt'
            · exact ⟨part, hpart, hpoint, hcount⟩
            · exact hparts i hlt' (by omega)

theorem readHistoryParts_ne_none
    (h : ∀ i part, parts i = some part → part.rows.all (fun row => admits row.1) = true) :
    ∀ (left index : ℕ) (rows : HistoryRows),
      readHistoryParts parts point count left index rows ≠ none
  | 0, _, _ => nofun
  | left + 1, index, rows => by
    rw [readHistoryParts]
    split
    case h_1 => nofun
    case h_2 part hpart =>
      rw [if_pos (h index part hpart)]
      split
      case isTrue => nofun
      case isFalse => exact readHistoryParts_ne_none h left _ _

/-- A fold read back is its parts', all of one point and one count. -/
theorem readHistoryFold_eq (h : readHistoryFold parts = some (some fold)) : ∃ count,
      fold.rows = extend ∅ ((List.range' 0 (count - 1 + 1)).flatMap (rowsAt parts)) ∧
      ∀ i < count - 1 + 1, ∃ part, parts i = some part ∧ part.point = fold.point ∧
        part.count = count := by
  rw [readHistoryFold] at h
  split at h
  case h_1 => exact absurd h nofun
  case h_2 part hpart =>
    split at h
    case isFalse => exact absurd h nofun
    case isTrue =>
      split at h
      case isTrue => exact absurd h nofun
      case isFalse =>
        obtain ⟨read, hread, hfold⟩ := Option.map_eq_some_iff.mp h
        obtain ⟨rows, rfl, rfl⟩ := Option.map_eq_some_iff.mp hfold
        obtain ⟨hrows, hparts⟩ := readHistoryParts_eq hread
        refine ⟨part.count, ?_, fun i hi => ?_⟩
        · rw [hrows, range'_succ, flatMap_cons, rowsAt, hpart, extend, extend, extend,
            foldl_append]
          rfl
        · rcases Nat.eq_zero_or_pos i with rfl | hpos
          · exact ⟨part, hpart, rfl, rfl⟩
          · exact hparts i hpos (by omega)

theorem readHistoryFold_ne_none
    (h : ∀ i part, parts i = some part → part.rows.all (fun row => admits row.1) = true) :
    readHistoryFold parts ≠ none := by
  rw [readHistoryFold]
  split
  case h_1 => nofun
  case h_2 part hpart =>
    rw [if_pos (h 0 part hpart)]
    split
    case isTrue => nofun
    case isFalse =>
      exact fun hnone => readHistoryParts_ne_none h _ _ _ (Option.map_eq_none_iff.mp hnone)

theorem readHistoryParts_of_whole :
    ∀ (left index : ℕ) (rows : HistoryRows), (∀ i, index ≤ i → i < index + left → ∃ part,
      parts i = some part ∧ part.rows.all (fun row => admits row.1) = true ∧ part.index = i ∧
        part.count = count ∧ part.point = point) →
      ∃ read, readHistoryParts parts point count left index rows = some (some read)
  | 0, _, rows, _ => ⟨rows, rfl⟩
  | left + 1, index, rows, h => by
    obtain ⟨part, hpart, hadmits, hindex, hcount, hpoint⟩ := h index le_rfl (by omega)
    rw [readHistoryParts, hpart]
    dsimp only
    rw [if_pos hadmits, if_neg (by simp [hindex, hcount, hpoint])]
    exact readHistoryParts_of_whole left (index + 1) _ fun i hle hlt => h i (by omega) (by omega)

/-- A fold with all its parts is read back. -/
theorem readHistoryFold_of_whole (count : ℕ) (h : ∀ i < max 1 count, ∃ part, parts i = some part ∧
      part.rows.all (fun row => admits row.1) = true ∧ part.index = i ∧ part.count = count ∧
        part.point = point) :
    ∃ fold, readHistoryFold parts = some (some fold) ∧ fold.point = point := by
  obtain ⟨part, hpart, hadmits, hindex, hcount, hpoint⟩ := h 0 (by omega)
  have hrest : ∃ read, readHistoryParts parts part.point part.count (part.count - 1) 1
      (extend ∅ part.rows) = some (some read) :=
    readHistoryParts_of_whole _ _ _ fun i hle hlt => hcount ▸ hpoint ▸ h i (by omega)
  obtain ⟨read, hread⟩ := hrest
  refine ⟨⟨part.point, read⟩, ?_, hpoint⟩
  rw [readHistoryFold, hpart]
  dsimp only
  rw [if_pos hadmits, if_neg (not_not.mpr hindex), hread]
  rfl

theorem readMintedParts_eq {parts : ℕ → Option MintedPart} {base : LogPoint} :
    ∀ {left index : ℕ} {minted read : OrderedSet BodyInstanceId},
      readMintedParts parts point base count left index minted = some read →
      read = ((List.range' index left).flatMap (instancesAt parts)).foldl
        (fun minted instance_ => minted.insert instance_) minted ∧
      ∀ i, index ≤ i → i < index + left → ∃ part, parts i = some part ∧ part.point = point ∧
        part.count = count
  | 0, _, _, _, h => ⟨(Option.some.inj h).symm, fun i hle hlt => by omega⟩
  | left + 1, index, minted, read, h => by
    rw [readMintedParts] at h
    split at h
    case h_1 => exact absurd h nofun
    case h_2 part hpart =>
      split at h
      case isTrue => exact absurd h nofun
      case isFalse hsame =>
        push Not at hsame
        obtain ⟨-, hcount, hpoint, -⟩ := hsame
        obtain ⟨hread, hparts⟩ := readMintedParts_eq h
        refine ⟨?_, fun i hle hlt => ?_⟩
        · rw [hread, range'_succ, flatMap_cons, instancesAt, hpart, foldl_append]
          rfl
        · rcases hle.eq_or_lt with rfl | hlt'
          · exact ⟨part, hpart, hpoint, hcount⟩
          · exact hparts i hlt' (by omega)

theorem readMintedFold_eq {parts : ℕ → Option MintedPart} {fold : MintedFold}
    (h : readMintedFold parts = some fold) : ∃ count,
      fold.minted = ((List.range' 0 (count - 1 + 1)).flatMap (instancesAt parts)).foldl
        (fun minted instance_ => minted.insert instance_) ∅ ∧
      ∀ i < count - 1 + 1, ∃ part, parts i = some part ∧ part.point = fold.point ∧
        part.count = count := by
  rw [readMintedFold] at h
  split at h
  case h_1 => exact absurd h nofun
  case h_2 part hpart =>
    split at h
    case isTrue => exact absurd h nofun
    case isFalse =>
      obtain ⟨minted, hread, rfl⟩ := Option.map_eq_some_iff.mp h
      obtain ⟨hminted, hparts⟩ := readMintedParts_eq hread
      refine ⟨part.count, ?_, fun i hi => ?_⟩
      · rw [hminted, range'_succ, flatMap_cons, instancesAt, hpart, foldl_append]
        rfl
      · rcases Nat.eq_zero_or_pos i with rfl | hpos
        · exact ⟨part, hpart, rfl, rfl⟩
        · exact hparts i hpos (by omega)

theorem mem_foldl_insert {put : List BodyInstanceId} {minted : OrderedSet BodyInstanceId}
    {instance_ : BodyInstanceId} :
    instance_ ∈ put.foldl (fun minted instance_ => minted.insert instance_) minted ↔
      instance_ ∈ minted ∨ instance_ ∈ put := by
  induction put generalizing minted with
  | nil => simp
  | cons put rest ih =>
    rw [foldl_cons, ih, ExtTreeSet.mem_insert, mem_cons, LawfulEqCmp.compare_eq_iff_eq]
    tauto

end Reading

/-! ## What the part files hold -/

namespace FoldJournal

variable (frameHash : OpenedFrame → FrameHash) (landed : HistoryRows) (s : FoldJournal)
  {retired : BodyInstanceId → Bool}

/-- Each part is of the walk to a point of the log, pruned of no more than the parts before it. -/
def Kept (retired : BodyInstanceId → Bool) (parts : ℕ → Option HistoryPart) : Prop :=
  ∃ census : ℕ → BodyInstanceId → Bool,
    (∀ i j, i ≤ j → ∀ instance_, census j instance_ = true → census i instance_ = true) ∧
    (∀ i instance_, census i instance_ = true → retired instance_ = true) ∧
    ∀ i part, parts i = some part → ∃ at_, s.tipAt frameHash at_.seq = some at_.tip ∧
      part = historyPart at_ (prune (census i) (s.wholeHistory landed at_.seq)) i

/-- Each part is of the instances minted to a point of the log. -/
def KeptMinted (parts : ℕ → Option MintedPart) : Prop :=
  ∀ i part, parts i = some part → ∃ at_, s.tipAt frameHash at_.seq = some at_.tip ∧
    part = s.mintedPart at_ (s.mintedTo at_.seq) i

variable {frameHash landed s}

theorem within_chunk {whole : HistoryRows} :
    Within whole (chunk foldPartRows i (prune retired whole).toList) := by
  intro row hrow
  have hget := mem_toList_iff_getElem?_eq_some.mp
    (show (row.1, row.2) ∈ _ from mem_of_mem_chunk hrow)
  rw [getElem?_prune] at hget
  split at hget
  · exact hget
  · exact absurd hget nofun

/-- **A fold read back is of one point of the log, and lacks only what is retired.** -/
theorem Kept.read (hkept : s.Kept frameHash landed retired parts)
    (hread : readHistoryFold parts = some (some fold)) :
    s.tipAt frameHash fold.point.seq = some fold.point.tip ∧
      Lacks retired (s.wholeHistory landed fold.point.seq) fold.rows := by
  obtain ⟨census, hfresher, hretired, hparts⟩ := hkept
  obtain ⟨count, hrows, hall⟩ := readHistoryFold_eq hread
  have hpart (i : ℕ) (hi : i < count - 1 + 1) :
      rowsAt parts i = chunk foldPartRows i
        (prune (census i) (s.wholeHistory landed fold.point.seq)).toList ∧
      chunkCount foldPartRows (prune (census i) (s.wholeHistory landed fold.point.seq)).toList =
        count ∧ s.tipAt frameHash fold.point.seq = some fold.point.tip := by
    obtain ⟨part, hsome, hpoint, hcount⟩ := hall i hi
    obtain ⟨at_, htip, rfl⟩ := hparts i part hsome
    obtain rfl : at_ = fold.point := hpoint
    rw [rowsAt, hsome]
    exact ⟨rfl, hcount, htip⟩
  refine ⟨(hpart 0 (by omega)).2.2, fun key => ?_⟩
  have hpos : 1 ≤ count := (hpart 0 (by omega)).2.1 ▸ one_le_chunkCount
  have hsound : ∀ key value : Bytes, fold.rows[key]? = some value →
      (s.wholeHistory landed fold.point.seq)[key]? = some value := by
    refine fun key value hrow => extend_sound (fun row hrow => ?_) (by simp) key value
      (hrows ▸ hrow)
    obtain ⟨i, hi, hrow⟩ := mem_flatMap.mp hrow
    rw [mem_range'_1] at hi
    rw [(hpart i (by omega)).1] at hrow
    exact within_chunk row hrow
  cases hrow : fold.rows[key]? with
  | some value => exact .inl (hsound key value hrow).symm
  | none =>
    cases hwhole : (s.wholeHistory landed fold.point.seq)[key]? with
    | none => exact .inl rfl
    | some value =>
      by_cases howed : ∃ i, owedInstance key = some i ∧ retired i = true
      case pos => exact .inr ⟨rfl, howed⟩
      have hfirst : (key, value) ∈ (prune (census 0)
          (s.wholeHistory landed fold.point.seq)).toList := by
        rw [mem_toList_iff_getElem?_eq_some, getElem?_prune, if_pos, hwhole]
        rw [Option.all_eq_true]
        intro instance_ heq
        rw [Bool.not_eq_true']
        exact Bool.eq_false_iff.mpr fun hcensus => howed ⟨instance_, heq, hretired 0 _ hcensus⟩
      obtain ⟨i, hi, hmem⟩ := exists_mem_chunk (n := count) (k := foldPartRows)
        (by decide) hpos (fun i j hij _ => prune_sublist (hfresher i j hij) _)
        (fun i _ => OrderedMap.nodup_toList _)
        (fun i hi => (hpart i (by omega)).2.1 ▸ length_le_chunkCount_mul (by decide)) hfirst
      have hkey : key ∈ fold.rows := by
        rw [hrows, mem_extend]
        refine .inr ⟨(key, value), mem_flatMap.mpr ⟨i, ?_, ?_⟩, rfl⟩
        · rw [mem_range'_1]
          omega
        · rw [(hpart i (by omega)).1]
          exact hmem
      rw [mem_iff_isSome_getElem?, hrow] at hkey
      exact absurd hkey nofun

/-- A fold of instances read back is exact. -/
theorem KeptMinted.read {parts : ℕ → Option MintedPart} (hkept : s.KeptMinted frameHash parts)
    {fold : MintedFold} (hread : readMintedFold parts = some fold) :
    s.tipAt frameHash fold.point.seq = some fold.point.tip ∧
      fold.minted = s.mintedTo fold.point.seq := by
  obtain ⟨count, hminted, hall⟩ := readMintedFold_eq hread
  have hpart (i : ℕ) (hi : i < count - 1 + 1) :
      instancesAt parts i = chunk foldPartRows i (s.mintedTo fold.point.seq).toList ∧
      chunkCount foldPartRows (s.mintedTo fold.point.seq).toList = count ∧
      s.tipAt frameHash fold.point.seq = some fold.point.tip := by
    obtain ⟨part, hsome, hpoint, hcount⟩ := hall i hi
    obtain ⟨at_, htip, rfl⟩ := hkept i part hsome
    obtain rfl : at_ = fold.point := hpoint
    rw [instancesAt, hsome]
    exact ⟨rfl, hcount, htip⟩
  obtain ⟨-, hcount, htip⟩ := hpart 0 (by omega)
  refine ⟨htip, ExtTreeSet.ext_mem fun instance_ => ?_⟩
  rw [hminted, mem_foldl_insert, mem_flatMap]
  constructor
  · rintro (hempty | ⟨i, hi, hmem⟩)
    · exact absurd hempty (by simp)
    · rw [mem_range'_1] at hi
      rw [(hpart i (by omega)).1] at hmem
      exact ExtTreeSet.mem_toList.mp (mem_of_mem_chunk hmem)
  · intro hmem
    obtain ⟨i, hi, hchunk⟩ := exists_mem_chunk (n := count) (k := foldPartRows)
      (S := fun _ => (s.mintedTo fold.point.seq).toList) (by decide)
      (hcount ▸ one_le_chunkCount) (fun _ _ _ _ => List.Sublist.refl _)
      (fun _ _ => ExtTreeSet.distinct_toList.imp fun hne heq => hne (by simp [heq]))
      (fun _ _ => hcount ▸ length_le_chunkCount_mul (by decide)) (ExtTreeSet.mem_toList.mpr hmem)
    refine .inr ⟨i, ?_, ?_⟩
    · rw [mem_range'_1]
      omega
    · rw [(hpart i (by omega)).1]
      exact hchunk

theorem Linked.files (h : s.Linked frameHash) (history : ℕ → Option HistoryPart)
    (minted : ℕ → Option MintedPart) :
    ({ s with history, minted } : FoldJournal).Linked frameHash := ⟨h.seq, h.prev, h.admits⟩

theorem usable_iff : s.usable frameHash at_ point = true ↔
    point.seq ≤ at_.seq ∧ s.tipAt frameHash point.seq = some point.tip := by
  rw [usable, Bool.and_eq_true, decide_eq_true_eq, stands_iff]

/-- **Nothing but a fold of this log starts a walk**, whatever the files hold. -/
theorem usable_of_startFold (htip : s.tipAt frameHash at_.seq = some at_.tip)
    (h : s.startFold frameHash at_ = some fold) :
    fold.point.seq ≤ at_.seq ∧ s.tipAt frameHash fold.point.seq = some fold.point.tip := by
  rw [startFold] at h
  split at h
  case h_1 => exact absurd h nofun
  case h_2 =>
    split at h
    case h_1 cached hcached =>
      obtain rfl := Option.some.inj h
      exact usable_iff.mp (Option.filter_eq_some_iff.mp hcached).2
    case h_2 =>
      split at h
      case h_1 => exact absurd h nofun
      case h_2 =>
        split at h
        case h_1 found hfound =>
          obtain rfl := Option.some.inj h
          exact usable_iff.mp (Option.filter_eq_some_iff.mp hfound).2
        case h_2 =>
          obtain rfl := Option.some.inj h
          obtain ⟨i, -, hseq⟩ := exists_add_of_tipAt htip
          exact ⟨show s.base.seq ≤ at_.seq by omega, tipAt_baseSeq ..⟩

/-! ### A frame past the end -/

section Appends

variable {entry : LogEntry} {tip : FrameHash}

theorem tipAt_appends {at_ : FrameHash} (h : s.tipAt frameHash seq = some at_) :
    (s.appends entry tip).tipAt frameHash seq = some at_ := by
  obtain ⟨i, hi, rfl⟩ := exists_add_of_tipAt h
  cases i with
  | zero =>
    rw [Nat.add_zero, tipAt_baseSeq] at h
    exact h ▸ tipAt_baseSeq frameHash (s.appends entry tip)
  | succ i =>
    rw [← Nat.add_assoc, tipAt_succ] at h
    refine (tipAt_succ frameHash (s.appends entry tip) i).trans ?_
    rw [appends, getElem?_append_left hi, h]

theorem foldTo_appends {α : Type} (collect : α → LogEntry → α) (folded : α) {at_ : FrameHash}
    (h : s.tipAt frameHash seq = some at_) :
    (s.appends entry tip).foldTo collect folded seq = s.foldTo collect folded seq := by
  obtain ⟨i, hi, rfl⟩ := exists_add_of_tipAt h
  rw [foldTo, foldTo, appends, Nat.add_sub_cancel_left, take_append_of_le_length hi]

theorem Linked.appends (h : s.Linked frameHash)
    (hadmits : ∀ put, entry = .bodyHistory put → ∀ row ∈ put, BodyHistory.admits row.1 = true)
    (htip : s.tipAt frameHash (s.base.seq + s.log.length) = some tip) :
    (s.appends entry tip).Linked frameHash := by
  have hframe {i : ℕ} {frame : OpenedFrame} (hget : (s.appends entry tip).log[i]? = some frame) :
      s.log[i]? = some frame ∨
        i = s.log.length ∧ frame = ⟨s.base.seq + s.log.length + 1, tip, entry⟩ := by
    rw [FoldJournal.appends, getElem?_append] at hget
    split at hget
    · exact .inl hget
    case isFalse hge =>
      obtain ⟨hlt, heq⟩ := List.getElem?_eq_some_iff.mp hget
      simp only [length_singleton] at hlt
      simp only [getElem_singleton] at heq
      exact .inr ⟨by omega, heq.symm⟩
  refine ⟨fun i frame hget => ?_, fun i frame hget => ?_, fun frame hmem => ?_⟩
  · rcases hframe hget with hold | ⟨rfl, rfl⟩
    · exact h.seq i frame hold
    · rfl
  · rcases hframe hget with hold | ⟨rfl, rfl⟩
    · exact tipAt_appends (h.prev i frame hold)
    · exact tipAt_appends htip
  · rcases mem_append.mp hmem with hold | hnew
    · exact h.admits frame hold
    · exact (mem_singleton.mp hnew) ▸ hadmits

theorem Kept.appends (h : s.Kept frameHash landed retired parts) :
    (s.appends entry tip).Kept frameHash landed retired parts := by
  obtain ⟨census, hfresher, hretired, hparts⟩ := h
  refine ⟨census, hfresher, hretired, fun i part hpart => ?_⟩
  obtain ⟨at_, htip, rfl⟩ := hparts i part hpart
  exact ⟨at_, tipAt_appends htip, by rw [wholeHistory, wholeHistory, foldTo_appends _ _ htip]⟩

theorem KeptMinted.appends {parts : ℕ → Option MintedPart} (h : s.KeptMinted frameHash parts) :
    (s.appends entry tip).KeptMinted frameHash parts := by
  intro i part hpart
  obtain ⟨at_, htip, rfl⟩ := h i part hpart
  refine ⟨at_, tipAt_appends htip, ?_⟩
  rw [mintedTo, mintedTo, foldTo_appends _ _ htip]
  rfl

end Appends

end FoldJournal

/-! ## Every call -/

section Calls

variable {frameHash : OpenedFrame → FrameHash} {base : LogPoint} {landed : HistoryRows}

/-- What holds of a journal and its fold files. -/
structure FoldState.Sound (frameHash : OpenedFrame → FrameHash) (landed : HistoryRows)
    (s : FoldState) : Prop where
  linked : s.journal.Linked frameHash
  admits : ∀ row ∈ landed.toList, BodyHistory.admits row.1 = true
  base : (landed = ∅ ∧ ∀ i, s.journal.landed i = none) ∨
    ∀ i, s.journal.landed i =
      if i < chunkCount foldPartRows landed.toList then some (historyPart s.journal.base landed i)
      else none
  history : s.journal.Kept frameHash landed s.retired s.journal.history
  minted : s.journal.KeptMinted frameHash s.journal.minted

variable {key value : Bytes}

namespace FoldState.Sound

variable {s : FoldState} (h : s.Sound frameHash landed) {at_ : LogPoint}
include h

/-- The walk holds only history rows. -/
theorem admits_whole (htip : s.journal.tipAt frameHash at_.seq = some at_.tip)
    (hrow : (s.journal.wholeHistory landed at_.seq)[key]? = some value) :
    BodyHistory.admits key = true := by
  obtain ⟨i, hi, hseq⟩ := exists_add_of_tipAt htip
  rw [hseq] at hrow
  have hkey : key ∈ s.journal.wholeHistory landed (s.journal.base.seq + i) := by
    rw [mem_iff_isSome_getElem?, hrow]
    rfl
  refine foldTo_induct s.journal collectHistory landed
    (P := fun _ (rows : HistoryRows) => ∀ key ∈ rows, BodyHistory.admits key = true)
    (fun key hkey => ?_) (fun i frame rows hframe hrows key hkey => ?_) i hi key hkey
  · rw [mem_iff_isSome_getElem?, Option.isSome_iff_exists] at hkey
    obtain ⟨value, hvalue⟩ := hkey
    exact h.admits (key, value) (mem_toList_iff_getElem?_eq_some.mpr hvalue)
  · cases hentry : frame.entry with
    | bodyHistory put =>
      rw [hentry, collectHistory, mem_extend] at hkey
      rcases hkey with hold | ⟨row, hput, rfl⟩
      · exact hrows key hold
      · exact h.linked.admits frame (mem_of_getElem? hframe) put hentry row hput
    | _ => exact hrows key (by simpa only [hentry, collectHistory] using hkey)

/-- Every row a kept part holds is a history row. -/
theorem admits_part (hkept : s.journal.Kept frameHash landed retired parts) {part : HistoryPart}
    (hpart : parts i = some part) : part.rows.all (fun row => BodyHistory.admits row.1) = true := by
  obtain ⟨census, -, -, hparts⟩ := hkept
  obtain ⟨point, htip, rfl⟩ := hparts i part hpart
  exact all_eq_true.mpr fun row hrow => h.admits_whole htip (within_chunk row hrow)

theorem kept_landed : s.journal.Kept frameHash landed (fun _ => false) s.journal.landed := by
  refine ⟨fun _ _ => false, fun _ _ _ _ h => h, fun _ _ h => h, fun i part hpart => ?_⟩
  refine ⟨s.journal.base, tipAt_baseSeq .., ?_⟩
  rw [wholeHistory, foldTo_base, prune_none]
  rcases h.base with ⟨-, hnone⟩ | hparts
  · exact absurd hpart (by simp [hnone i])
  · rw [hparts i] at hpart
    split at hpart
    · exact (Option.some.inj hpart).symm
    · exact absurd hpart nofun

/-- What landed is read back, when anything did. -/
theorem landed_read (hne : landed ≠ ∅) :
    ∃ fold, readHistoryFold s.journal.landed = some (some fold) ∧ fold.point = s.journal.base := by
  rcases h.base with ⟨hempty, -⟩ | hparts
  · exact absurd hempty hne
  · refine readHistoryFold_of_whole (chunkCount foldPartRows landed.toList) fun i hi => ?_
    rw [max_eq_right one_le_chunkCount] at hi
    have hpart : s.journal.landed i = some (historyPart s.journal.base landed i) := by
      rw [hparts i, if_pos hi]
    exact ⟨_, hpart, h.admits_part h.kept_landed hpart, rfl, rfl, rfl⟩

section

variable (htip : s.journal.tipAt frameHash at_.seq = some at_.tip)

include htip

/-- A walk starts from a fold that lacks only what is retired. -/
theorem startFold_eq : ∃ fold, s.journal.startFold frameHash at_ = some fold ∧
      Lacks s.retired (s.journal.wholeHistory landed fold.point.seq) fold.rows := by
  have hbase : s.journal.base.seq ≤ at_.seq := by
    obtain ⟨i, -, heq⟩ := exists_add_of_tipAt htip
    omega
  rw [startFold]
  split
  case h_1 hnone =>
    exact absurd hnone (readHistoryFold_ne_none fun i part => h.admits_part h.history)
  case h_2 cached hcached =>
    split
    case h_1 fold hfold =>
      obtain ⟨rfl, -⟩ := Option.filter_eq_some_iff.mp hfold
      exact ⟨fold, rfl, (h.history.read hcached).2⟩
    case h_2 =>
      split
      case h_1 hnone =>
        exact absurd hnone (readHistoryFold_ne_none fun i part => h.admits_part h.kept_landed)
      case h_2 found hfound =>
        split
        case h_1 fold hfold =>
          obtain ⟨rfl, -⟩ := Option.filter_eq_some_iff.mp hfold
          exact ⟨fold, rfl, fun key => ((h.kept_landed.read hfound).2 key).imp_right
            fun ⟨_, _, _, hfalse⟩ => absurd hfalse Bool.false_ne_true⟩
        case h_2 hunused =>
          refine ⟨_, rfl, ?_⟩
          rw [wholeHistory, foldTo_base]
          by_cases hempty : landed = ∅
          · exact hempty ▸ lacks_refl _ _
          · obtain ⟨fold, hread, hpoint⟩ := h.landed_read hempty
            rw [hfound, Option.some.injEq] at hread
            have hu : s.journal.usable frameHash at_ fold.point = true :=
              hpoint ▸ usable_iff.mpr ⟨hbase, tipAt_baseSeq ..⟩
            rw [Option.filter_eq_some_iff.mpr ⟨hread, hu⟩] at hunused
            exact absurd hunused nofun

/-- **The history read at a point is the walk's**, but for rows whose instance was held retired. -/
theorem bodyHistory_eq : ∃ rows, s.journal.bodyHistory frameHash at_ = some rows ∧
      Lacks s.retired (s.journal.wholeHistory landed at_.seq) rows := by
  obtain ⟨fold, hfold, hlacks⟩ := h.startFold_eq htip
  obtain ⟨hle, hpoint⟩ := usable_of_startFold htip hfold
  obtain ⟨i, hi, hseq⟩ := exists_add_of_tipAt hpoint
  obtain ⟨j, hj, hat⟩ := exists_add_of_tipAt htip
  rw [hseq] at hpoint hlacks
  obtain ⟨tip, rows, hreplay, htip', hrows⟩ := h.linked.replay_eq collectHistory landed
    (R := Lacks s.retired) (fun _ _ entry h => h.collected entry) (j - i) i fold.point.tip fold.rows
    (by omega) hpoint hlacks
  rw [show s.journal.base.seq + i + (j - i) = at_.seq by omega] at htip' hrows
  rw [htip, Option.some.injEq] at htip'
  refine ⟨rows, ?_, hrows⟩
  rw [bodyHistory, hfold]
  dsimp only
  rw [show at_.seq - fold.point.seq = j - i by omega,
    show fold.point = ⟨s.journal.base.seq + i, fold.point.tip⟩ by rw [← hseq], hreplay]
  exact if_neg (not_not.mpr htip'.symm)

omit h in
theorem mintedFromBase_eq :
    s.journal.mintedFromBase (at_.seq - s.journal.base.seq) s.journal.base.seq ∅ =
      some (s.journal.mintedTo at_.seq) := by
  obtain ⟨i, hi, hseq⟩ := exists_add_of_tipAt htip
  have hwalk := FoldJournal.mintedFromBase_eq (s := s.journal) i 0 (by omega)
  rw [Nat.add_zero, mintedTo, foldTo_base] at hwalk
  rw [hseq, Nat.add_sub_cancel_left]
  exact hwalk

/-- **The instances read at a point are the walk's**, from the cache or not. -/
theorem mintedCached_eq : ∃ rewrites, s.journal.mintedCached frameHash at_ =
      some (s.journal.mintedTo at_.seq, rewrites) := by
  have hwalk : ∃ rewrites, (s.journal.mintedFromBase (at_.seq - s.journal.base.seq)
      s.journal.base.seq ∅).map (fun minted => (minted, decide (s.journal.base.seq < at_.seq))) =
        some (s.journal.mintedTo at_.seq, rewrites) :=
    ⟨_, by rw [mintedFromBase_eq htip]; rfl⟩
  rw [mintedCached]
  cases hcache : s.journal.mintedFromCache frameHash at_ with
  | none => exact hwalk
  | some found =>
    refine ⟨found.2, congrArg some (Prod.ext ?_ rfl)⟩
    rw [mintedFromCache] at hcache
    split at hcache
    case h_1 => exact absurd hcache nofun
    case h_2 fold hfold =>
      split at hcache
      case isFalse => exact absurd hcache nofun
      case isTrue hused =>
        obtain ⟨hpoint, hminted⟩ := h.minted.read hfold
        have hle := (usable_iff.mp hused.1).1
        obtain ⟨i, hi, hseq⟩ := exists_add_of_tipAt hpoint
        obtain ⟨j, hj, hat⟩ := exists_add_of_tipAt htip
        rw [hseq] at hpoint hminted
        obtain ⟨tip, minted, hreplay, -, hfound⟩ := h.linked.replay_eq
          collectMinted ∅ (R := Eq) (fun _ _ entry h => h ▸ rfl) (j - i) i fold.point.tip fold.minted
          (by omega) hpoint hminted.symm
        rw [show s.journal.base.seq + i + (j - i) = at_.seq by omega] at hfound
        rw [show at_.seq - fold.point.seq = j - i by omega,
          show fold.point = ⟨s.journal.base.seq + i, fold.point.tip⟩ by rw [← hseq],
          hreplay] at hcache
        dsimp only at hcache
        split at hcache
        · exact absurd hcache nofun
        · exact (Option.some.inj hcache) ▸ hfound.symm

end

end FoldState.Sound

namespace FoldState.Sound

variable {s t : FoldState} {op : FoldOp}

theorem initial (h : (foldSystem frameHash base landed).init s) : s.Sound frameHash landed := by
  obtain ⟨hbase, hlog, hhistory, hminted, -, hadmits, hlanded⟩ := h
  refine ⟨⟨?_, ?_, ?_⟩, hadmits, hbase ▸ hlanded, ⟨fun _ _ => false, ?_, ?_, ?_⟩, ?_⟩
  · simp [hlog]
  · simp [hlog]
  · simp [hlog]
  · exact fun _ _ _ _ h => h
  · exact fun _ _ h => absurd h Bool.false_ne_true
  · exact fun i part hpart => absurd hpart (by simp [hhistory i])
  · exact fun i part hpart => absurd hpart (by simp [hminted i])

/-- **A head's history is the walk's, pruned.** -/
theorem headHistory_eq (h : s.Sound frameHash landed) {rows : HistoryRows}
    {census : List (CustodyId × EntryState)}
    (htip : s.journal.tipAt frameHash at_.seq = some at_.tip)
    (hretired : ∀ i, s.retired i = true → retiredInstances census i = true)
    (hhead : s.journal.headHistory frameHash at_ census = some rows) :
    rows = prune (retiredInstances census) (s.journal.wholeHistory landed at_.seq) := by
  obtain ⟨read, hread, hlacks⟩ := h.bodyHistory_eq htip
  rw [headHistory, hread, Option.map_some, Option.some.injEq] at hhead
  exact hhead ▸ hlacks.pruned hretired

/-- **Every call leaves part files a later one may read.** -/
theorem step (h : s.Sound frameHash landed) (hstep : FoldStep frameHash s op t) :
    t.Sound frameHash landed := by
  cases hstep with
  | appends hadmits htip =>
    exact ⟨h.linked.appends hadmits htip, h.admits, h.base, h.history.appends, h.minted.appends⟩
  | @heads at_ census parts rows htip hretired hhead hparts =>
    obtain rfl := h.headHistory_eq htip hretired hhead
    obtain ⟨old, hfresher, hold, hkept⟩ := h.history
    refine ⟨h.linked.files _ _, h.admits, h.base, ⟨fun i => if i < parts then retiredInstances census
      else old i, fun i j hij instance_ => ?_, fun i instance_ => ?_, fun i part hpart => ?_⟩,
      h.minted⟩
    · dsimp only
      -- A part past the cut is of an older write, whose census this one's contains.
      by_cases hi : i < parts
      · rw [if_pos hi]
        split
        · exact id
        · exact fun hretires => hretired _ (hold j _ hretires)
      · rw [if_neg hi, if_neg (by omega)]
        exact hfresher i j hij instance_
    · dsimp only
      split
      · exact id
      · exact fun hretires => hretired _ (hold i _ hretires)
    · dsimp only [writeHistory] at hpart ⊢
      split at hpart
      case isTrue hi => exact ⟨at_, htip, by rw [if_pos hi]; exact (Option.some.inj hpart).symm⟩
      case isFalse hi =>
        obtain ⟨point, hpoint, heq⟩ := hkept i part hpart
        exact ⟨point, hpoint, by rw [if_neg hi]; exact heq⟩
  | @mints at_ parts minted rewrites htip hcached hrewrites hparts =>
    refine ⟨h.linked.files _ _, h.admits, h.base, h.history, fun i part hpart => ?_⟩
    dsimp only [writeMinted] at hpart
    split at hpart
    case isTrue =>
      obtain ⟨rewrites', heq⟩ := h.mintedCached_eq htip
      rw [hcached, Option.some.injEq, Prod.mk.injEq] at heq
      obtain ⟨rfl, -⟩ := heq
      exact ⟨at_, htip, (Option.some.inj hpart).symm⟩
    case isFalse => exact h.minted i part hpart
  | losesHistory index =>
    obtain ⟨census, hfresher, hretired, hkept⟩ := h.history
    refine ⟨h.linked.files _ _, h.admits, h.base, ⟨census, hfresher, hretired, fun i part hpart => ?_⟩,
      h.minted⟩
    dsimp only at hpart
    split at hpart
    · exact absurd hpart nofun
    · exact hkept i part hpart
  | losesMinted index =>
    refine ⟨h.linked.files _ _, h.admits, h.base, h.history, fun i part hpart => ?_⟩
    dsimp only at hpart
    split at hpart
    · exact absurd hpart nofun
    · exact h.minted i part hpart

theorem of_reachable (h : (foldSystem frameHash base landed).Reachable s) :
    s.Sound frameHash landed := h.invariant _ initial step

end FoldState.Sound

/-! ## One tip, one log -/

namespace FoldJournal

variable {s other : FoldJournal}

/-- Where a row of the walk is from. -/
theorem from_wholeHistory (htip : s.tipAt frameHash seq = some tip)
    (hrow : (s.wholeHistory landed seq)[key]? = some value) :
    landed[key]? = some value ∨ ∃ n ≤ seq, ∃ frame put, s.frame n = some frame ∧
      frame.entry = .bodyHistory put ∧ (key, value) ∈ put := by
  obtain ⟨i, hi, rfl⟩ := exists_add_of_tipAt htip
  refine foldTo_induct s collectHistory landed
    (P := fun seq (rows : HistoryRows) => ∀ value, rows[key]? = some value →
      landed[key]? = some value ∨ ∃ n ≤ seq, ∃ frame put, s.frame n = some frame ∧
        frame.entry = .bodyHistory put ∧ (key, value) ∈ put)
    (fun value h => .inl h) (fun i frame rows hframe hrows value hrow => ?_) i hi value hrow
  have hold (hrow : rows[key]? = some value) : landed[key]? = some value ∨
      ∃ n ≤ s.base.seq + i + 1, ∃ frame put, s.frame n = some frame ∧
        frame.entry = .bodyHistory put ∧ (key, value) ∈ put :=
    (hrows value hrow).imp_right fun ⟨n, hn, hfound⟩ => ⟨n, by omega, hfound⟩
  cases hentry : frame.entry with
  | bodyHistory put =>
    rw [hentry, collectHistory] at hrow
    by_cases hput : (key, value) ∈ put
    · exact .inr ⟨_, le_rfl, frame, put, (frame_succ s i).trans hframe, hentry, hput⟩
    · exact hold (getElem?_extend hput hrow)
  | _ => exact hold (by simpa only [hentry, collectHistory] using hrow)

/-- The frame a number's tip is of. -/
theorem Linked.frame_of_tipAt (h : s.Linked frameHash)
    (htip : s.tipAt frameHash (seq + 1) = some tip) (hle : s.base.seq ≤ seq) :
    ∃ frame ∈ s.log, s.frame (seq + 1) = some frame ∧ frameHash frame = tip ∧
      s.tipAt frameHash seq = some frame.prev := by
  obtain ⟨i, rfl⟩ := Nat.exists_eq_add_of_le hle
  rw [tipAt_succ] at htip
  obtain ⟨frame, hframe, htip⟩ := Option.map_eq_some_iff.mp htip
  exact ⟨frame, mem_of_getElem? hframe, (frame_succ s i).trans hframe, htip,
    h.prev i frame hframe⟩

/-- **Two logs with one tip at a number are one log up to it**, as far down as both reach. -/
theorem Linked.agree (h : s.Linked frameHash) (hother : other.Linked frameHash)
    (hhash : ∀ f ∈ s.log, ∀ f' ∈ other.log, frameHash f = frameHash f' → f = f') :
    ∀ {seq : ℕ} {tip : FrameHash}, s.tipAt frameHash seq = some tip →
      other.tipAt frameHash seq = some tip → ∀ n ≤ seq, s.base.seq ≤ n → other.base.seq ≤ n →
        s.tipAt frameHash n = other.tipAt frameHash n ∧
        (s.base.seq < n → other.base.seq < n → s.frame n = other.frame n)
  | 0, tip, htip, htip', n, hn, hbase, hbase' => by
    obtain rfl := Nat.le_zero.mp hn
    exact ⟨htip.trans htip'.symm, fun hlt => absurd hlt (Nat.not_lt_zero _)⟩
  | seq + 1, tip, htip, htip', n, hn, hbase, hbase' => by
    by_cases hle : s.base.seq ≤ seq ∧ other.base.seq ≤ seq
    · obtain ⟨frame, hmem, hframe, hhashed, hprev⟩ := h.frame_of_tipAt htip hle.1
      obtain ⟨frame', hmem', hframe', hhashed', hprev'⟩ := hother.frame_of_tipAt htip' hle.2
      obtain rfl := hhash frame hmem frame' hmem' (hhashed.trans hhashed'.symm)
      rcases hn.eq_or_lt with rfl | hlt
      · exact ⟨htip.trans htip'.symm, fun _ _ => hframe.trans hframe'.symm⟩
      · exact Linked.agree h hother hhash hprev hprev' n (by omega) hbase hbase'
    · obtain rfl : n = seq + 1 := by omega
      exact ⟨htip.trans htip'.symm, fun hlt hlt' => absurd ⟨by omega, by omega⟩ hle⟩

end FoldJournal

/-- **What a custody fold is read from is the walk.**  At every point of the log: the history rows are
the walk's, but for rows whose instance some census held retired, and each is what landed or a frame
wrote; the instances are the walk's, from the cache or not.  Whatever the cache's files hold, what a
read starts from is at or before the point asked, and on this log; and two linked logs with the same
tip at a number are one log up to it. -/
theorem custody_folds_equal_walk (frameHash : OpenedFrame → FrameHash) :
    (∀ base landed s, (foldSystem frameHash base landed).Reachable s → ∀ at_ : LogPoint,
      s.journal.tipAt frameHash at_.seq = some at_.tip →
      (∃ rows, s.journal.bodyHistory frameHash at_ = some rows ∧
        Lacks s.retired (s.journal.wholeHistory landed at_.seq) rows ∧
        ∀ key value : Bytes, rows[key]? = some value → landed[key]? = some value ∨
          ∃ n ≤ at_.seq, ∃ frame put, s.journal.frame n = some frame ∧
            frame.entry = .bodyHistory put ∧ (key, value) ∈ put) ∧
      ∃ minted, s.journal.mintedFromBase (at_.seq - s.journal.base.seq) s.journal.base.seq ∅ =
          some minted ∧
        ∃ rewrites, s.journal.mintedCached frameHash at_ = some (minted, rewrites)) ∧
    (∀ (s : FoldJournal) (at_ : LogPoint), s.tipAt frameHash at_.seq = some at_.tip →
      (∀ fold, s.startFold frameHash at_ = some fold → fold.point.seq ≤ at_.seq ∧
        s.tipAt frameHash fold.point.seq = some fold.point.tip) ∧
      ∀ fold found, readMintedFold s.minted = some fold →
        s.mintedFromCache frameHash at_ = some found → fold.base = s.base ∧
          fold.point.seq ≤ at_.seq ∧ s.tipAt frameHash fold.point.seq = some fold.point.tip) ∧
    ∀ s other : FoldJournal, s.Linked frameHash → other.Linked frameHash →
      (∀ f ∈ s.log, ∀ f' ∈ other.log, frameHash f = frameHash f' → f = f') →
      ∀ point : LogPoint, s.tipAt frameHash point.seq = some point.tip →
        other.tipAt frameHash point.seq = some point.tip →
        ∀ n ≤ point.seq, s.base.seq ≤ n → other.base.seq ≤ n →
          s.tipAt frameHash n = other.tipAt frameHash n ∧
          (s.base.seq < n → other.base.seq < n → s.frame n = other.frame n) := by
  refine ⟨fun base landed s hreach at_ htip => ?_, fun s at_ htip => ?_,
    fun s other h hother hhash point htip htip' => h.agree hother hhash htip htip'⟩
  · have hsound := FoldState.Sound.of_reachable hreach
    obtain ⟨rows, hrows, hlacks⟩ := hsound.bodyHistory_eq htip
    exact ⟨⟨rows, hrows, hlacks, fun key value hrow => from_wholeHistory htip (hlacks.sound hrow)⟩,
      _, FoldState.Sound.mintedFromBase_eq htip, hsound.mintedCached_eq htip⟩
  · refine ⟨fun fold => usable_of_startFold htip, fun fold found hread hfound => ?_⟩
    rw [mintedFromCache, hread] at hfound
    dsimp only at hfound
    split at hfound
    case isTrue hused => exact ⟨hused.2, usable_iff.mp hused.1⟩
    case isFalse => exact absurd hfound nofun

end Calls

/-! ## A run -/

namespace FoldRun

/-- A hash that tells the frames of one log apart. -/
def frameHash (frame : OpenedFrame) : FrameHash := ⟨digits 32 (frame.seq + 1), length_digits ..⟩

def pointAt (seq : ℕ) : LogPoint := ⟨seq, ⟨digits 32 (seq + 1), length_digits ..⟩⟩

def begun : FoldState := ⟨⟨pointAt 0, [], fun _ => none, fun _ => none, fun _ => none⟩, fun _ => false⟩

/-- Where a body instance came from. -/
def source : HistoryRow := (ascii "provenance:body_source:v1:" ++ List.replicate 80 7, [2])

/-- An erase's receipt. -/
def receipt (b : UInt8) : HistoryRow := (erasedPrefix ++ List.replicate 32 b, [1])

def bodyId (b : UInt8) : CustodyId := ⟨⟨.bodyInstance, List.replicate 17 b⟩, 0⟩

/-- A frame after the last. -/
def FoldState.framed (s : FoldState) (entry : LogEntry) : FoldState :=
  { s with journal := s.journal.appends entry (pointAt s.journal.log.length).tip }

/-- An instance's source and a receipt, kept in a head by a census that retires the instance. -/
def headed : FoldState :=
  let s := FoldState.framed begun (.bodyHistory [source, receipt 0])
  ⟨s.journal.writeHistory (pointAt 1) (prune (retiredInstances [(bodyId 7, .retired)])
    (extend ∅ [source, receipt 0])) 1, retiredInstances [(bodyId 7, .retired)]⟩

/-- …another instance minted and cached, and one more receipt. -/
def written : FoldState :=
  let s := FoldState.framed headed (.mint (bodyId 8))
  let t := { s with journal := s.journal.writeMinted (pointAt 2) {List.replicate 16 8} 1 }
  FoldState.framed t (.bodyHistory [receipt 9])

theorem reachable_written : (foldSystem frameHash begun.journal.base ∅).Reachable written := by
  have hbegun : (foldSystem frameHash begun.journal.base ∅).Reachable begun :=
    .start ⟨rfl, rfl, fun _ => rfl, fun _ => rfl, fun _ => rfl, by simp, .inl ⟨rfl, fun _ => rfl⟩⟩
  have hsourced : (foldSystem frameHash begun.journal.base ∅).Reachable
      (FoldState.framed begun (.bodyHistory [source, receipt 0])) :=
    .step hbegun (.appends (fun put heq => LogEntry.bodyHistory.inj heq ▸ by decide) rfl)
  have hheaded : (foldSystem frameHash begun.journal.base ∅).Reachable headed :=
    .step hsourced (show FoldStep frameHash _ (.heads (pointAt 1) _ 1) _ from
      .heads rfl nofun rfl (by decide +kernel))
  have hminted : (foldSystem frameHash begun.journal.base ∅).Reachable
      (FoldState.framed headed (.mint (bodyId 8))) := .step hheaded (.appends nofun rfl)
  refine .step (.step hminted (show FoldStep frameHash _ (.mints (pointAt 2) 1) _ from
    .mints rfl rfl nofun (by decide +kernel))) (.appends (fun put heq => ?_) rfl)
  exact LogEntry.bodyHistory.inj heq ▸ by decide

end FoldRun

open FoldRun

/-- What is read back lacks the retired instance's source alone, and both receipts are there; and the
instance minted is read as its frame has it. -/
theorem custody_folds_pruned :
    (∃ rows, written.journal.bodyHistory FoldRun.frameHash (pointAt 3) = some rows ∧
      Lacks written.retired (written.journal.wholeHistory ∅ 3) rows) ∧
    (written.journal.bodyHistory FoldRun.frameHash (pointAt 3)).map (fun rows =>
      [source, receipt 0, receipt 9].map (rows[·.1]?)) = some [none, some [1], some [1]] ∧
    ∃ minted rewrites, written.journal.mintedFromBase 3 0 ∅ = some minted ∧
      written.journal.mintedCached FoldRun.frameHash (pointAt 3) = some (minted, rewrites) := by
  obtain ⟨⟨rows, hrows, hlacks, -⟩, minted, hminted, rewrites, hcached⟩ :=
    (custody_folds_equal_walk FoldRun.frameHash).1 _ ∅ written reachable_written (pointAt 3) rfl
  exact ⟨⟨rows, hrows, hlacks⟩, by decide +kernel, minted, rewrites, hminted, hcached⟩

end Oneiron
