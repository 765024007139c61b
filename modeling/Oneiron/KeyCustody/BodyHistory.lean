import Oneiron.Foundations.Chunks
import Oneiron.KeyCustody.Frame
import Oneiron.KeyCustody.Retirement

/-!
# KeyCustody/BodyHistory — the folds of a custody log, and the caches that shorten their walks

    base -- rows -- · -- rows -- at         a fold: the rows up to a point, kept in part files

A fold is kept whole in any number of parts, rewritten in place one by one; a head's is pruned of the
rows an erase no longer owes.  What is read back starts a walk only where it stands on the log.
-/

namespace Oneiron

/-- One history row: a `vault_meta` key and its value. -/
abbrev HistoryRow := KvPair

/-- The latest history rows, by key. -/
abbrev HistoryRows := OrderedMap Bytes Bytes

/-- A body instance's id: 16 bytes. -/
abbrev BodyInstanceId := Bytes

inductive EntryState where
  | live | retired | missing
  deriving DecidableEq

namespace BodyHistory

/-- The most rows one fold part holds. -/
def foldPartRows : ℕ := 16384

def erasedPrefix : Bytes := ascii "provenance:body_erased:v1:"

/-- The families a history row may be of, and the bytes each key holds after its prefix. -/
def families : List (Bytes × ℕ) :=
  [(erasedPrefix, 32), (ascii "provenance:body_instance:v1:", 48),
    (ascii "provenance:body_response_owner:v1:", 32), (ascii "provenance:body_source:v1:", 80)]

/-- Whether `key` is a history row's. -/
def admits (key : Bytes) : Bool :=
  families.any fun family =>
    family.1.isPrefixOf key && decide (key.length = family.1.length + family.2)

/-- The instance a history row names, when its family's obligation ends with the instance's
retirement. -/
def owedInstance (key : Bytes) : Option BodyInstanceId :=
  if erasedPrefix.isPrefixOf key then none
  else if 16 ≤ key.length then some (key.drop (key.length - 16)) else none

/-- The body instances `census` holds retired. -/
def retiredInstances (census : List (CustodyId × EntryState)) (instance_ : BodyInstanceId) : Bool :=
  census.any fun (id, state) =>
    decide (id.subject.kind = .bodyInstance) && decide (state = .retired) &&
      decide (16 ≤ id.subject.item.length) && decide (id.subject.item.take 16 = instance_)

/-- `BTreeMap::extend`. -/
def extend (rows : HistoryRows) (put : List HistoryRow) : HistoryRows :=
  put.foldl (fun rows row => rows.insert row.1 row.2) rows

/-- `rows` without those an erase of a retired instance no longer owes. -/
def prune (retired : BodyInstanceId → Bool) (rows : HistoryRows) : HistoryRows :=
  rows.filter fun key _ => (owedInstance key).all fun instance_ => !retired instance_

end BodyHistory

open BodyHistory

/-- What a walk reads of a frame it opened. -/
structure OpenedFrame where
  seq : ℕ
  prev : FrameHash
  entry : LogEntry

/-- A point of the log. -/
structure LogPoint where
  seq : ℕ
  tip : FrameHash
  deriving DecidableEq

/-- One part of a history fold, as it is sealed. -/
structure HistoryPart where
  point : LogPoint
  index : ℕ
  count : ℕ
  rows : List HistoryRow

/-- A fold read back: where it stands and its rows. -/
structure HistoryFold where
  point : LogPoint
  rows : HistoryRows

/-- One part of a fold of minted instances: its header names the base too. -/
structure MintedPart where
  point : LogPoint
  index : ℕ
  count : ℕ
  base : LogPoint
  minted : List BodyInstanceId

structure MintedFold where
  point : LogPoint
  base : LogPoint
  minted : OrderedSet BodyInstanceId

/-- A journal's log past its base, and the fold files beside it. -/
structure FoldJournal where
  base : LogPoint
  log : List OpenedFrame
  landed : ℕ → Option HistoryPart
  history : ℕ → Option HistoryPart
  minted : ℕ → Option MintedPart

/-! ### Reading a fold back -/

/-- The parts of one fold from an index on: `none` for a part that does not read, `some none` where one
is missing or another's. -/
def readHistoryParts (parts : ℕ → Option HistoryPart) (point : LogPoint) (count : ℕ) :
    ℕ → ℕ → HistoryRows → Option (Option HistoryRows)
  | 0, _, rows => some (some rows)
  | left + 1, index, rows =>
    match parts index with
    | none => some none
    | some part =>
      if part.rows.all (fun row => admits row.1) then
        if part.index ≠ index ∨ part.count ≠ count ∨ part.point ≠ point then some none
        else readHistoryParts parts point count left (index + 1) (extend rows part.rows)
      else none

/-- `read_fold`. -/
def readHistoryFold (parts : ℕ → Option HistoryPart) : Option (Option HistoryFold) :=
  match parts 0 with
  | none => some none
  | some part =>
    if part.rows.all (fun row => admits row.1) then
      if part.index ≠ 0 then some none
      else (readHistoryParts parts part.point part.count (part.count - 1) 1
          (extend (∅ : HistoryRows) part.rows)).map
        (·.map fun rows => ⟨part.point, rows⟩)
    else none

/-- The parts of one minted fold from an index on: `none` on any doubt. -/
def readMintedParts (parts : ℕ → Option MintedPart) (point base : LogPoint) (count : ℕ) :
    ℕ → ℕ → OrderedSet BodyInstanceId → Option (OrderedSet BodyInstanceId)
  | 0, _, minted => some minted
  | left + 1, index, minted =>
    match parts index with
    | none => none
    | some part =>
      if part.index ≠ index ∨ part.count ≠ count ∨ part.point ≠ point ∨ part.base ≠ base then none
      else readMintedParts parts point base count left (index + 1)
        (part.minted.foldl (fun minted instance_ => minted.insert instance_) minted)

/-- `read_minted_fold`. -/
def readMintedFold (parts : ℕ → Option MintedPart) : Option MintedFold :=
  match parts 0 with
  | none => none
  | some part =>
    if part.index ≠ 0 then none
    else (readMintedParts parts part.point part.base part.count (part.count - 1) 1
        (part.minted.foldl (fun minted instance_ => minted.insert instance_) ∅)).map
      fun minted => ⟨part.point, part.base, minted⟩

namespace FoldJournal

variable (frameHash : OpenedFrame → FrameHash) (s : FoldJournal)

/-- The frame at a sequence number. -/
def frame (seq : ℕ) : Option OpenedFrame :=
  if s.base.seq < seq then s.log[seq - s.base.seq - 1]? else none

/-- The hash at a number of the log: the base's, or its frame's. -/
def tipAt (seq : ℕ) : Option FrameHash :=
  if seq = s.base.seq then some s.base.tip else (s.frame seq).map frameHash

/-- `stands`: whether a point is on this log. -/
def stands (point : LogPoint) : Bool :=
  if point.seq = s.base.seq then point.tip = s.base.tip
  else decide (s.base.seq < point.seq) &&
    (s.frame point.seq).any fun frame => frameHash frame = point.tip

/-- A walk of so many frames from a point, each checked to extend the one before it. -/
def replay {α : Type} (collect : α → LogEntry → α) :
    ℕ → LogPoint → α → Option (FrameHash × α)
  | 0, point, folded => some (point.tip, folded)
  | left + 1, point, folded =>
    match s.frame (point.seq + 1) with
    | none => none
    | some frame =>
      if frame.seq ≠ point.seq + 1 ∨ frame.prev ≠ point.tip then none
      else replay collect left ⟨point.seq + 1, frameHash frame⟩ (collect folded frame.entry)

/-- A frame's history rows, into a fold. -/
def collectHistory (rows : HistoryRows) : LogEntry → HistoryRows
  | .bodyHistory put => extend rows put
  | _ => rows

/-- `collect_minted`. -/
def collectMinted (minted : OrderedSet BodyInstanceId) : LogEntry → OrderedSet BodyInstanceId
  | .mint id =>
    if id.subject.kind = .bodyInstance ∧ 16 ≤ id.subject.item.length then
      minted.insert (id.subject.item.take 16)
    else minted
  | _ => minted

/-- Whether a fold read back starts the walk to a point. -/
def usable (at_ point : LogPoint) : Bool :=
  decide (point.seq ≤ at_.seq) && s.stands frameHash point

/-- The fold a walk to `at_` starts from: the cache's, the landed one, or the empty one at the base.
`none` where a part of one does not read. -/
def startFold (at_ : LogPoint) : Option HistoryFold :=
  match readHistoryFold s.history with
  | none => none
  | some cached =>
    match cached.filter fun fold => s.usable frameHash at_ fold.point with
    | some fold => some fold
    | none =>
      match readHistoryFold s.landed with
      | none => none
      | some landed =>
        match landed.filter fun fold => s.usable frameHash at_ fold.point with
        | some fold => some fold
        | none => some ⟨s.base, ∅⟩

/-- The latest history rows at a point. -/
def bodyHistory (at_ : LogPoint) : Option HistoryRows :=
  match s.startFold frameHash at_ with
  | none => none
  | some fold =>
    match s.replay frameHash collectHistory (at_.seq - fold.point.seq) fold.point fold.rows with
    | none => none
    | some (tip, rows) => if tip ≠ at_.tip then none else some rows

/-- …for a head sealed there, pruned by a census. -/
def headHistory (at_ : LogPoint) (census : List (CustodyId × EntryState)) : Option HistoryRows :=
  (s.bodyHistory frameHash at_).map (prune (retiredInstances census))

/-- The parts of a fold of rows. -/
def historyPart (point : LogPoint) (rows : HistoryRows) (index : ℕ) : HistoryPart :=
  ⟨point, index, chunkCount foldPartRows rows.toList, chunk foldPartRows index rows.toList⟩

/-- `write_fold`, cut short after so many parts. -/
def writeHistory (at_ : LogPoint) (rows : HistoryRows) (parts : ℕ) : FoldJournal :=
  { s with history := fun index =>
      if index < parts then some (historyPart at_ rows index) else s.history index }

/-- Every Mint frame's body instance past the base to a number, unchecked: `minted_from_base`. -/
def mintedFromBase : ℕ → ℕ → OrderedSet BodyInstanceId → Option (OrderedSet BodyInstanceId)
  | 0, _, minted => some minted
  | left + 1, seq, minted =>
    match s.frame (seq + 1) with
    | none => none
    | some frame => mintedFromBase left (seq + 1) (collectMinted minted frame.entry)

/-- The cached fold a walk to a point starts from, carried there, and whether any frame was folded
in. -/
def mintedFromCache (at_ : LogPoint) : Option (OrderedSet BodyInstanceId × Bool) :=
  match readMintedFold s.minted with
  | none => none
  | some fold =>
    if s.usable frameHash at_ fold.point ∧ fold.base = s.base then
      match s.replay frameHash collectMinted (at_.seq - fold.point.seq) fold.point fold.minted with
      | none => none
      | some (tip, minted) =>
        if tip ≠ at_.tip then none else some (minted, decide (fold.point.seq < at_.seq))
    else none

/-- The minted instances at a point, and whether the cache is rewritten. -/
def mintedCached (at_ : LogPoint) : Option (OrderedSet BodyInstanceId × Bool) :=
  match s.mintedFromCache frameHash at_ with
  | some found => some found
  | none => (s.mintedFromBase (at_.seq - s.base.seq) s.base.seq ∅).map fun minted =>
      (minted, decide (s.base.seq < at_.seq))

def mintedPart (point : LogPoint) (minted : OrderedSet BodyInstanceId) (index : ℕ) : MintedPart :=
  ⟨point, index, chunkCount foldPartRows minted.toList, s.base,
    chunk foldPartRows index minted.toList⟩

/-- `write_minted_fold`, cut short after so many parts. -/
def writeMinted (at_ : LogPoint) (minted : OrderedSet BodyInstanceId) (parts : ℕ) : FoldJournal :=
  { s with minted := fun index =>
      if index < parts then some (s.mintedPart at_ minted index) else s.minted index }

/-- A frame that extends the log. -/
def appends (entry : LogEntry) (tip : FrameHash) : FoldJournal :=
  { s with log := s.log ++ [⟨s.base.seq + s.log.length + 1, tip, entry⟩] }

end FoldJournal

/-- A journal, with the instances some census held retired so far. -/
structure FoldState where
  journal : FoldJournal
  retired : BodyInstanceId → Bool

inductive FoldOp where
  | appends (entry : LogEntry)
  | heads (at_ : LogPoint) (census : List (CustodyId × EntryState)) (parts : ℕ)
  | mints (at_ : LogPoint) (parts : ℕ)
  | losesHistory (index : ℕ)
  | losesMinted (index : ℕ)

/-- A call at a point of the log, its cache's write cut short anywhere; a frame; or a part lost.  An
instance once retired stays retired. -/
inductive FoldStep (frameHash : OpenedFrame → FrameHash) : FoldState → FoldOp → FoldState → Prop
  | appends {s : FoldState} {entry : LogEntry} {tip : FrameHash} :
      (∀ put, entry = .bodyHistory put → ∀ row ∈ put, admits row.1 = true) →
      s.journal.tipAt frameHash (s.journal.base.seq + s.journal.log.length) = some tip →
      FoldStep frameHash s (.appends entry) { s with journal := s.journal.appends entry tip }
  | heads {s : FoldState} {at_ : LogPoint} {census : List (CustodyId × EntryState)} {parts : ℕ}
      {rows : HistoryRows} : s.journal.tipAt frameHash at_.seq = some at_.tip →
      (∀ instance_, s.retired instance_ = true → retiredInstances census instance_ = true) →
      s.journal.headHistory frameHash at_ census = some rows →
      parts ≤ chunkCount foldPartRows rows.toList →
      FoldStep frameHash s (.heads at_ census parts)
        ⟨s.journal.writeHistory at_ rows parts, retiredInstances census⟩
  | mints {s : FoldState} {at_ : LogPoint} {parts : ℕ} {minted : OrderedSet BodyInstanceId}
      {rewrites : Bool} : s.journal.tipAt frameHash at_.seq = some at_.tip →
      s.journal.mintedCached frameHash at_ = some (minted, rewrites) →
      (rewrites = false → parts = 0) → parts ≤ chunkCount foldPartRows minted.toList →
      FoldStep frameHash s (.mints at_ parts)
        { s with journal := s.journal.writeMinted at_ minted parts }
  | losesHistory {s : FoldState} (index : ℕ) : FoldStep frameHash s (.losesHistory index)
      { s with journal := { s.journal with
          history := fun i => if i = index then none else s.journal.history i } }
  | losesMinted {s : FoldState} (index : ℕ) : FoldStep frameHash s (.losesMinted index)
      { s with journal := { s.journal with
          minted := fun i => if i = index then none else s.journal.minted i } }

/-- A journal begun here, or landed with the history it was admitted at. -/
def foldSystem (frameHash : OpenedFrame → FrameHash) (base : LogPoint) (landed : HistoryRows) :
    System FoldState FoldOp where
  init s := s.journal.base = base ∧ s.journal.log = [] ∧ (∀ i, s.journal.history i = none) ∧
    (∀ i, s.journal.minted i = none) ∧ (∀ instance_, s.retired instance_ = false) ∧
    (∀ row ∈ landed.toList, admits row.1 = true) ∧
    ((landed = ∅ ∧ ∀ i, s.journal.landed i = none) ∨
      ∀ i, s.journal.landed i =
        if i < chunkCount foldPartRows landed.toList then
          some (FoldJournal.historyPart base landed i)
        else none)
  step := FoldStep frameHash

end Oneiron
