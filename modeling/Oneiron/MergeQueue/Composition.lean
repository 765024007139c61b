import Oneiron.Contracts.Bytes

/-!
# MergeQueue/Composition — disjoint proposals of one file, composed by lines

Each proposal is kept as its runs of changed base lines.  The next one's runs are added when none
overlaps a run kept, and the base is rendered with all of them in base order.  The diff of lines is
a parameter; no value is a slice out of range.
-/

namespace Oneiron

/-- One proposal's changed run: base lines `start..stop` become `replacement`. -/
structure ChangedRun where
  start : ℕ
  stop : ℕ
  replacement : Bytes
  deriving DecidableEq

namespace ChangedRun

def isInsertion (run : ChangedRun) : Bool := run.start = run.stop

/-- Interiors that meet; two insertions at one gap; an insertion in a range or on its boundary. -/
def overlaps (run other : ChangedRun) : Bool :=
  match run.isInsertion, other.isInsertion with
  | true, true => run.start = other.start
  | true, false => other.start ≤ run.start && run.start ≤ other.stop
  | false, true => run.start ≤ other.start && other.start ≤ run.stop
  | false, false => run.start < other.stop && other.start < run.stop

/-- The order of `(start, stop)`. -/
def le (run other : ChangedRun) : Bool :=
  run.start < other.start || run.start = other.start && run.stop ≤ other.stop

end ChangedRun

inductive DiffTag
  | equal | delete | insert | replace
  deriving DecidableEq

/-- An operation of a diff, on a range of each side. -/
structure DiffOp where
  tag : DiffTag
  old : ℕ × ℕ
  new : ℕ × ℕ

/-- `&list[range]`. -/
def sliceOf {α : Type} (list : List α) (range : ℕ × ℕ) : Option (List α) :=
  if range.1 ≤ range.2 ∧ range.2 ≤ list.length then some ((list.take range.2).drop range.1) else none

/-- Lines with their terminators kept. -/
def splitInclusive : Bytes → List Bytes
  | [] => []
  | b :: rest =>
    if b = 10 then [b] :: splitInclusive rest
    else match splitInclusive rest with
      | [] => [[b]]
      | line :: lines => (b :: line) :: lines

/-- Characters of a UTF-8 text, each with its continuation bytes. -/
def scalarsOf (b : Bytes) : List Bytes := b.splitBy fun _ next => next &&& 0xC0 = 0x80

/-- Where the one span that turns `old` into `new` starts and ends. -/
def spanBetween (old new : List Bytes) : ℕ × ℕ :=
  let same (l r : List Bytes) := ((l.zip r).takeWhile fun p => p.1 = p.2).length
  let start := same old new
  (start, old.length - same (old.drop start).reverse (new.drop start).reverse)

/-- What one more proposal composes to. -/
structure ComposedFile where
  bytes : Bytes
  coversEarlier : Bool

/-- One path's proposals, composed from one base in batch order. -/
structure LineComposition where
  base : Bytes
  /-- The offset each base line starts at, then the base's length. -/
  lineStarts : List ℕ
  /-- Every composed proposal's runs, in base order. -/
  runs : List ChangedRun

/-- The offsets after each newline, from the first line on. -/
def lineStartsOf (base : Bytes) : List ℕ :=
  let starts := 0 :: (base.zipIdx.filter fun p => p.1 = 10).map fun p => p.2 + 1
  if starts.getLast? = some base.length then starts else starts ++ [base.length]

namespace LineComposition

variable (diff : List Bytes → List Bytes → List DiffOp) (c : LineComposition)

def lineCount : ℕ := c.lineStarts.length - 1

/-- Base lines `first..last` as one byte span. -/
def baseSpan (first last : ℕ) : Option Bytes := do
  sliceOf c.base (← c.lineStarts[first]?, ← c.lineStarts[last]?)

/-- One operation, into the runs closed and the one open. -/
def changedRunsStep (lines : List Bytes) :
    List ChangedRun × Option ChangedRun → DiffOp → Option (List ChangedRun × Option ChangedRun)
  | (runs, opened), op =>
    if op.tag = .equal then some (runs ++ opened.toList, none)
    else do
      let run := opened.getD ⟨op.old.1, op.old.1, []⟩
      let new ← sliceOf lines op.new
      some (runs, some ⟨run.start, op.old.2, run.replacement ++ new.flatten⟩)

/-- The runs a postimage changes, each one maximal changed stretch. -/
def changedRuns (postimage : Bytes) : Option (List ChangedRun) := do
  let base ← (List.range c.lineCount).mapM fun line => c.baseSpan line (line + 1)
  let lines := splitInclusive postimage
  let (runs, opened) ← (diff base lines).foldlM (changedRunsStep lines) ([], none)
  some (runs ++ opened.toList)

/-- The base with runs applied in base order, from line `at_` on. -/
def renderFrom (c : LineComposition) : ℕ → List ChangedRun → Option Bytes
  | at_, [] => c.baseSpan at_ c.lineCount
  | at_, run :: runs => do
    let kept ← c.baseSpan at_ run.start
    let rest ← c.renderFrom run.stop runs
    some (kept ++ run.replacement ++ rest)

def render (runs : List ChangedRun) : Option Bytes := c.renderFrom 0 runs

/-- The bytes every proposal composed so far gives. -/
def output : Option Bytes := c.render c.runs

/-- Each run's replacement as a range of characters of the output. -/
def scalarRegionsFrom (c : LineComposition) :
    (offset at_ : ℕ) → List ChangedRun → Option (List (ℕ × ℕ))
  | _, _, [] => some []
  | offset, at_, run :: runs => do
    let scalars (b : Bytes) := b.countP fun byte => byte &&& 0xC0 ≠ 0x80
    let start := offset + scalars (← c.baseSpan at_ run.start)
    let stop := start + scalars run.replacement
    some ((start, stop) :: (← c.scalarRegionsFrom stop run.stop runs))

/-- Whether the one span that turns `staged` into `composed` meets an earlier proposal's text. -/
def coversEarlier (staged composed : Bytes) : Option Bool :=
  if c.runs = [] then some false
  else if ¬(isUtf8 staged ∧ isUtf8 composed) then some true
  else do
    let span := spanBetween (scalarsOf staged) (scalarsOf composed)
    let regions ← c.scalarRegionsFrom 0 0 c.runs
    some (regions.any fun region =>
      region.1 < region.2 && region.1 < span.2 && span.1 < region.2)

/-- `compose(B, S, P) -> C`, and the composition after it. -/
def compose (staged postimage : Bytes) : Option (Option ComposedFile × LineComposition) :=
  if isUtf8 postimage = false then some (none, c)
  else do
    let added ← c.changedRuns diff postimage
    if added = [] ∨ added.any fun run => c.runs.any fun kept => kept.overlaps run then some (none, c)
    else if (← c.output) ≠ staged then some (none, c)
    else
      let runs := (c.runs ++ added).mergeSort ChangedRun.le
      let bytes ← c.render runs
      let coversEarlier ← c.coversEarlier staged bytes
      some (some ⟨bytes, coversEarlier⟩, { c with runs })

/-- The composition of one proposal's postimage over `base`. -/
def new (base postimage : Bytes) : Option (Option LineComposition) :=
  if isUtf8 base = false then some none
  else do
    let (composed, c) ← compose diff ⟨base, lineStartsOf base, []⟩ base postimage
    some (composed.map fun _ => c)

end LineComposition

end Oneiron
