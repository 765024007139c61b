import Oneiron.Contracts.Bytes
import Oneiron.Foundations.System

/-!
# Base/MsgpackShape — a budget check of untrusted MessagePack before it is decoded

    owed :: open      marker --▸ skip its payload, one value less owed
    [1]                 └- opens n --▸ n :: owed :: open

One loop walks the markers, with what each enclosing container still owes on a stack.  The value
trees and their legal encodings are below it, each format as its marker and length field.
-/

namespace Oneiron

/-! ## The check -/

structure ShapeBudget where
  /-- The most values the body may hold; a map counts its keys and values. -/
  maxValues : ℕ
  /-- The most containers that may be open at once. -/
  maxDepth : ℕ
  /-- The longest string, binary or extension payload. -/
  maxScalarBytes : ℕ

inductive OverBudget where
  | values
  | depth
  | scalar
  deriving DecidableEq

namespace MsgpackShape

/-- What the arms of `step` do with a marker. -/
inductive MarkerArm where
  /-- The bytes to skip, the values it opens and its payload, by the marker alone. -/
  | fixed (skip children payload : ℕ)
  /-- A payload of the length a field says, so many more bytes between. -/
  | sized (width extra : ℕ)
  /-- As many values as a field says, times so many. -/
  | counted (width per : ℕ)
  deriving DecidableEq

def markerArm (marker : UInt8) : MarkerArm :=
  if marker ≤ 0x7f ∨ 0xe0 ≤ marker ∨ 0xc0 ≤ marker ∧ marker ≤ 0xc3 then .fixed 0 0 0
  else if marker ≤ 0x8f then .fixed 0 (2 * (marker &&& 0x0f).toNat) 0
  else if marker ≤ 0x9f then .fixed 0 (marker &&& 0x0f).toNat 0
  else if marker ≤ 0xbf then .fixed (marker &&& 0x1f).toNat 0 (marker &&& 0x1f).toNat
  else if marker = 0xc4 ∨ marker = 0xd9 then .sized 1 0
  else if marker = 0xc5 ∨ marker = 0xda then .sized 2 0
  else if marker = 0xc6 ∨ marker = 0xdb then .sized 4 0
  else if marker = 0xc7 then .sized 1 1
  else if marker = 0xc8 then .sized 2 1
  else if marker = 0xc9 then .sized 4 1
  else if marker = 0xcc ∨ marker = 0xd0 then .fixed 1 0 0
  else if marker = 0xcd ∨ marker = 0xd1 then .fixed 2 0 0
  else if marker = 0xca ∨ marker = 0xce ∨ marker = 0xd2 then .fixed 4 0 0
  else if marker = 0xcb ∨ marker = 0xcf ∨ marker = 0xd3 then .fixed 8 0 0
  else if marker = 0xd4 then .fixed 2 0 0
  else if marker = 0xd5 then .fixed 3 0 0
  else if marker = 0xd6 then .fixed 5 0 0
  else if marker = 0xd7 then .fixed 9 0 0
  else if marker = 0xd8 then .fixed 17 0 0
  else if marker = 0xdc then .counted 2 1
  else if marker = 0xdd then .counted 4 1
  else if marker = 0xde then .counted 2 2
  else .counted 4 2

/-- A big-endian length of `width` bytes at a position. -/
def lengthField (bytes : Bytes) (pos width : ℕ) : Option ℕ :=
  if pos + width ≤ bytes.length then some (valueOf ((bytes.drop pos).take width)) else none

/-- For one marker: the bytes to skip after it, the values it opens, and the length of the payload
it carries. -/
def step (marker : UInt8) (bytes : Bytes) (pos : ℕ) : Option (ℕ × ℕ × ℕ) :=
  match markerArm marker with
  | .fixed skip children payload => some (skip, children, payload)
  | .sized width extra =>
    (lengthField bytes pos width).map fun len => (width + extra + len, 0, len)
  | .counted width per => (lengthField bytes pos width).map fun n => (width, n * per, 0)

/-- What is owed next, the finished containers closed: one value less, in those still open. -/
def nextOwed : List ℕ → Option (ℕ × List ℕ)
  | [] => none
  | 0 :: opened => nextOwed opened
  | (owed + 1) :: opened => some (owed, opened)

/-- The loop of `over_budget`, at a position with so many values read. -/
def walk (bytes : Bytes) (budget : ShapeBudget) (pos values : ℕ) (stack : List ℕ) :
    Option OverBudget :=
  match nextOwed stack with
  | none => none
  | some (owed, opened) =>
    if values + 1 > budget.maxValues then some .values
    else if hpos : pos < bytes.length then
      match step bytes[pos] bytes (pos + 1) with
      | none => none
      | some (skip, children, payload) =>
        if payload > budget.maxScalarBytes then some .scalar
        else if pos + 1 + skip > bytes.length then none
        else if children > 0 then
          if opened.length ≥ budget.maxDepth then some .depth
          else walk bytes budget (pos + 1 + skip) (values + 1) (children :: owed :: opened)
        else walk bytes budget (pos + 1 + skip) (values + 1) (owed :: opened)
    else none
termination_by bytes.length - pos

/-- `over_budget`. -/
def overBudget (bytes : Bytes) (budget : ShapeBudget) : Option OverBudget := walk bytes budget 0 0 [1]

end MsgpackShape

/-! ## What a body may be -/

inductive MsgValue where
  | nil
  | boolean (b : Bool)
  | integer (n : ℤ)
  | float32 (bits : UInt32)
  | float64 (bits : UInt64)
  | string (text : Bytes)
  | binary (data : Bytes)
  | ext (kind : UInt8) (data : Bytes)
  | array (items : List MsgValue)
  | map (entries : List (MsgValue × MsgValue))

/-- How much a value holds: its values, its own among them, the non-empty containers open at once,
and the longest payload. -/
structure MsgShape where
  values : ℕ
  depth : ℕ
  payload : ℕ

namespace MsgShape

def none : MsgShape := ⟨0, 0, 0⟩

/-- One value after another. -/
def join (s t : MsgShape) : MsgShape :=
  ⟨s.values + t.values, max s.depth t.depth, max s.payload t.payload⟩

/-- The container of such values. -/
def enclose (s : MsgShape) : MsgShape :=
  ⟨s.values + 1, if s.values = 0 then 0 else s.depth + 1, s.payload⟩

end MsgShape

mutual

def MsgValue.shape : MsgValue → MsgShape
  | .string text => ⟨1, 0, text.length⟩
  | .binary data => ⟨1, 0, data.length⟩
  | .ext _ data => ⟨1, 0, data.length⟩
  | .array items => (allShape items).enclose
  | .map entries => (entriesShape entries).enclose
  | .nil | .boolean _ | .integer _ | .float32 _ | .float64 _ => ⟨1, 0, 0⟩

def allShape : List MsgValue → MsgShape
  | [] => .none
  | value :: values => value.shape.join (allShape values)

def entriesShape : List (MsgValue × MsgValue) → MsgShape
  | [] => .none
  | (key, value) :: entries => key.shape.join (value.shape.join (entriesShape entries))

end

/-! ## How it may be spelled -/

/-- A length in a marker of its own below a bound, or in a field after one of these markers. -/
inductive LengthForm (base : UInt8) (bound : ℕ) (fields : List (UInt8 × ℕ)) : ℕ → Bytes → Prop
  | marker {n : ℕ} : n < bound → LengthForm base bound fields n [base + n.toUInt8]
  | field {n : ℕ} {marker : UInt8} {width : ℕ} : (marker, width) ∈ fields → n < 256 ^ width →
    LengthForm base bound fields n (marker :: digits width n)

/-- The whole numbers: of the marker itself, unsigned, and in two's complement. -/
inductive IntForm : ℤ → Bytes → Prop
  | positive {n : ℕ} : n < 128 → IntForm n [n.toUInt8]
  | negative {n : ℕ} : n < 32 → IntForm (-(n + 1)) [0xff - n.toUInt8]
  | unsigned {n width : ℕ} {marker : UInt8} :
    (marker, width) ∈ [(0xcc, 1), (0xcd, 2), (0xce, 4), (0xcf, 8)] → n < 256 ^ width →
    IntForm n (marker :: digits width n)
  | signed {n : ℤ} {width : ℕ} {marker : UInt8} :
    (marker, width) ∈ [(0xd0, 1), (0xd1, 2), (0xd2, 4), (0xd3, 8)] →
    -(256 ^ width / 2 : ℤ) ≤ n → n < 256 ^ width / 2 →
    IntForm n (marker :: digits width (n % 256 ^ width).toNat)

mutual

/-- The legal encodings of a value, with the longest payload whose length stands before it and the
longest of a fixed extension. -/
inductive Encodes : MsgValue → Bytes → (sized fixed : ℕ) → Prop
  | nil : Encodes .nil [0xc0] 0 0
  | boolean (b : Bool) : Encodes (.boolean b) [if b then 0xc3 else 0xc2] 0 0
  | integer {n : ℤ} {b : Bytes} : IntForm n b → Encodes (.integer n) b 0 0
  | float32 (bits : UInt32) : Encodes (.float32 bits) (0xca :: digits 4 bits.toNat) 0 0
  | float64 (bits : UInt64) : Encodes (.float64 bits) (0xcb :: digits 8 bits.toNat) 0 0
  | string {text head : Bytes} :
    LengthForm 0xa0 32 [(0xd9, 1), (0xda, 2), (0xdb, 4)] text.length head →
    Encodes (.string text) (head ++ text) text.length 0
  | binary {data head : Bytes} :
    LengthForm 0 0 [(0xc4, 1), (0xc5, 2), (0xc6, 4)] data.length head →
    Encodes (.binary data) (head ++ data) data.length 0
  | ext {kind : UInt8} {data head : Bytes} :
    LengthForm 0 0 [(0xc7, 1), (0xc8, 2), (0xc9, 4)] data.length head →
    Encodes (.ext kind data) (head ++ kind :: data) data.length 0
  | fixedExt {kind marker : UInt8} {data : Bytes} :
    (marker, data.length) ∈ [(0xd4, 1), (0xd5, 2), (0xd6, 4), (0xd7, 8), (0xd8, 16)] →
    Encodes (.ext kind data) (marker :: kind :: data) 0 data.length
  | array {items : List MsgValue} {head body : Bytes} {sized fixed : ℕ} :
    LengthForm 0x90 16 [(0xdc, 2), (0xdd, 4)] items.length head →
    EncodesAll items body sized fixed → Encodes (.array items) (head ++ body) sized fixed
  | map {entries : List (MsgValue × MsgValue)} {head body : Bytes} {sized fixed : ℕ} :
    LengthForm 0x80 16 [(0xde, 2), (0xdf, 4)] entries.length head →
    EncodesAll (entries.flatMap fun entry => [entry.1, entry.2]) body sized fixed →
    Encodes (.map entries) (head ++ body) sized fixed

/-- One value after another. -/
inductive EncodesAll : List MsgValue → Bytes → (sized fixed : ℕ) → Prop
  | nil : EncodesAll [] [] 0 0
  | cons {value : MsgValue} {values : List MsgValue} {b rest : Bytes} {sized sized' fixed fixed' : ℕ} :
    Encodes value b sized fixed → EncodesAll values rest sized' fixed' →
    EncodesAll (value :: values) (b ++ rest) (max sized sized') (max fixed fixed')

end

/-! ## The markers read -/

/-- Where the loop stands. -/
structure MarkerWalk where
  pos : ℕ
  values : ℕ
  stack : List ℕ

open MsgpackShape in
/-- The walk over the markers of a body, whatever the budget. -/
def markerWalks (bytes : Bytes) : System MarkerWalk Unit where
  init s := s = ⟨0, 0, [1]⟩
  step s _ t := ∃ owed opened skip children payload, nextOwed s.stack = some (owed, opened) ∧
    ∃ hpos : s.pos < bytes.length,
      step bytes[s.pos] bytes (s.pos + 1) = some (skip, children, payload) ∧
      s.pos + 1 + skip ≤ bytes.length ∧ t = ⟨s.pos + 1 + skip, s.values + 1,
        if children > 0 then children :: owed :: opened else owed :: opened⟩

end Oneiron
