import Oneiron.Contracts.EntityId
import Oneiron.Foundations.Fallible
import Oneiron.KeyCustody.Frame

/-!
# Store/RecoveryPiece — one piece of a recovery kit, as an export, a slot and a typed code

    body   header (1) ‖ cost (1) ‖ kit id (4) ‖ y (32) ‖ tag (9)
    code   base32 of body ‖ check: 80 symbols in groups of 4
    export magic ‖ home (18) ‖ body ‖ check

A typed code is read by a loop over its characters that writes into a buffer of fifty bytes; a write
past it is a panic (`none`).
-/

namespace Oneiron

namespace RecoveryKit

/-! ## The kit's values -/

/-- The `KitError`s of a piece. -/
inductive KitError where
  | invalidPiece
  | codeChecksum
  | passphraseCost
  deriving DecidableEq

inductive KitSecretKind where
  | vaultKey
  | recoveryRoot
  deriving DecidableEq

inductive KitMachine where
  | thisMachine
  | other (id : EntityId)
  deriving DecidableEq

inductive CodeKeeping where
  | fileOn (machine : KitMachine)
  | fileElsewhere
  | paper
  | passwordManager
  | ownEmail
  deriving DecidableEq

inductive PieceHome where
  | thisMachine
  | otherMachine (id : EntityId)
  | recoveryCode (keeping : CodeKeeping)
  | passphrase
  | trustedPerson
  | securityKey
  deriving DecidableEq

/-- `is_power_of_two`. -/
def isPowerOfTwo (n : UInt32) : Bool := n ≠ 0 ∧ n &&& (n - 1) = 0

/-- The memory and passes a kit may ask of a restore: a power of two from floor to ceiling. -/
def CostInBounds (memoryMib : UInt32) (passes : UInt8) : Prop :=
  isPowerOfTwo memoryMib ∧ (64 ≤ memoryMib ∧ memoryMib ≤ 1024) ∧ 3 ≤ passes ∧ passes ≤ 8

instance (memoryMib : UInt32) (passes : UInt8) : Decidable (CostInBounds memoryMib passes) :=
  inferInstanceAs (Decidable (_ ∧ _ ∧ _ ∧ _))

/-- `PassphraseCost`. -/
@[ext] structure PassphraseCost where
  memoryMib : UInt32
  passes : UInt8
  inBounds : CostInBounds memoryMib passes
  deriving DecidableEq

def PassphraseCost.new (memoryMib : UInt32) (passes : UInt8) : Except KitError PassphraseCost :=
  if h : CostInBounds memoryMib passes then .ok ⟨memoryMib, passes, h⟩ else .error .passphraseCost

abbrev KitId := FixedBytes 4

/-- One point of a kit's line and the kit facts every piece repeats. -/
@[ext] structure Point where
  x : UInt8
  kind : KitSecretKind
  passphraseX : UInt8
  cost : Option PassphraseCost
  kitId : KitId
  y : FixedBytes 32
  tag : FixedBytes 9
  deriving DecidableEq

/-- A point of a kit: one of three, none of them the passphrase's, which has a cost just when there is
one. -/
structure Point.Valid (p : Point) : Prop where
  x_pos : 1 ≤ p.x
  x_le : p.x ≤ 3
  passphraseX_le : p.passphraseX ≤ 3
  x_ne : p.x ≠ p.passphraseX
  cost_iff : p.cost.isSome ↔ p.passphraseX ≠ 0
  kitId_ne : p.kitId ≠ .zeros 4

@[ext] structure KitPiece where
  home : Option PieceHome
  point : Point
  deriving DecidableEq

/-! ## The fifty bytes -/

def version : UInt8 := 2

def bodyLen : ℕ := 47

def codeLen : ℕ := 50

def kindBit : KitSecretKind → UInt8
  | .vaultKey => 0
  | .recoveryRoot => 1

def header (kind : KitSecretKind) (passphraseX x : UInt8) : UInt8 :=
  (version <<< 5) ||| (kindBit kind <<< 4) ||| (passphraseX <<< 2) ||| x

/-- `trailing_zeros`. -/
def trailingZeros (n : UInt32) : UInt8 :=
  ((List.range 32).takeWhile fun i => !n.toNat.testBit i).length.toUInt8

def costByte (cost : Option PassphraseCost) : UInt8 :=
  cost.elim 0 fun cost => (trailingZeros cost.memoryMib <<< 4) ||| cost.passes

/-- Part of a byte string of a fixed length. -/
def slice {n : ℕ} (b : FixedBytes n) (start len : ℕ) (h : start + len ≤ n) : FixedBytes len :=
  ⟨(b.bytes.drop start).take len, by
    rw [List.length_take, List.length_drop, b.length_bytes]
    omega⟩

section Codec

variable (deriveKey : Bytes → FixedBytes 32)

/-- The first three bytes of the key derived from a body in the check's context. -/
def check (body : Bytes) : FixedBytes 3 := slice (deriveKey body) 0 3 (by omega)

def body (p : Point) : Bytes :=
  header p.kind p.passphraseX p.x :: costByte p.cost :: (p.kitId.bytes ++ p.y.bytes ++ p.tag.bytes)

@[simp] theorem length_body (p : Point) : (body p).length = bodyLen := by
  simp [body, bodyLen]

def codeBytes (p : Point) : FixedBytes codeLen :=
  ⟨body p ++ (check deriveKey (body p)).bytes, by simp [codeLen, bodyLen]⟩

/-- The cost a header's passphrase point and a cost byte name. -/
def decodeCost (passphraseX byte : UInt8) : Except KitError (Option PassphraseCost) :=
  if passphraseX = 0 ∧ byte = 0 then .ok none
  else if passphraseX = 0 ∨ byte = 0 then .error .invalidPiece
  else
    match PassphraseCost.new ((1 : UInt32) <<< (byte >>> 4).toUInt32) (byte &&& 0x0f) with
    | .ok cost => .ok (some cost)
    | .error _ => .error .invalidPiece

/-- The fields of a checked body. -/
def decodeBody (body : FixedBytes bodyLen) : Except KitError Point := do
  let header := body.bytes[0]!
  ensure (header >>> 5 = version) .invalidPiece
  let kind := if (header >>> 4) &&& 1 = 0 then KitSecretKind.vaultKey else .recoveryRoot
  let passphraseX := (header >>> 2) &&& 3
  let x := header &&& 3
  ensure (¬ (x = 0 ∨ x = passphraseX)) .invalidPiece
  let cost ← decodeCost passphraseX body.bytes[1]!
  let kitId := slice body 2 4 (by decide)
  ensure (kitId ≠ .zeros 4) .invalidPiece
  pure { x, kind, passphraseX, cost, kitId, y := slice body 6 32 (by decide),
         tag := slice body 38 9 (by decide) }

/-- The check, then every field: one encoding per piece. -/
def decodeCodeBytes (bytes : FixedBytes codeLen) : Except KitError Point := do
  let body := slice bytes 0 bodyLen (by decide)
  ensure (check deriveKey body.bytes = slice bytes bodyLen 3 (by decide)) .codeChecksum
  decodeBody body

/-! ## The export and the slot -/

def magic : Bytes := ascii "oneiron/kit-piece/v2" ++ [0]

def homeLen : ℕ := 18

def exportLen : ℕ := magic.length + homeLen + codeLen

/-- A home's block: its kind, its sub, and a machine id or zeros. -/
def homeBlock (kind sub : UInt8) (id : Option EntityId) : Bytes :=
  kind :: sub :: id.elim (List.replicate 16 0) EntityId.asBytes

def encodeHome : Option PieceHome → Bytes
  | none | some .passphrase => homeBlock 0 0 none
  | some .thisMachine => homeBlock 1 0 none
  | some (.otherMachine id) => homeBlock 2 0 (some id)
  | some (.recoveryCode keeping) =>
    match keeping with
    | .fileOn .thisMachine => homeBlock 3 1 none
    | .fileOn (.other id) => homeBlock 3 2 (some id)
    | .fileElsewhere => homeBlock 3 3 none
    | .paper => homeBlock 3 4 none
    | .passwordManager => homeBlock 3 5 none
    | .ownEmail => homeBlock 3 6 none
  | some .trustedPerson => homeBlock 4 0 none
  | some .securityKey => homeBlock 5 0 none

/-- Every byte a home does not use is zero, and a machine id is a valid entity id. -/
def decodeHome (bytes : FixedBytes homeLen) : Except KitError (Option PieceHome) :=
  let kind := bytes.bytes[0]!
  let sub := bytes.bytes[1]!
  let id := bytes.bytes.drop 2
  let noId := id.all (· = 0)
  let machine := okOr (EntityId.fromBytes id) KitError.invalidPiece
  if kind = 0 ∧ sub = 0 ∧ noId then .ok none
  else if kind = 1 ∧ sub = 0 ∧ noId then .ok (some .thisMachine)
  else if kind = 2 ∧ sub = 0 then machine.map fun id => some (.otherMachine id)
  else if kind = 3 ∧ sub = 2 then
    machine.map fun id => some (.recoveryCode (.fileOn (.other id)))
  else if kind = 3 ∧ noId then
    if sub = 1 then .ok (some (.recoveryCode (.fileOn .thisMachine)))
    else if sub = 3 then .ok (some (.recoveryCode .fileElsewhere))
    else if sub = 4 then .ok (some (.recoveryCode .paper))
    else if sub = 5 then .ok (some (.recoveryCode .passwordManager))
    else if sub = 6 then .ok (some (.recoveryCode .ownEmail))
    else .error .invalidPiece
  else if kind = 4 ∧ sub = 0 ∧ noId then .ok (some .trustedPerson)
  else if kind = 5 ∧ sub = 0 ∧ noId then .ok (some .securityKey)
  else .error .invalidPiece

/-- `export`. -/
def KitPiece.exported (piece : KitPiece) : Bytes :=
  magic ++ encodeHome piece.home ++ (codeBytes deriveKey piece.point).bytes

/-- `import`. -/
def KitPiece.imported (bytes : Bytes) : Except KitError KitPiece :=
  if h : bytes.length = exportLen ∧ magic <+: bytes then do
    let rest : FixedBytes (homeLen + codeLen) := ⟨bytes.drop magic.length, by
      rw [List.length_drop, h.1, exportLen]
      omega⟩
    let home ← decodeHome (slice rest 0 homeLen (by omega))
    let point ← decodeCodeBytes deriveKey (slice rest homeLen codeLen (by omega))
    pure ⟨home, point⟩
  else .error .invalidPiece

def KitPiece.slotBytes (piece : KitPiece) : FixedBytes codeLen := codeBytes deriveKey piece.point

def KitPiece.fromSlotBytes (bytes : Bytes) : Except KitError KitPiece :=
  match FixedBytes.ofBytes codeLen bytes with
  | none => .error .invalidPiece
  | some bytes => do
    let point ← decodeCodeBytes deriveKey bytes
    pure ⟨some .thisMachine, point⟩

end Codec

/-! ## The typed code -/

def alphabet : List Char := "0123456789ABCDEFGHJKMNPQRSTVWXYZ".toList

def codeGroup : ℕ := 4

def codeSymbols : ℕ := codeLen * 8 / 5

/-- A symbol behind the text so far, with a `-` between groups. -/
def pushSymbol (text : List Char) (symbol : ℕ) : List Char :=
  (if text ≠ [] ∧ text.length % (codeGroup + 1) = codeGroup then text ++ ['-'] else text) ++
    [alphabet[symbol]!]

/-- A code being written: its text, and the bits that wait, twelve of them at most. -/
structure Writing where
  text : List Char
  acc : ℕ
  bits : ℕ

/-- Symbols while five bits wait. -/
def Writing.drain (w : Writing) : Writing :=
  if 5 ≤ w.bits then
    Writing.drain {
      text := pushSymbol w.text ((w.acc >>> (w.bits - 5)) &&& 31)
      acc := w.acc
      bits := w.bits - 5 }
  else w
termination_by w.bits

/-- A byte of the piece. -/
def Writing.byte (w : Writing) (byte : UInt8) : Writing :=
  let drained := Writing.drain { w with acc := (w.acc <<< 8) ||| byte.toNat, bits := w.bits + 8 }
  { drained with acc := drained.acc &&& ((1 <<< drained.bits) - 1) }

/-- The text of fifty bytes. -/
def codeText (bytes : FixedBytes codeLen) : List Char :=
  (bytes.bytes.foldl Writing.byte ⟨[], 0, 0⟩).text

/-- `recovery_code`. -/
def KitPiece.recoveryCode (deriveKey : Bytes → FixedBytes 32) (piece : KitPiece) : List Char :=
  codeText (codeBytes deriveKey piece.point)

/-- `char::is_whitespace`: Unicode's `White_Space`. -/
def isWhitespace (c : Char) : Bool :=
  let n := c.toNat
  (0x09 ≤ n ∧ n ≤ 0x0D) ∨ n = 0x20 ∨ n = 0x85 ∨ n = 0xA0 ∨ n = 0x1680 ∨ (0x2000 ≤ n ∧ n ≤ 0x200A) ∨
    n = 0x2028 ∨ n = 0x2029 ∨ n = 0x202F ∨ n = 0x205F ∨ n = 0x3000

/-- What reading passes over. -/
def passedOver (c : Char) : Bool := c.toUpper = '-' ∨ isWhitespace c.toUpper

/-- The symbol a character is read as. -/
def symbolOf (c : Char) : Option ℕ :=
  if c.toUpper = 'O' then some 0
  else if c.toUpper = 'I' ∨ c.toUpper = 'L' then some 1
  else alphabet.findIdx? (· = c.toUpper)

/-- A code being read: its buffer, where the next byte goes, the symbols so far, and the bits that
wait, twelve of them at most. -/
structure Typed where
  bytes : Bytes
  filled : ℕ
  symbols : ℕ
  acc : ℕ
  bits : ℕ

/-- A byte into the buffer; past its end, a panic. -/
def Typed.put (t : Typed) (byte : UInt8) : Option Typed :=
  if t.filled < t.bytes.length then
    some { t with bytes := t.bytes.set t.filled byte, filled := t.filled + 1 }
  else none

/-- One character of a typed code: a refusal ends the reading, and `none` is a panic. -/
def Typed.char (t : Typed) (c : Char) : Option (Except KitError Typed) :=
  if passedOver c then some (.ok t)
  else
    match symbolOf c with
    | none => some (.error .invalidPiece)
    | some value =>
      let t := { t with symbols := t.symbols + 1 }
      if t.symbols > codeSymbols then some (.error .invalidPiece)
      else
        let t := { t with acc := (t.acc <<< 5) ||| value, bits := t.bits + 5 }
        if t.bits ≥ 8 then do
          let t := { t with bits := t.bits - 8 }
          let t ← t.put (t.acc >>> t.bits).toUInt8
          some (.ok { t with acc := t.acc &&& ((1 <<< t.bits) - 1) })
        else some (.ok t)

/-- The characters of a typed code, up to the first that is refused. -/
def Typed.chars : Typed → List Char → Option (Except KitError Typed)
  | t, [] => some (.ok t)
  | t, c :: text =>
    match t.char c with
    | some (.ok t) => t.chars text
    | stopped => stopped

/-- `from_recovery_code`; `none` is a panic. -/
def KitPiece.fromRecoveryCode (deriveKey : Bytes → FixedBytes 32) (text : List Char) :
    Option (Except KitError KitPiece) :=
  match Typed.chars ⟨List.replicate codeLen 0, 0, 0, 0, 0⟩ text with
  | none => none
  | some (.error e) => some (.error e)
  | some (.ok t) =>
    if t.symbols ≠ codeSymbols then some (.error .invalidPiece)
    else
      match FixedBytes.ofBytes codeLen t.bytes with
      | none => none
      | some bytes => some do
        let point ← decodeCodeBytes deriveKey bytes
        pure ⟨none, point⟩

end RecoveryKit

end Oneiron
