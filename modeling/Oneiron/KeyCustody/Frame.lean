import Oneiron.Contracts.Bytes
import Oneiron.Foundations.Saturating

/-!
# KeyCustody/Frame — where a custody log stands, and the clear header each of its frames carries

    magic (4) ‖ version (1) ‖ vault (32) ‖ namespace (16) ‖ epoch (8) ‖ seq (8) ‖ previous hash (32)

A header's spelling and its sealed body, with the body's length between them, are a frame; what parses
is just that (`parse_frameOf`).
-/

namespace Oneiron

/-- A byte string of a fixed length. -/
@[ext] structure FixedBytes (n : ℕ) where
  bytes : Bytes
  length_bytes : bytes.length = n
  deriving DecidableEq

namespace FixedBytes

variable {n : ℕ}

attribute [simp] length_bytes

def ofBytes (n : ℕ) (bytes : Bytes) : Option (FixedBytes n) :=
  if h : bytes.length = n then some ⟨bytes, h⟩ else none

@[simp] theorem ofBytes_bytes (x : FixedBytes n) : ofBytes n x.bytes = some x :=
  dif_pos x.length_bytes

def zeros (n : ℕ) : FixedBytes n := ⟨List.replicate n 0, List.length_replicate⟩

end FixedBytes

/-- A 32-byte vault id. -/
abbrev CustodyVaultId := FixedBytes 32

abbrev CustodyNamespace := FixedBytes 16

/-- A frame's hash. -/
abbrev FrameHash := FixedBytes 32

/-- Where one lineage's log stands. -/
@[ext] structure CustodyPosition where
  vault : CustodyVaultId
  namespace_ : CustodyNamespace
  epoch : U64
  seq : U64
  tip : FrameHash
  deriving DecidableEq

/-- One lineage's control state: its secret, its writer epoch here, and the position its local log
starts after. -/
@[ext] structure Control where
  secret : FixedBytes 32
  epoch : U64
  baseSeq : U64
  baseTip : FrameHash
  deriving DecidableEq

/-- A lineage begun here. -/
def Control.fresh (secret : FixedBytes 32) : Control := ⟨secret, 0, 0, .zeros 32⟩

@[ext] structure FrameHeader where
  vault : CustodyVaultId
  namespace_ : CustodyNamespace
  epoch : U64
  seq : U64
  prev : FrameHash
  deriving DecidableEq

namespace FrameHeader

def frameMagic : Bytes := ascii "OCLF"

def frameVersion : UInt8 := 1

def frameHeaderLen : ℕ := 101

variable (header : FrameHeader) (body : Bytes)

def toBytes : Bytes :=
  frameMagic ++ [frameVersion] ++ header.vault.bytes ++ header.namespace_.bytes ++
    digits 8 header.epoch.val ++ digits 8 header.seq.val ++ header.prev.bytes

/-- A frame: the header, its body's length, its body. -/
def frameOf : Bytes := header.toBytes ++ digits 4 body.length ++ body

/-- The header of a frame, with its body; none where it does not parse. -/
def parse (frame : Bytes) : Option (FrameHeader × Bytes) :=
  let field (offset len : ℕ) : Bytes := (frame.drop offset).take len
  if frame.length < frameHeaderLen + 4 then none
  else if field 0 4 ≠ frameMagic ∨ field 4 1 ≠ [frameVersion] then none
  else if (frame.drop (frameHeaderLen + 4)).length ≠ valueOf (field frameHeaderLen 4) then none
  else do
    let vault ← FixedBytes.ofBytes 32 (field 5 32)
    let namespace_ ← FixedBytes.ofBytes 16 (field 37 16)
    let prev ← FixedBytes.ofBytes 32 (field 69 32)
    pure
      ({ vault, namespace_, epoch := .ofNat (valueOf (field 53 8))
         seq := .ofNat (valueOf (field 61 8)), prev }, frame.drop (frameHeaderLen + 4))

theorem ofNat_valueOf_digits (x : U64) : U64.ofNat (valueOf (digits 8 x.val)) = x := by
  have hlt : x.val < 256 ^ 8 := Nat.lt_of_le_of_lt x.le (by norm_num)
  rw [valueOf_digits hlt]
  exact U64.ext (Nat.min_eq_left x.le)

/-- **A frame parses as what it was made of.** -/
theorem parse_frameOf (hbody : body.length < 4294967296) :
    parse (header.frameOf body) = some (header, body) := by
  have hmagic : frameMagic.length = 4 := rfl
  have hsplit : header.frameOf body = frameMagic ++ ([frameVersion] ++ (header.vault.bytes ++
      (header.namespace_.bytes ++ (digits 8 header.epoch.val ++ (digits 8 header.seq.val ++
        (header.prev.bytes ++ (digits 4 body.length ++ body))))))) := by
    simp only [frameOf, toBytes, List.append_assoc]
  generalize header.frameOf body = frame at hsplit
  have hlen : frame.length = frameHeaderLen + 4 + body.length := by
    rw [hsplit]
    simp [hmagic, frameHeaderLen]
    omega
  have hfields : (frame.drop 0).take 4 = frameMagic ∧ (frame.drop 4).take 1 = [frameVersion] ∧
      (frame.drop 5).take 32 = header.vault.bytes ∧ (frame.drop 37).take 16 = header.namespace_.bytes ∧
      (frame.drop 53).take 8 = digits 8 header.epoch.val ∧
      (frame.drop 61).take 8 = digits 8 header.seq.val ∧ (frame.drop 69).take 32 = header.prev.bytes ∧
      (frame.drop 101).take 4 = digits 4 body.length ∧ frame.drop (frameHeaderLen + 4) = body := by
    rw [hsplit]
    simp [List.drop_append, hmagic, List.drop_of_length_le, frameHeaderLen]
  obtain ⟨h0, h4, h5, h37, h53, h61, h69, h101, hdrop⟩ := hfields
  have hcount : valueOf (digits 4 body.length) = body.length :=
    valueOf_digits (Nat.lt_of_lt_of_eq hbody (by norm_num))
  have hlong : ¬frame.length < frameHeaderLen + 4 := by
    rw [hlen]
    exact Nat.not_lt.mpr (Nat.le_add_right _ _)
  have hframe : ¬((frame.drop 0).take 4 ≠ frameMagic ∨ (frame.drop 4).take 1 ≠ [frameVersion]) := by
    rw [h0, h4]
    simp
  have hbodyLen : ¬body.length ≠ valueOf ((frame.drop frameHeaderLen).take 4) := by
    rw [show frameHeaderLen = 101 from rfl, h101, hcount]
    simp
  simp only [parse, if_neg hlong, if_neg hframe, if_neg hbodyLen, h5, h37, h53, h61, h69, hdrop,
    FixedBytes.ofBytes_bytes, ofNat_valueOf_digits]
  rfl

end FrameHeader

/-- `frame_hash`. -/
def frameHash (blake3 : Bytes → Digest) (frame : Bytes) : FrameHash :=
  ⟨(blake3 frame).bytes, (blake3 frame).length_bytes⟩

/-- `parse_tip`: what the cache of the newest frame's position names. -/
def parseTip (bytes : Bytes) : Option (U64 × FrameHash) :=
  if bytes.length ≠ 40 then none
  else (FixedBytes.ofBytes 32 (bytes.drop 8)).map (U64.ofNat (valueOf (bytes.take 8)), ·)

end Oneiron
