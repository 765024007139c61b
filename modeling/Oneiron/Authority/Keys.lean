import Oneiron.Contracts.EntityId

/-!
# Authority/Keys — thirty-two-byte ids and the keys that sign a log

Vault ids, row hashes, anchors, slip ids: all are thirty-two bytes, in byte order.  A key sorts by
its suite, Ed25519 first, and then by its bytes.
-/

open Std

namespace Oneiron

/-- `[u8; 32]`. -/
@[ext] structure Bytes32 where
  asBytes : Bytes
  length_asBytes : asBytes.length = 32

instance : DecidableEq Bytes32 := fun a b =>
  decidable_of_iff (a.asBytes = b.asBytes) Bytes32.ext_iff.symm

namespace Bytes32

attribute [simp] length_asBytes

instance : Ord Bytes32 := ⟨compareOn asBytes⟩

instance : TransOrd Bytes32 := inferInstanceAs (TransCmp (compareOn asBytes))

instance : LawfulEqOrd Bytes32 where
  compare_self {id} := (ReflOrd.compare_self : compare id.asBytes id.asBytes = .eq)
  eq_of_compare {a b} h :=
    Bytes32.ext (LawfulEqOrd.eq_of_compare (show compare a.asBytes b.asBytes = .eq from h))

/-- One byte, thirty-two times. -/
def of (b : UInt8) : Bytes32 := ⟨List.replicate 32 b, Digest.length_filled b⟩

end Bytes32

/-- `AuthorityKey`. -/
inductive AuthorityKey where
  | ed25519 (bytes : Bytes32)
  | p256 (bytes : Bytes)
  deriving DecidableEq

namespace AuthorityKey

/-- The variant, as the derived order ranks it. -/
def rank : AuthorityKey → ℕ
  | ed25519 _ => 0
  | p256 _ => 1

def keyBytes : AuthorityKey → Bytes
  | ed25519 bytes => bytes.asBytes
  | p256 bytes => bytes

/-- What a key sorts by. -/
def sortKey (key : AuthorityKey) : ℕ × Bytes := (key.rank, key.keyBytes)

theorem sortKey_injective : Function.Injective sortKey := by
  intro a b h
  cases a <;> cases b <;> simp_all [sortKey, rank, keyBytes, Bytes32.ext_iff]

instance : Ord AuthorityKey := ⟨compareOn sortKey⟩

instance : TransOrd AuthorityKey := inferInstanceAs (TransCmp (compareOn sortKey))

instance : LawfulEqOrd AuthorityKey where
  compare_self {key} := (ReflOrd.compare_self : compare key.sortKey key.sortKey = .eq)
  eq_of_compare {a b} h :=
    sortKey_injective (LawfulEqOrd.eq_of_compare (show compare a.sortKey b.sortKey = .eq from h))

end AuthorityKey

end Oneiron
