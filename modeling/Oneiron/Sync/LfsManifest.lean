import Oneiron.Contracts.Error
import Oneiron.Foundations.CrashFile
import Oneiron.Foundations.Fallible

/-!
# Sync/LfsManifest — a large object's ordered chunks, and their canonical bytes

    LFSCDC01 · size (8, little-endian) · count (4, little-endian) · (hash (32) · size (4, little-endian))*

What decodes is just what encodes (`decode_eq_ok`), so a manifest is named by the hash of its bytes.
-/

namespace Oneiron

open List

/-- `chunks::invalid`. -/
def invalidLfs (why : String) : Error := .artifact (.invalidLfsObject why)

/-- One ordered reference: the BLAKE3 of a chunk's body, and the body's length. -/
@[ext] structure LfsChunkRef where
  hash : Digest
  size : ℕ
  deriving DecidableEq

/-- `LFS_CHUNK_MAX`. -/
def lfsChunkMax : ℕ := 128 * 1024

/-- `MANIFEST_MAGIC`. -/
def manifestMagic : Bytes := ascii "LFSCDC01"

@[ext] structure LfsManifest where
  /-- The sum of the chunks' lengths. -/
  sizeBytes : ℕ
  /-- In order, repeated ones included. -/
  chunks : List LfsChunkRef
  deriving DecidableEq

/-- The first thirty-two bytes of an entry. -/
def entryHash (entry : Bytes) : Digest :=
  ⟨(entry ++ List.replicate 32 0).take 32, by simp⟩

def LfsChunkRef.encode (chunk : LfsChunkRef) : Bytes :=
  chunk.hash.bytes ++ (digits 4 chunk.size).reverse

def LfsChunkRef.decode (entry : Bytes) : LfsChunkRef :=
  ⟨entryHash entry, valueOf (entry.drop 32).reverse⟩

namespace LfsManifest

/-- One chunk's turn in `validate`. -/
def addSize (sum : ℕ) (chunk : LfsChunkRef) : Except Error ℕ := do
  ensure (chunk.size ≠ 0 ∧ chunk.size ≤ lfsChunkMax) (invalidLfs "invalid lfs chunk length")
  ensure (sum + chunk.size < 2 ^ 64) (invalidLfs "lfs size overflow")
  pure (sum + chunk.size)

def validate (manifest : LfsManifest) : Except Error Unit := do
  let sum ← manifest.chunks.foldlM addSize 0
  ensure (sum = manifest.sizeBytes) (invalidLfs "lfs manifest size mismatch")

/-- What a manifest begins with. -/
def front (manifest : LfsManifest) : Bytes :=
  manifestMagic ++ (digits 8 manifest.sizeBytes).reverse ++ (digits 4 manifest.chunks.length).reverse

/-- The canonical bytes. -/
def encode (manifest : LfsManifest) : Except Error Bytes := do
  manifest.validate
  ensure (manifest.chunks.length < 2 ^ 32) (invalidLfs "too many lfs chunks")
  pure (manifest.front ++ manifest.chunks.flatMap LfsChunkRef.encode)

/-- Strict decoding. -/
def decode (bytes : Bytes) : Except Error LfsManifest := do
  ensure (20 ≤ bytes.length ∧ bytes.take 8 = manifestMagic) (invalidLfs "invalid lfs manifest header")
  let sizeBytes := valueOf ((bytes.drop 8).take 8).reverse
  let count := valueOf ((bytes.drop 16).take 4).reverse
  ensure (count * 36 + 20 = bytes.length) (invalidLfs "invalid lfs manifest length")
  let manifest : LfsManifest := ⟨sizeBytes, (chunksExact 36 (bytes.drop 20)).map LfsChunkRef.decode⟩
  manifest.validate
  pure manifest

/-- BLAKE3 of the canonical bytes. -/
def hash (blake3 : Bytes → Digest) (manifest : LfsManifest) : Except Error Digest := do
  let bytes ← manifest.encode
  pure (blake3 bytes)

end LfsManifest

/-! ## The codec -/

/-- A little-endian field is spelled as it was read. -/
theorem reverse_digits_valueOf {b : Bytes} {width : ℕ} (h : b.length = width) :
    (digits width (valueOf b.reverse)).reverse = b := by
  subst h
  rw [← length_reverse, digits_valueOf, reverse_reverse]

theorem LfsChunkRef.length_encode (chunk : LfsChunkRef) : chunk.encode.length = 36 := by
  simp [encode, chunk.hash.length_bytes]

theorem LfsChunkRef.decode_encode {chunk : LfsChunkRef} (h : chunk.size < 2 ^ 32) :
    decode chunk.encode = chunk := by
  have hlen := chunk.hash.length_bytes
  refine LfsChunkRef.ext (Digest.ext ?_) ?_
  · show ((chunk.hash.bytes ++ (digits 4 chunk.size).reverse) ++ List.replicate 32 0).take 32 = _
    rw [append_assoc, take_left' hlen]
  · show valueOf ((chunk.hash.bytes ++ (digits 4 chunk.size).reverse).drop 32).reverse = _
    rw [drop_left' hlen, reverse_reverse, valueOf_digits (by norm_num at h ⊢; exact h)]

theorem LfsChunkRef.encode_decode {entry : Bytes} (h : entry.length = 36) :
    (decode entry).encode = entry := by
  have hhash : (entryHash entry).bytes = entry.take 32 := by
    exact take_append_of_le_length (by omega)
  show (entryHash entry).bytes ++ (digits 4 (valueOf (entry.drop 32).reverse)).reverse = entry
  rw [hhash, reverse_digits_valueOf (by simp [h]), take_append_drop]

namespace LfsManifest

variable {manifest : LfsManifest}

theorem addSize_eq_ok {sum sum' : ℕ} {chunk : LfsChunkRef} : addSize sum chunk = .ok sum' ↔
    (chunk.size ≠ 0 ∧ chunk.size ≤ lfsChunkMax) ∧ sum + chunk.size < 2 ^ 64 ∧ sum' = sum + chunk.size := by
  simp only [addSize, bind_eq_ok, ensure_eq_ok, pure_eq_ok]
  constructor
  · rintro ⟨-, hsize, -, hsum, rfl⟩
    exact ⟨hsize, hsum, rfl⟩
  · rintro ⟨hsize, hsum, rfl⟩
    exact ⟨⟨⟩, hsize, ⟨⟩, hsum, rfl⟩

theorem foldlM_addSize : ∀ {chunks : List LfsChunkRef} {sum sum' : ℕ}, sum < 2 ^ 64 →
    chunks.foldlM addSize sum = .ok sum' →
      (∀ chunk ∈ chunks, chunk.size ≠ 0 ∧ chunk.size ≤ lfsChunkMax) ∧ sum' < 2 ^ 64
  | [], sum, sum', hsum, h => by
    rw [foldlM_nil, pure_eq_ok] at h
    exact ⟨nofun, h ▸ hsum⟩
  | chunk :: chunks, sum, sum', _, h => by
    obtain ⟨next, hnext, h⟩ := bind_eq_ok.mp h
    obtain ⟨hsize, hlt, rfl⟩ := addSize_eq_ok.mp hnext
    obtain ⟨hall, hsum'⟩ := foldlM_addSize hlt h
    exact ⟨forall_mem_cons.mpr ⟨hsize, hall⟩, hsum'⟩

/-- A manifest that passes its checks says its sizes in their fields. -/
theorem of_validate (h : manifest.validate = .ok ()) :
    (∀ chunk ∈ manifest.chunks, chunk.size ≠ 0 ∧ chunk.size ≤ lfsChunkMax) ∧
      manifest.sizeBytes < 2 ^ 64 := by
  obtain ⟨sum, hsum, heq⟩ := bind_eq_ok.mp h
  obtain rfl := ensure_eq_ok.mp heq
  exact foldlM_addSize (by norm_num) hsum

theorem encode_eq_ok {bytes : Bytes} : manifest.encode = .ok bytes ↔
    manifest.validate = .ok () ∧ manifest.chunks.length < 2 ^ 32 ∧
      bytes = manifest.front ++ manifest.chunks.flatMap LfsChunkRef.encode := by
  simp only [encode, bind_eq_ok, ensure_eq_ok, pure_eq_ok]
  constructor
  · rintro ⟨⟨⟩, hvalid, -, hcount, rfl⟩
    exact ⟨hvalid, hcount, rfl⟩
  · rintro ⟨hvalid, hcount, rfl⟩
    exact ⟨(), hvalid, ⟨⟩, hcount, rfl⟩

theorem length_front : manifest.front.length = 20 := by
  simp [front, manifestMagic, show (ascii "LFSCDC01").length = 8 by decide]

theorem length_of_encode {bytes : Bytes} (h : manifest.encode = .ok bytes) :
    bytes.length = 20 + manifest.chunks.length * 36 := by
  obtain ⟨-, -, rfl⟩ := encode_eq_ok.mp h
  rw [length_append, length_front, length_flatMap]
  simp [LfsChunkRef.length_encode]

/-- **What decodes is just what encodes.** -/
theorem decode_eq_ok {bytes : Bytes} : decode bytes = .ok manifest ↔ manifest.encode = .ok bytes := by
  rw [encode_eq_ok]
  simp only [decode, bind_eq_ok, ensure_eq_ok, pure_eq_ok]
  constructor
  · rintro ⟨-, ⟨hlen, hmagic⟩, -, hcount, ⟨⟩, hvalid, rfl⟩
    have hrest : (bytes.drop 20).length = valueOf ((bytes.drop 16).take 4).reverse * 36 := by
      rw [length_drop]
      omega
    have hdvd : 36 ∣ (bytes.drop 20).length := ⟨_, by rw [hrest, Nat.mul_comm]⟩
    have hchunks : (((chunksExact 36 (bytes.drop 20)).map LfsChunkRef.decode).flatMap
        LfsChunkRef.encode) = bytes.drop 20 := by
      rw [flatMap_map]
      have hsame : (chunksExact 36 (bytes.drop 20)).flatMap (fun entry => (LfsChunkRef.decode entry).encode) =
          (chunksExact 36 (bytes.drop 20)).flatten := by
        rw [← flatMap_id]
        exact flatMap_congr fun entry hentry => LfsChunkRef.encode_decode (length_of_mem_chunksExact hentry)
      rw [hsame, flatten_chunksExact (by norm_num) hdvd]
    have hnum : (chunksExact 36 (bytes.drop 20)).length = valueOf ((bytes.drop 16).take 4).reverse := by
      rw [chunksExact, length_map, length_range, hrest, Nat.mul_div_cancel _ (by norm_num)]
    have hlt := valueOf_lt ((bytes.drop 16).take 4).reverse
    have hfour : ((bytes.drop 16).take 4).reverse.length = 4 := by simp; omega
    have height : ((bytes.drop 8).take 8).reverse.length = 8 := by simp; omega
    refine ⟨hvalid, ?_, ?_⟩
    · rw [length_map, hnum]
      rw [hfour] at hlt
      exact hlt
    · rw [hchunks, front, length_map, hnum, reverse_digits_valueOf (by simpa using height),
        reverse_digits_valueOf (by simpa using hfour), ← hmagic]
      have hfront : bytes.take 20 = bytes.take 8 ++ (bytes.drop 8).take 8 ++ (bytes.drop 16).take 4 := by
        rw [← take_add, show (20 : ℕ) = 16 + 4 from rfl, take_add]
      rw [← hfront, take_append_drop]
  · rintro ⟨hvalid, hcount, rfl⟩
    obtain ⟨hsizes, htotal⟩ := of_validate hvalid
    have hmagic : manifestMagic.length = 8 := by decide
    have hslots : chunksExact 36 (manifest.chunks.flatMap LfsChunkRef.encode) =
        manifest.chunks.map LfsChunkRef.encode :=
      chunksExact_flatMap (by norm_num) fun chunk _ => chunk.length_encode
    have hchunks : (manifest.chunks.map LfsChunkRef.encode).map LfsChunkRef.decode = manifest.chunks := by
      rw [map_map]
      refine (map_congr_left fun chunk hchunk => ?_).trans (map_id _)
      exact LfsChunkRef.decode_encode ((hsizes chunk hchunk).2.trans_lt (by norm_num [lfsChunkMax]))
    have hlen : (manifest.chunks.flatMap LfsChunkRef.encode).length = manifest.chunks.length * 36 := by
      simp [length_flatMap, LfsChunkRef.length_encode]
    have h8 : (manifest.front ++ manifest.chunks.flatMap LfsChunkRef.encode).drop 8 =
        (digits 8 manifest.sizeBytes).reverse ++ ((digits 4 manifest.chunks.length).reverse ++
          manifest.chunks.flatMap LfsChunkRef.encode) := by
      simp only [front, append_assoc]
      exact drop_left' hmagic
    have h16 : (manifest.front ++ manifest.chunks.flatMap LfsChunkRef.encode).drop 16 =
        (digits 4 manifest.chunks.length).reverse ++ manifest.chunks.flatMap LfsChunkRef.encode := by
      rw [show (16 : ℕ) = 8 + 8 from rfl, ← drop_drop, h8]
      exact drop_left' (by simp)
    have h20 : (manifest.front ++ manifest.chunks.flatMap LfsChunkRef.encode).drop 20 =
        manifest.chunks.flatMap LfsChunkRef.encode := drop_left' length_front
    have hsizeRead : valueOf (((manifest.front ++ manifest.chunks.flatMap LfsChunkRef.encode).drop 8).take
        8).reverse = manifest.sizeBytes := by
      rw [h8, take_left' (by simp), reverse_reverse,
        valueOf_digits (by norm_num at htotal ⊢; exact htotal)]
    have hcountRead : valueOf (((manifest.front ++ manifest.chunks.flatMap LfsChunkRef.encode).drop
        16).take 4).reverse = manifest.chunks.length := by
      rw [h16, take_left' (by simp), reverse_reverse,
        valueOf_digits (by norm_num at hcount ⊢; exact hcount)]
    rw [hsizeRead, hcountRead, h20, hslots, hchunks, length_append, length_front, hlen]
    refine ⟨⟨⟩, ⟨by omega, ?_⟩, ⟨⟩, by omega, (), hvalid, rfl⟩
    simp only [front, append_assoc]
    exact take_left' hmagic

end LfsManifest

end Oneiron
