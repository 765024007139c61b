import Oneiron.Foundations.Digits

/-!
# Foundations/XxHash32 — the 32-bit xxHash, at seed zero

Stripes of sixteen bytes run over four lanes, then the words and the bytes left over, then the
avalanche.  All integers are little-endian.
-/

namespace Oneiron.XxHash32

def prime₁ : UInt32 := 2654435761

def prime₂ : UInt32 := 2246822519

def prime₃ : UInt32 := 3266489917

def prime₄ : UInt32 := 668265263

def prime₅ : UInt32 := 374761393

def rotl (x r : UInt32) : UInt32 := (x <<< r) ||| (x >>> (32 - r))

/-- The little-endian word at the front. -/
def word (bytes : List UInt8) : UInt32 := (valueOf (bytes.take 4).reverse).toUInt32

def lane (acc : UInt32) (bytes : List UInt8) : UInt32 := rotl (acc + word bytes * prime₂) 13 * prime₁

/-- The four lanes over so many stripes. -/
def stripes : ℕ → List UInt8 → UInt32 × UInt32 × UInt32 × UInt32 → UInt32 × UInt32 × UInt32 × UInt32
  | 0, _, lanes => lanes
  | n + 1, bytes, (a, b, c, d) =>
    stripes n (bytes.drop 16)
      (lane a bytes, lane b (bytes.drop 4), lane c (bytes.drop 8), lane d (bytes.drop 12))

def start (bytes : List UInt8) : UInt32 :=
  if bytes.length < 16 then prime₅ else
  let (a, b, c, d) := stripes (bytes.length / 16) bytes (prime₁ + prime₂, prime₂, 0, 0 - prime₁)
  rotl a 1 + rotl b 7 + rotl c 12 + rotl d 18

def words : ℕ → List UInt8 → UInt32 → UInt32
  | 0, _, h => h
  | n + 1, bytes, h => words n (bytes.drop 4) (rotl (h + word bytes * prime₃) 17 * prime₄)

def avalanche (h : UInt32) : UInt32 :=
  let h := (h ^^^ (h >>> 15)) * prime₂
  let h := (h ^^^ (h >>> 13)) * prime₃
  h ^^^ (h >>> 16)

def hash (bytes : List UInt8) : UInt32 :=
  let rest := bytes.drop (bytes.length / 16 * 16)
  let h := words (rest.length / 4) rest (start bytes + bytes.length.toUInt32)
  avalanche <| (rest.drop (rest.length / 4 * 4)).foldl
    (fun h b => rotl (h + b.toUInt32 * prime₅) 11 * prime₁) h

end Oneiron.XxHash32
