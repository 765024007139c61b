import Oneiron.Sync.ChunkPages

/-!
# Sync/ChunkDownload — one transfer's have/want exchange, spooled to disk

The manifest comes in pages; then each of its chunks in order is copied from what the spool holds of it
already, or from the vault, or else asked for alone.  One file takes them all at its end, and a repeat is
read back from where its chunk first went.
-/

open Std

namespace Oneiron

/-! ## The spool -/

/-- A file with the position its next read or write is at. -/
structure Spool where
  content : Bytes
  pos : ℕ
  deriving DecidableEq

namespace Spool

/-- `write_all`; a write past the end leaves zeros before it. -/
def write (spool : Spool) (bytes : Bytes) : Spool where
  content := (spool.content ++ List.replicate (spool.pos - spool.content.length) 0).take spool.pos ++ bytes ++
    spool.content.drop (spool.pos + bytes.length)
  pos := spool.pos + bytes.length

/-- `seek` from the start. -/
def seek (spool : Spool) (pos : ℕ) : Spool := { spool with pos }

/-- `read_exact`. -/
def readExact (spool : Spool) (n : ℕ) : Except Error (Bytes × Spool) :=
  if spool.pos + n ≤ spool.content.length then
    .ok ((spool.content.drop spool.pos).take n, { spool with pos := spool.pos + n })
  else .error (.storage "failed to fill whole buffer")

/-- What an installing manifest's chunks are supplied from the spool, one after another. -/
def supply : Spool → List LfsChunkRef → Except Error (List Bytes)
  | _, [] => .ok []
  | spool, chunk :: chunks => do
    let (bytes, spool) ← spool.readExact chunk.size
    let rest ← supply spool chunks
    pure (bytes :: rest)

end Spool

instance : Ord Digest := ⟨compareOn Digest.bytes⟩

instance : TransOrd Digest := inferInstanceAs (TransCmp (compareOn Digest.bytes))

instance : LawfulEqOrd Digest where
  compare_self {d} := (ReflOrd.compare_self : compare d.bytes d.bytes = .eq)
  eq_of_compare {a b} h :=
    Digest.ext (LawfulEqOrd.eq_of_compare (show compare a.bytes b.bytes = .eq from h))

/-! ## The envelope of a request -/

/-- What MessagePack takes for an unsigned integer. -/
def uintCost (n : ℕ) : ℕ :=
  if n < 0x80 then 1 else if n < 2 ^ 8 then 2 else if n < 2 ^ 16 then 3 else if n < 2 ^ 32 then 5 else 9

/-- What it takes for a list's header. -/
def headerCost (n : ℕ) : ℕ := if n < 16 then 1 else if n < 2 ^ 16 then 3 else 5

def bytesCost (bytes : Bytes) : ℕ := headerCost bytes.length + (bytes.map byteCost).sum

def hashesCost (hashes : List Digest) : ℕ :=
  headerCost hashes.length + (hashes.map fun hash => bytesCost hash.bytes).sum

/-- The length of a request's envelope, its version byte first and its unasked read last. -/
def ChunkSyncRequest.envelopeCost (request : ChunkSyncRequest) : ℕ :=
  1 + 1 + uintCost request.request + bytesCost request.oid.bytes + bytesCost request.selector +
    hashesCost request.have_ + request.want.elim 1 hashesCost +
    (request.cursor.elim 1 fun cursor => 1 + bytesCost cursor.manifest.bytes + uintCost cursor.offset) + 1

/-- `encode_chunk_request`: the request, where its envelope fits a frame. -/
def encodeChunkRequest (request : ChunkSyncRequest) : Except Error ChunkSyncRequest :=
  if request.envelopeCost > maxChunkSyncFrame then .error invalidExchange else .ok request

/-! ## The transfer -/

structure ChunkDownload (Outcome : Type) where
  request : ChunkSyncRequest
  pages : ManifestPages
  manifest : Option LfsManifest
  mark : Option ChunkMark
  spool : Spool
  next : ℕ
  waiting : Option Digest
  outcome : Option Outcome
  /-- Where each chunk in the spool first went, and its length. -/
  staged : OrderedMap Digest (ℕ × ℕ)
  length : ℕ

namespace ChunkDownload

variable {Outcome : Type}

/-- `new`, `numbered`. -/
def new (oid : Digest) (request : ℕ) : ChunkDownload Outcome where
  request := ⟨request, oid, [], [], none, none⟩
  pages := .empty
  manifest := none
  mark := none
  spool := ⟨[], 0⟩
  next := 0
  waiting := none
  outcome := none
  staged := ∅
  length := 0

section

variable (blake3 : Bytes → Digest) (present : Digest → Option Bytes)
  (install : LfsManifest → Option ChunkMark → List Bytes → Except Error Outcome)

/-- `lfs_chunk_if_present`, of the chunks the vault holds. -/
def chunkIfPresent (chunk : LfsChunkRef) : Except Error (Option Bytes) :=
  match present chunk.hash with
  | none => .ok none
  | some body => some <$> checkedChunk blake3 chunk body

/-- A chunk the transfer has already: read back from the spool, or from the vault. -/
def existing (d : ChunkDownload Outcome) (chunk : LfsChunkRef) :
    Except Error (ChunkDownload Outcome × Option Bytes) :=
  match d.staged[chunk.hash]? with
  | some (offset, size) => do
    let (bytes, spool) ← (d.spool.seek offset).readExact size
    pure ({ d with spool := spool.seek d.length }, some bytes)
  | none => do
    let found ← chunkIfPresent blake3 present chunk
    pure (d, found)

/-- A chunk's bytes spooled, and named in the HAVE where there is room. -/
def keep (d : ChunkDownload Outcome) (chunk : LfsChunkRef) (bytes : Bytes) : ChunkDownload Outcome :=
  { d with
    staged := if chunk.hash ∈ d.staged then d.staged else d.staged.insert chunk.hash (d.length, chunk.size)
    spool := d.spool.write bytes
    length := d.length + bytes.length
    request :=
      if d.request.have_.length < maxWantChunks ∧ chunk.hash ∉ d.request.have_ then
        { d.request with have_ := d.request.have_ ++ [chunk.hash] }
      else d.request
    next := d.next + 1 }

/-- The loop over the chunks still to come: up to the first to ask for. -/
def advance : ChunkDownload Outcome → List LfsChunkRef →
    Except Error (ChunkDownload Outcome × Option ChunkSyncRequest)
  | d, [] => .ok (d, none)
  | d, chunk :: chunks => do
    let (d, found) ← d.existing blake3 present chunk
    match found with
    | some bytes => advance (d.keep chunk bytes) chunks
    | none =>
      let request := { d.request with want := some [chunk.hash] }
      let asked ← encodeChunkRequest request
      pure ({ d with waiting := some chunk.hash, request }, some asked)

/-- What follows a reply that was taken: the next request, or the object published. -/
def goOn (d : ChunkDownload Outcome) (manifest : LfsManifest) :
    Except Error (ChunkDownload Outcome × Option ChunkSyncRequest) := do
  let (d, asked) ← advance blake3 present d (manifest.chunks.drop d.next)
  match asked with
  | some request => pure (d, some request)
  | none => do
    let supplied ← (d.spool.seek 0).supply manifest.chunks
    let outcome ← install manifest d.mark supplied
    pure ({ d with outcome := some outcome }, none)

/-- `accept_reply`. -/
def acceptReply (d : ChunkDownload Outcome) (reply : ChunkSyncResponse) :
    Except Error (ChunkDownload Outcome × Option ChunkSyncRequest) :=
  if d.outcome.isSome ∨ reply.request ≠ d.request.request then .error invalidExchange
  else
    match d.manifest, d.waiting, reply with
    | none, none, .manifest page => do
      let (pages, next) ← d.pages.take d.request.request page
      match next with
      | some next =>
        let request := { d.request with cursor := some next }
        let asked ← encodeChunkRequest request
        pure ({ d with pages, request }, some asked)
      | none => do
        let manifest ← pages.manifest blake3
        goOn blake3 present install
          { d with
            pages
            request := { d.request with cursor := none }
            manifest := some manifest
            mark := page.mark } manifest
    | some manifest, some expected, .chunks page =>
      match page.next, page.chunks, manifest.chunks[d.next]? with
      | none, [(hash, body)], some chunk =>
        if hash ≠ expected then .error invalidExchange
        else if body.length ≠ chunk.size ∨ blake3 body ≠ expected then .error invalidExchange
        else
          goOn blake3 present install
            { d with
              staged := d.staged.insert expected (d.length, chunk.size)
              spool := d.spool.write body
              length := d.length + body.length
              next := d.next + 1
              waiting := none } manifest
      | _, _, _ => .error invalidExchange
    | _, _, _ => .error invalidExchange

end

end ChunkDownload

/-- A transfer fed the replies to its own requests, from one request to where it ends: the requests it
made, and what the last reply came to. -/
inductive Exchanged {Outcome : Type} (serve : ChunkSyncRequest → Except Error ChunkSyncResponse)
    (accept : ChunkDownload Outcome → ChunkSyncResponse →
      Except Error (ChunkDownload Outcome × Option ChunkSyncRequest)) :
    ChunkDownload Outcome → ChunkSyncRequest → List ChunkSyncRequest →
      Except Error (ChunkDownload Outcome) → Prop
  | ends {d request response d'} (hserve : serve request = .ok response)
    (haccept : accept d response = .ok (d', none)) : Exchanged serve accept d request [request] (.ok d')
  | fails {d request response e} (hserve : serve request = .ok response)
    (haccept : accept d response = .error e) : Exchanged serve accept d request [request] (.error e)
  | more {d request response d' request' requests out} (hserve : serve request = .ok response)
    (haccept : accept d response = .ok (d', some request'))
    (hrest : Exchanged serve accept d' request' requests out) :
    Exchanged serve accept d request (request :: requests) out

end Oneiron
