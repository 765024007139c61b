import Oneiron.Sync.LfsManifest

/-!
# Sync/ChunkPages — one page of a chunk exchange, and a manifest as its pages arrive

A manifest goes by its canonical bytes from an offset, a WANT by its hashes from an index, each page as
far as the encoding of one page holds and at least one on.  The server keeps nothing between pages: a
request repeats its whole exchange, and the cursor its last reply named.
-/

namespace Oneiron

/-- `MAX_CHUNK_SYNC_FRAME`. -/
def maxChunkSyncFrame : ℕ := 8 * 1024 * 1024

/-- `MAX_WANT_CHUNKS`. -/
def maxWantChunks : ℕ := 32

/-- `CHUNK_PAGE_BYTES`. -/
def chunkPageBytes : ℕ := maxChunkSyncFrame - 64 * 1024

/-! ## Requests and replies -/

/-- Where the next page of an exchange starts. -/
structure ChunkPageCursor where
  manifest : Digest
  offset : ℕ
  deriving DecidableEq

structure ChunkSyncRequest where
  request : ℕ
  oid : Digest
  selector : Bytes
  have_ : List Digest
  /-- None requests a manifest. -/
  want : Option (List Digest)
  cursor : Option ChunkPageCursor
  deriving DecidableEq

/-- The lift sweep's mark on an object. -/
structure ChunkMark where
  reason : String
  markedAt : ℕ
  deriving DecidableEq

structure ManifestPage where
  request : ℕ
  manifest : Digest
  offset : ℕ
  total : ℕ
  bytes : Bytes
  next : Option ChunkPageCursor
  read : Option EntityId
  mark : Option ChunkMark
  deriving DecidableEq

structure ChunkPage where
  request : ℕ
  offset : ℕ
  chunks : List (Digest × Bytes)
  next : Option ChunkPageCursor
  read : Option EntityId
  deriving DecidableEq

inductive ChunkSyncResponse where
  | manifest (page : ManifestPage)
  | chunks (page : ChunkPage)
  deriving DecidableEq

/-- The request a reply answers. -/
def ChunkSyncResponse.request : ChunkSyncResponse → ℕ
  | manifest page => page.request
  | chunks page => page.request

/-- Where a reply's next page starts. -/
def ChunkSyncResponse.next : ChunkSyncResponse → Option ChunkPageCursor
  | manifest page => page.next
  | chunks page => page.next

/-- `invalid`. -/
def invalidExchange : Error := .artifact (.invalidLfsObject "invalid chunk sync exchange")

/-! ## What a page takes -/

/-- `LIST_HEADER`: the most a list's header takes. -/
def listHeader : ℕ := 5

/-- One byte as MessagePack writes it in a list. -/
def byteCost (byte : UInt8) : ℕ := if byte < 0x80 then 1 else 2

/-- `encoded_cost`. -/
def encodedCost (bytes : Bytes) : ℕ := listHeader + (bytes.map byteCost).sum

/-- The loop of `page_end`, at `i` with a cost so far. -/
def pageEndFrom (start : ℕ) : ℕ → ℕ → Bytes → ℕ
  | i, _, [] => i
  | i, cost, byte :: rest =>
    if cost + byteCost byte > chunkPageBytes then max i (start + 1)
    else pageEndFrom start (i + 1) (cost + byteCost byte) rest

/-- `page_end`. -/
def pageEnd (bytes : Bytes) (start : ℕ) : ℕ := pageEndFrom start start listHeader (bytes.drop start)

/-! ## The server -/

section Server

variable (blake3 : Bytes → Digest)

/-- `checked_chunk`. -/
def checkedChunk (chunk : LfsChunkRef) (bytes : Bytes) : Except Error Bytes :=
  if bytes.length ≠ chunk.size ∨ blake3 bytes ≠ chunk.hash then .error (.corruptedIndex "lfs chunk digest")
  else .ok bytes

/-- `read_chunk`, of the bodies a vault stores. -/
def readChunk (bodies : Digest → Option Bytes) (chunk : LfsChunkRef) : Except Error Bytes := do
  let body ← okOr (bodies chunk.hash) (.corruptedIndex "missing lfs asset")
  checkedChunk blake3 chunk body

/-- `lfs_object_chunk`, of the object a manifest is stored for. -/
def lfsObjectChunk (bodies : Digest → Option Bytes) (manifest : LfsManifest) (hash : Digest) :
    Except Error (Option Bytes) :=
  match manifest.chunks.find? (·.hash = hash) with
  | none => .ok none
  | some chunk => some <$> readChunk blake3 bodies chunk

/-- The walk over a WANT: each hash the manifest's, once, and none the HAVE names. -/
def checkWant (held have_ : List Digest) : List Digest → List Digest → Except Error Unit
  | _, [] => .ok ()
  | seen, hash :: want =>
    if hash ∈ have_ ∨ hash ∈ seen ∨ hash ∉ held then .error invalidExchange
    else checkWant held have_ (hash :: seen) want

/-- The loop that fills a page with chunks. -/
def fillPage (chunkOf : Digest → Except Error (Option Bytes)) :
    ℕ → List (Digest × Bytes) → List Digest → Except Error (List (Digest × Bytes))
  | _, chunks, [] => .ok chunks
  | room, chunks, hash :: want => do
    let body ← chunkOf hash
    let body ← okOr body invalidExchange
    if encodedCost body > room ∧ chunks ≠ [] then pure chunks
    else fillPage chunkOf (room - encodedCost body) (chunks ++ [(hash, body)]) want

/-- Where a request's page starts; a cursor names a page of this manifest only. -/
def startOf (pin : Digest) : Option ChunkPageCursor → Except Error ℕ
  | none => .ok 0
  | some cursor => if cursor.manifest = pin then .ok cursor.offset else .error invalidExchange

/-- `page::reply`: the page a request asks for. -/
def reply (bodies : Digest → Option Bytes) (manifest : LfsManifest) (request : ChunkSyncRequest)
    (read : Option EntityId) (mark : Option ChunkMark) : Except Error ChunkSyncResponse := do
  let pin ← manifest.hash blake3
  let start ← startOf pin request.cursor
  let held := manifest.chunks.map LfsChunkRef.hash
  ensure (∀ hash ∈ request.have_, hash ∈ held) invalidExchange
  match request.want with
  | none =>
    let bytes ← manifest.encode
    ensure (start < bytes.length) invalidExchange
    let stop := pageEnd bytes start
    pure (.manifest
      { request := request.request, manifest := pin, offset := start, total := bytes.length
        bytes := (bytes.take stop).drop start
        next := if stop < bytes.length then some ⟨pin, stop⟩ else none
        read, mark })
  | some want =>
    checkWant held request.have_ [] want
    -- An empty WANT is answered by one empty page.
    ensure (¬ (start > want.length ∨ start = want.length ∧ start > 0)) invalidExchange
    let chunks ← fillPage (lfsObjectChunk blake3 bodies manifest) chunkPageBytes []
      ((want.drop start).take maxWantChunks)
    let stop := start + chunks.length
    pure (.chunks
      { request := request.request, offset := start, chunks
        next := if stop < want.length then some ⟨pin, stop⟩ else none
        read })

end Server

/-! ## A manifest as its pages arrive -/

structure ManifestPages where
  pin : Option (Digest × ℕ)
  bytes : Bytes
  deriving DecidableEq

namespace ManifestPages

/-- `ManifestPages::default`. -/
def empty : ManifestPages := ⟨none, []⟩

/-- `take`: a page that goes on where the last ended, in the manifest the first named. -/
def take (pages : ManifestPages) (request : ℕ) (page : ManifestPage) :
    Except Error (ManifestPages × Option ChunkPageCursor) :=
  let pin := pages.pin.getD (page.manifest, page.total)
  if page.request ≠ request ∨ page.offset ≠ pages.bytes.length ∨ page.bytes = [] ∨
      pin ≠ (page.manifest, page.total) then .error invalidExchange
  else
    let bytes := pages.bytes ++ page.bytes
    match page.next with
    | some next =>
      if next.manifest = page.manifest ∧ next.offset = bytes.length ∧ bytes.length < page.total then
        .ok (⟨some pin, bytes⟩, some next)
      else .error invalidExchange
    | none => if bytes.length = page.total then .ok (⟨some pin, bytes⟩, none) else .error invalidExchange

/-- The whole manifest, decoded, as the first page named it. -/
def manifest (blake3 : Bytes → Digest) (pages : ManifestPages) : Except Error LfsManifest := do
  let manifest ← LfsManifest.decode pages.bytes
  let pin ← manifest.hash blake3
  ensure (pages.pin.map Prod.fst = some pin) invalidExchange
  pure manifest

/-- A list of pages taken in order, each under its request, with what each take gave. -/
def takes : ManifestPages → List (ℕ × ManifestPage) →
    Except Error (ManifestPages × List (Option ChunkPageCursor))
  | pages, [] => .ok (pages, [])
  | pages, (request, page) :: rest => do
    let (pages, next) ← pages.take request page
    let (pages, nexts) ← takes pages rest
    pure (pages, next :: nexts)

end ManifestPages

/-! ## An exchange followed -/

/-- The replies of an exchange, each asked for by the cursor the one before named. -/
inductive Followed (serve : ChunkSyncRequest → Except Error ChunkSyncResponse) :
    ChunkSyncRequest → List ChunkSyncResponse → Prop
  | last {request page} (hpage : serve request = .ok page) (hnext : page.next = none) :
    Followed serve request [page]
  | more {request page cursor rest} (hpage : serve request = .ok page) (hnext : page.next = some cursor)
    (hrest : Followed serve { request with cursor := some cursor } rest) :
    Followed serve request (page :: rest)

end Oneiron
