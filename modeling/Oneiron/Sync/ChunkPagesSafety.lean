import Oneiron.Sync.ChunkPages

/-!
# Sync/ChunkPagesSafety — the pages of an exchange are the whole of it, and each goes on

A page ends where the next byte or chunk would no longer fit, so it holds at least one and its list
encodes within a page (`pageEnd_spec`, `fillPage_spec`).  From any point the pages still to come are
just what is left (`followed_manifest`, `followed_want`), and the receiver's checks pass on them; and
whatever pages those checks pass on, they are one manifest's bytes laid end to end (`takes_spec`).
-/

namespace Oneiron

open List Except

/-! ## The encoding of a list -/

def msgpackByte (byte : UInt8) : Bytes := if byte < 0x80 then [byte] else [0xcc, byte]

def msgpackListHeader (n : ℕ) : Bytes :=
  if n < 16 then [0x90 + n.toUInt8]
  else if n < 2 ^ 16 then 0xdc :: digits 2 n
  else 0xdd :: digits 4 n

/-- A byte list as MessagePack writes it: one integer per byte, behind its header. -/
def msgpackBytes (bytes : Bytes) : Bytes := msgpackListHeader bytes.length ++ bytes.flatMap msgpackByte

/-- A page's chunk: a pair of its hash and its body. -/
def msgpackChunk (chunk : Digest × Bytes) : Bytes :=
  0x92 :: (msgpackBytes chunk.1.bytes ++ msgpackBytes chunk.2)

def msgpackChunks (chunks : List (Digest × Bytes)) : Bytes :=
  msgpackListHeader chunks.length ++ chunks.flatMap msgpackChunk

theorem length_msgpackListHeader (n : ℕ) : (msgpackListHeader n).length ≤ listHeader := by
  unfold msgpackListHeader
  split
  · simp [listHeader]
  · split <;> simp [listHeader]

theorem length_msgpackByte (byte : UInt8) : (msgpackByte byte).length = byteCost byte := by
  unfold msgpackByte byteCost
  split <;> rfl

/-- **What a page reckons is at least what is written.** -/
theorem length_msgpackBytes (bytes : Bytes) : (msgpackBytes bytes).length ≤ encodedCost bytes := by
  rw [msgpackBytes, length_append, length_flatMap, encodedCost]
  simp only [length_msgpackByte]
  exact Nat.add_le_add_right (length_msgpackListHeader _) _

theorem byteCost_le (byte : UInt8) : byteCost byte ≤ 2 := by
  unfold byteCost
  split <;> decide

theorem encodedCost_le (bytes : Bytes) : encodedCost bytes ≤ listHeader + 2 * bytes.length := by
  have hsum : (bytes.map byteCost).sum ≤ (bytes.map byteCost).length * 2 :=
    sum_le_card_nsmul _ 2 fun n hn => by
      obtain ⟨byte, -, rfl⟩ := mem_map.mp hn
      exact byteCost_le byte
  rw [length_map] at hsum
  rw [encodedCost]
  omega

/-- What a chunk's pair, its hash and its share of the list's header take at most. -/
def chunkOverhead : ℕ := 75

theorem length_msgpackChunk (chunk : Digest × Bytes) :
    (msgpackChunk chunk).length ≤ 70 + encodedCost chunk.2 := by
  have hhash := (length_msgpackBytes chunk.1.bytes).trans (encodedCost_le _)
  have hbody := length_msgpackBytes chunk.2
  rw [chunk.1.length_bytes] at hhash
  rw [msgpackChunk, length_cons, length_append]
  simp only [listHeader] at hhash
  omega

theorem length_msgpackChunks {chunks : List (Digest × Bytes)} (hne : chunks ≠ []) :
    (msgpackChunks chunks).length ≤
      (chunks.map fun chunk => encodedCost chunk.2).sum + chunkOverhead * chunks.length := by
  have hpairs : ∀ l : List (Digest × Bytes), (l.flatMap msgpackChunk).length ≤
      (l.map fun chunk => encodedCost chunk.2).sum + 70 * l.length := by
    intro l
    induction l with
    | nil => simp
    | cons chunk l ih =>
      have hchunk := length_msgpackChunk chunk
      rw [flatMap_cons, length_append, map_cons, sum_cons, length_cons]
      omega
  have hheader := length_msgpackListHeader chunks.length
  have hlen := length_pos_iff.mpr hne
  have hall := hpairs chunks
  rw [msgpackChunks, length_append, chunkOverhead]
  simp only [listHeader] at hheader
  omega

/-! ## Where a page ends -/

theorem pageEndFrom_spec (start : ℕ) : ∀ (rest : Bytes) (i cost : ℕ), start ≤ i →
    cost ≤ chunkPageBytes → (i = start → cost + 2 ≤ chunkPageBytes) →
      ∃ n ≤ rest.length, pageEndFrom start i cost rest = i + n ∧
        cost + ((rest.take n).map byteCost).sum ≤ chunkPageBytes ∧ (i = start → rest ≠ [] → 0 < n)
  | [], i, cost, _, hcost, _ => ⟨0, le_rfl, rfl, by simpa using hcost, fun _ h => absurd rfl h⟩
  | byte :: rest, i, cost, hi, hcost, hfirst => by
    rw [pageEndFrom]
    have hbyte := byteCost_le byte
    split
    · next hover =>
      have hlater : i ≠ start := fun heq => by have := hfirst heq; omega
      exact ⟨0, Nat.zero_le _, by omega, by simpa using hcost, fun heq => absurd heq hlater⟩
    · next hfits =>
      obtain ⟨n, hn, heq, hsum, -⟩ := pageEndFrom_spec start rest (i + 1) (cost + byteCost byte) (by omega)
        (by omega) (by omega)
      refine ⟨n + 1, by rw [length_cons]; omega, by rw [heq]; omega, ?_, fun _ _ => n.succ_pos⟩
      rw [take_succ_cons, map_cons, sum_cons]
      omega

/-- **A page holds at least one byte, and its bytes fit.** -/
theorem pageEnd_spec {bytes : Bytes} {start : ℕ} (h : start < bytes.length) :
    start < pageEnd bytes start ∧ pageEnd bytes start ≤ bytes.length ∧
      (msgpackBytes ((bytes.take (pageEnd bytes start)).drop start)).length ≤ chunkPageBytes := by
  obtain ⟨n, hn, heq, hsum, hpos⟩ := pageEndFrom_spec start (bytes.drop start) start listHeader le_rfl
    (by decide) fun _ => by decide
  rw [length_drop] at hn
  have hpos := hpos rfl (ne_nil_of_length_pos (by rw [length_drop]; omega))
  have hend : pageEnd bytes start = start + n := heq
  have hslice : (bytes.take (start + n)).drop start = (bytes.drop start).take n := by
    rw [drop_take, Nat.add_sub_cancel_left]
  rw [hend, hslice]
  exact ⟨by omega, by omega, (length_msgpackBytes _).trans hsum⟩

/-! ## What a vault stores -/

/-- A manifest a vault has stored, with every chunk's body under its hash. -/
structure StoredObject (blake3 : Bytes → Digest) (bodies : Digest → Option Bytes)
    (manifest : LfsManifest) : Prop where
  encodes : ∃ bytes, manifest.encode = .ok bytes
  body : ∀ chunk ∈ manifest.chunks, ∃ body, bodies chunk.hash = some body ∧
    body.length = chunk.size ∧ blake3 body = chunk.hash

section Stored

variable {blake3 : Bytes → Digest} {bodies : Digest → Option Bytes} {manifest : LfsManifest}

theorem checkedChunk_eq_ok {chunk : LfsChunkRef} {bytes body : Bytes} :
    checkedChunk blake3 chunk bytes = .ok body ↔
      body = bytes ∧ bytes.length = chunk.size ∧ blake3 bytes = chunk.hash := by
  unfold checkedChunk
  split
  · next h =>
    refine ⟨nofun, fun ⟨_, hsize, hhash⟩ => ?_⟩
    rcases h with h | h
    · exact absurd hsize h
    · exact absurd hhash h
  · next h =>
    rw [not_or, not_not, not_not] at h
    rw [Except.ok.injEq]
    exact ⟨fun heq => ⟨heq.symm, h⟩, fun heq => heq.1.symm⟩

theorem StoredObject.validate (h : StoredObject blake3 bodies manifest) : manifest.validate = .ok () :=
  let ⟨_, hbytes⟩ := h.encodes
  (LfsManifest.encode_eq_ok.mp hbytes).1

/-- **Every chunk of a stored manifest is read**, and fits a page. -/
theorem StoredObject.chunk (h : StoredObject blake3 bodies manifest) {hash : Digest}
    (hheld : hash ∈ manifest.chunks.map LfsChunkRef.hash) :
    ∃ body, bodies hash = some body ∧ lfsObjectChunk blake3 bodies manifest hash = .ok (some body) ∧
      encodedCost body ≤ chunkPageBytes := by
  obtain ⟨chunk, hchunk, rfl⟩ := mem_map.mp hheld
  have hsome : (manifest.chunks.find? (·.hash = chunk.hash)).isSome :=
    find?_isSome.mpr ⟨chunk, hchunk, by simp⟩
  obtain ⟨found, hfound⟩ := Option.isSome_iff_exists.mp hsome
  have hmem := mem_of_find?_eq_some hfound
  have hhash : found.hash = chunk.hash := by simpa using find?_some hfound
  obtain ⟨body, hbody, hsize, hblake⟩ := h.body found hmem
  refine ⟨body, hhash ▸ hbody, ?_, ?_⟩
  · have hread : readChunk blake3 bodies found = .ok body := by
      rw [readChunk, hbody]
      exact checkedChunk_eq_ok.mpr ⟨rfl, hsize, hblake⟩
    rw [lfsObjectChunk, hfound]
    simp only [hread]
    rfl
  · have hmax := ((LfsManifest.of_validate h.validate).1 found hmem).2
    refine (encodedCost_le body).trans ?_
    rw [hsize]
    exact (Nat.add_le_add_left (Nat.mul_le_mul_left 2 hmax) _).trans (by decide)

end Stored

/-! ## A WANT's pages -/

theorem checkWant_eq_ok {held have_ : List Digest} : ∀ {want seen : List Digest},
    checkWant held have_ seen want = .ok () ↔
      (∀ hash ∈ want, hash ∉ have_ ∧ hash ∉ seen ∧ hash ∈ held) ∧ want.Nodup
  | [], seen => by simp [checkWant]
  | hash :: want, seen => by
    rw [checkWant, forall_mem_cons, nodup_cons]
    split
    · next h =>
      refine ⟨nofun, fun ⟨⟨⟨hhave, hseen, hheld⟩, _⟩, _⟩ => ?_⟩
      rcases h with h | h | h
      · exact absurd h hhave
      · exact absurd h hseen
      · exact absurd hheld h
    · next h =>
      rw [not_or, not_or, not_not] at h
      rw [checkWant_eq_ok]
      simp only [mem_cons, not_or]
      constructor
      · rintro ⟨hall, hnodup⟩
        exact ⟨⟨h, fun k hk => ⟨(hall k hk).1, (hall k hk).2.1.2, (hall k hk).2.2⟩⟩,
          fun hmem => (hall hash hmem).2.1.1 rfl, hnodup⟩
      · rintro ⟨⟨-, hall⟩, hnot, hnodup⟩
        exact ⟨fun k hk => ⟨(hall k hk).1, ⟨fun heq => hnot (heq ▸ hk), (hall k hk).2.1⟩,
          (hall k hk).2.2⟩, hnodup⟩

/-- **A page holds at least one chunk, in order, and its bodies fit.** -/
theorem fillPage_spec {chunkOf : Digest → Except Error (Option Bytes)} (body : Digest → Bytes) :
    ∀ (want : List Digest) (room : ℕ) (chunks : List (Digest × Bytes)),
      (∀ hash ∈ want, chunkOf hash = .ok (some (body hash)) ∧ encodedCost (body hash) ≤ chunkPageBytes) →
      (chunks.map fun chunk => encodedCost chunk.2).sum + room = chunkPageBytes →
        ∃ n ≤ want.length, fillPage chunkOf room chunks want =
            .ok (chunks ++ (want.take n).map fun hash => (hash, body hash)) ∧
          ((chunks ++ (want.take n).map fun hash => (hash, body hash)).map
            fun chunk => encodedCost chunk.2).sum ≤ chunkPageBytes ∧
          (chunks = [] → want ≠ [] → 0 < n)
  | [], room, chunks, _, hroom => by
    refine ⟨0, le_rfl, by simp [fillPage], ?_, fun _ h => absurd rfl h⟩
    simp only [take_nil, map_nil, append_nil]
    omega
  | hash :: want, room, chunks, hall, hroom => by
    rw [forall_mem_cons] at hall
    obtain ⟨⟨hread, hfits⟩, hall⟩ := hall
    have hstep : fillPage chunkOf room chunks (hash :: want) =
        if encodedCost (body hash) > room ∧ chunks ≠ [] then .ok chunks
        else fillPage chunkOf (room - encodedCost (body hash)) (chunks ++ [(hash, body hash)]) want := by
      rw [fillPage, hread]
      rfl
    rw [hstep]
    split
    · next hover =>
      refine ⟨0, Nat.zero_le _, by simp, ?_, fun hnil => absurd hnil hover.2⟩
      simp only [take_zero, map_nil, append_nil]
      omega
    · next hroomy =>
      have hle : encodedCost (body hash) ≤ room := by
        by_contra hover
        have hnil : chunks = [] := by_contra fun hne => hroomy ⟨by omega, hne⟩
        subst hnil
        simp only [map_nil, sum_nil] at hroom
        omega
      obtain ⟨n, hn, heq, hsum, -⟩ := fillPage_spec body want
        (room - encodedCost (body hash)) (chunks ++ [(hash, body hash)]) hall (by
          rw [map_append, sum_append]
          simp only [map_cons, map_nil, sum_cons, sum_nil]
          omega)
      refine ⟨n + 1, Nat.succ_le_succ hn, ?_, ?_, fun _ _ => n.succ_pos⟩
      · rw [heq, append_assoc]
        rfl
      · rw [append_assoc] at hsum
        exact hsum

/-! ## The pages still to come -/

/-- Whether a cursor starts a page at an offset. -/
def StartsAt (pin : Digest) (cursor : Option ChunkPageCursor) (start : ℕ) : Prop :=
  cursor = none ∧ start = 0 ∨ cursor = some ⟨pin, start⟩

section Pages

variable {blake3 : Bytes → Digest} {bodies : Digest → Option Bytes} {manifest : LfsManifest}
  {bytes : Bytes} {request : ChunkSyncRequest} {read : Option EntityId} {mark : Option ChunkMark}
  {start : ℕ}

theorem hash_eq (hbytes : manifest.encode = .ok bytes) : manifest.hash blake3 = .ok (blake3 bytes) := by
  rw [LfsManifest.hash, hbytes]
  rfl

/-- A manifest's page from an offset. -/
def manifestPage (blake3 : Bytes → Digest) (bytes : Bytes) (request : ChunkSyncRequest)
    (read : Option EntityId) (mark : Option ChunkMark) (start : ℕ) : ManifestPage where
  request := request.request
  manifest := blake3 bytes
  offset := start
  total := bytes.length
  bytes := (bytes.take (pageEnd bytes start)).drop start
  next := if pageEnd bytes start < bytes.length then some ⟨blake3 bytes, pageEnd bytes start⟩ else none
  read := read
  mark := mark

theorem startOf_eq (hstart : StartsAt (blake3 bytes) request.cursor start) :
    startOf (blake3 bytes) request.cursor = .ok start := by
  rcases hstart with ⟨hcursor, rfl⟩ | hcursor
  · rw [hcursor]
    rfl
  · rw [hcursor]
    exact if_pos rfl

theorem reply_manifest (hbytes : manifest.encode = .ok bytes) (hwant : request.want = none)
    (hhave : ∀ hash ∈ request.have_, hash ∈ manifest.chunks.map LfsChunkRef.hash)
    (hstart : StartsAt (blake3 bytes) request.cursor start) (hlt : start < bytes.length) :
    reply blake3 bodies manifest request read mark =
      .ok (.manifest (manifestPage blake3 bytes request read mark start)) := by
  simp only [reply, hash_eq hbytes, startOf_eq hstart, hwant, hbytes, bind, Except.bind, ensure, if_pos hhave,
    if_pos hlt]
  rfl

/-- What the server admits: a HAVE of the manifest's own, and a WANT each of whose hashes it can serve. -/
theorem of_reply {page : ChunkSyncResponse} (h : reply blake3 bodies manifest request read mark = .ok page) :
    (∀ hash ∈ request.have_, hash ∈ manifest.chunks.map LfsChunkRef.hash) ∧
      ∀ want, request.want = some want →
        checkWant (manifest.chunks.map LfsChunkRef.hash) request.have_ [] want = .ok () := by
  rw [reply] at h
  simp only [bind_eq_ok, ensure_eq_ok] at h
  obtain ⟨pin, -, start, -, -, hhave, h⟩ := h
  refine ⟨hhave, fun want hwant => ?_⟩
  rw [hwant] at h
  obtain ⟨⟨⟩, hcheck, -⟩ := bind_eq_ok.mp h
  exact hcheck

/-- **The receiver takes the server's page** where it stands at its offset. -/
theorem take_manifestPage (hlt : start < bytes.length) {state : ManifestPages}
    (hpin : state.pin.getD (blake3 bytes, bytes.length) = (blake3 bytes, bytes.length))
    (hheld : state.bytes = bytes.take start) :
    state.take request.request (manifestPage blake3 bytes request read mark start) =
      .ok (⟨some (blake3 bytes, bytes.length), bytes.take (pageEnd bytes start)⟩,
        (manifestPage blake3 bytes request read mark start).next) := by
  obtain ⟨hgrow, hle, -⟩ := pageEnd_spec hlt
  have hslice : (bytes.take (pageEnd bytes start)).drop start ≠ [] :=
    ne_nil_of_length_pos (by rw [length_drop, length_take]; omega)
  have hgoes : state.bytes ++ (bytes.take (pageEnd bytes start)).drop start =
      bytes.take (pageEnd bytes start) := by
    rw [hheld]
    conv_rhs => rw [← take_append_drop start (bytes.take (pageEnd bytes start)), take_take,
      Nat.min_eq_left hgrow.le]
  have hlen : (bytes.take (pageEnd bytes start)).length = pageEnd bytes start := length_take_of_le hle
  have hoffset : state.bytes.length = start := by rw [hheld, length_take_of_le (by omega)]
  simp only [ManifestPages.take, manifestPage, hpin, hoffset, hslice, hgoes, hlen, ne_eq, not_true_eq_false,
    or_self, if_false]
  by_cases hmore : pageEnd bytes start < bytes.length
  · simp [hmore]
  · simp [Nat.le_antisymm hle (Nat.le_of_not_lt hmore)]

/-- **From any offset the manifest's pages are the rest of its bytes**, and its receiver takes them. -/
theorem followed_manifest (hbytes : manifest.encode = .ok bytes) (hwant : request.want = none)
    (hhave : ∀ hash ∈ request.have_, hash ∈ manifest.chunks.map LfsChunkRef.hash)
    (hstart : StartsAt (blake3 bytes) request.cursor start) (hlt : start < bytes.length) :
    ∃ pages : List ManifestPage,
      Followed (fun request => reply blake3 bodies manifest request read mark) request
        (pages.map .manifest) ∧
      pages.flatMap ManifestPage.bytes = bytes.drop start ∧
      (∀ page ∈ pages, page.bytes ≠ [] ∧ (msgpackBytes page.bytes).length ≤ chunkPageBytes) ∧
      ∀ state : ManifestPages, state.pin.getD (blake3 bytes, bytes.length) = (blake3 bytes, bytes.length) →
        state.bytes = bytes.take start → ∃ nexts,
          state.takes (pages.map (request.request, ·)) =
            .ok (⟨some (blake3 bytes, bytes.length), bytes⟩, nexts ++ [none]) := by
  induction hn : bytes.length - start using Nat.strong_induction_on generalizing start request with
  | _ n ih =>
    obtain ⟨hgrow, hle, hfits⟩ := pageEnd_spec hlt
    have hpage : reply blake3 bodies manifest request read mark =
        .ok (.manifest (manifestPage blake3 bytes request read mark start)) :=
      reply_manifest hbytes hwant hhave hstart hlt
    have hslice : (bytes.take (pageEnd bytes start)).drop start ≠ [] :=
      ne_nil_of_length_pos (by rw [length_drop, length_take]; omega)
    by_cases hmore : pageEnd bytes start < bytes.length
    · have hnext : (manifestPage blake3 bytes request read mark start).next =
          some ⟨blake3 bytes, pageEnd bytes start⟩ := if_pos hmore
      obtain ⟨pages, hfollowed, hrest, hall, htakes⟩ := @ih (bytes.length - pageEnd bytes start) (by omega)
        { request with cursor := some ⟨blake3 bytes, pageEnd bytes start⟩ } (pageEnd bytes start) hwant hhave (.inr rfl) hmore rfl
      refine ⟨manifestPage blake3 bytes request read mark start :: pages, .more hpage hnext hfollowed, ?_,
        forall_mem_cons.mpr ⟨⟨hslice, hfits⟩, hall⟩, fun state hpin hheld => ?_⟩
      · rw [flatMap_cons, hrest]
        show (bytes.take (pageEnd bytes start)).drop start ++ bytes.drop (pageEnd bytes start) = bytes.drop start
        conv_rhs => rw [← take_append_drop (pageEnd bytes start) bytes,
          drop_append_of_le_length (by rw [length_take_of_le hle]; omega)]
      · obtain ⟨nexts, htakes⟩ := htakes ⟨some (blake3 bytes, bytes.length), bytes.take (pageEnd bytes start)⟩
          rfl rfl
        refine ⟨some ⟨blake3 bytes, pageEnd bytes start⟩ :: nexts, ?_⟩
        rw [map_cons, ManifestPages.takes, take_manifestPage hlt hpin hheld, hnext]
        simp only [Except.bind, bind]
        rw [htakes]
        rfl
    · have hend : pageEnd bytes start = bytes.length := Nat.le_antisymm hle (Nat.le_of_not_lt hmore)
      have hnext : (manifestPage blake3 bytes request read mark start).next = none := if_neg hmore
      refine ⟨[manifestPage blake3 bytes request read mark start], .last hpage hnext, ?_,
        fun page hmem => mem_singleton.mp hmem ▸ ⟨hslice, hfits⟩, fun state hpin hheld => ⟨[], ?_⟩⟩
      · rw [flatMap_singleton]
        show (bytes.take (pageEnd bytes start)).drop start = bytes.drop start
        rw [hend, take_length]
      · rw [map_singleton, ManifestPages.takes, take_manifestPage hlt hpin hheld, hnext, hend, take_length]
        rfl

/-- **From any index a WANT's pages are the rest of its chunks.** -/
theorem followed_want (h : StoredObject blake3 bodies manifest) (hbytes : manifest.encode = .ok bytes)
    {want : List Digest} (hwant : request.want = some want)
    (hhave : ∀ hash ∈ request.have_, hash ∈ manifest.chunks.map LfsChunkRef.hash)
    (hcheck : checkWant (manifest.chunks.map LfsChunkRef.hash) request.have_ [] want = .ok ())
    (hstart : StartsAt (blake3 bytes) request.cursor start) (hlt : start < want.length ∨ start = 0) :
    ∃ pages : List ChunkPage,
      Followed (fun request => reply blake3 bodies manifest request read mark) request
        (pages.map .chunks) ∧
      pages.flatMap ChunkPage.chunks =
        ((want.drop start).map fun hash => (hash, (bodies hash).getD [])) ∧
      ∀ page ∈ pages, (start < want.length → page.chunks ≠ []) ∧
        (msgpackChunks page.chunks).length ≤ chunkPageBytes + chunkOverhead * page.chunks.length := by
  have hbody : ∀ hash ∈ want, lfsObjectChunk blake3 bodies manifest hash =
      .ok (some ((bodies hash).getD [])) ∧ encodedCost ((bodies hash).getD []) ≤ chunkPageBytes := by
    intro hash hmem
    obtain ⟨body, hbody, hread, hfits⟩ := h.chunk ((checkWant_eq_ok.mp hcheck).1 hash hmem).2.2
    rw [hbody]
    exact ⟨hread, hfits⟩
  induction hn : want.length - start using Nat.strong_induction_on generalizing start request with
  | _ n ih =>
    obtain ⟨k, hk, hfill, hsum, hpos⟩ := fillPage_spec (fun hash => (bodies hash).getD [])
      ((want.drop start).take maxWantChunks) chunkPageBytes []
      (fun hash hmem => hbody hash (mem_of_mem_drop (mem_of_mem_take hmem))) (by simp)
    rw [length_take, length_drop] at hk
    have hcut : ((want.drop start).take maxWantChunks).take k = (want.drop start).take k := by
      rw [take_take, Nat.min_eq_left (by omega)]
    rw [nil_append, hcut] at hfill hsum
    have hlen : (((want.drop start).take k).map fun hash => (hash, (bodies hash).getD [])).length = k := by
      rw [length_map, length_take, length_drop]
      omega
    have hmoves : start < want.length → 0 < k := fun hlt =>
      hpos rfl (ne_nil_of_length_pos (by
        rw [length_take, length_drop]
        exact Nat.lt_min.mpr ⟨by decide, by omega⟩))
    let page : ChunkPage :=
      { request := request.request, offset := start
        chunks := ((want.drop start).take k).map fun hash => (hash, (bodies hash).getD [])
        next := if start + k < want.length then some ⟨blake3 bytes, start + k⟩ else none
        read }
    have hpage : reply blake3 bodies manifest request read mark = .ok (.chunks page) := by
      have hin : ¬ (start > want.length ∨ start = want.length ∧ start > 0) := by omega
      simp only [reply, hash_eq hbytes, startOf_eq hstart, hwant, hcheck, bind, Except.bind, ensure,
        if_pos hhave, if_pos hin, hfill, hlen]
      rfl
    have hencodes : (msgpackChunks page.chunks).length ≤ chunkPageBytes + chunkOverhead * page.chunks.length := by
      by_cases hnil : page.chunks = []
      · rw [hnil]
        decide
      · exact (length_msgpackChunks hnil).trans (Nat.add_le_add_right hsum _)
    have hgrows : start < want.length → page.chunks ≠ [] := fun hlt =>
      ne_nil_of_length_pos (hlen.symm ▸ hmoves hlt)
    by_cases hmore : start + k < want.length
    · have hnext : (ChunkSyncResponse.chunks page).next = some ⟨blake3 bytes, start + k⟩ := if_pos hmore
      obtain ⟨pages, hfollowed, hrest, hall⟩ := @ih (want.length - (start + k)) (by omega)
        { request with cursor := some ⟨blake3 bytes, start + k⟩ } (start + k)
        hwant hhave hcheck (.inr rfl) (.inl hmore) rfl
      refine ⟨page :: pages, .more hpage hnext hfollowed, ?_, forall_mem_cons.mpr
        ⟨⟨hgrows, hencodes⟩, fun other hother => ⟨fun _ => (hall other hother).1 hmore, (hall other hother).2⟩⟩⟩
      rw [flatMap_cons, hrest, ← map_append, ← drop_drop, take_append_drop]
    · have hnext : (ChunkSyncResponse.chunks page).next = none := if_neg hmore
      refine ⟨[page], .last hpage hnext, ?_, fun other hother =>
        mem_singleton.mp hother ▸ ⟨hgrows, hencodes⟩⟩
      rw [flatMap_singleton]
      show ((want.drop start).take k).map _ = _
      rw [take_of_length_le (by rw [length_drop]; omega)]

end Pages

/-! ## Pages taken -/

namespace ManifestPages

variable {state state' : ManifestPages} {request : ℕ} {page : ManifestPage} {next : Option ChunkPageCursor}

/-- What a page that is taken is, and what it leaves. -/
theorem of_take (h : state.take request page = .ok (state', next)) :
    (page.request = request ∧ page.bytes ≠ [] ∧ page.offset = state.bytes.length) ∧
      state'.bytes = state.bytes ++ page.bytes ∧ state'.pin = some (page.manifest, page.total) ∧
      (∀ pin, state.pin = some pin → state'.pin = some pin) ∧
      (next = none → state'.bytes.length = page.total) := by
  simp only [take] at h
  split at h
  · cases h
  next hgood =>
  simp only [not_or, ne_eq, not_not] at hgood
  obtain ⟨hrequest, hoffset, hbytes, hpin⟩ := hgood
  have hkeep : ∀ pin, state.pin = some pin → some (page.manifest, page.total) = some pin := by
    intro pin hsome
    rw [hsome, Option.getD_some] at hpin
    rw [hpin]
  rw [hpin] at h
  split at h
  · split at h
    · obtain ⟨rfl, rfl⟩ := Prod.mk.inj (ok.inj h)
      exact ⟨⟨hrequest, hbytes, hoffset⟩, rfl, rfl, hkeep, nofun⟩
    · exact nomatch h
  · split at h
    · next hwhole =>
      obtain ⟨rfl, rfl⟩ := Prod.mk.inj (ok.inj h)
      exact ⟨⟨hrequest, hbytes, hoffset⟩, rfl, rfl, hkeep, fun _ => hwhole⟩
    · exact nomatch h

/-- **Pages that are taken lie end to end in one manifest**, and what ends them is its whole length. -/
theorem takes_spec : ∀ {pages : List (ℕ × ManifestPage)} {state state' : ManifestPages}
    {nexts : List (Option ChunkPageCursor)}, state.takes pages = .ok (state', nexts) →
      state'.bytes = state.bytes ++ pages.flatMap (·.2.bytes) ∧
      (∀ before page after, pages = before ++ page :: after →
        (page.2.request = page.1 ∧ page.2.bytes ≠ [] ∧
          page.2.offset = (state.bytes ++ before.flatMap (·.2.bytes)).length) ∧
        state'.pin = some (page.2.manifest, page.2.total)) ∧
      (∀ pin, state.pin = some pin → state'.pin = some pin) ∧
      (nexts.getLast? = some none → ∀ pin, state'.pin = some pin → state'.bytes.length = pin.2)
  | [], state, state', nexts, h => by
    obtain ⟨rfl, rfl⟩ := Prod.mk.inj (ok.inj h)
    exact ⟨by simp, fun before page after heq => by simp at heq, fun _ hpin => hpin, nofun⟩
  | (request, page) :: rest, state, state', nexts, h => by
    obtain ⟨⟨mid, next⟩, htake, h⟩ := bind_eq_ok.mp h
    obtain ⟨⟨last, others⟩, htakes, heq⟩ := bind_eq_ok.mp h
    obtain ⟨rfl, rfl⟩ := Prod.mk.inj (pure_eq_ok.mp heq)
    obtain ⟨hfirst, hbytes, hpin, hkeep, hwhole⟩ := of_take htake
    obtain ⟨hbytes', hall, hkeep', hwhole'⟩ := takes_spec htakes
    refine ⟨by rw [hbytes', hbytes, append_assoc]; rfl, fun before page' after heq => ?_,
      fun pin hsome => hkeep' pin (hkeep pin hsome), fun hlast pin hsome => ?_⟩
    · cases before with
      | nil =>
        obtain ⟨rfl, rfl⟩ := cons.inj heq
        exact ⟨by simpa using hfirst, hkeep' _ hpin⟩
      | cons first before =>
        obtain ⟨rfl, rfl⟩ := cons.inj heq
        obtain ⟨⟨hrequest, hne, hoffset⟩, hpin'⟩ := hall before page' after rfl
        refine ⟨⟨hrequest, hne, ?_⟩, hpin'⟩
        rw [hoffset, hbytes, flatMap_cons, append_assoc]
    · cases rest with
      | nil =>
        obtain ⟨rfl, rfl⟩ := Prod.mk.inj (ok.inj htakes)
        obtain rfl : next = none := by simpa using hlast
        rw [hpin] at hsome
        rw [← Option.some.inj hsome]
        exact hwhole rfl
      | cons other rest =>
        obtain ⟨⟨mid', next'⟩, -, h'⟩ := bind_eq_ok.mp htakes
        obtain ⟨⟨last', others'⟩, -, heq'⟩ := bind_eq_ok.mp h'
        obtain ⟨-, rfl⟩ := Prod.mk.inj (pure_eq_ok.mp heq')
        exact hwhole' hlast pin hsome

/-- **A manifest is yielded only under the hash the first page named**, and is what the bytes spell. -/
theorem manifest_eq_ok {blake3 : Bytes → Digest} {m : LfsManifest} :
    state.manifest blake3 = .ok m ↔
      m.encode = .ok state.bytes ∧ state.pin.map Prod.fst = some (blake3 state.bytes) := by
  simp only [manifest, bind_eq_ok, LfsManifest.decode_eq_ok, ensure_eq_ok, pure_eq_ok]
  constructor
  · rintro ⟨m, hencode, pin, hhash, -, hpin, rfl⟩
    rw [hash_eq hencode] at hhash
    obtain rfl := ok.inj hhash
    exact ⟨hencode, hpin⟩
  · rintro ⟨hencode, hpin⟩
    exact ⟨m, hencode, _, hash_eq hencode, ⟨⟩, hpin, rfl⟩

end ManifestPages

end Oneiron
