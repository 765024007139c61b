import Oneiron.Sync.ChunkDownload
import Oneiron.Sync.ChunkPagesSafety

/-!
# Sync/ChunkDownloadSafety — a transfer asks for each missing chunk once, and spools the object

Between replies the spool holds the object's first chunks end to end, and knows where each of them first
went (`Spooled`); so the next chunk is read back, copied or asked for according as it is a repeat, is
held, or neither (`goOn_spec`).  The server's answer to each request is one the transfer takes, and the
run ends at the last chunk (`exchanged_chunks`, `exchanged_manifest`).
-/

open Std

namespace Oneiron

open Std.ExtTreeMap ManifestPages ChunkDownload ChunkSyncRequest

open List Option

/-! ## The spool -/

namespace Spool

variable {spool : Spool}

theorem write_end (h : spool.pos = spool.content.length) (bytes : Bytes) :
    spool.write bytes = ⟨spool.content ++ bytes, spool.content.length + bytes.length⟩ := by
  simp [write, h]

theorem readExact_eq {n : ℕ} (h : spool.pos + n ≤ spool.content.length) : spool.readExact n =
      .ok ((spool.content.drop spool.pos).take n, { spool with pos := spool.pos + n }) := if_pos h

/-- **Chunks laid end to end are supplied one by one.** -/
theorem supply_eq {f : LfsChunkRef → Bytes} : ∀ {chunks : List LfsChunkRef} {spool : Spool},
    (∀ chunk ∈ chunks, (f chunk).length = chunk.size) → spool.pos ≤ spool.content.length →
      spool.content.drop spool.pos = chunks.flatMap f → spool.supply chunks = .ok (chunks.map f)
  | [], _, _, _, _ => rfl
  | chunk :: chunks, spool, hsize, hpos, hcontent => by
    rw [forall_mem_cons] at hsize
    rw [flatMap_cons] at hcontent
    have hlen := congrArg List.length hcontent
    rw [length_drop, length_append, hsize.1] at hlen
    have hrest : spool.content.drop (spool.pos + chunk.size) = chunks.flatMap f := by
      rw [← drop_drop, hcontent, drop_left' hsize.1]
    have hsupply : supply { spool with pos := spool.pos + chunk.size } chunks = .ok (chunks.map f) :=
      supply_eq hsize.2 (show spool.pos + chunk.size ≤ spool.content.length by omega) hrest
    rw [supply, readExact_eq (by omega), hcontent, take_left' hsize.1]
    simp only [bind, Except.bind, hsupply]
    rfl

end Spool

/-! ## A request's envelope -/

theorem uintCost_le (n : ℕ) : uintCost n ≤ 9 := by
  unfold uintCost
  split_ifs <;> decide

theorem headerCost_le (n : ℕ) : headerCost n ≤ listHeader := by
  unfold headerCost
  split_ifs <;> decide

theorem bytesCost_digest (hash : Digest) : bytesCost hash.bytes ≤ 69 := by
  have hcost := encodedCost_le hash.bytes
  have hheader := headerCost_le hash.bytes.length
  rw [hash.length_bytes] at hcost
  rw [bytesCost]
  simp only [encodedCost, listHeader] at *
  omega

theorem hashesCost_le (hashes : List Digest) : hashesCost hashes ≤ listHeader + 69 * hashes.length := by
  have hsum : (hashes.map fun hash => bytesCost hash.bytes).sum ≤
      (hashes.map fun hash => bytesCost hash.bytes).length * 69 :=
    sum_le_card_nsmul _ 69 fun n hn => by
      obtain ⟨hash, -, rfl⟩ := List.mem_map.mp hn
      exact bytesCost_digest hash
  have hheader := headerCost_le hashes.length
  rw [length_map] at hsum
  rw [hashesCost]
  omega

variable {request : ChunkSyncRequest}

/-- **A transfer's request fits a frame**, whatever it has so far. -/
theorem encodeChunkRequest_eq (hselector : request.selector = [])
    (hhave : request.have_.length ≤ maxWantChunks)
    (hwant : ∀ want, request.want = some want → want.length ≤ 1) :
    encodeChunkRequest request = .ok request := by
  refine if_neg (Nat.not_lt.mpr ?_)
  have hhashes := hashesCost_le request.have_
  have hrequest := uintCost_le request.request
  have hoid := bytesCost_digest request.oid
  have hask : request.want.elim 1 hashesCost ≤ 100 := by
    cases h : request.want with
    | none => decide
    | some want =>
      have := hashesCost_le want
      have := hwant want h
      simp only [elim_some, listHeader] at *
      omega
  have hcursor : (request.cursor.elim 1 fun cursor =>
      1 + bytesCost cursor.manifest.bytes + uintCost cursor.offset) ≤ 100 := by
    cases request.cursor with
    | none => decide
    | some cursor =>
      have := bytesCost_digest cursor.manifest
      have := uintCost_le cursor.offset
      simp only [elim_some]
      omega
  have hsel : bytesCost request.selector = 1 := by rw [hselector]; rfl
  simp only [envelopeCost, maxChunkSyncFrame, maxWantChunks, listHeader] at *
  omega

namespace ChunkDownload

variable {Outcome : Type} {blake3 : Bytes → Digest} {bodies present : Digest → Option Bytes}
  {manifest : LfsManifest} {bytes : Bytes} {mark : Option ChunkMark} {oid : Digest} {number n : ℕ}
  {d : ChunkDownload Outcome}

/-! ## What the spool holds -/

/-- The chunks of a manifest a vault holds are what it names. -/
def Holds (blake3 : Bytes → Digest) (present : Digest → Option Bytes) (manifest : LfsManifest) : Prop :=
  ∀ chunk ∈ manifest.chunks, ∀ body, present chunk.hash = some body →
    body.length = chunk.size ∧ blake3 body = chunk.hash

/-- A chunk's body: the vault's own, or else the server's. -/
def bodyOf (present bodies : Digest → Option Bytes) (hash : Digest) : Bytes :=
  ((present hash).or (bodies hash)).getD []

/-- The hashes of a manifest's first chunks. -/
def firstHashes (manifest : LfsManifest) (n : ℕ) : List Digest := (manifest.chunks.take n).map LfsChunkRef.hash

/-- What is known of a transfer that has spooled the first `n` chunks of its manifest. -/
structure Spooled (present bodies : Digest → Option Bytes) (manifest : LfsManifest) (mark : Option ChunkMark)
    (number : ℕ) (d : ChunkDownload Outcome) (n : ℕ) : Prop where
  manifest_eq : d.manifest = some manifest
  mark_eq : d.mark = mark
  outcome_eq : d.outcome = none
  next_eq : d.next = n
  content : d.spool.content = (manifest.chunks.take n).flatMap fun chunk => bodyOf present bodies chunk.hash
  pos : d.spool.pos = d.spool.content.length
  length_eq : d.length = d.spool.content.length
  mem_staged : ∀ hash, hash ∈ d.staged ↔ hash ∈ firstHashes manifest n
  staged : ∀ hash offset size, d.staged[hash]? = some (offset, size) →
    offset + size ≤ d.spool.content.length ∧
      (d.spool.content.drop offset).take size = bodyOf present bodies hash
  request_eq : d.request.request = number
  selector : d.request.selector = []
  cursor : d.request.cursor = none
  length_have : d.request.have_.length ≤ maxWantChunks
  mem_have : ∀ hash ∈ d.request.have_, hash ∈ firstHashes manifest n

variable {chunk : LfsChunkRef} {hash : Digest} {read : Option EntityId}

section

variable (h : StoredObject blake3 bodies manifest) (hholds : Holds blake3 present manifest)
include h hholds

theorem length_bodyOf (hmem : chunk ∈ manifest.chunks) :
    (bodyOf present bodies chunk.hash).length = chunk.size := by
  obtain ⟨body, hbody, hsize, -⟩ := h.body chunk hmem
  rw [bodyOf]
  cases hp : present chunk.hash with
  | none =>
    rw [hbody]
    exact hsize
  | some own => exact (hholds chunk hmem own hp).1

end

theorem firstHashes_succ (hchunk : manifest.chunks[n]? = some chunk) :
    firstHashes manifest (n + 1) = firstHashes manifest n ++ [chunk.hash] := by
  rw [firstHashes, take_add_one, hchunk, toList_some, map_append]
  rfl

namespace Spooled

/-- **A chunk found is spooled behind the others.** -/
theorem keep (hd : Spooled present bodies manifest mark number d n) {chunk : LfsChunkRef}
    (hchunk : manifest.chunks[n]? = some chunk) (hsize : (bodyOf present bodies chunk.hash).length = chunk.size) :
    Spooled present bodies manifest mark number (d.keep chunk (bodyOf present bodies chunk.hash)) (n + 1) := by
  have hfirst := firstHashes_succ hchunk
  have hspool : (d.keep chunk (bodyOf present bodies chunk.hash)).spool =
      ⟨d.spool.content ++ bodyOf present bodies chunk.hash,
        d.spool.content.length + (bodyOf present bodies chunk.hash).length⟩ := Spool.write_end hd.pos _
  have hgrown : ∀ offset size, offset + size ≤ d.spool.content.length →
      (((d.spool.content ++ bodyOf present bodies chunk.hash).drop offset).take size) =
        (d.spool.content.drop offset).take size := by
    intro offset size hle
    rw [drop_append_of_le_length (by omega),
      take_append_of_le_length (by rw [length_drop]; omega)]
  refine ⟨hd.manifest_eq, hd.mark_eq, hd.outcome_eq, congrArg (· + 1) hd.next_eq, ?_, ?_, ?_, fun hash => ?_,
    fun hash offset size hat => ?_, ?_, ?_, ?_, ?_, fun hash hmem => ?_⟩
  · rw [hspool, take_add_one, hchunk, toList_some, flatMap_append, flatMap_singleton,
      hd.content]
  · rw [hspool, length_append]
  · rw [hspool, length_append]
    exact congrArg (· + _) hd.length_eq
  · show hash ∈ (if chunk.hash ∈ d.staged then d.staged else _) ↔ _
    rw [hfirst, mem_append, mem_singleton]
    split
    · next hstaged =>
      rw [hd.mem_staged]
      exact ⟨.inl, fun hor => hor.elim id fun heq => heq ▸ (hd.mem_staged _).mp hstaged⟩
    · rw [mem_insert, Std.compare_eq_iff_eq, hd.mem_staged, or_comm, eq_comm]
  · rw [hspool, length_append]
    have hat' : (if chunk.hash ∈ d.staged then d.staged else
        d.staged.insert chunk.hash (d.length, chunk.size))[hash]? = some (offset, size) := hat
    have hold : d.staged[hash]? = some (offset, size) → offset + size ≤ d.spool.content.length +
        (bodyOf present bodies chunk.hash).length ∧
          ((d.spool.content ++ bodyOf present bodies chunk.hash).drop offset).take size =
            bodyOf present bodies hash := fun hold =>
      ⟨by have := (hd.staged hash offset size hold).1; omega,
        (hgrown _ _ (hd.staged hash offset size hold).1).trans (hd.staged hash offset size hold).2⟩
    split at hat'
    · exact hold hat'
    · rw [ExtTreeMap.getElem?_insert] at hat'
      split at hat'
      · next heq =>
        obtain rfl := Std.compare_eq_iff_eq.mp heq
        obtain ⟨rfl, rfl⟩ := Prod.mk.inj (some.inj hat')
        rw [hd.length_eq, hsize]
        refine ⟨le_rfl, ?_⟩
        rw [drop_left, take_of_length_le hsize.le]
      · exact hold hat'
  all_goals simp only [ChunkDownload.keep] at *
  · split <;> exact hd.request_eq
  · split <;> exact hd.selector
  · split <;> exact hd.cursor
  · split
    · next hroom =>
      rw [length_append, length_singleton]
      exact hroom.1
    · exact hd.length_have
  · rw [hfirst, mem_append, mem_singleton]
    split at hmem
    · rcases mem_append.mp hmem with hmem | hmem
      · exact .inl (hd.mem_have hash hmem)
      · exact .inr (mem_singleton.mp hmem)
    · exact .inl (hd.mem_have hash hmem)

/-- A repeated chunk is read back, and leaves the transfer as it was. -/
theorem existing_of_staged (hd : Spooled present bodies manifest mark number d n)
    (hstaged : chunk.hash ∈ d.staged) :
    d.existing blake3 present chunk = .ok (d, some (bodyOf present bodies chunk.hash)) := by
  obtain ⟨⟨offset, size⟩, hat⟩ : ∃ at_, d.staged[chunk.hash]? = some at_ :=
    isSome_iff_exists.mp (mem_iff_isSome_getElem?.mp hstaged)
  obtain ⟨hle, hslice⟩ := hd.staged _ _ _ hat
  have hread : (d.spool.seek offset).readExact size =
      .ok (bodyOf present bodies chunk.hash, ⟨d.spool.content, offset + size⟩) := by
    rw [Spool.readExact_eq hle]
    exact congrArg Except.ok (Prod.ext hslice rfl)
  have hback : (⟨d.spool.content, offset + size⟩ : Spool).seek d.length = d.spool := by
    rw [hd.length_eq, ← hd.pos]
    rfl
  simp only [existing, hat, hread, bind, Except.bind, hback]
  rfl

/-- A chunk not spooled yet is the vault's own, or none. -/
theorem existing_of_not_staged (hholds : Holds blake3 present manifest)
    (hmem : chunk ∈ manifest.chunks) (hstaged : chunk.hash ∉ d.staged) :
    d.existing blake3 present chunk = .ok (d, present chunk.hash) := by
  have hat : d.staged[chunk.hash]? = none := by
    rw [← not_isSome_iff_eq_none, ← mem_iff_isSome_getElem?]
    exact hstaged
  have hfound : chunkIfPresent blake3 present chunk = .ok (present chunk.hash) := by
    unfold chunkIfPresent
    split
    · next hnone => rw [hnone]
    · next body hbody =>
      have hchecked : checkedChunk blake3 chunk body = .ok body :=
        checkedChunk_eq_ok.mpr ⟨rfl, hholds chunk hmem body hbody⟩
      rw [hbody, hchecked]
      rfl
  simp only [existing, hat, hfound, bind, Except.bind]
  rfl

end Spooled

/-- A transfer that waits for the `n`th chunk of its manifest, which it asked for alone. -/
structure Asking (present bodies : Digest → Option Bytes) (manifest : LfsManifest) (mark : Option ChunkMark)
    (number : ℕ) (d : ChunkDownload Outcome) (n : ℕ) (chunk : LfsChunkRef) : Prop
    extends Spooled present bodies manifest mark number d n where
  chunk_eq : manifest.chunks[n]? = some chunk
  absent : present chunk.hash = none
  unspooled : chunk.hash ∉ firstHashes manifest n
  waiting : d.waiting = some chunk.hash
  want : d.request.want = some [chunk.hash]

/-- Whether the first chunks up to a later place bring nothing that is neither spooled nor held. -/
def Reaches (present : Digest → Option Bytes) (manifest : LfsManifest) (n m : ℕ) : Prop :=
  n ≤ m ∧ ∀ hash ∈ firstHashes manifest m, hash ∈ firstHashes manifest n ∨ present hash ≠ none

theorem reaches_succ (hchunk : manifest.chunks[n]? = some chunk) {m : ℕ}
    (hfound : chunk.hash ∈ firstHashes manifest n ∨ present chunk.hash ≠ none)
    (h : Reaches present manifest (n + 1) m) : Reaches present manifest n m := by
  refine ⟨by have := h.1; omega, fun hash hmem => ?_⟩
  rcases h.2 hash hmem with hin | hheld
  · rw [firstHashes_succ hchunk, mem_append, mem_singleton] at hin
    rcases hin with hin | rfl
    · exact .inl hin
    · exact hfound
  · exact .inr hheld

section Steps

variable (h : StoredObject blake3 bodies manifest) (hholds : Holds blake3 present manifest)
include h hholds

/-- **The loop goes on to the end, or to the first chunk it must ask for.** -/
theorem advance_spec : ∀ {chunks : List LfsChunkRef} {d : ChunkDownload Outcome} {n : ℕ},
    manifest.chunks.drop n = chunks → n ≤ manifest.chunks.length →
      Spooled present bodies manifest mark number d n → d.waiting = none →
      (∃ d', advance blake3 present d chunks = .ok (d', none) ∧
        Spooled present bodies manifest mark number d' manifest.chunks.length ∧
        Reaches present manifest n manifest.chunks.length) ∨
      ∃ d' m chunk, advance blake3 present d chunks = .ok (d', some d'.request) ∧
        Asking present bodies manifest mark number d' m chunk ∧ Reaches present manifest n m
  | [], d, n, hdrop, hn, hd, _ => by
    obtain rfl : n = manifest.chunks.length := Nat.le_antisymm hn (drop_eq_nil_iff.mp hdrop)
    exact .inl ⟨d, rfl, hd, le_rfl, fun hash hmem => .inl hmem⟩
  | chunk :: chunks, d, n, hdrop, _, hd, hwaiting => by
    have hchunk : manifest.chunks[n]? = some chunk := by
      rw [← head?_drop, hdrop]
      rfl
    have hlt : n < manifest.chunks.length := (List.getElem?_eq_some_iff.mp hchunk).1
    have hmem : chunk ∈ manifest.chunks := mem_of_getElem? hchunk
    have hrest : manifest.chunks.drop (n + 1) = chunks := by
      rw [← drop_drop, hdrop]
      rfl
    have hgoes : ∀ bytes : Bytes, bytes = bodyOf present bodies chunk.hash →
        d.existing blake3 present chunk = .ok (d, some bytes) →
        (chunk.hash ∈ firstHashes manifest n ∨ present chunk.hash ≠ none) →
          (∃ d', advance blake3 present d (chunk :: chunks) = .ok (d', none) ∧
            Spooled present bodies manifest mark number d' manifest.chunks.length ∧
            Reaches present manifest n manifest.chunks.length) ∨
          ∃ d' m next, advance blake3 present d (chunk :: chunks) = .ok (d', some d'.request) ∧
            Asking present bodies manifest mark number d' m next ∧ Reaches present manifest n m := by
      rintro bytes rfl hexisting hfound
      have hstep : advance blake3 present d (chunk :: chunks) =
          advance blake3 present (d.keep chunk (bodyOf present bodies chunk.hash)) chunks := by
        rw [advance, hexisting]
        rfl
      have hkept := hd.keep hchunk (length_bodyOf h hholds hmem)
      rcases advance_spec hrest hlt hkept hwaiting with ⟨d', hok, hd', hreach⟩ | ⟨d', m, next, hok, hd', hreach⟩
      · exact .inl ⟨d', hstep.trans hok, hd', reaches_succ hchunk hfound hreach⟩
      · exact .inr ⟨d', m, next, hstep.trans hok, hd', reaches_succ hchunk hfound hreach⟩
    by_cases hstaged : chunk.hash ∈ d.staged
    · exact hgoes _ rfl (hd.existing_of_staged hstaged) (.inl ((hd.mem_staged _).mp hstaged))
    · have hexisting := Spooled.existing_of_not_staged (d := d) hholds hmem hstaged
      cases hp : present chunk.hash with
      | some body =>
        rw [hp] at hexisting
        exact hgoes body (by rw [bodyOf, hp]; rfl) hexisting (.inr (by simp [hp]))
      | none =>
        rw [hp] at hexisting
        have hencode : encodeChunkRequest { d.request with want := some [chunk.hash] } = .ok _ :=
          encodeChunkRequest_eq hd.selector hd.length_have fun want hwant => by
            obtain rfl := some.inj hwant
            exact le_rfl
        let asking : ChunkDownload Outcome :=
          { d with waiting := some chunk.hash, request := { d.request with want := some [chunk.hash] } }
        have hspooled : Spooled present bodies manifest mark number asking n :=
          ⟨hd.manifest_eq, hd.mark_eq, hd.outcome_eq, hd.next_eq, hd.content, hd.pos, hd.length_eq, hd.mem_staged,
            hd.staged, hd.request_eq, hd.selector, hd.cursor, hd.length_have, hd.mem_have⟩
        refine .inr ⟨asking, n, chunk, ?_, ⟨hspooled, hchunk, hp, fun hin => hstaged ((hd.mem_staged _).mpr hin),
          rfl, rfl⟩, le_rfl, fun hash hin => .inl hin⟩
        rw [advance, hexisting]
        simp only [bind, Except.bind, hencode]
        rfl

variable (install : LfsManifest → Option ChunkMark → List Bytes → Except Error Outcome)

/-- **What follows a reply**: the object is installed, or the next missing chunk is asked for. -/
theorem goOn_spec (hn : n ≤ manifest.chunks.length) (hd : Spooled present bodies manifest mark number d n)
    (hwaiting : d.waiting = none) :
    (∃ d' : ChunkDownload Outcome, goOn blake3 present install d manifest =
        (install manifest mark (manifest.chunks.map fun chunk => bodyOf present bodies chunk.hash)).map
          (fun outcome => ({ d' with outcome := some outcome }, none)) ∧
      Reaches present manifest n manifest.chunks.length) ∨
    ∃ d' m chunk, goOn blake3 present install d manifest = .ok (d', some d'.request) ∧
      Asking present bodies manifest mark number d' m chunk ∧ Reaches present manifest n m := by
  rcases advance_spec h hholds (hd.next_eq ▸ rfl : manifest.chunks.drop n = manifest.chunks.drop d.next) hn hd
    hwaiting with ⟨d', hok, hd', hreach⟩ | ⟨d', m, chunk, hok, hd', hreach⟩
  · refine .inl ⟨d', ?_, hreach⟩
    have hsupply : (d'.spool.seek 0).supply manifest.chunks =
        .ok (manifest.chunks.map fun chunk => bodyOf present bodies chunk.hash) := by
      refine Spool.supply_eq (fun chunk hmem => length_bodyOf h hholds hmem) (Nat.zero_le _) ?_
      have hcontent := hd'.content
      rw [take_length] at hcontent
      exact hcontent
    rw [goOn, hok]
    simp only [bind, Except.bind, hsupply, hd'.mark_eq]
    cases install manifest mark (manifest.chunks.map fun chunk => bodyOf present bodies chunk.hash) <;> rfl
  · refine .inr ⟨d', m, chunk, ?_, hd', hreach⟩
    rw [goOn, hok]
    rfl

end Steps

/-! ## The chunks asked for -/

/-- **A WANT of one chunk is answered by that chunk alone.** -/
theorem reply_want_one (h : StoredObject blake3 bodies manifest)
    (hwant : request.want = some [hash]) (hcursor : request.cursor = none)
    (hhave : ∀ held ∈ request.have_, held ∈ manifest.chunks.map LfsChunkRef.hash)
    (hnot : hash ∉ request.have_) (hheld : hash ∈ manifest.chunks.map LfsChunkRef.hash) :
    reply blake3 bodies manifest request read mark =
      .ok (.chunks ⟨request.request, 0, [(hash, (bodies hash).getD [])], none, read⟩) := by
  obtain ⟨bytes, hbytes⟩ := h.encodes
  obtain ⟨body, hbody, hread, -⟩ := h.chunk hheld
  have hcheck : checkWant (manifest.chunks.map LfsChunkRef.hash) request.have_ [] [hash] = .ok () :=
    checkWant_eq_ok.mpr ⟨fun other hmem => by
      obtain rfl := mem_singleton.mp hmem
      exact ⟨hnot, not_mem_nil, hheld⟩, by simp⟩
  have hfill : fillPage (lfsObjectChunk blake3 bodies manifest) chunkPageBytes [] [hash] = .ok [(hash, body)] := by
    rw [fillPage, hread]
    show (if encodedCost body > chunkPageBytes ∧ [] ≠ [] then _ else _) = _
    rw [if_neg fun hand => hand.2 rfl, fillPage]
    rfl
  have hslice : ([hash].drop 0).take maxWantChunks = [hash] := rfl
  rw [hbody, getD_some]
  simp only [reply, hash_eq hbytes, hcursor, startOf, hwant, hcheck, bind, Except.bind, ensure, if_pos hhave, hslice,
    hfill]
  rfl

theorem firstHashes_length : firstHashes manifest manifest.chunks.length = manifest.chunks.map LfsChunkRef.hash := by
  rw [firstHashes, take_length]

theorem mem_of_mem_firstHashes (hmem : hash ∈ firstHashes manifest n) :
    hash ∈ manifest.chunks.map LfsChunkRef.hash :=
  ((take_sublist n _).map _).subset hmem

variable (install : LfsManifest → Option ChunkMark → List Bytes → Except Error Outcome)

/-- The transfer a chunk was received by: the chunk is spooled, and nothing is waited for. -/
def received (d : ChunkDownload Outcome) (chunk : LfsChunkRef) (body : Bytes) : ChunkDownload Outcome :=
  { d with
    staged := d.staged.insert chunk.hash (d.length, chunk.size)
    spool := d.spool.write body
    length := d.length + body.length
    next := d.next + 1
    waiting := none }

theorem spooled_received (hd : Asking present bodies manifest mark number d n chunk)
    (hsize : (bodyOf present bodies chunk.hash).length = chunk.size) :
    Spooled present bodies manifest mark number (received d chunk (bodyOf present bodies chunk.hash)) (n + 1) := by
  have hkept := hd.keep hd.chunk_eq hsize
  have hstaged : chunk.hash ∉ d.staged := fun hin => hd.unspooled ((hd.mem_staged _).mp hin)
  have hsame : (received d chunk (bodyOf present bodies chunk.hash)).staged =
      (d.keep chunk (bodyOf present bodies chunk.hash)).staged := (if_neg hstaged).symm
  refine ⟨hd.manifest_eq, hd.mark_eq, hd.outcome_eq, hkept.next_eq, hkept.content, hkept.pos, hkept.length_eq,
    fun hash => hsame ▸ hkept.mem_staged hash, fun hash offset size => hsame ▸ hkept.staged hash offset size,
    hd.request_eq, hd.selector, hd.cursor, hd.length_have, fun hash hmem => ?_⟩
  rw [firstHashes_succ hd.chunk_eq]
  exact mem_append_left _ (hd.mem_have hash hmem)

/-- **The answer to the chunk asked for is taken**, and the transfer goes on behind it. -/
theorem acceptReply_eq (h : StoredObject blake3 bodies manifest)
    (hd : Asking present bodies manifest mark number d n chunk) :
    reply blake3 bodies manifest d.request read mark =
        .ok (.chunks ⟨number, 0, [(chunk.hash, bodyOf present bodies chunk.hash)], none, read⟩) ∧
      acceptReply blake3 present install d
          (.chunks ⟨number, 0, [(chunk.hash, bodyOf present bodies chunk.hash)], none, read⟩) =
        goOn blake3 present install (received d chunk (bodyOf present bodies chunk.hash)) manifest := by
  have hmem : chunk ∈ manifest.chunks := mem_of_getElem? hd.chunk_eq
  obtain ⟨body, hbody, hsize, hblake⟩ := h.body chunk hmem
  have hown : bodyOf present bodies chunk.hash = (bodies chunk.hash).getD [] := by
    rw [bodyOf, hd.absent]
    rfl
  constructor
  · rw [hown, ← hd.request_eq]
    exact reply_want_one h hd.want hd.cursor (fun held hin => mem_of_mem_firstHashes (hd.mem_have held hin))
      (fun hin => hd.unspooled (hd.mem_have _ hin)) (List.mem_map_of_mem hmem)
  · have hgood : ¬ ((bodyOf present bodies chunk.hash).length ≠ chunk.size ∨
        blake3 (bodyOf present bodies chunk.hash) ≠ chunk.hash) := by
      rw [hown, hbody, getD_some]
      exact fun hor => hor.elim (· hsize) (· hblake)
    have hopen : ¬ (d.outcome.isSome ∨ number ≠ d.request.request) := by
      simp [hd.outcome_eq, hd.request_eq]
    simp only [acceptReply, ChunkSyncResponse.request, if_neg hopen, hd.manifest_eq, hd.waiting, hd.next_eq,
      hd.chunk_eq, ne_eq, not_true_eq_false, if_false]
    rw [if_neg hgood]
    simp only [received, hd.next_eq, hd.manifest_eq]

/-- **From a chunk it asks for, the transfer asks for each other missing chunk once**, and installs the
manifest with its chunks in order. -/
theorem exchanged_chunks (h : StoredObject blake3 bodies manifest)
    (hholds : Holds blake3 present manifest)
    (hd : Asking present bodies manifest mark number d n chunk) :
    ∃ (requests : List ChunkSyncRequest) (wanted : List Digest) (out : Except Error (ChunkDownload Outcome)),
      Exchanged (fun request => reply blake3 bodies manifest request read mark)
        (acceptReply blake3 present install) d d.request requests out ∧
      out.map outcome =
        (install manifest mark (manifest.chunks.map fun chunk => bodyOf present bodies chunk.hash)).map some ∧
      requests.map want = wanted.map (some [·]) ∧ wanted.Nodup ∧
      ∀ hash, hash ∈ wanted ↔ hash ∈ manifest.chunks.map LfsChunkRef.hash ∧ present hash = none ∧
        hash ∉ firstHashes manifest n := by
  induction hk : manifest.chunks.length - n using Nat.strong_induction_on generalizing d n chunk with
  | _ k ih =>
    have hlt : n < manifest.chunks.length := (List.getElem?_eq_some_iff.mp hd.chunk_eq).1
    have hmem : chunk ∈ manifest.chunks := mem_of_getElem? hd.chunk_eq
    have hsucc := firstHashes_succ hd.chunk_eq
    obtain ⟨hserve, haccept⟩ := acceptReply_eq install h hd
    rcases goOn_spec h hholds install hlt (spooled_received hd (length_bodyOf h hholds hmem)) rfl with
      ⟨d', hok, -, hreach⟩ | ⟨d', m, chunk', hok, hd', hle, hreach⟩
    · have hwanted : ∀ hash, hash ∈ [chunk.hash] ↔ hash ∈ manifest.chunks.map LfsChunkRef.hash ∧
          present hash = none ∧ hash ∉ firstHashes manifest n := by
        intro hash
        rw [mem_singleton]
        constructor
        · rintro rfl
          exact ⟨List.mem_map_of_mem hmem, hd.absent, hd.unspooled⟩
        · rintro ⟨hin, hnone, hnew⟩
          have hlast := (hreach hash (firstHashes_length ▸ hin)).resolve_right (· hnone)
          rw [hsucc, mem_append, mem_singleton] at hlast
          exact hlast.resolve_left hnew
      rw [hok] at haccept
      cases hinstall : install manifest mark
          (manifest.chunks.map fun chunk => bodyOf present bodies chunk.hash) with
      | error e =>
        rw [hinstall] at haccept
        exact ⟨[d.request], [chunk.hash], .error e, .fails hserve haccept, rfl, by simp [hd.want],
          by simp, hwanted⟩
      | ok outcome =>
        rw [hinstall] at haccept
        exact ⟨[d.request], [chunk.hash], .ok _, .ends hserve haccept, rfl, by simp [hd.want],
          by simp, hwanted⟩
    · obtain ⟨requests, wanted, out, hrun, hout, hrequests, hnodup, hwanted⟩ := ih _ (by omega) hd' rfl
      have hin : chunk.hash ∈ firstHashes manifest m := by
        have hsub : firstHashes manifest (n + 1) ⊆ firstHashes manifest m :=
          ((take_sublist_take_left hle).map _).subset
        exact hsub (hsucc ▸ mem_append_right _ (mem_singleton_self _))
      refine ⟨d.request :: requests, chunk.hash :: wanted, out, .more hserve (haccept.trans hok) hrun, hout,
        by rw [map_cons, map_cons, hd.want, hrequests],
        nodup_cons.mpr ⟨fun hmem => ((hwanted _).mp hmem).2.2 hin, hnodup⟩, fun hash => ?_⟩
      rw [mem_cons, hwanted]
      constructor
      · rintro (rfl | ⟨hheld, hnone, hnew⟩)
        · exact ⟨List.mem_map_of_mem hmem, hd.absent, hd.unspooled⟩
        · refine ⟨hheld, hnone, fun hold => hnew ?_⟩
          exact ((take_sublist_take_left (by omega : n ≤ m)).map _).subset hold
      · rintro ⟨hheld, hnone, hnew⟩
        by_cases hold : hash ∈ firstHashes manifest m
        · have hlast := (hreach hash hold).resolve_right (· hnone)
          rw [hsucc, mem_append, mem_singleton] at hlast
          exact .inl (hlast.resolve_left hnew)
        · exact .inr ⟨hheld, hnone, hold⟩

/-! ## The whole transfer -/

/-- A transfer with some of its manifest's pages taken. -/
def fetching (oid : Digest) (number : ℕ) (pages : ManifestPages) (cursor : Option ChunkPageCursor) :
    ChunkDownload Outcome :=
  { new oid number with request := ⟨number, oid, [], [], none, cursor⟩, pages }

section

variable {page : ManifestPage} {pages pages' : ManifestPages} {cursor : Option ChunkPageCursor}

theorem acceptReply_fetching (hnumber : page.request = number) :
    acceptReply blake3 present install (fetching oid number pages cursor) (.manifest page) = (do
      let (pages, next) ← pages.take number page
      match next with
      | some next =>
        let asked ← encodeChunkRequest ⟨number, oid, [], [], none, some next⟩
        pure (fetching oid number pages (some next), some asked)
      | none => do
        let manifest ← pages.manifest blake3
        goOn blake3 present install
          { (fetching oid number pages none : ChunkDownload Outcome) with
            manifest := some manifest, mark := page.mark } manifest) := by
  have hopen : ¬ ((fetching oid number pages cursor : ChunkDownload Outcome).outcome.isSome ∨
      page.request ≠ (fetching oid number pages cursor : ChunkDownload Outcome).request.request) := by
    rw [hnumber]
    exact fun hor => hor.elim (nomatch ·) (· rfl)
  have hmanifest : (fetching oid number pages cursor : ChunkDownload Outcome).manifest = none := rfl
  have hwaiting : (fetching oid number pages cursor : ChunkDownload Outcome).waiting = none := rfl
  simp only [acceptReply, ChunkSyncResponse.request, if_neg hopen, hmanifest, hwaiting]
  rfl

/-- A page of the manifest that names another is asked on from there. -/
theorem acceptReply_more (hnumber : page.request = number) {next : ChunkPageCursor}
    (htake : pages.take number page = .ok (pages', some next)) :
    acceptReply blake3 present install (fetching oid number pages cursor) (.manifest page) =
      .ok (fetching oid number pages' (some next), some ⟨number, oid, [], [], none, some next⟩) := by
  have hencode : encodeChunkRequest ⟨number, oid, [], [], none, some next⟩ = .ok _ :=
    encodeChunkRequest_eq rfl (Nat.zero_le _) nofun
  rw [acceptReply_fetching install hnumber, htake]
  simp only [bind, Except.bind, hencode]
  rfl

/-- The last page of the manifest is followed by its chunks. -/
theorem acceptReply_last (hnumber : page.request = number)
    (htake : pages.take number page = .ok (pages', none)) (hmanifest : pages'.manifest blake3 = .ok manifest) :
    acceptReply blake3 present install (fetching oid number pages cursor) (.manifest page) =
      goOn blake3 present install
        { (fetching oid number pages' none : ChunkDownload Outcome) with
          manifest := some manifest, mark := page.mark } manifest := by
  rw [acceptReply_fetching install hnumber, htake]
  simp only [bind, Except.bind, hmanifest]

/-- A transfer with its manifest whole has spooled none of its chunks. -/
theorem spooled_fetched (pages : ManifestPages) :
    Spooled present bodies manifest mark number
      { (fetching oid number pages none : ChunkDownload Outcome) with manifest := some manifest, mark := mark } 0 where
  manifest_eq := rfl
  mark_eq := rfl
  outcome_eq := rfl
  next_eq := rfl
  content := rfl
  pos := rfl
  length_eq := rfl
  mem_staged hash := iff_of_false not_mem_empty not_mem_nil
  staged hash offset size hat := absurd hat (by simp [fetching, new])
  request_eq := rfl
  selector := rfl
  cursor := rfl
  length_have := Nat.zero_le _
  mem_have := nofun

end

/-- **From any page of its manifest a transfer takes the rest of it**, then asks for each missing chunk once. -/
theorem exchanged_manifest (h : StoredObject blake3 bodies manifest)
    (hholds : Holds blake3 present manifest) (hbytes : manifest.encode = .ok bytes)
    {pages : ManifestPages} {cursor : Option ChunkPageCursor} {start : ℕ}
    (hstart : StartsAt (blake3 bytes) cursor start) (hlt : start < bytes.length)
    (hpin : pages.pin.getD (blake3 bytes, bytes.length) = (blake3 bytes, bytes.length))
    (hheld : pages.bytes = bytes.take start) :
    ∃ (requests : List ChunkSyncRequest) (wanted : List Digest) (out : Except Error (ChunkDownload Outcome)),
      Exchanged (fun request => reply blake3 bodies manifest request read mark)
        (acceptReply blake3 present install) (fetching oid number pages cursor)
        ⟨number, oid, [], [], none, cursor⟩ requests out ∧
      out.map outcome =
        (install manifest mark (manifest.chunks.map fun chunk => bodyOf present bodies chunk.hash)).map some ∧
      requests.filterMap want = wanted.map ([·]) ∧ wanted.Nodup ∧
      ∀ hash, hash ∈ wanted ↔ hash ∈ manifest.chunks.map LfsChunkRef.hash ∧ present hash = none := by
  induction hk : bytes.length - start using Nat.strong_induction_on generalizing pages cursor start with
  | _ k ih =>
    let page := manifestPage blake3 bytes ⟨number, oid, [], [], none, cursor⟩ read mark start
    have hserve : reply blake3 bodies manifest ⟨number, oid, [], [], none, cursor⟩ read mark = .ok (.manifest page) :=
      reply_manifest hbytes rfl nofun hstart hlt
    have htake : pages.take number page =
        .ok (⟨some (blake3 bytes, bytes.length), bytes.take (pageEnd bytes start)⟩, page.next) :=
      take_manifestPage hlt hpin hheld
    obtain ⟨hgrow, hle, -⟩ := pageEnd_spec hlt
    by_cases hmore : pageEnd bytes start < bytes.length
    · have hnext : page.next = some ⟨blake3 bytes, pageEnd bytes start⟩ := if_pos hmore
      rw [hnext] at htake
      obtain ⟨requests, wanted, out, hrun, hout, hrequests, hnodup, hwanted⟩ :=
        @ih _ (by omega) ⟨some (blake3 bytes, bytes.length), bytes.take (pageEnd bytes start)⟩
          (some ⟨blake3 bytes, pageEnd bytes start⟩) (pageEnd bytes start) (.inr rfl) hmore rfl rfl rfl
      exact ⟨_ :: requests, wanted, out, .more hserve (acceptReply_more install rfl htake) hrun, hout, hrequests,
        hnodup, hwanted⟩
    · have hend : pageEnd bytes start = bytes.length := Nat.le_antisymm hle (Nat.le_of_not_lt hmore)
      have hnext : page.next = none := if_neg hmore
      rw [hnext, hend, take_length] at htake
      have hmanifest : (⟨some (blake3 bytes, bytes.length), bytes⟩ : ManifestPages).manifest blake3 =
          .ok manifest := manifest_eq_ok.mpr ⟨hbytes, rfl⟩
      let whole : ChunkDownload Outcome :=
        { fetching oid number ⟨some (blake3 bytes, bytes.length), bytes⟩ none with
          manifest := some manifest, mark := mark }
      have haccept : acceptReply blake3 present install (fetching oid number pages cursor) (.manifest page) =
          goOn blake3 present install whole manifest := acceptReply_last install rfl htake hmanifest
      rcases goOn_spec h hholds install (Nat.zero_le _) (d := whole) (spooled_fetched _) rfl with
        ⟨d', hok, -, hreach⟩ | ⟨d', m, chunk, hok, hd', -, hreach⟩
      · have hwanted : ∀ hash, hash ∈ [] ↔ hash ∈ manifest.chunks.map LfsChunkRef.hash ∧ present hash = none := by
          intro hash
          refine iff_of_false not_mem_nil fun ⟨hin, hnone⟩ => ?_
          exact (hreach hash (firstHashes_length ▸ hin)).elim not_mem_nil (· hnone)
        rw [hok] at haccept
        cases hinstall : install manifest mark
            (manifest.chunks.map fun chunk => bodyOf present bodies chunk.hash) with
        | error e =>
          rw [hinstall] at haccept
          exact ⟨_, [], .error e, .fails hserve haccept, rfl, rfl, nodup_nil, hwanted⟩
        | ok outcome =>
          rw [hinstall] at haccept
          exact ⟨_, [], .ok _, .ends hserve haccept, rfl, rfl, nodup_nil, hwanted⟩
      · obtain ⟨requests, wanted, out, hrun, hout, hrequests, hnodup, hwanted⟩ :=
          exchanged_chunks install h hholds hd'
        have hasked : requests.filterMap want = wanted.map ([·]) := by
          have hmap := congrArg (List.filterMap id) hrequests
          rw [filterMap_map, filterMap_map] at hmap
          rw [← filterMap_eq_map]
          exact hmap
        refine ⟨_, wanted, out, .more hserve (haccept.trans hok) hrun, hout, hasked, hnodup, fun hash => ?_⟩
        rw [hwanted]
        refine and_congr_right fun _ => and_iff_left_of_imp fun hnone hin => ?_
        exact (hreach hash hin).elim not_mem_nil (· hnone)

end ChunkDownload

/-! ## The exchange -/

/-- **Chunk exchange is exact.**  For a stored manifest and any request the server admits, its pages
followed from the start end, each goes on, each encodes within a page, and together they are the
manifest's bytes, or the wanted chunks in order.  The receiver takes a manifest's pages and yields it;
and any pages it takes to their end are one manifest's bytes laid end to end, as long as the first page
said, yielded only under their hash.  A transfer fed the replies to its own requests asks for each chunk
that is missing once and for no other, and installs the manifest with each chunk's body in its place. -/
theorem chunk_exchange_exact {blake3 : Bytes → Digest} {bodies : Digest → Option Bytes} {manifest : LfsManifest}
    {bytes : Bytes} (h : StoredObject blake3 bodies manifest) (hbytes : manifest.encode = .ok bytes)
    (read : Option EntityId) (mark : Option ChunkMark) :
    (∀ request page, request.want = none → request.cursor = none →
      reply blake3 bodies manifest request read mark = .ok page →
        ∃ pages : List ManifestPage,
          Followed (fun request => reply blake3 bodies manifest request read mark) request (pages.map .manifest) ∧
          pages.flatMap ManifestPage.bytes = bytes ∧
          (∀ page ∈ pages, page.bytes ≠ [] ∧ (msgpackBytes page.bytes).length ≤ chunkPageBytes) ∧
          ∃ state nexts, ManifestPages.empty.takes (pages.map (request.request, ·)) = .ok (state, nexts ++ [none]) ∧
            state.manifest blake3 = .ok manifest) ∧
    (∀ request page want, request.want = some want → request.cursor = none →
      reply blake3 bodies manifest request read mark = .ok page →
        ∃ pages : List ChunkPage,
          Followed (fun request => reply blake3 bodies manifest request read mark) request (pages.map .chunks) ∧
          want.Nodup ∧ (pages.flatMap ChunkPage.chunks).map Prod.fst = want ∧
          (∀ chunk ∈ pages.flatMap ChunkPage.chunks, bodies chunk.1 = some chunk.2) ∧
          ∀ page ∈ pages, (want ≠ [] → page.chunks ≠ []) ∧
            (msgpackChunks page.chunks).length ≤ chunkPageBytes + chunkOverhead * page.chunks.length) ∧
    (∀ pages state nexts, ManifestPages.empty.takes pages = .ok (state, nexts) → nexts.getLast? = some none →
      ∃ pin total, state.bytes = pages.flatMap (·.2.bytes) ∧ state.bytes.length = total ∧
        (∀ before page after, pages = before ++ page :: after →
          page.2.request = page.1 ∧ page.2.bytes ≠ [] ∧ page.2.manifest = pin ∧ page.2.total = total ∧
            page.2.offset = (before.flatMap (·.2.bytes)).length) ∧
        ∀ yielded, state.manifest blake3 = .ok yielded →
          yielded.encode = .ok state.bytes ∧ blake3 state.bytes = pin) ∧
    ∀ {Outcome : Type} (present : Digest → Option Bytes)
      (install : LfsManifest → Option ChunkMark → List Bytes → Except Error Outcome) (oid : Digest) (number : ℕ),
      ChunkDownload.Holds blake3 present manifest →
        ∃ (requests : List ChunkSyncRequest) (wanted : List Digest) (out : Except Error (ChunkDownload Outcome)),
          Exchanged (fun request => reply blake3 bodies manifest request read mark)
            (acceptReply blake3 present install) (new oid number)
            (new oid number : ChunkDownload Outcome).request requests out ∧
          out.map outcome = (install manifest mark
            (manifest.chunks.map fun chunk => bodyOf present bodies chunk.hash)).map some ∧
          requests.filterMap want = wanted.map ([·]) ∧ wanted.Nodup ∧
          ∀ hash, hash ∈ wanted ↔ hash ∈ manifest.chunks.map LfsChunkRef.hash ∧ present hash = none := by
  have hpos : 0 < bytes.length := by
    rw [LfsManifest.length_of_encode hbytes]
    omega
  refine ⟨fun request page hwant hcursor hreply => ?_, fun request page want hwant hcursor hreply => ?_,
    fun pages state nexts htakes hlast => ?_, fun present install oid number hholds => ?_⟩
  · obtain ⟨pages, hfollowed, hwhole, hfits, htakes⟩ :=
      followed_manifest hbytes hwant (of_reply hreply).1 (.inl ⟨hcursor, rfl⟩) hpos
    obtain ⟨nexts, htakes⟩ := htakes .empty rfl rfl
    exact ⟨pages, hfollowed, hwhole, hfits, _, nexts, htakes, manifest_eq_ok.mpr ⟨hbytes, rfl⟩⟩
  · obtain ⟨hhave, hcheck⟩ := of_reply hreply
    have hcheck := hcheck want hwant
    obtain ⟨pages, hfollowed, hwhole, hall⟩ :=
      followed_want h hbytes hwant hhave hcheck (.inl ⟨hcursor, rfl⟩) (.inr rfl)
    refine ⟨pages, hfollowed, (checkWant_eq_ok.mp hcheck).2, ?_, fun chunk hmem => ?_, fun page hmem =>
      ⟨fun hne => (hall page hmem).1 (length_pos_iff.mpr hne), (hall page hmem).2⟩⟩
    · rw [hwhole, List.map_map]
      exact List.map_id want
    · rw [hwhole] at hmem
      obtain ⟨hash, hin, rfl⟩ := List.mem_map.mp hmem
      obtain ⟨body, hbody, -⟩ := h.chunk ((checkWant_eq_ok.mp hcheck).1 hash hin).2.2
      rw [hbody, getD_some]
  · obtain ⟨hconcat, hall, -, hend⟩ := takes_spec htakes
    cases pages with
    | nil =>
      obtain ⟨-, rfl⟩ := Prod.mk.inj (Except.ok.inj htakes)
      cases hlast
    | cons first rest =>
      have hpin := (hall [] first rest rfl).2
      refine ⟨first.2.manifest, first.2.total, hconcat, hend hlast _ hpin, fun before page after heq => ?_,
        fun yielded hyielded => ?_⟩
      · obtain ⟨⟨hrequest, hne, hoffset⟩, hpin'⟩ := hall before page after heq
        obtain ⟨hmanifest, htotal⟩ := Prod.mk.inj (some.inj (hpin'.symm.trans hpin))
        exact ⟨hrequest, hne, hmanifest, htotal, hoffset⟩
      · obtain ⟨hencode, hhash⟩ := manifest_eq_ok.mp hyielded
        rw [hpin] at hhash
        exact ⟨hencode, (some.inj hhash).symm⟩
  · exact exchanged_manifest install h hholds hbytes (.inl ⟨rfl, rfl⟩) hpos rfl rfl

/-- BLAKE3, at two bodies and at the manifest of the first, the second and the first again. -/
def repeatedBlake3 (b : Bytes) : Digest :=
  ⟨digits 32 <| if b = [7] then 0x448bd8dd9624154a690f8e84dc52d6f633ba7cd545c4d3c9b4e0f6a2f6fa71f4
    else if b = [8] then 0x2ef3e0dda5293bda965d0adcedfc7d387244ac736a6014a720c1d63fa0ede02f
    else 0x6339106c6ac05e13b84b98970247b792cb9059283ffd6973b48a7b92221efbd2, length_digits ..⟩

@[inherit_doc repeatedBlake3] def repeatedChunk : LfsManifest :=
  ⟨3, [⟨repeatedBlake3 [7], 1⟩, ⟨repeatedBlake3 [8], 1⟩, ⟨repeatedBlake3 [7], 1⟩]⟩

/-- The bodies, of which the asker has the second. -/
def repeatedBodies (hash : Digest) : Option Bytes :=
  [[7], [8]].find? (repeatedBlake3 · = hash)

theorem stored_repeatedChunk : StoredObject repeatedBlake3 repeatedBodies repeatedChunk where
  encodes := ⟨_, rfl⟩
  body := by decide +kernel

theorem chunk_exchange_exact_repeatedChunk : let present hash := (repeatedBodies hash).filter (· = [8])
    ∃ (requests : List ChunkSyncRequest) (out : Except Error (ChunkDownload (List Bytes))),
      Exchanged (fun request => reply repeatedBlake3 repeatedBodies repeatedChunk request none none)
        (acceptReply repeatedBlake3 present fun _ _ bodies => .ok bodies)
        (new (repeatedBlake3 []) 1) ⟨1, repeatedBlake3 [], [], [], none, none⟩ requests out ∧
      out.map outcome = .ok (some [[7], [8], [7]]) ∧
      requests.filterMap want = [[repeatedBlake3 [7]]] := by
  intro present
  obtain ⟨bytes, hbytes⟩ := stored_repeatedChunk.encodes
  obtain ⟨requests, wanted, out, hrun, hout, hasked, hnodup, hwanted⟩ :=
    (chunk_exchange_exact stored_repeatedChunk hbytes none none).2.2.2 present (fun _ _ bodies => .ok bodies)
      (repeatedBlake3 []) 1 (by unfold ChunkDownload.Holds; decide +kernel)
  have hperm : wanted.Perm [repeatedBlake3 [7]] := by
    have hleft : ∀ hash ∈ repeatedChunk.chunks.map LfsChunkRef.hash, present hash = none →
        hash ∈ [repeatedBlake3 [7]] := by decide +kernel
    refine (perm_ext_iff_of_nodup hnodup (nodup_singleton _)).mpr fun hash =>
      ⟨fun h => ((hwanted hash).mp h).elim (hleft hash), fun h => (hwanted hash).mpr ?_⟩
    rw [mem_singleton.mp h]
    decide +kernel
  rw [perm_singleton.mp hperm] at hasked
  exact ⟨requests, out, hrun, hout.trans (by decide +kernel), hasked⟩

end Oneiron
