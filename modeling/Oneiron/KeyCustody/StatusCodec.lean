import Oneiron.KeyCustody.LogCodec
import Oneiron.KeyCustody.TargetProtocol

/-!
# KeyCustody/StatusCodec — where publishing got, as its file keeps it

    state | wraps | anchor | 3 × (0 or 1 ‖ position (96)) | detail

The detail is all that is left, so a detail of no bytes is none.  `custody_codecs` is what the log
codec and this one keep together.
-/

namespace Oneiron

open Slice CodedEntry

/-! ## Publications -/

inductive PublicationState where
  | nothing | published | targetPending | anchorPending | fenced
  deriving DecidableEq

namespace PublicationState

def code : PublicationState → UInt8
  | nothing => 0
  | published => 1
  | targetPending => 2
  | anchorPending => 3
  | fenced => 4

/-- `from_code`. -/
def ofCode (code : UInt8) : Option PublicationState :=
  match code.toNat with
  | 0 => some nothing
  | 1 => some published
  | 2 => some targetPending
  | 3 => some anchorPending
  | 4 => some fenced
  | _ => none

@[simp] theorem ofCode_code (state : PublicationState) : ofCode state.code = some state := by
  cases state <;> rfl

end PublicationState

/-- The bytes of a `String`. -/
abbrev Utf8 := { bytes : Bytes // isUtf8 bytes = true }

/-- One lineage's publication. -/
structure Publication where
  state : PublicationState
  localAt : Option CustodyPosition
  published : Option CustodyPosition
  anchored : Option CustodyPosition
  detail : Option Utf8
  dataKeyWrapped : Option Bool
  anchorUnset : Bool
  deriving DecidableEq

def positionLen : ℕ := 32 + 16 + 8 + 8 + 32

namespace CustodyPosition

def fromBytes (bytes : Bytes) : Except Stop CustodyPosition := do
  if bytes.length ≠ positionLen then .error .refused
  else
    let vault ← indexTo 32 bytes
    let vault ← toFixed 32 vault
    let namespace_ ← indexRange 32 48 bytes
    let namespace_ ← toFixed 16 namespace_
    let epoch ← indexRange 48 56 bytes
    let epoch ← toNumber 8 epoch
    let seq ← indexRange 56 64 bytes
    let seq ← toNumber 8 seq
    let tip ← indexFrom 64 bytes
    let tip ← toFixed 32 tip
    pure ⟨vault, namespace_, .ofNat epoch, .ofNat seq, tip⟩

end CustodyPosition

/-! ## The codec -/

def wrapsCode : Option Bool → UInt8
  | none => 0
  | some false => 1
  | some true => 2

def ofWrapsCode (wraps : UInt8) : Option (Option Bool) :=
  match wraps.toNat with
  | 0 => some none
  | 1 => some (some false)
  | 2 => some (some true)
  | _ => none

def unsetCode (unset : Bool) : UInt8 := if unset then 1 else 0

def ofUnsetCode (unset : UInt8) : Option Bool :=
  match unset.toNat with
  | 0 => some false
  | 1 => some true
  | _ => none

@[simp] theorem ofWrapsCode_wrapsCode : ∀ wrapped, ofWrapsCode (wrapsCode wrapped) = some wrapped
  | none | some false | some true => rfl

@[simp] theorem ofUnsetCode_unsetCode : ∀ unset, ofUnsetCode (unsetCode unset) = some unset
  | false | true => rfl

def encodeSlot : Option CustodyPosition → Bytes
  | some position => 1 :: position.toBytes
  | none => [0]

def encodeStatus (publication : Publication) : Bytes :=
  [publication.state.code, wrapsCode publication.dataKeyWrapped,
    unsetCode publication.anchorUnset] ++
  ([publication.localAt, publication.published, publication.anchored].flatMap encodeSlot ++
    (publication.detail.map Subtype.val).getD [])

/-- One turn of the loop over the slots. -/
def decodeSlot (rest : Bytes) : Except Stop (Option CustodyPosition × Bytes) := do
  let (present, rest) ← splitFirst rest
  if present = 1 then
    let bytes ← getTo positionLen rest
    let position ← CustodyPosition.fromBytes bytes
    let rest ← indexFrom positionLen rest
    pure (some position, rest)
  else pure (none, rest)

def decodeStatus (bytes : Bytes) : Except Stop Publication := do
  let (state, rest) ← splitFirst bytes
  let (wraps, rest) ← splitFirst rest
  let (unset, rest) ← splitFirst rest
  let (localAt, rest) ← decodeSlot rest
  let (published, rest) ← decodeSlot rest
  let (anchored, rest) ← decodeSlot rest
  if hutf8 : isUtf8 rest then
    let state ← okOr (PublicationState.ofCode state) .refused
    let dataKeyWrapped ← okOr (ofWrapsCode wraps) .refused
    let anchorUnset ← okOr (ofUnsetCode unset) .refused
    let detail := if rest = [] then none else some ⟨rest, hutf8⟩
    pure { state, localAt, published, anchored, detail, dataKeyWrapped, anchorUnset }
  else .error .refused

/-! ## A status comes back -/

variable {position : CustodyPosition} {bytes : Bytes}

@[simp] theorem CustodyPosition.length_toBytes (position : CustodyPosition) :
    position.toBytes.length = positionLen := by
  simp [toBytes, positionLen]

theorem CustodyPosition.fromBytes_toBytes (position : CustodyPosition) :
    fromBytes position.toBytes = .ok position := by
  obtain ⟨vault, namespace_, epoch, seq, tip⟩ := position
  have hlen := length_toBytes ⟨vault, namespace_, epoch, seq, tip⟩
  have hword (word : U64) : toNumber 8 (digits 8 word.val) = .ok word.val ∧
      U64.ofNat word.val = word := by
    have hlt : word.val < 256 ^ 8 := Nat.lt_of_le_of_lt word.le (by norm_num)
    exact ⟨toNumber_eq_ok.mpr ⟨hlt, rfl⟩, U64.ext (ofNat_val hlt)⟩
  -- the fields, each where it stands
  have hsplit : toBytes ⟨vault, namespace_, epoch, seq, tip⟩ = vault.bytes ++ (namespace_.bytes ++
      (digits 8 epoch.val ++ (digits 8 seq.val ++ tip.bytes))) := by
    simp only [toBytes, List.append_assoc]
  generalize toBytes ⟨vault, namespace_, epoch, seq, tip⟩ = bytes at hlen hsplit ⊢
  have hvault : indexTo 32 bytes = .ok vault.bytes := indexTo_eq_ok.mpr ⟨by simp, _, hsplit⟩
  have hnamespace : indexRange 32 48 bytes = .ok namespace_.bytes :=
    indexRange_eq_ok.mpr ⟨vault.bytes, digits 8 epoch.val ++ (digits 8 seq.val ++ tip.bytes),
      by simpa using hsplit, by simp, by simp⟩
  have hepoch : indexRange 48 56 bytes = .ok (digits 8 epoch.val) :=
    indexRange_eq_ok.mpr ⟨vault.bytes ++ namespace_.bytes, digits 8 seq.val ++ tip.bytes,
      by simpa using hsplit, by simp, by simp⟩
  have hseq : indexRange 56 64 bytes = .ok (digits 8 seq.val) :=
    indexRange_eq_ok.mpr ⟨vault.bytes ++ namespace_.bytes ++ digits 8 epoch.val, tip.bytes,
      by simpa using hsplit, by simp, by simp⟩
  have htip : indexFrom 64 bytes = .ok tip.bytes :=
    indexFrom_eq_ok.mpr ⟨vault.bytes ++ namespace_.bytes ++ digits 8 epoch.val ++ digits 8 seq.val,
      by simp, by simpa using hsplit⟩
  have hfixed {n : ℕ} (x : FixedBytes n) : toFixed n x.bytes = .ok x := toFixed_eq_ok.mpr rfl
  have hbind {α β : Type} (a : α) (f : α → Except Stop β) : (Except.ok a >>= f) = f a := rfl
  simp only [fromBytes, hlen, ne_eq, not_true, if_false, hvault, hnamespace, hepoch, hseq, htip,
    hfixed, hword, hbind]
  rfl

theorem decodeSlot_encodeSlot (slot : Option CustodyPosition) (rest : Bytes) :
    decodeSlot (encodeSlot slot ++ rest) = .ok (slot, rest) := by
  cases slot with
  | none => rfl
  | some position =>
    have hlen := position.length_toBytes
    refine bind_eq_ok.mpr ⟨(1, position.toBytes ++ rest), rfl, ?_⟩
    dsimp only
    rw [if_pos rfl, getTo_append hlen, indexFrom_append hlen]
    refine bind_eq_ok.mpr ⟨_, rfl, ?_⟩
    rw [position.fromBytes_toBytes]
    rfl

/-- **A status written is read back**, unless it has a detail of no bytes. -/
theorem decodeStatus_encodeStatus {publication : Publication}
    (h : ∀ detail, publication.detail = some detail → detail.val ≠ []) :
    decodeStatus (encodeStatus publication) = .ok publication := by
  obtain ⟨state, localAt, published, anchored, detail, wrapped, unset⟩ := publication
  have hbind {α β : Type} (a : α) (f : α → Except Stop β) : (Except.ok a >>= f) = f a := rfl
  have hsome {α : Type} (a : α) : okOr (some a) Stop.refused = .ok a := rfl
  simp only [encodeStatus, List.flatMap_cons, List.flatMap_nil, List.append_nil, List.append_assoc,
    List.cons_append, List.nil_append, decodeStatus, splitFirst, hbind, decodeSlot_encodeSlot,
    PublicationState.ofCode_code, ofWrapsCode_wrapsCode,
    ofUnsetCode_unsetCode, hsome]
  cases detail with
  | none => rfl
  | some detail =>
    obtain ⟨text, hutf8⟩ := detail
    have hne : text ≠ [] := h ⟨text, hutf8⟩ rfl
    simp only [Option.map_some, Option.getD_some, dif_pos hutf8, if_neg hne]
    rfl

theorem CustodyPosition.quiet_fromBytes (bytes : Bytes) : Quiet (fromBytes bytes) := by
  refine .ite (fun _ => .refused) fun hlen => ?_
  have hlen : bytes.length = 96 := not_not.mp hlen
  refine .bind (.indexTo (by omega)) fun _ _ => .bind (.okOr _) fun _ _ =>
    .bind (.indexRange (by omega) (by omega)) fun _ _ => .bind (.okOr _) fun _ _ =>
    .bind (.indexRange (by omega) (by omega)) fun _ _ => .bind (.toNumber _ _) fun _ _ =>
    .bind (.indexRange (by omega) (by omega)) fun _ _ => .bind (.toNumber _ _) fun _ _ =>
    .bind (.indexFrom (by omega)) fun _ _ => .bind (.okOr _) fun _ _ => .ok _

theorem quiet_decodeSlot (bytes : Bytes) : Quiet (decodeSlot bytes) := by
  refine .bind (.splitFirst _) fun (present, rest) _ => .ite (fun _ => ?_) fun _ => .ok _
  refine .bind (.getTo _ _) fun front hfront => .bind (CustodyPosition.quiet_fromBytes _) fun _ _ => ?_
  obtain ⟨hlen, after, rfl⟩ := getTo_eq_ok.mp hfront
  exact .bind (.indexFrom (by simp [hlen])) fun _ _ => .ok _

/-- **No bytes make `decode_status` panic.** -/
theorem quiet_decodeStatus (bytes : Bytes) : Quiet (decodeStatus bytes) := by
  refine .bind (.splitFirst _) fun _ _ => .bind (.splitFirst _) fun _ _ =>
    .bind (.splitFirst _) fun _ _ => .bind (quiet_decodeSlot _) fun _ _ =>
    .bind (quiet_decodeSlot _) fun _ _ => .bind (quiet_decodeSlot _) fun _ _ => ?_
  dsimp only
  split
  · exact .bind (.okOr _) fun _ _ => .bind (.okOr _) fun _ _ => .bind (.okOr _) fun _ _ => .ok _
  · exact .refused

/-- **The custody codecs** — an entry of a vault is read back as written, and nothing else is read as
it; the history rows accepted are as they are written; no bytes a slice can hold make a reader panic;
and a publication is read back unless its detail is a text of no bytes. -/
theorem custody_codecs (vault : CustodyVaultId) :
    (∀ entry : CodedEntry, entry.WrittenFor vault → entry.encode.length ≤ maxLen →
      decode vault entry.encode = .ok entry) ∧
    (∀ bytes entry, decode vault bytes = .ok entry → entry.encode = bytes) ∧
    (∀ bytes rows, decodeRows bytes = .ok rows → encodeRows rows = bytes) ∧
    (∀ bytes : Bytes, bytes.length ≤ maxLen → decodeRows bytes ≠ .error .panicked ∧
      decode vault bytes ≠ .error .panicked ∧ decodeStatus bytes ≠ .error .panicked) ∧
    ∀ publication : Publication, (∀ detail, publication.detail = some detail → detail.val ≠ []) →
      decodeStatus (encodeStatus publication) = .ok publication :=
  ⟨fun _ h hlen => decode_encode h hlen, fun _ _ h => encode_of_decode h,
    fun _ _ h => (encodeRows_of_decodeRows h).1,
    fun bytes hlen => ⟨quiet_decodeRows hlen, quiet_decode vault hlen,
      quiet_decodeStatus bytes⟩, fun _ h => decodeStatus_encodeStatus h⟩

/-- The history row of an erased instance. -/
def erasedRow : HistoryRow := (BodyHistory.erasedPrefix ++ List.replicate 32 7, [1])

/-- A pending step, in words. -/
def pendingDetail : Utf8 := ⟨ascii "no anchor", isUtf8_of_ascii (by simp [ascii])⟩

/-- …of a history of one row, and of a status with a detail. -/
theorem custody_codecs_erased :
    decode (.zeros 32) (bodyHistory [erasedRow]).encode =
        .ok (.bodyHistory [erasedRow]) ∧
      ∀ publication : Publication, publication.detail = some pendingDetail →
        decodeStatus (encodeStatus publication) = .ok publication := by
  obtain ⟨hentries, -, -, -, hstatus⟩ := custody_codecs (.zeros 32)
  have hkey : erasedRow.1.length = 58 := rfl
  have hvalue : erasedRow.2.length = 1 := rfl
  have hlen : (bodyHistory [erasedRow]).encode.length = 72 := rfl
  refine ⟨hentries _ ?_ (by rw [hlen]; norm_num [Slice.maxLen]),
    fun publication hdetail => hstatus publication ?_⟩
  · refine ⟨by norm_num, List.forall_mem_singleton.mpr ⟨by decide, ?_, ?_⟩⟩
    · rw [hkey]
      norm_num
    · rw [hvalue]
      norm_num
  · rintro detail hsome
    obtain rfl := Option.some.inj (hdetail.symm.trans hsome)
    intro hnil
    cases hnil

end Oneiron
