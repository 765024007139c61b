import Oneiron.Foundations.System
import Oneiron.KeyCustody.Frame

/-!
# KeyCustody/Journal — the custody journal's files, and the calls that walk and extend them

    CONTROL   ·   f(base + 1) ◂- f(base + 2) ◂- … ◂- f(last)   ·   TIP

Any number of calls are under way at once, each one file operation at a time.  A frame file is linked
under its name once; TIP is a cache, and may say anything.
-/

namespace Oneiron

/-- The lineage a journal is of. -/
structure CustodyLineage where
  vault : CustodyVaultId
  namespace_ : CustodyNamespace

inductive JournalCall where
  | position
  /-- An append of one entry, as it is encoded. -/
  | append (entry : Bytes)
  deriving DecidableEq

/-- What a call does next. -/
inductive JournalStage where
  | idle
  | readControl
  /-- There was no control state: one is made. -/
  | linkControl
  /-- Another maker's was linked first. -/
  | reReadControl
  | readTip (control : Control)
  /-- Reads the frame the cache names. -/
  | readCached (control : Control) (seq : U64) (hash : FrameHash)
  /-- Reads the frame after one known. -/
  | readFrame (control : Control) (seq : U64) (tip : FrameHash)
  | sealing (control : Control) (found : CustodyPosition) (seq : U64)
  | linkFrame (control : Control) (header : FrameHeader) (body : Bytes)
  | cacheTip (position : CustodyPosition)
  | returned (position : CustodyPosition)
  | failed
  /-- Its process ended, or an operation on a file failed. -/
  | stopped

namespace JournalStage

variable (blake3 : Bytes → Digest) (lineage : CustodyLineage)

/-- After CONTROL is read for the first time. -/
def onControl (call : JournalCall) : Option Control → JournalStage
  | some control => readTip control
  | none =>
    match call with
    | .position => returned ⟨lineage.vault, lineage.namespace_, 0, 0, .zeros 32⟩
    | .append _ => linkControl

/-- `position_under`, after TIP is read. -/
def onTip (control : Control) (cached : Option Bytes) : JournalStage :=
  match cached.bind parseTip with
  | some (seq, hash) =>
    if control.baseSeq.val < seq.val then readCached control seq hash
    else readFrame control control.baseSeq control.baseTip
  | none => readFrame control control.baseSeq control.baseTip

/-- …after the frame TIP names is. -/
def onCached (control : Control) (seq : U64) (hash : FrameHash) (frame : Option Bytes) :
    JournalStage :=
  if frame.any fun frame => decide (frameHash blake3 frame = hash) then readFrame control seq hash
  else readFrame control control.baseSeq control.baseTip

/-- A position found: what `position` returns, and what an append seals its frame over. -/
def onEnd (call : JournalCall) (control : Control) (seq : U64) (tip : FrameHash) : JournalStage :=
  let found : CustodyPosition :=
    { vault := lineage.vault, namespace_ := lineage.namespace_, epoch := control.epoch, seq, tip }
  match call with
  | .position => returned found
  | .append _ =>
    match seq.checkedAdd 1 with
    | none => failed
    | some next => sealing control found next

/-- …after the frame at a sequence number is, where there is one it extends the one before. -/
def onFrame (call : JournalCall) (control : Control) (seq : U64) (tip : FrameHash) (next : U64) :
    Option Bytes → JournalStage
  | none => onEnd lineage call control seq tip
  | some frame =>
    match FrameHeader.parse frame with
    | none => failed
    | some (header, _) =>
      if header.seq ≠ next ∨ header.prev ≠ tip ∨ control.epoch.val < header.epoch.val ∨
          header.vault ≠ lineage.vault ∨ header.namespace_ ≠ lineage.namespace_ then failed
      else readFrame control next (frameHash blake3 frame)

end JournalStage

/-- The header an append seals its frame under. -/
def CustodyPosition.nextHeader (found : CustodyPosition) (control : Control) (seq : U64) :
    FrameHeader :=
  { vault := found.vault, namespace_ := found.namespace_, epoch := control.epoch, seq
    prev := found.tip }

/-- One call under way. -/
structure JournalTask where
  call : JournalCall
  stage : JournalStage
  /-- The frames there were when it began. -/
  before : U64 → Option Bytes

structure CustodyLog where
  control : Option Control
  tip : Option Bytes
  frames : U64 → Option Bytes
  /-- The call that linked each frame. -/
  linkedBy : U64 → Option ℕ
  tasks : ℕ → JournalTask

namespace CustodyLog

variable (s : CustodyLog)

/-- A call goes on. -/
def goes (c : ℕ) (stage : JournalStage) : CustodyLog :=
  { s with tasks := Function.update s.tasks c { s.tasks c with stage := stage } }

def begins (c : ℕ) (call : JournalCall) : CustodyLog :=
  { s with tasks := Function.update s.tasks c ⟨call, .readControl, s.frames⟩ }

def links (c : ℕ) (seq : U64) (frame : Bytes) : CustodyLog :=
  { s with
    frames := Function.update s.frames seq (some frame)
    linkedBy := Function.update s.linkedBy seq (some c) }

end CustodyLog

/-- One file operation of a call, or something that befalls it or TIP.  A body may be any that seals
its entry under the header, and is spelled in four bytes of length. -/
inductive JournalStep (blake3 : Bytes → Digest)
    (seals : Control → FrameHeader → Bytes → Bytes → Prop) (lineage : CustodyLineage) :
    CustodyLog → ℕ → CustodyLog → Prop
  | begins {s : CustodyLog} {c : ℕ} (call : JournalCall) : (s.tasks c).stage = .idle →
      JournalStep blake3 seals lineage s c (s.begins c call)
  | readControl {s : CustodyLog} {c : ℕ} : (s.tasks c).stage = .readControl →
      JournalStep blake3 seals lineage s c
        (s.goes c (.onControl lineage (s.tasks c).call s.control))
  | linkControl {s : CustodyLog} {c : ℕ} (secret : FixedBytes 32) :
      (s.tasks c).stage = .linkControl → s.control = none →
      JournalStep blake3 seals lineage s c
        ({ s with control := some (.fresh secret) }.goes c (.readTip (.fresh secret)))
  | controlStands {s : CustodyLog} {c : ℕ} : (s.tasks c).stage = .linkControl →
      s.control ≠ none → JournalStep blake3 seals lineage s c (s.goes c .reReadControl)
  | reReadControl {s : CustodyLog} {c : ℕ} : (s.tasks c).stage = .reReadControl →
      JournalStep blake3 seals lineage s c (s.goes c (s.control.elim .failed .readTip))
  | readTip {s : CustodyLog} {c : ℕ} {control : Control} :
      (s.tasks c).stage = .readTip control →
      JournalStep blake3 seals lineage s c (s.goes c (.onTip control s.tip))
  | readCached {s : CustodyLog} {c : ℕ} {control : Control} {seq : U64} {hash : FrameHash} :
      (s.tasks c).stage = .readCached control seq hash →
      JournalStep blake3 seals lineage s c
        (s.goes c (.onCached blake3 control seq hash (s.frames seq)))
  | readFrame {s : CustodyLog} {c : ℕ} {control : Control} {seq next : U64} {tip : FrameHash} :
      (s.tasks c).stage = .readFrame control seq tip → seq.checkedAdd 1 = some next →
      JournalStep blake3 seals lineage s c
        (s.goes c (.onFrame blake3 lineage (s.tasks c).call control seq tip next (s.frames next)))
  /-- The number after the last there is. -/
  | spent {s : CustodyLog} {c : ℕ} {control : Control} {seq : U64} {tip : FrameHash} :
      (s.tasks c).stage = .readFrame control seq tip → seq.checkedAdd 1 = none →
      JournalStep blake3 seals lineage s c (s.goes c .failed)
  | sealing {s : CustodyLog} {c : ℕ} {control : Control} {found : CustodyPosition} {seq : U64}
      {entry : Bytes} (body : Bytes) : (s.tasks c).stage = .sealing control found seq →
      (s.tasks c).call = .append entry → seals control (found.nextHeader control seq) entry body →
      body.length < 4294967296 →
      JournalStep blake3 seals lineage s c
        (s.goes c (.linkFrame control (found.nextHeader control seq) body))
  | sealFails {s : CustodyLog} {c : ℕ} {control : Control} {found : CustodyPosition} {seq : U64} :
      (s.tasks c).stage = .sealing control found seq →
      JournalStep blake3 seals lineage s c (s.goes c .failed)
  | linkFrame {s : CustodyLog} {c : ℕ} {control : Control} {header : FrameHeader} {body : Bytes} :
      (s.tasks c).stage = .linkFrame control header body → s.frames header.seq = none →
      JournalStep blake3 seals lineage s c
        ((s.links c header.seq (header.frameOf body)).goes c (.cacheTip
          ⟨header.vault, header.namespace_, control.epoch, header.seq,
            frameHash blake3 (header.frameOf body)⟩))
  /-- A concurrent appender took the number first. -/
  | frameStands {s : CustodyLog} {c : ℕ} {control : Control} {header : FrameHeader} {body : Bytes} :
      (s.tasks c).stage = .linkFrame control header body → s.frames header.seq ≠ none →
      JournalStep blake3 seals lineage s c (s.goes c (.readTip control))
  | cacheTip {s : CustodyLog} {c : ℕ} {position : CustodyPosition} :
      (s.tasks c).stage = .cacheTip position →
      JournalStep blake3 seals lineage s c
        ({ s with tip := some (digits 8 position.seq.val ++ position.tip.bytes) }.goes c
          (.returned position))
  | tipNotCached {s : CustodyLog} {c : ℕ} {position : CustodyPosition} :
      (s.tasks c).stage = .cacheTip position →
      JournalStep blake3 seals lineage s c (s.goes c (.returned position))
  | stops {s : CustodyLog} {c : ℕ} : (s.tasks c).stage ≠ .idle →
      (∀ position, (s.tasks c).stage ≠ .returned position) →
      JournalStep blake3 seals lineage s c (s.goes c .stopped)
  | tipBecomes {s : CustodyLog} {c : ℕ} (tip : Option Bytes) :
      JournalStep blake3 seals lineage s c { s with tip := tip }

/-- The journal of a lineage begun here, or one taken over: no frame is linked yet. -/
def journalSystem (blake3 : Bytes → Digest)
    (seals : Control → FrameHeader → Bytes → Bytes → Prop) (lineage : CustodyLineage) :
    System CustodyLog ℕ where
  init s := (∀ seq, s.frames seq = none ∧ s.linkedBy seq = none) ∧ ∀ c, (s.tasks c).stage = .idle
  step := JournalStep blake3 seals lineage

end Oneiron
