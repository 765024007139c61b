import Oneiron.Contracts.Bytes
import Oneiron.Foundations.System

/-!
# KeyCustody/Retirement — a key's retirement, across the vault, the key files and the exterior journal

    intent -▸ marker · unlink (each generation) -▸ reconcile -▸ Retire frame -▸ obligation -▸ no intent

The intent is a row of the vault, staged with what it retires; a marker and an entry are files a
generation; a frame, an obligation and the completion watermark are files of the journal.  A call may end
between any two of its writes, and others are at work on the same journal.
-/

namespace Oneiron

open Function

inductive CustodyKind where
  | claimDecision | bodyInstance | knownValueIndex | knownValueEntry | worldPad | checkpointPayload
  | trainingLink | credentialValue | custodyTransition | custodyRequestInput | connectorResume
  | inferenceSnapshot | erasableKey | hostIssuerSeed
  deriving DecidableEq

/-- One thing a vault keeps keys of, by generation. -/
structure CustodySubject where
  kind : CustodyKind
  item : Bytes
  deriving DecidableEq

namespace CustodySubject

variable (subject : CustodySubject)

/-- A key whose retirement ends in a tombstone: one of a drafter's artifacts. -/
def isDrafter : Bool :=
  decide (subject.kind = .erasableKey) && decide (subject.item.length = 81) &&
    decide (subject.item.head? = some 3)

end CustodySubject

/-- One generation of a subject. -/
structure CustodyId where
  subject : CustodySubject
  generation : ℕ
  deriving DecidableEq

/-- Why a subject's entries retire; the larger dominates. -/
inductive RetireCause where
  | retention | erase
  deriving DecidableEq

namespace RetireCause

/-- Whether a cause is dominated by another. -/
def Le : RetireCause → RetireCause → Prop
  | .retention, _ | .erase, .erase => True
  | .erase, .retention => False

protected def max : RetireCause → RetireCause → RetireCause
  | .retention, other => other
  | .erase, _ => .erase

theorem le_refl : ∀ cause : RetireCause, cause.Le cause
  | .retention | .erase => trivial

theorem le_max : ∀ cause other : RetireCause, cause.Le (cause.max other)
  | .retention, .retention | .retention, .erase | .erase, _ => trivial

end RetireCause

/-- A committed intent to destroy every generation of `subject` through `through`. -/
structure RetirementIntent where
  subject : CustodySubject
  through : ℕ
  cause : RetireCause
  deriving DecidableEq

/-- `through (u64be) | cause`: an intent as its row keeps it. -/
structure IntentValue where
  through : ℕ
  cause : RetireCause

/-- A released escrow recipient a cold restore retired. -/
structure RecipientRetirement where
  label : Bytes
  fingerprint : Digest
  receipt : Bytes
  deriving DecidableEq

/-- What a frame of the custody log seals. -/
inductive LogEntry where
  | mint (id : CustodyId)
  | retire (intent : RetirementIntent)
  | retireRecipient (fact : RecipientRetirement)
  | publicationPolicy (digest : Digest)
  | bodyHistory (rows : List (Bytes × Bytes))
  | eraseEvidence (fact : Bytes)
  | holderDebt (debt : Bytes) (standing : Bool)
  deriving DecidableEq

/-- An obligation's file name. -/
inductive ObligationName where
  | retire (intent : RetirementIntent)
  | recipient (fingerprint : Digest)
  | takeover (epoch : ℕ)
  deriving DecidableEq

/-- The obligation a frame is handed off as. -/
def LogEntry.obligationName : LogEntry → Option ObligationName
  | retire intent => some (.retire intent)
  | retireRecipient fact => some (.recipient fact.fingerprint)
  | _ => none

/-- A log position, as an obligation and the watermark name it. -/
structure Mark where
  epoch : ℕ
  seq : ℕ
  deriving DecidableEq

/-- What a call does next.  A reconcile is called alone, or by the finisher of an intent. -/
inductive RetireStage where
  | idle
  /-- A finisher at a generation: everything under it is retired. -/
  | retiring (intent : RetirementIntent) (generation : ℕ)
  | unlinking (intent : RetirementIntent) (generation : ℕ)
  | dropping (intent : RetirementIntent) (generation : ℕ)
  /-- The tombstone stands, and the subject's directory goes. -/
  | sweeping (intent : RetirementIntent)
  /-- `before` is where the log stood as the reconcile was called. -/
  | reconciling (caller : Option RetirementIntent) (before : ℕ)
  | positioned (caller : Option RetirementIntent) (before position : ℕ)
  | behind (caller : Option RetirementIntent) (before walked position : ℕ)
  /-- Every frame through `walked` is. -/
  | walking (caller : Option RetirementIntent) (before walked position : ℕ)
  | reconciled (caller : Option RetirementIntent) (before : ℕ)
  | recording (intent : RetirementIntent) (seq : ℕ)
  | clearing (intent : RetirementIntent)
  /-- The watermark is raised. -/
  | advancing (at_ : Mark)
  | moving (at_ : Mark) (names : List (ObligationName × Mark))
  | stopped

/-- The three durable stores, and the calls at work on them. -/
structure RetireState where
  /-- The writer epoch and the base of the lineage's log here. -/
  epoch : ℕ
  base : ℕ
  intents : CustodySubject → Option IntentValue
  marker : CustodySubject → ℕ → Bool
  entry : CustodySubject → ℕ → Bool
  tombstone : CustodySubject → Bool
  /-- How many carried compartments a world pad's directory keeps. -/
  carried : CustodySubject → ℕ
  log : List LogEntry
  walked : ℕ
  obligations : ObligationName → Option Mark
  done : ObligationName → Option Mark
  completed : Option Mark
  /-- Every watermark there was. -/
  reached : List Mark
  /-- The vault's one writer, and the journal's lock. -/
  writer : Option ℕ
  lock : Option ℕ
  tasks : ℕ → RetireStage

namespace RetireState

variable (s : RetireState)

/-- The log's position. -/
def position : ℕ := s.base + s.log.length

/-- The frame at a sequence number. -/
def frame (seq : ℕ) : Option LogEntry :=
  if s.base < seq then s.log[seq - s.base - 1]? else none

/-- Whether a marker, or an erasable key's tombstone, retires a generation. -/
def retired (subject : CustodySubject) (generation : ℕ) : Bool :=
  s.marker subject generation || (generation = 0 && s.tombstone subject)

/-- `carries`: only a world pad's directory does. -/
def carries (subject : CustodySubject) : Bool :=
  decide (subject.kind = .worldPad) && decide (0 < s.carried subject)

/-- The watermark in an epoch. -/
def completedIn (epoch : ℕ) : Option ℕ := (s.completed.filter (·.epoch = epoch)).map (·.seq)

/-- Whether an obligation was recorded, outstanding or done. -/
def recorded (name : ObligationName) : Bool := (s.obligations name).isSome || (s.done name).isSome

def goes (c : ℕ) (stage : RetireStage) : RetireState :=
  { s with tasks := update s.tasks c stage }

/-- The intent stands, merged with the one that stood. -/
def staged (intent : RetirementIntent) : RetireState :=
  let value : IntentValue :=
    match s.intents intent.subject with
    | none => ⟨intent.through, intent.cause⟩
    | some standing => ⟨max standing.through intent.through, standing.cause.max intent.cause⟩
  { s with intents := update s.intents intent.subject (some value) }

def cleared (subject : CustodySubject) : RetireState :=
  { s with intents := update s.intents subject none }

def setMarker (subject : CustodySubject) (generation : ℕ) (stands : Bool) : RetireState :=
  { s with
    marker := update s.marker subject
      (update (s.marker subject) generation stands) }

def setEntry (subject : CustodySubject) (generation : ℕ) (stands : Bool) : RetireState :=
  { s with
    entry := update s.entry subject
      (update (s.entry subject) generation stands) }

/-- The subject's directory is gone. -/
def swept (subject : CustodySubject) : RetireState :=
  { s with
    marker := update s.marker subject fun _ => false
    entry := update s.entry subject fun _ => false }

/-- `write_once`: a second record of the same keeps the first. -/
def records (name : ObligationName) (mark : Mark) : RetireState :=
  if s.obligations name = none then
    { s with obligations := update s.obligations name (some mark) }
  else s

/-- The walk's record of a frame: none of one that is done. -/
def walks (seq : ℕ) : RetireState :=
  match (s.frame seq).bind LogEntry.obligationName with
  | none => s
  | some name => if (s.done name).isSome then s else s.records name ⟨s.epoch, seq⟩

/-- A file moves to `done`. -/
def moves (name : ObligationName) (mark : Mark) : RetireState :=
  { s with
    obligations := update s.obligations name none
    done := update s.done name (some mark) }

/-- Who stops lets go of what it held. -/
def releases (c : ℕ) : RetireState :=
  { s with
    writer := if s.writer = some c then none else s.writer
    lock := if s.lock = some c then none else s.lock }

end RetireState

inductive RetireOp where
  | stages (intent : RetirementIntent)
  | withdraws (subject : CustodySubject)
  | publishes (id : CustodyId)
  | appends (entry : LogEntry)
  | records (seq : ℕ)
  | takesOver (mark : Mark)
  | finishes (subject : CustodySubject)
  | goesOn
  | reconciles
  | advances (at_ : Mark)
  | stops

/-- One durable write of a call, or one read it goes on from. -/
inductive RetireStep : RetireState → ℕ × RetireOp → RetireState → Prop
  /-- In a transaction of its own; an erasable key has one generation. -/
  | stages {s : RetireState} {c : ℕ} {intent : RetirementIntent} : s.writer = none →
      (intent.subject.isDrafter = true → intent.through = 0) →
      RetireStep s (c, .stages intent) (s.staged intent)
  | withdraws {s : RetireState} {c : ℕ} {subject : CustodySubject} {standing : IntentValue} :
      s.writer = none → s.intents subject = some standing → standing.cause = .retention →
      RetireStep s (c, .withdraws subject) (s.cleared subject)
  /-- An entry is published where nothing retires it. -/
  | publishes {s : RetireState} {c : ℕ} {id : CustodyId} :
      s.retired id.subject id.generation = false →
      RetireStep s (c, .publishes id) (s.setEntry id.subject id.generation true)
  /-- Another's frame. -/
  | appends {s : RetireState} {c : ℕ} (entry : LogEntry) :
      RetireStep s (c, .appends entry) { s with log := s.log ++ [entry] }
  /-- …and its obligation, by who appended it. -/
  | records {s : RetireState} {c seq : ℕ} {entry : LogEntry} {name : ObligationName} :
      s.frame seq = some entry → entry.obligationName = some name →
      RetireStep s (c, .records seq) (s.records name ⟨s.epoch, seq⟩)
  | takesOver {s : RetireState} {c : ℕ} (mark : Mark) :
      RetireStep s (c, .takesOver mark) (s.records (.takeover mark.epoch) mark)
  /-- A finisher takes the writer and finds the intent standing, and it ready. -/
  | finishes {s : RetireState} {c : ℕ} {subject : CustodySubject} {standing : IntentValue} :
      s.tasks c = .idle → s.writer = none → s.intents subject = some standing →
      RetireStep s (c, .finishes subject)
        ({ s with writer := some c }.goes c
          (.retiring ⟨subject, standing.through, standing.cause⟩ 0))
  /-- Nothing is left of a generation, or its key stands tombstoned. -/
  | skips {s : RetireState} {c generation : ℕ} {intent : RetirementIntent} :
      s.tasks c = .retiring intent generation → generation ≤ intent.through →
      ((s.retired intent.subject generation = true ∧ s.entry intent.subject generation = false ∧
          s.carries intent.subject = false) ∨ generation = 0 ∧ s.tombstone intent.subject = true) →
      RetireStep s (c, .goesOn) (s.goes c (.retiring intent (generation + 1)))
  | marks {s : RetireState} {c generation : ℕ} {intent : RetirementIntent} :
      s.tasks c = .retiring intent generation → generation ≤ intent.through →
      ¬(s.retired intent.subject generation = true ∧ s.entry intent.subject generation = false ∧
          s.carries intent.subject = false) →
      ¬(generation = 0 ∧ s.tombstone intent.subject = true) →
      RetireStep s (c, .goesOn)
        ((s.setMarker intent.subject generation true).goes c (.unlinking intent generation))
  | unlinks {s : RetireState} {c generation : ℕ} {intent : RetirementIntent} :
      s.tasks c = .unlinking intent generation →
      RetireStep s (c, .goesOn)
        ((s.setEntry intent.subject generation false).goes c (.dropping intent generation))
  | drops {s : RetireState} {c generation : ℕ} {intent : RetirementIntent} :
      s.tasks c = .dropping intent generation → s.carries intent.subject = true →
      RetireStep s (c, .goesOn)
        ({ s with
          carried := update s.carried intent.subject (s.carried intent.subject - 1) }.goes c
            (.dropping intent generation))
  | dropped {s : RetireState} {c generation : ℕ} {intent : RetirementIntent} :
      s.tasks c = .dropping intent generation → s.carries intent.subject = false →
      RetireStep s (c, .goesOn) (s.goes c (.retiring intent (generation + 1)))
  /-- A drafter's key gets its tombstone before its directory goes. -/
  | entombs {s : RetireState} {c generation : ℕ} {intent : RetirementIntent} :
      s.tasks c = .retiring intent generation → intent.through < generation →
      intent.subject.isDrafter = true → s.retired intent.subject 0 = true →
      s.entry intent.subject 0 = false →
      RetireStep s (c, .goesOn)
        ({ s with tombstone := update s.tombstone intent.subject true }.goes c
          (.sweeping intent))
  /-- One file of the directory. -/
  | sweeps {s : RetireState} {c generation : ℕ} {intent : RetirementIntent} :
      s.tasks c = .sweeping intent →
      RetireStep s (c, .goesOn)
        (((s.setMarker intent.subject generation false).setEntry intent.subject generation
          false).goes c (.sweeping intent))
  | swept {s : RetireState} {c : ℕ} {intent : RetirementIntent} : s.tasks c = .sweeping intent →
      RetireStep s (c, .goesOn)
        ((s.swept intent.subject).goes c (.reconciling (some intent) s.position))
  /-- Another key's directory stays, and a drafter's may be gone already. -/
  | retired {s : RetireState} {c generation : ℕ} {intent : RetirementIntent} :
      s.tasks c = .retiring intent generation → intent.through < generation →
      RetireStep s (c, .goesOn) (s.goes c (.reconciling (some intent) s.position))
  | reconciles {s : RetireState} {c : ℕ} : s.tasks c = .idle →
      RetireStep s (c, .reconciles) (s.goes c (.reconciling none s.position))
  | readsPosition {s : RetireState} {c before : ℕ} {caller : Option RetirementIntent} :
      s.tasks c = .reconciling caller before →
      RetireStep s (c, .goesOn) (s.goes c (.positioned caller before s.position))
  | readsWalked {s : RetireState} {c before position : ℕ} {caller : Option RetirementIntent} :
      s.tasks c = .positioned caller before position → max s.walked s.base < position →
      RetireStep s (c, .goesOn)
        (s.goes c (.behind caller before (max s.walked s.base) position))
  | upToDate {s : RetireState} {c before position : ℕ} {caller : Option RetirementIntent} :
      s.tasks c = .positioned caller before position → position ≤ max s.walked s.base →
      RetireStep s (c, .goesOn) (s.goes c (.reconciled caller before))
  | locks {s : RetireState} {c before walked position : ℕ} {caller : Option RetirementIntent} :
      s.tasks c = .behind caller before walked position → s.lock = none →
      RetireStep s (c, .goesOn)
        ({ s with lock := some c }.goes c (.walking caller before walked position))
  | walks {s : RetireState} {c before walked position : ℕ} {caller : Option RetirementIntent} :
      s.tasks c = .walking caller before walked position → walked < position →
      RetireStep s (c, .goesOn)
        ((s.walks (walked + 1)).goes c (.walking caller before (walked + 1) position))
  | walked {s : RetireState} {c before walked position : ℕ} {caller : Option RetirementIntent} :
      s.tasks c = .walking caller before walked position → position ≤ walked →
      RetireStep s (c, .goesOn)
        ({ s with walked := position, lock := none }.goes c (.reconciled caller before))
  /-- The handoff was made already. -/
  | owed {s : RetireState} {c before : ℕ} {intent : RetirementIntent} :
      s.tasks c = .reconciled (some intent) before → s.recorded (.retire intent) = true →
      RetireStep s (c, .goesOn) (s.goes c (.clearing intent))
  | journals {s : RetireState} {c before : ℕ} {intent : RetirementIntent} :
      s.tasks c = .reconciled (some intent) before → s.recorded (.retire intent) = false →
      RetireStep s (c, .goesOn)
        ({ s with log := s.log ++ [LogEntry.retire intent] }.goes c (.recording intent (s.position + 1)))
  | recordsOwn {s : RetireState} {c seq : ℕ} {intent : RetirementIntent} :
      s.tasks c = .recording intent seq →
      RetireStep s (c, .goesOn)
        ((s.records (.retire intent) ⟨s.epoch, seq⟩).goes c (.clearing intent))
  | commits {s : RetireState} {c : ℕ} {intent : RetirementIntent} :
      s.tasks c = .clearing intent →
      RetireStep s (c, .goesOn) ({ s.cleared intent.subject with writer := none }.goes c .idle)
  | advances {s : RetireState} {c : ℕ} {at_ : Mark} : s.tasks c = .idle → s.lock = none →
      (s.completedIn at_.epoch).all (· < at_.seq) = true →
      RetireStep s (c, .advances at_)
        ({ s with completed := some at_, reached := s.reached ++ [at_], lock := some c }.goes c
          (.advancing at_))
  /-- The obligations the watermark completes, in the order the directory lists them. -/
  | lists {s : RetireState} {c : ℕ} {at_ : Mark} {names : List (ObligationName × Mark)} :
      s.tasks c = .advancing at_ → (names.map Prod.fst).Nodup →
      (∀ name mark, (name, mark) ∈ names ↔
        s.obligations name = some mark ∧ mark.epoch = at_.epoch ∧ mark.seq ≤ at_.seq) →
      RetireStep s (c, .goesOn) (s.goes c (.moving at_ names))
  | moves {s : RetireState} {c : ℕ} {at_ mark stored : Mark} {name : ObligationName}
      {rest : List (ObligationName × Mark)} : s.tasks c = .moving at_ ((name, mark) :: rest) →
      s.obligations name = some stored →
      RetireStep s (c, .goesOn) ((s.moves name stored).goes c (.moving at_ rest))
  | moved {s : RetireState} {c : ℕ} {at_ : Mark} : s.tasks c = .moving at_ [] →
      RetireStep s (c, .goesOn) ({ s with lock := none }.goes c .idle)
  | stops {s : RetireState} {c : ℕ} : RetireStep s (c, .stops) ((s.releases c).goes c .stopped)

/-- A custody nothing was retired in: its keys and its log are what they are. -/
def retireSystem : System RetireState (ℕ × RetireOp) where
  init s := (∀ subject, s.intents subject = none ∧ s.tombstone subject = false) ∧ s.log = [] ∧
    s.walked = 0 ∧ (∀ name, s.obligations name = none ∧ s.done name = none) ∧ s.completed = none ∧
    s.reached = [] ∧ s.writer = none ∧ s.lock = none ∧ ∀ c, s.tasks c = .idle
  step := RetireStep

end Oneiron
