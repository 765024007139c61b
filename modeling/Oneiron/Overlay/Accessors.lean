import Oneiron.Overlay.Composed
import Oneiron.Overlay.Segment

/-!
# Overlay/Accessors — a named database as a session sees it

    canonical accessor    base
    composed accessor     view over base

A canonical accessor reads and writes base.  A composed one reads a captured view of the room over
base, and sends every write to the room's open segment.
-/

namespace Oneiron

/-- The rows of every named database. -/
abbrev Vault := (keyspace : OverlayKeyspace) → Database keyspace.isDupsort

def Vault.empty : Vault := fun keyspace => .empty keyspace.isDupsort

/-- A read view of the overlay. -/
structure OverlaySnapshot where
  state : OverlayState
  /-- The write segment whose preview this view was captured from. -/
  segment : Option ℕ

namespace SessionOverlay

def snapshot (overlay : SessionOverlay) : OverlaySnapshot :=
  match overlay.segment with
  | some segment => ⟨segment.preview, some segment.nonce⟩
  | none => ⟨overlay.state, none⟩

/-- A view captured from the open segment follows that segment; any other reads as captured. -/
def readView (overlay : SessionOverlay) (captured : OverlaySnapshot) : OverlaySnapshot :=
  match captured.segment, overlay.segment with
  | some nonce, some segment =>
    if segment.nonce = nonce then ⟨segment.preview, some nonce⟩ else captured
  | _, _ => captured

end SessionOverlay

/-- A base transaction and the live room over it. -/
structure Session where
  base : Vault
  live : SessionOverlay

/-- An accessor; `overlay` is the view a composed one captured. -/
structure OverlayDb where
  keyspace : OverlayKeyspace
  overlay : Option OverlaySnapshot

/-- The data rows equal to `data`; a row that cannot be read ends the count. -/
def exactCount (data : Bytes) : List ReadRow → Except Error ℕ
  | [] => .ok 0
  | .error e :: _ => .error e
  | .ok row :: rest => do
    let count ← exactCount data rest
    pure (if row.2 = data then count + 1 else count)

/-- Whether a row equals `data`; the search stops at the first. -/
def holdsExact (data : Bytes) : List ReadRow → Except Error Bool
  | [] => .ok false
  | .error e :: _ => .error e
  | .ok row :: rest => if row.2 = data then .ok true else holdsExact data rest

namespace OverlayDb

variable [EntryLayout] (db : OverlayDb) (session : Session)

def composed (keyspace : OverlayKeyspace) (snapshot : OverlaySnapshot) : OverlayDb :=
  ⟨keyspace, some snapshot⟩

/-- The rows of base under this accessor. -/
def held : Database db.keyspace.isDupsort := session.base db.keyspace

/-- The staged rows a read composes now. -/
def view : Option (KeyspaceState db.keyspace.isDupsort) :=
  db.overlay.map fun captured => (session.live.readView captured).state.keyspaces db.keyspace

/-! ## Reads -/

def get (key : Bytes) : Except Error (Option Bytes) :=
  match db.view session with
  | none => .ok ((db.held session).get key)
  | some staged => Composed.get (db.held session) staged key

def getDuplicates (key : Bytes) : Except Error (Option (List ReadRow)) :=
  match db.view session with
  | none => .ok ((db.held session).getDuplicates key)
  | some staged => Composed.getDuplicates (db.held session) staged key

def iter : List ReadRow :=
  match db.view session with
  | none => (db.held session).iter
  | some staged => Composed.iter (db.held session) staged

def prefixIter (start : Bytes) : List ReadRow :=
  match db.view session with
  | none => (db.held session).prefixIter start
  | some staged => Composed.prefixIter (db.held session) staged start

def range (start stop : Bound) : List ReadRow :=
  match db.view session with
  | none => (db.held session).range start stop
  | some staged => Composed.range (db.held session) staged start stop

/-! ## Writes -/

/-- The session with base's rows of one database replaced. -/
def writeBase (rows : Database db.keyspace.isDupsort) : Session :=
  { session with base := Function.update session.base db.keyspace rows }

def put (key data : Bytes) : Except Error Session :=
  match db.overlay with
  | some _ => do
    let live ← session.live.put db.keyspace key data
    pure { session with live }
  | none => .ok (db.writeBase session ((db.held session).put key data))

def delete (key : Bytes) : Except Error (Bool × Session) :=
  match db.overlay with
  | none =>
    let deleted := (db.held session).delete key
    .ok (deleted.1, db.writeBase session deleted.2)
  | some _ => do
    let existed := (← db.get session key).isSome
    if existed then
      let baseBacked := ((db.held session).get key).isSome
      let live ← session.live.deleteWithBaseBacking db.keyspace key baseBacked
      pure (existed, { session with live })
    else pure (existed, session)

def deleteOneDuplicate (key data : Bytes) : Except Error (Bool × Session) :=
  match db.overlay with
  | none =>
    let deleted := (db.held session).deleteOneDuplicate key data
    .ok (deleted.1, db.writeBase session deleted.2)
  | some _ => do
    let count ← exactCount data ((← db.getDuplicates session key).getD [])
    if count ≠ 0 then
      let baseBacked ← holdsExact data (((db.held session).getDuplicates key).getD [])
      let live ← session.live.deleteDuplicate db.keyspace key data baseBacked
      pure (true, { session with live })
    else pure (false, session)

def clear : Except Error Session :=
  match db.overlay with
  | some _ => do
    let live ← session.live.clear db.keyspace
    pure { session with live }
  | none => .ok (db.writeBase session (db.held session).clear)

end OverlayDb

end Oneiron
