import Oneiron.Foundations.System
import Oneiron.Overlay.Accessors
import Oneiron.Overlay.Refines

/-!
# Overlay/Twin — a room over a fixed base answers as a plain copy of that base

    room     install -- writes --▸ commit        reads compose the room over base
    copies   published           working         the same writes, made directly

A `Twin` runs the two side by side.  The copy `published` holds what committed segments wrote, and
`working` what the open segment wrote on top.  What is published stands for the one, the open
segment's preview for the other, and replaying the segment leads from the first to the second
(`Paired`); so every read through an accessor answers as the copy does (`composed_refines`).
-/

namespace Oneiron

open Except Option Prod Composed List SessionOverlay OverlayDb

/-- One write issued through an accessor. -/
inductive Write where
  | put (key data : Bytes)
  | delete (key : Bytes)
  | deleteOneDuplicate (key data : Bytes)
  | clear
  deriving DecidableEq

/-- The write made on a plain database, with its answer. -/
def Write.applyTo {d : Bool} : Write → Database d → Option Bool × Database d
  | .put key data, plain => (none, plain.put key data)
  | .delete key, plain => (some (plain.delete key).1, (plain.delete key).2)
  | .deleteOneDuplicate key data, plain =>
    (some (plain.deleteOneDuplicate key data).1, (plain.deleteOneDuplicate key data).2)
  | .clear, plain => (none, plain.clear)

/-- The writes the refinement covers.  A duplicate is deleted where there are duplicates, and put
where no other value of its identity shows. -/
def Write.Admissible {d : Bool} (plain : Database d) : Write → Prop
  | .put key data => d = true → ∀ w, (key, w) ∈ plain.pairs →
      duplicateIdentity w = duplicateIdentity data → w = data
  | .deleteOneDuplicate .. => d = true
  | _ => True

namespace Refines

variable {d : Bool} {base plain : Database d} {state : KeyspaceState d}

/-- The plain side may be any database with the same rows. -/
theorem congr_plain (h : Refines base state plain) {plain' : Database d}
    (hrows : ∀ row, row ∈ plain'.pairs ↔ row ∈ plain.pairs) : Refines base state plain' :=
  ⟨fun row => (h.holds row).trans (hrows row).symm, h.covers⟩

theorem put (h : Refines base state plain) {key data : Bytes}
    (hadm : (Write.put key data).Admissible plain) :
    Refines base (state.put key data) (plain.put key data) := by
  cases state with
  | single => exact h.put_single key data
  | dupSort => exact h.put_dupSort (hadm rfl)

theorem delete (h : Refines base state plain) (key : Bytes) :
    Refines base (state.delete key (base.get key).isSome) (plain.delete key).2 := by
  cases state with
  | single => exact h.delete_single key
  | dupSort => exact h.delete_dupSort key _

theorem deleteDuplicate_of_isDupsort (hd : d = true) (h : Refines base state plain)
    {key value : Bytes} {backed : Bool} (hbacked : backed = true ↔ (key, value) ∈ base.pairs)
    (hvalue : (key, value) ∈ plain.pairs) :
    ∃ next, state.deleteDuplicate key value backed = .ok next ∧
      Refines base next (plain.deleteOneDuplicate key value).2 := by
  subst hd
  cases state with
  | dupSort => exact h.deleteDuplicate hbacked hvalue

/-- Deleting a key that shows nothing changes nothing. -/
theorem delete_absent (h : Refines base state plain) {key : Bytes} (hkey : plain.get key = none) :
    Refines base state (plain.delete key).2 := by
  refine h.congr_plain fun row => ?_
  rw [Database.mem_pairs_delete, and_iff_left_iff_imp]
  rintro hrow rfl
  have := (plain.get_isSome_iff row.1).mpr ⟨row.2, hrow⟩
  simp [hkey] at this

theorem deleteOneDuplicate_absent (hd : d = true) (h : Refines base state plain)
    {key data : Bytes} (habsent : (key, data) ∉ plain.pairs) :
    Refines base state (plain.deleteOneDuplicate key data).2 := by
  subst hd
  refine h.congr_plain fun row => ?_
  rw [Database.mem_pairs_deleteOneDuplicate, and_iff_left_iff_imp]
  rintro hrow rfl
  exact habsent hrow

end Refines

/-! ## Counting a key's rows -/

theorem exactCount_map_ok (data : Bytes) : ∀ rows : List KvPair,
    exactCount data (rows.map .ok) = .ok (rows.countP (·.2 = data))
  | [] => rfl
  | row :: rest => by
    rw [map_cons, exactCount, exactCount_map_ok data rest, countP_cons]
    by_cases h : row.2 = data <;> simp [h, bind, Except.bind, pure, Except.pure]

theorem holdsExact_map_ok (data : Bytes) : ∀ rows : List KvPair,
    holdsExact data (rows.map .ok) = .ok (rows.any (·.2 = data))
  | [] => rfl
  | row :: rest => by
    rw [map_cons, holdsExact, any_cons]
    by_cases h : row.2 = data
    · simp [h]
    · rw [if_neg h, holdsExact_map_ok data rest]
      simp [h]

namespace Database

/-- The rows `getDuplicates` yields, read as a list. -/
theorem getD_getDuplicates (plain : Database true) (key : Bytes) :
    (plain.getDuplicates key).getD [] = (plain.pairs.filter fun row => row.1 = key).map .ok := by
  cases plain with
  | dupSort held =>
    rw [getDuplicates]
    change _ = (dupSort held).rowsWhere (· = key)
    cases (dupSort held).rowsWhere (· = key) <;> rfl

variable {d : Bool} (plain : Database d) (hd : d = true) (key data : Bytes)

include hd

theorem holdsExact_getDuplicates :
    ∃ found, holdsExact data ((plain.getDuplicates key).getD []) = .ok found ∧
      (found = true ↔ (key, data) ∈ plain.pairs) := by
  subst hd
  refine ⟨_, by rw [getD_getDuplicates, holdsExact_map_ok], ?_⟩
  simp only [List.any_eq_true, mem_filter, decide_eq_true_eq, Prod.exists]
  constructor
  · rintro ⟨_, _, ⟨h, rfl⟩, rfl⟩
    exact h
  · exact fun h => ⟨key, data, ⟨h, rfl⟩, rfl⟩

theorem exactCount_getDuplicates :
    ∃ count, exactCount data ((plain.getDuplicates key).getD []) = .ok count ∧
      (count ≠ 0 ↔ (key, data) ∈ plain.pairs) := by
  subst hd
  refine ⟨_, by rw [getD_getDuplicates, exactCount_map_ok], ?_⟩
  rw [ne_eq, countP_eq_zero]
  simp only [mem_filter, decide_eq_true_eq, Prod.forall, not_forall, not_not]
  constructor
  · rintro ⟨_, _, ⟨h, rfl⟩, rfl⟩
    exact h
  · exact fun h => ⟨key, data, ⟨h, rfl⟩, rfl⟩

theorem deleteOneDuplicate_fst_of_isDupsort {key data : Bytes} :
    (plain.deleteOneDuplicate key data).1 = true ↔ (key, data) ∈ plain.pairs := by
  subst hd
  exact deleteOneDuplicate_fst

end Database

/-! ## Accessors over a room that stands for a copy -/

variable [EntryLayout]

/-- The write as an accessor issues it. -/
def OverlayDb.issue (db : OverlayDb) (session : Session) :
    Write → Except Error (Option Bool × Session)
  | .put key data => do
    let session ← db.put session key data
    pure (none, session)
  | .delete key => do
    let (existed, session) ← db.delete session key
    pure (some existed, session)
  | .deleteOneDuplicate key data => do
    let (existed, session) ← db.deleteOneDuplicate session key data
    pure (some existed, session)
  | .clear => do
    let session ← db.clear session
    pure (none, session)

/-- **The accessor's reads are the reads of `plain`.** -/
structure OverlayDb.AnswersAs (db : OverlayDb) (session : Session)
    (plain : Database db.keyspace.isDupsort) : Prop where
  get : ∀ key, db.get session key = .ok (plain.get key)
  iter : db.iter session = plain.iter
  prefixIter : ∀ start, db.prefixIter session start = plain.prefixIter start
  range : ∀ start stop, db.range session start stop = plain.range start stop
  getDuplicates : db.keyspace.isDupsort = true →
    ∀ key, db.getDuplicates session key = .ok (plain.getDuplicates key)

omit [EntryLayout] in
theorem getDuplicates_eq_of_isDupsort {d : Bool} (hd : d = true) {base plain : Database d}
    {state : KeyspaceState d} (hbase : base.IdentityUnique) (h : Refines base state plain)
    (key : Bytes) : Composed.getDuplicates base state key = .ok (plain.getDuplicates key) := by
  subst hd
  exact getDuplicates_eq hbase h.holds key

omit [EntryLayout] in
theorem OverlayDb.answersAs_of_refines {db : OverlayDb} {session : Session}
    {staged : KeyspaceState db.keyspace.isDupsort} {plain : Database db.keyspace.isDupsort}
    (hview : db.view session = some staged) (hbase : (db.held session).IdentityUnique)
    (h : Refines (db.held session) staged plain) : db.AnswersAs session plain where
  get key := by
    rw [get, hview]
    exact get_eq hbase h.holds key
  iter := by
    rw [iter, hview]
    exact iter_eq hbase h.holds
  prefixIter start := by
    rw [prefixIter, hview]
    exact prefixIter_eq hbase h.holds start
  range start stop := by
    rw [range, hview]
    exact Composed.range_eq hbase h.holds start stop
  getDuplicates hd key := by
    rw [getDuplicates, hview]
    exact getDuplicates_eq_of_isDupsort hd hbase h key

/-- A view captured in the segment now open. -/
def SessionOverlay.Captured (live : SessionOverlay) (captured : OverlaySnapshot) : Prop :=
  ∃ segment, live.segment = some segment ∧ captured.segment = some segment.nonce

section Issue

variable {keyspace : OverlayKeyspace} {captured : OverlaySnapshot} {session session' : Session}
  {segment : TxnSegment} {write : Write} {answer : Option Bool}
  {plain : Database keyspace.isDupsort}

omit [EntryLayout] in
theorem OverlayDb.view_of_captured (hopen : session.live.segment = some segment)
    (hcap : captured.segment = some segment.nonce) :
    (composed keyspace captured).view session = some (segment.preview.keyspaces keyspace) := by
  simp [view, composed, readView, hcap, hopen]

/-- Every write of a composed accessor stages mutations of its keyspace, and leaves base alone. -/
theorem OverlayDb.issue_stages (hcap : session.live.Captured captured)
    (h : (composed keyspace captured).issue session write = .ok (answer, session')) :
    session'.base = session.base ∧ ∃ staged, session.live.Stages staged session'.live ∧
      ∀ mutation ∈ staged, mutation.keyspace = keyspace := by
  obtain ⟨segment, hopen, -⟩ := hcap
  cases write with
  | put key data =>
    simp only [issue, put, composed, bind_eq_ok, pure_eq_ok] at h
    obtain ⟨_, ⟨live, hput, rfl⟩, -, rfl⟩ := h
    obtain ⟨_, -, hput⟩ := bind_eq_ok.mp hput
    exact ⟨rfl, _, stages_of_stageChecked hput, by simp [OverlayMutation.keyspace]⟩
  | delete key =>
    simp only [issue, delete, composed, bind_eq_ok, pure_eq_ok] at h
    obtain ⟨⟨_, _⟩, ⟨_, -, h⟩, -, rfl⟩ := h
    split at h
    · obtain ⟨live, hdel, h⟩ := bind_eq_ok.mp h
      cases h
      exact ⟨rfl, _, stages_of_stageChecked hdel, by simp [OverlayMutation.keyspace]⟩
    · cases h
      exact ⟨rfl, [], stages_nil hopen, by simp⟩
  | deleteOneDuplicate key data =>
    simp only [issue, deleteOneDuplicate, composed, bind_eq_ok, pure_eq_ok] at h
    obtain ⟨⟨_, _⟩, ⟨_, -, _, -, h⟩, -, rfl⟩ := h
    split at h
    · obtain ⟨_, -, h⟩ := bind_eq_ok.mp h
      obtain ⟨live, hdel, h⟩ := bind_eq_ok.mp h
      cases h
      obtain ⟨_, -, hdel⟩ := bind_eq_ok.mp hdel
      exact ⟨rfl, _, stages_of_stageChecked hdel, by simp [OverlayMutation.keyspace]⟩
    · cases h
      exact ⟨rfl, [], stages_nil hopen, by simp⟩
  | clear =>
    simp only [issue, clear, composed, bind_eq_ok, pure_eq_ok] at h
    obtain ⟨_, ⟨live, hclear, rfl⟩, -, rfl⟩ := h
    exact ⟨rfl, _, stages_of_stageChecked hclear, by simp [OverlayMutation.keyspace]⟩

/-- The one mutation a checked write stages, on the preview of the open segment. -/
theorem preview_of_stageChecked {live live' : SessionOverlay} {mutation : OverlayMutation}
    {projected : OverlayState} (hopen : live.segment = some segment)
    (hm : applyMutation segment.preview mutation = .ok projected)
    (h : live.stageChecked mutation = .ok live') : live' = { live with
      segment := some { segment with
        preview := projected.recalculateBytes
        mutations := segment.mutations ++ [mutation] } } := by
  obtain ⟨segment', preview, hopen', hm', rfl⟩ := stages_of_stageChecked h
  obtain rfl := some.inj (hopen.symm.trans hopen')
  obtain ⟨projected', hp, rfl⟩ := applyMutations_singleton.mp hm'
  rw [hm, ok.injEq] at hp
  rw [hp]

/-- **One write**: the copy answers alike, and what the open segment shows stands for the copy the
write leaves. -/
theorem OverlayDb.issue_refines (hopen : session.live.segment = some segment)
    (hcap : captured.segment = some segment.nonce)
    (hbase : (session.base keyspace).IdentityUnique)
    (h : Refines (session.base keyspace) (segment.preview.keyspaces keyspace) plain)
    (hadm : write.Admissible plain)
    (hissue : (composed keyspace captured).issue session write = .ok (answer, session')) :
    answer = (write.applyTo plain).1 ∧ ∃ segment', session'.live.segment = some segment' ∧
      Refines (session.base keyspace) (segment'.preview.keyspaces keyspace)
        (write.applyTo plain).2 := by
  have hreads := answersAs_of_refines (view_of_captured hopen hcap) hbase h
  cases write with
  | put key data =>
    simp only [issue, put, composed, bind_eq_ok, pure_eq_ok] at hissue
    obtain ⟨_, ⟨live, hput, rfl⟩, rfl, rfl⟩ := hissue
    obtain ⟨_, -, hput⟩ := bind_eq_ok.mp hput
    rw [preview_of_stageChecked hopen rfl hput]
    simpa [Write.applyTo] using h.put hadm
  | delete key =>
    simp only [issue, delete, bind_eq_ok, pure_eq_ok, hreads.get] at hissue
    obtain ⟨⟨_, _⟩, hissue, rfl, rfl⟩ := hissue
    simp only [composed, bind_eq_ok, ok.injEq, exists_eq_left'] at hissue
    split at hissue
    · rename_i hget
      obtain ⟨live, hdel, hissue⟩ := bind_eq_ok.mp hissue
      cases hissue
      rw [preview_of_stageChecked hopen rfl hdel]
      refine ⟨congrArg some (plain.delete_fst key).symm, _, rfl, ?_⟩
      simpa [Write.applyTo, held] using h.delete key
    · rename_i hget
      cases hissue
      refine ⟨congrArg some (plain.delete_fst key).symm, _, hopen, ?_⟩
      exact h.delete_absent (by simpa using hget)
  | deleteOneDuplicate key data =>
    have hd : keyspace.isDupsort = true := hadm
    obtain ⟨count, hcount, hne⟩ := plain.exactCount_getDuplicates hd key data
    obtain ⟨backed, hbacked, hmem⟩ := (session.base keyspace).holdsExact_getDuplicates hd key data
    simp only [issue, deleteOneDuplicate, bind_eq_ok, pure_eq_ok, hreads.getDuplicates hd] at hissue
    obtain ⟨⟨_, _⟩, hissue, rfl, rfl⟩ := hissue
    simp only [composed, held, bind_eq_ok, ok.injEq, exists_eq_left', hcount] at hissue
    split at hissue
    · rename_i hc
      rw [hbacked] at hissue
      obtain ⟨_, heq, hissue⟩ := bind_eq_ok.mp hissue
      cases heq
      obtain ⟨live, hdel, hissue⟩ := bind_eq_ok.mp hissue
      cases hissue
      obtain ⟨_, -, hdel⟩ := bind_eq_ok.mp hdel
      obtain ⟨next, hnext, hrefines⟩ := h.deleteDuplicate_of_isDupsort hd hmem (hne.mp hc)
      rw [preview_of_stageChecked hopen (by rw [applyMutation, hnext]; rfl) hdel]
      refine ⟨congrArg some ?_, _, rfl, by simpa [Write.applyTo] using hrefines⟩
      exact ((plain.deleteOneDuplicate_fst_of_isDupsort hd).mpr (hne.mp hc)).symm
    · rename_i hc
      cases hissue
      have habsent := mt hne.mpr hc
      refine ⟨congrArg some ?_, _, hopen, h.deleteOneDuplicate_absent hd habsent⟩
      exact (Bool.eq_false_iff.mpr
        (mt (plain.deleteOneDuplicate_fst_of_isDupsort hd).mp habsent)).symm
  | clear =>
    simp only [issue, clear, composed, bind_eq_ok, pure_eq_ok] at hissue
    obtain ⟨_, ⟨live, hclear, rfl⟩, rfl, rfl⟩ := hissue
    rw [preview_of_stageChecked hopen rfl hclear]
    simpa [Write.applyTo] using Refines.clear _ _

end Issue

/-! ## The two side by side -/

/-- A room over its base, and what plain copies of one of base's databases hold. -/
structure Twin (keyspace : OverlayKeyspace) where
  session : Session
  /-- The copy with every committed segment's writes. -/
  published : Database keyspace.isDupsort
  /-- The copy with the open segment's writes as well. -/
  working : Database keyspace.isDupsort

inductive TwinOp where
  | install
  /-- A write to the copied database. -/
  | write (captured : OverlaySnapshot) (write : Write)
  /-- A write to another one. -/
  | elsewhere (other : OverlayKeyspace) (captured : OverlaySnapshot) (write : Write)
  | commit
  | abort

/-- The room over `base`, with the copies of one keyspace.  A write goes through an accessor captured
in the open segment, and counts when it is admitted. -/
def twins (keyspace : OverlayKeyspace) (base : Vault) (budgetBytes : ℕ) :
    System (Twin keyspace) TwinOp where
  init twin := twin = ⟨⟨base, .new budgetBytes⟩, base keyspace, base keyspace⟩
  step twin op next := match op with
    | .install => ∃ live, twin.session.live.installTxnSegment = .ok live ∧
        next = { twin with session := { twin.session with live } }
    | .write captured write => twin.session.live.Captured captured ∧
        write.Admissible twin.working ∧ ∃ answer session,
          (composed keyspace captured).issue twin.session write = .ok (answer, session) ∧
          next = { twin with session, working := (write.applyTo twin.working).2 }
    | .elsewhere other captured write => twin.session.live.Captured captured ∧
        other ≠ keyspace ∧ ∃ answer session,
          (composed other captured).issue twin.session write = .ok (answer, session) ∧
          next = { twin with session }
    | .commit => ∃ live, twin.session.live.commit = (.ok (), live) ∧
        next = { twin with session := { twin.session with live }, published := twin.working }
    | .abort =>
        next = { twin with
          session := { twin.session with live := twin.session.live.abort }
          working := twin.published }

section Twins

variable {keyspace : OverlayKeyspace} {base : Vault} {budgetBytes : ℕ} {twin : Twin keyspace}

/-- **The invariant.**  The published rows and the open segment's stand for the two copies, and the
segment's mutations lead from the first to the second. -/
structure Paired (base : Vault) (twin : Twin keyspace) : Prop where
  base_eq : twin.session.base = base
  published : Refines (base keyspace) (twin.session.live.state.keyspaces keyspace) twin.published
  idle : twin.session.live.segment = none → twin.working = twin.published
  replays : ∀ {segment}, twin.session.live.segment = some segment →
    applyMutations twin.session.live.state segment.mutations = .ok segment.preview
  working : ∀ {segment}, twin.session.live.segment = some segment →
    Refines (base keyspace) (segment.preview.keyspaces keyspace) twin.working

namespace Paired

theorem start : Paired base ⟨⟨base, .new budgetBytes⟩, base keyspace, base keyspace⟩ where
  base_eq := rfl
  published := .fresh _
  idle _ := rfl
  replays h := nomatch h
  working h := nomatch h

/-- What a write keeps: it only appends to the open segment. -/
theorem stages (h : Paired base twin) {session : Session}
    {working : Database keyspace.isDupsort} {staged : List OverlayMutation}
    (hbase : session.base = twin.session.base) (hst : twin.session.live.Stages staged session.live)
    (hworking : ∀ {segment}, session.live.segment = some segment →
      Refines (base keyspace) (segment.preview.keyspaces keyspace) working) :
    Paired base { twin with session, working } := by
  obtain ⟨segment, preview, hopen, hpreview, hlive⟩ := hst
  refine ⟨hbase.trans h.base_eq, ?_, ?_, ?_, hworking⟩
  · simpa [hlive] using h.published
  · simp [hlive]
  · intro segment' hopen'
    rw [hlive, some.injEq] at hopen'
    subst hopen'
    simp only [hlive]
    exact foldlM_append_eq_ok.mpr ⟨_, h.replays hopen, hpreview⟩

/-- Mutations of other keyspaces leave a keyspace's rows as they are. -/
theorem keyspaces_of_applyMutations {mutations : List OverlayMutation} {state next : OverlayState}
    (hother : ∀ mutation ∈ mutations, mutation.keyspace ≠ keyspace)
    (h : applyMutations state mutations = .ok next) :
    next.keyspaces keyspace = state.keyspaces keyspace := by
  induction mutations generalizing state with
  | nil =>
    rw [applyMutations, foldlM_nil, pure_eq_ok] at h
    rw [h]
  | cons mutation rest ih =>
    obtain ⟨mid, hm, h⟩ := bind_eq_ok.mp h
    obtain ⟨projected, hp, hm⟩ := bind_eq_ok.mp hm
    rw [pure_eq_ok] at hm
    rw [ih (fun m hmem => hother m (by simp [hmem])) h, ← hm,
      OverlayState.recalculateBytes_keyspaces,
      applyMutation_keyspaces_ne hp (hother mutation (by simp)).symm]

theorem publishEntry_keyspaces (journal : List JournalEntry) (state : OverlayState) :
    (journal.foldl publishEntry state).keyspaces = state.keyspaces := by
  induction journal generalizing state with
  | nil => rfl
  | cons entry rest ih => exact ih _

/-- **Every step keeps the invariant.** -/
theorem step (hbase : (base keyspace).IdentityUnique) {op : TwinOp} {next : Twin keyspace}
    (h : Paired base twin) (hstep : (twins keyspace base budgetBytes).step twin op next) :
    Paired base next := by
  cases op with
  | install =>
    obtain ⟨live, hlive, rfl⟩ := hstep
    unfold installTxnSegment at hlive
    split at hlive
    · cases hlive
    · rename_i hidle
      cases hlive
      refine ⟨h.base_eq, h.published, nofun, fun hs => ?_, fun hs => ?_⟩
      · cases hs; rfl
      · cases hs
        rw [h.idle hidle]
        exact h.published
  | write captured write =>
    obtain ⟨hcap, hadm, answer, session, hissue, rfl⟩ := hstep
    obtain ⟨hb, staged, hst, -⟩ := issue_stages hcap hissue
    obtain ⟨segment, hopen, hnonce⟩ := hcap
    have hwork := h.working hopen
    rw [← h.base_eq] at hwork hbase
    obtain ⟨-, segment', hopen', hrefines⟩ :=
      issue_refines hopen hnonce hbase hwork hadm hissue
    refine h.stages hb hst fun hs => ?_
    obtain rfl := some.inj (hopen'.symm.trans hs)
    rwa [← h.base_eq]
  | elsewhere other captured write =>
    obtain ⟨hcap, hne, answer, session, hissue, rfl⟩ := hstep
    obtain ⟨hb, staged, hst, hother⟩ := issue_stages hcap hissue
    refine h.stages hb hst fun hs => ?_
    obtain ⟨segment, preview, hopen, hpreview, hlive⟩ := hst
    rw [hlive, some.injEq] at hs
    subst hs
    have hkeep := keyspaces_of_applyMutations (fun m hm => hother m hm ▸ hne) hpreview
    simpa [hkeep] using h.working hopen
  | commit =>
    obtain ⟨live, hlive, rfl⟩ := hstep
    unfold commit at hlive
    split at hlive
    · cases hlive
    · rename_i segment hopen
      split at hlive
      · cases hlive
      · unfold applyPreflightedToState at hlive
        rw [h.replays hopen] at hlive
        cases hlive
        refine ⟨h.base_eq, ?_, fun _ => rfl, nofun, nofun⟩
        simpa [publishEntry_keyspaces] using h.working hopen
  | abort =>
    cases hstep
    exact ⟨h.base_eq, h.published, fun _ => rfl, nofun, nofun⟩

end Paired

/-- A base whose postings hold two values of one identity under one key. -/
def crowdedVault : Vault
  | .textPostings =>
    ((Database.dupSort ∅).put [1] (List.replicate 16 0 ++ [1])).put [1] (List.replicate 16 0 ++ [2])
  | keyspace => match keyspace.isDupsort with
    | true => .dupSort ∅
    | false => (Database.single ∅).put [1] [2]

omit [EntryLayout] in
/-- Where the answers differ: base values that share an identity are an error to a composed read, a
single duplicate is refused where there are no duplicates, and an accessor whose segment has
committed still reads what it captured. -/
theorem composed_differs :
    letI : EntryLayout := .wide
    (composed .textPostings ⟨.empty, none⟩).getDuplicates ⟨crowdedVault, .new 64⟩ [1] ≠
      .ok ((crowdedVault .textPostings).getDuplicates [1]) ∧
    (new 64).installTxnSegment.bind (fun live =>
        ((composed .entities live.snapshot).issue ⟨crowdedVault, live⟩
          (.deleteOneDuplicate [1] [2])).map Prod.fst) ≠
      .ok (Write.applyTo (.deleteOneDuplicate [1] [2]) (crowdedVault .entities)).1 ∧
    (new 64).installTxnSegment.bind (fun live =>
        ((composed .entities live.snapshot).issue ⟨crowdedVault, live⟩
          (.put [1] [3])).bind fun (_, session) =>
            (composed .entities live.snapshot).get
              { session with live := session.live.commit.2 } [1]) ≠
      .ok ((Write.applyTo (.put [1] [3]) (crowdedVault .entities)).2.get [1]) := by
  decide

/-- **The composed store refines a plain one.**  In every run over a base whose values keep distinct
identities, an accessor captured in the open segment answers as the copy with all its writes, one
captured of what is published answers as the copy of that, every admitted write answers as the same
write on the copy, and base is never written. -/
theorem composed_refines (hbase : keyspace.isDupsort = true → (base keyspace).IdentityUnique)
    (h : (twins keyspace base budgetBytes).Reachable twin) :
    twin.session.base = base ∧
    (composed keyspace ⟨twin.session.live.state, none⟩).AnswersAs twin.session
      twin.published ∧
    (twin.session.live.segment = none → twin.working = twin.published) ∧
    ∀ captured, twin.session.live.Captured captured →
      (composed keyspace captured).AnswersAs twin.session twin.working ∧
      ∀ write answer session, write.Admissible twin.working →
        (composed keyspace captured).issue twin.session write = .ok (answer, session) →
        answer = (write.applyTo twin.working).1 := by
  replace hbase := Database.identityUnique_of_isDupsort hbase
  have hp : Paired base twin :=
    h.invariant (Paired base) (fun hi => hi ▸ .start) fun hp hstep => hp.step hbase hstep
  have heq := hp.base_eq
  refine ⟨heq, ?_, hp.idle, fun captured ⟨_, hopen, hcap⟩ => ?_⟩
  · have hpub := hp.published
    rw [← heq] at hbase hpub
    exact answersAs_of_refines rfl hbase hpub
  · have hwork := hp.working hopen
    rw [← heq] at hbase hwork
    exact ⟨answersAs_of_refines (view_of_captured hopen hcap) hbase hwork,
      fun write answer session hadm hissue =>
        (issue_refines hopen hcap hbase hwork hadm hissue).1⟩

omit [EntryLayout] in
/-- …at a posting put into an open segment over the vault with nothing in it. -/
theorem composed_refines_posting :
    letI : EntryLayout := .wide
    ∃ twin : Twin .textPostings,
      twin.working.pairs = [([1], [3])] ∧ twin.published.pairs = [] ∧
      ∀ captured, twin.session.live.Captured captured →
        (composed .textPostings captured).AnswersAs twin.session twin.working := by
  let _ : EntryLayout := .wide
  have hnone : (Vault.empty .textPostings).pairs = [] := Database.pairs_empty
  have hbase : (Vault.empty .textPostings).IdentityUnique := fun _ _ _ h => by
    simp [hnone] at h
  have hopen : (twins .textPostings .empty 64).Reachable _ :=
    .step (.start rfl) (show (twins _ _ _).step _ .install _ from ⟨_, rfl, rfl⟩)
  have hput : (twins .textPostings .empty 64).Reachable _ :=
    .step hopen (show (twins _ _ _).step _
      (.write ⟨.empty, some 1⟩ (.put [1] [3])) _ from
      ⟨⟨_, rfl, rfl⟩, fun _ w h => by simp [hnone] at h, _, _, rfl, rfl⟩)
  exact ⟨_, by decide, by decide, fun captured hcap =>
    ((composed_refines (fun _ => hbase) hput).2.2.2 captured hcap).1⟩

end Twins

end Oneiron
