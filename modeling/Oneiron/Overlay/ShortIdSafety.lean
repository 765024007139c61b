import Oneiron.Foundations.XxHash32
import Oneiron.Overlay.ShortIdRetire

/-!
# Overlay/ShortIdSafety — aliases over every run of a room

    alloc --▸ preview --commit--▸ published --retire--▸ published without the pair

The published table only loses entries while a segment is open, so the segment's groups still fit it
at commit (`AliasTable.Below.fit`).  The ordinal row is no retirement's, so it only grows, and an
alias once published for an id is that id's for good.
-/

open Std

namespace Oneiron

open List Option Except SessionOverlay AliasTable.Below

variable [EntryLayout] (xxh32 : Bytes → UInt32)

/-! ## A room that allocates -/

/-- A room, the snapshots taken of it, and every state it published, the latest first. -/
structure AliasRoom where
  overlay : SessionOverlay
  captured : List OverlaySnapshot
  published : List OverlayState

inductive AliasOp where
  | install
  | alloc (id : EntityId) (data : Bytes)
  | commit
  | abort
  /-- A snapshot taken on the writer's thread. -/
  | capture
  /-- A snapshot taken on any other thread. -/
  | captureElsewhere
  | retirePromotedClosure (plan : PromotePlan) (kept : OrderedSet EntityId)
  | retireSavedArtifacts (snapshot : OverlaySnapshot) (saved documentSlots : OrderedSet EntityId)

namespace AliasOp

/-- The overlay after the call; a refused call changes nothing. -/
def result (overlay : SessionOverlay) : AliasOp → Except Error SessionOverlay
  | .install => overlay.installTxnSegment
  | .alloc id data => (overlay.allocSessionShortId xxh32 id data).map Prod.snd
  | .commit => .ok overlay.commit.2
  | .abort => .ok overlay.abort
  | .capture | .captureElsewhere => .ok overlay
  | .retirePromotedClosure plan kept => .ok (overlay.retirePromotedClosure plan kept)
  | .retireSavedArtifacts snapshot saved documentSlots =>
    .ok (overlay.retireSavedArtifacts snapshot saved documentSlots)

def perform (op : AliasOp) (overlay : SessionOverlay) : SessionOverlay :=
  match op.result xxh32 overlay with
  | .ok next => next
  | .error _ => overlay

variable {xxh32} {op : AliasOp} {overlay : SessionOverlay}

theorem perform_eq_of_ok {next : SessionOverlay} (h : op.result xxh32 overlay = .ok next) :
    op.perform xxh32 overlay = next := by
  rw [perform, h]

theorem perform_eq_of_error {e : Error} (h : op.result xxh32 overlay = .error e) :
    op.perform xxh32 overlay = overlay := by
  rw [perform, h]

/-- A retirement's snapshot is one of the room's own. -/
def Allowed (room : AliasRoom) : AliasOp → Prop
  | .retireSavedArtifacts snapshot _ _ => snapshot ∈ room.captured
  | _ => True

end AliasOp

def AliasRoom.perform (room : AliasRoom) (op : AliasOp) : AliasRoom where
  overlay := op.perform xxh32 room.overlay
  captured := match op with
    | .capture => room.overlay.snapshot :: room.captured
    | .captureElsewhere => ⟨room.overlay.state, none⟩ :: room.captured
    | _ => room.captured
  published := (op.perform xxh32 room.overlay).state :: room.published

/-- A new room under every sequence of allocations, segments and retirements. -/
def aliasRooms (budgetBytes : ℕ) : System AliasRoom AliasOp where
  init room := room = ⟨.new budgetBytes, [], [.empty]⟩
  step room op next := op.Allowed room ∧ next = room.perform xxh32 op

/-- What the room's writer reads. -/
def AliasRoom.shown (room : AliasRoom) : OverlayState := room.overlay.snapshot.state

/-! ## An allocation stages a group -/

variable {xxh32} {room : AliasRoom} {state : OverlayState} {minted last ordinal : ℕ}
  {aliases less shown : AliasTable} {hash : UInt8} {segment : TxnSegment} {short value : Bytes}
  {staged : List Alloc}

omit [EntryLayout] in
theorem lookupSingle_eq_present {keyspace : OverlayKeyspace} (hsingle : keyspace.isDupsort = false)
    {key : Bytes} : (state.keyspaces keyspace).lookupSingle key = .present value ↔
      state.present keyspace key = some value := by
  have hrows : ∀ {d : Bool} (rows : KeyspaceState d), d = false →
      (rows.lookupSingle key = .present value ↔ rows.present key = some value)
    | _, .single clearBase rows, _ => by
      simp only [KeyspaceState.lookupSingle, KeyspaceState.present]
      rcases rows[key]? with _ | _ | _
      · by_cases hclear : clearBase <;> simp [hclear]
      · simp
      · simp
    | _, .dupSort .., hd => by cases hd
  exact hrows _ hsingle

variable {overlay next : SessionOverlay} {shown : AliasTable} {id : EntityId} {data : Bytes}

theorem stages_of_stageMutationGroup {mutations : List OverlayMutation}
    (h : overlay.stageMutationGroup mutations = .ok next) : overlay.Stages mutations next := by
  simp only [stageMutationGroup, bind_eq_ok, activeSegment_eq_ok] at h
  obtain ⟨_, -, segment, hopen, _, -, _, -, hstaged⟩ := h
  exact stages_of_foldlM hopen hstaged

omit [EntryLayout] in
/-- The last ordinal is the one the state minted. -/
theorem lastSessionShortId_eq (hminted : Minted state minted) :
    lastSessionShortId state = .ok minted := by
  obtain ⟨hlt, hrow⟩ := hminted
  unfold lastSessionShortId
  by_cases hzero : minted = 0
  · rw [if_pos hzero] at hrow
    split
    · rename_i value hvalue
      rw [(lookupSingle_eq_present rfl).mp hvalue] at hrow
      cases hrow
    · rw [hzero]
  · rw [if_neg hzero] at hrow
    rw [(lookupSingle_eq_present rfl).mpr hrow]
    simp [valueOf_digits (show minted < 256 ^ 8 by omega)]

/-- **An allocation stages the group of an alias that fits the writer's view.** -/
theorem alloc_stages {short : Bytes × UInt8} (hshows : Shows overlay.snapshot.state shown)
    (hminted : Minted overlay.snapshot.state minted)
    (hle : ∀ {id ordinal hash}, shown id = some (ordinal, hash) → ordinal ≤ minted)
    (h : overlay.allocSessionShortId xxh32 id data = .ok (short, next)) :
    ∃ alloc : Alloc, alloc.id = id ∧ alloc.Fits shown ∧ alloc.InRange ∧
      ((alloc.old = none ∧ alloc.ordinal = minted + 1) ∨
        ∃ old, alloc.old = some old ∧ shown alloc.id = some (alloc.ordinal, old)) ∧
      overlay.Stages alloc.group next := by
  have hback := hshows.back_self id
  unfold allocSessionShortId at h
  dsimp only at h
  split at h
  · rename_i existing hexisting
    rw [(lookupSingle_eq_present rfl).mp hexisting] at hback
    obtain ⟨⟨ordinal, old⟩, hid, rfl⟩ := map_eq_some_iff.mp hback.symm
    obtain ⟨_, hparse, h⟩ := bind_eq_ok.mp h
    rw [parse_aliasKey] at hparse
    obtain rfl := ok.inj hparse
    obtain ⟨staged, hstaged, h⟩ := bind_eq_ok.mp h
    obtain ⟨-, rfl⟩ := Prod.mk.inj (ok.inj h)
    refine ⟨⟨id, ordinal, some old, sessionShortIdContentHash xxh32 data⟩, rfl,
      ⟨.inr ⟨old, rfl, hid⟩, fun other hash hother => hshows.distinct hother hid⟩, nofun,
      .inr ⟨old, rfl, hid⟩, ?_⟩
    exact stages_of_stageMutationGroup hstaged
  · rename_i hnone
    have hid : shown id = none := by
      cases hid : shown id with
      | none => rfl
      | some entry =>
        rw [hid, map_some, ← lookupSingle_eq_present rfl] at hback
        exact absurd hback (hnone _)
    obtain ⟨last, hlast, h⟩ := bind_eq_ok.mp h
    rw [lastSessionShortId_eq hminted] at hlast
    obtain rfl := ok.inj hlast
    split at h
    · rename_i hlt
      obtain ⟨fresh, hfresh, h⟩ := bind_eq_ok.mp h
      obtain rfl := ok.inj hfresh
      obtain ⟨staged, hstaged, h⟩ := bind_eq_ok.mp h
      obtain ⟨-, rfl⟩ := Prod.mk.inj (ok.inj h)
      refine ⟨⟨id, minted + 1, none, sessionShortIdContentHash xxh32 data⟩, rfl,
        ⟨.inl hid, fun other hash hother =>
          absurd (hle hother) (Nat.not_succ_le_self minted)⟩, fun _ => ⟨Nat.succ_pos minted, hlt⟩,
        .inl ⟨rfl, rfl⟩, ?_⟩
      exact stages_of_stageMutationGroup hstaged
    · cases h

/-! ## The invariant -/

/-- The ordinal a published state once gave an id. -/
def AliasRoom.Given (room : AliasRoom) (id : EntityId) (ordinal : ℕ) : Prop :=
  ∃ state ∈ room.published, ∃ hash,
    state.present .shortIdsReverse id.asBytes = some (aliasKey ordinal hash)

/-- What the open segment staged, over the table the room published. -/
structure SegmentAliases (room : AliasRoom) (aliases shown : AliasTable) (last : ℕ)
    (segment : TxnSegment) (staged : List Alloc) : Prop where
  mutations : segment.mutations = staged.flatMap Alloc.group
  fit : Fit aliases staged
  below : (staged.foldl Alloc.enter aliases).Below shown
  shows : Shows segment.preview shown
  minted : Minted segment.preview (staged.foldl Alloc.mint last)
  last_le : last ≤ staged.foldl Alloc.mint last
  inRange : ∀ alloc ∈ staged, alloc.InRange
  fresh : ∀ {id ordinal hash}, shown id = some (ordinal, hash) →
    (room.Given id ordinal ∨ last < ordinal) ∧ ordinal ≤ staged.foldl Alloc.mint last

omit [EntryLayout] in
theorem SegmentAliases.lose (h : SegmentAliases room aliases shown last segment staged)
    (hbelow : less.Below aliases) : SegmentAliases room less shown last segment staged :=
  { h with
    fit := hbelow.fit h.fit
    below := hbelow.enterAll.trans h.below }

/-- **One more allocation** in a segment. -/
theorem SegmentAliases.snoc {alloc : Alloc} {preview : OverlayState}
    (h : SegmentAliases room aliases shown last segment staged) (hfits : alloc.Fits shown)
    (hrange : alloc.InRange)
    (hsource : (alloc.old = none ∧ alloc.ordinal = staged.foldl Alloc.mint last + 1) ∨
      ∃ old, alloc.old = some old ∧ shown alloc.id = some (alloc.ordinal, old))
    (hpreview : applyMutations segment.preview alloc.group = .ok preview) :
    SegmentAliases room aliases (alloc.enter shown) last
      { segment with preview, mutations := segment.mutations ++ alloc.group }
      (staged ++ [alloc]) := by
  have hmint : (staged ++ [alloc]).foldl Alloc.mint last =
      alloc.mint (staged.foldl Alloc.mint last) := foldl_concat ..
  have henter : (staged ++ [alloc]).foldl Alloc.enter aliases =
      alloc.enter (staged.foldl Alloc.enter aliases) := foldl_concat ..
  have hle : staged.foldl Alloc.mint last ≤ alloc.mint (staged.foldl Alloc.mint last) := by
    rw [Alloc.mint]
    rcases hsource with ⟨hnone, hordinal⟩ | ⟨old, hold, -⟩
    · rw [if_pos hnone, hordinal]
      exact Nat.le_succ _
    · rw [hold, if_neg nofun]
  refine ⟨?_, ?_, ?_, ?_, ?_, ?_, ?_, ?_⟩
  · simp [h.mutations]
  · exact fit_append.mpr ⟨h.fit, h.below.fits hfits, trivial⟩
  · rw [henter]
    exact h.below.enter alloc
  · exact shows_group h.shows hfits hpreview
  · rw [hmint]
    exact minted_group h.minted hrange hpreview
  · rw [hmint]
    exact h.last_le.trans hle
  · intro other hother
    rcases mem_append.mp hother with hother | hother
    · exact h.inRange other hother
    · rwa [mem_singleton.mp hother]
  · intro id ordinal hash hid
    rw [hmint]
    by_cases hsame : id = alloc.id
    · subst hsame
      obtain ⟨rfl, rfl⟩ := Prod.mk.inj (some.inj (alloc.enter_self.symm.trans hid))
      rcases hsource with ⟨hnone, hordinal⟩ | ⟨old, -, hold⟩
      · -- a minted ordinal is past every one the room gave
        rw [Alloc.mint, if_pos hnone]
        refine ⟨.inr ?_, le_rfl⟩
        rw [hordinal]
        exact Nat.lt_succ_of_le h.last_le
      · exact ⟨(h.fresh hold).1, (h.fresh hold).2.trans hle⟩
    · have hshown := (alloc.enter_of_ne hsame).symm.trans hid
      exact ⟨(h.fresh hshown).1, (h.fresh hshown).2.trans hle⟩

/-- What holds of a room between calls: the tables it published and shows, and its last ordinal. -/
structure AliasSafe (room : AliasRoom) (aliases shown : AliasTable) (last : ℕ) : Prop where
  shows : Shows room.overlay.state aliases
  minted : Minted room.overlay.state last
  current : room.overlay.state ∈ room.published
  published : ∀ state ∈ room.published, ∃ table, Shows state table
  captured : ∀ snapshot ∈ room.captured, ∃ table, Shows snapshot.state table
  given_le : ∀ {id ordinal}, room.Given id ordinal → ordinal ≤ last
  given_unique : ∀ {id other ordinal}, room.Given id ordinal → room.Given other ordinal → id = other
  closed : room.overlay.segment = none → shown = aliases
  opened : ∀ {segment}, room.overlay.segment = some segment →
    ∃ staged, SegmentAliases room aliases shown last segment staged

/-- A room that is safe again, and that keeps every alias it still shows. -/
def StaysSafe (aliases shown : AliasTable) (next : AliasRoom) : Prop :=
  ∃ aliases' shown' last', AliasSafe next aliases' shown' last' ∧ aliases.Agrees aliases' ∧
    shown.Agrees shown'

namespace AliasSafe

variable {room : AliasRoom} {aliases shown : AliasTable} {last : ℕ}

section

variable (h : AliasSafe room aliases shown last)

include h

omit [EntryLayout] in
/-- The alias a room publishes is one it gave. -/
theorem given (hid : aliases id = some (ordinal, hash)) : room.Given id ordinal :=
  ⟨_, h.current, hash, h.shows.back.mpr ⟨id, ordinal, hash, hid, rfl, rfl⟩⟩

omit [EntryLayout] in
theorem shows_shown : Shows room.shown shown := by
  unfold AliasRoom.shown snapshot
  split
  · rename_i segment hopen
    obtain ⟨staged, hsegment⟩ := h.opened hopen
    exact hsegment.shows
  · rename_i hclosed
    rw [h.closed hclosed]
    exact h.shows

omit [EntryLayout] in
/-- **The two views agree** on the aliases they both show. -/
theorem agrees : aliases.Agrees shown := by
  intro id ordinal hash ordinal' hash' hid hid'
  cases hsegment : room.overlay.segment with
  | none =>
    rw [h.closed hsegment] at hid'
    exact (refl aliases).agrees hid hid'
  | some segment =>
    obtain ⟨staged, hstaged⟩ := h.opened hsegment
    obtain ⟨hash, henter⟩ := exists_enterAll hstaged.fit hid
    exact hstaged.below.agrees henter hid'

omit [EntryLayout] in
/-- A state that shows no more than the published one gives nothing new. -/
theorem given_iff {next : AliasRoom}
    (hpublished : next.published = next.overlay.state :: room.published)
    (hbelow : less.Below aliases) (hshows : Shows next.overlay.state less) :
    next.Given id ordinal ↔ room.Given id ordinal := by
  unfold AliasRoom.Given
  rw [hpublished]
  constructor
  · rintro ⟨state, hstate, hash, hrow⟩
    rcases mem_cons.mp hstate with rfl | hstate
    · obtain ⟨other, n, k, hother, hbytes, hkey⟩ := hshows.back.mp hrow
      obtain rfl := EntityId.ext hbytes
      obtain ⟨rfl, rfl⟩ := aliasKey_inj.mp hkey
      exact h.given (hbelow.eq_of_some hother)
    · exact ⟨state, hstate, hash, hrow⟩
  · rintro ⟨state, hstate, hash, hrow⟩
    exact ⟨state, mem_cons_of_mem _ hstate, hash, hrow⟩

omit [EntryLayout] in
/-- A room that publishes no more than before stays safe. -/
theorem lose {next : AliasRoom} {shown' : AliasTable}
    (hpublished : next.published = next.overlay.state :: room.published)
    (hbelow : less.Below aliases) (hshows : Shows next.overlay.state less)
    (hminted : Minted next.overlay.state last)
    (hcaptured : ∀ snapshot ∈ next.captured, ∃ table, Shows snapshot.state table)
    (hclosed : next.overlay.segment = none → shown' = less)
    (hopened : ∀ {segment}, next.overlay.segment = some segment →
      ∃ staged, SegmentAliases room less shown' last segment staged) :
    AliasSafe next less shown' last := by
  have hgiven {id : EntityId} {ordinal : ℕ} : next.Given id ordinal ↔ room.Given id ordinal :=
    h.given_iff hpublished hbelow hshows
  refine ⟨hshows, hminted, hpublished ▸ mem_cons_self, fun state hstate => ?_, hcaptured,
    fun hid => h.given_le (hgiven.mp hid),
    fun hid hother => h.given_unique (hgiven.mp hid) (hgiven.mp hother), hclosed, fun hopen => ?_⟩
  · rcases mem_cons.mp (hpublished ▸ hstate) with rfl | hstate
    · exact ⟨less, hshows⟩
    · exact h.published state hstate
  · obtain ⟨staged, hsegment⟩ := hopened hopen
    exact ⟨staged, { hsegment with
      fresh := fun hid => ⟨(hsegment.fresh hid).1.imp_left hgiven.mpr, (hsegment.fresh hid).2⟩ }⟩

omit [EntryLayout] in
/-- A room whose overlay stays as it was. -/
theorem stay {next : AliasRoom} (hoverlay : next.overlay = room.overlay)
    (hpublished : next.published = next.overlay.state :: room.published)
    (hcaptured : ∀ snapshot ∈ next.captured, ∃ table, Shows snapshot.state table) :
    StaysSafe aliases shown next := by
  refine ⟨aliases, shown, last, ?_, (refl _).agrees, (refl _).agrees⟩
  refine h.lose hpublished (.refl aliases) ?_ ?_ hcaptured ?_ ?_ <;> rw [hoverlay]
  · exact h.shows
  · exact h.minted
  · exact h.closed
  · exact h.opened

omit [EntryLayout] in
/-- A segment dropped. -/
theorem abort {next : AliasRoom} (hoverlay : next.overlay = room.overlay.abort)
    (hpublished : next.published = next.overlay.state :: room.published)
    (hcaptured : next.captured = room.captured) : StaysSafe aliases shown next := by
  refine ⟨aliases, aliases, last, ?_, (refl _).agrees,
    fun hid hid' => (h.agrees hid' hid).symm⟩
  refine h.lose hpublished (.refl aliases) ?_ ?_ (hcaptured ▸ h.captured) ?_ ?_ <;> rw [hoverlay]
  · exact h.shows
  · exact h.minted
  · exact fun _ => rfl
  · exact nofun

omit [EntryLayout] in
/-- A segment opened. -/
theorem install {next : AliasRoom} (hoverlay : room.overlay.installTxnSegment = .ok next.overlay)
    (hpublished : next.published = next.overlay.state :: room.published)
    (hcaptured : next.captured = room.captured) : StaysSafe aliases shown next := by
  refine ⟨aliases, shown, last, ?_, (refl _).agrees, (refl _).agrees⟩
  unfold installTxnSegment at hoverlay
  split at hoverlay
  · cases hoverlay
  · rename_i hclosed
    obtain rfl := h.closed hclosed
    have hnext := (ok.inj hoverlay).symm
    refine h.lose hpublished (.refl _) ?_ ?_ (hcaptured ▸ h.captured) ?_ ?_ <;> rw [hnext]
    · exact h.shows
    · exact h.minted
    · exact nofun
    · rintro _ ⟨⟩
      exact ⟨[], {
        mutations := rfl
        fit := trivial
        below := .refl _
        shows := h.shows
        minted := h.minted
        last_le := le_rfl
        inRange := fun _ hmem => absurd hmem not_mem_nil
        fresh := fun hid => ⟨.inl (h.given hid), h.given_le (h.given hid)⟩ }⟩

/-- An alias allocated. -/
theorem alloc {next : AliasRoom} {data : Bytes} {short : Bytes × UInt8}
    (hoverlay : room.overlay.allocSessionShortId xxh32 id data = .ok (short, next.overlay))
    (hpublished : next.published = next.overlay.state :: room.published)
    (hcaptured : next.captured = room.captured) : StaysSafe aliases shown next := by
  cases hsegment : room.overlay.segment with
  | none =>
    have hview : room.overlay.snapshot.state = room.overlay.state := by
      rw [snapshot, hsegment]
    obtain ⟨_, -, -, -, -, segment, _, hopen, -⟩ := alloc_stages (hview ▸ h.shows)
      (hview ▸ h.minted) (fun hid => h.given_le (h.given hid)) hoverlay
    cases hsegment.symm.trans hopen
  | some segment =>
    obtain ⟨staged, hstaged⟩ := h.opened hsegment
    have hview : room.overlay.snapshot.state = segment.preview := by
      rw [snapshot, hsegment]
    obtain ⟨alloc, rfl, hfits, hrange, hsource, segment', preview, hopen, hpreview, hnext⟩ :=
      alloc_stages (hview ▸ hstaged.shows) (hview ▸ hstaged.minted)
        (fun hid => (hstaged.fresh hid).2) hoverlay
    obtain rfl := some.inj (hsegment.symm.trans hopen)
    refine ⟨aliases, alloc.enter shown, last, ?_, (refl _).agrees, fun hid hid' => ?_⟩
    · refine h.lose hpublished (.refl _) ?_ ?_ (hcaptured ▸ h.captured) ?_ ?_ <;> rw [hnext]
      · exact h.shows
      · exact h.minted
      · exact nofun
      · rintro _ ⟨⟩
        exact ⟨staged ++ [alloc], hstaged.snoc hfits hrange hsource hpreview⟩
    · obtain ⟨hash, henter⟩ := hfits.exists_enter hid
      exact (refl _).agrees henter hid'

/-- A segment published. -/
theorem publish {next : AliasRoom} (hsegment : room.overlay.segment = some segment)
    (hstate : applyPreflightedToState room.overlay.state segment.mutations
      segment.journal = .ok state)
    (hoverlay : next.overlay = { room.overlay with state, segment := none })
    (hpublished : next.published = next.overlay.state :: room.published)
    (hcaptured : next.captured = room.captured) : StaysSafe aliases shown next := by
  obtain ⟨staged, hstaged⟩ := h.opened hsegment
  obtain ⟨mid, hmid, hstate⟩ := bind_eq_ok.mp hstate
  rw [hstaged.mutations] at hmid
  have hsame : SameAliases mid state := by
    obtain rfl := ok.inj hstate
    have hentry (entry : JournalEntry) (state : OverlayState) :
        SameAliases state (publishEntry state entry) :=
      ⟨fun _ => rfl, fun _ => rfl, rfl⟩
    exact .foldl (fun entry _ state => hentry entry state) mid
  have hshows := hsame.shows (shows_groups h.shows hstaged.fit hmid)
  have hminted := minted_groups h.minted hstaged.inRange hmid
  have hentered {id : EntityId} {ordinal : ℕ} {hash : UInt8}
      (hid : staged.foldl Alloc.enter aliases id = some (ordinal, hash)) :=
    hstaged.fresh (hstaged.below.eq_of_some hid)
  -- what the commit gives is what it shows, and what the room gave before
  have hgiven {id : EntityId} {ordinal : ℕ} : next.Given id ordinal →
      room.Given id ordinal ∨ ∃ hash, staged.foldl Alloc.enter aliases id = some (ordinal, hash) := by
    rintro ⟨given, hmem, hash, hrow⟩
    rw [hpublished, hoverlay] at hmem
    rcases mem_cons.mp hmem with rfl | hmem
    · obtain ⟨other, n, k, hother, hbytes, hkey⟩ := hshows.back.mp hrow
      obtain rfl := EntityId.ext hbytes
      obtain ⟨rfl, rfl⟩ := aliasKey_inj.mp hkey
      exact .inr ⟨_, hother⟩
    · exact .inl ⟨given, hmem, hash, hrow⟩
  refine ⟨staged.foldl Alloc.enter aliases, staged.foldl Alloc.enter aliases,
    staged.foldl Alloc.mint last, ?_, fun hid hid' => ?_,
    fun hid hid' => (hstaged.below.agrees hid' hid).symm⟩
  · refine ⟨hoverlay ▸ hshows, ?_, hpublished ▸ mem_cons_self, fun given hmem => ?_,
      hcaptured ▸ h.captured, fun hid => ?_, fun hid hother => ?_, fun _ => rfl, fun hopen => ?_⟩
    · rw [hoverlay]
      exact ⟨hminted.1, hsame.ordinal.trans hminted.2⟩
    · rw [hpublished, hoverlay] at hmem
      rcases mem_cons.mp hmem with rfl | hmem
      · exact ⟨_, hshows⟩
      · exact h.published given hmem
    · rcases hgiven hid with hid | ⟨hash, hid⟩
      · exact (h.given_le hid).trans hstaged.last_le
      · exact (hentered hid).2
    · -- an ordinal the room had given is not one of those minted since
      have hmixed {id other : EntityId} {ordinal : ℕ} {hash : UInt8} (hid : room.Given id ordinal)
          (hother : staged.foldl Alloc.enter aliases other = some (ordinal, hash)) : id = other := by
        rcases (hentered hother).1 with hgiven' | hlt
        · exact h.given_unique hid hgiven'
        · exact absurd (h.given_le hid) hlt.not_ge
      rcases hgiven hid with hid | ⟨hash, hid⟩ <;> rcases hgiven hother with hother | ⟨hash', hother⟩
      · exact h.given_unique hid hother
      · exact hmixed hid hother
      · exact (hmixed hother hid).symm
      · exact hshows.distinct hid hother
    · rw [hoverlay] at hopen
      cases hopen
  · obtain ⟨hash, henter⟩ := exists_enterAll hstaged.fit hid
    exact (refl _).agrees henter hid'

/-- A commit publishes its segment, or drops it. -/
theorem commit {next : AliasRoom} (hoverlay : next.overlay = room.overlay.commit.2)
    (hpublished : next.published = next.overlay.state :: room.published)
    (hcaptured : next.captured = room.captured) : StaysSafe aliases shown next := by
  unfold SessionOverlay.commit at hoverlay
  split at hoverlay
  · exact h.stay hoverlay hpublished (hcaptured ▸ h.captured)
  · rename_i segment hsegment
    split at hoverlay
    · exact h.abort hoverlay hpublished hcaptured
    · split at hoverlay
      · exact h.abort hoverlay hpublished hcaptured
      · rename_i state hstate
        exact h.publish hsegment hstate hoverlay hpublished hcaptured

omit [EntryLayout] in
/-- Pairs retired from what the room published. -/
theorem retire {next : AliasRoom} (hloses : Loses aliases room.overlay.state state)
    (hoverlay : next.overlay = { room.overlay with state })
    (hpublished : next.published = next.overlay.state :: room.published)
    (hcaptured : next.captured = room.captured) : StaysSafe aliases shown next := by
  obtain ⟨⟨less, hbelow, hshows⟩, hordinal⟩ := hloses
  have hsafe {shown' : AliasTable} (hclosed : room.overlay.segment = none → shown' = less)
      (hopened : ∀ {segment}, room.overlay.segment = some segment → shown' = shown) :
      AliasSafe next less shown' last := by
    refine h.lose hpublished hbelow ?_ ?_ (hcaptured ▸ h.captured) ?_ ?_ <;> rw [hoverlay]
    · exact hshows
    · exact ⟨h.minted.1, hordinal.trans h.minted.2⟩
    · exact hclosed
    · intro segment hopen
      obtain ⟨staged, hstaged⟩ := h.opened hopen
      rw [hopened hopen]
      exact ⟨staged, hstaged.lose hbelow⟩
  cases hsegment : room.overlay.segment with
  | none =>
    obtain rfl := h.closed hsegment
    refine ⟨less, less, last, hsafe (fun _ => rfl) fun hopen => ?_, ?_, ?_⟩
    · cases hsegment.symm.trans hopen
    · exact fun hid hid' => (hbelow.agrees hid' hid).symm
    · exact fun hid hid' => (hbelow.agrees hid' hid).symm
  | some segment =>
    refine ⟨less, shown, last, hsafe (fun hclosed => ?_) fun _ => rfl, ?_,
      (refl _).agrees⟩
    · cases hsegment.symm.trans hclosed
    · exact fun hid hid' => (hbelow.agrees hid' hid).symm

end

/-- **Every call keeps a room safe**, and every alias it still shows. -/
theorem step (h : AliasSafe room aliases shown last) {op : AliasOp} (hallowed : op.Allowed room) :
    StaysSafe aliases shown (room.perform xxh32 op) := by
  have hcaptured : ∀ snapshot ∈ (room.perform xxh32 op).captured, ∃ table, Shows snapshot.state table := by
    cases op with
    | capture => exact forall_mem_cons.mpr ⟨⟨shown, h.shows_shown⟩, h.captured⟩
    | captureElsewhere => exact forall_mem_cons.mpr ⟨⟨aliases, h.shows⟩, h.captured⟩
    | _ => exact h.captured
  cases hresult : op.result xxh32 room.overlay with
  | error e => exact h.stay (AliasOp.perform_eq_of_error hresult) rfl hcaptured
  | ok overlay =>
    have hoverlay : (room.perform xxh32 op).overlay = overlay := AliasOp.perform_eq_of_ok hresult
    cases op with
    | install => exact h.install (hresult.trans (congrArg _ hoverlay.symm)) rfl rfl
    | alloc id data =>
      simp only [AliasOp.result] at hresult
      cases halloc : room.overlay.allocSessionShortId xxh32 id data with
      | error e =>
        rw [halloc] at hresult
        cases hresult
      | ok allocated =>
        rw [halloc] at hresult
        obtain rfl := ok.inj hresult
        exact h.alloc (halloc.trans (by rw [hoverlay])) rfl rfl
    | commit => exact h.commit rfl rfl rfl
    | abort => exact h.abort rfl rfl rfl
    | capture | captureElsewhere => exact h.stay rfl rfl hcaptured
    | retirePromotedClosure plan kept =>
      exact h.retire (.retirePromoted plan kept h.shows) rfl rfl rfl
    | retireSavedArtifacts snapshot saved documentSlots =>
      obtain ⟨table, hsnapshot⟩ := h.captured snapshot hallowed
      exact h.retire (.retireSaved hsnapshot saved documentSlots h.shows) rfl rfl rfl

omit [EntryLayout] in
/-- A new room is safe. -/
theorem new (budgetBytes : ℕ) :
    AliasSafe ⟨.new budgetBytes, [], [.empty]⟩ (fun _ => none) (fun _ => none) 0 := by
  have hnone (keyspace : OverlayKeyspace) (key : Bytes) :
      OverlayState.empty.present keyspace key = none := by
    cases keyspace <;> rfl
  have hshows : Shows .empty fun _ => none := by
    refine ⟨?_, ?_, nofun⟩
    · simp [hnone]
    · simp [hnone]
  refine ⟨hshows, ⟨by omega, hnone _ _⟩, mem_cons_self, ?_, ?_, ?_, ?_, fun _ => rfl, nofun⟩
  · exact forall_mem_singleton.mpr ⟨_, hshows⟩
  · exact fun _ hmem => absurd hmem not_mem_nil
  · rintro id ordinal ⟨state, hmem, hash, hrow⟩
    rw [mem_singleton.mp hmem, hnone] at hrow
    cases hrow
  · rintro id other ordinal ⟨state, hmem, hash, hrow⟩
    rw [mem_singleton.mp hmem, hnone] at hrow
    cases hrow

end AliasSafe

/-- **A room is safe however it was reached.** -/
theorem aliasSafe_of_reachable {budgetBytes : ℕ} (h : (aliasRooms xxh32 budgetBytes).Reachable room) :
    ∃ aliases shown last, AliasSafe room aliases shown last := by
  refine h.invariant (fun room => ∃ aliases shown last, AliasSafe room aliases shown last) ?_ ?_
  · rintro _ rfl
    exact ⟨_, _, _, .new budgetBytes⟩
  · rintro room op _ ⟨aliases, shown, last, hsafe⟩ ⟨hallowed, rfl⟩
    obtain ⟨aliases', shown', last', hnext, -⟩ := hsafe.step hallowed
    exact ⟨aliases', shown', last', hnext⟩

/-! ## Aliases over a run -/

/-- The alias a state has an id under. -/
def aliasOf (state : OverlayState) (id : EntityId) : Option Bytes :=
  (state.present .shortIdsReverse id.asBytes).map List.dropLast

omit [EntryLayout] in
theorem Shows.aliasOf_eq (h : Shows state aliases) (id : EntityId) :
    aliasOf state id = (aliases id).map fun entry => sessionShortIdAt entry.1 := by
  rw [aliasOf, h.back_self, Option.map_map]
  congr 1
  funext entry
  exact dropLast_concat

/-- What the room published, and what its writer reads. -/
def AliasRoom.views (room : AliasRoom) : List OverlayState := [room.overlay.state, room.shown]

omit [EntryLayout] in
theorem encodeSessionShortIdForwardKey_eq_aliasKey {hash' : UInt8} :
    encodeSessionShortIdForwardKey short hash = aliasKey ordinal hash' ↔
      short = sessionShortIdAt ordinal ∧ hash = hash' := by
  unfold aliasKey encodeSessionShortIdForwardKey
  constructor
  · intro heq
    obtain ⟨htext, hhash⟩ := append_inj' heq rfl
    exact ⟨htext, by simpa using hhash⟩
  · rintro ⟨rfl, rfl⟩
    rfl

omit [EntryLayout] in
/-- The forward row of an alias. -/
theorem Shows.forward_alias (h : Shows state aliases) :
    state.present .shortIds (encodeSessionShortIdForwardKey short hash) = some value ↔
      ∃ id ordinal, aliases id = some (ordinal, hash) ∧ short = sessionShortIdAt ordinal ∧
        value = id.asBytes := by
  rw [h.forward]
  constructor
  · rintro ⟨id, ordinal, hash', hid, hkey, rfl⟩
    obtain ⟨hshort, rfl⟩ := encodeSessionShortIdForwardKey_eq_aliasKey.mp hkey
    exact ⟨id, ordinal, hid, hshort, rfl⟩
  · rintro ⟨id, ordinal, hid, hshort, rfl⟩
    exact ⟨id, ordinal, hash, hid, encodeSessionShortIdForwardKey_eq_aliasKey.mpr ⟨hshort, rfl⟩, rfl⟩

/-- Aliases and ids are one to one in a state. -/
structure AliasBijection (state : OverlayState) : Prop where
  /-- The forward and the backward rows are one another's inverse. -/
  inverse : ∀ key value, state.present .shortIds key = some value ↔
    state.present .shortIdsReverse value = some key
  /-- A backward row is an id's, and names one alias and one hash. -/
  back : ∀ key value, state.present .shortIdsReverse key = some value →
    ∃ (id : EntityId) (ordinal : ℕ) (hash : UInt8), key = id.asBytes ∧
      value = encodeSessionShortIdForwardKey (sessionShortIdAt ordinal) hash
  /-- An alias is one id's, at one hash. -/
  forward : ∀ short hash hash' value value',
    state.present .shortIds (encodeSessionShortIdForwardKey short hash) = some value →
    state.present .shortIds (encodeSessionShortIdForwardKey short hash') = some value' →
      hash = hash' ∧ value = value'

omit [EntryLayout] in
theorem Shows.aliasBijection (h : Shows state aliases) : AliasBijection state where
  inverse key value := h.forward_iff_back
  back key value hrow := by
    obtain ⟨id, ordinal, hash, -, hkey, hvalue⟩ := h.back.mp hrow
    exact ⟨id, ordinal, hash, hkey, hvalue⟩
  forward short hash hash' value value' hrow hrow' := by
    obtain ⟨id, ordinal, hid, hshort, rfl⟩ := h.forward_alias.mp hrow
    obtain ⟨other, ordinal', hother, hshort', rfl⟩ := h.forward_alias.mp hrow'
    obtain rfl := sessionShortIdAt_injective (hshort.symm.trans hshort')
    obtain rfl := h.distinct hid hother
    exact ⟨(Prod.mk.inj (some.inj (hid.symm.trans hother))).2, rfl⟩

omit [EntryLayout] in
/-- Two states whose tables agree have an id they both show under one alias. -/
theorem AliasTable.Agrees.aliasOf_eq {next : OverlayState} {later : AliasTable}
    (h : aliases.Agrees later) (hshows : Shows state aliases) (hshows' : Shows next later)
    (hshort : aliasOf state id = some short) (hsome : (aliasOf next id).isSome) :
    aliasOf next id = some short := by
  rw [hshows.aliasOf_eq, map_eq_some_iff] at hshort
  obtain ⟨⟨ordinal, hash⟩, hid, rfl⟩ := hshort
  obtain ⟨short', hshort'⟩ := isSome_iff_exists.mp hsome
  rw [hshort']
  rw [hshows'.aliasOf_eq, map_eq_some_iff] at hshort'
  obtain ⟨⟨ordinal', hash'⟩, hid', rfl⟩ := hshort'
  rw [h hid hid']

/-- **Session aliases** — in every room, however it was reached: aliases and ids are one to one in
what is published and in what the writer reads; an id keeps its alias, in either, along every run that
keeps the id there; and an alias published for one id is never published for another. -/
theorem session_aliases {budgetBytes : ℕ} {room : AliasRoom}
    (h : (aliasRooms xxh32 budgetBytes).Reachable room) :
    (∀ state ∈ room.views, AliasBijection state) ∧
    (∀ view ∈ [fun room : AliasRoom => room.overlay.state, AliasRoom.shown], ∀ id ops later,
      ((aliasRooms xxh32 budgetBytes).restrict fun room op =>
        (aliasOf (view (room.perform xxh32 op)) id).isSome).Run room ops later →
        ∀ short, aliasOf (view room) id = some short → aliasOf (view later) id = some short) ∧
    ∀ state ∈ room.published, ∀ state' ∈ room.published, ∀ short hash hash' value value',
      state.present .shortIds (encodeSessionShortIdForwardKey short hash) = some value →
      state'.present .shortIds (encodeSessionShortIdForwardKey short hash') = some value' →
        value = value' := by
  obtain ⟨aliases, shown, last, hsafe⟩ := aliasSafe_of_reachable h
  refine ⟨?_, fun view hview id ops later hrun short hshort => ?_, ?_⟩
  · intro state hstate
    simp only [AliasRoom.views, mem_cons, not_mem_nil, or_false] at hstate
    rcases hstate with rfl | rfl
    · exact hsafe.shows.aliasBijection
    · exact hsafe.shows_shown.aliasBijection
  · -- along the run: reachable, and the id under its alias
    refine (hrun.preserves (fun room => (aliasRooms xxh32 budgetBytes).Reachable room ∧
      aliasOf (view room) id = some short) ?_ ⟨h, hshort⟩).2
    rintro room op _ ⟨hreach, hshort⟩ ⟨hstep, hsome⟩
    refine ⟨.step hreach hstep, ?_⟩
    obtain ⟨aliases, shown, last, hsafe⟩ := aliasSafe_of_reachable hreach
    obtain ⟨hallowed, rfl⟩ := hstep
    obtain ⟨aliases', shown', last', hnext, hagrees, hagrees'⟩ := hsafe.step hallowed
    simp only [mem_cons, not_mem_nil, or_false] at hview
    rcases hview with rfl | rfl
    · exact hagrees.aliasOf_eq hsafe.shows hnext.shows hshort hsome
    · exact hagrees'.aliasOf_eq hsafe.shows_shown hnext.shows_shown hshort hsome
  · intro state hstate state' hstate' short hash hash' value value' hrow hrow'
    obtain ⟨table, hshows⟩ := hsafe.published state hstate
    obtain ⟨table', hshows'⟩ := hsafe.published state' hstate'
    obtain ⟨id, ordinal, hid, rfl, rfl⟩ := hshows.forward_alias.mp hrow
    obtain ⟨other, ordinal', hother, hshort, rfl⟩ := hshows'.forward_alias.mp hrow'
    obtain rfl := sessionShortIdAt_injective hshort
    have hgiven : room.Given id ordinal :=
      ⟨state, hstate, hash, hshows.back.mpr ⟨id, ordinal, hash, hid, rfl, rfl⟩⟩
    have hgiven' : room.Given other ordinal :=
      ⟨state', hstate', hash', hshows'.back.mpr ⟨other, ordinal, hash', hother, rfl, rfl⟩⟩
    rw [hsafe.given_unique hgiven hgiven']

/-- Two aliases published, the second at a changed body, the first retired, and a third id. -/
def aliasCalls : List AliasOp :=
  [.install, .alloc (.filled 1) [7], .alloc (.filled 2) [8], .commit,
    .install, .alloc (.filled 2) [9], .commit, .retirePromotedClosure turnPlan turnKept,
    .install, .alloc (.filled 3) [7], .commit]

/-- The room after them. -/
def aliasedRoom : AliasRoom :=
  aliasCalls.foldl (AliasRoom.perform XxHash32.hash) ⟨.new 4096, [], [.empty]⟩

omit [EntryLayout] in
/-- …in a room that has retired `s1`. -/
theorem session_aliases_retired :
    letI : EntryLayout := .wide
    [.filled 1, .filled 2, .filled 3].map (aliasOf aliasedRoom.overlay.state) =
        [none, some (ascii "s2"), some (ascii "s3")] ∧
      AliasBijection aliasedRoom.overlay.state ∧
      ∀ state ∈ aliasedRoom.published, ∀ hash value, state.present .shortIds
        (encodeSessionShortIdForwardKey (ascii "s1") hash) = some value →
          value = (EntityId.filled 1).asBytes := by
  let _ : EntryLayout := .wide
  have hrun : (aliasRooms XxHash32.hash 4096).Run ⟨.new 4096, [], [.empty]⟩ aliasCalls
      aliasedRoom := by
    iterate 11 refine .cons ⟨trivial, rfl⟩ ?_
    exact .nil _
  have hreach := hrun.reachable (.start rfl)
  have haliases : [.filled 1, .filled 2, .filled 3].map (aliasOf aliasedRoom.overlay.state) =
      [none, some (ascii "s2"), some (ascii "s3")] := by decide +kernel
  have hgiven : aliasedRoom.published.any (fun state => state.present .shortIds
      (encodeSessionShortIdForwardKey (ascii "s1") (sessionShortIdContentHash XxHash32.hash [7])) =
        some (EntityId.filled 1).asBytes) = true := by decide +kernel
  -- the room is no longer to be run
  generalize aliasedRoom = room at *
  obtain ⟨hviews, -, honce⟩ := session_aliases hreach
  obtain ⟨first, hfirst, hrow⟩ := any_eq_true.mp hgiven
  exact ⟨haliases, hviews _ mem_cons_self, fun state hstate hash value hvalue =>
    honce state hstate first hfirst _ _ _ _ _ hvalue (of_decide_eq_true hrow)⟩

end Oneiron
