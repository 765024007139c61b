import Oneiron.Authority.SpentJournal

/-!
# Authority/SpentHeld — what the set in memory holds, and what its calls leave of it

A proof spent in memory is held, past its slip's window too, until its rows land.  Each call is given
by what it leaves: the proofs held, those staged, the journal and its records.
-/

open Std

namespace Oneiron

open Std.ExtTreeMap CrashFile

open SpendJournal (Holds Keeps recordLen recordCells)

namespace Nonces

variable {nonces after : Nonces} {k key : SpentKey} {xxh32 : Bytes → UInt32}
variable {file file' : Option SpendJournal.File} {fault : Option FileFault} {unread : Bool}

/-- Spent in memory, its rows not landed. -/
def Holding (nonces : Nonces) (k : SpentKey) : Prop :=
  k ∈ nonces.admitted ∨ k ∈ nonces.expiredUnlanded

theorem not_holding_of_drained (h : nonces.drained = true) : ¬nonces.Holding k := by
  simp only [drained, Bool.and_eq_true] at h
  rintro (hk | hk)
  · rw [ExtTreeMap.isEmpty_iff.mp h.1.1] at hk
    exact not_mem_empty hk
  · rw [ExtTreeSet.isEmpty_iff.mp h.1.2] at hk
    exact ExtTreeSet.not_mem_empty hk

/-- What lets no held proof go, and touches nothing else. -/
structure Retains (nonces after : Nonces) : Prop where
  held : ∀ k, nonces.Holding k → after.Holding k
  staged : after.staged = nonces.staged
  journal : after.journal = nonces.journal
  liveHigh : after.liveHigh = nonces.liveHigh

theorem retains_expire (nonces : Nonces) (gone : U64 × SpentKey) : nonces.Retains (nonces.expire gone) where
  held k hk := by
    by_cases heq : gone.2 = k
    · exact Or.inr (ExtTreeSet.mem_insert.mpr (Or.inl (Std.compare_eq_iff_eq.mpr heq)))
    · rcases hk with hk | hk
      · exact Or.inl (mem_erase.mpr ⟨by simpa [Std.compare_eq_iff_eq] using heq, hk⟩)
      · exact Or.inr (ExtTreeSet.mem_insert.mpr (Or.inr hk))
  staged := rfl
  journal := rfl
  liveHigh := rfl

/-- **Entries past their window stay held.** -/
theorem retains_leaveBefore (nonces : Nonces) (now : U64) : nonces.Retains (nonces.leaveBefore now) := by
  rw [leaveBefore]
  generalize nonces.leaving.toList.takeWhile _ = gone
  induction gone generalizing nonces with
  | nil => exact ⟨fun _ => id, rfl, rfl, rfl⟩
  | cons first rest ih =>
    have hfirst := retains_expire nonces first
    have hrest := ih (nonces.expire first)
    exact ⟨fun k hk => hrest.held k (hfirst.held k hk), hrest.staged.trans hfirst.staged,
      hrest.journal.trans hfirst.journal, hrest.liveHigh.trans hfirst.liveHigh⟩

/-- An entry that leaves lets no other go. -/
theorem holding_leave (h : nonces.Holding k) (hne : k ≠ key) : (nonces.leave key).Holding k := by
  have hkey : ¬compare key k = .eq := fun heq => hne (Std.compare_eq_iff_eq.mp heq).symm
  rcases h with hk | hk
  · left
    rw [leave]
    cases nonces.admitted[key]? with
    | none => exact hk
    | some ends => exact mem_erase.mpr ⟨hkey, hk⟩
  · right
    rw [leave]
    cases nonces.admitted[key]? with
    | none | some ends => exact ExtTreeSet.mem_erase.mpr ⟨hkey, hk⟩

theorem leave_others (nonces : Nonces) (key : SpentKey) : (nonces.leave key).staged = nonces.staged ∧
    (nonces.leave key).journal = nonces.journal ∧ (nonces.leave key).liveHigh = nonces.liveHigh := by
  rw [leave]
  cases nonces.admitted[key]? <;> exact ⟨rfl, rfl, rfl⟩

/-! ### The journal under the calls -/

/-- An open journal is linked, and ends at a whole record. -/
def Opened (nonces : Nonces) (file : Option SpendJournal.File) : Prop :=
  nonces.journal = true →
    ∃ f, file = some f ∧ f.linked = true ∧ recordLen ∣ f.content.length

/-- What a call leaves of the journal, and of the slots. -/
structure Journals (after : Nonces) (file file' : Option SpendJournal.File)
    (concat : (List (List SpendJournal.Cell) → Prop) → Prop) : Prop where
  opened : after.Opened file'
  holds : ∀ P, Holds P file → P [] → concat P → Holds P file'
  keeps : ∀ P, Keeps P file → concat P → Keeps P file'

/-- A call that appends nothing. -/
abbrev Untouched (after : Nonces) (file file' : Option SpendJournal.File) : Prop :=
  after.Journals file file' fun _ => True

theorem Opened.untouched (h : nonces.Opened file) (hjournal : after.journal = nonces.journal) :
    after.Untouched file file where
  opened hopen := h (hjournal ▸ hopen)
  holds _ hP _ _ := hP
  keeps _ hP _ := hP

/-- What holds without a record appended holds with one. -/
theorem Untouched.journals {concat : (List (List SpendJournal.Cell) → Prop) → Prop}
    (h : after.Untouched file file') : after.Journals file file' concat where
  opened := h.opened
  holds P hP hnil _ := h.holds P hP hnil trivial
  keeps P hP _ := h.keeps P hP trivial

/-- Opening the journal moves nothing else. -/
structure OpensOnly (nonces after : Nonces) : Prop where
  admitted : after.admitted = nonces.admitted
  expiredUnlanded : after.expiredUnlanded = nonces.expiredUnlanded
  staged : after.staged = nonces.staged
  queuing : after.queuing = nonces.queuing
  liveHigh : after.liveHigh = nonces.liveHigh

theorem openJournalIfNeeded_leaves {opened : Bool} (hon : nonces.Opened file)
    (h : nonces.openJournalIfNeeded xxh32 fault unread file = (opened, after, file')) :
    nonces.OpensOnly after ∧ after.Untouched file file' ∧
      (opened = true → after.journal = true) := by
  rw [openJournalIfNeeded] at h
  by_cases hjournal : nonces.journal = true
  · rw [if_pos hjournal] at h
    cases h
    exact ⟨⟨rfl, rfl, rfl, rfl, rfl⟩, hon.untouched rfl, fun _ => hjournal⟩
  rw [if_neg hjournal] at h
  have hholds {P : List (List SpendJournal.Cell) → Prop} (hP : Holds P file) (hnil : P []) :=
    openForAppend_holds fault true (by decide : 0 < recordLen) hP
      hnil
  have hkeeps {P : List (List SpendJournal.Cell) → Prop} (hP : Keeps P file) :=
    openForAppend_keeps fault true (by decide : 0 < recordLen) hP
  cases hopen : CrashFile.openForAppend recordLen fault true file with
  | error left =>
    simp only [hopen] at h hholds hkeeps
    cases h
    exact ⟨⟨rfl, rfl, rfl, rfl, rfl⟩, ⟨fun hj => absurd hj hjournal, fun _ hP hnil _ => hholds hP hnil,
      fun _ hP _ => hkeeps hP⟩, nofun⟩
  | ok f =>
    obtain ⟨hdvd, hlinked⟩ := openForAppend_ok (by decide) hopen
    simp only [hopen] at h hholds hkeeps
    cases h
    exact ⟨⟨rfl, rfl, rfl, rfl, rfl⟩, ⟨fun _ => ⟨f, rfl, hlinked (Or.inl rfl), hdvd⟩,
      fun _ hP hnil _ => hholds hP hnil, fun _ hP _ => hkeeps hP⟩, fun _ => rfl⟩

variable {failed answer : Bool} {decided : ℕ}

/-- Emptying the journal keeps what holds of an empty one. -/
theorem emptyJournal_leaves (h : nonces.emptyJournal failed file = (after, file')) :
    (∀ k, after.Holding k ↔ nonces.Holding k) ∧ after.staged = nonces.staged ∧
      after.liveHigh = nonces.liveHigh ∧ (nonces.Opened file → after.Opened file') ∧
      ∀ P, Holds P file → P [] → Holds P file' := by
  rw [emptyJournal] at h
  by_cases hempties : (nonces.journal && !failed) = true
  · rw [if_pos hempties] at h
    cases h
    refine ⟨fun _ => Iff.rfl, rfl, rfl, fun hopened hjournal => ?_, fun P hP hnil => ?_⟩
    · obtain ⟨f, rfl, hlinked, -⟩ := hopened hjournal
      exact ⟨_, rfl, hlinked, by rw [content_setLen, List.take_zero]; exact dvd_zero _⟩
    · cases file with
      | none => nofun
      | some f =>
        rintro g ⟨⟩
        refine (hP f rfl).setLen ?_
        rw [List.take_zero, chunksExact_of_short (by decide)]
        exact hnil
  · rw [if_neg hempties] at h
    cases h
    exact ⟨fun _ => Iff.rfl, rfl, rfl, id, fun _ hP _ => hP⟩

/-- **The journal is emptied only where nothing is held**, and keeps then what holds of an empty one. -/
theorem truncateJournalIfDrained_leaves
    (h : nonces.truncateJournalIfDrained failed file = (after, file')) :
    (∀ k, after.Holding k ↔ nonces.Holding k) ∧ after.staged = nonces.staged ∧
      after.liveHigh = nonces.liveHigh ∧ (nonces.Opened file → after.Opened file') ∧
      (∀ P, Holds P file → P [] → Holds P file') ∧
      (file' = file ∨ ∀ k, ¬nonces.Holding k) := by
  rw [truncateJournalIfDrained] at h
  by_cases hstays : (!nonces.drained || nonces.journalLen == 0) = true
  · rw [if_pos hstays] at h
    cases h
    exact ⟨fun _ => Iff.rfl, rfl, rfl, id, fun _ hP _ => hP, Or.inl rfl⟩
  · rw [if_neg hstays] at h
    obtain ⟨hheld, hstaged, hhigh, hopened, hholds⟩ := emptyJournal_leaves h
    have hdrained : nonces.drained = true := by
      cases hd : nonces.drained with
      | true => rfl
      | false => simp [hd] at hstays
    exact ⟨hheld, hstaged, hhigh, hopened, hholds, Or.inr fun _ => not_holding_of_drained hdrained⟩

/-- Kept by a record for a proof, on a proof clock, behind any. -/
def ConcatFor (xxh32 : Bytes → UInt32) (key : SpentKey) (proofNow : U64)
    (P : List (List SpendJournal.Cell) → Prop) : Prop :=
  ∀ slots r, r.key = key → r.proofNow = proofNow → P slots → P (slots ++ [recordCells xxh32 r])

/-- Made by such a record. -/
def MadeBy (xxh32 : Bytes → UInt32) (key : SpentKey) (proofNow : U64)
    (P : List (List SpendJournal.Cell) → Prop) : Prop :=
  ∀ slots r, r.key = key → r.proofNow = proofNow → P (slots ++ [recordCells xxh32 r])

/-- What an append leaves, done or not. -/
structure Appends (xxh32 : Bytes → UInt32) (key : SpentKey) (proofNow : U64) (answer : Bool)
    (nonces after : Nonces) (file file' : Option SpendJournal.File) : Prop where
  admitted : after.admitted = nonces.admitted
  expiredUnlanded : after.expiredUnlanded = nonces.expiredUnlanded
  staged : after.staged = nonces.staged
  liveHigh : nonces.liveHigh.val ≤ after.liveHigh.val
  high : answer = true → proofNow.val ≤ after.liveHigh.val
  journals : after.Journals file file' (ConcatFor xxh32 key proofNow)
  synced : answer = true → ∀ P, MadeBy xxh32 key proofNow P → Keeps P file'

/-- **An append that answers true is there after any crash**, and one that fails keeps the journal
readable. -/
theorem appendJournal_leaves {windowEnd proofNow : U64} (hon : nonces.Opened file)
    (h : nonces.appendJournal xxh32 fault unread key windowEnd proofNow file =
      (answer, after, file')) : Appends xxh32 key proofNow answer nonces after file file' := by
  rw [appendJournal] at h
  rcases hopen : nonces.openJournalIfNeeded xxh32 fault unread file with ⟨opened, mid, left⟩
  obtain ⟨hmid, hleft, hjournal⟩ := openJournalIfNeeded_leaves hon hopen
  have hrefused (heq : (false, mid, left) = (answer, after, file')) :
      Appends xxh32 key proofNow answer nonces after file file' := by
    cases heq
    exact ⟨hmid.admitted, hmid.expiredUnlanded, hmid.staged, hmid.liveHigh ▸ le_rfl, nofun,
      hleft.journals, nofun⟩
  rw [hopen] at h
  cases opened with
  | false => exact hrefused h
  | true =>
    cases left with
    | none => exact hrefused h
    | some f =>
      simp only at h
      split at h
      · exact hrefused h
      obtain ⟨g, hg, hlinked, hdvd⟩ := hleft.opened (hjournal rfl)
      obtain rfl := Option.some.inj hg
      set r : JournalRecord := ⟨key, windowEnd, proofNow, mid.journalHigh.max proofNow⟩ with hr
      have hlen : (recordCells xxh32 r).length = recordLen := SpendJournal.length_recordCells
      rcases happend : f.appendSynced fault (recordCells xxh32 r) with ⟨synced, g⟩
      have hglinked : g.linked = true := by
        have hsame := linked_appendSynced fault (recordCells xxh32 r) f
        rw [happend] at hsame
        exact hsame.trans hlinked
      have hslots {P : List (List SpendJournal.Cell) → Prop} (hP : f.AtCrash recordLen P)
          (hconcat : ConcatFor xxh32 key proofNow P) : g.AtCrash recordLen P := by
        have hg := hP.appendSynced fault (by decide) hdvd hlen
          (hconcat _ r rfl rfl hP.content)
        rwa [happend] at hg
      have hholds (P : List (List SpendJournal.Cell) → Prop) (hP : Holds P file) (hnil : P [])
          (hconcat : ConcatFor xxh32 key proofNow P) : Holds P (some g) := by
        rintro g' ⟨⟩
        exact hslots (hleft.holds P hP hnil trivial f rfl) hconcat
      have hkeeps (P : List (List SpendJournal.Cell) → Prop) (hP : Keeps P file)
          (hconcat : ConcatFor xxh32 key proofNow P) : Keeps P (some g) := by
        obtain ⟨f', hf', -, hf⟩ := hleft.keeps P hP trivial
        obtain rfl := Option.some.inj hf'
        exact ⟨g, rfl, hglinked, hslots hf hconcat⟩
      rw [happend] at h
      cases synced with
      | false =>
        cases h
        exact ⟨hmid.admitted, hmid.expiredUnlanded, hmid.staged, hmid.liveHigh ▸ le_rfl, nofun,
          ⟨nofun, hholds, hkeeps⟩, nofun⟩
      | true =>
        cases h
        have hdvd' : recordLen ∣ g.content.length := by
          rcases appendSynced_cases fault (recordCells xxh32 r) f with
            ⟨hfailed, -⟩ | ⟨-, heq⟩
          · rw [happend] at hfailed
            cases hfailed
          · rw [happend] at heq
            obtain rfl : g = (f.append (recordCells xxh32 r)).sync := heq
            rw [content_sync, content_append, List.length_append, hlen]
            exact Nat.dvd_add hdvd (Nat.dvd_refl _)
        refine ⟨hmid.admitted, hmid.expiredUnlanded, hmid.staged, ?_, fun _ => ?_,
          ⟨fun _ => ⟨g, rfl, hglinked, hdvd'⟩, hholds, hkeeps⟩, fun _ P hP => ?_⟩
        · show nonces.liveHigh.val ≤ (mid.liveHigh.max proofNow).val
          rw [hmid.liveHigh, U64.val_max]
          exact Nat.le_max_left ..
        · show proofNow.val ≤ (mid.liveHigh.max proofNow).val
          rw [U64.val_max]
          exact Nat.le_max_right ..
        · have hsynced := CrashFile.AtCrash.of_appendSynced (P := P) fault (by decide) hdvd
            hlen (by rw [happend]) (hP _ r rfl rfl)
          rw [happend] at hsynced
          exact ⟨g, rfl, hglinked, hsynced⟩

/-! ### Spends -/

/-- What an admission leaves, answered or not. -/
structure Admits (xxh32 : Bytes → UInt32) (tables : ProofTables) (decided : ℕ) (key : SpentKey)
    (clock : ProofClock) (answer : Bool) (nonces after : Nonces)
    (file file' : Option SpendJournal.File) : Prop where
  held : ∀ k, nonces.Holding k → after.Holding k
  added : answer = true → after.Holding key
  liveHigh : nonces.liveHigh.val ≤ after.liveHigh.val
  high : answer = true → clock.now.val ≤ after.liveHigh.val
  staged : ∀ (k : SpentKey) (c : ℕ), nonces.staged[k]? = some c → decided < c →
    after.staged[k]? = some c
  journals : after.Journals file file' fun P =>
    nonces.liveHigh.val ≤ clock.now.val → ConcatFor xxh32 key clock.now P
  synced : answer = true → ∀ P, MadeBy xxh32 key clock.now P → Keeps P file'
  notHeld : answer = true → ¬nonces.Holding key
  notStaged : answer = true → ∀ c : ℕ, nonces.staged[key]? = some c → c ≤ decided
  notGuarded : answer = true → key ∉ tables.rows ∧ tables.watermark.val ≤ clock.notBefore.val

/-- What no admission changes but by letting decided transactions' spends go. -/
theorem getElem?_staged_filter (nonces : Nonces) {c : ℕ} (h : nonces.staged[k]? = some c)
    (hlt : decided < c) :
    (nonces.staged.filter fun _ commitsAs => decide (decided < commitsAs))[k]? = some c := by
  rw [getElem?_filter, h]
  simp [hlt]

/-- **A proof admitted in memory was held nowhere**: not here, not by a writer that may commit, and on
no committed row. -/
theorem admission_leaves {snapshotFails : Bool} {tables : ProofTables} {readings : Readings}
    {now expiresAt : U64} {clock : ProofClock} (hon : nonces.Opened file)
    (h : nonces.admission xxh32 fault unread snapshotFails tables readings decided key now expiresAt
      clock file = (answer, after, file')) :
    Admits xxh32 tables decided key clock answer nonces after file file' := by
  rw [admission] at h
  have hretains := retains_leaveBefore nonces now
  set aged := nonces.leaveBefore now with haged
  set swept : Nonces := { aged with
    staged := aged.staged.filter fun _ commitsAs => decide (decided < commitsAs) } with hswept
  have hsweptHeld (k : SpentKey) (hk : nonces.Holding k) : swept.Holding k := hretains.held k hk
  have hsweptStaged (k : SpentKey) (c : ℕ) (hc : nonces.staged[k]? = some c) (hlt : decided < c) :
      swept.staged[k]? = some c :=
    getElem?_staged_filter aged (hretains.staged ▸ hc) hlt
  have hsweptOn : swept.Opened file := fun hjournal => hon (hretains.journal ▸ hjournal)
  have hunmoved {n : Nonces} (hheld : ∀ k, nonces.Holding k → n.Holding k)
      (hstaged : ∀ (k : SpentKey) (c : ℕ), nonces.staged[k]? = some c → decided < c →
        n.staged[k]? = some c)
      (hlive : n.liveHigh = nonces.liveHigh) (hjournal : n.Opened file)
      (heq : (false, n, file) = (answer, after, file')) :
      Admits xxh32 tables decided key clock answer nonces after file file' := by
    cases heq
    have huntouched : after.Untouched file file := hjournal.untouched rfl
    exact ⟨hheld, nofun, hlive ▸ le_rfl, nofun, hstaged, huntouched.journals, nofun, nofun, nofun,
      nofun⟩
  split at h
  · exact hunmoved (fun _ => id) (fun _ _ hc _ => hc) rfl hon h
  split at h
  · exact hunmoved (fun _ => id) (fun _ _ hc _ => hc) rfl hon h
  next hlive =>
  simp only [← hswept] at h
  split at h
  · exact hunmoved hsweptHeld hsweptStaged hretains.liveHigh hsweptOn h
  next hnew =>
  split at h
  · exact hunmoved hsweptHeld hsweptStaged hretains.liveHigh hsweptOn h
  next hstill =>
  simp only [Bool.or_eq_true, not_or, Bool.not_eq_true] at hnew hstill
  obtain ⟨⟨hadmitted, hexpired⟩, hstaged⟩ := hnew
  rcases happend : swept.appendJournal xxh32 fault unread key (expiresAt.satAdd windowSecs) clock.now
    file with ⟨synced, mid, left⟩
  have hleaves := appendJournal_leaves hsweptOn happend
  have hmidHeld (k : SpentKey) (hk : nonces.Holding k) : mid.Holding k := by
    have hk := hsweptHeld k hk
    rw [Holding, hleaves.admitted, hleaves.expiredUnlanded]
    exact hk
  have hmidStaged (k : SpentKey) (c : ℕ) (hc : nonces.staged[k]? = some c) (hlt : decided < c) :
      mid.staged[k]? = some c := by
    rw [hleaves.staged]
    exact hsweptStaged k c hc hlt
  have hmidLive : nonces.liveHigh.val ≤ mid.liveHigh.val := by
    rw [← hretains.liveHigh]
    exact hleaves.liveHigh
  have hconcat {P : List (List SpendJournal.Cell) → Prop}
      (hP : nonces.liveHigh.val ≤ clock.now.val → ConcatFor xxh32 key clock.now P) :
      ConcatFor xxh32 key clock.now P := hP (Nat.not_lt.mp hlive)
  have hjournals : mid.Journals file left fun P =>
      nonces.liveHigh.val ≤ clock.now.val → ConcatFor xxh32 key clock.now P :=
    ⟨hleaves.journals.opened, fun P hP hnil hc => hleaves.journals.holds P hP hnil (hconcat hc),
      fun P hP hc => hleaves.journals.keeps P hP (hconcat hc)⟩
  rw [happend] at h
  cases synced with
  | false =>
    cases h
    exact ⟨hmidHeld, nofun, hmidLive, nofun, hmidStaged, hjournals, nofun, nofun, nofun, nofun⟩
  | true =>
    cases h
    have hholds (k : SpentKey) (hk : mid.Holding k) : Holding
        { mid with
          admitted := mid.admitted.insert key (expiresAt.satAdd windowSecs)
          queuing := mid.queuing + 1 } k :=
      hk.imp_left fun hk => mem_insert.mpr (Or.inr hk)
    refine ⟨fun k hk => hholds k (hmidHeld k hk), fun _ => Or.inl mem_insert_self, hmidLive,
      fun _ => hleaves.high rfl, hmidStaged,
      ⟨hjournals.opened, hjournals.holds, hjournals.keeps⟩, fun _ => hleaves.synced rfl,
      fun _ hheld => ?_, fun _ c hc => ?_, fun _ => ?_⟩
    · rcases hsweptHeld key hheld with hk | hk
      · exact absurd (ExtTreeMap.contains_iff_mem.mpr hk) (by rw [hadmitted]; exact nofun)
      · exact absurd (ExtTreeSet.contains_iff_mem.mpr hk) (by rw [hexpired]; exact nofun)
    · by_contra hlt
      have hheld := hsweptStaged key c hc (Nat.not_le.mp hlt)
      have hcontains : swept.staged.contains key = true :=
        ExtTreeMap.contains_iff_mem.mpr (mem_iff_isSome_getElem?.mpr (by rw [hheld]; rfl))
      rw [hstaged] at hcontains
      cases hcontains
    · simp only [moved, Bool.or_eq_false_iff, decide_eq_false_iff_not] at hstill
      obtain ⟨-, ⟨⟨-, hwatermark⟩, hrow⟩⟩ := hstill
      refine ⟨fun hmem => ?_, Nat.not_lt.mp hwatermark⟩
      rw [ExtTreeSet.contains_iff_mem.mpr hmem] at hrow
      cases hrow

/-- **A writer stages no proof spent in memory**, and keeps the open transaction's spends staged. -/
theorem stage_leaves {owner : Bool} {lastTxn : ℕ}
    (h : nonces.stage owner lastTxn key = (answer, after)) :
    (∀ k, after.Holding k ↔ nonces.Holding k) ∧ after.journal = nonces.journal ∧
      after.liveHigh = nonces.liveHigh ∧
      (∀ k : SpentKey, nonces.staged[k]? = some (lastTxn + 1) →
        after.staged[k]? = some (lastTxn + 1)) ∧
      (owner = true → answer = true →
        ¬nonces.Holding key ∧ after.staged[key]? = some (lastTxn + 1)) := by
  rw [stage] at h
  cases owner with
  | false =>
    cases h
    exact ⟨fun _ => Iff.rfl, rfl, rfl, fun _ => id, nofun⟩
  | true =>
    simp only [Bool.not_true, Bool.false_eq_true, if_false] at h
    have hkept (k : SpentKey) (hk : nonces.staged[k]? = some (lastTxn + 1)) :
        (nonces.staged.filter fun _ staged => decide (lastTxn + 1 ≤ staged))[k]? =
          some (lastTxn + 1) := by
      rw [getElem?_filter, hk]
      simp
    split at h
    · cases h
      exact ⟨fun _ => Iff.rfl, rfl, rfl, hkept, nofun⟩
    next hnew =>
    simp only [Bool.or_eq_true, not_or, Bool.not_eq_true] at hnew
    cases h
    refine ⟨fun _ => Iff.rfl, rfl, rfl, fun k hk => ?_, fun _ _ => ⟨?_, ?_⟩⟩
    · rw [getElem?_insert]
      split
      · rfl
      · exact hkept k hk
    · rintro (hk | hk)
      · exact absurd (ExtTreeMap.contains_iff_mem.mpr hk) (by rw [hnew.1]; exact nofun)
      · exact absurd (ExtTreeSet.contains_iff_mem.mpr hk) (by rw [hnew.2]; exact nofun)
    · exact ExtTreeMap.getElem?_insert_self

end Nonces

end Oneiron
