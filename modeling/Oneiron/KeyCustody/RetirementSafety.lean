import Oneiron.KeyCustody.Retirement

/-!
# KeyCustody/RetirementSafety — a committed retirement is carried out, and stays owed

    base -- walked --------- position            every frame through `walked` has its obligation

A finisher holds the vault's writer, so what it retired stays retired until it clears the intent; who
walks or moves holds the journal's lock, so what it listed stays listed.  Everyone else only adds.
-/

namespace Oneiron

open List Option Function RetireState RetireStage

namespace RetireState

variable (s : RetireState) (c : ℕ)

/-- Retired, with no entry left. -/
def Gone (subject : CustodySubject) (generation : ℕ) : Prop :=
  s.retired subject generation = true ∧ s.entry subject generation = false

def AllGone (intent : RetirementIntent) : Prop := ∀ g ≤ intent.through, s.Gone intent.subject g

/-- The call holds the vault's writer, and the intent stands. -/
def Holds (intent : RetirementIntent) : Prop :=
  s.writer = some c ∧ s.intents intent.subject = some ⟨intent.through, intent.cause⟩

/-- The frame at a number is owed: its obligation is outstanding or done. -/
def Owed (seq : ℕ) : Prop :=
  ∀ entry name, s.frame seq = some entry → entry.obligationName = some name → s.recorded name = true

/-- Every frame through a number the log holds is owed. -/
def OwedThrough (n : ℕ) : Prop := n ≤ s.position ∧ ∀ seq ≤ n, s.Owed seq

/-- What a reconcile's caller brought to it. -/
def Called : Option RetirementIntent → Prop
  | none => True
  | some intent => s.Holds c intent ∧ s.AllGone intent

/-- What holds of a call at each stage. -/
def StageSound : RetireStage → Prop
  | .idle | .stopped => True
  | .retiring intent generation => s.Holds c intent ∧ ∀ g < generation, s.Gone intent.subject g
  | .unlinking intent generation => s.Holds c intent ∧ (∀ g < generation, s.Gone intent.subject g) ∧
      s.retired intent.subject generation = true
  | .dropping intent generation => s.Holds c intent ∧
      ∀ g < generation + 1, s.Gone intent.subject g
  | .sweeping intent => s.Holds c intent ∧ intent.through = 0 ∧
      s.tombstone intent.subject = true ∧ s.Gone intent.subject 0
  | .reconciling caller before => s.Called c caller ∧ before ≤ s.position
  | .positioned caller before position => s.Called c caller ∧ before ≤ position ∧
      position ≤ s.position
  | .behind caller before walked position => s.Called c caller ∧ before ≤ position ∧
      position ≤ s.position ∧ s.OwedThrough walked
  | .walking caller before walked position => s.Called c caller ∧ before ≤ position ∧
      position ≤ s.position ∧ s.OwedThrough walked ∧ s.lock = some c
  | .reconciled caller before => s.Called c caller ∧ s.OwedThrough before
  | .recording intent seq => s.Called c (some intent) ∧ s.frame seq = some (.retire intent)
  | .clearing intent => s.Called c (some intent) ∧ s.recorded (.retire intent) = true
  | .advancing at_ => s.lock = some c ∧ at_ ∈ s.reached
  | .moving at_ names => s.lock = some c ∧ at_ ∈ s.reached ∧ (names.map Prod.fst).Nodup ∧
      ∀ x ∈ names, s.obligations x.1 = some x.2 ∧ x.2.epoch = at_.epoch ∧ x.2.seq ≤ at_.seq

/-- What holds of the stores, whatever is under way. -/
structure StoresSound : Prop where
  walked : s.OwedThrough (max s.walked s.base)
  frames : ∀ intent mark, s.obligations (.retire intent) = some mark ∨
    s.done (.retire intent) = some mark → s.frame mark.seq = some (.retire intent)
  done : ∀ name mark, s.done name = some mark →
    ∃ reached ∈ s.reached, reached.epoch = mark.epoch ∧ mark.seq ≤ reached.seq
  entombed : ∀ subject, s.tombstone subject = true → s.entry subject 0 = false
  drafter : ∀ subject value, s.intents subject = some value → subject.isDrafter = true →
    value.through = 0

/-- **What holds of a custody in every run.** -/
structure Sound : Prop where
  stores : s.StoresSound
  stages : ∀ c, s.StageSound c (s.tasks c)

/-- What a call relies on stays as others go on: what they add to, and what its locks keep. -/
structure Keeps (t : RetireState) : Prop where
  base : t.base = s.base
  log : s.log <+: t.log
  recorded : ∀ name, s.recorded name = true → t.recorded name = true
  reached : s.reached ⊆ t.reached
  locked : s.lock = some c → t.lock = some c ∧
    ∀ name mark, s.obligations name = some mark → t.obligations name = some mark
  writes : s.writer = some c → t.writer = some c ∧ t.intents = s.intents ∧
    (∀ subject g, s.retired subject g = true → t.retired subject g = true) ∧
    (∀ subject g, s.Gone subject g → t.Gone subject g) ∧
    ∀ subject, s.tombstone subject = true → t.tombstone subject = true

variable {s c} {t : RetireState} {stage : RetireStage}

/-! ### The log -/

theorem base_le_position : s.base ≤ s.position := Nat.le_add_right ..

variable {holder : Option ℕ} {label : ℕ × RetireOp} {c' seq g : ℕ} {name' name : ObligationName}
  {subject subject' : CustodySubject} {entry : LogEntry} {intent : RetirementIntent} {mark : Mark}

theorem frame_eq_of_le (hbase : t.base = s.base) (hlog : s.log <+: t.log) (h : seq ≤ s.position) :
    t.frame seq = s.frame seq := by
  obtain ⟨rest, hlog⟩ := hlog
  rw [frame, frame, hbase, ← hlog]
  split
  next hlt =>
    rw [getElem?_append_left]
    rw [position] at h
    omega
  · rfl

theorem frame_le (h : s.frame seq = some entry) : seq ≤ s.position := by
  rw [frame] at h
  split at h
  next hlt =>
    obtain ⟨hlt', -⟩ := List.getElem?_eq_some_iff.mp h
    rw [position]
    omega
  · cases h

theorem frame_append (entry : LogEntry) :
    ({ s with log := s.log ++ [entry] } : RetireState).frame (s.position + 1) = some entry := by
  rw [frame, if_pos (by have := base_le_position (s := s); show s.base < _; omega), position]
  have hidx : s.base + s.log.length + 1 - s.base - 1 = s.log.length := by omega
  rw [hidx, getElem?_append_right le_rfl, Nat.sub_self]
  rfl

theorem position_le (hbase : t.base = s.base) (hlog : s.log <+: t.log) : s.position ≤ t.position := by
  rw [position, position, hbase]
  exact Nat.add_le_add_left hlog.length_le _

theorem OwedThrough.keeps {n : ℕ} (h : s.OwedThrough n) (hbase : t.base = s.base)
    (hlog : s.log <+: t.log) (hrecorded : ∀ name, s.recorded name = true → t.recorded name = true) :
    t.OwedThrough n := by
  refine ⟨h.1.trans (position_le hbase hlog), fun seq hseq entry name hframe hname => ?_⟩
  rw [frame_eq_of_le hbase hlog (hseq.trans h.1)] at hframe
  exact hrecorded name (h.2 seq hseq entry name hframe hname)

/-- Frames at and before the base are not of this log. -/
theorem owedThrough_base : s.OwedThrough s.base := by
  refine ⟨base_le_position, fun seq hseq entry _ hframe => ?_⟩
  rw [frame, if_neg (by omega)] at hframe
  cases hframe

/-! ### What outlasts what others do -/

theorem Called.keeps {caller : Option RetirementIntent} (h : s.Called c caller)
    (hkeeps : s.Keeps c t) : t.Called c caller := by
  cases caller with
  | none => trivial
  | some intent =>
    obtain ⟨⟨hwriter, hintent⟩, hgone⟩ := h
    obtain ⟨hwriter', hintents, -, hgone', -⟩ := hkeeps.writes hwriter
    exact ⟨⟨hwriter', by rw [hintents]; exact hintent⟩, fun g hg => hgone' _ _ (hgone g hg)⟩

theorem Holds.keeps (h : s.Holds c intent) (hkeeps : s.Keeps c t) :
    t.Holds c intent ∧ ∀ g, s.Gone intent.subject g → t.Gone intent.subject g := by
  obtain ⟨hwriter', hintents, -, hgone', -⟩ := hkeeps.writes h.1
  exact ⟨⟨hwriter', by rw [hintents]; exact h.2⟩, fun g => hgone' _ _⟩

theorem StageSound.keeps (h : s.StageSound c stage) (hkeeps : s.Keeps c t) :
    t.StageSound c stage := by
  have hposition := position_le hkeeps.base hkeeps.log
  have howed {n : ℕ} (h : s.OwedThrough n) : t.OwedThrough n :=
    h.keeps hkeeps.base hkeeps.log hkeeps.recorded
  cases stage with
  | idle | stopped => trivial
  | retiring intent generation | dropping intent generation =>
    obtain ⟨hholds, hgone⟩ := h.1.keeps hkeeps
    exact ⟨hholds, fun g hg => hgone g (h.2 g hg)⟩
  | unlinking intent generation =>
    obtain ⟨hholds, hgone⟩ := h.1.keeps hkeeps
    exact ⟨hholds, fun g hg => hgone g (h.2.1 g hg), (hkeeps.writes h.1.1).2.2.1 _ _ h.2.2⟩
  | sweeping intent =>
    obtain ⟨hholds, hgone⟩ := h.1.keeps hkeeps
    exact ⟨hholds, h.2.1, (hkeeps.writes h.1.1).2.2.2.2 _ h.2.2.1, hgone 0 h.2.2.2⟩
  | reconciling caller before => exact ⟨h.1.keeps hkeeps, h.2.trans hposition⟩
  | positioned caller before position =>
    exact ⟨h.1.keeps hkeeps, h.2.1, h.2.2.trans hposition⟩
  | behind caller before walked position =>
    exact ⟨h.1.keeps hkeeps, h.2.1, h.2.2.1.trans hposition, howed h.2.2.2⟩
  | walking caller before walked position =>
    exact ⟨h.1.keeps hkeeps, h.2.1, h.2.2.1.trans hposition, howed h.2.2.2.1,
      (hkeeps.locked h.2.2.2.2).1⟩
  | reconciled caller before => exact ⟨h.1.keeps hkeeps, howed h.2⟩
  | recording intent seq =>
    exact ⟨h.1.keeps hkeeps, (frame_eq_of_le hkeeps.base hkeeps.log (frame_le h.2)).trans h.2⟩
  | clearing intent => exact ⟨h.1.keeps hkeeps, hkeeps.recorded _ h.2⟩
  | advancing at_ => exact ⟨(hkeeps.locked h.1).1, hkeeps.reached h.2⟩
  | moving at_ names =>
    obtain ⟨hlock, hreached, hnodup, hnames⟩ := h
    obtain ⟨hlock', hkept⟩ := hkeeps.locked hlock
    exact ⟨hlock', hkeeps.reached hreached, hnodup,
      fun x hx => ⟨hkept _ _ (hnames x hx).1, (hnames x hx).2⟩⟩

theorem Sound.knows (h : s.Sound) (hstage : s.tasks c = stage) : s.StageSound c stage :=
  hstage ▸ h.stages c

/-- A step of one call. -/
theorem Sound.steps (h : s.Sound) (c : ℕ) (stage : RetireStage) (hstores : t.StoresSound)
    (htasks : t.tasks = s.tasks) (hkeeps : ∀ c' ≠ c, s.Keeps c' t) (hstage : t.StageSound c stage) :
    (t.goes c stage).Sound := by
  have hgoes (c' : ℕ) {stage' : RetireStage} (h : t.StageSound c' stage') :
      (t.goes c stage).StageSound c' stage' := by cases stage' <;> exact h
  refine ⟨⟨hstores.1, hstores.2, hstores.3, hstores.4, hstores.5⟩, fun c' => hgoes c' ?_⟩
  by_cases hc : c' = c
  · subst hc
    rwa [show (t.goes c' stage).tasks c' = stage from update_self ..]
  · rw [show (t.goes c stage).tasks c' = t.tasks c' from update_of_ne hc .., htasks]
    exact (h.stages c').keeps (hkeeps c' hc)

/-- A move of the stores that keeps every call where it is. -/
theorem Sound.stays (h : s.Sound) (hstores : t.StoresSound) (htasks : t.tasks = s.tasks)
    (hkeeps : ∀ c, s.Keeps c t) : t.Sound :=
  ⟨hstores, fun c => by rw [htasks]; exact (h.stages c).keeps (hkeeps c)⟩

theorem Keeps.refl : s.Keeps c s :=
  ⟨rfl, prefix_rfl, fun _ h => h, fun _ h => h, fun h => ⟨h, fun _ _ h => h⟩,
    fun h => ⟨h, rfl, fun _ _ h => h, fun _ _ h => h, fun _ h => h⟩⟩

/-- A call that goes on from what it read. -/
theorem Sound.goes (h : s.Sound) (hstage : s.StageSound c stage) : (s.goes c stage).Sound :=
  h.steps c stage h.stores rfl (fun _ _ => .refl) hstage

/-! ### Obligations -/

section Obligations

variable {name : ObligationName} {mark : Mark}

theorem recorded_iff : s.recorded name = true ↔ s.obligations name ≠ none ∨ s.done name ≠ none := by
  rw [recorded, Bool.or_eq_true, isSome_iff_ne_none, isSome_iff_ne_none]

/-- Listing a frame touches the obligations alone. -/
theorem records_frame : (s.records name mark).tasks = s.tasks ∧
    (s.records name mark).completed = s.completed ∧ (s.records name mark).intents = s.intents ∧
    (s.records name mark).frame = s.frame := by
  rw [records]
  split <;> exact ⟨rfl, rfl, rfl, rfl⟩

theorem walks_frame : (s.walks seq).tasks = s.tasks ∧
    (s.walks seq).completed = s.completed ∧ (s.walks seq).intents = s.intents ∧
    (s.walks seq).frame = s.frame := by
  rw [walks]
  split
  · exact ⟨rfl, rfl, rfl, rfl⟩
  · split
    exacts [⟨rfl, rfl, rfl, rfl⟩, records_frame]

theorem records_kept {mark' : Mark} (h : s.obligations name' = some mark') :
    (s.records name mark).obligations name' = some mark' := by
  rw [records]
  split
  next hnone =>
    have hne : name' ≠ name := by
      rintro rfl
      rw [hnone] at h
      cases h
    exact (update_of_ne hne ..).trans h
  · exact h

theorem recorded_records : (s.records name mark).recorded name = true := by
  rw [recorded_iff, records]
  split
  · exact Or.inl (by dsimp only; rw [update_self]; nofun)
  next hsome => exact Or.inl hsome

theorem keeps_records : s.Keeps c (s.records name mark) := by
  have hkept (name' : ObligationName) (mark' : Mark) : s.obligations name' = some mark' →
      (s.records name mark).obligations name' = some mark' := records_kept
  have hrecorded (name' : ObligationName) (h : s.recorded name' = true) :
      (s.records name mark).recorded name' = true := by
    rw [recorded_iff] at h ⊢
    rcases h with hobligation | hdone
    · obtain ⟨mark', hmark'⟩ := ne_none_iff_exists'.mp hobligation
      exact Or.inl (by rw [hkept _ _ hmark']; nofun)
    · refine Or.inr ?_
      rw [records]
      split <;> exact hdone
  rw [records] at hkept hrecorded ⊢
  split
  next hnone =>
    rw [if_pos hnone] at hkept hrecorded
    exact ⟨rfl, prefix_rfl, hrecorded, fun _ h => h, fun h => ⟨h, hkept⟩,
      fun h => ⟨h, rfl, fun _ _ h => h, fun _ _ h => h, fun _ h => h⟩⟩
  · exact .refl

theorem StoresSound.records (h : s.StoresSound)
    (hframe : ∀ intent, name = .retire intent → s.frame mark.seq = some (.retire intent)) :
    (s.records name mark).StoresSound := by
  have hkeeps : s.Keeps 0 (s.records name mark) := keeps_records
  have hwalked := h.walked.keeps hkeeps.base hkeeps.log hkeeps.recorded
  rw [RetireState.records] at hwalked ⊢
  split
  next hnone =>
    rw [if_pos hnone] at hwalked
    refine ⟨hwalked, fun intent mark' hmark => ?_, h.done, h.entombed, h.drafter⟩
    rcases hmark with hobligation | hdone
    · dsimp only at hobligation
      rw [update_apply] at hobligation
      split at hobligation
      next heq =>
        obtain rfl := some.inj hobligation
        exact hframe intent heq.symm
      · exact h.frames intent mark' (Or.inl hobligation)
    · exact h.frames intent mark' (Or.inr hdone)
  · exact h

/-- The name a frame is handed off under names the frame. -/
theorem frame_of_obligationName (hframe : s.frame seq = some entry)
    (hname : entry.obligationName = some name) (intent : RetirementIntent)
    (heq : name = .retire intent) : s.frame seq = some (.retire intent) := by
  subst heq
  cases entry <;> cases hname
  exact hframe

/-- **A frame walked is owed**, and nothing else changes. -/
theorem walks_sound (h : s.StoresSound) (seq : ℕ) :
    (s.walks seq).StoresSound ∧ (∀ c, s.Keeps c (s.walks seq)) ∧ (s.walks seq).Owed seq ∧
      (s.walks seq).tasks = s.tasks := by
  have hframe_walks : (s.walks seq).frame = s.frame := walks_frame.2.2.2
  rw [walks] at hframe_walks ⊢
  split
  next hnone =>
    refine ⟨h, fun _ => .refl, fun entry name' hframe hname => ?_, rfl⟩
    rw [hframe, bind_some, hname] at hnone
    cases hnone
  next name' hsome =>
    obtain ⟨entry, hframe, hname⟩ := bind_eq_some_iff.mp hsome
    rw [hsome] at hframe_walks
    dsimp only at hframe_walks
    split
    next hdone =>
      refine ⟨h, fun _ => .refl, fun entry' name'' hframe' hname' => ?_, rfl⟩
      obtain rfl := some.inj (hframe.symm.trans hframe')
      obtain rfl := some.inj (hname.symm.trans hname')
      rw [recorded, hdone, Bool.or_true]
    next hdone =>
      rw [if_neg hdone] at hframe_walks
      refine ⟨h.records fun intent heq => frame_of_obligationName hframe hname intent heq,
        fun _ => keeps_records, fun entry' name'' hframe' hname' => ?_, ?_⟩
      · rw [hframe_walks] at hframe'
        obtain rfl := some.inj (hframe.symm.trans hframe')
        obtain rfl := some.inj (hname.symm.trans hname')
        exact recorded_records
      · exact records_frame.1

end Obligations

/-! ### The key files -/

/-- Writes to the key files alone, by who holds the writer or where they undo nothing. -/
theorem StoresSound.files (h : s.StoresSound) (hlog : t.log = s.log) (hbase : t.base = s.base)
    (hwalked : t.walked = s.walked) (hobligations : t.obligations = s.obligations)
    (hdone : t.done = s.done) (hreached : t.reached = s.reached) (hintents : t.intents = s.intents)
    (hentombed : ∀ subject, t.tombstone subject = true → t.entry subject 0 = false) :
    t.StoresSound where
  walked := by
    rw [hwalked, hbase]
    refine h.walked.keeps hbase (hlog ▸ prefix_rfl) fun name hname => ?_
    rwa [recorded, hobligations, hdone]
  frames intent mark hmark := by
    rw [hobligations, hdone] at hmark
    rw [frame, hbase, hlog]
    exact h.frames intent mark hmark
  done name mark hmark := by
    rw [hdone] at hmark
    rw [hreached]
    exact h.done name mark hmark
  entombed := hentombed
  drafter subject value hvalue := by
    rw [hintents] at hvalue
    exact h.drafter subject value hvalue

/-- …as no other call, which holds no writer, can tell. -/
theorem Keeps.of_writer (hc : c' ≠ c) (hwriter : s.writer = some c) (hlog : t.log = s.log)
    (hbase : t.base = s.base) (hobligations : t.obligations = s.obligations)
    (hdone : t.done = s.done) (hreached : t.reached = s.reached) (hlock : t.lock = s.lock) :
    s.Keeps c' t where
  base := hbase
  log := hlog ▸ prefix_rfl
  recorded name hname := by rwa [RetireState.recorded, hobligations, hdone]
  reached := by rw [hreached]; exact fun _ h => h
  locked h := by rw [hlock, hobligations]; exact ⟨h, fun _ _ h => h⟩
  writes h := absurd (some.inj (h.symm.trans hwriter)) hc

/-- An intent changes while no call holds the writer. -/
theorem Sound.intents (h : s.Sound) (hfree : s.writer = none)
    {intents : CustodySubject → Option IntentValue}
    (hdrafter : ∀ subject value, intents subject = some value → subject.isDrafter = true →
      value.through = 0) : ({ s with intents := intents } : RetireState).Sound := by
  refine h.stays ⟨h.stores.walked, h.stores.frames, h.stores.done, h.stores.entombed, hdrafter⟩ rfl
    fun c => ⟨rfl, prefix_rfl, fun _ h => h, fun _ h => h, fun h => ⟨h, fun _ _ h => h⟩,
      fun h => ?_⟩
  rw [hfree] at h
  cases h

theorem Sound.staged (h : s.Sound) (hfree : s.writer = none)
    (hdrafter : intent.subject.isDrafter = true → intent.through = 0) :
    (s.staged intent).Sound := by
  refine h.intents hfree fun subject value hvalue hsubject => ?_
  rw [update_apply] at hvalue
  split at hvalue
  next heq =>
    subst heq
    obtain rfl := some.inj hvalue
    cases hstanding : s.intents intent.subject with
    | none => exact hdrafter hsubject
    | some standing =>
      have hold := h.stores.drafter _ _ hstanding hsubject
      have hnew := hdrafter hsubject
      show max standing.through intent.through = 0
      rw [hold, hnew]
      rfl
  · exact h.stores.drafter subject value hvalue hsubject

theorem Sound.cleared (h : s.Sound) (hfree : s.writer = none) (subject : CustodySubject) :
    (s.cleared subject).Sound := by
  refine h.intents hfree fun subject' value hvalue => ?_
  rw [update_apply] at hvalue
  split at hvalue
  · cases hvalue
  · exact h.stores.drafter subject' value hvalue

theorem retired_setMarker {g' : ℕ} (h : s.retired subject' g' = true) :
    (s.setMarker subject g true).retired subject' g' = true := by
  rw [retired, Bool.or_eq_true] at h ⊢
  refine h.imp (fun hmarker => ?_) fun htombstone => htombstone
  show update s.marker subject (update (s.marker subject) g true) subject' g' = true
  rw [update_apply]
  split
  next heq =>
    subst heq
    rw [update_apply]
    split
    exacts [rfl, hmarker]
  · exact hmarker

theorem retired_setMarker_self : (s.setMarker subject g true).retired subject g = true := by
  rw [retired, Bool.or_eq_true]
  refine Or.inl ?_
  show update s.marker subject (update (s.marker subject) g true) subject g = true
  rw [update_self, update_self]

theorem entry_setEntry {g' : ℕ} {stands : Bool} : (s.setEntry subject g stands).entry subject' g' =
      if subject' = subject ∧ g' = g then stands else s.entry subject' g' := by
  show update s.entry subject (update (s.entry subject) g stands) subject' g' = _
  rw [update_apply]
  split
  next heq =>
    subst heq
    rw [update_apply]
    simp only [true_and]
  next hne => rw [if_neg fun h => hne h.1]

theorem OwedThrough.anti {n m : ℕ} (h : s.OwedThrough n) (hle : m ≤ n) : s.OwedThrough m :=
  ⟨hle.trans h.1, fun seq hseq => h.2 seq (hseq.trans hle)⟩

/-- A tombstone retires its one generation. -/
theorem gone_of_tombstone (htombstone : s.tombstone subject = true)
    (hentry : s.entry subject 0 = false) : s.Gone subject 0 :=
  ⟨by rw [retired, htombstone]; exact Bool.or_true _, hentry⟩

theorem keeps_append (entry : LogEntry) : s.Keeps c { s with log := s.log ++ [entry] } :=
  ⟨rfl, prefix_append _ _, fun _ h => h, fun _ h => h, fun h => ⟨h, fun _ _ h => h⟩,
    fun h => ⟨h, rfl, fun _ _ h => h, fun _ _ h => h, fun _ h => h⟩⟩

theorem StoresSound.append (h : s.StoresSound) (entry : LogEntry) :
    ({ s with log := s.log ++ [entry] } : RetireState).StoresSound where
  walked := h.walked.keeps rfl (prefix_append _ _) fun _ h => h
  frames intent mark hmark := by
    have hframe := h.frames intent mark hmark
    exact (frame_eq_of_le (keeps_append (c := 0) entry).base (keeps_append (c := 0) entry).log
      (frame_le hframe)).trans hframe
  done := h.done
  entombed := h.entombed
  drafter := h.drafter

theorem recorded_moves (h : s.recorded name' = true) :
    (s.moves name mark).recorded name' = true := by
  rw [recorded_iff] at h ⊢
  by_cases heq : name' = name
  · subst heq
    exact Or.inr ((update_self ..).trans_ne nofun)
  · exact h.imp (update_of_ne heq ..).trans_ne (update_of_ne heq ..).trans_ne

/-- A file moves to `done` once the watermark reached it. -/
theorem StoresSound.moves (h : s.StoresSound) {name : ObligationName} {mark : Mark}
    (hstored : s.obligations name = some mark)
    (hreached : ∃ reached ∈ s.reached, reached.epoch = mark.epoch ∧ mark.seq ≤ reached.seq) :
    (s.moves name mark).StoresSound where
  walked := h.walked.keeps rfl prefix_rfl fun _ => recorded_moves
  frames intent mark' hmark := by
    rcases hmark with hobligation | hdone
    · rw [show (s.moves name mark).obligations = update s.obligations name none from rfl,
        update_apply] at hobligation
      split at hobligation
      · cases hobligation
      · exact h.frames intent mark' (Or.inl hobligation)
    · rw [show (s.moves name mark).done = update s.done name (some mark) from rfl,
        update_apply] at hdone
      split at hdone
      next heq =>
        obtain rfl := some.inj hdone
        exact h.frames intent mark (Or.inl (heq ▸ hstored))
      · exact h.frames intent mark' (Or.inr hdone)
  done name' mark' hmark := by
    rw [show (s.moves name mark).done = update s.done name (some mark) from rfl,
      update_apply] at hmark
    split at hmark
    · obtain rfl := some.inj hmark
      exact hreached
    · exact h.done name' mark' hmark
  entombed := h.entombed
  drafter := h.drafter

/-- …which only the holder of the journal's lock does. -/
theorem keeps_moves (hc : c' ≠ c) (hlock : s.lock = some c) : s.Keeps c' (s.moves name mark) where
  base := rfl
  log := prefix_rfl
  recorded _ := recorded_moves
  reached := fun _ h => h
  locked h := absurd (some.inj (h.symm.trans hlock)) hc
  writes h := ⟨h, rfl, fun _ _ h => h, fun _ _ h => h, fun _ h => h⟩

/-- The lock passes, no call but its old holder relying on it. -/
theorem Keeps.of_lock (hlock : s.lock ≠ some c') (hbase : t.base = s.base) (hlog : s.log <+: t.log)
    (hrecorded : ∀ name, s.recorded name = true → t.recorded name = true)
    (hreached : s.reached ⊆ t.reached) (hwrites : s.writer = some c' → t.writer = some c' ∧
      t.intents = s.intents ∧ (∀ subject g, s.retired subject g = true → t.retired subject g = true) ∧
      (∀ subject g, s.Gone subject g → t.Gone subject g) ∧
      ∀ subject, s.tombstone subject = true → t.tombstone subject = true) : s.Keeps c' t :=
  ⟨hbase, hlog, hrecorded, hreached, fun h => absurd h hlock, hwrites⟩

theorem ne_of_holder (hc : c' ≠ c) (h : holder = some c) : holder ≠ some c' := by
  rintro rfl
  exact hc (some.inj h)

theorem ne_of_free (h : holder = none) : holder ≠ some c' := by
  rw [h]
  nofun

/-- **Every step keeps it.** -/
theorem Sound.step (h : s.Sound) {label : ℕ × RetireOp} (hstep : RetireStep s label t) : t.Sound := by
  cases hstep with
  | stages hfree hdrafter => exact h.staged hfree hdrafter
  | withdraws hfree => exact h.cleared hfree _
  | @publishes c id hretired =>
    have hother {subject : CustodySubject} {g : ℕ} (hgone : s.retired subject g = true)
        (hentry : s.entry subject g = false) :
        (s.setEntry id.subject id.generation true).entry subject g = false := by
      rw [entry_setEntry, if_neg]
      · exact hentry
      · rintro ⟨rfl, rfl⟩
        rw [hretired] at hgone
        cases hgone
    refine h.stays (h.stores.files rfl rfl rfl rfl rfl rfl rfl fun subject htombstone => ?_) rfl
      fun _ => ⟨rfl, prefix_rfl, fun _ h => h, fun _ h => h, fun h => ⟨h, fun _ _ h => h⟩,
        fun h => ⟨h, rfl, fun _ _ h => h, fun _ _ h => ⟨h.1, hother h.1 h.2⟩, fun _ h => h⟩⟩
    have hgone : s.Gone subject 0 :=
      gone_of_tombstone htombstone (h.stores.entombed subject htombstone)
    exact hother hgone.1 hgone.2
  | appends entry => exact h.stays (h.stores.append entry) rfl fun _ => keeps_append entry
  | records hframe hname =>
    exact h.stays (h.stores.records fun intent heq => frame_of_obligationName hframe hname intent heq)
      records_frame.1 fun _ => keeps_records
  | takesOver mark =>
    exact h.stays (h.stores.records nofun) records_frame.1 fun _ => keeps_records
  | @finishes c subject standing hidle hfree hstanding =>
    refine h.steps c _ ⟨h.stores.1, h.stores.2, h.stores.3, h.stores.4, h.stores.5⟩ rfl
      (fun c' hc => ⟨rfl, prefix_rfl, fun _ h => h, fun _ h => h, fun h => ⟨h, fun _ _ h => h⟩,
        fun h => absurd h (ne_of_free hfree)⟩) ⟨⟨rfl, hstanding⟩, nofun⟩
  | @skips c generation intent hstage hle hgone =>
    have hknows := h.knows hstage
    refine h.goes ⟨hknows.1, fun g hg => ?_⟩
    rcases Nat.lt_succ_iff_lt_or_eq.mp hg with hlt | rfl
    · exact hknows.2 g hlt
    · rcases hgone with ⟨hretired, hentry, -⟩ | ⟨rfl, htombstone⟩
      · exact ⟨hretired, hentry⟩
      · exact gone_of_tombstone htombstone (h.stores.entombed _ htombstone)
  | @marks c generation intent hstage =>
    have hknows := h.knows hstage
    exact h.steps c _ (h.stores.files rfl rfl rfl rfl rfl rfl rfl h.stores.entombed) rfl
      (fun c' hc => .of_writer hc hknows.1.1 rfl rfl rfl rfl rfl rfl)
      ⟨hknows.1, fun g hg => ⟨retired_setMarker (hknows.2 g hg).1, (hknows.2 g hg).2⟩,
        retired_setMarker_self⟩
  | @unlinks c generation intent hstage =>
    have hknows := h.knows hstage
    have hentry {subject : CustodySubject} {g : ℕ} (hentry : s.entry subject g = false) :
        (s.setEntry intent.subject generation false).entry subject g = false := by
      rw [entry_setEntry]
      split
      exacts [rfl, hentry]
    refine h.steps c _ (h.stores.files rfl rfl rfl rfl rfl rfl rfl fun subject htombstone =>
      hentry (h.stores.entombed subject htombstone)) rfl
      (fun c' hc => .of_writer hc hknows.1.1 rfl rfl rfl rfl rfl rfl) ⟨hknows.1, fun g hg => ?_⟩
    rcases Nat.lt_succ_iff_lt_or_eq.mp hg with hlt | rfl
    · exact ⟨(hknows.2.1 g hlt).1, hentry (hknows.2.1 g hlt).2⟩
    · exact ⟨hknows.2.2, by rw [entry_setEntry, if_pos ⟨rfl, rfl⟩]⟩
  | @drops c generation intent hstage =>
    have hknows := h.knows hstage
    exact h.steps c _ ⟨h.stores.1, h.stores.2, h.stores.3, h.stores.4, h.stores.5⟩ rfl
      (fun c' hc => .of_writer hc hknows.1.1 rfl rfl rfl rfl rfl rfl) hknows
  | @dropped c generation intent hstage =>
    have hknows := h.knows hstage
    exact h.goes hknows
  | @entombs c generation intent hstage _ hdrafter hretired hentry =>
    have hknows := h.knows hstage
    have hself : update s.tombstone intent.subject true intent.subject = true :=
      update_self ..
    refine h.steps c _ (h.stores.files rfl rfl rfl rfl rfl rfl rfl fun subject htombstone => ?_) rfl
      (fun c' hc => .of_writer hc hknows.1.1 rfl rfl rfl rfl rfl rfl)
      ⟨hknows.1, h.stores.drafter _ _ hknows.1.2 hdrafter, hself, gone_of_tombstone hself hentry⟩
    by_cases heq : subject = intent.subject
    · exact heq ▸ hentry
    · exact h.stores.entombed subject ((update_of_ne heq ..).symm.trans htombstone)
  | @sweeps c generation intent hstage =>
    have hknows := h.knows hstage
    have hentry {subject : CustodySubject} {g : ℕ} (hentry : s.entry subject g = false) :
        ((s.setMarker intent.subject generation false).setEntry intent.subject generation
          false).entry subject g = false := by
      rw [entry_setEntry]
      split
      exacts [rfl, hentry]
    exact h.steps c _ (h.stores.files rfl rfl rfl rfl rfl rfl rfl fun subject htombstone =>
      hentry (h.stores.entombed subject htombstone)) rfl
      (fun c' hc => .of_writer hc hknows.1.1 rfl rfl rfl rfl rfl rfl)
      ⟨hknows.1, hknows.2.1, hknows.2.2.1, gone_of_tombstone hknows.2.2.1 (hentry hknows.2.2.2.2)⟩
  | @swept c intent hstage =>
    have hknows := h.knows hstage
    have hentry {subject : CustodySubject} (hentry : s.entry subject 0 = false) :
        (s.swept intent.subject).entry subject 0 = false := by
      show update s.entry intent.subject (fun _ => false) subject 0 = false
      rw [update_apply]
      split
      exacts [rfl, hentry]
    refine h.steps c _ (h.stores.files rfl rfl rfl rfl rfl rfl rfl fun subject htombstone =>
      hentry (h.stores.entombed subject htombstone)) rfl
      (fun c' hc => .of_writer hc hknows.1.1 rfl rfl rfl rfl rfl rfl)
      ⟨⟨hknows.1, fun g hg => ?_⟩, le_rfl⟩
    rw [hknows.2.1, Nat.le_zero] at hg
    subst hg
    exact gone_of_tombstone hknows.2.2.1 (hentry hknows.2.2.2.2)
  | @retired c generation intent hstage hlt =>
    have hknows := h.knows hstage
    exact h.goes ⟨⟨hknows.1, fun g hg => hknows.2 g (by omega)⟩, le_rfl⟩
  | reconciles => exact h.goes ⟨trivial, le_rfl⟩
  | @readsPosition c before caller hstage =>
    have hknows := h.knows hstage
    exact h.goes ⟨hknows.1, hknows.2, le_rfl⟩
  | @readsWalked c before position caller hstage =>
    have hknows := h.knows hstage
    exact h.goes ⟨hknows.1, hknows.2.1, hknows.2.2, h.stores.walked⟩
  | @upToDate c before position caller hstage hle =>
    have hknows := h.knows hstage
    exact h.goes ⟨hknows.1, h.stores.walked.anti (hknows.2.1.trans hle)⟩
  | @locks c before walked position caller hstage hfree =>
    have hknows := h.knows hstage
    exact h.steps c _ ⟨h.stores.1, h.stores.2, h.stores.3, h.stores.4, h.stores.5⟩ rfl
      (fun c' _ => .of_lock (ne_of_free hfree) rfl prefix_rfl (fun _ h => h) (fun _ h => h)
        fun h => ⟨h, rfl, fun _ _ h => h, fun _ _ h => h, fun _ h => h⟩)
      ⟨by cases caller <;> exact hknows.1, hknows.2.1, hknows.2.2.1, hknows.2.2.2, rfl⟩
  | @walks c before walked position caller hstage hlt =>
    obtain ⟨hstores, hkeeps, howed, htasks⟩ := walks_sound h.stores (walked + 1)
    have hknows := (h.stages c).keeps (hkeeps c)
    rw [hstage] at hknows
    refine h.steps c _ hstores htasks (fun c' _ => hkeeps c') ⟨hknows.1, hknows.2.1, hknows.2.2.1,
      ⟨Nat.le_trans hlt hknows.2.2.1, fun seq hseq => ?_⟩, hknows.2.2.2.2⟩
    rcases Nat.le_succ_iff.mp hseq with hle | rfl
    · exact hknows.2.2.2.1.2 seq hle
    · exact howed
  | @walked c before walked position caller hstage hle =>
    have hknows := h.knows hstage
    obtain ⟨hcalled, hbefore, hposition, howed, hlock⟩ := hknows
    refine h.steps c _ ⟨?_, h.stores.2, h.stores.3, h.stores.4, h.stores.5⟩ rfl
      (fun c' hc => .of_lock (ne_of_holder hc hlock) rfl prefix_rfl (fun _ h => h)
        (fun _ h => h) fun h => ⟨h, rfl, fun _ _ h => h, fun _ _ h => h, fun _ h => h⟩)
      ⟨by cases caller <;> exact hcalled, howed.anti (hbefore.trans hle)⟩
    rcases le_total position s.base with hbase | hbase
    · rw [show max position s.base = s.base from max_eq_right hbase]
      exact owedThrough_base
    · rw [show max position s.base = position from max_eq_left hbase]
      exact howed.anti hle
  | @owed c before intent hstage hrecorded =>
    have hknows := h.knows hstage
    exact h.goes ⟨hknows.1, hrecorded⟩
  | @journals c before intent hstage =>
    have hknows := (h.stages c).keeps (keeps_append (.retire intent))
    rw [hstage] at hknows
    exact h.steps c _ (h.stores.append _) rfl (fun c' _ => keeps_append _)
      ⟨hknows.1, frame_append _⟩
  | @recordsOwn c seq intent hstage =>
    have hframe := h.knows hstage
    have hkeeps : s.Keeps c (s.records (.retire intent) ⟨s.epoch, seq⟩) := keeps_records
    have hknows := (h.stages c).keeps hkeeps
    rw [hstage] at hknows
    refine h.steps c _ (h.stores.records fun intent' heq => ?_) records_frame.1
      (fun c' _ => keeps_records) ⟨hknows.1, recorded_records⟩
    obtain rfl := ObligationName.retire.inj heq
    exact hframe.2
  | @commits c intent hstage =>
    have hknows := h.knows hstage
    refine h.steps c _ ⟨h.stores.1, h.stores.2, h.stores.3, h.stores.4, fun subject value hvalue => ?_⟩
      rfl (fun c' hc => .of_writer hc hknows.1.1.1 rfl rfl rfl rfl rfl rfl) trivial
    rw [show ({ s.cleared intent.subject with writer := none } : RetireState).intents =
      update s.intents intent.subject none from rfl, update_apply] at hvalue
    split at hvalue
    · cases hvalue
    · exact h.stores.drafter subject value hvalue
  | @advances c at_ _ hfree =>
    refine h.steps c _ ⟨h.stores.1, h.stores.2, fun name mark hdone => ?_, h.stores.4, h.stores.5⟩ rfl
      (fun c' _ => .of_lock (ne_of_free hfree) rfl prefix_rfl (fun _ h => h)
        (subset_append_left _ _) fun h => ⟨h, rfl, fun _ _ h => h, fun _ _ h => h, fun _ h => h⟩)
      ⟨rfl, mem_append_right _ mem_cons_self⟩
    obtain ⟨reached, hmem, hreached⟩ := h.stores.done name mark hdone
    exact ⟨reached, mem_append_left _ hmem, hreached⟩
  | @lists c at_ names hstage hnodup hnames =>
    have hknows := h.knows hstage
    exact h.goes ⟨hknows.1, hknows.2, hnodup, fun x hx => (hnames x.1 x.2).mp hx⟩
  | @moves c at_ mark stored name rest hstage hstored =>
    have hknows := h.knows hstage
    obtain ⟨hlock, hreached, hnodup, hnames⟩ := hknows
    obtain ⟨hmark, hepoch, hseq⟩ := hnames _ mem_cons_self
    obtain rfl := some.inj (hmark.symm.trans hstored)
    rw [map_cons, nodup_cons] at hnodup
    refine h.steps c _ (h.stores.moves hstored ⟨at_, hreached, hepoch.symm, hseq⟩) rfl
      (fun c' hc => keeps_moves hc hlock) ⟨hlock, hreached, hnodup.2, fun x hx => ?_⟩
    have hne : x.1 ≠ name := fun heq => hnodup.1 (List.mem_map.mpr ⟨x, hx, heq⟩)
    obtain ⟨hx', hrest⟩ := hnames x (mem_cons_of_mem _ hx)
    exact ⟨(update_of_ne hne ..).trans hx', hrest⟩
  | @moved c at_ hstage =>
    have hknows := h.knows hstage
    exact h.steps c _ ⟨h.stores.1, h.stores.2, h.stores.3, h.stores.4, h.stores.5⟩ rfl
      (fun c' hc => .of_lock (ne_of_holder hc hknows.1) rfl prefix_rfl (fun _ h => h)
        (fun _ h => h) fun h => ⟨h, rfl, fun _ _ h => h, fun _ _ h => h, fun _ h => h⟩) trivial
  | @stops c =>
    refine h.steps c _ ⟨h.stores.1, h.stores.2, h.stores.3, h.stores.4, h.stores.5⟩ rfl
      (fun c' hc => ⟨rfl, prefix_rfl, fun _ h => h, fun _ h => h, fun h => ⟨?_, fun _ _ h => h⟩,
        fun h => ⟨?_, rfl, fun _ _ h => h, fun _ _ h => h, fun _ h => h⟩⟩) trivial
    · exact (if_neg (ne_of_holder (Ne.symm hc) h)).trans h
    · exact (if_neg (ne_of_holder (Ne.symm hc) h)).trans h

theorem Sound.of_init (h : retireSystem.init s) : s.Sound := by
  obtain ⟨hintents, hlog, hwalked, hobligations, -, -, -, -, hidle⟩ := h
  refine ⟨⟨?_, fun intent mark hmark => ?_, fun name mark hmark => ?_, fun subject htombstone => ?_,
    fun subject value hvalue => ?_⟩, fun c => by rw [hidle]; trivial⟩
  · rw [hwalked, Nat.zero_max]
    exact owedThrough_base
  · rw [(hobligations _).1, (hobligations _).2] at hmark
    rcases hmark with hmark | hmark <;> cases hmark
  · rw [(hobligations _).2] at hmark
    cases hmark
  · rw [(hintents subject).2] at htombstone
    cases htombstone
  · rw [(hintents subject).1] at hvalue
    cases hvalue

theorem Sound.of_reachable (h : retireSystem.Reachable s) : s.Sound :=
  h.invariant Sound Sound.of_init fun hs hstep => hs.step hstep

/-! ### What one step does -/

/-- What is owed stays owed. -/
theorem recorded_step (hstep : RetireStep s label t) (h : s.recorded name = true) :
    t.recorded name = true := by
  cases hstep with
  | records | takesOver | recordsOwn => exact (keeps_records (c := 0)).recorded name h
  | @walks c before walked position caller hstage =>
    rw [walks]
    split
    · exact h
    · split
      · exact h
      · exact (keeps_records (c := 0)).recorded name h
  | moves => exact recorded_moves h
  | _ => exact h

/-- **The watermark never moves back in its epoch.** -/
theorem completed_step (hstep : RetireStep s label t) (h : s.completed = some mark) :
    ∃ mark', t.completed = some mark' ∧
      (mark'.epoch = mark.epoch → mark.seq ≤ mark'.seq) := by
  have hsame (heq : t.completed = s.completed) : ∃ mark', t.completed = some mark' ∧
      (mark'.epoch = mark.epoch → mark.seq ≤ mark'.seq) := ⟨mark, heq.trans h, fun _ => le_rfl⟩
  cases hstep with
  | @advances c at_ _ _ hbehind =>
    refine ⟨at_, rfl, fun hepoch => ?_⟩
    have hin : s.completedIn at_.epoch = some mark.seq := by
      rw [completedIn, h, filter_some, if_pos (by simpa using hepoch.symm), map_some]
    rw [hin, all_some, decide_eq_true_eq] at hbehind
    exact hbehind.le
  | records | takesOver | recordsOwn => exact hsame records_frame.2.1
  | walks => exact hsame walks_frame.2.1
  | _ => exact hsame rfl

/-- **An intent only rises while it stands**, and goes by a withdrawal of a retention or by the
finisher, whose work it names is done and owed. -/
theorem Sound.intent_step (h : s.Sound) (hstep : RetireStep s label t) {standing : IntentValue}
    (hstanding : s.intents subject = some standing) :
    (∃ value, t.intents subject = some value ∧ standing.through ≤ value.through ∧
      standing.cause.Le value.cause) ∨
    t.intents subject = none ∧ (label.2 = .withdraws subject ∧ standing.cause = .retention ∨
      (∀ g ≤ standing.through, s.Gone subject g) ∧
      ∃ mark, (s.obligations (.retire ⟨subject, standing.through, standing.cause⟩) = some mark ∨
          s.done (.retire ⟨subject, standing.through, standing.cause⟩) = some mark) ∧
        s.frame mark.seq = some (.retire ⟨subject, standing.through, standing.cause⟩)) := by
  have hsame (heq : t.intents = s.intents) : ∃ value, t.intents subject = some value ∧
      standing.through ≤ value.through ∧ standing.cause.Le value.cause :=
    ⟨standing, by rw [heq, hstanding], le_rfl, standing.cause.le_refl⟩
  cases hstep with
  | @stages c intent hfree =>
    refine Or.inl ?_
    by_cases heq : subject = intent.subject
    · subst heq
      refine ⟨⟨max standing.through intent.through, standing.cause.max intent.cause⟩, ?_,
        le_max_left _ _, standing.cause.le_max _⟩
      rw [RetireState.staged, hstanding]
      exact update_self ..
    · exact ⟨standing, (update_of_ne heq ..).trans hstanding, le_rfl, standing.cause.le_refl⟩
  | @withdraws c subject' standing' hfree hstanding' hcause =>
    by_cases heq : subject = subject'
    · subst heq
      obtain rfl := some.inj (hstanding.symm.trans hstanding')
      exact Or.inr ⟨update_self .., Or.inl ⟨rfl, hcause⟩⟩
    · exact Or.inl ⟨standing, (update_of_ne heq ..).trans hstanding, le_rfl,
        standing.cause.le_refl⟩
  | @commits c intent hstage =>
    have hknows := h.knows hstage
    obtain ⟨⟨⟨-, hintent⟩, hgone⟩, hrecorded⟩ := hknows
    by_cases heq : subject = intent.subject
    · subst heq
      obtain rfl := some.inj (hstanding.symm.trans hintent)
      refine Or.inr ⟨update_self .., Or.inr ⟨hgone, ?_⟩⟩
      rcases recorded_iff.mp hrecorded with hobligation | hdone
      · obtain ⟨mark, hmark⟩ := ne_none_iff_exists'.mp hobligation
        exact ⟨mark, Or.inl hmark, h.stores.frames intent mark (Or.inl hmark)⟩
      · obtain ⟨mark, hmark⟩ := ne_none_iff_exists'.mp hdone
        exact ⟨mark, Or.inr hmark, h.stores.frames intent mark (Or.inr hmark)⟩
    · exact Or.inl ⟨standing, (update_of_ne heq ..).trans hstanding, le_rfl,
        standing.cause.le_refl⟩
  | records | takesOver | recordsOwn => exact Or.inl (hsame records_frame.2.2.1)
  | walks => exact Or.inl (hsame walks_frame.2.2.1)
  | _ => exact Or.inl (hsame rfl)

end RetireState

/-- **A committed key retirement is carried out and stays owed**, whatever else is at work on the same
journal and wherever any call ends: an intent only rises, and clears once its generations are gone and
its frame owed; a reconcile leaves every frame there was when it was called owed; an obligation is done
only where the watermark reached it. -/
theorem custody_retirement_owed {s : RetireState} (h : retireSystem.Reachable s) :
    (∀ label t, RetireStep s label t → ∀ subject standing, s.intents subject = some standing →
      (∃ value, t.intents subject = some value ∧ standing.through ≤ value.through ∧
        standing.cause.Le value.cause) ∨
      t.intents subject = none ∧ (label.2 = .withdraws subject ∧ standing.cause = .retention ∨
        (∀ g ≤ standing.through, s.Gone subject g) ∧
        ∃ mark, (s.obligations (.retire ⟨subject, standing.through, standing.cause⟩) = some mark ∨
            s.done (.retire ⟨subject, standing.through, standing.cause⟩) = some mark) ∧
          s.frame mark.seq = some (.retire ⟨subject, standing.through, standing.cause⟩))) ∧
    ((∀ c caller before, s.tasks c = .reconciled caller before → s.OwedThrough before) ∧
      ∀ label t, RetireStep s label t → ∀ name, s.recorded name = true → t.recorded name = true) ∧
    (∀ name mark, s.done name = some mark →
      ∃ reached ∈ s.reached, reached.epoch = mark.epoch ∧ mark.seq ≤ reached.seq) ∧
    ∀ label t, RetireStep s label t → ∀ mark, s.completed = some mark →
      ∃ mark', t.completed = some mark' ∧ (mark'.epoch = mark.epoch → mark.seq ≤ mark'.seq) := by
  have hs := RetireState.Sound.of_reachable h
  refine ⟨fun label t hstep subject standing => hs.intent_step hstep,
    ⟨fun c caller before hstage => ?_, fun label t hstep name => recorded_step hstep⟩,
    hs.stores.done, fun label t hstep mark => completed_step hstep⟩
  exact (hs.knows hstage).2

section Runs

/-- A custody with one entry and nothing retired. -/
def freshCustody : RetireState :=
  { epoch := 0, base := 0, intents := fun _ => none, marker := fun _ _ => false
    entry := fun _ _ => true, tombstone := fun _ => false, carried := fun _ => 0, log := []
    walked := 0, obligations := fun _ => none, done := fun _ => none, completed := none, reached := []
    writer := none, lock := none, tasks := fun _ => .idle }

theorem freshCustody_reachable : retireSystem.Reachable freshCustody :=
  .start ⟨fun _ => ⟨rfl, rfl⟩, rfl, rfl, fun _ => ⟨rfl, rfl⟩, rfl, rfl, rfl, rfl, fun _ => rfl⟩

/-- One key's erase, to its intent's clear. -/
theorem custody_retirement_of_one : ∃ (s t : RetireState) (subject : CustodySubject),
    RetireStep s (0, .goesOn) t ∧ t.intents subject = none ∧ s.Gone subject 0 := by
  let subject : CustodySubject := ⟨.claimDecision, []⟩
  let intent : RetirementIntent := ⟨subject, 0, .erase⟩
  have hstaged := freshCustody_reachable.step
    (show RetireStep _ (0, .stages intent) _ from .stages rfl nofun)
  have hfound := hstaged.step
    (show RetireStep _ (0, .finishes subject) _ from
      .finishes rfl rfl (rfl : _ = some (IntentValue.mk 0 .erase)))
  have hmarked := hfound.step (.marks (c := 0) (rfl : _ = retiring intent 0)
    (Nat.le_refl 0) (fun h => absurd h.1 nofun) fun h => absurd h.2 nofun)
  have hunlinked := hmarked.step (.unlinks (c := 0) (rfl : _ = unlinking intent 0))
  have hdropped := hunlinked.step (.dropped (c := 0) (rfl : _ = dropping intent 0) rfl)
  have hretired := hdropped.step
    (.retired (c := 0) (rfl : _ = retiring intent 1) Nat.one_pos)
  have hread := hretired.step
    (.readsPosition (c := 0) (rfl : _ = reconciling (some intent) 0))
  have hwalked := hread.step
    (.upToDate (c := 0) (rfl : _ = positioned (some intent) 0 0) (Nat.le_refl 0))
  have hjournaled := hwalked.step
    (.journals (c := 0) (rfl : _ = reconciled (some intent) 0) rfl)
  have howed := hjournaled.step (.recordsOwn (c := 0) (rfl : _ = recording intent 1))
  have hclears {s : RetireState} (hs : retireSystem.Reachable s)
      (hstage : s.tasks 0 = .clearing intent) (hstanding : s.intents subject = some ⟨0, .erase⟩) :
      ∃ (s t : RetireState) (subject : CustodySubject),
        RetireStep s (0, .goesOn) t ∧ t.intents subject = none ∧ s.Gone subject 0 := by
    have hcleared : update s.intents subject none subject = none :=
      update_self ..
    refine ⟨s, _, subject, .commits hstage, hcleared, ?_⟩
    rcases (custody_retirement_owed hs).1 _ _ (.commits hstage) subject _ hstanding with
      ⟨_, hstands, -⟩ | ⟨-, ⟨hop, -⟩ | ⟨hgone, -⟩⟩
    · cases hcleared.symm.trans hstands
    · cases hop
    · exact hgone 0 le_rfl
  exact hclears howed rfl rfl

/-- **A reconcile overlooks a frame appended while it runs**: its appender records it. -/
theorem custody_reconcile_overlooks : ¬∀ (s : RetireState) (c : ℕ)
    (caller : Option RetirementIntent) (before : ℕ), retireSystem.Reachable s →
      s.tasks c = .reconciled caller before → ∀ seq, s.Owed seq := by
  intro h
  have hcalled := freshCustody_reachable.step (.reconciles (c := 0) rfl)
  have hread := hcalled.step (.readsPosition (c := 0) rfl)
  have hother := hread.step (.appends (c := 1) (.retireRecipient ⟨[97], ⟨List.replicate 32 0, rfl⟩, []⟩))
  have hdone := hother.step
    (.upToDate (c := 0) (rfl : _ = positioned none 0 0) (Nat.le_refl 0))
  exact absurd (h _ 0 none 0 hdone rfl 1 _ _ rfl rfl) nofun

end Runs

end Oneiron
