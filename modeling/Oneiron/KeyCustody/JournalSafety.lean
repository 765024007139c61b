import Oneiron.KeyCustody.Journal

/-!
# KeyCustody/JournalSafety — one chain, whoever writes it and whatever TIP says

A call that walks holds a point of the chain (`tipAt`), and points stay points as the chain grows.  A
frame is linked over the chain's end only: over any other point its number is taken.
-/

namespace Oneiron

open Option Function JournalStage

variable {blake3 : Bytes → Digest} {seals : Control → FrameHeader → Bytes → Bytes → Prop}
variable {lineage : CustodyLineage}

theorem val_of_checkedAdd_one {a b : U64} (h : a.checkedAdd 1 = some b) : b.val = a.val + 1 :=
  U64.checkedAdd_eq_some h

/-- The hash at a point of the chain: the base's, or a linked frame's. -/
def tipAt (blake3 : Bytes → Digest) (control : Control) (frames : U64 → Option Bytes) (seq : U64) :
    Option FrameHash :=
  if seq = control.baseSeq then some control.baseTip else (frames seq).map (frameHash blake3)

/-- **The frames are one gap-free chain after the base**, each naming its lineage, its number and the
hash of the one before. -/
structure Chain (blake3 : Bytes → Digest) (lineage : CustodyLineage) (control : Control)
    (frames : U64 → Option Bytes) (last : U64) : Prop where
  base_le : control.baseSeq.val ≤ last.val
  linked : ∀ q, frames q ≠ none ↔ control.baseSeq.val < q.val ∧ q.val ≤ last.val
  each : ∀ q frame, frames q = some frame → ∃ header body prev,
    FrameHeader.parse frame = some (header, body) ∧ header.vault = lineage.vault ∧
      header.namespace_ = lineage.namespace_ ∧ header.epoch = control.epoch ∧ header.seq = q ∧
      prev.checkedAdd 1 = some q ∧ tipAt blake3 control frames prev = some header.prev

section Points

variable {control : Control} {frames : U64 → Option Bytes} {seq next last : U64} {tip : FrameHash}

theorem tipAt_base : tipAt blake3 control frames control.baseSeq = some control.baseTip := if_pos rfl

theorem tipAt_of_frame {frame : Bytes} (hframe : frames seq = some frame)
    (hne : seq ≠ control.baseSeq) :
    tipAt blake3 control frames seq = some (frameHash blake3 frame) := by
  rw [tipAt, if_neg hne, hframe, map_some]

/-- A point stays one as frames are linked. -/
theorem tipAt_mono {frames' : U64 → Option Bytes}
    (hframes : ∀ q frame, frames q = some frame → frames' q = some frame)
    (h : tipAt blake3 control frames seq = some tip) :
    tipAt blake3 control frames' seq = some tip := by
  rw [tipAt] at h ⊢
  split
  next hbase => rwa [if_pos hbase] at h
  next hbase =>
    rw [if_neg hbase, map_eq_some_iff] at h
    obtain ⟨frame, hframe, heq⟩ := h
    rw [hframes seq frame hframe, map_some, heq]

section

variable (h : Chain blake3 lineage control frames last)

include h

theorem Chain.point_le (hpoint : tipAt blake3 control frames seq = some tip) :
    control.baseSeq.val ≤ seq.val ∧ seq.val ≤ last.val := by
  rw [tipAt] at hpoint
  split at hpoint
  next hbase => exact ⟨hbase ▸ le_rfl, hbase ▸ h.base_le⟩
  next hbase =>
    obtain ⟨frame, hframe, -⟩ := map_eq_some_iff.mp hpoint
    obtain ⟨hlt, hle⟩ := (h.linked seq).mp (by rw [hframe]; nofun)
    exact ⟨hlt.le, hle⟩

/-- **A point nothing is linked after is the end.** -/
theorem Chain.eq_last (hpoint : tipAt blake3 control frames seq = some tip)
    (hnext : seq.checkedAdd 1 = some next) (hnone : frames next = none) : seq = last := by
  obtain ⟨hbase, hle⟩ := h.point_le hpoint
  have hval := val_of_checkedAdd_one hnext
  refine U64.ext (Nat.le_antisymm hle ?_)
  by_contra hlt
  exact (h.linked next).mpr ⟨by omega, by omega⟩ hnone

/-- **A frame linked over the end extends the chain.** -/
theorem Chain.extend {header : FrameHeader} {body : Bytes} {prev : U64}
    (hbody : body.length < 4294967296) (hvault : header.vault = lineage.vault)
    (hnamespace : header.namespace_ = lineage.namespace_) (hepoch : header.epoch = control.epoch)
    (hprev : prev.checkedAdd 1 = some header.seq)
    (hpoint : tipAt blake3 control frames prev = some header.prev)
    (hnone : frames header.seq = none) :
    Chain blake3 lineage control (Function.update frames header.seq (some (header.frameOf body)))
      header.seq := by
  have hlast := h.eq_last hpoint hprev hnone
  have hval := val_of_checkedAdd_one hprev
  have hbase := h.base_le
  rw [hlast] at hval
  have hgrows (q : U64) (frame : Bytes) (hq : frames q = some frame) :
      Function.update frames header.seq (some (header.frameOf body)) q = some frame := by
    have hne : q ≠ header.seq := by
      rintro rfl
      rw [hnone] at hq
      cases hq
    rw [update_of_ne hne, hq]
  refine ⟨by omega, fun q => ?_, fun q frame hq => ?_⟩
  · by_cases heq : q = header.seq
    · subst heq
      simp only [update_self]
      exact ⟨fun _ => ⟨by omega, le_rfl⟩, fun _ => nofun⟩
    · rw [update_of_ne heq, h.linked]
      have hne : q.val ≠ header.seq.val := fun hval => heq (U64.ext hval)
      omega
  · by_cases heq : q = header.seq
    · subst heq
      rw [update_self] at hq
      obtain rfl := some.inj hq
      exact ⟨header, body, prev, header.parse_frameOf body hbody, hvault, hnamespace, hepoch, rfl,
        hprev, tipAt_mono hgrows hpoint⟩
    · rw [update_of_ne heq] at hq
      obtain ⟨header', body', prev', hparse, hv, hn, he, hseq, hp, htip⟩ := h.each q frame hq
      exact ⟨header', body', prev', hparse, hv, hn, he, hseq, hp, tipAt_mono hgrows htip⟩

end

end Points

/-! ### What each call knows -/

namespace CustodyLog

variable (s : CustodyLog) (c : ℕ)

/-- The call has linked nothing. -/
def Unlinked : Prop := ∀ q, s.linkedBy q ≠ some c

/-- The log stands at the last sequence number there is. -/
def Spent (blake3 : Bytes → Digest) : Prop :=
  ∃ control seq tip, s.control = some control ∧ seq.val = U64.top ∧
    tipAt blake3 control s.frames seq = some tip

/-- What a position returned is: the end of a prefix of the chain that holds every frame linked before
the call, or of the empty log there was. -/
def Found (blake3 : Bytes → Digest) (lineage : CustodyLineage) (position : CustodyPosition) : Prop :=
  ((∀ q, (s.tasks c).before q = none) ∧
    position = ⟨lineage.vault, lineage.namespace_, 0, 0, .zeros 32⟩) ∨
  ∃ control, s.control = some control ∧ position.vault = lineage.vault ∧
    position.namespace_ = lineage.namespace_ ∧ position.epoch = control.epoch ∧
    tipAt blake3 control s.frames position.seq = some position.tip ∧
    ∀ q, (s.tasks c).before q ≠ none → q.val ≤ position.seq.val

/-- What an append that linked its frame did: the frame, sealing its entry, is at the position, and is
all the call linked. -/
def Appended (blake3 : Bytes → Digest) (seals : Control → FrameHeader → Bytes → Bytes → Prop)
    (lineage : CustodyLineage) (position : CustodyPosition) : Prop :=
  ∃ control header body entry, s.control = some control ∧ (s.tasks c).call = .append entry ∧
    s.frames position.seq = some (header.frameOf body) ∧ header.seq = position.seq ∧
    body.length < 4294967296 ∧ seals control header entry body ∧
    position = ⟨lineage.vault, lineage.namespace_, control.epoch, header.seq,
      frameHash blake3 (header.frameOf body)⟩ ∧
    ∀ q, s.linkedBy q = some c ↔ q = position.seq

/-- What holds of a call at each stage. -/
def StageSound (blake3 : Bytes → Digest) (seals : Control → FrameHeader → Bytes → Bytes → Prop)
    (lineage : CustodyLineage) : JournalStage → Prop
  | .idle | .readControl | .linkControl => s.Unlinked c
  | .reReadControl => s.control ≠ none ∧ s.Unlinked c
  | .readTip control | .readCached control _ _ => s.control = some control ∧ s.Unlinked c
  | .readFrame control seq tip => s.control = some control ∧ s.Unlinked c ∧
      tipAt blake3 control s.frames seq = some tip
  | .sealing control found next => s.control = some control ∧ s.Unlinked c ∧
      (∃ entry, (s.tasks c).call = .append entry) ∧ found.vault = lineage.vault ∧
      found.namespace_ = lineage.namespace_ ∧
      found.seq.checkedAdd 1 = some next ∧ tipAt blake3 control s.frames found.seq = some found.tip
  | .linkFrame control header body => s.control = some control ∧ s.Unlinked c ∧
      (∃ entry, (s.tasks c).call = .append entry ∧ seals control header entry body) ∧
      body.length < 4294967296 ∧ header.vault = lineage.vault ∧
      header.namespace_ = lineage.namespace_ ∧ header.epoch = control.epoch ∧
      ∃ prev, prev.checkedAdd 1 = some header.seq ∧
        tipAt blake3 control s.frames prev = some header.prev
  | .cacheTip position => s.Appended c blake3 seals lineage position
  | .returned position =>
    match (s.tasks c).call with
    | .position => s.Found c blake3 lineage position
    | .append _ => s.Appended c blake3 seals lineage position
  | .failed => (s.tasks c).call = .position → s.Spent blake3
  | .stopped => True

/-- **What holds of a journal in every run.** -/
structure Sound (blake3 : Bytes → Digest) (seals : Control → FrameHeader → Bytes → Bytes → Prop)
    (lineage : CustodyLineage) : Prop where
  empty : s.control = none → ∀ q, s.frames q = none
  chain : ∀ control, s.control = some control →
    ∃ last, Chain blake3 lineage control s.frames last
  linked : ∀ q c, s.linkedBy q = some c → s.frames q ≠ none
  stages : ∀ c, s.StageSound c blake3 seals lineage (s.tasks c).stage
  begun : ∀ c, (s.tasks c).stage ≠ .idle → ∀ q frame, (s.tasks c).before q = some frame →
    s.frames q = some frame

/-- What only ever grows. -/
structure Grows (s t : CustodyLog) : Prop where
  control : ∀ control, s.control = some control → t.control = some control
  frames : ∀ q frame, s.frames q = some frame → t.frames q = some frame

variable {s c} {t : CustodyLog} {stage : JournalStage}

theorem Grows.of_eq (hcontrol : t.control = s.control) (hframes : t.frames = s.frames) :
    Grows s t := ⟨fun _ h => hcontrol ▸ h, fun _ _ h => hframes ▸ h⟩

theorem Spent.mono (h : s.Spent blake3) (hgrows : Grows s t) : t.Spent blake3 := by
  obtain ⟨control, seq, tip, hcontrol, htop, hpoint⟩ := h
  exact ⟨control, seq, tip, hgrows.control _ hcontrol, htop, tipAt_mono hgrows.frames hpoint⟩

/-- **What a call knows outlasts what others do.** -/
theorem StageSound.mono (h : s.StageSound c blake3 seals lineage stage) (hgrows : Grows s t)
    (hcall : (t.tasks c).call = (s.tasks c).call) (hbefore : (t.tasks c).before = (s.tasks c).before)
    (hlinked : ∀ q, t.linkedBy q = some c ↔ s.linkedBy q = some c) :
    t.StageSound c blake3 seals lineage stage := by
  have hunlinked (h : s.Unlinked c) : t.Unlinked c := fun q hq => h q ((hlinked q).mp hq)
  have hpoint {control : Control} {seq : U64} {tip : FrameHash}
      (h : tipAt blake3 control s.frames seq = some tip) :
      tipAt blake3 control t.frames seq = some tip := tipAt_mono hgrows.frames h
  have happended {position : CustodyPosition} (h : s.Appended c blake3 seals lineage position) :
      t.Appended c blake3 seals lineage position := by
    obtain ⟨control, header, body, entry, hcontrol, happend, hframe, hseq, hbody, hseals, heq, hq⟩ := h
    exact ⟨control, header, body, entry, hgrows.control _ hcontrol, hcall.trans happend,
      hgrows.frames _ _ hframe, hseq, hbody, hseals, heq, fun q => (hlinked q).trans (hq q)⟩
  cases stage with
  | idle | readControl | linkControl => exact hunlinked h
  | reReadControl =>
    obtain ⟨control, hcontrol⟩ := ne_none_iff_exists'.mp h.1
    exact ⟨by rw [hgrows.control _ hcontrol]; nofun, hunlinked h.2⟩
  | readTip | readCached => exact ⟨hgrows.control _ h.1, hunlinked h.2⟩
  | readFrame => exact ⟨hgrows.control _ h.1, hunlinked h.2.1, hpoint h.2.2⟩
  | sealing =>
    obtain ⟨hcontrol, hun, ⟨entry, hentry⟩, hvault, hnamespace, hnext, htip⟩ := h
    exact ⟨hgrows.control _ hcontrol, hunlinked hun, ⟨entry, hcall.trans hentry⟩, hvault, hnamespace,
      hnext, hpoint htip⟩
  | linkFrame =>
    obtain ⟨hcontrol, hun, ⟨entry, hentry, hseals⟩, hbody, hv, hn, he, prev, hprev, htip⟩ := h
    exact ⟨hgrows.control _ hcontrol, hunlinked hun, ⟨entry, hcall.trans hentry, hseals⟩, hbody, hv,
      hn, he, prev, hprev, hpoint htip⟩
  | cacheTip => exact happended h
  | returned position =>
    rw [StageSound] at h ⊢
    rw [hcall]
    cases hkind : (s.tasks c).call with
    | append => rw [hkind] at h; exact happended h
    | position =>
      rw [hkind] at h
      rcases h with ⟨hnone, heq⟩ | ⟨control, hcontrol, hv, hn, he, htip, hle⟩
      · exact Or.inl ⟨fun q => by rw [hbefore]; exact hnone q, heq⟩
      · exact Or.inr ⟨control, hgrows.control _ hcontrol, hv, hn, he, hpoint htip,
          fun q hq => hle q (hbefore ▸ hq)⟩
  | failed => exact fun hkind => (h (hcall ▸ hkind)).mono hgrows
  | stopped => trivial

/-! ### One operation -/

variable (s) in
@[simp] theorem tasks_goes_self : (s.goes c stage).tasks c = { s.tasks c with stage := stage } :=
  update_self ..

theorem tasks_goes_of_ne {c' : ℕ} (h : c' ≠ c) : (s.goes c stage).tasks c' = s.tasks c' :=
  update_of_ne h ..

/-- A call that goes on to where it knows enough. -/
theorem Sound.goes (h : s.Sound blake3 seals lineage) (hnotIdle : (s.tasks c).stage ≠ .idle)
    (hstage : s.StageSound c blake3 seals lineage stage) :
    (s.goes c stage).Sound blake3 seals lineage where
  empty := h.empty
  chain := h.chain
  linked := h.linked
  stages c' := by
    have hgrows : Grows s (s.goes c stage) := .of_eq rfl rfl
    by_cases hc : c' = c
    · subst hc
      rw [tasks_goes_self]
      exact hstage.mono hgrows (by rw [tasks_goes_self]) (by rw [tasks_goes_self]) fun _ => Iff.rfl
    · rw [tasks_goes_of_ne hc]
      exact (h.stages c').mono hgrows (by rw [tasks_goes_of_ne hc]) (by rw [tasks_goes_of_ne hc])
        fun _ => Iff.rfl
  begun c' hne q frame hq := by
    by_cases hc : c' = c
    · subst hc
      rw [tasks_goes_self] at hq
      exact h.begun c' hnotIdle q frame hq
    · rw [tasks_goes_of_ne hc] at hne hq
      exact h.begun c' hne q frame hq

/-- The rows may change so that what stood stands, for whoever is at work. -/
theorem Sound.begins (h : s.Sound blake3 seals lineage) (call : JournalCall)
    (hidle : (s.tasks c).stage = .idle) : (s.begins c call).Sound blake3 seals lineage where
  empty := h.empty
  chain := h.chain
  linked := h.linked
  stages c' := by
    by_cases hc : c' = c
    · subst hc
      have hun := h.stages c'
      rw [hidle] at hun
      rw [show (s.begins c' call).tasks c' = ⟨call, .readControl, s.frames⟩ from
        update_self ..]
      exact hun
    · have htask : (s.begins c call).tasks c' = s.tasks c' := update_of_ne hc ..
      rw [htask]
      exact (h.stages c').mono (.of_eq rfl rfl) (by rw [htask]) (by rw [htask]) fun _ => Iff.rfl
  begun c' hne q frame hq := by
    by_cases hc : c' = c
    · subst hc
      rw [show (s.begins c' call).tasks c' = ⟨call, .readControl, s.frames⟩ from
        update_self ..] at hq
      exact hq
    · have htask : (s.begins c call).tasks c' = s.tasks c' := update_of_ne hc ..
      rw [htask] at hne hq
      exact h.begun c' hne q frame hq

/-- TIP may say anything. -/
theorem Sound.tipBecomes (h : s.Sound blake3 seals lineage) (tip : Option Bytes) :
    { s with tip := tip }.Sound blake3 seals lineage where
  empty := h.empty
  chain := h.chain
  linked := h.linked
  stages c := (h.stages c).mono (.of_eq rfl rfl) rfl rfl fun _ => Iff.rfl
  begun := h.begun

/-- **The first control state begins an empty chain.** -/
theorem Sound.linkControl (h : s.Sound blake3 seals lineage) (secret : FixedBytes 32)
    (hnone : s.control = none) :
    { s with control := some (.fresh secret) }.Sound blake3 seals lineage where
  empty := nofun
  chain := by
    rintro control ⟨⟩
    refine ⟨0, le_rfl, fun q => ?_, fun q frame hq => ?_⟩
    · rw [h.empty hnone q]
      exact ⟨fun hne => absurd rfl hne, fun ⟨hlt, hle⟩ => absurd hle (Nat.not_le.mpr hlt)⟩
    · rw [h.empty hnone q] at hq
      cases hq
  linked := h.linked
  stages c := by
    refine (h.stages c).mono ⟨fun control hcontrol => ?_, fun _ _ => id⟩ rfl rfl fun _ => Iff.rfl
    rw [hnone] at hcontrol
    cases hcontrol
  begun := h.begun

section Walk

variable {control : Control} {seq next : U64} {tip : FrameHash}

/-- A walk starts at the base, or at a frame TIP names. -/
theorem stageSound_base (hcontrol : s.control = some control) (hun : s.Unlinked c) :
    s.StageSound c blake3 seals lineage (.readFrame control control.baseSeq control.baseTip) :=
  ⟨hcontrol, hun, tipAt_base⟩

theorem stageSound_onTip (hcontrol : s.control = some control) (hun : s.Unlinked c) :
    s.StageSound c blake3 seals lineage (.onTip control s.tip) := by
  rw [onTip]
  split
  · split
    · exact ⟨hcontrol, hun⟩
    · exact stageSound_base hcontrol hun
  · exact stageSound_base hcontrol hun

/-- **What TIP says is taken where the frame it names is there.** -/
theorem Sound.stageSound_onCached (h : s.Sound blake3 seals lineage)
    (hcontrol : s.control = some control) (hun : s.Unlinked c) :
    s.StageSound c blake3 seals lineage (.onCached blake3 control seq tip (s.frames seq)) := by
  rw [onCached]
  cases hframe : s.frames seq with
  | none => exact stageSound_base hcontrol hun
  | some frame =>
    rw [any_some]
    by_cases hhash : frameHash blake3 frame = tip
    · rw [if_pos (decide_eq_true hhash)]
      obtain ⟨last, hchain⟩ := h.chain control hcontrol
      have hlt := ((hchain.linked seq).mp (by rw [hframe]; nofun)).1
      have hne : seq ≠ control.baseSeq := by
        rintro rfl
        exact absurd hlt (lt_irrefl _)
      exact ⟨hcontrol, hun, by rw [tipAt_of_frame hframe hne, hhash]⟩
    · rw [if_neg (by simpa using hhash)]
      exact stageSound_base hcontrol hun

/-- **A walk goes from point to point**, and ends at the chain's end. -/
theorem Sound.stageSound_onFrame (h : s.Sound blake3 seals lineage)
    (hnotIdle : (s.tasks c).stage ≠ .idle) (hcontrol : s.control = some control)
    (hun : s.Unlinked c) (hpoint : tipAt blake3 control s.frames seq = some tip)
    (hnext : seq.checkedAdd 1 = some next) :
    s.StageSound c blake3 seals lineage
      (.onFrame blake3 lineage (s.tasks c).call control seq tip next (s.frames next)) := by
  obtain ⟨last, hchain⟩ := h.chain control hcontrol
  cases hframe : s.frames next with
  | none =>
    have hlast := hchain.eq_last hpoint hnext hframe
    rw [onFrame]
    cases hcall : (s.tasks c).call with
    | position =>
      rw [onEnd, StageSound, hcall]
      refine Or.inr ⟨control, hcontrol, rfl, rfl, rfl, hpoint, fun q hq => ?_⟩
      obtain ⟨frame, hq⟩ := ne_none_iff_exists'.mp hq
      have hlinked := h.begun c hnotIdle q frame hq
      exact hlast ▸ ((hchain.linked q).mp (by rw [hlinked]; nofun)).2
    | append entry =>
      simp only [onEnd, hnext]
      exact ⟨hcontrol, hun, ⟨entry, hcall⟩, rfl, rfl, hnext, hpoint⟩
  | some frame =>
    obtain ⟨header, body, prev, hparse, hvault, hnamespace, hepoch, hseq, hprev, htip⟩ :=
      hchain.each next frame hframe
    have hsame : prev = seq := by
      have hval := val_of_checkedAdd_one hprev
      rw [val_of_checkedAdd_one hnext] at hval
      exact U64.ext (Nat.succ_injective hval).symm
    rw [hsame, hpoint] at htip
    have hok : ¬(header.seq ≠ next ∨ header.prev ≠ tip ∨ control.epoch.val < header.epoch.val ∨
        header.vault ≠ lineage.vault ∨ header.namespace_ ≠ lineage.namespace_) := by
      rw [hseq, ← some.inj htip, hepoch, hvault, hnamespace]
      simp
    have hne : next ≠ control.baseSeq := by
      rintro rfl
      exact absurd ((hchain.linked control.baseSeq).mp (by rw [hframe]; nofun)).1 (lt_irrefl _)
    rw [onFrame]
    simp only [hparse, if_neg hok]
    exact ⟨hcontrol, hun, tipAt_of_frame hframe hne⟩

/-- No number is after the last there is. -/
theorem spent_of_checkedAdd (hcontrol : s.control = some control)
    (hpoint : tipAt blake3 control s.frames seq = some tip) (hnone : seq.checkedAdd 1 = none) :
    s.Spent blake3 := by
  refine ⟨control, seq, tip, hcontrol, ?_, hpoint⟩
  rw [U64.checkedAdd] at hnone
  split at hnone
  · cases hnone
  next hover =>
    have hone : (1 : U64).val = 1 := rfl
    have hle := seq.le_top
    omega

end Walk

/-- **A frame is linked over the chain's end.** -/
theorem Sound.linkFrame {control : Control} {header : FrameHeader} {body : Bytes}
    (h : s.Sound blake3 seals lineage)
    (hstage : (s.tasks c).stage = .linkFrame control header body)
    (hnone : s.frames header.seq = none) :
    ((s.links c header.seq (header.frameOf body)).goes c (.cacheTip
      ⟨header.vault, header.namespace_, control.epoch, header.seq,
        frameHash blake3 (header.frameOf body)⟩)).Sound blake3 seals lineage := by
  have hknows := h.stages c
  rw [hstage] at hknows
  obtain ⟨hcontrol, hun, ⟨entry, hcall, hseals⟩, hbody, hvault, hnamespace, hepoch, prev, hprev,
    hpoint⟩ := hknows
  obtain ⟨last, hchain⟩ := h.chain control hcontrol
  have hgrows : Grows s (s.links c header.seq (header.frameOf body)) := by
    refine ⟨fun _ => id, fun q frame hq => ?_⟩
    have hne : q ≠ header.seq := by
      rintro rfl
      rw [hnone] at hq
      cases hq
    exact (update_of_ne hne ..).trans hq
  have hlinked (q : U64) : (s.links c header.seq (header.frameOf body)).linkedBy q =
      if q = header.seq then some c else s.linkedBy q := by
    by_cases hq : q = header.seq
    · subst hq
      exact (update_self ..).trans (if_pos rfl).symm
    · exact (update_of_ne hq ..).trans (if_neg hq).symm
  have howner (c' : ℕ) (hc : c' ≠ c) (q : U64) :
      (s.links c header.seq (header.frameOf body)).linkedBy q = some c' ↔ s.linkedBy q = some c' := by
    rw [hlinked]
    split
    next hq =>
      subst hq
      refine ⟨fun heq => absurd (some.inj heq).symm hc, fun heq => ?_⟩
      exact absurd hnone (h.linked _ _ heq)
    · exact Iff.rfl
  refine
    { empty := fun hnone => ?_
      chain := fun control' hcontrol' => ?_
      linked := fun q c' hq => ?_
      stages := fun c' => ?_
      begun := fun c' hne q frame hq => ?_ }
  · rw [show s.control = none from hnone] at hcontrol
    cases hcontrol
  · obtain rfl : control = control' := some.inj (hcontrol.symm.trans hcontrol')
    exact ⟨header.seq, hchain.extend hbody hvault hnamespace hepoch hprev hpoint hnone⟩
  · by_cases heq : q = header.seq
    · subst heq
      show Function.update s.frames header.seq _ header.seq ≠ none
      rw [update_self]
      nofun
    · have hold : s.linkedBy q = some c' := by
        have hq' := hq
        rw [show ((s.links c header.seq (header.frameOf body)).goes c _).linkedBy q =
          (s.links c header.seq (header.frameOf body)).linkedBy q from rfl, hlinked, if_neg heq] at hq'
        exact hq'
      show Function.update s.frames header.seq _ q ≠ none
      rw [update_of_ne heq]
      exact h.linked q c' hold
  · by_cases hc : c' = c
    · subst hc
      rw [tasks_goes_self]
      refine ⟨control, header, body, entry, hcontrol, ?_, update_self .., rfl, hbody, hseals,
        by rw [hvault, hnamespace], fun q => ?_⟩
      · rw [tasks_goes_self]
        exact hcall
      · show (s.links c' header.seq (header.frameOf body)).linkedBy q = some c' ↔ _
        rw [hlinked]
        split
        next hq => exact ⟨fun _ => hq, fun _ => rfl⟩
        next hq => exact ⟨fun heq => absurd heq (hun q), fun heq => absurd heq hq⟩
    · have htask : ((s.links c header.seq (header.frameOf body)).goes c (.cacheTip
          ⟨header.vault, header.namespace_, control.epoch, header.seq,
            frameHash blake3 (header.frameOf body)⟩)).tasks c' = s.tasks c' :=
        update_of_ne hc ..
      rw [htask]
      exact (h.stages c').mono ⟨hgrows.control, hgrows.frames⟩ (by rw [htask]) (by rw [htask])
        (howner c' hc)
  · by_cases hc : c' = c
    · subst hc
      rw [tasks_goes_self] at hq
      exact hgrows.frames q frame (h.begun c' (by rw [hstage]; nofun) q frame hq)
    · have htask : ((s.links c header.seq (header.frameOf body)).goes c (.cacheTip
          ⟨header.vault, header.namespace_, control.epoch, header.seq,
            frameHash blake3 (header.frameOf body)⟩)).tasks c' = s.tasks c' :=
        update_of_ne hc ..
      rw [htask] at hne hq
      exact hgrows.frames q frame (h.begun c' hne q frame hq)

/-- **Every operation keeps it.** -/
theorem Sound.step (h : s.Sound blake3 seals lineage)
    (hstep : JournalStep blake3 seals lineage s c t) : t.Sound blake3 seals lineage := by
  have hknows := h.stages c
  cases hstep with
  | begins call hidle => exact h.begins call hidle
  | readControl hstage =>
    rw [hstage] at hknows
    refine h.goes (by rw [hstage]; nofun) ?_
    cases hcontrol : s.control with
    | some control => exact ⟨hcontrol, hknows⟩
    | none =>
      cases hcall : (s.tasks c).call with
      | append => exact hknows
      | position =>
        rw [onControl, StageSound, hcall]
        refine Or.inl ⟨fun q => ?_, rfl⟩
        by_contra hne
        obtain ⟨frame, hq⟩ := ne_none_iff_exists'.mp hne
        have hlinked := h.begun c (by rw [hstage]; nofun) q frame hq
        rw [h.empty hcontrol] at hlinked
        cases hlinked
  | linkControl secret hstage hnone =>
    rw [hstage] at hknows
    exact (h.linkControl secret hnone).goes (by rw [hstage]; nofun) ⟨rfl, hknows⟩
  | controlStands hstage hne =>
    rw [hstage] at hknows
    exact h.goes (by rw [hstage]; nofun) ⟨hne, hknows⟩
  | reReadControl hstage =>
    rw [hstage] at hknows
    obtain ⟨control, hcontrol⟩ := ne_none_iff_exists'.mp hknows.1
    refine h.goes (by rw [hstage]; nofun) ?_
    rw [hcontrol]
    exact ⟨hcontrol, hknows.2⟩
  | readTip hstage =>
    rw [hstage] at hknows
    exact h.goes (by rw [hstage]; nofun) (stageSound_onTip hknows.1 hknows.2)
  | readCached hstage =>
    rw [hstage] at hknows
    exact h.goes (by rw [hstage]; nofun) (h.stageSound_onCached hknows.1 hknows.2)
  | readFrame hstage hnext =>
    rw [hstage] at hknows
    have hnotIdle : (s.tasks c).stage ≠ .idle := by rw [hstage]; nofun
    exact h.goes hnotIdle
      (h.stageSound_onFrame hnotIdle hknows.1 hknows.2.1 hknows.2.2 hnext)
  | spent hstage hnone =>
    rw [hstage] at hknows
    exact h.goes (by rw [hstage]; nofun) fun _ => spent_of_checkedAdd hknows.1 hknows.2.2 hnone
  | sealing body hstage hcall hseals hbody =>
    rw [hstage] at hknows
    obtain ⟨hcontrol, hun, -, hvault, hnamespace, hnext, hpoint⟩ := hknows
    exact h.goes (by rw [hstage]; nofun)
      ⟨hcontrol, hun, ⟨_, hcall, hseals⟩, hbody, hvault, hnamespace, rfl, _, hnext, hpoint⟩
  | sealFails hstage =>
    rw [hstage] at hknows
    obtain ⟨-, -, ⟨entry, hcall⟩, -⟩ := hknows
    exact h.goes (by rw [hstage]; nofun) fun hposition => by rw [hcall] at hposition; cases hposition
  | linkFrame hstage hnone => exact h.linkFrame hstage hnone
  | frameStands hstage =>
    rw [hstage] at hknows
    exact h.goes (by rw [hstage]; nofun) ⟨hknows.1, hknows.2.1⟩
  | cacheTip hstage =>
    rw [hstage] at hknows
    refine (h.tipBecomes _).goes (by rw [hstage]; nofun) ?_
    have hkept := hknows
    obtain ⟨_, _, _, entry, _, hcall, _⟩ := hknows
    rw [StageSound]
    simp only [hcall]
    exact hkept
  | tipNotCached hstage =>
    rw [hstage] at hknows
    refine h.goes (by rw [hstage]; nofun) ?_
    have hkept := hknows
    obtain ⟨_, _, _, entry, _, hcall, _⟩ := hknows
    rw [StageSound]
    simp only [hcall]
    exact hkept
  | stops hnotIdle => exact h.goes hnotIdle trivial
  | tipBecomes tip => exact h.tipBecomes tip

theorem Sound.init (h : (journalSystem blake3 seals lineage).init s) : s.Sound blake3 seals lineage where
  empty _ q := (h.1 q).1
  chain control _ := by
    refine ⟨control.baseSeq, le_rfl, fun q => ?_, fun q frame hq => ?_⟩
    · rw [(h.1 q).1]
      exact ⟨fun hne => absurd rfl hne, fun ⟨hlt, hle⟩ => absurd hle (Nat.not_le.mpr hlt)⟩
    · rw [(h.1 q).1] at hq
      cases hq
  linked q c hq := by
    rw [(h.1 q).2] at hq
    cases hq
  stages c := by
    rw [h.2 c]
    intro q hq
    rw [(h.1 q).2] at hq
    cases hq
  begun c hne := absurd (h.2 c) hne

theorem Sound.of_reachable (h : (journalSystem blake3 seals lineage).Reachable s) :
    s.Sound blake3 seals lineage :=
  h.invariant (·.Sound blake3 seals lineage) Sound.init Sound.step

/-- **Frames stay as they were linked.** -/
theorem grows_of_step (hstep : JournalStep blake3 seals lineage s c t) : Grows s t := by
  cases hstep with
  | linkControl secret hstage hnone =>
    refine ⟨fun control hcontrol => ?_, fun _ _ => id⟩
    rw [hnone] at hcontrol
    cases hcontrol
  | @linkFrame control header body hstage hnone =>
    refine ⟨fun _ => id, fun q frame hq => ?_⟩
    have hne : q ≠ header.seq := by
      rintro rfl
      rw [hnone] at hq
      cases hq
    exact (update_of_ne hne ..).trans hq
  | _ => exact .of_eq rfl rfl

end CustodyLog

/-- **The custody journal is one append-only chain, whoever writes it.**  A position found is the end of
a prefix of it that holds every frame linked before the call, and fails only where the log stands at
the last sequence number; an append that returned linked its frame, and no other, at its position. -/
theorem custody_journal_one_chain (blake3 : Bytes → Digest)
    (seals : Control → FrameHeader → Bytes → Bytes → Prop) (lineage : CustodyLineage)
    {s : CustodyLog} (h : (journalSystem blake3 seals lineage).Reachable s) :
    ((s.control = none → ∀ q, s.frames q = none) ∧
      (∀ control, s.control = some control → ∃ last, Chain blake3 lineage control s.frames last) ∧
      ∀ c t, JournalStep blake3 seals lineage s c t → s.Grows t) ∧
    (∀ c, (s.tasks c).call = .position →
      (∀ position, (s.tasks c).stage = .returned position → s.Found c blake3 lineage position) ∧
        ((s.tasks c).stage = .failed → s.Spent blake3)) ∧
    ((∀ c entry position, (s.tasks c).call = .append entry →
        (s.tasks c).stage = .returned position → s.Appended c blake3 seals lineage position) ∧
      ∀ c c' entry entry' position position', (s.tasks c).call = .append entry →
        (s.tasks c).stage = .returned position → (s.tasks c').call = .append entry' →
        (s.tasks c').stage = .returned position' → position.seq = position'.seq → c = c') := by
  have hs := CustodyLog.Sound.of_reachable h
  have happended (c : ℕ) (entry : Bytes) (position : CustodyPosition)
      (hcall : (s.tasks c).call = .append entry) (hstage : (s.tasks c).stage = .returned position) :
      s.Appended c blake3 seals lineage position := by
    have hknows := hs.stages c
    rw [hstage, CustodyLog.StageSound, hcall] at hknows
    exact hknows
  refine ⟨⟨hs.empty, hs.chain, fun c t => CustodyLog.grows_of_step⟩,
    fun c hcall => ⟨fun position hstage => ?_, fun hstage => ?_⟩, happended, ?_⟩
  · have hknows := hs.stages c
    rw [hstage, CustodyLog.StageSound, hcall] at hknows
    exact hknows
  · have hknows := hs.stages c
    rw [hstage] at hknows
    exact hknows hcall
  · intro c c' entry entry' position position' hcall hstage hcall' hstage' hseq
    obtain ⟨_, _, _, _, _, _, _, _, _, _, _, hlinked⟩ := happended c entry position hcall hstage
    obtain ⟨_, _, _, _, _, _, _, _, _, _, _, hlinked'⟩ := happended c' entry' position' hcall' hstage'
    have hc := (hlinked position.seq).mpr rfl
    have hc' := (hlinked' position.seq).mpr hseq
    exact some.inj (hc.symm.trans hc')

section Runs

/-- A lineage of zeros. -/
def zeroLineage : CustodyLineage := ⟨.zeros 32, .zeros 16⟩

/-- A journal nothing called yet. -/
def idleJournal (control : Option Control) : CustodyLog :=
  ⟨control, none, fun _ => none, fun _ => none, fun _ => ⟨.position, .idle, fun _ => none⟩⟩

/-- An envelope that is its own entry. -/
abbrev Plain : Control → FrameHeader → Bytes → Bytes → Prop := fun _ _ entry body => body = entry

/-- BLAKE3, at the first frame and at the second. -/
def racedBlake3 (b : Bytes) : Digest :=
  ⟨digits 32 <| if b.getLast? = some 7 then 0xa00ecca55b58a62c799c7a045e9747b1ea7675fef15766a0a4df40b81be5d949
    else 0xd861f0d9b9a7c519e18553285abbb06f75526484dde342bf36623d55082d0df7, length_digits ..⟩

/-- Two appenders race on a fresh lineage while TIP names a frame there never was: one makes the control
state and links the first frame, and the other links its own after it. -/
theorem custody_journal_race : ∃ (s : CustodyLog) (first second : CustodyPosition),
    (s.tasks 0).stage = .returned first ∧ first.seq = 1 ∧
    (s.tasks 1).stage = .returned second ∧ second.seq = 2 ∧
    s.Appended 0 racedBlake3 Plain zeroLineage first ∧
    s.Appended 1 racedBlake3 Plain zeroLineage second := by
  have hidle : (journalSystem racedBlake3 Plain zeroLineage).Reachable (idleJournal none) :=
    .start ⟨fun _ => ⟨rfl, rfl⟩, fun _ => rfl⟩
  have hbegun := (hidle.step (.begins (c := 0) (.append [7]) rfl)).step (.begins (c := 1) (.append [8]) rfl)
  have hread := (hbegun.step (.readControl (c := 0) rfl)).step (.readControl (c := 1) rfl)
  have hcontrol := hread.step (.linkControl (c := 0) (.zeros 32) rfl rfl)
  have hstands := (hcontrol.step (.controlStands (c := 1) rfl nofun)).step (.reReadControl (c := 1) rfl)
  have hstale := hstands.step (.tipBecomes (c := 1) (some (digits 8 5 ++ List.replicate 32 0)))
  have htip := (hstale.step (.readTip (c := 0) rfl)).step (.readTip (c := 1) rfl)
  have hcached := (htip.step (.readCached (c := 0) rfl)).step (.readCached (c := 1) rfl)
  have hend := (hcached.step (.readFrame (c := 0) rfl rfl)).step (.readFrame (c := 1) rfl rfl)
  have hsealed := (hend.step (.sealing (c := 0) [7] rfl rfl rfl (by decide))).step
    (.sealing (c := 1) [8] rfl rfl rfl (by decide))
  have hlinked := (hsealed.step (.linkFrame (c := 0) rfl rfl)).step (.frameStands (c := 1) rfl nofun)
  have hagain := (hlinked.step (.readTip (c := 1) rfl)).step (.readCached (c := 1) rfl)
  have hafter := (hagain.step (.readFrame (c := 1) rfl rfl)).step (.readFrame (c := 1) rfl rfl)
  have hresealed := (hafter.step (.sealing (c := 1) [8] rfl rfl rfl (by decide))).step
    (.linkFrame (c := 1) rfl rfl)
  have hreturned := (hresealed.step (.tipNotCached (c := 0) rfl)).step (.cacheTip (c := 1) rfl)
  have happended := (custody_journal_one_chain racedBlake3 Plain zeroLineage hreturned).2.2.1
  exact ⟨_, _, _, rfl, rfl, rfl, rfl, happended 0 [7] _ rfl rfl, happended 1 [8] _ rfl rfl⟩

/-- **A position fails where the log's base is the last sequence number.** -/
theorem custody_journal_spent : ¬∀ (blake3 : Bytes → Digest) (lineage : CustodyLineage)
    (s : CustodyLog) (c : ℕ), (journalSystem blake3 Plain lineage).Reachable s →
      (s.tasks c).call = .position → (s.tasks c).stage ≠ .failed := by
  intro h
  have hidle : (journalSystem (fun _ => ⟨List.replicate 32 0, rfl⟩) Plain zeroLineage).Reachable
      (idleJournal (some ⟨.zeros 32, 1, 18446744073709551615, .zeros 32⟩)) :=
    .start ⟨fun _ => ⟨rfl, rfl⟩, fun _ => rfl⟩
  have hbegun := hidle.step (.begins (c := 0) .position rfl)
  have hread := hbegun.step (.readControl (c := 0) rfl)
  have htip := hread.step (.readTip (c := 0) rfl)
  have hfailed := htip.step (.spent (c := 0) rfl rfl)
  exact h _ _ _ 0 hfailed rfl rfl

end Runs

end Oneiron
