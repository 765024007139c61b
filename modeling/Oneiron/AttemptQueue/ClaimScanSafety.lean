import Oneiron.AttemptQueue.ClaimScan

/-!
# AttemptQueue/ClaimScanSafety — what a claim leaves of the ready index

An entry **stands** when it names a row at the row's own instant.  `Keeps` says what a stretch of a
claim does to the index: it goes step by step (`Keeps.trans`), a batch of repairs is one step
(`Keeps.edits`), and so is a row leaving the waiting ones with its entry (`Keeps.retire`).  Each door
is a composition of these, and takes the first entry in key order whose row it may take.
-/

open Std

namespace Oneiron

open List Function Except Prod

namespace AttemptQueue

variable {records : AttemptId → Option StoredRow} {rule : ClaimRule} {entry : KvPair}
  {id : AttemptId} {record : AttemptRecord} {ready : UInt64}

/-- The entry naming a row at an instant. -/
def entryAt (ready : UInt64) (id : AttemptId) : KvPair := (readyKey ready id, id.asBytes)

/-- A row waits to run. -/
def Waits (records : AttemptId → Option StoredRow) (id : AttemptId) (record : AttemptRecord) : Prop :=
  records id = some (.record record) ∧ record.state.isReadyIndexed = true

/-- An entry names a row at the row's own instant, or one whose bytes do not decode. -/
def Stands (records : AttemptId → Option StoredRow) (entry : KvPair) : Prop :=
  ∃ ready id, entry = entryAt ready id ∧ ((∃ e, records id = some (.undecodable e)) ∨
    ∃ record, Waits records id record ∧ readyAt record = ready)

/-- A row the door does not take, whose readiness it must not touch. -/
inductive ClaimRule.PassesOver (rule : ClaimRule) (record : AttemptRecord) : Prop
  | early (h : rule.cutoff < readyAt record)
  | foreign (h : rule.passes record = false)
  | refused (hdispatch : rule.dispatchReady record = .ok true) (h : rule.permits record = .ok false)

/-- A row the door takes when it meets it. -/
structure ClaimRule.Takes (rule : ClaimRule) (record : AttemptRecord) : Prop where
  due : ¬ rule.cutoff < readyAt record
  passes : rule.passes record = true
  dispatchReady : rule.dispatchReady record = .ok true
  permits : rule.permits record = .ok true
  free : rule.hold record = .ok none

/-- An entry names a waiting row, at any instant, that the door takes. -/
def Eligible (rule : ClaimRule) (records : AttemptId → Option StoredRow) (entry : KvPair)
    (id : AttemptId) (record : AttemptRecord) : Prop :=
  (∃ ready, entry = entryAt ready id) ∧ Waits records id record ∧ rule.Takes record

theorem entryAt_injective {ready ready' : UInt64} {id id' : AttemptId}
    (h : entryAt ready id = entryAt ready' id') : ready = ready' ∧ id = id' :=
  readyKey_injective (mk.inj h).1

variable {record' : AttemptRecord} {found : Finding} {doors : Doors} {key value : Bytes}
  {tables next : Tables} {now : UInt64} {taken : Option Taken}

theorem Waits.unique (h : Waits records id record) (h' : Waits records id record') :
    record = record' := by
  have := h.1.symm.trans h'.1
  simpa using this

/-- An entry naming a waiting row stands only at the row's own instant. -/
theorem readyAt_eq_of_stands (hwaits : Waits records id record)
    (h : Stands records (entryAt ready id)) : readyAt record = ready := by
  obtain ⟨ready', id', hentry, hrow⟩ := h
  obtain ⟨rfl, rfl⟩ := entryAt_injective hentry
  rcases hrow with ⟨e, he⟩ | ⟨record', hwaits', hready⟩
  · exact nomatch hwaits.1.symm.trans he
  · rw [hwaits.unique hwaits', hready]

theorem stands_own (hwaits : Waits records id record) :
    Stands records (entryAt (readyAt record) id) :=
  ⟨_, id, rfl, Or.inr ⟨record, hwaits, rfl⟩⟩

/-! ## One entry -/

/-- **What an action on an entry may be.** -/
structure EntryAction.Of (records : AttemptId → Option StoredRow) (rule : ClaimRule)
    (entry : KvPair) (action : EntryAction) : Prop where
  faulty : action.stale = true → ¬ Stands records entry
  own : ∀ p, action.replacement = some p →
    ∃ record, Waits records p.2 record ∧ p.1 = readyKey (readyAt record) p.2
  restored : ∀ ready id record, entry = entryAt ready id → Waits records id record →
    rule.PassesOver record →
      ready = readyAt record ∨ action.replacement = some (readyKey (readyAt record) id, id)
  claimed : ∀ id record, action.claim = some (id, record) → Eligible rule records entry id record
  unclaimed : action.claim = none → ∀ id record, ¬ Eligible rule records entry id record

/-- An entry that names no waiting row is stale and comes to nothing else. -/
theorem EntryAction.Of.stale (hstands : ¬ Stands records entry)
    (h : ∀ ready id record, entry = entryAt ready id → ¬ Waits records id record) :
    EntryAction.Of records rule entry { stale := true } where
  faulty _ := hstands
  own _ hp := (Option.some_ne_none _ hp.symm).elim
  restored ready id record he hw _ := absurd hw (h ready id record he)
  claimed _ _ hp := (Option.some_ne_none _ hp.symm).elim
  unclaimed _ id record := fun ⟨⟨ready, he⟩, hw, _⟩ => h ready id record he hw

/-- The body's end leaves by one of four ways. -/
theorem scanRecord_cases (h : scanRecord rule ready id record = .ok found) :
    let stale : Bool := readyAt record ≠ ready;
    let replacement := if stale then some (readyKey (readyAt record) id, id) else none;
    (rule.PassesOver record ∧ found = { stale, replacement }) ∨
    (rule.dispatchReady record = .ok false ∧ ¬ rule.cutoff < readyAt record ∧
      rule.passes record = true ∧ found = { stale }) ∨
    (∃ hold, rule.hold record = .ok (some hold) ∧ ¬ rule.cutoff < readyAt record ∧
      rule.passes record = true ∧ rule.permits record = .ok true ∧
      found = { stale, held := some (id, hold) }) ∨
    (rule.Takes record ∧ found = { stale, claim := some (id, record) }) := by
  simp only [scanRecord] at h
  split at h
  · next hearly => exact Or.inl ⟨.early hearly, (pure_eq_ok.mp h).symm⟩
  next hdue =>
  split at h
  · next hpasses => exact Or.inl ⟨.foreign (by simpa using hpasses), (pure_eq_ok.mp h).symm⟩
  next hpasses =>
  have hpasses : rule.passes record = true := by simpa using hpasses
  obtain ⟨dispatch, hdispatch, h⟩ := bind_eq_ok.mp h
  cases dispatch with
  | false => exact Or.inr (Or.inl ⟨hdispatch, hdue, hpasses, (pure_eq_ok.mp h).symm⟩)
  | true =>
    obtain ⟨permitted, hpermits, h⟩ := bind_eq_ok.mp h
    cases permitted with
    | false => exact Or.inl ⟨.refused hdispatch hpermits, (pure_eq_ok.mp h).symm⟩
    | true =>
      obtain ⟨hold, hhold, h⟩ := bind_eq_ok.mp h
      cases hold with
      | some hold =>
        exact Or.inr (Or.inr (Or.inl ⟨hold, hhold, hdue, hpasses, hpermits,
          (pure_eq_ok.mp h).symm⟩))
      | none =>
        exact Or.inr (Or.inr (Or.inr ⟨⟨hdue, hpasses, hdispatch, hpermits, hhold⟩,
          (pure_eq_ok.mp h).symm⟩))

/-- What an entry of a waiting row may come to, given what the door does with the row. -/
theorem EntryAction.Of.row {action : EntryAction} (hwaits : Waits records id record)
    (hstale : action.stale = decide (readyAt record ≠ ready))
    (hreplacement : ∀ p, action.replacement = some p → p = (readyKey (readyAt record) id, id))
    (hover : rule.PassesOver record → readyAt record ≠ ready → action.replacement.isSome = true)
    (hclaim : ∀ p, action.claim = some p → p = (id, record) ∧ rule.Takes record)
    (htakes : rule.Takes record → action.claim ≠ none) :
    EntryAction.Of records rule (entryAt ready id) action where
  faulty h hstands := by
    rw [hstale, decide_eq_true_iff] at h
    exact h (readyAt_eq_of_stands hwaits hstands)
  own p hp := by
    obtain rfl := hreplacement p hp
    exact ⟨record, hwaits, rfl⟩
  restored ready' id' record' hentry hwaits' hpasses := by
    obtain ⟨rfl, rfl⟩ := entryAt_injective hentry
    obtain rfl := hwaits.unique hwaits'
    by_cases hready : readyAt record = ready
    · exact Or.inl hready.symm
    · obtain ⟨p, hp⟩ := Option.isSome_iff_exists.mp (hover hpasses hready)
      rw [hp, hreplacement p hp]
      exact Or.inr rfl
  claimed id' record' h := by
    obtain ⟨hp, htaken⟩ := hclaim _ h
    obtain ⟨rfl, rfl⟩ := Prod.mk.inj hp
    exact ⟨⟨ready, rfl⟩, hwaits, htaken⟩
  unclaimed h id' record' := by
    rintro ⟨⟨ready', hentry⟩, hwaits', htaken⟩
    obtain ⟨rfl, rfl⟩ := entryAt_injective hentry
    exact htakes (hwaits.unique hwaits' ▸ htaken) h

/-- A row the door passes over is not one it takes. -/
theorem ClaimRule.PassesOver.not_takes (h : rule.PassesOver record) : ¬ rule.Takes record := by
  intro htakes
  cases h with
  | early h => exact htakes.due h
  | foreign h => exact Bool.false_ne_true (h.symm.trans htakes.passes)
  | refused _ h => exact nomatch h.symm.trans htakes.permits

theorem of_scanRecord (hwaits : Waits records id record)
    (h : scanRecord rule ready id record = .ok found) :
    EntryAction.Of records rule (entryAt ready id) found.toEntryAction := by
  rcases scanRecord_cases h with ⟨hover, rfl⟩ | ⟨hdispatch, hdue, hpasses, rfl⟩ |
    ⟨hold, hhold, hdue, hpasses, hpermits, rfl⟩ | ⟨htakes, rfl⟩
  · refine .row hwaits rfl ?_ ?_ (fun _ hp => (Option.some_ne_none _ hp.symm).elim)
      fun htakes => absurd htakes hover.not_takes
    · intro p hp
      split at hp
      · exact (Option.some.inj hp).symm
      · exact (Option.some_ne_none _ hp.symm).elim
    · intro _ hready
      rw [if_pos (by simpa using hready)]
      rfl
  · refine .row hwaits rfl (fun _ hp => (Option.some_ne_none _ hp.symm).elim) ?_
      (fun _ hp => (Option.some_ne_none _ hp.symm).elim)
      fun htakes => nomatch hdispatch.symm.trans htakes.dispatchReady
    rintro (hearly | hforeign | ⟨hready, -⟩)
    · exact absurd hearly hdue
    · exact nomatch hforeign.symm.trans hpasses
    · exact nomatch hdispatch.symm.trans hready
  · refine .row hwaits rfl (fun _ hp => (Option.some_ne_none _ hp.symm).elim) ?_
      (fun _ hp => (Option.some_ne_none _ hp.symm).elim)
      fun htakes => nomatch hhold.symm.trans htakes.free
    rintro (hearly | hforeign | ⟨-, hrefused⟩)
    · exact absurd hearly hdue
    · exact nomatch hforeign.symm.trans hpasses
    · exact nomatch hrefused.symm.trans hpermits
  · refine .row hwaits rfl (fun _ hp => (Option.some_ne_none _ hp.symm).elim)
      (fun hover => absurd htakes hover.not_takes)
      (fun _ hp => ⟨(Option.some.inj hp).symm, htakes⟩) fun _ => Option.some_ne_none _

/-- An entry whose key and value name different ids, or no id at all, stands for nothing. -/
theorem ne_entryAt_of_decode
    (h : ∀ ready id, decodeReadyKey key = some (ready, id) → idFromBytes value ≠ some id)
    (ready : UInt64) (id : AttemptId) : (key, value) ≠ entryAt ready id := by
  intro he
  obtain ⟨rfl, rfl⟩ := mk.inj he
  exact h ready id (decodeReadyKey_eq_some.mpr rfl) (idFromBytes_asBytes id)

theorem EntryAction.Of.unnamed (h : ∀ ready id, entry ≠ entryAt ready id) :
    EntryAction.Of records rule entry { stale := true } :=
  .stale (fun ⟨ready, id, he, _⟩ => h ready id he) fun ready id _ he => absurd he (h ready id)

/-- An entry naming an id under which no row waits is stale, unless that row does not decode. -/
theorem EntryAction.Of.idle (hrow : ∀ record, ¬ Waits records id record)
    (hdecodes : ∀ e, records id ≠ some (.undecodable e)) :
    EntryAction.Of records rule (entryAt ready id) { stale := true } := by
  refine .stale ?_ ?_
  · rintro ⟨ready', id', he, hstands⟩
    obtain ⟨rfl, rfl⟩ := entryAt_injective he
    rcases hstands with ⟨e, he⟩ | ⟨record, hwaits, -⟩
    · exact hdecodes e he
    · exact hrow record hwaits
  · intro ready' id' record he
    obtain ⟨rfl, rfl⟩ := entryAt_injective he
    exact hrow record

/-- **Whatever the walk notes of an entry is an action on it.** -/
theorem of_scanEntry (h : scanEntry records rule entry = .ok found) :
    EntryAction.Of records rule entry found.toEntryAction := by
  obtain ⟨key, value⟩ := entry
  simp only [scanEntry] at h
  split at h
  · next keyReadyAt keyId id hkey hvalue =>
    split at h
    · next hne =>
      obtain rfl := ok.inj h
      refine .unnamed (ne_entryAt_of_decode fun ready id' hkey' hvalue' => hne ?_)
      rw [hkey, Option.some.injEq, mk.injEq] at hkey'
      rw [hvalue, Option.some.injEq] at hvalue'
      exact hvalue'.trans hkey'.2.symm
    next heq =>
    obtain rfl := not_not.mp heq
    obtain rfl := decodeReadyKey_eq_some.mp hkey
    obtain rfl := idFromBytes_eq_some.mp hvalue
    split at h
    · next hnone =>
      obtain rfl := ok.inj h
      exact .idle (fun record hwaits => nomatch hnone.symm.trans hwaits.1)
        fun e he => nomatch hnone.symm.trans he
    · next e he =>
      obtain rfl := ok.inj h
      refine ⟨nofun, fun _ hp => (Option.some_ne_none _ hp.symm).elim, ?_,
        fun _ _ hp => (Option.some_ne_none _ hp.symm).elim, ?_⟩
      · intro ready id' record hentry hwaits
        obtain ⟨-, rfl⟩ := (entryAt_injective hentry : _ ∧ id = id')
        exact nomatch he.symm.trans hwaits.1
      · rintro - id' record ⟨⟨ready, hentry⟩, hwaits, -⟩
        obtain ⟨-, rfl⟩ := (entryAt_injective hentry : _ ∧ id = id')
        exact nomatch he.symm.trans hwaits.1
    · next record hrecord =>
      split at h
      · next hstate => exact of_scanRecord ⟨hrecord, hstate⟩ h
      · next hstate =>
        obtain rfl := ok.inj h
        refine .idle (fun record' hwaits => ?_) fun e he => nomatch hrecord.symm.trans he
        obtain rfl : record = record' := by simpa using hrecord.symm.trans hwaits.1
        exact hstate hwaits.2
  · next hnone =>
    obtain rfl := ok.inj h
    refine .unnamed (ne_entryAt_of_decode fun ready id hkey hvalue => ?_)
    exact hnone _ _ _ hkey hvalue

/-! ## What a stretch of a claim keeps -/

section Keeps

variable {acted acted' : KvPair → Prop} {tables mid next : Tables}

/-- **What a stretch of a claim that acts on some of the entries does to the index.**  Every clause is
about the rows still waiting at its end. -/
structure Keeps (rule : ClaimRule) (acted : KvPair → Prop) (tables next : Tables) : Prop where
  /-- A row waiting after it waited before, as it is. -/
  row : ∀ id record, Waits next.records id record → Waits tables.records id record
  undecodable : ∀ id e, next.records id = some (.undecodable e) ↔
    tables.records id = some (.undecodable e)
  /-- An entry at its row's own instant stays. -/
  own : ∀ id record, Waits next.records id record →
    tables.ready[readyKey (readyAt record) id]? = some id.asBytes →
      next.ready[readyKey (readyAt record) id]? = some id.asBytes
  /-- A row passed over at any entry of its own is left with the one at its own instant. -/
  restored : ∀ ready id record, Waits next.records id record → acted (entryAt ready id) →
    tables.ready[readyKey ready id]? = some id.asBytes → rule.PassesOver record →
      next.ready[readyKey (readyAt record) id]? = some id.asBytes
  /-- An entry not acted on stays. -/
  spared : ∀ ready id record, Waits next.records id record → ¬ acted (entryAt ready id) →
    tables.ready[readyKey ready id]? = some id.asBytes →
      next.ready[readyKey ready id]? = some id.asBytes
  /-- An entry that went did not stand, or its row waits no more. -/
  lost : ∀ key value, tables.ready[key]? = some value → next.ready[key]? ≠ some value →
    ¬ Stands tables.records (key, value) ∨
      ∃ ready id, (key, value) = entryAt ready id ∧ ∀ record, ¬ Waits next.records id record

namespace Keeps

theorem refl (hacted : ∀ entry, ¬ acted entry) : Keeps rule acted tables tables where
  row _ _ h := h
  undecodable _ _ := Iff.rfl
  own _ _ _ h := h
  restored _ _ _ _ h := absurd h (hacted _)
  spared _ _ _ _ _ h := h
  lost _ _ h hne := absurd h hne

/-- The same stretch, its entries said another way. -/
theorem congr (h : Keeps rule acted tables next) (hacted : ∀ entry, acted' entry ↔ acted entry) :
    Keeps rule acted' tables next := by
  obtain rfl : acted' = acted := funext fun entry => propext (hacted entry)
  exact h

/-- An entry that stood and stands no more is of a row that waits no more. -/
theorem idle_of_not_stands (h : Keeps rule acted tables next)
    (hstood : Stands tables.records (key, value)) (hstands : ¬ Stands next.records (key, value)) :
    ∃ ready id, (key, value) = entryAt ready id ∧ ∀ record, ¬ Waits next.records id record := by
  obtain ⟨ready, id, he, hrow⟩ := hstood
  refine ⟨ready, id, he, fun record hwaits => hstands ?_⟩
  rcases hrow with ⟨e, hrow⟩ | ⟨record', hwaits', hready⟩
  · exact nomatch ((h.undecodable id e).mpr hrow).symm.trans hwaits.1
  · obtain rfl := hwaits'.unique (h.row id record hwaits)
    exact ⟨ready, id, he, Or.inr ⟨record', hwaits, hready⟩⟩

/-- **Stretches compose.** -/
theorem trans (h : Keeps rule acted tables mid) (h' : Keeps rule acted' mid next) :
    Keeps rule (fun entry => acted entry ∨ acted' entry) tables next where
  row id record hwaits := h.row id record (h'.row id record hwaits)
  undecodable id e := (h'.undecodable id e).trans (h.undecodable id e)
  own id record hwaits hown :=
    h'.own id record hwaits (h.own id record (h'.row id record hwaits) hown)
  restored ready id record hwaits hacted hentry hover := by
    have hmid := h'.row id record hwaits
    by_cases hfirst : acted (entryAt ready id)
    · exact h'.own id record hwaits (h.restored ready id record hmid hfirst hentry hover)
    · exact h'.restored ready id record hwaits (hacted.resolve_left hfirst)
        (h.spared ready id record hmid hfirst hentry) hover
  spared ready id record hwaits hacted hentry := by
    rw [not_or] at hacted
    exact h'.spared ready id record hwaits hacted.2
      (h.spared ready id record (h'.row id record hwaits) hacted.1 hentry)
  lost key value hentry hgone := by
    by_cases hstays : mid.ready[key]? = some value
    · refine (h'.lost key value hstays hgone).elim (fun hstands => ?_) Or.inr
      by_cases hstood : Stands tables.records (key, value)
      · obtain ⟨ready, id, he, hidle⟩ := h.idle_of_not_stands hstood hstands
        exact Or.inr ⟨ready, id, he, fun record hwaits => hidle record (h'.row id record hwaits)⟩
      · exact Or.inl hstood
    · refine (h.lost key value hentry hstays).imp_right ?_
      rintro ⟨ready, id, he, hidle⟩
      exact ⟨ready, id, he, fun record hwaits => hidle record (h'.row id record hwaits)⟩

/-- **A row that stops waiting takes one entry under its own id with it.** -/
theorem retire (hrow : ∀ e, tables.records id ≠ some (.undecodable e))
    (hstate : record'.state.isReadyIndexed = false) (hacted : ∀ entry, ¬ acted entry) :
    Keeps rule acted tables ((tables.deleteReady (readyKey ready id)).putRecord id record') := by
  have hother : ∀ {id' record₁}, Waits (Function.update tables.records id (some (.record record')))
      id' record₁ → id' ≠ id ∧ Waits tables.records id' record₁ := by
    rintro id' record₁ ⟨hat, hwaits⟩
    rcases eq_or_ne id' id with rfl | hne
    · rw [update_self] at hat
      obtain rfl : record' = record₁ := by simpa using hat
      exact nomatch hstate.symm.trans hwaits
    · rw [update_of_ne hne] at hat
      exact ⟨hne, hat, hwaits⟩
  have hkey : ∀ {id' : AttemptId} {ready' : UInt64}, id' ≠ id →
      (tables.ready.erase (readyKey ready id))[readyKey ready' id']? =
        tables.ready[readyKey ready' id']? := fun hne =>
    OrderedMap.getElem?_erase_of_ne fun h => hne (readyKey_injective h).2.symm
  refine ⟨fun id' record₁ hwaits => (hother hwaits).2, ?_, ?_, ?_, ?_, ?_⟩
  · intro id' e
    rcases eq_or_ne id' id with rfl | hne
    · refine ⟨fun h => ?_, fun h => absurd h (hrow e)⟩
      exact nomatch (update_self id' _ tables.records).symm.trans h
    · exact (update_of_ne hne _ tables.records).congr_left
  · intro id' record₁ hwaits hown
    exact (hkey (hother hwaits).1).trans hown
  · exact fun _ _ _ _ h => absurd h (hacted _)
  · intro ready' id' record₁ hwaits _ hentry
    exact (hkey (hother hwaits).1).trans hentry
  · intro key value hentry hgone
    have hdeleted : readyKey ready id = key := by
      by_contra hne
      exact hgone ((OrderedMap.getElem?_erase_of_ne hne).trans hentry)
    subst hdeleted
    by_cases hvalue : value = id.asBytes
    · refine Or.inr ⟨ready, id, Prod.ext rfl hvalue, fun record₁ hwaits => ?_⟩
      exact (hother hwaits).1 rfl
    · refine Or.inl fun ⟨ready', id', he, _⟩ => hvalue ?_
      obtain ⟨hk, hv⟩ := mk.inj he
      rw [hv, (readyKey_injective hk).2]

/-- **A batch of repairs**: entries that do not stand deleted, waiting rows' own entries put. -/
theorem edits {staleKeys : List Bytes} {replacements : List (Bytes × AttemptId)}
    (hrecords : next.records = tables.records)
    (hready : next.ready = (tables.ready.eraseAll staleKeys).insertAll
      (replacements.map fun (key, id) => (key, id.asBytes)))
    (hstale : ∀ key ∈ staleKeys, ∀ value, tables.ready[key]? = some value →
      ¬ Stands tables.records (key, value) ∧ acted (key, value))
    (hown : ∀ p ∈ replacements, ∃ record, Waits tables.records p.2 record ∧
      p.1 = readyKey (readyAt record) p.2)
    (hrestored : ∀ ready id record, acted (entryAt ready id) → Waits tables.records id record →
      tables.ready[readyKey ready id]? = some id.asBytes → rule.PassesOver record →
        ready = readyAt record ∨ (readyKey (readyAt record) id, id) ∈ replacements) :
    Keeps rule acted tables next := by
  have hputs : ∀ ready id, ∀ p ∈ replacements.map fun (key, id) => (key, id.asBytes),
      p.1 = readyKey ready id → p.2 = id.asBytes := by
    intro ready id p hp hkey
    obtain ⟨⟨key, id'⟩, hq, rfl⟩ := mem_map.mp hp
    obtain ⟨record, -, hq⟩ := hown _ hq
    exact congrArg AttemptId.asBytes (readyKey_injective (hq.symm.trans hkey)).2
  have hstays : ∀ ready id, readyKey ready id ∉ staleKeys →
      tables.ready[readyKey ready id]? = some id.asBytes →
        next.ready[readyKey ready id]? = some id.asBytes := by
    intro ready id hkey hentry
    rw [hready]
    refine OrderedMap.getElem?_insertAll (hputs ready id) (Or.inl ?_)
    rwa [OrderedMap.getElem?_eraseAll hkey]
  have hself : ∀ id record, Waits tables.records id record →
      tables.ready[readyKey (readyAt record) id]? = some id.asBytes →
        next.ready[readyKey (readyAt record) id]? = some id.asBytes := fun id record hwaits hentry =>
    hstays _ id (fun hkey => (hstale _ hkey _ hentry).1 (stands_own hwaits)) hentry
  refine ⟨fun id record h => hrecords ▸ h, fun id e => hrecords ▸ Iff.rfl,
    fun id record hwaits => hself id record (hrecords ▸ hwaits), ?_, ?_, ?_⟩
  · intro ready id record hwaits hacted hentry hover
    rw [hrecords] at hwaits
    rcases hrestored ready id record hacted hwaits hentry hover with rfl | hput
    · exact hself id record hwaits hentry
    · rw [hready]
      exact OrderedMap.getElem?_insertAll (hputs _ id) (Or.inr (mem_map.mpr ⟨_, hput, rfl⟩))
  · intro ready id record _ hacted hentry
    exact hstays ready id (fun hkey => hacted (hstale _ hkey _ hentry).2) hentry
  · intro key value hentry hgone
    refine Or.inl fun hstands => ?_
    obtain ⟨ready, id, he, -⟩ := id hstands
    obtain ⟨rfl, rfl⟩ := mk.inj he
    exact hgone (hstays ready id (fun hkey => (hstale _ hkey _ hentry).1 hstands) hentry)

end Keeps

end Keeps

/-! ## The walk -/

/-- The findings a walk makes, the entry it stops at, and the entries it never reaches. -/
inductive Walk (records : AttemptId → Option StoredRow) (rule : ClaimRule) :
    List KvPair → List (KvPair × Finding) → Option Taken → List KvPair → Prop
  | done : Walk records rule [] [] none []
  | take {entry rest found id record} (hfound : scanEntry records rule entry = .ok found)
      (hclaim : found.claim = some (id, record)) :
      Walk records rule (entry :: rest) [(entry, found)] (some (entry.1, id, record)) rest
  | pass {entry rest found walked taken left} (hfound : scanEntry records rule entry = .ok found)
      (hclaim : found.claim = none) (hrest : Walk records rule rest walked taken left) :
      Walk records rule (entry :: rest) ((entry, found) :: walked) taken left

/-- What a scan holds after the findings of a walk. -/
def ClaimKindReadScan.noteAll (scan : ClaimKindReadScan) (walked : List (KvPair × Finding)) :
    ClaimKindReadScan :=
  walked.foldl (fun scan w => scan.note w.1.1 w.2) scan

theorem walk_of_scanEntries : ∀ {entries : List KvPair} {scan scan' : ClaimKindReadScan}
    {taken : Option Taken}, scanEntries records rule entries scan = .ok (scan', taken) →
      ∃ walked left, Walk records rule entries walked taken left ∧ scan' = scan.noteAll walked
  | [], scan, scan', taken, h => by
    obtain ⟨rfl, rfl⟩ := mk.inj (ok.inj h)
    exact ⟨[], [], .done, rfl⟩
  | entry :: rest, scan, scan', taken, h => by
    obtain ⟨found, hfound, h⟩ := bind_eq_ok.mp h
    split at h
    · next id record hclaim =>
      obtain ⟨rfl, rfl⟩ := mk.inj (pure_eq_ok.mp h)
      exact ⟨_, rest, .take hfound hclaim, rfl⟩
    · next hclaim =>
      obtain ⟨walked, left, hwalk, rfl⟩ := walk_of_scanEntries h
      exact ⟨_, left, .pass hfound hclaim hwalk, rfl⟩

theorem mem_staleReadyKeys_noteAll : ∀ {walked : List (KvPair × Finding)}
    {scan : ClaimKindReadScan}, key ∈ (scan.noteAll walked).staleReadyKeys ↔
      key ∈ scan.staleReadyKeys ∨ ∃ w ∈ walked, w.2.stale = true ∧ w.1.1 = key
  | [], scan => by simp [ClaimKindReadScan.noteAll]
  | w :: walked, scan => by
    show key ∈ ((scan.note w.1.1 w.2).noteAll walked).staleReadyKeys ↔ _
    rw [mem_staleReadyKeys_noteAll, ClaimKindReadScan.note, mem_append, or_assoc,
      exists_mem_cons_iff]
    refine or_congr_right (or_congr_left ?_)
    by_cases hstale : w.2.stale = true
    · rw [if_pos hstale, mem_singleton, and_iff_right hstale, eq_comm]
    · rw [if_neg hstale]
      exact ⟨fun h => absurd h not_mem_nil, fun h => absurd h.1 hstale⟩

theorem mem_readyReplacements_noteAll {p : Bytes × AttemptId} :
    ∀ {walked : List (KvPair × Finding)} {scan : ClaimKindReadScan},
      p ∈ (scan.noteAll walked).readyReplacements ↔
        p ∈ scan.readyReplacements ∨ ∃ w ∈ walked, w.2.replacement = some p
  | [], scan => by simp [ClaimKindReadScan.noteAll]
  | w :: walked, scan => by
    show p ∈ ((scan.note w.1.1 w.2).noteAll walked).readyReplacements ↔ _
    rw [mem_readyReplacements_noteAll, ClaimKindReadScan.note, mem_append, or_assoc,
      exists_mem_cons_iff, Option.mem_toList]

namespace Walk

variable {entries left : List KvPair} {walked : List (KvPair × Finding)} {taken : Option Taken}

/-- Every finding is an action on its entry. -/
theorem of_mem (h : Walk records rule entries walked taken left) : ∀ w ∈ walked,
    EntryAction.Of records rule w.1 w.2.toEntryAction := by
  induction h with
  | done => exact fun _ h => absurd h not_mem_nil
  | take hfound _ => simpa using of_scanEntry hfound
  | pass hfound _ _ ih => exact forall_mem_cons.mpr ⟨of_scanEntry hfound, ih⟩

/-- The entries walked are the first ones of the index. -/
theorem entries_eq (h : Walk records rule entries walked taken left) :
    entries = walked.map fst ++ left := by
  induction h with
  | done | take => rfl
  | pass _ _ _ ih => rw [ih]; rfl

/-- **The walk stops at the first entry whose row it may take**, or at the end. -/
theorem stops (h : Walk records rule entries walked taken left) : ∃ passed,
    (∀ entry ∈ passed, ∀ id record, ¬ Eligible rule records entry id record) ∧
      match taken with
      | none => walked.map fst = passed ∧ left = []
      | some (key, id, record) => ∃ value, Eligible rule records (key, value) id record ∧
          walked.map fst = passed ++ [(key, value)] := by
  induction h with
  | done => exact ⟨[], fun _ h => absurd h not_mem_nil, rfl, rfl⟩
  | @take entry _ _ id record hfound hclaim =>
    exact ⟨[], fun _ h => absurd h not_mem_nil, entry.2,
      (of_scanEntry hfound).claimed id record hclaim, rfl⟩
  | @pass entry _ _ _ taken _ hfound hclaim _ ih =>
    obtain ⟨passed, hpassed, hstop⟩ := ih
    refine ⟨entry :: passed,
      forall_mem_cons.mpr ⟨(of_scanEntry hfound).unclaimed hclaim, hpassed⟩, ?_⟩
    match taken, hstop with
    | none, ⟨hwalked, hleft⟩ => exact ⟨congrArg (entry :: ·) hwalked, hleft⟩
    | some (key, id, record), ⟨value, heligible, hwalked⟩ =>
      exact ⟨value, heligible, congrArg (entry :: ·) hwalked⟩

end Walk

/-- The dedupe deletions leave rows and readiness alone. -/
theorem deleteDedupeEntriesForIds_ok {ids : List AttemptId}
    (h : tables.deleteDedupeEntriesForIds ids = .ok next) :
    next.records = tables.records ∧ next.ready = tables.ready := by
  unfold Tables.deleteDedupeEntriesForIds at h
  split at h
  · obtain rfl := pure_eq_ok.mp h
    exact ⟨rfl, rfl⟩
  · obtain ⟨named, -, h⟩ := bind_eq_ok.mp h
    obtain rfl := pure_eq_ok.mp h
    exact ⟨rfl, rfl⟩

/-- **The repairs of a walk over the whole index.** -/
theorem keeps_repairs {walked : List (KvPair × Finding)} {left : List KvPair}
    (hwalk : Walk tables.records rule tables.ready.toList walked taken left)
    (h : applyClaimKindReadRepairs tables (({} : ClaimKindReadScan).noteAll walked) = .ok next) :
    Keeps rule (· ∈ walked.map fst) tables next := by
  obtain ⟨mid, hmid, h⟩ := bind_eq_ok.mp h
  obtain rfl := pure_eq_ok.mp h
  obtain ⟨hrecords, hready⟩ := deleteDedupeEntriesForIds_ok hmid
  have hat : ∀ w ∈ walked, tables.ready[w.1.1]? = some w.1.2 := fun w hw => by
    refine ExtTreeMap.mem_toList_iff_getElem?_eq_some.mp ?_
    rw [hwalk.entries_eq]
    exact mem_append_left _ (mem_map_of_mem hw)
  refine .edits hrecords (congrArg (fun m : OrderedMap Bytes Bytes => (m.eraseAll _).insertAll _)
    hready) ?_ ?_ ?_
  · intro key hkey value hvalue
    obtain ⟨w, hw, hstale, rfl⟩ := (mem_staleReadyKeys_noteAll.mp hkey).resolve_left not_mem_nil
    obtain rfl : w.1.2 = value := by simpa using (hat w hw).symm.trans hvalue
    exact ⟨(hwalk.of_mem w hw).faulty hstale, mem_map_of_mem hw⟩
  · intro p hp
    obtain ⟨w, hw, hput⟩ := (mem_readyReplacements_noteAll.mp hp).resolve_left not_mem_nil
    exact (hwalk.of_mem w hw).own p hput
  · intro ready id record hacted hwaits _ hover
    obtain ⟨w, hw, hentry⟩ := mem_map.mp hacted
    refine ((hwalk.of_mem w hw).restored ready id record hentry hwaits hover).imp_right fun hput => ?_
    exact mem_readyReplacements_noteAll.mpr (Or.inr ⟨w, hw, hput⟩)

/-- **A pause of a row.** -/
theorem keeps_hold (h : holdForAnnotation doors tables id now = .ok next) :
    Keeps rule (fun _ => False) tables next := by
  unfold holdForAnnotation at h
  split at h
  · exact (throw_ne_ok.mp h).elim
  · exact (throw_ne_ok.mp h).elim
  next record hrow =>
  split at h
  · next hstate =>
    obtain ⟨_, -, h⟩ := bind_eq_ok.mp h
    obtain rfl := pure_eq_ok.mp h
    have hsame : tables.putRecord id record = tables := by
      rw [Tables.putRecord, ← hrow, update_eq_self]
    rw [hsame]
    exact .refl fun _ => not_false
  · obtain ⟨_, -, h⟩ := bind_eq_ok.mp h
    obtain rfl := pure_eq_ok.mp h
    exact .retire (fun e he => nomatch hrow.symm.trans he) rfl fun _ => not_false
  · obtain ⟨_, -, h⟩ := bind_eq_ok.mp h
    obtain rfl := pure_eq_ok.mp h
    exact .retire (fun e he => nomatch hrow.symm.trans he) rfl fun _ => not_false
  · exact (throw_ne_ok.mp h).elim

theorem keeps_holds : ∀ {held : List (AttemptId × AnnotationHold)}
    {tables next : Tables},
    held.foldlM (fun tables (id, _) => holdForAnnotation doors tables id now) tables = .ok next →
      Keeps rule (fun _ => False) tables next
  | [], tables, next, h => by
    obtain rfl := pure_eq_ok.mp h
    exact .refl fun _ => not_false
  | (id, hold) :: held, tables, next, h => by
    obtain ⟨mid, hmid, h⟩ := bind_eq_ok.mp h
    have hrest := keeps_holds h
    exact ((keeps_hold hmid).trans hrest).congr fun _ => by rw [or_self]

/-- **A scan over the whole index, with its repairs and its pauses.** -/
theorem keeps_scanAndRepair (h : scanAndRepair doors rule now tables = .ok (taken, next)) :
    ∃ walked left, Walk tables.records rule tables.ready.toList walked taken left ∧
      Keeps rule (· ∈ walked.map fst) tables next := by
  obtain ⟨⟨scan, taken'⟩, hscan, h⟩ := bind_eq_ok.mp h
  obtain ⟨repaired, hrepaired, h⟩ := bind_eq_ok.mp h
  obtain ⟨paused, hpaused, h⟩ := bind_eq_ok.mp h
  obtain ⟨rfl, rfl⟩ := mk.inj (pure_eq_ok.mp h)
  obtain ⟨walked, left, hwalk, rfl⟩ := walk_of_scanEntries hscan
  refine ⟨walked, left, hwalk, ?_⟩
  exact ((keeps_repairs hwalk hrepaired).trans (keeps_holds hpaused)).congr fun _ => by rw [or_false]

end AttemptQueue

end Oneiron
