import Oneiron.Overlay.Promotion
import Oneiron.Overlay.Replay

/-!
# Overlay/ShortId — a room's own short ids

    shortIds            s1‖hash --▸ id
    shortIdsReverse     id --▸ s1‖hash
    vaultMeta           session_short_id:v0:ordinal --▸ 1

An id new to the room takes the next ordinal; one the room already names keeps its alias, and only
the hash in its forward key moves.  `Shows` says both tables hold one `AliasTable`, and a group of an
allocation moves it by one entry (`shows_group`).
-/

open Std

namespace Oneiron

open Function KeyspaceState OverlayState SessionOverlay

open List Option Except

/-! ## Allocating -/

/-- `SESSION_SHORT_ID_SIGIL`. -/
def sessionShortIdSigil : Bytes := ascii "s"

/-- `session_short_id_content_hash`, of the body's XXH32. -/
def sessionShortIdContentHash (xxh32 : Bytes → UInt32) (data : Bytes) : UInt8 :=
  (xxh32 data % 256).toUInt8

/-- `encode_session_short_id_forward_key`. -/
def encodeSessionShortIdForwardKey (shortId : Bytes) (contentHash : UInt8) : Bytes :=
  shortId ++ [contentHash]

/-- `session_short_id_rows`. -/
def sessionShortIdRows (id : EntityId) (shortId : Bytes) (contentHash : UInt8) :
    List OverlayMutation :=
  let forwardKey := encodeSessionShortIdForwardKey shortId contentHash
  [.put .shortIds forwardKey id.asBytes, .put .shortIdsReverse id.asBytes forwardKey]

/-- The alias minted at an ordinal: the sigil, then the ordinal in decimal. -/
def sessionShortIdAt (ordinal : ℕ) : Bytes :=
  sessionShortIdSigil ++ (Nat.toDigits 10 ordinal).map fun c => c.toNat.toUInt8

/-- The last ordinal the room minted an alias at. -/
def lastSessionShortId (state : OverlayState) : Except Error ℕ :=
  match (state.keyspaces .vaultMeta).lookupSingle sessionShortIdOrdinalKey with
  | .present value =>
    if value.length = 8 then .ok (valueOf value)
    else .error (.corruptedIndex "session short id ordinal")
  | _ => .ok 0

/-- `alloc_session_short_id`. -/
def SessionOverlay.allocSessionShortId [EntryLayout] (xxh32 : Bytes → UInt32)
    (overlay : SessionOverlay) (id : EntityId) (data : Bytes) :
    Except Error ((Bytes × UInt8) × SessionOverlay) := do
  let contentHash := sessionShortIdContentHash xxh32 data
  let state := overlay.snapshot.state
  match (state.keyspaces .shortIdsReverse).lookupSingle id.asBytes with
  | .present existing => do
    let (shortId, oldContentHash) ← parseSessionShortIdValue existing
    let stale : List OverlayMutation := if oldContentHash ≠ contentHash then
        [.delete .shortIds (encodeSessionShortIdForwardKey shortId oldContentHash) false] else []
    let overlay ← overlay.stageMutationGroup (stale ++ sessionShortIdRows id shortId contentHash)
    pure ((shortId, contentHash), overlay)
  | _ => do
    let last ← lastSessionShortId state
    let next ← if last + 1 < 2 ^ 64 then .ok (last + 1)
      else .error (.arithmeticOverflow "session short id counter")
    let shortId := sessionShortIdAt next
    let overlay ← overlay.stageMutationGroup (sessionShortIdRows id shortId contentHash ++
      [.put .vaultMeta sessionShortIdOrdinalKey (digits 8 next)])
    pure ((shortId, contentHash), overlay)

/-! ## Aliases are one to an ordinal -/

variable {keyspace : OverlayKeyspace} {ordinal : ℕ} {key value : Bytes} {id : EntityId}

/-- A decimal digit is spelled in one byte. -/
theorem toNat_digit {c : Char} (h : c ∈ Nat.toDigits 10 ordinal) :
    c.toNat.toUInt8.toNat = c.toNat ∧ c.toNat < 0x80 := by
  have hdigit := Nat.isDigit_of_mem_toDigits (by omega) (by omega) h
  have hlt : c.toNat < 58 := by
    simp only [Char.isDigit, Bool.and_eq_true, decide_eq_true_eq, UInt32.le_iff_toNat_le] at hdigit
    exact Nat.lt_succ_of_le hdigit.2
  refine ⟨?_, by omega⟩
  change c.toNat % 256 = c.toNat
  omega

theorem sessionShortIdAt_injective : Function.Injective sessionShortIdAt := fun n m h => by
  have hmap : (Nat.toDigits 10 n).map (fun c => c.toNat.toUInt8.toNat) =
      (Nat.toDigits 10 m).map fun c => c.toNat.toUInt8.toNat := by
    have hbytes := congrArg (List.map UInt8.toNat) (append_cancel_left h)
    rwa [List.map_map, List.map_map] at hbytes
  have hplain (k : ℕ) : (Nat.toDigits 10 k).map (fun c => c.toNat.toUInt8.toNat) =
      (Nat.toDigits 10 k).map Char.toNat := map_congr_left fun c hc => (toNat_digit hc).1
  rw [hplain, hplain] at hmap
  have hdigits := (map_injective_iff.mpr fun a b hab => Char.toNat_inj.mp hab) hmap
  rw [← Nat.ofDigitChars_ten_toDigits (n := n), hdigits, Nat.ofDigitChars_ten_toDigits]

theorem isUtf8_sessionShortIdAt (ordinal : ℕ) : isUtf8 (sessionShortIdAt ordinal) = true := by
  refine isUtf8_of_ascii fun c hc => ?_
  rcases mem_append.mp hc with hc | hc
  · obtain rfl : c = 115 := by simpa [sessionShortIdSigil, ascii] using hc
    decide
  · obtain ⟨d, hd, rfl⟩ := List.mem_map.mp hc
    obtain ⟨hbyte, hlt⟩ := toNat_digit hd
    rw [UInt8.lt_iff_toNat_lt, hbyte]
    exact hlt

/-- The key an alias and a hash are filed forward under. -/
def aliasKey (ordinal : ℕ) (contentHash : UInt8) : Bytes :=
  encodeSessionShortIdForwardKey (sessionShortIdAt ordinal) contentHash

theorem aliasKey_inj {n m : ℕ} {h k : UInt8} : aliasKey n h = aliasKey m k ↔ n = m ∧ h = k := by
  constructor
  · intro heq
    obtain ⟨htext, hhash⟩ := append_inj' heq rfl
    exact ⟨sessionShortIdAt_injective htext, by simpa using hhash⟩
  · rintro ⟨rfl, rfl⟩
    rfl

theorem parse_aliasKey (ordinal : ℕ) (contentHash : UInt8) :
    parseSessionShortIdValue (aliasKey ordinal contentHash) =
      .ok (sessionShortIdAt ordinal, contentHash) := by
  simp [parseSessionShortIdValue, aliasKey, encodeSessionShortIdForwardKey,
    isUtf8_sessionShortIdAt]

/-! ## The table both sides hold -/

/-- The ordinal and the hash each aliased id has. -/
abbrev AliasTable := EntityId → Option (ℕ × UInt8)

/-- A state whose two alias keyspaces hold one table, each ordinal in it once. -/
structure Shows (state : OverlayState) (aliases : AliasTable) : Prop where
  back : ∀ {key value}, state.present .shortIdsReverse key = some value ↔
    ∃ id ordinal hash, aliases id = some (ordinal, hash) ∧ key = id.asBytes ∧
      value = aliasKey ordinal hash
  forward : ∀ {key value}, state.present .shortIds key = some value ↔
    ∃ id ordinal hash, aliases id = some (ordinal, hash) ∧ key = aliasKey ordinal hash ∧
      value = id.asBytes
  distinct : ∀ {id other ordinal hash hash'}, aliases id = some (ordinal, hash) →
    aliases other = some (ordinal, hash') → id = other

/-- The last ordinal a state has minted. -/
def Minted (state : OverlayState) (last : ℕ) : Prop :=
  last < 2 ^ 64 ∧ state.present .vaultMeta sessionShortIdOrdinalKey =
    if last = 0 then none else some (digits 8 last)

namespace Shows

variable {state : OverlayState} {aliases : AliasTable}

theorem back_self (h : Shows state aliases) (id : EntityId) : state.present .shortIdsReverse id.asBytes =
    (aliases id).map fun entry => aliasKey entry.1 entry.2 := by
  refine ext fun value => ?_
  rw [h.back, map_eq_some_iff]
  constructor
  · rintro ⟨other, ordinal, hash, hother, hid, rfl⟩
    rw [EntityId.ext hid]
    exact ⟨(ordinal, hash), hother, rfl⟩
  · rintro ⟨⟨ordinal, hash⟩, hid, rfl⟩
    exact ⟨id, ordinal, hash, hid, rfl, rfl⟩

/-- **The two tables are inverse to one another.** -/
theorem forward_iff_back (h : Shows state aliases) :
    state.present .shortIds key = some value ↔ state.present .shortIdsReverse value = some key := by
  rw [h.back, h.forward]
  constructor
  · rintro ⟨id, ordinal, hash, hid, rfl, rfl⟩
    exact ⟨id, ordinal, hash, hid, rfl, rfl⟩
  · rintro ⟨id, ordinal, hash, hid, rfl, rfl⟩
    exact ⟨id, ordinal, hash, hid, rfl, rfl⟩

end Shows

/-! ## One allocation -/

/-- What one allocation stages: the ordinal is minted with it where the id had no alias. -/
structure Alloc where
  id : EntityId
  ordinal : ℕ
  /-- The hash of the alias the id had. -/
  old : Option UInt8
  hash : UInt8

namespace Alloc

def group (alloc : Alloc) : List OverlayMutation :=
  match alloc.old with
  | some old =>
    (if old ≠ alloc.hash then [.delete .shortIds (aliasKey alloc.ordinal old) false] else []) ++
      sessionShortIdRows alloc.id (sessionShortIdAt alloc.ordinal) alloc.hash
  | none => sessionShortIdRows alloc.id (sessionShortIdAt alloc.ordinal) alloc.hash ++
      [.put .vaultMeta sessionShortIdOrdinalKey (digits 8 alloc.ordinal)]

/-- The alias is the id's own as far as the table knows, at the hash that goes, and no other's. -/
def Fits (aliases : AliasTable) (alloc : Alloc) : Prop :=
  (aliases alloc.id = none ∨
    ∃ old, alloc.old = some old ∧ aliases alloc.id = some (alloc.ordinal, old)) ∧
  ∀ other hash, aliases other = some (alloc.ordinal, hash) → other = alloc.id

/-- The table with the allocation in it. -/
def enter (aliases : AliasTable) (alloc : Alloc) : AliasTable :=
  Function.update aliases alloc.id (some (alloc.ordinal, alloc.hash))

theorem enter_self (alloc : Alloc) {aliases : AliasTable} :
    alloc.enter aliases alloc.id = some (alloc.ordinal, alloc.hash) :=
  update_self ..

theorem enter_of_ne (alloc : Alloc) {aliases : AliasTable} (h : id ≠ alloc.id) :
    alloc.enter aliases id = aliases id :=
  update_of_ne h ..

end Alloc

/-! ## Allocations one after another -/

variable {aliases : AliasTable} {alloc : Alloc}

/-- What is known of each id in `less` is known in `more`. -/
def AliasTable.Below (less more : AliasTable) : Prop := ∀ id, less id = none ∨ less id = more id

/-- No id has one ordinal in one table and another in the other. -/
def AliasTable.Agrees (aliases later : AliasTable) : Prop :=
  ∀ {id ordinal hash ordinal' hash'}, aliases id = some (ordinal, hash) →
    later id = some (ordinal', hash') → ordinal = ordinal'

/-- Each allocation fits the table the ones before it leave. -/
def Fit : AliasTable → List Alloc → Prop
  | _, [] => True
  | aliases, alloc :: rest => alloc.Fits aliases ∧ Fit (alloc.enter aliases) rest

/-- The last ordinal minted, once an allocation has been made. -/
def Alloc.mint (last : ℕ) (alloc : Alloc) : ℕ := if alloc.old = none then alloc.ordinal else last

namespace AliasTable

variable {less more later : AliasTable} {allocs : List Alloc}

theorem Below.refl (aliases : AliasTable) : aliases.Below aliases := fun _ => .inr rfl

theorem Below.trans (h : less.Below more) (h' : more.Below later) : less.Below later := fun id => by
  rcases h id with hnone | heq
  · exact .inl hnone
  · rw [heq]
    exact h' id

theorem Below.eq_of_some (h : less.Below more) {entry : ℕ × UInt8} (hid : less id = some entry) :
    more id = some entry := by
  rcases h id with hnone | heq
  · rw [hnone] at hid
    cases hid
  · rwa [← heq]

/-- What fits a table fits one that knows less. -/
theorem Below.fits (h : less.Below more) (hfits : alloc.Fits more) : alloc.Fits less := by
  refine ⟨?_, fun other hash hother => hfits.2 other hash (h.eq_of_some hother)⟩
  rcases h alloc.id with hnone | heq
  · exact .inl hnone
  · rw [heq]
    exact hfits.1

theorem Below.enter (h : less.Below more) (alloc : Alloc) :
    (alloc.enter less).Below (alloc.enter more) := fun id => by
  by_cases hid : id = alloc.id
  · subst hid
    exact .inr (by simp [Alloc.enter])
  · simpa [Alloc.enter, update_of_ne hid] using h id

theorem Below.fit : ∀ {allocs : List Alloc} {less more : AliasTable}, less.Below more →
    Fit more allocs → Fit less allocs
  | [], _, _, _, _ => trivial
  | alloc :: _, _, _, h, hfit => ⟨h.fits hfit.1, (h.enter alloc).fit hfit.2⟩

theorem Below.enterAll : ∀ {allocs : List Alloc} {less more : AliasTable}, less.Below more →
    (allocs.foldl Alloc.enter less).Below (allocs.foldl Alloc.enter more)
  | [], _, _, h => h
  | alloc :: _, _, _, h => (h.enter alloc).enterAll

theorem Below.agrees (h : less.Below more) : less.Agrees more := fun hid hid' => by
  rw [h.eq_of_some hid] at hid'
  exact (Prod.mk.inj (some.inj hid')).1

end AliasTable

theorem fit_append : ∀ {allocs rest : List Alloc} {aliases : AliasTable},
    Fit aliases (allocs ++ rest) ↔ Fit aliases allocs ∧ Fit (allocs.foldl Alloc.enter aliases) rest
  | [], _, _ => by simp [Fit]
  | alloc :: allocs, _, _ => by
    rw [cons_append, Fit, Fit, fit_append, foldl_cons, and_assoc]

/-- **An allocation keeps the alias of the id it is for**, and every other's. -/
theorem Alloc.Fits.exists_enter (h : alloc.Fits aliases) {hash : UInt8}
    (hid : aliases id = some (ordinal, hash)) :
    ∃ hash', alloc.enter aliases id = some (ordinal, hash') := by
  by_cases hsame : id = alloc.id
  · subst hsame
    rcases h.1 with hnone | ⟨old, -, hold⟩
    · rw [hnone] at hid
      cases hid
    · obtain ⟨rfl, -⟩ := Prod.mk.inj (some.inj (hold.symm.trans hid))
      exact ⟨alloc.hash, alloc.enter_self⟩
  · exact ⟨hash, (alloc.enter_of_ne hsame).trans hid⟩

theorem exists_enterAll : ∀ {allocs : List Alloc} {aliases : AliasTable} {id : EntityId}
    {ordinal : ℕ} {hash : UInt8}, Fit aliases allocs → aliases id = some (ordinal, hash) →
      ∃ hash', allocs.foldl Alloc.enter aliases id = some (ordinal, hash')
  | [], _, _, _, hash, _, hid => ⟨hash, hid⟩
  | _ :: _, _, _, _, _, hfit, hid => by
    obtain ⟨hash', hid'⟩ := hfit.1.exists_enter hid
    have hrest := exists_enterAll hfit.2 hid'
    exact hrest

/-! ## What a group leaves staged -/

variable [EntryLayout] {state next : OverlayState}

/-- What a put leaves staged. -/
theorem present_projectMutation_put (hkeyspace : keyspace.isDupsort = false)
    (h : projectMutation state (.put keyspace key value) = .ok next) (other : OverlayKeyspace)
    (k : Bytes) : next.present other k = if other = keyspace ∧ k = key then some value
      else state.present other k := by
  obtain rfl := ok.inj h
  have hput : ∀ {d : Bool} (rows : KeyspaceState d), d = false →
      (rows.put key value).present key = some value
    | _, .single .., _ => by simp [KeyspaceState.put, KeyspaceState.present]
    | _, .dupSort .., hd => by cases hd
  rw [OverlayState.present, recalculateBytes_keyspaces]
  by_cases hother : other = keyspace
  · subst hother
    rw [setKeyspace_keyspaces_self]
    by_cases hk : k = key
    · subst hk
      simp [hput _ hkeyspace]
    · rw [present_put_ne (Ne.symm hk), if_neg fun h => hk h.2, OverlayState.present]
  · rw [state.setKeyspace_keyspaces_ne _ _ hother, if_neg fun h => hother h.1, OverlayState.present]

/-- What a delete leaves staged. -/
theorem present_projectMutation_delete {baseBacked : Bool}
    (h : projectMutation state (.delete keyspace key baseBacked) = .ok next)
    (other : OverlayKeyspace) (k : Bytes) : next.present other k =
      if other = keyspace ∧ k = key then none else state.present other k := by
  obtain rfl := ok.inj h
  rw [OverlayState.present, recalculateBytes_keyspaces]
  by_cases hother : other = keyspace
  · subst hother
    rw [setKeyspace_keyspaces_self, setMarks_keyspaces]
    by_cases hk : k = key
    · subst hk
      simp [present_delete_self]
    · rw [present_delete_ne (Ne.symm hk), if_neg fun h => hk h.2, OverlayState.present]
  · rw [setKeyspace_keyspaces_ne _ _ _ hother, setMarks_keyspaces,
      if_neg fun h => hother h.1, OverlayState.present]

/-- What an allocation's group leaves staged: its own two rows, and not the forward row that went. -/
theorem present_group (h : applyMutations state alloc.group = .ok next) :
    (∀ key, next.present .shortIdsReverse key = if key = alloc.id.asBytes then
        some (aliasKey alloc.ordinal alloc.hash) else state.present .shortIdsReverse key) ∧
    (∀ key, next.present .shortIds key = if key = aliasKey alloc.ordinal alloc.hash then
        some alloc.id.asBytes else if alloc.old.map (aliasKey alloc.ordinal) = some key then none
        else state.present .shortIds key) ∧
    next.present .vaultMeta sessionShortIdOrdinalKey = if alloc.old = none then
        some (digits 8 alloc.ordinal) else state.present .vaultMeta sessionShortIdOrdinalKey := by
  obtain ⟨id, ordinal, old, hash⟩ := alloc
  have hrows {mid last : OverlayState} (h : applyMutations mid
      (sessionShortIdRows id (sessionShortIdAt ordinal) hash) = .ok last) :
      ∀ keyspace key, last.present keyspace key =
        if keyspace = .shortIdsReverse ∧ key = id.asBytes then some (aliasKey ordinal hash)
        else if keyspace = .shortIds ∧ key = aliasKey ordinal hash then some id.asBytes
        else mid.present keyspace key := by
    obtain ⟨first, hfirst, h⟩ := bind_eq_ok.mp h
    obtain ⟨second, hsecond, h⟩ := bind_eq_ok.mp h
    obtain rfl := ok.inj h
    intro keyspace key
    rw [present_projectMutation_put rfl hsecond, present_projectMutation_put rfl hfirst]
    rfl
  cases old with
  | none =>
    obtain ⟨mid, hmid, h⟩ := foldlM_append_eq_ok.mp h
    obtain ⟨last, hlast, h⟩ := bind_eq_ok.mp h
    obtain rfl := ok.inj h
    have hput := present_projectMutation_put rfl hlast
    refine ⟨fun key => ?_, fun key => ?_, ?_⟩ <;> rw [hput, hrows hmid] <;> simp
  | some old =>
    obtain ⟨mid, hmid, h⟩ := foldlM_append_eq_ok.mp h
    have hstale (keyspace : OverlayKeyspace) (key : Bytes) : mid.present keyspace key =
        if keyspace = .shortIds ∧ key = aliasKey ordinal old ∧ old ≠ hash then none
        else state.present keyspace key := by
      by_cases hold : old = hash
      · rw [if_neg (by simpa using hold)] at hmid
        obtain rfl := ok.inj hmid
        simp [hold]
      · rw [if_pos hold] at hmid
        obtain ⟨first, hfirst, hmid⟩ := bind_eq_ok.mp hmid
        obtain rfl := ok.inj hmid
        rw [present_projectMutation_delete hfirst]
        simp [hold]
    refine ⟨fun key => ?_, fun key => ?_, ?_⟩
    · simp [hrows h, hstale]
    · simp only [hrows h, hstale]
      by_cases hkey : key = aliasKey ordinal hash
      · simp [hkey]
      · by_cases hold : old = hash
        · simp [hkey, hold, Ne.symm hkey]
        · simp [hkey, hold, eq_comm]
    · simp [hrows h, hstale]

/-- **An allocation moves the table by its one entry.** -/
theorem shows_group (hshows : Shows state aliases) (hfits : alloc.Fits aliases)
    (h : applyMutations state alloc.group = .ok next) :
    Shows next (alloc.enter aliases) := by
  obtain ⟨hback, hforward, -⟩ := present_group h
  have hself := @Alloc.enter_self alloc aliases
  have hne {id : EntityId} (hid : id ≠ alloc.id) : alloc.enter aliases id = aliases id :=
    alloc.enter_of_ne hid
  refine ⟨fun {key value} => ?_, fun {key value} => ?_, fun {id other ordinal hash hash'} hid hother => ?_⟩
  · rw [hback]
    by_cases hkey : key = alloc.id.asBytes
    · rw [if_pos hkey, Option.some.injEq]
      constructor
      · rintro rfl
        exact ⟨alloc.id, _, _, hself, hkey, rfl⟩
      · rintro ⟨id, ordinal, hash, hid, heq, rfl⟩
        obtain rfl : id = alloc.id := EntityId.ext (heq.symm.trans hkey)
        obtain ⟨rfl, rfl⟩ := Prod.mk.inj (some.inj (hself.symm.trans hid))
        rfl
    · rw [if_neg hkey, hshows.back]
      have hid {id : EntityId} (heq : key = id.asBytes) : id ≠ alloc.id := fun hid =>
        hkey (hid ▸ heq)
      constructor
      · rintro ⟨id, ordinal, hash, hold, heq, rfl⟩
        exact ⟨id, ordinal, hash, (hne (hid heq)).trans hold, heq, rfl⟩
      · rintro ⟨id, ordinal, hash, hnew, heq, rfl⟩
        exact ⟨id, ordinal, hash, (hne (hid heq)).symm.trans hnew, heq, rfl⟩
  · rw [hforward]
    by_cases hkey : key = aliasKey alloc.ordinal alloc.hash
    · rw [if_pos hkey, Option.some.injEq]
      constructor
      · rintro rfl
        exact ⟨alloc.id, _, _, hself, hkey, rfl⟩
      · rintro ⟨id, ordinal, hash, hid, heq, rfl⟩
        obtain ⟨rfl, rfl⟩ := aliasKey_inj.mp (hkey.symm.trans heq)
        by_cases hsame : id = alloc.id
        · rw [hsame]
        · rw [hfits.2 id _ ((hne hsame).symm.trans hid)]
    · rw [if_neg hkey]
      -- the forward row that went is the one the entry replaced had
      have hstale {id : EntityId} {ordinal : ℕ} {hash : UInt8} (heq : key = aliasKey ordinal hash) :
          alloc.enter aliases id = some (ordinal, hash) ↔ aliases id = some (ordinal, hash) ∧
            alloc.old.map (aliasKey alloc.ordinal) ≠ some key := by
        by_cases hsame : id = alloc.id
        · subst hsame
          constructor
          · intro hnew
            obtain ⟨rfl, rfl⟩ := Prod.mk.inj (some.inj (hself.symm.trans hnew))
            exact absurd heq hkey
          · rintro ⟨hold, hnot⟩
            rcases hfits.1 with hnone | ⟨old, hs, hsome⟩
            · rw [hnone] at hold
              cases hold
            · obtain ⟨rfl, rfl⟩ := Prod.mk.inj (some.inj (hsome.symm.trans hold))
              exact absurd (by rw [hs, heq, map_some]) hnot
        · rw [hne hsame, iff_self_and]
          rintro hold hmap
          obtain ⟨old, -, hold'⟩ := map_eq_some_iff.mp hmap
          obtain ⟨rfl, rfl⟩ := aliasKey_inj.mp (hold'.trans heq)
          exact hsame (hfits.2 id _ hold)
      by_cases hmap : alloc.old.map (aliasKey alloc.ordinal) = some key
      · rw [if_pos hmap]
        constructor
        · exact nofun
        · rintro ⟨id, ordinal, hash, hnew, heq, -⟩
          exact absurd hmap ((hstale heq).mp hnew).2
      · rw [if_neg hmap, hshows.forward]
        constructor
        · rintro ⟨id, ordinal, hash, hold, heq, rfl⟩
          exact ⟨id, ordinal, hash, (hstale heq).mpr ⟨hold, hmap⟩, heq, rfl⟩
        · rintro ⟨id, ordinal, hash, hnew, heq, rfl⟩
          exact ⟨id, ordinal, hash, ((hstale heq).mp hnew).1, heq, rfl⟩
  · by_cases hsame : id = alloc.id <;> by_cases hsame' : other = alloc.id
    · rw [hsame, hsame']
    · subst hsame
      obtain ⟨rfl, -⟩ := Prod.mk.inj (some.inj (hself.symm.trans hid))
      exact (hfits.2 other _ ((hne hsame').symm.trans hother)).symm
    · subst hsame'
      obtain ⟨rfl, -⟩ := Prod.mk.inj (some.inj (hself.symm.trans hother))
      exact hfits.2 id _ ((hne hsame).symm.trans hid)
    · exact hshows.distinct ((hne hsame).symm.trans hid) ((hne hsame').symm.trans hother)

/-! ## A segment's allocations -/

/-- **A segment's groups, replayed, move the table by all its allocations.** -/
theorem shows_groups : ∀ {allocs : List Alloc} {state : OverlayState} {aliases : AliasTable},
    Shows state aliases → Fit aliases allocs →
      applyMutations state (allocs.flatMap Alloc.group) = .ok next →
        Shows next (allocs.foldl Alloc.enter aliases)
  | [], _, _, hshows, _, h => by
    obtain rfl := ok.inj h
    exact hshows
  | alloc :: allocs, _, _, hshows, hfit, h => by
    obtain ⟨mid, hmid, h⟩ := foldlM_append_eq_ok.mp h
    have hrest := shows_groups (shows_group hshows hfit.1 hmid) hfit.2 h
    exact hrest

/-- An allocation's ordinal, where it is minted with it, is one a counter of eight bytes holds. -/
def Alloc.InRange (alloc : Alloc) : Prop := alloc.old = none → 0 < alloc.ordinal ∧ alloc.ordinal < 2 ^ 64

theorem minted_group {last : ℕ} (hlast : Minted state last) (hrange : alloc.InRange)
    (h : applyMutations state alloc.group = .ok next) :
    Minted next (alloc.mint last) := by
  obtain ⟨-, -, hordinal⟩ := present_group h
  unfold Alloc.mint
  by_cases hold : alloc.old = none
  · obtain ⟨hpos, hlt⟩ := hrange hold
    rw [if_pos hold] at hordinal ⊢
    exact ⟨hlt, by rw [hordinal, if_neg hpos.ne']⟩
  · rw [if_neg hold] at hordinal ⊢
    exact ⟨hlast.1, hordinal.trans hlast.2⟩

theorem minted_groups : ∀ {allocs : List Alloc} {state : OverlayState} {last : ℕ},
    Minted state last → (∀ alloc ∈ allocs, alloc.InRange) →
      applyMutations state (allocs.flatMap Alloc.group) = .ok next →
        Minted next (allocs.foldl (fun last alloc => alloc.mint last) last)
  | [], _, _, hlast, _, h => by
    obtain rfl := ok.inj h
    exact hlast
  | alloc :: allocs, _, _, hlast, hrange, h => by
    obtain ⟨mid, hmid, h⟩ := foldlM_append_eq_ok.mp h
    have hrest := minted_groups (minted_group hlast (hrange alloc mem_cons_self) hmid)
      (fun other hother => hrange other (mem_cons_of_mem _ hother)) h
    exact hrest

end Oneiron
