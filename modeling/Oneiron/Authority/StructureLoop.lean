import Oneiron.Authority.LogStructure

/-!
# Authority/StructureLoop — a settle's loop ends

Each turn of the loop takes a key off a stack and clears its shelf; a row taken off a shelf grants
at most two keys, or goes back on its shelf.  So what is `pending` drops with every turn, and a loop
with that much fuel leaves every stack empty.
-/

namespace Oneiron

open List

section Loop

namespace Settling

variable {verifies : AuthorityLogEntry → Bool} (s : Settling)

/-! ## What one row adds to the stacks -/

variable {s' : Settling} (key : AuthorityKey) (entry : AuthorityLogEntry)

theorem pending_issue : (s.issue key).pending ≤ s.pending + 1 := by
  unfold issue
  split
  · omega
  · simp only [pending, length_cons]
    omega

theorem pending_admitKey : (s.admitKey key).pending ≤ s.pending + 1 := by
  unfold admitKey
  split
  · omega
  · simp only [pending, length_cons]
    omega

/-- An admission grants at most an issuer's and an admitter's place. -/
theorem pending_admitEntry : (s.admitEntry verifies entry).pending ≤ s.pending + 2 := by
  have hseat (device : DeviceAuthority) : (s.seat device).pending ≤ s.pending + 2 := by
    have h := pending_admitKey (if holdsOwner device.roles then s.issue device.key else s) device.key
    have h' := pending_issue s device.key
    unfold seat
    split at h <;> rename_i ho <;> simp only [ho] <;> simp <;> omega
  unfold admitEntry
  split
  · omega
  · split
    · exact hseat _
    · omega

theorem pending_takeKey (profile : MachineProfile) (own : Bool) :
    (s.takeKey profile own).pending ≤ s.pending + 1 := by
  unfold takeKey
  dsimp only
  split <;> split <;> split <;> (try split) <;> simp only [pending, length_cons] <;> omega

/-- A revision grants at most one install key, or goes back on a shelf. -/
theorem pending_fileProfile : (s.fileProfile verifies entry).pending ≤ s.pending + 1 := by
  unfold fileProfile
  split
  · split
    · omega
    · dsimp only
      split
      · simp only [pending, Shelves.load_file]
        omega
      · split
        · exact pending_takeKey s _ _
        · omega
  · omega

/-- **A fold over rows each of which adds so much adds no more than that for each.** -/
theorem pending_foldl {f : Settling → AuthorityLogEntry → Settling} {n : ℕ}
    (hf : ∀ s entry, (f s entry).pending ≤ s.pending + n) (entries : List AuthorityLogEntry) :
    (entries.foldl f s).pending ≤ s.pending + n * entries.length := by
  induction entries generalizing s with
  | nil => simp
  | cons entry entries ih =>
    have h := ih (f s entry)
    have h' := hf s entry
    rw [foldl_cons, length_cons, Nat.mul_succ]
    omega

/-! ## The loop -/

variable (verifies) in
theorem pending_wakeAdmissions : (s.wakeAdmissions verifies key).pending ≤ s.pending := by
  have hf := pending_foldl { s with admissions := s.admissions.clear key }
    (f := admitEntry verifies) (fun s entry => pending_admitEntry s entry) (s.admissions.shelf key)
  have hl := Shelves.load_clear s.admissions key
  simp only [pending] at hf
  unfold wakeAdmissions
  simp only [pending]
  omega

variable (verifies) in
theorem pending_wakeProfiles : (s.wakeProfiles verifies key).pending ≤ s.pending := by
  have hf := pending_foldl { s with profiles := s.profiles.clear key }
    (f := fileProfile verifies) (fun s entry => pending_fileProfile s entry) (s.profiles.shelf key)
  have hl := Shelves.load_clear s.profiles key
  simp only [pending] at hf
  unfold wakeProfiles
  simp only [pending]
  omega

variable {s}

/-- What one turn of the loop does: it takes a key off a stack and clears its shelf. -/
theorem wake_cases (h : s.wake verifies = some s') : (∃ key admitted, s.admitted = key :: admitted ∧
      s' = ({ s with admitted }.wakeAdmissions verifies key).note (.admitter key)) ∨
    (∃ key issued, s.issued = key :: issued ∧
      s' = ({ s with issued }.wakeProfiles verifies key).note (.issuer key)) ∨
    (∃ key anchored, s.anchored = key :: anchored ∧
      s' = ({ s with anchored }.wakeProfiles verifies key).note (.anchor key)) ∨
    (∃ key woken, s.woken = key :: woken ∧ s' = { s with woken }.wakeProfiles verifies key) := by
  unfold wake at h
  split at h
  · next key admitted ha => exact .inl ⟨key, admitted, ha, (Option.some.inj h).symm⟩
  · next key issued _ hi => exact .inr (.inl ⟨key, issued, hi, (Option.some.inj h).symm⟩)
  · next key anchored _ _ hc => exact .inr (.inr (.inl ⟨key, anchored, hc, (Option.some.inj h).symm⟩))
  · next key woken _ _ _ hw => exact .inr (.inr (.inr ⟨key, woken, hw, (Option.some.inj h).symm⟩))
  · simp at h

theorem pending_wake (h : s.wake verifies = some s') : s'.pending < s.pending := by
  obtain ⟨key, admitted, ha, rfl⟩ | ⟨key, issued, hi, rfl⟩ | ⟨key, anchored, hc, rfl⟩ |
    ⟨key, woken, hw, rfl⟩ := wake_cases h
  · have := pending_wakeAdmissions verifies { s with admitted } key
    simp only [pending, note, ha, length_cons] at this ⊢
    omega
  · have := pending_wakeProfiles verifies { s with issued } key
    simp only [pending, note, hi, length_cons] at this ⊢
    omega
  · have := pending_wakeProfiles verifies { s with anchored } key
    simp only [pending, note, hc, length_cons] at this ⊢
    omega
  · have := pending_wakeProfiles verifies { s with woken } key
    simp only [pending, hw, length_cons] at this ⊢
    omega

variable (verifies) in
/-- **The loop runs out of keys before it runs out of fuel.** -/
theorem wake_drain {fuel : ℕ} (h : s.pending ≤ fuel) : (s.drain verifies fuel).wake verifies = none := by
  induction fuel generalizing s with
  | zero =>
    cases hw : s.wake verifies with
    | none => exact hw
    | some s' =>
      have := pending_wake hw
      omega
  | succ fuel ih =>
    unfold drain
    cases hw : s.wake verifies with
    | none => exact hw
    | some s' =>
      have := pending_wake hw
      exact ih (by omega)

/-- A loop with nothing to wake has every stack empty. -/
theorem stacks_of_wake (h : s.wake verifies = none) :
    s.admitted = [] ∧ s.issued = [] ∧ s.anchored = [] ∧ s.woken = [] := by
  unfold wake at h
  split at h
  · simp at h
  · simp at h
  · simp at h
  · simp at h
  · next ha hi hc hw => exact ⟨ha, hi, hc, hw⟩

/-- **What every turn of the loop keeps, the loop keeps.** -/
theorem drain_keeps (Inv : Settling → Prop)
    (hwake : ∀ {s s'}, Inv s → s.wake verifies = some s' → Inv s') (fuel : ℕ) (h : Inv s) :
    Inv (s.drain verifies fuel) := by
  induction fuel generalizing s with
  | zero => exact h
  | succ fuel ih =>
    unfold drain
    cases hw : s.wake verifies with
    | none => exact h
    | some s' => exact ih (hwake h hw)

end Settling

end Loop

/-! ## What a set of rows grants, whatever the order

Read as rules, the rows of a log grant their keys by four inductions: admitters from the root
(`Admits`), slip issuers among them (`Issues`), anchors from their own root records (`Anchors`), and
install keys through whoever may name them (`Names`), with the issuers as the only source for the
keys that are own.  A row that a stranger may carry as well as an owner (`MayStray`) is the one the
builder classes by the order of arrival.
-/

section Grants

/-- Whether `push` keeps a row for the next settle. -/
def waits (entry : AuthorityLogEntry) : Bool :=
  match entry.op with
  | .machineProfile _ | .ownerRoot _ => true
  | _ => entry.admission.isSome

/-- An answer more than its carrier's key signed: `file_profile` drops it. -/
def Dropped (entry : AuthorityLogEntry) (profile : MachineProfile) : Prop :=
  profile.carrier.isSome ∧ entry.cosigns ≠ []

/-- Whether a revision's authority holds: its carrier's key among `keys`, or with no carrier its
signer among the `source`. -/
def Via (source : AuthorityKey → Prop) (keys : EntityId × AuthorityKey → Prop)
    (profile : MachineProfile) (signer : AuthorityKey) : Prop :=
  match profile.carrier with
  | none => source signer
  | some carrier => keys (carrier, signer)

variable {source source' : AuthorityKey → Prop} {profile : MachineProfile}

theorem Via.mono {keys keys' : EntityId × AuthorityKey → Prop} {signer : AuthorityKey}
    (hsource : ∀ k, source k → source' k) (hkeys : ∀ k, keys k → keys' k)
    (h : Via source keys profile signer) : Via source' keys' profile signer := by
  unfold Via at h ⊢
  split at h
  · exact hsource _ h
  · exact hkeys _ h

variable (verifies : AuthorityLogEntry → Bool) (rows : Set AuthorityLogEntry)

/-- The keys whose signature vouches for a row. -/
inductive Admits : AuthorityKey → Prop
  | root {g : AuthorityLogEntry} : g ∈ rows → isRoot verifies g → Admits g.signer
  | named {e : AuthorityLogEntry} {device : DeviceAuthority} {key : AuthorityKey} :
      e ∈ rows → e.admission = some device → verifies e → key ∈ e.signers → Admits key →
      Admits device.key

/-- The root, when it holds the owner role. -/
def RootIssues (key : AuthorityKey) : Prop :=
  ∃ g ∈ rows, isRoot verifies g ∧ g.signer = key ∧
    ∃ device, g.op = .genesis device ∧ holdsOwner device.roles

/-- The slip issuers: the admitters that hold the owner role. -/
def Issues (key : AuthorityKey) : Prop :=
  RootIssues verifies rows key ∨
    ∃ e ∈ rows, ∃ device, e.admission = some device ∧ verifies e ∧ device.key = key ∧
      holdsOwner device.roles ∧ ∃ signer ∈ e.signers, Admits verifies rows signer

/-- The anchors a root record names. -/
def Anchors (anchor : Bytes32) : Prop := ∃ e ∈ rows, selfSignedRoot verifies e = some anchor

/-- The anchors whose record's root is a local one. -/
def Awaits (roots : Finset Bytes32) (anchor : Bytes32) : Prop :=
  ∃ e ∈ rows, selfSignedRoot verifies e = some anchor ∧
    ∃ record, e.op = .ownerRoot record ∧ record.root ∈ roots

/-- An anchor's key. -/
def AnchorKey (key : AuthorityKey) : Prop := ∃ anchor, key = .ed25519 anchor ∧ Anchors verifies rows anchor

/-- The install keys revisions name, from a source on. -/
inductive Names (source : AuthorityKey → Prop) : EntityId × AuthorityKey → Prop
  | direct {e : AuthorityLogEntry} {profile : MachineProfile} :
      e ∈ rows → e.op = .machineProfile profile → verifies e → profile.carrier = none →
      source e.signer → Names source profile.installKey
  | carried {e : AuthorityLogEntry} {profile : MachineProfile} {carrier : EntityId} :
      e ∈ rows → e.op = .machineProfile profile → verifies e → profile.carrier = some carrier →
      e.cosigns = [] → Names source (carrier, e.signer) → Names source profile.installKey

/-- Whoever may name an install key. -/
def Vouches (key : AuthorityKey) : Prop := Issues verifies rows key ∨ AnchorKey verifies rows key

/-- An anchor that is not the root as an issuer: it may be read as a stranger before it is read as
an issuer. -/
def Strays (key : AuthorityKey) : Prop :=
  AnchorKey verifies rows key ∧ ¬ RootIssues verifies rows key

/-- **A row a stranger may carry**: its authority can stand as a stranger's before anything else. -/
def MayStray (entry : AuthorityLogEntry) : Prop :=
  ∃ profile, entry.op = .machineProfile profile ∧
    Via (Strays verifies rows) (Names verifies rows (Strays verifies rows)) profile entry.signer

/-- The rows no stranger may carry. -/
def firmRows : Set AuthorityLogEntry := {e | e ∈ rows ∧ ¬ MayStray verifies rows e}

/-- The machines a taken revision removes. -/
def Removes (machine : EntityId) : Prop :=
  ∃ e ∈ rows, ∃ profile, e.op = .machineProfile profile ∧ verifies e ∧ ¬ Dropped e profile ∧
    profile.role = .removed ∧ profile.machine = machine ∧
    Via (Vouches verifies rows) (Names verifies rows (Vouches verifies rows)) profile e.signer

variable {verifies rows}

/-! ## The rules, as closure -/

theorem Names.of_via {e : AuthorityLogEntry} (he : e ∈ rows) (hop : e.op = .machineProfile profile)
    (hv : verifies e) (hd : ¬ Dropped e profile)
    (h : Via source (Names verifies rows source) profile e.signer) :
    Names verifies rows source profile.installKey := by
  unfold Via at h
  cases hc : profile.carrier with
  | none =>
    simp only [hc] at h
    exact .direct he hop hv hc h
  | some carrier =>
    simp only [hc] at h
    exact .carried he hop hv hc (not_not.mp fun hn => hd ⟨by simp [hc], hn⟩) h

/-- **The keys named are the least set closed under the rows.** -/
theorem Names.least {key : EntityId × AuthorityKey} (h : Names verifies rows source key)
    (keys : EntityId × AuthorityKey → Prop)
    (hkeys : ∀ e profile, e ∈ rows → e.op = .machineProfile profile → verifies e →
      ¬ Dropped e profile → Via source keys profile e.signer → keys profile.installKey) :
    keys key := by
  induction h with
  | direct he hop hv hc hs =>
    exact hkeys _ _ he hop hv (fun hd => by simp [Dropped, hc] at hd) (by simpa [Via, hc] using hs)
  | carried he hop hv hc hcos _ ih =>
    exact hkeys _ _ he hop hv (fun hd => hd.2 hcos) (by simpa [Via, hc] using ih)

theorem Names.mono {rows' : Set AuthorityLogEntry}
    (hrows : ∀ e ∈ rows, ∀ profile, e.op = .machineProfile profile → e ∈ rows')
    (hsource : ∀ k, source k → source' k) {key : EntityId × AuthorityKey}
    (h : Names verifies rows source key) : Names verifies rows' source' key :=
  h.least _ fun _ _ he hop hv hd hvia =>
    .of_via (hrows _ he _ hop) hop hv hd (hvia.mono hsource fun _ => id)

theorem Strays.vouches {key : AuthorityKey} (h : Strays verifies rows key) :
    Vouches verifies rows key := .inr h.1

end Grants

end Oneiron
