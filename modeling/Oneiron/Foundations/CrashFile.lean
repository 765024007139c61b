import Mathlib.Data.List.Forall2
import Mathlib.Order.Nat

/-!
# Foundations/CrashFile — a file of records whose unsynced end a crash may take

    synced --op--▸ · --op--▸ · --op--▸ content
       └------ survives -----┘ torn

A crash keeps a first stretch of what was done since the last sync, and of the append after it
perhaps a first part.  Records stand in slots of one width; a crash may damage a whole slot so that
it reads no more.  What is said here is what every such loss leaves of the slots (`AtCrash`).
-/

namespace Oneiron

open List Nat

universe u v

variable {α : Type u} {β : Type v} {n : ℕ} {l r items : List α}

/-- The `i`-th stretch of `n` items. -/
def slot (n i : ℕ) (l : List α) : List α := (l.drop (n * i)).take n

/-- The stretches of `n` items, in order; a shorter rest is none. -/
def chunksExact (n : ℕ) (l : List α) : List (List α) :=
  (List.range (l.length / n)).map fun i => slot n i l

theorem chunksExact_of_short (h : l.length < n) : chunksExact n l = [] := by
  rw [chunksExact, div_eq_of_lt h, range_zero, map_nil]

theorem chunksExact_self (hn : 0 < n) (h : l.length = n) : chunksExact n l = [l] := by
  have hslot : slot n 0 l = l := by rw [slot, Nat.mul_zero, drop_zero, take_of_length_le h.le]
  rw [chunksExact, h, Nat.div_self hn, range_one, map_singleton, hslot]

/-- **Behind a whole number of slots the rest is cut as it would be alone.** -/
theorem chunksExact_append (hn : 0 < n) (h : n ∣ l.length) :
    chunksExact n (l ++ r) = chunksExact n l ++ chunksExact n r := by
  obtain ⟨k, hk⟩ := h
  have hlen : (l ++ r).length / n = k + r.length / n := by
    rw [length_append, hk, mul_add_div hn]
  have hfirst : ∀ i ∈ List.range k, slot n i (l ++ r) = slot n i l := by
    intro i hi
    have hle : n * i + n ≤ n * k := by
      exact Nat.mul_le_mul_left n (mem_range.mp hi)
    rw [slot, slot, drop_append_of_le_length (by omega),
      take_append_of_le_length (by rw [length_drop]; omega)]
  have hrest (j : ℕ) : slot n (k + j) (l ++ r) = slot n j r := by
    rw [slot, slot, Nat.mul_add, ← hk, drop_length_add_append]
  rw [chunksExact, hlen, range_add, map_append, map_congr_left hfirst, map_map,
    chunksExact, chunksExact, hk, Nat.mul_div_cancel_left k hn]
  simp only [Function.comp_def, hrest]

/-- Cutting the rest off leaves the slots as they were. -/
theorem chunksExact_trimmed (hn : 0 < n) :
    chunksExact n (l.take (l.length - l.length % n)) = chunksExact n l := by
  have hle : l.length - l.length % n ≤ l.length := sub_le _ _
  have hdvd : n ∣ (l.take (l.length - l.length % n)).length := by
    rw [length_take_of_le hle]
    exact dvd_sub_mod _
  have hrest : (l.drop (l.length - l.length % n)).length < n := by
    have := mod_lt l.length hn
    rw [length_drop]
    omega
  conv_rhs => rw [← take_append_drop (l.length - l.length % n) l]
  rw [chunksExact_append hn hdvd, chunksExact_of_short hrest, append_nil]

/-- An append of one slot's items that ends anywhere adds the slot or nothing. -/
theorem chunksExact_append_take (hn : 0 < n) (h : n ∣ l.length) (hitems : items.length = n) (m : ℕ) :
    chunksExact n (l ++ items.take m) = chunksExact n l ∨
      chunksExact n (l ++ items.take m) = chunksExact n l ++ [items] := by
  rw [chunksExact_append hn h]
  rcases Nat.lt_or_ge m n with hm | hm
  · left
    have hshort : (items.take m).length < n := by
      rw [length_take]
      omega
    rw [chunksExact_of_short hshort, append_nil]
  · right
    rw [take_of_length_le (hitems.le.trans hm), chunksExact_self hn hitems]

theorem length_of_mem_chunksExact {s : List α} (h : s ∈ chunksExact n l) : s.length = n := by
  obtain ⟨i, hi, rfl⟩ := mem_map.mp h
  have hle : n * i + n ≤ l.length := by
    have hlt := mem_range.mp hi
    calc n * i + n = n * (i + 1) := (mul_succ n i).symm
      _ ≤ n * (l.length / n) := Nat.mul_le_mul_left n hlt
      _ ≤ l.length := mul_div_le l.length n
  rw [slot, length_take, length_drop]
  omega

/-- **Slots laid one after another are the slots.** -/
theorem chunksExact_flatMap {f : β → List α} (hn : 0 < n) : ∀ {bs : List β},
    (∀ b ∈ bs, (f b).length = n) → chunksExact n (bs.flatMap f) = bs.map f
  | [], _ => chunksExact_of_short (by simpa using hn)
  | b :: bs, h => by
    rw [forall_mem_cons] at h
    rw [flatMap_cons, chunksExact_append hn (h.1 ▸ Nat.dvd_refl _), chunksExact_self hn h.1,
      chunksExact_flatMap hn h.2]
    rfl

/-- **Whole slots are all there is.** -/
theorem flatten_chunksExact (hn : 0 < n) (h : n ∣ l.length) : (chunksExact n l).flatten = l := by
  obtain ⟨k, hk⟩ := h
  induction k generalizing l with
  | zero =>
    obtain rfl : l = [] := length_eq_zero_iff.mp (by rw [hk, Nat.mul_zero])
    rw [chunksExact_of_short (by simpa using hn)]
    rfl
  | succ k ih =>
    rw [mul_succ] at hk
    have hfirst : (l.take n).length = n := length_take_of_le (by omega)
    have hrest := ih (l := l.drop n) (by rw [length_drop]; omega)
    calc (chunksExact n l).flatten = (chunksExact n (l.take n ++ l.drop n)).flatten := by
          rw [take_append_drop]
      _ = l.take n ++ l.drop n := by
          rw [chunksExact_append hn ⟨1, by rw [hfirst, Nat.mul_one]⟩, chunksExact_self hn hfirst, flatten_append,
            hrest, flatten_singleton]
      _ = l := take_append_drop n l

theorem chunksExact_map (f : α → β) : chunksExact n (l.map f) = (chunksExact n l).map (·.map f) := by
  simp only [chunksExact, slot, length_map, map_map, Function.comp_def, map_take,
    map_drop]

/-- What is done to a file between two syncs. -/
inductive FileOp (α : Type u) where
  | setLen (len : ℕ)
  | append (items : List α)

/-- Where a call on the file may fail. -/
inductive FileFault where
  | open
  | dirSync
  | trim
  /-- So many items were written. -/
  | write (written : ℕ)
  | sync
  deriving DecidableEq

/-- Whether the append failed, and not the open before it. -/
def FileFault.atAppend : FileFault → Bool
  | .write _ | .sync => true
  | _ => false

/-- A file opened for appends: whether its directory entry is synced, the content last synced, and
what was done since. -/
structure CrashFile (α : Type u) where
  linked : Bool
  synced : List α
  pending : List (FileOp α)

namespace CrashFile

/-- A file is only ever cut, never stretched. -/
def run (l : List α) : FileOp α → List α
  | .setLen len => l.take len
  | .append items => l ++ items

/-- A file just made, and its directory entry not synced. -/
def created : CrashFile α := ⟨false, [], []⟩

variable (f : CrashFile α)

/-- The directory is synced. -/
def link : CrashFile α := { f with linked := true }

/-- What a reader finds while nothing crashes. -/
def content : List α := f.pending.foldl run f.synced

def setLen (len : ℕ) : CrashFile α := { f with pending := f.pending ++ [.setLen len] }

def append (items : List α) : CrashFile α := { f with pending := f.pending ++ [.append items] }

def sync : CrashFile α := { f with synced := f.content, pending := [] }

/-- What of the content a crash may leave. -/
inductive Survives : List α → Prop
  | whole (k : ℕ) : Survives ((f.pending.take k).foldl run f.synced)
  | torn (k m : ℕ) {items : List α} : f.pending[k]? = some (.append items) →
      Survives ((f.pending.take k).foldl run f.synced ++ items.take m)

variable {f}

@[simp] theorem content_setLen (len : ℕ) : (f.setLen len).content = f.content.take len := by
  rw [content, setLen, foldl_concat]
  rfl

@[simp] theorem content_append : (f.append items).content = f.content ++ items := by
  rw [content, append, foldl_concat]
  rfl

@[simp] theorem content_sync : f.sync.content = f.content := rfl

theorem survives_link : f.link.Survives l → f.Survives l
  | .whole k => .whole k
  | .torn k m hk => .torn k m hk

theorem content_survives : f.Survives f.content := by
  have h := Survives.whole (f := f) f.pending.length
  rwa [take_length] at h

/-- What a crash leaves once nothing is pending. -/
theorem survives_synced (h : f.pending = []) (hl : f.Survives l) : l = f.synced := by
  cases hl with
  | whole k => rw [h, take_nil, foldl_nil]
  | torn k m hk => simp [h] at hk

/-- What one more operation adds to what a crash may leave. -/
theorem survives_concat (f g : CrashFile α) {op : FileOp α} (hsynced : g.synced = f.synced)
    (hpending : g.pending = f.pending ++ [op]) (hl : g.Survives l) :
    f.Survives l ∨ l = run f.content op ∨
      ∃ m items, op = .append items ∧ l = f.content ++ items.take m := by
  cases hl with
  | whole k =>
    rw [hsynced, hpending]
    rcases Nat.lt_or_ge f.pending.length k with hk | hk
    · rw [take_of_length_le (by rw [length_append, length_singleton]; omega),
        foldl_concat]
      exact Or.inr (Or.inl rfl)
    · rw [take_append_of_le_length hk]
      exact Or.inl (.whole k)
  | torn k m hk =>
    rw [hpending] at hk
    rw [hsynced, hpending]
    rcases Nat.lt_trichotomy k f.pending.length with hlt | rfl | hgt
    · rw [getElem?_append_left hlt] at hk
      rw [take_append_of_le_length hlt.le]
      exact Or.inl (.torn k m hk)
    · rw [getElem?_concat_length, Option.some.injEq] at hk
      rw [take_left]
      exact Or.inr (Or.inr ⟨m, _, hk, rfl⟩)
    · rw [getElem?_eq_none (by rw [length_append, length_singleton]; omega)] at hk
      cases hk

/-- **What holds of the slots whatever a crash leaves.** -/
def AtCrash (n : ℕ) (f : CrashFile α) (P : List (List α) → Prop) : Prop :=
  ∀ l, f.Survives l → P (chunksExact n l)

namespace AtCrash

variable {P Q : List (List α) → Prop}

theorem content (h : AtCrash n f P) : P (chunksExact n f.content) := h _ content_survives

theorem mono (h : AtCrash n f P) (hPQ : ∀ slots, P slots → Q slots) : AtCrash n f Q :=
  fun l hl => hPQ _ (h l hl)

theorem created (h : P []) : AtCrash n (created : CrashFile α) P := by
  intro l hl
  rw [survives_synced rfl hl]
  have hempty : chunksExact n ([] : List α) = [] := by
    rw [chunksExact, length_nil, Nat.zero_div, range_zero, map_nil]
  exact hempty ▸ h

theorem link (h : AtCrash n f P) : AtCrash n f.link P := fun l hl => h l (survives_link hl)

theorem sync (h : P (chunksExact n f.content)) : AtCrash n f.sync P := by
  intro l hl
  rw [survives_synced rfl hl]
  exact h

theorem setLen {len : ℕ} (h : AtCrash n f P) (hcut : P (chunksExact n (f.content.take len))) :
    AtCrash n (f.setLen len) P := by
  intro l hl
  rcases survives_concat f (f.setLen len) rfl rfl hl with hl | rfl | ⟨m, items, ⟨⟩, -⟩
  · exact h l hl
  · exact hcut

/-- Trimming a torn end. -/
theorem trim (hn : 0 < n) (h : AtCrash n f P) :
    AtCrash n (f.setLen (f.content.length - f.content.length % n)) P :=
  h.setLen (by rw [chunksExact_trimmed hn]; exact h.content)

/-- An append of at most one slot, wherever it ends. -/
theorem append_take (hn : 0 < n) (h : AtCrash n f P) (hdvd : n ∣ f.content.length)
    (hitems : items.length = n) (hP : P (chunksExact n f.content ++ [items])) (m : ℕ) :
    AtCrash n (f.append (items.take m)) P := by
  have hcut (m : ℕ) : P (chunksExact n (f.content ++ items.take m)) := by
    rcases chunksExact_append_take hn hdvd hitems m with heq | heq
    · rw [heq]
      exact h.content
    · rw [heq]
      exact hP
  intro l hl
  rcases survives_concat f (f.append (items.take m)) rfl rfl hl with
    hl | rfl | ⟨m', items', hop, rfl⟩
  · exact h l hl
  · exact hcut m
  · cases hop
    rw [take_take]
    exact hcut _

end AtCrash

/-- What holds of the slots of a file, if there is one. -/
def Holds (n : ℕ) (P : List (List α) → Prop) (file : Option (CrashFile α)) : Prop :=
  ∀ f ∈ file, AtCrash n f P

/-- A file that is there after a crash, with slots of which something holds. -/
def Keeps (n : ℕ) (P : List (List α) → Prop) (file : Option (CrashFile α)) : Prop :=
  ∃ f, file = some f ∧ f.linked = true ∧ AtCrash n f P

theorem Keeps.mono {P Q : List (List α) → Prop} {file : Option (CrashFile α)} :
    Keeps n P file → (∀ slots, P slots → Q slots) → Keeps n Q file
  | ⟨f, hf, hlinked, h⟩, hPQ => ⟨f, hf, hlinked, h.mono hPQ⟩

/-! ### Opening for appends, and appending a record -/

/-- The file without its torn end. -/
def trimmed (n : ℕ) (f : CrashFile α) : CrashFile α :=
  if 0 < f.content.length % n then f.setLen (f.content.length - f.content.length % n) else f

/-- Opens a file for appends, the directory synced if asked, and a torn end trimmed; a failure leaves
the file as it stands then. -/
def openForAppend (n : ℕ) (fault : Option FileFault) (syncDir : Bool)
    (file : Option (CrashFile α)) : Except (Option (CrashFile α)) (CrashFile α) :=
  if fault = some .open then .error file else
  let opened := file.getD created
  if syncDir ∧ fault = some .dirSync then .error (some opened) else
  let opened := if syncDir then opened.link else opened
  if fault = some .trim then .error (some opened) else .ok (opened.trimmed n)

/-- Appends and syncs, and says whether both were done. -/
def appendSynced (fault : Option FileFault) (items : List α) (f : CrashFile α) :
    Bool × CrashFile α :=
  match fault with
  | some (.write written) => (false, f.append (items.take written))
  | some .sync => (false, f.append items)
  | _ => (true, (f.append items).sync)

section Calls

variable {P : List (List α) → Prop} {file : Option (CrashFile α)} {fault : Option FileFault}
variable {syncDir : Bool}

/-- The file an open for append leaves, whether it succeeds or not. -/
def leftBy : Except (Option (CrashFile α)) (CrashFile α) → Option (CrashFile α)
  | .error file => file
  | .ok f => some f

/-- What an open for append may do: nothing, or open the file, which it then may trim. -/
theorem openForAppend_cases (n : ℕ) (fault : Option FileFault) (syncDir : Bool)
    (file : Option (CrashFile α)) :
    openForAppend n fault syncDir file = .error file ∨
      ∃ g, (g = file.getD created ∨ g = (file.getD created).link) ∧
        (openForAppend n fault syncDir file = .error (some g) ∨
          (syncDir = true → g.linked = true) ∧
            openForAppend n fault syncDir file = .ok (g.trimmed n)) := by
  rw [openForAppend]
  by_cases hopen : fault = some .open
  · exact Or.inl (if_pos hopen)
  rw [if_neg hopen]
  right
  by_cases hdir : syncDir = true ∧ fault = some .dirSync
  · exact ⟨_, Or.inl rfl, Or.inl (if_pos hdir)⟩
  simp only [if_neg hdir]
  refine ⟨if syncDir then (file.getD created).link else file.getD created, ?_, ?_⟩
  · cases syncDir
    · exact Or.inl rfl
    · exact Or.inr rfl
  by_cases htrim : fault = some .trim
  · exact Or.inl (if_pos htrim)
  · refine Or.inr ⟨?_, if_neg htrim⟩
    rintro rfl
    rfl

theorem linked_trimmed {f : CrashFile α} : (f.trimmed n).linked = f.linked := by
  rw [trimmed]
  split <;> rfl

theorem dvd_length_trimmed {f : CrashFile α} : n ∣ (f.trimmed n).content.length := by
  rw [trimmed]
  split
  · rw [content_setLen, length_take_of_le (sub_le ..)]
    exact dvd_sub_mod _
  · exact dvd_of_mod_eq_zero (by omega)

theorem AtCrash.trimmed {f : CrashFile α} (hn : 0 < n) (h : AtCrash n f P) :
    AtCrash n (f.trimmed n) P := by
  rw [CrashFile.trimmed]
  split
  · exact h.trim hn
  · exact h

theorem openForAppend_holds (fault : Option FileFault) (syncDir : Bool) (hn : 0 < n) (h : Holds n P file) (hnil : P []) :
    Holds n P (leftBy (openForAppend n fault syncDir file)) := by
  rcases openForAppend_cases n fault syncDir file with heq | ⟨g, hg, hr⟩
  · rw [heq]
    exact h
  have hopened : AtCrash n (file.getD created) P := by
    cases file with
    | none => exact .created hnil
    | some f => exact h f rfl
  have hheld : AtCrash n g P := by
    rcases hg with rfl | rfl
    · exact hopened
    · exact hopened.link
  rcases hr with heq | ⟨-, heq⟩ <;> rw [heq] <;> rintro f ⟨⟩
  · exact hheld
  · exact hheld.trimmed hn

theorem openForAppend_keeps (fault : Option FileFault) (syncDir : Bool) (hn : 0 < n) (h : Keeps n P file) :
    Keeps n P (leftBy (openForAppend n fault syncDir file)) := by
  obtain ⟨f, rfl, hlinked, hP⟩ := h
  rcases openForAppend_cases n fault syncDir (some f) with heq | ⟨g, hg, hr⟩
  · rw [heq]
    exact ⟨f, rfl, hlinked, hP⟩
  have hkept : g.linked = true ∧ AtCrash n g P := by
    rcases hg with rfl | rfl
    · exact ⟨hlinked, hP⟩
    · exact ⟨rfl, hP.link⟩
  rcases hr with heq | ⟨-, heq⟩ <;> rw [heq]
  · exact ⟨g, rfl, hkept⟩
  · exact ⟨g.trimmed n, rfl, linked_trimmed.trans hkept.1, hkept.2.trimmed hn⟩

/-- What is opened ends at a whole record, and is linked where it was or is asked to be. -/
theorem openForAppend_ok (hn : 0 < n) {f : CrashFile α}
    (h : openForAppend n fault syncDir file = .ok f) :
    n ∣ f.content.length ∧
      (syncDir = true ∨ Keeps n (fun _ => True) file → f.linked = true) := by
  have hkept : Keeps n (fun _ => True) file → f.linked = true := by
    intro hlinked
    have hleft := openForAppend_keeps fault syncDir hn hlinked
    rw [h] at hleft
    obtain ⟨g, hg, hlinked, -⟩ := hleft
    exact Option.some.inj hg ▸ hlinked
  rcases openForAppend_cases n fault syncDir file with heq | ⟨g, -, heq | ⟨hsync, heq⟩⟩
  · rw [h] at heq
    cases heq
  · rw [h] at heq
    cases heq
  obtain rfl := Except.ok.inj (h.symm.trans heq)
  refine ⟨dvd_length_trimmed, ?_⟩
  rintro (hdir | hlinked)
  · rw [linked_trimmed]
    exact hsync hdir
  · exact hkept hlinked

/-- What an append of a record, or of a first part of it, does: it fails, or is synced. -/
theorem appendSynced_cases (fault : Option FileFault) (items : List α) (f : CrashFile α) :
    ((f.appendSynced fault items).1 = false ∧ fault.any (·.atAppend) = true ∧
      ∃ m, (f.appendSynced fault items).2 = f.append (items.take m)) ∨
    ((f.appendSynced fault items).1 = true ∧
      (f.appendSynced fault items).2 = (f.append items).sync) := by
  cases fault with
  | none => exact Or.inr ⟨rfl, rfl⟩
  | some fault =>
    cases fault with
    | write written => exact Or.inl ⟨rfl, rfl, written, rfl⟩
    | sync => exact Or.inl ⟨rfl, rfl, items.length, by rw [take_length]; rfl⟩
    | «open» | dirSync | trim => exact Or.inr ⟨rfl, rfl⟩

theorem linked_appendSynced (fault : Option FileFault) (items : List α) (f : CrashFile α) :
    (f.appendSynced fault items).2.linked = f.linked := by
  rcases appendSynced_cases fault items f with ⟨-, -, m, heq⟩ | ⟨-, heq⟩ <;>
    rw [heq] <;> rfl

theorem chunksExact_append_record {f : CrashFile α} (hn : 0 < n) (hdvd : n ∣ f.content.length)
    (hitems : items.length = n) :
    chunksExact n (f.append items).content = chunksExact n f.content ++ [items] := by
  rw [content_append, chunksExact_append hn hdvd, chunksExact_self hn hitems]

/-- **An append of one slot, however it ends, keeps what the whole slot keeps.** -/
theorem AtCrash.appendSynced {f : CrashFile α} (fault : Option FileFault) (hn : 0 < n)
    (h : AtCrash n f P) (hdvd : n ∣ f.content.length) (hitems : items.length = n)
    (hP : P (chunksExact n f.content ++ [items])) : AtCrash n (f.appendSynced fault items).2 P := by
  rcases appendSynced_cases fault items f with ⟨-, -, m, heq⟩ | ⟨-, heq⟩ <;>
    rw [heq]
  · exact h.append_take hn hdvd hitems hP m
  · refine AtCrash.sync ?_
    rw [chunksExact_append_record hn hdvd hitems]
    exact hP

/-- **What is synced is there after any crash.** -/
theorem AtCrash.of_appendSynced {f : CrashFile α} (fault : Option FileFault) (hn : 0 < n)
    (hdvd : n ∣ f.content.length) (hitems : items.length = n)
    (hsynced : (f.appendSynced fault items).1 = true) (hP : P (chunksExact n f.content ++ [items]))
    :
    AtCrash n (f.appendSynced fault items).2 P := by
  rcases appendSynced_cases fault items f with ⟨hfailed, -⟩ | ⟨-, heq⟩
  · rw [hfailed] at hsynced
    cases hsynced
  · rw [heq]
    refine AtCrash.sync ?_
    rw [chunksExact_append_record hn hdvd hitems]
    exact hP

end Calls

variable {κ : Type v} (n) (reads : List α → Prop) (note : α → κ)

/-- Some slots come to read no more; the notes on their items stay. -/
structure Damaged (l l' : List α) : Prop where
  notes : l'.map note = l.map note
  slots : List.Forall₂ (fun s s' => s' = s ∨ ¬reads s') (chunksExact n l) (chunksExact n l')

/-- A crash: a file not linked may be gone; what survives may be damaged, and is all there is. -/
inductive Crash : Option (CrashFile α) → Option (CrashFile α) → Prop
  | absent : Crash none none
  | gone {f : CrashFile α} : f.linked = false → Crash (some f) none
  | kept {f : CrashFile α} {l l' : List α} : f.Survives l → Damaged n reads note l l' →
      Crash (some f) (some ⟨true, l', []⟩)

variable {n reads note}

variable {l' : List α}

/-- The notes on each slot outlast damage. -/
theorem Damaged.notes_slots (h : Damaged n reads note l l') :
    (chunksExact n l').map (·.map note) = (chunksExact n l).map (·.map note) := by
  rw [← chunksExact_map, ← chunksExact_map, h.notes]

/-- A slot that reads was there before. -/
theorem Damaged.mem_of_reads {s : List α} (h : Damaged n reads note l l')
    (hs : s ∈ chunksExact n l') (hread : reads s) : s ∈ chunksExact n l := by
  have hall := h.slots
  generalize chunksExact n l = old at hall
  generalize chunksExact n l' = new at hall hs
  induction hall with
  | nil => cases hs
  | cons hhead _ ih =>
    rcases mem_cons.mp hs with rfl | hs
    · rcases hhead with rfl | hno
      · exact mem_cons_self
      · exact absurd hread hno
    · exact mem_cons_of_mem _ (ih hs)

section Crash

variable {P Q : List (List α) → Prop} {file file' : Option (CrashFile α)}

/-- What damage leaves of what held before a crash. -/
theorem Crash.holds (h : Crash n reads note file file') (hP : Holds n P file)
    (hdamage : ∀ l l', Damaged n reads note l l' → P (chunksExact n l) → Q (chunksExact n l')) :
    Holds n Q file' := by
  intro f' hf'
  cases h with
  | absent | gone => cases hf'
  | kept hl hd =>
    obtain rfl := Option.some.inj hf'
    intro l'' hl''
    rw [survives_synced rfl hl'']
    exact hdamage _ _ hd (hP _ rfl _ hl)

/-- A file synced may come whole through a crash. -/
theorem Crash.synced (linked : Bool) (l : List α) :
    Crash n reads note (some ⟨linked, l, []⟩) (some ⟨true, l, []⟩) :=
  .kept (.whole 0) ⟨rfl, forall₂_same.mpr fun _ _ => Or.inl rfl⟩

/-- Nothing is pending behind a crash. -/
theorem Crash.pending (h : Crash n reads note file file') : ∀ f ∈ file', f.pending = [] := by
  rintro f ⟨⟩
  cases h
  rfl

theorem Crash.keeps (h : Crash n reads note file file') (hP : Keeps n P file)
    (hdamage : ∀ l l', Damaged n reads note l l' → P (chunksExact n l) → Q (chunksExact n l')) :
    Keeps n Q file' := by
  obtain ⟨f, rfl, hlinked, hP⟩ := hP
  have hholds : Holds n P (some f) := by
    rintro g ⟨⟩
    exact hP
  have hafter := h.holds hholds hdamage
  cases h with
  | gone hunlinked => rw [hlinked] at hunlinked; cases hunlinked
  | kept => exact ⟨_, rfl, rfl, hafter _ rfl⟩

end Crash

end CrashFile

end Oneiron
