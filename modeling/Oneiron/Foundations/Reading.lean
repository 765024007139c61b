import Oneiron.Foundations.Digits
import Oneiron.Foundations.Fallible

/-!
# Foundations/Reading — bounded readers, and what they accept exactly

A reader takes bytes off the front of its input or fails.  It is `Exact` for a spelling when what it
accepts is just the spellings of what satisfies a condition, each followed by anything: one fact from
which a round trip, the refusal of every second spelling, and the absence of a common prefix all
follow.
-/

namespace Oneiron

open List

variable {ε α β : Type}

/-- Takes bytes off the front of the input, or fails. -/
abbrev Reader (ε : Type) := StateT (List UInt8) (Except ε)

namespace Reader

/-- The next `n` bytes. -/
def take (n : ℕ) (short : ε) : Reader ε (List UInt8) := fun s =>
  if n ≤ s.length then .ok (s.take n, s.drop n) else .error short

/-- What a computation that reads nothing gives. -/
def lift (x : Except ε α) : Reader ε α := fun s => x.map (·, s)

/-- The next `n` items, one after another. -/
def many (n : ℕ) (item : Reader ε α) : Reader ε (List α) :=
  match n with
  | 0 => pure []
  | n + 1 => do
    let a ← item
    let rest ← many n item
    pure (a :: rest)

/-- A big-endian number of a fixed width. -/
def number (width : ℕ) (short : ε) : Reader ε ℕ := valueOf <$> take width short

/-- A little-endian number of a fixed width. -/
def numberLe (width : ℕ) (short : ε) : Reader ε ℕ := (fun b => valueOf b.reverse) <$> take width short

/-- Items one after another up to the end of the input, at most as many as the fuel. -/
def toEnd (item : Reader ε α) (spent : ε) : ℕ → List UInt8 → Except ε (List α)
  | _, [] => .ok []
  | 0, _ :: _ => .error spent
  | fuel + 1, s => do
    let (a, rest) ← item.run s
    let others ← toEnd item spent fuel rest
    pure (a :: others)

/-- **A reader that accepts exactly the spellings of what satisfies `P`.** -/
def Exact (reader : Reader ε α) (P : α → Prop) (spell : α → List UInt8) : Prop :=
  ∀ s a t, reader.run s = .ok (a, t) ↔ P a ∧ s = spell a ++ t

variable {x : Reader ε α} {f : α → Reader ε β} {s t : List UInt8} {a : α} (width : ℕ)

theorem run_bind_ok {b : β} :
    (x >>= f).run s = .ok (b, t) ↔ ∃ a s', x.run s = .ok (a, s') ∧ (f a).run s' = .ok (b, t) := by
  rw [StateT.run_bind, bind_eq_ok]
  exact ⟨fun ⟨⟨a, s'⟩, h⟩ => ⟨a, s', h⟩, fun ⟨a, s', h⟩ => ⟨⟨a, s'⟩, h⟩⟩

theorem run_pure_ok {b : α} : (pure a : Reader ε α).run s = .ok (b, t) ↔ a = b ∧ s = t := by
  rw [StateT.run_pure, pure_eq_ok, Prod.mk.injEq]

theorem run_map_ok {f : α → β} {b : β} :
    (f <$> x).run s = .ok (b, t) ↔ ∃ a, x.run s = .ok (a, t) ∧ f a = b := by
  rw [map_eq_pure_bind, run_bind_ok]
  constructor
  · rintro ⟨a, s', h, hp⟩
    obtain ⟨rfl, rfl⟩ := run_pure_ok.mp hp
    exact ⟨a, h, rfl⟩
  · rintro ⟨a, h, rfl⟩
    exact ⟨a, t, h, run_pure_ok.mpr ⟨rfl, rfl⟩⟩

theorem run_lift_ok {x : Except ε α} : (lift x).run s = .ok (a, t) ↔ x = .ok a ∧ s = t := by
  show x.map (·, s) = .ok (a, t) ↔ _
  cases x <;> simp [Except.map]

theorem exact_take (n : ℕ) (short : ε) :
    Exact (take n short) (fun b => b.length = n) (fun b => b) := by
  intro s b t
  show (if n ≤ s.length then _ else _) = _ ↔ _
  split_ifs with h
  · constructor
    · intro he
      obtain ⟨rfl, rfl⟩ := Prod.mk.inj (Except.ok.inj he)
      exact ⟨length_take_of_le h, (take_append_drop n s).symm⟩
    · rintro ⟨rfl, rfl⟩
      rw [take_left, drop_left]
  · refine ⟨nofun, ?_⟩
    rintro ⟨rfl, rfl⟩
    exact absurd (by simp) h

theorem exact_number (short : ε) : Exact (number width short) (· < 256 ^ width) (digits width) := by
  intro s n t
  rw [number, run_map_ok]
  constructor
  · rintro ⟨b, h, rfl⟩
    obtain ⟨rfl, rfl⟩ := (exact_take width short s b t).mp h
    exact ⟨valueOf_lt b, by rw [digits_valueOf]⟩
  · rintro ⟨hn, rfl⟩
    exact ⟨digits width n, (exact_take width short _ _ t).mpr ⟨length_digits width n, rfl⟩,
      valueOf_digits hn⟩

theorem exact_numberLe (short : ε) :
    Exact (numberLe width short) (· < 256 ^ width) fun n => (digits width n).reverse := by
  intro s n t
  rw [numberLe, run_map_ok]
  constructor
  · rintro ⟨b, h, rfl⟩
    obtain ⟨rfl, rfl⟩ := (exact_take width short s b t).mp h
    have hlt := valueOf_lt b.reverse
    have hback := digits_valueOf b.reverse
    rw [length_reverse] at hlt hback
    have hspelled : (digits b.length (valueOf b.reverse)).reverse = b := by
      rw [hback, reverse_reverse]
    exact ⟨hlt, congrArg (· ++ t) hspelled.symm⟩
  · rintro ⟨hn, rfl⟩
    have hlen : (digits width n).reverse.length = width := by
      rw [length_reverse, length_digits]
    refine ⟨(digits width n).reverse, (exact_take width short _ _ t).mpr ⟨hlen, rfl⟩, ?_⟩
    rw [reverse_reverse, valueOf_digits hn]

/-! ## Reading a stream -/

/-- **A reader of a stream**: what it makes of an input is settled by the bytes it consumes, and an
input that ends among them is short. -/
def Streaming (short : ε → Prop) (reader : Reader ε α) : Prop :=
  ∀ s a t, reader.run s = .ok (a, t) → ∃ u, s = u ++ t ∧
    (∀ t', reader.run (u ++ t') = .ok (a, t')) ∧
    ∀ p q, u = p ++ q → q ≠ [] → ∃ e, short e ∧ reader.run p = .error e

namespace Streaming

variable {short : ε → Prop}

theorem take {n : ℕ} {e : ε} (he : short e) : Streaming short (take n e) := by
  intro s b t h
  obtain ⟨rfl, rfl⟩ := (exact_take n e s b t).mp h
  refine ⟨b, rfl, fun t' => (exact_take b.length e _ b t').mpr ⟨rfl, rfl⟩, ?_⟩
  rintro p q rfl hq
  refine ⟨e, he, if_neg ?_⟩
  have := length_pos_of_ne_nil hq
  rw [length_append]
  omega

variable {reader : Reader ε α}

/-- A computation that consumes nothing cannot be cut short. -/
theorem of_consumes_nothing (x : Except ε α)
    (h : ∀ s a t, reader.run s = .ok (a, t) ↔ x = .ok a ∧ s = t) : Streaming short reader := by
  intro s a t hrun
  obtain ⟨hx, rfl⟩ := (h s a t).mp hrun
  refine ⟨[], rfl, fun t' => (h _ _ _).mpr ⟨hx, rfl⟩, fun p q heq hq => ?_⟩
  exact absurd (append_eq_nil_iff.mp heq.symm).2 hq

theorem lift (x : Except ε α) : Streaming short (lift x) :=
  of_consumes_nothing x fun _ _ _ => run_lift_ok

theorem pure (a : α) : Streaming short (Pure.pure a : Reader ε α) :=
  of_consumes_nothing (.ok a) fun _ _ _ => by rw [run_pure_ok, Except.ok.injEq]

/-- **Streams are read one after another.** -/
theorem bind (hx : Streaming short x) (hf : ∀ a, Streaming short (f a)) :
    Streaming short (x >>= f) := by
  intro s b t h
  obtain ⟨a, s', hxs, hfs⟩ := run_bind_ok.mp h
  obtain ⟨u, rfl, hu, hucut⟩ := hx s a s' hxs
  obtain ⟨v, rfl, hv, hvcut⟩ := hf a s' b t hfs
  refine ⟨u ++ v, (append_assoc ..).symm, fun t' => ?_, fun p q heq hq => ?_⟩
  · rw [append_assoc]
    exact run_bind_ok.mpr ⟨a, v ++ t', hu _, hv t'⟩
  · rcases append_eq_append_iff.mp heq with ⟨r, rfl, rfl⟩ | ⟨r, rfl, rfl⟩
    · -- The cut is in the second part.
      obtain ⟨e, he, hcut⟩ := hvcut r q rfl hq
      refine ⟨e, he, ?_⟩
      rw [StateT.run_bind, hu r]
      exact hcut
    · by_cases hr : r = []
      · subst hr
        obtain ⟨e, he, hcut⟩ := hvcut [] v rfl hq
        refine ⟨e, he, ?_⟩
        have hrun := hu []
        rw [append_nil, append_nil] at hrun
        rw [StateT.run_bind, hrun]
        exact hcut
      · obtain ⟨e, he, hcut⟩ := hucut p r rfl hr
        refine ⟨e, he, ?_⟩
        rw [StateT.run_bind, hcut]
        rfl

theorem map {x : Reader ε α} {f : α → β} (hx : Streaming short x) : Streaming short (f <$> x) := by
  exact hx.bind fun a => pure (f a)

theorem number {width : ℕ} {e : ε} (he : short e) : Streaming short (number width e) := (take he).map

/-- **An exact stream cut short is short.** -/
theorem short_of_exact {P : α → Prop} {spell : α → List UInt8} (h : Streaming short reader)
    (hexact : Exact reader P spell) (ha : P a) {p q : List UInt8} (heq : spell a = p ++ q)
    (hq : q ≠ []) : ∃ e, short e ∧ reader.run p = .error e := by
  obtain ⟨u, hu, -, hcut⟩ := h (spell a) a [] ((hexact _ a []).mpr ⟨ha, (append_nil _).symm⟩)
  rw [append_nil] at hu
  exact hcut p q (hu ▸ heq) hq

end Streaming

namespace Exact

variable {reader : Reader ε α} {P : α → Prop} {spell : α → List UInt8}

/-- A reader of what is in bijection with what another reads. -/
theorem map (h : Exact reader P spell) {f : α → β} {g : β → α} (hfg : ∀ b, f (g b) = b)
    (hgf : ∀ a, P a → g (f a) = a) : Exact (f <$> reader) (fun b => P (g b)) fun b => spell (g b) := by
  intro s b t
  rw [run_map_ok]
  constructor
  · rintro ⟨a, ha, rfl⟩
    obtain ⟨hP, rfl⟩ := (h s a t).mp ha
    have hback := hgf a hP
    simp only [hback]
    exact ⟨hP, trivial⟩
  · rintro ⟨hP, rfl⟩
    exact ⟨g b, (h _ _ t).mpr ⟨hP, rfl⟩, hfg b⟩

theorem many (h : Exact reader P spell) : ∀ n : ℕ,
    Exact (reader.many n) (fun l => l.length = n ∧ ∀ a ∈ l, P a) fun l => l.flatMap spell
  | 0 => by
    intro s l t
    rw [Reader.many, run_pure_ok]
    constructor
    · rintro ⟨rfl, rfl⟩
      simp
    · rintro ⟨⟨hlen, -⟩, rfl⟩
      obtain rfl := length_eq_zero_iff.mp hlen
      exact ⟨rfl, rfl⟩
  | n + 1 => by
    intro s l t
    simp only [Reader.many, run_bind_ok, run_pure_ok, h _, h.many n _]
    constructor
    · rintro ⟨a, s', ⟨hP, rfl⟩, rest, s'', ⟨⟨rfl, hall⟩, rfl⟩, rfl, rfl⟩
      rw [forall_mem_cons, flatMap_cons, append_assoc]
      exact ⟨⟨rfl, hP, hall⟩, rfl⟩
    · rintro ⟨⟨hlen, hall⟩, rfl⟩
      cases l with
      | nil => simp at hlen
      | cons a rest =>
        rw [forall_mem_cons] at hall
        exact ⟨a, _, ⟨hall.1, by simp⟩, rest, t, ⟨⟨by simpa using hlen, hall.2⟩, rfl⟩, rfl, rfl⟩

/-- A value read after another. -/
theorem pair {second : Reader ε β} {Q : β → Prop} {spell' : β → List UInt8}
    (h : Exact reader P spell) (h' : Exact second Q spell') :
    Exact (do let a ← reader; let b ← second; pure (a, b)) (fun p => P p.1 ∧ Q p.2)
      fun p => spell p.1 ++ spell' p.2 := by
  intro s p t
  simp only [run_bind_ok, run_pure_ok, h _, h' _]
  constructor
  · rintro ⟨a, s', ⟨hP, rfl⟩, b, s'', ⟨hQ, rfl⟩, rfl, rfl⟩
    exact ⟨⟨hP, hQ⟩, (append_assoc ..).symm⟩
  · rintro ⟨⟨hP, hQ⟩, rfl⟩
    exact ⟨p.1, _, ⟨hP, append_assoc ..⟩, p.2, t, ⟨hQ, rfl⟩, rfl, rfl⟩

/-- **Read to the end** are just the lists of spellings, none of them empty. -/
theorem toEnd (h : Exact reader P spell) (hspell : ∀ a, P a → spell a ≠ []) {spent : ε} :
    ∀ {fuel : ℕ} {s : List UInt8} {l : List α}, s.length ≤ fuel →
      (Reader.toEnd reader spent fuel s = .ok l ↔ (∀ a ∈ l, P a) ∧ s = l.flatMap spell)
  | fuel, [], l, _ => by
    have hread : Reader.toEnd reader spent fuel [] = .ok [] := by cases fuel <;> rfl
    rw [hread, Except.ok.injEq]
    constructor
    · rintro rfl
      simp
    · rintro ⟨hall, heq⟩
      cases l with
      | nil => rfl
      | cons a l =>
        rw [flatMap_cons, eq_comm, append_eq_nil_iff] at heq
        exact absurd heq.1 (hspell a (hall a mem_cons_self))
  | fuel + 1, c :: s, l, hlen => by
    simp only [Reader.toEnd, bind_eq_ok, pure_eq_ok, Prod.exists, h _]
    have hshort {a : α} {t : List UInt8} (hP : P a) (heq : c :: s = spell a ++ t) :
        t.length ≤ fuel := by
      have hlens := congrArg List.length heq
      have := length_pos_of_ne_nil (hspell a hP)
      rw [length_append] at hlens
      omega
    constructor
    · rintro ⟨a, t, ⟨hP, heq⟩, others, hrest, rfl⟩
      obtain ⟨hall, rfl⟩ := (toEnd h hspell (hshort hP heq)).mp hrest
      exact ⟨forall_mem_cons.mpr ⟨hP, hall⟩, heq⟩
    · rintro ⟨hall, heq⟩
      cases l with
      | nil => simp at heq
      | cons a l =>
        rw [forall_mem_cons] at hall
        exact ⟨a, _, ⟨hall.1, heq⟩, l, (toEnd h hspell (hshort hall.1 heq)).mpr ⟨hall.2, rfl⟩, rfl⟩

/-- **No spelling begins another**: equal texts name one value and leave one rest. -/
theorem append_inj (h : Exact reader P spell) {b : α} (ha : P a) (hb : P b)
    (heq : spell a ++ s = spell b ++ t) : a = b ∧ s = t := by
  have hread := (h (spell a ++ s) a s).mpr ⟨ha, rfl⟩
  rw [(h (spell a ++ s) b t).mpr ⟨hb, heq⟩] at hread
  obtain ⟨rfl, rfl⟩ := Prod.mk.inj (Except.ok.inj hread)
  exact ⟨rfl, rfl⟩

end Exact

end Reader

end Oneiron
