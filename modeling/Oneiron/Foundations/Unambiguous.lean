import Mathlib.Data.List.Nodup

/-!
# Foundations/Unambiguous — spellings no two of which begin alike

    spell a ++ rest = spell b ++ rest'  ⟹  a = b, rest = rest'

A spelling is read off the front of a text when what may follow tells where it stops: after a token a
character no token holds (`token_append_inj`), after a list of a known length what follows each item
(`joined_append_inj`), after one of an unknown length an end no item starts with
(`joined_append_inj_of_end`).
-/

namespace Oneiron

open List

variable {α χ : Type}

/-- Over, or going on with a character of a class. -/
def Stops (p : χ → Bool) (rest : List χ) : Prop := ∀ c ∈ rest.head?, p c = true

/-- What each item spells, a separator between two. -/
def joined (sep : List χ) (spell : α → List χ) : List α → List χ
  | [] => []
  | [a] => spell a
  | a :: b :: l => spell a ++ sep ++ joined sep spell (b :: l)

namespace Stops

variable {p q : χ → Bool} {c : χ} {rest : List χ}

theorem nil : Stops p [] := nofun

theorem cons (h : p c = true) : Stops p (c :: rest) := by
  rintro d hd
  obtain rfl : c = d := by simpa using hd
  exact h

theorem head (h : Stops p (c :: rest)) : p c = true := h c rfl

theorem mono (h : Stops p rest) (hpq : ∀ c, p c = true → q c = true) : Stops q rest :=
  fun c hc => hpq c (h c hc)

end Stops

/-- **A token ends at the first character no token holds.** -/
theorem token_append_inj {p : χ → Bool} :
    ∀ {s s' rest rest' : List χ}, (∀ c ∈ s, p c = false) → (∀ c ∈ s', p c = false) →
      Stops p rest → Stops p rest' → s ++ rest = s' ++ rest' → s = s' ∧ rest = rest'
  | [], [], _, _, _, _, _, _, h => ⟨rfl, h⟩
  | [], c :: s', _, _, _, hs', hrest, _, h => by
    rw [nil_append, cons_append] at h
    have hstop := (h ▸ hrest).head
    rw [hs' c mem_cons_self] at hstop
    exact absurd hstop Bool.false_ne_true
  | c :: s, [], _, _, hs, _, _, hrest', h => by
    rw [nil_append, cons_append] at h
    have hstop := (h.symm ▸ hrest').head
    rw [hs c mem_cons_self] at hstop
    exact absurd hstop Bool.false_ne_true
  | c :: s, c' :: s', _, _, hs, hs', hrest, hrest', h => by
    obtain ⟨rfl, heq⟩ := cons.inj h
    rw [forall_mem_cons] at hs hs'
    obtain ⟨rfl, hrests⟩ := token_append_inj hs.2 hs'.2 hrest hrest' heq
    exact ⟨rfl, hrests⟩

section Joined

variable {sep : List χ} {spell : α → List χ} {F : List χ → Prop}

/-- **A list of a known length is read item by item.** -/
theorem joined_append_inj {P : α → Prop} (hsep : ∀ rest, F (sep ++ rest))
    (hread : ∀ a b rest rest', P a → P b → F rest → F rest' → spell a ++ rest = spell b ++ rest' →
      a = b ∧ rest = rest') :
    ∀ {l l' : List α} {rest rest' : List χ}, l.length = l'.length → (∀ a ∈ l, P a) →
      (∀ a ∈ l', P a) → F rest → F rest' →
      joined sep spell l ++ rest = joined sep spell l' ++ rest' → l = l' ∧ rest = rest'
  | [], [], _, _, _, _, _, _, _, h => ⟨rfl, h⟩
  | [a], [b], rest, rest', _, hl, hl', hrest, hrest', h => by
    obtain ⟨rfl, heq⟩ := hread a b rest rest' (hl a mem_cons_self) (hl' b mem_cons_self)
      hrest hrest' h
    exact ⟨rfl, heq⟩
  | a :: a' :: l, b :: b' :: l', rest, rest', hlen, hl, hl', hrest, hrest', h => by
    simp only [joined, append_assoc] at h
    rw [forall_mem_cons] at hl hl'
    obtain ⟨rfl, heq⟩ := hread a b _ _ hl.1 hl'.1 (hsep _) (hsep _) h
    have htail : (a' :: l).length = (b' :: l').length := Nat.succ.inj hlen
    obtain ⟨hall, hrests⟩ := joined_append_inj hsep hread htail hl.2 hl'.2 hrest hrest'
      (append_cancel_left heq)
    exact ⟨congrArg (a :: ·) hall, hrests⟩

/-- **A list of an unknown length is read up to an end** no item starts with. -/
theorem joined_append_inj_of_end {mark final : χ} (hne : mark ≠ final)
    (hmark : ∀ rest, F (mark :: rest)) (hfinal : ∀ rest, F (final :: rest))
    (hstart : ∀ a rest rest', spell a ++ rest ≠ final :: rest')
    (hread : ∀ a b rest rest', F rest → F rest' → spell a ++ rest = spell b ++ rest' →
      a = b ∧ rest = rest') :
    ∀ {l l' : List α} {rest rest' : List χ},
      joined [mark] spell l ++ final :: rest = joined [mark] spell l' ++ final :: rest' →
        l = l' ∧ rest = rest'
  | [], [], _, _, h => ⟨rfl, (cons.inj h).2⟩
  | [], [_], _, _, h => (hstart _ _ _ h.symm).elim
  | [], _ :: _ :: _, _, _, h => by
    simp only [joined, append_assoc] at h
    exact (hstart _ _ _ h.symm).elim
  | [_], [], _, _, h => (hstart _ _ _ h).elim
  | _ :: _ :: _, [], _, _, h => by
    simp only [joined, append_assoc] at h
    exact (hstart _ _ _ h).elim
  | [a], [b], _, _, h => by
    obtain ⟨rfl, heq⟩ := hread a b _ _ (hfinal _) (hfinal _) h
    exact ⟨rfl, (cons.inj heq).2⟩
  | [a], b :: b' :: l', _, _, h => by
    simp only [joined, append_assoc] at h
    obtain ⟨-, heq⟩ := hread a b _ _ (hfinal _) (hmark _) h
    exact absurd (cons.inj heq).1.symm hne
  | a :: a' :: l, [b], _, _, h => by
    simp only [joined, append_assoc] at h
    obtain ⟨-, heq⟩ := hread a b _ _ (hmark _) (hfinal _) h
    exact absurd (cons.inj heq).1 hne
  | a :: a' :: l, b :: b' :: l', _, _, h => by
    simp only [joined, append_assoc] at h
    obtain ⟨rfl, heq⟩ := hread a b _ _ (hmark _) (hmark _) h
    have htail : joined [mark] spell (a' :: l) ++ _ = joined [mark] spell (b' :: l') ++ _ :=
      (cons.inj heq).2
    obtain ⟨hall, hrests⟩ := joined_append_inj_of_end hne hmark hfinal hstart hread htail
    exact ⟨congrArg (a :: ·) hall, hrests⟩

end Joined

end Oneiron
