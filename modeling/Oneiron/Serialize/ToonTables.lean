import Mathlib.Data.List.Perm.Subperm
import Oneiron.Serialize.Toon

/-!
# Serialize/ToonTables — keys, primitives, headers and tables, each read off its front

Keys and primitives are bare or quoted, and a bare one holds no character that breaks one off
(`Scalar.append_inj`).  A header counts what follows it, so a table is read row by row
(`writeToonTable_append_inj`).
-/

namespace Oneiron

open List CharClasses Nat

/-! ## Bare and quoted texts -/

/-- The characters that break a bare text off. -/
def breaks (c : Char) : Bool :=
  c = '[' || c = ']' || c = '{' || c = '}' || c = ':' || c = ',' || c = '"' || c = '\n'

/-- Unquoted: not empty, with nothing that breaks it off. -/
def Bare (text : Text) : Prop := text ≠ [] ∧ ∀ c ∈ text, breaks c = false

/-- Bare or quoted. -/
def Scalar (text : Text) : Prop := Bare text ∨ ∃ value, text = writeQuotedToonString value

variable {text key key' rest rest' : Text} {value value' : Value} {values : List Value}
  {fields entityFields fields' : List Text} {row row' : Object} {indent : ℕ} (n : ℤ)

theorem quotedChar_append_inj {c c' : Char} (h : quotedChar c ++ rest = quotedChar c' ++ rest') :
    c = c' ∧ rest = rest' := by
  rw [quotedChar.eq_def, quotedChar.eq_def] at h
  split at h <;> split at h <;> grind

theorem quotedChar_append_ne (c : Char) (rest rest' : Text) :
    quotedChar c ++ rest ≠ '"' :: rest' := by
  rw [quotedChar.eq_def]
  split <;> simp_all

/-- **A quoted text ends at its quote.** -/
theorem quoted_append_inj : ∀ {value value' : Text},
    writeQuotedToonString value ++ rest = writeQuotedToonString value' ++ rest' →
      value = value' ∧ rest = rest' := by
  have hread : ∀ {value value' : Text}, value.flatMap quotedChar ++ '"' :: rest =
      value'.flatMap quotedChar ++ '"' :: rest' → value = value' ∧ rest = rest' := by
    intro value
    induction value with
    | nil =>
      intro value' h
      cases value' with
      | nil => exact ⟨rfl, (cons.inj h).2⟩
      | cons c' value' =>
        rw [flatMap_cons, append_assoc] at h
        exact (quotedChar_append_ne _ _ _ h.symm).elim
    | cons c value ih =>
      intro value' h
      cases value' with
      | nil =>
        rw [flatMap_cons, append_assoc] at h
        exact (quotedChar_append_ne _ _ _ h).elim
      | cons c' value' =>
        simp only [flatMap_cons, append_assoc] at h
        obtain ⟨rfl, heq⟩ := quotedChar_append_inj h
        obtain ⟨rfl, hrests⟩ := ih heq
        exact ⟨rfl, hrests⟩
  intro value value' h
  simp only [writeQuotedToonString, cons_append, append_assoc, nil_append,
    cons.injEq, true_and] at h
  exact hread h

theorem Bare.append_ne_quoted {value : Text} (h : Bare text) :
    text ++ rest ≠ writeQuotedToonString value ++ rest' := by
  obtain ⟨hne, hplain⟩ := h
  cases text with
  | nil => exact absurd rfl hne
  | cons c text =>
    intro heq
    have hc := hplain c mem_cons_self
    rw [(cons.inj heq).1] at hc
    exact absurd hc (by decide)

/-- **A key or a primitive ends at what breaks it off**, or at its quote. -/
theorem Scalar.append_inj {text' : Text} (h : Scalar text) (h' : Scalar text')
    (hrest : Stops breaks rest) (hrest' : Stops breaks rest') (heq : text ++ rest = text' ++ rest')
    : text = text' ∧ rest = rest' := by
  rcases h with hbare | ⟨value, rfl⟩ <;> rcases h' with hbare' | ⟨value', rfl⟩
  · exact token_append_inj hbare.2 hbare'.2 hrest hrest' heq
  · exact absurd heq hbare.append_ne_quoted
  · exact absurd heq.symm hbare'.append_ne_quoted
  · obtain ⟨rfl, hrests⟩ := quoted_append_inj heq
    exact ⟨rfl, hrests⟩

theorem Scalar.append_ne (h : Scalar text) : text ++ rest ≠ '[' :: rest' := by
  rcases h with ⟨hne, hbare⟩ | ⟨value, rfl⟩
  · cases text with
    | nil => exact absurd rfl hne
    | cons c text =>
      intro heq
      have hc := hbare c mem_cons_self
      rw [(cons.inj heq).1] at hc
      exact absurd hc (by decide)
  · exact fun heq => absurd (cons.inj heq).1 (by decide)

variable {classes : CharClasses}

/-- The characters of an unquoted key break nothing off. -/
theorem plain_of_valid (h : classes.isValidUnquotedToonKey key = true) :
    Bare key ∧ ∀ c ∈ key, c ≠ ' ' := by
  have hplain {c : Char} (hc : classes.isAlphabetic c = true ∨ classes.isAlphanumeric c = true ∨
      c = '_' ∨ c = '.') : breaks c = false ∧ c ≠ ' ' := by
    have hascii {d : Char} (hd : d.toNat < 128) (halpha : d.isAlpha = false)
        (halphanum : d.isAlphanum = false) (hline : d ≠ '_') (hdot : d ≠ '.') : c ≠ d := by
      rintro rfl
      simp [classes.isAlphabetic_ascii c hd, classes.isAlphanumeric_ascii c hd, halpha, halphanum,
        hline, hdot] at hc
    refine ⟨?_, hascii (by decide) (by decide) (by decide) (by decide) (by decide)⟩
    simp only [breaks, Bool.or_eq_false_iff, decide_eq_false_iff_not]
    refine ⟨⟨⟨⟨⟨⟨⟨?_, ?_⟩, ?_⟩, ?_⟩, ?_⟩, ?_⟩, ?_⟩, ?_⟩ <;>
      exact hascii (by decide) (by decide) (by decide) (by decide) (by decide)
  cases key with
  | nil => exact absurd h Bool.false_ne_true
  | cons first rest =>
    simp only [isValidUnquotedToonKey, Bool.and_eq_true, Bool.or_eq_true,
      decide_eq_true_eq, all_eq_true] at h
    have hall : ∀ c ∈ first :: rest, breaks c = false ∧ c ≠ ' ' := by
      refine forall_mem_cons.mpr ⟨hplain ?_, fun c hc => hplain ?_⟩
      · exact h.1.imp_right fun hline => .inr (.inl hline)
      · exact .inr ((or_assoc.mp (h.2 c hc)))
    exact ⟨⟨nofun, fun c hc => (hall c hc).1⟩, fun c hc => (hall c hc).2⟩

theorem scalar_writeToonKey (key : Text) : Scalar (classes.writeToonKey key) := by
  rw [writeToonKey]
  split
  case isTrue hvalid => exact .inl (plain_of_valid hvalid).1
  case isFalse => exact .inr ⟨key, rfl⟩

variable (classes) in
/-- A key starts with no space, and as no header does. -/
theorem writeToonKey_head (key : Text) : ∃ c rest, classes.writeToonKey key = c :: rest ∧ c ≠ ' ' ∧
    c ≠ '}' ∧ c ≠ '[' := by
  rw [writeToonKey]
  split
  case isFalse => exact ⟨'"', _, rfl, by decide, by decide, by decide⟩
  case isTrue hvalid =>
    obtain ⟨⟨hne, hbare⟩, hspace⟩ := plain_of_valid hvalid
    cases key with
    | nil => exact absurd rfl hne
    | cons c rest =>
      rw [forall_mem_cons] at hbare hspace
      refine ⟨c, rest, rfl, hspace.1, ?_, ?_⟩ <;> rintro rfl <;> exact absurd hbare.1 (by decide)

/-- Texts quoted unless they are bare as they are. -/
theorem quotedIf_inj {p : Text → Prop} [DecidablePred p] (hbare : ∀ value, ¬ p value → Bare value)
    {value value' : Text} (h : (if p value then writeQuotedToonString value else value) =
      if p value' then writeQuotedToonString value' else value') : value = value' := by
  have hne {bare value : Text} (hbare : Bare bare) : bare ≠ writeQuotedToonString value := by
    intro heq
    have hends : bare ++ [] = writeQuotedToonString value ++ [] := congrArg (· ++ []) heq
    exact hbare.append_ne_quoted hends
  split at h <;> split at h
  case isTrue.isTrue => exact (quoted_append_inj (congrArg (· ++ []) h)).1
  case isTrue.isFalse hvalue' => exact absurd h.symm (hne (hbare _ hvalue'))
  case isFalse.isTrue hvalue _ => exact absurd h (hne (hbare _ hvalue))
  case isFalse.isFalse => exact h

theorem writeToonKey_inj (h : classes.writeToonKey key = classes.writeToonKey key') :
    key = key' := by
  have hbare (key : Text) (hkey : ¬ ¬ classes.isValidUnquotedToonKey key = true) : Bare key :=
    (plain_of_valid (not_not.mp hkey)).1
  refine quotedIf_inj hbare ?_
  rw [ite_not, ite_not]
  exact h

/-- **A key is read off the front** of what does not go on with it. -/
theorem writeToonKey_append_inj (hrest : Stops breaks rest) (hrest' : Stops breaks rest')
    (h : classes.writeToonKey key ++ rest = classes.writeToonKey key' ++ rest') :
    key = key' ∧ rest = rest' := by
  obtain ⟨hkey, hrests⟩ := (scalar_writeToonKey key).append_inj (scalar_writeToonKey key') hrest
    hrest' h
  exact ⟨writeToonKey_inj hkey, hrests⟩

/-! ## Primitives -/

theorem breaks_of_isDigit {c : Char} (h : c.isDigit = true) : breaks c = false := by
  have hne {d : Char} (hd : d.isDigit = false) : c ≠ d := by
    rintro rfl
    rw [hd] at h
    exact Bool.false_ne_true h
  simp only [breaks, Bool.or_eq_false_iff, decide_eq_false_iff_not]
  refine ⟨⟨⟨⟨⟨⟨⟨?_, ?_⟩, ?_⟩, ?_⟩, ?_⟩, ?_⟩, ?_⟩, ?_⟩ <;> exact hne (by decide)

/-- A numeral starts with a digit, or with a sign. -/
theorem formatToonNumber_eq : ∃ d rest, d.isDigit = true ∧ (∀ c ∈ rest, c.isDigit = true) ∧
    (formatToonNumber n = d :: rest ∨ formatToonNumber n = '-' :: d :: rest) := by
  have hdigits (k : ℕ) : ∃ d rest, toDigits 10 k = d :: rest ∧ d.isDigit = true ∧
      ∀ c ∈ rest, c.isDigit = true := by
    have hall : ∀ c ∈ toDigits 10 k, c.isDigit = true := fun c hc =>
      isDigit_of_mem_toDigits (by decide) (by decide) hc
    cases hk : toDigits 10 k with
    | nil => exact absurd hk toDigits_ne_nil
    | cons d rest =>
      rw [hk, forall_mem_cons] at hall
      exact ⟨d, rest, rfl, hall.1, hall.2⟩
  cases n with
  | ofNat k =>
    obtain ⟨d, rest, heq, hd, hrest⟩ := hdigits k
    exact ⟨d, rest, hd, hrest, .inl heq⟩
  | negSucc k =>
    obtain ⟨d, rest, heq, hd, hrest⟩ := hdigits (k + 1)
    exact ⟨d, rest, hd, hrest, .inr (congrArg ('-' :: ·) heq)⟩

theorem bare_formatToonNumber : Bare (formatToonNumber n) := by
  obtain ⟨d, rest, hd, hrest, heq | heq⟩ := formatToonNumber_eq n <;> rw [heq]
  all_goals
    refine ⟨nofun, fun c hc => ?_⟩
    simp only [mem_cons] at hc
  · rcases hc with rfl | hc
    · exact breaks_of_isDigit hd
    · exact breaks_of_isDigit (hrest c hc)
  · rcases hc with rfl | rfl | hc
    · decide
    · exact breaks_of_isDigit hd
    · exact breaks_of_isDigit (hrest c hc)

theorem formatToonNumber_inj {n n' : ℤ} (h : formatToonNumber n = formatToonNumber n') : n = n' := by
  have hback {k k' : ℕ} (heq : toDigits 10 k = toDigits 10 k') : k = k' := by
    rw [← ofDigitChars_ten_toDigits (n := k), heq, ofDigitChars_ten_toDigits]
  have hsign {k k' : ℕ} : toDigits 10 k ≠ '-' :: toDigits 10 k' := fun heq => by
    have hdigit := isDigit_of_mem_toDigits (b := 10) (n := k) (c := '-') (by decide) (by decide)
      (heq ▸ mem_cons_self)
    exact absurd hdigit (by decide)
  cases n with
  | ofNat k =>
    cases n' with
    | ofNat k' => exact congrArg Int.ofNat (hback h)
    | negSucc k' => exact absurd h hsign
  | negSucc k =>
    cases n' with
    | ofNat k' => exact absurd h.symm hsign
    | negSucc k' => exact congrArg Int.negSucc (succ.inj (hback (cons.inj h).2))

/-- **A string that reads as a number is quoted.** -/
theorem needsQuoted_formatToonNumber :
    classes.needsQuotedToonString (formatToonNumber n) = true := by
  obtain ⟨d, rest, hd, hrest, heq | heq⟩ := formatToonNumber_eq n <;> rw [heq]
  · by_cases hzero : d = '0' ∧ rest.head?.any Char.isDigit = true
    · obtain ⟨rfl, hnext⟩ := hzero
      cases rest with
      | nil => exact absurd hnext Bool.false_ne_true
      | cons c rest =>
        have hstarts : startsWithZeroDigit ('0' :: c :: rest) = true := hnext
        simp [needsQuotedToonString, hstarts]
    · have hlike : isNumericLikeToonString (d :: rest) = true := by
        rw [isNumericLikeToonString.eq_def]
        split
        case h_1 heq =>
          split at heq
          · rename_i htail
            obtain ⟨rfl, -⟩ := cons.inj htail
            exact absurd hd (by decide)
          · exact absurd heq nofun
        case h_2 first tail heq =>
          split at heq
          · rename_i htail
            obtain ⟨rfl, -⟩ := cons.inj htail
            exact absurd hd (by decide)
          · obtain ⟨rfl, rfl⟩ := cons.inj heq
            rw [if_pos hd, if_neg hzero, all_eq_true]
            exact fun c hc => by simp [hrest c hc]
      simp [needsQuotedToonString, hlike]
  · simp [needsQuotedToonString]

/-- What an unquoted string is not. -/
theorem unquoted_eq {value : Text} (h : ¬ classes.needsQuotedToonString value = true) :
    Bare value ∧ value ≠ ['n', 'u', 'l', 'l'] ∧ value ≠ ['t', 'r', 'u', 'e'] ∧
      value ≠ ['f', 'a', 'l', 's', 'e'] ∧ ∀ n, value ≠ formatToonNumber n := by
  have hnumber (n : ℤ) : value ≠ formatToonNumber n := by
    rintro rfl
    exact h (needsQuoted_formatToonNumber n)
  simp only [needsQuotedToonString, Bool.or_eq_true, not_or, decide_eq_true_eq,
    List.isEmpty_iff, List.any_eq_true, not_exists, not_and] at h
  obtain ⟨⟨⟨⟨⟨⟨⟨⟨⟨⟨hempty, hnull⟩, htrue⟩, hfalse⟩, -⟩, hstructural⟩, hpunctuation⟩, -⟩, -⟩, -⟩, -⟩ := h
  refine ⟨⟨hempty, fun c hc => ?_⟩, hnull, htrue, hfalse, hnumber⟩
  have hplain := hstructural c hc
  have hpunct := hpunctuation c hc
  simp only [isToonStructuralChar, Bool.or_eq_true, not_or, decide_eq_true_eq] at hplain
  simp only [breaks, Bool.or_eq_false_iff, decide_eq_false_iff_not]
  exact ⟨⟨⟨⟨⟨⟨⟨hplain.1.1.1.1.1, hplain.1.1.1.1.2⟩, hplain.1.1.1.2⟩, hplain.1.1.2⟩, hplain.1.2⟩,
    hpunct.1.1.1.1.1⟩, hpunct.1.1.1.2⟩, hpunct.1.1.2⟩

theorem scalar_writeToonString (value : Text) : Scalar (classes.writeToonString value) := by
  rw [writeToonString]
  split
  case isTrue => exact .inr ⟨value, rfl⟩
  case isFalse hvalue => exact .inl (unquoted_eq hvalue).1

theorem writeToonString_inj {value value' : Text}
    (h : classes.writeToonString value = classes.writeToonString value') : value = value' :=
  quotedIf_inj (fun _ hvalue => (unquoted_eq hvalue).1) h

/-- The word of a constant. -/
def IsWord (text : Text) : Prop :=
  text = ['n', 'u', 'l', 'l'] ∨ text = ['t', 'r', 'u', 'e'] ∨ text = ['f', 'a', 'l', 's', 'e']

theorem IsWord.bare (h : IsWord text) : Bare text := by
  rcases h with rfl | rfl | rfl <;> exact ⟨nofun, by simp [breaks]⟩

theorem isWord_bool (b : Bool) : IsWord (writeToonPrimitive classes (.bool b)) := by
  cases b
  · exact .inr (.inr rfl)
  · exact .inr (.inl rfl)

theorem formatToonNumber_ne_word : ¬ IsWord (formatToonNumber n) := by
  obtain ⟨d, rest, hd, -, heq | heq⟩ := formatToonNumber_eq n <;> rw [heq]
  · rintro (h | h | h) <;> rw [(cons.inj h).1] at hd <;> exact absurd hd (by decide)
  · rintro (h | h | h) <;> exact absurd (cons.inj h).1 (by decide)

/-- A string spells no other primitive. -/
theorem writeToonString_ne (value : Text) : ¬ IsWord (classes.writeToonString value) ∧
    ∀ n, classes.writeToonString value ≠ formatToonNumber n := by
  rw [writeToonString]
  split
  case isTrue =>
    refine ⟨?_, fun n heq => ?_⟩
    · rintro (h | h | h) <;> exact absurd (cons.inj h).1 (by decide)
    · have hends : formatToonNumber n ++ [] = writeQuotedToonString value ++ [] :=
        congrArg (· ++ []) heq.symm
      exact (bare_formatToonNumber n).append_ne_quoted hends
  case isFalse hvalue =>
    obtain ⟨-, hnull, htrue, hfalse, hnumber⟩ := unquoted_eq hvalue
    exact ⟨fun h => h.elim hnull fun h => h.elim htrue hfalse, hnumber⟩

theorem scalar_writeToonPrimitive (h : isToonPrimitive value = true) :
    Scalar (writeToonPrimitive classes value) := by
  cases value with
  | null => exact .inl (IsWord.bare (.inl rfl))
  | bool b => exact .inl (isWord_bool b).bare
  | number n => exact .inl (bare_formatToonNumber n)
  | string text => exact scalar_writeToonString text
  | array values | object fields => exact absurd h Bool.false_ne_true

/-- **A primitive is what its text says.** -/
theorem writeToonPrimitive_inj (h : isToonPrimitive value = true)
    (h' : isToonPrimitive value' = true)
    (heq : writeToonPrimitive classes value = writeToonPrimitive classes value') :
    value = value' := by
  cases value with
  | null =>
    cases value' with
    | null => rfl
    | bool b => cases b <;> exact absurd heq nofun
    | number n => exact (formatToonNumber_ne_word n (.inl heq.symm)).elim
    | string text => exact ((writeToonString_ne text).1 (.inl heq.symm)).elim
    | array values | object fields => exact absurd h' Bool.false_ne_true
  | bool b =>
    cases value' with
    | null => cases b <;> exact absurd heq nofun
    | bool b' => cases b <;> cases b' <;> first | rfl | exact absurd heq nofun
    | number n => exact (formatToonNumber_ne_word n (show IsWord (writeToonPrimitive classes (.number n)) from
        heq ▸ isWord_bool b)).elim
    | string text => exact ((writeToonString_ne text).1 (show IsWord (writeToonPrimitive classes (.string text)) from
        heq ▸ isWord_bool b)).elim
    | array values | object fields => exact absurd h' Bool.false_ne_true
  | number n =>
    cases value' with
    | null => exact (formatToonNumber_ne_word n (.inl heq)).elim
    | bool b => exact (formatToonNumber_ne_word n (show IsWord (writeToonPrimitive classes (.number n)) from
        heq ▸ isWord_bool b)).elim
    | number n' => exact congrArg Value.number (formatToonNumber_inj heq)
    | string text => exact ((writeToonString_ne text).2 n heq.symm).elim
    | array values | object fields => exact absurd h' Bool.false_ne_true
  | string text =>
    cases value' with
    | null => exact ((writeToonString_ne text).1 (.inl heq)).elim
    | bool b => exact ((writeToonString_ne text).1 (show IsWord (writeToonPrimitive classes (.string text)) from
        heq ▸ isWord_bool b)).elim
    | number n => exact ((writeToonString_ne text).2 n heq).elim
    | string text' => exact congrArg Value.string (writeToonString_inj heq)
    | array values | object fields => exact absurd h' Bool.false_ne_true
  | array values | object fields => exact absurd h Bool.false_ne_true

/-- **A primitive is read off the front** of what breaks it off. -/
theorem writeToonPrimitive_append_inj (h : isToonPrimitive value = true)
    (h' : isToonPrimitive value' = true) (hrest : Stops breaks rest) (hrest' : Stops breaks rest')
    (heq : writeToonPrimitive classes value ++ rest = writeToonPrimitive classes value' ++ rest') :
    value = value' ∧ rest = rest' := by
  obtain ⟨htext, hrests⟩ := (scalar_writeToonPrimitive h).append_inj (scalar_writeToonPrimitive h')
    hrest hrest' heq
  exact ⟨writeToonPrimitive_inj h h' htext, hrests⟩

/-! ## Headers and tables -/

/-- **A header is read off the front**: its count, its kind and its fields. -/
theorem writeToonTableHeader_append_inj {n n' : ℕ} {fields fields' : Option (List Text)}
    {keyed keyed' : Bool} (h : writeToonTableHeader classes n fields keyed ++ rest =
      writeToonTableHeader classes n' fields' keyed' ++ rest') :
    n = n' ∧ fields = fields' ∧ keyed = keyed' ∧ rest = rest' := by
  have hdigits (k : ℕ) : ∀ c ∈ toDigits 10 k, breaks c = false := fun c hc =>
    breaks_of_isDigit (isDigit_of_mem_toDigits (by decide) (by decide) hc)
  have hkind (keyed : Bool) (rest : Text) : Stops breaks
      ((if keyed then [':', ']'] else [']']) ++ rest) := by
    cases keyed <;> exact .cons (by decide)
  simp only [writeToonTableHeader, cons_append, append_assoc, cons.injEq, true_and,
    nil_append] at h
  obtain ⟨hn, hkinds⟩ := token_append_inj (hdigits n) (hdigits n') (hkind _ _) (hkind _ _) h
  have hcount : n = n' := by
    rw [← ofDigitChars_ten_toDigits (n := n), hn, ofDigitChars_ten_toDigits]
  have hkeyed : keyed = keyed' := by
    cases keyed <;> cases keyed' <;> first | rfl | exact absurd hkinds (by simp)
  subst hcount hkeyed
  have hfields := append_cancel_left hkinds
  refine ⟨rfl, ?_⟩
  cases fields with
  | none =>
    cases fields' with
    | none => exact ⟨rfl, rfl, (cons.inj hfields).2⟩
    | some fields' => exact absurd (cons.inj hfields).1 (by decide)
  | some fields =>
    cases fields' with
    | none => exact absurd (cons.inj hfields).1 (by decide)
    | some fields' =>
      simp only [Option.elim_some, cons_append, append_assoc, cons.injEq, true_and,
        nil_append, writeToonKeys] at hfields
      have hstart (key rest rest' : Text) : classes.writeToonKey key ++ rest ≠ '}' :: rest' := by
        obtain ⟨c, key', hkey, -, hne, -⟩ := writeToonKey_head classes key
        rw [hkey]
        exact fun heq => hne (cons.inj heq).1
      obtain ⟨rfl, hends⟩ := joined_append_inj_of_end (F := Stops breaks) (by decide)
        (fun _ => .cons (by decide)) (fun _ => .cons (by decide)) hstart
        (fun _ _ _ _ => writeToonKey_append_inj) hfields
      exact ⟨rfl, rfl, (cons.inj hends).2⟩

/-- A row of a table: its keys are the table's fields, each once, and its values primitives. -/
structure IsRow (fields : List Text) (row : Object) : Prop where
  nodup : (row.map Prod.fst).Nodup
  keys : ∀ key, key ∈ row.map Prod.fst ↔ key ∈ fields
  primitive : ∀ field ∈ row, isToonPrimitive field.2 = true

namespace IsRow

variable {fields : List Text} {row row' : Object} {key : Text} {value : Value}

theorem mem_iff (h : IsRow fields row) : (key, value) ∈ row ↔ row.lookup key = some value := by
  have hnodup := h.nodup
  clear h
  induction row with
  | nil => simp
  | cons field row ih =>
    obtain ⟨key', value'⟩ := field
    rw [map_cons, nodup_cons] at hnodup
    have hmem : (key, value) ∈ row ↔ row.lookup key = some value := ih hnodup.2
    rw [mem_cons, hmem, lookup_cons]
    by_cases hkey : key = key'
    · subst hkey
      have hnone : row.lookup key ≠ some value := fun hsome =>
        hnodup.1 (mem_map.mpr ⟨(key, value), hmem.mpr hsome, rfl⟩)
      simp [hnone, eq_comm]
    · simp [beq_false_of_ne hkey, hkey]

theorem lookup_eq (h : IsRow fields row) (hkey : key ∈ fields) :
    row.lookup key = some (fieldOf row key) := by
  obtain ⟨field, hmem, rfl⟩ := mem_map.mp ((h.keys key).mpr hkey)
  rw [fieldOf, h.mem_iff.mp hmem, Option.getD_some]

theorem primitive_fieldOf (h : IsRow fields row) (key : Text) :
    isToonPrimitive (fieldOf row key) = true := by
  rw [fieldOf]
  cases hvalue : row.lookup key with
  | none => rfl
  | some value => exact h.primitive (key, value) (h.mem_iff.mpr hvalue)

/-- **Rows of the same fields with the same values are one**, but for the order of their keys. -/
theorem perm (h : IsRow fields row) (h' : IsRow fields row')
    (hvalues : ∀ key ∈ fields, fieldOf row key = fieldOf row' key) : row.Perm row' := by
  refine (perm_ext_iff_of_nodup (.of_map _ h.nodup) (.of_map _ h'.nodup)).mpr fun field => ?_
  obtain ⟨key, value⟩ := field
  rw [h.mem_iff, h'.mem_iff]
  by_cases hkey : key ∈ fields
  · rw [h.lookup_eq hkey, h'.lookup_eq hkey, hvalues key hkey]
  · have hnone {row : Object} (h : IsRow fields row) : row.lookup key = none := by
      rw [lookup_eq_none_iff]
      intro field hfield
      simp only [bne_iff_ne, ne_eq]
      rintro rfl
      exact hkey ((h.keys _).mp (mem_map_of_mem hfield))
    rw [hnone h, hnone h']

end IsRow

theorem AllWellFormed.of_mem : ∀ {values : List Value}, AllWellFormed values →
    ∀ value ∈ values, value.WellFormed
  | [], _, _, h => absurd h not_mem_nil
  | value :: rest, h, other, hmem => by
    rcases mem_cons.mp hmem with rfl | hrest
    · exact h.1
    · exact AllWellFormed.of_mem h.2 other hrest

/-- **The values of a table are its rows.** -/
theorem toonTabularFields_eq (h : toonTabularFields values = some fields)
    (hwf : AllWellFormed values) :
    ∀ value ∈ values, ∃ row, value = .object row ∧ IsRow fields row := by
  cases values with
  | nil => cases h
  | cons value rest =>
    cases value with
    | object first =>
      rw [toonTabularFields] at h
      split at h
      · cases h
      · split at h
        · cases h
        case isFalse hfirst =>
          split at h
          case isFalse => cases h
          case isTrue hrest =>
            obtain rfl := Option.some.inj h
            have hnodup : (first.map Prod.fst).Nodup := hwf.1.1
            refine forall_mem_cons.mpr ⟨⟨first, rfl, hnodup, fun _ => .rfl, ?_⟩, ?_⟩
            · simpa using hfirst
            · intro other hmem
              have hrow := all_eq_true.mp hrest other hmem
              have hother := hwf.2.of_mem other hmem
              cases other with
              | object row =>
                simp only [Bool.and_eq_true, decide_eq_true_eq, all_eq_true,
                  lookup_isSome_iff, beq_iff_eq] at hrow
                obtain ⟨⟨hlen, hkeys⟩, hprimitive⟩ := hrow
                have hsubset : first.map Prod.fst ⊆ row.map Prod.fst := by
                  intro key hkey
                  obtain ⟨field, hfield, rfl⟩ := mem_map.mp hkey
                  obtain ⟨found, hfound, heq⟩ := hkeys field hfield
                  exact heq ▸ mem_map_of_mem hfound
                have hperm := (subperm_of_subset hnodup hsubset).perm_of_length_le (by simp [hlen])
                exact ⟨row, rfl, hother.1, fun key => hperm.mem_iff.symm, hprimitive⟩
              | _ => exact absurd hrow Bool.false_ne_true
    | _ => cases h

/-! ### Rows -/

theorem FieldsSame.refl : ∀ fields : Object, FieldsSame fields fields
  | [] => .nil
  | (key, value) :: rest => .cons key (.refl value) (FieldsSame.refl rest)

/-- A line ends at its newline. -/
def EndsLine (rest : Text) : Prop := Stops (fun c => decide (c = '\n')) rest

theorem EndsLine.breaks (h : EndsLine rest) : Stops breaks rest := by
  refine h.mono fun c hc => ?_
  rw [of_decide_eq_true hc]
  decide

theorem endsLine_newline (rest : Text) : EndsLine ('\n' :: rest) := .cons (by decide)

/-- **As many rows are read line by line.** -/
theorem writeToonRows_append_inj {row : Object → Text} {P : Object → Prop}
    (hread : ∀ a b rest rest', P a → P b → EndsLine rest → EndsLine rest' →
      row a ++ rest = row b ++ rest' → a.Perm b ∧ rest = rest') :
    ∀ {values values' : List Value} {rest rest' : Text}, values.length = values'.length →
      (∀ value ∈ values, ∃ a, value = .object a ∧ P a) →
      (∀ value ∈ values', ∃ a, value = .object a ∧ P a) → EndsLine rest → EndsLine rest' →
      writeToonRows row values ++ rest = writeToonRows row values' ++ rest' →
        AllSame values values' ∧ rest = rest'
  | [], [], _, _, _, _, _, _, _, h => ⟨.nil, h⟩
  | value :: values, value' :: values', rest, rest', hlen, hrows, hrows', hrest, hrest', h => by
    rw [forall_mem_cons] at hrows hrows'
    obtain ⟨⟨a, rfl, ha⟩, htail⟩ := hrows
    obtain ⟨⟨b, rfl, hb⟩, htail'⟩ := hrows'
    have hlens : values.length = values'.length := by simpa using hlen
    have hsame (hperm : a.Perm b) : Value.Same (.object a) (.object b) :=
      .object (FieldsSame.refl a) hperm
    simp only [writeToonRows, append_assoc] at h
    cases values with
    | nil =>
      obtain rfl := length_eq_zero_iff.mp hlens.symm
      obtain ⟨hperm, hrests⟩ := hread a b _ _ ha hb hrest hrest' h
      exact ⟨.cons (hsame hperm) .nil, hrests⟩
    | cons next values =>
      cases values' with
      | nil => exact absurd hlens nofun
      | cons next' values' =>
        obtain ⟨hperm, hrests⟩ := hread a b _ _ ha hb (endsLine_newline _) (endsLine_newline _) h
        obtain ⟨hall, hrests⟩ := writeToonRows_append_inj hread hlens htail htail' hrest hrest'
          (cons.inj hrests).2
        exact ⟨.cons (hsame hperm) hall, hrests⟩

/-- The values of a row's line tell its values under the fields. -/
theorem writeToonPrimitives_append_inj {listed : List Text} (h : IsRow fields row)
    (h' : IsRow fields' row') (hrest : EndsLine rest) (hrest' : EndsLine rest')
    (heq : writeToonPrimitives classes (listed.map (fieldOf row)) ++ rest =
      writeToonPrimitives classes (listed.map (fieldOf row')) ++ rest') :
    (∀ key ∈ listed, fieldOf row key = fieldOf row' key) ∧ rest = rest' := by
  have hprimitive {fields : List Text} {row : Object} (h : IsRow fields row) :
      ∀ value ∈ listed.map (fieldOf row), isToonPrimitive value = true := by
    intro value hvalue
    obtain ⟨key, -, rfl⟩ := mem_map.mp hvalue
    exact h.primitive_fieldOf key
  obtain ⟨hvalues, hrests⟩ := joined_append_inj (F := Stops breaks) (fun _ => .cons (by decide))
    (fun _ _ _ _ => writeToonPrimitive_append_inj) (by simp) (hprimitive h) (hprimitive h')
    hrest.breaks hrest'.breaks heq
  exact ⟨map_inj_left.mp hvalues, hrests⟩

/-- A row's line tells the row. -/
theorem writeToonRow_append_inj (h : IsRow fields row) (h' : IsRow fields row')
    (hrest : EndsLine rest) (hrest' : EndsLine rest')
    (heq : writeToonRow classes row fields indent ++ rest =
      writeToonRow classes row' fields indent ++ rest') : row.Perm row' ∧ rest = rest' := by
  rw [writeToonRow, writeToonRow, append_assoc, append_assoc] at heq
  obtain ⟨hvalues, hrests⟩ := writeToonPrimitives_append_inj h h' hrest hrest'
    (append_cancel_left heq)
  exact ⟨h.perm h' hvalues, hrests⟩

theorem mem_toonEntityFields (h : toonEntityFields fields = some entityFields) (key : Text) :
    key ∈ fields ↔ key = ['i', 'd'] ∨ key ∈ entityFields := by
  rw [toonEntityFields] at h
  split at h
  case isFalse => exact absurd h nofun
  case isTrue hid =>
    obtain rfl := Option.some.inj h
    by_cases hkey : key = ['i', 'd']
    · simp [hkey, hid]
    · simp [hkey]

/-- A keyed row's line tells the row, its id first. -/
theorem writeToonKeyedRow_append_inj (hid : toonEntityFields fields = some entityFields)
    (h : IsRow fields row) (h' : IsRow fields row') (hrest : EndsLine rest)
    (hrest' : EndsLine rest') (heq : writeToonKeyedRow classes row entityFields indent ++ rest =
      writeToonKeyedRow classes row' entityFields indent ++ rest') :
    row.Perm row' ∧ rest = rest' := by
  simp only [writeToonKeyedRow, append_assoc] at heq
  obtain ⟨hids, hends⟩ := writeToonPrimitive_append_inj (h.primitive_fieldOf _)
    (h'.primitive_fieldOf _) (.cons (by decide)) (.cons (by decide)) (append_cancel_left heq)
  have hvalues := (cons.inj hends).2
  have hall (hlisted : ∀ key ∈ entityFields, fieldOf row key = fieldOf row' key) :
      ∀ key ∈ fields, fieldOf row key = fieldOf row' key := by
    intro key hkey
    rcases (mem_toonEntityFields hid key).mp hkey with rfl | hlist
    · exact hids
    · exact hlisted key hlist
  split at hvalues
  case isTrue hempty =>
    rw [List.isEmpty_iff] at hempty
    exact ⟨h.perm h' (hall fun key hkey => by simp [hempty] at hkey), hvalues⟩
  case isFalse =>
    obtain ⟨hlisted, hrests⟩ := writeToonPrimitives_append_inj h h' hrest hrest'
      (cons.inj hvalues).2
    exact ⟨h.perm h' (hall hlisted), hrests⟩

theorem IsRow.congr (h : IsRow fields row) (hsame : ∀ key, key ∈ fields ↔ key ∈ fields') :
    IsRow fields' row :=
  ⟨h.nodup, fun key => (h.keys key).trans (hsame key), h.primitive⟩

/-- **A table is read off the front**, its rows but for the order of their keys. -/
theorem writeToonTable_append_inj {values' : List Value} (hwf : AllWellFormed values)
    (hwf' : AllWellFormed values') (hfields : toonTabularFields values = some fields)
    (hfields' : toonTabularFields values' = some fields') (hrest : EndsLine rest)
    (hrest' : EndsLine rest') (h : writeToonTable classes values fields indent ++ rest =
      writeToonTable classes values' fields' indent ++ rest') :
    AllSame values values' ∧ rest = rest' := by
  have hrows := toonTabularFields_eq hfields hwf
  have hrows' := toonTabularFields_eq hfields' hwf'
  rw [writeToonTable, writeToonTable] at h
  cases hid : toonEntityFields fields with
  | none =>
    cases hid' : toonEntityFields fields' with
    | none =>
      simp only [hid, hid', append_assoc, cons_append] at h
      obtain ⟨hlen, hheads, -, hlines⟩ := writeToonTableHeader_append_inj h
      obtain rfl := Option.some.inj hheads
      exact writeToonRows_append_inj (fun _ _ _ _ => writeToonRow_append_inj) hlen hrows hrows'
        hrest hrest' (cons.inj hlines).2
    | some entityFields' =>
      simp only [hid, hid', append_assoc, cons_append] at h
      exact absurd (writeToonTableHeader_append_inj h).2.2.1 nofun
  | some entityFields =>
    cases hid' : toonEntityFields fields' with
    | none =>
      simp only [hid, hid', append_assoc, cons_append] at h
      exact absurd (writeToonTableHeader_append_inj h).2.2.1 nofun
    | some entityFields' =>
      simp only [hid, hid', append_assoc, cons_append] at h
      obtain ⟨hlen, hheads, -, hlines⟩ := writeToonTableHeader_append_inj h
      obtain rfl := Option.some.inj hheads
      have hsame (key : Text) : key ∈ fields' ↔ key ∈ fields :=
        (mem_toonEntityFields hid' key).trans (mem_toonEntityFields hid key).symm
      refine writeToonRows_append_inj (fun _ _ _ _ => writeToonKeyedRow_append_inj hid) hlen hrows
        (fun value hvalue => ?_) hrest hrest' (cons.inj hlines).2
      obtain ⟨row, heq, hrow⟩ := hrows' value hvalue
      exact ⟨row, heq, hrow.congr hsame⟩

end Oneiron
