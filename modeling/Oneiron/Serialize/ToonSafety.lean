import Oneiron.Serialize.ToonTables

/-!
# Serialize/ToonSafety — the TOON writer is unambiguous

    key:          a line indented less than an object's ends it
      inner: 1
    next: 2

A list counts its items, an object does not: what ends it is a line indented less (`Below`).  Every
layout then is read off the front of its text, one case for each (`entries_append_inj`).
-/

namespace Oneiron

open List

/-- Over, or going on with a line indented less. -/
def Below (indent : ℕ) (rest : Text) : Prop :=
  rest = [] ∨ ∃ k c tail, k < indent ∧ c ≠ ' ' ∧ rest = '\n' :: (writeIndent k ++ c :: tail)

namespace Below

variable {indent indent' : ℕ} {rest : Text}

theorem mono (h : Below indent rest) (hle : indent ≤ indent') : Below indent' rest :=
  h.imp_right fun ⟨k, c, tail, hk, hc, heq⟩ => ⟨k, c, tail, Nat.lt_of_lt_of_le hk hle, hc, heq⟩

theorem endsLine (h : Below indent rest) : EndsLine rest := by
  rcases h with rfl | ⟨k, c, tail, -, -, rfl⟩
  · exact .nil
  · exact endsLine_newline _

/-- The depth of a line is read off it. -/
theorem indent_inj {k k' : ℕ} {c c' : Char} {tail tail' : Text} (hc : c ≠ ' ') (hc' : c' ≠ ' ')
    (h : writeIndent k ++ c :: tail = writeIndent k' ++ c' :: tail') : k = k' := by
  have hspaces (k : ℕ) : ∀ d ∈ writeIndent k, (decide (d ≠ ' ')) = false := by
    intro d hd
    simp [eq_of_mem_replicate hd]
  obtain ⟨hk, -⟩ := token_append_inj (hspaces k) (hspaces k') (.cons (decide_eq_true hc))
    (.cons (decide_eq_true hc')) h
  simpa [writeIndent] using congrArg List.length hk

/-- A line indented as deep is not below. -/
theorem ne_line (h : Below indent rest) {c : Char} (hc : c ≠ ' ') {k : ℕ} (hle : indent ≤ k)
    {tail : Text} : rest ≠ '\n' :: (writeIndent k ++ c :: tail) := by
  rcases h with rfl | ⟨k', c', tail', hlt, hc', rfl⟩
  · exact nofun
  · intro heq
    have := indent_inj hc' hc (cons.inj heq).2
    omega

theorem of_line {c : Char} (hc : c ≠ ' ') {k : ℕ} (hlt : k < indent) (tail : Text) :
    Below indent ('\n' :: (writeIndent k ++ c :: tail)) := .inr ⟨k, c, tail, hlt, hc, rfl⟩

end Below

variable {classes : CharClasses}

variable (classes) in
/-- Fields start with their first key. -/
theorem entries_head (depth : ℕ) {fields : Object} (h : fields ≠ []) (rest : Text) :
    ∃ c tail, entries classes depth fields ++ rest = c :: tail ∧ c ≠ ' ' ∧ c ≠ '[' := by
  cases fields with
  | nil => exact absurd rfl h
  | cons field fields =>
    obtain ⟨c, key, hkey, hspace, -, hbracket⟩ := writeToonKey_head classes field.1
    rw [entries, hkey]
    exact ⟨c, _, rfl, hspace, hbracket⟩

variable (classes) in
theorem body_head (depth : ℕ) (values : List Value) (text : Text) :
    ∃ tail, body classes depth values text = '[' :: tail := by
  rw [body]
  split
  · exact ⟨_, rfl⟩
  · split
    · rw [writeToonTable]
      split <;> exact ⟨_, rfl⟩
    · split <;> exact ⟨_, rfl⟩

variable {depth : ℕ} {value value' : Value} {nested object : Object} {values : List Value}
  {rest rest' : Text}

theorem contents_primitive (h : isToonPrimitive value = true) (depth : ℕ) :
    contents classes depth value = ':' :: ' ' :: writeToonPrimitive classes value := by
  cases value with
  | array values | object fields => exact absurd h Bool.false_ne_true
  | _ => rfl

theorem contents_object (h : nested ≠ []) (depth : ℕ) : contents classes depth (.object nested) =
      ':' :: '\n' :: (writeIndent ((depth + 1) * 2) ++ entries classes (depth + 1) nested) := by
  rw [contents, if_neg (by simpa using h)]

theorem item_object (h : object ≠ []) (depth : ℕ) :
    item classes depth (.object object) = ' ' :: entries classes (depth + 2) object := by
  rw [item, if_neg (by simpa using h)]

theorem item_primitive (h : isToonPrimitive value = true) (depth : ℕ) :
    item classes depth value = ' ' :: writeToonPrimitive classes value := by
  cases value with
  | array values | object fields => exact absurd h Bool.false_ne_true
  | _ => rfl

/-- What comes after a key does not go on with it, and is no end of a line. -/
theorem contents_head (depth : ℕ) (value : Value) (rest : Text) :
    Stops breaks (contents classes depth value ++ rest) ∧
      ¬ EndsLine (contents classes depth value ++ rest) := by
  cases value with
  | array values =>
    obtain ⟨tail, hbody⟩ := body_head classes depth values (items classes depth values)
    rw [contents, hbody]
    exact ⟨.cons (by decide), fun h => absurd h.head (by decide)⟩
  | _ => exact ⟨.cons (by decide), fun h => absurd h.head (by decide)⟩

/-- A primitive under a key is no other layout. -/
theorem contents_primitive_append_inj (h : isToonPrimitive value = true) (hrest : EndsLine rest)
    (hrest' : EndsLine rest')
    (heq : contents classes depth value ++ rest = contents classes depth value' ++ rest') :
    value = value' ∧ rest = rest' := by
  rw [contents_primitive h] at heq
  by_cases h' : isToonPrimitive value' = true
  case pos =>
    rw [contents_primitive h'] at heq
    exact writeToonPrimitive_append_inj h h' hrest.breaks hrest'.breaks
      (cons.inj (cons.inj heq).2).2
  case neg =>
    cases value' with
    | array values =>
      obtain ⟨tail, hbody⟩ := body_head classes depth values
        (items classes depth values)
      rw [contents, hbody] at heq
      exact absurd (cons.inj heq).1 (by decide)
    | object fields =>
      have hafter := (cons.inj heq).2
      split at hafter
      · change ' ' :: _ = rest' at hafter
        rw [← hafter] at hrest'
        exact absurd hrest'.head (by decide)
      · exact absurd (cons.inj hafter).1 (by decide)
    | _ => exact absurd rfl h'

/-- A primitive after a dash is no other layout. -/
theorem item_primitive_append_inj (h : isToonPrimitive value = true) (hrest : EndsLine rest)
    (hrest' : EndsLine rest')
    (heq : item classes depth value ++ rest = item classes depth value' ++ rest') :
    value = value' ∧ rest = rest' := by
  rw [item_primitive h] at heq
  by_cases h' : isToonPrimitive value' = true
  case pos =>
    rw [item_primitive h'] at heq
    exact writeToonPrimitive_append_inj h h' hrest.breaks hrest'.breaks (cons.inj heq).2
  case neg =>
    cases value' with
    | array values =>
      obtain ⟨tail, hbody⟩ := body_head classes (depth + 1) values
        (items classes (depth + 1) values)
      rw [item, hbody] at heq
      exact ((scalar_writeToonPrimitive h).append_ne (cons.inj heq).2).elim
    | object fields =>
      rw [item] at heq
      split at heq
      · rw [nil_append] at heq
        rw [← heq] at hrest'
        exact absurd hrest'.head (by decide)
      case isFalse hne =>
        cases fields with
        | nil => exact absurd rfl hne
        | cons field fields =>
          rw [entries] at heq
          simp only [cons_append, append_assoc, List.cons.injEq, true_and] at heq
          obtain ⟨-, hrests⟩ := (scalar_writeToonPrimitive h).append_inj (scalar_writeToonKey _)
            hrest.breaks (contents_head _ _ _).1 heq
          exact absurd (hrests ▸ hrest) (contents_head _ _ _).2
    | _ => exact absurd rfl h'

theorem AllSame.refl : ∀ values : List Value, AllSame values values
  | [] => .nil
  | value :: rest => .cons (.refl value) (AllSame.refl rest)

theorem same_of_primitive (h : value = value' ∧ rest = rest') :
    Value.Same value value' ∧ rest = rest' :=
  ⟨h.1 ▸ .refl value, h.2⟩

theorem same_of_primitive' (h : value' = value ∧ rest' = rest) :
    Value.Same value value' ∧ rest = rest' :=
  same_of_primitive ⟨h.1.symm, h.2.symm⟩

theorem below_afterField {depth : ℕ} {fields : Object} {rest : Text} (h : Below (depth * 2) rest) :
    Below (depth * 2 + 1) ((if fields.isEmpty then [] else '\n' :: writeIndent (depth * 2)) ++
      (entries classes depth fields ++ rest)) := by
  by_cases hempty : fields = []
  · subst hempty
    exact h.mono (Nat.le_succ _)
  · obtain ⟨c, tail, heq, hc, -⟩ := entries_head classes depth hempty rest
    rw [if_neg (by simpa using hempty), heq]
    exact .of_line hc (Nat.lt_succ_self _) tail

/-- Where an object ends, no field follows. -/
theorem afterField_ne {fields : Object} (h : Below (depth * 2) rest) (hne : fields ≠ []) :
    rest ≠ (if fields.isEmpty then [] else '\n' :: writeIndent (depth * 2)) ++
      (entries classes depth fields ++ rest') := by
  obtain ⟨c, tail, heq, hc, -⟩ := entries_head classes depth hne rest'
  rw [if_neg (by simpa using hne), heq]
  exact h.ne_line hc (Nat.le_refl _)

/-- An empty object is followed by nothing deeper. -/
theorem nested_ne (h : Below (depth * 2 + 1) rest) (hne : nested ≠ []) :
    rest ≠ ('\n' :: (writeIndent ((depth + 1) * 2) ++ entries classes (depth + 1) nested)) ++ rest' := by
  obtain ⟨c, tail, heq, hc, -⟩ := entries_head classes (depth + 1) hne rest'
  rw [cons_append, append_assoc, heq]
  exact h.ne_line hc (by omega)

theorem below_afterItem (h : Below ((depth + 1) * 2 + 1) rest) : Below ((depth + 1) * 2 + 1)
      ((if values.isEmpty then [] else ['\n']) ++ (items classes depth values ++ rest)) := by
  cases values with
  | nil => exact h
  | cons value values =>
    simp only [items, append_assoc, cons_append]
    exact .of_line (c := '-') (by decide) (Nat.lt_succ_self _) _

/-- An item that is an object is no item that is an array. -/
theorem item_array_ne (hrest' : EndsLine rest') : item classes depth (.array values) ++ rest ≠
      item classes depth (.object object) ++ rest' := by
  obtain ⟨tail, hbody⟩ := body_head classes (depth + 1) values (items classes (depth + 1) values)
  rw [item, hbody]
  by_cases hempty : object = []
  · subst hempty
    intro heq
    change ' ' :: _ = rest' at heq
    rw [← heq] at hrest'
    exact absurd hrest'.head (by decide)
  · obtain ⟨c, tail', heq, -, hc⟩ := entries_head classes (depth + 2) hempty
      rest'
    rw [item_object hempty]
    change _ ≠ ' ' :: (entries classes (depth + 2) object ++ rest')
    rw [heq]
    exact fun h => hc (cons.inj (cons.inj h).2).1.symm

variable (classes) in
/-- An array starts with a header of its count, with fields where it is a table. -/
theorem body_header (depth : ℕ) (values : List Value) (text : Text) :
    ∃ fields keyed tail, body classes depth values text =
      writeToonTableHeader classes values.length fields keyed ++ tail ∧
        fields.isSome = (toonTabularFields values).isSome := by
  rw [body]
  split
  case isTrue hempty =>
    obtain rfl := List.isEmpty_iff.mp hempty
    exact ⟨none, false, [], (append_nil _).symm, rfl⟩
  case isFalse =>
    cases toonTabularFields values with
    | some fields =>
      dsimp only
      rw [writeToonTable]
      split
      · exact ⟨_, _, _, rfl, rfl⟩
      · exact ⟨_, _, _, rfl, rfl⟩
    | none =>
      dsimp only
      split
      · exact ⟨_, _, _, rfl, rfl⟩
      · exact ⟨_, _, _, rfl, rfl⟩

/-- A list that is no table, its items on its line or on their own. -/
theorem body_of_not_table {text : Text} (hne : ¬ values.isEmpty = true)
    (htable : toonTabularFields values = none) :
    body classes depth values text = writeToonTableHeader classes values.length none false ++
      if values.all isToonPrimitive then ' ' :: writeToonPrimitives classes values
      else '\n' :: text := by
  rw [body, if_neg hne, htable]
  dsimp only
  split <;> rfl

/-- **An array is read off the front**, when its items are. -/
theorem body_append_inj {values' : List Value} {text text' : Text} (hwf : AllWellFormed values)
    (hwf' : AllWellFormed values') (hrest : EndsLine rest) (hrest' : EndsLine rest')
    (hitems : values.length = values'.length → text ++ rest = text' ++ rest' →
      AllSame values values' ∧ rest = rest')
    (h : body classes depth values text ++ rest = body classes depth values' text' ++ rest') :
    AllSame values values' ∧ rest = rest' := by
  obtain ⟨hlen, htables⟩ : values.length = values'.length ∧
      (toonTabularFields values).isSome = (toonTabularFields values').isSome := by
    obtain ⟨fields, keyed, tail, heq, hsome⟩ := body_header classes depth values text
    obtain ⟨fields', keyed', tail', heq', hsome'⟩ :=
      body_header classes depth values' text'
    rw [heq, heq', append_assoc, append_assoc] at h
    obtain ⟨hlen, rfl, -⟩ := writeToonTableHeader_append_inj h
    exact ⟨hlen, hsome.symm.trans hsome'⟩
  by_cases hempty : values.isEmpty = true
  · obtain rfl := List.isEmpty_iff.mp hempty
    obtain rfl := length_eq_zero_iff.mp hlen.symm
    exact ⟨.nil, append_cancel_left h⟩
  · have hempty' : ¬ values'.isEmpty = true := by
      rw [isEmpty_iff_length_eq_zero] at hempty ⊢
      rwa [← hlen]
    cases htable : toonTabularFields values with
    | some fields =>
      rw [htable, Option.isSome_some] at htables
      obtain ⟨fields', htable'⟩ := Option.isSome_iff_exists.mp htables.symm
      rw [body, body, if_neg hempty, if_neg hempty', htable, htable'] at h
      exact writeToonTable_append_inj hwf hwf' htable htable' hrest hrest' h
    | none =>
      rw [htable, Option.isSome_none] at htables
      have htable' := Option.isSome_eq_false_iff.mp htables.symm
      rw [body_of_not_table hempty htable, body_of_not_table hempty' (by simpa using htable'),
        append_assoc, append_assoc] at h
      have hafter := (writeToonTableHeader_append_inj h).2.2.2
      split at hafter
      case isTrue hall =>
        split at hafter
        case isTrue hall' =>
          rw [all_eq_true] at hall hall'
          obtain ⟨rfl, hrests⟩ := joined_append_inj (F := Stops breaks)
            (fun _ => .cons (by decide)) (fun _ _ _ _ => writeToonPrimitive_append_inj) hlen hall
            hall' hrest.breaks hrest'.breaks (cons.inj hafter).2
          exact ⟨.refl values, hrests⟩
        case isFalse => exact absurd (cons.inj hafter).1 (by decide)
      case isFalse =>
        split at hafter
        case isTrue => exact absurd (cons.inj hafter).1 (by decide)
        case isFalse => exact hitems hlen (cons.inj hafter).2

mutual

theorem entries_append_inj {depth : ℕ} {rest rest' : Text} : ∀ {fields fields' : Object},
    FieldsWellFormed fields → FieldsWellFormed fields' → fields ≠ [] → fields' ≠ [] →
    Below (depth * 2) rest → Below (depth * 2) rest' →
    entries classes depth fields ++ rest = entries classes depth fields' ++ rest' →
      FieldsSame fields fields' ∧ rest = rest'
  | [], _, _, _, hne, _, _, _, _ => absurd rfl hne
  | _, [], _, _, _, hne', _, _, _ => absurd rfl hne'
  | (key, value) :: fields, (key', value') :: fields', hwf, hwf', _, _, hrest, hrest', h => by
    rw [entries, entries] at h
    simp only [append_assoc] at h
    obtain ⟨rfl, hcontents⟩ := writeToonKey_append_inj (contents_head _ _ _).1
      (contents_head _ _ _).1 h
    obtain ⟨hsame, hrests⟩ := contents_append_inj hwf.1 hwf'.1 (below_afterField hrest)
      (below_afterField hrest') hcontents
    by_cases hlast : fields = []
    · subst hlast
      by_cases hlast' : fields' = []
      · subst hlast'
        exact ⟨.cons key hsame .nil, hrests⟩
      · exact (afterField_ne hrest hlast' hrests).elim
    · by_cases hlast' : fields' = []
      · subst hlast'
        exact (afterField_ne hrest' hlast hrests.symm).elim
      · simp only [List.isEmpty_iff, hlast, hlast', if_false, cons_append] at hrests
        obtain ⟨hall, hends⟩ := entries_append_inj hwf.2 hwf'.2 hlast hlast' hrest hrest'
          (append_cancel_left (cons.inj hrests).2)
        exact ⟨.cons key hsame hall, hends⟩

theorem contents_append_inj {depth : ℕ} {rest rest' : Text} : ∀ {value value' : Value},
    value.WellFormed → value'.WellFormed → Below (depth * 2 + 1) rest →
    Below (depth * 2 + 1) rest' →
    contents classes depth value ++ rest = contents classes depth value' ++ rest' →
      Value.Same value value' ∧ rest = rest'
  | .array values, .array values', hwf, hwf', hrest, hrest', h => by
    rw [contents, contents] at h
    obtain ⟨hsame, hrests⟩ := body_append_inj hwf hwf' hrest.endsLine hrest'.endsLine
      (fun hlen hitems => items_append_inj hlen hwf hwf' (hrest.mono (by omega))
        (hrest'.mono (by omega)) hitems) h
    exact ⟨.array hsame, hrests⟩
  | .object nested, .object nested', hwf, hwf', hrest, hrest', h => by
    by_cases hempty : nested = []
    · subst hempty
      by_cases hempty' : nested' = []
      · subst hempty'
        exact ⟨.refl _, (cons.inj h).2⟩
      · rw [contents_object hempty'] at h
        exact (nested_ne hrest hempty' (cons.inj h).2).elim
    · by_cases hempty' : nested' = []
      · subst hempty'
        rw [contents_object hempty] at h
        exact (nested_ne hrest' hempty (cons.inj h).2.symm).elim
      · rw [contents_object hempty, contents_object hempty'] at h
        simp only [cons_append, append_assoc, List.cons.injEq, true_and] at h
        obtain ⟨hsame, hrests⟩ := entries_append_inj hwf.2 hwf'.2 hempty hempty'
          (hrest.mono (by omega)) (hrest'.mono (by omega)) (append_cancel_left h)
        exact ⟨.object hsame (.refl _), hrests⟩
  | .array values, .object nested, _, _, _, _, h | .object nested, .array values, _, _, _, _, h =>
    by
    obtain ⟨tail, hbody⟩ := body_head classes depth values (items classes depth values)
    rw [contents, contents, hbody] at h
    exact absurd (cons.inj h).1 (by decide)
  | .null, _, _, _, hrest, hrest', h | .bool _, _, _, _, hrest, hrest', h
  | .number _, _, _, _, hrest, hrest', h | .string _, _, _, _, hrest, hrest', h => same_of_primitive
      (contents_primitive_append_inj rfl hrest.endsLine hrest'.endsLine h)
  | value, .null, _, _, hrest, hrest', h | value, .bool _, _, _, hrest, hrest', h
  | value, .number _, _, _, hrest, hrest', h | value, .string _, _, _, hrest, hrest', h =>
    same_of_primitive'
      (contents_primitive_append_inj rfl hrest'.endsLine hrest.endsLine h.symm)

theorem items_append_inj {depth : ℕ} {rest rest' : Text} : ∀ {values values' : List Value},
    values.length = values'.length → AllWellFormed values → AllWellFormed values' →
    Below ((depth + 1) * 2 + 1) rest → Below ((depth + 1) * 2 + 1) rest' →
    items classes depth values ++ rest = items classes depth values' ++ rest' →
      AllSame values values' ∧ rest = rest'
  | [], [], _, _, _, _, _, h => ⟨.nil, h⟩
  | value :: values, value' :: values', hlen, hwf, hwf', hrest, hrest', h => by
    have hlens : values.length = values'.length := by simpa using hlen
    rw [items, items] at h
    simp only [append_assoc, cons_append] at h
    obtain ⟨hsame, hrests⟩ := item_append_inj hwf.1 hwf'.1 (below_afterItem hrest)
      (below_afterItem hrest') (cons.inj (append_cancel_left h)).2
    have hempty : values.isEmpty = values'.isEmpty := by
      rw [Bool.eq_iff_iff, isEmpty_iff_length_eq_zero, isEmpty_iff_length_eq_zero, hlens]
    rw [hempty] at hrests
    obtain ⟨hall, hends⟩ := items_append_inj hlens hwf.2 hwf'.2 hrest hrest'
      (append_cancel_left hrests)
    exact ⟨.cons hsame hall, hends⟩

theorem item_append_inj {depth : ℕ} {rest rest' : Text} : ∀ {value value' : Value},
    value.WellFormed → value'.WellFormed → Below ((depth + 1) * 2 + 1) rest →
    Below ((depth + 1) * 2 + 1) rest' →
    item classes depth value ++ rest = item classes depth value' ++ rest' →
      Value.Same value value' ∧ rest = rest'
  | .array values, .array values', hwf, hwf', hrest, hrest', h => by
    rw [item, item] at h
    obtain ⟨hsame, hrests⟩ := body_append_inj hwf hwf' hrest.endsLine hrest'.endsLine
      (fun hlen hitems => items_append_inj hlen hwf hwf' (hrest.mono (by omega))
        (hrest'.mono (by omega)) hitems) (cons.inj h).2
    exact ⟨.array hsame, hrests⟩
  | .object object, .object object', hwf, hwf', hrest, hrest', h => by
    by_cases hempty : object = []
    · subst hempty
      by_cases hempty' : object' = []
      · subst hempty'
        exact ⟨.refl _, h⟩
      · rw [item_object hempty'] at h
        change rest = ' ' :: _ at h
        exact absurd (h ▸ hrest.endsLine).head (by decide)
    · by_cases hempty' : object' = []
      · subst hempty'
        rw [item_object hempty] at h
        change ' ' :: _ = rest' at h
        exact absurd (h.symm ▸ hrest'.endsLine).head (by decide)
      · rw [item_object hempty, item_object hempty'] at h
        obtain ⟨hsame, hrests⟩ := entries_append_inj hwf.2 hwf'.2 hempty hempty'
          (hrest.mono (by omega)) (hrest'.mono (by omega)) (cons.inj h).2
        exact ⟨.object hsame (.refl _), hrests⟩
  | .array values, .object object, _, _, _, hrest', h => (item_array_ne hrest'.endsLine h).elim
  | .object object, .array values, _, _, hrest, _, h => (item_array_ne hrest.endsLine h.symm).elim
  | .null, _, _, _, hrest, hrest', h | .bool _, _, _, _, hrest, hrest', h
  | .number _, _, _, _, hrest, hrest', h | .string _, _, _, _, hrest, hrest', h => same_of_primitive
      (item_primitive_append_inj rfl hrest.endsLine hrest'.endsLine h)
  | value, .null, _, _, hrest, hrest', h | value, .bool _, _, _, hrest, hrest', h
  | value, .number _, _, _, hrest, hrest', h | value, .string _, _, _, hrest, hrest', h =>
    same_of_primitive'
      (item_primitive_append_inj rfl hrest'.endsLine hrest.endsLine h.symm)

end

/-- **The TOON writer is unambiguous**: objects of one text are equal as JSON values. -/
theorem writeToonObject_inj (classes : CharClasses) (a b : ShallowObject)
    (h : writeToonObject classes a.fields 0 = writeToonObject classes b.fields 0) :
    Value.Same (.object a.fields) (.object b.fields) := by
  have hlayout (a : ShallowObject) : writeToonObject classes a.fields 0 =
      if a.fields.isEmpty then [] else entries classes 0 a.fields := by
    rw [writeToonObject, if_neg (by decide), writeToonFields_eq a.fits]
    rfl
  rw [hlayout, hlayout] at h
  have hne {fields : Object} (hfields : fields ≠ []) : entries classes 0 fields ≠ [] := by
    obtain ⟨c, tail, heq, -⟩ := entries_head classes 0 hfields []
    intro hnil
    rw [hnil] at heq
    exact absurd heq nofun
  by_cases ha : a.fields = []
  · by_cases hb : b.fields = []
    · rw [ha, hb]
      exact .refl _
    · rw [if_pos (by simpa using ha), if_neg (by simpa using hb)] at h
      exact absurd h.symm (hne hb)
  · by_cases hb : b.fields = []
    · rw [if_neg (by simpa using ha), if_pos (by simpa using hb)] at h
      exact absurd h (hne ha)
    · rw [if_neg (by simpa using ha), if_neg (by simpa using hb)] at h
      obtain ⟨hsame, -⟩ := entries_append_inj a.wellFormed.2 b.wellFormed.2 ha hb (.inl rfl) (.inl rfl)
        (congrArg (· ++ []) h)
      exact .object hsame (.refl _)

/-! ## An object twice -/

namespace ToonExample

/-- The classes of ASCII. -/
def asciiClasses : CharClasses where
  isAlphabetic := Char.isAlpha
  isAlphanumeric := Char.isAlphanum
  isWhitespace := Char.isWhitespace
  isAlphabetic_ascii _ _ := rfl
  isAlphanumeric_ascii _ _ := rfl

/-- A table of one row, whose id is 1. -/
def table (row : Object) : Object := [(['t'], .array [.object row])]

def idFirst : ShallowObject where
  fields := table [(['i', 'd'], .number 1), (['x'], .string ['a', ':'])]
  wellFormed := by simp [table, Value.WellFormed, FieldsWellFormed, AllWellFormed]
  fits := rfl

def idLast : ShallowObject where
  fields := table [(['x'], .string ['a', ':']), (['i', 'd'], .number 1)]
  wellFormed := by simp [table, Value.WellFormed, FieldsWellFormed, AllWellFormed]
  fits := rfl

end ToonExample

open ToonExample

/-- Two orders of one row's keys have one text, and are one value. -/
theorem writeToonObject_inj_table : Value.Same (.object idFirst.fields) (.object idLast.fields) :=
  writeToonObject_inj asciiClasses idFirst idLast (by decide)

end Oneiron
