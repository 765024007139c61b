import Mathlib.Data.Int.Notation
import Oneiron.Foundations.Unambiguous

/-!
# Serialize/Toon — the TOON writer

    {"a": 1, "t": [{"id": 7, "n": "x"}], "l": [[], {"k": null}]}

    a: 1
    t[1:]{n}:
      7: x
    l[2]:
      - [0]:
      - k: null

Each layout is picked from the data; every nesting is two spaces deeper.
-/

namespace Oneiron

section Toon

abbrev Text := List Char

/-- A JSON value whose numbers are integers; an object's fields in the order they were put in. -/
inductive Value where
  | null
  | bool (value : Bool)
  | number (value : ℤ)
  | string (value : Text)
  | array (values : List Value)
  | object (fields : List (Text × Value))

/-- An object, a map of its keys. -/
abbrev Object := List (Text × Value)

/-- The classes of characters the writer asks of. -/
structure CharClasses where
  isAlphabetic : Char → Bool
  isAlphanumeric : Char → Bool
  isWhitespace : Char → Bool
  isAlphabetic_ascii : ∀ c : Char, c.toNat < 128 → isAlphabetic c = c.isAlpha
  isAlphanumeric_ascii : ∀ c : Char, c.toNat < 128 → isAlphanumeric c = c.isAlphanum

/-- `TOON_MAX_DEPTH`. -/
def toonMaxDepth : ℕ := 128

def toonDepthLimitReached (depth : ℕ) : Bool := toonMaxDepth ≤ depth

def writeIndent (indent : ℕ) : Text := List.replicate indent ' '

/-! ### Keys and strings -/

def quotedChar : Char → Text
  | '\n' => ['\\', 'n']
  | '\r' => ['\\', 'r']
  | '\t' => ['\\', 't']
  | '"' => ['\\', '"']
  | '\\' => ['\\', '\\']
  | c => [c]

def writeQuotedToonString (value : Text) : Text := '"' :: (value.flatMap quotedChar ++ ['"'])

def isToonStructuralChar (c : Char) : Bool :=
  c = '[' || c = ']' || c = '{' || c = '}' || c = ':' || c = '-'

def isNumericLikeToonString (value : Text) : Bool :=
  match (match value with
    | '-' :: rest => rest
    | other => other) with
  | [] => false
  | first :: rest =>
    if first.isDigit then
      if first = '0' ∧ rest.head?.any Char.isDigit then false
      else rest.all fun c => c.isDigit || c = '.' || c = 'e' || c = 'E' || c = '+' || c = '-'
    else false

/-- `char::is_ascii_digit` of the second character, after a zero. -/
def startsWithZeroDigit : Text → Bool
  | '0' :: c :: _ => c.isDigit
  | _ => false

namespace CharClasses

variable (classes : CharClasses)

def isValidUnquotedToonKey (value : Text) : Bool :=
  match value with
  | [] => false
  | first :: rest => (classes.isAlphabetic first || first = '_') &&
      rest.all fun c => classes.isAlphanumeric c || c = '_' || c = '.'

def writeToonKey (value : Text) : Text :=
  if classes.isValidUnquotedToonKey value then value else writeQuotedToonString value

def needsQuotedToonString (value : Text) : Bool :=
  value.isEmpty || value = ['n', 'u', 'l', 'l'] || value = ['t', 'r', 'u', 'e'] ||
  value = ['f', 'a', 'l', 's', 'e'] || isNumericLikeToonString value ||
  value.any isToonStructuralChar ||
  value.any (fun c => c = ',' || c = '\\' || c = '"' || c = '\n' || c = '\r' || c = '\t') ||
  value.head?.any classes.isWhitespace || value.getLast?.any classes.isWhitespace ||
  value.head? = some '-' || startsWithZeroDigit value

def writeToonString (value : Text) : Text :=
  if classes.needsQuotedToonString value then writeQuotedToonString value else value

end CharClasses

/-! ### Primitives -/

/-- An integer in decimal. -/
def formatToonNumber : ℤ → Text
  | .ofNat n => Nat.toDigits 10 n
  | .negSucc n => '-' :: Nat.toDigits 10 (n + 1)

def isToonPrimitive : Value → Bool
  | .array _ | .object _ => false
  | _ => true

section

variable (classes : CharClasses)

def writeToonPrimitive : Value → Text
  | .null => ['n', 'u', 'l', 'l']
  | .bool value => if value then ['t', 'r', 'u', 'e'] else ['f', 'a', 'l', 's', 'e']
  | .number value => formatToonNumber value
  | .string value => classes.writeToonString value
  | .array _ | .object _ => []

/-- The primitives of a line, a comma between two. -/
def writeToonPrimitives (values : List Value) : Text :=
  joined [','] (writeToonPrimitive classes) values

/-- A row's value under a field, `null` where it has none. -/
def fieldOf (row : Object) (field : Text) : Value := (row.lookup field).getD .null

/-! ### Tables -/

def writeToonKeys (keys : List Text) : Text := joined [','] classes.writeToonKey keys

/-- `write_toon_table_header`, after its key. -/
def writeToonTableHeader (length : ℕ) (fields : Option (List Text)) (keyed : Bool) : Text :=
  '[' :: (Nat.toDigits 10 length ++ (if keyed then [':', ']'] else [']']) ++
    (fields.elim [] fun fields => '{' :: (writeToonKeys classes fields ++ ['}'])) ++ [':'])

/-- The fields of a table, where the values are its rows: objects of one key set, all primitive. -/
def toonTabularFields : List Value → Option (List Text)
  | .object first :: rest =>
    if first.isEmpty then none
    else if first.any fun field => !isToonPrimitive field.2 then none
    else if rest.all fun
        | .object row => decide (row.length = first.length) &&
          (first.all fun field => (row.lookup field.1).isSome) &&
          row.all fun field => isToonPrimitive field.2
        | _ => false then some (first.map Prod.fst)
    else none
  | _ => none

/-- A table's fields but its id, where it has one. -/
def toonEntityFields (fields : List Text) : Option (List Text) :=
  if ['i', 'd'] ∈ fields then some (fields.filter (· ≠ ['i', 'd'])) else none

def writeToonKeyedRow (row : Object) (fields : List Text) (indent : ℕ) : Text :=
  writeIndent indent ++ writeToonPrimitive classes (fieldOf row ['i', 'd']) ++ [':'] ++
    (if fields.isEmpty then [] else ' ' :: writeToonPrimitives classes (fields.map (fieldOf row)))

def writeToonRow (row : Object) (fields : List Text) (indent : ℕ) : Text :=
  writeIndent indent ++ writeToonPrimitives classes (fields.map (fieldOf row))

/-- The rows of a table, a line each. -/
def writeToonRows (row : Object → Text) : List Value → Text
  | [] => []
  | .object fields :: rest => row fields ++ (if rest.isEmpty then [] else ['\n']) ++
      writeToonRows row rest
  | _ :: rest => writeToonRows row rest

/-- A table after its key, its rows under an indent. -/
def writeToonTable (values : List Value) (fields : List Text) (indent : ℕ) : Text :=
  match toonEntityFields fields with
  | some entityFields => writeToonTableHeader classes values.length (some entityFields) true ++ '\n' ::
      writeToonRows (fun row => writeToonKeyedRow classes row entityFields indent) values
  | none => writeToonTableHeader classes values.length (some fields) false ++ '\n' ::
      writeToonRows (fun row => writeToonRow classes row fields indent) values

/-- A table's or a list's key, on a line of its depth. -/
def writeToonArrayKey (key : Option Text) (depth : ℕ) : Text :=
  key.elim [] fun key => writeIndent (depth * 2) ++ classes.writeToonKey key

def writeToonTabularArray (key : Option Text) (values : List Value) (fields : List Text)
    (depth : ℕ) : Text :=
  writeToonArrayKey classes key depth ++ writeToonTable classes values fields ((depth + 1) * 2)

def writeToonListItemTabularArray (values : List Value) (fields : List Text) (depth : ℕ) : Text :=
  writeToonTable classes values fields ((depth + 2) * 2)

def writeToonPrimitiveArray (key : Option Text) (values : List Value) (depth : ℕ) : Text :=
  writeToonArrayKey classes key depth ++ writeToonTableHeader classes values.length none false ++
    ' ' :: writeToonPrimitives classes values

def writeToonDepthLimitValue : Text := ['n', 'u', 'l', 'l']

def writeToonKeyedDepthLimitValue (key : Text) (depth : ℕ) : Text :=
  writeIndent (depth * 2) ++ classes.writeToonKey key ++ [':', ' '] ++ writeToonDepthLimitValue

/-- `write_toon_array`, the items of a nested one given. -/
def writeToonArray (key : Option Text) (values : List Value) (depth : ℕ) (items : Text) : Text :=
  if toonDepthLimitReached depth then
    key.elim writeToonDepthLimitValue fun key => writeToonKeyedDepthLimitValue classes key depth
  else if values.isEmpty then
    writeToonArrayKey classes key depth ++ writeToonTableHeader classes 0 none false
  else
    match toonTabularFields values with
    | some fields => writeToonTabularArray classes key values fields depth
    | none =>
      if values.all isToonPrimitive then writeToonPrimitiveArray classes key values depth
      else writeToonArrayKey classes key depth ++
        writeToonTableHeader classes values.length none false ++ '\n' :: items

/-! ### Nested layouts -/

mutual

/-- The entries of `write_toon_object`. -/
def writeToonFields (depth : ℕ) : Object → Text
  | [] => []
  | (key, value) :: rest => writeToonField depth key value ++
      (if rest.isEmpty then [] else ['\n']) ++ writeToonFields depth rest

def writeToonField (depth : ℕ) (key : Text) : Value → Text
  | .array values =>
    writeToonArray classes (some key) values depth (writeToonItems depth values)
  | .object nested =>
    if nested.isEmpty then writeIndent (depth * 2) ++ classes.writeToonKey key ++ [':']
    else if toonDepthLimitReached (depth + 1) then writeToonKeyedDepthLimitValue classes key depth
    else writeIndent (depth * 2) ++ classes.writeToonKey key ++ ':' :: '\n' ::
      writeToonFields (depth + 1) nested
  | value => writeIndent (depth * 2) ++ classes.writeToonKey key ++ ':' :: ' ' ::
      writeToonPrimitive classes value

/-- The items of `write_toon_nested_array`. -/
def writeToonItems (depth : ℕ) : List Value → Text
  | [] => []
  | value :: rest => writeIndent ((depth + 1) * 2) ++ '-' :: writeToonItem depth value ++
      (if rest.isEmpty then [] else ['\n']) ++ writeToonItems depth rest

def writeToonItem (depth : ℕ) : Value → Text
  | .array values => ' ' :: writeToonArray classes none values (depth + 1)
      (writeToonItems (depth + 1) values)
  | .object object =>
    if !object.isEmpty && toonDepthLimitReached (depth + 1) then ' ' :: writeToonDepthLimitValue
    else writeToonListItemFields (depth + 1) true object
  | value => ' ' :: writeToonPrimitive classes value

/-- The fields of `write_toon_list_item_object`, the first beside its dash. -/
def writeToonListItemFields (depth : ℕ) (firstField : Bool) : Object → Text
  | [] => []
  | (key, value) :: rest =>
    (if firstField then [' '] else '\n' :: writeIndent ((depth + 1) * 2)) ++
      writeToonListItemField depth key firstField value ++ writeToonListItemFields depth false rest

def writeToonListItemField (depth : ℕ) (key : Text) (firstField : Bool) : Value → Text
  | .array values => classes.writeToonKey key ++
    if toonDepthLimitReached (depth + 1) then ':' :: ' ' :: writeToonDepthLimitValue
    else
      match firstField, toonTabularFields values with
      | true, some fields => writeToonListItemTabularArray classes values fields depth
      | _, _ => writeToonArray classes none values (depth + 1) (writeToonItems (depth + 1) values)
  | .object object => classes.writeToonKey key ++ ':' ::
    if object.isEmpty then []
    else if toonDepthLimitReached (depth + 2) then ' ' :: writeToonDepthLimitValue
    else '\n' :: writeToonFields (depth + 2) object
  | value => classes.writeToonKey key ++ ':' :: ' ' :: writeToonPrimitive classes value

end

/-- `write_toon_object`. -/
def writeToonObject (object : Object) (depth : ℕ) : Text :=
  if toonDepthLimitReached depth then writeToonDepthLimitValue
  else writeToonFields classes depth object

end

/-! ### Values the writer is given -/

mutual

/-- No object under a value has a key twice. -/
def Value.WellFormed : Value → Prop
  | .array values => AllWellFormed values
  | .object fields => (fields.map Prod.fst).Nodup ∧ FieldsWellFormed fields
  | _ => True

def AllWellFormed : List Value → Prop
  | [] => True
  | value :: rest => value.WellFormed ∧ AllWellFormed rest

def FieldsWellFormed : Object → Prop
  | [] => True
  | (_, value) :: rest => value.WellFormed ∧ FieldsWellFormed rest

end

mutual

/-- No value under a field whose contents stand at a depth reaches the writer's limit. -/
def Value.fits (depth : ℕ) : Value → Bool
  | .array values => !toonDepthLimitReached depth &&
      ((toonTabularFields values).isSome || itemsFit depth values)
  | .object nested => nested.isEmpty || !toonDepthLimitReached (depth + 1) &&
      fieldsFit (depth + 1) nested
  | _ => true

def fieldsFit (depth : ℕ) : Object → Bool
  | [] => true
  | (_, value) :: rest => value.fits depth && fieldsFit depth rest

def itemsFit (depth : ℕ) : List Value → Bool
  | [] => true
  | value :: rest => value.fitsItem depth && itemsFit depth rest

def Value.fitsItem (depth : ℕ) : Value → Bool
  | .array values => !toonDepthLimitReached (depth + 1) &&
      ((toonTabularFields values).isSome || itemsFit (depth + 1) values)
  | .object object => object.isEmpty || !toonDepthLimitReached (depth + 1) &&
      fieldsFit (depth + 2) object
  | _ => true

end

/-- A JSON object: each key once at every level, its nesting under the writer's limit. -/
structure ShallowObject where
  fields : Object
  wellFormed : (Value.object fields).WellFormed
  fits : fieldsFit 0 fields = true

mutual

/-- Equal as JSON values: the same but for the order of objects' keys. -/
inductive Value.Same : Value → Value → Prop
  | refl (value : Value) : Value.Same value value
  | array {values values' : List Value} : AllSame values values' →
      Value.Same (.array values) (.array values')
  | object {fields fields' others : Object} : FieldsSame fields fields' → fields'.Perm others →
      Value.Same (.object fields) (.object others)

inductive AllSame : List Value → List Value → Prop
  | nil : AllSame [] []
  | cons {value value' : Value} {rest rest' : List Value} : Value.Same value value' →
      AllSame rest rest' → AllSame (value :: rest) (value' :: rest')

inductive FieldsSame : Object → Object → Prop
  | nil : FieldsSame [] []
  | cons (key : Text) {value value' : Value} {rest rest' : Object} : Value.Same value value' →
      FieldsSame rest rest' → FieldsSame ((key, value) :: rest) ((key, value') :: rest')

end

end Toon

/-! ## What the writer lays out below its depth limit

The two ways an object is laid out, on lines of its own and from beside a list's dash, are one
(`entries`), at two places; so are the two of an array (`body`).  `writeToonObject_eq` ties the writer
to them.
-/

section Layout

variable (classes : CharClasses)

/-- An array from its bracket on, the items of a nested one given. -/
def body (depth : ℕ) (values : List Value) (items : Text) : Text :=
  if values.isEmpty then writeToonTableHeader classes 0 none false
  else
    match toonTabularFields values with
    | some fields => writeToonTable classes values fields ((depth + 1) * 2)
    | none =>
      if values.all isToonPrimitive then
        writeToonTableHeader classes values.length none false ++
          ' ' :: writeToonPrimitives classes values
      else writeToonTableHeader classes values.length none false ++ '\n' :: items

mutual

/-- An object's fields, from the first one's key on. -/
def entries (depth : ℕ) : Object → Text
  | [] => []
  | (key, value) :: rest => classes.writeToonKey key ++ contents depth value ++
      (if rest.isEmpty then [] else '\n' :: writeIndent (depth * 2)) ++ entries depth rest

/-- What comes after a field's key. -/
def contents (depth : ℕ) : Value → Text
  | .array values => body classes depth values (items depth values)
  | .object nested => ':' :: if nested.isEmpty then []
      else '\n' :: (writeIndent ((depth + 1) * 2) ++ entries (depth + 1) nested)
  | value => ':' :: ' ' :: writeToonPrimitive classes value

def items (depth : ℕ) : List Value → Text
  | [] => []
  | value :: rest => writeIndent ((depth + 1) * 2) ++ '-' :: item depth value ++
      (if rest.isEmpty then [] else ['\n']) ++ items depth rest

/-- What comes after an item's dash. -/
def item (depth : ℕ) : Value → Text
  | .array values => ' ' :: body classes (depth + 1) values (items (depth + 1) values)
  | .object object => if object.isEmpty then [] else ' ' :: entries (depth + 2) object
  | value => ' ' :: writeToonPrimitive classes value

end

section

variable {classes} {depth : ℕ} {values : List Value}

theorem body_congr {text text' : Text}
    (h : (toonTabularFields values).isSome = true ∨ text = text') :
    body classes depth values text = body classes depth values text' := by
  rcases h with htable | rfl
  · obtain ⟨fields, hfields⟩ := Option.isSome_iff_exists.mp htable
    rw [body, body, hfields]
  · rfl

theorem writeToonArray_eq (key : Option Text) (text : Text)
    (h : toonDepthLimitReached depth = false) : writeToonArray classes key values depth text =
      writeToonArrayKey classes key depth ++ body classes depth values text := by
  rw [writeToonArray, body, h, if_neg Bool.false_ne_true]
  split
  case isTrue => rfl
  case isFalse =>
    cases toonTabularFields values with
    | some fields => rfl
    | none =>
      dsimp only
      split
      · rw [writeToonPrimitiveArray, List.append_assoc]
      · rw [List.append_assoc]

end

variable {classes}

mutual

theorem writeToonFields_eq {depth : ℕ} : ∀ {fields : Object}, fieldsFit depth fields = true →
    writeToonFields classes depth fields =
      if fields.isEmpty then [] else writeIndent (depth * 2) ++ entries classes depth fields
  | [], _ => rfl
  | (key, value) :: rest, h => by
    rw [fieldsFit, Bool.and_eq_true] at h
    rw [writeToonFields, entries, writeToonField_eq key h.1, writeToonFields_eq h.2]
    cases rest <;> simp [entries]

theorem writeToonField_eq {depth : ℕ} (key : Text) : ∀ {value : Value},
    value.fits depth = true → writeToonField classes depth key value =
      writeIndent (depth * 2) ++ (classes.writeToonKey key ++ contents classes depth value)
  | .array values, h => by
    rw [Value.fits, Bool.and_eq_true, Bool.not_eq_true', Bool.or_eq_true] at h
    rw [writeToonField, contents, writeToonArray_eq _ _ h.1, body_congr (h.2.imp_right fun h =>
      writeToonItems_eq h), writeToonArrayKey, Option.elim_some, List.append_assoc]
  | .object nested, h => by
    rw [Value.fits, Bool.or_eq_true, Bool.and_eq_true, Bool.not_eq_true'] at h
    rw [writeToonField, contents]
    split
    case isTrue => simp
    case isFalse hne =>
      obtain ⟨hdepth, hfits⟩ := h.resolve_left hne
      rw [hdepth, if_neg Bool.false_ne_true, writeToonFields_eq hfits, if_neg hne]
      simp
  | .null, _ | .bool _, _ | .number _, _ | .string _, _ => by simp [writeToonField, contents]

theorem writeToonItems_eq {depth : ℕ} : ∀ {values : List Value}, itemsFit depth values = true →
    writeToonItems classes depth values = items classes depth values
  | [], _ => rfl
  | value :: rest, h => by
    rw [itemsFit, Bool.and_eq_true] at h
    rw [writeToonItems, items, writeToonItem_eq h.1, writeToonItems_eq h.2]

theorem writeToonItem_eq {depth : ℕ} : ∀ {value : Value}, value.fitsItem depth = true →
    writeToonItem classes depth value = item classes depth value
  | .array values, h => by
    rw [Value.fitsItem, Bool.and_eq_true, Bool.not_eq_true', Bool.or_eq_true] at h
    rw [writeToonItem, item, writeToonArray_eq _ _ h.1, body_congr (h.2.imp_right fun h =>
      writeToonItems_eq h), writeToonArrayKey, Option.elim_none, List.nil_append]
  | .object object, h => by
    rw [Value.fitsItem, Bool.or_eq_true, Bool.and_eq_true, Bool.not_eq_true'] at h
    rw [writeToonItem, item]
    by_cases hempty : object.isEmpty = true
    · rw [List.isEmpty_iff] at hempty
      subst hempty
      rfl
    · obtain ⟨hdepth, hfits⟩ := h.resolve_left hempty
      rw [hdepth, Bool.and_false, if_neg Bool.false_ne_true, writeToonListItemFields_eq true hfits]
      rfl
  | .null, _ | .bool _, _ | .number _, _ | .string _, _ => rfl

theorem writeToonListItemFields_eq {depth : ℕ} (firstField : Bool) : ∀ {fields : Object},
    fieldsFit (depth + 1) fields = true → writeToonListItemFields classes depth firstField fields =
      if fields.isEmpty then []
      else (if firstField then [' '] else '\n' :: writeIndent ((depth + 1) * 2)) ++
        entries classes (depth + 1) fields
  | [], _ => rfl
  | (key, value) :: rest, h => by
    rw [fieldsFit, Bool.and_eq_true] at h
    rw [writeToonListItemFields, entries, writeToonListItemField_eq key firstField h.1,
      writeToonListItemFields_eq false h.2]
    cases rest <;> simp [entries]

theorem writeToonListItemField_eq {depth : ℕ} (key : Text) (firstField : Bool) :
    ∀ {value : Value}, value.fits (depth + 1) = true →
      writeToonListItemField classes depth key firstField value =
        classes.writeToonKey key ++ contents classes (depth + 1) value
  | .array values, h => by
    rw [Value.fits, Bool.and_eq_true, Bool.not_eq_true', Bool.or_eq_true] at h
    rw [writeToonListItemField.eq_def, contents]
    dsimp only
    rw [h.1, if_neg Bool.false_ne_true]
    congr 1
    have harray : writeToonArray classes none values (depth + 1)
        (writeToonItems classes (depth + 1) values) =
          body classes (depth + 1) values (items classes (depth + 1) values) :=
      (writeToonArray_eq none _ h.1).trans
        (body_congr (h.2.imp_right fun h => writeToonItems_eq h))
    split
    case h_1 fields hfields =>
      have hnonempty : values.isEmpty = false := by
        cases values with
        | nil => exact absurd hfields nofun
        | cons => rfl
      rw [body, hnonempty, if_neg Bool.false_ne_true, hfields]
      rfl
    case h_2 => exact harray
  | .object object, h => by
    rw [Value.fits, Bool.or_eq_true, Bool.and_eq_true, Bool.not_eq_true'] at h
    rw [writeToonListItemField, contents]
    split
    case isTrue => rfl
    case isFalse hne =>
      obtain ⟨hdepth, hfits⟩ := h.resolve_left hne
      rw [hdepth, if_neg Bool.false_ne_true, writeToonFields_eq hfits, if_neg hne]
  | .null, _ | .bool _, _ | .number _, _ | .string _, _ => rfl

end

end Layout

end Oneiron
