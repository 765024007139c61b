import Mathlib.Data.List.Infix

/-!
# Authority/RepoGlobs — the path globs of a repository's bounds, and the matcher behind them

    glob -- split at '/' --▸ parts        path -- split at '/' --▸ names

`glob_matches` carries the reach of the parts so far over the names; a part is held against one name
by a matcher that goes back to its last `*` only.  `Spells` and `Denotes` are the grammar a glob is
written in, whose stars stand for the runs a condition lets them.
-/

namespace Oneiron

open List Nat

variable {part : List Char}

namespace RepoGlobs

/-! ## Paths and globs -/

/-- A control character. -/
def isControl (c : Char) : Bool := c.toNat < 0x20 || (0x7F ≤ c.toNat && c.toNat < 0xA0)

/-- The components of a path or a glob. -/
def components (path : List Char) : List (List Char) := path.splitOn '/'

/-- `is_normal_path`. -/
def isNormalPath (path : List Char) : Bool :=
  !path.any (fun c => c = '\\' || isControl c) &&
    (components path).all fun component =>
      component ≠ [] && component ≠ ['.'] && component ≠ ['.', '.']

/-- The component that spans whole components. -/
def deep : List Char := ['*', '*']

/-- `is_path_glob`. -/
def isPathGlob (glob : List Char) : Bool :=
  isNormalPath glob && (components glob).all fun component =>
    component = deep || !decide (deep <:+: component)

/-! ## The matcher -/

/-- Where the matcher goes back to: what follows its last star, and the name from where that star
has reached. -/
structure Star where
  part : List Char
  name : List Char

theorem length_tail_lt {c : Char} (h : part.head? = some c) : part.tail.length < part.length := by
  cases part with
  | nil => exact nomatch h
  | cons a tail => exact lt_succ_self _

/-- The loop of `component_matches`, from what is left of the part and of the name. -/
def scan (part name : List Char) (star : Option Star)
    (h : ∀ s ∈ star, part.length ≤ s.part.length ∧ name.length ≤ s.name.length) : Bool :=
  match name with
  | [] => part.all (· = '*')
  | x :: rest =>
    if hone : part.head? = some '?' ∨ part.head? = some x then
      scan part.tail rest star fun s hs =>
        ⟨(part.tail_sublist.length_le.trans (h s hs).1), (le_succ _).trans (h s hs).2⟩
    else if hstar : part.head? = some '*' then
      scan part.tail (x :: rest) (some ⟨part.tail, x :: rest⟩) fun s hs => by
        obtain rfl := Option.some.inj hs
        exact ⟨le_rfl, le_rfl⟩
    else
      match hback : star with
      | some ⟨p, _ :: n⟩ => scan p n (some ⟨p, n⟩) fun s hs => by
        obtain rfl := Option.some.inj hs
        exact ⟨le_rfl, le_rfl⟩
      | _ => false
termination_by
  (star.elim (part.length + 1) (·.part.length), star.elim 0 (·.name.length), part.length)
decreasing_by
  · have hlt : part.tail.length < part.length := hone.elim length_tail_lt length_tail_lt
    cases star with
    | none => exact Prod.Lex.left _ _ (succ_lt_succ hlt)
    | some s => exact Prod.Lex.right _ (Prod.Lex.right _ hlt)
  · have hlt := length_tail_lt hstar
    cases star with
    | none => exact Prod.Lex.left _ _ (hlt.trans (lt_succ_self _))
    | some s => exact Prod.Lex.left _ _ (hlt.trans_le (h s rfl).1)
  · rw [hback]
    exact Prod.Lex.right _ (Prod.Lex.left _ _ (lt_succ_self _))

/-- `component_matches`. -/
def componentMatches (part name : List Char) : Bool := scan part name none fun _ h => nomatch h

/-- What a `**` reaches: everything from the first that was reached. -/
def spread : Bool → List Bool → List Bool
  | _, [] => []
  | seen, reached :: reach => (seen || reached) :: spread (seen || reached) reach

/-- What one part reaches over the names. -/
def advance (names : List (List Char)) (reach : List Bool) (part : List Char) : List Bool :=
  if part = deep then spread false reach
  else false :: List.zipWith (fun reached name => reached && componentMatches part name) reach names

/-- `glob_matches`. -/
def globMatches (glob path : List Char) : Bool :=
  let names := components path
  let reach := (components glob).foldl (advance names) (true :: List.replicate names.length false)
  reach.getLast? = some true

/-- `admits_path`, of one set of globs. -/
def admitsPath (globs : List (List Char)) (path : List Char) : Bool :=
  isNormalPath path && globs.any fun glob => globMatches glob path

/-! ## The grammar -/

/-- A name spelled by a part, whose stars stand for the runs `Runs` lets them, before what follows. -/
inductive Spells (Runs : List Char → List Char → Prop) : List Char → List Char → Prop
  | nil : Spells Runs [] []
  | self {c : Char} {part name : List Char} : c ≠ '*' → c ≠ '?' → Spells Runs part name →
      Spells Runs (c :: part) (c :: name)
  | one {x : Char} {part name : List Char} : Spells Runs part name →
      Spells Runs ('?' :: part) (x :: name)
  | run {part name : List Char} (run : List Char) : Runs run name → Spells Runs part name →
      Spells Runs ('*' :: part) (run ++ name)

/-- Names spelled by parts, where `**` spans zero or more whole names. -/
inductive Denotes (Spelled : List Char → List Char → Prop) :
    List (List Char) → List (List Char) → Prop
  | nil : Denotes Spelled [] []
  | part {part name : List Char} {parts names : List (List Char)} : part ≠ deep →
      Spelled part name → Denotes Spelled parts names → Denotes Spelled (part :: parts) (name :: names)
  | deep {parts names : List (List Char)} (span : List (List Char)) : Denotes Spelled parts names →
      Denotes Spelled (deep :: parts) (span ++ names)

/-- **The documented language**: a star is any run. -/
def Documented : List (List Char) → List (List Char) → Prop :=
  Denotes (Spells fun _ _ => True)

/-- **The matcher's language**: a star that begins at a `*` of the name is that one character. -/
def Literal (run rest : List Char) : Prop := (run ++ rest).head? = some '*' → run = ['*']

end RepoGlobs

/-! ## Which language the glob matcher decides

A star that meets a `*` of the name is taken for that one character, and every other star is any run:
the matcher decides exactly the language of that reading (`componentMatches_iff`), in which going back
to the last star only loses nothing (`Aligned.reaches`).  So it decides the documented language just
where that reading spells what the grammar does.
-/

section Language

namespace RepoGlobs

variable {Runs : List Char → List Char → Prop} {Spelled Spelled' : List Char → List Char → Prop}
  {part name rest seg text : List Char} {c x : Char} {star : Option Star}

/-! ## Spelling -/

theorem Spells.mono {Runs' : List Char → List Char → Prop} (hruns : ∀ run rest, Runs run rest →
    Runs' run rest) (h : Spells Runs part name) : Spells Runs' part name := by
  induction h with
  | nil => exact .nil
  | self hstar hone _ ih => exact .self hstar hone ih
  | one _ ih => exact .one ih
  | run r hr _ ih => exact .run r (hruns _ _ hr) ih

theorem spells_nil_iff : Spells Literal part [] ↔ ∀ c ∈ part, c = '*' := by
  constructor
  · generalize hname : ([] : List Char) = name
    intro h
    induction h with
    | nil => exact fun _ h => absurd h not_mem_nil
    | self | one => exact nomatch hname
    | run r _ _ ih =>
      obtain ⟨-, hnil⟩ := append_eq_nil_iff.mp hname.symm
      exact forall_mem_cons.mpr ⟨rfl, ih hnil.symm⟩
  · intro h
    induction part with
    | nil => exact .nil
    | cons c part ih =>
      rw [forall_mem_cons] at h
      obtain ⟨rfl, hrest⟩ := h
      exact .run [] nofun (ih hrest)

/-- A part whose first character matches the name's is spelled on from the next ones. -/
theorem spells_cons_iff (h : c = '?' ∨ c = x) :
    Spells Literal (c :: part) (x :: name) ↔ Spells Literal part name := by
  constructor
  · generalize hname : x :: name = whole
    rintro (_ | ⟨hstar, hone, htail⟩ | htail | ⟨r, hr, htail⟩)
    · exact (cons.inj hname).2 ▸ htail
    · exact (cons.inj hname).2 ▸ htail
    · obtain rfl : x = '*' := (h.resolve_left (by decide)).symm
      obtain rfl : r = ['*'] := hr (by rw [← hname]; rfl)
      exact (cons.inj hname).2 ▸ htail
  · intro htail
    by_cases hone : c = '?'
    · subst hone
      exact .one htail
    · obtain rfl := h.resolve_left hone
      by_cases hstar : c = '*'
      · subst hstar
        exact .run ['*'] (fun _ => rfl) htail
      · exact .self hstar hone htail

/-- What a star spells is spelled by its part from a later rest. -/
theorem Spells.later (h : Spells Runs ('*' :: part) name) :
    ∃ rest, rest <:+ name ∧ Spells Runs part rest := by
  rcases h with _ | ⟨hstar, -, -⟩ | _ | ⟨r, -, htail⟩
  · exact absurd rfl hstar
  · exact ⟨_, suffix_append r _, htail⟩

/-- A star before a character that is none spells what its part spells of any later rest. -/
theorem spells_star_iff (hx : x ≠ '*') : Spells Literal ('*' :: part) (x :: name) ↔
    ∃ rest, rest <:+ x :: name ∧ Spells Literal part rest := by
  refine ⟨Spells.later, fun ⟨rest, ⟨run, hrun⟩, htail⟩ => ?_⟩
  rw [← hrun]
  refine .run run (fun hhead => ?_) htail
  rw [hrun] at hhead
  exact absurd (Option.some.inj hhead) hx

/-- A part that neither matches the name's first character nor starts with a star spells nothing. -/
theorem not_spells (hone : ¬ (part.head? = some '?' ∨ part.head? = some x))
    (hstar : part.head? ≠ some '*') : ¬ Spells Literal part (x :: name) := by
  generalize hname : x :: name = whole
  rintro (_ | ⟨-, -, -⟩ | _ | _)
  · exact nomatch hname
  · exact hone (.inr (congrArg some (cons.inj hname).1.symm))
  · exact hone (.inl rfl)
  · exact hstar rfl

/-! ## Going back to the last star -/

/-- A stretch of a part that matched a stretch of a name character by character. -/
inductive Aligned : List Char → List Char → Prop
  | nil : Aligned [] []
  | cons {c x : Char} {seg text : List Char} : c = '?' ∨ c = x → Aligned seg text →
      Aligned (c :: seg) (x :: text)

theorem Aligned.concat (h : Aligned seg text) (hc : c = '?' ∨ c = x) :
    Aligned (seg ++ [c]) (text ++ [x]) := by
  induction h with
  | nil => exact .cons hc .nil
  | cons hc' _ ih => exact .cons hc' ih

/-- **No start is lost**: a later start of the stretch leaves what follows it no further back. -/
theorem Aligned.reaches (h : Aligned seg text) : ∀ {later : List Char}, later <:+ text ++ rest →
    Spells Literal (seg ++ part) later → ∃ rest', rest' <:+ rest ∧ Spells Literal part rest' := by
  induction h with
  | nil => exact fun hlater hspells => ⟨_, hlater, hspells⟩
  | @cons c x seg text hc _ ih =>
    intro later hlater hspells
    rcases suffix_cons_iff.mp hlater with rfl | hlater
    · exact ih suffix_rfl ((spells_cons_iff hc).mp hspells)
    · rcases hspells with _ | ⟨-, -, htail⟩ | htail | ⟨r, -, htail⟩
      · exact ih ((suffix_cons _ _).trans hlater) htail
      · exact ih ((suffix_cons _ _).trans hlater) htail
      · exact ih ((suffix_append _ _).trans hlater) htail

/-- The place a star is gone back to: the part since it matched the name since then. -/
def Since (part name : List Char) (s : Star) : Prop :=
  ∃ seg text, Aligned seg text ∧ s.part = seg ++ part ∧ s.name = text ++ name

theorem Since.reaches {s : Star} {later : List Char} (h : Since part name s)
    (hlater : later <:+ s.name.tail) (hspells : Spells Literal s.part later) :
    ∃ rest, rest <:+ name ∧ Spells Literal part rest := by
  obtain ⟨seg, text, haligned, hpart, hname⟩ := h
  rw [hpart] at hspells
  exact haligned.reaches (hname ▸ hlater.trans (tail_suffix _)) hspells

/-- **The loop invariant**: the matcher succeeds where what is left is spelled, or its last star
starts later. -/
theorem scan_iff {h : ∀ s ∈ star, part.length ≤ s.part.length ∧ name.length ≤ s.name.length}
    (hsince : ∀ s ∈ star, Since part name s) : scan part name star h = true ↔
      Spells Literal part name ∨
        ∃ s ∈ star, ∃ later, later <:+ s.name.tail ∧ Spells Literal s.part later := by
  fun_induction scan part name star h with
  | case1 part star h =>
    rw [all_eq_true]
    simp only [decide_eq_true_eq, ← spells_nil_iff]
    refine ⟨Or.inl, fun hspells => hspells.elim id fun ⟨s, hs, later, hlater, hspells⟩ => ?_⟩
    obtain ⟨rest, hrest, hspells⟩ := (hsince s hs).reaches hlater hspells
    exact suffix_nil.mp hrest ▸ hspells
  | case2 part star x rest h hone _ ih =>
    obtain ⟨c, part, rfl⟩ : ∃ c tail, part = c :: tail := by
      cases part with
      | nil => exact hone.elim nofun nofun
      | cons c tail => exact ⟨c, tail, rfl⟩
    replace hone : c = '?' ∨ c = x := hone.imp Option.some.inj Option.some.inj
    rw [spells_cons_iff hone]
    refine ih fun s hs => ?_
    obtain ⟨seg, text, haligned, hpart, hname⟩ := hsince s hs
    exact ⟨_, _, haligned.concat hone, by rw [hpart, append_assoc]; rfl, by
      rw [hname, append_assoc]; rfl⟩
  | case3 part star x rest h hone hstar _ ih =>
    obtain ⟨part, rfl⟩ : ∃ tail, part = '*' :: tail := by
      cases part with
      | nil => exact nomatch hstar
      | cons c tail => exact ⟨tail, congrArg (· :: tail) (Option.some.inj hstar)⟩
    have hx : x ≠ '*' := fun hx => hone (.inr (hx ▸ rfl))
    rw [ih fun s hs => Option.some.inj hs ▸ ⟨[], [], .nil, rfl, rfl⟩]
    have hlater : (Spells Literal part (x :: rest) ∨ ∃ s ∈ some (Star.mk part (x :: rest)),
        ∃ later, later <:+ s.name.tail ∧ Spells Literal s.part later) ↔
          Spells Literal ('*' :: part) (x :: rest) := by
      rw [spells_star_iff hx]
      constructor
      · rintro (hspells | ⟨s, hs, later, hlater, hspells⟩)
        · exact ⟨_, suffix_rfl, hspells⟩
        · obtain rfl := Option.some.inj hs
          exact ⟨later, hlater.trans (suffix_cons _ _), hspells⟩
      · rintro ⟨later, hlater, hspells⟩
        rcases suffix_cons_iff.mp hlater with rfl | hlater
        · exact .inl hspells
        · exact .inr ⟨_, rfl, later, hlater, hspells⟩
    refine hlater.trans ⟨.inl, fun hspells => hspells.elim id fun ⟨s, hs, later, hlater, hspells⟩ => ?_⟩
    obtain ⟨m, hm, hspells⟩ := (hsince s hs).reaches hlater hspells
    obtain ⟨rest', hrest', hspells⟩ := hspells.later
    exact (spells_star_iff hx).mpr ⟨rest', hrest'.trans hm, hspells⟩
  | case4 part x rest hone hstar p y n _ _ _ ih =>
    rw [ih fun s hs => Option.some.inj hs ▸ ⟨[], [], .nil, rfl, rfl⟩,
      or_iff_right (not_spells hone hstar)]
    constructor
    · rintro (hspells | ⟨s, hs, later, hlater, hspells⟩)
      · exact ⟨_, rfl, n, suffix_rfl, hspells⟩
      · obtain rfl := Option.some.inj hs
        exact ⟨_, rfl, later, hlater.trans (tail_suffix _), hspells⟩
    · rintro ⟨s, hs, later, hlater, hspells⟩
      obtain rfl := Option.some.inj hs
      cases n with
      | nil => exact .inl (suffix_nil.mp hlater ▸ hspells)
      | cons z n =>
        rcases suffix_cons_iff.mp hlater with rfl | hlater
        · exact .inl hspells
        · exact .inr ⟨_, rfl, later, hlater, hspells⟩
  | case5 part star x rest _ hone hstar hrange hnone _ =>
    refine ⟨nofun, fun hspells => (hspells.resolve_left (not_spells hone hstar)).elim ?_⟩
    rintro ⟨p, n⟩ ⟨hs, -⟩
    obtain rfl := Option.mem_def.mp hs
    cases n with
    | nil =>
      obtain ⟨seg, text, -, -, hname⟩ := hsince _ rfl
      exact nomatch (append_eq_nil_iff.mp hname.symm).2
    | cons y n => exact (hnone p y n hrange rfl HEq.rfl).elim

/-- **What a part matches.** -/
theorem componentMatches_iff : componentMatches part name = true ↔ Spells Literal part name :=
  (scan_iff fun _ h => absurd h (Option.not_mem_none _)).trans
    (or_iff_left fun ⟨_, h, _⟩ => absurd h (Option.not_mem_none _))

/-! ## The parts over the names -/

variable {names names' : List (List Char)} {parts : List (List Char)} {reach : List Bool}

theorem Denotes.mono (hspelled : ∀ part name, Spelled part name → Spelled' part name)
    (h : Denotes Spelled parts names) : Denotes Spelled' parts names := by
  induction h with
  | nil => exact .nil
  | part hpart hs _ ih => exact .part hpart (hspelled _ _ hs) ih
  | deep span _ ih => exact .deep span ih

/-- What a part stands for at the front of the names. -/
theorem denotes_cons_iff : Denotes Spelled (part :: parts) names ↔
    if part = deep then ∃ rest, rest <:+ names ∧ Denotes Spelled parts rest
    else ∃ name rest, names = name :: rest ∧ Spelled part name ∧ Denotes Spelled parts rest := by
  constructor
  · rintro (_ | ⟨hpart, hs, hrest⟩ | ⟨span, hrest⟩)
    · rw [if_neg hpart]
      exact ⟨_, _, rfl, hs, hrest⟩
    · rw [if_pos rfl]
      exact ⟨_, suffix_append span _, hrest⟩
  · intro h
    split at h
    · next hpart =>
      obtain ⟨rest, ⟨span, rfl⟩, hrest⟩ := h
      exact hpart ▸ .deep span hrest
    · next hpart =>
      obtain ⟨name, rest, rfl, hs, hrest⟩ := h
      exact .part hpart hs hrest

/-- A reach has come to a rest of the names that `P` holds of. -/
def Reaches (P : List (List Char) → Prop) (reach : List Bool) (names : List (List Char)) : Prop :=
  ∃ n, reach[n]? = some true ∧ P (names.drop n)

theorem getElem?_spread : ∀ {reach : List Bool} {seen : Bool} {n : ℕ},
    (spread seen reach)[n]? = some true ↔
      n < reach.length ∧ (seen = true ∨ ∃ m ≤ n, reach[m]? = some true)
  | [], seen, n | reached :: reach, seen, 0 => by simp [spread]
  | reached :: reach, seen, n + 1 => by
    rw [spread, getElem?_cons_succ, getElem?_spread, length_cons, Bool.or_eq_true, or_assoc]
    refine and_congr (succ_lt_succ_iff).symm (or_congr_right ⟨?_, ?_⟩)
    · rintro (rfl | ⟨m, hm, hreach⟩)
      · exact ⟨0, Nat.zero_le _, rfl⟩
      · exact ⟨m + 1, succ_le_succ hm, hreach⟩
    · rintro ⟨m, hm, hreach⟩
      cases m with
      | zero => exact .inl (Option.some.inj hreach)
      | succ m => exact .inr ⟨m, le_of_succ_le_succ hm, hreach⟩

@[simp] theorem length_spread : ∀ {reach : List Bool} {seen : Bool},
    (spread seen reach).length = reach.length
  | [], _ => rfl
  | _ :: _, _ => congrArg (· + 1) length_spread

theorem length_advance (h : reach.length = names.length + 1) :
    (advance names reach part).length = names.length + 1 := by
  unfold advance
  split
  · rw [length_spread, h]
  · rw [length_cons, length_zipWith, h]
    omega

variable {P : List (List Char) → Prop}

/-- What a `**` reaches. -/
theorem reaches_spread (h : reach.length = names.length + 1) :
    Reaches P (spread false reach) names ↔
      Reaches (fun rest => ∃ rest', rest' <:+ rest ∧ P rest') reach names := by
  constructor
  · rintro ⟨n, hn, hP⟩
    obtain ⟨-, hseen | ⟨m, hm, hreach⟩⟩ := getElem?_spread.mp hn
    · exact nomatch hseen
    · refine ⟨m, hreach, _, ?_, hP⟩
      rw [← Nat.add_sub_cancel' hm, ← drop_drop]
      exact drop_suffix _ _
  · rintro ⟨m, hreach, rest, hrest, hP⟩
    have hm : m < reach.length := (List.getElem?_eq_some_iff.mp hreach).1
    rw [suffix_iff_eq_drop] at hrest
    rw [hrest, drop_drop] at hP
    have hle := length_drop (l := names) (i := m)
    refine ⟨_, getElem?_spread.mpr ⟨?_, .inr ⟨m, Nat.le_add_right _ _, hreach⟩⟩, hP⟩
    omega

/-- What any other part reaches. -/
theorem reaches_advance (hpart : part ≠ deep) : Reaches P (advance names reach part) names ↔
      Reaches (fun rest => ∃ name rest', rest = name :: rest' ∧ Spells Literal part name ∧ P rest')
        reach names := by
  rw [advance, if_neg hpart]
  constructor
  · rintro ⟨n, hn, hP⟩
    cases n with
    | zero => exact nomatch hn
    | succ n =>
      rw [getElem?_cons_succ, getElem?_zipWith_eq_some] at hn
      obtain ⟨reached, name, hreach, hname, hboth⟩ := hn
      rw [Bool.and_eq_true, componentMatches_iff] at hboth
      obtain ⟨rfl, hspells⟩ := hboth
      exact ⟨n, hreach, name, _, (drop_eq_getElem?_toList_append ..).trans (by simp [hname]), hspells, hP⟩
  · rintro ⟨n, hreach, name, rest, hdrop, hspells, hP⟩
    refine ⟨n + 1, ?_, ?_⟩
    · rw [getElem?_cons_succ, getElem?_zipWith_eq_some]
      refine ⟨true, name, hreach, ?_, ?_⟩
      · rw [← head?_drop, hdrop]
        rfl
      · rw [Bool.true_and, componentMatches_iff]
        exact hspells
    · rw [← tail_drop, hdrop]
      exact hP

/-- **The pass invariant**: the parts still to come denote some rest that is reached. -/
theorem reaches_foldl : ∀ {parts : List (List Char)} {reach : List Bool},
    reach.length = names.length + 1 →
      ((parts.foldl (advance names) reach).getLast? = some true ↔
        Reaches (Denotes (Spells Literal) parts) reach names)
  | [], reach, h => by
    rw [foldl_nil, getLast?_eq_getElem?, h, Nat.add_sub_cancel]
    constructor
    · intro hlast
      exact ⟨_, hlast, by rw [drop_length]; exact .nil⟩
    · rintro ⟨n, hn, hrest⟩
      have hlt := (List.getElem?_eq_some_iff.mp hn).1
      have hnil : names.drop n = [] := by
        generalize names.drop n = rest at hrest
        cases hrest
        rfl
      rw [drop_eq_nil_iff] at hnil
      rwa [Nat.le_antisymm hnil (by omega)]
  | part :: parts, reach, h => by
    rw [foldl_cons, reaches_foldl (length_advance h)]
    by_cases hpart : part = deep
    · rw [advance, if_pos hpart, reaches_spread h]
      simp only [Reaches, denotes_cons_iff, if_pos hpart]
    · rw [reaches_advance hpart]
      simp only [Reaches, denotes_cons_iff, if_neg hpart]

/-- **What a glob matches**: the language in which a star that meets a `*` is that character. -/
theorem globMatches_iff {glob path : List Char} : globMatches glob path = true ↔
    Denotes (Spells Literal) (components glob) (components path) := by
  unfold globMatches
  simp only [decide_eq_true_eq]
  rw [reaches_foldl (by simp)]
  constructor
  · rintro ⟨n, hn, hdenotes⟩
    cases n with
    | zero => exact hdenotes
    | succ n =>
      rw [getElem?_cons_succ, getElem?_replicate] at hn
      split at hn
      · exact nomatch hn
      · exact nomatch hn
  · exact fun h => ⟨0, rfl, h⟩

/-- **When the matcher decides the documented language**: exactly where a path of that language is also
spelled with every star that meets a `*` standing for just it. -/
theorem globMatches_documented_iff (glob path : List Char) :
    (globMatches glob path = true ↔ Documented (components glob) (components path)) ↔
      (Documented (components glob) (components path) →
        Denotes (Spells Literal) (components glob) (components path)) := by
  rw [globMatches_iff]
  have hsound : Denotes (Spells Literal) (components glob) (components path) →
      Documented (components glob) (components path) :=
    Denotes.mono fun _ _ => Spells.mono fun _ _ _ => trivial
  exact ⟨Iff.mpr, fun h => ⟨hsound, h⟩⟩

/-- A star taken for the `*` it meets leaves the rest of the name unmatched. -/
theorem star_misses_name : isPathGlob ['*'] = true ∧ isNormalPath ['*', 'a'] = true ∧
    globMatches ['*'] ['*', 'a'] = false ∧ Documented (components ['*']) (components ['*', 'a']) := by
  refine ⟨by decide, by decide, ?_, .part (by decide) (.run ['*', 'a'] trivial .nil) .nil⟩
  rw [Bool.eq_false_iff, ne_eq, globMatches_iff]
  rintro (_ | ⟨-, hspells, -⟩ | _)
  exact nomatch (spells_cons_iff (.inr rfl)).mp hspells

variable {globs : List (List Char)} {path : List Char}

/-! ## Paths without a star -/

/-- In a name without a `*` no star meets one. -/
theorem Spells.literal (h : Spells (fun _ _ => True) part name) (hname : '*' ∉ name) :
    Spells Literal part name := by
  induction h with
  | nil => exact .nil
  | self hstar hone _ ih => exact .self hstar hone (ih fun h => hname (mem_cons_of_mem _ h))
  | one _ ih => exact .one (ih fun h => hname (mem_cons_of_mem _ h))
  | run run _ _ ih =>
    exact .run run (fun h => absurd (mem_of_mem_head? h) hname) (ih fun h => hname (mem_append_right _ h))

theorem Documented.literal (h : Documented parts names) (hnames : ∀ name ∈ names, '*' ∉ name) :
    Denotes (Spells Literal) parts names := by
  induction h with
  | nil => exact .nil
  | part hpart hspells _ ih =>
    rw [forall_mem_cons] at hnames
    exact .part hpart (hspells.literal hnames.1) (ih hnames.2)
  | deep span _ ih => exact .deep span (ih fun name h => hnames name (mem_append_right _ h))

/-- **What the bounds admit**, at a path none of whose names has a star: exactly the normal paths that
some glob of the set stands for as documented. -/
theorem admitsPath_iff (hnames : ∀ name ∈ components path, '*' ∉ name) : admitsPath globs path = true ↔
    isNormalPath path = true ∧ ∃ glob ∈ globs, Documented (components glob) (components path) := by
  simp only [admitsPath, Bool.and_eq_true, any_eq_true, globMatches_iff]
  exact and_congr_right fun _ => exists_congr fun glob => and_congr_right fun _ =>
    ⟨.mono fun _ _ => .mono fun _ _ _ => trivial, fun h => h.literal hnames⟩

/-- A component of any name. -/
theorem admitsPath_src : admitsPath [['a', '/', '*']] ['a', '/', 'b'] = true :=
  (admitsPath_iff (by decide)).mpr ⟨by decide, _, mem_singleton_self _,
    .part (by decide) (.self (by decide) (by decide) .nil)
      (.part (by decide) (.run ['b'] trivial .nil) .nil)⟩

end RepoGlobs

end Language

end Oneiron
