import Mathlib.Data.List.Basic
import Mathlib.Data.Nat.Notation

/-!
# A fragment of regular expressions

Sequences of single characters, of any character, of blanks and of simple classes with
greedy repetitions, the two anchors, and at most one group: how such a pattern is read,
and what a backtracking matcher does with it.

`parse` refuses every text outside the fragment, so that what it accepts means the same
to a matcher of the full language.
-/

namespace Beirdobot.Library.Regex

/-- What matches one character. -/
inductive Atom
  | char (c : Char)
  | any
  | blank
  | oneOf (cs : List Char)
  deriving DecidableEq

/-- A piece of a pattern; an atom is repeated between `least` and `most` times. -/
inductive Piece
  | bos
  | eos
  | opening
  | closing
  | atom (a : Atom) (least : ℕ) (most : Option ℕ)
  deriving DecidableEq

structure Pattern where
  caseless : Bool
  pieces : List Piece
  deriving DecidableEq

/-! ## Matching -/

def isBlank (c : Char) : Bool := [' ', '\t', '\n', '\x0b', '\x0c', '\r'].contains c

/-- The same letter, up to case where that is ignored. -/
def sameChar (caseless : Bool) (c d : Char) : Bool :=
  d == c || (caseless && d.toLower == c.toLower)

def Atom.accepts (caseless : Bool) : Atom → Char → Bool
  | .char c, d => sameChar caseless c d
  | .any, d => d != '\n'
  | .blank, d => isBlank d
  | .oneOf cs, d => cs.any fun c ↦ sameChar caseless c d

/-- How often an atom can be repeated at the start of the rest. -/
def Atom.reach (caseless : Bool) (a : Atom) (most : Option ℕ) (rest : List Char) : ℕ :=
  let n := (rest.takeWhile (a.accepts caseless)).length
  most.elim n (min n)

/-- The end of a match of the pieces at a position, with the positions of the brackets;
more repetitions are tried first. -/
def run (caseless : Bool) : List Piece → List Char → ℕ → List ℕ → Option (ℕ × List ℕ)
  | [], _, pos, marks => some (pos, marks)
  | .bos :: pieces, rest, pos, marks => if pos = 0 then run caseless pieces rest pos marks else none
  | .eos :: pieces, rest, pos, marks =>
      if rest = [] ∨ rest = ['\n'] then run caseless pieces rest pos marks else none
  | .opening :: pieces, rest, pos, marks | .closing :: pieces, rest, pos, marks =>
      run caseless pieces rest pos (marks ++ [pos])
  | .atom a least most :: pieces, rest, pos, marks =>
      let n := a.reach caseless most rest
      (List.range (n + 1 - least)).findSome? fun k ↦
        run caseless pieces (rest.drop (n - k)) (pos + (n - k)) marks

/-- The first position with a match, with its end and the positions of the brackets. -/
def search (re : Pattern) : List Char → ℕ → Option (ℕ × ℕ × List ℕ)
  | [], pos => (run re.caseless re.pieces [] pos []).map (pos, ·)
  | c :: rest, pos =>
      ((run re.caseless re.pieces (c :: rest) pos []).map (pos, ·)).or (search re rest (pos + 1))

/-- What is no letter is the lower case of itself only. -/
theorem eq_of_toLower {c d : Char} (hd : d.isAlpha = false) (h : c.toLower = d) : c = d := by
  delta Char.toLower at h
  split at h
  · rename_i hc
    obtain ⟨hle, hle'⟩ := hc
    have hlower : (decide (d.val ≥ 'a'.val) && decide (d.val ≤ 'z'.val)) = false :=
      (Bool.or_eq_false_iff.mp hd).2
    rw [← h] at hlower
    simp only [Bool.and_eq_false_iff, decide_eq_false_iff_not, ge_iff_le, UInt32.le_iff_toNat_le,
      UInt32.toNat_add, UInt32.toNat_sub] at hlower hle hle'
    simp only [Char.reduceVal, UInt32.reduceToNat] at hlower hle hle'
    omega
  · exact h

theorem sameChar_of_not_isAlpha {caseless : Bool} {c d : Char} (hc : c.isAlpha = false)
    (hlower : c.toLower = c) (h : sameChar caseless c d = true) : d = c := by
  rw [sameChar, Bool.or_eq_true, beq_iff_eq, Bool.and_eq_true, beq_iff_eq, hlower] at h
  rcases h with h | ⟨-, h⟩
  · exact h
  · exact eq_of_toLower hc h

theorem isAlpha_of_isBlank {c : Char} (hc : isBlank c = true) :
    c.isAlpha = false ∧ c.toLower = c := by
  rw [isBlank, List.contains_iff_mem] at hc
  simp only [List.mem_cons, List.not_mem_nil, or_false] at hc
  rcases hc with rfl | rfl | rfl | rfl | rfl | rfl <;> decide

theorem isBlank_toLower (c : Char) : isBlank c.toLower = isBlank c := by
  rw [Bool.eq_iff_iff]
  constructor
  · intro h
    rwa [← eq_of_toLower (isAlpha_of_isBlank h).1 rfl] at h
  · intro h
    rwa [(isAlpha_of_isBlank h).2]

/-! ## Reading -/

/-- Characters that do not stand for themselves. -/
def special (c : Char) : Bool := "\\^$.[|()?*+".toList.contains c

/-- What the reader is in the middle of. -/
inductive Mode
  | normal
  | escape
  | opened
  | cls (cs : List Char)
  deriving DecidableEq

/-- The mode, and the pieces from the last one back. -/
structure Reading where
  mode : Mode
  pieces : List Piece
  deriving DecidableEq

def Reading.push (r : Reading) (piece : Piece) : Reading := ⟨.normal, piece :: r.pieces⟩

/-- A repetition of the last piece, which is an atom without one. -/
def Reading.quantify (r : Reading) (least : ℕ) (most : Option ℕ) : Option Reading :=
  match r.pieces with
  | .atom a 1 (some 1) :: pieces => some ⟨.normal, .atom a least most :: pieces⟩
  | _ => none

/-- A character outside of escapes, brackets and classes. -/
def Reading.plain (r : Reading) (c : Char) : Option Reading :=
  if special c = false then some (r.push (.atom (.char c) 1 (some 1)))
  else if c = '.' then some (r.push (.atom .any 1 (some 1)))
  else if c = '^' then some (r.push .bos)
  else if c = '$' then some (r.push .eos)
  else if c = ')' then some (r.push .closing)
  else if c = '(' then some { r with mode := .opened }
  else if c = '[' then some { r with mode := .cls [] }
  else if c = '\\' then some { r with mode := .escape }
  else if c = '?' then r.quantify 0 (some 1)
  else if c = '*' then r.quantify 0 none
  else if c = '+' then r.quantify 1 none
  else none

/-- The next character. -/
def read (r : Reading) (c : Char) : Option Reading :=
  match r.mode with
  | .normal => r.plain c
  | .escape => if c = 's' then some (r.push (.atom .blank 1 (some 1))) else none
  | .opened => if c = '?' ∨ c = '*' then none else (r.push .opening).plain c
  | .cls cs =>
      if c = ']' then if cs = [] then none else some (r.push (.atom (.oneOf cs) 1 (some 1)))
      else if c = '\\' ∨ c = '^' ∨ c = '-' ∨ c = '[' then none
      else some { r with mode := .cls (cs ++ [c]) }

/-- What stands behind an opening brace makes it a repetition: digits, and perhaps a comma
with digits or none, from what was read of it. -/
def bounds : ℕ → List Char → Bool
  | _, [] => false
  | 0, c :: s => c.isDigit && bounds 1 s
  | 1, c :: s => if c.isDigit then bounds 1 s else c == '}' || (c == ',' && bounds 2 s)
  | _, c :: s => if c.isDigit then bounds 2 s else c == '}'

/-- There is a repetition in braces. -/
def bounded : List Char → Bool
  | [] => false
  | c :: s => (c == '{' && bounds 0 s) || bounded s

/-- There is no group, or one. -/
def grouped (pieces : List Piece) : Bool :=
  let brackets := pieces.filter fun piece ↦ piece == .opening || piece == .closing
  brackets == [] || brackets == [.opening, .closing]

def parsePieces (text : List Char) : Option (List Piece) :=
  (text.foldlM read ⟨.normal, []⟩).bind fun r ↦
    if r.mode = .normal ∧ grouped r.pieces.reverse = true then some r.pieces.reverse else none

/-- The pattern of a text of the fragment. -/
def parse (text : List Char) : Option Pattern :=
  if bounded text then none
  else
    match text with
    | '(' :: '?' :: 'i' :: ')' :: text => (parsePieces text).map (⟨true, ·⟩)
    | text => (parsePieces text).map (⟨false, ·⟩)

/-! ## What is read -/

section Reading

variable {r : Reading}

/-- What stands for a character of a text without other special characters than the dot. -/
def item (c : Char) : Piece := .atom (if c = '.' then .any else .char c) 1 (some 1)

theorem read_items {s : List Char} (hs : ∀ c ∈ s, special c = false ∨ c = '.')
    (pieces : List Piece) :
    s.foldlM read ⟨.normal, pieces⟩ = some ⟨.normal, (s.map item).reverse ++ pieces⟩ := by
  induction s generalizing pieces with
  | nil => rfl
  | cons c s ih =>
      have hc : read ⟨.normal, pieces⟩ c = some ⟨.normal, item c :: pieces⟩ := by
        rw [read, Reading.plain, item]
        rcases hs c List.mem_cons_self with hc | rfl
        · have hdot : c ≠ '.' := by
            rintro rfl
            cases hc
          rw [if_pos hc, if_neg hdot]
          rfl
        · rfl
      rw [List.foldlM_cons, hc, List.map_cons, List.reverse_cons, List.append_assoc]
      exact ih (fun d hd ↦ hs d (List.mem_cons_of_mem _ hd)) _

theorem bounded_cons {c : Char} (hc : (c == '{') = false) (s : List Char) :
    bounded (c :: s) = bounded s := by
  rw [bounded, hc, Bool.false_and, Bool.false_or]

/-- A character that cannot be in a repetition ends what can be one. -/
theorem bounds_append {c : Char} (hdigit : c.isDigit = false) (hcomma : c ≠ ',') (hbrace : c ≠ '}')
    (n : ℕ) (s t : List Char) : bounds n (s ++ c :: t) = bounds n s := by
  induction n, s using bounds.induct with
  | case1 n => rcases n with _ | _ | n <;> simp [bounds, hdigit, hcomma, hbrace]
  | case2 d s ih => rw [List.cons_append, bounds, bounds, ih]
  | case3 d s hd ih => rw [List.cons_append, bounds, bounds, if_pos hd, if_pos hd, ih]
  | case4 d s hd ih => rw [List.cons_append, bounds, bounds, if_neg hd, if_neg hd, ih]
  | case5 n d s h0 h1 hd ih => rw [List.cons_append, bounds, bounds, if_pos hd, if_pos hd, ih] <;> assumption
  | case6 n d s h0 h1 hd => rw [List.cons_append, bounds, bounds, if_neg hd, if_neg hd] <;> assumption

theorem bounded_append {c : Char} (hdigit : c.isDigit = false) (hcomma : c ≠ ',') (hbrace : c ≠ '}')
    (s t : List Char) : bounded (s ++ c :: t) = (bounded s || bounded (c :: t)) := by
  induction s with
  | nil => rfl
  | cons d s ih =>
      rw [List.cons_append, bounded, ih, bounds_append hdigit hcomma hbrace, ← Bool.or_assoc]
      rfl

/-- More text does not undo a repetition. -/
theorem bounds_of_prefix (n : ℕ) (s t : List Char) (h : bounds n s = true) :
    bounds n (s ++ t) = true := by
  induction n, s using bounds.induct with
  | case1 n => cases n <;> cases h
  | case2 d s ih =>
      rw [bounds, Bool.and_eq_true] at h
      rw [List.cons_append, bounds, h.1, ih h.2, Bool.and_self]
  | case3 d s hd ih =>
      rw [bounds, if_pos hd] at h
      rw [List.cons_append, bounds, if_pos hd, ih h]
  | case4 d s hd ih =>
      rw [bounds, if_neg hd] at h
      rw [List.cons_append, bounds, if_neg hd]
      rcases Bool.or_eq_true_iff.mp h with h | h
      · rw [h, Bool.true_or]
      · rw [Bool.and_eq_true] at h
        rw [h.1, ih h.2, Bool.and_self, Bool.or_true]
  | case5 n d s h0 h1 hd ih =>
      rw [bounds, if_pos hd] at h
      · rw [List.cons_append, bounds, if_pos hd, ih h] <;> assumption
      · assumption
      · assumption
  | case6 n d s h0 h1 hd =>
      rw [bounds, if_neg hd] at h
      · rw [List.cons_append, bounds, if_neg hd, h] <;> assumption
      · assumption
      · assumption

theorem bounded_of_prefix (s t : List Char) (h : bounded s = true) : bounded (s ++ t) = true := by
  induction s with
  | nil => cases h
  | cons c s ih =>
      rw [bounded] at h
      rw [List.cons_append, bounded]
      rcases Bool.or_eq_true_iff.mp h with h | h
      · rw [Bool.and_eq_true] at h
        rw [h.1, bounds_of_prefix 0 s t h.2, Bool.and_self, Bool.true_or]
      · rw [ih h, Bool.or_true]

end Reading

/-! ## What is matched -/

section Matching

variable {caseless : Bool} {a : Atom} {least : ℕ} {most : Option ℕ} {pieces : List Piece}
  {rest : List Char} {pos : ℕ} {marks : List ℕ} {r : ℕ × List ℕ}

/-- A match of a repetition takes some number of characters. -/
theorem exists_of_run_atom (h : run caseless (.atom a least most :: pieces) rest pos marks = some r) :
    ∃ n, least ≤ n ∧ n ≤ a.reach caseless most rest ∧
      run caseless pieces (rest.drop n) (pos + n) marks = some r := by
  rw [run] at h
  obtain ⟨k, hk, hrun⟩ := List.exists_of_findSome?_eq_some h
  rw [List.mem_range] at hk
  exact ⟨a.reach caseless most rest - k, by omega, by omega, hrun⟩

/-- The greatest number is the first that is tried. -/
theorem run_atom_of (hleast : least ≤ a.reach caseless most rest)
    (h : run caseless pieces (rest.drop (a.reach caseless most rest))
      (pos + a.reach caseless most rest) marks = some r) :
    run caseless (.atom a least most :: pieces) rest pos marks = some r := by
  rw [run]
  rw [Nat.succ_sub hleast, List.range_succ_eq_map, List.findSome?_cons, Nat.sub_zero, h]

theorem reach_le (a : Atom) (most : Option ℕ) (rest : List Char) :
    a.reach caseless most rest ≤ (rest.takeWhile (a.accepts caseless)).length := by
  cases most with
  | none => exact Nat.le_refl _
  | some n => exact Nat.min_le_left _ _

theorem reach_some_le (a : Atom) (n : ℕ) (rest : List Char) :
    a.reach caseless (some n) rest ≤ n :=
  Nat.min_le_right _ _

theorem reach_one_cons (c : Char) (rest : List Char) :
    a.reach caseless (some 1) (c :: rest) = if a.accepts caseless c = true then 1 else 0 := by
  rw [Atom.reach]
  by_cases hc : a.accepts caseless c = true
  · rw [if_pos hc, List.takeWhile_cons_of_pos hc, List.length_cons]
    exact Nat.min_eq_right (Nat.succ_le_succ (Nat.zero_le _))
  · rw [if_neg hc, List.takeWhile_cons_of_neg hc]
    rfl

/-- What an atom takes are characters that it accepts. -/
theorem accepts_of_reach {n : ℕ} (h : n ≤ a.reach caseless most rest) :
    (rest.take n).length = n ∧ ∀ c ∈ rest.take n, a.accepts caseless c = true := by
  have hle := Nat.le_trans h (reach_le a most rest)
  have htake : rest.take n = (rest.takeWhile (a.accepts caseless)).take n := by
    have happ := List.takeWhile_append_dropWhile (p := a.accepts caseless) (l := rest)
    conv_lhs => rw [← happ]
    exact List.take_append_of_le_length hle
  constructor
  · rw [htake, List.length_take, Nat.min_eq_left hle]
  · intro c hc
    rw [htake] at hc
    exact List.all_eq_true.mp List.all_takeWhile c (List.mem_of_mem_take hc)

/-- Without a bound an atom reaches to the first character that it does not accept. -/
theorem reach_append {w : List Char} (hw : ∀ c ∈ w, a.accepts caseless c = true)
    (hrest : ∀ c ∈ rest.head?, a.accepts caseless c = false) :
    a.reach caseless none (w ++ rest) = w.length := by
  have hnil : rest.takeWhile (a.accepts caseless) = [] := by
    cases rest with
    | nil => rfl
    | cons c rest =>
        rw [List.takeWhile_cons_of_neg]
        rw [hrest c rfl]
        exact Bool.noConfusion
  show ((w ++ rest).takeWhile _).length = _
  rw [List.takeWhile_append_of_pos hw, hnil, List.append_nil]

/-- An atom on its own takes one character. -/
theorem run_one_cons (c : Char) (rest : List Char) :
    run caseless (.atom a 1 (some 1) :: pieces) (c :: rest) pos marks =
      if a.accepts caseless c = true then run caseless pieces rest (pos + 1) marks else none := by
  rw [run, reach_one_cons]
  by_cases hc : a.accepts caseless c = true
  · rw [if_pos hc, if_pos hc]
    cases hrun : run caseless pieces rest (pos + 1) marks <;> simp [hrun]
  · rw [if_neg hc, if_neg hc]
    rfl

theorem run_one_nil : run caseless (.atom a 1 (some 1) :: pieces) [] pos marks = none := by
  rw [run]
  rfl

/-- The characters that a text of items matches. -/
def Spells (caseless : Bool) : List Char → List Char → Prop :=
  List.Forall₂ fun c d ↦
    (if c = '.' then Atom.any else Atom.char c).accepts caseless d = true

theorem run_items {text w : List Char} (h : Spells caseless text w) (rest : List Char) (pos : ℕ) :
    run caseless (text.map item ++ pieces) (w ++ rest) pos marks =
      run caseless pieces rest (pos + w.length) marks := by
  induction h generalizing pos with
  | nil => rfl
  | cons hc _ ih =>
      rw [List.map_cons, List.cons_append, List.cons_append, item, run_one_cons, if_pos hc, ih,
        List.length_cons, Nat.add_right_comm, Nat.add_assoc]

theorem exists_of_run_items {text : List Char}
    (h : run caseless (text.map item ++ pieces) rest pos marks = some r) :
    ∃ w rest', rest = w ++ rest' ∧ Spells caseless text w ∧
      run caseless pieces rest' (pos + w.length) marks = some r := by
  induction text generalizing rest pos with
  | nil => exact ⟨[], rest, rfl, .nil, h⟩
  | cons c text ih =>
      rw [List.map_cons, List.cons_append, item] at h
      cases rest with
      | nil =>
          rw [run_one_nil] at h
          cases h
      | cons d rest =>
          rw [run_one_cons] at h
          by_cases hd : (if c = '.' then Atom.any else Atom.char c).accepts caseless d = true
          · rw [if_pos hd] at h
            obtain ⟨w, rest', rfl, hw, hrun⟩ := ih h
            refine ⟨d :: w, rest', rfl, .cons hd hw, ?_⟩
            rwa [List.length_cons, Nat.add_comm w.length 1, ← Nat.add_assoc]
          · rw [if_neg hd] at h
            cases h

/-- A pattern that begins with `^` matches nowhere but at the start. -/
theorem search_bos (re : Pattern) (hre : re.pieces = .bos :: pieces) (rest : List Char) (pos : ℕ) :
    search re rest pos =
      if pos = 0 then (run re.caseless pieces rest 0 []).map (0, ·) else none := by
  have hpast : ∀ (rest : List Char) (pos : ℕ), pos ≠ 0 → search re rest pos = none := by
    intro rest
    induction rest with
    | nil =>
        intro pos hpos
        rw [search, hre, run, if_neg hpos]
        rfl
    | cons c rest ih =>
        intro pos hpos
        rw [search, hre, run, if_neg hpos, ih (pos + 1) (Nat.succ_ne_zero pos)]
        rfl
  by_cases hpos : pos = 0
  · subst hpos
    rw [if_pos rfl]
    cases rest with
    | nil => rw [search, hre, run, if_pos rfl]
    | cons c rest =>
        rw [search, hre, run, if_pos rfl, hpast rest _ (Nat.succ_ne_zero 0), Option.or_none]
  · rw [if_neg hpos, hpast rest pos hpos]

end Matching

end Beirdobot.Library.Regex
