import Beirdobot.Libc
import Beirdobot.Library.System
import Mathlib.Data.Int.Init
import Mathlib.Data.List.Count

/-!
# The word wrap of the details window

A transcription of the `ALIGN_WRAP` case of `curses_output_thread`.  The cursors are
positions in the text; the lines that fall outside of the window are put down like those
that are drawn.
-/

namespace Beirdobot.Curses

open Library

/-- A line: where it begins in the text, its length, and its row in the window. -/
structure Line where
  start : ℤ
  length : ℤ
  y : ℤ
  deriving DecidableEq

/-- The variables of the loop, and the lines so far. -/
structure Wrap where
  string : ℤ
  len : ℤ
  word : ℤ
  linelen : ℤ
  y : ℤ
  lines : List Line
  deriving DecidableEq

/-- A line of some length is put down, and some characters behind it are passed. -/
def Wrap.put (s : Wrap) (length skipped : ℤ) : Wrap :=
  { s with
    string := s.string + length + skipped
    len := s.len - (length + skipped)
    word := s.string + length + skipped
    y := s.y + 1
    lines := s.lines ++ [⟨s.string, length, s.y⟩] }

/-- The characters of `" \t\n\r"`. -/
def isBlank (c : Char) : Bool := c = ' ' || c = '\t' || c = '\n' || c = '\r'

/-- What comes of a test of the condition and a turn. -/
inductive Turn
  | ends
  | outside
  | goes (s : Wrap)
  deriving DecidableEq

section Text

variable (text : CString) (linewidth maxy : ℤ)

def charAt (p : ℤ) : Option Char := if 0 ≤ p then text[p.toNat]? else none

/-- `strpbrk( word, " \t\n\r" )` -/
def strpbrk (word : ℤ) : Option ℤ :=
  ((text.drop word.toNat).findIdx? isBlank).map fun k : ℕ ↦ word + k

/-- `len <= linewidth && y >= 0 && y < maxy` -/
def Wrap.Shown (s : Wrap) : Prop := s.len ≤ linewidth ∧ 0 ≤ s.y ∧ s.y < maxy

instance (s : Wrap) : Decidable (s.Shown linewidth maxy) :=
  inferInstanceAs (Decidable (_ ∧ _ ∧ _))

/-- `while( len && *string )` -/
def turn (s : Wrap) : Turn :=
  if s.len = 0 then .ends
  else if s.string < 0 ∨ text.length < s.string then .outside
  else if s.string = text.length then .ends
  else if s.Shown linewidth maxy then
    .goes { s with len := 0, lines := s.lines ++ [⟨s.string, s.len, s.y⟩] }
  else
    match strpbrk text s.word with
    | none =>
        if s.linelen ≠ 0 then .goes (s.put s.linelen 1)
        else .goes (s.put (linewidth - 2) 0)
    | some ch =>
        if linewidth < ch - s.string then
          if s.linelen = 0 then .goes (s.put (linewidth - 2) 0)
          else .goes { s.put s.linelen 1 with linelen := 0 }
        else if charAt text ch = some '\n' ∨ charAt text ch = some '\r' then
          .goes { s.put (ch - s.string) 1 with linelen := 0 }
        else .goes { s with linelen := ch - s.string, word := ch + 1 }

/-- The loop over a text whose first line falls on a row of the window. -/
def wordWrap (y : ℤ) : System Wrap Unit where
  init s := s = ⟨0, text.length, 0, 0, y, []⟩
  step s _ :=
    match turn text linewidth maxy s with
    | .goes s' => some s'
    | _ => none

/-- The characters of a line. -/
def Line.Holds (l : Line) (p : ℤ) : Prop := l.start ≤ p ∧ p < l.start + l.length

instance (l : Line) (p : ℤ) : Decidable (l.Holds p) := inferInstanceAs (Decidable (_ ∧ _))

/-- The number of lines that hold a character. -/
def holders (lines : List Line) (p : ℤ) : ℕ := lines.countP fun l ↦ decide (l.Holds p)

/-- The loop ends, stays in the text, and puts every character that is no blank in one line
of the width at most; every line has a row of its own.  Behind the branch that shows all
that is left, the cursor stays where it is. -/
structure Wraps (y : ℤ) : Prop where
  terminates : ∀ s, (wordWrap text linewidth maxy y).init s →
    (wordWrap text linewidth maxy y).Terminates (fun _ _ ↦ True) s
  inside : ∀ s, (wordWrap text linewidth maxy y).Reachable s →
    turn text linewidth maxy s ≠ .outside
  cursor : ∀ s, (wordWrap text linewidth maxy y).Reachable s →
    0 ≤ s.len ∧ (s.len ≠ 0 → s.string + s.len = text.length)
  width : ∀ s, (wordWrap text linewidth maxy y).Reachable s →
    ∀ l ∈ s.lines, 0 ≤ l.length ∧ l.length ≤ linewidth
  counted : ∀ s, (wordWrap text linewidth maxy y).Reachable s →
    s.lines.map Line.y = (List.range s.lines.length).map fun k : ℕ ↦ y + k
  once : ∀ s, (wordWrap text linewidth maxy y).Reachable s →
    turn text linewidth maxy s = .ends →
    ∀ p c, charAt text p = some c → isBlank c = false → holders s.lines p = 1

/-- A word can be cut off the rest: the column is not too narrow and there is enough left,
or nothing is cut off until the rest comes into the window. -/
def Wrap.Cuts (s : Wrap) : Prop :=
  (3 ≤ linewidth ∧ linewidth - 2 ≤ s.len) ∨ (linewidth = 2 ∧ s.len ≤ 2 ∧ s.y < 0 ∧ 0 < maxy)

/-- The turn goes wrong: behind the last blank, the length of an earlier line is left over
or a word is cut that cannot be, or a word that is too long is in a column that is too
narrow. -/
def Wrap.Bad (s : Wrap) : Prop :=
  s.len ≠ 0 ∧ ¬ s.Shown linewidth maxy ∧
    match strpbrk text s.word with
    | none => if s.linelen ≠ 0 then s.word = s.string else ¬ s.Cuts linewidth maxy
    | some ch => linewidth < ch - s.string ∧ s.linelen = 0 ∧ linewidth ≤ 2

end Text

/-! ## Characters and blanks -/

section Blanks

variable {text : CString} {p word ch : ℤ} {c : Char}

theorem charAt_eq_some_iff : charAt text p = some c ↔ ∃ i : ℕ, p = i ∧ text[i]? = some c := by
  rw [charAt]
  split
  · rename_i hp
    constructor
    · exact fun h ↦ ⟨p.toNat, (Int.toNat_of_nonneg hp).symm, h⟩
    · rintro ⟨i, rfl, h⟩
      rwa [Int.toNat_natCast]
  · rename_i hp
    refine iff_of_false (Option.some_ne_none c).symm ?_
    rintro ⟨i, rfl, -⟩
    exact hp (Int.natCast_nonneg i)

theorem charAt_lt (h : charAt text p = some c) : 0 ≤ p ∧ p < text.length := by
  obtain ⟨i, rfl, hi⟩ := charAt_eq_some_iff.mp h
  obtain ⟨hlt, -⟩ := List.getElem?_eq_some_iff.mp hi
  exact ⟨Int.natCast_nonneg i, Int.ofNat_lt.mpr hlt⟩

theorem exists_charAt (h : 0 ≤ p) (hlt : p < text.length) : ∃ c, charAt text p = some c := by
  have hi : p.toNat < text.length := by omega
  exact ⟨text[p.toNat], charAt_eq_some_iff.mpr
    ⟨p.toNat, (Int.toNat_of_nonneg h).symm, List.getElem?_eq_getElem hi⟩⟩

theorem strpbrk_none (hword : 0 ≤ word) (h : strpbrk text word = none) (hp : word ≤ p)
    (hc : charAt text p = some c) : isBlank c = false := by
  obtain ⟨i, rfl, hi⟩ := charAt_eq_some_iff.mp hc
  have hnone := List.findIdx?_eq_none_iff.mp (Option.map_eq_none_iff.mp h)
  refine hnone c (List.mem_of_getElem? (i := i - word.toNat) ?_)
  rw [List.getElem?_drop, Nat.add_sub_cancel' (by omega)]
  exact hi

theorem strpbrk_some (hword : 0 ≤ word) (h : strpbrk text word = some ch) :
    word ≤ ch ∧ (∃ c, charAt text ch = some c ∧ isBlank c = true) ∧
      ∀ p c, word ≤ p → p < ch → charAt text p = some c → isBlank c = false := by
  obtain ⟨k, hk, rfl⟩ := Option.map_eq_some_iff.mp h
  obtain ⟨hlt, hblank, hbefore⟩ := List.findIdx?_eq_some_iff_getElem.mp hk
  refine ⟨by omega, ⟨_, charAt_eq_some_iff.mpr ⟨word.toNat + k, by omega, ?_⟩, hblank⟩, ?_⟩
  · rw [← List.getElem?_drop, List.getElem?_eq_getElem hlt]
  · intro p c hp hpch hc
    obtain ⟨i, rfl, hi⟩ := charAt_eq_some_iff.mp hc
    have hj : i - word.toNat < k := by omega
    have hfalse := hbefore (i - word.toNat) hj
    rw [Bool.not_eq_true] at hfalse
    have hsame : (text.drop word.toNat)[i - word.toNat]? = some c := by
      rw [List.getElem?_drop, Nat.add_sub_cancel' (by omega)]
      exact hi
    rw [List.getElem?_eq_getElem (by omega), Option.some.injEq] at hsame
    rwa [hsame] at hfalse

end Blanks

/-! ## A turn -/

section Turns

variable {text : CString} {linewidth maxy y : ℤ} {s s' : Wrap}

theorem turn_shown (hlen : s.len ≠ 0) (hstring : 0 ≤ s.string) (hlt : s.string < text.length)
    (hs : s.Shown linewidth maxy) : turn text linewidth maxy s =
      .goes { s with len := 0, lines := s.lines ++ [⟨s.string, s.len, s.y⟩] } := by
  rw [turn, if_neg hlen, if_neg (by omega), if_neg (by omega), if_pos hs]

theorem turn_none (hlen : s.len ≠ 0) (hstring : 0 ≤ s.string) (hlt : s.string < text.length)
    (hs : ¬ s.Shown linewidth maxy) (hch : strpbrk text s.word = none) :
    turn text linewidth maxy s =
      if s.linelen ≠ 0 then .goes (s.put s.linelen 1) else .goes (s.put (linewidth - 2) 0) := by
  rw [turn, if_neg hlen, if_neg (by omega), if_neg (by omega), if_neg hs, hch]

theorem turn_some {ch : ℤ} (hlen : s.len ≠ 0) (hstring : 0 ≤ s.string)
    (hlt : s.string < text.length) (hs : ¬ s.Shown linewidth maxy)
    (hch : strpbrk text s.word = some ch) : turn text linewidth maxy s =
      if linewidth < ch - s.string then
        if s.linelen = 0 then .goes (s.put (linewidth - 2) 0)
        else .goes { s.put s.linelen 1 with linelen := 0 }
      else if charAt text ch = some '\n' ∨ charAt text ch = some '\r' then
        .goes { s.put (ch - s.string) 1 with linelen := 0 }
      else .goes { s with linelen := ch - s.string, word := ch + 1 } := by
  rw [turn, if_neg hlen, if_neg (by omega), if_neg (by omega), if_neg hs, hch]

theorem holders_append (lines : List Line) (l : Line) (p : ℤ) :
    holders (lines ++ [l]) p = holders lines p + if l.Holds p then 1 else 0 := by
  rw [holders, holders, List.countP_append, List.countP_singleton]
  simp only [decide_eq_true_eq]

/-- What holds as long as no turn goes wrong. -/
structure Kept (text : CString) (linewidth y : ℤ) (s : Wrap) : Prop where
  string : 0 ≤ s.string
  len : 0 ≤ s.len
  cursor : s.len ≠ 0 → s.string + s.len = text.length
  /-- No words have been passed, or there are none that end with a blank, or the words up to
  a blank have been passed. -/
  word : s.word = s.string ∧ (s.linelen = 0 ∨ strpbrk text s.word = none) ∨
    s.word = s.string + s.linelen + 1 ∧ ∃ c, charAt text (s.string + s.linelen) = some c ∧
      isBlank c = true ∧ c ≠ '\n' ∧ c ≠ '\r'
  linelen : 0 ≤ s.linelen ∧ (s.linelen ≠ 0 → s.linelen ≤ linewidth)
  width : ∀ l ∈ s.lines, 0 ≤ l.length ∧ l.length ≤ linewidth
  row : s.len ≠ 0 → s.y = y + s.lines.length
  counted : s.lines.map Line.y = (List.range s.lines.length).map fun k : ℕ ↦ y + k
  once : ∀ p c, charAt text p = some c → isBlank c = false →
    holders s.lines p = if p < text.length - s.len then 1 else 0

namespace Kept

theorem init : Kept text linewidth y ⟨0, text.length, 0, 0, y, []⟩ where
  string := Int.le_refl 0
  len := Int.natCast_nonneg _
  cursor _ := Int.zero_add _
  word := .inl ⟨rfl, .inl rfl⟩
  linelen := ⟨Int.le_refl 0, fun h ↦ absurd rfl h⟩
  width := by rintro _ ⟨⟩
  row _ := (Int.add_zero y).symm
  counted := rfl
  once p c hc _ := by
    have hp := (charAt_lt hc).1
    rw [if_neg (by dsimp only; omega)]
    rfl

/-- One line more, with a row of its own. -/
theorem counted_append (h : Kept text linewidth y s) (hlen : s.len ≠ 0) (length : ℤ) :
    (s.lines ++ [Line.mk s.string length s.y]).map Line.y =
      (List.range (s.lines ++ [Line.mk s.string length s.y]).length).map fun k : ℕ ↦ y + k := by
  rw [List.map_append, List.length_append, List.length_singleton, List.range_succ, List.map_append,
    h.counted, List.map_singleton, List.map_singleton, h.row hlen]

/-- A line is put down, and only blanks are passed behind it. -/
theorem put {length skipped linelen : ℤ} (h : Kept text linewidth y s) (hlen : s.len ≠ 0)
    (hlength : 0 ≤ length ∧ length ≤ linewidth) (hskipped : 0 ≤ skipped)
    (hle : length + skipped ≤ s.len)
    (hblank : ∀ p c, s.string + length ≤ p → p < s.string + length + skipped →
      charAt text p = some c → isBlank c = true)
    (hlinelen : 0 ≤ linelen ∧ (linelen ≠ 0 → linelen ≤ linewidth))
    (hword : linelen = 0 ∨ strpbrk text (s.string + length + skipped) = none) :
    Kept text linewidth y { s.put length skipped with linelen } where
  string := by
    have hstring := h.string
    show 0 ≤ s.string + length + skipped
    omega
  len := by
    show 0 ≤ s.len - (length + skipped)
    omega
  cursor _ := by
    have hcursor := h.cursor hlen
    show s.string + length + skipped + (s.len - (length + skipped)) = text.length
    omega
  word := .inl ⟨rfl, hword⟩
  linelen := hlinelen
  width := by
    intro l hl
    rcases List.mem_append.mp hl with hl | hl
    · exact h.width l hl
    · rw [List.mem_singleton.mp hl]
      exact hlength
  row _ := by
    show s.y + 1 = y + (s.lines ++ [_]).length
    rw [List.length_append, List.length_singleton, h.row hlen]
    omega
  counted := h.counted_append hlen length
  once := by
    intro p c hc hnonblank
    have hcursor := h.cursor hlen
    show holders (s.lines ++ [_]) p = if p < text.length - (s.len - (length + skipped)) then 1 else 0
    have hbehind : ¬ (s.string + length ≤ p ∧ p < s.string + length + skipped) := by
      rintro ⟨hle, hlt⟩
      rw [hblank p c hle hlt hc] at hnonblank
      cases hnonblank
    rw [holders_append, h.once p c hc hnonblank]
    by_cases hdone : p < text.length - s.len
    · rw [if_pos hdone, if_neg, if_pos (by omega)]
      rintro ⟨hstart, -⟩
      dsimp only at hstart
      omega
    · rw [if_neg hdone]
      by_cases hheld : p < s.string + length
      · rw [if_pos ⟨by dsimp only; omega, by dsimp only; omega⟩, if_pos (by omega)]
      · rw [if_neg (fun hholds ↦ hheld hholds.2), if_neg (by omega)]

/-- All that is left is shown. -/
theorem shown (h : Kept text linewidth y s) (hlen : s.len ≠ 0) (hs : s.Shown linewidth maxy) :
    Kept text linewidth y { s with len := 0, lines := s.lines ++ [⟨s.string, s.len, s.y⟩] } where
  string := h.string
  len := Int.le_refl 0
  cursor hne := absurd rfl hne
  word := h.word
  linelen := h.linelen
  width := by
    intro l hl
    rcases List.mem_append.mp hl with hl | hl
    · exact h.width l hl
    · rw [List.mem_singleton.mp hl]
      exact ⟨h.len, hs.1⟩
  row hne := absurd rfl hne
  counted := h.counted_append hlen s.len
  once := by
    intro p c hc hnonblank
    have hcursor := h.cursor hlen
    have hp := charAt_lt hc
    show holders (s.lines ++ [_]) p = if p < text.length - 0 then 1 else 0
    have hall : p < (text.length : ℤ) - 0 := by omega
    rw [if_pos hall, holders_append, h.once p c hc hnonblank]
    by_cases hdone : p < text.length - s.len
    · rw [if_pos hdone, if_neg]
      rintro ⟨hstart, -⟩
      dsimp only at hstart
      omega
    · rw [if_neg hdone, if_pos ⟨by dsimp only; omega, by dsimp only; omega⟩]

theorem string_lt (h : Kept text linewidth y s) (hlen : s.len ≠ 0) : s.string < text.length := by
  have hcursor := h.cursor hlen
  have hnonneg := h.len
  omega

theorem word_nonneg (h : Kept text linewidth y s) : s.string ≤ s.word ∧ 0 ≤ s.word := by
  have hstring := h.string
  have hlinelen := h.linelen.1
  rcases h.word with ⟨hword, -⟩ | ⟨hword, -⟩ <;> omega

theorem turn_ne_outside (h : Kept text linewidth y s) : turn text linewidth maxy s ≠ .outside := by
  have hstring := h.string
  rw [turn]
  split
  · rintro ⟨⟩
  · rename_i hlen
    have hlt := h.string_lt hlen
    rw [if_neg (by omega), if_neg (by omega)]
    split
    · rintro ⟨⟩
    · split
      · split <;> rintro ⟨⟩
      · split
        · split <;> rintro ⟨⟩
        · split <;> rintro ⟨⟩

theorem len_eq_zero (h : Kept text linewidth y s)
    (hends : turn text linewidth maxy s = .ends) : s.len = 0 := by
  by_contra hlen
  have hlt := h.string_lt hlen
  by_cases hs : s.Shown linewidth maxy
  · rw [turn_shown hlen h.string hlt hs] at hends
    cases hends
  · cases hch : strpbrk text s.word with
    | none =>
        rw [turn_none hlen h.string hlt hs hch] at hends
        split at hends <;> cases hends
    | some ch =>
        rw [turn_some hlen h.string hlt hs hch] at hends
        split at hends
        · split at hends <;> cases hends
        · split at hends <;> cases hends

end Kept

/-- A turn takes characters, or counts a row above the window, or passes a word. -/
def Advances (text : CString) (s s' : Wrap) : Prop :=
  s'.len < s.len ∨
    s'.len = s.len ∧ (s.y < s'.y ∧ s.y < 0 ∨ s'.y = s.y ∧ s.word < s'.word ∧ s'.word ≤ text.length)

section Goes

variable (h : Kept text linewidth y s) (hlen : s.len ≠ 0) (hs : ¬ s.Shown linewidth maxy)
include h hlen

/-- A word is cut. -/
theorem Kept.cut (hzero : s.linelen = 0) (htwo : 2 ≤ linewidth) (hle : linewidth - 2 ≤ s.len) :
    Kept text linewidth y (s.put (linewidth - 2) 0) := by
  have hkept : Kept text linewidth y { s.put (linewidth - 2) 0 with linelen := s.linelen } := by
    refine h.put hlen ⟨by omega, by omega⟩ (Int.le_refl 0) (by omega) ?_ h.linelen (.inl hzero)
    intro p c hp hp'
    omega
  exact hkept

/-- The words up to a blank are put down. -/
theorem Kept.put_words {linelen : ℤ} (hne : s.linelen ≠ 0)
    (hfresh : s.word = s.string + s.linelen + 1 ∧ ∃ c, charAt text (s.string + s.linelen) = some c ∧
      isBlank c = true ∧ c ≠ '\n' ∧ c ≠ '\r')
    (hlinelen : 0 ≤ linelen ∧ (linelen ≠ 0 → linelen ≤ linewidth))
    (hword : linelen = 0 ∨ strpbrk text s.word = none) :
    Kept text linewidth y { s.put s.linelen 1 with linelen } ∧
      Advances text s { s.put s.linelen 1 with linelen } := by
  obtain ⟨hword', c, hc, hblank, -⟩ := hfresh
  have hbefore := charAt_lt hc
  have hcursor := h.cursor hlen
  have hnonneg := h.linelen.1
  refine ⟨h.put hlen ⟨hnonneg, h.linelen.2 hne⟩ (by omega) (by omega) ?_ hlinelen ?_, .inl ?_⟩
  · intro p d hp hp' hd
    obtain rfl : p = s.string + s.linelen := by omega
    rw [hc] at hd
    cases hd
    exact hblank
  · rwa [← hword']
  · show s.len - (s.linelen + 1) < s.len
    omega

include hs

/-- Behind the last blank. -/
theorem Kept.goes_of_none (hch : strpbrk text s.word = none)
    (hgood : ¬ if s.linelen ≠ 0 then s.word = s.string else ¬ s.Cuts linewidth maxy)
    (hturn : turn text linewidth maxy s = .goes s') :
    Kept text linewidth y s' ∧ Advances text s s' := by
  rw [turn_none hlen h.string (h.string_lt hlen) hs hch] at hturn
  by_cases hlinelen : s.linelen ≠ 0
  · rw [if_pos hlinelen] at hturn hgood
    cases hturn
    exact h.put_words hlen hlinelen (h.word.resolve_left fun hstale ↦ hgood hstale.1) h.linelen
      (.inr hch)
  · rw [if_neg hlinelen] at hturn hgood
    cases hturn
    have hzero : s.linelen = 0 := not_not.mp hlinelen
    rcases not_not.mp hgood with ⟨hthree, hle⟩ | ⟨htwo, -, habove, -⟩
    · refine ⟨h.cut hlen hzero (by omega) hle, .inl ?_⟩
      show s.len - (linewidth - 2 + 0) < s.len
      omega
    · have hnonneg := h.len
      refine ⟨h.cut hlen hzero (by omega) (by omega), .inr ⟨?_, .inl ⟨?_, habove⟩⟩⟩
      · show s.len - (linewidth - 2 + 0) = s.len
        omega
      · show s.y < s.y + 1
        omega

/-- Before a blank. -/
theorem Kept.goes_of_some {ch : ℤ} (hch : strpbrk text s.word = some ch)
    (hgood : ¬(linewidth < ch - s.string ∧ s.linelen = 0 ∧ linewidth ≤ 2))
    (hturn : turn text linewidth maxy s = .goes s') :
    Kept text linewidth y s' ∧ Advances text s s' := by
  have hcursor := h.cursor hlen
  obtain ⟨hword, hword0⟩ := h.word_nonneg
  obtain ⟨hle, ⟨c, hc, hblank⟩, -⟩ := strpbrk_some hword0 hch
  have hbefore := charAt_lt hc
  rw [turn_some hlen h.string (h.string_lt hlen) hs hch] at hturn
  by_cases hlong : linewidth < ch - s.string
  · rw [if_pos hlong] at hturn
    by_cases hlinelen : s.linelen = 0
    · rw [if_pos hlinelen] at hturn
      cases hturn
      have hthree : 2 < linewidth := by
        by_contra hnarrow
        exact hgood ⟨hlong, hlinelen, Int.not_lt.mp hnarrow⟩
      refine ⟨h.cut hlen hlinelen (by omega) (by omega), .inl ?_⟩
      show s.len - (linewidth - 2 + 0) < s.len
      omega
    · rw [if_neg hlinelen] at hturn
      cases hturn
      have hfresh := h.word.resolve_left fun hstale ↦ by
        rcases hstale.2 with hzero | hnone
        · exact hlinelen hzero
        · rw [hch] at hnone
          cases hnone
      exact h.put_words hlen hlinelen hfresh ⟨Int.le_refl 0, fun h ↦ absurd rfl h⟩ (.inl rfl)
  · rw [if_neg hlong] at hturn
    by_cases hnewline : charAt text ch = some '\n' ∨ charAt text ch = some '\r'
    · rw [if_pos hnewline] at hturn
      cases hturn
      refine ⟨h.put hlen ⟨by omega, by omega⟩ (by omega) (by omega) ?_
        ⟨Int.le_refl 0, fun h ↦ absurd rfl h⟩ (.inl rfl), .inl ?_⟩
      · intro p d hp hp' hd
        obtain rfl : p = ch := by omega
        rw [hc] at hd
        cases hd
        exact hblank
      · show s.len - (ch - s.string + 1) < s.len
        omega
    · -- a word is passed
      rw [if_neg hnewline] at hturn
      cases hturn
      rw [not_or] at hnewline
      have hsum : s.string + (ch - s.string) = ch := by omega
      refine ⟨{ h with
          word := .inr ⟨by dsimp only; omega, c, ?_, hblank, ?_, ?_⟩
          linelen := ⟨by dsimp only; omega, fun _ ↦ by dsimp only; omega⟩ },
        .inr ⟨rfl, .inr ⟨rfl, ?_, ?_⟩⟩⟩
      · dsimp only
        rwa [hsum]
      · rintro rfl
        exact hnewline.1 hc
      · rintro rfl
        exact hnewline.2 hc
      · dsimp only
        omega
      · dsimp only
        omega

end Goes

theorem len_ne_zero (hturn : turn text linewidth maxy s = .goes s') : s.len ≠ 0 := by
  intro hlen
  rw [turn, if_pos hlen] at hturn
  cases hturn

/-- A turn that does not go wrong. -/
theorem Kept.goes (h : Kept text linewidth y s) (hbad : ¬ s.Bad text linewidth maxy)
    (hturn : turn text linewidth maxy s = .goes s') :
    Kept text linewidth y s' ∧ Advances text s s' := by
  have hlen := len_ne_zero hturn
  by_cases hs : s.Shown linewidth maxy
  · rw [turn_shown hlen h.string (h.string_lt hlen) hs] at hturn
    cases hturn
    have hnonneg := h.len
    refine ⟨h.shown hlen hs, .inl ?_⟩
    dsimp only
    omega
  · have hgood := fun hmatch ↦ hbad ⟨hlen, hs, hmatch⟩
    cases hch : strpbrk text s.word with
    | none =>
        rw [hch] at hgood
        exact h.goes_of_none hlen hs hch hgood hturn
    | some ch =>
        rw [hch] at hgood
        exact h.goes_of_some hlen hs hch hgood hturn

end Turns

/-! ## Runs whose turns do not go wrong -/

section Runs

variable {text : CString} {linewidth maxy y : ℤ} {s s' : Wrap}

theorem step_eq_some_iff {e : Unit} :
    (wordWrap text linewidth maxy y).step s e = some s' ↔ turn text linewidth maxy s = .goes s' := by
  show (match turn text linewidth maxy s with | .goes s' => some s' | _ => none) = some s' ↔ _
  cases turn text linewidth maxy s with
  | ends => exact iff_of_false (Option.some_ne_none _).symm (by rintro ⟨⟩)
  | outside => exact iff_of_false (Option.some_ne_none _).symm (by rintro ⟨⟩)
  | goes t => rw [Option.some.injEq, Turn.goes.injEq]

theorem kept_of_reachable
    (hgood : ∀ s, (wordWrap text linewidth maxy y).Reachable s → ¬ s.Bad text linewidth maxy)
    (hs : (wordWrap text linewidth maxy y).Reachable s) : Kept text linewidth y s := by
  induction hs with
  | init hinit => exact hinit ▸ Kept.init
  | step hs _ he ih => exact (ih.goes (hgood _ hs) (step_eq_some_iff.mp he)).1

theorem terminates_of_good
    (hgood : ∀ s, (wordWrap text linewidth maxy y).Reachable s → ¬ s.Bad text linewidth maxy)
    (s : Wrap) (hs : (wordWrap text linewidth maxy y).Reachable s) :
    (wordWrap text linewidth maxy y).Terminates (fun _ _ ↦ True) s := by
  refine .intro s ?_
  rintro s' ⟨e, -, he⟩
  have hkept := kept_of_reachable hgood hs
  have hnext := hkept.goes (hgood s hs) (step_eq_some_iff.mp he)
  exact terminates_of_good hgood s' (hs.step he)
termination_by (s.len.toNat, (-s.y).toNat, (text.length - s.word).toNat)
decreasing_by
  have hlen := hnext.1.len
  rcases hnext.2 with hlt | ⟨heq, hrow | hword⟩
  · exact Prod.Lex.left _ _ (by omega)
  · rw [heq]
    exact Prod.Lex.right _ (Prod.Lex.left _ _ (by omega))
  · rw [heq, hword.1]
    exact Prod.Lex.right _ (Prod.Lex.right _ (by omega))

theorem wraps_of_good
    (hgood : ∀ s, (wordWrap text linewidth maxy y).Reachable s → ¬ s.Bad text linewidth maxy) :
    Wraps text linewidth maxy y where
  terminates s hs := terminates_of_good hgood s (.init hs)
  inside s hs := (kept_of_reachable hgood hs).turn_ne_outside
  cursor s hs := ⟨(kept_of_reachable hgood hs).len, (kept_of_reachable hgood hs).cursor⟩
  width s hs := (kept_of_reachable hgood hs).width
  counted s hs := (kept_of_reachable hgood hs).counted
  once s hs hends p c hc hblank := by
    have hkept := kept_of_reachable hgood hs
    have hp := charAt_lt hc
    rw [hkept.once p c hc hblank, if_pos]
    have hlen := hkept.len_eq_zero hends
    omega

end Runs

/-! ## What comes of a turn that goes wrong -/

section Wrong

variable {text : CString} {linewidth maxy y p : ℤ} {s s' : Wrap}

theorem turn_outside_or_ends (h : ∀ s', turn text linewidth maxy s ≠ .goes s') :
    turn text linewidth maxy s = .outside ∨ turn text linewidth maxy s = .ends := by
  cases hturn : turn text linewidth maxy s with
  | ends => exact .inr rfl
  | outside => exact .inl rfl
  | goes s' => exact absurd hturn (h s')

/-- What a turn can do. -/
theorem turn_goes (hturn : turn text linewidth maxy s = .goes s') :
    s' = { s with len := 0, lines := s.lines ++ [⟨s.string, s.len, s.y⟩] } ∨
    (∃ length skipped linelen, 0 ≤ skipped ∧ (linelen = s.linelen ∨ linelen = 0) ∧
      s' = { s.put length skipped with linelen }) ∨
    ∃ ch, strpbrk text s.word = some ch ∧
      s' = { s with linelen := ch - s.string, word := ch + 1 } := by
  rw [turn] at hturn
  split at hturn
  · cases hturn
  · split at hturn
    · cases hturn
    · split at hturn
      · cases hturn
      · split at hturn
        · cases hturn
          exact .inl rfl
        · split at hturn
          · split at hturn <;> cases hturn
            · exact .inr (.inl ⟨s.linelen, 1, s.linelen, by decide, .inl rfl, rfl⟩)
            · exact .inr (.inl ⟨linewidth - 2, 0, s.linelen, by decide, .inl rfl, rfl⟩)
          · rename_i ch hch
            split at hturn
            · split at hturn <;> cases hturn
              · exact .inr (.inl ⟨linewidth - 2, 0, s.linelen, by decide, .inl rfl, rfl⟩)
              · exact .inr (.inl ⟨s.linelen, 1, 0, by decide, .inr rfl, rfl⟩)
            · split at hturn <;> cases hturn
              · exact .inr (.inl ⟨ch - s.string, 1, 0, by decide, .inr rfl, rfl⟩)
              · exact .inr (.inr ⟨ch, hch, rfl⟩)

/-- A character has been passed that is in no line. -/
structure Passed (p : ℤ) (s : Wrap) : Prop where
  nonneg : 0 ≤ p
  passed : p < s.string
  word : s.string ≤ s.word
  linelen : 0 ≤ s.linelen
  lines : ∀ l ∈ s.lines, ¬ l.Holds p

theorem Passed.goes (h : Passed p s) (hturn : turn text linewidth maxy s = .goes s')
    (hwidth : ∀ l ∈ s'.lines, 0 ≤ l.length) : Passed p s' := by
  have hpassed := h.passed
  have hword := h.word
  have hlines : ∀ length, ∀ l ∈ s.lines ++ [Line.mk s.string length s.y], ¬ l.Holds p := by
    intro length l hl
    rcases List.mem_append.mp hl with hl | hl
    · exact h.lines l hl
    · rw [List.mem_singleton.mp hl]
      rintro ⟨hstart, -⟩
      dsimp only at hstart
      omega
  rcases turn_goes hturn with rfl | ⟨length, skipped, linelen, hskipped, hlinelen, rfl⟩ | ⟨ch, hch, rfl⟩
  · exact { h with lines := hlines s.len }
  · have hlength := hwidth ⟨s.string, length, s.y⟩ (List.mem_append_right _ List.mem_cons_self)
    dsimp only at hlength
    refine ⟨h.nonneg, ?_, Int.le_refl _, ?_, hlines length⟩
    · show p < s.string + length + skipped
      omega
    · rcases hlinelen with rfl | rfl
      · exact h.linelen
      · exact Int.le_refl 0
  · have hnonneg := h.nonneg
    have hle := (strpbrk_some (by omega) hch).1
    exact { h with
      word := by dsimp only; omega
      linelen := by dsimp only; omega }

/-- No run that puts every character in a line passes one. -/
theorem Wraps.not_passed {c : Char} (hw : Wraps text linewidth maxy y)
    (hs : (wordWrap text linewidth maxy y).Reachable s) (hc : charAt text p = some c)
    (hblank : isBlank c = false) : ¬ Passed p s := by
  intro hpassed
  have hstep : ∀ t e t', (wordWrap text linewidth maxy y).Reachable t ∧ Passed p t → True →
      (wordWrap text linewidth maxy y).step t e = some t' →
        (wordWrap text linewidth maxy y).Reachable t' ∧ Passed p t' :=
    fun t e t' ht _ he ↦ ⟨ht.1.step he, ht.2.goes (step_eq_some_iff.mp he) fun l hl ↦
      (hw.width t' (ht.1.step he) l hl).1⟩
  obtain ⟨t, ⟨ht, hpassed⟩, hend⟩ :=
    (System.Terminates.of_reachable hw.terminates hs).exists_end ⟨hs, hpassed⟩ hstep
  have hends : turn text linewidth maxy t = .ends := by
    refine (turn_outside_or_ends fun t' hturn ↦ ?_).resolve_left (hw.inside t ht)
    exact hend () t' trivial (step_eq_some_iff.mpr hturn)
  have honce := hw.once t ht hends p c hc hblank
  have hnone : holders t.lines p = 0 :=
    List.countP_eq_zero.mpr fun l hl ↦ by
      rw [decide_eq_true_eq]
      exact hpassed.lines l hl
  rw [hnone] at honce
  cases honce

/-! ### A column of two characters -/

theorem strpbrk_of_isBlank {c : Char} (hc : charAt text p = some c) (hblank : isBlank c = true) :
    strpbrk text p = some p := by
  obtain ⟨i, rfl, hi⟩ := charAt_eq_some_iff.mp hc
  obtain ⟨hlt, rfl⟩ := List.getElem?_eq_some_iff.mp hi
  rw [strpbrk, Int.toNat_natCast, List.drop_eq_getElem_cons hlt, List.findIdx?_cons, if_pos hblank]
  exact congrArg some (Int.add_zero _)

theorem strpbrk_of_not_isBlank {c : Char} (hc : charAt text p = some c)
    (hblank : isBlank c = false) : strpbrk text p = strpbrk text (p + 1) := by
  obtain ⟨i, rfl, hi⟩ := charAt_eq_some_iff.mp hc
  obtain ⟨hlt, rfl⟩ := List.getElem?_eq_some_iff.mp hi
  have hnext : ((i : ℤ) + 1).toNat = i + 1 := by omega
  rw [strpbrk, strpbrk, Int.toNat_natCast, hnext, List.drop_eq_getElem_cons hlt, List.findIdx?_cons,
    if_neg (by rw [hblank]; exact Bool.false_ne_true), Option.map_map]
  congr 1
  funext k
  show (i : ℤ) + ((k + 1 : ℕ) : ℤ) = i + 1 + k
  omega

/-- Nothing is ever taken: what is left does not fit into the column, or is below the
window, and its first word cannot be cut. -/
structure Stuck (text : CString) (maxy : ℤ) (s : Wrap) : Prop where
  linelen : s.linelen = 0
  string : 0 ≤ s.string
  lt : s.string < text.length
  len : s.len ≠ 0
  hidden : 2 < s.len ∨ maxy ≤ s.y ∨ maxy ≤ 0
  char : ∀ c, charAt text s.string = some c → c ≠ '\n' ∧ c ≠ '\r'
  word : s.word = s.string ∨
    s.word = s.string + 1 ∧ ∃ c, charAt text s.string = some c ∧ isBlank c = true
  long : ∀ ch, strpbrk text (s.string + 1) = some ch → 2 < ch - s.string

theorem Stuck.goes (h : Stuck text maxy s) :
    ∃ s', turn text 2 maxy s = .goes s' ∧ Stuck text maxy s' := by
  have hhidden : ¬ s.Shown 2 maxy := by
    rintro ⟨hlen, hrow, hrow'⟩
    have hhidden := h.hidden
    omega
  have hput : Stuck text maxy (s.put (2 - 2) 0) := by
    have hstring : (s.put (2 - 2) 0).string = s.string := by
      show s.string + (2 - 2) + 0 = s.string
      omega
    have hlen : (s.put (2 - 2) 0).len = s.len := by
      show s.len - (2 - 2 + 0) = s.len
      omega
    have hrow : (s.put (2 - 2) 0).y = s.y + 1 := rfl
    have hhidden := h.hidden
    constructor
    · exact h.linelen
    · rw [hstring]
      exact h.string
    · rw [hstring]
      exact h.lt
    · rw [hlen]
      exact h.len
    · rw [hlen, hrow]
      omega
    · rw [hstring]
      exact h.char
    · exact .inl rfl
    · rw [hstring]
      exact h.long
  -- no blank comes soon enough behind the first character
  have hcut : strpbrk text s.word = strpbrk text (s.string + 1) →
      turn text 2 maxy s = .goes (s.put (2 - 2) 0) := by
    intro hsame
    cases hch : strpbrk text (s.string + 1) with
    | none =>
        rw [turn_none h.len h.string h.lt hhidden (hsame.trans hch), if_neg (not_not.mpr h.linelen)]
    | some ch =>
        rw [turn_some h.len h.string h.lt hhidden (hsame.trans hch), if_pos (h.long ch hch),
          if_pos h.linelen]
  obtain ⟨c, hc⟩ := exists_charAt h.string h.lt
  rcases h.word with hword | ⟨hword, d, hd, hblank⟩
  · cases hblank : isBlank c with
    | true =>
        have hch : strpbrk text s.word = some s.string := by
          rw [hword]
          exact strpbrk_of_isBlank hc hblank
        have hnewline : ¬(charAt text s.string = some '\n' ∨ charAt text s.string = some '\r') := by
          rintro (hnl | hcr)
          · exact (h.char _ hnl).1 rfl
          · exact (h.char _ hcr).2 rfl
        refine ⟨{ s with linelen := s.string - s.string, word := s.string + 1 }, ?_, { h with
          linelen := Int.sub_self _
          word := .inr ⟨rfl, c, hc, hblank⟩ }⟩
        rw [turn_some h.len h.string h.lt hhidden hch, if_neg (by omega), if_neg hnewline]
    | false =>
        refine ⟨_, hcut ?_, hput⟩
        rw [hword]
        exact strpbrk_of_not_isBlank hc hblank
  · exact ⟨_, hcut (congrArg (strpbrk text) hword), hput⟩

theorem Kept.stuck (h : Kept text linewidth y s) (hlen : s.len ≠ 0) (hzero : s.linelen = 0)
    (hhidden : 2 < s.len ∨ maxy ≤ s.y ∨ maxy ≤ 0)
    (hlong : ∀ ch, strpbrk text s.word = some ch → 2 < ch - s.string) : Stuck text maxy s := by
  obtain ⟨c, hc⟩ := exists_charAt h.string (h.string_lt hlen)
  rcases h.word with ⟨hword, -⟩ | ⟨hword, d, hd, hblank, hnl, hcr⟩
  · -- the first character begins a word
    have hfirst : isBlank c = false := by
      cases hblank : isBlank c with
      | false => rfl
      | true =>
          have hlong := hlong s.string (by rw [hword]; exact strpbrk_of_isBlank hc hblank)
          omega
    refine ⟨hzero, h.string, h.string_lt hlen, hlen, hhidden, ?_, .inl hword, ?_⟩
    · intro d hd
      rw [hc] at hd
      cases hd
      constructor
      · rintro rfl
        cases hfirst
      · rintro rfl
        cases hfirst
    · intro ch hch
      refine hlong ch ?_
      rwa [hword, strpbrk_of_not_isBlank hc hfirst]
  · rw [hzero, Int.add_zero] at hword hd
    refine ⟨hzero, h.string, h.string_lt hlen, hlen, hhidden, ?_, .inr ⟨hword, d, hd, hblank⟩, ?_⟩
    · intro e he
      rw [hd] at he
      cases he
      exact ⟨hnl, hcr⟩
    · rw [← hword]
      exact hlong

theorem Wraps.not_stuck (hw : Wraps text 2 maxy y) (hs : (wordWrap text 2 maxy y).Reachable s) :
    ¬ Stuck text maxy s := by
  intro hstuck
  refine System.not_terminates hstuck (fun t ht ↦ ?_)
    (System.Terminates.of_reachable hw.terminates hs)
  obtain ⟨t', hturn, ht'⟩ := ht.goes
  exact ⟨(), t', trivial, step_eq_some_iff.mpr hturn, ht'⟩

/-! ### Every turn that goes wrong shows -/

/-- A piece of a word that is put down is a piece of the text. -/
theorem Wraps.cut (hw : Wraps text linewidth maxy y)
    (hs : (wordWrap text linewidth maxy y).Reachable s)
    (hturn : turn text linewidth maxy s = .goes (s.put (linewidth - 2) 0)) :
    2 ≤ linewidth ∧ linewidth - 2 ≤ s.len := by
  have hs' := hs.step (e := ()) (step_eq_some_iff.mpr hturn)
  have hwidth := (hw.width _ hs' ⟨s.string, linewidth - 2, s.y⟩
    (List.mem_append_right _ List.mem_cons_self)).1
  have hlen : 0 ≤ s.len - (linewidth - 2 + 0) := (hw.cursor _ hs').1
  dsimp only at hwidth
  omega

/-- Where every character is put in a line, a turn that goes wrong comes to nothing. -/
theorem Wraps.not_bad (hw : Wraps text linewidth maxy y)
    (hs : (wordWrap text linewidth maxy y).Reachable s) (hkept : Kept text linewidth y s) :
    ¬ s.Bad text linewidth maxy := by
  rintro ⟨hlen, hhidden, hbad⟩
  have hlt := hkept.string_lt hlen
  have hcursor := hkept.cursor hlen
  cases hch : strpbrk text s.word with
  | none =>
      have hturn := turn_none hlen hkept.string hlt hhidden hch
      rw [hch] at hbad
      by_cases hlinelen : s.linelen ≠ 0
      · -- the first character of the rest that is not in the line is in none
        rw [if_pos hlinelen] at hturn
        have hword : s.word = s.string := by
          dsimp only at hbad
          rwa [if_pos hlinelen] at hbad
        have hs' := hs.step (e := ()) (step_eq_some_iff.mpr hturn)
        have hle : 0 ≤ s.len - (s.linelen + 1) := (hw.cursor _ hs').1
        have hnonneg := hkept.linelen.1
        have hstring := hkept.string
        have hp : 0 ≤ s.string + s.linelen := by omega
        have hlt' : s.string + s.linelen < text.length := by omega
        have hword' : s.word ≤ s.string + s.linelen := by omega
        obtain ⟨c, hc⟩ := exists_charAt hp hlt'
        have hblank : isBlank c = false := strpbrk_none hkept.word_nonneg.2 hch hword' hc
        have hholders := hkept.once _ c hc hblank
        rw [if_neg (by omega), holders, List.countP_eq_zero] at hholders
        refine hw.not_passed hs' hc hblank ⟨hp, ?_, Int.le_refl _, hnonneg, fun l hl ↦ ?_⟩
        · show s.string + s.linelen < s.string + s.linelen + 1
          omega
        · rcases List.mem_append.mp hl with hl | hl
          · have hnot := hholders l hl
            rwa [decide_eq_true_eq] at hnot
          · rw [List.mem_singleton.mp hl]
            exact fun hholds ↦ Int.lt_irrefl _ hholds.2
      · rw [if_neg hlinelen] at hturn
        have hcuts : ¬ s.Cuts linewidth maxy := by
          dsimp only at hbad
          rwa [if_neg hlinelen] at hbad
        obtain ⟨htwo, hle⟩ := hw.cut hs hturn
        rw [Wrap.Cuts] at hcuts
        rw [Wrap.Shown] at hhidden
        obtain rfl : linewidth = 2 := by omega
        refine hw.not_stuck hs (hkept.stuck hlen (not_not.mp hlinelen) (by omega) fun ch hsome ↦ ?_)
        rw [hch] at hsome
        cases hsome
  | some ch =>
      have hturn := turn_some hlen hkept.string hlt hhidden hch
      rw [hch] at hbad
      obtain ⟨hlong, hzero, hnarrow⟩ := hbad
      rw [if_pos hlong, if_pos hzero] at hturn
      obtain ⟨htwo, -⟩ := hw.cut hs hturn
      obtain rfl : linewidth = 2 := by omega
      obtain ⟨-, ⟨c, hc, -⟩, -⟩ := strpbrk_some hkept.word_nonneg.2 hch
      have hbefore := (charAt_lt hc).2
      refine hw.not_stuck hs (hkept.stuck hlen hzero (by omega) fun ch' hsome ↦ ?_)
      rw [hch] at hsome
      cases hsome
      exact hlong

/-- The loop wraps the text if and only if it never comes to a turn that goes wrong. -/
theorem wraps_iff (text : CString) (linewidth maxy y : ℤ) : Wraps text linewidth maxy y ↔
    ∀ s, (wordWrap text linewidth maxy y).Reachable s → ¬ s.Bad text linewidth maxy := by
  constructor
  · intro hw s hs
    suffices hkept : Kept text linewidth y s from hw.not_bad hs hkept
    induction hs with
    | init hinit => exact hinit ▸ Kept.init
    | step hs _ he ih => exact (ih.goes (hw.not_bad hs ih) (step_eq_some_iff.mp he)).1
  · exact wraps_of_good

end Wrong

/-- A word of two characters that is a row above the window: eight are passed. -/
theorem not_wraps : ¬ Wraps "ab".toList 10 5 (-1) := by
  intro hw
  have hstart : (wordWrap "ab".toList 10 5 (-1)).Reachable ⟨0, 2, 0, 0, -1, []⟩ := .init rfl
  have hnext : (wordWrap "ab".toList 10 5 (-1)).step ⟨0, 2, 0, 0, -1, []⟩ () =
      some ⟨8, -6, 8, 0, 0, [⟨0, 8, -1⟩]⟩ := by decide
  exact absurd (hw.cursor _ (hstart.step hnext)).1 (by decide)

end Beirdobot.Curses
