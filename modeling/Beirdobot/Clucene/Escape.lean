import Beirdobot.Libc
import Beirdobot.Library.Escape
import Mathlib.Data.Int.Notation

/-!
# The search query

A transcription of `clucene_escape` and of the query that `clucene_search` builds.
-/

namespace Beirdobot.Clucene

open Library.Escape

def maxStringLen : ℕ := 1024

/-- `strchr( chars, c )` -/
def special (c : Char) : Bool := "+-&|!()\x7b\x7d[]^\"~*?:\\".toList.contains c

/-- Write a character behind those in the buffer. -/
def put (buf : CString) (c : Char) : Option CString :=
  if buf.length < maxStringLen then some (buf ++ [c]) else none

/-- `buf[j] = '\0'` -/
def terminate (buf : CString) : Option CString :=
  if buf.length < maxStringLen then some buf else none

/-- The loop of `clucene_escape`; there is no result where it writes past the buffer. -/
def escapeLoop : CString → CString → Option CString
  | [], buf => terminate buf
  | c :: text, buf =>
      if buf.length < maxStringLen - 1 then do
        let buf ← if special c then put buf '\\' else some buf
        let buf ← put buf c
        escapeLoop text buf
      else terminate buf

/-- `clucene_escape` -/
def cluceneEscape (text : CString) : Option CString := escapeLoop text []

/-- What stands before the text in the query. -/
def queryHead (chanid : ℤ) : CString :=
  "chanid:".toList ++ (toString chanid).toList ++ " AND (text:\"".toList

/-- The query of `clucene_search`. -/
def searchQuery (chanid : ℤ) (esctext : CString) : CString :=
  (queryHead chanid ++ esctext ++ "\" OR nick:\"".toList ++ esctext ++ "\")".toList).take
    (maxStringLen - 1)

/-! ## What the loop writes -/

/-- The text is cut in front of a special character that would be the last one. -/
def Overruns (text : CString) : Prop :=
  ∃ front c rest, text = front ++ c :: rest ∧ special c = true ∧
    (escape special '\\' front).length = 1022

section Loop

variable {text buf : CString}

/-- From some text in the buffer on. -/
def OverrunsFrom (buf text : CString) : Prop :=
  ∃ front c rest, text = front ++ c :: rest ∧ special c = true ∧
    (buf ++ escape special '\\' front).length = 1022

theorem overrunsFrom_cons {c : Char} :
    OverrunsFrom buf (c :: text) ↔ (special c = true ∧ buf.length = 1022) ∨
      OverrunsFrom (buf ++ escape special '\\' [c]) text := by
  constructor
  · rintro ⟨_ | ⟨d, front⟩, c', rest, htext, hc, hlength⟩
    · cases htext
      rw [escape, List.flatMap_nil, List.append_nil] at hlength
      exact .inl ⟨hc, hlength⟩
    · rw [List.cons_append, List.cons.injEq] at htext
      obtain ⟨rfl, rfl⟩ := htext
      refine .inr ⟨front, c', rest, rfl, hc, ?_⟩
      rwa [List.append_assoc, ← escape_append]
  · rintro (⟨hc, hlength⟩ | ⟨front, c', rest, rfl, hc, hlength⟩)
    · refine ⟨[], c, text, rfl, hc, ?_⟩
      rwa [escape, List.flatMap_nil, List.append_nil]
    · refine ⟨c :: front, c', rest, rfl, hc, ?_⟩
      rwa [List.append_assoc, ← escape_append] at hlength

theorem not_overrunsFrom (hbuf : 1022 < buf.length) : ¬ OverrunsFrom buf text := by
  rintro ⟨front, c, rest, -, -, hlength⟩
  rw [List.length_append] at hlength
  omega

theorem put_of_lt (hbuf : buf.length < 1024) (c : Char) : put buf c = some (buf ++ [c]) :=
  if_pos hbuf

theorem escape_singleton (c : Char) :
    escape special '\\' [c] = if special c then ['\\', c] else [c] := by
  rw [escape, List.flatMap_cons, List.flatMap_nil, List.append_nil]

/-- A turn of the loop. -/
theorem escapeLoop_cons {c : Char} (hbuf : buf.length < 1023) :
    escapeLoop (c :: text) buf = escapeLoop text (buf ++ escape special '\\' [c]) := by
  rw [escapeLoop, if_pos (show buf.length < maxStringLen - 1 from hbuf), escape_singleton]
  by_cases hc : special c = true
  · have hlt : (buf ++ ['\\']).length < 1024 := by
      rw [List.length_append, List.length_singleton]
      omega
    rw [if_pos hc, if_pos hc, put_of_lt (by omega)]
    dsimp only [Option.bind_eq_bind, Option.bind_some]
    rw [put_of_lt hlt, Option.bind_some, List.append_assoc]
    rfl
  · rw [if_neg hc, if_neg hc]
    dsimp only [Option.bind_eq_bind, Option.bind_some]
    rw [put_of_lt (by omega), Option.bind_some]

theorem escapeLoop_full (hbuf : 1023 ≤ buf.length) (text : CString) :
    escapeLoop text buf = terminate buf := by
  cases text with
  | nil => rfl
  | cons c text =>
      rw [escapeLoop, if_neg (show ¬ buf.length < maxStringLen - 1 by
        rw [maxStringLen]
        omega)]

/-- What the loop leaves is the escape of what it has read, with room for a NUL. -/
theorem exists_of_escapeLoop {out : CString} (h : escapeLoop text buf = some out) :
    ∃ k, out = buf ++ escape special '\\' (text.take k) ∧ out.length < 1024 ∧
      ((buf ++ escape special '\\' text).length < 1024 → text.take k = text) := by
  induction text generalizing buf with
  | nil =>
      rw [escapeLoop, terminate] at h
      split at h
      · rename_i hbuf
        cases h
        refine ⟨0, ?_, hbuf, fun _ ↦ rfl⟩
        rw [List.take_zero, escape, List.flatMap_nil, List.append_nil]
      · cases h
  | cons c text ih =>
      by_cases hbuf : buf.length < 1023
      · rw [escapeLoop_cons hbuf] at h
        obtain ⟨k, hout, hfits, hwhole⟩ := ih h
        refine ⟨k + 1, ?_, hfits, fun hlength ↦ ?_⟩
        · rw [hout, List.append_assoc, ← escape_append]
          rfl
        · rw [List.take_succ_cons, hwhole]
          rwa [List.append_assoc, ← escape_append]
      · rw [escapeLoop_full (by omega), terminate] at h
        split at h
        · rename_i hlt
          cases h
          refine ⟨0, ?_, hlt, fun hlength ↦ ?_⟩
          · rw [List.take_zero, escape, List.flatMap_nil, List.append_nil]
          · have hne : escape special '\\' (c :: text) ≠ [] := escape_cons_ne_nil c text
            have hpos := List.length_pos_iff.mpr hne
            rw [List.length_append] at hlength
            omega
        · cases h

theorem escapeLoop_isSome_iff (hbuf : buf.length < 1024) :
    (escapeLoop text buf).isSome = true ↔ ¬ OverrunsFrom buf text := by
  induction text generalizing buf with
  | nil =>
      refine iff_of_true ?_ ?_
      · rw [escapeLoop, terminate, if_pos (show buf.length < maxStringLen from hbuf)]
        rfl
      · rintro ⟨front, c, rest, htext, -⟩
        exact absurd htext.symm (List.append_ne_nil_of_right_ne_nil _ (List.cons_ne_nil _ _))
  | cons c text ih =>
      by_cases hlt : buf.length < 1023
      · rw [escapeLoop_cons hlt, overrunsFrom_cons]
        by_cases hlast : special c = true ∧ buf.length = 1022
        · -- two characters fill the buffer
          refine iff_of_false ?_ (not_not_intro (.inl hlast))
          have hfull : (buf ++ escape special '\\' [c]).length = 1024 := by
            rw [escape_singleton, if_pos hlast.1, List.length_append, hlast.2]
            rfl
          rw [escapeLoop_full (by omega), terminate, if_neg (by rw [hfull]; decide)]
          exact Bool.false_ne_true
        · rw [or_iff_right hlast]
          refine ih ?_
          rw [escape_singleton, List.length_append]
          split
          · rename_i hc
            have hne : buf.length ≠ 1022 := fun h ↦ hlast ⟨hc, h⟩
            rw [List.length_cons, List.length_singleton]
            omega
          · rw [List.length_singleton]
            omega
      · refine iff_of_true ?_ (not_overrunsFrom (by omega))
        rw [escapeLoop_full (by omega), terminate, if_pos (show buf.length < maxStringLen from hbuf)]
        rfl

end Loop

/-! ## The text in the query -/

/-- What `clucene_escape` is to return for a text. -/
structure Escaped (text out : CString) : Prop where
  fits : out.length < maxStringLen
  complete : complete '\\' out = true
  start : unescape '\\' out <+: text
  whole : (escape special '\\' text).length < maxStringLen → unescape '\\' out = text
  /-- The first quote that closes in a query is the one behind the text, and so it is where
  the text stands again. -/
  closed : ∀ chanid w rest,
    readQuoted '\\' '"' ((searchQuery chanid out).drop (queryHead chanid).length) = some (w, rest) →
    w = unescape '\\' out ∧
    ∀ w' rest', readQuoted '\\' '"' (rest.drop " OR nick:\"".toList.length) = some (w', rest') →
      w' = unescape '\\' out

theorem special_mark : special '\\' = true := rfl

theorem special_quote : special '"' = true := rfl

/-- A text that is escaped does not close the quotes of the query. -/
theorem closed_escape {chanid : ℤ} {s w rest : CString}
    (h : readQuoted '\\' '"' ((searchQuery chanid (escape special '\\' s)).drop
      (queryHead chanid).length) = some (w, rest)) :
    w = s ∧ ∀ w' rest',
      readQuoted '\\' '"' (rest.drop " OR nick:\"".toList.length) = some (w', rest') → w' = s := by
  have hquery : (searchQuery chanid (escape special '\\' s)).drop (queryHead chanid).length =
      (escape special '\\' s ++ '"' :: (" OR nick:\"".toList ++
        (escape special '\\' s ++ '"' :: [')']))).take
          (maxStringLen - 1 - (queryHead chanid).length) := by
    have hmiddle : "\" OR nick:\"".toList = '"' :: " OR nick:\"".toList := rfl
    have hlast : "\")".toList = '"' :: [')'] := rfl
    rw [searchQuery, List.drop_take, hmiddle, hlast]
    simp only [List.append_assoc, List.drop_left, List.cons_append]
  rw [hquery] at h
  obtain ⟨rfl, rfl⟩ := readQuoted_take special_mark special_quote (by decide) _ _ _ h
  refine ⟨rfl, fun w' rest' h' ↦ ?_⟩
  rw [List.drop_take, List.drop_left] at h'
  exact (readQuoted_take special_mark special_quote (by decide) _ _ _ h').1

theorem cluceneEscape_isSome_iff (text : CString) :
    (cluceneEscape text).isSome = true ↔ ¬ Overruns text :=
  escapeLoop_isSome_iff (show ([] : CString).length < 1024 by decide)

/-- `clucene_escape` does this, and stays in its buffer, if and only if no special
character comes when there is room for one more. -/
theorem cluceneEscape_iff (text : CString) :
    (∃ out, cluceneEscape text = some out ∧ Escaped text out) ↔ ¬ Overruns text := by
  rw [← cluceneEscape_isSome_iff, Option.isSome_iff_exists]
  constructor
  · rintro ⟨out, hout, -⟩
    exact ⟨out, hout⟩
  · rintro ⟨out, hout⟩
    obtain ⟨k, heq, hfits, hwhole⟩ := exists_of_escapeLoop hout
    rw [List.nil_append] at heq hwhole
    have hread : unescape '\\' out = text.take k := by rw [heq, unescape_escape special_mark]
    refine ⟨out, hout, hfits, ?_, ?_, fun hlength ↦ hread.trans (hwhole hlength), ?_⟩
    · rw [heq]
      exact complete_escape special_mark _
    · rw [hread]
      exact List.take_prefix k text
    · intro chanid w rest h
      rw [hread]
      rw [heq] at h
      exact closed_escape h

theorem escape_replicate (n : ℕ) :
    escape special '\\' (List.replicate n 'a') = List.replicate n 'a' := by
  induction n with
  | zero => rfl
  | succ n ih =>
      rw [List.replicate_succ, escape_cons, ih]
      rfl

/-- Behind 1022 letters there is room for one more character, and none for a mark. -/
theorem not_cluceneEscape :
    ¬ ∃ out, cluceneEscape (List.replicate 1022 'a' ++ ['!']) = some out ∧
      Escaped (List.replicate 1022 'a' ++ ['!']) out := by
  have hover : Overruns (List.replicate 1022 'a' ++ ['!']) := by
    refine ⟨List.replicate 1022 'a', '!', [], rfl, rfl, ?_⟩
    rw [escape_replicate, List.length_replicate]
  rintro ⟨out, hout, -⟩
  exact (cluceneEscape_isSome_iff _).mp (by rw [hout]; rfl) hover

end Beirdobot.Clucene
