import Mathlib.Data.List.Basic

/-!
# Escapes

A text with a mark in front of its special symbols, and how it is read between quotes.
-/

namespace Beirdobot.Library.Escape

universe u

variable {α : Type u} (special : α → Bool) (mark quote : α)

/-- A mark in front of every special symbol. -/
def escape (s : List α) : List α := s.flatMap fun c ↦ if special c then [mark, c] else [c]

section Reading

variable [DecidableEq α]

/-- A mark stands for the symbol behind it. -/
def unescape : List α → List α
  | [] => []
  | c :: s =>
      if c = mark then
        match s with
        | [] => []
        | d :: s => d :: unescape s
      else c :: unescape s

/-- Every mark has a symbol behind it. -/
def complete : List α → Bool
  | [] => true
  | c :: s =>
      if c = mark then
        match s with
        | [] => false
        | _ :: s => complete s
      else complete s

/-- What stands before the first quote without a mark, and what behind it. -/
def readQuoted : List α → Option (List α × List α)
  | [] => none
  | c :: s =>
      if c = quote then some ([], s)
      else if c = mark then
        match s with
        | [] => none
        | d :: s => (readQuoted s).map fun r ↦ (d :: r.1, r.2)
      else (readQuoted s).map fun r ↦ (c :: r.1, r.2)

end Reading

variable {special mark quote} {s t : List α} {c : α}

theorem escape_cons : escape special mark (c :: s) =
    (if special c then [mark, c] else [c]) ++ escape special mark s := List.flatMap_cons

theorem escape_append : escape special mark (s ++ t) =
    escape special mark s ++ escape special mark t := List.flatMap_append

theorem escape_cons_ne_nil (c : α) (s : List α) : escape special mark (c :: s) ≠ [] := by
  rw [escape_cons]
  split <;> exact List.cons_ne_nil _ _

variable [DecidableEq α]

theorem unescape_mark (d : α) (s : List α) :
    unescape mark (mark :: d :: s) = d :: unescape mark s := by
  rw [unescape, if_pos rfl]

theorem unescape_cons (hc : c ≠ mark) (s : List α) :
    unescape mark (c :: s) = c :: unescape mark s := by
  cases s <;> exact if_neg hc

theorem complete_mark (d : α) (s : List α) :
    complete mark (mark :: d :: s) = complete mark s := by
  rw [complete, if_pos rfl]

theorem complete_cons (hc : c ≠ mark) (s : List α) :
    complete mark (c :: s) = complete mark s := by
  cases s <;> exact if_neg hc

theorem readQuoted_quote (s : List α) : readQuoted mark quote (quote :: s) = some ([], s) := by
  cases s <;> rw [readQuoted, if_pos rfl]

theorem readQuoted_mark (hne : mark ≠ quote) (d : α) (s : List α) :
    readQuoted mark quote (mark :: d :: s) =
      (readQuoted mark quote s).map fun r ↦ (d :: r.1, r.2) := by
  rw [readQuoted, if_neg hne, if_pos rfl]

theorem readQuoted_cons (hquote : c ≠ quote) (hmark : c ≠ mark) (s : List α) :
    readQuoted mark quote (c :: s) = (readQuoted mark quote s).map fun r ↦ (c :: r.1, r.2) := by
  cases s <;> exact (if_neg hquote).trans (if_neg hmark)

/-- The marks can be told from the text when they are special themselves. -/
theorem unescape_escape (hmark : special mark = true) (s : List α) :
    unescape mark (escape special mark s) = s := by
  induction s with
  | nil => rfl
  | cons c s ih =>
      rw [escape_cons]
      by_cases hc : special c = true
      · rw [if_pos hc, List.cons_append, List.cons_append, List.nil_append, unescape_mark, ih]
      · have hne : c ≠ mark := by
          rintro rfl
          exact hc hmark
        rw [if_neg hc, List.cons_append, List.nil_append, unescape_cons hne, ih]

theorem complete_escape (hmark : special mark = true) (s : List α) :
    complete mark (escape special mark s) = true := by
  induction s with
  | nil => rfl
  | cons c s ih =>
      rw [escape_cons]
      by_cases hc : special c = true
      · rw [if_pos hc, List.cons_append, List.cons_append, List.nil_append, complete_mark, ih]
      · have hne : c ≠ mark := by
          rintro rfl
          exact hc hmark
        rw [if_neg hc, List.cons_append, List.nil_append, complete_cons hne, ih]

/-- Between quotes the text is read as it was, also where the end of all is cut. -/
theorem readQuoted_take (hmark : special mark = true) (hquote : special quote = true)
    (hne : quote ≠ mark) (s rest : List α) (n : ℕ) {w r : List α}
    (h : readQuoted mark quote ((escape special mark s ++ quote :: rest).take n) = some (w, r)) :
    w = s ∧ r = rest.take (n - (escape special mark s).length - 1) := by
  induction s generalizing n w with
  | nil =>
      cases n with
      | zero => cases h
      | succ n =>
          rw [escape, List.flatMap_nil, List.nil_append, List.take_succ_cons, readQuoted_quote] at h
          cases h
          exact ⟨rfl, rfl⟩
  | cons c s ih =>
      rw [escape_cons] at h ⊢
      by_cases hc : special c = true
      · rw [if_pos hc] at h ⊢
        rcases n with _ | _ | n
        · cases h
        · simp only [List.cons_append, List.nil_append, Nat.zero_add, List.take_succ_cons,
            List.take_zero, readQuoted, if_neg (Ne.symm hne), if_pos] at h
          cases h
        · simp only [List.cons_append, List.nil_append, List.take_succ_cons] at h
          rw [readQuoted_mark (Ne.symm hne), Option.map_eq_some_iff] at h
          obtain ⟨⟨w', r'⟩, hread, heq⟩ := h
          cases heq
          obtain ⟨rfl, rfl⟩ := ih n hread
          refine ⟨rfl, congrArg (rest.take ·) ?_⟩
          rw [List.length_append, List.length_cons, List.length_singleton]
          omega
      · have hne' : c ≠ mark := by
          rintro rfl
          exact hc hmark
        have hne'' : c ≠ quote := by
          rintro rfl
          exact hc hquote
        rw [if_neg hc] at h ⊢
        cases n with
        | zero => cases h
        | succ n =>
            simp only [List.cons_append, List.nil_append, List.take_succ_cons] at h
            rw [readQuoted_cons hne'' hne', Option.map_eq_some_iff] at h
            obtain ⟨⟨w', r'⟩, hread, heq⟩ := h
            cases heq
            obtain ⟨rfl, rfl⟩ := ih n hread
            refine ⟨rfl, congrArg (rest.take ·) ?_⟩
            rw [List.length_append, List.length_singleton]
            omega

end Beirdobot.Library.Escape
