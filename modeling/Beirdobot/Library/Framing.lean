import Mathlib.Data.List.Basic

/-!
# Frames of a stream

A stream is cut into frames at its terminators, and empty frames do not count.  `frames` is told
the beginning of a frame that was read before, so that a stream can be cut in pieces anywhere.
-/

namespace Beirdobot.Library

universe u

variable {α : Type u} {p : α → Bool}

/-- The complete frames that are not empty, after the elements `before` of the first one. -/
def frames (p : α → Bool) : List α → List α → List (List α)
  | _, [] => []
  | before, a :: s =>
      if p a then (if before.isEmpty then frames p [] s else before :: frames p [] s)
      else frames p (before ++ [a]) s

@[simp] theorem frames_nil (before : List α) : frames p before [] = [] := rfl

/-- Elements without a terminator only make the first frame longer. -/
theorem frames_append {l : List α} (hl : ∀ a ∈ l, p a = false) (before s : List α) :
    frames p before (l ++ s) = frames p (before ++ l) s := by
  induction l generalizing before with
  | nil => rw [List.nil_append, List.append_nil]
  | cons a l ih =>
      have ha : p a = false := hl a List.mem_cons_self
      rw [List.cons_append, frames, if_neg (by rw [ha]; exact Bool.false_ne_true),
        ih (fun b hb ↦ hl b (List.mem_cons_of_mem _ hb)), List.append_assoc, List.singleton_append]

theorem frames_of_none {s : List α} (hs : ∀ a ∈ s, p a = false) : frames p [] s = [] := by
  have happend := frames_append hs [] []
  rwa [List.append_nil] at happend

/-- A terminator by itself adds nothing. -/
theorem frames_skip {a : α} (ha : p a = true) (s : List α) :
    frames p [] (a :: s) = frames p [] s := by
  rw [frames, if_pos ha]
  rfl

/-- A frame that is not empty, up to its terminator. -/
theorem frames_cons {l : List α} (hl : ∀ a ∈ l, p a = false) (hne : l ≠ []) {a : α}
    (ha : p a = true) (s : List α) : frames p [] (l ++ a :: s) = l :: frames p [] s := by
  rw [frames_append hl, List.nil_append, frames, if_pos ha, if_neg]
  rwa [List.isEmpty_iff]

/-- The first terminator. -/
theorem exists_terminator {s : List α} {a : α} (ha : a ∈ s) (hp : p a = true) :
    ∃ l e rest, s = l ++ e :: rest ∧ (∀ b ∈ l, p b = false) ∧ p e = true := by
  obtain ⟨e, hfind⟩ := Option.isSome_iff_exists.mp (List.find?_isSome.mpr ⟨a, ha, hp⟩)
  obtain ⟨he, l, rest, heq, hl⟩ := List.find?_eq_some_iff_append.mp hfind
  refine ⟨l, e, rest, heq, fun b hb ↦ ?_, he⟩
  have hnot := hl b hb
  rwa [Bool.not_eq_true'] at hnot

end Beirdobot.Library
