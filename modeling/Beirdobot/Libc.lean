import Mathlib.Data.List.Basic
import Mathlib.Data.Nat.Notation
import Mathlib.Algebra.Group.Nat.Defs

/-!
# C strings and machine words

What the modelled files use of the C library and of the types of the language.
-/

namespace Beirdobot

/-- A string without its terminating NUL. -/
abbrev CString := List Char

/-- `strcasecmp( l, r ) == 0` in the C locale. -/
def sameIgnoringCase (l r : CString) : Bool := l.map Char.toLower == r.map Char.toLower

theorem sameIgnoringCase_iff {l r : CString} :
    sameIgnoringCase l r = true ↔ l.map Char.toLower = r.map Char.toLower := by
  rw [sameIgnoringCase, beq_iff_eq]

@[simp] theorem sameIgnoringCase_refl (l : CString) : sameIgnoringCase l l = true := by
  rw [sameIgnoringCase_iff]

theorem sameIgnoringCase_symm {l r : CString} (h : sameIgnoringCase l r = true) :
    sameIgnoringCase r l = true := by
  rw [sameIgnoringCase_iff] at h ⊢
  exact h.symm

theorem sameIgnoringCase_trans {l m r : CString} (h : sameIgnoringCase l m = true)
    (h' : sameIgnoringCase m r = true) : sameIgnoringCase l r = true := by
  rw [sameIgnoringCase_iff] at h h' ⊢
  exact h.trans h'

/-- What `strcasecmp` compares of a string. -/
def caseless (s : CString) : CString := s.map Char.toLower

/-- `isspace` in the C locale. -/
def isSpace (c : Char) : Bool := [' ', '\t', '\n', '\x0b', '\x0c', '\r'].contains c

/-- The digits that `atoi` reads. -/
def atoiDigits (s : CString) : ℕ := Nat.ofDigitChars 10 (s.takeWhile Char.isDigit) 0

/-- `atoi`, where the number fits an `int`. -/
def atoi (s : CString) : ℤ :=
  match s.dropWhile isSpace with
  | '-' :: s => -atoiDigits s
  | '+' :: s => atoiDigits s
  | s => atoiDigits s

/-- The digits are read up to the first other character. -/
theorem atoiDigits_append {digits rest : CString} (hdigits : ∀ c ∈ digits, c.isDigit = true)
    (hrest : rest.takeWhile Char.isDigit = []) :
    atoiDigits (digits ++ rest) = Nat.ofDigitChars 10 digits 0 := by
  rw [atoiDigits, List.takeWhile_append_of_pos hdigits, hrest, List.append_nil]

theorem atoi_negative {digits rest : CString} (hdigits : ∀ c ∈ digits, c.isDigit = true)
    (hrest : rest.takeWhile Char.isDigit = []) :
    atoi ('-' :: (digits ++ rest)) = -Nat.ofDigitChars 10 digits 0 :=
  congrArg (fun n : ℕ ↦ -(n : ℤ)) (atoiDigits_append hdigits hrest)

theorem atoi_digits {digits rest : CString} (hdigits : ∀ c ∈ digits, c.isDigit = true)
    (hne : digits ≠ []) (hrest : rest.takeWhile Char.isDigit = []) :
    atoi (digits ++ rest) = Nat.ofDigitChars 10 digits 0 := by
  have hread := atoiDigits_append hdigits hrest
  cases h : digits with
  | nil => exact absurd h hne
  | cons c s =>
      have hc : c.isDigit = true := hdigits c (by simp [h])
      have hother : ∀ d : Char, d.isDigit = false → c ≠ d := by
        rintro d hd rfl
        rw [hc] at hd
        cases hd
      have hspace : isSpace c = false := by
        simp only [isSpace, List.contains_eq_mem, decide_eq_false_iff_not, List.mem_cons,
          List.not_mem_nil, or_false, not_or]
        exact ⟨hother _ rfl, hother _ rfl, hother _ rfl, hother _ rfl, hother _ rfl, hother _ rfl⟩
      rw [h, List.cons_append] at hread
      rw [List.cons_append]
      unfold atoi
      rw [List.dropWhile_cons_of_neg (by simp [hspace])]
      split
      · rename_i heq
        cases heq
        exact absurd rfl (hother '-' rfl)
      · rename_i heq
        cases heq
        exact absurd rfl (hother '+' rfl)
      · rw [hread]

theorem atoi_toDigits (n : ℕ) : atoi (Nat.toDigits 10 n) = n := by
  have hdigits : ∀ c ∈ Nat.toDigits 10 n, c.isDigit = true := fun c hc ↦
    Nat.isDigit_of_mem_toDigits (by decide) (by decide) hc
  have hread := atoi_digits hdigits Nat.toDigits_ne_nil (List.takeWhile_nil : ([] : CString).takeWhile Char.isDigit = [])
  rwa [List.append_nil, Nat.ofDigitChars_ten_toDigits] at hread

/-- A `malloc` on numbers: an address above all that are in use. -/
def firstFree (live : List ℕ) : ℕ := live.foldr max 0 + 1

theorem firstFree_not_mem (live : List ℕ) : firstFree live ∉ live := by
  have hmax : ∀ x ∈ live, x ≤ live.foldr max 0 := by
    intro x hx
    induction live with
    | nil => cases hx
    | cons y live ih =>
        rw [List.foldr_cons]
        rcases List.mem_cons.mp hx with rfl | hx
        · exact Nat.le_max_left ..
        · exact Nat.le_trans (ih hx) (Nat.le_max_right ..)
  exact fun h ↦ Nat.not_succ_le_self _ (hmax _ h)

/-- Storing a number in an `unsigned int` (or a `uint32`). -/
def u32 (x : ℕ) : ℕ := x % 2 ^ 32

end Beirdobot
