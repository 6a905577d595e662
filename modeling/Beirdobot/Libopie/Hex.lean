import Beirdobot.Library.IPv6
import Beirdobot.Libopie.Words

/-!
# One-time passwords in hexadecimal

Transcriptions of `opiebtoa8`, `opiebtoh` and `opieatob8`.
-/

namespace Beirdobot.Libopie

open Library

/-- `hextochar` of `btoa8.c`. -/
def hextochar (n : ℕ) : Char := "0123456789abcdef".toList.getD n '0'

/-- The two digits of a byte. -/
def hexByte (b : BitVec 8) : CString := [hextochar (b.toNat >>> 4 &&& 0xf), hextochar (b.toNat &&& 0xf)]

/-- `opiebtoa8` -/
def opiebtoa8 (c : Key) : CString := (List.ofFn c).flatMap hexByte

/-- `opiebtoh`, which has capital letters, and blanks after each second byte. -/
def opiebtoh (c : Key) : CString :=
  let byte := fun i ↦ (hexByte (c i)).map Char.toUpper
  byte 0 ++ byte 1 ++ [' '] ++ byte 2 ++ byte 3 ++ [' '] ++ byte 4 ++ byte 5 ++ [' '] ++
    byte 6 ++ byte 7

def isBlank (c : Char) : Bool := c = ' ' || c = '\t'

/-- A digit, with the blanks before it. -/
def readDigit (s : CString) : Option (ℕ × CString) :=
  match s.dropWhile isBlank with
  | [] => none
  | c :: s => (IPv6.hexValue c).map fun val ↦ (val, s)

/-- The loop of `opieatob8`, of which some turns are left. -/
def atob8Loop : ℕ → CString → Option (List (BitVec 8))
  | 0, _ => some []
  | left + 1, s => do
      let (high, s) ← readDigit s
      let (low, s) ← readDigit s
      let out ← atob8Loop left s
      some (BitVec.ofNat 8 (high <<< 4 ||| low) :: out)

/-- `opieatob8`, where it succeeds. -/
def opieatob8 (s : CString) : Option Key :=
  (atob8Loop 8 s).map fun out i ↦ out.getD i 0

/-! ## Digits -/

/-- The digits of seven bits, one by one. -/
theorem hexValue_ascii : ∀ n < 128, (∀ v < 16, IPv6.hexValue (Char.ofNat n) = some v ↔
    (Char.ofNat n).toLower = hextochar v) ∧ ∀ v ∈ IPv6.hexValue (Char.ofNat n), v < 16 := by
  decide +kernel

theorem hextochar_ascii : ∀ v < 16, (hextochar v).toNat < 128 := by
  decide

theorem toNat_toLower {c : Char} (hc : 128 ≤ c.toNat) : c.toLower = c := by
  refine dif_neg ?_
  rintro ⟨-, hle⟩
  have hle' : c.toNat ≤ 90 := hle
  omega

theorem hexValue_of_le {c : Char} (hc : 128 ≤ c.toNat) : IPv6.hexValue c = none := by
  have hgt : ∀ d : Char, d.toNat < 128 → ¬ c ≤ d := by
    intro d hd hle
    have hle' : c.toNat ≤ d.toNat := hle
    omega
  rw [IPv6.hexValue, if_neg fun h ↦ hgt '9' (by decide) h.2, if_neg fun h ↦ hgt 'f' (by decide) h.2,
    if_neg fun h ↦ hgt 'F' (by decide) h.2]

/-- A digit, in either case. -/
theorem hexValue_iff {c : Char} {v : ℕ} :
    IPv6.hexValue c = some v ↔ v < 16 ∧ c.toLower = hextochar v := by
  by_cases hc : c.toNat < 128
  · obtain ⟨hall, hlt⟩ := hexValue_ascii c.toNat hc
    rw [Char.ofNat_toNat] at hall hlt
    constructor
    · intro h
      exact ⟨hlt v h, (hall v (hlt v h)).mp h⟩
    · rintro ⟨hv, h⟩
      exact (hall v hv).mpr h
  · constructor
    · intro h
      rw [hexValue_of_le (Nat.le_of_not_lt hc)] at h
      cases h
    · rintro ⟨hv, h⟩
      have hascii := hextochar_ascii v hv
      rw [← h, toNat_toLower (Nat.le_of_not_lt hc)] at hascii
      exact absurd hascii hc

section Reading

variable {s : CString}

/-- The characters that are not skipped. -/
def digits (s : CString) : CString := s.filter fun c ↦ !isBlank c

theorem digits_dropWhile (s : CString) : digits (s.dropWhile isBlank) = digits s := by
  induction s with
  | nil => rfl
  | cons c s ih =>
      by_cases hc : isBlank c = true
      · rw [List.dropWhile_cons_of_pos hc, ih, digits, digits,
          List.filter_cons_of_neg (by rw [hc]; decide)]
      · rw [List.dropWhile_cons_of_neg hc]

theorem digits_cons {c : Char} {rest : CString} (h : s.dropWhile isBlank = c :: rest) :
    digits s = c :: digits rest := by
  have hc := List.head?_dropWhile_not isBlank s
  rw [h] at hc
  rw [← digits_dropWhile, h, digits, List.filter_cons_of_pos (by rw [hc]; rfl)]
  rfl

theorem readDigit_eq_some {v : ℕ} {rest : CString} (h : readDigit s = some (v, rest)) :
    v < 16 ∧ ∃ c, digits s = c :: digits rest ∧ c.toLower = hextochar v := by
  rw [readDigit] at h
  cases hs : s.dropWhile isBlank with
  | nil =>
      rw [hs] at h
      cases h
  | cons c s =>
      rw [hs] at h
      obtain ⟨v', hv', heq⟩ := Option.map_eq_some_iff.mp h
      cases heq
      obtain ⟨hlt, hlower⟩ := hexValue_iff.mp hv'
      exact ⟨hlt, c, digits_cons hs, hlower⟩

theorem readDigit_of_digits {c : Char} {cs : CString} {v : ℕ} (h : digits s = c :: cs)
    (hv : v < 16) (hc : c.toLower = hextochar v) :
    ∃ rest, readDigit s = some (v, rest) ∧ digits rest = cs := by
  cases hs : s.dropWhile isBlank with
  | nil =>
      rw [← digits_dropWhile, hs] at h
      cases h
  | cons c' rest =>
      rw [digits_cons hs] at h
      obtain ⟨rfl, rfl⟩ := List.cons.inj h
      refine ⟨rest, ?_, rfl⟩
      rw [readDigit, hs]
      simp only [hexValue_iff.mpr ⟨hv, hc⟩, Option.map_some]

theorem hexByte_ofNat : ∀ high < 16, ∀ low < 16,
    hexByte (BitVec.ofNat 8 (high <<< 4 ||| low)) = [hextochar high, hextochar low] := by
  decide +kernel

theorem ofNat_halves : ∀ b : BitVec 8,
    BitVec.ofNat 8 ((b.toNat >>> 4 &&& 0xf) <<< 4 ||| (b.toNat &&& 0xf)) = b := by
  decide +kernel

/-- The bytes that are read are those of which the first digits are the text. -/
theorem atob8Loop_iff {left : ℕ} {out : List (BitVec 8)} : atob8Loop left s = some out ↔
    out.length = left ∧ ((digits s).take (2 * left)).map Char.toLower = out.flatMap hexByte := by
  induction left generalizing s out with
  | zero =>
      rw [atob8Loop, Option.some_inj]
      constructor
      · rintro rfl
        exact ⟨rfl, rfl⟩
      · rintro ⟨hlength, -⟩
        exact (List.eq_nil_of_length_eq_zero hlength).symm
  | succ left ih =>
      constructor
      · intro h
        obtain ⟨⟨high, s₁⟩, hhigh, h⟩ := Option.bind_eq_some_iff.mp h
        obtain ⟨⟨low, s₂⟩, hlow, h⟩ := Option.bind_eq_some_iff.mp h
        obtain ⟨out', hout, h⟩ := Option.bind_eq_some_iff.mp h
        cases h
        obtain ⟨hlt, c, hc, hlower⟩ := readDigit_eq_some hhigh
        obtain ⟨hlt', c', hc', hlower'⟩ := readDigit_eq_some hlow
        obtain ⟨hlength, hrest⟩ := ih.mp hout
        refine ⟨by rw [List.length_cons, hlength], ?_⟩
        rw [hc, hc', Nat.mul_add_one, List.take_succ_cons, List.take_succ_cons, List.map_cons,
          List.map_cons, hrest, hlower, hlower', List.flatMap_cons, hexByte_ofNat high hlt low hlt']
        rfl
      · rintro ⟨hlength, htext⟩
        obtain ⟨b, out, rfl⟩ := List.exists_cons_of_length_eq_add_one hlength
        have hhigh : b.toNat >>> 4 &&& 0xf < 16 := Nat.lt_succ_of_le Nat.and_le_right
        have hlow : b.toNat &&& 0xf < 16 := Nat.lt_succ_of_le Nat.and_le_right
        rw [Nat.mul_add_one] at htext
        match hs : digits s with
        | [] =>
            rw [hs] at htext
            cases htext
        | [_] =>
            rw [hs] at htext
            cases (List.cons.inj htext).2
        | c :: c' :: cs =>
            rw [hs, List.take_succ_cons, List.take_succ_cons] at htext
            obtain ⟨hc, htext⟩ := List.cons.inj htext
            obtain ⟨hc', htext⟩ := List.cons.inj htext
            obtain ⟨s₁, hread, hs₁⟩ := readDigit_of_digits hs hhigh hc
            obtain ⟨s₂, hread', rfl⟩ := readDigit_of_digits hs₁ hlow hc'
            have hout := ih.mpr ⟨Nat.succ.inj hlength, htext⟩
            rw [atob8Loop, hread]
            simp only [Option.bind_eq_bind, Option.bind_some, hread', hout, ofNat_halves]

end Reading

/-- A key is read from the texts that begin with its digits, in either case and with any blanks. -/
theorem opieatob8_iff (s : CString) (key : Key) :
    opieatob8 s = some key ↔ ((digits s).take 16).map Char.toLower = opiebtoa8 key := by
  rw [opieatob8, Option.map_eq_some_iff]
  constructor
  · rintro ⟨out, hout, rfl⟩
    obtain ⟨hlength, htext⟩ := atob8Loop_iff.mp hout
    have hofFn : List.ofFn (fun i : Fin 8 ↦ out.getD i 0) = out := by
      apply List.ext_getElem (by rw [List.length_ofFn, hlength])
      intro i hi hi'
      rw [List.getElem_ofFn, List.getD_eq_getElem _ _ hi']
    rw [opiebtoa8, hofFn, ← htext]
  · intro h
    refine ⟨List.ofFn key, atob8Loop_iff.mpr ⟨List.length_ofFn, h⟩, ?_⟩
    funext i
    rw [List.getD_eq_getElem _ _ (by rw [List.length_ofFn]; exact i.isLt), List.getElem_ofFn]

theorem toLower_hexByte : ∀ b : BitVec 8, (hexByte b).map Char.toLower = hexByte b ∧
    ((hexByte b).map Char.toUpper).map Char.toLower = hexByte b := by
  decide +kernel

theorem digits_hexByte : ∀ b : BitVec 8, digits (hexByte b) = hexByte b ∧
    digits ((hexByte b).map Char.toUpper) = (hexByte b).map Char.toUpper := by
  decide +kernel

theorem digits_append (s t : CString) : digits (s ++ t) = digits s ++ digits t :=
  List.filter_append ..

/-- Digits in either case are digits of the bytes. -/
theorem digits_flatMap (f : BitVec 8 → CString)
    (hf : ∀ b, digits (f b) = f b ∧ (f b).map Char.toLower = hexByte b) (bs : List (BitVec 8)) :
    (digits (bs.flatMap f)).map Char.toLower = bs.flatMap hexByte := by
  induction bs with
  | nil => rfl
  | cons b bs ih =>
      rw [List.flatMap_cons, List.flatMap_cons, digits_append, List.map_append, ih, (hf b).1,
        (hf b).2]

theorem length_opiebtoa8 (key : Key) : (opiebtoa8 key).length = 16 := by
  have hlength : ∀ bs : List (BitVec 8), (bs.flatMap hexByte).length = 2 * bs.length := by
    intro bs
    induction bs with
    | nil => rfl
    | cons b bs ih =>
        rw [List.flatMap_cons, List.length_append, ih, List.length_cons, hexByte, List.length_cons,
          List.length_singleton]
        omega
  rw [opiebtoa8, hlength, List.length_ofFn]

theorem opieatob8_of_digits {s : CString} {key : Key}
    (h : (digits s).map Char.toLower = opiebtoa8 key) : opieatob8 s = some key := by
  have hlength : (digits s).length = 16 := by
    rw [← List.length_map Char.toLower, h, length_opiebtoa8]
  rw [opieatob8_iff, List.take_of_length_le (by omega), h]

/-- A key is read back from both ways of writing it in hexadecimal, and from each text that begins
with its digits, in any case and with any blanks; and from no other text. -/
theorem opieatob8_opiebtoa8 (key : Key) :
    opieatob8 (opiebtoa8 key) = some key ∧ opieatob8 (opiebtoh key) = some key ∧
      ∀ s, opieatob8 s = some key ↔ ((digits s).take 16).map Char.toLower = opiebtoa8 key := by
  refine ⟨?_, ?_, fun s ↦ opieatob8_iff s key⟩
  · apply opieatob8_of_digits
    exact digits_flatMap hexByte (fun b ↦ ⟨(digits_hexByte b).1, (toLower_hexByte b).1⟩) _
  · apply opieatob8_of_digits
    rw [opiebtoa8, ← digits_flatMap (fun b ↦ (hexByte b).map Char.toUpper) fun b ↦
      ⟨(digits_hexByte b).2, (toLower_hexByte b).2⟩]
    have hblank : digits [' '] = [] := rfl
    simp only [opiebtoh, digits_append, hblank, List.append_nil]
    simp [List.ofFn_succ, digits_append]

end Beirdobot.Libopie
