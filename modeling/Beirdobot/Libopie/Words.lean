import Beirdobot.Library.BitFields
import Beirdobot.Libopie.Dictionary
import Mathlib.Data.List.OfFn
import Mathlib.Data.List.TakeWhile

/-!
# One-time passwords as six words

Transcriptions of `opiebtoe` and `opieetob`: a key of eight bytes, and two bits of parity, are six
fields of eleven bits, and each is a word of the dictionary.  A key is read back from every text
that spells its words, and from no other text.
-/

namespace Beirdobot.Libopie

open Library

/-- A `char[8]`. -/
abbrev Key := Fin 8 → BitVec 8

instance : DecidableEq Key := fun c c' ↦
  decidable_of_iff (List.ofFn c = List.ofFn c') List.ofFn_inj

/-- The bytes of a key, with what lies behind them. -/
def Key.bytes (key : Key) (stack : Bytes) : Bytes :=
  fun i ↦ if h : i < 8 then key ⟨i, h⟩ else stack i

/-- `extract` -/
def extract (s : Bytes) (start length : ℕ) : ℕ :=
  let cl := (s (start / 8)).toNat
  let cc := (s (start / 8 + 1)).toNat
  let cr := (s (start / 8 + 2)).toNat
  let x := (cl <<< 8 ||| cc) <<< 8 ||| cr
  let x := x >>> (24 - (length + start % 8))
  x &&& (0xffff >>> (16 - length))

/-- `insert` -/
def insert (s : Bytes) (x start length : ℕ) : Bytes :=
  let shift := (8 - (start + length) % 8) % 8
  let y := x <<< shift
  let cl := y >>> 16 &&& 0xff
  let cc := y >>> 8 &&& 0xff
  let cr := y &&& 0xff
  if shift + length > 16 then
    ((s.putByte (start / 8) cl).putByte (start / 8 + 1) cc).putByte (start / 8 + 2) cr
  else if shift + length > 8 then (s.putByte (start / 8) cc).putByte (start / 8 + 1) cr
  else s.putByte (start / 8) cr


/-- The sum of the pairs of bits. -/
def parity (s : Bytes) : ℕ := ((List.range 32).map fun i ↦ extract s (2 * i) 2).sum

/-- `cp`, with the parity behind the key. -/
def Key.withParity (c : Key) (stack : Bytes) : Bytes :=
  Function.update (c.bytes stack) 8 (BitVec.ofNat 8 (parity (c.bytes stack) <<< 6))

/-- `opiebtoe`; the `stack` is what its array has before, and what lies behind it. -/
def opiebtoe (stack : Bytes) (c : Key) : CString :=
  let cp := c.withParity stack
  (wp (extract cp 0 11)).take 4 ++ [' '] ++ (wp (extract cp 11 11)).take 4 ++ [' '] ++
    (wp (extract cp 22 11)).take 4 ++ [' '] ++ (wp (extract cp 33 11)).take 4 ++ [' '] ++
    (wp (extract cp 44 11)).take 4 ++ [' '] ++ (wp (extract cp 55 11)).take 4

/-- What `opieetob` makes of a character of a word. -/
def letter (c : Char) : Char :=
  let c := if c.isLower then c.toUpper else c
  let c := if c = '1' then 'L' else c
  let c := if c = '0' then 'O' else c
  if c = '5' then 'S' else c

/-- The loop of `opieetob`, of which some turns are left. -/
def etobLoop : ℕ → CString → ℕ → Bytes → Except ℤ Bytes
  | 0, _, _, b => .ok b
  | left + 1, c, p, b =>
      let c := c.dropWhile fun c ↦ !c.isAlpha
      let word := (c.map letter).takeWhile Char.isAlpha
      let c := c.drop word.length
      if c = [] ∧ left ≠ 0 then .error (-1)
      else if word.length > 4 ∨ word.length < 1 then .error (-1)
      else
        match if word.length < 4 then wsrch word 0 570 else wsrch word 571 2047 with
        | none => .error 0
        | some v => etobLoop left c.tail (p + 11) (insert b v p 11)

/-- The array `b` before the loop. -/
def cleared (stack : Bytes) : Bytes := fun i ↦ if i < 9 then 0 else stack i

/-- `opieetob`: its value, and `out`. -/
def opieetob (stack : Bytes) (e : CString) : ℤ × Key :=
  match etobLoop 6 (e.take 64) 0 (cleared stack) with
  | .error rval => (rval, fun _ ↦ 0)
  | .ok b =>
      if parity b &&& 3 ≠ extract b 64 2 then (-2, fun _ ↦ 0) else (1, fun i ↦ b i)

/-! ## Fields of bits -/

section Fields

variable {start length : ℕ}


theorem testBit_mask {length : ℕ} (hlength : length ≤ 16) (j : ℕ) :
    (0xffff >>> (16 - length)).testBit j = decide (j < length) := by
  rw [Nat.testBit_shiftRight, show (0xffff : ℕ) = 2 ^ 16 - 1 from rfl, Nat.testBit_two_pow_sub_one]
  apply decide_eq_decide.mpr
  omega

/-- What lies behind the field is shifted out. -/
theorem testBit_extract (s : Bytes) (hlength : length ≤ 16) (j : ℕ) :
    (extract s start length).testBit j =
      (decide (j < length) && s.bit (start + length - 1 - j)) := by
  by_cases hj : j < length
  · rw [extract, Nat.testBit_and, testBit_mask hlength, decide_eq_true hj, Bool.and_true,
      Bool.true_and, Nat.testBit_shiftRight, Bytes.testBit_three _ _ (by omega)]
    congr 1
    omega
  · rw [extract, Nat.testBit_and, testBit_mask hlength, decide_eq_false hj, Bool.and_false,
      Bool.false_and]


theorem testBit_byte (y sh k : ℕ) :
    (y >>> sh &&& 0xff).testBit (7 - k % 8) = y.testBit (sh + (7 - k % 8)) := by
  rw [Nat.testBit_and, show (0xff : ℕ) = 2 ^ 8 - 1 from rfl, Nat.testBit_two_pow_sub_one,
    decide_eq_true (by omega), Bool.and_true, Nat.testBit_shiftRight]

/-- The bits of the field, where its last byte ends. -/
theorem testBit_field {x shift k : ℕ} (hx : x < 2 ^ length) (hk : k < start + length + shift) :
    (x <<< shift).testBit (start + length + shift - 1 - k) =
      (decide (start ≤ k ∧ k < start + length) && x.testBit (start + length - 1 - k)) := by
  rw [Nat.testBit_shiftLeft]
  by_cases hend : k < start + length
  · rw [decide_eq_true (by omega), Bool.true_and,
      show start + length + shift - 1 - k - shift = start + length - 1 - k by omega]
    by_cases hstart : start ≤ k
    · rw [decide_eq_true ⟨hstart, hend⟩, Bool.true_and]
    · have hhigh : x < 2 ^ (start + length - 1 - k) :=
        Nat.lt_of_lt_of_le hx (Nat.pow_le_pow_right Nat.two_pos (by omega))
      rw [Nat.testBit_lt_two_pow hhigh, Bool.and_false]
  · rw [decide_eq_false (by omega), decide_eq_false (by omega), Bool.false_and, Bool.false_and]

/-- What one of the bytes gets. -/
theorem testBit_put {x shift k : ℕ} (start : ℕ) (hx : x < 2 ^ length) (sh i : ℕ)
    (hi : 8 * i + sh + 8 = start + length + shift) :
    (decide (k / 8 = i) && (x <<< shift >>> sh &&& 0xff).testBit (7 - k % 8)) =
      (decide (k / 8 = i) &&
        (decide (start ≤ k ∧ k < start + length) && x.testBit (start + length - 1 - k))) := by
  by_cases hk : k / 8 = i
  · rw [testBit_byte, ← testBit_field hx (show k < start + length + shift by omega)]
    congr 2
    omega
  · rw [decide_eq_false hk, Bool.false_and, Bool.false_and]

/-- A bit of the field is set in the byte that it is in. -/
theorem or_cover₁ : ∀ {a b p : Bool}, (b = true → p = true) → (a || (p && b)) = (a || b) := by
  decide

theorem or_cover₂ : ∀ {a b p q : Bool}, (b = true → p = true ∨ q = true) →
    ((a || (p && b)) || (q && b)) = (a || b) := by
  decide

theorem or_cover₃ : ∀ {a b p q r : Bool}, (b = true → p = true ∨ q = true ∨ r = true) →
    (((a || (p && b)) || (q && b)) || (r && b)) = (a || b) := by
  decide

theorem bit_insert (s : Bytes) {x : ℕ} (hx : x < 2 ^ length) (hpos : 0 < length)
    (hlength : start % 8 + length ≤ 24) (k : ℕ) : (insert s x start length).bit k =
      (s.bit k ||
        (decide (start ≤ k ∧ k < start + length) && x.testBit (start + length - 1 - k))) := by
  have hzero : ∀ y : ℕ, y &&& 0xff = y >>> 0 &&& 0xff := fun y ↦ by rw [Nat.shiftRight_zero]
  have hcover : ∀ P : Prop, (start ≤ k ∧ k < start + length → P) →
      (decide (start ≤ k ∧ k < start + length) && x.testBit (start + length - 1 - k)) = true → P :=
    fun P hP hb ↦ hP (of_decide_eq_true (Bool.and_eq_true_iff.mp hb).1)
  rw [insert]
  split
  · rw [hzero (x <<< _), Bytes.bit_putByte, Bytes.bit_putByte, Bytes.bit_putByte,
      testBit_put start hx 16 (start / 8) (by omega),
      testBit_put start hx 8 (start / 8 + 1) (by omega),
      testBit_put start hx 0 (start / 8 + 2) (by omega)]
    apply or_cover₃
    apply hcover
    rw [decide_eq_true_iff, decide_eq_true_iff, decide_eq_true_iff]
    omega
  · split
    · rw [hzero (x <<< _), Bytes.bit_putByte, Bytes.bit_putByte,
        testBit_put start hx 8 (start / 8) (by omega),
        testBit_put start hx 0 (start / 8 + 1) (by omega)]
      apply or_cover₂
      apply hcover
      rw [decide_eq_true_iff, decide_eq_true_iff]
      omega
    · rw [hzero (x <<< _), Bytes.bit_putByte, testBit_put start hx 0 (start / 8) (by omega)]
      apply or_cover₁
      apply hcover
      rw [decide_eq_true_iff]
      omega

theorem extract_lt (s : Bytes) (hlength : length ≤ 16) : extract s start length < 2 ^ length := by
  apply Nat.lt_pow_two_of_testBit
  intro j hj
  rw [testBit_extract s hlength, decide_eq_false (by omega), Bool.false_and]

/-- A field depends on its own bits. -/
theorem extract_congr {s t : Bytes} (hlength : length ≤ 16)
    (h : ∀ k, start ≤ k → k < start + length → s.bit k = t.bit k) :
    extract s start length = extract t start length := by
  apply Nat.eq_of_testBit_eq
  intro j
  rw [testBit_extract s hlength, testBit_extract t hlength]
  by_cases hj : j < length
  · rw [h _ (by omega) (by omega)]
  · rw [decide_eq_false hj, Bool.false_and, Bool.false_and]

/-- The fields of eleven bits that are put one after the other. -/
def insertAll : List ℕ → ℕ → Bytes → Bytes
  | [], _, b => b
  | v :: vs, p, b => insertAll vs (p + 11) (insert b v p 11)

/-- A bit of these fields. -/
def fieldBit (vs : List ℕ) (k : ℕ) : Bool := (vs.getD (k / 11) 0).testBit (10 - k % 11)

theorem bit_insertAll {vs : List ℕ} (hvs : ∀ v ∈ vs, v < 2048) (p : ℕ) (b : Bytes) (k : ℕ) :
    (insertAll vs p b).bit k = (b.bit k || (decide (p ≤ k) && fieldBit vs (k - p))) := by
  induction vs generalizing p b with
  | nil => rw [insertAll, fieldBit, List.getD_nil, Nat.zero_testBit, Bool.and_false, Bool.or_false]
  | cons v vs ih =>
      have hv : v < 2 ^ 11 := hvs v List.mem_cons_self
      rw [insertAll, ih fun v h ↦ hvs v (List.mem_cons_of_mem _ h),
        bit_insert b hv (by decide) (by omega), Bool.or_assoc]
      congr 1
      by_cases hp : p ≤ k
      · by_cases hend : k < p + 11
        · rw [decide_eq_true ⟨hp, hend⟩, decide_eq_false (by omega), decide_eq_true hp, fieldBit,
            fieldBit, show (k - p) / 11 = 0 by omega, show p + 11 - 1 - k = 10 - (k - p) % 11 by omega,
            Bool.false_and, Bool.or_false]
          rfl
        · rw [decide_eq_false (by omega), decide_eq_true (by omega), decide_eq_true hp, fieldBit,
            fieldBit, show (k - p) / 11 = (k - (p + 11)) / 11 + 1 by omega,
            show (k - p) % 11 = (k - (p + 11)) % 11 by omega, Bool.false_and, Bool.false_or]
          rfl
      · rw [decide_eq_false (by omega), decide_eq_false (by omega), decide_eq_false hp,
          Bool.false_and, Bool.false_and, Bool.false_and]
        rfl

/-- The six fields of a key with its parity. -/
def fields (s : Bytes) : List ℕ := (List.range 6).map fun i ↦ extract s (11 * i) 11

theorem fields_lt (s : Bytes) : ∀ v ∈ fields s, v < 2048 := by
  intro v hv
  obtain ⟨i, -, rfl⟩ := List.mem_map.mp hv
  exact extract_lt s (by decide)

theorem length_fields (s : Bytes) : (fields s).length = 6 := by
  rw [fields, List.length_map, List.length_range]

theorem getD_fields (s : Bytes) {i : ℕ} (hi : i < 6) : (fields s).getD i 0 = extract s (11 * i) 11 := by
  rw [fields, List.getD_eq_getElem?_getD, List.getElem?_map, List.getElem?_range hi]
  rfl

theorem fields_congr {s t : Bytes} (h : ∀ k < 66, s.bit k = t.bit k) : fields s = fields t := by
  apply List.map_congr_left
  intro i hi
  have hlt := List.mem_range.mp hi
  exact extract_congr (by decide) fun k _ hk ↦ h k (by omega)

theorem fieldBit_fields (s : Bytes) {k : ℕ} (hk : k < 66) : fieldBit (fields s) k = s.bit k := by
  rw [fieldBit, getD_fields s (by omega), testBit_extract s (by decide), decide_eq_true (by omega),
    Bool.true_and]
  congr 1
  omega

theorem bit_cleared (stack : Bytes) {k : ℕ} (hk : k < 66) : (cleared stack).bit k = false := by
  rw [Bytes.bit, cleared, if_pos (by omega)]
  exact BitVec.getLsbD_zero

theorem bit_decoded {vs : List ℕ} (hvs : ∀ v ∈ vs, v < 2048) (stack : Bytes) {k : ℕ} (hk : k < 66) :
    (insertAll vs 0 (cleared stack)).bit k = fieldBit vs k := by
  rw [bit_insertAll hvs, bit_cleared stack hk, decide_eq_true (Nat.zero_le _), Bool.true_and,
    Bool.false_or, Nat.sub_zero]

theorem fields_decoded {vs : List ℕ} (hlength : vs.length = 6) (hvs : ∀ v ∈ vs, v < 2048)
    (stack : Bytes) : fields (insertAll vs 0 (cleared stack)) = vs := by
  apply List.ext_getElem (by rw [length_fields, hlength])
  intro i hi hi'
  rw [← List.getD_eq_getElem _ 0 hi, getD_fields _ (hlength ▸ hi')]
  apply Nat.eq_of_testBit_eq
  intro j
  rw [testBit_extract _ (by decide)]
  by_cases hj : j < 11
  · rw [decide_eq_true hj, Bool.true_and, bit_decoded hvs stack (by omega), fieldBit,
      show (11 * i + 11 - 1 - j) / 11 = i by omega,
      show 10 - (11 * i + 11 - 1 - j) % 11 = j by omega, List.getD_eq_getElem _ 0 hi']
  · have hlt : vs[i] < 2 ^ j :=
      Nat.lt_of_lt_of_le (hvs _ (List.getElem_mem hi')) (Nat.pow_le_pow_right (n := 2) (by decide)
        (show 11 ≤ j by omega))
    rw [decide_eq_false hj, Bool.false_and, Nat.testBit_lt_two_pow hlt]

/-! ## Parity -/

theorem parity_congr {s t : Bytes} (h : ∀ k < 64, s.bit k = t.bit k) : parity s = parity t := by
  rw [parity, parity]
  congr 1
  apply List.map_congr_left
  intro i hi
  have hlt := List.mem_range.mp hi
  exact extract_congr (by decide) fun k _ hk ↦ h k (by omega)

theorem bit_withParity (c : Key) (stack : Bytes) {k : ℕ} (hk : k < 64) :
    (c.withParity stack).bit k = (c.bytes stack).bit k :=
  Bytes.bit_congr (Function.update_of_ne (show k / 8 ≠ 8 by omega) _ _)

/-- The two bits behind the key are its parity. -/
theorem extract_withParity (c : Key) (stack : Bytes) :
    extract (c.withParity stack) 64 2 = parity (c.withParity stack) &&& 3 := by
  rw [parity_congr fun k hk ↦ bit_withParity c stack hk]
  apply Nat.eq_of_testBit_eq
  intro j
  rw [testBit_extract _ (by decide), Nat.testBit_and, show (3 : ℕ) = 2 ^ 2 - 1 from rfl,
    Nat.testBit_two_pow_sub_one, Bool.and_comm]
  by_cases hj : j < 2
  · rw [decide_eq_true hj, Bool.and_true, Bool.and_true, Bytes.bit, Key.withParity,
      show (64 + 2 - 1 - j) / 8 = 8 by omega, Function.update_self, BitVec.getLsbD_ofNat,
      show 7 - (64 + 2 - 1 - j) % 8 = 6 + j by omega, decide_eq_true (by omega), Bool.true_and,
      Nat.testBit_shiftLeft, decide_eq_true (by omega), Bool.true_and, Nat.add_sub_cancel_left]
  · rw [decide_eq_false hj, Bool.and_false, Bool.and_false]

theorem bit_bytes (c : Key) {s : Bytes} (h : ∀ i : Fin 8, c i = s i) (stack : Bytes) {k : ℕ}
    (hk : k < 64) : (c.bytes stack).bit k = s.bit k := by
  have hlt : k / 8 < 8 := by omega
  apply Bytes.bit_congr
  rw [Key.bytes, dif_pos hlt, h ⟨k / 8, hlt⟩]

/-- A key with its parity is any array with its bits and their parity. -/
theorem fields_withParity (c : Key) {b : Bytes} (h : ∀ i : Fin 8, c i = b i)
    (hparity : parity b &&& 3 = extract b 64 2) (stack : Bytes) :
    fields (c.withParity stack) = fields b := by
  have hlow : ∀ k < 64, (c.withParity stack).bit k = b.bit k := fun k hk ↦
    (bit_withParity c stack hk).trans (bit_bytes c h stack hk)
  apply fields_congr
  intro k hk
  by_cases hk' : k < 64
  · exact hlow k hk'
  · have hext : extract (c.withParity stack) 64 2 = extract b 64 2 := by
      rw [extract_withParity, parity_congr hlow, hparity]
    have hbit := congrArg (fun x ↦ x.testBit (65 - k)) hext
    simp only [testBit_extract _ (show 2 ≤ 16 by decide)] at hbit
    rwa [decide_eq_true (show 65 - k < 2 by omega), Bool.true_and, Bool.true_and,
      show 64 + 2 - 1 - (65 - k) = k by omega] at hbit

end Fields

/-! ## Texts -/

/-- A text that is read as the word: in any case, with digits for letters but not first. -/
structure Spells (text word : CString) : Prop where
  letters : text.map letter = word
  first : ∀ c ∈ text.head?, c.isAlpha = true

/-- A text with the words, and other characters between them and around them. -/
inductive Spelled : List CString → CString → Prop
  | last {gap text word rest : CString} (hgap : ∀ c ∈ gap, c.isAlpha = false)
      (htext : Spells text word) (hrest : ∀ c ∈ rest.head?, (letter c).isAlpha = false) :
      Spelled [word] (gap ++ text ++ rest)
  | cons {gap text word rest : CString} {sep : Char} {words : List CString}
      (hgap : ∀ c ∈ gap, c.isAlpha = false) (htext : Spells text word)
      (hsep : (letter sep).isAlpha = false) (hwords : words ≠ []) (h : Spelled words rest) :
      Spelled (word :: words) (gap ++ text ++ sep :: rest)

section Texts

variable {gap text word rest c : CString} {vs : List ℕ} {left : ℕ}

/-- The word that `opieetob` reads, and what is left. -/
theorem readWord_eq (hgap : ∀ c ∈ gap, c.isAlpha = false) (htext : Spells text word)
    (hword : Letters 1 4 word) (hrest : ∀ c ∈ rest.head?, (letter c).isAlpha = false) :
    (gap ++ text ++ rest).dropWhile (fun c ↦ !c.isAlpha) = text ++ rest ∧
      ((text ++ rest).map letter).takeWhile Char.isAlpha = word ∧
      (text ++ rest).drop word.length = rest := by
  have hlength : text.length = word.length := by
    rw [← htext.letters, List.length_map]
  refine ⟨?_, ?_, ?_⟩
  · rw [List.append_assoc, List.dropWhile_append_of_pos]
    · cases text with
      | nil =>
          have hleast := hword.least_le
          rw [← hlength] at hleast
          cases hleast
      | cons a text =>
          have ha := htext.first a rfl
          rw [List.cons_append, List.dropWhile_cons_of_neg (by rw [ha]; decide)]
    · intro a ha
      rw [hgap a ha]
      rfl
  · rw [List.map_append, htext.letters, List.takeWhile_append_of_pos]
    · cases rest with
      | nil => rw [List.map_nil, List.takeWhile_nil, List.append_nil]
      | cons a rest =>
          have ha := hrest a rfl
          rw [List.map_cons, List.takeWhile_cons_of_neg (by rw [ha]; decide), List.append_nil]
    · intro a ha
      exact Bool.or_eq_true_iff.mpr (.inl (List.all_eq_true.mp hword.isUpper a ha))
  · rw [← hlength, List.drop_left]

/-- The search for a word of the dictionary, in its range. -/
theorem wsrch_wp {v : ℕ} (hv : v < 2048) :
    (if (wp v).length < 4 then wsrch (wp v) 0 570 else wsrch (wp v) 571 2047) = some v := by
  by_cases hshort : v < 571
  · rw [if_pos (Nat.lt_succ_of_le (wp_short hshort).le_most)]
    exact wsrch_complete sorted_short (Nat.zero_le _) (by omega) rfl
  · have hlong := (wp_long (Nat.le_of_not_lt hshort) hv).least_le
    rw [if_neg (by omega)]
    exact wsrch_complete sorted_long (by omega) (by omega) rfl

/-- What the search finds is the word. -/
theorem wsrch_eq {v : ℕ} (hlength : word.length ≤ 4)
    (h : (if word.length < 4 then wsrch word 0 570 else wsrch word 571 2047) = some v) :
    v < 2048 ∧ wp v = word := by
  have hrange : v < 2048 ∧ word.take 4 = (wp v).take 4 := by
    split at h
    · obtain ⟨-, hhigh, heq⟩ := wsrch_sound (Nat.zero_le _) h
      exact ⟨by omega, heq⟩
    · obtain ⟨-, hhigh, heq⟩ := wsrch_sound (by decide) h
      exact ⟨by omega, heq⟩
  refine ⟨hrange.1, ?_⟩
  rw [← take_wp hrange.1, ← hrange.2, List.take_of_length_le hlength]

/-- The turn of the loop that reads a word. -/
theorem etobLoop_word {v : ℕ} (hv : v < 2048) (hgap : ∀ c ∈ gap, c.isAlpha = false)
    (htext : Spells text (wp v)) (hrest : ∀ c ∈ rest.head?, (letter c).isAlpha = false)
    (hmore : rest = [] → left = 0) (p : ℕ) (b : Bytes) :
    etobLoop (left + 1) (gap ++ text ++ rest) p b =
      etobLoop left rest.tail (p + 11) (insert b v p 11) := by
  have hletters := wp_letters hv
  obtain ⟨hdrop, hword, hrest'⟩ := readWord_eq hgap htext hletters hrest
  have hleast := hletters.least_le
  have hmost := hletters.le_most
  rw [etobLoop]
  simp only [hdrop, hword, hrest', wsrch_wp hv]
  rw [if_neg, if_neg (by omega)]
  rintro ⟨hnil, hleft⟩
  exact hleft (hmore hnil)

theorem etobLoop_spelled {words : List CString} (h : Spelled words c) (hwords : words = vs.map wp)
    (hvs : ∀ v ∈ vs, v < 2048) (p : ℕ) (b : Bytes) :
    etobLoop vs.length c p b = .ok (insertAll vs p b) := by
  induction h generalizing vs p b with
  | last hgap htext hrest =>
      obtain ⟨v, rfl, rfl⟩ := List.map_eq_singleton_iff.mp hwords.symm
      rw [List.length_singleton, etobLoop_word (hvs v List.mem_cons_self) hgap htext hrest fun _ ↦ rfl]
      rfl
  | cons hgap htext hsep hne _ ih =>
      obtain ⟨v, vs, rfl, rfl, rfl⟩ := List.map_eq_cons_iff.mp hwords.symm
      rw [List.length_cons, etobLoop_word (hvs v List.mem_cons_self) hgap htext]
      · exact ih rfl (fun v hv ↦ hvs v (List.mem_cons_of_mem _ hv)) _ _
      · intro a ha
        cases ha
        exact hsep
      · intro hnil
        cases hnil

/-- A word that is read is spelled by a part of the text. -/
theorem spells_takeWhile (c : CString) (hc : ∀ a ∈ c.head?, a.isAlpha = true) :
    ∃ text rest, c = text ++ rest ∧ Spells text ((c.map letter).takeWhile Char.isAlpha) ∧
      (∀ a ∈ rest.head?, (letter a).isAlpha = false) ∧
      c.drop ((c.map letter).takeWhile Char.isAlpha).length = rest := by
  have hsplit := (List.takeWhile_append_dropWhile (p := Char.isAlpha) (l := c.map letter)).symm
  obtain ⟨text, rest, rfl, htext, hrest⟩ := List.map_eq_append_iff.mp hsplit
  have hlength : text.length = (((text ++ rest).map letter).takeWhile Char.isAlpha).length := by
    rw [← htext, List.length_map]
  refine ⟨text, rest, rfl, ⟨htext, fun a ha ↦ hc a ?_⟩, fun a ha ↦ ?_, ?_⟩
  · cases text with
    | nil => cases ha
    | cons => exact ha
  · have hnot := List.head?_dropWhile_not Char.isAlpha ((text ++ rest).map letter)
    rw [← hrest, List.head?_map, ha] at hnot
    exact hnot
  · rw [← hlength, List.drop_left]

/-- What a turn of the loop has read. -/
theorem etobLoop_succ {p : ℕ} {b b' : Bytes} (h : etobLoop (left + 1) c p b = .ok b') :
    ∃ v gap text rest, v < 2048 ∧ c = gap ++ text ++ rest ∧ (∀ c ∈ gap, c.isAlpha = false) ∧
      Spells text (wp v) ∧ (∀ c ∈ rest.head?, (letter c).isAlpha = false) ∧
      (rest = [] → left = 0) ∧ etobLoop left rest.tail (p + 11) (insert b v p 11) = .ok b' := by
  have hhead : ∀ a ∈ (c.dropWhile fun c ↦ !c.isAlpha).head?, a.isAlpha = true := by
    intro a ha
    have hnot := List.head?_dropWhile_not (fun c ↦ !c.isAlpha) c
    rw [ha] at hnot
    exact (Bool.not_eq_false' _).mp hnot
  obtain ⟨text, rest, hsplit, htext, hrest, hdrop⟩ := spells_takeWhile _ hhead
  rw [etobLoop] at h
  simp only [hdrop] at h
  split at h
  · cases h
  · rename_i hmore
    split at h
    · cases h
    · rename_i hlength
      split at h
      · cases h
      · rename_i v hfound
        obtain ⟨hv, hword⟩ : v < 2048 ∧ wp v = _ := wsrch_eq (by omega) hfound
        rw [← hword] at htext
        refine ⟨v, c.takeWhile fun c ↦ !c.isAlpha, text, rest, hv, ?_, ?_, htext, hrest, ?_, h⟩
        · rw [List.append_assoc, ← hsplit, List.takeWhile_append_dropWhile]
        · intro a ha
          have hnot := List.mem_takeWhile_imp (p := fun c : Char ↦ !c.isAlpha) ha
          exact (Bool.not_eq_true' _).mp hnot
        · intro hnil
          by_contra hleft
          exact hmore ⟨hnil, hleft⟩

theorem etobLoop_error {p : ℕ} {b : Bytes} {rval : ℤ} (h : etobLoop left c p b = .error rval) :
    rval ≠ 1 := by
  induction left generalizing c p b with
  | zero => cases h
  | succ left ih =>
      rw [etobLoop] at h
      split at h
      · cases h
        decide
      · split at h
        · cases h
          decide
        · split at h
          · cases h
            decide
          · exact ih h

theorem etobLoop_ok {p : ℕ} {b b' : Bytes} (h : etobLoop (left + 1) c p b = .ok b') :
    ∃ vs : List ℕ, vs.length = left + 1 ∧ (∀ v ∈ vs, v < 2048) ∧ Spelled (vs.map wp) c ∧
      b' = insertAll vs p b := by
  induction left generalizing c p b with
  | zero =>
      obtain ⟨v, gap, text, rest, hv, rfl, hgap, htext, hrest, -, hloop⟩ := etobLoop_succ h
      cases hloop
      refine ⟨[v], rfl, ?_, .last hgap htext hrest, rfl⟩
      rintro v' hv'
      rwa [List.mem_singleton.mp hv']
  | succ left ih =>
      obtain ⟨v, gap, text, rest, hv, rfl, hgap, htext, hrest, hmore, hloop⟩ := etobLoop_succ h
      obtain ⟨vs, hlength, hvs, hspelled, rfl⟩ := ih hloop
      cases rest with
      | nil => cases hmore rfl
      | cons sep rest =>
          refine ⟨v :: vs, by rw [List.length_cons, hlength], ?_, ?_, rfl⟩
          · rintro v' hv'
            rcases List.mem_cons.mp hv' with rfl | hv'
            · exact hv
            · exact hvs v' hv'
          · refine .cons hgap htext (hrest sep rfl) ?_ hspelled
            intro hnil
            rw [List.map_eq_nil_iff.mp hnil] at hlength
            cases hlength

end Texts

/-! ## Reading keys back -/

/-- The words of a key. -/
def Key.words (c : Key) (stack : Bytes) : List CString := (fields (c.withParity stack)).map wp

/-- A key is read from the texts that spell its words, whatever the arrays had before. -/
theorem opieetob_iff (stack stack' : Bytes) (e : CString) (key : Key) :
    opieetob stack e = (1, key) ↔ Spelled (key.words stack') (e.take 64) := by
  constructor
  · intro h
    rw [opieetob] at h
    cases hloop : etobLoop 6 (e.take 64) 0 (cleared stack) with
    | error rval =>
        rw [hloop] at h
        exact absurd (Prod.mk.inj h).1 (etobLoop_error hloop)
    | ok b =>
        obtain ⟨vs, hlength, hvs, hspelled, rfl⟩ := etobLoop_ok hloop
        rw [hloop] at h
        simp only at h
        split at h
        · cases h
        · rename_i hparity
          have hkey : ∀ i : Fin 8, key i = insertAll vs 0 (cleared stack) i := by
            intro i
            rw [← (Prod.mk.inj h).2]
          rw [Key.words, fields_withParity key hkey (not_not.mp hparity),
            fields_decoded hlength hvs]
          exact hspelled
  · intro h
    have hlt := fields_lt (key.withParity stack')
    have hloop := etobLoop_spelled h rfl hlt 0 (cleared stack)
    rw [length_fields] at hloop
    -- the bits that are read are those of the key and its parity
    have hbit : ∀ k < 66, (insertAll (fields (key.withParity stack')) 0 (cleared stack)).bit k =
        (key.withParity stack').bit k := fun k hk ↦
      (bit_decoded hlt stack hk).trans (fieldBit_fields _ hk)
    have hparity := parity_congr fun k hk ↦ hbit k (by omega)
    have hextract := extract_congr (show 2 ≤ 16 by decide) fun k (_ : 64 ≤ k) hk ↦ hbit k hk
    have hkey : (fun i : Fin 8 ↦ insertAll (fields (key.withParity stack')) 0 (cleared stack) i) =
        key := by
      funext i
      have hbyte : insertAll (fields (key.withParity stack')) 0 (cleared stack) i =
          key.bytes stack' i :=
        Bytes.eq_of_bit fun k hk ↦
          (hbit _ (by omega)).trans (bit_withParity key stack' (by omega))
      rw [hbyte, Key.bytes, dif_pos i.isLt]
    rw [opieetob, hloop]
    simp only
    rw [hparity, hextract, extract_withParity, if_neg (not_not.mpr rfl), hkey]

theorem letter_eq {c : Char} (hc : c.isUpper = true) : letter c = c := by
  have hlower : c.isLower = false := by
    have hle := (of_decide_eq_true hc).2
    exact Bool.and_eq_false_iff.mpr
      (.inl (decide_eq_false fun hge ↦ absurd (UInt32.le_trans hge hle) (by decide)))
  have hdigit : ∀ d : Char, d.isUpper = false → c ≠ d := by
    rintro d hd rfl
    rw [hc] at hd
    cases hd
  rw [letter, hlower]
  simp only [Bool.false_eq_true, if_false]
  rw [if_neg (hdigit '1' rfl), if_neg (hdigit '0' rfl), if_neg (hdigit '5' rfl)]

/-- A word of the dictionary is read as itself. -/
theorem spells_self {word : CString} (h : Letters 1 4 word) : Spells word word where
  letters := by
    rw [List.map_congr_left fun c hc ↦ letter_eq (List.all_eq_true.mp h.isUpper c hc), List.map_id']
  first := by
    intro c hc
    exact Bool.or_eq_true_iff.mpr
      (.inl (List.all_eq_true.mp h.isUpper c (List.mem_of_mem_head? hc)))

theorem spelled_intercalate {words : List CString} (hne : words ≠ [])
    (h : ∀ w ∈ words, Letters 1 4 w) : Spelled words ([' '].intercalate words) := by
  induction words with
  | nil => exact absurd rfl hne
  | cons w words ih =>
      have hw := spells_self (h w List.mem_cons_self)
      cases words with
      | nil =>
          have hlast : Spelled [w] ([] ++ w ++ []) :=
            .last (fun _ hc ↦ absurd hc List.not_mem_nil) hw fun _ hc ↦ by cases hc
          simpa using hlast
      | cons w' words =>
          have hrest := ih (List.cons_ne_nil _ _) fun w hw ↦ h w (List.mem_cons_of_mem _ hw)
          have hgap : ∀ c ∈ ([] : CString), c.isAlpha = false :=
            fun _ hc ↦ absurd hc List.not_mem_nil
          have hsep : (letter ' ').isAlpha = false := rfl
          have hcons := Spelled.cons hgap hw hsep (List.cons_ne_nil _ _) hrest
          simpa [List.intercalate] using hcons

theorem Key.letters (c : Key) (stack : Bytes) : ∀ w ∈ c.words stack, Letters 1 4 w := by
  intro w hw
  obtain ⟨v, hv, rfl⟩ := List.mem_map.mp hw
  exact wp_letters (fields_lt _ v hv)

theorem opiebtoe_eq (stack : Bytes) (c : Key) :
    opiebtoe stack c = [' '].intercalate (c.words stack) := by
  have htake : ∀ start, (wp (extract (c.withParity stack) start 11)).take 4 =
      wp (extract (c.withParity stack) start 11) := fun start ↦ take_wp (extract_lt _ (by decide))
  rw [opiebtoe, Key.words, fields]
  simp only [htake]
  simp [List.range_succ, List.intercalate]

theorem length_intercalate (words : List CString) (h : ∀ w ∈ words, Letters 1 4 w) :
    ([' '].intercalate words).length ≤ 5 * words.length := by
  induction words with
  | nil => exact Nat.zero_le _
  | cons w words ih =>
      have hw := (h w List.mem_cons_self).le_most
      have hrest := ih fun w hw ↦ h w (List.mem_cons_of_mem _ hw)
      cases words with
      | nil => simpa [List.intercalate] using Nat.le_succ_of_le hw
      | cons w' words =>
          simp [List.intercalate] at hrest ⊢
          omega

/-- A key is read back from its words, and from each text that spells them, in any case, with other
characters between them and with digits that look like letters; and from no other text. -/
theorem opieetob_opiebtoe (stack stack' : Bytes) (key : Key) :
    opieetob stack (opiebtoe stack' key) = (1, key) ∧
      ∀ e, opieetob stack e = (1, key) ↔ Spelled (key.words stack') (e.take 64) := by
  have hletters := key.letters stack'
  have hne : key.words stack' ≠ [] := by
    rw [Key.words, ne_eq, List.map_eq_nil_iff]
    intro hnil
    have hlength := length_fields (key.withParity stack')
    rw [hnil] at hlength
    cases hlength
  have hlength : (opiebtoe stack' key).length ≤ 30 := by
    have hle := length_intercalate _ hletters
    rwa [← opiebtoe_eq, Key.words, List.length_map, length_fields] at hle
  refine ⟨?_, fun e ↦ opieetob_iff stack stack' e key⟩
  rw [opieetob_iff stack stack', List.take_of_length_le (by omega), opiebtoe_eq]
  exact spelled_intercalate hne hletters

end Beirdobot.Libopie
