import Beirdobot.Library.IPv6
import Beirdobot.Mysql.Query
import Mathlib.Data.List.DropRight

/-!
# What the forms show and save

Transcriptions of the text that `cursesFormDisplay` puts in a field and of
`cursesSaveOffset`, both of `curses.c`, with the items of the forms that are saved.  An item
comes with the member of the record that its offset points to; the items whose member is a
pointer to a server are left out, as are labels and buttons.
-/

namespace Beirdobot.Curses.FormItems

open Library
open Mysql (decimal)

/-- The types of the members that are saved. -/
inductive CType
  | charPointer
  | int
  | unsigned
  | char
  | long
  | time
  deriving DecidableEq

/-- `sizeof` -/
def CType.size : CType → ℕ
  | .charPointer => 8
  | .int => 4
  | .unsigned => 4
  | .char => 1
  | .long => 8
  | .time => 8

/-- `CursesFormatArg_t` -/
inductive FormatArg
  | string
  | integer
  | bool
  | char
  | longInteger
  | longIntegerHex
  | timeT
  deriving DecidableEq

namespace FormatArg

/-- The type that `ATOFFSET` is given; `bool` is an `unsigned int`. -/
def type : FormatArg → CType
  | .string => .charPointer
  | .integer => .int
  | .bool => .unsigned
  | .char => .char
  | .longInteger => .long
  | .longIntegerHex => .long
  | .timeT => .time

/-- What can be stored there. -/
abbrev Value : FormatArg → Type
  | .string => Option CString
  | .integer => Int32
  | .bool => UInt32
  | .char => Char
  | .longInteger => Int64
  | .longIntegerHex => Int64
  | .timeT => Int64

end FormatArg

/-- The formats of the items: `%s`, `%d`, `%ld`, `0x%lX` and `%c`, and `[%c]`, which no one
reads. -/
inductive Format
  | s
  | d
  | ld
  | hex
  | c
  | box
  deriving DecidableEq

/-- `CursesFieldType_t` -/
inductive FieldType
  | field
  | checkbox
  deriving DecidableEq

/-- `CursesFormItem_t` -/
structure FormItem where
  member : String
  declared : CType
  type : FieldType
  format : Format
  offsetType : FormatArg
  maxLen : ℕ
  deriving DecidableEq

/-! ## The forms -/

abbrev stringItem (member : String) (maxLen : ℕ) : FormItem :=
  ⟨member, .charPointer, .field, .s, .string, maxLen⟩

abbrev integerItem (member : String) (maxLen : ℕ) : FormItem :=
  ⟨member, .int, .field, .d, .integer, maxLen⟩

abbrev checkboxItem (member : String) (declared : CType) (maxLen : ℕ) : FormItem :=
  ⟨member, declared, .checkbox, .box, .bool, maxLen⟩

def pluginFormItems : List FormItem := [checkboxItem "preload" .unsigned 3]

def luascriptFormItems : List FormItem := [checkboxItem "preload" .int 3]

def perlFormItems : List FormItem := [checkboxItem "preload" .int 3]

def serverFormItems : List FormItem :=
  [stringItem "server" 64, integerItem "port" 6, stringItem "password" 64, stringItem "nick" 64,
    stringItem "username" 64, stringItem "realname" 64, stringItem "nickserv" 64,
    stringItem "nickservmsg" 64, integerItem "floodInterval" 20, integerItem "floodMaxTime" 20,
    integerItem "floodBuffer" 20, integerItem "floodMaxLine" 20,
    checkboxItem "enabled" .unsigned 3]

def channelFormItems : List FormItem :=
  [stringItem "channel" 64, stringItem "url" 255, integerItem "notifywindow" 20,
    ⟨"cmdChar", .char, .field, .c, .char, 1⟩, checkboxItem "enabled" .unsigned 3]

def mailboxFormItems : List FormItem :=
  [stringItem "server" 64, integerItem "port" 6, stringItem "user" 64, stringItem "password" 64,
    stringItem "protocol" 32, stringItem "options" 64, stringItem "mailbox" 64,
    integerItem "interval" 20, checkboxItem "enabled" .unsigned 0]

def mailboxReportFormItems : List FormItem :=
  [integerItem "mailboxId" 20, integerItem "chanServId" 20, stringItem "nick" 64,
    stringItem "format" 64, checkboxItem "enabled" .unsigned 0]

def urlFormItems : List FormItem :=
  [integerItem "channelId" 20, stringItem "keyword" 64, stringItem "url" 255,
    checkboxItem "enabled" .unsigned 0]

def tracFormItems : List FormItem :=
  [integerItem "chanId" 20, stringItem "url" 255, stringItem "svnUrl" 255,
    stringItem "svnUser" 64, stringItem "svnPasswd" 64, checkboxItem "enabled" .unsigned 0]

def rssfeedFormItems : List FormItem :=
  [integerItem "serverId" 20, integerItem "chanId" 20, stringItem "url" 255,
    stringItem "userpass" 64, ⟨"authtype", .long, .field, .hex, .longIntegerHex, 20⟩,
    stringItem "prefix" 32, ⟨"timeout", .time, .field, .ld, .timeT, 20⟩,
    stringItem "timeSpec" 64, ⟨"offset", .long, .field, .d, .longInteger, 20⟩,
    checkboxItem "enabled" .unsigned 0]

/-- The items of all forms. -/
def formItems : List FormItem :=
  pluginFormItems ++ luascriptFormItems ++ perlFormItems ++ serverFormItems ++
    channelFormItems ++ mailboxFormItems ++ mailboxReportFormItems ++ urlFormItems ++
    tracFormItems ++ rssfeedFormItems

/-! ## Showing and saving -/

/-- What `snprintf` makes of a format and its argument; `%d` takes the lower half of a `long`.
There is nothing for an argument of a type that the format does not take. -/
def formatted : Format → (t : FormatArg) → t.Value → Option CString
  | .s, .string, value => some (Option.getD value "(null)".toList)
  | .d, .integer, value => some (decimal (Int32.toInt value))
  | .d, .longInteger, value => some (decimal (Int64.toInt32 value).toInt)
  | .ld, .timeT, value => some (decimal (Int64.toInt value))
  | .hex, .longIntegerHex, value => some ('0' :: 'x' :: IPv6.showHex (Int64.toBitVec value).toNat)
  | .c, .char, value => some (if (value : Char) = '\x00' then [] else [value])
  | _, _, _ => none

/-- The characters that fit `buf`: `len` is one more. -/
def FormItem.room (item : FormItem) : ℕ := if item.maxLen = 0 then 1023 else min 1023 item.maxLen

/-- The text that `cursesFormDisplay` shows. -/
def cursesFormDisplay : (item : FormItem) → item.offsetType.Value → Option CString
  | ⟨_, _, .checkbox, _, .bool, _⟩, value =>
      some (if (value : UInt32) ≠ 0 then ['X'] else [' '])
  | ⟨_, _, .checkbox, _, _, _⟩, _ => none
  | ⟨member, declared, .field, format, offsetType, maxLen⟩, value =>
      (formatted format offsetType value).map
        (·.take (FormItem.room ⟨member, declared, .field, format, offsetType, maxLen⟩))

/-- `while( buffer[strlen(buffer)-1] == ' ' )`, from the end; of an empty string, this is the byte
before it. -/
def trimLoop : List Char → Option (List Char)
  | [] => none
  | c :: s => if c = ' ' then trimLoop s else some (c :: s)

/-- The string without its trailing blanks. -/
def trim (buffer : CString) : Option CString := (trimLoop buffer.reverse).map List.reverse

/-- `atol`, which is `strtol( string, NULL, 10 )`. -/
def atol (string : CString) : Int64 := Int64.ofIntClamp (atoi string)

/-- The hexadecimal number that `strtol` reads behind the sign. -/
def hexMagnitude (string : CString) : ℕ :=
  let isHex (c : Char) : Bool := (IPv6.hexValue c).isSome
  let digits :=
    match string with
    | '0' :: x :: rest =>
        if (x = 'x' ∨ x = 'X') ∧ rest.takeWhile isHex ≠ [] then rest else string
    | _ => string
  (IPv6.readHex (digits.takeWhile isHex)).getD 0

/-- `strtol( string, NULL, 16 )` -/
def strtolHex (string : CString) : Int64 :=
  match string.dropWhile isSpace with
  | '-' :: string => Int64.ofIntClamp (-hexMagnitude string)
  | '+' :: string => Int64.ofIntClamp (hexMagnitude string)
  | string => Int64.ofIntClamp (hexMagnitude string)

/-- What `cursesSaveOffset` stores; nothing where it goes to a byte that is not its own. -/
def cursesSaveOffset (string : CString) : (t : FormatArg) → Option t.Value
  | .string =>
      if sameIgnoringCase string "(NULL)".toList then some (none : Option CString)
      else (trim string).map (some : CString → Option CString)
  | .integer => some (atol string).toInt32
  | .longInteger => some (atol string)
  | .longIntegerHex => some (strtolHex string)
  | .timeT => some (atol string)
  | .bool => some (if string.head? = some 'X' then (1 : UInt32) else 0)
  | .char => some (string.headD '\x00')

/-! ## What comes back -/

/-- A string up to its trailing blanks. -/
def stripped (s : CString) : CString := s.rdropWhile (· = ' ')

/-- The same value, or the same string up to trailing blanks. -/
def SameValue : (t : FormatArg) → t.Value → t.Value → Prop
  | .string, value, value' =>
      Option.map stripped (value : Option CString) = Option.map stripped (value' : Option CString)
  | _, value, value' => value = value'

/-- The text that is shown, with blanks behind it, is saved as the value that is there, to its
bytes and no others. -/
def RoundTrips (item : FormItem) (pad : ℕ) (value : item.offsetType.Value) : Prop :=
  ∃ text, cursesFormDisplay item value = some text ∧
    ∃ value', cursesSaveOffset (text ++ List.replicate pad ' ') item.offsetType = some value' ∧
      SameValue item.offsetType value value' ∧
      item.offsetType.type.size = item.declared.size

/-- The values that come back, from a field that is so much longer than their text. -/
def Faithful (item : FormItem) (pad : ℕ) : (t : FormatArg) → t.Value → Prop
  | .string, value =>
      match (value : Option CString) with
      | none => pad = 0 ∧ 6 ≤ item.room
      | some s => stripped s ≠ [] ∧ (stripped s).length ≤ item.room ∧
          ¬ (pad = 0 ∧ sameIgnoringCase (s.take item.room) "(NULL)".toList = true)
  | .integer, value => (decimal (Int32.toInt value)).length ≤ item.room
  | .longInteger, value => -2 ^ 31 ≤ Int64.toInt value ∧ Int64.toInt value < 2 ^ 31
  | .longIntegerHex, value => 0 ≤ Int64.toInt value
  | .timeT, _ => True
  | .bool, value => (value : UInt32) = 0 ∨ (value : UInt32) = 1
  | .char, value => (value : Char) ≠ '\x00' ∨ pad = 0

/-! ## Numbers -/

section Numbers

variable {n k pad : ℕ}

theorem takeWhile_blanks (p : Char → Bool) (hp : p ' ' = false) (pad : ℕ) :
    (List.replicate pad ' ').takeWhile p = [] := by
  cases pad with
  | zero => rfl
  | succ pad => rw [List.replicate_succ, List.takeWhile_cons_of_neg (by simp [hp])]

/-- What the first digits of a number come to. -/
def leading (k n : ℕ) : ℕ := Nat.ofDigitChars 10 ((Nat.toDigits 10 n).take k) 0

/-- The digits that are cut off. -/
theorem leading_add (k n : ℕ) :
    n = 10 ^ ((Nat.toDigits 10 n).drop k).length * leading k n +
      Nat.ofDigitChars 10 ((Nat.toDigits 10 n).drop k) 0 := by
  conv_lhs => rw [← Nat.ofDigitChars_ten_toDigits (n := n), ← List.take_append_drop k
    (Nat.toDigits 10 n), Nat.ofDigitChars_append, Nat.ofDigitChars_eq_ofDigitChars_zero]
  rfl

theorem leading_le (k n : ℕ) : leading k n ≤ n := by
  have hadd := leading_add k n
  have hpow : 1 * leading k n ≤ 10 ^ ((Nat.toDigits 10 n).drop k).length * leading k n :=
    Nat.mul_le_mul_right _ (Nat.one_le_pow _ _ (by decide))
  omega

theorem leading_of_length_le (h : (Nat.toDigits 10 n).length ≤ k) : leading k n = n := by
  rw [leading, List.take_of_length_le h, Nat.ofDigitChars_ten_toDigits]

/-- A number that is cut is another one, unless it is 0. -/
theorem eq_zero_of_leading (hk : k < (Nat.toDigits 10 n).length) (h : leading k n = n) :
    n = 0 := by
  have hadd := leading_add k n
  have hdrop : 1 ≤ ((Nat.toDigits 10 n).drop k).length := by
    rw [List.length_drop]
    omega
  have hpow : 10 ^ 1 * leading k n ≤ 10 ^ ((Nat.toDigits 10 n).drop k).length * leading k n :=
    Nat.mul_le_mul_right _ (Nat.pow_le_pow_right (by decide) hdrop)
  omega

theorem isDigit_of_mem_take {c : Char} (hc : c ∈ (Nat.toDigits 10 n).take k) :
    c.isDigit = true :=
  Nat.isDigit_of_mem_toDigits (by decide) (by decide) (List.mem_of_mem_take hc)

/-- A number that is cut, with blanks behind it, reads as its first digits. -/
theorem atoi_negative_take (k pad n : ℕ) :
    atoi ('-' :: ((Nat.toDigits 10 n).take k ++ List.replicate pad ' ')) = -leading k n :=
  atoi_negative (fun _ ↦ isDigit_of_mem_take) (takeWhile_blanks _ rfl pad)

theorem atoi_take (hk : 1 ≤ k) (pad n : ℕ) :
    atoi ((Nat.toDigits 10 n).take k ++ List.replicate pad ' ') = leading k n := by
  refine atoi_digits (fun _ ↦ isDigit_of_mem_take) (fun hnil ↦ ?_) (takeWhile_blanks _ rfl pad)
  rcases List.take_eq_nil_iff.mp hnil with hzero | hdigits
  · omega
  · exact Nat.toDigits_ne_nil hdigits

/-- A decimal number that is cut reads as one that is closer to 0, and as the same only where
nothing is cut off. -/
theorem atoi_cut (hk : 1 ≤ k) (pad : ℕ) (i : ℤ) :
    (atoi ((decimal i).take k ++ List.replicate pad ' ') = i ↔ (decimal i).length ≤ k) ∧
      (0 ≤ atoi ((decimal i).take k ++ List.replicate pad ' ') ∧
          atoi ((decimal i).take k ++ List.replicate pad ' ') ≤ i ∨
        i ≤ atoi ((decimal i).take k ++ List.replicate pad ' ') ∧
          atoi ((decimal i).take k ++ List.replicate pad ' ') ≤ 0) := by
  have hle := leading_le k i.natAbs
  have hle' := leading_le (k - 1) i.natAbs
  by_cases hi : i < 0
  · obtain ⟨j, rfl⟩ : ∃ j, k = j + 1 := ⟨k - 1, by omega⟩
    rw [Nat.add_sub_cancel] at hle'
    rw [decimal, if_pos hi, List.take_succ_cons, List.cons_append, atoi_negative_take,
      List.length_cons]
    refine ⟨⟨fun heq ↦ ?_, fun hlength ↦ ?_⟩, .inr ⟨by omega, by omega⟩⟩
    · by_contra hcut
      have hzero := eq_zero_of_leading (k := j) (n := i.natAbs) (by omega) (by omega)
      omega
    · rw [leading_of_length_le (by omega)]
      omega
  · rw [decimal, if_neg hi, atoi_take hk]
    refine ⟨⟨fun heq ↦ ?_, fun hlength ↦ ?_⟩, .inl ⟨by omega, by omega⟩⟩
    · by_contra hcut
      have hzero := eq_zero_of_leading (k := k) (n := i.natAbs) (by omega) (by omega)
      rw [hzero] at hcut
      exact hcut hk
    · rw [leading_of_length_le hlength]
      omega

/-- `atol` of such a text does not leave its range. -/
theorem toInt_atol_cut (hk : 1 ≤ k) (pad : ℕ) (v : Int64) :
    (atol ((decimal v.toInt).take k ++ List.replicate pad ' ')).toInt =
      atoi ((decimal v.toInt).take k ++ List.replicate pad ' ') := by
  have hcut := (atoi_cut hk pad v.toInt).2
  have hlower : Int64.minValue.toInt ≤ v.toInt := v.minValue_le_toInt
  have hupper : v.toInt ≤ Int64.maxValue.toInt := v.toInt_le
  have hmin : Int64.minValue.toInt ≤ 0 := by decide
  have hmax : 0 ≤ Int64.maxValue.toInt := by decide
  exact Int64.toInt_ofIntClamp (by omega) (by omega)

theorem atol_of_length_le (hk : 1 ≤ k) (pad : ℕ) (v : Int64)
    (hlength : (decimal v.toInt).length ≤ k) :
    atol ((decimal v.toInt).take k ++ List.replicate pad ' ') = v := by
  rw [← Int64.toInt_inj, toInt_atol_cut hk]
  exact (atoi_cut hk pad v.toInt).1.mpr hlength

theorem toInt_toInt32_atol_cut (hk : 1 ≤ k) (pad : ℕ) (v : Int32) :
    (atol ((decimal v.toInt).take k ++ List.replicate pad ' ')).toInt32.toInt =
      atoi ((decimal v.toInt).take k ++ List.replicate pad ' ') := by
  have hwide := toInt_atol_cut hk pad v.toInt64
  rw [Int32.toInt_toInt64] at hwide
  have hcut := (atoi_cut hk pad v.toInt).2
  have hlower := v.le_toInt
  have hupper := v.toInt_lt
  rw [Int64.toInt_toInt32, hwide]
  exact Int.bmod_eq_of_le (by omega) (by omega)

theorem length_decimal_le {i : ℤ} (hi : i.natAbs < 10 ^ k) (hk : 0 < k) :
    (decimal i).length ≤ k + 1 := by
  have hdigits := (Nat.length_toDigits_le_iff (b := 10) (by decide) hk).mpr hi
  rw [decimal]
  split
  · rw [List.length_cons]
    omega
  · omega

/-- The hexadecimal digits are read up to the blanks. -/
theorem hexMagnitude_showHex (n pad : ℕ) :
    hexMagnitude ('0' :: 'x' :: (IPv6.showHex n ++ List.replicate pad ' ')) = n := by
  have htake : (IPv6.showHex n ++ List.replicate pad ' ').takeWhile
      (fun c ↦ (IPv6.hexValue c).isSome) = IPv6.showHex n := by
    rw [List.takeWhile_append_of_pos (IPv6.isSome_of_mem_showHex n), takeWhile_blanks _ rfl,
      List.append_nil]
  rw [hexMagnitude, htake, if_pos ⟨.inl rfl, IPv6.showHex_ne_nil n⟩, htake, IPv6.readHex_showHex]
  rfl

theorem strtolHex_showHex (n pad : ℕ) :
    strtolHex ('0' :: 'x' :: (IPv6.showHex n ++ List.replicate pad ' ')) = Int64.ofIntClamp n :=
  congrArg (fun n : ℕ ↦ Int64.ofIntClamp n) (hexMagnitude_showHex n pad)

/-- A number that is not negative is not clamped to one that is. -/
theorem toInt_ofIntClamp_nonneg (n : ℕ) : 0 ≤ (Int64.ofIntClamp n).toInt := by
  have hmin : Int64.minValue.toInt ≤ 0 := by decide
  rcases Int.le_total n Int64.maxValue.toInt with hle | hge
  · rw [Int64.toInt_ofIntClamp (by omega) hle]
    exact Int.natCast_nonneg n
  · rw [Int64.ofIntClamp, dif_pos (by omega)]
    split
    · rw [Int64.toInt_ofIntLE]
      exact Int.natCast_nonneg n
    · decide

/-- The digits are those of the number itself, unless it is negative. -/
theorem toInt_eq_toNat {v : Int64} (hv : 0 ≤ v.toInt) : (v.toBitVec.toNat : ℤ) = v.toInt := by
  have hlt := v.toBitVec.isLt
  rw [Int64.toInt, BitVec.toInt_eq_toNat_cond] at hv ⊢
  split at hv
  · rename_i h
    rw [if_pos h]
  · omega

theorem length_showHex_le {n : ℕ} (hn : n < 2 ^ 64) : (IPv6.showHex n).length ≤ 16 := by
  rw [IPv6.showHex, List.length_map]
  exact (Nat.length_toDigits_le_iff (by decide) (by decide)).mpr hn

end Numbers

/-! ## Strings -/

section Strings

variable {s t : CString} {m pad : ℕ}

/-- A string is what is left of it, and blanks. -/
theorem exists_blanks (s : CString) : ∃ j, s = stripped s ++ List.replicate j ' ' := by
  induction s using List.reverseRecOn with
  | nil => exact ⟨0, rfl⟩
  | append_singleton s c ih =>
      by_cases hc : c = ' '
      · obtain ⟨j, hj⟩ := ih
        refine ⟨j + 1, ?_⟩
        rw [stripped, List.rdropWhile_concat_pos _ _ _ (by simpa using hc), ← stripped, hc,
          List.replicate_succ', ← List.append_assoc, ← hj]
      · refine ⟨0, ?_⟩
        rw [stripped, List.rdropWhile_concat_neg _ _ _ (by simpa using hc)]
        exact (List.append_nil _).symm

theorem stripped_append (s : CString) (j : ℕ) :
    stripped (s ++ List.replicate j ' ') = stripped s := by
  induction j with
  | zero => rw [List.replicate_zero, List.append_nil]
  | succ j ih =>
      rw [List.replicate_succ', ← List.append_assoc, stripped,
        List.rdropWhile_concat_pos _ _ _ (by simp)]
      exact ih

theorem stripped_stripped (s : CString) : stripped (stripped s) = stripped s :=
  List.rdropWhile_idempotent _ _

/-- What is left is the same exactly where the blanks are all that is cut off. -/
theorem stripped_take : stripped (s.take m) = stripped s ↔ (stripped s).length ≤ m := by
  constructor
  · intro h
    calc (stripped s).length
      _ = (stripped (s.take m)).length := by rw [h]
      _ ≤ (s.take m).length := (List.rdropWhile_prefix _ _).length_le
      _ ≤ m := List.length_take_le ..
  · intro hlength
    obtain ⟨j, hj⟩ := exists_blanks s
    conv_lhs => rw [hj]
    rw [List.take_append, List.take_of_length_le hlength, List.take_replicate, stripped_append,
      stripped_stripped]

theorem trimLoop_eq (s : List Char) : trimLoop s =
    if s.dropWhile (· = ' ') = [] then none else some (s.dropWhile (· = ' ')) := by
  induction s with
  | nil => rfl
  | cons c s ih =>
      rw [trimLoop]
      split
      · rename_i hc
        rw [ih, List.dropWhile_cons_of_pos (by simpa using hc)]
      · rename_i hc
        rw [List.dropWhile_cons_of_neg (by simpa using hc), if_neg (List.cons_ne_nil c s)]

/-- The loop stops in the string where there is more in it than blanks. -/
theorem trim_eq (s : CString) : trim s = if stripped s = [] then none else some (stripped s) := by
  rw [trim, trimLoop_eq, stripped, List.rdropWhile]
  simp only [List.reverse_eq_nil_iff]
  split
  · rfl
  · rfl

/-- A string with blanks behind it is none of the name of `NULL`. -/
theorem sameIgnoringCase_blanks (s : CString) (pad : ℕ) :
    sameIgnoringCase (s ++ List.replicate (pad + 1) ' ') "(NULL)".toList = false := by
  refine Bool.eq_false_iff.mpr fun h ↦ ?_
  have hlast := congrArg List.getLast? (sameIgnoringCase_iff.mp h)
  rw [List.replicate_succ', ← List.append_assoc, List.map_append, List.map_singleton,
    List.getLast?_concat] at hlast
  cases hlast

theorem sameIgnoringCase_pad :
    sameIgnoringCase (s ++ List.replicate pad ' ') "(NULL)".toList = true ↔
      pad = 0 ∧ sameIgnoringCase s "(NULL)".toList = true := by
  cases pad with
  | zero => simp
  | succ pad =>
      rw [sameIgnoringCase_blanks]
      simp

end Strings

/-! ## Items -/

section Items

variable {item : FormItem} {text : CString} {pad : ℕ}

theorem room_pos (item : FormItem) : 1 ≤ item.room := by
  rw [FormItem.room]
  split
  · decide
  · omega

/-- An item whose bytes are those of the member comes back if its text does. -/
theorem roundTrips_iff_of_display (item : FormItem) {value : item.offsetType.Value}
    (hsize : item.offsetType.type.size = item.declared.size)
    (hdisplay : cursesFormDisplay item value = some text) :
    RoundTrips item pad value ↔
      ∃ value', cursesSaveOffset (text ++ List.replicate pad ' ') item.offsetType = some value' ∧
        SameValue item.offsetType value value' := by
  constructor
  · rintro ⟨text', hdisplay', value', hsave, hsame, -⟩
    rw [hdisplay, Option.some_inj] at hdisplay'
    subst hdisplay'
    exact ⟨value', hsave, hsame⟩
  · rintro ⟨value', hsave, hsame⟩
    exact ⟨text, hdisplay, value', hsave, hsame, hsize⟩

theorem roundTrips_iff_of_save (item : FormItem) {value value' : item.offsetType.Value}
    (hsize : item.offsetType.type.size = item.declared.size)
    (hdisplay : cursesFormDisplay item value = some text)
    (hsave : cursesSaveOffset (text ++ List.replicate pad ' ') item.offsetType = some value') :
    RoundTrips item pad value ↔ SameValue item.offsetType value value' := by
  rw [roundTrips_iff_of_display item hsize hdisplay]
  constructor
  · rintro ⟨other, hother, hsame⟩
    rw [hsave, Option.some_inj] at hother
    rwa [hother]
  · intro hsame
    exact ⟨value', hsave, hsame⟩

theorem roundTrips_none (member : String) (maxLen : ℕ) :
    RoundTrips (stringItem member maxLen) pad (none : Option CString) ↔
      pad = 0 ∧ 6 ≤ (stringItem member maxLen).room := by
  rw [roundTrips_iff_of_display (stringItem member maxLen) rfl rfl]
  have hmarker : sameIgnoringCase
        (("(null)".toList.take (stringItem member maxLen).room) ++ List.replicate pad ' ')
        "(NULL)".toList = true ↔ pad = 0 ∧ 6 ≤ (stringItem member maxLen).room := by
    rw [sameIgnoringCase_pad]
    refine and_congr_right fun _ ↦ ⟨fun h ↦ ?_, fun h ↦ ?_⟩
    · have hlength := congrArg List.length (sameIgnoringCase_iff.mp h)
      rw [List.length_map, List.length_take, List.length_map] at hlength
      have hmin : min (stringItem member maxLen).room 6 = 6 := hlength
      omega
    · rw [List.take_of_length_le h]
      rfl
  rw [← hmarker]
  constructor
  · rintro ⟨value', hsave, hsame⟩
    by_contra hother
    obtain ⟨s, -, rfl⟩ := Option.map_eq_some_iff.mp ((if_neg hother).symm.trans hsave)
    cases hsame
  · intro h
    exact ⟨(none : Option CString), if_pos h, rfl⟩

theorem roundTrips_some (member : String) (maxLen : ℕ) (s : CString) :
    RoundTrips (stringItem member maxLen) pad (some s : Option CString) ↔
      Faithful (stringItem member maxLen) pad .string (some s : Option CString) := by
  rw [roundTrips_iff_of_display (stringItem member maxLen) rfl rfl]
  have hpad := @sameIgnoringCase_pad (s.take (stringItem member maxLen).room) pad
  have htrim := trim_eq (s.take (stringItem member maxLen).room ++ List.replicate pad ' ')
  rw [stripped_append] at htrim
  constructor
  · rintro ⟨value', hsave, hsame⟩
    by_cases hmarker : sameIgnoringCase
      (s.take (stringItem member maxLen).room ++ List.replicate pad ' ') "(NULL)".toList = true
    · cases (if_pos hmarker).symm.trans hsave
      cases hsame
    · obtain ⟨s', hs', rfl⟩ := Option.map_eq_some_iff.mp ((if_neg hmarker).symm.trans hsave)
      have hstripped : stripped s = stripped s' := Option.some_inj.mp hsame
      replace hs' := htrim.symm.trans hs'
      split at hs'
      · cases hs'
      · rename_i hne
        cases hs'
        rw [stripped_stripped] at hstripped
        rw [← hstripped] at hne
        exact ⟨hne, stripped_take.mp hstripped.symm, fun h ↦ hmarker (hpad.mpr h)⟩
  · rintro ⟨hne, hlength, hmarker⟩
    have htake := stripped_take.mpr hlength
    rw [htake, if_neg hne] at htrim
    refine ⟨(some (stripped s) : Option CString), ?_, congrArg some (stripped_stripped s).symm⟩
    exact (if_neg fun h ↦ hmarker (hpad.mp h)).trans (congrArg (Option.map some) htrim)

theorem roundTrips_integer (member : String) (maxLen : ℕ) (v : Int32) :
    RoundTrips (integerItem member maxLen) pad v ↔
      (decimal v.toInt).length ≤ (integerItem member maxLen).room := by
  rw [roundTrips_iff_of_save (integerItem member maxLen) rfl rfl rfl]
  have hk := room_pos (integerItem member maxLen)
  rw [← (atoi_cut hk pad v.toInt).1, ← toInt_toInt32_atol_cut hk pad v, Int32.toInt_inj]
  exact eq_comm

theorem roundTrips_long (member : String) (v : Int64) :
    RoundTrips ⟨member, .long, .field, .d, .longInteger, 20⟩ pad v ↔
      -2 ^ 31 ≤ v.toInt ∧ v.toInt < 2 ^ 31 := by
  rw [roundTrips_iff_of_save ⟨member, .long, .field, .d, .longInteger, 20⟩ rfl rfl rfl]
  have hlength : (decimal v.toInt32.toInt).length ≤ 20 := by
    have hlower := v.toInt32.le_toInt
    have hupper := v.toInt32.toInt_lt
    exact length_decimal_le (k := 19) (by omega) (by decide)
  have hsaved := atol_of_length_le (k := 20) (by decide) pad v.toInt32.toInt64
    (by rwa [Int32.toInt_toInt64])
  rw [Int32.toInt_toInt64] at hsaved
  have hsame : v = v.toInt32.toInt64 ↔ -2 ^ 31 ≤ v.toInt ∧ v.toInt < 2 ^ 31 := by
    rw [← Int64.toInt_inj, Int32.toInt_toInt64, Int64.toInt_toInt32]
    constructor
    · intro h
      rw [h]
      exact ⟨Int.le_bmod (by decide), Int.bmod_lt (by decide)⟩
    · rintro ⟨hlower, hupper⟩
      exact (Int.bmod_eq_of_le (by omega) (by omega)).symm
  rw [← hsame, ← hsaved]
  rfl

theorem roundTrips_time (member : String) (v : Int64) :
    RoundTrips ⟨member, .time, .field, .ld, .timeT, 20⟩ pad v := by
  rw [roundTrips_iff_of_save ⟨member, .time, .field, .ld, .timeT, 20⟩ rfl rfl rfl]
  have hlower := v.le_toInt
  have hupper := v.toInt_lt
  exact (atol_of_length_le (by decide) pad v
    (length_decimal_le (k := 19) (by omega) (by decide))).symm

theorem roundTrips_hex (member : String) (v : Int64) :
    RoundTrips ⟨member, .long, .field, .hex, .longIntegerHex, 20⟩ pad v ↔ 0 ≤ v.toInt := by
  have htake : ('0' :: 'x' :: IPv6.showHex v.toBitVec.toNat).take 20 =
      '0' :: 'x' :: IPv6.showHex v.toBitVec.toNat := by
    have hlength := length_showHex_le v.toBitVec.isLt
    refine List.take_of_length_le ?_
    rw [List.length_cons, List.length_cons]
    omega
  have hsaved := strtolHex_showHex v.toBitVec.toNat pad
  rw [roundTrips_iff_of_save ⟨member, .long, .field, .hex, .longIntegerHex, 20⟩ rfl
    (congrArg some htake) (congrArg some hsaved)]
  constructor
  · intro hsame
    rw [show v = Int64.ofIntClamp v.toBitVec.toNat from hsame]
    exact toInt_ofIntClamp_nonneg _
  · intro hv
    change v = Int64.ofIntClamp v.toBitVec.toNat
    rw [toInt_eq_toNat hv, Int64.ofIntClamp_toInt]

theorem roundTrips_checkbox (member : String) (declared : CType) (maxLen : ℕ)
    (hsize : declared.size = 4) (v : UInt32) :
    RoundTrips (checkboxItem member declared maxLen) pad v ↔ v = 0 ∨ v = 1 := by
  rw [roundTrips_iff_of_save (checkboxItem member declared maxLen) hsize.symm rfl rfl]
  by_cases hv : v = 0
  · subst hv
    exact iff_of_true rfl (.inl rfl)
  · rw [if_pos hv]
    exact ⟨.inr, fun h ↦ h.resolve_left hv⟩

theorem roundTrips_char (member : String) (c : Char) :
    RoundTrips ⟨member, .char, .field, .c, .char, 1⟩ pad c ↔ c ≠ '\x00' ∨ pad = 0 := by
  rw [roundTrips_iff_of_save ⟨member, .char, .field, .c, .char, 1⟩ rfl rfl rfl]
  by_cases hc : c = '\x00'
  · subst hc
    cases pad with
    | zero => exact iff_of_true rfl (.inr rfl)
    | succ pad => exact iff_of_false (fun h ↦ by cases h) (by simp)
  · rw [if_neg hc]
    exact iff_of_true rfl (.inl hc)

/-- The kinds of items there are. -/
inductive Regular : FormItem → Prop
  | string (member : String) (maxLen : ℕ) : Regular (stringItem member maxLen)
  | integer (member : String) (maxLen : ℕ) : Regular (integerItem member maxLen)
  | checkbox (member : String) (declared : CType) (maxLen : ℕ) (hsize : declared.size = 4) :
      Regular (checkboxItem member declared maxLen)
  | char (member : String) : Regular ⟨member, .char, .field, .c, .char, 1⟩
  | hex (member : String) : Regular ⟨member, .long, .field, .hex, .longIntegerHex, 20⟩
  | time (member : String) : Regular ⟨member, .time, .field, .ld, .timeT, 20⟩
  | long (member : String) : Regular ⟨member, .long, .field, .d, .longInteger, 20⟩

theorem forall_formItems : List.Forall Regular formItems :=
  ⟨.checkbox _ _ _ rfl, .checkbox _ _ _ rfl, .checkbox _ _ _ rfl,
    -- the server form
    .string _ _, .integer _ _, .string _ _, .string _ _, .string _ _, .string _ _, .string _ _,
    .string _ _, .integer _ _, .integer _ _, .integer _ _, .integer _ _, .checkbox _ _ _ rfl,
    -- the channel form
    .string _ _, .string _ _, .integer _ _, .char _, .checkbox _ _ _ rfl,
    -- the mailbox forms
    .string _ _, .integer _ _, .string _ _, .string _ _, .string _ _, .string _ _, .string _ _,
    .integer _ _, .checkbox _ _ _ rfl, .integer _ _, .integer _ _, .string _ _, .string _ _,
    .checkbox _ _ _ rfl,
    -- the forms of the other plugins
    .integer _ _, .string _ _, .string _ _, .checkbox _ _ _ rfl, .integer _ _, .string _ _,
    .string _ _, .string _ _, .string _ _, .checkbox _ _ _ rfl, .integer _ _, .integer _ _,
    .string _ _, .string _ _, .hex _, .string _ _, .time _, .string _ _, .long _,
    .checkbox _ _ _ rfl⟩

theorem regular_of_mem (hitem : item ∈ formItems) : Regular item :=
  List.forall_iff_forall_mem.mp forall_formItems item hitem

/-- An item of a form comes back exactly if its value is one of these. -/
theorem roundTrips_iff (hitem : item ∈ formItems) (pad : ℕ) (value : item.offsetType.Value) :
    RoundTrips item pad value ↔ Faithful item pad item.offsetType value := by
  cases regular_of_mem hitem with
  | string member maxLen =>
      cases value with
      | none => exact roundTrips_none member maxLen
      | some s => exact roundTrips_some member maxLen s
  | integer member maxLen => exact roundTrips_integer member maxLen value
  | checkbox member declared maxLen hsize =>
      exact roundTrips_checkbox member declared maxLen hsize value
  | char member => exact roundTrips_char member value
  | hex member => exact roundTrips_hex member value
  | time member => exact iff_of_true (roundTrips_time member value) trivial
  | long member => exact roundTrips_long member value

/-- The port of a server. -/
theorem roundTrips_port : RoundTrips (integerItem "port" 6) 0 (6667 : Int32) :=
  (@roundTrips_iff (integerItem "port" 6) (List.mem_of_getElem? (i := 4) rfl) 0
    (6667 : Int32)).mpr (show (decimal 6667).length ≤ 6 by decide)

/-- A password that is not set, in a field of 32 characters. -/
theorem not_roundTrips :
    ¬ ∀ item ∈ formItems, ∀ (pad : ℕ) (value : item.offsetType.Value),
      RoundTrips item pad value := by
  intro h
  have hnone := h (stringItem "password" 64) (List.mem_of_getElem? (i := 5) rfl) 26
    (none : Option CString)
  obtain ⟨hpad, -⟩ := (roundTrips_none "password" 64).mp hnone
  cases hpad

end Items

end Beirdobot.Curses.FormItems
