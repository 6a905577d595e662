import Mathlib.Data.List.Basic
import Mathlib.Data.Nat.Notation

/-!
# The tokens of an SQL text

A lexer with the string-literal rules of MySQL in its default mode: strings in
single or double quotes, where a backslash escapes the next character and a quote
is doubled, names in backquotes, words and numbers, three kinds of comments.
Operators are symbols of one character each.

The lexer is a machine that reads one character at a time, so that `lexFrom m`
is the rest of the tokens from mode `m` on.  A literal that is put where a mode is
`between` tokens and before a character that is `apart` is a token of its own.
-/

namespace Beirdobot.Library.SqlLexer

/-- The tokens: `bad` is a quote or a comment without an end. -/
inductive Token where
  | word (text : List Char)
  | number (value : ℕ)
  | string (value : List Char)
  | name (text : List Char)
  | symbol (c : Char)
  | bad
deriving DecidableEq, Repr

/-- Characters of words and numbers, and those that change what follows them. -/
def isWord (c : Char) : Bool :=
  c.isAlphanum || c == '_' || c == '$' || c == '@' || c == '\\' || decide (128 ≤ c.toNat)

/-- What the machine is in the middle of. -/
inductive Mode where
  | start
  | word (text : List Char)
  | dash
  | dashes
  | slash
  | opened
  | comment
  | star
  | line
  | text (quote : Char) (value : List Char)
  | escape (quote : Char) (value : List Char)
  | closing (quote : Char) (value : List Char)
  | name (text : List Char)
  | nameClosing (text : List Char)
deriving DecidableEq, Repr

/-- The token of a word, which may be a number or a single dot. -/
def wordToken (text : List Char) : Token :=
  if text = ['.'] then .symbol '.'
  else if text.all Char.isDigit then .number (Nat.ofDigitChars 10 text 0)
  else .word text

/-- Whether a character goes on with a word. -/
def continues (text : List Char) (c : Char) : Bool :=
  if text = ['.'] then c.isDigit
  else isWord c || c == '.' && (text.head?.any Char.isDigit)

/-- What an escaped character stands for; the escapes of the wildcards keep their
backslash. -/
def unescape (c : Char) : List Char :=
  if c = '0' then [Char.ofNat 0]
  else if c = 'b' then [Char.ofNat 8]
  else if c = 't' then ['\t']
  else if c = 'n' then ['\n']
  else if c = 'r' then ['\r']
  else if c = 'Z' then [Char.ofNat 26]
  else if c = '%' ∨ c = '_' then ['\\', c]
  else [c]

/-- White space, and the control characters that end a `--`. -/
def isBlank (c : Char) : Bool := c == ' ' || decide (c.toNat < 32)

/-- A character at the start of a token. -/
def fresh (c : Char) : Mode × List Token :=
  if isBlank c then (.start, [])
  else if c = '\'' ∨ c = '"' then (.text c [], [])
  else if c = '`' then (.name [], [])
  else if c = '#' then (.line, [])
  else if c = '-' then (.dash, [])
  else if c = '/' then (.slash, [])
  else if isWord c ∨ c = '.' then (.word [c], [])
  else (.start, [.symbol c])

/-- Tokens that are complete, and a character at the start of the next. -/
def after (tokens : List Token) (c : Char) : Mode × List Token :=
  ((fresh c).1, tokens ++ (fresh c).2)

/-- One character. -/
def step : Mode → Char → Mode × List Token
  | .start, c => fresh c
  | .word w, c => if continues w c then (.word (w ++ [c]), []) else after [wordToken w] c
  | .dash, c => if c = '-' then (.dashes, []) else after [.symbol '-'] c
  | .dashes, c =>
      if c = '\n' then (.start, [])
      else if isBlank c then (.line, [])
      else if c = '-' then (.dashes, [.symbol '-'])
      else after [.symbol '-', .symbol '-'] c
  | .slash, c => if c = '*' then (.opened, []) else after [.symbol '/'] c
  | .opened, c =>
      -- the text of a version comment is read as code
      if c = '!' then (.start, [.symbol '/', .symbol '*', .symbol '!'])
      else if c = '*' then (.star, [])
      else (.comment, [])
  | .comment, c => if c = '*' then (.star, []) else (.comment, [])
  | .star, c =>
      if c = '/' then (.start, []) else if c = '*' then (.star, []) else (.comment, [])
  | .line, c => if c = '\n' then (.start, []) else (.line, [])
  | .text q v, c =>
      if c = q then (.closing q v, [])
      else if c = '\\' then (.escape q v, [])
      else (.text q (v ++ [c]), [])
  | .escape q v, c => (.text q (v ++ unescape c), [])
  | .closing q v, c => if c = q then (.text q (v ++ [q]), []) else after [.string v] c
  | .name n, c => if c = '`' then (.nameClosing n, []) else (.name (n ++ [c]), [])
  | .nameClosing n, c => if c = '`' then (.name (n ++ ['`']), []) else after [.name n] c

/-- The end of the text. -/
def finish : Mode → List Token
  | .start | .dashes | .line => []
  | .word w => [wordToken w]
  | .dash => [.symbol '-']
  | .slash => [.symbol '/']
  | .closing _ v => [.string v]
  | .nameClosing n => [.name n]
  | .opened | .comment | .star | .text _ _ | .escape _ _ | .name _ => [.bad]

/-- The rest of the tokens. -/
def lexFrom : Mode → List Char → List Token
  | m, [] => finish m
  | m, c :: s => (step m c).2 ++ lexFrom (step m c).1 s

/-- The tokens of a text. -/
def lex (s : List Char) : List Token := lexFrom .start s

@[simp] theorem lexFrom_nil (m : Mode) : lexFrom m [] = finish m := rfl

theorem lexFrom_cons (m : Mode) (c : Char) (s : List Char) :
    lexFrom m (c :: s) = (step m c).2 ++ lexFrom (step m c).1 s := rfl

/-- Where the next character is at the start of a token. -/
theorem lexFrom_of_after {m : Mode} {tokens : List Token} {c : Char}
    (h : step m c = after tokens c) (s : List Char) :
    lexFrom m (c :: s) = tokens ++ lexFrom .start (c :: s) := by
  rw [lexFrom_cons, h, lexFrom_cons, after, List.append_assoc]
  rfl

/-! ## Between tokens -/

/-- A mode in which a word or a string can start. -/
def Mode.between : Mode → Bool
  | .start | .dash | .dashes | .slash | .nameClosing _ => true
  | .closing q _ => q == '"'
  | _ => false

/-- The tokens that are complete when a token starts. -/
def Mode.pending : Mode → List Token
  | .dash => [.symbol '-']
  | .dashes => [.symbol '-', .symbol '-']
  | .slash => [.symbol '/']
  | .closing _ v => [.string v]
  | .nameClosing n => [.name n]
  | _ => []

/-- A character that starts a token in every mode between tokens. -/
def starts (c : Char) : Bool :=
  !isBlank c && c != '-' && c != '*' && c != '"' && c != '`'

theorem step_between {m : Mode} (hm : m.between = true) {c : Char} (hc : starts c = true) :
    step m c = after m.pending c := by
  simp only [starts, Bool.and_eq_true, Bool.not_eq_true', bne_iff_ne, ne_eq] at hc
  obtain ⟨⟨⟨⟨hb, hdash⟩, hstar⟩, hquote⟩, hname⟩ := hc
  have hnl : c ≠ '\n' := by
    rintro rfl
    exact absurd hb (by decide)
  cases m with
  | start => rfl
  | dash => simp [step, Mode.pending, hdash]
  | dashes => simp [step, Mode.pending, hdash, hb, hnl]
  | slash => simp [step, Mode.pending, hstar]
  | nameClosing n => simp [step, Mode.pending, hname]
  | closing q v =>
      obtain rfl : q = '"' := by simpa [Mode.between] using hm
      simp [step, Mode.pending, hquote]
  | word | opened | comment | star | line | text | escape | name => cases hm

/-- Where a character starts a token in a mode between tokens. -/
theorem lexFrom_between {m : Mode} (hm : m.between = true) {c : Char} (hc : starts c = true)
    (s : List Char) : lexFrom m (c :: s) = m.pending ++ lexFrom .start (c :: s) :=
  lexFrom_of_after (step_between hm hc) s

/-- A character that cannot go on with a word or a string in single quotes. -/
def apart (c : Char) : Bool := !isWord c && c != '.' && c != '\''

/-- What follows a literal leaves it alone. -/
def Apart (s : List Char) : Prop := ∀ c ∈ s.head?, apart c = true

/-! ## Words and numbers -/

theorem digit_starts {c : Char} (h : c.isDigit = true) :
    starts c = true ∧ isWord c = true ∧ c ≠ '.' ∧ fresh c = (.word [c], []) := by
  have hnum : 48 ≤ c.toNat ∧ c.toNat ≤ 57 := by
    simp only [Char.isDigit, Bool.and_eq_true, decide_eq_true_eq, ge_iff_le,
      UInt32.le_iff_toNat_le] at h
    exact h
  have hne : ∀ d : Char, d.toNat < 48 ∨ 57 < d.toNat → c ≠ d := by
    rintro d hd rfl
    omega
  have hword : isWord c = true := by simp [isWord, Char.isAlphanum, h]
  have hblank : isBlank c = false := by
    have hlow : decide (c.toNat < 32) = false := decide_eq_false (by omega)
    rw [isBlank, hlow, beq_eq_false_iff_ne.mpr (hne ' ' (by decide))]
    rfl
  refine ⟨?_, hword, hne _ (by decide), ?_⟩
  · simp [starts, hblank, hne '-' (by decide), hne '*' (by decide), hne '"' (by decide),
      hne '`' (by decide)]
  · simp [fresh, hblank, hword, hne '-' (by decide), hne '"' (by decide), hne '`' (by decide),
      hne '#' (by decide), hne '/' (by decide), hne '\'' (by decide)]

/-- A word ends where what follows is apart. -/
theorem lexFrom_word {d : Char} (hd : d ≠ '.') {u s : List Char} (v : List Char)
    (hu : ∀ c ∈ u, isWord c = true) (hs : Apart s) :
    lexFrom (.word (d :: v)) (u ++ s) = wordToken (d :: v ++ u) :: lexFrom .start s := by
  have hdot : ∀ w, d :: w ≠ ['.'] := fun w e ↦ hd (List.cons.inj e).1
  induction u generalizing v with
  | nil =>
      rw [List.nil_append, List.append_nil]
      cases s with
      | nil => rfl
      | cons c s =>
          have hc := hs c rfl
          simp only [apart, Bool.and_eq_true, Bool.not_eq_true', bne_iff_ne, ne_eq] at hc
          have hcont : continues (d :: v) c = false := by
            simp [continues, hdot, hc.1.1, hc.1.2]
          have hstep : step (.word (d :: v)) c = after [wordToken (d :: v)] c := by
            simp [step, hcont]
          exact lexFrom_of_after hstep s
  | cons c u ih =>
      have hcont : continues (d :: v) c = true := by simp [continues, hdot, hu c (by simp)]
      rw [List.cons_append, lexFrom_cons]
      simp only [step, hcont, if_true, List.nil_append, List.cons_append]
      rw [ih (v ++ [c]) fun x hx ↦ hu x (by simp [hx])]
      simp

/-- The digits of a number. -/
theorem lexFrom_number {s : List Char} (hs : Apart s) (n : ℕ) {m : Mode}
    (hm : m.between = true) :
    lexFrom m (Nat.toDigits 10 n ++ s) = m.pending ++ .number n :: lexFrom .start s := by
  have hdigits : ∀ c ∈ Nat.toDigits 10 n, c.isDigit = true := fun c hc ↦
    Nat.isDigit_of_mem_toDigits (by decide) (by decide) hc
  have htoken : wordToken (Nat.toDigits 10 n) = .number n := by
    have hall : (Nat.toDigits 10 n).all Char.isDigit = true := List.all_eq_true.mpr hdigits
    have hdot : Nat.toDigits 10 n ≠ ['.'] := by
      intro e
      rw [e] at hdigits
      exact absurd (hdigits '.' (by simp)) (by decide)
    simp [wordToken, hall, hdot]
  obtain ⟨d, u, hdu⟩ := List.exists_cons_of_ne_nil (Nat.toDigits_ne_nil (n := n) (b := 10))
  rw [hdu] at hdigits htoken ⊢
  obtain ⟨hstart, -, hd, hfresh⟩ := digit_starts (hdigits d (by simp))
  have hu : ∀ c ∈ u, isWord c = true := fun c hc ↦ (digit_starts (hdigits c (by simp [hc]))).2.1
  rw [List.cons_append, lexFrom_between hm hstart, lexFrom_cons]
  simp only [step, hfresh, List.nil_append]
  rw [lexFrom_word hd [] hu hs, List.singleton_append, htoken]

/-- A sign does not join what stands before it. -/
theorem lexFrom_minus {m : Mode} (hm : m.between = true) {s : List Char} (n : ℕ) (hs : Apart s) :
    lexFrom m ('-' :: (Nat.toDigits 10 n ++ s)) =
      m.pending ++ .symbol '-' :: .number n :: lexFrom .start s := by
  have hdash := lexFrom_number hs n (m := .dash) rfl
  have hdashes := lexFrom_number hs n (m := .dashes) rfl
  rw [lexFrom_cons]
  cases m with
  | start => simpa [step, fresh, isBlank, Mode.pending] using hdash
  | dash => simpa [step, Mode.pending] using hdashes
  | dashes => simpa [step, Mode.pending, isBlank] using hdashes
  | slash => simpa [step, after, fresh, isBlank, Mode.pending] using hdash
  | nameClosing n => simpa [step, after, fresh, isBlank, Mode.pending] using hdash
  | closing q v =>
      obtain rfl : q = '"' := by simpa [Mode.between] using hm
      simpa [step, after, fresh, isBlank, Mode.pending] using hdash
  | word | opened | comment | star | line | text | escape | name => cases hm

/-! ## Strings -/

section Text

variable {q : Char} {v s : List Char}

theorem lexFrom_text_plain {c : Char} (hq : c ≠ q) (hc : c ≠ '\\') :
    lexFrom (.text q v) (c :: s) = lexFrom (.text q (v ++ [c])) s := by
  simp [lexFrom_cons, step, hq, hc]

theorem lexFrom_text_escape (hq : q ≠ '\\') (c : Char) :
    lexFrom (.text q v) ('\\' :: c :: s) = lexFrom (.text q (v ++ unescape c)) s := by
  simp [lexFrom_cons, step, hq.symm]

/-- A quote that is not doubled ends the string. -/
theorem lexFrom_text_close (hs : s.head? ≠ some q) :
    lexFrom (.text q v) (q :: s) = .string v :: lexFrom .start s := by
  have hclosing : lexFrom (.closing q v) s = .string v :: lexFrom .start s := by
    cases s with
    | nil => rfl
    | cons c s =>
        have hc : c ≠ q := fun e ↦ hs (by rw [e]; rfl)
        have hstep : step (.closing q v) c = after [.string v] c := by simp [step, hc]
        exact lexFrom_of_after hstep s
  rw [lexFrom_cons, ← hclosing]
  simp [step]

end Text

end Beirdobot.Library.SqlLexer
