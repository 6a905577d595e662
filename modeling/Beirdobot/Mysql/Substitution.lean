import Beirdobot.Library.SqlLexer
import Beirdobot.Mysql.Query

/-!
# Arguments are literals

`db_query` fills the question marks of a pattern from left to right, and the text
it sends has the tokens of the pattern with a literal for each question mark, if
each of them stands by itself in the pattern: `Placed` says that it is between
tokens there and that nothing that follows it can go on with a literal.
-/

namespace Beirdobot.Mysql

open Library.SqlLexer

/-! ## Values and their literals -/

/-- The value that an argument stands for. -/
inductive Value where
  | null
  | integer (n : ℤ)
  | text (s : CString)
deriving DecidableEq, Repr

/-- The value of an argument, if it is well formed and its type is supported. -/
def argValue (arg : MysqlBind) : Option Value :=
  if arg.isNull then some .null
  else match arg.bufferType, arg.buffer with
    | .tiny, .integer value => some (.text (charText value))
    | .short, .integer value => some (.integer (value.bmod (2 ^ 16)))
    | .long, .integer value => some (.integer (value.bmod (2 ^ 32)))
    | .longlong, .integer value => some (.integer (value.bmod (2 ^ 64)))
    | .string, .text s | .varString, .text s | .tinyBlob, .text s | .blob, .text s =>
        some (.text s)
    | .string, .null | .varString, .null | .tinyBlob, .null | .blob, .null => some (.text [])
    | _, _ => none

theorem charText_bmod (value : ℤ) : charText (value.bmod (2 ^ 8)) = charText value := by
  have hmod : value.bmod (2 ^ 8) % 2 ^ 8 = value % 2 ^ 8 := by
    exact Int.bmod_emod
  unfold charText
  rw [hmod]

/-- The values that the binding functions give. -/
theorem argValue_bindNumeric (value : ℤ) (type : FieldType) :
    argValue (bindNumeric .cleared value type) = some (match type with
      | .tiny => .text (charText value)
      | .short => .integer (value.bmod (2 ^ 16))
      | .long => .integer (value.bmod (2 ^ 32))
      | .longlong => .integer (value.bmod (2 ^ 64))
      | _ => .null) := by
  cases type with
  | tiny => exact congrArg (some ∘ Value.text) (charText_bmod value)
  | _ => simp [bindNumeric, argValue, MysqlBind.cleared]

theorem argValue_bindString (value : Option CString) (type : FieldType) :
    argValue (bindString .cleared value type) = some (match type, value with
      | .varString, some s | .blob, some s => .text s
      | _, _ => .null) := by
  cases type <;> cases value <;> rfl

theorem argValue_bindNullBlob (data : MysqlBind) (value : Buffer) :
    argValue (bindNullBlob data value) = some .null := rfl

/-- The literal for a value: a negative number is a sign and its magnitude. -/
def Value.tokens : Value → List Token
  | .null => [.word ['N', 'U', 'L', 'L']]
  | .integer n => if n < 0 then [.symbol '-', .number n.natAbs] else [.number n.natAbs]
  | .text s => [.string s]

/-- The text of the literal. -/
def Value.literal : Value → CString
  | .null => ['N', 'U', 'L', 'L']
  | .integer n => decimal n
  | .text s => '\'' :: (dbQuote s ++ ['\''])

/-- The pattern with the texts in place of its question marks. -/
def fill : CString → List CString → CString
  | [], _ => []
  | c :: s, [] => c :: fill s []
  | c :: s, t :: ts => if c = '?' then t ++ fill s ts else c :: fill s (t :: ts)

/-- The tokens with others in place of the question marks. -/
def substitute : List Token → List (List Token) → List Token
  | [], _ => []
  | t :: T, [] => t :: substitute T []
  | t :: T, l :: ls => if t = .symbol '?' then l ++ substitute T ls else t :: substitute T (l :: ls)

/-! ## Quoting -/

theorem quoteLoop_eq_self {s : CString} (h : s.countP isSpecial = 0) : quoteLoop s = s := by
  induction s with
  | nil => rfl
  | cons c s ih =>
      rw [List.countP_eq_zero] at h
      have hc : ¬ isSpecial c = true := h c (by simp)
      rw [quoteLoop, if_neg hc, ih (List.countP_eq_zero.mpr fun x hx ↦ h x (by simp [hx]))]

/-- The shortcut for strings without special characters makes no difference. -/
theorem dbQuote_eq (s : CString) : dbQuote s = quoteLoop s := by
  rw [dbQuote]
  split
  · rename_i h
    exact (quoteLoop_eq_self h).symm
  · rfl

/-- Inside the quotes the lexer reads back what was quoted. -/
theorem lexFrom_quoteLoop (v s rest : CString) :
    lexFrom (.text '\'' v) (quoteLoop s ++ rest) = lexFrom (.text '\'' (v ++ s)) rest := by
  induction s generalizing v with
  | nil => simp [quoteLoop]
  | cons c s ih =>
      have hadd : v ++ c :: s = (v ++ [c]) ++ s := by simp
      by_cases hc : isSpecial c = true
      · have hunescape : unescape c = [c] := by
          simp only [isSpecial, Bool.or_eq_true, beq_iff_eq] at hc
          rcases hc with (rfl | rfl) | rfl <;> decide
        rw [quoteLoop, if_pos hc, List.cons_append, List.cons_append,
          lexFrom_text_escape (by decide), hunescape, ih, hadd]
      · have hplain : c ≠ '\'' ∧ c ≠ '\\' := by
          simp only [isSpecial, Bool.or_eq_true, beq_iff_eq, not_or] at hc
          exact ⟨hc.1.1, hc.2⟩
        rw [quoteLoop, if_neg hc, List.cons_append, lexFrom_text_plain hplain.1 hplain.2, ih, hadd]

/-- A literal between tokens and before something apart is a token of its own. -/
theorem lexFrom_literal (value : Value) {m : Mode} (hm : m.between = true) {rest : CString}
    (hrest : Apart rest) :
    lexFrom m (value.literal ++ rest) = m.pending ++ (value.tokens ++ lexFrom .start rest) := by
  cases value with
  | null =>
      have hword : ∀ c ∈ ['U', 'L', 'L'], isWord c = true := List.all_eq_true.mp (by decide)
      have h := lexFrom_word (d := 'N') (by decide) [] hword hrest
      rw [Value.literal, List.cons_append, lexFrom_between hm (by decide), lexFrom_cons]
      exact congrArg (m.pending ++ ·) h
  | integer n =>
      rw [Value.literal, decimal, Value.tokens]
      split
      · exact lexFrom_minus hm n.natAbs hrest
      · exact lexFrom_number hrest n.natAbs hm
  | text s =>
      have hquote : rest.head? ≠ some '\'' := by
        intro e
        exact absurd (hrest '\'' e) (by decide)
      have h := lexFrom_text_close (v := s) hquote
      rw [Value.literal, dbQuote_eq, List.cons_append, List.append_assoc,
        lexFrom_between hm (by decide), lexFrom_cons]
      show m.pending ++ lexFrom (.text '\'' []) _ = _
      rw [lexFrom_quoteLoop]
      exact congrArg (m.pending ++ ·) h

/-! ## Placeholders -/

/-- Whether the question marks stand by themselves, from a mode of the lexer on. -/
def placedFrom : Mode → CString → Bool
  | _, [] => true
  | m, c :: s =>
      (c != '?' || (m.between && s.head?.all fun d ↦ apart d && d != '?')) &&
        placedFrom (step m c).1 s

/-- Each question mark of the pattern stands by itself: it is not inside a quote, a
name, a word or a comment, and no string ends right before it; and no quote, word,
dot or question mark follows right after it. -/
def Placed (pattern : CString) : Prop := placedFrom .start pattern = true

instance (pattern : CString) : Decidable (Placed pattern) := by
  unfold Placed; infer_instance

theorem symbol_notMem_fresh {c : Char} (hc : c ≠ '?') : .symbol '?' ∉ (fresh c).2 := by
  unfold fresh
  repeat' split
  all_goals simp [hc.symm]

theorem symbol_notMem_after {tokens : List Token} (ht : .symbol '?' ∉ tokens) {c : Char}
    (hc : c ≠ '?') : .symbol '?' ∉ (after tokens c).2 := by
  simpa [after, ht] using symbol_notMem_fresh hc

theorem symbol_ne_wordToken (w : CString) : .symbol '?' ≠ wordToken w := by
  unfold wordToken
  repeat' split
  all_goals simp

/-- Other characters do not make question marks. -/
theorem symbol_notMem_step (m : Mode) {c : Char} (hc : c ≠ '?') :
    .symbol '?' ∉ (step m c).2 := by
  have hnil : Token.symbol '?' ∉ [] := List.not_mem_nil
  cases m with
  | start => exact symbol_notMem_fresh hc
  | word w =>
      simp only [step]
      split
      · exact hnil
      · exact symbol_notMem_after (by simp [symbol_ne_wordToken]) hc
  | dash | dashes | slash | opened | comment | star | line | text | escape | closing | name
    | nameClosing =>
      simp only [step]
      repeat' split
      all_goals first
        | exact hnil
        | exact symbol_notMem_after (by simp) hc
        | simp

theorem symbol_notMem_finish (m : Mode) : .symbol '?' ∉ finish m := by
  cases m with
  | word w => simp [finish, symbol_ne_wordToken]
  | _ => simp [finish]

theorem substitute_append {A : List Token} (hA : .symbol '?' ∉ A) (B : List Token)
    (ls : List (List Token)) : substitute (A ++ B) ls = A ++ substitute B ls := by
  induction A with
  | nil => rfl
  | cons t A ih =>
      simp only [List.mem_cons, not_or] at hA
      have ht : t ≠ .symbol '?' := fun e ↦ hA.1 e.symm
      cases ls <;> simp [substitute, ht, ih hA.2]

theorem symbol_notMem_pending (m : Mode) : .symbol '?' ∉ m.pending := by
  cases m <;> simp [Mode.pending]

/-- Filling a pattern with literals puts them among its tokens. -/
theorem lexFrom_fill {values : List Value} {s : CString} {m : Mode}
    (hplaced : placedFrom m s = true) (hcount : s.count '?' = values.length) :
    lexFrom m (fill s (values.map Value.literal)) =
      substitute (lexFrom m s) (values.map Value.tokens) := by
  induction s generalizing m values with
  | nil =>
      have h := substitute_append (symbol_notMem_finish m) [] (values.map Value.tokens)
      simpa [fill, substitute] using h.symm
  | cons c s ih =>
      simp only [placedFrom, Bool.and_eq_true] at hplaced
      obtain ⟨hc, hplaced⟩ := hplaced
      by_cases hq : c = '?'
      · subst hq
        obtain ⟨value, values, rfl⟩ : ∃ v vs, values = v :: vs := by
          cases values with
          | nil => simp at hcount
          | cons v vs => exact ⟨v, vs, rfl⟩
        simp only [bne_self_eq_false, Bool.false_or, Bool.and_eq_true] at hc
        obtain ⟨hm, hnext⟩ := hc
        have hstep : step m '?' = after m.pending '?' := step_between hm (by decide)
        have hstart : (step m '?').1 = .start := by rw [hstep]; rfl
        rw [hstart] at hplaced
        have hrest : Apart (fill s (values.map Value.literal)) := by
          intro d hd
          cases s with
          | nil => cases hd
          | cons e s =>
              simp only [List.head?_cons, Option.all_some, Bool.and_eq_true, bne_iff_ne] at hnext
              have he : e = d := by
                cases values <;> simpa [fill, hnext.2] using hd
              exact he ▸ hnext.1
        have hcount' : s.count '?' = values.length := by simpa using hcount
        have htail := ih hplaced hcount'
        have hmark : .symbol '?' ∉ m.pending := symbol_notMem_pending m
        rw [List.map_cons, List.map_cons, fill, if_pos rfl, lexFrom_literal value hm hrest, htail,
          lexFrom_cons, hstart, hstep]
        show _ = substitute ((m.pending ++ [.symbol '?']) ++ _) _
        rw [List.append_assoc, substitute_append hmark]
        simp [substitute]
      · have hfill : fill (c :: s) (values.map Value.literal) =
            c :: fill s (values.map Value.literal) := by
          cases values <;> simp [fill, hq]
        rw [hfill, lexFrom_cons, lexFrom_cons, substitute_append (symbol_notMem_step m hq),
          ih hplaced (by simpa [hq] using hcount)]

/-- The kernel computes on characters, which the pieces of a pattern have to be shown as. -/
theorem placed_pieces {pieces : List String} (chars : List CString)
    (h : pieces = chars.map String.ofList) (hp : Placed chars.flatten) :
    Placed (pieces.map String.toList).flatten := by
  rw [h, List.map_map]
  have hid : String.toList ∘ String.ofList = id := by
    funext l
    exact String.toList_ofList
  rwa [hid, List.map_id]

set_option maxRecDepth 4000 in
/-- The question marks of every query of the table stand by themselves. -/
theorem queryTable_placed : ∀ pattern ∈ queryTable, Placed pattern := by
  refine List.forall_mem_map.mpr ?_
  unfold queryPieces
  -- a pattern has up to five pieces
  iterate 30
    first
    | refine List.forall_mem_cons.mpr ⟨placed_pieces [_] rfl (by decide +kernel), ?_⟩
    | refine List.forall_mem_cons.mpr ⟨placed_pieces [_, _] rfl (by decide +kernel), ?_⟩
    | refine List.forall_mem_cons.mpr ⟨placed_pieces [_, _, _] rfl (by decide +kernel), ?_⟩
    | refine List.forall_mem_cons.mpr ⟨placed_pieces [_, _, _, _] rfl (by decide +kernel), ?_⟩
    | refine List.forall_mem_cons.mpr ⟨placed_pieces [_, _, _, _, _] rfl (by decide +kernel), ?_⟩
  exact List.forall_mem_nil _

/-! ## The text of the query -/

theorem strchr_eq_none {c : Char} {s : CString} (h : strchr c s = none) : c ∉ s := by
  induction s with
  | nil => simp
  | cons d s ih =>
      rw [strchr] at h
      split at h
      · cases h
      · rename_i hd
        rw [Option.map_eq_none_iff] at h
        simp [Ne.symm hd, ih h]

theorem strchr_eq_some {c : Char} {s before rest : CString}
    (h : strchr c s = some (before, rest)) : s = before ++ c :: rest ∧ c ∉ before := by
  induction s generalizing before with
  | nil => cases h
  | cons d s ih =>
      rw [strchr] at h
      split at h
      · rename_i hd
        cases h
        exact ⟨by simp [hd], by simp⟩
      · rename_i hd
        obtain ⟨⟨before', rest'⟩, h', he⟩ := Option.map_eq_some_iff.mp h
        cases he
        obtain ⟨rfl, hb⟩ := ih h'
        exact ⟨rfl, by simp [Ne.symm hd, hb]⟩

theorem fill_of_notMem {s : CString} (h : '?' ∉ s) (rest : CString) (ts : List CString) :
    fill (s ++ rest) ts = s ++ fill rest ts := by
  induction s with
  | nil => rfl
  | cons c s ih =>
      simp only [List.mem_cons, not_or] at h
      have hc : c ≠ '?' := fun e ↦ h.1 e.symm
      cases ts <;> simp [fill, hc, ih h.2]

theorem fill_nil (s : CString) : fill s [] = s := by
  induction s with
  | nil => rfl
  | cons c s ih => rw [fill, ih]

theorem decimal_ne_nil (n : ℤ) : decimal n ≠ [] := by
  unfold decimal
  split
  · simp
  · exact Nat.toDigits_ne_nil

theorem append_number (n : ℤ) (sqlbuf : CString) :
    (Piece.number n).append sqlbuf = sqlbuf ++ decimal n := by
  simp [Piece.append, Piece.number, decimal_ne_nil, strncat]

theorem append_string (s buf sqlbuf : CString) :
    (Piece.append ⟨some (dbQuote s), buf, (dbQuote s).length + 2⟩ sqlbuf) =
      sqlbuf ++ Value.literal (.text s) := by
  have htake : (dbQuote s).take ((dbQuote s).length + 2) = dbQuote s :=
    List.take_of_length_le (by omega)
  simp [Piece.append, strncat, htake, Value.literal]

/-- The piece of an argument is its literal. -/
theorem argPiece_eq {arg : MysqlBind} {value : Value} (h : argValue arg = some value)
    (hnull : arg.isNull = false) :
    ∃ piece, argPiece arg = some (some piece) ∧ piece.len = value.literal.length ∧
      ∀ sqlbuf, piece.append sqlbuf = sqlbuf ++ value.literal := by
  obtain ⟨type, buffer, isNull⟩ := arg
  obtain rfl : isNull = false := hnull
  have hstring : ∀ s buf, value = .text s → ∃ piece : Piece,
      piece = ⟨some (dbQuote s), buf, (dbQuote s).length + 2⟩ ∧
        piece.len = value.literal.length ∧
        ∀ sqlbuf, piece.append sqlbuf = sqlbuf ++ value.literal := by
    rintro s buf rfl
    exact ⟨_, rfl, by simp [Value.literal], append_string s buf⟩
  have hnumber : ∀ n, value = .integer n → (Piece.number n).len = value.literal.length ∧
      ∀ sqlbuf, (Piece.number n).append sqlbuf = sqlbuf ++ value.literal := by
    rintro n rfl
    exact ⟨rfl, append_number n⟩
  simp only [argValue, Bool.false_eq_true, if_false] at h
  split at h
  case h_1 n =>
    obtain ⟨piece, rfl, hlen, happend⟩ := hstring _ (charText n) (Option.some.inj h).symm
    exact ⟨_, rfl, hlen, happend⟩
  case h_2 n => exact ⟨_, rfl, hnumber _ (Option.some.inj h).symm⟩
  case h_3 n => exact ⟨_, rfl, hnumber _ (Option.some.inj h).symm⟩
  case h_4 n => exact ⟨_, rfl, hnumber _ (Option.some.inj h).symm⟩
  case h_13 => cases h
  case h_5 s | h_6 s | h_7 s | h_8 s =>
    obtain ⟨piece, rfl, hlen, happend⟩ := hstring _ [] (Option.some.inj h).symm
    exact ⟨_, rfl, hlen, happend⟩
  all_goals
    cases h
    exact ⟨⟨none, [], 2⟩, rfl, rfl, fun sqlbuf ↦ by simp [Piece.append, Value.literal, dbQuote]⟩

/-- An argument for whose literal there is room is appended as that literal. -/
theorem appendArg_eq {arg : MysqlBind} {value : Value} (h : argValue arg = some value)
    {buflen : ℕ} (hfit : value.literal.length ≤ buflen) (sqlbuf : CString) :
    ∃ buflen', appendArg arg buflen sqlbuf = some (.done buflen' (sqlbuf ++ value.literal)) ∧
      buflen ≤ buflen' + value.literal.length := by
  by_cases hnull : arg.isNull = true
  · obtain rfl : value = .null := by
      rw [argValue, if_pos hnull] at h
      exact (Option.some.inj h).symm
    have hroom : ¬ buflen < 4 := Nat.not_lt.mpr hfit
    refine ⟨buflen - 4, ?_, Nat.le_of_eq (Nat.sub_add_cancel hfit).symm⟩
    rw [appendArg, if_pos hnull, if_neg hroom]
    rfl
  · obtain ⟨piece, hpiece, hlen, happend⟩ := argPiece_eq h (by simpa using hnull)
    refine ⟨buflen, ?_, Nat.le_add_right ..⟩
    rw [appendArg, if_neg hnull, hpiece]
    simp [hlen, happend, Nat.not_lt.mpr hfit]

/-- With a value for each question mark and room for the text, the loop fills the
rest of the pattern. -/
theorem dbQueryLoop_eq {args : List MysqlBind} {values : List Value}
    (hargs : args.map argValue = values.map some) {query : CString}
    (hcount : query.count '?' = values.length) {argCount count buflen fuel : ℕ}
    {sqlbuf : CString} (hargCount : count + args.length ≤ argCount)
    (hfit : (sqlbuf ++ fill query (values.map Value.literal)).length ≤ buflen + sqlbuf.length)
    (hfuel : values.length < fuel) :
    dbQueryLoop argCount fuel query (some args) count buflen sqlbuf =
      some (.query (sqlbuf ++ fill query (values.map Value.literal))) := by
  induction values generalizing args query count buflen fuel sqlbuf with
  | nil =>
      obtain ⟨fuel, rfl⟩ : ∃ n, fuel = n + 1 := ⟨fuel - 1, by simp at hfuel; omega⟩
      have hnone : strchr '?' query = none := by
        cases hq : strchr '?' query with
        | none => rfl
        | some p =>
            obtain ⟨hsplit, -⟩ := strchr_eq_some hq
            rw [hsplit] at hcount
            simp at hcount
      rw [List.map_nil, fill_nil] at hfit ⊢
      have htake : query.take buflen = query := List.take_of_length_le (by
        rw [List.length_append] at hfit
        omega)
      unfold dbQueryLoop
      simp [hnone, strncat, htake]
  | cons value values ih =>
      obtain ⟨fuel, rfl⟩ : ∃ n, fuel = n + 1 := ⟨fuel - 1, by simp at hfuel; omega⟩
      obtain ⟨arg, args, rfl⟩ : ∃ a as, args = a :: as := by
        cases args with
        | nil => cases hargs
        | cons a as => exact ⟨a, as, rfl⟩
      rw [List.map_cons, List.map_cons, List.cons.injEq] at hargs
      obtain ⟨before, rest, hq⟩ : ∃ before rest, strchr '?' query = some (before, rest) := by
        cases hq : strchr '?' query with
        | none =>
            rw [List.count_eq_zero.mpr (strchr_eq_none hq)] at hcount
            cases hcount
        | some p => exact ⟨p.1, p.2, rfl⟩
      obtain ⟨rfl, hbefore⟩ := strchr_eq_some hq
      have hfill : fill (before ++ '?' :: rest) ((value :: values).map Value.literal) =
          before ++ (value.literal ++ fill rest (values.map Value.literal)) := by
        rw [fill_of_notMem hbefore, List.map_cons, fill, if_pos rfl]
      rw [hfill] at hfit ⊢
      simp only [List.length_append, List.length_cons] at hfit hargCount hfuel
      have hroom : value.literal.length ≤ buflen := by omega
      obtain ⟨buflen', happend, hbuflen⟩ :=
        appendArg_eq hargs.1 hroom (sqlbuf ++ before)
      have hstrncat : strncat sqlbuf before before.length = sqlbuf ++ before := by simp [strncat]
      have hcount' : rest.count '?' = values.length := by
        simpa [List.count_eq_zero.mpr hbefore] using hcount
      have hfit' : ((sqlbuf ++ before ++ value.literal) ++
          fill rest (values.map Value.literal)).length ≤
          buflen' + (sqlbuf ++ before ++ value.literal).length := by
        simp only [List.length_append]
        omega
      have hargCount' : count + 1 + args.length ≤ argCount := by omega
      have hfuel' : values.length < fuel := by omega
      have hrest := ih hargs.2 hcount' hargCount' hfit' hfuel'
      unfold dbQueryLoop
      simp only [hq, if_neg (show ¬ buflen < before.length by omega), hstrncat,
        if_neg (show ¬ argCount < count + 1 by omega), happend, Option.bind_eq_bind,
        Option.bind_some, hrest]
      simp

/-- The condition of several queries of the table. -/
def nickPattern : CString := "`chanid` = ? AND `nick` = ?".toList

end Beirdobot.Mysql
