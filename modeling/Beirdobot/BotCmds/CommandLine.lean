import Beirdobot.Libc
import Mathlib.Data.List.DropRight

/-!
# Command lines

A transcription of `CommandLineParse` and `botCmd_parse` of `bot_cmds.c`, of the splitting
that stands in `botCmdPlugin` of `plugin_api.c` and `botCmdLuascript` of `luascript.c`, and
of `ProcOnChannelTalk` of `bot.c`.  A null pointer is `none`.
-/

namespace Beirdobot.BotCmds

/-! ## The splitters -/

/-- What `CommandLineParse` returns, the line, and the message, which it edits in place. -/
structure Parsed where
  cmd : Option CString
  line : Option CString
  msg : Option CString
  deriving DecidableEq

/-- The loop that strips trailing spaces of `CommandLineParse`, with its `len`. -/
def stripLoop (text : CString) : ℕ → CString
  | 0 => []
  | len + 1 => if text[len]? = some ' ' then stripLoop text len else text.take (len + 1)

/-- `if( *line == '\0' ) line = NULL` -/
def orNull (line : CString) : Option CString := if line = [] then none else some line

/-- `CommandLineParse` -/
def commandLineParse : Option CString → Parsed
  | none => ⟨none, none, none⟩
  | some msg =>
      -- `strstr( msg, " " )`
      match msg.dropWhile (· != ' ') with
      | [] => ⟨some msg, none, some msg⟩
      | _ :: line =>
          -- `strndup( msg, len )`
          let cmd := msg.takeWhile (· != ' ')
          let line := line.dropWhile (· == ' ')
          let stripped := stripLoop line line.length
          ⟨some cmd, orNull stripped, some (msg.take (msg.length - line.length) ++ stripped)⟩

/-- The other loop, which asks for the length again in every turn. -/
def stripAgainLoop : ℕ → CString → CString
  | 0, text => text
  | len + 1, text => if text[len]? = some ' ' then stripAgainLoop len text.dropLast else text

/-- The command and the line in `botCmdPlugin` and `botCmdLuascript`; there is none where
`strstr` is given a null pointer. -/
def inlineSplit : Option CString → Option (CString × Option CString)
  | none => none
  | some msg =>
      match msg.dropWhile (· != ' ') with
      | [] => some (msg, none)
      | _ :: line => some (msg.takeWhile (· != ' '), orNull (stripAgainLoop line.length line))

/-- The splitting in `botCmdPlugin`. -/
def botCmdPluginSplit : Option CString → Option (CString × Option CString) := inlineSplit

/-- The splitting in `botCmdLuascript`. -/
def botCmdLuascriptSplit : Option CString → Option (CString × Option CString) := inlineSplit

/-! ## The words of a text -/

/-- Up to the first blank. -/
def word (text : CString) : CString := text.takeWhile (· != ' ')

/-- What follows, without the blanks around it. -/
def argument (text : CString) : CString :=
  ((text.dropWhile (· != ' ')).dropWhile (· == ' ')).rdropWhile (· == ' ')

section Strip

variable {line text : CString}

theorem stripLoop_eq (text : CString) {len : ℕ} (hlen : len ≤ text.length) :
    stripLoop text len = (text.take len).rdropWhile (· == ' ') := by
  induction len with
  | zero => rw [stripLoop, List.take_zero, List.rdropWhile_nil]
  | succ len ih =>
      have hlt : len < text.length := hlen
      rw [stripLoop, List.take_add_one, List.getElem?_eq_getElem hlt, Option.toList_some]
      by_cases hblank : text[len] = ' '
      · rw [if_pos (congrArg some hblank), ih (Nat.le_of_lt hlt), List.rdropWhile_concat_pos]
        rw [hblank]
        rfl
      · rw [if_neg (fun h ↦ hblank (Option.some.inj h)), List.rdropWhile_concat_neg]
        rwa [beq_iff_eq]

theorem stripAgainLoop_eq (line : CString) :
    stripAgainLoop line.length line = line.rdropWhile (· == ' ') := by
  induction line using List.reverseRecOn with
  | nil => rfl
  | append_singleton line c ih =>
      rw [List.length_append, List.length_singleton, stripAgainLoop, List.getElem?_concat_length,
        List.dropLast_concat]
      by_cases hblank : c = ' '
      · subst hblank
        rw [if_pos rfl, ih, List.rdropWhile_concat_pos]
        rfl
      · rw [if_neg (fun h ↦ hblank (Option.some.inj h)), List.rdropWhile_concat_neg]
        rwa [beq_iff_eq]

/-- A text without blanks is one word. -/
theorem word_of_dropWhile (h : text.dropWhile (· != ' ') = []) : word text = text := by
  have hsplit := List.takeWhile_append_dropWhile (p := (· != ' ')) (l := text)
  rwa [h, List.append_nil] at hsplit

theorem head_of_dropWhile {c : Char} (h : text.dropWhile (· != ' ') = c :: line) : c = ' ' := by
  have hc := List.head?_dropWhile_not (· != ' ') text
  rw [h, List.head?_cons] at hc
  exact bne_eq_false_iff_eq.mp hc

/-- `CommandLineParse` finds the word and the argument. -/
theorem commandLineParse_cmd (text : CString) :
    (commandLineParse (some text)).cmd = some (word text) := by
  rw [commandLineParse]
  rcases hrest : text.dropWhile (· != ' ') with _ | ⟨c, line⟩
  · exact congrArg some (word_of_dropWhile hrest).symm
  · rfl

theorem commandLineParse_line (text : CString) :
    (commandLineParse (some text)).line = orNull (argument text) := by
  rw [commandLineParse, argument]
  rcases hrest : text.dropWhile (· != ' ') with _ | ⟨c, line⟩
  · rfl
  · obtain rfl := head_of_dropWhile hrest
    dsimp only
    rw [stripLoop_eq _ (Nat.le_refl _), List.take_length]
    rfl

theorem rdropWhile_eq_self_iff : text.rdropWhile (· == ' ') = text ↔ text.getLast? ≠ some ' ' := by
  rw [List.rdropWhile_eq_self_iff]
  constructor
  · intro h hlast
    obtain ⟨text, rfl⟩ := List.getLast?_eq_some_iff.mp hlast
    exact h (List.concat_ne_nil _ _) (by rw [List.getLast_concat]; rfl)
  · intro h hne hlast
    rw [List.getLast?_eq_some_getLast hne] at h
    exact h (congrArg some (beq_iff_eq.mp hlast))

theorem getLast?_argument (text : CString) : (argument text).getLast? ≠ some ' ' :=
  rdropWhile_eq_self_iff.mp (List.rdropWhile_idempotent _ _)

/-- What does not end with a blank has no end that does. -/
theorem getLast?_of_suffix (h : line <:+ text) (hlast : text.getLast? ≠ some ' ') :
    line.getLast? ≠ some ' ' := by
  obtain ⟨front, rfl⟩ := h
  intro hline
  rw [List.getLast?_append, hline] at hlast
  exact hlast rfl

theorem orNull_inj : orNull line = orNull text ↔ line = text := by
  constructor
  · intro h
    rw [orNull, orNull] at h
    split at h <;> split at h
    · simp only [*]
    · cases h
    · cases h
    · exact Option.some.inj h
  · exact congrArg orNull

end Strip

/-! ## The splitters agree -/

/-- A splitter finds the command and the line that `CommandLineParse` finds. -/
def Agrees (split : Option CString → Option (CString × Option CString)) (text : Option CString) :
    Prop :=
  ∃ command line, split text = some (command, line) ∧
    (commandLineParse text).cmd = some command ∧ (commandLineParse text).line = line

/-- No blank follows the first one. -/
def SingleSpaced (text : CString) : Prop :=
  ∀ rest, text.dropWhile (· != ' ') ≠ ' ' :: ' ' :: rest

/-- On a text that does not end with a blank. -/
theorem agrees_inlineSplit {text : CString} (htext : text.getLast? ≠ some ' ') :
    Agrees inlineSplit (some text) ↔ SingleSpaced text := by
  rw [Agrees, commandLineParse_cmd, commandLineParse_line, inlineSplit, argument, SingleSpaced]
  rcases hrest : text.dropWhile (· != ' ') with _ | ⟨c, line⟩
  · exact ⟨fun _ _ h ↦ (by cases h),
      fun _ ↦ ⟨text, none, rfl, congrArg some (word_of_dropWhile hrest), rfl⟩⟩
  · obtain rfl := head_of_dropWhile hrest
    have hsuffix : line <:+ text :=
      (List.suffix_cons ' ' line).trans (hrest ▸ List.dropWhile_suffix _)
    have hline : line.rdropWhile (· == ' ') = line :=
      rdropWhile_eq_self_iff.mpr (getLast?_of_suffix hsuffix htext)
    have hskipped : (line.dropWhile (· == ' ')).rdropWhile (· == ' ') = line.dropWhile (· == ' ') :=
      rdropWhile_eq_self_iff.mpr
        (getLast?_of_suffix ((List.dropWhile_suffix _).trans hsuffix) htext)
    have hspace : (' ' :: line).dropWhile (· == ' ') = line.dropWhile (· == ' ') := rfl
    dsimp only
    rw [stripAgainLoop_eq, hline, hspace, hskipped]
    constructor
    · rintro ⟨command, _, ⟨⟩, -, hboth⟩ rest hdouble
      obtain rfl := (List.cons.inj hdouble).2
      have hlength := congrArg List.length (orNull_inj.mp hboth)
      have hle := (List.dropWhile_suffix (l := rest) (· == ' ')).length_le
      rw [List.dropWhile_cons_of_pos rfl, List.length_cons] at hlength
      omega
    · intro hsingle
      refine ⟨_, _, rfl, rfl, ?_⟩
      rcases line with _ | ⟨d, line⟩
      · rfl
      · have hd : d ≠ ' ' := by
          rintro rfl
          exact hsingle line rfl
        rw [List.dropWhile_cons_of_neg]
        rwa [beq_iff_eq]

/-- The commands agree with `CommandLineParse` on what `botCmd_parse` hands them if and
only if there is an argument, and its first blank is not followed by another. -/
theorem splits_agree_iff (msg : CString) :
    (Agrees botCmdPluginSplit (commandLineParse (some msg)).line ∧
      Agrees botCmdLuascriptSplit (commandLineParse (some msg)).line) ↔
    argument msg ≠ [] ∧ SingleSpaced (argument msg) := by
  rw [botCmdPluginSplit, botCmdLuascriptSplit, and_self, commandLineParse_line, orNull]
  split
  · rename_i hnil
    constructor
    · rintro ⟨_, _, ⟨⟩, -⟩
    · exact fun h ↦ absurd hnil h.1
  · rename_i hne
    rw [agrees_inlineSplit (getLast?_argument msg)]
    exact (and_iff_right hne).symm

/-- `plugin load  trac` asks for a plugin with a blank in front of its name, and `plugin`
for the length of nothing. -/
theorem not_splits_agree :
    ¬ Agrees botCmdPluginSplit (commandLineParse (some "plugin load  trac".toList)).line ∧
      ¬ Agrees botCmdPluginSplit (commandLineParse (some "plugin".toList)).line := by
  constructor
  · rintro ⟨command, line, hsplit, -, hline⟩
    have hread : botCmdPluginSplit (commandLineParse (some "plugin load  trac".toList)).line =
        some ("load".toList, some " trac".toList) := by decide
    rw [hread] at hsplit
    cases hsplit
    exact absurd hline (by decide)
  · rintro ⟨command, line, hsplit, -⟩
    cases hsplit

/-! ## The talk in a channel -/

section Talk

variable {κ : Type}

/-- `botCmd_parse`: the handler that is called with its line, and what is left of the
message. -/
def botCmdParse (botCmdTree : List (CString × κ)) (msg : CString) :
    Option (κ × Option CString) × CString :=
  let parsed := commandLineParse (some msg)
  let item := parsed.cmd.bind fun cmd ↦
    botCmdTree.find? fun item ↦ sameIgnoringCase cmd item.1
  (item.map fun item ↦ (item.2, parsed.line), parsed.msg.getD msg)

/-- What comes of a message: a handler is called, or the regular expressions are tried. -/
inductive Heard (κ : Type)
  | command (func : κ) (line : Option CString)
  | regexpParse (msg : CString)
  deriving DecidableEq

/-- `ProcOnChannelTalk`, behind the entries in the database; there is a `cmdChar` or
none. -/
def procOnChannelTalk (botCmdTree : List (CString × κ)) (cmdChar : Option Char) (msg : CString) :
    Heard κ :=
  match cmdChar, msg with
  | some cmdChar, c :: rest =>
      if c = cmdChar then
        match botCmdParse botCmdTree rest with
        | (some (func, line), _) => .command func line
        | (none, rest) => .regexpParse (c :: rest)
      else .regexpParse (c :: rest)
  | some _, [] => .regexpParse []
  | none, msg => .regexpParse msg

variable {botCmdTree : List (CString × κ)}

/-- Not all that stands behind the blanks is blank. -/
theorem rdropWhile_dropWhile_eq_nil {line : CString}
    (h : (line.dropWhile (· == ' ')).rdropWhile (· == ' ') = []) :
    line.dropWhile (· == ' ') = [] := by
  have hall := List.rdropWhile_eq_nil_iff.mp h
  have hhead := List.head?_dropWhile_not (· == ' ') line
  rcases hline : line.dropWhile (· == ' ') with _ | ⟨c, rest⟩
  · rfl
  · rw [hline] at hhead hall
    exact absurd (hall c List.mem_cons_self) (Bool.eq_false_iff.mp hhead)

/-- The message is cut where the argument ends. -/
theorem commandLineParse_msg (text : CString) :
    (commandLineParse (some text)).msg = some text ↔
      argument text = [] ∨ text.getLast? ≠ some ' ' := by
  rw [commandLineParse, argument]
  rcases hrest : text.dropWhile (· != ' ') with _ | ⟨c, line⟩
  · exact ⟨fun _ ↦ .inl rfl, fun _ ↦ rfl⟩
  · obtain rfl := head_of_dropWhile hrest
    have hspace : (' ' :: line).dropWhile (· == ' ') = line.dropWhile (· == ' ') := rfl
    have hsuffix : line.dropWhile (· == ' ') <:+ text :=
      ((List.dropWhile_suffix _).trans (List.suffix_cons ' ' line)).trans
        (hrest ▸ List.dropWhile_suffix _)
    obtain ⟨front, hfront⟩ := hsuffix
    have htake : text.take (text.length - (line.dropWhile (· == ' ')).length) = front := by
      rw [← hfront, List.length_append, Nat.add_sub_cancel, List.take_left]
    dsimp only
    rw [stripLoop_eq _ (Nat.le_refl _), List.take_length, htake, hspace, Option.some.injEq, ← hfront,
      List.append_cancel_left_eq, rdropWhile_eq_self_iff, List.getLast?_append]
    constructor
    · intro hlast
      rcases hline : (line.dropWhile (· == ' ')).getLast? with _ | d
      · rw [List.getLast?_eq_none_iff.mp hline]
        exact .inl rfl
      · rw [hline] at hlast
        exact .inr hlast
    · rintro (hnil | hlast)
      · rw [rdropWhile_dropWhile_eq_nil hnil]
        exact nofun
      · intro hline
        rw [hline] at hlast
        exact hlast rfl

/-- Where no command matches, the expressions are tried on the message as it came if and
only if it does not end with a blank behind an argument. -/
theorem heard_unchanged_iff (cmdChar : Char) (text : CString)
    (hnone : botCmdTree.find? (fun item ↦ sameIgnoringCase (word text) item.1) = none) :
    ((botCmdParse botCmdTree text).2 = text ∧
      procOnChannelTalk botCmdTree (some cmdChar) (cmdChar :: text) =
        procOnChannelTalk botCmdTree none (cmdChar :: text)) ↔
    argument text = [] ∨ text.getLast? ≠ some ' ' := by
  rw [← commandLineParse_msg]
  obtain ⟨msg, hmsg⟩ : ∃ msg, (commandLineParse (some text)).msg = some msg := by
    rw [commandLineParse]
    split <;> exact ⟨_, rfl⟩
  have hparse : botCmdParse botCmdTree text = (none, msg) := by
    rw [botCmdParse, commandLineParse_cmd, Option.bind_some, hnone, hmsg]
    rfl
  rw [procOnChannelTalk, if_pos rfl, hparse, hmsg, procOnChannelTalk, Option.some.injEq]
  constructor
  · exact fun h ↦ h.1
  · rintro rfl
    exact ⟨rfl, rfl⟩

theorem heard_unchanged_iff_hello :
    procOnChannelTalk [("help".toList, ())] (some '!') "!hello  there".toList =
      .regexpParse "!hello  there".toList :=
  ((heard_unchanged_iff '!' "hello  there".toList (by decide)).mpr
    (.inr (by decide))).2

/-- The blank at the end is gone. -/
theorem not_heard_unchanged :
    (botCmdParse [("help".toList, ())] "hello there ".toList).2 ≠ "hello there ".toList ∧
      procOnChannelTalk [("help".toList, ())] (some '!') "!hello there ".toList ≠
        procOnChannelTalk [("help".toList, ())] none "!hello there ".toList := by
  constructor <;> decide

end Talk

end Beirdobot.BotCmds
