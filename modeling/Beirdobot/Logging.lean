import Beirdobot.Libc
import Mathlib.Data.Fin.Basic
import Mathlib.Data.Int.Notation

/-!
# Log lines

Transcriptions of `LogPrintLine` and of what `LogItemOutput` builds in `logging.c`.  The
message is cut in one function and decorated in the other.
-/

namespace Beirdobot.Logging

/-- `LOGLINE_MAX` -/
def loglineMax : ℕ := 1024

/-- `MAX_STRING_LENGTH` -/
def maxStringLength : ℕ := 1024

/-- `TIMESTAMP_MAX` -/
def timestampMax : ℕ := 128

/-- `LogLevel_t` -/
inductive LogLevel
  | emerg
  | alert
  | crit
  | err
  | warning
  | notice
  | info
  | debug
  | unknown
  deriving DecidableEq

/-- `LogFileType_t` -/
inductive LogFileType
  | console
  | file
  | syslog
  | ncurses
  deriving DecidableEq

/-- A `struct tm`, with the year that `%Y` prints. -/
structure Tm where
  year : ℕ
  mon : Fin 12
  mday : Fin 32
  hour : Fin 24
  min : Fin 60
  sec : Fin 61
  year_lt : year < 2 ^ 31 + 1900

/-- A `struct timeval` -/
structure Timeval where
  sec : ℤ
  usec : Fin 1000000

/-- `LoggingItem_t` -/
structure LoggingItem where
  level : LogLevel
  threadId : ℕ
  file : CString
  sourceLine : ℕ
  function : CString
  tv : Timeval
  message : CString

/-- `LogPrintLine`, called by a thread at a time; `text` is what the format and its arguments
come to, of which `vsnprintf` writes as much as fits. -/
def logPrintLine (logLevel level : LogLevel) (file : CString) (sourceLine : ℕ)
    (function : CString) (text : CString) (threadId : ℕ) (tv : Timeval) : Option LoggingItem :=
  if level.ctorIdx > logLevel.ctorIdx then none
  else
    some { level, threadId, file, sourceLine, function, tv, message := text.take (loglineMax - 1) }

/-- A number with zeros before it, `%02d` or `%06d`. -/
def padded (width n : ℕ) : CString :=
  List.replicate (width - (Nat.toDigits 10 n).length) '0' ++ Nat.toDigits 10 n

/-- `%b` in the C locale. -/
def monthName (mon : Fin 12) : CString :=
  (["Jan", "Feb", "Mar", "Apr", "May", "Jun", "Jul", "Aug", "Sep", "Oct", "Nov",
    "Dec"].get mon).toList

/-- `strftime` with the format `%Y-%b-%d %H:%M:%S`. -/
def strftime (ts : Tm) : CString :=
  Nat.toDigits 10 ts.year ++ '-' :: (monthName ts.mon ++ '-' :: (padded 2 ts.mday ++
    ' ' :: (padded 2 ts.hour ++ ':' :: (padded 2 ts.min ++ ':' :: padded 2 ts.sec))))

/-- `snprintf( usPart, 9, ".%06d ", (int)(item->tv.tv_usec) )` -/
def usPart (tv : Timeval) : CString := ('.' :: (padded 6 tv.usec ++ [' '])).take (9 - 1)

/-- What `LogItemOutput` asks for: `localtime_r` and `thread_name`. -/
structure Environment where
  localtime : ℤ → Tm
  threadName : ℕ → Option CString

section Output

variable (environment : Environment)

/-- The timestamp that `LogItemOutput` puts together. -/
def timestamp (item : LoggingItem) : CString :=
  strftime (environment.localtime item.tv.sec) ++ usPart item.tv

/-- What `LogItemOutput` builds in `line` for an output. -/
def outputLine (item : LoggingItem) : LogFileType → Option CString
  | .syslog => none
  | .console => some (timestamp environment item ++ ' ' :: (item.message ++ ['\n']))
  | .file =>
      let threadName := (environment.threadName item.threadId).getD "thread_unknown".toList
      some (timestamp environment item ++ ' ' :: (threadName ++ ' ' :: (item.file ++ ':' ::
        (Nat.toDigits 10 item.sourceLine ++ " (".toList ++ item.function ++ ") - ".toList ++
          item.message ++ ['\n']))))
  | .ncurses => some (timestamp environment item ++ ' ' :: (item.message ++ ['\n']))

/-- The lines that `LogItemOutput` builds, for the outputs of `LogList`. -/
def logItemOutput (logList : List LogFileType) (item : LoggingItem) : List CString :=
  logList.filterMap (outputLine environment item)

end Output

/-- A call of `LogPrintLine`, with the outputs that its item comes to. -/
structure LogCall where
  logLevel : LogLevel
  level : LogLevel
  file : CString
  sourceLine : ℕ
  function : CString
  text : CString
  threadId : ℕ
  tv : Timeval
  logList : List LogFileType

namespace LogCall

variable (environment : Environment) (c : LogCall)

/-- The item that is queued. -/
def item : Option LoggingItem :=
  logPrintLine c.logLevel c.level c.file c.sourceLine c.function c.text c.threadId c.tv

/-- Every line fits, with its NUL, in the buffer that it is built in. -/
def Fits : Prop :=
  ∀ item, c.item = some item → ∀ s ∈ logItemOutput environment c.logList item,
    s.length + 1 ≤ maxStringLength

/-- The digits of the year. -/
def yearLength : ℕ := (Nat.toDigits 10 (environment.localtime c.tv.sec).year).length

/-- The name of the thread, as a file output has it. -/
def nameLength : ℕ :=
  ((environment.threadName c.threadId).getD "thread_unknown".toList).length

/-- The text, and for a file output the names too, are short enough. -/
structure Short : Prop where
  plain : .console ∈ c.logList ∨ .ncurses ∈ c.logList →
    c.yearLength environment + c.text.length ≤ 997
  file : .file ∈ c.logList →
    c.yearLength environment + c.nameLength environment + c.file.length +
      (Nat.toDigits 10 c.sourceLine).length + c.function.length + c.text.length ≤ 989

end LogCall

/-! ## Lengths -/

theorem length_padded (width n : ℕ) (hwidth : 0 < width) (hn : n < 10 ^ width) :
    (padded width n).length = width := by
  have hdigits : (Nat.toDigits 10 n).length ≤ width :=
    (Nat.length_toDigits_le_iff (by decide) hwidth).mpr hn
  rw [padded, List.length_append, List.length_replicate]
  omega

theorem length_monthName (mon : Fin 12) : (monthName mon).length = 3 := by
  revert mon
  decide

theorem length_strftime (ts : Tm) :
    (strftime ts).length = (Nat.toDigits 10 ts.year).length + 16 := by
  have hmday := length_padded 2 ts.mday (by decide) (by omega)
  have hhour := length_padded 2 ts.hour (by decide) (by omega)
  have hmin := length_padded 2 ts.min (by decide) (by omega)
  have hsec := length_padded 2 ts.sec (by decide) (by omega)
  simp only [strftime, List.length_append, List.length_cons, length_monthName, hmday, hhour, hmin,
    hsec]

theorem length_usPart (tv : Timeval) : (usPart tv).length = 8 := by
  have husec := length_padded 6 tv.usec (by decide) (by omega)
  rw [usPart, List.length_take, List.length_cons, List.length_append, husec]
  rfl

/-- `timestamp` itself has room for what is put in it. -/
theorem length_timestamp (environment : Environment) (item : LoggingItem) :
    (strftime (environment.localtime item.tv.sec)).length + 1 ≤ timestampMax - 8 ∧
      (timestamp environment item).length + 1 ≤ timestampMax := by
  have hyear : (Nat.toDigits 10 (environment.localtime item.tv.sec).year).length ≤ 10 :=
    (Nat.length_toDigits_le_iff (by decide) (by decide)).mpr
      (Nat.lt_trans (environment.localtime item.tv.sec).year_lt (by decide))
  rw [timestamp, List.length_append, length_strftime, length_usPart, timestampMax]
  omega

/-! ## The lines of a call -/

section Calls

variable {environment : Environment} {c : LogCall} {item : LoggingItem} {s : CString}

/-- What is queued of a call that is logged. -/
theorem item_eq (h : ¬ c.level.ctorIdx > c.logLevel.ctorIdx) :
    c.item = some
      { level := c.level, threadId := c.threadId, file := c.file, sourceLine := c.sourceLine,
        function := c.function, tv := c.tv, message := c.text.take 1023 } := by
  rw [LogCall.item, logPrintLine]
  exact if_neg h

/-- The lengths of the parts of an item are those of its call. -/
structure Parts (environment : Environment) (c : LogCall) (item : LoggingItem) : Prop where
  timestamp : (timestamp environment item).length = c.yearLength environment + 24
  name : ((environment.threadName item.threadId).getD "thread_unknown".toList).length =
    c.nameLength environment
  file : item.file.length = c.file.length
  number : (Nat.toDigits 10 item.sourceLine).length = (Nat.toDigits 10 c.sourceLine).length
  function : item.function.length = c.function.length
  message : item.message.length = min 1023 c.text.length

theorem parts_of_item (h : c.item = some item) : Parts environment c item := by
  rw [LogCall.item, logPrintLine] at h
  split at h
  · cases h
  · cases h
    refine ⟨?_, rfl, rfl, rfl, rfl, List.length_take⟩
    rw [timestamp, List.length_append, length_strftime, length_usPart]
    rfl

/-- A line of a console or a curses output. -/
theorem plain_length (h : Parts environment c item) :
    (timestamp environment item ++ ' ' :: (item.message ++ ['\n'])).length =
      c.yearLength environment + 26 + min 1023 c.text.length := by
  rw [List.length_append, List.length_cons, List.length_append, List.length_singleton, h.timestamp,
    h.message]
  omega

/-- A line of a file output. -/
theorem file_length (h : Parts environment c item)
    (hs : outputLine environment item .file = some s) :
    s.length = c.yearLength environment + c.nameLength environment + c.file.length +
      (Nat.toDigits 10 c.sourceLine).length + c.function.length + min 1023 c.text.length + 34 := by
  rw [outputLine, Option.some.injEq] at hs
  rw [← hs]
  simp only [List.length_append, List.length_cons, h.timestamp, h.name, h.file, h.number,
    h.function, h.message, String.length_toList, List.length_nil]
  have hopen : " (".length = 2 := rfl
  have hclose : ") - ".length = 4 := rfl
  omega

theorem mem_logItemOutput {logList : List LogFileType} :
    s ∈ logItemOutput environment logList item ↔
      ∃ type ∈ logList, outputLine environment item type = some s :=
  List.mem_filterMap

theorem fits_of_short (hshort : c.Short environment) : c.Fits environment := by
  intro item hitem s hs
  have hparts : Parts environment c item := parts_of_item hitem
  obtain ⟨type, htype, hline⟩ := mem_logItemOutput.mp hs
  cases type with
  | syslog => cases hline
  | console =>
      cases hline
      have hplain := hshort.plain (.inl htype)
      rw [plain_length hparts, maxStringLength]
      omega
  | ncurses =>
      cases hline
      have hplain := hshort.plain (.inr htype)
      rw [plain_length hparts, maxStringLength]
      omega
  | file =>
      have hfile := hshort.file htype
      rw [file_length hparts hline, maxStringLength]
      omega

theorem short_of_fits (hlogged : ¬ c.level.ctorIdx > c.logLevel.ctorIdx)
    (hfits : c.Fits environment) : c.Short environment := by
  have hitem := item_eq hlogged
  have hparts : Parts environment c _ := parts_of_item hitem
  have hline : ∀ type ∈ c.logList, ∀ s, outputLine environment _ type = some s →
      s.length + 1 ≤ maxStringLength := fun type htype s hs ↦
    hfits _ hitem s (mem_logItemOutput.mpr ⟨type, htype, hs⟩)
  have hyear : 0 < c.yearLength environment := Nat.length_toDigits_pos
  constructor
  · intro htype
    have hplain : (timestamp environment _ ++ ' ' :: (_ ++ ['\n'])).length + 1 ≤ maxStringLength :=
      htype.elim (fun h ↦ hline _ h _ rfl) (fun h ↦ hline _ h _ rfl)
    rw [plain_length hparts, maxStringLength] at hplain
    omega
  · intro htype
    have hfile := hline _ htype _ rfl
    rw [file_length hparts rfl, maxStringLength] at hfile
    omega

/-- Every line fits if and only if the call is not logged, or its text and names are short
enough. -/
theorem fits_iff (environment : Environment) (c : LogCall) :
    c.Fits environment ↔ c.level.ctorIdx > c.logLevel.ctorIdx ∨ c.Short environment := by
  by_cases hlevel : c.level.ctorIdx > c.logLevel.ctorIdx
  · refine iff_of_true (fun item hitem ↦ ?_) (.inl hlevel)
    rw [LogCall.item, logPrintLine, if_pos hlevel] at hitem
    cases hitem
  · exact ⟨fun hfits ↦ .inr (short_of_fits hlevel hfits),
      fun hshort ↦ fits_of_short (hshort.resolve_left hlevel)⟩

end Calls

/-- A clock that stands still, and threads without names. -/
def noon : Environment where
  localtime _ := ⟨2010, 6, 1, 12, 0, 0, by decide⟩
  threadName _ := none

/-- A text of 1000 characters goes to the console. -/
def longCall : LogCall where
  logLevel := .unknown
  level := .notice
  file := "bot.c".toList
  sourceLine := 100
  function := "botCmd".toList
  text := List.replicate 1000 'x'
  threadId := 0
  tv := ⟨0, 0⟩
  logList := [.console]

theorem not_fits : ¬ longCall.Fits noon := by
  intro hfits
  have hlogged : ¬ longCall.level.ctorIdx > longCall.logLevel.ctorIdx := by decide
  have hitem := item_eq hlogged
  have hfit := hfits _ hitem _ (mem_logItemOutput.mpr ⟨.console, by decide, rfl⟩)
  rw [plain_length (parts_of_item hitem), maxStringLength] at hfit
  have htext : longCall.text.length = 1000 := List.length_replicate
  omega

end Beirdobot.Logging
