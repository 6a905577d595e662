import Beirdobot.Mysql.Query
import Beirdobot.Mysql.Thread

/-!
# The lookups

The functions of `mysql.c` that wait for a callback to fill in what they return.  The
thread that waits goes on when `mysql_thread` unlocks the mutex, whether the callback ran
or not; what its variable has in it until then is an argument, and so is what the thread
has in `insertid`.
-/

namespace Beirdobot.Mysql.Lookups

open Thread

/-- `MYSQL_ROW`; the columns are never null. -/
abbrev Row := ℕ → CString

/-- What `db_queue_query` with a callback and a mutex leaves in the variable. -/
def lookup {α : Type} (callback : Option (List Row) → α) (out : α) (insertid : ℤ)
    (answers : List (Answer Row)) : Option α :=
  (attempts insertid answers).map fun (_, f) ↦ if f.Answered then callback f.res else out

/-- `result_check_nick_notify` -/
def resultCheckNickNotify (res : Option (List Row)) : Bool := decide (count res ≠ 0)

/-- `db_check_nick_notify`, for a channel and a nick. -/
def dbCheckNickNotify (channel nick : Option CString) (hours : ℤ) (retval : Bool) (insertid : ℤ)
    (answers : List (Answer Row)) : Option Bool :=
  if channel = none ∨ nick = none ∨ hours < 0 then some false
  else lookup resultCheckNickNotify retval insertid answers

/-- A part of the idle time. -/
def amount (n : ℤ) (unit : CString) : CString :=
  if n = 0 then [] else ' ' :: decimal n ++ ' ' :: unit ++ if n = 1 then [] else ['s']

/-- The idle time that `result_get_seen` writes. -/
def idle (timeout : ℤ) : CString :=
  let sec := timeout.tmod 60
  let timeout := timeout.tdiv 60
  let min := timeout.tmod 60
  let timeout := timeout.tdiv 60
  let hour := timeout.tmod 24
  let day := timeout.tdiv 24
  let text := amount day "day".toList ++ amount hour "hour".toList ++ amount min "minute".toList ++
    amount sec "second".toList
  if text = [] then " 0 seconds".toList else text

/-- `result_get_seen` -/
def resultGetSeen (channel nick : CString) (privmsg : Bool) (res : Option (List Row)) :
    Option CString :=
  if count res = 0 then
    some (if privmsg then nick ++ " has not been seen in ".toList ++ channel
      else nick ++ " has not been seen here".toList)
  else
    -- every row is read, the last one counts
    let (timeout, present) :=
      (res.getD []).foldl (fun _ row ↦ (atoi (row 0), atoi (row 1))) ((0, 0) : ℤ × ℤ)
    some (if present ≠ 0 then
      if privmsg then nick ++ " is in ".toList ++ channel ++ " and has been idle for".toList ++
        idle timeout
      else nick ++ " is here and has been idle for".toList ++ idle timeout
    else
      if privmsg then nick ++ " was last seen in ".toList ++ channel ++ idle timeout ++
        " ago".toList
      else nick ++ " was last seen".toList ++ idle timeout ++ " ago".toList)

/-- `db_get_seen`; `privmsg` is what the static variable has when the callback runs. -/
def dbGetSeen (channel nick : Option CString) (privmsg : Bool) (result : Option CString)
    (insertid : ℤ) (answers : List (Answer Row)) : Option (Option CString) :=
  match channel, nick with
  | some channel, some nick => lookup (resultGetSeen channel nick privmsg) result insertid answers
  | _, _ => some none

/-- `result_get_setting` -/
def resultGetSetting (res : Option (List Row)) : Option CString :=
  match res with
  | some (row :: _) => some (row 0)
  | _ => none

/-- `db_get_setting`, which sets its variable first. -/
def dbGetSetting (name : Option CString) (insertid : ℤ) (answers : List (Answer Row)) :
    Option (Option CString) :=
  if name = none then some none else lookup resultGetSetting none insertid answers

/-- The columns of `AuthData_t`. -/
structure AuthData where
  nick : CString
  digest : CString
  seed : CString
  hash : CString
  count : ℤ
  deriving DecidableEq

/-- `result_get_auth` -/
def resultGetAuth (res : Option (List Row)) : Option AuthData :=
  match res with
  | some (row :: _) => some ⟨row 0, row 1, row 2, row 3, atoi (row 4)⟩
  | _ => none

/-- `db_get_auth` -/
def dbGetAuth (nick : Option CString) (authdata : Option AuthData) (insertid : ℤ)
    (answers : List (Answer Row)) : Option (Option AuthData) :=
  if nick = none then some none else lookup resultGetAuth authdata insertid answers

/-! ## What the lookups return -/

/-- The value for the rows of the query, and the absent one where it gave no result set or
was not asked for. -/
def expected {α : Type} (asked : Bool) (callback : Option (List Row) → α) (absent : α) :
    Answer Row → α
  | .result (some rows) _ => if asked then callback (some rows) else absent
  | _ => absent

variable {α : Type} {callback : Option (List Row) → α} {absent : α} {insertid : ℤ}
  {answers : List (Answer Row)} {own : Answer Row} {f : Fetched Row}

/-- A callback that makes the absent value of no result set. -/
theorem lookup_iff (h : attempts insertid answers = some (own, f)) (hnone : callback none = absent)
    {other : α} (hother : other ≠ absent) :
    (∀ out, lookup callback out insertid answers = some (expected true callback absent own)) ↔
      f.Answered := by
  obtain ⟨rfl, -⟩ := attempts_eq h
  have hlookup : ∀ out, lookup callback out insertid answers =
      some (if (Thread.dbQuery insertid own).Answered
        then callback (Thread.dbQuery insertid own).res else out) := by
    intro out
    rw [lookup, h, Option.map_some]
  simp only [hlookup, Option.some.injEq]
  constructor
  · intro hall
    by_contra hn
    -- nothing was written
    have hres : (Thread.dbQuery insertid own).res = none := by
      by_contra hres
      exact hn (.inl (Option.isSome_iff_ne_none.mpr hres))
    have hout := hall other
    rw [if_neg hn] at hout
    cases own with
    | overflow | error => exact hother hout
    | result res id =>
        cases res with
        | none => exact hother hout
        | some rows => cases hres
  · intro hf out
    rw [if_pos hf]
    cases own with
    | overflow | error => exact hnone
    | result res id =>
        cases res with
        | none => exact hnone
        | some rows => rfl

/-- A callback that makes something else of no result set. -/
theorem lookup_iff_of_ne (h : attempts insertid answers = some (own, f))
    (hnone : callback none ≠ absent) {other : α} (hother : other ≠ absent) :
    (∀ out, lookup callback out insertid answers = some (expected true callback absent own)) ↔
      f.res.isSome := by
  obtain ⟨rfl, -⟩ := attempts_eq h
  have hlookup : ∀ out, lookup callback out insertid answers =
      some (if (Thread.dbQuery insertid own).Answered
        then callback (Thread.dbQuery insertid own).res else out) := by
    intro out
    rw [lookup, h, Option.map_some]
  simp only [hlookup, Option.some.injEq]
  constructor
  · intro hall
    rcases hres : (Thread.dbQuery insertid own).res with _ | rows
    · have hout := hall other
      rw [hres] at hout
      have habsent : expected true callback absent own = absent := by
        cases own with
        | overflow | error => rfl
        | result res id =>
            cases res with
            | none => rfl
            | some rows => cases hres
      rw [habsent] at hout
      split at hout
      · exact absurd hout hnone
      · exact absurd hout hother
    · rfl
  · intro hres out
    rw [if_pos (.inl hres)]
    cases own with
    | overflow | error => cases hres
    | result res id =>
        cases res with
        | none => cases hres
        | some rows => rfl

/-- `db_get_setting` has the absent value in its variable from the start. -/
theorem dbGetSetting_eq (h : attempts insertid answers = some (own, f)) (name : Option CString) :
    dbGetSetting name insertid answers =
      some (expected name.isSome resultGetSetting none own) := by
  obtain ⟨rfl, -⟩ := attempts_eq h
  cases name with
  | none =>
      cases own with
      | overflow | error => rfl
      | result res id => cases res <;> rfl
  | some name =>
      rw [dbGetSetting, if_neg (Option.some_ne_none name), lookup, h, Option.map_some]
      cases own with
      | overflow | error => exact congrArg some (ite_self _)
      | result res id =>
          cases res with
          | none => exact congrArg some (ite_self _)
          | some rows => rfl

/-- What is not asked for is absent. -/
theorem expected_of_not_asked (callback : Option (List Row) → α) (absent : α) (own : Answer Row) :
    expected false callback absent own = absent := by
  cases own with
  | overflow | error => rfl
  | result res id => cases res <;> rfl

theorem dbGetAuth_iff (h : attempts insertid answers = some (own, f)) (nick : Option CString) :
    (∀ authdata, dbGetAuth nick authdata insertid answers =
      some (expected nick.isSome resultGetAuth none own)) ↔ (nick ≠ none → f.Answered) := by
  cases nick with
  | none =>
      rw [Option.isSome_none, expected_of_not_asked]
      exact ⟨fun _ hn ↦ absurd rfl hn, fun _ _ ↦ rfl⟩
  | some nick =>
      have hne : some nick ≠ none := Option.some_ne_none nick
      have hnone : resultGetAuth none = none := rfl
      have hiff := lookup_iff h hnone (Option.some_ne_none (⟨[], [], [], [], 0⟩ : AuthData))
      simp only [dbGetAuth, if_neg hne]
      exact hiff.trans ⟨fun hf _ ↦ hf, fun hf ↦ hf hne⟩

theorem dbCheckNickNotify_iff (h : attempts insertid answers = some (own, f))
    (channel nick : Option CString) (hours : ℤ) :
    (∀ retval, dbCheckNickNotify channel nick hours retval insertid answers =
      some (expected (channel.isSome && nick.isSome && decide (0 ≤ hours)) resultCheckNickNotify
        false own)) ↔
      (channel ≠ none → nick ≠ none → 0 ≤ hours → f.Answered) := by
  by_cases hasked : channel ≠ none ∧ nick ≠ none ∧ 0 ≤ hours
  · obtain ⟨hchannel, hnick, hhours⟩ := hasked
    have hguard : ¬ (channel = none ∨ nick = none ∨ hours < 0) := by
      rintro (h | h | h)
      · exact hchannel h
      · exact hnick h
      · omega
    have hnone : resultCheckNickNotify none = false := rfl
    have hiff := lookup_iff h hnone (show true ≠ false from Bool.noConfusion)
    have htrue : (channel.isSome && nick.isSome && decide (0 ≤ hours)) = true := by
      rw [Option.isSome_iff_ne_none.mpr hchannel, Option.isSome_iff_ne_none.mpr hnick,
        decide_eq_true hhours]
      rfl
    simp only [dbCheckNickNotify, if_neg hguard, htrue]
    exact hiff.trans ⟨fun hf _ _ _ ↦ hf, fun hf ↦ hf hchannel hnick hhours⟩
  · have hguard : channel = none ∨ nick = none ∨ hours < 0 := by
      by_contra hn
      rw [not_or, not_or] at hn
      exact hasked ⟨hn.1, hn.2.1, by omega⟩
    have hfalse : (channel.isSome && nick.isSome && decide (0 ≤ hours)) = false := by
      rw [Bool.eq_false_iff]
      intro ht
      simp only [Bool.and_eq_true, decide_eq_true_eq, Option.isSome_iff_ne_none] at ht
      exact hasked ⟨ht.1.1, ht.1.2, ht.2⟩
    rw [hfalse, expected_of_not_asked]
    refine ⟨fun _ hchannel hnick hhours ↦ absurd ⟨hchannel, hnick, hhours⟩ hasked, fun _ _ ↦ ?_⟩
    rw [dbCheckNickNotify, if_pos hguard]

theorem dbGetSeen_iff (h : attempts insertid answers = some (own, f))
    (channel nick : Option CString) (privmsg : Bool) :
    (∀ result, dbGetSeen channel nick privmsg result insertid answers =
      some (expected (channel.isSome && nick.isSome)
        (resultGetSeen (channel.getD []) (nick.getD []) privmsg) none own)) ↔
      (channel ≠ none → nick ≠ none → f.res.isSome) := by
  cases channel with
  | none =>
      rw [Option.isSome_none, Bool.false_and, expected_of_not_asked]
      exact ⟨fun _ hn ↦ absurd rfl hn, fun _ _ ↦ rfl⟩
  | some channel =>
      cases nick with
      | none =>
          rw [Option.isSome_none, Bool.and_false, expected_of_not_asked]
          exact ⟨fun _ _ hn ↦ absurd rfl hn, fun _ _ ↦ rfl⟩
      | some nick =>
          have hsome : resultGetSeen channel nick privmsg none ≠ none := Option.some_ne_none _
          have hiff := lookup_iff_of_ne h hsome (Option.some_ne_none ([] : CString))
          exact hiff.trans ⟨fun hf _ _ ↦ hf,
            fun hf ↦ hf (Option.some_ne_none _) (Option.some_ne_none _)⟩

/-- `db_get_setting` returns what its query came to; the others do so, whatever their
variable has in it, if and only if they do not ask, or their callback is called and, for
`db_get_seen`, there is a result set. -/
theorem lookups_iff (h : attempts insertid answers = some (own, f)) :
    (∀ name, dbGetSetting name insertid answers =
      some (expected name.isSome resultGetSetting none own)) ∧
    (∀ nick, (∀ authdata, dbGetAuth nick authdata insertid answers =
      some (expected nick.isSome resultGetAuth none own)) ↔ (nick ≠ none → f.Answered)) ∧
    (∀ channel nick hours,
      (∀ retval, dbCheckNickNotify channel nick hours retval insertid answers =
        some (expected (channel.isSome && nick.isSome && decide (0 ≤ hours))
          resultCheckNickNotify false own)) ↔
        (channel ≠ none → nick ≠ none → 0 ≤ hours → f.Answered)) ∧
    ∀ channel nick privmsg, (∀ result, dbGetSeen channel nick privmsg result insertid answers =
        some (expected (channel.isSome && nick.isSome)
          (resultGetSeen (channel.getD []) (nick.getD []) privmsg) none own)) ↔
      (channel ≠ none → nick ≠ none → f.res.isSome) :=
  ⟨dbGetSetting_eq h, dbGetAuth_iff h, dbCheckNickNotify_iff h, dbGetSeen_iff h⟩

/-- A row of `userauth`. -/
def storedRow : Row
  | 0 => "nick".toList
  | 4 => "90".toList
  | _ => []

theorem lookups_iff_found :
    dbGetAuth (some "nick".toList) none 0 [.error true, .result (some [storedRow]) 0] =
      some (some ⟨"nick".toList, [], [], [], 90⟩) := by
  have hquery : attempts 0 [.error true, .result (some [storedRow]) 0] =
      some (.result (some [storedRow]) 0, ⟨some [storedRow], true, 0⟩) := rfl
  exact ((lookups_iff hquery).2.1 (some "nick".toList)).mpr (fun _ ↦ .inl rfl) none

/-- The query for the row of a user fails, and what was in the variable is returned. -/
theorem not_lookups : ∃ out : Option AuthData,
    dbGetAuth (some "nick".toList) out 0 [.error false] ≠
      some (expected true resultGetAuth none (.error false)) :=
  ⟨some ⟨[], [], [], [], 0⟩, by decide⟩

end Beirdobot.Mysql.Lookups
