import Beirdobot.Libc
import Beirdobot.LinkedList.Model

/-!
# The authentication state machine

A transcription of the part of `authenticate.c` that keeps `AuthList`.  What
`db_get_auth` and `auth_user_verify` answer is an argument here.  Records are
addresses `ι`, servers are compared as the pointers `σ`; a function returns `none`
where the C code does not come back.
-/

namespace Beirdobot.Auth

open Linked

/-- `AuthState_t` -/
inductive AuthState where
  | none
  | challenge
  | accepted
  | rejected
  | timedout
  | disconnect
deriving DecidableEq, Repr

/-- The columns of `userauth` that a record holds. -/
structure Otp where
  digest : CString
  seed : CString
  count : ℤ
  hash : CString
deriving DecidableEq, Repr

/-- `AuthData_t` -/
structure AuthData (σ : Type) where
  server : σ
  nick : CString
  otp : Otp
  state : AuthState
  wakeTime : ℕ

/-- `AuthList`, the records in memory, which of them are allocated, and the
private messages given to `transmitMsg`. -/
structure Sessions (ι σ : Type) where
  list : LinkedList ι
  auth : ι → AuthData σ
  live : ι → Bool
  outbox : List (σ × CString × CString)

variable {ι σ : Type}

/-- `transmitMsg( server, TX_PRIVMSG, nick, text )` -/
def Sessions.transmit (s : Sessions ι σ) (server : σ) (nick text : CString) : Sessions ι σ :=
  { s with outbox := s.outbox ++ [(server, nick, text)] }

/-- Write a record. -/
def Sessions.setAuth [DecidableEq ι] (s : Sessions ι σ) (item : ι) (auth : AuthData σ) :
    Sessions ι σ :=
  { s with auth := Function.update s.auth item auth }

/-- The condition of the loops that look for the record of a nick on a server. -/
def AuthData.belongsTo [DecidableEq σ] (auth : AuthData σ) (server : σ) (nick : CString) : Bool :=
  decide (auth.server = server) && sameIgnoringCase nick auth.nick

/-- The loop over `AuthList` of `authenticate_check` and
`authenticate_state_machine`. -/
def lookupLoop [DecidableEq σ] (s : Sessions ι σ) (server : σ) (nick : CString) :
    ℕ → Option ι → Option (Option ι)
  | _, none => some none
  | 0, some _ => none
  | fuel + 1, some item =>
      if (s.auth item).belongsTo server nick then some (some item)
      else lookupLoop s server nick fuel (s.list.next item)

/-- The loop and the locking around it. -/
def lookup [DecidableEq σ] (fuel : ℕ) (s : Sessions ι σ) (server : σ) (nick : CString) :
    Option (Option ι) := do
  let list ← linkedListLock s.list
  -- unlocking leaves the list as it was
  lookupLoop { s with list } server nick fuel list.head

/-- `authenticate_check` -/
def authenticateCheck [DecidableEq σ] (fuel : ℕ) (s : Sessions ι σ) (server : σ)
    (nick : CString) : Option Bool := do
  match ← lookup fuel s server nick with
  | none => some false
  | some item => some ((s.auth item).state == .accepted)

/-- The text that `auth_user_challenge` builds from a record. -/
def challengeText (otp : Otp) : CString :=
  "otp-".toList ++ otp.digest ++ " ".toList ++ (toString (otp.count - 1)).toList ++ " ".toList ++
    otp.seed ++ " ext".toList

/-- What the state machine is told from outside while it handles one message: the
time, the record `db_get_auth` allocated for the nick, if there is one, the text
of `opierandomchallenge`, and the value of `auth_user_verify` with what it leaves
in the record. -/
structure Answers (ι : Type) where
  now : ℕ
  row : Option (ι × CString × Otp)
  random : CString
  verified : Bool
  otp : Otp

/-- The branch of `authenticate_state_machine` for a nick without a record. -/
def sendChallenge [DecidableEq ι] (s : Sessions ι σ) (server : σ) (nick : CString)
    (answers : Answers ι) : Option (Sessions ι σ) :=
  match answers.row with
  | none => some (s.transmit server nick answers.random)
  | some (item, rowNick, otp) => do
      let auth : AuthData σ :=
        { server, nick := rowNick, otp, state := .challenge, wakeTime := u32 (answers.now + 30) }
      let s := { s.setAuth item auth with live := Function.update s.live item true }
      let list ← linkedListAdd s.list (some item) .unlocked .atHead
      some ({ s with list }.transmit server nick (challengeText otp))

/-- The `AUTH_CHALLENGE` branch: the message is a response. -/
def takeResponse [DecidableEq ι] (s : Sessions ι σ) (server : σ) (nick : CString) (item : ι)
    (answers : Answers ι) : Sessions ι σ :=
  let auth := { s.auth item with otp := answers.otp }
  if answers.verified then
    (s.setAuth item { auth with
      state := .accepted
      wakeTime := u32 (answers.now + 30 * 60) }).transmit server nick
      "Authentication accepted for 30min".toList
  else
    (s.setAuth item { auth with
      state := .rejected
      wakeTime := u32 answers.now }).transmit server nick "Authentication rejected".toList

/-- Whether a message asks to log off. -/
def isLogoff (msg : CString) : Bool := sameIgnoringCase msg "logoff".toList

/-- The `AUTH_ACCEPTED` branch; a message without text is a null pointer. -/
def takeLogoff [DecidableEq ι] (s : Sessions ι σ) (server : σ) (nick : CString) (item : ι)
    (msg : Option CString) (answers : Answers ι) : Option (Sessions ι σ) :=
  match msg with
  | none => none
  | some msg =>
      some <|
        if isLogoff msg then
          (s.setAuth item { s.auth item with
            state := .disconnect
            wakeTime := u32 (answers.now + 5) }).transmit server nick "Logged off".toList
        else s

/-- `authenticate_state_machine` -/
def authenticateStateMachine [DecidableEq ι] [DecidableEq σ] (fuel : ℕ) (s : Sessions ι σ)
    (server : σ) (channel : Bool) (nick : CString) (msg : Option CString)
    (answers : Answers ι) : Option (Sessions ι σ) :=
  if channel then some s
  else do
    match ← lookup fuel s server nick with
    | none => sendChallenge s server nick answers
    | some item =>
        match (s.auth item).state with
        | .challenge => some (takeResponse s server nick item answers)
        | .accepted => takeLogoff s server nick item msg answers
        | _ => some s

/-- `item = (prev == NULL ? AuthList->head : item->next)` -/
def advance (l : LinkedList ι) (prev item : Option ι) : Option ι :=
  match prev with
  | none => l.head
  | some _ => item.bind l.next

/-- The first `if` in the loop of `authenticate_thread`. -/
def timeOut [DecidableEq ι] (now : ℕ) (s : Sessions ι σ) (item : ι) : Sessions ι σ :=
  let auth := s.auth item
  if auth.wakeTime ≠ 0 ∧ auth.wakeTime ≤ now ∧ auth.state ≠ .rejected then
    (s.setAuth item { auth with state := .timedout }).transmit auth.server auth.nick
      "Authentication timed out".toList
  else s

/-- The loop over `AuthList` of `authenticate_thread`. -/
def sweepLoop [DecidableEq ι] (now : ℕ) : ℕ → Sessions ι σ → Option ι → Option ι →
    Option (Sessions ι σ)
  | _, s, _, none => some s
  | 0, _, _, some _ => none
  | fuel + 1, s, _, some item => do
      let s := timeOut now s item
      if (s.auth item).state = .rejected ∨ (s.auth item).state = .timedout ∨
        (s.auth item).state = .disconnect
      then do
        let prev := s.list.prev item
        let list ← linkedListRemove s.list (some item) .locked
        -- `db_free_auth`
        let s := { s with list, live := Function.update s.live item false }
        let item := prev
        sweepLoop now fuel s prev (advance s.list prev item)
      else
        -- `prev = item`
        sweepLoop now fuel s (some item) (advance s.list (some item) (some item))

/-- One pass of `authenticate_thread`. -/
def authenticateSweep [DecidableEq ι] (fuel now : ℕ) (s : Sessions ι σ) :
    Option (Sessions ι σ) := do
  let list ← linkedListLock s.list
  let s ← sweepLoop now fuel { s with list } none list.head
  some { s with list := linkedListUnlock s.list }

end Beirdobot.Auth
