import Beirdobot.Auth.StateMachine
import Beirdobot.Library.System
import Mathlib.Tactic.Simps.Basic

/-!
# Authentication with its threads

The IRC thread of each server handles one message at a time, `authenticate_thread`
sweeps `AuthList`, and the query thread executes what `db_get_auth` and
`db_set_auth` queue.  The list is locked for a lookup, for adding a record and for
a whole sweep, nothing else is: a record is written while the query thread reads
it and while the sweep removes it.  `AuthList` is the list of its records in order;
writing to a record that was freed changes it as long as nothing else has taken the
address.  Only private messages come here.
-/

namespace Beirdobot.Auth

open Library

variable {ι σ κ : Type}

/-! ## Verifying a response -/

/-- What `__opieparsechallenge` finds.  Where it fails it may have written the sequence
number already. -/
inductive Challenge
  | failed (sequence : Option ℤ)
  | parsed (sequence : ℤ) (algorithm : ℕ) (seed : CString) (exts : Bool)
deriving DecidableEq, Repr

/-- What is used of libopie, on keys `κ`: `opieetob` and `opieatob8` where they
succeed, `opiebtoa8`, `opiehash` and `__opieparsechallenge`. -/
structure Opie (κ : Type) where
  etob : CString → Option κ
  atob8 : CString → Option κ
  btoa8 : κ → CString
  hash : κ → ℕ → κ
  parseChallenge : CString → Challenge

/-- `algids`, from its first name on. -/
def algids : List (CString × ℕ) :=
  [(['s', 'h', 'a', '1'], 3), (['m', 'd', '4'], 4), (['m', 'd', '5'], 5)]

/-- The loop that looks for the algorithm. -/
def algorithmOf (digest : CString) : Option ℕ :=
  (algids.find? fun alg ↦ sameIgnoringCase alg.1 digest).map (·.2)

/-- The `RESPONSE_` types. -/
inductive ResponseType
  | standard
  | word
  | hex
  | initHex
  | initWord
  | unknown
deriving DecidableEq, Repr

/-- `rtrans` -/
def rtrans : List (ResponseType × CString) :=
  [(.word, ['w', 'o', 'r', 'd']), (.hex, ['h', 'e', 'x']),
    (.initHex, ['i', 'n', 'i', 't', '-', 'h', 'e', 'x']),
    (.initWord, ['i', 'n', 'i', 't', '-', 'w', 'o', 'r', 'd']), (.standard, [])]

/-- `strchr( s, ':' )` with the NUL that is put there: the text before the colon, and
the text after it if there is one. -/
def splitColon (s : CString) : CString × Option CString :=
  (s.takeWhile (· != ':'), (s.dropWhile (· != ':')).tail?)

/-- The type of a response by what stands before its colon. -/
def responseType (name : CString) : ResponseType :=
  match rtrans.find? fun r ↦ r.2 == name with
  | some r => r.1
  | none => .unknown

/-- What becomes of a response before `changed` is asked: it fails, or it answers the
challenge with a key, and for an init response what follows is parsed later. -/
inductive Verdict (κ : Type)
  | rejected
  | password (key : κ)
  | renewal (key : κ) (hex : Bool) (rest : CString)

/-- Whether the key hashes to the last one. -/
def Opie.answers [DecidableEq κ] (o : Opie κ) (alg : ℕ) (lastkey key : κ) : Bool :=
  decide (o.hash key alg = lastkey)

/-- The key of a text, as six words or in hexadecimal. -/
def Opie.decode (o : Opie κ) (hex : Bool) (text : CString) : Option κ :=
  if hex then o.atob8 text else o.etob text

/-- The two attempts at a response without a type. -/
def Opie.standardKey [DecidableEq κ] (o : Opie κ) (alg : ℕ) (lastkey : κ) (text : CString) :
    Option κ :=
  ((o.etob text).filter (o.answers alg lastkey)).or
    ((o.atob8 text).filter (o.answers alg lastkey))

/-- The verdict on a key. -/
def Verdict.ofKey : Option κ → Verdict κ
  | none => .rejected
  | some key => .password key

/-- The start of an init response: a key, a colon, and the new challenge. -/
def Opie.renewal [DecidableEq κ] (o : Opie κ) (alg : ℕ) (lastkey : κ) (hex : Bool)
    (text : CString) : Verdict κ :=
  match splitColon text with
  | (_, none) => .rejected
  | (c, some rest) =>
      match (o.decode hex c).filter (o.answers alg lastkey) with
      | none => .rejected
      | some key => .renewal key hex rest

/-- `auth_user_verify` up to its call of `changed`, with the algorithm. -/
def verdict [DecidableEq κ] (o : Opie κ) (otp : Otp) (response : Option CString) :
    ℕ × Verdict κ :=
  match response, algorithmOf otp.digest, o.atob8 otp.hash with
  | some response, some alg, some lastkey =>
      (alg, match splitColon response with
        | (text, none) => .ofKey (o.standardKey alg lastkey text)
        | (name, some c) =>
            match responseType name with
            | .standard => .ofKey (o.standardKey alg lastkey name)
            | .word => .ofKey ((o.etob c).filter (o.answers alg lastkey))
            | .hex => .ofKey ((o.atob8 c).filter (o.answers alg lastkey))
            | .initHex => o.renewal alg lastkey true c
            | .initWord => o.renewal alg lastkey false c
            | .unknown => .rejected)
  | _, _, _ => (0, .rejected)

/-! ## The threads -/

/-- A message, and the time when it is handled. -/
structure Job where
  nick : CString
  msg : Option CString
  now : ℕ
deriving DecidableEq, Repr

/-- A response that answers the challenge of a record: the algorithm, the key that
answers it, and the columns that it was compared with. -/
structure Response (ι κ : Type) where
  job : Job
  auth : ι
  alg : ℕ
  key : κ
  old : Otp

/-- Whether more of an init response is to be parsed. -/
inductive Mode
  | last
  | renewal (hex : Bool) (rest : CString)
deriving DecidableEq, Repr

/-- Where an IRC thread is in `authenticate_state_machine` and `auth_user_verify`:
past the lookup, in `db_get_auth` for a challenge, past it, in the `db_get_auth` of
`changed`, past it, before each of its writes, past the verification, and past the
write of the state.  `hashing` has the key that it writes. -/
inductive Stage (ι κ : Type)
  | idle
  | found (job : Job) (auth : ι)
  | asking (job : Job)
  | asked (job : Job) (auth : Option ι)
  | checking (r : Response ι κ) (mode : Mode)
  | checked (r : Response ι κ) (mode : Mode) (newAuth : Option ι)
  | counting (r : Response ι κ) (mode : Mode)
  | hashing (r : Response ι κ) (mode : Mode) (key : κ)
  | storing (r : Response ι κ) (mode : Mode)
  | renewing (r : Response ι κ) (hex : Bool) (rest : CString)
  | reseeding (r : Response ι κ) (hex : Bool) (rest : CString) (seed : CString)
  | verified (job : Job) (auth : ι) (ok : Bool)
  | replying (job : Job) (auth : ι) (ok : Bool)

/-- A call of `db_set_auth`: the response whose verification makes it, and what the
record held. -/
structure Call (ι κ : Type) where
  response : Response ι κ
  otp : Otp

/-- The queries on `userauth`, with the server whose thread waits for the result, or
with the call of `db_set_auth` that they come from. -/
inductive Query (ι σ κ : Type)
  | get (server : σ) (nick : CString)
  | set (nick : CString) (auth : ι) (call : Call ι κ)
  | update (nick : CString) (otp : Otp) (call : Call ι κ)
  | insert (nick : CString) (otp : Otp) (call : Call ι κ)

/-- A pass of the sweep that holds the lock: its time, the records it has not left
behind, and whether the first of them was looked at for its time. -/
structure Sweep (ι : Type) where
  now : ℕ
  rest : List ι
  marked : Bool

/-- What a call of `db_set_auth` has stored in the end. -/
structure Stored (ι κ : Type) where
  nick : CString
  otp : Otp
  call : Call ι κ

/-- `accepted` has the nick and the key of each response for which `auth_user_verify`
returned true. -/
structure Threads (ι σ κ : Type) where
  list : List ι
  mem : ι → AuthData σ
  live : ι → Bool
  sweep : Option (Sweep ι)
  stage : σ → Stage ι κ
  queue : List (Query ι σ κ)
  userauth : CString → Option (CString × Otp)
  stored : List (Stored ι κ)
  accepted : List (CString × κ)

namespace Threads

variable [DecidableEq ι] [DecidableEq σ]

/-- Write a record. -/
@[simps]
def write (s : Threads ι σ κ) (x : ι) (f : AuthData σ → AuthData σ) : Threads ι σ κ :=
  { s with mem := Function.update s.mem x (f (s.mem x)) }

/-- Write the columns of a record. -/
@[simps!]
def writeOtp (s : Threads ι σ κ) (x : ι) (f : Otp → Otp) : Threads ι σ κ :=
  s.write x fun auth ↦ { auth with otp := f auth.otp }

/-- The thread of a server goes on. -/
@[simps]
def goto (s : Threads ι σ κ) (server : σ) (stage : Stage ι κ) : Threads ι σ κ :=
  { s with stage := Function.update s.stage server stage }

/-- `db_queue_query` -/
@[simps]
def enqueue (s : Threads ι σ κ) (query : Query ι σ κ) : Threads ι σ κ :=
  { s with queue := s.queue ++ [query] }

/-- `db_free_auth` -/
@[simps]
def free (s : Threads ι σ κ) (x : ι) : Threads ι σ κ :=
  { s with live := Function.update s.live x false }

/-- The loop that looks for the record of a nick on a server. -/
def lookup (s : Threads ι σ κ) (server : σ) (nick : CString) : Option ι :=
  s.list.find? fun x ↦ (s.mem x).belongsTo server nick

/-- `authenticate_check` -/
def check (s : Threads ι σ κ) (server : σ) (nick : CString) : Bool :=
  match s.lookup server nick with
  | none => false
  | some x => (s.mem x).state == .accepted

end Threads

/-- What is outside: libopie, and how MySQL compares user names. -/
structure Outside (κ : Type) where
  opie : Opie κ
  collate : CString → CString

section Steps

variable [DecidableEq ι] [DecidableEq σ] [DecidableEq κ] (out : Outside κ)

/-- The `switch` of `authenticate_state_machine`, with the part of `auth_user_verify`
before `changed`. -/
def dispatch (s : Threads ι σ κ) (server : σ) (job : Job) (x : ι) : Option (Threads ι σ κ) :=
  match (s.mem x).state with
  | .challenge =>
      match verdict out.opie (s.mem x).otp job.msg with
      | (_, .rejected) => some (s.goto server (.verified job x false))
      | (alg, .password key) =>
          some ((s.enqueue (.get server job.nick)).goto server
            (.checking ⟨job, x, alg, key, (s.mem x).otp⟩ .last))
      | (alg, .renewal key hex rest) =>
          some ((s.enqueue (.get server job.nick)).goto server
            (.checking ⟨job, x, alg, key, (s.mem x).otp⟩ (.renewal hex rest)))
  | .accepted => do
      let msg ← job.msg
      let s :=
        if isLogoff msg then
          s.write x fun auth ↦ { auth with
            state := .disconnect
            wakeTime := u32 (job.now + 5) }
        else s
      some (s.goto server .idle)
  | _ => some (s.goto server .idle)

/-- The end of `changed`: whether the record of the table is the one of the list. -/
def unchanged (new old : Otp) : Bool :=
  new.count == old.count && new.hash == old.hash && new.seed == old.seed

/-- The next step of a thread; `none` while it waits for the lock or the query. -/
def threadStep (s : Threads ι σ κ) (server : σ) : Option (Threads ι σ κ) :=
  match s.stage server with
  | .idle | .asking _ | .checking _ _ => none
  | .found job x => dispatch out s server job x
  | .asked _ none => some (s.goto server .idle)
  | .asked job (some x) =>
      if s.sweep.isSome then none
      else
        let s := s.write x fun auth ↦ { auth with
          server
          state := .challenge
          wakeTime := u32 (job.now + 30) }
        some ({ s with list := x :: s.list }.goto server .idle)
  | .checked r _ none => some (s.goto server (.verified r.job r.auth false))
  | .checked r mode (some new) =>
      if unchanged (s.mem new).otp (s.mem r.auth).otp then
        some ((s.free new).goto server (.counting r mode))
      else some (s.goto server (.verified r.job r.auth false))
  | .counting r mode =>
      some ((s.writeOtp r.auth fun otp ↦ { otp with count := otp.count - 1 }).goto server
        (.hashing r mode r.key))
  | .hashing r mode key =>
      some ((s.writeOtp r.auth fun otp ↦ { otp with hash := out.opie.btoa8 key }).goto server
        (.storing r mode))
  | .storing r mode =>
      let s := s.enqueue (.set r.job.nick r.auth ⟨r, (s.mem r.auth).otp⟩)
      match mode with
      | .last =>
          some ({ s with accepted := s.accepted ++ [(r.job.nick, r.key)] }.goto server
            (.verified r.job r.auth true))
      | .renewal hex rest => some (s.goto server (.renewing r hex rest))
  | .renewing r hex rest =>
      match splitColon rest with
      | (_, none) => some (s.goto server (.verified r.job r.auth false))
      | (c, some c2) =>
          match out.opie.parseChallenge c with
          | .failed sequence =>
              let s := s.writeOtp r.auth fun otp ↦
                { otp with count := sequence.getD otp.count }
              some (s.goto server (.verified r.job r.auth false))
          | .parsed count alg seed exts =>
              let s := s.writeOtp r.auth fun otp ↦ { otp with count }
              if alg != r.alg || exts then
                some (s.goto server (.verified r.job r.auth false))
              else some (s.goto server (.reseeding r hex c2 seed))
  | .reseeding r hex c2 seed =>
      let s := s.writeOtp r.auth fun otp ↦ { otp with seed }
      match out.opie.decode hex c2 with
      | none => some (s.goto server (.verified r.job r.auth false))
      | some key => some (s.goto server (.hashing r .last key))
  | .verified job x ok =>
      let s := s.write x fun auth ↦
        if ok then { auth with state := .accepted, wakeTime := u32 (job.now + 30 * 60) }
        else { auth with state := .rejected, wakeTime := u32 job.now }
      some (s.goto server (.replying job x ok))
  | .replying _ _ _ => some (s.goto server .idle)

/-- `result_get_auth`: the waiting thread gets a record at the address that `malloc`
gives, or none. -/
def resultGetAuth (s : Threads ι σ κ) (server : σ) (nick : CString) (malloc : ι) :
    Option (Threads ι σ κ) :=
  let answer (s : Threads ι σ κ) (auth : Option ι) : Option (Threads ι σ κ) :=
    match s.stage server with
    | .asking job => some (s.goto server (.asked job auth))
    | .checking r mode => some (s.goto server (.checked r mode auth))
    | _ => none
  match s.userauth (out.collate nick) with
  | none => answer s none
  | some (username, otp) =>
      if s.live malloc then none
      else
        let s := { s with
          mem := Function.update s.mem malloc
            { server, nick := username, otp, state := .none, wakeTime := 0 }
          live := Function.update s.live malloc true }
        answer s (some malloc)

/-- The query thread executes the next query. -/
def execute (s : Threads ι σ κ) (malloc : ι) : Option (Threads ι σ κ) :=
  match s.queue with
  | [] => none
  | query :: queue =>
      let s := { s with queue }
      match query with
      | .get server nick => resultGetAuth out s server nick malloc
      | .set nick x call =>
          -- `chain_set_auth` copies what the record holds now
          match s.userauth (out.collate nick) with
          | some _ => some (s.enqueue (.update nick (s.mem x).otp call))
          | none => some (s.enqueue (.insert nick (s.mem x).otp call))
      | .update nick otp call =>
          some { s with
            userauth := Function.update s.userauth (out.collate nick)
              ((s.userauth (out.collate nick)).map fun row ↦ (row.1, otp))
            stored := s.stored ++ [⟨nick, otp, call⟩] }
      | .insert nick otp call =>
          some { s with
            userauth := Function.update s.userauth (out.collate nick)
              (some ((s.userauth (out.collate nick)).getD (nick, otp)))
            stored := s.stored ++ [⟨nick, otp, call⟩] }

/-- A private message reaches the thread of a server that waits for one: the locked
lookup. -/
def message (s : Threads ι σ κ) (server : σ) (job : Job) : Option (Threads ι σ κ) :=
  match s.stage server, s.sweep with
  | .idle, none =>
      match s.lookup server job.nick with
      | some x => some (s.goto server (.found job x))
      | none => some ((s.enqueue (.get server job.nick)).goto server (.asking job))
  | _, _ => none

/-- A pass of the sweep begins. -/
def sweepBegin (s : Threads ι σ κ) (now : ℕ) : Option (Threads ι σ κ) :=
  match s.sweep with
  | none => some { s with sweep := some ⟨now, s.list, false⟩ }
  | some _ => none

/-- The sweep looks at the time of a record. -/
def sweepMark (s : Threads ι σ κ) : Option (Threads ι σ κ) :=
  match s.sweep with
  | some ⟨now, x :: rest, false⟩ =>
      let s := s.write x fun auth ↦
        if auth.wakeTime ≠ 0 ∧ auth.wakeTime ≤ now ∧ auth.state ≠ .rejected then
          { auth with state := .timedout }
        else auth
      some { s with sweep := some ⟨now, x :: rest, true⟩ }
  | _ => none

/-- The sweep looks at the state of a record, and removes it if it has ended. -/
def sweepReap (s : Threads ι σ κ) : Option (Threads ι σ κ) :=
  match s.sweep with
  | some ⟨now, x :: rest, true⟩ =>
      let s :=
        if (s.mem x).state = .rejected ∨ (s.mem x).state = .timedout ∨
            (s.mem x).state = .disconnect then
          { s with list := s.list.erase x }.free x
        else s
      some { s with sweep := some ⟨now, rest, false⟩ }
  | _ => none

/-- A pass of the sweep ends. -/
def sweepEnd (s : Threads ι σ κ) : Option (Threads ι σ κ) :=
  match s.sweep with
  | some ⟨_, [], _⟩ => some { s with sweep := none }
  | _ => none

/-- A step: a message arrives, the thread of a server goes on, the query thread
executes a query with an address for `malloc`, or the sweep goes on. -/
inductive Step (ι σ : Type)
  | message (server : σ) (job : Job)
  | thread (server : σ)
  | execute (malloc : ι)
  | sweepBegin (now : ℕ)
  | sweepMark
  | sweepReap
  | sweepEnd

/-- All interleavings, from an empty list and a table in which each row is found by its user
name. -/
def threads (ι σ κ : Type) [DecidableEq ι] [DecidableEq σ] [DecidableEq κ] (out : Outside κ) :
    System (Threads ι σ κ) (Step ι σ) where
  init s := s.list = [] ∧ s.sweep = none ∧ (∀ server, s.stage server = .idle) ∧ s.queue = [] ∧
    s.stored = [] ∧ s.accepted = [] ∧
    ∀ user row, s.userauth user = some row → out.collate row.1 = user
  step s
    | .message server job => message s server job
    | .thread server => threadStep out s server
    | .execute malloc => execute out s malloc
    | .sweepBegin now => sweepBegin s now
    | .sweepMark => sweepMark s
    | .sweepReap => sweepReap s
    | .sweepEnd => sweepEnd s

end Steps

end Beirdobot.Auth
