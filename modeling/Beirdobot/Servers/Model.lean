import Beirdobot.Mysql.Query

/-!
# Servers and their threads

A transcription of what `bot.c`, `main.c` and `mysql.c` do to `ServerTree`: loading
it from the database, starting and killing servers, and the form of a server.
The tree is the list of its records in the order of their keys; the records are in
memory at addresses `ι`, and writing to one that was freed changes it as long as
nothing else has taken the address.  Menus and the contents of channels are left
out.  A function returns `none` where the C code follows a null pointer or waits
for a thread that was not told to end.
-/

namespace Beirdobot.Servers

open Mysql (decimal)

/-- The columns of `servers` but the key and `enabled`, and the fields of
`IRCServer_t` that hold them. -/
structure Settings where
  server : CString
  port : ℤ
  password : CString
  nick : CString
  username : CString
  realname : CString
  nickserv : CString
  nickservmsg : CString
  floodInterval : ℤ
  floodMaxTime : ℤ
  floodBuffer : ℤ
  floodMaxLine : ℤ
deriving DecidableEq, Repr

/-- A row of `servers`, with the numbers that `atoi` reads. -/
structure Row extends Settings where
  serverId : ℤ
  enabled : Bool
deriving DecidableEq, Repr

/-- What a server is connected as. -/
structure Connection where
  nick : CString
  server : CString
  port : ℤ
deriving DecidableEq, Repr

def Settings.connection (s : Settings) : Connection := ⟨s.nick, s.server, s.port⟩

/-- What the two threads of a server run. -/
inductive ThreadKind where
  | transmit
  | server
deriving DecidableEq, Repr

/-- A thread: its number, what it runs, on which record, and the connection the
record asked for when the thread was created. -/
structure Thread (ι : Type) where
  serial : ℕ
  kind : ThreadKind
  record : ι
  connection : Connection
deriving DecidableEq, Repr

/-- `IRCServer_t`; of the queue and the lists, whether they are there. -/
structure IRCServer (ι : Type) extends Settings where
  serverId : ℤ
  channels : Bool
  floodList : Bool
  txQueue : Bool
  threadId : Option (Thread ι)
  threadName : Option CString
  txThreadId : Option (Thread ι)
  txThreadName : Option CString
  threadAbort : Bool
  enabled : Bool
  oldEnabled : Bool
  enabledChanged : Bool
  visited : Bool
  modified : Bool
  newServer : Bool
  justAdded : Bool

/-- A record cleared by `memset`. -/
def IRCServer.cleared (ι : Type) : IRCServer ι :=
  { server := [], port := 0, password := [], nick := [], username := [], realname := []
    nickserv := [], nickservmsg := [], floodInterval := 0, floodMaxTime := 0, floodBuffer := 0
    floodMaxLine := 0, serverId := 0, channels := false, floodList := false, txQueue := false
    threadId := none, threadName := none, txThreadId := none, txThreadName := none
    threadAbort := false, enabled := false, oldEnabled := false, enabledChanged := false
    visited := false, modified := false, newServer := false, justAdded := false }

/-- `ServerTree`, the records in memory, the threads that run, and each time
`serverKill` destroyed a queue and lists, the record and its threads that ran. -/
structure World (ι : Type) where
  tree : List ι
  mem : ι → IRCServer ι
  live : List ι
  threads : List (Thread ι)
  serial : ℕ
  destroyed : List (ι × List (Thread ι))

variable {ι : Type} [DecidableEq ι]

/-- Change a record. -/
def World.modify (w : World ι) (x : ι) (f : IRCServer ι → IRCServer ι) : World ι :=
  { w with mem := Function.update w.mem x (f (w.mem x)) }

/-- The threads that run on a record. -/
def World.threadsOf (w : World ι) (x : ι) : List (Thread ι) :=
  w.threads.filter fun t ↦ t.record = x

/-! ## Threads -/

/-- `thread_create` -/
def threadCreate (w : World ι) (kind : ThreadKind) (x : ι) : World ι × Thread ι :=
  let thread : Thread ι := ⟨w.serial, kind, x, (w.mem x).connection⟩
  ({ w with threads := w.threads ++ [thread], serial := w.serial + 1 }, thread)

/-- `thread_deregister`: a thread that runs is joined, and ends if it is told to. -/
def threadDeregister (w : World ι) (thread : Option (Thread ι)) : Option (World ι) :=
  match thread with
  | none => some w
  | some t =>
      if t ∈ w.threads then
        if (w.mem t.record).threadAbort then some { w with threads := w.threads.filter (· ≠ t) }
        else none
      else some w

/-- `serverStart` -/
def serverStart (w : World ι) (x : ι) : World ι :=
  let w := w.modify x fun server ↦ { server with newServer := false, txQueue := true }
  let (w, txThreadId) := threadCreate w .transmit x
  let w := w.modify x fun server ↦ { server with txThreadId := some txThreadId }
  let (w, threadId) := threadCreate w .server x
  w.modify x fun server ↦ { server with threadId := some threadId }

/-- `serverKill` -/
def serverKill (w : World ι) (x : ι) (unalloc : Bool) : Option (World ι) := do
  let w ←
    if (w.mem x).enabled || (w.mem x).enabledChanged then do
      let w := w.modify x fun server ↦ { server with threadAbort := true }
      let w ← threadDeregister w (w.mem x).txThreadId
      let w ← threadDeregister w (w.mem x).threadId
      some (w.modify x fun server ↦ { server with threadAbort := false })
    else some w
  let w :=
    if unalloc then { w with tree := w.tree.erase x }
    else w.modify x fun server ↦ { server with enabled := false }
  let w := w.modify x fun server ↦ { server with txQueue := false }
  let w := w.modify x fun server ↦ { server with channels := false }
  if (w.mem x).floodList then
    let w := w.modify x fun server ↦ { server with floodList := false }
    let w := { w with destroyed := (x, w.threadsOf x) :: w.destroyed }
    some (if unalloc then { w with live := w.live.erase x } else w)
  else none

/-! ## Loading -/

/-- The settings that `result_load_servers` takes from a row. -/
def Row.settings (row : Row) : Settings :=
  { row.toSettings with
    port := row.port % 2 ^ 16
    floodInterval := if row.floodInterval ≤ 0 then 1 else row.floodInterval
    floodMaxTime := if row.floodMaxTime < 4 then 4 else row.floodMaxTime }

/-- `"%s@%s:%d"` -/
def Connection.spec (c : Connection) : CString :=
  c.nick ++ ['@'] ++ c.server ++ [':'] ++ decimal c.port

/-- `"thread_%s@%s:%d"` -/
def threadName (c : Connection) : CString := "thread_".toList ++ c.spec

/-- `"tx_thread_%s@%s:%d"` -/
def txThreadName (c : Connection) : CString := "tx_thread_".toList ++ c.spec

/-- Whether a record has another thread name already. -/
def renamed (name : Option CString) (new : CString) : Bool := name.any (· != new)

/-- `BalancedBTreeFind( ServerTree, &serverId, LOCKED )` -/
def findServer (w : World ι) (serverId : ℤ) : Option ι :=
  w.tree.find? fun x ↦ (w.mem x).serverId == serverId

/-- `BalancedBTreeAdd( ServerTree, item, LOCKED, FALSE )` -/
def addServer (mem : ι → IRCServer ι) (x : ι) : List ι → List ι
  | [] => [x]
  | y :: tree =>
      if (mem x).serverId < (mem y).serverId then x :: y :: tree else y :: addServer mem x tree

/-- The record of a row as the loop of `result_load_servers` fills it in, up to the
thread names, and whether it was renamed. -/
def loadRow (server : IRCServer ι) (found : Bool) (row : Row) : IRCServer ι × Bool :=
  let settings := row.settings
  let killServer := found && (renamed server.threadName (threadName settings.connection) ||
    renamed server.txThreadName (txThreadName settings.connection))
  ({ server with
      toSettings := settings
      serverId := row.serverId
      enabled := row.enabled
      visited := true
      newServer := !found || (server.enabledChanged && row.enabled) || killServer
      threadName := some (threadName settings.connection)
      txThreadName := some (txThreadName settings.connection)
      justAdded := false }, killServer)

/-- The end of the loop. -/
def settleRow (server : IRCServer ι) : IRCServer ι :=
  { server with
    floodList := true
    oldEnabled := server.enabled
    enabledChanged := false
    modified := false }

/-- One turn of the loop of `result_load_servers`; `malloc` gives an address that is
not in use. -/
def loadServer (malloc : List ι → ι) (w : World ι) (row : Row) : Option (World ι) := do
  match findServer w row.serverId with
  | some x =>
      let oldEnabled := (w.mem x).enabled
      let (server, killServer) := loadRow (w.mem x) true row
      let w := w.modify x fun _ ↦ server
      let w ←
        if ((oldEnabled || server.enabledChanged) && !server.enabled) || killServer then
          serverKill w x killServer
        else some w
      some (w.modify x settleRow)
  | none =>
      let x := malloc w.live
      let (server, _) := loadRow (IRCServer.cleared ι) false row
      let w := { w.modify x fun _ ↦ settleRow server with live := x :: w.live }
      some { w with tree := addServer w.mem x w.tree }

/-- `result_load_servers`; there is no result if the query fails. -/
def resultLoadServers (malloc : List ι → ι) (w : World ι) (res : Option (List Row)) :
    Option (World ι) :=
  match res with
  | none => some w
  | some rows => rows.foldlM (loadServer malloc) w

/-- `db_load_channels`: the servers with channels get their lists. -/
def dbLoadChannels (hasChannels : ℤ → Bool) (w : World ι) : List ι → World ι
  | [] => w
  | x :: nodes =>
      let w := w.modify x fun server ↦
        { server with channels := server.channels || hasChannels server.serverId }
      dbLoadChannels hasChannels w nodes

/-! ## Reloading -/

/-- `serverUnvisit` -/
def serverUnvisit (w : World ι) : List ι → World ι
  | [] => w
  | x :: nodes => serverUnvisit (w.modify x fun server ↦ { server with visited := false }) nodes

/-- `serverFlushUnvisited`, and whether it found a server to kill. -/
def serverFlushUnvisited (w : World ι) : List ι → Option (World ι × Bool)
  | [] => some (w, false)
  | x :: nodes =>
      if !(w.mem x).visited then do
        let w ← serverKill w x true
        some (w, true)
      else
        let w := if (w.mem x).newServer && (w.mem x).enabled then serverStart w x else w
        serverFlushUnvisited w nodes

/-- The loop of `mainSighup`. -/
def flushLoop : ℕ → World ι → Option (World ι)
  | 0, _ => none
  | fuel + 1, w => do
      let (w, again) ← serverFlushUnvisited w w.tree
      if again then flushLoop fuel w else some w

/-- What the database answers: the servers, and which of them have channels. -/
structure Database where
  servers : Option (List Row)
  hasChannels : ℤ → Bool

/-- `mainSighup` -/
def mainSighup (malloc : List ι → ι) (fuel : ℕ) (w : World ι) (db : Database) :
    Option (World ι) := do
  let w := serverUnvisit w w.tree
  let w ← resultLoadServers malloc w db.servers
  let w := dbLoadChannels db.hasChannels w w.tree
  flushLoop fuel w

/-! ## Starting and shutting down -/

/-- `serverStartTree` -/
def serverStartTree (w : World ι) : List ι → World ι
  | [] => w
  | x :: nodes => serverStartTree (if (w.mem x).enabled then serverStart w x else w) nodes

/-- `bot_start` -/
def botStart (malloc : List ι → ι) (w : World ι) (db : Database) : Option (World ι) := do
  let w ← resultLoadServers malloc w db.servers
  let w := dbLoadChannels db.hasChannels w w.tree
  some (serverStartTree w w.tree)

/-- The loop of `bot_shutdown`: `serverKillTree` kills the first server it comes to. -/
def botShutdown : ℕ → World ι → Option (World ι)
  | 0, _ => none
  | fuel + 1, w =>
      match w.tree with
      | [] => some w
      | x :: _ => do
          let w ← serverKill w x true
          botShutdown fuel w

/-! ## The form of a server -/

/-- `cursesServerDisplay` and `cursesServerRevert` -/
def cursesServerDisplay (w : World ι) (x : ι) : World ι :=
  w.modify x fun server ↦ { server with oldEnabled := server.enabled }

/-- `cursesServerNew` -/
def cursesServerNew (malloc : List ι → ι) (w : World ι) : World ι :=
  let x := malloc w.live
  let w := { w.modify x fun _ ↦ { IRCServer.cleared ι with serverId := -1 } with
    live := x :: w.live }
  let w := { w with tree := addServer w.mem x w.tree }
  cursesServerDisplay w x

/-- `cursesServerCleanup` -/
def cursesServerCleanup (w : World ι) : World ι :=
  match findServer w (-1) with
  | none => w
  | some x => { w with tree := w.tree.erase x, live := w.live.erase x }

/-- `db_update_server`: a new server is inserted, and `result_insert_server` puts in the
number that it got; there is none, 0, if the query fails. -/
def dbUpdateServer (w : World ι) (x : ι) (insertid : ℤ) : World ι :=
  if (w.mem x).serverId = -1 ∧ insertid ≠ 0 then
    match findServer w (-1) with
    | none => w
    | some item =>
        let w := { w with tree := w.tree.erase item }
        let w := w.modify x fun server ↦ { server with serverId := insertid, justAdded := true }
        { w with tree := addServer w.mem item w.tree }
  else w

/-- `cursesSaveOffset` for each field of the form. -/
def saveFields (w : World ι) (x : ι) (settings : Settings) (enabled : Bool) : World ι :=
  w.modify x fun server ↦ { server with toSettings := settings, enabled }

/-- `serverSaveFunc` with index -1, up to the reload. -/
def saveServer (w : World ι) (x : ι) (insertid : ℤ) : World ι :=
  let w :=
    if (w.mem x).enabled != (w.mem x).oldEnabled then
      w.modify x fun server ↦ { server with enabledChanged := true }
    else w
  dbUpdateServer w x insertid

/-- `cursesSave` on the form, up to the reload. -/
def cursesSave (w : World ι) (x : ι) (settings : Settings) (enabled : Bool) (insertid : ℤ) :
    World ι :=
  saveServer (saveFields w x settings enabled) x insertid

end Beirdobot.Servers
