import Beirdobot.BTree.Model
import Beirdobot.Mysql.Query

/-!
# Channels

A transcription of what `mysql.c`, `bot.c`, `bot_cmds.c` and `regexp.c` do to the
channels of a server: loading them, their form, `botSighup` and `serverKill`.  Each
server has its own channels, and the functions here see one server and `regexpList`,
which all servers share.  A channel and its items in the two trees are one record and
share an address.  Menus and the columns that nothing here reads are left out, and of
`regexpList` the entries of plugins.  A function returns `none` where the C code
follows a null pointer, locks a mutex that is held, or walks further than there are
records.
-/

namespace Beirdobot.Channels

open BTree
open Mysql (decimal)

/-- `IRCChannel_t`; of `server` and `oldServer`, which server it is. -/
structure IRCChannel where
  channelId : ℤ
  channel : CString
  fullspec : CString
  server : Option ℕ
  oldServer : Option ℕ
  joined : Bool
  visited : Bool
  enabled : Bool
  oldEnabled : Bool
  enabledChanged : Bool
  newChannel : Bool
  justAdded : Bool
deriving DecidableEq, Repr

/-- A record cleared by `memset`, with the strings of a new channel. -/
def IRCChannel.cleared : IRCChannel :=
  { channelId := 0, channel := [], fullspec := [], server := none, oldServer := none
    joined := false, visited := false, enabled := false, oldEnabled := false
    enabledChanged := false, newChannel := false, justAdded := false }

/-- A row of `channels`, with the numbers that `atoi` reads. -/
structure Row where
  channelId : ℤ
  channel : CString
  enabled : Bool
deriving DecidableEq, Repr

/-- What `transmitMsg` puts in the queue of the server. -/
inductive Transmit
  | join (channel : CString)
  | part (channel : CString)
deriving DecidableEq, Repr

/-- The root of a tree and the `BalancedBTreeItem_t` of each record. -/
structure Items (ι : Type) extends Pointers ι where
  owner : ι → Option ℕ
  mutex : Bool

/-- What `server->channels`, `server->channelName` and `server->channelNum` point to. -/
structure Lists (ι : Type) where
  channels : List ι
  channelName : Items ι
  channelNum : Items ι

/-- The settings of a server that its channels depend on. -/
structure Settings where
  nick : CString
  server : CString
  port : ℤ
  enabled : Bool
deriving DecidableEq, Repr

/-- `IRCServer_t` and the records of its channels; the three pointers are null
together. -/
structure Server (ι : Type) extends Settings where
  self : ℕ
  lists : Option (Lists ι)
  mem : ι → IRCChannel
  live : List ι
  sent : List Transmit

/-- The two regular expressions of an entry of `regexpList` with `regexpBotCmdParse`. -/
structure Regexp where
  channelRegexp : CString
  contentRegexp : CString
deriving DecidableEq, Repr

/-- One server, and `regexpList`. -/
structure View (ι : Type) extends Server ι where
  regexpList : List Regexp

/-- The items of a tree, without its keys. -/
def Items.ofTree {ι K : Type} (s : BalancedBTree ι K) : Items ι :=
  { s.toPointers with owner := s.owner, mutex := s.mutex }

section Trees

variable {ι : Type}

/-- `server->channelName`, with the names that the keys point to. -/
def nameTree (mem : ι → IRCChannel) (items : Items ι) : BalancedBTree ι CString :=
  { items.toPointers with
    key := fun x ↦ caseless (mem x).channel
    owner := items.owner
    self := 0
    mutex := items.mutex }

/-- `server->channelNum`, with the numbers that the keys point to. -/
def numTree (mem : ι → IRCChannel) (items : Items ι) : BalancedBTree ι ℤ :=
  { items.toPointers with
    key := fun x ↦ (mem x).channelId
    owner := items.owner
    self := 0
    mutex := items.mutex }

namespace Server

variable (s : Server ι)

/-- The channels on the list. -/
def channels : List ι :=
  match s.lists with
  | none => []
  | some lists => lists.channels

/-- More than a walk over a tree of records can take. -/
def fuel : ℕ := s.live.length + 2

/-- `"%s@%s:%d/%s"` -/
def fullSpec (channel : CString) : CString :=
  s.nick ++ ['@'] ++ s.server ++ [':'] ++ decimal s.port ++ ['/'] ++ channel

/-- `FindChannel` -/
def findChannel (channelsLoaded : Bool) (channame : CString) : Option (Option ι) :=
  if channelsLoaded then
    match s.lists with
    | none => some none
    | some lists =>
        (balancedBTreeFind keyCompareString s.fuel (nameTree s.mem lists.channelName)
          (some (caseless channame)) .unlocked).map (·.2)
  else some none

/-- `FindChannelNum` -/
def findChannelNum (channelsLoaded : Bool) (channum : ℤ) : Option (Option ι) :=
  if channelsLoaded then
    match s.lists with
    | none => some none
    | some lists =>
        (balancedBTreeFind keyCompareInt s.fuel (numTree s.mem lists.channelNum)
          (some channum) .unlocked).map (·.2)
  else some none

end Server

end Trees

namespace View

variable {ι : Type}

/-- Change what the three pointers point to. -/
def onLists (v : View ι) (f : Lists ι → Option (Lists ι)) : Option (View ι) := do
  let lists ← v.lists
  let lists ← f lists
  some { v with lists := some lists }

/-- `BalancedBTreeLock` on both trees. -/
def lock (v : View ι) : Option (View ι) :=
  v.onLists fun lists ↦ do
    let name ← balancedBTreeLock (nameTree v.mem lists.channelName)
    let num ← balancedBTreeLock (numTree v.mem lists.channelNum)
    some { lists with channelName := .ofTree name, channelNum := .ofTree num }

/-- `BalancedBTreeUnlock` on both trees. -/
def unlock (v : View ι) : Option (View ι) :=
  v.onLists fun lists ↦
    let name := balancedBTreeUnlock (nameTree v.mem lists.channelName)
    let num := balancedBTreeUnlock (numTree v.mem lists.channelNum)
    some { lists with channelName := .ofTree name, channelNum := .ofTree num }

variable [DecidableEq ι]

/-- Change a record. -/
def modify (v : View ι) (x : ι) (f : IRCChannel → IRCChannel) : View ι :=
  { v with mem := Function.update v.mem x (f (v.mem x)) }

/-- `BalancedBTreeAdd( server->channelName, &channel->itemName, LOCKED, FALSE )` -/
def addName (v : View ι) (x : ι) : Option (View ι) :=
  v.onLists fun lists ↦ do
    let name ← balancedBTreeAdd keyCompareString v.fuel (nameTree v.mem lists.channelName)
      (some x) .locked false
    some { lists with channelName := .ofTree name }

/-- `BalancedBTreeAdd( server->channelNum, &channel->itemNum, LOCKED, FALSE )` -/
def addNum (v : View ι) (x : ι) : Option (View ι) :=
  v.onLists fun lists ↦ do
    let num ← balancedBTreeAdd keyCompareInt v.fuel (numTree v.mem lists.channelNum)
      (some x) .locked false
    some { lists with channelNum := .ofTree num }

/-- `BalancedBTreeRemove( server->channelName, &channel->itemName, LOCKED, FALSE )` -/
def removeName (v : View ι) (x : ι) : Option (View ι) :=
  v.onLists fun lists ↦ do
    let name ← balancedBTreeRemove v.fuel (nameTree v.mem lists.channelName) (some x) .locked false
    some { lists with channelName := .ofTree name }

/-- `BalancedBTreeRemove( server->channelNum, &channel->itemNum, LOCKED, FALSE )` -/
def removeNum (v : View ι) (x : ι) : Option (View ι) :=
  v.onLists fun lists ↦ do
    let num ← balancedBTreeRemove v.fuel (numTree v.mem lists.channelNum) (some x) .locked false
    some { lists with channelNum := .ofTree num }

/-- "Rebalance the trees" -/
def rebalance (v : View ι) : Option (View ι) :=
  v.onLists fun lists ↦ do
    let name ← balancedBTreeAdd keyCompareString v.fuel (nameTree v.mem lists.channelName)
      none .locked true
    let num ← balancedBTreeAdd keyCompareInt v.fuel (numTree v.mem lists.channelNum)
      none .locked true
    some { lists with channelName := .ofTree name, channelNum := .ofTree num }

/-- The lines of `botSighup` and `serverKill` that search the name of a channel and
remove what they find. -/
def removeFoundName (v : View ι) (x : ι) : Option (View ι) := do
  let lists ← v.lists
  let (_, item) ← balancedBTreeFind keyCompareString v.fuel (nameTree v.mem lists.channelName)
    (some (caseless (v.mem x).channel)) .locked
  match item with
  | none => some v
  | some item => v.removeName item

/-- The same with its number. -/
def removeFoundNum (v : View ι) (x : ι) : Option (View ι) := do
  let lists ← v.lists
  let (_, item) ← balancedBTreeFind keyCompareInt v.fuel (numTree v.mem lists.channelNum)
    (some (v.mem x).channelId) .locked
  match item with
  | none => some v
  | some item => v.removeNum item

end View

/-! ## Regular expressions -/

/-- `"(?i)^%s$"`, in 256 bytes. -/
def chanRegexp (fullspec : CString) : CString :=
  ("(?i)^".toList ++ fullspec ++ ['$']).take 255

/-- `"(?i)^\\s*%s[:,]?\\s+(.*)$"`, in 256 bytes. -/
def nickRegexp (nick : CString) : CString :=
  ("(?i)^\\s*".toList ++ nick ++ "[:,]?\\s+(.*)$".toList).take 255

/-- The entry that a channel has in `regexpList`. -/
def botCmd (nick fullspec : CString) : Regexp := ⟨chanRegexp fullspec, nickRegexp nick⟩

section Functions

variable {ι : Type} [DecidableEq ι] (malloc : List ι → ι) (compiles : CString → Bool)

/-- `regexp_add`: an expression that `pcre_compile` does not accept is not added. -/
def regexpAdd (l : List Regexp) (item : Regexp) : List Regexp :=
  if compiles item.channelRegexp && compiles item.contentRegexp then l ++ [item] else l

/-- `regexp_remove`: the first entry with these texts. -/
def regexpRemove (l : List Regexp) (item : Regexp) : List Regexp := l.erase item

/-- `regexpBotCmdAdd` -/
def regexpBotCmdAdd (v : View ι) (x : ι) : View ι :=
  { v with regexpList := regexpAdd compiles v.regexpList (botCmd v.nick (v.mem x).fullspec) }

/-- `regexpBotCmdRemove` -/
def regexpBotCmdRemove (v : View ι) (x : ι) : View ι :=
  { v with regexpList := regexpRemove v.regexpList (botCmd v.nick (v.mem x).fullspec) }

/-- `channelLeave` -/
def channelLeave (v : View ι) (x : ι) (oldChannel : CString) : View ι :=
  let v := { v with sent := v.sent ++ [Transmit.part oldChannel] }
  v.modify x fun channel ↦ { channel with joined := false }

/-! ## Loading -/

/-- What `result_load_channels` takes from a row. -/
def fillIn (self : ℕ) (found : Bool) (channel : IRCChannel) (row : Row) : IRCChannel :=
  { channel with
    channelId := row.channelId
    channel := row.channel
    enabled := row.enabled
    server := some self
    visited := true
    newChannel := !found || ((!channel.enabled || channel.enabledChanged) && row.enabled) }

/-- The lines of `result_load_channels` that leave a channel whose `fullspec` changed or
that was disabled, given what it was before the row was filled in. -/
def respecify (v : View ι) (x : ι) (old : IRCChannel) : View ι :=
  let channel := v.mem x
  let fullSpec := v.fullSpec channel.channel
  if fullSpec ≠ channel.fullspec ∨
      ((old.enabled || channel.enabledChanged) && !channel.enabled) = true then
    let v := v.modify x fun channel ↦ { channel with fullspec := fullSpec }
    let v := channelLeave v x old.channel
    let v := v.modify x fun channel ↦ { channel with newChannel := true }
    if (v.mem x).enabled then regexpBotCmdAdd compiles v x else v
  else v

/-- The lines that move a renamed channel to its place in `channelName`. -/
def rename (v : View ι) (x : ι) (oldChannel : CString) : Option (View ι) :=
  if oldChannel ≠ (v.mem x).channel ∧ (v.mem x).justAdded = false then do
    let v ← v.removeName x
    v.addName x
  else some v

/-- The lines that forget what the form changed. -/
def settle (v : View ι) (x : ι) : View ι :=
  v.modify x fun channel ↦ { channel with
    enabledChanged := false
    oldServer := channel.server
    oldEnabled := channel.enabled }

/-- The lines that put a channel in the trees, and on the list unless it is there. -/
def enlist (v : View ι) (x : ι) : Option (View ι) := do
  let v ← v.addName x
  let v ← v.addNum x
  let v ← v.onLists fun lists ↦
    some (if (v.mem x).justAdded then lists else { lists with channels := lists.channels ++ [x] })
  some (if v.enabled then regexpBotCmdAdd compiles v x else v)

/-- The guard before these lines, for a channel that was found. -/
def enlistAdded (v : View ι) (x : ι) : Option (View ι) :=
  if (v.mem x).justAdded then enlist compiles v x else some v

/-- One turn of the loop of `result_load_channels`; `malloc` gives an address that is
not in use. -/
def loadChannel (v : View ι) (row : Row) : Option (View ι) := do
  match v.channels.find? fun x ↦ (v.mem x).channelId == row.channelId with
  | some x =>
      let old := v.mem x
      let v := v.modify x fun channel ↦ fillIn v.self true channel row
      let v := respecify compiles v x old
      let v ← rename v x old.channel
      let v := settle v x
      let v ← enlistAdded compiles v x
      some (v.modify x fun channel ↦ { channel with justAdded := false })
  | none =>
      let x := malloc v.live
      let v := { v with live := x :: v.live }
      let v := v.modify x fun _ ↦ fillIn v.self false .cleared row
      let v := v.modify x fun channel ↦ { channel with fullspec := v.fullSpec channel.channel }
      enlist compiles (settle v x) x

/-- `LinkedListCreate` and `BalancedBTreeCreate`, if there are no lists yet. -/
def createLists (v : View ι) : View ι :=
  match v.lists with
  | some _ => v
  | none =>
      let items : Items ι :=
        { left := fun _ ↦ none, right := fun _ ↦ none, parent := fun _ ↦ none, root := none
          owner := fun _ ↦ none, mutex := false }
      { v with lists := some ⟨[], items, items⟩ }

/-- `result_load_channels`; there is no result if the query fails. -/
def resultLoadChannels (v : View ι) (res : Option (List Row)) : Option (View ι) :=
  match res with
  | none | some [] => some v
  | some rows => do
      let v ← (createLists v).lock
      let v ← rows.foldlM (loadChannel malloc compiles) v
      let v ← v.rebalance
      v.unlock

/-- `serverUnvisit`, on the channels of a server. -/
def unvisit (v : View ι) : View ι :=
  { v with mem := fun x ↦
      if x ∈ v.channels then { v.mem x with visited := false } else v.mem x }

/-! ## Leaving -/

/-- The lines of `botSighup` and `serverKill` that free a channel. -/
def dropChannel (v : View ι) (x : ι) : Option (View ι) := do
  let v := regexpBotCmdRemove v x
  let v ← v.onLists fun lists ↦ some { lists with channels := lists.channels.erase x }
  let v ← v.removeFoundName x
  let v ← v.removeFoundNum x
  some { v with live := v.live.erase x }

/-- The loop of `botSighup`, with its `newChannel`. -/
def sighupLoop (v : View ι) (newChannel : Bool) : List ι → Option (View ι)
  | [] => some v
  | x :: listItem =>
      let channel := v.mem x
      if channel.visited = false then do
        let v := channelLeave v x channel.channel
        let v ← dropChannel v x
        sighupLoop v newChannel listItem
      else if (channel.newChannel && channel.enabled && !channel.joined && !newChannel) = true then
        sighupLoop { v with sent := v.sent ++ [Transmit.join channel.channel] } true listItem
      else if (channel.newChannel && !channel.enabled) = true then
        sighupLoop (v.modify x fun channel ↦ { channel with newChannel := false }) newChannel
          listItem
      else sighupLoop v newChannel listItem

/-- `botSighup` -/
def botSighup (v : View ι) : Option (View ι) :=
  match v.lists with
  | none => some v
  | some lists => do
      let v ← v.lock
      let v ← sighupLoop v false lists.channels
      v.unlock

/-- `serverKill`, on the channels of the server. -/
def serverKill (v : View ι) (unalloc : Bool) : Option (View ι) := do
  let v := if unalloc then v else { v with enabled := false }
  match v.lists with
  | none => some v
  | some lists => do
      let v ← v.lock
      let v ← lists.channels.foldlM dropChannel v
      some { v with lists := none }

/-! ## The form of a channel -/

/-- The loop of `cursesSaveOffset` that cuts the blanks at the end. -/
def trimBlanks (string : CString) : CString := (string.reverse.dropWhile (· = ' ')).reverse

/-- `cursesSaveOffset` on the name.  The null pointer that it leaves for `(NULL)` is
followed before the form is done. -/
def saveName (v : View ι) (x : ι) (string : CString) : Option (View ι) :=
  if sameIgnoringCase string "(NULL)".toList then none
  else some (v.modify x fun channel ↦ { channel with channel := trimBlanks string })

/-- `cursesSaveOffset` on the checkbox. -/
def saveEnabled (v : View ι) (x : ι) (enabled : Bool) : View ι :=
  v.modify x fun channel ↦ { channel with enabled }

/-- `cursesSaveOffset` on the server, where `FindServerNum` may find none. -/
def saveServer (v : View ι) (x : ι) (server : Option ℕ) : View ι :=
  v.modify x fun channel ↦ { channel with server }

/-- `cursesChannelDisplay` and `cursesChannelRevert` -/
def cursesChannelDisplay (v : View ι) (x : ι) : View ι :=
  v.modify x fun channel ↦ { channel with
    oldServer := channel.server
    oldEnabled := channel.enabled }

/-- `channelSaveFunc` with index -1, up to `db_update_channel`. -/
def channelSaved (v : View ι) (x : ι) : View ι :=
  if (v.mem x).enabled ≠ (v.mem x).oldEnabled then
    v.modify x fun channel ↦ { channel with enabledChanged := true }
  else v

/-- `cursesChannelNew`, with what the form puts in the fields. -/
def cursesChannelNew (v : View ι) (string : CString) (enabled : Bool) : Option (View ι) := do
  let x := malloc v.live
  let v := { v with live := x :: v.live }
  let v := v.modify x fun _ ↦ { IRCChannel.cleared with channelId := -1 }
  let v := cursesChannelDisplay v x
  let v ← saveName v x string
  let v := saveEnabled v x enabled
  some (saveServer v x (some v.self))

/-- `db_update_channel` on a new channel; `result_insert_channel` puts in the number that
it got, and is not called if the query fails. -/
def dbUpdateChannel (v : View ι) (x : ι) (insertid : Option ℤ) : View ι :=
  let v := v.modify x fun channel ↦
    match insertid with
    | none => channel
    | some insertid =>
        if channel.channelId = -1 then { channel with channelId := insertid } else channel
  let lists := v.lists.map fun lists ↦ { lists with channels := lists.channels ++ [x] }
  let v := { v with lists }
  v.modify x fun channel ↦ { channel with justAdded := true }

/-- The form of a new channel: its fields, `channelSaveFunc` with index -1, and the
reload and the `botSighup` that it calls, on the server of the channel. -/
def createChannel (v : View ι) (string : CString) (enabled : Bool) (insertid : Option ℤ)
    (res : Option (List Row)) : Option (View ι) := do
  let x := malloc v.live
  let v ← cursesChannelNew malloc v string enabled
  let v := channelSaved v x
  let v := dbUpdateChannel v x insertid
  let v := unvisit v
  let v ← resultLoadChannels malloc compiles v res
  botSighup v

end Functions

end Beirdobot.Channels
