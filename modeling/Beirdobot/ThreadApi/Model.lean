import Beirdobot.BTree.Keys
import Beirdobot.BTree.Stores
import Beirdobot.Library.System

/-!
# The threads of the bot

A transcription of `thread_api.c`, with the `signal_everyone` of `main.c` that calls it.  `ThreadTree`
orders the threads by their ids, which it reads through the variables that hold them, so a variable
that changes changes the key of its thread.  Calls of different threads are interleaved: a
`thread_create` is a `pthread_create` and a `thread_register`, a `thread_deregister` a search, a
removal and a `pthread_join`.  A `pthread_t` is an address of user space, in the lower half of its
64 bits.
-/

namespace Beirdobot.ThreadApi

open Library BTree

/-- `pthread_t` -/
abbrev PthreadId := { w : BitVec 64 // 2 * w.toNat < 2 ^ 64 }

/-- `KeyComparePthread`, on what the two pointers point to. -/
def keyCompare (l r : PthreadId) : ℤ := Keys.onKeys Keys.keyComparePthread l.1 r.1

/-- The signals that are told apart. -/
inductive Signal
  | sigusr2
  | sighup
  | sigwinch
  | other (signum : ℕ)
deriving DecidableEq

/-- The signals that `ThreadRecurseKill` sends on. -/
def Signal.forwarded : Signal → Bool
  | .sigusr2 | .sighup | .sigwinch => true
  | .other _ => false

/-- `ThreadCallback_t`, with functions `φ` and arguments `α`. -/
structure ThreadCallback (φ α : Type) where
  sighupFunc : Option φ
  sighupArg : Option α
  serverDisable : Option φ
  channelDisable : Option φ
deriving DecidableEq

/-- `Thread_t`, whose `threadId` is a variable. -/
structure Thread (ν φ α : Type) where
  threadId : ν
  name : CString
  callbacks : Option (ThreadCallback φ α)
deriving DecidableEq

/-- `SigFunc_t` -/
inductive SigFunc (φ : Type)
  | doBacktrace
  | cursesSigwinch
  | sighupFunc (f : φ)
deriving DecidableEq

/-- What the threads and the kernel did. -/
inductive Note (ν φ α : Type)
  | created (id : PthreadId)
  | registered (id : PthreadId) (thread : Thread ν φ α)
  | removed (id : PthreadId)
  | raised (id : PthreadId) (signum : Signal)
  | killed (signum : Signal) (ids : List PthreadId)
  | handled (id : PthreadId) (signum : Signal) (sigFunc : Option (SigFunc φ)) (arg : Option α)

/-- The variables, the tree with its items, the calls that are in progress, and the kernel's
threads and pending signals; `log` has what was done, the last first. -/
structure State (ι ν φ α : Type) where
  ids : ν → PthreadId
  threadTree : BalancedBTree ι ν
  item : ι → Thread ν φ α
  used : List ι
  mainThreadId : ν
  cursesOutThreadId : ν
  daemon : Bool
  creating : List (Thread ν φ α)
  removing : List (ι × PthreadId)
  joining : List PthreadId
  alive : List PthreadId
  pending : PthreadId → Signal → Bool
  log : List (Note ν φ α)

variable {ι ν φ α : Type}

namespace State

/-- More than there are items in the tree. -/
def fuel (s : State ι ν φ α) : ℕ := s.used.length + 2

/-- The tree with the ids for keys. -/
def tree (s : State ι ν φ α) : BalancedBTree ι PthreadId where
  toPointers := s.threadTree.toPointers
  key x := s.ids (s.threadTree.key x)
  owner := s.threadTree.owner
  self := s.threadTree.self
  mutex := s.threadTree.mutex

/-- What a function of the tree leaves. -/
def setTree (s : State ι ν φ α) (t : BalancedBTree ι PthreadId) : State ι ν φ α :=
  { s with threadTree := { s.threadTree with
      toPointers := t.toPointers
      owner := t.owner
      mutex := t.mutex } }

/-- The id of the thread of an item. -/
def idOf (s : State ι ν φ α) (x : ι) : PthreadId := s.ids (s.item x).threadId

/-- `BalancedBTreeFind( ThreadTree, &pthreadId, UNLOCKED )` -/
def findThread (s : State ι ν φ α) (id : PthreadId) : Option (State ι ν φ α × Option ι) := do
  let (t, item) ← balancedBTreeFind keyCompare s.fuel s.tree (some id) .unlocked
  some (s.setTree t, item)

/-- `thread_name` -/
def threadName (s : State ι ν φ α) (id : PthreadId) : Option (State ι ν φ α × Option CString) := do
  let (s, item) ← s.findThread id
  some (s, item.map fun x ↦ (s.item x).name)

/-- `thread_register`, with the item that is allocated. -/
def threadRegister [DecidableEq ι] (s : State ι ν φ α) (x : ι) (thread : Thread ν φ α) :
    Option (State ι ν φ α) := do
  let s := { s with
    item := Function.update s.item x thread
    threadTree := { s.threadTree with
      key := Function.update s.threadTree.key x thread.threadId } }
  let t ← balancedBTreeAdd keyCompare s.fuel s.tree (some x) .unlocked true
  some { s.setTree t with used := x :: s.used }

/-- The rest of `thread_deregister`, up to the `pthread_join`, for the item that was found. -/
def threadRemove [DecidableEq ι] (s : State ι ν φ α) (x : ι) : Option (State ι ν φ α) := do
  let t ← balancedBTreeRemove s.fuel s.tree (some x) .unlocked true
  some { s.setTree t with used := s.used.erase x }

/-! ## Recursion over the tree -/

/-- The recursion of `ThreadRecurseKill`, `ThreadRecurseNotifyServer` and
`ThreadRecurseNotifyChannel`. -/
def recurse {β : Type} (h : Links ι) (visit : ι → List β) : ℕ → Option ι → Option (List β)
  | _, none => some []
  | 0, some _ => none
  | fuel + 1, some node => do
      let left ← recurse h visit fuel (h.left node)
      let right ← recurse h visit fuel (h.right node)
      some (left ++ visit node ++ right)

/-- The lines of `ThreadAllKill` and its siblings, which lock the tree. -/
def threadAll {β : Type} (s : State ι ν φ α) (visit : ι → List β) :
    Option (State ι ν φ α × List β) := do
  let t ← balancedBTreeLock s.tree
  let calls ← recurse t.toLinks visit s.fuel t.root
  some (s.setTree (balancedBTreeUnlock t), calls)

/-- `ThreadAllKill`, with the threads that get the signal. -/
def threadAllKill (s : State ι ν φ α) (signum : Signal) :
    Option (State ι ν φ α × List PthreadId) :=
  s.threadAll fun node ↦
    if s.idOf node = s.ids s.mainThreadId then []
    else if signum.forwarded then [s.idOf node] else []

/-- `ThreadAllNotifyServer`, with the functions that are called. -/
def threadAllNotifyServer (s : State ι ν φ α) : Option (State ι ν φ α × List φ) :=
  s.threadAll fun node ↦ ((s.item node).callbacks.bind ThreadCallback.serverDisable).toList

/-- `ThreadAllNotifyChannel`, with the functions that are called. -/
def threadAllNotifyChannel (s : State ι ν φ α) : Option (State ι ν φ α × List φ) :=
  s.threadAll fun node ↦ ((s.item node).callbacks.bind ThreadCallback.channelDisable).toList

/-! ## Signals -/

/-- The `switch` of `ThreadGetHandler`, with `*parg`. -/
def handlerOf (s : State ι ν φ α) (id : PthreadId) (thread : Thread ν φ α) :
    Signal → Option (SigFunc φ) × Option α
  | .sigusr2 => (some .doBacktrace, none)
  | .sighup => ((thread.callbacks.bind ThreadCallback.sighupFunc).map .sighupFunc,
      thread.callbacks.bind ThreadCallback.sighupArg)
  | .sigwinch => (if !s.daemon && id = s.ids s.cursesOutThreadId then some .cursesSigwinch
      else none, none)
  | .other _ => (none, none)

/-- `ThreadGetHandler`; where no thread is found `*parg` is not written. -/
def threadGetHandler (s : State ι ν φ α) (id : PthreadId) (signum : Signal) :
    Option (State ι ν φ α × Option (SigFunc φ) × Option α) := do
  let (s, item) ← s.findThread id
  some (s, (item.map fun x ↦ s.handlerOf id (s.item x) signum).getD (none, none))

/-- A signal comes to be pending for a thread, or is not any more. -/
def setPending (s : State ι ν φ α) (id : PthreadId) (signum : Signal) (b : Bool) :
    State ι ν φ α :=
  { s with pending := Function.update s.pending id (Function.update (s.pending id) signum b) }

/-- `pthread_kill( id, signum )` for the ids of a list. -/
def kill (s : State ι ν φ α) (signum : Signal) (ids : List PthreadId) : State ι ν φ α :=
  { s with
    pending := fun id m ↦ s.pending id m || (m = signum && ids.contains id)
    log := .killed signum ids :: s.log }

/-- `signal_everyone`, in the thread `id`. -/
def signalEveryone (s : State ι ν φ α) (id : PthreadId) (signum : Signal) :
    Option (State ι ν φ α) := do
  let (s, sigFunc, arg) ← s.threadGetHandler id signum
  let s := { s with log := .handled id signum sigFunc arg :: s.log }
  if id = s.ids s.mainThreadId then do
    let (s, ids) ← s.threadAllKill signum
    some (s.kill signum ids)
  else some s

end State

/-! ## The system -/

inductive Event (ι ν φ α : Type)
  /-- `pthread_create`, which writes the new id to the variable. -/
  | create (id : PthreadId) (thread : Thread ν φ α)
  /-- `thread_register` for a thread that was created, with the item that is allocated. -/
  | register (k : ℕ) (x : ι)
  /-- The search of `thread_deregister`. -/
  | deregister (id : PthreadId)
  /-- The rest of it, in another thread or in the thread itself. -/
  | remove (k : ℕ) (self : Bool)
  | join (k : ℕ)
  /-- A signal from outside. -/
  | raise (id : PthreadId) (signum : Signal)
  /-- A thread comes to handle a signal. -/
  | deliver (id : PthreadId) (signum : Signal)

/-- A step.  The kernel gives no id of a thread that was not joined, `malloc` no item in use. -/
def step [DecidableEq ι] [DecidableEq ν] (s : State ι ν φ α) : Event ι ν φ α → Option (State ι ν φ α)
  | .create id thread =>
      if id ∈ s.alive then none
      else some { s with
        ids := Function.update s.ids thread.threadId id
        creating := thread :: s.creating
        alive := id :: s.alive
        pending := Function.update s.pending id fun _ ↦ false
        log := .created id :: s.log }
  | .register k x => do
      let thread ← s.creating[k]?
      if x ∈ s.used then none
      else do
        let s' ← s.threadRegister x thread
        some { s' with
          creating := s.creating.eraseIdx k
          log := .registered (s.ids thread.threadId) thread :: s.log }
  | .deregister id => do
      let (s, item) ← s.findThread id
      match item with
      | none => some s
      | some x => some { s with removing := (x, id) :: s.removing }
  | .remove k self => do
      let (x, id) ← s.removing[k]?
      let s' ← s.threadRemove x
      some { s' with
        removing := s.removing.eraseIdx k
        joining := if self then s.joining else id :: s.joining
        log := .removed id :: s.log }
  | .join k => do
      let id ← s.joining[k]?
      some { s with joining := s.joining.eraseIdx k, alive := s.alive.erase id }
  | .raise id signum => some { s.setPending id signum true with log := .raised id signum :: s.log }
  | .deliver id signum =>
      if s.pending id signum then (s.setPending id signum false).signalEveryone id signum else none

/-- `main` before it registers itself. -/
structure Init (s : State ι ν φ α) : Prop where
  empty : ∃ self items key owner, s.threadTree = balancedBTreeCreate self items key owner
  used : s.used = []
  creating : ∃ thread, s.creating = [thread] ∧ thread.threadId = s.mainThreadId
  alive : s.alive = [s.ids s.mainThreadId]
  removing : s.removing = []
  joining : s.joining = []
  pending : ∀ id signum, s.pending id signum = false
  log : s.log = []

def system (ι ν φ α : Type) [DecidableEq ι] [DecidableEq ν] :
    System (State ι ν φ α) (Event ι ν φ α) where
  init := Init
  step := step

/-- What the callers keep to: a variable is not used for a second thread while the first one is
registered, nor that of `main`, and a thread is not removed by two at a time. -/
def Careful (s : State ι ν φ α) : Event ι ν φ α → Prop
  | .create _ thread => thread.threadId ≠ s.mainThreadId ∧
      thread.threadId ∉ s.used.map (fun x ↦ (s.item x).threadId) ++
        s.creating.map Thread.threadId
  | .deregister id => id ∉ s.removing.map Prod.snd
  | _ => True

instance (s : State ι ν φ α) [DecidableEq ν] : ∀ e, Decidable (Careful s e)
  | .create _ _ => inferInstanceAs (Decidable (_ ∧ _))
  | .deregister id => inferInstanceAs (Decidable (id ∉ _))
  | .register .. | .remove .. | .join .. | .raise .. | .deliver .. => isTrue trivial

/-! ## What the registry is for -/

/-- The threads that were registered and not removed, by their ids. -/
def registryOf : List (Note ν φ α) → PthreadId → Option (Thread ν φ α)
  | [] => fun _ ↦ none
  | .registered id thread :: log => Function.update (registryOf log) id (some thread)
  | .removed id :: log => Function.update (registryOf log) id none
  | .created _ :: log | .raised _ _ :: log | .killed _ _ :: log | .handled _ _ _ _ :: log =>
      registryOf log

/-- Whether a signal was sent to a thread, since it was created and since it last handled it. -/
def owed (id : PthreadId) (signum : Signal) : List (Note ν φ α) → Bool
  | [] => false
  | .created i :: log => i ≠ id && owed id signum log
  | .raised i m :: log => (i = id && m = signum) || owed id signum log
  | .killed m ids :: log => (m = signum && ids.contains id) || owed id signum log
  | .handled i m _ _ :: log => !(i = id && m = signum) && owed id signum log
  | .registered _ _ :: log | .removed _ :: log => owed id signum log

end Beirdobot.ThreadApi
