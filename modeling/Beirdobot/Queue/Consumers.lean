import Beirdobot.Library.WaitGraph
import Beirdobot.Queue.Fifo

/-!
# The consumers of `QueryQ`, `LoggingQ` and `CursesQ`

Each of the three queues has one thread that reads it: `mysql_thread`,
`LoggingThread` and `curses_output_thread`.  While it handles an item such a thread
puts items on the queues itself, and waits in `QueueEnqueueItem` where it finds a
queue full.  All other threads are producers: one that waits changes nothing, so
that only its completed calls are steps.
-/

namespace Beirdobot.Queue.Consumers

open Library

/-! ## The threads -/

/-- The queues, and the threads that read them. -/
inductive QueueId
  | queryQ
  | loggingQ
  | cursesQ
deriving DecidableEq, Repr

/-- The `queryChainFunc`s of `QueryTable`. -/
inductive ChainFunc
  | chainUpdateNick
  | chainFlushNick
  | chainSetSetting
  | chainSetAuth
deriving DecidableEq, Repr

/-- What `mysql_thread` looks at in a `QueryItem_t` to see what is to be done with
the result. -/
structure QueryItem where
  queryCallback : Bool
  queryChainFunc : Option ChainFunc
deriving DecidableEq, Repr

/-- The items of a queue.  What the other two threads do with an item depends on
the outside only. -/
def Item : QueueId → Type
  | .queryQ => QueryItem
  | .loggingQ => Unit
  | .cursesQ => Unit

/-- A call of `QueueEnqueueItem`. -/
abbrev Call : Type := (q : QueueId) × Item q

/-- `db_queue_query` without a callback and a mutex -/
def dbQueueQuery (queryChainFunc : Option ChainFunc) : Call := ⟨.queryQ, ⟨false, queryChainFunc⟩⟩

/-- `LogPrint` -/
def logPrint : Call := ⟨.loggingQ, ()⟩

/-- What `cursesLogWrite`, `cursesMenuItemAdd` and their like put on `CursesQ`. -/
def cursesItem : Call := ⟨.cursesQ, ()⟩

/-- `db_update_nick` -/
def dbUpdateNick : Call := dbQueueQuery (some .chainUpdateNick)

/-- `db_nick_history` -/
def dbNickHistory : Call := dbQueueQuery none

/-- `db_add_logentry` -/
def dbAddLogentry : Call := dbQueueQuery none

/-- `chain_flush_nick`, with the number of rows whose channel is found. -/
def chainFlushNick (rows : ℕ) (newNick : Bool) : List Call :=
  (List.replicate rows ([dbUpdateNick, dbNickHistory] ++
    (if newNick then [dbUpdateNick, dbNickHistory] else []) ++ [dbAddLogentry])).flatten

/-- The calls a chain function makes. -/
def ChainFunc.calls (rows : ℕ) (newNick : Bool) : ChainFunc → List Call
  | .chainUpdateNick | .chainSetSetting | .chainSetAuth => [dbQueueQuery none]
  | .chainFlushNick => Consumers.chainFlushNick rows newNick

/-- What decides on the calls made while a query is handled: what the session with
the server reports, whether there is a result, what the callback does, and the
rows and the new nick that `chain_flush_nick` finds. -/
structure QueryOutcome where
  session : List Call
  answered : Bool
  callback : List Call
  rows : ℕ
  newNick : Bool

/-- The calls of one turn of `mysql_thread`. -/
def mysqlThread (item : QueryItem) (o : QueryOutcome) : List Call :=
  o.session ++
    if o.answered then
      if item.queryCallback then o.callback
      else match item.queryChainFunc with
        | some queryChainFunc => queryChainFunc.calls o.rows o.newNick
        | none => []
    else []

/-- `LogFileType_t` -/
inductive LogFileType
  | console
  | file
  | syslog
  | ncurses
deriving DecidableEq, Repr

/-- `LogWrite` on an output that is not aborted, given whether the `write` fails. -/
def logWrite (fails : Bool) : List Call := if fails then [logPrint] else []

/-- The calls of `LogItemOutput` over the list of log outputs, each with whether
writing to it fails. -/
def logItemOutput (outputs : List (LogFileType × Bool)) : List Call :=
  outputs.flatMap fun output ↦
    match output.1 with
    | .syslog => []
    | .console | .file => logWrite output.2
    | .ncurses => [cursesItem]

/-- What the outside decides while a thread handles an item.  The menus and forms
of `curses_output_thread` can make any calls. -/
def Outcome : QueueId → Type
  | .queryQ => QueryOutcome
  | .loggingQ => List (LogFileType × Bool)
  | .cursesQ => List Call

/-- The calls a thread makes while it handles an item. -/
def handle : (c : QueueId) → Item c → Outcome c → List Call
  | .queryQ, item, o => mysqlThread item o
  | .loggingQ, _, outputs => logItemOutput outputs
  | .cursesQ, _, calls => calls

/-- The calls a thread makes before its loop. -/
def startCalls : QueueId → List Call
  | .queryQ => [logPrint, cursesItem]
  | .loggingQ => [logPrint]
  | .cursesQ => [logPrint]

/-- The sizes given to `QueueCreate`. -/
def queueSize : QueueId → ℕ
  | .queryQ => 1024
  | .loggingQ => 1024
  | .cursesQ => 2048

/-! ## Steps -/

/-- The call a thread waits in, and the calls it makes before it reads its queue
again. -/
structure Consumer where
  calling : Option Call
  work : List Call

structure State where
  queues : (q : QueueId) → QueueObject (Item q)
  threads : QueueId → Consumer

/-- `produce` is a completed call of another thread.  `take` reads the next item,
`call` begins the next call and completes it unless the queue is full, `resume`
completes a call that has waited. -/
inductive Event
  | produce (call : Call)
  | take (c : QueueId) (o : Outcome c)
  | call (c : QueueId)
  | resume (c : QueueId)

namespace State

/-- A completed call, `none` where it has to wait. -/
def enqueue (s : State) (call : Call) : Option State :=
  (queueEnqueueItem (s.queues call.1) (some call.2)).map fun r ↦
    { s with queues := Function.update s.queues call.1 r.1 }

def setThread (s : State) (c : QueueId) (thread : Consumer) : State :=
  { s with threads := Function.update s.threads c thread }

@[simp] theorem queues_setThread (s : State) (c : QueueId) (thread : Consumer) :
    (s.setThread c thread).queues = s.queues := rfl

@[simp] theorem threads_setThread (s : State) (c : QueueId) (thread : Consumer) :
    (s.setThread c thread).threads = Function.update s.threads c thread := rfl

end State

/-- One step of a thread. -/
def step (s : State) : Event → Option State
  | .produce call => s.enqueue call
  | .take c o =>
      match (s.threads c).calling, (s.threads c).work with
      | none, [] => do
          let (queue, _, item) ← queueDequeueItem (s.queues c)
          let s := { s with queues := Function.update s.queues c queue }
          some (s.setThread c ⟨none, (item.map (handle c · o)).getD []⟩)
      | _, _ => none
  | .call c =>
      match (s.threads c).calling, (s.threads c).work with
      | none, call :: work =>
          match s.enqueue call with
          | some s => some (s.setThread c ⟨none, work⟩)
          | none => some (s.setThread c ⟨some call, work⟩)
      | _, _ => none
  | .resume c =>
      match (s.threads c).calling with
      | some call => (s.enqueue call).map (·.setThread c ⟨none, (s.threads c).work⟩)
      | none => none

/-- The three queues with their threads from the start of the program on. -/
def system : System State Event where
  init s := (∀ q, queueCreate (queueSize q) = some (s.queues q)) ∧
    s.threads = fun c ↦ ⟨none, startCalls c⟩
  step := step

/-- The queue a thread has begun to wait for. -/
def waitsFor (s : State) (c : QueueId) : Option QueueId :=
  (s.threads c).calling.map (·.1)

/-- The queue a thread is blocked on: it waits for room, and there is none. -/
def blockedOn (s : State) (c : QueueId) : Option QueueId :=
  (waitsFor s c).filter fun q ↦ (s.queues q).full

/-- No thread begins to wait for a queue whose reader waits, directly or through
others, for the queue of that thread. -/
def NoCircle (s : State) : Event → Prop
  | .call c => ∀ call work, s.threads c = ⟨none, call :: work⟩ →
      (s.queues call.1).full = true → ¬ LeadsTo (waitsFor s) call.1 c
  | _ => True

/-! ## The queues -/

/-- Every queue is well formed. -/
def QueuesHold (s : State) : Prop := ∀ q, ∃ pending, Holds (s.queues q) pending

theorem queuesHold_init {s : State} (h : system.init s) : QueuesHold s := by
  intro q
  have hsize : 2 ≤ queueSize q ∧ queueSize q ≤ 2 ^ 31 := by
    cases q <;> simp [queueSize]
  obtain ⟨queue, hc, hwf, hu, -, -, hle, -⟩ :=
    queueCreate_spec (α := Item q) (Nat.le_trans (by omega) hsize.1) hsize.2
  obtain rfl : queue = s.queues q := Option.some.inj (hc.symm.trans (h.1 q))
  exact ⟨[], hwf, Nat.le_trans hsize.1 hle, by rw [hu]; rfl, by rw [hu]; rfl⟩

theorem queuesHold_update {s : State} {q : QueueId} {queue : QueueObject (Item q)}
    {pending : List (Item q)} (h : QueuesHold s) (hq : Holds queue pending) :
    QueuesHold { s with queues := Function.update s.queues q queue } := by
  intro q'
  by_cases hq' : q' = q
  · subst hq'
    refine ⟨pending, ?_⟩
    simpa only [Function.update_self] using hq
  · obtain ⟨pending', h'⟩ := h q'
    refine ⟨pending', ?_⟩
    simpa only [Function.update_of_ne hq'] using h'

/-- A call completes exactly if its queue is not full, and is about that queue only. -/
theorem enqueue_cases (s : State) (call : Call) :
    (s.queues call.1).full = true ∧ s.enqueue call = none ∨
    (s.queues call.1).full = false ∧ s.enqueue call = some { s with
      queues := Function.update s.queues call.1 (insertItem (s.queues call.1) call.2).1 } := by
  cases hf : (s.queues call.1).full with
  | true => exact .inl ⟨rfl, by simp [State.enqueue, queueEnqueueItem, hf]⟩
  | false => exact .inr ⟨rfl, by simp [State.enqueue, queueEnqueueItem, hf]⟩

theorem enqueue_threads {s s' : State} {call : Call} (he : s.enqueue call = some s') :
    s'.threads = s.threads := by
  obtain ⟨-, h⟩ | ⟨-, h⟩ := enqueue_cases s call <;> rw [h] at he <;> cases he
  rfl

theorem enqueue_queuesHold {s s' : State} {call : Call} (h : QueuesHold s)
    (he : s.enqueue call = some s') : QueuesHold s' := by
  obtain ⟨-, hn⟩ | ⟨hf, hs⟩ := enqueue_cases s call
  · rw [hn] at he
    cases he
  · rw [hs] at he
    cases he
    obtain ⟨pending, hp⟩ := h call.1
    exact queuesHold_update h (hp.insertItem hf call.2)

/-! ## What a step does -/

/-- A thread that finds the queue full begins to wait. -/
theorem step_call_full {s : State} {c : QueueId} {call : Call} {work : List Call}
    (h : s.threads c = ⟨none, call :: work⟩) (hf : (s.queues call.1).full = true) :
    step s (.call c) = some (s.setThread c ⟨some call, work⟩) := by
  have hnone : s.enqueue call = none := by simp [State.enqueue, queueEnqueueItem, hf]
  simp [step, h, hnone]

/-- The threads after a step: who begins to wait, who has ended its wait, and who
goes on without one. -/
theorem step_cases {s s' : State} {e : Event} (he : step s e = some s') :
    (∃ call, e = .produce call ∧ s.enqueue call = some s') ∨
    (∃ c o item queue signals, e = .take c o ∧ waitsFor s c = none ∧
      queueDequeueItem (s.queues c) = some (queue, signals, item) ∧
      s' = { s with queues := Function.update s.queues c queue }.setThread c
        ⟨none, (item.map (handle c · o)).getD []⟩) ∨
    (∃ c call work s₁, e = .call c ∧ s.threads c = ⟨none, call :: work⟩ ∧
      s.enqueue call = some s₁ ∧ s' = s₁.setThread c ⟨none, work⟩) ∨
    (∃ c call work, e = .call c ∧ s.threads c = ⟨none, call :: work⟩ ∧
      (s.queues call.1).full = true ∧ s' = s.setThread c ⟨some call, work⟩) ∨
    (∃ c call s₁, e = .resume c ∧ (s.threads c).calling = some call ∧
      s.enqueue call = some s₁ ∧ s' = s₁.setThread c ⟨none, (s.threads c).work⟩) := by
  cases e with
  | produce call => exact .inl ⟨call, rfl, he⟩
  | take c o =>
      refine .inr (.inl ?_)
      simp only [step] at he
      split at he
      · rename_i hcalling _
        obtain ⟨⟨queue, signals, item⟩, hq, he⟩ := Option.bind_eq_some_iff.mp he
        exact ⟨c, o, item, queue, signals, rfl, by rw [waitsFor, hcalling]; rfl, hq,
          (Option.some.inj he).symm⟩
      · cases he
  | call c =>
      refine .inr (.inr ?_)
      simp only [step] at he
      split at he
      · rename_i call work hcalling hwork
        have hthread : s.threads c = ⟨none, call :: work⟩ := by
          rw [← hcalling, ← hwork]
        split at he
        · rename_i s₁ hs₁
          exact .inl ⟨c, call, work, s₁, rfl, hthread, hs₁, (Option.some.inj he).symm⟩
        · rename_i hnone
          refine .inr (.inl ⟨c, call, work, rfl, hthread, ?_, (Option.some.inj he).symm⟩)
          obtain ⟨hf, -⟩ | ⟨-, hs⟩ := enqueue_cases s call
          · exact hf
          · rw [hs] at hnone
            cases hnone
      · cases he
  | resume c =>
      refine .inr (.inr (.inr (.inr ?_)))
      simp only [step] at he
      split at he
      · rename_i call hcalling
        obtain ⟨s₁, hs₁, rfl⟩ := Option.map_eq_some_iff.mp he
        exact ⟨c, call, s₁, rfl, hcalling, hs₁, rfl⟩
      · cases he

theorem waitsFor_setThread (s : State) (c : QueueId) (thread : Consumer) :
    waitsFor (s.setThread c thread) =
      Function.update (waitsFor s) c (thread.calling.map (·.1)) := by
  funext c'
  by_cases h : c' = c
  · subst h
    simp [waitsFor]
  · simp [waitsFor, h]

theorem waitsFor_congr {s s' : State} (h : s'.threads = s.threads) : waitsFor s' = waitsFor s := by
  funext c
  rw [waitsFor, waitsFor, h]

theorem step_queuesHold {s s' : State} {e : Event} (h : QueuesHold s) (he : step s e = some s') :
    QueuesHold s' := by
  obtain ⟨call, -, hs⟩ | ⟨c, o, item, queue, signals, -, -, hq, rfl⟩ |
    ⟨c, call, work, s₁, -, -, hs, rfl⟩ | ⟨c, call, work, -, -, -, rfl⟩ |
    ⟨c, call, s₁, -, -, hs, rfl⟩ := step_cases he
  · exact enqueue_queuesHold h hs
  · cases hem : (s.queues c).empty with
    | true => simp [queueDequeueItem, hem] at hq
    | false =>
        obtain ⟨pending, hp⟩ := h c
        obtain ⟨x, rest, -, -, hrest⟩ := hp.removeItem hem
        simp only [queueDequeueItem, hem, Bool.false_eq_true, if_false, Option.some.injEq] at hq
        rw [hq] at hrest
        exact queuesHold_update h hrest
  · exact show QueuesHold s₁ from enqueue_queuesHold h hs
  · exact h
  · exact show QueuesHold s₁ from enqueue_queuesHold h hs

/-- Only a call that finds its queue full adds an edge. -/
theorem step_knotFree {s s' : State} {e : Event} (h : KnotFree (waitsFor s)) (hc : NoCircle s e)
    (he : step s e = some s') : KnotFree (waitsFor s') := by
  obtain ⟨call, -, hs⟩ | ⟨c, o, item, queue, signals, -, -, -, rfl⟩ |
    ⟨c, call, work, s₁, -, -, hs, rfl⟩ | ⟨c, call, work, rfl, hthread, hfull, rfl⟩ |
    ⟨c, call, s₁, -, -, hs, rfl⟩ := step_cases he
  · rwa [waitsFor_congr (enqueue_threads hs)]
  · rw [waitsFor_setThread]
    exact KnotFree.release h c
  · rw [waitsFor_setThread, waitsFor_congr (enqueue_threads hs)]
    exact h.release c
  · rw [waitsFor_setThread]
    exact h.update (hc call work hthread hfull)
  · rw [waitsFor_setThread, waitsFor_congr (enqueue_threads hs)]
    exact h.release c

/-! ## Runs -/

theorem reachable_queuesHold {s : State} (h : system.Reachable s) : QueuesHold s :=
  h.invariant (fun _ ↦ queuesHold_init) fun _ _ _ ↦ step_queuesHold

theorem reachableVia_knotFree {s : State} (h : system.ReachableVia NoCircle s) :
    KnotFree (waitsFor s) := by
  refine h.invariant ?_ fun _ _ _ ↦ step_knotFree
  rintro s ⟨-, hthreads⟩
  refine knotFree_of_idle fun c ↦ ?_
  rw [waitsFor, hthreads]
  rfl

/-- Whoever is blocked has begun to wait. -/
theorem waitsFor_of_blockedOn {s : State} {c q : QueueId} (h : blockedOn s c = some q) :
    waitsFor s c = some q :=
  (Option.filter_eq_some_iff.mp h).1

/-- The producers can fill a queue whatever the threads do. -/
theorem exists_fill (q : QueueId) (item : Item q) {s : State} (h : QueuesHold s) :
    ∃ es s', system.run s es = some s' ∧ s'.threads = s.threads ∧
      (s'.queues q).full = true ∧ ∀ q', q' ≠ q → s'.queues q' = s.queues q' := by
  obtain ⟨pending, hp⟩ := h q
  obtain ⟨room, hroom⟩ : ∃ room, pending.length + room = (s.queues q).numElements - 1 := by
    have hlt := hp.wellFormed.used_lt
    have hlen := hp.length_eq
    exact ⟨(s.queues q).numElements - 1 - pending.length, by omega⟩
  induction room generalizing s pending with
  | zero => exact ⟨[], s, rfl, rfl, hp.full_iff.mpr hroom, fun _ _ ↦ rfl⟩
  | succ room ih =>
      obtain ⟨hf, -⟩ | ⟨hf, hs⟩ := enqueue_cases s ⟨q, item⟩
      · exact ⟨[], s, rfl, rfl, hf, fun _ _ ↦ rfl⟩
      · -- one more item, and the rest of the room after it
        let s₁ : State :=
          { s with queues := Function.update s.queues q (insertItem (s.queues q) item).1 }
        have hq₁ : s₁.queues q = (insertItem (s.queues q) item).1 := Function.update_self ..
        have hp₁ : Holds (s₁.queues q) (pending ++ [item]) := hq₁ ▸ hp.insertItem hf item
        have hroom₁ : (pending ++ [item]).length + room = (s₁.queues q).numElements - 1 := by
          have hnum : (s₁.queues q).numElements = (s.queues q).numElements := by rw [hq₁]; rfl
          rw [hnum, ← hroom, List.length_append, List.length_singleton]
          omega
        obtain ⟨es, s', hrun, hthreads, hfull, hother⟩ :=
          ih (enqueue_queuesHold h hs) (pending ++ [item]) hp₁ hroom₁
        refine ⟨.produce ⟨q, item⟩ :: es, s', ?_, hthreads, hfull, ?_⟩
        · rw [System.run_cons, show system.step s (.produce ⟨q, item⟩) = some s₁ from hs]
          exact hrun
        · intro q' hq'
          rw [hother q' hq']
          exact Function.update_of_ne hq' ..

/-- Some item of each queue. -/
def someItem : (q : QueueId) → Item q
  | .queryQ => ⟨false, some .chainUpdateNick⟩
  | .loggingQ => ()
  | .cursesQ => ()

theorem exists_fill_all {s : State} (hs : system.Reachable s) :
    ∃ es s', system.run s es = some s' ∧ s'.threads = s.threads ∧
      ∀ q, (s'.queues q).full = true := by
  obtain ⟨es₁, s₁, hrun₁, hthreads₁, hfull₁, -⟩ :=
    exists_fill .queryQ (someItem _) (reachable_queuesHold hs)
  have hs₁ := System.reachable_run hs hrun₁
  obtain ⟨es₂, s₂, hrun₂, hthreads₂, hfull₂, hother₂⟩ :=
    exists_fill .loggingQ (someItem _) (reachable_queuesHold hs₁)
  have hs₂ := System.reachable_run hs₁ hrun₂
  obtain ⟨es₃, s₃, hrun₃, hthreads₃, hfull₃, hother₃⟩ :=
    exists_fill .cursesQ (someItem _) (reachable_queuesHold hs₂)
  refine ⟨es₁ ++ (es₂ ++ es₃), s₃, ?_, hthreads₃.trans (hthreads₂.trans hthreads₁), ?_⟩
  · rw [System.run_append, hrun₁, Option.bind_some, System.run_append, hrun₂, Option.bind_some,
      hrun₃]
  · intro q
    cases q with
    | queryQ => rw [hother₃ _ (by decide), hother₂ _ (by decide), hfull₁]
    | loggingQ => rw [hother₃ _ (by decide), hfull₂]
    | cursesQ => exact hfull₃

/-- Where every queue is full, whoever has begun to wait is blocked. -/
theorem blockedOn_of_full {s : State} (h : ∀ q, (s.queues q).full = true) :
    blockedOn s = waitsFor s := by
  funext c
  rw [blockedOn]
  cases waitsFor s c with
  | none => rfl
  | some q => rw [Option.filter_some, h q, if_pos rfl]

/-- A call that closes a circle can end in a deadlock: the producers fill the queues
before anybody of the circle wakes up. -/
theorem exists_knot_of_circle {s s' : State} {e : Event} (hs : system.Reachable s)
    (hc : ¬ NoCircle s e) (he : system.step s e = some s') :
    ∃ es s'', system.run s' es = some s'' ∧ ∃ S, Knot (blockedOn s'') S := by
  have hknot : ∃ S, Knot (waitsFor s') S := by
    cases e with
    | call c =>
        simp only [NoCircle] at hc
        push Not at hc
        obtain ⟨call, work, hthread, hfull, hq⟩ := hc
        have hstep : system.step s (.call c) = _ := step_call_full hthread hfull
        rw [he, Option.some.injEq] at hstep
        rw [hstep, waitsFor_setThread]
        exact knot_update hq
    | produce call => exact absurd trivial hc
    | take c o => exact absurd trivial hc
    | resume c => exact absurd trivial hc
  obtain ⟨es, s'', hrun, hthreads, hfull⟩ := exists_fill_all (hs.step he)
  refine ⟨es, s'', hrun, ?_⟩
  rwa [blockedOn_of_full hfull, waitsFor_congr hthreads]

/-- The state the program starts in. -/
def start : State where
  queues q := (queueCreate (queueSize q)).getD
    { numElements := 0, numMask := 0, head := 0, tail := 0, itemTable := fun _ ↦ none,
      full := false, empty := false }
  threads c := ⟨none, startCalls c⟩

theorem init_start : system.init start := by
  refine ⟨fun q ↦ ?_, rfl⟩
  cases q <;> rfl

end Beirdobot.Queue.Consumers
