import Beirdobot.Queue.Fifo

/-!
# Producer and consumer threads

Any number of threads that put items on one queue and take items from it without
a timeout.  What a thread does with the mutex held is one step.  A thread that
waits releases the mutex and is parked on its condition variable; a signal moves
one parked thread to those that are on their way back to the mutex.
-/

namespace Beirdobot.Queue

open Library

variable {ι α : Type}

/-- A queue and the threads that wait for it.  A producer brings its item along.
`stopping` says that `GlobalAbort` is set and that the queue is neither
`LoggingQ` nor `QueryQ`. -/
structure Threads (ι α : Type) where
  queue : QueueObject α
  parkedProducers : List (ι × α)
  wokenProducers : List (ι × α)
  parkedConsumers : List ι
  wokenConsumers : List ι
  stopping : Bool

/-- The thread is inside one of the two functions. -/
def Threads.Busy (s : Threads ι α) (t : ι) : Prop :=
  t ∈ s.parkedProducers.map Prod.fst ∨ t ∈ s.wokenProducers.map Prod.fst ∨
    t ∈ s.parkedConsumers ∨ t ∈ s.wokenConsumers

instance [DecidableEq ι] (s : Threads ι α) (t : ι) : Decidable (s.Busy t) :=
  inferInstanceAs (Decidable (_ ∨ _ ∨ _ ∨ _))

/-- `pthread_cond_signal`: if threads are parked, the one at position `pick` is
woken. -/
def condSignal {β : Type} (send : Bool) (pick : ℕ) (parked woken : List β) :
    Option (List β × List β) :=
  if send = true ∧ parked ≠ [] then
    match parked[pick]? with
    | none => none
    | some t => some (parked.eraseIdx pick, woken ++ [t])
  else some (parked, woken)

/-- The signals of `QueueConditionUpdate` reach the parked threads. -/
def Threads.signal (s : Threads ι α) (signals : Signals) (pick : ℕ) : Option (Threads ι α) := do
  let (parkedProducers, wokenProducers) ←
    condSignal signals.cNotFull pick s.parkedProducers s.wokenProducers
  let (parkedConsumers, wokenConsumers) ←
    condSignal signals.cNotEmpty pick s.parkedConsumers s.wokenConsumers
  some { s with parkedProducers, wokenProducers, parkedConsumers, wokenConsumers }

/-- A turn of a producer that holds the mutex: it waits, or puts its item on the
queue and is done. -/
def Threads.produce (s : Threads ι α) (t : ι) (item : α) (pick : ℕ) : Option (Threads ι α) :=
  match queueEnqueueItem s.queue (some item) with
  | none => some { s with parkedProducers := s.parkedProducers ++ [(t, item)] }
  | some (queue, signals, _) => { s with queue }.signal signals pick

/-- A turn of a consumer that holds the mutex. -/
def Threads.consume (s : Threads ι α) (t : ι) (pick : ℕ) : Option (Threads ι α) :=
  match queueDequeueItem s.queue with
  | none => some { s with parkedConsumers := s.parkedConsumers ++ [t] }
  | some (queue, signals, _) => { s with queue }.signal signals pick

/-- The steps of the threads.  `k` is the position of a thread among the woken
ones, `pick` that of the thread the system wakes if a signal is sent. -/
inductive Event (ι α : Type)
  | enqueue (t : ι) (item : α) (pick : ℕ)
  | producerResumes (k pick : ℕ)
  | dequeue (t : ι) (pick : ℕ)
  | consumerResumes (k pick : ℕ)
  | stop

/-- The runs of the threads on a queue created for `n` elements. -/
def threads (ι α : Type) [DecidableEq ι] (n : ℕ) : System (Threads ι α) (Event ι α) where
  init s := queueCreate n = some s.queue ∧ s.parkedProducers = [] ∧ s.wokenProducers = [] ∧
    s.parkedConsumers = [] ∧ s.wokenConsumers = [] ∧ s.stopping = false
  step s
    | .enqueue t item pick => if s.Busy t then none else s.produce t item pick
    | .producerResumes k pick => do
        let (t, item) ← s.wokenProducers[k]?
        { s with wokenProducers := s.wokenProducers.eraseIdx k }.produce t item pick
    | .dequeue t pick => if s.Busy t then none else s.consume t pick
    | .consumerResumes k pick => do
        let t ← s.wokenConsumers[k]?
        let s := { s with wokenConsumers := s.wokenConsumers.eraseIdx k }
        -- a consumer that is woken while the program stops leaves without an item
        if s.stopping then some s else s.consume t pick
    | .stop => some { s with stopping := true }

/-- No producer is left parked while there is room, and no consumer while there
is an item, unless another one is on its way. -/
structure NoLostWakeup (s : Threads ι α) : Prop where
  producers : s.parkedProducers ≠ [] → s.queue.full = false → s.wokenProducers ≠ []
  consumers : s.parkedConsumers ≠ [] → s.queue.empty = false → s.wokenConsumers ≠ []

/-- A woken thread does not leave others behind.  The last woken producer finds
no room or fills the queue, and the last woken consumer takes the last item, or
no other thread is parked. -/
def LeavesNoneBehind (s : Threads ι α) : Event ι α → Prop
  | .producerResumes _ _ => s.parkedProducers = [] ∨ s.wokenProducers.length ≠ 1 ∨
      s.queue.numElements ≤ queueUsed s.queue + 2
  | .consumerResumes _ _ => s.parkedConsumers = [] ∨ s.wokenConsumers.length ≠ 1 ∨
      queueUsed s.queue = 0 ∨ (s.stopping = false ∧ queueUsed s.queue = 1)
  | _ => True

/-! ## What a turn does -/

/-- A signal that finds a thread parked puts one on its way. -/
theorem condSignal_spec {β : Type} {send : Bool} {pick : ℕ} {parked woken p w : List β}
    (h : condSignal send pick parked woken = some (p, w)) :
    (send = false → p = parked ∧ w = woken) ∧ (send = true → p ≠ [] → w ≠ []) ∧
      (parked = [] → p = []) := by
  unfold condSignal at h
  split at h
  · rename_i hs
    split at h
    · cases h
    · cases h
      refine ⟨?_, ?_, ?_⟩
      · intro hf
        rw [hs.1] at hf
        cases hf
      · intro _ _
        simp
      · intro hp
        exact absurd hp hs.2
  · rename_i hs
    cases h
    refine ⟨fun _ ↦ ⟨rfl, rfl⟩, ?_, id⟩
    intro hsend hp
    exact absurd ⟨hsend, hp⟩ hs

/-- The signals reach the parked threads, and nothing else changes. -/
theorem Threads.signal_spec {s s' : Threads ι α} {signals : Signals} {pick : ℕ}
    (h : s.signal signals pick = some s') :
    s'.queue = s.queue ∧
      condSignal signals.cNotFull pick s.parkedProducers s.wokenProducers =
        some (s'.parkedProducers, s'.wokenProducers) ∧
      condSignal signals.cNotEmpty pick s.parkedConsumers s.wokenConsumers =
        some (s'.parkedConsumers, s'.wokenConsumers) := by
  simp only [signal, Option.bind_eq_bind, Option.bind_eq_some_iff] at h
  obtain ⟨⟨pp, wp⟩, hp, ⟨pc, wc⟩, hc, he⟩ := h
  cases he
  exact ⟨rfl, hp, hc⟩

/-- A signal is sent when its flag is cleared. -/
theorem queueConditionUpdate_signals (q : QueueObject α) :
    (queueConditionUpdate q).2 =
      ⟨q.full && !(queueConditionUpdate q).1.full, q.empty && !(queueConditionUpdate q).1.empty⟩ := by
  cases hf : q.full <;> cases he : q.empty <;>
    simp only [queueConditionUpdate, hf, he] <;> split <;> simp

theorem insertItem_signals {q : QueueObject α} (hf : q.full = false) (x : α) :
    (insertItem q x).2 = ⟨false, q.empty && !(insertItem q x).1.empty⟩ := by
  rw [insertItem, queueConditionUpdate_signals, hf]
  rfl

theorem removeItem_signals {q : QueueObject α} (he : q.empty = false) :
    (removeItem q).2.1 = ⟨q.full && !(removeItem q).1.full, false⟩ := by
  have h : (removeItem q).2.1 =
      ⟨q.full && !(removeItem q).1.full, q.empty && !(removeItem q).1.empty⟩ :=
    queueConditionUpdate_signals _
  rw [h, he]
  rfl

/-- A producer waits when the queue is full, else its item is inserted. -/
theorem Threads.produce_cases {s s' : Threads ι α} {t : ι} {x : α} {pick : ℕ}
    (h : s.produce t x pick = some s') :
    (s.queue.full = true ∧ s' = { s with parkedProducers := s.parkedProducers ++ [(t, x)] }) ∨
      (s.queue.full = false ∧
        { s with queue := (insertItem s.queue x).1 }.signal (insertItem s.queue x).2 pick =
          some s') := by
  unfold produce queueEnqueueItem at h
  cases hf : s.queue.full with
  | true =>
      simp only [hf, if_true, Option.some.injEq] at h
      exact .inl ⟨rfl, h.symm⟩
  | false =>
      simp only [hf, Bool.false_eq_true, if_false] at h
      exact .inr ⟨rfl, h⟩

/-- A consumer waits when the queue is empty, else an item is removed. -/
theorem Threads.consume_cases {s s' : Threads ι α} {t : ι} {pick : ℕ}
    (h : s.consume t pick = some s') :
    (s.queue.empty = true ∧ s' = { s with parkedConsumers := s.parkedConsumers ++ [t] }) ∨
      (s.queue.empty = false ∧
        { s with queue := (removeItem s.queue).1 }.signal (removeItem s.queue).2.1 pick =
          some s') := by
  unfold consume queueDequeueItem at h
  cases he : s.queue.empty with
  | true =>
      simp only [he, if_true, Option.some.injEq] at h
      exact .inl ⟨rfl, h.symm⟩
  | false =>
      simp only [he, Bool.false_eq_true, if_false] at h
      exact .inr ⟨rfl, h⟩

/-- What holds of every reachable queue and its threads, lost wake-ups or not: a
queue of one slot is never full, so that no producer is parked there. -/
structure Sound (s : Threads ι α) : Prop where
  wellFormed : WellFormed s.queue
  one : s.queue.numElements = 1 → s.parkedProducers = []

theorem Sound.signal {s s' : Threads ι α} {signals : Signals} {pick : ℕ} (hs : Sound s)
    (h : s.signal signals pick = some s') : Sound s' := by
  obtain ⟨hq, hp, -⟩ := Threads.signal_spec h
  refine ⟨hq ▸ hs.wellFormed, ?_⟩
  intro h1
  rw [hq] at h1
  exact (condSignal_spec hp).2.2 (hs.one h1)

theorem Sound.produce {s s' : Threads ι α} {t : ι} {x : α} {pick : ℕ} (hs : Sound s)
    (h : s.produce t x pick = some s') : Sound s' := by
  rcases Threads.produce_cases h with ⟨hf, rfl⟩ | ⟨-, h⟩
  · refine ⟨hs.wellFormed, ?_⟩
    intro h1
    have hlt := hs.wellFormed.used_lt
    have hu := hs.wellFormed.full_iff_used.mp hf
    change s.queue.numElements = 1 at h1
    omega
  · exact Sound.signal (s := { s with queue := (insertItem s.queue x).1 })
      ⟨hs.wellFormed.insertItem x, hs.one⟩ h

theorem Sound.consume {s s' : Threads ι α} {t : ι} {pick : ℕ} (hs : Sound s)
    (h : s.consume t pick = some s') : Sound s' := by
  rcases Threads.consume_cases h with ⟨-, rfl⟩ | ⟨-, h⟩
  · exact ⟨hs.wellFormed, hs.one⟩
  · exact Sound.signal (s := { s with queue := (removeItem s.queue).1 })
      ⟨hs.wellFormed.removeItem, hs.one⟩ h

/-- An inserting producer loses no wake-up if the others are on their way or the
queue is full afterwards: the consumers get a signal when they may need one. -/
theorem NoLostWakeup.produce {s s' : Threads ι α} {t : ι} {x : α} {pick : ℕ}
    (hp : s.queue.full = false → s.parkedProducers ≠ [] →
      (insertItem s.queue x).1.full = false → s.wokenProducers ≠ [])
    (hc : s.parkedConsumers ≠ [] → s.queue.empty = false → s.wokenConsumers ≠ [])
    (h : s.produce t x pick = some s') : NoLostWakeup s' := by
  rcases Threads.produce_cases h with ⟨hf, rfl⟩ | ⟨hf, h⟩
  · refine ⟨?_, hc⟩
    intro _ hf'
    rw [hf] at hf'
    cases hf'
  · obtain ⟨hq, hsp, hsc⟩ := Threads.signal_spec h
    rw [insertItem_signals hf] at hsp hsc
    obtain ⟨hpp, hwp⟩ := (condSignal_spec hsp).1 rfl
    constructor
    · rw [hpp, hwp, hq]
      exact hp hf
    · intro hpark he
      rw [hq] at he
      change (insertItem s.queue x).1.empty = false at he
      rw [he] at hsc
      cases hqe : s.queue.empty with
      | true => exact (condSignal_spec hsc).2.1 (by simp [hqe]) hpark
      | false =>
          obtain ⟨hpc, hwc⟩ := (condSignal_spec hsc).1 (by simp [hqe])
          rw [hpc] at hpark
          rw [hwc]
          exact hc hpark hqe

/-- The same for a consumer. -/
theorem NoLostWakeup.consume {s s' : Threads ι α} {t : ι} {pick : ℕ}
    (hp : s.parkedProducers ≠ [] → s.queue.full = false → s.wokenProducers ≠ [])
    (hc : s.queue.empty = false → s.parkedConsumers ≠ [] →
      (removeItem s.queue).1.empty = false → s.wokenConsumers ≠ [])
    (h : s.consume t pick = some s') : NoLostWakeup s' := by
  rcases Threads.consume_cases h with ⟨he, rfl⟩ | ⟨he, h⟩
  · refine ⟨hp, ?_⟩
    intro _ he'
    rw [he] at he'
    cases he'
  · obtain ⟨hq, hsp, hsc⟩ := Threads.signal_spec h
    rw [removeItem_signals he] at hsp hsc
    obtain ⟨hpc, hwc⟩ := (condSignal_spec hsc).1 rfl
    constructor
    · intro hpark hf
      rw [hq] at hf
      change (removeItem s.queue).1.full = false at hf
      rw [hf] at hsp
      cases hqf : s.queue.full with
      | true => exact (condSignal_spec hsp).2.1 (by simp [hqf]) hpark
      | false =>
          obtain ⟨hpp, hwp⟩ := (condSignal_spec hsp).1 (by simp [hqf])
          rw [hpp] at hpark
          rw [hwp]
          exact hp hpark hqf
    · rw [hpc, hwc, hq]
      exact hc he

/-! ## Runs -/

/-- There is room left after an insertion if there was room for two. -/
theorem WellFormed.full_insertItem {q : QueueObject α} (h : WellFormed q) (hf : q.full = false)
    (x : α) : (Queue.insertItem q x).1.full = true ↔ used q + 2 = q.numElements := by
  have hlt := h.used_lt
  have hq : ¬ (used q + 1 = q.numElements ∧ used q ≠ 0) := by
    rw [← h.full_iff_used, hf]
    simp
  rw [(h.insertItem x).full_iff_used, h.used_insertItem]
  show (_ + 1 = q.numElements ∧ _) ↔ _
  split <;> omega

/-- There is an item left after a removal if there were two. -/
theorem WellFormed.empty_removeItem {q : QueueObject α} (h : WellFormed q)
    (he : q.empty = false) : (Queue.removeItem q).1.empty = true ↔ used q = 1 := by
  have hq : used q ≠ 0 := by
    intro h0
    rw [h.empty_iff_used.mpr h0] at he
    cases he
  have hu := h.used_removeItem hq
  rw [h.removeItem.empty_iff_used]
  omega

/-- After the only element of a list is taken out none is left. -/
theorem eraseIdx_ne_nil {β : Type} {l : List β} {k : ℕ} (hk : k < l.length) :
    l.eraseIdx k ≠ [] ↔ l.length ≠ 1 := by
  have hlen := List.length_eraseIdx_of_lt hk
  rw [← List.length_pos_iff_ne_nil]
  omega

section Steps

variable [DecidableEq ι] {n : ℕ} {s s' : Threads ι α}

theorem Sound.step {e : Event ι α} (hs : Sound s) (h : (threads ι α n).step s e = some s') :
    Sound s' := by
  cases e with
  | enqueue t x pick =>
      simp only [threads] at h
      split at h
      · cases h
      · exact hs.produce h
  | producerResumes k pick =>
      simp only [threads, Option.bind_eq_bind, Option.bind_eq_some_iff] at h
      obtain ⟨⟨t, x⟩, -, h⟩ := h
      exact Sound.produce (s := { s with wokenProducers := s.wokenProducers.eraseIdx k })
        ⟨hs.wellFormed, hs.one⟩ h
  | dequeue t pick =>
      simp only [threads] at h
      split at h
      · cases h
      · exact hs.consume h
  | consumerResumes k pick =>
      simp only [threads, Option.bind_eq_bind, Option.bind_eq_some_iff] at h
      obtain ⟨t, -, h⟩ := h
      split at h
      · cases h
        exact ⟨hs.wellFormed, hs.one⟩
      · exact Sound.consume (s := { s with wokenConsumers := s.wokenConsumers.eraseIdx k })
          ⟨hs.wellFormed, hs.one⟩ h
  | stop =>
      cases h
      exact ⟨hs.wellFormed, hs.one⟩

/-- A step that leaves none behind loses no wake-up. -/
theorem NoLostWakeup.step {e : Event ι α} (hs : Sound s) (hn : NoLostWakeup s)
    (hg : LeavesNoneBehind s e) (h : (threads ι α n).step s e = some s') : NoLostWakeup s' := by
  have hwf := hs.wellFormed
  cases e with
  | enqueue t x pick =>
      simp only [threads] at h
      split at h
      · cases h
      · exact NoLostWakeup.produce (fun hf hp _ ↦ hn.producers hp hf) hn.consumers h
  | producerResumes k pick =>
      simp only [threads, Option.bind_eq_bind, Option.bind_eq_some_iff] at h
      obtain ⟨⟨t, x⟩, hk, h⟩ := h
      obtain ⟨hk, -⟩ := List.getElem?_eq_some_iff.mp hk
      refine NoLostWakeup.produce (s := { s with wokenProducers := s.wokenProducers.eraseIdx k })
        ?_ hn.consumers h
      intro hf hp hf'
      change s.queue.full = false at hf
      change s.parkedProducers ≠ [] at hp
      change (insertItem s.queue x).1.full = false at hf'
      show s.wokenProducers.eraseIdx k ≠ []
      rw [eraseIdx_ne_nil hk]
      rcases hg with hg | hg | hg
      · exact absurd hg hp
      · exact hg
      · have hlt := hwf.used_lt
        have hne : used s.queue + 2 ≠ s.queue.numElements := by
          intro hu
          rw [(hwf.full_insertItem hf x).mpr hu] at hf'
          cases hf'
        have hfull : ¬ (used s.queue + 1 = s.queue.numElements ∧ used s.queue ≠ 0) := by
          rw [← hwf.full_iff_used, hf]
          simp
        rw [hwf.queueUsed_eq] at hg
        exact absurd (hs.one (by omega)) hp
  | dequeue t pick =>
      simp only [threads] at h
      split at h
      · cases h
      · exact NoLostWakeup.consume hn.producers (fun he hp _ ↦ hn.consumers hp he) h
  | consumerResumes k pick =>
      simp only [threads, Option.bind_eq_bind, Option.bind_eq_some_iff] at h
      obtain ⟨t, hk, h⟩ := h
      obtain ⟨hk, -⟩ := List.getElem?_eq_some_iff.mp hk
      rw [LeavesNoneBehind, hwf.queueUsed_eq] at hg
      split at h
      · rename_i hstop
        cases h
        refine ⟨hn.producers, ?_⟩
        intro hp he
        change s.queue.empty = false at he
        show s.wokenConsumers.eraseIdx k ≠ []
        rw [eraseIdx_ne_nil hk]
        rcases hg with hg | hg | hg | ⟨hg, -⟩
        · exact absurd hg hp
        · exact hg
        · rw [hwf.empty_iff_used.mpr hg] at he
          cases he
        · rw [hstop] at hg
          cases hg
      · refine NoLostWakeup.consume (s := { s with wokenConsumers := s.wokenConsumers.eraseIdx k })
          hn.producers ?_ h
        intro he hp he'
        change s.queue.empty = false at he
        change (removeItem s.queue).1.empty = false at he'
        show s.wokenConsumers.eraseIdx k ≠ []
        rw [eraseIdx_ne_nil hk]
        rcases hg with hg | hg | hg | ⟨-, hg⟩
        · exact absurd hg hp
        · exact hg
        · rw [hwf.empty_iff_used.mpr hg] at he
          cases he
        · rw [(hwf.empty_removeItem he).mpr hg] at he'
          cases he'
  | stop =>
      cases h
      exact ⟨hn.producers, hn.consumers⟩

/-- A step that loses no wake-up leaves none behind. -/
theorem LeavesNoneBehind.of_step {e : Event ι α} (hs : Sound s)
    (h : (threads ι α n).step s e = some s') (hn : NoLostWakeup s') : LeavesNoneBehind s e := by
  have hwf := hs.wellFormed
  cases e with
  | producerResumes k pick =>
      simp only [threads, Option.bind_eq_bind, Option.bind_eq_some_iff] at h
      obtain ⟨⟨t, x⟩, hk, h⟩ := h
      obtain ⟨hk, -⟩ := List.getElem?_eq_some_iff.mp hk
      by_contra hg
      simp only [LeavesNoneBehind, not_or, not_not, not_le, hwf.queueUsed_eq] at hg
      obtain ⟨hp, hlen, hroom⟩ := hg
      rcases Threads.produce_cases h with ⟨hf, -⟩ | ⟨hf, h⟩
      · have hu := hwf.full_iff_used.mp hf
        omega
      · change s.queue.full = false at hf
        obtain ⟨hq, hsp, -⟩ := Threads.signal_spec h
        rw [insertItem_signals hf] at hsp
        obtain ⟨hpp, hwp⟩ := (condSignal_spec hsp).1 rfl
        have hf' : (insertItem s.queue x).1.full = false := by
          rw [Bool.eq_false_iff, Ne, hwf.full_insertItem hf]
          omega
        change s'.queue = (insertItem s.queue x).1 at hq
        change s'.parkedProducers = s.parkedProducers at hpp
        change s'.wokenProducers = s.wokenProducers.eraseIdx k at hwp
        have hw := hn.producers (by rwa [hpp]) (by rwa [hq])
        rw [hwp] at hw
        exact (eraseIdx_ne_nil hk).mp hw hlen
  | consumerResumes k pick =>
      simp only [threads, Option.bind_eq_bind, Option.bind_eq_some_iff] at h
      obtain ⟨t, hk, h⟩ := h
      obtain ⟨hk, -⟩ := List.getElem?_eq_some_iff.mp hk
      by_contra hg
      simp only [LeavesNoneBehind, not_or, not_not, not_and, hwf.queueUsed_eq] at hg
      obtain ⟨hp, hlen, hu, hone⟩ := hg
      have he : s.queue.empty = false := by
        rw [Bool.eq_false_iff, Ne, hwf.empty_iff_used]
        exact hu
      split at h
      · cases h
        exact (eraseIdx_ne_nil hk).mp (hn.consumers hp he) hlen
      · rename_i hstop
        rcases Threads.consume_cases h with ⟨he', -⟩ | ⟨-, h⟩
        · change s.queue.empty = true at he'
          rw [he] at he'
          cases he'
        · obtain ⟨hq, -, hsc⟩ := Threads.signal_spec h
          rw [removeItem_signals he] at hsc
          obtain ⟨hpc, hwc⟩ := (condSignal_spec hsc).1 rfl
          have he' : (removeItem s.queue).1.empty = false := by
            rw [Bool.eq_false_iff, Ne, hwf.empty_removeItem he]
            exact hone (by simpa using hstop)
          change s'.queue = (removeItem s.queue).1 at hq
          change s'.parkedConsumers = s.parkedConsumers at hpc
          change s'.wokenConsumers = s.wokenConsumers.eraseIdx k at hwc
          have hw := hn.consumers (by rwa [hpc]) (by rwa [hq])
          rw [hwc] at hw
          exact (eraseIdx_ne_nil hk).mp hw hlen
  | _ => trivial

theorem sound_init (h₁ : 1 ≤ n) (hn : n ≤ 2 ^ 31) (h : (threads ι α n).init s) :
    Sound s ∧ NoLostWakeup s := by
  obtain ⟨hq, hp, -, hc, -, -⟩ := h
  obtain ⟨q, hq', hwf, -⟩ := queueCreate_spec (α := α) h₁ hn
  rw [hq', Option.some.injEq] at hq
  exact ⟨⟨hq ▸ hwf, fun _ ↦ hp⟩, fun h ↦ absurd hp h, fun h ↦ absurd hc h⟩

end Steps

/-- In every run whose steps leave none behind no wake-up is lost, and the first
step that leaves one behind loses a wake-up. -/
theorem noLostWakeup_run [DecidableEq ι] {n : ℕ} (h₁ : 1 ≤ n) (hn : n ≤ 2 ^ 31) :
    (∀ s, (threads ι α n).ReachableVia LeavesNoneBehind s → NoLostWakeup s) ∧
      ∀ s e s', (threads ι α n).ReachableVia LeavesNoneBehind s →
        (threads ι α n).step s e = some s' → (NoLostWakeup s' ↔ LeavesNoneBehind s e) := by
  have key : ∀ s, (threads ι α n).ReachableVia LeavesNoneBehind s → Sound s ∧ NoLostWakeup s := by
    intro s hs
    refine hs.invariant (fun s hi ↦ sound_init h₁ hn hi) ?_
    rintro s e s' ⟨hs, hn⟩ hg he
    exact ⟨hs.step he, hn.step hs hg he⟩
  refine ⟨fun s hs ↦ (key s hs).2, ?_⟩
  intro s e s' hs he
  obtain ⟨hsound, hlost⟩ := key s hs
  exact ⟨.of_step hsound he, fun hg ↦ hlost.step hsound hg he⟩

theorem noLostWakeup_four :
    1 ≤ 4 ∧ 4 ≤ 2 ^ 31 ∧
      ∀ s, (threads ℕ ℕ 4).ReachableVia LeavesNoneBehind s → NoLostWakeup s :=
  ⟨by omega, by omega, (noLostWakeup_run (by omega) (by omega)).1⟩

/-- Threads 1 and 2 are parked on a full queue, thread 3 takes two items before
thread 1 is back, and only thread 1 got a signal. -/
def overtakenRun : Option (Threads ℕ ℕ) :=
  (threads ℕ ℕ 4).run ⟨(queueCreate 4).get rfl, [], [], [], [], false⟩
    [.enqueue 0 10 0, .enqueue 0 11 0, .enqueue 0 12 0, .enqueue 1 13 0, .enqueue 2 14 0,
      .dequeue 3 0, .dequeue 3 0, .producerResumes 0 0]

theorem not_noLostWakeup :
    ¬ ∀ n, 1 ≤ n → n ≤ 2 ^ 31 → ∀ s, (threads ℕ ℕ n).Reachable s → NoLostWakeup s := by
  intro h
  have hrun : overtakenRun.map (fun s ↦ (s.parkedProducers, s.queue.full, s.wokenProducers)) =
      some ([(2, 14)], false, []) := by
    decide
  obtain ⟨s, hs, he⟩ := Option.map_eq_some_iff.mp hrun
  have hr : (threads ℕ ℕ 4).Reachable s :=
    System.reachable_of_run ⟨rfl, rfl, rfl, rfl, rfl, rfl⟩ hs
  rw [Prod.mk.injEq, Prod.mk.injEq] at he
  obtain ⟨hp, hf, hw⟩ := he
  exact (h 4 (by omega) (by omega) s hr).producers (by simp [hp]) hf hw

end Beirdobot.Queue
