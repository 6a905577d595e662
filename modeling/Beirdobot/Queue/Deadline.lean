import Beirdobot.Queue.Ledger

/-!
# Waiting with a deadline

One call of `QueueDequeueItem` with `ms_timeout >= 0`, among the calls of other
threads.  The waits are as `pthread_cond_timedwait` documents them: a deadline
whose nanoseconds are out of range is refused at once with `EINVAL`, with the mutex
still held; a wait times out only once its deadline has passed, and does so when it
begins after that; any other return, also a spurious one, is a 0.  The clock counts
microseconds, as `gettimeofday` does.
-/

namespace Beirdobot.Queue

open Library

variable {α : Type}

/-- `struct timespec` -/
structure Timespec where
  tv_sec : ℕ
  tv_nsec : ℕ
deriving DecidableEq, Repr

/-- The range of `tv_nsec` that POSIX asks for. -/
def Timespec.Valid (t : Timespec) : Prop := t.tv_nsec < 1000000000

instance (t : Timespec) : Decidable t.Valid := inferInstanceAs (Decidable (_ < _))

def Timespec.nanoseconds (t : Timespec) : ℕ := t.tv_sec * 1000000000 + t.tv_nsec

/-- The lines of `QueueDequeueItem` that set up its timeout, with the clock at `now`:
`tv.tv_sec` is `now / 1000000` and `tv.tv_usec` is `now % 1000000`. -/
def queueDeadline (now msTimeout : ℕ) : Timespec where
  tv_sec := now / 1000000 + msTimeout / 1000
  tv_nsec := now % 1000000 * 1000 + msTimeout % 1000 * 1000000

/-- What `pthread_cond_timedwait` returns: 0, `ETIMEDOUT` or `EINVAL`. -/
inductive Status where
  | ok
  | timedOut
  | invalid
deriving DecidableEq, Repr

/-- Where the call is.  `waiting` has released the mutex, with the time at which the
wait began; `spinning` is a wait that is about to return `EINVAL`.  `returned` has
the flag of the queue and `GlobalAbort` as they were at the return. -/
inductive Phase (α : Type) where
  | calling
  | waiting (since : ℕ)
  | spinning
  | returned (item : Option α) (empty abort : Bool)

/-- A queue and one call of `QueueDequeueItem` on it.  `passed` says whether a
deadline was passed to `pthread_cond_timedwait`, `late` how many waits began when it
had passed. -/
structure Dequeue (α : Type) where
  queue : QueueObject α
  phase : Phase α
  now : ℕ
  called : ℕ
  deadline : Timespec
  passed : Bool
  late : ℕ
  globalAbort : Bool

/-- Whether the deadline has passed. -/
def Dequeue.Expired (s : Dequeue α) : Prop := s.deadline.nanoseconds ≤ s.now * 1000

instance (s : Dequeue α) : Decidable s.Expired := inferInstanceAs (Decidable (_ ≤ _))

inductive DequeueEvent (α : Type)
  /-- Time passes. -/
  | tick (microseconds : ℕ)
  /-- The program begins to shut down. -/
  | abort
  /-- Another thread completes a call. -/
  | other (op : Op α)
  /-- The call locks the mutex. -/
  | call
  /-- `pthread_cond_timedwait` returns. -/
  | wakes (status : Status)

/-- The queue after a completed call. -/
def completed (q : QueueObject α) : Op α → Option (QueueObject α)
  | .enqueue item => (queueEnqueueItem q item).map fun r ↦ r.1
  | .dequeue => (queueDequeueItem q).map fun r ↦ r.1
  | .dequeueNull => some q
  | .clear freeItems => some (queueClear q freeItems).1

/-- `QueueDequeueItem` from the test of its loop to the next wait or to its return. -/
def loopTest (s : Dequeue α) (status : Status) : Dequeue α :=
  if s.queue.empty = true ∧ status ≠ .timedOut then
    { s with
      passed := true
      late := if s.Expired then s.late + 1 else s.late
      phase := if s.deadline.Valid then .waiting s.now else .spinning }
  else if status = .timedOut then
    { s with phase := .returned none s.queue.empty s.globalAbort }
  else
    let (queue, _, item) := removeItem s.queue
    { s with queue, phase := .returned item queue.empty s.globalAbort }

/-- The lines after a wait: the queues that are not `exempt`, which are all but
`LoggingQ` and `QueryQ`, give up when the program is shutting down. -/
def afterWait (exempt : Bool) (s : Dequeue α) (status : Status) : Dequeue α :=
  if s.globalAbort && !exempt
  then { s with phase := .returned none s.queue.empty s.globalAbort }
  else loopTest s status

/-- The runs of one call among those of other threads, on a queue that was created. -/
def dequeues (α : Type) (exempt : Bool) (msTimeout : ℕ) : System (Dequeue α) (DequeueEvent α) where
  init s := (∃ n, queueCreate n = some s.queue) ∧ s.phase = .calling ∧ s.passed = false ∧ s.late = 0
  step s
    | .tick microseconds => some { s with now := s.now + microseconds }
    | .abort => some { s with globalAbort := true }
    | .other op =>
        match s.phase with
        | .spinning => none
        | _ => do
            let queue ← completed s.queue op
            some { s with queue }
    | .call =>
        match s.phase with
        | .calling =>
            some (loopTest { s with
              called := s.now
              deadline := queueDeadline s.now msTimeout } .ok)
        | _ => none
    | .wakes status =>
        match s.phase, status with
        | .waiting _, .timedOut => if s.Expired then some (afterWait exempt s .timedOut) else none
        | .waiting since, .ok =>
            if since * 1000 < s.deadline.nanoseconds then some (afterWait exempt s .ok) else none
        | .spinning, .invalid => some (afterWait exempt s .invalid)
        | _, _ => none

/-- A deadline that was passed is valid and as far away as was asked for; when it has
passed, at most one more wait begins, and no wait goes on; and a null is returned
only from an empty queue or by a program that shuts down. -/
structure MeetsDeadline (exempt : Bool) (msTimeout : ℕ) (s : Dequeue α) : Prop where
  valid : s.passed = true → s.deadline.Valid
  exact : s.passed = true → s.deadline.nanoseconds = s.called * 1000 + msTimeout * 1000000
  late_le : s.late ≤ 1
  ends : s.Expired → ∀ since, s.phase = .waiting since →
    ((dequeues α exempt msTimeout).step s (.wakes .timedOut)).isSome
  null : ∀ empty abort, s.phase = .returned none empty abort → empty = true ∨ abort = true

/-- The condition on a step: a deadline that is going to be used needs no carry from
its nanoseconds, and no wait times out while an item is on the queue. -/
def NoCarryNoRace (msTimeout : ℕ) (s : Dequeue α) : DequeueEvent α → Prop
  | .call => s.queue.empty = true → s.now % 1000000 + msTimeout % 1000 * 1000 < 1000000
  | .wakes .timedOut => s.queue.empty = true ∨ s.globalAbort = true
  | _ => True

/-! ## The deadline -/

theorem queueDeadline_valid_iff (now msTimeout : ℕ) :
    (queueDeadline now msTimeout).Valid ↔ now % 1000000 + msTimeout % 1000 * 1000 < 1000000 := by
  simp only [Timespec.Valid, queueDeadline]
  omega

/-- The deadline is never wrong as a number of nanoseconds. -/
theorem queueDeadline_nanoseconds (now msTimeout : ℕ) :
    (queueDeadline now msTimeout).nanoseconds = now * 1000 + msTimeout * 1000000 := by
  simp only [Timespec.nanoseconds, queueDeadline]
  omega

/-- With a timeout of whole seconds, as all callers have it, no carry is needed. -/
theorem queueDeadline_valid_of_seconds (now seconds : ℕ) :
    (queueDeadline now (seconds * 1000)).Valid := by
  rw [queueDeadline_valid_iff]
  omega

/-! ## Queues whose items are not null -/

/-- What every call keeps: the queue is well formed, and a ring with room for an item
holds its pending items. -/
structure NonNull (q : QueueObject α) : Prop where
  wellFormed : WellFormed q
  holds : 2 ≤ q.numElements → ∃ pending, Holds q pending

namespace NonNull

variable {q q' : QueueObject α} (h : NonNull q)

theorem create {n : ℕ} (hq : queueCreate n = some q) : NonNull q := by
  have he := queueCreate_exact hq
  exact ⟨he.wellFormed, fun h₂ ↦ ⟨[], he.holds h₂⟩⟩

include h

/-- What is handed out from a queue that is not empty is an item. -/
theorem removeItem (he : q.empty = false) :
    NonNull (Queue.removeItem q).1 ∧ (Queue.removeItem q).2.2 ≠ none := by
  have hlt := h.wellFormed.used_lt
  have hne : used q ≠ 0 := by
    intro h0
    rw [h.wellFormed.empty_iff_used.mpr h0] at he
    cases he
  obtain ⟨pending, hp⟩ := h.holds (by omega)
  obtain ⟨x, rest, -, hx, hrest⟩ := hp.removeItem he
  exact ⟨⟨hrest.wellFormed, fun _ ↦ ⟨rest, hrest⟩⟩, by simp [hx]⟩

theorem completed {op : Op α} (he : Queue.completed q op = some q') : NonNull q' := by
  cases op with
  | enqueue item =>
      obtain ⟨r, hr, rfl⟩ := Option.map_eq_some_iff.mp he
      cases item with
      | none =>
          cases hr
          exact h
      | some x =>
          cases hf : q.full with
          | true => simp [queueEnqueueItem, hf] at hr
          | false =>
              simp only [queueEnqueueItem, hf, Bool.false_eq_true, if_false,
                Option.some.injEq] at hr
              subst hr
              refine ⟨h.wellFormed.insertItem x, fun h₂ ↦ ?_⟩
              obtain ⟨pending, hp⟩ := h.holds h₂
              exact ⟨_, hp.insertItem hf x⟩
  | dequeue =>
      obtain ⟨r, hr, rfl⟩ := Option.map_eq_some_iff.mp he
      cases hq : q.empty with
      | true => simp [queueDequeueItem, hq] at hr
      | false =>
          simp only [queueDequeueItem, hq, Bool.false_eq_true, if_false, Option.some.injEq] at hr
          subst hr
          exact (h.removeItem hq).1
  | dequeueNull =>
      cases he
      exact h
  | clear freeItems =>
      cases he
      refine ⟨h.wellFormed.queueClear freeItems, fun h₂ ↦ ?_⟩
      obtain ⟨pending, hp⟩ := h.holds h₂
      exact ⟨_, hp.queueClear freeItems⟩

end NonNull

/-! ## Runs -/

/-- What holds of the call while the deadline is valid: when it waits, the wait is the
only one that can have begun late. -/
structure Waits (msTimeout : ℕ) (s : Dequeue α) : Prop where
  sound : NonNull s.queue
  calling : s.phase = .calling → s.passed = false ∧ s.late = 0
  valid : s.passed = true → s.deadline.Valid
  exact : s.passed = true → s.deadline.nanoseconds = s.called * 1000 + msTimeout * 1000000
  waiting : ∀ since, s.phase = .waiting since → s.passed = true ∧
    s.late = if s.deadline.nanoseconds ≤ since * 1000 then 1 else 0
  late_le : s.late ≤ 1
  not_spinning : s.phase ≠ .spinning
  null : ∀ empty abort, s.phase = .returned none empty abort → empty = true ∨ abort = true

namespace Waits

variable {msTimeout : ℕ} {exempt : Bool} {s s' : Dequeue α}

/-- The call goes on to a wait with a valid deadline, or returns. -/
theorem loopTest {status : Status} (hs : NonNull s.queue)
    (hv : s.queue.empty = true → status ≠ .timedOut → s.deadline.Valid)
    (hp : s.passed = true → s.deadline.Valid)
    (hx : s.deadline.nanoseconds = s.called * 1000 + msTimeout * 1000000) (hl : s.late ≤ 1)
    (hl₀ : status ≠ .timedOut → s.late = 0)
    (hn : status = .timedOut → s.queue.empty = true ∨ s.globalAbort = true) :
    Waits msTimeout (Queue.loopTest s status) := by
  unfold Queue.loopTest
  split
  · -- a wait begins
    rename_i h
    obtain ⟨he, hne⟩ := h
    have hvalid := hv he hne
    have hlate : (if s.Expired then s.late + 1 else s.late) = if s.Expired then 1 else 0 := by
      rw [hl₀ hne]
    rw [if_pos hvalid, hlate]
    refine ⟨hs, by simp, fun _ ↦ hvalid, fun _ ↦ hx, ?_, ?_, by simp, by simp⟩
    · rintro since hsince
      cases hsince
      exact ⟨rfl, rfl⟩
    · show (if s.Expired then 1 else 0) ≤ 1
      split <;> omega
  · rename_i h
    split
    · -- the time-out is returned
      rename_i ht
      refine ⟨hs, by simp, hp, fun _ ↦ hx, by simp, hl, by simp, ?_⟩
      intro empty abort heq
      cases heq
      exact hn ht
    · -- an item is handed out
      rename_i ht
      have he : s.queue.empty = false := by
        cases hq : s.queue.empty with
        | false => rfl
        | true => exact absurd ⟨hq, ht⟩ h
      obtain ⟨hsound, hitem⟩ := hs.removeItem he
      refine ⟨hsound, by simp, hp, fun _ ↦ hx, by simp, hl, by simp, ?_⟩
      intro empty abort heq
      have hnone : (removeItem s.queue).2.2 = none := by
        injection heq
      exact absurd hnone hitem

/-- After a wait the call goes on, or gives up as the program shuts down. -/
theorem afterWait {status : Status} (h : Waits msTimeout s) {since : ℕ}
    (hw : s.phase = .waiting since) (hl₀ : status ≠ .timedOut → s.late = 0)
    (hn : status = .timedOut → s.queue.empty = true ∨ s.globalAbort = true) :
    Waits msTimeout (Queue.afterWait exempt s status) := by
  obtain ⟨hp, -⟩ := h.waiting since hw
  unfold Queue.afterWait
  split
  · rename_i ha
    refine ⟨h.sound, by simp, h.valid, h.exact, by simp, h.late_le, by simp, ?_⟩
    intro empty abort heq
    cases heq
    right
    cases hab : s.globalAbort with
    | true => rfl
    | false => simp [hab] at ha
  · exact loopTest h.sound (fun _ _ ↦ h.valid hp) h.valid (h.exact hp) h.late_le hl₀ hn

/-- A step that meets the condition keeps the call so. -/
theorem step {e : DequeueEvent α} (h : Waits msTimeout s) (hc : NoCarryNoRace msTimeout s e)
    (he : (dequeues α exempt msTimeout).step s e = some s') : Waits msTimeout s' := by
  cases e with
  | tick microseconds =>
      cases he
      exact ⟨h.sound, h.calling, h.valid, h.exact, h.waiting, h.late_le, h.not_spinning, h.null⟩
  | abort =>
      cases he
      exact ⟨h.sound, h.calling, h.valid, h.exact, h.waiting, h.late_le, h.not_spinning, h.null⟩
  | other op =>
      have hother : ∃ queue, completed s.queue op = some queue ∧ s' = { s with queue } := by
        simp only [dequeues] at he
        split at he
        · cases he
        · obtain ⟨queue, hq, hs'⟩ := Option.bind_eq_some_iff.mp he
          exact ⟨queue, hq, (Option.some.inj hs').symm⟩
      obtain ⟨queue, hq, rfl⟩ := hother
      exact ⟨h.sound.completed hq, h.calling, h.valid, h.exact, h.waiting, h.late_le,
        h.not_spinning, h.null⟩
  | call =>
      cases hphase : s.phase with
      | calling =>
          obtain ⟨hp, hl⟩ := h.calling hphase
          simp only [dequeues, hphase, Option.some.injEq] at he
          subst he
          refine loopTest h.sound (fun hq _ ↦ ?_) (fun hp' ↦ ?_) ?_ h.late_le (fun _ ↦ hl) (by simp)
          · exact (queueDeadline_valid_iff ..).mpr (hc hq)
          · exact absurd (hp.symm.trans hp') (by simp)
          · exact queueDeadline_nanoseconds s.now msTimeout
      | waiting since => simp [dequeues, hphase] at he
      | spinning => simp [dequeues, hphase] at he
      | returned item empty abort => simp [dequeues, hphase] at he
  | wakes status =>
      cases hphase : s.phase with
      | calling => simp [dequeues, hphase] at he
      | waiting since =>
          cases status with
          | ok =>
              simp only [dequeues, hphase, Option.ite_none_right_eq_some, Option.some.injEq] at he
              obtain ⟨hlt, rfl⟩ := he
              refine h.afterWait hphase (fun _ ↦ ?_) (by simp)
              rw [(h.waiting since hphase).2, if_neg (by omega)]
          | timedOut =>
              simp only [dequeues, hphase, Option.ite_none_right_eq_some, Option.some.injEq] at he
              obtain ⟨-, rfl⟩ := he
              exact h.afterWait hphase (by simp) fun _ ↦ hc
          | invalid => simp [dequeues, hphase] at he
      | spinning => exact absurd hphase h.not_spinning
      | returned item empty abort => simp [dequeues, hphase] at he

theorem meets (h : Waits msTimeout s) : MeetsDeadline exempt msTimeout s := by
  refine ⟨h.valid, h.exact, h.late_le, fun hexp since hw ↦ ?_, h.null⟩
  simp only [dequeues, hw, if_pos hexp, Option.isSome_some]

end Waits

theorem reachableVia_waits {exempt : Bool} {msTimeout : ℕ} {s : Dequeue α}
    (h : (dequeues α exempt msTimeout).ReachableVia (NoCarryNoRace msTimeout) s) :
    Waits msTimeout s := by
  refine h.invariant (I := Waits msTimeout) ?_ fun s e s' hs hc he ↦ hs.step hc he
  rintro s ⟨⟨n, hq⟩, hphase, hp, hl⟩
  refine ⟨.create hq, fun _ ↦ ⟨hp, hl⟩, by simp [hp], by simp [hp], by simp [hphase], by omega,
    by simp [hphase], by simp [hphase]⟩

/-- A step that does not meet the condition uses an invalid deadline, or returns a
null while an item is on the queue. -/
theorem not_meets {exempt : Bool} {msTimeout : ℕ} {s s' : Dequeue α} {e : DequeueEvent α}
    (h : Waits msTimeout s) (hc : ¬ NoCarryNoRace msTimeout s e)
    (he : (dequeues α exempt msTimeout).step s e = some s') :
    ¬ MeetsDeadline exempt msTimeout s' := by
  cases e with
  | tick microseconds => exact absurd trivial hc
  | abort => exact absurd trivial hc
  | other op => exact absurd trivial hc
  | call =>
      obtain ⟨hq, hcarry⟩ := Classical.not_imp.mp hc
      cases hphase : s.phase with
      | calling =>
          simp only [dequeues, hphase, loopTest, hq, true_and, ne_eq, reduceCtorEq,
            not_false_eq_true, if_true, Option.some.injEq] at he
          subst he
          exact fun hm ↦ hcarry ((queueDeadline_valid_iff ..).mp (hm.valid rfl))
      | waiting since => simp [dequeues, hphase] at he
      | spinning => simp [dequeues, hphase] at he
      | returned item empty abort => simp [dequeues, hphase] at he
  | wakes status =>
      cases status with
      | ok => exact absurd trivial hc
      | invalid => exact absurd trivial hc
      | timedOut =>
          obtain ⟨hq, ha⟩ := not_or.mp hc
          cases hphase : s.phase with
          | calling => simp [dequeues, hphase] at he
          | waiting since =>
              simp only [dequeues, hphase, Option.ite_none_right_eq_some, Option.some.injEq] at he
              obtain ⟨-, rfl⟩ := he
              intro hm
              have hnull := hm.null s.queue.empty s.globalAbort (by
                simp [afterWait, loopTest, ha])
              exact hnull.elim hq ha
          | spinning => exact absurd hphase h.not_spinning
          | returned item empty abort => simp [dequeues, hphase] at he

/-- In every run whose steps meet the condition the call keeps its deadline and
returns a null for a reason, and the first step that does not meet it ends that. -/
theorem meetsDeadline_run (exempt : Bool) (msTimeout : ℕ) :
    (∀ s : Dequeue α, (dequeues α exempt msTimeout).ReachableVia (NoCarryNoRace msTimeout) s →
      MeetsDeadline exempt msTimeout s) ∧
    ∀ (s : Dequeue α) e s', (dequeues α exempt msTimeout).ReachableVia (NoCarryNoRace msTimeout) s →
      (dequeues α exempt msTimeout).step s e = some s' →
        (MeetsDeadline exempt msTimeout s' ↔ NoCarryNoRace msTimeout s e) := by
  refine ⟨fun s hs ↦ (reachableVia_waits hs).meets, fun s e s' hs he ↦ ?_⟩
  have h := reachableVia_waits hs
  constructor
  · intro hm
    by_contra hc
    exact not_meets h hc he hm
  · intro hc
    exact (h.step hc he).meets

/-- A call of `QueueDequeueItem` on an empty queue, with the clock at `now`. -/
def callAt (now : ℕ) : Dequeue ℕ where
  queue := fourSlots
  phase := .calling
  now := now
  called := 0
  deadline := ⟨0, 0⟩
  passed := false
  late := 0
  globalAbort := false

/-- The call asks for 500 ms at the 600000th microsecond of a second. -/
def refused : Dequeue ℕ :=
  { callAt 600000 with
    phase := .spinning
    called := 600000
    deadline := ⟨0, 1100000000⟩
    passed := true }

theorem refused_run (k : ℕ) :
    (dequeues ℕ false 500).run refused (List.replicate k (.wakes .invalid)) = some refused := by
  induction k with
  | zero => rfl
  | succ k ih =>
      have hstep : (dequeues ℕ false 500).step refused (.wakes .invalid) = some refused := by
        simp [dequeues, refused, afterWait, loopTest, callAt, Dequeue.Expired, Timespec.Valid,
          Timespec.nanoseconds]
        rfl
      rw [List.replicate_succ, System.run_cons, hstep, Option.bind_some, ih]

/-- A deadline with too many nanoseconds is refused again and again with the mutex
held, and a wait that times out when an item was just put on the queue returns a
null. -/
theorem not_meetsDeadline :
    (∀ k, (dequeues ℕ false 500).run (callAt 600000)
      (.call :: List.replicate k (.wakes .invalid)) = some refused) ∧
    ((dequeues ℕ false 1000).run (callAt 0) [.call, .tick 1000000, .other (.enqueue (some 5)),
      .wakes .timedOut]).map Dequeue.phase = some (.returned none false false) ∧
    ¬ ∀ exempt msTimeout (s : Dequeue ℕ), (dequeues ℕ exempt msTimeout).Reachable s →
      MeetsDeadline exempt msTimeout s := by
  have hcall : (dequeues ℕ false 500).step (callAt 600000) .call = some refused := by
    simp [dequeues, refused, loopTest, callAt, queueDeadline, Dequeue.Expired, Timespec.Valid,
      Timespec.nanoseconds]
    rfl
  refine ⟨fun k ↦ ?_, rfl, fun h ↦ ?_⟩
  · rw [System.run_cons, hcall, Option.bind_some, refused_run]
  · have hr : (dequeues ℕ false 500).Reachable refused :=
      .step (.init ⟨⟨4, queueCreate_four⟩, rfl, rfl, rfl⟩) hcall
    exact absurd ((h false 500 refused hr).valid rfl) (by decide)

end Beirdobot.Queue
