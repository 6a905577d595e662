import Beirdobot.Queue.Fifo

/-!
# What becomes of every accepted item

A ledger beside the queue records which items were accepted, handed out, freed
and dropped.  `QueueClear` frees what its scan of the whole table finds, so the
books only balance as long as the slots outside the window hold nothing.
-/

namespace Beirdobot.Queue

open Library

variable {α : Type}

/-- The items in the slots from the tail up to the head. -/
def pendingItems (q : QueueObject α) : List α :=
  (window q.numElements q.itemTable q.tail (queueUsed q)).filterMap id

/-- A queue with its history: the items accepted, those handed to a consumer, those
freed by `QueueClear(TRUE)` and those dropped by `QueueClear(FALSE)`. -/
structure Ledger (α : Type) where
  queue : QueueObject α
  accepted : List α
  handed : List α
  freed : List α
  dropped : List α

/-- The runs of completed calls on a queue created for `n` elements. -/
def ledger (α : Type) (n : ℕ) : System (Ledger α) (Op α) where
  init s := queueCreate n = some s.queue ∧ s.accepted = [] ∧ s.handed = [] ∧ s.freed = [] ∧
    s.dropped = []
  step s
    | .enqueue item => do
        let (queue, _, ok) ← queueEnqueueItem s.queue item
        some { s with queue, accepted := if ok then s.accepted ++ item.toList else s.accepted }
    | .dequeue => do
        let (queue, _, item) ← queueDequeueItem s.queue
        some { s with queue, handed := s.handed ++ item.toList }
    | .dequeueNull => some s
    | .clear freeItems =>
        let (queue, _, freed) := queueClear s.queue freeItems
        some { s with
          queue
          freed := s.freed ++ freed
          dropped := s.dropped ++ if freeItems then [] else pendingItems s.queue }

/-- The slots outside the window hold nothing. -/
def Clean (q : QueueObject α) : Prop :=
  ∀ i < q.numElements, (∀ j < queueUsed q, i ≠ (q.tail + j) % q.numElements) →
    q.itemTable i = none

/-- Each accepted item is pending, or was handed out, freed or dropped, exactly
once. -/
structure ExactlyOnce (s : Ledger α) : Prop where
  balance : s.accepted.Perm (s.handed ++ (s.freed ++ (s.dropped ++ pendingItems s.queue)))
  clean : Clean s.queue

/-- The condition on a call: an item is put on a queue of two slots or more, and the
items are not left in a queue that is cleared without freeing them. -/
def Careful (s : Ledger α) : Op α → Prop
  | .enqueue (some _) => 2 ≤ s.queue.numElements
  | .clear false => s.queue.empty = true
  | _ => True

/-! ## The window and what is outside -/

/-- The window holds the pending items, and the other slots hold nothing. -/
structure Exact (q : QueueObject α) (pending : List α) : Prop where
  wellFormed : WellFormed q
  window_eq : window q.numElements q.itemTable q.tail (used q) = pending.map some
  outside : ∀ i < q.numElements, (∀ j < used q, i ≠ (q.tail + j) % q.numElements) →
    q.itemTable i = none

namespace Exact

variable {q : QueueObject α} {pending : List α} (h : Exact q pending)

include h

theorem length_eq : pending.length = used q := by
  have hlen := congrArg List.length h.window_eq
  rwa [length_window, List.length_map, eq_comm] at hlen

theorem holds (h₂ : 2 ≤ q.numElements) : Holds q pending :=
  ⟨h.wellFormed, h₂, h.length_eq, h.window_eq⟩

theorem pendingItems_eq : pendingItems q = pending := by
  rw [pendingItems, h.wellFormed.queueUsed_eq, h.window_eq, List.filterMap_map]
  exact List.filterMap_some

theorem clean : Clean q := by
  intro i hi hout
  rw [h.wellFormed.queueUsed_eq] at hout
  exact h.outside i hi hout

/-- The scan of the whole table finds the pending items, in some order. -/
theorem scan : ((List.range q.numElements).filterMap q.itemTable).Perm pending := by
  have hle := h.wellFormed.used_lt.le
  have hsplit : window q.numElements id q.tail q.numElements =
      window q.numElements id q.tail (used q) ++
        window q.numElements id (q.tail + used q) (q.numElements - used q) := by
    rw [← window_add, Nat.add_sub_cancel' hle]
  have hlive : (window q.numElements id q.tail (used q)).filterMap q.itemTable = pending := by
    have hmap := List.filterMap_map (f := q.itemTable) (g := id)
      (l := window q.numElements id q.tail (used q))
    rw [map_window, h.window_eq, List.filterMap_map] at hmap
    exact hmap.symm.trans List.filterMap_some
  have hdead : (window q.numElements id (q.tail + used q) (q.numElements - used q)).filterMap
      q.itemTable = [] := by
    refine List.filterMap_eq_nil_iff.mpr fun i hi ↦ ?_
    obtain ⟨k, hk, rfl⟩ := List.mem_map.mp hi
    rw [List.mem_range] at hk
    refine h.outside _ (Nat.mod_lt _ (by omega)) fun j hj e ↦ ?_
    refine ring_ne (a := q.tail) (i := j) (j := used q + k) (n := q.numElements) (by omega)
      (by omega) ?_
    rw [← Nat.add_assoc]
    exact e.symm
  refine ((perm_window q.tail).filterMap q.itemTable).symm.trans ?_
  rw [hsplit, List.filterMap_append, hlive, hdead, List.append_nil]

/-- An accepted item fills the slot after the window. -/
theorem insertItem (h₂ : 2 ≤ q.numElements) (hf : q.full = false) (x : α) :
    Exact (Queue.insertItem q x).1 (pending ++ [x]) := by
  have hh := (h.holds h₂).insertItem hf x
  have hlen := hh.length_eq
  rw [List.length_append, h.length_eq, List.length_singleton] at hlen
  refine ⟨hh.wellFormed, hh.window_eq, fun i hi hout ↦ ?_⟩
  rw [← hlen] at hout
  have hhead : i ≠ q.head := by
    rw [h.wellFormed.head_eq]
    exact hout (used q) (by omega)
  show Function.update q.itemTable q.head (some x) i = none
  rw [Function.update_of_ne hhead]
  exact h.outside i hi fun j hj ↦ hout j (by omega)

/-- The slot that is handed out is outside the window afterwards, and empty. -/
theorem removeItem (he : q.empty = false) :
    ∃ x rest, pending = x :: rest ∧ (Queue.removeItem q).2.2 = some x ∧
      Exact (Queue.removeItem q).1 rest := by
  have hwf := h.wellFormed
  have hlt := hwf.used_lt
  have hne : used q ≠ 0 := by
    intro h0
    rw [hwf.empty_iff_used.mpr h0] at he
    cases he
  obtain ⟨x, rest, rfl, hx, hh⟩ := (h.holds (by omega)).removeItem he
  have hlen : used (Queue.removeItem q).1 + 1 = used q := hwf.used_removeItem hne
  refine ⟨x, rest, rfl, hx, hh.wellFormed, hh.window_eq, fun i hi hout ↦ ?_⟩
  show Function.update q.itemTable q.tail none i = none
  by_cases hit : i = q.tail
  · rw [hit, Function.update_self]
  · rw [Function.update_of_ne hit]
    refine h.outside i hi fun j hj e ↦ ?_
    cases j with
    | zero =>
        rw [Nat.add_zero, Nat.mod_eq_of_lt hwf.tail_lt] at e
        exact hit e
    | succ j =>
        refine hout j (by omega) ?_
        show i = ((u32 (q.tail + 1) &&& q.numMask) + j) % q.numElements
        rw [hwf.and_mask, Nat.mod_add_mod, e]
        congr 1
        omega

omit h in
theorem used_queueClear (freeItems : Bool) : used (Queue.queueClear q freeItems).1 = 0 := by
  simp [used, Queue.queueClear, queueConditionUpdate]

/-- Freeing the items empties every slot. -/
theorem queueClear_true : Exact (Queue.queueClear q true).1 [] := by
  refine ⟨h.wellFormed.queueClear true, by rw [used_queueClear]; rfl, fun i hi _ ↦ ?_⟩
  show (if i < q.numElements then none else q.itemTable i) = none
  exact if_pos hi

/-- An empty queue can be cleared without freeing anything. -/
theorem queueClear_false (he : q.empty = true) : Exact (Queue.queueClear q false).1 [] := by
  have hzero := h.wellFormed.empty_iff_used.mp he
  refine ⟨h.wellFormed.queueClear false, by rw [used_queueClear]; rfl, fun i hi _ ↦ ?_⟩
  exact h.outside i hi fun j hj ↦ by omega

end Exact

theorem roundLoop_le (n k i : ℕ) : roundLoop n k i ≤ k + i := by
  induction k generalizing i with
  | zero => rw [roundLoop, Nat.zero_add]
  | succ k ih =>
      rw [roundLoop]
      split
      · have hle := ih (i + 1)
        omega
      · omega

/-- A created queue holds nothing, in its window or outside. -/
theorem queueCreate_exact {n : ℕ} {q : QueueObject α} (hq : queueCreate n = some q) :
    Exact q [] := by
  rw [queueCreate] at hq
  split at hq
  · cases hq
  · have hle := roundLoop_le n 32 0
    obtain ⟨i, hi, hsize⟩ : ∃ i ≤ 31,
        (if roundLoop n 32 0 = 32 then 31 else roundLoop n 32 0) = i := by
      refine ⟨_, ?_, rfl⟩
      split <;> omega
    have hu : u32 (2 ^ i) = 2 ^ i :=
      Nat.mod_eq_of_lt (Nat.pow_lt_pow_right (by omega) (by omega))
    have hpos : 0 < 2 ^ i := Nat.two_pow_pos i
    simp only [hsize, hu, Option.some.injEq] at hq
    subst hq
    have hwf : WellFormed (α := α)
        { numElements := 2 ^ i, numMask := 2 ^ i - 1, head := 0, tail := 0,
          itemTable := fun _ ↦ none, full := false, empty := true } :=
      ⟨⟨i, hi, rfl⟩, rfl, hpos, hpos, by simp, by simp⟩
    have hzero := hwf.empty_iff_used.mp rfl
    exact ⟨hwf, by rw [hzero]; rfl, fun _ _ _ ↦ rfl⟩

/-! ## Runs -/

/-- The queue of a state, its pending items and its books. -/
structure Balanced (s : Ledger α) (pending : List α) : Prop where
  exact : Exact s.queue pending
  balance : s.accepted.Perm (s.handed ++ (s.freed ++ (s.dropped ++ pending)))

theorem Balanced.exactlyOnce {s : Ledger α} {pending : List α} (h : Balanced s pending) :
    ExactlyOnce s :=
  ⟨by rw [h.exact.pendingItems_eq]; exact h.balance, h.exact.clean⟩

/-- A careful call keeps the books balanced. -/
theorem Balanced.step {n : ℕ} {s s' : Ledger α} {op : Op α} {pending : List α}
    (h : Balanced s pending) (hc : Careful s op) (he : (ledger α n).step s op = some s') :
    ∃ pending', Balanced s' pending' := by
  cases op with
  | enqueue item =>
      cases item with
      | none =>
          cases he
          exact ⟨pending, h.exact, h.balance⟩
      | some x =>
          cases hf : s.queue.full with
          | true => simp [ledger, queueEnqueueItem, hf] at he
          | false =>
              simp only [ledger, queueEnqueueItem, hf, Option.bind_eq_bind, Option.bind_some,
                Option.some.injEq, Bool.false_eq_true, if_false, if_true] at he
              subst he
              refine ⟨pending ++ [x], h.exact.insertItem hc hf x, ?_⟩
              show (s.accepted ++ [x]).Perm _
              refine (h.balance.append_right [x]).trans (.of_eq ?_)
              simp only [List.append_assoc]
  | dequeue =>
      cases hq : s.queue.empty with
      | true => simp [ledger, queueDequeueItem, hq] at he
      | false =>
          obtain ⟨x, rest, rfl, hx, hrest⟩ := h.exact.removeItem hq
          simp only [ledger, queueDequeueItem, hq, Option.bind_eq_bind, Option.bind_some,
            Option.some.injEq, Bool.false_eq_true, if_false] at he
          subst he
          refine ⟨rest, hrest, ?_⟩
          show s.accepted.Perm (s.handed ++ (Queue.removeItem s.queue).2.2.toList ++
            (s.freed ++ (s.dropped ++ rest)))
          rw [hx]
          have hmove : (s.handed ++ (s.freed ++ (s.dropped ++ x :: rest))).Perm
              (x :: (s.handed ++ (s.freed ++ (s.dropped ++ rest)))) := by
            have hassoc : ∀ l, s.handed ++ (s.freed ++ (s.dropped ++ l)) =
                s.handed ++ s.freed ++ s.dropped ++ l := fun l ↦ by
              simp only [List.append_assoc]
            rw [hassoc, hassoc]
            exact List.perm_middle
          refine h.balance.trans (hmove.trans ?_)
          rw [List.append_assoc]
          exact List.perm_middle.symm
  | dequeueNull =>
      cases he
      exact ⟨pending, h⟩
  | clear freeItems =>
      cases freeItems with
      | true =>
          cases he
          refine ⟨[], h.exact.queueClear_true, h.balance.trans ?_⟩
          show (s.handed ++ (s.freed ++ (s.dropped ++ pending))).Perm
            (s.handed ++ (s.freed ++ (List.range s.queue.numElements).filterMap s.queue.itemTable ++
              (s.dropped ++ [] ++ [])))
          simp only [List.append_nil, List.append_assoc]
          refine (List.perm_append_comm.trans ?_).append_left _ |>.append_left _
          exact h.exact.scan.symm.append_right _
      | false =>
          cases he
          have hzero := h.exact.wellFormed.empty_iff_used.mp hc
          obtain rfl : pending = [] := List.eq_nil_of_length_eq_zero (h.exact.length_eq.trans hzero)
          refine ⟨[], h.exact.queueClear_false hc, ?_⟩
          show s.accepted.Perm (s.handed ++ (s.freed ++ [] ++
            (s.dropped ++ pendingItems s.queue ++ [])))
          rw [h.exact.pendingItems_eq]
          simpa only [List.append_nil] using h.balance

/-- A call that is not careful leaves an item in a slot outside the window. -/
theorem Balanced.not_clean {n : ℕ} {s s' : Ledger α} {op : Op α} {pending : List α}
    (h : Balanced s pending) (hc : ¬ Careful s op) (he : (ledger α n).step s op = some s') :
    ¬ Clean s'.queue := by
  have hwf := h.exact.wellFormed
  cases op with
  | enqueue item =>
      cases item with
      | none => exact absurd trivial hc
      | some x =>
          cases hf : s.queue.full with
          | true => simp [ledger, queueEnqueueItem, hf] at he
          | false =>
              simp only [ledger, queueEnqueueItem, hf, Option.bind_eq_bind, Option.bind_some,
                Option.some.injEq, Bool.false_eq_true, if_false, if_true] at he
              subst he
              have hone : ¬ 2 ≤ s.queue.numElements := hc
              have hlt := hwf.used_lt
              have hzero : used (insertItem s.queue x).1 = 0 := by
                rw [hwf.used_insertItem, if_pos (by omega)]
              intro hclean
              have hslot := hclean s.queue.head hwf.head_lt fun j hj ↦ by
                rw [(hwf.insertItem x).queueUsed_eq, hzero] at hj
                omega
              have hx : Function.update s.queue.itemTable s.queue.head (some x) s.queue.head =
                none := hslot
              rw [Function.update_self] at hx
              cases hx
  | dequeue => exact absurd trivial hc
  | dequeueNull => exact absurd trivial hc
  | clear freeItems =>
      cases freeItems with
      | true => exact absurd trivial hc
      | false =>
          cases he
          have hne : used s.queue ≠ 0 := mt hwf.empty_iff_used.mpr hc
          intro hclean
          change Clean (queueClear s.queue false).1 at hclean
          have hslot : s.queue.itemTable s.queue.tail = none :=
            hclean s.queue.tail hwf.tail_lt fun j hj ↦ by
              rw [(hwf.queueClear false).queueUsed_eq, Exact.used_queueClear] at hj
              omega
          obtain ⟨k, hk⟩ := Nat.exists_eq_succ_of_ne_zero hne
          have hwin := h.exact.window_eq
          rw [hk, window_cons, Nat.mod_eq_of_lt hwf.tail_lt, hslot] at hwin
          cases pending with
          | nil => simp at hwin
          | cons x rest => simp at hwin

theorem reachableVia_balanced {n : ℕ} {s : Ledger α} (h : (ledger α n).ReachableVia Careful s) :
    ∃ pending, Balanced s pending := by
  refine h.invariant (I := fun s ↦ ∃ pending, Balanced s pending) ?_ ?_
  · rintro s ⟨hq, ha, hh, hf, hd⟩
    exact ⟨[], queueCreate_exact hq, by rw [ha, hh, hf, hd]; rfl⟩
  · rintro s op s' ⟨pending, hp⟩ hc he
    exact hp.step hc he

/-- In every run of careful calls each accepted item goes one way exactly once, and
the first call that is not careful ends that. -/
theorem exactlyOnce_run (n : ℕ) :
    (∀ s, (ledger α n).ReachableVia Careful s → ExactlyOnce s) ∧
    ∀ s op s', (ledger α n).ReachableVia Careful s → (ledger α n).step s op = some s' →
      (ExactlyOnce s' ↔ Careful s op) := by
  refine ⟨fun s hs ↦ ?_, fun s op s' hs he ↦ ?_⟩
  · obtain ⟨pending, h⟩ := reachableVia_balanced hs
    exact h.exactlyOnce
  · obtain ⟨pending, h⟩ := reachableVia_balanced hs
    constructor
    · intro hs'
      by_contra hc
      exact h.not_clean hc he hs'.clean
    · intro hc
      obtain ⟨pending', h'⟩ := h.step hc he
      exact h'.exactlyOnce

/-- An item is dropped by `QueueClear(FALSE)`, and freed by a later `QueueClear(TRUE)`. -/
def clearedRun : Option (Ledger ℕ) :=
  (ledger ℕ 4).run ⟨fourSlots, [], [], [], []⟩
    [.enqueue (some 5), .clear false, .clear true]

theorem not_exactlyOnce :
    clearedRun.map (fun s ↦ (s.accepted, s.dropped, s.freed)) = some ([5], [5], [5]) ∧
    ¬ ∀ n s, (ledger ℕ n).Reachable s → ExactlyOnce s := by
  have hrun : clearedRun.map (fun s ↦ (s.accepted, s.dropped, s.freed)) =
      some ([5], [5], [5]) := by
    decide
  refine ⟨hrun, fun h ↦ ?_⟩
  obtain ⟨s, hs, he⟩ := Option.map_eq_some_iff.mp hrun
  have hr : (ledger ℕ 4).Reachable s := System.reachable_of_run ⟨queueCreate_four, rfl, rfl, rfl, rfl⟩ hs
  rw [Prod.mk.injEq, Prod.mk.injEq] at he
  obtain ⟨ha, hd, hf⟩ := he
  have hlen := (h 4 s hr).balance.length_eq
  simp only [ha, hd, hf, List.length_append, List.length_singleton] at hlen
  omega

end Beirdobot.Queue
