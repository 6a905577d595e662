import Beirdobot.Library.Ring
import Beirdobot.Library.System
import Beirdobot.Queue.Model
import Mathlib.Tactic.NormNum
import Mathlib.Data.Nat.Bits

/-!
# The ring as a bounded FIFO

What the operations do to the head, the tail and the two cached flags
(`WellFormed`), and from that what they do to the pending items (`Holds`).  A
queue of one slot is well formed but holds nothing: there the head and the tail
are always equal.
-/

namespace Beirdobot.Queue

open Library

variable {α : Type}

/-! ## Head, tail and flags -/

/-- The size of the queue is a power of two, and the flags are what
`queueConditionUpdate` computes. -/
structure WellFormed (q : QueueObject α) : Prop where
  size : ∃ i, i ≤ 31 ∧ q.numElements = 2 ^ i
  mask : q.numMask = q.numElements - 1
  head_lt : q.head < q.numElements
  tail_lt : q.tail < q.numElements
  empty_iff : q.empty = true ↔ q.head = q.tail
  full_iff : q.full = true ↔ (q.head + 1) % q.numElements = q.tail ∧ q.head ≠ q.tail

/-- The number of pending items. -/
def used (q : QueueObject α) : ℕ :=
  if q.tail ≤ q.head then q.head - q.tail else q.head + q.numElements - q.tail

theorem u32_and_mask {i m : ℕ} (hi : i ≤ 31) (hm : m = 2 ^ i - 1) (x : ℕ) :
    u32 x &&& m = x % 2 ^ i := by
  have hdvd : 2 ^ i ∣ 2 ^ 32 := Nat.pow_dvd_pow 2 (by omega)
  rw [hm, Nat.and_two_pow_sub_one_eq_mod, u32, Nat.mod_mod_of_dvd _ hdvd]

theorem succ_mod {x n : ℕ} (hx : x < n) : (x + 1) % n = if x + 1 = n then 0 else x + 1 := by
  split
  · rename_i h
    rw [h, Nat.mod_self]
  · exact Nat.mod_eq_of_lt (by omega)

/-- Recomputing the flags makes a queue well formed. -/
theorem conditionUpdate_wellFormed {q : QueueObject α} (hs : ∃ i, i ≤ 31 ∧ q.numElements = 2 ^ i)
    (hm : q.numMask = q.numElements - 1) (hh : q.head < q.numElements)
    (ht : q.tail < q.numElements) : WellFormed (queueConditionUpdate q).1 := by
  obtain ⟨i, hi, hn⟩ := hs
  have hmask : u32 (q.head + 1) &&& q.numMask = (q.head + 1) % q.numElements := by
    rw [u32_and_mask hi (hn ▸ hm), hn]
  refine ⟨⟨i, hi, hn⟩, hm, hh, ht, ?_, ?_⟩
  · simp only [queueConditionUpdate]
    split
    · simpa
    · split <;> simpa
  · simp only [queueConditionUpdate, hmask]
    split
    · simp_all
    · split <;> simp_all

namespace WellFormed

variable {q : QueueObject α} (h : WellFormed q)

include h

theorem and_mask (x : ℕ) : u32 x &&& q.numMask = x % q.numElements := by
  obtain ⟨i, hi, hn⟩ := h.size
  rw [u32_and_mask hi (hn ▸ h.mask), hn]

theorem used_lt : used q < q.numElements := by
  have hh := h.head_lt
  have ht := h.tail_lt
  unfold used
  split <;> omega

theorem head_eq : q.head = (q.tail + used q) % q.numElements := by
  have hh := h.head_lt
  have ht := h.tail_lt
  unfold used
  split
  · rw [Nat.mod_eq_of_lt] <;> omega
  · rw [show q.tail + (q.head + q.numElements - q.tail) = q.head + q.numElements by omega,
      Nat.add_mod_right, Nat.mod_eq_of_lt hh]

/-- `queueUsed` counts the pending items. -/
theorem queueUsed_eq : queueUsed q = used q := by
  have hh := h.head_lt
  have ht := h.tail_lt
  obtain ⟨i, hi, hn⟩ := h.size
  obtain ⟨m, hm⟩ : q.numElements ∣ 2 ^ 32 := by
    rw [hn]
    exact Nat.pow_dvd_pow 2 (by omega)
  rw [queueUsed, h.and_mask, used, hm]
  split
  · rw [show q.head + q.numElements + q.numElements * m - q.tail =
      (q.head - q.tail) + q.numElements * (m + 1) by rw [Nat.mul_add]; omega,
      Nat.add_mul_mod_self_left, Nat.mod_eq_of_lt (by omega)]
  · rw [show q.head + q.numElements + q.numElements * m - q.tail =
      (q.head + q.numElements - q.tail) + q.numElements * m by omega,
      Nat.add_mul_mod_self_left, Nat.mod_eq_of_lt (by omega)]

theorem empty_iff_used : q.empty = true ↔ used q = 0 := by
  have hh := h.head_lt
  have ht := h.tail_lt
  rw [h.empty_iff, used]
  split <;> omega

theorem full_iff_used : q.full = true ↔ used q + 1 = q.numElements ∧ used q ≠ 0 := by
  have hh := h.head_lt
  have ht := h.tail_lt
  rw [h.full_iff, succ_mod hh, used]
  split <;> split <;> omega

/-! ## What the operations do -/

theorem insertItem (x : α) : WellFormed (insertItem q x).1 := by
  have hh : u32 (q.head + 1) &&& q.numMask < q.numElements := by
    rw [h.and_mask]
    exact Nat.mod_lt _ (Nat.zero_lt_of_lt h.head_lt)
  exact conditionUpdate_wellFormed h.size h.mask hh h.tail_lt

theorem removeItem : WellFormed (removeItem q).1 := by
  have ht : u32 (q.tail + 1) &&& q.numMask < q.numElements := by
    rw [h.and_mask]
    exact Nat.mod_lt _ (Nat.zero_lt_of_lt h.tail_lt)
  exact conditionUpdate_wellFormed h.size h.mask h.head_lt ht

theorem queueClear (freeItems : Bool) : WellFormed (queueClear q freeItems).1 := by
  have hpos : 0 < q.numElements := Nat.zero_lt_of_lt h.head_lt
  exact conditionUpdate_wellFormed h.size h.mask hpos hpos

/-- An item is added, unless it goes round the whole ring. -/
theorem used_insertItem (x : α) :
    used (Queue.insertItem q x).1 = if used q + 1 = q.numElements then 0 else used q + 1 := by
  have hh := h.head_lt
  have ht := h.tail_lt
  simp only [used, Queue.insertItem, queueConditionUpdate, h.and_mask, succ_mod hh]
  split <;> split <;> split <;> split <;> omega

/-- An item is removed, if there is one. -/
theorem used_removeItem (hu : used q ≠ 0) : used (Queue.removeItem q).1 + 1 = used q := by
  have hh := h.head_lt
  have ht := h.tail_lt
  simp only [used, Queue.removeItem, queueConditionUpdate, h.and_mask, succ_mod ht] at hu ⊢
  split <;> split <;> split <;> simp_all <;> omega

end WellFormed

/-! ## Creating a queue -/

/-- The loop stops at the first power of two that is not below `numElements`. -/
theorem roundLoop_spec {n k i : ℕ} (hn : n ≤ 2 ^ 31) (hk : k + i = 32) (hi : i ≤ 31)
    (hlt : ∀ j < i, 2 ^ j < n) :
    roundLoop n k i ≤ 31 ∧ n ≤ 2 ^ roundLoop n k i ∧ ∀ j < roundLoop n k i, 2 ^ j < n := by
  induction k generalizing i with
  | zero => omega
  | succ k ih =>
      rw [roundLoop]
      by_cases h31 : i = 31
      · -- `1 << 31` is negative, and as a `uint64` it is above every size
        subst h31
        have hshift : ¬ shiftU64 31 < n := by rw [shiftU64, if_pos rfl]; omega
        rw [if_neg hshift]
        exact ⟨le_refl 31, hn, hlt⟩
      · rw [shiftU64, if_neg h31]
        split
        · rename_i h
          refine ih (by omega) (by omega) fun j hj ↦ ?_
          rcases Nat.lt_succ_iff_lt_or_eq.mp hj with hj | rfl
          · exact hlt j hj
          · exact h
        · rename_i h
          exact ⟨hi, Nat.le_of_not_lt h, hlt⟩

/-- A created queue is empty, and its size is the requested one rounded up to a
power of two. -/
theorem queueCreate_spec {n : ℕ} (h₁ : 1 ≤ n) (hn : n ≤ 2 ^ 31) :
    ∃ q : QueueObject α, queueCreate n = some q ∧ WellFormed q ∧ used q = 0 ∧
      q.empty = true ∧ q.full = false ∧ n ≤ q.numElements ∧ (q.numElements = 1 ↔ n = 1) := by
  obtain ⟨hi, hle, hlt⟩ := roundLoop_spec (i := 0) hn rfl (by omega) (by simp)
  have hne : roundLoop n 32 0 ≠ 32 := by omega
  have hu : u32 (2 ^ roundLoop n 32 0) = 2 ^ roundLoop n 32 0 :=
    Nat.mod_eq_of_lt (Nat.pow_lt_pow_right (by omega) (by omega))
  have hpos : 0 < 2 ^ roundLoop n 32 0 := Nat.two_pow_pos _
  let q : QueueObject α :=
    { numElements := u32 (2 ^ roundLoop n 32 0), numMask := u32 (2 ^ roundLoop n 32 0) - 1,
      head := 0, tail := 0, itemTable := fun _ ↦ none, full := false, empty := true }
  have hq : queueCreate n = some q := by
    simp only [queueCreate, if_neg (show n ≠ 0 by omega), if_neg hne, q]
  have hnum : q.numElements = 2 ^ roundLoop n 32 0 := hu
  refine ⟨q, hq, ⟨⟨roundLoop n 32 0, hi, hnum⟩, rfl, ?_, ?_, by simp [q], by simp [q]⟩,
    by simp [used, q], rfl, rfl, ?_, ?_⟩
  · exact hnum ▸ hpos
  · exact hnum ▸ hpos
  · exact hnum ▸ hle
  · rw [hnum]
    constructor
    · intro h
      omega
    · rintro rfl
      by_contra h
      have h0 : 0 < roundLoop 1 32 0 := Nat.pos_of_ne_zero fun e ↦ h (by simp [e])
      exact absurd (hlt 0 h0) (by omega)

/-! ## Pending items -/

/-- The pending items are in the slots from the tail up to the head. -/
structure Holds (q : QueueObject α) (pending : List α) : Prop where
  wellFormed : WellFormed q
  two_le : 2 ≤ q.numElements
  length_eq : pending.length = used q
  window_eq : window q.numElements q.itemTable q.tail (used q) = pending.map some

namespace Holds

variable {q : QueueObject α} {pending : List α} (h : Holds q pending)

include h

theorem empty_iff : q.empty = true ↔ pending = [] := by
  rw [h.wellFormed.empty_iff_used, ← h.length_eq, List.length_eq_zero_iff]

theorem full_iff : q.full = true ↔ pending.length = q.numElements - 1 := by
  have hlt := h.wellFormed.used_lt
  have htwo := h.two_le
  rw [h.wellFormed.full_iff_used, h.length_eq]
  omega

/-- An accepted item is the last of the pending ones. -/
theorem insertItem (hf : q.full = false) (x : α) :
    Holds (Queue.insertItem q x).1 (pending ++ [x]) := by
  have hwf := h.wellFormed
  have hlt := hwf.used_lt
  have hroom : used q + 1 ≠ q.numElements := by
    intro he
    have htwo := h.two_le
    have hfull : q.full = true := hwf.full_iff_used.mpr ⟨he, by omega⟩
    rw [hf] at hfull
    cases hfull
  have hused : used (Queue.insertItem q x).1 = used q + 1 := by
    rw [hwf.used_insertItem, if_neg hroom]
  refine ⟨hwf.insertItem x, h.two_le, ?_, ?_⟩
  · rw [hused, List.length_append, h.length_eq]
    rfl
  · rw [hused]
    show window q.numElements (Function.update q.itemTable q.head (some x)) q.tail (used q + 1) = _
    rw [window_succ, hwf.head_eq, window_update_after hlt, h.window_eq, Function.update_self,
      List.map_append]
    rfl

/-- What is handed out is the first of the pending items. -/
theorem removeItem (he : q.empty = false) :
    ∃ x rest, pending = x :: rest ∧ (Queue.removeItem q).2.2 = some x ∧
      Holds (Queue.removeItem q).1 rest := by
  have hwf := h.wellFormed
  have hlt := hwf.used_lt
  have hne : used q ≠ 0 := by
    intro h0
    rw [hwf.empty_iff_used.mpr h0] at he
    cases he
  have hused := hwf.used_removeItem hne
  cases pending with
  | nil => exact absurd h.length_eq.symm hne
  | cons x rest =>
      have hwin := h.window_eq
      rw [← hused, window_cons, List.map_cons, List.cons.injEq,
        Nat.mod_eq_of_lt hwf.tail_lt] at hwin
      refine ⟨x, rest, rfl, hwin.1, hwf.removeItem, h.two_le, ?_, ?_⟩
      · have hlen := h.length_eq
        rw [List.length_cons] at hlen
        omega
      · show window q.numElements (Function.update q.itemTable q.tail none)
          (u32 (q.tail + 1) &&& q.numMask) _ = _
        have hup := window_update_before (t := q.itemTable) (a := q.tail)
          (show used (Queue.removeItem q).1 < q.numElements by omega) none
        rw [Nat.mod_eq_of_lt hwf.tail_lt] at hup
        rw [hwf.and_mask, hup, hwin.2]

/-- Clearing drops every pending item. -/
theorem queueClear (freeItems : Bool) : Holds (Queue.queueClear q freeItems).1 [] := by
  have hused : used (Queue.queueClear q freeItems).1 = 0 := by
    simp [used, Queue.queueClear, queueConditionUpdate]
  refine ⟨h.wellFormed.queueClear freeItems, h.two_le, hused.symm, ?_⟩
  rw [hused]
  rfl

end Holds

/-- A queue that was just created holds nothing. -/
theorem queueCreate_holds {n : ℕ} (h₂ : 2 ≤ n) (hn : n ≤ 2 ^ 31) {q : QueueObject α}
    (hq : queueCreate n = some q) : Holds q [] := by
  obtain ⟨q', hc, hwf, hu, -, -, hle, -⟩ := queueCreate_spec (α := α) (by omega) hn
  rw [hc, Option.some.injEq] at hq
  subst hq
  exact ⟨hwf, by omega, hu.symm, by rw [hu]; rfl⟩

/-- The queue that is created for four elements. -/
def fourSlots : QueueObject ℕ where
  numElements := 4
  numMask := 3
  head := 0
  tail := 0
  itemTable := fun _ ↦ none
  full := false
  empty := true

theorem queueCreate_four : queueCreate 4 = some fourSlots := rfl

/-! ## Runs -/

/-- A queue, the items accepted and the items handed out since it was last
cleared. -/
structure State (α : Type) where
  queue : QueueObject α
  accepted : List α
  handed : List (Option α)

/-- A completed call.  `dequeueNull` is a `QueueDequeueItem` that gives up, at its
timeout or because the program is shutting down. -/
inductive Op (α : Type)
  | enqueue (item : Option α)
  | dequeue
  | dequeueNull
  | clear (freeItems : Bool)

/-- The runs of completed calls on a queue created for `n` elements. -/
def system (α : Type) (n : ℕ) : System (State α) (Op α) where
  init s := queueCreate n = some s.queue ∧ s.accepted = [] ∧ s.handed = []
  step s
    | .enqueue item => do
        let (queue, _, ok) ← queueEnqueueItem s.queue item
        some { s with queue, accepted := if ok then s.accepted ++ item.toList else s.accepted }
    | .dequeue => do
        let (queue, _, item) ← queueDequeueItem s.queue
        some { s with queue, handed := s.handed ++ [item] }
    | .dequeueNull => some s
    | .clear freeItems => some ⟨(queueClear s.queue freeItems).1, [], []⟩

/-- The queue is a bounded FIFO: what is handed out is what was accepted, in that
order, and the flags and `queueUsed` speak of the items that are pending. -/
def RefinesFifo (α : Type) (n : ℕ) : Prop :=
  ∀ s, (system α n).Reachable s → ∃ pending : List α,
    s.accepted.map some = s.handed ++ pending.map some ∧
    (s.queue.empty = true ↔ pending = []) ∧
    (s.queue.full = true ↔ pending.length = s.queue.numElements - 1) ∧
    queueUsed s.queue = pending.length

/-- A completed call keeps the pending items between the handed out and the
accepted ones. -/
theorem step_holds {n : ℕ} {s s' : State α} {op : Op α} {pending : List α}
    (h : Holds s.queue pending) (ha : s.accepted.map some = s.handed ++ pending.map some)
    (he : (system α n).step s op = some s') :
    ∃ pending', Holds s'.queue pending' ∧
      s'.accepted.map some = s'.handed ++ pending'.map some := by
  cases op with
  | enqueue item =>
      cases item with
      | none =>
          simp only [system, queueEnqueueItem, Option.bind_eq_bind, Option.bind_some,
            Option.some.injEq] at he
          subst he
          exact ⟨pending, h, ha⟩
      | some x =>
          cases hf : s.queue.full with
          | true => simp [system, queueEnqueueItem, hf] at he
          | false =>
              simp only [system, queueEnqueueItem, hf, Option.bind_eq_bind, Option.bind_some,
                Option.some.injEq, Bool.false_eq_true, if_false, if_true] at he
              subst he
              refine ⟨pending ++ [x], h.insertItem hf x, ?_⟩
              simp [ha]
  | dequeue =>
      cases hq : s.queue.empty with
      | true => simp [system, queueDequeueItem, hq] at he
      | false =>
          obtain ⟨x, rest, rfl, hx, hrest⟩ := h.removeItem hq
          simp only [system, queueDequeueItem, hq, Option.bind_eq_bind, Option.bind_some,
            Option.some.injEq, Bool.false_eq_true, if_false] at he
          subst he
          refine ⟨rest, hrest, ?_⟩
          simp [ha, hx]
  | dequeueNull =>
      cases he
      exact ⟨pending, h, ha⟩
  | clear freeItems =>
      cases he
      exact ⟨[], h.queueClear freeItems, rfl⟩

theorem reachable_holds {n : ℕ} (h₂ : 2 ≤ n) (hn : n ≤ 2 ^ 31) {s : State α}
    (h : (system α n).Reachable s) :
    ∃ pending, Holds s.queue pending ∧ s.accepted.map some = s.handed ++ pending.map some := by
  refine h.invariant (I := fun s ↦ ∃ pending, Holds s.queue pending ∧
    s.accepted.map some = s.handed ++ pending.map some) ?_ ?_
  · rintro s ⟨hq, ha, hh⟩
    exact ⟨[], queueCreate_holds h₂ hn hq, by rw [ha, hh]; rfl⟩
  · rintro s op s' ⟨pending, hp, ha⟩ he
    exact step_holds hp ha he

/-- A queue is a bounded FIFO exactly if it is created for two elements or more:
the ring of one slot has room for no item, but is never full. -/
theorem refinesFifo_iff {n : ℕ} (h₁ : 1 ≤ n) (hn : n ≤ 2 ^ 31) : RefinesFifo α n ↔ 2 ≤ n := by
  constructor
  · intro h
    by_contra hlt
    obtain ⟨q, hc, -, -, -, hf, -, hsize⟩ := queueCreate_spec (α := α) h₁ hn
    obtain ⟨pending, hp, -, hfull, -⟩ := h ⟨q, [], []⟩ (.init ⟨hc, rfl, rfl⟩)
    obtain rfl : pending = [] := by simpa using hp.symm
    have hq : q.full = true := hfull.mpr (by
      show 0 = q.numElements - 1
      rw [hsize.mpr (by omega)])
    rw [hf] at hq
    cases hq
  · intro h₂ s hs
    obtain ⟨pending, hp, ha⟩ := reachable_holds h₂ hn hs
    exact ⟨pending, ha, hp.empty_iff, hp.full_iff,
      hp.wellFormed.queueUsed_eq.trans hp.length_eq.symm⟩

theorem refinesFifo_two : 1 ≤ 2 ∧ 2 ≤ 2 ^ 31 ∧ RefinesFifo ℕ 2 :=
  ⟨by omega, by omega, (refinesFifo_iff (by omega) (by omega)).mpr (le_refl 2)⟩

/-- An item that is put on a queue created for one element is accepted and gone. -/
theorem not_refinesFifo : ¬ ∀ n, 1 ≤ n → n ≤ 2 ^ 31 → RefinesFifo ℕ n := by
  intro h
  have hinit : (system ℕ 1).Reachable ⟨(queueCreate 1).get rfl, [], []⟩ := .init ⟨rfl, rfl, rfl⟩
  have hs := hinit.step (e := .enqueue (some 5)) rfl
  obtain ⟨pending, hp, hempty, -⟩ := h 1 (le_refl 1) (by omega) _ hs
  have hnil : pending = [] := hempty.mp rfl
  rw [hnil] at hp
  cases hp

end Beirdobot.Queue
