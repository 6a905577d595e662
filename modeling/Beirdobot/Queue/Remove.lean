import Beirdobot.Queue.Fifo

/-!
# Removing an item out of order

`QueueRemoveItem` takes the tail for the end where items are added, and moves it
back by one slot.  So the window gets longer, except in a ring of two slots, where
one slot back is one slot forward.
-/

namespace Beirdobot.Queue

open Library

variable {α : Type}

/-- `memmove` of `count` slots within a table. -/
def memmove (table : ℕ → Option α) (dst src count : ℕ) : ℕ → Option α := fun i ↦
  if dst ≤ i ∧ i < dst + count then table (src + (i - dst)) else table i

/-- The lines of `QueueRemoveItem` that close the gap at `index`. -/
def closeGap (q : QueueObject α) (index : ℕ) : ℕ → Option α :=
  if q.tail < index then
    -- "The tail is wrapped, we have to move 3 times"
    let table := if index ≠ q.numElements - 1
      then memmove q.itemTable index (index + 1) (q.numElements - index - 1)
      else q.itemTable
    let table := Function.update table (q.numElements - 1) (table 0)
    if q.tail ≠ 0 then memmove table 0 1 q.tail else table
  else
    memmove q.itemTable index (index + 1) (q.tail - index)

/-- `queue->tail--`, within the mask. -/
def tailBack (q : QueueObject α) : ℕ := u32 (q.tail + 2 ^ 32 - 1) &&& q.numMask

/-- `QueueRemoveItem`, which does not look at its `locked`, with the index that it
returns. -/
def queueRemoveItem (q : QueueObject α) (index : ℕ) : QueueObject α × Signals × ℕ :=
  if index = q.head then
    let (q, signals) := queueConditionUpdate { q with
      itemTable := Function.update q.itemTable q.head none
      head := u32 (q.head + 1) &&& q.numMask }
    (q, signals, index)
  else if index = q.tail then
    let (q', signals) := queueConditionUpdate { q with
      itemTable := Function.update q.itemTable q.tail none
      tail := tailBack q }
    (q', signals, u32 (index + 2 ^ 32 - 1) &&& q.numMask)
  else
    let (q', signals) := queueConditionUpdate { q with
      itemTable := Function.update (closeGap q index) q.tail none
      tail := tailBack q }
    (q', signals, u32 (index + 2 ^ 32 - 1) &&& q.numMask)

/-- The slot of the pending item number `j`. -/
def slot (q : QueueObject α) (j : ℕ) : ℕ := (q.tail + j) % q.numElements

/-- Afterwards the pending items are the same ones without number `j`, there is one
less of them, and the flags say so. -/
structure Removes (q q' : QueueObject α) (pending : List α) (j : ℕ) : Prop where
  holds : Holds q' (pending.eraseIdx j)
  used_succ : queueUsed q' + 1 = queueUsed q
  empty_iff : q'.empty = true ↔ pending.eraseIdx j = []
  full_iff : q'.full = true ↔ (pending.eraseIdx j).length = q.numElements - 1

/-! ## What becomes of the window -/

section Window

variable {q : QueueObject α}

theorem conditionUpdate_numElements (q : QueueObject α) :
    (queueConditionUpdate q).1.numElements = q.numElements := rfl

/-- For an index of the window all branches of `queueRemoveItem` move the tail back. -/
theorem queueRemoveItem_eq {index : ℕ} (hi : index ≠ q.head) :
    ∃ table, (queueRemoveItem q index).1 =
      (queueConditionUpdate { q with itemTable := table, tail := tailBack q }).1 := by
  by_cases ht : index = q.tail
  · refine ⟨Function.update q.itemTable q.tail none, ?_⟩
    rw [queueRemoveItem, if_neg hi, if_pos ht]
  · refine ⟨Function.update (closeGap q index) q.tail none, ?_⟩
    rw [queueRemoveItem, if_neg hi, if_neg ht]

theorem WellFormed.tailBack_eq (h : WellFormed q) :
    tailBack q = if q.tail = 0 then q.numElements - 1 else q.tail - 1 := by
  have ht := h.tail_lt
  obtain ⟨i, hi, hn⟩ := h.size
  obtain ⟨m, hm⟩ : q.numElements ∣ 2 ^ 32 := by
    rw [hn]
    exact Nat.pow_dvd_pow 2 (by omega)
  rw [tailBack, h.and_mask, hm]
  split
  · rename_i h0
    have hm0 : m ≠ 0 := by
      rintro rfl
      simp at hm
    obtain ⟨k, rfl⟩ := Nat.exists_eq_succ_of_ne_zero hm0
    rw [h0, Nat.mul_succ, Nat.zero_add, Nat.add_sub_assoc (by omega), Nat.mul_add_mod,
      Nat.mod_eq_of_lt (by omega)]
  · rw [show q.tail + q.numElements * m - 1 = q.tail - 1 + q.numElements * m by omega,
      Nat.add_mul_mod_self_left, Nat.mod_eq_of_lt (by omega)]

theorem WellFormed.slot_ne_head (h : WellFormed q) {j : ℕ} (hj : j < used q) :
    slot q j ≠ q.head := by
  rw [slot, h.head_eq]
  exact ring_ne hj (by have hlt := h.used_lt; omega)

theorem WellFormed.moveBack (h : WellFormed q) (table : ℕ → Option α) :
    WellFormed (queueConditionUpdate { q with itemTable := table, tail := tailBack q }).1 := by
  have hpos : 0 < q.numElements := Nat.zero_lt_of_lt h.tail_lt
  refine conditionUpdate_wellFormed h.size h.mask h.head_lt ?_
  show tailBack q < q.numElements
  rw [tailBack, h.and_mask]
  exact Nat.mod_lt _ hpos

/-- Moving the tail back adds a slot to the window, unless it was the whole ring. -/
theorem WellFormed.used_moveBack (h : WellFormed q) (table : ℕ → Option α) :
    used (queueConditionUpdate { q with itemTable := table, tail := tailBack q }).1 =
      if used q + 1 = q.numElements then 0 else used q + 1 := by
  have hh := h.head_lt
  have ht := h.tail_lt
  simp only [used, queueConditionUpdate, h.tailBack_eq]
  split <;> split <;> split <;> split <;> omega

end Window

/-- `QueueRemoveItem` removes a pending item and no other exactly if the ring has
two slots. -/
theorem queueRemoveItem_removes_iff {q : QueueObject α} {pending : List α} (h : Holds q pending)
    {j : ℕ} (hj : j < pending.length) :
    Removes q (queueRemoveItem q (slot q j)).1 pending j ↔ q.numElements = 2 := by
  have hwf := h.wellFormed
  have hlt := hwf.used_lt
  rw [h.length_eq] at hj
  obtain ⟨table, he⟩ := queueRemoveItem_eq (hwf.slot_ne_head hj)
  have hwf' := hwf.moveBack table
  have hused := hwf.used_moveBack table
  rw [← he] at hwf' hused
  constructor
  · intro hr
    have hsucc := hr.used_succ
    rw [hwf'.queueUsed_eq, hwf.queueUsed_eq, hused] at hsucc
    split at hsucc <;> omega
  · intro h₂
    -- one item is pending, and back from its slot is the head
    have hone : used q = 1 := by omega
    have hlen := h.length_eq
    obtain ⟨x, rfl⟩ := List.length_eq_one_iff.mp (hlen.trans hone)
    obtain rfl : j = 0 := by omega
    have hzero : used (queueRemoveItem q (slot q 0)).1 = 0 := by
      rw [hused, if_pos (by omega)]
    have hnum : (queueRemoveItem q (slot q 0)).1.numElements = q.numElements := by
      rw [he, conditionUpdate_numElements]
    have hh : Holds (queueRemoveItem q (slot q 0)).1 ([x].eraseIdx 0) :=
      ⟨hwf', by rw [hnum, h₂], by rw [hzero]; rfl, by rw [hzero]; rfl⟩
    refine ⟨hh, ?_, hh.empty_iff, ?_⟩
    · rw [hwf'.queueUsed_eq, hwf.queueUsed_eq, hzero, hone]
    · rw [hh.full_iff, hnum]

/-- A queue of two elements with one item. -/
def oneOfTwo : QueueObject ℕ := (insertItem ((queueCreate 2).get rfl) 5).1

theorem queueRemoveItem_removes_two :
    Holds oneOfTwo [5] ∧ 0 < [5].length ∧
      Removes oneOfTwo (queueRemoveItem oneOfTwo (slot oneOfTwo 0)).1 [5] 0 := by
  have h : Holds oneOfTwo [5] :=
    (queueCreate_holds (α := ℕ) (n := 2) (by omega) (by omega) (Option.some_get _).symm).insertItem
      (by decide) 5
  exact ⟨h, by decide, (queueRemoveItem_removes_iff h (by decide)).mpr (by decide)⟩

/-- A queue of four elements with two items. -/
def twoOfFour : QueueObject ℕ := (insertItem (insertItem fourSlots 5).1 6).1

/-- The older of two items is removed, and then three are pending. -/
theorem not_queueRemoveItem_removes :
    queueUsed (queueRemoveItem twoOfFour (slot twoOfFour 0)).1 = 3 ∧
    ¬ ∀ (q : QueueObject ℕ) (pending : List ℕ), Holds q pending → ∀ j < pending.length,
      Removes q (queueRemoveItem q (slot q j)).1 pending j := by
  refine ⟨by decide, fun h ↦ ?_⟩
  have h₀ : Holds fourSlots [] :=
    queueCreate_holds (n := 4) (by omega) (by omega) queueCreate_four
  have h₂ : Holds twoOfFour [5, 6] := (h₀.insertItem (by decide) 5).insertItem (by decide) 6
  have hused := (h _ _ h₂ 0 (by decide)).used_succ
  exact absurd hused (by decide)

end Beirdobot.Queue
