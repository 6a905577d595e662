import Beirdobot.Libc
import Mathlib.Logic.Function.Basic

/-!
# The bounded queue

A transcription of `queue.c`.  Items are the non-null pointers of `α`, a slot of
the table is `none` when it holds `NULL`.  The `uint32` fields are natural
numbers, with the wrap-around of `uint32` written out.  The waits are not part of
these functions: each one is what a thread does while it holds the mutex.
-/

namespace Beirdobot.Queue

/-- `QueueObject_t` -/
structure QueueObject (α : Type) where
  numElements : ℕ
  numMask : ℕ
  head : ℕ
  tail : ℕ
  itemTable : ℕ → Option α
  full : Bool
  empty : Bool

/-- The condition variables that are signalled. -/
structure Signals where
  cNotFull : Bool
  cNotEmpty : Bool
deriving DecidableEq, Repr

variable {α : Type}

/-- `(uint64)(1<<i)`: the shift is one of `int`, so that `1 << 31` is negative. -/
def shiftU64 (i : ℕ) : ℕ := if i = 31 then 2 ^ 64 - 2 ^ 31 else 2 ^ i

/-- The loop of `QueueCreate` that looks for the power of two, with the number of
turns that are left before `i` is 32. -/
def roundLoop (numElements : ℕ) : ℕ → ℕ → ℕ
  | 0, i => i
  | k + 1, i => if shiftU64 i < numElements then roundLoop numElements k (i + 1) else i

/-- `QueueCreate` -/
def queueCreate (numElements : ℕ) : Option (QueueObject α) :=
  if numElements = 0 then none else
  let i := roundLoop numElements 32 0
  let i := if i = 32 then 31 else i
  let numElements := u32 (2 ^ i)
  some {
    numElements
    numMask := numElements - 1
    head := 0
    tail := 0
    itemTable := fun _ ↦ none
    full := false
    empty := true }

/-- `QueueConditionUpdate`, with the signals it sends. -/
def queueConditionUpdate (q : QueueObject α) : QueueObject α × Signals :=
  let (empty, full) :=
    if q.head = q.tail then (true, false)
    else if u32 (q.head + 1) &&& q.numMask = q.tail then (false, true)
    else (false, false)
  ({ q with empty, full },
    { cNotFull := q.full != full && !full, cNotEmpty := q.empty != empty && !empty })

/-- The lines of `QueueEnqueueItem` after its wait. -/
def insertItem (q : QueueObject α) (item : α) : QueueObject α × Signals :=
  queueConditionUpdate { q with
    itemTable := Function.update q.itemTable q.head (some item)
    head := u32 (q.head + 1) &&& q.numMask }

/-- `QueueEnqueueItem` once it completes, with the value it returns: `none` while
it has to wait.  A null item is refused before any locking. -/
def queueEnqueueItem (q : QueueObject α) (item : Option α) :
    Option (QueueObject α × Signals × Bool) :=
  match item with
  | none => some (q, ⟨false, false⟩, false)
  | some item =>
      if q.full then none
      else
        let (q, signals) := insertItem q item
        some (q, signals, true)

/-- The lines of `QueueDequeueItem` after its wait. -/
def removeItem (q : QueueObject α) : QueueObject α × Signals × Option α :=
  let item := q.itemTable q.tail
  let (q, signals) := queueConditionUpdate { q with
    itemTable := Function.update q.itemTable q.tail none
    tail := u32 (q.tail + 1) &&& q.numMask }
  (q, signals, item)

/-- `QueueDequeueItem` once it completes with an item: `none` while it has to
wait. -/
def queueDequeueItem (q : QueueObject α) : Option (QueueObject α × Signals × Option α) :=
  if q.empty then none else some (removeItem q)

/-- `QueueClear`, with the signals it sends and the items it frees. -/
def queueClear (q : QueueObject α) (freeItems : Bool) : QueueObject α × Signals × List α :=
  let freed := if freeItems then (List.range q.numElements).filterMap q.itemTable else []
  let itemTable := if freeItems
    then fun i ↦ if i < q.numElements then none else q.itemTable i
    else q.itemTable
  let (q, signals) := queueConditionUpdate { q with itemTable, head := 0, tail := 0 }
  (q, signals, freed)

/-- `QueueUsed` -/
def queueUsed (q : QueueObject α) : ℕ :=
  u32 (q.head + q.numElements + 2 ^ 32 - q.tail) &&& q.numMask

end Beirdobot.Queue
