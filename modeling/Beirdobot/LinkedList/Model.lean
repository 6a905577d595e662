import Beirdobot.Library.LinkedSeq
import Mathlib.Data.Nat.Notation

/-!
# The linked list

A transcription of `linked_list.c`.  The pointer fields of the items are functions
of the item's address; a function returns `none` where the C code locks a mutex
that is already held.
-/

namespace Beirdobot

/-- `Locked_t`: whether the caller already holds the mutex. -/
inductive Locked where
  | unlocked
  | locked
deriving DecidableEq, Repr

end Beirdobot

namespace Beirdobot.Linked

open Library

/-- `LinkedListLoc_t` -/
inductive Location where
  | atHead
  | atTail
deriving DecidableEq, Repr

/-- `LinkedList_t` and the links of the items in memory: `self` is the address of
the list, `owner` the `list` field of each item, `mutex` whether the mutex is held. -/
structure LinkedList (ι : Type) extends SeqLinks ι where
  head : Option ι
  tail : Option ι
  owner : ι → Option ℕ
  self : ℕ
  mutex : Bool

variable {ι : Type}

/-- `LinkedListCreate`, in a memory whose items have arbitrary fields. -/
def linkedListCreate (self : ℕ) (items : SeqLinks ι) (owner : ι → Option ℕ) : LinkedList ι :=
  { items with head := none, tail := none, owner, self, mutex := false }

/-- `LinkedListLock`: locking a mutex that is held does not return. -/
def linkedListLock (l : LinkedList ι) : Option (LinkedList ι) :=
  if l.mutex then none else some { l with mutex := true }

/-- `LinkedListUnlock` -/
def linkedListUnlock (l : LinkedList ι) : LinkedList ι := { l with mutex := false }

/-- The `if( locked == UNLOCKED )` guard before `LinkedListLock`. -/
def enter (l : LinkedList ι) : Locked → Option (LinkedList ι)
  | .unlocked => linkedListLock l
  | .locked => some l

/-- The `if( locked == UNLOCKED )` guard before `LinkedListUnlock`. -/
def leave (l : LinkedList ι) : Locked → LinkedList ι
  | .unlocked => linkedListUnlock l
  | .locked => l

variable [DecidableEq ι]

/-- `LinkedListAdd` -/
def linkedListAdd (l : LinkedList ι) (item : Option ι) (lock : Locked) (location : Location) :
    Option (LinkedList ι) :=
  match item with
  | none => some l
  | some item => do
      let l ← enter l lock
      let l := { l with owner := Function.update l.owner item (some l.self) }
      let l := match location with
        | .atHead => { l with
            toSeqLinks := (l.toSeqLinks.setPrev item none).setNext item l.head
            head := some item }
        | .atTail => { l with
            toSeqLinks := (l.toSeqLinks.setPrev item l.tail).setNext item none
            tail := some item }
      let l := { l with toSeqLinks := l.toSeqLinks.linkPrev (l.next item) (some item) }
      let l := { l with toSeqLinks := l.toSeqLinks.linkNext (l.prev item) (some item) }
      let l := if l.head = none then { l with head := some item } else l
      let l := if l.tail = none then { l with tail := some item } else l
      some (leave l lock)

/-- `LinkedListRemove` -/
def linkedListRemove (l : LinkedList ι) (item : Option ι) (lock : Locked) :
    Option (LinkedList ι) :=
  match item with
  | none => some l
  | some item =>
      if l.owner item ≠ some l.self then some l else do
      let l ← enter l lock
      let l := { l with toSeqLinks := l.toSeqLinks.linkNext (l.prev item) (l.next item) }
      let l := { l with toSeqLinks := l.toSeqLinks.linkPrev (l.next item) (l.prev item) }
      let l := if l.head = some item then { l with head := l.next item } else l
      let l := if l.tail = some item then { l with tail := l.prev item } else l
      some (leave { l with owner := Function.update l.owner item none } lock)

end Beirdobot.Linked
