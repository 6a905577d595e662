import Beirdobot.Library.LinkedTree
import Beirdobot.Libc
import Beirdobot.LinkedList.Model
import Mathlib.Data.Int.Notation

/-!
# The balanced binary tree

A transcription of `balanced_btree.c`.  The pointer fields of the items are
functions of the item's address (`Links`), so `item->left = p` is `setLeft item p`;
`Option` results are `none` where the C code dereferences a null pointer, locks a
mutex that is already held, or walks further than its `fuel`.

Weights are natural numbers: a tree of `2 ^ 31` items, where the `int` of the
source would overflow, does not fit the address space the bot is built for.
-/

namespace Beirdobot.BTree

open Library

/-- The pointers of the items and the root pointer of the tree. -/
structure Pointers (ι : Type) extends Links ι where
  root : Option ι

/-- A tree and the items in memory: `self` is the tree's own address, `owner` the
`btree` field of each item, `mutex` whether the mutex is held. -/
structure BalancedBTree (ι K : Type) extends Pointers ι where
  key : ι → K
  owner : ι → Option ℕ
  self : ℕ
  mutex : Bool

variable {ι K : Type}

/-- `BalancedBTreeCreate`, in a memory whose items have arbitrary fields. -/
def balancedBTreeCreate (self : ℕ) (items : Links ι) (key : ι → K) (owner : ι → Option ℕ) :
    BalancedBTree ι K :=
  { items with root := none, key, owner, self, mutex := false }

/-- `BalancedBTreeLock`: locking a mutex that is held does not return. -/
def balancedBTreeLock (s : BalancedBTree ι K) : Option (BalancedBTree ι K) :=
  if s.mutex then none else some { s with mutex := true }

/-- `BalancedBTreeUnlock` -/
def balancedBTreeUnlock (s : BalancedBTree ι K) : BalancedBTree ι K := { s with mutex := false }

/-- The `if( locked == UNLOCKED )` guard before `BalancedBTreeLock`. -/
def enter (s : BalancedBTree ι K) : Locked → Option (BalancedBTree ι K)
  | .unlocked => balancedBTreeLock s
  | .locked => some s

/-- The `if( locked == UNLOCKED )` guard before `BalancedBTreeUnlock`. -/
def leave (s : BalancedBTree ι K) : Locked → BalancedBTree ι K
  | .unlocked => balancedBTreeUnlock s
  | .locked => s

/-- The `keyCompare` of a tree with `BTREE_KEY_STRING`, on keys that are `caseless`:
`strcasecmp`, cut to its sign. -/
def keyCompareString (l r : CString) : ℤ := if l = r then 0 else if l < r then -1 else 1

/-- The `keyCompare` of a tree with `BTREE_KEY_INT`, on keys whose difference fits an
`int`. -/
def keyCompareInt (l r : ℤ) : ℤ :=
  if 1 < l - r then 1 else if l - r < -1 then -1 else l - r

/-! ## Walks -/

/-- `BalancedBTreeWeight`.  The source tests the children for null before it
recurses, and a null root weighs nothing. -/
def balancedBTreeWeight (s : Links ι) : ℕ → Option ι → Option ℕ
  | _, none => some 0
  | 0, some _ => none
  | fuel + 1, some root => do
      let left ← balancedBTreeWeight s fuel (s.left root)
      let right ← balancedBTreeWeight s fuel (s.right root)
      some (1 + left + right)

/-- The loop of `BalancedBTreeFindGreatest`, with its `prev`. -/
def findGreatestLoop (s : Links ι) : ℕ → Option ι → Option ι → Option (Option ι)
  | _, prev, none => some prev
  | 0, _, some _ => none
  | fuel + 1, _, some root => findGreatestLoop s fuel (some root) (s.right root)

/-- `BalancedBTreeFindGreatest` -/
def balancedBTreeFindGreatest (s : Links ι) (fuel : ℕ) (root : Option ι) : Option (Option ι) :=
  findGreatestLoop s fuel none root

/-- The loop of `BalancedBTreeFindLeast`, with its `prev`. -/
def findLeastLoop (s : Links ι) : ℕ → Option ι → Option ι → Option (Option ι)
  | _, prev, none => some prev
  | 0, _, some _ => none
  | fuel + 1, _, some root => findLeastLoop s fuel (some root) (s.left root)

/-- `BalancedBTreeFindLeast` -/
def balancedBTreeFindLeast (s : Links ι) (fuel : ℕ) (root : Option ι) : Option (Option ι) :=
  findLeastLoop s fuel none root

section Keys

variable (keyCompare : K → K → ℤ)

/-- The loop of `BalancedBTreeFind`. -/
def findLoop (s : BalancedBTree ι K) (key : K) : ℕ → Option ι → Option (Option ι)
  | _, none => some none
  | 0, some _ => none
  | fuel + 1, some item =>
      if keyCompare key (s.key item) = 0 then some (some item)
      else if keyCompare key (s.key item) < 0 then findLoop s key fuel (s.left item)
      else findLoop s key fuel (s.right item)

/-- `BalancedBTreeFind`; a null `key` finds nothing, before any locking. -/
def balancedBTreeFind (fuel : ℕ) (s : BalancedBTree ι K) (key : Option K) (lock : Locked) :
    Option (BalancedBTree ι K × Option ι) := do
  match key with
  | none => some (s, none)
  | some key => do
      let s ← enter s lock
      let item ← findLoop keyCompare s key fuel s.root
      some (leave s lock, item)

/-- The loop of `BalancedBTreeFindParent`. -/
def findParentLoop (s : BalancedBTree ι K) (key : K) :
    ℕ → Option ι → Option ι → Option (Option ι)
  | _, parent, none => some parent
  | 0, _, some _ => none
  | fuel + 1, _, some item2 =>
      if keyCompare key (s.key item2) < 0
      then findParentLoop s key fuel (some item2) (s.left item2)
      else findParentLoop s key fuel (some item2) (s.right item2)

/-- `BalancedBTreeFindParent` -/
def balancedBTreeFindParent (fuel : ℕ) (s : BalancedBTree ι K) (item : ι) : Option (Option ι) :=
  findParentLoop keyCompare s (s.key item) fuel none s.root

end Keys

/-! ## Rebalancing -/

section Edits

variable [DecidableEq ι]

/-- Write the pointers of a tree through `Links`. -/
def Pointers.modify (s : Pointers ι) (f : Links ι → Links ι) : Pointers ι :=
  { s with toLinks := f s.toLinks }

/-- Link `new` where `old` was: below `parent`, or as the root when `parent` is
null. -/
def relink (s : Pointers ι) (parent old new : Option ι) : Pointers ι :=
  match parent with
  | none => { s with root := new }
  | some _ => s.modify fun h ↦ h.setChild parent old new

/-- "Too much on left, need to shift to the right": the first branch in the loop of
`BalancedBTreeRebalance`, with the `item` that is to take the place of `root`. -/
def shiftRight (fuel : ℕ) (h : Links ι) (root : ι) : Option (Links ι × ι) := do
  let item ← (← balancedBTreeFindGreatest h fuel (h.left root))
  let left := h.left item
  let parent := h.parent item
  let h := h.setParent item (h.parent root)
  let h := h.setRight item (some root)
  let h := if h.left root ≠ some item
    then (h.setLeft item (h.left root)).reparent (h.left root) (some item) else h
  let h := h.setParent root (some item)
  let h := h.setLeft root none
  if parent ≠ some root
    then do
      let parent ← parent
      some ((h.setRight parent left).reparent left (some parent), item)
    else some (h, item)

/-- "Too much on right, need to shift to the left": the other branch. -/
def shiftLeft (fuel : ℕ) (h : Links ι) (root : ι) : Option (Links ι × ι) := do
  let item ← (← balancedBTreeFindLeast h fuel (h.right root))
  let right := h.right item
  let parent := h.parent item
  let h := h.setParent item (h.parent root)
  let h := h.setLeft item (some root)
  let h := if h.right root ≠ some item
    then (h.setRight item (h.right root)).reparent (h.right root) (some item) else h
  let h := h.setParent root (some item)
  let h := h.setRight root none
  if parent ≠ some root
    then do
      let parent ← parent
      some ((h.setLeft parent right).reparent right (some parent), item)
    else some (h, item)

/-- `BalancedBTreeRebalance`: a turn of its loop continues with the item that took
the place of the root, and when no turn is due the two subtrees follow. -/
def balancedBTreeRebalance : ℕ → Pointers ι → Option ι → Option (Pointers ι)
  | _, s, none => some s
  | 0, _, some _ => none
  | fuel + 1, s, some root => do
      let left ← balancedBTreeWeight s.toLinks fuel (s.left root)
      let right ← balancedBTreeWeight s.toLinks fuel (s.right root)
      let res : ℤ := left - right
      if res < -1 ∨ 1 < res then do
        let (h, item) ← if 1 < res
          then shiftRight fuel s.toLinks root
          else shiftLeft fuel s.toLinks root
        let s := relink { s with toLinks := h } (h.parent item) (some root) (some item)
        balancedBTreeRebalance fuel s (some item)
      else do
        let s ← balancedBTreeRebalance fuel s (s.left root)
        balancedBTreeRebalance fuel s (s.right root)

/-- The `if( rebalance )` guard before `BalancedBTreeRebalance`. -/
def rebalanceIf (fuel : ℕ) (s : BalancedBTree ι K) (rebalance : Bool) :
    Option (BalancedBTree ι K) :=
  if rebalance then do
    let p ← balancedBTreeRebalance fuel s.toPointers s.root
    some { s with toPointers := p }
  else some s

/-! ## Adding and removing -/

/-- `BalancedBTreeReplace` -/
def balancedBTreeReplace (s : Pointers ι) (item : ι) (replace : Option ι) :
    Option (Pointers ι) := do
  if replace = some item then some s else
  let s ← match replace with
    | some replace => do
        let h := s.toLinks
        let h ← if h.parent replace ≠ some item
          then do
            let parent ← h.parent replace
            let h :=
              if h.left parent = some replace then
                -- we must be the least
                (h.setLeft parent (h.right replace)).reparent (h.right replace) (some parent)
              else if h.right parent = some replace then
                -- we must be the greatest
                (h.setRight parent (h.left replace)).reparent (h.left replace) (some parent)
              else h
            let h := (h.setRight replace (h.right item)).reparent (h.right item) (some replace)
            some ((h.setLeft replace (h.left item)).reparent (h.left item) (some replace))
          else
            some <|
              if h.right item = some replace then
                (h.setLeft replace (h.left item)).reparent (h.left item) (some replace)
              else if h.left item = some replace then
                (h.setRight replace (h.right item)).reparent (h.right item) (some replace)
              else h
        let h := h.setParent replace (h.parent item)
        some (relink { s with toLinks := h } (h.parent replace) (some item) (some replace))
    | none => some (relink s (s.parent item) (some item) none)
  some (s.modify fun h ↦ ((h.setLeft item none).setRight item none).setParent item none)

/-- The lines of `BalancedBTreeAdd` that link the item below its parent.  An item
whose key compares equal to its parent's is only logged as a duplicate. -/
def linkItem (keyCompare : K → K → ℤ) (s : BalancedBTree ι K) (item : ι) (parent : Option ι) :
    BalancedBTree ι K :=
  let s := { s with toLinks := s.toLinks.setParent item parent }
  match parent with
  | none => { s with root := some item }
  | some parent =>
      let res := keyCompare (s.key item) (s.key parent)
      if 0 < res then { s with toLinks := s.toLinks.setRight parent (some item) }
      else if res < 0 then { s with toLinks := s.toLinks.setLeft parent (some item) }
      else s

/-- `BalancedBTreeAdd`, where a null `item` only rebalances. -/
def balancedBTreeAdd (keyCompare : K → K → ℤ) (fuel : ℕ) (s : BalancedBTree ι K)
    (item : Option ι) (lock : Locked) (rebalance : Bool) : Option (BalancedBTree ι K) := do
  let s ← enter s lock
  match item with
  | none => do
      let s ← rebalanceIf fuel s rebalance
      some (leave s lock)
  | some item => do
      let s := { s with
        owner := Function.update s.owner item (some s.self)
        toLinks := (s.toLinks.setLeft item none).setRight item none }
      let parent ← balancedBTreeFindParent keyCompare fuel s item
      let s ← rebalanceIf fuel (linkItem keyCompare s item parent) rebalance
      some (leave s lock)

/-- `BalancedBTreeRemove`.  Called with a null `item` and `UNLOCKED` it locks the
mutex a second time where its sibling unlocks it. -/
def balancedBTreeRemove (fuel : ℕ) (s : BalancedBTree ι K) (item : Option ι)
    (lock : Locked) (rebalance : Bool) : Option (BalancedBTree ι K) := do
  match item with
  | none => do
      let s ← enter s lock
      let s ← rebalanceIf fuel s rebalance
      enter s lock
  | some item =>
      if s.owner item ≠ some s.self then some s else do
      let s ← enter s lock
      let left ← balancedBTreeWeight s.toLinks fuel (s.left item)
      let right ← balancedBTreeWeight s.toLinks fuel (s.right item)
      let replace ← if right < left
        then balancedBTreeFindGreatest s.toLinks fuel (s.left item)
        else balancedBTreeFindLeast s.toLinks fuel (s.right item)
      let p ← balancedBTreeReplace s.toPointers item replace
      let s := { s with toPointers := p, owner := Function.update s.owner item none }
      let s ← rebalanceIf fuel s rebalance
      some (leave s lock)

end Edits

end Beirdobot.BTree
