import Beirdobot.BTree.Model

/-!
# Trees ordered by a time

The trees of the plugins that are ordered by a time in the records: when a feed or a
mailbox is due, when an item was published.  The keys of such a tree point into the
records, which change under it.  An address is a number that is not used again, and an
item of the tree is told by the address of its record and its own.
-/

namespace Beirdobot

open BTree

/-- A `BalancedBTreeItem_t`: the address of its record, and its own. -/
structure TimeItem where
  record : ℕ
  self : ℕ
deriving DecidableEq

/-- A tree without its keys.  Whoever works on it holds its mutex. -/
structure ActiveTree extends Pointers TimeItem where
  owner : TimeItem → Option ℕ

namespace ActiveTree

/-- `BalancedBTreeCreate` -/
def empty : ActiveTree :=
  { left := fun _ ↦ none, right := fun _ ↦ none, parent := fun _ ↦ none, root := none
    owner := fun _ ↦ none }

/-- The tree with the times that its keys point to. -/
def tree (a : ActiveTree) (time : ℕ → ℤ) : BalancedBTree TimeItem ℤ :=
  { a.toPointers with key := fun item ↦ time item.record, owner := a.owner, self := 0, mutex := true }

/-- A tree without its keys. -/
def ofTree (s : BalancedBTree TimeItem ℤ) : ActiveTree :=
  { s.toPointers with owner := s.owner }

section

variable (fuel : ℕ) (a : ActiveTree) (time : ℕ → ℤ)

/-- `BalancedBTreeFind( tree, &key, LOCKED )` -/
def find (key : ℤ) : Option (Option TimeItem) :=
  (balancedBTreeFind keyCompareInt fuel (a.tree time) (some key) .locked).map Prod.snd

/-- `BalancedBTreeFindLeast( tree->root )` -/
def findLeast : Option (Option TimeItem) := balancedBTreeFindLeast a.toLinks fuel a.root

/-- `BalancedBTreeAdd( tree, item, LOCKED, rebalance )` -/
def add (item : TimeItem) (rebalance : Bool) : Option ActiveTree :=
  (balancedBTreeAdd keyCompareInt fuel (a.tree time) (some item) .locked rebalance).map ofTree

/-- `BalancedBTreeRemove( tree, item, LOCKED, rebalance )` -/
def remove (item : Option TimeItem) (rebalance : Bool) : Option ActiveTree :=
  (balancedBTreeRemove fuel (a.tree time) item .locked rebalance).map ofTree

/-- `BalancedBTreeAdd( tree, NULL, LOCKED, TRUE )` -/
def rebalance : Option ActiveTree :=
  (balancedBTreeAdd keyCompareInt fuel (a.tree time) none .locked true).map ofTree

end

/-- `BalancedBTreeFindLeastCond` -/
def findLeastCond (a : ActiveTree) (cond : ℕ → Bool) :
    ℕ → Option TimeItem → Option (Option TimeItem)
  | _, none => some none
  | 0, some _ => none
  | fuel + 1, some node => do
      let retnode ← findLeastCond a cond fuel (a.left node)
      if retnode.isSome then some retnode
      else if cond node.record then some (some node)
      else findLeastCond a cond fuel (a.right node)

/-- `rssfeedFindUnconflictingTime` and `mailboxFindUnconflictingTime`, where the key is
the time of a record: it goes up until no item of the tree has it. -/
def findUnconflictingTime (depth : ℕ) (a : ActiveTree) (time : ℕ → ℤ) (x : ℕ) :
    ℕ → ℤ → Option ℤ
  | 0, _ => none
  | fuel + 1, key => do
      let item ← a.find depth (Function.update time x key) key
      if item.isSome then findUnconflictingTime depth a time x fuel (key + 1) else some key

end ActiveTree

end Beirdobot
