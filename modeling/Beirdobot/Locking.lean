import Beirdobot.BTree.Trees
import Beirdobot.LinkedList.Lists

/-!
# The mutexes of the trees and lists

One thread calls the operations of all trees and lists, with `LOCKED` where it holds
the mutex of the container and with `UNLOCKED` where it does not.  Each call but one
leaves the mutex as it was, whatever the memory looks like, and waits for nothing;
that its walks end is a matter of what was added where.
-/

namespace Beirdobot.Locking

open Library BTree Linked

variable {ι K κ : Type}

/-- All trees and all lists. -/
structure Containers (ι K κ : Type) where
  trees : Trees ι K
  lists : Linked.Lists κ

/-- A call on a list, apart from what it is told about the mutex. -/
inductive ListCall (κ : Type)
  | add (item : Option κ) (location : Location)
  | remove (item : Option κ)

/-- What the thread does: a call on a container, the caller's own locking of it, or the
caller fills in the key of an item. -/
inductive Op (ι K κ : Type)
  | tree (c : ℕ) (call : TreeCall ι K) (lock : Locked)
  | list (c : ℕ) (call : ListCall κ) (lock : Locked)
  | lockTree (c : ℕ)
  | unlockTree (c : ℕ)
  | lockList (c : ℕ)
  | unlockList (c : ℕ)
  | fill (item : ι) (key : K)

/-- The caller says that it holds the mutex when it does, and only then; it does not
lock a mutex it holds, or unlock one it does not hold. -/
def Respects (w : Containers ι K κ) : Op ι K κ → Prop
  | .tree c _ lock => lock = .locked ↔ w.trees.mutex c = true
  | .list c _ lock => lock = .locked ↔ w.lists.mutex c = true
  | .lockTree c => w.trees.mutex c = false
  | .unlockTree c => w.trees.mutex c = true
  | .lockList c => w.lists.mutex c = false
  | .unlockList c => w.lists.mutex c = true
  | .fill _ _ => True

/-- The call `BalancedBTreeRemove( btree, NULL, UNLOCKED, … )`. -/
def NullRemoval : Op ι K κ → Prop
  | .tree _ call .unlocked => LocksTwice call
  | _ => False

/-- The same call of a thread that holds the mutex. -/
def inside : Op ι K κ → Op ι K κ
  | .tree c call _ => .tree c call .locked
  | .list c call _ => .list c call .locked
  | op => op

/-- The mutexes of the trees after the thread did `op`, by the caller's own locking. -/
def treesHeld (w : Containers ι K κ) : Op ι K κ → ℕ → Bool
  | .lockTree c => Function.update w.trees.mutex c true
  | .unlockTree c => Function.update w.trees.mutex c false
  | _ => w.trees.mutex

/-- The mutexes of the lists. -/
def listsHeld (w : Containers ι K κ) : Op ι K κ → ℕ → Bool
  | .lockList c => Function.update w.lists.mutex c true
  | .unlockList c => Function.update w.lists.mutex c false
  | _ => w.lists.mutex

/-- The calls that keep the trees in shape. -/
def Careful (w : Containers ι K κ) : Op ι K κ → Prop
  | .tree c call _ => w.trees.Careful c call
  | _ => True

variable [DecidableEq ι] [DecidableEq κ]

/-- The code's call on a list. -/
def listCall (l : LinkedList κ) (lock : Locked) : ListCall κ → Option (LinkedList κ × Unit)
  | .add item location => (linkedListAdd l item lock location).map fun l ↦ (l, ())
  | .remove item => (linkedListRemove l item lock).map fun l ↦ (l, ())

/-- What the thread does to the memory. -/
def act (keyCompare : ℕ → K → K → ℤ) (fuel : ℕ) (w : Containers ι K κ) :
    Op ι K κ → Option (Containers ι K κ)
  | .tree c call lock => (treeCall (keyCompare c) fuel (w.trees.tree c) lock call).map fun r ↦
      { w with trees := w.trees.put r.1 }
  | .list c call lock => (listCall (w.lists.list c) lock call).map fun r ↦
      { w with lists := w.lists.put r.1 }
  | .lockTree c => (balancedBTreeLock (w.trees.tree c)).map fun s ↦
      { w with trees := w.trees.put s }
  | .unlockTree c => some { w with trees := w.trees.put (balancedBTreeUnlock (w.trees.tree c)) }
  | .lockList c => (linkedListLock (w.lists.list c)).map fun l ↦
      { w with lists := w.lists.put l }
  | .unlockList c => some { w with lists := w.lists.put (linkedListUnlock (w.lists.list c)) }
  | .fill item key =>
      some { w with trees := { w.trees with key := Function.update w.trees.key item key } }

/-- The memory, and how many steps there were. -/
structure State (ι K κ : Type) where
  memory : Containers ι K κ
  steps : ℕ

/-- The runs from empty trees and lists, in a memory whose items are on none, with fuel
that no walk over as many items as there were steps exhausts. -/
def system (keyCompare : ℕ → K → K → ℤ) : System (State ι K κ) (ℕ × Op ι K κ) where
  init s := (∀ c, s.memory.trees.root c = none ∧ s.memory.trees.mutex c = false ∧
      s.memory.lists.head c = none ∧ s.memory.lists.tail c = none ∧
      s.memory.lists.mutex c = false) ∧
    (∀ x, s.memory.trees.owner x = none) ∧ (∀ x, s.memory.lists.owner x = none) ∧ s.steps = 0
  step s e := if s.steps + 2 ≤ e.1
    then (act keyCompare e.1 s.memory e.2).map fun memory ↦ { memory, steps := s.steps + 1 }
    else none

/-! ## The mutex of a list -/

/-- Where a list keeps its mutex. -/
def listMutex (κ : Type) : MutexIn (LinkedList κ) where
  held l := l.mutex
  set l b := { l with mutex := b }
  held_set _ _ := rfl
  set_held _ := rfl
  set_set _ _ _ := rfl

omit [DecidableEq κ] in
theorem listMutex_lock (l : LinkedList κ) : (listMutex κ).lock l = linkedListLock l := rfl

/-- An `UNLOCKED` removal locks the mutex, does what a `LOCKED` one does and unlocks it. -/
theorem linkedListRemove_unlocked {l : LinkedList κ} {x : κ} (h : l.owner x = some l.self) :
    linkedListRemove l (some x) .unlocked = (linkedListLock l).bind fun l ↦
      (linkedListRemove l (some x) .locked).map linkedListUnlock := by
  simp only [linkedListRemove, h, ne_eq, not_true_eq_false, if_false, Linked.enter, Linked.leave,
    Option.bind_eq_bind, Option.bind_some]
  refine Option.bind_congr fun l₁ he ↦ ?_
  have howner : l₁.owner x = some l₁.self := by
    simp only [linkedListLock] at he
    split at he
    · cases he
    · cases he
      exact h
  simp only [howner, not_true_eq_false, if_false, Option.map_some]

/-- Every call on a list pairs its locking. -/
theorem listCall_paired (call : ListCall κ) :
    (listMutex κ).Paired (fun l ↦ listCall l .locked call) fun l ↦ listCall l .unlocked call := by
  cases call with
  | add item location =>
      cases item with
      | none => exact ⟨fun _ _ ↦ rfl, fun _ ↦ .inl rfl⟩
      | some x =>
          constructor
          · intro l b
            cases location <;>
              simp only [listCall, linkedListAdd, Linked.enter, Linked.leave, listMutex,
                Option.bind_eq_bind, Option.bind_some, Option.map_some] <;>
              split <;> split <;> rfl
          · intro l
            right
            simp only [listCall, linkedListAdd, Linked.enter, Linked.leave, Option.bind_eq_bind,
              Option.bind_some, listMutex_lock, Option.map_bind, Option.map_some, Function.comp_def]
            rfl
  | remove item =>
      cases item with
      | none => exact ⟨fun _ _ ↦ rfl, fun _ ↦ .inl rfl⟩
      | some x =>
          constructor
          · intro l b
            by_cases ho : l.owner x = some l.self
            · simp only [listCall, linkedListRemove, Linked.enter, Linked.leave, listMutex, ho,
                ne_eq, not_true_eq_false, if_false, Option.bind_eq_bind, Option.bind_some,
                Option.map_some]
              split <;> split <;> rfl
            · simp only [listCall, linkedListRemove, listMutex, ho, ne_eq, not_false_eq_true,
                if_true, Option.map_some]
          · intro l
            by_cases ho : l.owner x = some l.self
            · right
              simp only [listCall, linkedListRemove_unlocked ho, listMutex_lock, Option.map_bind,
                Option.map_map, Function.comp_def]
              rfl
            · left
              simp only [listCall, linkedListRemove, ne_eq, ho, not_false_eq_true, if_true]

omit [DecidableEq ι] in
/-- A call on a list has no walk. -/
theorem listCall_returns (l : LinkedList κ) (call : ListCall κ) :
    ∃ r, listCall l .locked call = some r := by
  rcases call with ⟨_ | x, location⟩ | _ | x
  · exact ⟨_, rfl⟩
  · exact ⟨_, rfl⟩
  · exact ⟨_, rfl⟩
  · by_cases ho : l.owner x = some l.self
    · exact ⟨_, by simp only [listCall, linkedListRemove, ho, ne_eq, not_true_eq_false, if_false]; rfl⟩
    · exact ⟨_, by simp only [listCall, linkedListRemove, ho, ne_eq, not_false_eq_true, if_true]; rfl⟩

theorem listCall_self {l : LinkedList κ} {call : ListCall κ} {r : LinkedList κ × Unit}
    (he : listCall l .locked call = some r) : r.1.self = l.self := by
  rcases call with ⟨_ | x, location⟩ | _ | x
  · cases he
    rfl
  · cases location <;>
      simp only [listCall, linkedListAdd, Linked.enter, Linked.leave, Option.bind_eq_bind,
        Option.bind_some, Option.map_some, Option.some.injEq] at he <;>
      rw [← he] <;> split <;> split <;> rfl
  · cases he
    rfl
  · by_cases ho : l.owner x = some l.self
    · simp only [listCall, linkedListRemove, Linked.enter, Linked.leave, ho, ne_eq,
        not_true_eq_false, if_false, Option.bind_eq_bind, Option.bind_some, Option.map_some,
        Option.some.injEq] at he
      rw [← he]
      split <;> split <;> rfl
    · simp only [listCall, linkedListRemove, ho, ne_eq, not_false_eq_true, if_true,
        Option.map_some, Option.some.injEq] at he
      rw [← he]

/-! ## One thread -/

section Steps

variable {keyCompare : ℕ → K → K → ℤ} {fuel : ℕ} {w w' : Containers ι K κ} {op : Op ι K κ}

/-- A thread that says what it holds gets what it would get inside the mutex. -/
theorem act_inside (hr : Respects w op) (hn : ¬ NullRemoval op) :
    act keyCompare fuel w op = act keyCompare fuel w (inside op) := by
  cases op with
  | tree c call lock =>
      cases lock with
      | locked => rfl
      | unlocked =>
          have hfree : w.trees.mutex c = false := by simpa [Respects] using hr
          have hcall := (treeCall_paired (keyCompare c) fuel hn).outside_of_free
            (s := w.trees.tree c) hfree
          simp only [act, inside, hcall]
  | list c call lock =>
      cases lock with
      | locked => rfl
      | unlocked =>
          have hfree : w.lists.mutex c = false := by simpa [Respects] using hr
          have hcall := (listCall_paired call).outside_of_free (s := w.lists.list c) hfree
          simp only [act, inside, hcall]
  | lockTree | unlockTree | lockList | unlockList | fill => rfl

theorem act_nullRemoval (hn : NullRemoval op) : act keyCompare fuel w op = none := by
  cases op with
  | tree c call lock =>
      cases lock with
      | locked => exact hn.elim
      | unlocked => rw [act, treeCall_locksTwice _ _ _ hn, Option.map_none]
  | list | lockTree | unlockTree | lockList | unlockList | fill => exact hn.elim

/-- Only the caller's own locking changes a mutex. -/
theorem act_held (hr : Respects w op) (he : act keyCompare fuel w op = some w') :
    w'.trees.mutex = treesHeld w op ∧ w'.lists.mutex = listsHeld w op := by
  by_cases hn : NullRemoval op
  · rw [act_nullRemoval hn] at he
    cases he
  rw [act_inside hr hn] at he
  cases op with
  | tree c call lock =>
      obtain ⟨r, hcall, rfl⟩ := Option.map_eq_some_iff.mp he
      refine ⟨?_, rfl⟩
      obtain ⟨hself, hheld⟩ := treeCall_frame hcall
      have hself : r.1.self = c := hself
      have hheld : r.1.mutex = w.trees.mutex c := hheld
      simp [Trees.put, hself, hheld, treesHeld]
  | list c call lock =>
      obtain ⟨r, hcall, rfl⟩ := Option.map_eq_some_iff.mp he
      refine ⟨rfl, ?_⟩
      have hself : r.1.self = c := listCall_self hcall
      have hheld : r.1.mutex = w.lists.mutex c := (listCall_paired call).held_inside hcall
      simp [Linked.Lists.put, hself, hheld, listsHeld]
  | lockTree c =>
      obtain ⟨s, hlock, rfl⟩ := Option.map_eq_some_iff.mp he
      obtain ⟨-, rfl⟩ := lock_eq_some.mp hlock
      exact ⟨rfl, rfl⟩
  | unlockTree c =>
      cases he
      exact ⟨rfl, rfl⟩
  | lockList c =>
      obtain ⟨l, hlock, rfl⟩ := Option.map_eq_some_iff.mp he
      simp only [linkedListLock] at hlock
      split at hlock
      · cases hlock
      · cases hlock
        exact ⟨rfl, rfl⟩
  | unlockList c =>
      cases he
      exact ⟨rfl, rfl⟩
  | fill item key =>
      cases he
      exact ⟨rfl, rfl⟩

/-- While the trees are in shape, every careful call but one returns. -/
theorem act_sound (keyCompare : ℕ → K → K → ℤ) {shape : ℕ → BinaryTree ι} (h : Sound w.trees shape) (hr : Respects w op)
    (hc : Careful w op) (hn : ¬ NullRemoval op) (hf : ∀ c, (shape c).numNodes + 2 ≤ fuel) :
    ∃ w' shape', act keyCompare fuel w op = some w' ∧ Sound w'.trees shape' ∧
      ∀ c, (shape' c).numNodes ≤ (shape c).numNodes + 1 := by
  have hsize : ∀ c, (shape c).numNodes ≤ (shape c).numNodes + 1 := fun c ↦ Nat.le_succ _
  cases op with
  | tree c call lock =>
      rw [act_inside hr hn]
      obtain ⟨s', r, t', hcall, hsound, ht'⟩ := h.treeCall (keyCompare c) hc (hf c)
      refine ⟨{ w with trees := w.trees.put s' }, Function.update shape c t', ?_, hsound, fun d ↦ ?_⟩
      · simp only [act, inside, hcall, Option.map_some]
      · by_cases hdc : d = c
        · rw [hdc, Function.update_self]
          exact ht'
        · rw [Function.update_of_ne hdc]
          exact hsize d
  | list c call lock =>
      rw [act_inside hr hn]
      obtain ⟨r, hcall⟩ := listCall_returns (w.lists.list c) call
      exact ⟨{ w with lists := w.lists.put r.1 }, shape,
        by simp only [act, inside, hcall, Option.map_some], h, hsize⟩
  | lockTree c =>
      have hlock : balancedBTreeLock (w.trees.tree c) = some { w.trees.tree c with mutex := true } :=
        lock_eq_some.mpr ⟨hr, rfl⟩
      exact ⟨{ w with trees := w.trees.put { w.trees.tree c with mutex := true } }, shape,
        by rw [act, hlock, Option.map_some], h.congr rfl (Function.update_eq_self c _) rfl, hsize⟩
  | unlockTree c => exact ⟨_, shape, rfl, h.congr rfl (Function.update_eq_self c _) rfl, hsize⟩
  | lockList c =>
      have hfree : (w.lists.list c).mutex = false := hr
      have hlock : linkedListLock (w.lists.list c) = some { w.lists.list c with mutex := true } := by
        simp [linkedListLock, hfree]
      exact ⟨{ w with lists := w.lists.put { w.lists.list c with mutex := true } }, shape,
        by rw [act, hlock, Option.map_some], h, hsize⟩
  | unlockList c => exact ⟨_, shape, rfl, h, hsize⟩
  | fill item key => exact ⟨_, shape, rfl, h.congr rfl rfl rfl, hsize⟩

end Steps

/-- In every run that adds only items that are on no tree, and cuts off no subtree when
a refused item is removed, the trees keep a shape. -/
theorem reachable_sound {keyCompare : ℕ → K → K → ℤ} {s : State ι K κ}
    (h : (system keyCompare).ReachableVia
      (fun s e ↦ Respects s.memory e.2 ∧ Careful s.memory e.2) s) :
    ∃ shape : ℕ → BinaryTree ι, Sound s.memory.trees shape ∧
      ∀ c, (shape c).numNodes ≤ s.steps := by
  refine h.invariant (I := fun s ↦ ∃ shape : ℕ → BinaryTree ι, Sound s.memory.trees shape ∧
    ∀ c, (shape c).numNodes ≤ s.steps) ?_ ?_
  · rintro s ⟨hempty, howner, -, -⟩
    refine ⟨fun _ ↦ .nil, ⟨fun c ↦ ⟨(hempty c).1, trivial, List.nodup_nil⟩, fun c x hx ↦ ?_,
      fun c x hx ↦ ?_⟩, fun c ↦ Nat.zero_le _⟩
    · cases hx
    · rw [howner x] at hx
      cases hx
  · rintro s ⟨fuel, op⟩ s' ⟨shape, hsound, hsize⟩ ⟨hr, hc⟩ he
    simp only [system] at he
    split at he
    · rename_i hf
      obtain ⟨memory, hact, rfl⟩ := Option.map_eq_some_iff.mp he
      have hn : ¬ NullRemoval op := fun hn ↦ by
        rw [act_nullRemoval hn] at hact
        cases hact
      have hfuel : ∀ c, (shape c).numNodes + 2 ≤ fuel := fun c ↦ by
        have hc := hsize c
        omega
      obtain ⟨w', shape', hact', hsound', hsize'⟩ :=
        act_sound keyCompare hsound hr hc hn hfuel
      rw [hact, Option.some.injEq] at hact'
      subst hact'
      refine ⟨shape', hsound', fun c ↦ ?_⟩
      have hc := hsize c
      have hc' := hsize' c
      show (shape' c).numNodes ≤ s.steps + 1
      omega
    · cases he

/-- Empty trees and lists. -/
def nothing : State ℕ ℤ ℕ where
  memory :=
    { trees :=
        { left := fun _ ↦ none, right := fun _ ↦ none, parent := fun _ ↦ none,
          root := fun _ ↦ none, key := fun _ ↦ 0, owner := fun _ ↦ none, mutex := fun _ ↦ false }
      lists :=
        { next := fun _ ↦ none, prev := fun _ ↦ none, head := fun _ ↦ none, tail := fun _ ↦ none,
          owner := fun _ ↦ none, mutex := fun _ ↦ false } }
  steps := 0

theorem nothing_init : (system (κ := ℕ) fun _ a b ↦ (a - b : ℤ)).init nothing :=
  ⟨fun _ ↦ ⟨rfl, rfl, rfl, rfl, rfl⟩, fun _ ↦ rfl, fun _ ↦ rfl, rfl⟩

/-- Two items are added to a tree while they are on another one. -/
def foreignRun : Option (Containers ℕ ℤ ℕ) :=
  [.fill 1 10, .fill 2 20, .tree 0 (.add (some 1) false) .unlocked,
    .tree 0 (.add (some 2) false) .unlocked, .tree 1 (.add (some 2) false) .unlocked,
    .tree 1 (.add (some 1) false) .unlocked, .tree 0 (.add (some 2) false) .unlocked,
    .tree 1 (.remove (some 1) false) .unlocked].foldlM (act (fun _ a b ↦ a - b) 9) nothing.memory

omit [DecidableEq ι] in
theorem findLoop_circle (keyCompare : K → K → ℤ) {s : BalancedBTree ι K} {k : K} {x : ι}
    (hx : s.right x = some x) (hk : 0 < keyCompare k (s.key x)) (fuel : ℕ) :
    findLoop keyCompare s k fuel (some x) = none := by
  induction fuel with
  | zero => rfl
  | succ fuel ih =>
      have hne : keyCompare k (s.key x) ≠ 0 := by omega
      have hnlt : ¬ keyCompare k (s.key x) < 0 := by omega
      rw [findLoop, if_neg hne, if_neg hnlt, hx]
      exact ih

end Beirdobot.Locking
