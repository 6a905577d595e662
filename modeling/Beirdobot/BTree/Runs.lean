import Beirdobot.BTree.Search
import Beirdobot.Library.System

/-!
# Runs of operations on one tree

The calls other threads and modules make on a tree, one after the other, in any
order, from an empty tree in a memory whose items have arbitrary fields.
-/

namespace Beirdobot.BTree

open Library BinaryTree

variable {ι K : Type}

/-- A call on the tree.  The caller of `add` has set the key of the item. -/
inductive Op (ι K : Type)
  | add (item : ι) (key : K) (lock : Locked) (rebalance : Bool)
  | remove (item : ι) (lock : Locked) (rebalance : Bool)
  | addNull (lock : Locked) (rebalance : Bool)
  | removeNull (lock : Locked) (rebalance : Bool)
  | lock
  | unlock

/-- A tree and the items that were added to it and not removed since. -/
structure State (ι K : Type) where
  tree : BalancedBTree ι K
  linked : List ι

/-- The tree in memory is a search tree of the linked items. -/
structure Invariant (keyCompare : K → K → ℤ) (s : State ι K) (t : BinaryTree ι) : Prop where
  holds : Holds s.tree.toPointers t
  increasing : Increasing keyCompare s.tree.key t.inorder
  perm : t.inorder.Perm s.linked
  owner : ∀ x ∈ s.linked, s.tree.owner x = some s.tree.self

namespace Invariant

variable {keyCompare : K → K → ℤ} {s : State ι K} {t : BinaryTree ι}

theorem mem (h : Invariant keyCompare s t) {x : ι} : x ∈ t.inorder ↔ x ∈ s.linked :=
  h.perm.mem_iff

theorem numNodes (h : Invariant keyCompare s t) : t.numNodes = s.linked.length := by
  rw [← length_inorder, h.perm.length_eq]

end Invariant

/-- When a call does not return: the mutex it needs is held, by the caller or,
when `balancedBTreeRemove` is given no item, by itself. -/
def Blocked (s : State ι K) : Op ι K → Prop
  | .add _ _ lock _ | .remove _ lock _ | .addNull lock _ => lock = .unlocked ∧ s.tree.mutex = true
  | .removeNull lock _ => lock = .unlocked
  | .lock => s.tree.mutex = true
  | .unlock => False

variable [DecidableEq ι] [DecidableEq K]

/-- The callers add items that are not on the tree, with a key that is not in the
tree, and remove items that are on it. -/
def Admissible (s : State ι K) : Op ι K → Prop
  | .add item key _ _ => item ∉ s.linked ∧ ∀ y ∈ s.linked, s.tree.key y ≠ key
  | .remove item _ _ => item ∈ s.linked
  | _ => True

instance (s : State ι K) (op : Op ι K) : Decidable (Admissible s op) := by
  cases op <;> unfold Admissible <;> infer_instance

/-- The caller of `add` fills in the key of the item. -/
def BalancedBTree.setKey (s : BalancedBTree ι K) (item : ι) (key : K) : BalancedBTree ι K :=
  { s with key := Function.update s.key item key }

/-- One call, with the `fuel` for its walks. -/
def call (keyCompare : K → K → ℤ) (fuel : ℕ) (s : State ι K) : Op ι K → Option (State ι K)
  | .add item key lock rebalance => do
      let tree := s.tree.setKey item key
      let tree ← balancedBTreeAdd keyCompare fuel tree (some item) lock rebalance
      some { tree, linked := item :: s.linked }
  | .remove item lock rebalance => do
      let tree ← balancedBTreeRemove fuel s.tree (some item) lock rebalance
      some { tree, linked := s.linked.erase item }
  | .addNull lock rebalance => do
      let tree ← balancedBTreeAdd keyCompare fuel s.tree none lock rebalance
      some { s with tree }
  | .removeNull lock rebalance => do
      let tree ← balancedBTreeRemove fuel s.tree none lock rebalance
      some { s with tree }
  | .lock => do
      let tree ← balancedBTreeLock s.tree
      some { s with tree }
  | .unlock => some { s with tree := balancedBTreeUnlock s.tree }

/-- The runs of admissible calls on a tree that was just created, with fuel that
no walk exhausts. -/
def system (ι K : Type) [DecidableEq ι] [DecidableEq K] (keyCompare : K → K → ℤ) :
    System (State ι K) (ℕ × Op ι K) where
  init s := s.linked = [] ∧ ∃ self items key owner,
    s.tree = balancedBTreeCreate self items key owner
  step s e :=
    if Admissible s e.2 ∧ s.linked.length + 2 ≤ e.1 then call keyCompare e.1 s e.2 else none

section Calls

variable {keyCompare : K → K → ℤ} (hcmp : StrictTotal keyCompare) {s : State ι K}
  {t : BinaryTree ι}

theorem Invariant.create (h : (system ι K keyCompare).init s) : Invariant keyCompare s nil := by
  obtain ⟨hl, self, items, key, owner, ht⟩ := h
  refine ⟨?_, .nil, by rw [hl]; exact .refl _, by simp [hl]⟩
  rw [ht]
  exact ⟨rfl, trivial, List.nodup_nil⟩

omit [DecidableEq ι] [DecidableEq K] in
/-- A rebalancing alone keeps the invariant. -/
theorem Invariant.rebalance (h : Invariant keyCompare s t) {p : Pointers ι} {t' : BinaryTree ι}
    (hp : Holds p t') (hi : t'.inorder = t.inorder) :
    Invariant keyCompare { s with tree := { s.tree with toPointers := p } } t' :=
  ⟨hp, hi ▸ h.increasing, hi ▸ h.perm, h.owner⟩

omit [DecidableEq K] in
include hcmp in
/-- What `add` does to the invariant. -/
theorem call_add (h : Invariant keyCompare s t) {item : ι} {key : K} {lock : Locked}
    {rebalance : Bool} (ha : Admissible s (.add item key lock rebalance)) (fuel : ℕ)
    (hf : s.linked.length + 2 ≤ fuel) (hb : ¬ Blocked s (.add item key lock rebalance)) :
    ∃ s' t', call keyCompare fuel s (.add item key lock rebalance) = some s' ∧
      Invariant keyCompare s' t' := by
  obtain ⟨hx, hk⟩ := ha
  rw [← h.mem] at hx
  have hkey : ∀ y ∈ t.inorder, (s.tree.setKey item key).key y = s.tree.key y := fun y hy ↦ by
    have hyx : y ≠ item := fun e ↦ hx (e ▸ hy)
    exact Function.update_of_ne hyx ..
  have hitem : (s.tree.setKey item key).key item = key := Function.update_self ..
  have hi : Increasing keyCompare (s.tree.setKey item key).key t.inorder :=
    h.increasing.imp_of_mem fun hy hz hyz ↦ by rwa [hkey _ hy, hkey _ hz]
  obtain ⟨c, p, t', ht, he, hp, hin, hi', -⟩ := add_holds hcmp (s := s.tree.setKey item key)
    h.holds hi hx (fun y hy ↦ by
      rw [hkey y hy, hitem]
      exact hk y (h.mem.mp hy)) lock (by simpa [Blocked, BalancedBTree.setKey] using hb) rebalance fuel
    (by rw [h.numNodes]; exact hf)
  refine ⟨_, t', by rw [call, Option.bind_eq_bind, he]; rfl, hp, hi', ?_, fun y hy ↦ ?_⟩
  · have hperm : (before c ++ after c).Perm s.linked := by
      have hlist : t.inorder = before c ++ after c := by rw [ht, inorder_plug]; simp
      exact hlist ▸ h.perm
    rw [hin]
    exact List.perm_middle.trans (hperm.cons item)
  · change Function.update s.tree.owner item (some s.tree.self) y = some s.tree.self
    by_cases hyx : y = item
    · rw [hyx, Function.update_self]
    · rw [Function.update_of_ne hyx]
      exact h.owner y (by simpa [hyx] using hy)

omit [DecidableEq K] in
/-- What `remove` does to the invariant. -/
theorem call_remove (h : Invariant keyCompare s t) {item : ι} {lock : Locked}
    {rebalance : Bool} (ha : Admissible s (.remove item lock rebalance)) (fuel : ℕ)
    (hf : s.linked.length + 2 ≤ fuel) (hb : ¬ Blocked s (.remove item lock rebalance)) :
    ∃ s' t', call keyCompare fuel s (.remove item lock rebalance) = some s' ∧
      Invariant keyCompare s' t' := by
  obtain ⟨c, l, r, rfl⟩ := exists_plug_of_mem (h.mem.mpr ha)
  obtain ⟨p, t', he, hp, hin, -⟩ := remove_holds h.holds (h.owner item ha) lock
    (by simpa [Blocked] using hb) rebalance fuel (by rw [h.numNodes]; omega)
  have hperm : (item :: t'.inorder).Perm s.linked := by
    refine (List.Perm.symm ?_).trans h.perm
    have hnode : (plug c (node item l r)).inorder =
        (before c ++ l.inorder) ++ item :: (r.inorder ++ after c) := by
      rw [inorder_plug, inorder_node]; simp
    have hrest : t'.inorder = (before c ++ l.inorder) ++ (r.inorder ++ after c) := by
      rw [hin]; simp
    rw [hnode, hrest]
    exact List.perm_middle
  have hsub : t'.inorder.Sublist (plug c (node item l r)).inorder := by
    rw [inorder_plug, hin, inorder_node]
    simp
  refine ⟨{
      tree := { s.tree with toPointers := p, owner := Function.update s.tree.owner item none }
      linked := s.linked.erase item }, t',
    by rw [call, Option.bind_eq_bind, he]; rfl, hp, h.increasing.sublist hsub,
    (List.cons_perm_iff_perm_erase.mp hperm).2, fun y hy ↦ ?_⟩
  have hyx : y ≠ item := by
    rintro rfl
    exact (h.perm.nodup_iff.mp h.holds.nodup).not_mem_erase hy
  change Function.update s.tree.owner item none y = some s.tree.self
  rw [Function.update_of_ne hyx]
  exact h.owner y (List.mem_of_mem_erase hy)

omit [DecidableEq K] in
include hcmp in
/-- An admissible call that is not blocked returns and keeps the invariant. -/
theorem call_returns (h : Invariant keyCompare s t) {op : Op ι K} (ha : Admissible s op)
    (fuel : ℕ) (hf : s.linked.length + 2 ≤ fuel) (hb : ¬ Blocked s op) :
    ∃ s' t', call keyCompare fuel s op = some s' ∧ Invariant keyCompare s' t' := by
  cases op with
  | add item key lock rebalance => exact call_add hcmp h ha fuel hf hb
  | remove item lock rebalance => exact call_remove h ha fuel hf hb
  | addNull lock rebalance =>
      have hlock : lock = .unlocked → s.tree.mutex = false := by simpa [Blocked] using hb
      obtain ⟨p, t', he, hp, hi, -⟩ := rebalanceIf_holds
        (s := { s.tree with mutex := s.tree.mutex || lock == .unlocked }) h.holds rebalance
        fuel (by rw [h.numNodes]; omega)
      refine ⟨{ s with tree := { s.tree with toPointers := p } }, t', ?_, h.rebalance hp hi⟩
      simp only [call, balancedBTreeAdd, enter_eq hlock, Option.bind_eq_bind, Option.bind_some, he,
        leave_eq, mutex_enter_leave hlock]
  | removeNull lock rebalance =>
      have hlock : lock = .locked := by
        cases lock with
        | unlocked => exact absurd rfl hb
        | locked => rfl
      obtain ⟨p, t', he, hp, hi, -⟩ := rebalanceIf_holds h.holds rebalance fuel
        (by rw [h.numNodes]; omega)
      refine ⟨{ s with tree := { s.tree with toPointers := p } }, t', ?_, h.rebalance hp hi⟩
      simp only [call, balancedBTreeRemove, hlock, enter, Option.bind_eq_bind, Option.bind_some, he]
  | lock =>
      have hm : s.tree.mutex = false := by simpa [Blocked] using hb
      exact ⟨{ s with tree := { s.tree with mutex := true } }, t,
        by simp [call, balancedBTreeLock, hm], h.holds, h.increasing, h.perm, h.owner⟩
  | unlock => exact ⟨_, t, rfl, h.holds, h.increasing, h.perm, h.owner⟩

omit [DecidableEq K] in
/-- A blocked call does not return. -/
theorem call_blocked (h : Invariant keyCompare s t) {op : Op ι K} (ha : Admissible s op)
    (fuel : ℕ) (hf : s.linked.length + 2 ≤ fuel) (hb : Blocked s op) :
    call keyCompare fuel s op = none := by
  cases op with
  | add item key lock rebalance =>
      obtain ⟨rfl, hm⟩ := hb
      simp [call, balancedBTreeAdd, enter, balancedBTreeLock, BalancedBTree.setKey, hm]
  | remove item lock rebalance =>
      obtain ⟨rfl, hm⟩ := hb
      simp [call, balancedBTreeRemove, enter, balancedBTreeLock, hm, h.owner item ha]
  | addNull lock rebalance =>
      obtain ⟨rfl, hm⟩ := hb
      simp [call, balancedBTreeAdd, enter, balancedBTreeLock, hm]
  | removeNull lock rebalance =>
      obtain rfl : lock = .unlocked := hb
      by_cases hm : s.tree.mutex = true
      · simp [call, balancedBTreeRemove, enter, balancedBTreeLock, hm]
      · -- the rebalancing is done with the mutex held, and then it is locked again
        obtain ⟨p, t', he, -⟩ := rebalanceIf_holds (s := { s.tree with mutex := true }) h.holds
          rebalance fuel (by rw [h.numNodes]; omega)
        simp [call, balancedBTreeRemove, enter, balancedBTreeLock, hm, he]
  | lock =>
      have hm : s.tree.mutex = true := hb
      simp [call, balancedBTreeLock, hm]
  | unlock => exact hb.elim

omit [DecidableEq K] in
include hcmp in
/-- A call that returns keeps the invariant. -/
theorem Invariant.call (h : Invariant keyCompare s t) (op : Op ι K) (ha : Admissible s op)
    {fuel : ℕ} (hf : s.linked.length + 2 ≤ fuel) {s' : State ι K}
    (he : BTree.call keyCompare fuel s op = some s') : ∃ t', Invariant keyCompare s' t' := by
  by_cases hb : Blocked s op
  · rw [call_blocked h ha _ hf hb] at he
    cases he
  · obtain ⟨s₁, t', he', ht'⟩ := call_returns hcmp h ha _ hf hb
    rw [he', Option.some.injEq] at he
    exact ⟨t', he ▸ ht'⟩

include hcmp in
/-- Every reachable tree is a search tree of the linked items. -/
theorem reachable_invariant (h : (system ι K keyCompare).Reachable s) :
    ∃ t, Invariant keyCompare s t := by
  refine h.invariant (I := fun s ↦ ∃ t, Invariant keyCompare s t)
    (fun s hs ↦ ⟨nil, .create hs⟩) fun s e s' ⟨t, ht⟩ he ↦ ?_
  simp only [system] at he
  split at he
  · rename_i hg
    exact ht.call hcmp _ hg.1 hg.2 he
  · cases he

end Calls

/-- In every reachable state the tree in memory is a search tree of the items
that were added and not removed, a search that returns finds the item with the
key if there is one, and every call and search that is not blocked returns. -/
theorem reachable_searchTree {keyCompare : K → K → ℤ} (hcmp : StrictTotal keyCompare)
    {s : State ι K} (h : (system ι K keyCompare).Reachable s) :
    (∃ t : BinaryTree ι, s.tree.root = t.top ∧ Linked s.tree.toLinks none t ∧
      t.inorder.Pairwise (fun x y ↦ keyCompare (s.tree.key x) (s.tree.key y) < 0) ∧
      t.inorder.Nodup ∧ ∀ x, x ∈ t.inorder ↔ x ∈ s.linked) ∧
    (∀ key lock fuel tree r,
      balancedBTreeFind keyCompare fuel s.tree (some key) lock = some (tree, r) →
        s.linked.length ≤ fuel →
        ∀ x, r = some x ↔ x ∈ s.linked ∧ s.tree.key x = key) ∧
    (∀ key lock fuel, s.linked.length ≤ fuel → (lock = .unlocked → s.tree.mutex = false) →
      (balancedBTreeFind keyCompare fuel s.tree (some key) lock).isSome) ∧
    (∀ op fuel, Admissible s op → ¬ Blocked s op → s.linked.length + 2 ≤ fuel →
      ((system ι K keyCompare).step s (fuel, op)).isSome) := by
  obtain ⟨t, ht⟩ := reachable_invariant hcmp h
  have hfind : ∀ key lock fuel, s.linked.length ≤ fuel →
      (lock = .unlocked → s.tree.mutex = false) →
      ∃ r, balancedBTreeFind keyCompare fuel s.tree (some key) lock = some (s.tree, r) ∧
        ∀ x, r = some x ↔ x ∈ s.linked ∧ s.tree.key x = key := fun key lock fuel hf hlock ↦ by
    obtain ⟨r, he, hr⟩ := findLoop_eq hcmp
      (s := { s.tree with mutex := s.tree.mutex || lock == .unlocked }) ht.holds.linked
      ht.increasing key fuel (by rw [ht.numNodes]; exact hf)
    rw [← ht.holds.root_eq] at he
    refine ⟨r, ?_, fun x ↦ by rw [hr, ht.mem]⟩
    simp only [balancedBTreeFind, enter_eq hlock, Option.bind_eq_bind, Option.bind_some, he,
      leave_eq, mutex_enter_leave hlock]
  refine ⟨⟨t, ht.holds.root_eq, ht.holds.linked, ht.increasing, ht.holds.nodup, fun _ ↦ ht.mem⟩,
    fun key lock fuel tree r he hf ↦ ?_, fun key lock fuel hf hlock ↦ ?_,
    fun op fuel ha hb hf ↦ ?_⟩
  · by_cases hlock : lock = .unlocked ∧ s.tree.mutex = true
    · obtain ⟨rfl, hm⟩ := hlock
      simp [balancedBTreeFind, enter, balancedBTreeLock, hm] at he
    · obtain ⟨r', he', hr'⟩ := hfind key lock fuel hf (by simpa using hlock)
      rw [he', Option.some.injEq, Prod.mk.injEq] at he
      exact he.2 ▸ hr'
  · obtain ⟨r, he, -⟩ := hfind key lock fuel hf hlock
    rw [he]; rfl
  · obtain ⟨s', t', he, -⟩ := call_returns hcmp ht ha fuel hf hb
    simp only [system]
    rw [if_pos ⟨ha, hf⟩, he]; rfl

/-- Four items are added in increasing order, and then the second is removed. -/
def chainRun : Option (State ℕ ℤ) :=
  (system ℕ ℤ (· - ·)).run
    ⟨balancedBTreeCreate 7 ⟨fun _ ↦ none, fun _ ↦ none, fun _ ↦ none⟩ (fun _ ↦ 0) fun _ ↦ none, []⟩
    [(9, .add 1 10 .unlocked false), (9, .add 2 20 .unlocked false), (9, .lock),
      (9, .add 3 30 .locked false), (9, .unlock), (9, .add 4 40 .unlocked true),
      (9, .addNull .unlocked true), (9, .remove 2 .unlocked true)]

theorem chainRun_searchTree :
    ∃ s, chainRun = some s ∧ s.linked = [4, 3, 1] ∧
      ∃ t : BinaryTree ℕ, s.tree.root = t.top ∧ Linked s.tree.toLinks none t ∧
        t.inorder.Pairwise (fun x y ↦ s.tree.key x - s.tree.key y < 0) ∧
        t.inorder.Nodup ∧ ∀ x, x ∈ t.inorder ↔ x ∈ s.linked := by
  have hcmp : StrictTotal fun a b : ℤ ↦ a - b :=
    ⟨fun a b ↦ by omega, fun a b ↦ by omega, fun a b c ↦ by omega⟩
  have hlinked : chainRun.map State.linked = some [4, 3, 1] := by decide +kernel
  obtain ⟨s, hs, hl⟩ := Option.map_eq_some_iff.mp hlinked
  exact ⟨s, hs, hl, (reachable_searchTree hcmp
    (System.reachable_of_run ⟨rfl, _, _, _, _, rfl⟩ hs)).1⟩

end Beirdobot.BTree
