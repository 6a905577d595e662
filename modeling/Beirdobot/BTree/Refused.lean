import Beirdobot.BTree.Confined
import Beirdobot.BTree.Search

/-!
# Items that a tree refused

An item whose key compares equal to its parent's is not linked, but its `btree` and
`parent` fields say that it is on the tree.  What an addition does before it links
its item, and what the removal of a refused item does.
-/

namespace Beirdobot.BTree

open Library BinaryTree

variable {ι K : Type}

/-- A refused item says that it is on the tree, and points to nothing but its parent. -/
structure Refused (b : BalancedBTree ι K) (x : ι) : Prop where
  owner : b.owner x = some b.self
  left : b.left x = none
  right : b.right x = none
  parent : (b.parent x).isSome

section Calls

variable {b b' : BalancedBTree ι K} {t : BinaryTree ι} {item : ι} {fuel : ℕ} {rebalance : Bool}

theorem Refused.of_agree {x : ι} (h : Refused b x) (ha : b.toLinks.AgreeOn b'.toLinks [x])
    (ho : b'.owner x = b.owner x) (hs : b'.self = b.self) : Refused b' x := by
  obtain ⟨hl, hr, hp⟩ := ha x (List.mem_singleton_self x)
  exact ⟨by rw [ho, hs, h.owner], by rw [hl, h.left], by rw [hr, h.right], by rw [hp]; exact h.parent⟩

variable [DecidableEq ι]

/-- A rebalancing that returns keeps the items of the tree, and writes no others. -/
theorem rebalanced (hb : Holds b.toPointers t) (hf : t.numNodes + 1 ≤ fuel)
    (he : rebalanceIf fuel b rebalance = some b') :
    (∃ t', Holds b'.toPointers t' ∧ t'.inorder = t.inorder) ∧
      (∀ z ∉ t.inorder, b.toLinks.AgreeOn b'.toLinks [z]) ∧
      b' = { b with toPointers := b'.toPointers } := by
  obtain ⟨p, t', he', hp, hi, -⟩ := rebalanceIf_holds hb rebalance fuel hf
  have hconf := rebalanceIf_confined hb.closedTree he
  rw [he', Option.some.injEq] at he
  refine ⟨⟨t', by rw [← he]; exact hp, hi⟩, fun z hz ↦ hconf.links.agree z hz, ?_⟩
  rw [← he]

/-- The tree when `balancedBTreeAdd` looks for the parent of the item. -/
def placed (b : BalancedBTree ι K) (item : ι) : BalancedBTree ι K :=
  { b with
    owner := Function.update b.owner item (some b.self)
    toLinks := (b.toLinks.setLeft item none).setRight item none }

theorem placed_holds (hb : Holds b.toPointers t) (hx : item ∉ t.inorder) :
    Holds (placed b item).toPointers t := hb.congr rfl fun z hz ↦ by
  have hzx : z ≠ item := fun e ↦ hx (e ▸ hz)
  simp [placed, hzx]

/-- Inside the mutex, an addition looks for the parent, links and rebalances. -/
theorem add_eq (keyCompare : K → K → ℤ) (fuel : ℕ) (b : BalancedBTree ι K) (item : ι)
    (rebalance : Bool) :
    balancedBTreeAdd keyCompare fuel b (some item) .locked rebalance =
      (findParentLoop keyCompare (placed b item) (b.key item) fuel none b.root).bind fun parent ↦
        rebalanceIf fuel (linkItem keyCompare (placed b item) item parent) rebalance := by
  simp only [balancedBTreeAdd, enter, leave, Option.bind_eq_bind, Option.bind_some,
    Option.bind_fun_some]
  rfl

/-- The pointers once a refused item is unlinked. -/
def unlinked (b : BalancedBTree ι K) (item : ι) : Pointers ι :=
  (relink b.toPointers (b.parent item) (some item) none).modify fun h ↦
    ((h.setLeft item none).setRight item none).setParent item none

/-- Inside the mutex, the removal of a refused item unlinks it and rebalances. -/
theorem remove_refused_eq (h : Refused b item) (fuel : ℕ) (rebalance : Bool) :
    balancedBTreeRemove fuel b (some item) .locked rebalance = rebalanceIf fuel { b with
      toPointers := unlinked b item
      owner := Function.update b.owner item none } rebalance := by
  have hweight : balancedBTreeWeight b.toLinks fuel none = some 0 := by cases fuel <;> rfl
  have hleast : balancedBTreeFindLeast b.toLinks fuel none = some none := by cases fuel <;> rfl
  have hreplace : balancedBTreeReplace b.toPointers item none = some (unlinked b item) := rfl
  simp only [balancedBTreeRemove, enter, leave, h.owner, h.left, h.right, hweight, hleast,
    hreplace, ne_eq, not_true_eq_false, if_false, Nat.lt_irrefl, Option.bind_eq_bind,
    Option.bind_some, Option.bind_fun_some]

/-- Another refused item stays as it is. -/
theorem unlinked_refused {z : ι} (h : Refused b z) (hz : z ≠ item) :
    Refused { b with
      toPointers := unlinked b item
      owner := Function.update b.owner item none } z := by
  refine ⟨by simpa [hz] using h.owner, ?_, ?_, ?_⟩
  all_goals
    rcases hp : b.parent item with _ | y
    · simp [unlinked, hp, relink, Pointers.modify, hz, h.left, h.right, h.parent]
    · by_cases hl : b.left y = some item
      · simp [unlinked, hp, relink, Pointers.modify, Links.setChild, hl, hz, h.left, h.right,
          h.parent]
      · simp [unlinked, hp, relink, Pointers.modify, Links.setChild, hl, hz, h.left, h.right,
          h.parent]

/-- A tree stays as it is when the parent is not on it, or has no right child. -/
theorem unlinked_agree (hb : Holds b.toPointers t) (hx : item ∉ t.inorder) {y : ι}
    (hp : b.parent item = some y) (hy : y ∈ t.inorder → b.right y = none) :
    b.toLinks.AgreeOn (unlinked b item).toLinks t.inorder := by
  intro z hz
  have hzx : z ≠ item := fun e ↦ hx (e ▸ hz)
  by_cases hzy : z = y
  · subst hzy
    have hleft : b.left z ≠ some item := fun e ↦ hx (hb.closedTree.links.left z hz item e)
    simp [unlinked, hp, relink, Pointers.modify, Links.setChild, hleft, hzx, hy hz]
  · simp only [unlinked, hp, relink, Pointers.modify, Links.setChild]
    split <;> simp [hzx, hzy]

theorem unlinked_holds (hb : Holds b.toPointers t) (hx : item ∉ t.inorder) {y : ι}
    (hp : b.parent item = some y) (hy : y ∈ t.inorder → b.right y = none) :
    Holds (unlinked b item) t :=
  hb.congr (by rw [unlinked, hp]; rfl) (unlinked_agree hb hx hp hy)

/-- Else the right subtree of the parent is cut off. -/
theorem unlinked_cut {c : Path ι} {y : ι} {l r : BinaryTree ι}
    (hb : Holds b.toPointers (plug c (node y l r))) (hx : item ∉ (plug c (node y l r)).inorder)
    (hp : b.parent item = some y) : Holds (unlinked b item) (plug c (node y l nil)) := by
  obtain ⟨hroot, hc, hpy, hl, -, htl, -⟩ := hb.plug
  obtain ⟨hnc, hnode, hd⟩ := nodup_plug.mp hb.nodup
  obtain ⟨hnl, -, hyl, -, -⟩ := nodup_node.mp hnode
  have hmem : ∀ z, z ∈ (node y l r).inorder ∨ z ∈ before c ++ after c → z ≠ item :=
    fun z hz e ↦ hx (e ▸ mem_inorder_plug.mpr hz)
  have hleft : b.left y ≠ some item := by
    rw [hl]
    exact Ne.symm (ne_top fun e ↦ hmem item (.inl (by simp [e])) rfl)
  have hagree : ∀ z, z ≠ item → z ≠ y → b.toLinks.AgreeOn (unlinked b item).toLinks [z] := by
    intro z hzx hzy w hw
    obtain rfl := List.mem_singleton.mp hw
    simp [unlinked, hp, relink, Pointers.modify, Links.setChild, hleft, hzx, hzy]
  have hyx : y ≠ item := hmem y (.inl (by simp))
  refine ⟨by rw [unlinked, hp, top_plug]; exact hroot, linked_plug.mpr ⟨hc.congr fun z hz ↦ ?_,
    ?_, ?_, ?_, htl.congr fun z hz ↦ ?_, trivial⟩, nodup_plug.mpr ⟨hnc, ?_, fun z hz ↦ hd z ?_⟩⟩
  · have hzy : z ≠ y := fun e ↦ hd y (by simp) (e ▸ hz)
    exact hagree z (hmem z (.inr hz)) hzy z (List.mem_singleton_self z)
  · simpa [unlinked, hp, relink, Pointers.modify, Links.setChild, hleft, hyx] using hpy
  · simpa [unlinked, hp, relink, Pointers.modify, Links.setChild, hleft, hyx] using hl
  · simp [unlinked, hp, relink, Pointers.modify, Links.setChild, hleft]
  · have hzy : z ≠ y := fun e ↦ hyl (e ▸ hz)
    exact hagree z (hmem z (.inl (by simp [hz]))) hzy z (List.mem_singleton_self z)
  · exact nodup_node.mpr ⟨hnl, List.nodup_nil, hyl, by simp, by simp⟩
  · simp only [inorder_node, inorder_nil, List.mem_append, List.mem_cons, List.not_mem_nil,
      or_false] at hz ⊢
    exact hz.imp_right .inl

theorem unlinked_misses (hb : Holds b.toPointers t) (hx : item ∉ t.inorder) {y : ι}
    (hp : b.parent item = some y) (hy : y ∈ t.inorder) (hright : b.right y ≠ none) :
    ∃ u z, Holds (unlinked b item) u ∧ u.numNodes ≤ t.numNodes ∧ z ∈ t.inorder ∧ z ∉ u.inorder := by
  obtain ⟨c, l, r, rfl⟩ := exists_plug_of_mem hy
  obtain ⟨-, -, -, -, hr, -⟩ := hb.plug
  obtain ⟨-, hnode, hd⟩ := nodup_plug.mp hb.nodup
  obtain ⟨-, -, -, hyr, hlr⟩ := nodup_node.mp hnode
  cases r with
  | nil => exact absurd hr hright
  | node z m n =>
      have hz : z ∈ (node z m n).inorder := by simp
      refine ⟨_, z, unlinked_cut hb hx hp, ?_, mem_inorder_plug.mpr (.inl (by simp)), fun hzu ↦ ?_⟩
      · rw [← length_inorder, ← length_inorder, inorder_plug, inorder_plug]
        simp
        omega
      · rcases mem_inorder_plug.mp hzu with hzn | hzc
        · simp only [inorder_node, inorder_nil, List.mem_append, List.mem_cons, List.not_mem_nil,
            or_false] at hzn
          rcases hzn with hzn | rfl
          · exact hlr z hzn hz
          · exact hyr hz
        · exact hd z (by simp) hzc

end Calls

end Beirdobot.BTree
