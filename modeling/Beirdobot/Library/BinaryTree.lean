import Mathlib.Data.Tree.Basic
import Mathlib.Data.List.Nodup
import Mathlib.Data.List.Pairwise
import Mathlib.Data.Nat.Log

/-!
# Binary trees, their in-order lists and their paths

In-order lists of Mathlib's `BinaryTree`, the removal of the greatest and the
least node, and one-hole contexts (`Path`), which say where a subtree stands in
a whole tree.  Every fact about an edit of a tree is stated on in-order lists:
an edit below a path changes the middle of the list and nothing else.
-/

universe u

namespace BinaryTree

variable {α : Type u}

/-- The nodes of a tree from left to right. -/
def inorder : BinaryTree α → List α
  | nil => []
  | node x l r => l.inorder ++ x :: r.inorder

@[simp] theorem inorder_nil : (nil : BinaryTree α).inorder = [] := rfl

@[simp] theorem inorder_node (x : α) (l r : BinaryTree α) :
    (node x l r).inorder = l.inorder ++ x :: r.inorder := rfl

@[simp] theorem length_inorder (t : BinaryTree α) : t.inorder.length = t.numNodes := by
  induction t with
  | nil => rfl
  | node x l r ihl ihr => simp [ihl, ihr]; omega

/-- The node at the root. -/
def top : BinaryTree α → Option α
  | nil => none
  | node x _ _ => some x

@[simp] theorem top_nil : (nil : BinaryTree α).top = none := rfl
@[simp] theorem top_node (x : α) (l r : BinaryTree α) : (node x l r).top = some x := rfl

/-- The tree with left and right exchanged at every node. -/
def mirror : BinaryTree α → BinaryTree α
  | nil => nil
  | node x l r => node x r.mirror l.mirror

@[simp] theorem mirror_nil : (nil : BinaryTree α).mirror = nil := rfl

@[simp] theorem mirror_node (x : α) (l r : BinaryTree α) :
    (node x l r).mirror = node x r.mirror l.mirror := rfl

@[simp] theorem mirror_mirror (t : BinaryTree α) : t.mirror.mirror = t := by
  induction t with
  | nil => rfl
  | node x l r ihl ihr => simp [ihl, ihr]

@[simp] theorem top_mirror (t : BinaryTree α) : t.mirror.top = t.top := by cases t <;> rfl

@[simp] theorem mirror_eq_nil {t : BinaryTree α} : t.mirror = nil ↔ t = nil := by
  cases t <;> simp

@[simp] theorem inorder_mirror (t : BinaryTree α) : t.mirror.inorder = t.inorder.reverse := by
  induction t with
  | nil => rfl
  | node x l r ihl ihr => simp [ihl, ihr]

@[simp] theorem numNodes_mirror (t : BinaryTree α) : t.mirror.numNodes = t.numNodes := by
  rw [← length_inorder, ← length_inorder, inorder_mirror, List.length_reverse]

theorem nodup_node {x : α} {l r : BinaryTree α} :
    (node x l r).inorder.Nodup ↔ l.inorder.Nodup ∧ r.inorder.Nodup ∧ x ∉ l.inorder ∧
      x ∉ r.inorder ∧ ∀ z ∈ l.inorder, z ∉ r.inorder := by
  rw [inorder_node, List.nodup_append, List.nodup_cons]
  constructor
  · rintro ⟨hl, ⟨hx, hr⟩, hd⟩
    exact ⟨hl, hr, fun h ↦ hd x h x (by simp) rfl, hx,
      fun z hz hzr ↦ hd z hz z (List.mem_cons_of_mem _ hzr) rfl⟩
  · rintro ⟨hl, hr, hxl, hxr, hd⟩
    refine ⟨hl, ⟨hxr, hr⟩, fun z hz w hw e ↦ ?_⟩
    rcases List.mem_cons.mp hw with rfl | hw
    · exact hxl (e ▸ hz)
    · exact hd z hz (e ▸ hw)

/-! ## The extreme nodes -/

/-- The right-most node of the tree with root `x` and right subtree `r`. -/
def greatest (x : α) : BinaryTree α → α
  | nil => x
  | node y _ r => greatest y r

/-- The tree without its right-most node. -/
def dropGreatest : BinaryTree α → BinaryTree α
  | nil => nil
  | node _ l nil => l
  | node x l (node y m r) => node x l (dropGreatest (node y m r))

/-- The left-most node of the tree with root `x` and left subtree `l`. -/
def least (x : α) : BinaryTree α → α
  | nil => x
  | node y l _ => least y l

/-- The tree without its left-most node. -/
def dropLeast : BinaryTree α → BinaryTree α
  | nil => nil
  | node _ nil r => r
  | node x (node y l m) r => node x (dropLeast (node y l m)) r

@[simp] theorem dropGreatest_nil_right (x : α) (l : BinaryTree α) :
    (node x l nil).dropGreatest = l := by
  rw [dropGreatest]

@[simp] theorem dropGreatest_node_right (x y : α) (l m r : BinaryTree α) :
    (node x l (node y m r)).dropGreatest = node x l (node y m r).dropGreatest := by
  rw [dropGreatest]

@[simp] theorem greatest_mirror (x : α) (t : BinaryTree α) :
    greatest x t.mirror = least x t := by
  induction t generalizing x with
  | nil => rfl
  | node y l r ihl _ => exact ihl y

theorem dropGreatest_mirror (t : BinaryTree α) : t.mirror.dropGreatest = t.dropLeast.mirror := by
  induction t with
  | nil => rfl
  | node x l r ihl _ =>
      cases l with
      | nil => simp [dropLeast]
      | node y a b =>
          simp only [mirror_node, dropGreatest_node_right, dropLeast] at ihl ⊢
          rw [ihl]

theorem inorder_dropGreatest (x : α) (l r : BinaryTree α) :
    (node x l r).inorder = (node x l r).dropGreatest.inorder ++ [greatest x r] := by
  induction r generalizing x l with
  | nil => simp [greatest]
  | node y m r _ ihr =>
      rw [dropGreatest_node_right, inorder_node, ihr y m, inorder_node, greatest]
      simp

theorem inorder_dropLeast (x : α) (l r : BinaryTree α) :
    (node x l r).inorder = least x l :: (node x l r).dropLeast.inorder := by
  have h := inorder_dropGreatest x r.mirror l.mirror
  rw [← mirror_node, inorder_mirror, dropGreatest_mirror, inorder_mirror, greatest_mirror] at h
  simpa using congrArg List.reverse h

theorem numNodes_dropGreatest (x : α) (l r : BinaryTree α) :
    (node x l r).dropGreatest.numNodes + 1 = (node x l r).numNodes := by
  have h := congrArg List.length (inorder_dropGreatest x l r)
  simp only [length_inorder, List.length_append, List.length_singleton] at h
  exact h.symm

theorem numNodes_dropLeast (x : α) (l r : BinaryTree α) :
    (node x l r).dropLeast.numNodes + 1 = (node x l r).numNodes := by
  have h := congrArg List.length (inorder_dropLeast x l r)
  simp only [length_inorder, List.length_cons] at h
  exact h.symm

theorem greatest_mem (x : α) (l r : BinaryTree α) : greatest x r ∈ (node x l r).inorder := by
  rw [inorder_dropGreatest]; simp

theorem least_mem (x : α) (l r : BinaryTree α) : least x l ∈ (node x l r).inorder := by
  rw [inorder_dropLeast]; simp

/-- At every node the two subtrees have the same number of nodes, or differ by one. -/
def Balanced : BinaryTree α → Prop
  | nil => True
  | node _ l r =>
      l.numNodes ≤ r.numNodes + 1 ∧ r.numNodes ≤ l.numNodes + 1 ∧ l.Balanced ∧ r.Balanced

/-- A balanced tree is as low as its number of nodes allows: each level doubles
what fits below it. -/
theorem Balanced.height_le {t : BinaryTree α} (h : t.Balanced) :
    t.height ≤ Nat.clog 2 (t.numNodes + 1) := by
  induction t with
  | nil => simp
  | node x l r ihl ihr =>
      obtain ⟨hlr, hrl, hl, hr⟩ := h
      rw [height, numNodes, Nat.clog_of_two_le Nat.one_lt_two (by omega), Nat.add_le_add_iff_right]
      apply Nat.max_le.mpr
      constructor
      · exact (ihl hl).trans (Nat.clog_mono_right 2 (by omega))
      · exact (ihr hr).trans (Nat.clog_mono_right 2 (by omega))

/-! ## Paths -/

/-- One step of a path: the hole is the left or the right child of `x`. -/
inductive Frame (α : Type u) where
  | left (x : α) (right : BinaryTree α)
  | right (left : BinaryTree α) (x : α)

/-- A tree with one hole, as the frames from the hole up to the root. -/
abbrev Path (α : Type u) := List (Frame α)

/-- Fill the hole of a path. -/
def plug : Path α → BinaryTree α → BinaryTree α
  | [], t => t
  | .left x r :: c, t => plug c (node x t r)
  | .right l x :: c, t => plug c (node x l t)

/-- The nodes of a path to the left of its hole. -/
def before : Path α → List α
  | [] => []
  | .left _ _ :: c => before c
  | .right l x :: c => before c ++ (l.inorder ++ [x])

/-- The nodes of a path to the right of its hole. -/
def after : Path α → List α
  | [] => []
  | .left x r :: c => (x :: r.inorder) ++ after c
  | .right _ _ :: c => after c

/-- The node whose child the hole is. -/
def holeParent : Path α → Option α
  | [] => none
  | .left x _ :: _ => some x
  | .right _ x :: _ => some x

/-- The root of the filled path, from the root of what fills it. -/
def holeTop : Path α → Option α → Option α
  | [], p => p
  | .left x _ :: c, _ => holeTop c (some x)
  | .right _ x :: c, _ => holeTop c (some x)

theorem top_plug (c : Path α) (t : BinaryTree α) : (plug c t).top = holeTop c t.top := by
  induction c generalizing t with
  | nil => rfl
  | cons f c ih => cases f <;> exact ih _

@[simp] theorem plug_nil (t : BinaryTree α) : plug [] t = t := rfl

@[simp] theorem plug_left (x : α) (r : BinaryTree α) (c : Path α) (t : BinaryTree α) :
    plug (.left x r :: c) t = plug c (node x t r) := rfl

@[simp] theorem plug_right (l : BinaryTree α) (x : α) (c : Path α) (t : BinaryTree α) :
    plug (.right l x :: c) t = plug c (node x l t) := rfl

theorem inorder_plug (c : Path α) (t : BinaryTree α) :
    (plug c t).inorder = before c ++ t.inorder ++ after c := by
  induction c generalizing t with
  | nil => simp [before, after]
  | cons f c ih => cases f <;> simp [ih, before, after]

theorem mem_inorder_plug {c : Path α} {t : BinaryTree α} {x : α} :
    x ∈ (plug c t).inorder ↔ x ∈ t.inorder ∨ x ∈ before c ++ after c := by
  rw [inorder_plug]
  simp only [List.mem_append]
  tauto

/-- The nodes of a filled path are distinct when those of the path and of what
fills it are, and no node is in both. -/
theorem nodup_plug {c : Path α} {t : BinaryTree α} :
    (plug c t).inorder.Nodup ↔
      (before c ++ after c).Nodup ∧ t.inorder.Nodup ∧ ∀ x ∈ t.inorder, x ∉ before c ++ after c := by
  have hp : (plug c t).inorder.Perm (t.inorder ++ (before c ++ after c)) := by
    rw [inorder_plug, List.append_assoc, ← List.append_assoc]
    calc (before c ++ t.inorder) ++ after c
      _ |>.Perm ((t.inorder ++ before c) ++ after c) := List.perm_append_comm.append_right _
      _ |>.Perm (t.inorder ++ (before c ++ after c)) := by rw [List.append_assoc]
  rw [hp.nodup_iff, List.nodup_append]
  constructor
  · rintro ⟨ht, hc, hd⟩
    exact ⟨hc, ht, fun x hx hxc ↦ hd x hx x hxc rfl⟩
  · rintro ⟨hc, ht, hd⟩
    exact ⟨ht, hc, fun x hx y hy e ↦ hd x hx (e ▸ hy)⟩

/-- Every node of a tree is the root of a subtree in some hole. -/
theorem exists_plug_of_mem {t : BinaryTree α} {x : α} (h : x ∈ t.inorder) :
    ∃ c l r, t = plug c (node x l r) := by
  suffices key : ∀ (t : BinaryTree α) (c : Path α), x ∈ t.inorder →
      ∃ c' l r, plug c t = plug c' (node x l r) from key t [] h
  intro t
  induction t with
  | nil => simp
  | node y l r ihl ihr =>
      intro c hx
      simp only [inorder_node, List.mem_append, List.mem_cons] at hx
      rcases hx with hx | rfl | hx
      · exact ihl (.left y r :: c) hx
      · exact ⟨c, l, r, rfl⟩
      · exact ihr (.right l y :: c) hx

end BinaryTree
