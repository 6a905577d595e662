import Beirdobot.Library.BinaryTree
import Mathlib.Logic.Function.Basic

/-!
# Binary trees linked through left, right and parent pointers

A heap gives every address three nullable pointers.  `Linked h q t` says that
the pointers of the nodes of `t` are the ones its shape prescribes, with `q` the
parent pointer of its root; `LinkedPath` is the same for a path.  A pointer edit
is reasoned about piece by piece: `Linked.congr` carries the untouched pieces,
`Linked.reparent` a subtree that moves as a whole, `Linked.dropGreatest` and
`Linked.dropLeast` the unlinking of an extreme node, and `LinkedPath.setHole`
the parent whose child pointer changes.
-/

universe u

namespace Beirdobot.Library

open BinaryTree

variable {ι : Type u}

/-- The pointers of every address; `none` is the null pointer. -/
@[ext]
structure Links (ι : Type u) where
  left : ι → Option ι
  right : ι → Option ι
  parent : ι → Option ι

namespace Links

/-- The same pointers with left and right exchanged. -/
def mirror (h : Links ι) : Links ι := ⟨h.right, h.left, h.parent⟩

@[simp] theorem mirror_left (h : Links ι) : h.mirror.left = h.right := rfl
@[simp] theorem mirror_right (h : Links ι) : h.mirror.right = h.left := rfl
@[simp] theorem mirror_parent (h : Links ι) : h.mirror.parent = h.parent := rfl

@[simp] theorem mirror_mirror (h : Links ι) : h.mirror.mirror = h := rfl

/-- Two heaps have the same pointers at every address of `S`. -/
def AgreeOn (h h' : Links ι) (S : List ι) : Prop :=
  ∀ x ∈ S, h'.left x = h.left x ∧ h'.right x = h.right x ∧ h'.parent x = h.parent x

section Updates

variable [DecidableEq ι]

/-- Write the left pointer of `x`. -/
def setLeft (h : Links ι) (x : ι) (p : Option ι) : Links ι :=
  { h with left := Function.update h.left x p }

/-- Write the right pointer of `x`. -/
def setRight (h : Links ι) (x : ι) (p : Option ι) : Links ι :=
  { h with right := Function.update h.right x p }

/-- Write the parent pointer of `x`. -/
def setParent (h : Links ι) (x : ι) (p : Option ι) : Links ι :=
  { h with parent := Function.update h.parent x p }

/-- Write the parent pointer of the node `p` points to, if it points to one. -/
def reparent (h : Links ι) (p q : Option ι) : Links ι :=
  match p with
  | none => h
  | some x => h.setParent x q

@[simp] theorem setLeft_left (h : Links ι) (x y : ι) (p : Option ι) :
    (h.setLeft x p).left y = if y = x then p else h.left y := Function.update_apply ..
@[simp] theorem setLeft_right (h : Links ι) (x : ι) (p : Option ι) :
    (h.setLeft x p).right = h.right := rfl
@[simp] theorem setLeft_parent (h : Links ι) (x : ι) (p : Option ι) :
    (h.setLeft x p).parent = h.parent := rfl
@[simp] theorem setRight_left (h : Links ι) (x : ι) (p : Option ι) :
    (h.setRight x p).left = h.left := rfl
@[simp] theorem setRight_right (h : Links ι) (x y : ι) (p : Option ι) :
    (h.setRight x p).right y = if y = x then p else h.right y := Function.update_apply ..
@[simp] theorem setRight_parent (h : Links ι) (x : ι) (p : Option ι) :
    (h.setRight x p).parent = h.parent := rfl
@[simp] theorem setParent_left (h : Links ι) (x : ι) (p : Option ι) :
    (h.setParent x p).left = h.left := rfl
@[simp] theorem setParent_right (h : Links ι) (x : ι) (p : Option ι) :
    (h.setParent x p).right = h.right := rfl
@[simp] theorem setParent_parent (h : Links ι) (x y : ι) (p : Option ι) :
    (h.setParent x p).parent y = if y = x then p else h.parent y := Function.update_apply ..

@[simp] theorem reparent_none (h : Links ι) (q : Option ι) : h.reparent none q = h := rfl
theorem reparent_some (h : Links ι) (x : ι) (q : Option ι) :
    h.reparent (some x) q = h.setParent x q := rfl
@[simp] theorem reparent_left (h : Links ι) (p q : Option ι) :
    (h.reparent p q).left = h.left := by cases p <;> rfl
@[simp] theorem reparent_right (h : Links ι) (p q : Option ι) :
    (h.reparent p q).right = h.right := by cases p <;> rfl

@[simp] theorem reparent_parent (h : Links ι) (p q : Option ι) (x : ι) :
    (h.reparent p q).parent x = if some x = p then q else h.parent x := by
  cases p with
  | none => simp
  | some y => simp [reparent_some]

theorem mirror_setRight (h : Links ι) (x : ι) (p : Option ι) :
    (h.setRight x p).mirror = h.mirror.setLeft x p := rfl

theorem mirror_setLeft (h : Links ι) (x : ι) (p : Option ι) :
    (h.setLeft x p).mirror = h.mirror.setRight x p := rfl

theorem mirror_setParent (h : Links ι) (x : ι) (p : Option ι) :
    (h.setParent x p).mirror = h.mirror.setParent x p := rfl

theorem mirror_reparent (h : Links ι) (p q : Option ι) :
    (h.reparent p q).mirror = h.mirror.reparent p q := by cases p <;> rfl

/-- Make the child pointer of `q` that was `old` point to `new`: the left one if
that was `old`, else the right one. -/
def setChild (h : Links ι) (q old new : Option ι) : Links ι :=
  match q with
  | none => h
  | some y => if h.left y = old then h.setLeft y new else h.setRight y new

end Updates

end Links

/-! ## Linked trees -/

/-- The pointers of the nodes of the tree follow its shape, and the parent
pointer of its root is `q`. -/
def Linked (h : Links ι) : Option ι → BinaryTree ι → Prop
  | _, .nil => True
  | q, .node x l r => h.parent x = q ∧ h.left x = l.top ∧ h.right x = r.top ∧
      Linked h (some x) l ∧ Linked h (some x) r

@[simp] theorem linked_nil (h : Links ι) (q : Option ι) : Linked h q nil := trivial

theorem linked_node {h : Links ι} {q : Option ι} {x : ι} {l r : BinaryTree ι} :
    Linked h q (node x l r) ↔ h.parent x = q ∧ h.left x = l.top ∧ h.right x = r.top ∧
      Linked h (some x) l ∧ Linked h (some x) r := Iff.rfl

theorem ne_top {t : BinaryTree ι} {x : ι} (h : x ∉ t.inorder) : some x ≠ t.top := by
  cases t with
  | nil => simp
  | node y l r => simp_all

theorem top_mem {t : BinaryTree ι} {x : ι} (h : t.top = some x) : x ∈ t.inorder :=
  by_contra fun hx ↦ ne_top hx h.symm

/-- A linked tree only depends on the pointers of its own nodes. -/
theorem Linked.congr {h h' : Links ι} {q : Option ι} {t : BinaryTree ι}
    (ht : Linked h q t) (ha : h.AgreeOn h' t.inorder) : Linked h' q t := by
  induction t generalizing q with
  | nil => trivial
  | node x l r ihl ihr =>
      obtain ⟨hp, hl, hr, htl, htr⟩ := ht
      obtain ⟨al, ar, ap⟩ := ha x (by simp)
      exact ⟨ap.trans hp, al.trans hl, ar.trans hr,
        ihl htl fun y hy ↦ ha y (by simp [hy]), ihr htr fun y hy ↦ ha y (by simp [hy])⟩

/-- The pointers determine the tree. -/
theorem Linked.unique {h : Links ι} {q q' : Option ι} {t t' : BinaryTree ι} (ht : Linked h q t)
    (ht' : Linked h q' t') (htop : t.top = t'.top) : t = t' := by
  induction t generalizing q q' t' with
  | nil =>
      cases t' with
      | nil => rfl
      | node y l r => cases htop
  | node x l r ihl ihr =>
      cases t' with
      | nil => cases htop
      | node y l' r' =>
          cases htop
          obtain ⟨-, hl, hr, htl, htr⟩ := ht
          obtain ⟨-, hl', hr', htl', htr'⟩ := ht'
          rw [ihl htl htl' (hl.symm.trans hl'), ihr htr htr' (hr.symm.trans hr')]

/-- Moving a subtree as a whole rewrites the parent pointer of its root. -/
theorem Linked.reparent [DecidableEq ι] {h : Links ι} {q : Option ι} {t : BinaryTree ι}
    (ht : Linked h q t) (hn : t.inorder.Nodup) (q' : Option ι) :
    Linked (h.reparent t.top q') q' t := by
  cases t with
  | nil => trivial
  | node x l r =>
      obtain ⟨-, hl, hr, htl, htr⟩ := ht
      simp only [inorder_node, List.nodup_append, List.nodup_cons] at hn
      refine ⟨by simp, by simpa, by simpa, htl.congr ?_, htr.congr ?_⟩
      · intro y hy
        have hyx : y ≠ x := hn.2.2 y hy x (by simp)
        simp [hyx]
      · intro y hy
        have hyx : y ≠ x := fun e ↦ hn.2.1.1 (e ▸ hy)
        simp [hyx]

/-- No node is both children of another. -/
theorem Linked.left_ne_right {h : Links ι} {q : Option ι} {t : BinaryTree ι} {w g : ι}
    (ht : Linked h q t) (hn : t.inorder.Nodup) (hw : w ∈ t.inorder) (hr : h.right w = some g) :
    h.left w ≠ some g := by
  induction t generalizing q with
  | nil => simp at hw
  | node x l r ihl ihr =>
      obtain ⟨-, hxl, hxr, htl, htr⟩ := ht
      obtain ⟨hnl, hnr, -, -, hd⟩ := nodup_node.mp hn
      simp only [inorder_node, List.mem_append, List.mem_cons] at hw
      rcases hw with hw | rfl | hw
      · exact ihl htl hnl hw
      · exact fun hl ↦ hd g (top_mem (hxl ▸ hl)) (top_mem (hxr ▸ hr))
      · exact ihr htr hnr hw

/-- Hanging a subtree to the right of `x`. -/
theorem Linked.hangRight [DecidableEq ι] {h : Links ι} {q : Option ι} {t : BinaryTree ι} {x : ι}
    (ht : Linked h q t) (hn : t.inorder.Nodup) (hx : x ∉ t.inorder) :
    Linked ((h.setRight x t.top).reparent t.top (some x)) (some x) t := by
  have ht' : Linked (h.setRight x t.top) q t := ht.congr fun z hz ↦ by
    have hzx : z ≠ x := fun e ↦ hx (e ▸ hz)
    simp [hzx]
  exact ht'.reparent hn (some x)

/-- Hanging a subtree to the left of `x`. -/
theorem Linked.hangLeft [DecidableEq ι] {h : Links ι} {q : Option ι} {t : BinaryTree ι} {x : ι}
    (ht : Linked h q t) (hn : t.inorder.Nodup) (hx : x ∉ t.inorder) :
    Linked ((h.setLeft x t.top).reparent t.top (some x)) (some x) t := by
  have ht' : Linked (h.setLeft x t.top) q t := ht.congr fun z hz ↦ by
    have hzx : z ≠ x := fun e ↦ hx (e ▸ hz)
    simp [hzx]
  exact ht'.reparent hn (some x)

/-- Giving the root of a linked tree a new parent. -/
theorem Linked.setParent [DecidableEq ι] {h : Links ι} {q : Option ι} {x : ι}
    {l r : BinaryTree ι} (ht : Linked h q (node x l r)) (hn : (node x l r).inorder.Nodup)
    (q' : Option ι) : Linked (h.setParent x q') q' (node x l r) :=
  ht.reparent hn q'

theorem Linked.mirror {h : Links ι} {q : Option ι} {t : BinaryTree ι}
    (ht : Linked h q t) : Linked h.mirror q t.mirror := by
  induction t generalizing q with
  | nil => trivial
  | node x l r ihl ihr =>
      obtain ⟨hp, hl, hr, htl, htr⟩ := ht
      refine ⟨hp, ?_, ?_, ihr htr, ihl htl⟩
      · rw [Links.mirror_left, hr]; cases r <;> rfl
      · rw [Links.mirror_right, hl]; cases l <;> rfl

/-! ## Unlinking an extreme node -/

/-- Where the right-most node of a tree hangs: its right pointer is null, its
left subtree is linked below it, and if it is not the root then it is the right
child of a node of the tree. -/
theorem Linked.greatest {h : Links ι} {q : Option ι} {x : ι} {l r : BinaryTree ι}
    (ht : Linked h q (node x l r)) :
    h.right (greatest x r) = none ∧
      ∃ m : BinaryTree ι, h.left (greatest x r) = m.top ∧
        Linked h (some (greatest x r)) m ∧ (∀ y ∈ m.inorder, y ∈ (node x l r).dropGreatest.inorder) ∧
        (r ≠ nil → ∃ w ∈ (node x l r).dropGreatest.inorder,
          h.parent (greatest x r) = some w ∧ h.right w = some (greatest x r)) := by
  induction r generalizing x l q with
  | nil =>
      obtain ⟨-, hl, hr, htl, -⟩ := ht
      exact ⟨hr, l, hl, htl, by simp, by simp⟩
  | node y m s _ ihs =>
      obtain ⟨-, -, hr, -, htr⟩ := ht
      obtain ⟨h₁, t, h₂, h₃, h₄, h₅⟩ := ihs htr
      refine ⟨h₁, t, h₂, h₃, fun z hz ↦ ?_, fun _ ↦ ?_⟩
      · rw [dropGreatest_node_right]
        simp [h₄ z hz]
      · by_cases hs : s = nil
        · subst hs
          exact ⟨x, by rw [dropGreatest_node_right]; simp, htr.1, hr⟩
        · obtain ⟨w, hw, hwp, hwr⟩ := h₅ hs
          exact ⟨w, by rw [dropGreatest_node_right]; simp [hw], hwp, hwr⟩

/-- Hanging the left subtree of the right-most node on its parent unlinks that
node and no other. -/
theorem Linked.dropGreatest [DecidableEq ι] {h : Links ι} {q : Option ι} {x y w : ι}
    {l m s : BinaryTree ι} (ht : Linked h q (node x l (node y m s)))
    (hn : (node x l (node y m s)).inorder.Nodup)
    (hw : h.parent (BinaryTree.greatest y s) = some w) :
    Linked ((h.setRight w (h.left (BinaryTree.greatest y s))).reparent
      (h.left (BinaryTree.greatest y s)) (some w)) q (node x l (node y m s)).dropGreatest := by
  induction s generalizing x l y m q with
  | nil =>
      obtain ⟨hp, hl, hr, htl, hyp, hyl, hyr, htm, -⟩ := ht
      obtain rfl : x = w := by simpa [BinaryTree.greatest, hyp] using hw
      simp only [inorder_node, inorder_nil, List.nodup_append, List.nodup_cons,
        List.mem_append, List.mem_cons] at hn
      obtain ⟨-, ⟨hx, hnm, -⟩, hd⟩ := hn
      have hxm : some x ≠ m.top := ne_top fun e ↦ hx (.inl e)
      simp only [dropGreatest_node_right, dropGreatest_nil_right, BinaryTree.greatest, hyl]
      refine ⟨by simp [hxm, hp], by simp [hl], by simp, htl.congr fun z hz ↦ ?_, ?_⟩
      · have hzx : z ≠ x := hd z hz x (by simp)
        have hzm : some z ≠ m.top := ne_top fun e ↦ hd z hz z (.inr (.inl e)) rfl
        simp [hzx, hzm]
      · refine (htm.reparent hnm (some x)).congr fun z hz ↦ ?_
        have hzx : z ≠ x := fun e ↦ hx (.inl (e ▸ hz))
        simp [hzx]
  | node z a b _ ihb =>
      obtain ⟨hp, hl, hr, htl, htr⟩ := ht
      have hn' := hn
      rw [inorder_node, List.nodup_append, List.nodup_cons] at hn'
      obtain ⟨-, ⟨hxr, hnr⟩, hd⟩ := hn'
      have ih := ihb htr hnr hw
      obtain ⟨-, t, hgt, -, htm, hgw⟩ := htr.greatest
      obtain ⟨w', hw', hwp, -⟩ := hgw (by simp)
      have hsub : ∀ v ∈ (node y m (node z a b)).dropGreatest.inorder,
          v ∈ (node y m (node z a b)).inorder := fun v hv ↦ by
        rw [inorder_dropGreatest]; exact List.mem_append_left _ hv
      simp only [BinaryTree.greatest] at hw hgt hwp ih ⊢
      obtain rfl : w = w' := by simpa [hw] using hwp
      have hxw : x ≠ w := fun e ↦ hxr (e ▸ hsub _ hw')
      have hxt : some x ≠ t.top := ne_top fun e ↦ hxr (hsub _ (htm _ e))
      rw [dropGreatest_node_right]
      refine ⟨?_, ?_, ?_, htl.congr fun v hv ↦ ?_, ih⟩
      · simpa [hgt, hxt] using hp
      · simpa using hl
      · simpa [hxw, dropGreatest_node_right] using hr
      · have hvw : v ≠ w := hd v hv w (List.mem_cons_of_mem _ (hsub _ hw'))
        have hvt : some v ≠ t.top := ne_top fun e ↦
          hd v hv v (List.mem_cons_of_mem _ (hsub _ (htm _ e))) rfl
        simp [hgt, hvt, hvw]

/-- Where the left-most node of a tree hangs, as in `Linked.greatest`. -/
theorem Linked.least {h : Links ι} {q : Option ι} {x : ι} {l r : BinaryTree ι}
    (ht : Linked h q (node x l r)) :
    h.left (least x l) = none ∧
      ∃ m : BinaryTree ι, h.right (least x l) = m.top ∧
        Linked h (some (least x l)) m ∧ (∀ y ∈ m.inorder, y ∈ (node x l r).dropLeast.inorder) ∧
        (l ≠ nil → ∃ w ∈ (node x l r).dropLeast.inorder,
          h.parent (least x l) = some w ∧ h.left w = some (least x l)) := by
  obtain ⟨h₁, m, h₂, h₃, h₄, h₅⟩ := ht.mirror.greatest
  have hd : (node x r.mirror l.mirror).dropGreatest = (node x l r).dropLeast.mirror :=
    dropGreatest_mirror (node x l r)
  rw [hd] at h₄ h₅
  rw [greatest_mirror] at h₁ h₂ h₃ h₅
  exact ⟨h₁, m.mirror, by simpa using h₂, h₃.mirror, by simpa using h₄, by simpa using h₅⟩

/-- Hanging the right subtree of the left-most node on its parent unlinks that
node and no other. -/
theorem Linked.dropLeast [DecidableEq ι] {h : Links ι} {q : Option ι} {x y w : ι}
    {m s r : BinaryTree ι} (ht : Linked h q (node x (node y s m) r))
    (hn : (node x (node y s m) r).inorder.Nodup)
    (hw : h.parent (BinaryTree.least y s) = some w) :
    Linked ((h.setLeft w (h.right (BinaryTree.least y s))).reparent
      (h.right (BinaryTree.least y s)) (some w)) q (node x (node y s m) r).dropLeast := by
  have hm : Linked h.mirror q (node x r.mirror (node y m.mirror s.mirror)) := ht.mirror
  have hnm : (node x r.mirror (node y m.mirror s.mirror)).inorder.Nodup := by
    rw [← mirror_node, ← mirror_node, inorder_mirror]; exact List.nodup_reverse.mpr hn
  have key := (hm.dropGreatest hnm (w := w) (by rw [greatest_mirror]; exact hw)).mirror
  rw [greatest_mirror, Links.mirror_reparent, Links.mirror_setRight, ← mirror_node, ← mirror_node,
    dropGreatest_mirror, mirror_mirror] at key
  exact key

/-! ## Linked paths -/

/-- The pointers of the nodes of the path follow its shape, with `p` the child
pointer at its hole. -/
def LinkedPath (h : Links ι) : Path ι → Option ι → Prop
  | [], _ => True
  | .left x r :: c, p => h.parent x = holeParent c ∧ h.left x = p ∧ h.right x = r.top ∧
      Linked h (some x) r ∧ LinkedPath h c (some x)
  | .right l x :: c, p => h.parent x = holeParent c ∧ h.left x = l.top ∧ h.right x = p ∧
      Linked h (some x) l ∧ LinkedPath h c (some x)

theorem linked_plug {h : Links ι} {c : Path ι} {t : BinaryTree ι} :
    Linked h none (plug c t) ↔ LinkedPath h c t.top ∧ Linked h (holeParent c) t := by
  induction c generalizing t with
  | nil => simp [LinkedPath, holeParent]
  | cons f c ih => cases f <;> simp only [plug_left, plug_right, ih, linked_node, LinkedPath,
      holeParent, top_node] <;> tauto

/-- A linked path only depends on the pointers of its own nodes. -/
theorem LinkedPath.congr {h h' : Links ι} {c : Path ι} {p : Option ι}
    (hc : LinkedPath h c p) (ha : h.AgreeOn h' (before c ++ after c)) : LinkedPath h' c p := by
  induction c generalizing p with
  | nil => trivial
  | cons f c ih =>
      cases f with
      | left x r =>
          obtain ⟨hp, hl, hr, ht, hc⟩ := hc
          obtain ⟨al, ar, ap⟩ := ha x (by simp [after])
          exact ⟨ap.trans hp, al.trans hl, ar.trans hr,
            ht.congr fun y hy ↦ ha y (by simp [after, hy]),
            ih hc fun y hy ↦ ha y (by simp [before, after] at hy ⊢; tauto)⟩
      | right l x =>
          obtain ⟨hp, hl, hr, ht, hc⟩ := hc
          obtain ⟨al, ar, ap⟩ := ha x (by simp [before])
          exact ⟨ap.trans hp, al.trans hl, ar.trans hr,
            ht.congr fun y hy ↦ ha y (by simp [before, hy]),
            ih hc fun y hy ↦ ha y (by simp [before, after] at hy ⊢; tauto)⟩

/-- Write the child pointer at the hole of a path. -/
def Links.setHole [DecidableEq ι] (h : Links ι) : Path ι → Option ι → Links ι
  | [], _ => h
  | .left y _ :: _, p => h.setLeft y p
  | .right _ y :: _, p => h.setRight y p

/-- Only the node above the hole is written. -/
theorem Links.agreeOn_setHole [DecidableEq ι] (h : Links ι) {c : Path ι} (p : Option ι)
    {S : List ι} (hS : ∀ x ∈ S, some x ≠ holeParent c) : h.AgreeOn (h.setHole c p) S := by
  intro x hx
  have hxc := hS x hx
  rcases c with _ | ⟨⟨y, r⟩ | ⟨l, y⟩, c⟩ <;> simp_all [setHole, holeParent]

theorem LinkedPath.setHole [DecidableEq ι] {h : Links ι} {c : Path ι} {p : Option ι}
    (hc : LinkedPath h c p) (hn : (before c ++ after c).Nodup) (p' : Option ι) :
    LinkedPath (h.setHole c p') c p' := by
  rcases c with _ | ⟨⟨y, r⟩ | ⟨l, y⟩, c⟩
  · trivial
  · obtain ⟨hp, hl, hr, ht, hc⟩ := hc
    simp only [before, after, List.cons_append, List.nodup_append, List.nodup_cons,
      List.mem_append, List.mem_cons] at hn
    obtain ⟨-, ⟨hy, -⟩, hd⟩ := hn
    refine ⟨hp, by simp [Links.setHole], hr, ht.congr fun z hz ↦ ?_, hc.congr fun z hz ↦ ?_⟩
    · have hzy : z ≠ y := fun e ↦ hy (.inl (e ▸ hz))
      simp [Links.setHole, hzy]
    · have hzy : z ≠ y := by
        rintro rfl
        rcases List.mem_append.mp hz with hz | hz
        · exact hd z hz z (.inl rfl) rfl
        · exact hy (.inr hz)
      simp [Links.setHole, hzy]
  · obtain ⟨hp, hl, hr, ht, hc⟩ := hc
    simp only [before, after, List.nodup_append, List.nodup_cons, List.mem_append,
      List.mem_singleton] at hn
    obtain ⟨⟨-, ⟨-, -, hly⟩, hb⟩, -, hd⟩ := hn
    refine ⟨hp, hl, by simp [Links.setHole], ht.congr fun z hz ↦ ?_, hc.congr fun z hz ↦ ?_⟩
    · have hzy : z ≠ y := hly z hz y rfl
      simp [Links.setHole, hzy]
    · have hzy : z ≠ y := by
        rintro rfl
        rcases List.mem_append.mp hz with hz | hz
        · exact hb z hz z (.inr rfl) rfl
        · exact hd z (.inr (.inr rfl)) z hz rfl
      simp [Links.setHole, hzy]

/-- The child pointer at the hole is changed by `Links.setChild` at the parent
of the hole. -/
theorem LinkedPath.setChild [DecidableEq ι] {h : Links ι} {c : Path ι} {x : ι}
    (hc : LinkedPath h c (some x)) (hn : (before c ++ after c).Nodup)
    (hx : x ∉ before c ++ after c) (p : Option ι) :
    LinkedPath (h.setChild (holeParent c) (some x) p) c p := by
  have he : h.setChild (holeParent c) (some x) p = h.setHole c p := by
    rcases c with _ | ⟨⟨y, r⟩ | ⟨l, y⟩, c⟩
    · rfl
    · exact if_pos hc.2.1
    · have hxl : l.top ≠ some x := Ne.symm (ne_top fun e ↦ hx (by simp [before, e]))
      exact if_neg (hc.2.1 ▸ hxl)
  exact he ▸ hc.setHole hn p

end Beirdobot.Library
