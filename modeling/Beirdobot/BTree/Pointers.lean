import Beirdobot.BTree.Model

/-!
# What the walks and the relinkings do

One lemma for each function of the model that only reads or writes pointers.  A
tree in memory is described by `Holds s t`: the pointers of `s` are those of the
shape `t`.  Each edit is stated below an arbitrary path, since the source edits
subtrees in place.
-/

namespace Beirdobot.BTree

open Library BinaryTree

variable {ι : Type}

/-! ## Walks -/

theorem weight_eq {h : Links ι} {q : Option ι} {t : BinaryTree ι} (ht : Linked h q t)
    (fuel : ℕ) (hf : t.numNodes ≤ fuel) :
    balancedBTreeWeight h fuel t.top = some t.numNodes := by
  induction t generalizing q fuel with
  | nil => cases fuel <;> rfl
  | node x l r ihl ihr =>
      obtain ⟨-, hl, hr, htl, htr⟩ := ht
      cases fuel with
      | zero => simp at hf
      | succ fuel =>
          simp only [numNodes] at hf
          have el := ihl htl fuel (by omega)
          have er := ihr htr fuel (by omega)
          simp only [top_node, balancedBTreeWeight, hl, hr, el, er, Option.bind_eq_bind,
            Option.bind_some, numNodes]
          congr 1
          omega

theorem findGreatestLoop_eq {h : Links ι} {q : Option ι} {x : ι} {l r : BinaryTree ι}
    (ht : Linked h q (node x l r)) (fuel : ℕ) (hf : (node x l r).numNodes ≤ fuel)
    (prev : Option ι) :
    findGreatestLoop h fuel prev (some x) = some (some (greatest x r)) := by
  induction r generalizing x l q fuel prev with
  | nil =>
      obtain ⟨-, -, hr, -, -⟩ := ht
      cases fuel with
      | zero => simp at hf
      | succ fuel => simp [findGreatestLoop, hr, greatest]
  | node y m s _ ihs =>
      obtain ⟨-, -, hr, -, htr⟩ := ht
      cases fuel with
      | zero => simp at hf
      | succ fuel =>
          simp only [findGreatestLoop, hr, top_node]
          exact ihs htr fuel (by simp at hf ⊢; omega) _

theorem findGreatest_eq {h : Links ι} {q : Option ι} {x : ι} {l r : BinaryTree ι}
    (ht : Linked h q (node x l r)) (fuel : ℕ) (hf : (node x l r).numNodes ≤ fuel) :
    balancedBTreeFindGreatest h fuel (some x) = some (some (greatest x r)) :=
  findGreatestLoop_eq ht fuel hf none

theorem findLeastLoop_mirror (h : Links ι) (fuel : ℕ) (prev p : Option ι) :
    findLeastLoop h fuel prev p = findGreatestLoop h.mirror fuel prev p := by
  induction fuel generalizing prev p with
  | zero => cases p <;> rfl
  | succ fuel ih => cases p with
      | none => rfl
      | some x => exact ih _ _

theorem findLeast_eq {h : Links ι} {q : Option ι} {x : ι} {l r : BinaryTree ι}
    (ht : Linked h q (node x l r)) (fuel : ℕ) (hf : (node x l r).numNodes ≤ fuel) :
    balancedBTreeFindLeast h fuel (some x) = some (some (least x l)) := by
  have hf' : (node x r.mirror l.mirror).numNodes ≤ fuel := by simp at hf ⊢; omega
  rw [balancedBTreeFindLeast, findLeastLoop_mirror, findGreatestLoop_eq ht.mirror fuel hf',
    greatest_mirror]

/-! ## Trees in memory -/

/-- The pointers of the tree in memory are those of the shape `t`. -/
structure Holds (s : Pointers ι) (t : BinaryTree ι) : Prop where
  root_eq : s.root = t.top
  linked : Linked s.toLinks none t
  nodup : t.inorder.Nodup

section Edits

variable [DecidableEq ι]

/-- Linking the root of `t` where `x` was: nothing but the parent of the hole
changes. -/
theorem relink_holds {s : Pointers ι} {c : Path ι} {x : ι} {t : BinaryTree ι}
    (hroot : s.root = holeTop c (some x)) (hc : LinkedPath s.toLinks c (some x))
    (ht : Linked s.toLinks (holeParent c) t) (hn : (plug c t).inorder.Nodup)
    (hx : x ∉ before c ++ after c) :
    Holds (relink s (holeParent c) (some x) t.top) (plug c t) := by
  obtain ⟨hnc, -, hd⟩ := nodup_plug.mp hn
  cases c with
  | nil => exact ⟨rfl, linked_plug.mpr ⟨trivial, ht⟩, hn⟩
  | cons f c =>
      have hc' := hc.setChild hnc hx t.top
      obtain ⟨y, hy, hyc⟩ : ∃ y, holeParent (f :: c) = some y ∧
          y ∈ before (f :: c) ++ after (f :: c) := by
        cases f <;> exact ⟨_, rfl, by simp [before, after]⟩
      rw [hy] at hc' ht ⊢
      refine ⟨?_, linked_plug.mpr ⟨hc', ?_⟩, hn⟩
      · rw [top_plug]
        cases f <;> exact hroot
      · rw [hy]
        refine ht.congr fun z hz ↦ ?_
        have hzy : z ≠ y := fun e ↦ hd z hz (e ▸ hyc)
        simp only [relink, Pointers.modify, Links.setChild]
        split <;> simp [hzy]

/-- Shifting to the right moves the greatest node of the left subtree to the
root, with the old root as its right child; no other pointer changes. -/
theorem shiftRight_eq {h : Links ι} {q : Option ι} {x a : ι} {l r R : BinaryTree ι}
    (ht : Linked h q (node x (node a l r) R)) (hn : (node x (node a l r) R).inorder.Nodup)
    (fuel : ℕ) (hf : (node a l r).numNodes ≤ fuel) :
    ∃ h', shiftRight fuel h x = some (h', greatest a r) ∧
      Linked h' q (node (greatest a r) (node a l r).dropGreatest (node x nil R)) ∧
      ∀ z ∉ (node x (node a l r) R).inorder, h.AgreeOn h' [z] := by
  obtain ⟨hp, hl, hr, htL, htR⟩ := ht
  have hfind := findGreatest_eq htL fuel hf
  have hn' : (node (greatest a r) (node a l r).dropGreatest (node x nil R)).inorder.Nodup := by
    rw [inorder_node, inorder_dropGreatest] at hn
    simpa using hn
  obtain ⟨hnD, hnR, hgD, hgR, hDR⟩ := nodup_node.mp hn'
  have hxR : x ∉ R.inorder := by simpa using (List.nodup_cons.mp hnR).1
  have hxD : x ∉ (node a l r).dropGreatest.inorder := fun h ↦ hDR x h (by simp)
  simp only [inorder_node, inorder_nil, List.nil_append, List.mem_cons, not_or] at hgR hDR
  obtain ⟨hgx, hgR⟩ := hgR
  cases r with
  | nil =>
      -- the item is the left child itself, and keeps its own left subtree
      obtain ⟨hgp, hal, -, htl, -⟩ := htL
      simp only [greatest, dropGreatest_nil_right] at *
      let h' := (((h.setParent a q).setRight a (some x)).setParent x (some a)).setLeft x none
      refine ⟨h', by simp [shiftRight, hfind, hl, hgp, hp, h'],
        ⟨by simp [h', hgx], by simp [h', hgx, hal], by simp [h'], htl.congr fun z hz ↦ ?_,
          by simp [h'], by simp [h'], by simp [h', Ne.symm hgx, hr], trivial,
          htR.congr fun z hz ↦ ?_⟩, fun z hz ↦ ?_⟩
      · have hzx : z ≠ x := fun e ↦ hxD (e ▸ hz)
        have hza : z ≠ a := fun e ↦ hgD (e ▸ hz)
        simp [h', hzx, hza]
      · have hzx : z ≠ x := fun e ↦ hxR (e ▸ hz)
        have hza : z ≠ a := fun e ↦ hgR (e ▸ hz)
        simp [h', hzx, hza]
      · simp only [inorder_node, List.mem_append, List.mem_cons, not_or] at hz
        simp [Links.AgreeOn, h', hz]
  | node y b r =>
      obtain ⟨-, m, hgl, -, hsub, -⟩ := htL.2.2.2.2.greatest
      obtain ⟨-, -, -, -, -, hgw⟩ := htL.greatest
      obtain ⟨w, hw, hwp, -⟩ := hgw (by simp)
      have hdrop := htL.dropGreatest (nodup_node.mp hn).1 hwp
      rw [dropGreatest_node_right] at *
      simp only [greatest] at *
      obtain ⟨-, -, -, haD, -⟩ := nodup_node.mp hnD
      have hmD : ∀ z ∈ m.inorder, z ∈ (node a l (node y b r).dropGreatest).inorder :=
        fun z hz ↦ by simp [hsub z hz]
      have hwx : w ≠ x := fun e ↦ hxD (e ▸ hw)
      have hwg : w ≠ greatest y r := fun e ↦ hgD (e ▸ hw)
      have hag : a ≠ greatest y r := fun e ↦ hgD (by simp [← e])
      have hgm : some (greatest y r) ≠ m.top := ne_top fun e ↦ hgD (hmD _ e)
      have hxm : some x ≠ m.top := ne_top fun e ↦ hxD (hmD _ e)
      have ham : some a ≠ m.top := ne_top fun e ↦ haD (hsub _ e)
      let h' := (((((((h.setParent (greatest y r) q).setRight (greatest y r) (some x)).setLeft
        (greatest y r) (some a)).reparent (some a) (some (greatest y r))).setParent x
        (some (greatest y r))).setLeft x none).setRight w m.top).reparent m.top (some w)
      refine ⟨h', by simp [shiftRight, hfind, hl, hwp, hwx, hag, hp, hgl, h'],
        ⟨by simp [h', hgx, hgm, Ne.symm hag], by simp [h', hgx], by simp [h', Ne.symm hwg],
          (hdrop.reparent hnD (some (greatest y r))).congr fun z hz ↦ ?_,
          by simp [h', hxm], by simp [h'], by simp [h', Ne.symm hgx, Ne.symm hwx, hr], trivial,
          htR.congr fun z hz ↦ ?_⟩, fun z hz ↦ ?_⟩
      · have hzx : z ≠ x := fun e ↦ hxD (e ▸ hz)
        have hzg : z ≠ greatest y r := fun e ↦ hgD (e ▸ hz)
        by_cases hza : z = a
        · subst hza
          simp [h', hzx, hzg, hgl, ham]
        · simp [h', hzx, hzg, hza, hgl]
      · have hzx : z ≠ x := fun e ↦ hxR (e ▸ hz)
        have hzg : z ≠ greatest y r := fun e ↦ hgR (e ▸ hz)
        have hzD : z ∉ (node a l (node y b r).dropGreatest).inorder := fun e ↦ (hDR z e).2 hz
        have hza : z ≠ a := fun e ↦ hzD (by simp [e])
        have hzw : z ≠ w := fun e ↦ hzD (e ▸ hw)
        have hzm : some z ≠ m.top := ne_top fun e ↦ hzD (hmD z e)
        simp [h', hzx, hzg, hza, hzw, hzm]
      · have hin : (node y b r).inorder = (node y b r).dropGreatest.inorder ++ [greatest y r] :=
          inorder_dropGreatest y b r
        rw [inorder_node, inorder_node, hin] at hz
        simp only [List.mem_append, List.mem_cons, not_or] at hz
        obtain ⟨⟨hzl, hza, hzd, hzg, -⟩, hzx, -⟩ := hz
        have hzD : z ∉ (node a l (node y b r).dropGreatest).inorder := by
          simp [hzl, hza, hzd]
        have hzw : z ≠ w := fun e ↦ hzD (e ▸ hw)
        have hzm : some z ≠ m.top := ne_top fun e ↦ hzD (hmD z e)
        simp [Links.AgreeOn, h', hzx, hzg, hza, hzw, hzm]

/-- The two shifts are mirror images. -/
theorem shiftLeft_mirror (fuel : ℕ) (h : Links ι) (x : ι) :
    shiftLeft fuel h x = (shiftRight fuel h.mirror x).map fun p ↦ (p.1.mirror, p.2) := by
  have hfind : balancedBTreeFindLeast h fuel (h.right x) =
      balancedBTreeFindGreatest h.mirror fuel (h.mirror.left x) := findLeastLoop_mirror ..
  rw [shiftLeft, shiftRight, hfind]
  rcases balancedBTreeFindGreatest h.mirror fuel (h.mirror.left x) with _ | _ | item
  · rfl
  · rfl
  · simp only [Option.bind_eq_bind, Option.bind_some, Links.mirror_left,
      Links.mirror_parent]
    by_cases hi : h.right x = some item <;> by_cases hx : h.parent item = some x
    case neg | neg =>
      rcases Option.eq_none_or_eq_some (h.parent item) with hp | ⟨w, hp⟩
      · simp [hp]
      · have hwx : w ≠ x := fun e ↦ hx (by rw [hp, e])
        simp [hi, hp, hwx, Links.mirror_reparent, Links.mirror_setRight, Links.mirror_setLeft,
          Links.mirror_setParent]
    all_goals
      simp [hi, hx, Links.mirror_reparent, Links.mirror_setRight, Links.mirror_setLeft,
        Links.mirror_setParent]

/-- Shifting to the left moves the least node of the right subtree to the root,
with the old root as its left child; no other pointer changes. -/
theorem shiftLeft_eq {h : Links ι} {q : Option ι} {x a : ι} {l r L : BinaryTree ι}
    (ht : Linked h q (node x L (node a l r))) (hn : (node x L (node a l r)).inorder.Nodup)
    (fuel : ℕ) (hf : (node a l r).numNodes ≤ fuel) :
    ∃ h', shiftLeft fuel h x = some (h', least a l) ∧
      Linked h' q (node (least a l) (node x L nil) (node a l r).dropLeast) ∧
      ∀ z ∉ (node x L (node a l r)).inorder, h.AgreeOn h' [z] := by
  have hn' : (node x L (node a l r)).mirror.inorder.Nodup := by
    rw [inorder_mirror]; exact List.nodup_reverse.mpr hn
  have hf' : (node a r.mirror l.mirror).numNodes ≤ fuel := by
    rw [← mirror_node, numNodes_mirror]; exact hf
  obtain ⟨h', he, hl, ha⟩ := shiftRight_eq ht.mirror hn' fuel hf'
  rw [greatest_mirror] at he hl
  rw [← mirror_node] at hl
  refine ⟨h'.mirror, by rw [shiftLeft_mirror, he]; rfl, ?_, fun z hz ↦ ?_⟩
  · have hl' := hl.mirror
    rw [mirror_node, dropGreatest_mirror, mirror_mirror, mirror_node, mirror_mirror,
      mirror_nil] at hl'
    exact hl'
  · have hz' : z ∉ (node x L (node a l r)).mirror.inorder := by
      rw [inorder_mirror]; exact fun e ↦ hz (List.mem_reverse.mp e)
    intro y hy
    obtain ⟨al, ar, ap⟩ := ha z hz' y hy
    exact ⟨ar, al, ap⟩

end Edits

end Beirdobot.BTree
