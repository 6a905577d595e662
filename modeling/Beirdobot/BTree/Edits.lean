import Beirdobot.BTree.Pointers
import Mathlib.Tactic.Tauto

/-!
# Replacing, rebalancing and adding, as edits of a shape

`balancedBTreeReplace`, `balancedBTreeRebalance` and `balancedBTreeAdd` below an
arbitrary path of a tree held in memory.  A replacement joins the two subtrees of
the item, a rebalancing keeps the in-order list, an addition puts a leaf into a
hole: each leaves the rest of the tree as it was.
-/

namespace Beirdobot.BTree

open Library BinaryTree

variable {ι : Type}

/-- A tree in memory only depends on its root pointer and its own nodes. -/
theorem Holds.congr {s s' : Pointers ι} {t : BinaryTree ι} (h : Holds s t)
    (hr : s'.root = s.root) (ha : s.toLinks.AgreeOn s'.toLinks t.inorder) : Holds s' t :=
  ⟨hr.trans h.root_eq, h.linked.congr ha, h.nodup⟩

/-- Where the item at the hole of a held tree stands. -/
theorem Holds.plug {s : Pointers ι} {c : Path ι} {t : BinaryTree ι} (h : Holds s (plug c t)) :
    s.root = holeTop c t.top ∧ LinkedPath s.toLinks c t.top ∧ Linked s.toLinks (holeParent c) t :=
  ⟨by rw [h.root_eq, top_plug], linked_plug.mp h.linked⟩

/-! ## Replacing -/

/-- What takes the place of an item with subtrees `l` and `r`. -/
def replacement (l r : BinaryTree ι) : Option ι :=
  if r.numNodes < l.numNodes then
    match l with
    | .nil => none
    | .node a _ s => some (greatest a s)
  else
    match r with
    | .nil => none
    | .node a m _ => some (least a m)

/-- The two subtrees of a removed item, below what takes its place. -/
def join (l r : BinaryTree ι) : BinaryTree ι :=
  match replacement l r with
  | none => .nil
  | some g => if r.numNodes < l.numNodes then .node g l.dropGreatest r else .node g l r.dropLeast

theorem inorder_join (l r : BinaryTree ι) : (join l r).inorder = l.inorder ++ r.inorder := by
  by_cases hw : r.numNodes < l.numNodes
  · cases l with
    | nil => simp at hw
    | node a m s =>
        simp only [join, replacement, if_pos hw]
        rw [inorder_node, inorder_dropGreatest a m s]
        simp
  · cases r with
    | nil =>
        obtain rfl : l = nil := by cases l with
          | nil => rfl
          | node => simp at hw
        simp [join, replacement]
    | node a m s =>
        simp only [join, replacement, if_neg hw]
        rw [inorder_node, inorder_dropLeast a m s]

/-- Dropping the node at the hole, with its subtrees joined to `t`. -/
theorem nodup_plug_join {c : Path ι} {x : ι} {l r t : BinaryTree ι}
    (ht : t.inorder = l.inorder ++ r.inorder) (hn : (plug c (node x l r)).inorder.Nodup) :
    (plug c t).inorder.Nodup ∧ x ∉ (plug c t).inorder := by
  obtain ⟨hnc, hnx, hd⟩ := nodup_plug.mp hn
  obtain ⟨hnl, hnr, hxl, hxr, hlr⟩ := nodup_node.mp hnx
  refine ⟨nodup_plug.mpr ⟨hnc, ?_, fun z hz ↦ hd z ?_⟩, fun hx ↦ ?_⟩
  · rw [ht]
    exact List.nodup_append.mpr ⟨hnl, hnr, fun z hz w hw e ↦ hlr z hz (e ▸ hw)⟩
  · rw [ht, List.mem_append] at hz
    rw [inorder_node, List.mem_append, List.mem_cons]
    tauto
  · rcases mem_inorder_plug.mp hx with h | h
    · rw [ht, List.mem_append] at h
      exact h.elim hxl hxr
    · exact hd x (by simp) h

section Replace

variable [DecidableEq ι]

/-- The last lines of `balancedBTreeReplace`: with its subtrees already below it,
`g` takes the place of `x`, and `x` keeps no pointer. -/
theorem seat_holds {s : Pointers ι} {h : Links ι} {c : Path ι} {x g : ι} {L R : BinaryTree ι}
    (hroot : s.root = holeTop c (some x)) (hc : LinkedPath h c (some x))
    (hp : h.parent x = holeParent c) (hl : h.left g = L.top) (hr : h.right g = R.top)
    (hL : Linked h (some g) L) (hR : Linked h (some g) R)
    (hn : (plug c (node g L R)).inorder.Nodup) (hx : x ∉ (plug c (node g L R)).inorder) :
    Holds ((relink { s with toLinks := h.setParent g (h.parent x) }
      ((h.setParent g (h.parent x)).parent g) (some x) (some g)).modify fun h ↦
        ((h.setLeft x none).setRight x none).setParent x none) (plug c (node g L R)) := by
  obtain ⟨-, hng, hd⟩ := nodup_plug.mp hn
  obtain ⟨-, -, hgL, hgR, -⟩ := nodup_node.mp hng
  have hg : Linked (h.setParent g (holeParent c)) (holeParent c) (node g L R) := by
    refine ⟨by simp, by simpa, by simpa, hL.congr fun z hz ↦ ?_, hR.congr fun z hz ↦ ?_⟩
    · have hzg : z ≠ g := fun e ↦ hgL (e ▸ hz)
      simp [hzg]
    · have hzg : z ≠ g := fun e ↦ hgR (e ▸ hz)
      simp [hzg]
  have hc' : LinkedPath (h.setParent g (holeParent c)) c (some x) := hc.congr fun z hz ↦ by
    have hzg : z ≠ g := fun e ↦ hd g (by simp) (e ▸ hz)
    simp [hzg]
  have hxc : x ∉ before c ++ after c := fun e ↦ hx (mem_inorder_plug.mpr (.inr e))
  have key := relink_holds (s := { s with toLinks := h.setParent g (holeParent c) })
    hroot hc' hg hn hxc
  rw [hp]
  simp only [Links.setParent_parent, if_true, top_node] at key ⊢
  refine key.congr rfl fun z hz ↦ ?_
  have hzx : z ≠ x := fun e ↦ hx (e ▸ hz)
  simp [Pointers.modify, hzx]

/-- Both subtrees of `x` are hung below `g` before `g` takes the place of `x`. -/
theorem hang_seat_holds {s : Pointers ι} {h : Links ι} {c : Path ι} {x g : ι}
    {L R : BinaryTree ι} {pL pR : Option ι}
    (hroot : s.root = holeTop c (some x)) (hc : LinkedPath h c (some x))
    (hp : h.parent x = holeParent c) (hl : h.left x = L.top) (hr : h.right x = R.top)
    (hL : Linked h pL L) (hR : Linked h pR R)
    (hn : (plug c (node g L R)).inorder.Nodup) (hx : x ∉ (plug c (node g L R)).inorder) :
    let h₂ := (h.setRight g (h.right x)).reparent (h.right x) (some g)
    let h₃ := (h₂.setLeft g (h₂.left x)).reparent (h₂.left x) (some g)
    Holds ((relink { s with toLinks := h₃.setParent g (h₃.parent x) }
      ((h₃.setParent g (h₃.parent x)).parent g) (some x) (some g)).modify fun h ↦
        ((h.setLeft x none).setRight x none).setParent x none) (plug c (node g L R)) := by
  intro h₂ h₃
  obtain ⟨-, hng, hd⟩ := nodup_plug.mp hn
  obtain ⟨hnL, hnR, hgL, hgR, hLR⟩ := nodup_node.mp hng
  have hx' : x ∉ (node g L R).inorder := fun e ↦ hx (mem_inorder_plug.mpr (.inl e))
  simp only [inorder_node, List.mem_append, List.mem_cons, not_or] at hx'
  obtain ⟨hxL, hxg, hxR⟩ := hx'
  have e₂ : h₂ = (h.setRight g R.top).reparent R.top (some g) := by simp only [h₂, hr]
  have e₃ : h₃ = (h₂.setLeft g L.top).reparent L.top (some g) := by simp [h₃, e₂, hl]
  have hL₂ : Linked h₂ pL L := hL.congr fun z hz ↦ by
    have hzR : some z ≠ R.top := ne_top (hLR z hz)
    have hzg : z ≠ g := fun e ↦ hgL (e ▸ hz)
    simp [e₂, hzR, hzg]
  have hR₂ : Linked h₂ (some g) R := e₂ ▸ hR.hangRight hnR hgR
  have hL₃ : Linked h₃ (some g) L := e₃ ▸ hL₂.hangLeft hnL hgL
  have hR₃ : Linked h₃ (some g) R := hR₂.congr fun z hz ↦ by
    have hzL : some z ≠ L.top := ne_top fun e ↦ hLR z e hz
    have hzg : z ≠ g := fun e ↦ hgR (e ▸ hz)
    simp [e₃, hzL, hzg]
  have hc₃ : LinkedPath h₃ c (some x) := hc.congr fun z hz ↦ by
    have hzg : z ≠ g := fun e ↦ hd g (by simp) (e ▸ hz)
    have hzL : some z ≠ L.top := ne_top fun e ↦ hd z (by simp [e]) hz
    have hzR : some z ≠ R.top := ne_top fun e ↦ hd z (by simp [e]) hz
    simp [e₃, e₂, hzg, hzL, hzR]
  have hp₃ : h₃.parent x = holeParent c := by
    simp [e₃, e₂, ne_top hxL, ne_top hxR, hp]
  exact seat_holds hroot hc₃ hp₃ (by simp [e₃]) (by simp [e₃, e₂]) hL₃ hR₃ hn hx

/-- The greatest node of the left subtree takes the place of the item. -/
theorem replace_greatest {s : Pointers ι} {c : Path ι} {x a : ι} {l r R : BinaryTree ι}
    (hs : Holds s (plug c (node x (node a l r) R))) :
    ∃ s', balancedBTreeReplace s x (some (greatest a r)) = some s' ∧
      Holds s' (plug c (node (greatest a r) (node a l r).dropGreatest R)) := by
  obtain ⟨hroot, hc, hp, hl, hr, hL, hR⟩ := hs.plug
  obtain ⟨hnc, hnx, hd⟩ := nodup_plug.mp hs.nodup
  obtain ⟨hnL, hnR, hxL, hxR, hLR⟩ := nodup_node.mp hnx
  have hgx : greatest a r ≠ x := fun e ↦ hxL (e ▸ greatest_mem a l r)
  obtain ⟨hn, hx⟩ := nodup_plug_join (t := node (greatest a r) (node a l r).dropGreatest R)
    (by rw [inorder_dropGreatest a l r, inorder_node]; simp) hs.nodup
  have hgR : greatest a r ∉ R.inorder := hLR _ (greatest_mem a l r)
  have hgc : greatest a r ∉ before c ++ after c := hd _ (by
    rw [inorder_node, List.mem_append]; exact .inl (greatest_mem a l r))
  cases r with
  | nil =>
      -- the left child itself keeps its left subtree
      obtain ⟨hap, hal, -, hla, -⟩ := hL
      simp only [greatest, dropGreatest_nil_right, top_node] at *
      obtain ⟨-, -, hal', -⟩ := nodup_node.mp hnL
      let h := (s.setRight a R.top).reparent R.top (some a)
      have hcR : LinkedPath h c (some x) := hc.congr fun z hz ↦ by
        have hza : z ≠ a := fun e ↦ hgc (e ▸ hz)
        have hzR : some z ≠ R.top := ne_top fun e ↦ hd z (by simp [e]) hz
        simp [h, hza, hzR]
      have hlR : Linked h (some a) l := hla.congr fun z hz ↦ by
        have hza : z ≠ a := fun e ↦ hal' (e ▸ hz)
        have hzR : some z ≠ R.top := ne_top (hLR z (by simp [hz]))
        simp [h, hza, hzR]
      refine ⟨_, ?_, seat_holds (h := h) hroot hcR (by simp [h, ne_top hxR, hp]) (by simp [h, hal])
        (by simp [h]) hlR (hR.hangRight hnR hgR) hn hx⟩
      have haR : some a ≠ R.top := ne_top hgR
      simp [balancedBTreeReplace, hgx, hap, hl, hr, Ne.symm haR, h, ne_top hxR]
  | node y b r =>
      obtain ⟨-, m, hgl, -, hsub, hgw⟩ := hL.greatest
      obtain ⟨w, hw, hwp, hwr⟩ := hgw (by simp)
      have hd' := hL.dropGreatest hnL hwp
      simp only [greatest] at *
      have hwL : w ∈ (node a l (node y b r)).inorder := by
        rw [inorder_dropGreatest]; exact List.mem_append_left _ hw
      have hwl : s.left w ≠ some (greatest y r) := hL.left_ne_right hnL hwL hwr
      have hwx : w ≠ x := fun e ↦ hxL (e ▸ hwL)
      have hin : ∀ z ∈ m.inorder, z ∈ (node a l (node y b r)).inorder := fun z hz ↦ by
        rw [inorder_dropGreatest]; exact List.mem_append_left _ (hsub z hz)
      have hxm : some x ≠ m.top := ne_top fun e ↦ hxL (hin x e)
      let h := (s.setRight w m.top).reparent m.top (some w)
      have hdrop : Linked h (some x) (node a l (node y b r)).dropGreatest := by
        rwa [hgl] at hd'
      have hcR : LinkedPath h c (some x) := hc.congr fun z hz ↦ by
        have hzL : z ∉ (node a l (node y b r)).inorder := fun e ↦
          hd z (by rw [inorder_node, List.mem_append]; exact .inl e) hz
        have hzw : z ≠ w := fun e ↦ hzL (e ▸ hwL)
        have hzm : some z ≠ m.top := ne_top fun e ↦ hzL (hin z e)
        simp [h, hzw, hzm]
      have hRh : Linked h (some x) R := hR.congr fun z hz ↦ by
        have hzL : z ∉ (node a l (node y b r)).inorder := fun e ↦ hLR z e hz
        have hzw : z ≠ w := fun e ↦ hzL (e ▸ hwL)
        have hzm : some z ≠ m.top := ne_top fun e ↦ hzL (hin z e)
        simp [h, hzw, hzm]
      refine ⟨_, ?_, hang_seat_holds (h := h) hroot hcR (by simp [h, hxm, hp]) (by simp [h, hl])
        (by simp [h, Ne.symm hwx, hr]) hdrop hRh hn hx⟩
      simp [balancedBTreeReplace, hgx, hwp, hwx, hwl, hwr, hgl, h]

/-- The least node of the right subtree takes the place of the item. -/
theorem replace_least {s : Pointers ι} {c : Path ι} {x a : ι} {l r L : BinaryTree ι}
    (hs : Holds s (plug c (node x L (node a l r)))) :
    ∃ s', balancedBTreeReplace s x (some (least a l)) = some s' ∧
      Holds s' (plug c (node (least a l) L (node a l r).dropLeast)) := by
  obtain ⟨hroot, hc, hp, hl, hr, hL, hR⟩ := hs.plug
  obtain ⟨hnc, hnx, hd⟩ := nodup_plug.mp hs.nodup
  obtain ⟨hnL, hnR, hxL, hxR, hLR⟩ := nodup_node.mp hnx
  have hgx : least a l ≠ x := fun e ↦ hxR (e ▸ least_mem a l r)
  obtain ⟨hn, hx⟩ := nodup_plug_join (t := node (least a l) L (node a l r).dropLeast)
    (by rw [inorder_dropLeast a l r, inorder_node]) hs.nodup
  have hgL : least a l ∉ L.inorder := fun e ↦ hLR _ e (least_mem a l r)
  have hgc : least a l ∉ before c ++ after c := hd _ (by
    rw [inorder_node, List.mem_append, List.mem_cons]; exact .inr (.inr (least_mem a l r)))
  cases l with
  | nil =>
      -- the right child itself keeps its right subtree
      obtain ⟨hap, -, har, -, hra⟩ := hR
      simp only [least, dropLeast, top_node] at *
      obtain ⟨-, -, -, har', -⟩ := nodup_node.mp hnR
      let h := (s.setLeft a L.top).reparent L.top (some a)
      have hcL : LinkedPath h c (some x) := hc.congr fun z hz ↦ by
        have hza : z ≠ a := fun e ↦ hgc (e ▸ hz)
        have hzL : some z ≠ L.top := ne_top fun e ↦ hd z (by simp [e]) hz
        simp [h, hza, hzL]
      have hrL : Linked h (some a) r := hra.congr fun z hz ↦ by
        have hza : z ≠ a := fun e ↦ har' (e ▸ hz)
        have hzL : some z ≠ L.top := ne_top fun e ↦ hLR z e (by simp [hz])
        simp [h, hza, hzL]
      refine ⟨_, ?_, seat_holds (h := h) hroot hcL (by simp [h, ne_top hxL, hp]) (by simp [h])
        (by simp [h, har]) (hL.hangLeft hnL hgL) hrL hn hx⟩
      simp [balancedBTreeReplace, hgx, hap, hl, hr, h, ne_top hxL]
  | node y b r' =>
      obtain ⟨-, m, hgr, -, hsub, hgw⟩ := hR.least
      obtain ⟨w, hw, hwp, hwl⟩ := hgw (by simp)
      have hd' := hR.dropLeast hnR hwp
      simp only [least] at *
      have hwR : w ∈ (node a (node y b r') r).inorder := by
        rw [inorder_dropLeast]; exact List.mem_cons_of_mem _ hw
      have hwx : w ≠ x := fun e ↦ hxR (e ▸ hwR)
      have hin : ∀ z ∈ m.inorder, z ∈ (node a (node y b r') r).inorder := fun z hz ↦ by
        rw [inorder_dropLeast]; exact List.mem_cons_of_mem _ (hsub z hz)
      have hxm : some x ≠ m.top := ne_top fun e ↦ hxR (hin x e)
      let h := (s.setLeft w m.top).reparent m.top (some w)
      have hdrop : Linked h (some x) (node a (node y b r') r).dropLeast := by
        rwa [hgr] at hd'
      have hcL : LinkedPath h c (some x) := hc.congr fun z hz ↦ by
        have hzR : z ∉ (node a (node y b r') r).inorder := fun e ↦
          hd z (by rw [inorder_node, List.mem_append, List.mem_cons]; exact .inr (.inr e)) hz
        have hzw : z ≠ w := fun e ↦ hzR (e ▸ hwR)
        have hzm : some z ≠ m.top := ne_top fun e ↦ hzR (hin z e)
        simp [h, hzw, hzm]
      have hLh : Linked h (some x) L := hL.congr fun z hz ↦ by
        have hzR : z ∉ (node a (node y b r') r).inorder := hLR z hz
        have hzw : z ≠ w := fun e ↦ hzR (e ▸ hwR)
        have hzm : some z ≠ m.top := ne_top fun e ↦ hzR (hin z e)
        simp [h, hzw, hzm]
      have htop : (node a (node y b r') r).dropLeast.top = some a := by simp [dropLeast]
      refine ⟨_, ?_, hang_seat_holds (h := h) hroot hcL (by simp [h, hxm, hp])
        (by simp [h, Ne.symm hwx, hl]) (by simp [h, hr, htop]) hLh hdrop hn hx⟩
      simp [balancedBTreeReplace, hgx, hwp, hwx, hwl, hgr, h]

/-- With no subtree, the item is only unlinked. -/
theorem replace_none {s : Pointers ι} {c : Path ι} {x : ι}
    (hs : Holds s (plug c (node x nil nil))) :
    ∃ s', balancedBTreeReplace s x none = some s' ∧ Holds s' (plug c nil) := by
  obtain ⟨hroot, hc, hp, -⟩ := hs.plug
  obtain ⟨-, -, hd⟩ := nodup_plug.mp hs.nodup
  obtain ⟨hn, hx⟩ := nodup_plug_join (t := nil) rfl hs.nodup
  refine ⟨_, rfl, ?_⟩
  have key := relink_holds hroot hc (linked_nil _ _) hn (hd x (by simp))
  rw [hp]
  refine key.congr rfl fun z hz ↦ ?_
  have hzx : z ≠ x := fun e ↦ hx (e ▸ hz)
  simp [Pointers.modify, hzx]

/-- `balancedBTreeReplace`, called as `balancedBTreeRemove` calls it, puts the
two subtrees joined where the item was. -/
theorem replace_holds {s : Pointers ι} {c : Path ι} {x : ι} {l r : BinaryTree ι}
    (hs : Holds s (plug c (node x l r))) :
    ∃ s', balancedBTreeReplace s x (replacement l r) = some s' ∧ Holds s' (plug c (join l r)) := by
  by_cases hw : r.numNodes < l.numNodes
  · cases l with
    | nil => simp at hw
    | node a m t => simpa only [join, replacement, if_pos hw] using replace_greatest hs
  · cases r with
    | nil =>
        obtain rfl : l = nil := by cases l with
          | nil => rfl
          | node => simp at hw
        exact replace_none hs
    | node a m t => simpa only [join, replacement, if_neg hw] using replace_least hs

end Replace

/-! ## Rebalancing -/

section Rebalance

variable [DecidableEq ι]

/-- How far `balancedBTreeRebalance` can go down: a turn of the loop lowers the
difference of the weights by two, and the subtrees of a node whose loop is done
have about half of its items. -/
def rebalanceFuel : BinaryTree ι → ℕ
  | .nil => 0
  | .node _ l r => (l.numNodes - r.numNodes + (r.numNodes - l.numNodes)) / 2 +
      (l.numNodes + r.numNodes + 1) / 2 + 2

omit [DecidableEq ι] in
theorem rebalanceFuel_le (t : BinaryTree ι) : rebalanceFuel t ≤ t.numNodes + 1 := by
  cases t with
  | nil => simp [rebalanceFuel]
  | node x l r => simp only [rebalanceFuel, numNodes]; omega

/-- A shift puts a held subtree in the place of another. -/
theorem shift_holds {s : Pointers ι} {c : Path ι} {x g : ι} {l r l' r' : BinaryTree ι}
    {h : Links ι} (hs : Holds s (plug c (node x l r)))
    (hh : Linked h (holeParent c) (node g l' r'))
    (hi : (node g l' r').inorder = (node x l r).inorder)
    (ha : ∀ z ∉ (node x l r).inorder, s.toLinks.AgreeOn h [z]) :
    Holds (relink { s with toLinks := h } (h.parent g) (some x) (some g))
      (plug c (node g l' r')) := by
  obtain ⟨hroot, hc, -⟩ := hs.plug
  obtain ⟨-, -, hd⟩ := nodup_plug.mp hs.nodup
  have hn : (plug c (node g l' r')).inorder.Nodup := by
    rw [inorder_plug, hi, ← inorder_plug]; exact hs.nodup
  have hc' : LinkedPath h c (some x) := hc.congr fun z hz ↦
    ha z (fun e ↦ hd z e hz) z (by simp)
  rw [hh.1]
  exact relink_holds (s := { s with toLinks := h }) hroot hc' hh hn (hd x (by simp))

/-- `balancedBTreeRebalance` keeps the in-order list below every path, and the
weights of the two sides of every node differ by at most one when it is done. -/
theorem rebalance_holds (fuel : ℕ) {s : Pointers ι} {c : Path ι} {t : BinaryTree ι}
    (hs : Holds s (plug c t)) (hf : rebalanceFuel t ≤ fuel) :
    ∃ s' t', balancedBTreeRebalance fuel s t.top = some s' ∧ Holds s' (plug c t') ∧
      t'.inorder = t.inorder ∧ t'.Balanced := by
  induction fuel generalizing s c t with
  | zero =>
      cases t with
      | nil => exact ⟨s, nil, rfl, hs, rfl, trivial⟩
      | node x l r => simp [rebalanceFuel] at hf
  | succ fuel ih =>
      cases t with
      | nil => exact ⟨s, nil, rfl, hs, rfl, trivial⟩
      | node x l r =>
          obtain ⟨-, -, ht⟩ := hs.plug
          obtain ⟨-, hl, hr, hL, hR⟩ := id ht
          simp only [rebalanceFuel] at hf
          have el := weight_eq hL fuel (by omega)
          have er := weight_eq hR fuel (by omega)
          rw [← hl] at el
          rw [← hr] at er
          simp only [top_node, balancedBTreeRebalance, el, er, Option.bind_eq_bind,
            Option.bind_some]
          by_cases hgt : r.numNodes + 1 < l.numNodes
          · -- too much on the left
            cases l with
            | nil => simp at hgt
            | node a m t =>
                have hn := (nodup_plug.mp hs.nodup).2.1
                obtain ⟨h, he, hh, ha⟩ := shiftRight_eq ht hn fuel (by omega)
                have hi : (node (greatest a t) (node a m t).dropGreatest (node x nil r)).inorder =
                    (node x (node a m t) r).inorder := by
                  rw [inorder_node, inorder_node x (node a m t), inorder_dropGreatest a m t]
                  simp
                have hw := numNodes_dropGreatest a m t
                obtain ⟨s', t', he', hs', hi', hb'⟩ := ih (shift_holds hs hh hi ha)
                  (by simp only [rebalanceFuel, numNodes] at hw hgt hf ⊢; omega)
                refine ⟨s', t', ?_, hs', hi'.trans hi, hb'⟩
                rw [if_pos (by omega), if_pos (by omega), he]
                exact he'
          · by_cases hlt : l.numNodes + 1 < r.numNodes
            · -- too much on the right
              cases r with
              | nil => simp at hlt
              | node a m t =>
                  have hn := (nodup_plug.mp hs.nodup).2.1
                  obtain ⟨h, he, hh, ha⟩ := shiftLeft_eq ht hn fuel (by omega)
                  have hi : (node (least a m) (node x l nil) (node a m t).dropLeast).inorder =
                      (node x l (node a m t)).inorder := by
                    rw [inorder_node, inorder_node x l (node a m t), inorder_dropLeast a m t]
                    simp
                  have hw := numNodes_dropLeast a m t
                  obtain ⟨s', t', he', hs', hi', hb'⟩ := ih (shift_holds hs hh hi ha)
                    (by simp only [rebalanceFuel, numNodes] at hw hlt hf ⊢; omega)
                  refine ⟨s', t', ?_, hs', hi'.trans hi, hb'⟩
                  rw [if_pos (by omega), if_neg (by omega), he]
                  exact he'
            · rw [if_neg (by omega), hl]
              obtain ⟨s₁, l', e₁, hs₁, hil, hbl⟩ := ih (c := .left x r :: c) (t := l) hs
                (Nat.le_trans (rebalanceFuel_le l) (by omega))
              have hr₁ : s₁.right x = r.top := (hs₁.plug (c := c)).2.2.2.2.1
              obtain ⟨s₂, r', e₂, hs₂, hir, hbr⟩ := ih (c := .right l' x :: c) (t := r) hs₁
                (Nat.le_trans (rebalanceFuel_le r) (by omega))
              refine ⟨s₂, node x l' r', by rw [e₁]; simp only [Option.bind_some, hr₁, e₂], hs₂,
                by simp [hil, hir], ?_⟩
              have hwl : l'.numNodes = l.numNodes := by
                rw [← length_inorder, hil, length_inorder]
              have hwr : r'.numNodes = r.numNodes := by
                rw [← length_inorder, hir, length_inorder]
              exact ⟨by omega, by omega, hbl, hbr⟩

/-- Rebalancing a whole tree from its root ends, with the items in the order they
were in and at every node about as many of them on either side. -/
theorem rebalance_root {s : Pointers ι} {t : BinaryTree ι} (hs : Holds s t) (fuel : ℕ)
    (hf : t.numNodes < fuel) :
    ∃ s' t', balancedBTreeRebalance fuel s s.root = some s' ∧ s'.root = t'.top ∧
      Linked s'.toLinks none t' ∧ t'.inorder = t.inorder ∧ t'.Balanced ∧
      t'.height ≤ Nat.clog 2 (t.numNodes + 1) := by
  obtain ⟨s', t', he, hs', hi, hb⟩ := rebalance_holds fuel (c := []) (t := t) hs
    ((rebalanceFuel_le t).trans hf)
  have hw : t'.numNodes = t.numNodes := by rw [← length_inorder, hi, length_inorder]
  refine ⟨s', t', ?_, hs'.root_eq, hs'.linked, hi, hb, ?_⟩
  · rw [hs.root_eq, he]
  · rw [← hw]
    exact hb.height_le

/-- Three items in a chain to the right. -/
def chain : Pointers (Fin 3) where
  left := fun _ ↦ none
  right := fun x ↦ if x = 0 then some 1 else if x = 1 then some 2 else none
  parent := fun x ↦ if x = 2 then some 1 else if x = 1 then some 0 else none
  root := some 0

theorem rebalance_root_chain :
    Holds chain (node 0 nil (node 1 nil (node 2 nil nil))) ∧
    ∃ s' t', balancedBTreeRebalance 4 chain chain.root = some s' ∧ s'.root = t'.top ∧
      Linked s'.toLinks none t' ∧ t'.inorder = [0, 1, 2] ∧ t'.Balanced ∧
      t'.height ≤ Nat.clog 2 4 := by
  have h : Holds chain (node 0 nil (node 1 nil (node 2 nil nil))) :=
    ⟨rfl, by simp [Linked, chain], by decide⟩
  exact ⟨h, rebalance_root h 4 (by decide)⟩

end Rebalance

end Beirdobot.BTree
