import Beirdobot.BTree.Confined
import Beirdobot.BTree.Runs

/-!
# Destroying a tree

Transcriptions of `BalancedBTreePrune` and `BalancedBTreeDestroy`.  An item that was freed holds
whatever others write there, so that a function that succeeds whatever it is reads none of it.
-/

namespace Beirdobot.BTree

open Library BinaryTree

variable {ι K : Type}

/-- What comes to be in the memory of items that are freed. -/
structure Junk (ι K : Type) extends Links ι where
  key : ι → K
  owner : ι → Option ℕ

section Functions

variable [DecidableEq ι] (junk : Junk ι K)

/-- `free( item )` -/
def BalancedBTree.free (s : BalancedBTree ι K) (item : ι) : BalancedBTree ι K :=
  { s with
    left := Function.update s.left item (junk.left item)
    right := Function.update s.right item (junk.right item)
    parent := Function.update s.parent item (junk.parent item)
    key := Function.update s.key item (junk.key item)
    owner := Function.update s.owner item (junk.owner item) }

/-- `BalancedBTreePrune` of an item of this tree, with the items that it frees. -/
def balancedBTreePrune : ℕ → BalancedBTree ι K → Option ι → Option (BalancedBTree ι K × List ι)
  | _, s, none => some (s, [])
  | 0, _, some _ => none
  | fuel + 1, s, some item => do
      let (s, left) ← balancedBTreePrune fuel s (s.left item)
      let (s, right) ← balancedBTreePrune fuel s (s.right item)
      let s ← balancedBTreeRemove fuel s (some item) .locked false
      some (s.free junk item, left ++ right ++ [item])

/-- `BalancedBTreeDestroy`, with the items that it frees before the tree itself. -/
def balancedBTreeDestroy (fuel : ℕ) (s : BalancedBTree ι K) :
    Option (BalancedBTree ι K × List ι) := do
  let (s, freed) ← balancedBTreePrune junk fuel s s.root
  some (balancedBTreeUnlock s, freed)

end Functions

/-! ## Children before their parents -/

/-- The items of a tree, each after those below it. -/
def postorder : BinaryTree ι → List ι
  | .nil => []
  | .node x l r => postorder l ++ postorder r ++ [x]

theorem postorder_perm (t : BinaryTree ι) : (postorder t).Perm t.inorder := by
  induction t with
  | nil => exact .nil
  | node x l r ihl ihr =>
      rw [postorder, inorder_node, List.append_assoc]
      exact ihl.append ((List.perm_append_singleton x _).trans (ihr.cons x))

theorem postorder_parent {h : Links ι} {q : Option ι} {t : BinaryTree ι} (ht : Linked h q t)
    {x : ι} (hx : x ∈ t.inorder) :
    h.parent x = q ∨ ∃ y, h.parent x = some y ∧ [x, y].Sublist (postorder t) := by
  induction t generalizing q with
  | nil => cases hx
  | node y l r ihl ihr =>
      obtain ⟨hp, -, -, hl, hr⟩ := ht
      have hlast : ∀ {t : BinaryTree ι}, x ∈ t.inorder → [x, y].Sublist (postorder t ++ [y]) :=
        fun {t} hmem ↦
          (List.singleton_sublist.mpr ((postorder_perm t).mem_iff.mpr hmem)).append (.refl [y])
      rw [inorder_node, List.mem_append, List.mem_cons] at hx
      rcases hx with hx | rfl | hx
      · refine .inr ?_
        rcases ihl hl hx with hparent | ⟨z, hparent, hsub⟩
        · refine ⟨y, hparent, (hlast hx).trans ?_⟩
          rw [postorder, List.append_assoc]
          exact (List.Sublist.refl _).append (List.sublist_append_right ..)
        · exact ⟨z, hparent, hsub.trans (by rw [postorder, List.append_assoc]; simp)⟩
      · exact .inl hp
      · refine .inr ?_
        rcases ihr hr hx with hparent | ⟨z, hparent, hsub⟩
        · refine ⟨y, hparent, (hlast hx).trans ?_⟩
          rw [postorder, List.append_assoc]
          exact List.sublist_append_right ..
        · exact ⟨z, hparent, hsub.trans (by rw [postorder, List.append_assoc]; simp)⟩

/-! ## What is done to the tree and to other items -/

/-- Nothing but the items of `l` is written to. -/
structure Untouched (l : List ι) (s s' : BalancedBTree ι K) : Prop where
  links : ∀ z ∉ l, s.toLinks.AgreeOn s'.toLinks [z]
  key : ∀ z ∉ l, s'.key z = s.key z
  owner : ∀ z ∉ l, s'.owner z = s.owner z

theorem Untouched.refl (l : List ι) (s : BalancedBTree ι K) : Untouched l s s :=
  ⟨fun _ _ _ _ ↦ ⟨rfl, rfl, rfl⟩, fun _ _ ↦ rfl, fun _ _ ↦ rfl⟩

namespace Untouched

variable {l l' : List ι} {s s' s'' : BalancedBTree ι K}

theorem trans (h : Untouched l s s') (h' : Untouched l s' s'') : Untouched l s s'' := by
  refine ⟨fun z hz x hx ↦ ?_, fun z hz ↦ ?_, fun z hz ↦ ?_⟩
  · obtain ⟨hleft, hright, hparent⟩ := h.links z hz x hx
    obtain ⟨hleft', hright', hparent'⟩ := h'.links z hz x hx
    exact ⟨hleft'.trans hleft, hright'.trans hright, hparent'.trans hparent⟩
  · exact (h'.key z hz).trans (h.key z hz)
  · exact (h'.owner z hz).trans (h.owner z hz)

theorem mono (h : Untouched l s s') (hl : ∀ x ∈ l, x ∈ l') : Untouched l' s s' :=
  ⟨fun z hz ↦ h.links z fun hmem ↦ hz (hl z hmem), fun z hz ↦ h.key z fun hmem ↦ hz (hl z hmem),
    fun z hz ↦ h.owner z fun hmem ↦ hz (hl z hmem)⟩

variable [DecidableEq ι]

theorem free (junk : Junk ι K) (s : BalancedBTree ι K) (x : ι) :
    Untouched [x] s (s.free junk x) := by
  have hne : ∀ z ∉ [x], z ≠ x := fun z hz hzx ↦ hz (List.mem_singleton.mpr hzx)
  refine ⟨fun z hz y hy ↦ ?_, fun z hz ↦ ?_, fun z hz ↦ ?_⟩
  · rw [List.mem_singleton.mp hy]
    exact ⟨Function.update_of_ne (hne z hz) .., Function.update_of_ne (hne z hz) ..,
      Function.update_of_ne (hne z hz) ..⟩
  · exact Function.update_of_ne (hne z hz) ..
  · exact Function.update_of_ne (hne z hz) ..

end Untouched

section Prune

variable [DecidableEq ι] {s : BalancedBTree ι K} {c : Path ι} {x : ι}

theorem holds_free (junk : Junk ι K) {t : BinaryTree ι} (hs : Holds s.toPointers t)
    (hx : x ∉ t.inorder) : Holds (s.free junk x).toPointers t := by
  refine ⟨hs.root_eq, hs.linked.congr fun y hy ↦ ?_, hs.nodup⟩
  have hyx : y ≠ x := fun heq ↦ hx (heq ▸ hy)
  exact ⟨Function.update_of_ne hyx .., Function.update_of_ne hyx ..,
    Function.update_of_ne hyx ..⟩

/-- An item without children is removed. -/
theorem remove_leaf (hs : Holds s.toPointers (plug c (node x nil nil)))
    (howner : s.owner x = some s.self) (fuel : ℕ) :
    ∃ p, balancedBTreeRemove fuel s (some x) .locked false = some { s with
        toPointers := p
        owner := Function.update s.owner x none } ∧
      Holds p (plug c nil) ∧
      Untouched (plug c (node x nil nil)).inorder s { s with
        toPointers := p
        owner := Function.update s.owner x none } := by
  obtain ⟨-, -, -, hl, hr, -, -⟩ := hs.plug
  obtain ⟨p, hrep, hp⟩ := replace_none hs
  have he : balancedBTreeRemove fuel s (some x) .locked false = some { s with
      toPointers := p
      owner := Function.update s.owner x none } := by
    have hfind : findLeastLoop s.toLinks fuel none none = some none := by
      cases fuel <;> rfl
    have hweight : balancedBTreeWeight s.toLinks fuel none = some 0 := by
      cases fuel <;> rfl
    rw [top] at hl hr
    simp only [balancedBTreeRemove, howner, ne_eq, not_true_eq_false, if_false, enter,
      Option.bind_eq_bind, Option.bind_some, hl, hr, hweight, lt_irrefl, balancedBTreeFindLeast,
      hfind, hrep, rebalanceIf, Bool.false_eq_true, leave]
  have hx : x ∈ (plug c (node x nil nil)).inorder := by
    rw [inorder_plug]
    simp
  have hconfined := remove_confined hs.closedTree hx he
  refine ⟨p, he, hp, fun z hz ↦ hconfined.links.agree z hz, fun _ _ ↦ rfl, fun z hz ↦ ?_⟩
  apply Function.update_of_ne
  rintro rfl
  exact hz hx

/-- The items below a hole are freed, and the hole is empty. -/
theorem prune_holds (junk : Junk ι K) {t : BinaryTree ι} (hs : Holds s.toPointers (plug c t))
    (howner : ∀ x ∈ t.inorder, s.owner x = some s.self) {fuel : ℕ} (hf : t.numNodes ≤ fuel) :
    ∃ s', balancedBTreePrune junk fuel s t.top = some (s', postorder t) ∧
      Holds s'.toPointers (plug c nil) ∧ s'.self = s.self ∧ s'.mutex = s.mutex ∧
      (∀ x ∉ t.inorder, s'.owner x = s.owner x) ∧ Untouched (plug c t).inorder s s' := by
  induction t generalizing s c fuel with
  | nil =>
      refine ⟨s, ?_, hs, rfl, rfl, fun _ _ ↦ rfl, .refl _ _⟩
      cases fuel <;> rfl
  | node x l r ihl ihr =>
      rw [numNodes] at hf
      cases fuel with
      | zero => omega
      | succ fuel =>
          obtain ⟨-, -, -, hleft, -, -, -⟩ := hs.plug
          obtain ⟨s₁, hprune₁, hs₁, hself₁, hmutex₁, howner₁, huntouched₁⟩ :=
            ihl (c := .left x r :: c) hs (fun y hy ↦ howner y (by simp [hy]))
              (show l.numNodes ≤ fuel by omega)
          obtain ⟨hxl, hxr, hdisjoint⟩ : x ∉ l.inorder ∧ x ∉ r.inorder ∧
              ∀ y ∈ r.inorder, y ∉ l.inorder := by
            obtain ⟨-, hnodup, -⟩ := nodup_plug.mp hs.nodup
            rw [inorder_node, List.nodup_append, List.nodup_cons] at hnodup
            obtain ⟨-, ⟨hxr, -⟩, hne⟩ := hnodup
            exact ⟨fun hx ↦ hne x hx x List.mem_cons_self rfl, hxr,
              fun y hy hyl ↦ hne y hyl y (List.mem_cons_of_mem _ hy) rfl⟩
          have hs₁' : Holds s₁.toPointers (plug c (node x nil r)) := hs₁
          obtain ⟨-, -, -, -, hright, -, -⟩ := hs₁'.plug
          obtain ⟨s₂, hprune₂, hs₂, hself₂, hmutex₂, howner₂, huntouched₂⟩ :=
            ihr (c := .right nil x :: c) hs₁ (fun y hy ↦ by
              rw [howner₁ y (hdisjoint y hy), hself₁]
              exact howner y (by simp [hy])) (show r.numNodes ≤ fuel by omega)
          have hx₂ : s₂.owner x = some s₂.self := by
            rw [howner₂ x hxr, howner₁ x hxl, hself₂, hself₁]
            exact howner x (by simp)
          obtain ⟨p, hremove, hp, huntouched₃⟩ := remove_leaf (c := c) hs₂ hx₂ fuel
          have hxc : x ∉ (plug c (nil : BinaryTree ι)).inorder := by
            obtain ⟨-, -, hd⟩ := nodup_plug.mp hs.nodup
            rw [inorder_plug, inorder_nil, List.append_nil]
            exact hd x (by simp)
          let s₃ : BalancedBTree ι K := { s₂ with
            toPointers := p
            owner := Function.update s₂.owner x none }
          refine ⟨s₃.free junk x, ?_, holds_free (s := s₃) junk hp hxc, hself₂.trans hself₁,
            hmutex₂.trans hmutex₁, fun y hy ↦ ?_, ?_⟩
          · rw [top, balancedBTreePrune, hleft, hprune₁]
            simp only [Option.bind_eq_bind, Option.bind_some]
            rw [hright, hprune₂]
            simp only [Option.bind_some, hremove]
            rfl
          · rw [inorder_node, List.mem_append, List.mem_cons, not_or, not_or] at hy
            obtain ⟨hyl, hyx, hyr⟩ := hy
            exact (Function.update_of_ne hyx ..).trans ((Function.update_of_ne hyx ..).trans
              ((howner₂ y hyr).trans (howner₁ y hyl)))
          · have hsub : ∀ t : BinaryTree ι, (∀ y ∈ t.inorder, y ∈ (node x l r).inorder) →
                ∀ y ∈ (plug c t).inorder, y ∈ (plug c (node x l r)).inorder :=
              fun t ht y hy ↦ mem_inorder_plug.mpr ((mem_inorder_plug.mp hy).imp_left (ht y))
            refine huntouched₁.trans ((huntouched₂.mono (hsub (node x nil r) ?_)).trans
              ((huntouched₃.mono (hsub (node x nil nil) ?_)).trans
                ((Untouched.free junk s₃ x).mono ?_)))
            · exact fun y hy ↦ List.mem_append_right _ hy
            · intro y hy
              rw [List.mem_singleton.mp hy]
              exact List.mem_append_right _ List.mem_cons_self
            · intro y hy
              rw [List.mem_singleton.mp hy, mem_inorder_plug]
              exact .inl (List.mem_append_right _ List.mem_cons_self)

end Prune

end Beirdobot.BTree
