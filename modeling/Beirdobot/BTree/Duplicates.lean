import Beirdobot.BTree.Refused
import Beirdobot.BTree.Runs
import Beirdobot.BTree.Stores

/-!
# Items with a key that is in the tree

`BalancedBTreeAdd` looks for the parent of a new item past the item with the same
key, so it compares the two only when the walk ends at that item: the duplicate is
refused when the equal item has no right child, and else it is linked below another
one.  A refused item keeps its `btree` and `parent` fields, and its removal writes
through them.
-/

namespace Beirdobot.BTree.Duplicates

open Library BinaryTree

variable {ι K : Type}

/-- A tree, the items that are to be on it, and those that were refused and not
removed since. -/
structure State (ι K : Type) extends BTree.State ι K where
  rejected : List ι

variable [DecidableEq ι] [DecidableEq K]

/-- What a call is to do to the items that are on the tree and to the refused ones:
an item whose key is in the tree is refused. -/
def account (s : State ι K) : Op ι K → List ι × List ι
  | .add item key _ _ =>
      if ∃ y ∈ s.linked, s.tree.key y = key
      then (s.linked, item :: s.rejected.filter (· ≠ item))
      else (item :: s.linked, s.rejected.filter (· ≠ item))
  | .remove item _ _ => (s.linked.erase item, s.rejected.filter (· ≠ item))
  | _ => (s.linked, s.rejected)

/-- One call, with the `fuel` for its walks. -/
def call (keyCompare : K → K → ℤ) (fuel : ℕ) (s : State ι K) (op : Op ι K) :
    Option (State ι K) := do
  let called ← BTree.call keyCompare fuel s.toState op
  some { tree := called.tree, linked := (account s op).1, rejected := (account s op).2 }

/-- An item that is on the tree is not added again. -/
def Admissible (s : State ι K) : Op ι K → Prop
  | .add item _ _ _ => item ∉ s.linked
  | _ => True

instance (s : State ι K) : (op : Op ι K) → Decidable (Admissible s op)
  | .add item _ _ _ => inferInstanceAs (Decidable (item ∉ s.linked))
  | .remove .. | .addNull .. | .removeNull .. | .lock | .unlock => inferInstanceAs (Decidable True)

/-- The runs of calls on a tree that was just created, when no item says yet that it
is on it. -/
def system (ι K : Type) [DecidableEq ι] [DecidableEq K] (keyCompare : K → K → ℤ) :
    System (State ι K) (ℕ × Op ι K) where
  init s := s.linked = [] ∧ s.rejected = [] ∧ ∃ self items key owner,
    s.tree = balancedBTreeCreate self items key owner ∧ ∀ x, owner x ≠ some self
  step s e :=
    if Admissible s e.2 ∧ s.linked.length + 2 ≤ e.1 then call keyCompare e.1 s e.2 else none

omit [DecidableEq ι] [DecidableEq K] in
/-- The tree holds the items that are to be on it, in the order of their keys. -/
def SearchTree (keyCompare : K → K → ℤ) (s : State ι K) : Prop :=
  ∃ t, Holds s.tree.toPointers t ∧ Increasing keyCompare s.tree.key t.inorder ∧
    t.inorder.Perm s.linked

/-- An item is only added when the item with its key has no right child.  A refused
item is only removed when the item its parent field points to is not on the tree, or
has no right child. -/
def Careful (s : State ι K) (e : ℕ × Op ι K) : Prop :=
  match e.2 with
  | .add _ key _ _ => ∀ y ∈ s.linked, s.tree.key y = key → s.tree.right y = none
  | .remove item _ _ => item ∈ s.rejected →
      ∀ y ∈ s.tree.parent item, y ∈ s.linked → s.tree.right y = none
  | _ => True

instance (s : State ι K) : (e : ℕ × Op ι K) → Decidable (Careful s e)
  | (_, .add _ key _ _) =>
      inferInstanceAs (Decidable (∀ y ∈ s.linked, s.tree.key y = key → s.tree.right y = none))
  | (_, .remove item _ _) => inferInstanceAs (Decidable (item ∈ s.rejected →
      ∀ y ∈ s.tree.parent item, y ∈ s.linked → s.tree.right y = none))
  | (_, .addNull ..) | (_, .removeNull ..) | (_, .lock) | (_, .unlock) =>
      inferInstanceAs (Decidable True)

/-! ## Where a duplicate is put -/

section Search

variable {keyCompare : K → K → ℤ} (hcmp : StrictTotal keyCompare) {s : BalancedBTree ι K}

omit [DecidableEq ι] [DecidableEq K] in
include hcmp in
/-- The walk ends at the item with the same key when that has no right child. -/
theorem findParentLoop_equal {q : Option ι} {t : BinaryTree ι} (ht : Linked s.toLinks q t)
    (hs : Increasing keyCompare s.key t.inorder) {y : ι} (hy : y ∈ t.inorder)
    (hright : s.right y = none) (fuel : ℕ) (hf : t.numNodes ≤ fuel) (prev : Option ι) :
    findParentLoop keyCompare s (s.key y) fuel prev t.top = some (some y) := by
  induction t generalizing q fuel prev with
  | nil => simp at hy
  | node x l r ihl ihr =>
      obtain ⟨-, hl, hr, htl, htr⟩ := ht
      obtain ⟨hsl, hsr, hlx, hxr, -⟩ := increasing_node.mp hs
      cases fuel with
      | zero => simp at hf
      | succ fuel =>
          simp only [numNodes] at hf
          simp only [inorder_node, List.mem_append, List.mem_cons] at hy
          simp only [top_node, findParentLoop]
          rcases hy with hy | rfl | hy
          · rw [if_pos (hlx y hy), hl]
            exact ihl htl hsl hy fuel (by omega) _
          · rw [if_neg (hcmp.irrefl _), hright]
            cases fuel <;> rfl
          · have hgt : ¬ keyCompare (s.key y) (s.key x) < 0 := fun hlt ↦
              hcmp.irrefl _ (hcmp.trans _ _ _ hlt (hxr y hy))
            rw [if_neg hgt, hr]
            exact ihr htr hsr hy fuel (by omega) _

omit [DecidableEq ι] [DecidableEq K] in
include hcmp in
/-- Else it ends left below an item with a greater key. -/
theorem findParentLoop_past {t : BinaryTree ι} (ht : Linked s.toLinks none t)
    (hs : Increasing keyCompare s.key t.inorder) {y : ι} (hy : y ∈ t.inorder)
    (hright : s.right y ≠ none) (fuel : ℕ) (hf : t.numNodes ≤ fuel) :
    ∃ x r c, plug (.left x r :: c) nil = t ∧ keyCompare (s.key y) (s.key x) < 0 ∧
      findParentLoop keyCompare s (s.key y) fuel none t.top = some (some x) := by
  obtain ⟨c, hplug, he, hb, ha⟩ := findParentLoop_hole hcmp (c := []) (k := s.key y) ht hs
    (by simp [before]) (by simp [after]) fuel hf
  rw [plug_nil] at hplug
  rcases c with _ | ⟨⟨x, r⟩ | ⟨l, x⟩, c⟩
  · rw [← hplug] at hy
    simp at hy
  · exact ⟨x, r, c, hplug, ha x (by simp [after]), he⟩
  · -- no key between that of `y` and the hole: the walk would have ended at `y`
    exfalso
    have hlist : t.inorder = before c ++ l.inorder ++ x :: after c := by
      rw [← hplug, inorder_plug]
      simp [before, after]
    have hx : ¬ keyCompare (s.key y) (s.key x) < 0 := hb x (by simp [before])
    rw [hlist] at hy hs
    obtain ⟨-, htail, hcross⟩ := List.pairwise_append.mp hs
    rcases List.mem_append.mp hy with hy | hy
    · exact hx (hcross y hy x (by simp))
    · rcases List.mem_cons.mp hy with rfl | hy
      · have hpath := (linked_plug.mp (hplug ▸ ht)).1
        exact hright hpath.2.2.1
      · have hlt := ha y (by simpa [after] using hy)
        exact hcmp.irrefl _ hlt

end Search

section Add

variable {b b' : BalancedBTree ι K} {t : BinaryTree ι} {item : ι} {fuel : ℕ} {rebalance : Bool}
  {keyCompare : K → K → ℤ} (hcmp : StrictTotal keyCompare) (hb : Holds b.toPointers t)
  (hi : Increasing keyCompare b.key t.inorder) (hx : item ∉ t.inorder) {y : ι}
  (hy : y ∈ t.inorder) (hkey : b.key y = b.key item)

include hcmp hb hi hx hy hkey

omit [DecidableEq K] in
/-- Without a right child below the item with its key, the duplicate is refused. -/
theorem add_refused (hright : b.right y = none) {lock : Locked} (hf : t.numNodes + 1 ≤ fuel)
    (he : balancedBTreeAdd keyCompare fuel b (some item) lock rebalance = some b') :
    (∃ t', Holds b'.toPointers t' ∧ t'.inorder = t.inorder) ∧ Refused b' item := by
  have he := add_locked_of he
  rw [add_eq] at he
  obtain ⟨parent, hfind, he⟩ := Option.bind_eq_some_iff.mp he
  have hyx : y ≠ item := fun e ↦ hx (e ▸ hy)
  have hplaced := placed_holds hb hx
  have hparent := findParentLoop_equal hcmp hplaced.linked hi hy (by simp [placed, hyx, hright])
    fuel (by omega) none
  rw [hb.root_eq, ← hkey] at hfind
  obtain rfl : some y = parent := Option.some.inj (hparent.symm.trans hfind)
  have hzero : keyCompare (b.key item) (b.key y) = 0 := (hcmp.eq_zero _ _).mpr hkey.symm
  have hlink : linkItem keyCompare (placed b item) item (some y) =
      { placed b item with toLinks := (placed b item).toLinks.setParent item (some y) } := by
    simp [linkItem, placed, hzero]
  rw [hlink] at he
  have hset : Holds { (placed b item).toPointers with
      toLinks := (placed b item).toLinks.setParent item (some y) } t :=
    hplaced.congr rfl fun z hz ↦ by
      have hzx : z ≠ item := fun e ↦ hx (e ▸ hz)
      simp [hzx]
  obtain ⟨ht', hagree, hrest⟩ := rebalanced hset hf he
  refine ⟨ht', Refused.of_agree (b := { placed b item with
    toLinks := (placed b item).toLinks.setParent item (some y) }) ?_ (hagree item hx) ?_ ?_⟩
  · exact ⟨by simp [placed], by simp [placed], by simp [placed], by simp⟩
  · rw [hrest]
  · rw [hrest]

omit [DecidableEq K] in
/-- With one, the duplicate is linked. -/
theorem add_linked (hright : b.right y ≠ none) {lock : Locked} (hf : t.numNodes + 2 ≤ fuel)
    (he : balancedBTreeAdd keyCompare fuel b (some item) lock rebalance = some b') :
    ∃ t', Holds b'.toPointers t' ∧ item ∈ t'.inorder := by
  have he := add_locked_of he
  rw [add_eq] at he
  obtain ⟨parent, hfind, he⟩ := Option.bind_eq_some_iff.mp he
  have hyx : y ≠ item := fun e ↦ hx (e ▸ hy)
  have hplaced := placed_holds hb hx
  obtain ⟨x, r, c, rfl, hlt, hparent⟩ := findParentLoop_past hcmp hplaced.linked hi hy
    (by simpa [placed, hyx] using hright) fuel (by omega)
  rw [hb.root_eq, ← hkey] at hfind
  obtain rfl : some x = parent := Option.some.inj (hparent.symm.trans hfind)
  have hneg : keyCompare (b.key item) (b.key x) < 0 := hkey ▸ hlt
  have hlink : linkItem keyCompare (placed b item) item (some x) = { placed b item with
      toPointers := attach (placed b item).toPointers item (.left x r :: c) } := by
    have hroot : (placed b item).root = holeTop (.left x r :: c) none := hplaced.plug.1
    have hnpos : ¬ 0 < keyCompare (b.key item) (b.key x) := by omega
    have hk : (placed b item).key = b.key := rfl
    simp only [linkItem, hk, if_neg hnpos, if_pos hneg, attach, holeParent, Links.setHole, hroot,
      holeTop]
  rw [hlink] at he
  have hattach := attach_holds hplaced hx (by simp [placed]) (by simp [placed])
  have hsize : (plug (.left x r :: c) (node item nil nil)).numNodes =
      (plug (.left x r :: c) (nil : BinaryTree ι)).numNodes + 1 := by
    rw [← length_inorder, ← length_inorder, inorder_plug, inorder_plug]
    simp
    omega
  obtain ⟨⟨t', ht', hin⟩, -⟩ := rebalanced (t := plug (.left x r :: c) (node item nil nil)) hattach
    (by omega) he
  refine ⟨t', ht', ?_⟩
  rw [hin]
  exact mem_inorder_plug.mpr (.inl (by simp))

end Add

/-! ## Runs -/

/-- A call that brings no item. -/
def Bare : Op ι K → Prop
  | .add .. | .remove .. => False
  | _ => True

/-- The tree is a search tree, each refused item is as it was left, and no other item
says that it is on the tree. -/
structure Invariant (keyCompare : K → K → ℤ) (s : State ι K) (t : BinaryTree ι) : Prop where
  tree : BTree.Invariant keyCompare s.toState t
  refused : ∀ x ∈ s.rejected, x ∉ s.linked ∧ Refused s.tree x
  owned : ∀ x, s.tree.owner x = some s.tree.self → x ∈ s.linked ∨ x ∈ s.rejected

section Runs

variable {keyCompare : K → K → ℤ} {s s' : State ι K} {t : BinaryTree ι}
  {item : ι} {key : K} {fuel : ℕ} {lock : Locked} {rebalance : Bool}

omit [DecidableEq ι] [DecidableEq K] in
theorem SearchTree.mem (h : SearchTree keyCompare s) (ht : Holds s.tree.toPointers t) {x : ι} :
    x ∈ t.inorder ↔ x ∈ s.linked := by
  obtain ⟨t', ht', -, hperm⟩ := h
  obtain rfl := ht.linked.unique ht'.linked (ht.root_eq.symm.trans ht'.root_eq)
  exact hperm.mem_iff

omit [DecidableEq ι] [DecidableEq K] in
theorem Invariant.searchTree (h : Invariant keyCompare s t) : SearchTree keyCompare s :=
  ⟨t, h.tree.holds, h.tree.increasing, h.tree.perm⟩

omit [DecidableEq ι] [DecidableEq K] in
theorem Invariant.stores (h : Invariant keyCompare s t) : Stores keyCompare s.tree s.linked :=
  ⟨⟨t, h.tree.holds, h.tree.increasing, h.tree.perm⟩, h.tree.owner⟩

theorem Invariant.create (h : (system ι K keyCompare).init s) : Invariant keyCompare s nil := by
  obtain ⟨hl, hr, self, items, key, owner, ht, ho⟩ := h
  refine ⟨.create ⟨hl, self, items, key, owner, ht⟩, fun x hx ↦ ?_, fun x hx ↦ ?_⟩
  · rw [hr] at hx
    cases hx
  · rw [ht] at hx
    exact absurd hx (ho x)

/-! ### Adding -/

omit [DecidableEq K] in
/-- An addition leaves the refused items alone, apart from its own. -/
theorem Invariant.add_others (h : Invariant keyCompare s t) (hx : item ∉ s.linked)
    {b' : BalancedBTree ι K}
    (he : balancedBTreeAdd keyCompare fuel (s.tree.setKey item key) (some item) lock rebalance =
      some b') :
    (∀ x ∈ s.rejected, x ≠ item → Refused b' x) ∧
    ∀ x, b'.owner x = some b'.self → x = item ∨ x ∈ s.linked ∨ x ∈ s.rejected := by
  have hxt : item ∉ t.inorder := fun e ↦ hx (h.tree.mem.mp e)
  have hconf := add_confined (s := s.tree.setKey item key) h.tree.holds.closedTree hxt he
  obtain ⟨p, rfl⟩ := add_frame he
  have howner : ∀ x, x ≠ item → ownerAdded (s.tree.setKey item key) (some item) x =
      s.tree.owner x := fun x hxi ↦ Function.update_of_ne hxi ..
  refine ⟨fun x hxr hxi ↦ ?_, fun x hxo ↦ ?_⟩
  · have hout : x ∉ insert item {x | x ∈ t.inorder} := by
      rintro (e | e)
      · exact hxi e
      · exact (h.refused x hxr).1 (h.tree.mem.mp e)
    exact (h.refused x hxr).2.of_agree (hconf.links.agree x hout) (howner x hxi) rfl
  · by_cases hxi : x = item
    · exact .inl hxi
    · exact .inr (h.owned x ((howner x hxi).symm.trans hxo))

omit [DecidableEq K] in
/-- The caller writes the key of an item that is not on the tree. -/
theorem Invariant.increasing_setKey (h : Invariant keyCompare s t) (key : K) (hx : item ∉ s.linked) :
    Increasing keyCompare (s.tree.setKey item key).key t.inorder :=
  h.tree.increasing.imp_of_mem fun hy hz hyz ↦ by
    have hne : ∀ z ∈ t.inorder, z ≠ item := fun z hz e ↦ hx (e ▸ h.tree.mem.mp hz)
    simpa [BalancedBTree.setKey, hne _ hy, hne _ hz] using hyz

/-! ### Removing -/

omit [DecidableEq K] in
/-- A removal of an item that is on the tree leaves the refused items alone. -/
theorem Invariant.remove_others (h : Invariant keyCompare s t) (hx : item ∈ s.linked)
    {b' : BalancedBTree ι K}
    (he : balancedBTreeRemove fuel s.tree (some item) lock rebalance = some b') :
    (∀ x ∈ s.rejected, Refused b' x) ∧
    ∀ x, b'.owner x = some b'.self → x ≠ item ∧ (x ∈ s.linked ∨ x ∈ s.rejected) := by
  have hconf := remove_confined h.tree.holds.closedTree (h.tree.mem.mpr hx) he
  obtain ⟨p, rfl⟩ := remove_frame he
  have hown : ownerRemoved s.tree (some item) = Function.update s.tree.owner item none :=
    if_neg (not_not.mpr (h.tree.owner item hx))
  refine ⟨fun x hxr ↦ ?_, fun x hxo ↦ ?_⟩
  · have hxi : x ≠ item := fun e ↦ (h.refused x hxr).1 (e ▸ hx)
    have hout : x ∉ {x | x ∈ t.inorder} := fun e ↦ (h.refused x hxr).1 (h.tree.mem.mp e)
    refine (h.refused x hxr).2.of_agree (hconf.links.agree x hout) ?_ rfl
    change ownerRemoved s.tree (some item) x = _
    rw [hown, Function.update_of_ne hxi]
  · have hxo : ownerRemoved s.tree (some item) x = some s.tree.self := hxo
    rw [hown] at hxo
    by_cases hxi : x = item
    · subst hxi
      rw [Function.update_self] at hxo
      cases hxo
    · rw [Function.update_of_ne hxi] at hxo
      exact ⟨hxi, h.owned x hxo⟩

/-- The removal of a refused item. -/
theorem step_remove_refused (h : Invariant keyCompare s t) (hx : item ∈ s.rejected)
    (hf : s.linked.length + 2 ≤ fuel)
    (he : call keyCompare fuel s (.remove item lock rebalance) = some s') :
    (Careful s (fuel, .remove item lock rebalance) → ∃ t', Invariant keyCompare s' t') ∧
    (¬ Careful s (fuel, .remove item lock rebalance) → ¬ SearchTree keyCompare s') := by
  obtain ⟨called, hcall, he⟩ := Option.bind_eq_some_iff.mp he
  obtain ⟨b', hrem, hcall⟩ := Option.bind_eq_some_iff.mp hcall
  cases hcall
  cases he
  obtain ⟨hxl, href⟩ := h.refused item hx
  have hxt : item ∉ t.inorder := fun e ↦ hxl (h.tree.mem.mp e)
  obtain ⟨y, hy⟩ := Option.isSome_iff_exists.mp href.parent
  have hreb := remove_locked_of hrem
  rw [remove_refused_eq href] at hreb
  have hsize := h.tree.numNodes
  have hacc : account s (.remove item lock rebalance) =
      (s.linked, s.rejected.filter (· ≠ item)) := by
    rw [account, List.erase_of_not_mem hxl]
  constructor
  · intro hcareful
    have hcareful : y ∈ t.inorder → s.tree.right y = none := fun hyt ↦
      hcareful hx y hy (h.tree.mem.mp hyt)
    obtain ⟨⟨t', ht', hin⟩, hagree, hrest⟩ := rebalanced
      (unlinked_holds h.tree.holds hxt hy hcareful) (by omega) hreb
    have hkey : b'.key = s.tree.key := by rw [hrest]
    have hown : b'.owner = Function.update s.tree.owner item none := by rw [hrest]
    have hself : b'.self = s.tree.self := by rw [hrest]
    refine ⟨t', ⟨ht', ?_, ?_, fun x hx' ↦ ?_⟩, fun x hxr ↦ ?_, fun x hxo ↦ ?_⟩
    · rw [hin]
      change Increasing keyCompare b'.key t.inorder
      rw [hkey]
      exact h.tree.increasing
    · rw [hin, hacc]
      exact h.tree.perm
    · rw [hacc] at hx'
      have hxi : x ≠ item := fun e ↦ hxl (e ▸ hx')
      change b'.owner x = some b'.self
      rw [hown, hself, Function.update_of_ne hxi]
      exact h.tree.owner x hx'
    · rw [hacc] at hxr ⊢
      obtain ⟨hxr, hxi⟩ := List.mem_filter.mp hxr
      have hxi : x ≠ item := by simpa using hxi
      obtain ⟨hxl', hxref⟩ := h.refused x hxr
      refine ⟨hxl', (unlinked_refused hxref hxi).of_agree (hagree x fun e ↦ ?_) ?_ hself⟩
      · exact hxl' (h.tree.mem.mp e)
      · rw [hrest]
    · rw [hacc]
      change b'.owner x = some b'.self at hxo
      rw [hown, hself] at hxo
      by_cases hxi : x = item
      · subst hxi
        rw [Function.update_self] at hxo
        cases hxo
      · rw [Function.update_of_ne hxi] at hxo
        exact (h.owned x hxo).imp_right fun hxr ↦ List.mem_filter.mpr ⟨hxr, by simpa using hxi⟩
  · intro hcareless hsearch
    -- the right subtree of the parent is no longer on the tree
    have hwrong : y ∈ s.linked ∧ s.tree.right y ≠ none := by
      by_contra hno
      refine hcareless fun _ z hz hzl ↦ ?_
      obtain rfl : y = z := Option.some.inj (hy.symm.trans hz)
      by_contra hright
      exact hno ⟨hzl, hright⟩
    obtain ⟨hyl, hright⟩ := hwrong
    obtain ⟨u, z, hu, hsmall, hz, hzu⟩ :=
      unlinked_misses h.tree.holds hxt hy (h.tree.mem.mpr hyl) hright
    obtain ⟨⟨t', ht', hin⟩, -⟩ := rebalanced hu (by omega) hreb
    refine hzu (hin ▸ (hsearch.mem ht').mpr ?_)
    rw [hacc]
    exact h.tree.mem.mp hz

omit [DecidableEq K] in
/-- An item that is neither on the tree nor refused is not removed. -/
theorem Invariant.remove_foreign (h : Invariant keyCompare s t) (hl : item ∉ s.linked)
    (hr : item ∉ s.rejected) {b' : BalancedBTree ι K}
    (he : balancedBTreeRemove fuel s.tree (some item) lock rebalance = some b') : b' = s.tree := by
  have howner : s.tree.owner item ≠ some s.tree.self := fun e ↦
    (h.owned item e).elim hl hr
  rw [balancedBTreeRemove, if_pos howner] at he
  exact (Option.some.inj he).symm

omit [DecidableEq K] in
/-- A rebalancing leaves the refused items alone. -/
theorem Invariant.rebalance_others (h : Invariant keyCompare s t)
    (hf : s.linked.length + 2 ≤ fuel) {b' : BalancedBTree ι K}
    (he : rebalanceIf fuel s.tree rebalance = some b') :
    (∀ x ∈ s.rejected, Refused b' x) ∧ b'.owner = s.tree.owner ∧ b'.self = s.tree.self := by
  have hsize := h.tree.numNodes
  obtain ⟨-, hagree, hrest⟩ := rebalanced h.tree.holds (by omega) he
  have hown : b'.owner = s.tree.owner := by rw [hrest]
  have hself : b'.self = s.tree.self := by rw [hrest]
  refine ⟨fun x hx ↦ ?_, hown, hself⟩
  obtain ⟨hxl, href⟩ := h.refused x hx
  exact href.of_agree (hagree x fun e ↦ hxl (h.tree.mem.mp e)) (congrFun hown x) hself

/-! ### Steps -/

variable (hcmp : StrictTotal keyCompare)

include hcmp

/-- An addition. -/
theorem step_add (h : Invariant keyCompare s t) (hx : item ∉ s.linked)
    (hf : s.linked.length + 2 ≤ fuel)
    (he : call keyCompare fuel s (.add item key lock rebalance) = some s') :
    (Careful s (fuel, .add item key lock rebalance) → ∃ t', Invariant keyCompare s' t') ∧
    (¬ Careful s (fuel, .add item key lock rebalance) → ¬ SearchTree keyCompare s') := by
  obtain ⟨called, hcall, he⟩ := Option.bind_eq_some_iff.mp he
  have hall := hcall
  obtain ⟨b', hadd, hcall⟩ := Option.bind_eq_some_iff.mp hcall
  cases hcall
  cases he
  have hxt : item ∉ t.inorder := fun e ↦ hx (h.tree.mem.mp e)
  obtain ⟨hothers, howned⟩ := h.add_others hx hadd
  have hkey : ∀ y ∈ s.linked, (s.tree.setKey item key).key y = s.tree.key y := fun y hy ↦ by
    have hyx : y ≠ item := fun e ↦ hx (e ▸ hy)
    simp [BalancedBTree.setKey, hyx]
  have hitem : (s.tree.setKey item key).key item = key := by simp [BalancedBTree.setKey]
  by_cases hdup : ∃ y ∈ s.linked, s.tree.key y = key
  · obtain ⟨y, hy, hyk⟩ := hdup
    have hacc : account s (.add item key lock rebalance) =
        (s.linked, item :: s.rejected.filter (· ≠ item)) := if_pos ⟨y, hy, hyk⟩
    have hsame : (s.tree.setKey item key).key y = (s.tree.setKey item key).key item := by
      rw [hkey y hy, hitem, hyk]
    have hsize := h.tree.numNodes
    have hinc := h.increasing_setKey key hx
    constructor
    · intro hcareful
      obtain ⟨⟨t', ht', hin⟩, href⟩ := add_refused hcmp (b := s.tree.setKey item key) h.tree.holds
        hinc hxt (h.tree.mem.mpr hy) hsame (hcareful y hy hyk) (by omega) hadd
      obtain ⟨p, rfl⟩ := add_frame hadd
      refine ⟨t', ⟨ht', ?_, ?_, fun x hxl ↦ ?_⟩, fun x hxr ↦ ?_, fun x hxo ↦ ?_⟩
      · rw [hin]
        exact hinc
      · rw [hin, hacc]
        exact h.tree.perm
      · rw [hacc] at hxl
        have hxi : x ≠ item := fun e ↦ hx (e ▸ hxl)
        exact (Function.update_of_ne hxi ..).trans (h.tree.owner x hxl)
      · rw [hacc] at hxr ⊢
        rcases List.mem_cons.mp hxr with rfl | hxr
        · exact ⟨hx, href⟩
        · obtain ⟨hxr, hxi⟩ := List.mem_filter.mp hxr
          exact ⟨(h.refused x hxr).1, hothers x hxr (by simpa using hxi)⟩
      · rw [hacc]
        rcases howned x hxo with rfl | hxl | hxr
        · exact .inr List.mem_cons_self
        · exact .inl hxl
        · by_cases hxi : x = item
          · exact .inr (hxi ▸ List.mem_cons_self)
          · exact .inr (List.mem_cons_of_mem _ (List.mem_filter.mpr ⟨hxr, by simpa using hxi⟩))
    · intro hcareless hsearch
      have hright : s.tree.right y ≠ none := by
        intro hright
        refine hcareless fun z hz hzk ↦ ?_
        obtain rfl : z = y := h.stores.key_inj hcmp hz hy (hzk.trans hyk.symm)
        exact hright
      obtain ⟨t', ht', hmem⟩ := add_linked hcmp (b := s.tree.setKey item key) h.tree.holds hinc hxt
        (h.tree.mem.mpr hy) hsame hright (by omega) hadd
      have hlinked := (hsearch.mem ht').mp hmem
      rw [hacc] at hlinked
      exact hx hlinked
  · have hacc : account s (.add item key lock rebalance) =
        (item :: s.linked, s.rejected.filter (· ≠ item)) := if_neg hdup
    have hnew : ∀ y ∈ s.linked, s.tree.key y ≠ key := fun y hy e ↦ hdup ⟨y, hy, e⟩
    constructor
    · intro _
      obtain ⟨t', ht'⟩ := h.tree.call hcmp (.add item key lock rebalance) ⟨hx, hnew⟩ hf hall
      rw [hacc]
      refine ⟨t', ht', fun x hxr ↦ ?_, fun x hxo ↦ ?_⟩
      · obtain ⟨hxr, hxi⟩ := List.mem_filter.mp hxr
        have hxi : x ≠ item := by simpa using hxi
        exact ⟨by simpa [hxi] using (h.refused x hxr).1, hothers x hxr hxi⟩
      · rcases howned x hxo with rfl | hxl | hxr
        · exact .inl List.mem_cons_self
        · exact .inl (List.mem_cons_of_mem _ hxl)
        · by_cases hxi : x = item
          · exact .inl (hxi ▸ List.mem_cons_self)
          · exact .inr (List.mem_filter.mpr ⟨hxr, by simpa using hxi⟩)
    · exact fun hcareless ↦ absurd (fun y hy e ↦ absurd e (hnew y hy)) hcareless

/-- The removal of an item that is on the tree. -/
theorem step_remove_linked (h : Invariant keyCompare s t) (hx : item ∈ s.linked)
    (hf : s.linked.length + 2 ≤ fuel)
    (he : call keyCompare fuel s (.remove item lock rebalance) = some s') :
    ∃ t', Invariant keyCompare s' t' := by
  obtain ⟨called, hcall, he⟩ := Option.bind_eq_some_iff.mp he
  have hall := hcall
  obtain ⟨b', hrem, hcall⟩ := Option.bind_eq_some_iff.mp hcall
  cases hcall
  cases he
  obtain ⟨t', ht'⟩ := h.tree.call hcmp (.remove item lock rebalance) hx hf hall
  obtain ⟨hothers, howned⟩ := h.remove_others hx hrem
  refine ⟨t', ht', fun x hxr ↦ ?_, fun x hxo ↦ ?_⟩
  · obtain ⟨hxr, -⟩ := List.mem_filter.mp hxr
    exact ⟨fun e ↦ (h.refused x hxr).1 (List.mem_of_mem_erase e), hothers x hxr⟩
  · obtain ⟨hxi, hxl | hxr⟩ := howned x hxo
    · exact .inl ((List.mem_erase_of_ne hxi).mpr hxl)
    · exact .inr (List.mem_filter.mpr ⟨hxr, by simpa using hxi⟩)

/-- A call without an item. -/
theorem step_bare (h : Invariant keyCompare s t) (op : Op ι K) (hop : Bare op)
    (hf : s.linked.length + 2 ≤ fuel) (he : call keyCompare fuel s op = some s') :
    ∃ t', Invariant keyCompare s' t' := by
  obtain ⟨called, hcall, he⟩ := Option.bind_eq_some_iff.mp he
  cases he
  have hacc : account s op = (s.linked, s.rejected) := by
    cases op with
    | add | remove => exact hop.elim
    | addNull | removeNull | lock | unlock => rfl
  have hadm : BTree.Admissible s.toState op := by
    cases op with
    | add | remove => exact hop.elim
    | addNull | removeNull | lock | unlock => trivial
  obtain ⟨t', ht'⟩ := h.tree.call hcmp op hadm hf hcall
  have hothers : (∀ x ∈ s.rejected, Refused called.tree x) ∧
      called.tree.owner = s.tree.owner ∧ called.tree.self = s.tree.self ∧
      called.linked = s.linked := by
    cases op with
    | add | remove => exact hop.elim
    | addNull lock rebalance =>
        obtain ⟨b', hadd, hcall⟩ := Option.bind_eq_some_iff.mp hcall
        cases hcall
        have hreb := add_locked_of hadd
        simp only [balancedBTreeAdd, enter, leave, Option.bind_eq_bind, Option.bind_some,
          Option.bind_fun_some] at hreb
        obtain ⟨href, hown, hself⟩ := h.rebalance_others hf hreb
        exact ⟨href, hown, hself, rfl⟩
    | removeNull lock rebalance =>
        obtain ⟨b', hrem, hcall⟩ := Option.bind_eq_some_iff.mp hcall
        cases hcall
        have hreb := remove_locked_of hrem
        simp only [balancedBTreeRemove, enter, Option.bind_eq_bind, Option.bind_some,
          Option.bind_fun_some] at hreb
        obtain ⟨href, hown, hself⟩ := h.rebalance_others hf hreb
        exact ⟨href, hown, hself, rfl⟩
    | lock =>
        obtain ⟨b', hlock, hcall⟩ := Option.bind_eq_some_iff.mp hcall
        cases hcall
        obtain ⟨-, rfl⟩ := lock_eq_some.mp hlock
        exact ⟨fun x hx ↦ (h.refused x hx).2.of_agree (fun _ _ ↦ ⟨rfl, rfl, rfl⟩) rfl rfl, rfl, rfl, rfl⟩
    | unlock =>
        cases hcall
        exact ⟨fun x hx ↦ (h.refused x hx).2.of_agree (fun _ _ ↦ ⟨rfl, rfl, rfl⟩) rfl rfl, rfl, rfl, rfl⟩
  obtain ⟨href, hown, hself, hlinked⟩ := hothers
  have hstate : BTree.State.mk called.tree s.linked = called := by rw [← hlinked]
  rw [hacc]
  refine ⟨t', ?_, fun x hx ↦ ⟨(h.refused x hx).1, href x hx⟩, fun x hx ↦ ?_⟩
  · change BTree.Invariant keyCompare (BTree.State.mk called.tree s.linked) t'
    rw [hstate]
    exact ht'
  · change called.tree.owner x = some called.tree.self at hx
    rw [hown, hself] at hx
    exact h.owned x hx

/-- A careful step keeps the invariant, and any other step spoils the tree. -/
theorem step_iff (h : Invariant keyCompare s t) {e : ℕ × Op ι K}
    (he : (system ι K keyCompare).step s e = some s') :
    (Careful s e → ∃ t', Invariant keyCompare s' t') ∧
    (¬ Careful s e → ¬ SearchTree keyCompare s') := by
  obtain ⟨fuel, op⟩ := e
  simp only [system] at he
  split at he
  · rename_i hg
    obtain ⟨hadm, hf⟩ := hg
    cases op with
    | add item key lock rebalance => exact step_add hcmp h hadm hf he
    | remove item lock rebalance =>
        by_cases hl : item ∈ s.linked
        · exact ⟨fun _ ↦ step_remove_linked hcmp h hl hf he, fun hcareless ↦
            absurd (fun hr ↦ absurd hl (h.refused item hr).1) hcareless⟩
        · by_cases hr : item ∈ s.rejected
          · exact step_remove_refused h hr hf he
          · obtain ⟨called, hcall, he⟩ := Option.bind_eq_some_iff.mp he
            obtain ⟨b', hrem, hcall⟩ := Option.bind_eq_some_iff.mp hcall
            cases hcall
            cases he
            obtain rfl := h.remove_foreign hl hr hrem
            have hfilter : s.rejected.filter (· ≠ item) = s.rejected :=
              List.filter_eq_self.mpr fun x hx ↦ by
                have hxi : x ≠ item := fun e ↦ hr (e ▸ hx)
                simpa using hxi
            have hacc : account s (.remove item lock rebalance) = (s.linked, s.rejected) := by
              rw [account, List.erase_of_not_mem hl, hfilter]
            rw [hacc]
            exact ⟨fun _ ↦ ⟨t, h⟩, fun hcareless ↦ absurd (fun hr' ↦ absurd hr' hr) hcareless⟩
    | addNull lock rebalance =>
        exact ⟨fun _ ↦ step_bare hcmp h (.addNull lock rebalance) trivial hf he,
          fun hcareless ↦ absurd trivial hcareless⟩
    | removeNull lock rebalance =>
        exact ⟨fun _ ↦ step_bare hcmp h (.removeNull lock rebalance) trivial hf he,
          fun hcareless ↦ absurd trivial hcareless⟩
    | lock =>
        exact ⟨fun _ ↦ step_bare hcmp h .lock trivial hf he,
          fun hcareless ↦ absurd trivial hcareless⟩
    | unlock =>
        exact ⟨fun _ ↦ step_bare hcmp h .unlock trivial hf he,
          fun hcareless ↦ absurd trivial hcareless⟩
  · cases he

/-- While every call is careful the tree in memory is the search tree of the invariant. -/
theorem careful_invariant (h : (system ι K keyCompare).ReachableVia Careful s) :
    ∃ t, Invariant keyCompare s t := by
  refine h.invariant (I := fun s ↦ ∃ t, Invariant keyCompare s t)
    (fun s hs ↦ ⟨nil, .create hs⟩) fun s e s' ⟨t, ht⟩ hc he ↦ ?_
  exact (step_iff hcmp ht he).1 hc

end Runs

/-- An empty tree. -/
def emptyTree : State ℕ ℤ where
  tree := balancedBTreeCreate 7 ⟨fun _ ↦ none, fun _ ↦ none, fun _ ↦ none⟩ (fun _ ↦ 0) fun _ ↦ none
  linked := []
  rejected := []

theorem emptyTree_init : (system ℕ ℤ (· - ·)).init emptyTree :=
  ⟨rfl, rfl, 7, _, _, _, rfl, fun _ h ↦ by cases h⟩

/-- A duplicate is refused below an item without a right child, and removed. -/
def refusedRun : Option (State ℕ ℤ) :=
  ((system ℕ ℤ (· - ·)).guard fun s e ↦ decide (Careful s e)).run emptyTree
    [(9, .add 1 10 .unlocked true), (9, .add 3 10 .unlocked true), (9, .remove 3 .unlocked true)]

/-- The equal item has a right child when the duplicate is added. -/
def linkedRun : Option (State ℕ ℤ) :=
  (system ℕ ℤ (· - ·)).run emptyTree
    [(9, .add 1 10 .unlocked false), (9, .add 2 20 .unlocked false), (9, .add 3 10 .unlocked false)]

/-- The equal item gets a right child before the refused duplicate is removed. -/
def cutRun : Option (State ℕ ℤ) :=
  (system ℕ ℤ (· - ·)).run emptyTree
    [(9, .add 1 10 .unlocked false), (9, .add 3 10 .unlocked false), (9, .add 2 20 .unlocked false),
      (9, .remove 3 .unlocked false)]

end Beirdobot.BTree.Duplicates
