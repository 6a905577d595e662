import Beirdobot.BTree.Search
import Mathlib.Data.List.Perm.Subperm

/-!
# Trees that store a list

What the operations do to a tree that holds the items of a list in the order of
their keys, whatever its shape.
-/

namespace Beirdobot.BTree

open Library BinaryTree

variable {ι K : Type}

/-- The tree holds the items of `l`, in the order of their keys. -/
structure Stores (keyCompare : K → K → ℤ) (s : BalancedBTree ι K) (l : List ι) : Prop where
  tree : ∃ t, Holds s.toPointers t ∧ Increasing keyCompare s.key t.inorder ∧ t.inorder.Perm l
  owner : ∀ x ∈ l, s.owner x = some s.self

namespace Stores

variable {keyCompare : K → K → ℤ} {s s' : BalancedBTree ι K} {l l' : List ι}

theorem nodup (h : Stores keyCompare s l) : l.Nodup := by
  obtain ⟨t, ht, -, hp⟩ := h.tree
  exact hp.nodup_iff.mp ht.nodup

theorem perm (h : Stores keyCompare s l) (hl : l.Perm l') : Stores keyCompare s l' := by
  obtain ⟨t, ht, hi, hp⟩ := h.tree
  exact ⟨⟨t, ht, hi, hp.trans hl⟩, fun x hx ↦ h.owner x (hl.mem_iff.mpr hx)⟩

theorem numNodes_eq {t : BinaryTree ι} (hp : t.inorder.Perm l) : t.numNodes = l.length := by
  rw [← length_inorder, hp.length_eq]

/-- A tree that was just created. -/
theorem create (self : ℕ) (items : Links ι) (key : ι → K) (owner : ι → Option ℕ) :
    Stores keyCompare (balancedBTreeCreate self items key owner) [] :=
  ⟨⟨.nil, ⟨rfl, trivial, List.nodup_nil⟩, .nil, .refl _⟩, by simp⟩

/-- Keys of other items can change. -/
theorem congr_key (h : Stores keyCompare s l) (hp : s'.toPointers = s.toPointers)
    (ho : s'.owner = s.owner) (hself : s'.self = s.self) (hk : ∀ x ∈ l, s'.key x = s.key x) :
    Stores keyCompare s' l := by
  obtain ⟨t, ht, hi, hperm⟩ := h.tree
  refine ⟨⟨t, hp ▸ ht, hi.imp_of_mem fun hx hy hxy ↦ ?_, hperm⟩, ?_⟩
  · rwa [hk _ (hperm.mem_iff.mp hx), hk _ (hperm.mem_iff.mp hy)]
  · rw [ho, hself]
    exact h.owner

/-- Two items of the tree have different keys. -/
theorem key_inj (hcmp : StrictTotal keyCompare) (h : Stores keyCompare s l) {x y : ι}
    (hx : x ∈ l) (hy : y ∈ l) (he : s.key x = s.key y) : x = y := by
  obtain ⟨t, ht, hi, hp⟩ := h.tree
  obtain ⟨r, -, hr⟩ := findLoop_eq hcmp ht.linked hi (s.key x) t.numNodes (le_refl _)
  have hsome : r = some x := (hr x).mpr ⟨hp.mem_iff.mpr hx, rfl⟩
  have hsome' : r = some y := (hr y).mpr ⟨hp.mem_iff.mpr hy, he.symm⟩
  exact Option.some.inj (hsome.symm.trans hsome')

/-- A search finds the item with the key, if there is one. -/
theorem find (hcmp : StrictTotal keyCompare) (h : Stores keyCompare s l) (k : K) (lock : Locked)
    (hlock : lock = .unlocked → s.mutex = false) (fuel : ℕ) (hf : l.length ≤ fuel) :
    ∃ r, balancedBTreeFind keyCompare fuel s (some k) lock = some (s, r) ∧
      ∀ x, r = some x ↔ x ∈ l ∧ s.key x = k := by
  obtain ⟨t, ht, hi, hp⟩ := h.tree
  have hsize := numNodes_eq hp
  obtain ⟨r, he, hr⟩ := findLoop_eq hcmp (s := { s with mutex := s.mutex || lock == .unlocked })
    ht.linked hi k fuel (by omega)
  rw [← ht.root_eq] at he
  refine ⟨r, ?_, fun x ↦ by rw [hr x, hp.mem_iff]⟩
  simp only [balancedBTreeFind, enter_eq hlock, Option.bind_eq_bind, Option.bind_some, he,
    leave_eq, mutex_enter_leave hlock]

/-- An item can change its key in place as long as it stays where it is in the order. -/
theorem set_key [DecidableEq ι] (hcmp : StrictTotal keyCompare) (h : Stores keyCompare s l)
    (x : ι) (k : K) (hk : ∀ y ∈ l, y ≠ x → k ≠ s.key y ∧
      (keyCompare (s.key y) (s.key x) < 0 ↔ keyCompare (s.key y) k < 0)) :
    Stores keyCompare { s with key := Function.update s.key x k } l := by
  obtain ⟨t, ht, hi, hp⟩ := h.tree
  refine ⟨⟨t, ht, hi.imp_of_mem fun {y z} hy hz hyz ↦ ?_, hp⟩, h.owner⟩
  have hyl := hp.mem_iff.mp hy
  have hzl := hp.mem_iff.mp hz
  show keyCompare (Function.update s.key x k y) (Function.update s.key x k z) < 0
  by_cases hyx : y = x
  · have hzx : z ≠ x := by
      rintro rfl
      exact hcmp.irrefl _ (hyx ▸ hyz)
    obtain ⟨hne, hiff⟩ := hk z hzl hzx
    rw [hyx, Function.update_self, Function.update_of_ne hzx]
    rw [hyx] at hyz
    have hzx' : ¬ keyCompare (s.key z) (s.key x) < 0 := fun hlt ↦
      hcmp.irrefl _ (hcmp.trans _ _ _ hyz hlt)
    exact (hcmp.swap _ _).mp (hcmp.pos_of_ne hne.symm (mt hiff.mpr hzx'))
  · by_cases hzx : z = x
    · rw [hzx, Function.update_self, Function.update_of_ne hyx]
      rw [hzx] at hyz
      exact (hk y hyl hyx).2.mp hyz
    · rwa [Function.update_of_ne hyx, Function.update_of_ne hzx]

variable [DecidableEq ι]

/-- A new item with a key of its own is added. -/
theorem add (hcmp : StrictTotal keyCompare) (h : Stores keyCompare s l) {x : ι} (hx : x ∉ l)
    (hk : ∀ y ∈ l, s.key y ≠ s.key x) (lock : Locked)
    (hlock : lock = .unlocked → s.mutex = false) (rebalance : Bool) (fuel : ℕ)
    (hf : l.length + 2 ≤ fuel) :
    ∃ p, let s' := { s with
        toPointers := p
        owner := Function.update s.owner x (some s.self) }
      balancedBTreeAdd keyCompare fuel s (some x) lock rebalance = some s' ∧
        Stores keyCompare s' (x :: l) := by
  obtain ⟨t, ht, hi, hp⟩ := h.tree
  have hsize := numNodes_eq hp
  obtain ⟨c, p, t', hplug, he, ht', hin, hi', -⟩ := add_holds hcmp ht hi
    (fun hx' ↦ hx (hp.mem_iff.mp hx')) (fun y hy ↦ hk y (hp.mem_iff.mp hy)) lock hlock rebalance
    fuel (by omega)
  refine ⟨p, he, ⟨t', ht', hi', ?_⟩, fun y hy ↦ ?_⟩
  · have hbefore : t.inorder = before c ++ after c := by rw [hplug, inorder_plug]; simp
    rw [hin]
    refine List.perm_middle.trans (.cons x ?_)
    rwa [← hbefore]
  · show Function.update s.owner x (some s.self) y = some s.self
    by_cases hyx : y = x
    · rw [hyx, Function.update_self]
    · rw [Function.update_of_ne hyx]
      exact h.owner y ((List.mem_cons.mp hy).resolve_left hyx)

/-- An item is removed, also one whose key was changed under the tree. -/
theorem remove (h : Stores keyCompare s l) {x : ι} (hx : x ∈ l) (key : ι → K)
    (hkey : ∀ y ∈ l, y ≠ x → key y = s.key y) (lock : Locked)
    (hlock : lock = .unlocked → s.mutex = false) (rebalance : Bool) (fuel : ℕ)
    (hf : l.length ≤ fuel) :
    ∃ p, let s' := { s with
        toPointers := p
        key := key
        owner := Function.update s.owner x none }
      balancedBTreeRemove fuel { s with key := key } (some x) lock rebalance = some s' ∧
        Stores keyCompare s' (l.erase x) := by
  obtain ⟨t, ht, hi, hp⟩ := h.tree
  have hsize := numNodes_eq hp
  obtain ⟨c, left, right, rfl⟩ := exists_plug_of_mem (hp.mem_iff.mpr hx)
  obtain ⟨p, t', he, ht', hin, -⟩ := remove_holds (s := { s with key := key }) ht (h.owner x hx)
    lock hlock rebalance fuel (by omega)
  have hold : (plug c (node x left right)).inorder =
      (before c ++ left.inorder) ++ x :: (right.inorder ++ after c) := by
    rw [inorder_plug, inorder_node]
    simp
  have hnew : t'.inorder = (before c ++ left.inorder) ++ (right.inorder ++ after c) := by
    rw [hin]
    simp
  have hperm : t'.inorder.Perm (l.erase x) := by
    refine (List.cons_perm_iff_perm_erase.mp ?_).2
    rw [hnew]
    exact List.perm_middle.symm.trans (hold ▸ hp)
  have hne : ∀ y ∈ t'.inorder, y ≠ x ∧ y ∈ l := fun y hy ↦
    (h.nodup.mem_erase_iff).mp (hperm.mem_iff.mp hy)
  have hsub : t'.inorder.Sublist (plug c (node x left right)).inorder := by
    rw [hnew, hold]
    exact (List.Sublist.refl _).append (List.sublist_cons_self ..)
  refine ⟨p, he, ⟨t', ht', (hi.sublist hsub).imp_of_mem fun {y z} hy hz hyz ↦ ?_, hperm⟩,
    fun y hy ↦ ?_⟩
  · show keyCompare (key y) (key z) < 0
    obtain ⟨hyx, hyl⟩ := hne y hy
    obtain ⟨hzx, hzl⟩ := hne z hz
    rwa [hkey y hyl hyx, hkey z hzl hzx]
  · obtain ⟨hyx, hyl⟩ := (h.nodup.mem_erase_iff).mp hy
    show Function.update s.owner x none y = some s.self
    rw [Function.update_of_ne hyx]
    exact h.owner y hyl

/-- Adding a null item only rebalances. -/
theorem rebalance (h : Stores keyCompare s l) (lock : Locked)
    (hlock : lock = .unlocked → s.mutex = false) (fuel : ℕ) (hf : l.length + 1 ≤ fuel) :
    ∃ p, balancedBTreeAdd keyCompare fuel s none lock true = some { s with toPointers := p } ∧
      Stores keyCompare { s with toPointers := p } l := by
  obtain ⟨t, ht, hi, hp⟩ := h.tree
  have hsize := numNodes_eq hp
  obtain ⟨p, t', he, ht', hin, -⟩ := rebalanceIf_holds
    (s := { s with mutex := s.mutex || lock == .unlocked }) ht true fuel (by omega)
  refine ⟨p, ?_, ⟨t', ht', hin ▸ hi, hin ▸ hp⟩, h.owner⟩
  simp only [balancedBTreeAdd, enter_eq hlock, Option.bind_eq_bind, Option.bind_some, he,
    leave_eq, mutex_enter_leave hlock]

end Stores

end Beirdobot.BTree
