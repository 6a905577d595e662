import Beirdobot.BTree.Refused
import Beirdobot.Library.Mutex
import Mathlib.Data.List.Perm.Basic

/-!
# Many trees in one memory

Every tree of the bot and the items they share.  For the walks of a call to end, the
trees have to keep their shape, whatever their comparators say about the keys: that
is so as long as only items that are on no tree are added, and the removal of a
refused item does not cut off the right subtree of the item its parent field points to.
-/

namespace Beirdobot.BTree

open Library BinaryTree

variable {ι K : Type}

/-- All trees, by their address, and the items in memory. -/
structure Trees (ι K : Type) extends Links ι where
  root : ℕ → Option ι
  key : ι → K
  owner : ι → Option ℕ
  mutex : ℕ → Bool

/-- The tree at address `c`. -/
def Trees.tree (m : Trees ι K) (c : ℕ) : BalancedBTree ι K :=
  { toLinks := m.toLinks, root := m.root c, key := m.key, owner := m.owner, self := c,
    mutex := m.mutex c }

/-- The memory after a call on one tree. -/
def Trees.put (m : Trees ι K) (s : BalancedBTree ι K) : Trees ι K :=
  { toLinks := s.toLinks
    root := Function.update m.root s.self s.root
    key := s.key
    owner := s.owner
    mutex := Function.update m.mutex s.self s.mutex }

/-- A call on a tree, apart from what it is told about the mutex. -/
inductive TreeCall (ι K : Type)
  | add (item : Option ι) (rebalance : Bool)
  | remove (item : Option ι) (rebalance : Bool)
  | find (key : Option K)

/-- The call that locks the mutex when it should unlock it. -/
def LocksTwice : TreeCall ι K → Prop
  | .remove none _ => True
  | _ => False

/-- Which item a walk down from `p` can come to. -/
inductive Reaches (h : Links ι) : Option ι → ι → Prop
  | here (x : ι) : Reaches h (some x) x
  | left {x y : ι} : Reaches h (h.left y) x → Reaches h (some y) x
  | right {x y : ι} : Reaches h (h.right y) x → Reaches h (some y) x

/-- An item that is found on the tree at address `c`. -/
def Trees.OnTree (m : Trees ι K) (c : ℕ) (x : ι) : Prop := Reaches m.toLinks (m.root c) x

/-- The calls that keep the trees in shape. -/
def Trees.Careful (m : Trees ι K) (c : ℕ) : TreeCall ι K → Prop
  | .add (some item) _ => ∀ d, ¬ m.OnTree d item
  | .remove (some item) _ => m.owner item = some c → ¬ m.OnTree c item →
      ∀ y ∈ m.parent item, ∀ d, m.OnTree d y → m.right y = none
  | _ => True

variable [DecidableEq ι]

/-- The code's call, and the item it returns if it returns one. -/
def treeCall (keyCompare : K → K → ℤ) (fuel : ℕ) (s : BalancedBTree ι K) (lock : Locked) :
    TreeCall ι K → Option (BalancedBTree ι K × Option ι)
  | .add item rebalance =>
      (balancedBTreeAdd keyCompare fuel s item lock rebalance).map fun s ↦ (s, none)
  | .remove item rebalance =>
      (balancedBTreeRemove fuel s item lock rebalance).map fun s ↦ (s, none)
  | .find key => balancedBTreeFind keyCompare fuel s key lock

/-! ## The mutex of a tree -/

/-- Where a tree keeps its mutex. -/
def treeMutex (ι K : Type) : MutexIn (BalancedBTree ι K) where
  held s := s.mutex
  set s b := s.setMutex b
  held_set _ _ := rfl
  set_held _ := rfl
  set_set _ _ _ := rfl

omit [DecidableEq ι] in
theorem treeMutex_lock (s : BalancedBTree ι K) : (treeMutex ι K).lock s = balancedBTreeLock s := rfl

/-- Every call but one pairs its locking. -/
theorem treeCall_paired (keyCompare : K → K → ℤ) (fuel : ℕ) {call : TreeCall ι K}
    (h : ¬ LocksTwice call) :
    (treeMutex ι K).Paired (fun s ↦ treeCall keyCompare fuel s .locked call)
      fun s ↦ treeCall keyCompare fuel s .unlocked call := by
  cases call with
  | add item rebalance =>
      constructor
      · intro s b
        simp only [treeCall, treeMutex, add_locked, Option.map_map]
        rfl
      · intro s
        right
        simp only [treeCall, add_unlocked, treeMutex_lock, Option.map_bind, Option.map_map,
          Function.comp_def]
        rfl
  | remove item rebalance =>
      cases item with
      | none => exact absurd trivial h
      | some item =>
          constructor
          · intro s b
            simp only [treeCall, treeMutex, remove_locked, Option.map_map]
            rfl
          · intro s
            by_cases ho : s.owner item = some s.self
            · right
              simp only [treeCall, remove_unlocked fuel ho, treeMutex_lock, Option.map_bind,
                Option.map_map, Function.comp_def]
              rfl
            · left
              simp only [treeCall, balancedBTreeRemove, ne_eq, ho, not_false_eq_true, if_true]
  | find key =>
      constructor
      · intro s b
        exact find_locked keyCompare fuel s b key
      · intro s
        cases key with
        | none =>
            left
            rfl
        | some key =>
            right
            exact find_unlocked keyCompare fuel s key

theorem treeCall_locksTwice (keyCompare : K → K → ℤ) (fuel : ℕ) (s : BalancedBTree ι K)
    {call : TreeCall ι K} (h : LocksTwice call) :
    treeCall keyCompare fuel s .unlocked call = none := by
  cases call with
  | add | find => exact h.elim
  | remove item rebalance =>
      cases item with
      | none => rw [treeCall, remove_none_unlocked, Option.map_none]
      | some => exact h.elim

/-- A call stays on its tree and leaves the mutex as it was. -/
theorem treeCall_frame {keyCompare : K → K → ℤ} {fuel : ℕ} {s : BalancedBTree ι K} {lock : Locked}
    {call : TreeCall ι K} {r : BalancedBTree ι K × Option ι}
    (he : treeCall keyCompare fuel s lock call = some r) :
    r.1.self = s.self ∧ r.1.mutex = s.mutex := by
  cases call with
  | add item rebalance =>
      obtain ⟨s', hs', rfl⟩ := Option.map_eq_some_iff.mp he
      obtain ⟨p, rfl⟩ := add_frame hs'
      exact ⟨rfl, rfl⟩
  | remove item rebalance =>
      obtain ⟨s', hs', rfl⟩ := Option.map_eq_some_iff.mp he
      obtain ⟨p, rfl⟩ := remove_frame hs'
      exact ⟨rfl, rfl⟩
  | find key =>
      cases key with
      | none =>
          cases he
          exact ⟨rfl, rfl⟩
      | some key =>
          obtain ⟨s₁, hs₁, he⟩ := Option.bind_eq_some_iff.mp he
          obtain ⟨item, -, he⟩ := Option.bind_eq_some_iff.mp he
          cases he
          cases lock with
          | locked =>
              cases hs₁
              exact ⟨rfl, rfl⟩
          | unlocked =>
              obtain ⟨hm, rfl⟩ := lock_eq_some.mp hs₁
              exact ⟨rfl, hm.symm⟩

/-! ## Walks with any comparator -/

section Walks

variable (keyCompare : K → K → ℤ) {s : BalancedBTree ι K}

omit [DecidableEq ι] in
theorem findLoop_returns {q : Option ι} {t : BinaryTree ι} (ht : Linked s.toLinks q t) (k : K)
    (fuel : ℕ) (hf : t.numNodes ≤ fuel) : ∃ r, findLoop keyCompare s k fuel t.top = some r := by
  induction t generalizing q fuel with
  | nil => exact ⟨none, by cases fuel <;> rfl⟩
  | node x l r ihl ihr =>
      obtain ⟨-, hl, hr, htl, htr⟩ := ht
      cases fuel with
      | zero => simp at hf
      | succ fuel =>
          simp only [numNodes] at hf
          simp only [top_node, findLoop, hl, hr]
          split
          · exact ⟨_, rfl⟩
          · split
            · exact ihl htl fuel (by omega)
            · exact ihr htr fuel (by omega)

/-- The walk went through the hole of the path because of the comparison there. -/
def Fits (s : BalancedBTree ι K) (k : K) : Path ι → Prop
  | [] => True
  | .left x _ :: _ => keyCompare k (s.key x) < 0
  | .right _ x :: _ => ¬ keyCompare k (s.key x) < 0

omit [DecidableEq ι] in
/-- The loop of `balancedBTreeFindParent` ends at some hole of the tree. -/
theorem findParentLoop_returns {c : Path ι} {t : BinaryTree ι} {k : K}
    (ht : Linked s.toLinks (holeParent c) t) (hc : Fits keyCompare s k c) (fuel : ℕ)
    (hf : t.numNodes ≤ fuel) :
    ∃ c', plug c' nil = plug c t ∧ Fits keyCompare s k c' ∧
      findParentLoop keyCompare s k fuel (holeParent c) t.top = some (holeParent c') := by
  induction t generalizing c fuel with
  | nil => exact ⟨c, rfl, hc, by cases fuel <;> rfl⟩
  | node x l r ihl ihr =>
      obtain ⟨-, hl, hr, htl, htr⟩ := ht
      cases fuel with
      | zero => simp at hf
      | succ fuel =>
          simp only [numNodes] at hf
          simp only [top_node, findParentLoop, hl, hr]
          by_cases h : keyCompare k (s.key x) < 0
          · rw [if_pos h]
            exact ihl (c := .left x r :: c) htl h fuel (by omega)
          · rw [if_neg h]
            exact ihr (c := .right l x :: c) htr h fuel (by omega)

variable {keyCompare} in
/-- The item is linked in the hole, or only its parent field is written. -/
theorem linkItem_cases {c : Path ι} {item : ι} (hroot : s.root = holeTop c none)
    (hc : Fits keyCompare s (s.key item) c) :
    linkItem keyCompare s item (holeParent c) =
      { s with toPointers := attach s.toPointers item c } ∨
    ∃ p, linkItem keyCompare s item (holeParent c) =
      { s with toLinks := s.toLinks.setParent item (some p) } := by
  rcases c with _ | ⟨⟨y, r⟩ | ⟨l, y⟩, c⟩
  · exact .inl rfl
  · left
    have hy : keyCompare (s.key item) (s.key y) < 0 := hc
    have hy' : ¬ 0 < keyCompare (s.key item) (s.key y) := by omega
    simp only [linkItem, holeParent, attach, Links.setHole, if_neg hy', if_pos hy, hroot, holeTop]
  · have hy : ¬ keyCompare (s.key item) (s.key y) < 0 := hc
    by_cases hy' : 0 < keyCompare (s.key item) (s.key y)
    · left
      simp only [linkItem, holeParent, attach, Links.setHole, if_pos hy', hroot, holeTop]
    · right
      exact ⟨y, by simp only [linkItem, holeParent, if_neg hy', if_neg hy]⟩

omit [DecidableEq ι] in
theorem reaches_iff {h : Links ι} {q : Option ι} {t : BinaryTree ι} (ht : Linked h q t) {x : ι} :
    Reaches h t.top x ↔ x ∈ t.inorder := by
  induction t generalizing q with
  | nil =>
      constructor
      · intro hx
        cases hx
      · intro hx
        cases hx
  | node y l r ihl ihr =>
      obtain ⟨-, hl, hr, htl, htr⟩ := ht
      simp only [inorder_node, List.mem_append, List.mem_cons]
      constructor
      · intro hx
        cases hx with
        | here => exact .inr (.inl rfl)
        | left hx => exact .inl ((ihl htl).mp (hl ▸ hx))
        | right hx => exact .inr (.inr ((ihr htr).mp (hr ▸ hx)))
      · rintro (hx | rfl | hx)
        · exact .left (hl ▸ (ihl htl).mpr hx)
        · exact .here x
        · exact .right (hr ▸ (ihr htr).mpr hx)

end Walks

/-! ## Calls on a tree that is in shape -/

section Calls

variable {s : BalancedBTree ι K} {t : BinaryTree ι} {fuel : ℕ}

/-- An addition of an item that is not on the tree links it, or refuses it. -/
theorem add_returns (keyCompare : K → K → ℤ) (hs : Holds s.toPointers t) {item : ι} (hx : item ∉ t.inorder)
    (hf : t.numNodes + 2 ≤ fuel) (rebalance : Bool) :
    ∃ s' t', balancedBTreeAdd keyCompare fuel s (some item) .locked rebalance = some s' ∧
      Holds s'.toPointers t' ∧
      (t'.inorder.Perm (item :: t.inorder) ∨ t'.inorder = t.inorder ∧ Refused s' item) := by
  have hplaced := placed_holds hs hx
  obtain ⟨c, hplug, hfits, hfind⟩ := findParentLoop_returns keyCompare
    (c := []) (k := s.key item) hplaced.linked trivial fuel (by omega)
  rw [plug_nil] at hplug
  subst hplug
  have hfind : findParentLoop keyCompare (placed s item) (s.key item) fuel none s.root =
      some (holeParent c) := by
    rw [hs.root_eq]
    exact hfind
  rw [add_eq, hfind, Option.bind_some]
  rcases linkItem_cases (s := placed s item) hplaced.plug.1 hfits with hlink | ⟨p, hlink⟩
  · have hat := attach_holds hplaced hx (by simp [placed]) (by simp [placed])
    have hin : (plug c (node item nil nil)).inorder = before c ++ item :: after c := by
      rw [inorder_plug]
      simp
    have hold : (plug c (nil : BinaryTree ι)).inorder = before c ++ after c := by
      rw [inorder_plug]
      simp
    have hsize : (plug c (node item nil nil)).numNodes = (plug c (nil : BinaryTree ι)).numNodes + 1 := by
      rw [← length_inorder, ← length_inorder, hin, hold]
      simp
      omega
    obtain ⟨p, t', he, hp, hi, -⟩ := rebalanceIf_holds
      (s := { placed s item with toPointers := attach (placed s item).toPointers item c }) hat
      rebalance fuel (by omega)
    refine ⟨_, t', by rw [hlink]; exact he, hp, .inl ?_⟩
    rw [hi, hin, hold]
    exact List.perm_middle
  · have hset : Holds { (placed s item).toPointers with
        toLinks := (placed s item).toLinks.setParent item (some p) } (plug c nil) :=
      hplaced.congr rfl fun z hz ↦ by
        have hzx : z ≠ item := fun e ↦ hx (e ▸ hz)
        simp [hzx]
    let linked : BalancedBTree ι K :=
      { placed s item with toLinks := (placed s item).toLinks.setParent item (some p) }
    obtain ⟨p', t', he, hp, hi, -⟩ := rebalanceIf_holds (s := linked) hset rebalance fuel
      (by omega)
    have href : Refused linked item :=
      ⟨by simp [linked, placed], by simp [linked, placed], by simp [linked, placed],
        by simp [linked]⟩
    obtain ⟨-, hagree, hrest⟩ := rebalanced (b := linked) hset (by omega) he
    exact ⟨_, t', by rw [hlink]; exact he, hp,
      .inr ⟨hi, href.of_agree (hagree item hx) rfl rfl⟩⟩

/-- The removal of an item of the tree. -/
theorem remove_returns (hs : Holds s.toPointers t) {item : ι} (hx : item ∈ t.inorder)
    (ho : s.owner item = some s.self) (hf : t.numNodes ≤ fuel) (rebalance : Bool) :
    ∃ s' t', balancedBTreeRemove fuel s (some item) .locked rebalance = some s' ∧
      Holds s'.toPointers t' ∧ (item :: t'.inorder).Perm t.inorder := by
  obtain ⟨c, l, r, rfl⟩ := exists_plug_of_mem hx
  obtain ⟨p, t', he, hp, hin, -⟩ := remove_holds hs ho .locked (by simp) rebalance fuel hf
  refine ⟨_, t', he, hp, List.Perm.symm ?_⟩
  rw [inorder_plug, inorder_node, hin]
  have hleft : before c ++ (l.inorder ++ item :: r.inorder) ++ after c =
      (before c ++ l.inorder) ++ item :: (r.inorder ++ after c) := by simp
  have hright : before c ++ (l.inorder ++ r.inorder) ++ after c =
      (before c ++ l.inorder) ++ (r.inorder ++ after c) := by simp
  rw [hleft, hright]
  exact List.perm_middle

end Calls

/-! ## One tree among the others -/

/-- The trees have the shapes, an item of a tree says so, and any other item that says
so was refused. -/
structure Sound (m : Trees ι K) (shape : ℕ → BinaryTree ι) : Prop where
  holds : ∀ c, Holds (m.tree c).toPointers (shape c)
  owner : ∀ c, ∀ x ∈ (shape c).inorder, m.owner x = some c
  refused : ∀ c x, m.owner x = some c → x ∈ (shape c).inorder ∨ Refused (m.tree c) x

omit [DecidableEq ι] in
/-- A refused item whose pointers are not written. -/
theorem Refused.bare {s : BalancedBTree ι K} {x : ι} (h : Refused s x) {links : Links ι}
    (ha : s.toLinks.AgreeOn links [x]) :
    links.left x = none ∧ links.right x = none ∧ (links.parent x).isSome := by
  obtain ⟨hl, hr, hp⟩ := ha x (List.mem_singleton_self x)
  exact ⟨hl.trans h.left, hr.trans h.right, by rw [hp]; exact h.parent⟩

omit [DecidableEq ι] in
theorem put_tree (m : Trees ι K) (c : ℕ) : m.put (m.tree c) = m := by
  simp [Trees.tree, Trees.put]

omit [DecidableEq ι] in
/-- Neither the mutexes nor the keys matter. -/
theorem Sound.congr {m m' : Trees ι K} {shape : ℕ → BinaryTree ι} (h : Sound m shape)
    (hl : m'.toLinks = m.toLinks) (hr : m'.root = m.root) (ho : m'.owner = m.owner) :
    Sound m' shape := by
  have hagree : ∀ S, m.toLinks.AgreeOn m'.toLinks S := fun _ _ _ ↦ by simp [hl]
  refine ⟨fun c ↦ (h.holds c).congr (congrFun hr c) (hagree _), fun c x hx ↦ ?_, fun c x hx ↦ ?_⟩
  · rw [ho]
    exact h.owner c x hx
  · rw [ho] at hx
    exact (h.refused c x hx).imp_right fun href ↦ href.of_agree (hagree _) (congrFun ho x) rfl

namespace Sound

variable {m : Trees ι K} {shape : ℕ → BinaryTree ι} (h : Sound m shape) {c : ℕ}
  {x : ι} {fuel : ℕ}

include h

omit [DecidableEq ι] in
theorem onTree_iff {d : ℕ} : m.OnTree d x ↔ x ∈ (shape d).inorder := by
  have hd := h.holds d
  have hroot : m.root d = (shape d).top := hd.root_eq
  rw [Trees.OnTree, hroot]
  exact reaches_iff hd.linked

omit [DecidableEq ι] in
/-- An item is on one tree only. -/
theorem eq_of_mem {d : ℕ} (hc : x ∈ (shape c).inorder) (hd : x ∈ (shape d).inorder) : c = d :=
  Option.some.inj ((h.owner c x hc).symm.trans (h.owner d x hd))

omit [DecidableEq ι] in
/-- A call on one tree that leaves the items of the others alone. -/
theorem put {s' : BalancedBTree ι K} {t' : BinaryTree ι} (hself : s'.self = c)
    (ht' : Holds s'.toPointers t')
    (hagree : ∀ d ≠ c, ∀ z ∈ (shape d).inorder, m.toLinks.AgreeOn s'.toLinks [z])
    (howner : ∀ d, ∀ z ∈ (Function.update shape c t' d).inorder, s'.owner z = some d)
    (hrefused : ∀ d z, s'.owner z = some d → z ∈ (Function.update shape c t' d).inorder ∨
      s'.left z = none ∧ s'.right z = none ∧ (s'.parent z).isSome) :
    Sound (m.put s') (Function.update shape c t') := by
  refine ⟨fun d ↦ ?_, howner, fun d z hz ↦ ?_⟩
  · by_cases hdc : d = c
    · subst hdc
      rw [Function.update_self]
      have hroot : (m.put s').root d = s'.root := by simp [Trees.put, hself]
      exact ht'.congr hroot fun _ _ ↦ ⟨rfl, rfl, rfl⟩
    · rw [Function.update_of_ne hdc]
      have hroot : (m.put s').root d = m.root d := by simp [Trees.put, hself, hdc]
      exact (h.holds d).congr hroot fun z hz ↦ hagree d hdc z hz z (List.mem_singleton_self z)
  · rcases hrefused d z hz with hmem | ⟨hl, hr, hp⟩
    · exact .inl hmem
    · exact .inr ⟨hz, hl, hr, hp⟩

/-- A call without an item only rebalances. -/
theorem rebalanced (hf : (shape c).numNodes + 1 ≤ fuel) (rebalance : Bool) :
    ∃ s' t', rebalanceIf fuel (m.tree c) rebalance = some s' ∧
      Sound (m.put s') (Function.update shape c t') ∧ t'.numNodes = (shape c).numNodes := by
  obtain ⟨p, t', he, hp, hi, -⟩ := rebalanceIf_holds (h.holds c) rebalance fuel hf
  obtain ⟨-, hagree, -⟩ := BTree.rebalanced (h.holds c) hf he
  have hshape : ∀ d z, z ∈ (Function.update shape c t' d).inorder ↔ z ∈ (shape d).inorder := by
    intro d z
    by_cases hdc : d = c
    · rw [hdc, Function.update_self, hi]
    · rw [Function.update_of_ne hdc]
  refine ⟨_, t', he, h.put rfl hp (fun d hdc z hz ↦ ?_) (fun d z hz ↦ ?_) fun d z hz ↦ ?_, ?_⟩
  · exact hagree z fun hzc ↦ hdc (h.eq_of_mem hz hzc)
  · exact h.owner d z ((hshape d z).mp hz)
  · rw [hshape]
    rcases h.refused d z hz with hzd | href
    · exact .inl hzd
    · by_cases hzc : z ∈ (shape c).inorder
      · obtain rfl : d = c := Option.some.inj (hz.symm.trans (h.owner c z hzc))
        exact .inl hzc
      · exact .inr (href.bare (hagree z hzc))
  · rw [← length_inorder, ← length_inorder, hi]

/-- The addition of an item that is on no tree. -/
theorem add (keyCompare : K → K → ℤ) (hx : ∀ d, x ∉ (shape d).inorder) (hf : (shape c).numNodes + 2 ≤ fuel)
    (rebalance : Bool) :
    ∃ s' t', balancedBTreeAdd keyCompare fuel (m.tree c) (some x) .locked rebalance = some s' ∧
      Sound (m.put s') (Function.update shape c t') ∧
      t'.numNodes ≤ (shape c).numNodes + 1 := by
  obtain ⟨s', t', he, ht', hcase⟩ := add_returns keyCompare (h.holds c) (hx c) hf rebalance
  have hconf := add_confined (h.holds c).closedTree (hx c) he
  obtain ⟨p, hs'⟩ := add_frame he
  have howner : s'.owner = Function.update m.owner x (some c) := by rw [hs']; rfl
  have hself : s'.self = c := by rw [hs']; rfl
  have hmem : ∀ z ∈ (shape c).inorder, z ∈ t'.inorder := by
    intro z hz
    rcases hcase with hperm | ⟨hin, -⟩
    · exact hperm.mem_iff.mpr (List.mem_cons_of_mem _ hz)
    · rwa [hin]
  have hmem' : ∀ z ∈ t'.inorder, z = x ∨ z ∈ (shape c).inorder := by
    intro z hz
    rcases hcase with hperm | ⟨hin, -⟩
    · exact List.mem_cons.mp (hperm.mem_iff.mp hz)
    · exact .inr (hin ▸ hz)
  refine ⟨s', t', he, h.put hself ht' (fun d hdc z hz ↦ ?_) (fun d z hz ↦ ?_) fun d z hz ↦ ?_, ?_⟩
  · refine hconf.links.agree z ?_
    rintro (rfl | hzc)
    · exact hx d hz
    · exact hdc (h.eq_of_mem hz hzc)
  · rw [howner]
    by_cases hzx : z = x
    · subst hzx
      by_cases hdc : d = c
      · rw [hdc, Function.update_self]
      · rw [Function.update_of_ne hdc] at hz
        exact absurd hz (hx d)
    · rw [Function.update_of_ne hzx]
      by_cases hdc : d = c
      · subst hdc
        rw [Function.update_self] at hz
        exact h.owner d z ((hmem' z hz).resolve_left hzx)
      · rw [Function.update_of_ne hdc] at hz
        exact h.owner d z hz
  · rw [howner] at hz
    by_cases hzx : z = x
    · subst hzx
      rw [Function.update_self, Option.some.injEq] at hz
      subst hz
      rw [Function.update_self]
      rcases hcase with hperm | ⟨-, href⟩
      · exact .inl (hperm.mem_iff.mpr List.mem_cons_self)
      · exact .inr ⟨href.left, href.right, href.parent⟩
    · rw [Function.update_of_ne hzx] at hz
      rcases h.refused d z hz with hzd | href
      · left
        by_cases hdc : d = c
        · subst hdc
          rw [Function.update_self]
          exact hmem z hzd
        · rwa [Function.update_of_ne hdc]
      · by_cases hzc : z ∈ (shape c).inorder
        · obtain rfl : d = c := Option.some.inj (hz.symm.trans (h.owner c z hzc))
          rw [Function.update_self]
          exact .inl (hmem z hzc)
        · have hout : z ∉ insert x {z | z ∈ (shape c).inorder} := by
            rintro (e | e)
            · exact hzx e
            · exact hzc e
          exact .inr (href.bare (hconf.links.agree z hout))
  · rw [← length_inorder, ← length_inorder]
    rcases hcase with hperm | ⟨hin, -⟩
    · rw [hperm.length_eq, List.length_cons]
    · rw [hin]
      omega

/-- The removal of an item that is on the tree. -/
theorem remove (hx : x ∈ (shape c).inorder) (hf : (shape c).numNodes ≤ fuel) (rebalance : Bool) :
    ∃ s' t', balancedBTreeRemove fuel (m.tree c) (some x) .locked rebalance = some s' ∧
      Sound (m.put s') (Function.update shape c t') ∧ t'.numNodes ≤ (shape c).numNodes := by
  obtain ⟨s', t', he, ht', hperm⟩ := remove_returns (h.holds c) hx (h.owner c x hx) hf rebalance
  have hconf := remove_confined (h.holds c).closedTree hx he
  obtain ⟨p, hs'⟩ := remove_frame he
  have hown : ownerRemoved (m.tree c) (some x) = Function.update m.owner x none :=
    if_neg (not_not.mpr (h.owner c x hx))
  have howner : s'.owner = Function.update m.owner x none := by rw [hs', ← hown]
  have hself : s'.self = c := by rw [hs']; rfl
  have hnodup : (x :: t'.inorder).Nodup := hperm.nodup_iff.mpr (h.holds c).nodup
  have hmem : ∀ z, z ≠ x → (z ∈ t'.inorder ↔ z ∈ (shape c).inorder) := fun z hzx ↦ by
    rw [← hperm.mem_iff, List.mem_cons, or_iff_right hzx]
  have hshape : ∀ d z, z ≠ x →
      (z ∈ (Function.update shape c t' d).inorder ↔ z ∈ (shape d).inorder) := by
    intro d z hzx
    by_cases hdc : d = c
    · rw [hdc, Function.update_self]
      exact hmem z hzx
    · rw [Function.update_of_ne hdc]
  refine ⟨s', t', he, h.put hself ht' (fun d hdc z hz ↦ ?_) (fun d z hz ↦ ?_) fun d z hz ↦ ?_, ?_⟩
  · exact hconf.links.agree z fun hzc ↦ hdc (h.eq_of_mem hz hzc)
  · have hzx : z ≠ x := by
      rintro rfl
      by_cases hdc : d = c
      · rw [hdc, Function.update_self] at hz
        exact (List.nodup_cons.mp hnodup).1 hz
      · rw [Function.update_of_ne hdc] at hz
        exact hdc (h.eq_of_mem hz hx)
    rw [howner, Function.update_of_ne hzx]
    exact h.owner d z ((hshape d z hzx).mp hz)
  · rw [howner] at hz
    have hzx : z ≠ x := by
      rintro rfl
      rw [Function.update_self] at hz
      cases hz
    rw [Function.update_of_ne hzx] at hz
    rw [hshape d z hzx]
    rcases h.refused d z hz with hzd | href
    · exact .inl hzd
    · by_cases hzc : z ∈ (shape c).inorder
      · obtain rfl : d = c := Option.some.inj (hz.symm.trans (h.owner c z hzc))
        exact .inl hzc
      · exact .inr (href.bare (hconf.links.agree z hzc))
  · rw [← length_inorder, ← length_inorder, ← hperm.length_eq, List.length_cons]
    omega

/-- The removal of a refused item whose parent field points to no item with a right
child. -/
theorem remove_refused (href : Refused (m.tree c) x) (hx : x ∉ (shape c).inorder)
    (hy : ∀ y ∈ m.parent x, ∀ d, y ∈ (shape d).inorder → m.right y = none)
    (hf : (shape c).numNodes + 1 ≤ fuel) (rebalance : Bool) :
    ∃ s' t', balancedBTreeRemove fuel (m.tree c) (some x) .locked rebalance = some s' ∧
      Sound (m.put s') (Function.update shape c t') ∧ t'.numNodes = (shape c).numNodes := by
  obtain ⟨y, hp⟩ := Option.isSome_iff_exists.mp href.parent
  have hout : ∀ d, x ∉ (shape d).inorder := fun d hd ↦ by
    obtain rfl : d = c := Option.some.inj ((h.owner d x hd).symm.trans href.owner)
    exact hx hd
  let cut : BalancedBTree ι K := { m.tree c with
    toPointers := unlinked (m.tree c) x
    owner := Function.update m.owner x none }
  have hlinks : ∀ d, (unlinked (m.tree d) x).toLinks = (unlinked (m.tree c) x).toLinks := by
    intro d
    have hd : ∀ d, (m.tree d).parent x = some y := fun _ ↦ hp
    simp only [unlinked, hd]
    rfl
  have hagree : ∀ d, m.toLinks.AgreeOn cut.toLinks (shape d).inorder := fun d ↦ by
    have hd := unlinked_agree (h.holds d) (hout d) hp (hy y hp d)
    rwa [hlinks d] at hd
  -- no tree notices that the item is unlinked
  have hmiddle : Sound (m.put cut) (Function.update shape c (shape c)) := by
    have hshape : Function.update shape c (shape c) = shape := Function.update_eq_self c shape
    refine h.put rfl (unlinked_holds (h.holds c) hx hp (hy y hp c))
      (fun d _ z hz ↦ fun w hw ↦ ?_) (fun d z hz ↦ ?_) fun d z hz ↦ ?_
    · rw [List.mem_singleton.mp hw]
      exact hagree d z hz
    · rw [hshape] at hz
      have hzx : z ≠ x := fun e ↦ hout d (e ▸ hz)
      exact (Function.update_of_ne hzx ..).trans (h.owner d z hz)
    · rw [hshape]
      have hzx : z ≠ x := by
        rintro rfl
        simp [cut] at hz
      have hzd : m.owner z = some d := (Function.update_of_ne hzx ..).symm.trans hz
      rcases h.refused d z hzd with hmem | hz'
      · exact .inl hmem
      · have hun := unlinked_refused hz' hzx
        refine .inr ⟨?_, ?_, ?_⟩
        · exact (congrFun (congrArg Links.left (hlinks d)) z).symm.trans hun.left
        · exact (congrFun (congrArg Links.right (hlinks d)) z).symm.trans hun.right
        · have hparent := congrFun (congrArg Links.parent (hlinks d)) z
          exact hparent ▸ hun.parent
  rw [Function.update_eq_self] at hmiddle
  have htree : (m.put cut).tree c = cut := by simp [Trees.put, Trees.tree, cut]
  obtain ⟨s', t', he, hsound, hsize⟩ := hmiddle.rebalanced (c := c) hf rebalance
  rw [htree] at he
  have hself : s'.self = c := by
    obtain ⟨p, rfl⟩ := rebalanceIf_frame he
    rfl
  have hput : (m.put cut).put s' = m.put s' := by
    simp [Trees.put, hself, cut, Trees.tree]
  exact ⟨s', t', (remove_refused_eq href fuel rebalance).trans he, hput ▸ hsound, hsize⟩

/-- A careful call returns, and the trees keep a shape. -/
theorem treeCall (keyCompare : K → K → ℤ) {call : TreeCall ι K} (hcareful : m.Careful c call)
    (hf : (shape c).numNodes + 2 ≤ fuel) :
    ∃ s' r t', BTree.treeCall keyCompare fuel (m.tree c) .locked call = some (s', r) ∧
      Sound (m.put s') (Function.update shape c t') ∧ t'.numNodes ≤ (shape c).numNodes + 1 := by
  have hrefl : ∃ t', Sound (m.put (m.tree c)) (Function.update shape c t') ∧
      t'.numNodes ≤ (shape c).numNodes + 1 :=
    ⟨shape c, by rwa [put_tree, Function.update_eq_self], by omega⟩
  have hf₀ : (shape c).numNodes ≤ fuel := by omega
  have hf₁ : (shape c).numNodes + 1 ≤ fuel := by omega
  cases call with
  | add item rebalance =>
      cases item with
      | none =>
          obtain ⟨s', t', he, hs', hsize⟩ := h.rebalanced hf₁ rebalance
          refine ⟨s', none, t', ?_, hs', by omega⟩
          simp only [BTree.treeCall, balancedBTreeAdd, enter, leave, Option.bind_eq_bind,
            Option.bind_some, Option.bind_fun_some, he, Option.map_some]
      | some x =>
          have hx : ∀ d, x ∉ (shape d).inorder := fun d hd ↦ hcareful d (h.onTree_iff.mpr hd)
          obtain ⟨s', t', he, hs', hsize⟩ := h.add keyCompare hx hf rebalance
          exact ⟨s', none, t', by rw [BTree.treeCall, he, Option.map_some], hs', hsize⟩
  | remove item rebalance =>
      cases item with
      | none =>
          obtain ⟨s', t', he, hs', hsize⟩ := h.rebalanced hf₁ rebalance
          refine ⟨s', none, t', ?_, hs', by omega⟩
          simp only [BTree.treeCall, balancedBTreeRemove, enter, Option.bind_eq_bind,
            Option.bind_some, Option.bind_fun_some, he, Option.map_some]
      | some x =>
          by_cases ho : m.owner x = some c
          · by_cases hx : x ∈ (shape c).inorder
            · obtain ⟨s', t', he, hs', hsize⟩ := h.remove hx hf₀ rebalance
              exact ⟨s', none, t', by rw [BTree.treeCall, he, Option.map_some], hs', by omega⟩
            · have href := (h.refused c x ho).resolve_left hx
              obtain ⟨s', t', he, hs', hsize⟩ := h.remove_refused href hx
                (fun y hy d hd ↦ hcareful ho (mt h.onTree_iff.mp hx) y hy d (h.onTree_iff.mpr hd))
                hf₁ rebalance
              exact ⟨s', none, t', by rw [BTree.treeCall, he, Option.map_some], hs', by omega⟩
          · have ho : (m.tree c).owner x ≠ some (m.tree c).self := ho
            obtain ⟨t', ht', hsize⟩ := hrefl
            refine ⟨m.tree c, none, t', ?_, ht', hsize⟩
            rw [BTree.treeCall, balancedBTreeRemove, if_pos ho, Option.map_some]
  | find key =>
      obtain ⟨t', ht', hsize⟩ := hrefl
      cases key with
      | none => exact ⟨m.tree c, none, t', rfl, ht', hsize⟩
      | some key =>
          obtain ⟨r, he⟩ := findLoop_returns keyCompare (s := m.tree c)
            (h.holds c).linked key fuel hf₀
          refine ⟨m.tree c, r, t', ?_, ht', hsize⟩
          rw [← (h.holds c).root_eq] at he
          simp only [BTree.treeCall, balancedBTreeFind, enter, leave, Option.bind_eq_bind,
            Option.bind_some, he]

end Sound

end Beirdobot.BTree
