import Beirdobot.BTree.Edits
import Mathlib.Data.Char
import Mathlib.Data.List.Lex

/-!
# Searching and adding in an ordered tree

The comparator is a strict total order on keys.  In a tree whose in-order list is
increasing, `balancedBTreeFind` is a search of that list, and
`balancedBTreeFindParent` ends below the hole where the new key belongs.
-/

namespace Beirdobot.BTree

open Library BinaryTree

variable {ι K : Type}

/-- A comparator that is negative, zero and positive as the keys of a strict
total order are. -/
structure StrictTotal (keyCompare : K → K → ℤ) : Prop where
  eq_zero : ∀ a b, keyCompare a b = 0 ↔ a = b
  swap : ∀ a b, 0 < keyCompare a b ↔ keyCompare b a < 0
  trans : ∀ a b c, keyCompare a b < 0 → keyCompare b c < 0 → keyCompare a c < 0

/-- The items have strictly increasing keys. -/
def Increasing (keyCompare : K → K → ℤ) (key : ι → K) (l : List ι) : Prop :=
  l.Pairwise fun x y ↦ keyCompare (key x) (key y) < 0

section Order

variable {keyCompare : K → K → ℤ} {key : ι → K} (hcmp : StrictTotal keyCompare)

include hcmp

theorem StrictTotal.irrefl (a : K) : ¬ keyCompare a a < 0 := by
  have h := (hcmp.eq_zero a a).mpr rfl
  omega

theorem StrictTotal.pos_of_ne {a b : K} (hne : a ≠ b) (h : ¬ keyCompare a b < 0) :
    0 < keyCompare a b := by
  have h0 : keyCompare a b ≠ 0 := mt (hcmp.eq_zero a b).mp hne
  omega

theorem Increasing.nodup {l : List ι} (h : Increasing keyCompare key l) : l.Nodup :=
  List.Pairwise.imp (S := (· ≠ ·)) (fun h e ↦ hcmp.irrefl _ (e ▸ h)) h

end Order

theorem keyCompareString_neg {l r : CString} : keyCompareString l r < 0 ↔ l < r := by
  unfold keyCompareString
  split
  · rename_i h
    subst h
    simp
  · split
    · simpa
    · rename_i hlt
      simpa using le_of_not_gt hlt

theorem keyCompareString_strictTotal : StrictTotal keyCompareString where
  eq_zero l r := by
    unfold keyCompareString
    split
    · simpa
    · split <;> simpa
  swap l r := by
    rw [keyCompareString_neg]
    unfold keyCompareString
    split
    · rename_i h
      subst h
      simp
    · rename_i h
      split
      · rename_i hlt
        simpa using List.lt_asymm hlt
      · rename_i hlt
        simpa using (lt_or_gt_of_ne h).resolve_left hlt
  trans l m r := by
    simp only [keyCompareString_neg]
    exact List.lt_trans

theorem keyCompareInt_neg {l r : ℤ} : keyCompareInt l r < 0 ↔ l < r := by
  unfold keyCompareInt
  split
  · omega
  · split <;> omega

theorem keyCompareInt_strictTotal : StrictTotal keyCompareInt where
  eq_zero l r := by
    unfold keyCompareInt
    split
    · omega
    · split <;> omega
  swap l r := by
    rw [keyCompareInt_neg]
    unfold keyCompareInt
    split
    · omega
    · split <;> omega
  trans l m r := by
    simp only [keyCompareInt_neg]
    exact Int.lt_trans

theorem increasing_node {keyCompare : K → K → ℤ} {key : ι → K} {x : ι} {l r : BinaryTree ι} :
    Increasing keyCompare key (node x l r).inorder ↔
      Increasing keyCompare key l.inorder ∧ Increasing keyCompare key r.inorder ∧
        (∀ y ∈ l.inorder, keyCompare (key y) (key x) < 0) ∧
        (∀ z ∈ r.inorder, keyCompare (key x) (key z) < 0) ∧
        ∀ y ∈ l.inorder, ∀ z ∈ r.inorder, keyCompare (key y) (key z) < 0 := by
  rw [Increasing, inorder_node, List.pairwise_append, List.pairwise_cons]
  simp only [List.mem_cons, forall_eq_or_imp, Increasing]
  constructor
  · rintro ⟨hl, ⟨hx, hr⟩, h⟩
    exact ⟨hl, hr, fun y hy ↦ (h y hy).1, hx, fun y hy ↦ (h y hy).2⟩
  · rintro ⟨hl, hr, hlx, hx, h⟩
    exact ⟨hl, ⟨hx, hr⟩, fun y hy ↦ ⟨hlx y hy, h y hy⟩⟩

/-- The loop of `balancedBTreeFind` finds the item with the key, if there is one. -/
theorem findLoop_eq {keyCompare : K → K → ℤ} (hcmp : StrictTotal keyCompare)
    {s : BalancedBTree ι K} {q : Option ι} {t : BinaryTree ι} (ht : Linked s.toLinks q t)
    (hs : Increasing keyCompare s.key t.inorder) (k : K) (fuel : ℕ) (hf : t.numNodes ≤ fuel) :
    ∃ r, findLoop keyCompare s k fuel t.top = some r ∧
      ∀ x, r = some x ↔ x ∈ t.inorder ∧ s.key x = k := by
  induction t generalizing q fuel with
  | nil => exact ⟨none, by cases fuel <;> rfl, by simp⟩
  | node x l r ihl ihr =>
      obtain ⟨-, hl, hr, htl, htr⟩ := ht
      obtain ⟨hsl, hsr, hlx, hxr, -⟩ := increasing_node.mp hs
      cases fuel with
      | zero => simp at hf
      | succ fuel =>
          simp only [numNodes] at hf
          simp only [top_node, findLoop, hl, hr]
          split
          · rename_i h
            obtain rfl := (hcmp.eq_zero _ _).mp h
            refine ⟨some x, rfl, fun y ↦ ?_⟩
            simp only [Option.some.injEq, inorder_node, List.mem_append, List.mem_cons]
            constructor
            · rintro rfl
              exact ⟨.inr (.inl rfl), rfl⟩
            · rintro ⟨hy | rfl | hy, e⟩
              · exact absurd (hlx y hy) (by rw [e]; exact hcmp.irrefl _)
              · rfl
              · exact absurd (hxr y hy) (by rw [e]; exact hcmp.irrefl _)
          · rename_i h0
            split
            · rename_i h
              obtain ⟨r', he, hr'⟩ := ihl htl hsl fuel (by omega)
              refine ⟨r', he, fun y ↦ (hr' y).trans ?_⟩
              simp only [inorder_node, List.mem_append, List.mem_cons]
              refine ⟨fun ⟨hy, e⟩ ↦ ⟨.inl hy, e⟩, fun ⟨hy, e⟩ ↦ ⟨?_, e⟩⟩
              rcases hy with hy | rfl | hy
              · exact hy
              · exact absurd h (by rw [e]; exact hcmp.irrefl _)
              · exact absurd (hcmp.trans _ _ _ h (hxr y hy)) (by rw [e]; exact hcmp.irrefl _)
            · rename_i h
              have hpos : keyCompare (s.key x) k < 0 :=
                (hcmp.swap _ _).mp (by omega)
              obtain ⟨r', he, hr'⟩ := ihr htr hsr fuel (by omega)
              refine ⟨r', he, fun y ↦ (hr' y).trans ?_⟩
              simp only [inorder_node, List.mem_append, List.mem_cons]
              refine ⟨fun ⟨hy, e⟩ ↦ ⟨.inr (.inr hy), e⟩, fun ⟨hy, e⟩ ↦ ⟨?_, e⟩⟩
              rcases hy with hy | rfl | hy
              · exact absurd (hcmp.trans _ _ _ (hlx y hy) hpos) (by rw [e]; exact hcmp.irrefl _)
              · exact absurd hpos (by rw [e]; exact hcmp.irrefl _)
              · exact hy

/-- The loop of `balancedBTreeFindParent` ends at the hole after the keys that are
not greater. -/
theorem findParentLoop_hole {keyCompare : K → K → ℤ} (hcmp : StrictTotal keyCompare)
    {s : BalancedBTree ι K} {c : Path ι} {t : BinaryTree ι} {k : K}
    (ht : Linked s.toLinks (holeParent c) t) (hs : Increasing keyCompare s.key t.inorder)
    (hb : ∀ y ∈ before c, ¬ keyCompare k (s.key y) < 0)
    (ha : ∀ z ∈ after c, keyCompare k (s.key z) < 0) (fuel : ℕ) (hf : t.numNodes ≤ fuel) :
    ∃ c', plug c' nil = plug c t ∧
      findParentLoop keyCompare s k fuel (holeParent c) t.top = some (holeParent c') ∧
      (∀ y ∈ before c', ¬ keyCompare k (s.key y) < 0) ∧
      ∀ z ∈ after c', keyCompare k (s.key z) < 0 := by
  induction t generalizing c fuel with
  | nil => exact ⟨c, rfl, by cases fuel <;> rfl, hb, ha⟩
  | node x l r ihl ihr =>
      obtain ⟨-, hl, hr, htl, htr⟩ := ht
      obtain ⟨hsl, hsr, hlx, hxr, -⟩ := increasing_node.mp hs
      cases fuel with
      | zero => simp at hf
      | succ fuel =>
          simp only [numNodes] at hf
          simp only [top_node, findParentLoop, hl, hr]
          by_cases h : keyCompare k (s.key x) < 0
          · have ha' : ∀ z ∈ after (.left x r :: c), keyCompare k (s.key z) < 0 := by
              intro z hz
              simp only [after, List.cons_append, List.mem_cons, List.mem_append] at hz
              rcases hz with rfl | hz | hz
              · exact h
              · exact hcmp.trans _ _ _ h (hxr z hz)
              · exact ha z hz
            rw [if_pos h]
            exact ihl (c := .left x r :: c) htl hsl hb ha' fuel (by omega)
          · have hb' : ∀ y ∈ before (.right l x :: c), ¬ keyCompare k (s.key y) < 0 := by
              intro y hy
              simp only [before, List.mem_append, List.mem_singleton] at hy
              rcases hy with hy | hy | rfl
              · exact hb y hy
              · exact fun hlt ↦ h (hcmp.trans _ _ _ hlt (hlx y hy))
              · exact h
            rw [if_neg h]
            exact ihr (c := .right l x :: c) htr hsr hb' ha fuel (by omega)

/-- For a new key the smaller keys are before the hole and the greater ones after it. -/
theorem findParentLoop_eq {keyCompare : K → K → ℤ} (hcmp : StrictTotal keyCompare)
    {s : BalancedBTree ι K} {t : BinaryTree ι} {k : K} (ht : Linked s.toLinks none t)
    (hs : Increasing keyCompare s.key t.inorder) (hk : ∀ y ∈ t.inorder, s.key y ≠ k) (fuel : ℕ)
    (hf : t.numNodes ≤ fuel) :
    ∃ c', plug c' nil = t ∧
      findParentLoop keyCompare s k fuel none t.top = some (holeParent c') ∧
      (∀ y ∈ before c', keyCompare (s.key y) k < 0) ∧
      ∀ z ∈ after c', keyCompare k (s.key z) < 0 := by
  obtain ⟨c', hplug, he, hb, ha⟩ := findParentLoop_hole hcmp (c := []) ht hs (by simp [before])
    (by simp [after]) fuel hf
  rw [plug_nil] at hplug
  refine ⟨c', hplug, he, fun y hy ↦ ?_, ha⟩
  have hmem : y ∈ t.inorder := by
    rw [← hplug, inorder_plug]
    simp [hy]
  exact (hcmp.swap _ _).mp (hcmp.pos_of_ne (hk y hmem).symm (hb y hy))

/-! ## Adding and removing -/

/-- Entering locks the mutex unless the caller has. -/
theorem enter_eq {s : BalancedBTree ι K} {lock : Locked}
    (h : lock = .unlocked → s.mutex = false) :
    enter s lock = some { s with mutex := s.mutex || lock == .unlocked } := by
  cases lock with
  | unlocked => simp [enter, balancedBTreeLock, h rfl]
  | locked => simp [enter, show (Locked.locked == Locked.unlocked) = false from rfl]

theorem leave_eq (s : BalancedBTree ι K) (lock : Locked) :
    leave s lock = { s with mutex := s.mutex && lock == .locked } := by
  cases lock with
  | unlocked =>
      simp [leave, balancedBTreeUnlock, show (Locked.unlocked == Locked.locked) = false from rfl]
  | locked => simp [leave]

/-- After entering and leaving, the mutex is as it was. -/
theorem mutex_enter_leave {s : BalancedBTree ι K} {lock : Locked}
    (h : lock = .unlocked → s.mutex = false) :
    ((s.mutex || lock == .unlocked) && lock == .locked) = s.mutex := by
  cases lock with
  | unlocked => rw [h rfl]; rfl
  | locked => simp [show (Locked.locked == Locked.unlocked) = false from rfl]

variable [DecidableEq ι]

theorem rebalanceIf_holds {s : BalancedBTree ι K} {t : BinaryTree ι} (hs : Holds s.toPointers t)
    (rebalance : Bool) (fuel : ℕ) (hf : t.numNodes + 1 ≤ fuel) :
    ∃ p t', rebalanceIf fuel s rebalance = some { s with toPointers := p } ∧ Holds p t' ∧
      t'.inorder = t.inorder ∧ (rebalance = true → t'.Balanced) := by
  cases rebalance with
  | false => exact ⟨s.toPointers, t, rfl, hs, rfl, by simp⟩
  | true =>
      obtain ⟨p, t', he, hp, hi, hb⟩ := rebalance_holds fuel (c := []) hs
        (Nat.le_trans (rebalanceFuel_le t) hf)
      refine ⟨p, t', ?_, hp, hi, fun _ ↦ hb⟩
      rw [rebalanceIf, if_pos rfl, hs.root_eq, he]
      rfl

/-- The pointers once `item` is linked in the hole of the path. -/
def attach (s : Pointers ι) (item : ι) (c : Path ι) : Pointers ι where
  toLinks := (s.setParent item (holeParent c)).setHole c (some item)
  root := holeTop c (some item)

/-- Linking an item without children makes it a leaf. -/
theorem attach_holds {s : Pointers ι} {c : Path ι} {item : ι} (hs : Holds s (plug c nil))
    (hx : item ∉ (plug c nil).inorder) (hl : s.left item = none) (hr : s.right item = none) :
    Holds (attach s item c) (plug c (node item nil nil)) := by
  obtain ⟨-, hc, -⟩ := hs.plug
  obtain ⟨hnc, -, -⟩ := nodup_plug.mp hs.nodup
  have hxc : item ∉ before c ++ after c := fun e ↦ hx (mem_inorder_plug.mpr (.inr e))
  have hparent : some item ≠ holeParent c := by
    rcases c with _ | ⟨⟨y, r⟩ | ⟨l, y⟩, c⟩
    · simp [holeParent]
    · have hy : item ≠ y := fun e ↦ hxc (by simp [after, e])
      simpa [holeParent] using hy
    · have hy : item ≠ y := fun e ↦ hxc (by simp [before, e])
      simpa [holeParent] using hy
  have hc' : LinkedPath (s.setParent item (holeParent c)) c none := hc.congr fun z hz ↦ by
    have hzx : z ≠ item := fun e ↦ hxc (e ▸ hz)
    simp [hzx]
  have hnode : Linked (s.setParent item (holeParent c)) (holeParent c) (node item nil nil) :=
    ⟨by simp, by simpa, by simpa, trivial, trivial⟩
  refine ⟨by rw [top_plug]; rfl, linked_plug.mpr ⟨hc'.setHole hnc (some item), ?_⟩,
    nodup_plug.mpr ⟨hnc, by simp, by simpa using hxc⟩⟩
  exact hnode.congr (Links.agreeOn_setHole _ _ (by simpa using hparent))

/-- With the smaller keys before the hole and the greater ones after it, the
comparison with the parent links the item in the hole. -/
theorem linkItem_eq {keyCompare : K → K → ℤ} (hcmp : StrictTotal keyCompare)
    {s : BalancedBTree ι K} {c : Path ι} {item : ι} (hroot : s.root = holeTop c none)
    (hb : ∀ y ∈ before c, keyCompare (s.key y) (s.key item) < 0)
    (ha : ∀ z ∈ after c, keyCompare (s.key item) (s.key z) < 0) :
    linkItem keyCompare s item (holeParent c) =
      { s with toPointers := attach s.toPointers item c } := by
  rcases c with _ | ⟨⟨y, r⟩ | ⟨l, y⟩, c⟩
  · rfl
  · have hy := ha y (by simp [after])
    have hy' : ¬ 0 < keyCompare (s.key item) (s.key y) := by omega
    simp only [linkItem, holeParent, attach, Links.setHole, if_neg hy', if_pos hy, hroot, holeTop]
  · have hy := (hcmp.swap _ _).mpr (hb y (by simp [before]))
    simp only [linkItem, holeParent, attach, Links.setHole, if_pos hy, hroot, holeTop]

/-- Up to its rebalancing, `balancedBTreeAdd` makes the item a leaf in the hole
where its key belongs. -/
theorem add_holds {keyCompare : K → K → ℤ} (hcmp : StrictTotal keyCompare)
    {s : BalancedBTree ι K} {t : BinaryTree ι} {item : ι}
    (hs : Holds s.toPointers t) (hi : Increasing keyCompare s.key t.inorder)
    (hx : item ∉ t.inorder) (hk : ∀ y ∈ t.inorder, s.key y ≠ s.key item) (lock : Locked)
    (hlock : lock = .unlocked → s.mutex = false) (rebalance : Bool) (fuel : ℕ)
    (hf : t.numNodes + 2 ≤ fuel) :
    ∃ c p t', t = plug c nil ∧
      balancedBTreeAdd keyCompare fuel s (some item) lock rebalance = some { s with
        toPointers := p
        owner := Function.update s.owner item (some s.self) } ∧
      Holds p t' ∧ t'.inorder = before c ++ item :: after c ∧
      Increasing keyCompare s.key t'.inorder ∧ (rebalance = true → t'.Balanced) := by
  let s₁ : BalancedBTree ι K := { s with
    mutex := s.mutex || lock == .unlocked
    owner := Function.update s.owner item (some s.self)
    toLinks := (s.toLinks.setLeft item none).setRight item none }
  have hs₁ : Holds s₁.toPointers t := hs.congr rfl fun z hz ↦ by
    have hzx : z ≠ item := fun e ↦ hx (e ▸ hz)
    simp [s₁, hzx]
  obtain ⟨c, rfl, hfind, hb, ha⟩ := findParentLoop_eq hcmp (s := s₁) hs₁.linked hi hk fuel
    (by omega)
  have hlink := linkItem_eq hcmp (s := s₁) (hs₁.plug).1 hb ha
  have hat := attach_holds hs₁ hx (by simp [s₁]) (by simp [s₁])
  have hin : (plug c (node item nil nil)).inorder = before c ++ item :: after c := by
    rw [inorder_plug]; simp
  have hsize : (plug c (node item nil nil)).numNodes = (plug c (nil : BinaryTree ι)).numNodes + 1 := by
    rw [← length_inorder, ← length_inorder, inorder_plug, inorder_plug]
    simp; omega
  obtain ⟨p, t', he, hp, hi', hbal⟩ := rebalanceIf_holds
    (s := { s₁ with toPointers := attach s₁.toPointers item c }) hat rebalance fuel
    (by omega)
  refine ⟨c, p, t', rfl, ?_, hp, hi'.trans hin, ?_, hbal⟩
  · have hfind' : balancedBTreeFindParent keyCompare fuel s₁ item = some (holeParent c) := by
      rw [balancedBTreeFindParent, hs₁.root_eq]; exact hfind
    have he' : rebalanceIf fuel (linkItem keyCompare s₁ item (holeParent c)) rebalance =
        some { s₁ with toPointers := p } := by rw [hlink]; exact he
    simp only [balancedBTreeAdd, enter_eq hlock, Option.bind_eq_bind, Option.bind_some]
    change ((balancedBTreeFindParent keyCompare fuel s₁ item).bind _) = _
    rw [hfind', Option.bind_some, he', Option.bind_some, leave_eq]
    simp only [s₁, mutex_enter_leave hlock]
  · rw [hi', hin]
    have hi := hi
    simp only [Increasing, inorder_plug, inorder_nil, List.append_nil, List.pairwise_append,
      List.pairwise_cons] at hi ⊢
    refine ⟨hi.1, ⟨ha, hi.2.1⟩, fun y hy z hz ↦ ?_⟩
    rcases List.mem_cons.mp hz with rfl | hz
    · exact hb y hy
    · exact hi.2.2 y hy z hz

/-- Up to its rebalancing, `balancedBTreeRemove` joins the subtrees of the item
where the item was. -/
theorem remove_holds {s : BalancedBTree ι K} {c : Path ι} {item : ι} {l r : BinaryTree ι}
    (hs : Holds s.toPointers (plug c (node item l r))) (howner : s.owner item = some s.self)
    (lock : Locked) (hlock : lock = .unlocked → s.mutex = false) (rebalance : Bool) (fuel : ℕ)
    (hf : (plug c (node item l r)).numNodes ≤ fuel) :
    ∃ p t', balancedBTreeRemove fuel s (some item) lock rebalance = some { s with
        toPointers := p
        owner := Function.update s.owner item none } ∧
      Holds p t' ∧ t'.inorder = before c ++ (l.inorder ++ r.inorder) ++ after c ∧
      (rebalance = true → t'.Balanced) := by
  obtain ⟨-, -, -, hl, hr, hL, hR⟩ := hs.plug
  have hsize : (plug c (node item l r)).numNodes =
      (before c).length + (l.numNodes + 1 + r.numNodes) + (after c).length := by
    rw [← length_inorder, inorder_plug]
    simp; omega
  obtain ⟨p₁, hrep, hs₁⟩ := replace_holds hs
  have hin : (plug c (join l r)).inorder = before c ++ (l.inorder ++ r.inorder) ++ after c := by
    rw [inorder_plug, inorder_join]
  obtain ⟨p, t', he, hp, hi, hb⟩ := rebalanceIf_holds (s := { s with
      mutex := s.mutex || lock == .unlocked
      toPointers := p₁
      owner := Function.update s.owner item none }) hs₁ rebalance fuel (by
    rw [← length_inorder, hin]; simp; omega)
  refine ⟨p, t', ?_, hp, hi.trans hin, hb⟩
  have hwl := weight_eq hL fuel (by omega)
  have hwr := weight_eq hR fuel (by omega)
  rw [← hl] at hwl
  rw [← hr] at hwr
  by_cases hw : r.numNodes < l.numNodes
  · have hfind : balancedBTreeFindGreatest s.toLinks fuel (s.left item) =
        some (replacement l r) := by
      cases l with
      | nil => simp at hw
      | node a m t =>
          simp only [replacement, if_pos hw]
          rw [hl]
          exact findGreatest_eq hL fuel (by omega)
    simp only [balancedBTreeRemove, howner, ne_eq, not_true_eq_false, if_false, enter_eq hlock,
      Option.bind_eq_bind, Option.bind_some, hwl, hwr, if_pos hw, hfind, hrep, he, leave_eq,
      mutex_enter_leave hlock]
  · have hfind : balancedBTreeFindLeast s.toLinks fuel (s.right item) =
        some (replacement l r) := by
      cases r with
      | nil =>
          simp only [replacement, if_neg hw]
          rw [hr]
          cases fuel <;> rfl
      | node a m t =>
          simp only [replacement, if_neg hw]
          rw [hr]
          exact findLeast_eq hR fuel (by omega)
    simp only [balancedBTreeRemove, howner, ne_eq, not_true_eq_false, if_false, enter_eq hlock,
      Option.bind_eq_bind, Option.bind_some, hwl, hwr, if_neg hw, hfind, hrep, he, leave_eq,
      mutex_enter_leave hlock]

end Beirdobot.BTree
