import Beirdobot.BTree.Frame
import Beirdobot.BTree.Runs
import Beirdobot.Library.Circle

/-!
# Keys that are machine words

`KeyCompareInt` and `KeyComparePthread` as the machine computes them, where the
subtraction wraps.  They order a set of keys exactly when the keys lie in one half
of the circle; then a tree of such keys finds every item that was added to it,
since the tree compares no other keys than those of its own items.
-/

namespace Beirdobot.BTree.Keys

open Library BinaryTree

/-- The lines that `KeyCompareInt` and `KeyComparePthread` share; a null pointer
compares equal to everything. -/
def keyCompareWords {w : ℕ} (left right : Option (BitVec w)) : ℤ :=
  match left, right with
  | some l, some r =>
      let res := (l - r).toInt
      if 1 < res then 1 else if res < -1 then -1 else res
  | _, _ => 0

/-- `KeyCompareInt` -/
def keyCompareInt (left right : Option (BitVec 32)) : ℤ := keyCompareWords left right

/-- `KeyComparePthread`, on the 64 bits of a `pthread_t`. -/
def keyComparePthread (left right : Option (BitVec 64)) : ℤ := keyCompareWords left right

/-- A `keyCompare` on the keys themselves. -/
def onKeys {K : Type} (compare : Option K → Option K → ℤ) (l r : K) : ℤ :=
  compare (some l) (some r)

/-- The laws of a strict total order, for the keys of `S`. -/
structure OrdersOn {K : Type} (keyCompare : K → K → ℤ) (S : Set K) : Prop where
  eq_zero : ∀ a ∈ S, ∀ b ∈ S, keyCompare a b = 0 ↔ a = b
  swap : ∀ a ∈ S, ∀ b ∈ S, 0 < keyCompare a b ↔ keyCompare b a < 0
  trans : ∀ a ∈ S, ∀ b ∈ S, ∀ c ∈ S, keyCompare a b < 0 → keyCompare b c < 0 → keyCompare a c < 0

/-- The key a call brings, if it brings one, is in `S`. -/
def Brings {ι K : Type} (S : Set K) : Op ι K → Prop
  | .add _ key _ _ => key ∈ S
  | _ => True

/-- In every tree that is reached with keys of `S`, a search for the key of an item
that was added and not removed returns that item. -/
def FindsOn {K : Type} [DecidableEq K] (keyCompare : K → K → ℤ) (S : Set K) : Prop :=
  ∀ (ι : Type) [DecidableEq ι] (s : State ι K),
    (system ι K keyCompare).ReachableVia (fun _ e ↦ Brings S e.2) s →
      ∀ x ∈ s.linked, ∀ lock fuel, s.linked.length ≤ fuel →
        (lock = .unlocked → s.tree.mutex = false) →
        balancedBTreeFind keyCompare fuel s.tree (some (s.tree.key x)) lock =
          some (s.tree, some x)

/-! ## The sign of a difference -/

section Words

variable {w : ℕ} {a b c : BitVec w}

theorem keyCompareWords_neg : onKeys keyCompareWords a b < 0 ↔ (a - b).toInt < 0 := by
  simp only [onKeys, keyCompareWords]
  split
  · omega
  · split <;> omega

theorem keyCompareWords_pos : 0 < onKeys keyCompareWords a b ↔ 0 < (a - b).toInt := by
  simp only [onKeys, keyCompareWords]
  split
  · omega
  · split <;> omega

theorem keyCompareWords_eq_zero : onKeys keyCompareWords a b = 0 ↔ (a - b).toInt = 0 := by
  have hneg := keyCompareWords_neg (a := a) (b := b)
  have hpos := keyCompareWords_pos (a := a) (b := b)
  omega

/-- Keys that are not negative, such as ids and times, are compared as numbers are. -/
theorem keyCompareInt_of_nonneg {l r : BitVec 32} (hl : 0 ≤ l.toInt) (hr : 0 ≤ r.toInt) :
    keyCompareInt (some l) (some r) = BTree.keyCompareInt l.toInt r.toInt := by
  have hsub : (l - r).toInt = l.toInt - r.toInt := by
    have hl' := half_of_nonneg hl
    have hr' := half_of_nonneg hr
    rw [toInt_sub_of_half (c := 0) (by simpa using hl') (by simpa using hr'),
      BitVec.toInt_eq_toNat_of_lt hl', BitVec.toInt_eq_toNat_of_lt hr']
    simp
  simp only [keyCompareInt, keyCompareWords, BTree.keyCompareInt, hsub]

/-- The order of the words from `c` on, as numbers. -/
def compareAfter (c l r : BitVec w) : ℤ := (l - c).toNat - (r - c).toNat

theorem compareAfter_strictTotal (c : BitVec w) : StrictTotal (compareAfter c) where
  eq_zero l r := by
    rw [compareAfter, Int.sub_eq_zero, Int.natCast_inj, BitVec.toNat_inj]
    constructor
    · intro h
      have hadd := congrArg (· + c) h
      simpa only [BitVec.sub_add_cancel] using hadd
    · rintro rfl
      rfl
  swap l r := by
    simp only [compareAfter]
    omega
  trans l m r := by
    simp only [compareAfter]
    omega

/-- In a half circle the two comparisons have the same sign. -/
theorem compare_half (ha : 2 * (a - c).toNat < 2 ^ w) (hb : 2 * (b - c).toNat < 2 ^ w) :
    (onKeys keyCompareWords a b < 0 ↔ compareAfter c a b < 0) ∧
    (onKeys keyCompareWords a b = 0 ↔ compareAfter c a b = 0) := by
  rw [keyCompareWords_neg, keyCompareWords_eq_zero, toInt_sub_of_half ha hb]
  exact ⟨Iff.rfl, Iff.rfl⟩

/-- The comparison orders exactly the sets of keys that lie in a half circle. -/
theorem ordersOn_iff {S : Set (BitVec w)} :
    OrdersOn (onKeys keyCompareWords) S ↔ HalfCircle S := by
  constructor
  · intro h
    refine halfCircle_of_trans fun a ha b hb c hc hab hbc ↦ ?_
    rw [← keyCompareWords_neg] at hab hbc ⊢
    exact h.trans a ha b hb c hc hab hbc
  · rintro ⟨c, hc⟩
    have hcmp := compareAfter_strictTotal c
    refine ⟨fun a ha b hb ↦ ?_, fun a ha b hb ↦ ?_, fun a ha b hb d hd ↦ ?_⟩
    · rw [(compare_half (hc a ha) (hc b hb)).2]
      exact hcmp.eq_zero a b
    · have hab := compare_half (hc a ha) (hc b hb)
      have hba := compare_half (hc b hb) (hc a ha)
      have hsw := hcmp.swap a b
      omega
    · rw [(compare_half (hc a ha) (hc b hb)).1, (compare_half (hc b hb) (hc d hd)).1,
        (compare_half (hc a ha) (hc d hd)).1]
      exact hcmp.trans a b d

end Words

/-! ## Trees that only see some of the keys -/

section Congr

variable {ι K : Type} {cmp cmp' : K → K → ℤ}

/-- Two comparisons that order the keys of `S` in the same way. -/
def AgreeOn (cmp cmp' : K → K → ℤ) (S : Set K) : Prop :=
  ∀ a ∈ S, ∀ b ∈ S, (cmp a b < 0 ↔ cmp' a b < 0) ∧ (cmp a b = 0 ↔ cmp' a b = 0)

theorem findLoop_congr {S : Set K} (hcmp : AgreeOn cmp cmp' S) {s : BalancedBTree ι K}
    {q : Option ι} {t : BinaryTree ι} (ht : Linked s.toLinks q t)
    (hk : ∀ y ∈ t.inorder, s.key y ∈ S) {key : K} (hkey : key ∈ S) (fuel : ℕ) :
    findLoop cmp s key fuel t.top = findLoop cmp' s key fuel t.top := by
  induction t generalizing q fuel with
  | nil => cases fuel <;> rfl
  | node x l r ihl ihr =>
      obtain ⟨-, hl, hr, htl, htr⟩ := ht
      simp only [inorder_node, List.mem_append, List.mem_cons] at hk
      cases fuel with
      | zero => rfl
      | succ fuel =>
          obtain ⟨hneg, hzero⟩ := hcmp key hkey (s.key x) (hk x (.inr (.inl rfl)))
          simp only [top_node, findLoop, hneg, hzero, hl, hr,
            ihl htl (fun y hy ↦ hk y (.inl hy)) fuel,
            ihr htr (fun y hy ↦ hk y (.inr (.inr hy))) fuel]

theorem findParentLoop_congr {S : Set K} (hcmp : AgreeOn cmp cmp' S) {s : BalancedBTree ι K}
    {q : Option ι} {t : BinaryTree ι} (ht : Linked s.toLinks q t)
    (hk : ∀ y ∈ t.inorder, s.key y ∈ S) {key : K} (hkey : key ∈ S) (fuel : ℕ)
    (prev : Option ι) :
    findParentLoop cmp s key fuel prev t.top = findParentLoop cmp' s key fuel prev t.top := by
  induction t generalizing q fuel prev with
  | nil => cases fuel <;> rfl
  | node x l r ihl ihr =>
      obtain ⟨-, hl, hr, htl, htr⟩ := ht
      simp only [inorder_node, List.mem_append, List.mem_cons] at hk
      cases fuel with
      | zero => rfl
      | succ fuel =>
          have hneg := (hcmp key hkey (s.key x) (hk x (.inr (.inl rfl)))).1
          simp only [top_node, findParentLoop, hneg, hl, hr,
            ihl htl (fun y hy ↦ hk y (.inl hy)) fuel,
            ihr htr (fun y hy ↦ hk y (.inr (.inr hy))) fuel]

/-- The parent that is found is an item of the tree. -/
theorem findParentLoop_mem {s : BalancedBTree ι K} {q : Option ι} {t : BinaryTree ι}
    (ht : Linked s.toLinks q t) {key : K} {fuel : ℕ} {prev : Option ι} {p : ι}
    (h : findParentLoop cmp s key fuel prev t.top = some (some p)) :
    prev = some p ∨ p ∈ t.inorder := by
  induction t generalizing q fuel prev with
  | nil =>
      have hp : some prev = some (some p) := by cases fuel <;> exact h
      exact .inl (Option.some.inj hp)
  | node x l r ihl ihr =>
      obtain ⟨-, hl, hr, htl, htr⟩ := ht
      cases fuel with
      | zero => cases h
      | succ fuel =>
          right
          simp only [inorder_node, List.mem_append, List.mem_cons]
          simp only [top_node, findParentLoop, hl, hr] at h
          split at h
          · rcases ihl htl h with hx | hp
            · exact .inr (.inl (Option.some.inj hx).symm)
            · exact .inl hp
          · rcases ihr htr h with hx | hp
            · exact .inr (.inl (Option.some.inj hx).symm)
            · exact .inr (.inr hp)

variable [DecidableEq ι]

theorem linkItem_congr {S : Set K} (hcmp : AgreeOn cmp cmp' S) {s : BalancedBTree ι K} {item : ι}
    {parent : Option ι} (hi : s.key item ∈ S) (hp : ∀ p, parent = some p → s.key p ∈ S) :
    linkItem cmp s item parent = linkItem cmp' s item parent := by
  cases parent with
  | none => rfl
  | some p =>
      obtain ⟨hlt, hzero⟩ := hcmp _ hi _ (hp p rfl)
      have hgt : 0 < cmp (s.key item) (s.key p) ↔ 0 < cmp' (s.key item) (s.key p) := by omega
      simp only [linkItem, hlt, hgt]

/-- An addition compares the new key with the keys of the tree only. -/
theorem add_congr {S : Set K} (hcmp : AgreeOn cmp cmp' S) {s : BalancedBTree ι K}
    {t : BinaryTree ι} {item : ι} (hs : Holds s.toPointers t) (hx : item ∉ t.inorder)
    (hk : ∀ y ∈ t.inorder, s.key y ∈ S) (hi : s.key item ∈ S) (lock : Locked)
    (rebalance : Bool) (fuel : ℕ) :
    balancedBTreeAdd cmp fuel s (some item) lock rebalance =
      balancedBTreeAdd cmp' fuel s (some item) lock rebalance := by
  rw [balancedBTreeAdd, balancedBTreeAdd]
  refine Option.bind_congr fun s₁ he ↦ ?_
  obtain ⟨hp₁, hk₁⟩ : s₁.toPointers = s.toPointers ∧ s₁.key = s.key := by
    cases lock with
    | locked =>
        cases he
        exact ⟨rfl, rfl⟩
    | unlocked =>
        simp only [enter, balancedBTreeLock] at he
        split at he
        · cases he
        · cases he
          exact ⟨rfl, rfl⟩
  let s₂ : BalancedBTree ι K := { s₁ with
    owner := Function.update s₁.owner item (some s₁.self)
    toLinks := (s₁.toLinks.setLeft item none).setRight item none }
  have hs₂ : Holds s₂.toPointers t := by
    rw [← hp₁] at hs
    refine hs.congr rfl fun z hz ↦ ?_
    have hzx : z ≠ item := fun e ↦ hx (e ▸ hz)
    simp [s₂, hzx]
  rw [← hk₁] at hk hi
  have hfind : balancedBTreeFindParent cmp fuel s₂ item =
      balancedBTreeFindParent cmp' fuel s₂ item := by
    rw [balancedBTreeFindParent, balancedBTreeFindParent, hs₂.root_eq]
    exact findParentLoop_congr hcmp hs₂.linked hk hi fuel none
  refine Option.bind_congr' hfind fun parent hp ↦ ?_
  have hlink : linkItem cmp s₂ item parent = linkItem cmp' s₂ item parent := by
    refine linkItem_congr hcmp hi fun p hpar ↦ hk p ?_
    subst hpar
    have hloop : findParentLoop cmp' s₂ (s₂.key item) fuel none t.top = some (some p) := by
      rw [← hs₂.root_eq]
      exact hp
    exact (findParentLoop_mem hs₂.linked hloop).resolve_left (by simp)
  show (rebalanceIf fuel (linkItem cmp s₂ item parent) rebalance).bind _ = _
  rw [hlink]
  rfl

end Congr

/-! ## Finding what was added -/

section Finds

variable {ι K : Type} [DecidableEq ι] [DecidableEq K] {cmp cmp' : K → K → ℤ}

omit [DecidableEq K] in
/-- An added key is in `S`, and so are those that are there already. -/
theorem call_keys {S : Set K} {fuel : ℕ} {s s' : State ι K} {op : Op ι K} (hb : Brings S op)
    (hk : ∀ x ∈ s.linked, s.tree.key x ∈ S) (h : call cmp fuel s op = some s') : ∀ x ∈ s'.linked, s'.tree.key x ∈ S := by
  cases op with
  | add item key lock rebalance =>
      obtain ⟨tree, he, hs'⟩ := Option.bind_eq_some_iff.mp h
      cases hs'
      have hkey : tree.key = (s.tree.setKey item key).key := by
        obtain ⟨p, rfl⟩ := add_frame he
        rfl
      intro x hx
      show tree.key x ∈ S
      rw [hkey]
      show Function.update s.tree.key item key x ∈ S
      by_cases hxi : x = item
      · rw [hxi, Function.update_self]
        exact hb
      · rw [Function.update_of_ne hxi]
        exact hk x ((List.mem_cons.mp hx).resolve_left hxi)
  | remove item lock rebalance =>
      obtain ⟨tree, he, hs'⟩ := Option.bind_eq_some_iff.mp h
      cases hs'
      obtain ⟨p, rfl⟩ := remove_frame he
      exact fun x hx ↦ hk x (List.mem_of_mem_erase hx)
  | addNull lock rebalance =>
      obtain ⟨tree, he, hs'⟩ := Option.bind_eq_some_iff.mp h
      cases hs'
      obtain ⟨p, rfl⟩ := add_frame he
      exact hk
  | removeNull lock rebalance =>
      obtain ⟨tree, he, hs'⟩ := Option.bind_eq_some_iff.mp h
      cases hs'
      obtain ⟨p, rfl⟩ := remove_frame he
      exact hk
  | lock =>
      obtain ⟨tree, he, hs'⟩ := Option.bind_eq_some_iff.mp h
      cases hs'
      obtain ⟨-, rfl⟩ := lock_eq_some.mp he
      exact hk
  | unlock =>
      cases h
      exact hk

omit [DecidableEq K] in
/-- On keys of `S` the two comparisons make the same calls of each other's calls. -/
theorem call_congr {S : Set K} (hcmp : AgreeOn cmp cmp' S) {s : State ι K} {t : BinaryTree ι}
    (h : Invariant cmp' s t) (hk : ∀ x ∈ s.linked, s.tree.key x ∈ S) {op : Op ι K}
    (hb : Brings S op) (ha : Admissible s op) (fuel : ℕ) :
    call cmp fuel s op = call cmp' fuel s op := by
  cases op with
  | add item key lock rebalance =>
      have hx : item ∉ t.inorder := fun e ↦ ha.1 (h.mem.mp e)
      have hkey : ∀ y ∈ t.inorder, (s.tree.setKey item key).key y ∈ S := by
        intro y hy
        have hyx : y ≠ item := fun e ↦ hx (e ▸ hy)
        show Function.update s.tree.key item key y ∈ S
        rw [Function.update_of_ne hyx]
        exact hk y (h.mem.mp hy)
      have hitem : (s.tree.setKey item key).key item ∈ S := by
        show Function.update s.tree.key item key item ∈ S
        rw [Function.update_self]
        exact hb
      rw [call, call, add_congr hcmp (s := s.tree.setKey item key) h.holds hx hkey hitem]
  | addNull lock rebalance => rfl
  | remove item lock rebalance => rfl
  | removeNull lock rebalance => rfl
  | lock => rfl
  | unlock => rfl

/-- A run with keys of `S` only is a run of the other comparison. -/
theorem reachable_congr {S : Set K} (hcmp : AgreeOn cmp cmp' S) (htot : StrictTotal cmp')
    {s : State ι K} (h : (system ι K cmp).ReachableVia (fun _ e ↦ Brings S e.2) s) :
    (system ι K cmp').Reachable s ∧ ∀ x ∈ s.linked, s.tree.key x ∈ S := by
  refine h.invariant (I := fun s ↦ (system ι K cmp').Reachable s ∧
    ∀ x ∈ s.linked, s.tree.key x ∈ S) ?_ ?_
  · intro s hs
    refine ⟨.init hs, ?_⟩
    rw [hs.1]
    simp
  · rintro s ⟨fuel, op⟩ s' ⟨hr, hk⟩ hb he
    simp only [system] at he
    split at he
    · rename_i hg
      obtain ⟨t, ht⟩ := reachable_invariant htot hr
      rw [call_congr hcmp ht hk hb hg.1] at he
      refine ⟨hr.step (e := (fuel, op)) ?_, call_keys hb hk he⟩
      simp only [system]
      rwa [if_pos hg]
    · cases he

/-- What a comparison finds on keys of `S`, when it orders them as a strict total
order of all keys does. -/
theorem findsOn_of_agree {S : Set K} (hcmp : AgreeOn cmp cmp' S) (htot : StrictTotal cmp') :
    FindsOn cmp S := by
  intro ι _ s h x hx lock fuel hf hlock
  obtain ⟨hr, hk⟩ := reachable_congr hcmp htot h
  obtain ⟨t, ht⟩ := reachable_invariant htot hr
  have hagree : ∀ l, findLoop cmp { s.tree with mutex := l } (s.tree.key x) fuel s.tree.root =
      findLoop cmp' { s.tree with mutex := l } (s.tree.key x) fuel s.tree.root := fun l ↦ by
    rw [ht.holds.root_eq]
    exact findLoop_congr hcmp (s := { s.tree with mutex := l }) ht.holds.linked
      (fun y hy ↦ hk y (ht.mem.mp hy)) (hk x hx) fuel
  obtain ⟨r, he, hr'⟩ := findLoop_eq htot
    (s := { s.tree with mutex := s.tree.mutex || lock == .unlocked }) ht.holds.linked
    ht.increasing (s.tree.key x) fuel (by rw [ht.numNodes]; exact hf)
  rw [← ht.holds.root_eq, ← hagree, (hr' x).mpr ⟨ht.mem.mpr hx, rfl⟩] at he
  simp only [balancedBTreeFind, enter_eq hlock, Option.bind_eq_bind, Option.bind_some, he,
    leave_eq, mutex_enter_leave hlock]

end Finds

/-- Words in a half circle are found. -/
theorem findsOn_words {w : ℕ} {S : Set (BitVec w)} (h : HalfCircle S) :
    FindsOn (onKeys keyCompareWords) S := by
  obtain ⟨c, hc⟩ := h
  exact findsOn_of_agree (fun a ha b hb ↦ compare_half (hc a ha) (hc b hb))
    (compareAfter_strictTotal c)

/-- The keys of a tree are ordered, and its items found, exactly if the keys lie in
one half of the circle. -/
theorem keyCompare_iff (S : Set (BitVec 32)) (T : Set (BitVec 64)) :
    (OrdersOn (onKeys keyCompareInt) S ∧ FindsOn (onKeys keyCompareInt) S ↔ HalfCircle S) ∧
    (OrdersOn (onKeys keyComparePthread) T ∧ FindsOn (onKeys keyComparePthread) T ↔
      HalfCircle T) := by
  constructor
  · constructor
    · rintro ⟨h, -⟩
      exact ordersOn_iff.mp h
    · intro h
      exact ⟨ordersOn_iff.mpr h, findsOn_words h⟩
  · constructor
    · rintro ⟨h, -⟩
      exact ordersOn_iff.mp h
    · intro h
      exact ⟨ordersOn_iff.mpr h, findsOn_words h⟩

/-- Five items are added in an order that rebalances the tree at the last of them. -/
def fiveRun {K : Type} [DecidableEq K] (keyCompare : K → K → ℤ) (key : ℕ → K) :
    Option (State ℕ K) :=
  (system ℕ K keyCompare).run
    ⟨balancedBTreeCreate 7 ⟨fun _ ↦ none, fun _ ↦ none, fun _ ↦ none⟩ key fun _ ↦ none, []⟩
    [(9, .add 1 (key 1) .unlocked false), (9, .add 2 (key 2) .unlocked false),
      (9, .add 3 (key 3) .unlocked false), (9, .add 4 (key 4) .unlocked false),
      (9, .add 5 (key 5) .unlocked true)]

/-- Whether a search for the key of `item` returns `item`. -/
def finds {K : Type} (keyCompare : K → K → ℤ) (s : State ℕ K) (item : ℕ) : Bool :=
  (balancedBTreeFind keyCompare 9 s.tree (some (s.tree.key item)) .unlocked).any fun r ↦
    r.2 == some item

/-- The least key and zero are each below the other, and of five items that are
spread round the circle one is no longer found. -/
theorem not_orders :
    (keyCompareInt (some (BitVec.intMin 32)) (some 0) = -1 ∧
      keyCompareInt (some 0) (some (BitVec.intMin 32)) = -1) ∧
    (keyComparePthread (some (BitVec.intMin 64)) (some 0) = -1 ∧
      keyComparePthread (some 0) (some (BitVec.intMin 64)) = -1) ∧
    (fiveRun (onKeys keyCompareInt) fun i ↦
      [0, 0, 0xa0000000, 0x60000000, 0x60000001, 0x60000002].getD i 0).any
        (fun s ↦ s.linked = [5, 4, 3, 2, 1] ∧ finds (onKeys keyCompareInt) s 2 = false) ∧
    ¬ OrdersOn (onKeys keyCompareInt) Set.univ ∧
    ¬ OrdersOn (onKeys keyComparePthread) Set.univ := by
  refine ⟨by decide, by decide, by decide +kernel, fun h ↦ ?_, fun h ↦ ?_⟩
  · exact absurd ((h.swap 0 trivial (BitVec.intMin 32) trivial).mpr (by decide)) (by decide)
  · exact absurd ((h.swap 0 trivial (BitVec.intMin 64) trivial).mpr (by decide)) (by decide)

end Beirdobot.BTree.Keys
