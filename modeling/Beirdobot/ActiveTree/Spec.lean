import Beirdobot.BTree.Stores
import Beirdobot.ActiveTree.Model

/-!
# What the operations on a tree of times do

One lemma for each operation, on a tree that stores the items of a list in the order of
their times.
-/

namespace Beirdobot.ActiveTree

open BTree Library BinaryTree

/-- The tree holds the items of `l`, in the order of their times. -/
def Timed (a : ActiveTree) (time : ℕ → ℤ) (l : List TimeItem) : Prop :=
  Stores keyCompareInt (a.tree time) l

namespace Timed

variable {a : ActiveTree} {time time' : ℕ → ℤ} {l l' : List TimeItem}

theorem empty (time : ℕ → ℤ) : Timed .empty time [] :=
  ⟨⟨.nil, ⟨rfl, trivial, List.nodup_nil⟩, .nil, .refl _⟩, by simp⟩

theorem nodup (h : Timed a time l) : l.Nodup := Stores.nodup h

theorem perm (h : Timed a time l) (hl : l.Perm l') : Timed a time l' := Stores.perm h hl

/-- The times of records without an item can change. -/
theorem congr (h : Timed a time l) (ht : ∀ item ∈ l, time' item.record = time item.record) :
    Timed a time' l :=
  Stores.congr_key h rfl rfl rfl ht

theorem update (h : Timed a time l) {x : ℕ} (hx : ∀ item ∈ l, item.record ≠ x) (k : ℤ) :
    Timed a (Function.update time x k) l :=
  h.congr fun _ hitem ↦ Function.update_of_ne (hx _ hitem) ..

/-- Two items have different times. -/
theorem time_inj (h : Timed a time l) {i j : TimeItem} (hi : i ∈ l) (hj : j ∈ l)
    (he : time i.record = time j.record) : i = j :=
  Stores.key_inj keyCompareInt_strictTotal h hi hj he

theorem find (h : Timed a time l) (k : ℤ) {fuel : ℕ} (hf : l.length ≤ fuel) :
    ∃ r, a.find fuel time k = some r ∧ ∀ item, r = some item ↔ item ∈ l ∧ time item.record = k := by
  obtain ⟨r, he, hr⟩ := Stores.find keyCompareInt_strictTotal h k .locked (by simp) fuel hf
  exact ⟨r, by rw [ActiveTree.find, he]; rfl, hr⟩

theorem find_mem (h : Timed a time l) {item : TimeItem} (hitem : item ∈ l) {fuel : ℕ}
    (hf : l.length ≤ fuel) : a.find fuel time (time item.record) = some (some item) := by
  obtain ⟨r, he, hr⟩ := h.find (time item.record) hf
  rw [he, (hr item).mpr ⟨hitem, rfl⟩]

theorem find_none (h : Timed a time l) {k : ℤ} (hk : ∀ item ∈ l, time item.record ≠ k) {fuel : ℕ}
    (hf : l.length ≤ fuel) : a.find fuel time k = some none := by
  obtain ⟨r, he, hr⟩ := h.find k hf
  cases r with
  | none => exact he
  | some item =>
      obtain ⟨hitem, hkey⟩ := (hr item).mp rfl
      exact absurd hkey (hk item hitem)

/-- The left-most item has the least time. -/
theorem findLeast (h : Timed a time l) {fuel : ℕ} (hf : l.length ≤ fuel) :
    ∃ r, a.findLeast fuel = some r ∧ (r = none → l = []) ∧
      ∀ item, r = some item → item ∈ l ∧ ∀ i ∈ l, i ≠ item → time item.record < time i.record := by
  obtain ⟨t, ht, hi, hp⟩ := h.tree
  have hsize := Stores.numNodes_eq hp
  have hroot : a.root = t.top := ht.root_eq
  rw [ActiveTree.findLeast, hroot]
  cases t with
  | nil => exact ⟨none, by cases fuel <;> rfl, fun _ ↦ hp.nil_eq.symm, by simp⟩
  | node x left right =>
      refine ⟨some (least x left), findLeast_eq ht.linked fuel (by omega), by simp, ?_⟩
      rintro item ⟨⟩
      rw [inorder_dropLeast] at hi hp
      refine ⟨hp.mem_iff.mp List.mem_cons_self, fun i hil hne ↦ ?_⟩
      have hlt := List.rel_of_pairwise_cons hi
        ((List.mem_cons.mp (hp.mem_iff.mpr hil)).resolve_left hne)
      exact keyCompareInt_neg.mp hlt

/-- The walk finds the first item that meets a condition. -/
theorem findLeastCond_eq (cond : ℕ → Bool) {t : BinaryTree TimeItem} {q : Option TimeItem}
    (ht : Linked a.toLinks q t) {fuel : ℕ} (hf : t.numNodes ≤ fuel) :
    a.findLeastCond cond fuel t.top = some (t.inorder.find? fun item ↦ cond item.record) := by
  induction t generalizing q fuel with
  | nil => cases fuel <;> rfl
  | node x left right ihl ihr =>
      obtain ⟨-, hl, hr, htl, htr⟩ := ht
      cases fuel with
      | zero => simp at hf
      | succ fuel =>
          simp only [numNodes] at hf
          rw [top_node, ActiveTree.findLeastCond, hl, hr, ihl htl (by omega), ihr htr (by omega),
            inorder_node, List.find?_append, List.find?_cons]
          rcases hleft : left.inorder.find? (fun item ↦ cond item.record) with _ | item
          · rw [hleft]
            cases cond x.record <;> rfl
          · rw [hleft]
            rfl

/-- Of the items that meet a condition the one with the least time is found. -/
theorem findLeastCond (h : Timed a time l) (cond : ℕ → Bool) {fuel : ℕ} (hf : l.length ≤ fuel) :
    ∃ r, a.findLeastCond cond fuel a.root = some r ∧
      (r = none → ∀ item ∈ l, cond item.record = false) ∧
      ∀ item, r = some item → item ∈ l ∧ cond item.record = true ∧
        ∀ i ∈ l, i ≠ item → cond i.record = true → time item.record < time i.record := by
  obtain ⟨t, ht, hi, hp⟩ := h.tree
  have hroot : a.root = t.top := ht.root_eq
  refine ⟨_, by rw [hroot, findLeastCond_eq cond ht.linked (Stores.numNodes_eq hp ▸ hf)], ?_, ?_⟩
  · intro hnone item hitem
    rw [List.find?_eq_none] at hnone
    exact Bool.eq_false_iff.mpr (hnone item (hp.mem_iff.mpr hitem))
  · intro item hsome
    obtain ⟨hcond, before, after, heq, hbefore⟩ := List.find?_eq_some_iff_append.mp hsome
    rw [heq] at hi hp
    refine ⟨hp.mem_iff.mp (by simp), hcond, fun i hil hne hci ↦ ?_⟩
    -- what stands before the item does not meet the condition
    rcases List.mem_append.mp (hp.mem_iff.mpr hil) with hib | hia
    · have hno := hbefore i hib
      rw [hci] at hno
      cases hno
    · have hlt := List.rel_of_pairwise_cons (List.pairwise_append.mp hi).2.1
        ((List.mem_cons.mp hia).resolve_left hne)
      exact keyCompareInt_neg.mp hlt

/-- An item is added with a time that no other one has. -/
theorem add (h : Timed a time l) {item : TimeItem} (hitem : item ∉ l)
    (hk : ∀ i ∈ l, time i.record ≠ time item.record) (rebalance : Bool) {fuel : ℕ}
    (hf : l.length + 2 ≤ fuel) :
    ∃ a', a.add fuel time item rebalance = some a' ∧ Timed a' time (item :: l) := by
  obtain ⟨p, he, hs⟩ := Stores.add keyCompareInt_strictTotal h hitem hk .locked (by simp)
    rebalance fuel hf
  exact ⟨ofTree { a.tree time with
    toPointers := p
    owner := Function.update a.owner item (some 0) }, by rw [ActiveTree.add, he]; rfl, hs⟩

/-- An item is removed, also one whose time was changed under the tree. -/
theorem remove (h : Timed a time l) {item : TimeItem} (hl : l.Perm (item :: l'))
    (ht : ∀ i ∈ l', time' i.record = time i.record) (rebalance : Bool) {fuel : ℕ} (hf : l.length ≤ fuel) :
    ∃ a', a.remove fuel time' (some item) rebalance = some a' ∧ Timed a' time' l' := by
  have ht' : ∀ i ∈ item :: l', i ≠ item → time' i.record = time i.record := fun i hi hne ↦
    ht i ((List.mem_cons.mp hi).resolve_left hne)
  obtain ⟨p, he, hs⟩ := Stores.remove (h.perm hl) List.mem_cons_self (fun i ↦ time' i.record) ht'
    .locked (by simp) rebalance fuel (hl.length_eq ▸ hf)
  rw [List.erase_cons_head] at hs
  have htree : a.tree time' = { a.tree time with key := fun i ↦ time' i.record } := rfl
  exact ⟨ofTree { a.tree time with
    toPointers := p
    key := fun i ↦ time' i.record
    owner := Function.update a.owner item none }, by rw [ActiveTree.remove, htree, he]; rfl, hs⟩

theorem rebalance (h : Timed a time l) {fuel : ℕ} (hf : l.length + 1 ≤ fuel) :
    ∃ a', a.rebalance fuel time = some a' ∧ Timed a' time l := by
  obtain ⟨p, he, hs⟩ :=
    Stores.rebalance (show Stores keyCompareInt _ _ from h) .locked (by simp) fuel hf
  exact ⟨ofTree { a.tree time with toPointers := p }, by rw [ActiveTree.rebalance, he]; rfl, hs⟩

/-- A time that changes in place, without overtaking another one. -/
theorem set_time (h : Timed a time l) {x : ℕ} {k : ℤ}
    (hk : ∀ i ∈ l, i.record ≠ x → k ≠ time i.record ∧ (time i.record < time x ↔ time i.record < k)) :
    Timed a (Function.update time x k) l := by
  obtain ⟨t, ht, hi, hp⟩ := h.tree
  refine ⟨⟨t, ht, hi.imp_of_mem fun {i j} hit hjt hij ↦ ?_, hp⟩, h.owner⟩
  have hil := hp.mem_iff.mp hit
  have hjl := hp.mem_iff.mp hjt
  have hij := keyCompareInt_neg.mp hij
  change time i.record < time j.record at hij
  refine keyCompareInt_neg.mpr ?_
  change Function.update time x k i.record < Function.update time x k j.record
  by_cases hix : i.record = x
  · have hjx : j.record ≠ x := by
      intro hjx
      rw [hix, hjx] at hij
      exact Int.lt_irrefl _ hij
    obtain ⟨hne, hiff⟩ := hk j hjl hjx
    rw [hix, Function.update_self, Function.update_of_ne hjx]
    rw [hix] at hij
    have hle : ¬ time j.record < k := mt hiff.mpr (Int.not_lt.mpr (Int.le_of_lt hij))
    exact Int.lt_iff_le_and_ne.mpr ⟨Int.not_lt.mp hle, hne⟩
  · rw [Function.update_of_ne hix]
    by_cases hjx : j.record = x
    · rw [hjx, Function.update_self]
      rw [hjx] at hij
      exact (hk i hil hix).2.mp hij
    · rwa [Function.update_of_ne hjx]

/-- The times that an item can get go up to the first one that is free. -/
theorem findUnconflictingTime (h : Timed a time l) {x : ℕ} (hx : ∀ item ∈ l, item.record ≠ x)
    {depth : ℕ} (hd : l.length ≤ depth) {fuel : ℕ} (hf : l.length < fuel) (key : ℤ) :
    ∃ k, a.findUnconflictingTime depth time x fuel key = some k ∧ key ≤ k ∧
      (∀ item ∈ l, time item.record ≠ k) ∧ ∀ t, key ≤ t → t < k → ∃ item ∈ l, time item.record = t := by
  -- by induction on the fuel, which outnumbers the items from the key on
  have hcount : (l.filter fun item ↦ key ≤ time item.record).length < fuel :=
    Nat.lt_of_le_of_lt (List.length_filter_le ..) hf
  clear hf
  induction fuel generalizing key with
  | zero => cases hcount
  | succ fuel ih =>
      have hkey := h.update hx key
      obtain ⟨r, he, hr⟩ := hkey.find key hd
      have htime : ∀ item ∈ l, Function.update time x key item.record = time item.record :=
        fun item hitem ↦ Function.update_of_ne (hx item hitem) ..
      rw [ActiveTree.findUnconflictingTime, he]
      cases r with
      | none =>
          refine ⟨key, rfl, Int.le_refl _, fun item hitem heq ↦ ?_, ?_⟩
          · have := (hr item).mpr ⟨hitem, (htime item hitem).trans heq⟩
            cases this
          · exact fun t hle hlt ↦ absurd hlt (Int.not_lt.mpr hle)
      | some item =>
          obtain ⟨hitem, hat⟩ := (hr item).mp rfl
          rw [htime item hitem] at hat
          have hless : (l.filter fun item ↦ key + 1 ≤ time item.record).length <
              (l.filter fun item ↦ key ≤ time item.record).length := by
            have hsub : l.filter (fun item ↦ key + 1 ≤ time item.record) =
                (l.filter fun item ↦ key ≤ time item.record).filter fun item ↦ key + 1 ≤ time item.record := by
              rw [List.filter_filter]
              refine List.filter_congr fun i _ ↦ ?_
              rw [← Bool.decide_and]
              exact decide_eq_decide.mpr ⟨fun h ↦ ⟨h, by omega⟩, And.left⟩
            rw [hsub, List.length_filter_lt_length_iff_exists]
            refine ⟨item, List.mem_filter.mpr ⟨hitem, decide_eq_true (Int.le_of_eq hat.symm)⟩, ?_⟩
            rw [decide_eq_true_iff]
            omega
          obtain ⟨k, hk, hle, hfree, hbusy⟩ := ih (key + 1) (by omega)
          refine ⟨k, hk, by omega, hfree, fun t ht htk ↦ ?_⟩
          by_cases heq : key = t
          · exact ⟨item, hitem, hat.trans heq⟩
          · exact hbusy t (by omega) htk

end Timed

end Beirdobot.ActiveTree
