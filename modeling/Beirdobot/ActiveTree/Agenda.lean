import Beirdobot.ActiveTree.Spec

/-!
# The records of a tree of times

A plugin finds the item of a record by its time, and gives it another time that is free.  `Lists`
says which records have an item; each record has one at most.
-/

namespace Beirdobot.ActiveTree

open BTree Library

/-- The tree has an item for each of the records, and no other ones. -/
def Lists (a : ActiveTree) (time : ℕ → ℤ) (xs : List ℕ) : Prop :=
  ∃ l, Timed a time l ∧ (l.map TimeItem.record).Perm xs

namespace Lists

variable {a : ActiveTree} {time time' : ℕ → ℤ} {xs ys : List ℕ} {x y : ℕ} {fuel : ℕ} {k : ℤ}

theorem empty (time : ℕ → ℤ) : Lists .empty time [] := ⟨[], .empty time, .nil⟩

theorem perm (h : Lists a time xs) (hxs : xs.Perm ys) : Lists a time ys := by
  obtain ⟨l, hl, hp⟩ := h
  exact ⟨l, hl, hp.trans hxs⟩

/-- The times of records without an item can change. -/
theorem congr (h : Lists a time xs) (ht : ∀ x ∈ xs, time' x = time x) : Lists a time' xs := by
  obtain ⟨l, hl, hp⟩ := h
  refine ⟨l, hl.congr fun item hitem ↦ ht _ ?_, hp⟩
  exact hp.mem_iff.mp (List.mem_map_of_mem hitem)

theorem update (h : Lists a time xs) (hx : x ∉ xs) (k : ℤ) :
    Lists a (Function.update time x k) xs := by
  apply h.congr
  intro y hy
  apply Function.update_of_ne
  rintro rfl
  exact hx hy

/-- Two records have different times. -/
theorem time_inj (h : Lists a time xs) (hx : x ∈ xs) (hy : y ∈ xs) (ht : time x = time y) :
    x = y := by
  obtain ⟨l, hl, hp⟩ := h
  obtain ⟨i, hi, rfl⟩ := List.mem_map.mp (hp.mem_iff.mpr hx)
  obtain ⟨j, hj, rfl⟩ := List.mem_map.mp (hp.mem_iff.mpr hy)
  rw [hl.time_inj hi hj ht]

theorem nodup (h : Lists a time xs) : xs.Nodup := by
  obtain ⟨l, hl, hp⟩ := h
  apply hp.nodup_iff.mp
  apply hl.nodup.map_on
  intro i hi j hj hij
  exact hl.time_inj hi hj (congrArg time hij)

theorem find_none (h : Lists a time xs) (hk : ∀ y ∈ xs, time y ≠ k) (hf : xs.length ≤ fuel) :
    a.find fuel time k = some none := by
  obtain ⟨l, hl, hp⟩ := h
  apply hl.find_none
  · intro item hitem
    exact hk _ (hp.mem_iff.mp (List.mem_map_of_mem hitem))
  · rwa [← List.length_map, hp.length_eq]

/-- An item is removed, and no other one. -/
theorem remove_item {l : List TimeItem} (hl : Timed a time l)
    (hp : (l.map TimeItem.record).Perm xs) {item : TimeItem} (hitem : item ∈ l) (rebalance : Bool)
    (hf : l.length ≤ fuel) :
    ∃ a', a.remove fuel time (some item) rebalance = some a' ∧
      Lists a' time (xs.erase item.record) := by
  have hperm : l.Perm (item :: l.erase item) := List.perm_cons_erase hitem
  obtain ⟨a', hremove, hl'⟩ := hl.remove hperm (fun _ _ ↦ rfl) rebalance hf
  refine ⟨a', hremove, l.erase item, hl', ?_⟩
  have hmem := hp.mem_iff.mp (List.mem_map_of_mem hitem)
  have hcons : (item.record :: (l.erase item).map TimeItem.record).Perm
      (item.record :: xs.erase item.record) :=
    ((hperm.map TimeItem.record).symm.trans hp).trans (List.perm_cons_erase hmem)
  exact hcons.cons_inv

/-- The item of a record is found by its time, and removed. -/
theorem remove (h : Lists a time xs) (hx : x ∈ xs) (rebalance : Bool) (hf : xs.length ≤ fuel) :
    ∃ item a', a.find fuel time (time x) = some (some item) ∧
      a.remove fuel time (some item) rebalance = some a' ∧ Lists a' time (xs.erase x) := by
  obtain ⟨l, hl, hp⟩ := h
  have hlength : l.length ≤ fuel := by rwa [← List.length_map, hp.length_eq]
  obtain ⟨item, hitem, rfl⟩ := List.mem_map.mp (hp.mem_iff.mpr hx)
  obtain ⟨a', hremove, hlists⟩ := remove_item hl hp hitem rebalance hlength
  exact ⟨item, a', hl.find_mem hitem hlength, hremove, hlists⟩

/-- A record gets an item, with the first time that is free. -/
theorem add (h : Lists a time xs) (hx : x ∉ xs) (self : ℕ) (key : ℤ) (rebalance : Bool)
    (hf : xs.length + 2 ≤ fuel) :
    ∃ k a', a.findUnconflictingTime fuel time x fuel key = some k ∧
      a.add fuel (Function.update time x k) ⟨x, self⟩ rebalance = some a' ∧
      Lists a' (Function.update time x k) (x :: xs) ∧
      key ≤ k ∧ ∀ t, key ≤ t → t < k → ∃ y ∈ xs, time y = t := by
  obtain ⟨l, hl, hp⟩ := h
  have hlength : l.length = xs.length := by rw [← List.length_map, hp.length_eq]
  have hrecord : ∀ i ∈ l, i.record ≠ x := by
    rintro i hi rfl
    exact hx (hp.mem_iff.mp (List.mem_map_of_mem hi))
  obtain ⟨k, hk, hle, hfree, hbusy⟩ := hl.findUnconflictingTime hrecord
    (show l.length ≤ fuel by omega) (show l.length < fuel by omega) key
  have hother : ∀ i ∈ l, Function.update time x k i.record ≠ Function.update time x k x := by
    intro i hi
    rw [Function.update_self, Function.update_of_ne (hrecord i hi)]
    exact hfree i hi
  have hnew : (⟨x, self⟩ : TimeItem) ∉ l := fun hmem ↦ hrecord _ hmem rfl
  obtain ⟨a', hadd, hl'⟩ := (hl.update hrecord k).add hnew hother rebalance
    (show l.length + 2 ≤ fuel by omega)
  refine ⟨k, a', hk, hadd, ⟨⟨x, self⟩ :: l, hl', hp.cons x⟩, hle, fun t ht htk ↦ ?_⟩
  obtain ⟨i, hi, hit⟩ := hbusy t ht htk
  exact ⟨i.record, hp.mem_iff.mp (List.mem_map_of_mem hi), hit⟩

/-- The left-most item is the one of the record with the least time. -/
theorem findLeast (h : Lists a time xs) (hf : xs.length ≤ fuel) :
    (xs = [] ∧ a.findLeast fuel = some none) ∨
      ∃ item, a.findLeast fuel = some (some item) ∧ item.record ∈ xs ∧
        (∀ y ∈ xs, y ≠ item.record → time item.record < time y) ∧
        ∀ rebalance, ∃ a', a.remove fuel time (some item) rebalance = some a' ∧
          Lists a' time (xs.erase item.record) := by
  obtain ⟨l, hl, hp⟩ := h
  have hlength : l.length ≤ fuel := by rwa [← List.length_map, hp.length_eq]
  obtain ⟨r, hr, hnone, hsome⟩ := hl.findLeast hlength
  cases r with
  | none =>
      have hnil := hnone rfl
      rw [hnil, List.map_nil] at hp
      exact .inl ⟨hp.nil_eq.symm, hr⟩
  | some item =>
      obtain ⟨hitem, hleast⟩ := hsome item rfl
      have hmem := hp.mem_iff.mp (List.mem_map_of_mem hitem)
      refine .inr ⟨item, hr, hmem, fun y hy hne ↦ ?_, fun rebalance ↦ ?_⟩
      · obtain ⟨i, hi, rfl⟩ := List.mem_map.mp (hp.mem_iff.mpr hy)
        apply hleast i hi
        rintro rfl
        exact hne rfl
      · exact remove_item hl hp hitem rebalance hlength

theorem rebalance (h : Lists a time xs) (hf : xs.length + 1 ≤ fuel) :
    ∃ a', a.rebalance fuel time = some a' ∧ Lists a' time xs := by
  obtain ⟨l, hl, hp⟩ := h
  have hlength : l.length = xs.length := by rw [← List.length_map, hp.length_eq]
  obtain ⟨a', ha', hl'⟩ := hl.rebalance (show l.length + 1 ≤ fuel by omega)
  exact ⟨a', ha', l, hl', hp⟩

/-- A tree without records is empty. -/
theorem root_eq_none (h : Lists a time []) : a.root = none := by
  obtain ⟨l, hl, hp⟩ := h
  obtain ⟨t, ht, -, hperm⟩ := hl.tree
  rw [List.map_eq_nil_iff.mp hp.eq_nil] at hperm
  have hroot : a.root = t.top := ht.root_eq
  rw [hroot]
  cases t with
  | nil => rfl
  | node x left right => simp [BinaryTree.inorder] at hperm

end Lists

end Beirdobot.ActiveTree
