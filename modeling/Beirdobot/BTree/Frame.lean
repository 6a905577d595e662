import Beirdobot.BTree.Model

/-!
# What the calls on a tree leave alone

In any memory, whatever its pointers: a call writes the pointers and the `btree`
field of its item, and nothing else of the tree.  With `LOCKED` it does not look
at the mutex; with `UNLOCKED` it locks the mutex, does the same and unlocks it.
-/

namespace Beirdobot.BTree

open Library

variable {ι K : Type}

/-- The same tree with the mutex held or not. -/
def BalancedBTree.setMutex (s : BalancedBTree ι K) (mutex : Bool) : BalancedBTree ι K :=
  { s with mutex }

@[simp] theorem setMutex_setMutex (s : BalancedBTree ι K) (b b' : Bool) :
    (s.setMutex b).setMutex b' = s.setMutex b' := rfl

@[simp] theorem setMutex_mutex (s : BalancedBTree ι K) : s.setMutex s.mutex = s := rfl

theorem lock_eq_some {s s' : BalancedBTree ι K} :
    balancedBTreeLock s = some s' ↔ s.mutex = false ∧ s' = { s with mutex := true } := by
  unfold balancedBTreeLock
  cases hm : s.mutex
  · simp [eq_comm]
  · simp

theorem findLoop_setMutex (keyCompare : K → K → ℤ) (s : BalancedBTree ι K) (b : Bool) (key : K)
    (fuel : ℕ) (item : Option ι) :
    findLoop keyCompare (s.setMutex b) key fuel item = findLoop keyCompare s key fuel item := by
  induction fuel generalizing item with
  | zero => cases item <;> rfl
  | succ fuel ih =>
      cases item with
      | none => rfl
      | some x =>
          simp only [findLoop, ih]
          rfl

theorem findParentLoop_setMutex (keyCompare : K → K → ℤ) (s : BalancedBTree ι K) (b : Bool)
    (key : K) (fuel : ℕ) (parent item : Option ι) :
    findParentLoop keyCompare (s.setMutex b) key fuel parent item =
      findParentLoop keyCompare s key fuel parent item := by
  induction fuel generalizing parent item with
  | zero => cases item <;> rfl
  | succ fuel ih =>
      cases item with
      | none => rfl
      | some x =>
          simp only [findParentLoop, ih]
          rfl

/-- An `UNLOCKED` search locks the mutex, does what a `LOCKED` one does and unlocks it. -/
theorem find_unlocked (keyCompare : K → K → ℤ) (fuel : ℕ) (s : BalancedBTree ι K) (key : K) :
    balancedBTreeFind keyCompare fuel s (some key) .unlocked = (balancedBTreeLock s).bind fun s ↦
      (balancedBTreeFind keyCompare fuel s (some key) .locked).map fun r ↦
        (balancedBTreeUnlock r.1, r.2) := by
  simp only [balancedBTreeFind, enter, leave, Option.bind_eq_bind, Option.bind_some]
  refine Option.bind_congr fun s₁ _ ↦ ?_
  rw [Option.map_bind]
  rfl

/-- A `LOCKED` search does not look at the mutex. -/
theorem find_locked (keyCompare : K → K → ℤ) (fuel : ℕ) (s : BalancedBTree ι K) (b : Bool)
    (key : Option K) :
    balancedBTreeFind keyCompare fuel (s.setMutex b) key .locked =
      (balancedBTreeFind keyCompare fuel s key .locked).map fun r ↦ (r.1.setMutex b, r.2) := by
  cases key with
  | none => rfl
  | some key =>
      simp only [balancedBTreeFind, enter, leave, Option.bind_eq_bind, Option.bind_some,
        findLoop_setMutex, Option.map_bind]
      rfl

/-- A search changes nothing. -/
theorem find_frame {keyCompare : K → K → ℤ} {fuel : ℕ} {s s' : BalancedBTree ι K}
    {key r : Option _} (h : balancedBTreeFind keyCompare fuel s key .locked = some (s', r)) :
    s' = s := by
  cases key with
  | none =>
      cases h
      rfl
  | some key =>
      simp only [balancedBTreeFind, enter, leave, Option.bind_eq_bind, Option.bind_some,
        Option.bind_eq_some_iff, Option.some.injEq, Prod.mk.injEq] at h
      obtain ⟨-, -, rfl, -⟩ := h
      rfl

section Edits

variable [DecidableEq ι]

theorem rebalanceIf_setMutex (fuel : ℕ) (s : BalancedBTree ι K) (b rebalance : Bool) :
    rebalanceIf fuel (s.setMutex b) rebalance =
      (rebalanceIf fuel s rebalance).map fun s ↦ s.setMutex b := by
  cases rebalance with
  | false => rfl
  | true =>
      simp only [rebalanceIf, if_true, Option.bind_eq_bind, Option.map_bind]
      rfl

theorem linkItem_setMutex (keyCompare : K → K → ℤ) (s : BalancedBTree ι K) (b : Bool) (item : ι)
    (parent : Option ι) :
    linkItem keyCompare (s.setMutex b) item parent =
      (linkItem keyCompare s item parent).setMutex b := by
  cases parent with
  | none => rfl
  | some p =>
      have hkey : (s.setMutex b).key = s.key := rfl
      simp only [linkItem, hkey]
      by_cases hgt : 0 < keyCompare (s.key item) (s.key p)
      · simp only [if_pos hgt]
        rfl
      · by_cases hlt : keyCompare (s.key item) (s.key p) < 0
        · simp only [if_neg hgt, if_pos hlt]
          rfl
        · simp only [if_neg hgt, if_neg hlt]
          rfl

/-- A rebalancing only writes pointers. -/
theorem rebalanceIf_frame {fuel : ℕ} {s s' : BalancedBTree ι K} {rebalance : Bool}
    (h : rebalanceIf fuel s rebalance = some s') : ∃ p, s' = { s with toPointers := p } := by
  cases rebalance with
  | false =>
      cases h
      exact ⟨s.toPointers, rfl⟩
  | true =>
      simp only [rebalanceIf, if_true, Option.bind_eq_bind, Option.bind_eq_some_iff,
        Option.some.injEq] at h
      obtain ⟨p, -, rfl⟩ := h
      exact ⟨p, rfl⟩

theorem linkItem_frame (keyCompare : K → K → ℤ) (s : BalancedBTree ι K) (item : ι)
    (parent : Option ι) :
    ∃ p, linkItem keyCompare s item parent = { s with toPointers := p } := by
  cases parent with
  | none => exact ⟨_, rfl⟩
  | some p =>
      simp only [linkItem]
      split
      · exact ⟨_, rfl⟩
      · split <;> exact ⟨_, rfl⟩

/-- An `UNLOCKED` addition locks the mutex, does what a `LOCKED` one does and unlocks it. -/
theorem add_unlocked (keyCompare : K → K → ℤ) (fuel : ℕ) (s : BalancedBTree ι K)
    (item : Option ι) (rebalance : Bool) :
    balancedBTreeAdd keyCompare fuel s item .unlocked rebalance = (balancedBTreeLock s).bind fun s ↦
      (balancedBTreeAdd keyCompare fuel s item .locked rebalance).map balancedBTreeUnlock := by
  cases item with
  | none =>
      simp only [balancedBTreeAdd, enter, leave, Option.bind_eq_bind, Option.bind_some,
        Option.map_bind]
      rfl
  | some item =>
      simp only [balancedBTreeAdd, enter, leave, Option.bind_eq_bind, Option.bind_some]
      refine Option.bind_congr fun s₁ _ ↦ ?_
      simp only [Option.map_bind, Function.comp_def, Option.map_some]

/-- A `LOCKED` addition does not look at the mutex. -/
theorem add_locked (keyCompare : K → K → ℤ) (fuel : ℕ) (s : BalancedBTree ι K) (b : Bool)
    (item : Option ι) (rebalance : Bool) :
    balancedBTreeAdd keyCompare fuel (s.setMutex b) item .locked rebalance =
      (balancedBTreeAdd keyCompare fuel s item .locked rebalance).map fun s ↦ s.setMutex b := by
  cases item with
  | none =>
      simp only [balancedBTreeAdd, enter, leave, Option.bind_eq_bind, Option.bind_some,
        rebalanceIf_setMutex, Option.bind_map, Option.map_bind]
      rfl
  | some item =>
      simp only [balancedBTreeAdd, enter, leave, Option.bind_eq_bind, Option.bind_some]
      let s₁ : BalancedBTree ι K := { s with
        owner := Function.update s.owner item (some s.self)
        toLinks := (s.toLinks.setLeft item none).setRight item none }
      show ((balancedBTreeFindParent keyCompare fuel (s₁.setMutex b) item).bind fun parent ↦
        (rebalanceIf fuel (linkItem keyCompare (s₁.setMutex b) item parent) rebalance).bind some) =
        ((balancedBTreeFindParent keyCompare fuel s₁ item).bind fun parent ↦
          (rebalanceIf fuel (linkItem keyCompare s₁ item parent) rebalance).bind some).map _
      have hfind : balancedBTreeFindParent keyCompare fuel (s₁.setMutex b) item =
          balancedBTreeFindParent keyCompare fuel s₁ item :=
        findParentLoop_setMutex ..
      simp only [hfind, linkItem_setMutex, rebalanceIf_setMutex, Option.bind_map, Option.map_bind,
        Function.comp_def, Option.map_some]

/-- The `btree` fields after `item` was added. -/
def ownerAdded (s : BalancedBTree ι K) : Option ι → ι → Option ℕ
  | none => s.owner
  | some item => Function.update s.owner item (some s.self)

/-- The `btree` fields after `item` was removed. -/
def ownerRemoved (s : BalancedBTree ι K) : Option ι → ι → Option ℕ
  | none => s.owner
  | some item => if s.owner item ≠ some s.self then s.owner else Function.update s.owner item none

theorem add_frame_locked {keyCompare : K → K → ℤ} {fuel : ℕ} {s s' : BalancedBTree ι K}
    {item : Option ι} {rebalance : Bool}
    (h : balancedBTreeAdd keyCompare fuel s item .locked rebalance = some s') :
    ∃ p, s' = { s with toPointers := p, owner := ownerAdded s item } := by
  cases item with
  | none =>
      simp only [balancedBTreeAdd, enter, leave, Option.bind_eq_bind, Option.bind_some,
        Option.bind_fun_some] at h
      obtain ⟨p, rfl⟩ := rebalanceIf_frame h
      exact ⟨p, rfl⟩
  | some item =>
      simp only [balancedBTreeAdd, enter, leave, Option.bind_eq_bind, Option.bind_some,
        Option.bind_fun_some, Option.bind_eq_some_iff] at h
      obtain ⟨parent, -, h⟩ := h
      obtain ⟨p, rfl⟩ := rebalanceIf_frame h
      obtain ⟨p', he⟩ := linkItem_frame keyCompare _ item parent
      rw [he]
      exact ⟨p, rfl⟩

/-- Whichever way it is told about the mutex, an addition that returns did the same. -/
theorem add_locked_of {keyCompare : K → K → ℤ} {fuel : ℕ} {s s' : BalancedBTree ι K}
    {item : Option ι} {lock : Locked} {rebalance : Bool}
    (h : balancedBTreeAdd keyCompare fuel s item lock rebalance = some s') :
    balancedBTreeAdd keyCompare fuel s item .locked rebalance = some s' := by
  cases lock with
  | locked => exact h
  | unlocked =>
      rw [add_unlocked] at h
      obtain ⟨s₁, hlock, h⟩ := Option.bind_eq_some_iff.mp h
      obtain ⟨s₂, he, rfl⟩ := Option.map_eq_some_iff.mp h
      obtain ⟨hm, rfl⟩ := lock_eq_some.mp hlock
      have hset : balancedBTreeAdd keyCompare fuel (s.setMutex true) item .locked rebalance =
        some s₂ := he
      rw [add_locked] at hset
      obtain ⟨s₃, he₃, rfl⟩ := Option.map_eq_some_iff.mp hset
      obtain ⟨p, rfl⟩ := add_frame_locked he₃
      rw [he₃]
      simp only [BalancedBTree.setMutex, balancedBTreeUnlock, hm]

/-- An addition writes pointers and the `btree` field of its item, and leaves the
mutex as it was. -/
theorem add_frame {keyCompare : K → K → ℤ} {fuel : ℕ} {s s' : BalancedBTree ι K}
    {item : Option ι} {lock : Locked} {rebalance : Bool}
    (h : balancedBTreeAdd keyCompare fuel s item lock rebalance = some s') :
    ∃ p, s' = { s with toPointers := p, owner := ownerAdded s item } :=
  add_frame_locked (add_locked_of h)

/-- An `UNLOCKED` removal locks the mutex, does what a `LOCKED` one does and unlocks it. -/
theorem remove_unlocked (fuel : ℕ) {s : BalancedBTree ι K} {item : ι}
    (h : s.owner item = some s.self) (rebalance : Bool) :
    balancedBTreeRemove fuel s (some item) .unlocked rebalance = (balancedBTreeLock s).bind fun s ↦
      (balancedBTreeRemove fuel s (some item) .locked rebalance).map balancedBTreeUnlock := by
  simp only [balancedBTreeRemove, h, ne_eq, not_true_eq_false, if_false, enter, leave,
    Option.bind_eq_bind, Option.bind_some]
  refine Option.bind_congr fun s₁ he ↦ ?_
  have howner : s₁.owner item = some s₁.self := by
    obtain ⟨-, rfl⟩ := lock_eq_some.mp he
    exact h
  simp only [howner, not_true_eq_false, if_false, Option.map_bind, Function.comp_def,
    Option.map_some, apply_ite]

/-- A removal without an item locks the mutex twice. -/
theorem remove_none_unlocked (fuel : ℕ) (s : BalancedBTree ι K) (rebalance : Bool) :
    balancedBTreeRemove fuel s none .unlocked rebalance = none := by
  simp only [balancedBTreeRemove, enter, Option.bind_eq_bind]
  refine Option.bind_eq_none_iff.mpr fun s₁ he ↦ Option.bind_eq_none_iff.mpr fun s₂ he₂ ↦ ?_
  obtain ⟨p, rfl⟩ := rebalanceIf_frame he₂
  obtain ⟨-, rfl⟩ := lock_eq_some.mp he
  exact if_pos rfl

/-- A `LOCKED` removal does not look at the mutex. -/
theorem remove_locked (fuel : ℕ) (s : BalancedBTree ι K) (b : Bool) (item : Option ι)
    (rebalance : Bool) :
    balancedBTreeRemove fuel (s.setMutex b) item .locked rebalance =
      (balancedBTreeRemove fuel s item .locked rebalance).map fun s ↦ s.setMutex b := by
  cases item with
  | none =>
      simp only [balancedBTreeRemove, enter, Option.bind_eq_bind, Option.bind_some,
        rebalanceIf_setMutex, Option.bind_map, Option.map_bind]
      rfl
  | some item =>
      by_cases ho : s.owner item = some s.self
      · have ho' : (s.setMutex b).owner item = some (s.setMutex b).self := ho
        have hreb : ∀ p : Pointers ι, rebalanceIf fuel { s.setMutex b with
              toPointers := p
              owner := Function.update (s.setMutex b).owner item none } rebalance =
            (rebalanceIf fuel { s with
              toPointers := p
              owner := Function.update s.owner item none } rebalance).map fun s ↦ s.setMutex b :=
          fun p ↦ rebalanceIf_setMutex fuel { s with
            toPointers := p
            owner := Function.update s.owner item none } b rebalance
        simp only [balancedBTreeRemove, ho, ho', ne_eq, not_true_eq_false, if_false, enter, leave,
          Option.bind_eq_bind, Option.bind_some, hreb, Option.map_bind, Option.bind_map,
          Function.comp_def, Option.map_some, apply_ite]
        rfl
      · have ho' : (s.setMutex b).owner item ≠ some (s.setMutex b).self := ho
        simp only [balancedBTreeRemove, ho, ho', ne_eq, not_false_eq_true, if_true]
        rfl

theorem remove_frame_locked {fuel : ℕ} {s s' : BalancedBTree ι K} {item : Option ι} {rebalance : Bool}
    (h : balancedBTreeRemove fuel s item .locked rebalance = some s') :
    ∃ p, s' = { s with toPointers := p, owner := ownerRemoved s item } := by
  cases item with
  | none =>
      simp only [balancedBTreeRemove, enter, Option.bind_eq_bind, Option.bind_some,
        Option.bind_fun_some] at h
      obtain ⟨p, rfl⟩ := rebalanceIf_frame h
      exact ⟨p, rfl⟩
  | some item =>
      simp only [balancedBTreeRemove] at h
      by_cases ho : s.owner item ≠ some s.self
      · rw [if_pos ho] at h
        cases h
        refine ⟨s.toPointers, ?_⟩
        simp only [ownerRemoved, if_pos ho]
      · rw [if_neg ho] at h
        simp only [enter, leave, Option.bind_eq_bind, Option.bind_some, Option.bind_fun_some,
          Option.bind_eq_some_iff] at h
        obtain ⟨left, -, right, -, h⟩ := h
        have hreb : ∃ p, rebalanceIf fuel { s with
            toPointers := p
            owner := Function.update s.owner item none } rebalance = some s' := by
          split at h
          · obtain ⟨replace, -, p, -, h⟩ := by simpa only [Option.bind_eq_some_iff] using h
            exact ⟨p, h⟩
          · obtain ⟨replace, -, p, -, h⟩ := by simpa only [Option.bind_eq_some_iff] using h
            exact ⟨p, h⟩
        obtain ⟨p, h⟩ := hreb
        obtain ⟨p', rfl⟩ := rebalanceIf_frame h
        refine ⟨p', ?_⟩
        simp only [ownerRemoved, if_neg ho]

/-- Whichever way it is told about the mutex, a removal that returns did the same. -/
theorem remove_locked_of {fuel : ℕ} {s s' : BalancedBTree ι K} {item : Option ι} {lock : Locked}
    {rebalance : Bool} (h : balancedBTreeRemove fuel s item lock rebalance = some s') :
    balancedBTreeRemove fuel s item .locked rebalance = some s' := by
  cases lock with
  | locked => exact h
  | unlocked =>
      cases item with
      | none =>
          rw [remove_none_unlocked] at h
          cases h
      | some item =>
          by_cases ho : s.owner item = some s.self
          · rw [remove_unlocked fuel ho] at h
            obtain ⟨s₁, hlock, h⟩ := Option.bind_eq_some_iff.mp h
            obtain ⟨s₂, he, rfl⟩ := Option.map_eq_some_iff.mp h
            obtain ⟨hm, rfl⟩ := lock_eq_some.mp hlock
            have hset : balancedBTreeRemove fuel (s.setMutex true) (some item) .locked rebalance =
              some s₂ := he
            rw [remove_locked] at hset
            obtain ⟨s₃, he₃, rfl⟩ := Option.map_eq_some_iff.mp hset
            obtain ⟨p, rfl⟩ := remove_frame_locked he₃
            rw [he₃]
            simp only [BalancedBTree.setMutex, balancedBTreeUnlock, hm]
          · rw [balancedBTreeRemove, if_pos ho] at h ⊢
            exact h

/-- A removal writes pointers and the `btree` field of its item, and leaves the
mutex as it was. -/
theorem remove_frame {fuel : ℕ} {s s' : BalancedBTree ι K} {item : Option ι} {lock : Locked}
    {rebalance : Bool} (h : balancedBTreeRemove fuel s item lock rebalance = some s') :
    ∃ p, s' = { s with toPointers := p, owner := ownerRemoved s item } :=
  remove_frame_locked (remove_locked_of h)

end Edits

end Beirdobot.BTree
