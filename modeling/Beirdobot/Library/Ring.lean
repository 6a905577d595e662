import Mathlib.Data.Nat.ModEq
import Mathlib.Data.List.Range
import Mathlib.Logic.Function.Basic
import Mathlib.Data.Nat.Bitwise
import Mathlib.Data.List.Nodup
import Mathlib.Data.List.Perm.Subperm

/-!
# Windows of a ring

A table of `n` slots read circularly.  `window n t a k` is the list of the `k`
slots from slot `a` on; storing at the slot after a window, or dropping its
first slot, does the same to the list as long as the window is not the whole ring.
-/

universe u

namespace Beirdobot.Library

variable {β : Type u} {n : ℕ} {t : ℕ → β}

/-- The slots `a`, `a + 1`, …, `a + k - 1` of a ring of `n` slots. -/
def window (n : ℕ) (t : ℕ → β) (a k : ℕ) : List β :=
  (List.range k).map fun i ↦ t ((a + i) % n)

@[simp] theorem length_window (a k : ℕ) : (window n t a k).length = k := by
  simp [window]

@[simp] theorem window_zero (a : ℕ) : window n t a 0 = [] := rfl

/-- A window ends with its last slot. -/
theorem window_succ (a k : ℕ) : window n t a (k + 1) = window n t a k ++ [t ((a + k) % n)] := by
  simp [window, List.range_succ]

/-- A window begins with its first slot. -/
theorem window_cons (a k : ℕ) :
    window n t a (k + 1) = t (a % n) :: window n t ((a + 1) % n) k := by
  simp only [window, List.range_succ_eq_map, List.map_cons, List.map_map, Nat.add_zero]
  congr 1
  refine List.map_congr_left fun i _ ↦ ?_
  show t ((a + (i + 1)) % n) = t (((a + 1) % n + i) % n)
  rw [Nat.mod_add_mod]
  congr 2
  omega

/-- A window is read in two parts. -/
theorem window_add (a i k : ℕ) :
    window n t a (i + k) = window n t a i ++ window n t (a + i) k := by
  simp only [window, List.range_add, List.map_append, List.map_map, Function.comp_def,
    Nat.add_assoc]

/-- A window can begin at any number of its first slot. -/
theorem window_mod (a k : ℕ) : window n t (a % n) k = window n t a k := by
  simp only [window, Nat.mod_add_mod]

/-- A window within another one. -/
theorem window_infix {a i k m : ℕ} (h : i + k ≤ m) :
    window n t (a + i) k <:+: window n t a m := by
  obtain ⟨l, rfl⟩ := Nat.exists_eq_add_of_le h
  refine ⟨window n t a i, window n t (a + (i + k)) l, ?_⟩
  rw [← window_add, ← window_add]

/-- What the slots of a window hold. -/
theorem map_window (a k : ℕ) : (window n id a k).map t = window n t a k := by
  simp [window]

/-- Two slots of a ring at a distance below its size are different. -/
theorem ring_ne {a i j : ℕ} (hij : i < j) (hj : j < i + n) : (a + i) % n ≠ (a + j) % n := by
  intro h
  have hmod : i ≡ j [MOD n] := Nat.ModEq.add_left_cancel' a h
  have hdvd : n ∣ j - i := (Nat.modEq_iff_dvd' hij.le).mp hmod
  have hle := Nat.le_of_dvd (by omega) hdvd
  omega

/-- Slots that begin inside a window, or right after it, are part of it exactly if they
end there. -/
theorem window_id_infix_iff {a i k m : ℕ} (hi : i ≤ m) (hm : m < n) :
    window n id (a + i) k <:+: window n id a m ↔ i + k ≤ m := by
  constructor
  · intro h
    by_contra hlt
    have hmem : (a + m) % n ∈ window n id (a + i) k :=
      List.mem_map.mpr ⟨m - i, List.mem_range.mpr (by omega), by
        show (a + i + (m - i)) % n = (a + m) % n
        rw [Nat.add_assoc, Nat.add_sub_cancel' hi]⟩
    obtain ⟨j, hj, he⟩ := List.mem_map.mp (h.subset hmem)
    exact ring_ne (List.mem_range.mp hj) (by omega) he
  · exact window_infix

/-- All slots of a ring, from any slot on. -/
theorem perm_window (a : ℕ) : (window n id a n).Perm (List.range n) := by
  have hnodup : (window n id a n).Nodup := by
    refine List.Nodup.map_on (fun i hi j hj h ↦ ?_) List.nodup_range
    rw [List.mem_range] at hi hj
    by_contra hne
    rcases Nat.lt_or_gt_of_ne hne with hij | hij
    · exact ring_ne hij (by omega) h
    · exact ring_ne hij (by omega) h.symm
  have hsub : window n id a n ⊆ List.range n := by
    intro x hx
    obtain ⟨i, hi, rfl⟩ := List.mem_map.mp hx
    rw [List.mem_range] at hi ⊢
    exact Nat.mod_lt _ (by omega)
  exact (List.subperm_of_subset hnodup hsub).perm_of_length_le (by simp)

/-- Storing at the slot after a window leaves the window as it is. -/
theorem window_update_after {a k : ℕ} (hk : k < n) (v : β) :
    window n (Function.update t ((a + k) % n) v) a k = window n t a k := by
  refine List.map_congr_left fun i hi ↦ ?_
  rw [List.mem_range] at hi
  exact Function.update_of_ne (ring_ne hi (by omega)) ..

/-- Storing at the slot before a window leaves the window as it is. -/
theorem window_update_before {a k : ℕ} (hk : k < n) (v : β) :
    window n (Function.update t (a % n) v) ((a + 1) % n) k = window n t ((a + 1) % n) k := by
  refine List.map_congr_left fun i hi ↦ ?_
  rw [List.mem_range] at hi
  have hne : (a + 0) % n ≠ (a + (i + 1)) % n := ring_ne (by omega) (by omega)
  refine Function.update_of_ne (fun h ↦ hne ?_) ..
  rw [Nat.mod_add_mod] at h
  rw [Nat.add_zero, ← h]
  congr 1
  omega

end Beirdobot.Library
