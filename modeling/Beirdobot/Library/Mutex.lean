import Mathlib.Logic.Function.Basic

/-!
# Calls that lock for themselves

A call that is told whether its caller holds the mutex does the same inside and
outside of it: outside it locks first and unlocks last, or returns before either.
Then it neither waits for a mutex its caller holds nor frees one, and outside it
returns whenever it does inside.
-/

universe u v

namespace Beirdobot.Library

variable {σ : Type u} {α : Type v}

/-- Where a state keeps a mutex. -/
structure MutexIn (σ : Type u) where
  held : σ → Bool
  set : σ → Bool → σ
  held_set : ∀ s b, held (set s b) = b
  set_held : ∀ s, set s (held s) = s
  set_set : ∀ s b b', set (set s b) b' = set s b'

namespace MutexIn

variable (M : MutexIn σ)

/-- Locking a mutex that is held does not return. -/
def lock (s : σ) : Option σ := if M.held s then none else some (M.set s true)

def unlock (s : σ) : σ := M.set s false

/-- Inside the mutex the call does not look at it; outside it does the same between
locking and unlocking, or without either. -/
structure Paired (inside outside : σ → Option (σ × α)) : Prop where
  oblivious : ∀ s b, inside (M.set s b) = (inside s).map fun r ↦ (M.set r.1 b, r.2)
  outside_eq : ∀ s, outside s = inside s ∨
    outside s = (M.lock s).bind fun s ↦ (inside s).map fun r ↦ (M.unlock r.1, r.2)

namespace Paired

variable {M} {inside outside : σ → Option (σ × α)} (h : M.Paired inside outside) {s : σ} {r : σ × α}

include h

/-- A call inside the mutex leaves it as it is. -/
theorem held_inside (he : inside s = some r) : M.held r.1 = M.held s := by
  have hset := h.oblivious s (M.held s)
  rw [M.set_held, he, Option.map_some, Option.some.injEq] at hset
  have hfst : r.1 = M.set r.1 (M.held s) := congrArg Prod.fst hset
  calc M.held r.1 = M.held (M.set r.1 (M.held s)) := congrArg M.held hfst
    _ = M.held s := M.held_set _ _

/-- Where nobody holds the mutex, the call does outside what it does inside. -/
theorem outside_of_free (hf : M.held s = false) : outside s = inside s := by
  rcases h.outside_eq s with he | he
  · exact he
  · have hlock : M.lock s = some (M.set s true) := by simp [lock, hf]
    rw [he, hlock, Option.bind_some, h.oblivious, Option.map_map]
    rcases hin : inside s with _ | ⟨s', a⟩
    · rfl
    · have hfree : M.set s' false = s' := by
        have hheld := h.held_inside hin
        rw [hf] at hheld
        exact hheld ▸ M.set_held s'
      simp [unlock, M.set_set, hfree]

/-- The mutex is held after the call if it was before. -/
theorem held_outside (hf : M.held s = false) (he : outside s = some r) : M.held r.1 = false := by
  rw [h.outside_of_free hf] at he
  rw [h.held_inside he, hf]

end Paired

end MutexIn

end Beirdobot.Library
