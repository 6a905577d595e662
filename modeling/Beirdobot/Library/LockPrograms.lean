import Beirdobot.Library.System
import Beirdobot.Library.WaitGraph
import Mathlib.Order.BooleanAlgebra.Set

/-!
# Threads that lock and unlock

A thread at work has a program of what it still locks and unlocks, and a thread
without one may start another.  While a mutex is held, what its holder still locks
before it unlocks it is known: these commitments are what a knot of waiting threads
is made of, and a step adds some only when it takes a mutex.
-/

universe u v w

namespace Beirdobot.Library

/-- What a program does to a mutex. -/
inductive LockAct (μ : Type u)
  | lock (m : μ)
  | unlock (m : μ)

variable {κ : Type u} {μ : Type v} {α : Type w}

/-- The mutexes of a thread that held `H` before the program. -/
def heldAfter : Set μ → List (LockAct μ) → Set μ
  | H, [] => H
  | H, .lock m :: p => heldAfter (insert m H) p
  | H, .unlock m :: p => heldAfter (H \ {m}) p

/-- The program locks only what the thread does not hold and may take, and unlocks
only what it holds. -/
def Legal (may : Set μ → μ → Prop) : Set μ → List (LockAct μ) → Prop
  | _, [] => True
  | H, .lock m :: p => m ∉ H ∧ may H m ∧ Legal may (insert m H) p
  | H, .unlock m :: p => m ∈ H ∧ Legal may (H \ {m}) p

/-- The program locks `m'` before it unlocks `m`. -/
def Needs (m m' : μ) : List (LockAct μ) → Prop
  | [] => False
  | .lock a :: p => a = m' ∨ Needs m m' p
  | .unlock a :: p => a ≠ m ∧ Needs m m' p

section Programs

variable {may : Set μ → μ → Prop} {H : Set μ} {m m' : μ} {p q : List (LockAct μ)}

theorem heldAfter_append (H : Set μ) (p q : List (LockAct μ)) :
    heldAfter H (p ++ q) = heldAfter (heldAfter H p) q := by
  induction p generalizing H with
  | nil => rfl
  | cons a p ih =>
      cases a with
      | lock m => exact ih (insert m H)
      | unlock m => exact ih (H \ {m})

theorem legal_append : Legal may H (p ++ q) ↔ Legal may H p ∧ Legal may (heldAfter H p) q := by
  induction p generalizing H with
  | nil => simp only [List.nil_append, Legal, heldAfter, true_and]
  | cons a p ih =>
      cases a with
      | lock m => simp only [List.cons_append, Legal, heldAfter, ih, and_assoc]
      | unlock m => simp only [List.cons_append, Legal, heldAfter, ih, and_assoc]

/-- A part of a program that leaves the mutexes as it found them. -/
def Within (may : Set μ → μ → Prop) (H : Set μ) (p : List (LockAct μ)) : Prop :=
  Legal may H p ∧ heldAfter H p = H

theorem Within.nil : Within may H [] := ⟨trivial, rfl⟩

theorem Within.append (hp : Within may H p) (hq : Within may H q) : Within may H (p ++ q) :=
  ⟨legal_append.mpr ⟨hp.1, by rw [hp.2]; exact hq.1⟩, by rw [heldAfter_append, hp.2, hq.2]⟩

theorem Within.flatMap {ι : Type u} {f : ι → List (LockAct μ)} (hf : ∀ i, Within may H (f i))
    (l : List ι) : Within may H (l.flatMap f) := by
  induction l with
  | nil => exact .nil
  | cons i l ih => exact (hf i).append ih

/-- A part of a program between locking and unlocking. -/
theorem Within.bracket (hm : m ∉ H) (hmay : may H m) (hp : Within may (insert m H) p) :
    Within may H (.lock m :: (p ++ [.unlock m])) := by
  constructor
  · refine ⟨hm, hmay, legal_append.mpr ⟨hp.1, ?_⟩⟩
    rw [hp.2]
    exact ⟨Set.mem_insert m H, trivial⟩
  · rw [heldAfter, heldAfter_append, hp.2]
    exact Set.insert_sdiff_self_of_notMem hm

/-- What the holder of a mutex still locks, it may lock with that mutex. -/
theorem Legal.of_needs (h : Legal may H p) (hm : m ∈ H) (hn : Needs m m' p) :
    ∃ H', m ∈ H' ∧ m' ∉ H' ∧ may H' m' := by
  induction p generalizing H with
  | nil => exact hn.elim
  | cons a p ih =>
      cases a with
      | lock a =>
          rcases hn with rfl | hn
          · exact ⟨H, hm, h.1, h.2.1⟩
          · exact ih h.2.2 (Set.mem_insert_of_mem a hm) hn
      | unlock a =>
          have hne : m ≠ a := fun he ↦ hn.1 he.symm
          exact ih h.2 ⟨hm, hne⟩ hn.2

end Programs

/-- What each thread still does, and who holds each mutex. -/
structure Locks (κ : Type u) (μ : Type v) where
  todo : κ → List (LockAct μ)
  holder : μ → Option κ

/-- A thread starts an activity, or does the next action of its program. -/
inductive LockEvent (κ : Type u) (α : Type w)
  | start (t : κ) (a : α)
  | act (t : κ)

namespace Locks

/-- The mutexes of a thread. -/
def held (s : Locks κ μ) (t : κ) : Set μ := { m | s.holder m = some t }

/-- Whom a thread waits for: the holder of the mutex it locks next. -/
def waits (s : Locks κ μ) (t : κ) : Option κ :=
  match s.todo t with
  | .lock m :: _ => s.holder m
  | _ => none

/-- The holder of `m` locks `m'` before it unlocks `m`. -/
def Commits (s : Locks κ μ) (m m' : μ) : Prop :=
  ∃ t, s.holder m = some t ∧ Needs m m' (s.todo t)

/-- The holder of `m` locks `m'` next. -/
def Blocks (s : Locks κ μ) (m m' : μ) : Prop :=
  ∃ t p, s.holder m = some t ∧ s.todo t = .lock m' :: p

/-- What the step that takes `m` commits its thread to. -/
def Pledges (s : Locks κ μ) : LockEvent κ α → μ → μ → Prop
  | .start _ _, _, _ => False
  | .act t, m, m' => ∃ p, s.todo t = .lock m :: p ∧ Needs m m' p

theorem Blocks.commits {s : Locks κ μ} {m m' : μ} (h : s.Blocks m m') : s.Commits m m' := by
  obtain ⟨t, p, ht, hp⟩ := h
  exact ⟨t, ht, by rw [hp]; exact .inl rfl⟩

/-- Among the mutexes that a knot of threads waits for, each blocks another. -/
theorem blocks_of_knot {s : Locks κ μ} {S : Set κ} (h : Knot s.waits S) :
    ∃ M : Set μ, M.Nonempty ∧ ∀ m ∈ M, ∃ m' ∈ M, s.Blocks m m' := by
  have hnext : ∀ t ∈ S, ∃ m p, s.todo t = .lock m :: p ∧ ∃ u ∈ S, s.holder m = some u := by
    intro t ht
    obtain ⟨u, hu, hw⟩ := h.2 t ht
    rcases hp : s.todo t with _ | ⟨m | m, p⟩
    · rw [waits, hp] at hw
      cases hw
    · rw [waits, hp] at hw
      exact ⟨m, p, rfl, u, hu, hw⟩
    · rw [waits, hp] at hw
      cases hw
  refine ⟨{ m | ∃ t ∈ S, ∃ p, s.todo t = .lock m :: p }, ?_, ?_⟩
  · obtain ⟨t, ht⟩ := h.1
    obtain ⟨m, p, hp, -⟩ := hnext t ht
    exact ⟨m, t, ht, p, hp⟩
  · rintro m ⟨t, ht, p, hp⟩
    obtain ⟨m₁, p₁, hp₁, u, hu, hholder⟩ := hnext t ht
    rw [hp, List.cons.injEq, LockAct.lock.injEq] at hp₁
    obtain ⟨m', p', hp', -⟩ := hnext u hu
    exact ⟨m', ⟨u, hu, p', hp'⟩, u, p', hp₁.1 ▸ hholder, hp'⟩

variable [DecidableEq κ] [DecidableEq μ]

/-- The state after a thread took or freed a mutex. -/
def after (s : Locks κ μ) (t : κ) (m : μ) (p : List (LockAct μ)) (o : Option κ) : Locks κ μ where
  todo := Function.update s.todo t p
  holder := Function.update s.holder m o

/-- A thread with nothing to do starts what it may; a mutex that is held cannot be
locked. -/
def step (program : κ → α → Option (List (LockAct μ))) (s : Locks κ μ) :
    LockEvent κ α → Option (Locks κ μ)
  | .start t a =>
      match s.todo t with
      | [] => (program t a).map fun p ↦ { s with todo := Function.update s.todo t p }
      | _ :: _ => none
  | .act t =>
      match s.todo t with
      | [] => none
      | .lock m :: p => if s.holder m = none then some (s.after t m p (some t)) else none
      | .unlock m :: p => some (s.after t m p none)

/-- The threads with nothing to do, and all mutexes free. -/
def system (program : κ → α → Option (List (LockAct μ))) : System (Locks κ μ) (LockEvent κ α) where
  init s := (∀ t, s.todo t = []) ∧ ∀ m, s.holder m = none
  step := step program

variable {program : κ → α → Option (List (LockAct μ))} {s s' : Locks κ μ} {e : LockEvent κ α}

/-- The steps there are. -/
theorem step_cases (h : step program s e = some s') :
    (∃ t a p, e = .start t a ∧ s.todo t = [] ∧ program t a = some p ∧
      s' = { s with todo := Function.update s.todo t p }) ∨
    (∃ t m p, e = .act t ∧ s.todo t = .lock m :: p ∧ s.holder m = none ∧
      s' = s.after t m p (some t)) ∨
    ∃ t m p, e = .act t ∧ s.todo t = .unlock m :: p ∧ s' = s.after t m p none := by
  cases e with
  | start t a =>
      rcases hp : s.todo t with _ | ⟨b, q⟩
      · simp only [step, hp] at h
        obtain ⟨p, hp', rfl⟩ := Option.map_eq_some_iff.mp h
        exact .inl ⟨t, a, p, rfl, hp, hp', rfl⟩
      · simp [step, hp] at h
  | act t =>
      rcases hp : s.todo t with _ | ⟨m | m, p⟩
      · simp [step, hp] at h
      · simp only [step, hp, Option.ite_none_right_eq_some, Option.some.injEq] at h
        exact .inr (.inl ⟨t, m, p, rfl, hp, h.1, h.2.symm⟩)
      · simp only [step, hp, Option.some.injEq] at h
        exact .inr (.inr ⟨t, m, p, rfl, hp, h.symm⟩)

/-- Each thread is in a legal program that ends without a mutex, and holds only what
it may take. -/
structure Sound (may : κ → Set μ → μ → Prop) (s : Locks κ μ) : Prop where
  legal : ∀ t, Legal (may t) (s.held t) (s.todo t)
  done : ∀ t, heldAfter (s.held t) (s.todo t) = ∅
  taken : ∀ t, ∀ m ∈ s.held t, ∃ H, may t H m

section Sound

variable {may : κ → Set μ → μ → Prop}

omit [DecidableEq μ] in
theorem held_start (s : Locks κ μ) (t : κ) (p : List (LockAct μ)) :
    ({ s with todo := Function.update s.todo t p } : Locks κ μ).held = s.held := rfl

theorem held_lock {t : κ} {m : μ} {p : List (LockAct μ)} (hm : s.holder m = none) (u : κ) :
    (s.after t m p (some t)).held u = if u = t then insert m (s.held t) else s.held u := by
  ext m'
  by_cases hm' : m' = m
  · subst hm'
    by_cases hu : u = t
    · simp [held, after, hu]
    · simp [held, after, hu, hm, Ne.symm hu]
  · by_cases hu : u = t
    · simp [held, after, hu, hm']
    · simp [held, after, hu, hm']

theorem held_unlock {t : κ} {m : μ} {p : List (LockAct μ)} (hm : s.holder m = some t) (u : κ) :
    (s.after t m p none).held u = if u = t then s.held t \ {m} else s.held u := by
  ext m'
  by_cases hm' : m' = m
  · subst hm'
    by_cases hu : u = t
    · simp [held, after, hu]
    · simp [held, after, hu, hm, Ne.symm hu]
  · by_cases hu : u = t
    · simp [held, after, hu, hm']
    · simp [held, after, hu, hm']

theorem sound_init (h : (system program).init s) : Sound may s := by
  have hheld : ∀ t, s.held t = ∅ := fun t ↦ Set.eq_empty_iff_forall_notMem.mpr fun m hm ↦ by
    rw [held, Set.mem_ofPred_eq, h.2 m] at hm
    cases hm
  refine ⟨fun t ↦ ?_, fun t ↦ ?_, fun t m hm ↦ ?_⟩
  · rw [h.1 t]
    trivial
  · rw [h.1 t, heldAfter, hheld]
  · rw [hheld] at hm
    exact hm.elim

/-- If every activity is legal, so is every state. -/
theorem Sound.step (hprogram : ∀ t a p, program t a = some p → Within (may t) ∅ p)
    (h : Sound may s) (he : step program s e = some s') : Sound may s' := by
  obtain ⟨t, a, p, rfl, hidle, hp, rfl⟩ | ⟨t, m, p, rfl, hp, hm, rfl⟩ | ⟨t, m, p, rfl, hp, rfl⟩ :=
    step_cases he
  · have hempty : s.held t = ∅ := by
      have hdone := h.done t
      rwa [hidle, heldAfter] at hdone
    have hlegal := hprogram t a p hp
    refine ⟨fun u ↦ ?_, fun u ↦ ?_, h.taken⟩ <;> rw [held_start] <;>
      by_cases hu : u = t
    · subst hu
      simp only [Function.update_self, hempty]
      exact hlegal.1
    · simpa only [Function.update_of_ne hu] using h.legal u
    · subst hu
      simp only [Function.update_self, hempty]
      exact hlegal.2
    · simpa only [Function.update_of_ne hu] using h.done u
  · have hlegal := h.legal t
    have hdone := h.done t
    rw [hp] at hlegal hdone
    obtain ⟨-, hmay, hlegal⟩ := hlegal
    refine ⟨fun u ↦ ?_, fun u ↦ ?_, fun u m' hm' ↦ ?_⟩
    · rw [held_lock hm]
      by_cases hu : u = t
      · subst hu
        simpa [after] using hlegal
      · simpa [after, hu] using h.legal u
    · rw [held_lock hm]
      by_cases hu : u = t
      · subst hu
        simpa [after, heldAfter] using hdone
      · simpa [after, hu] using h.done u
    · rw [held_lock hm] at hm'
      by_cases hu : u = t
      · subst hu
        rw [if_pos rfl] at hm'
        obtain rfl | hm' := hm'
        · exact ⟨_, hmay⟩
        · exact h.taken u m' hm'
      · rw [if_neg hu] at hm'
        exact h.taken u m' hm'
  · have hlegal := h.legal t
    have hdone := h.done t
    rw [hp] at hlegal hdone
    obtain ⟨hm, hlegal⟩ := hlegal
    have hm : s.holder m = some t := hm
    refine ⟨fun u ↦ ?_, fun u ↦ ?_, fun u m' hm' ↦ ?_⟩
    · rw [held_unlock hm]
      by_cases hu : u = t
      · subst hu
        simpa [after] using hlegal
      · simpa [after, hu] using h.legal u
    · rw [held_unlock hm]
      by_cases hu : u = t
      · subst hu
        simpa [after, heldAfter] using hdone
      · simpa [after, hu] using h.done u
    · rw [held_unlock hm] at hm'
      by_cases hu : u = t
      · subst hu
        rw [if_pos rfl] at hm'
        exact h.taken u m' hm'.1
      · rw [if_neg hu] at hm'
        exact h.taken u m' hm'

omit [DecidableEq κ] [DecidableEq μ] in
/-- The thread that is about to lock `m'` does not hold it and may take it. -/
theorem Sound.of_blocks (h : Sound may s) {m m' : μ} (hb : s.Blocks m m') :
    ∃ t, s.holder m = some t ∧ s.holder m' ≠ some t ∧ may t (s.held t) m' := by
  obtain ⟨t, p, ht, hp⟩ := hb
  have hlegal := h.legal t
  rw [hp] at hlegal
  exact ⟨t, ht, hlegal.1, hlegal.2.1⟩

end Sound

/-- A step adds no commitment but those of the mutex it takes. -/
theorem commits_step {may : κ → Set μ → μ → Prop} (hs : Sound may s)
    (he : step program s e = some s') {m m' : μ} (h : s'.Commits m m') :
    s.Commits m m' ∨ s.Pledges e m m' := by
  obtain ⟨t, a, p, rfl, hidle, -, rfl⟩ | ⟨t, a, p, rfl, hp, ha, rfl⟩ | ⟨t, a, p, rfl, hp, rfl⟩ :=
    step_cases he
  · obtain ⟨u, hu, hn⟩ := h
    have hne : u ≠ t := by
      rintro rfl
      have hdone := hs.done u
      rw [hidle, heldAfter] at hdone
      have hmem : m ∈ s.held u := hu
      rw [hdone] at hmem
      exact hmem
    simp only [Function.update_of_ne hne] at hn
    exact .inl ⟨u, hu, hn⟩
  · obtain ⟨u, hu, hn⟩ := h
    by_cases hm : m = a
    · subst hm
      simp only [after, Function.update_self, Option.some.injEq] at hu hn
      subst hu
      rw [Function.update_self] at hn
      exact .inr ⟨p, hp, hn⟩
    · left
      simp only [after, Function.update_of_ne hm] at hu hn
      refine ⟨u, hu, ?_⟩
      by_cases hut : u = t
      · subst hut
        rw [Function.update_self] at hn
        rw [hp]
        exact .inr hn
      · rwa [Function.update_of_ne hut] at hn
  · obtain ⟨u, hu, hn⟩ := h
    left
    by_cases hm : m = a
    · subst hm
      simp only [after, Function.update_self] at hu
      cases hu
    · simp only [after, Function.update_of_ne hm] at hu hn
      refine ⟨u, hu, ?_⟩
      by_cases hut : u = t
      · subst hut
        rw [Function.update_self] at hn
        rw [hp]
        exact ⟨fun he ↦ hm he.symm, hn⟩
      · rwa [Function.update_of_ne hut] at hn

end Locks

end Beirdobot.Library
