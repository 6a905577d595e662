import Mathlib.Data.List.Basic
import Mathlib.Data.Nat.Notation

/-!
# Transition systems

A system is a guarded step function: `step s e` is `none` when event `e` cannot
happen in state `s`.  A safety result is proved by `ReachableVia.invariant`, a
concrete run is replayed with `reachable_of_run`.  `ReachableVia C` is what is
reached by runs all of whose steps meet `C`.
-/

universe u v

namespace Beirdobot.Library

/-- Initial states and a step function. -/
structure System (σ : Type u) (ε : Type v) where
  init : σ → Prop
  step : σ → ε → Option σ

namespace System

variable {σ : Type u} {ε : Type v} {M : System σ ε} {C D : σ → ε → Prop}

/-- The states reached by runs whose steps all meet `C`. -/
inductive ReachableVia (M : System σ ε) (C : σ → ε → Prop) : σ → Prop
  | init {s : σ} (h : M.init s) : ReachableVia M C s
  | step {s s' : σ} {e : ε} (hs : ReachableVia M C s) (hc : C s e) (he : M.step s e = some s') :
      ReachableVia M C s'

/-- The states reached by any run. -/
def Reachable (M : System σ ε) : σ → Prop := M.ReachableVia fun _ _ ↦ True

theorem Reachable.init {s : σ} (h : M.init s) : M.Reachable s := ReachableVia.init h

theorem Reachable.step {s s' : σ} {e : ε} (hs : M.Reachable s) (he : M.step s e = some s') :
    M.Reachable s' :=
  ReachableVia.step hs trivial he

/-- What holds initially and is kept by every step that meets `C` holds in every
state reached by such steps. -/
theorem ReachableVia.invariant {I : σ → Prop} {s : σ} (h : M.ReachableVia C s)
    (hi : ∀ s, M.init s → I s)
    (hs : ∀ s e s', I s → C s e → M.step s e = some s' → I s') : I s := by
  induction h with
  | init h => exact hi _ h
  | step _ hc he ih => exact hs _ _ _ ih hc he

theorem Reachable.invariant {I : σ → Prop} {s : σ} (h : M.Reachable s)
    (hi : ∀ s, M.init s → I s) (hs : ∀ s e s', I s → M.step s e = some s' → I s') : I s :=
  ReachableVia.invariant h hi fun s e s' hI _ he ↦ hs s e s' hI he

theorem ReachableVia.mono {s : σ} (h : M.ReachableVia C s) (hCD : ∀ s e, C s e → D s e) :
    M.ReachableVia D s :=
  h.invariant (fun _ ↦ .init) fun s e _ hs hc he ↦ .step hs (hCD s e hc) he

theorem ReachableVia.reachable {s : σ} (h : M.ReachableVia C s) : M.Reachable s :=
  h.mono fun _ _ _ ↦ trivial

/-- The state after the events of a list, if each can happen. -/
def run (M : System σ ε) (s : σ) (es : List ε) : Option σ := es.foldlM M.step s

@[simp] theorem run_nil (s : σ) : M.run s [] = some s := rfl

@[simp] theorem run_cons (s : σ) (e : ε) (es : List ε) :
    M.run s (e :: es) = (M.step s e).bind fun s' ↦ M.run s' es := rfl

theorem run_append (s : σ) (es es' : List ε) :
    M.run s (es ++ es') = (M.run s es).bind fun s' ↦ M.run s' es' :=
  List.foldlM_append

theorem reachable_run {s s' : σ} {es : List ε} (hs : M.Reachable s)
    (h : M.run s es = some s') : M.Reachable s' := by
  induction es generalizing s with
  | nil => cases h; exact hs
  | cons e es ih =>
      obtain ⟨s₁, he, h⟩ := Option.bind_eq_some_iff.mp h
      exact ih (hs.step he) h

/-- No run of steps that meet `C` goes on forever. -/
def Terminates (M : System σ ε) (C : σ → ε → Prop) (s : σ) : Prop :=
  Acc (fun s' s ↦ ∃ e, C s e ∧ M.step s e = some s') s

/-- A rank that goes down with every step that meets `C`. -/
theorem terminates_of_rank {I : σ → ℕ → Prop}
    (hs : ∀ s r e s', I s r → C s e → M.step s e = some s' → ∃ r' < r, I s' r') {s : σ} {r : ℕ}
    (h : I s r) : M.Terminates C s := by
  induction r using Nat.strongRecOn generalizing s with
  | ind r ih =>
      refine .intro s ?_
      rintro s' ⟨e, hc, he⟩
      obtain ⟨r', hr', h'⟩ := hs s r e s' h hc he
      exact ih r' hr' h'

theorem Terminates.of_reachable (h : ∀ s, M.init s → M.Terminates (fun _ _ ↦ True) s) {s : σ}
    (hs : M.Reachable s) : M.Terminates (fun _ _ ↦ True) s :=
  hs.invariant h fun _ e _ hacc he ↦ hacc.inv ⟨e, trivial, he⟩

/-- A run that cannot go on forever ends, with what every step keeps. -/
theorem Terminates.exists_end {I : σ → Prop} {s : σ} (h : M.Terminates C s) (hI : I s)
    (hs : ∀ s e s', I s → C s e → M.step s e = some s' → I s') :
    ∃ s, I s ∧ ∀ e s', C s e → M.step s e ≠ some s' := by
  induction h with
  | intro s _ ih =>
      by_cases hend : ∀ e s', C s e → M.step s e ≠ some s'
      · exact ⟨s, hI, hend⟩
      · simp only [not_forall, not_not] at hend
        obtain ⟨e, s', hc, he⟩ := hend
        exact ih s' ⟨e, hc, he⟩ (hs s e s' hI hc he)

/-- Where there is always another step, the run goes on forever. -/
theorem not_terminates {I : σ → Prop} {s : σ} (hI : I s)
    (hs : ∀ s, I s → ∃ e s', C s e ∧ M.step s e = some s' ∧ I s') : ¬ M.Terminates C s := by
  intro h
  induction h with
  | intro s _ ih =>
      obtain ⟨e, s', hc, he, hI'⟩ := hs s hI
      exact ih s' ⟨e, hc, he⟩ hI'

theorem reachable_of_run {s s' : σ} {es : List ε} (hi : M.init s)
    (h : M.run s es = some s') : M.Reachable s' :=
  reachable_run (.init hi) h

/-- The system with a guard before each step. -/
def guard (M : System σ ε) (g : σ → ε → Bool) : System σ ε where
  init := M.init
  step s e := if g s e then M.step s e else none

theorem reachableVia_of_run {g : σ → ε → Bool} (hg : ∀ s e, g s e = true → C s e) {s s' : σ}
    {es : List ε} (hi : M.init s) (h : (M.guard g).run s es = some s') : M.ReachableVia C s' := by
  refine (reachable_of_run (M := M.guard g) hi h).invariant (fun _ h ↦ .init h) ?_
  intro s e s' hs he
  simp only [guard] at he
  split at he
  · rename_i hge
    exact hs.step (hg s e hge) he
  · cases he

end System

/-- A loop over a list whose turns all succeed and keep what is true with the items
that are left. -/
theorem foldlM_loop {σ : Type u} {α : Type v} {f : σ → α → Option σ} {P : σ → List α → Prop}
    (hstep : ∀ s a as, P s (a :: as) → ∃ s', f s a = some s' ∧ P s' as) {s : σ} {as : List α}
    (h : P s as) : ∃ s', as.foldlM f s = some s' ∧ P s' [] := by
  induction as generalizing s with
  | nil => exact ⟨s, rfl, h⟩
  | cons a as ih =>
      obtain ⟨s₁, he₁, h₁⟩ := hstep s a as h
      obtain ⟨s', he, h'⟩ := ih h₁
      exact ⟨s', by rw [List.foldlM_cons, he₁]; exact he, h'⟩

end Beirdobot.Library
