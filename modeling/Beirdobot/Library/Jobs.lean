import Mathlib.Data.List.Basic
import Mathlib.Data.Nat.Notation

/-!
# Jobs that queue jobs

A worker takes jobs from a queue, one after the other.  Each changes a state that they share, and
queues further jobs at the end.  The jobs have ranks that go down, so the queue runs empty:
`passes` gives what is left then, and a turn of the worker does not change it (`passes_serve`).
-/

universe u v

namespace Beirdobot.Library

/-- What a job does to the state, and the jobs that it queues. -/
structure Jobs (τ : Type u) (κ : Type v) where
  run : τ → κ → τ
  queued : τ → κ → List κ
  rank : κ → ℕ
  rank_lt : ∀ {t q q'}, q' ∈ queued t q → rank q' < rank q

namespace Jobs

variable {τ : Type u} {κ : Type v} (J : Jobs τ κ)

/-- All jobs of a queue, and what they queued. -/
def pass : τ → List κ → τ × List κ
  | t, [] => (t, [])
  | t, q :: queue =>
      let rest := pass (J.run t q) queue
      (rest.1, J.queued t q ++ rest.2)

/-- So many passes, each over what the one before it queued. -/
def passes : ℕ → τ → List κ → τ
  | 0, t, _ => t
  | n + 1, t, queue => passes n (J.pass t queue).1 (J.pass t queue).2

/-- The ranks of the jobs stay below a bound. -/
def Below (n : ℕ) (queue : List κ) : Prop := ∀ q ∈ queue, J.rank q < n

variable {J} {n : ℕ} {t : τ} {q : κ} {queue queue' : List κ}

@[simp] theorem pass_nil : J.pass t [] = (t, []) := rfl

@[simp] theorem pass_cons : J.pass t (q :: queue) =
    ((J.pass (J.run t q) queue).1, J.queued t q ++ (J.pass (J.run t q) queue).2) := rfl

theorem pass_append : J.pass t (queue ++ queue') =
    ((J.pass (J.pass t queue).1 queue').1,
      (J.pass t queue).2 ++ (J.pass (J.pass t queue).1 queue').2) := by
  induction queue generalizing t with
  | nil => rfl
  | cons q queue ih =>
      simp only [List.cons_append, pass_cons, ih, List.append_assoc]

theorem pass_fst : (J.pass t queue).1 = queue.foldl J.run t := by
  induction queue generalizing t with
  | nil => rfl
  | cons q queue ih => exact ih

/-- What holds of the state and is kept by each job of the queue holds after the pass. -/
theorem pass_invariant {I : τ → Prop} (h : I t) (hs : ∀ t, ∀ q ∈ queue, I t → I (J.run t q)) :
    I (J.pass t queue).1 := by
  induction queue generalizing t with
  | nil => exact h
  | cons q queue ih =>
      apply ih (hs t q (.head _) h)
      intro t q hq
      exact hs t q (.tail _ hq)

/-- What was queued was queued by one of the jobs, in the state that the jobs before it left. -/
theorem mem_pass (h : q ∈ (J.pass t queue).2) : ∃ before q' after, queue = before ++ q' :: after ∧
    q ∈ J.queued (J.pass t before).1 q' := by
  induction queue generalizing t with
  | nil => cases h
  | cons q' queue ih =>
      rcases List.mem_append.mp h with h | h
      · exact ⟨[], q', queue, rfl, h⟩
      · obtain ⟨before, q'', after, rfl, hq⟩ := ih h
        exact ⟨q' :: before, q'', after, rfl, hq⟩

/-- A map of the states that every job of the queue commutes with. -/
theorem pass_map {f : τ → τ}
    (h : ∀ t, ∀ q ∈ queue, J.run (f t) q = f (J.run t q) ∧ J.queued (f t) q = J.queued t q) :
    J.pass (f t) queue = (f (J.pass t queue).1, (J.pass t queue).2) := by
  induction queue generalizing t with
  | nil => rfl
  | cons q queue ih =>
      obtain ⟨hrun, hqueued⟩ := h t q (.head _)
      have hrest := ih (t := J.run t q) fun t q hq ↦ h t q (.tail _ hq)
      rw [pass_cons, hrun, hqueued, hrest, pass_cons]

theorem Below.append (h : J.Below n queue) (h' : J.Below n queue') :
    J.Below n (queue ++ queue') := by
  intro q hq
  rcases List.mem_append.mp hq with hq | hq
  · exact h q hq
  · exact h' q hq

theorem Below.left (h : J.Below n (queue ++ queue')) : J.Below n queue :=
  fun q hq ↦ h q (List.mem_append_left _ hq)

theorem Below.right (h : J.Below n (queue ++ queue')) : J.Below n queue' :=
  fun q hq ↦ h q (List.mem_append_right _ hq)

theorem Below.queued (h : J.rank q < n + 1) : J.Below n (J.queued t q) :=
  fun _ hq' ↦ Nat.lt_of_lt_of_le (J.rank_lt hq') (Nat.le_of_lt_succ h)

/-- A pass lowers the ranks. -/
theorem Below.pass (h : J.Below (n + 1) queue) : J.Below n (J.pass t queue).2 := by
  induction queue generalizing t with
  | nil => exact fun _ hq ↦ by cases hq
  | cons q queue ih =>
      exact .append (.queued (h q (.head _))) (ih fun q hq ↦ h q (.tail _ hq))

/-- Jobs at the front of the queue may go first, and leave what they queue at its end. -/
theorem passes_append (h : J.Below n (queue ++ queue')) :
    J.passes n t (queue ++ queue') =
      J.passes n (J.pass t queue).1 (queue' ++ (J.pass t queue).2) := by
  induction n generalizing t queue queue' with
  | zero =>
      cases queue with
      | nil => rfl
      | cons q queue => exact absurd (h q (.head _)) (Nat.not_lt_zero _)
  | succ n ih =>
      have hbelow : J.Below n ((J.pass t queue).2 ++ (J.pass (J.pass t queue).1 queue').2) :=
        .append h.left.pass h.right.pass
      rw [passes, pass_append, ih hbelow, passes, pass_append]

/-- A turn of the worker does not change what will be left. -/
theorem passes_serve (h : J.Below n (q :: queue)) :
    J.passes n t (q :: queue) = J.passes n (J.run t q) (queue ++ J.queued t q) := by
  have happend : J.passes n t ([q] ++ queue) =
      J.passes n (J.pass t [q]).1 (queue ++ (J.pass t [q]).2) := passes_append h
  rwa [List.singleton_append, pass_cons, pass_nil, List.append_nil] at happend

theorem passes_nil : J.passes n t [] = t := by
  induction n with
  | zero => rfl
  | succ n ih => exact ih

end Jobs

end Beirdobot.Library
