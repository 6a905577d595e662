import Beirdobot.Mysql.Thread
import Mathlib.Data.List.Count

/-!
# The arrays of the queries

The thread frees the array of an item, unless the query has a chain function; then it
is for that function to give the array to another query.
-/

namespace Beirdobot.Mysql.Thread

open Library

variable {ρ : Type}

/-- How often an array is with a query of the queue, or was freed. -/
def State.places (s : State ρ) (a : ℕ) : ℕ :=
  (s.queue.filterMap Item.queryData).count a + s.freed.count a

/-- Every array that was given to `db_queue_query` is with one query of the queue, or was
freed once, apart from an array that the thread has. -/
def Off (d : Option ℕ) (s : State ρ) : Prop :=
  ∀ a, s.places a + d.toList.count a = if a < s.fresh then 1 else 0

/-- The thread has none. -/
def Released (s : State ρ) : Prop := Off none s

/-- A query with a chain function and an array is answered, has no callback, and its
chain function gives the array to another query. -/
def Keeps (s : State ρ) (e : Event ρ) : Prop :=
  ∀ item own f chain, Serves s e item own f → item.queryData ≠ none → item.chain = some chain →
    f.Answered ∧ item.callback = false ∧ (chain = .chainUpdateNick ∨ chain = .chainSetSetting)

section Arrays

variable {s s' : State ρ} {e : Event ρ} {d : Option ℕ}

theorem places_dbQueueQuery (s : State ρ) (item : Item) (a : ℕ) :
    (s.dbQueueQuery item).places a = s.places a + item.queryData.toList.count a := by
  have hdata : [item].filterMap Item.queryData = item.queryData.toList := by
    cases hd : item.queryData <;> simp [hd]
  simp only [State.places, State.dbQueueQuery, List.filterMap_append, List.count_append, hdata]
  omega

/-- The array goes to a query. -/
theorem Off.requeue (h : Off d s) {item : Item} (hd : item.queryData = d) :
    Released (s.dbQueueQuery item) := by
  intro a
  rw [places_dbQueueQuery, hd, Option.toList_none, List.count_nil, Nat.add_zero]
  exact h a

/-- A query with a new array leaves the others alone. -/
theorem Off.queueFresh (h : Off d s) {item : Item} (hd : item.queryData = some s.fresh) :
    Off d (State.dbQueueQuery { s with fresh := s.fresh + 1 } item) := by
  intro a
  have hplaces : ({ s with fresh := s.fresh + 1 } : State ρ).places a = s.places a := rfl
  have ha := h a
  rw [places_dbQueueQuery, hplaces, hd, Option.toList_some, List.count_singleton]
  show _ = if a < s.fresh + 1 then 1 else 0
  by_cases hlt : a < s.fresh
  · rw [if_pos hlt] at ha
    have hne : ¬ (s.fresh == a) = true := by
      rw [beq_iff_eq]
      omega
    rw [if_neg hne, if_pos (Nat.lt_succ_of_lt hlt)]
    omega
  · rw [if_neg hlt] at ha
    by_cases heq : s.fresh = a
    · rw [if_pos (beq_iff_eq.mpr heq), if_pos (by omega)]
      omega
    · rw [if_neg (by simpa using heq), if_neg (by omega)]
      omega

theorem Off.queueNew (h : Off d s) (queryId : ℕ) : Off d (s.queueNew queryId) :=
  h.queueFresh rfl

theorem Off.flushRow (h : Off d s) (item : Item) (channel : Bool) :
    Off d (s.flushRow item channel) := by
  have hmove : ∀ s : State ρ, Off d s → Off d s.moveNick := fun s h ↦ (h.queueNew 3).queueNew 9
  rw [State.flushRow]
  cases channel with
  | false => exact h
  | true =>
      have hnick : Off d (if item.newNick then s.moveNick.moveNick else s.moveNick) := by
        split
        · exact hmove _ (hmove _ h)
        · exact hmove _ h
      rw [if_pos rfl]
      dsimp only
      split
      · exact hnick.queueNew 2
      · exact hnick

/-- Two of the chain functions give the array to another query, the others do not. -/
theorem Off.runChain (h : Off d s) (channel : ρ → Bool) (res : Option (List ρ)) {item : Item}
    (hd : item.queryData = d) (chain : Chain) :
    if chain = .chainUpdateNick ∨ chain = .chainSetSetting
    then Released (s.runChain channel res item chain)
    else Off d (s.runChain channel res item chain) := by
  cases chain with
  | chainUpdateNick =>
      rw [if_pos (.inl rfl), State.runChain, State.chainUpdateNick]
      split <;> exact h.requeue hd
  | chainFlushNick =>
      rw [if_neg (by decide), State.runChain, State.chainFlushNick]
      induction res.getD [] generalizing s with
      | nil => exact h
      | cons row rows ih => exact ih (h.flushRow item (channel row))
  | chainSetSetting =>
      rw [if_pos (.inr rfl), State.runChain, State.chainSetSetting]
      split <;> exact h.requeue hd
  | chainSetAuth =>
      rw [if_neg (by decide), State.runChain, State.chainSetAuth]
      split
      · exact h.queueNew 19
      · exact h.queueNew 20

/-- An array that the thread has is not accounted for. -/
theorem Off.released_iff (h : Off d s) : Released s ↔ d = none := by
  constructor
  · intro hr
    cases d with
    | none => rfl
    | some a =>
        have ha := h a
        rw [← hr a] at ha
        simp at ha
  · rintro rfl
    exact h

/-- The callback or chain function of a turn gives the array to another query, or leaves
it to the thread. -/
theorem Off.answer (h : Off d s) (channel : ρ → Bool) {item : Item} (hd : item.queryData = d)
    (own : Answer ρ) (f : Fetched ρ) :
    if f.Answered ∧ item.callback = false ∧
        (item.chain = some .chainUpdateNick ∨ item.chain = some .chainSetSetting)
    then Released (s.answer channel item own f) else Off d (s.answer channel item own f) := by
  rw [State.answer]
  by_cases hf : f.Answered
  · rw [if_pos hf]
    by_cases hc : item.callback = true
    · rw [if_neg (by simp [hc]), if_pos hc]
      exact h
    · rw [if_neg hc]
      rcases hchain : item.chain with _ | chain
      · rw [if_neg (by simp)]
        exact h
      · have hcalled : Off d ({ s with calls := s.calls ++ [⟨item, f.res, f.insertid, own⟩] } :
            State ρ) := h
        have hrun := hcalled.runChain channel f.res hd chain
        simpa [hf, hc] using hrun
  · rw [if_neg fun h ↦ hf h.1, if_neg hf]
    exact h

/-- What the thread still has is freed, if the query has no chain function. -/
theorem Off.release (h : Off d s) {item : Item} (hd : item.queryData = d)
    (hc : item.chain = none) : Released (s.release item) := by
  intro a
  simp only [State.release, hc, State.places, List.count_append, hd, Option.toList_none,
    List.count_nil]
  have ha := h a
  rw [State.places] at ha
  omega

theorem release_of_chain {item : Item} (hc : item.chain ≠ none) : s.release item = s := by
  obtain ⟨chain, hchain⟩ := Option.ne_none_iff_exists'.mp hc
  rw [State.release, hchain]

/-- The item that is taken from the queue. -/
theorem Released.pop {item : Item} {queue : List Item} (h : Released s)
    (hq : s.queue = item :: queue) (insertid : ℤ) :
    Off item.queryData ({ s with queue, insertid } : State ρ) := by
  intro a
  have ha := h a
  simp only [State.places, hq, Option.toList_none, List.count_nil, Nat.add_zero] at ha ⊢
  rcases hd : item.queryData with _ | b
  · rw [List.filterMap_cons_none hd] at ha
    simpa using ha
  · rw [List.filterMap_cons_some hd, List.count_cons] at ha
    rw [Option.toList_some, List.count_singleton, ← ha]
    omega

/-- A step loses no array if and only if it meets the condition. -/
theorem step_released_iff (hs : Released s) (he : step s e = some s') :
    Released s' ↔ Keeps s e := by
  obtain ⟨core, queryId, array, callback, text, newNick, rfl, rfl⟩ |
    ⟨channel, answers, item, queue, own, f, rfl, hq, hf, rfl⟩ := step_cases he
  · constructor
    · rintro - item own f chain ⟨channel, answers, queue, he, -⟩
      cases he
    · intro _
      cases array with
      | false =>
          have hqueue : Released (s.dbQueueQuery ⟨core, queryId, none, callback, text, newNick⟩) :=
            hs.requeue rfl
          exact hqueue
      | true =>
          have hqueue : Released (State.dbQueueQuery { s with fresh := s.fresh + 1 }
              ⟨core, queryId, some s.fresh, callback, text, newNick⟩) := hs.queueFresh rfl
          exact hqueue
  · have hoff := (hs.pop hq f.insertid).answer channel rfl own f
    have hkeeps : Keeps s (.serve channel answers) ↔ (item.queryData ≠ none →
        ∀ chain, item.chain = some chain → f.Answered ∧ item.callback = false ∧
          (chain = .chainUpdateNick ∨ chain = .chainSetSetting)) := by
      constructor
      · intro h hd chain
        exact h item own f chain ⟨channel, answers, queue, rfl, hq, hf⟩ hd
      · rintro h item' own' f' chain ⟨channel', answers', queue', he, hq', hf'⟩
        cases he
        rw [hq, List.cons.injEq] at hq'
        rw [hf, Option.some.injEq, Prod.mk.injEq] at hf'
        rw [← hq'.1, ← hf'.2]
        exact fun hd ↦ h hd chain
    rw [hkeeps]
    rcases hchain : item.chain with _ | chain
    · rw [if_neg (by simp [hchain])] at hoff
      exact ⟨fun _ _ _ h ↦ by simp at h, fun _ ↦ hoff.release rfl hchain⟩
    · rw [release_of_chain (by simp [hchain])]
      by_cases hgives : f.Answered ∧ item.callback = false ∧
          (item.chain = some .chainUpdateNick ∨ item.chain = some .chainSetSetting)
      · rw [if_pos hgives] at hoff
        refine ⟨fun _ _ chain' hc ↦ ?_, fun _ ↦ hoff⟩
        obtain rfl := Option.some.inj hc
        simpa [hchain] using hgives
      · rw [if_neg hgives] at hoff
        rw [hoff.released_iff]
        constructor
        · intro hd hne
          exact absurd hd hne
        · intro h
          by_contra hd
          exact hgives (by simpa [hchain] using h hd chain rfl)

theorem answer_freed (s : State ρ) (channel : ρ → Bool) (item : Item) (own : Answer ρ)
    (f : Fetched ρ) : (s.answer channel item own f).freed = s.freed := by
  rw [State.answer]
  split
  · split
    · rfl
    · split
      · rfl
      · exact (runChain_frame _ _ _ _ _).2
  · rfl

/-- What was freed stays so. -/
theorem step_freed (he : step s e = some s') : s.freed <+: s'.freed := by
  obtain ⟨core, queryId, array, callback, text, newNick, rfl, rfl⟩ |
    ⟨channel, answers, item, queue, own, f, rfl, -, -, rfl⟩ := step_cases he
  · exact List.prefix_rfl
  · rw [State.release]
    split
    · show s.freed <+: State.freed _ ++ _
      rw [answer_freed]
      exact List.prefix_append _ _
    · have hfreed := answer_freed { s with queue, insertid := f.insertid } channel item own f
      exact ⟨[], (List.append_nil _).trans hfreed.symm⟩

end Arrays

/-- In every run whose steps meet the condition, every array is with one query of the
queue or was freed once, and then for good; a step that does not meet it loses one. -/
theorem arrays_released (s : State ρ) (h : (system ρ).ReachableVia Keeps s) :
    Released s ∧ ∀ e s', (system ρ).step s e = some s' →
      s.freed <+: s'.freed ∧ (Released s' ↔ Keeps s e) := by
  have hreleased : Released s := by
    refine h.invariant (I := Released) ?_ ?_
    · rintro s ⟨hqueue, -, hfreed, hfresh⟩ a
      simp [State.places, hqueue, hfreed, hfresh]
    · intro s e s' hs hc he
      exact (step_released_iff hs he).mpr hc
  exact ⟨hreleased, fun e s' he ↦ ⟨step_freed he, step_released_iff hreleased he⟩⟩

/-- A nick is updated that is in the database. -/
theorem arrays_released_update : ∃ s, (system ℕ).run idle
      [.queue true 3 true false false false, .serve (fun _ ↦ false) [.result (some [0]) 0]] = some s ∧
    s.queue = [⟨true, 4, some 0, false, false, false⟩] ∧ Released s := by
  refine ⟨_, rfl, rfl, (arrays_released _ (.step (e := .serve (fun _ ↦ false)
    [.result (some [0]) 0]) (.step (e := .queue true 3 true false false false)
      (.init (s := idle) ⟨rfl, rfl, rfl, rfl⟩) ?_ rfl) ?_ rfl)).1⟩
  · rintro item own f chain ⟨channel, answers, queue, he, -⟩
    cases he
  · rintro item own f chain ⟨channel, answers, queue, he, hq, hf⟩ - hchain
    cases he
    cases hq
    cases hf
    cases hchain
    exact ⟨.inl rfl, rfl, .inl rfl⟩

/-- A user's row is stored: the array with the nick and the row is never freed. -/
theorem not_arrays_released : ∃ s, (system ℕ).Reachable s ∧ s.fresh = 2 ∧ s.places 0 = 0 := by
  have hrun : (system ℕ).run idle [.queue true 18 true false false false,
      .serve (fun _ ↦ false) [.result (some [0]) 0]] = some _ := rfl
  exact ⟨_, System.reachable_of_run ⟨rfl, rfl, rfl, rfl⟩ hrun, rfl, rfl⟩

end Beirdobot.Mysql.Thread
