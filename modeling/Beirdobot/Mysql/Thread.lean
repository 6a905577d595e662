import Beirdobot.Library.System
import Mathlib.Data.Int.Notation

/-!
# The thread that runs the queries

A transcription of `mysql_thread` and of the chain functions of `mysql.c`, apart from
the texts of the queries: an array of arguments is its address.  What the database says
to each attempt, and which channels of a server are found, are arguments of the steps.
The queue is never full, and the end of the program is left out.
-/

namespace Beirdobot.Mysql.Thread

open Library

/-- The chain functions. -/
inductive Chain
  | chainUpdateNick
  | chainFlushNick
  | chainSetSetting
  | chainSetAuth
  deriving DecidableEq

/-- The column `queryChainFunc` of `QueryTable`; the tables of the plugins have none. -/
def queryChainFunc : ℕ → Option Chain
  | 3 => some .chainUpdateNick
  | 7 => some .chainFlushNick
  | 14 => some .chainSetSetting
  | 18 => some .chainSetAuth
  | _ => none

/-- `QueryItem_t`: whether it is from `QueryTable`, its array if there is one, whether it
has a callback, and what `chain_flush_nick` reads of the array. -/
structure Item where
  core : Bool
  queryId : ℕ
  queryData : Option ℕ
  callback : Bool
  text : Bool
  newNick : Bool

def Item.chain (item : Item) : Option Chain :=
  if item.core then queryChainFunc item.queryId else none

/-- What comes of an attempt: the text is too long, `mysql_query` fails, perhaps because
the server is gone, or there are rows or none, with the id that was generated. -/
inductive Answer (ρ : Type)
  | overflow
  | error (gone : Bool)
  | result (res : Option (List ρ)) (insertid : ℤ)

/-- What `db_query` returns, and what it leaves in its out-variables. -/
structure Fetched (ρ : Type) where
  res : Option (List ρ)
  connected : Bool
  insertid : ℤ

variable {ρ : Type}

/-- `db_query` -/
def dbQuery (insertid : ℤ) : Answer ρ → Fetched ρ
  | .overflow => ⟨none, true, insertid⟩
  | .error gone => ⟨none, !gone, insertid⟩
  | .result res insertid => ⟨res, true, insertid⟩

/-- The loop that tries until it is connected; it ends with the attempt it returns. -/
def attempts (insertid : ℤ) : List (Answer ρ) → Option (Answer ρ × Fetched ρ)
  | [] => none
  | answer :: answers =>
      let fetched := dbQuery insertid answer
      if fetched.connected then some (answer, fetched) else attempts fetched.insertid answers

/-- The test before the callback. -/
def Fetched.Answered (f : Fetched ρ) : Prop := f.res.isSome = true ∨ f.insertid ≠ 0

instance (f : Fetched ρ) : Decidable f.Answered :=
  inferInstanceAs (Decidable (f.res.isSome = true ∨ f.insertid ≠ 0))

/-- `mysql_num_rows`, or nothing to count. -/
def count (res : Option (List ρ)) : ℕ := (res.map List.length).getD 0

/-- A run of a callback or chain function: with what, and what its query came to. -/
structure Call (ρ : Type) where
  item : Item
  res : Option (List ρ)
  insertid : ℤ
  own : Answer ρ

/-- `QueryQ`, the local `insertid` of the thread, the next address of an array, and the
history of the calls and of what was freed. -/
structure State (ρ : Type) where
  queue : List Item
  insertid : ℤ
  fresh : ℕ
  calls : List (Call ρ)
  freed : List ℕ

namespace State

/-- `db_queue_query` -/
def dbQueueQuery (s : State ρ) (item : Item) : State ρ := { s with queue := s.queue ++ [item] }

/-- A query of `QueryTable` with an array of its own. -/
def queueNew (s : State ρ) (queryId : ℕ) : State ρ :=
  { s with fresh := s.fresh + 1 }.dbQueueQuery ⟨true, queryId, some s.fresh, false, false, false⟩

/-- `chain_update_nick` -/
def chainUpdateNick (s : State ρ) (res : Option (List ρ)) (item : Item) : State ρ :=
  if count res ≠ 0 then s.dbQueueQuery ⟨true, 4, item.queryData, false, false, false⟩
  else s.dbQueueQuery ⟨true, 5, item.queryData, false, false, false⟩

/-- `db_update_nick` and `db_nick_history` of a channel. -/
def moveNick (s : State ρ) : State ρ := (s.queueNew 3).queueNew 9

/-- `chain_flush_nick` for one row; without a channel nothing is queued. -/
def flushRow (s : State ρ) (item : Item) (channel : Bool) : State ρ :=
  if channel then
    let s := s.moveNick
    let s := if item.newNick then s.moveNick else s
    if item.text then s.queueNew 2 else s
  else s

/-- `chain_flush_nick` -/
def chainFlushNick (s : State ρ) (channel : ρ → Bool) (res : Option (List ρ)) (item : Item) :
    State ρ :=
  (res.getD []).foldl (fun s row ↦ s.flushRow item (channel row)) s

/-- `chain_set_setting` -/
def chainSetSetting (s : State ρ) (res : Option (List ρ)) (item : Item) : State ρ :=
  if count res ≠ 0 then s.dbQueueQuery ⟨true, 15, item.queryData, false, false, false⟩
  else s.dbQueueQuery ⟨true, 16, item.queryData, false, false, false⟩

/-- `chain_set_auth` -/
def chainSetAuth (s : State ρ) (res : Option (List ρ)) : State ρ :=
  if count res ≠ 0 then s.queueNew 19 else s.queueNew 20

def runChain (s : State ρ) (channel : ρ → Bool) (res : Option (List ρ)) (item : Item) :
    Chain → State ρ
  | .chainUpdateNick => s.chainUpdateNick res item
  | .chainFlushNick => s.chainFlushNick channel res item
  | .chainSetSetting => s.chainSetSetting res item
  | .chainSetAuth => s.chainSetAuth res

/-- The callback of an item, or its chain function. -/
def answer (s : State ρ) (channel : ρ → Bool) (item : Item) (own : Answer ρ) (f : Fetched ρ) :
    State ρ :=
  if f.Answered then
    if item.callback then { s with calls := s.calls ++ [⟨item, f.res, f.insertid, own⟩] }
    else
      match item.chain with
      | none => s
      | some chain =>
          let s : State ρ := { s with calls := s.calls ++ [⟨item, f.res, f.insertid, own⟩] }
          s.runChain channel f.res item chain
  else s

/-- The end of a turn: the array is freed, unless there is a chain function. -/
def release (s : State ρ) (item : Item) : State ρ :=
  match item.chain with
  | none => { s with freed := s.freed ++ item.queryData.toList }
  | some _ => s

/-- A turn of `mysql_thread`. -/
def serve (s : State ρ) (channel : ρ → Bool) (answers : List (Answer ρ)) : Option (State ρ) :=
  match s.queue with
  | [] => none
  | item :: queue =>
      (attempts s.insertid answers).map fun (own, f) ↦
        let s := { s with queue, insertid := f.insertid }
        (s.answer channel item own f).release item

end State

/-- A thread queues a query, with an array of its own or without one, or `mysql_thread`
takes the next one. -/
inductive Event (ρ : Type)
  | queue (core : Bool) (queryId : ℕ) (array callback text newNick : Bool)
  | serve (channel : ρ → Bool) (answers : List (Answer ρ))

def step (s : State ρ) : Event ρ → Option (State ρ)
  | .queue core queryId array callback text newNick =>
      let queryData := if array then some s.fresh else none
      let fresh := if array then s.fresh + 1 else s.fresh
      some ({ s with fresh }.dbQueueQuery ⟨core, queryId, queryData, callback, text, newNick⟩)
  | .serve channel answers => s.serve channel answers

/-- Nothing is queued yet; the local variable has any value. -/
def system (ρ : Type) : System (State ρ) (Event ρ) where
  init s := s.queue = [] ∧ s.calls = [] ∧ s.freed = [] ∧ s.fresh = 0
  step := step

/-- The item that is served next, with the attempt that ends its turn. -/
def Serves (s : State ρ) (e : Event ρ) (item : Item) (own : Answer ρ) (f : Fetched ρ) : Prop :=
  ∃ channel answers queue, e = .serve channel answers ∧ s.queue = item :: queue ∧
    attempts s.insertid answers = some (own, f)

section Steps

variable {s s' : State ρ} {e : Event ρ} {item : Item} {own : Answer ρ} {f : Fetched ρ}

/-- The attempts before the last one leave nothing behind. -/
theorem attempts_eq {insertid : ℤ} {answers : List (Answer ρ)}
    (h : attempts insertid answers = some (own, f)) :
    f = dbQuery insertid own ∧ (dbQuery insertid own).connected = true := by
  induction answers with
  | nil => cases h
  | cons answer answers ih =>
      rw [attempts] at h
      by_cases hc : (dbQuery insertid answer).connected = true
      · simp only [if_pos hc, Option.some.injEq, Prod.mk.injEq] at h
        obtain ⟨rfl, rfl⟩ := h
        exact ⟨rfl, hc⟩
      · simp only [if_neg hc] at h
        have hid : (dbQuery insertid answer).insertid = insertid := by
          cases answer with
          | overflow | error => rfl
          | result => exact absurd rfl hc
        rw [hid] at h
        exact ih h

/-- The steps there are. -/
theorem step_cases (h : step s e = some s') :
    (∃ core queryId array callback text newNick,
      e = .queue core queryId array callback text newNick ∧
      s' = { s with
        fresh := if array then s.fresh + 1 else s.fresh
        queue := s.queue ++ [⟨core, queryId, if array then some s.fresh else none, callback, text,
          newNick⟩] }) ∨
    ∃ channel answers item queue own f, e = .serve channel answers ∧ s.queue = item :: queue ∧
      attempts s.insertid answers = some (own, f) ∧
      s' = (State.answer { s with queue, insertid := f.insertid } channel item own f).release item := by
  cases e with
  | queue core queryId array callback text newNick =>
      rw [step, Option.some.injEq] at h
      exact .inl ⟨core, queryId, array, callback, text, newNick, rfl, h.symm⟩
  | serve channel answers =>
      rw [step, State.serve] at h
      split at h
      · cases h
      · rename_i item queue hq
        obtain ⟨⟨own, f⟩, hf, rfl⟩ := Option.map_eq_some_iff.mp h
        exact .inr ⟨channel, answers, item, queue, own, f, rfl, hq, hf, rfl⟩

end Steps

/-! ## What the callbacks get -/

/-- The function got what its own query came to. -/
def Call.Own (c : Call ρ) : Prop := c.own = .result c.res c.insertid

/-- If the query of an item with a callback or a chain function fails, the last query
that did not fail generated no id. -/
def Careful (s : State ρ) (e : Event ρ) : Prop :=
  ∀ item own f, Serves s e item own f → (item.callback = true ∨ item.chain ≠ none) →
    s.insertid ≠ 0 → ∃ res insertid, own = .result res insertid

section Calls

variable {s s' : State ρ} {e : Event ρ}

theorem flushRow_frame (s : State ρ) (item : Item) (channel : Bool) :
    (s.flushRow item channel).calls = s.calls ∧ (s.flushRow item channel).freed = s.freed := by
  rw [State.flushRow]
  cases channel <;> cases item.newNick <;> cases item.text <;> exact ⟨rfl, rfl⟩

/-- A chain function queues queries and does nothing else. -/
theorem runChain_frame (s : State ρ) (channel : ρ → Bool) (res : Option (List ρ)) (item : Item)
    (chain : Chain) :
    (s.runChain channel res item chain).calls = s.calls ∧
      (s.runChain channel res item chain).freed = s.freed := by
  cases chain with
  | chainUpdateNick =>
      rw [State.runChain, State.chainUpdateNick]
      split <;> exact ⟨rfl, rfl⟩
  | chainFlushNick =>
      rw [State.runChain, State.chainFlushNick]
      induction res.getD [] generalizing s with
      | nil => exact ⟨rfl, rfl⟩
      | cons row rows ih =>
          have hrow := flushRow_frame s item (channel row)
          have hrest := ih (s.flushRow item (channel row))
          rw [List.foldl_cons, hrest.1, hrest.2]
          exact hrow
  | chainSetSetting =>
      rw [State.runChain, State.chainSetSetting]
      split <;> exact ⟨rfl, rfl⟩
  | chainSetAuth =>
      rw [State.runChain, State.chainSetAuth]
      split <;> exact ⟨rfl, rfl⟩

theorem release_calls (s : State ρ) (item : Item) : (s.release item).calls = s.calls := by
  rw [State.release]
  split <;> rfl

/-- A turn adds the call of the item, if there is anything to call and the test is met. -/
theorem answer_calls (s : State ρ) (channel : ρ → Bool) (item : Item) (own : Answer ρ)
    (f : Fetched ρ) :
    (s.answer channel item own f).calls =
      if f.Answered ∧ (item.callback = true ∨ item.chain ≠ none)
      then s.calls ++ [⟨item, f.res, f.insertid, own⟩] else s.calls := by
  rw [State.answer]
  by_cases hf : f.Answered
  · rw [if_pos hf]
    by_cases hc : item.callback = true
    · rw [if_pos hc, if_pos ⟨hf, .inl hc⟩]
    · rw [if_neg hc]
      rcases hchain : item.chain with _ | chain
      · rw [if_neg (by simp [hc])]
      · rw [if_pos ⟨hf, .inr (Option.some_ne_none chain)⟩]
        exact (runChain_frame _ _ _ _ _).1
  · rw [if_neg hf, if_neg fun h ↦ hf h.1]

/-- A step keeps to the item's own queries if and only if it meets the condition. -/
theorem step_own_iff (hs : ∀ c ∈ s.calls, c.Own) (he : step s e = some s') :
    (∀ c ∈ s'.calls, c.Own) ↔ Careful s e := by
  obtain ⟨core, queryId, array, callback, text, newNick, rfl, rfl⟩ |
    ⟨channel, answers, item, queue, own, f, rfl, hq, hf, rfl⟩ := step_cases he
  · refine ⟨fun _ ↦ ?_, fun _ ↦ hs⟩
    rintro item own f ⟨channel, answers, queue, he, -⟩
    cases he
  · obtain ⟨rfl, hconnected⟩ := attempts_eq hf
    have hcareful : Careful s (.serve channel answers) ↔
        ((item.callback = true ∨ item.chain ≠ none) → s.insertid ≠ 0 →
          ∃ res insertid, own = .result res insertid) := by
      constructor
      · intro h
        exact h item own _ ⟨channel, answers, queue, rfl, hq, hf⟩
      · rintro h item' own' f' ⟨channel', answers', queue', he, hq', hf'⟩
        cases he
        rw [hq, List.cons.injEq] at hq'
        rw [hf, Option.some.injEq, Prod.mk.injEq] at hf'
        rw [← hq'.1, ← hf'.1]
        exact h
    rw [hcareful, release_calls, answer_calls]
    by_cases hcall : item.callback = true ∨ item.chain ≠ none
    · cases own with
      | result res insertid =>
          refine ⟨fun _ _ _ ↦ ⟨res, insertid, rfl⟩, fun _ c hc ↦ ?_⟩
          split at hc
          · obtain hc | hc := List.mem_append.mp hc
            · exact hs c hc
            · rw [List.mem_singleton] at hc
              subst hc
              rfl
          · exact hs c hc
      | overflow | error =>
          by_cases hid : s.insertid = 0
          · rw [if_neg (by simp [Fetched.Answered, dbQuery, hid])]
            exact ⟨fun _ _ h ↦ absurd hid h, fun _ ↦ hs⟩
          · rw [if_pos ⟨.inr hid, hcall⟩]
            constructor
            · intro h
              have hown := h _ (List.mem_append.mpr (.inr (List.mem_singleton.mpr rfl)))
              cases hown
            · intro h
              obtain ⟨_, _, h⟩ := h hcall hid
              cases h
    · rw [if_neg fun h ↦ hcall h.2]
      exact ⟨fun _ h ↦ absurd h hcall, fun _ ↦ hs⟩

end Calls

/-- In every run whose steps meet the condition, the callbacks and chain functions get
what their own queries came to, and nothing else runs; a step that does not meet it calls
one with something else. -/
theorem calls_own (s : State ρ) (h : (system ρ).ReachableVia Careful s) :
    (∀ c ∈ s.calls, c.Own) ∧
      ∀ e s', (system ρ).step s e = some s' → ((∀ c ∈ s'.calls, c.Own) ↔ Careful s e) := by
  have hown : ∀ c ∈ s.calls, c.Own := by
    refine h.invariant (I := fun s ↦ ∀ c ∈ s.calls, c.Own) ?_ ?_
    · rintro s ⟨-, hcalls, -⟩ c hc
      rw [hcalls] at hc
      cases hc
    · intro s e s' hs hc he
      exact (step_own_iff hs he).mpr hc
  exact ⟨hown, fun e s' he ↦ step_own_iff hown he⟩

/-- A server is inserted, and gets the id that its own query generated. -/
def insertServer : List (Event ℕ) :=
  [.queue true 27 true true false false, .serve (fun _ ↦ false) [.error true, .result none 7]]

/-- The thread before its first query. -/
def idle : State ℕ := ⟨[], 5, 0, [], []⟩

theorem calls_own_insert : ∃ s, (system ℕ).run idle insertServer = some s ∧
    s.calls = [⟨⟨true, 27, some 0, true, false, false⟩, none, 7, .result none 7⟩] ∧
    ∀ c ∈ s.calls, c.Own := by
  refine ⟨_, rfl, rfl, (calls_own _ (.step (e := .serve (fun _ ↦ false)
    [.error true, .result none 7]) (.step (e := .queue true 27 true true false false)
      (.init (s := idle) ⟨rfl, rfl, rfl, rfl⟩) ?_ rfl) ?_ rfl)).1⟩
  · rintro item own f ⟨channel, answers, queue, he, -⟩
    cases he
  · rintro item own f ⟨channel, answers, queue, he, hq, hf⟩ - -
    cases he
    cases hf
    exact ⟨none, 7, rfl⟩

/-- After a server was inserted the query for another one fails, and the callback gets
the id of the first. -/
theorem not_calls_own : ∃ s, (system ℕ).Reachable s ∧ ∃ c ∈ s.calls, ¬ c.Own := by
  have hrun : (system ℕ).run idle (insertServer ++ [.queue true 27 true true false false,
      .serve (fun _ ↦ false) [.error false]]) = some _ := rfl
  refine ⟨_, System.reachable_of_run ⟨rfl, rfl, rfl, rfl⟩ hrun,
    ⟨⟨true, 27, some 1, true, false, false⟩, none, 7, .error false⟩, .tail _ (.head _), ?_⟩
  intro h
  cases h

end Beirdobot.Mysql.Thread
