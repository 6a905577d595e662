import Beirdobot.Library.Jobs
import Beirdobot.Library.System
import Mathlib.Data.Int.Notation
import Mathlib.Data.List.Nodup
import Mathlib.Logic.Function.Basic

/-!
# Who is present

Transcriptions of `db_update_nick`, `db_flush_nicks`, `db_flush_nick` and of their chain functions
of `mysql.c`, with what their queries do to the table `nicks`.  Of its rows only the column
`present` is kept, and of the queue the queries that read or write it.  A nick is what the column
`nick` compares.
-/

namespace Beirdobot.Mysql.Presence

open Library

variable {ν : Type} [DecidableEq ν]

/-- The column `present` of `nicks`, by `chanid` and `nick`. -/
abbrev Nicks (ν : Type) := ℤ × ν → Option Bool

/-- The columns `chanid` and `serverid` of `channels`, whose key is `chanid`. -/
structure Channels where
  rows : List (ℤ × ℤ)
  nodup : (rows.map Prod.fst).Nodup

/-- The queries 3 to 7 of `QueryTable`, with what they or their chain functions use of the
arguments. -/
inductive Query (ν : Type)
  | select (row : ℤ × ν) (present : Bool)
  | update (row : ℤ × ν) (present : Bool)
  | insert (row : ℤ × ν) (present : Bool)
  | clear (chanid : ℤ)
  | selectChannels (serverid : ℤ) (nick : ν) (newNick : Option ν)
  deriving DecidableEq

/-- What a query changes; an INSERT of a row that is there fails. -/
def execute (nicks : Nicks ν) : Query ν → Nicks ν
  | .select _ _ | .selectChannels _ _ _ => nicks
  | .update row present =>
      if (nicks row).isSome then Function.update nicks row (some present) else nicks
  | .insert row present =>
      if (nicks row).isSome then nicks else Function.update nicks row (some present)
  | .clear chanid => fun row ↦
      if row.1 = chanid then (nicks row).map fun _ ↦ false else nicks row

/-- The rows that query 7 finds. -/
def channelsOf (channels : Channels) (nicks : Nicks ν) (server : ℤ) (nick : ν) : List ℤ :=
  (channels.rows.filter fun row ↦ row.2 = server ∧ nicks (row.1, nick) = some true).map Prod.fst

/-- `db_update_nick`; without a channel nothing is queued. -/
def dbUpdateNick (channel : Option ℤ) (nick : ν) (present : Bool) : List (Query ν) :=
  match channel with
  | none => []
  | some chanid => [.select (chanid, nick) present]

/-- `chain_update_nick` -/
def chainUpdateNick (found : Bool) (row : ℤ × ν) (present : Bool) : List (Query ν) :=
  if found then [.update row present] else [.insert row present]

/-- `chain_flush_nick`; `loaded` tells which channels `FindChannelNum` finds. -/
def chainFlushNick (loaded : ℤ → Bool) (rows : List ℤ) (nick : ν) (newNick : Option ν) :
    List (Query ν) :=
  rows.flatMap fun chanid ↦
    let channel := if loaded chanid then some chanid else none
    dbUpdateNick channel nick false ++
      match newNick with
      | none => []
      | some newNick => dbUpdateNick channel newNick true

/-- What the chain function of a query queues. -/
def chain (channels : Channels) (loaded : ℤ → Bool) (nicks : Nicks ν) : Query ν → List (Query ν)
  | .select row present => chainUpdateNick (nicks row).isSome row present
  | .selectChannels server nick newNick =>
      chainFlushNick loaded (channelsOf channels nicks server nick) nick newNick
  | _ => []

inductive Call (ν : Type)
  | dbUpdateNick (channel : Option ℤ) (nick : ν) (present : Bool)
  | dbFlushNicks (chanid : ℤ)
  | dbFlushNick (server : ℤ) (nick : ν) (newNick : Option ν)
  deriving DecidableEq

/-- What a call queues. -/
def Call.queries : Call ν → List (Query ν)
  | .dbUpdateNick channel nick present => Presence.dbUpdateNick channel nick present
  | .dbFlushNicks chanid => [.clear chanid]
  | .dbFlushNick server nick newNick => [.selectChannels server nick newNick]

/-- The table and the queue; the table at the start, and the calls since. -/
structure State (ν : Type) where
  nicks : Nicks ν
  queue : List (Query ν)
  start : Nicks ν
  calls : List (Call ν)

/-- A thread makes a call, or `mysql_thread` takes the next query. -/
inductive Event (ν : Type)
  | call (call : Call ν)
  | serve (loaded : ℤ → Bool)

def step (channels : Channels) (s : State ν) : Event ν → Option (State ν)
  | .call call => some { s with queue := s.queue ++ call.queries, calls := s.calls ++ [call] }
  | .serve loaded =>
      match s.queue with
      | [] => none
      | query :: queue =>
          some { s with
            nicks := execute s.nicks query
            queue := queue ++ chain channels loaded s.nicks query }

/-- Nothing is queued or called yet. -/
def system (channels : Channels) : System (State ν) (Event ν) where
  init s := s.queue = [] ∧ s.start = s.nicks ∧ s.calls = []
  step := step channels

/-! ## What the calls are to do -/

/-- A call, all at once. -/
def Call.apply (channels : Channels) (nicks : Nicks ν) : Call ν → Nicks ν
  | .dbUpdateNick none _ _ => nicks
  | .dbUpdateNick (some chanid) nick present =>
      Function.update nicks (chanid, nick) (some present)
  | .dbFlushNicks chanid => fun row ↦
      if row.1 = chanid then (nicks row).map fun _ ↦ false else nicks row
  | .dbFlushNick server nick newNick => fun row ↦
      if (row.1, server) ∈ channels.rows ∧ nicks (row.1, nick) = some true then
        if newNick = some row.2 then some true
        else if row.2 = nick then some false
        else nicks row
      else nicks row

/-- The table is what the calls make of it, one after the other. -/
def Applied (channels : Channels) (s : State ν) : Prop :=
  s.queue = [] → s.nicks = s.calls.foldl (Call.apply channels) s.start

/-! ## Reads that are still to be answered -/

section Reads

variable (channels : Channels) (nicks : Nicks ν) (queue : List (Query ν))

/-- What the writes that are queued make of the table. -/
def written : Nicks ν := queue.foldl execute nicks

/-- A query 7 is queued that finds the nick in the channel of a row, and leads to a write of the
row. -/
def Flushing (row : ℤ × ν) (present : Bool) : Prop :=
  ∃ before server nick newNick after,
    queue = before ++ .selectChannels server nick newNick :: after ∧
      (row.1, server) ∈ channels.rows ∧ written nicks before (row.1, nick) = some true ∧
      (present = false ∧ row.2 = nick ∨ present = true ∧ newNick = some row.2)

/-- A read is queued that leads to a write of a row. -/
def Leads (row : ℤ × ν) (present : Bool) : Prop :=
  .select row present ∈ queue ∨ Flushing channels nicks queue row present

end Reads

/-- The steps that no such write overtakes: an update comes with no other value than a flush of
the nick, nor than an update if the row is not there; a channel is not flushed before a write
that sets `present`; a nick is not flushed where it is to come or, if it has a new one, to go;
and a channel where it is found is loaded. -/
def Orderly (channels : Channels) (s : State ν) : Event ν → Prop
  | .call (.dbUpdateNick none _ _) => True
  | .call (.dbUpdateNick (some chanid) nick present) =>
      (∀ p, Flushing channels s.nicks s.queue (chanid, nick) p → p = present) ∧
        (written s.nicks s.queue (chanid, nick) = none →
          ∀ p, .select (chanid, nick) p ∈ s.queue → p = present)
  | .call (.dbFlushNicks chanid) =>
      ∀ nick, ¬ Leads channels s.nicks s.queue (chanid, nick) true
  | .call (.dbFlushNick server nick newNick) =>
      ∀ chanid p, (chanid, server) ∈ channels.rows →
        Leads channels s.nicks s.queue (chanid, nick) p →
          (p = true → written s.nicks s.queue (chanid, nick) = some true) ∧
            (newNick ≠ none → written s.nicks s.queue (chanid, nick) = some true → p = true)
  | .serve loaded =>
      ∀ server nick newNick queue, s.queue = .selectChannels server nick newNick :: queue →
        ∀ chanid ∈ channelsOf channels s.nicks server nick, loaded chanid = true

/-! ## The queries as jobs -/

/-- The row that a query reads or writes, and the value that goes there in the end. -/
def Query.target : Query ν → Option ((ℤ × ν) × Bool)
  | .select row present | .update row present | .insert row present => some (row, present)
  | .clear _ | .selectChannels _ _ _ => none

/-- How many queries are to follow a query, one after the other. -/
def Query.rank : Query ν → ℕ
  | .selectChannels _ _ _ => 2
  | .select _ _ => 1
  | _ => 0

section Chain

omit [DecidableEq ν]

variable {channels : Channels} {loaded : ℤ → Bool} {nicks : Nicks ν} {row : ℤ × ν} {present : Bool}
  {server : ℤ} {nick : ν} {newNick : Option ν}

theorem chain_select : chain channels loaded nicks (.select row present) =
    [if (nicks row).isSome then .update row present else .insert row present] := by
  rw [chain, chainUpdateNick]
  split <;> rfl

theorem mem_channelsOf {chanid : ℤ} : chanid ∈ channelsOf channels nicks server nick ↔
    (chanid, server) ∈ channels.rows ∧ nicks (chanid, nick) = some true := by
  simp only [channelsOf, List.mem_map, List.mem_filter, decide_eq_true_eq, Prod.exists]
  constructor
  · rintro ⟨chanid, server, ⟨hrow, rfl, hnick⟩, rfl⟩
    exact ⟨hrow, hnick⟩
  · rintro ⟨hrow, hnick⟩
    exact ⟨chanid, server, ⟨hrow, rfl, hnick⟩, rfl⟩

theorem nodup_channelsOf : (channelsOf channels nicks server nick).Nodup :=
  channels.nodup.sublist (List.filter_sublist.map Prod.fst)

/-- What is queued for a channel that is loaded. -/
def leave (chanid : ℤ) (nick : ν) (newNick : Option ν) : List (Query ν) :=
  .select (chanid, nick) false :: newNick.toList.map fun newNick ↦ .select (chanid, newNick) true

theorem chain_selectChannels
    (h : ∀ chanid ∈ channelsOf channels nicks server nick, loaded chanid = true) :
    chain channels loaded nicks (.selectChannels server nick newNick) =
      (channelsOf channels nicks server nick).flatMap fun chanid ↦ leave chanid nick newNick := by
  rw [chain, chainFlushNick]
  apply List.flatMap_congr
  intro chanid hchanid
  rw [h chanid hchanid]
  cases newNick <;> rfl

/-- What is queued reads or writes a row. -/
theorem rank_chain_lt {query query' : Query ν}
    (h : query' ∈ chain channels (fun _ ↦ true) nicks query) : query'.rank < query.rank := by
  cases query with
  | select row present =>
      rw [chain_select, List.mem_singleton] at h
      subst h
      split <;> exact Nat.zero_lt_one
  | selectChannels server nick newNick =>
      rw [chain_selectChannels fun _ _ ↦ rfl, List.mem_flatMap] at h
      obtain ⟨chanid, -, h⟩ := h
      rcases List.mem_cons.mp h with rfl | h
      · exact Nat.one_lt_two
      · obtain ⟨newNick, -, rfl⟩ := List.mem_map.mp h
        exact Nat.one_lt_two
  | update | insert | clear => cases h

end Chain

/-- The queries, where all channels that are found are loaded. -/
def jobs (channels : Channels) : Jobs (Nicks ν) (Query ν) where
  run := execute
  queued := chain channels fun _ ↦ true
  rank := Query.rank
  rank_lt := rank_chain_lt

/-- What the reads in a queue lead to: the queries after one turn through the queue. -/
def chained (channels : Channels) (nicks : Nicks ν) (queue : List (Query ν)) : List (Query ν) :=
  ((jobs channels).pass nicks queue).2

/-- What the table will be once the queue has drained. -/
def drained (channels : Channels) (nicks : Nicks ν) (queue : List (Query ν)) : Nicks ν :=
  (jobs channels).passes 3 nicks queue

section Passes

variable {channels : Channels} {t nicks : Nicks ν} {queue : List (Query ν)} {row : ℤ × ν}
  {present : Bool} {query : Query ν}

theorem isSome_execute (query : Query ν) (h : (t row).isSome) : (execute t query row).isSome := by
  cases query with
  | select | selectChannels => exact h
  | update row' present | insert row' present =>
      rw [execute]
      by_cases hrow : row = row'
      · subst hrow
        simp [h]
      · split
        all_goals
          first
          | exact h
          | rwa [Function.update_of_ne hrow]
  | clear chanid =>
      simp only [execute]
      split
      · simpa using h
      · exact h

theorem pass_eq : (jobs channels).pass t queue = (written t queue, chained channels t queue) :=
  Prod.ext Jobs.pass_fst rfl

theorem drained_eq : drained channels t queue =
    written (written (written t queue) (chained channels t queue))
      (chained channels (written t queue) (chained channels t queue)) := by
  simp only [drained, Jobs.passes, pass_eq]

theorem written_append {queue' : List (Query ν)} :
    written t (queue ++ queue') = written (written t queue) queue' := List.foldl_append

theorem chained_append {queue' : List (Query ν)} : chained channels t (queue ++ queue') =
    chained channels t queue ++ chained channels (written t queue) queue' := by
  have hpass : ((jobs channels).pass t queue).1 = written t queue := Jobs.pass_fst
  rw [chained, Jobs.pass_append, hpass]
  rfl

theorem chained_singleton :
    chained channels t [query] = chain channels (fun _ ↦ true) t query := List.append_nil _

/-- What holds of a table and is kept by each query holds of what they make of it. -/
theorem written_invariant {I : Nicks ν → Prop} (h : I t)
    (hs : ∀ t, ∀ query ∈ queue, I t → I (execute t query)) : I (written t queue) := by
  have hpass := Jobs.pass_invariant (J := jobs ⟨[], .nil⟩) h hs
  rwa [Jobs.pass_fst] at hpass

/-- No row is deleted. -/
theorem isSome_written (h : (t row).isSome) : (written t queue row).isSome :=
  written_invariant (I := fun t ↦ (t row).isSome) h fun _ query _ ↦ isSome_execute query

/-- A write to another row changes nothing here; one to this row sets it, or fails. -/
theorem execute_target {p : Bool} (h : query.target = some (row, p)) (row' : ℤ × ν) :
    execute t query row' = t row' ∨ row' = row ∧ execute t query row' = some p := by
  cases query with
  | select | selectChannels => exact .inl rfl
  | update | insert =>
      cases h
      rw [execute]
      split
      all_goals
        first
        | exact .inl rfl
        | by_cases hrow : row' = row
          · subst hrow
            exact .inr ⟨rfl, Function.update_self ..⟩
          · exact .inl (Function.update_of_ne hrow ..)
  | clear => cases h

/-- What the queries that write to a row only with certain values do not undo. -/
theorem written_target {I : Option Bool → Prop} (h : I (t row))
    (hs : ∀ query ∈ queue, ∃ row' p, query.target = some (row', p) ∧ (row' = row → I (some p))) :
    I (written t queue row) := by
  apply written_invariant (I := fun t ↦ I (t row)) h
  intro t query hquery ht
  obtain ⟨row', p, htarget, hI⟩ := hs query hquery
  rcases execute_target htarget (t := t) row with hrow | ⟨rfl, hrow⟩
  · exact (congrArg I hrow).mpr ht
  · exact (congrArg I hrow).mpr (hI rfl)

/-- What was queued is the write of a row that was read, or reads a row of a nick that was found
in a channel. -/
theorem mem_chained (h : query ∈ chained channels t queue) :
    (∃ row p, .select row p ∈ queue ∧ (query = .update row p ∨ query = .insert row p)) ∨
      ∃ row p, Flushing channels t queue row p ∧ query = .select row p := by
  obtain ⟨before, query', after, rfl, hquery⟩ := Jobs.mem_pass h
  replace hquery : query ∈ chain channels (fun _ ↦ true) (written t before) query' := by
    rwa [pass_eq] at hquery
  cases query' with
  | select row p =>
      rw [chain_select, List.mem_singleton] at hquery
      refine .inl ⟨row, p, by simp, ?_⟩
      rw [hquery]
      split
      · exact .inl rfl
      · exact .inr rfl
  | selectChannels server nick newNick =>
      right
      rw [chain_selectChannels fun _ _ ↦ rfl, List.mem_flatMap] at hquery
      obtain ⟨chanid, hchanid, hquery⟩ := hquery
      obtain ⟨hchannel, hnick⟩ := mem_channelsOf.mp hchanid
      rcases List.mem_cons.mp hquery with rfl | hquery
      · exact ⟨(chanid, nick), false,
          ⟨before, server, nick, newNick, after, rfl, hchannel, hnick, .inl ⟨rfl, rfl⟩⟩, rfl⟩
      · obtain ⟨nick', hnick', rfl⟩ := List.mem_map.mp hquery
        exact ⟨(chanid, nick'), true,
          ⟨before, server, nick, newNick, after, rfl, hchannel, hnick,
            .inr ⟨rfl, Option.mem_toList.mp hnick'⟩⟩, rfl⟩
  | update | insert | clear => cases hquery

/-- What was queued goes to a row that the queue leads to. -/
theorem leads_of_mem_chained (h : query ∈ chained channels t queue) :
    ∃ row p, query.target = some (row, p) ∧ Leads channels t queue row p := by
  rcases mem_chained h with ⟨row, p, hmem, rfl | rfl⟩ | ⟨row, p, hflushing, rfl⟩
  · exact ⟨row, p, rfl, .inl hmem⟩
  · exact ⟨row, p, rfl, .inl hmem⟩
  · exact ⟨row, p, rfl, .inr hflushing⟩

/-- What these lead to are writes to the rows of nicks that were found. -/
theorem mem_chained_chained {t' : Nicks ν}
    (h : query ∈ chained channels t' (chained channels t queue)) :
    ∃ row p, Flushing channels t queue row p ∧
      (query = .update row p ∨ query = .insert row p) := by
  rcases mem_chained h with ⟨row, p, hmem, hwrite⟩ | ⟨row, p, hflushing, -⟩
  · rcases mem_chained hmem with ⟨row', p', -, heq | heq⟩ | ⟨row', p', hflushing, heq⟩
    · cases heq
    · cases heq
    · cases heq
      exact ⟨row, p, hflushing, hwrite⟩
  · obtain ⟨before, server, nick, newNick, after, hqueue, -⟩ := hflushing
    have hmem : Query.selectChannels server nick newNick ∈ chained channels t queue := by
      rw [hqueue]
      simp
    obtain ⟨row, p, htarget, -⟩ := leads_of_mem_chained hmem
    cases htarget

theorem flushing_of_mem_chained {t' : Nicks ν}
    (h : query ∈ chained channels t' (chained channels t queue)) :
    ∃ row p, query.target = some (row, p) ∧ Flushing channels t queue row p := by
  obtain ⟨row, p, hflushing, rfl | rfl⟩ := mem_chained_chained h
  · exact ⟨row, p, rfl, hflushing⟩
  · exact ⟨row, p, rfl, hflushing⟩

end Passes

end Beirdobot.Mysql.Presence
