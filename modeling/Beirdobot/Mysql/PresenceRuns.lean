import Beirdobot.Mysql.Presence

/-!
# The calls one after the other

What a call adds to the queue has the effect of the whole call once the queue has drained, if no
write of another call overtakes it.
-/

namespace Beirdobot.Mysql.Presence

open Library

variable {ν : Type} [DecidableEq ν]

/-! ## Flushing a channel -/

section Calls

variable {channels : Channels} {t t' : Nicks ν} {queue : List (Query ν)} {chanid : ℤ}
  {row : ℤ × ν} {present : Bool} {query : Query ν}

/-- A query that marks no one in the channel present may as well come before it is flushed. -/
theorem execute_flushNicks {p : Bool} (h : query.target = some (row, p))
    (hp : row.1 = chanid → p = false) :
    execute ((Call.dbFlushNicks chanid).apply channels t) query =
        (Call.dbFlushNicks chanid).apply channels (execute t query) ∧
      chain channels (fun _ ↦ true) ((Call.dbFlushNicks chanid).apply channels t) query =
        chain channels (fun _ ↦ true) t query := by
  have hsome (t : Nicks ν) : ((Call.dbFlushNicks chanid).apply channels t row).isSome =
      (t row).isSome := by
    simp only [Call.apply]
    split
    · rw [Option.isSome_map]
    · rfl
  have hset (t : Nicks ν) : (Call.dbFlushNicks chanid).apply channels
        (Function.update t row (some p)) =
      Function.update ((Call.dbFlushNicks chanid).apply channels t) row (some p) := by
    funext row'
    by_cases hrow : row' = row
    · subst hrow
      simp only [Call.apply, Function.update_self]
      split
      · rename_i hchanid
        rw [hp hchanid]
        rfl
      · rfl
    · simp only [Call.apply, Function.update_of_ne hrow]
  cases query with
  | select =>
      cases h
      exact ⟨rfl, by rw [chain_select, chain_select, hsome]⟩
  | update | insert =>
      cases h
      refine ⟨?_, rfl⟩
      rw [execute, execute, hsome]
      split
      all_goals
        first
        | rfl
        | exact (hset t).symm
  | clear | selectChannels => cases h

/-- Queries that mark no one in the channel present. -/
def Leaves (chanid : ℤ) (queue : List (Query ν)) : Prop :=
  ∀ query ∈ queue, ∃ row p, query.target = some (row, p) ∧ (row.1 = chanid → p = false)

theorem Leaves.pass (h : Leaves chanid queue) :
    (jobs channels).pass ((Call.dbFlushNicks chanid).apply channels t) queue =
      ((Call.dbFlushNicks chanid).apply channels (written t queue), chained channels t queue) := by
  rw [Jobs.pass_map (f := fun t ↦ (Call.dbFlushNicks chanid).apply channels t), pass_eq]
  intro t query hquery
  obtain ⟨row, p, htarget, hp⟩ := h query hquery
  exact execute_flushNicks htarget hp

theorem Leaves.written (h : Leaves chanid queue) :
    written ((Call.dbFlushNicks chanid).apply channels t) queue =
      (Call.dbFlushNicks chanid).apply channels (written t queue) := by
  have hpass : (jobs channels).pass ((Call.dbFlushNicks chanid).apply channels t) queue = _ :=
    h.pass
  rw [pass_eq] at hpass
  exact (Prod.mk.inj hpass).1

theorem Leaves.chained (h : Leaves chanid queue) :
    chained channels ((Call.dbFlushNicks chanid).apply channels t) queue =
      chained channels t queue := by
  have hpass : (jobs channels).pass ((Call.dbFlushNicks chanid).apply channels t) queue = _ :=
    h.pass
  rw [pass_eq] at hpass
  exact (Prod.mk.inj hpass).2

/-- No write overtakes the query that flushes a channel. -/
theorem drained_dbFlushNicks (h : ∀ nick, ¬ Leads channels t queue (chanid, nick) true) :
    drained channels t (queue ++ [.clear chanid]) =
      (Call.dbFlushNicks chanid).apply channels (drained channels t queue) := by
  have hfalse : ∀ row p, Leads channels t queue row p → row.1 = chanid → p = false := by
    rintro ⟨_, nick⟩ p hleads rfl
    cases p with
    | false => rfl
    | true => exact absurd hleads (h nick)
  have hwritten : written t (queue ++ [.clear chanid]) =
      (Call.dbFlushNicks chanid).apply channels (written t queue) := written_append
  have hchained : chained channels t (queue ++ [.clear chanid]) = chained channels t queue := by
    rw [chained_append, chained_singleton]
    exact List.append_nil _
  have hfirst : Leaves chanid (chained channels t queue) := by
    intro query hquery
    obtain ⟨row, p, htarget, hleads⟩ := leads_of_mem_chained hquery
    exact ⟨row, p, htarget, hfalse row p hleads⟩
  have hsecond : Leaves chanid (chained channels (written t queue) (chained channels t queue)) := by
    intro query hquery
    obtain ⟨row, p, htarget, hflushing⟩ := flushing_of_mem_chained hquery
    exact ⟨row, p, htarget, hfalse row p (.inr hflushing)⟩
  rw [drained_eq, hwritten, hchained, hfirst.written, hfirst.chained, hsecond.written, drained_eq]

/-! ## An update -/

/-- A write with the same value, or to another row, may as well come after an update. -/
theorem execute_update {row' : ℤ × ν} {p : Bool}
    (h : query = .update row' p ∨ query = .insert row' p)
    (hp : row' = row → p = present) :
    execute (Function.update t row (some present)) query =
      Function.update (execute t query) row (some present) := by
  by_cases hrow : row' = row
  · subst hrow
    obtain rfl := hp rfl
    rcases h with rfl | rfl
    all_goals
      simp only [execute, Function.update_self, Option.isSome_some, if_true]
      split <;> simp only [Function.update_idem]
  · rcases h with rfl | rfl
    all_goals
      simp only [execute, Function.update_of_ne hrow]
      split
      all_goals
        first
        | rfl
        | exact Function.update_comm (Ne.symm hrow) ..

/-- The write that a read leads to. -/
def write (t : Nicks ν) (row : ℤ × ν) (present : Bool) : Query ν :=
  if (t row).isSome then .update row present else .insert row present

/-- It sets the row, unless another one inserts it before. -/
theorem execute_write (hsome : (t row).isSome → (t' row).isSome)
    (hnone : t row = none → t' row = none ∨ t' row = some present) :
    execute t' (write t row present) = Function.update t' row (some present) := by
  rw [write]
  split
  · rename_i h
    rw [execute, if_pos (hsome h)]
  · rename_i h
    rw [execute]
    rcases hnone (Option.not_isSome_iff_eq_none.mp h) with hrow | hrow
    · rw [hrow]
      rfl
    · rw [hrow, if_pos (by rfl), ← hrow, Function.update_eq_self]

omit [DecidableEq ν] in
theorem chain_write : chain channels (fun _ ↦ true) t' (write t row present) = [] := by
  rw [write]
  split <;> rfl

theorem written_update (h : ∀ query ∈ queue, ∃ row' p, (row' = row → p = present) ∧
      (query = .update row' p ∨ query = .insert row' p)) :
    written (Function.update t row (some present)) queue =
      Function.update (written t queue) row (some present) := by
  induction queue generalizing t with
  | nil => rfl
  | cons query queue ih =>
      obtain ⟨row', p, hp, hwrite⟩ := h query (.head _)
      have hrest := ih (t := execute t query) fun query hquery ↦ h query (.tail _ hquery)
      rw [← execute_update hwrite hp] at hrest
      exact hrest

/-- No write overtakes an update, nor inserts the row before it. -/
theorem drained_dbUpdateNick (hflush : ∀ p, Flushing channels t queue row p → p = present)
    (hread : written t queue row = none → ∀ p, .select row p ∈ queue → p = present) :
    drained channels t (queue ++ [.select row present]) =
      Function.update (drained channels t queue) row (some present) := by
  have hwritten : written t (queue ++ [.select row present]) = written t queue := written_append
  have hchained : chained channels t (queue ++ [.select row present]) =
      chained channels t queue ++ [write (written t queue) row present] := by
    rw [chained_append, chained_singleton, chain_select]
    rfl
  have hset : written (written t queue)
        (chained channels t queue ++ [write (written t queue) row present]) =
      Function.update (written (written t queue) (chained channels t queue)) row
        (some present) := by
    rw [written_append]
    apply execute_write isSome_written
    intro hnone
    apply written_target (I := fun v ↦ v = none ∨ v = some present) (.inl hnone)
    intro query hquery
    obtain ⟨row', p, htarget, hleads⟩ := leads_of_mem_chained hquery
    refine ⟨row', p, htarget, ?_⟩
    rintro rfl
    rcases hleads with hmem | hflushing
    · exact .inr (congrArg some (hread hnone p hmem))
    · exact .inr (congrArg some (hflush p hflushing))
  have hchained' : chained channels (written t queue)
        (chained channels t queue ++ [write (written t queue) row present]) =
      chained channels (written t queue) (chained channels t queue) := by
    rw [chained_append, chained_singleton, chain_write, List.append_nil]
  have hlast : ∀ query ∈ chained channels (written t queue) (chained channels t queue),
      ∃ row' p, (row' = row → p = present) ∧ (query = .update row' p ∨ query = .insert row' p) := by
    intro query hquery
    obtain ⟨row', p, hflushing, hwrite⟩ := mem_chained_chained hquery
    refine ⟨row', p, ?_, hwrite⟩
    rintro rfl
    exact hflush p hflushing
  rw [drained_eq, hwritten, hchained, hset, hchained', written_update hlast, drained_eq]

/-! ## Flushing a nick -/

/-- A later table has the rows of an earlier one, and marks no one absent in a new row. -/
structure Follows (t t' : Nicks ν) : Prop where
  isSome : ∀ row, (t row).isSome → (t' row).isSome
  ne_false : ∀ row, t row = none → t' row ≠ some false

theorem Follows.update (h : Follows t t') (hp : present = false → (t row).isSome) :
    Follows t (Function.update t' row (some present)) where
  isSome row' hsome := by
    by_cases hrow : row' = row
    · subst hrow
      rw [Function.update_self]
      rfl
    · rw [Function.update_of_ne hrow]
      exact h.isSome row' hsome
  ne_false row' hnone := by
    by_cases hrow : row' = row
    · subst hrow
      rw [Function.update_self]
      rintro hpresent
      cases hpresent
      rw [hnone] at hp
      exact absurd (hp rfl) Bool.false_ne_true
    · rw [Function.update_of_ne hrow]
      exact h.ne_false row' hnone

theorem Follows.execute_write (h : Follows t t') (hp : present = false → (t row).isSome) :
    execute t' (write t row present) = Function.update t' row (some present) := by
  apply Presence.execute_write (h.isSome row)
  intro hnone
  cases hrow : t' row with
  | none => exact .inl rfl
  | some p =>
      cases p with
      | false => exact absurd hrow (h.ne_false row hnone)
      | true =>
          cases present with
          | false =>
              rw [hnone] at hp
              exact absurd (hp rfl) Bool.false_ne_true
          | true => exact .inr rfl

/-- What becomes of a row of a channel that the nick was in. -/
def left (nick : ν) (newNick : Option ν) (t : Nicks ν) (row : ℤ × ν) : Option Bool :=
  if newNick = some row.2 then some true
  else if row.2 = nick then some false
  else t row

/-- The writes that `leave` leads to. -/
def leaveWrites (t : Nicks ν) (chanid : ℤ) (nick : ν) (newNick : Option ν) : List (Query ν) :=
  write t (chanid, nick) false :: newNick.toList.map fun newNick ↦ write t (chanid, newNick) true

section Leave

variable {nick : ν} {newNick : Option ν} {rows : List ℤ} {server : ℤ}

theorem written_leave : written t (leave chanid nick newNick) = t := by
  cases newNick <;> rfl

theorem chained_leave :
    chained channels t (leave chanid nick newNick) = leaveWrites t chanid nick newNick := by
  have hcons (row : ℤ × ν) (p : Bool) (queue : List (Query ν)) :
      chained channels t (.select row p :: queue) =
        write t row p :: chained channels t queue := by
    rw [← List.singleton_append, chained_append, chained_singleton, chain_select]
    rfl
  cases newNick with
  | none => exact hcons (chanid, nick) false []
  | some newNick =>
      rw [leave, Option.toList_some, List.map_singleton, hcons, hcons]
      rfl

theorem written_flatMap_leave :
    written t (rows.flatMap fun chanid ↦ leave chanid nick newNick) = t := by
  induction rows with
  | nil => rfl
  | cons chanid rows ih => rw [List.flatMap_cons, written_append, written_leave, ih]

theorem chained_flatMap_leave :
    chained channels t (rows.flatMap fun chanid ↦ leave chanid nick newNick) =
      rows.flatMap fun chanid ↦ leaveWrites t chanid nick newNick := by
  induction rows with
  | nil => rfl
  | cons chanid rows ih =>
      rw [List.flatMap_cons, chained_append, chained_leave, written_leave, ih, List.flatMap_cons]

theorem update_left (row : ℤ × ν) : Function.update t (chanid, nick) (some false) row =
    if row.1 = chanid then left nick none t row else t row := by
  rcases row with ⟨chanid', nick'⟩
  simp only [Function.update_apply, left, Prod.mk.injEq, reduceCtorEq, if_false]
  split_ifs <;> simp_all

theorem update_left_some {newNick : ν} (row : ℤ × ν) :
    Function.update (Function.update t (chanid, nick) (some false)) (chanid, newNick) (some true)
        row =
      if row.1 = chanid then left nick (some newNick) t row else t row := by
  rcases row with ⟨chanid', nick'⟩
  simp only [Function.update_apply, left, Prod.mk.injEq, Option.some.injEq]
  split_ifs <;> simp_all

theorem Follows.leaveWrites (h : Follows t t') (hnick : (t (chanid, nick)).isSome)
    (newNick : Option ν) : Follows t (written t' (leaveWrites t chanid nick newNick)) ∧
      ∀ row, written t' (leaveWrites t chanid nick newNick) row =
        if row.1 = chanid then left nick newNick t' row else t' row := by
  have hfirst : execute t' (write t (chanid, nick) false) =
      Function.update t' (chanid, nick) (some false) := h.execute_write fun _ ↦ hnick
  have hleft : Follows t (Function.update t' (chanid, nick) (some false)) := h.update fun _ ↦ hnick
  cases newNick with
  | none =>
      have hwritten : written t' (Presence.leaveWrites t chanid nick none) =
          Function.update t' (chanid, nick) (some false) := hfirst
      rw [hwritten]
      exact ⟨hleft, update_left⟩
  | some newNick =>
      have hsecond : execute (Function.update t' (chanid, nick) (some false))
            (write t (chanid, newNick) true) =
          Function.update (Function.update t' (chanid, nick) (some false)) (chanid, newNick)
            (some true) := hleft.execute_write fun h ↦ by cases h
      have hwritten : written t' (Presence.leaveWrites t chanid nick (some newNick)) =
          Function.update (Function.update t' (chanid, nick) (some false)) (chanid, newNick)
            (some true) := by
        rw [← hsecond, ← hfirst]
        rfl
      rw [hwritten]
      exact ⟨hleft.update (fun h ↦ by cases h), update_left_some⟩

/-- Each channel is left once. -/
theorem Follows.written_flatMap (h : Follows t t') (hrows : rows.Nodup)
    (hnick : ∀ chanid ∈ rows, (t (chanid, nick)).isSome) (row : ℤ × ν) :
    written t' (rows.flatMap fun chanid ↦ Presence.leaveWrites t chanid nick newNick) row =
      if row.1 ∈ rows then left nick newNick t' row else t' row := by
  induction rows generalizing t' with
  | nil => rfl
  | cons chanid rows ih =>
      obtain ⟨hnotMem, hrows⟩ := List.nodup_cons.mp hrows
      obtain ⟨hfollows, hvalue⟩ := h.leaveWrites (hnick chanid (.head _)) newNick
      rw [List.flatMap_cons, written_append,
        ih hfollows hrows fun chanid hchanid ↦ hnick chanid (.tail _ hchanid)]
      by_cases hrow : row.1 = chanid
      · subst hrow
        rw [if_neg hnotMem, hvalue, if_pos rfl, if_pos (.head _)]
      · have hmem : row.1 ∈ chanid :: rows ↔ row.1 ∈ rows := by simp [hrow]
        simp only [hmem, left, hvalue, if_neg hrow]

end Leave

theorem apply_dbFlushNick {server : ℤ} {nick : ν} {newNick : Option ν} :
    (Call.dbFlushNick server nick newNick).apply channels t row =
      if (row.1, server) ∈ channels.rows ∧ t (row.1, nick) = some true then left nick newNick t row
      else t row := rfl

/-- In a row that is new only a nick that came is marked. -/
theorem follows_chained : Follows (written (written t queue) (chained channels t queue))
    (written (written (written t queue) (chained channels t queue))
      (chained channels (written t queue) (chained channels t queue))) where
  isSome _ := isSome_written
  ne_false row hnone := by
    have hne : written (written t queue) (chained channels t queue) row ≠ some false := by
      rw [hnone]
      exact fun h ↦ by cases h
    apply written_target (I := fun v ↦ v ≠ some false) hne
    intro query hquery
    obtain ⟨row', p, htarget, hflushing⟩ := flushing_of_mem_chained hquery
    refine ⟨row', p, htarget, ?_⟩
    rintro rfl hp
    cases hp
    obtain ⟨before, server, nick, newNick, after, rfl, -, hnick, hcase⟩ := hflushing
    rcases hcase with ⟨-, rfl⟩ | ⟨h, -⟩
    · have hbefore : (written t before row').isSome := by
        rw [show row' = (row'.1, row'.2) from rfl, hnick]
        rfl
      have hafter : (written t (before ++ .selectChannels server row'.2 newNick :: after)
          row').isSome := by
        rw [written_append]
        exact isSome_written hbefore
      have hsome : (written (written t (before ++ .selectChannels server row'.2 newNick :: after))
          (chained channels t (before ++ .selectChannels server row'.2 newNick :: after))
          row').isSome := isSome_written hafter
      rw [hnone] at hsome
      exact absurd hsome Bool.false_ne_true
    · cases h

/-- What becomes of a row that the queue leads to writes of with one value only. -/
theorem drained_target {I : Option Bool → Prop} (h : I (written t queue row))
    (hs : ∀ p, Leads channels t queue row p → I (some p)) : I (drained channels t queue row) := by
  rw [drained_eq]
  apply written_target
  · apply written_target h
    intro query hquery
    obtain ⟨row', p, htarget, hleads⟩ := leads_of_mem_chained hquery
    refine ⟨row', p, htarget, ?_⟩
    rintro rfl
    exact hs p hleads
  · intro query hquery
    obtain ⟨row', p, htarget, hflushing⟩ := flushing_of_mem_chained hquery
    refine ⟨row', p, htarget, ?_⟩
    rintro rfl
    exact hs p (.inr hflushing)

/-- A nick that is queued to be flushed is flushed where it is at the end. -/
theorem drained_dbFlushNick {server : ℤ} {nick : ν} {newNick : Option ν}
    (h : ∀ chanid p, (chanid, server) ∈ channels.rows → Leads channels t queue (chanid, nick) p →
      (p = true → written t queue (chanid, nick) = some true) ∧
        (newNick ≠ none → written t queue (chanid, nick) = some true → p = true)) :
    drained channels t (queue ++ [.selectChannels server nick newNick]) =
      (Call.dbFlushNick server nick newNick).apply channels (drained channels t queue) := by
  have hwritten : written t (queue ++ [.selectChannels server nick newNick]) = written t queue :=
    written_append
  have hchained : chained channels t (queue ++ [.selectChannels server nick newNick]) =
      chained channels t queue ++
        (channelsOf channels (written t queue) server nick).flatMap fun chanid ↦
          leave chanid nick newNick := by
    rw [chained_append, chained_singleton, chain_selectChannels fun _ _ ↦ rfl]
  rw [drained_eq, hwritten, hchained, written_append, chained_append, written_flatMap_leave,
    chained_flatMap_leave, written_append]
  funext row
  have hrows : ∀ chanid ∈ channelsOf channels (written t queue) server nick,
      (written (written t queue) (chained channels t queue) (chanid, nick)).isSome := by
    intro chanid hchanid
    apply isSome_written
    rw [(mem_channelsOf.mp hchanid).2]
    rfl
  rw [follows_chained.written_flatMap nodup_channelsOf hrows, ← drained_eq, apply_dbFlushNick]
  by_cases hchannel : (row.1, server) ∈ channels.rows
  · have hto : drained channels t queue (row.1, nick) = some true →
        written t queue (row.1, nick) = some true := by
      intro hdrained
      by_contra hwritten
      refine drained_target (I := fun v ↦ v ≠ some true) hwritten ?_ hdrained
      rintro p hleads hp
      exact hwritten ((h row.1 p hchannel hleads).1 (Option.some.inj hp))
    have hfrom (hnew : newNick ≠ none) (hwritten : written t queue (row.1, nick) = some true) :
        drained channels t queue (row.1, nick) = some true := by
      apply drained_target (I := fun v ↦ v = some true) hwritten
      intro p hleads
      exact congrArg some ((h row.1 p hchannel hleads).2 hnew hwritten)
    by_cases hnick : written t queue (row.1, nick) = some true
    · rw [if_pos (mem_channelsOf.mpr ⟨hchannel, hnick⟩)]
      by_cases hdrained : drained channels t queue (row.1, nick) = some true
      · rw [if_pos ⟨hchannel, hdrained⟩]
      · -- The nick is about to go, and there is no new one.
        have hnone : newNick = none := by
          by_contra hnew
          exact hdrained (hfrom hnew hnick)
        rw [if_neg fun h ↦ hdrained h.2, left, hnone, if_neg (fun h ↦ by cases h)]
        split
        · rename_i hrow
          have hsome : (drained channels t queue (row.1, nick)).isSome := by
            rw [drained_eq]
            apply isSome_written
            apply isSome_written
            rw [hnick]
            rfl
          rw [← hrow] at hsome hdrained
          obtain ⟨p, hp⟩ := Option.isSome_iff_exists.mp hsome
          cases p with
          | false => exact hp.symm
          | true => exact absurd hp hdrained
        · rfl
    · rw [if_neg fun h ↦ hnick (mem_channelsOf.mp h).2, if_neg fun h ↦ hnick (hto h.2)]
  · rw [if_neg fun h ↦ hchannel (mem_channelsOf.mp h).1, if_neg fun h ↦ hchannel h.1]

end Calls

/-! ## Runs -/

/-- The drained queue will have done what the calls are to do. -/
def Inv (channels : Channels) (s : State ν) : Prop :=
  drained channels s.nicks s.queue = s.calls.foldl (Call.apply channels) s.start

section Runs

variable {channels : Channels} {s s' : State ν}

theorem below_three (queue : List (Query ν)) : (jobs channels).Below 3 queue := by
  intro query _
  change query.rank < 3
  cases query with
  | selectChannels => exact Nat.lt_succ_self 2
  | select => exact Nat.one_lt_succ_succ 1
  | update | insert | clear => exact Nat.zero_lt_succ 2

/-- A call adds its own effect to what will have been done. -/
theorem drained_call {call : Call ν} (h : Orderly channels s (.call call)) :
    drained channels s.nicks (s.queue ++ call.queries) =
      call.apply channels (drained channels s.nicks s.queue) := by
  cases call with
  | dbUpdateNick channel nick present =>
      cases channel with
      | none => exact congrArg _ (List.append_nil _)
      | some chanid => exact drained_dbUpdateNick h.1 h.2
  | dbFlushNicks chanid => exact drained_dbFlushNicks h
  | dbFlushNick server nick newNick => exact drained_dbFlushNick h

/-- A turn of the thread does what a turn without missing channels does. -/
theorem chain_loaded {query : Query ν} {queue : List (Query ν)} {loaded : ℤ → Bool}
    (hqueue : s.queue = query :: queue) (h : Orderly channels s (.serve loaded)) :
    chain channels loaded s.nicks query = chain channels (fun _ ↦ true) s.nicks query := by
  cases query with
  | selectChannels server nick newNick =>
      rw [chain_selectChannels (h server nick newNick queue hqueue),
        chain_selectChannels fun _ _ ↦ rfl]
  | select | update | insert | clear => rfl

theorem step_inv {e : Event ν} (hs : Inv channels s) (hc : Orderly channels s e)
    (he : step channels s e = some s') : Inv channels s' := by
  cases e with
  | call call =>
      cases he
      rw [Inv, List.foldl_append, ← hs]
      exact drained_call hc
  | serve loaded =>
      rw [step] at he
      split at he
      · cases he
      · rename_i query queue hqueue
        cases he
        rw [Inv, chain_loaded hqueue hc, ← hs, hqueue]
        exact (Jobs.passes_serve (below_three _)).symm

end Runs

/-- Channel 1 of server 0, before anyone came. -/
def one : Channels := ⟨[(1, 0)], List.nodup_singleton 1⟩

def empty : State ℕ := ⟨fun _ ↦ none, [], fun _ ↦ none, []⟩

/-- The channel is flushed when a join was read but not yet written. -/
def flushed : List (Event ℕ) :=
  [.call (.dbUpdateNick (some 1) 7 true), .serve fun _ ↦ true, .call (.dbFlushNicks 1),
    .serve fun _ ↦ true, .serve fun _ ↦ true]

end Beirdobot.Mysql.Presence
