import Beirdobot.Servers.Model

/-!
# What killing, starting and loading a server do

Each of them concerns one record: `Same` says that nothing changed for another one.
-/

namespace Beirdobot.Servers

variable {ι : Type} [DecidableEq ι]

/-! ## Records -/

section Modify

variable (w : World ι) (x : ι) (f : IRCServer ι → IRCServer ι)

@[simp] theorem modify_mem_self : (w.modify x f).mem x = f (w.mem x) := Function.update_self ..

@[simp] theorem modify_mem_ne {y : ι} (h : y ≠ x) : (w.modify x f).mem y = w.mem y :=
  Function.update_of_ne h ..

@[simp] theorem modify_tree : (w.modify x f).tree = w.tree := rfl
@[simp] theorem modify_live : (w.modify x f).live = w.live := rfl
@[simp] theorem modify_threads : (w.modify x f).threads = w.threads := rfl
@[simp] theorem modify_serial : (w.modify x f).serial = w.serial := rfl
@[simp] theorem modify_destroyed : (w.modify x f).destroyed = w.destroyed := rfl
@[simp] theorem modify_threadsOf (y : ι) : (w.modify x f).threadsOf y = w.threadsOf y := rfl

@[simp] theorem modify_modify (g : IRCServer ι → IRCServer ι) :
    (w.modify x f).modify x g = w.modify x fun s ↦ g (f s) := by
  unfold World.modify
  simp

end Modify

theorem mem_threadsOf {w : World ι} {x : ι} {t : Thread ι} :
    t ∈ w.threadsOf x ↔ t ∈ w.threads ∧ t.record = x := by
  simp [World.threadsOf]

/-- Nothing changed for a record. -/
structure Same (w w' : World ι) (y : ι) : Prop where
  mem : w'.mem y = w.mem y
  threads : w'.threadsOf y = w.threadsOf y
  tree : y ∈ w'.tree ↔ y ∈ w.tree
  live : y ∈ w'.live ↔ y ∈ w.live

namespace Same

variable {w w' w'' : World ι} {y : ι}

theorem refl (w : World ι) (y : ι) : Same w w y := ⟨rfl, rfl, .rfl, .rfl⟩

theorem trans (h : Same w w' y) (h' : Same w' w'' y) : Same w w'' y :=
  ⟨h'.mem.trans h.mem, h'.threads.trans h.threads, h'.tree.trans h.tree, h'.live.trans h.live⟩

theorem modify {x : ι} (h : y ≠ x) (f : IRCServer ι → IRCServer ι) : Same w (w.modify x f) y :=
  ⟨modify_mem_ne w x f h, rfl, .rfl, .rfl⟩

end Same

/-! ## Killing -/

/-- The threads a record points to are its own. -/
def Owned (w : World ι) (x : ι) : Prop :=
  ∀ t, (w.mem x).txThreadId = some t ∨ (w.mem x).threadId = some t → t.record = x

/-- Whether `serverKill` tells the threads to end. -/
def stops (server : IRCServer ι) : Bool := server.enabled || server.enabledChanged

/-- What `serverKill` leaves. -/
def killed (w : World ι) (x : ι) (unalloc : Bool) : World ι :=
  let server := w.mem x
  let threads :=
    if stops server then
      (w.threads.filter fun t ↦ some t ≠ server.txThreadId).filter fun t ↦
        some t ≠ server.threadId
    else w.threads
  { tree := if unalloc then w.tree.erase x else w.tree
    mem := Function.update w.mem x { server with
      threadAbort := server.threadAbort && !stops server
      enabled := server.enabled && unalloc
      txQueue := false
      channels := false
      floodList := false }
    live := if unalloc then w.live.erase x else w.live
    threads
    serial := w.serial
    destroyed := (x, threads.filter fun t ↦ t.record = x) :: w.destroyed }

theorem threadDeregister_eq {w : World ι} {thread : Option (Thread ι)}
    (h : ∀ t, thread = some t → (w.mem t.record).threadAbort = true) :
    threadDeregister w thread =
      some { w with threads := w.threads.filter fun t ↦ some t ≠ thread } := by
  cases thread with
  | none => simp [threadDeregister]
  | some t =>
      by_cases ht : t ∈ w.threads
      · simp [threadDeregister, ht, h t rfl]
      · have hne : ∀ u ∈ w.threads, u ≠ t := fun u hu e ↦ ht (e ▸ hu)
        have hfilter : (w.threads.filter fun u ↦ some u ≠ some t) = w.threads :=
          List.filter_eq_self.mpr fun u hu ↦ by simpa using hne u hu
        rw [hfilter]
        simp [threadDeregister, ht]

/-- The flood list of a killed server has to be there. -/
theorem serverKill_eq {w : World ι} {x : ι} (ho : Owned w x) (unalloc : Bool) :
    serverKill w x unalloc =
      if (w.mem x).floodList then some (killed w x unalloc) else none := by
  unfold serverKill
  by_cases hs : stops (w.mem x) = true
  · have htx : ∀ t, (w.mem x).txThreadId = some t → t.record = x := fun t ht ↦ ho t (.inl ht)
    have hirc : ∀ t, (w.mem x).threadId = some t → t.record = x := fun t ht ↦ ho t (.inr ht)
    have hcond : ((w.mem x).enabled || (w.mem x).enabledChanged) = true := hs
    let w₁ := w.modify x fun server ↦ { server with threadAbort := true }
    have h₁ : threadDeregister w₁ (w₁.mem x).txThreadId =
        some { w₁ with threads := w₁.threads.filter fun t ↦ some t ≠ (w.mem x).txThreadId } := by
      rw [modify_mem_self]
      refine threadDeregister_eq fun t ht ↦ ?_
      rw [htx t ht, modify_mem_self]
    let w₂ : World ι :=
      { w₁ with threads := w₁.threads.filter fun t ↦ some t ≠ (w.mem x).txThreadId }
    have h₂ : threadDeregister w₂ (w₂.mem x).threadId =
        some { w₂ with threads := w₂.threads.filter fun t ↦ some t ≠ (w.mem x).threadId } := by
      have hmem : w₂.mem x = { w.mem x with threadAbort := true } :=
        modify_mem_self w x fun server ↦ { server with threadAbort := true }
      rw [hmem]
      refine threadDeregister_eq fun t ht ↦ ?_
      rw [hirc t ht, hmem]
    rw [if_pos hcond]
    dsimp only
    rw [h₁]
    dsimp only [Option.bind_eq_bind, Option.bind_some]
    rw [h₂]
    cases unalloc <;> by_cases hf : (w.mem x).floodList = true <;>
      simp [hf, killed, hs, World.modify, World.threadsOf, w₁, w₂]
  · have hcond : ¬ ((w.mem x).enabled || (w.mem x).enabledChanged) = true := hs
    rw [if_neg hcond]
    cases unalloc <;> by_cases hf : (w.mem x).floodList = true <;>
      simp [hf, killed, hs, World.modify, World.threadsOf]

/-- The threads of a record but those it points to. -/
def astray (w : World ι) (x : ι) : List (Thread ι) :=
  ((w.threadsOf x).filter fun t ↦ some t ≠ (w.mem x).txThreadId).filter fun t ↦
    some t ≠ (w.mem x).threadId

theorem killed_same {w : World ι} {x y : ι} (ho : Owned w x) (h : y ≠ x) (unalloc : Bool) :
    Same w (killed w x unalloc) y := by
  have htx : ∀ t, t.record = y → some t ≠ (w.mem x).txThreadId := fun t ht e ↦
    h (ht.symm.trans (ho t (.inl e.symm)))
  have hirc : ∀ t, t.record = y → some t ≠ (w.mem x).threadId := fun t ht e ↦
    h (ht.symm.trans (ho t (.inr e.symm)))
  refine ⟨Function.update_of_ne h .., ?_, ?_, ?_⟩
  · unfold World.threadsOf killed
    dsimp only
    split
    · rw [List.filter_filter, List.filter_filter]
      refine List.filter_congr fun t _ ↦ ?_
      by_cases ht : t.record = y
      · simp [ht, htx t ht, hirc t ht]
      · simp [ht]
    · rfl
  · cases unalloc
    · rfl
    · exact List.mem_erase_of_ne h
  · cases unalloc
    · rfl
    · exact List.mem_erase_of_ne h

theorem killed_threadsOf (w : World ι) (x : ι) (unalloc : Bool) :
    (killed w x unalloc).threadsOf x = if stops (w.mem x) then astray w x else w.threadsOf x := by
  unfold World.threadsOf killed astray
  dsimp only
  split
  · simp only [World.threadsOf, List.filter_filter]
    refine List.filter_congr fun t _ ↦ ?_
    by_cases ht : t.record = x <;> simp [ht]
  · rfl

theorem killed_mem (w : World ι) (x : ι) (unalloc : Bool) :
    (killed w x unalloc).mem x = { w.mem x with
      threadAbort := (w.mem x).threadAbort && !stops (w.mem x)
      enabled := (w.mem x).enabled && unalloc
      txQueue := false
      channels := false
      floodList := false } :=
  Function.update_self ..

/-! ## Starting -/

/-- The threads that `serverStart` creates. -/
def startedThreads (w : World ι) (x : ι) : List (Thread ι) :=
  [⟨w.serial, .transmit, x, (w.mem x).connection⟩,
    ⟨w.serial + 1, .server, x, (w.mem x).connection⟩]

theorem serverStart_threads (w : World ι) (x : ι) :
    (serverStart w x).threads = w.threads ++ startedThreads w x := by
  simp [serverStart, threadCreate, startedThreads]

theorem serverStart_threadsOf (w : World ι) (x : ι) :
    (serverStart w x).threadsOf x = w.threadsOf x ++ startedThreads w x := by
  simp [World.threadsOf, serverStart_threads, startedThreads]

theorem serverStart_mem (w : World ι) (x : ι) :
    (serverStart w x).mem x = { w.mem x with
      newServer := false
      txQueue := true
      txThreadId := some ⟨w.serial, .transmit, x, (w.mem x).connection⟩
      threadId := some ⟨w.serial + 1, .server, x, (w.mem x).connection⟩ } := by
  simp [serverStart, threadCreate, World.modify]

theorem serverStart_same (w : World ι) {x y : ι} (h : y ≠ x) : Same w (serverStart w x) y := by
  refine ⟨?_, ?_, .rfl, .rfl⟩
  · simp [serverStart, threadCreate, World.modify, h]
  · simp [World.threadsOf, serverStart_threads, startedThreads, h.symm]

theorem serverStart_owned (w : World ι) (x : ι) : Owned (serverStart w x) x := by
  intro t ht
  rw [serverStart_mem] at ht
  rcases ht with ht | ht <;> cases ht <;> rfl

/-! ## Loading -/

variable {malloc : List ι → ι}

omit [DecidableEq ι] in
theorem findServer_some {w : World ι} {serverId : ℤ} {x : ι}
    (h : findServer w serverId = some x) : x ∈ w.tree ∧ (w.mem x).serverId = serverId := by
  refine ⟨List.mem_of_find?_eq_some h, ?_⟩
  simpa using List.find?_some h

omit [DecidableEq ι] in
theorem findServer_none {w : World ι} {serverId : ℤ} (h : findServer w serverId = none) :
    ∀ x ∈ w.tree, (w.mem x).serverId ≠ serverId := by
  intro x hx
  simpa using List.find?_eq_none.mp h x hx

theorem mem_addServer {mem : ι → IRCServer ι} {x y : ι} {tree : List ι} :
    y ∈ addServer mem x tree ↔ y = x ∨ y ∈ tree := by
  induction tree with
  | nil => simp [addServer]
  | cons z tree ih =>
      rw [addServer]
      split
      · simp
      · simp only [List.mem_cons, ih]
        tauto

theorem nodup_addServer {mem : ι → IRCServer ι} {x : ι} {tree : List ι} (hx : x ∉ tree)
    (h : tree.Nodup) : (addServer mem x tree).Nodup := by
  induction tree with
  | nil => simp [addServer]
  | cons z tree ih =>
      rw [addServer]
      obtain ⟨hz, ht⟩ := List.nodup_cons.mp h
      simp only [List.mem_cons, not_or] at hx
      split
      · exact List.nodup_cons.mpr ⟨by simp [hx.1, hx.2], h⟩
      · refine List.nodup_cons.mpr ⟨?_, ih hx.2 ht⟩
        rw [mem_addServer]
        rintro (rfl | hm)
        · exact hx.1 rfl
        · exact hz hm

/-- Whether a row renames a record that has threads already. -/
def Renames (server : IRCServer ι) (row : Row) : Prop :=
  (loadRow server true row).2 = true

instance (server : IRCServer ι) (row : Row) : Decidable (Renames server row) :=
  inferInstanceAs (Decidable ((loadRow server true row).2 = true))

/-- What the fields of a record are once a row was loaded into it. -/
structure Loaded (w : World ι) (x : ι) (row : Row) (newServer : Bool) : Prop where
  tree : x ∈ w.tree
  live : x ∈ w.live
  settings : (w.mem x).toSettings = row.settings
  serverId : (w.mem x).serverId = row.serverId
  enabled : (w.mem x).enabled = row.enabled
  oldEnabled : (w.mem x).oldEnabled = row.enabled
  enabledChanged : (w.mem x).enabledChanged = false
  visited : (w.mem x).visited = true
  floodList : (w.mem x).floodList = true
  newServer : (w.mem x).newServer = newServer
  owned : Owned w x

/-- Whether loading a row kills the server of a record that is not renamed. -/
def disables (server : IRCServer ι) (row : Row) : Bool :=
  (server.enabled || server.enabledChanged) && !row.enabled

/-- A row whose record is found. -/
theorem loadServer_found {w : World ι} {row : Row} {x : ι}
    (hx : findServer w row.serverId = some x) (ho : Owned w x) :
    loadServer malloc w row =
      let server := loadRow (w.mem x) true row
      let w₁ := w.modify x fun _ ↦ server.1
      if (disables (w.mem x) row || server.2) = true then
        if (w.mem x).floodList then some ((killed w₁ x server.2).modify x settleRow) else none
      else some (w₁.modify x settleRow) := by
  have ho₁ : Owned (w.modify x fun _ ↦ (loadRow (w.mem x) true row).1) x := by
    intro t ht
    rw [modify_mem_self] at ht
    exact ho t ht
  have hcond : (((w.mem x).enabled || (loadRow (w.mem x) true row).1.enabledChanged) &&
      !(loadRow (w.mem x) true row).1.enabled || (loadRow (w.mem x) true row).2) =
        (disables (w.mem x) row || (loadRow (w.mem x) true row).2) := rfl
  unfold loadServer
  rw [hx]
  dsimp only
  rw [serverKill_eq ho₁, modify_mem_self, hcond]
  split
  · by_cases hf : (w.mem x).floodList = true
    · simp [loadRow, hf]
    · simp [loadRow, hf]
  · rfl

/-- How loading a row changes the record that is found for it. -/
inductive LoadCase (w w' : World ι) (x : ι) (row : Row) : Prop where
  | kept (hrename : ¬ Renames (w.mem x) row) (hdisable : disables (w.mem x) row = false)
      (loaded : Loaded w' x row ((w.mem x).enabledChanged && row.enabled))
      (tree : w'.tree = w.tree) (threads : w'.threads = w.threads)
      (tx : (w'.mem x).txThreadId = (w.mem x).txThreadId)
      (irc : (w'.mem x).threadId = (w.mem x).threadId)
      (txQueue : (w'.mem x).txQueue = (w.mem x).txQueue) (destroyed : w'.destroyed = w.destroyed)
  | disabled (hrename : ¬ Renames (w.mem x) row) (hdisable : disables (w.mem x) row = true)
      (hflood : (w.mem x).floodList = true) (loaded : Loaded w' x row false)
      (tree : w'.tree = w.tree)
      (threads : w'.threadsOf x =
        if (w.mem x).enabledChanged then astray w x else w.threadsOf x)
      (destroyed : w'.destroyed = (x, w'.threadsOf x) :: w.destroyed)
  | renamed (hrename : Renames (w.mem x) row) (hflood : (w.mem x).floodList = true)
      (tree : w'.tree = w.tree.erase x)
      (threads : w'.threadsOf x =
        if row.enabled || (w.mem x).enabledChanged then astray w x else w.threadsOf x)
      (destroyed : w'.destroyed = (x, w'.threadsOf x) :: w.destroyed)

theorem astray_modify {w : World ι} {x : ι} {server : IRCServer ι}
    (htx : server.txThreadId = (w.mem x).txThreadId) (hirc : server.threadId = (w.mem x).threadId) :
    astray (w.modify x fun _ ↦ server) x = astray w x := by
  simp [astray, htx, hirc]

theorem loadServer_found_cases {w w' : World ι} {row : Row} {x : ι}
    (hx : findServer w row.serverId = some x) (ho : Owned w x) (hlive : x ∈ w.live)
    (h : loadServer malloc w row = some w') :
    (∀ y, y ≠ x → Same w w' y) ∧ LoadCase w w' x row := by
  rw [loadServer_found hx ho] at h
  dsimp only at h
  let server := loadRow (w.mem x) true row
  let w₁ := w.modify x fun _ ↦ server.1
  have ho₁ : Owned w₁ x := by
    intro t ht
    rw [modify_mem_self] at ht
    exact ho t ht
  have hw₁ : w₁.mem x = server.1 := modify_mem_self w x fun _ ↦ server.1
  have htree := (findServer_some hx).1
  have hsame₁ : ∀ y, y ≠ x → Same w w₁ y := fun y hy ↦ .modify hy _
  have hsame₂ : ∀ y, y ≠ x → ∀ unalloc, Same w ((killed w₁ x unalloc).modify x settleRow) y :=
    fun y hy unalloc ↦ ((hsame₁ y hy).trans (killed_same ho₁ hy unalloc)).trans (.modify hy _)
  have hastray : astray w₁ x = astray w x := astray_modify rfl rfl
  have hstops : stops (w₁.mem x) = (row.enabled || (w.mem x).enabledChanged) := by
    rw [modify_mem_self]
    rfl
  have hthreads : ∀ unalloc, ((killed w₁ x unalloc).modify x settleRow).threadsOf x =
      if row.enabled || (w.mem x).enabledChanged then astray w x else w.threadsOf x := by
    intro unalloc
    rw [modify_threadsOf, killed_threadsOf, hstops, hastray]
    rfl
  by_cases hrename : Renames (w.mem x) row
  · have hkill : server.2 = true := hrename
    have hcond : (disables (w.mem x) row || server.2) = true := by simp [hkill]
    rw [if_pos hcond] at h
    split at h
    · rename_i hflood
      cases h
      refine ⟨fun y hy ↦ hsame₂ y hy _, .renamed hrename hflood ?_ (hthreads _) rfl⟩
      simp [killed, hkill, server]
    · cases h
  · have hkill : server.2 = false := by simpa [Renames] using hrename
    by_cases hdisable : disables (w.mem x) row = true
    · have hcond : (disables (w.mem x) row || server.2) = true := by simp [hdisable]
      have hrow : row.enabled = false := by
        simp only [disables, Bool.and_eq_true, Bool.not_eq_true'] at hdisable
        exact hdisable.2
      have hloaded : Loaded ((killed w₁ x server.2).modify x settleRow) x row false := by
        have hmem : ((killed w₁ x server.2).modify x settleRow).mem x =
            settleRow { server.1 with
              threadAbort := server.1.threadAbort && !stops server.1
              enabled := server.1.enabled && server.2
              txQueue := false
              channels := false
              floodList := false } := by
          rw [modify_mem_self, killed_mem, hw₁]
        have hnew : server.1.newServer = false := by
          show (!true || ((w.mem x).enabledChanged && row.enabled) || server.2) = false
          simp [hrow, hkill]
        have henabled : (server.1.enabled && server.2) = row.enabled := by simp [hkill, hrow]
        constructor
        · simpa [killed, hkill, w₁] using htree
        · simpa [killed, hkill, w₁] using hlive
        · rw [hmem]; rfl
        · rw [hmem]; rfl
        · rw [hmem]; exact henabled
        · rw [hmem]; exact henabled
        · rw [hmem]; rfl
        · rw [hmem]; rfl
        · rw [hmem]; rfl
        · rw [hmem]; exact hnew
        · intro t ht
          rw [hmem] at ht
          exact ho t ht
      rw [if_pos hcond] at h
      split at h
      · rename_i hflood
        cases h
        refine ⟨fun y hy ↦ hsame₂ y hy _, .disabled hrename hdisable hflood hloaded ?_ ?_ rfl⟩
        · simp [killed, hkill, server]
        · rw [hthreads, hrow]
          simp
      · cases h
    · have hcond : ¬ (disables (w.mem x) row || server.2) = true := by simp [hkill, hdisable]
      have hmem : (w₁.modify x settleRow).mem x = settleRow server.1 := by
        rw [modify_mem_self, hw₁]
      have hloaded : Loaded (w₁.modify x settleRow) x row
          ((w.mem x).enabledChanged && row.enabled) := by
        have hnew : server.1.newServer = ((w.mem x).enabledChanged && row.enabled) := by
          show (!true || ((w.mem x).enabledChanged && row.enabled) || server.2) = _
          simp [hkill]
        constructor
        · exact htree
        · exact hlive
        · rw [hmem]; rfl
        · rw [hmem]; rfl
        · rw [hmem]; rfl
        · rw [hmem]; rfl
        · rw [hmem]; rfl
        · rw [hmem]; rfl
        · rw [hmem]; rfl
        · rw [hmem]; exact hnew
        · intro t ht
          rw [hmem] at ht
          exact ho t ht
      have htx : ((w₁.modify x settleRow).mem x).txThreadId = (w.mem x).txThreadId := by
        rw [hmem]
        rfl
      have hirc : ((w₁.modify x settleRow).mem x).threadId = (w.mem x).threadId := by
        rw [hmem]
        rfl
      have htxQueue : ((w₁.modify x settleRow).mem x).txQueue = (w.mem x).txQueue := by
        rw [hmem]
        rfl
      rw [if_neg hcond] at h
      cases h
      exact ⟨fun y hy ↦ (hsame₁ y hy).trans (.modify hy _),
        .kept hrename (by simpa using hdisable) hloaded rfl rfl htx hirc htxQueue rfl⟩

/-- A row without a record gets a new one. -/
theorem loadServer_new {w : World ι} {row : Row} (hmalloc : ∀ l, malloc l ∉ l)
    (hx : findServer w row.serverId = none) (hlive : ∀ x ∈ w.tree, x ∈ w.live) :
    ∃ w', loadServer malloc w row = some w' ∧ (∀ y, y ≠ malloc w.live → Same w w' y) ∧
      Loaded w' (malloc w.live) row true ∧ w'.threads = w.threads ∧
      w'.destroyed = w.destroyed ∧ (∀ y, y ∈ w'.tree ↔ y = malloc w.live ∨ y ∈ w.tree) ∧
      (∀ y, y ∈ w'.live ↔ y = malloc w.live ∨ y ∈ w.live) ∧ (w.tree.Nodup → w'.tree.Nodup) := by
  let x := malloc w.live
  have hnew : ∀ y ∈ w.live, y ≠ x := by
    rintro y hy rfl
    exact hmalloc w.live hy
  let server := (loadRow (IRCServer.cleared ι) false row).1
  let w₁ : World ι := { w.modify x fun _ ↦ settleRow server with live := x :: w.live }
  have hmem : w₁.mem x = settleRow server := modify_mem_self w x fun _ ↦ settleRow server
  have htree : ∀ y, y ∈ addServer w₁.mem x w₁.tree ↔ y = x ∨ y ∈ w.tree := fun y ↦ mem_addServer
  refine ⟨{ w₁ with tree := addServer w₁.mem x w₁.tree }, ?_, fun y hy ↦ ⟨?_, rfl, ?_, ?_⟩,
    ?_, rfl, rfl, htree, fun y ↦ by simp [w₁, x], fun hn ↦ ?_⟩
  · unfold loadServer
    rw [hx]
  · exact modify_mem_ne w x (fun _ ↦ settleRow server) hy
  · rw [htree]
    simp [x, hy]
  · simp [w₁, x, hy]
  · have hmem' : ({ w₁ with tree := addServer w₁.mem x w₁.tree } : World ι).mem x =
        settleRow server := hmem
    constructor
    · exact (htree x).mpr (.inl rfl)
    · simp [w₁, x]
    · rw [hmem']; rfl
    · rw [hmem']; rfl
    · rw [hmem']; rfl
    · rw [hmem']; rfl
    · rw [hmem']; rfl
    · rw [hmem']; rfl
    · rw [hmem']; rfl
    · rw [hmem']; rfl
    · intro t ht
      rw [hmem'] at ht
      rcases ht with ht | ht <;> cases ht
  · exact nodup_addServer (fun hm ↦ hnew x (hlive x hm) rfl) hn

/-! ## Trees of records -/

/-- The records of the tree are in use and told apart by their keys, and point to
their own threads. -/
structure Sane (w : World ι) : Prop where
  nodup : w.tree.Nodup
  live : ∀ x ∈ w.tree, x ∈ w.live
  owned : ∀ x ∈ w.tree, Owned w x
  ids : ∀ x ∈ w.tree, ∀ y ∈ w.tree, (w.mem x).serverId = (w.mem y).serverId → x = y

theorem Same.owned {w w' : World ι} {y : ι} (h : Same w w' y) (ho : Owned w y) : Owned w' y := by
  intro t ht
  rw [h.mem] at ht
  exact ho t ht

omit [DecidableEq ι] in
/-- A record of the tree is found by its key. -/
theorem Sane.findServer_eq {w : World ι} (h : Sane w) {x : ι} (hx : x ∈ w.tree) :
    findServer w (w.mem x).serverId = some x := by
  cases hf : findServer w (w.mem x).serverId with
  | none => exact absurd rfl (findServer_none hf x hx)
  | some y =>
      obtain ⟨hy, hid⟩ := findServer_some hf
      rw [h.ids y hy x hx hid]

/-- Where at most one record changed, and that as a row says or by leaving the tree,
the tree stays as it should be. -/
theorem Sane.of_same {w w' : World ι} (h : Sane w) {x : ι} (hsame : ∀ y, y ≠ x → Same w w' y)
    (hn : w'.tree.Nodup) (hx : x ∈ w'.tree → x ∈ w'.live ∧ Owned w' x ∧
      ∀ y ∈ w.tree, y ≠ x → (w.mem y).serverId ≠ (w'.mem x).serverId) : Sane w' := by
  have hold : ∀ y ∈ w'.tree, y ≠ x → y ∈ w.tree := fun y hy hyx ↦ (hsame y hyx).tree.mp hy
  refine ⟨hn, fun y hy ↦ ?_, fun y hy ↦ ?_, fun y hy z hz hyz ↦ ?_⟩
  · by_cases hyx : y = x
    · exact hyx ▸ (hx (hyx ▸ hy)).1
    · exact (hsame y hyx).live.mpr (h.live y (hold y hy hyx))
  · by_cases hyx : y = x
    · exact hyx ▸ (hx (hyx ▸ hy)).2.1
    · exact (hsame y hyx).owned (h.owned y (hold y hy hyx))
  · by_cases hyx : y = x <;> by_cases hzx : z = x
    · rw [hyx, hzx]
    · subst hyx
      rw [(hsame z hzx).mem] at hyz
      exact absurd hyz.symm ((hx hy).2.2 z (hold z hz hzx) hzx)
    · subst hzx
      rw [(hsame y hyx).mem] at hyz
      exact absurd hyz ((hx hz).2.2 y (hold y hy hyx) hyx)
    · rw [(hsame y hyx).mem, (hsame z hzx).mem] at hyz
      exact h.ids y (hold y hy hyx) z (hold z hz hzx) hyz

theorem loadServer_sane {w w' : World ι} {row : Row} (hmalloc : ∀ l, malloc l ∉ l) (h : Sane w)
    (hl : loadServer malloc w row = some w') : Sane w' := by
  cases hf : findServer w row.serverId with
  | some x =>
      obtain ⟨hx, hid⟩ := findServer_some hf
      obtain ⟨hsame, hcase⟩ := loadServer_found_cases hf (h.owned x hx) (h.live x hx) hl
      have hloaded : ∀ {new}, Loaded w' x row new → x ∈ w'.live ∧ Owned w' x ∧
          ∀ y ∈ w.tree, y ≠ x → (w.mem y).serverId ≠ (w'.mem x).serverId := by
        intro new hloaded
        refine ⟨hloaded.live, hloaded.owned, fun y hy hyx e ↦ hyx ?_⟩
        exact h.ids y hy x hx (e.trans (hloaded.serverId.trans hid.symm))
      cases hcase with
      | kept _ _ loaded tree => exact h.of_same hsame (tree ▸ h.nodup) fun _ ↦ hloaded loaded
      | disabled _ _ _ loaded tree => exact h.of_same hsame (tree ▸ h.nodup) fun _ ↦ hloaded loaded
      | renamed _ _ tree =>
          refine h.of_same hsame (tree ▸ h.nodup.erase x) fun hm ↦ ?_
          rw [tree] at hm
          exact absurd rfl (h.nodup.mem_erase_iff.mp hm).1
  | none =>
      obtain ⟨w'', he, hsame, hloaded, -, -, -, -, hn⟩ := loadServer_new hmalloc hf h.live
      obtain rfl := Option.some.inj (he.symm.trans hl)
      refine h.of_same hsame (hn h.nodup) fun _ ↦ ⟨hloaded.live, hloaded.owned, fun y hy _ e ↦ ?_⟩
      exact findServer_none hf y hy (e.trans hloaded.serverId)

/-- Rows of other servers do not concern a record. -/
theorem loadServer_same {w w' : World ι} {row : Row} (hmalloc : ∀ l, malloc l ∉ l) (h : Sane w)
    (hl : loadServer malloc w row = some w') {y : ι} (hy : y ∈ w.tree)
    (hid : (w.mem y).serverId ≠ row.serverId) : Same w w' y := by
  cases hf : findServer w row.serverId with
  | some x =>
      obtain ⟨hx, hxid⟩ := findServer_some hf
      refine (loadServer_found_cases hf (h.owned x hx) (h.live x hx) hl).1 y ?_
      rintro rfl
      exact hid hxid
  | none =>
      obtain ⟨w'', he, hsame, -⟩ := loadServer_new hmalloc hf h.live
      obtain rfl := Option.some.inj (he.symm.trans hl)
      refine hsame y ?_
      rintro rfl
      exact hmalloc w.live (h.live _ hy)

/-- A record that does not have the key of the row was in the tree before. -/
theorem loadServer_old {w w' : World ι} {row : Row} (hmalloc : ∀ l, malloc l ∉ l) (h : Sane w)
    (hl : loadServer malloc w row = some w') {y : ι} (hy : y ∈ w'.tree)
    (hid : (w'.mem y).serverId ≠ row.serverId) : y ∈ w.tree ∧ Same w w' y := by
  cases hf : findServer w row.serverId with
  | some x =>
      obtain ⟨hx, -⟩ := findServer_some hf
      obtain ⟨hsame, hcase⟩ := loadServer_found_cases hf (h.owned x hx) (h.live x hx) hl
      have hyx : y ≠ x := by
        rintro rfl
        cases hcase with
        | kept _ _ loaded => exact hid loaded.serverId
        | disabled _ _ _ loaded => exact hid loaded.serverId
        | renamed _ _ tree =>
            rw [tree] at hy
            exact (h.nodup.mem_erase_iff.mp hy).1 rfl
      exact ⟨(hsame y hyx).tree.mp hy, hsame y hyx⟩
  | none =>
      obtain ⟨w'', he, hsame, hloaded, -⟩ := loadServer_new hmalloc hf h.live
      obtain rfl := Option.some.inj (he.symm.trans hl)
      have hym : y ≠ malloc w.live := by
        rintro rfl
        exact hid hloaded.serverId
      exact ⟨(hsame y hym).tree.mp hy, hsame y hym⟩

end Beirdobot.Servers
