import Mathlib.Data.List.Nodup
import Mathlib.Data.List.Perm.Subperm
import Beirdobot.Servers.Loops

/-!
# Reloading the servers

What `mainSighup` does to a record with a row, to a record without one and to a row
without a record, and when the tree agrees with the table afterwards.
-/

namespace Beirdobot.Servers

variable {ι : Type} [DecidableEq ι]

/-! ## Visits and channels do not matter -/

omit [DecidableEq ι] in
theorem Sane.of_mem {w w' : World ι} (h : Sane w) (htree : w'.tree = w.tree)
    (hlive : w'.live = w.live) (hid : ∀ y, (w'.mem y).serverId = (w.mem y).serverId)
    (htx : ∀ y, (w'.mem y).txThreadId = (w.mem y).txThreadId)
    (hirc : ∀ y, (w'.mem y).threadId = (w.mem y).threadId) : Sane w' := by
  constructor
  · exact htree ▸ h.nodup
  · rw [htree, hlive]
    exact h.live
  · intro x hx t ht
    rw [htx, hirc] at ht
    exact h.owned x (htree ▸ hx) t ht
  · intro x hx y hy hxy
    rw [hid, hid] at hxy
    exact h.ids x (htree ▸ hx) y (htree ▸ hy) hxy

theorem serverUnvisit_sane {w : World ι} (h : Sane w) (nodes : List ι) :
    Sane (serverUnvisit w nodes) := by
  obtain ⟨htree, hlive, -⟩ := serverUnvisit_rest w nodes
  refine h.of_mem htree hlive ?_ ?_ ?_ <;> intro y <;> rw [serverUnvisit_mem] <;> split <;> rfl

theorem serverUnvisit_threadsOf (w : World ι) (nodes : List ι) (x : ι) :
    (serverUnvisit w nodes).threadsOf x = w.threadsOf x := by
  rw [World.threadsOf, (serverUnvisit_rest w nodes).2.2.1, World.threadsOf]

theorem dbLoadChannels_sane {w : World ι} (h : Sane w) (hasChannels : ℤ → Bool)
    (nodes : List ι) : Sane (dbLoadChannels hasChannels w nodes) := by
  obtain ⟨htree, hlive, -⟩ := dbLoadChannels_rest hasChannels w nodes
  refine h.of_mem htree hlive ?_ ?_ ?_ <;> intro y <;>
    obtain ⟨channels, hy⟩ := dbLoadChannels_mem hasChannels w nodes y <;> rw [hy]

theorem dbLoadChannels_threadsOf (hasChannels : ℤ → Bool) (w : World ι) (nodes : List ι) (x : ι) :
    (dbLoadChannels hasChannels w nodes).threadsOf x = w.threadsOf x := by
  rw [World.threadsOf, (dbLoadChannels_rest hasChannels w nodes).2.2.1, World.threadsOf]

theorem Loaded.channels {w : World ι} {x : ι} {row : Row} {new : Bool} (h : Loaded w x row new)
    (hasChannels : ℤ → Bool) (nodes : List ι) :
    Loaded (dbLoadChannels hasChannels w nodes) x row new := by
  obtain ⟨htree, hlive, -⟩ := dbLoadChannels_rest hasChannels w nodes
  obtain ⟨channels, hmem⟩ := dbLoadChannels_mem hasChannels w nodes x
  constructor
  · exact htree ▸ h.tree
  · exact hlive ▸ h.live
  · rw [hmem]; exact h.settings
  · rw [hmem]; exact h.serverId
  · rw [hmem]; exact h.enabled
  · rw [hmem]; exact h.oldEnabled
  · rw [hmem]; exact h.enabledChanged
  · rw [hmem]; exact h.visited
  · rw [hmem]; exact h.floodList
  · rw [hmem]; exact h.newServer
  · intro t ht
    rw [hmem] at ht
    exact h.owned t ht

/-! ## Where a record ends up -/

/-- The transmit thread and the server thread of a connection. -/
structure Pair (c : Connection) (tx irc : Thread ι) : Prop where
  txKind : tx.kind = .transmit
  ircKind : irc.kind = .server
  txConnection : tx.connection = c
  ircConnection : irc.connection = c

/-- A record in use that holds the values of a row. -/
structure Carries (w : World ι) (x : ι) (row : Row) : Prop where
  tree : x ∈ w.tree
  live : x ∈ w.live
  settings : (w.mem x).toSettings = row.settings
  serverId : (w.mem x).serverId = row.serverId
  enabled : (w.mem x).enabled = row.enabled

/-- The threads of a record are those it had, and two more if it was started. -/
def Ran (w : World ι) (x : ι) (c : Connection) (before : List (Thread ι)) (start : Bool) : Prop :=
  if start then ∃ tx irc, Pair c tx irc ∧ w.threadsOf x = before ++ [tx, irc]
  else w.threadsOf x = before

theorem Loaded.flushed {w w' : World ι} {x : ι} {row : Row} {new : Bool} {fuel : ℕ}
    (h : Loaded w x row new) (hs : Sane w) (hf : flushLoop fuel w = some w') :
    Carries w' x row ∧
      Ran w' x row.settings.connection (w.threadsOf x) (new && row.enabled) := by
  obtain ⟨hflush, hall⟩ := flushLoop_flushed hs hf
  have hstart : ((w.mem x).newServer && (w.mem x).enabled) = (new && row.enabled) := by
    rw [h.newServer, h.enabled]
  obtain ⟨hx, hsame | hstarted⟩ := hflush.visited x h.tree h.visited
  · have hnot := (hall x hx).2
    rw [hsame.mem, hstart] at hnot
    refine ⟨⟨hx, hsame.live.mpr h.live, ?_, ?_, ?_⟩, ?_⟩
    · rw [hsame.mem, h.settings]
    · rw [hsame.mem, h.serverId]
    · rw [hsame.mem, h.enabled]
    · rw [Ran, hnot]
      exact hsame.threads
  · have hyes := hstarted.pending
    rw [hstart] at hyes
    obtain ⟨tx, irc, htx, hirc, hctx, hcirc, hthreads, hmem⟩ := hstarted.started
    have hconnection : (w.mem x).connection = row.settings.connection := by rw [h.settings]
    refine ⟨⟨hx, hstarted.live h.live, ?_, ?_, ?_⟩, ?_⟩
    · rw [hmem]; exact h.settings
    · rw [hmem]; exact h.serverId
    · rw [hmem]; exact h.enabled
    · rw [Ran, hyes]
      exact ⟨tx, irc, ⟨htx, hirc, hctx.trans hconnection, hcirc.trans hconnection⟩, hthreads⟩

section Reload

variable {malloc : List ι → ι} (hmalloc : ∀ l, malloc l ∉ l) {w w' : World ι} {rows : List Row}
  {hasChannels : ℤ → Bool} {fuel : ℕ}

include hmalloc

/-- The three stages of a reload. -/
theorem mainSighup_stages (h : Sane w)
    (hr : mainSighup malloc fuel w ⟨some rows, hasChannels⟩ = some w') :
    ∃ w₁, rows.foldlM (loadServer malloc) (serverUnvisit w w.tree) = some w₁ ∧ Sane w₁ ∧
      flushLoop fuel (dbLoadChannels hasChannels w₁ w₁.tree) = some w' := by
  obtain ⟨w₁, h₁, hf⟩ := Option.bind_eq_some_iff.mp hr
  exact ⟨w₁, h₁, loads_sane hmalloc (serverUnvisit_sane h _) h₁, hf⟩

theorem mainSighup_sane (h : Sane w)
    (hr : mainSighup malloc fuel w ⟨some rows, hasChannels⟩ = some w') : Sane w' := by
  obtain ⟨w₁, -, hs₁, hf⟩ := mainSighup_stages hmalloc h hr
  exact (flushLoop_flushed (dbLoadChannels_sane hs₁ hasChannels w₁.tree) hf).1.sane

omit hmalloc in
/-- The keys of the tree after flushing are those of some records before. -/
theorem flushed_serverId {w₁ : World ι} (h : Sane w₁)
    (hf : flushLoop fuel (dbLoadChannels hasChannels w₁ w₁.tree) = some w') {y : ι}
    (hy : y ∈ w'.tree) : y ∈ w₁.tree ∧ (w'.mem y).serverId = (w₁.mem y).serverId := by
  obtain ⟨hflush, -⟩ := flushLoop_flushed (dbLoadChannels_sane h _ _) hf
  have hsub := hflush.sub y hy
  rw [(dbLoadChannels_rest ..).1] at hsub
  obtain ⟨channels, hmem⟩ := dbLoadChannels_mem hasChannels w₁ w₁.tree y
  refine ⟨hsub, (hflush.serverId hy).trans ?_⟩
  rw [hmem]

/-- What a reload does to a record with a row. -/
theorem mainSighup_found (h : Sane w) (hrows : (rows.map Row.serverId).Nodup)
    (hr : mainSighup malloc fuel w ⟨some rows, hasChannels⟩ = some w') {row : Row}
    (hrow : row ∈ rows) {x : ι} (hx : x ∈ w.tree) (hid : (w.mem x).serverId = row.serverId) :
    (Renames (w.mem x) row ∧ ∀ y ∈ w'.tree, (w'.mem y).serverId ≠ row.serverId) ∨
    (¬ Renames (w.mem x) row ∧ (disables (w.mem x) row = true → (w.mem x).floodList = true) ∧
      Carries w' x row ∧ Ran w' x row.settings.connection (loadedThreads w x row)
        ((w.mem x).enabledChanged && row.enabled)) := by
  obtain ⟨w₁, h₁, hs₁, hf⟩ := mainSighup_stages hmalloc h hr
  have hmem : (serverUnvisit w w.tree).mem x = { w.mem x with visited := false } := by
    rw [serverUnvisit_mem, if_pos hx]
  have htree := (serverUnvisit_rest w w.tree).1
  have hthreads : loadedThreads (serverUnvisit w w.tree) x row = loadedThreads w x row := by
    simp only [loadedThreads, astray, hmem, serverUnvisit_threadsOf]
  have hcases := loads_found hmalloc (serverUnvisit_sane h w.tree) hrows h₁ hrow (htree ▸ hx)
    (by rw [hmem]; exact hid)
  rw [hmem, hthreads] at hcases
  rcases hcases with ⟨hrename, hlost⟩ | ⟨hrename, hflood, hloaded, hthreads₁⟩
  · refine .inl ⟨hrename, fun y hy ↦ ?_⟩
    obtain ⟨hy₁, hid₁⟩ := flushed_serverId hs₁ hf hy
    rw [hid₁]
    exact hlost y hy₁
  · refine .inr ⟨hrename, hflood, ?_⟩
    have hran := (hloaded.channels hasChannels w₁.tree).flushed (dbLoadChannels_sane hs₁ _ _) hf
    rw [dbLoadChannels_threadsOf, hthreads₁] at hran
    refine ⟨hran.1, ?_⟩
    have hand : ((w.mem x).enabledChanged && row.enabled && row.enabled) =
        ((w.mem x).enabledChanged && row.enabled) := by
      rw [Bool.and_assoc, Bool.and_self]
    rw [← hand]
    exact hran.2

/-- A record without a row leaves the tree, and its flood list has to be there. -/
theorem mainSighup_unlisted (h : Sane w)
    (hr : mainSighup malloc fuel w ⟨some rows, hasChannels⟩ = some w') {x : ι} (hx : x ∈ w.tree)
    (hid : ∀ row ∈ rows, (w.mem x).serverId ≠ row.serverId) :
    x ∉ w'.tree ∧ (w.mem x).floodList = true := by
  obtain ⟨w₁, h₁, hs₁, hf⟩ := mainSighup_stages hmalloc h hr
  have hmem : (serverUnvisit w w.tree).mem x = { w.mem x with visited := false } := by
    rw [serverUnvisit_mem, if_pos hx]
  have htree := (serverUnvisit_rest w w.tree).1
  have hsame := loads_same hmalloc (serverUnvisit_sane h w.tree) h₁ (htree ▸ hx)
    fun row hrow ↦ by rw [hmem]; exact hid row hrow
  obtain ⟨channels, hchannels⟩ := dbLoadChannels_mem hasChannels w₁ w₁.tree x
  obtain ⟨hflush, hall⟩ := flushLoop_flushed (dbLoadChannels_sane hs₁ hasChannels w₁.tree) hf
  have hbefore : (dbLoadChannels hasChannels w₁ w₁.tree).mem x =
      { w.mem x with visited := false, channels } := by
    rw [hchannels, hsame.mem, hmem]
  have hgone : x ∉ w'.tree := by
    intro hx'
    have hvisited := (hall x hx').1
    rw [(hflush.unvisited x hx' (by rw [hbefore])).mem, hbefore] at hvisited
    cases hvisited
  have hx₂ : x ∈ (dbLoadChannels hasChannels w₁ w₁.tree).tree := by
    rw [(dbLoadChannels_rest ..).1]
    refine hsame.tree.mpr ?_
    rwa [htree]
  have hflood := hflush.removed x hx₂ hgone
  rw [hbefore] at hflood
  exact ⟨hgone, hflood⟩

/-- Every record that is left has a row. -/
theorem mainSighup_listed (h : Sane w)
    (hr : mainSighup malloc fuel w ⟨some rows, hasChannels⟩ = some w') {y : ι}
    (hy : y ∈ w'.tree) : ∃ row ∈ rows, (w'.mem y).serverId = row.serverId := by
  by_contra hnone
  push Not at hnone
  obtain ⟨w₁, h₁, hs₁, hf⟩ := mainSighup_stages hmalloc h hr
  obtain ⟨hy₁, hid⟩ := flushed_serverId hs₁ hf hy
  obtain ⟨hy₀, hsame⟩ := loads_old hmalloc (serverUnvisit_sane h w.tree) h₁ hy₁ fun row hrow ↦
    hid ▸ hnone row hrow
  rw [(serverUnvisit_rest w w.tree).1] at hy₀
  have hmem : (w₁.mem y).serverId = (w.mem y).serverId := by
    rw [hsame.mem, serverUnvisit_mem, if_pos hy₀]
  refine (mainSighup_unlisted hmalloc h hr hy₀ fun row hrow ↦ ?_).1 hy
  rw [← hmem, ← hid]
  exact hnone row hrow

omit hmalloc in
/-- Where `serverUnvisit` is, nothing about the rows of a tree changes. -/
theorem serverUnvisit_noneRenamed (hnone : NoneRenamed w rows) :
    NoneRenamed (serverUnvisit w w.tree) rows := by
  intro x hx row hrow hid
  rw [(serverUnvisit_rest w w.tree).1] at hx
  rw [serverUnvisit_mem, if_pos hx] at hid ⊢
  exact hnone x hx row hrow hid

/-- What a reload does for a row without a record. -/
theorem mainSighup_new (h : Sane w) (hrows : (rows.map Row.serverId).Nodup)
    (hnone : NoneRenamed w rows) (hthreads : ∀ t ∈ w.threads, t.record ∈ w.live)
    (hr : mainSighup malloc fuel w ⟨some rows, hasChannels⟩ = some w') {row : Row}
    (hrow : row ∈ rows) (hid : ∀ x ∈ w.tree, (w.mem x).serverId ≠ row.serverId) :
    ∃ x, Carries w' x row ∧ Ran w' x row.settings.connection [] row.enabled := by
  obtain ⟨w₁, h₁, hs₁, hf⟩ := mainSighup_stages hmalloc h hr
  obtain ⟨htree, hlive, hth, -⟩ := serverUnvisit_rest w w.tree
  obtain ⟨x, hloaded, hempty⟩ := loads_new hmalloc (serverUnvisit_sane h w.tree) hrows
    (serverUnvisit_noneRenamed hnone) (by rw [hth, hlive]; exact hthreads) h₁ hrow fun x hx ↦ by
      rw [htree] at hx
      rw [serverUnvisit_mem, if_pos hx]
      exact hid x hx
  have hran := (hloaded.channels hasChannels w₁.tree).flushed (dbLoadChannels_sane hs₁ _ _) hf
  rw [dbLoadChannels_threadsOf, hempty] at hran
  exact ⟨x, hran⟩

/-- Loading adds at most one record for each row. -/
theorem loads_length (h : Sane w) (hl : rows.foldlM (loadServer malloc) w = some w') :
    w'.tree.length ≤ w.tree.length + rows.length := by
  induction rows generalizing w with
  | nil =>
      cases hl
      simp
  | cons row rows ih =>
      obtain ⟨w₁, h₁, hl⟩ := Option.bind_eq_some_iff.mp hl
      have hstep : w₁.tree.length ≤ w.tree.length + 1 := by
        cases hf : findServer w row.serverId with
        | some x =>
            obtain ⟨hx, -⟩ := findServer_some hf
            obtain ⟨-, hcase⟩ := loadServer_found_cases hf (h.owned x hx) (h.live x hx) h₁
            cases hcase with
            | kept _ _ _ tree => simp [tree]
            | disabled _ _ _ _ tree => simp [tree]
            | renamed _ _ tree =>
                rw [tree]
                exact Nat.le_trans List.erase_sublist.length_le (Nat.le_succ _)
        | none =>
            obtain ⟨w₂, he, -, -, -, -, htree, -, hn⟩ := loadServer_new hmalloc hf h.live
            obtain rfl := Option.some.inj (he.symm.trans h₁)
            have hsub : w₂.tree ⊆ malloc w.live :: w.tree := fun y hy ↦
              List.mem_cons.mpr ((htree y).mp hy)
            exact (List.subperm_of_subset (hn h.nodup) hsub).length_le
      have hrest := ih (loadServer_sane hmalloc h h₁) hl
      rw [List.length_cons]
      omega

/-- When a reload comes to its end. -/
theorem mainSighup_isSome (h : Sane w) (hrows : (rows.map Row.serverId).Nodup)
    (hfuel : w.tree.length + rows.length < fuel) (hnone : NoneRenamed w rows)
    (hthreads : ∀ t ∈ w.threads, t.record ∈ w.live)
    (hdisable : ∀ x ∈ w.tree, ∀ row ∈ rows, (w.mem x).serverId = row.serverId →
      disables (w.mem x) row = true → (w.mem x).floodList = true)
    (hunlisted : ∀ x ∈ w.tree, (∀ row ∈ rows, (w.mem x).serverId ≠ row.serverId) →
      (w.mem x).floodList = true) :
    ∃ w', mainSighup malloc fuel w ⟨some rows, hasChannels⟩ = some w' := by
  obtain ⟨htree, hlive, hth, -⟩ := serverUnvisit_rest w w.tree
  have hs₀ := serverUnvisit_sane h w.tree
  have hnone₀ := serverUnvisit_noneRenamed hnone
  obtain ⟨w₁, h₁⟩ := loads_isSome hmalloc hs₀ hrows fun x hx row hrow hid ↦ by
    refine ⟨hnone₀ x hx row hrow hid, ?_⟩
    rw [htree] at hx
    rw [serverUnvisit_mem, if_pos hx] at hid ⊢
    exact hdisable x hx row hrow hid
  have hs₁ := loads_sane hmalloc hs₀ h₁
  have hlength := loads_length hmalloc hs₀ h₁
  rw [htree] at hlength
  have hfuel₂ : (dbLoadChannels hasChannels w₁ w₁.tree).tree.length < fuel := by
    rw [(dbLoadChannels_rest ..).1]
    exact Nat.lt_of_le_of_lt hlength hfuel
  obtain ⟨w', hf⟩ := flushLoop_isSome (dbLoadChannels_sane hs₁ _ _) hfuel₂ fun x hx hv ↦ by
    rw [(dbLoadChannels_rest ..).1] at hx
    obtain ⟨channels, hchannels⟩ := dbLoadChannels_mem hasChannels w₁ w₁.tree x
    rw [hchannels] at hv ⊢
    by_cases hrow : ∃ row ∈ rows, (w₁.mem x).serverId = row.serverId
    · -- a record with a row was visited
      obtain ⟨row, hrow, hid⟩ := hrow
      have hloaded : ∃ y new, Loaded w₁ y row new := by
        by_cases hold : ∃ y ∈ (serverUnvisit w w.tree).tree,
            ((serverUnvisit w w.tree).mem y).serverId = row.serverId
        · obtain ⟨y, hy, hyid⟩ := hold
          rcases loads_found hmalloc hs₀ hrows h₁ hrow hy hyid with ⟨hrename, -⟩ | ⟨-, -, hl, -⟩
          · exact absurd hrename (hnone₀ y hy row hrow hyid)
          · exact ⟨y, _, hl⟩
        · push Not at hold
          obtain ⟨y, hl, -⟩ := loads_new hmalloc hs₀ hrows hnone₀
            (by rw [hth, hlive]; exact hthreads) h₁ hrow hold
          exact ⟨y, _, hl⟩
      obtain ⟨y, new, hl⟩ := hloaded
      obtain rfl := hs₁.ids x hx y hl.tree (hid.trans hl.serverId.symm)
      exact absurd hl.visited (by simpa using hv)
    · push Not at hrow
      obtain ⟨hx₀, hsame⟩ := loads_old hmalloc hs₀ h₁ hx hrow
      rw [htree] at hx₀
      have hmem : w₁.mem x = { w.mem x with visited := false } := by
        rw [hsame.mem, serverUnvisit_mem, if_pos hx₀]
      rw [hmem] at hrow ⊢
      exact hunlisted x hx₀ hrow
  exact ⟨w', Option.bind_eq_some_iff.mpr ⟨w₁, h₁, hf⟩⟩

end Reload

/-! ## Agreement with the table -/

/-- The threads of a record are a transmit thread and a server thread, and it points
to them. -/
def Running (w : World ι) (x : ι) : Prop :=
  ∃ c tx irc, Pair c tx irc ∧ w.threadsOf x = [tx, irc] ∧ (w.mem x).txThreadId = some tx ∧
    (w.mem x).threadId = some irc

/-- What may be found before a reload: each server runs or does not. -/
structure Prior (w : World ι) : Prop extends Sane w where
  threads : ∀ t ∈ w.threads, t.record ∈ w.tree
  running : ∀ x ∈ w.tree, w.threadsOf x = [] ∨ Running w x

/-- Both threads of a record run as its row says, or neither does. -/
def Runs (w : World ι) (x : ι) (row : Row) : Prop :=
  if row.enabled then ∃ tx irc, Pair row.settings.connection tx irc ∧ w.threadsOf x = [tx, irc]
  else w.threadsOf x = []

/-- The tree agrees with a table: one record for each row and no other, and each of
them holds and does what its row says. -/
structure Converged (rows : List Row) (w : World ι) : Prop where
  keys : (w.tree.map fun x ↦ (w.mem x).serverId).Perm (rows.map Row.serverId)
  records : ∀ row ∈ rows, ∃ x, findServer w row.serverId = some x ∧ Carries w x row ∧ Runs w x row

/-- A row has the nick, host and port of the threads' names, if there are any. -/
structure KeepsNames (server : IRCServer ι) (row : Row) : Prop where
  threadName : ∀ name ∈ server.threadName, name = Servers.threadName row.settings.connection
  txThreadName : ∀ name ∈ server.txThreadName, name = Servers.txThreadName row.settings.connection

/-- A record keeps the names of its threads, a row that enables it finds it idle and
enabled in the form or running and untouched, and a row that disables it finds it
disabled in the form. -/
structure Follows (w : World ι) (x : ι) (row : Row) : Prop where
  names : KeepsNames (w.mem x) row
  starts : row.enabled = true → w.threadsOf x = [] → (w.mem x).enabledChanged = true
  goesOn : row.enabled = true → w.threadsOf x ≠ [] → (w.mem x).enabledChanged = false ∧
    ∀ t ∈ w.threadsOf x, t.connection = row.settings.connection
  stops : row.enabled = false → w.threadsOf x ≠ [] → (w.mem x).enabledChanged = true
  floodList : row.enabled = false → (w.mem x).enabled = true ∨ (w.mem x).enabledChanged = true →
    (w.mem x).floodList = true

theorem not_renamed_iff {name : Option CString} {new : CString} :
    renamed name new = false ↔ ∀ n ∈ name, n = new := by
  cases name <;> simp [renamed]

omit [DecidableEq ι] in
theorem not_renames_iff {server : IRCServer ι} {row : Row} :
    ¬ Renames server row ↔ KeepsNames server row := by
  have hnames : KeepsNames server row ↔
      (∀ name ∈ server.threadName, name = threadName row.settings.connection) ∧
        ∀ name ∈ server.txThreadName, name = txThreadName row.settings.connection :=
    ⟨fun h ↦ ⟨h.threadName, h.txThreadName⟩, fun h ↦ ⟨h.1, h.2⟩⟩
  rw [hnames, ← not_renamed_iff, ← not_renamed_iff]
  simp [Renames, loadRow]

theorem Running.astray_eq {w : World ι} {x : ι} (h : Running w x) : astray w x = [] := by
  obtain ⟨c, tx, irc, -, hthreads, htx, hirc⟩ := h
  simp [astray, hthreads, htx, hirc]

theorem Running.ne_nil {w : World ι} {x : ι} (h : Running w x) : w.threadsOf x ≠ [] := by
  obtain ⟨c, tx, irc, -, hthreads, -⟩ := h
  simp [hthreads]

/-- A record runs as its row says after a reload that does not rename it if it
follows the row. -/
theorem Follows.runs {w w' : World ι} {x : ι} {row : Row} (h : Follows w x row)
    (hrunning : w.threadsOf x = [] ∨ Running w x)
    (hran : Ran w' x row.settings.connection (loadedThreads w x row)
      ((w.mem x).enabledChanged && row.enabled)) : Runs w' x row := by
  unfold Ran loadedThreads at hran
  unfold Runs
  cases hrow : row.enabled with
  | true =>
      rw [hrow] at hran
      rcases hrunning with hidle | hrunning
      · simpa [h.starts hrow hidle, hidle] using hran
      · obtain ⟨hchanged, hconnection⟩ := h.goesOn hrow hrunning.ne_nil
        obtain ⟨c, tx, irc, hpair, hthreads, -⟩ := hrunning
        rw [hthreads] at hconnection
        have hc : c = row.settings.connection :=
          hpair.txConnection.symm.trans (hconnection tx (by simp))
        refine ⟨tx, irc, hc ▸ hpair, ?_⟩
        simpa [hchanged, hthreads] using hran
  | false =>
      rw [hrow] at hran
      rcases hrunning with hidle | hrunning
      · simpa [astray, hidle] using hran
      · simpa [h.stops hrow hrunning.ne_nil, hrunning.astray_eq] using hran

/-- The other way around. -/
theorem Runs.follows {w w' : World ι} {x : ι} {row : Row}
    (hrunning : w.threadsOf x = [] ∨ Running w x) (hrename : ¬ Renames (w.mem x) row)
    (hflood : disables (w.mem x) row = true → (w.mem x).floodList = true)
    (hran : Ran w' x row.settings.connection (loadedThreads w x row)
      ((w.mem x).enabledChanged && row.enabled)) (h : Runs w' x row) : Follows w x row := by
  unfold Ran loadedThreads at hran
  unfold Runs at h
  constructor
  · exact not_renames_iff.mp hrename
  · intro hrow hidle
    rw [hrow, Bool.and_true] at hran
    cases hchanged : (w.mem x).enabledChanged with
    | true => rfl
    | false =>
        rw [if_pos hrow] at h
        obtain ⟨tx, irc, -, hthreads⟩ := h
        simp [hchanged, hidle, hthreads] at hran
  · intro hrow hne
    obtain ⟨c, tx, irc, hpair, hthreads, -⟩ := hrunning.resolve_left hne
    rw [if_pos hrow] at h
    obtain ⟨tx', irc', hpair', hthreads'⟩ := h
    rw [hrow, Bool.and_true] at hran
    cases hchanged : (w.mem x).enabledChanged with
    | true =>
        -- two more threads were started
        simp [hchanged, hthreads, hthreads'] at hran
    | false =>
        have heq : [tx', irc'] = [tx, irc] := by
          simpa [hchanged, hthreads, hthreads'] using hran
        refine ⟨rfl, fun t ht ↦ ?_⟩
        rw [hthreads, ← heq] at ht
        rcases List.mem_pair.mp ht with rfl | rfl
        · exact hpair'.txConnection
        · exact hpair'.ircConnection
  · intro hrow hne
    rw [hrow] at h hran
    cases hchanged : (w.mem x).enabledChanged with
    | true => rfl
    | false =>
        rw [hchanged] at hran
        have hsame : w'.threadsOf x = w.threadsOf x := hran
        exact absurd (hsame.symm.trans h) hne
  · intro hrow henabled
    refine hflood ?_
    rcases henabled with henabled | henabled <;> simp [disables, hrow, henabled]

/-- A reload makes the tree agree with the table exactly where every record with a row
follows it, and those without one have their lists. -/
theorem mainSighup_converges {malloc : List ι → ι} (hmalloc : ∀ l, malloc l ∉ l) {w : World ι}
    (hw : Prior w) {rows : List Row} (hrows : (rows.map Row.serverId).Nodup)
    (hasChannels : ℤ → Bool) {fuel : ℕ} (hfuel : w.tree.length + rows.length < fuel) :
    (∃ w', mainSighup malloc fuel w ⟨some rows, hasChannels⟩ = some w' ∧ Converged rows w') ↔
      (∀ x ∈ w.tree, ∀ row ∈ rows, (w.mem x).serverId = row.serverId → Follows w x row) ∧
        ∀ x ∈ w.tree, (∀ row ∈ rows, (w.mem x).serverId ≠ row.serverId) →
          (w.mem x).floodList = true := by
  have hs : Sane w := hw.toSane
  constructor
  · rintro ⟨w', hr, hc⟩
    refine ⟨fun x hx row hrow hid ↦ ?_, fun x hx hid ↦ (mainSighup_unlisted hmalloc hs hr hx hid).2⟩
    obtain ⟨y, hy, hcarries, hruns⟩ := hc.records row hrow
    rcases mainSighup_found hmalloc hs hrows hr hrow hx hid with
      ⟨-, hlost⟩ | ⟨hrename, hflood, hcarries', hran⟩
    · exact absurd hcarries.serverId (hlost y hcarries.tree)
    · obtain rfl := (mainSighup_sane hmalloc hs hr).ids x hcarries'.tree y hcarries.tree
        (hcarries'.serverId.trans hcarries.serverId.symm)
      exact hruns.follows (hw.running x hx) hrename hflood hran
  · rintro ⟨hfollows, hunlisted⟩
    have hnone : NoneRenamed w rows := fun x hx row hrow hid ↦
      not_renames_iff.mpr (hfollows x hx row hrow hid).names
    have hlive : ∀ t ∈ w.threads, t.record ∈ w.live := fun t ht ↦ hs.live _ (hw.threads t ht)
    obtain ⟨w', hr⟩ : ∃ w', mainSighup malloc fuel w ⟨some rows, hasChannels⟩ = some w' :=
      mainSighup_isSome hmalloc hs hrows hfuel hnone hlive (fun x hx row hrow hid hd ↦ by
        simp only [disables, Bool.and_eq_true, Bool.or_eq_true, Bool.not_eq_true'] at hd
        exact (hfollows x hx row hrow hid).floodList hd.2 hd.1) hunlisted
    have hs' := mainSighup_sane hmalloc hs hr
    have hrecord : ∀ row ∈ rows, ∃ x, Carries w' x row ∧ Runs w' x row := by
      intro row hrow
      by_cases hold : ∃ x ∈ w.tree, (w.mem x).serverId = row.serverId
      · obtain ⟨x, hx, hid⟩ := hold
        have hfollow := hfollows x hx row hrow hid
        rcases mainSighup_found hmalloc hs hrows hr hrow hx hid with
          ⟨hrename, -⟩ | ⟨-, -, hcarries, hran⟩
        · exact absurd hrename (hnone x hx row hrow hid)
        · exact ⟨x, hcarries, hfollow.runs (hw.running x hx) hran⟩
      · push Not at hold
        exact mainSighup_new hmalloc hs hrows hnone hlive hr hrow hold
    refine ⟨w', hr, ?_, fun row hrow ↦ ?_⟩
    · have hkeys : (w'.tree.map fun x ↦ (w'.mem x).serverId).Nodup :=
        List.Nodup.map_on hs'.ids hs'.nodup
      refine (List.perm_ext_iff_of_nodup hkeys hrows).mpr fun serverId ↦ ?_
      simp only [List.mem_map]
      constructor
      · rintro ⟨x, hx, rfl⟩
        obtain ⟨row, hrow, hid⟩ := mainSighup_listed hmalloc hs hr hx
        exact ⟨row, hrow, hid.symm⟩
      · rintro ⟨row, hrow, rfl⟩
        obtain ⟨x, hcarries, -⟩ := hrecord row hrow
        exact ⟨x, hcarries.tree, hcarries.serverId⟩
    · obtain ⟨x, hcarries, hruns⟩ := hrecord row hrow
      exact ⟨x, hcarries.serverId ▸ hs'.findServer_eq hcarries.tree, hcarries, hruns⟩

/-! A bot with one server that runs. -/

def fresh (live : List ℕ) : ℕ := live.foldr max 0 + 1

theorem fresh_not_mem (live : List ℕ) : fresh live ∉ live := by
  have hmax : ∀ x ∈ live, x ≤ live.foldr max 0 := by
    intro x hx
    induction live with
    | nil => cases hx
    | cons y live ih =>
        rw [List.foldr_cons]
        rcases List.mem_cons.mp hx with rfl | hx
        · exact Nat.le_max_left ..
        · exact Nat.le_trans (ih hx) (Nat.le_max_right ..)
  exact fun h ↦ Nat.not_succ_le_self _ (hmax _ h)

def rowOf (serverId : ℤ) (nick : CString) (enabled : Bool) : Row :=
  { server := ['h'], port := 6667, password := [], nick, username := nick, realname := nick
    nickserv := [], nickservmsg := [], floodInterval := 2, floodMaxTime := 8, floodBuffer := 2000
    floodMaxLine := 512, serverId, enabled }

def annConnection : Connection := (rowOf 1 ['a'] true).settings.connection

def annThreads : List (Thread ℕ) :=
  [⟨0, .transmit, 1, annConnection⟩, ⟨1, .server, 1, annConnection⟩]

def annServer : IRCServer ℕ :=
  { IRCServer.cleared ℕ with
    toSettings := (rowOf 1 ['a'] true).settings
    serverId := 1
    floodList := true
    txQueue := true
    txThreadId := some ⟨0, .transmit, 1, annConnection⟩
    txThreadName := some (txThreadName annConnection)
    threadId := some ⟨1, .server, 1, annConnection⟩
    threadName := some (threadName annConnection)
    enabled := true
    oldEnabled := true
    visited := true }

def annRuns : World ℕ :=
  { tree := [1], mem := fun _ ↦ annServer, live := [1], threads := annThreads, serial := 2
    destroyed := [] }

theorem annRuns_prior : Prior annRuns := by
  refine ⟨⟨by simp [annRuns], by simp [annRuns], ?_, by simp [annRuns]⟩, by decide, ?_⟩
  · intro x hx t ht
    obtain rfl := List.mem_singleton.mp hx
    rcases ht with ht | ht <;> cases ht <;> rfl
  · intro x hx
    obtain rfl := List.mem_singleton.mp hx
    exact .inr ⟨annConnection, _, _, ⟨rfl, rfl, rfl, rfl⟩, rfl, rfl, rfl⟩

/-- A reload that leaves the server as it is and adds another one. -/
theorem mainSighup_converges_new :
    ∃ w', mainSighup fresh 4 annRuns ⟨some [rowOf 1 ['a'] true, rowOf 2 ['b'] true], fun _ ↦ true⟩ =
        some w' ∧ Converged [rowOf 1 ['a'] true, rowOf 2 ['b'] true] w' := by
  refine (mainSighup_converges fresh_not_mem annRuns_prior (by decide) _ (by decide)).mpr ⟨?_, ?_⟩
  · intro x hx row hrow hid
    obtain rfl := List.mem_singleton.mp hx
    rcases List.mem_pair.mp hrow with rfl | rfl
    · refine ⟨⟨?_, ?_⟩, ?_, fun _ _ ↦ ⟨rfl, by decide⟩, ?_, ?_⟩
      · rintro name ⟨⟩
        rfl
      · rintro name ⟨⟩
        rfl
      · intro _ h
        cases h
      · intro h
        cases h
      · intro h
        cases h
    · cases hid
  · intro x hx h
    obtain rfl := List.mem_singleton.mp hx
    exact absurd rfl (h (rowOf 1 ['a'] true) (by simp))

/-- A server whose nick changed in the database is killed and freed, and then its
record is filled in. -/
theorem not_mainSighup_converges :
    Prior annRuns ∧ ([rowOf 1 ['b'] true].map Row.serverId).Nodup ∧
      ¬ ∃ fuel w', mainSighup fresh fuel annRuns ⟨some [rowOf 1 ['b'] true], fun _ ↦ true⟩ =
          some w' ∧ Converged [rowOf 1 ['b'] true] w' := by
  refine ⟨annRuns_prior, by decide, ?_⟩
  rintro ⟨fuel, w', hr, hc⟩
  have hrow : rowOf 1 ['b'] true ∈ [rowOf 1 ['b'] true] := by simp
  have hx : 1 ∈ annRuns.tree := by simp [annRuns]
  obtain ⟨x, -, hcarries, -⟩ := hc.records _ hrow
  rcases mainSighup_found fresh_not_mem annRuns_prior.toSane (by decide) hr hrow hx rfl with
    ⟨-, hlost⟩ | ⟨hrename, -⟩
  · exact hlost x hcarries.tree hcarries.serverId
  · exact hrename (by decide)

end Beirdobot.Servers
