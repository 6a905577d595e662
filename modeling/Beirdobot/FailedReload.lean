import Beirdobot.Channels.Reload
import Beirdobot.Plugins.Runs
import Beirdobot.Servers.Reload

/-!
# Reloads whose query fails

`db_query` has no result for a query that the database refuses, and `mysql_thread`
skips the callback, which is the only place that marks what it finds as visited.  What
a reload removes afterwards is everything that it did not mark.
-/

namespace Beirdobot.FailedReload

/-- The branch of `mysql_thread` that calls the callback of a query. -/
def callBack {ρ σ : Type} (queryCallback : Option ρ → σ → Option σ) (res : Option ρ)
    (insertid : ℤ) (s : σ) : Option σ :=
  if res.isSome ∨ insertid ≠ 0 then queryCallback res s else some s

/-- A callback that does nothing without a result can as well be called without one. -/
theorem callBack_eq {ρ σ : Type} {queryCallback : Option ρ → σ → Option σ}
    (h : ∀ s, queryCallback none s = some s) (res : Option ρ) (insertid : ℤ) (s : σ) :
    callBack queryCallback res insertid s = queryCallback res s := by
  unfold callBack
  split
  · rfl
  · rename_i hno
    cases res with
    | none => exact (h s).symm
    | some rows => exact absurd (.inl rfl) hno

section Callbacks

variable {ι : Type} [DecidableEq ι] (malloc : List ι → ι)

theorem callBack_resultGetPlugins (fuel : ℕ) (res : Option (List Plugins.Row)) (insertid : ℤ)
    (w : Plugins.World ι) :
    callBack (fun res w ↦ Plugins.resultGetPlugins malloc fuel w res) res insertid w =
      Plugins.resultGetPlugins malloc fuel w res :=
  callBack_eq (fun _ ↦ rfl) res insertid w

theorem callBack_resultLoadServers (res : Option (List Servers.Row)) (insertid : ℤ)
    (w : Servers.World ι) :
    callBack (fun res w ↦ Servers.resultLoadServers malloc w res) res insertid w =
      Servers.resultLoadServers malloc w res :=
  callBack_eq (fun _ ↦ rfl) res insertid w

theorem callBack_resultLoadChannels (compiles : CString → Bool)
    (res : Option (List Channels.Row)) (insertid : ℤ) (v : Channels.View ι) :
    callBack (fun res v ↦ Channels.resultLoadChannels malloc compiles v res) res insertid v =
      Channels.resultLoadChannels malloc compiles v res :=
  callBack_eq (fun _ ↦ rfl) res insertid v

end Callbacks

/-! ## Plugins -/

section Plugins

open Plugins

variable {ι : Type} [DecidableEq ι] {malloc : List ι → ι} {w : World ι} {t : BinaryTree ι}
  {fuel : ℕ}

/-- A call leaves every plugin in the tree, loaded or not as it was. -/
def PluginsKept (w : World ι) (r : Option (World ι)) : Prop :=
  ∃ w', r = some w' ∧ ∀ x, InTree w x → InTree w' x ∧ (w'.mem x).loaded = (w.mem x).loaded

/-- A reload without a result empties the tree, and shuts down what was loaded. -/
theorem pluginsSighup_none (hmalloc : ∀ l, malloc l ∉ l) (h : Settled w t) (linker : Linker ι)
    (hf : t.numNodes + 1 ≤ fuel) :
    ∃ w', pluginsSighup malloc fuel w none linker = some w' ∧ (∀ x, ¬ InTree w' x) ∧
      ∀ x ∈ t.inorder, (w'.mem x).calls =
        if (w.mem x).loaded then .shutdown :: (w.mem x).calls else (w.mem x).calls := by
  have hrows : (([] : List Row).map Row.key).Nodup := List.nodup_nil
  obtain ⟨w', t', he, hr, hs⟩ := pluginsSighup_reloaded hmalloc h hrows hf linker
  refine ⟨w', he, fun x hx ↦ ?_, fun x hx ↦ (hr.gone x hx nofun).2⟩
  obtain ⟨row, hrow, -⟩ := hr.entry x (hs.inTree.mp hx)
  cases hrow

theorem pluginsKept_iff (hmalloc : ∀ l, malloc l ∉ l) (h : (system malloc).Reachable w)
    (linker : Linker ι) (hf : w.live.length + 1 ≤ fuel) :
    PluginsKept w (pluginsSighup malloc fuel w none linker) ↔ ∀ x, ¬ InTree w x := by
  obtain ⟨t, ht⟩ := reachable_settled hmalloc h
  have hsize := ht.numNodes_le
  obtain ⟨w', he, hempty, -⟩ := pluginsSighup_none hmalloc ht linker (by omega : _ ≤ fuel)
  constructor
  · rintro ⟨w'', he', hkept⟩ x hx
    cases he.symm.trans he'
    exact hempty x (hkept x hx).1
  · intro hnone
    exact ⟨w', he, fun x hx ↦ absurd hx (hnone x)⟩

end Plugins

/-! ## Servers -/

section Servers

open Servers

variable {ι : Type} [DecidableEq ι] {w w' : World ι} {x : ι}

/-- A call leaves every server in the tree, and the threads that run. -/
def ServersKept (w : World ι) (r : Option (World ι)) : Prop :=
  ∃ w', r = some w' ∧ w'.tree = w.tree ∧ w'.threads = w.threads

theorem threadDeregister_rest {thread : Option (Thread ι)}
    (h : threadDeregister w thread = some w') : w'.tree = w.tree ∧ w'.mem = w.mem := by
  unfold threadDeregister at h
  split at h
  · cases h
    exact ⟨rfl, rfl⟩
  · split at h
    · split at h
      · cases h
        exact ⟨rfl, rfl⟩
      · cases h
    · cases h
      exact ⟨rfl, rfl⟩

/-- What is not changed by `serverKill`. -/
def Alike (w w' : World ι) : Prop :=
  w'.tree = w.tree ∧ ∀ y, (w'.mem y).visited = (w.mem y).visited

omit [DecidableEq ι] in
theorem Alike.trans {w'' : World ι} (h : Alike w w') (h' : Alike w' w'') : Alike w w'' :=
  ⟨h'.1.trans h.1, fun y ↦ (h'.2 y).trans (h.2 y)⟩

theorem alike_modify (w : World ι) (x : ι) {f : IRCServer ι → IRCServer ι}
    (hf : ∀ s, (f s).visited = s.visited) : Alike w (w.modify x f) := by
  refine ⟨rfl, fun y ↦ ?_⟩
  show (Function.update w.mem x (f (w.mem x)) y).visited = _
  by_cases hyx : y = x
  · rw [hyx, Function.update_self, hf]
  · rw [Function.update_of_ne hyx]

theorem alike_threadDeregister {thread : Option (Thread ι)}
    (h : threadDeregister w thread = some w') : Alike w w' := by
  obtain ⟨htree, hmem⟩ := threadDeregister_rest h
  exact ⟨htree, fun y ↦ by rw [hmem]⟩

theorem alike_emptied (w : World ι) (x : ι) :
    Alike w (((w.modify x fun server ↦ { server with txQueue := false }).modify x
      fun server ↦ { server with channels := false }).modify x
      fun server ↦ { server with floodList := false }) :=
  (alike_modify w x (f := fun server ↦ { server with txQueue := false }) fun _ ↦ rfl).trans
    ((alike_modify _ x (f := fun server ↦ { server with channels := false }) fun _ ↦ rfl).trans
      (alike_modify _ x (f := fun server ↦ { server with floodList := false }) fun _ ↦ rfl))

/-- A server that is killed leaves the tree, and the marks of the others stay. -/
theorem serverKill_rest (h : serverKill w x true = some w') :
    w'.tree = w.tree.erase x ∧ ∀ y, (w'.mem y).visited = (w.mem y).visited := by
  have hend : ∀ w₁, Alike w w₁ → ∀ w₂, Alike { w₁ with tree := w₁.tree.erase x } w₂ →
      w₂.tree = w.tree.erase x ∧ ∀ y, (w₂.mem y).visited = (w.mem y).visited :=
    fun w₁ h₁ w₂ h₂ ↦ ⟨h₂.1.trans (congrArg (·.erase x) h₁.1), fun y ↦ (h₂.2 y).trans (h₁.2 y)⟩
  unfold serverKill at h
  dsimp only at h
  split at h
  · obtain ⟨w₂, h₂, h⟩ := Option.bind_eq_some_iff.mp h
    obtain ⟨w₃, h₃, h⟩ := Option.bind_eq_some_iff.mp h
    let w₄ := w₃.modify x fun server ↦ { server with threadAbort := false }
    have halike : Alike w w₄ := (alike_modify w x
      (f := fun server ↦ { server with threadAbort := true }) fun _ ↦ rfl).trans
        ((alike_threadDeregister h₂).trans ((alike_threadDeregister h₃).trans
          (alike_modify w₃ x (f := fun server ↦ { server with threadAbort := false })
            fun _ ↦ rfl)))
    simp only [if_true, Option.bind_eq_bind, Option.bind_some] at h
    split at h
    · cases h
      exact hend w₄ halike _ ⟨rfl, (alike_emptied { w₄ with tree := w₄.tree.erase x } x).2⟩
    · cases h
  · simp only [if_true, Option.bind_eq_bind, Option.bind_some] at h
    split at h
    · cases h
      exact hend w ⟨rfl, fun _ ↦ rfl⟩ _
        ⟨rfl, (alike_emptied { w with tree := w.tree.erase x } x).2⟩
    · cases h

/-- The loop of `mainSighup` kills every server if none is visited. -/
theorem flushLoop_unvisited {fuel : ℕ} (hv : ∀ y ∈ w.tree, (w.mem y).visited = false)
    (h : flushLoop fuel w = some w') : w'.tree = [] := by
  induction fuel generalizing w with
  | zero => cases h
  | succ fuel ih =>
      obtain ⟨⟨w₁, again⟩, h₁, h⟩ := Option.bind_eq_some_iff.mp h
      cases htree : w.tree with
      | nil =>
          rw [htree] at h₁
          cases h₁
          cases h
          exact htree
      | cons x nodes =>
          rw [htree, serverFlushUnvisited, if_pos (by simp [hv x (by simp [htree])])] at h₁
          obtain ⟨w₂, hkill, h₁⟩ := Option.bind_eq_some_iff.mp h₁
          cases h₁
          obtain ⟨htree₂, hmem₂⟩ := serverKill_rest hkill
          refine ih (fun y hy ↦ ?_) h
          rw [hmem₂ y]
          exact hv y (List.mem_of_mem_erase (htree₂ ▸ hy))

theorem mainSighup_none {malloc : List ι → ι} {fuel : ℕ} {hasChannels : ℤ → Bool}
    (h : mainSighup malloc fuel w ⟨none, hasChannels⟩ = some w') : w'.tree = [] := by
  refine flushLoop_unvisited (fun y hy ↦ ?_) h
  obtain ⟨htree, -⟩ := serverUnvisit_rest w w.tree
  rw [(dbLoadChannels_rest ..).1, htree] at hy
  obtain ⟨channels, hmem⟩ := dbLoadChannels_mem hasChannels (serverUnvisit w w.tree)
    (serverUnvisit w w.tree).tree y
  rw [hmem, serverUnvisit_mem, if_pos hy]

theorem serversKept_iff (malloc : List ι → ι) (w : World ι) (hasChannels : ℤ → Bool) {fuel : ℕ}
    (hf : w.tree.length < fuel) :
    ServersKept w (mainSighup malloc fuel w ⟨none, hasChannels⟩) ↔ w.tree = [] := by
  constructor
  · rintro ⟨w', he, htree, -⟩
    rw [← htree]
    exact mainSighup_none he
  · intro htree
    obtain ⟨fuel, rfl⟩ := Nat.exists_eq_succ_of_ne_zero (Nat.ne_zero_of_lt hf)
    refine ⟨w, ?_, rfl, rfl⟩
    simp only [mainSighup, htree, serverUnvisit, resultLoadServers, dbLoadChannels, flushLoop,
      serverFlushUnvisited, Option.bind_eq_bind, Option.bind_some, Bool.false_eq_true, if_false]

end Servers

/-! ## Channels -/

section Channels

open Channels

variable {ι : Type} [DecidableEq ι] {v v' : View ι} {x : ι}

/-- What a reload does to the channels of a server: `serverUnvisit`, the result of
`db_load_channels`, and `botSighup` on the thread of the server. -/
def reloadChannels (malloc : List ι → ι) (compiles : CString → Bool) (v : View ι)
    (res : Option (List Row)) : Option (View ι) := do
  let v ← resultLoadChannels malloc compiles (unvisit v) res
  botSighup v

/-- A call leaves every channel of the server on its list. -/
def ChannelsKept (v : View ι) (r : Option (View ι)) : Prop :=
  ∃ v', r = some v' ∧ ∀ x ∈ v.channels, x ∈ v'.channels

/-- Nobody holds the locks of the trees. -/
def Unlocked (v : View ι) : Prop :=
  ∀ lists, v.lists = some lists →
    lists.channelName.mutex = false ∧ lists.channelNum.mutex = false

omit [DecidableEq ι] in
theorem onLists_rest {f : Channels.Lists ι → Option (Channels.Lists ι)} (h : v.onLists f = some v')
    (hf : ∀ ls ls', f ls = some ls' → ls'.channels = ls.channels) :
    v'.channels = v.channels ∧ v'.mem = v.mem := by
  obtain ⟨ls, hls, h⟩ := Option.bind_eq_some_iff.mp h
  obtain ⟨ls', hls', h⟩ := Option.bind_eq_some_iff.mp h
  cases h
  refine ⟨?_, rfl⟩
  simp only [Server.channels, hls]
  exact hf ls ls' hls'

omit [DecidableEq ι] in
theorem lock_rest (h : v.lock = some v') : v'.channels = v.channels ∧ v'.mem = v.mem := by
  refine onLists_rest h fun ls ls' he ↦ ?_
  obtain ⟨name, -, he⟩ := Option.bind_eq_some_iff.mp he
  obtain ⟨num, -, he⟩ := Option.bind_eq_some_iff.mp he
  cases he
  rfl

omit [DecidableEq ι] in
theorem unlock_rest (h : v.unlock = some v') : v'.channels = v.channels ∧ v'.mem = v.mem := by
  refine onLists_rest h fun ls ls' he ↦ ?_
  cases he
  rfl

theorem removeFoundName_rest (h : v.removeFoundName x = some v') :
    v'.channels = v.channels ∧ v'.mem = v.mem := by
  obtain ⟨ls, -, h⟩ := Option.bind_eq_some_iff.mp h
  obtain ⟨⟨tree, item⟩, -, h⟩ := Option.bind_eq_some_iff.mp h
  cases item with
  | none =>
      cases h
      exact ⟨rfl, rfl⟩
  | some y =>
      refine onLists_rest h fun ls ls' he ↦ ?_
      obtain ⟨name, -, he⟩ := Option.bind_eq_some_iff.mp he
      cases he
      rfl

theorem removeFoundNum_rest (h : v.removeFoundNum x = some v') :
    v'.channels = v.channels ∧ v'.mem = v.mem := by
  obtain ⟨ls, -, h⟩ := Option.bind_eq_some_iff.mp h
  obtain ⟨⟨tree, item⟩, -, h⟩ := Option.bind_eq_some_iff.mp h
  cases item with
  | none =>
      cases h
      exact ⟨rfl, rfl⟩
  | some y =>
      refine onLists_rest h fun ls ls' he ↦ ?_
      obtain ⟨num, -, he⟩ := Option.bind_eq_some_iff.mp he
      cases he
      rfl

theorem dropChannel_rest (h : dropChannel v x = some v') :
    v'.channels = v.channels.erase x ∧ v'.mem = v.mem := by
  obtain ⟨v₁, h₁, h⟩ := Option.bind_eq_some_iff.mp h
  obtain ⟨v₂, h₂, h⟩ := Option.bind_eq_some_iff.mp h
  obtain ⟨v₃, h₃, h⟩ := Option.bind_eq_some_iff.mp h
  cases h
  obtain ⟨ls, hls, h₁⟩ := Option.bind_eq_some_iff.mp h₁
  cases h₁
  obtain ⟨hc₂, hm₂⟩ := removeFoundName_rest h₂
  obtain ⟨hc₃, hm₃⟩ := removeFoundNum_rest h₃
  have hchannels : v.channels = ls.channels := by
    have hls' : v.lists = some ls := hls
    simp only [Server.channels, hls']
  rw [hchannels]
  exact ⟨hc₃.trans hc₂, hm₃.trans hm₂⟩

/-- `botSighup` leaves all channels if none is visited. -/
theorem sighupLoop_unvisited {newChannel : Bool} {xs : List ι} (hxs : v.channels = xs)
    (hv : ∀ x ∈ xs, (v.mem x).visited = false) (h : sighupLoop v newChannel xs = some v') :
    v'.channels = [] := by
  induction xs generalizing v with
  | nil =>
      cases h
      exact hxs
  | cons x xs ih =>
      rw [sighupLoop, if_pos (hv x List.mem_cons_self)] at h
      obtain ⟨v₁, h₁, h⟩ := Option.bind_eq_some_iff.mp h
      obtain ⟨hchannels, hmem⟩ := dropChannel_rest h₁
      have hleave : ∀ y, ((channelLeave v x (v.mem x).channel).mem y).visited =
          (v.mem y).visited := by
        intro y
        show (Function.update v.mem x { v.mem x with joined := false } y).visited = _
        by_cases hyx : y = x
        · rw [hyx, Function.update_self]
        · rw [Function.update_of_ne hyx]
      refine ih ?_ (fun y hy ↦ ?_) h
      · rw [hchannels]
        show v.channels.erase x = xs
        rw [hxs, List.erase_cons_head]
      · rw [hmem, hleave]
        exact hv y (List.mem_cons_of_mem x hy)

omit [DecidableEq ι] in
theorem Unlocked.lock (h : Unlocked v) {ls : Channels.Lists ι} (hls : v.lists = some ls) :
    ∃ v₁, v.lock = some v₁ ∧ ∃ v₂, v₁.unlock = some v₂ := by
  obtain ⟨hname, hnum⟩ := h ls hls
  refine ⟨{ v with lists := some { ls with
    channelName := { ls.channelName with mutex := true }
    channelNum := { ls.channelNum with mutex := true } } }, ?_, ?_⟩
  · simp [View.lock, View.onLists, hls, BTree.balancedBTreeLock, nameTree, numTree, hname, hnum,
      Items.ofTree]
  · simp [View.unlock, View.onLists]

theorem channelsKept_iff (malloc : List ι → ι) (compiles : CString → Bool) {v : View ι}
    (h : Unlocked v) :
    ChannelsKept v (reloadChannels malloc compiles v none) ↔ v.channels = [] := by
  have hsighup : reloadChannels malloc compiles v none = botSighup (unvisit v) := rfl
  constructor
  · rintro ⟨v', he, hkept⟩
    cases hls : v.lists with
    | none => simp only [Server.channels, hls]
    | some ls =>
        have hls' : (unvisit v).lists = some ls := hls
        have hchannels : (unvisit v).channels = ls.channels := by
          simp only [Server.channels, hls']
        rw [hsighup, botSighup, hls'] at he
        obtain ⟨v₁, h₁, he⟩ := Option.bind_eq_some_iff.mp he
        obtain ⟨v₂, h₂, he⟩ := Option.bind_eq_some_iff.mp he
        obtain ⟨hc₁, hm₁⟩ := lock_rest h₁
        have hempty : v₂.channels = [] := by
          refine sighupLoop_unvisited (hc₁.trans hchannels) (fun x hx ↦ ?_) h₂
          have hx' : x ∈ v.channels := by simpa only [Server.channels, hls] using hx
          rw [hm₁]
          show (if x ∈ v.channels then { v.mem x with visited := false } else v.mem x).visited =
            false
          rw [if_pos hx']
        rw [List.eq_nil_iff_forall_not_mem]
        intro x hx
        have hx' := hkept x hx
        rw [(unlock_rest he).1, hempty] at hx'
        cases hx'
  · intro hnone
    rw [hsighup]
    cases hls : v.lists with
    | none =>
        have hls' : (unvisit v).lists = none := hls
        exact ⟨unvisit v, by rw [botSighup, hls'], fun x hx ↦ by rw [hnone] at hx; cases hx⟩
    | some ls =>
        have hls' : (unvisit v).lists = some ls := hls
        have hempty : ls.channels = [] := by simpa only [Server.channels, hls] using hnone
        have hunlocked : Unlocked (unvisit v) := fun lists hlists ↦ h lists hlists
        obtain ⟨v₁, he₁, v₂, he₂⟩ := hunlocked.lock hls'
        refine ⟨v₂, ?_, fun x hx ↦ by rw [hnone] at hx; cases hx⟩
        rw [botSighup, hls']
        simp only [he₁, hempty, sighupLoop, Option.bind_eq_bind, Option.bind_some, he₂]

end Channels

/-! ## All three -/

/-- A reload whose query fails keeps what is loaded exactly if nothing is: `pluginsSighup`
removes every plugin, `mainSighup` every server, and `botSighup` every channel after a
`mainSighup` that left them on their lists. -/
theorem failed_reload_kept {ι : Type} [DecidableEq ι] {malloc : List ι → ι}
    (hmalloc : ∀ l, malloc l ∉ l) (compiles : CString → Bool) :
    (∀ w : Plugins.World ι, (Plugins.system malloc).Reachable w →
      ∀ linker fuel, w.live.length + 1 ≤ fuel →
        (PluginsKept w (Plugins.pluginsSighup malloc fuel w none linker) ↔
          ∀ x, ¬ Plugins.InTree w x)) ∧
    (∀ (w : Servers.World ι) (hasChannels : ℤ → Bool) (fuel : ℕ), w.tree.length < fuel →
      (ServersKept w (Servers.mainSighup malloc fuel w ⟨none, hasChannels⟩) ↔ w.tree = [])) ∧
    ∀ v : Channels.View ι, Unlocked v →
      ChannelsKept v (Channels.resultLoadChannels malloc compiles (Channels.unvisit v) none) ∧
        (ChannelsKept v (reloadChannels malloc compiles v none) ↔ v.channels = []) := by
  refine ⟨?_, ?_, ?_⟩
  · intro w hw linker fuel hf
    exact pluginsKept_iff hmalloc hw linker hf
  · intro w hasChannels fuel hf
    exact serversKept_iff malloc w hasChannels hf
  · intro v hv
    exact ⟨⟨Channels.unvisit v, rfl, fun _ hx ↦ hx⟩, channelsKept_iff malloc compiles hv⟩

theorem failed_reload_kept_nothing :
    PluginsKept Plugins.noPlugins
        (Plugins.pluginsSighup firstFree 1 Plugins.noPlugins none Plugins.goodLinker) ∧
      ¬ ServersKept Servers.annRuns
        (Servers.mainSighup firstFree 2 Servers.annRuns ⟨none, fun _ ↦ true⟩) := by
  obtain ⟨hplugins, hservers, -⟩ := failed_reload_kept firstFree_not_mem fun _ ↦ true
  constructor
  · refine (hplugins Plugins.noPlugins (.init ⟨rfl, rfl⟩) Plugins.goodLinker 1 (by decide)).mpr ?_
    exact fun x hx ↦ nomatch Plugins.noPlugins_settled.inTree.mp hx
  · intro hkept
    exact nomatch (hservers Servers.annRuns (fun _ ↦ true) 2 (by decide)).mp hkept

/-- The two plugins of `twoRows`, and a server that runs, are gone after a reload that
fails. -/
theorem not_failed_reload_kept :
    (∃ w, (Plugins.system firstFree).Reachable w ∧
      ¬ PluginsKept w (Plugins.pluginsSighup firstFree 3 w none Plugins.goodLinker)) ∧
    ¬ ServersKept Servers.annRuns
      (Servers.mainSighup firstFree 2 Servers.annRuns ⟨none, fun _ ↦ true⟩) := by
  constructor
  · have hrun : ((Plugins.system firstFree).run Plugins.noPlugins
        [(3, .start (some Plugins.twoRows) Plugins.goodLinker)]).map (fun w ↦
          (w.pointers.root, w.pointers.left 1, w.pointers.right 1, w.pointers.parent 1,
            w.pointers.left 2, w.pointers.right 2, w.pointers.parent 2, w.live)) =
        some (some 1, some 2, none, none, none, none, some 1, [2, 1]) := by rfl
    obtain ⟨w, hw, hfields⟩ := Option.map_eq_some_iff.mp hrun
    simp only [Prod.mk.injEq] at hfields
    obtain ⟨hroot, hl₁, hr₁, hp₁, hl₂, hr₂, hp₂, hlive⟩ := hfields
    have htree : BTree.Holds w.pointers (.node 1 (.node 2 .nil .nil) .nil) :=
      ⟨hroot, ⟨hp₁, hl₁, hr₁, ⟨hp₂, hl₂, hr₂, trivial, trivial⟩, trivial⟩, by decide⟩
    have hreach := Library.System.reachable_of_run (M := Plugins.system firstFree) ⟨rfl, rfl⟩ hw
    refine ⟨w, hreach, fun hkept ↦ ?_⟩
    have hnone := (pluginsKept_iff firstFree_not_mem hreach Plugins.goodLinker
      (by rw [hlive]; decide)).mp hkept
    exact hnone 1 ⟨_, htree, by simp⟩
  · intro hkept
    exact nomatch (serversKept_iff firstFree Servers.annRuns (fun _ ↦ true) (by decide)).mp hkept

end Beirdobot.FailedReload
