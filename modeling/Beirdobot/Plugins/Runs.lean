import Beirdobot.Library.System
import Beirdobot.Plugins.Reload

/-!
# Runs of calls on the plugins

What holds of the flag, the handle and the calls of each plugin in every run of
loads, unloads, reloads and saves of the form.
-/

namespace Beirdobot.Plugins

open Library BinaryTree BTree

variable {ι : Type}

/-! ## One plugin -/

/-- The calls, the last one first, are `init` and `shutdown` in turn, and the next one
would be the one given. -/
inductive Alternates : List PluginCall → PluginCall → Prop
  | nil : Alternates [] .init
  | init {calls : List PluginCall} (h : Alternates calls .init) :
      Alternates (.init :: calls) .shutdown
  | shutdown {calls : List PluginCall} (h : Alternates calls .shutdown) :
      Alternates (.shutdown :: calls) .init

theorem Alternates.running {calls : List PluginCall} (h : Alternates calls .shutdown) :
    calls.head? = some .init := by
  cases h
  rfl

/-- What `loaded` promises of a plugin, and the order of its calls. -/
structure Obeys (plugin : Plugin) : Prop where
  handle : plugin.loaded = true → plugin.handle ≠ none
  running : plugin.loaded = true → plugin.calls.head? = some .init
  alternates : ∃ next, Alternates plugin.calls next

/-- The flag of a plugin goes with its handle, its functions and its calls. -/
structure Tracks (plugin : Plugin) : Prop where
  handle : plugin.loaded = true → plugin.handle ≠ none
  shutdown : plugin.loaded = true → plugin.shutdown.isSome
  calls : Alternates plugin.calls (if plugin.loaded then .shutdown else .init)

theorem Tracks.obeys {plugin : Plugin} (h : Tracks plugin) : Obeys plugin where
  handle := h.handle
  running hl := by
    have hcalls := h.calls
    rw [if_pos hl] at hcalls
    exact hcalls.running
  alternates := ⟨_, h.calls⟩

/-- Whether the linker finds the file and both functions. -/
def LoadOutcome.succeeds (o : LoadOutcome) : Bool :=
  o.handle.isSome && o.init.isSome && o.shutdown.isSome

/-- Loading calls `init` and sets the flag exactly if everything is found. -/
theorem loadItem_cases (plugin : Plugin) (o : LoadOutcome) :
    (o.succeeds = true ∧ loadItem plugin o = { plugin with
      handle := o.handle, init := o.init, shutdown := o.shutdown
      calls := .init :: plugin.calls, loaded := true }) ∨
    (o.succeeds = false ∧ ∃ handle init shutdown,
      loadItem plugin o = { plugin with handle, init, shutdown }) := by
  obtain ⟨handle, init, shutdown⟩ := o
  cases handle with
  | none => exact .inr ⟨rfl, _, _, _, rfl⟩
  | some handle =>
      cases init with
      | none => exact .inr ⟨rfl, _, _, _, rfl⟩
      | some init =>
          cases shutdown with
          | none => exact .inr ⟨rfl, _, _, _, rfl⟩
          | some shutdown => exact .inl ⟨rfl, rfl⟩

theorem pluginLoadItem_name (plugin : Plugin) (o : LoadOutcome) :
    (pluginLoadItem plugin o).name = plugin.name :=
  (loadItem_config _ o).1

theorem pluginLoadItem_newPlugin (plugin : Plugin) (o : LoadOutcome) :
    (pluginLoadItem plugin o).newPlugin = plugin.newPlugin := by
  obtain ⟨-, he⟩ | ⟨-, _, _, _, he⟩ := loadItem_cases { plugin with loads := plugin.loads + 1 } o
  · rw [pluginLoadItem, he]
  · rw [pluginLoadItem, he]

theorem pluginLoadItem_loaded {plugin : Plugin} (h : plugin.loaded = false) (o : LoadOutcome) :
    (pluginLoadItem plugin o).loaded = o.succeeds := by
  obtain ⟨hs, he⟩ | ⟨hs, _, _, _, he⟩ :=
    loadItem_cases { plugin with loads := plugin.loads + 1 } o
  · rw [pluginLoadItem, he, hs]
  · rw [pluginLoadItem, he, hs]
    exact h

theorem Tracks.load {plugin : Plugin} (h : Tracks plugin) (hl : plugin.loaded = false)
    (o : LoadOutcome) : Tracks (pluginLoadItem plugin o) := by
  have hcalls := h.calls
  rw [hl, if_neg (by decide)] at hcalls
  obtain ⟨hs, he⟩ | ⟨hs, handle, init, shutdown, he⟩ :=
    loadItem_cases { plugin with loads := plugin.loads + 1 } o
  · rw [pluginLoadItem, he]
    simp only [LoadOutcome.succeeds, Bool.and_eq_true] at hs
    exact ⟨fun _ ↦ Option.isSome_iff_ne_none.mp hs.1.1, fun _ ↦ hs.2, .init hcalls⟩
  · rw [pluginLoadItem, he]
    have hno : plugin.loaded ≠ true := by simp [hl]
    exact ⟨fun hl' ↦ absurd hl' hno, fun hl' ↦ absurd hl' hno, by simpa [hl] using hcalls⟩

theorem pluginUnloadItem_eq {plugin : Plugin} (h : plugin.shutdown.isSome) (dlerror : Bool) :
    pluginUnloadItem plugin dlerror = some { plugin with
      calls := .shutdown :: plugin.calls
      handle := none
      loaded := dlerror && plugin.loaded } := by
  obtain ⟨f, hf⟩ := Option.isSome_iff_exists.mp h
  cases dlerror <;> simp [pluginUnloadItem, hf]

/-- Unloading calls `shutdown` and drops the handle; the flag stays if there is an
error. -/
theorem Tracks.unload {plugin : Plugin} (h : Tracks plugin) (hl : plugin.loaded = true)
    (dlerror : Bool) : ∃ plugin', pluginUnloadItem plugin dlerror = some plugin' ∧
      plugin'.name = plugin.name ∧ plugin'.newPlugin = plugin.newPlugin ∧
      plugin'.handle = none ∧ plugin'.loaded = dlerror ∧ (dlerror = false → Tracks plugin') := by
  have hcalls := h.calls
  rw [if_pos hl] at hcalls
  refine ⟨_, pluginUnloadItem_eq (h.shutdown hl) dlerror, rfl, rfl, rfl, by simp [hl], ?_⟩
  rintro rfl
  exact ⟨nofun, nofun, .shutdown hcalls⟩

/-- A plugin while the rows are read: one that is new is not loaded yet. -/
structure Fresh (plugin : Plugin) : Prop extends Tracks plugin where
  new : plugin.newPlugin = true → plugin.loaded = false

theorem fresh_newPlugin (row : Row) : Fresh (fillIn newPlugin row) :=
  ⟨⟨nofun, nofun, .nil⟩, fun _ ↦ rfl⟩

theorem Fresh.fillIn {plugin : Plugin} (h : Fresh plugin) (row : Row) :
    Fresh (fillIn plugin row) :=
  ⟨⟨h.handle, h.shutdown, h.calls⟩, h.new⟩

theorem Tracks.unvisit {plugin : Plugin} (h : Tracks plugin) :
    Tracks { plugin with visited := false } :=
  ⟨h.handle, h.shutdown, h.calls⟩

theorem Tracks.fresh {plugin : Plugin} (h : Tracks plugin) (hold : plugin.newPlugin = false) :
    Fresh plugin :=
  ⟨h, fun hnew ↦ absurd (hold.symm.trans hnew) (by decide)⟩

theorem Fresh.initItem {plugin : Plugin} (h : Fresh plugin) (o : LoadOutcome) :
    Tracks (initializeItem plugin o) := by
  unfold initializeItem
  split
  · rename_i hnew
    split
    · have hload := h.toTracks.load (h.new hnew) o
      exact ⟨hload.handle, hload.shutdown, hload.calls⟩
    · exact ⟨h.handle, h.shutdown, h.calls⟩
  · exact h.toTracks

/-- Shutting down a plugin if it is loaded. -/
theorem Tracks.unloadLoaded {plugin : Plugin} (h : Tracks plugin) (dlerror : Bool) :
    ∃ plugin', unloadLoaded plugin dlerror = some plugin' ∧ plugin'.name = plugin.name ∧
      plugin'.newPlugin = plugin.newPlugin ∧
      (plugin.loaded = true → plugin'.handle = none ∧ plugin'.loaded = dlerror) ∧
      ((plugin.loaded = true → dlerror = false) → Tracks plugin') := by
  cases hl : plugin.loaded with
  | false =>
      exact ⟨plugin, by simp [Plugins.unloadLoaded, hl], rfl, rfl, nofun, fun _ ↦ h⟩
  | true =>
      obtain ⟨plugin', he, hname, hnew, hhandle, hloaded, htracks⟩ := h.unload hl dlerror
      exact ⟨plugin', by simp [Plugins.unloadLoaded, hl, he], hname, hnew,
        fun _ ↦ ⟨hhandle, hloaded⟩, fun hd ↦ htracks (hd rfl)⟩

/-! ## The tree between two calls -/

/-- What holds of every plugin between two calls, and what holds of it while the rows
are read. -/
structure Carried (between reading : Plugin → Prop) : Prop where
  new : ∀ row, reading (fillIn newPlugin row)
  fillIn : ∀ {plugin}, reading plugin → ∀ row, reading (fillIn plugin row)
  unvisit : ∀ {plugin}, between plugin → between { plugin with visited := false }
  read : ∀ {plugin}, between plugin → plugin.newPlugin = false → reading plugin
  initItem : ∀ {plugin}, reading plugin → ∀ o, between (initializeItem plugin o)
  unload : ∀ {plugin}, between plugin → ∀ dlerror, (unloadLoaded plugin dlerror).isSome

/-- A plugin that is loaded has its `shutdown`. -/
def Ends (plugin : Plugin) : Prop := plugin.loaded = true → plugin.shutdown.isSome

theorem unloadLoaded_isSome {plugin : Plugin} (h : Ends plugin) (dlerror : Bool) :
    (unloadLoaded plugin dlerror).isSome := by
  obtain ⟨plugin', he, -⟩ := unloadLoaded_eq h dlerror
  rw [he]
  rfl

theorem carried_tracks : Carried Tracks Fresh where
  new := fresh_newPlugin
  fillIn := Fresh.fillIn
  unvisit := Tracks.unvisit
  read := Tracks.fresh
  initItem := Fresh.initItem
  unload h := unloadLoaded_isSome h.shutdown

theorem Ends.load {plugin : Plugin} (hl : plugin.loaded = false) (o : LoadOutcome) :
    Ends (pluginLoadItem plugin o) := by
  have hl' : { plugin with loads := plugin.loads + 1 }.loaded = false := hl
  exact loadItem_loaded hl' o

theorem carried_ends : Carried Ends fun plugin ↦
    Ends plugin ∧ (plugin.newPlugin = true → plugin.loaded = false) where
  new row := ⟨nofun, fun _ ↦ rfl⟩
  fillIn h row := h
  unvisit h := h
  read h hold := ⟨h, fun hnew ↦ absurd (hold.symm.trans hnew) (by decide)⟩
  initItem {plugin} h o := by
    unfold initializeItem
    split
    · rename_i hnew
      split
      · exact Ends.load (h.2 hnew) o
      · exact h.1
    · exact h.1
  unload := unloadLoaded_isSome

/-- The tree is in order, the mutex is free, no plugin is new, and every plugin is as it
is between two calls. -/
structure Rests (between : Plugin → Prop) (w : World ι) (t : BinaryTree ι) : Prop
    extends Shape w t where
  mutex : w.mutex = false
  between : ∀ x ∈ t.inorder, between (w.mem x)
  old : ∀ x ∈ t.inorder, (w.mem x).newPlugin = false

theorem settled_iff {w : World ι} {t : BinaryTree ι} : Settled w t ↔ Rests Ends w t :=
  ⟨fun h ↦ ⟨h.toShape, h.mutex, h.shutdown, h.old⟩, fun h ↦ ⟨h.toShape, h.mutex, h.old, h.between⟩⟩

/-- The tree is in order, the mutex is free, and every plugin is as it should be. -/
structure Sound (w : World ι) (t : BinaryTree ι) : Prop extends Shape w t where
  mutex : w.mutex = false
  tracks : ∀ x ∈ t.inorder, Tracks (w.mem x)
  old : ∀ x ∈ t.inorder, (w.mem x).newPlugin = false

theorem sound_iff {w : World ι} {t : BinaryTree ι} : Sound w t ↔ Rests Tracks w t :=
  ⟨fun h ↦ ⟨h.toShape, h.mutex, h.tracks, h.old⟩, fun h ↦ ⟨h.toShape, h.mutex, h.between, h.old⟩⟩

theorem Sound.settled {w : World ι} {t : BinaryTree ι} (h : Sound w t) : Settled w t :=
  ⟨h.toShape, h.mutex, h.old, fun x hx ↦ (h.tracks x hx).shutdown⟩

/-- The number of rows in a result. -/
def rowCount : Option (List Row) → ℕ
  | none => 0
  | some rows => rows.length

section Reload

variable [DecidableEq ι] {malloc : List ι → ι} (hmalloc : ∀ l, malloc l ∉ l)
  {between reading : Plugin → Prop} (hc : Carried between reading) {w : World ι}
  {t : BinaryTree ι} {fuel : ℕ}

include hmalloc hc

theorem getPlugin_carried (h : Shape w t) (hw : ∀ x ∈ t.inorder, reading (w.mem x)) (row : Row)
    (hf : t.numNodes + 2 ≤ fuel) :
    ∃ w' t', getPlugin malloc fuel w row = some w' ∧ Shape w' t' ∧
      (∀ x ∈ t'.inorder, reading (w'.mem x)) ∧ w'.mutex = w.mutex ∧
      t'.numNodes ≤ t.numNodes + 1 := by
  obtain ⟨w', t', he, hgot⟩ := getPlugin_gotten hmalloc h row hf
  refine ⟨w', t', he, hgot.shape, fun x hx ↦ ?_, hgot.mutex, hgot.size⟩
  by_cases hxt : x ∈ t.inorder
  · by_cases hkey : row.key = w.key x
    · rw [hgot.found x hxt row List.mem_cons_self hkey]
      exact hc.fillIn (hw x hxt) row
    · rw [hgot.absent x hxt fun row' hrow' ↦ by rwa [List.mem_singleton.mp hrow']]
      exact hw x hxt
  · obtain ⟨row', -, hnew⟩ := hgot.new x hx hxt
    rw [hnew]
    exact hc.new row'

theorem rows_carried {rows : List Row} (h : Shape w t)
    (hw : ∀ x ∈ t.inorder, reading (w.mem x)) (hf : t.numNodes + rows.length + 1 ≤ fuel) :
    ∃ w' t', rows.foldlM (getPlugin malloc fuel) w = some w' ∧ Shape w' t' ∧
      (∀ x ∈ t'.inorder, reading (w'.mem x)) ∧ w'.mutex = w.mutex ∧
      t'.numNodes ≤ t.numNodes + rows.length := by
  induction rows generalizing w t with
  | nil => exact ⟨w, t, rfl, h, hw, rfl, Nat.le_refl _⟩
  | cons row rows ih =>
      simp only [List.length_cons] at hf ⊢
      obtain ⟨w₁, t₁, he₁, h₁, hw₁, hm₁, hsize₁⟩ :=
        getPlugin_carried hmalloc hc h hw row (by omega : _ ≤ fuel)
      obtain ⟨w', t', he, h', hw', hm, hsize⟩ := ih h₁ hw₁ (by omega)
      refine ⟨w', t', ?_, h', hw', hm.trans hm₁, by omega⟩
      rw [List.foldlM_cons, he₁]
      exact he

/-- Whatever the result, the tree stays in order. -/
theorem resultGetPlugins_carried (res : Option (List Row)) (h : Shape w t)
    (hw : ∀ x ∈ t.inorder, reading (w.mem x)) (hf : t.numNodes + rowCount res + 1 ≤ fuel) :
    ∃ w' t', resultGetPlugins malloc fuel w res = some w' ∧ Shape w' t' ∧
      (∀ x ∈ t'.inorder, reading (w'.mem x)) ∧ w'.mutex = w.mutex ∧
      t'.numNodes ≤ t.numNodes + rowCount res := by
  match res with
  | none => exact ⟨w, t, rfl, h, hw, rfl, Nat.le_refl _⟩
  | some [] => exact ⟨w, t, rfl, h, hw, rfl, Nat.le_refl _⟩
  | some (row :: rows) =>
      obtain ⟨w₁, t₁, he₁, h₁, hw₁, hm₁, hsize₁⟩ := rows_carried hmalloc hc h hw hf
      have hsize : t₁.numNodes + 1 ≤ fuel := Nat.le_trans (Nat.succ_le_succ hsize₁) hf
      obtain ⟨p, t', he, h', hin, -⟩ := rebalanceTree_eq h₁ hsize
      refine ⟨_, t', ?_, h', fun x hx ↦ hw₁ x (hin ▸ hx), hm₁, ?_⟩
      · exact Option.bind_eq_some_iff.mpr ⟨w₁, he₁, he⟩
      · rw [← length_inorder t', hin, length_inorder]
        exact hsize₁

omit hmalloc in
/-- Initializing leaves no plugin new. -/
theorem initialize_rests (h : Shape w t) (hw : ∀ x ∈ t.inorder, reading (w.mem x))
    (loads : ι → LoadOutcome) (hf : t.numNodes ≤ fuel) :
    ∃ mem, pluginInitializeTree loads fuel w w.pointers.root = some { w with mem } ∧
      Rests between { w with mem, mutex := false } t := by
  obtain ⟨mem, he, h', hinit⟩ := h.initItems loads hf
  refine ⟨mem, he, h'.of_mem rfl rfl rfl fun _ _ ↦ rfl, rfl, fun x hx ↦ ?_, fun x hx ↦ ?_⟩
  · show between (mem x)
    rw [hinit x hx]
    exact hc.initItem (hw x hx) _
  · show (mem x).newPlugin = false
    rw [hinit x hx]
    exact initializeItem_newPlugin _ _

theorem pluginsInitialize_rests (h : Rests between w t) (res : Option (List Row))
    (linker : Linker ι) (hf : t.numNodes + rowCount res + 1 ≤ fuel) :
    ∃ w' t', pluginsInitialize malloc fuel w res linker = some w' ∧ Rests between w' t' := by
  have hlocked : Shape { w with mutex := true } t := h.of_mem rfl rfl rfl fun _ _ ↦ rfl
  obtain ⟨w₁, t', he₁, h₁, hw₁, -, hsize⟩ :=
    resultGetPlugins_carried hmalloc hc (w := { w with mutex := true }) res hlocked
      (fun x hx ↦ hc.read (h.between x hx) (h.old x hx)) hf
  obtain ⟨mem, he, h'⟩ := initialize_rests hc h₁ hw₁ linker.loads (by omega : _ ≤ fuel)
  refine ⟨_, t', ?_, h'⟩
  simp only [pluginsInitialize, lockTree_eq h.mutex, Option.bind_eq_bind, Option.bind_some, he₁, he]
  rfl

/-- Whatever the result of the query, a reload leaves an ordered tree of plugins that
are as they should be. -/
theorem pluginsSighup_rests (h : Rests between w t) (res : Option (List Row))
    (linker : Linker ι) (hf : t.numNodes + rowCount res + 1 ≤ fuel) :
    ∃ w' t', pluginsSighup malloc fuel w res linker = some w' ∧ Rests between w' t' := by
  have hlocked : Shape { w with mutex := true } t := h.of_mem rfl rfl rfl fun _ _ ↦ rfl
  obtain ⟨mem₁, he₁, h₁, hmem₁⟩ := hlocked.unvisit (by omega : t.numNodes ≤ fuel)
  have hreading₁ : ∀ x ∈ t.inorder, reading (mem₁ x) := by
    intro x hx
    rw [hmem₁ x hx]
    exact hc.read (hc.unvisit (h.between x hx)) (h.old x hx)
  obtain ⟨w₂, t₂, he₂, h₂, hw₂, -, hsize₂⟩ :=
    resultGetPlugins_carried hmalloc hc (w := { w with mutex := true, mem := mem₁ }) res h₁
      hreading₁ hf
  obtain ⟨mem₃, he₃, h₃⟩ := initialize_rests hc h₂ hw₂ linker.loads (by omega : _ ≤ fuel)
  have hshape₃ : Shape { w₂ with mem := mem₃ } t₂ := h₃.of_mem rfl rfl rfl fun _ _ ↦ rfl
  have hunload : ∀ x ∈ t₂.inorder, (mem₃ x).visited = false →
      (unloadLoaded (mem₃ x) (linker.errors x)).isSome :=
    fun x hx _ ↦ hc.unload (h₃.between x hx) _
  obtain ⟨w₄, t₄, he₄, h₄, hin₄, -, -, hkept₄⟩ :=
    flushLoop_eq hshape₃ hunload (by omega : t₂.numNodes < fuel) (by omega : t₂.numNodes ≤ fuel)
  have hsize₄ : t₄.numNodes ≤ t₂.numNodes := by
    rw [← length_inorder, ← length_inorder, hin₄]
    exact List.length_filter_le ..
  obtain ⟨p, t', he₅, h₅, hin₅, -⟩ := rebalanceTree_eq h₄ (by omega : _ ≤ fuel)
  have hleft : ∀ x ∈ t'.inorder, x ∈ t₂.inorder ∧ w₄.mem x = mem₃ x := by
    intro x hx
    rw [hin₅, hin₄, List.mem_filter] at hx
    exact ⟨hx.1, hkept₄ x fun _ ↦ hx.2⟩
  refine ⟨{ w₄ with pointers := p, mutex := false }, t', ?_,
    h₅.of_mem rfl rfl rfl fun _ _ ↦ rfl, rfl, fun x hx ↦ ?_, fun x hx ↦ ?_⟩
  · simp only [pluginsSighup, lockTree_eq h.mutex, Option.bind_eq_bind, Option.bind_some, he₁, he₂,
      he₃, he₄, he₅]
    rfl
  · obtain ⟨hx₂, hmem⟩ := hleft x hx
    show between (w₄.mem x)
    rw [hmem]
    exact h₃.between x hx₂
  · obtain ⟨hx₂, hmem⟩ := hleft x hx
    show (w₄.mem x).newPlugin = false
    rw [hmem]
    exact h₃.old x hx₂

end Reload

/-! ## Runs -/

/-- A call on the plugins.  The plugin of `save` and of `edit` is the one a form was
opened on, which need not be in the tree any more. -/
inductive Op (ι : Type)
  | start (res : Option (List Row)) (linker : Linker ι)
  | sighup (res : Option (List Row)) (linker : Linker ι)
  | load (name : Option CString) (o : LoadOutcome)
  | unload (name : Option CString) (dlerror : Bool)
  | edit (x : ι) (preload : Bool)
  | save (x : ι) (linker : Linker ι)
  | unloadAll (errors : ι → Bool)

/-- A plugin of the tree. -/
def InTree (w : World ι) (x : ι) : Prop := ∃ t, Holds w.pointers t ∧ x ∈ t.inorder

theorem Shape.inTree {w : World ι} {t : BinaryTree ι} (h : Shape w t) {x : ι} :
    InTree w x ↔ x ∈ t.inorder := by
  constructor
  · rintro ⟨t', ht', hx⟩
    rwa [h.holds.linked.unique ht'.linked (h.holds.root_eq.symm.trans ht'.root_eq)]
  · intro hx
    exact ⟨t, h.holds, hx⟩

/-- Every plugin of the tree is as `loaded` promises. -/
def AllObey (w : World ι) : Prop := ∀ x, InTree w x → Obeys (w.mem x)

theorem Sound.allObey {w : World ι} {t : BinaryTree ι} (h : Sound w t) : AllObey w :=
  fun x hx ↦ (h.tracks x (h.inTree.mp hx)).obeys

/-- What `true` from `pluginLoad` and `pluginUnload` says of the plugin with the name. -/
def Truthful (w : World ι) (r : Bool) : Op ι → Prop
  | .load (some name) _ =>
      r = true → ∃ x, InTree w x ∧ w.key x = caseless name ∧ (w.mem x).loaded = true
  | .unload (some name) _ =>
      r = true → ∃ x, InTree w x ∧ w.key x = caseless name ∧ (w.mem x).loaded = false
  | _ => True

/-- No call relies on the linker where it fails: a plugin that `pluginLoad` loads has
its file and both functions, and no error is pending after the `dlclose` of a plugin
that stays in the tree. -/
def NoLinkerError (w : World ι) : Op ι → Prop
  | .load (some name) o =>
      ∀ x, InTree w x → w.key x = caseless name → (w.mem x).loaded = false → o.succeeds = true
  | .unload (some name) dlerror =>
      ∀ x, InTree w x → w.key x = caseless name → (w.mem x).loaded = true → dlerror = false
  | .save x linker =>
      InTree w x → (w.mem x).preload = 0 → (w.mem x).loaded = true → linker.errors x = false
  | .unloadAll errors => ∀ x, InTree w x → (w.mem x).loaded = true → errors x = false
  | _ => True

variable [DecidableEq ι]

/-- One call, with the value it returns if it returns one. -/
def call (malloc : List ι → ι) (fuel : ℕ) (w : World ι) : Op ι → Option (World ι × Bool)
  | .start res linker => (pluginsInitialize malloc fuel w res linker).map (·, false)
  | .sighup res linker => (pluginsSighup malloc fuel w res linker).map (·, false)
  | .load name o => pluginLoad fuel w name o
  | .unload name dlerror => pluginUnload fuel w name dlerror
  | .edit x preload => some (savePreload w x preload, false)
  | .save x linker => (pluginSaveFunc w x linker).map (·, false)
  | .unloadAll errors => (pluginUnloadAll errors fuel w).map (·, false)

/-- The number of rows a call can add. -/
def Op.rows : Op ι → ℕ
  | .start res _ | .sighup res _ => rowCount res
  | _ => 0

/-- The calls on a tree that is empty at first, with fuel that no walk exhausts. -/
def system (malloc : List ι → ι) : System (World ι) (ℕ × Op ι) where
  init w := w.pointers.root = none ∧ w.mutex = false
  step w e :=
    if w.live.length + e.2.rows + 1 ≤ e.1 then (call malloc e.1 w e.2).map (·.1) else none

section Calls

variable {malloc : List ι → ι} {w w' : World ι} {t : BinaryTree ι} {fuel : ℕ} {r : Bool}

/-- Changing a plugin of the tree, or a record that is not in it. -/
theorem Rests.write {between : Plugin → Prop} (h : Rests between w t) {x : ι} {plugin : Plugin}
    (hx : x ∈ t.inorder → plugin.name = (w.mem x).name ∧ between plugin ∧
      plugin.newPlugin = false) : Rests between (w.write x plugin) t := by
  have hmem : ∀ y, y ≠ x → (w.write x plugin).mem y = w.mem y := fun y hyx ↦
    Function.update_of_ne hyx ..
  have hself : (w.write x plugin).mem x = plugin := Function.update_self ..
  refine ⟨h.toShape.write fun hxt ↦ by rw [(hx hxt).1]; rfl, h.mutex, fun y hy ↦ ?_,
    fun y hy ↦ ?_⟩
  · by_cases hyx : y = x
    · subst hyx
      rw [hself]
      exact (hx hy).2.1
    · rw [hmem y hyx]
      exact h.between y hy
  · by_cases hyx : y = x
    · subst hyx
      rw [hself]
      exact (hx hy).2.2
    · rw [hmem y hyx]
      exact h.old y hy

theorem Sound.write (h : Sound w t) {x : ι} {plugin : Plugin}
    (hx : x ∈ t.inorder → plugin.name = (w.mem x).name ∧ Tracks plugin ∧
      plugin.newPlugin = false) : Sound (w.write x plugin) t :=
  sound_iff.mpr ((sound_iff.mp h).write hx)

/-- The flag of a plugin that was unloaded with an error pending. -/
theorem not_obeys {plugin : Plugin} (hl : plugin.loaded = true) (hh : plugin.handle = none) :
    ¬ Obeys plugin := fun h ↦ h.handle hl hh

theorem pluginLoad_cases (h : Settled w t) (hf : t.numNodes ≤ fuel) {name : CString}
    {o : LoadOutcome} (he : pluginLoad fuel w (some name) o = some (w', r)) :
    (w' = w ∧ r = false ∧ ∀ x ∈ t.inorder, w.key x = caseless name → (w.mem x).loaded = true) ∨
    ∃ x ∈ t.inorder, w.key x = caseless name ∧ (w.mem x).loaded = false ∧
      w' = w.write x (pluginLoadItem (w.mem x) o) ∧ r = true := by
  obtain ⟨item, hfind, hitem⟩ := findPlugin_eq h.toShape h.mutex name hf
  simp only [pluginLoad, hfind, Option.bind_eq_bind, Option.bind_some] at he
  cases item with
  | none =>
      cases he
      exact .inl ⟨rfl, rfl, fun x hx hkey ↦ nomatch (hitem x).mpr ⟨hx, hkey⟩⟩
  | some x =>
      obtain ⟨hx, hkey⟩ := (hitem x).mp rfl
      cases hl : (w.mem x).loaded with
      | true =>
          simp only [hl, if_true] at he
          cases he
          refine .inl ⟨rfl, rfl, fun y hy hykey ↦ ?_⟩
          rw [h.key_inj hy hx (hykey.trans hkey.symm), hl]
      | false =>
          simp only [hl, Bool.false_eq_true, if_false] at he
          cases he
          exact .inr ⟨x, hx, hkey, hl, rfl, rfl⟩

theorem pluginUnload_cases (h : Settled w t) (hf : t.numNodes ≤ fuel) {name : CString}
    {dlerror : Bool} (he : pluginUnload fuel w (some name) dlerror = some (w', r)) :
    (w' = w ∧ r = false ∧ ∀ x ∈ t.inorder, w.key x = caseless name → (w.mem x).loaded = false) ∨
    ∃ x ∈ t.inorder, w.key x = caseless name ∧ (w.mem x).loaded = true ∧
      ∃ plugin, pluginUnloadItem (w.mem x) dlerror = some plugin ∧ w' = w.write x plugin ∧
        r = true := by
  obtain ⟨item, hfind, hitem⟩ := findPlugin_eq h.toShape h.mutex name hf
  simp only [pluginUnload, hfind, Option.bind_eq_bind, Option.bind_some] at he
  cases item with
  | none =>
      cases he
      exact .inl ⟨rfl, rfl, fun x hx hkey ↦ nomatch (hitem x).mpr ⟨hx, hkey⟩⟩
  | some x =>
      obtain ⟨hx, hkey⟩ := (hitem x).mp rfl
      cases hl : (w.mem x).loaded with
      | false =>
          simp only [hl, Bool.not_false, if_true] at he
          cases he
          refine .inl ⟨rfl, rfl, fun y hy hykey ↦ ?_⟩
          rw [h.key_inj hy hx (hykey.trans hkey.symm), hl]
      | true =>
          simp only [hl, Bool.not_true, Bool.false_eq_true, if_false] at he
          obtain ⟨plugin, hplugin, he⟩ := Option.bind_eq_some_iff.mp he
          cases he
          exact .inr ⟨x, hx, hkey, hl, plugin, hplugin, rfl, rfl⟩

theorem Sound.load (h : Sound w t) {x : ι} (hl : (w.mem x).loaded = false) (o : LoadOutcome) :
    Sound (w.write x (pluginLoadItem (w.mem x) o)) t :=
  h.write fun hx ↦ ⟨pluginLoadItem_name _ o, (h.tracks x hx).load hl o,
    (pluginLoadItem_newPlugin _ o).trans (h.old x hx)⟩

/-- An unloaded plugin keeps the tree sound exactly if no error is pending. -/
theorem Sound.unload (h : Sound w t) {x : ι} {plugin : Plugin} {dlerror : Bool}
    (hl : (w.mem x).loaded = true) (hp : pluginUnloadItem (w.mem x) dlerror = some plugin)
    (hx : x ∈ t.inorder) :
    plugin.name = (w.mem x).name ∧ plugin.loaded = dlerror ∧
      (dlerror = false → Sound (w.write x plugin) t) ∧
      (dlerror = true → ¬ AllObey (w.write x plugin)) := by
  obtain ⟨plugin', he, hname, hnew, hhandle, hloaded, htracks⟩ := (h.tracks x hx).unload hl dlerror
  obtain rfl : plugin = plugin' := Option.some.inj (hp.symm.trans he)
  refine ⟨hname, hloaded, fun hd ↦ ?_, fun hd hobey ↦ ?_⟩
  · exact h.write fun _ ↦ ⟨hname, htracks hd, hnew.trans (h.old x hx)⟩
  · have hself : (w.write x plugin).mem x = plugin := Function.update_self ..
    have hx' := hobey x (h.inTree.mpr hx)
    rw [hself] at hx'
    exact not_obeys (hloaded.trans hd) hhandle hx'

/-- The outcome of a call: all is well after it exactly if it does not rely on the
linker where it fails. -/
def Settles (w w' : World ι) (r : Bool) (op : Op ι) : Prop :=
  (NoLinkerError w op → ∃ t', Sound w' t' ∧ Truthful w' r op) ∧
    (¬ NoLinkerError w op → ¬ (AllObey w' ∧ Truthful w' r op))

theorem load_settles (h : Sound w t) (hf : t.numNodes ≤ fuel) {name : CString} {o : LoadOutcome}
    (he : pluginLoad fuel w (some name) o = some (w', r)) :
    Settles w w' r (.load (some name) o) := by
  obtain ⟨rfl, rfl, hall⟩ | ⟨x, hx, hkey, hl, rfl, rfl⟩ :=
    pluginLoad_cases h.settled hf he
  · refine ⟨fun _ ↦ ⟨t, h, nofun⟩, fun hbad ↦ ?_⟩
    refine absurd (fun x hx hkey hl ↦ ?_) hbad
    rw [hall x (h.inTree.mp hx) hkey] at hl
    cases hl
  · have h' := h.load hl o
    have hself : (w.write x (pluginLoadItem (w.mem x) o)).mem x = pluginLoadItem (w.mem x) o :=
      Function.update_self ..
    have hkey' : (w.write x (pluginLoadItem (w.mem x) o)).key x = caseless name := by
      rw [World.key, hself, pluginLoadItem_name]
      exact hkey
    refine ⟨fun hgood ↦ ⟨t, h', fun _ ↦ ⟨x, h'.inTree.mpr hx, hkey', ?_⟩⟩, ?_⟩
    · rw [hself, pluginLoadItem_loaded hl]
      exact hgood x (h.inTree.mpr hx) hkey hl
    · rintro hbad ⟨-, htrue⟩
      refine hbad fun y hy hykey _ ↦ ?_
      obtain ⟨z, hz, hzkey, hzl⟩ := htrue rfl
      obtain rfl : z = x := h'.key_inj (h'.inTree.mp hz) hx (hzkey.trans hkey'.symm)
      rw [← pluginLoadItem_loaded hl, ← hself]
      exact hzl

theorem unload_settles (h : Sound w t) (hf : t.numNodes ≤ fuel) {name : CString} {dlerror : Bool}
    (he : pluginUnload fuel w (some name) dlerror = some (w', r)) :
    Settles w w' r (.unload (some name) dlerror) := by
  obtain ⟨rfl, rfl, hall⟩ | ⟨x, hx, hkey, hl, plugin, hp, rfl, rfl⟩ :=
    pluginUnload_cases h.settled hf he
  · refine ⟨fun _ ↦ ⟨t, h, nofun⟩, fun hbad ↦ ?_⟩
    refine absurd (fun x hx hkey hl ↦ ?_) hbad
    rw [hall x (h.inTree.mp hx) hkey] at hl
    cases hl
  · obtain ⟨hname, hloaded, hgood, hbad⟩ := h.unload hl hp hx
    have hself : (w.write x plugin).mem x = plugin := Function.update_self ..
    refine ⟨fun hno ↦ ?_, fun hno ↦ ?_⟩
    · have hd := hno x (h.inTree.mpr hx) hkey hl
      refine ⟨t, hgood hd, fun _ ↦ ⟨x, (hgood hd).inTree.mpr hx, ?_, ?_⟩⟩
      · rw [World.key, hself, hname]
        exact hkey
      · rw [hself, hloaded, hd]
    · rintro ⟨hobey, -⟩
      refine hno fun _ _ _ _ ↦ ?_
      by_contra hd
      exact hbad (by simpa using hd) hobey

theorem save_settles (h : Sound w t) {x : ι} {linker : Linker ι}
    (he : pluginSaveFunc w x linker = some w') (r : Bool) : Settles w w' r (.save x linker) := by
  unfold pluginSaveFunc at he
  split at he
  · rename_i hload
    have hl : (w.mem x).loaded = false := by simpa using hload.2
    cases he
    refine ⟨fun _ ↦ ⟨t, h.load hl _, trivial⟩, fun hbad ↦ ?_⟩
    refine absurd (fun _ hpre _ ↦ ?_) hbad
    exact absurd hpre hload.1
  · split at he
    · rename_i hunload
      obtain ⟨plugin, hp, hw⟩ := Option.bind_eq_some_iff.mp he
      cases hw
      by_cases hx : x ∈ t.inorder
      · obtain ⟨-, -, hgood, hbad⟩ := h.unload hunload.2 hp hx
        refine ⟨fun hno ↦ ⟨t, hgood ?_, trivial⟩, ?_⟩
        · exact hno (h.inTree.mpr hx) hunload.1 hunload.2
        · rintro hno ⟨hobey, -⟩
          refine hno fun _ _ _ ↦ ?_
          by_contra hd
          exact hbad (by simpa using hd) hobey
      · -- a record that is not in the tree any more
        refine ⟨fun _ ↦ ⟨t, h.write fun hx' ↦ absurd hx' hx, trivial⟩, fun hbad ↦ ?_⟩
        refine absurd (fun hx' _ _ ↦ ?_) hbad
        exact absurd (h.inTree.mp hx') hx
    · rename_i hload hunload
      cases he
      refine ⟨fun _ ↦ ⟨t, h, trivial⟩, fun hbad ↦ ?_⟩
      refine absurd (fun _ hpre hl ↦ ?_) hbad
      exact absurd ⟨hpre, hl⟩ hunload

/-- Unloading changes neither the name nor the functions of a plugin. -/
theorem pluginUnloadItem_config {plugin plugin' : Plugin} {dlerror : Bool}
    (h : pluginUnloadItem plugin dlerror = some plugin') :
    plugin'.name = plugin.name ∧ plugin'.newPlugin = plugin.newPlugin ∧
      plugin'.shutdown.isSome := by
  unfold pluginUnloadItem at h
  split at h
  · cases h
  · rename_i f hf
    split at h <;> cases h <;> exact ⟨rfl, rfl, by rw [hf]; rfl⟩

theorem unloadLoaded_config {plugin plugin' : Plugin} (hends : Ends plugin) {dlerror : Bool}
    (h : unloadLoaded plugin dlerror = some plugin') :
    plugin'.name = plugin.name ∧ plugin'.newPlugin = plugin.newPlugin ∧ Ends plugin' := by
  unfold unloadLoaded at h
  split at h
  · obtain ⟨hname, hnew, hend⟩ := pluginUnloadItem_config h
    exact ⟨hname, hnew, fun _ ↦ hend⟩
  · cases h
    exact ⟨rfl, rfl, hends⟩

/-- `pluginUnloadAll` shuts down each plugin of the tree that is loaded. -/
theorem pluginUnloadAll_eq (h : Settled w t) (hf : t.numNodes ≤ fuel) {errors : ι → Bool}
    (he : pluginUnloadAll errors fuel w = some w') :
    ∃ mem, w' = { w with mem } ∧ Shape { w with mem } t ∧
      ∀ x ∈ t.inorder, unloadLoaded (w.mem x) (errors x) = some (mem x) := by
  have hlocked : Shape { w with mutex := true } t := h.of_mem rfl rfl rfl fun _ _ ↦ rfl
  have hname : ∀ x p p', unloadLoaded p (errors x) = some p' → p'.name = p.name := by
    intro x p p' hp
    unfold unloadLoaded at hp
    split at hp
    · exact (pluginUnloadItem_config hp).1
    · cases hp
      rfl
  obtain ⟨mem, he', h', hmem, -⟩ := hlocked.walk
    (fun x plugin ↦ unloadLoaded plugin (errors x))
    (fun x hx ↦ unloadLoaded_isSome (h.shutdown x hx) _) hname hf
  refine ⟨mem, ?_, h'.of_mem rfl rfl rfl fun _ _ ↦ rfl, hmem⟩
  simp only [pluginUnloadAll, lockTree_eq h.mutex, pluginUnloadTree, Option.bind_eq_bind,
    Option.bind_some, he', unlockTree_eq, Option.some.injEq] at he
  rw [← he, ← h.mutex]

theorem unloadAll_settles (h : Sound w t) (hf : t.numNodes ≤ fuel) {errors : ι → Bool}
    (he : pluginUnloadAll errors fuel w = some w') (r : Bool) :
    Settles w w' r (.unloadAll errors) := by
  obtain ⟨mem, rfl, hshape, hmem⟩ := pluginUnloadAll_eq h.settled hf he
  refine ⟨fun hno ↦ ⟨t, ⟨hshape, h.mutex, fun x hx ↦ ?_, fun x hx ↦ ?_⟩, trivial⟩, ?_⟩
  · obtain ⟨plugin', hp, -, -, -, htracks⟩ := (h.tracks x hx).unloadLoaded (errors x)
    obtain rfl : mem x = plugin' := Option.some.inj ((hmem x hx).symm.trans hp)
    exact htracks fun hl ↦ hno x (h.inTree.mpr hx) hl
  · obtain ⟨plugin', hp, -, hnew, -⟩ := (h.tracks x hx).unloadLoaded (errors x)
    obtain rfl : mem x = plugin' := Option.some.inj ((hmem x hx).symm.trans hp)
    exact hnew.trans (h.old x hx)
  · rintro hno ⟨hobey, -⟩
    refine hno fun x hx hl ↦ ?_
    have hxt := h.inTree.mp hx
    obtain ⟨plugin', hp, -, -, hloaded, -⟩ := (h.tracks x hxt).unloadLoaded (errors x)
    obtain rfl : mem x = plugin' := Option.some.inj ((hmem x hxt).symm.trans hp)
    obtain ⟨hhandle, hl'⟩ := hloaded hl
    by_contra hd
    rw [Bool.not_eq_false] at hd
    exact not_obeys (hl'.trans hd) hhandle (hobey x (hshape.inTree.mpr hxt))

theorem call_settles (hmalloc : ∀ l, malloc l ∉ l) (h : Sound w t) {op : Op ι}
    (hf : w.live.length + op.rows + 1 ≤ fuel) (he : call malloc fuel w op = some (w', r)) :
    Settles w w' r op := by
  have hsize := h.numNodes_le
  cases op with
  | start res linker =>
      simp only [Op.rows] at hf
      obtain ⟨w₁, t₁, he₁, h₁⟩ := pluginsInitialize_rests hmalloc carried_tracks
        (sound_iff.mp h) res linker (by omega : _ ≤ fuel)
      simp only [call, he₁, Option.map_some, Option.some.injEq, Prod.mk.injEq] at he
      obtain ⟨rfl, -⟩ := he
      exact ⟨fun _ ↦ ⟨t₁, sound_iff.mpr h₁, trivial⟩, fun hbad ↦ absurd trivial hbad⟩
  | sighup res linker =>
      simp only [Op.rows] at hf
      obtain ⟨w₁, t₁, he₁, h₁⟩ := pluginsSighup_rests hmalloc carried_tracks
        (sound_iff.mp h) res linker (by omega : _ ≤ fuel)
      simp only [call, he₁, Option.map_some, Option.some.injEq, Prod.mk.injEq] at he
      obtain ⟨rfl, -⟩ := he
      exact ⟨fun _ ↦ ⟨t₁, sound_iff.mpr h₁, trivial⟩, fun hbad ↦ absurd trivial hbad⟩
  | load name o =>
      cases name with
      | none =>
          cases he
          exact ⟨fun _ ↦ ⟨t, h, trivial⟩, fun hbad ↦ absurd trivial hbad⟩
      | some name => exact load_settles h (by omega) he
  | unload name dlerror =>
      cases name with
      | none =>
          cases he
          exact ⟨fun _ ↦ ⟨t, h, trivial⟩, fun hbad ↦ absurd trivial hbad⟩
      | some name => exact unload_settles h (by omega) he
  | edit x preload =>
      cases he
      refine ⟨fun _ ↦ ⟨t, h.write fun hx ↦ ⟨rfl, ?_, h.old x hx⟩, trivial⟩,
        fun hbad ↦ absurd trivial hbad⟩
      have htracks := h.tracks x hx
      exact ⟨htracks.handle, htracks.shutdown, htracks.calls⟩
  | save x linker =>
      obtain ⟨w₁, he₁, he⟩ := Option.map_eq_some_iff.mp he
      cases he
      exact save_settles h he₁ _
  | unloadAll errors =>
      obtain ⟨w₁, he₁, he⟩ := Option.map_eq_some_iff.mp he
      cases he
      exact unloadAll_settles h (by omega) he₁ _

/-- No call breaks the tree, whatever the linker answers. -/
theorem call_settled (hmalloc : ∀ l, malloc l ∉ l) (h : Settled w t) {op : Op ι}
    (hf : w.live.length + op.rows + 1 ≤ fuel) (he : call malloc fuel w op = some (w', r)) :
    ∃ t', Settled w' t' := by
  have hsize := h.numNodes_le
  have hrests := settled_iff.mp h
  cases op with
  | start res linker =>
      simp only [Op.rows] at hf
      obtain ⟨w₁, t₁, he₁, h₁⟩ := pluginsInitialize_rests hmalloc carried_ends hrests res linker
        (by omega : _ ≤ fuel)
      simp only [call, he₁, Option.map_some, Option.some.injEq, Prod.mk.injEq] at he
      obtain ⟨rfl, -⟩ := he
      exact ⟨t₁, settled_iff.mpr h₁⟩
  | sighup res linker =>
      simp only [Op.rows] at hf
      obtain ⟨w₁, t₁, he₁, h₁⟩ := pluginsSighup_rests hmalloc carried_ends hrests res linker
        (by omega : _ ≤ fuel)
      simp only [call, he₁, Option.map_some, Option.some.injEq, Prod.mk.injEq] at he
      obtain ⟨rfl, -⟩ := he
      exact ⟨t₁, settled_iff.mpr h₁⟩
  | load name o =>
      cases name with
      | none =>
          cases he
          exact ⟨t, h⟩
      | some name =>
          obtain ⟨rfl, -⟩ | ⟨x, hx, -, hl, rfl, -⟩ := pluginLoad_cases h (by omega) he
          · exact ⟨t, h⟩
          · refine ⟨t, settled_iff.mpr (hrests.write fun _ ↦ ⟨?_, Ends.load hl o, ?_⟩)⟩
            · exact pluginLoadItem_name _ o
            · exact (pluginLoadItem_newPlugin _ o).trans (h.old x hx)
  | unload name dlerror =>
      cases name with
      | none =>
          cases he
          exact ⟨t, h⟩
      | some name =>
          obtain ⟨rfl, -⟩ | ⟨x, hx, -, -, plugin, hp, rfl, -⟩ := pluginUnload_cases h (by omega) he
          · exact ⟨t, h⟩
          · obtain ⟨hname, hnew, hend⟩ := pluginUnloadItem_config hp
            exact ⟨t, settled_iff.mpr (hrests.write fun _ ↦
              ⟨hname, fun _ ↦ hend, hnew.trans (h.old x hx)⟩)⟩
  | edit x preload =>
      cases he
      exact ⟨t, settled_iff.mpr (hrests.write fun hx ↦ ⟨rfl, h.shutdown x hx, h.old x hx⟩)⟩
  | save x linker =>
      obtain ⟨w₁, he₁, he⟩ := Option.map_eq_some_iff.mp he
      cases he
      unfold pluginSaveFunc at he₁
      split at he₁
      · rename_i hload
        have hl : (w.mem x).loaded = false := by simpa using hload.2
        cases he₁
        refine ⟨t, settled_iff.mpr (hrests.write fun hx ↦ ⟨?_, Ends.load hl _, ?_⟩)⟩
        · exact pluginLoadItem_name _ _
        · exact (pluginLoadItem_newPlugin _ _).trans (h.old x hx)
      · split at he₁
        · obtain ⟨plugin, hp, hw⟩ := Option.bind_eq_some_iff.mp he₁
          cases hw
          obtain ⟨hname, hnew, hend⟩ := pluginUnloadItem_config hp
          exact ⟨t, settled_iff.mpr (hrests.write fun hx ↦
            ⟨hname, fun _ ↦ hend, hnew.trans (h.old x hx)⟩)⟩
        · cases he₁
          exact ⟨t, h⟩
  | unloadAll errors =>
      obtain ⟨w₁, he₁, he⟩ := Option.map_eq_some_iff.mp he
      cases he
      obtain ⟨mem, rfl, hshape, hmem⟩ := pluginUnloadAll_eq h (by omega) he₁
      refine ⟨t, hshape, h.mutex, fun x hx ↦ ?_, fun x hx ↦ ?_⟩
      · exact (unloadLoaded_config (h.shutdown x hx) (hmem x hx)).2.1.trans (h.old x hx)
      · exact (unloadLoaded_config (h.shutdown x hx) (hmem x hx)).2.2

/-! ## All runs -/

theorem reachable_sound (hmalloc : ∀ l, malloc l ∉ l)
    (h : (system malloc).ReachableVia (fun w e ↦ NoLinkerError w e.2) w) : ∃ t, Sound w t := by
  refine h.invariant (I := fun w ↦ ∃ t, Sound w t) ?_ ?_
  · rintro w ⟨hroot, hm⟩
    exact ⟨.nil, ⟨⟨hroot, trivial, List.nodup_nil⟩, .nil, by simp, by simp⟩, hm, by simp, by simp⟩
  · rintro w ⟨fuel, op⟩ w' ⟨t, ht⟩ hgood he
    simp only [system] at he
    split at he
    · rename_i hf
      obtain ⟨⟨w₁, r⟩, he₁, he⟩ := Option.map_eq_some_iff.mp he
      cases he
      obtain ⟨t', ht', -⟩ := (call_settles hmalloc ht hf he₁).1 hgood
      exact ⟨t', ht'⟩
    · cases he

/-- The trees of all runs are such as `pluginsSighup` is proved about. -/
theorem reachable_settled (hmalloc : ∀ l, malloc l ∉ l) (h : (system malloc).Reachable w) :
    ∃ t, Settled w t := by
  refine h.invariant (I := fun w ↦ ∃ t, Settled w t) ?_ ?_
  · rintro w ⟨hroot, hm⟩
    exact ⟨.nil, ⟨⟨hroot, trivial, List.nodup_nil⟩, .nil, by simp, by simp⟩, hm, by simp, by simp⟩
  · rintro w ⟨fuel, op⟩ w' ⟨t, ht⟩ he
    simp only [system] at he
    split at he
    · rename_i hf
      obtain ⟨⟨w₁, r⟩, he₁, he⟩ := Option.map_eq_some_iff.mp he
      cases he
      exact call_settled hmalloc ht hf he₁
    · cases he

end Calls

/-- The first plugin of `twoRows` is loaded at the start, and unloaded with an error
pending. -/
def stickyRun : List (ℕ × Op ℕ) :=
  [(3, .start (some twoRows) goodLinker), (3, .unload (some ['d', 'n', 's']) true)]

end Beirdobot.Plugins
