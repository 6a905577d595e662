import Beirdobot.BTree.Model
import Mathlib.Algebra.Group.Int.Defs

/-!
# Plugins

A transcription of `plugin_api.c` and of `result_get_plugins`.  A plugin and the
item that holds it in `pluginTree` are allocated and freed together, and share an
address; the key of the item is the name in the record.  The outside says what
`dlopen`, `dlsym` and `dlerror` answer, and for each row what is in it.  Menus are
left out.  A function returns `none` where the C code calls a null function, locks a
mutex that is held, or walks further than its `fuel`.
-/

namespace Beirdobot.Plugins

open BTree

/-- The calls of a plugin's own functions. -/
inductive PluginCall
  | init
  | shutdown
deriving DecidableEq, Repr

/-- `Plugin_t`, with the calls of its functions and the number of calls of
`pluginLoadItem` since it was allocated, the last one first. -/
structure Plugin where
  name : CString
  libName : CString
  preload : ℕ
  loaded : Bool
  newPlugin : Bool
  visited : Bool
  args : CString
  handle : Option ℕ
  init : Option ℕ
  shutdown : Option ℕ
  calls : List PluginCall
  loads : ℕ
deriving DecidableEq, Repr

/-- A record cleared by `memset`. -/
def Plugin.cleared : Plugin :=
  { name := [], libName := [], preload := 0, loaded := false, newPlugin := false
    visited := false, args := [], handle := none, init := none, shutdown := none
    calls := [], loads := 0 }

/-- `pluginTree` and the plugins in memory. -/
structure World (ι : Type) where
  pointers : Pointers ι
  owner : ι → Option ℕ
  mutex : Bool
  mem : ι → Plugin
  live : List ι

namespace World

variable {ι : Type}

/-- `pluginTree`, with the names that the keys point to. -/
def pluginTree (w : World ι) : BalancedBTree ι CString :=
  { w.pointers with
    key := fun x ↦ caseless (w.mem x).name
    owner := w.owner
    self := 0
    mutex := w.mutex }

/-- The world after an operation on the tree. -/
def setTree (w : World ι) (tree : BalancedBTree ι CString) : World ι :=
  { w with pointers := tree.toPointers, owner := tree.owner, mutex := tree.mutex }

/-- `BalancedBTreeLock( pluginTree )` -/
def lockTree (w : World ι) : Option (World ι) := do
  let tree ← balancedBTreeLock w.pluginTree
  some (w.setTree tree)

/-- `BalancedBTreeUnlock( pluginTree )` -/
def unlockTree (w : World ι) : World ι := w.setTree (balancedBTreeUnlock w.pluginTree)

/-- Write a record. -/
def write [DecidableEq ι] (w : World ι) (x : ι) (plugin : Plugin) : World ι :=
  { w with mem := Function.update w.mem x plugin }

end World

/-! ## Loading and unloading one plugin -/

/-- What the dynamic linker answers to `pluginLoadItem`: what `dlopen` returns, and
what each `dlsym` does, `none` if `dlerror` reports an error after it. -/
structure LoadOutcome where
  handle : Option ℕ
  init : Option ℕ
  shutdown : Option ℕ
deriving DecidableEq, Repr

/-- The lines of `pluginLoadItem`. -/
def loadItem (plugin : Plugin) (o : LoadOutcome) : Plugin :=
  let plugin := { plugin with handle := o.handle }
  match o.handle with
  | none => plugin
  | some _ =>
      let plugin := { plugin with init := o.init }
      match o.init with
      | none => plugin
      | some _ =>
          let plugin := { plugin with shutdown := o.shutdown }
          match o.shutdown with
          | none => plugin
          | some _ => { plugin with calls := .init :: plugin.calls, loaded := true }

/-- `pluginLoadItem` -/
def pluginLoadItem (plugin : Plugin) (o : LoadOutcome) : Plugin :=
  loadItem { plugin with loads := plugin.loads + 1 } o

/-- `pluginUnloadItem`, given whether `dlerror` reports an error after `dlclose`. -/
def pluginUnloadItem (plugin : Plugin) (dlerror : Bool) : Option Plugin :=
  match plugin.shutdown with
  | none => none
  | some _ =>
      let plugin := { plugin with calls := .shutdown :: plugin.calls }
      let plugin := { plugin with handle := none }
      if dlerror then some plugin else some { plugin with loaded := false }

/-- The `if( plugin->loaded )` guard before `pluginUnloadItem`. -/
def unloadLoaded (plugin : Plugin) (dlerror : Bool) : Option Plugin :=
  if plugin.loaded then pluginUnloadItem plugin dlerror else some plugin

section Trees

variable {ι : Type} [DecidableEq ι]

/-- Walk the tree from the left to the right, and change each plugin. -/
def walkTree (visit : ι → Plugin → Option Plugin) : ℕ → World ι → Option ι → Option (World ι)
  | _, w, none => some w
  | 0, _, some _ => none
  | fuel + 1, w, some node => do
      let w ← walkTree visit fuel w (w.pointers.left node)
      let plugin ← visit node (w.mem node)
      let w := w.write node plugin
      walkTree visit fuel w (w.pointers.right node)

/-- `pluginUnvisitTree` -/
def pluginUnvisitTree (fuel : ℕ) (w : World ι) (node : Option ι) : Option (World ι) :=
  walkTree (fun _ plugin ↦ some { plugin with visited := false }) fuel w node

/-- What `pluginInitializeTree` does with a plugin. -/
def initializeItem (plugin : Plugin) (o : LoadOutcome) : Plugin :=
  if plugin.newPlugin then
    let plugin := if plugin.preload ≠ 0 then pluginLoadItem plugin o else plugin
    { plugin with newPlugin := false }
  else plugin

/-- `pluginInitializeTree` -/
def pluginInitializeTree (loads : ι → LoadOutcome) (fuel : ℕ) (w : World ι) (item : Option ι) :
    Option (World ι) :=
  walkTree (fun x plugin ↦ some (initializeItem plugin (loads x))) fuel w item

/-- `pluginUnloadTree` -/
def pluginUnloadTree (errors : ι → Bool) (fuel : ℕ) (w : World ι) (node : Option ι) :
    Option (World ι) :=
  walkTree (fun x plugin ↦ unloadLoaded plugin (errors x)) fuel w node

/-! ## Reading the table -/

/-- A row of `plugins`. -/
structure Row where
  pluginName : CString
  libName : CString
  preload : CString
  arguments : CString
deriving DecidableEq, Repr

/-- The `preload` of a row, as an `unsigned int`. -/
def Row.preloadFlag (row : Row) : ℕ := (atoi row.preload % 2 ^ 32).toNat

/-- The record of a row, as the loop of `result_get_plugins` fills it in. -/
def fillIn (plugin : Plugin) (row : Row) : Plugin :=
  { plugin with
    name := row.pluginName
    libName := row.libName
    preload := row.preloadFlag
    args := row.arguments
    visited := true }

/-- A new record, before the row is filled in. -/
def newPlugin : Plugin := { Plugin.cleared with newPlugin := true }

/-- One turn of the loop of `result_get_plugins`; `malloc` gives an address that is
not in use. -/
def getPlugin (malloc : List ι → ι) (fuel : ℕ) (w : World ι) (row : Row) :
    Option (World ι) := do
  let (tree, item) ← balancedBTreeFind keyCompareString fuel w.pluginTree
    (some (caseless row.pluginName)) .locked
  let w := w.setTree tree
  match item with
  | some x => some (w.write x (fillIn (w.mem x) row))
  | none => do
      let x := malloc w.live
      let w := { w.write x (fillIn newPlugin row) with live := x :: w.live }
      let tree ← balancedBTreeAdd keyCompareString fuel w.pluginTree (some x) .locked false
      some (w.setTree tree)

/-- `BalancedBTreeAdd( pluginTree, NULL, LOCKED, TRUE )` -/
def rebalanceTree (fuel : ℕ) (w : World ι) : Option (World ι) := do
  let tree ← balancedBTreeAdd keyCompareString fuel w.pluginTree none .locked true
  some (w.setTree tree)

/-- `result_get_plugins` -/
def resultGetPlugins (malloc : List ι → ι) (fuel : ℕ) (w : World ι) (res : Option (List Row)) :
    Option (World ι) :=
  match res with
  | none | some [] => some w
  | some rows => do
      let w ← rows.foldlM (getPlugin malloc fuel) w
      rebalanceTree fuel w

/-! ## Reloading -/

/-- What `pluginFlushUnvisited` does with a plugin that was not visited. -/
def removePlugin (errors : ι → Bool) (fuel : ℕ) (w : World ι) (node : ι) :
    Option (World ι) := do
  let tree ← balancedBTreeRemove fuel w.pluginTree (some node) .locked false
  let w := w.setTree tree
  let plugin ← unloadLoaded (w.mem node) (errors node)
  some { w.write node plugin with live := w.live.erase node }

/-- `pluginFlushUnvisited`, and whether it removed a plugin. -/
def pluginFlushUnvisited (errors : ι → Bool) (fuel : ℕ) :
    ℕ → World ι → Option ι → Option (World ι × Bool)
  | _, w, none => some (w, false)
  | 0, _, some _ => none
  | depth + 1, w, some node => do
      let (w, removed) ← pluginFlushUnvisited errors fuel depth w (w.pointers.left node)
      if removed then some (w, true)
      else if !(w.mem node).visited then do
        let w ← removePlugin errors fuel w node
        some (w, true)
      else pluginFlushUnvisited errors fuel depth w (w.pointers.right node)

/-- The loop of `plugins_sighup`. -/
def flushLoop (errors : ι → Bool) (fuel : ℕ) : ℕ → World ι → Option (World ι)
  | 0, _ => none
  | turns + 1, w => do
      let (w, removed) ← pluginFlushUnvisited errors fuel fuel w w.pointers.root
      if removed then flushLoop errors fuel turns w else some w

/-- What the dynamic linker answers for the plugin at each address. -/
structure Linker (ι : Type) where
  loads : ι → LoadOutcome
  errors : ι → Bool

/-- `plugins_sighup` -/
def pluginsSighup (malloc : List ι → ι) (fuel : ℕ) (w : World ι) (res : Option (List Row))
    (linker : Linker ι) : Option (World ι) := do
  let w ← w.lockTree
  let w ← pluginUnvisitTree fuel w w.pointers.root
  let w ← resultGetPlugins malloc fuel w res
  let w ← pluginInitializeTree linker.loads fuel w w.pointers.root
  let w ← flushLoop linker.errors fuel fuel w
  let w ← rebalanceTree fuel w
  some w.unlockTree

/-- `plugins_initialize`, from its lock on. -/
def pluginsInitialize (malloc : List ι → ι) (fuel : ℕ) (w : World ι) (res : Option (List Row))
    (linker : Linker ι) : Option (World ι) := do
  let w ← w.lockTree
  let w ← resultGetPlugins malloc fuel w res
  let w ← pluginInitializeTree linker.loads fuel w w.pointers.root
  some w.unlockTree

/-! ## Loading and unloading by name -/

/-- `BalancedBTreeFind( pluginTree, &name, UNLOCKED )` -/
def findPlugin (fuel : ℕ) (w : World ι) (name : CString) : Option (World ι × Option ι) := do
  let (tree, item) ← balancedBTreeFind keyCompareString fuel w.pluginTree
    (some (caseless name)) .unlocked
  some (w.setTree tree, item)

/-- `pluginLoad`, with the value it returns. -/
def pluginLoad (fuel : ℕ) (w : World ι) (name : Option CString) (o : LoadOutcome) :
    Option (World ι × Bool) := do
  match name with
  | none => some (w, false)
  | some name => do
      let (w, item) ← findPlugin fuel w name
      match item with
      | none => some (w, false)
      | some x =>
          if (w.mem x).loaded then some (w, false)
          else some (w.write x (pluginLoadItem (w.mem x) o), true)

/-- `pluginUnload`, with the value it returns. -/
def pluginUnload (fuel : ℕ) (w : World ι) (name : Option CString) (dlerror : Bool) :
    Option (World ι × Bool) := do
  match name with
  | none => some (w, false)
  | some name => do
      let (w, item) ← findPlugin fuel w name
      match item with
      | none => some (w, false)
      | some x =>
          if !(w.mem x).loaded then some (w, false)
          else do
            let plugin ← pluginUnloadItem (w.mem x) dlerror
            some (w.write x plugin, true)

/-- `pluginUnloadAll` -/
def pluginUnloadAll (errors : ι → Bool) (fuel : ℕ) (w : World ι) : Option (World ι) := do
  let w ← w.lockTree
  let w ← pluginUnloadTree errors fuel w w.pointers.root
  some w.unlockTree

/-- `pluginSaveFunc` with index -1. -/
def pluginSaveFunc (w : World ι) (x : ι) (linker : Linker ι) : Option (World ι) :=
  if (w.mem x).preload ≠ 0 ∧ !(w.mem x).loaded then
    some (w.write x (pluginLoadItem (w.mem x) (linker.loads x)))
  else if (w.mem x).preload = 0 ∧ (w.mem x).loaded then do
    let plugin ← pluginUnloadItem (w.mem x) (linker.errors x)
    some (w.write x plugin)
  else some w

/-- `pluginSaveFunc` with the index of the checkbox. -/
def savePreload (w : World ι) (x : ι) (preload : Bool) : World ι :=
  w.write x { w.mem x with preload := if preload then 1 else 0 }

end Trees

end Beirdobot.Plugins
