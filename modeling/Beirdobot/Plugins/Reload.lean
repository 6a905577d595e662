import Beirdobot.Plugins.Spec

/-!
# Reloading the plugins

What `pluginsSighup` does with the rows of a successful query: the row loop, the
loading of the new plugins, and the removal of those without a row.
-/

namespace Beirdobot.Plugins

open Library BinaryTree BTree

variable {ι : Type}

/-- The name of a row, as the tree compares it. -/
def Row.key (row : Row) : CString := caseless row.pluginName

/-! ## The row loop -/

/-- What the loop of `result_get_plugins` does with rows whose names are distinct. -/
structure Gotten (w w' : World ι) (t t' : BinaryTree ι) (rows : List Row) : Prop where
  shape : Shape w' t'
  mem : ∀ x ∈ t.inorder, x ∈ t'.inorder
  found : ∀ x ∈ t.inorder, ∀ row ∈ rows, row.key = w.key x → w'.mem x = fillIn (w.mem x) row
  absent : ∀ x ∈ t.inorder, (∀ row ∈ rows, row.key ≠ w.key x) → w'.mem x = w.mem x
  listed : ∀ row ∈ rows, ∃ x ∈ t'.inorder, w'.key x = row.key
  new : ∀ x ∈ t'.inorder, x ∉ t.inorder → ∃ row ∈ rows, w'.mem x = fillIn newPlugin row
  mutex : w'.mutex = w.mutex
  size : t'.numNodes ≤ t.numNodes + rows.length

namespace Gotten

variable {w w₁ w' : World ι} {t t₁ t' : BinaryTree ι} {row : Row} {rows : List Row}

theorem nil (h : Shape w t) : Gotten w w t t [] where
  shape := h
  mem _ hx := hx
  found _ _ _ hrow := absurd hrow List.not_mem_nil
  absent _ _ _ := rfl
  listed _ hrow := absurd hrow List.not_mem_nil
  new _ hx hx' := absurd hx hx'
  mutex := rfl
  size := Nat.le_refl _

/-- A plugin keeps its name, as the tree compares it. -/
theorem key (h : Gotten w w' t t' rows) {x : ι} (hx : x ∈ t.inorder) : w'.key x = w.key x := by
  by_cases hrow : ∃ row ∈ rows, row.key = w.key x
  · obtain ⟨row, hrow, hkey⟩ := hrow
    rw [← hkey, World.key, h.found x hx row hrow hkey]
    rfl
  · push Not at hrow
    rw [World.key, World.key, h.absent x hx hrow]

/-- A row, and then the others. -/
theorem cons (h₁ : Gotten w w₁ t t₁ [row]) (h : Gotten w₁ w' t₁ t' rows)
    (hrow : ∀ row' ∈ rows, row'.key ≠ row.key) : Gotten w w' t t' (row :: rows) where
  shape := h.shape
  mem x hx := h.mem x (h₁.mem x hx)
  found := by
    intro x hx row' hrow' hkey
    rcases List.mem_cons.mp hrow' with rfl | hrow'
    · rw [← h₁.found x hx row' List.mem_cons_self hkey]
      refine h.absent x (h₁.mem x hx) fun row'' hrow'' ↦ ?_
      rw [h₁.key hx, ← hkey]
      exact hrow row'' hrow''
    · have hsame : w₁.mem x = w.mem x := by
        refine h₁.absent x hx fun row'' hrow'' e ↦ ?_
        rw [List.mem_singleton.mp hrow''] at e
        exact hrow row' hrow' (hkey.trans e.symm)
      rw [← hsame]
      exact h.found x (h₁.mem x hx) row' hrow' (hkey.trans (h₁.key hx).symm)
  absent := by
    intro x hx hno
    have hsame : w₁.mem x = w.mem x := by
      refine h₁.absent x hx fun row' hrow' ↦ ?_
      rw [List.mem_singleton.mp hrow']
      exact hno row List.mem_cons_self
    rw [← hsame]
    refine h.absent x (h₁.mem x hx) fun row' hrow' ↦ ?_
    rw [h₁.key hx]
    exact hno row' (List.mem_cons_of_mem _ hrow')
  listed := by
    intro row' hrow'
    rcases List.mem_cons.mp hrow' with rfl | hrow'
    · obtain ⟨x, hx, hkey⟩ := h₁.listed row' List.mem_cons_self
      exact ⟨x, h.mem x hx, (h.key hx).trans hkey⟩
    · exact h.listed row' hrow'
  new := by
    intro x hx hxt
    by_cases hx₁ : x ∈ t₁.inorder
    · obtain ⟨row', hrow', hnew⟩ := h₁.new x hx₁ hxt
      rw [List.mem_singleton.mp hrow'] at hnew
      refine ⟨row, List.mem_cons_self, ?_⟩
      rw [← hnew]
      refine h.absent x hx₁ fun row'' hrow'' ↦ ?_
      rw [World.key, hnew]
      exact hrow row'' hrow''
    · obtain ⟨row', hrow', hnew⟩ := h.new x hx hx₁
      exact ⟨row', List.mem_cons_of_mem _ hrow', hnew⟩
  mutex := h.mutex.trans h₁.mutex
  size := by
    have hsize₁ := h₁.size
    have hsize := h.size
    simp only [List.length_cons, List.length_nil] at *
    omega

end Gotten

section Rows

variable [DecidableEq ι] {malloc : List ι → ι} (hmalloc : ∀ l, malloc l ∉ l) {w : World ι}
  {t : BinaryTree ι} {fuel : ℕ}

include hmalloc

/-- One turn of the loop fills in the plugin with the name of the row, or adds one. -/
theorem getPlugin_gotten (h : Shape w t) (row : Row) (hf : t.numNodes + 2 ≤ fuel) :
    ∃ w' t', getPlugin malloc fuel w row = some w' ∧ Gotten w w' t t' [row] := by
  by_cases hfound : ∃ x ∈ t.inorder, w.key x = row.key
  · obtain ⟨x, hx, hkey⟩ := hfound
    refine ⟨w.write x (fillIn (w.mem x) row), t, getPlugin_found h hx hkey (by omega), ?_⟩
    have hmemx : (w.write x (fillIn (w.mem x) row)).mem x = fillIn (w.mem x) row :=
      Function.update_self ..
    refine ⟨h.write fun _ ↦ hkey.symm, fun _ hy ↦ hy, ?_, ?_, ?_, ?_, rfl, by simp⟩
    · intro y hy row' hrow' hkey'
      rw [List.mem_singleton.mp hrow'] at hkey' ⊢
      obtain rfl : y = x := h.key_inj hy hx (hkey'.symm.trans hkey.symm)
      exact hmemx
    · intro y hy hno
      have hyx : y ≠ x := by
        rintro rfl
        exact hno row List.mem_cons_self hkey.symm
      exact Function.update_of_ne hyx ..
    · intro row' hrow'
      rw [List.mem_singleton.mp hrow']
      refine ⟨x, hx, ?_⟩
      rw [World.key, hmemx]
      rfl
    · intro y hy hyt
      exact absurd hy hyt
  · push Not at hfound
    obtain ⟨w', t', he, h', hperm, hmem, hlive, hmutex⟩ :=
      getPlugin_new h hfound (hmalloc w.live) hf
    have hx : malloc w.live ∉ t.inorder := fun hx ↦ hmalloc _ (h.live _ hx)
    have hold : ∀ y ∈ t.inorder, w'.mem y = w.mem y := by
      intro y hy
      have hyx : y ≠ malloc w.live := fun e ↦ hx (e ▸ hy)
      rw [hmem, Function.update_of_ne hyx]
    have hnew : w'.mem (malloc w.live) = fillIn newPlugin row := by
      rw [hmem, Function.update_self]
    refine ⟨w', t', he, h', ?_, ?_, ?_, ?_, ?_, hmutex, ?_⟩
    · intro y hy
      exact hperm.mem_iff.mpr (List.mem_cons_of_mem _ hy)
    · intro y hy row' hrow' hkey'
      rw [List.mem_singleton.mp hrow'] at hkey'
      exact absurd hkey'.symm (hfound y hy)
    · intro y hy _
      exact hold y hy
    · intro row' hrow'
      rw [List.mem_singleton.mp hrow']
      refine ⟨malloc w.live, hperm.mem_iff.mpr List.mem_cons_self, ?_⟩
      rw [World.key, hnew]
      rfl
    · intro y hy hyt
      obtain rfl := (List.mem_cons.mp (hperm.mem_iff.mp hy)).resolve_right hyt
      exact ⟨row, List.mem_cons_self, hnew⟩
    · rw [← length_inorder, ← length_inorder, hperm.length_eq]
      simp

theorem rows_gotten {rows : List Row} (h : Shape w t) (hrows : (rows.map Row.key).Nodup)
    (hf : t.numNodes + rows.length + 1 ≤ fuel) :
    ∃ w' t', rows.foldlM (getPlugin malloc fuel) w = some w' ∧ Gotten w w' t t' rows := by
  induction rows generalizing w t with
  | nil => exact ⟨w, t, rfl, .nil h⟩
  | cons row rows ih =>
      simp only [List.length_cons] at hf
      rw [List.map_cons, List.nodup_cons] at hrows
      obtain ⟨w₁, t₁, he₁, h₁⟩ := getPlugin_gotten hmalloc h row (by omega : _ ≤ fuel)
      have hsize := h₁.size
      simp only [List.length_cons, List.length_nil] at hsize
      obtain ⟨w', t', he, h'⟩ := ih h₁.shape hrows.2 (by omega)
      refine ⟨w', t', ?_, h₁.cons h' fun row' hrow' e ↦ ?_⟩
      · rw [List.foldlM_cons, he₁]
        exact he
      · exact hrows.1 (e ▸ List.mem_map_of_mem hrow')

/-- `result_get_plugins` with the rows of a successful query. -/
theorem resultGetPlugins_gotten {rows : List Row} (h : Shape w t)
    (hrows : (rows.map Row.key).Nodup) (hf : t.numNodes + rows.length + 1 ≤ fuel) :
    ∃ w' t', resultGetPlugins malloc fuel w (some rows) = some w' ∧ Gotten w w' t t' rows := by
  cases rows with
  | nil => exact ⟨w, t, rfl, .nil h⟩
  | cons row rows =>
      obtain ⟨w₁, t₁, he₁, h₁⟩ := rows_gotten hmalloc h hrows hf
      have hsize := h₁.size
      obtain ⟨p, t', he, h', hin, -⟩ := rebalanceTree_eq h₁.shape (by omega : _ ≤ fuel)
      refine ⟨_, t', ?_, ⟨h', ?_, h₁.found, h₁.absent, ?_, ?_, h₁.mutex, ?_⟩⟩
      · rw [resultGetPlugins]
        · exact Option.bind_eq_some_iff.mpr ⟨w₁, he₁, he⟩
        · exact nofun
      · exact fun x hx ↦ hin ▸ h₁.mem x hx
      · exact fun row' hrow' ↦ hin ▸ h₁.listed row' hrow'
      · exact fun x hx ↦ h₁.new x (hin ▸ hx)
      · rw [← length_inorder t', hin, length_inorder]
        exact hsize

end Rows

/-! ## The reload -/

/-- A plugin as its row describes it. -/
structure Carries (plugin : Plugin) (row : Row) : Prop where
  name : plugin.name = row.pluginName
  libName : plugin.libName = row.libName
  preload : plugin.preload = row.preloadFlag
  args : plugin.args = row.arguments

theorem fillIn_carries (plugin : Plugin) (row : Row) : Carries (fillIn plugin row) row :=
  ⟨rfl, rfl, rfl, rfl⟩

theorem initializeItem_old {plugin : Plugin} (h : plugin.newPlugin = false) (o : LoadOutcome) :
    initializeItem plugin o = plugin := by
  simp [initializeItem, h]

theorem loadItem_loaded {plugin : Plugin} (h : plugin.loaded = false) (o : LoadOutcome)
    (hl : (loadItem plugin o).loaded = true) : (loadItem plugin o).shutdown.isSome := by
  revert hl
  simp only [loadItem]
  split
  · simp [h]
  · split
    · simp [h]
    · split
      · simp [h]
      · rename_i hs
        intro _
        rw [hs]
        rfl

theorem initializeItem_newPlugin (plugin : Plugin) (o : LoadOutcome) :
    (initializeItem plugin o).newPlugin = false := by
  unfold initializeItem
  split
  · rfl
  · rename_i h
    simpa using h

/-- Initializing a new plugin loads it if its row says so, and keeps the row. -/
theorem initializeItem_new (row : Row) (o : LoadOutcome) :
    Carries (initializeItem (fillIn newPlugin row) o) row ∧
      (initializeItem (fillIn newPlugin row) o).visited = true ∧
      ((initializeItem (fillIn newPlugin row) o).loaded = true →
        (initializeItem (fillIn newPlugin row) o).shutdown.isSome) ∧
      (initializeItem (fillIn newPlugin row) o).loads = if row.preloadFlag ≠ 0 then 1 else 0 := by
  have hnew : (fillIn newPlugin row).newPlugin = true := rfl
  have hpre : (fillIn newPlugin row).preload = row.preloadFlag := rfl
  simp only [initializeItem, hnew, hpre, if_true]
  split
  · obtain ⟨hname, hlib, hpreload, hargs, hvisited, hloads⟩ :=
      loadItem_config { fillIn newPlugin row with loads := (fillIn newPlugin row).loads + 1 } o
    exact ⟨⟨hname, hlib, hpreload, hargs⟩, hvisited, loadItem_loaded rfl o, hloads⟩
  · exact ⟨⟨rfl, rfl, rfl, rfl⟩, rfl, nofun, rfl⟩

/-- A plugin tree between two calls: it is in order, the mutex is free, no plugin is
new, and the loaded plugins have their functions. -/
structure Settled (w : World ι) (t : BinaryTree ι) : Prop extends Shape w t where
  mutex : w.mutex = false
  old : ∀ x ∈ t.inorder, (w.mem x).newPlugin = false
  shutdown : ∀ x ∈ t.inorder, (w.mem x).loaded = true → (w.mem x).shutdown.isSome

/-- What a reload from rows with distinct names does: the tree is in order and has
one entry for each row and no other, the plugins without a row are shut down if they
were loaded, those that had a row before stay as they are, and the new ones are
loaded if their row says so. -/
structure Reloaded (w w' : World ι) (t t' : BinaryTree ι) (rows : List Row) : Prop where
  shape : Shape w' t'
  balanced : t'.Balanced
  row : ∀ row ∈ rows, ∃! x, x ∈ t'.inorder ∧ Carries (w'.mem x) row
  entry : ∀ x ∈ t'.inorder, ∃ row ∈ rows, Carries (w'.mem x) row
  gone : ∀ x ∈ t.inorder, (∀ row ∈ rows, row.key ≠ w.key x) →
    x ∉ t'.inorder ∧ (w'.mem x).calls =
      if (w.mem x).loaded then .shutdown :: (w.mem x).calls else (w.mem x).calls
  kept : ∀ x ∈ t.inorder, (∃ row ∈ rows, row.key = w.key x) →
    x ∈ t'.inorder ∧ (w'.mem x).loaded = (w.mem x).loaded ∧
      (w'.mem x).calls = (w.mem x).calls ∧ (w'.mem x).loads = (w.mem x).loads
  new : ∀ x ∈ t'.inorder, x ∉ t.inorder →
    (w'.mem x).loads = if (w'.mem x).preload ≠ 0 then 1 else 0

/-- Shutting down a plugin if it is loaded. -/
theorem unloadLoaded_eq {plugin : Plugin} (h : plugin.loaded = true → plugin.shutdown.isSome)
    (dlerror : Bool) : ∃ plugin', unloadLoaded plugin dlerror = some plugin' ∧
      plugin'.calls = if plugin.loaded then .shutdown :: plugin.calls else plugin.calls := by
  cases hl : plugin.loaded with
  | false => exact ⟨plugin, by simp [unloadLoaded, hl], rfl⟩
  | true =>
      obtain ⟨f, hf⟩ := Option.isSome_iff_exists.mp (h hl)
      cases dlerror with
      | true => exact ⟨_, by simp [unloadLoaded, hl, pluginUnloadItem, hf]; rfl, rfl⟩
      | false => exact ⟨_, by simp [unloadLoaded, hl, pluginUnloadItem, hf]; rfl, rfl⟩

/-- Where the plugins stand before the flush loop. -/
structure Filled (w w' : World ι) (t t' : BinaryTree ι) (rows : List Row) : Prop where
  mem : ∀ x ∈ t.inorder, x ∈ t'.inorder
  found : ∀ x ∈ t.inorder, ∀ row ∈ rows, row.key = w.key x → w'.mem x = fillIn (w.mem x) row
  absent : ∀ x ∈ t.inorder, (∀ row ∈ rows, row.key ≠ w.key x) →
    w'.mem x = { w.mem x with visited := false }
  listed : ∀ row ∈ rows, ∃ x ∈ t'.inorder, w'.key x = row.key
  new : ∀ x ∈ t'.inorder, x ∉ t.inorder → ∃ row ∈ rows, Carries (w'.mem x) row ∧
    (w'.mem x).visited = true ∧ (w'.mem x).loads = if row.preloadFlag ≠ 0 then 1 else 0
  old : ∀ x ∈ t'.inorder, (w'.mem x).newPlugin = false
  shutdown : ∀ x ∈ t'.inorder, (w'.mem x).loaded = true → (w'.mem x).shutdown.isSome

section Reload

variable [DecidableEq ι] {malloc : List ι → ι} {w : World ι} {t : BinaryTree ι} {fuel : ℕ}
  {rows : List Row}

/-- Unvisiting, reading the rows and initializing the new plugins. -/
theorem filled (hmalloc : ∀ l, malloc l ∉ l) (h : Settled w t)
    (hrows : (rows.map Row.key).Nodup) (hf : t.numNodes + rows.length + 1 ≤ fuel)
    (linker : Linker ι) :
    ∃ w₁ w₂ w₃ t', pluginUnvisitTree fuel { w with mutex := true } w.pointers.root = some w₁ ∧
      resultGetPlugins malloc fuel w₁ (some rows) = some w₂ ∧
      pluginInitializeTree linker.loads fuel w₂ w₂.pointers.root = some w₃ ∧
      Shape w₃ t' ∧ Filled w w₃ t t' rows ∧ t'.numNodes ≤ t.numNodes + rows.length := by
  have hlocked : Shape { w with mutex := true } t := h.of_mem rfl rfl rfl fun _ _ ↦ rfl
  obtain ⟨mem₁, he₁, h₁, hunvisited⟩ := hlocked.unvisit (by omega : t.numNodes ≤ fuel)
  let w₁ : World ι := { w with mutex := true, mem := mem₁ }
  have hunvisited : ∀ x ∈ t.inorder, w₁.mem x = { w.mem x with visited := false } := hunvisited
  have hkey₁ : ∀ x ∈ t.inorder, w₁.key x = w.key x := by
    intro x hx
    rw [World.key, World.key, hunvisited x hx]
  obtain ⟨w₂, t', he₂, h₂⟩ := resultGetPlugins_gotten hmalloc (w := w₁) h₁ hrows hf
  have hsize := h₂.size
  obtain ⟨mem₃, he₃, h₃, hinit⟩ :=
    h₂.shape.initItems linker.loads (by omega : t'.numNodes ≤ fuel)
  refine ⟨w₁, w₂, { w₂ with mem := mem₃ }, t', he₁, he₂, he₃, h₃, ?_, hsize⟩
  have hmem : ∀ x, ({ w₂ with mem := mem₃ } : World ι).mem x = mem₃ x := fun _ ↦ rfl
  refine ⟨h₂.mem, ?_, ?_, ?_, ?_, ?_, ?_⟩
  · intro x hx row hrow hkey
    have hfound := h₂.found x hx row hrow (hkey.trans (hkey₁ x hx).symm)
    have hold : (w₂.mem x).newPlugin = false := by
      rw [hfound, hunvisited x hx]
      exact h.old x hx
    rw [hmem, hinit x (h₂.mem x hx), initializeItem_old hold, hfound, hunvisited x hx]
    rfl
  · intro x hx hno
    have habsent := h₂.absent x hx fun row hrow ↦ by rw [hkey₁ x hx]; exact hno row hrow
    have hold : (w₂.mem x).newPlugin = false := by
      rw [habsent, hunvisited x hx]
      exact h.old x hx
    rw [hmem, hinit x (h₂.mem x hx), initializeItem_old hold, habsent, hunvisited x hx]
  · intro row hrow
    obtain ⟨x, hx, hkey⟩ := h₂.listed row hrow
    refine ⟨x, hx, ?_⟩
    rw [← hkey, World.key, World.key, hmem, hinit x hx, initializeItem_name]
  · intro x hx hxt
    obtain ⟨row, hrow, hnew⟩ := h₂.new x hx hxt
    obtain ⟨hcarries, hvisited, -, hloads⟩ := initializeItem_new row (linker.loads x)
    rw [← hnew, ← hinit x hx] at hcarries hvisited hloads
    exact ⟨row, hrow, hcarries, hvisited, hloads⟩
  · intro x hx
    rw [hmem, hinit x hx]
    exact initializeItem_newPlugin _ _
  · intro x hx
    rw [hmem, hinit x hx]
    by_cases hxt : x ∈ t.inorder
    · have hold : ∀ plugin : Plugin, plugin = w₂.mem x → plugin.newPlugin = false →
          plugin.loaded = (w.mem x).loaded → plugin.shutdown = (w.mem x).shutdown →
          ((initializeItem (w₂.mem x) (linker.loads x)).loaded = true →
            (initializeItem (w₂.mem x) (linker.loads x)).shutdown.isSome) := by
        rintro plugin rfl hnew hloaded hshutdown
        rw [initializeItem_old hnew, hloaded, hshutdown]
        exact h.shutdown x hxt
      by_cases hrow : ∃ row ∈ rows, row.key = w₁.key x
      · obtain ⟨row, hrow, hkey⟩ := hrow
        have hfound := h₂.found x hxt row hrow hkey
        rw [hunvisited x hxt] at hfound
        exact hold _ hfound.symm (h.old x hxt) rfl rfl
      · push Not at hrow
        have habsent := h₂.absent x hxt hrow
        rw [hunvisited x hxt] at habsent
        exact hold _ habsent.symm (h.old x hxt) rfl rfl
    · obtain ⟨row, -, hnew⟩ := h₂.new x hx hxt
      rw [hnew]
      exact (initializeItem_new row (linker.loads x)).2.2.1

/-- With the rows of a successful query, names distinct ignoring case, the reload
returns, and the tree has one entry for each of them. -/
theorem pluginsSighup_reloaded (hmalloc : ∀ l, malloc l ∉ l) (h : Settled w t)
    (hrows : (rows.map Row.key).Nodup) (hf : t.numNodes + rows.length + 1 ≤ fuel)
    (linker : Linker ι) :
    ∃ w' t', pluginsSighup malloc fuel w (some rows) linker = some w' ∧
      Reloaded w w' t t' rows ∧ Settled w' t' := by
  obtain ⟨w₁, w₂, w₃, t₃, he₁, he₂, he₃, h₃, hfilled, hsize⟩ := filled hmalloc h hrows hf linker
  -- who is left after the flush
  have hvisited : ∀ x ∈ t.inorder, (∃ row ∈ rows, row.key = w.key x) →
      (w₃.mem x).visited = true := by
    rintro x hx ⟨row, hrow, hkey⟩
    rw [hfilled.found x hx row hrow hkey]
    rfl
  have hunvisited : ∀ x ∈ t₃.inorder, (w₃.mem x).visited = false →
      x ∈ t.inorder ∧ ∀ row ∈ rows, row.key ≠ w.key x := by
    intro x hx hv
    by_cases hxt : x ∈ t.inorder
    · refine ⟨hxt, fun row hrow hkey ↦ ?_⟩
      rw [hvisited x hxt ⟨row, hrow, hkey⟩] at hv
      cases hv
    · obtain ⟨row, -, -, hv', -⟩ := hfilled.new x hx hxt
      rw [hv'] at hv
      cases hv
  have hunload : ∀ x ∈ t₃.inorder, (w₃.mem x).visited = false →
      (unloadLoaded (w₃.mem x) (linker.errors x)).isSome := by
    intro x hx hv
    obtain ⟨plugin, he, -⟩ := unloadLoaded_eq (hfilled.shutdown x hx) (linker.errors x)
    rw [he]
    rfl
  obtain ⟨w₄, t₄, he₄, h₄, hin₄, hm₄, hgone₄, hkept₄⟩ :=
    flushLoop_eq h₃ hunload (by omega : t₃.numNodes < fuel) (by omega : t₃.numNodes ≤ fuel)
  have hsize₄ : t₄.numNodes ≤ t₃.numNodes := by
    rw [← length_inorder, ← length_inorder, hin₄]
    exact List.length_filter_le ..
  obtain ⟨p, t', he₅, h₅, hin₅, hbal⟩ := rebalanceTree_eq h₄ (by omega : _ ≤ fuel)
  let w' : World ι := { w₄ with pointers := p, mutex := false }
  have hin : ∀ x, x ∈ t'.inorder ↔ x ∈ t₃.inorder ∧ (w₃.mem x).visited = true := by
    intro x
    rw [hin₅, hin₄, List.mem_filter]
  have hmem : ∀ x ∈ t'.inorder, w'.mem x = w₃.mem x := fun x hx ↦ hkept₄ x fun _ ↦ ((hin x).mp hx).2
  have hkey : ∀ x ∈ t'.inorder, w'.key x = w₃.key x := by
    intro x hx
    rw [World.key, World.key, hmem x hx]
  have hshape : Shape w' t' := h₅.of_mem rfl rfl rfl fun _ _ ↦ rfl
  have hentry : ∀ x ∈ t'.inorder, ∃ row ∈ rows, Carries (w'.mem x) row := by
    intro x hx
    obtain ⟨hx₃, hv⟩ := (hin x).mp hx
    rw [hmem x hx]
    by_cases hxt : x ∈ t.inorder
    · by_cases hrow : ∃ row ∈ rows, row.key = w.key x
      · obtain ⟨row, hrow, hrowkey⟩ := hrow
        rw [hfilled.found x hxt row hrow hrowkey]
        exact ⟨row, hrow, fillIn_carries _ row⟩
      · push Not at hrow
        rw [hfilled.absent x hxt hrow] at hv
        cases hv
    · obtain ⟨row, hrow, hcarries, -⟩ := hfilled.new x hx₃ hxt
      exact ⟨row, hrow, hcarries⟩
  refine ⟨w', t', ?_, ⟨hshape, hbal, ?_, hentry, ?_, ?_, ?_⟩, hshape, rfl, ?_, ?_⟩
  · simp only [pluginsSighup, lockTree_eq h.mutex, Option.bind_eq_bind, Option.bind_some, he₁, he₂,
      he₃, he₄, he₅]
    rfl
  · intro row hrow
    obtain ⟨x, hx, hxkey⟩ := hfilled.listed row hrow
    have hvx : (w₃.mem x).visited = true := by
      by_contra hv
      obtain ⟨hxt, hno⟩ := hunvisited x hx (by simpa using hv)
      refine hno row hrow ?_
      rw [← hxkey, World.key, World.key, hfilled.absent x hxt hno]
    have hx' := (hin x).mpr ⟨hx, hvx⟩
    have hxkey' := (hkey x hx').trans hxkey
    -- the entry with the name of the row is the entry of the row
    obtain ⟨row', hrow', hcarries⟩ := hentry x hx'
    obtain rfl : row' = row := by
      refine List.inj_on_of_nodup_map hrows hrow' hrow ?_
      rw [← hxkey', World.key, hcarries.name, Row.key]
    refine ⟨x, ⟨hx', hcarries⟩, ?_⟩
    rintro y ⟨hy, hycarries⟩
    refine hshape.key_inj hy hx' ?_
    rw [World.key, hycarries.name, World.key, hcarries.name]
  · intro x hxt hno
    have hx₃ := hfilled.mem x hxt
    have habsent := hfilled.absent x hxt hno
    have hv : (w₃.mem x).visited = false := by rw [habsent]
    refine ⟨fun hx ↦ ?_, ?_⟩
    · rw [((hin x).mp hx).2] at hv
      cases hv
    · obtain ⟨plugin, he, hcalls⟩ := unloadLoaded_eq (hfilled.shutdown x hx₃) (linker.errors x)
      obtain rfl : plugin = w₄.mem x := Option.some.inj (he.symm.trans (hgone₄ x hx₃ hv))
      rw [show w'.mem x = w₄.mem x from rfl, hcalls, habsent]
  · rintro x hxt ⟨row, hrow, hrowkey⟩
    have hx := (hin x).mpr ⟨hfilled.mem x hxt, hvisited x hxt ⟨row, hrow, hrowkey⟩⟩
    rw [hmem x hx, hfilled.found x hxt row hrow hrowkey]
    exact ⟨hx, rfl, rfl, rfl⟩
  · intro x hx hxt
    obtain ⟨row, -, hcarries, -, hloads⟩ := hfilled.new x ((hin x).mp hx).1 hxt
    rw [hmem x hx, hloads, hcarries.preload]
  · intro x hx
    rw [hmem x hx]
    exact hfilled.old x ((hin x).mp hx).1
  · intro x hx
    rw [hmem x hx]
    exact hfilled.shutdown x ((hin x).mp hx).1

end Reload

/-! The plugins of a bot that has just been started. -/

def noPlugins : World ℕ where
  pointers := ⟨⟨fun _ ↦ none, fun _ ↦ none, fun _ ↦ none⟩, none⟩
  owner _ := none
  mutex := false
  mem _ := .cleared
  live := []

theorem noPlugins_settled : Settled noPlugins .nil where
  holds := ⟨rfl, trivial, List.nodup_nil⟩
  increasing := List.Pairwise.nil
  owner _ h := absurd h List.not_mem_nil
  live _ h := absurd h List.not_mem_nil
  mutex := rfl
  old _ h := absurd h List.not_mem_nil
  shutdown _ h := absurd h List.not_mem_nil

def twoRows : List Row :=
  [⟨['d', 'n', 's'], ['d'], ['1'], []⟩, ⟨['c', 'r', 'o', 'n'], ['c'], ['0'], []⟩]

def goodLinker : Linker ℕ := ⟨fun _ ↦ ⟨some 1, some 2, some 3⟩, fun _ ↦ false⟩

theorem pluginsSighup_reloaded_twoRows :
    (twoRows.map Row.key).Nodup ∧ ∃ w' t',
      pluginsSighup firstFree 3 noPlugins (some twoRows) goodLinker = some w' ∧
      Reloaded noPlugins w' .nil t' twoRows ∧ Settled w' t' :=
  ⟨by decide, pluginsSighup_reloaded firstFree_not_mem noPlugins_settled (by decide)
    (Nat.le_refl 3) goodLinker⟩

end Beirdobot.Plugins
