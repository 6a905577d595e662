import Beirdobot.BTree.Search
import Beirdobot.Plugins.Model
import Mathlib.Data.List.Perm.Subperm

/-!
# The plugin tree

The tree in memory is an ordered tree of plugins (`Shape`), and what each function
does to it: the walks change the records in place, `getPlugin` fills in a record or
adds one, and the flush loop takes out the plugins that were not visited.
-/

namespace Beirdobot.Plugins

open Library BinaryTree BTree

variable {ι : Type}

/-- The name of a plugin, as the tree compares it. -/
def World.key (w : World ι) (x : ι) : CString := caseless (w.mem x).name

/-- The tree in memory is a tree of live plugins, in the order of their names. -/
structure Shape (w : World ι) (t : BinaryTree ι) : Prop where
  holds : Holds w.pointers t
  increasing : Increasing keyCompareString w.key t.inorder
  owner : ∀ x ∈ t.inorder, w.owner x = some 0
  live : ∀ x ∈ t.inorder, x ∈ w.live

@[simp] theorem setTree_pluginTree (w : World ι) : w.setTree w.pluginTree = w := rfl

theorem lockTree_eq {w : World ι} (h : w.mutex = false) :
    w.lockTree = some { w with mutex := true } := by
  simp [World.lockTree, balancedBTreeLock, World.pluginTree, World.setTree, h]

@[simp] theorem unlockTree_eq (w : World ι) : w.unlockTree = { w with mutex := false } := rfl

namespace Shape

variable {w w' : World ι} {t : BinaryTree ι}

theorem nodup (h : Shape w t) : t.inorder.Nodup := h.holds.nodup

/-- Two plugins of the tree have different names. -/
theorem key_inj (h : Shape w t) {x y : ι} (hx : x ∈ t.inorder) (hy : y ∈ t.inorder)
    (he : w.key x = w.key y) : x = y := by
  obtain ⟨item, -, hitem⟩ := findLoop_eq keyCompareString_strictTotal (s := w.pluginTree)
    h.holds.linked h.increasing (w.key x) t.numNodes (le_refl _)
  have hsome : item = some x := (hitem x).mpr ⟨hx, rfl⟩
  have hsome' : item = some y := (hitem y).mpr ⟨hy, he.symm⟩
  exact Option.some.inj (hsome.symm.trans hsome')

/-- Records that keep their names can change. -/
theorem of_mem (h : Shape w t) (hp : w'.pointers = w.pointers) (ho : w'.owner = w.owner)
    (hl : w'.live = w.live) (hk : ∀ x ∈ t.inorder, w'.key x = w.key x) : Shape w' t where
  holds := hp ▸ h.holds
  increasing := h.increasing.imp_of_mem fun hx hy hxy ↦ by rwa [hk _ hx, hk _ hy]
  owner := ho ▸ h.owner
  live := hl ▸ h.live

theorem numNodes_le [DecidableEq ι] (h : Shape w t) : t.numNodes ≤ w.live.length := by
  rw [← length_inorder]
  exact (List.subperm_of_subset h.nodup h.live).length_le

end Shape

/-! ## Searching -/

/-- A search with the mutex held finds the plugin with the name, if there is one. -/
theorem find_locked {w : World ι} {t : BinaryTree ι} (h : Shape w t) (name : CString)
    {fuel : ℕ} (hf : t.numNodes ≤ fuel) :
    ∃ item, balancedBTreeFind keyCompareString fuel w.pluginTree (some (caseless name)) .locked =
        some (w.pluginTree, item) ∧
      ∀ x, item = some x ↔ x ∈ t.inorder ∧ w.key x = caseless name := by
  obtain ⟨item, he, hitem⟩ := findLoop_eq keyCompareString_strictTotal (s := w.pluginTree)
    h.holds.linked h.increasing (caseless name) fuel hf
  rw [← h.holds.root_eq] at he
  exact ⟨item, by simp only [balancedBTreeFind, enter, leave, Option.bind_eq_bind,
    Option.bind_some]; rw [show w.pluginTree.root = w.pointers.root from rfl, he]; rfl, hitem⟩

theorem findPlugin_eq {w : World ι} {t : BinaryTree ι} (h : Shape w t) (hm : w.mutex = false)
    (name : CString) {fuel : ℕ} (hf : t.numNodes ≤ fuel) :
    ∃ item, findPlugin fuel w name = some (w, item) ∧
      ∀ x, item = some x ↔ x ∈ t.inorder ∧ w.key x = caseless name := by
  obtain ⟨item, he, hitem⟩ := find_locked (w := { w with mutex := true }) (t := t)
    (h.of_mem rfl rfl rfl fun _ _ ↦ rfl) name hf
  refine ⟨item, ?_, hitem⟩
  have hlock : balancedBTreeLock w.pluginTree =
      some (World.pluginTree { w with mutex := true }) := by
    simp [balancedBTreeLock, World.pluginTree, hm]
  simp only [balancedBTreeFind, enter, leave, Option.bind_eq_bind, Option.bind_some] at he
  simp only [findPlugin, balancedBTreeFind, enter, leave, hlock, Option.bind_eq_bind,
    Option.bind_some]
  obtain ⟨item', hloop, hsome⟩ := Option.bind_eq_some_iff.mp he
  cases hsome
  rw [hloop]
  simp [World.setTree, World.pluginTree, balancedBTreeUnlock, ← hm]

/-! ## Walks -/

section Walks

variable [DecidableEq ι] {w : World ι} {t : BinaryTree ι}

theorem walkTree_eq {visit : ι → Plugin → Option Plugin} {q : Option ι}
    (ht : Linked w.pointers.toLinks q t) (hn : t.inorder.Nodup)
    (hv : ∀ x ∈ t.inorder, (visit x (w.mem x)).isSome) {fuel : ℕ} (hf : t.numNodes ≤ fuel) :
    ∃ mem, walkTree visit fuel w t.top = some { w with mem } ∧
      (∀ x ∈ t.inorder, visit x (w.mem x) = some (mem x)) ∧
      ∀ x, x ∉ t.inorder → mem x = w.mem x := by
  induction t generalizing w q fuel with
  | nil => exact ⟨w.mem, by cases fuel <;> rfl, by simp, fun _ _ ↦ rfl⟩
  | node x l r ihl ihr =>
      obtain ⟨-, hl, hr, htl, htr⟩ := ht
      obtain ⟨hnl, hnr, hxl, hxr, hlr⟩ := nodup_node.mp hn
      cases fuel with
      | zero => simp at hf
      | succ fuel =>
          simp only [numNodes] at hf
          -- the left subtree, the plugin itself, the right subtree
          obtain ⟨mem₁, he₁, hmem₁, hrest₁⟩ :=
            ihl htl hnl (fun y hy ↦ hv y (by simp [hy])) (by omega : l.numNodes ≤ fuel)
          obtain ⟨plugin, hplugin⟩ := Option.isSome_iff_exists.mp (hv x (by simp))
          let w₂ : World ι := World.write { w with mem := mem₁ } x plugin
          have hmem₂ : ∀ y ∈ r.inorder, w₂.mem y = w.mem y := by
            intro y hy
            have hyx : y ≠ x := fun e ↦ hxr (e ▸ hy)
            have hyl : y ∉ l.inorder := fun e ↦ hlr y e hy
            rw [show w₂.mem y = mem₁ y from Function.update_of_ne hyx .., hrest₁ y hyl]
          obtain ⟨mem, he, hmem, hrest⟩ := ihr (w := w₂) htr hnr
            (fun y hy ↦ by rw [hmem₂ y hy]; exact hv y (by simp [hy]))
            (by omega : r.numNodes ≤ fuel)
          refine ⟨mem, ?_, ?_, ?_⟩
          · simp only [top_node, walkTree, hl, he₁, Option.bind_eq_bind, Option.bind_some,
              hrest₁ x hxl, hplugin]
            show walkTree visit fuel w₂ (w.pointers.right x) = _
            rw [hr]
            exact he
          · intro y hy
            simp only [inorder_node, List.mem_append, List.mem_cons] at hy
            rcases hy with hy | rfl | hy
            · have hyr : y ∉ r.inorder := hlr y hy
              have hyx : y ≠ x := fun e ↦ hxl (e ▸ hy)
              rw [hrest y hyr, show w₂.mem y = mem₁ y from Function.update_of_ne hyx ..]
              exact hmem₁ y hy
            · rw [hrest y hxr, show w₂.mem y = plugin from Function.update_self ..]
              exact hplugin
            · rw [← hmem₂ y hy]
              exact hmem y hy
          · intro y hy
            simp only [inorder_node, List.mem_append, List.mem_cons, not_or] at hy
            obtain ⟨hyl, hyx, hyr⟩ := hy
            rw [hrest y hyr, show w₂.mem y = mem₁ y from Function.update_of_ne hyx ..,
              hrest₁ y hyl]

/-- A walk over the whole tree changes each plugin once, and nothing else. -/
theorem Shape.walk (h : Shape w t) (visit : ι → Plugin → Option Plugin)
    (hv : ∀ x ∈ t.inorder, (visit x (w.mem x)).isSome)
    (hname : ∀ x p p', visit x p = some p' → p'.name = p.name) {fuel : ℕ}
    (hf : t.numNodes ≤ fuel) :
    ∃ mem, walkTree visit fuel w w.pointers.root = some { w with mem } ∧
      Shape { w with mem } t ∧ (∀ x ∈ t.inorder, visit x (w.mem x) = some (mem x)) ∧
      ∀ x, x ∉ t.inorder → mem x = w.mem x := by
  obtain ⟨mem, he, hmem, hrest⟩ := walkTree_eq h.holds.linked h.nodup hv hf
  rw [← h.holds.root_eq] at he
  refine ⟨mem, he, h.of_mem rfl rfl rfl fun x hx ↦ ?_, hmem, hrest⟩
  rw [World.key, World.key, hname x _ _ (hmem x hx)]

theorem loadItem_config (plugin : Plugin) (o : LoadOutcome) :
    (loadItem plugin o).name = plugin.name ∧ (loadItem plugin o).libName = plugin.libName ∧
      (loadItem plugin o).preload = plugin.preload ∧ (loadItem plugin o).args = plugin.args ∧
      (loadItem plugin o).visited = plugin.visited ∧ (loadItem plugin o).loads = plugin.loads := by
  simp only [loadItem]
  split
  · exact ⟨rfl, rfl, rfl, rfl, rfl, rfl⟩
  · split
    · exact ⟨rfl, rfl, rfl, rfl, rfl, rfl⟩
    · split <;> exact ⟨rfl, rfl, rfl, rfl, rfl, rfl⟩

theorem initializeItem_name (plugin : Plugin) (o : LoadOutcome) :
    (initializeItem plugin o).name = plugin.name := by
  unfold initializeItem
  split
  · split
    · exact (loadItem_config _ o).1
    · rfl
  · rfl

theorem Shape.unvisit (h : Shape w t) {fuel : ℕ} (hf : t.numNodes ≤ fuel) :
    ∃ mem, pluginUnvisitTree fuel w w.pointers.root = some { w with mem } ∧
      Shape { w with mem } t ∧ ∀ x ∈ t.inorder, mem x = { w.mem x with visited := false } := by
  obtain ⟨mem, he, h', hmem, -⟩ := h.walk
    (fun _ plugin ↦ some { plugin with visited := false }) (fun _ _ ↦ rfl)
    (by rintro x p p' e; cases e; rfl) hf
  exact ⟨mem, he, h', fun x hx ↦ (Option.some.inj (hmem x hx)).symm⟩

theorem Shape.initItems (h : Shape w t) (loads : ι → LoadOutcome) {fuel : ℕ}
    (hf : t.numNodes ≤ fuel) :
    ∃ mem, pluginInitializeTree loads fuel w w.pointers.root = some { w with mem } ∧
      Shape { w with mem } t ∧ ∀ x ∈ t.inorder, mem x = initializeItem (w.mem x) (loads x) := by
  obtain ⟨mem, he, h', hmem, -⟩ := h.walk
    (fun x plugin ↦ some (initializeItem plugin (loads x))) (fun _ _ ↦ rfl)
    (by rintro x p p' e; cases e; exact initializeItem_name p _) hf
  exact ⟨mem, he, h', fun x hx ↦ (Option.some.inj (hmem x hx)).symm⟩

end Walks

/-! ## Adding and removing -/

section Edits

variable [DecidableEq ι] {malloc : List ι → ι} {w : World ι} {t : BinaryTree ι} {fuel : ℕ}

/-- Filling in the row of a plugin keeps its name, as the tree compares it. -/
theorem Shape.write (h : Shape w t) {x : ι} {plugin : Plugin}
    (hname : x ∈ t.inorder → caseless plugin.name = w.key x) : Shape (w.write x plugin) t := by
  refine h.of_mem rfl rfl rfl fun y hy ↦ ?_
  by_cases hyx : y = x
  · subst hyx
    rw [World.key, show (w.write y plugin).mem y = plugin from Function.update_self ..]
    exact hname hy
  · rw [World.key, World.key, show (w.write x plugin).mem y = w.mem y from
      Function.update_of_ne hyx ..]

theorem getPlugin_found (h : Shape w t) {row : Row} {x : ι} (hx : x ∈ t.inorder)
    (hkey : w.key x = caseless row.pluginName) (hf : t.numNodes ≤ fuel) :
    getPlugin malloc fuel w row = some (w.write x (fillIn (w.mem x) row)) := by
  obtain ⟨item, he, hitem⟩ := find_locked h row.pluginName hf
  rw [(hitem x).mpr ⟨hx, hkey⟩] at he
  simp only [getPlugin, he, Option.bind_eq_bind, Option.bind_some, setTree_pluginTree]

theorem getPlugin_new (h : Shape w t) {row : Row}
    (hkey : ∀ x ∈ t.inorder, w.key x ≠ caseless row.pluginName)
    (hmalloc : malloc w.live ∉ w.live) (hf : t.numNodes + 2 ≤ fuel) :
    ∃ w' t', getPlugin malloc fuel w row = some w' ∧ Shape w' t' ∧
      t'.inorder.Perm (malloc w.live :: t.inorder) ∧
      w'.mem = Function.update w.mem (malloc w.live) (fillIn newPlugin row) ∧
      w'.live = malloc w.live :: w.live ∧ w'.mutex = w.mutex := by
  let x := malloc w.live
  let w₁ : World ι := { w.write x (fillIn newPlugin row) with live := x :: w.live }
  have hx : x ∉ t.inorder := fun hx ↦ hmalloc (h.live x hx)
  have hkey₁ : ∀ y ∈ t.inorder, w₁.key y = w.key y := by
    intro y hy
    have hyx : y ≠ x := fun e ↦ hx (e ▸ hy)
    rw [World.key, World.key, show w₁.mem y = w.mem y from Function.update_of_ne hyx ..]
  have hkeyx : w₁.key x = caseless row.pluginName := by
    rw [World.key, show w₁.mem x = fillIn newPlugin row from Function.update_self ..]
    rfl
  have hinc : Increasing keyCompareString w₁.key t.inorder :=
    h.increasing.imp_of_mem fun hy hz hyz ↦ by rwa [hkey₁ _ hy, hkey₁ _ hz]
  obtain ⟨c, p, t', ht, he, hp, hin, hinc', -⟩ := add_holds keyCompareString_strictTotal
    (s := w₁.pluginTree) h.holds hinc hx
    (fun y hy ↦ by
      show w₁.key y ≠ w₁.key x
      rw [hkey₁ y hy, hkeyx]
      exact hkey y hy)
    .locked nofun false fuel hf
  have hperm : t'.inorder.Perm (x :: t.inorder) := by
    have hlist : t.inorder = before c ++ after c := by rw [ht, inorder_plug]; simp
    rw [hin, hlist]
    exact List.perm_middle
  obtain ⟨item, hfind, hitem⟩ := find_locked h row.pluginName (by omega : t.numNodes ≤ fuel)
  have hnone : item = none := by
    refine Option.eq_none_iff_forall_ne_some.mpr fun y hy ↦ ?_
    obtain ⟨hy, hyk⟩ := (hitem y).mp hy
    exact hkey y hy hyk
  rw [hnone] at hfind
  let w' : World ι := { w₁ with
    pointers := p
    owner := Function.update w.owner x (some 0) }
  refine ⟨w', t', ?_, ⟨hp, hinc', ?_, ?_⟩, hperm, rfl, rfl, rfl⟩
  · simp only [getPlugin, hfind, Option.bind_eq_bind, Option.bind_some, setTree_pluginTree]
    exact Option.bind_eq_some_iff.mpr ⟨_, he, rfl⟩
  · intro y hy
    show Function.update w.owner x (some 0) y = some 0
    by_cases hyx : y = x
    · rw [hyx, Function.update_self]
    · rw [Function.update_of_ne hyx]
      exact h.owner y ((List.mem_cons.mp (hperm.mem_iff.mp hy)).resolve_left hyx)
  · intro y hy
    rcases List.mem_cons.mp (hperm.mem_iff.mp hy) with rfl | hy
    · exact List.mem_cons_self
    · exact List.mem_cons_of_mem _ (h.live y hy)

theorem rebalanceTree_eq (h : Shape w t) (hf : t.numNodes + 1 ≤ fuel) :
    ∃ p t', rebalanceTree fuel w = some { w with pointers := p } ∧
      Shape { w with pointers := p } t' ∧ t'.inorder = t.inorder ∧ t'.Balanced := by
  obtain ⟨p, t', he, hp, hi, hb⟩ := rebalanceIf_holds (s := w.pluginTree) h.holds true fuel hf
  refine ⟨p, t', ?_, ⟨hp, hi ▸ h.increasing, hi ▸ h.owner, hi ▸ h.live⟩, hi, hb rfl⟩
  simp only [rebalanceTree, balancedBTreeAdd, enter, leave, Option.bind_eq_bind, Option.bind_some,
    he]
  rfl

/-- A removed plugin is shut down if it was loaded. -/
theorem removePlugin_eq {errors : ι → Bool} {x : ι} {plugin : Plugin} (h : Shape w t)
    (hx : x ∈ t.inorder) (hf : t.numNodes ≤ fuel)
    (hplugin : unloadLoaded (w.mem x) (errors x) = some plugin) :
    ∃ w' t', removePlugin errors fuel w x = some w' ∧ Shape w' t' ∧
      t'.inorder = t.inorder.erase x ∧ w'.mem = Function.update w.mem x plugin ∧
      w'.live = w.live.erase x ∧ w'.mutex = w.mutex := by
  obtain ⟨c, l, r, rfl⟩ := exists_plug_of_mem hx
  obtain ⟨p, t', he, hp, hin, -⟩ := remove_holds (s := w.pluginTree) h.holds (h.owner x hx)
    .locked nofun false fuel hf
  have hold : (plug c (node x l r)).inorder =
      (before c ++ l.inorder) ++ x :: (r.inorder ++ after c) := by
    rw [inorder_plug, inorder_node]
    simp
  have hnew : t'.inorder = (plug c (node x l r)).inorder.erase x := by
    have hnodup := h.nodup
    rw [hold] at hnodup ⊢
    have hbefore : x ∉ before c ++ l.inorder := by
      have hdisj := (List.nodup_append.mp hnodup).2.2
      exact fun hmem ↦ hdisj x hmem x List.mem_cons_self rfl
    rw [List.erase_append_right _ hbefore, List.erase_cons_head, hin]
    simp
  have hsub : ∀ y ∈ t'.inorder, y ∈ (plug c (node x l r)).inorder ∧ y ≠ x := by
    intro y hy
    rw [hnew] at hy
    exact ⟨List.mem_of_mem_erase hy, fun e ↦ h.nodup.not_mem_erase (e ▸ hy)⟩
  let w' : World ι := { w with
    pointers := p
    owner := Function.update w.owner x none
    mem := Function.update w.mem x plugin
    live := w.live.erase x }
  have hkey : ∀ y, y ≠ x → w'.key y = w.key y := by
    intro y hyx
    rw [World.key, World.key, show w'.mem y = w.mem y from Function.update_of_ne hyx ..]
  refine ⟨w', t', ?_, ⟨hp, ?_, ?_, ?_⟩, hnew, rfl, rfl, rfl⟩
  · simp only [removePlugin, Option.bind_eq_bind]
    rw [he, Option.bind_some, show (w.setTree _).mem x = w.mem x from rfl, hplugin]
    rfl
  · have hsublist : t'.inorder.Sublist (plug c (node x l r)).inorder := by
      rw [hnew]
      exact List.erase_sublist
    have hinc := h.increasing.sublist hsublist
    refine hinc.imp_of_mem fun hy hz hyz ↦ ?_
    rwa [hkey _ (hsub _ hy).2, hkey _ (hsub _ hz).2]
  · intro y hy
    rw [show w'.owner y = w.owner y from Function.update_of_ne (hsub y hy).2 ..]
    exact h.owner y (hsub y hy).1
  · intro y hy
    exact (List.mem_erase_of_ne (hsub y hy).2).mpr (h.live y (hsub y hy).1)

end Edits

/-! ## Flushing -/

section Flush

variable [DecidableEq ι] {errors : ι → Bool} {w : World ι} {t : BinaryTree ι} {fuel : ℕ}

/-- One call of `pluginFlushUnvisited` removes the first plugin that was not visited. -/
theorem pluginFlushUnvisited_eq {q : Option ι} (ht : Linked w.pointers.toLinks q t) {depth : ℕ}
    (hd : t.numNodes ≤ depth) :
    pluginFlushUnvisited errors fuel depth w t.top =
      match t.inorder.find? fun x ↦ !(w.mem x).visited with
      | none => some (w, false)
      | some x => (removePlugin errors fuel w x).map (·, true) := by
  induction t generalizing q depth with
  | nil => cases depth <;> rfl
  | node x l r ihl ihr =>
      obtain ⟨-, hl, hr, htl, htr⟩ := ht
      cases depth with
      | zero => simp at hd
      | succ depth =>
          simp only [numNodes] at hd
          rw [top_node, pluginFlushUnvisited, hl, ihl htl (by omega), inorder_node,
            List.find?_append]
          cases hfl : l.inorder.find? fun x ↦ !(w.mem x).visited with
          | some y =>
              cases hy : removePlugin errors fuel w y with
              | none => simp [hy]
              | some w' => simp [hy]
          | none =>
              cases hv : (w.mem x).visited with
              | false =>
                  cases hx : removePlugin errors fuel w x with
                  | none => simp [hv, hx]
                  | some w' => simp [hv, hx]
              | true => simpa [hv, hr] using ihr htr (by omega : r.numNodes ≤ depth)

/-- The loop removes the plugins that were not visited, and shuts down those that
were loaded. -/
theorem flushLoop_eq (h : Shape w t)
    (hunload : ∀ x ∈ t.inorder, (w.mem x).visited = false →
      (unloadLoaded (w.mem x) (errors x)).isSome)
    {turns : ℕ} (hturns : t.numNodes < turns) (hf : t.numNodes ≤ fuel) :
    ∃ w' t', flushLoop errors fuel turns w = some w' ∧ Shape w' t' ∧
      t'.inorder = t.inorder.filter (fun x ↦ (w.mem x).visited) ∧ w'.mutex = w.mutex ∧
      (∀ x ∈ t.inorder, (w.mem x).visited = false →
        unloadLoaded (w.mem x) (errors x) = some (w'.mem x)) ∧
      ∀ x, (x ∈ t.inorder → (w.mem x).visited = true) → w'.mem x = w.mem x := by
  induction turns generalizing w t with
  | zero => omega
  | succ turns ih =>
      have hflush : pluginFlushUnvisited errors fuel fuel w w.pointers.root = _ :=
        h.holds.root_eq ▸ pluginFlushUnvisited_eq h.holds.linked hf
      cases hfind : t.inorder.find? fun x ↦ !(w.mem x).visited with
      | none =>
          have hall : ∀ x ∈ t.inorder, (w.mem x).visited = true := by
            simpa using List.find?_eq_none.mp hfind
          rw [hfind] at hflush
          refine ⟨w, t, ?_, h, (List.filter_eq_self.mpr hall).symm, rfl, ?_, fun _ _ ↦ rfl⟩
          · simp [flushLoop, hflush]
          · intro x hx hv
            rw [hall x hx] at hv
            cases hv
      | some x =>
          have hx : x ∈ t.inorder := List.mem_of_find?_eq_some hfind
          have hvx : (w.mem x).visited = false := by simpa using List.find?_some hfind
          obtain ⟨plugin, hplugin⟩ := Option.isSome_iff_exists.mp (hunload x hx hvx)
          obtain ⟨w₁, t₁, he₁, h₁, hin₁, hmem₁, -, hm₁⟩ := removePlugin_eq h hx hf hplugin
          have hsize : t₁.numNodes + 1 = t.numNodes := by
            rw [← length_inorder, ← length_inorder, hin₁, List.length_erase_of_mem hx]
            have := List.length_pos_of_mem hx
            omega
          have hmem : ∀ y, y ≠ x → w₁.mem y = w.mem y := by
            intro y hy
            rw [hmem₁, Function.update_of_ne hy]
          have hin : ∀ y, y ∈ t₁.inorder ↔ y ≠ x ∧ y ∈ t.inorder := by
            intro y
            rw [hin₁, h.nodup.mem_erase_iff]
          obtain ⟨w', t', he, h', hin', hm', hgone, hkept⟩ := ih h₁
            (fun y hy hv ↦ by
              obtain ⟨hyx, hy⟩ := (hin y).mp hy
              rw [hmem y hyx] at hv ⊢
              exact hunload y hy hv)
            (by omega) (by omega)
          have hx₁ : x ∉ t₁.inorder := fun hx₁ ↦ ((hin x).mp hx₁).1 rfl
          refine ⟨w', t', ?_, h', ?_, hm'.trans hm₁, ?_, ?_⟩
          · rw [hfind] at hflush
            simp only [flushLoop, hflush, he₁, Option.map_some, Option.bind_eq_bind,
              Option.bind_some, if_true]
            exact he
          · rw [hin', hin₁, h.nodup.erase_eq_filter, List.filter_filter]
            refine List.filter_congr fun y _ ↦ ?_
            by_cases hyx : y = x
            · subst hyx
              simp [hvx]
            · simp [hyx, hmem y hyx]
          · intro y hy hv
            by_cases hyx : y = x
            · subst hyx
              rw [hkept y fun hy₁ ↦ absurd hy₁ hx₁, hmem₁, Function.update_self]
              exact hplugin
            · rw [← hmem y hyx] at hv ⊢
              exact hgone y ((hin y).mpr ⟨hyx, hy⟩) hv
          · intro y hy
            have hyx : y ≠ x := by
              rintro rfl
              rw [hy hx] at hvx
              cases hvx
            rw [hkept y fun hy₁ ↦ by rw [hmem y hyx]; exact hy ((hin y).mp hy₁).2, hmem y hyx]

end Flush

end Beirdobot.Plugins
