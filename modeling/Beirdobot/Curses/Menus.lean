import Beirdobot.Libc
import Beirdobot.Library.BinaryTree
import Beirdobot.Library.System
import Mathlib.Data.Int.Order.Basic

/-!
# The entries of the menus

A transcription of what `curses.c` does to the entries of the menus: `cursesMenuItemAdd`,
`cursesMenuItemRemove`, `cursesMenuItemFind`, `cursesMenuSetIndex` and
`cursesMenuRegenerate`, in steps between which other threads run.  A change of a tree, a
search of it and the regeneration of one array are each done under the mutex of the tree.
-/

namespace Beirdobot.Curses.Menus

open Library

/-- A `CursesMenuItem_t` of a menu, with the address of its `ITEM`. -/
structure Entry where
  item : ℕ
  text : CString
  deriving DecidableEq

/-! ## Recursions over a tree -/

/-- `cursesRecurseMenuItemFind`: whether the text was found, and what is left in `*pIndex`. -/
def cursesRecurseMenuItemFind : BinaryTree Entry → CString → ℤ → Bool × ℤ
  | .nil, _, index => (false, index)
  | .node entry left right, string, index =>
      match cursesRecurseMenuItemFind left string index with
      | (true, index) => (true, index)
      | (false, index) =>
          if entry.text = string then (true, index + 1)
          else cursesRecurseMenuItemFind right string (index + 1)

/-- `cursesItemCountRecurse` -/
def cursesItemCountRecurse : BinaryTree Entry → ℕ
  | .nil => 0
  | .node _ left right => cursesItemCountRecurse left + 1 + cursesItemCountRecurse right

/-- `cursesItemAddRecurse`; `start` is the length of what is in the array. -/
def cursesItemAddRecurse (items : List ℕ) : BinaryTree Entry → List ℕ
  | .nil => items
  | .node entry left right =>
      cursesItemAddRecurse (cursesItemAddRecurse items left ++ [entry.item]) right

/-- What `BalancedBTreeAdd` makes of the entries of a tree, whose keys are compared without
regard to case. -/
def addEntry (entries : List Entry) (entry : Entry) : List Entry :=
  if entries.any fun other ↦ sameIgnoringCase other.text entry.text then entries
  else
    (entries.takeWhile fun other ↦ caseless other.text < caseless entry.text) ++
      entry :: entries.dropWhile fun other ↦ caseless other.text < caseless entry.text

/-- What `BalancedBTreeRemove` makes of them, once `BalancedBTreeFind` has found the text. -/
def removeEntry (entries : List Entry) (string : CString) : List Entry :=
  entries.eraseP fun other ↦ sameIgnoringCase other.text string

/-! ## The threads -/

/-- `CursesMenu_t`: the array, without the null pointer at its end, and whether its `MENU` is
there. -/
structure Menu where
  items : Option (List ℕ)
  live : Bool
  current : ℤ
  deriving DecidableEq

/-- How far `cursesMenuRegenerate` is: the menus have been freed, or `menu1Tree` is locked
and the arrays of some menus are yet to be filled. -/
inductive Phase
  | started
  | filling (menuIds : List ℕ)
  deriving DecidableEq

/-- What `cursesMenuItemFind` has returned, and the entries that it has searched. -/
structure Found where
  menuId : ℕ
  text : CString
  index : ℤ
  searched : List Entry
  deriving DecidableEq

/-- What `cursesMenuSetIndex` has made current; nothing where it has read outside of the array,
or an item or a menu that has been freed. -/
structure Selection where
  text : CString
  made : Option Entry
  deriving DecidableEq

/-- `menus menuId` is `menus[menuId+1]`, of which there are `menusCount` with the main menu.
`unsent` threads have changed a tree and are yet to queue their message. -/
structure State where
  trees : ℕ → Option (BinaryTree Entry)
  nextMenuId : ℕ
  menus : ℕ → Menu
  menusCount : ℕ
  unsent : ℕ
  messages : ℕ
  regenerating : Option Phase
  loaders : ℕ → Option Found
  results : List Found
  selections : List Selection

/-- A change of a tree comes with its new shape. -/
inductive Event
  | addMenu
  | removeMenu (menuId : ℕ)
  | addItem (menuId : ℕ) (entry : Entry) (tree : BinaryTree Entry)
  | removeItem (menuId : ℕ) (string : CString) (tree : BinaryTree Entry)
  | enqueue
  | regenerate
  | lockMenus
  | fillMenu
  | recreate
  | find (loader menuId : ℕ) (string : CString)
  | setIndex (loader : ℕ)

namespace State

variable (s : State)

/-- The entries of a menu. -/
def entries (menuId : ℕ) : List Entry :=
  match s.trees menuId with
  | none => []
  | some tree => tree.inorder

/-- The addresses that are in use. -/
def addresses : List ℕ := (List.range s.nextMenuId).flatMap fun menuId ↦
  (s.entries menuId).map Entry.item

/-- `cursesMenuItemFind( 2, menuId, string )` -/
def cursesMenuItemFind (menuId : ℕ) (string : CString) : Found where
  menuId := menuId
  text := string
  index :=
    match s.trees menuId with
    | none => -1
    | some tree => (cursesRecurseMenuItemFind tree string (-1)).2
  searched := s.entries menuId

/-- The entry that `cursesMenuSetIndex` makes current. -/
def made (f : Found) : Option Entry :=
  if (s.menus f.menuId).live = true ∧ f.menuId + 1 < s.menusCount ∧ 0 ≤ f.index then
    match (s.menus f.menuId).items with
    | none => none
    | some items =>
        match items[f.index.toNat]? with
        | none => none
        | some item => (s.entries f.menuId).find? fun entry ↦ entry.item = item
  else none

/-- `cursesSubmenuRegenerate`, for a menu that has a tree. -/
def fill (menuId : ℕ) : State :=
  match s.trees menuId with
  | none => s
  | some tree =>
      { s with
        menus := Function.update s.menus menuId
          { s.menus menuId with items := some (cursesItemAddRecurse [] tree) } }

/-- One step.  Between the removal of an entry or a menu and the freeing of its items the
trees are the same, so that both are one step. -/
def step : Event → Option State
  | .addMenu =>
      -- `menu1Tree` is locked while the arrays are filled
      if s.regenerating = none ∨ s.regenerating = some .started then
        some { s with
          trees := Function.update s.trees s.nextMenuId (some .nil)
          nextMenuId := s.nextMenuId + 1
          unsent := s.unsent + 1 }
      else none
  | .removeMenu menuId =>
      if (s.regenerating = none ∨ s.regenerating = some .started) ∧ 4 ≤ menuId ∧
          (s.trees menuId).isSome then
        some { s with trees := Function.update s.trees menuId none, unsent := s.unsent + 1 }
      else none
  | .addItem menuId entry tree =>
      match s.trees menuId with
      | none => some s
      | some old =>
          if entry.item ∉ s.addresses ∧ tree.inorder = addEntry old.inorder entry then
            some { s with
              trees := Function.update s.trees menuId (some tree)
              unsent := s.unsent + 1 }
          else none
  | .removeItem menuId string tree =>
      match s.trees menuId with
      | none => some s
      | some old =>
          if old.inorder.any fun other ↦ sameIgnoringCase other.text string then
            if tree.inorder = removeEntry old.inorder string then
              some { s with
                trees := Function.update s.trees menuId (some tree)
                unsent := s.unsent + 1 }
            else none
          else some s
  | .enqueue =>
      if s.unsent = 0 then none
      else some { s with unsent := s.unsent - 1, messages := s.messages + 1 }
  | .regenerate =>
      if s.messages = 0 ∨ s.regenerating ≠ none then none
      else
        some { s with
          messages := s.messages - 1
          menusCount := max s.menusCount (s.nextMenuId + 1)
          menus := fun menuId ↦ { s.menus menuId with live := false }
          regenerating := some .started }
  | .lockMenus =>
      if s.regenerating = some .started then
        some { s with
          regenerating := some (.filling ((List.range s.nextMenuId).filter fun menuId ↦
            -- this lets the menu right behind the last one through
            (s.trees menuId).isSome && menuId < s.menusCount)) }
      else none
  | .fillMenu =>
      match s.regenerating with
      | some (.filling (menuId :: menuIds)) =>
          some { s.fill menuId with regenerating := some (.filling menuIds) }
      | _ => none
  | .recreate =>
      if s.regenerating = some (.filling []) then
        some { s with
          menus := fun menuId ↦ { s.menus menuId with live := (s.menus menuId).items.isSome }
          regenerating := none }
      else none
  | .find loader menuId string =>
      let found := s.cursesMenuItemFind menuId string
      some { s with
        loaders := Function.update s.loaders loader (some found)
        results := s.results ++ [found] }
  | .setIndex loader =>
      match s.loaders loader with
      | none => none
      | some found =>
          -- `if( index != -1 )`
          if found.index = -1 then none
          else
            some { s with
              menus := Function.update s.menus found.menuId
                { s.menus found.menuId with current := found.index }
              loaders := Function.update s.loaders loader none
              selections := s.selections ++ [⟨found.text, s.made found⟩] }

end State

/-- The menus after `cursesMenuInitialize`. -/
def State.initial : State where
  trees menuId := if menuId < 4 then some .nil else none
  nextMenuId := 4
  menus menuId := if menuId < 4 then ⟨some [], true, 0⟩ else ⟨none, false, 0⟩
  menusCount := 5
  unsent := 0
  messages := 0
  regenerating := none
  loaders _ := none
  results := []
  selections := []

def system : System State Event where
  init s := s = State.initial
  step := State.step

/-- The index is −1 exactly where there is no such entry, and what is made current is the entry
with the text. -/
structure Right (s : State) : Prop where
  found : ∀ f ∈ s.results, f.index = -1 ↔ ∀ entry ∈ f.searched, entry.text ≠ f.text
  selected : ∀ c ∈ s.selections, ∃ entry, c.made = some entry ∧ entry.text = c.text

/-- A text is searched in a menu that has it, or has no entries at all; and an index is used
while the menu has just the entries that were searched, and its array was filled with them. -/
def Careful (s : State) : Event → Prop
  | .find _ menuId string =>
      s.entries menuId = [] ∨ ∃ entry ∈ s.entries menuId, entry.text = string
  | .setIndex loader =>
      ∀ f ∈ s.loaders loader, (s.menus f.menuId).live = true ∧ f.menuId + 1 < s.menusCount ∧
        (s.menus f.menuId).items = some (f.searched.map Entry.item) ∧
        s.entries f.menuId = f.searched
  | _ => True

/-! ## The recursions -/

theorem cursesItemAddRecurse_eq (items : List ℕ) (tree : BinaryTree Entry) :
    cursesItemAddRecurse items tree = items ++ tree.inorder.map Entry.item := by
  induction tree generalizing items with
  | nil => exact (List.append_nil _).symm
  | node entry left right ihl ihr =>
      rw [cursesItemAddRecurse, ihl, ihr, BinaryTree.inorder_node, List.map_append, List.map_cons]
      simp only [List.append_assoc, List.singleton_append]

/-- The array is as long as what is put in it. -/
theorem length_cursesItemAddRecurse (tree : BinaryTree Entry) :
    (cursesItemAddRecurse [] tree).length = cursesItemCountRecurse tree := by
  rw [cursesItemAddRecurse_eq, List.nil_append, List.length_map]
  induction tree with
  | nil => rfl
  | node entry left right ihl ihr =>
      rw [BinaryTree.inorder_node, List.length_append, List.length_cons, ihl, ihr,
        cursesItemCountRecurse]
      omega

/-- The place of the first entry with a text. -/
def place (entries : List Entry) (string : CString) : ℕ :=
  entries.findIdx fun entry ↦ entry.text = string

theorem place_lt {entries : List Entry} {string : CString}
    (h : ∃ entry ∈ entries, entry.text = string) : place entries string < entries.length := by
  obtain ⟨entry, hentry, htext⟩ := h
  exact List.findIdx_lt_length_of_exists ⟨entry, hentry, decide_eq_true htext⟩

theorem getElem?_place {entries : List Entry} {string : CString}
    (h : ∃ entry ∈ entries, entry.text = string) :
    ∃ entry, entries[place entries string]? = some entry ∧ entry.text = string := by
  have hlt := place_lt h
  exact ⟨entries[place entries string], List.getElem?_eq_getElem hlt,
    of_decide_eq_true (List.findIdx_getElem (w := hlt))⟩

/-- The place in the list of a node. -/
theorem place_node {entry : Entry} {left right : List Entry} {string : CString} :
    place (left ++ entry :: right) string =
      if place left string < left.length then place left string
      else if entry.text = string then left.length
      else left.length + place right string + 1 := by
  rw [place, List.findIdx_append, List.findIdx_cons]
  change (if place left string < left.length then place left string else _) = _
  by_cases hlt : place left string < left.length
  · rw [if_pos hlt, if_pos hlt]
  · rw [if_neg hlt, if_neg hlt]
    by_cases htext : entry.text = string
    · rw [if_pos htext, decide_eq_true htext, cond_true, Nat.zero_add]
    · rw [if_neg htext, decide_eq_false htext, cond_false]
      change place right string + 1 + left.length = _
      omega

/-- Where there is no entry, the recursion counts all of them. -/
theorem find_of_not_mem {tree : BinaryTree Entry} {string : CString}
    (h : ∀ entry ∈ tree.inorder, entry.text ≠ string) (index : ℤ) :
    cursesRecurseMenuItemFind tree string index = (false, index + tree.inorder.length) := by
  induction tree generalizing index with
  | nil => exact congrArg (Prod.mk false) (Int.add_zero index).symm
  | node entry left right ihl ihr =>
      rw [BinaryTree.inorder_node] at h
      rw [cursesRecurseMenuItemFind, ihl fun e he ↦ h e (List.mem_append_left _ he)]
      dsimp only
      rw [if_neg (h entry (by simp)), ihr fun e he ↦ h e (by simp [he]), BinaryTree.inorder_node,
        List.length_append, List.length_cons]
      congr 1
      omega

/-- The recursion counts up to the entry. -/
theorem find_of_mem {tree : BinaryTree Entry} {string : CString}
    (h : ∃ entry ∈ tree.inorder, entry.text = string) (index : ℤ) :
    cursesRecurseMenuItemFind tree string index =
      (true, index + place tree.inorder string + 1) := by
  induction tree generalizing index with
  | nil =>
      obtain ⟨entry, hentry, -⟩ := h
      cases hentry
  | node entry left right ihl ihr =>
      rw [cursesRecurseMenuItemFind, BinaryTree.inorder_node, place_node]
      by_cases hleft : ∃ e ∈ left.inorder, e.text = string
      · rw [ihl hleft, if_pos (place_lt hleft)]
      · have hnone : ∀ e ∈ left.inorder, e.text ≠ string := fun e he htext ↦
          hleft ⟨e, he, htext⟩
        have hplace : ¬ place left.inorder string < left.inorder.length := by
          rw [Nat.not_lt, place]
          refine Nat.le_of_eq (List.findIdx_eq_length.mpr fun e he ↦ ?_).symm
          exact decide_eq_false (hnone e he)
        rw [find_of_not_mem hnone, if_neg hplace]
        dsimp only
        by_cases htext : entry.text = string
        · rw [if_pos htext, if_pos htext]
        · rw [if_neg htext, if_neg htext, ihr]
          · congr 1
            omega
          · obtain ⟨e, he, hetext⟩ := h
            rw [BinaryTree.inorder_node] at he
            rcases List.mem_append.mp he with he | he
            · exact absurd ⟨e, he, hetext⟩ hleft
            · rcases List.mem_cons.mp he with rfl | he
              · exact absurd hetext htext
              · exact ⟨e, he, hetext⟩

/-! ## Runs -/

section Runs

variable {s s' : State} {e : Event}

theorem searched_eq (s : State) (menuId : ℕ) (string : CString) :
    (s.cursesMenuItemFind menuId string).searched = s.entries menuId := rfl

/-- The index of a text that is there. -/
theorem index_of_mem {menuId : ℕ} {string : CString}
    (h : ∃ entry ∈ s.entries menuId, entry.text = string) :
    (s.cursesMenuItemFind menuId string).index = place (s.entries menuId) string := by
  rw [State.entries] at h
  rw [State.cursesMenuItemFind, State.entries]
  cases htree : s.trees menuId with
  | none =>
      rw [htree] at h
      obtain ⟨entry, hentry, -⟩ := h
      cases hentry
  | some tree =>
      rw [htree] at h
      dsimp only at h ⊢
      rw [find_of_mem h]
      omega

/-- The index in a menu without the text: −1 if it is empty, and else that of its last entry. -/
theorem index_of_not_mem {menuId : ℕ} {string : CString}
    (h : ∀ entry ∈ s.entries menuId, entry.text ≠ string) :
    (s.cursesMenuItemFind menuId string).index = (s.entries menuId).length - 1 := by
  rw [State.entries] at h
  rw [State.cursesMenuItemFind, State.entries]
  cases htree : s.trees menuId with
  | none => rfl
  | some tree =>
      rw [htree] at h
      dsimp only at h ⊢
      rw [find_of_not_mem h]
      omega

/-- `cursesMenuItemFind` answers right exactly where the menu has the text or is empty. -/
theorem index_iff (s : State) (menuId : ℕ) (string : CString) :
    ((s.cursesMenuItemFind menuId string).index = -1 ↔
        ∀ entry ∈ s.entries menuId, entry.text ≠ string) ↔
      s.entries menuId = [] ∨ ∃ entry ∈ s.entries menuId, entry.text = string := by
  by_cases hmem : ∃ entry ∈ s.entries menuId, entry.text = string
  · refine iff_of_true (iff_of_false ?_ ?_) (.inr hmem)
    · rw [index_of_mem hmem]
      omega
    · obtain ⟨entry, hentry, htext⟩ := hmem
      exact fun hall ↦ hall entry hentry htext
  · have hall : ∀ entry ∈ s.entries menuId, entry.text ≠ string := fun entry hentry htext ↦
      hmem ⟨entry, hentry, htext⟩
    rw [index_of_not_mem hall]
    constructor
    · intro h
      have hlength := h.mpr hall
      exact .inl (List.length_eq_zero_iff.mp (by omega))
    · rintro (hnil | hex)
      · rw [hnil]
        exact iff_of_true rfl (by rintro _ ⟨⟩)
      · exact absurd hex hmem

theorem entries_update {menuId : ℕ} {tree : Option (BinaryTree Entry)}
    (htrees : s'.trees = Function.update s.trees menuId tree) (k : ℕ) :
    s'.entries k = if k = menuId then (tree.elim [] BinaryTree.inorder) else s.entries k := by
  rw [State.entries, htrees, Function.update_apply, State.entries]
  by_cases hk : k = menuId
  · rw [if_pos hk, if_pos hk]
    cases tree <;> rfl
  · rw [if_neg hk, if_neg hk]

theorem nodup_addEntry {entries : List Entry} {entry : Entry}
    (h : (entries.map Entry.item).Nodup) (hnew : entry.item ∉ entries.map Entry.item) :
    ((addEntry entries entry).map Entry.item).Nodup := by
  rw [addEntry]
  split
  · exact h
  · rw [List.map_append, List.map_cons, List.nodup_middle, ← List.map_append,
      List.takeWhile_append_dropWhile]
    exact List.nodup_cons.mpr ⟨hnew, h⟩

theorem nodup_removeEntry {entries : List Entry} (string : CString)
    (h : (entries.map Entry.item).Nodup) :
    ((removeEntry entries string).map Entry.item).Nodup :=
  h.sublist ((List.eraseP_sublist ..).map Entry.item)

/-- The trees have menus, and the items of their entries are apart. -/
structure Sound (s : State) : Prop where
  bounded : ∀ menuId tree, s.trees menuId = some tree → menuId < s.nextMenuId
  nodup : ∀ menuId, ((s.entries menuId).map Entry.item).Nodup

namespace Sound

theorem congr (h : Sound s) (htrees : s'.trees = s.trees)
    (hnext : s.nextMenuId ≤ s'.nextMenuId) : Sound s' := by
  constructor
  · intro menuId tree htree
    rw [htrees] at htree
    exact (h.bounded menuId tree htree).trans_le hnext
  · intro menuId
    rw [State.entries, htrees]
    exact h.nodup menuId

/-- A tree takes another form. -/
theorem update (h : Sound s) {menuId : ℕ} {tree : Option (BinaryTree Entry)}
    (htrees : s'.trees = Function.update s.trees menuId tree)
    (hnext : s.nextMenuId ≤ s'.nextMenuId) (hlt : menuId < s'.nextMenuId)
    (hnodup : ((tree.elim [] BinaryTree.inorder).map Entry.item).Nodup) : Sound s' := by
  constructor
  · intro k t ht
    rw [htrees, Function.update_apply] at ht
    split at ht
    · rename_i hk
      exact hk ▸ hlt
    · exact (h.bounded k t ht).trans_le hnext
  · intro k
    rw [entries_update htrees]
    split
    · exact hnodup
    · exact h.nodup k

/-- What is in a tree is in use. -/
theorem mem_addresses (h : Sound s) {menuId : ℕ} {tree : BinaryTree Entry}
    (htree : s.trees menuId = some tree) {item : ℕ}
    (hitem : item ∈ tree.inorder.map Entry.item) : item ∈ s.addresses := by
  refine List.mem_flatMap.mpr ⟨menuId, List.mem_range.mpr (h.bounded menuId tree htree), ?_⟩
  rw [State.entries, htree]
  exact hitem

theorem nodup_tree (h : Sound s) {menuId : ℕ} {tree : BinaryTree Entry}
    (htree : s.trees menuId = some tree) : (tree.inorder.map Entry.item).Nodup := by
  have hnodup := h.nodup menuId
  rw [State.entries, htree] at hnodup
  exact hnodup

theorem step (h : Sound s) (he : s.step e = some s') : Sound s' := by
  cases e with
  | addMenu =>
      rw [State.step] at he
      split at he
      · cases he
        exact h.update rfl (Nat.le_succ _) (Nat.lt_succ_self _) List.nodup_nil
      · cases he
  | removeMenu menuId =>
      rw [State.step] at he
      split at he
      · rename_i hguard
        obtain ⟨tree, htree⟩ := Option.isSome_iff_exists.mp hguard.2.2
        cases he
        exact h.update rfl (Nat.le_refl _) (h.bounded menuId tree htree) List.nodup_nil
      · cases he
  | addItem menuId entry tree =>
      rw [State.step] at he
      split at he
      · cases he
        exact h
      · rename_i old hold
        split at he
        · rename_i hguard
          cases he
          refine h.update rfl (Nat.le_refl _) (h.bounded menuId old hold) ?_
          show (tree.inorder.map Entry.item).Nodup
          rw [hguard.2]
          exact nodup_addEntry (h.nodup_tree hold) fun hmem ↦
            hguard.1 (h.mem_addresses hold hmem)
        · cases he
  | removeItem menuId string tree =>
      rw [State.step] at he
      split at he
      · cases he
        exact h
      · rename_i old hold
        split at he
        · split at he
          · rename_i hguard
            cases he
            refine h.update rfl (Nat.le_refl _) (h.bounded menuId old hold) ?_
            show (tree.inorder.map Entry.item).Nodup
            rw [hguard]
            exact nodup_removeEntry string (h.nodup_tree hold)
          · cases he
        · cases he
          exact h
  | enqueue =>
      rw [State.step] at he
      split at he
      · cases he
      · cases he
        exact h.congr rfl (Nat.le_refl _)
  | regenerate =>
      rw [State.step] at he
      split at he
      · cases he
      · cases he
        exact h.congr rfl (Nat.le_refl _)
  | lockMenus =>
      rw [State.step] at he
      split at he
      · cases he
        exact h.congr rfl (Nat.le_refl _)
      · cases he
  | fillMenu =>
      rw [State.step] at he
      split at he
      · cases he
        refine h.congr ?_ (Nat.le_of_eq ?_)
        · show (s.fill _).trees = s.trees
          rw [State.fill]
          split <;> rfl
        · show s.nextMenuId = (s.fill _).nextMenuId
          rw [State.fill]
          split <;> rfl
      · cases he
  | recreate =>
      rw [State.step] at he
      split at he
      · cases he
        exact h.congr rfl (Nat.le_refl _)
      · cases he
  | find loader menuId string =>
      cases he
      exact h.congr rfl (Nat.le_refl _)
  | setIndex loader =>
      rw [State.step] at he
      split at he
      · cases he
      · split at he
        · cases he
        · cases he
          exact h.congr rfl (Nat.le_refl _)

end Sound

/-- What a loader has found is where it says. -/
structure Kept (s : State) : Prop where
  sound : Sound s
  right : Right s
  found : ∀ loader f, s.loaders loader = some f → f.index ≠ -1 →
    (∃ entry ∈ f.searched, entry.text = f.text) ∧ f.index = place f.searched f.text

/-- What the other steps leave as it is. -/
theorem step_frame (he : s.step e = some s') (hfind : ∀ loader menuId string,
    e ≠ .find loader menuId string) (hset : ∀ loader, e ≠ .setIndex loader) :
    s'.loaders = s.loaders ∧ s'.results = s.results ∧ s'.selections = s.selections := by
  cases e with
  | find loader menuId string => exact absurd rfl (hfind loader menuId string)
  | setIndex loader => exact absurd rfl (hset loader)
  | addMenu =>
      rw [State.step] at he
      split at he <;> cases he
      exact ⟨rfl, rfl, rfl⟩
  | removeMenu menuId =>
      rw [State.step] at he
      split at he <;> cases he
      exact ⟨rfl, rfl, rfl⟩
  | addItem menuId entry tree =>
      rw [State.step] at he
      split at he
      · cases he
        exact ⟨rfl, rfl, rfl⟩
      · split at he <;> cases he
        exact ⟨rfl, rfl, rfl⟩
  | removeItem menuId string tree =>
      rw [State.step] at he
      split at he
      · cases he
        exact ⟨rfl, rfl, rfl⟩
      · split at he
        · split at he <;> cases he
          exact ⟨rfl, rfl, rfl⟩
        · cases he
          exact ⟨rfl, rfl, rfl⟩
  | enqueue =>
      rw [State.step] at he
      split at he <;> cases he
      exact ⟨rfl, rfl, rfl⟩
  | regenerate =>
      rw [State.step] at he
      split at he <;> cases he
      exact ⟨rfl, rfl, rfl⟩
  | lockMenus =>
      rw [State.step] at he
      split at he <;> cases he
      exact ⟨rfl, rfl, rfl⟩
  | fillMenu =>
      rw [State.step] at he
      split at he
      · cases he
        show (s.fill _).loaders = s.loaders ∧ (s.fill _).results = s.results ∧
          (s.fill _).selections = s.selections
        rw [State.fill]
        split <;> exact ⟨rfl, rfl, rfl⟩
      · cases he
  | recreate =>
      rw [State.step] at he
      split at he <;> cases he
      exact ⟨rfl, rfl, rfl⟩

/-- A careful search. -/
theorem found_of_careful {menuId : ℕ} {string : CString}
    (hc : s.entries menuId = [] ∨ ∃ entry ∈ s.entries menuId, entry.text = string)
    (hindex : (s.cursesMenuItemFind menuId string).index ≠ -1) :
    (∃ entry ∈ s.entries menuId, entry.text = string) ∧
      (s.cursesMenuItemFind menuId string).index = place (s.entries menuId) string := by
  have hmem : ∃ entry ∈ s.entries menuId, entry.text = string := by
    refine hc.resolve_left fun hnil ↦ hindex ?_
    rw [(index_iff s menuId string).mpr hc, hnil]
    rintro _ ⟨⟩
  exact ⟨hmem, index_of_mem hmem⟩

/-- An address belongs to one entry. -/
theorem find?_item {entries : List Entry} (hnodup : (entries.map Entry.item).Nodup) {entry : Entry}
    (hentry : entry ∈ entries) : (entries.find? fun e ↦ e.item = entry.item) = some entry := by
  cases hfind : entries.find? fun e ↦ e.item = entry.item with
  | none => exact absurd (decide_eq_true rfl) (List.find?_eq_none.mp hfind entry hentry)
  | some other =>
      have hitem : other.item = entry.item :=
        of_decide_eq_true (List.find?_some (p := fun e : Entry ↦ decide (e.item = entry.item)) hfind)
      have hother : other ∈ entries := List.mem_of_find?_eq_some hfind
      rw [List.inj_on_of_nodup_map hnodup hother hentry hitem]

/-- A careful use of an index. -/
theorem made_of_careful {f : Found} (hnodup : ((s.entries f.menuId).map Entry.item).Nodup)
    (hlive : (s.menus f.menuId).live = true) (hcount : f.menuId + 1 < s.menusCount)
    (hitems : (s.menus f.menuId).items = some (f.searched.map Entry.item))
    (hentries : s.entries f.menuId = f.searched)
    (hmem : ∃ entry ∈ f.searched, entry.text = f.text)
    (hindex : f.index = place f.searched f.text) :
    ∃ entry, s.made f = some entry ∧ entry.text = f.text := by
  obtain ⟨entry, hentry, htext⟩ := getElem?_place hmem
  refine ⟨entry, ?_, htext⟩
  have hnonneg : 0 ≤ f.index := hindex ▸ Int.natCast_nonneg _
  have hitem : (f.searched.map Entry.item)[f.index.toNat]? = some entry.item := by
    rw [hindex, Int.toNat_natCast, List.getElem?_map, hentry]
    rfl
  rw [State.made, if_pos ⟨hlive, hcount, hnonneg⟩, hitems]
  dsimp only
  rw [hitem, hentries]
  dsimp only
  rw [hentries] at hnodup
  exact find?_item hnodup (List.mem_of_getElem? hentry)

theorem Kept.step (h : Kept s) (hc : Careful s e) (he : s.step e = some s') : Kept s' := by
  have hsound := h.sound.step he
  by_cases hfind : ∃ loader menuId string, e = .find loader menuId string
  · obtain ⟨loader, menuId, string, rfl⟩ := hfind
    cases he
    refine ⟨hsound, ⟨fun f hf ↦ ?_, h.right.selected⟩, fun l f hf hindex ↦ ?_⟩
    · rcases List.mem_append.mp hf with hf | hf
      · exact h.right.found f hf
      · obtain rfl := List.mem_singleton.mp hf
        exact (index_iff s menuId string).mpr hc
    · change Function.update s.loaders loader _ l = some f at hf
      rw [Function.update_apply] at hf
      split at hf
      · obtain rfl := Option.some.inj hf
        exact found_of_careful hc hindex
      · exact h.found l f hf hindex
  by_cases hset : ∃ loader, e = .setIndex loader
  · obtain ⟨loader, rfl⟩ := hset
    rw [State.step] at he
    split at he
    · cases he
    · rename_i f hf
      split at he
      · cases he
      · rename_i hindex
        cases he
        refine ⟨hsound, ⟨h.right.found, fun c hselection ↦ ?_⟩, fun l g hg hgindex ↦ ?_⟩
        · rcases List.mem_append.mp hselection with hselection | hselection
          · exact h.right.selected c hselection
          · obtain rfl := List.mem_singleton.mp hselection
            obtain ⟨hlive, hcount, hitems, hentries⟩ := hc f hf
            obtain ⟨hmem, hplace⟩ := h.found loader f hf hindex
            exact made_of_careful (h.sound.nodup f.menuId) hlive hcount hitems hentries hmem hplace
        · change Function.update s.loaders loader none l = some g at hg
          rw [Function.update_apply] at hg
          split at hg
          · cases hg
          · exact h.found l g hg hgindex
  · obtain ⟨hloaders, hresults, hselections⟩ := step_frame he
      (fun loader menuId string heq ↦ hfind ⟨loader, menuId, string, heq⟩)
      (fun loader heq ↦ hset ⟨loader, heq⟩)
    refine ⟨hsound, ⟨?_, ?_⟩, ?_⟩
    · rw [hresults]
      exact h.right.found
    · rw [hselections]
      exact h.right.selected
    · rw [hloaders]
      exact h.found

instance (s : State) (e : Event) : Decidable (Careful s e) :=
  match e with
  | .find _ menuId string =>
      inferInstanceAs (Decidable (s.entries menuId = [] ∨
        ∃ entry ∈ s.entries menuId, entry.text = string))
  | .setIndex loader =>
      inferInstanceAs (Decidable (∀ f ∈ s.loaders loader, (s.menus f.menuId).live = true ∧
        f.menuId + 1 < s.menusCount ∧
        (s.menus f.menuId).items = some (f.searched.map Entry.item) ∧
        s.entries f.menuId = f.searched))
  | .addMenu | .removeMenu _ | .addItem .. | .removeItem .. | .enqueue | .regenerate | .lockMenus
  | .fillMenu | .recreate => .isTrue trivial

/-- An entry of the servers menu. -/
def server : Entry := ⟨7, "1 - bot@irc".toList⟩

/-- A loader adds an entry, searches it and makes it current once the menus are regenerated. -/
def patient : List Event :=
  [.addItem 1 server (.node server .nil .nil), .enqueue, .regenerate, .lockMenus, .fillMenu,
    .fillMenu, .fillMenu, .fillMenu, .recreate, .find 0 1 server.text, .setIndex 0]

/-- A loader adds an entry, searches it and makes it current before the menus are regenerated. -/
def hasty : List Event :=
  [.addItem 1 server (.node server .nil .nil), .find 0 1 server.text, .setIndex 0]

end Runs

end Beirdobot.Curses.Menus
