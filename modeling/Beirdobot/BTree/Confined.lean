import Beirdobot.BTree.Edits
import Beirdobot.BTree.Frame
import Mathlib.Data.Set.Basic

/-!
# What the calls on a tree do not reach

A set of items is closed when their pointers stay in it.  A call that starts in a
closed set only writes items of that set, whatever the shape of their pointers, so
the items of other trees, and those that are on no tree, stay as they are.
-/

namespace Beirdobot.BTree

open Library BinaryTree

variable {ι : Type} {S : Set ι}

/-- A pointer to an item of `S`, or null. -/
def Inside (S : Set ι) (p : Option ι) : Prop := ∀ x ∈ p, x ∈ S

theorem inside_none : Inside S none := fun _ h ↦ by cases h

theorem inside_some {x : ι} : Inside S (some x) ↔ x ∈ S :=
  ⟨fun h ↦ h x rfl, fun h _ hy ↦ by cases hy; exact h⟩

/-- The pointers of the items of `S` stay in `S`. -/
structure Closed (h : Links ι) (S : Set ι) : Prop where
  left : ∀ x ∈ S, Inside S (h.left x)
  right : ∀ x ∈ S, Inside S (h.right x)
  parent : ∀ x ∈ S, Inside S (h.parent x)

/-- Only items of `S` are written, with pointers that stay in `S`. -/
structure Confined (S : Set ι) (h h' : Links ι) : Prop where
  closed : Closed h' S
  agree : ∀ z ∉ S, h.AgreeOn h' [z]

namespace Confined

variable {h h' h'' : Links ι}

theorem refl (hc : Closed h S) : Confined S h h :=
  ⟨hc, fun _ _ _ _ ↦ ⟨rfl, rfl, rfl⟩⟩

theorem trans (h₁ : Confined S h h') (h₂ : Confined S h' h'') : Confined S h h'' := by
  refine ⟨h₂.closed, fun z hz y hy ↦ ?_⟩
  obtain ⟨l₁, r₁, p₁⟩ := h₁.agree z hz y hy
  obtain ⟨l₂, r₂, p₂⟩ := h₂.agree z hz y hy
  exact ⟨l₂.trans l₁, r₂.trans r₁, p₂.trans p₁⟩

theorem ite {c : Prop} [Decidable c] {a b : Links ι} (ha : Confined S h a) (hb : Confined S h b) :
    Confined S h (if c then a else b) := by
  split
  · exact ha
  · exact hb

variable [DecidableEq ι]

theorem setLeft (hc : Confined S h h') {x : ι} {p : Option ι} (hx : x ∈ S) (hp : Inside S p) :
    Confined S h (h'.setLeft x p) := by
  refine hc.trans ⟨⟨fun y hy ↦ ?_, hc.closed.right, hc.closed.parent⟩, fun z hz y hy ↦ ?_⟩
  · rw [Links.setLeft_left]
    split
    · exact hp
    · exact hc.closed.left y hy
  · have hyx : y ≠ x := fun e ↦ hz (List.mem_singleton.mp hy ▸ e ▸ hx)
    simp [hyx]

theorem setRight (hc : Confined S h h') {x : ι} {p : Option ι} (hx : x ∈ S) (hp : Inside S p) :
    Confined S h (h'.setRight x p) := by
  refine hc.trans ⟨⟨hc.closed.left, fun y hy ↦ ?_, hc.closed.parent⟩, fun z hz y hy ↦ ?_⟩
  · rw [Links.setRight_right]
    split
    · exact hp
    · exact hc.closed.right y hy
  · have hyx : y ≠ x := fun e ↦ hz (List.mem_singleton.mp hy ▸ e ▸ hx)
    simp [hyx]

theorem setParent (hc : Confined S h h') {x : ι} {p : Option ι} (hx : x ∈ S) (hp : Inside S p) :
    Confined S h (h'.setParent x p) := by
  refine hc.trans ⟨⟨hc.closed.left, hc.closed.right, fun y hy ↦ ?_⟩, fun z hz y hy ↦ ?_⟩
  · rw [Links.setParent_parent]
    split
    · exact hp
    · exact hc.closed.parent y hy
  · have hyx : y ≠ x := fun e ↦ hz (List.mem_singleton.mp hy ▸ e ▸ hx)
    simp [hyx]

theorem reparent (hc : Confined S h h') {o p : Option ι} (ho : Inside S o) (hp : Inside S p) :
    Confined S h (h'.reparent o p) := by
  cases o with
  | none => exact hc
  | some x => exact hc.setParent (inside_some.mp ho) hp

theorem setChild (hc : Confined S h h') {q old new : Option ι} (hq : Inside S q)
    (hn : Inside S new) : Confined S h (h'.setChild q old new) := by
  cases q with
  | none => exact hc
  | some y =>
      simp only [Links.setChild]
      split
      · exact hc.setLeft (inside_some.mp hq) hn
      · exact hc.setRight (inside_some.mp hq) hn

end Confined

/-! ## Walks -/

theorem findGreatestLoop_inside {h : Links ι} (hc : Closed h S) {fuel : ℕ} {prev p r : Option ι}
    (hprev : Inside S prev) (hp : Inside S p) (he : findGreatestLoop h fuel prev p = some r) :
    Inside S r := by
  induction fuel generalizing prev p with
  | zero =>
      cases p with
      | none =>
          cases he
          exact hprev
      | some x => cases he
  | succ fuel ih =>
      cases p with
      | none =>
          cases he
          exact hprev
      | some x => exact ih hp (hc.right x (inside_some.mp hp)) he

theorem findLeastLoop_inside {h : Links ι} (hc : Closed h S) {fuel : ℕ} {prev p r : Option ι}
    (hprev : Inside S prev) (hp : Inside S p) (he : findLeastLoop h fuel prev p = some r) :
    Inside S r := by
  induction fuel generalizing prev p with
  | zero =>
      cases p with
      | none =>
          cases he
          exact hprev
      | some x => cases he
  | succ fuel ih =>
      cases p with
      | none =>
          cases he
          exact hprev
      | some x => exact ih hp (hc.left x (inside_some.mp hp)) he

/-- The same pointers with left and right exchanged. -/
theorem Closed.mirror {h : Links ι} (hc : Closed h S) : Closed h.mirror S :=
  ⟨hc.right, hc.left, hc.parent⟩

theorem Confined.mirror {h h' : Links ι} (hc : Confined S h h') : Confined S h.mirror h'.mirror :=
  ⟨hc.closed.mirror, fun z hz y hy ↦ by
    obtain ⟨l, r, p⟩ := hc.agree z hz y hy
    exact ⟨r, l, p⟩⟩

section Calls

variable {K : Type}

theorem findParentLoop_inside (keyCompare : K → K → ℤ) {s : BalancedBTree ι K}
    (hc : Closed s.toLinks S) {key : K} {fuel : ℕ} {prev p r : Option ι} (hprev : Inside S prev)
    (hp : Inside S p) (he : findParentLoop keyCompare s key fuel prev p = some r) :
    Inside S r := by
  induction fuel generalizing prev p with
  | zero =>
      cases p with
      | none =>
          cases he
          exact hprev
      | some x => cases he
  | succ fuel ih =>
      cases p with
      | none =>
          cases he
          exact hprev
      | some x =>
          have hx := inside_some.mp hp
          simp only [findParentLoop] at he
          split at he
          · exact ih hp (hc.left x hx) he
          · exact ih hp (hc.right x hx) he

theorem enter_pointers {s s' : BalancedBTree ι K} {lock : Locked} (h : enter s lock = some s') :
    s'.toPointers = s.toPointers := by
  cases lock with
  | locked =>
      cases h
      rfl
  | unlocked =>
      obtain ⟨-, rfl⟩ := lock_eq_some.mp h
      rfl

theorem leave_pointers (s : BalancedBTree ι K) (lock : Locked) :
    (leave s lock).toPointers = s.toPointers := by
  cases lock <;> rfl

end Calls

section Edits

variable [DecidableEq ι]

/-! ## Rebalancing and replacing -/

theorem shiftRight_confined {h h' : Links ι} (hc : Closed h S) {fuel : ℕ} {root item : ι}
    (hroot : root ∈ S) (he : shiftRight fuel h root = some (h', item)) :
    Confined S h h' ∧ item ∈ S := by
  simp only [shiftRight, Option.bind_eq_bind, Option.bind_eq_some_iff] at he
  obtain ⟨greatest, hg, x, hx, he⟩ := he
  have hxS : x ∈ S :=
    inside_some.mp (hx ▸ findGreatestLoop_inside hc inside_none (hc.left root hroot) hg)
  have h₁ := ((Confined.refl hc).setParent hxS (hc.parent root hroot)).setRight hxS
    (inside_some.mpr hroot)
  have h₂ := Confined.ite (c := ((h.setParent x (h.parent root)).setRight x (some root)).left root ≠
    some x) ((h₁.setLeft hxS (h₁.closed.left root hroot)).reparent (h₁.closed.left root hroot)
      (inside_some.mpr hxS)) h₁
  have h₃ := (h₂.setParent hroot (inside_some.mpr hxS)).setLeft hroot inside_none
  split at he
  · obtain ⟨parent, hparent, he⟩ := Option.bind_eq_some_iff.mp he
    cases he
    have hpS : parent ∈ S := inside_some.mp (hparent ▸ hc.parent _ hxS)
    exact ⟨(h₃.setRight hpS (hc.left _ hxS)).reparent (hc.left _ hxS) (inside_some.mpr hpS), hxS⟩
  · cases he
    exact ⟨h₃, hxS⟩

theorem shiftLeft_confined {h h' : Links ι} (hc : Closed h S) {fuel : ℕ} {root item : ι}
    (hroot : root ∈ S) (he : shiftLeft fuel h root = some (h', item)) :
    Confined S h h' ∧ item ∈ S := by
  rw [shiftLeft_mirror] at he
  obtain ⟨⟨h₁, item'⟩, hshift, he⟩ := Option.map_eq_some_iff.mp he
  cases he
  obtain ⟨hconf, hitem⟩ := shiftRight_confined hc.mirror hroot hshift
  exact ⟨hconf.mirror, hitem⟩

/-- A tree whose root pointer and items stay in `S`. -/
structure ClosedTree (s : Pointers ι) (S : Set ι) : Prop where
  root : Inside S s.root
  links : Closed s.toLinks S

/-- What an edit of a closed tree does. -/
structure ConfinedTree (S : Set ι) (s s' : Pointers ι) : Prop where
  root : Inside S s'.root
  links : Confined S s.toLinks s'.toLinks

namespace ConfinedTree

variable {s s' s'' : Pointers ι}

omit [DecidableEq ι] in
theorem closed (h : ConfinedTree S s s') : ClosedTree s' S := ⟨h.root, h.links.closed⟩

omit [DecidableEq ι] in
theorem refl (h : ClosedTree s S) : ConfinedTree S s s := ⟨h.root, .refl h.links⟩

omit [DecidableEq ι] in
theorem trans (h₁ : ConfinedTree S s s') (h₂ : ConfinedTree S s' s'') : ConfinedTree S s s'' :=
  ⟨h₂.root, h₁.links.trans h₂.links⟩

theorem relink (h : ConfinedTree S s s') {parent old new : Option ι} (hp : Inside S parent)
    (hn : Inside S new) : ConfinedTree S s (relink s' parent old new) := by
  cases parent with
  | none => exact ⟨hn, h.links⟩
  | some p => exact ⟨h.root, h.links.setChild hp hn⟩

end ConfinedTree

theorem rebalance_confined (fuel : ℕ) {s s' : Pointers ι} {root : Option ι} (hs : ClosedTree s S)
    (hroot : Inside S root) (he : balancedBTreeRebalance fuel s root = some s') :
    ConfinedTree S s s' := by
  induction fuel generalizing s s' root with
  | zero =>
      cases root with
      | none =>
          cases he
          exact .refl hs
      | some x => cases he
  | succ fuel ih =>
      cases root with
      | none =>
          cases he
          exact .refl hs
      | some x =>
          have hx := inside_some.mp hroot
          simp only [balancedBTreeRebalance, Option.bind_eq_bind, Option.bind_eq_some_iff] at he
          obtain ⟨left, -, right, -, he⟩ := he
          split at he
          · have hshift : ∃ h item, Confined S s.toLinks h ∧ item ∈ S ∧ balancedBTreeRebalance fuel
                (relink { s with toLinks := h } (h.parent item) (some x) (some item)) (some item) =
                  some s' := by
              split at he
              · obtain ⟨⟨h, item⟩, hsh, he⟩ := Option.bind_eq_some_iff.mp he
                obtain ⟨hconf, hitem⟩ := shiftRight_confined hs.links hx hsh
                exact ⟨h, item, hconf, hitem, he⟩
              · obtain ⟨⟨h, item⟩, hsh, he⟩ := Option.bind_eq_some_iff.mp he
                obtain ⟨hconf, hitem⟩ := shiftLeft_confined hs.links hx hsh
                exact ⟨h, item, hconf, hitem, he⟩
            obtain ⟨h, item, hconf, hitem, he⟩ := hshift
            have hsh : ConfinedTree S s { s with toLinks := h } := ⟨hs.root, hconf⟩
            have hre : ConfinedTree S s
                (relink { s with toLinks := h } (h.parent item) (some x) (some item)) :=
              hsh.relink (hconf.closed.parent item hitem) (inside_some.mpr hitem)
            exact hre.trans (ih hre.closed (inside_some.mpr hitem) he)
          · obtain ⟨s₁, he₁, he⟩ := Option.bind_eq_some_iff.mp he
            have h₁ := ih hs (hs.links.left x hx) he₁
            exact h₁.trans (ih h₁.closed (h₁.links.closed.right x hx) he)

/-- Hanging both subtrees of an item below its replacement, which is taken from deep
below it. -/
theorem hang_confined {h : Links ι} (hc : Closed h S) {item replace parent : ι} (hi : item ∈ S)
    (hr : replace ∈ S) (hp : parent ∈ S) :
    let h₁ :=
      if h.left parent = some replace then
        (h.setLeft parent (h.right replace)).reparent (h.right replace) (some parent)
      else if h.right parent = some replace then
        (h.setRight parent (h.left replace)).reparent (h.left replace) (some parent)
      else h
    let h₂ := (h₁.setRight replace (h₁.right item)).reparent (h₁.right item) (some replace)
    Confined S h ((h₂.setLeft replace (h₂.left item)).reparent (h₂.left item) (some replace)) := by
  intro h₁ h₂
  have hrS : Inside S (some replace) := inside_some.mpr hr
  have hpS : Inside S (some parent) := inside_some.mpr hp
  have h₀ := Confined.refl hc
  have hc₁ : Confined S h h₁ :=
    ((h₀.setLeft hp (hc.right replace hr)).reparent (hc.right replace hr) hpS).ite
      (((h₀.setRight hp (hc.left replace hr)).reparent (hc.left replace hr) hpS).ite h₀)
  have hc₂ : Confined S h h₂ :=
    (hc₁.setRight hr (hc₁.closed.right item hi)).reparent (hc₁.closed.right item hi) hrS
  exact (hc₂.setLeft hr (hc₂.closed.left item hi)).reparent (hc₂.closed.left item hi) hrS

theorem replace_confined {s s' : Pointers ι} {item : ι} {replace : Option ι} (hs : ClosedTree s S)
    (hi : item ∈ S) (hr : Inside S replace)
    (he : balancedBTreeReplace s item replace = some s') : ConfinedTree S s s' := by
  have hclear : ∀ p : Pointers ι, ConfinedTree S s p → ConfinedTree S s (p.modify fun h ↦
      ((h.setLeft item none).setRight item none).setParent item none) := fun p hp ↦
    ⟨hp.root, ((hp.links.setLeft hi inside_none).setRight hi inside_none).setParent hi inside_none⟩
  rw [balancedBTreeReplace] at he
  split at he
  · cases he
    exact .refl hs
  · cases replace with
    | none =>
        cases he
        exact hclear _ ((ConfinedTree.refl hs).relink (hs.links.parent item hi) inside_none)
    | some g =>
        have hg := inside_some.mp hr
        have h₀ := Confined.refl hs.links
        have hseat : ∀ h, Confined S s.toLinks h → ConfinedTree S s
            (relink { s with toLinks := h.setParent g (h.parent item) }
              ((h.setParent g (h.parent item)).parent g) (some item) (some g)) := fun h hc ↦ by
          have hset : ConfinedTree S s { s with toLinks := h.setParent g (h.parent item) } :=
            ⟨hs.root, hc.setParent hg (hc.closed.parent item hi)⟩
          exact hset.relink (hset.closed.links.parent g hg) hr
        simp only [Option.bind_eq_bind, Option.bind_some] at he
        split at he
        · obtain ⟨parent, hparent, he⟩ := Option.bind_eq_some_iff.mp he
          cases he
          have hp : parent ∈ S := inside_some.mp (hparent ▸ hs.links.parent g hg)
          exact hclear _ (hseat _ (hang_confined hs.links hi hg hp))
        · cases he
          exact hclear _ (hseat _
            (((h₀.setLeft hg (hs.links.left item hi)).reparent (hs.links.left item hi) hr).ite
              (((h₀.setRight hg (hs.links.right item hi)).reparent
                (hs.links.right item hi) hr).ite h₀)))

/-! ## The calls -/

theorem rebalanceIf_confined {K : Type} {fuel : ℕ} {s s' : BalancedBTree ι K} {rebalance : Bool}
    (hs : ClosedTree s.toPointers S) (he : rebalanceIf fuel s rebalance = some s') :
    ConfinedTree S s.toPointers s'.toPointers := by
  cases rebalance with
  | false =>
      cases he
      exact .refl hs
  | true =>
      obtain ⟨p, hp, he⟩ := Option.bind_eq_some_iff.mp he
      cases he
      exact rebalance_confined fuel hs hs.root hp

theorem linkItem_confined {K : Type} (keyCompare : K → K → ℤ) {s : BalancedBTree ι K} {item : ι}
    {parent : Option ι} (hs : ClosedTree { s.toPointers with
      toLinks := s.toLinks.setParent item parent } S) (hi : item ∈ S) (hp : Inside S parent) :
    ConfinedTree S { s.toPointers with toLinks := s.toLinks.setParent item parent }
      (linkItem keyCompare s item parent).toPointers := by
  have hset := ConfinedTree.refl hs
  cases parent with
  | none => exact ⟨inside_some.mpr hi, hset.links⟩
  | some p =>
      have hpS := inside_some.mp hp
      simp only [linkItem]
      split
      · exact ⟨hs.root, hset.links.setRight hpS (inside_some.mpr hi)⟩
      · split
        · exact ⟨hs.root, hset.links.setLeft hpS (inside_some.mpr hi)⟩
        · exact hset

/-- An addition reaches the tree and its item, whatever the item pointed to. -/
theorem add_confined {K : Type} {keyCompare : K → K → ℤ} {fuel : ℕ} {s s' : BalancedBTree ι K}
    {item : ι} {lock : Locked} {rebalance : Bool} (hs : ClosedTree s.toPointers S) (hi : item ∉ S)
    (he : balancedBTreeAdd keyCompare fuel s (some item) lock rebalance = some s') :
    ConfinedTree (insert item S) s.toPointers s'.toPointers := by
  rw [balancedBTreeAdd] at he
  obtain ⟨s₁, h₁, he⟩ := Option.bind_eq_some_iff.mp he
  have hp₁ : s₁.toPointers = s.toPointers := enter_pointers h₁
  rw [← hp₁] at hs ⊢
  let s₂ : BalancedBTree ι K := { s₁ with
    owner := Function.update s₁.owner item (some s₁.self)
    toLinks := (s₁.toLinks.setLeft item none).setRight item none }
  have hne : ∀ x ∈ S, x ≠ item := fun x hx e ↦ hi (e ▸ hx)
  have hs₂ : ClosedTree s₂.toPointers S := by
    refine ⟨hs.root, ⟨fun x hx ↦ ?_, fun x hx ↦ ?_, hs.links.parent⟩⟩
    · simpa [s₂, hne x hx] using hs.links.left x hx
    · simpa [s₂, hne x hx] using hs.links.right x hx
  obtain ⟨parent, hfind, he⟩ := Option.bind_eq_some_iff.mp he
  obtain ⟨s₃, hreb, he⟩ := Option.bind_eq_some_iff.mp he
  cases he
  have hparent : Inside S parent :=
    findParentLoop_inside keyCompare hs₂.links inside_none hs₂.root hfind
  have hsub : ∀ p, Inside S p → Inside (insert item S) p := fun p hp x hx ↦ .inr (hp x hx)
  have hset : ConfinedTree (insert item S) s₁.toPointers
      { s₂.toPointers with toLinks := s₂.toLinks.setParent item parent } := by
    refine ⟨hsub _ hs.root, ⟨fun x hx ↦ ?_, fun x hx ↦ ?_, fun x hx ↦ ?_⟩, fun z hz y hy ↦ ?_⟩
    · rcases hx with rfl | hx
      · simpa [s₂] using inside_none
      · simpa [s₂, hne x hx] using hsub _ (hs.links.left x hx)
    · rcases hx with rfl | hx
      · simpa [s₂] using inside_none
      · simpa [s₂, hne x hx] using hsub _ (hs.links.right x hx)
    · rcases hx with rfl | hx
      · simpa [s₂] using hsub _ hparent
      · simpa [s₂, hne x hx] using hsub _ (hs.links.parent x hx)
    · obtain rfl := List.mem_singleton.mp hy
      have hyi : y ≠ item := fun e ↦ hz (.inl e)
      simp [s₂, hyi]
  have hlink := hset.trans (linkItem_confined keyCompare hset.closed (.inl rfl) (hsub _ hparent))
  rw [leave_pointers]
  exact hlink.trans (rebalanceIf_confined hlink.closed hreb)

/-- A removal reaches the tree and its item. -/
theorem remove_confined {K : Type} {fuel : ℕ} {s s' : BalancedBTree ι K} {item : ι}
    {lock : Locked} {rebalance : Bool} (hs : ClosedTree s.toPointers S) (hi : item ∈ S)
    (he : balancedBTreeRemove fuel s (some item) lock rebalance = some s') :
    ConfinedTree S s.toPointers s'.toPointers := by
  rw [balancedBTreeRemove] at he
  split at he
  · cases he
    exact .refl hs
  · obtain ⟨s₁, h₁, he⟩ := Option.bind_eq_some_iff.mp he
    have hp₁ : s₁.toPointers = s.toPointers := enter_pointers h₁
    rw [← hp₁] at hs ⊢
    simp only [Option.bind_eq_bind, Option.bind_eq_some_iff] at he
    obtain ⟨left, -, right, -, he⟩ := he
    have hreplace : ∃ replace p s₂, Inside S replace ∧
        balancedBTreeReplace s₁.toPointers item replace = some p ∧
        rebalanceIf fuel { s₁ with
          toPointers := p
          owner := Function.update s₁.owner item none } rebalance = some s₂ ∧
        leave s₂ lock = s' := by
      split at he
      · obtain ⟨replace, hr, p, hp, s₂, hreb, he⟩ := by
          simpa only [Option.bind_eq_some_iff, Option.some.injEq] using he
        exact ⟨replace, p, s₂,
          findGreatestLoop_inside hs.links inside_none (hs.links.left item hi) hr, hp, hreb, he⟩
      · obtain ⟨replace, hr, p, hp, s₂, hreb, he⟩ := by
          simpa only [Option.bind_eq_some_iff, Option.some.injEq] using he
        exact ⟨replace, p, s₂,
          findLeastLoop_inside hs.links inside_none (hs.links.right item hi) hr, hp, hreb, he⟩
    obtain ⟨replace, p, s₂, hr, hp, hreb, rfl⟩ := hreplace
    have hc := replace_confined hs hi hr hp
    rw [leave_pointers]
    exact hc.trans (rebalanceIf_confined hc.closed hreb)

end Edits

/-! ## Held trees -/

theorem inside_of_linked {h : Links ι} {q : Option ι} {t : BinaryTree ι} (ht : Linked h q t) {x : ι}
    (hx : x ∈ t.inorder) (hS : ∀ y ∈ t.inorder, y ∈ S) (hq : Inside S q) :
    Inside S (h.left x) ∧ Inside S (h.right x) ∧ Inside S (h.parent x) := by
  induction t generalizing q with
  | nil => simp at hx
  | node y l r ihl ihr =>
      obtain ⟨hp, hl, hr, htl, htr⟩ := ht
      simp only [inorder_node, List.mem_append, List.mem_cons] at hx hS
      have hy : Inside S (some y) := inside_some.mpr (hS y (.inr (.inl rfl)))
      rcases hx with hx | rfl | hx
      · exact ihl htl hx (fun z hz ↦ hS z (.inl hz)) hy
      · refine ⟨fun z hz ↦ ?_, fun z hz ↦ ?_, hp ▸ hq⟩
        · exact hS z (.inl (top_mem (hl ▸ hz)))
        · exact hS z (.inr (.inr (top_mem (hr ▸ hz))))
      · exact ihr htr hx (fun z hz ↦ hS z (.inr (.inr hz))) hy

/-- The items of a held tree are closed. -/
theorem Holds.closedTree {s : Pointers ι} {t : BinaryTree ι} (hs : Holds s t) :
    ClosedTree s {x | x ∈ t.inorder} := by
  have hin : ∀ x ∈ t.inorder, _ := fun x hx ↦
    inside_of_linked (S := {x | x ∈ t.inorder}) hs.linked hx (fun y hy ↦ hy) inside_none
  refine ⟨fun x hx ↦ ?_, fun x hx ↦ (hin x hx).1, fun x hx ↦ (hin x hx).2.1,
    fun x hx ↦ (hin x hx).2.2⟩
  rw [hs.root_eq] at hx
  exact top_mem hx

end Beirdobot.BTree
