import Beirdobot.ThreadApi.Model
import Mathlib.Data.List.Perm.Basic

/-!
# The registry of threads

Over all interleavings of creations, registrations and removals the tree has the threads that were
registered and not removed, in the order of their ids; so the searches and the walks over the tree
are those of the registry.
-/

namespace Beirdobot.ThreadApi

open Library BTree BinaryTree

variable {ι ν φ α : Type} {s s' : State ι ν φ α} {x y : ι} {id : PthreadId} {signum : Signal}
variable {thread : Thread ν φ α}

/-! ## The order of the ids -/

theorem half (id : PthreadId) : 2 * (id.1 - 0#64).toNat < 2 ^ 64 := by
  rw [BitVec.sub_zero]
  exact id.2

theorem keyCompare_neg {l r : PthreadId} : keyCompare l r < 0 ↔ l.1.toNat < r.1.toNat := by
  have hcompare := (Keys.compare_half (c := 0#64) (half l) (half r)).1
  rw [Keys.compareAfter, BitVec.sub_zero, BitVec.sub_zero] at hcompare
  exact hcompare.trans (by omega)

theorem keyCompare_eq_zero {l r : PthreadId} : keyCompare l r = 0 ↔ l = r := by
  have hcompare := (Keys.compare_half (c := 0#64) (half l) (half r)).2
  exact (hcompare.trans ((Keys.compareAfter_strictTotal 0#64).eq_zero l.1 r.1)).trans Subtype.ext_iff.symm

theorem keyCompare_strictTotal : StrictTotal keyCompare where
  eq_zero _ _ := keyCompare_eq_zero
  swap l r := by
    have hlr : ¬ keyCompare l r < 0 ∧ ¬ keyCompare l r = 0 ↔ keyCompare r l < 0 := by
      rw [keyCompare_neg, keyCompare_neg, keyCompare_eq_zero, Subtype.ext_iff, ← BitVec.toNat_inj]
      omega
    rw [← hlr]
    omega
  trans l m r := by
    rw [keyCompare_neg, keyCompare_neg, keyCompare_neg]
    exact Nat.lt_trans

/-! ## What the tree holds -/

namespace State

/-- The threads that are registered or about to be. -/
def threads (s : State ι ν φ α) : List (Thread ν φ α) := s.used.map s.item ++ s.creating

/-- The ids that are kept for a thread. -/
def held (s : State ι ν φ α) : List PthreadId :=
  s.threads.map (fun thread ↦ s.ids thread.threadId) ++ s.joining

end State

/-- What holds in a run. -/
structure Inv (s : State ι ν φ α) : Prop where
  stores : Stores keyCompare s.tree s.used
  mutex : s.threadTree.mutex = false
  key : ∀ x ∈ s.used, s.threadTree.key x = (s.item x).threadId
  nodup : s.held.Nodup
  alive : ∀ id ∈ s.held, id ∈ s.alive
  removing : ∀ p ∈ s.removing, p.1 ∈ s.used ∧ s.idOf p.1 = p.2
  once : (s.removing.map Prod.snd).Nodup
  registry : ∀ id thread, registryOf s.log id = some thread ↔
    ∃ x ∈ s.used, s.idOf x = id ∧ s.item x = thread

theorem Init.inv (h : Init s) : Inv s := by
  obtain ⟨self, items, key, owner, htree⟩ := h.empty
  obtain ⟨thread, hcreating, hthread⟩ := h.creating
  have hheld : s.held = [s.ids s.mainThreadId] := by
    simp only [State.held, State.threads, h.used, hcreating, h.joining, ← hthread]
    rfl
  constructor
  · rw [h.used, State.tree, htree]
    exact Stores.create ..
  · rw [htree]
    rfl
  · simp [h.used]
  · rw [hheld]
    exact List.nodup_singleton _
  · rw [hheld, h.alive]
    exact fun _ ↦ id
  · simp [h.removing]
  · simp [h.removing]
  · simp [h.log, h.used, registryOf]

namespace Inv

theorem nodup_ids (h : Inv s) : (s.used.map s.idOf ++
    s.creating.map fun thread ↦ s.ids thread.threadId).Nodup := by
  have hnodup := h.nodup
  rw [State.held, State.threads, List.map_append, List.map_map] at hnodup
  exact hnodup.of_append_left

theorem idOf_inj (h : Inv s) (hx : x ∈ s.used) (hy : y ∈ s.used) (he : s.idOf x = s.idOf y) :
    x = y :=
  List.inj_on_of_nodup_map h.nodup_ids.of_append_left hx hy he

theorem mem_held (hx : x ∈ s.used) : s.idOf x ∈ s.held := by
  apply List.mem_append_left
  rw [State.threads, List.map_append, List.map_map]
  exact List.mem_append_left _ (List.mem_map_of_mem hx)

theorem key_eq (h : Inv s) (hx : x ∈ s.used) : s.tree.key x = s.idOf x :=
  congrArg s.ids (h.key x hx)

/-- The search finds the thread with the id. -/
theorem findThread_eq (h : Inv s) (id : PthreadId) :
    ∃ r, s.findThread id = some (s, r) ∧ ∀ x, r = some x ↔ x ∈ s.used ∧ s.idOf x = id := by
  obtain ⟨r, hfind, hr⟩ := h.stores.find keyCompare_strictTotal id .unlocked (fun _ ↦ h.mutex)
    s.fuel (Nat.le_add_right _ _)
  refine ⟨r, ?_, fun x ↦ ?_⟩
  · rw [State.findThread, hfind]
    rfl
  · rw [hr x]
    apply and_congr_right
    intro hx
    rw [h.key_eq hx]

theorem findThread_map (h : Inv s) (id : PthreadId) :
    ∃ r, s.findThread id = some (s, r) ∧ r.map s.item = registryOf s.log id := by
  obtain ⟨r, hfind, hr⟩ := h.findThread_eq id
  refine ⟨r, hfind, ?_⟩
  apply Option.ext
  intro thread
  rw [h.registry id thread, Option.map_eq_some_iff]
  constructor
  · rintro ⟨x, hx, rfl⟩
    obtain ⟨hused, hid⟩ := (hr x).mp hx
    exact ⟨x, hused, hid, rfl⟩
  · rintro ⟨x, hused, hid, rfl⟩
    exact ⟨x, (hr x).mpr ⟨hused, hid⟩, rfl⟩

end Inv

/-! ## Walks -/

theorem recurse_eq {β : Type} {h : Links ι} (visit : ι → List β) {q : Option ι} {t : BinaryTree ι}
    (ht : Linked h q t) {fuel : ℕ} (hf : t.numNodes ≤ fuel) :
    State.recurse h visit fuel t.top = some (t.inorder.flatMap visit) := by
  induction t generalizing q fuel with
  | nil =>
      cases fuel <;> rfl
  | node x l r ihl ihr =>
      obtain ⟨-, hleft, hright, hl, hr⟩ := ht
      rw [numNodes] at hf
      cases fuel with
      | zero => omega
      | succ fuel =>
          rw [top, State.recurse, hleft, hright, ihl hl (by omega), ihr hr (by omega)]
          simp

namespace Inv

/-- A walk visits the threads in the order of their ids, each once. -/
theorem threadAll_eq (h : Inv s) :
    ∃ l : List ι, l.Perm s.used ∧ (l.map s.idOf).Pairwise (fun l r ↦ l.1.toNat < r.1.toNat) ∧
      ∀ {β : Type} (visit : ι → List β), s.threadAll visit = some (s, l.flatMap visit) := by
  obtain ⟨t, ht, hincreasing, hperm⟩ := h.stores.tree
  refine ⟨t.inorder, hperm, ?_, fun visit ↦ ?_⟩
  · rw [List.pairwise_map]
    apply hincreasing.imp_of_mem
    intro x y hx hy hlt
    rw [h.key_eq (hperm.mem_iff.mp hx), h.key_eq (hperm.mem_iff.mp hy)] at hlt
    exact keyCompare_neg.mp hlt
  · have hlock : balancedBTreeLock s.tree = some { s.tree with mutex := true } :=
      if_neg (Bool.eq_false_iff.mp h.mutex)
    have hwalk : State.recurse s.threadTree.toLinks visit s.fuel s.threadTree.root =
        some (t.inorder.flatMap visit) := by
      rw [show s.threadTree.root = t.top from ht.root_eq]
      refine recurse_eq visit ht.linked ?_
      rw [← length_inorder, hperm.length_eq]
      exact Nat.le_add_right _ _
    simp only [State.threadAll, hlock, Option.bind_eq_bind, Option.bind_some]
    have hunlock : s.setTree (balancedBTreeUnlock { s.tree with mutex := true }) = s := by
      have hmutex := h.mutex
      cases s
      simp only at hmutex
      simp only [State.setTree, balancedBTreeUnlock, State.tree, ← hmutex]
    rw [hunlock]
    exact congrArg (Option.bind · _) hwalk

end Inv

/-! ## Steps -/

theorem Inv.of_mem_creating (h : Inv s) (hthread : thread ∈ s.creating) (hy : y ∈ s.used) :
    s.idOf y ≠ s.ids thread.threadId := by
  have hdisjoint := (List.nodup_append.mp h.nodup_ids).2.2
  exact hdisjoint _ (List.mem_map_of_mem hy) _ (List.mem_map_of_mem hthread)

/-- A thread is joined; its id is free. -/
theorem Inv.join (h : Inv s) {k : ℕ} (hid : s.joining[k]? = some id) :
    Inv { s with joining := s.joining.eraseIdx k, alive := s.alive.erase id } := by
  obtain ⟨hk, hget⟩ := List.getElem?_eq_some_iff.mp hid
  have hheld : s.held.Perm (id :: (s.threads.map (fun thread ↦ s.ids thread.threadId) ++
      s.joining.eraseIdx k)) := by
    refine .trans (.append_left _ ?_) List.perm_middle
    rw [← hget]
    exact (List.getElem_cons_eraseIdx_perm hk).symm
  have hnodup := List.nodup_cons.mp (hheld.nodup_iff.mp h.nodup)
  constructor
  · exact h.stores
  · exact h.mutex
  · exact h.key
  · exact hnodup.2
  · intro id' hid'
    refine (List.mem_erase_of_ne ?_).mpr
      (h.alive id' (hheld.mem_iff.mpr (List.mem_cons_of_mem _ hid')))
    rintro rfl
    exact hnodup.1 hid'
  · exact h.removing
  · exact h.once
  · exact h.registry

/-- What is noted of signals is nothing about the registry. -/
theorem Inv.note (h : Inv s) (pending : PthreadId → Signal → Bool) {note : Note ν φ α}
    (hnote : registryOf (note :: s.log) = registryOf s.log) :
    Inv { s with pending, log := note :: s.log } where
  stores := h.stores
  mutex := h.mutex
  key := h.key
  nodup := h.nodup
  alive := h.alive
  removing := h.removing
  once := h.once
  registry := by
    rw [hnote]
    exact h.registry

theorem Inv.setPending (h : Inv s) (id : PthreadId) (signum : Signal) (b : Bool) :
    Inv (s.setPending id signum b) :=
  ⟨h.stores, h.mutex, h.key, h.nodup, h.alive, h.removing, h.once, h.registry⟩

/-- A thread was found that is to be removed. -/
theorem Inv.deregister (h : Inv s) (hx : x ∈ s.used) (hc : s.idOf x ∉ s.removing.map Prod.snd) :
    Inv { s with removing := (x, s.idOf x) :: s.removing } where
  stores := h.stores
  mutex := h.mutex
  key := h.key
  nodup := h.nodup
  alive := h.alive
  removing := List.forall_mem_cons.mpr ⟨⟨hx, rfl⟩, h.removing⟩
  once := List.nodup_cons.mpr ⟨hc, h.once⟩
  registry := h.registry

/-! ## Walks and searches, by the registry -/

/-- The ids of the threads that are registered. -/
structure Lists (s : State ι ν φ α) (ids : List PthreadId) : Prop where
  sorted : ids.Pairwise fun l r ↦ l.1.toNat < r.1.toNat
  mem_iff : ∀ id, id ∈ ids ↔ (registryOf s.log id).isSome = true
  alive : ∀ id ∈ ids, id ∈ s.alive

theorem flatMap_kill (s : State ι ν φ α) (forwarded : Bool) (l : List ι) :
    (l.flatMap fun node ↦ if s.idOf node = s.ids s.mainThreadId then []
      else if forwarded then [s.idOf node] else []) =
      if forwarded then (l.map s.idOf).filter (· ≠ s.ids s.mainThreadId) else [] := by
  induction l with
  | nil => cases forwarded <;> rfl
  | cons x l ih =>
      rw [List.flatMap_cons, ih, List.map_cons]
      cases forwarded with
      | false =>
          simp only [Bool.false_eq_true, if_false, ite_self, List.append_nil]
      | true =>
          simp only [if_true]
          by_cases hx : s.idOf x = s.ids s.mainThreadId
          · rw [if_pos hx, List.filter_cons_of_neg (by simpa using hx), List.nil_append]
          · rw [if_neg hx, List.filter_cons_of_pos (by simpa using hx), List.singleton_append]

/-- What the walks over the tree do, by the registry. -/
theorem Inv.walks (h : Inv s) :
    ∃ ids, Lists s ids ∧
      (∀ signum, s.threadAllKill signum = some (s, if signum.forwarded
        then ids.filter (· ≠ s.ids s.mainThreadId) else [])) ∧
      s.threadAllNotifyServer = some (s, ids.filterMap fun id ↦
        (registryOf s.log id).bind fun thread ↦ thread.callbacks.bind ThreadCallback.serverDisable) ∧
      s.threadAllNotifyChannel = some (s, ids.filterMap fun id ↦
        (registryOf s.log id).bind fun thread ↦
          thread.callbacks.bind ThreadCallback.channelDisable) := by
  obtain ⟨l, hperm, hsorted, hall⟩ := h.threadAll_eq
  have hregistry : ∀ x ∈ l, registryOf s.log (s.idOf x) = some (s.item x) := fun x hx ↦
    (h.registry _ _).mpr ⟨x, hperm.mem_iff.mp hx, rfl, rfl⟩
  have hnotify : ∀ f : ThreadCallback φ α → Option φ,
      (l.flatMap fun x ↦ ((s.item x).callbacks.bind f).toList) =
        (l.map s.idOf).filterMap fun id ↦ (registryOf s.log id).bind fun thread ↦
          thread.callbacks.bind f := by
    intro f
    rw [List.filterMap_map, List.filterMap_eq_flatMap_toList]
    apply List.flatMap_congr
    intro x hx
    rw [Function.comp_apply, hregistry x hx]
    rfl
  refine ⟨l.map s.idOf, ⟨hsorted, fun id ↦ ?_, fun id hid ↦ ?_⟩, fun signum ↦ ?_, ?_, ?_⟩
  · rw [Option.isSome_iff_exists, List.mem_map]
    constructor
    · rintro ⟨x, hx, rfl⟩
      exact ⟨_, hregistry x hx⟩
    · rintro ⟨thread, hthread⟩
      obtain ⟨x, hx, hid, -⟩ := (h.registry _ _).mp hthread
      exact ⟨x, hperm.mem_iff.mpr hx, hid⟩
  · obtain ⟨x, hx, rfl⟩ := List.mem_map.mp hid
    exact h.alive _ (Inv.mem_held (hperm.mem_iff.mp hx))
  · rw [State.threadAllKill, hall, flatMap_kill]
  · rw [State.threadAllNotifyServer, hall, hnotify]
  · rw [State.threadAllNotifyChannel, hall, hnotify]

/-- What the searches find, by the registry. -/
theorem Inv.threadName_eq (h : Inv s) (id : PthreadId) :
    s.threadName id = some (s, (registryOf s.log id).map Thread.name) := by
  obtain ⟨r, hfind, hr⟩ := h.findThread_map id
  rw [State.threadName, hfind, ← hr, Option.map_map]
  rfl

theorem Inv.threadGetHandler_eq (h : Inv s) (id : PthreadId) (signum : Signal) :
    s.threadGetHandler id signum = some (s,
      ((registryOf s.log id).map fun thread ↦ s.handlerOf id thread signum).getD (none, none)) := by
  obtain ⟨r, hfind, hr⟩ := h.findThread_map id
  rw [State.threadGetHandler, hfind, ← hr, Option.map_map]
  rfl

section Steps

variable [DecidableEq ι]

/-- A thread is registered. -/
theorem Inv.threadRegister (h : Inv s) {k : ℕ} (hthread : s.creating[k]? = some thread)
    (hx : x ∉ s.used) :
    ∃ s₁, s.threadRegister x thread = some s₁ ∧
      Inv { s₁ with
        creating := s.creating.eraseIdx k
        log := .registered (s.ids thread.threadId) thread :: s.log } := by
  obtain ⟨hk, hget⟩ := List.getElem?_eq_some_iff.mp hthread
  have hmem : thread ∈ s.creating := hget ▸ List.getElem_mem hk
  have hne : ∀ y ∈ s.used, y ≠ x := fun y hy hyx ↦ hx (hyx ▸ hy)
  let s₀ : State ι ν φ α := { s with
    item := Function.update s.item x thread
    threadTree := { s.threadTree with
      key := Function.update s.threadTree.key x thread.threadId } }
  have hkey : ∀ y ∈ s.used, s₀.tree.key y = s.tree.key y := fun y hy ↦
    congrArg s.ids (Function.update_of_ne (hne y hy) ..)
  have hkeyx : s₀.tree.key x = s.ids thread.threadId := congrArg s.ids (Function.update_self ..)
  have hitem : ∀ y ∈ s.used, Function.update s.item x thread y = s.item y := fun y hy ↦
    Function.update_of_ne (hne y hy) ..
  have hitemx : Function.update s.item x thread x = thread := Function.update_self ..
  have hidOf : ∀ y ∈ s.used, s.ids (Function.update s.item x thread y).threadId = s.idOf y :=
    fun y hy ↦ congrArg (fun thread ↦ s.ids thread.threadId) (hitem y hy)
  have hidOfx : s.ids (Function.update s.item x thread x).threadId = s.ids thread.threadId :=
    congrArg (fun thread ↦ s.ids thread.threadId) hitemx
  have hstores : Stores keyCompare s₀.tree s.used := h.stores.congr_key rfl rfl rfl hkey
  obtain ⟨p, hadd, hstores'⟩ := hstores.add keyCompare_strictTotal hx (fun y hy ↦ by
    rw [hkey y hy, hkeyx, h.key_eq hy]
    exact h.of_mem_creating hmem hy) .unlocked (fun _ ↦ h.mutex) true s₀.fuel (le_refl _)
  refine ⟨_, by rw [State.threadRegister, hadd]; rfl, ?_⟩
  have hthreads : ((x :: s.used).map (Function.update s.item x thread) ++
      s.creating.eraseIdx k).Perm s.threads := by
    rw [List.map_cons, hitemx, List.map_congr_left hitem, List.cons_append]
    apply List.perm_middle.symm.trans
    apply List.Perm.append_left
    rw [← hget]
    exact List.getElem_cons_eraseIdx_perm hk
  have hheld : (((x :: s.used).map (Function.update s.item x thread) ++
      s.creating.eraseIdx k).map (fun thread ↦ s.ids thread.threadId) ++ s.joining).Perm s.held :=
    (hthreads.map _).append_right _
  constructor
  · exact hstores'
  · exact h.mutex
  · intro y hy
    rcases List.mem_cons.mp hy with rfl | hy
    · exact (Function.update_self ..).trans (congrArg Thread.threadId hitemx).symm
    · exact (Function.update_of_ne (hne y hy) ..).trans
        ((h.key y hy).trans (congrArg Thread.threadId (hitem y hy)).symm)
  · exact hheld.nodup_iff.mpr h.nodup
  · exact fun id hid ↦ h.alive id (hheld.mem_iff.mp hid)
  · intro p hp
    obtain ⟨hused, hid⟩ := h.removing p hp
    exact ⟨List.mem_cons_of_mem _ hused, (hidOf p.1 hused).trans hid⟩
  · exact h.once
  · intro id thread'
    simp only [registryOf, List.mem_cons]
    by_cases hid : id = s.ids thread.threadId
    · rw [hid, Function.update_self, Option.some_inj]
      constructor
      · rintro rfl
        exact ⟨x, .inl rfl, hidOfx, hitemx⟩
      · rintro ⟨y, rfl | hy, hidy, rfl⟩
        · exact hitemx.symm
        · exact absurd ((hidOf y hy).symm.trans hidy) (h.of_mem_creating hmem hy)
    · rw [Function.update_of_ne hid, h.registry]
      constructor
      · rintro ⟨y, hy, hidy, rfl⟩
        exact ⟨y, .inr hy, (hidOf y hy).trans hidy, hitem y hy⟩
      · rintro ⟨y, rfl | hy, hidy, rfl⟩
        · exact absurd (hidy.symm.trans hidOfx) hid
        · exact ⟨y, hy, (hidOf y hy).symm.trans hidy, (hitem y hy).symm⟩

/-- A thread is removed, and is to be joined or not. -/
theorem Inv.threadRemove (h : Inv s) {k : ℕ} (hp : s.removing[k]? = some (x, id)) (self : Bool) :
    ∃ s₁, s.threadRemove x = some s₁ ∧
      Inv { s₁ with
        removing := s.removing.eraseIdx k
        joining := if self then s.joining else id :: s.joining
        log := .removed id :: s.log } := by
  obtain ⟨hk, hget⟩ := List.getElem?_eq_some_iff.mp hp
  have hmem : (x, id) ∈ s.removing := hget ▸ List.getElem_mem hk
  obtain ⟨hx, hid⟩ : x ∈ s.used ∧ s.idOf x = id := h.removing _ hmem
  obtain ⟨p, hremove, hstores⟩ := h.stores.remove hx s.tree.key (fun _ _ _ ↦ rfl) .unlocked
    (fun _ ↦ h.mutex) true s.fuel (Nat.le_add_right _ _)
  refine ⟨_, by rw [State.threadRemove, hremove]; rfl, ?_⟩
  have hused : ∀ y, y ∈ s.used.erase x ↔ y ≠ x ∧ y ∈ s.used := fun y ↦
    h.stores.nodup.mem_erase_iff
  have hperm : s.used.Perm (x :: s.used.erase x) := List.perm_cons_erase hx
  have hheld : s.held.Perm (id :: (((s.used.erase x).map s.item ++ s.creating).map
      (fun thread ↦ s.ids thread.threadId) ++ s.joining)) := by
    rw [← hid]
    exact (((hperm.map s.item).append_right s.creating).map _).append_right s.joining
  have hnodup := List.nodup_cons.mp (hheld.nodup_iff.mp h.nodup)
  have hlist : (((s.used.erase x).map s.item ++ s.creating).map
      (fun thread ↦ s.ids thread.threadId) ++
        if self then s.joining else id :: s.joining).Nodup ∧
      ∀ id' ∈ ((s.used.erase x).map s.item ++ s.creating).map
        (fun thread ↦ s.ids thread.threadId) ++ if self then s.joining else id :: s.joining,
        id' ∈ s.held := by
    cases self with
    | true => exact ⟨hnodup.2, fun _ hid' ↦ hheld.mem_iff.mpr (List.mem_cons_of_mem _ hid')⟩
    | false =>
        have hmiddle := List.perm_middle.trans hheld.symm
        exact ⟨hmiddle.nodup_iff.mpr h.nodup, fun _ hid' ↦ hmiddle.mem_iff.mp hid'⟩
  constructor
  · exact hstores
  · exact h.mutex
  · exact fun y hy ↦ h.key y ((hused y).mp hy).2
  · exact hlist.1
  · exact fun id' hid' ↦ h.alive id' (hlist.2 id' hid')
  · intro p hp
    obtain ⟨hpused, hpid⟩ := h.removing p (List.mem_of_mem_eraseIdx hp)
    refine ⟨(hused p.1).mpr ⟨?_, hpused⟩, hpid⟩
    rintro hpx
    have hcons : ((x, id) :: s.removing.eraseIdx k).Perm s.removing := by
      rw [← hget]
      exact List.getElem_cons_eraseIdx_perm hk
    have honce := (hcons.map Prod.snd).nodup_iff.mpr h.once
    refine (List.nodup_cons.mp honce).1 (List.mem_map.mpr ⟨p, hp, ?_⟩)
    rw [← hpid, ← hid, hpx]
  · exact h.once.sublist ((List.eraseIdx_sublist ..).map _)
  · intro id' thread
    simp only [registryOf]
    by_cases hid' : id' = id
    · rw [hid', Function.update_self]
      constructor
      · rintro ⟨⟩
      · rintro ⟨y, hy, hidy, -⟩
        obtain ⟨hyx, hy⟩ := (hused y).mp hy
        exact absurd (h.idOf_inj hy hx (hidy.trans hid.symm)) hyx
    · rw [Function.update_of_ne hid', h.registry]
      constructor
      · rintro ⟨y, hy, hidy, rfl⟩
        refine ⟨y, (hused y).mpr ⟨?_, hy⟩, hidy, rfl⟩
        rintro rfl
        exact hid' (hidy.symm.trans hid)
      · rintro ⟨y, hy, hidy, rfl⟩
        exact ⟨y, ((hused y).mp hy).2, hidy, rfl⟩

end Steps

/-- A new thread has an id and a variable of its own. -/
theorem Inv.create [DecidableEq ν] (h : Inv s) (hc : Careful s (.create id thread)) (hid : id ∉ s.alive)
    (pending : PthreadId → Signal → Bool) :
    Inv { s with
      ids := Function.update s.ids thread.threadId id
      creating := thread :: s.creating
      alive := id :: s.alive
      pending
      log := .created id :: s.log } := by
  have hvar : ∀ t ∈ s.threads, Function.update s.ids thread.threadId id t.threadId =
      s.ids t.threadId := by
    intro t ht
    apply Function.update_of_ne
    intro he
    refine hc.2 ?_
    rw [← he]
    rcases List.mem_append.mp ht with ht | ht
    · obtain ⟨y, hy, rfl⟩ := List.mem_map.mp ht
      exact List.mem_append_left _ (List.mem_map_of_mem hy)
    · exact List.mem_append_right _ (List.mem_map_of_mem ht)
  have hidOf : ∀ y ∈ s.used, Function.update s.ids thread.threadId id (s.item y).threadId =
      s.idOf y := fun y hy ↦ hvar _ (List.mem_append_left _ (List.mem_map_of_mem hy))
  have hheld : ((s.used.map s.item ++ thread :: s.creating).map
      (fun t ↦ Function.update s.ids thread.threadId id t.threadId) ++ s.joining).Perm
        (id :: s.held) := by
    have hmiddle : (s.used.map s.item ++ thread :: s.creating).Perm (thread :: s.threads) :=
      List.perm_middle
    refine ((hmiddle.map _).append_right _).trans ?_
    rw [List.map_cons, Function.update_self, List.map_congr_left hvar]
    exact .refl _
  constructor
  · refine h.stores.congr_key rfl rfl rfl fun y hy ↦ ?_
    rw [h.key_eq hy, ← hidOf y hy]
    exact congrArg (Function.update s.ids thread.threadId id) (h.key y hy)
  · exact h.mutex
  · exact h.key
  · exact hheld.nodup_iff.mpr (h.nodup.cons fun hmem ↦ hid (h.alive id hmem))
  · intro id' hid'
    rcases List.mem_cons.mp (hheld.mem_iff.mp hid') with rfl | hid'
    · exact List.mem_cons_self
    · exact List.mem_cons_of_mem _ (h.alive id' hid')
  · intro p hp
    obtain ⟨hused, hpid⟩ := h.removing p hp
    exact ⟨hused, (hidOf p.1 hused).trans hpid⟩
  · exact h.once
  · intro id' thread'
    simp only [registryOf]
    rw [h.registry]
    constructor
    · rintro ⟨y, hy, hidy, rfl⟩
      exact ⟨y, hy, (hidOf y hy).trans hidy, rfl⟩
    · rintro ⟨y, hy, hidy, rfl⟩
      exact ⟨y, hy, (hidOf y hy).symm.trans hidy, rfl⟩

/-- A thread handles a signal; `main` sends it on to the other ones. -/
theorem Inv.signalEveryone (h : Inv s) (id : PthreadId) (signum : Signal) :
    ∃ sigFunc arg ids, Lists s ids ∧
      ((registryOf s.log id).map fun thread ↦ s.handlerOf id thread signum).getD (none, none) =
        (sigFunc, arg) ∧
      s.signalEveryone id signum = some
        (if id = s.ids s.mainThreadId then
          { s with log := .handled id signum sigFunc arg :: s.log }.kill signum
            (if signum.forwarded then ids.filter (· ≠ s.ids s.mainThreadId) else [])
        else { s with log := .handled id signum sigFunc arg :: s.log }) := by
  rcases hhandler : ((registryOf s.log id).map fun thread ↦
    s.handlerOf id thread signum).getD (none, none) with ⟨sigFunc, arg⟩
  have hnoted : Inv { s with log := .handled id signum sigFunc arg :: s.log } :=
    h.note s.pending rfl
  obtain ⟨ids, hlists, hkill, -, -⟩ := hnoted.walks
  refine ⟨sigFunc, arg, ids, ⟨hlists.sorted, hlists.mem_iff, hlists.alive⟩, rfl, ?_⟩
  rw [State.signalEveryone, h.threadGetHandler_eq, hhandler]
  simp only [Option.bind_eq_bind, Option.bind_some]
  by_cases hid : id = s.ids s.mainThreadId
  · rw [if_pos hid, if_pos hid, hkill]
    rfl
  · rw [if_neg hid, if_neg hid]

theorem step_inv [DecidableEq ι] [DecidableEq ν] (h : Inv s) {e : Event ι ν φ α}
    (hc : Careful s e) (he : step s e = some s') : Inv s' := by
  cases e with
  | create id thread =>
      simp only [step] at he
      split at he
      · cases he
      · rename_i hid
        cases he
        exact h.create hc hid _
  | register k x =>
      obtain ⟨thread, hthread, he⟩ := Option.bind_eq_some_iff.mp he
      split at he
      · cases he
      · rename_i hx
        obtain ⟨s₁, heq, hinv⟩ := h.threadRegister hthread hx
        rw [heq] at he
        cases he
        exact hinv
  | deregister id =>
      obtain ⟨r, hfind, hr⟩ := h.findThread_eq id
      simp only [step, hfind, Option.bind_eq_bind, Option.bind_some] at he
      cases r with
      | none =>
          cases he
          exact h
      | some x =>
          cases he
          obtain ⟨hx, rfl⟩ := (hr x).mp rfl
          exact h.deregister hx hc
  | remove k self =>
      obtain ⟨⟨x, id⟩, hp, he⟩ := Option.bind_eq_some_iff.mp he
      obtain ⟨s₁, heq, hinv⟩ := h.threadRemove hp self
      simp only [heq, Option.bind_eq_bind, Option.bind_some] at he
      cases he
      exact hinv
  | join k =>
      obtain ⟨id, hid, he⟩ := Option.bind_eq_some_iff.mp he
      cases he
      exact h.join hid
  | raise id signum =>
      cases he
      exact h.note _ rfl
  | deliver id signum =>
      simp only [step] at he
      split at he
      · have hpending := h.setPending id signum false
        obtain ⟨sigFunc, arg, ids, -, -, heq⟩ := hpending.signalEveryone id signum
        rw [heq] at he
        cases he
        have hhandled : Inv { s.setPending id signum false with
            log := .handled id signum sigFunc arg :: s.log } := hpending.note _ rfl
        split
        · exact hhandled.note _ rfl
        · exact hhandled
      · cases he

variable [DecidableEq ι] [DecidableEq ν]

/-- In every run the searches and the walks over the tree are those of the registry: each thread
that was registered and not removed is found by its id and visited once, in the order of the ids,
and no other one; the threads that get a signal were not joined. -/
theorem reachable_registry (h : (system ι ν φ α).ReachableVia Careful s) :
    (∀ id, s.threadName id = some (s, (registryOf s.log id).map Thread.name)) ∧
    (∀ id signum, s.threadGetHandler id signum = some (s, ((registryOf s.log id).map fun thread ↦
      s.handlerOf id thread signum).getD (none, none))) ∧
    ∃ ids, Lists s ids ∧
      (∀ signum, s.threadAllKill signum = some (s, if signum.forwarded
        then ids.filter (· ≠ s.ids s.mainThreadId) else [])) ∧
      s.threadAllNotifyServer = some (s, ids.filterMap fun id ↦
        (registryOf s.log id).bind fun thread ↦ thread.callbacks.bind ThreadCallback.serverDisable) ∧
      s.threadAllNotifyChannel = some (s, ids.filterMap fun id ↦
        (registryOf s.log id).bind fun thread ↦
          thread.callbacks.bind ThreadCallback.channelDisable) := by
  have hinv : Inv s := h.invariant (fun _ ↦ Init.inv) fun _ _ _ h hc he ↦ step_inv h hc he
  exact ⟨hinv.threadName_eq, hinv.threadGetHandler_eq, hinv.walks⟩

/-- The id of `main`, in the variable 0. -/
def mainId : PthreadId := ⟨7, by decide⟩

def feedId : PthreadId := ⟨3, by decide⟩

/-- `main` when it starts. -/
def start : State ℕ ℕ String ℕ where
  ids _ := mainId
  threadTree := balancedBTreeCreate 0 ⟨fun _ ↦ none, fun _ ↦ none, fun _ ↦ none⟩ (fun _ ↦ 0)
    fun _ ↦ none
  item _ := ⟨0, [], none⟩
  used := []
  mainThreadId := 0
  cursesOutThreadId := 1
  daemon := true
  creating := [⟨0, "thread_main".toList, some ⟨some "mainSighup", none, none, none⟩⟩]
  removing := []
  joining := []
  alive := [mainId]
  pending _ _ := false
  log := []

theorem init_start : Init start where
  empty := ⟨_, _, _, _, rfl⟩
  used := rfl
  creating := ⟨_, rfl, rfl⟩
  alive := rfl
  removing := rfl
  joining := rfl
  pending _ _ := rfl
  log := rfl

/-- The thread of a plugin, in the variable 2. -/
def feedThread : Thread ℕ String ℕ :=
  ⟨2, "thread_rssfeed".toList, some ⟨some "rssfeedSighup", none, some "rssfeedDisableServer", none⟩⟩

/-- The steps of callers that are careful. -/
def careful : System (State ℕ ℕ String ℕ) (Event ℕ ℕ String ℕ) :=
  (system ℕ ℕ String ℕ).guard fun s e ↦ decide (Careful s e)

theorem careful_reachable {s : State ℕ ℕ String ℕ} {es : List (Event ℕ ℕ String ℕ)}
    (h : careful.run start es = some s) : (system ℕ ℕ String ℕ).ReachableVia Careful s :=
  System.reachableVia_of_run (fun _ _ ↦ of_decide_eq_true) init_start h

/-- A thread is created before `main` is registered, and is registered after it, below it in the
order of the ids. -/
theorem reachable_registry_two :
    ∃ s, careful.run start [.create feedId feedThread, .register 1 10, .register 0 11] = some s ∧
      s.threadName feedId = some (s, some "thread_rssfeed".toList) ∧
      s.threadAllKill .sighup = some (s, [feedId]) := by
  have heval : (careful.run start [.create feedId feedThread, .register 1 10,
      .register 0 11]).map (fun s ↦
        (registryOf s.log feedId, (s.threadAllKill .sighup).map Prod.snd)) =
      some (some feedThread, some [feedId]) := by
    decide +kernel
  obtain ⟨s, hrun, hs⟩ := Option.map_eq_some_iff.mp heval
  obtain ⟨hregistry, hids⟩ := Prod.mk.inj hs
  obtain ⟨hname, -, ids, -, hkill, -⟩ := reachable_registry (careful_reachable hrun)
  refine ⟨s, hrun, ?_, ?_⟩
  · rw [hname, hregistry]
    rfl
  · rw [hkill, Option.map_some, Option.some_inj] at hids
    exact (hkill _).trans (congrArg (fun ids ↦ some (s, ids)) hids)

end Beirdobot.ThreadApi
