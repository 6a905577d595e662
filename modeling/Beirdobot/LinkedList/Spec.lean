import Beirdobot.LinkedList.Model

/-!
# What adding and removing do

A list in memory is described by `Holds l xs`: following the next pointers from
the head, and the previous pointers from the tail, gives the items `xs`.
-/

namespace Beirdobot.Linked

open Library

variable {ι : Type}

/-- The items of the list in memory are `xs`, in that order. -/
structure Holds (l : LinkedList ι) (xs : List ι) : Prop where
  head_eq : l.head = xs.head?
  tail_eq : l.tail = xs.getLast?
  seg : Seg l.toSeqLinks none none xs
  nodup : xs.Nodup
  owner : ∀ x ∈ xs, l.owner x = some l.self

theorem linkedListCreate_holds (self : ℕ) (items : SeqLinks ι) (owner : ι → Option ℕ) :
    Holds (linkedListCreate self items owner) [] :=
  ⟨rfl, rfl, trivial, List.nodup_nil, by simp⟩

theorem Holds.setMutex {l : LinkedList ι} {xs : List ι} (h : Holds l xs) (mutex : Bool) :
    Holds { l with mutex } xs :=
  ⟨h.head_eq, h.tail_eq, h.seg, h.nodup, h.owner⟩

/-- The item after `x`. -/
theorem Holds.next_eq {l : LinkedList ι} {a b : List ι} {x : ι} (h : Holds l (a ++ x :: b)) :
    l.next x = b.head? := by
  obtain ⟨-, -, hx, -⟩ := seg_append.mp h.seg
  rwa [Option.or_none] at hx

/-- The item before `x`. -/
theorem Holds.prev_eq {l : LinkedList ι} {a b : List ι} {x : ι} (h : Holds l (a ++ x :: b)) :
    l.prev x = a.getLast? := by
  obtain ⟨-, hx, -⟩ := seg_append.mp h.seg
  rwa [Option.or_none] at hx

/-- Entering locks the mutex unless the caller has. -/
theorem enter_eq {l : LinkedList ι} {lock : Locked} (h : lock = .unlocked → l.mutex = false) :
    enter l lock = some { l with mutex := l.mutex || lock == .unlocked } := by
  cases lock with
  | unlocked => simp [enter, linkedListLock, h rfl]
  | locked => simp [enter, show (Locked.locked == Locked.unlocked) = false from rfl]

theorem leave_eq (l : LinkedList ι) (lock : Locked) :
    leave l lock = { l with mutex := l.mutex && lock == .locked } := by
  cases lock with
  | unlocked =>
      simp [leave, linkedListUnlock, show (Locked.unlocked == Locked.locked) = false from rfl]
  | locked => simp [leave]

/-- After entering and leaving, the mutex is as it was. -/
theorem mutex_enter_leave {l : LinkedList ι} {lock : Locked}
    (h : lock = .unlocked → l.mutex = false) :
    ((l.mutex || lock == .unlocked) && lock == .locked) = l.mutex := by
  cases lock with
  | unlocked =>
      rw [h rfl]
      rfl
  | locked => simp [show (Locked.locked == Locked.unlocked) = false from rfl]

variable [DecidableEq ι]

/-- What a removal writes, with the neighbours of the item. -/
theorem linkedListRemove_eq {l : LinkedList ι} {a b : List ι} {x : ι}
    (h : Holds l (a ++ x :: b)) (lock : Locked) (hlock : lock = .unlocked → l.mutex = false) :
    linkedListRemove l (some x) lock = some
      { toSeqLinks := (l.toSeqLinks.linkNext a.getLast? b.head?).linkPrev b.head? a.getLast?
        head := if l.head = some x then b.head? else l.head
        tail := if l.tail = some x then a.getLast? else l.tail
        owner := Function.update l.owner x none
        self := l.self
        mutex := l.mutex } := by
  obtain ⟨hp, hx, -⟩ := h.seg.unlink h.nodup
  have howner : l.owner x = some l.self := h.owner x (by simp)
  have hxa : x ∉ a ++ b := by
    have hperm : (a ++ x :: b).Perm (x :: (a ++ b)) := List.perm_middle
    exact (List.nodup_cons.mp (hperm.nodup_iff.mp h.nodup)).1
  have hpx : some x ≠ a.getLast? := by
    intro e
    exact hxa (List.mem_append_left _ (List.mem_of_mem_getLast? e.symm))
  have hnx : some x ≠ b.head? := by
    intro e
    exact hxa (List.mem_append_right _ (List.mem_of_mem_head? e.symm))
  simp only [linkedListRemove, howner, ne_eq, not_true_eq_false, if_false, enter_eq hlock,
    Option.bind_eq_bind, Option.bind_some, leave_eq, hp, hx]
  by_cases hh : l.head = some x <;> by_cases ht : l.tail = some x <;>
    simp [hh, ht, hpx, hp, hx, mutex_enter_leave hlock]

/-- Removing an item of the list links its neighbours. -/
theorem linkedListRemove_holds {l : LinkedList ι} {a b : List ι} {x : ι}
    (h : Holds l (a ++ x :: b)) (lock : Locked) (hlock : lock = .unlocked → l.mutex = false) :
    ∃ l', linkedListRemove l (some x) lock = some l' ∧ Holds l' (a ++ b) ∧ l'.self = l.self ∧
      l'.mutex = l.mutex := by
  obtain ⟨-, -, hseg⟩ := h.seg.unlink h.nodup
  obtain ⟨hxa, hab⟩ : x ∉ a ++ b ∧ (a ++ b).Nodup := by
    have hperm : (a ++ x :: b).Perm (x :: (a ++ b)) := List.perm_middle
    exact List.nodup_cons.mp (hperm.nodup_iff.mp h.nodup)
  refine ⟨_, linkedListRemove_eq h lock hlock, ⟨?_, ?_, hseg, hab, ?_⟩, rfl, rfl⟩
  · show (if l.head = some x then b.head? else l.head) = _
    rw [h.head_eq]
    cases a with
    | nil => simp
    | cons y a =>
        have hyx : y ≠ x := fun e ↦ hxa (by simp [e])
        simp [hyx]
  · show (if l.tail = some x then a.getLast? else l.tail) = _
    rw [h.tail_eq]
    rcases List.eq_nil_or_concat b with rfl | ⟨b, y, rfl⟩
    · simp
    · have hyx : y ≠ x := fun e ↦ hxa (by simp [e])
      have hlast : (x :: (b ++ [y])).getLast? = some y := by
        rw [← List.cons_append, List.getLast?_append]
        rfl
      simp [hlast, hyx]
  · intro y hy
    have hyx : y ≠ x := fun e ↦ hxa (e ▸ hy)
    show Function.update l.owner x none y = _
    rw [Function.update_of_ne hyx]
    refine h.owner y ?_
    simp only [List.mem_append, List.mem_cons] at hy ⊢
    tauto

/-- What an addition at the head writes. -/
theorem linkedListAdd_atHead_eq {l : LinkedList ι} {xs : List ι} {x : ι} (h : Holds l xs)
    (hx : x ∉ xs) (lock : Locked) (hlock : lock = .unlocked → l.mutex = false) :
    linkedListAdd l (some x) lock .atHead = some
      { toSeqLinks := ((l.toSeqLinks.setPrev x none).setNext x xs.head?).linkPrev xs.head? (some x)
        head := some x
        tail := if l.tail = none then some x else l.tail
        owner := Function.update l.owner x (some l.self)
        self := l.self
        mutex := l.mutex } := by
  have hhx : some x ≠ xs.head? := fun e ↦ hx (List.mem_of_mem_head? e.symm)
  simp only [linkedListAdd, enter_eq hlock, Option.bind_eq_bind, Option.bind_some, leave_eq,
    h.head_eq]
  by_cases ht : l.tail = none <;> simp [ht, hhx, mutex_enter_leave hlock, SeqLinks.linkNext]

/-- What an addition at the tail writes. -/
theorem linkedListAdd_atTail_eq {l : LinkedList ι} {xs : List ι} {x : ι} (h : Holds l xs)
    (lock : Locked) (hlock : lock = .unlocked → l.mutex = false) :
    linkedListAdd l (some x) lock .atTail = some
      { toSeqLinks :=
          ((l.toSeqLinks.setPrev x xs.getLast?).setNext x none).linkNext xs.getLast? (some x)
        head := if l.head = none then some x else l.head
        tail := some x
        owner := Function.update l.owner x (some l.self)
        self := l.self
        mutex := l.mutex } := by
  simp only [linkedListAdd, enter_eq hlock, Option.bind_eq_bind, Option.bind_some, leave_eq,
    h.tail_eq]
  by_cases hh : l.head = none <;> simp [hh, mutex_enter_leave hlock, SeqLinks.linkPrev]

/-- The owners after an addition. -/
theorem Holds.owner_add {l : LinkedList ι} {xs : List ι} (h : Holds l xs) {x y : ι}
    (hy : y = x ∨ y ∈ xs) : Function.update l.owner x (some l.self) y = some l.self := by
  by_cases hyx : y = x
  · rw [hyx, Function.update_self]
  · rw [Function.update_of_ne hyx]
    exact h.owner y (hy.resolve_left hyx)

/-- Adding at the head. -/
theorem linkedListAdd_atHead {l : LinkedList ι} {xs : List ι} {x : ι} (h : Holds l xs)
    (hx : x ∉ xs) (lock : Locked) (hlock : lock = .unlocked → l.mutex = false) :
    ∃ l', linkedListAdd l (some x) lock .atHead = some l' ∧ Holds l' (x :: xs) ∧
      l'.self = l.self ∧ l'.mutex = l.mutex := by
  have hhx : some x ≠ xs.head? := fun e ↦ hx (List.mem_of_mem_head? e.symm)
  refine ⟨_, linkedListAdd_atHead_eq h hx lock hlock,
    ⟨rfl, ?_, ⟨?_, ?_, ?_⟩, List.nodup_cons.mpr ⟨hx, h.nodup⟩,
      fun y hy ↦ h.owner_add (List.mem_cons.mp hy)⟩, rfl, rfl⟩
  · show (if l.tail = none then some x else l.tail) = _
    rw [h.tail_eq, List.getLast?_cons]
    cases xs.getLast? <;> simp
  · simp [hhx]
  · simp
  · have hseg : Seg ((l.toSeqLinks.setPrev x none).setNext x xs.head?) none none xs :=
      h.seg.congr fun z hz ↦ by
        have hzx : z ≠ x := fun e ↦ hx (e ▸ hz)
        simp [hzx]
    exact hseg.linkPrev h.nodup (some x)

/-- Adding at the tail. -/
theorem linkedListAdd_atTail {l : LinkedList ι} {xs : List ι} {x : ι} (h : Holds l xs)
    (hx : x ∉ xs) (lock : Locked) (hlock : lock = .unlocked → l.mutex = false) :
    ∃ l', linkedListAdd l (some x) lock .atTail = some l' ∧ Holds l' (xs ++ [x]) ∧
      l'.self = l.self ∧ l'.mutex = l.mutex := by
  have hhx : some x ≠ xs.getLast? := fun e ↦ hx (List.mem_of_mem_getLast? e.symm)
  have hnodup : (xs ++ [x]).Nodup :=
    List.nodup_append.mpr ⟨h.nodup, by simp, fun y hy z hz e ↦ by
      rw [List.mem_singleton] at hz
      exact hx (hz ▸ e ▸ hy)⟩
  refine ⟨_, linkedListAdd_atTail_eq h lock hlock,
    ⟨?_, by simp, seg_append.mpr ⟨?_, ?_, ?_, trivial⟩, hnodup, fun y hy ↦ h.owner_add ?_⟩,
    rfl, rfl⟩
  · show (if l.head = none then some x else l.head) = _
    rw [h.head_eq, List.head?_append]
    cases xs.head? <;> simp
  · have hseg : Seg ((l.toSeqLinks.setPrev x xs.getLast?).setNext x none) none none xs :=
      h.seg.congr fun z hz ↦ by
        have hzx : z ≠ x := fun e ↦ hx (e ▸ hz)
        simp [hzx]
    exact hseg.linkNext h.nodup (some x)
  · simp
  · simp [hhx]
  · simpa [or_comm] using hy

/-! ## What is left alone -/

/-- Outside of `S` the two memories have the same items. -/
def Apart (l l' : LinkedList ι) (S : List ι) : Prop :=
  ∀ z ∉ S, l'.next z = l.next z ∧ l'.prev z = l.prev z ∧ l'.owner z = l.owner z

theorem linkedListRemove_apart {l l' : LinkedList ι} {xs : List ι} {x : ι} (h : Holds l xs)
    (hx : x ∈ xs) (lock : Locked) (hlock : lock = .unlocked → l.mutex = false)
    (he : linkedListRemove l (some x) lock = some l') : Apart l l' xs := by
  obtain ⟨a, b, rfl⟩ := List.append_of_mem hx
  rw [linkedListRemove_eq h lock hlock, Option.some.injEq] at he
  subst he
  intro z hz
  simp only [List.mem_append, List.mem_cons, not_or] at hz
  obtain ⟨hza, hzx, hzb⟩ := hz
  have hlast : some z ≠ a.getLast? := fun e ↦ hza (List.mem_of_mem_getLast? e.symm)
  have hhead : some z ≠ b.head? := fun e ↦ hzb (List.mem_of_mem_head? e.symm)
  exact ⟨by simp [hlast], by simp [hhead], Function.update_of_ne hzx ..⟩

theorem linkedListAdd_apart {l l' : LinkedList ι} {xs : List ι} {x : ι} (h : Holds l xs)
    (hx : x ∉ xs) (lock : Locked) (hlock : lock = .unlocked → l.mutex = false)
    (location : Location) (he : linkedListAdd l (some x) lock location = some l') :
    Apart l l' (x :: xs) := by
  intro z hz
  obtain ⟨hzx, hzxs⟩ := not_or.mp (mt List.mem_cons.mpr hz)
  cases location with
  | atHead =>
      rw [linkedListAdd_atHead_eq h hx lock hlock, Option.some.injEq] at he
      subst he
      have hhead : some z ≠ xs.head? := fun e ↦ hzxs (List.mem_of_mem_head? e.symm)
      exact ⟨by simp [hzx], by simp [hzx, hhead], Function.update_of_ne hzx ..⟩
  | atTail =>
      rw [linkedListAdd_atTail_eq h lock hlock, Option.some.injEq] at he
      subst he
      have hlast : some z ≠ xs.getLast? := fun e ↦ hzxs (List.mem_of_mem_getLast? e.symm)
      exact ⟨by simp [hzx, hlast], by simp [hzx], Function.update_of_ne hzx ..⟩

end Beirdobot.Linked
