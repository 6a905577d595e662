import Beirdobot.LinkedList.Spec
import Beirdobot.Library.System
import Mathlib.Data.List.Perm.Basic

/-!
# Many lists in one memory

Every list of the bot and the items they share.  Beside the memory stands the
sequence each list is to hold; adding and removing change the two in step.
-/

namespace Beirdobot.Linked

open Library

variable {ι : Type}

/-- All lists, by their address, and the items in memory. -/
structure Lists (ι : Type) extends SeqLinks ι where
  head : ℕ → Option ι
  tail : ℕ → Option ι
  owner : ι → Option ℕ
  mutex : ℕ → Bool

/-- The list at address `c`. -/
def Lists.list (m : Lists ι) (c : ℕ) : LinkedList ι :=
  { toSeqLinks := m.toSeqLinks, head := m.head c, tail := m.tail c, owner := m.owner, self := c,
    mutex := m.mutex c }

/-- The memory after a call on one list. -/
def Lists.put (m : Lists ι) (l : LinkedList ι) : Lists ι :=
  { toSeqLinks := l.toSeqLinks
    head := Function.update m.head l.self l.head
    tail := Function.update m.tail l.self l.tail
    owner := l.owner
    mutex := Function.update m.mutex l.self l.mutex }

/-- A call on one list, or the caller's own locking of it. -/
inductive ListOp (ι : Type)
  | add (list : ℕ) (item : Option ι) (lock : Locked) (location : Location)
  | remove (list : ℕ) (item : Option ι) (lock : Locked)
  | lock (list : ℕ)
  | unlock (list : ℕ)

/-- The memory and the sequence of each list. -/
structure Sequences (ι : Type) where
  memory : Lists ι
  contents : ℕ → List ι

/-! ## One list among the others -/

@[simp] theorem list_put_self (m : Lists ι) (l : LinkedList ι) : (m.put l).list l.self = l := by
  simp [Lists.list, Lists.put]

theorem list_put_of_ne (m : Lists ι) (l : LinkedList ι) {c : ℕ} (h : c ≠ l.self) :
    (m.put l).list c = { m.list c with toSeqLinks := l.toSeqLinks, owner := l.owner } := by
  simp [Lists.list, Lists.put, h]

theorem put_list (m : Lists ι) (c : ℕ) : m.put (m.list c) = m := by
  simp [Lists.list, Lists.put]

/-- Every list holds its sequence, and an item says which list it is on. -/
structure Kept (s : Sequences ι) : Prop where
  holds : ∀ c, Holds (s.memory.list c) (s.contents c)
  mem_of_owner : ∀ x c, s.memory.owner x = some c → x ∈ s.contents c

namespace Kept

variable {s : Sequences ι} (h : Kept s)

include h

theorem owner_iff {x : ι} {c : ℕ} : s.memory.owner x = some c ↔ x ∈ s.contents c :=
  ⟨h.mem_of_owner x c, (h.holds c).owner x⟩

/-- An item is on one list only. -/
theorem eq_of_mem {x : ι} {c d : ℕ} (hc : x ∈ s.contents c) (hd : x ∈ s.contents d) : c = d := by
  rw [← h.owner_iff] at hc hd
  exact Option.some.inj (hc.symm.trans hd)

/-- A call that only writes items of one list, and one that is on none, leaves the
other lists as they are. -/
theorem holds_put {l : LinkedList ι} {S xs : List ι} {c : ℕ}
    (ha : Apart (s.memory.list c) l S) (hS : ∀ d ≠ c, ∀ x ∈ s.contents d, x ∉ S)
    (hself : l.self = c) (hl : Holds l xs) (d : ℕ) :
    Holds ((s.memory.put l).list d) (Function.update s.contents c xs d) := by
  by_cases hdc : d = c
  · rw [hdc, Function.update_self, ← hself, list_put_self]
    exact hl
  · rw [Function.update_of_ne hdc, list_put_of_ne _ _ (hself ▸ hdc)]
    have hd := h.holds d
    refine ⟨hd.head_eq, hd.tail_eq, hd.seg.congr fun z hz ↦ ?_, hd.nodup, fun z hz ↦ ?_⟩
    · obtain ⟨hn, hp, -⟩ := ha z (hS d hdc z hz)
      exact ⟨hn, hp⟩
    · obtain ⟨-, -, ho⟩ := ha z (hS d hdc z hz)
      exact ho.trans (hd.owner z hz)

/-- Locking or unlocking a list changes no sequence. -/
theorem setMutex (c : ℕ) (mutex : Bool) :
    Kept { s with memory := s.memory.put { s.memory.list c with mutex } } := by
  refine ⟨fun d ↦ ?_, h.mem_of_owner⟩
  have hput := h.holds_put (c := c) (S := []) (l := { s.memory.list c with mutex })
    (fun z _ ↦ ⟨rfl, rfl, rfl⟩) (by simp) rfl ((h.holds c).setMutex mutex) d
  rwa [Function.update_eq_self] at hput

end Kept

/-! ## Calls -/

variable [DecidableEq ι]

/-- The code's call. -/
def listCall (m : Lists ι) : ListOp ι → Option (Lists ι)
  | .add list item lock location => (linkedListAdd (m.list list) item lock location).map m.put
  | .remove list item lock => (linkedListRemove (m.list list) item lock).map m.put
  | .lock list => (linkedListLock (m.list list)).map m.put
  | .unlock list => some (m.put (linkedListUnlock (m.list list)))

/-- Where an insertion puts its item. -/
def insertAt (x : ι) (xs : List ι) : Location → List ι
  | .atHead => x :: xs
  | .atTail => xs ++ [x]

/-- What a call is to do to the sequences. -/
def sequencesAfter (contents : ℕ → List ι) : ListOp ι → ℕ → List ι
  | .add list (some x) _ location =>
      Function.update contents list (insertAt x (contents list) location)
  | .remove list (some x) _ => Function.update contents list ((contents list).erase x)
  | _ => contents

/-- Only items that are on no list are added. -/
def AddsNew (contents : ℕ → List ι) : ListOp ι → Prop
  | .add _ (some x) _ _ => ∀ c, x ∉ contents c
  | _ => True

/-- The runs of calls from empty lists, in a memory whose items are on no list.  A
call that waits for a mutex is no step. -/
def sequences (ι : Type) [DecidableEq ι] : System (Sequences ι) (ListOp ι) where
  init s := (∀ c, s.memory.head c = none ∧ s.memory.tail c = none ∧ s.contents c = []) ∧
    ∀ x, s.memory.owner x = none
  step s op := (listCall s.memory op).map fun memory ↦
    { memory, contents := sequencesAfter s.contents op }

/-- Read from its head and from its tail, each list is its sequence; and to remove an
item that is not on a list changes nothing. -/
structure ReadsBack (s : Sequences ι) : Prop where
  forward : ∀ c fuel, (s.contents c).length ≤ fuel →
    follow s.memory.next fuel (s.memory.head c) = s.contents c
  backward : ∀ c fuel, (s.contents c).length ≤ fuel →
    follow s.memory.prev fuel (s.memory.tail c) = (s.contents c).reverse
  remove_absent : ∀ c x lock, x ∉ s.contents c →
    (sequences ι).step s (.remove c (some x) lock) = some s

/-! ## Runs -/

theorem linkedListAdd_mutex {l l' : LinkedList ι} {x : ι} {lock : Locked} {location : Location}
    (he : linkedListAdd l (some x) lock location = some l') :
    lock = .unlocked → l.mutex = false := by
  rintro rfl
  obtain ⟨l₁, hlock, -⟩ := Option.bind_eq_some_iff.mp he
  simp only [enter, linkedListLock] at hlock
  split at hlock
  · cases hlock
  · rename_i hm
    simpa using hm

theorem linkedListRemove_mutex {l l' : LinkedList ι} {x : ι} {lock : Locked}
    (ho : l.owner x = some l.self) (he : linkedListRemove l (some x) lock = some l') :
    lock = .unlocked → l.mutex = false := by
  rintro rfl
  simp only [linkedListRemove, ho, ne_eq, not_true_eq_false, if_false] at he
  obtain ⟨l₁, hlock, -⟩ := Option.bind_eq_some_iff.mp he
  simp only [enter, linkedListLock] at hlock
  split at hlock
  · cases hlock
  · rename_i hm
    simpa using hm

theorem linkedListAdd_insertAt {l l' : LinkedList ι} {xs : List ι} {x : ι} (h : Holds l xs)
    (hx : x ∉ xs) {lock : Locked} {location : Location}
    (he : linkedListAdd l (some x) lock location = some l') :
    Holds l' (insertAt x xs location) ∧ l'.self = l.self ∧ Apart l l' (x :: xs) ∧
      l'.owner = Function.update l.owner x (some l.self) := by
  have hlock := linkedListAdd_mutex he
  have ha := linkedListAdd_apart h hx lock hlock location he
  cases location with
  | atHead =>
      obtain ⟨l₁, he₁, hl₁, hself, -⟩ := linkedListAdd_atHead h hx lock hlock
      have howner := linkedListAdd_atHead_eq h hx lock hlock
      rw [he, Option.some.injEq] at he₁ howner
      subst he₁
      exact ⟨hl₁, hself, ha, by rw [howner]⟩
  | atTail =>
      obtain ⟨l₁, he₁, hl₁, hself, -⟩ := linkedListAdd_atTail h hx lock hlock
      have howner := linkedListAdd_atTail_eq (x := x) h lock hlock
      rw [he, Option.some.injEq] at he₁ howner
      subst he₁
      exact ⟨hl₁, hself, ha, by rw [howner]⟩

omit [DecidableEq ι] in
theorem mem_insertAt {x y : ι} {xs : List ι} {location : Location} :
    y ∈ insertAt x xs location ↔ y = x ∨ y ∈ xs := by
  cases location <;> simp [insertAt, or_comm]

namespace Kept

variable {s s' : Sequences ι} (h : Kept s)

include h

/-- To remove an item that is not on a list changes nothing. -/
theorem remove_absent {c : ℕ} {x : ι} (hx : x ∉ s.contents c) (lock : Locked) :
    (sequences ι).step s (.remove c (some x) lock) = some s := by
  have ho : (s.memory.list c).owner x ≠ some (s.memory.list c).self := mt (h.mem_of_owner x c) hx
  simp only [sequences, listCall, linkedListRemove, if_pos ho, Option.map_some, put_list,
    sequencesAfter, List.erase_of_not_mem hx, Function.update_eq_self]

/-- A call changes the memory and the sequences in step. -/
theorem step {op : ListOp ι} (hn : AddsNew s.contents op) (he : (sequences ι).step s op = some s') :
    Kept s' := by
  obtain ⟨memory, hcall, hs'⟩ := Option.map_eq_some_iff.mp he
  subst hs'
  cases op with
  | add c item lock location =>
      cases item with
      | none =>
          cases hcall
          rw [put_list]
          exact h
      | some x =>
          obtain ⟨l, hl, rfl⟩ := Option.map_eq_some_iff.mp hcall
          obtain ⟨hholds, hself, ha, howner⟩ := linkedListAdd_insertAt (h.holds c) (hn c) hl
          refine ⟨h.holds_put ha (fun d hdc z hz ↦ ?_) hself hholds, fun z d hzd ↦ ?_⟩
          · intro hmem
            rcases List.mem_cons.mp hmem with rfl | hzc
            · exact hn d hz
            · exact hdc (h.eq_of_mem hz hzc)
          · change l.owner z = some d at hzd
            rw [howner] at hzd
            show z ∈ Function.update s.contents c (insertAt x (s.contents c) location) d
            by_cases hzx : z = x
            · rw [hzx, Function.update_self, Option.some.injEq] at hzd
              obtain rfl : c = d := hzd
              rw [Function.update_self]
              exact mem_insertAt.mpr (.inl hzx)
            · rw [Function.update_of_ne hzx] at hzd
              have hmem := h.mem_of_owner z d hzd
              by_cases hdc : d = c
              · rw [hdc, Function.update_self]
                exact mem_insertAt.mpr (.inr (hdc ▸ hmem))
              · rwa [Function.update_of_ne hdc]
  | remove c item lock =>
      cases item with
      | none =>
          cases hcall
          rw [put_list]
          exact h
      | some x =>
          by_cases hx : x ∈ s.contents c
          · obtain ⟨l, hl, rfl⟩ := Option.map_eq_some_iff.mp hcall
            have hlock := linkedListRemove_mutex ((h.holds c).owner x hx) hl
            have ha := linkedListRemove_apart (h.holds c) hx lock hlock hl
            obtain ⟨a, b, hab⟩ := List.append_of_mem hx
            have hc := h.holds c
            rw [hab] at hc
            have heq := linkedListRemove_eq hc lock hlock
            obtain ⟨l₁, hl₁, hholds, hself, -⟩ := linkedListRemove_holds hc lock hlock
            rw [hl, Option.some.injEq] at hl₁ heq
            subst hl₁
            have hxa : x ∉ a := fun hxa ↦ (List.nodup_append.mp hc.nodup).2.2 x hxa x (by simp) rfl
            have herase : (s.contents c).erase x = a ++ b := by
              rw [hab, List.erase_append_right _ hxa, List.erase_cons_head]
            refine ⟨fun d ↦ ?_, fun z d hzd ↦ ?_⟩
            · show Holds _ (Function.update s.contents c ((s.contents c).erase x) d)
              rw [herase]
              exact h.holds_put ha (fun d hdc z hz hzc ↦ hdc (h.eq_of_mem hz hzc)) hself hholds d
            · change l.owner z = some d at hzd
              rw [heq] at hzd
              change Function.update s.memory.owner x none z = some d at hzd
              have hzx : z ≠ x := by
                rintro rfl
                rw [Function.update_self] at hzd
                cases hzd
              rw [Function.update_of_ne hzx] at hzd
              have hmem := h.mem_of_owner z d hzd
              show z ∈ Function.update s.contents c ((s.contents c).erase x) d
              by_cases hdc : d = c
              · rw [hdc, Function.update_self]
                exact (List.mem_erase_of_ne hzx).mpr (hdc ▸ hmem)
              · rwa [Function.update_of_ne hdc]
          · rw [h.remove_absent hx lock, Option.some.injEq] at he
            rw [← he]
            exact h
  | lock c =>
      obtain ⟨l, hl, rfl⟩ := Option.map_eq_some_iff.mp hcall
      simp only [linkedListLock] at hl
      split at hl
      · cases hl
      · cases hl
        exact h.setMutex c true
  | unlock c =>
      cases hcall
      exact h.setMutex c false

theorem readsBack : ReadsBack s := by
  refine ⟨fun c fuel hf ↦ ?_, fun c fuel hf ↦ ?_, fun c x lock hx ↦ h.remove_absent hx lock⟩
  · have hc := h.holds c
    have hhead : s.memory.head c = (s.contents c).head? := hc.head_eq
    rw [hhead]
    exact hc.seg.follow_next hf
  · have hc := h.holds c
    have htail : s.memory.tail c = (s.contents c).getLast? := hc.tail_eq
    rw [htail]
    exact hc.seg.follow_prev hf

end Kept

/-- After any calls that add items which are on no list, each list is the sequence
that its additions and removals imply. -/
theorem reachable_readsBack {s : Sequences ι}
    (h : (sequences ι).ReachableVia (fun s op ↦ AddsNew s.contents op) s) : ReadsBack s := by
  have hk : Kept s := by
    refine h.invariant (I := Kept) ?_ fun s op s' hs hn he ↦ hs.step hn he
    rintro s ⟨hempty, howner⟩
    refine ⟨fun c ↦ ?_, fun x c hx ↦ ?_⟩
    · obtain ⟨hh, ht, hc⟩ := hempty c
      rw [hc]
      exact ⟨hh, ht, trivial, List.nodup_nil, by simp⟩
    · rw [howner] at hx
      cases hx
  exact hk.readsBack

/-- Each addition of a list of calls is of an item that is on no list by then. -/
def AddsNewAlong (contents : ℕ → List ι) : List (ListOp ι) → Prop
  | [] => True
  | op :: ops => AddsNew contents op ∧ AddsNewAlong (sequencesAfter contents op) ops

theorem reachableVia_of_along {s s' : Sequences ι} {ops : List (ListOp ι)}
    (h : (sequences ι).ReachableVia (fun s op ↦ AddsNew s.contents op) s)
    (hn : AddsNewAlong s.contents ops) (he : (sequences ι).run s ops = some s') :
    (sequences ι).ReachableVia (fun s op ↦ AddsNew s.contents op) s' := by
  induction ops generalizing s with
  | nil =>
      cases he
      exact h
  | cons op ops ih =>
      obtain ⟨s₁, h₁, he⟩ := Option.bind_eq_some_iff.mp he
      have hcontents : s₁.contents = sequencesAfter s.contents op := by
        obtain ⟨memory, -, rfl⟩ := Option.map_eq_some_iff.mp h₁
        rfl
      exact ih (h.step hn.1 h₁) (hcontents ▸ hn.2) he

/-- Three items go to one list, and one of them on to another. -/
def threeOps : List (ListOp ℕ) :=
  [.add 0 (some 1) .unlocked .atTail, .add 0 (some 2) .unlocked .atTail,
    .add 0 (some 3) .unlocked .atHead, .remove 1 (some 2) .unlocked, .remove 0 (some 1) .unlocked,
    .add 1 (some 1) .unlocked .atHead]

/-- Empty lists, and items that are on none. -/
def noItems : Sequences ℕ where
  memory :=
    { next := fun _ ↦ none, prev := fun _ ↦ none, head := fun _ ↦ none, tail := fun _ ↦ none,
      owner := fun _ ↦ none, mutex := fun _ ↦ false }
  contents := fun _ ↦ []

theorem reachable_readsBack_three :
    ∃ s, (sequences ℕ).run noItems threeOps = some s ∧ s.contents 0 = [3, 2] ∧
      s.contents 1 = [1] ∧ ReadsBack s := by
  have hn : AddsNewAlong noItems.contents threeOps := by
    simp only [AddsNewAlong, threeOps, AddsNew, sequencesAfter, noItems, insertAt,
      Function.update_apply]
    refine ⟨by simp, fun c ↦ ?_, fun c ↦ ?_, trivial, trivial, fun c ↦ ?_, trivial⟩
    · split <;> simp
    · split <;> simp
    · split <;> simp
  exact ⟨_, rfl, rfl, rfl, reachable_readsBack (reachableVia_of_along
    (.init ⟨fun _ ↦ ⟨rfl, rfl, rfl⟩, fun _ ↦ rfl⟩) hn rfl)⟩

end Beirdobot.Linked
