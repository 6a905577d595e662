import Beirdobot.LinkedList.Spec
import Beirdobot.Transmit.FloodRuns

/-!
# The flood list in memory

Transcriptions of `floodCleanup` and `floodSize` of `transmit.c` over the linked list.
`floodCleanup` frees the item that it stands on and goes on from the one before it.
-/

namespace Beirdobot.Transmit.FloodList

open Library Linked

variable {ι : Type} [DecidableEq ι]

/-- The variables of `floodCleanup`, and the items that have been freed. -/
structure Cleanup (ι : Type) where
  list : LinkedList ι
  freed : List ι
  prev : Option ι
  item : Option ι

/-- What comes of a turn: the loop ends, an item that has been freed is read or written, or it
goes on. -/
inductive Turn (ι : Type)
  | ends
  | fault
  | goes (s : Cleanup ι)

namespace Cleanup

/-- `LinkedListRemove( server->floodList, item, LOCKED )`, which writes to the neighbours of the
item, and `free( item )`. -/
def remove (s : Cleanup ι) (item : ι) : Option (Cleanup ι) :=
  if (s.list.prev item).any (· ∈ s.freed) || (s.list.next item).any (· ∈ s.freed) then none
  else
    (linkedListRemove s.list (some item) .locked).map fun list ↦
      { s with list, freed := item :: s.freed }

/-- `prev = item, item = (prev ? item->next : server->floodList->head )` -/
def advance (s : Cleanup ι) : Turn ι :=
  match s.item with
  | none => .goes { s with prev := none, item := s.list.head }
  | some item =>
      if item ∈ s.freed then .fault
      else .goes { s with prev := some item, item := s.list.next item }

/-- One turn of the loop. -/
def turn (items : ι → FloodListItem) (time : ℤ) (s : Cleanup ι) : Turn ι :=
  match s.item with
  | none => .ends
  | some item =>
      if item ∈ s.freed then .fault
      else if (items item).timeWake ≤ time then
        match s.remove item with
        | none => .fault
        | some s => { s with item := s.prev }.advance
      else s.advance

end Cleanup

/-- `floodCleanup`, called at time `time`. -/
def floodCleanup (items : ι → FloodListItem) (time : ℤ) (l : LinkedList ι) :
    System (Cleanup ι) Unit where
  init s := linkedListLock l = some s.list ∧ s.freed = [] ∧ s.prev = none ∧ s.item = s.list.head
  step s _ :=
    match s.turn items time with
    | .goes s' => some s'
    | _ => none

/-- The loop of `floodSize`; an `int` is added up. -/
def floodSizeLoop (items : ι → FloodListItem) (l : LinkedList ι) :
    ℕ → ℤ → Option ι → Option ℤ
  | _, total, none => some total
  | 0, _, some _ => none
  | fuel + 1, total, some item =>
      floodSizeLoop items l fuel (Int.bmod (total + (items item).bytes) (2 ^ 32)) (l.next item)

/-- `floodSize`, for at most `fuel` items. -/
def floodSize (items : ι → FloodListItem) (fuel : ℕ) (l : LinkedList ι) : Option ℤ :=
  (linkedListLock l).bind fun l ↦ floodSizeLoop items l fuel 0 l.head

/-! ## What is to be left -/

section Spec

variable (items : ι → FloodListItem) (time : ℤ)

/-- The items that have not expired. -/
def unexpired (xs : List ι) : List ι := xs.filter fun item ↦ time < (items item).timeWake

/-- The items that have expired. -/
def expired (xs : List ι) : List ι := xs.filter fun item ↦ (items item).timeWake ≤ time

/-- The list is cleaned up: the loop starts if the list is not locked, it ends, it touches no item
that has been freed, and in the end the expired items are freed, the others are on the list in
their order, and `floodSize` adds them up. -/
structure CleansUp (l : LinkedList ι) (xs : List ι) : Prop where
  starts : l.mutex = false → ∃ s, (floodCleanup items time l).init s
  terminates : ∀ s, (floodCleanup items time l).init s →
    (floodCleanup items time l).Terminates (fun _ _ ↦ True) s
  inside : ∀ s, (floodCleanup items time l).Reachable s → s.turn items time ≠ .fault
  removes : ∀ s, (floodCleanup items time l).Reachable s → s.turn items time = .ends →
    s.freed.reverse = expired items time xs
  keeps : ∀ s, (floodCleanup items time l).Reachable s → s.turn items time = .ends →
    Holds (linkedListUnlock s.list) (unexpired items time xs)
  size : ∀ s, (floodCleanup items time l).Reachable s → s.turn items time = .ends →
    ∀ fuel, xs.length ≤ fuel → floodSize items fuel (linkedListUnlock s.list) =
      some (Int.bmod (total ((unexpired items time xs).map items)) (2 ^ 32))

end Spec

/-! ## The sizes -/

section Size

variable {l : LinkedList ι}

omit [DecidableEq ι] in
theorem floodSizeLoop_eq (items : ι → FloodListItem) {p : Option ι} {xs : List ι} (h : Seg l.toSeqLinks p none xs) {fuel : ℕ}
    (hfuel : xs.length ≤ fuel) (n : ℤ) :
    floodSizeLoop items l fuel (Int.bmod n (2 ^ 32)) xs.head? =
      some (Int.bmod (n + total (xs.map items)) (2 ^ 32)) := by
  induction xs generalizing p fuel n with
  | nil =>
      rw [List.map_nil, total_nil, Nat.cast_zero, add_zero]
      cases fuel <;> rfl
  | cons x xs ih =>
      obtain ⟨-, hnext, hxs⟩ := h
      cases fuel with
      | zero => exact absurd hfuel (Nat.not_succ_le_zero _)
      | succ fuel =>
          rw [Option.or_none] at hnext
          rw [List.head?_cons, floodSizeLoop, hnext, Int.bmod_add_bmod,
            ih hxs (Nat.le_of_succ_le_succ hfuel), List.map_cons, total_cons, Nat.cast_add, add_assoc]

omit [DecidableEq ι] in
/-- `floodSize` adds up what is on the list. -/
theorem floodSize_holds (items : ι → FloodListItem) {xs : List ι} (h : Holds l xs) (hmutex : l.mutex = false) {fuel : ℕ}
    (hfuel : xs.length ≤ fuel) :
    floodSize items fuel l = some (Int.bmod (total (xs.map items)) (2 ^ 32)) := by
  have hlock : linkedListLock l = some { l with mutex := true } := by
    rw [linkedListLock, hmutex]
    rfl
  have hloop := floodSizeLoop_eq items (h.setMutex true).seg hfuel 0
  rw [Int.zero_bmod, zero_add] at hloop
  rw [floodSize, hlock, Option.bind_some]
  exact h.head_eq ▸ hloop

end Size

/-! ## The loop -/

section Runs

variable {items : ι → FloodListItem} {time : ℤ} {l : LinkedList ι} {xs : List ι}
  {s s' : Cleanup ι}

/-- Where the loop stands: `done` is behind it and `rest` before it. -/
structure Stands (items : ι → FloodListItem) (time : ℤ) (s : Cleanup ι) (done rest : List ι) :
    Prop where
  holds : Holds s.list (unexpired items time done ++ rest)
  freed : s.freed = (expired items time done).reverse
  apart : ∀ x ∈ s.freed, x ∉ unexpired items time done ++ rest
  prev : s.prev = (unexpired items time done).getLast?
  item : s.item = rest.head?

omit [DecidableEq ι] in
theorem unexpired_append (ys zs : List ι) :
    unexpired items time (ys ++ zs) = unexpired items time ys ++ unexpired items time zs :=
  List.filter_append ..

omit [DecidableEq ι] in
theorem expired_append (ys zs : List ι) :
    expired items time (ys ++ zs) = expired items time ys ++ expired items time zs :=
  List.filter_append ..

omit [DecidableEq ι] in
theorem of_expired {x : ι} (h : (items x).timeWake ≤ time) :
    unexpired items time [x] = [] ∧ expired items time [x] = [x] := by
  constructor
  · exact List.filter_cons_of_neg (by simpa using h)
  · exact List.filter_cons_of_pos (by simpa using h)

omit [DecidableEq ι] in
theorem of_unexpired {x : ι} (h : ¬ (items x).timeWake ≤ time) :
    unexpired items time [x] = [x] ∧ expired items time [x] = [] := by
  constructor
  · exact List.filter_cons_of_pos (by simpa using h)
  · exact List.filter_cons_of_neg (by simpa using h)

omit [DecidableEq ι] in
/-- What comes after the items that are kept. -/
theorem head_or_next {kept rest : List ι} {l : LinkedList ι} (h : Holds l (kept ++ rest)) :
    (match kept.getLast? with | none => l.head | some item => l.next item) = rest.head? := by
  rcases List.eq_nil_or_concat kept with rfl | ⟨front, last, rfl⟩
  · exact h.head_eq
  · rw [List.concat_eq_append, List.append_assoc] at h
    rw [List.concat_eq_append, List.getLast?_append]
    exact h.next_eq

/-- To go on from the last item that is kept. -/
theorem advance_of_getLast {kept rest : List ι} (h : Holds s.list (kept ++ rest))
    (hitem : s.item = kept.getLast?) (hapart : ∀ x ∈ s.freed, x ∉ kept ++ rest) :
    s.advance = .goes { s with prev := kept.getLast?, item := rest.head? } := by
  have hnext := head_or_next h
  rw [Cleanup.advance, hitem]
  cases hlast : kept.getLast? with
  | none =>
      rw [hlast] at hnext
      rw [← hnext]
  | some last =>
      rw [hlast] at hnext
      have hfreed : last ∉ s.freed := fun hmem ↦
        hapart last hmem (List.mem_append_left _ (List.mem_of_getLast? hlast))
      rw [← hnext]
      exact if_neg hfreed

namespace Stands

variable {done rest : List ι} {x : ι}

/-- An expired item is removed, and its neighbours have not been freed. -/
theorem remove (h : Stands items time s done (x :: rest)) :
    ∃ list, s.remove x = some { s with list, freed := x :: s.freed } ∧
      Holds list (unexpired items time done ++ rest) := by
  obtain ⟨list, hremove, hholds, -, -⟩ := linkedListRemove_holds h.holds .locked (by rintro ⟨⟩)
  refine ⟨list, ?_, hholds⟩
  have hprev : (s.list.prev x).any (· ∈ s.freed) = false := by
    rw [h.holds.prev_eq, Option.any_eq_false]
    intro y hy
    refine decide_eq_false fun hmem ↦ h.apart y hmem ?_
    exact List.mem_append_left _ (List.mem_of_getLast? hy)
  have hnext : (s.list.next x).any (· ∈ s.freed) = false := by
    rw [h.holds.next_eq, Option.any_eq_false]
    intro y hy
    refine decide_eq_false fun hmem ↦ h.apart y hmem ?_
    exact List.mem_append_right _ (List.mem_cons_of_mem _ (List.mem_of_head? hy))
  rw [Cleanup.remove, hprev, hnext, hremove]
  rfl

/-- A turn takes one item. -/
theorem turn (h : Stands items time s done (x :: rest)) :
    ∃ s', s.turn items time = .goes s' ∧ Stands items time s' (done ++ [x]) rest := by
  have hitem : s.item = some x := h.item
  have hx : x ∉ s.freed := fun hmem ↦ h.apart x hmem (by simp)
  by_cases hwake : (items x).timeWake ≤ time
  · obtain ⟨hun, hex⟩ := of_expired hwake
    obtain ⟨list, hremove, hholds⟩ := h.remove
    have hnodup := List.nodup_middle.mp h.holds.nodup
    have hapart : ∀ y ∈ x :: s.freed, y ∉ unexpired items time done ++ rest := by
      rintro y hy hmem
      rcases List.mem_cons.mp hy with rfl | hy
      · exact (List.nodup_cons.mp hnodup).1 hmem
      · refine h.apart y hy ?_
        rw [List.mem_append] at hmem ⊢
        exact hmem.imp_right (List.mem_cons_of_mem _)
    have hadvance := advance_of_getLast
      (s := { s with list, freed := x :: s.freed, item := s.prev }) hholds h.prev hapart
    refine ⟨⟨list, x :: s.freed, (unexpired items time done).getLast?, rest.head?⟩, ?_, ?_⟩
    · rw [Cleanup.turn, hitem]
      dsimp only
      rw [if_neg hx, if_pos hwake, hremove]
      exact hadvance
    · have hkept : unexpired items time (done ++ [x]) = unexpired items time done := by
        rw [unexpired_append, hun, List.append_nil]
      rw [← hkept] at hholds hapart
      refine ⟨hholds, ?_, hapart, ?_, rfl⟩
      · show x :: s.freed = _
        rw [h.freed, expired_append, hex, List.reverse_append]
        rfl
      · show (unexpired items time done).getLast? = _
        rw [hkept]
  · obtain ⟨hun, hex⟩ := of_unexpired hwake
    have hkept : unexpired items time done ++ x :: rest =
        unexpired items time (done ++ [x]) ++ rest := by
      rw [unexpired_append, hun, List.append_assoc]
      rfl
    have hholds := h.holds
    have hapart := h.apart
    rw [hkept] at hholds hapart
    have hlast : (unexpired items time (done ++ [x])).getLast? = some x := by
      rw [unexpired_append, hun, List.getLast?_append]
      rfl
    have hadvance := advance_of_getLast hholds (hitem.trans hlast.symm) hapart
    refine ⟨{ s with prev := (unexpired items time (done ++ [x])).getLast?, item := rest.head? },
      ?_, ?_⟩
    · rw [Cleanup.turn, hitem]
      dsimp only
      rw [if_neg hx, if_neg hwake]
      exact hadvance
    · refine ⟨hholds, ?_, hapart, rfl, rfl⟩
      show s.freed = _
      rw [h.freed, expired_append, hex, List.append_nil]

theorem ends (h : Stands items time s done []) : s.turn items time = .ends := by
  have hitem : s.item = none := h.item
  rw [Cleanup.turn, hitem]

end Stands

theorem step_eq_some_iff {u : Unit} :
    (floodCleanup items time l).step s u = some s' ↔ s.turn items time = .goes s' := by
  show (match s.turn items time with | .goes s' => some s' | _ => none) = some s' ↔ _
  cases s.turn items time with
  | ends => exact iff_of_false (Option.some_ne_none _).symm (by rintro ⟨⟩)
  | fault => exact iff_of_false (Option.some_ne_none _).symm (by rintro ⟨⟩)
  | goes s' => rw [Option.some.injEq, Turn.goes.injEq]

theorem init_stands (h : Holds l xs) (hs : (floodCleanup items time l).init s) :
    Stands items time s [] xs := by
  obtain ⟨hlock, hfreed, hprev, hitem⟩ := hs
  have hlist : s.list = { l with mutex := true } := by
    rw [linkedListLock] at hlock
    split at hlock
    · cases hlock
    · exact (Option.some.inj hlock).symm
  have hholds : Holds s.list xs := hlist ▸ h.setMutex true
  refine ⟨hholds, hfreed, ?_, hprev, hitem.trans hholds.head_eq⟩
  rw [hfreed]
  rintro x ⟨⟩

/-- The loop stands somewhere in the list. -/
theorem reachable_stands (h : Holds l xs) (hs : (floodCleanup items time l).Reachable s) :
    ∃ done rest, xs = done ++ rest ∧ Stands items time s done rest := by
  refine hs.invariant (I := fun s ↦ ∃ done rest, xs = done ++ rest ∧
    Stands items time s done rest) (fun s hs ↦ ⟨[], xs, rfl, init_stands h hs⟩) ?_
  rintro s u s' ⟨done, rest, rfl, hstands⟩ hstep
  rw [step_eq_some_iff] at hstep
  cases rest with
  | nil =>
      rw [hstands.ends] at hstep
      cases hstep
  | cons x rest =>
      obtain ⟨s₁, hturn, hstands'⟩ := hstands.turn
      rw [hturn, Turn.goes.injEq] at hstep
      exact ⟨done ++ [x], rest, by simp, hstep ▸ hstands'⟩

/-- At the end of the loop, everything is behind it. -/
theorem stands_of_ends (h : Holds l xs) (hs : (floodCleanup items time l).Reachable s)
    (hends : s.turn items time = .ends) : Stands items time s xs [] := by
  obtain ⟨done, rest, rfl, hstands⟩ := reachable_stands h hs
  cases rest with
  | nil =>
      rw [List.append_nil]
      exact hstands
  | cons x rest =>
      obtain ⟨s₁, hturn, -⟩ := hstands.turn
      rw [hturn] at hends
      cases hends

/-- `floodCleanup` removes exactly the expired items, from a list of any length. -/
theorem floodCleanup_cleansUp (items : ι → FloodListItem) (time : ℤ) (h : Holds l xs) :
    CleansUp items time l xs := by
  have hkeeps : ∀ s, (floodCleanup items time l).Reachable s → s.turn items time = .ends →
      Holds (linkedListUnlock s.list) (unexpired items time xs) := by
    intro s hs hends
    have hstands := (stands_of_ends h hs hends).holds
    rw [List.append_nil] at hstands
    exact hstands.setMutex false
  refine ⟨fun hmutex ↦ ?_, fun s hs ↦ ?_, fun s hs ↦ ?_, fun s hs hends ↦ ?_, hkeeps, ?_⟩
  · refine ⟨⟨{ l with mutex := true }, [], none, l.head⟩, ?_, rfl, rfl, rfl⟩
    rw [linkedListLock, hmutex]
    rfl
  · refine System.terminates_of_rank (I := fun s r ↦ ∃ done rest, Stands items time s done rest ∧
      r = rest.length) ?_ ⟨[], xs, init_stands h hs, rfl⟩
    rintro s r u s' ⟨done, rest, hstands, rfl⟩ - hstep
    rw [step_eq_some_iff] at hstep
    cases rest with
    | nil =>
        rw [hstands.ends] at hstep
        cases hstep
    | cons x rest =>
        obtain ⟨s₁, hturn, hstands'⟩ := hstands.turn
        rw [hturn, Turn.goes.injEq] at hstep
        exact ⟨rest.length, Nat.lt_succ_self _, done ++ [x], rest, hstep ▸ hstands', rfl⟩
  · obtain ⟨done, rest, -, hstands⟩ := reachable_stands h hs
    cases rest with
    | nil =>
        rw [hstands.ends]
        rintro ⟨⟩
    | cons x rest =>
        obtain ⟨s₁, hturn, -⟩ := hstands.turn
        rw [hturn]
        rintro ⟨⟩
  · rw [(stands_of_ends h hs hends).freed, List.reverse_reverse]
  · intro s hs hends fuel hfuel
    exact floodSize_holds items (hkeeps s hs hends) rfl ((List.length_filter_le ..).trans hfuel)

/-- The items at the addresses 1, 2 and 3, of which the first two expire at 5. -/
def threeItems : ℕ → FloodListItem
  | 3 => ⟨9, 60⟩
  | _ => ⟨5, 100⟩

theorem floodCleanup_cleansUp_three :
    ∃ l, Holds l [1, 2, 3] ∧ CleansUp threeItems 5 l [1, 2, 3] := by
  obtain ⟨l₁, -, h₁, -, hm₁⟩ := linkedListAdd_atTail (x := 1)
    (linkedListCreate_holds 0 ⟨fun _ ↦ none, fun _ ↦ none⟩ fun _ ↦ none) (by decide) .unlocked
    fun _ ↦ rfl
  obtain ⟨l₂, -, h₂, -, hm₂⟩ := linkedListAdd_atTail (x := 2) h₁ (by decide) .unlocked fun _ ↦ hm₁
  obtain ⟨l₃, -, h₃, -⟩ := linkedListAdd_atTail (x := 3) h₂ (by decide) .unlocked
    fun _ ↦ hm₂.trans hm₁
  exact ⟨l₃, h₃, floodCleanup_cleansUp threeItems 5 h₃⟩

end Runs

omit [DecidableEq ι] in
/-- What is left in memory is what is left of the list of the transmit thread. -/
theorem unexpired_refines (items : ι → FloodListItem) (time : ℤ) (xs : List ι) :
    (unexpired items time xs).map items = Transmit.floodCleanup time (xs.map items) := by
  rw [floodCleanup_eq, List.filter_map]
  rfl

end Beirdobot.Transmit.FloodList
