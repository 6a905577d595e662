import Beirdobot.ThreadApi.Registry

/-!
# Signals that reach every thread

`main` sends the signals that it handles on to the threads that are registered.  None gets lost:
a signal is pending for a thread exactly as long as one was sent to it that it did not handle yet.
-/

namespace Beirdobot.ThreadApi

open Library BTree

variable {ι ν φ α : Type} {s s' : State ι ν φ α} {id : PthreadId} {signum : Signal}
variable {main : PthreadId} {log : List (Note ν φ α)}

/-- What a note says about the notes before it. -/
def Follows (main : PthreadId) (log : List (Note ν φ α)) : Note ν φ α → Prop
  | .registered id _ => registryOf log id = none
  | .removed id => (registryOf log id).isSome = true
  | .handled id signum sigFunc arg => owed id signum log = true ∧
      (signum = .sighup → (sigFunc, arg) =
        ((registryOf log id).bind Thread.callbacks).elim (none, none) fun callbacks ↦
          (callbacks.sighupFunc.map .sighupFunc, callbacks.sighupArg))
  | .killed signum ids => (∃ sigFunc arg rest, log = .handled main signum sigFunc arg :: rest) ∧
      ids.Pairwise (fun l r ↦ l.1.toNat < r.1.toNat) ∧
      ∀ id, id ∈ ids ↔ signum.forwarded = true ∧ (registryOf log id).isSome = true ∧ id ≠ main
  | .created _ | .raised _ _ => True

/-- Each signal that `main` handled was sent on. -/
def Sent (main : PthreadId) (log : List (Note ν φ α)) : Prop :=
  ∀ signum sigFunc arg older, .handled main signum sigFunc arg :: older <:+ log →
    ∃ ids, .killed signum ids :: .handled main signum sigFunc arg :: older <:+ log

/-- What holds in a run. -/
structure Signalled (s : State ι ν φ α) : Prop where
  pending : ∀ id signum, s.pending id signum = owed id signum s.log
  follows : ∀ note log, note :: log <:+ s.log → Follows (s.ids s.mainThreadId) log note

theorem Init.signalled (h : Init s) : Signalled s where
  pending id signum := by
    rw [h.pending, h.log]
    rfl
  follows note log hsuffix := by
    rw [h.log, List.suffix_nil] at hsuffix
    cases hsuffix

theorem setPending_pending (s : State ι ν φ α) (b : Bool) (id' : PthreadId) (m : Signal) :
    (s.setPending id signum b).pending id' m =
      if id = id' ∧ signum = m then b else s.pending id' m := by
  by_cases hid : id = id'
  · rw [← hid]
    by_cases hsignum : signum = m
    · rw [← hsignum, if_pos ⟨rfl, rfl⟩]
      simp [State.setPending]
    · rw [if_neg fun h ↦ hsignum h.2]
      simp [State.setPending, Function.update_of_ne (Ne.symm hsignum)]
  · rw [if_neg fun h ↦ hid h.1]
    simp [State.setPending, Function.update_of_ne (Ne.symm hid)]

namespace Signalled

/-- A note that follows the others. -/
theorem note (h : Signalled s) {note : Note ν φ α} {s' : State ι ν φ α}
    (hmain : s'.ids s'.mainThreadId = s.ids s.mainThreadId) (hlog : s'.log = note :: s.log)
    (hfollows : Follows (s.ids s.mainThreadId) s.log note)
    (hpending : ∀ id signum, s'.pending id signum = owed id signum (note :: s.log)) :
    Signalled s' where
  pending id signum := by rw [hpending, hlog]
  follows note' log hsuffix := by
    rw [hlog, List.suffix_cons_iff] at hsuffix
    rw [hmain]
    rcases hsuffix with heq | hsuffix
    · cases heq
      exact hfollows
    · exact h.follows note' log hsuffix

end Signalled

theorem handlerOf_sighup (s : State ι ν φ α) (id : PthreadId) (r : Option (Thread ν φ α)) :
    (r.map fun thread ↦ s.handlerOf id thread .sighup).getD (none, none) =
      (r.bind Thread.callbacks).elim (none, none) fun callbacks ↦
        (callbacks.sighupFunc.map .sighupFunc, callbacks.sighupArg) := by
  rcases r with _ | ⟨_, _, _ | callbacks⟩ <;> rfl

/-- A thread handles a signal that is pending. -/
theorem Signalled.deliver (h : Signalled s) (hinv : Inv s) (hpending : s.pending id signum = true) :
    ∃ s', (s.setPending id signum false).signalEveryone id signum = some s' ∧ Signalled s' := by
  obtain ⟨sigFunc, arg, ids, hlists, hhandler, heq⟩ :=
    (hinv.setPending id signum false).signalEveryone id signum
  refine ⟨_, heq, ?_⟩
  have hhandled : Signalled { s.setPending id signum false with
      log := .handled id signum sigFunc arg :: s.log } := by
    refine h.note rfl rfl ⟨?_, ?_⟩ fun id' m ↦ ?_
    · rw [← h.pending, hpending]
    · rintro rfl
      exact hhandler.symm.trans (handlerOf_sighup ..)
    · rw [show State.pending _ id' m = _ from setPending_pending s false id' m, owed, h.pending]
      by_cases heq : id = id' ∧ signum = m
      · rw [if_pos heq]
        simp [heq.1, heq.2]
      · rw [if_neg heq, ← Bool.decide_and, decide_eq_false heq]
        rfl
  split
  · rename_i hid
    refine hhandled.note rfl rfl ⟨⟨sigFunc, arg, s.log, ?_⟩, ?_, fun id' ↦ ?_⟩ fun id' m ↦ ?_
    · exact congrArg (fun i ↦ Note.handled i signum sigFunc arg :: s.log) hid
    · split
      · exact hlists.sorted.filter _
      · exact .nil
    · split
      · rename_i hforwarded
        rw [List.mem_filter, hlists.mem_iff, decide_eq_true_iff]
        exact ⟨fun h ↦ ⟨hforwarded, h.1, h.2⟩, fun h ↦ h.2⟩
      · rename_i hforwarded
        exact ⟨fun h ↦ absurd h List.not_mem_nil, fun h ↦ absurd h.1 hforwarded⟩
    · rw [owed, ← hhandled.pending, Bool.or_comm]
      simp only [State.kill, eq_comm]
  · exact hhandled

section Frames

variable [DecidableEq ι] {x : ι} {thread : Thread ν φ α}

theorem threadRegister_frame (he : s.threadRegister x thread = some s') :
    s'.ids s'.mainThreadId = s.ids s.mainThreadId ∧ s'.pending = s.pending := by
  obtain ⟨t, -, he⟩ := Option.bind_eq_some_iff.mp he
  cases he
  exact ⟨rfl, rfl⟩

theorem threadRemove_frame (he : s.threadRemove x = some s') :
    s'.ids s'.mainThreadId = s.ids s.mainThreadId ∧ s'.pending = s.pending := by
  obtain ⟨t, -, he⟩ := Option.bind_eq_some_iff.mp he
  cases he
  exact ⟨rfl, rfl⟩

end Frames

theorem step_signalled [DecidableEq ι] [DecidableEq ν] (h : Signalled s) (hinv : Inv s)
    {e : Event ι ν φ α} (hc : Careful s e) (he : step s e = some s') : Signalled s' := by
  cases e with
  | create id thread =>
      simp only [step] at he
      split at he
      · cases he
      · cases he
        refine h.note (Function.update_of_ne hc.1.symm ..) rfl trivial fun id' m ↦ ?_
        rw [owed, ← h.pending]
        by_cases hid : id' = id
        · simp [hid]
        · simp [Function.update_of_ne hid, Ne.symm hid]
  | register k x =>
      obtain ⟨thread, hthread, he⟩ := Option.bind_eq_some_iff.mp he
      split at he
      · cases he
      · obtain ⟨s₁, heq, he⟩ := Option.bind_eq_some_iff.mp he
        obtain ⟨hmain, hpending⟩ := threadRegister_frame heq
        cases he
        refine h.note hmain rfl ?_ fun id' m ↦ (congrFun (congrFun hpending id') m).trans
          (h.pending id' m)
        rw [Follows, Option.eq_none_iff_forall_ne_some]
        intro thread' hthread'
        obtain ⟨y, hy, hid, -⟩ := (hinv.registry _ _).mp hthread'
        exact hinv.of_mem_creating (List.mem_of_getElem? hthread) hy hid
  | deregister id =>
      obtain ⟨r, hfind, -⟩ := hinv.findThread_eq id
      simp only [step, hfind, Option.bind_eq_bind, Option.bind_some] at he
      cases r with
      | none =>
          cases he
          exact h
      | some x =>
          cases he
          exact ⟨h.pending, h.follows⟩
  | remove k self =>
      obtain ⟨⟨x, id⟩, hp, he⟩ := Option.bind_eq_some_iff.mp he
      obtain ⟨s₁, heq, he⟩ := Option.bind_eq_some_iff.mp he
      obtain ⟨hmain, hpending⟩ := threadRemove_frame heq
      cases he
      refine h.note hmain rfl ?_ fun id' m ↦ (congrFun (congrFun hpending id') m).trans
        (h.pending id' m)
      obtain ⟨hx, hid⟩ := hinv.removing _ (List.mem_of_getElem? hp)
      exact Option.isSome_iff_exists.mpr ⟨_, (hinv.registry _ _).mpr ⟨x, hx, hid, rfl⟩⟩
  | join k =>
      obtain ⟨id, hid, he⟩ := Option.bind_eq_some_iff.mp he
      cases he
      exact ⟨h.pending, h.follows⟩
  | raise id signum =>
      cases he
      refine h.note rfl rfl trivial fun id' m ↦ ?_
      rw [show State.pending _ id' m = _ from setPending_pending s true id' m, owed, h.pending]
      by_cases heq : id = id' ∧ signum = m
      · rw [if_pos heq]
        simp [heq.1, heq.2]
      · rw [if_neg heq, ← Bool.decide_and, decide_eq_false heq]
        rfl
  | deliver id signum =>
      simp only [step] at he
      split at he
      · rename_i hpending
        obtain ⟨s₁, heq, hsignalled⟩ := h.deliver hinv hpending
        rw [heq] at he
        cases he
        exact hsignalled
      · cases he

namespace Sent

theorem cons (h : Sent main log) {note : Note ν φ α}
    (hnote : ∀ signum sigFunc arg, note ≠ .handled main signum sigFunc arg) :
    Sent main (note :: log) := by
  intro signum sigFunc arg older hsuffix
  rcases List.suffix_cons_iff.mp hsuffix with heq | hsuffix
  · cases heq
    exact absurd rfl (hnote signum sigFunc arg)
  · obtain ⟨ids, hids⟩ := h signum sigFunc arg older hsuffix
    exact ⟨ids, hids.trans (List.suffix_cons ..)⟩

theorem kill (h : Sent main log) (signum : Signal) (sigFunc : Option (SigFunc φ))
    (arg : Option α) (ids : List PthreadId) :
    Sent main (.killed signum ids :: .handled main signum sigFunc arg :: log) := by
  intro signum' sigFunc' arg' older hsuffix
  rcases List.suffix_cons_iff.mp hsuffix with heq | hsuffix
  · cases heq
  · rcases List.suffix_cons_iff.mp hsuffix with heq | hsuffix
    · cases heq
      exact ⟨ids, List.suffix_refl _⟩
    · obtain ⟨ids', hids⟩ := h signum' sigFunc' arg' older hsuffix
      exact ⟨ids', hids.trans ((List.suffix_cons ..).trans (List.suffix_cons ..))⟩

end Sent

theorem step_sent [DecidableEq ι] [DecidableEq ν] (h : Sent (s.ids s.mainThreadId) s.log)
    (hinv : Inv s) {e : Event ι ν φ α} (hc : Careful s e) (he : step s e = some s') :
    Sent (s'.ids s'.mainThreadId) s'.log := by
  cases e with
  | create id thread =>
      simp only [step] at he
      split at he
      · cases he
      · cases he
        dsimp only
        rw [Function.update_of_ne hc.1.symm]
        exact h.cons fun _ _ _ heq ↦ by cases heq
  | register k x =>
      obtain ⟨thread, -, he⟩ := Option.bind_eq_some_iff.mp he
      split at he
      · cases he
      · obtain ⟨s₁, heq, he⟩ := Option.bind_eq_some_iff.mp he
        cases he
        dsimp only
        rw [(threadRegister_frame heq).1]
        exact h.cons fun _ _ _ heq ↦ by cases heq
  | deregister id =>
      obtain ⟨r, hfind, -⟩ := hinv.findThread_eq id
      simp only [step, hfind, Option.bind_eq_bind, Option.bind_some] at he
      cases r with
      | none =>
          cases he
          exact h
      | some x =>
          cases he
          exact h
  | remove k self =>
      obtain ⟨⟨x, id⟩, -, he⟩ := Option.bind_eq_some_iff.mp he
      obtain ⟨s₁, heq, he⟩ := Option.bind_eq_some_iff.mp he
      cases he
      dsimp only
      rw [(threadRemove_frame heq).1]
      exact h.cons fun _ _ _ heq ↦ by cases heq
  | join k =>
      obtain ⟨id, -, he⟩ := Option.bind_eq_some_iff.mp he
      cases he
      exact h
  | raise id signum =>
      cases he
      exact h.cons fun _ _ _ heq ↦ by cases heq
  | deliver id signum =>
      simp only [step] at he
      split at he
      · obtain ⟨sigFunc, arg, ids, -, -, heq⟩ :=
          (hinv.setPending id signum false).signalEveryone id signum
        rw [heq] at he
        cases he
        split
        · rename_i hid
          rw [hid]
          exact h.kill signum sigFunc arg _
        · rename_i hid
          refine h.cons fun _ _ _ heq ↦ ?_
          cases heq
          exact hid rfl
      · cases he

variable [DecidableEq ι] [DecidableEq ν]

end Beirdobot.ThreadApi
