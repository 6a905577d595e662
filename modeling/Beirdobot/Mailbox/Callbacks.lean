import Beirdobot.Library.System
import Mathlib.Data.Finset.Basic

/-!
# The mutexes of the mailboxes at the callbacks of c-client

A transcription of what `mailbox_thread` locks and unlocks around its calls of c-client,
which may call back into the plugin as often as it likes before it returns.  The
callback of the query that loads the mailboxes runs within the thread that waits for it.
Which mailbox is due, what the rows say and what c-client finds and returns are
arguments of the steps; a thread that locks a mutex it holds does not go on.
-/

namespace Beirdobot.Mailbox.Callbacks

open Library

variable {κ : Type}

/-- The mutexes of the trees and of the lists of each mailbox. -/
inductive Mutex (κ : Type)
  | mailboxTree
  | mailboxActiveTree
  | mailboxStreamTree
  | reports (x : κ)
  | messageList (x : κ)
  deriving DecidableEq

/-- Where the thread is: in a loop, or in a call of c-client. -/
inductive Point (κ : Type)
  | sleeping
  /-- The loop over the mailboxes that are due. -/
  | polling
  | mailPing (x : κ)
  | mailOpen (x : κ)
  | mailStatus (x : κ)
  | mailSearchFull (x : κ)
  /-- The loop over the reports of a mailbox. -/
  | reporting (x : κ)
  /-- `mailboxReport`, with the messages that are left after this one. -/
  | mailFetchstructure (x : κ) (rest : List ℕ)
  | mailFetchtext (x : κ) (rest : List ℕ)
  | mailSetflag (x : κ)
  /-- The loop of `result_load_mailboxes` over the rows. -/
  | loading
  | loadClose (x : κ) (reopen : Bool)
  | loadOpen (x : κ)
  /-- `mailboxFlushUnvisited` -/
  | flushing
  | flushClose (x : κ)

/-- The thread is in a call of c-client. -/
def Point.InCall : Point κ → Prop
  | .sleeping | .polling | .reporting _ | .loading | .flushing => False
  | _ => True

/-- The thread is in the loop over the mailboxes that are due. -/
def Point.InPass : Point κ → Prop
  | .sleeping | .loading | .loadClose _ _ | .loadOpen _ | .flushing | .flushClose _ => False
  | _ => True

/-- The thread fetches or flags the messages of a mailbox. -/
def Point.OnMessages (x : κ) : Point κ → Prop
  | .mailFetchstructure y _ | .mailFetchtext y _ | .mailSetflag y => y = x
  | _ => False

/-- The progress of the thread and the mutexes it holds, the mailboxes with a stream,
and their `newMessages` and `messageList`. -/
structure State (κ : Type) where
  pc : Point κ
  held : Finset (Mutex κ)
  stream : κ → Bool
  newMessages : κ → ℕ
  messageList : κ → Option (List ℕ)

/-- What c-client calls, with the mailbox that `mailboxFindByStream` finds where it
matters. -/
inductive Callback (κ : Type)
  | mmFlags
  | mmStatus (found : Option κ) (unseen : Option ℕ)
  | mmSearched (found : Option κ) (number : ℕ)
  | mmExists
  | mmExpunged
  | mmList
  | mmLsub
  | mmNotify
  | mmLog
  | mmDlog
  | mmLogin
  | mmCritical
  | mmNocritical
  | mmDiskerror
  | mmFatal

/-- A step of the thread: what it finds to do, a callback, or the return of c-client. -/
inductive Event (κ : Type)
  | wake (due : Bool)
  | poll (x : κ)
  | endPass
  | report
  | endReports (abort : Bool)
  | reload
  | row (x : κ) (close reopen : Bool)
  | loaded
  | flush (x : κ) (enabled : Bool)
  | flushed
  | callback (c : Callback κ)
  | back (ok abort : Bool)

variable [DecidableEq κ]

namespace State

def lock (s : State κ) (m : Mutex κ) : Option (State κ) :=
  if m ∈ s.held then none else some { s with held := insert m s.held }

def unlock (s : State κ) (m : Mutex κ) : State κ := { s with held := s.held.erase m }

/-- A call on a tree or list that is told `UNLOCKED`. -/
def within (s : State κ) (m : Mutex κ) : Option (State κ) := (s.lock m).map (·.unlock m)

/-- The same, of what may not be there. -/
def withinIf (s : State κ) (b : Bool) (m : Mutex κ) : Option (State κ) :=
  if b then s.within m else some s

def goto (s : State κ) (pc : Point κ) : State κ := { s with pc }

end State

/-- What the callback does. -/
def callback (s : State κ) : Callback κ → Option (State κ)
  | .mmFlags | .mmExpunged | .mmList | .mmLsub | .mmCritical | .mmNocritical | .mmDiskerror =>
      s.within .mailboxStreamTree
  | .mmStatus found unseen => do
      let s ← s.within .mailboxStreamTree
      match found, unseen with
      | some x, some n => some { s with newMessages := Function.update s.newMessages x n }
      | _, _ => some s
  | .mmSearched found number => do
      let s ← s.within .mailboxStreamTree
      match found with
      | none => some s
      | some x =>
          match s.messageList x with
          | none => some s
          | some l => do
              let s ← s.lock (.messageList x)
              let s := { s with messageList := Function.update s.messageList x (some (l ++ [number])) }
              some (s.unlock (.messageList x))
  | .mmLogin => s.within .mailboxActiveTree
  | .mmExists | .mmNotify | .mmLog | .mmDlog | .mmFatal => some s

/-- The loop that flags the messages, from the first one on. -/
def flag (s : State κ) (x : κ) (abort : Bool) : State κ :=
  match s.messageList x with
  | some (_ :: _) =>
      if abort then (s.unlock (.messageList x)).goto .polling else s.goto (.mailSetflag x)
  | _ => (s.unlock (.messageList x)).goto .polling

/-- From the reports to the messages. -/
def startFlags (s : State κ) (x : κ) (abort : Bool) : Option (State κ) :=
  match s.messageList x with
  | none => some (s.goto .polling)
  | some _ => (s.lock (.messageList x)).map fun s ↦ flag s x abort

/-- The loop of `mailboxReport` over the messages that are left. -/
def fetch (s : State κ) (x : κ) : List ℕ → State κ
  | [] => (s.unlock (.messageList x)).goto (.reporting x)
  | _ :: rest => s.goto (.mailFetchstructure x rest)

/-- From the lookup of the mailbox to `mail_open`. -/
def reopen (s : State κ) (x : κ) : Bool → Option (State κ)
  | false => some (s.goto .loading)
  | true => (s.within .mailboxActiveTree).map (·.goto (.loadOpen x))

/-- The rest of `mailboxFlushUnvisited` for a mailbox, which is freed with its lists. -/
def forget (s : State κ) (x : κ) : Option (State κ) := do
  let s ← s.within .mailboxActiveTree
  let s ← s.withinIf (s.stream x) .mailboxStreamTree
  let s ← s.within (.reports x)
  let s ← s.within (.messageList x)
  some { s with messageList := Function.update s.messageList x none }

/-- What the thread does when c-client returns. -/
def back (s : State κ) (ok abort : Bool) : Option (State κ) :=
  match s.pc with
  | .mailPing x =>
      if ok then some (s.goto (if abort then .polling else .mailStatus x))
      else some (s.goto (.mailOpen x))
  | .mailOpen x =>
      let s := { s with stream := Function.update s.stream x ok }
      some (s.goto (if abort || !ok then .polling else .mailStatus x))
  | .mailStatus x =>
      if s.newMessages x = 0 then startFlags s x abort
      else
        let s := { s with
          messageList := Function.update s.messageList x (some ((s.messageList x).getD [])) }
        some (s.goto (if abort then .polling else .mailSearchFull x))
  | .mailSearchFull x => (s.lock (.reports x)).map (·.goto (.reporting x))
  | .mailFetchstructure x rest => some (s.goto (.mailFetchtext x rest))
  | .mailFetchtext x rest => some (fetch s x rest)
  | .mailSetflag x =>
      let s := { s with
        messageList := Function.update s.messageList x ((s.messageList x).map List.tail) }
      some (flag s x abort)
  | .loadClose x r => do
      let s := { s with stream := Function.update s.stream x false }
      let s ← s.within .mailboxStreamTree
      reopen s x r
  | .loadOpen x => do
      let s := { s with stream := Function.update s.stream x ok }
      let s ← s.withinIf ok .mailboxStreamTree
      some (s.goto .loading)
  | .flushClose x => do
      let s := { s with stream := Function.update s.stream x false }
      let s ← forget s x
      some (s.goto .flushing)
  | _ => none

/-- A step of the thread. -/
def step (s : State κ) : Event κ → Option (State κ)
  | .callback c =>
      match s.pc with
      | .sleeping | .polling | .reporting _ | .loading | .flushing => none
      | _ => callback s c
  | .back ok abort => back s ok abort
  | .wake due =>
      match s.pc with
      | .sleeping => do
          let s ← s.within .mailboxActiveTree
          if due then (s.lock .mailboxActiveTree).map (·.goto .polling) else some s
      | _ => none
  | .poll x =>
      match s.pc with
      | .polling => some (s.goto (if s.stream x then .mailPing x else .mailOpen x))
      | _ => none
  | .endPass =>
      match s.pc with
      | .polling => some ((s.unlock .mailboxActiveTree).goto .sleeping)
      | _ => none
  | .report =>
      match s.pc with
      | .reporting x =>
          match s.messageList x with
          | none => none
          | some l => (s.lock (.messageList x)).map fun s ↦ fetch s x l
      | _ => none
  | .endReports abort =>
      match s.pc with
      | .reporting x => startFlags (s.unlock (.reports x)) x abort
      | _ => none
  | .reload =>
      match s.pc with
      | .sleeping => (s.lock .mailboxTree).map (·.goto .loading)
      | _ => none
  | .row x close r =>
      match s.pc with
      | .loading => do
          if close then
            let s ← s.within .mailboxActiveTree
            if s.stream x then
              let s ← s.within .mailboxStreamTree
              some (s.goto (.loadClose x r))
            else reopen s x r
          else reopen s x r
      | _ => none
  | .loaded =>
      match s.pc with
      | .loading => do
          let s ← s.within .mailboxStreamTree
          let s ← s.within .mailboxActiveTree
          some (s.goto .flushing)
      | _ => none
  | .flush x enabled =>
      match s.pc with
      | .flushing =>
          if enabled then some (s.goto (.flushClose x)) else forget s x
      | _ => none
  | .flushed =>
      match s.pc with
      | .flushing => do
          let s ← s.within .mailboxActiveTree
          let s ← s.within .mailboxStreamTree
          some ((s.unlock .mailboxTree).goto .sleeping)
      | _ => none

/-- The thread starts with nothing locked and nothing open. -/
def system (κ : Type) [DecidableEq κ] : System (State κ) (Event κ) where
  init s := s.pc = .sleeping ∧ s.held = ∅ ∧ (∀ x, s.stream x = false) ∧
    (∀ x, s.newMessages x = 0) ∧ ∀ x, s.messageList x = none
  step := step

/-- What the thread holds where it is. -/
def heldAt : Point κ → Finset (Mutex κ)
  | .sleeping => ∅
  | .polling | .mailPing _ | .mailOpen _ | .mailStatus _ | .mailSearchFull _ => {.mailboxActiveTree}
  | .reporting x => {.mailboxActiveTree, .reports x}
  | .mailFetchstructure x _ | .mailFetchtext x _ => {.mailboxActiveTree, .reports x, .messageList x}
  | .mailSetflag x => {.mailboxActiveTree, .messageList x}
  | .loading | .loadClose _ _ | .loadOpen _ | .flushing | .flushClose _ => {.mailboxTree}

/-- The thread holds what it should where it is, and the mailbox whose messages it goes
through has a list. -/
structure Inv (s : State κ) : Prop where
  held : s.held = heldAt s.pc
  messages : ∀ x, s.pc.OnMessages x → (s.messageList x).isSome

section Locking

variable {s s' : State κ} {m : Mutex κ}

theorem lock_eq_some : s.lock m = some s' ↔ m ∉ s.held ∧ s' = { s with held := insert m s.held } := by
  rw [State.lock, Option.ite_none_left_eq_some, Option.some.injEq, eq_comm (a := s')]

/-- A call that locks for itself goes on if the thread does not hold the mutex, and
leaves the thread as it was. -/
theorem within_eq : s.within m = if m ∈ s.held then none else some s := by
  rw [State.within, State.lock]
  split
  · rfl
  · rename_i hm
    rw [Option.map_some, State.unlock, Finset.erase_insert hm]

theorem within_eq_some : s.within m = some s' ↔ m ∉ s.held ∧ s' = s := by
  rw [within_eq, Option.ite_none_left_eq_some, Option.some.injEq, eq_comm (a := s')]

theorem withinIf_eq_some {b : Bool} (h : s.withinIf b m = some s') : s' = s := by
  rw [State.withinIf] at h
  split at h
  · exact (within_eq_some.mp h).2
  · exact (Option.some.inj h).symm

/-- A callback leaves the thread where it is, with what it holds, and takes no message
from a list. -/
theorem callback_keeps {c : Callback κ} (h : callback s c = some s') :
    s'.pc = s.pc ∧ s'.held = s.held ∧
      ∀ x, (s.messageList x).isSome → (s'.messageList x).isSome := by
  have hsame : s' = s → s'.pc = s.pc ∧ s'.held = s.held ∧
      ∀ x, (s.messageList x).isSome → (s'.messageList x).isSome := by
    rintro rfl
    exact ⟨rfl, rfl, fun _ h ↦ h⟩
  cases c with
  | mmFlags | mmExpunged | mmList | mmLsub | mmCritical | mmNocritical | mmDiskerror | mmLogin =>
      exact hsame (within_eq_some.mp h).2
  | mmExists | mmNotify | mmLog | mmDlog | mmFatal => exact hsame (Option.some.inj h).symm
  | mmStatus found unseen =>
      obtain ⟨s₁, h₁, h'⟩ := Option.bind_eq_some_iff.mp h
      obtain ⟨-, rfl⟩ := within_eq_some.mp h₁
      split at h'
      · cases h'
        exact ⟨rfl, rfl, fun _ h ↦ h⟩
      · exact hsame (Option.some.inj h').symm
  | mmSearched found number =>
      obtain ⟨s₁, h₁, h'⟩ := Option.bind_eq_some_iff.mp h
      obtain ⟨-, rfl⟩ := within_eq_some.mp h₁
      rcases found with _ | x
      · exact hsame (Option.some.inj h').symm
      · rcases hl : s₁.messageList x with _ | l
        · simp only [hl] at h'
          exact hsame (Option.some.inj h').symm
        · simp only [hl] at h'
          obtain ⟨s₂, h₂, h'⟩ := Option.bind_eq_some_iff.mp h'
          obtain ⟨hm, rfl⟩ := lock_eq_some.mp h₂
          cases h'
          refine ⟨rfl, Finset.erase_insert hm, fun y hy ↦ ?_⟩
          by_cases hyx : y = x
          · simp [State.unlock, hyx]
          · simpa [State.unlock, hyx] using hy

/-- The loop that flags the messages begins or ends with the mutexes it needs. -/
theorem flag_inv {x : κ} (h : s.held = {.mailboxActiveTree, .messageList x}) (abort : Bool) :
    Inv (flag s x abort) := by
  have hend : Inv ((s.unlock (.messageList x)).goto .polling) := by
    refine ⟨?_, fun y hy ↦ hy.elim⟩
    show s.held.erase (.messageList x) = {.mailboxActiveTree}
    rw [h]
    ext m
    simp only [Finset.mem_erase, Finset.mem_insert, Finset.mem_singleton]
    constructor
    · rintro ⟨hne, rfl | rfl⟩
      · rfl
      · exact absurd rfl hne
    · rintro rfl
      exact ⟨by simp, .inl rfl⟩
  rw [flag]
  split
  · rename_i hl
    split
    · exact hend
    · refine ⟨h, ?_⟩
      rintro y rfl
      show (s.messageList x).isSome
      rw [hl]
      rfl
  · exact hend

theorem startFlags_inv {x : κ} {abort : Bool} (h : s.held = {.mailboxActiveTree})
    (he : startFlags s x abort = some s') : Inv s' := by
  rw [startFlags] at he
  split at he
  · cases he
    exact ⟨h, fun y hy ↦ hy.elim⟩
  · obtain ⟨s₁, h₁, rfl⟩ := Option.map_eq_some_iff.mp he
    obtain ⟨-, rfl⟩ := lock_eq_some.mp h₁
    refine flag_inv ?_ abort
    show insert _ s.held = _
    rw [h]
    exact Finset.pair_comm _ _

/-- So does the loop that fetches them. -/
theorem fetch_inv {x : κ} (h : s.held = {.mailboxActiveTree, .reports x, .messageList x})
    (hx : (s.messageList x).isSome) (l : List ℕ) : Inv (fetch s x l) := by
  cases l with
  | nil =>
      refine ⟨?_, fun y hy ↦ hy.elim⟩
      show s.held.erase (.messageList x) = {.mailboxActiveTree, .reports x}
      rw [h]
      ext m
      simp only [Finset.mem_erase, Finset.mem_insert, Finset.mem_singleton]
      constructor
      · rintro ⟨hne, hm | hm | hm⟩
        · exact .inl hm
        · exact .inr hm
        · exact absurd hm hne
      · rintro (rfl | rfl)
        · exact ⟨by simp, .inl rfl⟩
        · exact ⟨by simp, .inr (.inl rfl)⟩
  | cons u rest =>
      refine ⟨h, ?_⟩
      rintro y rfl
      exact hx

theorem reopen_inv {x : κ} {r : Bool} (h : s.held = {.mailboxTree})
    (he : reopen s x r = some s') : Inv s' := by
  cases r with
  | false =>
      cases he
      exact ⟨h, fun y hy ↦ hy.elim⟩
  | true =>
      obtain ⟨s₁, h₁, rfl⟩ := Option.map_eq_some_iff.mp he
      obtain ⟨-, rfl⟩ := within_eq_some.mp h₁
      exact ⟨h, fun y hy ↦ hy.elim⟩

theorem forget_keeps {x : κ} (h : forget s x = some s') : s'.pc = s.pc ∧ s'.held = s.held := by
  obtain ⟨s₁, h₁, ht⟩ := Option.bind_eq_some_iff.mp h
  obtain ⟨s₂, h₂, hu⟩ := Option.bind_eq_some_iff.mp ht
  obtain ⟨s₃, h₃, hv⟩ := Option.bind_eq_some_iff.mp hu
  obtain ⟨s₄, h₄, hw⟩ := Option.bind_eq_some_iff.mp hv
  have hsame : s₄ = s := by
    rw [(within_eq_some.mp h₄).2, (within_eq_some.mp h₃).2, withinIf_eq_some h₂,
      (within_eq_some.mp h₁).2]
  cases hw
  rw [hsame]
  exact ⟨rfl, rfl⟩

/-- What holds where no messages are gone through. -/
theorem Inv.of_held {s : State κ} (h : s.held = heldAt s.pc) (hpc : ∀ x, ¬ s.pc.OnMessages x) :
    Inv s := ⟨h, fun x hx ↦ (hpc x hx).elim⟩

theorem back_inv {ok abort : Bool} (hs : Inv s) (he : back s ok abort = some s') : Inv s' := by
  have hheld := hs.held
  have hmessages := hs.messages
  rw [back] at he
  cases hpc : s.pc with
  | sleeping | polling | reporting | loading | flushing => simp [hpc] at he
  | mailPing x =>
      simp only [hpc] at he hheld
      split at he <;> cases he
      · refine .of_held ?_ ?_ <;> cases abort <;> first | exact hheld | exact fun _ hx ↦ hx
      · exact .of_held hheld fun _ hx ↦ hx
  | mailOpen x =>
      simp only [hpc, Option.some.injEq] at he hheld
      subst he
      refine .of_held ?_ ?_ <;> cases abort <;> cases ok <;> first
        | exact hheld
        | exact fun _ hx ↦ hx
  | mailStatus x =>
      simp only [hpc] at he hheld
      split at he
      · exact startFlags_inv hheld he
      · cases he
        refine .of_held ?_ ?_ <;> cases abort <;> first | exact hheld | exact fun _ hx ↦ hx
  | mailSearchFull x =>
      simp only [hpc] at he hheld
      obtain ⟨s₁, h₁, rfl⟩ := Option.map_eq_some_iff.mp he
      obtain ⟨-, rfl⟩ := lock_eq_some.mp h₁
      refine .of_held ?_ fun _ hx ↦ hx
      show insert _ s.held = _
      rw [hheld]
      exact Finset.pair_comm _ _
  | mailFetchstructure x rest =>
      simp only [hpc, Option.some.injEq] at he hheld hmessages
      subst he
      exact ⟨hheld, hmessages⟩
  | mailFetchtext x rest =>
      simp only [hpc, Option.some.injEq] at he hheld hmessages
      subst he
      exact fetch_inv hheld (hmessages x rfl) rest
  | mailSetflag x =>
      simp only [hpc, Option.some.injEq] at he hheld
      subst he
      refine flag_inv ?_ abort
      exact hheld
  | loadClose x r =>
      simp only [hpc] at he hheld
      obtain ⟨s₁, h₁, he'⟩ := Option.bind_eq_some_iff.mp he
      obtain ⟨-, rfl⟩ := within_eq_some.mp h₁
      refine reopen_inv ?_ he'
      exact hheld
  | loadOpen x =>
      simp only [hpc] at he hheld
      obtain ⟨s₁, h₁, he'⟩ := Option.bind_eq_some_iff.mp he
      obtain rfl := withinIf_eq_some h₁
      cases he'
      exact .of_held hheld fun _ hx ↦ hx
  | flushClose x =>
      simp only [hpc] at he hheld
      obtain ⟨s₁, h₁, he'⟩ := Option.bind_eq_some_iff.mp he
      cases he'
      refine .of_held ?_ fun _ hx ↦ hx
      show s₁.held = _
      rw [(forget_keeps h₁).2]
      exact hheld

theorem step_inv {e : Event κ} (hs : Inv s) (he : step s e = some s') : Inv s' := by
  have hheld := hs.held
  cases e with
  | callback c =>
      have hcall : callback s c = some s' := by
        rw [step] at he
        split at he <;> first | exact he | cases he
      obtain ⟨hpc, hheld', hmessages⟩ := callback_keeps hcall
      refine ⟨by rw [hpc, hheld', hs.held], fun x hx ↦ ?_⟩
      rw [hpc] at hx
      exact hmessages x (hs.messages x hx)
  | back ok abort => exact back_inv hs he
  | wake due =>
      rw [step] at he
      split at he
      · rename_i hpc
        rw [hpc] at hheld
        obtain ⟨s₁, h₁, he'⟩ := Option.bind_eq_some_iff.mp he
        obtain ⟨-, rfl⟩ := within_eq_some.mp h₁
        cases due with
        | false =>
            cases he'
            exact hs
        | true =>
            obtain ⟨s₂, h₂, rfl⟩ := Option.map_eq_some_iff.mp he'
            obtain ⟨-, rfl⟩ := lock_eq_some.mp h₂
            refine .of_held ?_ fun _ hx ↦ hx
            show insert _ s₁.held = _
            rw [hheld]
            rfl
      · cases he
  | poll x =>
      rw [step] at he
      split at he
      · rename_i hpc
        rw [hpc] at hheld
        cases he
        refine .of_held ?_ ?_ <;> cases s.stream x <;> first | exact hheld | exact fun _ hx ↦ hx
      · cases he
  | endPass =>
      rw [step] at he
      split at he
      · rename_i hpc
        rw [hpc] at hheld
        cases he
        refine .of_held ?_ fun _ hx ↦ hx
        show s.held.erase _ = _
        rw [hheld]
        exact Finset.erase_singleton _
      · cases he
  | report =>
      rw [step] at he
      split at he
      · rename_i x hpc
        rw [hpc] at hheld
        split at he
        · cases he
        · rename_i l hl
          obtain ⟨s₁, h₁, rfl⟩ := Option.map_eq_some_iff.mp he
          obtain ⟨-, rfl⟩ := lock_eq_some.mp h₁
          refine fetch_inv ?_ ?_ l
          · show insert _ s.held = _
            rw [hheld, heldAt]
            ext m
            simp only [Finset.mem_insert, Finset.mem_singleton]
            constructor
            · rintro (h | h | h)
              · exact .inr (.inr h)
              · exact .inl h
              · exact .inr (.inl h)
            · rintro (h | h | h)
              · exact .inr (.inl h)
              · exact .inr (.inr h)
              · exact .inl h
          · show (s.messageList x).isSome
            rw [hl]
            rfl
      · cases he
  | endReports abort =>
      rw [step] at he
      split at he
      · rename_i x hpc
        rw [hpc] at hheld
        refine startFlags_inv ?_ he
        show s.held.erase _ = _
        rw [hheld, heldAt, Finset.pair_comm]
        exact Finset.erase_insert (by simp)
      · cases he
  | reload =>
      rw [step] at he
      split at he
      · rename_i hpc
        rw [hpc] at hheld
        obtain ⟨s₁, h₁, rfl⟩ := Option.map_eq_some_iff.mp he
        obtain ⟨-, rfl⟩ := lock_eq_some.mp h₁
        refine .of_held ?_ fun _ hx ↦ hx
        show insert _ s.held = _
        rw [hheld]
        rfl
      · cases he
  | row x close r =>
      rw [step] at he
      split at he
      · rename_i hpc
        rw [hpc] at hheld
        cases close with
        | false => exact reopen_inv hheld he
        | true =>
            obtain ⟨s₁, h₁, he'⟩ := Option.bind_eq_some_iff.mp he
            obtain ⟨-, rfl⟩ := within_eq_some.mp h₁
            split at he'
            · obtain ⟨s₂, h₂, he₂⟩ := Option.bind_eq_some_iff.mp he'
              obtain ⟨-, rfl⟩ := within_eq_some.mp h₂
              cases he₂
              exact .of_held hheld fun _ hx ↦ hx
            · exact reopen_inv hheld he'
      · cases he
  | loaded =>
      rw [step] at he
      split at he
      · rename_i hpc
        rw [hpc] at hheld
        obtain ⟨s₁, h₁, he₁⟩ := Option.bind_eq_some_iff.mp he
        obtain ⟨s₂, h₂, he₂⟩ := Option.bind_eq_some_iff.mp he₁
        obtain ⟨-, rfl⟩ := within_eq_some.mp h₁
        obtain ⟨-, rfl⟩ := within_eq_some.mp h₂
        cases he₂
        exact .of_held hheld fun _ hx ↦ hx
      · cases he
  | flush x enabled =>
      rw [step] at he
      split at he
      · rename_i hpc
        cases enabled with
        | false =>
            obtain ⟨hpc', hheld'⟩ := forget_keeps he
            refine .of_held (by rw [hpc', hheld', hs.held]) fun y hy ↦ ?_
            rw [hpc', hpc] at hy
            exact hy
        | true =>
            rw [hpc] at hheld
            cases he
            exact .of_held hheld fun _ hx ↦ hx
      · cases he
  | flushed =>
      rw [step] at he
      split at he
      · rename_i hpc
        rw [hpc] at hheld
        obtain ⟨s₁, h₁, he₁⟩ := Option.bind_eq_some_iff.mp he
        obtain ⟨s₂, h₂, he₂⟩ := Option.bind_eq_some_iff.mp he₁
        obtain ⟨-, rfl⟩ := within_eq_some.mp h₁
        obtain ⟨-, rfl⟩ := within_eq_some.mp h₂
        cases he₂
        refine .of_held ?_ fun _ hx ↦ hx
        show s₂.held.erase _ = _
        rw [hheld]
        exact Finset.erase_singleton _
      · cases he

end Locking

theorem reachable_inv {s : State κ} (h : (system κ).Reachable s) : Inv s := by
  refine h.invariant (fun s hi ↦ ?_) fun s e s' hs he ↦ step_inv hs he
  obtain ⟨hpc, hheld, -⟩ := hi
  refine .of_held (by rw [hpc, hheld]; rfl) fun x hx ↦ ?_
  rw [hpc] at hx
  exact hx

theorem streamTree_notMem (pc : Point κ) : .mailboxStreamTree ∉ heldAt pc := by
  cases pc <;> simp [heldAt]

theorem activeTree_mem {pc : Point κ} : .mailboxActiveTree ∈ heldAt pc ↔ pc.InPass := by
  cases pc <;> simp [heldAt, Point.InPass]

theorem messageList_mem {pc : Point κ} {x : κ} : .messageList x ∈ heldAt pc ↔ pc.OnMessages x := by
  cases pc <;> simp [heldAt, Point.OnMessages, eq_comm]

/-- In every run, a callback goes on if and only if it is not `mm_login` in the loop over
the mailboxes that are due, and not `mm_searched` for the mailbox whose messages the
thread goes through. -/
theorem callback_isSome_iff {s : State κ} (h : (system κ).Reachable s) (hc : s.pc.InCall)
    (c : Callback κ) :
    ((system κ).step s (.callback c)).isSome ↔
      (c = .mmLogin → ¬ s.pc.InPass) ∧
        ∀ x n, c = .mmSearched (some x) n → ¬ s.pc.OnMessages x := by
  have hs := reachable_inv h
  have hstep : (system κ).step s (.callback c) = callback s c := by
    show step s (.callback c) = _
    rw [step]
    cases hpc : s.pc <;> first | rfl | (rw [hpc] at hc; exact hc.elim)
  have hstream : s.within .mailboxStreamTree = some s := by
    rw [within_eq, hs.held, if_neg (streamTree_notMem s.pc)]
  rw [hstep]
  cases c with
  | mmFlags | mmExpunged | mmList | mmLsub | mmCritical | mmNocritical | mmDiskerror =>
      simp [callback, hstream]
  | mmExists | mmNotify | mmLog | mmDlog | mmFatal => simp [callback]
  | mmStatus found unseen =>
      rcases found with _ | x <;> rcases unseen with _ | n <;> simp [callback, hstream]
  | mmLogin =>
      have hlogin : (callback s .mmLogin).isSome ↔ ¬ s.pc.InPass := by
        rw [callback, within_eq, hs.held]
        simp [activeTree_mem]
      simpa using hlogin
  | mmSearched found n =>
      rcases found with _ | x
      · simp [callback, hstream]
      · have hsearched : (callback s (.mmSearched (some x) n)).isSome ↔ ¬ s.pc.OnMessages x := by
          rcases hl : s.messageList x with _ | l
          · have hoff : ¬ s.pc.OnMessages x := fun hx ↦ by
              have hsome := hs.messages x hx
              rw [hl] at hsome
              cases hsome
            simp [callback, hstream, hl, hoff]
          · rw [← messageList_mem, ← hs.held]
            by_cases hm : .messageList x ∈ s.held <;> simp [callback, hstream, hl, State.lock, hm]
        simpa using hsearched

/-- The thread before it does anything. -/
def fresh : State ℕ where
  pc := .sleeping
  held := ∅
  stream _ := false
  newMessages _ := 0
  messageList _ := none

theorem fresh_init : (system ℕ).init fresh := ⟨rfl, rfl, fun _ ↦ rfl, fun _ ↦ rfl, fun _ ↦ rfl⟩

/-- The login of a mailbox while the mailboxes are loaded. -/
theorem callback_isSome_iff_login : ∃ s, (system ℕ).run fresh [.reload, .row 1 false true] = some s ∧
    (step s (.callback .mmLogin)).isSome := by
  have hrun : (system ℕ).run fresh [.reload, .row 1 false true] = some _ := rfl
  refine ⟨_, hrun, ?_⟩
  exact (callback_isSome_iff (System.reachable_of_run fresh_init hrun) trivial .mmLogin).mpr
    ⟨fun _ h ↦ h, fun _ _ h ↦ by cases h⟩

/-- A mailbox is loaded and logged in, the connection is lost, and the poll opens it
again. -/
def lost : List (Event ℕ) :=
  [.reload, .row 1 false true, .callback .mmLogin, .back true false, .loaded, .flushed,
    .wake true, .poll 1, .back false false]

/-- The login of the mailbox that is opened again locks `mailboxActiveTree` a second
time. -/
theorem reopen_hangs : ∃ s, (system ℕ).Reachable s ∧ s.pc = .mailOpen 1 ∧
    (system ℕ).step s (.callback .mmLogin) = none := by
  have hrun : (system ℕ).run fresh lost = some _ := rfl
  exact ⟨_, System.reachable_of_run fresh_init hrun, rfl, rfl⟩

end Beirdobot.Mailbox.Callbacks
