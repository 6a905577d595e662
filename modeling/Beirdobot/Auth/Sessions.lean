import Beirdobot.Auth.Walks
import Beirdobot.Library.System

/-!
# Who is authenticated

The runs of messages, checks and sweeps.  A log, newest entry first, says which
responses were accepted, who logged off and when the list was swept;
`AcceptedSince` is what a positive check should mean.

A record is filed under the nick of its row in the database and expires at a time
kept in 32 bits, in which 0 stands for no expiry.  `Regular` leaves out the
messages where that is not what the message asked for.
-/

namespace Beirdobot.Auth

open Linked Library

variable {ι σ : Type}

/-- An entry of the log. -/
inductive Happened (σ : Type) where
  | accepted (server : σ) (nick : CString) (time : ℕ)
  | logoff (server : σ) (nick : CString)
  | swept (time : ℕ)
deriving DecidableEq

/-- The sessions and what has happened to them. -/
structure State (ι σ : Type) where
  sessions : Sessions ι σ
  log : List (Happened σ)

/-- A response for the nick was accepted on the server, no "logoff" by it followed,
and no sweep since found the 30 minutes elapsed. -/
def AcceptedSince (log : List (Happened σ)) (server : σ) (nick : CString) : Prop :=
  ∃ after nick' time before, log = after ++ .accepted server nick' time :: before ∧
    sameIgnoringCase nick nick' ∧
    (∀ nick'', .logoff server nick'' ∈ after → ¬ sameIgnoringCase nick nick'') ∧
    ∀ now, .swept now ∈ after → now < time + 30 * 60

/-- What reaches the module from outside. -/
inductive Event (ι σ : Type) where
  | message (server : σ) (channel : Bool) (nick : CString) (msg : Option CString)
      (answers : Answers ι)
  | check (server : σ) (nick : CString)
  | sweep (now : ℕ)

variable [DecidableEq σ]

/-- Whether a message to the bot is a response that `auth_user_verify` accepts. -/
def accepts (fuel : ℕ) (s : Sessions ι σ) (server : σ) (nick : CString)
    (answers : Answers ι) : Bool :=
  match lookup fuel s server nick with
  | some (some item) => (s.auth item).state == .challenge && answers.verified
  | _ => false

/-- The log of one event. -/
def happened (fuel : ℕ) (s : Sessions ι σ) : Event ι σ → List (Happened σ)
  | .message server channel nick msg answers =>
      if channel then []
      else if accepts fuel s server nick answers then [.accepted server nick answers.now]
      else if msg.any isLogoff then [.logoff server nick]
      else []
  | .check _ _ => []
  | .sweep now => [.swept now]

variable [DecidableEq ι]

/-- One event.  The allocator does not hand out memory that is in use. -/
def handle (fuel : ℕ) (s : Sessions ι σ) : Event ι σ → Option (Sessions ι σ)
  | .message server channel nick msg answers =>
      if answers.row.any fun row ↦ s.live row.1 then none
      else authenticateStateMachine fuel s server channel nick msg answers
  | .check server nick => (authenticateCheck fuel s server nick).map fun _ ↦ s
  | .sweep now => authenticateSweep fuel now s

/-- The runs from the creation of `AuthList`, with the fuel for the walks. -/
def system (ι σ : Type) [DecidableEq ι] [DecidableEq σ] : System (State ι σ) (ℕ × Event ι σ) where
  init s := s.log = [] ∧ ∃ self items owner, s.sessions.list = linkedListCreate self items owner
  step s e := do
    let sessions ← handle e.1 s.sessions e.2
    some { sessions, log := happened e.1 s.sessions e.2 ++ s.log }

omit [DecidableEq ι] in
/-- When a message gets what it asks for: the new expiry is not the 0 that stands
for none, and a record made for it is not filed under a nick that is authenticated
on the server already. -/
def Regular (s : State ι σ) : ℕ × Event ι σ → Prop
  | (fuel, .message server false nick _ answers) =>
      match lookup fuel s.sessions server nick with
      | some none => ∀ item rowNick otp, answers.row = some (item, rowNick, otp) →
          u32 (answers.now + 30) ≠ 0 ∧
          ∀ n other, lookup n s.sessions server rowNick = some (some other) →
            (s.sessions.auth other).state ≠ .accepted
      | some (some item) => (s.sessions.auth item).state = .challenge → answers.verified = true →
          u32 (answers.now + 30 * 60) ≠ 0
      | none => True
  | _ => True

/-! ## Accepted records -/

section Valid

omit [DecidableEq σ] [DecidableEq ι]

/-- The log has the acceptance that an accepted record stands for. -/
def Valid (log : List (Happened σ)) (auth : AuthData σ) : Prop :=
  ∃ after nick time before, log = after ++ .accepted auth.server nick time :: before ∧
    sameIgnoringCase nick auth.nick ∧ auth.wakeTime = u32 (time + 30 * 60) ∧
    (∀ nick', .logoff auth.server nick' ∈ after → ¬ sameIgnoringCase nick' auth.nick) ∧
    ∀ now, .swept now ∈ after → now < auth.wakeTime

/-- A record stays valid if the nick does not log off and a sweep does not find it
expired. -/
theorem Valid.append {log new : List (Happened σ)} {auth : AuthData σ} (h : Valid log auth)
    (hl : ∀ nick, .logoff auth.server nick ∈ new → ¬ sameIgnoringCase nick auth.nick)
    (hs : ∀ now, .swept now ∈ new → now < auth.wakeTime) : Valid (new ++ log) auth := by
  obtain ⟨after, nick, time, before, rfl, hn, hw, hl', hs'⟩ := h
  refine ⟨new ++ after, nick, time, before, by simp, hn, hw, fun nick' hm ↦ ?_, fun now hm ↦ ?_⟩
  · exact (List.mem_append.mp hm).elim (hl nick') (hl' nick')
  · exact (List.mem_append.mp hm).elim (hs now) (hs' now)

/-- A valid record means what a positive check should mean. -/
theorem Valid.acceptedSince {log : List (Happened σ)} {auth : AuthData σ} (h : Valid log auth)
    {nick : CString} (hn : sameIgnoringCase nick auth.nick) :
    AcceptedSince log auth.server nick := by
  obtain ⟨after, nick', time, before, hlog, hn', hw, hl, hs⟩ := h
  refine ⟨after, nick', time, before, hlog,
    sameIgnoringCase_trans hn (sameIgnoringCase_symm hn'), fun nick'' hm hsame ↦ ?_,
    fun now hm ↦ ?_⟩
  · exact hl nick'' hm (sameIgnoringCase_trans (sameIgnoringCase_symm hsame) hn)
  · have hlt := hs now hm
    rw [hw] at hlt
    exact Nat.lt_of_lt_of_le hlt (Nat.mod_le ..)

end Valid

/-! ## The invariant -/

omit [DecidableEq ι] in
theorem belongsTo_iff {auth : AuthData σ} {server : σ} {nick : CString} :
    auth.belongsTo server nick = true ↔
      auth.server = server ∧ sameIgnoringCase nick auth.nick = true := by
  simp [AuthData.belongsTo]

omit [DecidableEq ι] in
/-- Two records of one nick on a server belong to the same nicks. -/
theorem belongsTo_trans {a b : AuthData σ} {server server' : σ} {nick nick' : CString}
    (ha : a.belongsTo server nick) (hb : b.belongsTo server nick)
    (ha' : a.belongsTo server' nick') : b.belongsTo server' nick' := by
  rw [belongsTo_iff] at ha hb ha' ⊢
  refine ⟨hb.1.trans (ha.1.symm.trans ha'.1), ?_⟩
  exact sameIgnoringCase_trans ha'.2
    (sameIgnoringCase_trans (sameIgnoringCase_symm ha.2) hb.2)

/-- An earlier record of the same nick on the server allows this one if it is not
accepted. -/
def Allows (a b : AuthData σ) : Prop :=
  ∀ server nick, a.belongsTo server nick → b.belongsTo server nick → b.state ≠ .accepted

omit [DecidableEq ι] in
/-- The records `xs` are on the list, each will expire or be removed, only the first
record of a nick on a server can be accepted, and accepted records are valid. -/
structure Invariant (s : State ι σ) (xs : List ι) : Prop where
  holds : Holds s.sessions.list xs
  mutex : s.sessions.list.mutex = false
  live : ∀ x ∈ xs, s.sessions.live x = true
  wake : ∀ x ∈ xs, (s.sessions.auth x).state.Ended ∨ (s.sessions.auth x).wakeTime ≠ 0
  first : xs.Pairwise fun x y ↦ Allows (s.sessions.auth x) (s.sessions.auth y)
  valid : ∀ x ∈ xs, (s.sessions.auth x).state = .accepted → Valid s.log (s.sessions.auth x)

namespace Invariant

variable {s : State ι σ} {xs : List ι}

omit [DecidableEq ι] in
/-- A lookup of its nick finds an accepted record. -/
theorem accepted_first (h : Invariant s xs) {x : ι} (hx : x ∈ xs)
    (ha : (s.sessions.auth x).state = .accepted) {server : σ} {nick : CString}
    (hb : (s.sessions.auth x).belongsTo server nick) :
    firstOf s.sessions xs server nick = some x := by
  obtain ⟨a, b, hab⟩ := List.append_of_mem hx
  have hfirst := h.first
  rw [hab] at hfirst
  have ha' : ∀ y ∈ a, ¬ (s.sessions.auth y).belongsTo server nick := fun y hy hyb ↦
    (List.pairwise_append.mp hfirst).2.2 y hy x (by simp) server nick hyb hb ha
  rw [firstOf, List.find?_eq_some_iff_append]
  exact ⟨hb, a, b, hab, by simpa using ha'⟩

omit [DecidableEq ι] in
/-- What a message logs does not concern the accepted records but the first. -/
theorem valid_append (h : Invariant s xs) {server : σ} {nick : CString}
    {new : List (Happened σ)} (hnew : ∀ e ∈ new, (∃ time, e = .accepted server nick time) ∨
      e = .logoff server nick) {x : ι} (hx : x ∈ xs)
    (hf : firstOf s.sessions xs server nick ≠ some x)
    (ha : (s.sessions.auth x).state = .accepted) :
    Valid (new ++ s.log) (s.sessions.auth x) := by
  refine (h.valid x hx ha).append (fun nick' hm hsame ↦ hf ?_) (fun now hm ↦ ?_)
  · rcases hnew _ hm with ⟨time, he⟩ | he
    · cases he
    · obtain ⟨rfl, rfl⟩ := Happened.logoff.inj he
      exact h.accepted_first hx ha (belongsTo_iff.mpr ⟨rfl, hsame⟩)
  · rcases hnew _ hm with ⟨time, he⟩ | he <;> cases he

theorem create (h : (system ι σ).init s) : Invariant s [] := by
  obtain ⟨-, self, items, owner, hl⟩ := h
  refine ⟨?_, ?_, by simp, by simp, .nil, by simp⟩
  · rw [hl]
    exact linkedListCreate_holds self items owner
  · rw [hl]
    rfl

omit [DecidableEq ι] in
/-- Messages that only log and answer. -/
theorem log (h : Invariant s xs) {server : σ} {nick : CString} {new : List (Happened σ)}
    (hnew : ∀ e ∈ new, (∃ time, e = .accepted server nick time) ∨ e = .logoff server nick)
    (hf : ∀ x, firstOf s.sessions xs server nick = some x →
      (s.sessions.auth x).state = .accepted → new = [])
    (outbox : List (σ × CString × CString)) :
    Invariant ⟨{ s.sessions with outbox }, new ++ s.log⟩ xs := by
  refine ⟨h.holds, h.mutex, h.live, h.wake, h.first, fun x hx ha ↦ ?_⟩
  by_cases hfirst : firstOf s.sessions xs server nick = some x
  · rw [hf x hfirst ha]
    exact h.valid x hx ha
  · exact h.valid_append hnew hx hfirst ha

/-- A new record is not accepted, and goes to the head of the list. -/
theorem challenge (h : Invariant s xs) {server : σ} {nick rowNick : CString} {item : ι}
    {otp : Otp} {answers : Answers ι} {sessions : Sessions ι σ} {new : List (Happened σ)}
    (hnew : ∀ e ∈ new, (∃ time, e = .accepted server nick time) ∨ e = .logoff server nick)
    (hnone : firstOf s.sessions xs server nick = none)
    (hrow : answers.row = some (item, rowNick, otp)) (hfresh : s.sessions.live item = false)
    (hwake : u32 (answers.now + 30) ≠ 0)
    (hother : ∀ other, firstOf s.sessions xs server rowNick = some other →
      (s.sessions.auth other).state ≠ .accepted)
    (hs : sendChallenge s.sessions server nick answers = some sessions) :
    Invariant ⟨sessions, new ++ s.log⟩ (item :: xs) := by
  have hitem : item ∉ xs := by
    intro hx
    rw [h.live item hx] at hfresh
    cases hfresh
  obtain ⟨list, hadd, hlist, -, hmutex⟩ :=
    linkedListAdd_atHead h.holds hitem .unlocked fun _ ↦ h.mutex
  let auth : AuthData σ :=
    { server, nick := rowNick, otp, state := .challenge, wakeTime := u32 (answers.now + 30) }
  let sessions' : Sessions ι σ :=
    { list
      auth := Function.update s.sessions.auth item auth
      live := Function.update s.sessions.live item true
      outbox := s.sessions.outbox ++ [(server, nick, challengeText otp)] }
  have hsess : sessions = sessions' := by
    simp only [sendChallenge, hrow, Sessions.setAuth, hadd, Option.bind_eq_bind,
      Option.bind_some] at hs
    exact (Option.some.inj hs).symm
  subst hsess
  have hself : sessions'.auth item = auth := Function.update_self ..
  have hne : ∀ x ∈ xs, x ≠ item := fun x hx e ↦ hitem (e ▸ hx)
  have hsame : ∀ x ∈ xs, sessions'.auth x = s.sessions.auth x :=
    fun x hx ↦ Function.update_of_ne (hne x hx) ..
  refine ⟨hlist, hmutex.trans h.mutex, ?_, ?_, List.pairwise_cons.mpr ⟨?_, ?_⟩, ?_⟩
  · intro x hx
    rcases List.mem_cons.mp hx with rfl | hx
    · exact Function.update_self ..
    · exact (Function.update_of_ne (hne x hx) ..).trans (h.live x hx)
  · intro x hx
    dsimp only
    rcases List.mem_cons.mp hx with rfl | hx
    · rw [hself]
      exact .inr hwake
    · rw [hsame x hx]
      exact h.wake x hx
  · intro y hy server' nick' hb hb' ha
    dsimp only at hb hb' ha
    rw [hself] at hb
    rw [hsame y hy] at hb' ha
    have hown : auth.belongsTo server rowNick := belongsTo_iff.mpr ⟨rfl, sameIgnoringCase_refl _⟩
    exact hother y (h.accepted_first hy ha (belongsTo_trans hb hb' hown)) ha
  · refine h.first.imp_of_mem fun {x y} hx hy hxy ↦ ?_
    dsimp only
    rwa [hsame x hx, hsame y hy]
  · intro x hx ha
    dsimp only at ha ⊢
    rcases List.mem_cons.mp hx with rfl | hx
    · rw [hself] at ha
      cases ha
    · rw [hsame x hx] at ha ⊢
      exact h.valid_append hnew hx (by simp [hnone]) ha

/-- The record that a lookup finds changes its state. -/
theorem update (h : Invariant s xs) {server : σ} {nick : CString} {x : ι}
    {new : List (Happened σ)}
    (hnew : ∀ e ∈ new, (∃ time, e = .accepted server nick time) ∨ e = .logoff server nick)
    (hx : firstOf s.sessions xs server nick = some x) (otp : Otp) (state : AuthState)
    (wakeTime : ℕ) (hwake : state.Ended ∨ wakeTime ≠ 0)
    (hvalid : state = .accepted →
      Valid (new ++ s.log) { s.sessions.auth x with otp, state, wakeTime })
    (text : CString) :
    Invariant ⟨(s.sessions.setAuth x { s.sessions.auth x with otp, state, wakeTime }).transmit
      server nick text, new ++ s.log⟩ xs := by
  obtain ⟨hb, a, b, hab, ha⟩ := List.find?_eq_some_iff_append.mp hx
  let auth : AuthData σ := { s.sessions.auth x with otp, state, wakeTime }
  let sessions' := (s.sessions.setAuth x auth).transmit server nick text
  have hself : sessions'.auth x = auth := Function.update_self ..
  have hne : ∀ y, y ≠ x → sessions'.auth y = s.sessions.auth y :=
    fun y hy ↦ Function.update_of_ne hy ..
  refine ⟨h.holds, h.mutex, h.live, fun y hy ↦ ?_, ?_, fun y hy hacc ↦ ?_⟩
  · show (sessions'.auth y).state.Ended ∨ (sessions'.auth y).wakeTime ≠ 0
    by_cases hyx : y = x
    · rw [hyx, hself]
      exact hwake
    · rw [hne y hyx]
      exact h.wake y hy
  · show xs.Pairwise fun x y ↦ Allows (sessions'.auth x) (sessions'.auth y)
    have hnodup := h.holds.nodup
    have hfirst := h.first
    rw [hab] at hnodup hfirst ⊢
    obtain ⟨hfa, hfxb, hfab⟩ := List.pairwise_append.mp hfirst
    obtain ⟨hfx, hfb⟩ := List.pairwise_cons.mp hfxb
    have hxb := (List.nodup_cons.mp (List.nodup_append.mp hnodup).2.1).1
    have hxa : x ∉ a := fun hm ↦ (List.nodup_append.mp hnodup).2.2 x hm x (by simp) rfl
    have hinA : ∀ y ∈ a, sessions'.auth y = s.sessions.auth y :=
      fun y hy ↦ hne y fun e ↦ hxa (e ▸ hy)
    have hinB : ∀ y ∈ b, sessions'.auth y = s.sessions.auth y :=
      fun y hy ↦ hne y fun e ↦ hxb (e ▸ hy)
    refine List.pairwise_append.mpr ⟨?_, List.pairwise_cons.mpr ⟨?_, ?_⟩, ?_⟩
    · exact hfa.imp_of_mem fun {y z} hy hz hyz ↦ by rwa [hinA y hy, hinA z hz]
    · intro y hy
      rw [hself, hinB y hy]
      exact hfx y hy
    · exact hfb.imp_of_mem fun {y z} hy hz hyz ↦ by rwa [hinB y hy, hinB z hz]
    · intro y hy z hz
      rw [hinA y hy]
      rcases List.mem_cons.mp hz with rfl | hz
      · -- the records before the first of the nick on the server are of other nicks
        intro server' nick' hby hbz
        rw [hself] at hbz
        exact absurd (belongsTo_trans (b := s.sessions.auth y) hbz hby hb) (by simpa using ha y hy)
      · rw [hinB z hz]
        exact hfab y hy z (by simp [hz])
  · change (sessions'.auth y).state = .accepted at hacc
    show Valid (new ++ s.log) (sessions'.auth y)
    by_cases hyx : y = x
    · rw [hyx, hself] at hacc ⊢
      exact hvalid hacc
    · rw [hne y hyx] at hacc ⊢
      refine h.valid_append hnew hy ?_ hacc
      rw [hx]
      exact fun e ↦ hyx (Option.some.inj e).symm

end Invariant

/-! ## Runs -/

omit [DecidableEq ι] in
/-- A message logs at most one thing about its nick. -/
theorem happened_message (fuel : ℕ) (s : Sessions ι σ) (server : σ) (channel : Bool)
    (nick : CString) (msg : Option CString) (answers : Answers ι) :
    ∀ e ∈ happened fuel s (.message server channel nick msg answers),
      (∃ time, e = .accepted server nick time) ∨ e = .logoff server nick := by
  intro e he
  unfold happened at he
  dsimp only at he
  split at he
  · simp at he
  · split at he
    · exact .inl ⟨answers.now, by simpa using he⟩
    · split at he
      · exact .inr (by simpa using he)
      · simp at he

/-- A regular message keeps the invariant. -/
theorem Invariant.message {s : State ι σ} {xs : List ι} (h : Invariant s xs) {fuel : ℕ}
    {server : σ} {channel : Bool} {nick : CString} {msg : Option CString} {answers : Answers ι}
    {sessions : Sessions ι σ} (hr : Regular s (fuel, .message server channel nick msg answers))
    (hs : handle fuel s.sessions (.message server channel nick msg answers) = some sessions) :
    ∃ xs', Invariant
      ⟨sessions, happened fuel s.sessions (.message server channel nick msg answers) ++ s.log⟩
      xs' := by
  have hnew := happened_message fuel s.sessions server channel nick msg answers
  unfold handle at hs
  dsimp only at hs
  split at hs
  · cases hs
  rename_i hfresh
  cases channel with
  | true =>
      cases hs
      exact ⟨xs, h⟩
  | false =>
      obtain ⟨r, hl, hs⟩ := Option.bind_eq_some_iff.mp hs
      have hfirst := lookup_eq h.holds hl
      simp only [Regular, hl] at hr
      cases r with
      | none =>
          cases hrow : answers.row with
          | none =>
              simp only [sendChallenge, hrow] at hs
              cases hs
              exact ⟨xs, h.log hnew (by simp [← hfirst]) _⟩
          | some row =>
              obtain ⟨item, rowNick, otp⟩ := row
              obtain ⟨hwake, hother⟩ := hr item rowNick otp hrow
              refine ⟨item :: xs, h.challenge hnew hfirst.symm hrow (by simpa [hrow] using hfresh)
                hwake (fun other ho ↦ ?_) hs⟩
              obtain ⟨r, hl'⟩ := Option.isSome_iff_exists.mp
                (lookup_isSome h.holds h.mutex server rowNick (Nat.le_refl _))
              refine hother _ other (hl'.trans ?_)
              rw [lookup_eq h.holds hl', ho]
      | some item =>
          cases hstate : (s.sessions.auth item).state with
          | challenge =>
              simp only [hstate] at hs hr
              cases hs
              unfold takeResponse
              dsimp only
              by_cases hv : answers.verified = true
              · rw [if_pos hv]
                have hlog : happened fuel s.sessions (.message server false nick msg answers) =
                    [.accepted server nick answers.now] := by
                  simp [happened, accepts, hl, hstate, hv]
                obtain ⟨rfl, hnick⟩ := belongsTo_iff.mp (firstOf_belongsTo hfirst.symm)
                refine ⟨xs, h.update hnew hfirst.symm _ .accepted _ (.inr (hr trivial hv))
                  (fun _ ↦ ?_) _⟩
                rw [hlog]
                exact ⟨[], nick, answers.now, s.log, rfl, hnick, rfl, by simp, by simp⟩
              · rw [if_neg hv]
                exact ⟨xs, h.update hnew hfirst.symm _ .rejected _ (.inl (.inl rfl)) (by simp) _⟩
          | accepted =>
              simp only [hstate, takeLogoff] at hs
              cases msg with
              | none => cases hs
              | some msg =>
                  cases hs
                  split
                  · exact ⟨xs, h.update hnew hfirst.symm _ .disconnect _ (.inl (.inr (.inr rfl)))
                      (by simp) _⟩
                  · rename_i hlogoff
                    refine ⟨xs, h.log hnew (fun _ _ _ ↦ ?_) _⟩
                    simp [happened, accepts, hl, hstate, hlogoff]
          | none | rejected | timedout | disconnect =>
              simp only [hstate] at hs
              cases hs
              refine ⟨xs, h.log hnew (fun x hx ha ↦ ?_) _⟩
              rw [← hfirst] at hx
              cases hx
              rw [hstate] at ha
              cases ha

/-- The records that a sweep leaves have not expired. -/
theorem Invariant.sweep {s : State ι σ} {xs : List ι} (h : Invariant s xs) {fuel now : ℕ}
    {sessions : Sessions ι σ} (hs : authenticateSweep fuel now s.sessions = some sessions) :
    Invariant ⟨sessions, .swept now :: s.log⟩ (kept now s.sessions xs) := by
  obtain ⟨s', he, hholds, hmutex, hframe⟩ :=
    authenticateSweep_eq now h.holds h.mutex (Nat.le_max_right fuel xs.length)
  obtain rfl : s' = sessions :=
    Option.some.inj (he.symm.trans (authenticateSweep_mono (Nat.le_max_left ..) hs))
  have hsub : ∀ x ∈ kept now s.sessions xs, x ∈ xs := fun x hx ↦ (List.mem_filter.mp hx).1
  have hsame : ∀ x ∈ kept now s.sessions xs, s'.auth x = s.sessions.auth x :=
    fun x hx ↦ (hframe x (.inr hx)).1
  refine ⟨hholds, hmutex, fun x hx ↦ ?_, fun x hx ↦ ?_, ?_, fun x hx ha ↦ ?_⟩
  · exact (hframe x (.inr hx)).2.trans (h.live x (hsub x hx))
  · dsimp only
    rw [hsame x hx]
    exact h.wake x (hsub x hx)
  · refine (h.first.sublist (List.filter_sublist ..)).imp_of_mem fun {x y} hx hy hxy ↦ ?_
    dsimp only
    rwa [hsame x hx, hsame y hy]
  · dsimp only at ha ⊢
    rw [hsame x hx] at ha ⊢
    have hkept := (List.mem_filter.mp hx).2
    show Valid ([.swept now] ++ s.log) _
    refine (h.valid x (hsub x hx) ha).append (by simp) fun now' hm ↦ ?_
    obtain rfl : now' = now := by simpa using hm
    rcases h.wake x (hsub x hx) with hended | hwake
    · simp [AuthState.Ended, ha] at hended
    · simpa [AuthData.Swept, hwake, ha, AuthState.Ended] using hkept

theorem Invariant.step {s s' : State ι σ} {e : ℕ × Event ι σ} {xs : List ι} (h : Invariant s xs)
    (hr : Regular s e) (he : (system ι σ).step s e = some s') : ∃ xs', Invariant s' xs' := by
  obtain ⟨fuel, e⟩ := e
  obtain ⟨sessions, hs, he⟩ := Option.bind_eq_some_iff.mp he
  cases he
  cases e with
  | message server channel nick msg answers => exact h.message hr hs
  | check server nick =>
      obtain ⟨_, -, hs⟩ := Option.map_eq_some_iff.mp hs
      subst hs
      exact ⟨xs, h⟩
  | sweep now => exact ⟨_, h.sweep hs⟩

theorem reachable_invariant {s : State ι σ} (h : (system ι σ).ReachableVia Regular s) :
    ∃ xs, Invariant s xs :=
  h.invariant (I := fun s ↦ ∃ xs, Invariant s xs) (fun _ hi ↦ ⟨[], .create hi⟩)
    fun _ _ _ ⟨_, hxs⟩ hr he ↦ hxs.step hr he

omit [DecidableEq ι] [DecidableEq σ] in
/-- Whether a record is to be removed by a sweep: it is rejected, timed out, logged
off or past its wake time. -/
def Over (now : ℕ) (auth : AuthData σ) : Prop := auth.state.Ended ∨ auth.wakeTime ≤ now

omit [DecidableEq ι] [DecidableEq σ] in
instance (now : ℕ) (auth : AuthData σ) : Decidable (Over now auth) := by
  unfold Over; infer_instance

/-- What the sessions should guarantee: a positive check, which always returns, is
that of a nick whose response was accepted, and a sweep, which always returns,
removes the records that are over and no other. -/
def Guarantees (s : State ι σ) : Prop :=
  (∀ server nick fuel, authenticateCheck fuel s.sessions server nick = some true →
    AcceptedSince s.log server nick) ∧
  ∃ xs, Holds s.sessions.list xs ∧
    (∀ server nick fuel, xs.length ≤ fuel →
      (authenticateCheck fuel s.sessions server nick).isSome) ∧
    ∀ now fuel, xs.length ≤ fuel → ∃ sessions, authenticateSweep fuel now s.sessions = some sessions ∧
      Holds sessions.list (xs.filter fun x ↦ ¬ Over now (s.sessions.auth x)) ∧
      ∀ x ∈ xs, ¬ Over now (s.sessions.auth x) → sessions.auth x = s.sessions.auth x

/-- In every run of regular messages, checks and sweeps, in any order, the sessions
guarantee what they should. -/
theorem authenticated_run {s : State ι σ} (h : (system ι σ).ReachableVia Regular s) :
    Guarantees s := by
  obtain ⟨xs, h⟩ := reachable_invariant h
  have hover : ∀ now, ∀ x ∈ xs, (s.sessions.auth x).Swept now ↔ Over now (s.sessions.auth x) := by
    intro now x hx
    refine or_congr_right' fun hended ↦ ?_
    have hwake := (h.wake x hx).resolve_left hended
    exact and_iff_right hwake
  have hkept : ∀ now, kept now s.sessions xs =
      xs.filter fun x ↦ ¬ Over now (s.sessions.auth x) := fun now ↦
    List.filter_congr fun x hx ↦ by simp [hover now x hx]
  refine ⟨fun server nick fuel hc ↦ ?_, xs, h.holds, fun server nick fuel hf ↦
    authenticateCheck_isSome h.holds h.mutex server nick hf, fun now fuel hf ↦ ?_⟩
  · obtain ⟨x, hx, ha⟩ := authenticateCheck_eq h.holds hc
    obtain ⟨rfl, hn⟩ := belongsTo_iff.mp (firstOf_belongsTo hx)
    exact (h.valid x (List.mem_of_find?_eq_some hx) ha).acceptedSince hn
  · obtain ⟨s', he, hs', -, hframe⟩ := authenticateSweep_eq now h.holds h.mutex hf
    rw [hkept] at hs' hframe
    refine ⟨s', he, hs', fun x hx hover ↦ (hframe x (.inr ?_)).1⟩
    rw [List.mem_filter]
    exact ⟨hx, by simpa using hover⟩

/-- A message of a nick that the database has, and what it is answered. -/
def messageAt (now item : ℕ) (verified : Bool) : Event ℕ ℕ :=
  let otp : Otp := ⟨['m', 'd', '5'], ['s'], 99, ['h']⟩
  .message 7 false ['a', 'n', 'n'] (some ['x'])
    { now, row := some (item, ['A', 'n', 'n'], otp), random := [], verified, otp }

/-- `AuthList` before anything has happened. -/
def initial : State ℕ ℕ :=
  { sessions :=
      { list := linkedListCreate 0 ⟨fun _ ↦ none, fun _ ↦ none⟩ fun _ ↦ none
        auth := fun _ ↦ ⟨0, [], ⟨[], [], 0, []⟩, .none, 0⟩
        live := fun _ ↦ false
        outbox := [] }
    log := [] }

theorem initial_init : (system ℕ ℕ).init initial := ⟨rfl, 0, _, _, rfl⟩

/-- The challenge of the run below. -/
def challenged : State ℕ ℕ :=
  ((system ℕ ℕ).step initial (1, messageAt 990 1 false)).getD initial

/-- The response of the run below. -/
def authenticated : State ℕ ℕ :=
  ((system ℕ ℕ).step challenged (1, messageAt 1000 2 true)).getD initial

/-- A response at 1000 authenticates the nick on its server, in any letter case. -/
theorem authenticated_run_ann :
    (system ℕ ℕ).ReachableVia Regular authenticated ∧
      authenticateCheck 1 authenticated.sessions 7 ['A', 'N', 'N'] = some true ∧
      Guarantees authenticated := by
  have hchallenge : (system ℕ ℕ).ReachableVia Regular challenged := by
    refine .step (e := (1, messageAt 990 1 false)) (.init initial_init) ?_ rfl
    rintro item rowNick otp ⟨⟩
    refine ⟨by decide, fun n other hl ↦ ?_⟩
    cases n <;> cases hl
  have hresponse : (system ℕ ℕ).ReachableVia Regular authenticated := by
    refine .step (e := (1, messageAt 1000 2 true)) hchallenge ?_ rfl
    intro _ _
    decide
  exact ⟨hresponse, by decide, authenticated_run hresponse⟩

/-- An acceptance 30 minutes before the clock reaches `2 ^ 32` never expires. -/
def foreverRun : Option (State ℕ ℕ) :=
  (system ℕ ℕ).run initial [(1, messageAt 4294965490 1 false), (1, messageAt 4294965496 2 true),
    (1, .sweep 4294970000)]

theorem not_guarantees : ¬ ∀ s : State ℕ ℕ, (system ℕ ℕ).Reachable s → Guarantees s := by
  intro h
  have hrun : foreverRun.map (fun s ↦ (s.log, authenticateCheck 1 s.sessions 7 ['a', 'n', 'n'])) =
      some ([.swept 4294970000, .accepted 7 ['a', 'n', 'n'] 4294965496], some true) := by
    decide
  obtain ⟨s, hs, hlog⟩ := Option.map_eq_some_iff.mp hrun
  obtain ⟨hlog, hcheck⟩ := Prod.mk.inj hlog
  obtain ⟨after, nick, time, before, hsplit, -, -, hswept⟩ :=
    (h s (System.reachable_of_run initial_init hs)).1 7 _ 1 hcheck
  rw [hlog] at hsplit
  rcases after with _ | ⟨e, _ | ⟨e', after⟩⟩
  · cases hsplit
  · cases hsplit
    exact absurd (hswept 4294970000 (by simp)) (by decide)
  · simp at hsplit

end Beirdobot.Auth
