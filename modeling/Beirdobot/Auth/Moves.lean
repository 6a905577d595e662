import Beirdobot.Auth.Walks
import Beirdobot.Auth.Threads

/-!
# What a step of the threads can do

`ThreadMove` has one case for each way in which the thread of a server can go on,
`QueryMove` one for each query that is executed.  The results on the threads are read
off these and not off `threadStep` and `execute`.
-/

namespace Beirdobot.Auth

open Library

variable {ι σ κ : Type}

/-! ## The records of a thread -/

namespace Stage

/-- The message and the record that a thread goes on to use, once it has found it. -/
def busy : Stage ι κ → Option (Job × ι)
  | .found job x | .verified job x _ | .replying job x true => some (job, x)
  | .checking r _ | .checked r _ _ | .counting r _ | .hashing r _ _ | .storing r _
  | .renewing r _ _ | .reseeding r _ _ _ => some (r.job, r.auth)
  | .idle | .asking _ | .asked _ _ | .replying _ _ false => none

/-- The record that a thread got from `db_get_auth`. -/
def fresh : Stage ι κ → Option ι
  | .asked _ new | .checked _ _ new => new
  | _ => none

end Stage

/-- A key answers the challenge that the columns `otp` pose. -/
def Opie.Fits (o : Opie κ) (otp : Otp) (alg : ℕ) (key : κ) : Prop :=
  algorithmOf otp.digest = some alg ∧ o.atob8 otp.hash = some (o.hash key alg)

/-- The verdicts that let a thread go on to `changed`. -/
def Verdict.Goes : Verdict κ → κ → Mode → Prop
  | .rejected, _, _ => False
  | .password key, key', mode => key = key' ∧ mode = .last
  | .renewal key hex rest, key', mode => key = key' ∧ mode = .renewal hex rest

theorem Verdict.goes_ofKey {o : Option κ} {key : κ} {mode : Mode} :
    (Verdict.ofKey o).Goes key mode ↔ o = some key ∧ mode = .last := by
  cases o <;> simp [Verdict.ofKey, Verdict.Goes]

section Verdicts

variable [DecidableEq κ] (o : Opie κ) {alg : ℕ} {lastkey key : κ} {mode : Mode}

theorem Opie.filter_answers {k : Option κ} (h : k.filter (o.answers alg lastkey) = some key) :
    o.hash key alg = lastkey := by
  simpa [Opie.answers] using (Option.filter_eq_some_iff.mp h).2

theorem Opie.standardKey_hash {text : CString}
    (h : o.standardKey alg lastkey text = some key) : o.hash key alg = lastkey := by
  rcases Option.or_eq_some_iff.mp h with h | ⟨-, h⟩
  · exact o.filter_answers h
  · exact o.filter_answers h

theorem Opie.renewal_hash {hex : Bool} {text : CString}
    (h : (o.renewal alg lastkey hex text).Goes key mode) : o.hash key alg = lastkey := by
  unfold Opie.renewal at h
  split at h
  · exact h.elim
  · split at h
    · exact h.elim
    · rename_i hk
      obtain rfl := h.1
      exact o.filter_answers hk

/-- A response that goes on to `changed` hashes to the last key. -/
theorem verdict_fits {otp : Otp} {msg : Option CString}
    (h : (verdict o otp msg).2.Goes key mode) : o.Fits otp (verdict o otp msg).1 key := by
  unfold verdict at h ⊢
  split at h
  · rename_i response alg lastkey halg hlast
    refine ⟨halg, ?_⟩
    suffices hkey : o.hash key alg = lastkey by rw [hlast, ← hkey]
    dsimp only at h
    split at h
    · exact o.standardKey_hash (Verdict.goes_ofKey.mp h).1
    · split at h
      · exact o.standardKey_hash (Verdict.goes_ofKey.mp h).1
      · exact o.filter_answers (Verdict.goes_ofKey.mp h).1
      · exact o.filter_answers (Verdict.goes_ofKey.mp h).1
      · exact o.renewal_hash h
      · exact o.renewal_hash h
      · exact h.elim
  · exact h.elim

end Verdicts

/-! ## The moves of a thread -/

/-- Where a thread goes without writing anything. -/
inductive Passes : Stage ι κ → Stage ι κ → Prop
  | rejected (job : Job) (x : ι) : Passes (.found job x) (.verified job x false)
  | ignored (job : Job) (x : ι) : Passes (.found job x) .idle
  | unknown (job : Job) : Passes (.asked job none) .idle
  | changed (r : Response ι κ) (mode : Mode) (new : Option ι) :
      Passes (.checked r mode new) (.verified r.job r.auth false)
  | short (r : Response ι κ) (hex : Bool) (rest : CString) :
      Passes (.renewing r hex rest) (.verified r.job r.auth false)
  | replied (job : Job) (x : ι) (ok : Bool) : Passes (.replying job x ok) .idle

/-- What a thread writes to the columns of its record. -/
inductive Rewrites (o : Opie κ) (r : Response ι κ) :
    Stage ι κ → (Otp → Otp) → Stage ι κ → Prop
  | counting (mode : Mode) :
      Rewrites o r (.counting r mode) (fun otp ↦ { otp with count := otp.count - 1 })
        (.hashing r mode r.key)
  | hashing (mode : Mode) (key : κ) :
      Rewrites o r (.hashing r mode key) (fun otp ↦ { otp with hash := o.btoa8 key })
        (.storing r mode)
  | recounted {hex : Bool} {rest c c2 : CString} {count : ℤ} {seed : CString}
      (hc : splitColon rest = (c, some c2))
      (hp : o.parseChallenge c = .parsed count r.alg seed false) :
      Rewrites o r (.renewing r hex rest) (fun otp ↦ { otp with count })
        (.reseeding r hex c2 seed)
  | misparsed {hex : Bool} {rest c c2 : CString} (hc : splitColon rest = (c, some c2))
      (count : ℤ → ℤ) :
      Rewrites o r (.renewing r hex rest) (fun otp ↦ { otp with count := count otp.count })
        (.verified r.job r.auth false)
  | reseeded {hex : Bool} {c2 seed : CString} {key : κ} (hk : o.decode hex c2 = some key) :
      Rewrites o r (.reseeding r hex c2 seed) (fun otp ↦ { otp with seed })
        (.hashing r .last key)
  | misread (hex : Bool) (c2 seed : CString) :
      Rewrites o r (.reseeding r hex c2 seed) (fun otp ↦ { otp with seed })
        (.verified r.job r.auth false)

theorem Passes.busy {stage stage' : Stage ι κ} (h : Passes stage stage') {p : Job × ι}
    (hp : stage'.busy = some p) : stage.busy = some p := by
  cases h with
  | rejected | changed | short => exact hp
  | ignored | unknown | replied => cases hp

theorem Passes.fresh {stage stage' : Stage ι κ} (h : Passes stage stage') :
    stage'.fresh = none := by
  cases h <;> rfl

theorem Passes.ne_replying {stage stage' : Stage ι κ} (h : Passes stage stage') (job : Job) (x : ι)
    (ok : Bool) : stage' ≠ .replying job x ok := by
  cases h <;> rintro ⟨⟩

theorem Rewrites.busy {o : Opie κ} {r : Response ι κ} {f : Otp → Otp} {stage stage' : Stage ι κ}
    (h : Rewrites o r stage f stage') :
    stage.busy = some (r.job, r.auth) ∧ stage'.busy = some (r.job, r.auth) := by
  cases h <;> exact ⟨rfl, rfl⟩

theorem Rewrites.fresh {o : Opie κ} {r : Response ι κ} {f : Otp → Otp} {stage stage' : Stage ι κ}
    (h : Rewrites o r stage f stage') : stage'.fresh = none := by
  cases h <;> rfl

theorem Rewrites.ne_replying {o : Opie κ} {r : Response ι κ} {f : Otp → Otp}
    {stage stage' : Stage ι κ} (h : Rewrites o r stage f stage') (job : Job) (x : ι) (ok : Bool) :
    stage' ≠ .replying job x ok := by
  cases h <;> rintro ⟨⟩

/-- What the answer of `db_get_auth` does to the thread that waits for it. -/
inductive Delivers (auth : Option ι) : Stage ι κ → Stage ι κ → Prop
  | asking (job : Job) : Delivers auth (.asking job) (.asked job auth)
  | checking (r : Response ι κ) (mode : Mode) :
      Delivers auth (.checking r mode) (.checked r mode auth)

theorem Delivers.busy {auth : Option ι} {stage stage' : Stage ι κ} (h : Delivers auth stage stage') :
    stage'.busy = stage.busy := by
  cases h <;> rfl

theorem Delivers.ne_replying {auth : Option ι} {stage stage' : Stage ι κ}
    (h : Delivers auth stage stage') (job : Job) (x : ι) (ok : Bool) :
    stage' ≠ .replying job x ok := by
  cases h <;> rintro ⟨⟩

theorem Delivers.fresh {auth : Option ι} {stage stage' : Stage ι κ}
    (h : Delivers auth stage stage') : stage'.fresh = auth := by
  cases h <;> rfl

/-- What the end of the state machine writes to a record. -/
def settle (job : Job) (ok : Bool) (auth : AuthData σ) : AuthData σ :=
  if ok then { auth with state := .accepted, wakeTime := u32 (job.now + 30 * 60) }
  else { auth with state := .rejected, wakeTime := u32 job.now }

/-- `authenticate_state_machine` with a new record. -/
def pose (server : σ) (job : Job) (auth : AuthData σ) : AuthData σ :=
  { auth with server, state := .challenge, wakeTime := u32 (job.now + 30) }

/-- Logging off. -/
def logOff (job : Job) (auth : AuthData σ) : AuthData σ :=
  { auth with state := .disconnect, wakeTime := u32 (job.now + 5) }

@[simp] theorem settle_otp (job : Job) (ok : Bool) (auth : AuthData σ) :
    (settle job ok auth).otp = auth.otp := by
  cases ok <;> rfl

@[simp] theorem pose_otp (server : σ) (job : Job) (auth : AuthData σ) :
    (pose server job auth).otp = auth.otp := rfl

@[simp] theorem logOff_otp (job : Job) (auth : AuthData σ) : (logOff job auth).otp = auth.otp := rfl

section Moves

variable [DecidableEq ι] [DecidableEq σ] [DecidableEq κ] (out : Outside κ)

/-- The ways in which the thread of a server goes on. -/
inductive ThreadMove (s : Threads ι σ κ) (server : σ) : Threads ι σ κ → Prop
  | pass {stage : Stage ι κ} (h : Passes (s.stage server) stage) :
      ThreadMove s server (s.goto server stage)
  | ask {job : Job} {x : ι} {mode : Mode} {alg : ℕ} {key : κ}
      (h : s.stage server = .found job x) (hc : (s.mem x).state = .challenge)
      (halg : (verdict out.opie (s.mem x).otp job.msg).1 = alg)
      (hv : (verdict out.opie (s.mem x).otp job.msg).2.Goes key mode) :
      ThreadMove s server ((s.enqueue (.get server job.nick)).goto server
        (.checking ⟨job, x, alg, key, (s.mem x).otp⟩ mode))
  | logoff {job : Job} {x : ι} (h : s.stage server = .found job x)
      (ha : (s.mem x).state = .accepted) :
      ThreadMove s server ((s.write x (logOff job)).goto server .idle)
  | add {job : Job} {x : ι} (h : s.stage server = .asked job (some x)) (hs : s.sweep = none) :
      ThreadMove s server
        ({ s.write x (pose server job) with list := x :: s.list }.goto server .idle)
  | agree {r : Response ι κ} {mode : Mode} {new : ι}
      (h : s.stage server = .checked r mode (some new))
      (hu : unchanged (s.mem new).otp (s.mem r.auth).otp = true) :
      ThreadMove s server ((s.free new).goto server (.counting r mode))
  | rewrite {r : Response ι κ} {f : Otp → Otp} {stage : Stage ι κ}
      (h : Rewrites out.opie r (s.stage server) f stage) :
      ThreadMove s server ((s.writeOtp r.auth f).goto server stage)
  | store {r : Response ι κ} (h : s.stage server = .storing r .last) :
      ThreadMove s server
        ({ s.enqueue (.set r.job.nick r.auth ⟨r, (s.mem r.auth).otp⟩) with
          accepted := s.accepted ++ [(r.job.nick, r.key)] }.goto server
          (.verified r.job r.auth true))
  | storeFirst {r : Response ι κ} {hex : Bool} {rest : CString}
      (h : s.stage server = .storing r (.renewal hex rest)) :
      ThreadMove s server
        ((s.enqueue (.set r.job.nick r.auth ⟨r, (s.mem r.auth).otp⟩)).goto server
          (.renewing r hex rest))
  | settle {job : Job} {x : ι} {ok : Bool} (h : s.stage server = .verified job x ok) :
      ThreadMove s server ((s.write x (settle job ok)).goto server (.replying job x ok))

variable {out} {s s' : Threads ι σ κ} {server : σ}

theorem dispatch_move {job : Job} {x : ι} (h : s.stage server = .found job x)
    (he : dispatch out s server job x = some s') : ThreadMove out s server s' := by
  have pass {stage : Stage ι κ} (hp : Passes (.found job x) stage)
      (he : some (s.goto server stage) = some s') : ThreadMove out s server s' := by
    cases he
    exact .pass (by rw [h]; exact hp)
  unfold dispatch at he
  split at he
  · rename_i hc
    split at he
    · exact pass (.rejected _ _) he
    · rename_i alg key hv
      cases he
      exact .ask h hc (by rw [hv]) (by rw [hv]; exact ⟨rfl, rfl⟩)
    · rename_i alg key hex rest hv
      cases he
      exact .ask h hc (by rw [hv]) (by rw [hv]; exact ⟨rfl, rfl⟩)
  · rename_i ha
    obtain ⟨msg, hm, he⟩ := Option.bind_eq_some_iff.mp he
    dsimp only at he
    split at he
    · cases he
      exact .logoff h ha
    · exact pass (.ignored _ _) he
  · exact pass (.ignored _ _) he

theorem threadStep_move (he : threadStep out s server = some s') : ThreadMove out s server s' := by
  have pass {stage stage' : Stage ι κ} (h : s.stage server = stage) (hp : Passes stage stage')
      (he : some (s.goto server stage') = some s') : ThreadMove out s server s' := by
    cases he
    exact .pass (by rw [h]; exact hp)
  have rewrite {r : Response ι κ} {f : Otp → Otp} {stage stage' : Stage ι κ}
      (h : s.stage server = stage) (hr : Rewrites out.opie r stage f stage')
      (he : some ((s.writeOtp r.auth f).goto server stage') = some s') :
      ThreadMove out s server s' := by
    cases he
    exact .rewrite (by rw [h]; exact hr)
  unfold threadStep at he
  split at he
  case h_1 | h_2 | h_3 => cases he
  case h_4 h => exact dispatch_move h he
  case h_5 h => exact pass h (.unknown _) he
  case h_6 h =>
    split at he
    · cases he
    · rename_i hs
      cases he
      exact .add h (by simpa using hs)
  case h_7 h => exact pass h (.changed _ _ _) he
  case h_8 h =>
    split at he
    · rename_i hu
      cases he
      exact .agree h hu
    · exact pass h (.changed _ _ _) he
  case h_9 h => exact rewrite h (.counting _) he
  case h_10 h => exact rewrite h (.hashing _ _) he
  case h_11 r mode h =>
    cases mode with
    | last => cases he; exact .store h
    | renewal hex rest => cases he; exact .storeFirst h
  case h_12 r hex rest h =>
    split at he
    · exact pass h (.short _ _ _) he
    · rename_i c c2 hc
      split at he
      · exact rewrite h (.misparsed hc _) he
      · rename_i count alg seed exts hp
        dsimp only at he
        split at he
        · exact rewrite h (.misparsed hc fun _ ↦ count) he
        · rename_i hg
          simp only [Bool.or_eq_true, bne_iff_ne, ne_eq, not_or, not_not,
            Bool.not_eq_true] at hg
          obtain ⟨rfl, rfl⟩ := hg
          exact rewrite h (.recounted hc hp) he
  case h_13 r hex c2 seed h =>
    dsimp only at he
    split at he
    · exact rewrite h (.misread _ _ _) he
    · rename_i key hk
      exact rewrite h (.reseeded hk) he
  case h_14 h => cases he; exact .settle h
  case h_15 h => exact pass h (.replied _ _ _) he

/-! ## The moves of the query thread -/

/-- The record that `result_get_auth` makes of a row. -/
def AuthData.ofRow (server : σ) (row : CString × Otp) : AuthData σ :=
  { server, nick := row.1, otp := row.2, state := .none, wakeTime := 0 }

variable (out) in
/-- The ways in which the next query is executed. -/
inductive QueryMove (s : Threads ι σ κ) (malloc : ι) : Threads ι σ κ → Prop
  | noRow {server : σ} {nick : CString} {queue : List (Query ι σ κ)} {stage : Stage ι κ}
      (hq : s.queue = .get server nick :: queue)
      (hrow : s.userauth (out.collate nick) = none)
      (h : Delivers none (s.stage server) stage) :
      QueryMove s malloc ({ s with queue }.goto server stage)
  | row {server : σ} {nick : CString} {queue : List (Query ι σ κ)} {stage : Stage ι κ}
      {row : CString × Otp} (hq : s.queue = .get server nick :: queue)
      (hrow : s.userauth (out.collate nick) = some row) (hm : s.live malloc = false)
      (h : Delivers (some malloc) (s.stage server) stage) :
      QueryMove s malloc ({ s with
        queue
        mem := Function.update s.mem malloc (.ofRow server row)
        live := Function.update s.live malloc true }.goto server stage)
  | chainUpdate {nick : CString} {x : ι} {call : Call ι κ} {queue : List (Query ι σ κ)}
      (hq : s.queue = .set nick x call :: queue)
      (hrow : (s.userauth (out.collate nick)).isSome) :
      QueryMove s malloc ({ s with queue }.enqueue (.update nick (s.mem x).otp call))
  | chainInsert {nick : CString} {x : ι} {call : Call ι κ} {queue : List (Query ι σ κ)}
      (hq : s.queue = .set nick x call :: queue)
      (hrow : s.userauth (out.collate nick) = none) :
      QueryMove s malloc ({ s with queue }.enqueue (.insert nick (s.mem x).otp call))
  | update {nick : CString} {otp : Otp} {call : Call ι κ} {queue : List (Query ι σ κ)}
      (hq : s.queue = .update nick otp call :: queue) :
      QueryMove s malloc { s with
        queue
        userauth := Function.update s.userauth (out.collate nick)
          ((s.userauth (out.collate nick)).map fun row ↦ (row.1, otp))
        stored := s.stored ++ [⟨nick, otp, call⟩] }
  | insert {nick : CString} {otp : Otp} {call : Call ι κ} {queue : List (Query ι σ κ)}
      (hq : s.queue = .insert nick otp call :: queue) :
      QueryMove s malloc { s with
        queue
        userauth := Function.update s.userauth (out.collate nick)
          (some ((s.userauth (out.collate nick)).getD (nick, otp)))
        stored := s.stored ++ [⟨nick, otp, call⟩] }

omit [DecidableEq κ] in
theorem execute_move {malloc : ι} (he : execute out s malloc = some s') :
    QueryMove out s malloc s' := by
  unfold execute at he
  split at he
  · cases he
  rename_i query queue hq
  cases query with
  | get server nick =>
      simp only [resultGetAuth] at he
      split at he
      · rename_i hrow
        split at he
        · rename_i job hs
          cases he
          exact .noRow hq hrow (by rw [hs]; exact .asking job)
        · rename_i r mode hs
          cases he
          exact .noRow hq hrow (by rw [hs]; exact .checking r mode)
        · cases he
      · rename_i username otp hrow
        split at he
        · cases he
        · rename_i hm
          split at he
          · rename_i job hs
            cases he
            exact .row hq hrow (by simpa using hm) (by rw [hs]; exact .asking job)
          · rename_i r mode hs
            cases he
            exact .row hq hrow (by simpa using hm) (by rw [hs]; exact .checking r mode)
          · cases he
  | set nick x call =>
      dsimp only at he
      split at he
      · rename_i row hrow
        cases he
        exact .chainUpdate hq (by rw [hrow]; rfl)
      · rename_i hrow
        cases he
        exact .chainInsert hq hrow
  | update nick otp call => cases he; exact .update hq
  | insert nick otp call => cases he; exact .insert hq

end Moves

/-! ## The moves of the sweep -/

/-- The end of a record's time. -/
def expire (auth : AuthData σ) : AuthData σ := { auth with state := .timedout }

@[simp] theorem expire_otp (auth : AuthData σ) : (expire auth).otp = auth.otp := rfl

section Sweeps

variable [DecidableEq ι] {s s' : Threads ι σ κ}

/-- The ways in which a pass begins, looks at a time, and ends. -/
inductive SweepMove (s : Threads ι σ κ) : Threads ι σ κ → Prop
  | start (now : ℕ) (h : s.sweep = none) :
      SweepMove s { s with sweep := some ⟨now, s.list, false⟩ }
  | expire {now : ℕ} {x : ι} {rest : List ι} (h : s.sweep = some ⟨now, x :: rest, false⟩) :
      SweepMove s { s.write x expire with sweep := some ⟨now, x :: rest, true⟩ }
  | inTime {now : ℕ} {x : ι} {rest : List ι} (h : s.sweep = some ⟨now, x :: rest, false⟩) :
      SweepMove s { s with sweep := some ⟨now, x :: rest, true⟩ }
  | finish {now : ℕ} {marked : Bool} (h : s.sweep = some ⟨now, [], marked⟩) :
      SweepMove s { s with sweep := none }

/-- The ways in which a pass looks at a state. -/
inductive ReapMove (s : Threads ι σ κ) : Threads ι σ κ → Prop
  | reap {now : ℕ} {x : ι} {rest : List ι} (h : s.sweep = some ⟨now, x :: rest, true⟩)
      (he : (s.mem x).state.Ended) :
      ReapMove s
        { { s with list := s.list.erase x }.free x with sweep := some ⟨now, rest, false⟩ }
  | keep {now : ℕ} {x : ι} {rest : List ι} (h : s.sweep = some ⟨now, x :: rest, true⟩) :
      ReapMove s { s with sweep := some ⟨now, rest, false⟩ }

theorem sweepBegin_move {now : ℕ} (he : sweepBegin s now = some s') :
    SweepMove s s' := by
  unfold sweepBegin at he
  split at he
  · rename_i h
    cases he
    exact .start now h
  · cases he

theorem sweepMark_move (he : sweepMark s = some s') : SweepMove s s' := by
  unfold sweepMark at he
  split at he
  · rename_i now x rest h
    cases he
    by_cases ht : (s.mem x).wakeTime ≠ 0 ∧ (s.mem x).wakeTime ≤ now ∧ (s.mem x).state ≠ .rejected
    · simp only [Threads.write, if_pos ht]
      exact .expire h
    · simp only [Threads.write, if_neg ht, Function.update_eq_self]
      exact .inTime h
  · cases he

theorem sweepReap_move (he : sweepReap s = some s') : ReapMove s s' := by
  unfold sweepReap at he
  split at he
  · rename_i now x rest h
    cases he
    by_cases hx : (s.mem x).state = .rejected ∨ (s.mem x).state = .timedout ∨
        (s.mem x).state = .disconnect
    · rw [if_pos hx]
      exact .reap h hx
    · rw [if_neg hx]
      exact .keep h
  · cases he

theorem sweepEnd_move (he : sweepEnd s = some s') : SweepMove s s' := by
  unfold sweepEnd at he
  split at he
  · rename_i now marked h
    cases he
    exact .finish h
  · cases he

end Sweeps

/-! ## The beginning of a message -/

section Messages

variable [DecidableEq σ] {s s' : Threads ι σ κ} {server : σ} {job : Job}

/-- The ways in which a message begins. -/
inductive MessageMove (s : Threads ι σ κ) (server : σ) (job : Job) : Threads ι σ κ → Prop
  | found {x : ι} (h : s.stage server = .idle) (hs : s.sweep = none)
      (hx : s.lookup server job.nick = some x) :
      MessageMove s server job (s.goto server (.found job x))
  | ask (h : s.stage server = .idle) (hx : s.lookup server job.nick = none) :
      MessageMove s server job
        ((s.enqueue (.get server job.nick)).goto server (.asking job))

theorem message_move (he : message s server job = some s') : MessageMove s server job s' := by
  unfold message at he
  split at he
  · rename_i h hs
    split at he
    · rename_i x hx
      cases he
      exact .found h hs hx
    · rename_i hx
      cases he
      exact .ask h hx
  · cases he

end Messages

end Beirdobot.Auth
