import Beirdobot.Auth.Listed

/-!
# What `db_set_auth` stores

`db_set_auth` queues a pointer to the record, and `chain_set_auth` reads it later.  As
long as no thread writes to a record that a queued query will read, and the sweep removes
neither such a record nor one in use, what is stored is what the record held at the call,
and that is one challenge.
-/

namespace Beirdobot.Auth

open Library

variable {ι σ κ : Type}

/-! ## One challenge -/

section Challenges

variable [DecidableEq κ] (o : Opie κ)

/-- The response `r` of a job got past the comparison with the last key. -/
def Response.Poses (r : Response ι κ) (mode : Mode) : Prop :=
  (verdict o r.old r.job.msg).1 = r.alg ∧ (verdict o r.old r.job.msg).2.Goes r.key mode

/-- An init response asks for the challenge `count`, `seed`, and `c2` is the text of its
new key. -/
def Response.Renews (r : Response ι κ) (hex : Bool) (c2 : CString) (count : ℤ)
    (seed : CString) : Prop :=
  ∃ rest c, r.Poses o (.renewal hex rest) ∧ splitColon rest = (c, some c2) ∧
    o.parseChallenge c = .parsed count r.alg seed false

/-- The columns after a response: the next of the challenge, or the challenge that an init
response asks for. -/
def Call.Whole (call : Call ι κ) : Prop :=
  call.otp =
      { call.response.old with
        count := call.response.old.count - 1
        hash := o.btoa8 call.response.key } ∨
    ∃ hex c2 count seed key, call.response.Renews o hex c2 count seed ∧
      o.decode hex c2 = some key ∧
      call.otp = ⟨call.response.old.digest, seed, count, o.btoa8 key⟩

/-- What the columns of its record are while a thread verifies a response. -/
def Stage.Kept (otp : Otp) : Stage ι κ → Prop
  | .checking r mode | .checked r mode _ | .counting r mode => otp = r.old ∧ r.Poses o mode
  | .hashing r mode key =>
      (otp = { r.old with count := r.old.count - 1 } ∧ key = r.key ∧ r.Poses o mode) ∨
        mode = .last ∧ ∃ hex c2, r.Renews o hex c2 otp.count otp.seed ∧
          o.decode hex c2 = some key ∧ otp.digest = r.old.digest
  | .storing r mode => Call.Whole o ⟨r, otp⟩ ∧ (mode ≠ .last → r.Poses o mode) ∧
      otp.digest = r.old.digest
  | .renewing r hex rest => r.Poses o (.renewal hex rest) ∧ otp.digest = r.old.digest
  | .reseeding r hex c2 seed =>
      r.Renews o hex c2 otp.count seed ∧ otp.digest = r.old.digest
  | _ => True

variable {o}

theorem Rewrites.kept {r : Response ι κ} {f : Otp → Otp} {stage stage' : Stage ι κ} {otp : Otp}
    (h : Rewrites o r stage f stage') (hk : stage.Kept o otp) : stage'.Kept o (f otp) := by
  cases h with
  | counting mode =>
      obtain ⟨rfl, hp⟩ := hk
      exact .inl ⟨rfl, rfl, hp⟩
  | hashing mode key =>
      rcases hk with ⟨rfl, rfl, hp⟩ | ⟨rfl, hex, c2, hr, hkey, hd⟩
      · exact ⟨.inl rfl, fun _ ↦ hp, rfl⟩
      · refine ⟨.inr ⟨hex, c2, otp.count, otp.seed, key, hr, hkey, ?_⟩, fun h ↦ absurd rfl h, hd⟩
        rw [← hd]
  | recounted hc hp => exact ⟨⟨_, _, hk.1, hc, hp⟩, hk.2⟩
  | reseeded hk' => exact .inr ⟨rfl, _, _, hk.1, hk', hk.2⟩
  | misparsed | misread => trivial

theorem Passes.kept {stage stage' : Stage ι κ} {otp : Otp} (h : Passes stage stage') :
    stage'.Kept o otp := by
  cases h <;> trivial

theorem Delivers.kept {auth : Option ι} {stage stage' : Stage ι κ} {otp : Otp}
    (h : Delivers auth stage stage') (hk : stage.Kept o otp) : stage'.Kept o otp := by
  cases h with
  | asking job => trivial
  | checking r mode => exact hk

end Challenges

/-! ## The columns of the records in use -/

section Columns

variable [DecidableEq ι] [DecidableEq σ] [DecidableEq κ] {out : Outside κ}
  {s s' : Threads ι σ κ} {server : σ}

omit [DecidableEq σ] [DecidableEq κ] in
/-- A write that leaves the columns as they are. -/
theorem Threads.write_otp {x : ι} {f : AuthData σ → AuthData σ}
    (hf : (f (s.mem x)).otp = (s.mem x).otp) (y : ι) :
    ((s.write x f).mem y).otp = (s.mem y).otp := by
  by_cases hy : y = x
  · subst hy
    rw [Threads.write_mem, Function.update_self, hf]
  · rw [Threads.write_mem, Function.update_of_ne hy]

/-- The columns of every record in use are what they are at its stage. -/
def Keeps (o : Opie κ) (s : Threads ι σ κ) : Prop :=
  ∀ server job x, (s.stage server).busy = some (job, x) →
    (s.stage server).Kept o (s.mem x).otp

omit [DecidableEq ι] [DecidableEq σ] in
theorem Keeps.of_otp {o : Opie κ} (h : Keeps o s) (hstage : s'.stage = s.stage)
    (hotp : ∀ server job x, (s.stage server).busy = some (job, x) →
      (s'.mem x).otp = (s.mem x).otp) : Keeps o s' := by
  intro server job x hx
  rw [hstage] at hx ⊢
  rw [hotp server job x hx]
  exact h server job x hx

omit [DecidableEq ι] in
theorem Keeps.goto {o : Opie κ} {stage : Stage ι κ} (h : Keeps o s)
    (hk : ∀ job x, stage.busy = some (job, x) → stage.Kept o (s.mem x).otp) :
    Keeps o (s.goto server stage) := by
  intro t job x hx
  by_cases hts : t = server
  · subst hts
    rw [Threads.goto_stage, Function.update_self] at hx ⊢
    exact hk job x hx
  · rw [Threads.goto_stage, Function.update_of_ne hts] at hx ⊢
    exact h t job x hx

theorem Keeps.rewrite {o : Opie κ} {r : Response ι κ} {f : Otp → Otp} {stage : Stage ι κ}
    (h : Keeps o s) (hl : Listed s) (hr : Rewrites o r (s.stage server) f stage) :
    Keeps o ((s.writeOtp r.auth f).goto server stage) := by
  intro t job x hx
  by_cases hts : t = server
  · subst hts
    rw [Threads.goto_stage, Function.update_self] at hx ⊢
    rw [hr.busy.2] at hx
    cases hx
    have hk := hr.kept (h t _ _ hr.busy.1)
    simpa using hk
  · rw [Threads.goto_stage, Function.update_of_ne hts] at hx ⊢
    have hne : x ≠ r.auth := by
      rintro rfl
      exact hts (hl.busy_unique hx hr.busy.1)
    simpa [Function.update_of_ne hne] using h t job x hx

theorem Keeps.thread (h : Keeps out.opie s) (hl : Listed s) (hm : ThreadMove out s server s') :
    Keeps out.opie s' := by
  have write {x : ι} {f : AuthData σ → AuthData σ} (hf : (f (s.mem x)).otp = (s.mem x).otp) :
      Keeps out.opie (s.write x f) :=
    h.of_otp rfl fun _ _ y _ ↦ Threads.write_otp hf y
  have own {stage : Stage ι κ} (hs : s.stage server = stage) {job : Job} {x : ι}
      (hb : stage.busy = some (job, x)) : stage.Kept out.opie (s.mem x).otp := by
    have hk := h server job x (by rw [hs]; exact hb)
    rwa [hs] at hk
  cases hm with
  | pass hp => exact h.goto fun _ _ _ ↦ hp.kept
  | ask hs hc halg hv =>
      refine Keeps.goto h ?_
      rintro job x ⟨⟩
      exact ⟨rfl, halg, hv⟩
  | logoff hs ha => exact (write (logOff_otp _ _)).goto fun _ _ _ ↦ trivial
  | add hs hsweep => exact Keeps.goto (write (pose_otp _ _ _)) fun _ _ _ ↦ trivial
  | agree hs hu =>
      refine Keeps.goto h ?_
      rintro job x ⟨⟩
      exact own hs rfl
  | rewrite hr => exact h.rewrite hl hr
  | store hs => exact Keeps.goto h fun _ _ _ ↦ trivial
  | storeFirst hs =>
      refine Keeps.goto h ?_
      rintro job x ⟨⟩
      obtain ⟨-, hp, hd⟩ := own hs rfl
      exact ⟨hp (by rintro ⟨⟩), hd⟩
  | settle hs =>
      refine (write (settle_otp _ _ _)).goto fun job x _ ↦ ?_
      trivial

theorem Keeps.query {malloc : ι} (h : Keeps out.opie s) (hl : Listed s)
    (hm : QueryMove out s malloc s') : Keeps out.opie s' := by
  cases hm with
  | noRow hq hrow hd =>
      refine Keeps.goto h fun job x hx ↦ hd.kept (h _ job x ?_)
      rwa [hd.busy] at hx
  | row hq hrow hlive hd =>
      rename_i server nick queue stage row
      have hne {t : σ} {job : Job} {x : ι} (hx : (s.stage t).busy = some (job, x)) :
          x ≠ malloc := by
        rintro rfl
        rw [hl.live x (hl.busy_mem hx)] at hlive
        cases hlive
      have h' : Keeps out.opie { s with
          queue
          mem := Function.update s.mem malloc (.ofRow server row)
          live := Function.update s.live malloc true } :=
        h.of_otp rfl fun t job x hx ↦ by simp [Function.update_of_ne (hne hx)]
      refine h'.goto fun job x hx ↦ ?_
      rw [hd.busy] at hx
      exact hd.kept (h' server job x hx)
  | chainUpdate | chainInsert | update | insert => exact h

omit [DecidableEq σ] in
theorem Keeps.sweep {o : Opie κ} (h : Keeps o s) (hm : SweepMove s s') : Keeps o s' := by
  cases hm with
  | expire hs => exact h.of_otp rfl fun _ _ y _ ↦ Threads.write_otp (expire_otp _) y
  | start | inTime | finish => exact h

theorem Keeps.step {e : Step ι σ} (h : Keeps out.opie s) (hl : Listed s)
    (he : (threads ι σ κ out).step s e = some s') : Keeps out.opie s' := by
  cases e with
  | message server job =>
      cases message_move he with
      | found | ask => exact Keeps.goto h fun _ _ _ ↦ trivial
  | thread server => exact h.thread hl (threadStep_move he)
  | execute malloc => exact h.query hl (execute_move he)
  | sweepBegin now => exact h.sweep (sweepBegin_move he)
  | sweepMark => exact h.sweep (sweepMark_move he)
  | sweepReap =>
      cases sweepReap_move he with
      | reap | keep => exact h
  | sweepEnd => exact h.sweep (sweepEnd_move he)

end Columns

/-! ## The queries -/

section Queries

variable [DecidableEq ι] [DecidableEq σ] [DecidableEq κ] {out : Outside κ}
  {s s' : Threads ι σ κ} {server : σ} {x : ι}

/-- A queued query will read the columns of a record. -/
def Threads.Pending (s : Threads ι σ κ) (x : ι) : Prop := ∃ nick call, .set nick x call ∈ s.queue

/-- What a query will store is what was asked for. -/
def Query.Sound (o : Opie κ) (s : Threads ι σ κ) : Query ι σ κ → Prop
  | .get _ _ => True
  | .set _ x call => call.Whole o ∧ (s.mem x).otp = call.otp
  | .update _ otp call | .insert _ otp call => call.Whole o ∧ otp = call.otp

/-- A record that is allocated and that no thread was given. -/
def Threads.Owned (s : Threads ι σ κ) (x : ι) : Prop :=
  s.live x = true ∧ ∀ server, (s.stage server).fresh ≠ some x

/-- Everything stored is what was asked for, and everything queued will be. -/
structure Stores (o : Opie κ) (s : Threads ι σ κ) : Prop where
  owned : ∀ x, s.Pending x → s.Owned x
  sound : ∀ query ∈ s.queue, query.Sound o s
  stored : ∀ e ∈ s.stored, e.call.Whole o ∧ e.otp = e.call.otp

/-- What is done to the records that queued queries will read: nothing. -/
structure LeavesPending (s s' : Threads ι σ κ) : Prop where
  owned : ∀ x, s.Pending x → s.Owned x → s'.Owned x
  otp : ∀ x, s.Pending x → (s'.mem x).otp = (s.mem x).otp

omit [DecidableEq ι] [DecidableEq σ] in
theorem Query.Sound.leaves {o : Opie κ} {query : Query ι σ κ} (h : query.Sound o s)
    (hq : query ∈ s.queue) (hl : LeavesPending s s') : query.Sound o s' := by
  cases query with
  | get => trivial
  | set nick x call => exact ⟨h.1, (hl.otp x ⟨nick, call, hq⟩).trans h.2⟩
  | update | insert => exact h

omit [DecidableEq ι] [DecidableEq σ] in
/-- Nothing is queued that needs a record, and nothing is stored. -/
theorem Stores.leaves {o : Opie κ} (h : Stores o s) (hl : LeavesPending s s')
    (hq : ∀ query ∈ s'.queue, query ∈ s.queue ∨ ∃ server nick, query = .get server nick)
    (hstored : s'.stored = s.stored) : Stores o s' := by
  have back {nick : CString} {x : ι} {call : Call ι κ} (hx : .set nick x call ∈ s'.queue) :
      .set nick x call ∈ s.queue := by
    rcases hq _ hx with hx | ⟨_, _, ⟨⟩⟩
    exact hx
  refine ⟨?_, ?_, ?_⟩
  · rintro x ⟨nick, call, hx⟩
    exact hl.owned x ⟨nick, call, back hx⟩ (h.owned x ⟨nick, call, back hx⟩)
  · intro query hquery
    rcases hq query hquery with hold | ⟨server, nick, rfl⟩
    · exact (h.sound query hold).leaves hold hl
    · trivial
  · rw [hstored]
    exact h.stored

omit [DecidableEq ι] [DecidableEq κ] in
/-- A thread goes on with what it was given. -/
theorem Threads.Owned.goto {stage : Stage ι κ} (h : s.Owned x)
    (hf : stage.fresh = none ∨ stage.fresh = (s.stage server).fresh) :
    (s.goto server stage).Owned x := by
  refine ⟨h.1, fun t ↦ ?_⟩
  by_cases hts : t = server
  · subst hts
    rw [goto_stage, Function.update_self]
    rcases hf with hf | hf
    · rw [hf]
      rintro ⟨⟩
    · rw [hf]
      exact h.2 t
  · rw [goto_stage, Function.update_of_ne hts]
    exact h.2 t

omit [DecidableEq ι] [DecidableEq σ] in
/-- A query is queued that stores what was asked for. -/
theorem Stores.enqueue {o : Opie κ} {query : Query ι σ κ} (h : Stores o s) (hq : query.Sound o s)
    (howned : ∀ nick x call, query = .set nick x call → s.Owned x) : Stores o (s.enqueue query) := by
  refine ⟨?_, ?_, h.stored⟩
  · rintro x ⟨nick, call, hx⟩
    rcases List.mem_append.mp hx with hx | hx
    · exact h.owned x ⟨nick, call, hx⟩
    · exact howned nick x call (List.mem_singleton.mp hx).symm
  · intro query' hx
    rcases List.mem_append.mp hx with hx | hx
    · exact (h.sound query' hx).leaves hx ⟨fun _ _ hx ↦ hx, fun _ _ ↦ rfl⟩
    · rw [List.mem_singleton.mp hx]
      cases query <;> exact hq

omit [DecidableEq ι] [DecidableEq κ] in
theorem LeavesPending.goto {stage : Stage ι κ}
    (hf : stage.fresh = none ∨ stage.fresh = (s.stage server).fresh) :
    LeavesPending s (s.goto server stage) :=
  ⟨fun _ _ ho ↦ ho.goto hf, fun _ _ ↦ rfl⟩

omit [DecidableEq κ] in
theorem LeavesPending.write_goto {f : AuthData σ → AuthData σ} {stage : Stage ι κ}
    (hw : (f (s.mem x)).otp = (s.mem x).otp ∨ ¬ s.Pending x)
    (hf : stage.fresh = none) : LeavesPending s ((s.write x f).goto server stage) := by
  refine ⟨fun _ _ ho ↦ Threads.Owned.goto (s := s.write x f) ho (.inl hf), fun y hy ↦ ?_⟩
  rcases hw with hw | hw
  · exact Threads.write_otp hw y
  · have hne : y ≠ x := by
      rintro rfl
      exact hw hy
    simp [Function.update_of_ne hne]

/-- The record whose columns a thread is about to write. -/
def Stage.writing : Stage ι κ → Option ι
  | .counting r _ | .hashing r _ _ | .reseeding r _ _ _ => some r.auth
  | .renewing r _ rest => if (splitColon rest).2.isSome then some r.auth else none
  | _ => none

omit [DecidableEq ι] [DecidableEq κ] in
theorem Rewrites.writing {o : Opie κ} {r : Response ι κ} {f : Otp → Otp} {stage stage' : Stage ι κ}
    (h : Rewrites o r stage f stage') : stage.writing = some r.auth := by
  cases h with
  | counting | hashing | reseeded | misread => rfl
  | recounted hc | misparsed hc => simp [Stage.writing, hc]

/-- A thread does not write to the columns of a record that a queued query will read, and the
sweep does not remove such a record or one that a thread uses. -/
def Undisturbed (s : Threads ι σ κ) : Step ι σ → Prop
  | .thread server => ∀ x, (s.stage server).writing = some x → ¬ s.Pending x
  | .sweepReap => ∀ now x rest, s.sweep = some ⟨now, x :: rest, true⟩ → (s.mem x).state.Ended →
      ¬ s.Pending x ∧ ∀ server job, (s.stage server).busy ≠ some (job, x)
  | _ => True

omit [DecidableEq ι] [DecidableEq σ] [DecidableEq κ] in
theorem Undisturbed.spares {e : Step ι σ} (h : Undisturbed s e) : Spares s e := by
  cases e with
  | sweepReap => exact fun now x rest hs he ↦ (h now x rest hs he).2
  | message | thread | execute | sweepBegin | sweepMark | sweepEnd => trivial

omit [DecidableEq ι] [DecidableEq κ] in
/-- The record that a thread uses is allocated, and no thread was given it. -/
theorem Listed.owned {job : Job} (h : Listed s) (hb : (s.stage server).busy = some (job, x)) :
    s.Owned x :=
  ⟨h.live x (h.busy_mem hb), fun _ ↦ h.busy_ne_fresh hb⟩

theorem Stores.thread (h : Stores out.opie s) (hl : Listed s) (hk : Keeps out.opie s)
    (hc : ∀ x, (s.stage server).writing = some x → ¬ s.Pending x)
    (hm : ThreadMove out s server s') : Stores out.opie s' := by
  have store {r : Response ι κ} {mode : Mode} (hs : s.stage server = .storing r mode) :
      Stores out.opie (s.enqueue (.set r.job.nick r.auth ⟨r, (s.mem r.auth).otp⟩)) := by
    have hb : (s.stage server).busy = some (r.job, r.auth) := by rw [hs]; rfl
    have hkept := hk server _ _ hb
    rw [hs] at hkept
    refine h.enqueue ⟨hkept.1, rfl⟩ ?_
    rintro nick x call ⟨⟩
    exact hl.owned hb
  cases hm with
  | pass hp => exact h.leaves (.goto (.inl hp.fresh)) (fun _ hq ↦ .inl hq) rfl
  | ask hs hc halg hv =>
      refine Stores.leaves (h.enqueue ?_ ?_) (.goto (.inl rfl)) (fun _ hq ↦ .inl hq) rfl
      · trivial
      · rintro _ _ _ ⟨⟩
  | logoff hs ha =>
      exact h.leaves (.write_goto (.inl (logOff_otp _ _)) rfl) (fun _ hq ↦ .inl hq) rfl
  | add hs hsweep =>
      rename_i job x
      have hw : LeavesPending s ((s.write x (pose server job)).goto server .idle) :=
        .write_goto (.inl (pose_otp _ _ _)) rfl
      exact h.leaves ⟨hw.owned, hw.otp⟩ (fun _ hq ↦ .inl hq) rfl
  | agree hs hu =>
      rename_i r mode new
      refine h.leaves ⟨fun x _ ho ↦ ?_, fun _ _ ↦ rfl⟩ (fun _ hq ↦ .inl hq) rfl
      have hne : x ≠ new := by
        rintro rfl
        exact ho.2 server (by rw [hs]; rfl)
      refine Threads.Owned.goto ⟨?_, ho.2⟩ (.inl rfl)
      simpa [Function.update_of_ne hne] using ho.1
  | rewrite hr =>
      exact h.leaves (.write_goto (.inr (hc _ hr.writing)) hr.fresh) (fun _ hq ↦ .inl hq) rfl
  | store hs =>
      rename_i r
      have hg {s : Threads ι σ κ} :
          LeavesPending s (s.goto server (.verified r.job r.auth true)) := .goto (.inl rfl)
      exact (store hs).leaves ⟨hg.owned, hg.otp⟩ (fun _ hq ↦ .inl hq) rfl
  | storeFirst hs =>
      exact (store hs).leaves (.goto (.inl rfl)) (fun _ hq ↦ .inl hq) rfl
  | settle hs =>
      exact h.leaves (.write_goto (.inl (settle_otp _ _ _)) rfl) (fun _ hq ↦ .inl hq) rfl

omit [DecidableEq ι] [DecidableEq σ] in
/-- The query thread takes the next query. -/
theorem Stores.take {o : Opie κ} {query : Query ι σ κ} {queue : List (Query ι σ κ)}
    (h : Stores o s) (hq : s.queue = query :: queue) : Stores o { s with queue } := by
  have hmem {q : Query ι σ κ} (h : q ∈ queue) : q ∈ s.queue := by
    rw [hq]
    exact List.mem_cons_of_mem _ h
  exact h.leaves ⟨fun _ _ ho ↦ ho, fun _ _ ↦ rfl⟩ (fun _ h ↦ .inl (hmem h)) rfl

omit [DecidableEq ι] [DecidableEq σ] in
theorem Stores.store {o : Opie κ} {userauth : CString → Option (CString × Otp)}
    {e : Stored ι κ} (h : Stores o s) (he : e.call.Whole o ∧ e.otp = e.call.otp) :
    Stores o { s with userauth, stored := s.stored ++ [e] } := by
  refine ⟨h.owned, h.sound, fun e' he' ↦ ?_⟩
  rcases List.mem_append.mp he' with he' | he'
  · exact h.stored e' he'
  · rw [List.mem_singleton.mp he']
    exact he

theorem Stores.query {malloc : ι} (h : Stores out.opie s) (hm : QueryMove out s malloc s') :
    Stores out.opie s' := by
  have head {query : Query ι σ κ} {queue : List (Query ι σ κ)} (hq : s.queue = query :: queue) :
      query.Sound out.opie s := h.sound query (by rw [hq]; exact List.mem_cons_self)
  cases hm with
  | noRow hq hrow hd =>
      exact (h.take hq).leaves (.goto (.inl hd.fresh)) (fun _ hq ↦ .inl hq) rfl
  | row hq hrow hlive hd =>
      rename_i server nick queue stage row
      have hne {x : ι} (ho : s.live x = true) : x ≠ malloc := by
        rintro rfl
        rw [hlive] at ho
        cases ho
      refine (h.take hq).leaves ⟨fun x _ ho ↦ ?_, fun x hp ↦ ?_⟩ (fun _ hq ↦ .inl hq) rfl
      · refine ⟨by simpa [Function.update_of_ne (hne ho.1)] using ho.1, fun t ↦ ?_⟩
        by_cases hts : t = server
        · subst hts
          rw [Threads.goto_stage, Function.update_self, hd.fresh]
          rintro ⟨⟩
          exact hne ho.1 rfl
        · rw [Threads.goto_stage, Function.update_of_ne hts]
          exact ho.2 t
      · have ho := (h.take hq).owned x hp
        simp [Function.update_of_ne (hne ho.1)]
  | chainUpdate hq hrow =>
      refine (h.take hq).enqueue (head hq) ?_
      rintro _ _ _ ⟨⟩
  | chainInsert hq hrow =>
      refine (h.take hq).enqueue (head hq) ?_
      rintro _ _ _ ⟨⟩
  | update hq => exact (h.take hq).store (head hq)
  | insert hq => exact (h.take hq).store (head hq)

omit [DecidableEq σ] in
theorem Stores.sweep {o : Opie κ} (h : Stores o s) (hm : SweepMove s s') : Stores o s' := by
  cases hm with
  | expire hs =>
      exact h.leaves ⟨fun _ _ ho ↦ ho, fun x _ ↦ Threads.write_otp (expire_otp _) x⟩
        (fun _ hq ↦ .inl hq) rfl
  | start | inTime | finish =>
      exact h.leaves ⟨fun _ _ ho ↦ ho, fun _ _ ↦ rfl⟩ (fun _ hq ↦ .inl hq) rfl

theorem Stores.step {e : Step ι σ} (h : Stores out.opie s) (hl : Listed s)
    (hk : Keeps out.opie s) (hc : Undisturbed s e)
    (he : (threads ι σ κ out).step s e = some s') : Stores out.opie s' := by
  cases e with
  | message server job =>
      cases message_move he with
      | found hs hsweep hx => exact h.leaves (.goto (.inl rfl)) (fun _ hq ↦ .inl hq) rfl
      | ask hs hx =>
          refine Stores.leaves (h.enqueue ?_ ?_) (.goto (.inl rfl)) (fun _ hq ↦ .inl hq) rfl
          · trivial
          · rintro _ _ _ ⟨⟩
  | thread server => exact h.thread hl hk hc (threadStep_move he)
  | execute malloc => exact h.query (execute_move he)
  | sweepBegin now => exact h.sweep (sweepBegin_move he)
  | sweepMark => exact h.sweep (sweepMark_move he)
  | sweepReap =>
      cases sweepReap_move he with
      | reap hs hended =>
          rename_i now x rest
          have hx := (hc now x rest hs hended).1
          refine h.leaves ⟨fun y hy ho ↦ ⟨?_, ho.2⟩, fun _ _ ↦ rfl⟩ (fun _ hq ↦ .inl hq) rfl
          have hne : y ≠ x := by
            rintro rfl
            exact hx hy
          simpa [Function.update_of_ne hne] using ho.1
      | keep hs => exact h.leaves ⟨fun _ _ ho ↦ ho, fun _ _ ↦ rfl⟩ (fun _ hq ↦ .inl hq) rfl
  | sweepEnd => exact h.sweep (sweepEnd_move he)

/-- What every call of `db_set_auth` has stored is what the record held when it was called,
and it is one challenge. -/
def StoredAsCalled (o : Opie κ) (s : Threads ι σ κ) : Prop :=
  ∀ e ∈ s.stored, e.otp = e.call.otp ∧ e.call.Whole o

theorem stores_reachable (h : (threads ι σ κ out).ReachableVia Undisturbed s) :
    Listed s ∧ Keeps out.opie s ∧ Stores out.opie s := by
  refine h.invariant (I := fun s ↦ Listed s ∧ Keeps out.opie s ∧ Stores out.opie s) ?_ ?_
  · rintro s ⟨hlist, hsweep, hidle, hqueue, hstored, -⟩
    refine ⟨.init hlist hsweep hidle, ?_, ?_, ?_, ?_⟩
    · intro server job x hx
      rw [hidle] at hx
      cases hx
    · rintro x ⟨nick, call, hx⟩
      rw [hqueue] at hx
      cases hx
    · rw [hqueue]
      rintro _ ⟨⟩
    · rw [hstored]
      rintro _ ⟨⟩
  · rintro s e s' ⟨hl, hk, hs⟩ hc he
    exact ⟨hl.step hc.spares he, hk.step hl he, hs.step hl hk hc he⟩

end Queries

/-! ## A new challenge that is stored, and one that fails midway -/

/-- The response that asks for a new challenge with the key in `text`. -/
def renewalJob (text : CString) : Job :=
  ⟨['a', 'n', 'n'],
    some ("init-hex:9e876134d90499dd:".toList ++ "otp-md5 499 alpha1:".toList ++ text), 10⟩

/-- The response is taken up to the first `db_set_auth`. -/
def renewalEvents (text : CString) : List (Step ℕ Bool) :=
  askEvents false 0 ++ [.message false (renewalJob text), .thread false, .execute 1, .thread false, .thread false,
    .thread false, .thread false]

/-- Whether a step leaves the records that queued queries will read, without the sweep. -/
def leaves (s : Threads ℕ Bool KeyText) : Step ℕ Bool → Bool
  | .thread server =>
      match (s.stage server).writing with
      | some x => s.queue.all fun
          | .set _ y _ => y != x
          | _ => true
      | none => true
  | e => e.keeps

theorem undisturbed_of_leaves {s : Threads ℕ Bool KeyText} {e : Step ℕ Bool} (h : leaves s e = true) :
    Undisturbed s e := by
  cases e with
  | thread server =>
      rintro x hx ⟨nick, call, hq⟩
      simp only [leaves, hx, List.all_eq_true] at h
      have := h _ hq
      simp at this
  | sweepReap => cases h
  | message | execute | sweepBegin | sweepMark | sweepEnd => trivial

end Beirdobot.Auth
