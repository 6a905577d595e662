import Beirdobot.Auth.Stored
import Mathlib.Logic.Relation

/-!
# The chain of a user

What is on its way to the table for a user, who waits for which lookup, and that the
digest of a user stays what it is.
-/

namespace Beirdobot.Auth

open Library

variable {ι σ κ : Type}

/-! ## Chains -/

/-- The key `q` comes from `p` by hashing. -/
def Opie.Above (o : Opie κ) (alg : ℕ) : κ → κ → Prop :=
  Relation.TransGen fun p q ↦ o.hash p alg = q

theorem Opie.above_hash (o : Opie κ) (alg : ℕ) (key : κ) : o.Above alg key (o.hash key alg) :=
  .single rfl

theorem Opie.Above.hash {o : Opie κ} {alg : ℕ} {p q : κ} (h : o.Above alg p q) :
    o.Above alg p (o.hash q alg) :=
  .tail h rfl

/-! ## What is on its way to the table -/

/-- The user and the columns of a call of `db_set_auth` that is not stored yet. -/
def Query.saves : Query ι σ κ → Option (CString × Otp)
  | .get _ _ => none
  | .set nick _ call | .update nick _ call | .insert nick _ call => some (nick, call.otp)

/-- Columns of a user that are on their way to the table. -/
def Threads.Saves (s : Threads ι σ κ) (nick : CString) (otp : Otp) : Prop :=
  ∃ query ∈ s.queue, query.saves = some (nick, otp)

/-- The response of a thread that has read the row and has not written it. -/
def Stage.flight : Stage ι κ → Option (Response ι κ)
  | .checked r _ (some _) | .counting r _ | .hashing r _ _ | .storing r _ | .renewing r _ _
  | .reseeding r _ _ _ => some r
  | _ => none

/-- The nick that a thread asks the table for. -/
def Stage.asks : Stage ι κ → Option CString
  | .asking job => some job.nick
  | .checking r _ => some r.job.nick
  | _ => none

/-- The server whose thread waits for a query. -/
def Query.asker : Query ι σ κ → Option σ
  | .get server _ => some server
  | _ => none

/-- Each queued lookup is the one that its thread waits for. -/
structure Asks (s : Threads ι σ κ) : Prop where
  nick : ∀ server nick, .get server nick ∈ s.queue → (s.stage server).asks = some nick
  once : (s.queue.filterMap Query.asker).Nodup

section Lookups

variable [DecidableEq σ] {s s' : Threads ι σ κ} {server : σ} {stage : Stage ι κ}

omit [DecidableEq σ] in
theorem Asks.not_mem (h : Asks s) (hs : (s.stage server).asks = none) :
    server ∉ s.queue.filterMap Query.asker := by
  intro hmem
  obtain ⟨query, hq, ha⟩ := List.mem_filterMap.mp hmem
  cases query with
  | get server' nick =>
      cases ha
      rw [h.nick server nick hq] at hs
      cases hs
  | set | update | insert => cases ha

/-- A thread that waits for nothing goes on. -/
theorem Asks.goto (h : Asks s) (hs : (s.stage server).asks = none) :
    Asks (s.goto server stage) := by
  refine ⟨fun t nick hq ↦ ?_, h.once⟩
  have hts : t ≠ server := by
    rintro rfl
    rw [h.nick t nick hq] at hs
    cases hs
  rw [Threads.goto_stage, Function.update_of_ne hts]
  exact h.nick t nick hq

/-- A thread asks for a nick. -/
theorem Asks.ask {nick : CString} (h : Asks s) (hs : (s.stage server).asks = none)
    (ha : stage.asks = some nick) : Asks ((s.enqueue (.get server nick)).goto server stage) := by
  refine ⟨fun t nick' hq ↦ ?_, ?_⟩
  · have hg : Asks (s.goto server stage) := h.goto hs
    rcases List.mem_append.mp hq with hq | hq
    · exact hg.nick t nick' hq
    · cases List.mem_singleton.mp hq
      rw [Threads.goto_stage, Function.update_self, ha]
  · rw [Threads.goto_queue, Threads.enqueue_queue, List.filterMap_append]
    refine List.Nodup.append h.once (List.nodup_singleton _) ?_
    intro t ht ht'
    cases List.mem_singleton.mp ht'
    exact h.not_mem hs ht

omit [DecidableEq σ] in
/-- Queries that nobody waits for come or go. -/
theorem Asks.of_queue (h : Asks s) (hstage : s'.stage = s.stage)
    (hget : ∀ server nick, .get server nick ∈ s'.queue → .get server nick ∈ s.queue)
    (honce : (s'.queue.filterMap Query.asker).Nodup) : Asks s' :=
  ⟨fun server nick hq ↦ by rw [hstage]; exact h.nick server nick (hget server nick hq), honce⟩

omit [DecidableEq σ] in
theorem Asks.enqueue {query : Query ι σ κ} (h : Asks s) (hq : query.asker = none) :
    Asks (s.enqueue query) := by
  refine h.of_queue rfl (fun server nick hmem ↦ ?_) ?_
  · rcases List.mem_append.mp hmem with hmem | hmem
    · exact hmem
    · rw [← List.mem_singleton.mp hmem] at hq
      cases hq
  · have := h.once
    simpa [List.filterMap_append, hq] using this

omit [DecidableEq σ] in
/-- The query thread takes the next query. -/
theorem Asks.take {query : Query ι σ κ} {queue : List (Query ι σ κ)} (h : Asks s)
    (hq : s.queue = query :: queue) : Asks { s with queue } := by
  refine h.of_queue rfl (fun server nick hmem ↦ ?_) ?_
  · rw [hq]
    exact List.mem_cons_of_mem _ hmem
  · have hsub : queue.Sublist s.queue := by
      rw [hq]
      exact List.sublist_cons_self _ _
    exact h.once.sublist (hsub.filterMap _)

/-- The thread that waits for a lookup gets its result. -/
theorem Asks.deliver {nick : CString} {queue : List (Query ι σ κ)} (h : Asks s)
    (hq : s.queue = .get server nick :: queue) : Asks ({ s with queue }.goto server stage) := by
  have h' := h.take hq
  refine ⟨fun t nick' hmem ↦ ?_, h'.once⟩
  have hts : t ≠ server := by
    rintro rfl
    have honce := h.once
    rw [hq, List.filterMap_cons_some (f := Query.asker) rfl, List.nodup_cons] at honce
    exact honce.1 (List.mem_filterMap.mpr ⟨_, hmem, rfl⟩)
  rw [Threads.goto_stage, Function.update_of_ne hts]
  exact h'.nick t nick' hmem

end Lookups

section Steps

variable [DecidableEq ι] [DecidableEq σ] [DecidableEq κ] {out : Outside κ}
  {s s' : Threads ι σ κ} {server : σ}

omit [DecidableEq ι] [DecidableEq σ] [DecidableEq κ] in
theorem Passes.asks {stage stage' : Stage ι κ} (h : Passes stage stage') : stage.asks = none := by
  cases h <;> rfl

omit [DecidableEq ι] [DecidableEq σ] [DecidableEq κ] in
theorem Rewrites.asks {o : Opie κ} {r : Response ι κ} {f : Otp → Otp} {stage stage' : Stage ι κ}
    (h : Rewrites o r stage f stage') : stage.asks = none := by
  cases h <;> rfl

theorem Asks.thread (h : Asks s) (hm : ThreadMove out s server s') : Asks s' := by
  cases hm with
  | pass hp => exact h.goto hp.asks
  | ask hs hc halg hv => exact h.ask ((congrArg Stage.asks hs).trans rfl) rfl
  | logoff hs ha =>
      exact Asks.goto (s := s.write _ _) ⟨h.nick, h.once⟩ ((congrArg Stage.asks hs).trans rfl)
  | add hs hsweep =>
      have h' : Asks (s.goto server .idle) := h.goto ((congrArg Stage.asks hs).trans rfl)
      exact ⟨h'.nick, h'.once⟩
  | agree hs hu =>
      exact Asks.goto (s := s.free _) ⟨h.nick, h.once⟩ ((congrArg Stage.asks hs).trans rfl)
  | rewrite hr => exact Asks.goto (s := s.writeOtp _ _) ⟨h.nick, h.once⟩ hr.asks
  | store hs =>
      rename_i r
      have h' : Asks (s.enqueue (.set r.job.nick r.auth ⟨r, (s.mem r.auth).otp⟩)) :=
        h.enqueue rfl
      have hg : Asks (Threads.goto _ server (.verified r.job r.auth true)) :=
        h'.goto ((congrArg Stage.asks hs).trans rfl)
      exact ⟨hg.nick, hg.once⟩
  | storeFirst hs =>
      exact (h.enqueue rfl).goto ((congrArg Stage.asks hs).trans rfl)
  | settle hs =>
      exact Asks.goto (s := s.write _ _) ⟨h.nick, h.once⟩ ((congrArg Stage.asks hs).trans rfl)

omit [DecidableEq κ] in
theorem Asks.query {malloc : ι} (h : Asks s) (hm : QueryMove out s malloc s') : Asks s' := by
  cases hm with
  | noRow hq hrow hd => exact h.deliver hq
  | row hq hrow hlive hd =>
      rename_i server nick queue stage row
      have h' : Asks ({ s with queue }.goto server stage) := h.deliver hq
      exact ⟨h'.nick, h'.once⟩
  | chainUpdate hq hrow => exact (h.take hq).enqueue rfl
  | chainInsert hq hrow => exact (h.take hq).enqueue rfl
  | update hq =>
      have h' := h.take hq
      exact ⟨h'.nick, h'.once⟩
  | insert hq =>
      have h' := h.take hq
      exact ⟨h'.nick, h'.once⟩

theorem Asks.step {e : Step ι σ} (h : Asks s) (he : (threads ι σ κ out).step s e = some s') :
    Asks s' := by
  have sweep (hm : SweepMove s s') : Asks s' := by
    cases hm <;> exact ⟨h.nick, h.once⟩
  cases e with
  | message server job =>
      cases message_move he with
      | found hs hsweep hx => exact h.goto ((congrArg Stage.asks hs).trans rfl)
      | ask hs hx => exact h.ask ((congrArg Stage.asks hs).trans rfl) rfl
  | thread server => exact h.thread (threadStep_move he)
  | execute malloc => exact h.query (execute_move he)
  | sweepBegin now => exact sweep (sweepBegin_move he)
  | sweepMark => exact sweep (sweepMark_move he)
  | sweepReap =>
      cases sweepReap_move he with
      | reap | keep => exact ⟨h.nick, h.once⟩
  | sweepEnd => exact sweep (sweepEnd_move he)

end Steps

/-! ## The digests of a user -/

section Digests

variable [DecidableEq σ]

/-- A record that is listed or that a thread was given. -/
def Threads.Known (s : Threads ι σ κ) (x : ι) : Prop :=
  x ∈ s.list ∨ ∃ server, (s.stage server).fresh = some x

/-- The digest of a user never changes. -/
structure Digests (out : Outside κ) (digestOf : CString → CString) (s : Threads ι σ κ) : Prop where
  rows : ∀ user row, s.userauth user = some row →
    out.collate row.1 = user ∧ row.2.digest = digestOf user
  records : ∀ x, s.Known x → (s.mem x).otp.digest = digestOf (out.collate (s.mem x).nick)
  saves : ∀ nick otp, s.Saves nick otp → otp.digest = digestOf (out.collate nick)

variable {out : Outside κ} {digestOf : CString → CString} {s s' : Threads ι σ κ} {server : σ}

/-- The record that a thread uses has the digest of the user. -/
theorem Digests.busy {job : Job} {x : ι} (h : Digests out digestOf s) (hl : Listed s)
    (hcollate : ∀ a b, sameIgnoringCase a b = true → out.collate a = out.collate b)
    (hb : (s.stage server).busy = some (job, x)) :
    (s.mem x).otp.digest = digestOf (out.collate job.nick) := by
  have hx := List.find?_some (hl.busy _ _ _ hb)
  simp only [AuthData.belongsTo, Bool.and_eq_true] at hx
  rw [hcollate _ _ hx.2]
  exact h.records x (.inl (hl.busy_mem hb))

omit [DecidableEq σ] in
theorem Digests.frame (h : Digests out digestOf s) (hrows : s'.userauth = s.userauth)
    (hdigest : ∀ x, s'.Known x → (s'.mem x).otp.digest = (s.mem x).otp.digest)
    (hnick : ∀ x, s'.Known x → (s'.mem x).nick = (s.mem x).nick)
    (hknown : ∀ x, s'.Known x → s.Known x)
    (hsaves : ∀ nick otp, s'.Saves nick otp →
      s.Saves nick otp ∨ otp.digest = digestOf (out.collate nick)) : Digests out digestOf s' := by
  refine ⟨by rw [hrows]; exact h.rows, fun x hx ↦ ?_, fun nick otp hs ↦ ?_⟩
  · rw [hdigest x hx, hnick x hx]
    exact h.records x (hknown x hx)
  · rcases hsaves nick otp hs with hs | hs
    · exact h.saves nick otp hs
    · exact hs

/-- A thread that goes on knows no more records. -/
theorem Threads.Known.of_goto {stage : Stage ι κ} {x : ι} (h : (s.goto server stage).Known x)
    (hf : stage.fresh = none) : s.Known x := by
  rcases h with h | ⟨t, ht⟩
  · exact .inl h
  · refine .inr ⟨t, ?_⟩
    by_cases hts : t = server
    · subst hts
      rw [Threads.goto_stage, Function.update_self, hf] at ht
      cases ht
    · rwa [Threads.goto_stage, Function.update_of_ne hts] at ht

omit [DecidableEq σ] in
/-- What is queued besides what was queued. -/
theorem Threads.Saves.of_enqueue {query : Query ι σ κ} {nick : CString} {otp : Otp}
    (h : (s.enqueue query).Saves nick otp) :
    s.Saves nick otp ∨ query.saves = some (nick, otp) := by
  obtain ⟨query', hq, hs⟩ := h
  rcases List.mem_append.mp hq with hq | hq
  · exact .inl ⟨query', hq, hs⟩
  · rw [List.mem_singleton.mp hq] at hs
    exact .inr hs

end Digests

section DigestSteps

variable [DecidableEq ι] [DecidableEq σ] [DecidableEq κ] {out : Outside κ}
  {digestOf : CString → CString} {s s' : Threads ι σ κ} {server : σ}

omit [DecidableEq σ] [DecidableEq κ] in
theorem Threads.write_nick {x : ι} {f : AuthData σ → AuthData σ}
    (hf : (f (s.mem x)).nick = (s.mem x).nick) (y : ι) :
    ((s.write x f).mem y).nick = (s.mem y).nick := by
  by_cases hy : y = x
  · subst hy
    rw [Threads.write_mem, Function.update_self, hf]
  · rw [Threads.write_mem, Function.update_of_ne hy]

omit [DecidableEq ι] [DecidableEq σ] [DecidableEq κ] in
theorem Rewrites.digest {o : Opie κ} {r : Response ι κ} {f : Otp → Otp} {stage stage' : Stage ι κ}
    (h : Rewrites o r stage f stage') (otp : Otp) : (f otp).digest = otp.digest := by
  cases h <;> rfl

omit [DecidableEq κ] in
/-- A thread writes to a record and goes on. -/
theorem Digests.write_goto {x : ι} {f : AuthData σ → AuthData σ} {stage : Stage ι κ}
    (h : Digests out digestOf s) (hnick : (f (s.mem x)).nick = (s.mem x).nick)
    (hdigest : (f (s.mem x)).otp.digest = (s.mem x).otp.digest) (hf : stage.fresh = none) :
    Digests out digestOf ((s.write x f).goto server stage) := by
  refine h.frame rfl (fun y _ ↦ ?_) (fun y _ ↦ Threads.write_nick hnick y)
    (fun y hy ↦ Threads.Known.of_goto (s := s.write x f) hy hf) fun _ _ hs ↦ .inl hs
  by_cases hy : y = x
  · subst hy
    simpa using hdigest
  · simp [Function.update_of_ne hy]

theorem Digests.thread (h : Digests out digestOf s) (hl : Listed s)
    (hcollate : ∀ a b, sameIgnoringCase a b = true → out.collate a = out.collate b)
    (hm : ThreadMove out s server s') : Digests out digestOf s' := by
  have goto {stage : Stage ι κ} (hf : stage.fresh = none) :
      Digests out digestOf (s.goto server stage) :=
    h.frame rfl (fun _ _ ↦ rfl) (fun _ _ ↦ rfl) (fun _ hx ↦ hx.of_goto hf) fun _ _ hs ↦ .inl hs
  have store {r : Response ι κ} {mode : Mode} {stage : Stage ι κ}
      {accepted : List (CString × κ)} (hs : s.stage server = .storing r mode)
      (hf : stage.fresh = none) :
      Digests out digestOf
        ({ s.enqueue (.set r.job.nick r.auth ⟨r, (s.mem r.auth).otp⟩) with
          accepted }.goto server stage) := by
    refine h.frame rfl (fun _ _ ↦ rfl) (fun _ _ ↦ rfl) (fun _ hx ↦ hx.of_goto hf) ?_
    intro nick otp hq
    rcases Threads.Saves.of_enqueue (s := s) hq with hq | hq
    · exact .inl hq
    · cases hq
      exact .inr (h.busy hl hcollate ((congrArg Stage.busy hs).trans rfl))
  cases hm with
  | pass hp => exact goto hp.fresh
  | ask hs hc halg hv =>
      refine h.frame rfl (fun _ _ ↦ rfl) (fun _ _ ↦ rfl) (fun _ hx ↦ hx.of_goto rfl) ?_
      intro nick otp hq
      rcases Threads.Saves.of_enqueue (s := s) hq with hq | hq
      · exact .inl hq
      · cases hq
  | logoff hs ha => exact h.write_goto rfl rfl rfl
  | add hs hsweep =>
      rename_i job x
      refine h.frame rfl (fun y _ ↦ ?_) (fun y _ ↦ Threads.write_nick rfl y) ?_
        fun _ _ hq ↦ .inl hq
      · exact congrArg Otp.digest (Threads.write_otp (pose_otp server job (s.mem x)) y)
      · rintro y (hy | ⟨t, ht⟩)
        · rcases List.mem_cons.mp hy with rfl | hy
          · exact .inr ⟨server, (congrArg Stage.fresh hs).trans rfl⟩
          · exact .inl hy
        · have hy : (s.goto server .idle).Known y := .inr ⟨t, ht⟩
          exact hy.of_goto rfl
  | agree hs hu =>
      exact h.frame rfl (fun _ _ ↦ rfl) (fun _ _ ↦ rfl)
        (fun _ hx ↦ Threads.Known.of_goto (s := s) hx rfl) fun _ _ hs ↦ .inl hs
  | rewrite hr => exact h.write_goto rfl (hr.digest _) hr.fresh
  | store hs => exact store hs rfl
  | storeFirst hs => exact store hs rfl
  | settle hs =>
      rename_i job x ok
      exact h.write_goto (by cases ok <;> rfl) (by rw [settle_otp]) rfl

theorem Digests.query {malloc : ι} (h : Digests out digestOf s) (hstores : Stores out.opie s)
    (hm : QueryMove out s malloc s') : Digests out digestOf s' := by
  have tail {query : Query ι σ κ} {queue : List (Query ι σ κ)} (hq : s.queue = query :: queue)
      {nick : CString} {otp : Otp} (hs : Threads.Saves { s with queue } nick otp) :
      s.Saves nick otp := by
    obtain ⟨query', hmem, hs⟩ := hs
    exact ⟨query', by rw [hq]; exact List.mem_cons_of_mem _ hmem, hs⟩
  have chain {query query' : Query ι σ κ} {queue : List (Query ι σ κ)}
      (hq : s.queue = query :: queue) (hsame : query'.saves = query.saves) :
      Digests out digestOf ({ s with queue }.enqueue query') := by
    refine h.frame rfl (fun _ _ ↦ rfl) (fun _ _ ↦ rfl) (fun _ hx ↦ hx) fun nick otp hs ↦ .inl ?_
    rcases Threads.Saves.of_enqueue hs with hs | hs
    · exact tail hq hs
    · exact ⟨query, by rw [hq]; exact List.mem_cons_self, hsame ▸ hs⟩
  have head {query : Query ι σ κ} {queue : List (Query ι σ κ)} (hq : s.queue = query :: queue)
      {nick : CString} {call : Call ι κ} (hs : query.saves = some (nick, call.otp)) :
      call.otp.digest = digestOf (out.collate nick) :=
    h.saves nick call.otp ⟨query, by rw [hq]; exact List.mem_cons_self, hs⟩
  cases hm with
  | noRow hq hrow hd =>
      exact h.frame rfl (fun _ _ ↦ rfl) (fun _ _ ↦ rfl) (fun _ hx ↦ hx.of_goto hd.fresh)
        fun _ _ hs ↦ .inl (tail hq hs)
  | row hq hrow hlive hd =>
      rename_i server nick queue stage row
      refine ⟨h.rows, fun x hx ↦ ?_, fun nick otp hs ↦ h.saves nick otp (tail hq hs)⟩
      by_cases hxm : x = malloc
      · subst hxm
        obtain ⟨hname, hdigest⟩ := h.rows _ row hrow
        simp only [Threads.goto_mem, Function.update_self, AuthData.ofRow]
        rw [hdigest, hname]
      · simp only [Threads.goto_mem, Function.update_of_ne hxm]
        refine h.records x ?_
        rcases hx with hx | ⟨t, ht⟩
        · exact .inl hx
        · by_cases hts : t = server
          · subst hts
            rw [Threads.goto_stage, Function.update_self, hd.fresh] at ht
            cases ht
            exact absurd rfl hxm
          · rw [Threads.goto_stage, Function.update_of_ne hts] at ht
            exact .inr ⟨t, ht⟩
  | chainUpdate hq hrow => exact chain hq rfl
  | chainInsert hq hrow => exact chain hq rfl
  | update hq =>
      rename_i nick otp call queue
      have hotp : otp = call.otp :=
        (hstores.sound (.update nick otp call) (by rw [hq]; exact List.mem_cons_self)).2
      refine ⟨fun user row hrow ↦ ?_, h.records, fun nick otp hs ↦ h.saves nick otp (tail hq hs)⟩
      dsimp only at hrow
      by_cases hu : user = out.collate nick
      · subst hu
        rw [Function.update_self] at hrow
        obtain ⟨old, hold, rfl⟩ := Option.map_eq_some_iff.mp hrow
        refine ⟨(h.rows _ old hold).1, ?_⟩
        rw [hotp]
        exact head hq rfl
      · rw [Function.update_of_ne hu] at hrow
        exact h.rows user row hrow
  | insert hq =>
      rename_i nick otp call queue
      have hotp : otp = call.otp :=
        (hstores.sound (.insert nick otp call) (by rw [hq]; exact List.mem_cons_self)).2
      refine ⟨fun user row hrow ↦ ?_, h.records, fun nick otp hs ↦ h.saves nick otp (tail hq hs)⟩
      dsimp only at hrow
      by_cases hu : user = out.collate nick
      · subst hu
        rw [Function.update_self, Option.some.injEq] at hrow
        cases hold : s.userauth (out.collate nick) with
        | some old =>
            rw [hold, Option.getD_some] at hrow
            rw [← hrow]
            exact h.rows _ old hold
        | none =>
            rw [hold, Option.getD_none] at hrow
            rw [← hrow]
            refine ⟨rfl, ?_⟩
            rw [hotp]
            exact head hq rfl
      · rw [Function.update_of_ne hu] at hrow
        exact h.rows user row hrow

theorem Digests.step {e : Step ι σ} (h : Digests out digestOf s) (hl : Listed s)
    (hstores : Stores out.opie s)
    (hcollate : ∀ a b, sameIgnoringCase a b = true → out.collate a = out.collate b)
    (he : (threads ι σ κ out).step s e = some s') : Digests out digestOf s' := by
  have sweep (hm : SweepMove s s') : Digests out digestOf s' := by
    cases hm with
    | expire hs =>
        exact h.frame rfl
          (fun y _ ↦ congrArg Otp.digest (Threads.write_otp (expire_otp _) y))
          (fun y _ ↦ Threads.write_nick rfl y) (fun _ hx ↦ hx) fun _ _ hs ↦ .inl hs
    | start | inTime | finish => exact ⟨h.rows, h.records, h.saves⟩
  cases e with
  | message server job =>
      cases message_move he with
      | found hs hsweep hx =>
          exact h.frame rfl (fun _ _ ↦ rfl) (fun _ _ ↦ rfl) (fun _ hx ↦ hx.of_goto rfl)
            fun _ _ hs ↦ .inl hs
      | ask hs hx =>
          refine h.frame rfl (fun _ _ ↦ rfl) (fun _ _ ↦ rfl) (fun _ hx ↦ hx.of_goto rfl) ?_
          intro nick otp hq
          rcases Threads.Saves.of_enqueue (s := s) hq with hq | hq
          · exact .inl hq
          · cases hq
  | thread server => exact h.thread hl hcollate (threadStep_move he)
  | execute malloc => exact h.query hstores (execute_move he)
  | sweepBegin now => exact sweep (sweepBegin_move he)
  | sweepMark => exact sweep (sweepMark_move he)
  | sweepReap =>
      cases sweepReap_move he with
      | reap hs hended =>
          refine h.frame rfl (fun _ _ ↦ rfl) (fun _ _ ↦ rfl) ?_ fun _ _ hs ↦ .inl hs
          rintro x (hx | hx)
          · exact .inl (List.mem_of_mem_erase hx)
          · exact .inr hx
      | keep => exact ⟨h.rows, h.records, h.saves⟩
  | sweepEnd => exact sweep (sweepEnd_move he)

end DigestSteps

end Beirdobot.Auth
