import Beirdobot.Auth.Chains

/-!
# Whether a one-time password is accepted twice

`changed` reads the row of the user, and the row is written two queries later.  As long as
no two responses for one user are between these, the row goes down the chain of the user:
no password that was accepted hashes to what the row holds.
-/

namespace Beirdobot.Auth

open Library

variable {ι σ κ : Type}

section Invariant

variable (out : Outside κ) (digestOf : CString → CString) (s : Threads ι σ κ)

/-- A password was accepted for a user. -/
def Threads.Used (user : CString) (p : κ) : Prop :=
  ∃ nick, out.collate nick = user ∧ (nick, p) ∈ s.accepted

/-- No password that was accepted for a user hashes to a key. -/
def Threads.Ahead (user : CString) (hash : CString) : Prop :=
  ∀ p, s.Used out user p → ∀ alg key, algorithmOf (digestOf user) = some alg →
    out.opie.atob8 hash = some key → ¬ out.opie.Above alg p key

/-- Nothing is on its way to the table for a user. -/
def Threads.Settled (user : CString) : Prop :=
  ∀ nick otp, s.Saves nick otp → out.collate nick ≠ user

/-- A thread has begun to accept a password, and what it may have sent to the table is that. -/
structure Threads.Accepting (r : Response ι κ) : Prop where
  alg : algorithmOf (digestOf (out.collate r.job.nick)) = some r.alg
  row : (s.userauth (out.collate r.job.nick)).isSome
  unused : ¬ s.Used out (out.collate r.job.nick) r.key
  saves : ∀ nick otp, s.Saves nick otp → out.collate nick = out.collate r.job.nick →
    otp.hash = out.opie.btoa8 r.key
  unrepeated : ¬ out.opie.Above r.alg r.key r.key

/-- A key that neither the password of a response nor one accepted before hashes to. -/
def Threads.Below (r : Response ι κ) (key : κ) : Prop :=
  ¬ out.opie.Above r.alg r.key key ∧
    ∀ p, s.Used out (out.collate r.job.nick) p → ¬ out.opie.Above r.alg p key

/-- What is known at each stage between the row and its write. -/
def Stage.Flies : Stage ι κ → Prop
  | .checked r _ (some new) => s.Settled out (out.collate r.job.nick) ∧
      ∃ row, s.userauth (out.collate r.job.nick) = some row ∧ (s.mem new).otp.hash = row.2.hash
  | .counting r _ => s.Settled out (out.collate r.job.nick) ∧
      ∃ row, s.userauth (out.collate r.job.nick) = some row ∧ r.old.hash = row.2.hash
  | .hashing r mode key =>
      s.Accepting out digestOf r ∧ s.Below out r key ∧ (mode ≠ .last → key = r.key)
  | .storing r mode => s.Accepting out digestOf r ∧ ∃ key, s.Below out r key ∧
      (mode ≠ .last → key = r.key) ∧ (s.mem r.auth).otp.hash = out.opie.btoa8 key
  | .renewing r _ _ | .reseeding r _ _ _ => s.Accepting out digestOf r
  | _ => True

/-- The passwords accepted for each user are all different. -/
def AcceptedOnce : Prop :=
  ∀ user, ((s.accepted.filter fun a ↦ out.collate a.1 = user).map (·.2)).Nodup

/-- No password that was accepted hashes to what the row of its user will hold. -/
structure Flights : Prop where
  alone : ∀ t t' r r', (s.stage t).flight = some r → (s.stage t').flight = some r' →
    out.collate r.job.nick = out.collate r'.job.nick → t = t'
  flies : ∀ t, (s.stage t).Flies out digestOf s
  ahead : ∀ nick otp, s.Saves nick otp → s.Ahead out digestOf (out.collate nick) otp.hash ∧
    (s.userauth (out.collate nick)).isSome
  settled : ∀ user row, s.userauth user = some row → s.Settled out user →
    s.Ahead out digestOf user row.2.hash
  noInsert : ∀ nick otp call, .insert nick otp call ∉ s.queue
  once : AcceptedOnce out s

end Invariant

section Frames

variable {out : Outside κ} {digestOf : CString → CString} {s s' : Threads ι σ κ} {server : σ}
  {r : Response ι κ}

theorem Threads.Accepting.congr (h : s.Accepting out digestOf r)
    (haccepted : s'.accepted = s.accepted) (hrow : s'.userauth = s.userauth)
    (hqueue : s'.queue = s.queue) : s'.Accepting out digestOf r := by
  refine ⟨h.alg, by rw [hrow]; exact h.row, ?_, ?_, h.unrepeated⟩
  · unfold Used
    rw [haccepted]
    exact h.unused
  · unfold Saves
    rw [hqueue]
    exact h.saves

/-- What a stage says depends on its user only, and on its record. -/
theorem Stage.Flies.congr {stage : Stage ι κ} (h : stage.Flies out digestOf s)
    (hused : ∀ r, stage.flight = some r → ∀ p, s'.Used out (out.collate r.job.nick) p →
      s.Used out (out.collate r.job.nick) p)
    (hsaves : ∀ r, stage.flight = some r → ∀ nick otp, out.collate nick = out.collate r.job.nick →
      s'.Saves nick otp → s.Saves nick otp)
    (hrow : ∀ r, stage.flight = some r →
      s'.userauth (out.collate r.job.nick) = s.userauth (out.collate r.job.nick) ∨
        ¬ s.Settled out (out.collate r.job.nick) ∧
          (s'.userauth (out.collate r.job.nick)).isSome)
    (hfresh : ∀ x, stage.fresh = some x → (s'.mem x).otp.hash = (s.mem x).otp.hash)
    (hbusy : ∀ job x, stage.busy = some (job, x) → (s'.mem x).otp.hash = (s.mem x).otp.hash) :
    stage.Flies out digestOf s' := by
  have settled {r : Response ι κ} (hr : stage.flight = some r)
      (hs : s.Settled out (out.collate r.job.nick)) : s'.Settled out (out.collate r.job.nick) :=
    fun nick otp hq hn ↦ hs nick otp (hsaves r hr nick otp hn hq) hn
  have same {r : Response ι κ} (hr : stage.flight = some r)
      (hs : s.Settled out (out.collate r.job.nick)) :
      s'.userauth (out.collate r.job.nick) = s.userauth (out.collate r.job.nick) :=
    (hrow r hr).resolve_right fun hn ↦ hn.1 hs
  have accepting {r : Response ι κ} (hr : stage.flight = some r)
      (ha : s.Accepting out digestOf r) : s'.Accepting out digestOf r := by
    refine ⟨ha.alg, ?_, fun hu ↦ ha.unused (hused r hr _ hu),
      fun nick otp hq hn ↦ ha.saves nick otp (hsaves r hr nick otp hn hq) hn, ha.unrepeated⟩
    rcases hrow r hr with heq | hsome
    · rw [heq]
      exact ha.row
    · exact hsome.2
  have below {r : Response ι κ} {key : κ} (hr : stage.flight = some r)
      (hb : s.Below out r key) : s'.Below out r key :=
    ⟨hb.1, fun p hp ↦ hb.2 p (hused r hr p hp)⟩
  cases stage with
  | checked r mode new =>
      cases new with
      | none => trivial
      | some new =>
          obtain ⟨hs, row, hr, hh⟩ := h
          exact ⟨settled rfl hs, row, (same rfl hs).trans hr, (hfresh new rfl).trans hh⟩
  | counting r mode =>
      obtain ⟨hs, row, hr, hh⟩ := h
      exact ⟨settled rfl hs, row, (same rfl hs).trans hr, hh⟩
  | hashing r mode key => exact ⟨accepting rfl h.1, below rfl h.2.1, h.2.2⟩
  | storing r mode =>
      obtain ⟨ha, key, hb, hkey, hh⟩ := h
      exact ⟨accepting rfl ha, key, below rfl hb, hkey, (hbusy _ _ rfl).trans hh⟩
  | renewing r hex rest => exact accepting rfl h
  | reseeding r hex c2 seed => exact accepting rfl h
  | idle | found | asking | asked | checking | verified | replying => trivial

theorem Stage.flies_of_flight {stage : Stage ι κ} (h : stage.flight = none) :
    stage.Flies out digestOf s := by
  cases stage with
  | checked r mode new =>
      cases new with
      | none => trivial
      | some new => cases h
  | counting | hashing | storing | renewing | reseeding => cases h
  | idle | found | asking | asked | checking | verified | replying => trivial

/-- Only the threads and the columns of records have changed. -/
theorem Flights.quiet (h : Flights out digestOf s) (haccepted : s'.accepted = s.accepted)
    (hrow : s'.userauth = s.userauth)
    (hsaves : ∀ nick otp, s'.Saves nick otp ↔ s.Saves nick otp)
    (hinsert : ∀ nick otp call, .insert nick otp call ∈ s'.queue →
      .insert nick otp call ∈ s.queue)
    (halone : ∀ t t' r r', (s'.stage t).flight = some r → (s'.stage t').flight = some r' →
      out.collate r.job.nick = out.collate r'.job.nick → t = t')
    (hflies : ∀ t, (s'.stage t).Flies out digestOf s') : Flights out digestOf s' where
  alone := halone
  flies := hflies
  ahead nick otp hs := by
    unfold Threads.Ahead Threads.Used
    rw [haccepted, hrow]
    exact h.ahead nick otp ((hsaves nick otp).mp hs)
  settled user row hr hs := by
    unfold Threads.Ahead Threads.Used
    rw [haccepted]
    rw [hrow] at hr
    exact h.settled user row hr fun nick otp hq ↦ hs nick otp ((hsaves nick otp).mpr hq)
  noInsert nick otp call hq := h.noInsert nick otp call (hinsert nick otp call hq)
  once := by
    unfold AcceptedOnce
    rw [haccepted]
    exact h.once

end Frames

section Steps

variable [DecidableEq ι] [DecidableEq σ] [DecidableEq κ] {out : Outside κ}
  {digestOf : CString → CString} {s s' : Threads ι σ κ} {server : σ} {r : Response ι κ}

omit [DecidableEq ι] [DecidableEq κ] in
/-- A thread goes on, and the columns that the others look at stay as they are. -/
theorem Flights.goto {stage : Stage ι κ} (h : Flights out digestOf s)
    (hstage : s'.stage = Function.update s.stage server stage)
    (haccepted : s'.accepted = s.accepted) (hrow : s'.userauth = s.userauth)
    (hsaves : ∀ nick otp, s'.Saves nick otp ↔ s.Saves nick otp)
    (hinsert : ∀ nick otp call, .insert nick otp call ∈ s'.queue →
      .insert nick otp call ∈ s.queue)
    (hfresh : ∀ t x, t ≠ server → (s.stage t).fresh = some x →
      (s'.mem x).otp.hash = (s.mem x).otp.hash)
    (hbusy : ∀ t job x, t ≠ server → (s.stage t).busy = some (job, x) →
      (s'.mem x).otp.hash = (s.mem x).otp.hash)
    (hflight : ∀ r, stage.flight = some r → (s.stage server).flight = some r)
    (hown : stage.Flies out digestOf s') : Flights out digestOf s' := by
  have hback (t : σ) (r : Response ι κ) (hr : (s'.stage t).flight = some r) :
      (s.stage t).flight = some r := by
    rw [hstage] at hr
    by_cases hts : t = server
    · subst hts
      rw [Function.update_self] at hr
      exact hflight r hr
    · rwa [Function.update_of_ne hts] at hr
  refine h.quiet haccepted hrow hsaves hinsert
    (fun t t' r r' hr hr' ↦ h.alone t t' r r' (hback t r hr) (hback t' r' hr')) fun t ↦ ?_
  · rw [hstage]
    by_cases hts : t = server
    · subst hts
      rw [Function.update_self]
      exact hown
    · rw [Function.update_of_ne hts]
      refine (h.flies t).congr ?_ (fun _ _ nick otp _ ↦ (hsaves nick otp).mp) ?_
        (fun x ↦ hfresh t x hts) fun job x ↦ hbusy t job x hts
      · intro r _ p hp
        unfold Threads.Used at hp ⊢
        rwa [haccepted] at hp
      · intro r _
        rw [hrow]
        exact .inl rfl

omit [DecidableEq ι] in
/-- A password that is being accepted hashes to what the row holds. -/
theorem Flights.begin {mode : Mode} (h : Flights out digestOf s) (hl : Listed s)
    (hk : Keeps out.opie s) (hd : Digests out digestOf s)
    (hcollate : ∀ a b, sameIgnoringCase a b = true → out.collate a = out.collate b)
    (hs : s.stage server = .counting r mode) (hu : ¬ out.opie.Above r.alg r.key r.key) :
    s.Accepting out digestOf r ∧ s.Below out r r.key := by
  have hb : (s.stage server).busy = some (r.job, r.auth) := (congrArg Stage.busy hs).trans rfl
  have hkept := hk server _ _ hb
  have hflies := h.flies server
  rw [hs] at hkept hflies
  obtain ⟨hold, halg, hgoes⟩ := hkept
  obtain ⟨hsettled, row, hrow, hhash⟩ := hflies
  obtain ⟨halgorithm, hlast⟩ := verdict_fits out.opie hgoes
  rw [halg] at halgorithm hlast
  have hdigest : algorithmOf (digestOf (out.collate r.job.nick)) = some r.alg := by
    rw [← hd.busy hl hcollate hb, hold]
    exact halgorithm
  have hahead := h.settled _ row hrow hsettled
  have hbelow (p : κ) (hp : s.Used out (out.collate r.job.nick) p) :
      ¬ out.opie.Above r.alg p (out.opie.hash r.key r.alg) :=
    hahead p hp r.alg _ hdigest (by rw [← hhash]; exact hlast)
  refine ⟨⟨hdigest, by rw [hrow]; rfl, ?_, ?_, hu⟩, hu, ?_⟩
  · intro hp
    exact hbelow r.key hp (out.opie.above_hash r.alg r.key)
  · intro nick otp hq hn
    exact absurd hn (hsettled nick otp hq)
  · intro p hp habove
    exact hbelow p hp habove.hash

/-- The assumption on the keys of a user: the chain that a password is on does not come back to
it, and a chain that a response starts does not come back to the ones used before. -/
def Unrepeated (out : Outside κ) (s : Threads ι σ κ) : Step ι σ → Prop
  | .thread server =>
      match s.stage server with
      | .counting r _ => ¬ out.opie.Above r.alg r.key r.key
      | .reseeding r hex c2 _ => ∀ key, out.opie.decode hex c2 = some key → s.Below out r key
      | _ => True
  | _ => True

/-- `changed` reads the row of a user while no other response of the user is between its own
reading and its write. -/
def OneAtATime (out : Outside κ) (s : Threads ι σ κ) : Step ι σ → Prop
  | .execute _ => ∀ server r mode nick queue, s.stage server = .checking r mode →
      s.queue = .get server nick :: queue → s.Settled out (out.collate r.job.nick) ∧
        ∀ t r', (s.stage t).flight = some r' → out.collate r'.job.nick ≠ out.collate r.job.nick
  | _ => True

omit [DecidableEq ι] [DecidableEq σ] [DecidableEq κ] in
theorem Rewrites.flight {o : Opie κ} {f : Otp → Otp} {stage stage' : Stage ι κ}
    (h : Rewrites o r stage f stage') :
    stage.flight = some r ∧ (stage'.flight = none ∨ stage'.flight = some r) := by
  cases h with
  | counting | hashing | recounted | reseeded => exact ⟨rfl, .inr rfl⟩
  | misparsed | misread => exact ⟨rfl, .inl rfl⟩

theorem Flights.rewrite {f : Otp → Otp} {stage : Stage ι κ} (h : Flights out digestOf s)
    (hl : Listed s) (hk : Keeps out.opie s) (hd : Digests out digestOf s)
    (hcollate : ∀ a b, sameIgnoringCase a b = true → out.collate a = out.collate b)
    (hu : Unrepeated out s (.thread server)) (hr : Rewrites out.opie r (s.stage server) f stage) :
    Flights out digestOf ((s.writeOtp r.auth f).goto server stage) := by
  have hb := hr.busy.1
  have other {x : ι} (hx : x ≠ r.auth) :
      (((s.writeOtp r.auth f).goto server stage).mem x).otp.hash = (s.mem x).otp.hash := by
    simp [Function.update_of_ne hx]
  have hflies := h.flies server
  refine h.goto rfl rfl rfl (fun _ _ ↦ .rfl) (fun _ _ _ hq ↦ hq) ?_ ?_ ?_ ?_
  · intro t x hts hx
    exact other fun e ↦ hl.busy_ne_fresh hb (e ▸ hx)
  · intro t job x hts hx
    exact other fun e ↦ hts (hl.busy_unique (e ▸ hx) hb)
  · intro r' hr'
    rcases hr.flight.2 with hn | hsome
    · rw [hn] at hr'
      cases hr'
    · exact hr.flight.1.trans (hsome.symm.trans hr')
  · have hbegin {mode : Mode} (hs : s.stage server = .counting r mode) :
        s.Accepting out digestOf r ∧ s.Below out r r.key := by
      refine h.begin hl hk hd hcollate hs ?_
      rw [Unrepeated, hs] at hu
      exact hu
    have hreseed {hex : Bool} {c2 seed : CString} {key : κ}
        (hs : s.stage server = .reseeding r hex c2 seed)
        (hkey : out.opie.decode hex c2 = some key) : s.Below out r key := by
      rw [Unrepeated, hs] at hu
      exact hu key hkey
    generalize s.stage server = st at hr hflies hbegin hreseed
    cases hr with
    | counting mode => exact ⟨(hbegin rfl).1.congr rfl rfl rfl, (hbegin rfl).2, fun _ ↦ rfl⟩
    | hashing mode key =>
        obtain ⟨ha, hbelow, hkey⟩ := hflies
        exact ⟨ha.congr rfl rfl rfl, key, hbelow, hkey, by simp⟩
    | recounted hc hp => exact Threads.Accepting.congr hflies rfl rfl rfl
    | reseeded hkey =>
        exact ⟨Threads.Accepting.congr hflies rfl rfl rfl, hreseed rfl hkey,
          fun hn ↦ absurd rfl hn⟩
    | misparsed | misread => trivial

omit [DecidableEq ι] [DecidableEq κ] in
/-- What was accepted, once a thread has called `db_set_auth`. -/
theorem Flights.store {mode : Mode} {stage : Stage ι κ} {more : List (CString × κ)}
    (h : Flights out digestOf s) (hback : ∀ key, out.opie.atob8 (out.opie.btoa8 key) = some key)
    (hs : s.stage server = .storing r mode) (hmore : more = [] ∨ more = [(r.job.nick, r.key)])
    (hflight : ∀ r', stage.flight = some r' → r' = r)
    (hstage : s'.stage = Function.update s.stage server stage)
    (haccepted : s'.accepted = s.accepted ++ more) (hrow : s'.userauth = s.userauth)
    (hqueue : s'.queue = s.queue ++ [.set r.job.nick r.auth ⟨r, (s.mem r.auth).otp⟩])
    (hmem : s'.mem = s.mem) (hown : stage.Flies out digestOf s') : Flights out digestOf s' := by
  have hfl : (s.stage server).flight = some r := (congrArg Stage.flight hs).trans rfl
  have hflies := h.flies server
  rw [hs] at hflies
  obtain ⟨haccepting, key, hbelow, -, hhash⟩ := hflies
  have hsaves (nick : CString) (otp : Otp) : s'.Saves nick otp ↔
      s.Saves nick otp ∨ nick = r.job.nick ∧ otp = (s.mem r.auth).otp := by
    unfold Threads.Saves
    rw [hqueue]
    constructor
    · rintro ⟨query, hq, hsv⟩
      rcases List.mem_append.mp hq with hq | hq
      · exact .inl ⟨query, hq, hsv⟩
      · rw [List.mem_singleton.mp hq] at hsv
        cases hsv
        exact .inr ⟨rfl, rfl⟩
    · rintro (⟨query, hq, hsv⟩ | ⟨rfl, rfl⟩)
      · exact ⟨query, List.mem_append_left _ hq, hsv⟩
      · exact ⟨_, List.mem_append_right _ (List.mem_singleton_self _), rfl⟩
  have hused (user : CString) (p : κ) (hp : s'.Used out user p) :
      s.Used out user p ∨ user = out.collate r.job.nick ∧ p = r.key := by
    obtain ⟨nick, hn, hp⟩ := hp
    rw [haccepted] at hp
    rcases List.mem_append.mp hp with hp | hp
    · exact .inl ⟨nick, hn, hp⟩
    · rcases hmore with rfl | rfl
      · cases hp
      · cases List.mem_singleton.mp hp
        exact .inr ⟨hn.symm, rfl⟩
  have halone (t : σ) (r' : Response ι κ) (hts : t ≠ server)
      (hr' : (s.stage t).flight = some r') : out.collate r'.job.nick ≠ out.collate r.job.nick :=
    fun hn ↦ hts (h.alone t server r' r hr' hfl hn)
  -- nothing changes for the other users
  have hahead (user : CString) (hash : CString) (hne : user ≠ out.collate r.job.nick)
      (ha : s.Ahead out digestOf user hash) : s'.Ahead out digestOf user hash := by
    intro p hp
    exact ha p ((hused user p hp).resolve_right fun hn ↦ hne hn.1)
  refine ⟨?_, fun t ↦ ?_, ?_, ?_, ?_, ?_⟩
  · have hback' (t : σ) (r' : Response ι κ) (hr' : (s'.stage t).flight = some r') :
        (s.stage t).flight = some r' := by
      rw [hstage] at hr'
      by_cases hts : t = server
      · subst hts
        rw [Function.update_self] at hr'
        rw [hflight r' hr']
        exact hfl
      · rwa [Function.update_of_ne hts] at hr'
    exact fun t t' r₁ r₂ h₁ h₂ hn ↦ h.alone t t' r₁ r₂ (hback' t r₁ h₁) (hback' t' r₂ h₂) hn
  · rw [hstage]
    by_cases hts : t = server
    · subst hts
      rw [Function.update_self]
      exact hown
    · rw [Function.update_of_ne hts]
      refine (h.flies t).congr ?_ ?_ (fun _ _ ↦ .inl (by rw [hrow]))
        (fun _ _ ↦ by rw [hmem]) fun _ _ _ ↦ by rw [hmem]
      · intro r' hr' p hp
        exact (hused _ p hp).resolve_right fun hn ↦ halone t r' hts hr' hn.1
      · intro r' hr' nick otp hn hq
        refine ((hsaves nick otp).mp hq).resolve_right fun hnew ↦ ?_
        rw [hnew.1] at hn
        exact halone t r' hts hr' hn.symm
  · intro nick otp hq
    rw [hrow]
    by_cases hu : out.collate nick = out.collate r.job.nick
    · refine ⟨?_, by rw [hu]; exact haccepting.row⟩
      intro p hp alg k halg hk
      rw [hu, haccepting.alg, Option.some.injEq] at halg
      subst halg
      rw [hu] at hp
      rcases (hsaves nick otp).mp hq with hq | ⟨-, rfl⟩
      · have hr := haccepting.saves nick otp hq hu
        rw [hr, hback, Option.some.injEq] at hk
        subst hk
        rcases hused _ p hp with hp | ⟨-, rfl⟩
        · exact (h.ahead nick otp hq).1 p (by rw [hu]; exact hp) r.alg r.key
            (by rw [hu]; exact haccepting.alg) (by rw [hr, hback])
        · exact haccepting.unrepeated
      · rw [hhash, hback, Option.some.injEq] at hk
        subst hk
        rcases hused _ p hp with hp | ⟨-, rfl⟩
        · exact hbelow.2 p hp
        · exact hbelow.1
    · have hq' := ((hsaves nick otp).mp hq).resolve_right fun hnew ↦ hu (by rw [hnew.1])
      exact ⟨hahead _ _ hu (h.ahead nick otp hq').1, (h.ahead nick otp hq').2⟩
  · intro user row hr hsettled
    have hne : user ≠ out.collate r.job.nick := by
      rintro rfl
      exact hsettled r.job.nick _ ((hsaves _ _).mpr (.inr ⟨rfl, rfl⟩)) rfl
    rw [hrow] at hr
    exact hahead _ _ hne
      (h.settled user row hr fun nick otp hq ↦ hsettled nick otp ((hsaves _ _).mpr (.inl hq)))
  · intro nick otp call hq
    rw [hqueue] at hq
    rcases List.mem_append.mp hq with hq | hq
    · exact h.noInsert nick otp call hq
    · cases List.mem_singleton.mp hq
  · intro user
    rw [haccepted, List.filter_append, List.map_append]
    rcases hmore with rfl | rfl
    · simpa using h.once user
    · by_cases hu : out.collate r.job.nick = user
      · subst hu
        rw [List.filter_cons_of_pos (by simp), List.filter_nil, List.map_singleton]
        refine List.Nodup.append (h.once _) (List.nodup_singleton _) ?_
        intro p hp hp'
        rw [List.mem_singleton.mp hp'] at hp
        obtain ⟨⟨nick, p⟩, ha, hkey⟩ := List.mem_map.mp hp
        obtain ⟨ha, hn⟩ := List.mem_filter.mp ha
        dsimp only at hkey
        subst hkey
        exact haccepting.unused ⟨nick, by simpa using hn, ha⟩
      · rw [List.filter_cons_of_neg (by simpa using hu)]
        simpa using h.once user

omit [DecidableEq ι] [DecidableEq σ] [DecidableEq κ] in
theorem Passes.flight {stage stage' : Stage ι κ} (h : Passes stage stage') :
    stage'.flight = none := by
  cases h <;> rfl

omit [DecidableEq ι] [DecidableEq κ] in
/-- A thread goes on without a row in hand. -/
theorem Flights.land {stage : Stage ι κ} (h : Flights out digestOf s)
    (hf : stage.flight = none) (hstage : s'.stage = Function.update s.stage server stage)
    (haccepted : s'.accepted = s.accepted) (hrow : s'.userauth = s.userauth)
    (hsaves : ∀ nick otp, s'.Saves nick otp ↔ s.Saves nick otp)
    (hinsert : ∀ nick otp call, .insert nick otp call ∈ s'.queue →
      .insert nick otp call ∈ s.queue)
    (hotp : ∀ x, (s'.mem x).otp = (s.mem x).otp) : Flights out digestOf s' :=
  h.goto hstage haccepted hrow hsaves hinsert (fun _ x _ _ ↦ by rw [hotp])
    (fun _ _ x _ _ ↦ by rw [hotp]) (fun r hr ↦ by rw [hf] at hr; cases hr)
    (Stage.flies_of_flight hf)

omit [DecidableEq ι] [DecidableEq σ] [DecidableEq κ] in
theorem Threads.saves_enqueue_get {nick' : CString} (nick : CString) (otp : Otp) :
    (s.enqueue (.get server nick')).Saves nick otp ↔ s.Saves nick otp := by
  constructor
  · intro h
    exact h.of_enqueue.resolve_right fun h ↦ by cases h
  · rintro ⟨query, hq, hs⟩
    exact ⟨query, List.mem_append_left _ hq, hs⟩

omit [DecidableEq ι] [DecidableEq σ] [DecidableEq κ] in
theorem Threads.insert_of_enqueue {query : Query ι σ κ} {nick : CString} {otp : Otp}
    {call : Call ι κ} (h : .insert nick otp call ∈ (s.enqueue query).queue)
    (hq : query ≠ .insert nick otp call) : .insert nick otp call ∈ s.queue := by
  rcases List.mem_append.mp h with h | h
  · exact h
  · exact absurd (List.mem_singleton.mp h).symm hq

theorem Flights.thread (h : Flights out digestOf s) (hl : Listed s) (hk : Keeps out.opie s)
    (hd : Digests out digestOf s)
    (hcollate : ∀ a b, sameIgnoringCase a b = true → out.collate a = out.collate b)
    (hback : ∀ key, out.opie.atob8 (out.opie.btoa8 key) = some key)
    (hu : Unrepeated out s (.thread server)) (hm : ThreadMove out s server s') :
    Flights out digestOf s' := by
  have hflies := h.flies server
  have hkept := hk server
  cases hm with
  | pass hp =>
      exact h.land hp.flight rfl rfl rfl (fun _ _ ↦ .rfl) (fun _ _ _ hq ↦ hq) fun _ ↦ rfl
  | ask hs hc halg hv =>
      exact h.land rfl rfl rfl rfl Threads.saves_enqueue_get
        (fun _ _ _ hq ↦ Threads.insert_of_enqueue hq (by rintro ⟨⟩)) fun _ ↦ rfl
  | logoff hs ha =>
      exact h.land rfl rfl rfl rfl (fun _ _ ↦ .rfl) (fun _ _ _ hq ↦ hq)
        (Threads.write_otp (logOff_otp _ _))
  | add hs hsweep =>
      exact h.land rfl rfl rfl rfl (fun _ _ ↦ .rfl) (fun _ _ _ hq ↦ hq)
        (Threads.write_otp (pose_otp _ _ _))
  | agree hs hu =>
      rename_i r mode new
      have hb : (s.stage server).busy = some (r.job, r.auth) := (congrArg Stage.busy hs).trans rfl
      have hold := hkept _ _ hb
      rw [hs] at hflies hold
      obtain ⟨hsettled, row, hrow, hhash⟩ := hflies
      refine h.goto rfl rfl rfl (fun _ _ ↦ .rfl) (fun _ _ _ hq ↦ hq) (fun _ _ _ _ ↦ rfl)
        (fun _ _ _ _ _ ↦ rfl) (fun r' hr' ↦ (congrArg Stage.flight hs).trans hr') ?_
      refine ⟨hsettled, row, hrow, ?_⟩
      simp only [unchanged, Bool.and_eq_true, beq_iff_eq] at hu
      rw [← hhash, hu.1.2, hold.1]
  | rewrite hr => exact h.rewrite hl hk hd hcollate hu hr
  | store hs =>
      exact h.store hback hs (.inr rfl) (fun r' hr' ↦ by cases hr') rfl rfl rfl rfl rfl trivial
  | storeFirst hs =>
      rename_i r hex rest
      rw [hs] at hflies
      obtain ⟨ha, key, hbelow, hkey, hhash⟩ := hflies
      refine h.store hback hs (.inl rfl) (fun r' hr' ↦ ?_) rfl (List.append_nil _).symm rfl rfl rfl
        ?_
      · cases hr'
        rfl
      · refine ⟨ha.alg, ha.row, ha.unused, fun nick otp hq hn ↦ ?_, ha.unrepeated⟩
        rcases Threads.Saves.of_enqueue (s := s) hq with hq | hq
        · exact ha.saves nick otp hq hn
        · cases hq
          rw [hhash, hkey (by rintro ⟨⟩)]
  | settle hs =>
      exact h.land rfl rfl rfl rfl (fun _ _ ↦ .rfl) (fun _ _ _ hq ↦ hq)
        (Threads.write_otp (settle_otp _ _ _))

omit [DecidableEq ι] [DecidableEq σ] [DecidableEq κ] in
/-- The query thread takes a query that saves nothing, or that goes on to save. -/
theorem Threads.saves_take {query : Query ι σ κ} {queue : List (Query ι σ κ)}
    (hq : s.queue = query :: queue) (nick : CString) (otp : Otp) :
    s.Saves nick otp ↔ query.saves = some (nick, otp) ∨ Saves { s with queue } nick otp := by
  unfold Saves
  rw [hq]
  simp

theorem Flights.query {malloc : ι} (h : Flights out digestOf s) (hl : Listed s)
    (ha : Asks s) (hstores : Stores out.opie s) (hone : OneAtATime out s (.execute malloc))
    (hm : QueryMove out s malloc s') : Flights out digestOf s' := by
  have insert_of {query : Query ι σ κ} {queue : List (Query ι σ κ)}
      (hq : s.queue = query :: queue) {nick : CString} {otp : Otp} {call : Call ι κ}
      (hi : .insert nick otp call ∈ queue) : .insert nick otp call ∈ s.queue := by
    rw [hq]
    exact List.mem_cons_of_mem _ hi
  have saves_get {server : σ} {nick : CString} {queue : List (Query ι σ κ)}
      (hq : s.queue = .get server nick :: queue) (nick' : CString) (otp : Otp) :
      Threads.Saves { s with queue } nick' otp ↔ s.Saves nick' otp := by
    rw [Threads.saves_take hq]
    exact (or_iff_right fun h ↦ by cases h).symm
  cases hm with
  | noRow hq hrow hd =>
      refine h.land ?_ rfl rfl rfl (saves_get hq) (fun _ _ _ ↦ insert_of hq) fun _ ↦ rfl
      generalize s.stage _ = stage at hd
      cases hd <;> rfl
  | row hq hrow hlive hd =>
      rename_i server nick queue stage row
      have hnick := ha.nick server nick (by rw [hq]; exact List.mem_cons_self)
      have hne {x : ι} (hx : s.live x = true) : x ≠ malloc := by
        rintro rfl
        rw [hlive] at hx
        cases hx
      have hfresh (t : σ) (x : ι) (hx : (s.stage t).fresh = some x) : x ≠ malloc :=
        hne (hl.fresh t x hx).1
      have hbusy (t : σ) (job : Job) (x : ι) (hx : (s.stage t).busy = some (job, x)) :
          x ≠ malloc := hne (hl.live x (hl.busy_mem hx))
      cases hst : s.stage server with
      | asking job =>
          rw [hst] at hd
          cases hd
          exact h.goto rfl rfl rfl (saves_get hq) (fun _ _ _ ↦ insert_of hq)
            (fun t x _ hx ↦ by simp [Function.update_of_ne (hfresh t x hx)])
            (fun t job x _ hx ↦ by simp [Function.update_of_ne (hbusy t job x hx)])
            (fun r hr ↦ by cases hr) trivial
      | checking r mode =>
          rw [hst] at hd hnick
          cases hd
          cases hnick
          obtain ⟨hsettled, hothers⟩ := hone server r mode r.job.nick queue hst hq
          refine h.quiet rfl rfl (saves_get hq) (fun _ _ _ ↦ insert_of hq) ?_ fun t ↦ ?_
          · intro t t' r₁ r₂ h₁ h₂ hn
            rw [Threads.goto_stage] at h₁ h₂
            by_cases hts : t = server
            · by_cases hts' : t' = server
              · rw [hts, hts']
              · rw [hts, Function.update_self] at h₁
                cases h₁
                rw [Function.update_of_ne hts'] at h₂
                exact absurd hn.symm (hothers t' r₂ h₂)
            · rw [Function.update_of_ne hts] at h₁
              by_cases hts' : t' = server
              · rw [hts', Function.update_self] at h₂
                cases h₂
                exact absurd hn (hothers t r₁ h₁)
              · rw [Function.update_of_ne hts'] at h₂
                exact h.alone t t' r₁ r₂ h₁ h₂ hn
          · rw [Threads.goto_stage]
            by_cases hts : t = server
            · rw [hts, Function.update_self]
              refine ⟨fun nick otp hs ↦ hsettled nick otp ((saves_get hq _ _).mp hs), row, hrow, ?_⟩
              simp [AuthData.ofRow]
            · rw [Function.update_of_ne hts]
              exact (h.flies t).congr (fun _ _ _ hp ↦ hp)
                (fun _ _ _ _ _ ↦ (saves_get hq _ _).mp) (fun _ _ ↦ .inl rfl)
                (fun x hx ↦ by simp [Function.update_of_ne (hfresh t x hx)])
                fun job x hx ↦ by simp [Function.update_of_ne (hbusy t job x hx)]
      | _ =>
          rw [hst] at hd
          cases hd
  | chainUpdate hq hrow =>
      rename_i nick x call queue
      have hsaves (nick' : CString) (otp : Otp) :
          (Threads.enqueue { s with queue } (.update nick (s.mem x).otp call)).Saves nick' otp ↔
            s.Saves nick' otp := by
        rw [Threads.saves_take hq]
        constructor
        · intro hs
          exact hs.of_enqueue.symm
        · rintro (hs | ⟨query, hmem, hs⟩)
          · exact ⟨_, List.mem_append_right _ (List.mem_singleton_self _), hs⟩
          · exact ⟨query, List.mem_append_left _ hmem, hs⟩
      refine h.quiet rfl rfl hsaves ?_ h.alone fun t ↦ ?_
      · exact fun _ _ _ hi ↦ insert_of hq (Threads.insert_of_enqueue (s := { s with queue }) hi
          (by rintro ⟨⟩))
      · exact (h.flies t).congr (fun _ _ _ hp ↦ hp) (fun _ _ _ _ _ ↦ (hsaves _ _).mp)
          (fun _ _ ↦ .inl rfl) (fun _ _ ↦ rfl) fun _ _ _ ↦ rfl
  | chainInsert hq hrow =>
      rename_i nick x call queue
      have hsome := (h.ahead nick call.otp ((Threads.saves_take hq _ _).mpr (.inl rfl))).2
      rw [hrow] at hsome
      cases hsome
  | update hq =>
      rename_i nick otp call queue
      have hotp : otp = call.otp :=
        (hstores.sound (.update nick otp call) (by rw [hq]; exact List.mem_cons_self)).2
      have hhead : s.Saves nick call.otp := (Threads.saves_take hq _ _).mpr (.inl rfl)
      have htail {nick' : CString} {otp' : Otp} (hs : Threads.Saves { s with queue } nick' otp') :
          s.Saves nick' otp' := (Threads.saves_take hq _ _).mpr (.inr hs)
      have hsome {user : CString} (hu : (s.userauth user).isSome) :
          (Function.update s.userauth (out.collate nick)
            ((s.userauth (out.collate nick)).map fun row ↦ (row.1, otp)) user).isSome := by
        by_cases hn : user = out.collate nick
        · subst hn
          rw [Function.update_self, Option.isSome_map]
          exact hu
        · rwa [Function.update_of_ne hn]
      refine ⟨h.alone, fun t ↦ ?_, ?_, ?_, ?_, h.once⟩
      · refine (h.flies t).congr (fun _ _ _ hp ↦ hp) (fun _ _ _ _ _ ↦ htail) (fun r hr ↦ ?_)
          (fun _ _ ↦ rfl) fun _ _ _ ↦ rfl
        by_cases hn : out.collate r.job.nick = out.collate nick
        · refine .inr ⟨fun hs ↦ hs nick _ hhead hn.symm, hsome ?_⟩
          rw [hn]
          exact (h.ahead nick _ hhead).2
        · exact .inl (Function.update_of_ne hn ..)
      · exact fun nick' otp' hs ↦ ⟨(h.ahead nick' otp' (htail hs)).1,
          hsome (h.ahead nick' otp' (htail hs)).2⟩
      · intro user row hrow hsettled
        dsimp only at hrow
        by_cases hn : user = out.collate nick
        · subst hn
          rw [Function.update_self] at hrow
          obtain ⟨old, -, rfl⟩ := Option.map_eq_some_iff.mp hrow
          rw [hotp]
          exact (h.ahead nick _ hhead).1
        · rw [Function.update_of_ne hn] at hrow
          refine h.settled user row hrow fun nick' otp' hs ↦ ?_
          rcases (Threads.saves_take hq _ _).mp hs with hs | hs
          · cases hs
            exact fun e ↦ hn e.symm
          · exact hsettled nick' otp' hs
      · exact fun _ _ _ hi ↦ h.noInsert _ _ _ (insert_of hq hi)
  | insert hq =>
      exact absurd (by rw [hq]; exact List.mem_cons_self) (h.noInsert _ _ _)

theorem Flights.step {e : Step ι σ} (h : Flights out digestOf s) (hl : Listed s)
    (hk : Keeps out.opie s) (hstores : Stores out.opie s) (ha : Asks s)
    (hd : Digests out digestOf s)
    (hcollate : ∀ a b, sameIgnoringCase a b = true → out.collate a = out.collate b)
    (hback : ∀ key, out.opie.atob8 (out.opie.btoa8 key) = some key)
    (hone : OneAtATime out s e) (hu : Unrepeated out s e)
    (he : (threads ι σ κ out).step s e = some s') : Flights out digestOf s' := by
  have sweep (hm : SweepMove s s') : Flights out digestOf s' := by
    cases hm with
    | expire hs =>
        rename_i now x rest
        refine h.quiet rfl rfl (fun _ _ ↦ .rfl) (fun _ _ _ hi ↦ hi) h.alone fun t ↦ ?_
        have hotp := Threads.write_otp (s := s) (x := x) (expire_otp (s.mem x))
        exact (h.flies t).congr (fun _ _ _ hp ↦ hp) (fun _ _ _ _ _ hq ↦ hq)
          (fun _ _ ↦ .inl rfl) (fun y _ ↦ congrArg Otp.hash (hotp y))
          fun _ y _ ↦ congrArg Otp.hash (hotp y)
    | start | inTime | finish =>
        refine h.quiet rfl rfl (fun _ _ ↦ .rfl) (fun _ _ _ hi ↦ hi) h.alone fun t ↦ ?_
        exact (h.flies t).congr (fun _ _ _ hp ↦ hp) (fun _ _ _ _ _ hq ↦ hq)
          (fun _ _ ↦ .inl rfl) (fun _ _ ↦ rfl) fun _ _ _ ↦ rfl
  cases e with
  | message server job =>
      cases message_move he with
      | found hs hsweep hx =>
          exact h.land rfl rfl rfl rfl (fun _ _ ↦ .rfl) (fun _ _ _ hq ↦ hq) fun _ ↦ rfl
      | ask hs hx =>
          exact h.land rfl rfl rfl rfl Threads.saves_enqueue_get
            (fun _ _ _ hq ↦ Threads.insert_of_enqueue hq (by rintro ⟨⟩)) fun _ ↦ rfl
  | thread server => exact h.thread hl hk hd hcollate hback hu (threadStep_move he)
  | execute malloc => exact h.query hl ha hstores hone (execute_move he)
  | sweepBegin now => exact sweep (sweepBegin_move he)
  | sweepMark => exact sweep (sweepMark_move he)
  | sweepReap =>
      cases sweepReap_move he with
      | reap | keep =>
          refine h.quiet rfl rfl (fun _ _ ↦ .rfl) (fun _ _ _ hi ↦ hi) h.alone fun t ↦ ?_
          exact (h.flies t).congr (fun _ _ _ hp ↦ hp) (fun _ _ _ _ _ hq ↦ hq)
            (fun _ _ ↦ .inl rfl) (fun _ _ ↦ rfl) fun _ _ _ ↦ rfl
  | sweepEnd => exact sweep (sweepEnd_move he)

/-- The steps of the runs below. -/
def Orderly (out : Outside κ) (s : Threads ι σ κ) (e : Step ι σ) : Prop :=
  Undisturbed s e ∧ OneAtATime out s e ∧ Unrepeated out s e

omit [DecidableEq ι] [DecidableEq σ] [DecidableEq κ] in
theorem Flights.init (hidle : ∀ server, s.stage server = .idle) (hqueue : s.queue = [])
    (haccepted : s.accepted = []) : Flights out digestOf s := by
  have unused (user : CString) (p : κ) : ¬ s.Used out user p := by
    rintro ⟨nick, -, hp⟩
    rw [haccepted] at hp
    cases hp
  refine ⟨?_, ?_, ?_, ?_, ?_, ?_⟩
  · intro t t' r r' hr
    rw [hidle] at hr
    cases hr
  · intro t
    rw [hidle]
    trivial
  · rintro nick otp ⟨query, hq, -⟩
    rw [hqueue] at hq
    cases hq
  · exact fun user row hrow hs p hp ↦ absurd hp (unused user p)
  · intro nick otp call hq
    rw [hqueue] at hq
    cases hq
  · intro user
    rw [haccepted]
    exact List.nodup_nil

/-- **Replay.**  In every run in which no two responses for one user are between the row and its
write, and what is queued stays as it is, no password is accepted twice. -/
theorem accepted_once_run
    (hcollate : ∀ a b, sameIgnoringCase a b = true → out.collate a = out.collate b)
    (hback : ∀ key, out.opie.atob8 (out.opie.btoa8 key) = some key)
    (h : (threads ι σ κ out).ReachableVia (Orderly out) s) : AcceptedOnce out s := by
  have hinv : (Listed s ∧ Keeps out.opie s ∧ Stores out.opie s) ∧ Asks s ∧
      ∃ digestOf, Digests out digestOf s ∧ Flights out digestOf s := by
    refine h.invariant (I := fun s ↦ (Listed s ∧ Keeps out.opie s ∧ Stores out.opie s) ∧ Asks s ∧
      ∃ digestOf, Digests out digestOf s ∧ Flights out digestOf s) ?_ ?_
    · intro s hs
      refine ⟨stores_reachable (.init hs), ?_⟩
      obtain ⟨hlist, hsweep, hidle, hqueue, hstored, haccepted, hrows⟩ := hs
      refine ⟨⟨?_, ?_⟩, fun user ↦ ((s.userauth user).map (·.2.digest)).getD [], ⟨?_, ?_, ?_⟩,
        .init hidle hqueue haccepted⟩
      · intro server nick hq
        rw [hqueue] at hq
        cases hq
      · rw [hqueue]
        exact List.nodup_nil
      · intro user row hrow
        exact ⟨hrows user row hrow, by rw [hrow]; rfl⟩
      · rintro x (hx | ⟨server, hx⟩)
        · rw [hlist] at hx
          cases hx
        · rw [hidle] at hx
          cases hx
      · rintro nick otp ⟨query, hq, -⟩
        rw [hqueue] at hq
        cases hq
    · rintro s e s' ⟨⟨hl, hk, hs⟩, ha, digestOf, hd, hf⟩ ⟨hc, hone, hu⟩ he
      exact ⟨⟨hl.step hc.spares he, hk.step hl he, hs.step hl hk hc he⟩, ha.step he, digestOf,
        hd.step hl hs hcollate he, hf.step hl hk hs ha hd hcollate hback hone hu he⟩
  obtain ⟨-, -, digestOf, -, hf⟩ := hinv
  exact hf.once

end Steps

/-! ## A password that is sent on two servers -/

/-- Whether a step is in order, without the sweep and without init responses. -/
def inOrder (s : Threads ℕ Bool KeyText) (e : Step ℕ Bool) : Bool :=
  leaves s e &&
    match e with
    | .thread server =>
        match s.stage server with
        | .counting r _ => r.key == sampleKey
        | .reseeding _ _ _ _ => false
        | _ => true
    | .execute _ => s.queue.tail.all (fun query ↦ query.saves.isNone) &&
        (s.stage true).flight.isNone && (s.stage false).flight.isNone
    | _ => true

theorem sampleKey_unrepeated (alg : ℕ) : ¬ sampleOpie.Above alg sampleKey sampleKey := by
  have hchain (key : KeyText) (h : sampleOpie.Above alg sampleKey key) : key ≠ sampleKey := by
    have hhash (p : KeyText) : sampleOpie.hash p alg ≠ sampleKey := by
      simp only [sampleOpie]
      split <;> decide
    cases h with
    | single h => exact h ▸ hhash _
    | tail h h' => exact h' ▸ hhash _
  exact fun h ↦ hchain sampleKey h rfl

theorem orderly_of_inOrder {s : Threads ℕ Bool KeyText} {e : Step ℕ Bool}
    (h : inOrder s e = true) : Orderly sampleOutside s e := by
  simp only [inOrder, Bool.and_eq_true] at h
  obtain ⟨hleaves, h⟩ := h
  refine ⟨undisturbed_of_leaves hleaves, ?_, ?_⟩
  · cases e with
    | execute malloc =>
        simp only [Bool.and_eq_true, Option.isNone_iff_eq_none, List.all_eq_true] at h
        obtain ⟨⟨hqueue, htrue⟩, hfalse⟩ := h
        intro server r mode nick queue hs hq
        constructor
        · rintro nick' otp ⟨query, hmem, hsaves⟩
          rw [hq] at hmem hqueue
          rcases List.mem_cons.mp hmem with rfl | hmem
          · cases hsaves
          · rw [hqueue query hmem] at hsaves
            cases hsaves
        · intro t r' hr'
          cases t
          · rw [hfalse] at hr'
            cases hr'
          · rw [htrue] at hr'
            cases hr'
    | _ => trivial
  · cases e with
    | thread server =>
        dsimp only at h
        simp only [Unrepeated]
        split at h
        · rename_i r mode hs
          simp only [hs, beq_iff_eq.mp h]
          exact sampleKey_unrepeated r.alg
        · cases h
        · rename_i hcounting hreseeding
          split
          · rename_i hs
            exact absurd hs (hcounting _ _)
          · rename_i hs
            exact absurd hs (hreseeding _ _ _ _)
          · trivial
    | _ => trivial

/-- The user is authenticated on one server, and the password is rejected on the other. -/
theorem accepted_once_run_ann :
    ∃ s, (threads ℕ Bool KeyText sampleOutside).ReachableVia (Orderly sampleOutside) s ∧
      s.accepted = [(['a', 'n', 'n'], sampleKey)] ∧
      s.stage true = .replying sampleAnswer 1 false ∧ AcceptedOnce sampleOutside s := by
  have hrun : (((threads ℕ Bool KeyText sampleOutside).guard inOrder).run sampleStart
      (askEvents false 0 ++ [.message false sampleAnswer, .thread false, .execute 1,
        .thread false, .thread false, .thread false, .thread false, .execute 1, .execute 1] ++
        askEvents true 1 ++ [.message true sampleAnswer, .thread true, .thread true])).map
        (fun s ↦ (s.accepted, s.stage true)) =
      some ([(['a', 'n', 'n'], sampleKey)], .replying sampleAnswer 1 false) := by
    rfl
  obtain ⟨s, hs, heq⟩ := Option.map_eq_some_iff.mp hrun
  obtain ⟨haccepted, hstage⟩ := Prod.mk.inj heq
  have hreach : (threads ℕ Bool KeyText sampleOutside).ReachableVia (Orderly sampleOutside) s :=
    System.reachableVia_of_run (fun _ _ ↦ orderly_of_inOrder) sampleStart_init hs
  refine ⟨s, hreach, haccepted, hstage, accepted_once_run ?_ ?_ hreach⟩
  · intro a b hab
    exact sameIgnoringCase_iff.mp hab
  · intro key
    exact dif_pos key.2

/-- Both threads read the row before one of them has written it. -/
theorem not_accepted_once :
    ¬ ∀ s, (threads ℕ Bool KeyText sampleOutside).Reachable s → AcceptedOnce sampleOutside s := by
  intro h
  have hrun : ((threads ℕ Bool KeyText sampleOutside).run sampleStart
      (askEvents false 0 ++ askEvents true 1 ++ [.message false sampleAnswer,
        .message true sampleAnswer, .thread false, .thread true, .execute 2, .execute 3,
        .thread false, .thread false, .thread false, .thread false, .thread true, .thread true,
        .thread true, .thread true])).map (fun s ↦ s.accepted) =
      some [(['a', 'n', 'n'], sampleKey), (['a', 'n', 'n'], sampleKey)] := by
    rfl
  obtain ⟨s, hs, haccepted⟩ := Option.map_eq_some_iff.mp hrun
  have honce := h s (System.reachable_of_run sampleStart_init hs) ['a', 'n', 'n']
  rw [haccepted] at honce
  revert honce
  decide

end Beirdobot.Auth
