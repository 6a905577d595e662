import Beirdobot.Libopie.Challenge
import Beirdobot.Library.Regex

/-!
# Logging in with one-time passwords

The other party of the protocol: users who answer the challenges of `auth_user_challenge` with
`opiekey`, log in again and again, and begin new chains of passwords.  `authUserVerify` is
`auth_user_verify` where nothing else writes to its record meanwhile, and a thread that is not
interrupted does what it does.
-/

namespace Beirdobot.Auth

open Library Libopie

/-- The part of `auth_user_verify` that begins a new chain: its value, and what the record holds. -/
def renew {κ : Type} (o : Opie κ) (auth : Otp) (alg : ℕ) (hex : Bool) (rest : CString) :
    Bool × Otp :=
  match splitColon rest with
  | (_, none) => (false, auth)
  | (c, some c2) =>
      match o.parseChallenge c with
      | .failed sequence => (false, { auth with count := sequence.getD auth.count })
      | .parsed count j seed k =>
          if j != alg || k then (false, { auth with count })
          else
            match o.decode hex c2 with
            | none => (false, { auth with count, seed })
            | some key => (true, { auth with count, seed, hash := o.btoa8 key })

/-- `auth_user_verify`, for a record and the row of `userauth` that `changed` finds: its value, what
the record holds then, and the row when the queries of `db_set_auth` are executed after it. -/
def authUserVerify {κ : Type} [DecidableEq κ] (o : Opie κ) (auth row : Otp)
    (response : Option CString) : Bool × Otp × Otp :=
  match verdict o auth response with
  | (_, .rejected) => (false, auth, row)
  | (_, .password key) =>
      if unchanged row auth then
        let auth := { auth with count := auth.count - 1, hash := o.btoa8 key }
        (true, auth, auth)
      else (false, auth, row)
  | (alg, .renewal key hex rest) =>
      if unchanged row auth then
        let result := renew o { auth with count := auth.count - 1, hash := o.btoa8 key } alg hex rest
        (result.1, result.2, result.2)
      else (false, auth, row)

/-! ## Threads that are not interrupted -/

section Alone

variable {ι σ κ : Type} [DecidableEq ι] [DecidableEq σ] [DecidableEq κ] {out : Outside κ}
variable {s : Threads ι σ κ} {server : σ} {job : Job} {x malloc : ι} {username : CString} {row : Otp}

/-- A thread is past `auth_user_verify`, with its value, what the record holds, and the row. -/
def Verified (out : Outside κ) (s : Threads ι σ κ) (server : σ) (job : Job) (x : ι)
    (username : CString) (result : Bool × Otp × Otp) : Prop :=
  s.stage server = .verified job x result.1 ∧ (s.mem x).otp = result.2.1 ∧
    s.userauth (out.collate job.nick) = some (username, result.2.2)

/-- The thread of a server has found its record, and nothing else is going on. -/
structure Alone (out : Outside κ) (s : Threads ι σ κ) (server : σ) (job : Job) (x malloc : ι)
    (username : CString) (row : Otp) : Prop where
  stage : s.stage server = .found job x
  state : (s.mem x).state = .challenge
  queue : s.queue = []
  userauth : s.userauth (out.collate job.nick) = some (username, row)
  notLive : s.live malloc = false
  ne : malloc ≠ x

section Verifying

variable {alg : ℕ} {key : κ} {hex : Bool} {rest : CString}

theorem Alone.rejected (h : Alone out s server job x malloc username row)
    (hverdict : verdict out.opie (s.mem x).otp job.msg = (alg, .rejected)) :
    ∃ es s', (threads ι σ κ out).run s es = some s' ∧
      Verified out s' server job x username (false, (s.mem x).otp, row) := by
  refine ⟨[.thread server], ?_⟩
  simp [threads, threadStep, dispatch, h.stage, h.state, hverdict, Verified, h.userauth]

theorem Alone.changed (h : Alone out s server job x malloc username row)
    (hgoes : (verdict out.opie (s.mem x).otp job.msg).2 ≠ .rejected)
    (hchanged : unchanged row (s.mem x).otp = false) :
    ∃ es s', (threads ι σ κ out).run s es = some s' ∧
      Verified out s' server job x username (false, (s.mem x).otp, row) := by
  refine ⟨[.thread server, .execute malloc, .thread server], ?_⟩
  cases hverdict : verdict out.opie (s.mem x).otp job.msg with
  | mk alg v =>
      rw [hverdict] at hgoes
      cases v with
      | rejected => exact absurd rfl hgoes
      | password | renewal =>
          simp [threads, threadStep, dispatch, execute, resultGetAuth, h.stage, h.state, h.queue,
            h.notLive, h.userauth, h.ne.symm, hverdict, hchanged, Verified]

theorem Alone.password (h : Alone out s server job x malloc username row)
    (hverdict : verdict out.opie (s.mem x).otp job.msg = (alg, .password key))
    (hunchanged : unchanged row (s.mem x).otp = true) :
    ∃ es s', (threads ι σ κ out).run s es = some s' ∧
      Verified out s' server job x username (authUserVerify out.opie (s.mem x).otp row job.msg) := by
  refine ⟨[.thread server, .execute malloc, .thread server, .thread server, .thread server,
    .thread server, .execute malloc, .execute malloc], ?_⟩
  simp [threads, threadStep, dispatch, execute, resultGetAuth, h.stage, h.state, h.queue, h.notLive,
    h.userauth, h.ne.symm, hverdict, hunchanged, Verified, authUserVerify]

/-- A response that renews the chain, up to the first `db_set_auth`. -/
theorem Alone.renewing (h : Alone out s server job x malloc username row)
    (hverdict : verdict out.opie (s.mem x).otp job.msg = (alg, .renewal key hex rest))
    (hunchanged : unchanged row (s.mem x).otp = true) :
    ∃ es r s', (threads ι σ κ out).run s es = some s' ∧ r.alg = alg ∧ r.job = job ∧ r.auth = x ∧
      s'.stage server = .renewing r hex rest ∧
      (s'.mem x).otp = { (s.mem x).otp with
        count := (s.mem x).otp.count - 1
        hash := out.opie.btoa8 key } ∧
      (∃ call, s'.queue = [.set job.nick x call]) ∧
      s'.userauth (out.collate job.nick) = some (username, row) := by
  refine ⟨[.thread server, .execute malloc, .thread server, .thread server, .thread server,
    .thread server], ⟨job, x, alg, key, (s.mem x).otp⟩, ?_⟩
  simp [threads, threadStep, dispatch, execute, resultGetAuth, h.stage, h.state, h.queue, h.notLive,
    h.userauth, h.ne.symm, hverdict, hunchanged]

/-- The rest of it. -/
theorem run_renew {r : Response ι κ} (hstage : s.stage server = .renewing r hex rest)
    (hqueue : ∃ call, s.queue = [.set r.job.nick r.auth call])
    (hrow : s.userauth (out.collate r.job.nick) = some (username, row)) :
    ∃ es s', (threads ι σ κ out).run s es = some s' ∧
      Verified out s' server r.job r.auth username
        ((renew out.opie (s.mem r.auth).otp r.alg hex rest).1,
          (renew out.opie (s.mem r.auth).otp r.alg hex rest).2,
          (renew out.opie (s.mem r.auth).otp r.alg hex rest).2) := by
  obtain ⟨call, hqueue⟩ := hqueue
  cases hsplit : splitColon rest with
  | mk c c2 =>
      cases c2 with
      | none =>
          refine ⟨[.thread server, .execute r.auth, .execute r.auth], ?_⟩
          simp [threads, threadStep, execute, hstage, hqueue, hrow, hsplit, Verified, renew]
      | some c2 =>
          cases hparse : out.opie.parseChallenge c with
          | failed sequence =>
              refine ⟨[.thread server, .execute r.auth, .execute r.auth], ?_⟩
              simp [threads, threadStep, execute, hstage, hqueue, hrow, hsplit, hparse, Verified,
                renew]
          | parsed count j seed k =>
              by_cases halg : j ≠ r.alg ∨ k = true
              · refine ⟨[.thread server, .execute r.auth, .execute r.auth], ?_⟩
                simp [threads, threadStep, execute, hstage, hqueue, hrow, hsplit, hparse, halg,
                  Verified, renew]
              · obtain ⟨rfl, hk⟩ : j = r.alg ∧ k = false := by simpa [not_or] using halg
                cases hdecode : out.opie.decode hex c2 with
                | none =>
                    refine ⟨[.thread server, .thread server, .execute r.auth, .execute r.auth], ?_⟩
                    simp [threads, threadStep, execute, hstage, hqueue, hrow, hsplit, hparse, hk,
                      hdecode, Verified, renew]
                | some key =>
                    refine ⟨[.thread server, .thread server, .thread server, .thread server,
                      .execute r.auth, .execute r.auth, .execute r.auth, .execute r.auth], ?_⟩
                    simp [threads, threadStep, execute, hstage, hqueue, hrow, hsplit, hparse, hk,
                      hdecode, Verified, renew]

end Verifying

/-- A thread that is not interrupted, and then the query thread, do what `auth_user_verify` does. -/
theorem thread_authUserVerify (h : Alone out s server job x malloc username row) :
    ∃ es s', (threads ι σ κ out).run s es = some s' ∧
      Verified out s' server job x username (authUserVerify out.opie (s.mem x).otp row job.msg) := by
  cases hverdict : verdict out.opie (s.mem x).otp job.msg with
  | mk alg v =>
      cases hunchanged : unchanged row (s.mem x).otp with
      | false =>
          cases v with
          | rejected =>
              rw [authUserVerify, hverdict]
              exact h.rejected hverdict
          | password key | renewal key hex rest =>
              have hchanged := h.changed (by rw [hverdict]; simp) hunchanged
              simp only [authUserVerify, hverdict, hunchanged, Bool.false_eq_true, if_false]
              exact hchanged
      | true =>
          cases v with
          | rejected =>
              rw [authUserVerify, hverdict]
              exact h.rejected hverdict
          | password key => exact h.password hverdict hunchanged
          | renewal key hex rest =>
              obtain ⟨es, r, s₁, hrun, rfl, rfl, rfl, hstage, hotp, hqueue, hrow⟩ :=
                h.renewing hverdict hunchanged
              obtain ⟨es', s', hrun', hverified⟩ := run_renew hstage hqueue hrow
              rw [hotp] at hverified
              refine ⟨es ++ es', s', ?_, ?_⟩
              · rw [System.run_append, hrun]
                exact hrun'
              · simp only [authUserVerify, hverdict, hunchanged, if_true]
                exact hverified

end Alone

/-! ## Logging in again and again -/

/-- A user with a row in `userauth`: the pass phrase, and the verdicts on the responses. -/
structure Account where
  row : Otp
  secret : CString
  verdicts : List Bool

/-- Whether a response begins a new chain. -/
def renews : ResponseType → Bool
  | .initHex | .initWord => true
  | _ => false

variable (stack stack' : Bytes) (d : Digests)

/-- The user reads the challenge that `auth_user_challenge` sends for the row, and `opiekey` makes
the response. -/
def login (s : Account) (r : Request) : Option Account :=
  match opieparsechallenge ((challengeText s.row).drop "otp-".length) with
  | .failed _ => none
  | .parsed sequence algorithm seed _ => do
      let response ← opiekey stack d algorithm sequence seed r
      let (ok, _, row) := authUserVerify (libopie stack' d) s.row s.row (some response)
      some ⟨row, if renews r.type then r.newsecret else s.secret, s.verdicts ++ [ok]⟩

/-- The row has the last password of a chain of the pass phrase. -/
structure InSync (d : Digests) (otp : Otp) (secret : CString) : Prop where
  chain : ∃ alg key, (otp.digest, alg) ∈ algorithms ∧
    hashed d alg otp.seed secret otp.count.toNat = some key ∧ otp.hash = opiebtoa8 key
  seed : Seed otp.seed
  count : 1 ≤ otp.count ∧ otp.count ≤ 10000
  secret : opiepasscheck secret = false

/-- A row that was made for the user. -/
def logins : System Account Request where
  init s := InSync d s.row s.secret ∧ s.verdicts = []
  step := login stack stack' d

/-- The user knows the pass phrase, and what `opienewseed` makes is a seed. -/
def Honest (s : Account) (r : Request) : Prop :=
  r.secret = s.secret ∧ Seed r.newseed ∧ opiepasscheck r.newsecret = false

section Logins

variable {stack stack' d} {s s' : Account} {r : Request}

theorem splitColon_of_not_mem {text : CString} (h : ':' ∉ text) : splitColon text = (text, none) := by
  have hne : ∀ c ∈ text, (c != ':') = true := fun c hc ↦ bne_iff_ne.mpr (ne_of_mem_of_not_mem hc h)
  rw [splitColon, List.takeWhile_eq_self_iff.mpr hne, List.dropWhile_eq_nil_iff.mpr hne]
  rfl

theorem splitColon_append {text : CString} (h : ':' ∉ text) (rest : CString) :
    splitColon (text ++ ':' :: rest) = (text, some rest) := by
  have hne : ∀ c ∈ text, (c != ':') = true := fun c hc ↦ bne_iff_ne.mpr (ne_of_mem_of_not_mem hc h)
  rw [splitColon, List.takeWhile_append_of_pos hne, List.dropWhile_append_of_pos hne,
    List.takeWhile_cons_of_neg (by decide), List.dropWhile_cons_of_neg (by decide), List.append_nil]
  rfl

/-- The type of a response. -/
theorem splitColon_type (text type : CString) (htext : text = type ++ [':']) (h : ':' ∉ type)
    (rest : CString) : splitColon (text ++ rest) = (type, some rest) := by
  rw [htext, List.append_assoc]
  exact splitColon_append h rest

theorem colon_not_mem_opiebtoe (key : Key) : ':' ∉ opiebtoe stack key := by
  have hword : ∀ start, ':' ∉ (wp (extract (key.withParity stack) start 11)).take 4 := by
    intro start hmem
    have hlt : extract (key.withParity stack) start 11 < 2 ^ 11 :=
      extract_lt _ (show 11 ≤ 16 by decide)
    have hletters := wp_letters hlt
    cases List.all_eq_true.mp hletters.isUpper ':' (List.mem_of_mem_take hmem)
  rw [opiebtoe]
  simp [hword]

theorem colon_not_mem_hexByte : ∀ b : BitVec 8, ':' ∉ (hexByte b).map Char.toUpper := by
  decide +kernel

theorem colon_not_mem_opiebtoh (key : Key) : ':' ∉ opiebtoh key := by
  rw [opiebtoh]
  simp [-List.mem_map, colon_not_mem_hexByte]

theorem etob_opiebtoe (key : Key) : (libopie stack' d).etob (opiebtoe stack key) = some key := by
  rw [libopie]
  simp only [(opieetob_opiebtoe stack' stack key).1]

theorem atob8_opiebtoh (key : Key) : (libopie stack' d).atob8 (opiebtoh key) = some key :=
  (opieatob8_opiebtoa8 key).2.1

theorem decode_opiebtoe (stack stack' : Bytes) (d : Digests) (key : Key) :
    (libopie stack' d).decode false (opiebtoe stack key) = some key := etob_opiebtoe key

theorem decode_opiebtoh (stack' : Bytes) (d : Digests) (key : Key) :
    (libopie stack' d).decode true (opiebtoh key) = some key := atob8_opiebtoh key

theorem algorithmOf_eq : ∀ a ∈ algorithms, algorithmOf a.1 = some a.2 := by
  decide

/-- The row that a key answers. -/
structure Answered (d : Digests) (otp : Otp) (alg : ℕ) (key : Key) : Prop where
  digest : (otp.digest, alg) ∈ algorithms
  hash : otp.hash = opiebtoa8 (d.hash key alg)

theorem answers_self (alg : ℕ) (key : Key) :
    (libopie stack' d).answers alg (d.hash key alg) key = true := by
  rw [Opie.answers, decide_eq_true_iff]
  rfl

section Answered

variable (stack stack') {otp : Otp} {alg : ℕ} {key : Key} (h : Answered d otp alg key)
include h

theorem Answered.algorithmOf : Auth.algorithmOf otp.digest = some alg := algorithmOf_eq _ h.digest

theorem Answered.atob8 : (libopie stack' d).atob8 otp.hash = some (d.hash key alg) := by
  rw [h.hash]
  exact (opieatob8_opiebtoa8 _).1

theorem Answered.standard :
    verdict (libopie stack' d) otp (some (opiebtoe stack key)) = (alg, .password key) := by
  simp only [verdict, h.algorithmOf, h.atob8, splitColon_of_not_mem (colon_not_mem_opiebtoe key),
    Opie.standardKey, etob_opiebtoe, Option.filter_some, answers_self, if_true, Option.some_or,
    Verdict.ofKey]

theorem Answered.word :
    verdict (libopie stack' d) otp (some ("word:".toList ++ opiebtoe stack key)) =
      (alg, .password key) := by
  have hsplit := splitColon_type "word:".toList "word".toList (by decide) (by decide)
    (opiebtoe stack key)
  have htype : responseType "word".toList = .word := by decide
  simp only [verdict, h.algorithmOf, h.atob8, hsplit, htype, etob_opiebtoe, Option.filter_some,
    answers_self, if_true, Verdict.ofKey]

theorem Answered.hex :
    verdict (libopie stack' d) otp (some ("hex:".toList ++ opiebtoh key)) =
      (alg, .password key) := by
  have hsplit := splitColon_type "hex:".toList "hex".toList (by decide) (by decide)
    (opiebtoh key)
  have htype : responseType "hex".toList = .hex := by decide
  simp only [verdict, h.algorithmOf, h.atob8, hsplit, htype, atob8_opiebtoh, Option.filter_some,
    answers_self, if_true, Verdict.ofKey]

theorem Answered.initHex (rest : CString) :
    verdict (libopie stack' d) otp (some ("init-hex:".toList ++ (opiebtoh key ++ ':' :: rest))) =
      (alg, .renewal key true rest) := by
  have hsplit := splitColon_type "init-hex:".toList "init-hex".toList (by decide) (by decide)
    (opiebtoh key ++ ':' :: rest)
  have htype : responseType "init-hex".toList = .initHex := by decide
  simp only [verdict, h.algorithmOf, h.atob8, hsplit, htype, Opie.renewal,
    splitColon_append (colon_not_mem_opiebtoh key), Opie.decode, if_true, atob8_opiebtoh,
    Option.filter_some, answers_self]

theorem Answered.initWord (rest : CString) :
    verdict (libopie stack' d) otp
        (some ("init-word:".toList ++ (opiebtoe stack key ++ ':' :: rest))) =
      (alg, .renewal key false rest) := by
  have hsplit := splitColon_type "init-word:".toList "init-word".toList (by decide) (by decide)
    (opiebtoe stack key ++ ':' :: rest)
  have htype : responseType "init-word".toList = .initWord := by decide
  simp only [verdict, h.algorithmOf, h.atob8, hsplit, htype, Opie.renewal,
    splitColon_append (colon_not_mem_opiebtoe key), Opie.decode, Bool.false_eq_true, if_false,
    etob_opiebtoe, Option.filter_some, answers_self, if_true]

end Answered

theorem unchanged_self (otp : Otp) : unchanged otp otp = true := by
  rw [unchanged, beq_self_eq_true, beq_self_eq_true, beq_self_eq_true]
  rfl

/-- A password answers the row, and the row goes to it. -/
theorem authUserVerify_password {otp : Otp} {alg : ℕ} {key : Key} {response : CString}
    (h : verdict (libopie stack' d) otp (some response) = (alg, .password key)) :
    authUserVerify (libopie stack' d) otp otp (some response) =
      (true, { otp with count := otp.count - 1, hash := opiebtoa8 key },
        { otp with count := otp.count - 1, hash := opiebtoa8 key }) := by
  simp only [authUserVerify, h, unchanged_self, if_true]
  rfl

theorem algids_mem : ∀ a ∈ algorithms, (Libopie.algids a.2, a.2) ∈ algorithms := by
  decide

theorem colon_not_mem_algids (alg : ℕ) : ':' ∉ Libopie.algids alg := by
  unfold Libopie.algids
  split <;> decide

/-- A renewal. -/
theorem authUserVerify_renewal {otp : Otp} {alg : ℕ} {key newkey : Key} {hex : Bool}
    {newseed response newtext : CString} (halg : (otp.digest, alg) ∈ algorithms)
    (hseed : Seed newseed)
    (hnew : (libopie stack' d).decode hex newtext = some newkey)
    (h : verdict (libopie stack' d) otp (some response) = (alg, .renewal key hex
      (Libopie.algids alg ++ " 499 ".toList ++ newseed ++ ':' :: newtext))) :
    authUserVerify (libopie stack' d) otp otp (some response) =
      (true, { otp with count := 499, seed := newseed, hash := opiebtoa8 newkey },
        { otp with count := 499, seed := newseed, hash := opiebtoa8 newkey }) := by
  have hcolon : ':' ∉ Libopie.algids alg ++ " 499 ".toList ++ newseed := by
    rw [List.mem_append, List.mem_append, not_or, not_or]
    exact ⟨⟨colon_not_mem_algids alg, by decide⟩, hseed.noColon⟩
  have hparse : (libopie stack' d).parseChallenge
      (Libopie.algids alg ++ " 499 ".toList ++ newseed) = .parsed 499 alg newseed false := by
    have hrest : ∀ c ∈ ([] : CString).head?, isSpace c = true := fun _ hc ↦ by cases hc
    have heq := opieparsechallenge_eq (algids_mem _ halg) (show 499 ≤ 9999 by decide) hseed hrest
    rw [List.append_nil] at heq
    rw [List.append_assoc]
    exact heq
  simp only [authUserVerify, h, unchanged_self, if_true, renew, splitColon_append hcolon, hparse,
    bne_self_eq_false, Bool.or_false, Bool.false_eq_true, if_false, hnew]
  rfl

/-- The challenge of a row, as the user reads it. -/
theorem parse_challengeText {otp : Otp} {alg : ℕ} (halg : (otp.digest, alg) ∈ algorithms)
    (hseed : Seed otp.seed) (hcount : 1 ≤ otp.count ∧ otp.count ≤ 10000) :
    opieparsechallenge ((challengeText otp).drop "otp-".length) =
      .parsed (otp.count - 1) alg otp.seed false := by
  obtain ⟨n, hn⟩ := Int.eq_ofNat_of_zero_le (show 0 ≤ otp.count - 1 by omega)
  have hdigits : (toString (otp.count - 1)).toList = Nat.toDigits 10 n := by
    rw [hn]
    exact Nat.toList_repr
  have htext : (challengeText otp).drop "otp-".length =
      otp.digest ++ ' ' :: (Nat.toDigits 10 n ++ ' ' :: (otp.seed ++ " ext".toList)) := by
    have hblank : " ".toList = [' '] := by decide
    unfold challengeText
    rw [hdigits, hblank]
    simp only [List.append_assoc]
    rw [← String.length_toList]
    refine List.drop_left.trans ?_
    simp only [List.cons_append, List.nil_append]
  have hhead : " ext".toList.head? = some ' ' := by decide
  rw [htext, opieparsechallenge_eq halg (show n ≤ 9999 by omega) hseed, hn]
  intro c hc
  rw [hhead] at hc
  cases hc
  rfl

theorem hashed_succ {alg : ℕ} {seed secret : CString} {n : ℕ} {key : Key}
    (h : hashed d alg seed secret (n + 1) = some key) :
    ∃ key', hashed d alg seed secret n = some key' ∧ key = d.hash key' alg := by
  obtain ⟨key₀, hkey₀, rfl⟩ := Option.map_eq_some_iff.mp h
  refine ⟨_, Option.map_eq_some_iff.mpr ⟨key₀, hkey₀, rfl⟩, ?_⟩
  exact Function.iterate_succ_apply' ..

/-- What a login with a response comes to. -/
structure LoggedIn (d : Digests) (s : Account) (r : Request) (s' : Account) : Prop where
  verdicts : s'.verdicts = s.verdicts ++ [true]
  inSync : InSync d s'.row s'.secret
  count : s'.row.count = if renews r.type then 499 else s.row.count - 1

/-- A seed can be used. -/
theorem hashed_seed (d : Digests) (alg : ℕ) {seed : CString} (hseed : Seed seed) (secret : CString)
    (n : ℕ) : ∃ key, hashed d alg seed secret n = some key := by
  have hspace : (seed.map Char.toLower).any isSpace = false := by
    rw [List.any_map, List.any_eq_false]
    intro c hc hlower
    have hmem : c.toLower ∈ [' ', '\t', '\n', '\x0b', '\x0c', '\r'] := List.contains_iff_mem.mp hlower
    have hother : c.toLower.isAlpha = false := by
      revert hmem
      generalize c.toLower = a
      intro hmem
      simp only [List.mem_cons, List.not_mem_nil, or_false] at hmem
      rcases hmem with rfl | rfl | rfl | rfl | rfl | rfl <;> rfl
    have hc' := hseed.isSpace c hc
    rw [Regex.eq_of_toLower hother rfl] at hc'
    rw [Function.comp_apply, hc'] at hlower
    cases hlower
  rw [hashed, opiekeycrunch]
  simp only [hspace, Bool.false_eq_true, if_false]
  exact ⟨_, rfl⟩

/-- The user is let in. -/
theorem login_eq (h : InSync d s.row s.secret) (hhonest : Honest s r) (hcount : 2 ≤ s.row.count)
    (htype : r.type ≠ .unknown) :
    ∃ s', login stack stack' d s r = some s' ∧ LoggedIn d s r s' := by
  obtain ⟨⟨alg, lastkey, halg, hlast, hhash⟩, hseed, hcounts, hsecret⟩ := h
  obtain ⟨hrsecret, hnewseed, hnewsecret⟩ := hhonest
  obtain ⟨n, hn⟩ := Int.eq_ofNat_of_zero_le (show 0 ≤ s.row.count - 1 by omega)
  have hsucc : s.row.count.toNat = n + 1 := by omega
  have hkeynum : (s.row.count - 1).toNat = n := by omega
  rw [hsucc] at hlast
  obtain ⟨key, hkey, rfl⟩ := hashed_succ hlast
  have hanswered : Answered d s.row alg key := ⟨halg, hhash⟩
  have hopiekey : ¬ (s.row.count - 1 < 1 ∨ s.row.seed.length > opieSeedMax ∨
      s.row.seed.length < opieSeedMin) := by
    have hmin := hseed.min_le
    have hmax := hseed.le_max
    omega
  obtain ⟨newkey, hnewkey⟩ := hashed_seed d alg hnewseed r.newsecret 499
  -- the row after a password
  have hpassword : InSync d { s.row with count := s.row.count - 1, hash := opiebtoa8 key } s.secret :=
    ⟨⟨alg, key, halg, by simpa only [hkeynum] using hkey, rfl⟩, hseed, by dsimp only; omega, hsecret⟩
  have hrenewed : InSync d { s.row with count := 499, seed := r.newseed, hash := opiebtoa8 newkey }
      r.newsecret :=
    ⟨⟨alg, newkey, halg, hnewkey, rfl⟩, hnewseed, by dsimp only; omega, hnewsecret⟩
  rw [login, parse_challengeText halg hseed hcounts]
  simp only [opiekey, if_neg hopiekey, hrsecret, hsecret, hnewsecret, hkeynum, hkey, hnewkey,
    Bool.false_eq_true, if_false, Option.bind_eq_bind, Option.bind_some]
  cases ht : r.type with
  | standard =>
      have hverify := authUserVerify_password (hanswered.standard stack stack')
      simp only [Option.bind_some, hverify]
      exact ⟨_, rfl, rfl, hpassword, by rw [ht]; rfl⟩
  | word =>
      have hverify := authUserVerify_password (hanswered.word stack stack')
      simp only [Option.bind_some, hverify]
      exact ⟨_, rfl, rfl, hpassword, by rw [ht]; rfl⟩
  | hex =>
      have hverify := authUserVerify_password (hanswered.hex stack')
      simp only [Option.bind_some, hverify]
      exact ⟨_, rfl, rfl, hpassword, by rw [ht]; rfl⟩
  | initHex =>
      have hverify := authUserVerify_renewal halg hnewseed (decode_opiebtoh stack' d newkey)
        (hanswered.initHex stack' _)
      simp only [Option.bind_some, List.append_assoc, List.cons_append] at hverify ⊢
      rw [hverify]
      exact ⟨_, rfl, rfl, hrenewed, by rw [ht]; rfl⟩
  | initWord =>
      have hverify := authUserVerify_renewal halg hnewseed
        (decode_opiebtoe stack stack' d newkey)
        (hanswered.initWord stack stack' _)
      simp only [Option.bind_some, List.append_assoc, List.cons_append] at hverify ⊢
      rw [hverify]
      exact ⟨_, rfl, rfl, hrenewed, by rw [ht]; rfl⟩
  | unknown => exact absurd ht htype

/-- Where `opiekey` exits there is no login. -/
theorem count_of_login (h : InSync d s.row s.secret) (he : login stack stack' d s r = some s') :
    2 ≤ s.row.count ∧ r.type ≠ .unknown := by
  obtain ⟨⟨alg, -, halg, -, -⟩, hseed, hcounts, -⟩ := h
  rw [login, parse_challengeText halg hseed hcounts] at he
  obtain ⟨response, hresponse, -⟩ := Option.bind_eq_some_iff.mp he
  rw [opiekey] at hresponse
  split at hresponse
  · cases hresponse
  · rename_i hkeynum
    refine ⟨by omega, fun htype ↦ ?_⟩
    split at hresponse
    · cases hresponse
    · obtain ⟨key, -, hkey⟩ := Option.bind_eq_some_iff.mp hresponse
      rw [htype] at hkey
      cases hkey

theorem login_loggedIn (h : InSync d s.row s.secret) (hhonest : Honest s r)
    (he : login stack stack' d s r = some s') : LoggedIn d s r s' := by
  obtain ⟨hcount, htype⟩ := count_of_login h he
  have heq : ∃ s', login stack stack' d s r = some s' ∧ LoggedIn d s r s' :=
    login_eq h hhonest hcount htype
  obtain ⟨s₁, heq, hlogged⟩ := heq
  rw [heq] at he
  cases he
  exact hlogged

end Logins

/-- Digests with which the evaluation is short. -/
def sampleDigests : Digests where
  hashlen _ _ _ := 0
  hash key _ i := key i + 1

def sampleAccount : Account where
  row := ⟨"md5".toList, "alpha1".toList, 3, "0303030303030303".toList⟩
  secret := "my pass phrase".toList
  verdicts := []

theorem seed_sample : Seed "alpha1".toList := ⟨by decide, by decide, by decide, by decide⟩

theorem newseed_sample : Seed "alpha2".toList := ⟨by decide, by decide, by decide, by decide⟩

theorem secret_sample : opiepasscheck sampleAccount.secret = false := by decide

theorem inSync_sample : InSync sampleDigests sampleAccount.row sampleAccount.secret where
  chain := ⟨5, _, by decide, rfl, by decide⟩
  seed := seed_sample
  count := by decide
  secret := secret_sample

end Beirdobot.Auth
