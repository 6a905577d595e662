import Beirdobot.Libc
import Mathlib.Data.Int.Notation
import Mathlib.Tactic.Linarith

/-!
# Matching the messages

A transcription of `regexp_parse` of `regexp.c`.  PCRE is a parameter, and a handler
returns.
-/

namespace Beirdobot.RegexpList

/-- What `pcre_exec` returns, and what it leaves in the vector of 30 offsets. -/
structure Exec where
  rc : ℤ
  ovector : ℕ → ℤ

inductive IRCMsgType
  | message
  | action
  | topic
  | kick
  | mode
  | nick
  | join
  | part
  | quit
  deriving DecidableEq

structure IRCChannel where
  fullspec : CString

/-- The arguments of `regexp_parse`. -/
structure Message (S : Type) where
  server : S
  channel : Option IRCChannel
  who : CString
  msg : CString
  type : IRCMsgType

/-- `Regexp_t`: the texts of the two patterns, what was compiled of them, and the handler. -/
structure Regexp (P F T : Type) where
  channelRegexp : CString
  contentRegexp : CString
  reChannel : P
  reContent : P
  func : F
  tag : T

/-- A call of a handler. -/
structure Call (F S T : Type) where
  func : F
  server : S
  channel : IRCChannel
  who : CString
  msg : CString
  type : IRCMsgType
  ovector : ℕ → ℤ
  rc : ℤ
  tag : T

variable {P F S T : Type}

def Regexp.call (regexp : Regexp P F T) (m : Message S) (channel : IRCChannel) (e : Exec) :
    Call F S T :=
  ⟨regexp.func, m.server, channel, m.who, m.msg, m.type, e.ovector, e.rc, regexp.tag⟩

section Parse

variable (pcreExec : P → CString → ℤ → Exec)

/-- The loop over the matches in the message. -/
def contentLoop (regexp : Regexp P F T) (m : Message S) (channel : IRCChannel) :
    ℕ → ℤ → ℤ → List (Call F S T) → Option (List (Call F S T))
  | 0, _, _, _ => none
  | fuel + 1, rc, start, calls =>
      if 0 < rc then
        let e := pcreExec regexp.reContent m.msg start
        let calls := if 0 ≤ e.rc then calls ++ [regexp.call m channel e] else calls
        contentLoop regexp m channel fuel e.rc (e.ovector 1) calls
      else some calls

/-- The loop over the expressions. -/
def regexpLoop (fuel : ℕ) (m : Message S) (channel : IRCChannel) :
    List (Regexp P F T) → List (Call F S T) → Option (List (Call F S T))
  | [], calls => some calls
  | regexp :: regexpList, calls =>
      if (pcreExec regexp.reChannel channel.fullspec 0).rc < 0 then
        regexpLoop fuel m channel regexpList calls
      else
        (contentLoop pcreExec regexp m channel fuel 1 0 calls).bind
          (regexpLoop fuel m channel regexpList)

/-- `regexp_parse`: the calls it makes, `none` where the turns do not suffice. -/
def regexpParse (fuel : ℕ) (regexpList : List (Regexp P F T)) (m : Message S) :
    Option (List (Call F S T)) :=
  match m.channel with
  | none => some []
  | some channel => regexpLoop pcreExec fuel m channel regexpList []

end Parse

/-! ## The matches there are -/

/-- The successive matches that do not overlap: the search goes on at the end of a match,
and a character further after an empty one where the search began. -/
def successive (exec : ℤ → Exec) (length start : ℤ) : List Exec :=
  if start ≤ length ∧ 0 ≤ (exec start).rc then
    exec start :: successive exec length (max ((exec start).ovector 1) (start + 1))
  else []
termination_by (length + 1 - start).toNat

/-- What PCRE promises of a match. -/
def Within (pcreExec : P → CString → ℤ → Exec) : Prop :=
  ∀ re s start, 0 ≤ start → start ≤ (s.length : ℤ) → 0 ≤ (pcreExec re s start).rc →
    start ≤ (pcreExec re s start).ovector 0 ∧
    (pcreExec re s start).ovector 0 ≤ (pcreExec re s start).ovector 1 ∧
    (pcreExec re s start).ovector 1 ≤ s.length

/-- The calls that are to be made for an expression. -/
def expected (pcreExec : P → CString → ℤ → Exec) (m : Message S) (channel : IRCChannel)
    (regexp : Regexp P F T) : List (Call F S T) :=
  if (pcreExec regexp.reChannel channel.fullspec 0).rc < 0 then []
  else (successive (pcreExec regexp.reContent m.msg) m.msg.length 0).map (regexp.call m channel)

/-- Where the searches of the loop begin. -/
inductive Reached (exec : ℤ → Exec) : ℤ → ℤ → Prop
  | refl (start : ℤ) : Reached exec start start
  | step {start start' : ℤ} (h : 0 < (exec start).rc)
      (hr : Reached exec ((exec start).ovector 1) start') : Reached exec start start'

/-- No match ends where its search began, and one with more substrings than the vector
has room for is the last. -/
def Moves (exec : ℤ → Exec) (length start : ℤ) : Prop :=
  ∀ start', Reached exec start start' →
    (0 < (exec start').rc → start' < (exec start').ovector 1) ∧
    ((exec start').rc = 0 →
      successive exec length (max ((exec start').ovector 1) (start' + 1)) = [])

section Content

variable {pcreExec : P → CString → ℤ → Exec} {regexp : Regexp P F T} {m : Message S}
  {channel : IRCChannel} {fuel : ℕ} {rc start : ℤ} {calls calls' : List (Call F S T)}

theorem successive_of_match {exec : ℤ → Exec} {length : ℤ} (hle : start ≤ length)
    (hrc : 0 ≤ (exec start).rc) :
    successive exec length start =
      exec start :: successive exec length (max ((exec start).ovector 1) (start + 1)) := by
  rw [successive, if_pos ⟨hle, hrc⟩]

theorem successive_of_none {exec : ℤ → Exec} {length : ℤ} (hrc : (exec start).rc < 0) :
    successive exec length start = [] := by
  rw [successive, if_neg fun h ↦ absurd h.2 (by omega)]

/-- A turn of the loop. -/
theorem contentLoop_succ (hrc : 0 < rc) :
    contentLoop pcreExec regexp m channel (fuel + 1) rc start calls =
      contentLoop pcreExec regexp m channel fuel (pcreExec regexp.reContent m.msg start).rc
        ((pcreExec regexp.reContent m.msg start).ovector 1)
        (if 0 ≤ (pcreExec regexp.reContent m.msg start).rc
          then calls ++ [regexp.call m channel (pcreExec regexp.reContent m.msg start)]
          else calls) := by
  rw [contentLoop, if_pos hrc]

theorem contentLoop_done (hrc : ¬ 0 < rc) :
    contentLoop pcreExec regexp m channel (fuel + 1) rc start calls = some calls := by
  rw [contentLoop, if_neg hrc]

/-- A loop that has ended does not need more turns. -/
theorem contentLoop_mono (h : contentLoop pcreExec regexp m channel fuel rc start calls =
    some calls') (more : ℕ) :
    contentLoop pcreExec regexp m channel (fuel + more) rc start calls = some calls' := by
  induction fuel generalizing rc start calls with
  | zero => cases h
  | succ fuel ih =>
      rw [Nat.add_right_comm]
      by_cases hrc : 0 < rc
      · rw [contentLoop_succ hrc] at h ⊢
        exact ih h
      · rw [contentLoop_done hrc] at h ⊢
        exact h

/-- A match that ends where its search began is found again in every turn. -/
theorem contentLoop_stuck (hrc : 0 < rc) (hmatch : 0 < (pcreExec regexp.reContent m.msg start).rc)
    (hstay : (pcreExec regexp.reContent m.msg start).ovector 1 = start) :
    contentLoop pcreExec regexp m channel fuel rc start calls = none := by
  induction fuel generalizing rc calls with
  | zero => rfl
  | succ fuel ih =>
      rw [contentLoop_succ hrc, hstay]
      exact ih hmatch

/-- Where the matches move on, the loop ends, with a call for each. -/
theorem contentLoop_of_moves (hexec : Within pcreExec) (regexp : Regexp P F T)
    (channel : IRCChannel) (calls : List (Call F S T)) (hrc : 0 < rc) (hstart : 0 ≤ start)
    (hle : start ≤ m.msg.length)
    (hmoves : Moves (pcreExec regexp.reContent m.msg) m.msg.length start) :
    ∃ fuel, contentLoop pcreExec regexp m channel fuel rc start calls =
      some (calls ++ (successive (pcreExec regexp.reContent m.msg) m.msg.length start).map
        (regexp.call m channel)) := by
  induction hn : (m.msg.length - start).toNat using Nat.strong_induction_on
    generalizing rc start calls with
  | _ n ih =>
    obtain ⟨hpast, hlast⟩ := hmoves start (.refl start)
    obtain hneg | hzero | hpos := lt_trichotomy (pcreExec regexp.reContent m.msg start).rc 0
    · refine ⟨2, ?_⟩
      rw [contentLoop_succ hrc, contentLoop_done (by omega), if_neg (by omega),
        successive_of_none hneg, List.map_nil, List.append_nil]
    · refine ⟨2, ?_⟩
      rw [contentLoop_succ hrc, contentLoop_done (by omega), if_pos (by omega),
        successive_of_match hle (by omega), hlast hzero, List.map_cons, List.map_nil]
    · have hlt := hpast hpos
      obtain ⟨-, -, hend⟩ := hexec regexp.reContent m.msg start hstart hle hpos.le
      obtain ⟨fuel, hloop⟩ := ih _ (by omega)
        (calls ++ [regexp.call m channel (pcreExec regexp.reContent m.msg start)]) hpos
        (by omega) hend (fun start' hr ↦ hmoves start' (.step hpos hr)) rfl
      refine ⟨fuel + 1, ?_⟩
      rw [contentLoop_succ hrc, if_pos hpos.le, hloop, successive_of_match hle hpos.le,
        max_eq_left (by omega), List.map_cons, List.append_assoc, List.singleton_append]

/-- A loop that ends makes the first of the calls, and makes them all only where the
matches move on. -/
theorem moves_of_contentLoop (hexec : Within pcreExec) (hrc : 0 < rc) (hstart : 0 ≤ start)
    (hle : start ≤ m.msg.length)
    (h : contentLoop pcreExec regexp m channel fuel rc start calls = some calls') :
    ∃ es, calls' = calls ++ es.map (regexp.call m channel) ∧
      es <+: successive (pcreExec regexp.reContent m.msg) m.msg.length start ∧
      (es = successive (pcreExec regexp.reContent m.msg) m.msg.length start →
        Moves (pcreExec regexp.reContent m.msg) m.msg.length start) := by
  induction fuel generalizing rc start calls with
  | zero => cases h
  | succ fuel ih =>
      have hloop := h
      rw [contentLoop_succ hrc] at h
      obtain hneg | hzero | hpos := lt_trichotomy (pcreExec regexp.reContent m.msg start).rc 0
      · rw [if_neg (by omega)] at h
        refine ⟨[], ?_, List.nil_prefix, fun _ start' hr ↦ ?_⟩
        · cases fuel with
          | zero => cases h
          | succ fuel =>
              rw [contentLoop_done (by omega), Option.some.injEq] at h
              rw [← h, List.map_nil, List.append_nil]
        · cases hr with
          | refl => exact ⟨fun _ ↦ by omega, fun _ ↦ by omega⟩
          | step hpos => omega
      · rw [if_pos (by omega)] at h
        rw [successive_of_match hle (by omega)]
        refine ⟨[pcreExec regexp.reContent m.msg start], ?_, List.prefix_append _ _,
          fun hall start' hr ↦ ?_⟩
        · cases fuel with
          | zero => cases h
          | succ fuel =>
              rw [contentLoop_done (by omega), Option.some.injEq] at h
              rw [← h, List.map_singleton]
        · cases hr with
          | refl => exact ⟨fun _ ↦ by omega, fun _ ↦ (List.cons.inj hall).2.symm⟩
          | step hpos => omega
      · rw [if_pos hpos.le] at h
        obtain ⟨hbegin, hend, hlength⟩ := hexec regexp.reContent m.msg start hstart hle hpos.le
        -- otherwise the loop would not have ended
        have hlt : start < (pcreExec regexp.reContent m.msg start).ovector 1 := by
          rcases (hbegin.trans hend).lt_or_eq with hlt | hstay
          · exact hlt
          · rw [contentLoop_stuck hrc hpos hstay.symm] at hloop
            cases hloop
        obtain ⟨es, hcalls, hprefix, hmoves⟩ := ih hpos (by omega) hlength h
        rw [successive_of_match hle hpos.le, max_eq_left (by omega)]
        refine ⟨pcreExec regexp.reContent m.msg start :: es, ?_, ?_, ?_⟩
        · rw [hcalls, List.append_assoc, List.singleton_append, List.map_cons]
        · exact List.cons_prefix_cons.mpr ⟨rfl, hprefix⟩
        · intro hall start' hr
          cases hr with
          | refl => exact ⟨fun _ ↦ hlt, fun _ ↦ by omega⟩
          | step _ hr => exact hmoves (List.cons.inj hall).2 start' hr

end Content

section Expressions

variable {pcreExec : P → CString → ℤ → Exec} {regexpList : List (Regexp P F T)} {m : Message S}
  {channel : IRCChannel} {fuel : ℕ} {calls calls' : List (Call F S T)}

theorem regexpLoop_mono (h : regexpLoop pcreExec fuel m channel regexpList calls = some calls')
    (more : ℕ) : regexpLoop pcreExec (fuel + more) m channel regexpList calls = some calls' := by
  induction regexpList generalizing calls with
  | nil => exact h
  | cons regexp regexpList ih =>
      rw [regexpLoop] at h ⊢
      split at h
      · rename_i hchannel
        rw [if_pos hchannel]
        exact ih h
      · rename_i hchannel
        obtain ⟨made, hmade, hrest⟩ := Option.bind_eq_some_iff.mp h
        rw [if_neg hchannel, contentLoop_mono hmade more, Option.bind_some]
        exact ih hrest

/-- The expressions that are tried on the message, and how they are to move. -/
def AllMove (pcreExec : P → CString → ℤ → Exec) (m : Message S) (channel : IRCChannel)
    (regexpList : List (Regexp P F T)) : Prop :=
  ∀ regexp ∈ regexpList, 0 ≤ (pcreExec regexp.reChannel channel.fullspec 0).rc →
    Moves (pcreExec regexp.reContent m.msg) m.msg.length 0

theorem regexpLoop_of_allMove (hexec : Within pcreExec)
    (h : AllMove pcreExec m channel regexpList) (calls : List (Call F S T)) :
    ∃ fuel, regexpLoop pcreExec fuel m channel regexpList calls =
      some (calls ++ regexpList.flatMap (expected pcreExec m channel)) := by
  induction regexpList generalizing calls with
  | nil => exact ⟨0, by rw [regexpLoop, List.flatMap_nil, List.append_nil]⟩
  | cons regexp regexpList ih =>
      have hrest : AllMove pcreExec m channel regexpList :=
        fun r hr ↦ h r (List.mem_cons_of_mem _ hr)
      rw [List.flatMap_cons, expected]
      by_cases hchannel : (pcreExec regexp.reChannel channel.fullspec 0).rc < 0
      · obtain ⟨fuel, hloop⟩ := ih hrest calls
        refine ⟨fuel, ?_⟩
        rw [regexpLoop, if_pos hchannel, if_pos hchannel, hloop, List.nil_append]
      · have hmoves := h regexp List.mem_cons_self (by omega)
        obtain ⟨fuel, hcontent⟩ := contentLoop_of_moves hexec regexp channel calls
          Int.one_pos le_rfl (by omega) hmoves
        obtain ⟨fuel', hloop⟩ := ih hrest (calls ++
          (successive (pcreExec regexp.reContent m.msg) m.msg.length 0).map (regexp.call m channel))
        refine ⟨fuel + fuel', ?_⟩
        rw [regexpLoop, if_neg hchannel, if_neg hchannel, contentLoop_mono hcontent fuel',
          Option.bind_some, Nat.add_comm, regexpLoop_mono hloop fuel, List.append_assoc]

theorem allMove_of_regexpLoop (hexec : Within pcreExec)
    (h : regexpLoop pcreExec fuel m channel regexpList calls = some calls') :
    ∃ made, calls' = calls ++ made ∧
      made.length ≤ (regexpList.flatMap (expected pcreExec m channel)).length ∧
      (made = regexpList.flatMap (expected pcreExec m channel) →
        AllMove pcreExec m channel regexpList) := by
  induction regexpList generalizing calls with
  | nil =>
      cases h
      exact ⟨[], (List.append_nil _).symm, le_rfl, fun _ r hr ↦ by cases hr⟩
  | cons regexp regexpList ih =>
      rw [List.flatMap_cons, expected]
      rw [regexpLoop] at h
      by_cases hchannel : (pcreExec regexp.reChannel channel.fullspec 0).rc < 0
      · rw [if_pos hchannel] at h
        obtain ⟨made, hcalls, hle, hall⟩ := ih h
        rw [if_pos hchannel, List.nil_append]
        refine ⟨made, hcalls, hle, fun hmade r hr hmatch ↦ ?_⟩
        rcases List.mem_cons.mp hr with rfl | hr
        · omega
        · exact hall hmade r hr hmatch
      · rw [if_neg hchannel] at h
        obtain ⟨calls₁, hcontent, hrest⟩ := Option.bind_eq_some_iff.mp h
        obtain ⟨es, hes, hprefix, hmoves⟩ := moves_of_contentLoop hexec Int.one_pos le_rfl
          (by omega) hcontent
        obtain ⟨made, hcalls, hle, hall⟩ := ih hrest
        have hshort := hprefix.length_le
        rw [if_neg hchannel]
        refine ⟨es.map (regexp.call m channel) ++ made, ?_, ?_, fun hmade r hr hmatch ↦ ?_⟩
        · rw [hcalls, hes, List.append_assoc]
        · simp only [List.length_append, List.length_map]
          omega
        · -- none of the two parts can be too short
          have hlength := congrArg List.length hmade
          simp only [List.length_append, List.length_map] at hlength
          have heq := hprefix.eq_of_length (by omega)
          rw [heq] at hmade
          rcases List.mem_cons.mp hr with rfl | hr
          · exact hmoves heq
          · exact hall (List.append_cancel_left hmade) r hr hmatch

end Expressions

/-- `regexp_parse` ends, with a call for each of the successive matches of each
expression, if and only if the matches move on. -/
theorem regexpParse_iff {pcreExec : P → CString → ℤ → Exec} (hexec : Within pcreExec)
    (regexpList : List (Regexp P F T)) (m : Message S) :
    (∃ fuel calls, regexpParse pcreExec fuel regexpList m = some calls ∧
      calls = (m.channel.map fun channel ↦
        regexpList.flatMap (expected pcreExec m channel)).getD []) ↔
      ∀ channel, m.channel = some channel → AllMove pcreExec m channel regexpList := by
  rcases hc : m.channel with _ | channel
  · simp only [regexpParse, hc]
    exact ⟨fun _ channel h ↦ (by cases h), fun _ ↦ ⟨0, [], rfl, rfl⟩⟩
  · simp only [regexpParse, hc]
    constructor
    · rintro ⟨fuel, calls, h, hcalls⟩ channel' hchannel
      cases hchannel
      obtain ⟨made, hmade, -, hall⟩ := allMove_of_regexpLoop hexec h
      exact hall (hmade.symm.trans hcalls)
    · intro hall
      obtain ⟨fuel, h⟩ := regexpLoop_of_allMove hexec (hall channel rfl) []
      exact ⟨fuel, _, h, rfl⟩

/-- The patterns `^.*$`, `c` and `c*`. -/
inductive Pattern
  | line
  | letter (c : Char)
  | letters (c : Char)

/-- `pcre_exec` for these, on a line. -/
def Pattern.exec : Pattern → CString → ℤ → Exec
  | .line, s, start => ⟨if start = 0 then 1 else -1, fun i ↦ if i = 0 then start else s.length⟩
  | .letter c, s, start =>
      let found := start + ((s.drop start.toNat).takeWhile (· ≠ c)).length
      ⟨if found < s.length then 1 else -1, fun i ↦ if i = 0 then found else found + 1⟩
  | .letters c, s, start =>
      ⟨1, fun i ↦ if i = 0 then start
        else start + ((s.drop start.toNat).takeWhile (· = c)).length⟩

theorem within_exec : Within Pattern.exec := by
  intro re s start hstart hle hrc
  have htake : ∀ p : Char → Bool, start + ((s.drop start.toNat).takeWhile p).length ≤ s.length := by
    intro p
    have hprefix := (List.takeWhile_prefix p (l := s.drop start.toNat)).length_le
    rw [List.length_drop] at hprefix
    omega
  cases re with
  | line => exact ⟨le_rfl, hle, le_rfl⟩
  | letter c =>
      simp only [Pattern.exec] at hrc ⊢
      split at hrc
      · simp only [if_pos]
        omega
      · omega
  | letters c =>
      have hend := htake (· = c)
      simp only [Pattern.exec, if_pos]
      omega

/-- A message to a channel, and an expression for every channel. -/
def sayHello : Message Unit :=
  ⟨(), some ⟨"bot@irc:6667/#talk".toList⟩, "nick".toList, "hello".toList, .message⟩

def everywhere (reContent : Pattern) (contentRegexp : CString) : Regexp Pattern Unit Unit :=
  ⟨"^.*$".toList, contentRegexp, .line, reContent, (), ()⟩

theorem regexpParse_iff_letter : ∃ fuel calls,
    regexpParse Pattern.exec fuel [everywhere (.letter 'o') "o".toList] sayHello = some calls ∧
      calls = [everywhere (.letter 'o') "o".toList].flatMap
        (expected Pattern.exec sayHello ⟨"bot@irc:6667/#talk".toList⟩) := by
  have hfound : (Pattern.exec (.letter 'o') "hello".toList 0).rc = 1 := rfl
  have hnone : (Pattern.exec (.letter 'o') "hello".toList 5).rc = -1 := rfl
  refine (regexpParse_iff within_exec _ sayHello).mpr ?_
  rintro channel - regexp hregexp - start hr
  obtain rfl := List.mem_singleton.mp hregexp
  cases hr with
  | refl => exact ⟨fun _ ↦ Int.lt_of_sub_pos (by decide), fun h ↦ by cases hfound.symm.trans h⟩
  | step _ hr =>
      have hneg : ¬ 0 < (Pattern.exec (.letter 'o') "hello".toList 5).rc := by
        rw [hnone]
        decide
      cases hr with
      | refl => exact ⟨fun h ↦ absurd h hneg, fun h ↦ by cases hnone.symm.trans h⟩
      | step h => exact absurd h hneg

/-- The pattern `x*` matches before every letter, and the search does not move on. -/
theorem not_regexpParse : ¬ ∃ fuel calls,
    regexpParse Pattern.exec fuel [everywhere (.letters 'x') "x*".toList] sayHello = some calls := by
  rintro ⟨fuel, calls, h⟩
  have hstuck : contentLoop Pattern.exec (everywhere (.letters 'x') "x*".toList) sayHello
      ⟨"bot@irc:6667/#talk".toList⟩ fuel 1 0 [] = none :=
    contentLoop_stuck Int.one_pos Int.one_pos rfl
  have hloop : (contentLoop Pattern.exec (everywhere (.letters 'x') "x*".toList) sayHello
      ⟨"bot@irc:6667/#talk".toList⟩ fuel 1 0 []).bind _ = some calls := h
  rw [hstuck] at hloop
  cases hloop

end Beirdobot.RegexpList
