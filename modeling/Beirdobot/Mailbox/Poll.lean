import Beirdobot.Library.System
import Beirdobot.Libc

/-!
# Polling a mailbox

A transcription of what `mailbox_thread` does with a mailbox that is due: the search for
new messages, the loop over the reports and the loop that flags the messages.  Which
mailbox is due, what c-client returns, and what the other threads store in a report in
the meantime are arguments of the steps.
-/

namespace Beirdobot.Mailbox

open Library

variable {ι ρ σ γ : Type}

/-- `MailboxReport_t` -/
structure MailboxReport (σ γ : Type) where
  serverId : ℤ
  server : Option σ
  channelId : ℤ
  channel : Option γ
  nick : CString
  enabled : Bool

/-- `ChannelsLoaded`, and what the servers and channels of the moment make of
`FindServerWithChannel`, `FindServerNum` and `FindChannelNum`. -/
structure Directory (σ γ : Type) where
  channelsLoaded : Bool
  findServerWithChannel : ℤ → ℤ
  findServerNum : ℤ → Option σ
  findChannelNum : σ → ℤ → Option γ

/-- Initialising the server of a report if it is ready to be. -/
def resolve (d : Directory σ γ) (report : MailboxReport σ γ) : MailboxReport σ γ :=
  if (report.server.isNone ∨ report.serverId = -1) ∧ d.channelsLoaded then
    let serverId :=
      if report.nick = [] then d.findServerWithChannel report.channelId else report.serverId
    let server := d.findServerNum serverId
    let channel :=
      if report.channelId > 0 then server.bind fun server ↦ d.findChannelNum server report.channelId
      else report.channel
    { report with serverId, server, channel }
  else report

/-- Where `mailboxReport` sends its messages. -/
inductive Target (σ γ : Type)
  | channel (server : σ) (channel : γ)
  | nick (server : σ) (nick : CString)

/-- There is somebody to read it: a message to the nick `""` is for nobody. -/
def Target.Named : Target σ γ → Prop
  | .channel _ _ => True
  | .nick _ name => name ≠ []

instance (t : Target σ γ) : Decidable t.Named :=
  match t with
  | .channel _ _ => inferInstanceAs (Decidable True)
  | .nick _ name => inferInstanceAs (Decidable (name ≠ []))

/-- The choice of `mailboxReport`, where the server is set. -/
def target (report : MailboxReport σ γ) : Option (Target σ γ) :=
  report.server.map fun server ↦
    match report.channel with
    | some channel => .channel server channel
    | none => .nick server report.nick

/-- Where `mailbox_thread` is. -/
inductive Phase (ι ρ : Type)
  | sleeping
  | polling
  | searching (x : ι)
  | reporting (x : ι) (rest : List ρ)
  | flagging (x : ι)

/-- The mailboxes `ι` with their lists, the reports `ρ`, the progress of the thread, and
every message that was sent for a report. -/
structure Mailboxes (ι ρ σ γ : Type) where
  directory : Directory σ γ
  phase : Phase ι ρ
  abort : Bool
  reports : ι → List ρ
  report : ρ → MailboxReport σ γ
  messageList : ι → Option (List ℕ)
  sent : List (ι × ρ × Target σ γ × ℕ)

/-- What can happen. -/
inductive Event (ι ρ σ γ : Type)
  /-- servers and channels appear and disappear -/
  | directory (d : Directory σ γ)
  /-- `GlobalAbort` or `threadAbort` is set -/
  | abort
  /-- another thread stores in the fields of a report: a form, or
  `mailboxDisableServer` or `mailboxDisableChannel` -/
  | edit (r : ρ) (report : MailboxReport σ γ)
  /-- `db_update_report` adds a new report -/
  | add (x : ι) (r : ρ)
  /-- a reload leaves a mailbox with these reports, on the same mail server or on another -/
  | reload (x : ι) (reports : List ρ) (newMailbox : Bool)
  /-- `mailboxFlushUnvisited` frees a mailbox -/
  | free (x : ι)
  /-- a round begins, or ends -/
  | wake
  | sleep
  /-- a mailbox is due; it is opened or not, and `mm_status` leaves `newMessages` -/
  | poll (x : ι) (opened : Bool) (newMessages : ℕ)
  /-- `mail_search_full` calls `mm_searched` with these UIDs, and `mailboxFindByStream`
  finds this mailbox for the stream -/
  | search (owner : Option ι) (uids : List ℕ)
  /-- the next turn of the loop over the reports or the messages -/
  | next

variable [DecidableEq ι] [DecidableEq ρ]

/-- `mm_searched`, once for each UID. -/
def mmSearched (messageList : ι → Option (List ℕ)) (owner : Option ι) (uids : List ℕ) :
    ι → Option (List ℕ) :=
  match owner with
  | none => messageList
  | some y => Function.update messageList y ((messageList y).map fun list ↦ list ++ uids)

/-- `mailboxReport`, which needs the list of messages and a server. -/
def mailboxReport (s : Mailboxes ι ρ σ γ) (x : ι) (r : ρ) : Option (Mailboxes ι ρ σ γ) := do
  let list ← s.messageList x
  let t ← target (s.report r)
  some { s with sent := s.sent ++ list.map fun uid ↦ (x, r, t, uid) }

/-- A turn of the loop over the reports. -/
def reportNext (s : Mailboxes ι ρ σ γ) (x : ι) (r : ρ) : Option (Mailboxes ι ρ σ γ) :=
  let report := resolve s.directory (s.report r)
  let s := { s with report := Function.update s.report r report }
  if report.server.isNone ∨ ¬ report.enabled then some s else mailboxReport s x r

/-- The next turn of a loop: the reports, then the messages, then the next mailbox. -/
def next (s : Mailboxes ι ρ σ γ) : Option (Mailboxes ι ρ σ γ) :=
  match s.phase with
  | .reporting x (r :: rest) =>
      if s.abort then some { s with phase := .flagging x }
      else reportNext { s with phase := .reporting x rest } x r
  | .reporting x [] => some { s with phase := .flagging x }
  | .flagging x =>
      match s.messageList x with
      | some (_ :: uids) =>
          if s.abort then some { s with phase := .polling }
          else some { s with messageList := Function.update s.messageList x (some uids) }
      | _ => some { s with phase := .polling }
  | _ => none

/-- `mailbox_thread`, from a mailbox that is due to its search. -/
def poll (s : Mailboxes ι ρ σ γ) (x : ι) (opened : Bool) (newMessages : ℕ) :
    Mailboxes ι ρ σ γ :=
  if opened then
    if newMessages = 0 then { s with phase := .flagging x }
    else
      { s with
        phase := .searching x
        messageList := Function.update s.messageList x (some ((s.messageList x).getD [])) }
  else s

/-- The search, and the start of the loop over the reports. -/
def search (s : Mailboxes ι ρ σ γ) (x : ι) (owner : Option ι) (uids : List ℕ) :
    Mailboxes ι ρ σ γ :=
  if s.abort then { s with phase := .polling }
  else
    { s with
      phase := .reporting x (s.reports x)
      messageList := mmSearched s.messageList owner uids }

/-- A reload of a mailbox.  What was sent for the messages of another mail server says
nothing about those of the new one. -/
def reload (s : Mailboxes ι ρ σ γ) (x : ι) (reports : List ρ) (newMailbox : Bool) :
    Mailboxes ι ρ σ γ :=
  { s with
    reports := Function.update s.reports x reports
    sent := if newMailbox then s.sent.filter fun m ↦ m.1 ≠ x else s.sent }

/-- The loop over the reports holds the lock of their list. -/
def Locked (s : Mailboxes ι ρ σ γ) (x : ι) : Prop :=
  match s.phase with
  | .reporting y _ => y = x
  | _ => False

instance (s : Mailboxes ι ρ σ γ) (x : ι) : Decidable (Locked s x) :=
  match h : s.phase with
  | .reporting y _ => decidable_of_iff (y = x) (by rw [Locked, h])
  | .sleeping | .polling | .searching _ | .flagging _ => isFalse (by rw [Locked, h]; exact id)

/-- One step. -/
def step (s : Mailboxes ι ρ σ γ) : Event ι ρ σ γ → Option (Mailboxes ι ρ σ γ)
  | .directory d => some { s with directory := d }
  | .abort => some { s with abort := true }
  | .edit r report => some { s with report := Function.update s.report r report }
  | .add x r =>
      if Locked s x then none
      else some { s with reports := Function.update s.reports x (s.reports x ++ [r]) }
  | .reload x reports newMailbox =>
      match s.phase with
      | .sleeping => some (reload s x reports newMailbox)
      | _ => none
  | .free x =>
      match s.phase with
      | .sleeping =>
          some { reload s x [] true with messageList := Function.update s.messageList x none }
      | _ => none
  | .wake =>
      match s.phase with
      | .sleeping =>
          if s.directory.channelsLoaded ∧ ¬ s.abort then some { s with phase := .polling } else none
      | _ => none
  | .sleep =>
      match s.phase with
      | .polling => some { s with phase := .sleeping }
      | _ => none
  | .poll x opened newMessages =>
      match s.phase with
      | .polling => if s.abort then none else some (poll s x opened newMessages)
      | _ => none
  | .search owner uids =>
      match s.phase with
      | .searching x => some (search s x owner uids)
      | _ => none
  | .next => next s

/-- `mailbox_thread` and what happens around it. -/
def mailboxThread (ι ρ σ γ : Type) [DecidableEq ι] [DecidableEq ρ] :
    System (Mailboxes ι ρ σ γ) (Event ι ρ σ γ) where
  init s := s.phase = .sleeping ∧ s.abort = false ∧ (∀ x, s.reports x = []) ∧
    (∀ x, s.messageList x = none) ∧ s.sent = []
  step := step

/-! ## Messages that are not lost -/

omit [DecidableEq ι] [DecidableEq ρ] in
/-- The mailbox that is being reported and flagged, with the reports whose turn is still
to come. -/
def Phase.current : Phase ι ρ → Option (ι × List ρ)
  | .reporting x rest => some (x, rest)
  | .flagging x => some (x, [])
  | _ => none

/-- The messages that were found and not flagged yet. -/
def unseen (s : Mailboxes ι ρ σ γ) (x : ι) : List ℕ := (s.messageList x).getD []

/-- The message was sent to somebody for the report. -/
def Reported (s : Mailboxes ι ρ σ γ) (x : ι) (r : ρ) (uid : ℕ) : Prop :=
  ∃ t : Target σ γ, t.Named ∧ (x, r, t, uid) ∈ s.sent

/-- The next step of the thread flags a message `\Seen`. -/
def Flags (s : Mailboxes ι ρ σ γ) (x : ι) (uid : ℕ) : Prop :=
  s.phase = .flagging x ∧ s.abort = false ∧ ∃ uids, s.messageList x = some (uid :: uids)

/-- A message is flagged after it was reported through every enabled report. -/
def Lossless (s : Mailboxes ι ρ σ γ) : Prop :=
  ∀ x uid, Flags s x uid → ∀ r ∈ s.reports x, (s.report r).enabled = true → Reported s x r uid

/-- Nobody enables a report whose turn is over while there are messages to flag. -/
def InTime (s : Mailboxes ι ρ σ γ) (r : ρ) (x : ι) : Prop :=
  ∀ p ∈ s.phase.current, p.1 = x → s.abort = false → r ∉ p.2 → unseen s x = []

/-- An enabled report finds its server and channel in its turn, none is enabled too
late, and a mailbox without new messages has none left from the search of another one. -/
def Careful (s : Mailboxes ι ρ σ γ) : Event ι ρ σ γ → Prop
  | .edit r report =>
      report.enabled = true → (s.report r).enabled = false →
        ∀ p ∈ s.phase.current, r ∈ s.reports p.1 → InTime s r p.1
  | .add x r => (s.report r).enabled = true → InTime s r x
  | .poll x opened newMessages =>
      opened = true → newMessages = 0 →
        unseen s x = [] ∨ ∀ r ∈ s.reports x, (s.report r).enabled = false
  | .next =>
      ∀ p ∈ s.phase.current, ∀ r ∈ p.2.head?, s.abort = false → (s.report r).enabled = true →
        unseen s p.1 = [] ∨ ∃ t ∈ target (resolve s.directory (s.report r)), t.Named
  | _ => True

/-- Every enabled report whose turn is over has had the messages that are to be flagged. -/
def Covered (s : Mailboxes ι ρ σ γ) : Prop :=
  ∀ p ∈ s.phase.current, s.abort = false → ∀ r ∈ s.reports p.1, (s.report r).enabled = true →
    r ∉ p.2 → ∀ uid ∈ unseen s p.1, Reported s p.1 r uid

namespace Covered

variable {s s' : Mailboxes ι ρ σ γ}

omit [DecidableEq ι] [DecidableEq ρ] in
theorem of_idle (h : s.phase.current = none) : Covered s := by
  intro p hp
  rw [h] at hp
  cases hp

omit [DecidableEq ι] [DecidableEq ρ] in
theorem lossless (h : Covered s) : Lossless s := by
  intro x uid ⟨hphase, habort, uids, hlist⟩ r hr hen
  refine h (x, []) ?_ habort r hr hen List.not_mem_nil uid ?_
  · rw [hphase]
    rfl
  · rw [unseen, hlist]
    exact List.mem_cons_self

omit [DecidableEq ι] in
theorem edit (h : Covered s) {r : ρ} {report : MailboxReport σ γ}
    (hc : Careful s (.edit r report)) :
    Covered { s with report := Function.update s.report r report } := by
  intro p hp habort r' hr' hen hpast uid huid
  by_cases hrr : r' = r
  · subst hrr
    change (Function.update s.report r' report r').enabled = true at hen
    rw [Function.update_self] at hen
    cases hwas : (s.report r').enabled with
    | true => exact h p hp habort r' hr' hwas hpast uid huid
    | false =>
        have hnil : unseen s p.1 = [] := hc hen hwas p hp hr' p hp rfl habort hpast
        change uid ∈ unseen s p.1 at huid
        rw [hnil] at huid
        cases huid
  · change (Function.update s.report r report r').enabled = true at hen
    rw [Function.update_of_ne hrr] at hen
    exact h p hp habort r' hr' hen hpast uid huid

omit [DecidableEq ρ] in
theorem add (h : Covered s) {x : ι} {r : ρ} (hc : Careful s (.add x r)) :
    Covered { s with reports := Function.update s.reports x (s.reports x ++ [r]) } := by
  intro p hp habort r' hr' hen hpast uid huid
  have hmem : r' ∈ s.reports p.1 ∨ p.1 = x ∧ r' = r := by
    by_cases hx : p.1 = x
    · change r' ∈ Function.update s.reports x (s.reports x ++ [r]) p.1 at hr'
      rw [hx, Function.update_self] at hr'
      rcases List.mem_append.mp hr' with hr' | hr'
      · exact .inl (hx ▸ hr')
      · exact .inr ⟨hx, List.mem_singleton.mp hr'⟩
    · change r' ∈ Function.update s.reports x (s.reports x ++ [r]) p.1 at hr'
      rw [Function.update_of_ne hx] at hr'
      exact .inl hr'
  rcases hmem with hr' | ⟨hx, rfl⟩
  · exact h p hp habort r' hr' hen hpast uid huid
  · have hnil : unseen s p.1 = [] := hx ▸ hc hen p hp hx habort hpast
    change uid ∈ unseen s p.1 at huid
    rw [hnil] at huid
    cases huid

omit [DecidableEq ρ] in
/-- A mailbox that is flagged without having been searched. -/
theorem poll {x : ι} {opened : Bool} {newMessages : ℕ} (hphase : s.phase = .polling)
    (hc : Careful s (.poll x opened newMessages)) : Covered (poll s x opened newMessages) := by
  rw [Mailbox.poll]
  cases opened with
  | false => exact of_idle (by rw [if_neg Bool.false_ne_true, hphase]; rfl)
  | true =>
      rw [if_pos rfl]
      split
      · rename_i hnew
        rintro p ⟨⟩ habort r hr hen - uid huid
        rcases hc rfl hnew with hnil | hoff
        · change uid ∈ unseen s x at huid
          rw [hnil] at huid
          cases huid
        · have hwas : (s.report r).enabled = false := hoff r hr
          change (s.report r).enabled = true at hen
          rw [hwas] at hen
          cases hen
      · exact of_idle rfl

omit [DecidableEq ρ] in
theorem search {x : ι} {owner : Option ι} {uids : List ℕ} : Covered (search s x owner uids) := by
  rw [Mailbox.search]
  split
  · exact of_idle rfl
  · rintro p ⟨⟩ - r hr - hpast
    exact absurd hr hpast

end Covered

theorem resolve_enabled (d : Directory σ γ) (report : MailboxReport σ γ) :
    (resolve d report).enabled = report.enabled := by
  rw [resolve]
  split <;> rfl

omit [DecidableEq ι] in
/-- What a turn of the loop over the reports leaves. -/
theorem reportNext_eq {s s' : Mailboxes ι ρ σ γ} {x : ι} {r : ρ}
    (he : reportNext s x r = some s') :
    ∃ more, s' = { s with
        report := Function.update s.report r (resolve s.directory (s.report r))
        sent := s.sent ++ more } ∧
      ((s.report r).enabled = true → ∀ t ∈ target (resolve s.directory (s.report r)),
        ∀ uid ∈ unseen s x, (x, r, t, uid) ∈ more) := by
  simp only [reportNext] at he
  split at he
  · rename_i hskip
    cases he
    refine ⟨[], by rw [List.append_nil], ?_⟩
    intro hen t ht
    rcases hskip with hnone | hoff
    · rw [Option.isNone_iff_eq_none] at hnone
      rw [target, hnone] at ht
      cases ht
    · rw [resolve_enabled] at hoff
      exact absurd hen hoff
  · obtain ⟨list, hlist, he⟩ := Option.bind_eq_some_iff.mp he
    obtain ⟨t, ht, he⟩ := Option.bind_eq_some_iff.mp he
    cases he
    refine ⟨list.map fun uid ↦ (x, r, t, uid), rfl, ?_⟩
    intro _ t' ht' uid huid
    change target (Function.update s.report r _ r) = some t at ht
    rw [Function.update_self, Option.mem_def.mp ht'] at ht
    cases ht
    change s.messageList x = some list at hlist
    rw [unseen, hlist] at huid
    exact List.mem_map.mpr ⟨uid, huid, rfl⟩

omit [DecidableEq ι] [DecidableEq ρ] in
theorem Reported.mono {s s' : Mailboxes ι ρ σ γ} (hsent : s.sent ⊆ s'.sent) {x : ι} {r : ρ}
    {uid : ℕ} (h : Reported s x r uid) : Reported s' x r uid := by
  obtain ⟨t, hnamed, hmem⟩ := h
  exact ⟨t, hnamed, hsent hmem⟩

namespace Covered

variable {s s' : Mailboxes ι ρ σ γ}

omit [DecidableEq ι] in
theorem reportNext (h : Covered s) {x : ι} {r : ρ} {rest : List ρ}
    (hphase : s.phase = .reporting x (r :: rest)) (habort : s.abort = false)
    (hc : Careful s .next) (he : reportNext { s with phase := .reporting x rest } x r = some s') :
    Covered s' := by
  have hcur : (x, r :: rest) ∈ s.phase.current := by
    rw [hphase]
    rfl
  obtain ⟨more, rfl, hmore⟩ := reportNext_eq he
  rintro p ⟨⟩ - r' hr' hen hpast uid huid
  by_cases hrr : r' = r
  · subst hrr
    change (Function.update s.report r' _ r').enabled = true at hen
    rw [Function.update_self, resolve_enabled] at hen
    rcases hc _ hcur r' rfl habort hen with hnil | ⟨t, ht, hnamed⟩
    · change uid ∈ unseen s x at huid
      rw [hnil] at huid
      cases huid
    · exact ⟨t, hnamed, List.mem_append_right _ (hmore hen t ht uid huid)⟩
  · change (Function.update s.report r _ r').enabled = true at hen
    rw [Function.update_of_ne hrr] at hen
    refine (h _ hcur habort r' hr' hen ?_ uid huid).mono (List.subset_append_left ..)
    rintro (_ | hmem)
    · exact hrr rfl
    · exact hpast ‹_›

theorem next (h : Covered s) (hc : Careful s .next) (he : next s = some s') : Covered s' := by
  simp only [Mailbox.next] at he
  split at he
  · rename_i x r rest hphase
    split at he
    · rename_i habort
      cases he
      intro _ _ hoff
      rw [habort] at hoff
      cases hoff
    · rename_i habort
      exact h.reportNext hphase (Bool.eq_false_iff.mpr habort) hc he
  · rename_i x hphase
    cases he
    rintro p ⟨⟩ habort r hr hen hpast uid huid
    exact h (x, []) (by rw [hphase]; rfl) habort r hr hen hpast uid huid
  · rename_i x hphase
    split at he
    · rename_i uid uids hlist
      split at he
      · cases he
        exact of_idle rfl
      · cases he
        intro p hp habort r hr hen hpast uid' huid'
        obtain rfl : (x, []) = p := by
          change p ∈ s.phase.current at hp
          rw [hphase] at hp
          exact Option.some.inj hp
        refine h (x, []) hp habort r hr hen hpast uid' ?_
        change uid' ∈ (Function.update s.messageList x (some uids) x).getD [] at huid'
        rw [Function.update_self] at huid'
        rw [unseen, hlist]
        exact List.mem_cons_of_mem _ huid'
    · cases he
      exact of_idle rfl
  · cases he

end Covered

theorem step_covered {s s' : Mailboxes ι ρ σ γ} {e : Event ι ρ σ γ} (h : Covered s)
    (hc : Careful s e) (he : step s e = some s') : Covered s' := by
  cases e with
  | directory d =>
      cases he
      exact h
  | abort =>
      cases he
      intro _ _ hoff
      cases hoff
  | edit r report =>
      cases he
      exact h.edit hc
  | add x r =>
      simp only [step] at he
      split at he
      · cases he
      · cases he
        exact h.add hc
  | reload x reports newMailbox =>
      simp only [step] at he
      split at he
      · rename_i hphase
        cases he
        exact .of_idle (by rw [reload, hphase]; rfl)
      · cases he
  | free x =>
      simp only [step] at he
      split at he
      · rename_i hphase
        cases he
        exact .of_idle (by rw [reload, hphase]; rfl)
      · cases he
  | wake =>
      simp only [step] at he
      split at he
      · split at he
        · cases he
          exact .of_idle rfl
        · cases he
      · cases he
  | sleep =>
      simp only [step] at he
      split at he
      · cases he
        exact .of_idle rfl
      · cases he
  | poll x opened newMessages =>
      simp only [step] at he
      split at he
      · rename_i hphase
        split at he
        · cases he
        · cases he
          exact .poll hphase hc
      · cases he
  | search owner uids =>
      simp only [step] at he
      split at he
      · cases he
        exact .search
      · cases he
  | next => exact h.next hc he

/-- In a run that is careful about the reports no message is lost. -/
theorem mailboxThread_lossless {s : Mailboxes ι ρ σ γ}
    (h : (mailboxThread ι ρ σ γ).ReachableVia Careful s) : Lossless s := by
  refine Covered.lossless (h.invariant ?_ ?_)
  · intro s hinit
    exact .of_idle (by rw [hinit.1]; rfl)
  · intro s e s' hs hc he
    exact step_covered hs hc he

instance (s : Mailboxes ι ρ σ γ) (r : ρ) (x : ι) : Decidable (InTime s r x) :=
  inferInstanceAs (Decidable (∀ p ∈ s.phase.current, p.1 = x → s.abort = false → r ∉ p.2 →
    unseen s x = []))

instance (s : Mailboxes ι ρ σ γ) (e : Event ι ρ σ γ) : Decidable (Careful s e) :=
  match e with
  | .edit r report =>
      inferInstanceAs (Decidable (report.enabled = true → (s.report r).enabled = false →
        ∀ p ∈ s.phase.current, r ∈ s.reports p.1 → InTime s r p.1))
  | .add x r => inferInstanceAs (Decidable ((s.report r).enabled = true → InTime s r x))
  | .poll x opened newMessages =>
      inferInstanceAs (Decidable (opened = true → newMessages = 0 →
        unseen s x = [] ∨ ∀ r ∈ s.reports x, (s.report r).enabled = false))
  | .next =>
      inferInstanceAs (Decidable (∀ p ∈ s.phase.current, ∀ r ∈ p.2.head?, s.abort = false →
        (s.report r).enabled = true →
          unseen s p.1 = [] ∨ ∃ t ∈ target (resolve s.directory (s.report r)), t.Named))
  | .directory _ | .abort | .reload _ _ _ | .free _ | .wake | .sleep | .search _ _ =>
      inferInstanceAs (Decidable True)

/-- A thread that starts, with servers and channels that may be there. -/
def start (channels : ℤ → Option Unit) : Mailboxes Unit Unit Unit Unit where
  directory :=
    { channelsLoaded := true
      findServerWithChannel := fun channelId ↦ if (channels channelId).isSome then 1 else -1
      findServerNum := fun serverId ↦ if serverId = 1 then some () else none
      findChannelNum := fun _ channelId ↦ channels channelId }
  phase := .sleeping
  abort := false
  reports _ := []
  report _ :=
    { serverId := -1, server := none, channelId := 5, channel := none, nick := [], enabled := true }
  messageList _ := none
  sent := []

theorem start_init (channels : ℤ → Option Unit) :
    (mailboxThread Unit Unit Unit Unit).init (start channels) :=
  ⟨rfl, rfl, fun _ ↦ rfl, fun _ ↦ rfl, rfl⟩

/-- A mailbox with one report is polled and has one new message. -/
def pollOnce : List (Event Unit Unit Unit Unit) :=
  [.reload () [()] false, .wake, .poll () true 1, .search (some ()) [7], .next, .next]

/-- The channel of an enabled report is there, and the message is flagged after it was sent. -/
theorem mailboxThread_lossless_pollOnce :
    ∃ s, (mailboxThread Unit Unit Unit Unit).ReachableVia Careful s ∧ Flags s () 7 ∧
      Lossless s := by
  have hrun : ∃ s, ((mailboxThread Unit Unit Unit Unit).guard fun s e ↦ decide (Careful s e)).run
      (start fun _ ↦ some ()) pollOnce = some s ∧ s.phase = .flagging () ∧ s.abort = false ∧
        s.messageList () = some [7] := ⟨_, rfl, rfl, rfl, rfl⟩
  obtain ⟨s, hs, hphase, habort, hlist⟩ := hrun
  have hreach := System.reachableVia_of_run (C := Careful) (fun _ _ ↦ of_decide_eq_true)
    (start_init _) hs
  exact ⟨s, hreach, ⟨hphase, habort, [], hlist⟩, mailboxThread_lossless hreach⟩

/-- A message is flagged while an enabled report waits for its server. -/
theorem not_mailboxThread_lossless :
    ¬ ∀ s, (mailboxThread Unit Unit Unit Unit).Reachable s → Lossless s := by
  intro h
  have hrun : ∃ s, (mailboxThread Unit Unit Unit Unit).run (start fun _ ↦ none) pollOnce = some s ∧
      Flags s () 7 ∧ s.reports () = [()] ∧ (s.report ()).enabled = true ∧ s.sent = [] :=
    ⟨_, rfl, ⟨rfl, rfl, [], rfl⟩, rfl, rfl, rfl⟩
  obtain ⟨s, hs, hflags, hreports, hen, hsent⟩ := hrun
  have hreach := System.reachable_of_run (start_init _) hs
  obtain ⟨t, -, hmem⟩ :=
    h s hreach () 7 hflags () (by rw [hreports]; exact List.mem_cons_self) hen
  rw [hsent] at hmem
  cases hmem

end Beirdobot.Mailbox
