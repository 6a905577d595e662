import Beirdobot.Libc
import Beirdobot.Library.System

/-!
# Joining the channels of a server

Transcriptions of what `bot.c` and `mysql.c` do about joining: `ProcOnRegistered`,
`ProcOnJoinChannel`, `ProcOnInvite`, `ProcOnKick`, the loop of `bot_server_thread` that connects
again, and a reload with `result_load_channels` and `botSighup`.  The channels of the server are
the list `server->channels`, and `FindChannel` is a search in it.  A JOIN that is sent while the
server has the bot registered waits for its answer; one that is sent earlier is lost.
-/

namespace Beirdobot.Channels.Joins

open Library

/-- `IRCChannel_t`, and what came of it since the connection, a kick or a leave. -/
structure IRCChannel where
  channelId : ℤ
  channel : CString
  fullspec : CString
  joined : Bool
  visited : Bool
  enabled : Bool
  newChannel : Bool
  /-- The server confirmed the join. -/
  confirmed : Bool
  /-- `db_flush_nicks` was called since. -/
  flushed : Bool
  /-- A JOIN was sent. -/
  sent : Bool
  deriving DecidableEq

/-- A row of `channels`. -/
structure Row where
  channelId : ℤ
  channel : CString
  enabled : Bool
  deriving DecidableEq

/-- Where the loop of `bot_server_thread` is. -/
inductive Phase
  | connecting
  | registered
  | lost
  deriving DecidableEq

structure State where
  channels : List IRCChannel
  phase : Phase
  /-- The JOINs without an answer. -/
  awaiting : List CString
  deriving DecidableEq

/-- The rows of the table, whose key is `chanid`. -/
structure Table where
  rows : List Row
  nodup : (rows.map Row.channelId).Nodup

inductive Event
  | registered
  | joinChannel (chan : CString)
  /-- The server refuses a JOIN: there is no callback for that. -/
  | refused (chan : CString)
  | invite (chan : CString)
  | kick (chan : CString)
  /-- A reload, with what stands before the channel in `fullspec`. -/
  | reload (spec : CString) (table : Table)
  | lost
  | reconnect

/-! ## Sending -/

/-- `transmitMsg( server, TX_JOIN, … )` for a channel that is found. -/
def transmitJoin (phase : Phase) (c : IRCChannel) : IRCChannel × List CString :=
  if phase = .registered then ({ c with sent := true }, [c.channel]) else (c, [])

/-- `channelLeave` -/
def channelLeave (c : IRCChannel) : IRCChannel :=
  { c with joined := false, confirmed := false, flushed := false, sent := false }

/-! ## Callbacks -/

/-- The loop of `ProcOnRegistered`, with the JOINs it sends. -/
def registeredLoop : List IRCChannel → List IRCChannel × List CString
  | [] => ([], [])
  | c :: cs =>
      if c.joined ∨ ¬ c.enabled then
        let rest := registeredLoop cs
        (c :: rest.1, rest.2)
      else
        let (c, join) := transmitJoin .registered c
        (c :: cs, join)

/-- The loop of `ProcOnJoinChannel`; the flush of the nicks is noted. -/
def joinChannelLoop (chan : CString) : List IRCChannel → List IRCChannel × List CString
  | [] => ([], [])
  | c :: cs =>
      if c.joined ∨ ¬ c.enabled then
        let rest := joinChannelLoop chan cs
        (c :: rest.1, rest.2)
      else if sameIgnoringCase chan c.channel then
        let c := { c with joined := true, newChannel := false, flushed := true, sent := true }
        let rest := joinChannelLoop chan cs
        (c :: rest.1, rest.2)
      else
        let (c, join) := transmitJoin .registered c
        (c :: cs, join)

/-- The server confirmed the join of a channel. -/
def confirm (chan : CString) (c : IRCChannel) : IRCChannel :=
  if sameIgnoringCase chan c.channel then { c with confirmed := true } else c

/-- `ProcOnInvite`, on the channel that `FindChannel` finds. -/
def inviteLoop (chan : CString) : List IRCChannel → List IRCChannel × List CString
  | [] => ([], [])
  | c :: cs =>
      if sameIgnoringCase chan c.channel then
        if c.enabled then
          let (c, join) := transmitJoin .registered { c with joined := false }
          (c :: cs, join)
        else (c :: cs, [])
      else
        let rest := inviteLoop chan cs
        (c :: rest.1, rest.2)

/-- A kick: without `REJOIN_ON_KICK`, `ProcOnKick` changes no channel. -/
def kicked (chan : CString) (c : IRCChannel) : IRCChannel :=
  if sameIgnoringCase chan c.channel then { c with confirmed := false, flushed := false } else c

/-! ## Reloads -/

/-- What `result_load_channels` makes of a channel that it finds. -/
def update (spec : CString) (row : Row) (c : IRCChannel) : IRCChannel :=
  let fullSpec := spec ++ row.channel
  let c' := { c with
    channel := row.channel
    enabled := row.enabled
    visited := true
    newChannel := !c.enabled && row.enabled }
  if fullSpec ≠ c.fullspec ∨ (c.enabled ∧ ¬ row.enabled) then
    { channelLeave c' with fullspec := fullSpec, newChannel := true }
  else c'

/-- A channel that is not found. -/
def newChannel (spec : CString) (row : Row) : IRCChannel :=
  { channelId := row.channelId, channel := row.channel, fullspec := spec ++ row.channel
    joined := false, visited := true, enabled := row.enabled, newChannel := true
    confirmed := false, flushed := false, sent := false }

/-- One row: the first channel with its number, or a new one at the end. -/
def loadRow (spec : CString) (row : Row) : List IRCChannel → List IRCChannel
  | [] => [newChannel spec row]
  | c :: cs =>
      if c.channelId = row.channelId then update spec row c :: cs
      else c :: loadRow spec row cs

/-- `serverUnvisit` and `result_load_channels` -/
def load (spec : CString) (rows : List Row) (cs : List IRCChannel) : List IRCChannel :=
  rows.foldl (fun cs row ↦ loadRow spec row cs) (cs.map fun c ↦ { c with visited := false })

/-- The loop of `botSighup`, with its own `newChannel`. -/
def sighupLoop (phase : Phase) : Bool → List IRCChannel → List IRCChannel × List CString
  | _, [] => ([], [])
  | newChannel, c :: cs =>
      if ¬ c.visited then sighupLoop phase newChannel cs
      else if c.newChannel ∧ c.enabled ∧ ¬ c.joined ∧ ¬ newChannel then
        let (c, join) := transmitJoin phase c
        let rest := sighupLoop phase true cs
        (c :: rest.1, join ++ rest.2)
      else
        let c := if c.newChannel ∧ ¬ c.enabled then { c with newChannel := false } else c
        let rest := sighupLoop phase newChannel cs
        (c :: rest.1, rest.2)

/-! ## The steps -/

/-- The flags that are cleared before the next connection. -/
def clearJoined (c : IRCChannel) : IRCChannel := { c with joined := false }

/-- The end of a connection. -/
def disconnected (c : IRCChannel) : IRCChannel :=
  { c with confirmed := false, flushed := false, sent := false }

def step (s : State) : Event → Option State
  | .registered =>
      if s.phase = .connecting then
        let (channels, joins) := registeredLoop s.channels
        some ⟨channels, .registered, s.awaiting ++ joins⟩
      else none
  | .joinChannel chan =>
      if s.phase = .registered ∧ chan ∈ s.awaiting then
        let (channels, joins) := joinChannelLoop chan (s.channels.map (confirm chan))
        some ⟨channels, s.phase, s.awaiting.erase chan ++ joins⟩
      else none
  | .refused chan =>
      if s.phase = .registered ∧ chan ∈ s.awaiting then
        some { s with awaiting := s.awaiting.erase chan }
      else none
  | .invite chan =>
      if s.phase = .registered then
        let (channels, joins) := inviteLoop chan s.channels
        some ⟨channels, s.phase, s.awaiting ++ joins⟩
      else none
  | .kick chan =>
      if s.phase = .registered then some { s with channels := s.channels.map (kicked chan) }
      else none
  | .reload spec table =>
      let (channels, joins) := sighupLoop s.phase false (load spec table.rows s.channels)
      some ⟨channels, s.phase, s.awaiting ++ joins⟩
  | .lost =>
      if s.phase = .lost then none
      else some ⟨s.channels.map disconnected, .lost, []⟩
  | .reconnect =>
      if s.phase = .lost then some ⟨s.channels.map clearJoined, .connecting, s.awaiting⟩ else none

/-- A server that starts, with the channels that were loaded. -/
def Init (s : State) : Prop :=
  s.phase = .connecting ∧ s.awaiting = [] ∧
    ∀ c ∈ s.channels, c.joined = false ∧ c.confirmed = false ∧ c.sent = false

def system : System State Event := ⟨Init, step⟩

/-! ## What is to hold -/

/-- A JOIN was sent for the `i`th channel, or one that is waiting for its answer leads to it:
each confirmation sends the next. -/
def Coming (s : State) (i : ℕ) : Prop :=
  ∃ (chans : List CString) (s' : State), system.run s (chans.map .joinChannel) = some s' ∧
    ∃ c, s'.channels[i]? = some c ∧ c.sent = true

structure Joined (s : State) : Prop where
  /-- A channel whose join was confirmed is marked and its nicks are flushed. -/
  marked : ∀ c ∈ s.channels, c.confirmed = true → c.joined = true ∧ c.flushed = true
  coming : s.phase = .registered → ∀ i c, s.channels[i]? = some c → c.enabled = true → Coming s i

/-- The steps after which it does: a channel is confirmed when it is enabled and all enabled
channels before it are joined, a refused JOIN is not the last one that channels wait for, and
no invitation comes for a channel that the bot is in. -/
def Orderly (s : State) : Event → Prop
  | .joinChannel chan => ∀ before c after, s.channels = before ++ c :: after →
      sameIgnoringCase chan c.channel = true →
        if c.joined then c.flushed = true
        else c.enabled = true ∧ ∀ d ∈ before, d.enabled = true → d.joined = true ∨
          sameIgnoringCase chan d.channel = true
  | .refused chan => s.awaiting.erase chan ≠ [] ∨ ∀ c ∈ s.channels, c.enabled = true → c.sent = true
  | .invite chan => ∀ c ∈ s.channels, sameIgnoringCase chan c.channel = true →
      c.enabled = true → c.confirmed = false
  | _ => True

/-! ## One channel -/

/-- What is true of each channel, whatever the others are. -/
structure Kept (phase : Phase) (c : IRCChannel) : Prop where
  marked : c.confirmed = true → c.joined = true ∧ c.flushed = true
  connecting : phase = .connecting → c.joined = false
  unregistered : phase ≠ .registered → c.confirmed = false
  sent : phase = .registered → c.joined = true → c.sent = true

/-- A JOIN was sent if it is enabled. -/
def Asked (c : IRCChannel) : Prop := c.enabled = true → c.sent = true

/-- The channels of a state, and that some wait for a JOIN only while there is one. -/
structure Invariant (s : State) : Prop where
  kept : ∀ c ∈ s.channels, Kept s.phase c
  waits : s.phase = .registered → s.awaiting ≠ [] ∨ ∀ c ∈ s.channels, Asked c

section Channel

variable {phase : Phase} {c : IRCChannel} {cs : List IRCChannel} {chan spec : CString} {row : Row}
  {ids : List ℤ} {flag : Bool}

theorem Kept.sent_of (h : Kept .registered c) : Kept .registered { c with sent := true } :=
  ⟨h.marked, h.connecting, h.unregistered, fun _ _ ↦ rfl⟩

theorem Kept.transmitJoin (h : Kept phase c) : Kept phase (transmitJoin phase c).1 := by
  rw [Joins.transmitJoin]
  split
  · rename_i hphase
    subst hphase
    exact h.sent_of
  · exact h

theorem Kept.left (phase : Phase) (c : IRCChannel) : Kept phase (channelLeave c) :=
  ⟨fun h ↦ (by cases h), fun _ ↦ rfl, fun _ ↦ rfl, fun _ h ↦ (by cases h)⟩

theorem Kept.update (h : Kept phase c) : Kept phase (update spec row c) := by
  rw [Joins.update]
  split
  · exact ⟨fun h ↦ (by cases h), fun _ ↦ rfl, fun _ ↦ rfl, fun _ h ↦ (by cases h)⟩
  · exact ⟨h.marked, h.connecting, h.unregistered, h.sent⟩

theorem kept_newChannel : Kept phase (newChannel spec row) :=
  ⟨fun h ↦ (by cases h), fun _ ↦ rfl, fun _ ↦ rfl, fun _ h ↦ (by cases h)⟩

/-! ## Loading -/

/-- A row changes the first channel with its number or adds one. -/
theorem mem_loadRow (hc : c ∈ loadRow spec row cs) :
    c ∈ cs ∨ (∃ d ∈ cs, d.channelId = row.channelId ∧ c = update spec row d) ∨
      c = newChannel spec row := by
  induction cs with
  | nil => exact .inr (.inr (List.mem_singleton.mp hc))
  | cons d cs ih =>
      rw [loadRow] at hc
      split at hc
      · rename_i hid
        rcases List.mem_cons.mp hc with rfl | hc
        · exact .inr (.inl ⟨d, List.mem_cons_self, hid, rfl⟩)
        · exact .inl (List.mem_cons_of_mem d hc)
      · rcases List.mem_cons.mp hc with rfl | hc
        · exact .inl List.mem_cons_self
        · rcases ih hc with hc | ⟨e, he, hid, rfl⟩ | rfl
          · exact .inl (List.mem_cons_of_mem d hc)
          · exact .inr (.inl ⟨e, List.mem_cons_of_mem d he, hid, rfl⟩)
          · exact .inr (.inr rfl)

theorem kept_load (hcs : ∀ c ∈ cs, Kept phase c) (rows : List Row) :
    ∀ c ∈ load spec rows cs, Kept phase c := by
  rw [load]
  have hstart : ∀ c ∈ cs.map fun c ↦ { c with visited := false }, Kept phase c := by
    intro c hc
    obtain ⟨d, hd, rfl⟩ := List.mem_map.mp hc
    have h := hcs d hd
    exact ⟨h.marked, h.connecting, h.unregistered, h.sent⟩
  generalize cs.map (fun c ↦ { c with visited := false }) = start at hstart
  induction rows generalizing start with
  | nil => exact hstart
  | cons row rows ih =>
      refine ih _ fun c hc ↦ ?_
      rcases mem_loadRow hc with hc | ⟨d, hd, -, rfl⟩ | rfl
      · exact hstart c hc
      · exact (hstart d hd).update
      · exact kept_newChannel

/-- A channel while the rows with these numbers are to come: one that is loaded and waits for a
JOIN is new. -/
def Loaded (ids : List ℤ) (c : IRCChannel) : Prop :=
  if c.visited then c.channelId ∉ ids ∧ (Asked c ∨ c.newChannel = true ∧ c.joined = false)
  else Asked c

theorem Loaded.tail {id : ℤ} (h : Loaded (id :: ids) c) : Loaded ids c := by
  rw [Loaded] at h ⊢
  split at h
  · rename_i hvisited
    rw [if_pos hvisited]
    exact ⟨fun hmem ↦ h.1 (List.mem_cons_of_mem id hmem), h.2⟩
  · rename_i hvisited
    rw [if_neg hvisited]
    exact h

theorem Loaded.update (h : Loaded (row.channelId :: ids) c) (hkept : Kept .registered c)
    (hid : c.channelId = row.channelId) (hnodup : row.channelId ∉ ids) :
    Loaded ids (update spec row c) := by
  have hasked : Asked c := by
    rw [Loaded] at h
    split at h
    · exact absurd (hid ▸ List.mem_cons_self) h.1
    · exact h
  rw [Joins.update]
  split
  · exact ⟨hid ▸ hnodup, .inr ⟨rfl, rfl⟩⟩
  · rename_i hsame
    refine ⟨hid ▸ hnodup, ?_⟩
    by_cases hjoined : c.joined = true
    · exact .inl fun _ ↦ hkept.sent rfl hjoined
    · by_cases henabled : c.enabled = true
      · exact .inl fun _ ↦ hasked henabled
      · by_cases hrow : row.enabled = true
        · refine .inr ⟨?_, Bool.eq_false_iff.mpr hjoined⟩
          change (!c.enabled && row.enabled) = true
          rw [hrow, Bool.eq_false_iff.mpr henabled]
          rfl
        · exact .inl fun h ↦ absurd h hrow

theorem loaded_newChannel (hnodup : row.channelId ∉ ids) : Loaded ids (newChannel spec row) :=
  ⟨hnodup, .inr ⟨rfl, rfl⟩⟩

theorem loaded_load (hcs : ∀ c ∈ cs, Kept .registered c) (hasked : ∀ c ∈ cs, Asked c)
    (rows : List Row) (hnodup : (rows.map Row.channelId).Nodup) :
    ∀ c ∈ load spec rows cs, Loaded [] c := by
  rw [load]
  have hstart : ∀ c ∈ cs.map fun c ↦ { c with visited := false },
      Kept .registered c ∧ Loaded (rows.map Row.channelId) c := by
    intro c hc
    obtain ⟨d, hd, rfl⟩ := List.mem_map.mp hc
    have h := hcs d hd
    exact ⟨⟨h.marked, h.connecting, h.unregistered, h.sent⟩, hasked d hd⟩
  generalize cs.map (fun c ↦ { c with visited := false }) = start at hstart
  induction rows generalizing start with
  | nil => exact fun c hc ↦ (hstart c hc).2
  | cons row rows ih =>
      rw [List.map_cons, List.nodup_cons] at hnodup
      refine ih hnodup.2 _ fun c hc ↦ ?_
      rcases mem_loadRow hc with hc | ⟨d, hd, hid, rfl⟩ | rfl
      · exact ⟨(hstart c hc).1, (hstart c hc).2.tail⟩
      · exact ⟨(hstart d hd).1.update, (hstart d hd).2.update (hstart d hd).1 hid hnodup.1⟩
      · exact ⟨kept_newChannel, loaded_newChannel hnodup.1⟩

theorem kept_sighupLoop (hcs : ∀ c ∈ cs, Kept phase c) :
    ∀ c ∈ (sighupLoop phase flag cs).1, Kept phase c := by
  induction cs generalizing flag with
  | nil => exact fun c hc ↦ by cases hc
  | cons d cs ih =>
      have hd := hcs d List.mem_cons_self
      have hrest := fun flag ↦ @ih flag fun c hc ↦ hcs c (List.mem_cons_of_mem d hc)
      intro c hc
      rw [sighupLoop] at hc
      split at hc
      · exact hrest _ c hc
      · split at hc
        · rcases List.mem_cons.mp hc with rfl | hc
          · exact hd.transmitJoin
          · exact hrest _ c hc
        · rcases List.mem_cons.mp hc with rfl | hc
          · split
            · exact ⟨hd.marked, hd.connecting, hd.unregistered, hd.sent⟩
            · exact hd
          · exact hrest _ c hc

/-- Where a channel waits for a JOIN, one is sent. -/
theorem asked_sighupLoop (hcs : ∀ c ∈ cs, Loaded [] c) :
    (sighupLoop .registered false cs).2 ≠ [] ∨
      ∀ c ∈ (sighupLoop .registered false cs).1, Asked c := by
  induction cs with
  | nil => exact .inr fun c hc ↦ by cases hc
  | cons d cs ih =>
      have hd := hcs d List.mem_cons_self
      have hrest := ih fun c hc ↦ hcs c (List.mem_cons_of_mem d hc)
      rw [Loaded] at hd
      rw [sighupLoop]
      split
      · exact hrest
      · rename_i hvisited
        rw [if_pos (not_not.mp hvisited)] at hd
        split
        · exact .inl (List.cons_ne_nil _ _)
        · rename_i hskip
          refine hrest.imp_right fun hall c hc ↦ ?_
          rcases List.mem_cons.mp hc with rfl | hc
          · have hasked : Asked d := hd.2.elim id fun hnew henabled ↦
              absurd ⟨hnew.1, henabled, by simp [hnew.2], by simp⟩ hskip
            split
            · exact hasked
            · exact hasked
          · exact hall c hc

/-! ## Callbacks -/

/-- A channel that is enabled and not joined. -/
def Unjoined (c : IRCChannel) : Bool := c.enabled && !c.joined

/-- Every enabled channel is joined. -/
def AllJoined (cs : List IRCChannel) : Prop := ∀ c ∈ cs, Unjoined c = false

/-- The first channel that is not. -/
def FirstUnjoined (cs : List IRCChannel) (u : IRCChannel) : Prop :=
  ∃ before after, cs = before ++ u :: after ∧ AllJoined before ∧ Unjoined u = true

theorem unjoined_iff_not : Unjoined c = false ↔ c.joined = true ∨ ¬ c.enabled = true := by
  rw [Unjoined]
  cases c.enabled <;> cases c.joined <;> simp

theorem AllJoined.cons (hc : Unjoined c = false) (h : AllJoined cs) : AllJoined (c :: cs) :=
  List.forall_mem_cons.mpr ⟨hc, h⟩

theorem FirstUnjoined.cons {u : IRCChannel} (hc : Unjoined c = false) (h : FirstUnjoined cs u) :
    FirstUnjoined (c :: cs) u := by
  obtain ⟨before, after, rfl, hbefore, hu⟩ := h
  exact ⟨c :: before, after, rfl, hbefore.cons hc, hu⟩

theorem kept_registeredLoop (hcs : ∀ c ∈ cs, Kept .connecting c) :
    ∀ c ∈ (registeredLoop cs).1, Kept .registered c := by
  have hkept : ∀ {c}, Kept .connecting c → Kept .registered c := fun h ↦
    ⟨h.marked, fun h ↦ (by cases h), fun h ↦ absurd rfl h,
      fun _ hjoined ↦ (by rw [h.connecting rfl] at hjoined; cases hjoined)⟩
  induction cs with
  | nil => exact fun c hc ↦ by cases hc
  | cons d cs ih =>
      have hd := hkept (hcs d List.mem_cons_self)
      have hcs' := fun c hc ↦ hcs c (List.mem_cons_of_mem d hc)
      intro c hc
      rw [registeredLoop] at hc
      split at hc
      · rcases List.mem_cons.mp hc with rfl | hc
        · exact hd
        · exact ih hcs' c hc
      · rcases List.mem_cons.mp hc with rfl | hc
        · exact hd.transmitJoin
        · exact hkept (hcs' c hc)

theorem asked_registeredLoop (hcs : ∀ c ∈ cs, Kept .connecting c) :
    (registeredLoop cs).2 ≠ [] ∨ ∀ c ∈ (registeredLoop cs).1, Asked c := by
  induction cs with
  | nil => exact .inr fun c hc ↦ by cases hc
  | cons d cs ih =>
      rw [registeredLoop]
      split
      · rename_i hskip
        refine (ih fun c hc ↦ hcs c (List.mem_cons_of_mem d hc)).imp_right fun hall c hc ↦ ?_
        rcases List.mem_cons.mp hc with rfl | hc
        · intro henabled
          have hjoined := (hcs c List.mem_cons_self).connecting rfl
          rw [hjoined] at hskip
          simp [henabled] at hskip
        · exact hall c hc
      · exact .inl (List.cons_ne_nil _ _)

/-- What the loop makes of the channels: some are marked, and one may be sent a JOIN. -/
theorem mem_joinChannelLoop (hc : c ∈ (joinChannelLoop chan cs).1) :
    ∃ d ∈ cs, c = d ∨ c = { d with sent := true } ∨
      c = { d with joined := true, newChannel := false, flushed := true, sent := true } := by
  induction cs with
  | nil => cases hc
  | cons d cs ih =>
      rw [joinChannelLoop] at hc
      split at hc
      · rcases List.mem_cons.mp hc with rfl | hc
        · exact ⟨c, List.mem_cons_self, .inl rfl⟩
        · obtain ⟨e, he, h⟩ := ih hc
          exact ⟨e, List.mem_cons_of_mem d he, h⟩
      · split at hc
        · rcases List.mem_cons.mp hc with rfl | hc
          · exact ⟨d, List.mem_cons_self, .inr (.inr rfl)⟩
          · obtain ⟨e, he, h⟩ := ih hc
            exact ⟨e, List.mem_cons_of_mem d he, h⟩
        · rcases List.mem_cons.mp hc with rfl | hc
          · exact ⟨d, List.mem_cons_self, .inr (.inl rfl)⟩
          · exact ⟨c, List.mem_cons_of_mem d hc, .inl rfl⟩

theorem sent_joinChannelLoop (chan : CString)
    (hcs : ∀ c ∈ cs, c.joined = true → c.sent = true) :
    ∀ c ∈ (joinChannelLoop chan cs).1, c.joined = true → c.sent = true := by
  intro c hc
  obtain ⟨d, hd, rfl | rfl | rfl⟩ := mem_joinChannelLoop hc
  · exact hcs c hd
  · exact fun _ ↦ rfl
  · exact fun _ ↦ rfl

/-- Where the loop ends: all are joined, or the first that is not gets a JOIN. -/
theorem end_joinChannelLoop (chan : CString) (cs : List IRCChannel) :
    AllJoined (joinChannelLoop chan cs).1 ∨ ∃ u,
      FirstUnjoined (joinChannelLoop chan cs).1 u ∧ (joinChannelLoop chan cs).2 = [u.channel] := by
  induction cs with
  | nil => exact .inl fun c hc ↦ by cases hc
  | cons d cs ih =>
      rw [joinChannelLoop]
      split
      · rename_i hskip
        have hd := unjoined_iff_not.mpr hskip
        exact ih.imp (.cons hd) fun ⟨u, hu, hjoin⟩ ↦ ⟨u, hu.cons hd, hjoin⟩
      · split
        · have hd : Unjoined { d with joined := true, newChannel := false, flushed := true,
                                      sent := true } = false := unjoined_iff_not.mpr (.inl rfl)
          exact ih.imp (.cons hd) fun ⟨u, hu, hjoin⟩ ↦ ⟨u, hu.cons hd, hjoin⟩
        · rename_i hskip _
          refine .inr ⟨{ d with sent := true }, ⟨[], _, rfl, fun c hc ↦ (by cases hc), ?_⟩, rfl⟩
          exact (Bool.not_eq_false _).mp fun h ↦ hskip (unjoined_iff_not.mp h)

/-- The flags that the loop does not change. -/
theorem enabled_joinChannelLoop (chan : CString) (cs : List IRCChannel) :
    (joinChannelLoop chan cs).1.map IRCChannel.enabled = cs.map IRCChannel.enabled := by
  induction cs with
  | nil => rfl
  | cons d cs ih =>
      rw [joinChannelLoop]
      split
      · exact congrArg (d.enabled :: ·) ih
      · split
        · exact congrArg (d.enabled :: ·) ih
        · rfl

theorem countP_joinChannelLoop_le (chan : CString) (cs : List IRCChannel) :
    (joinChannelLoop chan cs).1.countP Unjoined ≤ cs.countP Unjoined := by
  induction cs with
  | nil => exact Nat.le_refl 0
  | cons d cs ih =>
      rw [joinChannelLoop]
      split
      · rw [List.countP_cons, List.countP_cons]
        exact Nat.add_le_add_right ih _
      · split
        · rw [List.countP_cons_of_neg (by simp [Unjoined])]
          exact Nat.le_trans ih (List.sublist_cons_self d cs).countP_le
        · exact Nat.le_refl _

/-- A confirmation for the first of them marks it. -/
theorem countP_joinChannelLoop_lt {u : IRCChannel} (h : FirstUnjoined cs u)
    (hchan : sameIgnoringCase chan u.channel = true) :
    (joinChannelLoop chan cs).1.countP Unjoined < cs.countP Unjoined := by
  obtain ⟨before, after, rfl, hbefore, hu⟩ := h
  induction before with
  | nil =>
      have hnot : ¬ (u.joined = true ∨ ¬ u.enabled = true) := fun h ↦ by
        rw [unjoined_iff_not.mpr h] at hu
        cases hu
      rw [List.nil_append, joinChannelLoop, if_neg hnot, if_pos hchan]
      rw [List.countP_cons_of_neg (by simp [Unjoined]), List.countP_cons_of_pos hu]
      exact Nat.lt_succ_of_le (countP_joinChannelLoop_le chan after)
  | cons d before ih =>
      have hd := hbefore d List.mem_cons_self
      have hrest := ih fun c hc ↦ hbefore c (List.mem_cons_of_mem d hc)
      rw [List.cons_append, joinChannelLoop, if_pos (unjoined_iff_not.mp hd),
        List.countP_cons_of_neg (by simp [hd]), List.countP_cons_of_neg (by simp [hd])]
      exact hrest

/-- The confirmed channels are marked where the loop gets to them. -/
theorem marked_joinChannelLoop
    (hcs : ∀ c ∈ cs, c.confirmed = true → c.joined = true ∧ c.flushed = true)
    (horder : ∀ before c after, cs = before ++ c :: after →
      sameIgnoringCase chan c.channel = true →
        if c.joined then c.flushed = true
        else c.enabled = true ∧ ∀ d ∈ before, d.enabled = true → d.joined = true ∨
          sameIgnoringCase chan d.channel = true) :
    ∀ c ∈ (joinChannelLoop chan (cs.map (confirm chan))).1,
      c.confirmed = true → c.joined = true ∧ c.flushed = true := by
  induction cs with
  | nil => exact fun c hc ↦ by cases hc
  | cons d cs ih =>
      have hrest := ih (fun c hc ↦ hcs c (List.mem_cons_of_mem d hc))
        fun before c after heq hsame ↦ by
          have h := horder (d :: before) c after (by rw [heq, List.cons_append]) hsame
          split at h
          · rename_i hjoined
            rwa [if_pos hjoined]
          · rename_i hjoined
            rw [if_neg hjoined]
            exact ⟨h.1, fun e he ↦ h.2 e (List.mem_cons_of_mem d he)⟩
      rw [List.map_cons, joinChannelLoop]
      by_cases hsame : sameIgnoringCase chan d.channel = true
      · rw [confirm, if_pos hsame]
        have h := horder [] d cs rfl hsame
        split
        · rename_i hskip
          intro c hc
          rcases List.mem_cons.mp hc with rfl | hc
          · intro _
            split at h
            · rename_i hjoined
              exact ⟨hjoined, h⟩
            · rename_i hjoined
              exact absurd hskip (not_or.mpr ⟨hjoined, not_not.mpr h.1⟩)
          · exact hrest c hc
        · intro c hc
          rcases List.mem_cons.mp hc with rfl | hc
          · exact fun _ ↦ ⟨rfl, rfl⟩
          · exact hrest c hc
      · rw [confirm, if_neg hsame]
        have hd := hcs d List.mem_cons_self
        split
        · intro c hc
          rcases List.mem_cons.mp hc with rfl | hc
          · exact hd
          · exact hrest c hc
        · -- the loop stops here, so there is none behind that it should mark
          rename_i hskip
          obtain ⟨hunjoined, henabled⟩ := not_or.mp hskip
          intro c hc
          rcases List.mem_cons.mp hc with rfl | hc
          · exact hd
          · obtain ⟨e, he, rfl⟩ := List.mem_map.mp hc
            rw [confirm]
            split
            · rename_i hother
              obtain ⟨before, after, rfl⟩ := List.append_of_mem he
              have h := horder (d :: before) e after rfl hother
              split at h
              · rename_i hjoined
                exact fun _ ↦ ⟨hjoined, h⟩
              · exact absurd (h.2 d List.mem_cons_self (not_not.mp henabled))
                  (not_or.mpr ⟨hunjoined, hsame⟩)
            · exact hcs e (List.mem_cons_of_mem d he)

/-- An invitation changes one channel that is enabled, and sends its JOIN. -/
theorem inviteLoop_cases (chan : CString) (cs : List IRCChannel) :
    inviteLoop chan cs = (cs, []) ∨
      (inviteLoop chan cs).2 ≠ [] ∧ ∀ c ∈ (inviteLoop chan cs).1, c ∈ cs ∨
        ∃ d ∈ cs, sameIgnoringCase chan d.channel = true ∧ d.enabled = true ∧
          c = { d with joined := false, sent := true } := by
  induction cs with
  | nil => exact .inl rfl
  | cons d cs ih =>
      rw [inviteLoop]
      split
      · rename_i hsame
        split
        · rename_i henabled
          refine .inr ⟨List.cons_ne_nil _ _, fun c hc ↦ ?_⟩
          rcases List.mem_cons.mp hc with rfl | hc
          · exact .inr ⟨d, List.mem_cons_self, hsame, henabled, rfl⟩
          · exact .inl (List.mem_cons_of_mem d hc)
        · exact .inl rfl
      · refine ih.imp (fun h ↦ ?_) fun ⟨hjoin, hall⟩ ↦ ⟨hjoin, fun c hc ↦ ?_⟩
        · rw [h]
        · rcases List.mem_cons.mp hc with rfl | hc
          · exact .inl List.mem_cons_self
          · refine (hall c hc).imp (List.mem_cons_of_mem d) ?_
            rintro ⟨e, he, h⟩
            exact ⟨e, List.mem_cons_of_mem d he, h⟩

end Channel

/-! ## The steps -/

section Steps

variable {s s' : State} {chan : CString}

theorem init_invariant (h : Init s) : Invariant s where
  kept := fun c hc ↦
    have hc := h.2.2 c hc
    ⟨fun hconfirmed ↦ (by rw [hc.2.1] at hconfirmed; cases hconfirmed), fun _ ↦ hc.1,
      fun _ ↦ hc.2.1, fun _ hjoined ↦ (by rw [hc.1] at hjoined; cases hjoined)⟩
  waits := fun hphase ↦ by rw [h.1] at hphase; cases hphase

theorem append_ne_nil {joins : List CString} {cs : List IRCChannel} (awaiting : List CString)
    (h : joins ≠ [] ∨ ∀ c ∈ cs, Asked c) : awaiting ++ joins ≠ [] ∨ ∀ c ∈ cs, Asked c :=
  h.imp_left (List.append_ne_nil_of_right_ne_nil awaiting)

theorem Invariant.registered (h : Invariant s) (he : step s .registered = some s') :
    Invariant s' := by
  rw [step] at he
  split at he
  · rename_i hphase
    cases he
    have hkept := h.kept
    rw [hphase] at hkept
    exact ⟨kept_registeredLoop hkept, fun _ ↦ append_ne_nil _ (asked_registeredLoop hkept)⟩
  · cases he

theorem Invariant.joinChannel (h : Invariant s) (horder : Orderly s (.joinChannel chan))
    (he : step s (.joinChannel chan) = some s') : Invariant s' := by
  rw [step] at he
  split at he
  · rename_i hstep
    obtain ⟨hphase, -⟩ := hstep
    cases he
    have hsent : ∀ c ∈ s.channels.map (confirm chan), c.joined = true → c.sent = true := by
      intro c hc
      obtain ⟨d, hd, rfl⟩ := List.mem_map.mp hc
      have hd := (h.kept d hd).sent hphase
      rw [confirm]
      split <;> exact hd
    have hsent' := sent_joinChannelLoop chan hsent
    have hmarked := marked_joinChannelLoop (fun c hc ↦ (h.kept c hc).marked) horder
    refine ⟨fun c hc ↦ ⟨hmarked c hc, fun h ↦ ?_, fun h ↦ absurd hphase h, fun _ ↦ hsent' c hc⟩,
      fun _ ↦ append_ne_nil _ ?_⟩
    · rw [hphase] at h
      cases h
    · rcases end_joinChannelLoop chan (s.channels.map (confirm chan)) with hall | ⟨u, -, hjoin⟩
      · refine .inr fun c hc henabled ↦ hsent' c hc ?_
        exact (unjoined_iff_not.mp (hall c hc)).resolve_right (not_not.mpr henabled)
      · rw [hjoin]
        exact .inl (List.cons_ne_nil _ _)
  · cases he

theorem Invariant.refused (h : Invariant s) (horder : Orderly s (.refused chan))
    (he : step s (.refused chan) = some s') : Invariant s' := by
  rw [step] at he
  split at he
  · cases he
    exact ⟨h.kept, fun _ ↦ horder⟩
  · cases he

theorem Invariant.invite (h : Invariant s) (horder : Orderly s (.invite chan))
    (he : step s (.invite chan) = some s') : Invariant s' := by
  rw [step] at he
  split at he
  · rename_i hphase
    cases he
    rcases inviteLoop_cases chan s.channels with heq | ⟨hjoin, hall⟩
    · rw [heq]
      exact ⟨h.kept, fun _ ↦ (h.waits hphase).imp_left (List.append_ne_nil_of_left_ne_nil · [])⟩
    · refine ⟨fun c hc ↦ ?_, fun _ ↦ append_ne_nil _ (.inl hjoin)⟩
      rcases hall c hc with hc | ⟨d, hd, hsame, henabled, rfl⟩
      · exact h.kept c hc
      · have hd' := h.kept d hd
        refine ⟨fun hconfirmed ↦ ?_, fun _ ↦ rfl, hd'.unregistered, fun _ h ↦ (by cases h)⟩
        have hfalse := horder d hd hsame henabled
        rw [hfalse] at hconfirmed
        cases hconfirmed
  · cases he

theorem Invariant.kick (h : Invariant s) (he : step s (.kick chan) = some s') : Invariant s' := by
  rw [step] at he
  split at he
  · cases he
    refine ⟨fun c hc ↦ ?_, fun hphase ↦ (h.waits hphase).imp_right fun hall c hc ↦ ?_⟩
    · obtain ⟨d, hd, rfl⟩ := List.mem_map.mp hc
      have hd := h.kept d hd
      rw [kicked]
      split
      · exact ⟨fun h ↦ (by cases h), hd.connecting, fun _ ↦ rfl, hd.sent⟩
      · exact hd
    · obtain ⟨d, hd, rfl⟩ := List.mem_map.mp hc
      have hd := hall d hd
      rw [kicked]
      split <;> exact hd
  · cases he

theorem Invariant.reload {spec : CString} {table : Table} (h : Invariant s)
    (he : step s (.reload spec table) = some s') : Invariant s' := by
  rw [step] at he
  cases he
  refine ⟨kept_sighupLoop (kept_load h.kept table.rows), fun hphase ↦ ?_⟩
  have hkept := h.kept
  dsimp only at hphase ⊢
  rw [hphase] at hkept ⊢
  rcases h.waits hphase with hne | hasked
  · exact .inl (List.append_ne_nil_of_left_ne_nil hne _)
  · exact append_ne_nil _
      (asked_sighupLoop (loaded_load hkept hasked table.rows table.nodup))

theorem lost_invariant (he : step s .lost = some s') : Invariant s' := by
  rw [step] at he
  split at he
  · cases he
  · cases he
    refine ⟨fun c hc ↦ ?_, fun h ↦ by cases h⟩
    obtain ⟨d, hd, rfl⟩ := List.mem_map.mp hc
    exact ⟨fun h ↦ (by cases h), fun h ↦ (by cases h), fun _ ↦ rfl, fun h ↦ (by cases h)⟩

theorem Invariant.reconnect (h : Invariant s) (he : step s .reconnect = some s') :
    Invariant s' := by
  rw [step] at he
  split at he
  · rename_i hphase
    cases he
    refine ⟨fun c hc ↦ ?_, fun h ↦ by cases h⟩
    obtain ⟨d, hd, rfl⟩ := List.mem_map.mp hc
    have hconfirmed := (h.kept d hd).unregistered (by rw [hphase]; exact fun h ↦ by cases h)
    refine ⟨fun hmarked ↦ ?_, fun _ ↦ rfl, fun _ ↦ hconfirmed, fun h ↦ by cases h⟩
    exact absurd (hconfirmed.symm.trans hmarked) Bool.false_ne_true
  · cases he

theorem Invariant.step {e : Event} (h : Invariant s) (horder : Orderly s e)
    (he : step s e = some s') : Invariant s' := by
  cases e with
  | registered => exact h.registered he
  | joinChannel chan => exact h.joinChannel horder he
  | refused chan => exact h.refused horder he
  | invite chan => exact h.invite horder he
  | kick chan => exact h.kick he
  | reload spec table => exact h.reload he
  | lost => exact lost_invariant he
  | reconnect => exact h.reconnect he

/-! ## What comes -/

theorem unjoined_confirm (chan : CString) (c : IRCChannel) :
    Unjoined (confirm chan c) = Unjoined c := by
  rw [confirm]
  split <;> rfl

theorem firstUnjoined_confirm (chan : CString) {cs : List IRCChannel} {u : IRCChannel}
    (h : FirstUnjoined cs u) :
    FirstUnjoined (cs.map (confirm chan)) (confirm chan u) := by
  obtain ⟨before, after, rfl, hbefore, hu⟩ := h
  refine ⟨before.map (confirm chan), after.map (confirm chan), by simp, fun c hc ↦ ?_, ?_⟩
  · obtain ⟨d, hd, rfl⟩ := List.mem_map.mp hc
    rw [unjoined_confirm]
    exact hbefore d hd
  · rwa [unjoined_confirm]

/-- Where every channel that is joined was sent a JOIN and the first that is not has one. -/
structure Chained (s : State) : Prop where
  phase : s.phase = .registered
  sent : ∀ c ∈ s.channels, c.joined = true → c.sent = true
  next : AllJoined s.channels ∨ ∃ u, FirstUnjoined s.channels u ∧ u.channel ∈ s.awaiting

/-- A confirmation sends the next JOIN, and marks the channel that it is waited for. -/
theorem exists_chained (hphase : s.phase = .registered)
    (hsent : ∀ c ∈ s.channels, c.joined = true → c.sent = true) (hmem : chan ∈ s.awaiting) :
    ∃ s', step s (.joinChannel chan) = some s' ∧ Chained s' ∧
      s'.channels.map IRCChannel.enabled = s.channels.map IRCChannel.enabled ∧
      ∀ u, FirstUnjoined s.channels u → sameIgnoringCase chan u.channel = true →
        s'.channels.countP Unjoined < s.channels.countP Unjoined := by
  have hsent' : ∀ c ∈ s.channels.map (confirm chan), c.joined = true → c.sent = true := by
    intro c hc
    obtain ⟨d, hd, rfl⟩ := List.mem_map.mp hc
    have hd := hsent d hd
    rw [confirm]
    split <;> exact hd
  refine ⟨_, if_pos ⟨hphase, hmem⟩, ⟨hphase, sent_joinChannelLoop chan hsent', ?_⟩, ?_, ?_⟩
  · refine (end_joinChannelLoop chan _).imp id ?_
    rintro ⟨u, hu, hjoin⟩
    refine ⟨u, hu, List.mem_append_right _ ?_⟩
    rw [hjoin]
    exact List.mem_singleton_self _
  · refine (enabled_joinChannelLoop chan _).trans ?_
    rw [List.map_map]
    refine List.map_congr_left fun c _ ↦ ?_
    rw [Function.comp_apply, confirm]
    split <;> rfl
  · intro u hu hsame
    have hlt := countP_joinChannelLoop_lt (firstUnjoined_confirm chan hu) (by
      rw [confirm]
      split <;> exact hsame)
    rwa [List.countP_map, show Unjoined ∘ confirm chan = Unjoined from
      funext (unjoined_confirm chan)] at hlt

/-- Confirmations one after the other join all channels. -/
theorem Chained.exists_allJoined {n : ℕ} (h : Chained s) (hn : s.channels.countP Unjoined = n) :
    ∃ (chans : List CString) (s' : State), system.run s (chans.map .joinChannel) = some s' ∧
      AllJoined s'.channels ∧ (∀ c ∈ s'.channels, c.joined = true → c.sent = true) ∧
      s'.channels.map IRCChannel.enabled = s.channels.map IRCChannel.enabled := by
  induction n using Nat.strongRecOn generalizing s with
  | ind n ih =>
      rcases h.next with hall | ⟨u, hu, hmem⟩
      · exact ⟨[], s, rfl, hall, h.sent, rfl⟩
      · obtain ⟨s₁, hstep, h₁, henabled, hlt⟩ := exists_chained h.phase h.sent hmem
        obtain ⟨chans, s', hrun, hall, hsent, henabled'⟩ :=
          ih _ (hn ▸ hlt u hu (sameIgnoringCase_refl _)) h₁ rfl
        refine ⟨u.channel :: chans, s', ?_, hall, hsent, henabled'.trans henabled⟩
        rw [List.map_cons, System.run_cons,
          show system.step s (.joinChannel u.channel) = some s₁ from hstep]
        exact hrun

/-- While a JOIN waits for its answer, every enabled channel comes. -/
theorem Invariant.coming (h : Invariant s) (hphase : s.phase = .registered) {i : ℕ}
    {c : IRCChannel} (hc : s.channels[i]? = some c) (henabled : c.enabled = true) :
    Coming s i := by
  rcases h.waits hphase with hne | hasked
  · obtain ⟨chan, hmem⟩ := List.exists_mem_of_ne_nil _ hne
    obtain ⟨s₁, hstep, h₁, henabled₁, -⟩ :=
      exists_chained hphase (fun c hc ↦ (h.kept c hc).sent hphase) hmem
    obtain ⟨chans, s', hrun, hall, hsent, henabled'⟩ := h₁.exists_allJoined rfl
    refine ⟨chan :: chans, s', ?_, ?_⟩
    · rw [List.map_cons, System.run_cons,
        show system.step s (.joinChannel chan) = some s₁ from hstep]
      exact hrun
    · have hflag : (s'.channels.map IRCChannel.enabled)[i]? = some true := by
        rw [henabled', henabled₁, List.getElem?_map, hc, Option.map_some, henabled]
      rw [List.getElem?_map] at hflag
      obtain ⟨d, hd, hdenabled⟩ := Option.map_eq_some_iff.mp hflag
      have hmem := List.mem_of_getElem? hd
      exact ⟨d, hd, hsent d hmem
        ((unjoined_iff_not.mp (hall d hmem)).resolve_right (not_not.mpr hdenabled))⟩
  · exact ⟨[], s, rfl, c, hc, hasked c (List.mem_of_getElem? hc) henabled⟩

theorem reachable_invariant (h : system.ReachableVia Orderly s) : Invariant s :=
  h.invariant (fun _ ↦ init_invariant) fun _ _ _ ↦ Invariant.step

end Steps

/-- An enabled channel that was just loaded. -/
def loaded (channelId : ℤ) (channel : CString) : IRCChannel :=
  { channelId := channelId, channel := channel, fullspec := channel, joined := false
    visited := true, enabled := true, newChannel := true, confirmed := false, flushed := false
    sent := false }

end Beirdobot.Channels.Joins
