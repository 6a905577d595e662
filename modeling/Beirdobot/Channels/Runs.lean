import Beirdobot.Channels.Reload

/-!
# Runs of loads, edits and kills

The channels of all servers, and what can happen to them in any order.  The list and
the two trees of a server agree in every run whose edits and rows leave the channels of
the server in the order of their names.
-/

namespace Beirdobot.Channels

open Library BTree BinaryTree

variable {ι : Type}

/-- What can happen to the channels of a server: the parts of `mainSighup` that concern
them, `botSighup`, `serverKill`, what `result_load_servers` and the form of the server do
to its settings, the fields of the form of a channel, its end, and the whole form of a
new channel. -/
inductive Event (ι : Type)
  | unvisit
  | load (res : Option (List Row))
  | sighup
  | kill (unalloc : Bool)
  | configure (settings : Settings)
  | display (x : ι)
  | saveName (x : ι) (string : CString)
  | saveEnabled (x : ι) (enabled : Bool)
  | saveServer (x : ι) (server : Option ℕ)
  | saved (x : ι)
  | create (string : CString) (enabled : Bool) (insertid : Option ℤ) (res : Option (List Row))

/-- All servers and `regexpList`. -/
structure World (ι : Type) where
  server : ℕ → Server ι
  regexpList : List Regexp

/-- What the functions see of one server. -/
def World.view (w : World ι) (self : ℕ) : View ι :=
  { w.server self with regexpList := w.regexpList }

/-- What they leave of it. -/
def World.put (w : World ι) (self : ℕ) (v : View ι) : World ι :=
  { server := Function.update w.server self v.toServer, regexpList := v.regexpList }

section Events

variable [DecidableEq ι] (malloc : List ι → ι) (compiles : CString → Bool)

/-- An event. -/
def call (v : View ι) : Event ι → Option (View ι)
  | .unvisit => some (unvisit v)
  | .load res => resultLoadChannels malloc compiles v res
  | .sighup => botSighup v
  | .kill unalloc => serverKill v unalloc
  | .configure settings => some { v with toSettings := settings }
  | .display x => some (cursesChannelDisplay v x)
  | .saveName x string => saveName v x string
  | .saveEnabled x enabled => some (saveEnabled v x enabled)
  | .saveServer x server => some (saveServer v x server)
  | .saved x => some (channelSaved v x)
  | .create string enabled insertid res => createChannel malloc compiles v string enabled insertid res

/-- The events of all servers, from the start of the program. -/
def system : System (World ι) (ℕ × Event ι) where
  init w := ∀ self, (w.server self).lists = none
  step w e := (call malloc compiles (w.view e.1) e.2).map (w.put e.1)

end Events

/-- The list and both trees of a server have the same channels, the trees in the order
of what is in the records now, and the searches find them by that. -/
structure Agrees (s : Server ι) : Prop where
  trees : ∀ lists, s.lists = some lists → ∃ names nums : BinaryTree ι,
    Holds lists.channelName.toPointers names ∧ names.inorder.Perm lists.channels ∧
      Increasing keyCompareString (fun x ↦ caseless (s.mem x).channel) names.inorder ∧
      Holds lists.channelNum.toPointers nums ∧ nums.inorder.Perm lists.channels ∧
      Increasing keyCompareInt (fun x ↦ (s.mem x).channelId) nums.inorder
  findChannel : ∀ channame, ∃ r, s.findChannel true channame = some r ∧
    ∀ x, r = some x ↔ x ∈ s.channels ∧ caseless (s.mem x).channel = caseless channame
  findChannelNum : ∀ channum, ∃ r, s.findChannelNum true channum = some r ∧
    ∀ x, r = some x ↔ x ∈ s.channels ∧ (s.mem x).channelId = channum

/-- A new name leaves the channel where it is in the order of the names. -/
def KeepsPlace (s : Server ι) (x : ι) (name : CString) : Prop :=
  ∀ y ∈ s.channels, y ≠ x → caseless name ≠ caseless (s.mem y).channel ∧
    (caseless (s.mem y).channel < caseless (s.mem x).channel ↔
      caseless (s.mem y).channel < caseless name)

/-- A number that no channel of the server has, and either the rows have it, or no row
has the name that comes with it. -/
def Enters (s : Server ι) (id : ℤ) (name : CString) (rows : List Row) : Prop :=
  (∀ x ∈ s.channels, (s.mem x).channelId ≠ id) ∧
    ((∃ row ∈ rows, row.channelId = id) ∨ ∀ row ∈ rows, caseless row.channel ≠ caseless name)

/-- The names stay in their order: the rows of a load give names that no other channel
has, an edit of a name leaves the channel where it is, and the form of a new channel adds
a channel that the reload finds, or that shares its name with none. -/
def Careful (s : Server ι) : Event ι → Prop
  | .load res => Fits (entries s.mem s.channels) (res.getD [])
  | .saveName x string =>
      sameIgnoringCase string "(NULL)".toList = false ∧
        (x ∈ s.channels → KeepsPlace s x (trimBlanks string))
  | .create string _ insertid res =>
      sameIgnoringCase string "(NULL)".toList = false ∧
        Fits (entries s.mem s.channels) (res.getD []) ∧
        (s.lists ≠ none → Enters s (insertid.getD (-1)) (trimBlanks string) (res.getD []))
  | _ => True

/-- Between the events, all channels of the list are in the trees. -/
def Settled (v : View ι) : Prop :=
  ∃ l, Ready v l ∧ ∀ x ∈ l, (v.mem x).justAdded = false

theorem placed_eq {mem : ι → IRCChannel} {l : List ι} (h : ∀ x ∈ l, (mem x).justAdded = false) :
    placed mem l = l :=
  List.filter_eq_self.mpr fun x hx ↦ by simp [h x hx]

namespace Settled

variable {v v' : View ι}

/-- Records can change what their place does not depend on. -/
theorem of_mem (h : Settled v) (hlists : v'.lists = v.lists) (hlive : v'.live = v.live)
    (hmem : ∀ x ∈ v.channels, (v'.mem x).channel = (v.mem x).channel ∧
      (v'.mem x).channelId = (v.mem x).channelId ∧
      (v'.mem x).justAdded = (v.mem x).justAdded) : Settled v' := by
  obtain ⟨l, hl, hj⟩ := h
  rw [hl.channels] at hmem
  refine ⟨l, ⟨fun hne ↦ ?_, fun he ↦ hl.none (hlists ▸ he)⟩, fun x hx ↦ ?_⟩
  · exact (hl.shape (hlists ▸ hne)).of_mem hlists hlive hmem
  · rw [(hmem x hx).2.2, hj x hx]

theorem modify [DecidableEq ι] (h : Settled v) (x : ι) {f : IRCChannel → IRCChannel}
    (hf : ∀ c, (f c).channel = c.channel ∧ (f c).channelId = c.channelId ∧
      (f c).justAdded = c.justAdded) : Settled (v.modify x f) :=
  h.of_mem rfl rfl fun y _ ↦ by
    by_cases hyx : y = x
    · rw [hyx, modify_mem_self]
      exact hf _
    · rw [modify_mem_of_ne _ _ _ hyx]
      exact ⟨rfl, rfl, rfl⟩

theorem agrees [DecidableEq ι] (h : Settled v) : Agrees v.toServer := by
  obtain ⟨l, hl, hj⟩ := h
  cases hls : v.lists with
  | none =>
      have hnone : v.channels = [] := by rw [Server.channels, hls]
      refine ⟨fun lists he ↦ ?_, fun channame ↦ ⟨none, ?_, ?_⟩, fun channum ↦ ⟨none, ?_, ?_⟩⟩
      · rw [hls] at he
        cases he
      · rw [Server.findChannel, if_pos rfl, hls]
      · simp [hnone]
      · rw [Server.findChannelNum, if_pos rfl, hls]
      · simp [hnone]
  | some ls =>
      have hs := hl.shape (by simp [hls])
      have hh := hs.holding
      rw [placed_eq hj, hls] at hh
      have hfuel : v.live.length ≤ v.fuel := Nat.le_add_right ..
      refine ⟨fun lists he ↦ ?_, fun channame ↦ ?_, fun channum ↦ ?_⟩
      · rw [hls] at he
        cases he
        obtain ⟨_, he, hl', -, -, hname, hnum⟩ := hh.lists
        cases he
        obtain ⟨tn, hn, hin, hpn⟩ := hname.tree
        obtain ⟨tm, hm, him, hpm⟩ := hnum.tree
        rw [hl']
        exact ⟨tn, tm, hn, hpn, hin, hm, hpm, him⟩
      · obtain ⟨r, he, hr⟩ := findName_eq hh channame .unlocked (fun _ ↦ rfl) _ hfuel
        refine ⟨r, ?_, by rw [hs.channels]; exact hr⟩
        rw [Server.findChannel, if_pos rfl, hls]
        exact congrArg (Option.map Prod.snd) he
      · obtain ⟨r, he, hr⟩ := findNum_eq hh channum .unlocked (fun _ ↦ rfl) _ hfuel
        refine ⟨r, ?_, by rw [hs.channels]; exact hr⟩
        rw [Server.findChannelNum, if_pos rfl, hls]
        exact congrArg (Option.map Prod.snd) he

end Settled

/-! ## One event -/

section Steps

variable [DecidableEq ι] {malloc : List ι → ι} {compiles : CString → Bool} {v : View ι} {x : ι}

omit [DecidableEq ι] in
theorem Apart.of_placed {mem : ι → IRCChannel} {l xs : List ι}
    (h : ∀ x ∈ xs, (mem x).justAdded = false) : Apart mem l xs where
  visited x hx hj := by simp [h x hx] at hj
  later := List.pairwise_of_forall_mem_list fun x hx _ _ hj ↦ by simp [h x hx] at hj

theorem unvisit_settled (h : Settled v) : Settled (unvisit v) :=
  h.of_mem rfl rfl fun x hx ↦ by
    have hmem : (unvisit v).mem x = { v.mem x with visited := false } := if_pos hx
    rw [hmem]
    exact ⟨rfl, rfl, rfl⟩

theorem load_settled (compiles : CString → Bool) (hmalloc : ∀ l, malloc l ∉ l) (h : Settled v)
    {res : Option (List Row)} (hfits : Fits (entries v.mem v.channels) (res.getD [])) :
    ∃ v', resultLoadChannels malloc compiles v res = some v' ∧ Settled v' := by
  rcases res with _ | _ | ⟨row, rows⟩
  · exact ⟨v, rfl, h⟩
  · exact ⟨v, rfl, h⟩
  · obtain ⟨l, hl, hj⟩ := h
    rw [hl.channels] at hfits
    obtain ⟨v', l', he, h', hj'⟩ := resultLoadChannels_eq compiles
      (P := fun v l _ ↦ ∀ x ∈ l, (v.mem x).justAdded = false) hmalloc
      (fun v v' l row rows x _ hj ht y hy ↦ by
        by_cases hyx : y = x
        · obtain ⟨joined, newChannel, hrecord⟩ := ht.record
          rw [hyx, hrecord]
          rfl
        · rw [ht.rest y hyx]
          exact hj y ((mem_turnList y).mp hy |>.resolve_left hyx))
      (fun _ _ _ _ h ↦ h) hl (List.cons_ne_nil row rows) hfits hj
    exact ⟨v', he, l', h'.ready, hj'⟩

theorem sighup_settled (h : Settled v) : ∃ v', botSighup v = some v' ∧ Settled v' := by
  obtain ⟨l, hl, hj⟩ := h
  cases hls : v.lists with
  | none => exact ⟨v, by rw [botSighup, hls], l, hl, hj⟩
  | some ls =>
      obtain ⟨v', he, h', hleft⟩ := botSighup_eq (hl.shape (by simp [hls])) (.of_placed hj)
      refine ⟨v', he, _, h'.ready, fun x hx ↦ ?_⟩
      rw [hleft.justAdded]
      exact hj x (List.mem_of_mem_filter hx)

theorem kill_settled (h : Settled v) (unalloc : Bool) :
    ∃ v', serverKill v unalloc = some v' ∧ Settled v' := by
  obtain ⟨l, hl, hj⟩ := h
  cases hls : v.lists with
  | none =>
      have hnil : ∃ v', serverKill v unalloc = some v' ∧ v'.lists = none := by
        cases unalloc <;> simp [serverKill, hls]
      obtain ⟨v', he, hls'⟩ := hnil
      exact ⟨v', he, [], ⟨fun hne ↦ absurd hls' hne, fun _ ↦ rfl⟩, by simp⟩
  | some ls =>
      obtain ⟨v', he, hls', -⟩ := serverKill_eq unalloc (hl.shape (by simp [hls])) hj
      exact ⟨v', he, [], ⟨fun hne ↦ absurd hls' hne, fun _ ↦ rfl⟩, by simp⟩

/-- An edit of a name that keeps its place keeps the order of the tree. -/
theorem saveName_settled (h : Settled v) {string : CString}
    (hnull : sameIgnoringCase string "(NULL)".toList = false)
    (hkeep : x ∈ v.channels → KeepsPlace v.toServer x (trimBlanks string)) :
    ∃ v', saveName v x string = some v' ∧ Settled v' := by
  refine ⟨_, by rw [saveName, if_neg (Bool.eq_false_iff.mp hnull)], ?_⟩
  by_cases hx : x ∈ v.channels
  · obtain ⟨l, hl, hj⟩ := h
    have hkeep := hkeep hx
    simp only [KeepsPlace, hl.channels] at hkeep
    rw [hl.channels] at hx
    let f : IRCChannel → IRCChannel := fun channel ↦ { channel with channel := trimBlanks string }
    have hf : ∀ y, (f (v.mem y)).justAdded = (v.mem y).justAdded ∧
        (f (v.mem y)).channelId = (v.mem y).channelId := fun _ ↦ ⟨rfl, rfl⟩
    have hmem : ∀ y, ((v.modify x f).mem y).justAdded = (v.mem y).justAdded ∧
        ((v.modify x f).mem y).channelId = (v.mem y).channelId := by
      intro y
      by_cases hyx : y = x
      · rw [hyx, modify_mem_self]
        exact hf x
      · rw [modify_mem_of_ne _ _ _ hyx]
        exact ⟨rfl, rfl⟩
    refine ⟨l, ⟨fun hne ↦ ⟨?_, ?_⟩, hl.none⟩, fun y hy ↦ ?_⟩
    · have hs := hl.shape hne
      obtain ⟨ls, hls, hl', hmn, hmm, hname, hnum⟩ := hs.holding.lists
      have hpl : placed (v.modify x f).mem l = placed v.mem l :=
        placed_congr fun y _ ↦ (hmem y).1
      have hnamed := hname.set_key keyCompareString_strictTotal x (caseless (trimBlanks string))
        fun y hy hyx ↦ by
          obtain ⟨hne, hiff⟩ := hkeep y (mem_placed.mp hy).1 hyx
          refine ⟨hne, ?_⟩
          show keyCompareString (caseless (v.mem y).channel) (caseless (v.mem x).channel) < 0 ↔ _
          rw [keyCompareString_neg, keyCompareString_neg]
          exact hiff
      refine ⟨⟨ls, hls, hl', hmn, hmm, ?_, ?_⟩, hs.holding.nodup, hs.holding.live_list, ?_, ?_⟩
      · rw [hpl]
        refine hnamed.congr_key rfl rfl rfl fun y _ ↦ ?_
        show caseless ((v.modify x f).mem y).channel =
          Function.update (nameTree v.mem ls.channelName).key x (caseless (trimBlanks string)) y
        by_cases hyx : y = x
        · rw [hyx, modify_mem_self, Function.update_self]
        · rw [modify_mem_of_ne _ _ _ hyx, Function.update_of_ne hyx]
          rfl
      · rw [hpl]
        exact hnum.congr_key rfl rfl rfl fun y _ ↦ (hmem y).2
      · exact fun y hy ↦ hs.holding.live_list y (mem_placed.mp hy).1
      · exact fun y hy ↦ hs.holding.live_list y (mem_placed.mp hy).1
    · intro y hy z hz he
      rw [(hmem y).2, (hmem z).2] at he
      exact (hl.shape hne).ids y hy z hz he
    · exact (hmem y).1.trans (hj y hy)
  · refine h.of_mem rfl rfl fun y hy ↦ ?_
    have hyx : y ≠ x := fun e ↦ hx (e ▸ hy)
    rw [modify_mem_of_ne _ _ _ hyx]
    exact ⟨rfl, rfl, rfl⟩

/-! ## The form of a new channel -/

/-- The channels while the rows of a reload are read that follows the form of the new
channel `x`: `l₀` were there, `rows` are left of `all`. -/
structure Reading (x : ι) (id : ℤ) (name : CString) (l₀ : List ι) (all : List Row)
    (mem : ι → IRCChannel) (l : List ι) (rows : List Row) : Prop where
  list : ∃ new, l = l₀ ++ x :: new ∧
    ∀ y ∈ new, (mem y).justAdded = false ∧ (mem y).visited = true
  old : ∀ y ∈ l₀, (mem y).justAdded = false
  visited : ∀ y ∈ l, (mem y).visited = true → ∃ row ∈ all, (mem y).channel = row.channel
  added : (mem x).justAdded = true → (mem x).visited = false ∧ (mem x).channel = name ∧
    (mem x).channelId = id
  left : ∃ read, all = read ++ rows ∧
    ((mem x).justAdded = true → ∀ row ∈ read, row.channelId ≠ id)

theorem Reading.turn {v' : View ι} {l₀ l : List ι} {id : ℤ} {name : CString} {all rows : List Row}
    {row : Row} {z : ι} (h : Reading x id name l₀ all v.mem l (row :: rows)) (hs : Shape v true l)
    (ht : Turn compiles v v' l row z) :
    Reading x id name l₀ all v'.mem (if z ∈ l then l else l ++ [z]) rows := by
  obtain ⟨new, hl, hnew⟩ := h.list
  obtain ⟨read, hall, hread⟩ := h.left
  obtain ⟨joined, newChannel, hrecord⟩ := ht.record
  have hz : (v'.mem z).justAdded = false ∧ (v'.mem z).visited = true ∧
      (v'.mem z).channel = row.channel := by
    rw [hrecord]
    exact ⟨rfl, rfl, rfl⟩
  have hx : x ∈ l := by rw [hl]; simp
  -- a channel is not added any more once it has changed
  have hxz : (v'.mem x).justAdded = true → x ≠ z ∧ v'.mem x = v.mem x := by
    intro hj
    by_cases hxz : x = z
    · rw [hxz, hz.1] at hj
      cases hj
    · exact ⟨hxz, ht.rest x hxz⟩
  refine ⟨?_, fun y hy ↦ ?_, fun y hy hv ↦ ?_, fun hj ↦ ?_, read ++ [row], by simp [hall], ?_⟩
  · by_cases hzl : z ∈ l
    · refine ⟨new, by rw [if_pos hzl, hl], fun y hy ↦ ?_⟩
      by_cases hyz : y = z
      · rw [hyz]
        exact ⟨hz.1, hz.2.1⟩
      · rw [ht.rest y hyz]
        exact hnew y hy
    · refine ⟨new ++ [z], by rw [if_neg hzl, hl]; simp, fun y hy ↦ ?_⟩
      by_cases hyz : y = z
      · rw [hyz]
        exact ⟨hz.1, hz.2.1⟩
      · rw [ht.rest y hyz]
        exact hnew y ((List.mem_append.mp hy).resolve_right fun hy ↦ hyz (List.mem_singleton.mp hy))
  · by_cases hyz : y = z
    · rw [hyz]
      exact hz.1
    · rw [ht.rest y hyz]
      exact h.old y hy
  · by_cases hyz : y = z
    · exact ⟨row, by simp [hall], by rw [hyz, hz.2.2]⟩
    · rw [ht.rest y hyz] at hv ⊢
      exact h.visited y (((mem_turnList y).mp hy).resolve_left hyz) hv
  · obtain ⟨-, hmem⟩ := hxz hj
    rw [hmem] at hj ⊢
    exact h.added hj
  · intro hj row' hrow'
    obtain ⟨hne, hmem⟩ := hxz hj
    rw [hmem] at hj
    rcases List.mem_append.mp hrow' with hrow' | hrow'
    · exact hread hj row' hrow'
    · obtain rfl := List.mem_singleton.mp hrow'
      rintro rfl
      by_cases hzl : z ∈ l
      · exact hne (hs.ids x hx z hzl ((h.added hj).2.2.trans (ht.found hzl).symm))
      · exact ht.new hzl x hx (h.added hj).2.2

omit [DecidableEq ι] in
/-- Only the new channel can still be missing in the trees. -/
theorem Reading.eq_added {mem : ι → IRCChannel} {l₀ l : List ι} {id : ℤ} {name : CString}
    {all rows : List Row} (h : Reading x id name l₀ all mem l rows) {y : ι} (hy : y ∈ l)
    (hj : (mem y).justAdded = true) : y = x := by
  obtain ⟨new, rfl, hnew⟩ := h.list
  rcases List.mem_append.mp hy with hy | hy
  · rw [h.old y hy] at hj
    cases hj
  · rcases List.mem_cons.mp hy with rfl | hy
    · rfl
    · rw [(hnew y hy).1] at hj
      cases hj

omit [DecidableEq ι] in
/-- After the rows the new channel is loaded, or has a name of its own. -/
theorem Reading.apart {mem : ι → IRCChannel} {l₀ l : List ι} {id : ℤ} {name : CString}
    {all : List Row} (h : Reading x id name l₀ all mem l [])
    (hrows : (∃ row ∈ all, row.channelId = id) ∨
      ∀ row ∈ all, caseless row.channel ≠ caseless name) : Apart mem l l := by
  obtain ⟨read, hall, hread⟩ := h.left
  rw [List.append_nil] at hall
  subst hall
  have hdiff : (mem x).justAdded = true → ∀ y ∈ l, (mem y).visited = true →
      caseless (mem y).channel ≠ caseless (mem x).channel := by
    intro hj y hy hv
    obtain ⟨-, hname, -⟩ := h.added hj
    obtain ⟨row, hrow, hchannel⟩ := h.visited y hy hv
    rw [hname, hchannel]
    rcases hrows with ⟨row', hrow', hid⟩ | hno
    · exact absurd hid (hread hj row' hrow')
    · exact hno row hrow
  refine ⟨fun y hy hj z hz hv ↦ ?_, ?_⟩
  · obtain rfl := h.eq_added hy hj
    exact hdiff hj z hz hv
  · obtain ⟨new, rfl, hnew⟩ := h.list
    refine List.pairwise_append.mpr ⟨?_, List.pairwise_cons.mpr ⟨?_, ?_⟩, ?_⟩
    · exact (Apart.of_placed (l := l₀) h.old).later
    · exact fun y hy hj ↦ hdiff hj y (by simp [hy]) (hnew y hy).2
    · exact (Apart.of_placed (l := new) fun y hy ↦ (hnew y hy).1).later
    · exact fun y hy z _ hj ↦ by simp [h.old y hy] at hj

/-- The record of a new channel when the reload comes. -/
def addedRecord (self : ℕ) (string : CString) (enabled : Bool) (insertid : Option ℤ) :
    IRCChannel :=
  { IRCChannel.cleared with
    channelId := insertid.getD (-1)
    channel := trimBlanks string
    server := some self
    enabled := enabled
    enabledChanged := enabled
    justAdded := true }

/-- The form of a new channel puts its record at the end of the list, if there is
one. -/
theorem createChannel_eq {string : CString} (enabled : Bool) (insertid : Option ℤ)
    (res : Option (List Row)) (hnull : sameIgnoringCase string "(NULL)".toList = false) :
    createChannel malloc compiles v string enabled insertid res = (do
      let x := malloc v.live
      let v₁ : View ι := { v with
        live := x :: v.live
        mem := Function.update v.mem x (addedRecord v.self string enabled insertid)
        lists := v.lists.map fun lists ↦ { lists with channels := lists.channels ++ [x] } }
      let v₂ ← resultLoadChannels malloc compiles (unvisit v₁) res
      botSighup v₂) := by
  have hsave : ∀ (w : View ι) (y : ι), saveName w y string =
      some (w.modify y fun channel ↦ { channel with channel := trimBlanks string }) :=
    fun w y ↦ if_neg (Bool.eq_false_iff.mp hnull)
  simp only [createChannel, cursesChannelNew, hsave, Option.bind_eq_bind, Option.bind_some]
  congr 2
  cases insertid <;> cases enabled <;>
    simp [dbUpdateChannel, channelSaved, saveServer, saveEnabled, cursesChannelDisplay,
      View.modify, addedRecord, IRCChannel.cleared]

/-- The list before the reload that follows the form of a new channel: the trees do not
have the channel yet. -/
theorem added_shape (hmalloc : ∀ l, malloc l ∉ l) {l : List ι} (h : Shape v false l)
    {record : IRCChannel}
    (hrecord : record.justAdded = true) (hid : ∀ y ∈ l, (v.mem y).channelId ≠ record.channelId) :
    Shape { v with
      live := malloc v.live :: v.live
      mem := Function.update v.mem (malloc v.live) record
      lists := v.lists.map fun lists ↦
        { lists with channels := lists.channels ++ [malloc v.live] } } false
      (l ++ [malloc v.live]) := by
  let x := malloc v.live
  let mem := Function.update v.mem x record
  have hx : x ∉ l := fun hx ↦ hmalloc v.live (h.holding.live_list x hx)
  have hself : mem x = record := Function.update_self ..
  have hrest : ∀ y ∈ l, mem y = v.mem y := fun y hy ↦
    Function.update_of_ne (ne_of_mem_of_not_mem hy hx) ..
  have hplaced : placed mem (l ++ [x]) = placed v.mem l := by
    have hout : placed mem [x] = [] := by simp [placed, hself, hrecord]
    have hl : placed mem l = placed v.mem l := placed_congr fun y hy ↦ by rw [hrest y hy]
    rw [placed, List.filter_append]
    exact (congrArg₂ (· ++ ·) hl hout).trans (List.append_nil _)
  obtain ⟨ls, hls, hl, hmn, hmm, hname, hnum⟩ := h.holding.lists
  have hin : ∀ y ∈ placed v.mem l, mem y = v.mem y := fun y hy ↦ hrest y (mem_placed.mp hy).1
  have hlive : ∀ y ∈ placed v.mem l, y ∈ x :: v.live := fun y hy ↦
    List.mem_cons_of_mem _ (h.holding.live_list y (mem_placed.mp hy).1)
  refine ⟨⟨⟨{ ls with channels := ls.channels ++ [x] }, by rw [hls]; rfl, by rw [hl], hmn, hmm,
    ?_, ?_⟩, ?_, ?_, ?_, ?_⟩, ?_⟩
  · show Stores keyCompareString (nameTree mem ls.channelName) (placed mem (l ++ [x]))
    rw [hplaced]
    exact hname.congr_key rfl rfl rfl fun y hy ↦ congrArg (fun c : IRCChannel ↦ caseless c.channel)
      (hin y hy)
  · show Stores keyCompareInt (numTree mem ls.channelNum) (placed mem (l ++ [x]))
    rw [hplaced]
    exact hnum.congr_key rfl rfl rfl fun y hy ↦ congrArg IRCChannel.channelId (hin y hy)
  · exact List.nodup_append.mpr ⟨h.holding.nodup, by simp, fun y hy z hz ↦ by
      rw [List.mem_singleton.mp hz]
      exact ne_of_mem_of_not_mem hy hx⟩
  · intro y hy
    rcases List.mem_append.mp hy with hy | hy
    · exact List.mem_cons_of_mem _ (h.holding.live_list y hy)
    · rw [List.mem_singleton.mp hy]
      exact List.mem_cons_self
  · show ∀ y ∈ placed mem (l ++ [x]), y ∈ x :: v.live
    rw [hplaced]
    exact hlive
  · show ∀ y ∈ placed mem (l ++ [x]), y ∈ x :: v.live
    rw [hplaced]
    exact hlive
  · show ∀ y ∈ l ++ [x], ∀ z ∈ l ++ [x], (mem y).channelId = (mem z).channelId → y = z
    intro y hy z hz he
    rcases List.mem_append.mp hy with hy | hy
    · rcases List.mem_append.mp hz with hz | hz
      · rw [hrest y hy, hrest z hz] at he
        exact h.ids y hy z hz he
      · rw [hrest y hy, List.mem_singleton.mp hz, hself] at he
        exact absurd he (hid y hy)
    · rcases List.mem_append.mp hz with hz | hz
      · rw [hrest z hz, List.mem_singleton.mp hy, hself] at he
        exact absurd he.symm (hid z hz)
      · rw [List.mem_singleton.mp hy, List.mem_singleton.mp hz]

theorem create_settled (hmalloc : ∀ l, malloc l ∉ l) (h : Settled v) {string : CString}
    (enabled : Bool) {insertid : Option ℤ} {res : Option (List Row)}
    (hnull : sameIgnoringCase string "(NULL)".toList = false)
    (hfits : Fits (entries v.mem v.channels) (res.getD []))
    (henters : v.lists ≠ none →
      Enters v.toServer (insertid.getD (-1)) (trimBlanks string) (res.getD [])) :
    ∃ v', createChannel malloc compiles v string enabled insertid res = some v' ∧ Settled v' := by
  rw [createChannel_eq enabled insertid res hnull]
  let x := malloc v.live
  let v₁ : View ι := { v with
    live := x :: v.live
    mem := Function.update v.mem x (addedRecord v.self string enabled insertid)
    lists := v.lists.map fun lists ↦ { lists with channels := lists.channels ++ [x] } }
  show ∃ v', ((resultLoadChannels malloc compiles (unvisit v₁) res).bind botSighup) = some v' ∧ _
  obtain ⟨l, hl, hj⟩ := h
  cases hls : v.lists with
  | none =>
      have hls₁ : (unvisit v₁).lists = none := by
        show v.lists.map _ = none
        rw [hls]
        rfl
      have hch : v.channels = [] := by rw [Server.channels, hls]
      have hch₁ : (unvisit v₁).channels = [] := by rw [Server.channels, hls₁]
      have h₁ : Settled (unvisit v₁) := ⟨[], ⟨fun hne ↦ absurd hls₁ hne, fun _ ↦ rfl⟩, by simp⟩
      rw [hch] at hfits
      obtain ⟨v₂, he₂, h₂⟩ := load_settled compiles hmalloc h₁
        (by rw [hch₁]; exact hfits)
      obtain ⟨v₃, he₃, h₃⟩ := sighup_settled h₂
      exact ⟨v₃, by rw [he₂, Option.bind_some, he₃], h₃⟩
  | some ls =>
      have hs := hl.shape (by simp [hls])
      have hne : v.lists ≠ none := by simp [hls]
      obtain ⟨hid, hrows⟩ := henters hne
      rw [hs.channels] at hid hfits
      have hx : x ∉ l := fun hx ↦ hmalloc v.live (hs.holding.live_list x hx)
      have hs₁ : Shape v₁ false (l ++ [x]) := added_shape hmalloc hs rfl hid
      have hmem₂ : ∀ y ∈ l ++ [x], (unvisit v₁).mem y = { v₁.mem y with visited := false } :=
        fun y hy ↦ if_pos (by rw [hs₁.channels]; exact hy)
      have hs₂ : Shape (unvisit v₁) false (l ++ [x]) := hs₁.of_mem rfl rfl fun y hy ↦ by
        rw [hmem₂ y hy]
        exact ⟨rfl, rfl, rfl⟩
      have hold : ∀ y ∈ l, (unvisit v₁).mem y = { v.mem y with visited := false } := by
        intro y hy
        rw [hmem₂ y (List.mem_append_left _ hy), show v₁.mem y = v.mem y from
          Function.update_of_ne (ne_of_mem_of_not_mem hy hx) ..]
      have hself : (unvisit v₁).mem x = addedRecord v.self string enabled insertid := by
        rw [hmem₂ x (by simp), show v₁.mem x = _ from Function.update_self ..]
        rfl
      have hreading : Reading x (insertid.getD (-1)) (trimBlanks string) l (res.getD [])
          (unvisit v₁).mem (l ++ [x]) (res.getD []) :=
        { list := ⟨[], rfl, by simp⟩
          old := fun y hy ↦ by rw [hold y hy]; exact hj y hy
          visited := fun y hy hv ↦ by
            rw [hmem₂ y hy] at hv
            cases hv
          added := fun _ ↦ by rw [hself]; exact ⟨rfl, rfl, rfl⟩
          left := ⟨[], rfl, by simp⟩ }
      have hfits₂ : Fits (entries (unvisit v₁).mem (l ++ [x])) (res.getD []) := by
        refine (Fits.congr fun p ↦ ?_).mp hfits
        rw [mem_entries, mem_entries]
        constructor
        · rintro ⟨y, hy, hyj, hyid, hyn⟩
          exact ⟨y, List.mem_append_left _ hy, by rw [hold y hy]; exact ⟨hyj, hyid, hyn⟩⟩
        · rintro ⟨y, hy, hyj, hyid, hyn⟩
          have hyl : y ∈ l := by
            refine (List.mem_append.mp hy).resolve_right fun hy ↦ ?_
            rw [List.mem_singleton.mp hy, hself] at hyj
            cases hyj
          rw [hold y hyl] at hyj hyid hyn
          exact ⟨y, hyl, hyj, hyid, hyn⟩
      -- the load, which keeps `Reading` whether it has rows or not
      obtain ⟨v₂, l₂, he₂, hs₂, hread₂⟩ : ∃ v₂ l₂,
          resultLoadChannels malloc compiles (unvisit v₁) res = some v₂ ∧ Shape v₂ false l₂ ∧
            Reading x (insertid.getD (-1)) (trimBlanks string) l (res.getD []) v₂.mem l₂ [] := by
        obtain rfl | rfl | ⟨row, rows, rfl⟩ : res = none ∨ res = some [] ∨
            ∃ row rows, res = some (row :: rows) := by
          rcases res with _ | _ | ⟨row, rows⟩
          · exact .inl rfl
          · exact .inr (.inl rfl)
          · exact .inr (.inr ⟨row, rows, rfl⟩)
        · exact ⟨_, _, rfl, hs₂, hreading⟩
        · exact ⟨_, _, rfl, hs₂, hreading⟩
        · exact resultLoadChannels_eq compiles (P := fun v l' rows' ↦ Reading x (insertid.getD (-1))
            (trimBlanks string) l (row :: rows) v.mem l' rows') hmalloc
            (fun v v' l' row rows z hs h ht ↦ h.turn hs ht) (fun _ _ _ _ h ↦ h)
            hs₂.ready (List.cons_ne_nil row rows) hfits₂ hreading
      obtain ⟨v₃, he₃, hs₃, hleft⟩ := botSighup_eq hs₂ (hread₂.apart hrows)
      refine ⟨v₃, by rw [he₂, Option.bind_some, he₃], _, hs₃.ready, fun y hy ↦ ?_⟩
      obtain ⟨hy, hv⟩ := List.mem_filter.mp hy
      rw [hleft.justAdded]
      by_contra hyj
      rw [Bool.not_eq_false] at hyj
      obtain rfl := hread₂.eq_added hy hyj
      rw [(hread₂.added hyj).1] at hv
      cases hv

/-- A careful event can happen, and leaves all channels of the list in the trees. -/
theorem call_settled (compiles : CString → Bool) (hmalloc : ∀ l, malloc l ∉ l) (h : Settled v) {e : Event ι}
    (hc : Careful v.toServer e) : ∃ v', call malloc compiles v e = some v' ∧ Settled v' := by
  cases e with
  | unvisit => exact ⟨_, rfl, unvisit_settled h⟩
  | load res => exact load_settled compiles hmalloc h hc
  | sighup => exact sighup_settled h
  | kill unalloc => exact kill_settled h unalloc
  | configure settings => exact ⟨_, rfl, h.of_mem rfl rfl fun _ _ ↦ ⟨rfl, rfl, rfl⟩⟩
  | display x => exact ⟨_, rfl, h.modify x fun _ ↦ ⟨rfl, rfl, rfl⟩⟩
  | saveName x string => exact saveName_settled h hc.1 hc.2
  | saveEnabled x enabled => exact ⟨_, rfl, h.modify x fun _ ↦ ⟨rfl, rfl, rfl⟩⟩
  | saveServer x server => exact ⟨_, rfl, h.modify x fun _ ↦ ⟨rfl, rfl, rfl⟩⟩
  | saved x =>
      refine ⟨_, rfl, ?_⟩
      rw [channelSaved]
      split
      · exact h.modify x fun _ ↦ ⟨rfl, rfl, rfl⟩
      · exact h
  | create string enabled insertid res =>
      exact create_settled hmalloc h enabled hc.1 hc.2.1 hc.2.2

end Steps

/-! ## All runs -/

section Runs

variable [DecidableEq ι] {malloc : List ι → ι} {compiles : CString → Bool} {w w' : World ι}

omit [DecidableEq ι] in
theorem view_put_self (self : ℕ) (v : View ι) : (w.put self v).view self = v := by
  simp [World.put, World.view]

omit [DecidableEq ι] in
theorem server_put_of_ne {self other : ℕ} (h : other ≠ self) (v : View ι) :
    (w.put self v).server other = w.server other :=
  Function.update_of_ne h ..

theorem step_settled (hmalloc : ∀ l, malloc l ∉ l) (h : ∀ self, Settled (w.view self))
    {e : ℕ × Event ι} (hc : Careful (w.server e.1) e.2)
    (he : (system malloc compiles).step w e = some w') : ∀ self, Settled (w'.view self) := by
  obtain ⟨v', he', h'⟩ := call_settled compiles hmalloc (h e.1) (e := e.2) hc
  simp only [system, he', Option.map_some, Option.some.injEq] at he
  subst he
  intro self
  by_cases hself : self = e.1
  · rw [hself, view_put_self]
    exact h'
  · have hs := server_put_of_ne (w := w) hself v'
    have hsame : ∀ {α : Type} (f : Server ι → α),
        f ((w.put e.1 v').view self).toServer = f (w.view self).toServer :=
      fun f ↦ congrArg f hs
    refine (h self).of_mem (hsame Server.lists) (hsame Server.live) fun y _ ↦ ?_
    rw [show ((w.put e.1 v').view self).mem = (w.view self).mem from hsame Server.mem]
    exact ⟨rfl, rfl, rfl⟩

/-- In every run of careful events, the list and the two trees of each server have the
same channels in the order of what they are called now, and the searches find them; the
next careful event can happen. -/
theorem channels_agree_run (hmalloc : ∀ l, malloc l ∉ l)
    (h : (system malloc compiles).ReachableVia (fun w e ↦ Careful (w.server e.1) e.2) w) :
    (∀ self, Agrees (w.server self)) ∧
      ∀ e, Careful (w.server e.1) e.2 → ((system malloc compiles).step w e).isSome := by
  have hsettled : ∀ self, Settled (w.view self) := by
    refine h.invariant (I := fun w ↦ ∀ self, Settled (w.view self)) ?_ ?_
    · intro w hw self
      exact ⟨[], ⟨fun hne ↦ absurd (hw self) hne, fun _ ↦ rfl⟩, by simp⟩
    · intro w e w' hw hc he
      exact step_settled hmalloc hw hc he
  refine ⟨fun self ↦ (hsettled self).agrees, fun e hc ↦ ?_⟩
  obtain ⟨v', he, -⟩ := call_settled compiles hmalloc (hsettled e.1) hc
  simp [system, he]

end Runs

/-- No server has channels. -/
def noChannels : World ℕ where
  server self :=
    { nick := ['m', 'e'], server := ['i', 'r', 'c'], port := 6667, enabled := true, self
      lists := none, mem := fun _ ↦ .cleared, live := [], sent := [] }
  regexpList := []

/-- Two channels. -/
def twoRows : List Row := [⟨1, ['b'], true⟩, ⟨2, ['d'], true⟩]

/-- The first load. -/
theorem channels_agree_run_loaded : ∃ w, (system firstFree fun _ ↦ true).step noChannels
    (0, .load (some twoRows)) = some w ∧ ∀ self, Agrees (w.server self) := by
  have hcareful : Careful (noChannels.server 0) (.load (some twoRows)) := by
    show Fits [] twoRows
    decide
  obtain ⟨w, hw⟩ : ∃ w, (system firstFree fun _ ↦ true).step noChannels
      (0, .load (some twoRows)) = some w := by
    have hinit : (system firstFree fun _ ↦ true).ReachableVia
        (fun w e ↦ Careful (w.server e.1) e.2) noChannels := .init fun _ ↦ rfl
    exact Option.isSome_iff_exists.mp ((channels_agree_run firstFree_not_mem hinit).2 _ hcareful)
  exact ⟨w, hw, (channels_agree_run firstFree_not_mem
    (.step (e := (0, .load (some twoRows))) (.init fun _ ↦ rfl) hcareful hw)).1⟩

/-- The form renames the second channel of `twoRows` so that it comes before the first;
the database takes the name, and the channels are reloaded. -/
def renamingRun : List (ℕ × Event ℕ) :=
  [(0, .load (some twoRows)), (0, .display 2), (0, .saveName 2 ['a']), (0, .saved 2),
    (0, .unvisit), (0, .load (some [⟨1, ['b'], true⟩, ⟨2, ['a'], true⟩])), (0, .sighup)]

/-- The channel is still on the list, but is not found by its name. -/
theorem not_channels_agree : ¬ ∀ (w : World ℕ), (system firstFree fun _ ↦ true).Reachable w →
    ∀ self, Agrees (w.server self) := by
  intro h
  have hrun : ((system firstFree fun _ ↦ true).run noChannels renamingRun).map (fun w ↦
      ((w.server 0).channels, ((w.server 0).mem 2).channel, (w.server 0).findChannel true ['a'])) =
      some ([1, 2], ['a'], some none) := by rfl
  obtain ⟨w, hw, hfields⟩ := Option.map_eq_some_iff.mp hrun
  simp only [Prod.mk.injEq] at hfields
  obtain ⟨hchannels, hname, hfind⟩ := hfields
  obtain ⟨r, he, hr⟩ := (h w (System.reachable_of_run (fun _ ↦ rfl) hw) 0).findChannel ['a']
  rw [hfind] at he
  cases he
  have hsome := (hr 2).mpr ⟨by rw [hchannels]; simp, by rw [hname]⟩
  cases hsome

end Beirdobot.Channels
