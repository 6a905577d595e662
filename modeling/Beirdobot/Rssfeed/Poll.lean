import Beirdobot.ActiveTree.Spec
import Beirdobot.Library.System

/-!
# A pass over the feeds

A transcription of one round of `rssfeed_thread`, from the search for the first feed that
is ready to the time it is to sleep.  What the clock says at each turn is the argument of
the step, and it does not go back; what is read from a feed and the end of the thread are
left out.  To look up a server and a channel twice gives the same, so that they are stored
makes no difference.
-/

namespace Beirdobot.Rssfeed.Poll

open Library ActiveTree

variable {σ γ : Type}

/-- `ChannelsLoaded`, what `FindServerNum` and `FindChannelNum` find, and the channels that
are joined. -/
structure Directory (σ γ : Type) where
  channelsLoaded : Bool
  findServerNum : ℤ → Option σ
  findChannelNum : σ → ℤ → Option γ
  joined : γ → Bool

/-- What is read of an `RssFeed_t`, without its `nextpoll`. -/
structure RssFeed (σ γ : Type) where
  serverId : ℤ
  chanId : ℤ
  server : Option σ
  channel : Option γ
  timeout : ℤ

/-- The server and the channel are looked up, if one is missing. -/
def resolve (d : Directory σ γ) (feed : RssFeed σ γ) : RssFeed σ γ :=
  if (feed.server.isNone ∨ feed.channel.isNone) ∧ d.channelsLoaded then
    let server := d.findServerNum feed.serverId
    { feed with server, channel := server.bind fun server ↦ d.findChannelNum server feed.chanId }
  else feed

/-- There is a channel, and it is joined. -/
def channelJoined (d : Directory σ γ) (feed : RssFeed σ γ) : Bool :=
  ((resolve d feed).channel.map d.joined).getD false

/-- `rssfeedIsReady` -/
def rssfeedIsReady (d : Directory σ γ) (feed : RssFeed σ γ) : Bool :=
  (resolve d feed).server.isSome && channelJoined d feed

/-- Where the thread is: before the search, in the loop with an item, or at `DelayPoll`
with a `delta`. -/
inductive Phase
  | searching
  | looping (item : TimeItem)
  | delayPoll (delta : ℤ)
  deriving DecidableEq

/-- `rssfeedActiveTree` with the times of the feeds, the last two readings of the clock
that matter, and the feeds that were polled. -/
structure State where
  tree : ActiveTree
  nextpoll : ℕ → ℤ
  phase : Phase
  began : ℤ
  clock : ℤ
  polled : List ℕ

/-- The end of a turn of the loop: `BalancedBTreeFindLeast` finds the next item. -/
def State.next (fuel : ℕ) (s : State) : Option State := do
  let item ← s.tree.findLeast fuel
  match item with
  | none => some { s with phase := .delayPoll 60 }
  | some item => some { s with phase := .looping item }

/-- A feed is polled: it is removed, gets another time, and is added again. -/
def State.poll (fuel : ℕ) (feeds : ℕ → RssFeed σ γ) (s : State) (item : TimeItem) (now : ℤ) :
    Option State := do
  let feed := item.record
  let tree ← s.tree.remove fuel s.nextpoll (some item) false
  let time ← tree.findUnconflictingTime fuel s.nextpoll feed fuel (now + (feeds feed).timeout)
  let nextpoll := Function.update s.nextpoll feed time
  let tree ← tree.add fuel nextpoll item false
  State.next fuel { s with tree, nextpoll, polled := s.polled ++ [feed] }

/-- A turn of the loop. -/
def State.turn (fuel : ℕ) (d : Directory σ γ) (feeds : ℕ → RssFeed σ γ) (s : State)
    (item : TimeItem) (now : ℤ) : Option State :=
  let feed := item.record
  if s.nextpoll feed > now + 15 then
    some { s with phase := .delayPoll (s.nextpoll feed - now) }
  else if channelJoined d (feeds feed) = false then
    -- the item stays where it is in the tree
    State.next fuel { s with nextpoll := Function.update s.nextpoll feed (now + 60) }
  else s.poll fuel feeds item now

/-- The search for a feed that is ready. -/
def State.search (fuel : ℕ) (d : Directory σ γ) (feeds : ℕ → RssFeed σ γ) (s : State) (now : ℤ) :
    Option State := do
  let item ← s.tree.findLeastCond (fun x ↦ rssfeedIsReady d (feeds x)) fuel s.tree.root
  match item with
  | none => some { s with phase := .delayPoll 60 }
  | some item =>
      if d.channelsLoaded = false then some { s with phase := .delayPoll 60 }
      else if s.nextpoll item.record > now + 15 then
        some { s with phase := .delayPoll (s.nextpoll item.record - now) }
      else some { s with phase := .looping item }

/-- The next reading of the clock, with what follows. -/
def step (fuel : ℕ) (d : Directory σ γ) (feeds : ℕ → RssFeed σ γ) (s : State) (now : ℤ) :
    Option State :=
  if now < s.clock then none
  else
    match s.phase with
    | .searching => State.search fuel d feeds { s with began := now, clock := now } now
    | .looping item => State.turn fuel d feeds { s with clock := now } item now
    | .delayPoll _ => none

/-- The pass that begins in a state. -/
def pass (fuel : ℕ) (d : Directory σ γ) (feeds : ℕ → RssFeed σ γ) (s₀ : State) :
    System State ℤ where
  init s := s = s₀
  step := step fuel d feeds

/-! ## What a pass does -/

/-- The channels are loaded, the item of the loop has a channel that is joined, and no
feed that was polled in this pass is due again. -/
def Smooth (d : Directory σ γ) (feeds : ℕ → RssFeed σ γ) (s : State) (now : ℤ) : Prop :=
  d.channelsLoaded = true ∧
    ∀ item, s.phase = .looping item → channelJoined d (feeds item.record) = true ∧
      ∀ feed ∈ s.polled, now + 15 < s.nextpoll feed

/-- The item has the least time of the feeds whose channel is joined. -/
def First (d : Directory σ γ) (feeds : ℕ → RssFeed σ γ) (l : List TimeItem) (nextpoll : ℕ → ℤ)
    (item : TimeItem) : Prop :=
  item ∈ l ∧ ∀ i ∈ l, channelJoined d (feeds i.record) = true → i ≠ item →
    nextpoll item.record < nextpoll i.record

/-- The time until the next feed with a joined channel is due, or a minute. -/
def Delta (d : Directory σ γ) (feeds : ℕ → RssFeed σ γ) (l : List TimeItem) (s : State)
    (delta : ℤ) : Prop :=
  ((∀ i ∈ l, channelJoined d (feeds i.record) = false) ∧ delta = 60) ∨
    ∃ item, First d feeds l s.nextpoll item ∧ channelJoined d (feeds item.record) = true ∧
      delta = s.nextpoll item.record - s.clock

/-- Every feed that was due within 15 seconds and has a joined channel was polled. -/
def Served (d : Directory σ γ) (feeds : ℕ → RssFeed σ γ) (l : List TimeItem) (nextpoll : ℕ → ℤ)
    (s : State) : Prop :=
  ∀ i ∈ l, channelJoined d (feeds i.record) = true → nextpoll i.record ≤ s.began + 15 →
    i.record ∈ s.polled

/-- What holds in a pass over the feeds of `l` with the times `nextpoll`. -/
structure Passing (d : Directory σ γ) (feeds : ℕ → RssFeed σ γ) (l : List TimeItem)
    (nextpoll : ℕ → ℤ) (s : State) : Prop where
  timed : Timed s.tree s.nextpoll l
  nodup : s.polled.Nodup
  polled : ∀ feed ∈ s.polled, ∃ item ∈ l, item.record = feed
  kept : ∀ item ∈ l, item.record ∉ s.polled → s.nextpoll item.record = nextpoll item.record
  began : s.phase ≠ .searching → s.began ≤ s.clock
  searching : s.phase = .searching → s.polled = []
  looping : ∀ item, s.phase = .looping item → First d feeds l s.nextpoll item
  delayPoll : ∀ delta, s.phase = .delayPoll delta →
    Served d feeds l nextpoll s ∧ Delta d feeds l s delta

section Pass

variable {d : Directory σ γ} {feeds : ℕ → RssFeed σ γ} {l : List TimeItem} {nextpoll : ℕ → ℤ}
  {s s' : State} {now : ℤ} {fuel : ℕ} {item : TimeItem}

/-- With the channels loaded, a feed with a joined channel has a server. -/
theorem rssfeedIsReady_eq (hd : d.channelsLoaded = true) (feed : RssFeed σ γ) :
    rssfeedIsReady d feed = channelJoined d feed := by
  rw [rssfeedIsReady, channelJoined, resolve]
  split
  · rcases hs : d.findServerNum feed.serverId with _ | server
    · rfl
    · rfl
  · rename_i hn
    have hs : feed.server.isSome = true := by
      rw [not_and_or, not_or] at hn
      rcases hn with hn | hn
      · exact Option.isSome_iff_ne_none.mpr fun h ↦ hn.1 (by rw [h]; rfl)
      · exact absurd hd hn
    rw [hs, Bool.true_and]

/-- Feeds that are due are polled before the clock gets to the next one. -/
theorem served_of_first (h : Passing d feeds l nextpoll s) (hfirst : First d feeds l s.nextpoll item)
    (hlate : s.began + 15 < s.nextpoll item.record) : Served d feeds l nextpoll s := by
  intro i hi hjoined hdue
  by_contra hpolled
  have hkept := h.kept i hi hpolled
  by_cases hne : i = item
  · subst hne
    omega
  · have hlt := hfirst.2 i hi hjoined hne
    omega

/-- After a turn the loop goes on with the item that has the least time. -/
theorem next_eq (d : Directory σ γ) (feeds : ℕ → RssFeed σ γ) (s : State) (h : Timed s.tree s.nextpoll l) (hl : l ≠ []) (hf : l.length ≤ fuel) :
    ∃ item, s.next fuel = some { s with phase := .looping item } ∧
      First d feeds l s.nextpoll item := by
  obtain ⟨r, hr, hnone, hleast⟩ := h.findLeast hf
  rw [State.next, hr]
  cases r with
  | none => exact absurd (hnone rfl) hl
  | some item =>
      obtain ⟨hmem, hlt⟩ := hleast item rfl
      exact ⟨item, rfl, hmem, fun i hi _ hne ↦ hlt i hi hne⟩

/-- A feed that is polled gets a time that no other one has, and not before its timeout. -/
theorem poll_eq (d : Directory σ γ) (feeds : ℕ → RssFeed σ γ) (s : State) (now : ℤ)
    (h : Timed s.tree s.nextpoll l) (hitem : item ∈ l) (hf : l.length + 2 ≤ fuel) :
    ∃ tree time item', s.poll fuel feeds item now = some { s with
        tree
        nextpoll := Function.update s.nextpoll item.record time
        polled := s.polled ++ [item.record]
        phase := .looping item' } ∧
      Timed tree (Function.update s.nextpoll item.record time) l ∧
      First d feeds l (Function.update s.nextpoll item.record time) item' := by
  obtain ⟨l', hl⟩ : ∃ l', l.Perm (item :: l') := ⟨l.erase item, List.perm_cons_erase hitem⟩
  have hlength : l.length = l'.length + 1 := hl.length_eq
  have hnodup : item ∉ l' := (List.nodup_cons.mp (hl.nodup_iff.mp h.nodup)).1
  have hother : ∀ i ∈ l', i.record ≠ item.record := by
    intro i hi heq
    have him : i ∈ l := hl.mem_iff.mpr (List.mem_cons_of_mem _ hi)
    exact hnodup (h.time_inj him hitem (congrArg s.nextpoll heq) ▸ hi)
  obtain ⟨tree₁, hremove, htimed₁⟩ := h.remove hl (fun _ _ ↦ rfl) false (show l.length ≤ fuel by omega)
  obtain ⟨time, htime, -, hfree, -⟩ := htimed₁.findUnconflictingTime hother
    (show l'.length ≤ fuel by omega) (show l'.length < fuel by omega)
    (now + (feeds item.record).timeout)
  have hother' : ∀ i ∈ l', Function.update s.nextpoll item.record time i.record ≠
      Function.update s.nextpoll item.record time item.record := by
    intro i hi
    rw [Function.update_self, Function.update_of_ne (hother i hi)]
    exact hfree i hi
  obtain ⟨tree, hadd, htimed⟩ := (htimed₁.update hother time).add hnodup hother' false
    (show l'.length + 2 ≤ fuel by omega)
  have htimed' : Timed tree (Function.update s.nextpoll item.record time) l := htimed.perm hl.symm
  obtain ⟨item', hnext, hfirst⟩ := next_eq d feeds { s with
    tree
    nextpoll := Function.update s.nextpoll item.record time
    polled := s.polled ++ [item.record] } htimed' (List.ne_nil_of_mem hitem)
    (show l.length ≤ fuel by omega)
  refine ⟨tree, time, item', ?_, htimed', hfirst⟩
  simp only [State.poll, hremove, htime, hadd, Option.bind_eq_bind, Option.bind_some]
  exact hnext

theorem Passing.length_polled (h : Passing d feeds l nextpoll s) : s.polled.length ≤ l.length := by
  have hsub : s.polled ⊆ l.map TimeItem.record := by
    intro feed hfeed
    obtain ⟨item, hitem, rfl⟩ := h.polled feed hfeed
    exact List.mem_map_of_mem hitem
  have hle := (h.nodup.subperm hsub).length_le
  rwa [List.length_map] at hle

/-- How many turns there can be yet. -/
def rank (l : List TimeItem) (s : State) : ℕ :=
  match s.phase with
  | .searching => l.length + 2
  | .looping _ => l.length + 1 - s.polled.length
  | .delayPoll _ => 0

/-- The search ends the pass, or finds a feed that is due. -/
theorem search_passing (h : Passing d feeds l nextpoll s) (hd : d.channelsLoaded = true)
    (hf : l.length + 2 ≤ fuel) (hphase : s.phase = .searching) (now : ℤ) :
    ∃ s', State.search fuel d feeds { s with began := now, clock := now } now = some s' ∧
      Passing d feeds l nextpoll s' ∧ rank l s' < rank l s := by
  have hpolled := h.searching hphase
  have hrank : rank l s = l.length + 2 := by rw [rank, hphase]
  obtain ⟨r, hr, hnone, hsome⟩ := h.timed.findLeastCond (fun x ↦ rssfeedIsReady d (feeds x))
    (show l.length ≤ fuel by omega)
  simp only [rssfeedIsReady_eq hd] at hnone hsome hr
  -- a pass that ends here has polled nothing
  have hends : ∀ delta, Served d feeds l nextpoll { s with began := now, clock := now } →
      Delta d feeds l { s with began := now, clock := now } delta →
      Passing d feeds l nextpoll { s with began := now, clock := now, phase := .delayPoll delta } := by
    intro delta hserved hdelta
    exact ⟨h.timed, h.nodup, h.polled, h.kept, fun _ ↦ le_refl now, fun h ↦ by (cases h),
      fun _ h ↦ by (cases h), fun delta' h ↦ by cases h; exact ⟨hserved, hdelta⟩⟩
  simp only [State.search, rssfeedIsReady_eq hd, hr, Option.bind_eq_bind, Option.bind_some]
  cases r with
  | none =>
      have hjoined := hnone rfl
      refine ⟨_, rfl, hends 60 (fun i hi hij ↦ ?_) (.inl ⟨hjoined, rfl⟩), by rw [hrank]; exact Nat.succ_pos _⟩
      rw [hjoined i hi] at hij
      cases hij
  | some item =>
      obtain ⟨hitem, hij, hleast⟩ := hsome item rfl
      have hfirst : First d feeds l s.nextpoll item := ⟨hitem, fun i hi hj hne ↦ hleast i hi hne hj⟩
      simp only [hd, Bool.true_eq_false, if_false]
      by_cases hlate : s.nextpoll item.record > now + 15
      · rw [if_pos hlate]
        refine ⟨_, rfl, hends _ ?_ (.inr ⟨item, hfirst, hij, rfl⟩), by rw [hrank]; exact Nat.succ_pos _⟩
        intro i hi hj hdue
        have hkept := h.kept i hi (by rw [hpolled]; exact List.not_mem_nil)
        by_cases hne : i = item
        · subst hne
          exact absurd hlate (by change nextpoll i.record ≤ now + 15 at hdue; omega)
        · have hlt := hleast i hi hne hj
          change nextpoll i.record ≤ now + 15 at hdue
          omega
      · rw [if_neg hlate]
        refine ⟨_, rfl, ⟨h.timed, h.nodup, h.polled, h.kept, fun _ ↦ le_refl now,
          fun h ↦ by (cases h), fun i hi ↦ ?_, fun _ h ↦ by (cases h)⟩, ?_⟩
        · cases hi
          exact hfirst
        · rw [hrank]
          show l.length + 1 - s.polled.length < l.length + 2
          omega

/-- A turn ends the pass, or polls a feed that was not polled before. -/
theorem turn_passing (h : Passing d feeds l nextpoll s) (hc : Smooth d feeds s now)
    (hf : l.length + 2 ≤ fuel) (hphase : s.phase = .looping item) (hnow : s.clock ≤ now) :
    ∃ s', State.turn fuel d feeds { s with clock := now } item now = some s' ∧
      Passing d feeds l nextpoll s' ∧ rank l s' < rank l s := by
  obtain ⟨hjoined, hagain⟩ := hc.2 item hphase
  have hfirst := h.looping item hphase
  have hbegan : s.began ≤ now := (h.began (by rw [hphase]; exact Phase.noConfusion)).trans hnow
  have hrank : rank l s = l.length + 1 - s.polled.length := by rw [rank, hphase]
  have hlength := h.length_polled
  rw [State.turn]
  by_cases hlate : s.nextpoll item.record > now + 15
  · rw [if_pos hlate]
    refine ⟨_, rfl, ⟨h.timed, h.nodup, h.polled, h.kept, fun _ ↦ hbegan, fun h ↦ by (cases h),
      fun _ h ↦ by (cases h), fun delta hdelta ↦ ?_⟩, ?_⟩
    · cases hdelta
      have hserved : Served d feeds l nextpoll s := served_of_first h hfirst (by omega)
      exact ⟨hserved, .inr ⟨item, hfirst, hjoined, rfl⟩⟩
    · rw [hrank]
      show 0 < _
      omega
  · rw [if_neg hlate, if_neg (by rw [hjoined]; exact Bool.noConfusion)]
    have hnew : item.record ∉ s.polled := fun hmem ↦ hlate (hagain _ hmem)
    obtain ⟨tree, time, item', hpoll, htimed, hnext⟩ :=
      poll_eq d feeds { s with clock := now } now h.timed hfirst.1 hf
    refine ⟨_, hpoll, ⟨htimed, ?_, ?_, ?_, fun _ ↦ hbegan, fun h ↦ by (cases h), fun i hi ↦ ?_,
      fun _ h ↦ by (cases h)⟩, ?_⟩
    · exact List.nodup_append.mpr ⟨h.nodup, List.nodup_singleton _, fun a ha b hb ↦ by
        rw [List.mem_singleton] at hb
        rintro rfl
        exact hnew (hb ▸ ha)⟩
    · intro feed hfeed
      rcases List.mem_append.mp hfeed with hfeed | hfeed
      · exact h.polled feed hfeed
      · exact ⟨item, hfirst.1, (List.mem_singleton.mp hfeed).symm⟩
    · intro i hi hip
      rw [List.mem_append, not_or, List.mem_singleton] at hip
      show Function.update s.nextpoll item.record time i.record = _
      rw [Function.update_of_ne hip.2]
      exact h.kept i hi hip.1
    · cases hi
      exact hnext
    · rw [hrank]
      show l.length + 1 - (s.polled ++ [item.record]).length < _
      rw [List.length_append, List.length_singleton]
      omega

/-- Where the pass has not ended there is a next turn. -/
theorem step_passing (h : Passing d feeds l nextpoll s) (hc : Smooth d feeds s now)
    (hf : l.length + 2 ≤ fuel) (hphase : ∀ delta, s.phase ≠ .delayPoll delta) (hnow : s.clock ≤ now) :
    ∃ s', step fuel d feeds s now = some s' ∧ Passing d feeds l nextpoll s' ∧ rank l s' < rank l s := by
  rw [step, if_neg (by omega)]
  cases hp : s.phase with
  | searching => exact search_passing h hc.1 hf hp now
  | looping item => exact turn_passing h hc hf hp hnow
  | delayPoll delta => exact absurd hp (hphase delta)

theorem step_eq_some (h : step fuel d feeds s now = some s') :
    (∀ delta, s.phase ≠ .delayPoll delta) ∧ s.clock ≤ now := by
  rw [step] at h
  by_cases hnow : now < s.clock
  · rw [if_pos hnow] at h
    cases h
  · rw [if_neg hnow] at h
    refine ⟨fun delta hphase ↦ ?_, by omega⟩
    rw [hphase] at h
    cases h

end Pass

/-- Every server has one channel, joined if its number is not zero. -/
def directory : Directory ℤ ℤ := ⟨true, some, fun _ chanId ↦ some chanId, fun channel ↦ channel ≠ 0⟩

/-- A feed in a channel. -/
def feedIn (chanId timeout : ℤ) : RssFeed ℤ ℤ := ⟨1, chanId, none, none, timeout⟩

/-- One feed, due at 100. -/
def oneFeed : State where
  tree := { ActiveTree.empty with root := some ⟨0, 0⟩, owner := fun _ ↦ some 0 }
  nextpoll := fun _ ↦ 100
  phase := .searching
  began := 0
  clock := 0
  polled := []

theorem timed_oneFeed : Timed oneFeed.tree oneFeed.nextpoll [⟨0, 0⟩] :=
  ⟨⟨.node ⟨0, 0⟩ .nil .nil, ⟨rfl, ⟨rfl, rfl, rfl, trivial, trivial⟩, List.nodup_singleton _⟩,
    List.pairwise_singleton _ _, .refl _⟩, fun _ _ ↦ rfl⟩

/-- Feeds that are due at 100, 101 and 102. -/
def threeFeeds : State where
  tree :=
    { ActiveTree.empty with
      root := some ⟨1, 0⟩
      left := fun item ↦ if item = ⟨1, 0⟩ then some ⟨0, 0⟩ else none
      right := fun item ↦ if item = ⟨1, 0⟩ then some ⟨2, 0⟩ else none
      parent := fun item ↦ if item = ⟨1, 0⟩ then none else some ⟨1, 0⟩
      owner := fun _ ↦ some 0 }
  nextpoll := fun feed ↦ 100 + feed
  phase := .searching
  began := 0
  clock := 0
  polled := []

end Beirdobot.Rssfeed.Poll
