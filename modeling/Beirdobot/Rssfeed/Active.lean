import Beirdobot.ActiveTree.Agenda
import Beirdobot.Rssfeed.Poll

/-!
# The feeds that are to be polled

Transcriptions of what `rssfeed.c` does to `rssfeedTree` and `rssfeedActiveTree`: the passes of
`rssfeed_thread`, a reload with `result_load_rssfeeds` and `rssfeedFlushUnvisited`, the commands
that enable and disable a feed, and the forms.  A pass and a reload are several steps; before they
end only a form can be saved.  `rssfeedTree` is the list of its feeds in the order of their numbers;
an address is not used again.  The server and the channel of a feed are looked up whenever they are
needed.  Replies and menus are left out.
-/

namespace Beirdobot.Rssfeed.Active

open Library ActiveTree

variable {σ γ : Type}

/-- `RssFeed_t`, without its `nextpoll`. -/
structure Feed (σ γ : Type) extends Poll.RssFeed σ γ where
  feedId : ℤ
  enabled : Bool
  visited : Bool

/-- What can be changed in the form of a feed, as far as it is read here. -/
structure Fields where
  serverId : ℤ
  chanId : ℤ
  timeout : ℤ
  enabled : Bool

/-- A row of `plugin_rssfeed`. -/
structure Row extends Fields where
  feedId : ℤ

/-- The rows of the table, whose key `feedid` counts up from one. -/
structure Table where
  rows : List Row
  nodup : (rows.map Row.feedId).Nodup
  pos : ∀ row ∈ rows, 0 < row.feedId

/-- Where a reload is: before a row, with the next time to give out, or before a flush. -/
inductive Reload
  | loading (rows : List Row) (nextpoll : ℤ)
  | flushing

/-- The active tree with the times and the phase of `rssfeed_thread`, and the feeds. -/
structure State (σ γ : Type) where
  pass : Poll.State
  feeds : ℕ → Feed σ γ
  rssfeedTree : List ℕ
  reload : Option Reload
  fresh : ℕ

namespace State

/-- More than there are items in the active tree. -/
def fuel (s : State σ γ) : ℕ := s.rssfeedTree.length + 3

/-- No pass and no reload is in progress. -/
def Idle (s : State σ γ) : Prop := s.reload.isNone = true ∧ ∀ item, s.pass.phase ≠ .looping item

instance (s : State σ γ) : Decidable s.Idle :=
  decidable_of_iff (s.reload.isNone = true ∧
    (match s.pass.phase with | .looping _ => false | _ => true) = true) <| by
      rw [Idle]
      cases s.pass.phase <;> simp

/-- `BalancedBTreeFind( rssfeedTree, &feedId, LOCKED )` -/
def findFeed (s : State σ γ) (feedId : ℤ) : Option ℕ :=
  s.rssfeedTree.find? fun x ↦ (s.feeds x).feedId = feedId

/-- `BalancedBTreeAdd( rssfeedTree, item, LOCKED, … )` -/
def addFeed (s : State σ γ) (x : ℕ) : State σ γ :=
  let before (y : ℕ) : Bool := (s.feeds y).feedId < (s.feeds x).feedId
  { s with rssfeedTree := s.rssfeedTree.takeWhile before ++ x :: s.rssfeedTree.dropWhile before }

def setFeed (s : State σ γ) (x : ℕ) (feed : Feed σ γ) : State σ γ :=
  { s with feeds := Function.update s.feeds x feed }

/-- A feed with the values of its form or row; its server and channel are looked up again. -/
def setFields (feed : Feed σ γ) (fields : Fields) : Feed σ γ :=
  { feed with
    serverId := fields.serverId
    chanId := fields.chanId
    server := none
    channel := none
    timeout := fields.timeout
    enabled := fields.enabled }

/-- A feed gets an item of the active tree, with a time that is free. -/
def activate (s : State σ γ) (x : ℕ) (key : ℤ) (rebalance : Bool) : Option (State σ γ) := do
  let time ← s.pass.tree.findUnconflictingTime s.fuel s.pass.nextpoll x s.fuel key
  let nextpoll := Function.update s.pass.nextpoll x time
  let tree ← s.pass.tree.add s.fuel nextpoll ⟨x, s.fresh⟩ rebalance
  some { s with pass := { s.pass with tree, nextpoll }, fresh := s.fresh + 1 }

/-- The item that has the time of a feed is removed, if there is one. -/
def deactivate (s : State σ γ) (x : ℕ) : Option (State σ γ) := do
  let item ← s.pass.tree.find s.fuel s.pass.nextpoll (s.pass.nextpoll x)
  match item with
  | none => some s
  | some item =>
      let tree ← s.pass.tree.remove s.fuel s.pass.nextpoll (some item) false
      some { s with pass := { s.pass with tree } }

/-- `BalancedBTreeAdd( rssfeedActiveTree, NULL, LOCKED, TRUE )` -/
def rebalance (s : State σ γ) : Option (State σ γ) := do
  let tree ← s.pass.tree.rebalance s.fuel s.pass.nextpoll
  some { s with pass := { s.pass with tree } }

/-- `result_load_rssfeeds`, for a row of a feed that is found. -/
def loadFound (s : State σ γ) (x : ℕ) (row : Row) (nextpoll : ℤ) : Option (State σ γ × ℤ) := do
  let oldEnabled := (s.feeds x).enabled
  let s := s.setFeed x { setFields (s.feeds x) row.toFields with visited := true }
  if oldEnabled then
    if row.enabled then some (s, nextpoll)
    else
      let s ← s.deactivate x
      some (s, nextpoll)
  else
    if row.enabled then
      let s ← s.activate x nextpoll false
      some (s, nextpoll + 1)
    else some (s, nextpoll)

/-- A feed is allocated and added to `rssfeedTree`. -/
def newFeed (s : State σ γ) (feed : Feed σ γ) (nextpoll : ℤ) : State σ γ :=
  let x := s.fresh
  let s := { s with
    pass := { s.pass with nextpoll := Function.update s.pass.nextpoll x nextpoll }
    fresh := s.fresh + 1 }
  (s.setFeed x feed).addFeed x

/-- `result_load_rssfeeds`, for a row of a new feed. -/
def loadNew (s : State σ γ) (row : Row) (nextpoll : ℤ) : Option (State σ γ × ℤ) := do
  let x := s.fresh
  let feed : Feed σ γ := ⟨⟨row.serverId, row.chanId, none, none, row.timeout⟩, row.feedId,
    row.enabled, true⟩
  let s := s.newFeed feed nextpoll
  if row.enabled then
    let s ← s.activate x nextpoll false
    some (s, nextpoll + 1)
  else some (s, nextpoll + 1)

def loadRow (s : State σ γ) (row : Row) (nextpoll : ℤ) : Option (State σ γ × ℤ) :=
  match s.findFeed row.feedId with
  | some x => s.loadFound x row nextpoll
  | none => s.loadNew row nextpoll

/-- `rssfeedUnvisitTree` -/
def unvisit (s : State σ γ) : State σ γ :=
  { s with feeds := fun x ↦ { s.feeds x with visited := false } }

/-- The feed that `rssfeedFlushUnvisited` comes to. -/
def unvisited (s : State σ γ) : Option ℕ := s.rssfeedTree.find? fun x ↦ !(s.feeds x).visited

/-- `rssfeedFlushUnvisited` -/
def flushUnvisited (s : State σ γ) : Option (State σ γ) :=
  match s.unvisited with
  | some x => { s with rssfeedTree := s.rssfeedTree.erase x }.deactivate x
  | none => s.rebalance.map fun s ↦ { s with reload := none }

/-- `rssfeed enable`; a feed that is being entered has no channel. -/
def enable (s : State σ γ) (feedNum now : ℤ) : Option (State σ γ) :=
  match s.findFeed feedNum with
  | none => some s
  | some x =>
      if feedNum = -1 then none
      else if (s.feeds x).enabled then some s
      else (s.setFeed x { s.feeds x with enabled := true }).activate x now true

/-- `rssfeed disable` -/
def disable (s : State σ γ) (feedNum : ℤ) : Option (State σ γ) :=
  match s.findFeed feedNum with
  | none => some s
  | some x =>
      if feedNum = -1 then none
      else if (s.feeds x).enabled then do
        let s := s.setFeed x { s.feeds x with enabled := false }
        let item ← s.pass.tree.find s.fuel s.pass.nextpoll (s.pass.nextpoll x)
        let tree ← s.pass.tree.remove s.fuel s.pass.nextpoll item true
        some { s with pass := { s.pass with tree } }
      else some s

/-- `cursesRssfeedNew` -/
def cursesRssfeedNew (s : State σ γ) : State σ γ :=
  s.newFeed ⟨⟨0, 0, none, none, 0⟩, -1, false, false⟩ 0

/-- The form of a new feed is saved: its fields, and `result_insert_rssfeed`. -/
def insertFeed (s : State σ γ) (x : ℕ) (id : ℤ) (fields : Fields) : State σ γ :=
  let s := { s with rssfeedTree := s.rssfeedTree.erase x }
  (s.setFeed x { setFields (s.feeds x) fields with feedId := id }).addFeed x

end State

/-- A search or a turn of `rssfeed_thread`, with what the clock says and which channels there are;
a reload with its rows and its flushes; the commands; and the forms, of a feed or of a new one. -/
inductive Event (σ γ : Type)
  | search (d : Poll.Directory σ γ) (now : ℤ)
  | turn (d : Poll.Directory σ γ) (now : ℤ)
  | reload (now : ℤ) (table : Table)
  | row
  | flush
  | enable (feedNum now : ℤ)
  | disable (feedNum : ℤ)
  | save (x : ℕ) (fields : Fields)
  | new
  | insert (id : ℤ) (fields : Fields)
  | cancel

def step (s : State σ γ) : Event σ γ → Option (State σ γ)
  | .search d now =>
      if s.Idle then
        (Poll.State.search s.fuel d (fun x ↦ (s.feeds x).toRssFeed)
          { s.pass with began := now, clock := now, polled := [] } now).map fun pass ↦
            { s with pass }
      else none
  | .turn d now =>
      match s.pass.phase with
      | .looping item => do
          let pass ← Poll.State.turn s.fuel d (fun x ↦ (s.feeds x).toRssFeed) s.pass item now
          match pass.phase with
          | .looping _ => some { s with pass }
          | _ => State.rebalance { s with pass }
      | _ => none
  | .reload now table =>
      if s.Idle then
        match table.rows with
        | [] => some { s.unvisit with reload := some .flushing }
        | row :: rows => some { s.unvisit with reload := some (.loading (row :: rows) now) }
      else none
  | .row =>
      match s.reload with
      | some (.loading (row :: rows) nextpoll) =>
          (s.loadRow row nextpoll).map fun (s, nextpoll) ↦
            { s with reload := some (.loading rows nextpoll) }
      | _ => none
  | .flush =>
      match s.reload with
      | some (.loading [] _) => s.rebalance.map fun s ↦ { s with reload := some .flushing }
      | some .flushing => s.flushUnvisited
      | _ => none
  | .enable feedNum now => if s.Idle then s.enable feedNum now else none
  | .disable feedNum => if s.Idle then s.disable feedNum else none
  | .save x fields =>
      if x ∈ s.rssfeedTree ∧ (s.feeds x).feedId ≠ -1 then
        some (s.setFeed x (State.setFields (s.feeds x) fields))
      else none
  | .new => if s.Idle ∧ s.findFeed (-1) = none then some s.cursesRssfeedNew else none
  | .insert id fields =>
      match s.findFeed (-1) with
      | some x =>
          if s.Idle ∧ 0 < id ∧ s.findFeed id = none then some (s.insertFeed x id fields) else none
      | none => none
  | .cancel =>
      match s.findFeed (-1) with
      | some x => if s.Idle then some { s with rssfeedTree := s.rssfeedTree.erase x } else none
      | none => none

/-- No feeds are loaded yet. -/
structure Init (s : State σ γ) : Prop where
  tree : s.pass.tree = .empty
  phase : s.pass.phase = .searching
  rssfeedTree : s.rssfeedTree = []
  reload : s.reload = none

def system (σ γ : Type) : System (State σ γ) (Event σ γ) := ⟨Init, step⟩

/-! ## What is to hold -/

/-- The feeds of `rssfeedTree` that are enabled. -/
def enabledFeeds (s : State σ γ) : List ℕ := s.rssfeedTree.filter fun x ↦ (s.feeds x).enabled

/-- The active tree is ordered by the times of its feeds as they are now, and has one item for each
feed that is enabled, and no other ones. -/
def Scheduled (s : State σ γ) : Prop := Lists s.pass.tree s.pass.nextpoll (enabledFeeds s)

/-- The steps after which it does: a feed that is due and has no joined channel is put off without
overtaking another one; a feed that is not enabled and has no row has no time of another one; and
a form leaves `enabled` as it is. -/
def Orderly (s : State σ γ) : Event σ γ → Prop
  | .turn d now => ∀ item, s.pass.phase = .looping item →
      Poll.channelJoined d (s.feeds item.record).toRssFeed = false →
      s.pass.nextpoll item.record ≤ now + 15 →
        ∀ y ∈ enabledFeeds s, y ≠ item.record → now + 60 ≠ s.pass.nextpoll y ∧
          (s.pass.nextpoll y < s.pass.nextpoll item.record ↔ s.pass.nextpoll y < now + 60)
  | .flush => s.reload.isSome = true → ∀ x, s.unvisited = some x → (s.feeds x).enabled = false →
      ∀ y ∈ enabledFeeds s, s.pass.nextpoll y ≠ s.pass.nextpoll x
  | .save x fields => fields.enabled = (s.feeds x).enabled
  | .insert _ fields => fields.enabled = false
  | _ => True

/-! ## What the functions do -/

section Functions

variable {s : State σ γ} {x : ℕ} {feed : Feed σ γ} {xs : List ℕ}

/-- Of two conditions that differ on one element, one picks it and the other does not. -/
theorem filter_perm_cons {p q : ℕ → Bool} (hxs : xs.Nodup) (hx : x ∈ xs) (hp : p x = true)
    (hq : q x = false) (hpq : ∀ y, y ≠ x → p y = q y) :
    (xs.filter p).Perm (x :: xs.filter q) := by
  have hperm : xs.Perm (x :: xs.erase x) := List.perm_cons_erase hx
  have hrest : (xs.erase x).filter p = (xs.erase x).filter q := by
    apply List.filter_congr
    intro y hy
    apply hpq
    rintro rfl
    exact hxs.not_mem_erase hy
  have hleft := hperm.filter p
  have hright := hperm.filter q
  rw [List.filter_cons_of_pos hp, hrest] at hleft
  rw [List.filter_cons_of_neg (by simp [hq])] at hright
  exact hleft.trans (hright.symm.cons x)

theorem mem_enabledFeeds {y : ℕ} :
    y ∈ enabledFeeds s ↔ y ∈ s.rssfeedTree ∧ (s.feeds y).enabled = true := List.mem_filter

theorem length_enabledFeeds : (enabledFeeds s).length ≤ s.rssfeedTree.length :=
  List.length_filter_le ..

theorem enabledFeeds_setFeed_same (h : feed.enabled = (s.feeds x).enabled) :
    enabledFeeds (s.setFeed x feed) = enabledFeeds s := by
  apply List.filter_congr
  intro y _
  change (Function.update s.feeds x feed y).enabled = (s.feeds y).enabled
  by_cases hy : y = x
  · subst hy
    rw [Function.update_self, h]
  · rw [Function.update_of_ne hy]

theorem enabledFeeds_setFeed_on (hnodup : s.rssfeedTree.Nodup) (hx : x ∈ s.rssfeedTree)
    (hold : (s.feeds x).enabled = false) (h : feed.enabled = true) :
    (enabledFeeds (s.setFeed x feed)).Perm (x :: enabledFeeds s) := by
  refine filter_perm_cons hnodup hx ?_ hold fun y hy ↦ ?_
  · change (Function.update s.feeds x feed x).enabled = true
    rw [Function.update_self, h]
  · change (Function.update s.feeds x feed y).enabled = (s.feeds y).enabled
    rw [Function.update_of_ne hy]

theorem enabledFeeds_setFeed_off (hnodup : s.rssfeedTree.Nodup) (hx : x ∈ s.rssfeedTree)
    (hold : (s.feeds x).enabled = true) (h : feed.enabled = false) :
    ((enabledFeeds s).erase x).Perm (enabledFeeds (s.setFeed x feed)) := by
  have hperm : (enabledFeeds s).Perm (x :: enabledFeeds (s.setFeed x feed)) := by
    refine filter_perm_cons hnodup hx hold ?_ fun y hy ↦ ?_
    · change (Function.update s.feeds x feed x).enabled = false
      rw [Function.update_self, h]
    · change (s.feeds y).enabled = (Function.update s.feeds x feed y).enabled
      rw [Function.update_of_ne hy]
  have herase := hperm.erase x
  rwa [List.erase_cons_head] at herase

theorem addFeed_perm (s : State σ γ) (x : ℕ) :
    (s.addFeed x).rssfeedTree.Perm (x :: s.rssfeedTree) := by
  rw [State.addFeed]
  refine List.perm_middle.trans (.cons x ?_)
  rw [List.takeWhile_append_dropWhile]

theorem enabledFeeds_addFeed (s : State σ γ) (x : ℕ) : (enabledFeeds (s.addFeed x)).Perm
    (if (s.feeds x).enabled then x :: enabledFeeds s else enabledFeeds s) := by
  have hperm := (addFeed_perm s x).filter fun y ↦ (s.feeds y).enabled
  rw [List.filter_cons] at hperm
  exact hperm

theorem activate_eq (h : Lists s.pass.tree s.pass.nextpoll xs) (hx : x ∉ xs)
    (hf : xs.length + 2 ≤ s.fuel) (key : ℤ) (rebalance : Bool) :
    ∃ tree nextpoll, s.activate x key rebalance = some { s with
        pass := { s.pass with tree, nextpoll }
        fresh := s.fresh + 1 } ∧ Lists tree nextpoll (x :: xs) := by
  obtain ⟨time, tree, htime, htree, hlists, -⟩ := h.add hx s.fresh key rebalance hf
  refine ⟨tree, Function.update s.pass.nextpoll x time, ?_, hlists⟩
  rw [State.activate, htime]
  simp only [Option.bind_eq_bind, Option.bind_some, htree]

theorem deactivate_eq (h : Lists s.pass.tree s.pass.nextpoll xs) (hx : x ∈ xs)
    (hf : xs.length ≤ s.fuel) :
    ∃ tree, s.deactivate x = some { s with pass := { s.pass with tree } } ∧
      Lists tree s.pass.nextpoll (xs.erase x) := by
  obtain ⟨item, tree, hitem, htree, hlists⟩ := h.remove hx false hf
  refine ⟨tree, ?_, hlists⟩
  rw [State.deactivate, hitem]
  simp only [Option.bind_eq_bind, Option.bind_some, htree]

theorem deactivate_none (h : Lists s.pass.tree s.pass.nextpoll xs)
    (hx : ∀ y ∈ xs, s.pass.nextpoll y ≠ s.pass.nextpoll x) (hf : xs.length ≤ s.fuel) :
    s.deactivate x = some s := by
  rw [State.deactivate, h.find_none hx hf]
  rfl

theorem rebalance_eq (h : Lists s.pass.tree s.pass.nextpoll xs) (hf : xs.length + 1 ≤ s.fuel) :
    ∃ tree, s.rebalance = some { s with pass := { s.pass with tree } } ∧
      Lists tree s.pass.nextpoll xs := by
  obtain ⟨tree, htree, hlists⟩ := h.rebalance hf
  refine ⟨tree, ?_, hlists⟩
  rw [State.rebalance, htree]
  rfl

theorem findFeed_some {feedId : ℤ} (h : s.findFeed feedId = some x) :
    x ∈ s.rssfeedTree ∧ (s.feeds x).feedId = feedId := by
  rw [State.findFeed] at h
  exact ⟨List.mem_of_find?_eq_some h, by simpa using List.find?_some h⟩

end Functions

end Beirdobot.Rssfeed.Active
