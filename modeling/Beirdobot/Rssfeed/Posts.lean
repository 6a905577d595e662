import Beirdobot.ActiveTree.Agenda
import Beirdobot.Library.System

/-!
# The items that are posted

Transcriptions of the loops of `rssfeed_thread` that queue the new items of a feed in `rssItemTree`
and post them, of `db_update_lastpost`, and of what a reload does to `lastPost`.  Which feeds a pass
polls, and when, is left open here.  When an item was published is a function of its text; the
database serves the queries in their order, and nobody else writes `lastpost`.  The texts of the
posts are left out.
-/

namespace Beirdobot.Rssfeed.Posts

open Library ActiveTree

/-- What is read of an item of a document. -/
structure RssItem where
  title : Option String
  link : Option String
  pubDate : String
deriving DecidableEq

/-- Where the pass is: there is none, feeds are polled, or items are posted. -/
inductive Phase
  | idle
  | polling
  | posting
deriving DecidableEq

/-- A document that was read, and the `lastPost` of its feed before. -/
structure Poll where
  feedId : ℤ
  document : List RssItem
  lastPost : ℤ

/-- `rssItemTree` with the times of its records, and with the feed and the item of each; `lastPost`
of the feeds; and `lastpost` of the rows, with the updates that are not executed yet.  `polls` are
the documents so far, `posted` the records in the order of their posts, and `pass` those of the last
pass among them. -/
structure State where
  tree : ActiveTree
  pubTime : ℕ → ℤ
  itemData : ℕ → ℤ × RssItem
  fresh : ℕ
  lastPost : ℤ → ℤ
  rows : ℤ → ℤ
  updates : List (ℤ × ℤ)
  phase : Phase
  polls : List Poll
  posted : List ℕ
  pass : List ℕ

/-- A `time_t` as an `int`. -/
def toInt (time : ℤ) : ℤ := time.bmod (2 ^ 32)

namespace State

/-- More than there are records. -/
def fuel (s : State) : ℕ := s.fresh + 3

section

variable (published : ℤ → RssItem → Option ℤ)

/-- A turn of the loop over a document, with the greatest time of publication so far. -/
def queueItem (feedId : ℤ) (s : State) (lastPost : ℤ) (rssItem : RssItem) : Option (State × ℤ) :=
  match published feedId rssItem with
  | none => some (s, lastPost)
  | some pubTime =>
      if pubTime > s.lastPost feedId then do
        let x := s.fresh
        let time ← s.tree.findUnconflictingTime s.fuel s.pubTime x s.fuel pubTime
        let times := Function.update s.pubTime x time
        let tree ← s.tree.add s.fuel times ⟨x, x⟩ false
        some ({ s with
          tree
          pubTime := times
          itemData := Function.update s.itemData x (feedId, rssItem)
          fresh := s.fresh + 1 }, if pubTime > lastPost then pubTime else lastPost)
      else some (s, lastPost)

/-- The loop over a document. -/
def queueItems (feedId : ℤ) (s : State) (lastPost : ℤ) : List RssItem → Option (State × ℤ)
  | [] => some (s, lastPost)
  | rssItem :: document => do
      let (s, lastPost) ← s.queueItem published feedId lastPost rssItem
      queueItems feedId s lastPost document

/-- A feed is polled, and its document is read. -/
def poll (s : State) (feedId : ℤ) (document : List RssItem) : Option State := do
  let mark := s.lastPost feedId
  let (s, lastPost) ← s.queueItems published feedId mark document
  let s := { s with polls := s.polls ++ [⟨feedId, document, mark⟩] }
  if lastPost > mark then
    some { s with
      updates := s.updates ++ [(feedId, toInt lastPost)]
      lastPost := Function.update s.lastPost feedId lastPost }
  else some s

end

/-- `UPDATE plugin_rssfeed SET lastpost = ? WHERE feedid = ?` -/
def execute (rows : ℤ → ℤ) (update : ℤ × ℤ) : ℤ → ℤ := Function.update rows update.1 update.2

/-- `BalancedBTreeAdd( rssItemTree, NULL, LOCKED, TRUE )` -/
def rebalance (s : State) : Option State := do
  let tree ← s.tree.rebalance s.fuel s.pubTime
  some { s with tree }

/-- A turn of the loop that posts the items. -/
def post (s : State) : Option State := do
  let item ← s.tree.findLeast s.fuel
  match item with
  | none => some { s with phase := .idle }
  | some item =>
      let tree ← s.tree.remove s.fuel s.pubTime (some item) false
      some { s with tree, posted := s.posted ++ [item.record], pass := s.pass ++ [item.record] }

end State

/-- A pass begins, polls a feed, has polled its feeds, and posts an item or ends; an update of the
database is executed; and a reload reads the rows, when the updates before it are executed. -/
inductive Event
  | begin
  | poll (feedId : ℤ) (document : List RssItem)
  | rebalance
  | post
  | execute
  | reload

section Runs

variable (published : ℤ → RssItem → Option ℤ)

def step (s : State) : Event → Option State
  | .begin => if s.phase = .idle then some { s with phase := .polling, pass := [] } else none
  | .poll feedId document => if s.phase = .polling then s.poll published feedId document else none
  | .rebalance =>
      if s.phase = .polling then s.rebalance.map fun s ↦ { s with phase := .posting } else none
  | .post => if s.phase = .posting then s.post else none
  | .execute =>
      match s.updates with
      | [] => none
      | update :: updates => some { s with rows := State.execute s.rows update, updates }
  | .reload =>
      if s.phase = .idle then
        let rows := s.updates.foldl State.execute s.rows
        some { s with rows, updates := [], lastPost := rows }
      else none

/-- The feeds are loaded, and nothing is queued. -/
structure Init (s : State) : Prop where
  tree : s.tree = .empty
  lastPost : s.lastPost = s.rows
  updates : s.updates = []
  phase : s.phase = .idle
  polls : s.polls = []
  posted : s.posted = []
  pass : s.pass = []

def system : System State Event := ⟨Init, step published⟩

/-! ## What is to hold -/

/-- The items of a document that are published after the last post. -/
def due (p : Poll) : List (ℤ × RssItem) :=
  (p.document.filter fun item ↦ (published p.feedId item).any (p.lastPost < ·)).map (p.feedId, ·)

/-- A record has the time of its publication, or a later one if others have those between. -/
def Delayed (s : State) (xs : List ℕ) (x : ℕ) : Prop :=
  ∃ t, published (s.itemData x).1 (s.itemData x).2 = some t ∧ t ≤ s.pubTime x ∧
    ∀ k, t ≤ k → k < s.pubTime x → ∃ y ∈ xs, s.pubTime y = k

/-- What the posts of a pass are to be: in the order of their times, none of them before its
publication, and none of them later than it has to be. -/
structure Ordered (s : State) : Prop where
  sorted : s.pass.Pairwise fun x y ↦ s.pubTime x < s.pubTime y
  delayed : ∀ x ∈ s.pass, Delayed published s s.pass x

end Runs

/-! ## The queue -/

section Queue

variable {published : ℤ → RssItem → Option ℤ} {s s' : State} {xs ys : List ℕ} {x : ℕ}
  {queued : List (ℤ × RssItem)} {feedId : ℤ}

/-- What holds with the records `xs` in the tree, after the items `queued`. -/
structure Inv (published : ℤ → RssItem → Option ℤ) (s : State) (xs : List ℕ)
    (queued : List (ℤ × RssItem)) : Prop where
  lists : Lists s.tree s.pubTime xs
  lt_fresh : ∀ x ∈ s.posted ++ xs, x < s.fresh
  pass : ∃ before, s.posted = before ++ s.pass
  idle : s.phase = .idle → xs = []
  polling : s.phase = .polling → s.pass = []
  sorted : s.pass.Pairwise fun x y ↦ s.pubTime x < s.pubTime y
  before : ∀ x ∈ s.pass, ∀ y ∈ xs, s.pubTime x < s.pubTime y
  delayed : ∀ x ∈ s.pass ++ xs, Delayed published s (s.pass ++ xs) x
  all : ((s.posted ++ xs).map s.itemData).Perm queued

theorem Inv.length_le (h : Inv published s xs queued) : xs.length + 3 ≤ s.fuel := by
  have hsub : xs ⊆ List.range s.fresh := by
    intro x hx
    exact List.mem_range.mpr (h.lt_fresh x (List.mem_append_right _ hx))
  have hle := (h.lists.nodup.subperm hsub).length_le
  rw [List.length_range] at hle
  exact Nat.add_le_add_right hle 3

theorem Inv.fresh_notMem (h : Inv published s xs queued) : s.fresh ∉ s.posted ++ xs :=
  fun hmem ↦ Nat.lt_irrefl _ (h.lt_fresh _ hmem)

/-- More records do not make it less delayed. -/
theorem Delayed.congr (h : Delayed published s xs x) (hdata : s'.itemData x = s.itemData x)
    (htime : s'.pubTime x = s.pubTime x) (hxs : ∀ y ∈ xs, y ∈ ys ∧ s'.pubTime y = s.pubTime y) :
    Delayed published s' ys x := by
  obtain ⟨t, hpublished, hle, hbusy⟩ := h
  refine ⟨t, by rw [hdata, hpublished], by rwa [htime], fun k hk hlt ↦ ?_⟩
  rw [htime] at hlt
  obtain ⟨y, hy, rfl⟩ := hbusy k hk hlt
  exact ⟨y, (hxs y hy).1, (hxs y hy).2⟩

/-- The greatest time of publication, from a time on. -/
def newest (published : ℤ → RssItem → Option ℤ) (feedId lastPost : ℤ) (document : List RssItem) :
    ℤ :=
  (document.filterMap (published feedId)).foldl max lastPost

theorem newest_spec (feedId lastPost : ℤ) (document : List RssItem) :
    newest published feedId lastPost document ∈
        lastPost :: document.filterMap (published feedId) ∧
      ∀ t ∈ lastPost :: document.filterMap (published feedId),
        t ≤ newest published feedId lastPost document :=
  List.max?_eq_some_iff.mp List.max?_cons'

theorem le_newest (lastPost : ℤ) (document : List RssItem) :
    lastPost ≤ newest published feedId lastPost document :=
  (newest_spec feedId lastPost document).2 _ List.mem_cons_self

theorem published_le_newest {lastPost : ℤ} {document : List RssItem} {item : RssItem} {t : ℤ}
    (hitem : item ∈ document) (ht : published feedId item = some t) :
    t ≤ newest published feedId lastPost document :=
  (newest_spec feedId lastPost document).2 _
    (List.mem_cons_of_mem _ (List.mem_filterMap.mpr ⟨item, hitem, ht⟩))

/-- It is the time it was, or that of an item. -/
theorem newest_cases (lastPost : ℤ) (document : List RssItem) :
    newest published feedId lastPost document = lastPost ∨ ∃ item ∈ document,
      published feedId item = some (newest published feedId lastPost document) := by
  rcases List.mem_cons.mp (newest_spec feedId lastPost document).1 with hsame | hmem
  · exact .inl hsame
  · exact .inr (List.mem_filterMap.mp hmem)

theorem due_singleton (feedId mark : ℤ) (rssItem : RssItem) :
    due published ⟨feedId, [rssItem], mark⟩ =
      if (published feedId rssItem).any (mark < ·) then [(feedId, rssItem)] else [] := by
  rw [due, List.filter_singleton]
  cases (published feedId rssItem).any (mark < ·) <;> rfl

/-- A record is queued for an item, with the first time from `t` on that is free. -/
theorem Inv.queue (h : Inv published s xs queued) (hphase : s.phase = .polling) {rssItem : RssItem} {t : ℤ}
    (ht : published feedId rssItem = some t) {time : ℤ} {tree : ActiveTree} (hle : t ≤ time)
    (hbusy : ∀ k, t ≤ k → k < time → ∃ y ∈ xs, s.pubTime y = k)
    (hlists : Lists tree (Function.update s.pubTime s.fresh time) (s.fresh :: xs)) :
    Inv published { s with
      tree
      pubTime := Function.update s.pubTime s.fresh time
      itemData := Function.update s.itemData s.fresh (feedId, rssItem)
      fresh := s.fresh + 1 } (s.fresh :: xs) (queued ++ [(feedId, rssItem)]) := by
  have hpass := h.polling hphase
  have hold : ∀ y ∈ s.posted ++ xs, y ≠ s.fresh := by
    rintro y hy rfl
    exact h.fresh_notMem hy
  have htime : ∀ y ∈ xs, Function.update s.pubTime s.fresh time y = s.pubTime y := fun y hy ↦
    Function.update_of_ne (hold y (List.mem_append_right _ hy)) ..
  have hdata : ∀ y ∈ s.posted ++ xs,
      Function.update s.itemData s.fresh (feedId, rssItem) y = s.itemData y := fun y hy ↦
    Function.update_of_ne (hold y hy) ..
  refine ⟨hlists, fun y hy ↦ ?_, h.pass, fun hidle ↦ ?_, fun _ ↦ hpass, ?_, ?_, fun y hy ↦ ?_, ?_⟩
  · rcases List.mem_append.mp hy with hy | hy
    · exact Nat.lt_succ_of_lt (h.lt_fresh y (List.mem_append_left _ hy))
    · rcases List.mem_cons.mp hy with rfl | hy
      · exact Nat.lt_succ_self _
      · exact Nat.lt_succ_of_lt (h.lt_fresh y (List.mem_append_right _ hy))
  · change s.phase = .idle at hidle
    rw [hphase] at hidle
    cases hidle
  · change s.pass.Pairwise _
    rw [hpass]
    exact .nil
  · change ∀ x ∈ s.pass, _
    rw [hpass]
    intro x hx
    cases hx
  · change y ∈ s.pass ++ s.fresh :: xs at hy
    rw [hpass, List.nil_append] at hy
    rcases List.mem_cons.mp hy with rfl | hy
    · refine ⟨t, ?_, ?_, fun k hk hlt ↦ ?_⟩
      · change published (Function.update s.itemData s.fresh (feedId, rssItem) s.fresh).1
          (Function.update s.itemData s.fresh (feedId, rssItem) s.fresh).2 = some t
        rwa [Function.update_self]
      · change t ≤ Function.update s.pubTime s.fresh time s.fresh
        rwa [Function.update_self]
      · change k < Function.update s.pubTime s.fresh time s.fresh at hlt
        rw [Function.update_self] at hlt
        obtain ⟨y, hy, rfl⟩ := hbusy k hk hlt
        refine ⟨y, List.mem_append_right _ (List.mem_cons_of_mem _ hy), htime y hy⟩
    · refine (h.delayed y (List.mem_append_right _ hy)).congr
        (hdata y (List.mem_append_right _ hy)) (htime y hy) fun z hz ↦ ?_
      rw [hpass, List.nil_append] at hz
      exact ⟨List.mem_append_right _ (List.mem_cons_of_mem _ hz), htime z hz⟩
  · have hperm : (s.posted ++ s.fresh :: xs).Perm (s.fresh :: (s.posted ++ xs)) := List.perm_middle
    have hmap := hperm.map (Function.update s.itemData s.fresh (feedId, rssItem))
    rw [List.map_cons, Function.update_self, List.map_congr_left hdata] at hmap
    exact hmap.trans ((h.all.cons _).trans (List.perm_append_singleton _ _).symm)

/-- An item that is due gets a record; other ones do not. -/
theorem queueItem_eq (h : Inv published s xs queued) (hphase : s.phase = .polling) (feedId lastPost : ℤ)
    (rssItem : RssItem) (hmark : s.lastPost feedId ≤ lastPost) :
    ∃ tree pubTime itemData fresh ys,
      s.queueItem published feedId lastPost rssItem = some
        ({ s with tree, pubTime, itemData, fresh },
          newest published feedId lastPost [rssItem]) ∧
      Inv published { s with tree, pubTime, itemData, fresh } ys
        (queued ++ due published ⟨feedId, [rssItem], s.lastPost feedId⟩) := by
  have hfuel := h.length_le
  rw [State.queueItem, due_singleton]
  cases ht : published feedId rssItem with
  | none =>
      refine ⟨s.tree, s.pubTime, s.itemData, s.fresh, xs, ?_, ?_⟩
      · rw [newest, List.filterMap_cons_none ht]
        rfl
      · rw [Option.any_none, if_neg Bool.false_ne_true, List.append_nil]
        exact h
  | some t =>
      have hnewest : newest published feedId lastPost [rssItem] = max lastPost t := by
        rw [newest, List.filterMap_cons_some ht]
        rfl
      rw [hnewest, Option.any_some]
      by_cases hdue : t > s.lastPost feedId
      · obtain ⟨time, tree, htime, htree, hlists, hle, hbusy⟩ := h.lists.add
          (fun hmem ↦ h.fresh_notMem (List.mem_append_right _ hmem)) s.fresh t false
          (show xs.length + 2 ≤ s.fuel by omega)
        refine ⟨tree, Function.update s.pubTime s.fresh time,
          Function.update s.itemData s.fresh (feedId, rssItem), s.fresh + 1, s.fresh :: xs, ?_, ?_⟩
        · change (if t > s.lastPost feedId then _ else some (s, lastPost)) = _
          rw [if_pos hdue]
          simp only [htime, htree, Option.bind_eq_bind, Option.bind_some]
          rw [max_def_lt]
        · rw [decide_eq_true hdue, if_pos rfl]
          exact h.queue hphase ht hle hbusy hlists
      · refine ⟨s.tree, s.pubTime, s.itemData, s.fresh, xs, ?_, ?_⟩
        · change (if t > s.lastPost feedId then _ else some (s, lastPost)) = _
          rw [if_neg hdue, max_eq_left ((Int.not_lt.mp hdue).trans hmark)]
        · rw [decide_eq_false hdue, if_neg Bool.false_ne_true, List.append_nil]
          exact h

theorem newest_cons (feedId lastPost : ℤ) (rssItem : RssItem) (document : List RssItem) :
    newest published feedId lastPost (rssItem :: document) =
      newest published feedId (newest published feedId lastPost [rssItem]) document := by
  rw [newest, newest, newest, ← List.foldl_append, ← List.filterMap_append, List.singleton_append]

theorem due_cons (feedId mark : ℤ) (rssItem : RssItem) (document : List RssItem) :
    due published ⟨feedId, rssItem :: document, mark⟩ =
      due published ⟨feedId, [rssItem], mark⟩ ++ due published ⟨feedId, document, mark⟩ := by
  rw [due, due, due, ← List.map_append, ← List.filter_append, List.singleton_append]

theorem queueItems_eq (h : Inv published s xs queued) (hphase : s.phase = .polling)
    (feedId lastPost : ℤ) (document : List RssItem) (hmark : s.lastPost feedId ≤ lastPost) :
    ∃ tree pubTime itemData fresh ys,
      s.queueItems published feedId lastPost document = some
        ({ s with tree, pubTime, itemData, fresh },
          newest published feedId lastPost document) ∧
      Inv published { s with tree, pubTime, itemData, fresh } ys
        (queued ++ due published ⟨feedId, document, s.lastPost feedId⟩) := by
  induction document generalizing s xs queued lastPost with
  | nil =>
      refine ⟨s.tree, s.pubTime, s.itemData, s.fresh, xs, rfl, ?_⟩
      change Inv published s xs (queued ++ [])
      rwa [List.append_nil]
  | cons rssItem document ih =>
      obtain ⟨tree, pubTime, itemData, fresh, ys, heq, hinv⟩ :=
        queueItem_eq h hphase feedId lastPost rssItem hmark
      obtain ⟨tree', pubTime', itemData', fresh', zs, heq', hinv'⟩ :=
        ih hinv hphase (newest published feedId lastPost [rssItem])
          (hmark.trans (le_newest lastPost [rssItem]))
      refine ⟨tree', pubTime', itemData', fresh', zs, ?_, ?_⟩
      · rw [State.queueItems, heq, newest_cons feedId lastPost rssItem document]
        exact heq'
      · rw [due_cons, ← List.append_assoc]
        exact hinv'

/-- What is not read of a state here can change. -/
theorem Inv.of_eq (h : Inv published s xs queued) {lastPost rows : ℤ → ℤ}
    {updates : List (ℤ × ℤ)} {polls : List Poll} :
    Inv published { s with lastPost, rows, updates, polls } xs queued :=
  ⟨h.lists, h.lt_fresh, h.pass, h.idle, h.polling, h.sorted, h.before, h.delayed, h.all⟩

/-- A poll queues the items that are due, and `lastPost` goes up to the last one of them. -/
theorem poll_eq (h : Inv published s xs (s.polls.flatMap (due published)))
    (hphase : s.phase = .polling) (feedId : ℤ) (document : List RssItem) :
    ∃ tree pubTime itemData fresh ys updates,
      s.poll published feedId document = some { s with
        tree, pubTime, itemData, fresh, updates
        polls := s.polls ++ [⟨feedId, document, s.lastPost feedId⟩]
        lastPost := Function.update s.lastPost feedId
          (newest published feedId (s.lastPost feedId) document) } ∧
      (updates = s.updates ∧
          newest published feedId (s.lastPost feedId) document = s.lastPost feedId ∨
        s.lastPost feedId < newest published feedId (s.lastPost feedId) document ∧
          updates = s.updates ++
            [(feedId, toInt (newest published feedId (s.lastPost feedId) document))]) ∧
      Inv published { s with tree, pubTime, itemData, fresh } ys
        ((s.polls ++ [Poll.mk feedId document (s.lastPost feedId)]).flatMap (due published)) := by
  obtain ⟨tree, pubTime, itemData, fresh, ys, heq, hinv⟩ :=
    queueItems_eq h hphase feedId (s.lastPost feedId) document (Int.le_refl _)
  have hle : s.lastPost feedId ≤ newest published feedId (s.lastPost feedId) document :=
    le_newest ..
  rw [List.flatMap_append, List.flatMap_singleton]
  rw [State.poll, heq]
  generalize newest published feedId (s.lastPost feedId) document = lastPost at hle ⊢
  by_cases hlast : lastPost > s.lastPost feedId
  · refine ⟨tree, pubTime, itemData, fresh, ys, _, if_pos hlast, .inr ⟨hlast, rfl⟩, hinv⟩
  · obtain rfl := Int.le_antisymm hle (Int.not_lt.mp hlast)
    refine ⟨tree, pubTime, itemData, fresh, ys, s.updates, ?_, .inl ⟨rfl, rfl⟩, hinv⟩
    rw [Function.update_eq_self]
    exact if_neg hlast

theorem rebalance_eq (h : Inv published s xs queued) :
    ∃ tree, s.rebalance = some { s with tree } ∧
      Inv published { s with tree, phase := .posting } xs queued := by
  have hfuel := h.length_le
  obtain ⟨tree, htree, hlists⟩ := h.lists.rebalance (show xs.length + 1 ≤ s.fuel by omega)
  refine ⟨tree, ?_, hlists, h.lt_fresh, h.pass, fun h ↦ ?_, fun h ↦ ?_, h.sorted, h.before,
    h.delayed, h.all⟩
  · rw [State.rebalance, htree]
    rfl
  · cases h
  · cases h

/-- The item with the least time is posted; without one the pass ends. -/
theorem post_eq (h : Inv published s xs queued) (hphase : s.phase = .posting) :
    (xs = [] ∧ s.post = some { s with phase := .idle } ∧
        Inv published { s with phase := .idle } xs queued) ∨
      ∃ x ∈ xs, ∃ tree,
        s.post = some { s with tree, posted := s.posted ++ [x], pass := s.pass ++ [x] } ∧
        Inv published { s with tree, posted := s.posted ++ [x], pass := s.pass ++ [x] }
          (xs.erase x) queued := by
  have hfuel := h.length_le
  rcases h.lists.findLeast (show xs.length ≤ s.fuel by omega) with ⟨rfl, hleast⟩ |
    ⟨item, hleast, hx, hlt, hremove⟩
  · refine .inl ⟨rfl, ?_, h.lists, h.lt_fresh, h.pass, fun _ ↦ rfl, fun h ↦ ?_, h.sorted, h.before,
      h.delayed, h.all⟩
    · rw [State.post, hleast]
      rfl
    · cases h
  · obtain ⟨tree, htree, hlists⟩ := hremove false
    generalize hrecord : item.record = x at hx hlt hlists
    have hperm : xs.Perm (x :: xs.erase x) := List.perm_cons_erase hx
    have hsplit : ∀ ys : List ℕ, (ys ++ [x] ++ xs.erase x).Perm (ys ++ xs) := by
      intro ys
      rw [List.append_assoc, List.singleton_append]
      exact hperm.symm.append_left ys
    refine .inr ⟨x, hx, tree, ?_, hlists, fun y hy ↦ ?_, ?_, fun h ↦ ?_, fun h ↦ ?_, ?_, ?_,
      fun y hy ↦ ?_, ?_⟩
    · rw [State.post, hleast]
      simp only [htree, Option.bind_eq_bind, Option.bind_some, hrecord]
    · exact h.lt_fresh y ((hsplit s.posted).mem_iff.mp hy)
    · obtain ⟨before, hbefore⟩ := h.pass
      exact ⟨before, by rw [hbefore, List.append_assoc]⟩
    · change s.phase = .idle at h
      rw [hphase] at h
      cases h
    · change s.phase = .polling at h
      rw [hphase] at h
      cases h
    · refine List.pairwise_append.mpr ⟨h.sorted, List.pairwise_singleton _ _, fun y hy z hz ↦ ?_⟩
      rw [List.mem_singleton.mp hz]
      exact h.before y hy x hx
    · intro y hy z hz
      have hzx := List.mem_of_mem_erase hz
      rcases List.mem_append.mp hy with hy | hy
      · exact h.before y hy z hzx
      · rw [List.mem_singleton.mp hy]
        apply hlt z hzx
        rintro rfl
        exact h.lists.nodup.not_mem_erase hz
    · have hmem := (hsplit s.pass).mem_iff.mp hy
      exact (h.delayed y hmem).congr rfl rfl fun z hz ↦ ⟨(hsplit s.pass).mem_iff.mpr hz, rfl⟩
    · exact ((hsplit s.posted).map s.itemData).trans h.all

theorem step_inv (h : Inv published s xs (s.polls.flatMap (due published))) {e : Event}
    (he : step published s e = some s') :
    ∃ ys, Inv published s' ys (s'.polls.flatMap (due published)) := by
  cases e with
  | begin =>
      rw [step] at he
      split at he
      · rename_i hphase
        cases he
        obtain rfl := h.idle hphase
        refine ⟨[], h.lists, h.lt_fresh, ⟨s.posted, (List.append_nil _).symm⟩, fun _ ↦ rfl,
          fun _ ↦ rfl, .nil, ?_, ?_, h.all⟩
        · intro x hx
          cases hx
        · intro x hx
          cases hx
      · cases he
  | poll feedId document =>
      rw [step] at he
      split at he
      · rename_i hphase
        obtain ⟨tree, pubTime, itemData, fresh, ys, updates, heq, -, hinv⟩ :=
          poll_eq h hphase feedId document
        rw [heq] at he
        cases he
        exact ⟨ys, hinv.of_eq⟩
      · cases he
  | rebalance =>
      rw [step] at he
      split at he
      · obtain ⟨tree, heq, hinv⟩ := rebalance_eq h
        rw [heq] at he
        cases he
        exact ⟨xs, hinv⟩
      · cases he
  | post =>
      rw [step] at he
      split at he
      · rename_i hphase
        rcases post_eq h hphase with ⟨rfl, heq, hinv⟩ | ⟨x, hx, tree, heq, hinv⟩
        · rw [heq] at he
          cases he
          exact ⟨[], hinv⟩
        · rw [heq] at he
          cases he
          exact ⟨xs.erase x, hinv⟩
      · cases he
  | execute =>
      rw [step] at he
      split at he
      · cases he
      · cases he
        exact ⟨xs, h.of_eq⟩
  | reload =>
      rw [step] at he
      split at he
      · cases he
        exact ⟨xs, h.of_eq⟩
      · cases he

theorem Init.inv (h : Init s) : Inv published s [] (s.polls.flatMap (due published)) := by
  refine ⟨?_, ?_, ⟨[], ?_⟩, fun _ ↦ rfl, fun _ ↦ h.pass, ?_, ?_, ?_, ?_⟩
  · rw [h.tree]
    exact .empty _
  · rw [h.posted]
    intro x hx
    cases hx
  · rw [h.posted, h.pass, List.append_nil]
  · rw [h.pass]
    exact .nil
  · rw [h.pass]
    intro x hx
    cases hx
  · rw [h.pass]
    intro x hx
    cases hx
  · rw [h.posted, h.polls]
    exact .nil

theorem reachable_inv (h : (system published).Reachable s) :
    ∃ xs, Inv published s xs (s.polls.flatMap (due published)) :=
  h.invariant (I := fun s ↦ ∃ xs, Inv published s xs (s.polls.flatMap (due published)))
    (fun _ hinit ↦ ⟨[], hinit.inv⟩) fun _ _ _ ⟨_, hinv⟩ he ↦ step_inv hinv he

/-- The items in the tree are posted one after the other, until there are none. -/
theorem posts_end (h : Inv published s xs queued) (hphase : s.phase = .posting) :
    ∃ s', (system published).run s (List.replicate (xs.length + 1) .post) = some s' ∧
      s'.phase = .idle := by
  induction hn : xs.length generalizing s xs with
  | zero =>
      obtain rfl := List.eq_nil_of_length_eq_zero hn
      rcases post_eq h hphase with ⟨-, heq, -⟩ | ⟨x, hx, -⟩
      · refine ⟨{ s with phase := .idle }, ?_, rfl⟩
        change (step published s .post).bind _ = _
        rw [step, if_pos hphase, heq]
        rfl
      · cases hx
  | succ n ih =>
      rcases post_eq h hphase with ⟨rfl, -, -⟩ | ⟨x, hx, tree, heq, hinv⟩
      · cases hn
      · obtain ⟨s', hrun, hidle⟩ := ih hinv hphase (by rw [List.length_erase_of_mem hx, hn]; rfl)
        refine ⟨s', ?_, hidle⟩
        rw [List.replicate_succ, System.run_cons]
        change (step published s .post).bind _ = _
        rw [step, if_pos hphase, heq]
        exact hrun

theorem Inv.ordered (h : Inv published s xs queued) : Ordered published s := by
  refine ⟨h.sorted, fun x hx ↦ ?_⟩
  obtain ⟨t, ht, hle, hbusy⟩ := h.delayed x (List.mem_append_left _ hx)
  refine ⟨t, ht, hle, fun k hk hlt ↦ ?_⟩
  obtain ⟨y, hy, rfl⟩ := hbusy k hk hlt
  rcases List.mem_append.mp hy with hy | hy
  · exact ⟨y, hy, rfl⟩
  · exact absurd hlt (Int.lt_asymm (h.before x hx y hy))

/-- Where the times of publication differ, nothing is delayed: the first record that is would have
to give way to one of the same time. -/
theorem Ordered.punctual (h : Ordered published s)
    (hnodup : (s.pass.map fun x ↦ published (s.itemData x).1 (s.itemData x).2).Nodup) :
    ∀ x ∈ s.pass, published (s.itemData x).1 (s.itemData x).2 = some (s.pubTime x) := by
  have hnone : s.pass.find? (fun x ↦
      published (s.itemData x).1 (s.itemData x).2 ≠ some (s.pubTime x)) = none := by
    by_contra hsome
    obtain ⟨x, hfind⟩ := Option.ne_none_iff_exists'.mp hsome
    obtain ⟨hlate, before, after, hpass, hbefore⟩ := List.find?_eq_some_iff_append.mp hfind
    obtain ⟨t, ht, hle, hbusy⟩ := h.delayed x (List.mem_of_find?_eq_some hfind)
    have hlt : t < s.pubTime x := by
      refine Int.lt_iff_le_and_ne.mpr ⟨hle, fun heq ↦ ?_⟩
      rw [ht, heq] at hlate
      simp at hlate
    obtain ⟨y, hy, hyt⟩ := hbusy t (Int.le_refl _) hlt
    have hsorted := h.sorted
    rw [hpass] at hy hsorted hnodup
    have hybefore : y ∈ before := by
      rcases List.mem_append.mp hy with hy | hy
      · exact hy
      · have hge : s.pubTime x ≤ s.pubTime y := by
          rcases List.mem_cons.mp hy with rfl | hy
          · exact Int.le_refl _
          · exact Int.le_of_lt (List.rel_of_pairwise_cons (List.pairwise_append.mp hsorted).2.1 hy)
        omega
    have hyx : published (s.itemData y).1 (s.itemData y).2 =
        published (s.itemData x).1 (s.itemData x).2 := by
      have hearly := hbefore y hybefore
      rw [ht, ← hyt]
      simpa using hearly
    rw [List.map_append] at hnodup
    refine (List.nodup_append.mp hnodup).2.2 _ (List.mem_map_of_mem hybefore) _
      (List.mem_map_of_mem List.mem_cons_self) hyx
  intro x hx
  simpa using List.find?_eq_none.mp hnone x hx

end Queue

section Marks

variable {published : ℤ → RssItem → Option ℤ} {s s' : State}

/-- The steps after which no item is posted again: a document has no item twice, and its times fit
in the column. -/
def Careful (published : ℤ → RssItem → Option ℤ) (_ : State) : Event → Prop
  | .poll feedId document => document.Nodup ∧
      ∀ item ∈ document, ∀ t, published feedId item = some t → toInt t = t
  | _ => True

/-- The rows come to have the times of the last posts, no item so far is after the last post of its
feed, and none was due twice. -/
structure Marked (published : ℤ → RssItem → Option ℤ) (s : State) : Prop where
  rows : s.updates.foldl State.execute s.rows = s.lastPost
  le : ∀ p ∈ s.polls, ∀ item ∈ p.document, ∀ t, published p.feedId item = some t →
    t ≤ s.lastPost p.feedId
  nodup : (s.polls.flatMap (due published)).Nodup

theorem mem_due {p : Poll} {a : ℤ × RssItem} :
    a ∈ due published p ↔ a.1 = p.feedId ∧ a.2 ∈ p.document ∧
      ∃ t, published p.feedId a.2 = some t ∧ p.lastPost < t := by
  rw [due, List.mem_map]
  constructor
  · rintro ⟨item, hitem, rfl⟩
    obtain ⟨hmem, hany⟩ := List.mem_filter.mp hitem
    obtain ⟨t, ht, hlt⟩ := (Option.any_eq_true ..).mp hany
    exact ⟨rfl, hmem, t, ht, of_decide_eq_true hlt⟩
  · rintro ⟨hfeed, hmem, t, ht, hlt⟩
    refine ⟨a.2, List.mem_filter.mpr ⟨hmem, ?_⟩, Prod.ext hfeed.symm rfl⟩
    exact (Option.any_eq_true ..).mpr ⟨t, ht, decide_eq_true hlt⟩

theorem due_nodup {p : Poll} (h : p.document.Nodup) : (due published p).Nodup :=
  (h.filter _).map fun _ _ heq ↦ (Prod.mk.inj heq).2

/-- A poll raises the mark of its feed above the items it queues. -/
theorem Marked.poll (h : Marked published s) {feedId : ℤ} {document : List RssItem}
    (hdocument : document.Nodup)
    (htimes : ∀ item ∈ document, ∀ t, published feedId item = some t → toInt t = t)
    {updates : List (ℤ × ℤ)}
    (hupdates : updates = s.updates ∧
        newest published feedId (s.lastPost feedId) document = s.lastPost feedId ∨
      s.lastPost feedId < newest published feedId (s.lastPost feedId) document ∧
        updates = s.updates ++
          [(feedId, toInt (newest published feedId (s.lastPost feedId) document))])
    (hs : s'.updates = updates ∧ s'.rows = s.rows ∧
      s'.polls = s.polls ++ [⟨feedId, document, s.lastPost feedId⟩] ∧
      s'.lastPost = Function.update s.lastPost feedId
        (newest published feedId (s.lastPost feedId) document)) :
    Marked published s' := by
  obtain ⟨hs'updates, hrows, hpolls, hlastPost⟩ := hs
  have hle : s.lastPost feedId ≤ newest published feedId (s.lastPost feedId) document := le_newest ..
  have hkept : ∀ f, s.lastPost f ≤ s'.lastPost f := by
    intro f
    rw [hlastPost]
    by_cases hf : f = feedId
    · subst hf
      rwa [Function.update_self]
    · rw [Function.update_of_ne hf]
  constructor
  · rw [hs'updates, hrows, hlastPost]
    rcases hupdates with ⟨rfl, hsame⟩ | ⟨hlt, rfl⟩
    · rw [hsame, Function.update_eq_self]
      exact h.rows
    · have htime : toInt (newest published feedId (s.lastPost feedId) document) =
          newest published feedId (s.lastPost feedId) document := by
        rcases @newest_cases published feedId (s.lastPost feedId) document with
          hsame | ⟨item, hitem, ht⟩
        · exact absurd hsame (Int.ne_of_gt hlt)
        · exact htimes item hitem _ ht
      rw [List.foldl_append, h.rows, htime]
      rfl
  · intro p hp item hitem t ht
    rw [hpolls] at hp
    rcases List.mem_append.mp hp with hp | hp
    · exact (h.le p hp item hitem t ht).trans (hkept _)
    · obtain rfl := List.mem_singleton.mp hp
      rw [hlastPost, Function.update_self]
      exact published_le_newest hitem ht
  · rw [hpolls, List.flatMap_append, List.flatMap_singleton]
    refine List.nodup_append.mpr ⟨h.nodup, due_nodup hdocument, fun a ha b hb hab ↦ ?_⟩
    subst hab
    obtain ⟨p, hp, hap⟩ := List.mem_flatMap.mp ha
    obtain ⟨hfeed, hmem, t, ht, -⟩ := mem_due.mp hap
    obtain ⟨hfeed', -, t', ht', hlt⟩ := mem_due.mp hb
    have hpfeed : p.feedId = feedId := hfeed.symm.trans hfeed'
    have hold := h.le p hp a.2 hmem t ht
    rw [hpfeed] at ht hold
    obtain rfl := Option.some.inj (ht.symm.trans ht')
    exact absurd hlt (Int.not_lt.mpr hold)

theorem step_marked {xs : List ℕ} (hinv : Inv published s xs (s.polls.flatMap (due published)))
    (h : Marked published s) {e : Event} (hc : Careful published s e)
    (he : step published s e = some s') : Marked published s' := by
  cases e with
  | begin =>
      rw [step] at he
      split at he
      · cases he
        exact ⟨h.rows, h.le, h.nodup⟩
      · cases he
  | poll feedId document =>
      rw [step] at he
      split at he
      · rename_i hphase
        obtain ⟨tree, pubTime, itemData, fresh, ys, updates, heq, hupdates, -⟩ :=
          poll_eq hinv hphase feedId document
        rw [heq] at he
        cases he
        exact h.poll hc.1 hc.2 hupdates ⟨rfl, rfl, rfl, rfl⟩
      · cases he
  | rebalance =>
      rw [step] at he
      split at he
      · obtain ⟨tree, heq, -⟩ := rebalance_eq hinv
        rw [heq] at he
        cases he
        exact ⟨h.rows, h.le, h.nodup⟩
      · cases he
  | post =>
      rw [step] at he
      split at he
      · rename_i hphase
        rcases post_eq hinv hphase with ⟨-, heq, -⟩ | ⟨x, hx, tree, heq, -⟩ <;>
        · rw [heq] at he
          cases he
          exact ⟨h.rows, h.le, h.nodup⟩
      · cases he
  | execute =>
      rw [step] at he
      cases hupdates : s.updates with
      | nil =>
          rw [hupdates] at he
          cases he
      | cons update updates =>
          rw [hupdates] at he
          cases he
          have hrows := h.rows
          rw [hupdates] at hrows
          exact ⟨hrows, h.le, h.nodup⟩
  | reload =>
      rw [step] at he
      split at he
      · cases he
        -- the rows are what was there before
        refine ⟨rfl, ?_, h.nodup⟩
        change ∀ p ∈ s.polls, ∀ item ∈ p.document, ∀ t, published p.feedId item = some t →
          t ≤ s.updates.foldl State.execute s.rows p.feedId
        rw [h.rows]
        exact h.le
      · cases he

theorem Init.marked (h : Init s) : Marked published s := by
  constructor
  · rw [h.updates, h.lastPost]
    rfl
  · rw [h.polls]
    intro p hp
    cases hp
  · rw [h.polls]
    exact .nil

end Marks

/-- Of two items the one with a link is the later one. -/
def linkedLater (_ : ℤ) (item : RssItem) : Option ℤ := if item.link.isSome then some 20 else some 10

/-- A feed without posts. -/
def start : State where
  tree := .empty
  pubTime := fun _ ↦ 0
  itemData := fun _ ↦ (0, ⟨none, none, ""⟩)
  fresh := 0
  lastPost := fun _ ↦ 0
  rows := fun _ ↦ 0
  updates := []
  phase := .idle
  polls := []
  posted := []
  pass := []

theorem init_start : Init start := ⟨rfl, rfl, rfl, rfl, rfl, rfl, rfl⟩

/-- A document with two items, the later one first. -/
def document : List RssItem := [⟨none, some "", ""⟩, ⟨none, none, ""⟩]

theorem careful_document (s : State) : Careful linkedLater s (.poll 1 document) := by
  refine ⟨by decide, fun item hitem t ht ↦ ?_⟩
  rcases List.mem_cons.mp hitem with rfl | hitem
  · cases ht
    rfl
  · rw [List.mem_singleton.mp hitem] at ht
    cases ht
    rfl

end Beirdobot.Rssfeed.Posts
