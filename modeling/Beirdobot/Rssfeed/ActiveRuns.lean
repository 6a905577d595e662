import Beirdobot.Rssfeed.Active

/-!
# Runs with the feeds that are to be polled

What each step keeps of the active tree, and from it what every run does whose steps are orderly.
-/

namespace Beirdobot.Rssfeed.Active

open Library ActiveTree

variable {σ γ : Type}

/-! ## The steps -/

/-- What holds between the steps. -/
structure Inv (s : State σ γ) : Prop where
  items : ∃ l, Timed s.pass.tree s.pass.nextpoll l ∧
    (l.map TimeItem.record).Perm (enabledFeeds s) ∧
      ∀ item, s.pass.phase = .looping item → item ∈ l
  nodup : s.rssfeedTree.Nodup
  lt_fresh : ∀ x ∈ s.rssfeedTree, x < s.fresh
  /-- A feed that is being entered is not enabled. -/
  entered : ∀ x ∈ s.rssfeedTree, (s.feeds x).feedId = -1 → (s.feeds x).enabled = false

/-- There is no pass in a reload, and the rows have numbers. -/
structure Reloading (s : State σ γ) : Prop where
  phase : s.reload.isSome = true → ∀ item, s.pass.phase ≠ .looping item
  rows : ∀ rows nextpoll, s.reload = some (.loading rows nextpoll) → ∀ row ∈ rows, 0 < row.feedId

section Steps

variable {s s' : State σ γ} {x : ℕ}

theorem Inv.scheduled (h : Inv s) : Scheduled s := by
  obtain ⟨l, hl, hp, -⟩ := h.items
  exact ⟨l, hl, hp⟩

theorem length_le_fuel : (enabledFeeds s).length + 3 ≤ s.fuel := by
  have hlength := length_enabledFeeds (s := s)
  rw [State.fuel]
  omega

/-- A state between passes, in which the tree has the items it is to have. -/
theorem Inv.of_scheduled (h : Scheduled s) (hphase : ∀ item, s.pass.phase ≠ .looping item)
    (hnodup : s.rssfeedTree.Nodup) (hlt : ∀ x ∈ s.rssfeedTree, x < s.fresh)
    (hentered : ∀ x ∈ s.rssfeedTree, (s.feeds x).feedId = -1 → (s.feeds x).enabled = false) :
    Inv s := by
  obtain ⟨l, hl, hp⟩ := h
  exact ⟨⟨l, hl, hp, fun item hitem ↦ absurd hitem (hphase item)⟩, hnodup, hlt, hentered⟩

/-- A feed gets other values, and the tree follows. -/
theorem Inv.setFeed (h : Inv s) (hphase : ∀ item, s.pass.phase ≠ .looping item) {feed : Feed σ γ}
    (hnew : feed.feedId = -1 → feed.enabled = false) {tree : ActiveTree} {nextpoll : ℕ → ℤ}
    {fresh : ℕ} (hfresh : s.fresh ≤ fresh)
    (hlists : Lists tree nextpoll (enabledFeeds (s.setFeed x feed))) :
    Inv { s.setFeed x feed with pass := { s.pass with tree, nextpoll }, fresh } := by
  refine .of_scheduled hlists hphase h.nodup
    (fun y hy ↦ Nat.lt_of_lt_of_le (h.lt_fresh y hy) hfresh) fun y hy ↦ ?_
  change (Function.update s.feeds x feed y).feedId = -1 →
    (Function.update s.feeds x feed y).enabled = false
  by_cases heq : y = x
  · subst heq
    rw [Function.update_self]
    exact hnew
  · rw [Function.update_of_ne heq]
    exact h.entered y hy

/-- A feed stays enabled, or not enabled. -/
theorem Inv.same (h : Inv s) (hphase : ∀ item, s.pass.phase ≠ .looping item) {feed : Feed σ γ}
    (hnew : feed.feedId = -1 → feed.enabled = false)
    (hsame : feed.enabled = (s.feeds x).enabled) : Inv (s.setFeed x feed) := by
  refine h.setFeed hphase hnew (Nat.le_refl _) ?_
  rw [enabledFeeds_setFeed_same hsame]
  exact h.scheduled

/-- A feed is enabled, and gets an item. -/
theorem Inv.activate (h : Inv s) (hphase : ∀ item, s.pass.phase ≠ .looping item)
    {feed : Feed σ γ} (hx : x ∈ s.rssfeedTree) (hnew : feed.feedId = -1 → feed.enabled = false)
    (hold : (s.feeds x).enabled = false) (hon : feed.enabled = true) {key : ℤ} {rebalance : Bool}
    (he : (s.setFeed x feed).activate x key rebalance = some s') :
    Inv s' ∧ s'.pass.phase = s.pass.phase ∧ s'.reload = s.reload := by
  have hfuel := length_le_fuel (s := s)
  have hnot : x ∉ enabledFeeds s := by
    intro hmem
    rw [mem_enabledFeeds, hold] at hmem
    cases hmem.2
  have hlists : Lists (s.setFeed x feed).pass.tree (s.setFeed x feed).pass.nextpoll
      (enabledFeeds s) := h.scheduled
  obtain ⟨tree, nextpoll, heq, hadded⟩ := activate_eq hlists hnot
    (show (enabledFeeds s).length + 2 ≤ s.fuel by omega) key rebalance
  rw [heq] at he
  cases he
  have hperm := enabledFeeds_setFeed_on h.nodup hx hold hon
  exact ⟨h.setFeed hphase hnew (Nat.le_succ _) (hadded.perm hperm.symm), rfl, rfl⟩

/-- A feed is disabled, and its item is removed. -/
theorem Inv.deactivate (h : Inv s) (hphase : ∀ item, s.pass.phase ≠ .looping item)
    {feed : Feed σ γ} (hx : x ∈ s.rssfeedTree) (hold : (s.feeds x).enabled = true)
    (hoff : feed.enabled = false) (he : (s.setFeed x feed).deactivate x = some s') :
    Inv s' ∧ s'.pass.phase = s.pass.phase ∧ s'.reload = s.reload := by
  have hfuel := length_le_fuel (s := s)
  have hmem : x ∈ enabledFeeds s := mem_enabledFeeds.mpr ⟨hx, hold⟩
  have hlists : Lists (s.setFeed x feed).pass.tree (s.setFeed x feed).pass.nextpoll
      (enabledFeeds s) := h.scheduled
  obtain ⟨tree, heq, hremoved⟩ := deactivate_eq hlists hmem
    (show (enabledFeeds s).length ≤ s.fuel by omega)
  rw [heq] at he
  cases he
  have hperm := enabledFeeds_setFeed_off h.nodup hx hold hoff
  exact ⟨h.setFeed hphase (fun _ ↦ hoff) (Nat.le_refl _) (hremoved.perm hperm), rfl, rfl⟩

/-- A row of a feed that is there. -/
theorem Inv.loadFound (h : Inv s) (hphase : ∀ item, s.pass.phase ≠ .looping item)
    (hx : x ∈ s.rssfeedTree) {row : Row} (hid : (s.feeds x).feedId ≠ -1)
    {nextpoll nextpoll' : ℤ} (he : s.loadFound x row nextpoll = some (s', nextpoll')) :
    Inv s' ∧ s'.pass.phase = s.pass.phase ∧ s'.reload = s.reload := by
  rw [State.loadFound] at he
  have hfeedId : ({ State.setFields (s.feeds x) row.toFields with visited := true } :
      Feed σ γ).feedId ≠ -1 := hid
  have henabled : ({ State.setFields (s.feeds x) row.toFields with visited := true } :
      Feed σ γ).enabled = row.enabled := rfl
  generalize ({ State.setFields (s.feeds x) row.toFields with visited := true } : Feed σ γ) = feed
    at he hfeedId henabled
  have hnew : feed.feedId = -1 → feed.enabled = false := fun hnew ↦ absurd hnew hfeedId
  by_cases hold : (s.feeds x).enabled = true
  · rw [if_pos hold] at he
    by_cases hrow : row.enabled = true
    · rw [if_pos hrow] at he
      cases he
      exact ⟨h.same hphase hnew ((henabled.trans hrow).trans hold.symm), rfl, rfl⟩
    · rw [if_neg hrow] at he
      obtain ⟨s'', he', he⟩ := Option.bind_eq_some_iff.mp he
      cases he
      exact h.deactivate hphase hx hold (henabled.trans (Bool.eq_false_iff.mpr hrow)) he'
  · rw [if_neg hold] at he
    by_cases hrow : row.enabled = true
    · rw [if_pos hrow] at he
      obtain ⟨s'', he', he⟩ := Option.bind_eq_some_iff.mp he
      cases he
      exact h.activate hphase hx hnew (Bool.eq_false_iff.mpr hold) (henabled.trans hrow) he'
    · rw [if_neg hrow] at he
      cases he
      have hoff := henabled.trans (Bool.eq_false_iff.mpr hrow)
      exact ⟨h.same hphase hnew (hoff.trans (Bool.eq_false_iff.mpr hold).symm), rfl, rfl⟩

/-- A feed that is new has no item yet. -/
theorem Inv.newFeed (h : Inv s) (feed : Feed σ γ) (time : ℤ) :
    Lists s.pass.tree (s.newFeed feed time).pass.nextpoll (enabledFeeds s) ∧
      (enabledFeeds (s.newFeed feed time)).Perm
        (if feed.enabled then s.fresh :: enabledFeeds s else enabledFeeds s) ∧
      s.fresh ∉ enabledFeeds s := by
  have hnotMem : s.fresh ∉ s.rssfeedTree := fun hmem ↦ Nat.lt_irrefl _ (h.lt_fresh _ hmem)
  have hnot : s.fresh ∉ enabledFeeds s := fun hmem ↦ hnotMem (mem_enabledFeeds.mp hmem).1
  refine ⟨h.scheduled.update hnot time, ?_, hnot⟩
  have hold : s.rssfeedTree.filter (fun y ↦ (Function.update s.feeds s.fresh feed y).enabled) =
      enabledFeeds s := by
    apply List.filter_congr
    intro y hy
    rw [Function.update_of_ne]
    rintro rfl
    exact hnotMem hy
  have hperm := enabledFeeds_addFeed (State.setFeed { s with
    pass := { s.pass with nextpoll := Function.update s.pass.nextpoll s.fresh time }
    fresh := s.fresh + 1 } s.fresh feed) s.fresh
  change (enabledFeeds (s.newFeed feed time)).Perm
    (if (Function.update s.feeds s.fresh feed s.fresh).enabled then
      s.fresh :: s.rssfeedTree.filter (fun y ↦ (Function.update s.feeds s.fresh feed y).enabled)
    else s.rssfeedTree.filter fun y ↦ (Function.update s.feeds s.fresh feed y).enabled) at hperm
  rwa [hold, Function.update_self] at hperm

/-- What is left to be shown of a state after a feed is new: that the tree follows. -/
theorem Inv.of_newFeed (h : Inv s) (hphase : ∀ item, s.pass.phase ≠ .looping item)
    (feed : Feed σ γ) (time : ℤ) (hnew : feed.feedId = -1 → feed.enabled = false)
    {tree : ActiveTree} {nextpoll : ℕ → ℤ} {fresh : ℕ} (hfresh : s.fresh + 1 ≤ fresh)
    (hlists : Lists tree nextpoll (enabledFeeds (s.newFeed feed time))) :
    Inv { s.newFeed feed time with
      pass := { (s.newFeed feed time).pass with tree, nextpoll }
      fresh } := by
  have hnotMem : s.fresh ∉ s.rssfeedTree := fun hmem ↦ Nat.lt_irrefl _ (h.lt_fresh _ hmem)
  have hperm : (s.newFeed feed time).rssfeedTree.Perm (s.fresh :: s.rssfeedTree) := addFeed_perm ..
  refine .of_scheduled hlists hphase ?_ ?_ ?_
  · exact hperm.nodup_iff.mpr (List.nodup_cons.mpr ⟨hnotMem, h.nodup⟩)
  · intro y hy
    rcases List.mem_cons.mp (hperm.mem_iff.mp hy) with rfl | hy
    · exact hfresh
    · exact Nat.lt_of_lt_of_le (h.lt_fresh y hy) (Nat.le_of_succ_le hfresh)
  · intro y hy
    change (Function.update s.feeds s.fresh feed y).feedId = -1 →
      (Function.update s.feeds s.fresh feed y).enabled = false
    rcases List.mem_cons.mp (hperm.mem_iff.mp hy) with rfl | hy
    · rw [Function.update_self]
      exact hnew
    · rw [Function.update_of_ne]
      · exact h.entered y hy
      · rintro rfl
        exact hnotMem hy

/-- A row of a new feed. -/
theorem Inv.loadNew (h : Inv s) (hphase : ∀ item, s.pass.phase ≠ .looping item) {row : Row}
    (hpos : 0 < row.feedId) {nextpoll nextpoll' : ℤ}
    (he : s.loadNew row nextpoll = some (s', nextpoll')) :
    Inv s' ∧ s'.pass.phase = s.pass.phase ∧ s'.reload = s.reload := by
  rw [State.loadNew] at he
  have hnew : row.feedId = -1 → row.enabled = false := fun hid ↦ by omega
  have hfeed := hnew
  change (⟨⟨row.serverId, row.chanId, none, none, row.timeout⟩, row.feedId, row.enabled, true⟩ :
    Feed σ γ).feedId = -1 → row.enabled = false at hfeed
  generalize hf : (⟨⟨row.serverId, row.chanId, none, none, row.timeout⟩, row.feedId, row.enabled,
    true⟩ : Feed σ γ) = feed at he hfeed
  have henabled : feed.enabled = row.enabled := by rw [← hf]
  obtain ⟨hlists, hperm, hnot⟩ := h.newFeed feed nextpoll
  rw [← henabled] at he hfeed
  by_cases hrow : feed.enabled = true
  · rw [if_pos hrow] at he hperm
    obtain ⟨s'', he', he⟩ := Option.bind_eq_some_iff.mp he
    cases he
    have hfuel : (enabledFeeds s).length + 2 ≤ (s.newFeed feed nextpoll).fuel := by
      have hlength := length_le_fuel (s := s.newFeed feed nextpoll)
      have hcons := hperm.length_eq
      rw [List.length_cons] at hcons
      omega
    obtain ⟨tree, times, heq, hadded⟩ := activate_eq (s := s.newFeed feed nextpoll) hlists hnot hfuel
      nextpoll false
    rw [heq] at he'
    cases he'
    exact ⟨h.of_newFeed hphase feed nextpoll hfeed (Nat.le_succ _) (hadded.perm hperm.symm), rfl,
      rfl⟩
  · rw [if_neg hrow] at he hperm
    cases he
    exact ⟨h.of_newFeed hphase feed nextpoll hfeed (Nat.le_refl _) (hlists.perm hperm.symm), rfl,
      rfl⟩

theorem Inv.loadRow (h : Inv s) (hphase : ∀ item, s.pass.phase ≠ .looping item) {row : Row}
    (hpos : 0 < row.feedId) {nextpoll nextpoll' : ℤ}
    (he : s.loadRow row nextpoll = some (s', nextpoll')) :
    Inv s' ∧ s'.pass.phase = s.pass.phase ∧ s'.reload = s.reload := by
  rw [State.loadRow] at he
  cases hfind : s.findFeed row.feedId with
  | none =>
      rw [hfind] at he
      exact h.loadNew hphase hpos he
  | some x =>
      rw [hfind] at he
      obtain ⟨hx, hid⟩ := findFeed_some hfind
      exact h.loadFound hphase hx (by omega) he

/-- A feed is taken out of `rssfeedTree`, with its item if it has one. -/
theorem Inv.erase (h : Inv s) (hphase : ∀ item, s.pass.phase ≠ .looping item) {tree : ActiveTree}
    (hlists : Lists tree s.pass.nextpoll ((enabledFeeds s).erase x)) :
    Inv { s with pass := { s.pass with tree }, rssfeedTree := s.rssfeedTree.erase x } := by
  refine .of_scheduled ?_ hphase (h.nodup.erase x)
    (fun y hy ↦ h.lt_fresh y (List.mem_of_mem_erase hy))
    fun y hy ↦ h.entered y (List.mem_of_mem_erase hy)
  have heq : (s.rssfeedTree.erase x).filter (fun y ↦ (s.feeds y).enabled) =
      (enabledFeeds s).erase x := by
    rw [enabledFeeds, h.nodup.erase_eq_filter, (h.nodup.filter _).erase_eq_filter,
      List.filter_filter, List.filter_filter]
    apply List.filter_congr
    intro y _
    apply Bool.and_comm
  change Lists tree s.pass.nextpoll ((s.rssfeedTree.erase x).filter fun y ↦ (s.feeds y).enabled)
  rwa [heq]

/-- A feed that is not enabled has no item. -/
theorem Inv.erase_disabled (h : Inv s) (hphase : ∀ item, s.pass.phase ≠ .looping item)
    (hoff : (s.feeds x).enabled = false) :
    Inv { s with rssfeedTree := s.rssfeedTree.erase x } := by
  apply h.erase hphase
  rw [List.erase_of_not_mem]
  · exact h.scheduled
  · intro hmem
    rw [mem_enabledFeeds, hoff] at hmem
    cases hmem.2

theorem Inv.flushUnvisited (h : Inv s) (hphase : ∀ item, s.pass.phase ≠ .looping item)
    (hc : ∀ x, s.unvisited = some x → (s.feeds x).enabled = false →
      ∀ y ∈ enabledFeeds s, s.pass.nextpoll y ≠ s.pass.nextpoll x)
    (he : s.flushUnvisited = some s') :
    Inv s' ∧ s'.pass.phase = s.pass.phase ∧ (s'.reload = s.reload ∨ s'.reload = none) := by
  have hfuel := length_le_fuel (s := s)
  rw [State.flushUnvisited] at he
  cases hfind : s.unvisited with
  | none =>
      simp only [hfind] at he
      obtain ⟨tree, heq, hlists⟩ := rebalance_eq h.scheduled
        (show (enabledFeeds s).length + 1 ≤ s.fuel by omega)
      rw [heq] at he
      cases he
      exact ⟨.of_scheduled hlists hphase h.nodup h.lt_fresh h.entered, rfl, .inr rfl⟩
  | some x =>
      simp only [hfind] at he
      have hx : x ∈ s.rssfeedTree := List.mem_of_find?_eq_some hfind
      have hlists : Lists (State.pass { s with rssfeedTree := s.rssfeedTree.erase x }).tree
          (State.pass { s with rssfeedTree := s.rssfeedTree.erase x }).nextpoll
          (enabledFeeds s) := h.scheduled
      -- the depth of the tree is bounded by the feeds before the flush
      have hle : (enabledFeeds s).length ≤
          State.fuel { s with rssfeedTree := s.rssfeedTree.erase x } := by
        have hlength := length_enabledFeeds (s := s)
        change _ ≤ (s.rssfeedTree.erase x).length + 3
        rw [List.length_erase_of_mem hx]
        omega
      by_cases hon : (s.feeds x).enabled = true
      · obtain ⟨tree, heq, hremoved⟩ := deactivate_eq hlists (mem_enabledFeeds.mpr ⟨hx, hon⟩) hle
        rw [heq] at he
        cases he
        exact ⟨h.erase hphase hremoved, rfl, .inl rfl⟩
      · have hoff := Bool.eq_false_iff.mpr hon
        rw [deactivate_none hlists (hc x hfind hoff) hle] at he
        cases he
        exact ⟨h.erase_disabled hphase hoff, rfl, .inl rfl⟩

/-- `rssfeed enable` -/
theorem Inv.enable (h : Inv s) (hphase : ∀ item, s.pass.phase ≠ .looping item) {feedNum now : ℤ}
    (he : s.enable feedNum now = some s') :
    Inv s' ∧ s'.pass.phase = s.pass.phase ∧ s'.reload = s.reload := by
  rw [State.enable] at he
  cases hfind : s.findFeed feedNum with
  | none =>
      rw [hfind] at he
      cases he
      exact ⟨h, rfl, rfl⟩
  | some x =>
      simp only [hfind] at he
      obtain ⟨hx, hid⟩ := findFeed_some hfind
      by_cases hnew : feedNum = -1
      · rw [if_pos hnew] at he
        cases he
      · rw [if_neg hnew] at he
        by_cases hon : (s.feeds x).enabled = true
        · rw [if_pos hon] at he
          cases he
          exact ⟨h, rfl, rfl⟩
        · rw [if_neg hon] at he
          refine h.activate hphase hx (fun hid' ↦ ?_) (Bool.eq_false_iff.mpr hon) rfl he
          exact absurd (hid.symm.trans hid') hnew

/-- `rssfeed disable` -/
theorem Inv.disable (h : Inv s) (hphase : ∀ item, s.pass.phase ≠ .looping item) {feedNum : ℤ}
    (he : s.disable feedNum = some s') :
    Inv s' ∧ s'.pass.phase = s.pass.phase ∧ s'.reload = s.reload := by
  have hfuel := length_le_fuel (s := s)
  rw [State.disable] at he
  cases hfind : s.findFeed feedNum with
  | none =>
      rw [hfind] at he
      cases he
      exact ⟨h, rfl, rfl⟩
  | some x =>
      simp only [hfind] at he
      obtain ⟨hx, hid⟩ := findFeed_some hfind
      by_cases hnew : feedNum = -1
      · rw [if_pos hnew] at he
        cases he
      · rw [if_neg hnew] at he
        by_cases hon : (s.feeds x).enabled = true
        · rw [if_pos hon] at he
          obtain ⟨item, tree, hitem, htree, hlists⟩ := h.scheduled.remove
            (mem_enabledFeeds.mpr ⟨hx, hon⟩) true (show (enabledFeeds s).length ≤ s.fuel by omega)
          change ((s.pass.tree.find s.fuel s.pass.nextpoll (s.pass.nextpoll x)).bind fun item ↦
            (s.pass.tree.remove s.fuel s.pass.nextpoll item true).bind fun tree ↦ _) = _ at he
          rw [hitem, Option.bind_some, htree] at he
          cases he
          have hperm := enabledFeeds_setFeed_off h.nodup hx hon
            (show ({ s.feeds x with enabled := false } : Feed σ γ).enabled = false from rfl)
          exact ⟨h.setFeed hphase (fun _ ↦ rfl) (Nat.le_refl _) (hlists.perm hperm), rfl, rfl⟩
        · rw [if_neg hon] at he
          cases he
          exact ⟨h, rfl, rfl⟩

/-- The search for a feed that is ready leaves the tree as it is. -/
theorem Inv.search (h : Inv s) (d : Poll.Directory σ γ) (now : ℤ) {pass : Poll.State}
    (he : Poll.State.search s.fuel d (fun x ↦ (s.feeds x).toRssFeed)
      { s.pass with began := now, clock := now, polled := [] } now = some pass) :
    Inv { s with pass } := by
  have hfuel := length_le_fuel (s := s)
  obtain ⟨l, hl, hp, -⟩ := h.items
  have hlength : l.length ≤ s.fuel := by
    rw [← List.length_map, hp.length_eq]
    omega
  obtain ⟨r, hr, -, hsome⟩ := hl.findLeastCond
    (fun x ↦ Poll.rssfeedIsReady d (s.feeds x).toRssFeed) hlength
  suffices hpass : pass.tree = s.pass.tree ∧ pass.nextpoll = s.pass.nextpoll ∧
      ∀ item, pass.phase = .looping item → item ∈ l by
    obtain ⟨htree, hnextpoll, hitem⟩ := hpass
    refine ⟨⟨l, ?_, hp, hitem⟩, h.nodup, h.lt_fresh, h.entered⟩
    change Timed pass.tree pass.nextpoll l
    rwa [htree, hnextpoll]
  rw [Poll.State.search, hr] at he
  cases r with
  | none =>
      cases he
      exact ⟨rfl, rfl, fun item hitem ↦ by cases hitem⟩
  | some item =>
      simp only [Option.bind_eq_bind, Option.bind_some] at he
      by_cases hd : d.channelsLoaded = false
      · rw [if_pos hd] at he
        cases he
        exact ⟨rfl, rfl, fun item hitem ↦ by cases hitem⟩
      · rw [if_neg hd] at he
        by_cases hlate : s.pass.nextpoll item.record > now + 15
        · rw [if_pos hlate] at he
          cases he
          exact ⟨rfl, rfl, fun item hitem ↦ by cases hitem⟩
        · rw [if_neg hlate] at he
          cases he
          refine ⟨rfl, rfl, fun item' hitem ↦ ?_⟩
          cases hitem
          exact (hsome item rfl).1

/-- The pass ends, and the tree is balanced. -/
theorem Inv.rebalance (h : Inv s) (hphase : ∀ item, s.pass.phase ≠ .looping item)
    (he : s.rebalance = some s') : Inv s' ∧ s'.reload = s.reload := by
  have hfuel := length_le_fuel (s := s)
  obtain ⟨tree, heq, hlists⟩ := rebalance_eq h.scheduled
    (show (enabledFeeds s).length + 1 ≤ s.fuel by omega)
  rw [heq] at he
  cases he
  exact ⟨.of_scheduled hlists hphase h.nodup h.lt_fresh h.entered, rfl⟩

/-- What a turn leaves in the tree: the items that were there. -/
theorem turn_eq (d : Poll.Directory σ γ) (now : ℤ) {l : List TimeItem} {item : TimeItem}
    {pass : Poll.State} (hl : Timed s.pass.tree s.pass.nextpoll l) (hitem : item ∈ l)
    (hf : l.length + 2 ≤ s.fuel)
    (hc : Poll.channelJoined d (s.feeds item.record).toRssFeed = false →
      s.pass.nextpoll item.record ≤ now + 15 →
        ∀ i ∈ l, i.record ≠ item.record → now + 60 ≠ s.pass.nextpoll i.record ∧
          (s.pass.nextpoll i.record < s.pass.nextpoll item.record ↔
            s.pass.nextpoll i.record < now + 60))
    (he : Poll.State.turn s.fuel d (fun x ↦ (s.feeds x).toRssFeed) s.pass item now = some pass) :
    Timed pass.tree pass.nextpoll l ∧ ∀ item', pass.phase = .looping item' → item' ∈ l := by
  rw [Poll.State.turn] at he
  by_cases hlate : s.pass.nextpoll item.record > now + 15
  · rw [if_pos hlate] at he
    cases he
    exact ⟨hl, fun item' hitem' ↦ by cases hitem'⟩
  · rw [if_neg hlate] at he
    by_cases hjoined : Poll.channelJoined d (s.feeds item.record).toRssFeed = false
    · rw [if_pos hjoined] at he
      have hset := hl.set_time (hc hjoined (Int.not_lt.mp hlate))
      obtain ⟨item', hnext, hfirst⟩ := Poll.next_eq d (fun x ↦ (s.feeds x).toRssFeed)
        { s.pass with nextpoll := Function.update s.pass.nextpoll item.record (now + 60) } hset
        (List.ne_nil_of_mem hitem) (show l.length ≤ s.fuel by omega)
      rw [hnext] at he
      cases he
      refine ⟨hset, fun i hi ↦ ?_⟩
      cases hi
      exact hfirst.1
    · rw [if_neg hjoined] at he
      obtain ⟨tree, time, item', hpoll, htimed, hfirst⟩ :=
        Poll.poll_eq d (fun x ↦ (s.feeds x).toRssFeed) s.pass now hl hitem hf
      rw [hpoll] at he
      cases he
      refine ⟨htimed, fun i hi ↦ ?_⟩
      cases hi
      exact hfirst.1

theorem Inv.turn (h : Inv s) (d : Poll.Directory σ γ) (now : ℤ) {item : TimeItem}
    (hphase : s.pass.phase = .looping item) {pass : Poll.State}
    (hc : Poll.channelJoined d (s.feeds item.record).toRssFeed = false →
      s.pass.nextpoll item.record ≤ now + 15 →
        ∀ y ∈ enabledFeeds s, y ≠ item.record → now + 60 ≠ s.pass.nextpoll y ∧
          (s.pass.nextpoll y < s.pass.nextpoll item.record ↔ s.pass.nextpoll y < now + 60))
    (he : Poll.State.turn s.fuel d (fun x ↦ (s.feeds x).toRssFeed) s.pass item now = some pass) :
    Inv { s with pass } := by
  have hfuel := length_le_fuel (s := s)
  obtain ⟨l, hl, hp, hlooping⟩ := h.items
  have hlength : l.length = (enabledFeeds s).length := by rw [← List.length_map, hp.length_eq]
  obtain ⟨htimed, hitem⟩ := turn_eq d now hl (hlooping item hphase)
    (show l.length + 2 ≤ s.fuel by omega)
    (fun hjoined hdue i hi hne ↦
      hc hjoined hdue i.record (hp.mem_iff.mp (List.mem_map_of_mem hi)) hne) he
  exact ⟨⟨l, htimed, hp, hitem⟩, h.nodup, h.lt_fresh, h.entered⟩

/-- A form is saved and leaves `enabled` as it is; this can be in a pass. -/
theorem Inv.save (h : Inv s) {fields : Fields} (hid : (s.feeds x).feedId ≠ -1)
    (hsame : fields.enabled = (s.feeds x).enabled) :
    Inv (s.setFeed x (State.setFields (s.feeds x) fields)) := by
  have heq : enabledFeeds (s.setFeed x (State.setFields (s.feeds x) fields)) = enabledFeeds s :=
    enabledFeeds_setFeed_same hsame
  refine ⟨?_, h.nodup, h.lt_fresh, fun y hy ↦ ?_⟩
  · rw [heq]
    exact h.items
  · change (Function.update s.feeds x _ y).feedId = -1 → (Function.update s.feeds x _ y).enabled = _
    by_cases hyx : y = x
    · subst hyx
      rw [Function.update_self]
      exact fun hnew ↦ absurd hnew hid
    · rw [Function.update_of_ne hyx]
      exact h.entered y hy

/-- `cursesRssfeedNew` -/
theorem Inv.new (h : Inv s) (hphase : ∀ item, s.pass.phase ≠ .looping item) :
    Inv s.cursesRssfeedNew := by
  obtain ⟨hlists, hperm, -⟩ := h.newFeed ⟨⟨0, 0, none, none, 0⟩, -1, false, false⟩ 0
  exact h.of_newFeed hphase _ 0 (fun _ ↦ rfl) (Nat.le_refl _) (hlists.perm hperm.symm)

/-- The form of a new feed is saved. -/
theorem Inv.insert (h : Inv s) (hphase : ∀ item, s.pass.phase ≠ .looping item)
    (hx : x ∈ s.rssfeedTree) (hid : (s.feeds x).feedId = -1) {id : ℤ} {fields : Fields}
    (hoff : fields.enabled = false) : Inv (s.insertFeed x id fields) := by
  have herase := h.erase_disabled hphase (h.entered x hx hid)
  -- the feed is not in the tree while it gets its number
  have hnot : x ∉ s.rssfeedTree.erase x := h.nodup.not_mem_erase
  have hperm : (s.insertFeed x id fields).rssfeedTree.Perm (x :: s.rssfeedTree.erase x) :=
    addFeed_perm ..
  have hfeed : ∀ y, y ∈ s.rssfeedTree.erase x →
      (s.insertFeed x id fields).feeds y = s.feeds y := by
    intro y hy
    apply Function.update_of_ne
    rintro rfl
    exact hnot hy
  have hself : (s.insertFeed x id fields).feeds x =
      { State.setFields (s.feeds x) fields with feedId := id } := Function.update_self ..
  refine .of_scheduled ?_ hphase ?_ ?_ ?_
  · have hfilter := hperm.filter fun y ↦ ((s.insertFeed x id fields).feeds y).enabled
    rw [List.filter_cons_of_neg (by rw [hself]; exact Bool.eq_false_iff.mp hoff)] at hfilter
    have heq : (s.rssfeedTree.erase x).filter
        (fun y ↦ ((s.insertFeed x id fields).feeds y).enabled) =
        enabledFeeds { s with rssfeedTree := s.rssfeedTree.erase x } := by
      apply List.filter_congr
      intro y hy
      rw [hfeed y hy]
    rw [heq] at hfilter
    exact herase.scheduled.perm hfilter.symm
  · exact hperm.nodup_iff.mpr (List.nodup_cons.mpr ⟨hnot, h.nodup.erase x⟩)
  · intro y hy
    rcases List.mem_cons.mp (hperm.mem_iff.mp hy) with rfl | hy
    · exact h.lt_fresh y hx
    · exact h.lt_fresh y (List.mem_of_mem_erase hy)
  · intro y hy
    rcases List.mem_cons.mp (hperm.mem_iff.mp hy) with rfl | hy
    · rw [hself]
      exact fun _ ↦ hoff
    · rw [hfeed y hy]
      exact h.entered y (List.mem_of_mem_erase hy)

/-- `rssfeedUnvisitTree` -/
theorem Inv.unvisit (h : Inv s) : Inv s.unvisit := ⟨h.items, h.nodup, h.lt_fresh, h.entered⟩

theorem State.Idle.phase (h : s.Idle) : ∀ item, s.pass.phase ≠ .looping item := h.2

theorem State.Idle.reload (h : s.Idle) : s.reload = none := Option.isNone_iff_eq_none.mp h.1

/-- A state between operations. -/
theorem Reloading.of_none (h : s.reload = none) : Reloading s := by
  constructor
  · intro hsome
    rw [h] at hsome
    cases hsome
  · intro rows nextpoll hrows
    rw [h] at hrows
    cases hrows

/-- A command keeps what holds between operations. -/
theorem of_idle (hidle : s.Idle)
    (h : Inv s' ∧ s'.pass.phase = s.pass.phase ∧ s'.reload = s.reload) : Inv s' ∧ Reloading s' :=
  ⟨h.1, .of_none (h.2.2.trans hidle.reload)⟩

/-- The pass goes on with another item, or ends. -/
theorem step_turn (h : Inv s) (d : Poll.Directory σ γ) (now : ℤ)
    (hreload : s.reload.isSome = true → ∀ item, s.pass.phase ≠ .looping item)
    (hc : Orderly s (.turn d now)) (he : step s (.turn d now) = some s') :
    Inv s' ∧ Reloading s' := by
  rw [step] at he
  cases hphase : s.pass.phase with
  | searching =>
      rw [hphase] at he
      cases he
  | delayPoll delta =>
      rw [hphase] at he
      cases he
  | looping item =>
      simp only [hphase] at he
      have hnone : s.reload = none := by
        rw [← Option.not_isSome_iff_eq_none]
        exact fun hsome ↦ hreload hsome item hphase
      obtain ⟨pass, hturn, he⟩ := Option.bind_eq_some_iff.mp he
      have hinv := h.turn d now hphase (hc item hphase) hturn
      cases hend : pass.phase with
      | looping item' =>
          simp only [hend] at he
          cases he
          exact ⟨hinv, .of_none hnone⟩
      | searching | delayPoll delta =>
          simp only [hend] at he
          have hphase' : ∀ item, (State.pass { s with pass }).phase ≠ .looping item := by
            intro item heq
            rw [hend] at heq
            cases heq
          obtain ⟨hinv', hsame⟩ := hinv.rebalance hphase' he
          exact ⟨hinv', .of_none (hsame.trans hnone)⟩

/-- A reload goes on with the next row, or with a flush. -/
theorem step_reload (h : Inv s) (hr : Reloading s) {e : Event σ γ} (hc : Orderly s e)
    (he : step s e = some s') (hevent : e = .row ∨ e = .flush) : Inv s' ∧ Reloading s' := by
  cases hreload : s.reload with
  | none =>
      rcases hevent with rfl | rfl <;>
      · rw [step, hreload] at he
        cases he
  | some r =>
      have hphase := hr.phase (by rw [hreload]; rfl)
      rcases hevent with rfl | rfl
      · rw [step, hreload] at he
        match r, he with
        | .loading (row :: rows) nextpoll, he =>
            obtain ⟨⟨s'', nextpoll'⟩, hrow, he⟩ := Option.map_eq_some_iff.mp he
            cases he
            have hpos := hr.rows _ _ hreload
            obtain ⟨hinv, hsame, -⟩ := h.loadRow hphase (hpos row List.mem_cons_self) hrow
            refine ⟨⟨hinv.items, hinv.nodup, hinv.lt_fresh, hinv.entered⟩, fun _ ↦ ?_, ?_⟩
            · change ∀ item, s''.pass.phase ≠ .looping item
              rwa [hsame]
            · intro rows' nextpoll'' heq row' hrow'
              cases heq
              exact hpos row' (List.mem_cons_of_mem _ hrow')
      · rw [step, hreload] at he
        match r, he with
        | .loading [] nextpoll, he =>
            obtain ⟨s'', hbalanced, he⟩ := Option.map_eq_some_iff.mp he
            cases he
            have hfuel := length_le_fuel (s := s)
            obtain ⟨tree, heq, hlists⟩ := rebalance_eq h.scheduled
              (show (enabledFeeds s).length + 1 ≤ s.fuel by omega)
            rw [heq] at hbalanced
            cases hbalanced
            refine ⟨.of_scheduled hlists hphase h.nodup h.lt_fresh h.entered, fun _ ↦ hphase, ?_⟩
            intro rows nextpoll' heq
            cases heq
        | .flushing, he =>
            have hflush := hc (by rw [hreload]; rfl)
            obtain ⟨hinv, hsame, hreload'⟩ := h.flushUnvisited hphase hflush he
            refine ⟨hinv, fun _ ↦ by rwa [hsame], fun rows nextpoll heq ↦ ?_⟩
            rcases hreload' with hkept | hnone
            · rw [hkept, hreload] at heq
              cases heq
            · rw [hnone] at heq
              cases heq

theorem step_inv (h : Inv s) (hr : Reloading s) {e : Event σ γ} (hc : Orderly s e)
    (he : step s e = some s') : Inv s' ∧ Reloading s' := by
  cases e with
  | search d now =>
      rw [step] at he
      split at he
      · rename_i hidle
        obtain ⟨pass, hpass, he⟩ := Option.map_eq_some_iff.mp he
        cases he
        have hreload := hidle.reload
        exact ⟨h.search d now hpass, .of_none hreload⟩
      · cases he
  | turn d now => exact step_turn h d now hr.phase hc he
  | reload now table =>
      rw [step] at he
      split at he
      · rename_i hidle
        have hphase := hidle.phase
        cases hrows : table.rows with
        | nil =>
            rw [hrows] at he
            cases he
            refine ⟨⟨h.items, h.nodup, h.lt_fresh, h.entered⟩, fun _ ↦ hphase, ?_⟩
            intro rows nextpoll heq
            cases heq
        | cons row rows =>
            rw [hrows] at he
            cases he
            refine ⟨⟨h.items, h.nodup, h.lt_fresh, h.entered⟩, fun _ ↦ hphase, ?_⟩
            intro rows' nextpoll heq
            cases heq
            rw [← hrows]
            exact table.pos
      · cases he
  | row => exact step_reload h hr hc he (.inl rfl)
  | flush => exact step_reload h hr hc he (.inr rfl)
  | enable feedNum now =>
      rw [step] at he
      split at he
      · rename_i hidle
        exact of_idle hidle (h.enable hidle.phase he)
      · cases he
  | disable feedNum =>
      rw [step] at he
      split at he
      · rename_i hidle
        exact of_idle hidle (h.disable hidle.phase he)
      · cases he
  | save x fields =>
      rw [step] at he
      split at he
      · rename_i hx
        cases he
        exact ⟨h.save hx.2 hc, ⟨hr.phase, hr.rows⟩⟩
      · cases he
  | new =>
      rw [step] at he
      split at he
      · rename_i hidle
        cases he
        exact ⟨h.new hidle.1.phase, .of_none hidle.1.reload⟩
      · cases he
  | insert id fields =>
      rw [step] at he
      cases hfind : s.findFeed (-1) with
      | none =>
          rw [hfind] at he
          cases he
      | some x =>
          simp only [hfind] at he
          obtain ⟨hx, hid⟩ := findFeed_some hfind
          split at he
          · rename_i hidle
            cases he
            exact ⟨h.insert hidle.1.phase hx hid hc, .of_none hidle.1.reload⟩
          · cases he
  | cancel =>
      rw [step] at he
      cases hfind : s.findFeed (-1) with
      | none =>
          rw [hfind] at he
          cases he
      | some x =>
          simp only [hfind] at he
          obtain ⟨hx, hid⟩ := findFeed_some hfind
          split at he
          · rename_i hidle
            cases he
            exact ⟨h.erase_disabled hidle.phase (h.entered x hx hid),
              .of_none hidle.reload⟩
          · cases he

end Steps

theorem Init.inv {s : State σ γ} (h : Init s) : Inv s ∧ Reloading s := by
  have hnone : enabledFeeds s = [] := by rw [enabledFeeds, h.rssfeedTree, List.filter_nil]
  refine ⟨.of_scheduled ?_ ?_ ?_ ?_ ?_, .of_none h.reload⟩
  · rw [Scheduled, hnone, h.tree]
    exact .empty _
  · intro item hitem
    rw [h.phase] at hitem
    cases hitem
  · rw [h.rssfeedTree]
    exact List.nodup_nil
  · intro x hx
    rw [h.rssfeedTree] at hx
    cases hx
  · intro x hx
    rw [h.rssfeedTree] at hx
    cases hx

/-- Before the first reload. -/
def start : State ℤ ℤ where
  pass := ⟨.empty, fun _ ↦ 0, .searching, 0, 0, []⟩
  feeds := fun _ ↦ ⟨⟨0, 0, none, none, 0⟩, 0, false, false⟩
  rssfeedTree := []
  reload := none
  fresh := 0

theorem init_start : Init start := ⟨rfl, rfl, rfl, rfl⟩

/-- One feed, enabled, polled every five minutes. -/
def oneRow : Table where
  rows := [⟨⟨1, 1, 300, true⟩, 1⟩]
  nodup := List.nodup_singleton _
  pos := by
    rintro row hrow
    rw [List.mem_singleton.mp hrow]
    exact Int.one_pos

/-- The same feed, disabled. -/
def disabledRow : Table where
  rows := [⟨⟨1, 1, 300, false⟩, 1⟩]
  nodup := List.nodup_singleton _
  pos := by
    rintro row hrow
    rw [List.mem_singleton.mp hrow]
    exact Int.one_pos

/-- A form that disables a feed leaves its item, and the reload that follows sees no change. -/
theorem not_scheduled :
    ∃ s, (system ℤ ℤ).run start [.reload 100 oneRow, .row, .flush, .flush,
        .save 0 ⟨1, 1, 300, false⟩, .reload 200 disabledRow, .row, .flush, .flush] = some s ∧ s.Idle ∧ ¬ Scheduled s := by
  refine ⟨_, rfl, by decide, fun h ↦ ?_⟩
  cases h.root_eq_none

end Beirdobot.Rssfeed.Active
