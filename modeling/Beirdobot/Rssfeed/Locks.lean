import Beirdobot.Library.LockPrograms

/-!
# The mutexes of the feeds

What `rssfeed_thread`, the commands, the notifications, the form and the thread that
reloads the servers lock and unlock of five trees, each from its first lock to its last
unlock.  The callback of a query runs within the activity that waits for the query, as
nobody else can go on before it returns.  Left out are the other mutexes, the queue of
queries itself and the handlers of signals.
-/

namespace Beirdobot.Rssfeed

open Library

/-- The trees. -/
inductive Tree
  | rssfeedActiveTree
  | rssfeedTree
  | rssItemTree
  | threadTree
  | serverTree
  deriving DecidableEq

/-- The thread of the plugin, or any other. -/
inductive Thread
  | rssfeed
  | other (n : ℕ)
  deriving DecidableEq

/-- What a program does to the mutex of a tree. -/
abbrev Act := LockAct Tree

/-- A call that is told `UNLOCKED`, or a walk between `BalancedBTreeLock` and
`BalancedBTreeUnlock`. -/
def within (t : Tree) (body : List Act) : List Act := .lock t :: (body ++ [.unlock t])

/-- `FindServerNum`. -/
def findServerNum : List Act := within .serverTree []

/-- `FindServerNum` for each feed that needs it. -/
def lookups : ℕ → List Act
  | 0 => []
  | n + 1 => findServerNum ++ lookups n

/-- `thread_register`, `thread_name` and the like. -/
def threadOperation : List Act := within .threadTree []

/-- `ThreadAllNotifyServer` and `ThreadAllNotifyChannel`, which call
`rssfeedDisableServer` or `rssfeedDisableChannel`. -/
def threadAllNotify : List Act := within .threadTree (within .rssfeedTree [])

/-- What is done to the threads while `ServerTree` is locked. -/
inductive ServerPart
  | operation
  | notify

def ServerPart.acts : ServerPart → List Act
  | .operation => threadOperation
  | .notify => threadAllNotify

/-- What a thread starts with none of the mutexes. -/
inductive Activity
  /-- `rssfeed_thread` looks for the first feed that is ready. -/
  | findReady (servers : ℕ)
  /-- `rssfeed_thread` polls the feeds that are due. -/
  | poll (servers : ℕ)
  /-- `rssfeed_thread` reloads the feeds. -/
  | reload (servers : ℕ)
  /-- `rssfeed list` -/
  | list
  /-- `rssfeed list timeout` -/
  | listTimeout
  /-- `rssfeed show` -/
  | showFeed
  /-- `rssfeed enable` and `rssfeed disable`, which find the feed as it should be or not. -/
  | enable (changed : Bool)
  | disable (changed : Bool)
  /-- `result_insert_rssfeed` -/
  | insert
  /-- `cursesRssfeedNew` and `cursesRssfeedCleanup` -/
  | new
  | cleanup (found : Bool)
  /-- `ThreadAllNotifyServer` and `ThreadAllNotifyChannel` -/
  | notify
  /-- Any other use of `ThreadTree` and of `ServerTree`. -/
  | operation
  | findServer
  /-- `mainSighup`, `bot_start` and `bot_shutdown`. -/
  | servers (parts : List ServerPart)

/-- What the activity locks and unlocks. -/
def Activity.acts : Activity → List Act
  | .findReady n => within .rssfeedActiveTree (lookups n)
  | .poll n =>
      .lock .rssfeedActiveTree :: .lock .rssItemTree ::
        (lookups n ++ [.unlock .rssfeedActiveTree, .unlock .rssItemTree])
  | .reload n => within .rssfeedActiveTree (within .rssfeedTree (lookups n))
  | .list | .showFeed | .insert | .new => within .rssfeedTree []
  | .listTimeout => within .rssfeedTree (within .rssfeedActiveTree [])
  | .enable changed | .disable changed =>
      within .rssfeedTree [] ++ if changed then within .rssfeedActiveTree [] else []
  | .cleanup found => within .rssfeedTree [] ++ if found then within .rssfeedTree [] else []
  | .notify => threadAllNotify
  | .operation => threadOperation
  | .findServer => findServerNum
  | .servers parts => within .serverTree (parts.flatMap ServerPart.acts)

/-- The thread of the plugin runs its loop and nothing else does. -/
def program : Thread → Activity → Option (List Act)
  | .rssfeed, .findReady n => some (Activity.findReady n).acts
  | .rssfeed, .poll n => some (Activity.poll n).acts
  | .rssfeed, .reload n => some (Activity.reload n).acts
  | .rssfeed, _ => none
  | .other _, .findReady _ => none
  | .other _, .poll _ => none
  | .other _, .reload _ => none
  | .other _, a => some a.acts

/-- The runs of all threads. -/
abbrev system : System (Locks Thread Tree) (LockEvent Thread Activity) := Locks.system program

/-- The trees that a thread locks. -/
def uses : Thread → Tree → Prop
  | .rssfeed, .threadTree => False
  | .other _, .rssItemTree => False
  | _, _ => True

/-- The tree that a thread locks while it holds another. -/
def order : Thread → Tree → Tree → Prop
  | .rssfeed, .rssfeedActiveTree, .rssfeedTree => True
  | .rssfeed, .rssfeedActiveTree, .rssItemTree => True
  | .rssfeed, .rssfeedActiveTree, .serverTree => True
  | .rssfeed, .rssfeedTree, .serverTree => True
  | .rssfeed, .rssItemTree, .serverTree => True
  | .other _, .rssfeedTree, .rssfeedActiveTree => True
  | .other _, .threadTree, .rssfeedTree => True
  | .other _, .serverTree, .rssfeedTree => True
  | .other _, .serverTree, .threadTree => True
  | _, _, _ => False

/-- What a thread may lock while it holds the trees of `H`. -/
def may (t : Thread) (H : Set Tree) (m : Tree) : Prop := uses t m ∧ ∀ m' ∈ H, order t m' m

/-! ## The activities keep the order -/

variable {H : Set Tree} {t : Thread} {m : Tree}

theorem within_within {body : List Act} (hm : m ∉ H) (hmay : may t H m)
    (h : Within (may t) (insert m H) body) : Within (may t) H (within m body) :=
  .bracket hm hmay h

theorem within_lookups (hm : Tree.serverTree ∉ H) (hmay : may .rssfeed H .serverTree) (n : ℕ) :
    Within (may .rssfeed) H (lookups n) := by
  induction n with
  | zero => exact .nil
  | succ n ih => exact (within_within hm hmay .nil).append ih

theorem within_parts (n : ℕ) (parts : List ServerPart) :
    Within (may (.other n)) {.serverTree} (parts.flatMap ServerPart.acts) := by
  refine .flatMap (fun part ↦ ?_) parts
  have hthread : may (.other n) {.serverTree} .threadTree := by simp [may, uses, order]
  cases part with
  | operation => exact within_within (by simp) hthread .nil
  | notify =>
      exact within_within (by simp) hthread
        (within_within (by simp) (by simp [may, uses, order]) .nil)

theorem within_rssfeed {a : Activity} {p : List Act} (h : program .rssfeed a = some p) :
    Within (may .rssfeed) ∅ p := by
  have hactive : may .rssfeed ∅ .rssfeedActiveTree := by simp [may, uses]
  cases a <;> simp only [program, Option.some.injEq, reduceCtorEq] at h <;> subst h
  · exact within_within (by simp) hactive
      (within_lookups (by simp) (by simp [may, uses, order]) _)
  · rename_i n
    have hlookups : Within (may .rssfeed) {.rssItemTree, .rssfeedActiveTree} (lookups n) :=
      within_lookups (by simp) (by simp [may, uses, order]) n
    constructor
    · refine ⟨by simp, hactive, by simp, by simp [may, uses, order], ?_⟩
      rw [insert_empty_eq]
      refine legal_append.mpr ⟨hlookups.1, ?_⟩
      rw [hlookups.2]
      exact ⟨by simp, by simp, trivial⟩
    · rw [Activity.acts, heldAfter, heldAfter, heldAfter_append, insert_empty_eq, hlookups.2]
      ext m
      cases m <;> simp [heldAfter]
  · exact within_within (by simp) hactive (within_within (by simp) (by simp [may, uses, order])
      (within_lookups (by simp) (by simp [may, uses, order]) _))

theorem within_other {n : ℕ} {a : Activity} {p : List Act} (h : program (.other n) a = some p) :
    Within (may (.other n)) ∅ p := by
  have hfeed : Within (may (.other n)) ∅ (within .rssfeedTree []) :=
    within_within (by simp) (by simp [may, uses]) .nil
  have hactive : Within (may (.other n)) ∅ (within .rssfeedActiveTree []) :=
    within_within (by simp) (by simp [may, uses]) .nil
  have hserver : may (.other n) ∅ .serverTree := by simp [may, uses]
  have hthread : may (.other n) ∅ .threadTree := by simp [may, uses]
  cases a with
  | findReady | poll | reload => simp [program] at h
  | list | showFeed | insert | new =>
      cases h
      exact hfeed
  | listTimeout =>
      cases h
      exact within_within (by simp) (by simp [may, uses])
        (within_within (by simp) (by simp [may, uses, order]) .nil)
  | enable changed | disable changed =>
      cases h
      refine hfeed.append ?_
      cases changed
      · exact .nil
      · exact hactive
  | cleanup found =>
      cases h
      refine hfeed.append ?_
      cases found
      · exact .nil
      · exact hfeed
  | notify =>
      cases h
      exact within_within (by simp) hthread
        (within_within (by simp) (by simp [may, uses, order]) .nil)
  | operation =>
      cases h
      exact within_within (by simp) hthread .nil
  | findServer =>
      cases h
      exact within_within (by simp) hserver .nil
  | servers parts =>
      cases h
      refine within_within (by simp) hserver ?_
      rw [insert_empty_eq]
      exact within_parts n parts

theorem within_program (t : Thread) (a : Activity) (p : List Act) (h : program t a = some p) :
    Within (may t) ∅ p := by
  cases t with
  | rssfeed => exact within_rssfeed h
  | other n => exact within_other h

/-! ## Waiting in a circle -/

/-- From `ServerTree`, with what is locked under it, `rssfeedTree` is still needed. -/
def Bars (R : Tree → Tree → Prop) : Prop :=
  R .serverTree .rssfeedTree ∨ R .serverTree .threadTree ∧ R .threadTree .rssfeedTree

/-- A reload against a `list timeout`, a reload against somebody who holds `ServerTree`, or
the thread that looks up a server against both of these. -/
def Tangled (R : Tree → Tree → Prop) : Prop :=
  R .rssfeedActiveTree .rssfeedTree ∧ R .rssfeedTree .rssfeedActiveTree ∨
  R .rssfeedTree .serverTree ∧ Bars R ∨
  R .rssfeedActiveTree .serverTree ∧ R .rssfeedTree .rssfeedActiveTree ∧ Bars R

/-- With what all threads still lock before they unlock what they hold, and with what
the step takes, none of these comes about. -/
def Careful (s : Locks Thread Tree) (e : LockEvent Thread Activity) : Prop :=
  ¬ Tangled fun m m' ↦ s.Commits m m' ∨ s.Pledges e m m'

theorem Tangled.mono {R R' : Tree → Tree → Prop} (h : Tangled R) (hle : ∀ m m', R m m' → R' m m') :
    Tangled R' := by
  have hbars : Bars R → Bars R' := by
    rintro (h | ⟨h, h'⟩)
    · exact .inl (hle _ _ h)
    · exact .inr ⟨hle _ _ h, hle _ _ h'⟩
  rcases h with ⟨h, h'⟩ | ⟨h, h'⟩ | ⟨h, h', h''⟩
  · exact .inl ⟨hle _ _ h, hle _ _ h'⟩
  · exact .inr (.inl ⟨hle _ _ h, hbars h'⟩)
  · exact .inr (.inr ⟨hle _ _ h, hle _ _ h', hbars h''⟩)

section Knots

variable {s : Locks Thread Tree}

/-- Who holds one tree and waits for another keeps the order. -/
theorem of_blocks (hs : s.Sound may) {m m' : Tree} (hb : s.Blocks m m') :
    ∃ t, s.holder m = some t ∧ s.holder m' ≠ some t ∧ order t m m' := by
  obtain ⟨t, ht, hne, -, horder⟩ := hs.of_blocks hb
  exact ⟨t, ht, hne, horder m ht⟩

/-- A knot of threads is one of the three situations. -/
theorem knotFree (hs : s.Sound may) (h : ¬ Tangled s.Commits) : KnotFree s.waits := by
  intro S hS
  obtain ⟨M, ⟨m₀, hm₀⟩, hM⟩ := Locks.blocks_of_knot hS
  have hthread : .threadTree ∈ M → .rssfeedTree ∈ M ∧ s.Commits .threadTree .rssfeedTree := by
    intro hm
    obtain ⟨m', hm', hb⟩ := hM _ hm
    obtain ⟨t, -, -, ho⟩ := of_blocks hs hb
    cases t <;> cases m' <;> first | exact ho.elim | exact ⟨hm', hb.commits⟩
  have hserver : .serverTree ∈ M → .rssfeedTree ∈ M ∧ Bars s.Commits := by
    intro hm
    obtain ⟨m', hm', hb⟩ := hM _ hm
    obtain ⟨t, -, -, ho⟩ := of_blocks hs hb
    cases t <;> cases m' <;> first
      | exact ho.elim
      | exact ⟨hm', .inl hb.commits⟩
      | exact ⟨(hthread hm').1, .inr ⟨hb.commits, (hthread hm').2⟩⟩
  have hitem : .rssItemTree ∈ M → s.holder .rssItemTree = some .rssfeed ∧ .serverTree ∈ M := by
    intro hm
    obtain ⟨m', hm', hb⟩ := hM _ hm
    obtain ⟨t, ht, -, ho⟩ := of_blocks hs hb
    cases t <;> cases m' <;> first | exact ho.elim | exact ⟨ht, hm'⟩
  have hactive : .rssfeedActiveTree ∈ M →
      .rssfeedTree ∈ M ∧ s.Commits .rssfeedActiveTree .rssfeedTree ∨
        .serverTree ∈ M ∧ s.Commits .rssfeedActiveTree .serverTree := by
    intro hm
    obtain ⟨m', hm', hb⟩ := hM _ hm
    obtain ⟨t, -, hne, ho⟩ := of_blocks hs hb
    cases t <;> cases m' <;> first
      | exact ho.elim
      | exact .inl ⟨hm', hb.commits⟩
      | exact .inr ⟨hm', hb.commits⟩
      -- the thread of the plugin does not wait for its own items
      | exact absurd (hitem hm').1 hne
  have hfeed : .rssfeedTree ∈ M := by
    cases m₀ with
    | rssfeedActiveTree =>
        rcases hactive hm₀ with hm | hm
        · exact hm.1
        · exact (hserver hm.1).1
    | rssfeedTree => exact hm₀
    | rssItemTree => exact (hserver (hitem hm₀).2).1
    | threadTree => exact (hthread hm₀).1
    | serverTree => exact (hserver hm₀).1
  obtain ⟨m', hm', hb⟩ := hM _ hfeed
  obtain ⟨t, -, -, ho⟩ := of_blocks hs hb
  apply h
  cases t <;> cases m' <;> first | exact ho.elim | skip
  · exact .inr (.inl ⟨hb.commits, (hserver hm').2⟩)
  · rcases hactive hm' with hm | hm
    · exact .inl ⟨hm.2, hb.commits⟩
    · exact .inr (.inr ⟨hm.2, hb.commits, (hserver hm.1).2⟩)

end Knots

/-- In every run whose steps bring none of the three situations about, no threads wait
in a circle. -/
theorem reachable_knotFree {s : Locks Thread Tree} (h : system.ReachableVia Careful s) :
    KnotFree s.waits := by
  have hinv : s.Sound may ∧ ¬ Tangled s.Commits := by
    refine h.invariant (I := fun s ↦ s.Sound may ∧ ¬ Tangled s.Commits) ?_ ?_
    · intro s hi
      refine ⟨Locks.sound_init hi, fun ht ↦ ?_⟩
      have hnone : ∀ m m', ¬ s.Commits m m' := by
        rintro m m' ⟨t, ht, -⟩
        rw [hi.2 m] at ht
        cases ht
      rcases ht with ⟨h, -⟩ | ⟨h, -⟩ | ⟨h, -⟩ <;> exact hnone _ _ h
    · rintro s e s' ⟨hs, -⟩ hc he
      exact ⟨hs.step within_program he,
        fun ht ↦ hc (ht.mono fun m m' ↦ Locks.commits_step hs he)⟩
  exact knotFree hinv.1 hinv.2

/-- No thread has anything to do. -/
def idle : Locks Thread Tree where
  todo _ := []
  holder _ := none

/-- The thread of the plugin starts to reload. -/
def reloading : Locks Thread Tree :=
  { idle with todo := Function.update idle.todo .rssfeed (Activity.reload 1).acts }

theorem reachable_knotFree_reload : ∃ s, system.step reloading (.act .rssfeed) = some s ∧
    s.holder .rssfeedActiveTree = some .rssfeed ∧ KnotFree s.waits := by
  have hstart : system.ReachableVia Careful reloading := by
    refine .step (e := .start .rssfeed (.reload 1)) (.init (s := idle) ⟨fun _ ↦ rfl, fun _ ↦ rfl⟩)
      ?_ rfl
    rintro (⟨⟨_, h, -⟩ | h, -⟩ | ⟨⟨_, h, -⟩ | h, -⟩ | ⟨⟨_, h, -⟩ | h, -⟩) <;> cases h
  refine ⟨_, rfl, rfl, reachable_knotFree (.step (e := .act .rssfeed) hstart ?_ rfl)⟩
  rintro (⟨-, ⟨_, h, -⟩ | ⟨_, h, -⟩⟩ | ⟨⟨_, h, -⟩ | ⟨_, h, -⟩, -⟩ |
    ⟨-, ⟨_, h, -⟩ | ⟨_, h, -⟩, -⟩) <;> cases h

/-- A reload and a `list timeout` that each took their first tree. -/
theorem reload_listTimeout_knot : ∃ s, system.Reachable s ∧ ∃ S, Knot s.waits S := by
  have hrun : system.run idle [.start .rssfeed (.reload 0), .start (.other 0) .listTimeout,
      .act .rssfeed, .act (.other 0)] = some _ := rfl
  refine ⟨_, System.reachable_of_run ⟨fun _ ↦ rfl, fun _ ↦ rfl⟩ hrun, {.rssfeed, .other 0},
    ⟨.rssfeed, .inl rfl⟩, ?_⟩
  rintro t (rfl | rfl)
  · exact ⟨.other 0, .inr rfl, rfl⟩
  · exact ⟨.rssfeed, .inl rfl, rfl⟩

end Beirdobot.Rssfeed
