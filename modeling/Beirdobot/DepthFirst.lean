import Beirdobot.Library.BinaryTree
import Beirdobot.Mysql.Query

/-!
# The lists that the commands show

A transcription of `botCmdDepthFirst` of `bot_cmds.c`, `botMailboxDepthFirst` of
`mailbox.c` and `botRssfeedDepthFirst` of `rssfeed.c`, with the sizes of their buffers.
A result `none` is a read or a write that is not defined: the length of no string, or a
text that is longer than its buffer.
-/

namespace Beirdobot.DepthFirst

open Mysql (decimal)

/-- A string in memory, with room for its NUL. -/
structure Buffer where
  size : ℕ
  text : CString
  fits : text.length < size

namespace Buffer

/-- `malloc`, with `message[0] = '\0'`. -/
def malloc (size : ℕ) : Option Buffer := if h : 0 < size then some ⟨size, [], h⟩ else none

def realloc (b : Buffer) (size : ℕ) : Option Buffer :=
  if h : b.text.length < size then some ⟨size, b.text, h⟩ else none

def strcat (b : Buffer) (s : CString) : Option Buffer :=
  if h : (b.text ++ s).length < b.size then some ⟨b.size, b.text ++ s, h⟩ else none

/-- What stands in the functions for a text that goes behind a message. -/
def append (message : Buffer) (submsg : CString) : Option Buffer := do
  let len : ℤ := message.text.length
  let message ← message.realloc (len + 2 + submsg.length + 2).toNat
  let message ← message.strcat ", ".toList
  message.strcat submsg

end Buffer

/-- The text of a node goes behind the message, or is a new one. -/
def addNode (message : Option Buffer) (submsg : CString) : Option Buffer :=
  match message with
  | none => do
      let len : ℤ := -2
      let message ← Buffer.malloc (len + 2 + submsg.length + 2).toNat
      message.strcat submsg
  | some message => message.append submsg

/-- The message of the right subtree goes behind it, as `botCmdDepthFirst` and
`botMailboxDepthFirst` do it: the length is that of `message`, be there one or not. -/
def addRight (message submsg : Option Buffer) : Option (Option Buffer) :=
  match submsg with
  | none => some message
  | some submsg => do
      let message ← message
      let message ← message.append submsg.text
      return some message

/-- The same with the test for a message, as `botRssfeedDepthFirst` does it. -/
def addRightChecked (message submsg : Option Buffer) : Option (Option Buffer) :=
  if message.isSome then addRight message submsg else some submsg

variable {α : Type}

/-- The node itself, if it passes. -/
def addItem (passes : α → Bool) (text : α → Option CString) (item : α) (message : Option Buffer) :
    Option (Option Buffer) :=
  if passes item then (text item).bind fun submsg ↦ (addNode message submsg).map some
  else some message

/-- The three functions: the message of the left subtree, the node if it passes, and the
message of the right subtree. -/
def depthFirst (passes : α → Bool) (text : α → Option CString)
    (right : Option Buffer → Option Buffer → Option (Option Buffer)) :
    BinaryTree α → Option (Option Buffer)
  | .nil => some none
  | .node item l r => do
      let message ← depthFirst passes text right l
      let message ← addItem passes text item message
      let submsg ← depthFirst passes text right r
      right message submsg

/-- What is read of a node of `botCmdTree`, `pluginTree` or `luascriptTree`. -/
structure Plugin where
  key : CString
  loaded : Bool

def Plugin.passes (filterPlugins : Bool) (plugin : Plugin) : Bool := !filterPlugins || plugin.loaded

/-- `botCmdDepthFirst` -/
def botCmdDepthFirst (item : BinaryTree Plugin) (filterPlugins : Bool) : Option (Option Buffer) :=
  depthFirst (Plugin.passes filterPlugins) (fun plugin ↦ some plugin.key) addRight item

/-- What is read of a `Mailbox_t`. -/
structure Mailbox where
  mailboxId : ℤ
  serverSpec : CString
  enabled : Bool

def Mailbox.passes (filter : Bool) (mailbox : Mailbox) : Bool := !filter || mailbox.enabled

def Mailbox.text (mailbox : Mailbox) : CString :=
  decimal mailbox.mailboxId ++ '-' :: mailbox.serverSpec

/-- `sprintf` into `buf[256]` -/
def sprintf (text : CString) : Option CString := if text.length < 256 then some text else none

/-- `botMailboxDepthFirst` -/
def botMailboxDepthFirst (item : BinaryTree Mailbox) (server : Option ℕ) (filter : Bool) :
    Option (Option Buffer) :=
  if server = none then some none
  else depthFirst (Mailbox.passes filter) (fun mailbox ↦ sprintf mailbox.text) addRight item

/-- What is read of an `RssFeed_t`; a channel is its address with its name. -/
structure RssFeed where
  feedId : ℤ
  feedPrefix : CString
  server : Option ℕ
  channel : Option (ℕ × CString)
  enabled : Bool

def RssFeed.passes (server : ℕ) (channel : Option ℕ) (filter : Bool) (feed : RssFeed) : Bool :=
  decide (some server = feed.server) && (!filter || feed.enabled) &&
    (decide (channel = none) || decide (channel = feed.channel.map Prod.fst))

def RssFeed.text (channel : Option ℕ) (feed : RssFeed) : Option CString :=
  let disabled := if feed.enabled then [] else "(disabled)".toList
  if channel = none then
    feed.channel.map fun (_, name) ↦
      (decimal feed.feedId ++ "-(".toList ++ name ++ ")-".toList ++ feed.feedPrefix ++
        disabled).take 255
  else some ((decimal feed.feedId ++ '-' :: feed.feedPrefix ++ disabled).take 255)

/-- `botRssfeedDepthFirst` -/
def botRssfeedDepthFirst (item : BinaryTree RssFeed) (server channel : Option ℕ) (filter : Bool) :
    Option (Option Buffer) :=
  match server with
  | none => some none
  | some server =>
      depthFirst (RssFeed.passes server channel filter) (RssFeed.text channel) addRightChecked item

/-! ## The list of what passes -/

/-- The texts with `", "` between them, or no string. -/
def joined (texts : List CString) : Option CString :=
  if texts = [] then none else some (", ".toList.intercalate texts)

/-- The texts of the nodes that pass, in order. -/
def texts (passes : α → Bool) (text : α → CString) (t : BinaryTree α) : List CString :=
  (t.inorder.filter passes).map text

/-- Where a node does not pass, nothing passes to its right, or something to its left. -/
def Joins (passes : α → Bool) : BinaryTree α → Prop
  | .nil => True
  | .node item l r => Joins passes l ∧ Joins passes r ∧
      (passes item = false → (∀ x ∈ l.inorder, passes x = false) → ∀ x ∈ r.inorder, passes x = false)

section Strings

variable {message submsg message' : Option Buffer} {s : CString}

/-- Two lists, where there may be none. -/
def join : Option CString → Option CString → Option CString
  | none, s => s
  | some s, none => some s
  | some s, some s' => some (s ++ ", ".toList ++ s')

theorem intercalate_append {sep : CString} {xs ys : List CString} (hx : xs ≠ []) (hy : ys ≠ []) :
    sep.intercalate (xs ++ ys) = sep.intercalate xs ++ sep ++ sep.intercalate ys := by
  induction xs with
  | nil => exact absurd rfl hx
  | cons x xs ih =>
      cases xs with
      | nil =>
          cases ys with
          | nil => exact absurd rfl hy
          | cons y ys => simp [List.intercalate]
      | cons x' xs =>
          have hrest := ih (List.cons_ne_nil _ _)
          simp only [List.intercalate, List.cons_append, List.intersperse_cons_cons,
            List.flatten_cons, List.append_assoc] at hrest ⊢
          rw [hrest]

theorem joined_append (xs ys : List CString) :
    joined (xs ++ ys) = join (joined xs) (joined ys) := by
  by_cases hx : xs = []
  · rw [hx, List.nil_append]
    rfl
  by_cases hy : ys = []
  · rw [hy, List.append_nil, joined, if_neg hx]
    rfl
  simp only [joined, join, List.append_eq_nil_iff, hx, hy, and_self,
    if_false, intercalate_append hx hy]

theorem joined_singleton (s : CString) : joined [s] = some s := by
  simp [joined, List.intercalate]

/-- The sizes suffice. -/
theorem append_eq (message : Buffer) (s : CString) :
    ∃ b, message.append s = some b ∧ b.text = message.text ++ ", ".toList ++ s := by
  have hsize : (message.text.length + 2 + s.length + 2 : ℤ).toNat =
      message.text.length + s.length + 4 := by omega
  have hrealloc : message.text.length < message.text.length + s.length + 4 := by omega
  have hcomma : (message.text ++ ", ".toList).length < message.text.length + s.length + 4 := by
    simp only [List.length_append, String.reduceToList, List.length_cons, List.length_nil]
    omega
  have htext : (message.text ++ ", ".toList ++ s).length < message.text.length + s.length + 4 := by
    simp only [List.length_append, String.reduceToList, List.length_cons, List.length_nil]
    omega
  refine ⟨⟨_, _, htext⟩, ?_, rfl⟩
  simp only [Buffer.append, hsize, Buffer.realloc, dif_pos hrealloc, Buffer.strcat, dif_pos hcomma,
    dif_pos htext, Option.bind_eq_bind, Option.bind_some]

theorem addNode_eq (message : Option Buffer) (s : CString) :
    ∃ b, addNode message s = some b ∧
      some b.text = join (message.map Buffer.text) (some s) := by
  cases message with
  | none =>
      have hsize : (-2 + 2 + s.length + 2 : ℤ).toNat = s.length + 2 := by omega
      have hlt : ([] ++ s).length < s.length + 2 := by simp
      refine ⟨⟨_, _, hlt⟩, ?_, rfl⟩
      simp only [addNode, hsize, Buffer.malloc, Nat.succ_pos, dif_pos, Buffer.strcat, dif_pos hlt,
        Option.bind_eq_bind, Option.bind_some]
  | some message =>
      obtain ⟨b, hb, htext⟩ := append_eq message s
      exact ⟨b, hb, congrArg some htext⟩

/-- The length of no string is taken, unless there is a message or nothing is to go
behind it. -/
theorem addRight_eq (message submsg : Option Buffer) :
    if message = none ∧ submsg ≠ none then addRight message submsg = none
    else ∃ m, addRight message submsg = some m ∧
      m.map Buffer.text = join (message.map Buffer.text) (submsg.map Buffer.text) := by
  cases submsg with
  | none =>
      rw [if_neg fun h ↦ h.2 rfl]
      refine ⟨message, rfl, ?_⟩
      cases message <;> rfl
  | some submsg =>
      cases message with
      | none =>
          rw [if_pos ⟨rfl, Option.some_ne_none _⟩]
          rfl
      | some message =>
          rw [if_neg fun h ↦ Option.some_ne_none _ h.1]
          obtain ⟨b, hb, htext⟩ := append_eq message submsg.text
          refine ⟨some b, ?_, congrArg some htext⟩
          simp only [addRight, Option.bind_eq_bind, Option.bind_some, hb]
          rfl

theorem addRightChecked_eq (message submsg : Option Buffer) :
    ∃ m, addRightChecked message submsg = some m ∧
      m.map Buffer.text = join (message.map Buffer.text) (submsg.map Buffer.text) := by
  cases message with
  | none => exact ⟨submsg, rfl, rfl⟩
  | some message =>
      have h := addRight_eq (some message) submsg
      rw [if_neg fun h ↦ Option.some_ne_none _ h.1] at h
      exact h

end Strings

section Trees

variable {passes : α → Bool} {text : α → CString} {text' : α → Option CString}
  {right : Option Buffer → Option Buffer → Option (Option Buffer)}

theorem texts_node (item : α) (l r : BinaryTree α) :
    joined (texts passes text (.node item l r)) =
      join (join (joined (texts passes text l)) (if passes item then some (text item) else none))
        (joined (texts passes text r)) := by
  have hitem : joined ((if passes item then [item] else []).map text) =
      if passes item then some (text item) else none := by
    split
    · exact joined_singleton _
    · rfl
  rw [texts, BinaryTree.inorder_node, List.filter_append, List.filter_cons, List.map_append]
  rw [← hitem, texts, texts, ← joined_append, ← joined_append]
  cases passes item <;> simp

theorem addItem_eq (passes : α → Bool) (text' : α → Option CString) (item : α) (message : Option Buffer) :
    if passes item = true ∧ text' item = none then addItem passes text' item message = none
    else ∃ m, addItem passes text' item message = some m ∧
      m.map Buffer.text = join (message.map Buffer.text) (if passes item then text' item else none) := by
  by_cases hp : passes item = true
  · rw [addItem, if_pos hp, if_pos hp]
    rcases ht : text' item with _ | s
    · rw [if_pos ⟨hp, rfl⟩]
      rfl
    · rw [if_neg fun h ↦ Option.some_ne_none _ h.2]
      obtain ⟨b, hb, htext⟩ := addNode_eq message s
      refine ⟨some b, ?_, htext⟩
      rw [Option.bind_some, hb]
      rfl
  · rw [addItem, if_neg hp, if_neg hp, if_neg fun h ↦ hp h.1]
    refine ⟨message, rfl, ?_⟩
    cases message <;> rfl

theorem joined_texts_eq_none (text : α → CString) {t : BinaryTree α} :
    joined (texts passes text t) = none ↔ ∀ x ∈ t.inorder, passes x = false := by
  rw [joined, texts]
  simp [List.filter_eq_nil_iff]

/-- Every text fits, and, where the right subtree is joined unchecked, the lists do. -/
def Fine (passes : α → Bool) (text' : α → Option CString) (unchecked : Prop) (t : BinaryTree α) :
    Prop :=
  (∀ x ∈ t.inorder, passes x = true → text' x ≠ none) ∧ (unchecked → Joins passes t)

theorem fine_node {unchecked : Prop} {item : α} {l r : BinaryTree α} :
    Fine passes text' unchecked (.node item l r) ↔
      Fine passes text' unchecked l ∧ ¬ (passes item = true ∧ text' item = none) ∧
      Fine passes text' unchecked r ∧ (unchecked → passes item = false →
        (∀ x ∈ l.inorder, passes x = false) → ∀ x ∈ r.inorder, passes x = false) := by
  rw [Fine, Fine, Fine, BinaryTree.inorder_node, List.forall_mem_append, List.forall_mem_cons,
    Joins, not_and]
  constructor
  · rintro ⟨⟨hl, hitem, hr⟩, hj⟩
    exact ⟨⟨hl, fun h ↦ (hj h).1⟩, hitem, ⟨hr, fun h ↦ (hj h).2.1⟩, fun h ↦ (hj h).2.2⟩
  · rintro ⟨⟨hl, hjl⟩, hitem, ⟨hr, hjr⟩, hj⟩
    exact ⟨⟨hl, hitem, hr⟩, fun h ↦ ⟨hjl h, hjr h, hj h⟩⟩

/-- The message is the list of what passes, if the tree is fine, and is not defined
otherwise. -/
theorem depthFirst_eq {unchecked : Prop}
    (hright : ∀ message submsg,
      (unchecked ∧ message = none ∧ submsg ≠ none → right message submsg = none) ∧
      (¬ (unchecked ∧ message = none ∧ submsg ≠ none) → ∃ m, right message submsg = some m ∧
        m.map Buffer.text = join (message.map Buffer.text) (submsg.map Buffer.text)))
    (htext : ∀ x s, text' x = some s → s = text x) (t : BinaryTree α) :
    (Fine passes text' unchecked t → ∃ m, depthFirst passes text' right t = some m ∧
      m.map Buffer.text = joined (texts passes text t)) ∧
    (¬ Fine passes text' unchecked t → depthFirst passes text' right t = none) := by
  induction t with
  | nil => exact ⟨fun _ ↦ ⟨none, rfl, rfl⟩, fun h ↦ absurd ⟨by simp, fun _ ↦ trivial⟩ h⟩
  | node item l r ihl ihr =>
      rw [fine_node, depthFirst]
      by_cases hl : Fine passes text' unchecked l
      swap
      · refine ⟨fun h ↦ absurd h.1 hl, fun _ ↦ ?_⟩
        rw [ihl.2 hl]
        rfl
      obtain ⟨ml, hml, hmltext⟩ := ihl.1 hl
      have hitem := addItem_eq passes text' item ml
      by_cases hp : passes item = true ∧ text' item = none
      · refine ⟨fun h ↦ absurd hp h.2.1, fun _ ↦ ?_⟩
        rw [if_pos hp] at hitem
        simp only [hml, Option.bind_eq_bind, Option.bind_some, hitem, Option.bind_none]
      rw [if_neg hp] at hitem
      obtain ⟨mi, hmi, hmitext⟩ := hitem
      by_cases hr : Fine passes text' unchecked r
      swap
      · refine ⟨fun h ↦ absurd h.2.2.1 hr, fun _ ↦ ?_⟩
        simp only [hml, hmi, ihr.2 hr, Option.bind_eq_bind, Option.bind_some, Option.bind_none]
      obtain ⟨mr, hmr, hmrtext⟩ := ihr.1 hr
      simp only [hml, hmi, hmr, Option.bind_eq_bind, Option.bind_some]
      have htext' : (if passes item then text' item else none) =
          if passes item then some (text item) else none := by
        split
        · rename_i hpass
          rcases hs : text' item with _ | s
          · exact absurd ⟨hpass, hs⟩ hp
          · rw [htext item s hs]
        · rfl
      rw [hmltext, htext'] at hmitext
      -- the message before the right subtree, and the one of the right subtree
      have hnone : mi = none ↔ passes item = false ∧ ∀ x ∈ l.inorder, passes x = false := by
        rw [← Option.map_eq_none_iff (f := Buffer.text), hmitext, ← joined_texts_eq_none text]
        cases passes item <;> cases joined (texts passes text l) <;> simp [join]
      have hsome : mr ≠ none ↔ ¬ ∀ x ∈ r.inorder, passes x = false := by
        rw [← joined_texts_eq_none text, ← hmrtext, Option.map_eq_none_iff]
      have hbad : (unchecked ∧ mi = none ∧ mr ≠ none) ↔ ¬ (unchecked → passes item = false →
          (∀ x ∈ l.inorder, passes x = false) → ∀ x ∈ r.inorder, passes x = false) := by
        rw [hnone, hsome]
        simp only [Classical.not_imp, and_assoc]
      constructor
      · rintro ⟨-, -, -, hj⟩
        obtain ⟨m, hm, hmtext⟩ := (hright mi mr).2 fun h ↦ hbad.mp h hj
        refine ⟨m, hm, ?_⟩
        rw [hmtext, hmitext, hmrtext, texts_node]
      · intro h
        exact (hright mi mr).1 (hbad.mpr fun hj ↦ h ⟨hl, hp, hr, hj⟩)

theorem depthFirst_iff {unchecked : Prop}
    (hright : ∀ message submsg,
      (unchecked ∧ message = none ∧ submsg ≠ none → right message submsg = none) ∧
      (¬ (unchecked ∧ message = none ∧ submsg ≠ none) → ∃ m, right message submsg = some m ∧
        m.map Buffer.text = join (message.map Buffer.text) (submsg.map Buffer.text)))
    (htext : ∀ x s, text' x = some s → s = text x) (t : BinaryTree α) :
    (depthFirst passes text' right t).map (Option.map Buffer.text) =
      some (joined (texts passes text t)) ↔ Fine passes text' unchecked t := by
  constructor
  · intro h
    by_contra hn
    rw [(depthFirst_eq hright htext t).2 hn] at h
    cases h
  · intro h
    obtain ⟨m, hm, htext⟩ := (depthFirst_eq hright htext t).1 h
    rw [hm, Option.map_some, htext]

end Trees

theorem addRight_cases (message submsg : Option Buffer) :
    (True ∧ message = none ∧ submsg ≠ none → addRight message submsg = none) ∧
    (¬ (True ∧ message = none ∧ submsg ≠ none) → ∃ m, addRight message submsg = some m ∧
      m.map Buffer.text = join (message.map Buffer.text) (submsg.map Buffer.text)) := by
  have h := addRight_eq message submsg
  rw [true_and]
  constructor
  · intro hbad
    rwa [if_pos hbad] at h
  · intro hbad
    rwa [if_neg hbad] at h

theorem botCmdDepthFirst_iff (item : BinaryTree Plugin) (filterPlugins : Bool) :
    (botCmdDepthFirst item filterPlugins).map (Option.map Buffer.text) =
      some (joined (texts (Plugin.passes filterPlugins) Plugin.key item)) ↔
      Joins (Plugin.passes filterPlugins) item := by
  have htext : ∀ (x : Plugin) s, some x.key = some s → s = x.key :=
    fun _ _ h ↦ (Option.some.inj h).symm
  rw [botCmdDepthFirst]
  refine (depthFirst_iff addRight_cases htext item).trans ⟨fun h ↦ h.2 trivial, fun h ↦ ⟨fun x _ _ ↦ Option.some_ne_none _, fun _ ↦ h⟩⟩

theorem sprintf_eq_some {text s : CString} (h : sprintf text = some s) : s = text := by
  rw [sprintf] at h
  split at h
  · exact (Option.some.inj h).symm
  · cases h

theorem botMailboxDepthFirst_iff (item : BinaryTree Mailbox) (server : Option ℕ) (filter : Bool) :
    (botMailboxDepthFirst item server filter).map (Option.map Buffer.text) =
      some (if server = none then none
        else joined (texts (Mailbox.passes filter) Mailbox.text item)) ↔
      (server ≠ none → Joins (Mailbox.passes filter) item ∧
        ∀ x ∈ item.inorder, x.passes filter = true → x.text.length < 256) := by
  rw [botMailboxDepthFirst]
  by_cases hserver : server = none
  · rw [if_pos hserver, if_pos hserver]
    exact ⟨fun _ h ↦ absurd hserver h, fun _ ↦ rfl⟩
  rw [if_neg hserver, if_neg hserver]
  have htext : ∀ (x : Mailbox) s, sprintf x.text = some s → s = x.text :=
    fun _ _ ↦ sprintf_eq_some
  have hfits : ∀ x : Mailbox, sprintf x.text ≠ none ↔ x.text.length < 256 := by
    intro x
    rw [sprintf]
    split <;> simp_all
  refine (depthFirst_iff addRight_cases htext item).trans ⟨fun h _ ↦ ⟨h.2 trivial, fun x hx hp ↦ (hfits x).mp (h.1 x hx hp)⟩, fun h ↦ ?_⟩
  obtain ⟨hjoins, hshort⟩ := h hserver
  exact ⟨fun x hx hp ↦ (hfits x).mpr (hshort x hx hp), fun _ ↦ hjoins⟩

theorem botRssfeedDepthFirst_iff (item : BinaryTree RssFeed) (server channel : Option ℕ)
    (filter : Bool) :
    (botRssfeedDepthFirst item server channel filter).map (Option.map Buffer.text) =
      some (server.bind fun server ↦ joined
        (texts (RssFeed.passes server channel filter) (fun x ↦ (x.text channel).getD []) item)) ↔
      ∀ server', server = some server' → channel = none →
        ∀ x ∈ item.inorder, x.passes server' channel filter = true → x.channel ≠ none := by
  cases server with
  | none => exact ⟨fun _ _ h ↦ (by cases h), fun _ ↦ rfl⟩
  | some server =>
      have hright : ∀ message submsg,
          (False ∧ message = none ∧ submsg ≠ none → addRightChecked message submsg = none) ∧
          (¬ (False ∧ message = none ∧ submsg ≠ none) → ∃ m, addRightChecked message submsg = some m ∧
            m.map Buffer.text = join (message.map Buffer.text) (submsg.map Buffer.text)) :=
        fun message submsg ↦ ⟨fun h ↦ h.1.elim, fun _ ↦ addRightChecked_eq message submsg⟩
      have htext : ∀ (x : RssFeed) s, x.text channel = some s → s = (x.text channel).getD [] := by
        intro x s h
        rw [h, Option.getD_some]
      have hfits : ∀ x : RssFeed, x.text channel ≠ none ↔ (channel = none → x.channel ≠ none) := by
        intro x
        rw [RssFeed.text]
        by_cases hc : channel = none
        · rw [if_pos hc, ne_eq, Option.map_eq_none_iff]
          exact ⟨fun h _ ↦ h, fun h ↦ h hc⟩
        · rw [if_neg hc]
          exact ⟨fun _ h ↦ absurd h hc, fun _ ↦ Option.some_ne_none _⟩
      refine (depthFirst_iff hright htext item).trans ⟨?_, fun h ↦ ⟨fun x hx hp ↦ (hfits x).mpr
        fun hc ↦ h server rfl hc x hx hp, fun h ↦ h.elim⟩⟩
      rintro ⟨h, -⟩ server' hs hc x hx hp
      obtain rfl := Option.some.inj hs
      exact (hfits x).mp (h x hx hp) hc

/-- The lists are those of what passes, in order, and no string where nothing does:
exactly for the trees that have something to the left of a node that does not pass where
they have something to its right, and texts of mailboxes that fit `buf`; for the feeds,
which are tested for, exactly where there are the channels whose names are shown. -/
theorem lists_iff (plugins : BinaryTree Plugin) (mailboxes : BinaryTree Mailbox)
    (feeds : BinaryTree RssFeed) (server channel : Option ℕ) (filter : Bool) :
    ((botCmdDepthFirst plugins filter).map (Option.map Buffer.text) =
      some (joined (texts (Plugin.passes filter) Plugin.key plugins)) ↔
      Joins (Plugin.passes filter) plugins) ∧
    ((botMailboxDepthFirst mailboxes server filter).map (Option.map Buffer.text) =
      some (if server = none then none
        else joined (texts (Mailbox.passes filter) Mailbox.text mailboxes)) ↔
      (server ≠ none → Joins (Mailbox.passes filter) mailboxes ∧
        ∀ x ∈ mailboxes.inorder, x.passes filter = true → x.text.length < 256)) ∧
    ((botRssfeedDepthFirst feeds server channel filter).map (Option.map Buffer.text) =
      some (server.bind fun server ↦ joined
        (texts (RssFeed.passes server channel filter) (fun x ↦ (x.text channel).getD []) feeds)) ↔
      ∀ server', server = some server' → channel = none →
        ∀ x ∈ feeds.inorder, x.passes server' channel filter = true → x.channel ≠ none) :=
  ⟨botCmdDepthFirst_iff plugins filter, botMailboxDepthFirst_iff mailboxes server filter,
    botRssfeedDepthFirst_iff feeds server channel filter⟩

/-- The plugin at the root is not loaded, and there is a loaded one to its right only. -/
theorem not_lists : botCmdDepthFirst (.node ⟨"lua".toList, false⟩ .nil
    (.node ⟨"rssfeed".toList, true⟩ .nil .nil)) true = none := by
  rfl

end Beirdobot.DepthFirst
