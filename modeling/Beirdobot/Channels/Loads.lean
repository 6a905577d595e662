import Beirdobot.Channels.Spec

/-!
# Loading channels

What `resultLoadChannels` does with its rows: one turn of the loop fills in the record
with the number of the row, or a new one, and puts it in its place in the trees, as
long as no other channel there has the name.
-/

namespace Beirdobot.Channels

open Library BTree

variable {ι : Type}

/-- The channels that are in the trees: all of the list but the one that the form just
added. -/
def placed (mem : ι → IRCChannel) (l : List ι) : List ι := l.filter fun x ↦ !(mem x).justAdded

theorem mem_placed {mem : ι → IRCChannel} {l : List ι} {x : ι} :
    x ∈ placed mem l ↔ x ∈ l ∧ (mem x).justAdded = false := by
  simp [placed]

/-- The list and the trees of a server, with a number of its own for each channel. -/
structure Shape (v : View ι) (locked : Bool) (l : List ι) : Prop where
  holding : Holding v.lists v.mem v.live locked l (placed v.mem l) (placed v.mem l)
  ids : ∀ x ∈ l, ∀ y ∈ l, (v.mem x).channelId = (v.mem y).channelId → x = y

theorem Shape.channels {v : View ι} {locked : Bool} {l : List ι} (h : Shape v locked l) :
    v.channels = l := by
  obtain ⟨ls, hls, hl, -⟩ := h.holding.lists
  simpa [Server.channels, hls] using hl

theorem placed_congr {mem mem' : ι → IRCChannel} {l : List ι}
    (h : ∀ x ∈ l, (mem' x).justAdded = (mem x).justAdded) : placed mem' l = placed mem l :=
  List.filter_congr fun x hx ↦ by rw [h x hx]

/-- Records can change what their place does not depend on. -/
theorem Shape.of_mem {v v' : View ι} {locked : Bool} {l : List ι} (h : Shape v locked l)
    (hlists : v'.lists = v.lists) (hlive : v'.live = v.live)
    (hmem : ∀ x ∈ l, (v'.mem x).channel = (v.mem x).channel ∧
      (v'.mem x).channelId = (v.mem x).channelId ∧
      (v'.mem x).justAdded = (v.mem x).justAdded) : Shape v' locked l where
  holding := by
    rw [hlists, hlive, placed_congr fun x hx ↦ (hmem x hx).2.2]
    exact h.holding.of_mem (fun x hx ↦ by rw [(hmem x (mem_placed.mp hx).1).1])
      fun x hx ↦ (hmem x (mem_placed.mp hx).1).2.1
  ids x hx y hy he := h.ids x hx y hy (by rw [← (hmem x hx).2.1, ← (hmem y hy).2.1, he])

section Modify

variable [DecidableEq ι] (v : View ι) (x : ι) (f : IRCChannel → IRCChannel)

@[simp] theorem modify_mem_self : (v.modify x f).mem x = f (v.mem x) :=
  Function.update_self ..

theorem modify_mem_of_ne {y : ι} (h : y ≠ x) : (v.modify x f).mem y = v.mem y :=
  Function.update_of_ne h ..

@[simp] theorem modify_lists : (v.modify x f).lists = v.lists := rfl
@[simp] theorem modify_live : (v.modify x f).live = v.live := rfl
@[simp] theorem modify_self : (v.modify x f).self = v.self := rfl
@[simp] theorem modify_toSettings : (v.modify x f).toSettings = v.toSettings := rfl
@[simp] theorem modify_regexpList : (v.modify x f).regexpList = v.regexpList := rfl
@[simp] theorem modify_sent : (v.modify x f).sent = v.sent := rfl
@[simp] theorem modify_fullSpec (channel : CString) :
    (v.modify x f).fullSpec channel = v.fullSpec channel := rfl

end Modify

section Turn

variable [DecidableEq ι] {malloc : List ι → ι} {compiles : CString → Bool} {v : View ι}
  {l names nums : List ι} {x : ι} {row : Row}

/-! ## One channel -/

/-- What a channel that was `old` is left for when its row comes. -/
def leaves (v : View ι) (old : IRCChannel) (row : Row) : Prop :=
  v.fullSpec row.channel ≠ old.fullspec ∨
    ((old.enabled || old.enabledChanged) && !row.enabled) = true

instance (v : View ι) (old : IRCChannel) (row : Row) : Decidable (leaves v old row) :=
  inferInstanceAs (Decidable (_ ∨ _))

/-- A channel whose row was filled in has the `fullspec` of its new name; it gets a new
entry if it was left. -/
theorem respecify_eq (compiles : CString → Bool) (v : View ι) (x : ι) (old : IRCChannel) (row : Row)
    (hx : v.mem x = fillIn v.self true old row) :
    ∃ sent joined newChannel, respecify compiles v x old = { v with
      mem := Function.update v.mem x { v.mem x with
        fullspec := v.fullSpec row.channel, joined, newChannel }
      sent
      regexpList := if leaves v old row ∧ row.enabled = true
        then regexpAdd compiles v.regexpList (botCmd v.nick (v.fullSpec row.channel))
        else v.regexpList } := by
  have hchannel : (v.mem x).channel = row.channel := by rw [hx]; rfl
  have hfull : (v.mem x).fullspec = old.fullspec := by rw [hx]; rfl
  have henabled : (v.mem x).enabled = row.enabled := by rw [hx]; rfl
  have hchanged : (v.mem x).enabledChanged = old.enabledChanged := by rw [hx]; rfl
  by_cases hl : leaves v old row
  · have hl' : v.fullSpec row.channel ≠ old.fullspec ∨
        ((old.enabled || old.enabledChanged) && !row.enabled) = true := hl
    refine ⟨v.sent ++ [.part old.channel], false, true, ?_⟩
    rw [respecify, hchannel, hfull, henabled, hchanged, if_pos hl']
    cases he : row.enabled with
    | true =>
        simp [channelLeave, View.modify, regexpBotCmdAdd, henabled, he, hl]
    | false =>
        simp [channelLeave, View.modify, henabled, he]
  · have hl' : ¬ (v.fullSpec row.channel ≠ old.fullspec ∨
        ((old.enabled || old.enabledChanged) && !row.enabled) = true) := hl
    have hspec : v.fullSpec row.channel = old.fullspec := by
      by_contra hne
      exact hl (.inl hne)
    refine ⟨v.sent, (v.mem x).joined, (v.mem x).newChannel, ?_⟩
    rw [respecify, hchannel, hfull, henabled, hchanged, if_neg hl', if_neg fun h ↦ hl h.1, hspec,
      ← hfull]
    simp

theorem rename_eq {mem : ι → IRCChannel} (h : Holding v.lists mem v.live true l names nums)
    (hx : x ∈ names) (hmem : ∀ y, y ≠ x → v.mem y = mem y)
    (hid : (v.mem x).channelId = (mem x).channelId) (hj : (v.mem x).justAdded = false)
    (hkey : ∀ y ∈ names, y ≠ x → caseless (mem y).channel ≠ caseless (v.mem x).channel) :
    ∃ lists, rename v x (mem x).channel = some { v with lists := some lists } ∧
      Holding (some lists) v.mem v.live true l names nums := by
  have hids : ∀ y ∈ nums, (v.mem y).channelId = (mem y).channelId := by
    intro y _
    by_cases hyx : y = x
    · rw [hyx, hid]
    · rw [hmem y hyx]
  have hnames : ∀ y ∈ names, y ≠ x → caseless (v.mem y).channel = caseless (mem y).channel :=
    fun y _ hyx ↦ by rw [hmem y hyx]
  by_cases hc : (mem x).channel = (v.mem x).channel
  · have hsame : ∀ y ∈ names, caseless (v.mem y).channel = caseless (mem y).channel := by
      intro y hy
      by_cases hyx : y = x
      · rw [hyx, hc]
      · exact hnames y hy hyx
    obtain ⟨ls, hls, -⟩ := h.lists
    refine ⟨ls, ?_, hls ▸ h.of_mem hsame hids⟩
    rw [rename, if_neg (by simp [hc]), ← hls]
  · obtain ⟨ls₁, he₁, h₁⟩ := removeName_eq h hx hnames hids
    have hout : ∀ y ∈ names.erase x, y ≠ x ∧ y ∈ names :=
      fun y hy ↦ h.nodup_names.mem_erase_iff.mp hy
    obtain ⟨ls₂, he₂, h₂⟩ := addName_eq (v := { v with lists := some ls₁ }) h₁
      (h.live_names x hx) (fun hx ↦ (hout x hx).1 rfl) fun y hy ↦ by
        obtain ⟨hyx, hy⟩ := hout y hy
        rw [hnames y hy hyx]
        exact hkey y hy hyx
    refine ⟨ls₂, ?_, h₂.perm (List.perm_cons_erase hx).symm (.refl _)⟩
    rw [rename, if_pos ⟨hc, hj⟩, Option.bind_eq_bind, he₁]
    exact he₂

/-- A channel that is in neither tree is put in both; it goes to the end of the list
unless it is there. -/
theorem enlist_eq (compiles : CString → Bool) (h : Holding v.lists v.mem v.live true l names nums) (hlive : x ∈ v.live)
    (hx : x ∉ names) (hx' : x ∉ nums)
    (hkey : ∀ y ∈ names, caseless (v.mem y).channel ≠ caseless (v.mem x).channel)
    (hid : ∀ y ∈ nums, (v.mem y).channelId ≠ (v.mem x).channelId)
    (hj : (v.mem x).justAdded = false → x ∉ l) :
    ∃ lists, enlist compiles v x = some { v with
        lists := some lists
        regexpList := if v.enabled
          then regexpAdd compiles v.regexpList (botCmd v.nick (v.mem x).fullspec)
          else v.regexpList } ∧
      Holding (some lists) v.mem v.live true (if (v.mem x).justAdded then l else l ++ [x])
        (x :: names) (x :: nums) := by
  obtain ⟨ls₁, he₁, h₁⟩ := addName_eq h hlive hx hkey
  obtain ⟨ls₂, he₂, h₂⟩ := addNum_eq (v := { v with lists := some ls₁ }) h₁ hlive hx' hid
  let ls₃ : Lists ι :=
    if (v.mem x).justAdded then ls₂ else { ls₂ with channels := ls₂.channels ++ [x] }
  have he : enlist compiles v x = some { v with
      lists := some ls₃
      regexpList := if v.enabled
        then regexpAdd compiles v.regexpList (botCmd v.nick (v.mem x).fullspec)
        else v.regexpList } := by
    simp only [enlist, he₁, Option.bind_eq_bind, Option.bind_some, he₂, View.onLists]
    cases henabled : v.enabled <;> simp [regexpBotCmdAdd, ls₃]
  refine ⟨ls₃, he, ?_⟩
  obtain ⟨ls, hls, hl, hmn, hmm, hname, hnum⟩ := h₂.lists
  cases hls
  cases hja : (v.mem x).justAdded with
  | true =>
      rw [if_pos rfl, show ls₃ = ls₂ by simp [ls₃, hja]]
      exact h₂
  | false =>
      rw [if_neg (by decide),
        show ls₃ = { ls₂ with channels := ls₂.channels ++ [x] } by simp [ls₃, hja]]
      refine ⟨⟨_, rfl, by rw [hl], hmn, hmm, hname, hnum⟩, ?_, ?_, h₂.live_names, h₂.live_nums⟩
      · exact List.nodup_append.mpr ⟨h.nodup, by simp, fun y hy z hz hyz ↦
          hj hja (by rw [← List.mem_singleton.mp hz, ← hyz]; exact hy)⟩
      · intro y hy
        rcases List.mem_append.mp hy with hy | hy
        · exact h.live_list y hy
        · rw [List.mem_singleton.mp hy]
          exact hlive

/-! ## One row -/

/-- The record of a channel after its row. -/
def loadedRecord (v : View ι) (row : Row) (joined newChannel : Bool) : IRCChannel :=
  { channelId := row.channelId, channel := row.channel, fullspec := v.fullSpec row.channel
    server := some v.self, oldServer := some v.self, joined, visited := true
    enabled := row.enabled, oldEnabled := row.enabled, enabledChanged := false, newChannel
    justAdded := false }

/-- `regexpList` after a row, given the record that it found. -/
def turnRegexps (compiles : CString → Bool) (v : View ι) (old : Option IRCChannel) (row : Row) :
    List Regexp :=
  let add (l : List Regexp) := regexpAdd compiles l (botCmd v.nick (v.fullSpec row.channel))
  match old with
  | none => if v.enabled then add v.regexpList else v.regexpList
  | some old =>
      let l := if leaves v old row ∧ row.enabled = true then add v.regexpList else v.regexpList
      if old.justAdded && v.enabled then add l else l

/-- What a turn of the loop does: `x` is the record of the row, and the only one that
changes. -/
structure Turn (compiles : CString → Bool) (v v' : View ι) (l : List ι) (row : Row) (x : ι) :
    Prop where
  shape : Shape v' true (if x ∈ l then l else l ++ [x])
  found : x ∈ l → (v.mem x).channelId = row.channelId
  new : x ∉ l → ∀ y ∈ l, (v.mem y).channelId ≠ row.channelId
  record : ∃ joined newChannel, v'.mem x = loadedRecord v row joined newChannel
  rest : ∀ y, y ≠ x → v'.mem y = v.mem y
  settings : v'.toSettings = v.toSettings
  self : v'.self = v.self
  regexps : v'.regexpList = turnRegexps compiles v (if x ∈ l then some (v.mem x) else none) row

theorem loadChannel_found (h : Shape v true l) (hx : x ∈ l)
    (hid : (v.mem x).channelId = row.channelId) :
    loadChannel malloc compiles v row = (do
      let old := v.mem x
      let v := v.modify x fun channel ↦ fillIn v.self true channel row
      let v := respecify compiles v x old
      let v ← rename v x old.channel
      let v := settle v x
      let v ← enlistAdded compiles v x
      some (v.modify x fun channel ↦ { channel with justAdded := false })) := by
  have hfind : v.channels.find? (fun x ↦ (v.mem x).channelId == row.channelId) = some x := by
    rw [h.channels]
    cases hfind : l.find? fun x ↦ (v.mem x).channelId == row.channelId with
    | none => exact absurd hid (by simpa using List.find?_eq_none.mp hfind x hx)
    | some y =>
        have hy : (v.mem y).channelId = row.channelId := by simpa using List.find?_some hfind
        rw [h.ids y (List.mem_of_find?_eq_some hfind) x hx (hy.trans hid.symm)]
  rw [loadChannel, hfind]

/-- The record `x` of a turn has the number of the row, and no other on the list has. -/
theorem ids_of_turn {v' : View ι} (h : Shape v true l)
    (hfound : x ∈ l → (v.mem x).channelId = row.channelId)
    (hnew : x ∉ l → ∀ y ∈ l, (v.mem y).channelId ≠ row.channelId)
    (hid : (v'.mem x).channelId = row.channelId) (hrest : ∀ y, y ≠ x → v'.mem y = v.mem y) :
    ∀ y ∈ (if x ∈ l then l else l ++ [x]), ∀ z ∈ (if x ∈ l then l else l ++ [x]),
      (v'.mem y).channelId = (v'.mem z).channelId → y = z := by
  have hmem : ∀ y ∈ (if x ∈ l then l else l ++ [x]), y ≠ x → y ∈ l := by
    intro y hy hyx
    split at hy
    · exact hy
    · exact (List.mem_append.mp hy).resolve_right fun hy ↦ hyx (List.mem_singleton.mp hy)
  have hother : ∀ y ∈ l, y ≠ x → (v.mem y).channelId ≠ row.channelId := by
    intro y hy hyx he
    by_cases hx : x ∈ l
    · exact hyx (h.ids y hy x hx (he.trans (hfound hx).symm))
    · exact hnew hx y hy he
  intro y hy z hz he
  by_cases hyx : y = x
  · by_cases hzx : z = x
    · rw [hyx, hzx]
    · rw [hyx, hid, hrest z hzx] at he
      exact absurd he.symm (hother z (hmem z hz hzx) hzx)
  · rw [hrest y hyx] at he
    by_cases hzx : z = x
    · rw [hzx, hid] at he
      exact absurd he (hother y (hmem y hy hyx) hyx)
    · rw [hrest z hzx] at he
      exact h.ids y (hmem y hy hyx) z (hmem z hz hzx) he

/-- A channel of the trees is filled in, and moves to its new place by name. -/
theorem loadChannel_placed (h : Shape v true l) (hx : x ∈ l)
    (hid : (v.mem x).channelId = row.channelId) (hj : (v.mem x).justAdded = false)
    (hname : ∀ y ∈ placed v.mem l, (v.mem y).channelId ≠ row.channelId →
      caseless (v.mem y).channel ≠ caseless row.channel) :
    ∃ v', loadChannel malloc compiles v row = some v' ∧ Turn compiles v v' l row x := by
  let v₁ := v.modify x fun channel ↦ fillIn v.self true channel row
  have hv₁ : v₁.mem x = fillIn v₁.self true (v.mem x) row := modify_mem_self ..
  obtain ⟨sent, joined, newChannel, he₂⟩ := respecify_eq compiles v₁ x (v.mem x) row hv₁
  set v₂ := respecify compiles v₁ x (v.mem x)
  have hself : v₂.mem x = { loadedRecord v row joined newChannel with
      oldServer := (v.mem x).oldServer
      oldEnabled := (v.mem x).oldEnabled
      enabledChanged := (v.mem x).enabledChanged } := by
    rw [he₂, hv₁]
    simp only [Function.update_self, fillIn, hj]
    rfl
  have hrest : ∀ y, y ≠ x → v₂.mem y = v.mem y := by
    intro y hyx
    rw [he₂]
    show Function.update v₁.mem x _ y = v.mem y
    rw [Function.update_of_ne hyx]
    exact modify_mem_of_ne _ _ _ hyx
  have hxp : x ∈ placed v.mem l := mem_placed.mpr ⟨hx, hj⟩
  have hlists : v₂.lists = v.lists := by rw [he₂]; rfl
  have hlive : v₂.live = v.live := by rw [he₂]; rfl
  obtain ⟨ls, he₃, h₃⟩ := rename_eq (v := v₂) (hlists ▸ hlive ▸ h.holding) hxp hrest
    (by rw [hself, hid]; rfl) (by rw [hself]; rfl) (by
      intro y hy hyx
      rw [hself]
      refine hname y hy fun e ↦ hyx ?_
      exact h.ids y (mem_placed.mp hy).1 x hx (e.trans hid.symm))
  let v₃ : View ι := { v₂ with lists := some ls }
  let v' := (settle v₃ x).modify x fun channel ↦ { channel with justAdded := false }
  have hself' : v'.mem x = loadedRecord v row joined newChannel := by
    show ((settle v₃ x).modify x _).mem x = _
    rw [modify_mem_self, settle, modify_mem_self, show v₃.mem x = v₂.mem x from rfl, hself]
    rfl
  have hrest' : ∀ y, y ≠ x → v'.mem y = v.mem y := by
    intro y hyx
    show ((settle v₃ x).modify x _).mem y = _
    rw [modify_mem_of_ne _ _ _ hyx, settle, modify_mem_of_ne _ _ _ hyx]
    exact hrest y hyx
  have hja : ∀ y ∈ l, (v'.mem y).justAdded = (v.mem y).justAdded := by
    intro y _
    by_cases hyx : y = x
    · rw [hyx, hself', hj]
      rfl
    · rw [hrest' y hyx]
  refine ⟨v', ?_, ⟨⟨?_, ?_⟩, fun _ ↦ hid, fun hno ↦ absurd hx hno, ⟨_, _, hself'⟩, hrest', ?_, ?_, ?_⟩⟩
  · rw [loadChannel_found h hx hid]
    show ((rename v₂ x (v.mem x).channel).bind _) = _
    rw [he₃, Option.bind_some]
    have hjs : ((settle v₃ x).mem x).justAdded = false := by
      rw [settle, modify_mem_self, show v₃.mem x = v₂.mem x from rfl, hself]
      rfl
    show ((enlistAdded compiles (settle v₃ x) x).bind _) = _
    rw [enlistAdded, if_neg (by simp [hjs])]
    rfl
  · rw [if_pos hx, placed_congr hja]
    have hlists' : Holding (some ls) v₂.mem v₂.live true l (placed v.mem l) (placed v.mem l) := h₃
    refine hlists'.of_mem ?_ ?_
    · intro y _
      by_cases hyx : y = x
      · rw [hyx, hself', hself]
      · rw [hrest' y hyx, hrest y hyx]
    · intro y _
      by_cases hyx : y = x
      · rw [hyx, hself', hself]
      · rw [hrest' y hyx, hrest y hyx]
  · exact ids_of_turn h (fun _ ↦ hid) (fun hno ↦ absurd hx hno) (by rw [hself']; rfl) hrest'
  · show v₂.toSettings = v.toSettings
    rw [he₂]
    rfl
  · show v₂.self = v.self
    rw [he₂]
    rfl
  · show v₂.regexpList = _
    rw [he₂, if_pos hx, turnRegexps]
    simp only [hj, Bool.false_and, Bool.false_eq_true, if_false]
    rfl

omit [DecidableEq ι] in
/-- A channel that comes into the trees comes to those that were there. -/
theorem placed_insert {mem mem' : ι → IRCChannel} {l l' : List ι} (hl : l.Nodup)
    (hl' : l'.Nodup) (hx : x ∉ placed mem l) (hmem : ∀ y, y ∈ l' ↔ y = x ∨ y ∈ l)
    (hj : (mem' x).justAdded = false) (hrest : ∀ y, y ≠ x → mem' y = mem y) :
    (x :: placed mem l).Perm (placed mem' l') := by
  refine (List.perm_ext_iff_of_nodup (List.nodup_cons.mpr ⟨hx, hl.filter _⟩)
    (hl'.filter _)).mpr fun y ↦ ?_
  show y ∈ x :: placed mem l ↔ y ∈ placed mem' l'
  rw [List.mem_cons, mem_placed, mem_placed, hmem]
  by_cases hyx : y = x
  · simp [hyx, hj]
  · simp [hyx, hrest y hyx]

/-- The channel that the form just added comes into the trees. -/
theorem loadChannel_added (h : Shape v true l) (hx : x ∈ l)
    (hid : (v.mem x).channelId = row.channelId) (hj : (v.mem x).justAdded = true)
    (hname : ∀ y ∈ placed v.mem l, (v.mem y).channelId ≠ row.channelId →
      caseless (v.mem y).channel ≠ caseless row.channel) :
    ∃ v', loadChannel malloc compiles v row = some v' ∧ Turn compiles v v' l row x := by
  let v₁ := v.modify x fun channel ↦ fillIn v.self true channel row
  have hv₁ : v₁.mem x = fillIn v₁.self true (v.mem x) row := modify_mem_self ..
  obtain ⟨sent, joined, newChannel, he₂⟩ := respecify_eq compiles v₁ x (v.mem x) row hv₁
  set v₂ := respecify compiles v₁ x (v.mem x)
  let v₃ := settle v₂ x
  have hself : v₃.mem x = { loadedRecord v row joined newChannel with justAdded := true } := by
    show (settle v₂ x).mem x = _
    rw [settle, modify_mem_self, he₂, hv₁]
    simp only [Function.update_self, fillIn, hj]
    rfl
  have hrest : ∀ y, y ≠ x → v₃.mem y = v.mem y := by
    intro y hyx
    show (settle v₂ x).mem y = _
    rw [settle, modify_mem_of_ne _ _ _ hyx, he₂]
    show Function.update v₁.mem x _ y = v.mem y
    rw [Function.update_of_ne hyx]
    exact modify_mem_of_ne _ _ _ hyx
  have hlists : v₃.lists = v.lists := by
    show v₂.lists = v.lists
    rw [he₂]
    rfl
  have hlive : v₃.live = v.live := by
    show v₂.live = v.live
    rw [he₂]
    rfl
  have hxp : x ∉ placed v.mem l := fun hxp ↦ by simp [(mem_placed.mp hxp).2] at hj
  have hne : ∀ y ∈ placed v.mem l, y ≠ x := fun y hy e ↦ hxp (e ▸ hy)
  have hids : ∀ y ∈ placed v.mem l, (v.mem y).channelId ≠ row.channelId := fun y hy e ↦
    hne y hy (h.ids y (mem_placed.mp hy).1 x hx (e.trans hid.symm))
  have h₃ : Holding v₃.lists v₃.mem v₃.live true l (placed v.mem l) (placed v.mem l) := by
    rw [hlists, hlive]
    exact h.holding.of_mem (fun y hy ↦ by rw [hrest y (hne y hy)])
      fun y hy ↦ by rw [hrest y (hne y hy)]
  obtain ⟨ls, he₄, h₄⟩ := enlist_eq compiles h₃ (x := x)
    (hlive ▸ h.holding.live_list x hx) hxp hxp
    (fun y hy ↦ by rw [hrest y (hne y hy), hself]; exact hname y hy (hids y hy))
    (fun y hy ↦ by rw [hrest y (hne y hy), hself]; exact hids y hy)
    (by rw [hself]; nofun)
  have hjs : (v₃.mem x).justAdded = true := by rw [hself]
  rw [if_pos hjs] at h₄
  let v₄ : View ι := { v₃ with
    lists := some ls
    regexpList := if v₃.enabled
      then regexpAdd compiles v₃.regexpList (botCmd v₃.nick (v₃.mem x).fullspec)
      else v₃.regexpList }
  let v' := v₄.modify x fun channel ↦ { channel with justAdded := false }
  have hself' : v'.mem x = loadedRecord v row joined newChannel := by
    show (v₄.modify x _).mem x = _
    rw [modify_mem_self, show v₄.mem x = v₃.mem x from rfl, hself]
    rfl
  have hrest' : ∀ y, y ≠ x → v'.mem y = v.mem y := fun y hyx ↦
    (modify_mem_of_ne _ _ _ hyx).trans (hrest y hyx)
  have hperm : (x :: placed v.mem l).Perm (placed v'.mem l) :=
    placed_insert h.holding.nodup h.holding.nodup hxp
      (fun y ↦ ⟨.inr, fun hy ↦ hy.elim (fun e ↦ e ▸ hx) id⟩) (by rw [hself']; rfl) hrest'
  have hkeys : ∀ y, (v'.mem y).channel = (v₃.mem y).channel ∧
      (v'.mem y).channelId = (v₃.mem y).channelId := by
    intro y
    by_cases hyx : y = x
    · rw [hyx, hself', hself]
      exact ⟨rfl, rfl⟩
    · rw [hrest' y hyx, hrest y hyx]
      exact ⟨rfl, rfl⟩
  refine ⟨v', ?_, ⟨⟨?_, ?_⟩, fun _ ↦ hid, fun hno ↦ absurd hx hno, ⟨_, _, hself'⟩, hrest', ?_, ?_, ?_⟩⟩
  · rw [loadChannel_found h hx hid]
    have hj₂ : (v₂.mem x).justAdded = true := by
      rw [he₂, hv₁]
      simpa [fillIn] using hj
    show ((rename v₂ x (v.mem x).channel).bind _) = _
    rw [rename, if_neg (by simp [hj₂]), Option.bind_some]
    show ((enlistAdded compiles v₃ x).bind _) = _
    rw [enlistAdded, if_pos hjs, he₄]
    rfl
  · rw [if_pos hx]
    refine Holding.perm ?_ hperm hperm
    exact h₄.of_mem (fun y _ ↦ by rw [(hkeys y).1]) fun y _ ↦ (hkeys y).2
  · exact ids_of_turn h (fun _ ↦ hid) (fun hno ↦ absurd hx hno) (by rw [hself']; rfl) hrest'
  · show v₂.toSettings = v.toSettings
    rw [he₂]
    rfl
  · show v₂.self = v.self
    rw [he₂]
    rfl
  · show (if v₂.enabled then regexpAdd compiles v₂.regexpList (botCmd v₂.nick (v₃.mem x).fullspec)
      else v₂.regexpList) = _
    rw [hself, he₂, if_pos hx, turnRegexps]
    simp only [hj, Bool.true_and]
    rfl

/-- A row with a new number makes a new channel. -/
theorem loadChannel_new (hmalloc : ∀ l, malloc l ∉ l) (h : Shape v true l)
    (hid : ∀ y ∈ l, (v.mem y).channelId ≠ row.channelId)
    (hname : ∀ y ∈ placed v.mem l, (v.mem y).channelId ≠ row.channelId →
      caseless (v.mem y).channel ≠ caseless row.channel) :
    ∃ v', loadChannel malloc compiles v row = some v' ∧
      Turn compiles v v' l row (malloc v.live) := by
  have hfind : v.channels.find? (fun x ↦ (v.mem x).channelId == row.channelId) = none := by
    rw [h.channels]
    simpa using hid
  let x := malloc v.live
  have hx : x ∉ l := fun hx ↦ hmalloc v.live (h.holding.live_list x hx)
  let v₁ : View ι := { v with live := x :: v.live }
  let v₂ := v₁.modify x fun _ ↦ fillIn v₁.self false .cleared row
  let v₃ := v₂.modify x fun channel ↦ { channel with fullspec := v₂.fullSpec channel.channel }
  let v₄ := settle v₃ x
  have hself : v₄.mem x = loadedRecord v row false true := by
    show (settle v₃ x).mem x = _
    rw [settle, modify_mem_self, show v₃.mem x = _ from modify_mem_self ..,
      show v₂.mem x = _ from modify_mem_self ..]
    rfl
  have hrest : ∀ y, y ≠ x → v₄.mem y = v.mem y := by
    intro y hyx
    show (settle v₃ x).mem y = _
    rw [settle, modify_mem_of_ne _ _ _ hyx, show v₃.mem y = _ from modify_mem_of_ne _ _ _ hyx]
    exact modify_mem_of_ne _ _ _ hyx
  have hxp : x ∉ placed v.mem l := fun hxp ↦ hx (mem_placed.mp hxp).1
  have hne : ∀ y ∈ placed v.mem l, y ≠ x := fun y hy e ↦ hxp (e ▸ hy)
  have hids : ∀ y ∈ placed v.mem l, (v.mem y).channelId ≠ row.channelId := fun y hy ↦
    hid y (mem_placed.mp hy).1
  have h₄ : Holding v₄.lists v₄.mem v₄.live true l (placed v.mem l) (placed v.mem l) := by
    have hlive : ∀ y ∈ v.live, y ∈ v₄.live := fun y hy ↦ List.mem_cons_of_mem _ hy
    refine (h.holding.of_live hlive).of_mem ?_ ?_
    · intro y hy
      rw [hrest y (hne y hy)]
    · intro y hy
      rw [hrest y (hne y hy)]
  obtain ⟨ls, he₅, h₅⟩ := enlist_eq compiles h₄ (x := x) List.mem_cons_self hxp hxp
    (fun y hy ↦ by rw [hrest y (hne y hy), hself]; exact hname y hy (hids y hy))
    (fun y hy ↦ by rw [hrest y (hne y hy), hself]; exact hids y hy)
    (fun _ ↦ hx)
  have hjs : (v₄.mem x).justAdded = false := by rw [hself]; rfl
  rw [if_neg (by simp [hjs])] at h₅
  have hperm : (x :: placed v.mem l).Perm (placed v₄.mem (l ++ [x])) :=
    placed_insert h.holding.nodup h₅.nodup hxp (fun y ↦ by simp [or_comm]) hjs hrest
  let v' : View ι := { v₄ with
    lists := some ls
    regexpList := if v₄.enabled
      then regexpAdd compiles v₄.regexpList (botCmd v₄.nick (v₄.mem x).fullspec)
      else v₄.regexpList }
  refine ⟨v', ?_, ⟨⟨?_, ?_⟩, fun hx' ↦ absurd hx' hx, fun _ ↦ hid, ⟨_, _, hself⟩, hrest, rfl, rfl, ?_⟩⟩
  · rw [loadChannel, hfind]
    exact he₅
  · rw [if_neg hx]
    exact h₅.perm hperm hperm
  · exact ids_of_turn h (fun hx' ↦ absurd hx' hx) (fun _ ↦ hid) (by rw [hself]; rfl) hrest
  · show (if v.enabled then regexpAdd compiles v.regexpList (botCmd v.nick (v₄.mem x).fullspec)
      else v.regexpList) = _
    rw [hself, if_neg hx, turnRegexps]
    rfl

/-- A turn of the loop succeeds if no other channel of the trees has the name of the
row. -/
theorem loadChannel_eq (compiles : CString → Bool) (hmalloc : ∀ l, malloc l ∉ l)
    (h : Shape v true l) (row : Row)
    (hname : ∀ y ∈ placed v.mem l, (v.mem y).channelId ≠ row.channelId →
      caseless (v.mem y).channel ≠ caseless row.channel) :
    ∃ v' x, loadChannel malloc compiles v row = some v' ∧ Turn compiles v v' l row x := by
  by_cases hid : ∃ x ∈ l, (v.mem x).channelId = row.channelId
  · obtain ⟨x, hx, hid⟩ := hid
    cases hj : (v.mem x).justAdded with
    | false =>
        obtain ⟨v', he, ht⟩ := loadChannel_placed h hx hid hj hname
        exact ⟨v', x, he, ht⟩
    | true =>
        obtain ⟨v', he, ht⟩ := loadChannel_added h hx hid hj hname
        exact ⟨v', x, he, ht⟩
  · push Not at hid
    obtain ⟨v', he, ht⟩ := loadChannel_new hmalloc h hid hname
    exact ⟨v', _, he, ht⟩

end Turn

end Beirdobot.Channels
