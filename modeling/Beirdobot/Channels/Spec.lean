import Beirdobot.BTree.Stores
import Beirdobot.Channels.Model

/-!
# The list and the two trees of a server

What each operation on the three does, stated on which channels each of them holds
(`Holding`).  The trees are ordered by what is in the records, so a record can only
change together with its place in them.
-/

namespace Beirdobot.Channels

open Library BTree

variable {ι : Type}

/-- The list has the channels `l` and the trees those of `names` and `nums`, in the order
of their keys; all of them are in memory. -/
structure Holding (lists : Option (Lists ι)) (mem : ι → IRCChannel) (live : List ι)
    (locked : Bool) (l names nums : List ι) : Prop where
  lists : ∃ ls, lists = some ls ∧ ls.channels = l ∧
    ls.channelName.mutex = locked ∧ ls.channelNum.mutex = locked ∧
    Stores keyCompareString (nameTree mem ls.channelName) names ∧
    Stores keyCompareInt (numTree mem ls.channelNum) nums
  nodup : l.Nodup
  live_list : ∀ x ∈ l, x ∈ live
  live_names : ∀ x ∈ names, x ∈ live
  live_nums : ∀ x ∈ nums, x ∈ live

namespace Holding

variable {lists : Option (Lists ι)} {mem mem' : ι → IRCChannel} {live live' : List ι}
  {locked : Bool} {l names nums names' nums' : List ι}

theorem nodup_names (h : Holding lists mem live locked l names nums) : names.Nodup := by
  obtain ⟨ls, -, -, -, -, hname, -⟩ := h.lists
  exact hname.nodup

theorem nodup_nums (h : Holding lists mem live locked l names nums) : nums.Nodup := by
  obtain ⟨ls, -, -, -, -, -, hnum⟩ := h.lists
  exact hnum.nodup

theorem name_inj (h : Holding lists mem live locked l names nums) {x y : ι} (hx : x ∈ names)
    (hy : y ∈ names) (he : caseless (mem x).channel = caseless (mem y).channel) : x = y := by
  obtain ⟨ls, -, -, -, -, hname, -⟩ := h.lists
  exact hname.key_inj keyCompareString_strictTotal hx hy he

theorem num_inj (h : Holding lists mem live locked l names nums) {x y : ι} (hx : x ∈ nums)
    (hy : y ∈ nums) (he : (mem x).channelId = (mem y).channelId) : x = y := by
  obtain ⟨ls, -, -, -, -, -, hnum⟩ := h.lists
  exact hnum.key_inj keyCompareInt_strictTotal hx hy he

theorem perm (h : Holding lists mem live locked l names nums) (hn : names.Perm names')
    (hm : nums.Perm nums') : Holding lists mem live locked l names' nums' := by
  obtain ⟨ls, hls, hl, hmn, hmm, hname, hnum⟩ := h.lists
  exact ⟨⟨ls, hls, hl, hmn, hmm, hname.perm hn, hnum.perm hm⟩, h.nodup, h.live_list,
    fun x hx ↦ h.live_names x (hn.mem_iff.mpr hx), fun x hx ↦ h.live_nums x (hm.mem_iff.mpr hx)⟩

/-- Records can change what the trees are not ordered by. -/
theorem of_mem (h : Holding lists mem live locked l names nums)
    (hn : ∀ x ∈ names, caseless (mem' x).channel = caseless (mem x).channel)
    (hm : ∀ x ∈ nums, (mem' x).channelId = (mem x).channelId) :
    Holding lists mem' live locked l names nums := by
  obtain ⟨ls, hls, hl, hmn, hmm, hname, hnum⟩ := h.lists
  exact ⟨⟨ls, hls, hl, hmn, hmm, hname.congr_key rfl rfl rfl hn, hnum.congr_key rfl rfl rfl hm⟩,
    h.nodup, h.live_list, h.live_names, h.live_nums⟩

/-- More records can be in memory. -/
theorem of_live (h : Holding lists mem live locked l names nums) (hl : ∀ x ∈ live, x ∈ live') :
    Holding lists mem live' locked l names nums :=
  ⟨h.lists, h.nodup, fun x hx ↦ hl x (h.live_list x hx), fun x hx ↦ hl x (h.live_names x hx),
    fun x hx ↦ hl x (h.live_nums x hx)⟩

theorem length_names [DecidableEq ι] (h : Holding lists mem live locked l names nums) :
    names.length ≤ live.length :=
  (List.subperm_of_subset h.nodup_names h.live_names).length_le

theorem length_nums [DecidableEq ι] (h : Holding lists mem live locked l names nums) :
    nums.length ≤ live.length :=
  (List.subperm_of_subset h.nodup_nums h.live_nums).length_le

end Holding

/-! ## Locks -/

section Locks

variable {v : View ι} {l names nums : List ι}

theorem lock_eq (h : Holding v.lists v.mem v.live false l names nums) :
    ∃ lists, v.lock = some { v with lists := some lists } ∧ lists.channels = l ∧
      Holding (some lists) v.mem v.live true l names nums := by
  obtain ⟨ls, hls, hl, hmn, hmm, hname, hnum⟩ := h.lists
  let lists : Lists ι := { ls with
    channelName := { ls.channelName with mutex := true }
    channelNum := { ls.channelNum with mutex := true } }
  refine ⟨lists, ?_, hl, ⟨lists, rfl, hl, rfl, rfl, ?_, ?_⟩, h.nodup, h.live_list, h.live_names,
    h.live_nums⟩
  · simp [View.lock, View.onLists, hls, balancedBTreeLock, nameTree, numTree, hmn, hmm, lists,
      Items.ofTree]
  · exact hname.congr_key rfl rfl rfl fun _ _ ↦ rfl
  · exact hnum.congr_key rfl rfl rfl fun _ _ ↦ rfl

theorem unlock_eq {locked : Bool} (h : Holding v.lists v.mem v.live locked l names nums) :
    ∃ lists, v.unlock = some { v with lists := some lists } ∧
      Holding (some lists) v.mem v.live false l names nums := by
  obtain ⟨ls, hls, hl, hmn, hmm, hname, hnum⟩ := h.lists
  let lists : Lists ι := { ls with
    channelName := { ls.channelName with mutex := false }
    channelNum := { ls.channelNum with mutex := false } }
  refine ⟨lists, ?_, ⟨lists, rfl, hl, rfl, rfl, ?_, ?_⟩, h.nodup, h.live_list, h.live_names,
    h.live_nums⟩
  · simp [View.unlock, View.onLists, hls, balancedBTreeUnlock, nameTree, numTree, lists,
      Items.ofTree]
  · exact hname.congr_key rfl rfl rfl fun _ _ ↦ rfl
  · exact hnum.congr_key rfl rfl rfl fun _ _ ↦ rfl

end Locks

/-! ## Searching -/

section Searches

variable [DecidableEq ι] {lists : Lists ι} {mem : ι → IRCChannel} {live l names nums : List ι}
  {locked : Bool}

theorem findName_eq (h : Holding (some lists) mem live locked l names nums) (name : CString)
    (lock : Locked) (hlock : lock = .unlocked → locked = false) (fuel : ℕ)
    (hf : live.length ≤ fuel) :
    ∃ r, balancedBTreeFind keyCompareString fuel (nameTree mem lists.channelName)
        (some (caseless name)) lock = some (nameTree mem lists.channelName, r) ∧
      ∀ x, r = some x ↔ x ∈ names ∧ caseless (mem x).channel = caseless name := by
  have hlen := h.length_names
  obtain ⟨ls, hls, -, hmn, -, hname, -⟩ := h.lists
  cases hls
  exact hname.find keyCompareString_strictTotal (caseless name) lock
    (fun e ↦ hmn.trans (hlock e)) fuel (by omega)

theorem findNum_eq (h : Holding (some lists) mem live locked l names nums) (num : ℤ)
    (lock : Locked) (hlock : lock = .unlocked → locked = false) (fuel : ℕ)
    (hf : live.length ≤ fuel) :
    ∃ r, balancedBTreeFind keyCompareInt fuel (numTree mem lists.channelNum)
        (some num) lock = some (numTree mem lists.channelNum, r) ∧
      ∀ x, r = some x ↔ x ∈ nums ∧ (mem x).channelId = num := by
  have hlen := h.length_nums
  obtain ⟨ls, hls, -, -, hmm, -, hnum⟩ := h.lists
  cases hls
  exact hnum.find keyCompareInt_strictTotal num lock (fun e ↦ hmm.trans (hlock e)) fuel (by omega)

end Searches

/-! ## Edits -/

section Edits

variable [DecidableEq ι] {v : View ι} {mem : ι → IRCChannel} {l names nums : List ι}
  {locked : Bool} {x : ι}

theorem addName_eq (h : Holding v.lists v.mem v.live locked l names nums) (hlive : x ∈ v.live)
    (hx : x ∉ names)
    (hkey : ∀ y ∈ names, caseless (v.mem y).channel ≠ caseless (v.mem x).channel) :
    ∃ lists, v.addName x = some { v with lists := some lists } ∧
      Holding (some lists) v.mem v.live locked l (x :: names) nums := by
  have hlen := h.length_names
  obtain ⟨ls, hls, hl, hmn, hmm, hname, hnum⟩ := h.lists
  obtain ⟨p, he, hp⟩ := hname.add keyCompareString_strictTotal hx hkey .locked nofun false
    v.fuel (by simp only [Server.fuel]; omega)
  let lists : Lists ι := { ls with channelName := { p with
    owner := Function.update ls.channelName.owner x (some 0)
    mutex := ls.channelName.mutex } }
  refine ⟨lists, ?_, ⟨lists, rfl, hl, hmn, hmm, hp, hnum⟩, h.nodup, h.live_list, ?_, h.live_nums⟩
  · simp only [View.addName, View.onLists, hls, Option.bind_eq_bind, Option.bind_some, he]
    rfl
  · intro y hy
    rcases List.mem_cons.mp hy with rfl | hy
    · exact hlive
    · exact h.live_names y hy

theorem addNum_eq (h : Holding v.lists v.mem v.live locked l names nums) (hlive : x ∈ v.live)
    (hx : x ∉ nums) (hkey : ∀ y ∈ nums, (v.mem y).channelId ≠ (v.mem x).channelId) :
    ∃ lists, v.addNum x = some { v with lists := some lists } ∧
      Holding (some lists) v.mem v.live locked l names (x :: nums) := by
  have hlen := h.length_nums
  obtain ⟨ls, hls, hl, hmn, hmm, hname, hnum⟩ := h.lists
  obtain ⟨p, he, hp⟩ := hnum.add keyCompareInt_strictTotal hx hkey .locked nofun false
    v.fuel (by simp only [Server.fuel]; omega)
  let lists : Lists ι := { ls with channelNum := { p with
    owner := Function.update ls.channelNum.owner x (some 0)
    mutex := ls.channelNum.mutex } }
  refine ⟨lists, ?_, ⟨lists, rfl, hl, hmn, hmm, hname, hp⟩, h.nodup, h.live_list, h.live_names, ?_⟩
  · simp only [View.addNum, View.onLists, hls, Option.bind_eq_bind, Option.bind_some, he]
    rfl
  · intro y hy
    rcases List.mem_cons.mp hy with rfl | hy
    · exact hlive
    · exact h.live_nums y hy

/-- A channel is taken out of the tree of names also if its own name was changed under
the tree. -/
theorem removeName_eq (h : Holding v.lists mem v.live locked l names nums) (hx : x ∈ names)
    (hn : ∀ y ∈ names, y ≠ x → caseless (v.mem y).channel = caseless (mem y).channel)
    (hm : ∀ y ∈ nums, (v.mem y).channelId = (mem y).channelId) :
    ∃ lists, v.removeName x = some { v with lists := some lists } ∧
      Holding (some lists) v.mem v.live locked l (names.erase x) nums := by
  have hlen := h.length_names
  obtain ⟨ls, hls, hl, hmn, hmm, hname, hnum⟩ := h.lists
  obtain ⟨p, he, hp⟩ := hname.remove hx (nameTree v.mem ls.channelName).key hn .locked nofun false
    v.fuel (by simp only [Server.fuel]; omega)
  let lists : Lists ι := { ls with channelName := { p with
    owner := Function.update ls.channelName.owner x none
    mutex := ls.channelName.mutex } }
  refine ⟨lists, ?_, ⟨lists, rfl, hl, hmn, hmm, hp, hnum.congr_key rfl rfl rfl hm⟩, h.nodup,
    h.live_list, fun y hy ↦ h.live_names y (List.mem_of_mem_erase hy), h.live_nums⟩
  simp only [View.removeName, View.onLists, hls, Option.bind_eq_bind, Option.bind_some]
  rw [show nameTree v.mem ls.channelName = { nameTree mem ls.channelName with
    key := (nameTree v.mem ls.channelName).key } from rfl, he]
  rfl

theorem removeNum_eq (h : Holding v.lists v.mem v.live locked l names nums) (hx : x ∈ nums) :
    ∃ lists, v.removeNum x = some { v with lists := some lists } ∧
      Holding (some lists) v.mem v.live locked l names (nums.erase x) := by
  have hlen := h.length_nums
  obtain ⟨ls, hls, hl, hmn, hmm, hname, hnum⟩ := h.lists
  obtain ⟨p, he, hp⟩ := hnum.remove hx (numTree v.mem ls.channelNum).key (fun _ _ _ ↦ rfl) .locked
    nofun false v.fuel (by simp only [Server.fuel]; omega)
  let lists : Lists ι := { ls with channelNum := { p with
    owner := Function.update ls.channelNum.owner x none
    mutex := ls.channelNum.mutex } }
  refine ⟨lists, ?_, ⟨lists, rfl, hl, hmn, hmm, hname, hp⟩, h.nodup, h.live_list, h.live_names,
    fun y hy ↦ h.live_nums y (List.mem_of_mem_erase hy)⟩
  simp only [View.removeNum, View.onLists, hls, Option.bind_eq_bind, Option.bind_some]
  change ((balancedBTreeRemove v.fuel { numTree v.mem ls.channelNum with
    key := (numTree v.mem ls.channelNum).key } (some x) .locked false).bind _).bind _ = _
  rw [he]
  rfl

theorem rebalance_eq (h : Holding v.lists v.mem v.live locked l names nums) :
    ∃ lists, v.rebalance = some { v with lists := some lists } ∧
      Holding (some lists) v.mem v.live locked l names nums := by
  have hnames := h.length_names
  have hnums := h.length_nums
  obtain ⟨ls, hls, hl, hmn, hmm, hname, hnum⟩ := h.lists
  obtain ⟨p, hep, hp⟩ := hname.rebalance .locked nofun
    v.fuel (by simp only [Server.fuel]; omega)
  obtain ⟨q, heq, hq⟩ := hnum.rebalance .locked nofun
    v.fuel (by simp only [Server.fuel]; omega)
  let lists : Lists ι := { ls with
    channelName := { ls.channelName with toPointers := p }
    channelNum := { ls.channelNum with toPointers := q } }
  refine ⟨lists, ?_, ⟨lists, rfl, hl, hmn, hmm, hp, hq⟩, h.nodup, h.live_list, h.live_names,
    h.live_nums⟩
  simp only [View.rebalance, View.onLists, hls, Option.bind_eq_bind, Option.bind_some, hep, heq]
  rfl

/-- The search for the name of a channel removes this channel, if no other has the
name. -/
theorem removeFoundName_eq (h : Holding v.lists v.mem v.live locked l names nums)
    (hkey : ∀ y ∈ names, caseless (v.mem y).channel = caseless (v.mem x).channel → y = x) :
    ∃ lists, v.removeFoundName x = some { v with lists := some lists } ∧
      Holding (some lists) v.mem v.live locked l (names.erase x) nums := by
  obtain ⟨ls, hls, -⟩ := h.lists
  obtain ⟨r, he, hr⟩ := findName_eq (hls ▸ h) (v.mem x).channel .locked nofun v.fuel
    (by simp only [Server.fuel]; omega)
  by_cases hx : x ∈ names
  · rw [(hr x).mpr ⟨hx, rfl⟩] at he
    simp only [View.removeFoundName, hls, Option.bind_eq_bind, Option.bind_some, he]
    exact removeName_eq h hx (fun _ _ _ ↦ rfl) fun _ _ ↦ rfl
  · have hnone : r = none := by
      refine Option.eq_none_iff_forall_ne_some.mpr fun y hy ↦ ?_
      obtain ⟨hy, hyk⟩ := (hr y).mp hy
      exact hx (hkey y hy hyk ▸ hy)
    rw [hnone] at he
    simp only [View.removeFoundName, hls, Option.bind_eq_bind, Option.bind_some, he]
    rw [List.erase_of_not_mem hx]
    exact ⟨ls, by rw [← hls], hls ▸ h⟩

/-- The search for its number removes it too. -/
theorem removeFoundNum_eq (h : Holding v.lists v.mem v.live locked l names nums)
    (hkey : ∀ y ∈ nums, (v.mem y).channelId = (v.mem x).channelId → y = x) :
    ∃ lists, v.removeFoundNum x = some { v with lists := some lists } ∧
      Holding (some lists) v.mem v.live locked l names (nums.erase x) := by
  obtain ⟨ls, hls, -⟩ := h.lists
  obtain ⟨r, he, hr⟩ := findNum_eq (hls ▸ h) (v.mem x).channelId .locked nofun v.fuel
    (by simp only [Server.fuel]; omega)
  by_cases hx : x ∈ nums
  · rw [(hr x).mpr ⟨hx, rfl⟩] at he
    simp only [View.removeFoundNum, hls, Option.bind_eq_bind, Option.bind_some, he]
    exact removeNum_eq h hx
  · have hnone : r = none := by
      refine Option.eq_none_iff_forall_ne_some.mpr fun y hy ↦ ?_
      obtain ⟨hy, hyk⟩ := (hr y).mp hy
      exact hx (hkey y hy hyk ▸ hy)
    rw [hnone] at he
    simp only [View.removeFoundNum, hls, Option.bind_eq_bind, Option.bind_some, he]
    rw [List.erase_of_not_mem hx]
    exact ⟨ls, by rw [← hls], hls ▸ h⟩

end Edits

end Beirdobot.Channels
