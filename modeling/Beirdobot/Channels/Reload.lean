import Beirdobot.Channels.Loads
import Beirdobot.Library.System

/-!
# Reloading the channels of a server

The loops of `resultLoadChannels`, `botSighup` and `serverKill`.  The rows of a load have
to give each channel a name that no other has at that moment (`Fits`); a channel is then
removed exactly if its row was missing.
-/

namespace Beirdobot.Channels

open Library BTree

variable {ι : Type}

/-! ## The rows -/

/-- The numbers and names of the channels in the trees. -/
def entries (mem : ι → IRCChannel) (l : List ι) : List (ℤ × CString) :=
  (placed mem l).map fun x ↦ ((mem x).channelId, (mem x).channel)

/-- The numbers and names after a row. -/
def takeName (names : List (ℤ × CString)) (row : Row) : List (ℤ × CString) :=
  names.filter (fun p ↦ p.1 ≠ row.channelId) ++ [(row.channelId, row.channel)]

/-- When its turn comes, each row gives a name that no other channel has. -/
def Fits : List (ℤ × CString) → List Row → Prop
  | _, [] => True
  | names, row :: rows =>
      (∀ p ∈ names, p.1 ≠ row.channelId → caseless p.2 ≠ caseless row.channel) ∧
        Fits (takeName names row) rows

instance : ∀ (names : List (ℤ × CString)) (rows : List Row), Decidable (Fits names rows)
  | _, [] => .isTrue trivial
  | names, row :: rows =>
      have : Decidable (Fits (takeName names row) rows) :=
        instDecidableFits (takeName names row) rows
      inferInstanceAs (Decidable (_ ∧ _))

theorem mem_takeName {names : List (ℤ × CString)} {row : Row} {p : ℤ × CString} :
    p ∈ takeName names row ↔
      (p ∈ names ∧ p.1 ≠ row.channelId) ∨ p = (row.channelId, row.channel) := by
  simp [takeName]

theorem Fits.congr {names names' : List (ℤ × CString)} {rows : List Row}
    (h : ∀ p, p ∈ names ↔ p ∈ names') : Fits names rows ↔ Fits names' rows := by
  induction rows generalizing names names' with
  | nil => exact .rfl
  | cons row rows ih =>
      have hnext : ∀ p, p ∈ takeName names row ↔ p ∈ takeName names' row := by
        intro p
        rw [mem_takeName, mem_takeName, h p]
      rw [Fits, Fits, ih hnext]
      simp only [h]

theorem mem_entries {mem : ι → IRCChannel} {l : List ι} {p : ℤ × CString} :
    p ∈ entries mem l ↔
      ∃ x ∈ l, (mem x).justAdded = false ∧ (mem x).channelId = p.1 ∧ (mem x).channel = p.2 := by
  constructor
  · intro hp
    obtain ⟨x, hx, rfl⟩ := List.mem_map.mp hp
    obtain ⟨hx, hj⟩ := mem_placed.mp hx
    exact ⟨x, hx, hj, rfl, rfl⟩
  · rintro ⟨x, hx, hj, h₁, h₂⟩
    exact List.mem_map.mpr ⟨x, mem_placed.mpr ⟨hx, hj⟩, Prod.ext h₁ h₂⟩

section Loops

variable [DecidableEq ι] {malloc : List ι → ι} {compiles : CString → Bool} {v v' : View ι}
  {l : List ι} {x : ι} {row : Row}

theorem mem_turnList (y : ι) : y ∈ (if x ∈ l then l else l ++ [x]) ↔ y = x ∨ y ∈ l := by
  split
  · rename_i hx
    exact ⟨.inr, fun hy ↦ hy.elim (fun e ↦ e ▸ hx) id⟩
  · simp [or_comm]

/-- The names in the trees after a turn. -/
theorem Turn.entries_eq (hs : Shape v true l) (h : Turn compiles v v' l row x) (p : ℤ × CString) :
    p ∈ entries v'.mem (if x ∈ l then l else l ++ [x]) ↔ p ∈ takeName (entries v.mem l) row := by
  obtain ⟨joined, newChannel, hrecord⟩ := h.record
  rw [mem_entries, mem_takeName, mem_entries]
  constructor
  · rintro ⟨y, hy, hj, hid, hname⟩
    by_cases hyx : y = x
    · rw [hyx, hrecord] at hid hname
      exact .inr (Prod.ext hid.symm hname.symm)
    · rw [h.rest y hyx] at hj hid hname
      have hy : y ∈ l := ((mem_turnList y).mp hy).resolve_left hyx
      refine .inl ⟨⟨y, hy, hj, hid, hname⟩, fun e ↦ ?_⟩
      by_cases hx : x ∈ l
      · exact hyx (hs.ids y hy x hx (hid.trans (e.trans (h.found hx).symm)))
      · exact h.new hx y hy (hid.trans e)
  · rintro (⟨⟨y, hy, hj, hid, hname⟩, hne⟩ | rfl)
    · have hyx : y ≠ x := by
        rintro rfl
        exact hne (hid.symm.trans (h.found hy))
      refine ⟨y, (mem_turnList y).mpr (.inr hy), ?_⟩
      rw [h.rest y hyx]
      exact ⟨hj, hid, hname⟩
    · refine ⟨x, (mem_turnList x).mpr (.inl rfl), ?_⟩
      rw [hrecord]
      exact ⟨rfl, rfl, rfl⟩

/-- The loop over the rows: what each turn keeps, and with it `Fits`, the loop keeps. -/
theorem loadRows_eq {P : View ι → List ι → List Row → Prop} (hmalloc : ∀ l, malloc l ∉ l)
    (hturn : ∀ v v' l row rows x, Shape v true l → P v l (row :: rows) →
      Turn compiles v v' l row x → P v' (if x ∈ l then l else l ++ [x]) rows)
    {rows : List Row} (h : Shape v true l) (hfits : Fits (entries v.mem l) rows)
    (hP : P v l rows) :
    ∃ v' l', rows.foldlM (loadChannel malloc compiles) v = some v' ∧ Shape v' true l' ∧
      P v' l' [] := by
  obtain ⟨v', he, l', h', -, hP'⟩ := foldlM_loop
    (P := fun v rows ↦ ∃ l, Shape v true l ∧ Fits (entries v.mem l) rows ∧ P v l rows)
    (f := loadChannel malloc compiles) (fun v row rows ⟨l, h, hfits, hP⟩ ↦ by
      obtain ⟨v', x, he, ht⟩ := loadChannel_eq compiles hmalloc h row
        fun y hy hid ↦ hfits.1 _ (List.mem_map.mpr ⟨y, hy, rfl⟩) hid
      exact ⟨v', he, _, ht.shape, (Fits.congr (ht.entries_eq h)).mpr hfits.2,
        hturn v v' l row rows x h hP ht⟩)
    ⟨l, h, hfits, hP⟩
  exact ⟨v', l', he, h', hP'⟩

/-! ## Creating the lists -/

/-- The channels that are to be on the list before a load, which creates the lists if
there are none. -/
structure Ready (v : View ι) (l : List ι) : Prop where
  shape : v.lists ≠ none → Shape v false l
  none : v.lists = none → l = []

omit [DecidableEq ι] in
theorem Shape.ready (h : Shape v false l) : Ready v l where
  shape _ := h
  none hnone := by
    obtain ⟨ls, hls, -⟩ := h.holding.lists
    rw [hls] at hnone
    cases hnone

omit [DecidableEq ι] in
theorem Ready.channels (h : Ready v l) : v.channels = l := by
  cases hls : v.lists with
  | none => rw [h.none hls, Server.channels, hls]
  | some ls => exact (h.shape (by simp [hls])).channels

omit [DecidableEq ι] in
theorem createLists_eq (h : Ready v l) :
    ∃ lists, createLists v = { v with lists } ∧ Shape { v with lists } false l := by
  cases hls : v.lists with
  | some ls =>
      have hv : createLists v = v := by simp only [createLists, hls]
      exact ⟨v.lists, hv, h.shape (by simp [hls])⟩
  | none =>
      obtain rfl := h.none hls
      let items : Items ι :=
        { left := fun _ ↦ Option.none, right := fun _ ↦ Option.none, parent := fun _ ↦ Option.none
          root := Option.none, owner := fun _ ↦ Option.none, mutex := false }
      have hnone : ∀ x ∈ ([] : List ι), x ∈ v.live := fun x hx ↦ absurd hx List.not_mem_nil
      exact ⟨some ⟨[], items, items⟩, by simp only [createLists, hls, items],
        ⟨⟨_, rfl, rfl, rfl, rfl, .create .., .create ..⟩, List.nodup_nil, hnone, hnone, hnone⟩,
        by simp⟩

omit [DecidableEq ι] in
theorem Shape.of_lists {locked : Bool} {lists : Option (Lists ι)}
    (h : Holding lists v.mem v.live locked l (placed v.mem l) (placed v.mem l))
    (hids : ∀ x ∈ l, ∀ y ∈ l, (v.mem x).channelId = (v.mem y).channelId → x = y) :
    Shape { v with lists } locked l :=
  ⟨h, hids⟩

/-- A load whose rows fit. -/
theorem resultLoadChannels_eq (compiles : CString → Bool) {P : View ι → List ι → List Row → Prop}
    (hmalloc : ∀ l, malloc l ∉ l)
    (hturn : ∀ v v' l row rows x, Shape v true l → P v l (row :: rows) →
      Turn compiles v v' l row x → P v' (if x ∈ l then l else l ++ [x]) rows)
    (hlists : ∀ v lists l rows, P v l rows → P { v with lists := some lists } l rows)
    {rows : List Row} (h : Ready v l) (hrows : rows ≠ [])
    (hfits : Fits (entries v.mem l) rows) (hP : P v l rows) :
    ∃ v' l', resultLoadChannels malloc compiles v (some rows) = some v' ∧ Shape v' false l' ∧
      P v' l' [] := by
  obtain ⟨lists₀, he₀, h₀⟩ := createLists_eq h
  obtain ⟨ls₁, he₁, -, h₁⟩ := lock_eq (v := { v with lists := lists₀ }) h₀.holding
  obtain ⟨v₂, l', he₂, h₂, hP₂⟩ := loadRows_eq (v := { v with lists := some ls₁ }) hmalloc hturn
    (.of_lists h₁ h₀.ids) hfits (hlists v ls₁ l rows hP)
  obtain ⟨ls₃, he₃, h₃⟩ := rebalance_eq h₂.holding
  obtain ⟨ls₄, he₄, h₄⟩ := unlock_eq (v := { v₂ with lists := some ls₃ }) h₃
  refine ⟨{ v₂ with lists := some ls₄ }, l', ?_, .of_lists h₄ h₂.ids, hlists _ _ _ _ hP₂⟩
  obtain ⟨row, rows', rfl⟩ := List.exists_cons_of_ne_nil hrows
  simp only [resultLoadChannels, he₀, he₁, he₂, he₃, he₄, Option.bind_eq_bind, Option.bind_some]

/-! ## Leaving -/

/-- What leaving channels does besides: their entries go from `regexpList`, and the records
change only in what they are joined for. -/
structure Left (v v' : View ι) (gone : List ι) : Prop where
  mem : ∀ y, ∃ joined newChannel, v'.mem y = { v.mem y with joined, newChannel }
  settings : v'.toSettings = v.toSettings
  self : v'.self = v.self
  regexps : v'.regexpList = v.regexpList.diff (gone.map fun x ↦ botCmd v.nick (v.mem x).fullspec)

namespace Left

variable {v'' : View ι} {gone gone' : List ι}

omit [DecidableEq ι] in
theorem fullspec (h : Left v v' gone) (y : ι) : (v'.mem y).fullspec = (v.mem y).fullspec := by
  obtain ⟨joined, newChannel, he⟩ := h.mem y
  rw [he]

omit [DecidableEq ι] in
theorem visited (h : Left v v' gone) (y : ι) : (v'.mem y).visited = (v.mem y).visited := by
  obtain ⟨joined, newChannel, he⟩ := h.mem y
  rw [he]

omit [DecidableEq ι] in
theorem justAdded (h : Left v v' gone) (y : ι) : (v'.mem y).justAdded = (v.mem y).justAdded := by
  obtain ⟨joined, newChannel, he⟩ := h.mem y
  rw [he]

omit [DecidableEq ι] in
theorem channel (h : Left v v' gone) (y : ι) : (v'.mem y).channel = (v.mem y).channel := by
  obtain ⟨joined, newChannel, he⟩ := h.mem y
  rw [he]

omit [DecidableEq ι] in
theorem channelId (h : Left v v' gone) (y : ι) : (v'.mem y).channelId = (v.mem y).channelId := by
  obtain ⟨joined, newChannel, he⟩ := h.mem y
  rw [he]

omit [DecidableEq ι] in
theorem refl (v : View ι) : Left v v [] := ⟨fun _ ↦ ⟨_, _, rfl⟩, rfl, rfl, rfl⟩

omit [DecidableEq ι] in
theorem trans (h : Left v v' gone) (h' : Left v' v'' gone') : Left v v'' (gone ++ gone') where
  mem y := by
    obtain ⟨joined, newChannel, he⟩ := h.mem y
    obtain ⟨joined', newChannel', he'⟩ := h'.mem y
    exact ⟨joined', newChannel', by rw [he', he]⟩
  settings := h'.settings.trans h.settings
  self := h'.self.trans h.self
  regexps := by
    have hnick : v'.nick = v.nick := congrArg Settings.nick h.settings
    rw [h'.regexps, h.regexps, List.map_append, List.diff_append, hnick]
    simp only [h.fullspec]

omit [DecidableEq ι] in
/-- Records that are only left keep their places. -/
theorem shape {locked : Bool} (h : Left v v' gone) (hs : Shape v locked l)
    (hlists : v'.lists = v.lists) (hlive : v'.live = v.live) : Shape v' locked l :=
  hs.of_mem hlists hlive fun y _ ↦ ⟨h.channel y, h.channelId y, h.justAdded y⟩

end Left

theorem left_modify {f : IRCChannel → IRCChannel}
    (hf : ∀ c, ∃ joined newChannel, f c = { c with joined, newChannel }) :
    Left v (v.modify x f) [] where
  mem y := by
    by_cases hyx : y = x
    · rw [hyx, modify_mem_self]
      exact hf _
    · rw [modify_mem_of_ne _ _ _ hyx]
      exact ⟨_, _, rfl⟩
  settings := rfl
  self := rfl
  regexps := rfl

/-- A channel goes out of the list and both trees, if no other in the trees has its
name. -/
theorem dropChannel_eq (h : Shape v true l) (hx : x ∈ l)
    (hname : ∀ y ∈ placed v.mem l, caseless (v.mem y).channel = caseless (v.mem x).channel →
      y = x) :
    ∃ v', dropChannel v x = some v' ∧ Shape v' true (l.erase x) ∧ v'.mem = v.mem ∧
      Left v v' [x] := by
  obtain ⟨ls, hls, hl, hmn, hmm, hns, hms⟩ := h.holding.lists
  let v₁ := regexpBotCmdRemove v x
  let v₂ : View ι := { v₁ with lists := some { ls with channels := ls.channels.erase x } }
  have h₂ : Holding v₂.lists v₂.mem v₂.live true (l.erase x) (placed v.mem l) (placed v.mem l) :=
    ⟨⟨_, rfl, by rw [hl], hmn, hmm, hns, hms⟩, h.holding.nodup.erase x,
      fun y hy ↦ h.holding.live_list y (List.mem_of_mem_erase hy), h.holding.live_names,
      h.holding.live_nums⟩
  obtain ⟨ls₃, he₃, h₃⟩ := removeFoundName_eq h₂ hname
  let v₃ : View ι := { v₂ with lists := some ls₃ }
  obtain ⟨ls₄, he₄, h₄⟩ := removeFoundNum_eq (v := v₃) (x := x) h₃ fun y hy e ↦
    h.ids y (mem_placed.mp hy).1 x hx e
  have herase : (placed v.mem l).erase x = placed v.mem (l.erase x) := by
    rw [placed, placed, (h.holding.nodup.filter _).erase_eq_filter, h.holding.nodup.erase_eq_filter,
      List.filter_filter, List.filter_filter]
    exact List.filter_congr fun y _ ↦ Bool.and_comm ..
  have hout : ∀ y ∈ l.erase x, y ≠ x ∧ y ∈ l := fun y hy ↦ h.holding.nodup.mem_erase_iff.mp hy
  have hlive : ∀ y ∈ l.erase x, y ∈ v.live.erase x := fun y hy ↦
    (List.mem_erase_of_ne (hout y hy).1).mpr (h.holding.live_list y (hout y hy).2)
  let v' : View ι := { v₃ with
    lists := some ls₄
    live := v.live.erase x }
  refine ⟨v', ?_, ⟨⟨?_, h₄.nodup, hlive, ?_, ?_⟩, ?_⟩, rfl, ⟨fun _ ↦ ⟨_, _, rfl⟩, rfl, rfl, ?_⟩⟩
  · simp only [dropChannel, View.onLists, Option.bind_eq_bind]
    rw [show (regexpBotCmdRemove v x).lists = some ls from hls]
    simp only [Option.bind_some]
    change (v₂.removeFoundName x).bind _ = _
    rw [he₃, Option.bind_some]
    change (v₃.removeFoundNum x).bind _ = _
    rw [he₄]
    rfl
  · have h₄' := h₄.lists
    rw [herase] at h₄'
    exact h₄'
  · exact fun y hy ↦ hlive y (mem_placed.mp hy).1
  · exact fun y hy ↦ hlive y (mem_placed.mp hy).1
  · exact fun y hy z hz ↦ h.ids y (hout y hy).2 z (hout z hz).2
  · rw [List.map_singleton, List.diff_cons, List.diff_nil]
    rfl

/-- `botSighup` keeps a channel that was visited, and may ask to join it. -/
theorem sighupLoop_visited (newChannel : Bool) (xs : List ι) (hv : (v.mem x).visited = true) :
    ∃ v₁ newChannel₁, sighupLoop v newChannel (x :: xs) = sighupLoop v₁ newChannel₁ xs ∧
      Left v v₁ [] ∧ v₁.lists = v.lists ∧ v₁.live = v.live := by
  rw [sighupLoop, if_neg (by simp [hv])]
  split
  · exact ⟨_, _, rfl, ⟨fun _ ↦ ⟨_, _, rfl⟩, rfl, rfl, rfl⟩, rfl, rfl⟩
  · split
    · exact ⟨_, _, rfl, left_modify fun _ ↦ ⟨_, _, rfl⟩, rfl, rfl⟩
    · exact ⟨v, newChannel, rfl, .refl v, rfl, rfl⟩

/-- The names that `botSighup` searches belong to one channel each: a channel that is not
in the trees yet and was not visited has a name of its own. -/
structure Apart (mem : ι → IRCChannel) (l xs : List ι) : Prop where
  visited : ∀ x ∈ xs, (mem x).justAdded = true → ∀ y ∈ l, (mem y).visited = true →
    caseless (mem y).channel ≠ caseless (mem x).channel
  later : xs.Pairwise fun x y ↦ (mem x).justAdded = true →
    caseless (mem y).channel ≠ caseless (mem x).channel

omit [DecidableEq ι] in
theorem Apart.of_left {l' xs gone : List ι} (h : Apart v.mem l (x :: xs)) (hleft : Left v v' gone)
    (hsub : ∀ y ∈ l', y ∈ l) : Apart v'.mem l' xs where
  visited y hy := by
    simp only [hleft.justAdded, hleft.visited, hleft.channel]
    exact fun hj z hz ↦ h.visited y (List.mem_cons_of_mem _ hy) hj z (hsub z hz)
  later := by
    simp only [hleft.justAdded, hleft.channel]
    exact (List.pairwise_cons.mp h.later).2

/-- The loop of `botSighup` removes the channels that were not visited. -/
theorem sighupLoop_eq (newChannel : Bool) {xs : List ι} (h : Shape v true l) (hxs : xs.Nodup)
    (hsub : ∀ x ∈ xs, x ∈ l) (hdone : ∀ y ∈ l, y ∉ xs → (v.mem y).visited = true)
    (hap : Apart v.mem l xs) :
    ∃ v', sighupLoop v newChannel xs = some v' ∧
      Shape v' true (l.filter fun y ↦ (v.mem y).visited) ∧
      Left v v' (xs.filter fun y ↦ !(v.mem y).visited) := by
  induction xs generalizing v l newChannel with
  | nil =>
      refine ⟨v, rfl, ?_, .refl v⟩
      rwa [List.filter_eq_self.mpr fun y hy ↦ hdone y hy List.not_mem_nil]
  | cons x xs ih =>
      obtain ⟨hx, hxs⟩ := List.nodup_cons.mp hxs
      cases hv : (v.mem x).visited with
      | true =>
          obtain ⟨v₁, newChannel₁, he₁, hleft, hls, hlive⟩ := sighupLoop_visited newChannel xs hv
          obtain ⟨v', he, h', hleft'⟩ := ih newChannel₁ (hleft.shape h hls hlive) hxs
            (fun y hy ↦ hsub y (List.mem_cons_of_mem _ hy))
            (fun y hy hout ↦ by
              rw [hleft.visited]
              by_cases hyx : y = x
              · rw [hyx, hv]
              · exact hdone y hy (by simp [hyx, hout]))
            (hap.of_left hleft fun _ ↦ id)
          simp only [hleft.visited] at h' hleft'
          refine ⟨v', he₁.trans he, h', ?_⟩
          rw [List.filter_cons_of_neg (by simp [hv])]
          exact hleft.trans hleft'
      | false =>
          let v₁ := channelLeave v x (v.mem x).channel
          have hleft₁ : Left v v₁ [] := by
            obtain ⟨hm, hset, hself, hreg⟩ :=
              left_modify (v := v) (x := x) (f := fun channel ↦ { channel with joined := false })
                fun _ ↦ ⟨_, _, rfl⟩
            exact ⟨hm, hset, hself, hreg⟩
          have h₁ : Shape v₁ true l := hleft₁.shape h rfl rfl
          have hxl : x ∈ l := hsub x List.mem_cons_self
          obtain ⟨v₂, he₂, h₂, -, hleft₂⟩ := dropChannel_eq h₁ hxl fun y hy hyx ↦ by
            obtain ⟨hyl, hyj⟩ := mem_placed.mp hy
            rw [hleft₁.justAdded] at hyj
            rw [hleft₁.channel, hleft₁.channel] at hyx
            cases hxj : (v.mem x).justAdded with
            | false =>
                exact h.holding.name_inj (mem_placed.mpr ⟨hyl, hyj⟩)
                  (mem_placed.mpr ⟨hxl, hxj⟩) hyx
            | true =>
                by_contra hne
                cases hyv : (v.mem y).visited with
                | true => exact hap.visited x List.mem_cons_self hxj y hyl hyv hyx
                | false =>
                    have hyxs : y ∈ xs := by
                      by_contra hout
                      rw [hdone y hyl (by simp [hne, hout])] at hyv
                      cases hyv
                    exact (List.pairwise_cons.mp hap.later).1 y hyxs hxj hyx
          have hleft := hleft₁.trans hleft₂
          have hout : ∀ y ∈ l.erase x, y ≠ x ∧ y ∈ l := fun y hy ↦
            h.holding.nodup.mem_erase_iff.mp hy
          obtain ⟨v', he, h', hleft'⟩ := ih newChannel h₂ hxs
            (fun y hy ↦ (List.mem_erase_of_ne (ne_of_mem_of_not_mem hy hx)).mpr
              (hsub y (List.mem_cons_of_mem _ hy)))
            (fun y hy hno ↦ by
              rw [hleft.visited]
              exact hdone y (hout y hy).2 (by simp [(hout y hy).1, hno]))
            (hap.of_left hleft fun y hy ↦ (hout y hy).2)
          simp only [hleft.visited] at h' hleft'
          refine ⟨v', ?_, ?_, ?_⟩
          · rw [sighupLoop, if_pos hv]
            change (dropChannel v₁ x).bind _ = _
            rw [he₂]
            exact he
          · have hfilter : (l.erase x).filter (fun y ↦ (v.mem y).visited) =
                l.filter fun y ↦ (v.mem y).visited := by
              rw [h.holding.nodup.erase_eq_filter, List.filter_filter]
              refine List.filter_congr fun y _ ↦ ?_
              by_cases hyx : y = x
              · simp [hyx, hv]
              · simp [hyx]
            rwa [hfilter] at h'
          · rw [List.filter_cons_of_pos (by simp [hv])]
            exact hleft.trans hleft'

/-- `botSighup` removes the channels that were not visited. -/
theorem botSighup_eq (h : Shape v false l) (hap : Apart v.mem l l) :
    ∃ v', botSighup v = some v' ∧ Shape v' false (l.filter fun y ↦ (v.mem y).visited) ∧
      Left v v' (l.filter fun y ↦ !(v.mem y).visited) := by
  obtain ⟨ls₁, he₁, hl₁, h₁⟩ := lock_eq h.holding
  obtain ⟨v₂, he₂, h₂, hleft⟩ := sighupLoop_eq (v := { v with lists := some ls₁ }) false
    (.of_lists h₁ h.ids) h.holding.nodup (fun _ ↦ id) (fun y hy hno ↦ absurd hy hno) hap
  obtain ⟨ls₃, he₃, h₃⟩ := unlock_eq h₂.holding
  obtain ⟨ls, hls, hl, -⟩ := h.holding.lists
  refine ⟨{ v₂ with lists := some ls₃ }, ?_, .of_lists h₃ h₂.ids, ⟨hleft.mem, hleft.settings,
    hleft.self, hleft.regexps⟩⟩
  simp only [botSighup, hls, he₁, hl, he₂, he₃, Option.bind_eq_bind, Option.bind_some]

/-- `serverKill` removes all channels and the lists. -/
theorem serverKill_eq (unalloc : Bool) (h : Shape v false l)
    (hadded : ∀ x ∈ l, (v.mem x).justAdded = false) :
    ∃ v', serverKill v unalloc = some v' ∧ v'.lists = none ∧
      v'.toSettings = { v.toSettings with enabled := unalloc && v.enabled } ∧ v'.self = v.self ∧
      v'.regexpList = v.regexpList.diff (l.map fun x ↦ botCmd v.nick (v.mem x).fullspec) := by
  let v₀ : View ι := if unalloc then v else { v with enabled := false }
  have hv₀ : v₀.lists = v.lists ∧ v₀.mem = v.mem ∧ v₀.live = v.live ∧ v₀.nick = v.nick ∧
      v₀.regexpList = v.regexpList ∧ v₀.self = v.self ∧
      v₀.toSettings = { v.toSettings with enabled := unalloc && v.enabled } := by
    cases unalloc <;> exact ⟨rfl, rfl, rfl, rfl, rfl, rfl, rfl⟩
  obtain ⟨hls₀, hmem₀, hlive₀, hnick₀, hreg₀, hself₀, hset₀⟩ := hv₀
  have h₀ : Shape v₀ false l := h.of_mem hls₀ hlive₀ fun x _ ↦ by rw [hmem₀]; exact ⟨rfl, rfl, rfl⟩
  obtain ⟨ls₁, he₁, hl₁, h₁⟩ := lock_eq h₀.holding
  let v₁ : View ι := { v₀ with lists := some ls₁ }
  obtain ⟨v₂, he₂, l₂, h₂, hsub, hmem, hset, hself, hreg⟩ := foldlM_loop (s := v₁)
    (f := dropChannel)
    (P := fun w xs ↦ ∃ l', Shape w true l' ∧
      (xs.Nodup ∧ (∀ x ∈ xs, x ∈ l') ∧ ∀ x ∈ l', (v.mem x).justAdded = false) ∧ w.mem = v.mem ∧
      w.toSettings = v₀.toSettings ∧ w.self = v₀.self ∧
      w.regexpList.diff (xs.map fun x ↦ botCmd v.nick (v.mem x).fullspec) =
        v.regexpList.diff (l.map fun x ↦ botCmd v.nick (v.mem x).fullspec))
    (by
      rintro w x xs ⟨l', hw, ⟨hn, hsub, hj⟩, hmem, hset, hself, hreg⟩
      obtain ⟨hx, hn⟩ := List.nodup_cons.mp hn
      have hxl := hsub x List.mem_cons_self
      obtain ⟨w', he, hw', hmem', hleft⟩ := dropChannel_eq hw hxl fun y hy hyx ↦
        hw.holding.name_inj hy (mem_placed.mpr ⟨hxl, by rw [hmem]; exact hj x hxl⟩) hyx
      refine ⟨w', he, _, hw', ⟨hn, fun y hy ↦ ?_, fun y hy ↦ hj y (List.mem_of_mem_erase hy)⟩,
        hmem'.trans hmem, hleft.settings.trans hset, hleft.self.trans hself, ?_⟩
      · exact (List.mem_erase_of_ne (ne_of_mem_of_not_mem hy hx)).mpr (hsub y (List.mem_cons_of_mem _ hy))
      · have hnick : w.nick = v.nick := (congrArg Settings.nick hset).trans hnick₀
        rw [← hreg, List.map_cons, List.diff_cons, hleft.regexps, hnick, hmem, List.map_singleton,
          List.diff_cons, List.diff_nil])
    ⟨l, .of_lists h₁ h₀.ids, ⟨h.holding.nodup, fun _ ↦ id, hadded⟩, hmem₀, rfl, rfl, by
      show v₀.regexpList.diff _ = _
      rw [hreg₀]⟩
  obtain ⟨ls, hls, hl, -⟩ := h₀.holding.lists
  refine ⟨{ v₂ with lists := none }, ?_, rfl, hset.trans hset₀, hself.trans hself₀, hreg⟩
  have hls' : (if unalloc then v else { v with enabled := false }).lists = some ls := hls
  have he₁' : (if unalloc then v else { v with enabled := false }).lock = some v₁ := he₁
  simp only [serverKill, hls', he₁', hl, he₂, Option.bind_eq_bind, Option.bind_some]

end Loops

end Beirdobot.Channels
