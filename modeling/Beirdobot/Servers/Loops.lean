import Beirdobot.Servers.Steps

/-!
# The loops of a reload

Loading a table treats each record once, with its row; flushing starts the
servers that were visited and are to start, and kills those that were not visited.
-/

namespace Beirdobot.Servers

variable {ι : Type} [DecidableEq ι]

/-! ## Visits and channels -/

theorem serverUnvisit_mem (w : World ι) (nodes : List ι) (y : ι) :
    (serverUnvisit w nodes).mem y =
      if y ∈ nodes then { w.mem y with visited := false } else w.mem y := by
  induction nodes generalizing w with
  | nil => simp [serverUnvisit]
  | cons x nodes ih =>
      rw [serverUnvisit, ih]
      by_cases hyx : y = x
      · subst hyx
        by_cases hy : y ∈ nodes <;> simp [hy]
      · simp [hyx]

theorem serverUnvisit_rest (w : World ι) (nodes : List ι) :
    (serverUnvisit w nodes).tree = w.tree ∧ (serverUnvisit w nodes).live = w.live ∧
      (serverUnvisit w nodes).threads = w.threads ∧
      (serverUnvisit w nodes).destroyed = w.destroyed := by
  induction nodes generalizing w with
  | nil => exact ⟨rfl, rfl, rfl, rfl⟩
  | cons x nodes ih => exact ih _

theorem dbLoadChannels_mem (hasChannels : ℤ → Bool) (w : World ι) (nodes : List ι) (y : ι) :
    ∃ channels, (dbLoadChannels hasChannels w nodes).mem y = { w.mem y with channels } := by
  induction nodes generalizing w with
  | nil => exact ⟨(w.mem y).channels, rfl⟩
  | cons x nodes ih =>
      obtain ⟨channels, h⟩ := ih (w.modify x fun server ↦
        { server with channels := server.channels || hasChannels server.serverId })
      refine ⟨channels, h.trans ?_⟩
      by_cases hyx : y = x
      · subst hyx
        simp
      · simp [hyx]

theorem dbLoadChannels_rest (hasChannels : ℤ → Bool) (w : World ι) (nodes : List ι) :
    (dbLoadChannels hasChannels w nodes).tree = w.tree ∧
      (dbLoadChannels hasChannels w nodes).live = w.live ∧
      (dbLoadChannels hasChannels w nodes).threads = w.threads ∧
      (dbLoadChannels hasChannels w nodes).destroyed = w.destroyed := by
  induction nodes generalizing w with
  | nil => exact ⟨rfl, rfl, rfl, rfl⟩
  | cons x nodes ih => exact ih _

/-! ## Loading a table -/

section Loads

variable {malloc : List ι → ι} (hmalloc : ∀ l, malloc l ∉ l) {w w' : World ι} {rows : List Row}

include hmalloc

theorem loads_sane (h : Sane w) (hl : rows.foldlM (loadServer malloc) w = some w') :
    Sane w' := by
  induction rows generalizing w with
  | nil =>
      cases hl
      exact h
  | cons row rows ih =>
      obtain ⟨w₁, h₁, hl⟩ := Option.bind_eq_some_iff.mp hl
      exact ih (loadServer_sane hmalloc h h₁) hl

theorem loads_same (h : Sane w) (hl : rows.foldlM (loadServer malloc) w = some w') {y : ι}
    (hy : y ∈ w.tree) (hid : ∀ row ∈ rows, (w.mem y).serverId ≠ row.serverId) :
    Same w w' y := by
  induction rows generalizing w with
  | nil =>
      cases hl
      exact .refl _ y
  | cons row rows ih =>
      obtain ⟨w₁, h₁, hl⟩ := Option.bind_eq_some_iff.mp hl
      have hsame := loadServer_same hmalloc h h₁ hy (hid row (by simp))
      refine hsame.trans (ih (loadServer_sane hmalloc h h₁) hl (hsame.tree.mpr hy) fun r hr ↦ ?_)
      rw [hsame.mem]
      exact hid r (by simp [hr])

/-- A record without a row was in the tree before, as it is. -/
theorem loads_old (h : Sane w) (hl : rows.foldlM (loadServer malloc) w = some w') {y : ι}
    (hy : y ∈ w'.tree) (hid : ∀ row ∈ rows, (w'.mem y).serverId ≠ row.serverId) :
    y ∈ w.tree ∧ Same w w' y := by
  induction rows generalizing w with
  | nil =>
      cases hl
      exact ⟨hy, .refl _ y⟩
  | cons row rows ih =>
      obtain ⟨w₁, h₁, hl⟩ := Option.bind_eq_some_iff.mp hl
      obtain ⟨hy₁, hsame⟩ := ih (loadServer_sane hmalloc h h₁) hl fun r hr ↦ hid r (by simp [hr])
      have hne : (w₁.mem y).serverId ≠ row.serverId := by
        rw [← hsame.mem]
        exact hid row (by simp)
      obtain ⟨hy, hsame₁⟩ := loadServer_old hmalloc h h₁ hy₁ hne
      exact ⟨hy, hsame₁.trans hsame⟩

/-- The loading of one row among others. -/
theorem loads_split {pre post : List Row} {row : Row} (h : Sane w)
    (hl : (pre ++ row :: post).foldlM (loadServer malloc) w = some w') :
    ∃ w₁ w₂, Sane w₁ ∧ Sane w₂ ∧ pre.foldlM (loadServer malloc) w = some w₁ ∧
      loadServer malloc w₁ row = some w₂ ∧ post.foldlM (loadServer malloc) w₂ = some w' := by
  rw [List.foldlM_append] at hl
  obtain ⟨w₁, h₁, hl⟩ := Option.bind_eq_some_iff.mp hl
  obtain ⟨w₂, h₂, hl⟩ := Option.bind_eq_some_iff.mp hl
  have hs₁ := loads_sane hmalloc h h₁
  exact ⟨w₁, w₂, hs₁, loadServer_sane hmalloc hs₁ h₂, h₁, h₂, hl⟩

/-- The threads of a record whose row was loaded without renaming it. -/
def loadedThreads (w : World ι) (x : ι) (row : Row) : List (Thread ι) :=
  if (w.mem x).enabledChanged && !row.enabled then astray w x else w.threadsOf x

omit hmalloc in
theorem Loaded.of_same {w₁ w₂ : World ι} {x : ι} {row : Row} {new : Bool}
    (h : Loaded w₁ x row new) (hs : Same w₁ w₂ x) : Loaded w₂ x row new := by
  constructor
  · exact hs.tree.mpr h.tree
  · exact hs.live.mpr h.live
  · rw [hs.mem, h.settings]
  · rw [hs.mem, h.serverId]
  · rw [hs.mem, h.enabled]
  · rw [hs.mem, h.oldEnabled]
  · rw [hs.mem, h.enabledChanged]
  · rw [hs.mem, h.visited]
  · rw [hs.mem, h.floodList]
  · rw [hs.mem, h.newServer]
  · exact hs.owned h.owned

omit hmalloc in
theorem nodup_ids {pre post : List Row} {row : Row}
    (h : ((pre ++ row :: post).map Row.serverId).Nodup) :
    (∀ r ∈ pre, row.serverId ≠ r.serverId) ∧ ∀ r ∈ post, row.serverId ≠ r.serverId := by
  rw [List.map_append, List.map_cons, List.nodup_append] at h
  obtain ⟨-, hpost, hpre⟩ := h
  refine ⟨fun r hr e ↦ ?_, fun r hr e ↦ ?_⟩
  · exact hpre r.serverId (List.mem_map_of_mem hr) row.serverId (by simp) e.symm
  · exact (List.nodup_cons.mp hpost).1 (e ▸ List.mem_map_of_mem hr)

/-- What loading a table does to a record that has a row: it is renamed and lost, or
holds the row. -/
theorem loads_found (h : Sane w) (hrows : (rows.map Row.serverId).Nodup)
    (hl : rows.foldlM (loadServer malloc) w = some w') {row : Row} (hrow : row ∈ rows) {x : ι}
    (hx : x ∈ w.tree) (hid : (w.mem x).serverId = row.serverId) :
    (Renames (w.mem x) row ∧ ∀ y ∈ w'.tree, (w'.mem y).serverId ≠ row.serverId) ∨
    (¬ Renames (w.mem x) row ∧ (disables (w.mem x) row = true → (w.mem x).floodList = true) ∧
      Loaded w' x row ((w.mem x).enabledChanged && row.enabled) ∧
      w'.threadsOf x = loadedThreads w x row) := by
  obtain ⟨pre, post, rfl⟩ := List.append_of_mem hrow
  obtain ⟨hpre, hpost⟩ := nodup_ids hrows
  obtain ⟨w₁, w₂, hs₁, hs₂, h₁, h₂, h₃⟩ := loads_split hmalloc h hl
  have hsame := loads_same hmalloc h h₁ hx fun r hr ↦ hid ▸ hpre r hr
  have hx₁ := hsame.tree.mpr hx
  have hf : findServer w₁ row.serverId = some x := by
    have hfind := hs₁.findServer_eq hx₁
    rwa [hsame.mem, hid] at hfind
  obtain ⟨hother, hcase⟩ := loadServer_found_cases hf (hs₁.owned x hx₁) (hs₁.live x hx₁) h₂
  have hastray : astray w₁ x = astray w x := by rw [astray, astray, hsame.mem, hsame.threads]
  -- the rows after it do not concern it
  have hlater : ∀ {new}, Loaded w₂ x row new → Same w₂ w' x := by
    intro new hloaded
    refine loads_same hmalloc hs₂ h₃ hloaded.tree fun r hr ↦ ?_
    rw [hloaded.serverId]
    exact hpost r hr
  cases hcase with
  | kept hrename hdisable loaded tree threads =>
      rw [hsame.mem] at hrename hdisable loaded
      refine .inr ⟨hrename, by simp [hdisable], loaded.of_same (hlater loaded), ?_⟩
      have hcond : ((w.mem x).enabledChanged && !row.enabled) = false := by
        unfold disables at hdisable
        revert hdisable
        cases row.enabled <;> cases (w.mem x).enabledChanged <;> simp
      rw [(hlater loaded).threads, loadedThreads, hcond, World.threadsOf, threads]
      exact hsame.threads
  | disabled hrename hdisable hflood loaded tree threads =>
      rw [hsame.mem] at hrename hdisable hflood
      have hrow : row.enabled = false := by
        simp only [disables, Bool.and_eq_true, Bool.not_eq_true'] at hdisable
        exact hdisable.2
      refine .inr ⟨hrename, fun _ ↦ hflood, ?_, ?_⟩
      · rw [hrow, Bool.and_false]
        exact loaded.of_same (hlater loaded)
      · rw [(hlater loaded).threads, threads, hastray, hsame.mem, hsame.threads, loadedThreads, hrow]
        simp
  | renamed hrename hflood tree =>
      rw [hsame.mem] at hrename
      refine .inl ⟨hrename, fun y hy e ↦ ?_⟩
      obtain ⟨hy₂, hsame₂⟩ :=
        loads_old hmalloc hs₂ h₃ hy fun r hr e' ↦ hpost r hr (e.symm.trans e')
      rw [tree] at hy₂
      obtain ⟨hyx, hy₁⟩ := hs₁.nodup.mem_erase_iff.mp hy₂
      rw [hsame₂.mem, (hother y hyx).mem] at e
      refine hyx (hs₁.ids y hy₁ x hx₁ ?_)
      rw [e, hsame.mem, hid]

/-- Where no row renames a record, and the records to be disabled have their lists,
the whole table is loaded. -/
theorem loads_isSome (h : Sane w) (hrows : (rows.map Row.serverId).Nodup)
    (hok : ∀ x ∈ w.tree, ∀ row ∈ rows, (w.mem x).serverId = row.serverId →
      ¬ Renames (w.mem x) row ∧ (disables (w.mem x) row = true → (w.mem x).floodList = true)) :
    ∃ w', rows.foldlM (loadServer malloc) w = some w' := by
  induction rows generalizing w with
  | nil => exact ⟨w, rfl⟩
  | cons row rows ih =>
      obtain ⟨hid, hrows⟩ := List.nodup_cons.mp hrows
      obtain ⟨w₁, h₁⟩ : ∃ w₁, loadServer malloc w row = some w₁ := by
        cases hf : findServer w row.serverId with
        | none =>
            obtain ⟨w₁, h₁, -⟩ := loadServer_new hmalloc hf h.live
            exact ⟨w₁, h₁⟩
        | some x =>
            obtain ⟨hx, hxid⟩ := findServer_some hf
            obtain ⟨hrename, hflood⟩ := hok x hx row (by simp) hxid
            have hkill : (loadRow (w.mem x) true row).2 = false := by simpa [Renames] using hrename
            rw [loadServer_found hf (h.owned x hx)]
            dsimp only
            rw [hkill, Bool.or_false]
            split
            · rename_i hdisable
              rw [if_pos (hflood hdisable)]
              exact ⟨_, rfl⟩
            · exact ⟨_, rfl⟩
      obtain ⟨w', h'⟩ := ih (loadServer_sane hmalloc h h₁) hrows fun x hx r hr hxid ↦ by
        have hne : r.serverId ≠ row.serverId := fun e ↦ hid (e ▸ List.mem_map_of_mem hr)
        obtain ⟨hold, hsame⟩ := loadServer_old hmalloc h h₁ hx fun e ↦ hne (hxid.symm.trans e)
        rw [hsame.mem] at hxid ⊢
        exact hok x hold r (by simp [hr]) hxid
      exact ⟨w', Option.bind_eq_some_iff.mpr ⟨w₁, h₁, h'⟩⟩

omit hmalloc in
/-- The rows rename no record of the tree. -/
def NoneRenamed (w : World ι) (rows : List Row) : Prop :=
  ∀ x ∈ w.tree, ∀ row ∈ rows, (w.mem x).serverId = row.serverId → ¬ Renames (w.mem x) row

/-- While no record is freed the threads run on records in use. -/
theorem loads_live (h : Sane w) (hrows : (rows.map Row.serverId).Nodup)
    (hnone : NoneRenamed w rows) (hthreads : ∀ t ∈ w.threads, t.record ∈ w.live)
    (hl : rows.foldlM (loadServer malloc) w = some w') :
    ∀ t ∈ w'.threads, t.record ∈ w'.live := by
  induction rows generalizing w with
  | nil =>
      cases hl
      exact hthreads
  | cons row rows ih =>
      obtain ⟨hid, hrows⟩ := List.nodup_cons.mp hrows
      obtain ⟨w₁, h₁, hl⟩ := Option.bind_eq_some_iff.mp hl
      refine ih (loadServer_sane hmalloc h h₁) hrows (fun x hx r hr hxid ↦ ?_) (fun t ht ↦ ?_) hl
      · have hne : r.serverId ≠ row.serverId := fun e ↦ hid (e ▸ List.mem_map_of_mem hr)
        obtain ⟨hold, hsame⟩ := loadServer_old hmalloc h h₁ hx fun e ↦ hne (hxid.symm.trans e)
        rw [hsame.mem] at hxid ⊢
        exact hnone x hold r (by simp [hr]) hxid
      · have hother : ∀ x, t.record ≠ x → Same w w₁ t.record → t.record ∈ w₁.live := by
          intro x _ hsame
          have htw : t ∈ w.threadsOf t.record := hsame.threads ▸ mem_threadsOf.mpr ⟨ht, rfl⟩
          exact hsame.live.mpr (hthreads t (mem_threadsOf.mp htw).1)
        cases hf : findServer w row.serverId with
        | some x =>
            obtain ⟨hx, hxid⟩ := findServer_some hf
            obtain ⟨hsame, hcase⟩ := loadServer_found_cases hf (h.owned x hx) (h.live x hx) h₁
            by_cases htx : t.record = x
            · rw [htx]
              cases hcase with
              | kept _ _ loaded => exact loaded.live
              | disabled _ _ _ loaded => exact loaded.live
              | renamed hrename => exact absurd hrename (hnone x hx row (by simp) hxid)
            · exact hother x htx (hsame _ htx)
        | none =>
            obtain ⟨w₂, he, hsame, hloaded, -⟩ := loadServer_new hmalloc hf h.live
            obtain rfl := Option.some.inj (he.symm.trans h₁)
            by_cases htx : t.record = malloc w.live
            · exact htx ▸ hloaded.live
            · exact hother _ htx (hsame _ htx)

/-- What loading a table does for a row without a record. -/
theorem loads_new (h : Sane w) (hrows : (rows.map Row.serverId).Nodup)
    (hnone : NoneRenamed w rows) (hthreads : ∀ t ∈ w.threads, t.record ∈ w.live)
    (hl : rows.foldlM (loadServer malloc) w = some w') {row : Row} (hrow : row ∈ rows)
    (hid : ∀ x ∈ w.tree, (w.mem x).serverId ≠ row.serverId) :
    ∃ x, Loaded w' x row true ∧ w'.threadsOf x = [] := by
  obtain ⟨pre, post, rfl⟩ := List.append_of_mem hrow
  obtain ⟨hpre, hpost⟩ := nodup_ids hrows
  obtain ⟨w₁, w₂, hs₁, hs₂, h₁, h₂, h₃⟩ := loads_split hmalloc h hl
  have hf : findServer w₁ row.serverId = none := by
    cases hf : findServer w₁ row.serverId with
    | none => rfl
    | some y =>
        obtain ⟨hy, hyid⟩ := findServer_some hf
        obtain ⟨hyw, hsame⟩ :=
          loads_old hmalloc h h₁ hy fun r hr e ↦ hpre r hr (hyid.symm.trans e)
        exact absurd (hsame.mem ▸ hyid) (hid y hyw)
  have hprefix : (pre.map Row.serverId).Nodup := by
    rw [List.map_append, List.nodup_append] at hrows
    exact hrows.1
  have hlive := loads_live hmalloc h hprefix (fun x hx r hr ↦ hnone x hx r (by simp [hr])) hthreads
    h₁
  obtain ⟨w₃, he, hsame, hloaded, hthreads₂, -⟩ := loadServer_new hmalloc hf hs₁.live
  obtain rfl := Option.some.inj (he.symm.trans h₂)
  have hlater : Same w₃ w' (malloc w₁.live) := by
    refine loads_same hmalloc hs₂ h₃ hloaded.tree fun r hr ↦ ?_
    rw [hloaded.serverId]
    exact hpost r hr
  refine ⟨malloc w₁.live, hloaded.of_same hlater, ?_⟩
  rw [hlater.threads, World.threadsOf, hthreads₂, List.filter_eq_nil_iff]
  intro t ht
  have htl := hlive t ht
  simp only [decide_eq_true_eq]
  rintro e
  exact hmalloc w₁.live (e ▸ htl)

end Loads

/-! ## Flushing -/

/-- A server that was to start did. -/
structure Started (w w' : World ι) (y : ι) : Prop where
  pending : ((w.mem y).newServer && (w.mem y).enabled) = true
  tree : y ∈ w'.tree
  live : y ∈ w.live → y ∈ w'.live
  started : ∃ tx irc : Thread ι, tx.kind = .transmit ∧ irc.kind = .server ∧
    tx.connection = (w.mem y).connection ∧ irc.connection = (w.mem y).connection ∧
    w'.threadsOf y = w.threadsOf y ++ [tx, irc] ∧
    w'.mem y = { w.mem y with
      newServer := false
      txQueue := true
      txThreadId := some tx
      threadId := some irc }

/-- What flushing does: nothing to a record, but that visited servers may start and
servers that were not visited leave the tree. -/
structure Flushed (w w' : World ι) : Prop where
  sane : Sane w'
  sub : ∀ y ∈ w'.tree, y ∈ w.tree
  visited : ∀ y ∈ w.tree, (w.mem y).visited = true → y ∈ w'.tree ∧ (Same w w' y ∨ Started w w' y)
  unvisited : ∀ y ∈ w'.tree, (w.mem y).visited = false → Same w w' y
  removed : ∀ y ∈ w.tree, y ∉ w'.tree → (w.mem y).floodList = true

namespace Flushed

variable {w w' w'' : World ι}

theorem refl (h : Sane w) : Flushed w w :=
  ⟨h, fun _ hy ↦ hy, fun y hy _ ↦ ⟨hy, .inl (.refl w y)⟩, fun y _ _ ↦ .refl w y,
    fun _ hy hn ↦ absurd hy hn⟩

theorem trans (h : Flushed w w') (h' : Flushed w' w'') : Flushed w w'' := by
  refine ⟨h'.sane, fun y hy ↦ h.sub y (h'.sub y hy), fun y hy hv ↦ ?_, fun y hy hv ↦ ?_,
    fun y hy hn ↦ ?_⟩
  · obtain ⟨hy', hcase⟩ := h.visited y hy hv
    rcases hcase with hsame | hstart
    · obtain ⟨hy'', hcase'⟩ := h'.visited y hy' (hsame.mem ▸ hv)
      refine ⟨hy'', hcase'.imp hsame.trans fun hstart ↦ ?_⟩
      have hs := hstart.started
      rw [hsame.mem, hsame.threads] at hs
      exact ⟨hsame.mem ▸ hstart.pending, hy'', fun hl ↦ hstart.live (hsame.live.mpr hl), hs⟩
    · obtain ⟨tx, irc, htx, hirc, hctx, hcirc, hthreads, hmem⟩ := hstart.started
      have hv' : (w'.mem y).visited = true := by rw [hmem]; exact hv
      obtain ⟨hy'', hcase'⟩ := h'.visited y hy' hv'
      refine ⟨hy'', .inr ?_⟩
      rcases hcase' with hsame | hagain
      · exact ⟨hstart.pending, hy'', fun hl ↦ hsame.live.mpr (hstart.live hl), tx, irc, htx, hirc,
          hctx, hcirc, hsame.threads.trans hthreads, hsame.mem.trans hmem⟩
      · have hnew := hagain.pending
        rw [hmem] at hnew
        cases hnew
  · have hy' := h'.sub y hy
    have hsame := h.unvisited y hy' hv
    exact hsame.trans (h'.unvisited y hy (hsame.mem ▸ hv))
  · by_cases hy' : y ∈ w'.tree
    · have hflood := h'.removed y hy' hn
      cases hv : (w.mem y).visited with
      | false => rwa [(h.unvisited y hy' hv).mem] at hflood
      | true =>
          obtain ⟨-, hsame | hstart⟩ := h.visited y hy hv
          · rwa [hsame.mem] at hflood
          · obtain ⟨_, _, -, -, -, -, -, hmem⟩ := hstart.started
            rwa [hmem] at hflood
    · exact h.removed y hy hy'

theorem start (h : Sane w) {x : ι} (hx : x ∈ w.tree) (hv : (w.mem x).visited = true)
    (hp : ((w.mem x).newServer && (w.mem x).enabled) = true) : Flushed w (serverStart w x) := by
  have hsame : ∀ y, y ≠ x → Same w (serverStart w x) y := fun y hy ↦ serverStart_same w hy
  have hid : ((serverStart w x).mem x).serverId = (w.mem x).serverId := by rw [serverStart_mem]
  refine ⟨h.of_same hsame h.nodup fun _ ↦ ⟨h.live x hx, serverStart_owned w x, ?_⟩,
    fun y hy ↦ hy, fun y hy _ ↦ ⟨hy, ?_⟩, fun y _ hvy ↦ hsame y ?_, fun y hy hn ↦ absurd hy hn⟩
  · rw [hid]
    exact fun y hy hyx e ↦ hyx (h.ids y hy x hx e)
  · by_cases hyx : y = x
    · subst hyx
      exact .inr ⟨hp, hy, id, _, _, rfl, rfl, rfl, rfl, serverStart_threadsOf w y,
        serverStart_mem w y⟩
    · exact .inl (hsame y hyx)
  · rintro rfl
    rw [hv] at hvy
    cases hvy

theorem kill (h : Sane w) {x : ι} (hx : x ∈ w.tree) (hv : (w.mem x).visited = false)
    (hflood : (w.mem x).floodList = true) : Flushed w (killed w x true) := by
  have hsame : ∀ y, y ≠ x → Same w (killed w x true) y :=
    fun y hy ↦ killed_same (h.owned x hx) hy true
  have htree : x ∉ (killed w x true).tree := fun hm ↦ (h.nodup.mem_erase_iff.mp hm).1 rfl
  have hne : ∀ y ∈ (killed w x true).tree, y ≠ x := fun y hy e ↦ htree (e ▸ hy)
  refine ⟨h.of_same hsame (h.nodup.erase x) fun hm ↦ absurd hm htree,
    fun y hy ↦ (hsame y (hne y hy)).tree.mp hy, fun y hy hvy ↦ ?_,
    fun y hy _ ↦ hsame y (hne y hy), fun y hy hn ↦ ?_⟩
  · have hyx : y ≠ x := by
      rintro rfl
      rw [hv] at hvy
      cases hvy
    exact ⟨(hsame y hyx).tree.mpr hy, .inl (hsame y hyx)⟩
  · by_cases hyx : y = x
    · exact hyx ▸ hflood
    · exact absurd ((hsame y hyx).tree.mpr hy) hn

/-- A record that flushing leaves has the key it had. -/
theorem serverId (h : Flushed w w') {y : ι} (hy : y ∈ w'.tree) :
    (w'.mem y).serverId = (w.mem y).serverId := by
  cases hv : (w.mem y).visited with
  | false => rw [(h.unvisited y hy hv).mem]
  | true =>
      obtain ⟨-, hsame | hstart⟩ := h.visited y (h.sub y hy) hv
      · rw [hsame.mem]
      · obtain ⟨_, _, -, -, -, -, -, hmem⟩ := hstart.started
        rw [hmem]

end Flushed

/-- A server was visited and is not to start. -/
def Settled (server : IRCServer ι) : Prop :=
  server.visited = true ∧ (server.newServer && server.enabled) = false

theorem Flushed.settled {w w' : World ι} (h : Flushed w w') {y : ι} (hy : y ∈ w.tree)
    (hs : Settled (w.mem y)) : Settled (w'.mem y) := by
  obtain ⟨-, hsame | hstart⟩ := h.visited y hy hs.1
  · exact hsame.mem ▸ hs
  · exact absurd hstart.pending (by simp [hs.2])

theorem serverFlushUnvisited_flushed {w w' : World ι} {nodes : List ι} {again : Bool}
    (h : Sane w) (hnodes : ∀ x ∈ nodes, x ∈ w.tree)
    (hf : serverFlushUnvisited w nodes = some (w', again)) :
    Flushed w w' ∧ (again = false → w'.tree = w.tree ∧ ∀ y ∈ nodes, Settled (w'.mem y)) ∧
      (again = true → w'.tree.length < w.tree.length) := by
  induction nodes generalizing w with
  | nil =>
      cases hf
      exact ⟨.refl h, by simp, by simp⟩
  | cons x nodes ih =>
      have hx := hnodes x (by simp)
      cases hv : (w.mem x).visited with
      | false =>
          have hcond : (!(w.mem x).visited) = true := by simp [hv]
          rw [serverFlushUnvisited, if_pos hcond, serverKill_eq (h.owned x hx)] at hf
          by_cases hflood : (w.mem x).floodList = true
          · rw [if_pos hflood] at hf
            cases hf
            refine ⟨.kill h hx hv hflood, by simp, fun _ ↦ ?_⟩
            show (w.tree.erase x).length < w.tree.length
            rw [List.length_erase_of_mem hx]
            exact Nat.sub_lt (List.length_pos_of_mem hx) Nat.one_pos
          · rw [if_neg hflood] at hf
            cases hf
      | true =>
          have hcond : ¬ (!(w.mem x).visited) = true := by simp [hv]
          rw [serverFlushUnvisited, if_neg hcond] at hf
          dsimp only at hf
          let w₁ := if ((w.mem x).newServer && (w.mem x).enabled) = true then serverStart w x else w
          -- whether it starts or not, it is settled
          have hone : Flushed w w₁ ∧ w₁.tree = w.tree ∧ Settled (w₁.mem x) := by
            by_cases hp : ((w.mem x).newServer && (w.mem x).enabled) = true
            · simp only [w₁, if_pos hp]
              refine ⟨.start h hx hv hp, rfl, ?_⟩
              rw [serverStart_mem]
              exact ⟨hv, rfl⟩
            · simp only [w₁, if_neg hp]
              exact ⟨.refl h, trivial, hv, by simpa using hp⟩
          obtain ⟨hflush, htree, hsettled⟩ := hone
          have hnodes₁ : ∀ y ∈ nodes, y ∈ w₁.tree := by
            intro y hy
            rw [htree]
            exact hnodes y (by simp [hy])
          obtain ⟨hflush', hdone, hagain⟩ := ih hflush.sane hnodes₁ hf
          refine ⟨hflush.trans hflush', fun ha ↦ ?_, fun ha ↦ ?_⟩
          · obtain ⟨htree', hall⟩ := hdone ha
            refine ⟨htree'.trans htree, fun y hy ↦ ?_⟩
            rcases List.mem_cons.mp hy with rfl | hy
            · exact hflush'.settled (htree.symm ▸ hx) hsettled
            · exact hall y hy
          · rw [← htree]
            exact hagain ha

section Invariant

variable {P : World ι → Prop} (hsane : ∀ w, P w → Sane w)
  (hstart : ∀ w x, P w → x ∈ w.tree → (w.mem x).visited = true →
    ((w.mem x).newServer && (w.mem x).enabled) = true → P (serverStart w x))
  (hkill : ∀ w x, P w → x ∈ w.tree → (w.mem x).visited = false → P (killed w x true))

include hsane hstart hkill

/-- What starting visited servers and killing others keeps, a pass over the tree keeps. -/
theorem serverFlushUnvisited_invariant {w w' : World ι} {nodes : List ι} {again : Bool}
    (h : P w) (hnodes : ∀ x ∈ nodes, x ∈ w.tree)
    (hf : serverFlushUnvisited w nodes = some (w', again)) : P w' := by
  induction nodes generalizing w with
  | nil =>
      cases hf
      exact h
  | cons x nodes ih =>
      have hx := hnodes x (by simp)
      rw [serverFlushUnvisited] at hf
      cases hv : (w.mem x).visited with
      | false =>
          rw [if_pos (by simp [hv]), serverKill_eq ((hsane w h).owned x hx)] at hf
          split at hf
          · cases hf
            exact hkill w x h hx hv
          · cases hf
      | true =>
          rw [if_neg (by simp [hv])] at hf
          dsimp only at hf
          split at hf
          · rename_i hp
            exact ih (hstart w x h hx hv hp) (fun y hy ↦ hnodes y (by simp [hy])) hf
          · exact ih h (fun y hy ↦ hnodes y (by simp [hy])) hf

theorem flushLoop_invariant {fuel : ℕ} {w w' : World ι} (h : P w)
    (hf : flushLoop fuel w = some w') : P w' := by
  induction fuel generalizing w with
  | zero => cases hf
  | succ fuel ih =>
      obtain ⟨⟨w₁, again⟩, h₁, hf⟩ := Option.bind_eq_some_iff.mp hf
      have hw₁ : P w₁ :=
        serverFlushUnvisited_invariant hsane hstart hkill h (fun _ hx ↦ hx) h₁
      cases again with
      | true => exact ih hw₁ hf
      | false =>
          cases hf
          exact hw₁

end Invariant

theorem serverFlushUnvisited_isSome {w : World ι} {nodes : List ι} (h : Sane w)
    (hnodes : ∀ x ∈ nodes, x ∈ w.tree)
    (hflood : ∀ x ∈ nodes, (w.mem x).visited = false → (w.mem x).floodList = true) :
    ∃ w' again, serverFlushUnvisited w nodes = some (w', again) := by
  induction nodes generalizing w with
  | nil => exact ⟨w, false, rfl⟩
  | cons x nodes ih =>
      have hx := hnodes x (by simp)
      rw [serverFlushUnvisited]
      cases hv : (w.mem x).visited with
      | false =>
          rw [if_pos (by simp), serverKill_eq (h.owned x hx), if_pos (hflood x (by simp) hv)]
          exact ⟨_, true, rfl⟩
      | true =>
          rw [if_neg (by simp)]
          dsimp only
          have hrest : ∀ y ∈ nodes, (w.mem y).visited = false → (w.mem y).floodList = true :=
            fun y hy ↦ hflood y (by simp [hy])
          split
          · rename_i hp
            refine ih (Flushed.start h hx hv hp).sane (fun y hy ↦ hnodes y (by simp [hy])) ?_
            intro y hy hvy
            by_cases hyx : y = x
            · rw [hyx, serverStart_mem] at hvy
              rw [hv] at hvy
              cases hvy
            · rw [(serverStart_same w hyx).mem] at hvy ⊢
              exact hrest y hy hvy
          · exact ih h (fun y hy ↦ hnodes y (by simp [hy])) hrest

theorem flushLoop_flushed {fuel : ℕ} {w w' : World ι} (h : Sane w)
    (hf : flushLoop fuel w = some w') : Flushed w w' ∧ ∀ y ∈ w'.tree, Settled (w'.mem y) := by
  induction fuel generalizing w with
  | zero => cases hf
  | succ fuel ih =>
      obtain ⟨⟨w₁, again⟩, h₁, hf⟩ := Option.bind_eq_some_iff.mp hf
      obtain ⟨hflush, hdone, -⟩ := serverFlushUnvisited_flushed h (fun _ hx ↦ hx) h₁
      cases again with
      | true =>
          obtain ⟨hflush', hall⟩ := ih hflush.sane hf
          exact ⟨hflush.trans hflush', hall⟩
      | false =>
          obtain rfl := Option.some.inj hf
          obtain ⟨htree, hall⟩ := hdone rfl
          exact ⟨hflush, htree ▸ hall⟩

/-- The loop ends: each turn but the last kills a server. -/
theorem flushLoop_isSome {fuel : ℕ} {w : World ι} (h : Sane w) (hfuel : w.tree.length < fuel)
    (hflood : ∀ x ∈ w.tree, (w.mem x).visited = false → (w.mem x).floodList = true) :
    ∃ w', flushLoop fuel w = some w' := by
  induction fuel generalizing w with
  | zero => cases hfuel
  | succ fuel ih =>
      obtain ⟨w₁, again, h₁⟩ := serverFlushUnvisited_isSome h (fun _ hx ↦ hx) hflood
      obtain ⟨hflush, -, hless⟩ := serverFlushUnvisited_flushed h (fun _ hx ↦ hx) h₁
      rw [flushLoop, h₁]
      cases again with
      | false => exact ⟨w₁, rfl⟩
      | true =>
          refine ih hflush.sane (Nat.lt_of_lt_of_le (hless rfl) (Nat.le_of_lt_succ hfuel)) fun x hx hv ↦ ?_
          cases hvx : (w.mem x).visited with
          | false =>
              have hsame := hflush.unvisited x hx hvx
              rw [hsame.mem]
              exact hflood x (hflush.sub x hx) hvx
          | true =>
              obtain ⟨-, hsame | hstart⟩ := hflush.visited x (hflush.sub x hx) hvx
              · rw [hsame.mem, hvx] at hv
                cases hv
              · obtain ⟨_, _, -, -, -, -, -, hmem⟩ := hstart.started
                rw [hmem, hvx] at hv
                cases hv

end Beirdobot.Servers
