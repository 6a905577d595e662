import Beirdobot.Library.System
import Beirdobot.Servers.Reload

/-!
# Runs of loads, saves, reloads and shutdowns

While the rows of the table agree with the form about the servers that run,
`serverKill` stops their threads before it destroys what they use.
-/

namespace Beirdobot.Servers

open Library

variable {ι : Type} [DecidableEq ι]

/-! ## Servers under control -/

/-- A server that runs: `serverKill` would stop its threads, and what they use is there. -/
structure Tended (w : World ι) (x : ι) : Prop where
  running : Running w x
  stops : Servers.stops (w.mem x) = true
  started : (w.mem x).newServer = false
  txQueue : (w.mem x).txQueue = true
  floodList : (w.mem x).floodList = true
  saved : (w.mem x).serverId ≠ -1

/-- Threads run only on servers of the tree that `serverKill` can stop, and it never
left any. -/
structure Controlled (w : World ι) : Prop extends Sane w where
  threads : ∀ t ∈ w.threads, t.record ∈ w.tree
  tended : ∀ x ∈ w.tree, w.threadsOf x = [] ∨ Tended w x
  clean : ∀ e ∈ w.destroyed, e.2 = []

theorem Running.of_same {w w' : World ι} {x : ι} (h : Running w x) (hs : Same w w' x) :
    Running w' x := by
  obtain ⟨c, tx, irc, hpair, hthreads, htx, hirc⟩ := h
  exact ⟨c, tx, irc, hpair, hs.threads.trans hthreads, hs.mem ▸ htx, hs.mem ▸ hirc⟩

theorem Tended.of_same {w w' : World ι} {x : ι} (h : Tended w x) (hs : Same w w' x) :
    Tended w' x := by
  refine ⟨h.running.of_same hs, ?_, ?_, ?_, ?_, ?_⟩
  · exact hs.mem ▸ h.stops
  · exact hs.mem ▸ h.started
  · exact hs.mem ▸ h.txQueue
  · exact hs.mem ▸ h.floodList
  · exact hs.mem ▸ h.saved

/-- A change in place that keeps a server tended. -/
theorem Tended.modify {w : World ι} {x : ι} (h : Tended w x) (f : IRCServer ι → IRCServer ι)
    (htx : (f (w.mem x)).txThreadId = (w.mem x).txThreadId)
    (hirc : (f (w.mem x)).threadId = (w.mem x).threadId)
    (hstops : Servers.stops (f (w.mem x)) = true)
    (hstarted : (f (w.mem x)).newServer = (w.mem x).newServer)
    (htxQueue : (f (w.mem x)).txQueue = (w.mem x).txQueue)
    (hflood : (f (w.mem x)).floodList = (w.mem x).floodList)
    (hid : (f (w.mem x)).serverId = (w.mem x).serverId) : Tended (w.modify x f) x := by
  obtain ⟨c, tx, irc, hpair, hthreads, htx', hirc'⟩ := h.running
  constructor
  · refine ⟨c, tx, irc, hpair, hthreads, ?_, ?_⟩
    · rw [modify_mem_self, htx, htx']
    · rw [modify_mem_self, hirc, hirc']
  · rw [modify_mem_self, hstops]
  · rw [modify_mem_self, hstarted, h.started]
  · rw [modify_mem_self, htxQueue, h.txQueue]
  · rw [modify_mem_self, hflood, h.floodList]
  · rw [modify_mem_self, hid]
    exact h.saved

namespace Controlled

variable {w w' : World ι} {x : ι}

/-- A record that is not in the tree has no threads. -/
theorem idle (h : Controlled w) (hx : x ∉ w.tree) : w.threadsOf x = [] := by
  refine List.filter_eq_nil_iff.mpr fun t ht ↦ ?_
  simp only [decide_eq_true_eq]
  rintro rfl
  exact hx (h.threads t ht)

/-- Where at most one record changed, it is enough that it is idle or tended. -/
theorem of_same (h : Controlled w) (hs : Sane w') (hsame : ∀ y, y ≠ x → Same w w' y)
    (hx : w'.threadsOf x = [] ∨ (x ∈ w'.tree ∧ Tended w' x))
    (hclean : ∀ e ∈ w'.destroyed, e.2 = []) : Controlled w' := by
  refine ⟨hs, fun t ht ↦ ?_, fun y hy ↦ ?_, hclean⟩
  · by_cases htx : t.record = x
    · rcases hx with hidle | ⟨hx, -⟩
      · have hmem : t ∈ w'.threadsOf x := mem_threadsOf.mpr ⟨ht, htx⟩
        rw [hidle] at hmem
        cases hmem
      · exact htx ▸ hx
    · have hmem : t ∈ w.threadsOf t.record :=
        (hsame _ htx).threads ▸ mem_threadsOf.mpr ⟨ht, rfl⟩
      exact (hsame _ htx).tree.mpr (h.threads t (mem_threadsOf.mp hmem).1)
  · by_cases hyx : y = x
    · subst hyx
      exact hx.imp_right And.right
    · have hsame := hsame y hyx
      exact (h.tended y (hsame.tree.mp hy)).imp hsame.threads.trans (Tended.of_same · hsame)

/-- `serverKill` stops the threads of a server. -/
theorem killed_idle (h : Controlled w) (hx : x ∈ w.tree) (unalloc : Bool) :
    (killed w x unalloc).threadsOf x = [] := by
  rw [killed_threadsOf]
  rcases h.tended x hx with hidle | htended
  · simp [astray, hidle]
  · rw [if_pos htended.stops, htended.running.astray_eq]

theorem kill (h : Controlled w) (hx : x ∈ w.tree) : Controlled (killed w x true) := by
  have hsame : ∀ y, y ≠ x → Same w (killed w x true) y :=
    fun y hy ↦ killed_same (h.owned x hx) hy true
  have htree : x ∉ (killed w x true).tree := fun hm ↦ (h.nodup.mem_erase_iff.mp hm).1 rfl
  refine h.of_same (h.toSane.of_same hsame (h.nodup.erase x) fun hm ↦ absurd hm htree) hsame
    (.inl (h.killed_idle hx true)) fun e he ↦ ?_
  rcases List.mem_cons.mp he with rfl | he
  · exact h.killed_idle hx true
  · exact h.clean e he

theorem start (h : Controlled w) (hx : x ∈ w.tree) (hidle : w.threadsOf x = [])
    (henabled : (w.mem x).enabled = true) (hflood : (w.mem x).floodList = true)
    (hsaved : (w.mem x).serverId ≠ -1) : Controlled (serverStart w x) := by
  have hsame : ∀ y, y ≠ x → Same w (serverStart w x) y := fun y hy ↦ serverStart_same w hy
  have hid : ((serverStart w x).mem x).serverId = (w.mem x).serverId := by rw [serverStart_mem]
  have hsane : Sane (serverStart w x) := by
    refine h.toSane.of_same hsame h.nodup fun _ ↦ ⟨h.live x hx, serverStart_owned w x, ?_⟩
    rw [hid]
    exact fun y hy hyx e ↦ hyx (h.ids y hy x hx e)
  refine h.of_same hsane hsame (.inr ⟨hx, ?_⟩) h.clean
  have hthreads := serverStart_threadsOf w x
  rw [hidle, List.nil_append] at hthreads
  constructor
  · refine ⟨(w.mem x).connection, _, _, ⟨rfl, rfl, rfl, rfl⟩, hthreads, ?_, ?_⟩ <;>
      rw [serverStart_mem]
  · rw [serverStart_mem]
    simp [Servers.stops, henabled]
  · rw [serverStart_mem]
  · rw [serverStart_mem]
  · rw [serverStart_mem]
    exact hflood
  · rw [hid]
    exact hsaved

/-- A record changes in place, and stays tended if it was. -/
theorem modify (h : Controlled w) (x : ι) (f : IRCServer ι → IRCServer ι)
    (hid : (f (w.mem x)).serverId = (w.mem x).serverId)
    (htx : (f (w.mem x)).txThreadId = (w.mem x).txThreadId)
    (hirc : (f (w.mem x)).threadId = (w.mem x).threadId)
    (hx : x ∈ w.tree → Tended w x → Tended (w.modify x f) x) : Controlled (w.modify x f) := by
  have hsame : ∀ y, y ≠ x → Same w (w.modify x f) y := fun y hy ↦ .modify hy f
  refine h.of_same (h.toSane.of_same hsame h.nodup fun hx ↦ ⟨h.live x hx, ?_, ?_⟩) hsame ?_ h.clean
  · intro t ht
    rw [modify_mem_self, htx, hirc] at ht
    exact h.owned x hx t ht
  · rw [modify_mem_self, hid]
    exact fun y hy hyx e ↦ hyx (h.ids y hy x hx e)
  · by_cases hx' : x ∈ w.tree
    · exact (h.tended x hx').imp id fun ht ↦ ⟨hx', hx hx' ht⟩
    · exact .inl (h.idle hx')

end Controlled

/-! ## Loading -/

/-- A row agrees with the form about a server that runs: it disables the server only
after the form did, and enables it after the form touched that only if the server is
renamed as well. -/
structure Agrees (server : IRCServer ι) (row : Row) : Prop where
  disables : row.enabled = false → server.enabledChanged = true
  enables : row.enabled = true → server.enabledChanged = true → ¬ KeepsNames server row

/-- The rows agree with the form about the servers that run. -/
def RowsAgree (w : World ι) (rows : List Row) : Prop :=
  ∀ x ∈ w.tree, w.threadsOf x ≠ [] → ∀ row ∈ rows, (w.mem x).serverId = row.serverId →
    Agrees (w.mem x) row

/-- A visited record was loaded since the form was last saved. -/
def Even (w : World ι) : Prop :=
  ∀ x ∈ w.tree, (w.mem x).visited = true → (w.mem x).floodList = true ∧
    (w.mem x).oldEnabled = (w.mem x).enabled ∧ (w.mem x).enabledChanged = false ∧
    (w.mem x).serverId ≠ -1

omit [DecidableEq ι] in
theorem Loaded.even {w : World ι} {x : ι} {row : Row} {new : Bool} (h : Loaded w x row new)
    (hrow : row.serverId ≠ -1) : (w.mem x).floodList = true ∧
      (w.mem x).oldEnabled = (w.mem x).enabled ∧ (w.mem x).enabledChanged = false ∧
      (w.mem x).serverId ≠ -1 := by
  refine ⟨h.floodList, ?_, h.enabledChanged, ?_⟩
  · rw [h.oldEnabled, h.enabled]
  · rw [h.serverId]
    exact hrow

section Loads

variable {malloc : List ι → ι} (hmalloc : ∀ l, malloc l ∉ l) {w w' : World ι}

include hmalloc

theorem loadServer_even {row : Row} (h : Sane w) (he : Even w) (hrow : row.serverId ≠ -1)
    (hl : loadServer malloc w row = some w') : Even w' := by
  intro y hy hv
  by_cases hid : (w'.mem y).serverId = row.serverId
  · cases hf : findServer w row.serverId with
    | some x =>
        obtain ⟨hx, hxid⟩ := findServer_some hf
        obtain ⟨hsame, hcase⟩ := loadServer_found_cases hf (h.owned x hx) (h.live x hx) hl
        have hyx : y = x := by
          by_contra hyx
          have hsame := hsame y hyx
          rw [hsame.mem] at hid
          exact hyx (h.ids y (hsame.tree.mp hy) x hx (hid.trans hxid.symm))
        subst hyx
        cases hcase with
        | kept _ _ loaded => exact loaded.even hrow
        | disabled _ _ _ loaded => exact loaded.even hrow
        | renamed _ _ tree =>
            rw [tree] at hy
            exact absurd rfl (h.nodup.mem_erase_iff.mp hy).1
    | none =>
        obtain ⟨w₁, h₁, hsame, hloaded, -⟩ := loadServer_new hmalloc hf h.live
        obtain rfl := Option.some.inj (h₁.symm.trans hl)
        by_cases hyx : y = malloc w.live
        · exact hyx ▸ hloaded.even hrow
        · have hsame := hsame y hyx
          rw [hsame.mem] at hid
          exact absurd hid (findServer_none hf y (hsame.tree.mp hy))
  · obtain ⟨hold, hsame⟩ := loadServer_old hmalloc h hl hy hid
    rw [hsame.mem] at hv ⊢
    exact he y hold hv

theorem Controlled.loadServer {row : Row} (h : Controlled w) (hagree : RowsAgree w [row])
    (hrow : row.serverId ≠ -1) (hl : Servers.loadServer malloc w row = some w') :
    Controlled w' := by
  have hsane := loadServer_sane hmalloc h.toSane hl
  cases hf : findServer w row.serverId with
  | none =>
      obtain ⟨w₁, h₁, hsame, hloaded, hthreads, hdestroyed, -⟩ :=
        loadServer_new hmalloc hf h.live
      obtain rfl := Option.some.inj (h₁.symm.trans hl)
      refine h.of_same hsane hsame (.inl ?_) (hdestroyed ▸ h.clean)
      rw [World.threadsOf, hthreads]
      exact h.idle fun hm ↦ hmalloc w.live (h.live _ hm)
  | some x =>
      obtain ⟨hx, hid⟩ := findServer_some hf
      obtain ⟨hsame, hcase⟩ := loadServer_found_cases hf (h.owned x hx) (h.live x hx) hl
      have hagree : w.threadsOf x ≠ [] → Agrees (w.mem x) row := fun hne ↦
        hagree x hx hne row (by simp) hid
      have hstray : astray w x = [] := by
        rcases h.tended x hx with hidle | htended
        · simp [astray, hidle]
        · exact htended.running.astray_eq
      -- a server whose threads `serverKill` leaves alone does not run
      have hunstopped : (row.enabled || (w.mem x).enabledChanged) = false → w.threadsOf x = [] := by
        intro hoff
        by_contra hne
        simp only [Bool.or_eq_false_iff] at hoff
        rw [(hagree hne).disables hoff.1] at hoff
        cases hoff.2
      cases hcase with
      | kept hrename hdisable loaded tree threads tx irc txQueue destroyed =>
          have hsame_threads : w'.threadsOf x = w.threadsOf x := by
            rw [World.threadsOf, threads, World.threadsOf]
          refine h.of_same hsane hsame ?_ (destroyed ▸ h.clean)
          refine (h.tended x hx).imp hsame_threads.trans fun ht ↦ ⟨loaded.tree, ?_⟩
          have hagree := hagree ht.running.ne_nil
          have hkeeps := not_renames_iff.mp hrename
          have hon : row.enabled = true := by
            by_contra hoff
            have hchanged := hagree.disables (by simpa using hoff)
            simp [disables, hchanged, hoff] at hdisable
          have hunchanged : (w.mem x).enabledChanged = false := by
            by_contra hchanged
            exact hagree.enables hon (by simpa using hchanged) hkeeps
          constructor
          · obtain ⟨c, txThread, ircThread, hpair, hthreads, htx, hirc⟩ := ht.running
            exact ⟨c, txThread, ircThread, hpair, hsame_threads.trans hthreads, tx.trans htx,
              irc.trans hirc⟩
          · rw [Servers.stops, loaded.enabled, hon, Bool.true_or]
          · rw [loaded.newServer, hunchanged, Bool.false_and]
          · rw [txQueue]
            exact ht.txQueue
          · exact loaded.floodList
          · rw [loaded.serverId]
            exact hrow
      | disabled hrename hdisable hflood loaded tree threads destroyed =>
          have hoff : row.enabled = false := by
            simp only [disables, Bool.and_eq_true, Bool.not_eq_true'] at hdisable
            exact hdisable.2
          have hidle : w'.threadsOf x = [] := by
            rw [threads]
            split
            · exact hstray
            · rename_i hchanged
              exact hunstopped (by simp [hoff, hchanged])
          refine h.of_same hsane hsame (.inl hidle) fun e he ↦ ?_
          rw [destroyed] at he
          rcases List.mem_cons.mp he with rfl | he
          · exact hidle
          · exact h.clean e he
      | renamed hrename hflood tree threads destroyed =>
          have hidle : w'.threadsOf x = [] := by
            rw [threads]
            split
            · exact hstray
            · rename_i hoff
              exact hunstopped (by simpa using hoff)
          refine h.of_same hsane hsame (.inl hidle) fun e he ↦ ?_
          rw [destroyed] at he
          rcases List.mem_cons.mp he with rfl | he
          · exact hidle
          · exact h.clean e he

theorem Controlled.loads {rows : List Row} (h : Controlled w) (he : Even w)
    (hagree : RowsAgree w rows) (hrows : (rows.map Row.serverId).Nodup)
    (hsaved : ∀ row ∈ rows, row.serverId ≠ -1)
    (hl : rows.foldlM (Servers.loadServer malloc) w = some w') : Controlled w' ∧ Even w' := by
  induction rows generalizing w with
  | nil =>
      cases hl
      exact ⟨h, he⟩
  | cons row rows ih =>
      obtain ⟨hid, hrows⟩ := List.nodup_cons.mp hrows
      obtain ⟨w₁, h₁, hl⟩ := Option.bind_eq_some_iff.mp hl
      have hrow := hsaved row (by simp)
      have hhead : RowsAgree w [row] := fun x hx hne r hr ↦
        hagree x hx hne r (by simp [List.mem_singleton.mp hr])
      refine ih (h.loadServer hmalloc hhead hrow h₁) (loadServer_even hmalloc h.toSane he hrow h₁)
        (fun x hx hne r hr hxid ↦ ?_) hrows (fun r hr ↦ hsaved r (by simp [hr])) hl
      have hne' : r.serverId ≠ row.serverId := fun e ↦ hid (e ▸ List.mem_map_of_mem hr)
      obtain ⟨hold, hsame⟩ :=
        loadServer_old hmalloc h.toSane h₁ hx fun e ↦ hne' (hxid.symm.trans e)
      rw [hsame.mem] at hxid ⊢
      exact hagree x hold (hsame.threads ▸ hne) r (by simp [hr]) hxid

end Loads

/-! ## Reloading -/

theorem Controlled.serverUnvisit {w : World ι} (h : Controlled w) (nodes : List ι) :
    Controlled (Servers.serverUnvisit w nodes) := by
  induction nodes generalizing w with
  | nil => exact h
  | cons x nodes ih =>
      refine ih (h.modify x _ rfl rfl rfl fun _ ht ↦ ?_)
      exact ht.modify _ rfl rfl ht.stops rfl rfl rfl rfl

theorem Controlled.dbLoadChannels {w : World ι} (h : Controlled w) (hasChannels : ℤ → Bool)
    (nodes : List ι) : Controlled (Servers.dbLoadChannels hasChannels w nodes) := by
  induction nodes generalizing w with
  | nil => exact h
  | cons x nodes ih =>
      refine ih (h.modify x _ rfl rfl rfl fun _ ht ↦ ?_)
      exact ht.modify _ rfl rfl ht.stops rfl rfl rfl rfl

theorem serverUnvisit_even (w : World ι) : Even (serverUnvisit w w.tree) := by
  intro x hx hv
  rw [(serverUnvisit_rest w w.tree).1] at hx
  rw [serverUnvisit_mem, if_pos hx] at hv
  cases hv

theorem Even.dbLoadChannels {w : World ι} (h : Even w) (hasChannels : ℤ → Bool) (nodes : List ι) :
    Even (Servers.dbLoadChannels hasChannels w nodes) := by
  intro x hx hv
  rw [(dbLoadChannels_rest ..).1] at hx
  obtain ⟨channels, hmem⟩ := dbLoadChannels_mem hasChannels w nodes x
  rw [hmem] at hv ⊢
  exact h x hx hv

theorem Even.start {w : World ι} {x : ι} (h : Even w) : Even (serverStart w x) := by
  intro y hy hv
  by_cases hyx : y = x
  · subst hyx
    rw [serverStart_mem] at hv ⊢
    exact h y hy hv
  · rw [(serverStart_same w hyx).mem] at hv ⊢
    exact h y hy hv

theorem Even.kill {w : World ι} {x : ι} (h : Even w) (hs : Sane w) (hx : x ∈ w.tree) :
    Even (killed w x true) := by
  intro y hy hv
  obtain ⟨hyx, hy⟩ := hs.nodup.mem_erase_iff.mp hy
  rw [(killed_same (hs.owned x hx) hyx true).mem] at hv ⊢
  exact h y hy hv

/-- Between two events a server that runs is enabled, and the form knows. -/
structure Steady (w : World ι) : Prop extends Controlled w where
  enabled : ∀ x ∈ w.tree, w.threadsOf x = [] ∨
    ((w.mem x).enabled = true ∧ (w.mem x).oldEnabled = true)

theorem Controlled.steady {w : World ι} (h : Controlled w) (he : Even w)
    (hv : ∀ x ∈ w.tree, (w.mem x).visited = true) : Steady w := by
  refine ⟨h, fun x hx ↦ (h.tended x hx).imp id fun ht ↦ ?_⟩
  obtain ⟨-, hold, hunchanged, -⟩ := he x hx (hv x hx)
  have hon := ht.stops
  rw [Servers.stops, hunchanged, Bool.or_false] at hon
  exact ⟨hon, hold.trans hon⟩

theorem Controlled.flushLoop {fuel : ℕ} {w w' : World ι} (h : Controlled w) (he : Even w)
    (hf : Servers.flushLoop fuel w = some w') : Steady w' := by
  have hinv : Controlled w' ∧ Even w' := by
    refine flushLoop_invariant (P := fun w ↦ Controlled w ∧ Even w) (fun w h ↦ h.1.toSane) ?_ ?_
      ⟨h, he⟩ hf
    · intro w x ⟨h, he⟩ hx hv hp
      obtain ⟨hflood, -, -, hsaved⟩ := he x hx hv
      rw [Bool.and_eq_true] at hp
      have hidle : w.threadsOf x = [] := (h.tended x hx).resolve_right fun ht ↦ by
        rw [ht.started] at hp
        cases hp.1
      exact ⟨h.start hx hidle hp.2 hflood hsaved, he.start⟩
    · intro w x ⟨h, he⟩ hx hv
      exact ⟨h.kill hx, he.kill h.toSane hx⟩
  exact hinv.1.steady hinv.2 fun x hx ↦ ((flushLoop_flushed h.toSane hf).2 x hx).1

/-- What the primary key of `servers` gives: the rows have distinct numbers, and -1 is
for a server that is not saved. -/
def Database.Keyed (db : Database) : Prop :=
  ∀ rows ∈ db.servers, (rows.map Row.serverId).Nodup ∧ ∀ row ∈ rows, row.serverId ≠ -1

instance (db : Database) : Decidable db.Keyed :=
  inferInstanceAs (Decidable (∀ rows ∈ db.servers,
    (rows.map Row.serverId).Nodup ∧ ∀ row ∈ rows, row.serverId ≠ -1))

theorem RowsAgree.serverUnvisit {w : World ι} {rows : List Row} (h : RowsAgree w rows) :
    RowsAgree (Servers.serverUnvisit w w.tree) rows := by
  intro x hx hne row hrow hid
  rw [(serverUnvisit_rest w w.tree).1] at hx
  rw [serverUnvisit_threadsOf] at hne
  rw [serverUnvisit_mem, if_pos hx] at hid ⊢
  have hagree := h x hx hne row hrow hid
  exact ⟨hagree.disables, fun hon hchanged hkeeps ↦
    hagree.enables hon hchanged ⟨hkeeps.threadName, hkeeps.txThreadName⟩⟩

theorem Controlled.reload {malloc : List ι → ι} (hmalloc : ∀ l, malloc l ∉ l) {fuel : ℕ}
    {w w' : World ι} {db : Database} (h : Controlled w) (hdb : db.Keyed)
    (hagree : ∀ rows ∈ db.servers, RowsAgree w rows)
    (hr : mainSighup malloc fuel w db = some w') : Steady w' := by
  obtain ⟨w₁, h₁, hf⟩ := Option.bind_eq_some_iff.mp hr
  have hloaded : Controlled w₁ ∧ Even w₁ := by
    cases hrows : db.servers with
    | none =>
        rw [hrows] at h₁
        cases h₁
        exact ⟨h.serverUnvisit w.tree, serverUnvisit_even w⟩
    | some rows =>
        rw [hrows] at h₁
        obtain ⟨hkeys, hsaved⟩ := hdb rows hrows
        exact (h.serverUnvisit w.tree).loads hmalloc (serverUnvisit_even w)
          (hagree rows hrows).serverUnvisit hkeys hsaved h₁
  exact (hloaded.1.dbLoadChannels _ _).flushLoop (hloaded.2.dbLoadChannels _ _) hf

/-! ## The form -/

namespace Steady

variable {w : World ι}

theorem cursesServerDisplay (h : Steady w) (x : ι) : Steady (Servers.cursesServerDisplay w x) := by
  have hc : Controlled (Servers.cursesServerDisplay w x) := by
    refine h.toControlled.modify x _ rfl rfl rfl fun _ ht ↦ ?_
    exact ht.modify _ rfl rfl ht.stops rfl rfl rfl rfl
  refine ⟨hc, fun y hy ↦ ?_⟩
  by_cases hyx : y = x
  · subst hyx
    unfold Servers.cursesServerDisplay
    rw [modify_mem_self]
    exact (h.enabled y hy).imp id fun hon ↦ ⟨hon.1, hon.1⟩
  · unfold Servers.cursesServerDisplay
    rw [modify_mem_ne _ _ _ hyx]
    exact h.enabled y hy

theorem cursesServerNew {malloc : List ι → ι} (hmalloc : ∀ l, malloc l ∉ l) (h : Steady w)
    (hnone : findServer w (-1) = none) : Steady (Servers.cursesServerNew malloc w) := by
  let x := malloc w.live
  let w₁ : World ι :=
    { w.modify x fun _ ↦ { IRCServer.cleared ι with serverId := -1 } with live := x :: w.live }
  let w₂ : World ι := { w₁ with tree := addServer w₁.mem x w₁.tree }
  have hx : x ∉ w.tree := fun hm ↦ hmalloc w.live (h.live _ hm)
  have htree : ∀ y, y ∈ w₂.tree ↔ y = x ∨ y ∈ w.tree := fun y ↦ mem_addServer
  have hmem : w₂.mem x = { IRCServer.cleared ι with serverId := -1 } :=
    Function.update_self ..
  have hsame : ∀ y, y ≠ x → Same w w₂ y := fun y hy ↦ by
    refine ⟨Function.update_of_ne hy .., rfl, ?_, ?_⟩
    · rw [htree]
      simp [hy]
    · simp [w₂, w₁, hy]
  have hidle : w₂.threadsOf x = [] := h.idle hx
  have hsane : Sane w₂ := by
    refine h.toSane.of_same hsame (nodup_addServer hx h.nodup) fun _ ↦ ⟨?_, ?_, ?_⟩
    · simp [w₂, w₁]
    · intro t ht
      rw [hmem] at ht
      rcases ht with ht | ht <;> cases ht
    · rw [hmem]
      exact fun y hy _ ↦ findServer_none hnone y hy
  have hsteady : Steady w₂ := by
    refine ⟨h.toControlled.of_same hsane hsame (.inl hidle) h.clean, fun y hy ↦ ?_⟩
    by_cases hyx : y = x
    · exact .inl (hyx ▸ hidle)
    · have hsame := hsame y hyx
      rw [hsame.mem, hsame.threads]
      exact h.enabled y (hsame.tree.mp hy)
  exact hsteady.cursesServerDisplay x

theorem cursesServerCleanup (h : Steady w) : Steady (Servers.cursesServerCleanup w) := by
  unfold Servers.cursesServerCleanup
  cases hf : findServer w (-1) with
  | none => exact h
  | some x =>
      obtain ⟨hx, hid⟩ := findServer_some hf
      let w' : World ι := { w with tree := w.tree.erase x, live := w.live.erase x }
      have hidle : w.threadsOf x = [] := (h.tended x hx).resolve_right fun ht ↦ ht.saved hid
      have hsame : ∀ y, y ≠ x → Same w w' y := fun y hy ↦
        ⟨rfl, rfl, List.mem_erase_of_ne hy, List.mem_erase_of_ne hy⟩
      have hgone : x ∉ w'.tree := fun hm ↦ (h.nodup.mem_erase_iff.mp hm).1 rfl
      have hsane : Sane w' :=
        h.toSane.of_same hsame (h.nodup.erase x) fun hm ↦ absurd hm hgone
      exact ⟨h.toControlled.of_same hsane hsame (.inl hidle) h.clean,
        fun y hy ↦ h.enabled y (List.mem_of_mem_erase hy)⟩

/-- The form leaves a server that runs with one of the flags that `serverKill` looks at. -/
theorem fields (h : Steady w) (x : ι) (settings : Settings) (enabled : Bool) :
    Controlled (let w₁ := saveFields w x settings enabled
      if (w₁.mem x).enabled != (w₁.mem x).oldEnabled then
        w₁.modify x fun server ↦ { server with enabledChanged := true }
      else w₁) := by
  dsimp only
  have hmem : (saveFields w x settings enabled).mem x =
      { w.mem x with toSettings := settings, enabled } := modify_mem_self ..
  rw [hmem]
  split
  · unfold saveFields
    rw [modify_modify]
    refine h.toControlled.modify x _ rfl rfl rfl fun _ ht ↦ ?_
    exact ht.modify _ rfl rfl (Bool.or_true _) rfl rfl rfl rfl
  · rename_i hkept
    refine h.toControlled.modify x _ rfl rfl rfl fun hx ht ↦ ?_
    have hon : enabled = true := by
      have hold := ((h.enabled x hx).resolve_left ht.running.ne_nil).2
      rw [hold] at hkept
      simpa using hkept
    refine ht.modify _ rfl rfl ?_ rfl rfl rfl rfl
    simp [Servers.stops, hon]

end Steady

/-- The number of a new server is not that of another one. -/
theorem Controlled.dbUpdateServer {w : World ι} (h : Controlled w) (x : ι) {insertid : ℤ}
    (hfresh : ∀ y ∈ w.tree, (w.mem y).serverId ≠ insertid) :
    Controlled (Servers.dbUpdateServer w x insertid) := by
  unfold Servers.dbUpdateServer
  split
  · rename_i hnew
    cases hf : findServer w (-1) with
    | none => exact h
    | some item =>
        obtain ⟨hitem, hid⟩ := findServer_some hf
        -- the record of the form is idle: it is the new one, or was freed
        have hidle : w.threadsOf x = [] := by
          by_cases hx : x ∈ w.tree
          · exact (h.tended x hx).resolve_right fun ht ↦ ht.saved hnew.1
          · exact h.idle hx
        let w₁ : World ι := World.modify { w with tree := w.tree.erase item } x fun server ↦
          { server with serverId := insertid, justAdded := true }
        let w₂ : World ι := { w₁ with tree := addServer w₁.mem item w₁.tree }
        have htree : ∀ y, y ∈ w₂.tree ↔ y ∈ w.tree := by
          intro y
          rw [mem_addServer]
          simp only [w₁, modify_tree, h.nodup.mem_erase_iff]
          by_cases hy : y = item
          · simp [hy, hitem]
          · simp [hy]
        have hmem : w₂.mem x = { w.mem x with serverId := insertid, justAdded := true } :=
          Function.update_self ..
        have hsame : ∀ y, y ≠ x → Same w w₂ y := fun y hy ↦
          ⟨Function.update_of_ne hy .., rfl, htree y, .rfl⟩
        have hnodup : w₂.tree.Nodup :=
          nodup_addServer (fun hm ↦ (h.nodup.mem_erase_iff.mp hm).1 rfl) (h.nodup.erase item)
        refine h.of_same (h.toSane.of_same hsame hnodup fun hx ↦ ?_) hsame (.inl hidle) h.clean
        have hx := (htree x).mp hx
        refine ⟨h.live x hx, fun t ht ↦ ?_, ?_⟩
        · rw [hmem] at ht
          exact h.owned x hx t ht
        · rw [hmem]
          exact fun y hy _ ↦ hfresh y hy
  · exact h

theorem Steady.cursesSave {w : World ι} (h : Steady w) (x : ι) (settings : Settings)
    (enabled : Bool) {insertid : ℤ} (hfresh : ∀ y ∈ w.tree, (w.mem y).serverId ≠ insertid) :
    Controlled (Servers.cursesSave w x settings enabled insertid) := by
  refine (h.fields x settings enabled).dbUpdateServer x fun y hy ↦ ?_
  have hid : ((saveFields w x settings enabled).mem y).serverId = (w.mem y).serverId := by
    unfold saveFields World.modify
    by_cases hyx : y = x <;> simp [hyx]
  dsimp only at hy ⊢
  split at hy
  · rename_i hchanged
    rw [if_pos hchanged]
    have hid' : (((saveFields w x settings enabled).modify x fun server ↦
        { server with enabledChanged := true }).mem y).serverId = (w.mem y).serverId := by
      rw [← hid]
      by_cases hyx : y = x
      · subst hyx
        rw [modify_mem_self]
      · rw [modify_mem_ne _ _ _ hyx]
    rw [hid']
    exact hfresh y hy
  · rename_i hkept
    rw [if_neg hkept, hid]
    exact hfresh y hy

/-! ## Starting and shutting down -/

/-- Nothing runs while the first servers are loaded, and each record is visited. -/
theorem loads_first {malloc : List ι → ι} (hmalloc : ∀ l, malloc l ∉ l) {w w' : World ι}
    {rows : List Row} (h : Sane w) (hidle : ∀ y, w.threadsOf y = [])
    (hv : ∀ y ∈ w.tree, (w.mem y).visited = true)
    (hl : rows.foldlM (loadServer malloc) w = some w') :
    (∀ y, w'.threadsOf y = []) ∧ ∀ y ∈ w'.tree, (w'.mem y).visited = true := by
  induction rows generalizing w with
  | nil =>
      cases hl
      exact ⟨hidle, hv⟩
  | cons row rows ih =>
      obtain ⟨w₁, h₁, hl⟩ := Option.bind_eq_some_iff.mp hl
      obtain ⟨x, hsame, hx, hvx⟩ : ∃ x, (∀ y, y ≠ x → Same w w₁ y) ∧ w₁.threadsOf x = [] ∧
          (x ∈ w₁.tree → (w₁.mem x).visited = true) := by
        cases hf : findServer w row.serverId with
        | none =>
            obtain ⟨w₂, h₂, hsame, hloaded, hthreads, -⟩ := loadServer_new hmalloc hf h.live
            obtain rfl := Option.some.inj (h₂.symm.trans h₁)
            refine ⟨_, hsame, ?_, fun _ ↦ hloaded.visited⟩
            rw [World.threadsOf, hthreads]
            exact hidle _
        | some x =>
            obtain ⟨hx, -⟩ := findServer_some hf
            obtain ⟨hsame, hcase⟩ := loadServer_found_cases hf (h.owned x hx) (h.live x hx) h₁
            have hstray : astray w x = [] := by simp [astray, hidle]
            cases hcase with
            | kept _ _ loaded _ threads =>
                refine ⟨x, hsame, ?_, fun _ ↦ loaded.visited⟩
                rw [World.threadsOf, threads]
                exact hidle x
            | disabled _ _ _ loaded _ threads =>
                refine ⟨x, hsame, ?_, fun _ ↦ loaded.visited⟩
                rw [threads, hstray, hidle]
                split <;> rfl
            | renamed _ _ tree threads =>
                refine ⟨x, hsame, ?_, fun hm ↦ ?_⟩
                · rw [threads, hstray, hidle]
                  split <;> rfl
                · rw [tree] at hm
                  exact absurd rfl (h.nodup.mem_erase_iff.mp hm).1
      refine ih (loadServer_sane hmalloc h h₁) (fun y ↦ ?_) (fun y hy ↦ ?_) hl
      · by_cases hyx : y = x
        · exact hyx ▸ hx
        · exact (hsame y hyx).threads.trans (hidle y)
      · by_cases hyx : y = x
        · subst hyx
          exact hvx hy
        · have hsame := hsame y hyx
          rw [hsame.mem]
          exact hv y (hsame.tree.mp hy)

theorem Controlled.serverStartTree {w : World ι} {nodes : List ι} (h : Controlled w) (he : Even w)
    (hv : ∀ x ∈ w.tree, (w.mem x).visited = true) (hnodes : ∀ x ∈ nodes, x ∈ w.tree)
    (hnodup : nodes.Nodup) (hidle : ∀ x ∈ nodes, w.threadsOf x = []) :
    Steady (Servers.serverStartTree w nodes) := by
  induction nodes generalizing w with
  | nil => exact h.steady he hv
  | cons x nodes ih =>
      obtain ⟨hx, hnodup⟩ := List.nodup_cons.mp hnodup
      have hxt := hnodes x (by simp)
      have hrest : ∀ y ∈ nodes, y ∈ w.tree := fun y hy ↦ hnodes y (by simp [hy])
      rw [Servers.serverStartTree]
      split
      · rename_i hon
        obtain ⟨hflood, -, -, hsaved⟩ := he x hxt (hv x hxt)
        refine ih (h.start hxt (hidle x (by simp)) hon hflood hsaved) he.start (fun y hy ↦ ?_) hrest
          hnodup fun y hy ↦ ?_
        · by_cases hyx : y = x
          · subst hyx
            rw [serverStart_mem]
            exact hv y hy
          · rw [(serverStart_same w hyx).mem]
            exact hv y hy
        · have hyx : y ≠ x := fun e ↦ hx (e ▸ hy)
          rw [(serverStart_same w hyx).threads]
          exact hidle y (by simp [hy])
      · exact ih h he hv hrest hnodup fun y hy ↦ hidle y (by simp [hy])

/-- Before `bot_start`. -/
structure World.Empty (w : World ι) : Prop where
  tree : w.tree = []
  threads : w.threads = []
  destroyed : w.destroyed = []

theorem World.Empty.controlled {w : World ι} (h : w.Empty) : Controlled w := by
  refine ⟨⟨?_, ?_, ?_, ?_⟩, ?_, ?_, ?_⟩
  · simp [h.tree]
  · simp [h.tree]
  · simp [h.tree]
  · simp [h.tree]
  · simp [h.threads]
  · simp [h.tree]
  · simp [h.destroyed]

theorem World.Empty.botStart {malloc : List ι → ι} (hmalloc : ∀ l, malloc l ∉ l)
    {w w' : World ι} {db : Database} (h : w.Empty) (hdb : db.Keyed)
    (hs : Servers.botStart malloc w db = some w') : Steady w' := by
  obtain ⟨w₁, h₁, hs⟩ := Option.bind_eq_some_iff.mp hs
  obtain rfl := Option.some.inj hs
  have heven : Even w := by
    intro x hx
    rw [h.tree] at hx
    cases hx
  have hidle : ∀ y, w.threadsOf y = [] := by simp [World.threadsOf, h.threads]
  obtain ⟨hc, he, hidle₁, hv⟩ : Controlled w₁ ∧ Even w₁ ∧ (∀ y, w₁.threadsOf y = []) ∧
      ∀ y ∈ w₁.tree, (w₁.mem y).visited = true := by
    cases hrows : db.servers with
    | none =>
        rw [hrows] at h₁
        cases h₁
        refine ⟨h.controlled, heven, hidle, fun y hy ↦ ?_⟩
        rw [h.tree] at hy
        cases hy
    | some rows =>
        rw [hrows] at h₁
        obtain ⟨hkeys, hsaved⟩ := hdb rows hrows
        have hagree : RowsAgree w rows := fun x _ hne ↦ absurd (hidle x) hne
        obtain ⟨hc, he⟩ := h.controlled.loads hmalloc heven hagree hkeys hsaved h₁
        refine ⟨hc, he, loads_first hmalloc h.controlled.toSane hidle (fun y hy ↦ ?_) h₁⟩
        rw [h.tree] at hy
        cases hy
  obtain ⟨htree, -⟩ := dbLoadChannels_rest db.hasChannels w₁ w₁.tree
  refine (hc.dbLoadChannels db.hasChannels w₁.tree).serverStartTree
    (he.dbLoadChannels db.hasChannels w₁.tree) (fun y hy ↦ ?_) (fun y hy ↦ hy) ?_ fun y _ ↦ ?_
  · rw [htree] at hy
    obtain ⟨channels, hmem⟩ := dbLoadChannels_mem db.hasChannels w₁ w₁.tree y
    rw [hmem]
    exact hv y hy
  · rw [htree]
    exact hc.nodup
  · rw [dbLoadChannels_threadsOf]
    exact hidle₁ y

theorem Controlled.botShutdown {fuel : ℕ} {w w' : World ι} (h : Controlled w)
    (hs : Servers.botShutdown fuel w = some w') : Controlled w' ∧ w'.tree = [] := by
  induction fuel generalizing w with
  | zero => cases hs
  | succ fuel ih =>
      rw [Servers.botShutdown] at hs
      split at hs
      · rename_i htree
        cases hs
        exact ⟨h, htree⟩
      · rename_i x nodes htree
        have hx : x ∈ w.tree := by simp [htree]
        rw [serverKill_eq (h.owned x hx)] at hs
        split at hs
        · exact ih (h.kill hx) hs
        · cases hs

/-! ## The system -/

inductive Event (ι : Type) where
  | display (x : ι)
  | new
  | cleanup
  | save (x : ι) (settings : Settings) (enabled : Bool) (insertid : ℤ) (db : Database)
  | sighup (db : Database)
  | shutdown

/-- `mainSighup`; each turn of its loop but the last kills a server. -/
def reload (malloc : List ι → ι) (w : World ι) (db : Database) : Option (World ι) :=
  if db.Keyed then
    mainSighup malloc (w.tree.length + (db.servers.elim 0 List.length) + 1) w db
  else none

/-- What happens to the servers of a bot.  The form for a new server is left before
there is another one, and a number that the database gives is not in use. -/
def system (malloc : List ι → ι) : System (World ι) (Event ι) where
  init w := ∃ w₀ db, w₀.Empty ∧ db.Keyed ∧ botStart malloc w₀ db = some w
  step w
    | .display x => some (cursesServerDisplay w x)
    | .new => if findServer w (-1) = none then some (cursesServerNew malloc w) else none
    | .cleanup => some (cursesServerCleanup w)
    | .save x settings enabled insertid db =>
        if ∀ y ∈ w.tree, (w.mem y).serverId ≠ insertid then
          reload malloc (cursesSave w x settings enabled insertid) db
        else none
    | .sighup db => reload malloc w db
    | .shutdown => botShutdown (w.tree.length + 1) w

/-- No threads of a server ran when what they use was destroyed, and what the threads
that run use is there. -/
def Safe (w : World ι) : Prop :=
  (∀ e ∈ w.destroyed, e.2 = []) ∧
    ∀ t ∈ w.threads, t.record ∈ w.live ∧ (w.mem t.record).txQueue = true ∧
      (w.mem t.record).floodList = true

/-- At a reload the rows agree with the form about the servers that run. -/
def Agreeing (w : World ι) : Event ι → Prop
  | .save x settings enabled insertid db =>
      ∀ rows ∈ db.servers, RowsAgree (cursesSave w x settings enabled insertid) rows
  | .sighup db => ∀ rows ∈ db.servers, RowsAgree w rows
  | _ => True

theorem Controlled.safe {w : World ι} (h : Controlled w) : Safe w := by
  refine ⟨h.clean, fun t ht ↦ ?_⟩
  have hx := h.threads t ht
  have htended := (h.tended _ hx).resolve_left
    (List.ne_nil_of_mem (mem_threadsOf.mpr ⟨ht, rfl⟩))
  exact ⟨h.live _ hx, htended.txQueue, htended.floodList⟩

section Runs

variable {malloc : List ι → ι} (hmalloc : ∀ l, malloc l ∉ l) {w w' : World ι}

include hmalloc

theorem Controlled.reload_steady {db : Database} (h : Controlled w)
    (hagree : ∀ rows ∈ db.servers, RowsAgree w rows)
    (hr : Servers.reload malloc w db = some w') : Steady w' := by
  unfold Servers.reload at hr
  split at hr
  · rename_i hdb
    exact h.reload hmalloc hdb hagree hr
  · cases hr

theorem Steady.step {e : Event ι} (h : Steady w) (hagree : Agreeing w e)
    (he : (system malloc).step w e = some w') : Steady w' := by
  cases e with
  | display x =>
      cases he
      exact h.cursesServerDisplay x
  | new =>
      simp only [system] at he
      split at he
      · rename_i hnone
        cases he
        exact h.cursesServerNew hmalloc hnone
      · cases he
  | cleanup =>
      cases he
      exact h.cursesServerCleanup
  | save x settings enabled insertid db =>
      simp only [system] at he
      split at he
      · rename_i hfresh
        exact (h.cursesSave x settings enabled hfresh).reload_steady hmalloc hagree he
      · cases he
  | sighup db => exact h.toControlled.reload_steady hmalloc hagree he
  | shutdown =>
      obtain ⟨hc, htree⟩ := h.toControlled.botShutdown he
      refine ⟨hc, fun x hx ↦ ?_⟩
      rw [htree] at hx
      cases hx

/-- In every run whose reloads find the rows in agreement with the form, the threads
of a server have ended when `serverKill` destroys what they use. -/
theorem serverKill_safe_run (h : (system malloc).ReachableVia Agreeing w) : Safe w := by
  refine (h.invariant (I := Steady) ?_ ?_).safe
  · rintro w ⟨w₀, db, hempty, hdb, hs⟩
    exact hempty.botStart hmalloc hdb hs
  · intro w e w' hsteady hagree he
    exact hsteady.step hmalloc hagree he

end Runs

/-! A bot with one server, enabled or not. -/

def World.empty : World ℕ := ⟨[], fun _ ↦ IRCServer.cleared ℕ, [], [], 0, []⟩

theorem World.empty_empty : World.empty.Empty := ⟨rfl, rfl, rfl⟩

def annDatabase (enabled : Bool) : Database := ⟨some [rowOf 1 ['a'] enabled], fun _ ↦ false⟩

def booted : World ℕ := (botStart fresh World.empty (annDatabase true)).getD World.empty

theorem booted_init : (system fresh).init booted :=
  ⟨World.empty, annDatabase true, World.empty_empty, by decide, rfl⟩

/-- The form disables the server, and the row that was saved is loaded. -/
def saveDisabled : Event ℕ :=
  .save 1 (rowOf 1 ['a'] false).settings false 0 (annDatabase false)

def disabled : World ℕ := ((system fresh).step booted saveDisabled).getD World.empty

theorem serverKill_safe_run_disabled :
    (system fresh).ReachableVia Agreeing disabled ∧ disabled.threads = [] ∧
      disabled.destroyed = [(1, [])] ∧ Safe disabled := by
  have hrun : (system fresh).ReachableVia Agreeing disabled := by
    refine .step (e := saveDisabled) (.init booted_init) ?_ rfl
    rintro rows ⟨⟩ x hx - row hrow -
    obtain rfl := List.mem_singleton.mp hx
    obtain rfl := List.mem_singleton.mp hrow
    exact ⟨fun _ ↦ rfl, fun hon ↦ by cases hon⟩
  exact ⟨hrun, by decide, by decide, serverKill_safe_run fresh_not_mem hrun⟩

/-- The database disables a server that runs. -/
theorem not_safe_run : ¬ ∀ w, (system fresh).Reachable w → Safe w := by
  intro h
  have hrun : ((system fresh).run booted [.sighup (annDatabase false)]).map World.destroyed =
      some [(1, annThreads)] := by
    decide
  obtain ⟨w, hw, hdestroyed⟩ := Option.map_eq_some_iff.mp hrun
  have hclean := (h w (System.reachable_of_run booted_init hw)).1
  rw [hdestroyed] at hclean
  exact absurd (hclean (1, annThreads) (by simp)) (by decide)

end Beirdobot.Servers
