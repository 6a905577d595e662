import Beirdobot.Transmit.Flood
import Mathlib.Algebra.Order.BigOperators.Group.List
import Mathlib.Tactic.Linarith

/-!
# What the flood control guarantees

The flood list holds the flood items of the messages that have not expired, so
that the wait of `transmit_thread` is long enough exactly if the items that have
expired by its end cover the bytes it asked for.  `floodReady` answers with the
expiry of the item that completes them, and a longer item before it expires
later: `Covered` says when that does no harm.
-/

namespace Beirdobot.Transmit

open Library

/-! ## The flood list -/

/-- The lengths of the messages of a list. -/
def total (l : List FloodListItem) : ℕ := (l.map FloodListItem.bytes).sum

/-- The lengths of the messages of a list whose flood item has expired. -/
def expired (now : ℤ) (l : List FloodListItem) : ℕ :=
  total (l.filter fun flood ↦ flood.timeWake ≤ now)

@[simp] theorem total_nil : total [] = 0 := rfl

@[simp] theorem total_cons (f : FloodListItem) (l : List FloodListItem) :
    total (f :: l) = f.bytes + total l := by
  simp [total]

theorem floodSize_eq (l : List FloodListItem) : floodSize l = total l := by
  have key : ∀ (l : List FloodListItem) (n : ℕ),
      l.foldl (fun total flood ↦ total + flood.bytes) n = n + total l := by
    intro l
    induction l with
    | nil => simp
    | cons f l ih =>
        intro n
        rw [List.foldl_cons, ih, total_cons]
        omega
  rw [floodSize, key, Nat.zero_add]

theorem floodCleanupLoop_eq (time : ℤ) (kept l : List FloodListItem) :
    floodCleanupLoop time kept l =
      kept.reverse ++ l.filter fun flood ↦ time < flood.timeWake := by
  induction l generalizing kept with
  | nil => simp [floodCleanupLoop]
  | cons f l ih =>
      rw [floodCleanupLoop]
      split
      · rename_i h
        rw [ih, List.filter_cons_of_neg (by simpa using h)]
      · rename_i h
        rw [ih, List.filter_cons_of_pos (by simpa using h)]
        simp

/-- `floodCleanup` keeps the items that have not expired, in their order. -/
theorem floodCleanup_eq (now : ℤ) (l : List FloodListItem) :
    floodCleanup now l = l.filter fun flood ↦ now < flood.timeWake := by
  rw [floodCleanup, floodCleanupLoop_eq]
  rfl

theorem unexpired_eq (now : ℤ) (l : List FloodListItem) :
    unexpired now l = total (floodCleanup now l) := by
  rw [floodCleanup_eq]
  rfl

/-- An item has expired or it has not. -/
theorem expired_add_unexpired (now : ℤ) (l : List FloodListItem) :
    expired now l + unexpired now l = total l := by
  induction l with
  | nil => rfl
  | cons f l ih =>
      simp only [expired, unexpired, total] at ih ⊢
      by_cases h : f.timeWake ≤ now
      · rw [List.filter_cons_of_pos (by simpa using h), List.filter_cons_of_neg (by simpa using h)]
        simp only [List.map_cons, List.sum_cons]
        omega
      · rw [List.filter_cons_of_neg (by simpa using h), List.filter_cons_of_pos (by simpa using h)]
        simp only [List.map_cons, List.sum_cons]
        omega

theorem unexpired_append (now : ℤ) (l l' : List FloodListItem) :
    unexpired now (l ++ l') = unexpired now l + unexpired now l' := by
  simp [unexpired]

/-- Items only expire. -/
theorem unexpired_le {now now' : ℤ} (h : now ≤ now') (l : List FloodListItem) :
    unexpired now' l ≤ unexpired now l := by
  induction l with
  | nil => exact le_refl 0
  | cons f l ih =>
      simp only [unexpired] at ih ⊢
      by_cases hf : now' < f.timeWake
      · rw [List.filter_cons_of_pos (by simpa using hf),
          List.filter_cons_of_pos (by simpa using lt_of_le_of_lt h hf)]
        simpa using ih
      · rw [List.filter_cons_of_neg (by simpa using hf)]
        by_cases hf' : now < f.timeWake
        · rw [List.filter_cons_of_pos (by simpa using hf'), List.map_cons, List.sum_cons]
          exact le_trans ih (Nat.le_add_left _ _)
        · rw [List.filter_cons_of_neg (by simpa using hf')]
          exact ih

/-- A cleanup does not touch what expires later. -/
theorem unexpired_floodCleanup {now now' : ℤ} (h : now ≤ now') (l : List FloodListItem) :
    unexpired now' (floodCleanup now l) = unexpired now' l := by
  rw [floodCleanup_eq, unexpired, List.filter_filter, unexpired]
  congr 2
  refine List.filter_congr fun f _ ↦ ?_
  by_cases hf : now' < f.timeWake
  · simp [hf, lt_of_le_of_lt h hf]
  · simp [hf]

/-! ## The wait -/

/-- Whichever item completes the requested bytes, the items of the list that have
expired when it does cover them. -/
def Covered (l : List FloodListItem) (bytes : ℤ) : Prop :=
  ∀ p f q, l = p ++ f :: q → total p < bytes → bytes ≤ total p + f.bytes →
    bytes ≤ expired f.timeWake l

/-- `floodReady` answers with the expiry of the item that completes the bytes. -/
theorem floodReadyLoop_eq {p q : List FloodListItem} {f : FloodListItem} {bytes : ℤ} (time : ℤ)
    (hp : total p < bytes) (hf : bytes ≤ total p + f.bytes) :
    floodReadyLoop time bytes (p ++ f :: q) = f.timeWake := by
  induction p generalizing time bytes with
  | nil =>
      rw [List.nil_append, floodReadyLoop, if_pos]
      simpa using hf
  | cons g p ih =>
      rw [total_cons, Nat.cast_add] at hp hf
      rw [List.cons_append, floodReadyLoop, if_neg (by omega)]
      exact ih _ (by omega) (by omega)

/-- Bytes that the list holds are completed by one of its items. -/
theorem exists_completing {l : List FloodListItem} {bytes : ℤ} (h₀ : 0 < bytes)
    (hl : bytes ≤ total l) :
    ∃ p f q, l = p ++ f :: q ∧ total p < bytes ∧ bytes ≤ total p + f.bytes := by
  induction l generalizing bytes with
  | nil =>
      rw [total_nil] at hl
      omega
  | cons g l ih =>
      by_cases hg : bytes ≤ g.bytes
      · exact ⟨[], g, l, rfl, by simpa using h₀, by simpa using hg⟩
      · rw [total_cons, Nat.cast_add] at hl
        obtain ⟨p, f, q, rfl, hp, hf⟩ := ih (show 0 < bytes - g.bytes by omega)
          (by omega)
        refine ⟨g :: p, f, q, rfl, ?_, ?_⟩ <;> rw [total_cons, Nat.cast_add] <;> omega

/-- What a message of length `len` has to wait for, if it has to wait. -/
def CoveredFor (settings : Settings) (len : ℕ) (floodList : List FloodListItem) : Prop :=
  (len : ℤ) < settings.floodBuffer → settings.floodBuffer ≤ total floodList + len →
    Covered floodList (total floodList + len + 1 - settings.floodBuffer)

/-- The wait ends after the cleanup, leaves what expires later in the list, and
if the expired items cover the request there is room at its end. -/
theorem floodWait_spec {settings : Settings} {len : ℕ} {r : Readings}
    {l l' : List FloodListItem} {through : ℤ} (h : floodWait settings len r l = some (l', through)) :
    r.cleaned ≤ through ∧ (∀ now, through ≤ now → unexpired now l' = unexpired now l) ∧
      (CoveredFor settings len (floodCleanup r.cleaned l) → (len : ℤ) < settings.floodBuffer →
        (unexpired through l + len : ℤ) < settings.floodBuffer) := by
  unfold floodWait at h
  simp only [floodSize_eq] at h
  split at h
  · rename_i hfull
    split at h
    · cases h
    · rename_i hclock
      rw [not_not] at hclock
      -- the wait ends no earlier than `floodReady` said
      have hready : ∀ through, r.cleaned ≤ through →
          floodReady r.ready (total (floodCleanup r.cleaned l) + len + 1 - settings.floodBuffer)
            (floodCleanup r.cleaned l) ≤ through →
          CoveredFor settings len (floodCleanup r.cleaned l) → (len : ℤ) < settings.floodBuffer →
            (unexpired through l + len : ℤ) < settings.floodBuffer := by
        intro through hle htime hcov hlen
        have hpos : 0 < total (floodCleanup r.cleaned l) + len + 1 - settings.floodBuffer := by
          omega
        obtain ⟨p, f, q, hsplit, hp, hf⟩ :=
          exists_completing (l := floodCleanup r.cleaned l) hpos (by omega)
        have hexp := hcov hlen hfull p f q hsplit hp hf
        have htime' : floodReady r.ready
            (total (floodCleanup r.cleaned l) + len + 1 - settings.floodBuffer)
            (floodCleanup r.cleaned l) = f.timeWake := by
          have hloop := floodReadyLoop_eq (q := q) r.ready hp hf
          rwa [← hsplit] at hloop
        rw [htime'] at htime
        have hadd := expired_add_unexpired f.timeWake (floodCleanup r.cleaned l)
        have hmono := unexpired_le htime (floodCleanup r.cleaned l)
        rw [unexpired_floodCleanup hle] at hmono
        omega
      split at h
      · rename_i hsleep
        split at h
        · rename_i hslept
          cases h
          refine ⟨by omega, ?_, ?_⟩
          · intro now hnow
            rw [unexpired_floodCleanup hnow, unexpired_floodCleanup (by omega)]
          · exact hready _ (by omega) (by omega)
        · cases h
      · rename_i hsleep
        cases h
        refine ⟨by omega, ?_, ?_⟩
        · intro now hnow
          exact unexpired_floodCleanup (by omega) l
        · exact hready _ (by omega) (by omega)
  · rename_i hroom
    cases h
    refine ⟨le_refl _, ?_, ?_⟩
    · intro now hnow
      exact unexpired_floodCleanup hnow l
    · intro _ _
      rw [unexpired_eq]
      omega

/-! ## Runs -/

/-- Every message that fits the buffer was handed over with room for it. -/
def Safe (s : State) : Prop :=
  ∀ h ∈ s.handed, (h.len : ℤ) < h.floodBuffer → (h.unexpired + h.len : ℤ) < h.floodBuffer

/-- From now on the flood list and all messages sent have the same unexpired items. -/
def Tracks (s : State) : Prop :=
  ∀ now, s.clock ≤ now → unexpired now s.floodList = unexpired now s.sent

/-- The message waits for items that are covered in their order, and the dying
gasp, which does not wait, finds room. -/
def HasRoom (s : State) : Event → Prop
  | .message settings len aborting r =>
      aborting = false → CoveredFor settings len (floodCleanup r.cleaned s.floodList)
  | .quit settings now => (quitLength : ℤ) < settings.floodBuffer →
      (unexpired now s.floodList + quitLength : ℤ) < settings.floodBuffer

/-- What a turn with a message does. -/
theorem transmitMessage_cases {settings : Settings} {len : ℕ} {aborting : Bool} {r : Readings}
    {s s' : State} (h : transmitMessage settings len aborting r s = some s') :
    ∃ floodList through, s.clock ≤ r.dequeued ∧ r.dequeued ≤ r.cleaned ∧
      floodWait settings len r s.floodList = some (floodList, through) ∧
      through ≤ r.handed ∧ r.handed ≤ r.stamped ∧
      ((aborting = true ∧ s'.floodList = floodList ∧ s'.clock = r.handed ∧ s'.sent = s.sent ∧
          s'.handed = s.handed) ∨
        aborting = false ∧ ∃ flood : FloodListItem,
          s'.floodList = floodList ++ [flood] ∧ s'.clock = r.stamped ∧
            s'.sent = s.sent ++ [flood] ∧
            s'.handed = s.handed ++ [⟨len, settings.floodBuffer, unexpired r.handed s.sent⟩]) := by
  unfold transmitMessage at h
  simp only at h
  split at h
  · cases h
  · rename_i hclock
    rw [not_not] at hclock
    obtain ⟨-, hdeq, -, hclean⟩ := hclock
    split at h
    · cases h
    · rename_i floodList through hwait
      split at h
      · cases h
      · rename_i hhand
        rw [not_not] at hhand
        refine ⟨floodList, through, hdeq, hclean, hwait, hhand.1, hhand.2, ?_⟩
        split at h
        · rename_i habort
          cases h
          exact .inl ⟨habort, rfl, rfl, rfl, rfl⟩
        · rename_i habort
          cases h
          exact .inr ⟨by simpa using habort, _, rfl, rfl, rfl, rfl⟩

/-- A step keeps the flood list in line with the messages sent. -/
theorem Tracks.step {s s' : State} {e : Event} (ht : Tracks s) (h : system.step s e = some s') :
    Tracks s' := by
  cases e with
  | message settings len aborting r =>
      obtain ⟨floodList, through, hdeq, hclean, hwait, hthrough, hstamp, hcases⟩ :=
        transmitMessage_cases h
      obtain ⟨hle, hkeep, -⟩ := floodWait_spec hwait
      rcases hcases with ⟨-, hl, hc, hs, -⟩ | ⟨-, flood, hl, hc, hs, -⟩
      · intro now hnow
        rw [hl, hs, hkeep now (by omega)]
        exact ht now (by omega)
      · intro now hnow
        rw [hl, hs, unexpired_append, unexpired_append, hkeep now (by omega), ht now (by omega)]
  | quit settings now =>
      simp only [system, dyingGasp] at h
      split at h
      · cases h
      · rename_i hclock
        rw [not_not] at hclock
        cases h
        intro now' hnow
        exact ht now' (le_trans hclock.2 hnow)

/-- A step with room is safe. -/
theorem Safe.step {s s' : State} {e : Event} (ht : Tracks s) (hs : Safe s) (hr : HasRoom s e)
    (h : system.step s e = some s') : Safe s' := by
  cases e with
  | message settings len aborting r =>
      obtain ⟨floodList, through, hdeq, hclean, hwait, hthrough, hstamp, hcases⟩ :=
        transmitMessage_cases h
      obtain ⟨hle, -, hroom⟩ := floodWait_spec hwait
      rcases hcases with ⟨-, -, -, -, hh⟩ | ⟨habort, flood, -, -, -, hh⟩
      · rwa [Safe, hh]
      · intro x hx hlen
        rw [hh, List.mem_append, List.mem_singleton] at hx
        rcases hx with hx | rfl
        · exact hs x hx hlen
        · have hlt := hroom (hr habort) hlen
          have hmono := unexpired_le hthrough s.floodList
          have heq := ht r.handed (by omega)
          simp only at hlen ⊢
          omega
  | quit settings now =>
      simp only [system, dyingGasp] at h
      split at h
      · cases h
      · rename_i hclock
        rw [not_not] at hclock
        cases h
        intro x hx hlen
        change x ∈ s.handed ++ [_] at hx
        rw [List.mem_append, List.mem_singleton] at hx
        rcases hx with hx | rfl
        · exact hs x hx hlen
        · have heq := ht now hclock.2
          have hlt := hr hlen
          simp only
          omega

/-- The same demand: the same message, dequeued and cleaned up for at the same
times, or the same dying gasp. -/
def SameDemand : Event → Event → Prop
  | .message settings len aborting r, .message settings' len' aborting' r' =>
      settings = settings' ∧ len = len' ∧ aborting = aborting' ∧ r.dequeued = r'.dequeued ∧
        r.cleaned = r'.cleaned
  | .quit settings now, .quit settings' now' => settings = settings' ∧ now = now'
  | _, _ => False

/-- Without room the same demand can be met by an unsafe step: the clock stands
still until the wait, and the sleep is no longer than asked for. -/
theorem exists_unsafe {s s' : State} {e : Event} (ht : Tracks s) (h : system.step s e = some s')
    (hr : ¬ HasRoom s e) :
    ∃ e' s'', SameDemand e e' ∧ system.step s e' = some s'' ∧ ¬ Safe s'' := by
  cases e with
  | message settings len aborting r =>
      simp only [HasRoom, CoveredFor, Covered, Classical.not_imp, not_forall, not_le] at hr
      obtain ⟨habort, hlen, hfull, p, f, q, hsplit, hp, hf, hexp⟩ := hr
      have hmem : f ∈ floodCleanup r.cleaned s.floodList := by
        rw [hsplit]
        simp
      have hlate : r.cleaned < f.timeWake := by
        rw [floodCleanup_eq, List.mem_filter] at hmem
        simpa using hmem.2
      have hready : floodReady r.cleaned
          (total (floodCleanup r.cleaned s.floodList) + len + 1 - settings.floodBuffer)
          (floodCleanup r.cleaned s.floodList) = f.timeWake := by
        have hloop := floodReadyLoop_eq (q := q) r.cleaned hp hf
        rwa [← hsplit] at hloop
      let r' : Readings := ⟨r.dequeued, r.cleaned, r.cleaned, r.cleaned, f.timeWake, f.timeWake,
        f.timeWake⟩
      have hwait : floodWait settings len r' s.floodList =
          some (floodCleanup f.timeWake (floodCleanup r.cleaned s.floodList), f.timeWake) := by
        simp only [floodWait, floodSize_eq, r', if_pos hfull, hready, if_pos hlate, le_refl,
          and_self, not_true_eq_false, if_false]
        rw [if_pos (by omega)]
      have hguard : s.running = true ∧ s.clock ≤ r.dequeued ∧
          r.dequeued + sendDelay settings (nextSendTime s r.dequeued) r.dequeued ≤ r.cleaned ∧
          r.dequeued ≤ r.cleaned := by
        simp only [system, transmitMessage] at h
        split at h
        · cases h
        · rename_i hguard
          exact not_not.mp hguard
      have hsome : (transmitMessage settings len false r' s).isSome := by
        simp only [transmitMessage]
        rw [if_neg (not_not.mpr hguard), hwait]
        simp [r']
      obtain ⟨s'', hs''⟩ := Option.isSome_iff_exists.mp hsome
      have hh : s''.handed =
          s.handed ++ [⟨len, settings.floodBuffer, unexpired f.timeWake s.sent⟩] := by
        obtain ⟨_, _, -, -, -, -, -, hcases⟩ := transmitMessage_cases hs''
        rcases hcases with ⟨habort', -⟩ | ⟨-, flood, -, -, -, hh⟩
        · cases habort'
        · exact hh
      refine ⟨.message settings len false r', s'', ⟨rfl, rfl, habort, rfl, rfl⟩, hs'', ?_⟩
      intro hsafe
      have hlast := hsafe ⟨len, settings.floodBuffer, unexpired f.timeWake s.sent⟩
        (by rw [hh]; simp) hlen
      have hadd := expired_add_unexpired f.timeWake (floodCleanup r.cleaned s.floodList)
      rw [unexpired_floodCleanup hlate.le, ht f.timeWake (by omega)] at hadd
      simp only at hlast
      omega
  | quit settings now =>
      refine ⟨.quit settings now, s', ⟨rfl, rfl⟩, h, ?_⟩
      simp only [HasRoom, Classical.not_imp, not_lt] at hr
      obtain ⟨hlen, hfull⟩ := hr
      simp only [system, dyingGasp] at h
      split at h
      · cases h
      · rename_i hclock
        rw [not_not] at hclock
        cases h
        intro hsafe
        have hlast := hsafe ⟨quitLength, settings.floodBuffer, unexpired now s.sent⟩
          (by simp [State.hand]) hlen
        rw [ht now hclock.2] at hfull
        simp only at hlast
        omega

theorem reachable_tracks_safe {s : State} (h : system.ReachableVia HasRoom s) :
    Tracks s ∧ Safe s := by
  refine h.invariant (I := fun s ↦ Tracks s ∧ Safe s) ?_ ?_
  · rintro s ⟨clock, rfl⟩
    exact ⟨fun now _ ↦ rfl, fun x hx ↦ by cases hx⟩
  · rintro s e s' ⟨ht, hs⟩ hr he
    exact ⟨ht.step he, hs.step ht hr he⟩

/-- In every run whose messages find room no message that fits the buffer is
handed over too early, and a message without room can be. -/
theorem flood_run {s : State} (h : system.ReachableVia HasRoom s) :
    Safe s ∧ ∀ e s', system.step s e = some s' → ¬ HasRoom s e →
      ∃ e' s'', SameDemand e e' ∧ system.step s e' = some s'' ∧ ¬ Safe s'' := by
  obtain ⟨ht, hs⟩ := reachable_tracks_safe h
  exact ⟨hs, fun e s' he hr ↦ exists_unsafe ht he hr⟩

/-- Of two messages of 60 bytes with a buffer of 100 the second waits for the first. -/
theorem flood_run_sixty :
    ∃ s, system.ReachableVia HasRoom s ∧ s.clock = 2 ∧
      s.handed = [⟨60, 100, 0⟩, ⟨60, 100, 0⟩] ∧ Safe s := by
  let settings : Settings := ⟨2, 10, 100⟩
  have hfirst : system.ReachableVia HasRoom
      ⟨true, [⟨2, 60⟩], 2, 0, [⟨2, 60⟩], [⟨60, 100, 0⟩]⟩ := by
    refine .step (s := ⟨true, [], 0, 0, [], []⟩)
      (e := .message settings 60 false ⟨0, 0, 0, 0, 0, 0, 0⟩) (.init ⟨0, rfl⟩) ?_ rfl
    intro _ _ _ p f q hsplit
    exact absurd hsplit (by cases p <;> simp [floodCleanup, floodCleanupLoop])
  have hsecond : system.ReachableVia HasRoom
      ⟨true, [⟨4, 60⟩], 4, 2, [⟨2, 60⟩, ⟨4, 60⟩], [⟨60, 100, 0⟩, ⟨60, 100, 0⟩]⟩ := by
    refine .step (e := .message settings 60 false ⟨0, 0, 0, 0, 2, 2, 2⟩) hfirst ?_ rfl
    intro _ _ _ p f q hsplit _ _
    change [⟨2, 60⟩] = p ++ f :: q at hsplit
    obtain ⟨rfl, rfl, rfl⟩ : p = [] ∧ f = ⟨2, 60⟩ ∧ q = [] := by
      cases p <;> simp_all
    decide
  exact ⟨_, hsecond, rfl, rfl, (flood_run hsecond).1⟩

/-- A message of 600 bytes and one of 60 are sent at time 0 and expire at 7 and
2; one of 690 bytes then waits until 2. -/
def overtakenRun : Option State :=
  let settings : Settings := ⟨2, 10, 700⟩
  system.run ⟨true, [], 0, 0, [], []⟩
    [.message settings 600 false ⟨0, 0, 0, 0, 0, 0, 0⟩,
      .message settings 60 false ⟨0, 0, 0, 0, 0, 0, 0⟩,
      .message settings 690 false ⟨0, 0, 0, 0, 2, 2, 2⟩]

theorem not_safe : ¬ ∀ s, system.Reachable s → Safe s := by
  intro h
  have hrun : overtakenRun.map State.handed =
      some [⟨600, 700, 0⟩, ⟨60, 700, 600⟩, ⟨690, 700, 600⟩] := by
    decide
  obtain ⟨s, hs, hh⟩ := Option.map_eq_some_iff.mp hrun
  have hsafe := h s (System.reachable_of_run ⟨0, rfl⟩ hs)
  have hlast := hsafe ⟨690, 700, 600⟩ (by rw [hh]; simp) (by decide)
  revert hlast
  decide

end Beirdobot.Transmit
