import Beirdobot.Auth.Moves
import Mathlib.Data.List.Find

/-!
# Whether the accepted record is on the list

The sweep may remove a record while the thread of its server uses it.  As long as it
does not, a record that a thread uses is the one that a lookup for its nick finds, and
so is the one that the user is told about.
-/

namespace Beirdobot.Auth

open Library

variable {ι σ κ : Type}

/-! ## Lookups -/

namespace Threads

variable [DecidableEq σ] {s s' : Threads ι σ κ} {server : σ} {nick : CString} {x y : ι}

theorem mem_of_lookup (h : s.lookup server nick = some x) : x ∈ s.list :=
  List.mem_of_find?_eq_some h

theorem server_of_lookup (h : s.lookup server nick = some x) : (s.mem x).server = server := by
  have hx := List.find?_some h
  simp only [AuthData.belongsTo, Bool.and_eq_true, decide_eq_true_eq] at hx
  exact hx.1

/-- A lookup finds the same in lists whose records have the same servers and nicks. -/
theorem lookup_congr (hl : s'.list = s.list)
    (hserver : ∀ y ∈ s.list, (s'.mem y).server = (s.mem y).server)
    (hnick : ∀ y ∈ s.list, (s'.mem y).nick = (s.mem y).nick) :
    s'.lookup server nick = s.lookup server nick := by
  unfold lookup
  rw [hl]
  apply List.find?_congr
  intro y hy
  rw [AuthData.belongsTo, AuthData.belongsTo, hserver y hy, hnick y hy]

variable [DecidableEq ι]

theorem lookup_erase (h : s.lookup server nick = some x) (hne : x ≠ y) :
    (s.list.erase y).find? (fun x ↦ (s.mem x).belongsTo server nick) = some x := by
  unfold lookup at h
  generalize s.list = l at h ⊢
  induction l with
  | nil => cases h
  | cons z l ih =>
      rw [List.find?_cons] at h
      by_cases hz : z = y
      · subst hz
        rw [List.erase_cons_head]
        split at h
        · cases h
          exact absurd rfl hne
        · exact h
      · rw [List.erase_cons_tail (by simpa using hz), List.find?_cons]
        split at h
        · exact h
        · exact ih h

end Threads

/-! ## The invariant -/

/-- A record that a thread uses is what a lookup for its nick finds, and a record that a
thread was given is its own and not listed. -/
structure Listed [DecidableEq σ] (s : Threads ι σ κ) : Prop where
  nodup : s.list.Nodup
  live : ∀ x ∈ s.list, s.live x = true
  walk : ∀ w, s.sweep = some w → w.rest.Nodup ∧ ∀ x ∈ w.rest, x ∈ s.list
  busy : ∀ server job x, (s.stage server).busy = some (job, x) →
    s.lookup server job.nick = some x
  fresh : ∀ server x, (s.stage server).fresh = some x → s.live x = true ∧ x ∉ s.list
  alone : ∀ server server' x, (s.stage server).fresh = some x →
    (s.stage server').fresh = some x → server = server'

namespace Listed

section Frames

variable [DecidableEq σ] {s s' : Threads ι σ κ} {server server' : σ} {job job' : Job} {x : ι}

theorem busy_mem (h : Listed s) (hb : (s.stage server).busy = some (job, x)) : x ∈ s.list :=
  Threads.mem_of_lookup (h.busy _ _ _ hb)

/-- No two threads use one record. -/
theorem busy_unique (h : Listed s) (hb : (s.stage server).busy = some (job, x))
    (hb' : (s.stage server').busy = some (job', x)) : server = server' :=
  (Threads.server_of_lookup (h.busy _ _ _ hb)).symm.trans
    (Threads.server_of_lookup (h.busy _ _ _ hb'))

/-- A record that a thread uses is not one that a thread was given. -/
theorem busy_ne_fresh (h : Listed s) (hb : (s.stage server).busy = some (job, x)) :
    (s.stage server').fresh ≠ some x :=
  fun hf ↦ (h.fresh _ _ hf).2 (h.busy_mem hb)

/-- What is not about the records, the sweep or the threads does not matter, and the
columns, the state and the time of a record do not. -/
theorem congr (h : Listed s) (hlist : s'.list = s.list) (hlive : s'.live = s.live)
    (hsweep : s'.sweep = s.sweep) (hstage : s'.stage = s.stage)
    (hserver : ∀ y ∈ s.list, (s'.mem y).server = (s.mem y).server)
    (hnick : ∀ y ∈ s.list, (s'.mem y).nick = (s.mem y).nick) : Listed s' where
  nodup := by rw [hlist]; exact h.nodup
  live := by rw [hlist, hlive]; exact h.live
  walk := by rw [hlist, hsweep]; exact h.walk
  busy server job x hb := by
    rw [hstage] at hb
    rw [Threads.lookup_congr hlist hserver hnick]
    exact h.busy _ _ _ hb
  fresh := by rw [hlist, hlive, hstage]; exact h.fresh
  alone := by rw [hstage]; exact h.alone

/-- A thread goes on with what it has. -/
theorem goto {stage : Stage ι κ} (h : Listed s)
    (hb : ∀ job x, stage.busy = some (job, x) → s.lookup server job.nick = some x)
    (hf : ∀ x, stage.fresh = some x → (s.stage server).fresh = some x) :
    Listed (s.goto server stage) := by
  have fresh_of {t : σ} {x : ι} (ht : ((s.goto server stage).stage t).fresh = some x) :
      (s.stage t).fresh = some x := by
    by_cases hts : t = server
    · subst hts
      rw [Threads.goto_stage, Function.update_self] at ht
      exact hf x ht
    · rwa [Threads.goto_stage, Function.update_of_ne hts] at ht
  refine ⟨h.nodup, h.live, h.walk, ?_, ?_, ?_⟩
  · intro t job x ht
    by_cases hts : t = server
    · subst hts
      rw [Threads.goto_stage, Function.update_self] at ht
      exact hb job x ht
    · rw [Threads.goto_stage, Function.update_of_ne hts] at ht
      exact h.busy t job x ht
  · intro t x ht
    exact h.fresh t x (fresh_of ht)
  · intro t t' x ht ht'
    exact h.alone t t' x (fresh_of ht) (fresh_of ht')

/-- A thread goes on with the record that it uses. -/
theorem goto_busy {stage : Stage ι κ} (h : Listed s)
    (hb : ∀ p, stage.busy = some p → (s.stage server).busy = some p)
    (hf : stage.fresh = none) : Listed (s.goto server stage) :=
  h.goto (fun _ _ hs ↦ h.busy _ _ _ (hb _ hs)) fun _ hx ↦ by rw [hf] at hx; cases hx

end Frames

section Moves

variable [DecidableEq ι] [DecidableEq σ] {s s' : Threads ι σ κ} {server : σ} {job : Job}
  {x : ι} {stage : Stage ι κ}

theorem write (h : Listed s) {f : AuthData σ → AuthData σ}
    (hserver : (f (s.mem x)).server = (s.mem x).server)
    (hnick : (f (s.mem x)).nick = (s.mem x).nick) : Listed (s.write x f) := by
  refine h.congr rfl rfl rfl rfl ?_ ?_
  · intro y _
    by_cases hy : y = x
    · subst hy; rw [Threads.write_mem, Function.update_self, hserver]
    · rw [Threads.write_mem, Function.update_of_ne hy]
  · intro y _
    by_cases hy : y = x
    · subst hy; rw [Threads.write_mem, Function.update_self, hnick]
    · rw [Threads.write_mem, Function.update_of_ne hy]

theorem writeOtp (h : Listed s) (f : Otp → Otp) : Listed (s.writeOtp x f) := h.write rfl rfl

/-- A record that no thread uses and that is not on the list is taken or given up. -/
theorem setLive (h : Listed s) (hx : x ∉ s.list) {server : σ}
    (hf : ∀ t ≠ server, (s.stage t).fresh ≠ some x) {live : Bool} {m : AuthData σ}
    (hb : ∀ job y, stage.busy = some (job, y) → s.lookup server job.nick = some y)
    (hs : ∀ y, stage.fresh = some y → y = x ∧ live = true) :
    Listed ({ s with
      mem := Function.update s.mem x m
      live := Function.update s.live x live }.goto server stage) := by
  have ne_of_mem {y : ι} (hy : y ∈ s.list) : y ≠ x := fun e ↦ hx (e ▸ hy)
  have hlook (t : σ) (nick : CString) :
      Threads.lookup ({ s with
        mem := Function.update s.mem x m
        live := Function.update s.live x live }.goto server stage) t nick = s.lookup t nick := by
    refine Threads.lookup_congr (s := s) rfl ?_ ?_
    · intro y hy
      simp [ne_of_mem hy]
    · intro y hy
      simp [ne_of_mem hy]
  have other {t : σ} (ht : t ≠ server) {y : ι}
      (hy : (Function.update s.stage server stage t).fresh = some y) :
      (s.stage t).fresh = some y ∧ y ≠ x := by
    rw [Function.update_of_ne ht] at hy
    exact ⟨hy, fun e ↦ hf t ht (e ▸ hy)⟩
  have own {y : ι} (hy : (Function.update s.stage server stage server).fresh = some y) :
      y = x ∧ live = true := by
    rw [Function.update_self] at hy
    exact hs y hy
  refine ⟨h.nodup, ?_, h.walk, ?_, ?_, ?_⟩
  · intro y hy
    have := h.live y hy
    simpa [Function.update_of_ne (ne_of_mem hy)] using this
  · intro t job y ht
    rw [hlook]
    by_cases hts : t = server
    · subst hts
      exact hb job y (by simpa using ht)
    · exact h.busy t job y (by simpa [Function.update_of_ne hts] using ht)
  · intro t y ht
    by_cases hts : t = server
    · subst hts
      obtain ⟨rfl, rfl⟩ := own ht
      exact ⟨by simp, hx⟩
    · obtain ⟨hy, hne⟩ := other hts ht
      obtain ⟨hlive, hmem⟩ := h.fresh t y hy
      exact ⟨by simpa [Function.update_of_ne hne] using hlive, hmem⟩
  · intro t t' y ht ht'
    by_cases hts : t = server
    · by_cases hts' : t' = server
      · rw [hts, hts']
      · subst hts
        exact absurd (own ht).1 (other hts' ht').2
    · by_cases hts' : t' = server
      · subst hts'
        exact absurd (own ht').1 (other hts ht).2
      · exact h.alone t t' y (other hts ht).1 (other hts' ht').1

/-- A new record is put on the list. -/
theorem add (h : Listed s) (hs : s.stage server = .asked job (some x)) (hsweep : s.sweep = none) :
    Listed ({ s.write x (pose server job) with list := x :: s.list }.goto server .idle) := by
  obtain ⟨hlive, hmem⟩ := h.fresh server x (by rw [hs]; rfl)
  have ne_of_mem {y : ι} (hy : y ∈ s.list) : y ≠ x := fun e ↦ hmem (e ▸ hy)
  -- only the thread of the record's server looks for it
  have hlook {t : σ} (ht : t ≠ server) (nick : CString) :
      Threads.lookup ({ s.write x (pose server job) with list := x :: s.list }.goto server .idle)
        t nick = s.lookup t nick := by
    have hx : (((s.write x (pose server job)).mem x).belongsTo t nick) = false := by
      simp [AuthData.belongsTo, pose, Ne.symm ht]
    have hrest : s.list.find? (fun y ↦ ((s.write x (pose server job)).mem y).belongsTo t nick) =
        s.lookup t nick := by
      apply List.find?_congr
      intro y hy
      simp [Function.update_of_ne (ne_of_mem hy)]
    exact (List.find?_cons_of_neg (by simpa using hx)).trans hrest
  have other {α : Type} {f : Stage ι κ → Option α} {a : α} (hf : f .idle = none) {t : σ}
      (ht : f (Function.update s.stage server .idle t) = some a) :
      t ≠ server ∧ f (s.stage t) = some a := by
    by_cases hts : t = server
    · subst hts
      rw [Function.update_self, hf] at ht
      cases ht
    · exact ⟨hts, by rwa [Function.update_of_ne hts] at ht⟩
  refine ⟨List.nodup_cons.mpr ⟨hmem, h.nodup⟩, ?_, ?_, ?_, ?_, ?_⟩
  · intro y hy
    rcases List.mem_cons.mp hy with rfl | hy
    · exact hlive
    · exact h.live y hy
  · intro w hw
    rw [show s.sweep = some w from hw] at hsweep
    cases hsweep
  · intro t job' y ht
    obtain ⟨hts, ht⟩ := other rfl ht
    rw [hlook hts]
    exact h.busy t job' y ht
  · intro t y ht
    obtain ⟨hts, hty⟩ := other rfl ht
    refine ⟨(h.fresh t y hty).1, ?_⟩
    rintro hy
    rcases List.mem_cons.mp hy with rfl | hy
    · exact hts (h.alone t server y hty (by rw [hs]; rfl))
    · exact (h.fresh t y hty).2 hy
  · intro t t' y ht ht'
    exact h.alone t t' y (other rfl ht).2 (other rfl ht').2

/-- The sweep removes a record that no thread uses. -/
theorem reap {now : ℕ} {rest : List ι} (h : Listed s)
    (hsweep : s.sweep = some ⟨now, x :: rest, true⟩)
    (hfree : ∀ server job, (s.stage server).busy ≠ some (job, x)) :
    Listed { { s with list := s.list.erase x }.free x with sweep := some ⟨now, rest, false⟩ } := by
  obtain ⟨hnodup, hmem⟩ := h.walk _ hsweep
  have ⟨hxr, hrest⟩ := List.nodup_cons.mp hnodup
  have hx : x ∈ s.list := hmem x List.mem_cons_self
  have of_erase {y : ι} (hy : y ∈ s.list.erase x) : y ≠ x ∧ y ∈ s.list := h.nodup.mem_erase_iff.mp hy
  refine ⟨h.nodup.erase x, ?_, ?_, ?_, ?_, h.alone⟩
  · intro y hy
    obtain ⟨hne, hy⟩ := of_erase hy
    simpa [Function.update_of_ne hne] using h.live y hy
  · rintro w ⟨⟩
    refine ⟨hrest, fun y hy ↦ h.nodup.mem_erase_iff.mpr ⟨?_, hmem y (List.mem_cons_of_mem x hy)⟩⟩
    rintro rfl
    exact hxr hy
  · intro t job y ht
    have hne : y ≠ x := fun e ↦ hfree t job (e ▸ ht)
    exact Threads.lookup_erase (h.busy t job y ht) hne
  · intro t y ht
    obtain ⟨hlive, hy⟩ := h.fresh t y ht
    have hne : y ≠ x := fun e ↦ hy (e ▸ hx)
    exact ⟨by simpa [Function.update_of_ne hne] using hlive, fun hy' ↦ hy (of_erase hy').2⟩

omit [DecidableEq ι] in
/-- The sweep goes on without removing anything. -/
theorem walk_on {w : Option (Sweep ι)} (h : Listed s)
    (hw : ∀ w', w = some w' → w'.rest.Nodup ∧ ∀ x ∈ w'.rest, x ∈ s.list) :
    Listed { s with sweep := w } :=
  ⟨h.nodup, h.live, hw, h.busy, h.fresh, h.alone⟩

end Moves

/-! ## Every step -/

section Steps

variable [DecidableEq ι] [DecidableEq σ] [DecidableEq κ] {out : Outside κ}
  {s s' : Threads ι σ κ}

omit [DecidableEq ι] [DecidableEq κ] in
theorem message {server : σ} {job : Job} (h : Listed s) (hm : MessageMove s server job s') :
    Listed s' := by
  cases hm with
  | found hi hs hx =>
      refine h.goto ?_ fun x hx ↦ by cases hx
      rintro job x ⟨⟩
      exact hx
  | ask hi hx =>
      have h' : Listed (s.enqueue (.get server job.nick)) :=
        h.congr rfl rfl rfl rfl (fun _ _ ↦ rfl) fun _ _ ↦ rfl
      exact h'.goto_busy (fun p hp ↦ by cases hp) rfl

theorem thread {server : σ} (h : Listed s) (hm : ThreadMove out s server s') : Listed s' := by
  cases hm with
  | pass hp => exact h.goto_busy (fun _ ↦ hp.busy) hp.fresh
  | ask hs hc halg hv =>
      rename_i job x mode alg key
      have h' : Listed (s.enqueue (.get server job.nick)) :=
        h.congr rfl rfl rfl rfl (fun _ _ ↦ rfl) fun _ _ ↦ rfl
      exact h'.goto_busy (fun p hp ↦ by rw [Threads.enqueue_stage, hs]; exact hp) rfl
  | logoff hs ha => exact (h.write rfl rfl).goto_busy (fun p hp ↦ by cases hp) rfl
  | add hs hsweep => exact h.add hs hsweep
  | agree hs hu =>
      rename_i r mode new
      have hf : (s.stage server).fresh = some new := by rw [hs]; rfl
      have hb : (s.stage server).busy = some (r.job, r.auth) := by rw [hs]; rfl
      have h' : Listed ({ s with
          mem := Function.update s.mem new (s.mem new)
          live := Function.update s.live new false }.goto server (.counting r mode)) :=
        h.setLive (h.fresh server new hf).2 (fun t ht hft ↦ ht (h.alone t server new hft hf))
          (fun job y hy ↦ h.busy server job y (hb.trans hy)) fun y hy ↦ by cases hy
      rw [Function.update_eq_self] at h'
      exact h'
  | rewrite hr =>
      refine (h.writeOtp _).goto_busy ?_ hr.fresh
      intro p hp
      exact hr.busy.1.trans (hr.busy.2.symm.trans hp)
  | store hs =>
      apply goto_busy
      · exact h.congr rfl rfl rfl rfl (fun _ _ ↦ rfl) fun _ _ ↦ rfl
      · intro p hp
        exact (congrArg Stage.busy hs).trans hp
      · rfl
  | storeFirst hs =>
      apply goto_busy
      · exact h.congr rfl rfl rfl rfl (fun _ _ ↦ rfl) fun _ _ ↦ rfl
      · intro p hp
        exact (congrArg Stage.busy hs).trans hp
      · rfl
  | settle hs =>
      rename_i job x ok
      have hw : Listed (s.write x (settle job ok)) := by
        cases ok
        · exact h.write rfl rfl
        · exact h.write rfl rfl
      refine hw.goto_busy ?_ rfl
      intro p hp
      rw [Threads.write_stage, hs]
      cases ok
      · cases hp
      · exact hp

omit [DecidableEq κ] in
theorem query {malloc : ι} (h : Listed s) (hm : QueryMove out s malloc s') : Listed s' := by
  have congr {q : List (Query ι σ κ)} : Listed { s with queue := q } :=
    h.congr rfl rfl rfl rfl (fun _ _ ↦ rfl) fun _ _ ↦ rfl
  cases hm with
  | noRow hq hrow hd =>
      refine congr.goto ?_ ?_
      · intro job x hx
        rw [hd.busy] at hx
        exact h.busy _ job x hx
      · intro x hx
        rw [hd.fresh] at hx
        cases hx
  | row hq hrow hlive hd =>
      rename_i server nick queue stage row
      have hx : malloc ∉ s.list := fun hx ↦ by
        rw [h.live malloc hx] at hlive
        cases hlive
      refine (congr (q := queue)).setLive (m := .ofRow server row) hx ?_ ?_ ?_
      · intro t _ hf
        rw [(h.fresh t malloc hf).1] at hlive
        cases hlive
      · intro job y hy
        rw [hd.busy] at hy
        exact h.busy _ job y hy
      · intro y hy
        rw [hd.fresh] at hy
        cases hy
        exact ⟨rfl, rfl⟩
  | chainUpdate hq hrow => exact congr
  | chainInsert hq hrow => exact congr
  | update hq => exact h.congr rfl rfl rfl rfl (fun _ _ ↦ rfl) fun _ _ ↦ rfl
  | insert hq => exact h.congr rfl rfl rfl rfl (fun _ _ ↦ rfl) fun _ _ ↦ rfl

omit [DecidableEq κ] in
theorem sweep (h : Listed s) (hm : SweepMove s s') : Listed s' := by
  cases hm with
  | start now hs =>
      refine h.walk_on ?_
      rintro w ⟨⟩
      exact ⟨h.nodup, fun _ hx ↦ hx⟩
  | expire hs =>
      have hw := h.walk _ hs
      refine (h.write rfl rfl).walk_on ?_
      rintro w ⟨⟩
      exact hw
  | inTime hs =>
      have hw := h.walk _ hs
      refine h.walk_on ?_
      rintro w ⟨⟩
      exact hw
  | finish hs =>
      refine h.walk_on ?_
      rintro w ⟨⟩

end Steps

end Listed

/-! ## What the user is told -/

section Told

variable [DecidableEq σ]

/-- When the user is told that the response was accepted, the record is on the list, and a
check answers true unless the sweep has ended the record's time. -/
def AcceptedListed (s : Threads ι σ κ) : Prop :=
  ∀ server job x, s.stage server = .replying job x true →
    x ∈ s.list ∧ ((s.mem x).state ≠ .timedout → s.check server job.nick = true)

/-- The state of a record that the user is told about. -/
def Told (s : Threads ι σ κ) : Prop :=
  ∀ server job x, s.stage server = .replying job x true →
    (s.mem x).state = .accepted ∨ (s.mem x).state = .timedout

theorem acceptedListed_of {s : Threads ι σ κ} (h : Listed s) (ht : Told s) : AcceptedListed s := by
  intro server job x hs
  have hx : s.lookup server job.nick = some x := h.busy server job x (by rw [hs]; rfl)
  refine ⟨Threads.mem_of_lookup hx, fun hstate ↦ ?_⟩
  rw [Threads.check, hx]
  simp [(ht server job x hs).resolve_right hstate]

end Told

section Runs

variable [DecidableEq ι] [DecidableEq σ] [DecidableEq κ] {out : Outside κ}
  {s s' : Threads ι σ κ}

omit [DecidableEq ι] [DecidableEq σ] [DecidableEq κ] in
/-- Whoever is told was told already, and the record has kept its state or has timed out. -/
theorem Told.of_state (h : Told s)
    (hs : ∀ server job x, s'.stage server = .replying job x true →
      s.stage server = .replying job x true ∧
        ((s'.mem x).state = (s.mem x).state ∨ (s'.mem x).state = .timedout)) : Told s' := by
  intro server job x hx
  obtain ⟨hold, hst | hst⟩ := hs server job x hx
  · rw [hst]
    exact h server job x hold
  · exact .inr hst

omit [DecidableEq ι] [DecidableEq κ] in
theorem Told.goto {server : σ} {stage : Stage ι κ} (h : Told s)
    (hn : ∀ job x, stage ≠ .replying job x true) : Told (s.goto server stage) := by
  apply h.of_state
  intro t job x hx
  refine ⟨?_, .inl rfl⟩
  by_cases hts : t = server
  · subst hts
    rw [Threads.goto_stage, Function.update_self] at hx
    exact absurd hx (hn job x)
  · rwa [Threads.goto_stage, Function.update_of_ne hts] at hx

omit [DecidableEq κ] in
/-- A thread writes to the record that it uses. -/
theorem Told.write_goto {server : σ} {job : Job} {x : ι} {f : AuthData σ → AuthData σ}
    {stage : Stage ι κ} (h : Told s) (hl : Listed s)
    (hb : (s.stage server).busy = some (job, x))
    (hn : ∀ job' y, stage = .replying job' y true → y = x ∧ (f (s.mem x)).state = .accepted) :
    Told ((s.write x f).goto server stage) := by
  intro t job' y hy
  by_cases hts : t = server
  · subst hts
    rw [Threads.goto_stage, Function.update_self] at hy
    obtain ⟨rfl, hf⟩ := hn job' y hy
    exact .inl (by simpa using hf)
  · rw [Threads.goto_stage, Function.update_of_ne hts] at hy
    have hbt : (s.stage t).busy = some (job', y) := (congrArg Stage.busy hy).trans rfl
    have hne : y ≠ x := by
      rintro rfl
      exact hts (hl.busy_unique hbt hb)
    simpa [Function.update_of_ne hne] using h t job' y hy

theorem Told.thread {server : σ} (h : Told s) (hl : Listed s)
    (hm : ThreadMove out s server s') : Told s' := by
  cases hm with
  | pass hp => exact h.goto fun job x ↦ hp.ne_replying job x true
  | ask hs hc halg hv => exact Told.goto h fun job x e ↦ by cases e
  | logoff hs ha =>
      exact h.write_goto hl ((congrArg Stage.busy hs).trans rfl) fun job x e ↦ by cases e
  | add hs hsweep =>
      rename_i job x
      have hx : x ∉ s.list := (hl.fresh server x ((congrArg Stage.fresh hs).trans rfl)).2
      refine Told.goto (h.of_state ?_) fun job x e ↦ by cases e
      intro t job' y hy
      refine ⟨hy, .inl ?_⟩
      have hb : (s.stage t).busy = some (job', y) := (congrArg Stage.busy hy).trans rfl
      have hmem : y ∈ s.list := hl.busy_mem hb
      simp [Function.update_of_ne (fun e ↦ hx (e ▸ hmem) : y ≠ x)]
  | agree hs hu => exact Told.goto h fun job x e ↦ by cases e
  | rewrite hr =>
      exact h.write_goto hl hr.busy.1 fun job x e ↦ absurd e (hr.ne_replying job x true)
  | store hs => exact Told.goto h fun job x e ↦ by cases e
  | storeFirst hs => exact Told.goto h fun job x e ↦ by cases e
  | settle hs =>
      refine h.write_goto hl ((congrArg Stage.busy hs).trans rfl) ?_
      rintro job x ⟨⟩
      exact ⟨rfl, rfl⟩

omit [DecidableEq κ] in
theorem Told.query {malloc : ι} (h : Told s) (hl : Listed s) (hm : QueryMove out s malloc s') :
    Told s' := by
  cases hm with
  | noRow hq hrow hd => exact Told.goto h fun job x ↦ hd.ne_replying job x true
  | row hq hrow hlive hd =>
      refine Told.goto (h.of_state ?_) fun job x ↦ hd.ne_replying job x true
      intro t job y hy
      refine ⟨hy, .inl ?_⟩
      have hb : (s.stage t).busy = some (job, y) := (congrArg Stage.busy hy).trans rfl
      have hmem : y ∈ s.list := hl.busy_mem hb
      have hne : y ≠ malloc := by
        rintro rfl
        rw [hl.live y hmem] at hlive
        cases hlive
      simp [Function.update_of_ne hne]
  | chainUpdate | chainInsert | update | insert => exact h

omit [DecidableEq σ] [DecidableEq κ] in
theorem Told.sweep (h : Told s) (hm : SweepMove s s') : Told s' := by
  cases hm with
  | expire hs =>
      rename_i now x rest
      apply h.of_state
      intro t job y hy
      refine ⟨hy, ?_⟩
      by_cases hyx : y = x
      · subst hyx
        exact .inr (by simp [expire])
      · exact .inl (by simp [Function.update_of_ne hyx])
  | start | inTime | finish => exact h

/-- The sweep does not remove a record that the thread of a server uses. -/
def Spares (s : Threads ι σ κ) : Step ι σ → Prop
  | .sweepReap => ∀ now x rest, s.sweep = some ⟨now, x :: rest, true⟩ → (s.mem x).state.Ended →
      ∀ server job, (s.stage server).busy ≠ some (job, x)
  | _ => True

theorem Listed.step {e : Step ι σ} (h : Listed s) (hc : Spares s e)
    (he : (threads ι σ κ out).step s e = some s') : Listed s' := by
  cases e with
  | message server job => exact h.message (message_move he)
  | thread server => exact h.thread (threadStep_move he)
  | execute malloc => exact h.query (execute_move he)
  | sweepBegin now => exact h.sweep (sweepBegin_move he)
  | sweepMark => exact h.sweep (sweepMark_move he)
  | sweepReap =>
      cases sweepReap_move he with
      | reap hs hended => exact h.reap hs (hc _ _ _ hs hended)
      | keep hs =>
          obtain ⟨hnodup, hmem⟩ := h.walk _ hs
          refine h.walk_on ?_
          rintro w ⟨⟩
          exact ⟨(List.nodup_cons.mp hnodup).2, fun x hx ↦ hmem x (List.mem_cons_of_mem _ hx)⟩
  | sweepEnd => exact h.sweep (sweepEnd_move he)

theorem Told.step {e : Step ι σ} (h : Told s) (hl : Listed s)
    (he : (threads ι σ κ out).step s e = some s') : Told s' := by
  cases e with
  | message server job =>
      cases message_move he with
      | found | ask => exact Told.goto h fun job x e ↦ by cases e
  | thread server => exact h.thread hl (threadStep_move he)
  | execute malloc => exact h.query hl (execute_move he)
  | sweepBegin now => exact h.sweep (sweepBegin_move he)
  | sweepMark => exact h.sweep (sweepMark_move he)
  | sweepReap =>
      cases sweepReap_move he with
      | reap | keep => exact h
  | sweepEnd => exact h.sweep (sweepEnd_move he)

omit [DecidableEq ι] [DecidableEq κ] in
theorem Listed.init (hlist : s.list = []) (hsweep : s.sweep = none)
    (hidle : ∀ server, s.stage server = .idle) : Listed s where
  nodup := by rw [hlist]; exact List.nodup_nil
  live x hx := by rw [hlist] at hx; cases hx
  walk w hw := by rw [hsweep] at hw; cases hw
  busy server job x hb := by rw [hidle] at hb; cases hb
  fresh server x hf := by rw [hidle] at hf; cases hf
  alone server server' x hf := by rw [hidle] at hf; cases hf

/-- As long as the sweep spares the records in use, the threads keep what they use on the
list. -/
theorem listed_reachable (h : (threads ι σ κ out).ReachableVia Spares s) : Listed s ∧ Told s := by
  refine h.invariant (I := fun s ↦ Listed s ∧ Told s) ?_ ?_
  · rintro s ⟨hlist, hsweep, hidle, -⟩
    refine ⟨.init hlist hsweep hidle, fun server job x hs ↦ ?_⟩
    rw [hidle] at hs
    cases hs
  · rintro s e s' ⟨hl, ht⟩ hc he
    exact ⟨hl.step hc he, ht.step hl he⟩

/-- **Acceptance.**  In every run in which the sweep does not remove a record that a thread
uses, whoever is told that a response was accepted is on the list. -/
theorem accepted_listed_run (h : (threads ι σ κ out).ReachableVia Spares s) :
    AcceptedListed s :=
  acceptedListed_of (listed_reachable h).1 (listed_reachable h).2

end Runs

/-! ## A user who answers in time, and one who does not -/

/-- Sixteen hexadecimal digits. -/
def isKeyText (text : CString) : Bool :=
  text.length == 16 && text.all fun c ↦ c.isDigit || 'a' ≤ c && c ≤ 'f'

/-- A key as it is written. -/
abbrev KeyText := { text : CString // isKeyText text = true }

/-- The key of a one-time password. -/
def sampleKey : KeyText := ⟨"9e876134d90499dd".toList, rfl⟩

/-- The key that `sampleKey` hashes to. -/
def sampleLastKey : KeyText := ⟨"7965e05436f5029f".toList, rfl⟩

/-- Keys as they are written, one step of a chain, and one challenge that parses. -/
def sampleOpie : Opie KeyText where
  etob _ := none
  atob8 text := if h : isKeyText text = true then some ⟨text, h⟩ else none
  btoa8 key := key.1
  hash key _ := if key = sampleKey then sampleLastKey else ⟨"0000000000000000".toList, rfl⟩
  parseChallenge text :=
    if text = "otp-md5 499 alpha1".toList then .parsed 499 5 "alpha1".toList false
    else .failed none

/-- Names are compared without regard to case. -/
def sampleOutside : Outside KeyText := ⟨sampleOpie, caseless⟩

/-- A table with the row of one user. -/
def sampleStart : Threads ℕ Bool KeyText where
  list := []
  mem _ := ⟨false, [], ⟨[], [], 0, []⟩, .none, 0⟩
  live _ := false
  sweep := none
  stage _ := .idle
  queue := []
  userauth nick :=
    if nick = ['a', 'n', 'n'] then
      some (nick, ⟨['m', 'd', '5'], ['T', 'e', 'S', 't'], 1, "7965e05436f5029f".toList⟩)
    else none
  stored := []
  accepted := []

theorem sampleStart_init : (threads ℕ Bool KeyText sampleOutside).init sampleStart :=
  ⟨rfl, rfl, fun _ ↦ rfl, rfl, rfl, rfl, fun user row h ↦ by
    simp only [sampleStart] at h
    split at h
    · rename_i hu
      cases h
      subst hu
      rfl
    · cases h⟩

/-- The user asks for a challenge at 0. -/
def askEvents (server : Bool) (malloc : ℕ) : List (Step ℕ Bool) :=
  [.message server ⟨['a', 'n', 'n'], some ['a', 'u', 't', 'h'], 0⟩, .execute malloc, .thread server]

/-- The answer to the challenge. -/
def sampleAnswer : Job := ⟨['a', 'n', 'n'], some "9e876134d90499dd".toList, 10⟩

/-- Whether an event is not a step of the sweep that removes. -/
def Step.keeps : Step ι σ → Bool
  | .sweepReap => false
  | _ => true

theorem accepted_listed_run_ann :
    ∃ s, (threads ℕ Bool KeyText sampleOutside).ReachableVia Spares s ∧
      s.stage false = .replying sampleAnswer 0 true ∧ AcceptedListed s := by
  have hrun : (((threads ℕ Bool KeyText sampleOutside).guard fun _ ↦ Step.keeps).run sampleStart
      (askEvents false 0 ++ [.message false sampleAnswer, .thread false, .execute 1, .thread false, .thread false,
        .thread false, .thread false, .thread false])).map (fun s ↦ s.stage false) =
      some (.replying sampleAnswer 0 true) := by
    rfl
  obtain ⟨s, hs, hstage⟩ := Option.map_eq_some_iff.mp hrun
  have hreach : (threads ℕ Bool KeyText sampleOutside).ReachableVia Spares s := by
    refine System.reachableVia_of_run ?_ sampleStart_init hs
    rintro s (_ | _ | _ | _ | _ | _ | _) he
    case sweepReap => cases he
    all_goals trivial
  exact ⟨s, hreach, hstage, accepted_listed_run hreach⟩

/-- The record times out while the response is compared with the table. -/
def timedOutEvents : List (Step ℕ Bool) :=
  askEvents false 0 ++ [.message false sampleAnswer, .thread false, .sweepBegin 31, .sweepMark, .sweepReap,
    .sweepEnd, .execute 1, .thread false, .thread false, .thread false, .thread false, .thread false]

theorem not_accepted_listed :
    ¬ ∀ s, (threads ℕ Bool KeyText sampleOutside).Reachable s → AcceptedListed s := by
  intro h
  have hrun : ((threads ℕ Bool KeyText sampleOutside).run sampleStart timedOutEvents).map
      (fun s ↦ (s.stage false, s.list)) = some (.replying sampleAnswer 0 true, []) := by
    rfl
  obtain ⟨s, hs, heq⟩ := Option.map_eq_some_iff.mp hrun
  obtain ⟨hstage, hlist⟩ := Prod.mk.inj heq
  have hmem := (h s (System.reachable_of_run sampleStart_init hs) false _ 0 hstage).1
  rw [hlist] at hmem
  cases hmem

end Beirdobot.Auth
