import Beirdobot.Library.System
import Beirdobot.Queue.Fifo

/-!
# The log window

A transcription of what `curses_output_thread` does to the log window and to its queue
of messages.  The scroll bars and everything outside of the window are left out.
`UpdateLogs` follows an entry of the table that is null like any other, so the state
says which entries it drew, not what became of it.
-/

namespace Beirdobot.Curses

open Library Queue

variable {α : Type}

/-- The log window: its queue, its variables in `curses_output_thread`, the height of
`winLog`, the entries of the table that were drawn last, and all messages so far. -/
structure LogWindow (α : Type) where
  cursesLogQ : QueueObject α
  scrolledBack : Bool
  logTop : ℕ
  lines : ℕ
  drawn : List ℕ
  logged : List α

/-- What a turn of the loop of `curses_output_thread` is about. -/
inductive CursesItem (α : Type)
  | logMessage (message : α)
  | keyPPage
  | keyNPage
  | reloadScreen (lines : ℕ)
  | other

/-- The loop that makes room for a message, with the number of items it frees. -/
def evict : ℕ → QueueObject α → ℕ → Option (QueueObject α × ℕ)
  | 0, _, _ => none
  | fuel + 1, q, count =>
      if queueUsed q ≥ 2000 then do
        let (q, _, _) ← queueDequeueItem q
        evict fuel q (count + 1)
      else some (q, count)

/-- `CURSES_LOG_MESSAGE` -/
def logMessage (s : LogWindow α) (message : α) : Option (LogWindow α) := do
  let (q, count) ← evict s.cursesLogQ.numElements s.cursesLogQ 0
  let (q, _, _) ← queueEnqueueItem q (some message)
  let logTop :=
    if s.scrolledBack ∧ u32 (s.logTop + count) &&& q.numMask = q.tail then q.tail else s.logTop
  some { s with cursesLogQ := q, logTop, logged := s.logged ++ [message] }

/-- `KEY_PPAGE` -/
def keyPPage (s : LogWindow α) : LogWindow α :=
  let q := s.cursesLogQ
  if queueUsed q ≤ s.lines then { s with scrolledBack := false }
  else
    let count := u32 (s.logTop + q.numElements + 2 ^ 32 - q.tail) &&& q.numMask
    if count < s.lines then { s with scrolledBack := true, logTop := q.tail }
    else
      { s with
        scrolledBack := true
        logTop := u32 (s.logTop + q.numElements + 2 ^ 32 - s.lines) &&& q.numMask }

/-- `KEY_NPAGE` -/
def keyNPage (s : LogWindow α) : LogWindow α :=
  let q := s.cursesLogQ
  if s.scrolledBack then
    if queueUsed q ≤ s.lines then { s with scrolledBack := false }
    else
      let count := u32 (q.head + q.numElements + 2 ^ 32 - s.logTop) &&& q.numMask
      if count ≤ 2 * s.lines then { s with scrolledBack := false }
      else { s with logTop := u32 (s.logTop + s.lines) &&& q.numMask }
  else s

/-- The first lines of `UpdateLogs`, with the `logTop` and the `count` they set. -/
def logLines (s : LogWindow α) : ℕ × ℕ :=
  let q := s.cursesLogQ
  if queueUsed q > s.lines then
    (if s.scrolledBack then s.logTop
      else u32 (q.head + q.numElements + 2 ^ 32 - s.lines) &&& q.numMask, s.lines)
  else (q.tail, queueUsed q)

/-- `UpdateLogs` -/
def updateLogs (s : LogWindow α) : LogWindow α :=
  let lines := logLines s
  { s with
    logTop := lines.1
    drawn := (List.range lines.2).map fun i ↦ u32 (lines.1 + i) &&& s.cursesLogQ.numMask }

/-- The `switch` of `curses_output_thread`. -/
def dispatch (s : LogWindow α) : CursesItem α → Option (LogWindow α)
  | .logMessage message => logMessage s message
  | .keyPPage => some (keyPPage s)
  | .keyNPage => some (keyNPage s)
  | .reloadScreen lines => some { s with lines }
  | .other => some s

/-- `curses_output_thread` -/
def outputThread (α : Type) : System (LogWindow α) (CursesItem α) where
  init s := queueCreate 2048 = some s.cursesLogQ ∧ s.scrolledBack = false ∧ s.logTop = 0 ∧
    s.drawn = [] ∧ s.logged = []
  step s item := (dispatch s item).map updateLogs

/-- The entries of the table that are in use, in the order of their messages. -/
def occupied (q : QueueObject α) : List ℕ := window q.numElements id q.tail (queueUsed q)

/-- The lines drawn are consecutive entries of the queue, which holds the last messages. -/
structure Shows (s : LogWindow α) : Prop where
  drawn : s.drawn <:+: occupied s.cursesLogQ
  queued : ∃ pending : List α,
    (occupied s.cursesLogQ).map s.cursesLogQ.itemTable = pending.map some ∧
      pending <:+ s.logged

/-- The number of queued messages before the first line. -/
def offset (s : LogWindow α) : ℕ :=
  (s.logTop + s.cursesLogQ.numElements - s.cursesLogQ.tail) % s.cursesLogQ.numElements

/-- A window that is scrolled back, and does not get as tall as the queue is long, does
not get taller than the queue is from its first line on. -/
def Fits (s : LogWindow α) : CursesItem α → Prop
  | .reloadScreen lines =>
      s.scrolledBack = true → lines < queueUsed s.cursesLogQ →
        offset s + lines ≤ queueUsed s.cursesLogQ
  | _ => True

/-! ## The queue -/

/-- The queue holds the last messages, 2000 at most, and the first line is at an offset
from its tail. -/
structure Keeps (s : LogWindow α) (pending : List α) (off : ℕ) : Prop where
  holds : Holds s.cursesLogQ pending
  size : s.cursesLogQ.numElements = 2048
  length_le : pending.length ≤ 2000
  logged : pending <:+ s.logged
  off_lt : off < s.cursesLogQ.numElements
  logTop : s.logTop = (s.cursesLogQ.tail + off) % s.cursesLogQ.numElements

namespace Keeps

variable {s : LogWindow α} {pending : List α} {off : ℕ} (h : Keeps s pending off)

include h

theorem used : queueUsed s.cursesLogQ = pending.length := by
  rw [h.holds.wellFormed.queueUsed_eq, h.holds.length_eq]

theorem and_mask (x : ℕ) : u32 x &&& s.cursesLogQ.numMask = x % s.cursesLogQ.numElements :=
  h.holds.wellFormed.and_mask x

theorem tail_lt : s.cursesLogQ.tail < s.cursesLogQ.numElements := h.holds.wellFormed.tail_lt

theorem length_lt : pending.length < s.cursesLogQ.numElements := by
  have hlen := h.length_le
  rw [h.size]
  omega

theorem head_eq :
    s.cursesLogQ.head = (s.cursesLogQ.tail + pending.length) % s.cursesLogQ.numElements := by
  rw [h.holds.wellFormed.head_eq, h.holds.length_eq]

/-- An entry at a distance before another one. -/
theorem sub_eq {i j : ℕ} (hji : j ≤ i) (hi : i < s.cursesLogQ.numElements) :
    u32 ((s.cursesLogQ.tail + i) % s.cursesLogQ.numElements + s.cursesLogQ.numElements + 2 ^ 32 -
        j) &&& s.cursesLogQ.numMask =
      (s.cursesLogQ.tail + (i - j)) % s.cursesLogQ.numElements := by
  have htail := h.tail_lt
  have hsize := h.size
  rw [h.and_mask]
  rw [hsize] at hi htail ⊢
  omega

/-- The distance between two entries. -/
theorem dist_eq {i j : ℕ} (hji : j ≤ i) (hi : i < s.cursesLogQ.numElements) :
    u32 ((s.cursesLogQ.tail + i) % s.cursesLogQ.numElements + s.cursesLogQ.numElements + 2 ^ 32 -
        (s.cursesLogQ.tail + j) % s.cursesLogQ.numElements) &&& s.cursesLogQ.numMask = i - j := by
  have htail := h.tail_lt
  have hsize := h.size
  rw [h.and_mask]
  rw [hsize] at hi htail ⊢
  omega

theorem offset_eq : offset s = off := by
  have htail := h.tail_lt
  have hoff := h.off_lt
  have hsize := h.size
  rw [offset, h.logTop]
  rw [hsize] at hoff htail ⊢
  omega

theorem occupied_eq : occupied s.cursesLogQ =
    window s.cursesLogQ.numElements id s.cursesLogQ.tail pending.length := by
  rw [occupied, h.used]

theorem queued : ∃ pending : List α,
    (occupied s.cursesLogQ).map s.cursesLogQ.itemTable = pending.map some ∧
      pending <:+ s.logged := by
  refine ⟨pending, ?_, h.logged⟩
  rw [← h.holds.window_eq, ← h.holds.wellFormed.queueUsed_eq, occupied, map_window]

end Keeps

/-- The loop stops with 1999 items at most. -/
theorem evict_eq {fuel : ℕ} {q : QueueObject α} {pending : List α} (h : Holds q pending)
    (hf : pending.length < fuel) (count : ℕ) :
    ∃ q', evict fuel q count = some (q', count + (pending.length - 1999)) ∧
      Holds q' (pending.drop (pending.length - 1999)) ∧ q'.numElements = q.numElements ∧
      q'.tail = (q.tail + (pending.length - 1999)) % q.numElements := by
  induction fuel generalizing q pending count with
  | zero => cases hf
  | succ fuel ih =>
      have hused : queueUsed q = pending.length := by
        rw [h.wellFormed.queueUsed_eq, h.length_eq]
      by_cases hc : 2000 ≤ pending.length
      · have hne : q.empty = false := by
          rw [Bool.eq_false_iff]
          intro he
          rw [h.empty_iff.mp he] at hc
          cases hc
        obtain ⟨x, rest, rfl, -, hrest⟩ := h.removeItem hne
        have htail : (removeItem q).1.tail = (q.tail + 1) % q.numElements :=
          h.wellFormed.and_mask _
        obtain ⟨q', he, h', hnum, htail'⟩ :=
          ih hrest (Nat.lt_of_succ_lt_succ hf) (count + 1)
        obtain ⟨c, hc'⟩ : ∃ c, c = rest.length - 1999 := ⟨_, rfl⟩
        have hlen : (x :: rest).length - 1999 = c + 1 := by
          rw [List.length_cons] at hc ⊢
          omega
        rw [← hc'] at he h' htail'
        refine ⟨q', ?_, ?_, hnum, ?_⟩
        · have hcount : count + 1 + c = count + (c + 1) := by omega
          have hdequeue : queueDequeueItem q = some (removeItem q) := by
            rw [queueDequeueItem, if_neg (by simp [hne])]
          rw [evict, hused, if_pos hc, hdequeue, hlen, ← hcount]
          exact he
        · rw [hlen, List.drop_succ_cons]
          exact h'
        · rw [htail', htail, hlen]
          show ((q.tail + 1) % q.numElements + c) % q.numElements = _
          rw [Nat.mod_add_mod, Nat.add_assoc, Nat.add_comm 1 c]
      · have hzero : pending.length - 1999 = 0 := by omega
        refine ⟨q, ?_, ?_, rfl, ?_⟩
        · rw [evict, hused, if_neg hc, hzero]
          rfl
        · rw [hzero]
          exact h
        · rw [hzero, Nat.add_zero, Nat.mod_eq_of_lt h.wellFormed.tail_lt]

/-! ## One turn -/

/-- What `UpdateLogs` needs: the lines of a window that is scrolled back are there. -/
def Ready (s : LogWindow α) (pending : List α) (off : ℕ) : Prop :=
  s.scrolledBack = true → s.lines < pending.length → off + s.lines ≤ pending.length

/-- What `UpdateLogs` draws: as many lines as there are, from the offset on if the
window is scrolled back, and the last ones if it is not. -/
theorem logLines_eq {s : LogWindow α} {pending : List α} {off : ℕ} (h : Keeps s pending off) :
    ∃ off', logLines s = ((s.cursesLogQ.tail + off') % s.cursesLogQ.numElements,
        min s.lines pending.length) ∧ off' < s.cursesLogQ.numElements ∧
      off' = if s.scrolledBack = true ∧ s.lines < pending.length then off
        else pending.length - s.lines := by
  have hlen := h.length_lt
  rw [logLines, h.used]
  by_cases hl : s.lines < pending.length
  · rw [if_pos hl, Nat.min_eq_left (Nat.le_of_lt hl)]
    cases hb : s.scrolledBack with
    | true => exact ⟨off, by rw [if_pos rfl, h.logTop], h.off_lt, by rw [if_pos ⟨rfl, hl⟩]⟩
    | false =>
        refine ⟨pending.length - s.lines, ?_, by omega, by rw [if_neg (by simp)]⟩
        rw [if_neg (by decide), h.head_eq, h.sub_eq (Nat.le_of_lt hl) hlen]
  · rw [if_neg hl, Nat.min_eq_right (Nat.le_of_not_lt hl)]
    refine ⟨0, by rw [Nat.add_zero, Nat.mod_eq_of_lt h.tail_lt], Nat.zero_lt_of_lt hlen, ?_⟩
    rw [if_neg fun hb ↦ hl hb.2, Nat.sub_eq_zero_of_le (Nat.le_of_not_lt hl)]

theorem updateLogs_eq {s : LogWindow α} {pending : List α} {off : ℕ} (h : Keeps s pending off) :
    ∃ off' logTop drawn, updateLogs s = { s with logTop, drawn } ∧
      Keeps { s with logTop, drawn } pending off' ∧
      drawn = window s.cursesLogQ.numElements id (s.cursesLogQ.tail + off')
        (min s.lines pending.length) ∧
      off' = if s.scrolledBack = true ∧ s.lines < pending.length then off
        else pending.length - s.lines := by
  obtain ⟨off', hlines, hlt, hoff⟩ := logLines_eq h
  refine ⟨off', (s.cursesLogQ.tail + off') % s.cursesLogQ.numElements,
    window s.cursesLogQ.numElements id (s.cursesLogQ.tail + off') (min s.lines pending.length),
    ?_, ⟨h.holds, h.size, h.length_le, h.logged, hlt, rfl⟩, rfl, hoff⟩
  rw [updateLogs, hlines]
  simp only [h.and_mask, window, Nat.mod_add_mod, id_eq]

/-- `UpdateLogs` draws a part of the queue exactly if the lines of a window that is
scrolled back are there. -/
theorem updateLogs_shows {s : LogWindow α} {pending : List α} {off : ℕ} (h : Keeps s pending off)
    (hoff : s.scrolledBack = true → off ≤ pending.length) :
    ∃ off', Keeps (updateLogs s) pending off' ∧ (updateLogs s).lines = s.lines ∧
      off' ≤ pending.length ∧
      (Shows (updateLogs s) ↔ off' + min s.lines pending.length ≤ pending.length) ∧
      (Shows (updateLogs s) ↔ Ready s pending off) := by
  obtain ⟨off', logTop, drawn, he, h', hdrawn, hoff'⟩ := updateLogs_eq h
  rw [he]
  have hle : off' ≤ pending.length := by
    rw [hoff']
    split
    · rename_i hb
      exact hoff hb.1
    · exact Nat.sub_le ..
  have hshows : Shows { s with logTop, drawn } ↔ off' + min s.lines pending.length ≤ pending.length := by
    have hinfix := window_id_infix_iff (a := s.cursesLogQ.tail) (k := min s.lines pending.length)
      hle h.length_lt
    rw [← hinfix, ← hdrawn, ← h.occupied_eq]
    exact ⟨Shows.drawn, fun hd ↦ ⟨hd, h'.queued⟩⟩
  refine ⟨off', h', rfl, hle, hshows, hshows.trans ?_⟩
  rw [hoff', Ready]
  by_cases hl : s.lines < pending.length
  · rw [Nat.min_eq_left (Nat.le_of_lt hl)]
    cases hb : s.scrolledBack with
    | true => simp [hl]
    | false =>
        simp only [Bool.false_eq_true, false_and, if_false, false_imp_iff, iff_true]
        omega
  · have hzero : pending.length - s.lines = 0 := Nat.sub_eq_zero_of_le (Nat.le_of_not_lt hl)
    simp [hl, hzero]

/-- What a turn leaves: the lines from the offset on are there. -/
def Settled (s : LogWindow α) (pending : List α) (off : ℕ) : Prop :=
  Keeps s pending off ∧ off + min s.lines pending.length ≤ pending.length

theorem Settled.off_le {s : LogWindow α} {pending : List α} {off : ℕ} (h : Settled s pending off) :
    off ≤ pending.length := by
  have hr := h.2
  omega

/-- Every entry is at some offset from the tail. -/
theorem exists_offset {n t x : ℕ} (ht : t < n) (hx : x < n) : ∃ off < n, x = (t + off) % n := by
  by_cases hle : t ≤ x
  · refine ⟨x - t, by omega, ?_⟩
    rw [Nat.add_sub_cancel' hle, Nat.mod_eq_of_lt hx]
  · refine ⟨x + n - t, by omega, ?_⟩
    rw [Nat.add_sub_cancel' (by omega), Nat.add_mod_right, Nat.mod_eq_of_lt hx]

/-- A new message moves the first line only if that was the last item of the queue. -/
theorem logMessage_eq {s : LogWindow α} {pending : List α} {off : ℕ} (h : Settled s pending off)
    (message : α) :
    ∃ s' pending' off', logMessage s message = some s' ∧ Keeps s' pending' off' ∧
      (s'.scrolledBack = true → off' ≤ pending'.length) ∧ Ready s' pending' off' := by
  obtain ⟨hk, hr⟩ := h
  have hlen := hk.length_le
  have hfuel := hk.length_lt
  obtain ⟨q₁, he₁, h₁, hnum₁, htail₁⟩ := evict_eq hk.holds hfuel 0
  obtain ⟨c, hc⟩ : ∃ c, c = pending.length - 1999 := ⟨_, rfl⟩
  rw [← hc, Nat.zero_add] at he₁
  rw [← hc] at h₁ htail₁
  have hc₁ : c ≤ 1 := by omega
  have hlen₁ : (pending.drop c).length = pending.length - c := List.length_drop
  have hnotfull : q₁.full = false := by
    rw [Bool.eq_false_iff]
    intro hfull
    have hlast := h₁.full_iff.mp hfull
    rw [hlen₁, hnum₁, hk.size] at hlast
    omega
  obtain ⟨q₂, hq₂⟩ : ∃ q₂, q₂ = (insertItem q₁ message).1 := ⟨_, rfl⟩
  have h₂ : Holds q₂ (pending.drop c ++ [message]) := hq₂ ▸ h₁.insertItem hnotfull message
  have hnum₂ : q₂.numElements = s.cursesLogQ.numElements := by rw [hq₂]; exact hnum₁
  have htail₂ : q₂.tail = (s.cursesLogQ.tail + c) % s.cursesLogQ.numElements := by
    rw [hq₂]
    exact htail₁
  have hlen₂ : (pending.drop c ++ [message]).length = pending.length - c + 1 := by
    rw [List.length_append, hlen₁]
    rfl
  obtain ⟨logTop, htop⟩ : ∃ logTop, logTop = if s.scrolledBack = true ∧
      u32 (s.logTop + c) &&& q₂.numMask = q₂.tail then q₂.tail else s.logTop := ⟨_, rfl⟩
  have he : logMessage s message = some { s with
      cursesLogQ := q₂, logTop, logged := s.logged ++ [message] } := by
    have henqueue : queueEnqueueItem q₁ (some message) =
        some ((insertItem q₁ message).1, (insertItem q₁ message).2, true) := by
      rw [queueEnqueueItem, if_neg (by simp [hnotfull])]
    simp only [logMessage, he₁, henqueue, Option.bind_eq_bind, Option.bind_some, ← hq₂, ← htop]
  have hkeeps : ∀ off', off' < s.cursesLogQ.numElements →
      logTop = (q₂.tail + off') % s.cursesLogQ.numElements →
      Keeps { s with cursesLogQ := q₂, logTop, logged := s.logged ++ [message] }
        (pending.drop c ++ [message]) off' := by
    intro off' hoff' htop'
    refine ⟨h₂, hnum₂.trans hk.size, by omega, ?_, by rw [hnum₂]; exact hoff', by rw [hnum₂]; exact htop'⟩
    obtain ⟨before, hbefore⟩ := (List.drop_suffix c pending).trans hk.logged
    exact ⟨before, by rw [← List.append_assoc, hbefore]⟩
  have hpos : 0 < s.cursesLogQ.numElements := Nat.zero_lt_of_lt hfuel
  have hmod : (s.cursesLogQ.tail + c) % s.cursesLogQ.numElements < s.cursesLogQ.numElements :=
    Nat.mod_lt _ hpos
  cases hb : s.scrolledBack with
  | false =>
      -- the first line is found anew
      have hlt : logTop < s.cursesLogQ.numElements := by
        rw [htop, if_neg (by simp [hb]), hk.logTop]
        exact Nat.mod_lt _ hpos
      obtain ⟨off', hoff', htop'⟩ := exists_offset (htail₂ ▸ hmod) hlt
      have hno : ¬ s.scrolledBack = true := by simp [hb]
      exact ⟨_, _, off', he, hkeeps off' hoff' htop', fun h ↦ absurd h hno, fun h ↦ absurd h hno⟩
  | true =>
      by_cases hcond : u32 (s.logTop + c) &&& q₂.numMask = q₂.tail
      · rw [if_pos ⟨hb, hcond⟩] at htop
        refine ⟨_, _, 0, he, hkeeps 0 hpos ?_, fun _ ↦ Nat.zero_le _, fun _ hl ↦ ?_⟩
        · rw [htop, Nat.add_zero, htail₂, Nat.mod_mod]
        · rw [Nat.zero_add]
          exact Nat.le_of_lt hl
      · rw [if_neg fun hand ↦ hcond hand.2] at htop
        have hoff : off ≠ 0 := by
          rintro rfl
          refine hcond ?_
          rw [h₂.wellFormed.and_mask, hnum₂, htail₂, hk.logTop, Nat.add_zero, Nat.mod_add_mod]
        refine ⟨_, _, off - c, he, hkeeps (off - c) (Nat.lt_of_le_of_lt (Nat.sub_le ..) hk.off_lt) ?_,
          fun _ ↦ ?_, fun _ hl ↦ ?_⟩
        · rw [htop, hk.logTop, htail₂, Nat.mod_add_mod]
          congr 1
          omega
        · rw [hlen₂]
          omega
        · rw [hlen₂] at hl ⊢
          show off - c + s.lines ≤ _
          have hl' : s.lines < pending.length - c + 1 := hl
          omega

/-- The first line can be put at any offset. -/
theorem Keeps.move {s : LogWindow α} {pending : List α} {off : ℕ} (h : Keeps s pending off)
    {off' logTop : ℕ} (hoff : off' < s.cursesLogQ.numElements)
    (htop : logTop = (s.cursesLogQ.tail + off') % s.cursesLogQ.numElements) (scrolledBack : Bool) :
    Keeps { s with scrolledBack, logTop } pending off' :=
  ⟨h.holds, h.size, h.length_le, h.logged, hoff, htop⟩

theorem keyPPage_eq {s : LogWindow α} {pending : List α} {off : ℕ} (h : Settled s pending off) :
    ∃ off', Keeps (keyPPage s) pending off' ∧
      ((keyPPage s).scrolledBack = true → off' ≤ pending.length) ∧
      Ready (keyPPage s) pending off' := by
  obtain ⟨hk, hr⟩ := h
  have hoff := hk.off_lt
  have htail := hk.tail_lt
  have hcount : u32 (s.logTop + s.cursesLogQ.numElements + 2 ^ 32 - s.cursesLogQ.tail) &&&
      s.cursesLogQ.numMask = off := by
    have hdist := hk.dist_eq (Nat.zero_le off) hoff
    rwa [Nat.add_zero, Nat.mod_eq_of_lt htail, ← hk.logTop, Nat.sub_zero] at hdist
  rw [keyPPage]
  dsimp only
  rw [hk.used, hcount]
  split
  · exact ⟨off, hk.move hoff hk.logTop false, nofun, nofun⟩
  · rename_i hl
    split
    · refine ⟨0, hk.move (Nat.zero_lt_of_lt hoff) ?_ true, fun _ ↦ Nat.zero_le _, fun _ hl ↦ ?_⟩
      · rw [Nat.add_zero, Nat.mod_eq_of_lt htail]
      · rw [Nat.zero_add]
        exact Nat.le_of_lt hl
    · rename_i hlines
      have hle : s.lines ≤ off := Nat.le_of_not_lt hlines
      refine ⟨off - s.lines, hk.move (Nat.lt_of_le_of_lt (Nat.sub_le ..) hoff) ?_ true,
        fun _ ↦ ?_, fun _ _ ↦ ?_⟩
      · rw [hk.logTop, hk.sub_eq hle hoff]
      · omega
      · show off - s.lines + s.lines ≤ pending.length
        omega

theorem keyNPage_eq {s : LogWindow α} {pending : List α} {off : ℕ} (h : Settled s pending off) :
    ∃ off', Keeps (keyNPage s) pending off' ∧
      ((keyNPage s).scrolledBack = true → off' ≤ pending.length) ∧
      Ready (keyNPage s) pending off' := by
  have hle := h.off_le
  obtain ⟨hk, hr⟩ := h
  have hoff := hk.off_lt
  have hlen := hk.length_lt
  have hcount : u32 (s.cursesLogQ.head + s.cursesLogQ.numElements + 2 ^ 32 - s.logTop) &&&
      s.cursesLogQ.numMask = pending.length - off := by
    rw [hk.head_eq, hk.logTop, hk.dist_eq hle hlen]
  rw [keyNPage]
  dsimp only
  rw [hk.used, hcount]
  split
  · rename_i hb
    split
    · exact ⟨off, hk.move hoff hk.logTop false, nofun, nofun⟩
    · split
      · exact ⟨off, hk.move hoff hk.logTop false, nofun, nofun⟩
      · refine ⟨off + s.lines, hk.move (by omega) ?_ s.scrolledBack, fun _ ↦ by omega,
          fun _ _ ↦ ?_⟩
        · rw [hk.and_mask, hk.logTop, Nat.mod_add_mod, Nat.add_assoc]
        · show off + s.lines + s.lines ≤ pending.length
          omega
  · rename_i hb
    exact ⟨off, hk, fun h ↦ absurd h hb, fun h ↦ absurd h hb⟩

/-- What an item leaves for `UpdateLogs`. -/
theorem dispatch_eq {s : LogWindow α} {pending : List α} {off : ℕ} (h : Settled s pending off)
    (item : CursesItem α) :
    ∃ s' pending' off', dispatch s item = some s' ∧ Keeps s' pending' off' ∧
      (s'.scrolledBack = true → off' ≤ pending'.length) ∧
      (Ready s' pending' off' ↔ Fits s item) := by
  obtain ⟨hk, hr⟩ := h
  cases item with
  | logMessage message =>
      obtain ⟨s', pending', off', he, hk', hle, hready⟩ := logMessage_eq ⟨hk, hr⟩ message
      exact ⟨s', pending', off', he, hk', hle, iff_of_true hready trivial⟩
  | keyPPage =>
      obtain ⟨off', hk', hle, hready⟩ := keyPPage_eq ⟨hk, hr⟩
      exact ⟨_, pending, off', rfl, hk', hle, iff_of_true hready trivial⟩
  | keyNPage =>
      obtain ⟨off', hk', hle, hready⟩ := keyNPage_eq ⟨hk, hr⟩
      exact ⟨_, pending, off', rfl, hk', hle, iff_of_true hready trivial⟩
  | reloadScreen lines =>
      refine ⟨_, pending, off, rfl,
        ⟨hk.holds, hk.size, hk.length_le, hk.logged, hk.off_lt, hk.logTop⟩, fun _ ↦ by omega, ?_⟩
      rw [Fits, hk.used, hk.offset_eq]
      exact .rfl
  | other =>
      refine ⟨s, pending, off, rfl, hk, fun _ ↦ by omega, iff_of_true (fun _ hl ↦ ?_) trivial⟩
      rwa [Nat.min_eq_left (Nat.le_of_lt hl)] at hr

/-- A turn never waits, and draws queued messages only exactly if its item fits. -/
theorem step_eq {s : LogWindow α} {pending : List α} {off : ℕ} (h : Settled s pending off)
    (item : CursesItem α) :
    ∃ s', (outputThread α).step s item = some s' ∧ (Shows s' ↔ Fits s item) ∧
      (Fits s item → ∃ pending' off', Settled s' pending' off') := by
  obtain ⟨s₁, pending', off₁, he, hk₁, hle, hfits⟩ := dispatch_eq h item
  obtain ⟨off', hk', hlines, -, hshows, hready⟩ := updateLogs_shows hk₁ hle
  refine ⟨updateLogs s₁, by simp only [outputThread, he, Option.map_some], hready.trans hfits, ?_⟩
  intro hfit
  refine ⟨pending', off', hk', ?_⟩
  rw [hlines]
  exact hshows.mp (hready.mpr (hfits.mpr hfit))

/-! ## Runs -/

theorem queueCreate_start {q : QueueObject α} (h : queueCreate 2048 = some q) :
    q.numElements = 2048 ∧ q.tail = 0 := by
  cases h
  exact ⟨rfl, rfl⟩

theorem init_settled {s : LogWindow α} (h : (outputThread α).init s) : Settled s [] 0 ∧ Shows s := by
  obtain ⟨hq, -, htop, hdrawn, hlogged⟩ := h
  obtain ⟨q, hq', hwf, hused, -⟩ := queueCreate_spec (α := α) (n := 2048) (by omega) (by omega)
  cases hq.symm.trans hq'
  obtain ⟨hsize, htail⟩ := queueCreate_start hq
  have hholds : Holds s.cursesLogQ [] := by
    refine ⟨hwf, by omega, hused.symm, ?_⟩
    rw [hused]
    rfl
  have hk : Keeps s [] 0 :=
    ⟨hholds, hsize, Nat.zero_le _, List.nil_suffix, by omega, by rw [htop, htail, Nat.zero_mod]⟩
  exact ⟨⟨hk, by simp⟩, ⟨by rw [hdrawn]; exact List.nil_infix, hk.queued⟩⟩

/-- The log window of one line at the start. -/
def oneLine : LogWindow ℕ where
  cursesLogQ := (queueCreate 2048).get rfl
  scrolledBack := false
  logTop := 0
  lines := 1
  drawn := []
  logged := []

/-- Four messages, a page up, and a window that gets three lines. -/
def tallRun : List (CursesItem ℕ) :=
  [.logMessage 1, .logMessage 2, .logMessage 3, .logMessage 4, .keyPPage, .reloadScreen 3]

end Beirdobot.Curses
