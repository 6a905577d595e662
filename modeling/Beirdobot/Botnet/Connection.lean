import Beirdobot.Botnet.Messages
import Beirdobot.Library.Framing
import Beirdobot.Library.System

/-!
# What a connection reads

A transcription of `BN_WaitForData` and of the loop around it: what is received is kept in a buffer,
and cut at the ends of its lines.  A turn of its loop receives something or takes a line from the
buffer.  The errors of the socket, and the times that are kept with the buffer, are left out.
-/

namespace Beirdobot.Botnet

open Library

/-- `BN_BUFFERSIZE` -/
def bnBufferSize : ℕ := 1024

/-- The end of a line, for `strstr` with either of its characters. -/
def isEnd (c : Char) : Bool := c = '\r' || c = '\n'

/-- `I->Buf` up to `I->BufPos`, and `ajout` of the current call; all that was received, and the
messages that were handled. -/
structure Connection where
  buf : CString
  ajout : ℕ
  received : CString
  handled : List Message

/-- Where `strstr` finds a character; it does not look beyond a NUL. -/
def strstrChar (c : Char) (s : CString) : Option ℕ := (s.takeWhile (· ≠ '\x00')).idxOf? c

/-- Where the first line ends, and how much of the buffer is dropped after it. -/
def lineEnd (s : Connection) : Option (ℕ × ℕ) :=
  match strstrChar '\r' s.buf, strstrChar '\n' s.buf with
  | none, none => none
  | some cr, some lf =>
      let ajout := if cr + 1 = lf ∨ lf + 1 = cr then s.ajout else 1
      some (if cr < lf then cr else lf, ajout)
  | some cr, none => some (cr, 1)
  | none, some lf => some (lf, 1)

inductive Event
  | recv (chunk : CString)
  | line

/-- A turn of the loop; with a message the call ends, and the next one begins. -/
def step (s : Connection) : Event → Option Connection
  | .recv chunk =>
      if lineEnd s = none ∧ chunk ≠ [] ∧ s.buf.length + chunk.length ≤ bnBufferSize - 1 then
        some { s with buf := s.buf ++ chunk, received := s.received ++ chunk }
      else none
  | .line =>
      match lineEnd s with
      | none => none
      | some (len, ajout) =>
          let buf := s.buf.drop (len + ajout)
          if len = 0 then some { s with buf, ajout }
          else
            match bnParseMessage (s.buf.take len) with
            | none => none
            | some none => some { s with buf, ajout }
            | some (some message) => some { s with
                buf
                ajout := 2
                handled := s.handled ++ [message] }

/-- Nothing is received yet. -/
structure Init (s : Connection) : Prop where
  buf : s.buf = []
  ajout : s.ajout = 2
  received : s.received = []
  handled : s.handled = []

def system : System Connection Event := ⟨Init, step⟩

/-- What is received has no NUL. -/
def Clean (_ : Connection) : Event → Prop
  | .recv chunk => '\x00' ∉ chunk
  | .line => True

/-! ## The lines -/

/-- The messages of some lines; the others are malformed. -/
def messages (lines : List CString) : List Message :=
  lines.filterMap fun line ↦ (bnParseMessage line).join

/-- What holds in a run: whatever comes, the lines are those of the stream. -/
structure Framed (s : Connection) : Prop where
  lines : ∃ taken, (∀ t, frames isEnd [] (s.received ++ t) = taken ++ frames isEnd [] (s.buf ++ t)) ∧
    s.handled = messages taken
  clean : '\x00' ∉ s.buf
  length : s.buf.length ≤ bnBufferSize - 1
  ajout : s.ajout = 1 ∨ s.ajout = 2

section Lines

variable {s s' : Connection} {c d : Char}

theorem takeWhile_clean {text : CString} (hclean : '\x00' ∉ text) :
    text.takeWhile (· ≠ '\x00') = text := by
  induction text with
  | nil => rfl
  | cons c text ih =>
      rw [List.mem_cons, not_or] at hclean
      have hc : c ≠ '\x00' := Ne.symm hclean.1
      rw [List.takeWhile_cons_of_pos (by simpa using hc), ih hclean.2]

theorem strstrChar_eq_some {text : CString} {n : ℕ} (h : strstrChar c text = some n)
    (hclean : '\x00' ∉ text) : ∃ l rest, text = l ++ c :: rest ∧ c ∉ l ∧ l.length = n := by
  rw [strstrChar, takeWhile_clean hclean] at h
  obtain ⟨hlt, hget, hbefore⟩ := List.findIdx?_eq_some_iff_getElem.mp h
  refine ⟨text.take n, text.drop (n + 1), ?_, fun hmem ↦ ?_, ?_⟩
  · rw [← eq_of_beq hget, List.getElem_cons_drop, List.take_append_drop]
  · obtain ⟨k, hk, hkc⟩ := List.mem_iff_getElem.mp hmem
    rw [List.length_take] at hk
    have hkn : k < n := by omega
    apply hbefore k hkn
    rw [List.getElem_take] at hkc
    rw [hkc, beq_self_eq_true]
  · rw [List.length_take]
    omega

theorem strstrChar_eq_none {text : CString} (h : strstrChar c text = none)
    (hclean : '\x00' ∉ text) : c ∉ text := by
  rw [strstrChar, takeWhile_clean hclean] at h
  intro hmem
  have hne := List.findIdx?_eq_none_iff.mp h c hmem
  rw [beq_self_eq_true] at hne
  cases hne

/-- Of two characters the first one has the other one after it, maybe at once. -/
theorem first_of_two {l₁ l₂ r₁ r₂ : CString} (h : l₁ ++ c :: r₁ = l₂ ++ d :: r₂) (hd : d ∉ l₂)
    (hlt : l₁.length < l₂.length) :
    d ∉ l₁ ∧ (l₁.length + 1 = l₂.length → ∃ rest, r₁ = d :: rest) := by
  rcases List.append_eq_append_iff.mp h with ⟨a, rfl, hrest⟩ | ⟨a, rfl, -⟩
  · refine ⟨fun hmem ↦ hd (List.mem_append_left _ hmem), fun hnext ↦ ?_⟩
    rw [List.length_append] at hnext
    obtain ⟨b, rfl⟩ := List.length_eq_one_iff.mp (show a.length = 1 by omega)
    exact ⟨r₂, (List.cons.inj hrest).2⟩
  · rw [List.length_append] at hlt
    omega

theorem isEnd_eq_false {text : CString} (hcr : '\r' ∉ text) (hlf : '\n' ∉ text) :
    ∀ a ∈ text, isEnd a = false := by
  intro a ha
  rw [isEnd, decide_eq_false (ne_of_mem_of_not_mem ha hcr),
    decide_eq_false (ne_of_mem_of_not_mem ha hlf)]
  rfl

/-- What is dropped after a line: its end, and maybe a second character of it. -/
theorem lineEnd_eq_some {len ajout : ℕ} (hclean : '\x00' ∉ s.buf)
    (hajout : s.ajout = 1 ∨ s.ajout = 2) (h : lineEnd s = some (len, ajout)) :
    ∃ l e rest, s.buf = l ++ e :: rest ∧ (∀ a ∈ l, isEnd a = false) ∧ isEnd e = true ∧
      l.length = len ∧
      (ajout = 1 ∨ ajout = 2 ∧ ∃ e' rest', rest = e' :: rest' ∧ isEnd e' = true) := by
  rw [lineEnd] at h
  cases hcr : strstrChar '\r' s.buf with
  | none =>
      have hcrNone := strstrChar_eq_none hcr hclean
      cases hlf : strstrChar '\n' s.buf with
      | none =>
          rw [hcr, hlf] at h
          cases h
      | some lf =>
          rw [hcr, hlf] at h
          cases h
          obtain ⟨l, rest, hbuf, hl, hlength⟩ := strstrChar_eq_some hlf hclean
          refine ⟨l, '\n', rest, hbuf, isEnd_eq_false (fun hmem ↦ ?_) hl, rfl, hlength, .inl rfl⟩
          exact hcrNone (hbuf ▸ List.mem_append_left _ hmem)
  | some cr =>
      obtain ⟨l₁, r₁, hbuf₁, hl₁, hlength₁⟩ := strstrChar_eq_some hcr hclean
      cases hlf : strstrChar '\n' s.buf with
      | none =>
          have hlfNone := strstrChar_eq_none hlf hclean
          rw [hcr, hlf] at h
          cases h
          refine ⟨l₁, '\r', r₁, hbuf₁, isEnd_eq_false hl₁ (fun hmem ↦ ?_), rfl, hlength₁, .inl rfl⟩
          exact hlfNone (hbuf₁ ▸ List.mem_append_left _ hmem)
      | some lf =>
          obtain ⟨l₂, r₂, hbuf₂, hl₂, hlength₂⟩ := strstrChar_eq_some hlf hclean
          have hboth := hbuf₁.symm.trans hbuf₂
          rw [hcr, hlf] at h
          obtain ⟨rfl, rfl⟩ := Prod.mk.inj (Option.some.inj h)
          rcases Nat.lt_trichotomy cr lf with hlt | heq | hlt
          · obtain ⟨hd, hnext⟩ := first_of_two hboth hl₂ (by omega)
            rw [if_pos hlt]
            refine ⟨l₁, '\r', r₁, hbuf₁, isEnd_eq_false hl₁ hd, rfl, hlength₁, ?_⟩
            by_cases hadjacent : cr + 1 = lf ∨ lf + 1 = cr
            · rw [if_pos hadjacent]
              obtain ⟨rest, hrest⟩ := hnext (by omega)
              exact hajout.imp_right fun h ↦ ⟨h, '\n', rest, hrest, rfl⟩
            · rw [if_neg hadjacent]
              exact .inl rfl
          · have hlengths : l₁.length = l₂.length := by omega
            have hchars := (List.append_inj hboth hlengths).2
            cases (List.cons.inj hchars).1
          · obtain ⟨hd, hnext⟩ := first_of_two hboth.symm hl₁ (by omega)
            rw [if_neg (by omega)]
            refine ⟨l₂, '\n', r₂, hbuf₂, isEnd_eq_false hd hl₂, rfl, hlength₂, ?_⟩
            by_cases hadjacent : cr + 1 = lf ∨ lf + 1 = cr
            · rw [if_pos hadjacent]
              obtain ⟨rest, hrest⟩ := hnext (by omega)
              exact hajout.imp_right fun h ↦ ⟨h, '\r', rest, hrest, rfl⟩
            · rw [if_neg hadjacent]
              exact .inl rfl

/-- Without an end there is no line. -/
theorem lineEnd_eq_none (hclean : '\x00' ∉ s.buf) (h : lineEnd s = none) :
    ∀ a ∈ s.buf, isEnd a = false := by
  rw [lineEnd] at h
  cases hcr : strstrChar '\r' s.buf with
  | none =>
      cases hlf : strstrChar '\n' s.buf with
      | none => exact isEnd_eq_false (strstrChar_eq_none hcr hclean) (strstrChar_eq_none hlf hclean)
      | some lf =>
          rw [hcr, hlf] at h
          cases h
  | some cr =>
      cases hlf : strstrChar '\n' s.buf with
      | none | some lf =>
          rw [hcr, hlf] at h
          cases h

end Lines

/-! ## Runs -/

section Runs

variable {s s' : Connection}

theorem messages_append (lines lines' : List CString) :
    messages (lines ++ lines') = messages lines ++ messages lines' := List.filterMap_append

theorem Init.framed (h : Init s) : Framed s where
  lines := ⟨[], fun t ↦ by rw [h.received, h.buf]; rfl, by rw [h.handled]; rfl⟩
  clean := by
    rw [h.buf]
    exact List.not_mem_nil
  length := by
    rw [h.buf]
    exact Nat.zero_le _
  ajout := .inr h.ajout

theorem Framed.recv (h : Framed s) {chunk : CString} (hclean : '\x00' ∉ chunk)
    (hroom : s.buf.length + chunk.length ≤ bnBufferSize - 1) :
    Framed { s with buf := s.buf ++ chunk, received := s.received ++ chunk } := by
  obtain ⟨taken, hlines, hhandled⟩ := h.lines
  refine ⟨⟨taken, fun t ↦ ?_, hhandled⟩, ?_, ?_, h.ajout⟩
  · rw [List.append_assoc, List.append_assoc]
    exact hlines (chunk ++ t)
  · rw [List.mem_append, not_or]
    exact ⟨h.clean, hclean⟩
  · rw [List.length_append]
    exact hroom

/-- What is left after a line, with the frames that are left. -/
theorem frames_drop {l rest : CString} {e : Char} {ajout : ℕ} (hl : ∀ a ∈ l, isEnd a = false)
    (he : isEnd e = true)
    (hajout : ajout = 1 ∨ ajout = 2 ∧ ∃ e' rest', rest = e' :: rest' ∧ isEnd e' = true)
    (t : CString) :
    frames isEnd [] (l ++ e :: rest ++ t) = (if l = [] then [] else [l]) ++
      frames isEnd [] ((l ++ e :: rest).drop (l.length + ajout) ++ t) := by
  have hdrop : frames isEnd [] ((l ++ e :: rest).drop (l.length + ajout) ++ t) =
      frames isEnd [] (rest ++ t) := by
    rcases hajout with rfl | ⟨rfl, e', rest', rfl, he'⟩
    · rw [List.drop_append, List.drop_of_length_le (by omega), Nat.add_sub_cancel_left]
      rfl
    · rw [List.drop_append, List.drop_of_length_le (by omega), Nat.add_sub_cancel_left,
        List.cons_append, frames_skip he']
      rfl
  rw [hdrop, List.append_assoc, List.cons_append]
  by_cases hnil : l = []
  · rw [if_pos hnil, hnil, List.nil_append, List.nil_append, frames_skip he]
  · rw [if_neg hnil, frames_cons hl hnil he, List.singleton_append]

/-- The next line is taken from the stream. -/
theorem Framed.line (h : Framed s) (he : step s .line = some s') : Framed s' := by
  rw [step] at he
  cases hend : lineEnd s with
  | none =>
      rw [hend] at he
      cases he
  | some p =>
      obtain ⟨len, ajout⟩ := p
      obtain ⟨l, e, rest, hbuf, hl, hisEnd, rfl, hajout⟩ := lineEnd_eq_some h.clean h.ajout hend
      obtain ⟨taken, hlines, hhandled⟩ := h.lines
      -- the rest of the buffer
      have hclean : '\x00' ∉ s.buf.drop (l.length + ajout) :=
        fun hmem ↦ h.clean (List.mem_of_mem_drop hmem)
      have hlength : (s.buf.drop (l.length + ajout)).length ≤ bnBufferSize - 1 := by
        rw [List.length_drop]
        exact Nat.le_trans (Nat.sub_le _ _) h.length
      have hajout' : ajout = 1 ∨ ajout = 2 := hajout.imp_right fun h ↦ h.1
      have hstream : ∀ t, frames isEnd [] (s.received ++ t) =
          (taken ++ if l = [] then [] else [l]) ++
            frames isEnd [] (s.buf.drop (l.length + ajout) ++ t) := by
        intro t
        rw [hlines, hbuf, frames_drop hl hisEnd hajout, List.append_assoc]
      rw [hend] at he
      by_cases hnil : l = []
      · simp only [hnil, List.length_nil, if_true] at he
        cases he
        refine ⟨⟨taken, fun t ↦ ?_, hhandled⟩, ?_, ?_, hajout'⟩
        · rw [hstream, if_pos hnil, List.append_nil, hnil, List.length_nil]
        · rwa [hnil] at hclean
        · rwa [hnil] at hlength
      · have hne : l.length ≠ 0 := fun hzero ↦ hnil (List.length_eq_zero_iff.mp hzero)
        have htake : s.buf.take l.length = l := by
          rw [hbuf, List.take_left]
        simp only [if_neg hne, htake] at he
        have hmessages : messages (taken ++ [l]) =
            s.handled ++ messages [l] := by rw [messages_append, hhandled]
        cases hparse : bnParseMessage l with
        | none =>
            rw [hparse] at he
            cases he
        | some parsed =>
            rw [hparse] at he
            cases parsed with
            | none =>
                cases he
                refine ⟨⟨taken ++ [l], fun t ↦ ?_, ?_⟩, hclean, hlength, hajout'⟩
                · rw [hstream, if_neg hnil]
                · rw [hmessages]
                  simp [messages, hparse]
            | some message =>
                cases he
                refine ⟨⟨taken ++ [l], fun t ↦ ?_, ?_⟩, hclean, hlength, .inr rfl⟩
                · rw [hstream, if_neg hnil]
                · rw [hmessages]
                  simp [messages, hparse]

theorem step_framed {e : Event} (h : Framed s) (hc : Clean s e) (he : step s e = some s') :
    Framed s' := by
  cases e with
  | recv chunk =>
      rw [step] at he
      split at he
      · rename_i hguard
        cases he
        exact h.recv hc hguard.2.2
      · cases he
  | line => exact h.line he

theorem framed (h : system.ReachableVia Clean s) : Framed s :=
  h.invariant (fun _ ↦ Init.framed) fun _ _ _ hframed hc he ↦ step_framed hframed hc he

/-- A message that is a line, and fits in the buffer. -/
structure Plain (o : Outgoing) : Prop where
  noEnd : ∀ a ∈ o.body, isEnd a = false
  length : o.text.length ≤ bnBufferSize - 1

theorem body_ne_nil (o : Outgoing) : o.body ≠ [] := by
  intro hnil
  rw [Outgoing.body, List.append_eq_nil_iff] at hnil
  cases hnil.2

/-- The lines of a stream of messages. -/
theorem frames_text {os : List Outgoing} (h : ∀ o ∈ os, Plain o) :
    frames isEnd [] (os.flatMap Outgoing.text) = os.map Outgoing.body := by
  induction os with
  | nil => rfl
  | cons o os ih =>
      have hcons : o.text ++ os.flatMap Outgoing.text =
          o.body ++ '\r' :: '\n' :: os.flatMap Outgoing.text := by
        rw [o.text_eq, List.append_assoc]
        rfl
      rw [List.flatMap_cons, hcons, frames_cons (h o List.mem_cons_self).noEnd (body_ne_nil o) rfl,
        frames_skip rfl, List.map_cons, ih fun o ho ↦ h o (List.mem_cons_of_mem _ ho)]

theorem messages_body (os : List Outgoing) :
    messages (os.map Outgoing.body) = os.map Outgoing.message := by
  rw [messages, List.filterMap_map, ← List.filterMap_eq_map]
  congr 1
  funext o
  rw [Function.comp_apply, Function.comp_apply, o.bnParseMessage_body]
  rfl

/-- Where a stream of messages ends, a line ends. -/
theorem getLast?_text {os : List Outgoing} (h : os ≠ []) :
    (os.flatMap Outgoing.text).getLast? = some '\n' := by
  obtain ⟨os, o, rfl⟩ := (List.eq_nil_or_concat os).resolve_left h
  have hlast : (os.concat o).flatMap Outgoing.text =
      (os.flatMap Outgoing.text ++ o.body ++ ['\r']) ++ ['\n'] := by
    rw [List.concat_eq_append, List.flatMap_append, List.flatMap_singleton, o.text_eq,
      List.append_assoc, List.append_assoc]
    rfl
  rw [hlast, List.getLast?_concat]

variable {os : List Outgoing} (hos : ∀ o ∈ os, Plain o)
include hos

/-- The lines that are to come, while a stream of messages is received. -/
theorem Framed.coming (h : Framed s) (hreceived : s.received <+: os.flatMap Outgoing.text) :
    ∃ taken t, s.received ++ t = os.flatMap Outgoing.text ∧ s.handled = messages taken ∧
      os.map Outgoing.body = taken ++ frames isEnd [] (s.buf ++ t) := by
  obtain ⟨t, ht⟩ := hreceived
  obtain ⟨taken, hlines, hhandled⟩ := h.lines
  refine ⟨taken, t, ht, hhandled, ?_⟩
  rw [← hlines, ht, frames_text hos]

/-- A line of the stream can be read. -/
theorem Framed.exists_step (h : Framed s) (hreceived : s.received <+: os.flatMap Outgoing.text)
    (hend : lineEnd s ≠ none) : ∃ s', step s .line = some s' := by
  obtain ⟨taken, t, -, -, hlines⟩ := h.coming hos hreceived
  cases hp : lineEnd s with
  | none => exact absurd hp hend
  | some p =>
      obtain ⟨len, ajout⟩ := p
      obtain ⟨l, e, rest, hbuf, hl, he, rfl, -⟩ := lineEnd_eq_some h.clean h.ajout hp
      rw [step, hp]
      by_cases hnil : l = []
      · refine ⟨_, if_pos ?_⟩
        rw [hnil, List.length_nil]
      · have hmem : l ∈ os.map Outgoing.body := by
          rw [hlines, hbuf, List.append_assoc, List.cons_append, frames_cons hl hnil he]
          exact List.mem_append_right _ List.mem_cons_self
        obtain ⟨o, -, rfl⟩ := List.mem_map.mp hmem
        have hne : o.body.length ≠ 0 := fun hzero ↦ hnil (List.length_eq_zero_iff.mp hzero)
        have htake : s.buf.take o.body.length = o.body := by
          rw [hbuf, List.take_left]
        simp only [if_neg hne, htake, o.bnParseMessage_body]
        exact ⟨_, rfl⟩

/-- The buffer has room for the line that has begun. -/
theorem Framed.room (h : Framed s) (hreceived : s.received <+: os.flatMap Outgoing.text)
    (hend : lineEnd s = none) (hmore : s.received ≠ os.flatMap Outgoing.text) :
    s.buf.length < bnBufferSize - 1 := by
  obtain ⟨taken, t, ht, -, hlines⟩ := h.coming hos hreceived
  have hnone := lineEnd_eq_none h.clean hend
  have htne : t ≠ [] := by
    rintro rfl
    rw [List.append_nil] at ht
    exact hmore ht
  have hosne : os ≠ [] := by
    rintro rfl
    exact htne (List.append_eq_nil_iff.mp ht).2
  -- the rest of the stream ends with the end of a line
  have hlast : t.getLast? = some '\n' := by
    rw [← getLast?_text hosne, ← ht, List.getLast?_append_of_ne_nil _ htne]
  obtain ⟨l, e, rest, hsplit, hl, he⟩ :=
    exists_terminator (List.mem_of_getLast? hlast) (show isEnd '\n' = true from rfl)
  by_cases hnil : s.buf ++ l = []
  · rw [(List.append_eq_nil_iff.mp hnil).1]
    decide
  · have hmem : s.buf ++ l ∈ os.map Outgoing.body := by
      rw [hlines, hsplit, ← List.append_assoc, frames_cons _ hnil he]
      · exact List.mem_append_right _ List.mem_cons_self
      · intro a ha
        exact (List.mem_append.mp ha).elim (hnone a) (hl a)
    obtain ⟨o, ho, hbody⟩ := List.mem_map.mp hmem
    have hlength := (hos o ho).length
    rw [o.text_eq, List.length_append, hbody, List.length_append] at hlength
    exact Nat.lt_of_lt_of_le (by simp; omega) hlength

end Runs

def start : Connection := ⟨[], 2, [], []⟩

theorem init_start : Init start := ⟨rfl, rfl, rfl, rfl⟩

theorem clean_recv {chunk : CString} (h : '\x00' ∉ chunk) (s : Connection) :
    Clean s (.recv chunk) := h

/-- A message to a channel. -/
def hello : Outgoing :=
  toTarget "#c".toList ⟨by decide, by decide, by decide⟩ "hello you".toList

end Beirdobot.Botnet
