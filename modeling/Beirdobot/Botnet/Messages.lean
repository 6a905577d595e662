import Beirdobot.Libc

/-!
# IRC messages

Transcriptions of `BN_MakeMessage` and `BN_ParseMessage`, and of the texts that the functions of
`output.c` send, of the library `botnet`.  A `none` stands for a use of a null pointer.
-/

namespace Beirdobot.Botnet

/-- `MAX_PARAMS` -/
def maxParams : ℕ := 30

/-- `BN_PMessage` -/
structure Message where
  prefixe : Option CString
  command : CString
  params : List CString
deriving DecidableEq

/-- `TrimLeft` -/
def trimLeft (s : CString) : CString := s.dropWhile (· = ' ')

/-- The loop of `BN_ParseMessage` over the parameters, of which some are left. -/
def parseParams : ℕ → CString → List CString
  | 0, _ => []
  | _ + 1, [] => []
  | _ + 1, ':' :: message => [message]
  | left + 1, message =>
      match message.dropWhile (· ≠ ' ') with
      | [] => [message]
      | _ :: rest => message.takeWhile (· ≠ ' ') :: parseParams left (trimLeft rest)

/-- `BN_ParseMessage`, after the prefix. -/
def parseCommand (prefixe : Option CString) (message : CString) : Option Message :=
  let message := trimLeft message
  match message.dropWhile (· ≠ ' ') with
  | [] => if message = [] then none else some ⟨prefixe, message, []⟩
  | _ :: rest => some ⟨prefixe, message.takeWhile (· ≠ ' '), parseParams maxParams rest⟩

/-- `BN_ParseMessage`; a prefix without a blank after it has no end. -/
def bnParseMessage (message : CString) : Option (Option Message) :=
  match message with
  | ':' :: rest =>
      match rest.dropWhile (· ≠ ' ') with
      | [] => none
      | rest' => some (parseCommand (some (rest.takeWhile (· ≠ ' '))) rest')
  | _ => some (parseCommand none message)

/-- `BN_MakeMessage` -/
def bnMakeMessage (prefixe : Option CString) (commande params : CString) : CString :=
  (match prefixe with
    | some prefixe => ':' :: prefixe ++ [' ']
    | none => []) ++ commande ++ ' ' :: params ++ ['\r', '\n']

/-- What `snprintf( buf, sizeof(buf), "%s :%s", … )` leaves in a buffer of 1024 characters. -/
def targetAndText (target text : CString) : CString := (target ++ " :".toList ++ text).take 1023

/-- `BN_SendPrivateMessage` and `BN_SendChannelMessage` -/
def bnSendPrivateMessage (nick message : CString) : CString :=
  bnMakeMessage none "PRIVMSG".toList (targetAndText nick message)

/-- `BN_SendActionMessage` -/
def bnSendActionMessage (channel message : CString) : CString :=
  bnMakeMessage none "PRIVMSG".toList
    (targetAndText channel ('\x01' :: "ACTION ".toList ++ message ++ ['\x01']))

/-! ## Words -/

/-- A text without blanks, up to the next blank. -/
theorem takeWhile_word {w : CString} (hw : ' ' ∉ w) (rest : CString) :
    (w ++ ' ' :: rest).takeWhile (· ≠ ' ') = w := by
  rw [List.takeWhile_append_of_pos]
  · rw [List.takeWhile_cons_of_neg (by simp), List.append_nil]
  · intro c hc
    exact decide_eq_true (ne_of_mem_of_not_mem hc hw)

theorem dropWhile_word {w : CString} (hw : ' ' ∉ w) (rest : CString) :
    (w ++ ' ' :: rest).dropWhile (· ≠ ' ') = ' ' :: rest := by
  rw [List.dropWhile_append_of_pos]
  · rw [List.dropWhile_cons_of_neg (by simp)]
  · intro c hc
    exact decide_eq_true (ne_of_mem_of_not_mem hc hw)

theorem trimLeft_eq {s : CString} (hs : s.head? ≠ some ' ') : trimLeft s = s := by
  cases s with
  | nil => rfl
  | cons c s =>
      rw [trimLeft, List.dropWhile_cons_of_neg]
      simpa using hs

/-- A parameter that is not the last one: a word that does not begin with a colon. -/
structure Word (s : CString) : Prop where
  ne_nil : s ≠ []
  noBlank : ' ' ∉ s
  noColon : s.head? ≠ some ':'

theorem Word.head?_append {s : CString} (h : Word s) (rest : CString) :
    (s ++ rest).head? = s.head? := List.head?_append_of_ne_nil _ h.ne_nil

theorem Word.head?_ne {s : CString} (h : Word s) : s.head? ≠ some ' ' := by
  intro hhead
  exact h.noBlank (List.mem_of_mem_head? hhead)

/-- The parameters of a message, the last one after a colon. -/
def paramsText (middle : List CString) (trailing : CString) : CString :=
  match middle with
  | [] => ':' :: trailing
  | s :: middle => s ++ ' ' :: paramsText middle trailing

theorem head?_paramsText {middle : List CString} (h : ∀ s ∈ middle, Word s) (trailing : CString) :
    (paramsText middle trailing).head? ≠ some ' ' := by
  cases middle with
  | nil => simp [paramsText]
  | cons s middle =>
      have hs := h s List.mem_cons_self
      rw [paramsText, hs.head?_append]
      exact hs.head?_ne

/-- The loop reads the parameters back. -/
theorem parseParams_paramsText {middle : List CString} (h : ∀ s ∈ middle, Word s)
    (trailing : CString) {left : ℕ} (hleft : middle.length < left) :
    parseParams left (paramsText middle trailing) = middle ++ [trailing] := by
  induction middle generalizing left with
  | nil =>
      cases left with
      | zero => cases hleft
      | succ left => rfl
  | cons s middle ih =>
      have hs := h s List.mem_cons_self
      have hmiddle : ∀ s ∈ middle, Word s := fun s hmem ↦ h s (List.mem_cons_of_mem _ hmem)
      cases left with
      | zero => cases hleft
      | succ left =>
          have hrest := ih hmiddle (Nat.lt_of_succ_lt_succ hleft)
          obtain ⟨c, s', rfl⟩ := List.exists_cons_of_ne_nil hs.ne_nil
          have hc : c ≠ ':' := by
            rintro rfl
            exact hs.noColon rfl
          rw [paramsText, List.cons_append, parseParams.eq_4]
          · rw [← List.cons_append, dropWhile_word hs.noBlank, takeWhile_word hs.noBlank]
            change (c :: s') :: parseParams left (trimLeft (paramsText middle trailing)) = _
            rw [trimLeft_eq (head?_paramsText hmiddle trailing), hrest, List.cons_append]
          · intro hnil
            cases hnil
          · intro message hcolon
            exact hc (List.cons.inj hcolon).1

/-- A message as `BN_MakeMessage` is to be called. -/
structure Outgoing where
  prefixe : Option CString
  command : CString
  middle : List CString
  trailing : CString
  prefixe_noBlank : ∀ p ∈ prefixe, ' ' ∉ p
  command_word : Word command
  middle_word : ∀ s ∈ middle, Word s
  length_lt : middle.length < maxParams

namespace Outgoing

def message (o : Outgoing) : Message := ⟨o.prefixe, o.command, o.middle ++ [o.trailing]⟩

/-- What is sent. -/
def text (o : Outgoing) : CString :=
  bnMakeMessage o.prefixe o.command (paramsText o.middle o.trailing)

/-- What is sent, without the end of the line. -/
def body (o : Outgoing) : CString :=
  (match o.prefixe with
    | some prefixe => ':' :: prefixe ++ [' ']
    | none => []) ++ o.command ++ ' ' :: paramsText o.middle o.trailing

theorem text_eq (o : Outgoing) : o.text = o.body ++ ['\r', '\n'] := rfl

theorem parseCommand_eq (o : Outgoing) (prefixe : Option CString) :
    parseCommand prefixe (o.command ++ ' ' :: paramsText o.middle o.trailing) =
      some ⟨prefixe, o.command, o.middle ++ [o.trailing]⟩ := by
  have hword := o.command_word
  have htrim : trimLeft (o.command ++ ' ' :: paramsText o.middle o.trailing) =
      o.command ++ ' ' :: paramsText o.middle o.trailing := by
    apply trimLeft_eq
    rw [hword.head?_append]
    exact hword.head?_ne
  rw [parseCommand, htrim]
  simp only [dropWhile_word hword.noBlank, takeWhile_word hword.noBlank,
    parseParams_paramsText o.middle_word o.trailing o.length_lt]

/-- What is sent is read back. -/
theorem bnParseMessage_body (o : Outgoing) : bnParseMessage o.body = some (some o.message) := by
  rw [body, message]
  cases hprefixe : o.prefixe with
  | none =>
      have hword := o.command_word
      have hcommand := o.parseCommand_eq none
      obtain ⟨c, s, hcons⟩ := List.exists_cons_of_ne_nil hword.ne_nil
      rw [List.nil_append]
      rw [bnParseMessage.eq_def]
      split
      · rename_i rest heq
        rw [hcons, List.cons_append] at heq
        have hc := hword.noColon
        rw [hcons, (List.cons.inj heq).1] at hc
        exact absurd rfl hc
      · rw [hcommand]
  | some p =>
      have hp : ' ' ∉ p := o.prefixe_noBlank p hprefixe
      have hcommand := o.parseCommand_eq (some p)
      have htrim : parseCommand (some p)
          (' ' :: (o.command ++ ' ' :: paramsText o.middle o.trailing)) =
          parseCommand (some p) (o.command ++ ' ' :: paramsText o.middle o.trailing) := by
        rw [parseCommand, parseCommand, trimLeft, trimLeft, List.dropWhile_cons_of_pos (by simp)]
      rw [List.append_assoc, List.append_assoc, List.cons_append, List.singleton_append,
        bnParseMessage]
      simp only [dropWhile_word hp, takeWhile_word hp]
      rw [htrim, hcommand]

end Outgoing

/-- The text after the target is cut where the buffer ends. -/
theorem targetAndText_eq {target : CString} (h : target.length ≤ 1021) (text : CString) :
    targetAndText target text = paramsText [target] (text.take (1021 - target.length)) := by
  have hsplit : target ++ " :".toList ++ text = target ++ ' ' :: ':' :: text := by
    rw [List.append_assoc]
    rfl
  have hrest : 1023 - target.length = (1021 - target.length) + 2 := by omega
  rw [targetAndText, hsplit, List.take_append, List.take_of_length_le (by omega), hrest]
  rfl

/-- A message to a nick or a channel, or a description of an action. -/
def toTarget (target : CString) (htarget : Word target) (text : CString) : Outgoing where
  prefixe := none
  command := "PRIVMSG".toList
  middle := [target]
  trailing := text.take (1021 - target.length)
  prefixe_noBlank := by
    intro p hp
    cases hp
  command_word := ⟨by decide, by decide, by decide⟩
  middle_word := by
    intro s hs
    rwa [List.mem_singleton.mp hs]
  length_lt := by
    rw [List.length_singleton]
    decide

theorem text_toTarget {target : CString} (htarget : Word target) (hlength : target.length ≤ 1021)
    (text : CString) : (toTarget target htarget text).text = bnSendPrivateMessage target text := by
  rw [bnSendPrivateMessage, targetAndText_eq hlength]
  rfl

theorem text_toTarget_action {target : CString} (htarget : Word target)
    (hlength : target.length ≤ 1021) (text : CString) :
    (toTarget target htarget ('\x01' :: "ACTION ".toList ++ text ++ ['\x01'])).text =
      bnSendActionMessage target text :=
  text_toTarget htarget hlength _

end Beirdobot.Botnet
