import Beirdobot.Libc
import Beirdobot.Library.System
import Mathlib.Data.Int.Init
import Mathlib.Data.List.TakeWhile

/-!
# The text of a report

A transcription of `mailboxReportExpand` of `mailbox.c`.
-/

namespace Beirdobot.Mailbox.Report

open Library

/-- An `ADDRESS` of c-client; each pointer can be null. -/
structure Address where
  mailbox : Option CString
  host : Option CString
  deriving DecidableEq

/-- An `ENVELOPE`, with the first address of each list. -/
structure Envelope where
  fromAddress : Option Address
  toAddress : Option Address
  subject : Option CString
  date : Option CString
  messageId : Option CString
  deriving DecidableEq

/-- The variables of the loop: what has been written, what is left of the format, the
allocated length, and the body, which is edited in place. -/
structure Expansion where
  message : CString
  format : CString
  len : ℤ
  body : CString
  bodyLen : ℕ
  bodyProcessed : Bool
  deriving DecidableEq

/-- What comes of a turn: the loop ends, a null pointer is followed or something is written
behind the message, or it goes on. -/
inductive Turn
  | ends (message : CString)
  | fault
  | goes (e : Expansion)
  deriving DecidableEq

/-- CR and LF become blanks. -/
def blank (c : Char) : Char := if c = '\n' ∨ c = '\r' then ' ' else c

/-- `while( *body )` -/
def blankOut : CString → CString
  | [] => []
  | c :: body => if c = '\x00' then c :: body else blank c :: blankOut body

namespace Expansion

/-- `*(message++) = c` -/
def put (e : Expansion) (c : Char) (format : CString) : Turn :=
  if e.message.length + 1 ≤ e.len then .goes { e with message := e.message ++ [c], format }
  else .fault

/-- The message is allocated anew, and a text with its NUL is written to its end. -/
def append (e : Expansion) (text format : CString) (len : ℤ) : Turn :=
  if e.message.length + text.length + 1 ≤ len then
    .goes { e with message := e.message ++ text, format, len }
  else .fault

/-- The `from` and the `to` field; the last number is the length of `$from$` or `$to$`. -/
def addressField (e : Expansion) (address : Option Address) (format : CString) (token : ℤ) : Turn :=
  match address with
  | none => .fault
  | some address =>
      match address.mailbox, address.host with
      | some mailbox, some host =>
          e.append (mailbox ++ '@' :: host) format
            (e.len + (mailbox.length + 1 + host.length - token))
      | _, _ => .fault

/-- The `subject`, `date` and `messageid` fields. -/
def textField (e : Expansion) (text : Option CString) (format : CString) (token : ℤ) : Turn :=
  match text with
  | none => .fault
  | some text => e.append text format (e.len + (text.length - token))

/-- The `body` field. -/
def bodyField (e : Expansion) (format : CString) : Turn :=
  let e :=
    if e.bodyProcessed then e
    else
      { e with
        body := blankOut e.body
        bodyLen := if e.bodyLen > 200 then 200 else e.bodyLen
        bodyProcessed := true }
  -- `strncat( message, body, bodyLen )`
  e.append ((e.body.take e.bodyLen).takeWhile (· != '\x00')) format (e.len + (e.bodyLen - 6))

/-- A field whose name stands between two `$`. -/
def field (envelope : Envelope) (e : Expansion) (name format : CString) : Turn :=
  if sameIgnoringCase name "from".toList then e.addressField envelope.fromAddress format 6
  else if sameIgnoringCase name "subject".toList then e.textField envelope.subject format 9
  else if sameIgnoringCase name "to".toList then e.addressField envelope.toAddress format 4
  else if sameIgnoringCase name "date".toList then e.textField envelope.date format 6
  else if sameIgnoringCase name "messageid".toList then e.textField envelope.messageId format 11
  else if sameIgnoringCase name "body".toList then e.bodyField format
  else e.append ('$' :: (name ++ ['$'])) format e.len

/-- `for( ; *format; )`, and what follows it. -/
def turn (envelope : Envelope) (e : Expansion) : Turn :=
  match e.format with
  | [] => if e.message.length + 1 ≤ e.len then .ends e.message else .fault
  | c :: format =>
      if c ≠ '$' then e.put c format
      else
        -- `strchr( format, '$' )`
        match format.dropWhile (· != '$') with
        | [] => e.put '$' format
        | _ :: rest => e.field envelope (format.takeWhile (· != '$')) rest

end Expansion

/-- `mailboxReportExpand`, where `bodyLen` is the length that came with the body. -/
def mailboxReportExpand (format : CString) (envelope : Envelope) (body : CString) :
    System Expansion Unit where
  init e := e = ⟨[], format, format.length + 1, body, body.length, false⟩
  step e _ :=
    match e.turn envelope with
    | .goes e' => some e'
    | _ => none

/-! ## What a report is to say -/

section Text

variable (envelope : Envelope) (body : CString)

/-- What is absent counts as empty. -/
def addressText : Option Address → CString
  | none => []
  | some address => address.mailbox.getD [] ++ '@' :: address.host.getD []

def bodyText : CString := (body.take 200).map blank

/-- The text for a name between two `$`. -/
def fieldText (name : CString) : CString :=
  if sameIgnoringCase name "from".toList then addressText envelope.fromAddress
  else if sameIgnoringCase name "subject".toList then envelope.subject.getD []
  else if sameIgnoringCase name "to".toList then addressText envelope.toAddress
  else if sameIgnoringCase name "date".toList then envelope.date.getD []
  else if sameIgnoringCase name "messageid".toList then envelope.messageId.getD []
  else if sameIgnoringCase name "body".toList then bodyText body
  else '$' :: (name ++ ['$'])

/-- The pieces behind a `$`: names and texts, or a last piece for which there is no other
`$`. -/
def fill : List CString → CString
  | [] => []
  | [last] => '$' :: last
  | name :: text :: pieces => fieldText envelope body name ++ (text ++ fill pieces)

def expanded (format : CString) : CString :=
  match format.splitOn '$' with
  | [] => []
  | text :: pieces => text ++ fill envelope body pieces

/-- The names among the pieces. -/
def named : List CString → List CString
  | name :: _ :: pieces => name :: named pieces
  | _ => []

/-- The names in a format. -/
def fieldNames (format : CString) : List CString := named (format.splitOn '$').tail

/-- The report is expanded: the loop ends with the text, follows no null pointer and writes
nothing behind the message, whose length is always that of what is written and of what is
left of the format, and one. -/
structure Expands (format : CString) : Prop where
  terminates : ∀ e, (mailboxReportExpand format envelope body).init e →
    (mailboxReportExpand format envelope body).Terminates (fun _ _ ↦ True) e
  inside : ∀ e, (mailboxReportExpand format envelope body).Reachable e → e.turn envelope ≠ .fault
  allocated : ∀ e, (mailboxReportExpand format envelope body).Reachable e →
    e.len = e.message.length + e.format.length + 1
  returns : ∀ e message, (mailboxReportExpand format envelope body).Reachable e →
    e.turn envelope = .ends message → message = expanded envelope body format

def Complete (address : Option Address) : Prop :=
  ∃ mailbox host, address = some ⟨some mailbox, some host⟩

/-- What is named is there; a body is there as far as no NUL is in it. -/
def Present (name : CString) : Prop :=
  if sameIgnoringCase name "from".toList then Complete envelope.fromAddress
  else if sameIgnoringCase name "subject".toList then envelope.subject.isSome = true
  else if sameIgnoringCase name "to".toList then Complete envelope.toAddress
  else if sameIgnoringCase name "date".toList then envelope.date.isSome = true
  else if sameIgnoringCase name "messageid".toList then envelope.messageId.isSome = true
  else if sameIgnoringCase name "body".toList then '\x00' ∉ body.take 200
  else True

end Text

/-! ## The body -/

section Body

variable {body : CString}

theorem blank_ne_nul {c : Char} (hc : c ≠ '\x00') : blank c ≠ '\x00' := by
  rw [blank]
  split
  · decide
  · exact hc

theorem takeWhile_take_blankOut (body : CString) (n : ℕ) :
    ((blankOut body).take n).takeWhile (· != '\x00') =
      ((body.take n).takeWhile (· != '\x00')).map blank := by
  induction body generalizing n with
  | nil =>
      rw [blankOut, List.take_nil]
      rfl
  | cons c body ih =>
      cases n with
      | zero => rfl
      | succ n =>
          rw [blankOut]
          by_cases hc : c = '\x00'
          · subst hc
            rfl
          · have hblank : (blank c != '\x00') = true := bne_iff_ne.mpr (blank_ne_nul hc)
            have htake : ∀ rest : CString, (blank c :: rest).takeWhile (· != '\x00') =
                blank c :: rest.takeWhile (· != '\x00') :=
              fun rest ↦ List.takeWhile_cons_of_pos hblank
            have htake' : ∀ rest : CString, (c :: rest).takeWhile (· != '\x00') =
                c :: rest.takeWhile (· != '\x00') :=
              fun rest ↦ List.takeWhile_cons_of_pos (bne_iff_ne.mpr hc)
            rw [if_neg hc, List.take_succ_cons, List.take_succ_cons, htake, htake', List.map_cons, ih]

theorem length_takeWhile_iff {s : CString} :
    (s.takeWhile (· != '\x00')).length = s.length ↔ '\x00' ∉ s := by
  have hsub := List.takeWhile_sublist (l := s) (· != '\x00')
  constructor
  · intro hlength hmem
    rw [← hsub.eq_of_length hlength] at hmem
    exact absurd (List.mem_takeWhile_imp hmem) (by decide)
  · intro hmem
    rw [List.takeWhile_eq_self_iff.mpr]
    intro c hc
    rw [bne_iff_ne]
    rintro rfl
    exact hmem hc

end Body

/-! ## Formats -/

section Formats

variable {envelope : Envelope} {body format name rest : CString} {c : Char}

theorem format_cases (format : CString) : format = [] ∨
    (∃ c rest, c ≠ '$' ∧ format = c :: rest) ∨ (∃ rest, '$' ∉ rest ∧ format = '$' :: rest) ∨
    ∃ name rest, '$' ∉ name ∧ format = '$' :: (name ++ '$' :: rest) := by
  rcases format with _ | ⟨c, format⟩
  · exact .inl rfl
  · by_cases hc : c = '$'
    · subst hc
      by_cases hmem : '$' ∈ format
      · obtain ⟨name, rest, rfl, hname⟩ := List.eq_append_cons_of_mem hmem
        exact .inr (.inr (.inr ⟨name, rest, hname, rfl⟩))
      · exact .inr (.inr (.inl ⟨format, hmem, rfl⟩))
    · exact .inr (.inl ⟨c, format, hc, rfl⟩)

theorem exists_splitOn (format : CString) :
    ∃ text pieces, format.splitOn '$' = text :: pieces :=
  List.exists_cons_of_ne_nil (List.splitOn_ne_nil '$' format)

theorem splitOn_char (hc : c ≠ '$') {text : CString} {pieces : List CString}
    (h : rest.splitOn '$' = text :: pieces) : (c :: rest).splitOn '$' = (c :: text) :: pieces := by
  rw [List.splitOn_cons_eq_if_modifyHead, if_neg (by rwa [beq_iff_eq]), h]
  rfl

theorem splitOn_dollar (rest : CString) : ('$' :: rest).splitOn '$' = [] :: rest.splitOn '$' :=
  List.splitOn_append_cons_self [] rest

theorem expanded_char (hc : c ≠ '$') :
    expanded envelope body (c :: rest) = c :: expanded envelope body rest := by
  obtain ⟨text, pieces, h⟩ := exists_splitOn rest
  rw [expanded, expanded, splitOn_char hc h, h]
  rfl

theorem expanded_unpaired (hrest : '$' ∉ rest) :
    expanded envelope body ('$' :: rest) = '$' :: expanded envelope body rest := by
  rw [expanded, expanded, splitOn_dollar, List.splitOn_eq_singleton hrest]
  exact congrArg ('$' :: ·) (List.append_nil rest).symm

theorem expanded_field (hname : '$' ∉ name) :
    expanded envelope body ('$' :: (name ++ '$' :: rest)) =
      fieldText envelope body name ++ expanded envelope body rest := by
  obtain ⟨text, pieces, h⟩ := exists_splitOn rest
  rw [expanded, expanded, splitOn_dollar, List.splitOn_append_cons_self_of_not_mem hname, h]
  rfl

theorem fieldNames_char (hc : c ≠ '$') : fieldNames (c :: rest) = fieldNames rest := by
  obtain ⟨text, pieces, h⟩ := exists_splitOn rest
  rw [fieldNames, fieldNames, splitOn_char hc h, h]
  rfl

theorem fieldNames_unpaired (hrest : '$' ∉ rest) : fieldNames ('$' :: rest) = fieldNames rest := by
  rw [fieldNames, fieldNames, splitOn_dollar, List.splitOn_eq_singleton hrest]
  rfl

theorem fieldNames_field (hname : '$' ∉ name) :
    fieldNames ('$' :: (name ++ '$' :: rest)) = name :: fieldNames rest := by
  obtain ⟨text, pieces, h⟩ := exists_splitOn rest
  rw [fieldNames, fieldNames, splitOn_dollar, List.splitOn_append_cons_self_of_not_mem hname, h]
  rfl

theorem turn_char {e : Expansion} (hc : c ≠ '$') (h : e.format = c :: rest) :
    e.turn envelope = e.put c rest := by
  rw [Expansion.turn, h]
  exact if_pos hc

theorem turn_unpaired {e : Expansion} (hrest : '$' ∉ rest) (h : e.format = '$' :: rest) :
    e.turn envelope = e.put '$' rest := by
  have hnone : rest.dropWhile (· != '$') = [] := by
    rw [List.dropWhile_eq_nil_iff]
    intro c hc
    rw [bne_iff_ne]
    rintro rfl
    exact hrest hc
  rw [Expansion.turn, h]
  show (if '$' ≠ '$' then _ else _) = _
  rw [if_neg (not_not_intro rfl), hnone]

theorem turn_field {e : Expansion} (hname : '$' ∉ name)
    (h : e.format = '$' :: (name ++ '$' :: rest)) :
    e.turn envelope = e.field envelope name rest := by
  have hall : ∀ c ∈ name, (c != '$') = true := by
    intro c hc
    rw [bne_iff_ne]
    rintro rfl
    exact hname hc
  have hdrop : (name ++ '$' :: rest).dropWhile (· != '$') = '$' :: rest :=
    List.dropWhile_append_of_pos hall
  have htake : (name ++ '$' :: rest).takeWhile (· != '$') = name := by
    rw [List.takeWhile_append_of_pos hall]
    exact List.append_nil name
  rw [Expansion.turn, h]
  show (if '$' ≠ '$' then _ else _) = _
  rw [if_neg (not_not_intro rfl), hdrop, htake]

end Formats

/-! ## A field -/

section Fields

variable {envelope : Envelope} {body text name rest : CString} {e e' : Expansion} {len token : ℤ}

/-- The body as it came, or as the first `$body$` leaves it. -/
def BodyKept (body : CString) (e : Expansion) : Prop :=
  e.bodyProcessed = false ∧ e.body = body ∧ e.bodyLen = body.length ∨
    e.bodyProcessed = true ∧ e.body = blankOut body ∧ e.bodyLen = min body.length 200

/-- A turn appends a text and comes to some rest of the format, with the length that is
needed. -/
def Appends (body : CString) (e : Expansion) (text rest : CString) (t : Turn) : Prop :=
  ∃ e', t = .goes e' ∧ e'.message = e.message ++ text ∧ e'.format = rest ∧
    e'.len = e'.message.length + e'.format.length + 1 ∧ BodyKept body e'

theorem length_of_sameIgnoringCase {l r : CString} (h : sameIgnoringCase l r = true) :
    l.length = r.length := by
  have hlength := congrArg List.length (sameIgnoringCase_iff.mp h)
  rwa [List.length_map, List.length_map] at hlength

theorem append_goes (hbody : BodyKept body e)
    (hlen : len = e.message.length + text.length + rest.length + 1) :
    Appends body e text rest (e.append text rest len) := by
  refine ⟨_, if_pos (by omega), rfl, rfl, ?_, hbody⟩
  show len = (e.message ++ text).length + rest.length + 1
  rw [List.length_append]
  omega

theorem append_eq_goes (h : e.append text rest len = .goes e') :
    e' = { e with message := e.message ++ text, format := rest, len } := by
  rw [Expansion.append] at h
  split at h
  · exact (Turn.goes.inj h).symm
  · cases h

theorem put_goes {c : Char} (hbody : BodyKept body e)
    (hlen : e.len = e.message.length + (rest.length + 1) + 1) :
    Appends body e [c] rest (e.put c rest) := by
  refine ⟨_, if_pos (by omega), rfl, rfl, ?_, hbody⟩
  show e.len = (e.message ++ [c]).length + rest.length + 1
  rw [List.length_append, List.length_singleton]
  omega

/-- A body is ready from its first use on. -/
theorem bodyField_eq (rest : CString) (hbody : BodyKept body e) : ∃ e₁, BodyKept body e₁ ∧ e₁.message = e.message ∧
    e.bodyField rest = e₁.append (((body.take 200).takeWhile (· != '\x00')).map blank) rest
      (e.len + (min body.length 200 - 6)) := by
  have htake : body.take (min body.length 200) = body.take 200 := by
    rw [Nat.min_comm, ← List.take_take, List.take_length]
  have hcast : ((min body.length 200 : ℕ) : ℤ) = min (body.length : ℤ) 200 := by omega
  rcases hbody with ⟨hnot, hbody, hlength⟩ | ⟨hdone, hbody, hlength⟩
  · have hclamp : (if body.length > 200 then 200 else body.length) = min body.length 200 := by
      split <;> omega
    refine ⟨{ e with body := blankOut body, bodyLen := min body.length 200, bodyProcessed := true },
      .inr ⟨rfl, rfl, rfl⟩, rfl, ?_⟩
    rw [Expansion.bodyField, hnot, if_neg Bool.false_ne_true, hbody, hlength, hclamp,
      takeWhile_take_blankOut, htake, hcast]
  · refine ⟨e, .inr ⟨hdone, hbody, hlength⟩, rfl, ?_⟩
    rw [Expansion.bodyField, hdone, if_pos rfl, hbody, hlength, takeWhile_take_blankOut, htake, hcast]

/-- A turn appends a text if something is there, and goes on with the right length only if it
is. -/
structure Replaces (body : CString) (e : Expansion) (present : Prop) (text rest : CString)
    (t : Turn) : Prop where
  appends : present → Appends body e text rest t
  present : ∀ e', t = .goes e' → e'.len = e'.message.length + e'.format.length + 1 → present
  keeps : ∀ e', t = .goes e' → BodyKept body e' ∧ e'.format = rest
  goes_on : ∀ message, t ≠ .ends message

theorem append_keeps (hbody : BodyKept body e) (h : e.append text rest len = .goes e') :
    BodyKept body e' ∧ e'.format = rest := by
  rw [append_eq_goes h]
  exact ⟨hbody, rfl⟩

theorem append_ne_ends (message : CString) : e.append text rest len ≠ .ends message := by
  rw [Expansion.append]
  split <;> rintro ⟨⟩

theorem put_replaces {c : Char} (hbody : BodyKept body e)
    (hlen : e.len = e.message.length + (rest.length + 1) + 1) :
    Replaces body e True [c] rest (e.put c rest) := by
  refine ⟨fun _ ↦ put_goes hbody hlen, fun _ _ _ ↦ trivial, fun e' h ↦ ?_, fun _ h ↦ ?_⟩
  · rw [Expansion.put] at h
    split at h
    · cases h
      exact ⟨hbody, rfl⟩
    · cases h
  · rw [Expansion.put] at h
    split at h <;> cases h

theorem addressField_replaces (address : Option Address) (hbody : BodyKept body e)
    (hlen : e.len = e.message.length + (token + rest.length) + 1) :
    Replaces body e (Complete address) (addressText address) rest
      (e.addressField address rest token) := by
  rcases address with _ | ⟨mailbox | mailbox, host⟩
  · exact ⟨by rintro ⟨_, _, ⟨⟩⟩, by rintro _ ⟨⟩, by rintro _ ⟨⟩, by rintro _ ⟨⟩⟩
  · exact ⟨by rintro ⟨_, _, ⟨⟩⟩, by rintro _ ⟨⟩, by rintro _ ⟨⟩, by rintro _ ⟨⟩⟩
  · rcases host with _ | host
    · exact ⟨by rintro ⟨_, _, ⟨⟩⟩, by rintro _ ⟨⟩, by rintro _ ⟨⟩, by rintro _ ⟨⟩⟩
    · refine ⟨fun _ ↦ append_goes hbody ?_, fun _ _ _ ↦ ⟨mailbox, host, rfl⟩,
        fun _ h ↦ append_keeps hbody h, append_ne_ends⟩
      show e.len + (mailbox.length + 1 + host.length - token) =
        e.message.length + (mailbox ++ '@' :: host).length + rest.length + 1
      rw [List.length_append, List.length_cons]
      omega

theorem textField_replaces (text : Option CString) (hbody : BodyKept body e)
    (hlen : e.len = e.message.length + (token + rest.length) + 1) :
    Replaces body e (text.isSome = true) (text.getD []) rest (e.textField text rest token) := by
  rcases text with _ | text
  · exact ⟨by rintro ⟨⟩, by rintro _ ⟨⟩, by rintro _ ⟨⟩, by rintro _ ⟨⟩⟩
  · refine ⟨fun _ ↦ append_goes hbody ?_, fun _ _ _ ↦ rfl, fun _ h ↦ append_keeps hbody h,
      append_ne_ends⟩
    rw [Option.getD_some]
    omega

/-- The length that is counted for a body is that of what is appended only if no NUL is in
it. -/
theorem bodyField_replaces (hbody : BodyKept body e)
    (hlen : e.len = e.message.length + (6 + rest.length) + 1) :
    Replaces body e ('\x00' ∉ body.take 200) (bodyText body) rest (e.bodyField rest) := by
  obtain ⟨e₁, hbody₁, hmessage, heq⟩ := bodyField_eq rest hbody
  rw [heq]
  constructor
  · intro hpresent
    have hwhole : (body.take 200).takeWhile (· != '\x00') = body.take 200 :=
      (List.takeWhile_sublist _).eq_of_length (length_takeWhile_iff.mpr hpresent)
    have hgoes : Appends body e₁ (bodyText body) rest
        (e₁.append (bodyText body) rest (e.len + (min body.length 200 - 6))) := by
      apply append_goes hbody₁
      rw [bodyText, List.length_map, List.length_take, hmessage]
      omega
    rw [hwhole]
    rwa [Appends, hmessage] at hgoes
  · intro e' hgoes halloc
    rw [append_eq_goes hgoes] at halloc
    dsimp only at halloc
    rw [List.length_append, List.length_map, hmessage] at halloc
    rw [← length_takeWhile_iff, List.length_take]
    omega
  · exact fun _ h ↦ append_keeps hbody₁ h
  · exact append_ne_ends

/-- A field is put in the place of its name if it is there. -/
theorem field_replaces (envelope : Envelope) (hbody : BodyKept body e)
    (hlen : e.len = e.message.length + (name.length + 2 + rest.length) + 1) :
    Replaces body e (Present envelope body name) (fieldText envelope body name) rest
      (e.field envelope name rest) := by
  rw [Present, fieldText, Expansion.field]
  by_cases hfrom : sameIgnoringCase name "from".toList = true
  · have hname : name.length = 4 := length_of_sameIgnoringCase hfrom
    rw [if_pos hfrom, if_pos hfrom, if_pos hfrom]
    exact addressField_replaces _ hbody (by omega)
  rw [if_neg hfrom, if_neg hfrom, if_neg hfrom]
  by_cases hsubject : sameIgnoringCase name "subject".toList = true
  · have hname : name.length = 7 := length_of_sameIgnoringCase hsubject
    rw [if_pos hsubject, if_pos hsubject, if_pos hsubject]
    exact textField_replaces _ hbody (by omega)
  rw [if_neg hsubject, if_neg hsubject, if_neg hsubject]
  by_cases hto : sameIgnoringCase name "to".toList = true
  · have hname : name.length = 2 := length_of_sameIgnoringCase hto
    rw [if_pos hto, if_pos hto, if_pos hto]
    exact addressField_replaces _ hbody (by omega)
  rw [if_neg hto, if_neg hto, if_neg hto]
  by_cases hdate : sameIgnoringCase name "date".toList = true
  · have hname : name.length = 4 := length_of_sameIgnoringCase hdate
    rw [if_pos hdate, if_pos hdate, if_pos hdate]
    exact textField_replaces _ hbody (by omega)
  rw [if_neg hdate, if_neg hdate, if_neg hdate]
  by_cases hid : sameIgnoringCase name "messageid".toList = true
  · have hname : name.length = 9 := length_of_sameIgnoringCase hid
    rw [if_pos hid, if_pos hid, if_pos hid]
    exact textField_replaces _ hbody (by omega)
  rw [if_neg hid, if_neg hid, if_neg hid]
  by_cases hbodyName : sameIgnoringCase name "body".toList = true
  · have hname : name.length = 4 := length_of_sameIgnoringCase hbodyName
    rw [if_pos hbodyName, if_pos hbodyName, if_pos hbodyName]
    exact bodyField_replaces hbody (by omega)
  rw [if_neg hbodyName, if_neg hbodyName, if_neg hbodyName]
  refine ⟨fun _ ↦ append_goes hbody ?_, fun _ _ _ ↦ trivial, fun _ h ↦ append_keeps hbody h,
    append_ne_ends⟩
  rw [List.length_cons, List.length_append, List.length_singleton]
  omega

end Fields

/-! ## The whole format -/

section Runs

variable {envelope : Envelope} {body format : CString} {e e' : Expansion}

theorem step_eq_some_iff {u : Unit} :
    (mailboxReportExpand format envelope body).step e u = some e' ↔
      e.turn envelope = .goes e' := by
  show (match e.turn envelope with | .goes e' => some e' | _ => none) = some e' ↔ _
  cases e.turn envelope with
  | ends message => exact iff_of_false (Option.some_ne_none _).symm (by rintro ⟨⟩)
  | fault => exact iff_of_false (Option.some_ne_none _).symm (by rintro ⟨⟩)
  | goes e' => rw [Option.some.injEq, Turn.goes.injEq]

/-- What a turn puts in the place of what it takes from the format. -/
theorem turn_replaces (envelope : Envelope) (hbody : BodyKept body e)
    (hlen : e.len = e.message.length + e.format.length + 1) (hne : e.format ≠ []) :
    ∃ present text rest, Replaces body e present text rest (e.turn envelope) ∧
      rest.length < e.format.length ∧
      expanded envelope body e.format = text ++ expanded envelope body rest ∧
      ((∀ name ∈ fieldNames e.format, Present envelope body name) ↔
        present ∧ ∀ name ∈ fieldNames rest, Present envelope body name) := by
  rcases format_cases e.format with hnil | ⟨c, rest, hc, hformat⟩ | ⟨rest, hrest, hformat⟩ |
    ⟨name, rest, hname, hformat⟩
  · exact absurd hnil hne
  · have hlength := congrArg List.length hformat
    rw [List.length_cons] at hlength
    refine ⟨True, [c], rest, ?_, by omega, ?_, ?_⟩
    · rw [turn_char hc hformat]
      exact put_replaces hbody (by omega)
    · rw [hformat, expanded_char hc]
      rfl
    · rw [hformat, fieldNames_char hc]
      rw [true_and]
  · have hlength := congrArg List.length hformat
    rw [List.length_cons] at hlength
    refine ⟨True, ['$'], rest, ?_, by omega, ?_, ?_⟩
    · rw [turn_unpaired hrest hformat]
      exact put_replaces hbody (by omega)
    · rw [hformat, expanded_unpaired hrest]
      rfl
    · rw [hformat, fieldNames_unpaired hrest]
      rw [true_and]
  · have hlength := congrArg List.length hformat
    rw [List.length_cons, List.length_append, List.length_cons] at hlength
    refine ⟨Present envelope body name, fieldText envelope body name, rest, ?_, by omega, ?_, ?_⟩
    · rw [turn_field hname hformat]
      exact field_replaces envelope hbody (by omega)
    · rw [hformat, expanded_field hname]
    · rw [hformat, fieldNames_field hname, List.forall_mem_cons]

/-- What holds where all that is named is there. -/
structure Kept (envelope : Envelope) (body format : CString) (e : Expansion) : Prop where
  kept : BodyKept body e
  len : e.len = e.message.length + e.format.length + 1
  present : ∀ name ∈ fieldNames e.format, Present envelope body name
  text : expanded envelope body format = e.message ++ expanded envelope body e.format

theorem Kept.goes (h : Kept envelope body format e) (hturn : e.turn envelope = .goes e') :
    Kept envelope body format e' ∧ e'.format.length < e.format.length := by
  have hne : e.format ≠ [] := by
    intro hnil
    rw [Expansion.turn, hnil] at hturn
    dsimp only at hturn
    split at hturn <;> cases hturn
  obtain ⟨present, text, rest, hreplaces, hlt, hexpanded, hnames⟩ :=
    turn_replaces envelope h.kept h.len hne
  obtain ⟨hpresent, hrest⟩ := hnames.mp h.present
  obtain ⟨_, heq, hmessage, hformat, hlen, hbody⟩ := hreplaces.appends hpresent
  rw [hturn] at heq
  cases heq
  refine ⟨⟨hbody, hlen, hformat ▸ hrest, ?_⟩, hformat ▸ hlt⟩
  rw [h.text, hexpanded, hmessage, hformat, List.append_assoc]

theorem Kept.ends (h : Kept envelope body format e) (hformat : e.format = []) :
    e.turn envelope = .ends e.message := by
  have hlen := h.len
  rw [hformat, List.length_nil] at hlen
  rw [Expansion.turn, hformat]
  exact if_pos (by omega)

theorem Kept.turn_ne_fault (h : Kept envelope body format e) : e.turn envelope ≠ .fault := by
  intro hfault
  by_cases hformat : e.format = []
  · rw [h.ends hformat] at hfault
    cases hfault
  · obtain ⟨present, text, rest, hreplaces, -, -, hnames⟩ :=
      turn_replaces envelope h.kept h.len hformat
    obtain ⟨_, heq, -⟩ := hreplaces.appends (hnames.mp h.present).1
    rw [hfault] at heq
    cases heq

theorem expands_of_present (hpresent : ∀ name ∈ fieldNames format, Present envelope body name) :
    Expands envelope body format := by
  have hinit : ∀ e, (mailboxReportExpand format envelope body).init e →
      Kept envelope body format e := by
    rintro _ rfl
    refine ⟨.inl ⟨rfl, rfl, rfl⟩, ?_, hpresent, rfl⟩
    show (format.length : ℤ) + 1 = (0 : ℕ) + format.length + 1
    omega
  have hkept : ∀ {e}, (mailboxReportExpand format envelope body).Reachable e →
      Kept envelope body format e := fun he ↦
    he.invariant hinit fun e _ e' h hstep ↦ (h.goes (step_eq_some_iff.mp hstep)).1
  constructor
  · intro e he
    refine System.terminates_of_rank (I := fun e r ↦ Kept envelope body format e ∧
      r = e.format.length) ?_ ⟨hinit e he, rfl⟩
    rintro e _ _ e' ⟨h, rfl⟩ - hstep
    obtain ⟨h', hlt⟩ := h.goes (step_eq_some_iff.mp hstep)
    exact ⟨_, hlt, h', rfl⟩
  · exact fun e he ↦ (hkept he).turn_ne_fault
  · exact fun e he ↦ (hkept he).len
  · intro e message he hends
    have h := hkept he
    by_cases hformat : e.format = []
    · rw [h.ends hformat] at hends
      cases hends
      rw [h.text, hformat]
      exact (List.append_nil _).symm
    · obtain ⟨present, text, rest, hreplaces, -⟩ := turn_replaces envelope h.kept h.len hformat
      exact absurd hends (hreplaces.goes_on message)

/-- Every field of the rest of the format is come to. -/
theorem Expands.present (h : Expands envelope body format)
    (he : (mailboxReportExpand format envelope body).Reachable e) (hbody : BodyKept body e) :
    ∀ name ∈ fieldNames e.format, Present envelope body name := by
  induction hlength : e.format.length using Nat.strongRecOn generalizing e with
  | _ n ih =>
    subst hlength
    by_cases hformat : e.format = []
    · rw [hformat]
      rintro _ ⟨⟩
    · obtain ⟨present, text, rest, hreplaces, hlt, -, hnames⟩ :=
        turn_replaces envelope hbody (h.allocated e he) hformat
      cases hturn : e.turn envelope with
      | ends message => exact absurd hturn (hreplaces.goes_on message)
      | fault => exact absurd hturn (h.inside e he)
      | goes e' =>
          have he' := he.step (e := ()) (step_eq_some_iff.mpr hturn)
          obtain ⟨hbody', hrest⟩ := hreplaces.keeps e' hturn
          refine hnames.mpr ⟨hreplaces.present e' hturn (h.allocated e' he'), ?_⟩
          rw [← hrest]
          exact ih _ (hrest ▸ hlt) he' hbody' rfl

/-- A report is expanded if and only if every field that its format names is there. -/
theorem expands_iff (envelope : Envelope) (body format : CString) :
    Expands envelope body format ↔
      ∀ name ∈ fieldNames format, Present envelope body name :=
  ⟨fun h ↦ h.present (.init rfl) (.inl ⟨rfl, rfl, rfl⟩), expands_of_present⟩

/-- A message without a subject. -/
theorem not_expands : ¬ Expands ⟨none, none, none, none, none⟩ [] "New: $subject$".toList := by
  intro h
  have hrun : (mailboxReportExpand "New: $subject$".toList ⟨none, none, none, none, none⟩ []).run
      ⟨[], "New: $subject$".toList, 15, [], 0, false⟩ [(), (), (), (), ()] =
      some ⟨"New: ".toList, "$subject$".toList, 15, [], 0, false⟩ := by
    decide
  exact h.inside _ (System.reachable_of_run rfl hrun) rfl

end Runs

end Beirdobot.Mailbox.Report
