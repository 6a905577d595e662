import Beirdobot.BotCmds.CommandLine
import Mathlib.Data.List.InsertIdx

/-!
# The arguments of `dig`

A transcription of the loop of `dns_thread` of `dns.c` that reads what is to be looked up,
and of what is done with it.
-/

namespace Beirdobot.Dns

open BotCmds

/-- What the loop sets. -/
structure Arguments where
  dnsserver : Option CString
  host : Option CString
  type : CString
  deriving DecidableEq

/-- `*command == '@'` -/
def isServer (command : CString) : Bool := command.head? == some '@'

/-- `!strcasecmp( command, "-x" )` -/
def isReverse (command : CString) : Bool := sameIgnoringCase command ['-', 'x']

namespace Arguments

/-- Before the loop. -/
def start : Arguments := ⟨none, none, ['A']⟩

/-- The turn of the last command, behind which there is no line. -/
def last (a : Arguments) (command : CString) : Arguments :=
  if isServer command then { a with dnsserver := some command.tail }
  else if a.host = none then { a with dnsserver := none, host := some command }
  else { a with type := command }

/-- The turn of another command. -/
def next (a : Arguments) (command : CString) : Arguments :=
  if isServer command then { a with dnsserver := some command.tail }
  else if isReverse command then { a with type := command }
  else if a.host = none then { a with host := some command }
  else { a with type := command }

end Arguments

theorem length_argument_lt (text : CString) (h : argument text ≠ []) :
    (argument text).length < text.length := by
  rw [argument] at h ⊢
  rcases hrest : text.dropWhile (· != ' ') with _ | ⟨c, line⟩
  · rw [hrest] at h
    exact absurd rfl h
  · obtain rfl := head_of_dropWhile hrest
    have hspace : (' ' :: line).dropWhile (· == ' ') = line.dropWhile (· == ' ') := rfl
    have hstripped := (List.rdropWhile_prefix (l := line.dropWhile (· == ' ')) (· == ' ')).length_le
    have hskipped := (List.dropWhile_suffix (l := line) (· == ' ')).length_le
    have hline := (List.dropWhile_suffix (l := text) (· != ' ')).length_le
    rw [hrest, List.length_cons] at hline
    rw [hspace]
    omega

theorem length_line_lt {text line : CString}
    (h : (commandLineParse (some text)).line = some line) : line.length < text.length := by
  rw [commandLineParse_line, orNull] at h
  split at h
  · cases h
  · rename_i hne
    cases h
    exact length_argument_lt text hne

/-- `while( command )` -/
def argumentLoop (a : Arguments) (command : CString) : Arguments :=
  match (commandLineParse (some command)).cmd, _h : (commandLineParse (some command)).line with
  | none, _ => a
  | some cmd, none => a.last cmd
  | some cmd, some line => if line = [] then a.next cmd else argumentLoop (a.next cmd) line
termination_by command.length
decreasing_by exact length_line_lt _h

/-- The server, the host and the type that are asked for. -/
def arguments (command : CString) : Arguments := argumentLoop .start command

/-! ## What is done with them -/

structure DNSType where
  name : CString
  type : ℕ
  deriving DecidableEq

def dnsTypes : List DNSType :=
  [⟨"A".toList, 1⟩, ⟨"NS".toList, 2⟩, ⟨"CNAME".toList, 5⟩, ⟨"SOA".toList, 6⟩,
    ⟨"PTR".toList, 12⟩, ⟨"MX".toList, 15⟩, ⟨"TXT".toList, 16⟩, ⟨"AAAA".toList, 28⟩]

/-- The functions that are called with a host; `findRR` asks the given server, or those of
the system. -/
structure Calls where
  inAddrArpa : CString → Option CString
  findRR : Option CString → CString → ℕ → Option CString

/-- From the search in `dnsTypeTree` on; there is none where a null host is handed on. -/
def lookup (calls : Calls) (dnsserver host : Option CString) (type : CString) : Option CString :=
  match dnsTypes.find? fun t ↦ sameIgnoringCase type t.name with
  | none => host.map fun host ↦ host ++ " ".toList ++ type ++ ": Unknown RR Type".toList
  | some dnsType => host.map fun host ↦
      (calls.findRR dnsserver host dnsType.type).getD
        (host ++ " ".toList ++ dnsType.name ++ ": No results".toList)

/-- The response of `dns_thread` to a command; there is none where a null host is handed
on. -/
def dnsThread (calls : Calls) (command : CString) : Option CString :=
  let a := arguments command
  if isReverse a.type then
    a.host.bind fun host ↦
      match calls.inAddrArpa host with
      | none => some (host ++ ": Invalid Reverse".toList)
      | some response => lookup calls a.dnsserver (some response) "PTR".toList
  else lookup calls a.dnsserver a.host a.type

/-! ## The words of a command -/

/-- The words between the blanks. -/
def words (text : CString) : List CString :=
  word text :: if _h : argument text = [] then [] else words (argument text)
termination_by text.length
decreasing_by exact length_argument_lt text _h

/-- The loop over the words. -/
def Arguments.read (a : Arguments) : List CString → Arguments
  | [] => a
  | [w] => a.last w
  | w :: ws => (a.next w).read ws

/-- A word that is neither a server nor `-x`. -/
def names (w : CString) : Bool := !isServer w && !isReverse w

/-- A command made of words. -/
def unwords (ws : List CString) : CString := [' '].intercalate ws

section Words

variable {text w : CString} {ws : List CString}

theorem argumentLoop_eq (a : Arguments) (command : CString) :
    argumentLoop a command = a.read (words command) := by
  induction hlength : command.length using Nat.strongRecOn generalizing a command with
  | _ n ih =>
    subst hlength
    rw [argumentLoop, words]
    split
    · rename_i hcmd
      rw [commandLineParse_cmd] at hcmd
      cases hcmd
    · rename_i cmd hcmd hline
      rw [commandLineParse_cmd] at hcmd
      cases hcmd
      rw [commandLineParse_line, orNull] at hline
      split at hline
      · rename_i hnil
        rw [dif_pos hnil]
        rfl
      · cases hline
    · rename_i cmd line hcmd hline
      rw [commandLineParse_cmd] at hcmd
      cases hcmd
      have hlt := length_line_lt hline
      rw [commandLineParse_line, orNull] at hline
      split at hline
      · cases hline
      · rename_i hne
        cases hline
        rw [if_neg hne, dif_neg hne, ih _ hlt _ _ rfl]
        rw [words]
        rfl

theorem arguments_eq (command : CString) :
    arguments command = Arguments.start.read (words command) :=
  argumentLoop_eq .start command

theorem unwords_cons (w : CString) (hne : ws ≠ []) :
    unwords (w :: ws) = w ++ ' ' :: unwords ws := by
  obtain ⟨v, ws, rfl⟩ := List.exists_cons_of_ne_nil hne
  rw [unwords, List.intercalate_cons_cons, List.append_assoc]
  rfl

/-- There is no blank at its beginning or at its end. -/
theorem unwords_ends (hne : ws ≠ []) (hws : ∀ w ∈ ws, w ≠ [] ∧ ' ' ∉ w) :
    unwords ws ≠ [] ∧ (unwords ws).head? ≠ some ' ' ∧ (unwords ws).getLast? ≠ some ' ' := by
  induction ws with
  | nil => exact absurd rfl hne
  | cons w ws ih =>
      obtain ⟨hw, hblank⟩ := hws w List.mem_cons_self
      obtain ⟨c, v, rfl⟩ := List.exists_cons_of_ne_nil hw
      have hc : c ≠ ' ' := fun h ↦ hblank (h ▸ List.mem_cons_self)
      cases ws with
      | nil =>
          have hone : unwords [c :: v] = c :: v := List.intercalate_singleton
          rw [hone]
          refine ⟨List.cons_ne_nil c v, fun h ↦ hc (Option.some.inj h), fun h ↦ ?_⟩
          exact hblank (List.mem_of_getLast? h)
      | cons u ws =>
          have hrest : u :: ws ≠ [] := List.cons_ne_nil u ws
          obtain ⟨hne', -, hlast⟩ := ih hrest fun w hw ↦ hws w (List.mem_cons_of_mem _ hw)
          rw [unwords_cons _ hrest]
          refine ⟨List.cons_ne_nil c _, fun h ↦ hc (Option.some.inj h), ?_⟩
          obtain ⟨d, text, htext⟩ := List.exists_cons_of_ne_nil hne'
          rw [htext] at hlast ⊢
          rw [List.getLast?_append, List.getLast?_cons_cons]
          intro h
          rw [List.getLast?_eq_some_getLast (List.cons_ne_nil d text)] at h hlast
          exact hlast h

theorem words_unwords (hne : ws ≠ []) (hws : ∀ w ∈ ws, w ≠ [] ∧ ' ' ∉ w) :
    words (unwords ws) = ws := by
  induction ws with
  | nil => exact absurd rfl hne
  | cons w ws ih =>
      have hblank := (hws w List.mem_cons_self).2
      have hall : ∀ c ∈ w, (c != ' ') = true := fun c hc ↦ bne_iff_ne.mpr fun h ↦ hblank (h ▸ hc)
      cases ws with
      | nil =>
          have hone : unwords [w] = w := List.intercalate_singleton
          have hdrop : w.dropWhile (· != ' ') = [] := List.dropWhile_eq_nil_iff.mpr hall
          have hnil : argument w = [] := by
            rw [argument, hdrop]
            rfl
          rw [hone, words, dif_pos hnil, word_of_dropWhile hdrop]
      | cons v ws =>
          have hrest : v :: ws ≠ [] := List.cons_ne_nil v ws
          have hws' : ∀ w ∈ v :: ws, w ≠ [] ∧ ' ' ∉ w := fun w hw ↦ hws w (List.mem_cons_of_mem _ hw)
          obtain ⟨hne', hhead, hlast⟩ := unwords_ends hrest hws'
          have hdrop : (w ++ ' ' :: unwords (v :: ws)).dropWhile (· != ' ') =
              ' ' :: unwords (v :: ws) := by
            rw [List.dropWhile_append_of_pos hall]
            rfl
          have hword : word (w ++ ' ' :: unwords (v :: ws)) = w := by
            rw [word, List.takeWhile_append_of_pos hall]
            exact List.append_nil w
          have hargument : argument (w ++ ' ' :: unwords (v :: ws)) = unwords (v :: ws) := by
            have hskip : (' ' :: unwords (v :: ws)).dropWhile (· == ' ') = unwords (v :: ws) := by
              rw [List.dropWhile_cons_of_pos rfl]
              obtain ⟨c, text, htext⟩ := List.exists_cons_of_ne_nil hne'
              rw [htext] at hhead ⊢
              rw [List.dropWhile_cons_of_neg]
              rw [beq_iff_eq]
              exact fun h ↦ hhead (congrArg some h)
            rw [argument, hdrop, hskip, rdropWhile_eq_self_iff]
            exact hlast
          rw [unwords_cons w hrest, words, hword, hargument, dif_neg hne', ih hrest hws']

end Words

/-! ## Where the server stands -/

namespace Arguments

/-- With a server. -/
def withServer (a : Arguments) (server : CString) : Arguments := { a with dnsserver := some server }

section Server

variable {a : Arguments} {w server : CString} {ws : List CString}

theorem next_server (a : Arguments) (server : CString) :
    a.next ('@' :: server) = a.withServer server :=
  if_pos rfl

theorem last_server (a : Arguments) (server : CString) :
    a.last ('@' :: server) = a.withServer server :=
  if_pos rfl

theorem next_of_isReverse (hw : isServer w = false) (hx : isReverse w = true) :
    a.next w = { a with type := w } := by
  rw [next, hw, if_neg Bool.false_ne_true, if_pos hx]

theorem next_of_not_isReverse (hw : isServer w = false) (hx : isReverse w = false) :
    a.next w = if a.host = none then { a with host := some w } else { a with type := w } := by
  rw [next, hw, hx, if_neg Bool.false_ne_true, if_neg Bool.false_ne_true]

theorem last_of_not_isServer (hw : isServer w = false) :
    a.last w = if a.host = none then { a with dnsserver := none, host := some w }
      else { a with type := w } := by
  rw [last, hw, if_neg Bool.false_ne_true]

theorem next_withServer (hw : isServer w = false) :
    (a.withServer server).next w = (a.next w).withServer server := by
  cases hx : isReverse w with
  | true =>
      rw [next_of_isReverse hw hx, next_of_isReverse hw hx]
      rfl
  | false =>
      rw [next_of_not_isReverse hw hx, next_of_not_isReverse hw hx]
      by_cases hhost : a.host = none
      · rw [if_pos hhost, if_pos (show (a.withServer server).host = none from hhost)]
        rfl
      · rw [if_neg hhost, if_neg (show (a.withServer server).host ≠ none from hhost)]
        rfl

/-- Before the last word, all places of the server are one. -/
theorem read_insertIdx {k : ℕ} (hk : k < ws.length) (hws : ∀ w ∈ ws, isServer w = false) :
    a.read (ws.insertIdx k ('@' :: server)) = (a.withServer server).read ws := by
  induction ws generalizing a k with
  | nil => cases hk
  | cons w ws ih =>
      cases k with
      | zero =>
          rw [List.insertIdx_zero, read, next_server]
          exact List.cons_ne_nil w ws
      | succ k =>
          have hk' : k < ws.length := Nat.lt_of_succ_lt_succ hk
          have hne : ws ≠ [] := List.ne_nil_of_length_pos (Nat.zero_lt_of_lt hk')
          have hne' : ws.insertIdx k ('@' :: server) ≠ [] := fun h ↦ by
            have hlength := List.length_insertIdx_of_le_length (Nat.le_of_lt hk') ('@' :: server)
            rw [h] at hlength
            cases hlength
          have hw := hws w List.mem_cons_self
          rw [List.insertIdx_succ_cons, read, read, next_withServer hw,
            ih hk' fun v hv ↦ hws v (List.mem_cons_of_mem w hv)]
          · exact hne
          · exact hne'

theorem read_concat (a : Arguments) (ws : List CString) (w : CString) :
    a.read (ws ++ [w]) = (ws.foldl next a).last w := by
  induction ws generalizing a with
  | nil => rfl
  | cons v ws ih =>
      rw [List.cons_append, List.foldl_cons, ← ih, read]
      exact List.concat_ne_nil w ws

theorem foldl_next_withServer (hws : ∀ w ∈ ws, isServer w = false) :
    ws.foldl next (a.withServer server) = (ws.foldl next a).withServer server := by
  induction ws generalizing a with
  | nil => rfl
  | cons w ws ih =>
      rw [List.foldl_cons, List.foldl_cons, next_withServer (hws w List.mem_cons_self),
        ih fun v hv ↦ hws v (List.mem_cons_of_mem w hv)]

/-- The last word drops the server if it is the host. -/
theorem last_withServer_iff (hw : isServer w = false) :
    (a.withServer server).last w = (a.next w).withServer server ↔ a.host.isSome = true := by
  rw [last_of_not_isServer hw]
  cases hhost : a.host with
  | none =>
      rw [if_pos (show (a.withServer server).host = none from hhost)]
      refine iff_of_false (fun h ↦ ?_) Bool.false_ne_true
      cases congrArg dnsserver h
  | some host =>
      rw [if_neg (show (a.withServer server).host ≠ none from hhost ▸ Option.some_ne_none host)]
      refine iff_of_true ?_ rfl
      cases hx : isReverse w with
      | true =>
          rw [next_of_isReverse hw hx]
          rfl
      | false =>
          rw [next_of_not_isReverse hw hx, if_neg (hhost ▸ Option.some_ne_none host)]
          rfl

/-- There is a host once a word names one. -/
theorem host_foldl_next (a : Arguments) (ws : List CString) :
    (ws.foldl next a).host = a.host.or (ws.find? names) := by
  induction ws generalizing a with
  | nil => exact Option.or_none.symm
  | cons w ws ih =>
      rw [List.foldl_cons, ih]
      cases hw : isServer w with
      | true =>
          rw [next, if_pos hw, List.find?_cons_of_neg]
          rw [names, hw]
          exact Bool.false_ne_true
      | false =>
          cases hx : isReverse w with
          | true =>
              rw [next_of_isReverse hw hx, List.find?_cons_of_neg]
              rw [names, hx, Bool.and_comm]
              exact Bool.false_ne_true
          | false =>
              rw [next_of_not_isReverse hw hx, List.find?_cons_of_pos]
              · cases hhost : a.host with
                | none => rw [if_pos rfl, Option.some_or, Option.none_or]
                | some host =>
                    rw [if_neg (Option.some_ne_none host), Option.some_or]
                    rfl
              · rw [names, hw, hx]
                rfl

theorem host_last (a : Arguments) (w : CString) :
    (a.last w).host = a.host.or (if isServer w then none else some w) := by
  cases hw : isServer w with
  | true =>
      rw [last, if_pos hw, if_pos rfl]
      exact Option.or_none.symm
  | false =>
      rw [last_of_not_isServer hw, if_neg Bool.false_ne_true]
      cases hhost : a.host with
      | none => rfl
      | some host =>
          rw [if_neg (Option.some_ne_none host), Option.some_or]

end Server

end Arguments

/-- What is asked for but the server. -/
structure Given where
  args : List CString
  args_ne_nil : args ≠ []
  word_of_mem : ∀ w ∈ args, w ≠ [] ∧ ' ' ∉ w
  plain_of_mem : ∀ w ∈ args, isServer w = false

/-- With the server at a place among them. -/
def Given.command (given : Given) (server : {s : CString // ' ' ∉ s}) (k : ℕ) : CString :=
  unwords (given.args.insertIdx k ('@' :: server.val))

theorem Given.words_command (given : Given) (server : {s : CString // ' ' ∉ s}) {k : ℕ}
    (hk : k ≤ given.args.length) :
    words (given.command server k) = given.args.insertIdx k ('@' :: server.val) := by
  apply words_unwords
  · intro h
    have hlength := List.length_insertIdx_of_le_length hk ('@' :: server.val)
    rw [h] at hlength
    cases hlength
  · intro w hw
    rcases (List.mem_insertIdx hk).mp hw with rfl | hw
    · refine ⟨List.cons_ne_nil _ _, fun h ↦ ?_⟩
      rcases List.mem_cons.mp h with h | h
      · cases h
      · exact server.property h
    · exact given.word_of_mem w hw

/-- The server may stand anywhere if and only if a word before the last one names the
host. -/
theorem Given.arguments_command_iff (given : Given) (server : {s : CString // ' ' ∉ s}) :
    (∀ k ≤ given.args.length, ∀ k' ≤ given.args.length,
      arguments (given.command server k) = arguments (given.command server k')) ↔
    ∃ w ∈ given.args.dropLast, names w = true := by
  obtain ⟨init, w, hargs⟩ := (List.eq_nil_or_concat' given.args).resolve_left given.args_ne_nil
  have hplain : ∀ v ∈ init ++ [w], isServer v = false := hargs ▸ given.plain_of_mem
  have hw : isServer w = false := hplain w (List.mem_append_right _ List.mem_cons_self)
  have hinit : ∀ v ∈ init, isServer v = false := fun v hv ↦ hplain v (List.mem_append_left _ hv)
  have hlength : given.args.length = init.length + 1 := by
    rw [hargs, List.length_append, List.length_singleton]
  let a := init.foldl Arguments.next .start
  have hhost : a.host.isSome = true ↔ ∃ w ∈ init, names w = true := by
    have hfound : a.host = init.find? names := Arguments.host_foldl_next .start init
    rw [hfound, List.find?_isSome]
  have hlast : arguments (given.command server given.args.length) =
      (a.next w).withServer server := by
    rw [arguments_eq, given.words_command server (Nat.le_refl _), List.insertIdx_length_self,
      Arguments.read_concat, Arguments.last_server, hargs, List.foldl_append]
    rfl
  have hearlier : ∀ k < given.args.length,
      arguments (given.command server k) = (a.withServer server).last w := by
    intro k hk
    rw [arguments_eq, given.words_command server (Nat.le_of_lt hk),
      Arguments.read_insertIdx hk given.plain_of_mem, hargs, Arguments.read_concat,
      Arguments.foldl_next_withServer hinit]
  have hsame : (a.withServer server).last w = (a.next w).withServer server ↔ a.host.isSome = true :=
    Arguments.last_withServer_iff hw
  rw [hargs, List.dropLast_concat, ← hhost, ← hsame, ← hargs]
  constructor
  · intro h
    have h := h 0 (Nat.zero_le _) _ (Nat.le_refl _)
    rwa [hearlier 0 (by omega), hlast] at h
  · intro h
    have hall : ∀ k ≤ given.args.length,
        arguments (given.command server k) = (a.withServer server).last w := by
      intro k hk
      rcases Nat.eq_or_lt_of_le hk with rfl | hk
      · rw [hlast, h]
      · exact hearlier k hk
    intro k hk k' hk'
    rw [hall k hk, hall k' hk']

/-! ## The host that is asked for -/

theorem isSome_lookup (calls : Calls) (dnsserver host : Option CString) (type : CString) :
    (lookup calls dnsserver host type).isSome = host.isSome := by
  rw [lookup]
  split <;> exact Option.isSome_map

theorem isSome_dnsThread (calls : Calls) (command : CString) :
    (dnsThread calls command).isSome = (arguments command).host.isSome := by
  rw [dnsThread]
  cases hhost : (arguments command).host with
  | none =>
      split
      · rfl
      · exact isSome_lookup calls _ none _
  | some host =>
      split
      · rw [Option.bind_some]
        split
        · rfl
        · exact isSome_lookup calls _ _ _
      · exact isSome_lookup calls _ _ _

theorem words_ne_nil (text : CString) : words text ≠ [] := by
  rw [words]
  exact List.cons_ne_nil _ _

theorem host_arguments {text w : CString} {init : List CString} (hwords : words text = init ++ [w]) :
    (arguments text).host = (init.find? names).or (if isServer w then none else some w) := by
  have hinit : (init.foldl Arguments.next .start).host = init.find? names :=
    Arguments.host_foldl_next .start init
  rw [arguments_eq, hwords, Arguments.read_concat, Arguments.host_last, hinit]

/-- No host is null if and only if a word names one, or the last one is `-x`. -/
theorem isSome_host_iff (text : CString) : (arguments text).host.isSome = true ↔
    (∃ w ∈ words text, names w = true) ∨ ∃ w ∈ (words text).getLast?, isReverse w = true := by
  obtain ⟨init, w, hwords⟩ := (List.eq_nil_or_concat' (words text)).resolve_left (words_ne_nil text)
  rw [host_arguments hwords, hwords, Option.isSome_or, Bool.or_eq_true, List.find?_isSome,
    List.getLast?_concat]
  constructor
  · rintro (⟨v, hv, hnames⟩ | hlast)
    · exact .inl ⟨v, List.mem_append_left _ hv, hnames⟩
    · split at hlast
      · cases hlast
      · rename_i hw
        cases hx : isReverse w with
        | true => exact .inr ⟨w, rfl, hx⟩
        | false =>
            refine .inl ⟨w, List.mem_append_right _ List.mem_cons_self, ?_⟩
            rw [names, hx, Bool.eq_false_iff.mpr hw]
            rfl
  · have hplain : isServer w = false → (if isServer w then none else some w).isSome = true := by
      intro hw
      rw [hw]
      rfl
    rintro (⟨v, hv, hnames⟩ | ⟨v, hv, hx⟩)
    · rcases List.mem_append.mp hv with hv | hv
      · exact .inl ⟨v, hv, hnames⟩
      · obtain rfl := List.mem_singleton.mp hv
        rw [names, Bool.and_eq_true, Bool.not_eq_true'] at hnames
        exact .inr (hplain hnames.1)
    · cases hv
      refine .inr (hplain ?_)
      -- what is `-x` does not begin with `@`
      cases hw : isServer w with
      | false => rfl
      | true =>
          obtain ⟨rest, rfl⟩ := List.head?_eq_some_iff.mp (beq_iff_eq.mp hw)
          have hsame := sameIgnoringCase_iff.mp hx
          cases hsame

/-- If a word names a host, the host is such a word. -/
theorem host_names_iff (text : CString) :
    (∃ host ∈ words text, names host = true ∧ (arguments text).host = some host) ↔
      ∃ w ∈ words text, names w = true := by
  constructor
  · rintro ⟨host, hmem, hnames, -⟩
    exact ⟨host, hmem, hnames⟩
  · rintro ⟨v, hv, hnames⟩
    obtain ⟨init, w, hwords⟩ := (List.eq_nil_or_concat' (words text)).resolve_left (words_ne_nil text)
    rw [hwords] at hv
    rw [host_arguments hwords, hwords]
    rcases hfound : init.find? names with _ | host
    · rcases List.mem_append.mp hv with hv | hv
      · exact absurd hnames (List.find?_eq_none.mp hfound v hv)
      · obtain rfl := List.mem_singleton.mp hv
        have hplain : isServer v = false := by
          rw [names, Bool.and_eq_true, Bool.not_eq_true'] at hnames
          exact hnames.1
        refine ⟨v, List.mem_append_right _ List.mem_cons_self, hnames, ?_⟩
        rw [hplain]
        rfl
    · exact ⟨host, List.mem_append_left _ (List.mem_of_find?_eq_some hfound),
        List.find?_some hfound, rfl⟩

/-- The server may stand anywhere if and only if the host is named before the last other
word; there is a host if and only if a word names one or the last one is `-x`, which is
then taken for it. -/
theorem arguments_iff (given : Given) (server : {s : CString // ' ' ∉ s}) (calls : Calls)
    (text : CString) :
    ((∀ k ≤ given.args.length, ∀ k' ≤ given.args.length,
        arguments (given.command server k) = arguments (given.command server k')) ↔
      ∃ w ∈ given.args.dropLast, names w = true) ∧
    ((dnsThread calls text).isSome = true ↔
      (∃ w ∈ words text, names w = true) ∨ ∃ w ∈ (words text).getLast?, isReverse w = true) ∧
    ((∃ host ∈ words text, names host = true ∧ (arguments text).host = some host) ↔
      ∃ w ∈ words text, names w = true) := by
  refine ⟨given.arguments_command_iff server, ?_, host_names_iff text⟩
  rw [isSome_dnsThread]
  exact isSome_host_iff text

theorem arguments_unwords (ws : List CString) (hne : ws ≠ [])
    (hws : (ws.all fun w ↦ !w.isEmpty && !w.contains ' ') = true) :
    arguments (unwords ws) = Arguments.start.read ws := by
  rw [arguments_eq, words_unwords hne]
  intro w hw
  have h := List.all_eq_true.mp hws w hw
  rw [Bool.and_eq_true, Bool.not_eq_true', Bool.not_eq_true', List.isEmpty_eq_false_iff,
    List.contains_eq_mem, decide_eq_false_iff_not] at h
  exact h

/-- `dig @ns.example.org example.com` does not ask the server, `dig example.com
@ns.example.org` does, and `dig @ns.example.org` looks up nothing. -/
theorem not_arguments :
    (arguments "@ns.example.org example.com".toList).dnsserver = none ∧
    (arguments "example.com @ns.example.org".toList).dnsserver = some "ns.example.org".toList ∧
    dnsThread ⟨fun _ ↦ none, fun _ _ _ ↦ none⟩ "@ns.example.org".toList = none := by
  have hfirst : arguments "@ns.example.org example.com".toList = _ :=
    arguments_unwords ["@ns.example.org".toList, "example.com".toList] (List.cons_ne_nil _ _) rfl
  have hlast : arguments "example.com @ns.example.org".toList = _ :=
    arguments_unwords ["example.com".toList, "@ns.example.org".toList] (List.cons_ne_nil _ _) rfl
  have hserver : arguments "@ns.example.org".toList = _ :=
    arguments_unwords ["@ns.example.org".toList] (List.cons_ne_nil _ _) rfl
  refine ⟨?_, ?_, ?_⟩
  · rw [hfirst]
    rfl
  · rw [hlast]
    rfl
  · rw [← Option.not_isSome_iff_eq_none, isSome_dnsThread, hserver]
    exact Bool.false_ne_true

end Beirdobot.Dns
