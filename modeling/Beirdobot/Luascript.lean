import Beirdobot.Libc
import Beirdobot.Library.Registry
import Beirdobot.Library.System

/-!
# Scripts

Transcriptions of `luascriptLoadItem` and `luascriptUnloadItem` of `luascript.c`, and of the
functions with which scripts register patterns and commands, over `regexpList` and `botCmdTree`.
The fields of a `Luascript_t` are functions of the script.  A registration is known by a number
that is not used again, and an entry that refers to one that was freed keeps its text.  Whether a
pattern compiles is a parameter; whether the tree takes a command whose name it has, and which of
several entries with one name a search meets, are arguments.  A result `none` is the use of a null
pointer.
-/

namespace Beirdobot.Luascript

open Library Registry

/-- `LuaRegexp_t` -/
structure LuaRegexp where
  id : ℕ
  channelRegexp : Option CString
  contentRegexp : CString
  deriving DecidableEq

/-- `LuaBotCmd_t` -/
structure LuaBotCmd where
  id : ℕ
  command : CString
  deriving DecidableEq

/-- `channelsAll` -/
def channelsAll : CString := "^.*$".toList

/-- What `regexp_remove` compares. -/
def LuaRegexp.key (regexp : LuaRegexp) : CString × CString :=
  (regexp.channelRegexp.getD channelsAll, regexp.contentRegexp)

/-- What the keys of `botCmdTree` are compared by. -/
def LuaBotCmd.key (cmd : LuaBotCmd) : CString := caseless cmd.command

def regexpScheme : Scheme LuaRegexp (CString × CString) := ⟨LuaRegexp.key, LuaRegexp.id⟩

def commandScheme : Scheme LuaBotCmd CString := ⟨LuaBotCmd.key, LuaBotCmd.id⟩

/-- The loop of `lua_regexp_remove`, which compares with a channel pattern that may be null. -/
def findRegexp (channelRegexp contentRegexp : CString) :
    List LuaRegexp → Option (Option LuaRegexp)
  | [] => some none
  | regexp :: regexps =>
      match regexp.channelRegexp with
      | none => none
      | some channelRegexp' =>
          if channelRegexp = channelRegexp' ∧ contentRegexp = regexp.contentRegexp then
            some (some regexp)
          else findRegexp channelRegexp contentRegexp regexps

/-- Between `lua_setglobal( L, "luascript" )` and the end of `initialize` a script is being
loaded. -/
inductive Phase
  | idle
  | loading
  | loaded
  deriving DecidableEq

variable {σ : Type} [DecidableEq σ]

/-- The fields of the scripts and the two global tables, in which an entry without a tag is not one
of a script. -/
structure State (σ : Type) where
  phase : σ → Phase
  regexps : σ → List LuaRegexp
  commands : σ → List LuaBotCmd
  regexpList : List (Entry (CString × CString))
  botCmdTree : List (Entry CString)
  fresh : ℕ

namespace State

/-- `regexp_add` -/
def regexpAdd (compiles : CString → Bool) (s : State σ) (regexp : LuaRegexp) : State σ :=
  let channelRegexp := regexp.channelRegexp.getD channelsAll
  if compiles channelRegexp ∧ compiles regexp.contentRegexp then
    { s with
      regexpList := s.regexpList ++ [⟨(channelRegexp, regexp.contentRegexp), some regexp.id⟩] }
  else s

/-- `regexp_remove` -/
def regexpRemove (s : State σ) (key : CString × CString) : State σ :=
  { s with regexpList := remove 0 key s.regexpList }

/-- `botCmd_add` -/
def botCmdAdd (s : State σ) (cmd : LuaBotCmd) (taken : Bool) : State σ :=
  if taken then
    { s with botCmdTree := s.botCmdTree ++ [⟨caseless cmd.command, some cmd.id⟩] }
  else s

/-- `botCmd_remove` -/
def botCmdRemove (s : State σ) (command : CString) (which : ℕ) : State σ :=
  { s with botCmdTree := remove which (caseless command) s.botCmdTree }

/-- `lua_regexp_add` -/
def luaRegexpAdd (compiles : CString → Bool) (s : State σ) (luascript : σ)
    (channelRegexp contentRegexp : Option CString) : Option (State σ) :=
  match contentRegexp with
  | none => none
  | some contentRegexp =>
      let regexp : LuaRegexp := ⟨s.fresh, channelRegexp, contentRegexp⟩
      let s := { s with
        regexps := Function.update s.regexps luascript (s.regexps luascript ++ [regexp])
        fresh := s.fresh + 1 }
      some (s.regexpAdd compiles regexp)

/-- `luaTrashRegexp` -/
def luaTrashRegexp (s : State σ) (luascript : σ) (regexp : LuaRegexp) : State σ :=
  let s := s.regexpRemove regexp.key
  { s with regexps :=
      Function.update s.regexps luascript (regexpScheme.drop (s.regexps luascript) regexp.id) }

/-- `lua_regexp_remove` -/
def luaRegexpRemove (s : State σ) (luascript : σ) (channelRegexp contentRegexp : CString) :
    Option (State σ) :=
  (findRegexp channelRegexp contentRegexp (s.regexps luascript)).map fun found ↦
    match found with
    | none => s
    | some regexp => s.luaTrashRegexp luascript regexp

/-- `lua_botCmd_add` -/
def luaBotCmdAdd (s : State σ) (luascript : σ) (command : Option CString) (taken : Bool) :
    Option (State σ) :=
  match command with
  | none => none
  | some command =>
      let cmd : LuaBotCmd := ⟨s.fresh, command⟩
      let s := { s with
        commands := Function.update s.commands luascript (s.commands luascript ++ [cmd])
        fresh := s.fresh + 1 }
      some (s.botCmdAdd cmd taken)

/-- `luaTrashCommand` -/
def luaTrashCommand (s : State σ) (luascript : σ) (cmd : LuaBotCmd) (which : ℕ) : State σ :=
  let s := s.botCmdRemove cmd.command which
  { s with commands :=
      Function.update s.commands luascript (commandScheme.drop (s.commands luascript) cmd.id) }

/-- `lua_botCmd_remove` -/
def luaBotCmdRemove (s : State σ) (luascript : σ) (command : CString) (which : ℕ) : State σ :=
  match (s.commands luascript).find? fun cmd ↦ command = cmd.command with
  | none => s
  | some cmd => s.luaTrashCommand luascript cmd which

/-- `luascriptUnloadItem`, after the script's `shutdown`. -/
def luascriptUnloadItem (s : State σ) (luascript : σ) (which : LuaBotCmd → ℕ) : State σ :=
  let s := { s with phase := Function.update s.phase luascript .idle }
  let s := (s.regexps luascript).foldl (fun s regexp ↦ s.luaTrashRegexp luascript regexp) s
  (s.commands luascript).foldl (fun s cmd ↦ s.luaTrashCommand luascript cmd (which cmd)) s

end State

/-- What a script calls. -/
inductive Call
  | regexpAdd (channelRegexp contentRegexp : Option CString)
  | regexpRemove (channelRegexp contentRegexp : CString)
  | botCmdAdd (command : Option CString) (taken : Bool)
  | botCmdRemove (command : CString) (which : ℕ)

/-- A script is loaded up to its `initialize`, or fails before; `initialize` returns or fails; a
script makes a call; a script is unloaded. -/
inductive Event (σ : Type)
  | load (luascript : σ)
  | loadFails (luascript : σ)
  | initialized (luascript : σ) (ok : Bool)
  | call (luascript : σ) (call : Call)
  | unload (luascript : σ) (which : LuaBotCmd → ℕ)

/-- A script runs from its loading on, and later when one of its registrations is called. -/
def Runs (s : State σ) (luascript : σ) : Prop :=
  s.phase luascript ≠ .idle ∨ s.regexps luascript ≠ [] ∨ s.commands luascript ≠ []

instance (s : State σ) (luascript : σ) : Decidable (Runs s luascript) :=
  inferInstanceAs (Decidable (_ ∨ _ ∨ _))

/-- The tree takes a command if it has none of the name. -/
def MayRefuse (s : State σ) (command : CString) : Prop :=
  ∃ e ∈ s.botCmdTree, e.key = caseless command

instance (s : State σ) (command : CString) : Decidable (MayRefuse s command) :=
  inferInstanceAs (Decidable (∃ e ∈ s.botCmdTree, _))

def callStep (compiles : CString → Bool) (s : State σ) (luascript : σ) : Call → Option (State σ)
  | .regexpAdd channelRegexp contentRegexp =>
      s.luaRegexpAdd compiles luascript channelRegexp contentRegexp
  | .regexpRemove channelRegexp contentRegexp =>
      s.luaRegexpRemove luascript channelRegexp contentRegexp
  | .botCmdAdd command taken =>
      if taken ∨ MayRefuse s (command.getD []) then s.luaBotCmdAdd luascript command taken
      else none
  | .botCmdRemove command which => some (s.luaBotCmdRemove luascript command which)

def step (compiles : CString → Bool) (s : State σ) : Event σ → Option (State σ)
  | .load luascript =>
      if s.phase luascript = .idle then
        some { s with phase := Function.update s.phase luascript .loading }
      else none
  | .loadFails luascript => if s.phase luascript = .idle then some s else none
  | .initialized luascript ok =>
      if s.phase luascript = .loading then
        some { s with
          phase := Function.update s.phase luascript (if ok then .loaded else .idle) }
      else none
  | .call luascript call =>
      if Runs s luascript then callStep compiles s luascript call else none
  | .unload luascript which =>
      if s.phase luascript = .loaded then some (s.luascriptUnloadItem luascript which) else none

/-- No script was loaded, and the tables hold what is not of scripts. -/
structure Init (s : State σ) : Prop where
  phase : ∀ luascript, s.phase luascript = .idle
  regexps : ∀ luascript, s.regexps luascript = []
  commands : ∀ luascript, s.commands luascript = []
  regexpList : ∀ e ∈ s.regexpList, e.tag = none
  botCmdTree : ∀ e ∈ s.botCmdTree, e.tag = none

def system (compiles : CString → Bool) : System (State σ) (Event σ) := ⟨Init, step compiles⟩

/-! ## What is to hold -/

/-- The entries of scripts are the registrations of the scripts that are loaded or being loaded. -/
structure Live (s : State σ) : Prop where
  regexp_refers : ∀ e ∈ s.regexpList, ∀ i, e.tag = some i →
    ∃ luascript, s.phase luascript ≠ .idle ∧ ∃ regexp ∈ s.regexps luascript, regexp.id = i
  command_refers : ∀ e ∈ s.botCmdTree, ∀ i, e.tag = some i →
    ∃ luascript, s.phase luascript ≠ .idle ∧ ∃ cmd ∈ s.commands luascript, cmd.id = i
  regexp_kept : ∀ luascript, s.phase luascript ≠ .idle → ∀ regexp ∈ s.regexps luascript,
    ⟨regexp.key, some regexp.id⟩ ∈ s.regexpList
  command_kept : ∀ luascript, s.phase luascript ≠ .idle → ∀ cmd ∈ s.commands luascript,
    ⟨cmd.key, some cmd.id⟩ ∈ s.botCmdTree

/-- A script takes back registrations. -/
def Event.Removes (luascript : σ) : Event σ → Prop
  | .call luascript' (.regexpRemove _ _) | .call luascript' (.botCmdRemove _ _) =>
      luascript' = luascript
  | .unload luascript' _ => luascript' = luascript
  | _ => False

/-- The entries that are not of a script are the same as before. -/
def OthersSame (luascript : σ) (s s' : State σ) : Prop :=
  s'.regexpList.filter (fun e ↦ !regexpScheme.own (s.regexps luascript) e) =
      s.regexpList.filter (fun e ↦ !regexpScheme.own (s.regexps luascript) e) ∧
    s'.botCmdTree.filter (fun e ↦ !commandScheme.own (s.commands luascript) e) =
      s.botCmdTree.filter (fun e ↦ !commandScheme.own (s.commands luascript) e)

/-- The steps after which it does: a pattern that is added compiles, and the tree takes a command;
where a registration is taken back, the entry that is met refers to it; a load that fails has
registered nothing; and when a script is unloaded, no entry of others stands before one of its
patterns with the same text, or has the name of one of its commands. -/
def Orderly (compiles : CString → Bool) (s : State σ) : Event σ → Prop
  | .load _ | .loadFails _ => True
  | .initialized luascript ok =>
      ok = true ∨ s.regexps luascript = [] ∧ s.commands luascript = []
  | .call luascript call =>
      match call with
      | .regexpAdd channelRegexp contentRegexp =>
          compiles (channelRegexp.getD channelsAll) = true ∧
            ∀ content, contentRegexp = some content → compiles content = true
      | .regexpRemove channelRegexp contentRegexp =>
          ∀ regexp before found after,
            findRegexp channelRegexp contentRegexp (s.regexps luascript) = some (some regexp) →
            search 0 regexp.key s.regexpList = some (before, found, after) →
            found.tag = some regexp.id
      | .botCmdAdd _ taken => taken = true
      | .botCmdRemove command which =>
          ∀ cmd before found after,
            (s.commands luascript).find? (fun cmd ↦ command = cmd.command) = some cmd →
            search which (caseless cmd.command) s.botCmdTree = some (before, found, after) →
            found.tag = some cmd.id
  | .unload luascript _ =>
      regexpScheme.Foremost (s.regexps luascript) s.regexpList ∧
        commandScheme.Alone (s.commands luascript) s.botCmdTree

/-! ## The steps -/

/-- The two tables hold the registrations of the scripts that are loaded or being loaded. -/
structure Inv (s : State σ) : Prop where
  regexps : regexpScheme.Kept (fun luascript ↦ s.phase luascript ≠ .idle) s.fresh s.regexpList
    s.regexps
  commands : commandScheme.Kept (fun luascript ↦ s.phase luascript ≠ .idle) s.fresh s.botCmdTree
    s.commands

section Steps

variable {compiles : CString → Bool} {s s' : State σ} {luascript : σ}

omit [DecidableEq σ] in
theorem Inv.live (h : Inv s) : Live s where
  regexp_refers := h.regexps.refers
  command_refers := h.commands.refers
  regexp_kept luascript _ _ hregexp := (h.regexps.registered luascript).mem hregexp
  command_kept luascript _ _ hcmd := (h.commands.registered luascript).mem hcmd

omit [DecidableEq σ] in
theorem Init.inv (h : Init s) : Inv s := by
  have hregexps : s.regexps = fun _ ↦ [] := funext h.regexps
  have hcommands : s.commands = fun _ ↦ [] := funext h.commands
  constructor
  · rw [hregexps]
    exact .empty h.regexpList
  · rw [hcommands]
    exact .empty h.botCmdTree

omit [DecidableEq σ] in
/-- A script that runs is loaded or being loaded: another one has no registrations. -/
theorem Inv.running (h : Inv s) (hruns : Runs s luascript) : s.phase luascript ≠ .idle := by
  intro hidle
  rcases hruns with hphase | hregexps | hcommands
  · exact hphase hidle
  · exact hregexps (h.regexps.idle luascript fun hphase ↦ hphase hidle)
  · exact hcommands (h.commands.idle luascript fun hphase ↦ hphase hidle)

theorem Inv.luaRegexpAdd (h : Inv s) (hphase : s.phase luascript ≠ .idle)
    {channelRegexp contentRegexp : Option CString}
    (hchannel : compiles (channelRegexp.getD channelsAll) = true)
    (hcontent : ∀ content, contentRegexp = some content → compiles content = true)
    (he : s.luaRegexpAdd compiles luascript channelRegexp contentRegexp = some s') : Inv s' := by
  cases contentRegexp with
  | none => cases he
  | some contentRegexp =>
      simp only [State.luaRegexpAdd, State.regexpAdd, hchannel, hcontent contentRegexp rfl,
        and_self, if_true, Option.some.injEq] at he
      subst he
      have hkept := h.regexps.add (r := ⟨s.fresh, channelRegexp, contentRegexp⟩) hphase rfl
      exact ⟨hkept, h.commands.mono (fun _ h ↦ h) (Nat.le_succ _)⟩

theorem Inv.luaBotCmdAdd (h : Inv s) (hphase : s.phase luascript ≠ .idle)
    {command : Option CString} (he : s.luaBotCmdAdd luascript command true = some s') :
    Inv s' := by
  cases command with
  | none => cases he
  | some command =>
      simp only [State.luaBotCmdAdd, State.botCmdAdd, if_true, Option.some.injEq] at he
      subst he
      have hkept := h.commands.add (r := ⟨s.fresh, command⟩) hphase rfl
      exact ⟨h.regexps.mono (fun _ h ↦ h) (Nat.le_succ _), hkept⟩

theorem findRegexp_mem {channelRegexp contentRegexp : CString} {regexps : List LuaRegexp}
    {regexp : LuaRegexp} (h : findRegexp channelRegexp contentRegexp regexps = some (some regexp)) :
    regexp ∈ regexps := by
  induction regexps with
  | nil => cases h
  | cons regexp' regexps ih =>
      rw [findRegexp] at h
      split at h
      · cases h
      · split at h
        · cases h
          exact .head _
        · exact .tail _ (ih h)

/-- A pattern is taken back, and the entry that is met is its own. -/
theorem Inv.luaTrashRegexp (h : Inv s) {regexp : LuaRegexp}
    (hmem : regexp ∈ s.regexps luascript)
    (hfound : ∀ before found after,
      search 0 regexp.key s.regexpList = some (before, found, after) →
        found.tag = some regexp.id) :
    Inv (s.luaTrashRegexp luascript regexp) ∧
      OthersSame luascript s (s.luaTrashRegexp luascript regexp) := by
  have hentry : (search 0 regexp.key s.regexpList).isSome :=
    search_isSome ⟨_, (h.regexps.registered luascript).mem hmem, rfl⟩
  obtain ⟨⟨before, found, after⟩, hsearch⟩ := Option.isSome_iff_exists.mp hentry
  have htag := hfound before found after hsearch
  have hlist := (search_some hsearch).1
  have hremove : remove 0 regexp.key s.regexpList = before ++ after := remove_of_search hsearch
  have hregexps := h.regexps
  rw [hlist] at hregexps
  refine ⟨⟨?_, h.commands⟩, ?_, rfl⟩
  · have hkept := hregexps.remove hmem htag
    rw [← hremove] at hkept
    exact hkept
  · have hown : regexpScheme.own (s.regexps luascript) found = true :=
      Scheme.own_iff.mpr ⟨regexp, hmem, htag⟩
    change (remove 0 regexp.key s.regexpList).filter _ = _
    rw [hremove, hlist]
    simp [List.filter_append, hown]

/-- So is a command. -/
theorem Inv.luaTrashCommand (h : Inv s) {cmd : LuaBotCmd} {which : ℕ}
    (hmem : cmd ∈ s.commands luascript)
    (hfound : ∀ before found after,
      search which cmd.key s.botCmdTree = some (before, found, after) →
        found.tag = some cmd.id) :
    Inv (s.luaTrashCommand luascript cmd which) ∧
      OthersSame luascript s (s.luaTrashCommand luascript cmd which) := by
  have hentry : (search which cmd.key s.botCmdTree).isSome :=
    search_isSome ⟨_, (h.commands.registered luascript).mem hmem, rfl⟩
  obtain ⟨⟨before, found, after⟩, hsearch⟩ := Option.isSome_iff_exists.mp hentry
  have htag := hfound before found after hsearch
  have hlist := (search_some hsearch).1
  have hremove : remove which cmd.key s.botCmdTree = before ++ after := remove_of_search hsearch
  have hcommands := h.commands
  rw [hlist] at hcommands
  refine ⟨⟨h.regexps, ?_⟩, rfl, ?_⟩
  · have hkept := hcommands.remove hmem htag
    rw [← hremove] at hkept
    exact hkept
  · have hown : commandScheme.own (s.commands luascript) found = true :=
      Scheme.own_iff.mpr ⟨cmd, hmem, htag⟩
    change (remove which cmd.key s.botCmdTree).filter _ = _
    rw [hremove, hlist]
    simp [List.filter_append, hown]

theorem foldl_luaTrashRegexp (regexps : List LuaRegexp) (s : State σ) :
    regexps.foldl (fun s regexp ↦ s.luaTrashRegexp luascript regexp) s =
      { s with
        regexpList := regexpScheme.trashAll (fun _ ↦ 0) regexps s.regexpList
        regexps := Function.update s.regexps luascript
          (regexps.foldl (fun rest regexp ↦ regexpScheme.drop rest regexp.id)
            (s.regexps luascript)) } := by
  induction regexps generalizing s with
  | nil =>
      rw [List.foldl_nil, List.foldl_nil, Function.update_eq_self]
      rfl
  | cons regexp regexps ih =>
      rw [List.foldl_cons, ih]
      simp only [State.luaTrashRegexp, State.regexpRemove, Function.update_self,
        Function.update_idem, List.foldl_cons]
      rfl

theorem foldl_luaTrashCommand (which : LuaBotCmd → ℕ) (commands : List LuaBotCmd) (s : State σ) :
    commands.foldl (fun s cmd ↦ s.luaTrashCommand luascript cmd (which cmd)) s =
      { s with
        botCmdTree := commandScheme.trashAll which commands s.botCmdTree
        commands := Function.update s.commands luascript
          (commands.foldl (fun rest cmd ↦ commandScheme.drop rest cmd.id)
            (s.commands luascript)) } := by
  induction commands generalizing s with
  | nil =>
      rw [List.foldl_nil, List.foldl_nil, Function.update_eq_self]
      rfl
  | cons cmd commands ih =>
      rw [List.foldl_cons, ih]
      simp only [State.luaTrashCommand, State.botCmdRemove, Function.update_self,
        Function.update_idem, List.foldl_cons]
      rfl

theorem luascriptUnloadItem_eq (which : LuaBotCmd → ℕ) : s.luascriptUnloadItem luascript which =
    { s with
      phase := Function.update s.phase luascript .idle
      regexpList := regexpScheme.trashAll (fun _ ↦ 0) (s.regexps luascript) s.regexpList
      regexps := Function.update s.regexps luascript []
      botCmdTree := commandScheme.trashAll which (s.commands luascript) s.botCmdTree
      commands := Function.update s.commands luascript [] } := by
  have hregexps : (s.regexps luascript).foldl (fun rest regexp ↦ regexpScheme.drop rest regexp.id)
      (s.regexps luascript) = [] := Scheme.foldl_drop
  have hcommands : (s.commands luascript).foldl (fun rest cmd ↦ commandScheme.drop rest cmd.id)
      (s.commands luascript) = [] := Scheme.foldl_drop
  simp only [State.luascriptUnloadItem, foldl_luaTrashRegexp, foldl_luaTrashCommand, hregexps,
    hcommands]

theorem idle_update (luascript' : σ) (hne : luascript' ≠ luascript)
    (h : s.phase luascript' ≠ .idle) :
    Function.update s.phase luascript .idle luascript' ≠ .idle := by
  rwa [Function.update_of_ne hne]

theorem Inv.luascriptUnloadItem (h : Inv s) (which : LuaBotCmd → ℕ)
    (hregexps : regexpScheme.Foremost (s.regexps luascript) s.regexpList)
    (hcommands : commandScheme.Alone (s.commands luascript) s.botCmdTree) :
    Inv (s.luascriptUnloadItem luascript which) ∧
      OthersSame luascript s (s.luascriptUnloadItem luascript which) := by
  obtain ⟨hown, hothers⟩ := Scheme.trashAll_own (Scheme.meets_foremost fun _ ↦ rfl) hregexps
    (h.regexps.registered luascript).countP
  obtain ⟨hown', hothers'⟩ := Scheme.trashAll_own (Scheme.meets_alone which) hcommands
    (h.commands.registered luascript).countP
  rw [luascriptUnloadItem_eq]
  exact ⟨⟨h.regexps.removeAll idle_update hown hothers,
    h.commands.removeAll idle_update hown' hothers'⟩, hothers, hothers'⟩

theorem phase_update {phase : Phase} (hphase : phase ≠ .idle) (luascript' : σ)
    (h : s.phase luascript' ≠ .idle) :
    Function.update s.phase luascript phase luascript' ≠ .idle := by
  by_cases heq : luascript' = luascript
  · subst heq
    rwa [Function.update_self]
  · rwa [Function.update_of_ne heq]

/-- What a step keeps, and what it leaves alone when it takes back registrations. -/
theorem step_inv {e : Event σ} (h : Inv s) (hc : Orderly compiles s e)
    (he : step compiles s e = some s') :
    Inv s' ∧ ∀ luascript, e.Removes luascript → OthersSame luascript s s' := by
  cases e with
  | load luascript =>
      rw [step] at he
      split at he
      · cases he
        exact ⟨⟨h.regexps.mono (phase_update fun h ↦ by cases h) (Nat.le_refl _),
          h.commands.mono (phase_update fun h ↦ by cases h) (Nat.le_refl _)⟩,
          fun _ hremoves ↦ by cases hremoves⟩
      · cases he
  | loadFails luascript =>
      rw [step] at he
      split at he
      · cases he
        exact ⟨h, fun _ hremoves ↦ by cases hremoves⟩
      · cases he
  | initialized luascript ok =>
      rw [step] at he
      split at he
      · cases he
        refine ⟨?_, fun _ hremoves ↦ by cases hremoves⟩
        cases ok with
        | true =>
            exact ⟨h.regexps.mono (phase_update fun h ↦ by cases h) (Nat.le_refl _),
              h.commands.mono (phase_update fun h ↦ by cases h) (Nat.le_refl _)⟩
        | false =>
            rcases hc with hok | ⟨hregexps, hcommands⟩
            · cases hok
            · exact ⟨h.regexps.close hregexps idle_update, h.commands.close hcommands idle_update⟩
      · cases he
  | call luascript call =>
      rw [step] at he
      split at he
      · rename_i hruns
        have hphase := h.running hruns
        cases call with
        | regexpAdd channelRegexp contentRegexp =>
            exact ⟨h.luaRegexpAdd hphase hc.1 hc.2 he, fun _ hremoves ↦ by cases hremoves⟩
        | regexpRemove channelRegexp contentRegexp =>
            obtain ⟨found, hfind, rfl⟩ := Option.map_eq_some_iff.mp he
            cases found with
            | none =>
                refine ⟨h, ?_⟩
                rintro _ rfl
                exact ⟨rfl, rfl⟩
            | some regexp =>
                obtain ⟨hinv, hothers⟩ := h.luaTrashRegexp (findRegexp_mem hfind)
                  fun before found after ↦ hc regexp before found after hfind
                refine ⟨hinv, ?_⟩
                rintro _ rfl
                exact hothers
        | botCmdAdd command taken =>
            obtain rfl : taken = true := hc
            rw [callStep, if_pos (.inl rfl)] at he
            exact ⟨h.luaBotCmdAdd hphase he, fun _ hremoves ↦ by cases hremoves⟩
        | botCmdRemove command which =>
            rw [callStep, State.luaBotCmdRemove, Option.some.injEq] at he
            split at he
            · subst he
              refine ⟨h, ?_⟩
              rintro _ rfl
              exact ⟨rfl, rfl⟩
            · rename_i cmd hfind
              subst he
              obtain ⟨hinv, hothers⟩ := h.luaTrashCommand (List.mem_of_find?_eq_some hfind)
                fun before found after ↦ hc cmd before found after hfind
              refine ⟨hinv, ?_⟩
              rintro _ rfl
              exact hothers
      · cases he
  | unload luascript which =>
      rw [step] at he
      split at he
      · cases he
        obtain ⟨hinv, hothers⟩ := h.luascriptUnloadItem which hc.1 hc.2
        refine ⟨hinv, ?_⟩
        rintro _ rfl
        exact hothers
      · cases he

end Steps

/-- Two scripts that were not loaded, and a pattern of a plugin. -/
def two : State Bool where
  phase _ := .idle
  regexps _ := []
  commands _ := []
  regexpList := [⟨(channelsAll, "fart".toList), none⟩]
  botCmdTree := [⟨"help".toList, none⟩]
  fresh := 0

theorem init_two : Init two where
  phase _ := rfl
  regexps _ := rfl
  commands _ := rfl
  regexpList e he := by
    rcases List.mem_singleton.mp he with rfl
    rfl
  botCmdTree e he := by
    rcases List.mem_singleton.mp he with rfl
    rfl

/-- A script that registers a pattern. -/
def greets (luascript : Bool) : List (Event Bool) :=
  [.load luascript, .call luascript (.regexpAdd none (some "hello".toList)),
    .initialized luascript true]

end Beirdobot.Luascript
