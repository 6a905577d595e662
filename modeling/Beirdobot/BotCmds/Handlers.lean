import Beirdobot.Auth.Walks
import Beirdobot.BotCmds.CommandLine

/-!
# The handlers of the commands

What the functions that are registered with `botCmd_add` do with their argument, up to the
calls of the rest of the bot.  A result `none` is the use of a null pointer.
-/

namespace Beirdobot.BotCmds

open Auth

/-- What is called with texts of a message. -/
inductive Callee
  | helpFunc
  | botCmdDepthFirst
  | pluginLoad
  | pluginUnload
  | luascriptLoad
  | luascriptUnload
  | perlLoad
  | perlUnload
  | luceneSearchText
  | dbGetSeen
  | channelNotice
  | backtraceSymbols
  | getSvnGit
  | fishSelf
  | fishOther
  | fishOtherAdj
  | dbLastUrl
  | dbSearchUrl
  | dbListKeywords
  | dbGetUrlKeyword
  | tracDetails
  | rssfeedList
  | rssfeedShow
  | rssfeedEnable
  | rssfeedDisable
  | mailboxList
  | mailboxShow
  | mailboxEnable
  | mailboxDisable
  | queueEnqueueItem
  | luaPcall
  deriving DecidableEq

inductive Effect
  | say (text : CString)
  | call (callee : Callee) (texts : List CString)
  deriving DecidableEq

/-- The rest of the bot: the sessions, what `FindChannel` finds, and whether a script or a
plugin was loaded or unloaded. -/
structure Bot (ι σ : Type) where
  fuel : ℕ
  sessions : Sessions ι σ
  answers : Answers ι
  findChannel : CString → Bool
  succeeds : Callee → CString → Bool

/-- The arguments of a handler before the message. -/
structure Sender (σ : Type) where
  server : σ
  channel : Bool
  who : CString

variable {ι σ : Type}

/-! ## The commands of the bot itself -/

/-- `botCmdHelp` -/
def botCmdHelp (msg : Option CString) : Option (List Effect) :=
  let msg := msg.getD "help".toList
  some [.call .helpFunc (commandLineParse (some msg)).cmd.toList]

/-- `botCmdList` -/
def botCmdList : Option (List Effect) := some [.call .botCmdDepthFirst []]

def notauth : CString := "You are not authorized, you can't do that!".toList

/-- What differs between the commands for plugins and for scripts. -/
structure Loader where
  split : Option CString → Option (CString × Option CString)
  load : Callee
  unload : Callee
  loaded : CString → CString
  alreadyLoaded : CString → CString
  unloaded : CString → CString
  alreadyUnloaded : CString → CString

/-- The three functions for them. -/
def botCmdLoader [DecidableEq σ] (loader : Loader) (bot : Bot ι σ) (sender : Sender σ)
    (msg : Option CString) : Option (List Effect) :=
  if sender.channel then some []
  else do
    let authorized ← authenticateCheck bot.fuel bot.sessions sender.server sender.who
    if authorized = false then some [.say notauth]
    else do
      let (command, line) ← loader.split msg
      if command = "list".toList then
        some [.call .botCmdDepthFirst (if line = some "all".toList then line.toList else [])]
      else
        match line with
        | none => some []
        | some line =>
            if command = "load".toList then
              some [.call loader.load [line], .say (if bot.succeeds loader.load line
                then loader.loaded line else loader.alreadyLoaded line)]
            else if command = "unload".toList then
              some [.call loader.unload [line], .say (if bot.succeeds loader.unload line
                then loader.unloaded line else loader.alreadyUnloaded line)]
            else some []

/-- `botCmdPlugin` -/
def botCmdPlugin [DecidableEq σ] : Bot ι σ → Sender σ → Option CString → Option (List Effect) :=
  botCmdLoader
    { split := botCmdPluginSplit
      load := .pluginLoad
      unload := .pluginUnload
      loaded := ("Loaded module ".toList ++ ·)
      alreadyLoaded := fun line ↦ "Module ".toList ++ line ++ " already loaded".toList
      unloaded := ("Unloaded module ".toList ++ ·)
      alreadyUnloaded := fun line ↦ "Module ".toList ++ line ++ " already unloaded".toList }

/-- `botCmdLuascript` -/
def botCmdLuascript [DecidableEq σ] :
    Bot ι σ → Sender σ → Option CString → Option (List Effect) :=
  botCmdLoader
    { split := botCmdLuascriptSplit
      load := .luascriptLoad
      unload := .luascriptUnload
      loaded := ("Loaded LUA script ".toList ++ ·)
      alreadyLoaded := fun line ↦ "LUA script ".toList ++ line ++ " already loaded".toList
      unloaded := ("Unloaded LUA script ".toList ++ ·)
      alreadyUnloaded := fun line ↦ "LUA script ".toList ++ line ++ " already unloaded".toList }

/-- `botCmdPerl` -/
def botCmdPerl [DecidableEq σ] : Bot ι σ → Sender σ → Option CString → Option (List Effect) :=
  botCmdLoader
    { split := inlineSplit
      load := .perlLoad
      unload := .perlUnload
      loaded := ("Loaded Perl script ".toList ++ ·)
      alreadyLoaded := fun line ↦ "Perl script ".toList ++ line ++ " already loaded".toList
      unloaded := ("Unloaded Perl script ".toList ++ ·)
      alreadyUnloaded := fun line ↦ "Perl script ".toList ++ line ++ " already unloaded".toList }

/-! ## The commands of the plugins -/

def cantFindChannel (chan : CString) : Effect := .say ("Can't find channel ".toList ++ chan)

/-- `botCmdSearch` and `botCmdSeen`, up to the call with the text. -/
def botCmdLookup (usage : CString) (callee : Callee) (bot : Bot ι σ) (sender : Sender σ)
    (msg : Option CString) : Option (List Effect) :=
  match msg with
  | none => some []
  | some msg =>
      if sender.channel then some [.call callee [msg]]
      else do
        let parsed := commandLineParse (some msg)
        match parsed.line with
        | none => some [.say usage]
        | some message => do
            let chan ← parsed.cmd
            if bot.findChannel chan then some [.call callee [message]]
            else some [cantFindChannel chan]

/-- `botCmdSearch` -/
def botCmdSearch : Bot ι σ → Sender σ → Option CString → Option (List Effect) :=
  botCmdLookup "You must specify \"search #channel text\"".toList .luceneSearchText

/-- `botCmdSeen` -/
def botCmdSeen : Bot ι σ → Sender σ → Option CString → Option (List Effect) :=
  botCmdLookup "You must specify \"seen #channel nick\"".toList .dbGetSeen

/-- `botCmdNotice` -/
def botCmdNotice (bot : Bot ι σ) (sender : Sender σ) (msg : Option CString) :
    Option (List Effect) :=
  if sender.channel then some [.call .channelNotice []]
  else
    match msg with
    | none => some [.say "Try \"help notice\"".toList]
    | some msg =>
        if bot.findChannel msg then some [.call .channelNotice []] else some [cantFindChannel msg]

/-- `botCmdSymbol` -/
def botCmdSymbol (sender : Sender σ) (msg : Option CString) : Option (List Effect) :=
  if sender.channel then some []
  else
    match msg with
    | none => some [.say "Try \"help symbol\"".toList]
    | some msg => some [.call .backtraceSymbols [msg]]

/-- `botCmdSvn` -/
def botCmdSvn (msg : Option CString) : Option (List Effect) :=
  match msg with
  | none => some []
  | some msg =>
      match (commandLineParse (some msg)).cmd with
      | some svnid => some [.call .getSvnGit [svnid]]
      | none => some [.say "You need to specify the SVN version!".toList]

/-- The end of `botCmdFish`: a fish for the sender, or for a target. -/
def slap (msg line : Option CString) : Option (List Effect) :=
  match msg with
  | none => some [.call .fishSelf []]
  | some _ => do
      let parsed := commandLineParse line
      -- `strlen(target)`
      let target ← parsed.cmd
      match parsed.line with
      | some line => some [.call .fishOtherAdj [target, line]]
      | none => some [.call .fishOther [target]]

/-- `botCmdFish`, with the `command` of its tag. -/
def botCmdFish (command : CString) (bot : Bot ι σ) (sender : Sender σ) (msg : Option CString) :
    Option (List Effect) :=
  if sender.channel then slap msg msg
  else
    match msg with
    | none => some [.say ("Try \"help ".toList ++ command ++ "\"".toList)]
    | some msg => do
        let parsed := commandLineParse (some msg)
        let chan ← parsed.cmd
        if bot.findChannel chan then slap (some msg) parsed.line
        else some [cantFindChannel chan]

def urlUsage : CString := "You need to specify \"list\", \"last\" or \"search\"".toList

/-- `botCmdUrl`, from the keyword on. -/
def urlKeyword (msg : Option CString) : Option (List Effect) :=
  let parsed := commandLineParse msg
  match parsed.cmd with
  | none => some [.say "You need to specify the keyword!".toList]
  | some keyword =>
      if keyword.head? = some '-' then
        let parsed := commandLineParse parsed.line
        match parsed.cmd with
        | none => some [.say urlUsage]
        | some keyword =>
            if sameIgnoringCase keyword "last".toList then some [.call .dbLastUrl []]
            else if sameIgnoringCase keyword "search".toList then do
              -- `db_search_url` asks for the length of its text
              let text ← parsed.line
              some [.call .dbSearchUrl [text]]
            else if sameIgnoringCase keyword "list".toList then some [.call .dbListKeywords []]
            else some [.say urlUsage]
      else some [.call .dbGetUrlKeyword (keyword :: parsed.line.toList)]

/-- `botCmdUrl` -/
def botCmdUrl (bot : Bot ι σ) (sender : Sender σ) (msg : Option CString) : Option (List Effect) :=
  match msg with
  | none => some []
  | some msg =>
      if sender.channel then urlKeyword (some msg)
      else do
        let parsed := commandLineParse (some msg)
        match parsed.line with
        | none => some [.say "You must specify \"url #channel keyword [expansion]\"".toList]
        | some msg => do
            let chan ← parsed.cmd
            if bot.findChannel chan then urlKeyword (some msg) else some [cantFindChannel chan]

/-- `botCmdTrac` -/
def botCmdTrac (bot : Bot ι σ) (sender : Sender σ) (msg : Option CString) :
    Option (List Effect) :=
  let parsed := commandLineParse msg
  match parsed.cmd with
  | none => some []
  | some command =>
      if command = "details".toList then
        let parsed := commandLineParse parsed.line
        match parsed.cmd with
        | none => some []
        | some which =>
            if sender.channel then some [.call .tracDetails [which]]
            else
              match (commandLineParse parsed.line).cmd with
              | none => some []
              | some message =>
                  if bot.findChannel message then some [.call .tracDetails [which]] else some []
      else some []

/-- What differs between the feeds and the mailboxes. -/
structure Polled where
  list : Callee
  show_ : Callee
  enable : Callee
  disable : Callee

/-- The two functions for them. -/
def botCmdPolled [DecidableEq σ] (polled : Polled) (bot : Bot ι σ) (sender : Sender σ)
    (msg : Option CString) : Option (List Effect) :=
  let parsed := commandLineParse msg
  match parsed.cmd with
  | none => some []
  | some command =>
      if command = "list".toList then
        some [.call polled.list (if parsed.line = some "all".toList ∨
          parsed.line = some "timeout".toList then parsed.line.toList else [])]
      else if command = "show".toList ∧ parsed.line ≠ none then
        some [.call polled.show_ parsed.line.toList]
      else if sender.channel then some []
      else do
        let authorized ← authenticateCheck bot.fuel bot.sessions sender.server sender.who
        if authorized = false then some [.say notauth]
        else
          match parsed.line with
          | none => some []
          | some line =>
              if command = "enable".toList then some [.call polled.enable [line]]
              else if command = "disable".toList then some [.call polled.disable [line]]
              else some []

/-- `botCmdRssfeed` -/
def botCmdRssfeed [DecidableEq σ] : Bot ι σ → Sender σ → Option CString → Option (List Effect) :=
  botCmdPolled ⟨.rssfeedList, .rssfeedShow, .rssfeedEnable, .rssfeedDisable⟩

/-- `botCmdMailbox` -/
def botCmdMailbox [DecidableEq σ] : Bot ι σ → Sender σ → Option CString → Option (List Effect) :=
  botCmdPolled ⟨.mailboxList, .mailboxShow, .mailboxEnable, .mailboxDisable⟩

/-- `botCmdDig` -/
def botCmdDig (msg : Option CString) : Option (List Effect) :=
  match msg with
  | none => some []
  | some msg => some [.call .queueEnqueueItem [msg]]

/-- `luaCommandFunc`; a null pointer is pushed as `nil`. -/
def luaCommandFunc (msg : Option CString) : Option (List Effect) :=
  some [.call .luaPcall msg.toList]

/-! ## The commands there are -/

/-- The functions that are registered, with their tags. -/
inductive BotCmdFunc
  | help
  | list
  | authenticate
  | plugin
  | luascript
  | perl
  | search
  | seen
  | notice
  | symbol
  | svn
  | fish (command : CString)
  | url
  | trac
  | rssfeed
  | mailbox
  | dig
  | lua
  deriving DecidableEq

/-- A call of one; `authenticate_state_machine` is the one that changes the sessions. -/
def BotCmdFunc.run [DecidableEq ι] [DecidableEq σ] (func : BotCmdFunc) (bot : Bot ι σ)
    (sender : Sender σ) (msg : Option CString) : Option (Sessions ι σ × List Effect) :=
  let keep (effects : Option (List Effect)) := effects.map (bot.sessions, ·)
  match func with
  | .help => keep (botCmdHelp msg)
  | .list => keep botCmdList
  | .authenticate =>
      (authenticateStateMachine bot.fuel bot.sessions sender.server sender.channel sender.who msg
        bot.answers).map (·, [])
  | .plugin => keep (botCmdPlugin bot sender msg)
  | .luascript => keep (botCmdLuascript bot sender msg)
  | .perl => keep (botCmdPerl bot sender msg)
  | .search => keep (botCmdSearch bot sender msg)
  | .seen => keep (botCmdSeen bot sender msg)
  | .notice => keep (botCmdNotice bot sender msg)
  | .symbol => keep (botCmdSymbol sender msg)
  | .svn => keep (botCmdSvn msg)
  | .fish command => keep (botCmdFish command bot sender msg)
  | .url => keep (botCmdUrl bot sender msg)
  | .trac => keep (botCmdTrac bot sender msg)
  | .rssfeed => keep (botCmdRssfeed bot sender msg)
  | .mailbox => keep (botCmdMailbox bot sender msg)
  | .dig => keep (botCmdDig msg)
  | .lua => keep (luaCommandFunc msg)

/-- `botCmd_parse`, with what the handler does. -/
def handle [DecidableEq ι] [DecidableEq σ] (botCmdTree : List (CString × BotCmdFunc))
    (bot : Bot ι σ) (sender : Sender σ) (msg : CString) : Option (Sessions ι σ × List Effect) :=
  match (botCmdParse botCmdTree msg).1 with
  | none => some (bot.sessions, [])
  | some (func, line) => func.run bot sender line

/-! ## Which arguments are used -/

section Accepted

variable [DecidableEq σ] {bot : Bot ι σ} {sender : Sender σ} {xs : List ι} {msg : Option CString}

/-- The sender has authenticated, by the records of `AuthList`. -/
def Accepted (bot : Bot ι σ) (xs : List ι) (sender : Sender σ) : Prop :=
  ∃ x, firstOf bot.sessions xs sender.server sender.who = some x ∧
    (bot.sessions.auth x).state = .accepted

/-- `AuthList` holds its records, nobody has locked it, and there is time for a walk. -/
structure Bot.Ready (bot : Bot ι σ) (xs : List ι) : Prop where
  holds : Linked.Holds bot.sessions.list xs
  unlocked : bot.sessions.list.mutex = false
  fuel_le : xs.length ≤ bot.fuel

theorem Bot.Ready.lookup (h : bot.Ready xs) (sender : Sender σ) :
    Auth.lookup bot.fuel bot.sessions sender.server sender.who =
      some (firstOf bot.sessions xs sender.server sender.who) := by
  obtain ⟨r, hr⟩ := Option.isSome_iff_exists.mp
    (lookup_isSome h.holds h.unlocked sender.server sender.who h.fuel_le)
  rw [hr, lookup_eq h.holds hr]

theorem Bot.Ready.check (h : bot.Ready xs) (sender : Sender σ) :
    ∃ authorized, authenticateCheck bot.fuel bot.sessions sender.server sender.who =
      some authorized ∧ (authorized = true ↔ Accepted bot xs sender) := by
  rw [authenticateCheck, h.lookup sender]
  rcases hfirst : firstOf bot.sessions xs sender.server sender.who with _ | x
  · refine ⟨false, rfl, Bool.false_ne_true.elim, ?_⟩
    rintro ⟨x, hx, -⟩
    rw [hfirst] at hx
    cases hx
  · refine ⟨_, rfl, fun hstate ↦ ⟨x, hfirst, eq_of_beq hstate⟩, ?_⟩
    rintro ⟨y, hy, hstate⟩
    rw [hfirst] at hy
    cases hy
    exact beq_iff_eq.mpr hstate

theorem inlineSplit_some (text : CString) : (inlineSplit (some text)).isSome = true := by
  rw [inlineSplit]
  split <;> rfl

/-- The commands for plugins and scripts use the argument of who has authenticated. -/
theorem botCmdLoader_isSome_iff (h : bot.Ready xs) {loader : Loader}
    (hsplit : loader.split = inlineSplit) :
    (botCmdLoader loader bot sender msg).isSome = true ↔
      sender.channel = true ∨ ¬ Accepted bot xs sender ∨ msg ≠ none := by
  rw [botCmdLoader]
  by_cases hchannel : sender.channel = true
  · rw [if_pos hchannel]
    exact iff_of_true rfl (.inl hchannel)
  · obtain ⟨authorized, hcheck, haccepted⟩ := h.check sender
    rw [if_neg hchannel, hcheck, or_iff_right hchannel, ← haccepted, hsplit]
    cases authorized with
    | false => exact iff_of_true rfl (.inl Bool.false_ne_true)
    | true =>
        rw [or_iff_right (not_not_intro rfl)]
        cases msg with
        | none => exact iff_of_false Bool.false_ne_true (not_not_intro rfl)
        | some text =>
            refine iff_of_true ?_ nofun
            obtain ⟨⟨command, line⟩, hread⟩ := Option.isSome_iff_exists.mp (inlineSplit_some text)
            rw [hread]
            dsimp only [Option.bind_eq_bind, Option.bind_some]
            rw [if_neg Bool.noConfusion]
            split
            · rfl
            · split
              · rfl
              · split
                · rfl
                · split <;> rfl

/-- The commands for feeds and mailboxes look whether there is one. -/
theorem botCmdPolled_isSome (h : bot.Ready xs) (polled : Polled) :
    (botCmdPolled polled bot sender msg).isSome = true := by
  obtain ⟨authorized, hcheck, -⟩ := h.check sender
  rw [botCmdPolled, hcheck]
  dsimp only [Option.bind_eq_bind, Option.bind_some]
  split
  · rfl
  · split
    · rfl
    · split
      · rfl
      · split
        · rfl
        · split
          · rfl
          · split
            · rfl
            · split
              · rfl
              · split <;> rfl

omit [DecidableEq σ] in
theorem sendChallenge_isSome [DecidableEq ι] (h : bot.Ready xs) (server : σ) (nick : CString) :
    (sendChallenge bot.sessions server nick bot.answers).isSome = true := by
  rw [sendChallenge]
  split
  · rfl
  · have hadd (item : ι) :
        (Linked.linkedListAdd bot.sessions.list (some item) .unlocked .atHead).isSome = true := by
      simp only [Linked.linkedListAdd, Linked.enter, Linked.linkedListLock, h.unlocked]
      rfl
    obtain ⟨list, hlist⟩ := Option.isSome_iff_exists.mp (hadd ‹_›)
    dsimp only [Sessions.setAuth]
    rw [hlist]
    rfl

theorem accepted_iff {x : ι} (hfirst : firstOf bot.sessions xs sender.server sender.who = some x) :
    Accepted bot xs sender ↔ (bot.sessions.auth x).state = .accepted := by
  constructor
  · rintro ⟨y, hy, hstate⟩
    rw [hfirst] at hy
    cases hy
    exact hstate
  · exact fun hstate ↦ ⟨x, hfirst, hstate⟩

/-- So does `authenticate`. -/
theorem authenticateStateMachine_isSome_iff [DecidableEq ι] (h : bot.Ready xs) :
    (authenticateStateMachine bot.fuel bot.sessions sender.server sender.channel sender.who msg
        bot.answers).isSome = true ↔
      sender.channel = true ∨ ¬ Accepted bot xs sender ∨ msg ≠ none := by
  rw [authenticateStateMachine]
  by_cases hchannel : sender.channel = true
  · rw [if_pos hchannel]
    exact iff_of_true rfl (.inl hchannel)
  · rw [if_neg hchannel, or_iff_right hchannel, h.lookup sender]
    rcases hfirst : firstOf bot.sessions xs sender.server sender.who with _ | x
    · refine iff_of_true (sendChallenge_isSome h _ _) (.inl ?_)
      rintro ⟨x, hx, -⟩
      rw [hfirst] at hx
      cases hx
    · rw [accepted_iff hfirst]
      dsimp only [Option.bind_eq_bind, Option.bind_some]
      cases hstate : (bot.sessions.auth x).state with
      | accepted =>
          rw [or_iff_right (not_not_intro rfl)]
          cases msg with
          | none => exact iff_of_false Bool.false_ne_true (not_not_intro rfl)
          | some text => exact iff_of_true rfl nofun
      | none => exact iff_of_true rfl (.inl nofun)
      | challenge => exact iff_of_true rfl (.inl nofun)
      | rejected => exact iff_of_true rfl (.inl nofun)
      | timedout => exact iff_of_true rfl (.inl nofun)
      | disconnect => exact iff_of_true rfl (.inl nofun)

end Accepted

section Plain

variable {bot : Bot ι σ} {sender : Sender σ} {msg : Option CString} {text : CString}

theorem botCmdLookup_isSome (usage : CString) (callee : Callee) :
    (botCmdLookup usage callee bot sender msg).isSome = true := by
  cases msg with
  | none => rfl
  | some text =>
      rw [botCmdLookup]
      dsimp only
      split
      · rfl
      · rw [commandLineParse_cmd]
        split
        · rfl
        · dsimp only [Option.bind_eq_bind, Option.bind_some]
          split <;> rfl

theorem botCmdNotice_isSome : (botCmdNotice bot sender msg).isSome = true := by
  cases msg with
  | none =>
      rw [botCmdNotice]
      split <;> rfl
  | some text =>
      rw [botCmdNotice]
      split
      · rfl
      · split <;> rfl

theorem botCmdSymbol_isSome : (botCmdSymbol sender msg).isSome = true := by
  cases msg <;> rw [botCmdSymbol] <;> split <;> rfl

theorem botCmdSvn_isSome : (botCmdSvn msg).isSome = true := by
  cases msg with
  | none => rfl
  | some text =>
      rw [botCmdSvn, commandLineParse_cmd]
      rfl

theorem botCmdTrac_isSome : (botCmdTrac bot sender msg).isSome = true := by
  rw [botCmdTrac]
  dsimp only
  split
  · rfl
  · split
    · split
      · rfl
      · split
        · rfl
        · split
          · rfl
          · split <;> rfl
    · rfl

theorem botCmdDig_isSome : (botCmdDig msg).isSome = true := by cases msg <;> rfl

theorem orNull_of_ne (hne : text ≠ []) : orNull text = some text := if_neg hne

theorem slap_isSome_iff (text line : CString) :
    (slap (some text) (orNull line)).isSome = true ↔ line ≠ [] := by
  by_cases hline : line = []
  · subst hline
    exact iff_of_false Bool.false_ne_true (not_not_intro rfl)
  · refine iff_of_true ?_ hline
    rw [orNull_of_ne hline, slap, commandLineParse_cmd]
    dsimp only [Option.bind_eq_bind, Option.bind_some]
    split <;> rfl

/-- A fish uses a target behind a channel. -/
theorem botCmdFish_isSome_iff (command : CString) (text : CString) :
    (botCmdFish command bot sender (orNull text)).isSome = true ↔
      sender.channel = true ∨ text = [] ∨ bot.findChannel (word text) = false ∨
        argument text ≠ [] := by
  by_cases hne : text = []
  · subst hne
    refine iff_of_true ?_ (.inr (.inl rfl))
    have hnull : orNull [] = none := rfl
    rw [hnull, botCmdFish]
    split <;> rfl
  · have hslap := (slap_isSome_iff text text).mpr hne
    rw [orNull_of_ne hne] at hslap ⊢
    rw [botCmdFish, or_iff_right (a := text = []) hne]
    by_cases hchannel : sender.channel = true
    · rw [if_pos hchannel]
      exact iff_of_true hslap (.inl hchannel)
    · rw [if_neg hchannel, or_iff_right hchannel]
      dsimp only
      rw [commandLineParse_cmd, commandLineParse_line]
      dsimp only [Option.bind_eq_bind, Option.bind_some]
      cases hfound : bot.findChannel (word text) with
      | false => exact iff_of_true rfl (.inl rfl)
      | true =>
          rw [if_pos rfl, slap_isSome_iff]
          exact (or_iff_right Bool.noConfusion).symm

/-- The search through the addresses, without a text to search for. -/
def SearchesNothing (text : CString) : Prop :=
  (word text).head? = some '-' ∧
    sameIgnoringCase (word (argument text)) "search".toList = true ∧
    argument (argument text) = []

theorem urlKeyword_isSome_iff (text : CString) :
    (urlKeyword (some text)).isSome = true ↔ ¬ SearchesNothing text := by
  rw [urlKeyword, SearchesNothing, commandLineParse_cmd, commandLineParse_line]
  dsimp only
  by_cases hdash : (word text).head? = some '-'
  · rw [if_pos hdash]
    by_cases hne : argument text = []
    · rw [hne]
      refine iff_of_true rfl ?_
      rintro ⟨-, hsearch, -⟩
      cases hsearch
    · rw [orNull_of_ne hne, commandLineParse_cmd, commandLineParse_line]
      dsimp only
      by_cases hsearch : sameIgnoringCase (word (argument text)) "search".toList = true
      · have hlast : ¬ sameIgnoringCase (word (argument text)) "last".toList = true := by
          intro hlast
          have hboth := sameIgnoringCase_trans (sameIgnoringCase_symm hlast) hsearch
          cases hboth
        rw [if_neg hlast, if_pos hsearch, orNull]
        by_cases htext : argument (argument text) = []
        · rw [if_pos htext]
          exact iff_of_false Bool.false_ne_true (not_not_intro ⟨hdash, hsearch, htext⟩)
        · rw [if_neg htext]
          exact iff_of_true rfl fun h ↦ htext h.2.2
      · refine iff_of_true ?_ fun h ↦ hsearch h.2.1
        rw [if_neg hsearch]
        split
        · rfl
        · split <;> rfl
  · rw [if_neg hdash]
    exact iff_of_true rfl fun h ↦ hdash h.1

theorem not_searchesNothing_nil : ¬ SearchesNothing [] := by
  rintro ⟨hdash, -⟩
  cases hdash

/-- The addresses use a text to search for. -/
theorem botCmdUrl_isSome_iff (text : CString) :
    (botCmdUrl bot sender (orNull text)).isSome = true ↔
      (sender.channel = true → ¬ SearchesNothing text) ∧
      (sender.channel = false → bot.findChannel (word text) = true →
        ¬ SearchesNothing (argument text)) := by
  by_cases hne : text = []
  · subst hne
    exact iff_of_true rfl ⟨fun _ ↦ not_searchesNothing_nil, fun _ _ ↦ not_searchesNothing_nil⟩
  · rw [orNull_of_ne hne, botCmdUrl]
    cases hchannel : sender.channel with
    | true =>
        rw [if_pos rfl, urlKeyword_isSome_iff]
        exact ⟨fun h ↦ ⟨fun _ ↦ h, nofun⟩, fun h ↦ h.1 rfl⟩
    | false =>
        rw [if_neg Bool.false_ne_true]
        dsimp only
        rw [commandLineParse_cmd, commandLineParse_line]
        by_cases hnil : argument text = []
        · rw [hnil]
          exact iff_of_true rfl ⟨nofun, fun _ _ ↦ not_searchesNothing_nil⟩
        · rw [orNull_of_ne hnil]
          dsimp only [Option.bind_eq_bind, Option.bind_some]
          cases hfound : bot.findChannel (word text) with
          | false => exact iff_of_true rfl ⟨nofun, fun _ ↦ nofun⟩
          | true =>
              rw [if_pos rfl, urlKeyword_isSome_iff]
              exact ⟨fun h ↦ ⟨nofun, fun _ _ ↦ h⟩, fun h ↦ h.2 rfl rfl⟩

end Plain

/-! ## Every command -/

section Commands

variable [DecidableEq ι] [DecidableEq σ] {bot : Bot ι σ} {sender : Sender σ} {xs : List ι}

/-- The arguments that a command needs are there: `accepted` is whether the sender has
authenticated, `text` what stands behind the command, without the blanks around it. -/
def Suffices (accepted : Prop) (findChannel : CString → Bool) (channel : Bool) (text : CString) :
    BotCmdFunc → Prop
  | .authenticate | .plugin | .luascript | .perl => channel = true ∨ ¬ accepted ∨ text ≠ []
  | .fish _ => channel = true ∨ text = [] ∨ findChannel (word text) = false ∨ argument text ≠ []
  | .url => (channel = true → ¬ SearchesNothing text) ∧
      (channel = false → findChannel (word text) = true → ¬ SearchesNothing (argument text))
  | _ => True

theorem orNull_ne_none (text : CString) : orNull text ≠ none ↔ text ≠ [] := by
  rw [orNull]
  split
  · exact iff_of_false (not_not_intro rfl) (not_not_intro ‹_›)
  · exact iff_of_true (Option.some_ne_none _) ‹_›

theorem run_isSome_iff (h : bot.Ready xs) (func : BotCmdFunc) (text : CString) :
    (func.run bot sender (orNull text)).isSome = true ↔
      Suffices (Accepted bot xs sender) bot.findChannel sender.channel text func := by
  cases func with
  | help => exact iff_of_true rfl trivial
  | list => exact iff_of_true rfl trivial
  | authenticate =>
      rw [BotCmdFunc.run, Option.isSome_map, authenticateStateMachine_isSome_iff h, orNull_ne_none]
      rfl
  | plugin =>
      rw [BotCmdFunc.run, Option.isSome_map, botCmdPlugin, botCmdLoader_isSome_iff h rfl,
        orNull_ne_none]
      rfl
  | luascript =>
      rw [BotCmdFunc.run, Option.isSome_map, botCmdLuascript, botCmdLoader_isSome_iff h rfl,
        orNull_ne_none]
      rfl
  | perl =>
      rw [BotCmdFunc.run, Option.isSome_map, botCmdPerl, botCmdLoader_isSome_iff h rfl,
        orNull_ne_none]
      rfl
  | search =>
      rw [BotCmdFunc.run, Option.isSome_map]
      exact iff_of_true (botCmdLookup_isSome _ _) trivial
  | seen =>
      rw [BotCmdFunc.run, Option.isSome_map]
      exact iff_of_true (botCmdLookup_isSome _ _) trivial
  | notice =>
      rw [BotCmdFunc.run, Option.isSome_map]
      exact iff_of_true botCmdNotice_isSome trivial
  | symbol =>
      rw [BotCmdFunc.run, Option.isSome_map]
      exact iff_of_true botCmdSymbol_isSome trivial
  | svn =>
      rw [BotCmdFunc.run, Option.isSome_map]
      exact iff_of_true botCmdSvn_isSome trivial
  | fish command =>
      rw [BotCmdFunc.run, Option.isSome_map, botCmdFish_isSome_iff]
      rfl
  | url =>
      rw [BotCmdFunc.run, Option.isSome_map, botCmdUrl_isSome_iff]
      rfl
  | trac =>
      rw [BotCmdFunc.run, Option.isSome_map]
      exact iff_of_true botCmdTrac_isSome trivial
  | rssfeed =>
      rw [BotCmdFunc.run, Option.isSome_map]
      exact iff_of_true (botCmdPolled_isSome h _) trivial
  | mailbox =>
      rw [BotCmdFunc.run, Option.isSome_map]
      exact iff_of_true (botCmdPolled_isSome h _) trivial
  | dig =>
      rw [BotCmdFunc.run, Option.isSome_map]
      exact iff_of_true botCmdDig_isSome trivial
  | lua => exact iff_of_true rfl trivial

/-- A message is handled without the use of an argument that is not there if and only if
the arguments that its command needs are there. -/
theorem handle_isSome_iff (h : bot.Ready xs) (botCmdTree : List (CString × BotCmdFunc))
    (sender : Sender σ) (msg : CString) :
    (handle botCmdTree bot sender msg).isSome = true ↔
      ∀ item, botCmdTree.find? (fun item ↦ sameIgnoringCase (word msg) item.1) = some item →
        Suffices (Accepted bot xs sender) bot.findChannel sender.channel (argument msg) item.2 := by
  have hparse : (botCmdParse botCmdTree msg).1 =
      (botCmdTree.find? fun item ↦ sameIgnoringCase (word msg) item.1).map
        fun item ↦ (item.2, orNull (argument msg)) := by
    rw [botCmdParse, commandLineParse_cmd, commandLineParse_line]
    rfl
  rw [handle, hparse]
  rcases hitem : botCmdTree.find? (fun item ↦ sameIgnoringCase (word msg) item.1) with _ | ⟨name, func⟩
  · rw [hitem]
    refine iff_of_true rfl fun item h ↦ ?_
    cases h
  · rw [hitem, Option.map_some]
    dsimp only
    rw [run_isSome_iff h]
    constructor
    · rintro hs _ ⟨⟩
      exact hs
    · exact fun hs ↦ hs _ rfl

end Commands

/-- A bot with one user, in some state. -/
def oneUser (state : AuthState) : Bot ℕ Unit where
  fuel := 1
  sessions :=
    { list :=
        { next := fun _ ↦ none, prev := fun _ ↦ none, head := some 0, tail := some 0
          owner := fun _ ↦ some 0, self := 0, mutex := false }
      auth := fun _ ↦
        { server := (), nick := "ann".toList, state, wakeTime := 0
          otp := ⟨"md5".toList, "seed".toList, 99, "9e876134d90499dd".toList⟩ }
      live := fun _ ↦ true
      outbox := [] }
  answers := ⟨0, none, [], false, ⟨[], [], 0, []⟩⟩
  findChannel := fun _ ↦ true
  succeeds := fun _ _ ↦ true

theorem oneUser_ready (state : AuthState) : (oneUser state).Ready [0] where
  holds :=
    { head_eq := rfl, tail_eq := rfl, seg := ⟨rfl, rfl, trivial⟩, nodup := List.nodup_singleton 0
      owner := fun _ _ ↦ rfl }
  unlocked := rfl
  fuel_le := Nat.le_refl 1

def someCommands : List (CString × BotCmdFunc) :=
  [("authenticate".toList, .authenticate), ("plugin".toList, .plugin),
    ("luascript".toList, .luascript), ("trout".toList, .fish "trout".toList), ("url".toList, .url)]

theorem handle_isSome_iff_logoff :
    (handle someCommands (oneUser .accepted) ⟨(), false, "ann".toList⟩
      "authenticate logoff".toList).isSome = true := by
  refine (handle_isSome_iff (oneUser_ready .accepted) _ _ _).mpr fun item hitem ↦ ?_
  have hfound : someCommands.find? (fun item ↦ sameIgnoringCase (word "authenticate logoff".toList)
      item.1) = some ("authenticate".toList, .authenticate) := rfl
  rw [hfound] at hitem
  cases hitem
  exact .inr (.inr (by decide))

/-- Once a user is authenticated, a command without its argument is a crash. -/
theorem not_handle_isSome :
    (handle someCommands (oneUser .accepted) ⟨(), false, "ann".toList⟩
        "authenticate".toList).isSome = false ∧
      (handle someCommands (oneUser .accepted) ⟨(), false, "ann".toList⟩
        "plugin  ".toList).isSome = false ∧
      (handle someCommands (oneUser .none) ⟨(), false, "ann".toList⟩
        "trout #talk".toList).isSome = false ∧
      (handle someCommands (oneUser .none) ⟨(), true, "ann".toList⟩
        "url -x search".toList).isSome = false := by
  refine ⟨rfl, rfl, rfl, rfl⟩

end Beirdobot.BotCmds
