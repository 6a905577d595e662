import Beirdobot.Mysql.Query
import Mathlib.Data.List.TakeWhile

/-!
# The nick of a message

Transcriptions of `db_add_logentry`, `db_update_nick` and `db_flush_nick` of `mysql.c`,
and of `BN_ExtractNick` of the botnet library.  The block for the nick is as long as the
string that the nick is cut from.
-/

namespace Beirdobot.Mysql.Nicks

/-- The string that stands before a message of IRC. -/
abbrev Sender := {s : CString // '\x00' ∉ s}

/-- The blocks that `malloc` returns, with what happens to be in them. -/
structure Heap where
  block : ℕ → List Char
  length_block : ∀ size, (block size).length = size

/-- `IRCMsgType_t` -/
inductive IrcMsgType
  | message
  | action
  | topic
  | kick
  | mode
  | nick
  | join
  | part
  | quit
  deriving DecidableEq

/-- The number of a constant of `IRCMsgType_t`. -/
def IrcMsgType.toInt (type : IrcMsgType) : ℤ := type.ctorIdx

/-- A call of `db_queue_query` with an entry of `QueryTable`. -/
structure QueuedQuery where
  queryId : ℕ
  data : List MysqlBind
  deriving DecidableEq

/-- What a call queues, and what it gives to `clucene_add`. -/
structure Recorded where
  queries : List QueuedQuery
  indexed : List (ℤ × CString × CString × ℤ)
  deriving DecidableEq

/-- `BN_ExtractNick`; to copy a negative number of bytes, or more than there is room for, is
to write outside. -/
def bnExtractNick (who : CString) (nick : List Char) (length : ℤ) : Option (List Char) :=
  -- `strchr( Prefix, '!' )`
  let p : ℤ :=
    match who.idxOf? '!' with
    | none => who.length
    | some i => i
  let p := if p ≥ length then length - 1 else p
  if 0 ≤ p ∧ p + 1 ≤ nick.length then
    some (who.take p.toNat ++ '\x00' :: nick.drop (p.toNat + 1))
  else none

/-- A C string in memory. -/
def readString (block : List Char) : CString := block.takeWhile (· ≠ '\x00')

/-- The allocation of `nickOnly`. -/
def nickOnly (heap : Heap) (nick : Sender) : Option CString :=
  (bnExtractNick nick.val (heap.block nick.val.length) nick.val.length).map readString

/-- What `db_add_logentry` does once it has `nickOnly`. -/
def logentry (channelId : ℤ) (nickOnly : CString) (msgType : IrcMsgType) (text : CString)
    (now : ℤ) : Recorded where
  queries :=
    [⟨2,
      [bindNumeric .cleared channelId .long, bindNumeric .cleared now .longlong,
        bindString .cleared (some nickOnly) .varString,
        bindNumeric .cleared msgType.toInt .long, bindString .cleared (some text) .blob]⟩]
  indexed :=
    if msgType = .message ∨ msgType = .action then [(channelId, nickOnly, text, now)] else []

/-- `db_add_logentry` -/
def dbAddLogentry (heap : Heap) (channel : Option ℤ) (nick : Option Sender)
    (msgType : IrcMsgType) (text : Option CString) (extract : Bool) (now : ℤ) :
    Option Recorded :=
  match channel, nick, text with
  | some channelId, some nick, some text =>
      if extract then
        (nickOnly heap nick).map fun nickOnly ↦ logentry channelId nickOnly msgType text now
      else some (logentry channelId nick.val msgType text now)
  | _, _, _ => some ⟨[], []⟩

/-- What `db_update_nick` does once it has `nickOnly`. -/
def nickUpdate (channelId : ℤ) (nickOnly : CString) (present : Bool) (now : ℤ) : Recorded where
  queries :=
    [⟨3,
      [bindNumeric .cleared channelId .long, bindString .cleared (some nickOnly) .varString,
        bindNumeric .cleared now .longlong, bindNumeric .cleared present.toInt .long]⟩]
  indexed := []

/-- `db_update_nick` -/
def dbUpdateNick (heap : Heap) (channel : Option ℤ) (nick : Option Sender) (present : Bool)
    (extract : Bool) (now : ℤ) : Option Recorded :=
  match channel, nick with
  | some channelId, some nick =>
      if extract then
        (nickOnly heap nick).map fun nickOnly ↦ nickUpdate channelId nickOnly present now
      else some (nickUpdate channelId nick.val present now)
  | _, _ => some ⟨[], []⟩

/-- What `db_flush_nick` does once it has `nickOnly`; `server` is the pointer that comes back
with the result. -/
def nickFlush (serverId server : ℤ) (nickOnly : CString) (type : IrcMsgType)
    (text newNick : Option CString) : Recorded where
  queries :=
    [⟨7,
      [bindNumeric .cleared serverId .long, bindString .cleared (some nickOnly) .varString,
        bindString .cleared text .blob, bindString .cleared newNick .varString,
        bindNumeric .cleared type.toInt .long, bindNullBlob .cleared (.integer server)]⟩]
  indexed := []

/-- `db_flush_nick` -/
def dbFlushNick (heap : Heap) (serverId server : ℤ) (nick : Sender) (type : IrcMsgType)
    (text newNick : Option CString) : Option Recorded :=
  (nickOnly heap nick).map fun nickOnly ↦ nickFlush serverId server nickOnly type text newNick

/-! ## The nick that is recorded -/

section Spec

variable (heap : Heap) (nick : Sender)

/-- What stands before the first `!`, or all of it. -/
def nickOf : CString := nick.val.takeWhile (· ≠ '!')

/-- `db_add_logentry` records the nick, and writes inside the block. -/
def Logs : Prop :=
  ∀ channelId msgType text now,
    dbAddLogentry heap (some channelId) (some nick) msgType (some text) true now =
      some (logentry channelId (nickOf nick) msgType text now)

/-- `db_update_nick` does. -/
def Updates : Prop :=
  ∀ channelId present now,
    dbUpdateNick heap (some channelId) (some nick) present true now =
      some (nickUpdate channelId (nickOf nick) present now)

/-- `db_flush_nick` does. -/
def Flushes : Prop :=
  ∀ serverId server type text newNick,
    dbFlushNick heap serverId server nick type text newNick =
      some (nickFlush serverId server (nickOf nick) type text newNick)

end Spec

theorem logentry_injective {channelId : ℤ} {nick nick' : CString} {msgType : IrcMsgType}
    {text : CString} {now : ℤ}
    (h : logentry channelId nick msgType text now = logentry channelId nick' msgType text now) :
    nick = nick' := by
  have hqueries := congrArg Recorded.queries h
  simpa [logentry, bindString] using hqueries

theorem nickUpdate_injective {channelId : ℤ} {nick nick' : CString} {present : Bool} {now : ℤ}
    (h : nickUpdate channelId nick present now = nickUpdate channelId nick' present now) :
    nick = nick' := by
  have hqueries := congrArg Recorded.queries h
  simpa [nickUpdate, bindString] using hqueries

theorem nickFlush_injective {serverId server : ℤ} {nick nick' : CString} {type : IrcMsgType}
    {text newNick : Option CString}
    (h : nickFlush serverId server nick type text newNick =
      nickFlush serverId server nick' type text newNick) : nick = nick' := by
  have hqueries := congrArg Recorded.queries h
  simpa [nickFlush, bindString] using hqueries

theorem readString_append {s : CString} (hs : '\x00' ∉ s) (rest : List Char) :
    readString (s ++ '\x00' :: rest) = s := by
  rw [readString, List.takeWhile_append_of_pos, List.takeWhile_cons_of_neg (by simp),
    List.append_nil]
  intro c hc
  refine decide_eq_true ?_
  rintro rfl
  exact hs hc

/-- The block is read back as far as it was copied. -/
theorem nickOnly_eq (heap : Heap) (nick : Sender) {p : ℤ} {n : ℕ}
    (hp : (match nick.val.idxOf? '!' with | none => (nick.val.length : ℤ) | some i => i) = p)
    (hn : (if p ≥ nick.val.length then (nick.val.length : ℤ) - 1 else p) = n)
    (hfits : n + 1 ≤ nick.val.length) : nickOnly heap nick = some (nick.val.take n) := by
  have hroom : (n : ℤ) + 1 ≤ (heap.block nick.val.length).length := by
    rw [heap.length_block]
    omega
  have hfree : '\x00' ∉ nick.val.take n := fun hmem ↦ nick.property (List.mem_of_mem_take hmem)
  rw [nickOnly, bnExtractNick, hp, hn, if_pos ⟨Int.natCast_nonneg n, hroom⟩, Option.map_some,
    Int.toNat_natCast, readString_append hfree]

/-- A nick with a `!` behind it is copied as it is. -/
theorem nickOnly_of_mem (heap : Heap) {nick : Sender} (h : '!' ∈ nick.val) :
    nickOnly heap nick = some (nickOf nick) := by
  obtain ⟨before, behind, hnick, hbefore⟩ := List.eq_append_cons_of_mem h
  have hlength : before.length + 1 ≤ nick.val.length := by
    rw [hnick, List.length_append, List.length_cons]
    omega
  have hindex : nick.val.idxOf? '!' = some before.length := by
    rw [List.idxOf?_eq_some_iff]
    refine ⟨hlength, ?_, fun i hi heq ↦ hbefore ?_⟩
    · simp only [hnick, List.getElem_append_right (Nat.le_refl _), Nat.sub_self,
        List.getElem_cons_zero]
    · simp only [hnick, List.getElem_append_left hi] at heq
      exact heq ▸ List.getElem_mem hi
  have hof : nickOf nick = before := by
    rw [nickOf, hnick, List.takeWhile_append_of_pos, List.takeWhile_cons_of_neg (by simp),
      List.append_nil]
    intro c hc
    refine decide_eq_true ?_
    rintro rfl
    exact hbefore hc
  rw [nickOnly_eq heap nick (by rw [hindex]) (if_neg (by omega)) hlength, hof, hnick,
    List.take_left]

/-- Without a `!` there is no room for the last character, nor for the NUL of an empty nick. -/
theorem nickOnly_of_not_mem (heap : Heap) {nick : Sender} (h : '!' ∉ nick.val) :
    nickOnly heap nick = if nick.val = [] then none else some nick.val.dropLast := by
  have hindex : nick.val.idxOf? '!' = none := List.idxOf?_eq_none_iff.mpr h
  by_cases hnil : nick.val = []
  · rw [if_pos hnil, nickOnly, bnExtractNick, hindex, hnil]
    rfl
  · have hpos := List.length_pos_iff.mpr hnil
    rw [if_neg hnil, List.dropLast_eq_take,
      nickOnly_eq heap nick (n := nick.val.length - 1) (by rw [hindex]) ?_ (by omega)]
    rw [if_pos (Int.le_refl _)]
    omega

theorem nickOnly_iff (heap : Heap) (nick : Sender) :
    nickOnly heap nick = some (nickOf nick) ↔ '!' ∈ nick.val := by
  refine ⟨fun hnick ↦ ?_, nickOnly_of_mem heap⟩
  by_contra hmem
  have hof : nickOf nick = nick.val := by
    refine List.takeWhile_eq_self_iff.mpr fun c hc ↦ decide_eq_true ?_
    rintro rfl
    exact hmem hc
  rw [nickOnly_of_not_mem heap hmem, hof] at hnick
  split at hnick
  · cases hnick
  · rename_i hnil
    have hlength := congrArg List.length (Option.some.inj hnick)
    rw [List.length_dropLast] at hlength
    have hpos := List.length_pos_iff.mpr hnil
    omega

/-- Through a function that keeps its nick apart from others, the nick comes out right if and only
if it is extracted right. -/
theorem map_nickOnly_iff {α : Type} {f : CString → α} (hf : Function.Injective f) (heap : Heap)
    (nick : Sender) : (nickOnly heap nick).map f = some (f (nickOf nick)) ↔ '!' ∈ nick.val := by
  rw [← nickOnly_iff heap nick, ← Option.map_some, (Option.map_injective hf).eq_iff]

/-- The nick that is recorded is what stands before the `!` if and only if there is one. -/
theorem records_iff (heap : Heap) (nick : Sender) :
    (Logs heap nick ↔ '!' ∈ nick.val) ∧ (Updates heap nick ↔ '!' ∈ nick.val) ∧
      (Flushes heap nick ↔ '!' ∈ nick.val) := by
  have hlog : ∀ channelId msgType text now,
      Function.Injective fun nickOnly ↦ logentry channelId nickOnly msgType text now :=
    fun _ _ _ _ _ _ ↦ logentry_injective
  have hupdate : ∀ channelId present now,
      Function.Injective fun nickOnly ↦ nickUpdate channelId nickOnly present now :=
    fun _ _ _ _ _ ↦ nickUpdate_injective
  have hflush : ∀ serverId server type text newNick,
      Function.Injective fun nickOnly ↦ nickFlush serverId server nickOnly type text newNick :=
    fun _ _ _ _ _ _ _ ↦ nickFlush_injective
  refine ⟨⟨fun h ↦ ?_, fun h channelId msgType text now ↦ ?_⟩,
    ⟨fun h ↦ ?_, fun h channelId present now ↦ ?_⟩,
    ⟨fun h ↦ ?_, fun h serverId server type text newNick ↦ ?_⟩⟩
  · exact (map_nickOnly_iff (hlog 0 .message [] 0) heap nick).mp (h 0 .message [] 0)
  · exact (map_nickOnly_iff (hlog channelId msgType text now) heap nick).mpr h
  · exact (map_nickOnly_iff (hupdate 0 true 0) heap nick).mp (h 0 true 0)
  · exact (map_nickOnly_iff (hupdate channelId present now) heap nick).mpr h
  · exact (map_nickOnly_iff (hflush 0 0 .nick none none) heap nick).mp (h 0 0 .nick none none)
  · exact (map_nickOnly_iff (hflush serverId server type text newNick) heap nick).mpr h

/-- Blocks of zeros. -/
def zeros : Heap := ⟨fun size ↦ List.replicate size '\x00', fun _ ↦ List.length_replicate⟩

/-- The nick of a message that came from `bot` is recorded as `bo`. -/
theorem not_records :
    ¬ ∀ nick : Sender, Logs zeros nick ∧ Updates zeros nick ∧ Flushes zeros nick := by
  intro h
  obtain ⟨hlogs, -, -⟩ := h ⟨"bot".toList, by decide⟩
  exact absurd (hlogs 1 .message [] 0) (by decide)

end Beirdobot.Mysql.Nicks
