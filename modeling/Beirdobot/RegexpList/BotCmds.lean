import Beirdobot.Library.Regex
import Beirdobot.RegexpList.Parse
import Mathlib.Data.List.Forall2

/-!
# Messages to the bot

A transcription of `regexp_add` of `regexp.c` and of `regexpBotCmdAdd` and
`regexpBotCmdParse` of `bot_cmds.c`.  PCRE is a parameter, of which only is used what it
does with the texts of a fragment of its language.
-/

namespace Beirdobot.RegexpList

open Library Regex

/-- `pcre_compile` and `pcre_exec`. -/
structure Pcre (P : Type) where
  compile : CString → Option P
  exec : P → CString → ℤ → Exec

/-- What a match is returned as. -/
def Exec.ofMatch : Option (ℕ × ℕ × List ℕ) → Exec
  | none => ⟨-1, fun _ ↦ -1⟩
  | some (start, stop, marks) =>
      ⟨(marks.length / 2 + 1 : ℕ), fun i ↦ (((start :: stop :: marks)[i]?).map Int.ofNat).getD (-1)⟩

/-- The texts of the fragment are compiled, and matched as they are documented to be. -/
def Pcre.Documented {P : Type} (pcre : Pcre P) : Prop :=
  ∀ text re, parse text = some re → ∃ p, pcre.compile text = some p ∧
    ∀ (s : CString) (start : ℕ), start ≤ s.length →
      (pcre.exec p s start).rc = (Exec.ofMatch (search re (s.drop start) start)).rc ∧
      ∀ i : ℕ, (i : ℤ) < 2 * (pcre.exec p s start).rc →
        (pcre.exec p s start).ovector i = (Exec.ofMatch (search re (s.drop start) start)).ovector i

/-- The functions that can be called. -/
inductive Handler
  | regexpBotCmdParse
  | other (n : ℕ)
  deriving DecidableEq

variable {P : Type}

/-- `regexp_add`; what cannot be compiled is not added. -/
def regexpAdd (pcre : Pcre P) (regexpList : List (Regexp P Handler (Option ℕ)))
    (channelRegexp : Option CString) (contentRegexp : CString) (func : Handler) (tag : Option ℕ) :
    List (Regexp P Handler (Option ℕ)) :=
  let channelRegexp := channelRegexp.getD "^.*$".toList
  match pcre.compile channelRegexp with
  | none => regexpList
  | some reChannel =>
      match pcre.compile contentRegexp with
      | none => regexpList
      | some reContent =>
          regexpList ++ [⟨channelRegexp, contentRegexp, reChannel, reContent, func, tag⟩]

/-- What `snprintf` leaves in a buffer. -/
def snprintf (size : ℕ) (text : CString) : CString := text.take (size - 1)

def chanRegexp (fullspec : CString) : CString :=
  snprintf 256 ("(?i)^".toList ++ fullspec ++ "$".toList)

def nickRegexp (nick : CString) : CString :=
  snprintf 256 ("(?i)^\\s*".toList ++ nick ++ "[:,]?\\s+(.*)$".toList)

/-- `regexpBotCmdAdd` -/
def regexpBotCmdAdd (pcre : Pcre P) (regexpList : List (Regexp P Handler (Option ℕ)))
    (nick fullspec : CString) : List (Regexp P Handler (Option ℕ)) :=
  regexpAdd pcre regexpList (some (chanRegexp fullspec)) (nickRegexp nick) .regexpBotCmdParse none

/-- `pcre_get_substring` -/
def pcreGetSubstring (subject : CString) (ovector : ℕ → ℤ) (stringcount : ℤ) (stringnumber : ℕ) :
    Option CString :=
  if stringcount ≤ stringnumber then none
  else
    let start := ovector (2 * stringnumber)
    some ((subject.drop start.toNat).take (ovector (2 * stringnumber + 1) - start).toNat)

/-- `regexpBotCmdParse`: the string that `botCmd_parse` gets, which is set to nothing
where there is no substring. -/
def regexpBotCmdParse {S T : Type} (call : Call Handler S T) : Option CString :=
  pcreGetSubstring call.msg call.ovector call.rc 1

/-! ## Which messages are for the bot -/

/-- Blanks or none, the nick, a colon or a comma or none, blanks and the rest. -/
def Addressed (nick msg rest : CString) : Prop :=
  ∃ blanks nick' mark blanks',
    msg = blanks ++ (nick' ++ (mark ++ (blanks' ++ rest))) ∧
    (∀ c ∈ blanks, isBlank c = true) ∧ sameIgnoringCase nick nick' = true ∧
    (mark = [] ∨ mark = [':'] ∨ mark = [',']) ∧
    blanks' ≠ [] ∧ (∀ c ∈ blanks', isBlank c = true) ∧ ∀ c ∈ rest.head?, isBlank c = false

/-- The command is run for the lines in this channel that are for the bot, with their
rest, and for no others. -/
def RunsExactly (pcre : Pcre P) (nick fullspec : CString) : Prop :=
  ∀ (m : Message ℕ) (channel : IRCChannel), m.channel = some channel →
    '\n' ∉ channel.fullspec → '\n' ∉ m.msg →
    ∃ fuel calls,
      regexpParse pcre.exec fuel (regexpBotCmdAdd pcre [] nick fullspec) m = some calls ∧
      (∀ rest, sameIgnoringCase fullspec channel.fullspec = true → Addressed nick m.msg rest →
        calls.map regexpBotCmdParse = [some rest]) ∧
      (¬ (sameIgnoringCase fullspec channel.fullspec = true ∧ ∃ rest, Addressed nick m.msg rest) →
        calls = [])

/-! ## The patterns -/

/-- The pieces behind the nick. -/
def tail : List Piece :=
  [.atom (.oneOf [':', ',']) 0 (some 1), .atom .blank 1 none, .opening, .atom .any 0 none, .closing,
    .eos]

section Reading

variable {text : CString}

theorem grouped_items (text : CString) (before after : List Piece) :
    grouped (before ++ (text.map item ++ after)) = grouped (before ++ after) := by
  have hnone : (text.map item).filter
      (fun piece ↦ piece == Piece.opening || piece == Piece.closing) = [] := by
    rw [List.filter_eq_nil_iff]
    intro piece hpiece
    obtain ⟨c, -, rfl⟩ := List.mem_map.mp hpiece
    exact Bool.noConfusion
  rw [grouped, grouped, List.filter_append, List.filter_append, hnone, List.nil_append,
    List.filter_append]

/-- A text between two others, which are read to pieces of their own. -/
theorem parsePieces_items (before text after : CString) (first last : List Piece)
    (hbefore : before.foldlM read ⟨.normal, []⟩ = some ⟨.normal, first.reverse⟩)
    (hafter : ∀ pieces, after.foldlM read ⟨.normal, pieces⟩ = some ⟨.normal, last.reverse ++ pieces⟩)
    (htext : ∀ c ∈ text, special c = false ∨ c = '.') (hgrouped : grouped (first ++ last) = true) :
    parsePieces (before ++ (text ++ after)) = some (first ++ (text.map item ++ last)) := by
  rw [parsePieces, List.foldlM_append, hbefore, Option.bind_eq_bind, Option.bind_some,
    List.foldlM_append, read_items htext, Option.bind_eq_bind, Option.bind_some, hafter,
    Option.bind_some]
  have hpieces : (last.reverse ++ ((text.map item).reverse ++ first.reverse)).reverse =
      first ++ (text.map item ++ last) := by
    simp only [List.reverse_append, List.reverse_reverse, List.append_assoc]
  rw [hpieces, grouped_items, hgrouped, if_pos ⟨rfl, rfl⟩]

theorem parse_caseless {s : CString} (hs : bounded s = false) :
    parse ('(' :: '?' :: 'i' :: ')' :: s) = (parsePieces s).map (⟨true, ·⟩) := by
  have hbounded : bounded ('(' :: '?' :: 'i' :: ')' :: s) = false := hs
  rw [parse, hbounded]
  rfl

/-- The pattern for a channel whose text is not cut. -/
theorem parse_chanRegexp (htext : ∀ c ∈ text, special c = false ∨ c = '.')
    (hbounded : bounded text = false) (hlength : text.length ≤ 249) :
    parse (chanRegexp text) = some ⟨true, .bos :: (text.map item ++ [.eos])⟩ := by
  have hcut : chanRegexp text = '(' :: '?' :: 'i' :: ')' :: (['^'] ++ (text ++ ['$'])) := by
    rw [chanRegexp, snprintf, List.take_of_length_le]
    · rfl
    · simp only [List.length_append, String.reduceToList, List.length_cons, List.length_nil]
      omega
  have hpieces := parsePieces_items ['^'] text ['$'] [.bos] [.eos] rfl (fun _ ↦ rfl) htext rfl
  have hbraces : bounded (['^'] ++ (text ++ ['$'])) = false := by
    rw [List.singleton_append, bounded_cons rfl, bounded_append rfl (by decide) (by decide), hbounded]
    rfl
  rw [hcut, parse_caseless hbraces, hpieces]
  rfl

theorem chanRegexp_cut (hlength : 250 ≤ text.length) :
    chanRegexp text = '(' :: '?' :: 'i' :: ')' :: '^' :: text.take 250 := by
  have hleft : (text ++ ['$']).take 250 = text.take 250 := List.take_append_of_le_length hlength
  have htake : ("(?i)^".toList ++ (text ++ ['$'])).take ("(?i)^".toList.length + 250) =
      "(?i)^".toList ++ text.take 250 := by
    rw [List.take_length_add_append, hleft]
  rw [chanRegexp, snprintf, List.append_assoc]
  exact htake

/-- The end of a text that is too long is cut. -/
theorem parse_chanRegexp_cut (htext : ∀ c ∈ text, special c = false ∨ c = '.')
    (hbounded : bounded text = false) (hlength : 250 ≤ text.length) :
    parse (chanRegexp text) = some ⟨true, .bos :: ((text.take 250).map item ++ [])⟩ := by
  have hcut : chanRegexp text =
      '(' :: '?' :: 'i' :: ')' :: (['^'] ++ (text.take 250 ++ [])) := by
    rw [chanRegexp_cut hlength, List.append_nil, List.singleton_append]
  have hpieces := parsePieces_items ['^'] (text.take 250) [] [.bos] [] rfl (fun _ ↦ rfl)
    (fun c hc ↦ htext c (List.mem_of_mem_take hc)) rfl
  have hbraces : bounded (['^'] ++ (text.take 250 ++ [])) = false := by
    rw [List.append_nil, List.singleton_append, bounded_cons rfl, Bool.eq_false_iff]
    intro h
    have hwhole := bounded_of_prefix _ (text.drop 250) h
    rw [List.take_append_drop, hbounded] at hwhole
    cases hwhole
  rw [hcut, parse_caseless hbraces, hpieces]
  rfl

theorem parse_nickRegexp (htext : ∀ c ∈ text, special c = false ∨ c = '.')
    (hbounded : bounded text = false) (hlength : text.length ≤ 234) :
    parse (nickRegexp text) =
      some ⟨true, .bos :: .atom .blank 0 none :: (text.map item ++ tail)⟩ := by
  have hcut : nickRegexp text =
      '(' :: '?' :: 'i' :: ')' :: ("^\\s*".toList ++ (text ++ "[:,]?\\s+(.*)$".toList)) := by
    rw [nickRegexp, snprintf, List.take_of_length_le]
    · rfl
    · simp only [List.length_append, String.reduceToList, List.length_cons, List.length_nil]
      omega
  have hpieces := parsePieces_items "^\\s*".toList text "[:,]?\\s+(.*)$".toList
    [.bos, .atom .blank 0 none] tail rfl (fun _ ↦ rfl) htext rfl
  have hbraces : bounded ("^\\s*".toList ++ (text ++ "[:,]?\\s+(.*)$".toList)) = false := by
    simp only [String.reduceToList, List.cons_append, List.nil_append]
    iterate 4 rw [bounded_cons rfl]
    rw [bounded_append rfl (by decide) (by decide), hbounded]
    rfl
  rw [hcut, parse_caseless hbraces, hpieces]
  rfl

end Reading

/-! ## What they match -/

section Matching

variable {nick text msg rest : CString} {pos : ℕ} {marks : List ℕ} {r : ℕ × List ℕ}

/-- A text without dots spells what is the same up to case. -/
theorem spells_iff {w : CString} (htext : '.' ∉ text) :
    Spells true text w ↔ sameIgnoringCase text w = true := by
  rw [sameIgnoringCase_iff]
  induction text generalizing w with
  | nil =>
      cases w with
      | nil => exact ⟨fun _ ↦ rfl, fun _ ↦ .nil⟩
      | cons d w => exact ⟨(by rintro ⟨⟩), (by rintro ⟨⟩)⟩
  | cons c text ih =>
      rw [List.mem_cons, not_or] at htext
      cases w with
      | nil => exact ⟨(by rintro ⟨⟩), (by rintro ⟨⟩)⟩
      | cons d w =>
          have hhead : (if c = '.' then Atom.any else Atom.char c).accepts true d = true ↔
              c.toLower = d.toLower := by
            rw [if_neg (Ne.symm htext.1)]
            simp only [Atom.accepts, sameChar, Bool.true_and, Bool.or_eq_true, beq_iff_eq]
            constructor
            · rintro (rfl | h)
              · rfl
              · exact h.symm
            · exact fun h ↦ .inr h.symm
          rw [Spells, List.forall₂_cons, hhead, List.map_cons, List.map_cons, List.cons.injEq, ← ih htext.2]
          rfl

/-- The marks behind a nick. -/
theorem mark_iff {c : Char} :
    (Atom.oneOf [':', ',']).accepts true c = true ↔ c = ':' ∨ c = ',' := by
  constructor
  · intro h
    simp only [Atom.accepts, List.any_cons, List.any_nil, Bool.or_false, Bool.or_eq_true] at h
    exact h.imp (sameChar_of_not_isAlpha rfl rfl) (sameChar_of_not_isAlpha rfl rfl)
  · rintro (rfl | rfl) <;> rfl

theorem not_mark_of_blank {c : Char} (hc : isBlank c = true) :
    ¬ (Atom.oneOf [':', ',']).accepts true c = true := by
  rw [mark_iff]
  rintro (rfl | rfl) <;> cases hc

/-- The pieces behind the nick match a mark or none, blanks, and what is left. -/
theorem run_tail {mark blanks : CString} (hmark : mark = [] ∨ mark = [':'] ∨ mark = [','])
    (hne : blanks ≠ []) (hblanks : ∀ c ∈ blanks, isBlank c = true)
    (hrest : ∀ c ∈ rest.head?, isBlank c = false) (hline : '\n' ∉ rest) :
    run true tail (mark ++ (blanks ++ rest)) pos marks =
      some (pos + mark.length + blanks.length + rest.length,
        marks ++ [pos + mark.length + blanks.length] ++
          [pos + mark.length + blanks.length + rest.length]) := by
  have hblank : ∀ c ∈ blanks, Atom.blank.accepts true c = true := hblanks
  have hreach : Atom.reach true .blank none (blanks ++ rest) = blanks.length :=
    reach_append hblank hrest
  have hall : Atom.reach true .any none rest = rest.length := by
    have hany : ∀ c ∈ rest, Atom.any.accepts true c = true := by
      intro c hc
      rw [Atom.accepts, bne_iff_ne]
      rintro rfl
      exact hline hc
    have h : Atom.reach true .any none (rest ++ []) = rest.length :=
      reach_append hany fun c hc ↦ by cases hc
    rwa [List.append_nil] at h
  have hopt : Atom.reach true (.oneOf [':', ',']) (some 1) (mark ++ (blanks ++ rest)) =
      mark.length := by
    rcases hmark with rfl | rfl | rfl
    · obtain ⟨c, blanks, rfl⟩ := List.exists_cons_of_ne_nil hne
      rw [List.nil_append, List.cons_append, reach_one_cons,
        if_neg (not_mark_of_blank (hblanks c List.mem_cons_self))]
      rfl
    · exact reach_one_cons ':' _
    · exact reach_one_cons ',' _
  have hfirst : (mark ++ (blanks ++ rest)).drop mark.length = blanks ++ rest := List.drop_left
  have hsecond : (blanks ++ rest).drop blanks.length = rest := List.drop_left
  refine run_atom_of (Nat.zero_le _) ?_
  rw [hopt, hfirst]
  refine run_atom_of ?_ ?_
  · rw [hreach]
    exact List.length_pos_iff.mpr hne
  rw [hreach, hsecond, run]
  refine run_atom_of (Nat.zero_le _) ?_
  rw [hall, List.drop_length, run, run, if_pos (.inl rfl), run]

/-- What they match is of this form. -/
theorem exists_of_run_tail (h : run true tail rest pos marks = some r) :
    ∃ mark blanks rest', rest = mark ++ (blanks ++ rest') ∧
      (mark = [] ∨ mark = [':'] ∨ mark = [',']) ∧ blanks ≠ [] ∧
      (∀ c ∈ blanks, isBlank c = true) ∧ ∀ c ∈ rest'.head?, isBlank c = false := by
  obtain ⟨n, -, hn, h⟩ := exists_of_run_atom h
  obtain ⟨k, hk, hk', -⟩ := exists_of_run_atom h
  obtain ⟨hlength, hmark⟩ := accepts_of_reach hn
  have hone : n ≤ 1 := Nat.le_trans hn (reach_some_le _ 1 rest)
  have hne : (rest.drop n).takeWhile isBlank ≠ [] := by
    have hpos : 0 < ((rest.drop n).takeWhile isBlank).length := Nat.lt_of_lt_of_le hk hk'
    exact List.ne_nil_of_length_pos hpos
  refine ⟨rest.take n, (rest.drop n).takeWhile isBlank, (rest.drop n).dropWhile isBlank, ?_, ?_,
    hne, fun c hc ↦ List.all_eq_true.mp List.all_takeWhile c hc, ?_⟩
  · rw [List.takeWhile_append_dropWhile, List.take_append_drop]
  · rcases hw : rest.take n with _ | ⟨c, w⟩
    · exact .inl rfl
    · rw [hw] at hlength hmark
      obtain rfl : w = [] := List.eq_nil_of_length_eq_zero (by
        rw [List.length_cons] at hlength
        omega)
      rcases mark_iff.mp (hmark c List.mem_cons_self) with rfl | rfl
      · exact .inr (.inl rfl)
      · exact .inr (.inr rfl)
  · intro c hc
    have h := List.head?_dropWhile_not isBlank (rest.drop n)
    rw [Option.mem_def.mp hc] at h
    exact h

/-- What the whole pattern does with a text of this form. -/
theorem run_content {blanks w mark blanks' : CString} (hblanks : ∀ c ∈ blanks, isBlank c = true)
    (hw : Spells true nick w) (hhead : ∀ c ∈ (w ++ (mark ++ (blanks' ++ rest))).head?, isBlank c = false)
    (hmark : mark = [] ∨ mark = [':'] ∨ mark = [',']) (hne : blanks' ≠ [])
    (hblanks' : ∀ c ∈ blanks', isBlank c = true) (hrest : ∀ c ∈ rest.head?, isBlank c = false)
    (hline : '\n' ∉ rest) :
    run true (.atom .blank 0 none :: (nick.map item ++ tail))
        (blanks ++ (w ++ (mark ++ (blanks' ++ rest)))) 0 [] =
      some ((blanks ++ (w ++ (mark ++ (blanks' ++ rest)))).length,
        [(blanks ++ (w ++ (mark ++ (blanks' ++ rest)))).length - rest.length,
          (blanks ++ (w ++ (mark ++ (blanks' ++ rest)))).length]) := by
  have hblank : ∀ c ∈ blanks, Atom.blank.accepts true c = true := hblanks
  have hreach : Atom.reach true .blank none (blanks ++ (w ++ (mark ++ (blanks' ++ rest)))) =
      blanks.length := reach_append hblank hhead
  refine run_atom_of (Nat.zero_le _) ?_
  rw [hreach, List.drop_left, run_items hw, run_tail hmark hne hblanks' hrest hline]
  simp only [List.length_append, List.nil_append, List.singleton_append, Option.some.injEq,
    Prod.mk.injEq, List.cons.injEq, and_true]
  omega

/-- What a pattern for a channel matches. -/
theorem run_channel_iff (hline : '\n' ∉ msg) :
    (∃ r, run true (text.map item ++ [.eos]) msg 0 [] = some r) ↔ Spells true text msg := by
  constructor
  · rintro ⟨r, h⟩
    obtain ⟨w, rest', rfl, hw, hrun⟩ := exists_of_run_items h
    rw [run] at hrun
    split at hrun
    · rename_i hend
      rcases hend with rfl | rfl
      · rwa [List.append_nil]
      · exact absurd (List.mem_append_right w List.mem_cons_self) hline
    · cases hrun
  · intro h
    have hrun : run true (text.map item ++ [.eos]) (msg ++ []) 0 [] =
        run true [.eos] [] (0 + msg.length) [] := run_items h [] 0
    rw [List.append_nil, run, if_pos (.inl rfl), run] at hrun
    exact ⟨_, hrun⟩

end Matching

/-! ## The calls -/

section Calls

variable {pcre : Pcre P} {nick fullspec : CString} {m : Message ℕ} {channel : IRCChannel}
  {reChannel : Regex.Pattern} {pieces : List Piece} {fuel : ℕ}

theorem rc_of_none {e : Option (ℕ × ℕ × List ℕ)} (he : e = none) : (Exec.ofMatch e).rc < 0 := by
  subst he
  exact Int.negSucc_lt_zero 0

theorem rc_of_some {e : Option (ℕ × ℕ × List ℕ)} (he : e.isSome = true) :
    0 < (Exec.ofMatch e).rc := by
  obtain ⟨⟨start, stop, marks⟩, rfl⟩ := Option.isSome_iff_exists.mp he
  exact Int.natCast_pos.mpr (Nat.succ_pos _)

/-- What the pair of patterns of a channel does with a message. -/
theorem regexpParse_regexpBotCmdAdd (hpcre : pcre.Documented)
    (hchannel : parse (chanRegexp fullspec) = some reChannel)
    (hnick : parse (nickRegexp nick) = some ⟨true, .bos :: pieces⟩)
    (hm : m.channel = some channel) :
    ((search reChannel channel.fullspec 0 = none ∨ run true pieces m.msg 0 [] = none) →
      ∃ fuel, regexpParse pcre.exec fuel (regexpBotCmdAdd pcre [] nick fullspec) m = some []) ∧
    ∀ stop first last, (search reChannel channel.fullspec 0).isSome = true →
      run true pieces m.msg 0 [] = some (stop, [first, last]) → 0 < stop → stop ≤ m.msg.length →
      ∃ fuel call,
        regexpParse pcre.exec fuel (regexpBotCmdAdd pcre [] nick fullspec) m = some [call] ∧
        regexpBotCmdParse call = some ((m.msg.drop first).take (last - first)) := by
  obtain ⟨pChannel, hcompile, hexec⟩ := hpcre _ _ hchannel
  obtain ⟨pNick, hcompile', hexec'⟩ := hpcre _ _ hnick
  have hlist : regexpBotCmdAdd pcre [] nick fullspec =
      [⟨chanRegexp fullspec, nickRegexp nick, pChannel, pNick, .regexpBotCmdParse, none⟩] := by
    rw [regexpBotCmdAdd, regexpAdd, Option.getD_some, hcompile, hcompile']
    rfl
  obtain ⟨hrcChannel, -⟩ := hexec channel.fullspec 0 (Nat.zero_le _)
  obtain ⟨hrc, hvector⟩ := hexec' m.msg 0 (Nat.zero_le _)
  rw [List.drop_zero, Nat.cast_zero] at hrcChannel hrc hvector
  rw [search_bos _ rfl, if_pos rfl] at hrc hvector
  rw [hlist]
  simp only [regexpParse, hm]
  constructor
  · rintro (hnone | hnone)
    · refine ⟨0, ?_⟩
      rw [regexpLoop, if_pos (by rw [hrcChannel]; exact rc_of_none hnone), regexpLoop]
    · by_cases hneg : (pcre.exec pChannel channel.fullspec 0).rc < 0
      · exact ⟨0, by rw [regexpLoop, if_pos hneg, regexpLoop]⟩
      · refine ⟨2, ?_⟩
        have hrc' : (pcre.exec pNick m.msg 0).rc < 0 := by
          rw [hrc, hnone]
          exact rc_of_none rfl
        rw [regexpLoop, if_neg hneg, contentLoop_succ Int.one_pos, if_neg (Int.not_le.mpr hrc'),
          contentLoop_done (Int.not_lt.mpr hrc'.le)]
        rfl
  · intro stop first last hsome hrun hpos hle
    rw [hrun] at hrc hvector
    have hrc2 : (pcre.exec pNick m.msg 0).rc = 2 := by
      rw [hrc, Option.map_some, Exec.ofMatch]
      simp only [List.length_cons, List.length_nil, Nat.reduceAdd, Nat.reduceDiv, Nat.cast_ofNat]
    rw [hrc2] at hvector
    have hstop : (pcre.exec pNick m.msg 0).ovector 1 = stop := hvector 1 (by decide)
    have hfirst : (pcre.exec pNick m.msg 0).ovector 2 = first := hvector 2 (by decide)
    have hlast : (pcre.exec pNick m.msg 0).ovector 3 = last := hvector 3 (by decide)
    -- the search goes on at the end, where `^` does not match
    obtain ⟨hrc', -⟩ := hexec' m.msg stop hle
    rw [search_bos _ rfl, if_neg (Nat.pos_iff_ne_zero.mp hpos)] at hrc'
    have hdone : (pcre.exec pNick m.msg stop).rc < 0 := by
      rw [hrc']
      exact rc_of_none rfl
    have hchannel : ¬ (pcre.exec pChannel channel.fullspec 0).rc < 0 := by
      have hpos := rc_of_some hsome
      omega
    let regexp : Regexp P Handler (Option ℕ) :=
      ⟨chanRegexp fullspec, nickRegexp nick, pChannel, pNick, .regexpBotCmdParse, none⟩
    have htwo : (0 : ℤ) < 2 := by decide
    refine ⟨3, regexp.call m channel (pcre.exec pNick m.msg 0), ?_, ?_⟩
    · rw [regexpLoop, if_neg hchannel, contentLoop_succ Int.one_pos, hrc2,
        contentLoop_succ htwo, hstop, contentLoop_done (Int.not_lt.mpr hdone.le),
        if_neg (Int.not_le.mpr hdone), if_pos htwo.le]
      rfl
    · have hcount : ¬ (pcre.exec pNick m.msg 0).rc ≤ (1 : ℕ) := by
        rw [hrc2]
        decide
      show (if (pcre.exec pNick m.msg 0).rc ≤ (1 : ℕ) then none else _) = _
      rw [if_neg hcount]
      show some ((m.msg.drop ((pcre.exec pNick m.msg 0).ovector 2).toNat).take
        ((pcre.exec pNick m.msg 0).ovector 3 - (pcre.exec pNick m.msg 0).ovector 2).toNat) = _
      rw [hfirst, hlast, Int.toNat_natCast, Int.toNat_sub]

end Calls

/-! ## Plain texts -/

/-- Texts whose characters stand for themselves. -/
def Plain (text : CString) : Prop := (∀ c ∈ text, special c = false) ∧ bounded text = false

/-- Texts without other special characters than dots. -/
def Dotted (text : CString) : Prop :=
  (∀ c ∈ text, special c = false ∨ c = '.') ∧ bounded text = false

section Plain

variable {pcre : Pcre P} {nick fullspec text msg rest : CString} {r : ℕ × List ℕ}

theorem plain_of_all (htext : (text.all fun c ↦ !special c) = true) (hbounded : bounded text = false) :
    Plain text :=
  ⟨fun c hc ↦ (Bool.not_eq_true' _).mp (List.all_eq_true.mp htext c hc), hbounded⟩

theorem Plain.dotted (h : Plain text) : Dotted text := ⟨fun c hc ↦ .inl (h.1 c hc), h.2⟩

theorem Plain.not_dot (h : Plain text) : '.' ∉ text := fun hdot ↦ by cases h.1 _ hdot

theorem Dotted.plain (h : Dotted text) (hdot : '.' ∉ text) : Plain text := by
  refine ⟨fun c hc ↦ (h.1 c hc).resolve_right ?_, h.2⟩
  rintro rfl
  exact hdot hc

/-- What is the same up to case begins with a blank where the other does. -/
theorem isBlank_of_same {l w : CString} (h : sameIgnoringCase l w = true)
    (hl : ∀ c ∈ l, isBlank c = false) : ∀ c ∈ w, isBlank c = false := by
  rw [sameIgnoringCase_iff] at h
  intro c hc
  have hmem : c.toLower ∈ l.map Char.toLower := h ▸ List.mem_map_of_mem hc
  obtain ⟨d, hd, hdc⟩ := List.mem_map.mp hmem
  rw [← isBlank_toLower, ← hdc, isBlank_toLower]
  exact hl d hd

theorem head_append (hne : text ≠ []) (htext : ∀ c ∈ text, isBlank c = false) (rest : CString) :
    ∀ c ∈ (text ++ rest).head?, isBlank c = false := by
  obtain ⟨c, text, rfl⟩ := List.exists_cons_of_ne_nil hne
  rintro _ ⟨⟩
  exact htext c List.mem_cons_self

theorem run_of_addressed (hne : nick ≠ []) (hblank : ∀ c ∈ nick, isBlank c = false)
    (hnick : '.' ∉ nick) (h : Addressed nick msg rest) (hline : '\n' ∉ msg) :
    run true (.atom .blank 0 none :: (nick.map item ++ tail)) msg 0 [] =
        some (msg.length, [msg.length - rest.length, msg.length]) ∧
      rest.length < msg.length ∧ msg.drop (msg.length - rest.length) = rest := by
  obtain ⟨blanks, nick', mark, blanks', rfl, hblanks, hsame, hmark, hne', hblanks', hrest⟩ := h
  have hline' : '\n' ∉ rest := by
    intro hmem
    refine hline ?_
    simp only [List.mem_append, hmem, or_true]
  have hnonempty : nick' ≠ [] := by
    rintro rfl
    rw [sameIgnoringCase_iff] at hsame
    exact hne (List.map_eq_nil_iff.mp hsame)
  refine ⟨run_content hblanks ((spells_iff hnick).mpr hsame)
    (head_append hnonempty (isBlank_of_same hsame hblank) _) hmark hne' hblanks' hrest hline', ?_, ?_⟩
  · have hpos := List.length_pos_iff.mpr hne'
    simp only [List.length_append]
    omega
  · have hleft : (blanks ++ (nick' ++ (mark ++ (blanks' ++ rest)))).length - rest.length =
        (blanks ++ (nick' ++ (mark ++ blanks'))).length := by
      simp only [List.length_append]
      omega
    have hsplit : blanks ++ (nick' ++ (mark ++ (blanks' ++ rest))) =
        (blanks ++ (nick' ++ (mark ++ blanks'))) ++ rest := by
      simp only [List.append_assoc]
    rw [hleft, hsplit, List.drop_left]

theorem addressed_of_run (hnick : '.' ∉ nick)
    (h : run true (.atom .blank 0 none :: (nick.map item ++ tail)) msg 0 [] = some r) :
    ∃ rest, Addressed nick msg rest := by
  obtain ⟨n, -, hn, h⟩ := exists_of_run_atom h
  obtain ⟨-, hblanks⟩ := accepts_of_reach hn
  obtain ⟨w, rest', hmsg, hw, h⟩ := exists_of_run_items h
  obtain ⟨mark, blanks', rest, rfl, hmark, hne, hblanks', hrest⟩ := exists_of_run_tail h
  refine ⟨rest, msg.take n, w, mark, blanks', ?_, hblanks, (spells_iff hnick).mp hw, hmark, hne,
    hblanks', hrest⟩
  rw [← hmsg, List.take_append_drop]

/-- Plain texts that are not cut are what is matched. -/
theorem runsExactly_of_plain (hpcre : pcre.Documented) (hne : nick ≠ [])
    (hblank : ∀ c ∈ nick, isBlank c = false) (hnick : Plain nick) (hfull : Plain fullspec)
    (hlength : nick.length ≤ 234) (hlength' : fullspec.length ≤ 249) :
    RunsExactly pcre nick fullspec := by
  intro m channel hm hline hline'
  have hchannel := parse_chanRegexp hfull.dotted.1 hfull.2 hlength'
  obtain ⟨hnone, hone⟩ := regexpParse_regexpBotCmdAdd hpcre hchannel
    (parse_nickRegexp hnick.dotted.1 hnick.2 hlength) hm
  have hmatch : (search ⟨true, .bos :: (fullspec.map item ++ [.eos])⟩ channel.fullspec 0).isSome =
      true ↔ sameIgnoringCase fullspec channel.fullspec = true := by
    rw [search_bos _ rfl, if_pos rfl, Option.isSome_map, Option.isSome_iff_exists,
      run_channel_iff hline, spells_iff hfull.not_dot]
  by_cases hsame : sameIgnoringCase fullspec channel.fullspec = true
  · by_cases haddressed : ∃ rest, Addressed nick m.msg rest
    · obtain ⟨rest, hrest⟩ := haddressed
      obtain ⟨hrun, hlt, hdrop⟩ := run_of_addressed hne hblank hnick.not_dot hrest hline'
      obtain ⟨fuel, call, hparse, hcall⟩ := hone _ _ _ (hmatch.mpr hsame) hrun (by omega) le_rfl
      refine ⟨fuel, [call], hparse, fun rest' _ hrest' ↦ ?_, fun h ↦ absurd ⟨hsame, rest, hrest⟩ h⟩
      obtain ⟨hrun', -, hdrop'⟩ := run_of_addressed hne hblank hnick.not_dot hrest' hline'
      -- there is one way to read it
      rw [hrun, Option.some.injEq, Prod.mk.injEq, List.cons.injEq] at hrun'
      rw [List.map_singleton, hcall, ← hdrop', ← hrun'.2.1, hdrop, List.take_of_length_le (by omega)]
    · obtain ⟨fuel, hparse⟩ := hnone (.inr (by
        rw [Option.eq_none_iff_forall_ne_some]
        exact fun r hr ↦ haddressed (addressed_of_run hnick.not_dot hr)))
      exact ⟨fuel, [], hparse, fun rest _ hrest ↦ absurd ⟨rest, hrest⟩ haddressed, fun _ ↦ rfl⟩
  · obtain ⟨fuel, hparse⟩ := hnone (.inl (by
      rw [← Option.not_isSome_iff_eq_none, hmatch]
      exact hsame))
    exact ⟨fuel, [], hparse, fun _ h ↦ absurd h hsame, fun _ ↦ rfl⟩

end Plain

/-! ## Texts with dots -/

section Dotted

variable {pcre : Pcre P} {nick fullspec text w : CString}

/-- Another text that a text with dots matches. -/
def undotted (text : CString) : CString := text.map fun c ↦ if c = '.' then 'x' else c

theorem not_dot_undotted (text : CString) : '.' ∉ undotted text := by
  intro h
  obtain ⟨c, -, hc⟩ := List.mem_map.mp h
  split at hc
  · cases hc
  · exact absurd hc ‹_›

/-- It has the characters of the text, and letters. -/
theorem forall_undotted {p : Char → Prop} (hp : p 'x') (htext : ∀ c ∈ text, p c) :
    ∀ c ∈ undotted text, p c := by
  intro d hd
  obtain ⟨c, hc, rfl⟩ := List.mem_map.mp hd
  split
  · exact hp
  · exact htext c hc

theorem spells_undotted (text : CString) : Spells true text (undotted text) := by
  refine List.forall₂_map_right_iff.mpr (List.forall₂_same.mpr fun c _ ↦ ?_)
  split
  · rfl
  · simp only [Atom.accepts, sameChar, beq_self_eq_true, Bool.true_or]

theorem spells_refl (text : CString) : Spells true text text := by
  refine List.forall₂_same.mpr fun c _ ↦ ?_
  split
  · rename_i hc
    subst hc
    rfl
  · simp only [Atom.accepts, sameChar, beq_self_eq_true, Bool.true_or]

/-- No text with a dot is the same as one without. -/
theorem not_dot_of_same (hw : '.' ∉ w) (h : sameIgnoringCase text w = true) : '.' ∉ text := by
  rw [sameIgnoringCase_iff] at h
  intro hdot
  have hmem : ('.').toLower ∈ w.map Char.toLower := h ▸ List.mem_map_of_mem hdot
  obtain ⟨c, hc, hlower⟩ := List.mem_map.mp hmem
  rw [eq_of_toLower rfl hlower] at hc
  exact hw hc

/-- The pattern for a channel matches what it spells, and more where its end is cut. -/
theorem search_chanRegexp (hfull : Dotted fullspec) (hw : Spells true fullspec w) (more : CString)
    (hmore : more = [] ∨ 250 ≤ fullspec.length) :
    ∃ reChannel, parse (chanRegexp fullspec) = some reChannel ∧
      (search reChannel (w ++ more) 0).isSome = true := by
  by_cases hlength : fullspec.length ≤ 249
  · refine ⟨_, parse_chanRegexp hfull.1 hfull.2 hlength, ?_⟩
    obtain rfl : more = [] := hmore.resolve_right (by omega)
    rw [search_bos _ rfl, if_pos rfl, Option.isSome_map, run_items hw, run, if_pos (.inl rfl), run]
    rfl
  · refine ⟨_, parse_chanRegexp_cut hfull.1 hfull.2 (by omega), ?_⟩
    have hcut : w ++ more = w.take 250 ++ (w.drop 250 ++ more) := by
      rw [← List.append_assoc, List.take_append_drop]
    rw [search_bos _ rfl, if_pos rfl, Option.isSome_map, hcut,
      run_items (List.forall₂_take 250 hw), run]
    rfl

/-- What runs exactly for the messages to the bot matches them only. -/
theorem addressed_of_runsExactly (hpcre : pcre.Documented) (hnick : Dotted nick)
    (hlength : nick.length ≤ 234) (hfull : Dotted fullspec) (h : RunsExactly pcre nick fullspec)
    {w ch more : CString} (hw : Spells true nick w) (hne : w ≠ [])
    (hblank : ∀ c ∈ w, isBlank c = false) (hch : Spells true fullspec ch)
    (hmore : more = [] ∨ 250 ≤ fullspec.length) (hline : '\n' ∉ ch ++ more) :
    sameIgnoringCase fullspec (ch ++ more) = true ∧
      ∃ rest, Addressed nick (w ++ " hi".toList) rest := by
  obtain ⟨reChannel, hchannel, hsome⟩ := search_chanRegexp hfull hch more hmore
  have hblanks : ∀ c ∈ ([] : CString), isBlank c = true := by rintro _ ⟨⟩
  have hblanks' : ∀ c ∈ [' '], isBlank c = true := List.forall_mem_singleton.mpr rfl
  have hrest : ∀ c ∈ ['h', 'i'].head?, isBlank c = false := by
    rintro _ ⟨⟩
    rfl
  have hrun := run_content hblanks hw (head_append hne hblank _) (.inl rfl) (List.cons_ne_nil _ _)
    hblanks' hrest (by decide)
  rw [List.nil_append] at hrun
  have hline' : '\n' ∉ w ++ " hi".toList := by
    rw [List.mem_append, not_or]
    exact ⟨fun hmem ↦ (by cases hblank _ hmem), by decide⟩
  let m : Message ℕ := ⟨0, some ⟨ch ++ more⟩, [], w ++ " hi".toList, .message⟩
  have hm : m.channel = some ⟨ch ++ more⟩ := rfl
  obtain ⟨-, hone⟩ := regexpParse_regexpBotCmdAdd hpcre hchannel
    (parse_nickRegexp hnick.1 hnick.2 hlength) hm
  obtain ⟨fuel, call, hparse, -⟩ := hone _ _ _ hsome hrun (by simp) le_rfl
  obtain ⟨fuel', calls, hparse', -, hnone⟩ := h m _ rfl hline hline'
  by_contra hnot
  rw [hnone hnot] at hparse'
  have hmore := regexpLoop_mono hparse fuel'
  have hmore' := regexpLoop_mono hparse' fuel
  rw [Nat.add_comm, hmore] at hmore'
  cases hmore'

/-- A text with a dot, or one that is cut, matches what is not meant. -/
theorem plain_of_runsExactly (hpcre : pcre.Documented) (hne : nick ≠ [])
    (hblank : ∀ c ∈ nick, isBlank c = false) (hline : '\n' ∉ fullspec) (hnick : Dotted nick)
    (hfull : Dotted fullspec) (hlength : nick.length ≤ 234) (h : RunsExactly pcre nick fullspec) :
    Plain nick ∧ Plain fullspec ∧ fullspec.length ≤ 249 := by
  have hne' : undotted nick ≠ [] := fun hnil ↦ hne (List.map_eq_nil_iff.mp hnil)
  have hblank' := forall_undotted (p := (isBlank · = false)) rfl hblank
  refine ⟨hnick.plain ?_, hfull.plain ?_, ?_⟩
  · obtain ⟨-, rest, blanks, nick', mark, blanks', hmsg, hblanks, hsame, -⟩ :=
      addressed_of_runsExactly hpcre hnick hlength hfull h (spells_undotted nick) hne' hblank'
        (spells_refl fullspec) (.inl rfl) (by rwa [List.append_nil])
    have hnil : blanks = [] := by
      rcases blanks with _ | ⟨c, blanks⟩
      · rfl
      · have hhead := head_append hne' hblank' " hi".toList c (by rw [hmsg]; rfl)
        rw [hblanks c List.mem_cons_self] at hhead
        cases hhead
    have hlengths := congrArg List.length (sameIgnoringCase_iff.mp hsame)
    rw [List.length_map, List.length_map] at hlengths
    rw [hnil, List.nil_append] at hmsg
    have hnick' : undotted nick = nick' :=
      List.append_inj_left hmsg ((List.length_map _).trans hlengths)
    rw [← hnick'] at hsame
    exact not_dot_of_same (not_dot_undotted nick) hsame
  · obtain ⟨hsame, -⟩ := addressed_of_runsExactly hpcre hnick hlength hfull h (spells_refl nick) hne
      hblank (spells_undotted fullspec) (.inl rfl) (by
        rw [List.append_nil]
        exact fun hmem ↦ forall_undotted (p := (· ≠ '\n')) (by decide)
          (fun c hc heq ↦ hline (heq ▸ hc)) _ hmem rfl)
    rw [List.append_nil] at hsame
    exact not_dot_of_same (not_dot_undotted fullspec) hsame
  · by_contra hlong
    have hline' : '\n' ∉ fullspec ++ ['x'] := by
      rw [List.mem_append, not_or]
      exact ⟨hline, by decide⟩
    obtain ⟨hsame, -⟩ := addressed_of_runsExactly hpcre hnick hlength hfull h (spells_refl nick) hne
      hblank (spells_refl fullspec) (.inr (by omega)) hline'
    have hlengths := congrArg List.length (sameIgnoringCase_iff.mp hsame)
    simp only [List.length_map, List.length_append, List.length_cons, List.length_nil] at hlengths
    omega

end Dotted

/-- Plain texts that are not cut run the command exactly for the messages to the bot; of the
texts with dots besides, no others do. -/
theorem runsExactly_iff {pcre : Pcre P} (hpcre : pcre.Documented) {nick fullspec : CString}
    (hne : nick ≠ []) (hblank : ∀ c ∈ nick, isBlank c = false) (hline : '\n' ∉ fullspec) :
    (Plain nick ∧ nick.length ≤ 234 ∧ Plain fullspec ∧ fullspec.length ≤ 249 →
      RunsExactly pcre nick fullspec) ∧
    (Dotted nick → nick.length ≤ 234 → Dotted fullspec → RunsExactly pcre nick fullspec →
      Plain nick ∧ nick.length ≤ 234 ∧ Plain fullspec ∧ fullspec.length ≤ 249) := by
  constructor
  · rintro ⟨hnick, hlength, hfull, hlength'⟩
    exact runsExactly_of_plain hpcre hne hblank hnick hfull hlength hlength'
  · intro hnick hlength hfull h
    obtain ⟨hplain, hplain', hcut⟩ :=
      plain_of_runsExactly hpcre hne hblank hline hnick hfull hlength h
    exact ⟨hplain, hlength, hplain', hcut⟩

/-- A matcher of the fragment. -/
def fragment : Pcre Regex.Pattern where
  compile := parse
  exec re s start := .ofMatch (search re (s.drop start.toNat) start.toNat)

theorem fragment_documented : fragment.Documented :=
  fun _ re hre ↦ ⟨re, hre, fun _ _ _ ↦ ⟨rfl, fun _ _ ↦ rfl⟩⟩

theorem not_isBlank_bot : ∀ c ∈ "bot".toList, isBlank c = false := by
  have hall : ("bot".toList.all fun c ↦ !isBlank c) = true := rfl
  exact fun c hc ↦ (Bool.not_eq_true' _).mp (List.all_eq_true.mp hall c hc)

theorem runsExactly_iff_local : RunsExactly fragment "bot".toList "bot@irc:6667/#talk".toList :=
  (runsExactly_iff fragment_documented (by decide) not_isBlank_bot (by decide)).1
    ⟨plain_of_all rfl rfl, by decide, plain_of_all rfl rfl, by decide⟩

/-- The dot in the name of a server matches every character. -/
theorem not_runsExactly : ¬ RunsExactly fragment "bot".toList "bot@irc.net:6667/#talk".toList := by
  intro h
  have hnick : Dotted "bot".toList := (plain_of_all rfl rfl).dotted
  have hfull : Dotted "bot@irc.net:6667/#talk".toList := by
    refine ⟨fun c hc ↦ ?_, rfl⟩
    have hall : ("bot@irc.net:6667/#talk".toList.all fun c ↦ !special c || c == '.') = true := rfl
    have hplain := List.all_eq_true.mp hall c hc
    rwa [Bool.or_eq_true, Bool.not_eq_true', beq_iff_eq] at hplain
  obtain ⟨-, hplain, -⟩ := plain_of_runsExactly fragment_documented (by decide) not_isBlank_bot
    (by decide) hnick hfull (by decide) h
  exact hplain.not_dot (by decide)

end Beirdobot.RegexpList
