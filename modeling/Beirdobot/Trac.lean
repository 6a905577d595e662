import Beirdobot.Libc

/-!
# Tickets of trac

Transcriptions of `tracMemorizeFile`, which keeps the page that curl delivers, and of
`tracTicketCsv`, which takes its two lines apart, both of `trac.c`.  A page is the block of
memory from its first byte to the end of what was allocated: a read behind it, and a write
where `strchr` found nothing, have no result.
-/

namespace Beirdobot.Trac

/-! ## The page -/

/-- `tracMemorizeFile`: the block is one byte longer than the data, and `malloc` leaves some
byte there. -/
def tracMemorizeFile (ptr : List Char) (heap : Char) (_page : Option (List Char)) :
    Option (List Char) :=
  some (ptr ++ [heap])

/-- What the calls leave in `page`: the data of each, and the byte of the heap. -/
def memorized (calls : List (List Char × Char)) : Option (List Char) :=
  calls.foldl (fun page call ↦ tracMemorizeFile call.1 call.2 page) none

/-! ## Its lines -/

/-- The bytes before the first that stops a search. -/
def scan (stop : Char → Bool) : List Char → Option CString
  | [] => none
  | c :: s => if stop c then some [] else (scan stop s).map (c :: ·)

/-- The bytes before what `strchr( s, '\n' )` finds. -/
def line (s : List Char) : Option CString :=
  (scan (fun c ↦ c = '\n' ∨ c = '\x00') s).bind fun l ↦
    if s[l.length]? = some '\n' then some l else none

/-- Up to `strchr( s, ',' )`, or `strlen( s )` bytes. -/
def field (s : List Char) : Option CString := scan (fun c ↦ c = ',' ∨ c = '\x00') s

/-- The loop, with what is added to the tree. -/
def csvLoop (headers data : List Char) : Option (List (CString × CString)) :=
  match headers with
  | [] => none
  | c :: headers' =>
      if c = '\x00' then some []
      else
        match data with
        | [] => none
        | d :: _ =>
            if d = '\x00' then some []
            else
              (field (c :: headers')).bind fun header ↦ (field data).bind fun csv ↦
                (csvLoop ((c :: headers').drop (header.length + 1))
                  (data.drop (csv.length + 1))).map ((header, csv) :: ·)
termination_by headers.length
decreasing_by
  rw [List.length_drop, List.length_cons]
  omega

/-- `tracTicketCsv` -/
def tracTicketCsv (page : List Char) : Option (List (CString × CString)) :=
  (line page).bind fun headers ↦
    let data := page.drop (headers.length + 1)
    (line data).bind fun l ↦
      let data := l ++ '\x00' :: data.drop (l.length + 1)
      csvLoop (headers ++ '\x00' :: data) data

/-! ## What it is for -/

/-- A line without the CR of its end. -/
def stripped (l : CString) : CString := if l.getLast? = some '\r' then l.dropLast else l

/-- The fields of a line; there are none in an empty one. -/
def fields (l : CString) : List CString :=
  if stripped l = [] then [] else (stripped l).splitOn ','

/-- The headers with their fields. -/
def ticket (body : List Char) : List (CString × CString) :=
  match body.splitOn '\n' with
  | headers :: data :: _ => (fields headers).zip (fields data)
  | _ => []

/-- The page is the body and a terminator, and the tree gets what it says. -/
structure Reads (calls : List (List Char × Char)) : Prop where
  page : ∀ page, memorized calls = some page →
    page = (calls.map Prod.fst).flatten ++ ['\x00']
  tree : ((memorized calls).elim (some []) tracTicketCsv) =
    some (ticket (calls.map Prod.fst).flatten)

/-- The last of the fields is not empty and has no CR. -/
def Whole (fields : List CString) : Prop :=
  ∀ l ∈ fields.getLast?, l ≠ [] ∧ stripped l = l

/-- The fields of two lines where both cursors stop in time, with what is behind them. -/
def Aligned (headers data : List CString) (rest : List Char) : Prop :=
  (data.length = headers.length + 1 ∧ Whole headers ∧ data.getLast? = some []) ∨
    (headers.length = data.length ∧ Whole headers ∧ Whole data ∧ rest.head? = some '\x00') ∨
    (data.length < headers.length ∧ Whole data ∧ (rest.head? = some '\x00' ∨
      headers.length = data.length + 1 ∧ headers.getLast? = some []))

/-- The bodies that are read. -/
def Tidy (body : List Char) : Prop :=
  ∃ headers data rest, body = headers ++ '\n' :: (data ++ '\n' :: rest) ∧
    (∀ c ∈ headers ++ data, c ≠ '\n' ∧ c ≠ '\x00') ∧
    (headers = [] ∨ data = [] ∨
      Aligned (headers.splitOn ',') (data.splitOn ',') (rest ++ ['\x00']))

/-- The calls whose last brings the whole of a body that is read, before a byte that is NUL. -/
def InOne (calls : List (List Char × Char)) : Prop :=
  calls = [] ∨ ∃ before body, calls = before ++ [(body, '\x00')] ∧
    (∀ call ∈ before, call.1 = []) ∧ Tidy body

/-! ## Searches -/

section Searches

variable {stop : Char → Bool} {c d : Char} {p q r s u : List Char}

theorem scan_append (hp : ∀ b ∈ p, stop b = false) (hc : stop c = true) :
    scan stop (p ++ c :: r) = some p := by
  induction p with
  | nil => exact if_pos hc
  | cons b p ih =>
      rw [List.cons_append, scan, if_neg (by simp [hp b List.mem_cons_self]),
        ih fun a ha ↦ hp a (List.mem_cons_of_mem b ha)]
      rfl

theorem exists_of_scan (h : scan stop s = some p) :
    ∃ c r, s = p ++ c :: r ∧ stop c = true ∧ ∀ b ∈ p, stop b = false := by
  induction s generalizing p with
  | nil => cases h
  | cons b s ih =>
      rw [scan] at h
      split at h
      · rename_i hb
        cases h
        exact ⟨b, s, rfl, hb, fun _ ha ↦ by cases ha⟩
      · rename_i hb
        obtain ⟨p, hp, rfl⟩ := Option.map_eq_some_iff.mp h
        obtain ⟨c, r, rfl, hc, hall⟩ := ih hp
        refine ⟨c, r, rfl, hc, fun a ha ↦ ?_⟩
        rcases List.mem_cons.mp ha with rfl | ha
        · exact Bool.eq_false_iff.mpr hb
        · exact hall a ha

theorem line_append (hp : ∀ b ∈ p, b ≠ '\n' ∧ b ≠ '\x00') : line (p ++ '\n' :: r) = some p := by
  have hscan : scan (fun c ↦ c = '\n' ∨ c = '\x00') (p ++ '\n' :: r) = some p :=
    scan_append (fun b hb ↦ by simp [hp b hb]) rfl
  rw [line, hscan, Option.bind_some, List.getElem?_append_right (Nat.le_refl _), Nat.sub_self]
  exact if_pos rfl

theorem exists_of_line (h : line s = some p) :
    ∃ r, s = p ++ '\n' :: r ∧ ∀ b ∈ p, b ≠ '\n' ∧ b ≠ '\x00' := by
  obtain ⟨l, hscan, hfound⟩ := Option.bind_eq_some_iff.mp h
  split at hfound
  · rename_i hnewline
    cases hfound
    obtain ⟨c, r, rfl, -, hall⟩ := exists_of_scan hscan
    rw [List.getElem?_append_right (Nat.le_refl _), Nat.sub_self] at hnewline
    cases hnewline
    exact ⟨r, rfl, fun b hb ↦ by simpa using hall b hb⟩
  · cases hfound

theorem field_append (hcomma : ',' ∉ p) (hnul : '\x00' ∉ p) (hc : c = ',' ∨ c = '\x00') :
    field (p ++ c :: r) = some p := by
  refine scan_append (fun b hb ↦ ?_) (by simpa using hc)
  simp only [decide_eq_false_iff_not, not_or]
  exact ⟨fun h ↦ hcomma (h ▸ hb), fun h ↦ hnul (h ▸ hb)⟩

/-- The lines are patched in place. -/
theorem tracTicketCsv_lines (hp : ∀ b ∈ p, b ≠ '\n' ∧ b ≠ '\x00')
    (hq : ∀ b ∈ q, b ≠ '\n' ∧ b ≠ '\x00') :
    tracTicketCsv (p ++ '\n' :: (q ++ '\n' :: r)) =
      csvLoop (p ++ '\x00' :: (q ++ '\x00' :: r)) (q ++ '\x00' :: r) := by
  have hdrop : ∀ (p : CString) (c : Char) (r : List Char), (p ++ c :: r).drop (p.length + 1) = r :=
    fun p c r ↦ by simp
  rw [tracTicketCsv, line_append hp, Option.bind_some, hdrop]
  dsimp only
  rw [line_append hq, Option.bind_some, hdrop]

theorem exists_of_tracTicketCsv {entries : List (CString × CString)}
    (h : tracTicketCsv s = some entries) :
    ∃ p q r, s = p ++ '\n' :: (q ++ '\n' :: r) ∧ (∀ b ∈ p, b ≠ '\n' ∧ b ≠ '\x00') ∧
      ∀ b ∈ q, b ≠ '\n' ∧ b ≠ '\x00' := by
  obtain ⟨p, hline, h⟩ := Option.bind_eq_some_iff.mp h
  obtain ⟨q, hline', -⟩ := Option.bind_eq_some_iff.mp h
  obtain ⟨r, rfl, hp⟩ := exists_of_line hline
  obtain ⟨r', hr, hq⟩ := exists_of_line hline'
  have hdrop : (p ++ '\n' :: r).drop (p.length + 1) = r := by simp
  rw [hdrop] at hr
  exact ⟨p, q, r', by rw [hr], hp, hq⟩

end Searches

/-! ## The loop -/

section Loop

variable {c d : Char} {l m p q r u headers data rest : List Char} {ps qs : List CString}

theorem head_append (hnul : '\x00' ∉ p) :
    (p ++ c :: r).head? = some '\x00' ↔ p = [] ∧ c = '\x00' := by
  cases p with
  | nil => rw [List.nil_append, List.head?_cons, Option.some_inj, and_iff_right rfl]
  | cons e p =>
      rw [List.cons_append, List.head?_cons, Option.some_inj]
      exact iff_of_false (fun h ↦ hnul (h ▸ List.mem_cons_self)) (fun h ↦ by cases h.1)

/-- Both cursors move behind what they read. -/
theorem csvLoop_append (hp : ',' ∉ p) (hp' : '\x00' ∉ p) (hq : ',' ∉ q) (hq' : '\x00' ∉ q)
    (hc : c = ',' ∨ c = '\x00') (hd : d = ',' ∨ d = '\x00') :
    csvLoop (p ++ c :: r) (q ++ d :: u) =
      if p = [] ∧ c = '\x00' ∨ q = [] ∧ d = '\x00' then some []
      else (csvLoop r u).map ((p, q) :: ·) := by
  have hheader := field_append (r := r) hp hp' hc
  have hfield := field_append (r := u) hq hq' hd
  obtain ⟨a, s, hs⟩ := List.exists_cons_of_ne_nil
    (List.append_ne_nil_of_right_ne_nil p (List.cons_ne_nil c r))
  obtain ⟨b, t, ht⟩ := List.exists_cons_of_ne_nil
    (List.append_ne_nil_of_right_ne_nil q (List.cons_ne_nil d u))
  have ha : a = '\x00' ↔ p = [] ∧ c = '\x00' := by
    rw [← head_append hp' (r := r), hs, List.head?_cons, Option.some_inj]
  have hb : b = '\x00' ↔ q = [] ∧ d = '\x00' := by
    rw [← head_append hq' (r := u), ht, List.head?_cons, Option.some_inj]
  have hdrop : (p ++ c :: r).drop (p.length + 1) = r := by simp
  have hdrop' : (q ++ d :: u).drop (q.length + 1) = u := by simp
  rw [hs] at hheader hdrop
  rw [ht] at hfield hdrop'
  rw [hs, ht, csvLoop, hheader, hfield, Option.bind_some, Option.bind_some, hdrop, hdrop']
  by_cases haz : a = '\x00'
  · rw [if_pos haz, if_pos (.inl (ha.mp haz))]
  · by_cases hbz : b = '\x00'
    · rw [if_neg haz, if_pos hbz, if_pos (.inr (hb.mp hbz))]
    · rw [if_neg haz, if_neg hbz, if_neg (not_or.mpr ⟨haz ∘ ha.mpr, hbz ∘ hb.mpr⟩)]

/-- Nothing is added exactly where a cursor is on a terminator. -/
theorem csvLoop_eq_nil_iff (hc : c ≠ '\x00') :
    csvLoop (c :: headers) data = some [] ↔ data.head? = some '\x00' := by
  cases data with
  | nil =>
      rw [csvLoop, if_neg hc]
      exact iff_of_false (fun h ↦ by cases h) (fun h ↦ by cases h)
  | cons d data =>
      rw [csvLoop, if_neg hc, List.head?_cons, Option.some_inj]
      constructor
      · intro h
        by_contra hd
        rw [if_neg hd] at h
        obtain ⟨header, -, h⟩ := Option.bind_eq_some_iff.mp h
        obtain ⟨csv, -, h⟩ := Option.bind_eq_some_iff.mp h
        obtain ⟨entries, -, h⟩ := Option.map_eq_some_iff.mp h
        cases h
      · intro hd
        rw [if_pos hd]

theorem csvLoop_append_eq_nil_iff (hnul : '\x00' ∉ l) :
    csvLoop (l ++ '\x00' :: r) data = some [] ↔ l = [] ∨ data.head? = some '\x00' := by
  cases l with
  | nil =>
      rw [List.nil_append]
      refine iff_of_true ?_ (.inl rfl)
      cases data with
      | nil => rw [csvLoop, if_pos rfl]
      | cons d data => rw [csvLoop, if_pos rfl]
  | cons c l =>
      rw [List.cons_append, csvLoop_eq_nil_iff fun hc ↦ hnul (hc ▸ List.mem_cons_self)]
      exact (or_iff_right (List.cons_ne_nil c l)).symm

/-- A line and its fields. -/
inductive Pieces : CString → List CString → Prop
  | last {p : CString} (hp : ',' ∉ p) : Pieces p [p]
  | more {p l : CString} {ps : List CString} (hp : ',' ∉ p) (hl : Pieces l ps) :
      Pieces (p ++ ',' :: l) (p :: ps)

theorem Pieces.splitOn (h : Pieces l ps) : l.splitOn ',' = ps := by
  induction h with
  | last hp => exact List.splitOn_eq_singleton hp
  | more hp _ ih => rw [List.splitOn_append_cons_self_of_not_mem hp, ih]

theorem Pieces.cons (hc : c ≠ ',') (h : Pieces l ps) :
    ∃ ps, Pieces (c :: l) ps := by
  cases h with
  | last hp => exact ⟨_, .last fun hmem ↦ (List.mem_cons.mp hmem).elim (hc ·.symm) hp⟩
  | more hp hl =>
      exact ⟨_, .more (p := c :: _) (fun hmem ↦ (List.mem_cons.mp hmem).elim (hc ·.symm) hp) hl⟩

theorem exists_pieces (l : CString) : ∃ ps, Pieces l ps := by
  induction l with
  | nil => exact ⟨_, .last List.not_mem_nil⟩
  | cons c l ih =>
      obtain ⟨ps, h⟩ := ih
      by_cases hc : c = ','
      · subst hc
        exact ⟨_, .more List.not_mem_nil h⟩
      · exact h.cons hc

theorem pieces_splitOn (l : CString) : Pieces l (l.splitOn ',') := by
  obtain ⟨ps, h⟩ := exists_pieces l
  rwa [h.splitOn]

theorem Pieces.ne_nil (h : Pieces l ps) : ps ≠ [] := by
  cases h <;> exact List.cons_ne_nil _ _

/-- The fields of a line without its CR. -/
def strippedLast : List CString → List CString
  | [] => []
  | [p] => [stripped p]
  | p :: q :: ps => p :: strippedLast (q :: ps)

theorem Pieces.strippedLast_cons (h : Pieces l ps) (p : CString) :
    strippedLast (p :: ps) = p :: strippedLast ps := by
  obtain ⟨q, ps, rfl⟩ := List.exists_cons_of_ne_nil h.ne_nil
  rfl

theorem Pieces.getLast?_cons (h : Pieces l ps) (p : CString) :
    (p :: ps).getLast? = ps.getLast? := by
  obtain ⟨q, ps, rfl⟩ := List.exists_cons_of_ne_nil h.ne_nil
  exact List.getLast?_cons_cons

theorem Pieces.strippedLast_ne_nil (h : Pieces l ps) : strippedLast ps ≠ [] := by
  cases h with
  | last _ => exact List.cons_ne_nil _ _
  | more _ hl => rw [hl.strippedLast_cons]; exact List.cons_ne_nil _ _

theorem stripped_append (p l : CString) : stripped (p ++ ',' :: l) = p ++ ',' :: stripped l := by
  rw [stripped, stripped, List.getLast?_append_of_ne_nil _ (List.cons_ne_nil ',' l)]
  cases l with
  | nil => rfl
  | cons c l =>
      rw [List.getLast?_cons_cons]
      split
      · rw [List.dropLast_append_of_ne_nil (List.cons_ne_nil _ _), List.dropLast_cons_cons]
      · rfl

/-- Stripping a line strips its last field. -/
theorem Pieces.stripped (h : Pieces l ps) : Pieces (stripped l) (strippedLast ps) := by
  induction h with
  | last hp =>
      refine .last fun hmem ↦ hp ?_
      rw [Trac.stripped] at hmem
      split at hmem
      · exact (List.dropLast_sublist _).subset hmem
      · exact hmem
  | more hp hl ih =>
      rw [stripped_append, hl.strippedLast_cons]
      exact .more hp ih

theorem whole_singleton : Whole [p] ↔ p ≠ [] ∧ stripped p = p :=
  ⟨fun h ↦ h p rfl, fun h l hl ↦ by cases hl; exact h⟩

theorem Pieces.whole_cons (h : Pieces l ps) (p : CString) : Whole (p :: ps) ↔ Whole ps := by
  rw [Whole, h.getLast?_cons, Whole]

theorem Pieces.length_pos (h : Pieces l ps) : 0 < ps.length :=
  List.length_pos_of_ne_nil h.ne_nil

theorem Pieces.eq_nil_iff (h : Pieces l ps) : l = [] ↔ ps.length = 1 ∧ ps.getLast? = some [] := by
  cases h with
  | last _ => simp
  | more hp hl =>
      refine iff_of_false (by simp) fun hlength ↦ ?_
      have := hl.length_pos
      rw [List.length_cons] at hlength
      omega

/-- A cursor on the next pair: what is added behind it decides. -/
theorem map_cons_eq_iff {x y : CString × CString} {entries : List (CString × CString)}
    {o : Option (List (CString × CString))} :
    o.map (x :: ·) = some (y :: entries) ↔ x = y ∧ o = some entries := by
  cases o with
  | none => exact iff_of_false (fun h ↦ by cases h) (fun h ↦ by cases h.2)
  | some rest => simp

/-- The loop adds the fields as they should be exactly where its cursors stop in time: there is
more behind the terminator of the headers, and `rest` is behind that of the data. -/
theorem csvLoop_eq_some_iff (hc : c ≠ '\x00') (hl : Pieces l ps) (hm : Pieces m qs)
    (hl' : '\x00' ∉ l) (hm' : '\x00' ∉ m) :
    csvLoop (l ++ '\x00' :: (c :: r)) (m ++ '\x00' :: rest) =
        some ((strippedLast ps).zip (strippedLast qs)) ↔ Aligned ps qs rest := by
  induction hl generalizing m qs with
  | @last p hp =>
      cases hm with
      | last hm =>
          rw [csvLoop_append hp hl' hm hm' (.inr rfl) (.inr rfl), Aligned, whole_singleton,
            whole_singleton]
          by_cases hempty : p = [] ∨ m = []
          · rw [if_pos (by simpa using hempty)]
            refine iff_of_false (fun h ↦ by cases h) ?_
            simp only [List.length_singleton]
            rintro (⟨h, -⟩ | ⟨-, ⟨hp, -⟩, ⟨hm, -⟩, -⟩ | ⟨h, -⟩)
            · omega
            · exact hempty.elim hp hm
            · omega
          · obtain ⟨hp, hm⟩ := not_or.mp hempty
            rw [if_neg (by simpa using hempty)]
            change _ = some ((stripped p, stripped m) :: []) ↔ _
            rw [map_cons_eq_iff, csvLoop_eq_nil_iff hc, Prod.mk.injEq, eq_comm, eq_comm (a := m)]
            simp [hp, hm, and_assoc]
      | @more q m qs hq hm =>
          have hnul : '\x00' ∉ m := fun h ↦ hm' (by simp [h])
          have hpos := hm.length_pos
          rw [List.append_assoc, List.cons_append, csvLoop_append hp hl' hq
            (fun h ↦ hm' (List.mem_append_left _ h)) (.inr rfl) (.inl rfl), Aligned,
            whole_singleton, hm.getLast?_cons, hm.strippedLast_cons]
          by_cases hempty : p = []
          · rw [if_pos (.inl ⟨hempty, rfl⟩)]
            refine iff_of_false (fun h ↦ by cases h) ?_
            simp only [List.length_cons, List.length_nil]
            rintro (⟨-, ⟨hp, -⟩, -⟩ | ⟨h, -⟩ | ⟨h, -⟩)
            · exact hp hempty
            · omega
            · omega
          · rw [if_neg (by simpa using hempty)]
            change _ = some ((stripped p, q) :: []) ↔ _
            rw [map_cons_eq_iff, csvLoop_eq_nil_iff hc, head_append hnul, and_iff_left rfl,
              hm.eq_nil_iff, Prod.mk.injEq, and_iff_left rfl, eq_comm]
            simp only [List.length_cons, List.length_nil]
            constructor
            · rintro ⟨hstripped, hlength, hlast⟩
              exact .inl ⟨by omega, ⟨hempty, hstripped⟩, hlast⟩
            · rintro (⟨hlength, ⟨-, hstripped⟩, hlast⟩ | ⟨h, -⟩ | ⟨h, -⟩)
              · exact ⟨hstripped, by omega, hlast⟩
              · omega
              · omega
  | @more p l ps hp hl ih =>
      have hnul : '\x00' ∉ l := fun h ↦ hl' (by simp [h])
      cases hm with
      | last hm =>
          have hpos := hl.length_pos
          rw [List.append_assoc, List.cons_append, csvLoop_append hp
            (fun h ↦ hl' (List.mem_append_left _ h)) hm hm' (.inl rfl) (.inr rfl), Aligned,
            whole_singleton, hl.getLast?_cons, hl.strippedLast_cons]
          by_cases hempty : m = []
          · rw [if_pos (.inr ⟨hempty, rfl⟩)]
            refine iff_of_false (fun h ↦ by cases h) ?_
            simp only [List.length_cons, List.length_nil]
            rintro (⟨h, -⟩ | ⟨h, -⟩ | ⟨-, ⟨hm, -⟩, -⟩)
            · omega
            · omega
            · exact hm hempty
          · rw [if_neg (by simpa using hempty)]
            rw [show strippedLast [m] = [stripped m] from rfl, List.zip_cons_cons,
              List.zip_nil_right, map_cons_eq_iff, csvLoop_append_eq_nil_iff hnul, hl.eq_nil_iff,
              Prod.mk.injEq, and_iff_right rfl, eq_comm]
            simp only [List.length_cons, List.length_nil]
            constructor
            · rintro ⟨hstripped, ⟨hlength, hlast⟩ | hrest⟩
              · exact .inr (.inr ⟨by omega, ⟨hempty, hstripped⟩, .inr ⟨by omega, hlast⟩⟩)
              · exact .inr (.inr ⟨by omega, ⟨hempty, hstripped⟩, .inl hrest⟩)
            · rintro (⟨h, -⟩ | ⟨h, -⟩ | ⟨-, ⟨-, hstripped⟩, hrest | ⟨hlength, hlast⟩⟩)
              · omega
              · omega
              · exact ⟨hstripped, .inr hrest⟩
              · exact ⟨hstripped, .inl ⟨by omega, hlast⟩⟩
      | @more q m qs hq hm =>
          have hnul' : '\x00' ∉ m := fun h ↦ hm' (by simp [h])
          rw [List.append_assoc, List.cons_append, List.append_assoc, List.cons_append,
            csvLoop_append hp (fun h ↦ hl' (List.mem_append_left _ h)) hq
            (fun h ↦ hm' (List.mem_append_left _ h)) (.inl rfl) (.inl rfl), if_neg (by simp),
            hl.strippedLast_cons, hm.strippedLast_cons, List.zip_cons_cons, map_cons_eq_iff,
            and_iff_right rfl, ih hm hnul hnul', Aligned, Aligned, hl.whole_cons, hm.whole_cons,
            hl.getLast?_cons, hm.getLast?_cons]
          simp

end Loop

/-! ## What is read -/

section Result

variable {l p q r rest : List Char} {calls : List (List Char × Char)}

theorem fields_eq (hl : stripped l ≠ []) : fields l = strippedLast (l.splitOn ',') := by
  rw [fields, if_neg hl, (pieces_splitOn l).stripped.splitOn]

theorem eq_of_stripped_eq_nil (hl : l ≠ []) (h : stripped l = []) : l = ['\r'] := by
  rw [stripped] at h
  split at h
  · rename_i hlast
    rw [← List.dropLast_append_getLast? '\r' hlast, h, List.nil_append]
  · exact absurd h hl

theorem not_whole_cr : ¬ Whole [['\r']] := fun h ↦ by
  cases (whole_singleton.mp h).2

/-- Two lines that are not empty, one of them a CR alone. -/
theorem not_aligned_of_cr (h : p = ['\r'] ∨ q = ['\r']) :
    ¬ Aligned (p.splitOn ',') (q.splitOn ',') r := by
  have hp := (pieces_splitOn p).length_pos
  have hq := (pieces_splitOn q).length_pos
  have hcr : (['\r'] : List Char).splitOn ',' = [['\r']] := rfl
  rcases h with rfl | rfl
  · rw [hcr]
    rintro (⟨-, h, -⟩ | ⟨-, h, -⟩ | ⟨h, -⟩)
    · exact not_whole_cr h
    · exact not_whole_cr h
    · rw [List.length_singleton] at h
      omega
  · rw [hcr]
    rintro (⟨h, -⟩ | ⟨-, -, h, -⟩ | ⟨-, h, -⟩)
    · rw [List.length_singleton] at h
      omega
    · exact not_whole_cr h
    · exact not_whole_cr h

theorem csvLoop_eq_fields_iff (hp : '\x00' ∉ p) (hq : '\x00' ∉ q) :
    csvLoop (p ++ '\x00' :: (q ++ '\x00' :: r)) (q ++ '\x00' :: r) =
        some ((fields p).zip (fields q)) ↔
      p = [] ∨ q = [] ∨ Aligned (p.splitOn ',') (q.splitOn ',') r := by
  by_cases hpnil : p = []
  · subst hpnil
    exact iff_of_true ((csvLoop_append_eq_nil_iff hp).mpr (.inl rfl)) (.inl rfl)
  by_cases hqnil : q = []
  · subst hqnil
    refine iff_of_true ?_ (.inr (.inl rfl))
    rw [show fields [] = [] from rfl, List.zip_nil_right]
    exact (csvLoop_append_eq_nil_iff hp).mpr (.inr rfl)
  rw [or_iff_right hpnil, or_iff_right hqnil]
  by_cases hcr : stripped p = [] ∨ stripped q = []
  · -- nothing is to be added, but the cursors are on fields
    have hnil : (fields p).zip (fields q) = [] := by
      rcases hcr with h | h
      · rw [fields, if_pos h, List.zip_nil_left]
      · rw [fields, fields, if_pos h, List.zip_nil_right]
    rw [hnil, csvLoop_append_eq_nil_iff hp, head_append hq]
    refine iff_of_false ?_ (not_aligned_of_cr
      (hcr.imp (eq_of_stripped_eq_nil hpnil) (eq_of_stripped_eq_nil hqnil)))
    rintro (h | ⟨h, -⟩)
    · exact hpnil h
    · exact hqnil h
  · obtain ⟨hp', hq'⟩ := not_or.mp hcr
    rw [fields_eq hp', fields_eq hq']
    obtain ⟨c, s, rfl⟩ := List.exists_cons_of_ne_nil hqnil
    exact csvLoop_eq_some_iff (fun hc ↦ hq (hc ▸ List.mem_cons_self)) (pieces_splitOn p)
      (pieces_splitOn (c :: s)) hp hq

theorem ticket_lines (hp : '\n' ∉ p) (hq : '\n' ∉ q) :
    ticket (p ++ '\n' :: (q ++ '\n' :: rest)) = (fields p).zip (fields q) := by
  rw [ticket, List.splitOn_append_cons_self_of_not_mem hp,
    List.splitOn_append_cons_self_of_not_mem hq]

/-- A body is read exactly if it is one of these. -/
theorem tracTicketCsv_eq_iff (body : List Char) :
    tracTicketCsv (body ++ ['\x00']) = some (ticket body) ↔ Tidy body := by
  have hlines : ∀ {p q rest : List Char}, (∀ c ∈ p, c ≠ '\n' ∧ c ≠ '\x00') →
      (∀ c ∈ q, c ≠ '\n' ∧ c ≠ '\x00') →
      (tracTicketCsv (p ++ '\n' :: (q ++ '\n' :: rest) ++ ['\x00']) =
          some (ticket (p ++ '\n' :: (q ++ '\n' :: rest))) ↔
        p = [] ∨ q = [] ∨ Aligned (p.splitOn ',') (q.splitOn ',') (rest ++ ['\x00'])) := by
    intro p q rest hp hq
    rw [ticket_lines (fun h ↦ (hp _ h).1 rfl) (fun h ↦ (hq _ h).1 rfl), List.append_assoc,
      List.cons_append, List.append_assoc, List.cons_append, tracTicketCsv_lines hp hq]
    exact csvLoop_eq_fields_iff (fun h ↦ (hp _ h).2 rfl) (fun h ↦ (hq _ h).2 rfl)
  constructor
  · intro h
    obtain ⟨p, q, r, hbody, hp, hq⟩ := exists_of_tracTicketCsv h
    rcases List.eq_nil_or_concat' r with rfl | ⟨rest, c, rfl⟩
    · have hlast := congrArg List.getLast? hbody
      rw [List.getLast?_concat, List.getLast?_append_of_ne_nil _ (List.cons_ne_nil _ _),
        List.getLast?_cons, List.getLast?_concat] at hlast
      cases hlast
    · have hsplit : body ++ ['\x00'] = (p ++ '\n' :: (q ++ '\n' :: rest)) ++ [c] := by
        rw [hbody]
        simp
      obtain ⟨rfl, -⟩ := List.append_inj' hsplit rfl
      refine ⟨p, q, rest, rfl, fun c hc ↦ ?_, (hlines hp hq).mp h⟩
      exact (List.mem_append.mp hc).elim (hp c) (hq c)
  · rintro ⟨p, q, rest, rfl, hall, htidy⟩
    exact (hlines (fun c hc ↦ hall c (List.mem_append_left _ hc))
      (fun c hc ↦ hall c (List.mem_append_right _ hc))).mpr htidy

/-- Of the calls, the last is what is left. -/
theorem memorized_concat (before : List (List Char × Char)) (call : List Char × Char) :
    memorized (before ++ [call]) = some (call.1 ++ [call.2]) := by
  rw [memorized, List.foldl_append]
  rfl

/-- A ticket is read exactly if its body comes in one call and is one of those. -/
theorem reads_iff (calls : List (List Char × Char)) : Reads calls ↔ InOne calls := by
  rcases List.eq_nil_or_concat' calls with rfl | ⟨before, ⟨body, heap⟩, rfl⟩
  · exact iff_of_true ⟨fun page h ↦ (by cases h), rfl⟩ (.inl rfl)
  have hflatten : ((before ++ [(body, heap)]).map Prod.fst).flatten =
      (before.map Prod.fst).flatten ++ body := by simp
  constructor
  · intro h
    have hpage := h.page _ (memorized_concat before (body, heap))
    have htree := h.tree
    rw [hflatten] at hpage htree
    obtain ⟨hbody, hheap⟩ := List.append_inj' hpage rfl
    cases hheap
    have hnil : (before.map Prod.fst).flatten = [] := List.self_eq_append_left.mp hbody
    rw [hnil, List.nil_append, memorized_concat] at htree
    refine .inr ⟨before, body, rfl, fun call hcall ↦ ?_, (tracTicketCsv_eq_iff body).mp htree⟩
    exact List.flatten_eq_nil_iff.mp hnil call.1 (List.mem_map_of_mem hcall)
  · rintro (hnil | ⟨before', body', heq, hempty, htidy⟩)
    · cases (List.append_ne_nil_of_right_ne_nil before (List.cons_ne_nil _ []) hnil)
    · obtain ⟨rfl, hlast⟩ := List.append_inj' heq rfl
      cases hlast
      have hnil : (before.map Prod.fst).flatten = [] := by
        refine List.flatten_eq_nil_iff.mpr fun chunk hchunk ↦ ?_
        obtain ⟨call, hcall, rfl⟩ := List.mem_map.mp hchunk
        exact hempty call hcall
      constructor
      · intro page hpage
        rw [memorized_concat, Option.some_inj] at hpage
        rw [hflatten, hnil, ← hpage, List.nil_append]
      · rw [hflatten, hnil, memorized_concat, List.nil_append]
        exact (tracTicketCsv_eq_iff body).mpr htidy

/-- A body in two calls: the first is lost. -/
theorem not_reads : ¬ ∀ calls : List (List Char × Char), Reads calls := fun h ↦
  absurd ((h [("id,summary\n".toList, '\x00'), ("1,broken\n".toList, '\x00')]).page _ rfl)
    (by decide)

end Result

end Beirdobot.Trac
