import Beirdobot.Dns.FindRR
import Mathlib.Data.List.Nodup

/-!
# The records of a reply

What there is in a reply for `findRR` to visit and to show, and when it does so without
leaving the reply or `result`.
-/

namespace Beirdobot.Dns

/-- What a record has to show: the text, whether a name in it fails to be expanded, the end
of what is read, and the length of the second name of a `T_SOA`. -/
structure Content where
  text : CString
  fails : Bool
  last : ℕ
  count : ℕ
  deriving DecidableEq

section Reply

variable (names : Names) (reply : List UInt8)

/-- A text of up to `dlen` bytes, which a NUL ends. -/
def textContent (cp dlen : ℕ) : Content :=
  let bytes := (reply.drop cp).take dlen
  let text := bytes.takeWhile (· != 0)
  ⟨text.map fun b ↦ Char.ofNat b.toNat, false,
    if 0 ∈ bytes then cp + text.length + 1 else cp + dlen, 0⟩

def nameContent (cp : ℕ) : Content :=
  match names.dnExpand reply cp with
  | none => ⟨[], true, cp, 0⟩
  | some (_, temp) => ⟨temp ++ [' '], false, cp, 0⟩

def mxContent (cp : ℕ) : Content :=
  match names.dnExpand reply (cp + 2) with
  | none => ⟨[], true, cp + 2, 0⟩
  | some (_, temp) =>
      ⟨'(' :: Nat.toDigits 10 (shortAt reply cp) ++ [')', ' '] ++ temp ++ [' '], false, cp + 2, 0⟩

def soaContent (cp : ℕ) : Content :=
  match names.dnExpand reply cp with
  | none => ⟨[], true, cp, 0⟩
  | some (n, temp) =>
      match names.dnExpand reply (cp + n) with
      | none => ⟨temp ++ ['.', ' '], true, cp, 0⟩
      | some (m, temp') =>
          let ttls := (List.range 5).map fun i ↦ longAt reply (cp + n + m + 4 * i)
          ⟨temp ++ ['.', ' '] ++ (temp' ++ ['.', ' '] ++ ttls.flatMap fun ttl ↦ showInt ttl ++ [' ']),
            false, cp + n + m + 20, m⟩

def content (requestedType : ℕ) (r : Record) : Content :=
  match requestedType with
  | 1 =>
      ⟨inetNtoa ((List.range 4).map fun i ↦ byteAt reply (r.data + i)) ++ [' '], false, r.data + 4, 0⟩
  | 15 => mxContent names reply r.data
  | 16 =>
      let k := textContent reply r.data r.dlen
      { k with text := k.text ++ [' '] }
  | 6 => soaContent names reply r.data
  | 28 =>
      ⟨aaaaText (fun i ↦ reply.getD (r.data + i) 0) r.dlen ++ [' '], false,
        r.data + 2 * ((r.dlen + 1) / 2), 0⟩
  | _ => nameContent names reply r.data

/-! ## A record of the requested type -/

/-- A case leaves the reply or `result`, or stops where a name is not expanded, or appends
the text. -/
structure Shows (result : CString) (k : Content) (count : ℕ) (x : Except Stop (CString × ℕ)) :
    Prop where
  leaves : ¬(k.last ≤ reply.length ∧ result.length + k.text.length < 512) →
    x = .error .outside ∨ x = .error .overflow
  fails : k.last ≤ reply.length ∧ result.length + k.text.length < 512 → k.fails = true →
    x = .error .unexpanded
  appends : k.last ≤ reply.length ∧ result.length + k.text.length < 512 → k.fails = false →
    x = .ok (result ++ k.text, count)

variable {names reply} {result text : CString} {k : Content} {r : Record} {count : ℕ}

theorem strcat_of_lt (h : result.length + text.length < 512) :
    strcat result text = .ok (result ++ text) := if_pos h

theorem strcat_of_not_lt (h : ¬ result.length + text.length < 512) :
    strcat result text = .error .overflow := if_neg h

theorem strcat_strcat (result text text' : CString) :
    (strcat result text >>= fun result ↦ strcat result text') = strcat result (text ++ text') := by
  by_cases h : result.length + text.length < 512
  · rw [strcat_of_lt h]
    show strcat (result ++ text) text' = _
    rw [strcat, strcat, List.length_append, List.length_append, List.append_assoc, Nat.add_assoc]
  · have hboth : ¬ result.length + (text ++ text').length < 512 := by
      rw [List.length_append]
      omega
    rw [strcat_of_not_lt h, strcat_of_not_lt hboth]
    rfl

theorem strcat_bind {α : Type} (result text text' : CString) (f : CString → Except Stop α) :
    (strcat result text >>= fun result ↦ strcat result text' >>= f) =
      strcat result (text ++ text') >>= f := by
  rw [← strcat_strcat, bind_assoc]

/-- The last step of a case: all has been read. -/
theorem shows_strcat (hlast : k.last ≤ reply.length) (hfails : k.fails = false) :
    Shows reply result k count ((strcat result k.text).map (·, count)) := by
  constructor
  · intro h
    rw [strcat_of_not_lt (fun hlt ↦ h ⟨hlast, hlt⟩)]
    exact .inr rfl
  · intro _ h
    rw [hfails] at h
    cases h
  · intro h _
    rw [strcat_of_lt h.2]
    rfl

theorem shows_outside (hlast : ¬ k.last ≤ reply.length) :
    Shows reply result k count (.error .outside) :=
  ⟨fun _ ↦ .inl rfl, fun h ↦ absurd h.1 hlast, fun h ↦ absurd h.1 hlast⟩

theorem shows_overflow (hlt : ¬ result.length + k.text.length < 512) :
    Shows reply result k count (.error .overflow) :=
  ⟨fun _ ↦ .inr rfl, fun h ↦ absurd h.2 hlt, fun h ↦ absurd h.2 hlt⟩

theorem shows_unexpanded (hlast : k.last ≤ reply.length) (hfails : k.fails = true)
    (hlt : result.length + k.text.length < 512) :
    Shows reply result k count (.error .unexpanded) :=
  ⟨fun h ↦ absurd ⟨hlast, hlt⟩ h, fun _ _ ↦ rfl, fun _ h ↦ absurd (hfails.symm.trans h) (by decide)⟩

theorem nameCase_shows (hresult : result.length < 512) (hdata : r.data ≤ reply.length) (count : ℕ) :
    Shows reply result (nameContent names reply r.data) count
      ((nameCase names reply result r).map (·, count)) := by
  rw [nameContent, nameCase, expand]
  cases names.dnExpand reply r.data with
  | none => exact shows_unexpanded hdata rfl hresult
  | some name =>
      have hcase := strcat_strcat result name.2 [' ']
      show Shows _ _ _ _ (Except.map _ (strcat result name.2 >>= fun result ↦ strcat result [' ']))
      rw [hcase]
      exact shows_strcat hdata rfl

theorem aCase_shows (result : CString) (r : Record) (count : ℕ) :
    Shows reply result (content names reply 1 r) count ((aCase reply result r).map (·, count)) := by
  have hbyte : ∀ i, byte reply (r.data + i) =
      within reply (r.data + i + 1) (byteAt reply (r.data + i)) := fun i ↦ byte_eq reply _
  rw [aCase]
  by_cases h : ∀ i ∈ List.range 4, r.data + i + 1 ≤ reply.length
  · have hlast : r.data + 4 ≤ reply.length := h 3 (by decide)
    rw [mapM_within reply hbyte h]
    have hcase := strcat_strcat result
      (inetNtoa ((List.range 4).map fun i ↦ byteAt reply (r.data + i))) [' ']
    show Shows _ _ _ _ (Except.map _ (strcat result _ >>= fun result ↦ strcat result [' ']))
    rw [hcase]
    exact shows_strcat hlast rfl
  · have hlast : ¬ r.data + 4 ≤ reply.length := by
      intro hlast
      refine h fun i hi ↦ ?_
      have hi := List.mem_range.mp hi
      omega
    rw [mapM_outside reply hbyte h]
    exact shows_outside hlast

theorem mxCase_shows (hresult : result.length < 512) (r : Record) (count : ℕ) :
    Shows reply result (mxContent names reply r.data) count
      ((mxCase names reply result r).map (·, count)) := by
  rw [mxContent, mxCase, expand, getShort_eq, within]
  by_cases hlast : r.data + 2 ≤ reply.length
  · rw [if_pos hlast]
    cases names.dnExpand reply (r.data + 2) with
    | none => exact shows_unexpanded hlast rfl hresult
    | some name => exact shows_strcat hlast rfl
  · rw [if_neg hlast]
    apply shows_outside
    cases names.dnExpand reply (r.data + 2) <;> exact hlast

theorem strncatText_eq {cp : ℕ} (hcp : cp ≤ reply.length) (dlen : ℕ) :
    strncatText reply cp dlen =
      within reply (textContent reply cp dlen).last (textContent reply cp dlen).text := by
  induction dlen generalizing cp with
  | zero => exact (within_of_le reply hcp _).symm
  | succ dlen ih =>
      rw [strncatText, byte_eq]
      rcases Nat.lt_or_eq_of_le hcp with hlt | rfl
      · have hdrop : reply.drop cp = reply[cp] :: reply.drop (cp + 1) := List.drop_eq_getElem_cons hlt
        have hbyte : byteAt reply cp = reply[cp].toNat := by
          rw [byteAt, List.getD_eq_getElem?_getD, List.getElem?_eq_getElem hlt]
          rfl
        rw [within_of_le reply hlt, hbyte]
        by_cases hzero : reply[cp] = 0
        · have hcontent : textContent reply cp (dlen + 1) = ⟨[], false, cp + 1, 0⟩ := by
            rw [textContent, hdrop, List.take_succ_cons, hzero, List.takeWhile_cons_of_neg (by decide),
              if_pos List.mem_cons_self]
            rfl
          rw [hzero, hcontent, within_of_le reply hlt]
          rfl
        · have hcontent : textContent reply cp (dlen + 1) =
              { textContent reply (cp + 1) dlen with
                text := Char.ofNat reply[cp].toNat :: (textContent reply (cp + 1) dlen).text } := by
            have hmem : (0 : UInt8) ∈ reply[cp] :: (reply.drop (cp + 1)).take dlen ↔
                0 ∈ (reply.drop (cp + 1)).take dlen := by
              rw [List.mem_cons, or_iff_right (fun h ↦ hzero h.symm)]
            have htake : (reply[cp] :: (reply.drop (cp + 1)).take dlen).takeWhile (· != 0) =
                reply[cp] :: ((reply.drop (cp + 1)).take dlen).takeWhile (· != 0) :=
              List.takeWhile_cons_of_pos (bne_iff_ne.mpr hzero)
            rw [textContent, textContent, hdrop, List.take_succ_cons, htake, List.map_cons,
              List.length_cons]
            dsimp only
            simp only [hmem]
            congr 1
            split <;> omega
          have hne : reply[cp].toNat ≠ 0 := fun h ↦ hzero (UInt8.toNat_inj.mp h)
          rw [hcontent]
          show (if reply[cp].toNat = 0 then _ else _) = _
          rw [if_neg hne, ih hlt]
          exact within_bind reply (Nat.le_refl _) fun h ↦ (within_of_le reply h _).symm
      · have hcontent : textContent reply reply.length (dlen + 1) =
            ⟨[], false, reply.length + (dlen + 1), 0⟩ := by
          rw [textContent, List.drop_length, List.take_nil, if_neg List.not_mem_nil]
          rfl
        rw [hcontent, within, if_neg (by omega), within, if_neg (by dsimp only; omega)]
        rfl

theorem txtCase_shows (hdata : r.data ≤ reply.length) (result : CString) (count : ℕ) :
    Shows reply result (content names reply 16 r) count ((txtCase reply result r).map (·, count)) := by
  rw [txtCase, strncatText_eq hdata, within]
  by_cases hlast : (textContent reply r.data r.dlen).last ≤ reply.length
  · rw [if_pos hlast]
    have hcase := strcat_strcat result (textContent reply r.data r.dlen).text [' ']
    show Shows _ _ _ _ (Except.map _ (strcat result _ >>= fun result ↦ strcat result [' ']))
    rw [hcase]
    exact shows_strcat hlast rfl
  · rw [if_neg hlast]
    exact shows_outside hlast

theorem aaaaCase_shows (hdata : r.data ≤ reply.length) (result : CString) (count : ℕ) :
    Shows reply result (content names reply 28 r) count
      ((aaaaCase reply result r).map (·, count)) := by
  have hshort : ∀ i, getShort reply (r.data + i) =
      within reply (r.data + i + 2) (shortAt reply (r.data + i)) := fun i ↦ getShort_eq reply _
  have hturns : (∀ i ∈ List.range' 0 ((r.dlen + 1) / 2) 2, r.data + i + 2 ≤ reply.length) ↔
      r.data + 2 * ((r.dlen + 1) / 2) ≤ reply.length := by
    generalize (r.dlen + 1) / 2 = n
    constructor
    · intro h
      cases n with
      | zero => exact hdata
      | succ n =>
          have hlast := h (2 * n) (List.mem_range'.mpr ⟨n, Nat.lt_succ_self n, by omega⟩)
          omega
    · intro h i hi
      obtain ⟨j, hj, rfl⟩ := List.mem_range'.mp hi
      omega
  rw [aaaaCase]
  by_cases hlast : r.data + 2 * ((r.dlen + 1) / 2) ≤ reply.length
  · rw [mapM_within reply hshort (hturns.mpr hlast)]
    have hcase := strcat_strcat result (aaaaText (fun i ↦ reply.getD (r.data + i) 0) r.dlen) [' ']
    show Shows _ _ _ _ (Except.map _ (strcat result _ >>= fun result ↦ strcat result [' ']))
    rw [hcase]
    exact shows_strcat hlast rfl
  · rw [mapM_outside reply hshort (fun h ↦ hlast (hturns.mp h))]
    exact shows_outside hlast

theorem ok_bind {α β : Type} (a : α) (f : α → Except Stop β) : (Except.ok a >>= f) = f a := rfl

theorem error_bind {α β : Type} (stop : Stop) (f : α → Except Stop β) :
    (Except.error stop >>= f) = .error stop := rfl

theorem soaCase_shows (hresult : result.length < 512) (hdata : r.data ≤ reply.length) :
    Shows reply result (soaContent names reply r.data) (soaContent names reply r.data).count
      (soaCase names reply result r) := by
  rcases hfirst : names.dnExpand reply r.data with _ | ⟨n, temp⟩
  · simp only [soaContent, soaCase, expand, hfirst]
    exact shows_unexpanded hdata rfl hresult
  · rcases hsecond : names.dnExpand reply (r.data + n) with _ | ⟨m, temp'⟩
    · have hcontent : soaContent names reply r.data = ⟨temp ++ ['.', ' '], true, r.data, 0⟩ := by
        simp only [soaContent, hfirst, hsecond]
      have hcase : soaCase names reply result r =
          strcat result (temp ++ ['.', ' ']) >>= fun _ ↦ .error .unexpanded := by
        rw [← strcat_bind]
        simp only [soaCase, expand, hfirst, ok_bind, hsecond, error_bind]
      rw [hcontent, hcase]
      by_cases hlt : result.length + (temp ++ ['.', ' ']).length < 512
      · rw [strcat_of_lt hlt]
        exact shows_unexpanded hdata rfl hlt
      · rw [strcat_of_not_lt hlt]
        exact shows_overflow hlt
    · have hlong : ∀ i, getLong reply (r.data + n + m + 4 * i) =
          within reply (r.data + n + m + 4 * i + 4) (longAt reply (r.data + n + m + 4 * i)) :=
        fun i ↦ getLong_eq reply _
      have hturns : (∀ i ∈ List.range 5, r.data + n + m + 4 * i + 4 ≤ reply.length) ↔
          r.data + n + m + 20 ≤ reply.length := by
        constructor
        · exact fun h ↦ h 4 (by decide)
        · intro h i hi
          have hi := List.mem_range.mp hi
          omega
      let numbers (ttls : List ℕ) : CString := ttls.flatMap fun ttl ↦ showInt ttl ++ [' ']
      let ttls := (List.range 5).map fun i ↦ longAt reply (r.data + n + m + 4 * i)
      have hcontent : soaContent names reply r.data =
          ⟨temp ++ ['.', ' '] ++ (temp' ++ ['.', ' '] ++ numbers ttls), false,
            r.data + n + m + 20, m⟩ := by
        simp only [soaContent, hfirst, hsecond, numbers, ttls]
      have hcase : soaCase names reply result r =
          strcat result (temp ++ ['.', ' '] ++ (temp' ++ ['.', ' '])) >>= fun result ↦
            ((List.range 5).mapM fun i ↦ getLong reply (r.data + n + m + 4 * i)) >>= fun ttls ↦
              strcat result (numbers ttls) >>= fun result ↦ pure (result, m) := by
        rw [← strcat_bind, ← strcat_bind]
        simp only [soaCase, expand, hfirst, ok_bind, hsecond, strcat_bind, List.append_assoc, numbers]
      rw [hcontent, hcase]
      by_cases hlast : r.data + n + m + 20 ≤ reply.length
      · have hall : (strcat result (temp ++ ['.', ' '] ++ (temp' ++ ['.', ' '])) >>= fun result ↦
            strcat result (numbers ttls) >>= fun result ↦ pure (result, m)) =
              (strcat result (temp ++ ['.', ' '] ++ (temp' ++ ['.', ' '] ++ numbers ttls))).map
                (·, m) := by
          rw [strcat_bind, List.append_assoc]
          rfl
        rw [mapM_within reply hlong (hturns.mpr hlast)]
        simp only [ok_bind]
        rw [hall]
        exact shows_strcat hlast rfl
      · rw [mapM_outside reply hlong (fun h ↦ hlast (hturns.mp h))]
        simp only [error_bind]
        rw [strcat]
        split
        · exact shows_outside hlast
        · rename_i hlt
          refine shows_overflow fun h ↦ hlt ?_
          simp only [List.length_append] at h ⊢
          omega

/-- What a record of the requested type comes to. -/
theorem rrCase_shows (names : Names) {requestedType : ℕ}
    (htype : ∃ dnsType ∈ dnsTypes, dnsType.type = requestedType) (hresult : result.length < 512)
    (hdata : r.data ≤ reply.length) (count : ℕ) :
    Shows reply result (content names reply requestedType r)
      (if requestedType = 6 then (content names reply requestedType r).count else count)
      (rrCase names reply requestedType result r count) := by
  obtain ⟨dnsType, hmem, rfl⟩ := htype
  simp only [dnsTypes, List.mem_cons, List.not_mem_nil, or_false] at hmem
  rcases hmem with rfl | rfl | rfl | rfl | rfl | rfl | rfl | rfl
  · exact aCase_shows result r count
  · exact nameCase_shows hresult hdata count
  · exact nameCase_shows hresult hdata count
  · exact soaCase_shows hresult hdata
  · exact nameCase_shows hresult hdata count
  · exact mxCase_shows hresult r count
  · exact txtCase_shows hdata result count
  · exact aaaaCase_shows hdata result count

end Reply

/-! ## The records of a reply -/

section Walk

variable (names : Names) (reply : List UInt8) (requestedType : ℕ)

/-- The records from a position on, up to a number of them. -/
def walk : ℕ → ℕ → List Record
  | 0, _ => []
  | n + 1, cp =>
      if cp < reply.length then recordAt names reply cp :: walk n (recordAt names reply cp).next
      else []

/-- The position behind them. -/
def walkEnd : ℕ → ℕ → ℕ
  | 0, cp => cp
  | n + 1, cp => if cp < reply.length then walkEnd n (recordAt names reply cp).next else cp

/-- The record is shown, and a name in it is not expanded. -/
def failed (r : Record) : Bool :=
  r.type == requestedType && (content names reply requestedType r).fails

def shown (r : Record) : CString :=
  if r.type = requestedType then (content names reply requestedType r).text else []

/-- The record leaves a length in `count`. -/
def setsCount (r : Record) : Bool := requestedType == 6 && r.type == 6

/-- Up to the record, if there is one, at which `findRR` returns. -/
def upToFailed : List Record → List Record
  | [] => []
  | r :: rs => if failed names reply requestedType r then [r] else r :: upToFailed rs

/-- A count is right: it lasts up to the next record that sets it anew or fails, or it is
the number of the records, or no less if the reply ends behind them. -/
def Reaches (ended : Prop) (count : ℕ) (rs : List Record) : Prop :=
  match rs.findIdx? fun r ↦ setsCount requestedType r || failed names reply requestedType r with
  | some k => k < count
  | none => rs.length ≤ count ∧ (count = rs.length ∨ ended)

/-- The records lie in the reply, with what is read of them, what they show fits behind
`result`, and the counts that they set are right. -/
structure Fits (result : CString) (ended : Prop) (rs : List Record) : Prop where
  reads : ∀ r ∈ rs, r.data ≤ reply.length ∧
    (r.type = requestedType → (content names reply requestedType r).last ≤ reply.length)
  text : result.length + (rs.flatMap (shown names reply requestedType)).length < 512
  counts : ∀ r rest, r :: rest <:+ rs → setsCount requestedType r = true →
    failed names reply requestedType r = false →
    Reaches names reply requestedType ended (content names reply requestedType r).count rest

/-- The records are visited in their order, without leaving the reply or `result`, up to
the last one or one with a name that is not expanded. -/
structure Visits (n cp : ℕ) (run : List ℕ × Stop) : Prop where
  inside : run.2 ≠ .outside
  bounded : run.2 ≠ .overflow
  order : run.1 <+: (walk names reply n cp).map Record.start
  all : ∀ result, run.2 = .returned result → run.1 = (walk names reply n cp).map Record.start

variable {names reply requestedType} {result : CString} {found : Bool} {ended : Prop}
  {count n cp : ℕ} {r : Record} {rs : List Record} {run : List ℕ × Stop}

theorem rrLoop_zero : rrLoop names reply requestedType result found 0 cp =
    ([], .returned (if found then some result else none)) := by
  rw [rrLoop]

theorem rrLoop_end (hcp : ¬ cp < reply.length) :
    rrLoop names reply requestedType result found count cp =
      ([], .returned (if found then some result else none)) := by
  cases count with
  | zero => exact rrLoop_zero
  | succ count => rw [rrLoop, dif_neg hcp]

theorem rrLoop_outside (hcp : cp < reply.length)
    (hdata : ¬ (recordAt names reply cp).data ≤ reply.length) :
    rrLoop names reply requestedType result found (count + 1) cp = ([cp], .outside) := by
  have hskip : skipToData names reply cp = .error .outside := by
    rw [skipToData_eq, within, if_neg hdata]
  rw [rrLoop, dif_pos hcp]
  split
  · rename_i stop hstop
    rw [hskip] at hstop
    cases hstop
    rfl
  · rename_i r hr
    rw [hskip] at hr
    cases hr

theorem rrLoop_inside (hcp : cp < reply.length)
    (hdata : (recordAt names reply cp).data ≤ reply.length) :
    let r := recordAt names reply cp
    rrLoop names reply requestedType result found (count + 1) cp =
      match if r.type = requestedType then rrCase names reply requestedType result r count
        else .ok (result, count) with
      | .error stop => ([cp], stop)
      | .ok (result, count) =>
        let rest := rrLoop names reply requestedType result (found || r.type == requestedType) count
          r.next
        (cp :: rest.1, rest.2) := by
  intro r
  have hskip : skipToData names reply cp = .ok r := by
    rw [skipToData_eq, within_of_le reply hdata]
  rw [rrLoop, dif_pos hcp]
  split
  · rename_i stop hstop
    rw [hskip] at hstop
    cases hstop
  · rename_i r' hr
    rw [hskip] at hr
    cases hr
    rfl

/-! ### One record more -/

theorem walk_cons (hcp : cp < reply.length) (n : ℕ) : walk names reply (n + 1) cp =
    recordAt names reply cp :: walk names reply n (recordAt names reply cp).next :=
  if_pos hcp

theorem walk_end (hcp : ¬ cp < reply.length) (n : ℕ) : walk names reply n cp = [] := by
  cases n with
  | zero => rfl
  | succ n => exact if_neg hcp

theorem walkEnd_cons (hcp : cp < reply.length) (n : ℕ) : walkEnd names reply (n + 1) cp =
    walkEnd names reply n (recordAt names reply cp).next :=
  if_pos hcp

theorem walkEnd_end (hcp : ¬ cp < reply.length) (n : ℕ) : walkEnd names reply n cp = cp := by
  cases n with
  | zero => rfl
  | succ n => exact if_neg hcp

theorem reaches_nil : Reaches names reply requestedType ended count [] ↔ count = 0 ∨ ended :=
  and_iff_right (Nat.zero_le count)

theorem not_reaches_zero : ¬ Reaches names reply requestedType ended 0 (r :: rs) := by
  rw [Reaches]
  split
  · exact Nat.not_lt_zero _
  · exact fun h ↦ Nat.not_succ_le_zero _ h.1

theorem reaches_stop
    (h : (setsCount requestedType r || failed names reply requestedType r) = true) :
    Reaches names reply requestedType ended (count + 1) (r :: rs) := by
  rw [Reaches, List.findIdx?_cons, if_pos h]
  exact Nat.succ_pos count

theorem reaches_cons
    (h : (setsCount requestedType r || failed names reply requestedType r) = false) :
    Reaches names reply requestedType ended (count + 1) (r :: rs) ↔
      Reaches names reply requestedType ended count rs := by
  rw [Reaches, Reaches, List.findIdx?_cons, if_neg (by rw [h]; exact Bool.false_ne_true)]
  cases rs.findIdx? _ with
  | none =>
      show (rs.length + 1 ≤ count + 1 ∧ (count + 1 = rs.length + 1 ∨ ended)) ↔ _
      rw [Nat.add_le_add_iff_right, Nat.add_right_cancel_iff]
  | some k => exact Nat.add_lt_add_iff_right

theorem fits_nil : Fits names reply requestedType result ended [] ↔ result.length < 512 := by
  constructor
  · exact fun h ↦ h.text
  · intro h
    refine ⟨by rintro _ ⟨⟩, h, fun r rest hsuffix ↦ ?_⟩
    cases List.suffix_nil.mp hsuffix

theorem fits_cons : Fits names reply requestedType result ended (r :: rs) ↔
    (r.data ≤ reply.length ∧
      (r.type = requestedType → (content names reply requestedType r).last ≤ reply.length)) ∧
    (setsCount requestedType r = true → failed names reply requestedType r = false →
      Reaches names reply requestedType ended (content names reply requestedType r).count rs) ∧
    Fits names reply requestedType (result ++ shown names reply requestedType r) ended rs := by
  have htext : result.length + ((r :: rs).flatMap (shown names reply requestedType)).length =
      (result ++ shown names reply requestedType r).length +
        (rs.flatMap (shown names reply requestedType)).length := by
    rw [List.flatMap_cons, List.length_append, List.length_append, Nat.add_assoc]
  constructor
  · intro h
    refine ⟨h.reads r List.mem_cons_self, h.counts r rs (List.suffix_refl _), ?_⟩
    exact {
      reads := fun r' hr' ↦ h.reads r' (List.mem_cons_of_mem r hr')
      text := htext ▸ h.text
      counts := fun r' rest hsuffix ↦ h.counts r' rest (hsuffix.trans (List.suffix_cons r rs)) }
  · rintro ⟨hreads, hcount, h⟩
    refine ⟨List.forall_mem_cons.mpr ⟨hreads, h.reads⟩, htext ▸ h.text, fun r' rest hsuffix ↦ ?_⟩
    rcases List.suffix_cons_iff.mp hsuffix with heq | hsuffix
    · cases heq
      exact hcount
    · exact h.counts r' rest hsuffix

theorem visits_nil {result : Option CString} :
    Visits names reply n cp ([], .returned result) ↔ walk names reply n cp = [] := by
  constructor
  · intro h
    exact List.map_eq_nil_iff.mp (h.all result rfl).symm
  · intro h
    exact ⟨by rintro ⟨⟩, by rintro ⟨⟩, List.nil_prefix, fun _ _ ↦ by rw [h]; rfl⟩

theorem not_visits_zero {starts : List ℕ} {stop : Stop} :
    ¬ Visits names reply 0 cp (cp :: starts, stop) := fun h ↦ by
  cases List.prefix_nil.mp h.order

theorem visits_cons (hcp : cp < reply.length) :
    Visits names reply (n + 1) cp (cp :: run.1, run.2) ↔
      Visits names reply n (recordAt names reply cp).next run := by
  have hmap : (walk names reply (n + 1) cp).map Record.start =
      cp :: (walk names reply n (recordAt names reply cp).next).map Record.start := by
    rw [walk_cons hcp]
    rfl
  constructor
  · rintro ⟨hinside, hbounded, horder, hall⟩
    rw [hmap] at horder hall
    exact ⟨hinside, hbounded, (List.cons_prefix_cons.mp horder).2,
      fun result h ↦ (List.cons.inj (hall result h)).2⟩
  · rintro ⟨hinside, hbounded, horder, hall⟩
    refine ⟨hinside, hbounded, ?_, fun result h ↦ ?_⟩
    · rw [hmap]
      exact List.cons_prefix_cons.mpr ⟨rfl, horder⟩
    · rw [hmap, hall result h]

/-! ### Records of the requested type and others -/

theorem upToFailed_cons : upToFailed names reply requestedType (r :: rs) =
    r :: if failed names reply requestedType r then [] else upToFailed names reply requestedType rs := by
  rw [upToFailed]
  split <;> rfl

theorem failed_of_type (hr : r.type = requestedType) :
    failed names reply requestedType r = (content names reply requestedType r).fails := by
  rw [failed, beq_iff_eq.mpr hr, Bool.true_and]

theorem failed_of_type_ne (hr : r.type ≠ requestedType) :
    failed names reply requestedType r = false := by
  rw [failed, beq_eq_false_iff_ne.mpr hr, Bool.false_and]

theorem setsCount_of_type (hr : r.type = requestedType) :
    setsCount requestedType r = (requestedType == 6) := by
  rw [setsCount, hr, Bool.and_self]

theorem setsCount_of_type_ne (hr : r.type ≠ requestedType) : setsCount requestedType r = false := by
  rw [setsCount, Bool.and_eq_false_iff, beq_eq_false_iff_ne, beq_eq_false_iff_ne]
  by_contra h
  rw [not_or, not_not, not_not] at h
  exact hr (h.2.trans h.1.symm)

/-- A count that is not used up says nothing about no records. -/
theorem not_reaches_succ_nil (hcp : cp < reply.length) :
    ¬ Reaches names reply requestedType (reply.length ≤ walkEnd names reply 0 cp) (count + 1) [] := by
  rw [reaches_nil, not_or]
  exact ⟨Nat.succ_ne_zero count, Nat.not_le_of_lt hcp⟩

theorem rrLoop_head (hcp : cp < reply.length) : ∃ starts stop,
    rrLoop names reply requestedType result found (count + 1) cp = (cp :: starts, stop) := by
  by_cases hdata : (recordAt names reply cp).data ≤ reply.length
  · rw [rrLoop_inside hcp hdata]
    split
    · exact ⟨_, _, rfl⟩
    · exact ⟨_, _, rfl⟩
  · exact ⟨_, _, rrLoop_outside hcp hdata⟩

/-- A record of another type is passed. -/
theorem rrLoop_other (result : CString) (found : Bool) (count : ℕ) (hcp : cp < reply.length)
    (hdata : (recordAt names reply cp).data ≤ reply.length)
    (hr : (recordAt names reply cp).type ≠ requestedType) :
    ∃ found', rrLoop names reply requestedType result found (count + 1) cp =
      let rest := rrLoop names reply requestedType result found' count (recordAt names reply cp).next
      (cp :: rest.1, rest.2) := by
  rw [rrLoop_inside hcp hdata, if_neg hr]
  exact ⟨_, rfl⟩

theorem rrLoop_stop {stop : Stop} (hcp : cp < reply.length)
    (hdata : (recordAt names reply cp).data ≤ reply.length)
    (hr : (recordAt names reply cp).type = requestedType)
    (hcase : rrCase names reply requestedType result (recordAt names reply cp) count = .error stop) :
    rrLoop names reply requestedType result found (count + 1) cp = ([cp], stop) := by
  rw [rrLoop_inside hcp hdata, if_pos hr, hcase]

theorem rrLoop_shown {result' : CString} {count' : ℕ} (found : Bool) (hcp : cp < reply.length)
    (hdata : (recordAt names reply cp).data ≤ reply.length)
    (hr : (recordAt names reply cp).type = requestedType)
    (hcase : rrCase names reply requestedType result (recordAt names reply cp) count =
      .ok (result', count')) :
    ∃ found', rrLoop names reply requestedType result found (count + 1) cp =
      let rest := rrLoop names reply requestedType result' found' count'
        (recordAt names reply cp).next
      (cp :: rest.1, rest.2) := by
  rw [rrLoop_inside hcp hdata, if_pos hr, hcase]
  exact ⟨_, rfl⟩

/-- A record of the requested type, where what is said holds of the rest. -/
theorem rrLoop_visits_of_type (htype : ∃ dnsType ∈ dnsTypes, dnsType.type = requestedType)
    (hresult : result.length < 512) (hcp : cp < reply.length)
    (hdata : (recordAt names reply cp).data ≤ reply.length)
    (hr : (recordAt names reply cp).type = requestedType) (rest : List Record)
    (ih : ∀ {result found count}, result.length < 512 →
      (Visits names reply n (recordAt names reply cp).next
        (rrLoop names reply requestedType result found count (recordAt names reply cp).next) ↔
      Fits names reply requestedType result ended rest ∧
        Reaches names reply requestedType ended count rest)) :
    Visits names reply (n + 1) cp
        (rrLoop names reply requestedType result found (count + 1) cp) ↔
      Fits names reply requestedType result ended (recordAt names reply cp ::
        if failed names reply requestedType (recordAt names reply cp) then [] else rest) ∧
      Reaches names reply requestedType ended (count + 1) (recordAt names reply cp ::
        if failed names reply requestedType (recordAt names reply cp) then [] else rest) := by
  rw [fits_cons]
  have hcase := rrCase_shows names htype hresult hdata count
  have hshown : shown names reply requestedType (recordAt names reply cp) =
      (content names reply requestedType (recordAt names reply cp)).text := if_pos hr
  have hfailed : failed names reply requestedType (recordAt names reply cp) =
      (content names reply requestedType (recordAt names reply cp)).fails := failed_of_type hr
  have hsets := setsCount_of_type hr
  generalize content names reply requestedType (recordAt names reply cp) = k at hcase hshown hfailed ⊢
  rw [hshown]
  by_cases hfits : k.last ≤ reply.length ∧ result.length + k.text.length < 512
  · have hresult' : (result ++ k.text).length < 512 := by
      rw [List.length_append]
      exact hfits.2
    cases hk : k.fails with
    | true =>
        -- the return behind a failed `dn_expand`
        rw [hk] at hfailed
        rw [rrLoop_stop hcp hdata hr (hcase.fails hfits hk), if_pos hfailed, fits_nil]
        refine iff_of_true ?_ ⟨⟨⟨hdata, fun _ ↦ hfits.1⟩, fun _ h ↦ ?_, hresult'⟩, ?_⟩
        · refine ⟨by rintro ⟨⟩, by rintro ⟨⟩, ?_, by rintro _ ⟨⟩⟩
          rw [walk_cons hcp]
          exact List.cons_prefix_cons.mpr ⟨rfl, List.nil_prefix⟩
        · exact absurd (hfailed.symm.trans h) (by decide)
        · exact reaches_stop (by rw [hfailed, Bool.or_true])
    | false =>
        rw [hk] at hfailed
        obtain ⟨found', hloop⟩ := rrLoop_shown found hcp hdata hr (hcase.appends hfits hk)
        rw [hloop, visits_cons hcp, ih hresult', hfailed, if_neg Bool.false_ne_true]
        by_cases hsoa : requestedType = 6
        · have hsets' : setsCount requestedType (recordAt names reply cp) = true := by
            rw [hsets, hsoa]
            rfl
          rw [if_pos hsoa]
          constructor
          · rintro ⟨hrest, hreaches⟩
            exact ⟨⟨⟨hdata, fun _ ↦ hfits.1⟩, fun _ _ ↦ hreaches, hrest⟩,
              reaches_stop (by rw [hsets', Bool.true_or])⟩
          · rintro ⟨⟨-, hcount, hrest⟩, -⟩
            exact ⟨hrest, hcount hsets' rfl⟩
        · have hsets' : setsCount requestedType (recordAt names reply cp) = false := by
            rw [hsets]
            exact beq_eq_false_iff_ne.mpr hsoa
          rw [if_neg hsoa, hsets', reaches_cons (by rw [hsets', hfailed, Bool.or_false])]
          constructor
          · rintro ⟨hrest, hreaches⟩
            exact ⟨⟨⟨hdata, fun _ ↦ hfits.1⟩, fun h ↦ Bool.noConfusion h, hrest⟩, hreaches⟩
          · rintro ⟨⟨-, -, hrest⟩, hreaches⟩
            exact ⟨hrest, hreaches⟩
  · refine iff_of_false (fun h ↦ ?_) fun h ↦ hfits ?_
    · rcases hcase.leaves hfits with hout | hover
      · rw [rrLoop_stop hcp hdata hr hout] at h
        exact h.inside rfl
      · rw [rrLoop_stop hcp hdata hr hover] at h
        exact h.bounded rfl
    · have htext := h.1.2.2.text
      rw [List.length_append] at htext
      exact ⟨h.1.1.2 hr, by omega⟩

/-- The loop visits the records if and only if they fit and its count is right. -/
theorem rrLoop_visits_iff (htype : ∃ dnsType ∈ dnsTypes, dnsType.type = requestedType)
    (hresult : result.length < 512) :
    Visits names reply n cp (rrLoop names reply requestedType result found count cp) ↔
      Fits names reply requestedType result (reply.length ≤ walkEnd names reply n cp)
        (upToFailed names reply requestedType (walk names reply n cp)) ∧
      Reaches names reply requestedType (reply.length ≤ walkEnd names reply n cp) count
        (upToFailed names reply requestedType (walk names reply n cp)) := by
  induction hmeasure : reply.length - cp using Nat.strongRecOn generalizing result found count n cp with
  | _ m ih =>
    subst hmeasure
    by_cases hcp : cp < reply.length
    · cases count with
      | zero =>
          rw [rrLoop_zero, visits_nil]
          cases n with
          | zero => exact iff_of_true rfl ⟨fits_nil.mpr hresult, reaches_nil.mpr (.inl rfl)⟩
          | succ n =>
              rw [walk_cons hcp, upToFailed_cons]
              exact iff_of_false (List.cons_ne_nil _ _) fun h ↦ not_reaches_zero h.2
      | succ count =>
          cases n with
          | zero =>
              obtain ⟨starts, stop, hhead⟩ : ∃ starts stop,
                rrLoop names reply requestedType result found (count + 1) cp = (cp :: starts, stop) :=
                  rrLoop_head hcp
              rw [hhead]
              exact iff_of_false not_visits_zero fun h ↦ not_reaches_succ_nil hcp h.2
          | succ n =>
              rw [walk_cons hcp, upToFailed_cons, walkEnd_cons hcp, fits_cons]
              by_cases hdata : (recordAt names reply cp).data ≤ reply.length
              · have hnext : reply.length - (recordAt names reply cp).next < reply.length - cp := by
                  apply next_lt names reply hcp
                  rw [skipToData_eq, within_of_le reply hdata]
                by_cases hr : (recordAt names reply cp).type = requestedType
                · rw [← fits_cons]
                  exact rrLoop_visits_of_type htype hresult hcp hdata hr _ fun {_ _ _} h ↦
                    ih _ hnext h rfl
                · obtain ⟨found', hloop⟩ := rrLoop_other result found count hcp hdata hr
                  have hshown : shown names reply requestedType (recordAt names reply cp) = [] :=
                    if_neg hr
                  have hstop : (setsCount requestedType (recordAt names reply cp) ||
                      failed names reply requestedType (recordAt names reply cp)) = false := by
                    rw [setsCount_of_type_ne hr, failed_of_type_ne hr, Bool.or_false]
                  rw [hloop, visits_cons hcp, ih _ hnext hresult rfl, hshown, List.append_nil,
                    failed_of_type_ne hr, if_neg Bool.false_ne_true, reaches_cons hstop,
                    setsCount_of_type_ne hr]
                  constructor
                  · rintro ⟨hfits, hreaches⟩
                    exact ⟨⟨⟨hdata, fun h ↦ absurd h hr⟩, fun h ↦ Bool.noConfusion h, hfits⟩, hreaches⟩
                  · rintro ⟨⟨-, -, hfits⟩, hreaches⟩
                    exact ⟨hfits, hreaches⟩
              · rw [rrLoop_outside hcp hdata]
                exact iff_of_false (fun h ↦ h.inside rfl) fun h ↦ hdata h.1.1.1
    · rw [rrLoop_end hcp, visits_nil, walk_end hcp, walkEnd_end hcp]
      exact iff_of_true rfl ⟨fits_nil.mpr hresult, reaches_nil.mpr (.inr (Nat.le_of_not_lt hcp))⟩

/-- The number of the records is a right count for them. -/
theorem reaches_walk (n cp : ℕ) :
    Reaches names reply requestedType (reply.length ≤ walkEnd names reply n cp) n
      (upToFailed names reply requestedType (walk names reply n cp)) := by
  induction n generalizing cp with
  | zero => exact reaches_nil.mpr (.inl rfl)
  | succ n ih =>
      by_cases hcp : cp < reply.length
      · rw [walk_cons hcp, upToFailed_cons, walkEnd_cons hcp]
        cases hstop : setsCount requestedType (recordAt names reply cp) ||
            failed names reply requestedType (recordAt names reply cp) with
        | true => exact reaches_stop hstop
        | false =>
            rw [reaches_cons hstop, (Bool.or_eq_false_iff.mp hstop).2, if_neg Bool.false_ne_true]
            exact ih _
      · rw [walk_end hcp, walkEnd_end hcp]
        exact reaches_nil.mpr (.inr (Nat.le_of_not_lt hcp))

end Walk

/-- The number of records that is announced for the answer and authority sections. -/
def announced (reply : List UInt8) : ℕ := shortAt reply 6 + shortAt reply 8

/-- Behind the question section. -/
def firstRecord (names : Names) (reply : List UInt8) : ℕ := 12 + (skipName names reply 12 + 4)

theorem eq_of_type {a b : DNSType} (ha : a ∈ dnsTypes) (hb : b ∈ dnsTypes) (h : a.type = b.type) :
    a = b := by
  have hnodup : (dnsTypes.map DNSType.type).Nodup := by decide
  exact List.inj_on_of_nodup_map hnodup ha hb h

/-- `findRR` visits the announced records, in the reply and in `result`, if and only if the
records fit. -/
theorem findRR_iff (names : Names) (reply : List UInt8) (domain : CString) (requestedType : ℕ) :
    Visits names reply (announced reply) (firstRecord names reply)
        (findRR names (some reply) domain requestedType) ↔
      ∀ dnsType ∈ dnsTypes, dnsType.type = requestedType →
        10 ≤ reply.length ∧
        Fits names reply requestedType (domain ++ ' ' :: dnsType.name ++ [':', ' '])
          (reply.length ≤ walkEnd names reply (announced reply) (firstRecord names reply))
          (upToFailed names reply requestedType
            (walk names reply (announced reply) (firstRecord names reply))) := by
  rw [findRR]
  cases hfind : dnsTypes.find? fun dnsType ↦ dnsType.type == requestedType with
  | none =>
      refine iff_of_true ⟨by rintro ⟨⟩, by rintro ⟨⟩, List.nil_prefix, by rintro _ ⟨⟩⟩ ?_
      intro dnsType hmem htype
      exact absurd (beq_iff_eq.mpr htype) (List.find?_eq_none.mp hfind dnsType hmem)
  | some dnsType =>
      have hmem : dnsType ∈ dnsTypes := List.mem_of_find?_eq_some hfind
      have hfound := List.find?_some hfind
      have htype : dnsType.type = requestedType := beq_iff_eq.mp hfound
      have hone : ∀ {P : DNSType → Prop},
          (∀ t ∈ dnsTypes, t.type = requestedType → P t) ↔ P dnsType := by
        intro P
        refine ⟨fun h ↦ h dnsType hmem htype, fun h t ht hsame ↦ ?_⟩
        rwa [eq_of_type ht hmem (hsame.trans htype.symm)]
      rw [hone]
      dsimp only
      split
      · rename_i hlong
        refine iff_of_false (fun h ↦ h.bounded rfl) fun h ↦ ?_
        have htext := h.2.text
        omega
      · rename_i hshort
        rw [getShort_eq, getShort_eq]
        by_cases hheader : 10 ≤ reply.length
        · rw [within_of_le reply (Nat.le_trans (by decide) hheader), within_of_le reply hheader,
            and_iff_right hheader]
          refine (rrLoop_visits_iff ⟨dnsType, hmem, htype⟩ (Nat.lt_of_not_le hshort)).trans ?_
          exact and_iff_left (reaches_walk _ _)
        · have hout : within reply (8 + 2) (shortAt reply 8) = .error .outside := if_neg hheader
          rw [hout]
          refine iff_of_false (fun h ↦ ?_) fun h ↦ hheader h.1
          split at h
          · rename_i hok
            cases hok
          · exact h.inside rfl

/-- A reply that ends within the name of its only record is read further. -/
theorem not_findRR_visits :
    let names : Names := ⟨fun bytes ↦ if bytes.head? = some 0 then some 1 else none,
      fun reply cp ↦ if reply[cp]? = some 0 then some (1, []) else none⟩
    let reply : List UInt8 := [0, 0, 128, 0, 0, 1, 0, 1, 0, 0, 0, 0, 0, 0, 1, 0, 1, 0]
    findRR names (some reply) "example.com".toList 1 = ([17], .outside) ∧
      ¬ Visits names reply (announced reply) (firstRecord names reply)
        (findRR names (some reply) "example.com".toList 1) := by
  intro names reply
  have hrun : findRR names (some reply) "example.com".toList 1 = ([17], .outside) := by
    show rrLoop names reply 1 _ false 1 17 = _
    exact rrLoop_outside (by decide) (by decide)
  refine ⟨hrun, fun h ↦ ?_⟩
  rw [hrun] at h
  exact h.inside rfl

end Beirdobot.Dns
