import Beirdobot.Dns.Aaaa
import Beirdobot.Dns.Thread

/-!
# The reader of replies

A transcription of `skipName`, `skipToData` and `findRR` of `dns.c`.  Positions are counted
from the beginning of the reply.
-/

namespace Beirdobot.Dns

/-- The functions of the resolver: they are given the bytes up to the end of the reply. -/
structure Names where
  dnSkipname : List UInt8 → Option ℕ
  dnExpand : List UInt8 → ℕ → Option (ℕ × CString)

/-- How `findRR` ends: it returns, also since a type is unknown or a name could not be
expanded, or it reads outside the reply or writes behind `result`. -/
inductive Stop
  | returned (result : Option CString)
  | unknown
  | unexpanded
  | outside
  | overflow
  deriving DecidableEq

/-- What `skipToData` fills in, for the record that begins at `start`. -/
structure Record where
  start : ℕ
  type : ℕ
  rrClass : ℕ
  ttl : ℕ
  dlen : ℕ
  data : ℕ
  deriving DecidableEq

/-- `cp += dlen` -/
def Record.next (r : Record) : ℕ := r.data + r.dlen

/-- `%d` of an `int` that is given as an unsigned number. -/
def showInt (n : ℕ) : CString :=
  if n < 2 ^ 31 then Nat.toDigits 10 n else '-' :: Nat.toDigits 10 (2 ^ 32 - n)

def inetNtoa (addr : List ℕ) : CString := ['.'].intercalate (addr.map (Nat.toDigits 10))

/-- `strcat( result, text )` -/
def strcat (result text : CString) : Except Stop CString :=
  if result.length + text.length < 512 then .ok (result ++ text) else .error .overflow

section Reply

variable (names : Names) (reply : List UInt8)

def byte (cp : ℕ) : Except Stop ℕ :=
  match reply[cp]? with
  | none => .error .outside
  | some b => .ok b.toNat

/-- `GETSHORT` -/
def getShort (cp : ℕ) : Except Stop ℕ := do
  let hi ← byte reply cp
  let lo ← byte reply (cp + 1)
  return 256 * hi + lo

/-- `GETLONG` -/
def getLong (cp : ℕ) : Except Stop ℕ := do
  let hi ← getShort reply cp
  let lo ← getShort reply (cp + 2)
  return 65536 * hi + lo

/-- `strncat` reads up to `dlen` bytes, and no further than a NUL. -/
def strncatText (cp : ℕ) : ℕ → Except Stop CString
  | 0 => .ok []
  | dlen + 1 => do
      let b ← byte reply cp
      if b = 0 then return [] else
        let text ← strncatText (cp + 1) dlen
        return Char.ofNat b :: text

/-- `dn_expand`, and the return where it fails. -/
def expand (cp : ℕ) : Except Stop (ℕ × CString) :=
  match names.dnExpand reply cp with
  | none => .error .unexpanded
  | some r => .ok r

def skipName (cp : ℕ) : ℕ := (names.dnSkipname (reply.drop cp)).getD 0

def skipToData (cp : ℕ) : Except Stop Record := do
  let tmpCp := cp + skipName names reply cp
  let type ← getShort reply tmpCp
  let rrClass ← getShort reply (tmpCp + 2)
  let ttl ← getLong reply (tmpCp + 4)
  let dlen ← getShort reply (tmpCp + 8)
  return ⟨cp, type, rrClass, ttl, dlen, tmpCp + 10⟩

/-- `case (T_NS)`, `case (T_CNAME)` and `case (T_PTR)` -/
def nameCase (result : CString) (r : Record) : Except Stop CString := do
  let (_, temp) ← expand names reply r.data
  let result ← strcat result temp
  strcat result [' ']

/-- `case (T_A)` -/
def aCase (result : CString) (r : Record) : Except Stop CString := do
  let addr ← (List.range 4).mapM fun i ↦ byte reply (r.data + i)
  let result ← strcat result (inetNtoa addr)
  strcat result [' ']

/-- `case (T_MX)` -/
def mxCase (result : CString) (r : Record) : Except Stop CString := do
  let rrClass ← getShort reply r.data
  let (_, temp) ← expand names reply (r.data + 2)
  strcat result ('(' :: Nat.toDigits 10 rrClass ++ [')', ' '] ++ temp ++ [' '])

/-- `case (T_TXT)` -/
def txtCase (result : CString) (r : Record) : Except Stop CString := do
  let text ← strncatText reply r.data r.dlen
  let result ← strcat result text
  strcat result [' ']

/-- `case (T_SOA)`, which leaves a length in `count`; what the five turns append is
appended at once. -/
def soaCase (result : CString) (r : Record) : Except Stop (CString × ℕ) := do
  let (count, temp) ← expand names reply r.data
  let result ← strcat result temp
  let result ← strcat result ['.', ' ']
  let tempCp := r.data + count
  let (count, temp) ← expand names reply tempCp
  let result ← strcat result temp
  let result ← strcat result ['.', ' ']
  let tempCp := tempCp + count
  let ttls ← (List.range 5).mapM fun i ↦ getLong reply (tempCp + 4 * i)
  let result ← strcat result (ttls.flatMap fun ttl ↦ showInt ttl ++ [' '])
  return (result, count)

/-- `case (T_AAAA)`, where a number is read in every turn of the loop. -/
def aaaaCase (result : CString) (r : Record) : Except Stop CString := do
  let _ ← (List.range' 0 ((r.dlen + 1) / 2) 2).mapM fun i ↦ getShort reply (r.data + i)
  let result ← strcat result (aaaaText (fun i ↦ reply.getD (r.data + i) 0) r.dlen)
  strcat result [' ']

/-- `switch (requested_type)`, with `count`. -/
def rrCase (requestedType : ℕ) (result : CString) (r : Record) (count : ℕ) :
    Except Stop (CString × ℕ) :=
  match requestedType with
  | 2 | 5 | 12 => (nameCase names reply result r).map (·, count)
  | 1 => (aCase reply result r).map (·, count)
  | 15 => (mxCase names reply result r).map (·, count)
  | 16 => (txtCase reply result r).map (·, count)
  | 6 => soaCase names reply result r
  | 28 => (aaaaCase reply result r).map (·, count)
  | _ => .error .unknown

/-! ## What is read -/

/-- A value that is read from the bytes before `last`. -/
def within {α : Type} (last : ℕ) (a : α) : Except Stop α :=
  if last ≤ reply.length then .ok a else .error .outside

def byteAt (cp : ℕ) : ℕ := (reply.getD cp 0).toNat

def shortAt (cp : ℕ) : ℕ := 256 * byteAt reply cp + byteAt reply (cp + 1)

def longAt (cp : ℕ) : ℕ := 65536 * shortAt reply cp + shortAt reply (cp + 2)

/-- The record that begins at a position. -/
def recordAt (cp : ℕ) : Record :=
  let tmpCp := cp + skipName names reply cp
  ⟨cp, shortAt reply tmpCp, shortAt reply (tmpCp + 2), longAt reply (tmpCp + 4),
    shortAt reply (tmpCp + 8), tmpCp + 10⟩

section Within

variable {α β : Type} {a : α} {b : β} {m n : ℕ}

theorem within_of_le (h : n ≤ reply.length) (a : α) : within reply n a = .ok a := if_pos h

/-- What is read last decides. -/
theorem within_bind {f : α → Except Stop β} (hmn : m ≤ n)
    (hf : m ≤ reply.length → f a = within reply n b) :
    (within reply m a >>= f) = within reply n b := by
  by_cases hm : m ≤ reply.length
  · rw [within_of_le reply hm]
    exact hf hm
  · rw [within, if_neg hm, within, if_neg (fun hn ↦ hm (Nat.le_trans hmn hn))]
    rfl

theorem byte_eq (cp : ℕ) : byte reply cp = within reply (cp + 1) (byteAt reply cp) := by
  rw [byte, within, byteAt, List.getD_eq_getElem?_getD]
  by_cases h : cp + 1 ≤ reply.length
  · rw [if_pos h, List.getElem?_eq_getElem h]
    rfl
  · rw [if_neg h, List.getElem?_eq_none (Nat.le_of_not_lt h)]

theorem getShort_eq (cp : ℕ) :
    getShort reply cp = within reply (cp + 2) (shortAt reply cp) := by
  rw [getShort, byte_eq]
  refine within_bind reply (by omega) fun _ ↦ ?_
  rw [byte_eq]
  exact within_bind reply (Nat.le_refl _) fun h ↦ (within_of_le reply h _).symm

theorem getLong_eq (cp : ℕ) : getLong reply cp = within reply (cp + 4) (longAt reply cp) := by
  rw [getLong, getShort_eq]
  refine within_bind reply (by omega) fun _ ↦ ?_
  rw [getShort_eq]
  exact within_bind reply (Nat.le_refl _) fun h ↦ (within_of_le reply h _).symm

theorem skipToData_eq (cp : ℕ) : skipToData names reply cp =
    within reply (recordAt names reply cp).data (recordAt names reply cp) := by
  have hdata : (recordAt names reply cp).data = cp + skipName names reply cp + 10 := rfl
  rw [skipToData, hdata, getShort_eq]
  refine within_bind reply (by omega) fun _ ↦ ?_
  rw [getShort_eq]
  refine within_bind reply (by omega) fun _ ↦ ?_
  rw [getLong_eq]
  refine within_bind reply (by omega) fun _ ↦ ?_
  rw [getShort_eq]
  exact within_bind reply (Nat.le_refl _) fun h ↦ (within_of_le reply h _).symm

theorem lt_data (cp : ℕ) : cp < (recordAt names reply cp).data := by
  have hdata : (recordAt names reply cp).data = cp + skipName names reply cp + 10 := rfl
  omega

section Turns

variable {f : ℕ → Except Stop α} {last : ℕ → ℕ} {g : ℕ → α} {is : List ℕ}

/-- What several turns read. -/
theorem mapM_within (hf : ∀ i, f i = within reply (last i) (g i))
    (his : ∀ i ∈ is, last i ≤ reply.length) : is.mapM f = .ok (is.map g) := by
  induction is with
  | nil => rfl
  | cons i is ih =>
      rw [List.mapM_cons, hf, within_of_le reply (his i List.mem_cons_self),
        ih fun j hj ↦ his j (List.mem_cons_of_mem i hj)]
      rfl

theorem mapM_outside (hf : ∀ i, f i = within reply (last i) (g i))
    (his : ¬ ∀ i ∈ is, last i ≤ reply.length) : is.mapM f = .error .outside := by
  induction is with
  | nil => exact absurd (by rintro _ ⟨⟩) his
  | cons i is ih =>
      rw [List.mapM_cons, hf]
      by_cases hi : last i ≤ reply.length
      · rw [within_of_le reply hi, ih fun h ↦ his (List.forall_mem_cons.mpr ⟨hi, h⟩)]
        rfl
      · rw [within, if_neg hi]
        rfl

end Turns

end Within

/-! ## The loop -/

theorem next_lt {cp : ℕ} {r : Record} (hcp : cp < reply.length)
    (hr : skipToData names reply cp = .ok r) : reply.length - r.next < reply.length - cp := by
  rw [skipToData_eq, within] at hr
  split at hr
  · cases hr
    have hdata := lt_data names reply cp
    rw [Record.next]
    omega
  · cases hr

/-- `while ((--count >= 0) && (cp < endOfMsg))`, with the records that are visited. -/
def rrLoop (requestedType : ℕ) (result : CString) (found : Bool) (count cp : ℕ) : List ℕ × Stop :=
  match count with
  | 0 => ([], .returned (if found then some result else none))
  | count + 1 =>
    if _hcp : cp < reply.length then
      match _hr : skipToData names reply cp with
      | .error stop => ([cp], stop)
      | .ok r =>
        match if r.type = requestedType then rrCase names reply requestedType result r count
          else .ok (result, count) with
        | .error stop => ([cp], stop)
        | .ok (result, count) =>
          let rest := rrLoop requestedType result (found || r.type == requestedType) count r.next
          (cp :: rest.1, rest.2)
    else ([], .returned (if found then some result else none))
termination_by reply.length - cp
decreasing_by exact next_lt names reply _hcp _hr

end Reply

/-- `findRR`, where `resQuery` gets a reply or none: the positions of the records that are
visited, and the end. -/
def findRR (names : Names) (resQuery : Option (List UInt8)) (domain : CString)
    (requestedType : ℕ) : List ℕ × Stop :=
  match dnsTypes.find? fun dnsType ↦ dnsType.type == requestedType with
  | none => ([], .unknown)
  | some dnsType =>
      let result := domain ++ ' ' :: dnsType.name ++ [':', ' ']
      if 512 ≤ result.length then ([], .overflow)
      else
        match resQuery with
        | none => ([], .returned none)
        | some reply =>
            let cp := 12 + (skipName names reply 12 + 4)
            match getShort reply 6, getShort reply 8 with
            | .ok ancount, .ok nscount =>
                rrLoop names reply requestedType result false (ancount + nscount) cp
            | _, _ => ([], .outside)

end Beirdobot.Dns
