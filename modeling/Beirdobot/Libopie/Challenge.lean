import Beirdobot.Auth.Threads
import Beirdobot.Libopie.Hex

/-!
# Challenges of one-time passwords

Transcriptions of `__opieparsechallenge`, and of `opiekey`, with which a user answers a challenge.
What the digests compute is a parameter.
-/

namespace Beirdobot.Libopie

open Library

/-- `strtoul( s, &c, 10 )` on a machine of 64 bits: the number, and where `c` is. -/
def strtoul (s : CString) : ℕ × CString :=
  let (negative, digits) :=
    match s.dropWhile isSpace with
    | '-' :: t => (true, t)
    | '+' :: t => (false, t)
    | t => (false, t)
  if digits.takeWhile Char.isDigit = [] then (0, s)
  else
    let n := atoiDigits digits
    (if 2 ^ 64 ≤ n then 2 ^ 64 - 1 else if negative then (2 ^ 64 - n) % 2 ^ 64 else n,
      digits.dropWhile Char.isDigit)

/-- `algorithms` -/
def algorithms : List (CString × ℕ) :=
  [("md5".toList, 5), ("md4".toList, 4), ("sha1".toList, 3)]

def opieSeedMin : ℕ := 5

def opieSeedMax : ℕ := 16

/-- `__opieparsechallenge`.  Where the seed ends the text, what is read behind it makes no
difference. -/
def opieparsechallenge (buffer : CString) : Auth.Challenge :=
  match buffer.dropWhile (· ≠ ' ') with
  | [] => .failed none
  | _ :: c =>
      let name := buffer.takeWhile (· ≠ ' ')
      match algorithms.find? fun a ↦ a.1.take name.length == name with
      | none => .failed none
      | some (_, num) =>
          let (value, c) := strtoul c
          -- an `int` takes the lower half of the number
          let sequence := Int.bmod value (2 ^ 32)
          if sequence > 9999 then .failed (some sequence)
          else
            let c := c.dropWhile isSpace
            let seed := c.takeWhile fun a ↦ !isSpace a
            if c = [] ∨ seed.length > opieSeedMax ∨ seed.length < opieSeedMin then
              .failed (some sequence)
            else
              let c := (c.dropWhile fun a ↦ !isSpace a).tail.dropWhile fun a ↦ !isSpace a
              .parsed sequence num seed (c ≠ [] ∧ c.take 3 = "ext".toList)

/-- What `opiehashlen` and `opiehash` compute. -/
structure Digests where
  hashlen : ℕ → CString → Key
  hash : Key → ℕ → Key

/-- `opiekeycrunch`, where it succeeds. -/
def opiekeycrunch (d : Digests) (algorithm : ℕ) (seed secret : CString) : Option Key :=
  let seed := seed.map Char.toLower
  if seed.any isSpace then none
  else
    some (d.hashlen (algorithm &&& 0x0f)
      (if algorithm &&& 0x10 ≠ 0 then secret ++ seed else seed ++ secret))

/-- The key that `opiekey` has after its hashing. -/
def hashed (d : Digests) (algorithm : ℕ) (seed secret : CString) (n : ℕ) : Option Key :=
  (opiekeycrunch d algorithm seed secret).map fun key ↦ (d.hash · algorithm)^[n] key

/-- `opiepasscheck` -/
def opiepasscheck (secret : CString) : Bool := secret.length < 10 || secret.length > 127

/-- `algids` -/
def algids (algorithm : ℕ) : CString :=
  match algorithm with
  | 3 => "sha1".toList
  | 4 => "md4".toList
  | _ => "md5".toList

/-- What a user of `opiekey` tells it: the type of the response, the pass phrase, and for a renewal
the new one; `newseed` is what `opienewseed` makes. -/
structure Request where
  type : Auth.ResponseType
  secret : CString
  newsecret : CString
  newseed : CString

/-- The response of `opiekey` without an option for more of them, or in hexadecimal without a type;
where it exits there is none. -/
def opiekey (stack : Bytes) (d : Digests) (algorithm : ℕ) (keynum : ℤ) (seed : CString)
    (r : Request) : Option CString := do
  if keynum < 1 ∨ seed.length > opieSeedMax ∨ seed.length < opieSeedMin then none
  else if opiepasscheck r.secret then none
  else
    let key ← hashed d algorithm seed r.secret keynum.toNat
    match r.type with
    | .standard => some (opiebtoe stack key)
    | .word => some ("word:".toList ++ opiebtoe stack key)
    | .hex => some ("hex:".toList ++ opiebtoh key)
    | .initHex =>
        if opiepasscheck r.newsecret then none
        else
          let newkey ← hashed d algorithm r.newseed r.newsecret 499
          some ("init-hex:".toList ++ opiebtoh key ++ ':' :: algids algorithm ++ " 499 ".toList ++
            r.newseed ++ ':' :: opiebtoh newkey)
    | .initWord =>
        if opiepasscheck r.newsecret then none
        else
          let newkey ← hashed d algorithm r.newseed r.newsecret 499
          some ("init-word:".toList ++ opiebtoe stack key ++ ':' :: algids algorithm ++
            " 499 ".toList ++ r.newseed ++ ':' :: opiebtoe stack newkey)
    | .unknown => none

/-- What is used of the library. -/
def libopie (stack : Bytes) (d : Digests) : Auth.Opie Key where
  etob text :=
    match opieetob stack text with
    | (1, key) => some key
    | _ => none
  atob8 := opieatob8
  btoa8 := opiebtoa8
  hash := d.hash
  parseChallenge := opieparsechallenge

/-! ## Challenges that parse -/

/-- A seed as it is used. -/
structure Seed (seed : CString) : Prop where
  min_le : opieSeedMin ≤ seed.length
  le_max : seed.length ≤ opieSeedMax
  noSpace : seed.any isSpace = false
  noColon : ':' ∉ seed

theorem Seed.isSpace {seed : CString} (h : Seed seed) : ∀ c ∈ seed, isSpace c = false :=
  fun c hc ↦ Bool.eq_false_iff.mpr (List.any_eq_false.mp h.noSpace c hc)

section Parsing

variable {n num : ℕ} {name seed rest : CString}

theorem strtoul_toDigits (hn : n < 2 ^ 64) {rest : CString}
    (hrest : ∀ c ∈ rest.head?, c.isDigit = false) :
    strtoul (Nat.toDigits 10 n ++ rest) = (n, rest) := by
  have hdigits : ∀ c ∈ Nat.toDigits 10 n, c.isDigit = true := fun c hc ↦
    Nat.isDigit_of_mem_toDigits (by decide) (by decide) hc
  have hrestTake : rest.takeWhile Char.isDigit = [] := by
    cases rest with
    | nil => rfl
    | cons c rest =>
        have hc := hrest c rfl
        exact List.takeWhile_cons_of_neg (by rw [hc]; decide)
  have hrestDrop : rest.dropWhile Char.isDigit = rest := by
    cases rest with
    | nil => rfl
    | cons c rest =>
        have hc := hrest c rfl
        exact List.dropWhile_cons_of_neg (by rw [hc]; decide)
  have hread := atoiDigits_append hdigits hrestTake
  have htake : (Nat.toDigits 10 n ++ rest).takeWhile Char.isDigit = Nat.toDigits 10 n := by
    rw [List.takeWhile_append_of_pos hdigits, hrestTake, List.append_nil]
  have hdrop : (Nat.toDigits 10 n ++ rest).dropWhile Char.isDigit = rest := by
    rw [List.dropWhile_append_of_pos hdigits, hrestDrop]
  rw [Nat.ofDigitChars_ten_toDigits] at hread
  obtain ⟨c, t, hcons⟩ := List.exists_cons_of_ne_nil (Nat.toDigits_ne_nil (n := n) (b := 10))
  have hc : c.isDigit = true := hdigits c (by rw [hcons]; exact List.mem_cons_self)
  have hother : ∀ d : Char, d.isDigit = false → c ≠ d := by
    rintro d hd rfl
    rw [hc] at hd
    cases hd
  have hspace : isSpace c = false := by
    simp only [isSpace, List.contains_eq_mem, decide_eq_false_iff_not, List.mem_cons,
      List.not_mem_nil, or_false, not_or]
    exact ⟨hother _ rfl, hother _ rfl, hother _ rfl, hother _ rfl, hother _ rfl, hother _ rfl⟩
  have hsign : (match (Nat.toDigits 10 n ++ rest).dropWhile isSpace with
      | '-' :: t => (true, t)
      | '+' :: t => (false, t)
      | t => (false, t)) = (false, Nat.toDigits 10 n ++ rest) := by
    rw [hcons, List.cons_append, List.dropWhile_cons_of_neg (by rw [hspace]; decide)]
    split
    · rename_i heq
      exact absurd (List.cons.inj heq).1 (hother '-' rfl)
    · rename_i heq
      exact absurd (List.cons.inj heq).1 (hother '+' rfl)
    · rfl
  rw [strtoul, hsign]
  simp only
  rw [if_neg (by rw [htake]; exact Nat.toDigits_ne_nil), hread, hdrop, if_neg (Nat.not_le_of_lt hn),
    if_neg Bool.false_ne_true]

/-- Nothing is found behind the seed. -/
theorem take_dropWhile_isSpace (c : CString) :
    decide (c.dropWhile (fun a ↦ !isSpace a) ≠ [] ∧
      (c.dropWhile fun a ↦ !isSpace a).take 3 = "ext".toList) = false := by
  rw [decide_eq_false_iff_not]
  rintro ⟨-, hext⟩
  have hhead := List.head?_dropWhile_not (fun a ↦ !isSpace a) c
  cases hdrop : c.dropWhile fun a ↦ !isSpace a with
  | nil =>
      rw [hdrop] at hext
      cases hext
  | cons a t =>
      rw [hdrop] at hext hhead
      have ha : a = 'e' := (List.cons.inj hext).1
      rw [ha] at hhead
      cases hhead

theorem algorithms_spec : ∀ a ∈ algorithms, ' ' ∉ a.1 ∧
    algorithms.find? (fun b ↦ b.1.take a.1.length == a.1) = some a := by
  decide

/-- A challenge is parsed into its parts. -/
theorem opieparsechallenge_eq (hname : (name, num) ∈ algorithms) (hn : n ≤ 9999) (hseed : Seed seed)
    (hrest : ∀ c ∈ rest.head?, isSpace c = true) :
    opieparsechallenge (name ++ ' ' :: (Nat.toDigits 10 n ++ ' ' :: (seed ++ rest))) =
      .parsed n num seed false := by
  obtain ⟨hblank, hfind⟩ := algorithms_spec _ hname
  have htakeName : (name ++ ' ' :: (Nat.toDigits 10 n ++ ' ' :: (seed ++ rest))).takeWhile
      (· ≠ ' ') = name := by
    rw [List.takeWhile_append_of_pos fun c hc ↦ decide_eq_true (ne_of_mem_of_not_mem hc hblank),
      List.takeWhile_cons_of_neg (by decide), List.append_nil]
  have hdropName : (name ++ ' ' :: (Nat.toDigits 10 n ++ ' ' :: (seed ++ rest))).dropWhile
      (· ≠ ' ') = ' ' :: (Nat.toDigits 10 n ++ ' ' :: (seed ++ rest)) := by
    rw [List.dropWhile_append_of_pos fun c hc ↦ decide_eq_true (ne_of_mem_of_not_mem hc hblank),
      List.dropWhile_cons_of_neg (by decide)]
  have hnumber : strtoul (Nat.toDigits 10 n ++ ' ' :: (seed ++ rest)) =
      (n, ' ' :: (seed ++ rest)) := by
    apply strtoul_toDigits (by omega)
    intro c hc
    cases hc
    rfl
  have hbmod : Int.bmod n (2 ^ 32) = n := by
    rw [Int.bmod_eq_of_le] <;> omega
  have hseedTake : (seed ++ rest).takeWhile (fun a ↦ !isSpace a) = seed := by
    rw [List.takeWhile_append_of_pos fun c hc ↦ by rw [hseed.isSpace c hc]; rfl]
    cases rest with
    | nil => rw [List.takeWhile_nil, List.append_nil]
    | cons c rest =>
        have hc := hrest c rfl
        rw [List.takeWhile_cons_of_neg (by rw [hc]; decide), List.append_nil]
  obtain ⟨c, t, hcons⟩ : ∃ c t, seed ++ rest = c :: t ∧ isSpace c = false := by
    cases hs : seed with
    | nil =>
        have hmin := hseed.min_le
        rw [hs] at hmin
        cases hmin
    | cons c t => exact ⟨c, t ++ rest, rfl, hseed.isSpace c (hs ▸ List.mem_cons_self)⟩
  have hskip : (' ' :: (seed ++ rest)).dropWhile isSpace = seed ++ rest := by
    rw [List.dropWhile_cons_of_pos rfl, hcons.1,
      List.dropWhile_cons_of_neg (by rw [hcons.2]; decide)]
  have hne : seed ++ rest ≠ [] := hcons.1 ▸ List.cons_ne_nil _ _
  have hmin := hseed.min_le
  have hmax := hseed.le_max
  rw [opieparsechallenge]
  simp only [hdropName, htakeName, hfind, hnumber, hbmod, hskip, hseedTake,
    take_dropWhile_isSpace]
  rw [if_neg (by omega), if_neg]
  rintro (hnil | hlong | hshort)
  · exact hne hnil
  · omega
  · omega

end Parsing

end Beirdobot.Libopie
