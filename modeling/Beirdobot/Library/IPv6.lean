import Mathlib.Data.List.Basic
import Mathlib.Data.Nat.Notation

/-!
# Addresses of IPv6

The textual notation: eight groups of up to four hexadecimal digits between colons, of
which `::` may stand, once, for the zero groups that are missing.
-/

namespace Beirdobot.Library.IPv6

/-! ## Reading -/

def hexValue (c : Char) : Option ℕ :=
  if '0' ≤ c ∧ c ≤ '9' then some (c.toNat - 48)
  else if 'a' ≤ c ∧ c ≤ 'f' then some (c.toNat - 87)
  else if 'A' ≤ c ∧ c ≤ 'F' then some (c.toNat - 55)
  else none

def readHex (s : List Char) : Option ℕ :=
  s.foldlM (fun n c ↦ (hexValue c).map (16 * n + ·)) 0

def readGroup (s : List Char) : Option ℕ :=
  if s = [] ∨ 4 < s.length then none else readHex s

/-- Groups between colons, or nothing. -/
def readGroups (s : List Char) : Option (List ℕ) :=
  if s = [] then some [] else (s.splitOn ':').mapM readGroup

/-- The text before the first `::` and the one behind it. -/
def cut : List Char → Option (List Char × List Char)
  | [] => none
  | [_] => none
  | c :: d :: s =>
      if c = ':' ∧ d = ':' then some ([], s) else (cut (d :: s)).map fun r ↦ (c :: r.1, r.2)

/-- The groups of an address. -/
def read (s : List Char) : Option (List ℕ) :=
  match cut s with
  | none => (readGroups s).bind fun groups ↦ if groups.length = 8 then some groups else none
  | some (left, right) =>
      (readGroups left).bind fun l ↦ (readGroups right).bind fun r ↦
        if l.length + r.length ≤ 7 then
          some (l ++ (List.replicate (8 - l.length - r.length) 0 ++ r))
        else none

/-! ## Writing -/

/-- A number in hexadecimal digits, with capital letters. -/
def showHex (n : ℕ) : List Char := (Nat.toDigits 16 n).map Char.toUpper

def join (groups : List ℕ) : List Char := [':'].intercalate (groups.map showHex)

section Groups

variable {n : ℕ} {s t : List Char} {groups : List ℕ}

theorem hexValue_digitChar (hn : n < 16) : hexValue n.digitChar.toUpper = some n := by
  have hall : ∀ d : Fin 16, hexValue d.val.digitChar.toUpper = some d.val := by decide
  exact hall ⟨n, hn⟩

/-- Its digits are those of its sixteenth, and one more. -/
theorem showHex_eq (n : ℕ) : showHex n =
    if n < 16 then [n.digitChar.toUpper]
    else showHex (n / 16) ++ [(n % 16).digitChar.toUpper] := by
  rw [showHex, Nat.toDigits_eq_if (by decide)]
  split
  · rfl
  · rw [List.map_append]
    rfl

theorem isSome_of_mem_showHex (n : ℕ) : ∀ c ∈ showHex n, (hexValue c).isSome = true := by
  induction n using Nat.strongRecOn with
  | _ n ih =>
    intro c hc
    rw [showHex_eq] at hc
    split at hc
    · rename_i hn
      rw [List.mem_singleton.mp hc, hexValue_digitChar hn]
      rfl
    · rcases List.mem_append.mp hc with hc | hc
      · exact ih (n / 16) (by omega) c hc
      · rw [List.mem_singleton.mp hc, hexValue_digitChar (Nat.mod_lt n (by decide))]
        rfl

theorem colon_not_mem_showHex (n : ℕ) : ':' ∉ showHex n := fun h ↦ by
  cases isSome_of_mem_showHex n _ h

theorem showHex_ne_nil (n : ℕ) : showHex n ≠ [] := by
  rw [showHex_eq]
  split
  · exact List.cons_ne_nil _ _
  · exact List.append_ne_nil_of_right_ne_nil _ (List.cons_ne_nil _ _)

theorem readHex_showHex (n : ℕ) : readHex (showHex n) = some n := by
  induction n using Nat.strongRecOn with
  | _ n ih =>
    rw [showHex_eq]
    split
    · rename_i hn
      rw [readHex, List.foldlM_cons, hexValue_digitChar hn]
      simp only [Option.map_some, Nat.mul_zero, Nat.zero_add]
      rfl
    · have hrest := ih (n / 16) (by omega)
      rw [readHex] at hrest
      rw [readHex, List.foldlM_append, hrest]
      dsimp only [Option.bind_eq_bind, Option.bind_some]
      rw [List.foldlM_cons, hexValue_digitChar (Nat.mod_lt n (by decide)), Option.map_some,
        Nat.div_add_mod]
      rfl

theorem readGroup_showHex (hn : n < 65536) : readGroup (showHex n) = some n := by
  have hlength : (showHex n).length ≤ 4 := by
    rw [showHex, List.length_map]
    exact (Nat.length_toDigits_le_iff (by decide) (by decide)).mpr hn
  rw [readGroup, if_neg, readHex_showHex]
  rintro (hnil | hlong)
  · exact showHex_ne_nil n hnil
  · omega

theorem join_cons (n : ℕ) (hne : groups ≠ []) :
    join (n :: groups) = showHex n ++ ':' :: join groups := by
  obtain ⟨m, groups, rfl⟩ := List.exists_cons_of_ne_nil hne
  rw [join, List.map_cons, List.map_cons, List.intercalate_cons_cons, List.append_assoc]
  rfl

theorem join_singleton (n : ℕ) : join [n] = showHex n := List.intercalate_singleton

theorem join_ne_nil (n : ℕ) (groups : List ℕ) : join (n :: groups) ≠ [] := by
  cases groups with
  | nil =>
      rw [join_singleton]
      exact showHex_ne_nil n
  | cons m groups =>
      rw [join_cons n (List.cons_ne_nil m groups)]
      exact List.append_ne_nil_of_right_ne_nil _ (List.cons_ne_nil _ _)

theorem mapM_readGroup (hgroups : ∀ g ∈ groups, g < 65536) :
    (groups.map showHex).mapM readGroup = some groups := by
  induction groups with
  | nil => rfl
  | cons g groups ih =>
      rw [List.map_cons, List.mapM_cons, readGroup_showHex (hgroups g List.mem_cons_self),
        ih fun g hg ↦ hgroups g (List.mem_cons_of_mem _ hg)]
      rfl

theorem readGroups_join (hgroups : ∀ g ∈ groups, g < 65536) (hne : groups ≠ []) :
    readGroups (join groups) = some groups := by
  obtain ⟨n, rest, rfl⟩ := List.exists_cons_of_ne_nil hne
  rw [readGroups, if_neg (join_ne_nil n rest), join, List.splitOn_intercalate]
  · exact mapM_readGroup hgroups
  · intro s hs
    obtain ⟨g, -, rfl⟩ := List.mem_map.mp hs
    exact colon_not_mem_showHex g
  · exact List.cons_ne_nil _ _

/-! ## The cut -/

theorem cut_append (hs : ':' ∉ s) (t : List Char) :
    cut (s ++ t) = (cut t).map fun r ↦ (s ++ r.1, r.2) := by
  induction s with
  | nil => cases h : cut t <;> simp [h]
  | cons c s ih =>
      have hc : c ≠ ':' := fun h ↦ hs (h ▸ List.mem_cons_self)
      have ih := ih fun h ↦ hs (List.mem_cons_of_mem _ h)
      rw [List.cons_append]
      rcases hst : s ++ t with _ | ⟨d, u⟩
      · rw [(List.append_eq_nil_iff.mp hst).2]
        rfl
      · rw [cut, if_neg (fun h ↦ hc h.1), ← hst, ih, Option.map_map]
        rfl

theorem cut_colon (hs : s.head? ≠ some ':') :
    cut (':' :: s) = (cut s).map fun r ↦ (':' :: r.1, r.2) := by
  cases s with
  | nil => rfl
  | cons d s => rw [cut, if_neg (fun h ↦ hs (congrArg some h.2))]

theorem head_join (n : ℕ) (groups : List ℕ) (t : List Char) :
    (join (n :: groups) ++ t).head? ≠ some ':' := by
  have hshow : ∀ u : List Char, (showHex n ++ u).head? ≠ some ':' := by
    intro u
    obtain ⟨c, s, hcs⟩ := List.exists_cons_of_ne_nil (showHex_ne_nil n)
    rw [hcs, List.cons_append, List.head?_cons]
    intro h
    cases h
    exact colon_not_mem_showHex n (hcs ▸ List.mem_cons_self)
  cases groups with
  | nil =>
      rw [join_singleton]
      exact hshow t
  | cons m groups =>
      rw [join_cons n (List.cons_ne_nil m groups), List.append_assoc]
      exact hshow _

/-- There is no `::` among groups. -/
theorem cut_join_append (n : ℕ) (groups : List ℕ) (t : List Char) :
    cut (join (n :: groups) ++ t) = (cut t).map fun r ↦ (join (n :: groups) ++ r.1, r.2) := by
  induction groups generalizing n with
  | nil =>
      rw [join_singleton]
      exact cut_append (colon_not_mem_showHex n) t
  | cons m groups ih =>
      rw [join_cons n (List.cons_ne_nil m groups), List.append_assoc,
        cut_append (colon_not_mem_showHex n), List.cons_append, cut_colon (head_join m groups t), ih,
        Option.map_map, Option.map_map]
      congr 1
      funext r
      simp only [Function.comp_apply, List.append_assoc, List.cons_append]

theorem read_join (hgroups : ∀ g ∈ groups, g < 65536) (hlength : groups.length = 8) :
    read (join groups) = some groups := by
  have hne : groups ≠ [] := List.ne_nil_of_length_pos (by omega)
  obtain ⟨n, rest, rfl⟩ := List.exists_cons_of_ne_nil hne
  have hcut := cut_join_append n rest []
  rw [List.append_nil] at hcut
  rw [read, hcut]
  show (readGroups _).bind _ = _
  rw [readGroups_join hgroups hne, Option.bind_some, if_pos hlength]

/-- What is behind a `::` is read by itself. -/
theorem read_join_append (n : ℕ) (rest : List ℕ) (hgroups : ∀ g ∈ n :: rest, g < 65536)
    (t : List Char) : read (join (n :: rest) ++ ':' :: ':' :: t) =
      (readGroups t).bind fun r ↦ if rest.length + 1 + r.length ≤ 7 then
        some (n :: rest ++ (List.replicate (8 - (rest.length + 1) - r.length) 0 ++ r)) else none := by
  rw [read, cut_join_append, cut, if_pos ⟨rfl, rfl⟩, Option.map_some]
  dsimp only
  rw [List.append_nil, readGroups_join hgroups (List.cons_ne_nil n rest), Option.bind_some,
    List.length_cons]

theorem readGroups_of_not_mem (ht : ':' ∉ t) (hne : t ≠ []) :
    readGroups t = (readGroup t).map ([·]) := by
  rw [readGroups, if_neg hne, List.splitOn_eq_singleton ht, List.mapM_cons, List.mapM_nil]
  cases readGroup t <;> rfl

end Groups

end Beirdobot.Library.IPv6
