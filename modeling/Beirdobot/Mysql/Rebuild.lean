import Beirdobot.Libc
import Mathlib.Algebra.Group.Int.Defs
import Mathlib.Data.Int.Notation
import Mathlib.Data.List.Perm.Basic

/-!
# Building the index anew

A transcription of `db_rebuild_clucene` of `mysql.c` and of its callbacks.  The query
for a batch has no `ORDER BY`: the order in which the database goes through the rows is a
parameter for each batch.  A result `none` is an overflow or a division by zero.
-/

namespace Beirdobot.Mysql.Rebuild

/-- What is selected of a row of `irclog`. -/
structure Row where
  chanid : CString
  nick : CString
  message : CString
  timestamp : CString
  deriving DecidableEq

/-- The arguments of `clucene_add`. -/
structure Entry where
  chanid : ℤ
  nick : CString
  text : CString
  timestamp : ℕ
  deriving DecidableEq

def Row.entry (row : Row) : Entry :=
  ⟨atoi row.chanid, row.nick, row.message, (atoi row.timestamp % 2 ^ 64).toNat⟩

/-- The greatest `int`. -/
def intMax : ℕ := 2 ^ 31 - 1

/-- The loop over the rows of a batch: `i % span` is taken for every row, and the rows
that were given to `clucene_add` are added up. -/
def addRows (span : ℕ) : ℕ → List Row → List Entry → Option (List Entry)
  | _, [], added => some added
  | i, row :: rows, added =>
      if span = 0 then none else addRows span (i + 1) rows (added ++ [row.entry])

/-- `result_rebuild_clucene2`; an empty result is left alone. -/
def resultRebuildClucene2 (res : List Row) (added : List Entry) : Option (List Entry) :=
  let count := res.length
  if count = 0 then some added
  else
    let span := if 4000 ≤ count then 1000 else count / 4
    addRows span 0 res added

/-- `LIMIT i, 1000000` -/
def batch (order : ℕ → List Row) (i : ℕ) : List Row := ((order i).drop i).take 1000000

/-- The loop over the batches; the sum after a batch is to be an `int`. -/
def rebuildLoop (order : ℕ → List Row) (reccount i : ℕ) (added : List Entry) :
    Option (List Entry) :=
  if i < reccount then
    if i + 1000000 ≤ intMax then
      (resultRebuildClucene2 (batch order i) added).bind fun added ↦
        rebuildLoop order reccount (i + 1000000) added
    else none
  else some added
termination_by reccount - i
decreasing_by omega

/-- `result_rebuild_clucene`, for the number that is selected. -/
def resultRebuildClucene (count : CString) : Option ℕ :=
  if atoi count ≤ intMax then some (atoi count).toNat else none

/-- `db_rebuild_clucene` -/
def dbRebuildClucene (count : CString) (order : ℕ → List Row) : Option (List Entry) :=
  (resultRebuildClucene count).bind fun reccount ↦ rebuildLoop order reccount 0 []

/-! ## The batches -/

/-- The rows of the batches from `i` on. -/
def batches (order : ℕ → List Row) (n i : ℕ) : List Row :=
  if i < n then batch order i ++ batches order n (i + 1000000) else []
termination_by n - i
decreasing_by omega

theorem addRows_eq {span : ℕ} (h : span ≠ 0) (i : ℕ) (rows : List Row) (added : List Entry) :
    addRows span i rows added = some (added ++ rows.map Row.entry) := by
  induction rows generalizing i added with
  | nil => rw [addRows, List.map_nil, List.append_nil]
  | cons row rows ih =>
      rw [addRows, if_neg h, ih, List.map_cons, List.append_assoc, List.singleton_append]

/-- A batch of one, two or three rows has a quarter of nothing. -/
theorem resultRebuildClucene2_eq (res : List Row) (added : List Entry) :
    resultRebuildClucene2 res added =
      if res.length = 0 ∨ 4 ≤ res.length then some (added ++ res.map Row.entry) else none := by
  rw [resultRebuildClucene2]
  by_cases hzero : res.length = 0
  · rw [if_pos hzero, if_pos (Or.inl hzero), List.length_eq_zero_iff.mp hzero, List.map_nil,
      List.append_nil]
  dsimp only
  rw [if_neg hzero]
  by_cases hfour : 4 ≤ res.length
  · have hspan : (if 4000 ≤ res.length then 1000 else res.length / 4) ≠ 0 := by
      split
      · decide
      · omega
    rw [addRows_eq hspan, if_pos (Or.inr hfour)]
  · have hspan : (if 4000 ≤ res.length then 1000 else res.length / 4) = 0 := by
      rw [if_neg (by omega)]
      omega
    rw [hspan, if_neg (by omega)]
    cases res with
    | nil => exact absurd rfl hzero
    | cons row rows => rw [addRows, if_pos rfl]

section Order

variable {order : ℕ → List Row} {n i : ℕ}

theorem length_batch (h : (order i).length = n) : (batch order i).length = min 1000000 (n - i) := by
  rw [batch, List.length_take, List.length_drop, h]

/-- The loop from a batch on, in a table of `n` rows. -/
theorem rebuildLoop_eq (horder : ∀ i, (order i).length = n) (hn : n ≤ intMax)
    (hi : i % 1000000 = 0) (added : List Entry) :
    rebuildLoop order n i added =
      if i < n → n ≤ 2147000000 ∧ (n % 1000000 = 0 ∨ 4 ≤ n % 1000000)
      then some (added ++ (batches order n i).map Row.entry) else none := by
  induction hk : n - i using Nat.strongRecOn generalizing i added with
  | _ k ih =>
    rw [rebuildLoop, batches]
    by_cases hlt : i < n
    swap
    · rw [if_neg hlt, if_pos fun h ↦ absurd h hlt, if_neg hlt, List.map_nil, List.append_nil]
    rw [if_pos hlt, if_pos hlt, resultRebuildClucene2_eq, length_batch (horder i)]
    have hnext := ih (n - (i + 1000000)) (by omega) (by omega)
      (added ++ (batch order i).map Row.entry) rfl
    unfold intMax at hn
    by_cases hmax : i + 1000000 ≤ intMax
    swap
    · rw [if_neg hmax, if_neg]
      unfold intMax at hmax
      omega
    rw [if_pos hmax]
    unfold intMax at hmax
    by_cases hbatch : min 1000000 (n - i) = 0 ∨ 4 ≤ min 1000000 (n - i)
    · rw [if_pos hbatch, Option.bind_some, hnext, List.map_append, List.append_assoc]
      refine if_congr ?_ rfl rfl
      constructor <;> intro h <;> omega
    · rw [if_neg hbatch, Option.bind_none, if_neg]
      omega

/-- In a table that is always gone through in one order the batches are the table. -/
theorem batches_of_const {rows : List Row} (h : ∀ i, order i = rows) :
    batches order rows.length i = rows.drop i := by
  induction hk : rows.length - i using Nat.strongRecOn generalizing i with
  | _ k ih =>
    rw [batches]
    by_cases hlt : i < rows.length
    · have hnext := ih (rows.length - (i + 1000000)) (by omega) rfl
      rw [if_pos hlt, hnext, batch, h, ← List.drop_drop, List.take_append_drop]
    · rw [if_neg hlt, List.drop_eq_nil_of_le (Nat.not_lt.mp hlt)]

end Order

/-- Every row is added once, without an overflow or a division by zero, if and only if
the sum of the batches does not get past an `int`, the last batch does not have one, two
or three rows, and the database has each row in one of the batches. -/
theorem dbRebuildClucene_iff (rows : List Row) (order : ℕ → List Row)
    (horder : ∀ i, (order i).Perm rows) :
    (∃ added, dbRebuildClucene (Nat.toDigits 10 rows.length) order = some added ∧
      added.Perm (rows.map Row.entry)) ↔
      rows.length ≤ 2147000000 ∧ (rows.length % 1000000 = 0 ∨ 4 ≤ rows.length % 1000000) ∧
      ((batches order rows.length 0).map Row.entry).Perm (rows.map Row.entry) := by
  rw [dbRebuildClucene, resultRebuildClucene, atoi_toDigits, Int.toNat_natCast]
  by_cases hmax : (rows.length : ℤ) ≤ intMax
  swap
  · rw [if_neg hmax]
    refine ⟨fun h ↦ ?_, fun h ↦ ?_⟩
    · obtain ⟨_, h, -⟩ := h
      cases h
    · exact absurd (by unfold intMax; omega) hmax
  have hloop := rebuildLoop_eq (fun i ↦ (horder i).length_eq) (Int.ofNat_le.mp hmax) (Nat.zero_mod _) []
  rw [if_pos hmax, Option.bind_some, hloop, List.nil_append]
  constructor
  · rintro ⟨added, h, hperm⟩
    split at h
    · rename_i hok
      obtain rfl := Option.some.inj h
      rcases Nat.eq_zero_or_pos rows.length with hzero | hpos
      · rw [hzero] at hperm ⊢
        exact ⟨by omega, .inl rfl, hperm⟩
      · exact ⟨(hok hpos).1, (hok hpos).2, hperm⟩
    · cases h
  · rintro ⟨hle, hlast, hperm⟩
    exact ⟨_, if_pos fun _ ↦ ⟨hle, hlast⟩, hperm⟩

def logRow (nick : CString) : Row := ⟨"1".toList, nick, "hello".toList, "1200000000".toList⟩

theorem dbRebuildClucene_iff_four : ∃ added,
    dbRebuildClucene (Nat.toDigits 10 4) (fun _ ↦ ["a", "b", "c", "d"].map (logRow ·.toList)) =
      some added ∧ added.Perm (["a", "b", "c", "d"].map (logRow ·.toList) |>.map Row.entry) := by
  refine (dbRebuildClucene_iff (["a", "b", "c", "d"].map (logRow ·.toList)) _
    fun _ ↦ List.Perm.refl _).mpr ⟨by decide, .inr (by decide), ?_⟩
  rw [batches_of_const fun _ ↦ rfl, List.drop_zero]

/-- One row is in the table. -/
theorem not_dbRebuildClucene :
    dbRebuildClucene (Nat.toDigits 10 1) (fun _ ↦ [logRow "a".toList]) = none := by
  have hlength : ∀ i : ℕ, ((fun _ ↦ [logRow "a".toList]) i).length = 1 := fun _ ↦ rfl
  have hloop := rebuildLoop_eq hlength (by decide) (Nat.zero_mod _) []
  rw [if_neg (by decide)] at hloop
  rw [dbRebuildClucene, resultRebuildClucene, atoi_toDigits, if_pos (by decide), Option.bind_some]
  exact hloop

end Beirdobot.Mysql.Rebuild
