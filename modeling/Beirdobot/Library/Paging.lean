import Mathlib.Data.List.Basic
import Mathlib.Data.List.Range
import Mathlib.Data.Nat.Notation

/-!
# Pages

A list some of whose elements start a new page: the first element is on page 0 whether it
starts one or not, and every other element that does is on the page behind the one before it.
-/

namespace Beirdobot.Library.Paging

variable {α : Type*} (starts : α → Bool)

/-- The elements with their pages, behind one on `page`. -/
def numbered (page : ℕ) : List α → List (ℕ × α)
  | [] => []
  | a :: as =>
      if starts a then (page + 1, a) :: numbered (page + 1) as else (page, a) :: numbered page as

/-- The elements with their pages. -/
def number : List α → List (ℕ × α)
  | [] => []
  | a :: as => (0, a) :: numbered starts 0 as

/-- How many pages there are; one of no elements is one page. -/
def pages (as : List α) : ℕ := as.tail.countP starts + 1

/-- A page of its own. -/
def Opens (as : List α) : Prop :=
  ∃ a rest, as = a :: rest ∧ starts a = true ∧ ∀ b ∈ rest, starts b = false

/-- No page of its own. -/
def Continues (as : List α) : Prop := ∀ a ∈ as, starts a = false

section Blocks

variable {starts} {as bs : List α} {page n : ℕ} {blocks : ℕ → List α}

theorem numbered_append (page : ℕ) (as bs : List α) :
    numbered starts page (as ++ bs) =
      numbered starts page as ++ numbered starts (page + as.countP starts) bs := by
  induction as generalizing page with
  | nil => rfl
  | cons a as ih =>
      rw [List.cons_append, numbered, numbered]
      split
      · rename_i ha
        rw [ih, List.cons_append, List.countP_cons_of_pos ha, Nat.add_right_comm, Nat.add_assoc]
      · rename_i ha
        rw [ih, List.cons_append, List.countP_cons_of_neg ha]

theorem Continues.countP_eq (h : Continues starts as) : as.countP starts = 0 :=
  List.countP_eq_zero.mpr fun a ha ↦ by simp [h a ha]

theorem Continues.numbered_eq (h : Continues starts as) (page : ℕ) :
    numbered starts page as = as.map (page, ·) := by
  induction as with
  | nil => rfl
  | cons a as ih =>
      rw [numbered, if_neg (by simp [h a List.mem_cons_self]), List.map_cons,
        ih fun b hb ↦ h b (List.mem_cons_of_mem a hb)]

theorem Opens.countP_eq (h : Opens starts as) : as.countP starts = 1 := by
  obtain ⟨a, rest, rfl, ha, hrest⟩ := h
  rw [List.countP_cons_of_pos ha, Continues.countP_eq hrest]

theorem Opens.numbered_eq (h : Opens starts as) (page : ℕ) :
    numbered starts page as = as.map (page + 1, ·) := by
  obtain ⟨a, rest, rfl, ha, hrest⟩ := h
  rw [numbered, if_pos ha, Continues.numbered_eq hrest, List.map_cons]

theorem number_eq_numbered (h : ∀ a ∈ as.head?, starts a = false) :
    number starts as = numbered starts 0 as := by
  cases as with
  | nil => rfl
  | cons a as => rw [number, numbered, if_neg (by simp [h a rfl])]

theorem pages_eq_countP (h : ∀ a ∈ as.head?, starts a = false) :
    pages starts as = as.countP starts + 1 := by
  cases as with
  | nil => rfl
  | cons a as => rw [pages, List.tail_cons, List.countP_cons_of_neg (by simp [h a rfl])]

theorem pages_le (as : List α) : pages starts as ≤ as.countP starts + 1 :=
  Nat.add_le_add_right ((List.tail_sublist as).countP_le) 1

/-- Every element is on a page that there is. -/
theorem lt_pages {a : α} (h : (page, a) ∈ number starts as) : page < pages starts as := by
  have hnumbered : ∀ (as : List α) (k : ℕ), (page, a) ∈ numbered starts k as →
      page ≤ k + as.countP starts := by
    intro as
    induction as with
    | nil => intro k hmem; cases hmem
    | cons b as ih =>
        intro k hmem
        rw [numbered] at hmem
        split at hmem
        · rename_i hb
          rw [List.countP_cons_of_pos hb]
          rcases List.mem_cons.mp hmem with heq | hmem
          · cases heq
            exact Nat.add_le_add_left (Nat.le_add_left ..) k
          · have hle := ih (k + 1) hmem
            omega
        · rename_i hb
          rw [List.countP_cons_of_neg hb]
          rcases List.mem_cons.mp hmem with heq | hmem
          · cases heq
            exact Nat.le_add_right ..
          · exact ih k hmem
  cases as with
  | nil => cases h
  | cons b as =>
      rcases List.mem_cons.mp h with heq | hmem
      · cases heq
        exact Nat.succ_pos _
      · have hle := hnumbered as 0 hmem
        rw [pages, List.tail_cons]
        omega

theorem mem_of_mem_number {a : α} (h : (page, a) ∈ number starts as) : a ∈ as := by
  have hnumbered : ∀ (as : List α) (k : ℕ), (page, a) ∈ numbered starts k as → a ∈ as := by
    intro as
    induction as with
    | nil => intro k hmem; cases hmem
    | cons b as ih =>
        intro k hmem
        rw [numbered] at hmem
        split at hmem
        all_goals
          rcases List.mem_cons.mp hmem with heq | hmem
          · cases heq
            exact List.mem_cons_self
          · exact List.mem_cons_of_mem b (ih _ hmem)
  cases as with
  | nil => cases h
  | cons b as =>
      rcases List.mem_cons.mp h with heq | hmem
      · cases heq
        exact List.mem_cons_self
      · exact List.mem_cons_of_mem b (hnumbered as 0 hmem)

/-- Blocks behind the first that start a page each. -/
structure Paged (starts : α → Bool) (blocks : ℕ → List α) (n : ℕ) : Prop where
  first : Continues starts (blocks 0)
  later : ∀ p, 1 ≤ p → p < n → Opens starts (blocks p)

theorem Paged.countP_eq (h : Paged starts blocks (n + 1)) :
    ((List.range (n + 1)).flatMap blocks).countP starts = n := by
  induction n with
  | zero =>
      rw [List.range_succ, List.range_zero, List.nil_append, List.flatMap_singleton]
      exact h.first.countP_eq
  | succ n ih =>
      rw [List.range_succ, List.flatMap_append, List.countP_append,
        ih ⟨h.first, fun p hp hlt ↦ h.later p hp (Nat.lt_succ_of_lt hlt)⟩,
        List.flatMap_singleton, (h.later (n + 1) (Nat.succ_pos n) (Nat.lt_succ_self _)).countP_eq]

/-- They are the pages. -/
theorem Paged.mem_numbered (h : Paged starts blocks (n + 1)) {a : α} :
    (page, a) ∈ numbered starts 0 ((List.range (n + 1)).flatMap blocks) ↔
      page < n + 1 ∧ a ∈ blocks page := by
  induction n with
  | zero =>
      rw [List.range_succ, List.range_zero, List.nil_append, List.flatMap_singleton,
        h.first.numbered_eq, List.mem_map]
      constructor
      · rintro ⟨b, hb, heq⟩
        cases heq
        exact ⟨Nat.one_pos, hb⟩
      · rintro ⟨hpage, ha⟩
        cases Nat.lt_one_iff.mp hpage
        exact ⟨a, ha, rfl⟩
  | succ n ih =>
      have hbefore : Paged starts blocks (n + 1) :=
        ⟨h.first, fun p hp hlt ↦ h.later p hp (Nat.lt_succ_of_lt hlt)⟩
      have hlast := h.later (n + 1) (Nat.succ_pos n) (Nat.lt_succ_self _)
      rw [List.range_succ, List.flatMap_append, numbered_append, hbefore.countP_eq,
        List.flatMap_singleton, hlast.numbered_eq, List.mem_append, ih hbefore, List.mem_map]
      constructor
      · rintro (⟨hpage, ha⟩ | ⟨b, hb, heq⟩)
        · exact ⟨Nat.lt_succ_of_lt hpage, ha⟩
        · rw [Nat.zero_add] at heq
          cases heq
          exact ⟨Nat.lt_succ_self _, hb⟩
      · rintro ⟨hpage, ha⟩
        rcases Nat.lt_succ_iff_lt_or_eq.mp hpage with hpage | rfl
        · exact .inl ⟨hpage, ha⟩
        · exact .inr ⟨a, ha, by rw [Nat.zero_add]⟩

/-- Blocks that start a page at most start one each where there are as many pages. -/
theorem countP_eq_one (hfirst : Continues starts (blocks 0))
    (hlater : ∀ p, (blocks p).countP starts ≤ 1)
    (hcount : n ≤ ((List.range (n + 1)).flatMap blocks).countP starts) {p : ℕ} (hp : 1 ≤ p)
    (hlt : p < n + 1) : (blocks p).countP starts = 1 := by
  have hbound : ∀ m, ((List.range (m + 1)).flatMap blocks).countP starts ≤ m := by
    intro m
    induction m with
    | zero =>
        rw [List.range_succ, List.range_zero, List.nil_append, List.flatMap_singleton,
          hfirst.countP_eq]
    | succ m ih =>
        rw [List.range_succ, List.flatMap_append, List.countP_append, List.flatMap_singleton]
        exact Nat.add_le_add ih (hlater (m + 1))
  induction n with
  | zero => omega
  | succ n ih =>
      rw [List.range_succ, List.flatMap_append, List.countP_append, List.flatMap_singleton]
        at hcount
      have hbefore := hbound n
      have hlast := hlater (n + 1)
      rcases Nat.lt_succ_iff_lt_or_eq.mp hlt with hlt | rfl
      · exact ih (by omega) hlt
      · omega

end Blocks

end Beirdobot.Library.Paging
