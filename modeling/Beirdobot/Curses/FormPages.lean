import Beirdobot.Library.Paging
import Mathlib.Data.List.TakeWhile
import Mathlib.Tactic.Ring

/-!
# The pages of a form

Transcriptions of the layout that `cursesFormRegenerate` makes of `formList` and of
`cursesUpdateFormLabels`, both of `curses.c`: which fields go where in `detailsFields`, which of
them start a page, and which labels are written on a page.  What the fields look like, their
types and contents, and the place of the cursor are left out.
-/

namespace Beirdobot.Curses.FormPages

open Library

/-- What the layout asks of the curses libraries. -/
structure FormLibrary where
  /-- Whether `new_field` makes a field of so many rows and columns at a row and a column. -/
  newField : ℤ → ℤ → ℤ → ℤ → Bool
  /-- A field has rows. -/
  pos_of_newField : ∀ {rows cols row col : ℤ}, newField rows cols row col = true → 0 < rows
  /-- Whether the window has room for such a field where `post_form` posts its form. -/
  room : ℤ → ℤ → ℤ → ℤ → Bool
  /-- Whether `mvwaddnstr` can write at a row and a column of the window. -/
  moves : ℤ → ℤ → Bool

/-- `CursesFieldType_t`, with the members that only some types have. -/
inductive FieldType
  | label
  | field (width height : ℤ)
  | checkbox
  | button (len : ℕ)
  deriving DecidableEq

/-- The place in the form of a `CursesField_t`. -/
structure CursesField where
  startx : ℤ
  starty : ℤ
  type : FieldType
  deriving DecidableEq

namespace CursesField

/-- `fieldItem->height`, which is 0 but for fields. -/
def height (fieldItem : CursesField) : ℤ :=
  match fieldItem.type with
  | .field _ height => height
  | _ => 0

/-- The row that `maxy` is compared with. -/
def lastRow (fieldItem : CursesField) : ℤ :=
  if fieldItem.height ≠ 0 then fieldItem.starty + fieldItem.height - 1 else fieldItem.starty

/-- The rows and columns that the field is made with, in a window of `x` columns; a label has no
field. -/
def size (fieldItem : CursesField) (x : ℤ) : Option (ℤ × ℤ) :=
  match fieldItem.type with
  | .label => none
  | .field width height =>
      some (height, if x - 1 < width + fieldItem.startx then x - fieldItem.startx - 1 else width)
  | .checkbox => some (1, 1)
  | .button len => some (1, len)

/-- What `count` counts. -/
def isInput (fieldItem : CursesField) : Bool := fieldItem.type ≠ .label

end CursesField

/-- A `FIELD`: the item that is its `userptr`, which is none for `Next Page`, whether it starts
a page, and its place. -/
structure Field where
  userptr : Option ℕ
  newPage : Bool
  rows : ℤ
  cols : ℤ
  row : ℤ
  col : ℤ
  deriving DecidableEq

/-! ## `cursesFormRegenerate` -/

section Regenerate

variable (form : List CursesField) (y x : ℤ)

def maxy : ℤ := form.foldl (fun maxy fieldItem ↦ max fieldItem.lastRow maxy) 0

def count : ℕ := form.countP CursesField.isInput

def pageCount : ℕ :=
  if maxy form ≤ y - 1 then 1 else ((maxy form + y - 1).tdiv (y - 1)).toNat

def detailsFieldCount : ℕ := count form + pageCount form y + 1

/-- The field that an item gets on a page, if any. -/
def placed (pageCount : ℕ) (pageStart : ℤ) (newPage : Bool) (entry : CursesField × ℕ) :
    Option Field :=
  let starty := entry.1.starty - pageStart
  if starty < 0 ∨ (1 < pageCount ∧ y - 2 < starty) ∨ (pageCount = 1 ∧ y - 1 < starty) then none
  else (entry.1.size x).map fun (rows, cols) ↦
    ⟨some entry.2, newPage, rows, cols, starty, entry.1.startx⟩

/-- The loop over the items, with what it leaves in `newPage`. -/
def itemsLoop (pageCount : ℕ) (pageStart : ℤ) (newPage : Bool) :
    List (CursesField × ℕ) → List Field × Bool
  | [] => ([], newPage)
  | entry :: entries =>
      match placed y x pageCount pageStart newPage entry with
      | none => itemsLoop pageCount pageStart newPage entries
      | some field =>
          let rest := itemsLoop pageCount pageStart false entries
          (field :: rest.1, rest.2)

/-- The button `Next Page`. -/
def nextPage : Field := ⟨none, false, 1, 9, y - 1, (x - 9).tdiv 2⟩

/-- The loop over the pages that are left. -/
def pagesLoop (pageCount : ℕ) : ℕ → ℤ → Bool → List Field
  | 0, _, _ => []
  | left + 1, pageStart, newPage =>
      let page := itemsLoop y x pageCount pageStart newPage form.zipIdx
      if 1 < pageCount then
        page.1 ++ nextPage y x :: pagesLoop pageCount left (pageStart + (y - 1)) true
      else page.1 ++ pagesLoop pageCount left (pageStart + (y - 1)) page.2

/-- The fields that are asked for, in the order of the array; a `NULL` stands where one is not
made, and behind the last. -/
def detailsFields : List Field :=
  pagesLoop form y x (pageCount form y) (pageCount form y) 0 false

end Regenerate

namespace FormLibrary

variable (library : FormLibrary) (form : List CursesField) (y x : ℤ)

def makes (field : Field) : Bool := library.newField field.rows field.cols field.row field.col

def hasRoom (field : Field) : Bool := library.room field.rows field.cols field.row field.col

/-- `new_form`: the fields up to the first `NULL`. -/
def detailsForm : List Field := (detailsFields form y x).takeWhile library.makes

/-- `post_form` succeeds. -/
def posted : Bool := (library.detailsForm form y x).all library.hasRoom

/-- The number of pages that curses gives the form. -/
def formPages : ℕ := Paging.pages Field.newPage (library.detailsForm form y x)

/-- `cursesUpdateFormLabels`: the items that are written. -/
def cursesUpdateFormLabels (detailsPage : ℕ) : List ℕ :=
  form.zipIdx.filterMap fun (fieldItem, i) ↦
    let starty := fieldItem.starty - detailsPage * (y - 1)
    if fieldItem.type = .label ∧ 0 ≤ starty ∧ starty < y - 1 ∧
        library.moves starty fieldItem.startx = true then
      some i
    else none

end FormLibrary

/-! ## The layout -/

section Layout

variable (library : FormLibrary) (form : List CursesField) (y x : ℤ)

/-- The `i`th item is shown on a page. -/
def Shows (page i : ℕ) : Prop :=
  (page < library.formPages form y x ∧ i ∈ library.cursesUpdateFormLabels form y page) ∨
    (library.posted form y x = true ∧
      ∃ field, (page, field) ∈ Paging.number Field.newPage (library.detailsForm form y x) ∧
        field.userptr = some i)

/-- One page suffices. -/
def OnOnePage : Prop := ∀ fieldItem ∈ form, fieldItem.lastRow < y

/-- What the layout is for. -/
structure LaysOut : Prop where
  /-- The array has room for the fields and the `NULL` behind them. -/
  bounded : (detailsFields form y x).length < detailsFieldCount form y
  /-- Each further page starts a new page of the form. -/
  pages : library.formPages form y x = pageCount form y
  shown : ∀ i < form.length, ∃! page, Shows library form y x page i
  together : ∀ i j fieldItem fieldItem', form[i]? = some fieldItem → form[j]? = some fieldItem' →
    fieldItem.starty = fieldItem'.starty →
      ∀ page, Shows library form y x page i ↔ Shows library form y x page j
  rows : ∀ page < pageCount form y, ∀ i fieldItem, form[i]? = some fieldItem →
    (Shows library form y x page i ↔ OnOnePage form y ∨
      page * (y - 1) ≤ fieldItem.starty ∧ fieldItem.starty < (page + 1) * (y - 1))

/-- Curses takes an item in a row of the window. -/
def Accepted (fieldItem : CursesField) (row : ℤ) : Prop :=
  match fieldItem.size x with
  | none => library.moves row fieldItem.startx = true
  | some (rows, cols) =>
      library.newField rows cols row fieldItem.startx = true ∧
        library.room rows cols row fieldItem.startx = true

/-- The forms that are laid out. -/
structure Fits : Prop where
  start : ∀ fieldItem ∈ form, 0 ≤ fieldItem.starty
  /-- On one page, no label is in the last row. -/
  one : OnOnePage form y → ∀ fieldItem ∈ form,
    Accepted library x fieldItem fieldItem.starty ∧
      (fieldItem.type = .label → fieldItem.starty < y - 1)
  /-- On several pages, there is room for the button. -/
  next : ¬ OnOnePage form y → library.makes (nextPage y x) = true ∧
    library.hasRoom (nextPage y x) = true
  several : ¬ OnOnePage form y → ∀ fieldItem ∈ form,
    Accepted library x fieldItem (fieldItem.starty % (y - 1))
  /-- Every further page has something other than labels. -/
  inputs : ¬ OnOnePage form y → ∀ page : ℕ, 1 ≤ page →
    (∃ fieldItem ∈ form, page * (y - 1) ≤ fieldItem.lastRow) →
      ∃ fieldItem ∈ form, fieldItem.isInput = true ∧
        page * (y - 1) ≤ fieldItem.starty ∧ fieldItem.starty < (page + 1) * (y - 1)

end Layout

/-! ## Where the fields are -/

section Fields

variable {form : List CursesField} {y x : ℤ} {n page : ℕ} {pageStart : ℤ} {newPage : Bool}
  {fieldItem : CursesField} {field : Field} {i : ℕ}

/-- A page that is not skipped. -/
def InPage (y : ℤ) (pageCount page : ℕ) (fieldItem : CursesField) : Prop :=
  0 ≤ fieldItem.starty - page * (y - 1) ∧
    (1 < pageCount → fieldItem.starty - page * (y - 1) ≤ y - 2) ∧
    (pageCount = 1 → fieldItem.starty - page * (y - 1) ≤ y - 1)

instance (y : ℤ) (pageCount page : ℕ) : DecidablePred (InPage y pageCount page) := fun _ ↦
  inferInstanceAs (Decidable (_ ∧ _ ∧ _))

theorem placed_eq_some_iff :
    placed y x n (page * (y - 1)) newPage (fieldItem, i) = some field ↔
      InPage y n page fieldItem ∧ ∃ rows cols, fieldItem.size x = some (rows, cols) ∧
        field = ⟨some i, newPage, rows, cols, fieldItem.starty - page * (y - 1),
          fieldItem.startx⟩ := by
  rw [placed]
  dsimp only
  split
  · rename_i hskip
    refine iff_of_false (fun h ↦ by cases h) ?_
    rintro ⟨⟨hstart, hseveral, hone⟩, -⟩
    rcases hskip with h | ⟨hn, h⟩ | ⟨hn, h⟩
    · omega
    · have := hseveral hn
      omega
    · have := hone hn
      omega
  · rename_i hskip
    have hpage : InPage y n page fieldItem := by
      refine ⟨?_, fun hn ↦ ?_, fun hn ↦ ?_⟩ <;> by_contra h <;> exact hskip (by omega)
    rw [Option.map_eq_some_iff]
    constructor
    · rintro ⟨⟨rows, cols⟩, hsize, rfl⟩
      exact ⟨hpage, rows, cols, hsize, rfl⟩
    · rintro ⟨-, rows, cols, hsize, rfl⟩
      exact ⟨(rows, cols), hsize, rfl⟩

theorem placed_eq_map (entry : CursesField × ℕ) :
    placed y x n pageStart newPage entry =
      (placed y x n pageStart false entry).map fun field ↦ { field with newPage } := by
  rw [placed, placed]
  dsimp only
  split
  · rfl
  · rw [Option.map_map]
    rfl

theorem itemsLoop_false (entries : List (CursesField × ℕ)) :
    (itemsLoop y x n pageStart false entries).1 =
      entries.filterMap (placed y x n pageStart false) := by
  induction entries with
  | nil => rfl
  | cons entry entries ih =>
      rw [itemsLoop, List.filterMap_cons]
      split
      · rename_i h
        rw [h]
        exact ih
      · rename_i h
        rw [h]
        exact congrArg _ ih

/-- The first field that is made takes what `newPage` is. -/
theorem itemsLoop_fst (entries : List (CursesField × ℕ)) :
    (itemsLoop y x n pageStart newPage entries).1 =
      match entries.filterMap (placed y x n pageStart false) with
      | [] => []
      | field :: fields => { field with newPage } :: fields := by
  induction entries with
  | nil => rfl
  | cons entry entries ih =>
      rw [itemsLoop, placed_eq_map, List.filterMap_cons]
      cases h : placed y x n pageStart false entry with
      | none => exact ih
      | some field => exact congrArg _ (itemsLoop_false entries)

/-- The fields of a page. -/
def block (form : List CursesField) (y x : ℤ) (n page : ℕ) : List Field :=
  (itemsLoop y x n (page * (y - 1)) (decide (1 ≤ page)) form.zipIdx).1 ++
    if 1 < n then [nextPage y x] else []

theorem pagesLoop_eq (hn : 1 < n) (left page : ℕ) :
    pagesLoop form y x n left (page * (y - 1)) (decide (1 ≤ page)) =
      (List.range' page left).flatMap (block form y x n) := by
  induction left generalizing page with
  | zero => rfl
  | succ left ih =>
      have hnext := ih (page + 1)
      rw [decide_eq_true (Nat.le_add_left 1 page)] at hnext
      have hstart : (page * (y - 1) + (y - 1) : ℤ) = (page + 1 : ℕ) * (y - 1) := by
        push_cast
        ring
      rw [pagesLoop, List.range'_succ, List.flatMap_cons, block, if_pos hn, if_pos hn, hstart,
        hnext, List.append_assoc, List.singleton_append]

theorem detailsFields_eq (form : List CursesField) (y x : ℤ) (hpos : 1 ≤ pageCount form y) :
    detailsFields form y x =
      (List.range (pageCount form y)).flatMap (block form y x (pageCount form y)) := by
  rw [detailsFields]
  generalize pageCount form y = n at hpos
  rcases Nat.lt_or_eq_of_le hpos with hn | rfl
  · have h := @pagesLoop_eq form y x n hn n 0
    rw [Nat.cast_zero, zero_mul] at h
    rw [List.range_eq_range']
    exact h
  · rw [List.range_one, List.flatMap_singleton, block]
    simp [pagesLoop]

/-- The fields of the items on a page, none of which starts it. -/
def inputs (form : List CursesField) (y x : ℤ) (n page : ℕ) : List Field :=
  form.zipIdx.filterMap (placed y x n (page * (y - 1)) false)

theorem mem_inputs : field ∈ inputs form y x n page ↔
    ∃ i fieldItem, form[i]? = some fieldItem ∧ InPage y n page fieldItem ∧
      ∃ rows cols, fieldItem.size x = some (rows, cols) ∧
        field = ⟨some i, false, rows, cols, fieldItem.starty - page * (y - 1),
          fieldItem.startx⟩ := by
  rw [inputs, List.mem_filterMap]
  constructor
  · rintro ⟨⟨fieldItem, i⟩, hmem, hplaced⟩
    exact ⟨i, fieldItem, List.mem_zipIdx_iff_getElem?.mp hmem, placed_eq_some_iff.mp hplaced⟩
  · rintro ⟨i, fieldItem, hitem, hplaced⟩
    exact ⟨(fieldItem, i), List.mem_zipIdx_iff_getElem?.mpr hitem, placed_eq_some_iff.mpr hplaced⟩

theorem not_newPage_of_mem_inputs (h : field ∈ inputs form y x n page) :
    field.newPage = false := by
  obtain ⟨i, fieldItem, -, -, rows, cols, -, rfl⟩ := mem_inputs.mp h
  rfl

theorem not_newPage_of_mem_next (h : field ∈ if 1 < n then [nextPage y x] else []) :
    field.newPage = false := by
  split at h
  · rw [List.mem_singleton.mp h]
    rfl
  · cases h

theorem block_zero : block form y x n 0 =
    inputs form y x n 0 ++ if 1 < n then [nextPage y x] else [] :=
  congrArg (· ++ _) (itemsLoop_false _)

/-- Only the first field of a page is marked. -/
theorem block_eq (hpage : 1 ≤ page) : block form y x n page =
    (match inputs form y x n page with
      | [] => []
      | field :: fields => { field with newPage := true } :: fields) ++
      if 1 < n then [nextPage y x] else [] := by
  rw [block, itemsLoop_fst, decide_eq_true hpage]
  rfl

theorem continues_block_zero : Paging.Continues Field.newPage (block form y x n 0) := by
  intro field hfield
  rw [block_zero] at hfield
  rcases List.mem_append.mp hfield with hfield | hfield
  · exact not_newPage_of_mem_inputs hfield
  · exact not_newPage_of_mem_next hfield

theorem opens_or_continues_block (hpage : 1 ≤ page) :
    inputs form y x n page ≠ [] ∧ Paging.Opens Field.newPage (block form y x n page) ∨
      inputs form y x n page = [] ∧ Paging.Continues Field.newPage (block form y x n page) := by
  rw [block_eq hpage]
  cases h : inputs form y x n page with
  | nil => exact .inr ⟨rfl, fun field hfield ↦ not_newPage_of_mem_next hfield⟩
  | cons first fields =>
      refine .inl ⟨List.cons_ne_nil first fields, _, _, rfl, rfl, fun field hfield ↦ ?_⟩
      rcases List.mem_append.mp hfield with hfield | hfield
      · exact not_newPage_of_mem_inputs (h ▸ List.mem_cons_of_mem first hfield)
      · exact not_newPage_of_mem_next hfield

theorem countP_block_le (page : ℕ) : (block form y x n page).countP Field.newPage ≤ 1 := by
  rcases Nat.eq_zero_or_pos page with rfl | hpage
  · rw [continues_block_zero.countP_eq]
    exact Nat.zero_le 1
  · rcases @opens_or_continues_block form y x n page hpage with
      ⟨-, hopens⟩ | ⟨-, hcontinues⟩
    · exact hopens.countP_eq.le
    · rw [hcontinues.countP_eq]
      exact Nat.zero_le 1

/-- A field on a page is one of an item, but for its mark, or the button. -/
theorem mem_block (hfield : field ∈ block form y x n page) :
    { field with newPage := false } ∈ inputs form y x n page ∨
      1 < n ∧ field = nextPage y x := by
  have hnext : field ∈ (if 1 < n then [nextPage y x] else []) → 1 < n ∧ field = nextPage y x := by
    intro h
    split at h
    · rename_i hn
      exact ⟨hn, List.mem_singleton.mp h⟩
    · cases h
  have hinput : field ∈ inputs form y x n page →
      { field with newPage := false } ∈ inputs form y x n page := by
    intro h
    rwa [← not_newPage_of_mem_inputs h]
  rcases Nat.eq_zero_or_pos page with rfl | hpage
  · rw [block_zero] at hfield
    exact (List.mem_append.mp hfield).imp hinput hnext
  · rw [block_eq hpage] at hfield
    refine (List.mem_append.mp hfield).imp (fun h ↦ ?_) hnext
    cases hinputs : inputs form y x n page with
    | nil => rw [hinputs] at h; cases h
    | cons first fields =>
        rw [hinputs] at h hinput
        rcases List.mem_cons.mp h with rfl | h
        · have hfirst : first ∈ inputs form y x n page := hinputs ▸ List.mem_cons_self
          have hflag := not_newPage_of_mem_inputs hfirst
          rw [show ({ first with newPage := false } : Field) = first by rw [← hflag]]
          exact List.mem_cons_self
        · exact hinput (List.mem_cons_of_mem first h)

theorem exists_mem_block (hfield : field ∈ inputs form y x n page) :
    ∃ newPage, { field with newPage } ∈ block form y x n page := by
  rcases Nat.eq_zero_or_pos page with rfl | hpage
  · rw [block_zero]
    refine ⟨false, List.mem_append_left _ ?_⟩
    rwa [← not_newPage_of_mem_inputs hfield]
  · rw [block_eq hpage]
    cases hinputs : inputs form y x n page with
    | nil => rw [hinputs] at hfield; cases hfield
    | cons first fields =>
        have hflag := not_newPage_of_mem_inputs hfield
        rw [hinputs] at hfield
        rcases List.mem_cons.mp hfield with rfl | hfield
        · exact ⟨true, List.mem_append_left _ List.mem_cons_self⟩
        · refine ⟨false, List.mem_append_left _ (List.mem_cons_of_mem _ ?_)⟩
          rwa [← hflag]

end Fields

/-! ## The pages -/

section Pages

variable {form : List CursesField} {y x z : ℤ} {n page : ℕ} {fieldItem : CursesField}

theorem le_maxy : z ≤ maxy form ↔ z ≤ 0 ∨ ∃ fieldItem ∈ form, z ≤ fieldItem.lastRow := by
  have hfold : ∀ (form : List CursesField) (m : ℤ),
      z ≤ form.foldl (fun maxy fieldItem ↦ max fieldItem.lastRow maxy) m ↔
        z ≤ m ∨ ∃ fieldItem ∈ form, z ≤ fieldItem.lastRow := by
    intro form
    induction form with
    | nil => intro m; simp
    | cons fieldItem form ih =>
        intro m
        rw [List.foldl_cons, ih, le_max_iff, List.exists_mem_cons_iff, or_comm (b := z ≤ m),
          or_assoc]
  exact hfold form 0

theorem onOnePage_iff (hy : 2 ≤ y) : OnOnePage form y ↔ maxy form ≤ y - 1 := by
  constructor
  · intro h
    by_contra hmax
    rcases le_maxy.mp (show y ≤ maxy form by omega) with hzero | ⟨fieldItem, hmem, hle⟩
    · omega
    · have := h fieldItem hmem
      omega
  · intro hmax fieldItem hmem
    by_contra hlast
    have := le_maxy.mpr (.inr ⟨fieldItem, hmem, show y ≤ fieldItem.lastRow by omega⟩)
    omega

theorem pageCount_eq_one (hy : 2 ≤ y) (hone : OnOnePage form y) : pageCount form y = 1 :=
  if_pos ((onOnePage_iff hy).mp hone)

/-- A page is counted if an item reaches it. -/
theorem lt_pageCount_iff (hy : 2 ≤ y) (hone : ¬ OnOnePage form y) :
    page < pageCount form y ↔ page * (y - 1) ≤ maxy form := by
  rw [onOnePage_iff hy] at hone
  rw [pageCount, if_neg hone, Int.tdiv_eq_ediv_of_nonneg (by omega), Int.lt_toNat,
    ← Int.add_one_le_iff, Int.le_ediv_iff_mul_le (by omega), Int.add_mul]
  omega

theorem one_lt_pageCount (hy : 2 ≤ y) (hone : ¬ OnOnePage form y) : 1 < pageCount form y := by
  have hlt := (@lt_pageCount_iff form y 1 hy hone).mpr
  rw [onOnePage_iff hy] at hone
  exact hlt (by omega)

theorem pageCount_pos (hy : 2 ≤ y) : 1 ≤ pageCount form y := by
  by_cases hone : OnOnePage form y
  · rw [pageCount_eq_one hy hone]
  · exact (one_lt_pageCount hy hone).le

theorem inPage_iff (hn : 1 < n) : InPage y n page fieldItem ↔
    page * (y - 1) ≤ fieldItem.starty ∧ fieldItem.starty < (page + 1) * (y - 1) := by
  rw [InPage, Int.add_mul]
  constructor
  · rintro ⟨hstart, hseveral, -⟩
    have := hseveral hn
    omega
  · rintro ⟨hstart, hend⟩
    exact ⟨by omega, fun _ ↦ by omega, fun _ ↦ by omega⟩

theorem inPage_one_iff : InPage y 1 0 fieldItem ↔
    0 ≤ fieldItem.starty ∧ fieldItem.starty < y := by
  rw [InPage, Nat.cast_zero, Int.zero_mul, Int.sub_zero]
  constructor
  · rintro ⟨hstart, -, hone⟩
    have := hone rfl
    omega
  · rintro ⟨hstart, hend⟩
    exact ⟨hstart, fun h ↦ absurd h (by decide), fun _ ↦ by omega⟩

theorem isSome_size (fieldItem : CursesField) (x : ℤ) :
    (fieldItem.size x).isSome = fieldItem.isInput := by
  cases h : fieldItem.type <;> simp [CursesField.size, CursesField.isInput, h]

theorem length_inputs (form : List CursesField) (y x : ℤ) (n page : ℕ) :
    (inputs form y x n page).length =
      form.countP fun fieldItem ↦ fieldItem.isInput && decide (InPage y n page fieldItem) := by
  have hplaced : ∀ entry : CursesField × ℕ,
      (placed y x n (page * (y - 1)) false entry).isSome =
        (entry.1.isInput && decide (InPage y n page entry.1)) := by
    rintro ⟨fieldItem, i⟩
    rw [Bool.eq_iff_iff, Option.isSome_iff_exists, Bool.and_eq_true, decide_eq_true_iff,
      ← isSome_size fieldItem x, Option.isSome_iff_exists]
    constructor
    · rintro ⟨field, hfield⟩
      obtain ⟨hpage, rows, cols, hsize, -⟩ := placed_eq_some_iff.mp hfield
      exact ⟨⟨_, hsize⟩, hpage⟩
    · rintro ⟨⟨⟨rows, cols⟩, hsize⟩, hpage⟩
      exact ⟨_, placed_eq_some_iff.mpr ⟨hpage, rows, cols, hsize, rfl⟩⟩
  rw [inputs, List.length_filterMap_eq_countP]
  conv_rhs => rw [← List.zipIdx_map_fst 0 form, List.countP_map]
  exact List.countP_congr fun entry _ ↦ by rw [hplaced]; rfl

theorem length_block (form : List CursesField) (y x : ℤ) (n page : ℕ) :
    (block form y x n page).length =
      (inputs form y x n page).length + if 1 < n then 1 else 0 := by
  have hnext : (if 1 < n then [nextPage y x] else []).length = if 1 < n then 1 else 0 := by
    split <;> rfl
  rcases Nat.eq_zero_or_pos page with rfl | hpage
  · rw [block_zero, List.length_append, hnext]
  · rw [block_eq hpage, List.length_append, hnext]
    cases inputs form y x n page <;> rfl

/-- The items up to a row are those up to an earlier one and those between. -/
theorem countP_rows (form : List CursesField) {a b : ℤ} (ha : 0 ≤ a) (hab : a ≤ b) :
    (form.countP fun fieldItem ↦ fieldItem.isInput &&
        decide (0 ≤ fieldItem.starty ∧ fieldItem.starty < b)) =
      (form.countP fun fieldItem ↦ fieldItem.isInput &&
          decide (0 ≤ fieldItem.starty ∧ fieldItem.starty < a)) +
        form.countP fun fieldItem ↦ fieldItem.isInput &&
          decide (a ≤ fieldItem.starty ∧ fieldItem.starty < b) := by
  induction form with
  | nil => rfl
  | cons fieldItem form ih =>
      rw [List.countP_cons, List.countP_cons, List.countP_cons, ih]
      cases fieldItem.isInput with
      | false => rfl
      | true =>
          simp only [Bool.true_and, decide_eq_true_iff]
          split_ifs <;> omega

theorem length_flatMap_block (hy : 2 ≤ y) (hn : 1 < n) (m : ℕ) :
    ((List.range m).flatMap (block form y x n)).length =
      (form.countP fun fieldItem ↦ fieldItem.isInput &&
        decide (0 ≤ fieldItem.starty ∧ fieldItem.starty < m * (y - 1))) + m := by
  induction m with
  | zero =>
      have hnone : (form.countP fun fieldItem ↦ fieldItem.isInput &&
          decide (0 ≤ fieldItem.starty ∧ fieldItem.starty < (0 : ℕ) * (y - 1))) = 0 := by
        refine List.countP_eq_zero.mpr fun fieldItem _ h ↦ ?_
        obtain ⟨-, h⟩ := Bool.and_eq_true_iff.mp h
        have := of_decide_eq_true h
        omega
      rw [hnone]
      rfl
  | succ m ih =>
      have hpage : (fun fieldItem : CursesField ↦
            fieldItem.isInput && decide (InPage y n m fieldItem)) =
          fun fieldItem ↦ fieldItem.isInput && decide (m * (y - 1) ≤ fieldItem.starty ∧
            fieldItem.starty < (m + 1 : ℕ) * (y - 1)) := by
        funext fieldItem
        simp only [inPage_iff hn, Nat.cast_add, Nat.cast_one]
      have hrows := countP_rows form (a := m * (y - 1)) (b := (m + 1 : ℕ) * (y - 1))
        (Int.mul_nonneg (by omega) (by omega)) (Int.mul_le_mul_of_nonneg_right (by omega) (by omega))
      rw [List.range_succ, List.flatMap_append, List.length_append, ih, List.flatMap_singleton,
        length_block, if_pos hn, length_inputs, hpage, hrows]
      omega

/-- The array is not written past its end. -/
theorem length_detailsFields_lt (hy : 2 ≤ y) :
    (detailsFields form y x).length < detailsFieldCount form y := by
  have hcount : ∀ p : CursesField → Bool,
      (form.countP fun fieldItem ↦ fieldItem.isInput && p fieldItem) ≤ count form := fun p ↦
    List.countP_mono_left fun fieldItem _ h ↦ (Bool.and_eq_true_iff.mp h).1
  rw [detailsFields_eq form y x (pageCount_pos hy), detailsFieldCount]
  refine Nat.lt_succ_of_le ?_
  by_cases hone : OnOnePage form y
  · rw [pageCount_eq_one hy hone, List.range_one, List.flatMap_singleton, length_block,
      length_inputs]
    exact (hcount _).trans (Nat.le_add_right _ 1)
  · rw [length_flatMap_block hy (one_lt_pageCount hy hone)]
    exact Nat.add_le_add_right (hcount _) _

theorem emod_of_inPage (hn : 1 < n) (h : InPage y n page fieldItem) :
    fieldItem.starty % (y - 1) = fieldItem.starty - page * (y - 1) := by
  obtain ⟨hstart, hend⟩ := (inPage_iff hn).mp h
  rw [Int.add_mul] at hend
  calc fieldItem.starty % (y - 1)
    _ = (fieldItem.starty - page * (y - 1) + page * (y - 1)) % (y - 1) := by rw [Int.sub_add_cancel]
    _ = (fieldItem.starty - page * (y - 1)) % (y - 1) := Int.add_mul_emod_self_right ..
    _ = fieldItem.starty - page * (y - 1) := Int.emod_eq_of_lt (by omega) (by omega)

/-- No item is on two pages. -/
theorem eq_of_inPage {page' : ℕ} (hy : 2 ≤ y) (hpage : page < pageCount form y)
    (hpage' : page' < pageCount form y) (h : InPage y (pageCount form y) page fieldItem)
    (h' : InPage y (pageCount form y) page' fieldItem) : page = page' := by
  by_cases hone : OnOnePage form y
  · rw [pageCount_eq_one hy hone] at hpage hpage'
    omega
  · have hn := one_lt_pageCount hy hone
    obtain ⟨hstart, hend⟩ := (inPage_iff hn).mp h
    obtain ⟨hstart', hend'⟩ := (inPage_iff hn).mp h'
    have hlt := Int.lt_of_mul_lt_mul_right (hstart.trans_lt hend') (by omega)
    have hlt' := Int.lt_of_mul_lt_mul_right (hstart'.trans_lt hend) (by omega)
    omega

/-- An item that is not above the window and does not end before it starts is on a page. -/
theorem exists_inPage (hy : 2 ≤ y) (hmem : fieldItem ∈ form) (hstart : 0 ≤ fieldItem.starty)
    (hlast : fieldItem.starty ≤ fieldItem.lastRow) :
    ∃ page < pageCount form y, InPage y (pageCount form y) page fieldItem := by
  by_cases hone : OnOnePage form y
  · rw [pageCount_eq_one hy hone]
    exact ⟨0, Nat.one_pos, inPage_one_iff.mpr ⟨hstart, hlast.trans_lt (hone fieldItem hmem)⟩⟩
  · obtain ⟨page, hpage⟩ := Int.eq_ofNat_of_zero_le
      (Int.ediv_nonneg hstart (show 0 ≤ y - 1 by omega))
    have hle := Int.ediv_mul_le fieldItem.starty (show y - 1 ≠ 0 by omega)
    have hlt := Int.lt_ediv_add_one_mul_self fieldItem.starty (show 0 < y - 1 by omega)
    rw [hpage] at hle hlt
    exact ⟨page, (lt_pageCount_iff hy hone).mpr
        (le_maxy.mpr (.inr ⟨fieldItem, hmem, hle.trans hlast⟩)),
      (inPage_iff (one_lt_pageCount hy hone)).mpr ⟨hle, hlt⟩⟩

end Pages

/-! ## What is laid out -/

section Result

variable {library : FormLibrary} {form : List CursesField} {y x row : ℤ} {n page i : ℕ}
  {fieldItem : CursesField} {field : Field}

theorem lastRow_of_size {rows cols : ℤ} (hsize : fieldItem.size x = some (rows, cols))
    (hrows : 0 < rows) : fieldItem.starty ≤ fieldItem.lastRow := by
  rw [CursesField.lastRow, CursesField.height]
  cases htype : fieldItem.type with
  | field width height =>
      rw [CursesField.size, htype] at hsize
      cases hsize
      dsimp only
      split <;> omega
  | label => exact le_refl _
  | checkbox => exact le_refl _
  | button len => exact le_refl _

theorem Accepted.starty_le_lastRow (h : Accepted library x fieldItem row) :
    fieldItem.starty ≤ fieldItem.lastRow := by
  rw [Accepted] at h
  cases hsize : fieldItem.size x with
  | none =>
      have hlabel : fieldItem.type = .label := by
        cases htype : fieldItem.type <;> simp [CursesField.size, htype] at hsize ⊢
      rw [CursesField.lastRow, CursesField.height, hlabel]
      exact le_refl _
  | some size =>
      rw [hsize] at h
      exact lastRow_of_size hsize (library.pos_of_newField h.1)

theorem mem_cursesUpdateFormLabels :
    i ∈ library.cursesUpdateFormLabels form y page ↔
      ∃ fieldItem, form[i]? = some fieldItem ∧ fieldItem.type = .label ∧
        0 ≤ fieldItem.starty - page * (y - 1) ∧ fieldItem.starty - page * (y - 1) < y - 1 ∧
        library.moves (fieldItem.starty - page * (y - 1)) fieldItem.startx = true := by
  rw [FormLibrary.cursesUpdateFormLabels, List.mem_filterMap]
  constructor
  · rintro ⟨⟨fieldItem, j⟩, hmem, h⟩
    dsimp only at h
    split at h
    · rename_i hlabel
      cases h
      exact ⟨fieldItem, List.mem_zipIdx_iff_getElem?.mp hmem, hlabel⟩
    · cases h
  · rintro ⟨fieldItem, hitem, hlabel⟩
    exact ⟨(fieldItem, i), List.mem_zipIdx_iff_getElem?.mpr hitem, if_pos hlabel⟩

/-- Every field of the array is that of an item on one of the pages, or the button. -/
theorem mem_detailsFields (hy : 2 ≤ y) (hfield : field ∈ detailsFields form y x) :
    (∃ page < pageCount form y, ∃ i fieldItem, form[i]? = some fieldItem ∧
        InPage y (pageCount form y) page fieldItem ∧ field.userptr = some i ∧
        fieldItem.size x = some (field.rows, field.cols) ∧
        field.row = fieldItem.starty - page * (y - 1) ∧ field.col = fieldItem.startx) ∨
      1 < pageCount form y ∧ field = nextPage y x := by
  rw [detailsFields_eq form y x (pageCount_pos hy), List.mem_flatMap] at hfield
  obtain ⟨page, hpage, hfield⟩ := hfield
  refine (mem_block hfield).imp (fun hinput ↦ ?_) id
  obtain ⟨i, fieldItem, hitem, hin, rows, cols, hsize, heq⟩ := mem_inputs.mp hinput
  injection heq with huserptr _ hrows hcols hrow hcol
  subst hrows hcols
  exact ⟨page, List.mem_range.mp hpage, i, fieldItem, hitem, hin, huserptr, hsize, hrow, hcol⟩

theorem mem_detailsFields_of_block (hy : 2 ≤ y) (hpage : page < pageCount form y)
    (hfield : field ∈ block form y x (pageCount form y) page) : field ∈ detailsFields form y x := by
  rw [detailsFields_eq form y x (pageCount_pos hy)]
  exact List.mem_flatMap.mpr ⟨page, List.mem_range.mpr hpage, hfield⟩

/-- The first field does not start a page. -/
theorem head_detailsFields (hy : 2 ≤ y) :
    ∀ field ∈ (detailsFields form y x).head?, field.newPage = false := by
  intro field hfield
  refine @continues_block_zero form y x (pageCount form y) field ?_
  rw [detailsFields_eq form y x (pageCount_pos hy)] at hfield
  by_cases hone : OnOnePage form y
  · rw [pageCount_eq_one hy hone, List.range_one, List.flatMap_singleton] at hfield
    rw [pageCount_eq_one hy hone]
    exact List.mem_of_mem_head? hfield
  · have hn := one_lt_pageCount hy hone
    obtain ⟨n, hcount⟩ : ∃ n, pageCount form y = n + 1 := ⟨_, (Nat.sub_add_cancel hn.le).symm⟩
    have hne : block form y x (pageCount form y) 0 ≠ [] := by
      rw [block_zero, if_pos hn]
      exact List.append_ne_nil_of_right_ne_nil _ (List.cons_ne_nil _ _)
    rw [hcount, List.range_succ_eq_map, List.flatMap_cons, ← hcount,
      List.head?_append_of_ne_nil _ hne] at hfield
    exact List.mem_of_mem_head? hfield

section OfFits

variable (hy : 2 ≤ y) (h : Fits library form y x)

include hy h

/-- Curses takes the item in the row that it gets on its page. -/
theorem Fits.accepted (hmem : fieldItem ∈ form) (hpage : page < pageCount form y)
    (hin : InPage y (pageCount form y) page fieldItem) :
    Accepted library x fieldItem (fieldItem.starty - page * (y - 1)) ∧
      (fieldItem.type = .label → fieldItem.starty - page * (y - 1) < y - 1) := by
  by_cases hone : OnOnePage form y
  · rw [pageCount_eq_one hy hone] at hpage
    cases Nat.lt_one_iff.mp hpage
    rw [Nat.cast_zero, Int.zero_mul, Int.sub_zero]
    exact h.one hone fieldItem hmem
  · have hn := one_lt_pageCount hy hone
    rw [← emod_of_inPage hn hin]
    exact ⟨h.several hone fieldItem hmem, fun _ ↦ Int.emod_lt_of_pos _ (by omega)⟩

theorem Fits.makes_and_hasRoom (hfield : field ∈ detailsFields form y x) :
    library.makes field = true ∧ library.hasRoom field = true := by
  rcases mem_detailsFields hy hfield with
    ⟨page, hpage, i, fieldItem, hitem, hin, -, hsize, hrow, hcol⟩ | ⟨hn, rfl⟩
  · have haccepted := (h.accepted hy (List.mem_of_getElem? hitem) hpage hin).1
    rw [Accepted, hsize] at haccepted
    rw [FormLibrary.makes, FormLibrary.hasRoom, hrow, hcol]
    exact haccepted
  · refine h.next fun hone ↦ ?_
    rw [pageCount_eq_one hy hone] at hn
    exact lt_irrefl 1 hn

theorem Fits.detailsForm_eq : library.detailsForm form y x = detailsFields form y x :=
  List.takeWhile_eq_self_iff.mpr fun _ hfield ↦ (h.makes_and_hasRoom hy hfield).1

theorem Fits.posted_eq : library.posted form y x = true := by
  rw [FormLibrary.posted, h.detailsForm_eq hy]
  exact List.all_eq_true.mpr fun _ hfield ↦ (h.makes_and_hasRoom hy hfield).2

/-- Every further page is one of the form. -/
theorem Fits.paged :
    Paging.Paged Field.newPage (block form y x (pageCount form y)) (pageCount form y) := by
  refine ⟨continues_block_zero, fun page hpage hlt ↦ ?_⟩
  have hone : ¬ OnOnePage form y := by
    intro hone
    rw [pageCount_eq_one hy hone] at hlt
    omega
  have hreach : ∃ fieldItem ∈ form, page * (y - 1) ≤ fieldItem.lastRow := by
    rcases le_maxy.mp ((lt_pageCount_iff hy hone).mp hlt) with hzero | hreach
    · have hpos := Int.mul_pos (show (0 : ℤ) < page by omega) (show 0 < y - 1 by omega)
      omega
    · exact hreach
  obtain ⟨fieldItem, hmem, hinput, hrows⟩ := h.inputs hone page hpage hreach
  refine (opens_or_continues_block hpage).elim (fun hopens ↦ hopens.2) fun hnone ↦ ?_
  obtain ⟨i, hitem⟩ := List.mem_iff_getElem?.mp hmem
  obtain ⟨⟨rows, cols⟩, hsize⟩ := Option.isSome_iff_exists.mp ((isSome_size fieldItem x).trans hinput)
  have hmem' := mem_inputs.mpr ⟨i, fieldItem, hitem,
    (inPage_iff (one_lt_pageCount hy hone)).mpr hrows, rows, cols, hsize, rfl⟩
  rw [hnone.1] at hmem'
  cases hmem'

theorem Fits.formPages_eq : library.formPages form y x = pageCount form y := by
  have hpaged := h.paged hy
  rw [FormLibrary.formPages, h.detailsForm_eq hy, Paging.pages_eq_countP (head_detailsFields hy),
    detailsFields_eq form y x (pageCount_pos hy)]
  obtain ⟨n, hn⟩ : ∃ n, pageCount form y = n + 1 :=
    ⟨_, (Nat.sub_add_cancel (pageCount_pos hy)).symm⟩
  rw [hn] at hpaged ⊢
  rw [hpaged.countP_eq]

theorem Fits.mem_number :
    (page, field) ∈ Paging.number Field.newPage (library.detailsForm form y x) ↔
      page < pageCount form y ∧ field ∈ block form y x (pageCount form y) page := by
  have hpaged := h.paged hy
  rw [h.detailsForm_eq hy, Paging.number_eq_numbered (head_detailsFields hy),
    detailsFields_eq form y x (pageCount_pos hy)]
  obtain ⟨n, hn⟩ : ∃ n, pageCount form y = n + 1 :=
    ⟨_, (Nat.sub_add_cancel (pageCount_pos hy)).symm⟩
  rw [hn] at hpaged ⊢
  exact hpaged.mem_numbered

/-- An item is shown on its page. -/
theorem Fits.shows_iff (hitem : form[i]? = some fieldItem) :
    Shows library form y x page i ↔
      page < pageCount form y ∧ InPage y (pageCount form y) page fieldItem := by
  have hmem := List.mem_of_getElem? hitem
  rw [Shows, h.formPages_eq hy, mem_cursesUpdateFormLabels]
  constructor
  · rintro (⟨hpage, other, hother, -, hstart, hend, -⟩ | ⟨-, field, hfield, huserptr⟩)
    · cases hitem.symm.trans hother
      exact ⟨hpage, hstart, fun _ ↦ by omega, fun _ ↦ by omega⟩
    · obtain ⟨hpage, hblock⟩ := (h.mem_number hy).mp hfield
      refine ⟨hpage, ?_⟩
      rcases mem_block hblock with hinput | ⟨-, rfl⟩
      · obtain ⟨j, other, hother, hin, rows, cols, -, heq⟩ := mem_inputs.mp hinput
        injection heq with heq
        cases huserptr.symm.trans heq
        cases hitem.symm.trans hother
        exact hin
      · cases huserptr
  · rintro ⟨hpage, hin⟩
    obtain ⟨haccepted, hlabel⟩ := h.accepted hy hmem hpage hin
    rw [Accepted] at haccepted
    cases hsize : fieldItem.size x with
    | none =>
        rw [hsize] at haccepted
        have htype : fieldItem.type = .label := by
          cases htype : fieldItem.type <;> simp [CursesField.size, htype] at hsize ⊢
        exact .inl ⟨hpage, fieldItem, hitem, htype, hin.1, hlabel htype, haccepted⟩
    | some size =>
        obtain ⟨newPage, hblock⟩ := exists_mem_block
          (mem_inputs.mpr ⟨i, fieldItem, hitem, hin, size.1, size.2, hsize, rfl⟩)
        exact .inr ⟨h.posted_eq hy, _, (h.mem_number hy).mpr ⟨hpage, hblock⟩, rfl⟩

theorem Fits.exists_inPage (hmem : fieldItem ∈ form) :
    ∃ page < pageCount form y, InPage y (pageCount form y) page fieldItem := by
  refine FormPages.exists_inPage hy hmem (h.start fieldItem hmem) ?_
  by_cases hone : OnOnePage form y
  · exact (h.one hone fieldItem hmem).1.starty_le_lastRow
  · exact (h.several hone fieldItem hmem).starty_le_lastRow

theorem Fits.laysOut : LaysOut library form y x where
  bounded := length_detailsFields_lt hy
  pages := h.formPages_eq hy
  shown := by
    intro i hi
    obtain ⟨fieldItem, hitem⟩ : ∃ fieldItem, form[i]? = some fieldItem :=
      ⟨_, List.getElem?_eq_getElem hi⟩
    obtain ⟨page, hpage, hin⟩ := h.exists_inPage hy (List.mem_of_getElem? hitem)
    refine ⟨page, (h.shows_iff hy hitem).mpr ⟨hpage, hin⟩, fun page' hshows ↦ ?_⟩
    obtain ⟨hpage', hin'⟩ := (h.shows_iff hy hitem).mp hshows
    exact eq_of_inPage hy hpage' hpage hin' hin
  together := by
    intro i j fieldItem fieldItem' hitem hitem' hstart page
    rw [h.shows_iff hy hitem, h.shows_iff hy hitem', InPage, InPage, hstart]
  rows := by
    intro page hpage i fieldItem hitem
    rw [h.shows_iff hy hitem, and_iff_right hpage]
    by_cases hone : OnOnePage form y
    · rw [pageCount_eq_one hy hone] at hpage ⊢
      cases Nat.lt_one_iff.mp hpage
      have hmem := List.mem_of_getElem? hitem
      have hlast := (h.one hone fieldItem hmem).1.starty_le_lastRow
      exact iff_of_true
        (inPage_one_iff.mpr ⟨h.start fieldItem hmem, hlast.trans_lt (hone fieldItem hmem)⟩)
        (.inl hone)
    · rw [inPage_iff (one_lt_pageCount hy hone), or_iff_right hone]

end OfFits

theorem size_label (hlabel : fieldItem.type = .label) : fieldItem.size x = none := by
  rw [CursesField.size, hlabel]

section OfLaysOut

variable (hy : 2 ≤ y) (h : LaysOut library form y x)

include hy h

/-- What is shown has been accepted. -/
theorem LaysOut.accepted (hitem : form[i]? = some fieldItem) :
    ∃ page < pageCount form y, InPage y (pageCount form y) page fieldItem ∧
      Accepted library x fieldItem (fieldItem.starty - page * (y - 1)) ∧
      (fieldItem.type = .label → fieldItem.starty - page * (y - 1) < y - 1) := by
  have hi := (List.getElem?_eq_some_iff.mp hitem).1
  obtain ⟨page, hshows, -⟩ := h.shown i hi
  rcases hshows with ⟨hpage, hlabel⟩ | ⟨hposted, field, hfield, huserptr⟩
  · rw [h.pages] at hpage
    obtain ⟨other, hother, htype, hstart, hend, hmoves⟩ := mem_cursesUpdateFormLabels.mp hlabel
    cases hitem.symm.trans hother
    refine ⟨page, hpage, ⟨hstart, fun _ ↦ by omega, fun _ ↦ by omega⟩, ?_, fun _ ↦ hend⟩
    rw [Accepted, size_label htype]
    exact hmoves
  · have hform := Paging.mem_of_mem_number hfield
    have hmakes := List.mem_takeWhile_imp hform
    have hroom := List.all_eq_true.mp hposted field hform
    rcases mem_detailsFields hy ((List.takeWhile_sublist _).subset hform) with
      ⟨page, hpage, j, other, hother, hin, huserptr', hsize, hrow, hcol⟩ | ⟨-, rfl⟩
    · cases huserptr.symm.trans huserptr'
      cases hitem.symm.trans hother
      refine ⟨page, hpage, hin, ?_, fun hlabel ↦ ?_⟩
      · rw [Accepted, hsize, ← hrow, ← hcol]
        exact ⟨hmakes, hroom⟩
      · rw [size_label hlabel] at hsize
        cases hsize
    · cases huserptr

omit hy in
theorem LaysOut.countP_le :
    pageCount form y ≤ (library.detailsForm form y x).countP Field.newPage + 1 := by
  rw [← h.pages]
  exact Paging.pages_le _

/-- On several pages, a field of the form starts one. -/
theorem LaysOut.exists_newPage (hone : ¬ OnOnePage form y) :
    ∃ field ∈ library.detailsForm form y x, field.newPage = true := by
  have hcount := h.countP_le
  have hn := one_lt_pageCount hy hone
  exact List.countP_pos_iff.mp (by omega)

/-- So the first button is in the form. -/
theorem LaysOut.nextPage_mem (hone : ¬ OnOnePage form y) :
    nextPage y x ∈ library.detailsForm form y x := by
  obtain ⟨field, hfield, hnewPage⟩ := h.exists_newPage hy hone
  have hn := one_lt_pageCount hy hone
  obtain ⟨n, hcount⟩ : ∃ n, pageCount form y = n + 1 := ⟨_, (Nat.sub_add_cancel hn.le).symm⟩
  obtain ⟨rest, hrest⟩ : ∃ rest, detailsFields form y x =
      block form y x (pageCount form y) 0 ++ rest := by
    rw [detailsFields_eq form y x (pageCount_pos hy), hcount, List.range_succ_eq_map,
      List.flatMap_cons]
    exact ⟨_, rfl⟩
  rw [block_zero, if_pos hn, List.append_assoc, List.singleton_append] at hrest
  rw [FormLibrary.detailsForm, hrest, List.takeWhile_append] at hfield ⊢
  split at hfield
  · rename_i hall
    rw [if_pos hall]
    rcases List.mem_append.mp hfield with hinput | hlater
    · rw [not_newPage_of_mem_inputs hinput] at hnewPage
      cases hnewPage
    · rw [List.takeWhile_cons] at hlater ⊢
      split at hlater
      · rename_i hmakes
        rw [if_pos hmakes]
        exact List.mem_append_right _ List.mem_cons_self
      · cases hlater
  · rw [not_newPage_of_mem_inputs ((List.takeWhile_sublist _).subset hfield)] at hnewPage
    cases hnewPage

theorem LaysOut.posted (hone : ¬ OnOnePage form y) : library.posted form y x = true := by
  obtain ⟨field, hfield, hnewPage⟩ := h.exists_newPage hy hone
  rcases mem_detailsFields hy ((List.takeWhile_sublist _).subset hfield) with
    ⟨-, -, i, fieldItem, hitem, -, -, hsize, -⟩ | ⟨-, rfl⟩
  · obtain ⟨page, ⟨-, hlabel⟩ | ⟨hposted, -⟩, -⟩ :=
      h.shown i (List.getElem?_eq_some_iff.mp hitem).1
    · obtain ⟨other, hother, htype, -⟩ := mem_cursesUpdateFormLabels.mp hlabel
      cases hitem.symm.trans hother
      rw [size_label htype] at hsize
      cases hsize
    · exact hposted
  · cases hnewPage

theorem LaysOut.exists_input (hpage : 1 ≤ page)
    (hlt : page < pageCount form y) : ∃ fieldItem ∈ form, fieldItem.isInput = true ∧
      InPage y (pageCount form y) page fieldItem := by
  have hcount := h.countP_le.trans
    (Nat.add_le_add_right ((List.takeWhile_sublist _).countP_le) 1)
  rw [detailsFields_eq form y x (pageCount_pos hy)] at hcount
  obtain ⟨n, hn⟩ : ∃ n, pageCount form y = n + 1 :=
    ⟨_, (Nat.sub_add_cancel (pageCount_pos hy)).symm⟩
  have hmarked : (block form y x (pageCount form y) page).countP Field.newPage = 1 := by
    rw [hn] at hcount hlt ⊢
    exact Paging.countP_eq_one continues_block_zero countP_block_le (Nat.le_of_succ_le_succ hcount)
      hpage hlt
  rcases opens_or_continues_block hpage with ⟨hne, -⟩ | ⟨-, hcontinues⟩
  · obtain ⟨field, hfield⟩ := List.exists_mem_of_ne_nil _ hne
    obtain ⟨i, fieldItem, hitem, hin, rows, cols, hsize, -⟩ := mem_inputs.mp hfield
    refine ⟨fieldItem, List.mem_of_getElem? hitem, ?_, hin⟩
    rw [← isSome_size fieldItem x, hsize]
    rfl
  · rw [hcontinues.countP_eq] at hmarked
    cases hmarked

theorem LaysOut.fits : Fits library form y x where
  start := by
    intro fieldItem hmem
    obtain ⟨i, hitem⟩ := List.mem_iff_getElem?.mp hmem
    obtain ⟨page, -, ⟨hstart, -⟩, -⟩ := h.accepted hy hitem
    have hpos := Int.mul_nonneg (show (0 : ℤ) ≤ page by omega) (show 0 ≤ y - 1 by omega)
    omega
  one := by
    intro hone fieldItem hmem
    obtain ⟨i, hitem⟩ := List.mem_iff_getElem?.mp hmem
    obtain ⟨page, hpage, -, haccepted⟩ := h.accepted hy hitem
    rw [pageCount_eq_one hy hone] at hpage
    cases Nat.lt_one_iff.mp hpage
    rwa [Nat.cast_zero, Int.zero_mul, Int.sub_zero] at haccepted
  next := fun hone ↦
    ⟨List.mem_takeWhile_imp (h.nextPage_mem hy hone),
      List.all_eq_true.mp (h.posted hy hone) _ (h.nextPage_mem hy hone)⟩
  several := by
    intro hone fieldItem hmem
    obtain ⟨i, hitem⟩ := List.mem_iff_getElem?.mp hmem
    obtain ⟨page, -, hin, haccepted, -⟩ := h.accepted hy hitem
    rwa [emod_of_inPage (one_lt_pageCount hy hone) hin]
  inputs := by
    intro hone page hpage hreach
    have hlt := (lt_pageCount_iff hy hone).mpr (le_maxy.mpr (.inr hreach))
    obtain ⟨fieldItem, hmem, hinput, hin⟩ := h.exists_input hy hpage hlt
    exact ⟨fieldItem, hmem, hinput, (inPage_iff (one_lt_pageCount hy hone)).mp hin⟩

end OfLaysOut

/-- A form is laid out exactly if it is one of these. -/
theorem laysOut_iff (library : FormLibrary) (form : List CursesField) (x : ℤ) (hy : 2 ≤ y) :
    LaysOut library form y x ↔ Fits library form y x :=
  ⟨fun h ↦ h.fits hy, fun h ↦ h.laysOut hy⟩

/-- A window of `y` rows and `x` columns. -/
def window (y x : ℤ) : FormLibrary where
  newField rows cols row col := decide (0 < rows ∧ 0 < cols ∧ 0 ≤ row ∧ 0 ≤ col)
  pos_of_newField h := (of_decide_eq_true h).1
  room rows cols row col := decide (row + rows ≤ y ∧ col + cols ≤ x)
  moves row col := decide (0 ≤ row ∧ row < y ∧ 0 ≤ col ∧ col < x)

/-- The form of a Lua script; a checkbox comes with two labels. -/
def luascriptForm : List CursesField :=
  [⟨1, 1, .label⟩, ⟨12, 1, .label⟩, ⟨13, 1, .checkbox⟩, ⟨14, 1, .label⟩, ⟨4, 3, .button 4⟩,
    ⟨9, 3, .button 6⟩]

theorem onOnePage_luascript : OnOnePage luascriptForm 4 := by
  simp [OnOnePage, luascriptForm, CursesField.lastRow, CursesField.height]

theorem fits_luascript : Fits (window 4 40) luascriptForm 4 40 where
  start := by simp [luascriptForm]
  one := by simp [luascriptForm, Accepted, CursesField.size, window]
  next := fun h ↦ absurd onOnePage_luascript h
  several := fun h ↦ absurd onOnePage_luascript h
  inputs := fun h ↦ absurd onOnePage_luascript h

theorem laysOut_luascript : LaysOut (window 4 40) luascriptForm 4 40 :=
  (laysOut_iff (window 4 40) luascriptForm 40 (by decide)).mpr fits_luascript

/-- In two rows, the form has a page without fields. -/
theorem not_laysOut : ¬ ∀ (library : FormLibrary) (form : List CursesField) (y x : ℤ), 2 ≤ y →
    LaysOut library form y x := fun h ↦
  absurd (h (window 2 40) luascriptForm 2 40 (by decide)).pages (by decide)

end Result

end Beirdobot.Curses.FormPages
