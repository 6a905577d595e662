import Mathlib.Data.List.Induction
import Mathlib.Data.List.Nodup
import Mathlib.Logic.Function.Basic

/-!
# Sequences linked through next and previous pointers

`Seg h p q l` says that the pointers of the addresses of `l` run through `l` in
both directions, with `p` before its first address and `q` after its last.
Writing the outer pointers of a segment moves it as a whole, and `seg_append`
cuts a segment where an address is linked in or out.
-/

universe u

namespace Beirdobot.Library

variable {ι : Type u}

/-- The pointers of every address; `none` is the null pointer. -/
structure SeqLinks (ι : Type u) where
  next : ι → Option ι
  prev : ι → Option ι

namespace SeqLinks

variable [DecidableEq ι]

/-- Write the next pointer of `x`. -/
def setNext (h : SeqLinks ι) (x : ι) (p : Option ι) : SeqLinks ι :=
  { h with next := Function.update h.next x p }

/-- Write the previous pointer of `x`. -/
def setPrev (h : SeqLinks ι) (x : ι) (p : Option ι) : SeqLinks ι :=
  { h with prev := Function.update h.prev x p }

/-- Write the next pointer of the address `o` points to, if it points to one. -/
def linkNext (h : SeqLinks ι) (o p : Option ι) : SeqLinks ι :=
  match o with
  | none => h
  | some x => h.setNext x p

/-- Write the previous pointer of the address `o` points to, if it points to one. -/
def linkPrev (h : SeqLinks ι) (o p : Option ι) : SeqLinks ι :=
  match o with
  | none => h
  | some x => h.setPrev x p

@[simp] theorem setNext_next (h : SeqLinks ι) (x y : ι) (p : Option ι) :
    (h.setNext x p).next y = if y = x then p else h.next y := Function.update_apply ..
@[simp] theorem setNext_prev (h : SeqLinks ι) (x : ι) (p : Option ι) :
    (h.setNext x p).prev = h.prev := rfl
@[simp] theorem setPrev_prev (h : SeqLinks ι) (x y : ι) (p : Option ι) :
    (h.setPrev x p).prev y = if y = x then p else h.prev y := Function.update_apply ..
@[simp] theorem setPrev_next (h : SeqLinks ι) (x : ι) (p : Option ι) :
    (h.setPrev x p).next = h.next := rfl

@[simp] theorem linkNext_next (h : SeqLinks ι) (o p : Option ι) (y : ι) :
    (h.linkNext o p).next y = if some y = o then p else h.next y := by
  cases o with
  | none => rfl
  | some x => simp [linkNext]

@[simp] theorem linkNext_prev (h : SeqLinks ι) (o p : Option ι) :
    (h.linkNext o p).prev = h.prev := by cases o <;> rfl

@[simp] theorem linkPrev_prev (h : SeqLinks ι) (o p : Option ι) (y : ι) :
    (h.linkPrev o p).prev y = if some y = o then p else h.prev y := by
  cases o with
  | none => rfl
  | some x => simp [linkPrev]

@[simp] theorem linkPrev_next (h : SeqLinks ι) (o p : Option ι) :
    (h.linkPrev o p).next = h.next := by cases o <;> rfl

end SeqLinks

/-! ## Segments -/

/-- The pointers of the addresses of the list follow its order, from `p` to `q`. -/
def Seg (h : SeqLinks ι) : Option ι → Option ι → List ι → Prop
  | _, _, [] => True
  | p, q, x :: l => h.prev x = p ∧ h.next x = l.head?.or q ∧ Seg h (some x) q l

/-- A segment only depends on the pointers of its own addresses. -/
theorem Seg.congr {h h' : SeqLinks ι} {p q : Option ι} {l : List ι} (hl : Seg h p q l)
    (ha : ∀ x ∈ l, h'.next x = h.next x ∧ h'.prev x = h.prev x) : Seg h' p q l := by
  induction l generalizing p with
  | nil => trivial
  | cons x l ih =>
      obtain ⟨hp, hn, hl⟩ := hl
      obtain ⟨an, ap⟩ := ha x (by simp)
      exact ⟨ap.trans hp, an.trans hn, ih hl fun y hy ↦ ha y (by simp [hy])⟩

/-- A segment can be cut anywhere. -/
theorem seg_append {h : SeqLinks ι} {p q : Option ι} {a b : List ι} :
    Seg h p q (a ++ b) ↔ Seg h p (b.head?.or q) a ∧ Seg h (a.getLast?.or p) q b := by
  induction a generalizing p with
  | nil => simp [Seg]
  | cons x a ih =>
      have hlast : (x :: a).getLast?.or p = a.getLast?.or (some x) := by
        rw [List.getLast?_cons]
        cases a.getLast? <;> rfl
      simp only [List.cons_append, Seg, ih, hlast, List.head?_append, Option.or_assoc, and_assoc]

/-! ## Walks -/

/-- The addresses met by following a pointer until it is null, for at most `fuel` of
them. -/
def follow (next : ι → Option ι) : ℕ → Option ι → List ι
  | _, none => []
  | 0, some _ => []
  | fuel + 1, some x => x :: follow next fuel (next x)

@[simp] theorem follow_none (next : ι → Option ι) (fuel : ℕ) : follow next fuel none = [] := by
  cases fuel <;> rfl

/-- Following the next pointers of a segment that ends with null reads it off. -/
theorem Seg.follow_next {h : SeqLinks ι} {p : Option ι} {l : List ι} (hl : Seg h p none l)
    {fuel : ℕ} (hf : l.length ≤ fuel) : follow h.next fuel l.head? = l := by
  induction l generalizing p fuel with
  | nil => rw [List.head?_nil, follow_none]
  | cons x l ih =>
      obtain ⟨-, hn, hl⟩ := hl
      cases fuel with
      | zero => simp at hf
      | succ fuel =>
          rw [Option.or_none] at hn
          rw [List.head?_cons, follow, hn, ih hl (Nat.le_of_succ_le_succ hf)]

/-- Following the previous pointers of a segment that begins with null reads it off
from its end. -/
theorem Seg.follow_prev {h : SeqLinks ι} {q : Option ι} {l : List ι} (hl : Seg h none q l)
    {fuel : ℕ} (hf : l.length ≤ fuel) : follow h.prev fuel l.getLast? = l.reverse := by
  induction l using List.reverseRecOn generalizing q fuel with
  | nil => rw [List.getLast?_nil, follow_none, List.reverse_nil]
  | append_singleton l x ih =>
      obtain ⟨hl, hx, -⟩ := seg_append.mp hl
      cases fuel with
      | zero => simp at hf
      | succ fuel =>
          rw [Option.or_none] at hx
          rw [List.getLast?_append, List.getLast?_singleton, Option.some_or, follow, hx,
            ih hl (by simpa using hf), List.reverse_append]
          rfl

section Links

variable [DecidableEq ι]

/-- Writing the next pointer of its last address moves the end of a segment. -/
theorem Seg.linkNext {h : SeqLinks ι} {p q : Option ι} {a : List ι} (ha : Seg h p q a)
    (hn : a.Nodup) (q' : Option ι) : Seg (h.linkNext a.getLast? q') p q' a := by
  rcases List.eq_nil_or_concat a with rfl | ⟨b, y, rfl⟩
  · trivial
  · rw [List.concat_eq_append] at ha hn ⊢
    obtain ⟨hb, hy⟩ := seg_append.mp ha
    rw [List.getLast?_append, List.getLast?_singleton, Option.some_or]
    refine seg_append.mpr ⟨hb.congr fun z hz ↦ ?_, by simpa using hy.1, by simp, trivial⟩
    have hzy : z ≠ y := by
      rintro rfl
      exact (List.nodup_append.mp hn).2.2 z hz z (by simp) rfl
    simp [hzy]

/-- Writing the previous pointer of its first address moves the start of a segment. -/
theorem Seg.linkPrev {h : SeqLinks ι} {p q : Option ι} {b : List ι} (hb : Seg h p q b)
    (hn : b.Nodup) (p' : Option ι) : Seg (h.linkPrev b.head? p') p' q b := by
  cases b with
  | nil => trivial
  | cons y b =>
      obtain ⟨-, hnext, hb⟩ := hb
      refine ⟨by simp, by simpa using hnext, hb.congr fun z hz ↦ ?_⟩
      have hzy : z ≠ y := by
        rintro rfl
        exact (List.nodup_cons.mp hn).1 hz
      simp [hzy]

/-- Linking the neighbours of an address to each other takes it out. -/
theorem Seg.unlink {h : SeqLinks ι} {a b : List ι} {x : ι} (hs : Seg h none none (a ++ x :: b))
    (hn : (a ++ x :: b).Nodup) :
    h.prev x = a.getLast? ∧ h.next x = b.head? ∧
      Seg ((h.linkNext a.getLast? b.head?).linkPrev b.head? a.getLast?) none none (a ++ b) := by
  obtain ⟨ha, hp, hx, hb⟩ := seg_append.mp hs
  rw [Option.or_none] at hp hx
  obtain ⟨hna, hnxb, hd⟩ := List.nodup_append.mp hn
  have hnb := (List.nodup_cons.mp hnxb).2
  refine ⟨hp, hx, seg_append.mpr ⟨?_, ?_⟩⟩
  · rw [Option.or_none]
    refine (ha.linkNext hna b.head?).congr fun z hz ↦ ?_
    have hzb : some z ≠ b.head? := by
      intro e
      exact hd z hz z (List.mem_cons_of_mem _ (List.mem_of_mem_head? e.symm)) rfl
    simp [hzb]
  · rw [Option.or_none]
    refine Seg.linkPrev (h := h.linkNext a.getLast? b.head?) (p := some x) ?_ hnb _
    refine hb.congr fun z hz ↦ ?_
    have hza : some z ≠ a.getLast? := by
      intro e
      exact hd z (List.mem_of_mem_getLast? e.symm) z (List.mem_cons_of_mem _ hz) rfl
    simp [hza]

end Links

end Beirdobot.Library
