import Mathlib.Data.Set.Basic
import Mathlib.Logic.Function.Basic
import Mathlib.Logic.Relation

/-!
# Wait-for graphs

`waits a = some b` says that `a` cannot go on before `b` does.  A knot is a
nonempty set whose members all wait for a member: nobody in it will ever go on.
What can bring a knot about is one new edge, and only if the old ones lead back
from its end to its start.
-/

universe u

namespace Beirdobot.Library

variable {κ : Type u} {waits waits' : κ → Option κ} {a b c q : κ}

/-- The edges of a wait-for graph. -/
def Waits (waits : κ → Option κ) (a b : κ) : Prop := waits a = some b

/-- `a` waits for `b`, directly or through others, or is `b`. -/
def LeadsTo (waits : κ → Option κ) : κ → κ → Prop := Relation.ReflTransGen (Waits waits)

/-- A nonempty set in which everybody waits for somebody of the set. -/
def Knot (waits : κ → Option κ) (S : Set κ) : Prop :=
  S.Nonempty ∧ ∀ a ∈ S, ∃ b ∈ S, waits a = some b

/-- Nobody waits in a circle. -/
def KnotFree (waits : κ → Option κ) : Prop := ∀ S, ¬ Knot waits S

theorem knotFree_of_idle (h : ∀ a, waits a = none) : KnotFree waits := by
  rintro S ⟨⟨a, ha⟩, hS⟩
  obtain ⟨b, -, hb⟩ := hS a ha
  rw [h a] at hb
  cases hb

/-- Fewer edges make no knot. -/
theorem KnotFree.mono (h : KnotFree waits) (hle : ∀ a b, waits' a = some b → waits a = some b) :
    KnotFree waits' := by
  rintro S ⟨hne, hS⟩
  refine h S ⟨hne, fun a ha ↦ ?_⟩
  obtain ⟨b, hb, hab⟩ := hS a ha
  exact ⟨b, hb, hle a b hab⟩

variable [DecidableEq κ]

theorem KnotFree.release (h : KnotFree waits) (c : κ) :
    KnotFree (Function.update waits c none) := by
  refine h.mono fun a b hab ↦ ?_
  by_cases ha : a = c
  · subst ha
    rw [Function.update_self] at hab
    cases hab
  · rwa [Function.update_of_ne ha] at hab

/-- A new edge to where nothing leads back from makes no knot. -/
theorem KnotFree.update (h : KnotFree waits) (hq : ¬ LeadsTo waits q c) :
    KnotFree (Function.update waits c (some q)) := by
  rintro S ⟨hne, hS⟩
  -- the members that do not lead to `c` are a knot without the new edge
  have hkeep : ∀ a ∈ S, ¬ LeadsTo waits a c → ∃ b ∈ S, ¬ LeadsTo waits b c ∧ waits a = some b := by
    intro a ha hac
    have hne : a ≠ c := by
      rintro rfl
      exact hac .refl
    obtain ⟨b, hb, hab⟩ := hS a ha
    rw [Function.update_of_ne hne] at hab
    exact ⟨b, hb, fun hbc ↦ hac (.head hab hbc), hab⟩
  have hsome : ∃ a ∈ S, ¬ LeadsTo waits a c := by
    by_cases hc : c ∈ S
    · obtain ⟨b, hb, hcb⟩ := hS c hc
      rw [Function.update_self, Option.some.injEq] at hcb
      exact ⟨b, hb, hcb ▸ hq⟩
    · -- without `c` the new edge is not used at all
      exfalso
      refine h S ⟨hne, fun a ha ↦ ?_⟩
      have hac : a ≠ c := by
        rintro rfl
        exact hc ha
      obtain ⟨b, hb, hab⟩ := hS a ha
      rw [Function.update_of_ne hac] at hab
      exact ⟨b, hb, hab⟩
  obtain ⟨a, ha, hac⟩ := hsome
  refine h { a | a ∈ S ∧ ¬ LeadsTo waits a c } ⟨⟨a, ha, hac⟩, ?_⟩
  rintro a ⟨ha, hac⟩
  obtain ⟨b, hb, hbc, hab⟩ := hkeep a ha hac
  exact ⟨b, ⟨hb, hbc⟩, hab⟩

/-- A new edge to where the old ones lead back from makes a knot. -/
theorem knot_update (hq : LeadsTo waits q c) :
    ∃ S, Knot (Function.update waits c (some q)) S := by
  refine ⟨{ a | LeadsTo waits a c }, ⟨c, .refl⟩, ?_⟩
  intro a ha
  by_cases hac : a = c
  · subst hac
    exact ⟨q, hq, Function.update_self ..⟩
  · obtain rfl | ⟨b, hab, hb⟩ := Relation.ReflTransGen.cases_head ha
    · exact absurd rfl hac
    · exact ⟨b, hb, by rw [Function.update_of_ne hac]; exact hab⟩

end Beirdobot.Library
