import Mathlib.Data.List.Nodup
import Mathlib.Data.Nat.Notation
import Mathlib.Data.Option.Basic
import Mathlib.Logic.Function.Basic

/-!
# Registries

Clients keep lists of their registrations, and for each of them there is to be an entry in a table
that all share.  Entries are taken out of the table by their keys, and several may have the same
one.  `Kept` says that the entries with a tag are the registrations of the clients that are
active; taking out an entry keeps it as long as the entry that is met is the one that is meant.
-/

universe u v w

namespace Beirdobot.Library

namespace Registry

/-- An entry: its key, and the registration that it refers to, if it refers to one. -/
structure Entry (κ : Type u) where
  key : κ
  tag : Option ℕ
  deriving DecidableEq

variable {κ : Type u}

section Search

variable [DecidableEq κ]

/-- The entry that a search for a key meets, with what stands before it and behind it: of the
entries that have the key it passes by so many, but not the last one. -/
def search (which : ℕ) (key : κ) : List (Entry κ) →
    Option (List (Entry κ) × Entry κ × List (Entry κ))
  | [] => none
  | e :: es =>
      if e.key = key then
        if which = 0 ∨ es.all (fun e ↦ e.key ≠ key) then some ([], e, es)
        else
          (search (which - 1) key es).map fun (before, found, after) ↦ (e :: before, found, after)
      else (search which key es).map fun (before, found, after) ↦ (e :: before, found, after)

/-- The table without the entry that is met. -/
def remove (which : ℕ) (key : κ) (table : List (Entry κ)) : List (Entry κ) :=
  match search which key table with
  | none => table
  | some (before, _, after) => before ++ after

variable {which : ℕ} {key : κ} {table before after : List (Entry κ)} {found : Entry κ}

theorem search_some (h : search which key table = some (before, found, after)) :
    table = before ++ found :: after ∧ found.key = key ∧
      (which = 0 → ∀ e ∈ before, e.key ≠ key) := by
  induction table generalizing which before with
  | nil => cases h
  | cons e es ih =>
      rw [search] at h
      split at h
      · rename_i hkey
        split at h
        · cases h
          exact ⟨rfl, hkey, fun _ _ he ↦ by cases he⟩
        · rename_i hwhich
          obtain ⟨⟨before, found, after⟩, h, heq⟩ := Option.map_eq_some_iff.mp h
          cases heq
          obtain ⟨rfl, hfound, -⟩ := ih h
          exact ⟨rfl, hfound, fun hzero ↦ absurd (.inl hzero) hwhich⟩
      · rename_i hkey
        obtain ⟨⟨before, found, after⟩, h, heq⟩ := Option.map_eq_some_iff.mp h
        cases heq
        obtain ⟨rfl, hfound, hbefore⟩ := ih h
        refine ⟨rfl, hfound, fun hzero e' he' ↦ ?_⟩
        rcases List.mem_cons.mp he' with rfl | he'
        · exact hkey
        · exact hbefore hzero e' he'

/-- An entry with the key is met, if there is one. -/
theorem search_isSome (h : ∃ e ∈ table, e.key = key) : (search which key table).isSome := by
  induction table generalizing which with
  | nil =>
      obtain ⟨e, he, -⟩ := h
      cases he
  | cons e es ih =>
      rw [search]
      split
      · split
        · rfl
        · rename_i hwhich
          rw [Option.isSome_map]
          apply ih
          obtain ⟨e', he', hkey⟩ : ∃ e' ∈ es, e'.key = key := by
            simpa using fun h ↦ hwhich (.inr h)
          exact ⟨e', he', hkey⟩
      · rename_i hkey
        rw [Option.isSome_map]
        obtain ⟨e', he', hkey'⟩ := h
        rcases List.mem_cons.mp he' with rfl | he'
        · exact absurd hkey' hkey
        · exact ih ⟨e', he', hkey'⟩

theorem remove_of_search (h : search which key table = some (before, found, after)) :
    remove which key table = before ++ after := by
  rw [remove, h]

end Search

/-- What the registrations of a kind have as keys, and what tells them apart. -/
structure Scheme (ρ : Type v) (κ : Type u) where
  key : ρ → κ
  id : ρ → ℕ

namespace Scheme

variable {ρ : Type v} {σ : Type w} (S : Scheme ρ κ)

/-- The entry of a registration. -/
def entry (r : ρ) : Entry κ := ⟨S.key r, some (S.id r)⟩

/-- The entry refers to a registration of the list. -/
def own (regs : List ρ) (e : Entry κ) : Bool := regs.any fun r ↦ e.tag = some (S.id r)

/-- The list without a registration. -/
def drop (regs : List ρ) (i : ℕ) : List ρ := regs.filter fun r ↦ S.id r ≠ i

/-- Each registration of the list has its entry, in this order. -/
def Registered (table : List (Entry κ)) (regs : List ρ) : Prop :=
  table.filter (S.own regs) = regs.map S.entry

/-- The entries with a tag are the registrations of the clients that are active. -/
structure Kept (active : σ → Prop) (next : ℕ) (table : List (Entry κ)) (regs : σ → List ρ) :
    Prop where
  registered : ∀ s, S.Registered table (regs s)
  refers : ∀ e ∈ table, ∀ i, e.tag = some i → ∃ s, active s ∧ ∃ r ∈ regs s, S.id r = i
  idle : ∀ s, ¬ active s → regs s = []
  nodup : ∀ s, ((regs s).map S.id).Nodup
  disjoint : ∀ s s', ∀ r ∈ regs s, ∀ r' ∈ regs s', S.id r = S.id r' → s = s'
  lt_next : ∀ s, ∀ r ∈ regs s, S.id r < next

variable {S} {active : σ → Prop} {next : ℕ} {table before after : List (Entry κ)} {regs : List ρ}
  {clients : σ → List ρ} {e : Entry κ} {r : ρ} {i : ℕ} {s : σ}

theorem own_iff : S.own regs e = true ↔ ∃ r ∈ regs, e.tag = some (S.id r) := by
  simp only [own, List.any_eq_true, decide_eq_true_eq]

theorem mem_drop : r ∈ S.drop regs i ↔ r ∈ regs ∧ S.id r ≠ i := by
  simp only [drop, List.mem_filter, decide_eq_true_eq]

/-- A list without all of its registrations is empty. -/
theorem foldl_drop : regs.foldl (fun rest r ↦ S.drop rest (S.id r)) regs = [] := by
  have hmem (regs rest : List ρ) (r : ρ)
      (hr : r ∈ regs.foldl (fun rest r ↦ S.drop rest (S.id r)) rest) : r ∈ rest ∧ r ∉ regs := by
    induction regs generalizing rest with
    | nil => exact ⟨hr, List.not_mem_nil⟩
    | cons r' regs ih =>
        obtain ⟨hrest, hregs⟩ := ih (S.drop rest (S.id r')) hr
        obtain ⟨hrest, hid⟩ := mem_drop.mp hrest
        refine ⟨hrest, fun hmem ↦ ?_⟩
        rcases List.mem_cons.mp hmem with rfl | hmem
        · exact hid rfl
        · exact hregs hmem
  rw [List.eq_nil_iff_forall_not_mem]
  intro r hr
  obtain ⟨hr, hnot⟩ := hmem regs regs r hr
  exact hnot hr

theorem own_drop : S.own (S.drop regs i) e = (S.own regs e && decide (e.tag ≠ some i)) := by
  rw [Bool.eq_iff_iff]
  simp only [own_iff, mem_drop, Bool.and_eq_true, decide_eq_true_eq]
  constructor
  · rintro ⟨r, ⟨hr, hi⟩, he⟩
    refine ⟨⟨r, hr, he⟩, fun h ↦ hi ?_⟩
    rw [he] at h
    exact Option.some.inj h
  · rintro ⟨⟨r, hr, he⟩, hi⟩
    refine ⟨r, ⟨hr, fun h ↦ hi ?_⟩, he⟩
    rw [he, h]

namespace Registered

theorem mem (h : S.Registered table regs) (hr : r ∈ regs) : S.entry r ∈ table := by
  have hmem : S.entry r ∈ table.filter (S.own regs) := by
    rw [h]
    exact List.mem_map_of_mem hr
  exact (List.mem_filter.mp hmem).1

theorem of_mem (h : S.Registered table regs) (he : e ∈ table) (hown : S.own regs e = true) :
    ∃ r ∈ regs, e = S.entry r := by
  have hmem : e ∈ regs.map S.entry := by
    rw [← h]
    exact List.mem_filter.mpr ⟨he, hown⟩
  obtain ⟨r, hr, rfl⟩ := List.mem_map.mp hmem
  exact ⟨r, hr, rfl⟩

/-- Without an entry the table fits the list without its registration. -/
theorem remove (h : S.Registered (before ++ e :: after) regs) (he : e.tag = some i) :
    S.Registered (before ++ after) (S.drop regs i) := by
  have hown : S.own (S.drop regs i) e = false := by
    rw [own_drop, he]
    simp
  have htable : (before ++ e :: after).filter (S.own (S.drop regs i)) =
      (before ++ after).filter (S.own (S.drop regs i)) := by
    simp [List.filter_append, hown]
  have hsplit : S.own (S.drop regs i) = fun e ↦ decide (e.tag ≠ some i) && S.own regs e := by
    funext e
    rw [own_drop, Bool.and_comm]
  rw [Registered, ← htable, hsplit, ← List.filter_filter, h, drop, List.filter_map]
  congr 1
  apply List.filter_congr
  intro r _
  simp [entry]

/-- An entry with another tag, or without one, makes no difference. -/
theorem remove_other (h : S.Registered (before ++ e :: after) regs) (he : S.own regs e = false) :
    S.Registered (before ++ after) regs := by
  rw [Registered, ← h]
  simp [List.filter_append, he]

theorem add_other (h : S.Registered table regs) (he : S.own regs e = false) :
    S.Registered (table ++ [e]) regs := by
  rw [Registered, ← h]
  simp [List.filter_append, he]

theorem add (h : S.Registered table regs) (hnew : ∀ e ∈ table, e.tag ≠ some (S.id r)) :
    S.Registered (table ++ [S.entry r]) (regs ++ [r]) := by
  have hold : table.filter (S.own (regs ++ [r])) = table.filter (S.own regs) := by
    apply List.filter_congr
    intro e he
    have hne := hnew e he
    rw [Bool.eq_iff_iff]
    simp only [own_iff, List.mem_append, List.mem_singleton]
    constructor
    · rintro ⟨r', hr' | rfl, htag⟩
      · exact ⟨r', hr', htag⟩
      · exact absurd htag hne
    · rintro ⟨r', hr', htag⟩
      exact ⟨r', .inl hr', htag⟩
  have hown : S.own (regs ++ [r]) (S.entry r) = true :=
    own_iff.mpr ⟨r, List.mem_append_right _ (.head _), rfl⟩
  rw [Registered, List.filter_append, hold, h, List.map_append]
  simp [hown]

/-- No two entries refer to one registration. -/
theorem ne_of_mem (h : S.Registered (before ++ S.entry r :: after) regs)
    (hnodup : (regs.map S.id).Nodup) (hr : r ∈ regs) (he : e ∈ before ++ after) :
    e.tag ≠ some (S.id r) := by
  intro htag
  have hown (e : Entry κ) (h : e.tag = some (S.id r)) : S.own regs e = true :=
    own_iff.mpr ⟨r, hr, h⟩
  have htags : ((before ++ S.entry r :: after).filter (S.own regs)).map Entry.tag =
      (regs.map S.id).map some := by
    rw [h, List.map_map, List.map_map]
    rfl
  rw [List.filter_append, List.filter_cons_of_pos (hown _ rfl), List.map_append, List.map_cons]
    at htags
  have hnodup' := hnodup.map (Option.some_injective _)
  rw [← htags, List.nodup_middle, List.nodup_cons, ← List.map_append, ← List.filter_append]
    at hnodup'
  apply hnodup'.1
  rw [show (S.entry r).tag = e.tag from htag.symm]
  exact List.mem_map_of_mem (List.mem_filter.mpr ⟨he, hown e htag⟩)

end Registered

namespace Kept

theorem mono {active' : σ → Prop} {next' : ℕ} (h : S.Kept active next table clients)
    (hactive : ∀ s, active s → active' s) (hnext : next ≤ next') :
    S.Kept active' next' table clients where
  registered := h.registered
  refers e he i hi := by
    obtain ⟨s, hs, hr⟩ := h.refers e he i hi
    exact ⟨s, hactive s hs, hr⟩
  idle s hs := h.idle s fun hs' ↦ hs (hactive s hs')
  nodup := h.nodup
  disjoint := h.disjoint
  lt_next s r hr := Nat.lt_of_lt_of_le (h.lt_next s r hr) hnext

/-- No registrations, and no entry that refers to one. -/
theorem empty (h : ∀ e ∈ table, e.tag = none) : S.Kept active next table fun _ : σ ↦ [] where
  registered s := by
    rw [Registered, List.map_nil, List.filter_eq_nil_iff]
    intro e _ hown
    obtain ⟨r, hr, -⟩ := own_iff.mp hown
    cases hr
  refers e he i hi := by
    rw [h e he] at hi
    cases hi
  idle _ _ := rfl
  nodup _ := List.nodup_nil
  disjoint _ _ _ hr := by cases hr
  lt_next _ _ hr := by cases hr

theorem tag_lt (h : S.Kept active next table clients) (he : e ∈ table) (hi : e.tag = some i) :
    i < next := by
  obtain ⟨s, -, r, hr, rfl⟩ := h.refers e he i hi
  exact h.lt_next s r hr

/-- A client without registrations may become inactive. -/
theorem close {active' : σ → Prop} (h : S.Kept active next table clients) (hs : clients s = [])
    (hactive : ∀ s', s' ≠ s → active s' → active' s') : S.Kept active' next table clients where
  registered := h.registered
  refers e he i hi := by
    obtain ⟨s', hs', r, hr, hid⟩ := h.refers e he i hi
    refine ⟨s', hactive s' ?_ hs', r, hr, hid⟩
    rintro rfl
    rw [hs] at hr
    cases hr
  idle s' hs' := by
    by_cases heq : s' = s
    · rwa [heq]
    · exact h.idle s' fun ha ↦ hs' (hactive s' heq ha)
  nodup := h.nodup
  disjoint := h.disjoint
  lt_next := h.lt_next

variable [DecidableEq σ]

theorem add (h : S.Kept active next table clients) (hs : active s) (hr : S.id r = next) :
    S.Kept active (next + 1) (table ++ [S.entry r])
      (Function.update clients s (clients s ++ [r])) := by
  have hcases (s' : σ) (r' : ρ) (hr' : r' ∈ Function.update clients s (clients s ++ [r]) s') :
      r' ∈ clients s' ∨ s' = s ∧ r' = r := by
    by_cases hs' : s' = s
    · subst hs'
      rw [Function.update_self, List.mem_append, List.mem_singleton] at hr'
      exact hr'.imp_right fun hr' ↦ ⟨rfl, hr'⟩
    · rw [Function.update_of_ne hs'] at hr'
      exact .inl hr'
  have hmem (s' : σ) (r' : ρ) (hr' : r' ∈ clients s') :
      r' ∈ Function.update clients s (clients s ++ [r]) s' := by
    by_cases hs' : s' = s
    · subst hs'
      rw [Function.update_self]
      exact List.mem_append_left _ hr'
    · rwa [Function.update_of_ne hs']
  refine ⟨fun s' ↦ ?_, fun e he i hi ↦ ?_, fun s' hs' ↦ ?_, fun s' ↦ ?_,
    fun s₁ s₂ r₁ hr₁ r₂ hr₂ hid ↦ ?_, fun s' r' hr' ↦ ?_⟩
  · by_cases hs' : s' = s
    · subst hs'
      rw [Function.update_self]
      apply (h.registered s').add
      intro e he htag
      exact absurd (h.tag_lt he htag) (by omega)
    · rw [Function.update_of_ne hs']
      apply (h.registered s').add_other
      rw [Bool.eq_false_iff, Ne, own_iff]
      rintro ⟨r', hr', htag⟩
      have hlt := h.lt_next s' r' hr'
      have heq : S.id r = S.id r' := Option.some.inj htag
      omega
  · rcases List.mem_append.mp he with he | he
    · obtain ⟨s', hs', r', hr', rfl⟩ := h.refers e he i hi
      exact ⟨s', hs', r', hmem s' r' hr', rfl⟩
    · rw [List.mem_singleton] at he
      subst he
      refine ⟨s, hs, r, ?_, Option.some.inj hi⟩
      rw [Function.update_self]
      exact List.mem_append_right _ (.head _)
  · have hne : s' ≠ s := fun heq ↦ hs' (heq ▸ hs)
    rw [Function.update_of_ne hne]
    exact h.idle s' hs'
  · by_cases hs' : s' = s
    · subst hs'
      rw [Function.update_self, List.map_append, List.map_singleton, List.nodup_append]
      refine ⟨h.nodup s', List.nodup_singleton _, ?_⟩
      intro i hi j hj hij
      obtain ⟨r', hr', rfl⟩ := List.mem_map.mp hi
      have hlt := h.lt_next s' r' hr'
      rw [List.mem_singleton] at hj
      omega
    · rw [Function.update_of_ne hs']
      exact h.nodup s'
  · rcases hcases s₁ r₁ hr₁ with h₁ | ⟨rfl, rfl⟩
    · rcases hcases s₂ r₂ hr₂ with h₂ | ⟨rfl, rfl⟩
      · exact h.disjoint s₁ s₂ r₁ h₁ r₂ h₂ hid
      · have hlt := h.lt_next s₁ r₁ h₁
        omega
    · rcases hcases s₂ r₂ hr₂ with h₂ | ⟨rfl, rfl⟩
      · have hlt := h.lt_next s₂ r₂ h₂
        omega
      · rfl
  · rcases hcases s' r' hr' with h' | ⟨rfl, rfl⟩
    · have hlt := h.lt_next s' r' h'
      omega
    · omega

/-- A client takes back a registration, and its own entry is taken out. -/
theorem remove (h : S.Kept active next (before ++ e :: after) clients) (hr : r ∈ clients s)
    (he : e.tag = some (S.id r)) :
    S.Kept active next (before ++ after)
      (Function.update clients s (S.drop (clients s) (S.id r))) := by
  have hentry : e = S.entry r := by
    obtain ⟨r', hr', rfl⟩ := (h.registered s).of_mem (List.mem_append_right _ (.head _))
      (own_iff.mpr ⟨r, hr, he⟩)
    have hid : S.id r' = S.id r := Option.some.inj he
    rw [List.inj_on_of_nodup_map (h.nodup s) hr' hr hid]
  have hmem (s' : σ) (r' : ρ) (hr' : r' ∈ Function.update clients s
      (S.drop (clients s) (S.id r)) s') : r' ∈ clients s' := by
    by_cases hs' : s' = s
    · subst hs'
      rw [Function.update_self] at hr'
      exact (mem_drop.mp hr').1
    · rwa [Function.update_of_ne hs'] at hr'
  refine ⟨fun s' ↦ ?_, fun e' he' i hi ↦ ?_, fun s' hs' ↦ ?_, fun s' ↦ ?_,
    fun s₁ s₂ r₁ hr₁ r₂ hr₂ hid ↦ ?_, fun s' r' hr' ↦ ?_⟩
  · by_cases hs' : s' = s
    · subst hs'
      rw [Function.update_self]
      exact (h.registered s').remove he
    · rw [Function.update_of_ne hs']
      apply (h.registered s').remove_other
      rw [Bool.eq_false_iff, Ne, own_iff]
      rintro ⟨r', hr', htag⟩
      rw [he] at htag
      exact hs' (h.disjoint s' s r' hr' r hr (Option.some.inj htag).symm)
  · have hold : e' ∈ before ++ e :: after := by
      rcases List.mem_append.mp he' with he' | he'
      · exact List.mem_append_left _ he'
      · exact List.mem_append_right _ (.tail _ he')
    obtain ⟨s', hs', r', hr', rfl⟩ := h.refers e' hold i hi
    refine ⟨s', hs', r', ?_, rfl⟩
    by_cases heq : s' = s
    · subst heq
      rw [Function.update_self, mem_drop]
      refine ⟨hr', fun hid ↦ ?_⟩
      have hregistered := h.registered s'
      rw [hentry] at hregistered
      exact hregistered.ne_of_mem (h.nodup s') hr he' (by rw [hi, hid])
    · rwa [Function.update_of_ne heq]
  · by_cases heq : s' = s
    · subst heq
      rw [h.idle s' hs'] at hr
      cases hr
    · rw [Function.update_of_ne heq]
      exact h.idle s' hs'
  · by_cases heq : s' = s
    · subst heq
      rw [Function.update_self]
      exact (h.nodup s').sublist (List.filter_sublist.map S.id)
    · rw [Function.update_of_ne heq]
      exact h.nodup s'
  · exact h.disjoint s₁ s₂ r₁ (hmem s₁ r₁ hr₁) r₂ (hmem s₂ r₂ hr₂) hid
  · exact h.lt_next s' r' (hmem s' r' hr')

/-- A client takes back all its registrations. -/
theorem removeAll {active' : σ → Prop} {table' : List (Entry κ)}
    (h : S.Kept active next table clients) (hactive : ∀ s', s' ≠ s → active s' → active' s')
    (hown : table'.filter (S.own (clients s)) = [])
    (hothers : table'.filter (fun e ↦ !S.own (clients s) e) =
      table.filter (fun e ↦ !S.own (clients s) e)) :
    S.Kept active' next table' (Function.update clients s []) := by
  have hmem (s' : σ) (r' : ρ) (hr' : r' ∈ Function.update clients s [] s') :
      s' ≠ s ∧ r' ∈ clients s' := by
    by_cases heq : s' = s
    · subst heq
      rw [Function.update_self] at hr'
      cases hr'
    · rw [Function.update_of_ne heq] at hr'
      exact ⟨heq, hr'⟩
  refine ⟨fun s' ↦ ?_, fun e he i hi ↦ ?_, fun s' hs' ↦ ?_, fun s' ↦ ?_,
    fun s₁ s₂ r₁ hr₁ r₂ hr₂ hid ↦ ?_, fun s' r' hr' ↦ h.lt_next s' r' (hmem s' r' hr').2⟩
  · by_cases heq : s' = s
    · subst heq
      rw [Function.update_self, Registered, List.map_nil, List.filter_eq_nil_iff]
      intro e _ he
      obtain ⟨r', hr', -⟩ := own_iff.mp he
      cases hr'
    · -- An entry of another client is none of this one.
      have hsplit : S.own (clients s') =
          fun e ↦ S.own (clients s') e && !S.own (clients s) e := by
        funext e
        rw [Bool.eq_iff_iff, Bool.and_eq_true, Bool.not_eq_true', Bool.eq_false_iff, Ne, own_iff,
          own_iff]
        refine ⟨fun he ↦ ⟨he, ?_⟩, And.left⟩
        obtain ⟨r', hr', he⟩ := he
        rintro ⟨r, hr, he'⟩
        rw [he] at he'
        exact heq (h.disjoint s' s r' hr' r hr (Option.some.inj he'))
      have hregistered := h.registered s'
      rw [Function.update_of_ne heq]
      rw [Registered, hsplit, ← List.filter_filter] at hregistered ⊢
      rw [hothers, hregistered]
  · have hnot : S.own (clients s) e = false := by
      rw [List.filter_eq_nil_iff] at hown
      exact Bool.eq_false_iff.mpr (hown e he)
    have hold : e ∈ table := by
      have hfilter : e ∈ table'.filter fun e ↦ !S.own (clients s) e :=
        List.mem_filter.mpr ⟨he, by rw [hnot]; rfl⟩
      rw [hothers] at hfilter
      exact (List.mem_filter.mp hfilter).1
    obtain ⟨s', hs', r', hr', rfl⟩ := h.refers e hold i hi
    have heq : s' ≠ s := by
      rintro rfl
      rw [own_iff.mpr ⟨r', hr', hi⟩] at hnot
      cases hnot
    refine ⟨s', hactive s' heq hs', r', ?_, rfl⟩
    rwa [Function.update_of_ne heq]
  · by_cases heq : s' = s
    · subst heq
      rw [Function.update_self]
    · rw [Function.update_of_ne heq]
      exact h.idle s' fun ha ↦ hs' (hactive s' heq ha)
  · by_cases heq : s' = s
    · subst heq
      rw [Function.update_self]
      exact List.nodup_nil
    · rw [Function.update_of_ne heq]
      exact h.nodup s'
  · exact h.disjoint s₁ s₂ r₁ (hmem s₁ r₁ hr₁).2 r₂ (hmem s₂ r₂ hr₂).2 hid

end Kept

/-! ## Taking back all registrations of a client -/

section TrashAll

variable [DecidableEq κ] {which : ρ → ℕ} {mine : List ρ} {Q : List (Entry κ) → Prop} {k : κ}

/-- A search for the key of each registration, one after the other, and the entry that it meets is
taken out. -/
def trashAll (S : Scheme ρ κ) (which : ρ → ℕ) (regs : List ρ) (table : List (Entry κ)) :
    List (Entry κ) :=
  regs.foldl (fun table r ↦ Registry.remove (which r) (S.key r) table) table

/-- No entry of others with the same key stands before an own one. -/
def Foremost (S : Scheme ρ κ) (mine : List ρ) (table : List (Entry κ)) : Prop :=
  table.Pairwise fun e' e ↦ S.own mine e = true → e'.key = e.key → S.own mine e' = true

/-- No entry of others has the key of an own one. -/
def Alone (S : Scheme ρ κ) (mine : List ρ) (table : List (Entry κ)) : Prop :=
  ∀ e ∈ table, ∀ e' ∈ table, S.own mine e = true → e'.key = e.key → S.own mine e' = true

/-- What is asked of the tables in between: what is met is an own entry, if there is one. -/
def Meets (S : Scheme ρ κ) (which : ρ → ℕ) (mine : List ρ) (Q : List (Entry κ) → Prop) : Prop :=
  ∀ table r before found after, Q table →
    (∃ e ∈ table, S.own mine e = true ∧ e.key = S.key r) →
    search (which r) (S.key r) table = some (before, found, after) →
    S.own mine found = true ∧ Q (before ++ after)

theorem sublist_of_search (h : search (which r) k table = some (before, e, after)) :
    (before ++ after).Sublist table := by
  rw [(search_some h).1]
  exact (List.Sublist.refl _).append (List.sublist_cons_self _ _)

/-- The first one that is met is an own one. -/
theorem meets_foremost (hwhich : ∀ r, which r = 0) : S.Meets which mine (S.Foremost mine) := by
  intro table r before found after hQ hexists hsearch
  refine ⟨?_, List.Pairwise.sublist (sublist_of_search hsearch) hQ⟩
  obtain ⟨rfl, hkey, hbefore⟩ := search_some hsearch
  obtain ⟨e, he, hown, hkey'⟩ := hexists
  rcases List.mem_append.mp he with he | he
  · exact absurd hkey' (hbefore (hwhich r) e he)
  · rcases List.mem_cons.mp he with rfl | he
    · exact hown
    · have hpairwise := (List.pairwise_append.mp hQ).2.1
      exact (List.pairwise_cons.mp hpairwise).1 e he hown (hkey.trans hkey'.symm)

theorem meets_alone (which : ρ → ℕ) : S.Meets which mine (S.Alone mine) := by
  intro table r before found after hQ hexists hsearch
  have hsub := sublist_of_search hsearch
  refine ⟨?_, fun e he e' he' ↦ hQ e (hsub.subset he) e' (hsub.subset he')⟩
  obtain ⟨rfl, hkey, -⟩ := search_some hsearch
  obtain ⟨e, he, hown, hkey'⟩ := hexists
  exact hQ e he found (List.mem_append_right _ (.head _)) hown (hkey.trans hkey'.symm)

/-- If what is met is always an own entry, the own entries are all that is taken out.  For each
key there are as many of them as registrations that are left. -/
theorem trashAll_own (hmeets : S.Meets which mine Q) (hQ : Q table)
    (hcount : ∀ k, table.countP (fun e ↦ S.own mine e && decide (e.key = k)) =
      regs.countP fun r ↦ decide (S.key r = k)) :
    (S.trashAll which regs table).filter (S.own mine) = [] ∧
      (S.trashAll which regs table).filter (fun e ↦ !S.own mine e) =
        table.filter fun e ↦ !S.own mine e := by
  induction regs generalizing table with
  | nil =>
      refine ⟨?_, rfl⟩
      rw [List.filter_eq_nil_iff]
      intro e he hown
      have hzero := hcount e.key
      rw [List.countP_nil, List.countP_eq_zero] at hzero
      exact hzero e he (by simp [hown])
  | cons r regs ih =>
      obtain ⟨e, he, hown⟩ : ∃ e ∈ table, (S.own mine e && decide (e.key = S.key r)) = true := by
        rw [← List.countP_pos_iff, hcount, List.countP_cons_of_pos (by simp)]
        exact Nat.succ_pos _
      rw [Bool.and_eq_true, decide_eq_true_eq] at hown
      have hsome : (search (which r) (S.key r) table).isSome := search_isSome ⟨e, he, hown.2⟩
      obtain ⟨⟨before, found, after⟩, hsearch⟩ := Option.isSome_iff_exists.mp hsome
      obtain ⟨hfound, hQ'⟩ := hmeets table r before found after hQ ⟨e, he, hown⟩ hsearch
      obtain ⟨rfl, hkey, -⟩ := search_some hsearch
      have hrest := ih hQ' fun k ↦ by
        have hk := hcount k
        rw [List.countP_append, List.countP_cons, List.countP_cons, hfound, hkey] at hk
        rw [List.countP_append]
        simp only [Bool.true_and] at hk
        omega
      have hothers : (before ++ after).filter (fun e ↦ !S.own mine e) =
          (before ++ found :: after).filter fun e ↦ !S.own mine e := by
        simp [List.filter_append, hfound]
      rw [trashAll, List.foldl_cons, remove_of_search hsearch, ← hothers]
      exact hrest

/-- To begin with there are as many, if each registration has its entry. -/
theorem Registered.countP (h : S.Registered table regs) (k : κ) :
    table.countP (fun e ↦ S.own regs e && decide (e.key = k)) =
      regs.countP fun r ↦ decide (S.key r = k) := by
  have hfilter : table.countP (fun e ↦ S.own regs e && decide (e.key = k)) =
      (table.filter (S.own regs)).countP fun e ↦ decide (e.key = k) := by
    rw [List.countP_filter]
    congr 1
    funext e
    rw [Bool.and_comm]
  rw [hfilter, h, List.countP_map]
  rfl

end TrashAll

end Scheme

end Registry

end Beirdobot.Library
