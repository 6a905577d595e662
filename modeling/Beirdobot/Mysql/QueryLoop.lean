import Beirdobot.Library.System
import Beirdobot.Mysql.Substitution

/-!
# The loop of `db_query`

The loop as a system of turns: which argument each question mark takes, and how much
text the buffer gets.  `buflen` is what the code compares with, not what is left.
-/

namespace Beirdobot.Mysql

open Library

/-- The variables of the loop. -/
structure Loop where
  query : CString
  args : Option (List MysqlBind)
  count : ℕ
  buflen : ℕ
  sqlbuf : CString

/-- What a turn comes to; it may follow a wrong pointer. -/
inductive Turn where
  | wild
  | stop (outcome : Outcome) (sqlbuf : CString)
  | next (s : Loop)

/-- The end of a turn that wrote an argument, or passed it over. -/
def Turn.ofAppended (s : Loop) (arg : MysqlBind) (rest : List MysqlBind) :
    Option Appended → Turn
  | none => .wild
  | some .overflow => .stop .overflow s.sqlbuf
  | some .skipped => .next { s with args := some (arg :: rest) }
  | some (.done buflen sqlbuf) => .next { s with args := some rest, buflen, sqlbuf }

/-- One turn of the loop. -/
def turn (argCount : ℕ) (s : Loop) : Turn :=
  match strchr '?' s.query, s.args with
  | none, _ =>
      let sqlbuf := strncat s.sqlbuf s.query s.buflen
      .stop (.query sqlbuf) sqlbuf
  | some _, none => .next { s with sqlbuf := strncat s.sqlbuf s.query s.buflen }
  | some (before, query), some args =>
      let count := s.count + 1
      if s.buflen < before.length then .stop .overflow s.sqlbuf
      else
        let sqlbuf := strncat s.sqlbuf before before.length
        if argCount < count then .stop (.query sqlbuf) sqlbuf
        else
          match args with
          | [] => .wild
          | arg :: rest =>
              .ofAppended { s with query, count, sqlbuf } arg rest (appendArg arg s.buflen sqlbuf)

/-- The turns from a state on. -/
def loop (argCount : ℕ) (s₀ : Loop) : System Loop Unit where
  init s := s = s₀
  step s _ :=
    match turn argCount s with
    | .next s' => some s'
    | _ => none

/-- Where `db_query` begins. -/
def start (query : CString) (args : Option (List MysqlBind)) : Loop :=
  ⟨query, args, 0, maxStringLength - 1, []⟩

section Turns

variable {argCount : ℕ} {s s' : Loop}

theorem loop_step {s₀ : Loop} {e : Unit} :
    (loop argCount s₀).step s e = some s' ↔ turn argCount s = .next s' := by
  simp only [loop]
  split
  · rename_i x hx
    rw [hx, Option.some.injEq, Turn.next.injEq]
  · rename_i hx
    constructor
    · intro h
      cases h
    · intro h
      exact absurd h (hx s')

/-- The first state, and what is reached after the first turn. -/
theorem reachable_iff : (loop argCount s).Reachable s' ↔
    s' = s ∨ ∃ s₁, turn argCount s = .next s₁ ∧ (loop argCount s₁).Reachable s' := by
  constructor
  · intro h
    induction h with
    | init h => exact .inl h
    | step hx _ he ih =>
        have hturn := loop_step.mp he
        rcases ih with rfl | ⟨s₁, h₁, hr⟩
        · exact .inr ⟨_, hturn, .init rfl⟩
        · exact .inr ⟨s₁, h₁, hr.step (e := ()) (loop_step.mpr hturn)⟩
  · rintro (rfl | ⟨s₁, h₁, h⟩)
    · exact .init rfl
    · induction h with
      | init h =>
          subst h
          exact (System.Reachable.init rfl).step (e := ()) (loop_step.mpr h₁)
      | step _ _ he ih => exact System.Reachable.step ih (e := ()) he

/-- Before every turn, and when the loop stops. -/
def Always (argCount : ℕ) (Q : Loop → Prop) (s : Loop) : Prop :=
  ∀ x, (loop argCount s).Reachable x → Q x

theorem always_of_next {Q : Loop → Prop} {s₁ : Loop} (h : turn argCount s = .next s₁) :
    Always argCount Q s ↔ Q s ∧ Always argCount Q s₁ := by
  constructor
  · intro hs
    exact ⟨hs s (.init rfl), fun x hx ↦ hs x (reachable_iff.mpr (.inr ⟨s₁, h, hx⟩))⟩
  · rintro ⟨hs, hrest⟩ x hx
    rcases reachable_iff.mp hx with rfl | ⟨s₂, h₂, hx⟩
    · exact hs
    · rw [h, Turn.next.injEq] at h₂
      exact hrest x (h₂ ▸ hx)

theorem always_of_end {Q : Loop → Prop} (h : ∀ s₁, turn argCount s ≠ .next s₁) :
    Always argCount Q s ↔ Q s := by
  constructor
  · intro hs
    exact hs s (.init rfl)
  · intro hs x hx
    rcases reachable_iff.mp hx with rfl | ⟨s₂, h₂, -⟩
    · exact hs
    · exact absurd h₂ (h s₂)

/-- The loop of `db_query` takes one turn after the other. -/
theorem dbQueryLoop_succ (argCount fuel : ℕ) (s : Loop) :
    dbQueryLoop argCount (fuel + 1) s.query s.args s.count s.buflen s.sqlbuf =
      match turn argCount s with
      | .wild => none
      | .stop outcome _ => some outcome
      | .next s => dbQueryLoop argCount fuel s.query s.args s.count s.buflen s.sqlbuf := by
  obtain ⟨query, args, count, buflen, sqlbuf⟩ := s
  unfold turn
  dsimp only
  conv_lhs => unfold dbQueryLoop
  rcases strchr '?' query with _ | ⟨before, rest⟩
  · rfl
  · rcases args with _ | args
    · rfl
    · simp only
      by_cases hbefore : buflen < before.length
      · simp only [if_pos hbefore]
      · by_cases hcount : argCount < count + 1
        · simp only [if_neg hbefore, if_pos hcount]
        · simp only [if_neg hbefore, if_neg hcount]
          rcases args with _ | ⟨arg, args⟩
          · rfl
          · dsimp only
            rcases appendArg arg buflen (strncat sqlbuf before before.length) with _ | a
            · rfl
            · cases a <;> rfl

/-- What `db_query` comes to is where the turns stop. -/
theorem dbQueryLoop_eq_some {outcome : Outcome} :
    (∃ fuel, dbQueryLoop argCount fuel s.query s.args s.count s.buflen s.sqlbuf = some outcome) ↔
      ∃ s' sqlbuf, (loop argCount s).Reachable s' ∧ turn argCount s' = .stop outcome sqlbuf := by
  constructor
  · rintro ⟨fuel, h⟩
    induction fuel generalizing s with
    | zero => cases h
    | succ fuel ih =>
        rw [dbQueryLoop_succ] at h
        cases hturn : turn argCount s with
        | wild => simp [hturn] at h
        | stop o sqlbuf =>
            simp only [hturn, Option.some.injEq] at h
            exact ⟨s, sqlbuf, .init rfl, h ▸ hturn⟩
        | next s₁ =>
            simp only [hturn] at h
            obtain ⟨s', sqlbuf, hs', hstop⟩ := ih h
            exact ⟨s', sqlbuf, reachable_iff.mpr (.inr ⟨s₁, hturn, hs'⟩), hstop⟩
  · rintro ⟨s', sqlbuf, hs', hstop⟩
    -- from the last turn backwards
    suffices hback : ∀ s₁, (loop argCount s).Reachable s₁ →
        (∃ fuel, dbQueryLoop argCount fuel s₁.query s₁.args s₁.count s₁.buflen s₁.sqlbuf =
          some outcome) →
        ∃ fuel, dbQueryLoop argCount fuel s.query s.args s.count s.buflen s.sqlbuf =
          some outcome from hback s' hs' ⟨1, by rw [dbQueryLoop_succ, hstop]⟩
    intro s₁ hs₁
    induction hs₁ with
    | init h =>
        subst h
        exact id
    | step _ _ he ih =>
        rintro ⟨fuel, hfuel⟩
        exact ih ⟨fuel + 1, by rw [dbQueryLoop_succ, loop_step.mp he]; exact hfuel⟩

end Turns

/-! ## What an argument does -/

/-- The types of the `switch`; of a null the type does not matter. -/
def MysqlBind.Supported (arg : MysqlBind) : Prop := arg.isNull = true ∨ arg.bufferType ≠ .other

instance (arg : MysqlBind) : Decidable arg.Supported :=
  inferInstanceAs (Decidable (arg.isNull = true ∨ arg.bufferType ≠ .other))

/-- How much `buflen` goes down for an argument. -/
def Value.cost : Value → ℕ
  | .null => 4
  | _ => 0

/-- An argument of a type that is not supported is passed over, one with a value is
written if it fits, and any other has a wrong pointer. -/
theorem appendArg_cases (arg : MysqlBind) :
    (¬ arg.Supported ∧ argValue arg = none ∧ ∀ b buf, appendArg arg b buf = some .skipped) ∨
    (arg.Supported ∧ argValue arg = none ∧ ∀ b buf, appendArg arg b buf = none) ∨
    ∃ v, arg.Supported ∧ argValue arg = some v ∧ ∀ b buf, appendArg arg b buf =
      if b < v.literal.length then some .overflow
      else some (.done (b - v.cost) (buf ++ v.literal)) := by
  by_cases hnull : arg.isNull = true
  · refine .inr (.inr ⟨.null, .inl hnull, by rw [argValue, if_pos hnull], fun b buf ↦ ?_⟩)
    rw [appendArg, if_pos hnull]
    rfl
  · have hnull' : arg.isNull = false := by simpa using hnull
    cases hv : argValue arg with
    | some v =>
        obtain ⟨piece, hpiece, hlen, happend⟩ := argPiece_eq hv hnull'
        have htype : arg.bufferType ≠ .other := by
          intro ho
          simp [argPiece, ho] at hpiece
        refine .inr (.inr ⟨v, .inr htype, rfl, fun b buf ↦ ?_⟩)
        have hcost : v.cost = 0 := by
          cases v with
          | null =>
              rw [argValue, if_neg hnull] at hv
              split at hv <;> cases hv
          | integer | text => rfl
        rw [appendArg, if_neg hnull, hpiece]
        simp [hlen, happend, hcost]
    | none =>
        have hpiece : argPiece arg = if arg.bufferType = .other then some none else none := by
          rw [argValue, if_neg hnull] at hv
          rcases arg with ⟨type, buffer, isNull⟩
          cases type <;> cases buffer <;> simp_all [argPiece]
        by_cases htype : arg.bufferType = .other
        · refine .inl ⟨fun h ↦ h.elim hnull fun h ↦ h htype, rfl, fun b buf ↦ ?_⟩
          rw [appendArg, if_neg hnull, hpiece, if_pos htype]
          rfl
        · refine .inr (.inl ⟨.inr htype, rfl, fun b buf ↦ ?_⟩)
          rw [appendArg, if_neg hnull, hpiece, if_neg htype]
          rfl

/-! ## The pieces of a pattern -/

/-- The texts before the question marks. -/
def gaps : CString → List CString
  | [] => []
  | c :: s =>
      if c = '?' then [] :: gaps s
      else
        match gaps s with
        | [] => []
        | g :: gs => (c :: g) :: gs

theorem gaps_of_none {query : CString} (h : strchr '?' query = none) : gaps query = [] := by
  induction query with
  | nil => rfl
  | cons c query ih =>
      rw [strchr] at h
      split at h
      · cases h
      · rename_i hc
        rw [gaps, if_neg hc, ih (Option.map_eq_none_iff.mp h)]

theorem gaps_of_some {query before rest : CString} (h : strchr '?' query = some (before, rest)) :
    gaps query = before :: gaps rest := by
  induction query generalizing before with
  | nil => cases h
  | cons c query ih =>
      rw [strchr] at h
      split at h
      · rename_i hc
        cases h
        rw [gaps, if_pos hc]
      · rename_i hc
        obtain ⟨⟨before', rest'⟩, h', he⟩ := Option.map_eq_some_iff.mp h
        cases he
        rw [gaps, if_neg hc, ih h']

theorem length_of_some {query before rest : CString}
    (h : strchr '?' query = some (before, rest)) : rest.length < query.length := by
  obtain ⟨rfl, -⟩ := strchr_eq_some h
  simp only [List.length_append, List.length_cons]
  omega

/-! ## The turns one by one -/

section Turns

variable {argCount : ℕ} {s s' : Loop} {before rest : CString}

theorem turn_of_none (h : strchr '?' s.query = none) :
    turn argCount s = .stop (.query (s.sqlbuf ++ s.query.take s.buflen))
      (s.sqlbuf ++ s.query.take s.buflen) := by
  simp only [turn, h, strncat]

theorem turn_of_null (h : strchr '?' s.query = some (before, rest)) (ha : s.args = none) :
    turn argCount s = .next { s with sqlbuf := s.sqlbuf ++ s.query.take s.buflen } := by
  simp only [turn, h, ha, strncat]

section Marks

variable {args : List MysqlBind} {arg : MysqlBind} (h : strchr '?' s.query = some (before, rest))

include h

theorem turn_of_gap (ha : s.args = some args) (hb : s.buflen < before.length) :
    turn argCount s = .stop .overflow s.sqlbuf := by
  simp only [turn, h, ha, if_pos hb]

theorem turn_of_count (ha : s.args = some args) (hb : before.length ≤ s.buflen)
    (hc : argCount ≤ s.count) :
    turn argCount s = .stop (.query (s.sqlbuf ++ before)) (s.sqlbuf ++ before) := by
  simp only [turn, h, ha, if_neg (Nat.not_lt.mpr hb), if_pos (Nat.lt_succ_of_le hc), strncat,
    List.take_length]

theorem turn_of_nil (ha : s.args = some []) (hb : before.length ≤ s.buflen)
    (hc : s.count < argCount) : turn argCount s = .wild := by
  simp only [turn, h, ha, if_neg (Nat.not_lt.mpr hb), if_neg (Nat.not_lt.mpr (Nat.succ_le_of_lt hc))]

theorem turn_of_cons (ha : s.args = some (arg :: args)) (hb : before.length ≤ s.buflen)
    (hc : s.count < argCount) :
    turn argCount s =
      .ofAppended { s with query := rest, count := s.count + 1, sqlbuf := s.sqlbuf ++ before } arg
        args (appendArg arg s.buflen (s.sqlbuf ++ before)) := by
  simp only [turn, h, ha, if_neg (Nat.not_lt.mpr hb), if_neg (Nat.not_lt.mpr (Nat.succ_le_of_lt hc)),
    strncat, List.take_length]

/-- What the turn does with the argument of its question mark. -/
theorem turn_cons_cases (ha : s.args = some (arg :: args)) (hb : before.length ≤ s.buflen)
    (hc : s.count < argCount) :
    (¬ arg.Supported ∧ argValue arg = none ∧ turn argCount s =
        .next ⟨rest, some (arg :: args), s.count + 1, s.buflen, s.sqlbuf ++ before⟩) ∨
    (arg.Supported ∧ argValue arg = none ∧ turn argCount s = .wild) ∨
    ∃ v, arg.Supported ∧ argValue arg = some v ∧
      (s.buflen < v.literal.length ∧ turn argCount s = .stop .overflow (s.sqlbuf ++ before) ∨
        v.literal.length ≤ s.buflen ∧ turn argCount s = .next ⟨rest, some args, s.count + 1,
          s.buflen - v.cost, s.sqlbuf ++ before ++ v.literal⟩) := by
  rw [turn_of_cons h ha hb hc]
  obtain ⟨hs, hv, he⟩ | ⟨hs, hv, he⟩ | ⟨v, hs, hv, he⟩ := appendArg_cases arg
  · rw [he]
    exact .inl ⟨hs, hv, rfl⟩
  · rw [he]
    exact .inr (.inl ⟨hs, hv, rfl⟩)
  · rw [he]
    refine .inr (.inr ⟨v, hs, hv, ?_⟩)
    rcases Nat.lt_or_ge s.buflen v.literal.length with hv | hv
    · rw [if_pos hv]
      exact .inl ⟨hv, rfl⟩
    · rw [if_neg (Nat.not_lt.mpr hv)]
      exact .inr ⟨hv, rfl⟩

end Marks

/-- With arguments, what is left of the pattern gets shorter. -/
theorem turn_shrinks (ha : s.args ≠ none) (h : turn argCount s = .next s') :
    s'.query.length < s.query.length ∧ s'.args ≠ none := by
  cases hq : strchr '?' s.query with
  | none =>
      rw [turn_of_none hq] at h
      cases h
  | some p =>
      obtain ⟨before, rest⟩ := p
      obtain ⟨args, hargs⟩ := Option.ne_none_iff_exists'.mp ha
      have hlength := length_of_some hq
      rcases Nat.lt_or_ge s.buflen before.length with hb | hb
      · rw [turn_of_gap hq hargs hb] at h
        cases h
      rcases Nat.lt_or_ge s.count argCount with hc | hc
      · rcases args with _ | ⟨arg, args⟩
        · rw [turn_of_nil hq hargs hb hc] at h
          cases h
        · obtain ⟨-, -, he⟩ | ⟨-, -, he⟩ | ⟨v, -, -, ⟨-, he⟩ | ⟨-, he⟩⟩ :=
            turn_cons_cases hq hargs hb hc <;> rw [he] at h <;> cases h
          · exact ⟨hlength, Option.some_ne_none _⟩
          · exact ⟨hlength, Option.some_ne_none _⟩
      · rw [turn_of_count hq hargs hb hc] at h
        cases h

end Turns

/-- The loop ends, unless there is a question mark but no array of arguments. -/
theorem terminates_iff (argCount : ℕ) (query : CString) (args : Option (List MysqlBind)) :
    (loop argCount (start query args)).Terminates (fun _ _ ↦ True) (start query args) ↔
      (args = none → strchr '?' query = none) := by
  constructor
  · intro hacc hnull
    by_contra hq
    -- the pattern and the missing array stay
    suffices hforever : ∀ s : Loop, s.query = query → s.args = none →
        ¬ (loop argCount (start query args)).Terminates (fun _ _ ↦ True) s from
      hforever (start query args) rfl hnull hacc
    intro s hquery hargs hs
    induction hs with
    | intro s _ ih =>
        obtain ⟨p, hp⟩ := Option.ne_none_iff_exists'.mp hq
        rw [← hquery] at hp
        exact ih _ ⟨(), trivial, loop_step.mpr (turn_of_null hp hargs)⟩ hquery hargs
  · intro h
    refine System.terminates_of_rank
      (I := fun s r ↦ s.query.length = r ∧ (s.args = none → strchr '?' s.query = none)) ?_
      ⟨rfl, h⟩
    rintro s r e s' ⟨rfl, hs⟩ - he
    rw [loop_step] at he
    have hargs : s.args ≠ none := by
      intro hnull
      rw [turn_of_none (hs hnull)] at he
      cases he
    obtain ⟨hlength, hargs'⟩ := turn_shrinks hargs he
    exact ⟨_, hlength, rfl, fun hnull ↦ absurd hnull hargs'⟩

/-! ## Question marks and arguments -/

/-- A turn that goes on fills the question mark it takes from the argument with its
number. -/
def Fills (argCount : ℕ) (args : Option (List MysqlBind)) (s : Loop) : Prop :=
  ∀ s', turn argCount s = .next s' →
    ∃ l before rest arg value, args = some l ∧ strchr '?' s.query = some (before, rest) ∧
      l[s.count]? = some arg ∧ argValue arg = some value ∧ s'.query = rest ∧
      s'.count = s.count + 1 ∧ s'.sqlbuf = s.sqlbuf ++ before ++ value.literal

/-- Every argument that the text before its question mark leaves room for, after those
before it left room for it, is of a supported type. -/
def Served : ℕ → List CString → List MysqlBind → Prop
  | buflen, gap :: gaps, arg :: args => gap.length ≤ buflen → arg.Supported ∧
      ∀ value, argValue arg = some value → value.literal.length ≤ buflen →
        Served (buflen - value.cost) gaps args
  | _, _, _ => True

theorem fills_of_end {argCount : ℕ} {args : Option (List MysqlBind)} {s : Loop}
    (h : ∀ s₁, turn argCount s ≠ .next s₁) : Fills argCount args s :=
  fun s' hs' ↦ absurd hs' (h s')

theorem always_fills_iff {argCount : ℕ} {l : List MysqlBind} {s : Loop}
    (hargs : s.args = some (l.drop s.count)) :
    Always argCount (Fills argCount (some l)) s ↔
      Served s.buflen (gaps s.query) ((l.drop s.count).take (argCount - s.count)) := by
  have hend : (∀ s₁, turn argCount s ≠ .next s₁) →
      Always argCount (Fills argCount (some l)) s := fun h ↦ (always_of_end h).mpr (fills_of_end h)
  induction hn : s.query.length using Nat.strongRecOn generalizing s with
  | ind n ih =>
  cases hq : strchr '?' s.query with
  | none =>
      rw [gaps_of_none hq]
      exact ⟨fun _ ↦ trivial, fun _ ↦ hend fun s₁ ↦ by simp [turn_of_none hq]⟩
  | some p =>
      obtain ⟨before, rest⟩ := p
      rw [gaps_of_some hq]
      rcases Nat.lt_or_ge s.count argCount with hc | hc
      swap
      · -- no argument is left
        rw [Nat.sub_eq_zero_of_le hc, List.take_zero]
        refine ⟨fun _ ↦ trivial, fun _ ↦ hend fun s₁ ↦ ?_⟩
        rcases Nat.lt_or_ge s.buflen before.length with hb | hb
        · simp [turn_of_gap hq hargs hb]
        · simp [turn_of_count hq hargs hb hc]
      obtain ⟨k, hk⟩ : ∃ k, argCount - s.count = k + 1 := ⟨argCount - s.count - 1, by omega⟩
      rcases hl : l.drop s.count with _ | ⟨arg, args⟩
      · rw [List.take_nil]
        refine ⟨fun _ ↦ trivial, fun _ ↦ hend fun s₁ ↦ ?_⟩
        rw [hl] at hargs
        rcases Nat.lt_or_ge s.buflen before.length with hb | hb
        · simp [turn_of_gap hq hargs hb]
        · simp [turn_of_nil hq hargs hb hc]
      rw [hl] at hargs
      have hget : l[s.count]? = some arg := by
        rw [← List.head?_drop, hl, List.head?_cons]
      have hdrop : l.drop (s.count + 1) = args := by
        rw [← List.tail_drop, hl, List.tail_cons]
      rw [hk, List.take_succ_cons, Served]
      rcases Nat.lt_or_ge s.buflen before.length with hb | hb
      · exact ⟨fun _ hb' ↦ absurd hb' (Nat.not_le.mpr hb),
          fun _ ↦ hend fun s₁ ↦ by simp [turn_of_gap hq hargs hb]⟩
      obtain ⟨hs, hv, he⟩ | ⟨hs, hv, he⟩ | ⟨v, hs, hv, ⟨hfit, he⟩ | ⟨hfit, he⟩⟩ :=
        turn_cons_cases hq hargs hb hc
      · -- an argument that is passed over
        refine ⟨fun h ↦ ?_, fun h ↦ absurd (h hb).1 hs⟩
        obtain ⟨_, _, _, arg', value, hl', -, hget', hvalue, -⟩ := h s (.init rfl) _ he
        cases hl'
        rw [hget, Option.some.injEq] at hget'
        rw [← hget', hv] at hvalue
        cases hvalue
      · refine ⟨fun _ _ ↦ ⟨hs, fun value hvalue ↦ ?_⟩, fun _ ↦ hend fun s₁ ↦ by simp [he]⟩
        rw [hv] at hvalue
        cases hvalue
      · refine ⟨fun _ _ ↦ ⟨hs, fun value hvalue hfit' ↦ ?_⟩, fun _ ↦ hend fun s₁ ↦ by simp [he]⟩
        rw [hv, Option.some.injEq] at hvalue
        subst hvalue
        exact absurd hfit' (Nat.not_le.mpr hfit)
      · -- an argument that is written
        have hfills : Fills argCount (some l) s := by
          intro s' hs'
          rw [he, Turn.next.injEq] at hs'
          subst hs'
          exact ⟨l, before, rest, arg, v, rfl, hq, hget, hv, rfl, rfl, rfl⟩
        rw [always_of_next he]
        have hrest := ih rest.length (hn ▸ length_of_some hq)
          (s := ⟨rest, some args, s.count + 1, s.buflen - v.cost, s.sqlbuf ++ before ++ v.literal⟩)
          (by rw [hdrop]) (fun h ↦ (always_of_end h).mpr (fills_of_end h)) rfl
        have hsub : argCount - (s.count + 1) = k := by omega
        rw [hdrop, hsub] at hrest
        constructor
        · rintro ⟨-, h⟩ -
          refine ⟨hs, fun value hvalue _ ↦ ?_⟩
          rw [hv, Option.some.injEq] at hvalue
          subst hvalue
          exact hrest.mp h
        · intro h
          exact ⟨hfills, hrest.mpr ((h hb).2 v hv hfit)⟩

/-- The buffer has at most `buflen - 1` characters, also when the loop stops, and a text
that is sent does not break off before the end of the full one. -/
def Whole (argCount : ℕ) (full : CString) (s : Loop) : Prop :=
  s.sqlbuf.length ≤ maxStringLength - 1 ∧
    ∀ outcome sqlbuf, turn argCount s = .stop outcome sqlbuf →
      sqlbuf.length ≤ maxStringLength - 1 ∧
        ∀ text, outcome = .query text → text <+: full → text = full

/-- The rest of the text fits, or a piece of it is longer than `buflen`, which only nulls
make smaller, while the text before it fits; `written` has the length of what is in the
buffer, `query` is what follows the last question mark. -/
def Fits (query : CString) : ℕ → ℕ → List CString → List Value → Prop
  | _, written, [], _ => written + query.length ≤ maxStringLength - 1
  | buflen, _, gap :: _, [] => buflen < gap.length
  | buflen, written, gap :: gaps, value :: values =>
      buflen < gap.length ∨ written + gap.length ≤ maxStringLength - 1 ∧
        (buflen < value.literal.length ∨
          written + gap.length + value.literal.length ≤ maxStringLength - 1 ∧
          Fits query (buflen - value.cost) (written + gap.length + value.literal.length) gaps values)

instance Fits.decidable (query : CString) : ∀ (buflen written : ℕ) (gaps : List CString)
    (values : List Value), Decidable (Fits query buflen written gaps values)
  | _, written, [], _ => inferInstanceAs (Decidable (written + query.length ≤ maxStringLength - 1))
  | buflen, _, gap :: _, [] => inferInstanceAs (Decidable (buflen < gap.length))
  | buflen, written, gap :: gaps, value :: values =>
      have := Fits.decidable query (buflen - value.cost)
        (written + gap.length + value.literal.length) gaps values
      inferInstanceAs (Decidable (buflen < gap.length ∨
        written + gap.length ≤ maxStringLength - 1 ∧ (buflen < value.literal.length ∨
          written + gap.length + value.literal.length ≤ maxStringLength - 1 ∧
          Fits query (buflen - value.cost) (written + gap.length + value.literal.length) gaps
            values)))

/-- What follows the last question mark. -/
def afterMarks : CString → CString
  | [] => []
  | c :: s => if '?' ∈ s then afterMarks s else if c = '?' then s else c :: s

theorem afterMarks_of_none {query : CString} (h : strchr '?' query = none) :
    afterMarks query = query := by
  have hq := strchr_eq_none h
  cases query with
  | nil => rfl
  | cons c query =>
      rw [List.mem_cons, not_or] at hq
      rw [afterMarks, if_neg hq.2, if_neg (Ne.symm hq.1)]

theorem afterMarks_of_some {query before rest : CString}
    (h : strchr '?' query = some (before, rest)) : afterMarks query = afterMarks rest := by
  obtain ⟨rfl, hbefore⟩ := strchr_eq_some h
  clear h
  induction before with
  | nil =>
      rw [List.nil_append, afterMarks]
      by_cases hr : '?' ∈ rest
      · rw [if_pos hr]
      · rw [if_neg hr, if_pos rfl]
        cases rest with
        | nil => rfl
        | cons c rest =>
            rw [List.mem_cons, not_or] at hr
            rw [afterMarks, if_neg hr.2, if_neg (Ne.symm hr.1)]
  | cons c before ih =>
      rw [List.mem_cons, not_or] at hbefore
      rw [List.cons_append, afterMarks, if_pos (by simp), ih hbefore.2]

theorem fill_of_none {query : CString} (h : strchr '?' query = none) (ts : List CString) :
    fill query ts = query := by
  have hfill := fill_of_notMem (strchr_eq_none h) [] ts
  rwa [List.append_nil, show fill [] ts = [] by cases ts <;> rfl, List.append_nil] at hfill

theorem Value.cost_le (v : Value) : v.cost ≤ v.literal.length := by
  cases v with
  | null => exact Nat.le_refl 4
  | integer | text => exact Nat.zero_le _

/-- A state before a turn that goes on. -/
theorem whole_of_next {argCount : ℕ} {full : CString} {s s₁ : Loop}
    (h : turn argCount s = .next s₁) :
    Whole argCount full s ↔ s.sqlbuf.length ≤ maxStringLength - 1 := by
  refine ⟨And.left, fun hs ↦ ⟨hs, fun outcome sqlbuf hstop ↦ ?_⟩⟩
  rw [h] at hstop
  cases hstop

/-- A state whose turn gives up. -/
theorem whole_of_overflow {argCount : ℕ} {full sqlbuf : CString} {s : Loop}
    (h : turn argCount s = .stop .overflow sqlbuf) :
    Whole argCount full s ↔
      s.sqlbuf.length ≤ maxStringLength - 1 ∧ sqlbuf.length ≤ maxStringLength - 1 := by
  refine and_congr_right fun _ ↦ ⟨fun hs ↦ (hs _ _ h).1, fun hs outcome sqlbuf' hstop ↦ ?_⟩
  rw [h] at hstop
  cases hstop
  exact ⟨hs, fun text ho ↦ by cases ho⟩

/-- A state whose turn sends the text. -/
theorem whole_of_query {argCount : ℕ} {full sqlbuf : CString} {s : Loop}
    (h : turn argCount s = .stop (.query sqlbuf) sqlbuf) (hpre : sqlbuf <+: full) :
    Whole argCount full s ↔
      s.sqlbuf.length ≤ maxStringLength - 1 ∧ sqlbuf.length ≤ maxStringLength - 1 ∧
        sqlbuf = full := by
  refine and_congr_right fun _ ↦ ⟨fun hs ↦ ?_, fun hs outcome sqlbuf' hstop ↦ ?_⟩
  · obtain ⟨hlength, hwhole⟩ := hs _ _ h
    exact ⟨hlength, hwhole sqlbuf rfl hpre⟩
  · rw [h] at hstop
    cases hstop
    refine ⟨hs.1, fun text ho _ ↦ ?_⟩
    cases ho
    exact hs.2

theorem always_whole_iff {argCount : ℕ} {full : CString} {values : List Value} {s : Loop}
    {args : List MysqlBind} (hargs : s.args = some args)
    (hvalues : (args.take (argCount - s.count)).map argValue = values.map some)
    (hlength : argCount - s.count ≤ args.length)
    (hfull : full = s.sqlbuf ++ fill s.query (values.map Value.literal))
    (hroom : maxStringLength - 1 ≤ s.buflen + s.sqlbuf.length)
    (hbuf : s.sqlbuf.length ≤ maxStringLength - 1) :
    Always argCount (Whole argCount full) s ↔
      Fits (afterMarks s.query) s.buflen s.sqlbuf.length (gaps s.query) values := by
  induction hn : s.query.length using Nat.strongRecOn generalizing s values args with
  | ind n ih =>
  cases hq : strchr '?' s.query with
  | none =>
      have hturn : turn argCount s = _ := turn_of_none hq
      rw [fill_of_none hq] at hfull
      have hpre : s.sqlbuf ++ s.query.take s.buflen <+: full := by
        rw [hfull]
        exact (List.prefix_append_right_inj _).mpr (List.take_prefix _ _)
      rw [always_of_end (by simp [hturn]), whole_of_query hturn hpre, gaps_of_none hq,
        afterMarks_of_none hq, Fits, hfull]
      constructor
      · rintro ⟨-, hle, heq⟩
        rw [heq, List.length_append] at hle
        exact hle
      · intro hle
        have htake : s.query.take s.buflen = s.query := List.take_of_length_le (by omega)
        rw [htake, List.length_append]
        exact ⟨hbuf, hle, rfl⟩
  | some p =>
      obtain ⟨before, rest⟩ := p
      obtain ⟨hsplit, hbefore⟩ := strchr_eq_some hq
      rw [gaps_of_some hq, afterMarks_of_some hq]
      rcases Nat.lt_or_ge s.buflen before.length with hb | hb
      · have hturn : turn argCount s = _ := turn_of_gap hq hargs hb
        rw [always_of_end (by simp [hturn]), whole_of_overflow hturn]
        refine ⟨fun _ ↦ ?_, fun _ ↦ ⟨hbuf, hbuf⟩⟩
        cases values with
        | nil => exact hb
        | cons v values => exact .inl hb
      rcases Nat.lt_or_ge s.count argCount with hc | hc
      swap
      · -- a question mark without an argument
        have hnil : values = [] := by
          rw [Nat.sub_eq_zero_of_le hc, List.take_zero, List.map_nil] at hvalues
          exact List.map_eq_nil_iff.mp hvalues.symm
        subst hnil
        rw [List.map_nil, fill_nil, hsplit] at hfull
        have hturn := turn_of_count hq hargs hb hc
        have hpre : s.sqlbuf ++ before <+: full := ⟨'?' :: rest, by rw [hfull, List.append_assoc]⟩
        rw [always_of_end (by simp [hturn]), whole_of_query hturn hpre, Fits]
        refine ⟨fun h ↦ ?_, fun h ↦ absurd h (Nat.not_lt.mpr hb)⟩
        have hlen := congrArg List.length (h.2.2.trans hfull)
        simp only [List.length_append, List.length_cons] at hlen
        omega
      obtain ⟨k, hk⟩ : ∃ k, argCount - s.count = k + 1 := ⟨argCount - s.count - 1, by omega⟩
      obtain ⟨arg, args, rfl⟩ : ∃ a as, args = a :: as := by
        cases args with
        | nil =>
            rw [List.length_nil] at hlength
            omega
        | cons a as => exact ⟨a, as, rfl⟩
      obtain ⟨v, values, rfl⟩ : ∃ v vs, values = v :: vs := by
        cases values with
        | nil =>
            rw [hk, List.take_succ_cons, List.map_cons, List.map_nil] at hvalues
            cases hvalues
        | cons v vs => exact ⟨v, vs, rfl⟩
      rw [hk, List.take_succ_cons, List.map_cons, List.map_cons, List.cons.injEq] at hvalues
      obtain ⟨hv, hvalues⟩ := hvalues
      rw [Fits]
      obtain ⟨-, hv', -⟩ | ⟨-, hv', -⟩ | ⟨w, -, hw, hturn⟩ := turn_cons_cases hq hargs hb hc
      · rw [hv] at hv'
        cases hv'
      · rw [hv] at hv'
        cases hv'
      rw [hv, Option.some.injEq] at hw
      subst hw
      rcases hturn with ⟨hfit, hturn⟩ | ⟨hfit, hturn⟩
      · rw [always_of_end (by simp [hturn]), whole_of_overflow hturn, List.length_append]
        constructor
        · rintro ⟨-, hle⟩
          exact .inr ⟨hle, .inl hfit⟩
        · rintro (h | ⟨hle, -⟩)
          · exact absurd h (Nat.not_lt.mpr hb)
          · exact ⟨hbuf, hle⟩
      · rw [always_of_next hturn, whole_of_next hturn]
        have hwritten : (s.sqlbuf ++ before ++ v.literal).length =
            s.sqlbuf.length + before.length + v.literal.length := by
          simp only [List.length_append]
        by_cases hle : s.sqlbuf.length + before.length + v.literal.length ≤ maxStringLength - 1
        · have hcost := v.cost_le
          have hcount : argCount - (s.count + 1) = k := by omega
          have hrest := ih rest.length (hn ▸ length_of_some hq)
            (s := ⟨rest, some args, s.count + 1, s.buflen - v.cost, s.sqlbuf ++ before ++ v.literal⟩)
            rfl (by rw [hcount]; exact hvalues)
            (by
              show argCount - (s.count + 1) ≤ args.length
              rw [List.length_cons] at hlength
              omega)
            (by
              rw [hfull, hsplit, fill_of_notMem hbefore, List.map_cons, fill, if_pos rfl]
              simp only [List.append_assoc])
            (by simp only [hwritten]; omega) (by simp only [hwritten]; exact hle) rfl
          rw [hrest]
          simp only [hwritten]
          constructor
          · rintro ⟨-, h⟩
            exact .inr ⟨by omega, .inr ⟨hle, h⟩⟩
          · rintro (h | ⟨-, h | ⟨-, h⟩⟩)
            · exact absurd h (Nat.not_lt.mpr hb)
            · exact absurd h (Nat.not_lt.mpr hfit)
            · exact ⟨hbuf, h⟩
        · constructor
          · rintro ⟨-, h⟩
            have hover := (h _ (.init rfl)).1
            simp only [hwritten] at hover
            exact absurd hover hle
          · rintro (h | ⟨-, h | ⟨h, -⟩⟩)
            · exact absurd h (Nat.not_lt.mpr hb)
            · exact absurd h (Nat.not_lt.mpr hfit)
            · exact absurd h hle

/-- Without an array the text of the pattern is appended again and again. -/
theorem grows {argCount : ℕ} {query : CString} (h : strchr '?' query ≠ none) (n : ℕ) :
    ∃ s, (loop argCount (start query none)).Reachable s ∧ s.query = query ∧ s.args = none ∧
      s.buflen = maxStringLength - 1 ∧ n ≤ s.sqlbuf.length := by
  induction n with
  | zero => exact ⟨_, .init rfl, rfl, rfl, rfl, Nat.zero_le _⟩
  | succ n ih =>
      obtain ⟨s, hs, hquery, hargs, hbuflen, hn⟩ := ih
      obtain ⟨⟨before, rest⟩, hp⟩ := Option.ne_none_iff_exists'.mp h
      have hlength := length_of_some hp
      rw [← hquery] at hp
      refine ⟨_, hs.step (e := ()) (loop_step.mpr (turn_of_null hp hargs)), hquery, hargs, hbuflen,
        ?_⟩
      simp only [List.length_append, List.length_take, hbuflen, hquery, maxStringLength]
      omega

/-- The arguments of a query have values, as those have that the binding functions make,
and there are as many as it says. -/
inductive Given (argCount : ℕ) : Option (List MysqlBind) → List Value → Prop
  | null : Given argCount none []
  | array {l : List MysqlBind} {values : List Value} (hlength : argCount ≤ l.length)
      (hvalues : (l.take argCount).map argValue = values.map some) :
      Given argCount (some l) values

/-- For every pattern and arguments, the buffer is never overrun and no text is sent that
breaks off, if and only if there is an array of arguments where there is a question mark,
and the text fits, or the loop gives up at a piece of it before it gets too long. -/
theorem whole_iff {argCount : ℕ} {args : Option (List MysqlBind)} {values : List Value}
    (query : CString) (h : Given argCount args values) :
    Always argCount (Whole argCount (fill query (values.map Value.literal))) (start query args) ↔
      (args = none → strchr '?' query = none) ∧
        Fits (afterMarks query) (maxStringLength - 1) 0 (gaps query) values := by
  cases h with
  | null =>
      by_cases hq : strchr '?' query = none
      · have hturn : turn argCount (start query none) = _ := turn_of_none hq
        have hpre : (start query none).sqlbuf ++ (start query none).query.take
            (start query none).buflen <+: fill query ([].map Value.literal) := by
          rw [fill_of_none hq]
          exact List.take_prefix _ _
        rw [always_of_end (by simp [hturn]), whole_of_query hturn hpre, fill_of_none hq,
          gaps_of_none hq, afterMarks_of_none hq, Fits]
        constructor
        · rintro ⟨-, hle, heq⟩
          rw [heq] at hle
          exact ⟨fun _ ↦ hq, by omega⟩
        · rintro ⟨-, hle⟩
          have htake : query.take (maxStringLength - 1) = query :=
            List.take_of_length_le (by omega)
          show _ ∧ (query.take (maxStringLength - 1)).length ≤ _ ∧ _
          rw [htake]
          exact ⟨Nat.zero_le _, by omega, htake⟩
      · refine ⟨fun h ↦ ?_, fun h ↦ absurd (h.1 rfl) hq⟩
        obtain ⟨s, hs, -, -, -, hlong⟩ := grows hq maxStringLength
        have hle := (h s hs).1
        simp only [maxStringLength] at hle hlong
        omega
  | @array l values hlength hvalues =>
      have hiff : Always argCount (Whole argCount (fill query (values.map Value.literal)))
          (start query (some l)) ↔
            Fits (afterMarks query) (maxStringLength - 1) 0 (gaps query) values :=
        always_whole_iff rfl hvalues hlength rfl (Nat.le_refl _) (Nat.zero_le _)
      rw [hiff]
      simp

theorem whole_iff_nick :
    Always 2 (Whole 2 (fill nickPattern ([Value.integer 5, .text ['x']].map Value.literal)))
      (start nickPattern (some [bindNumeric .cleared 5 .long,
        bindString .cleared (some ['x']) .varString])) :=
  (whole_iff nickPattern (.array (by decide) (by decide))).mpr
    ⟨fun h ↦ (Option.some_ne_none _ h).elim, by decide +kernel⟩

/-- A text of 500 quotes is quoted to 1002 characters, for which there is room by
itself. -/
theorem not_whole :
    ¬ Always 2 (Whole 2 (fill nickPattern
        ([Value.integer 5, .text (List.replicate 500 '\'')].map Value.literal)))
      (start nickPattern (some [bindNumeric .cleared 5 .long,
        bindString .cleared (some (List.replicate 500 '\'')) .varString])) := by
  intro h
  have hfits : Fits _ _ _ _ [.integer 5, .text (List.replicate 500 '\'')] :=
    (always_whole_iff rfl rfl (Nat.le_refl 2) rfl (Nat.le_refl _) (Nat.zero_le _)).mp h
  exact absurd hfits (by decide +kernel)

end Beirdobot.Mysql
