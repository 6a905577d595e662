import Mathlib.Algebra.GroupWithZero.Nat
import Mathlib.Data.List.Nodup
import Mathlib.Data.List.Range
import Beirdobot.Mysql.Upgrade

/-!
# Runs of an upgrade

While the version is read in time, `db_check_schema` and the query thread go through
the phases of `Phase`, each with the number of steps that are left.
-/

namespace Beirdobot.Upgrade

open Library

theorem atoi_decimal (n : ℕ) : atoi (Mysql.decimal n) = n := by
  have hn : ¬ (n : ℤ) < 0 := by omega
  rw [Mysql.decimal, if_neg hn, Int.natAbs_natCast, atoi_toDigits]

namespace Schema

variable {m : Schema} {v c : ℕ}

theorem part_zero (c i : ℕ) : part c i 0 = [] := rfl

theorem part_succ (c i k : ℕ) : part c i (k + 1) = .schemaUpgrade c i :: part c (i + 1) k := rfl

theorem part_concat (c i k : ℕ) : part c i (k + 1) = part c i k ++ [.schemaUpgrade c (i + k)] := by
  rw [part, List.range'_concat, List.map_append, Nat.one_mul]
  rfl

theorem part_append (c i j k : ℕ) : part c i j ++ part c (i + j) k = part c i (j + k) := by
  rw [part, part, ← List.map_append, List.range'_append_1, part]

theorem upgrades_self : m.upgrades v v = [] := by
  rw [upgrades, Nat.sub_self, List.range'_zero, List.flatMap_nil]

theorem upgrades_succ (h : v ≤ c) : m.upgrades v (c + 1) = m.upgrades v c ++ m.queries c := by
  have hlength : c + 1 - v = (c - v) + 1 := by omega
  have hlast : v + 1 * (c - v) = c := by omega
  rw [upgrades, hlength, List.range'_concat, hlast, List.flatMap_append, List.flatMap_singleton,
    upgrades]

theorem upgrades_prefix {d : ℕ} (h : v ≤ c) (hcd : c ≤ d) : m.upgrades v c <+: m.upgrades v d := by
  induction hcd with
  | refl => exact List.prefix_rfl
  | step hcd ih =>
      rw [upgrades_succ (Nat.le_trans h hcd)]
      exact ih.trans (List.prefix_append ..)

/-- The number of steps of the two threads from a version on. -/
def rest (m : Schema) (c : ℕ) : ℕ :=
  ((List.range' c (m.codeSupports - c)).map fun c ↦ 2 * m.schemaUpgrade c + 6).sum

theorem rest_eq (h : c < m.codeSupports) :
    m.rest c = 2 * m.schemaUpgrade c + 6 + m.rest (c + 1) := by
  have hlength : m.codeSupports - c = (m.codeSupports - (c + 1)) + 1 := by omega
  rw [rest, hlength, List.range'_succ, List.map_cons, List.sum_cons, rest]

/-- Where `db_check_schema` is after a step to a version. -/
def next (m : Schema) (c : ℕ) : Caller := if c < m.codeSupports then .reading else .done c

end Schema

/-- The phases of an upgrade: at a version, with the read of it queued, with its result,
in the loop that queues the next step, and past that loop with the lookup for the new
version in the queue, with its write there, and with that and the next read there. -/
inductive Phase (m : Schema) (v : ℕ) : State → ℕ → Prop
  | idle {c : ℕ} {text : CString} (hv : v ≤ c) (hc : c ≤ m.codeSupports) (ht : atoi text = c) :
      Phase m v ⟨m.next c, [], some text, m.upgrades v c⟩ (m.rest c)
  | waiting {c : ℕ} {text : CString} (hv : v ≤ c) (hc : c < m.codeSupports) (ht : atoi text = c) :
      Phase m v ⟨.waiting, [.getSetting], some text, m.upgrades v c⟩
        (2 * m.schemaUpgrade c + 5 + m.rest (c + 1))
  | read {c : ℕ} {text : CString} (hv : v ≤ c) (hc : c < m.codeSupports) (ht : atoi text = c) :
      Phase m v ⟨.read (some text), [], some text, m.upgrades v c⟩
        (2 * m.schemaUpgrade c + 4 + m.rest (c + 1))
  | upgrading {c i j k : ℕ} {text : CString} (hv : v ≤ c) (hc : c < m.codeSupports)
      (ht : atoi text = c) (hk : i + j + k = m.schemaUpgrade c) :
      Phase m v ⟨.upgrading c (i + j), Schema.part c i j, some text,
        m.upgrades v c ++ Schema.part c 0 i⟩ (k + (j + k) + 3 + m.rest (c + 1))
  | storing {c i j : ℕ} {text : CString} (hv : v ≤ c) (hc : c < m.codeSupports)
      (ht : atoi text = c) (hj : i + j = m.schemaUpgrade c) :
      Phase m v ⟨m.next (c + 1), Schema.part c i j ++ [.setSetting (Mysql.decimal (c + 1 : ℕ))],
        some text, m.upgrades v c ++ Schema.part c 0 i⟩ (j + 2 + m.rest (c + 1))
  | chained {c : ℕ} {text : CString} (hv : v ≤ c) (hc : c < m.codeSupports) (ht : atoi text = c) :
      Phase m v ⟨m.next (c + 1), [.updateSetting (Mysql.decimal (c + 1 : ℕ))], some text,
        m.upgrades v (c + 1)⟩ (1 + m.rest (c + 1))
  | rereading {c : ℕ} {text : CString} (hv : v ≤ c) (hc : c + 1 < m.codeSupports)
      (ht : atoi text = c) :
      Phase m v ⟨.waiting, [.updateSetting (Mysql.decimal (c + 1 : ℕ)), .getSetting], some text,
        m.upgrades v (c + 1)⟩ (m.rest (c + 1))

variable {m : Schema} {v : ℕ}

theorem Phase.init {s : State} (hv : v < m.codeSupports) (h : (system m v).init s) :
    Phase m v s (m.rest v) := by
  obtain ⟨text, ht, rfl⟩ := h
  have hphase := Phase.idle (m := m) (Nat.le_refl v) (Nat.le_of_lt hv) ht
  rwa [Schema.upgrades_self, Schema.next, if_pos hv] at hphase

theorem next_cases (m : Schema) (c : ℕ) :
    (m.next c = .reading ∧ c < m.codeSupports) ∨ (m.next c = .done c ∧ m.codeSupports ≤ c) := by
  unfold Schema.next
  split
  · exact .inl ⟨rfl, ‹_›⟩
  · exact .inr ⟨rfl, Nat.le_of_not_lt ‹_›⟩

/-- A step of `db_check_schema` comes to a phase with fewer steps left. -/
theorem Phase.caller {s s' : State} {r : ℕ} (h : Phase m v s r) (hv : 1 ≤ v)
    (hc : Timely s .caller) (he : callerStep m s = some s') :
    (∃ r' < r, Phase m v s' r') ∧ s'.setting = s.setting := by
  cases h with
  | @idle c text hvc hcn ht =>
      rcases next_cases m c with ⟨hnext, hlt⟩ | ⟨hnext, -⟩ <;> rw [hnext] at he
      · cases he
        refine ⟨⟨_, ?_, .waiting hvc hlt ht⟩, rfl⟩
        rw [Schema.rest_eq hlt]
        omega
      · cases he
  | waiting => cases he
  | @read c text hvc hcn ht =>
      have hlt : (c : ℤ) < m.codeSupports := by omega
      have hne : ¬ (c : ℤ) = 0 := by omega
      have hpos : (0 : ℤ) < c := by omega
      simp only [callerStep, ht, if_pos hlt, if_neg hne, if_pos hpos, Int.toNat_natCast] at he
      cases he
      refine ⟨⟨m.schemaUpgrade c + (0 + m.schemaUpgrade c) + 3 + m.rest (c + 1), ?_, ?_⟩, rfl⟩
      · omega
      · have hphase := Phase.upgrading (m := m) (i := 0) (j := 0) hvc hcn ht (Nat.zero_add _)
        rwa [Schema.part_zero, List.append_nil] at hphase
  | @upgrading c i j k text hvc hcn ht hk =>
      simp only [callerStep] at he
      split at he
      · rename_i hlt
        obtain ⟨k, rfl⟩ : ∃ k', k = k' + 1 := ⟨k - 1, by omega⟩
        cases he
        refine ⟨⟨k + (j + 1 + k) + 3 + m.rest (c + 1), by omega, ?_⟩, rfl⟩
        have hphase := Phase.upgrading (i := i) (j := j + 1) (k := k) hvc hcn ht (by omega)
        rwa [Schema.part_concat] at hphase
      · obtain rfl : k = 0 := by omega
        cases he
        exact ⟨⟨j + 2 + m.rest (c + 1), by omega, .storing hvc hcn ht (by omega)⟩, rfl⟩
  | @storing c i j text hvc hcn ht hj =>
      rcases next_cases m (c + 1) with ⟨hnext, -⟩ | ⟨hnext, -⟩
      · exact absurd (hc rfl hnext (Mysql.decimal (c + 1 : ℕ))) (by simp)
      · rw [hnext] at he
        cases he
  | @chained c text hvc hcn ht =>
      rcases next_cases m (c + 1) with ⟨hnext, hlt⟩ | ⟨hnext, -⟩ <;> rw [hnext] at he
      · cases he
        exact ⟨⟨m.rest (c + 1), by omega, .rereading hvc hlt ht⟩, rfl⟩
      · cases he
  | rereading => cases he

/-- A step of the query thread comes to a phase with fewer steps left, and the stored
version does not go down. -/
theorem Phase.mysql {s s' : State} {r : ℕ} (h : Phase m v s r) (he : mysqlStep s = some s') :
    (∃ r' < r, Phase m v s' r') ∧ s.version ≤ s'.version := by
  cases h with
  | idle => cases he
  | waiting hvc hcn ht =>
      cases he
      exact ⟨⟨_, by omega, .read hvc hcn ht⟩, Int.le_refl _⟩
  | read => cases he
  | @upgrading c i j k text hvc hcn ht hk =>
      cases j with
      | zero => cases he
      | succ j =>
          cases he
          refine ⟨⟨k + (j + k) + 3 + m.rest (c + 1), by omega, ?_⟩, Int.le_refl _⟩
          have hphase := Phase.upgrading (i := i + 1) (j := j) (k := k) hvc hcn ht (by omega)
          rwa [Schema.part_concat, Nat.zero_add, ← List.append_assoc,
            Nat.add_right_comm i 1 j] at hphase
  | @storing c i j text hvc hcn ht hj =>
      cases j with
      | zero =>
          obtain rfl : i = m.schemaUpgrade c := hj
          cases he
          refine ⟨⟨1 + m.rest (c + 1), by omega, ?_⟩, Int.le_refl _⟩
          have hphase := Phase.chained (m := m) hvc hcn ht
          rwa [Schema.upgrades_succ hvc] at hphase
      | succ j =>
          cases he
          refine ⟨⟨j + 2 + m.rest (c + 1), by omega, ?_⟩, Int.le_refl _⟩
          have hphase := Phase.storing (i := i + 1) (j := j) hvc hcn ht (by omega)
          rwa [Schema.part_concat, Nat.zero_add, ← List.append_assoc] at hphase
  | @chained c text hvc hcn ht =>
      cases he
      refine ⟨⟨m.rest (c + 1), by omega, .idle (Nat.le_succ_of_le hvc) hcn (atoi_decimal _)⟩, ?_⟩
      show atoi text ≤ atoi (Mysql.decimal (c + 1 : ℕ))
      rw [ht, atoi_decimal]
      omega
  | @rereading c text hvc hcn ht =>
      cases he
      refine ⟨⟨_, ?_, .waiting (Nat.le_succ_of_le hvc) hcn (atoi_decimal _)⟩, ?_⟩
      · rw [Schema.rest_eq hcn]
        omega
      · show atoi text ≤ atoi (Mysql.decimal (c + 1 : ℕ))
        rw [ht, atoi_decimal]
        omega

/-- A step that meets the condition comes to a phase with fewer steps left. -/
theorem Phase.step {s s' : State} {r : ℕ} {e : Event} (h : Phase m v s r) (hv : 1 ≤ v)
    (hc : Timely s e) (he : (system m v).step s e = some s') :
    (∃ r' < r, Phase m v s' r') ∧ s.version ≤ s'.version := by
  cases e with
  | caller =>
      obtain ⟨hphase, hsetting⟩ := h.caller hv hc he
      rw [State.version, State.version, hsetting]
      exact ⟨hphase, Int.le_refl _⟩
  | mysql => exact h.mysql he

theorem mysqlStep_isSome {s : State} (h : s.queue ≠ []) : ∃ s', mysqlStep s = some s' := by
  unfold mysqlStep
  split
  · contradiction
  · split <;> exact ⟨_, rfl⟩

/-- An upgrade that is not over goes on. -/
theorem Phase.progress {s : State} {r : ℕ} (h : Phase m v s r) (hv : 1 ≤ v)
    (hs : ¬ s.Finished) : ∃ e s', Timely s e ∧ (system m v).step s e = some s' := by
  by_cases hqueue : s.queue = []
  · have htimely : Timely s .caller := fun _ _ value hm ↦ by simp [hqueue] at hm
    have hsome : (callerStep m s).isSome = true := by
      cases h with
      | @idle c text hvc hcn ht =>
          rcases next_cases m c with ⟨hnext, -⟩ | ⟨hnext, -⟩
          · simp [callerStep, hnext]
          · exact absurd ⟨⟨c, hnext⟩, rfl⟩ hs
      | waiting => cases hqueue
      | @read c text hvc hcn ht =>
          have hlt : (c : ℤ) < m.codeSupports := by omega
          have hne : ¬ (c : ℤ) = 0 := by omega
          have hpos : (0 : ℤ) < c := by omega
          simp only [callerStep, ht, if_pos hlt, if_neg hne, if_pos hpos, Option.isSome_some]
      | upgrading =>
          simp only [callerStep]
          split <;> rfl
      | storing => simp at hqueue
      | chained => cases hqueue
      | rereading => cases hqueue
    obtain ⟨s', he⟩ := Option.isSome_iff_exists.mp hsome
    exact ⟨.caller, s', htimely, he⟩
  · obtain ⟨s', he⟩ := mysqlStep_isSome hqueue
    exact ⟨.mysql, s', (fun h ↦ by cases h), he⟩

/-! ## Whole runs -/

theorem Schema.nodup_upgrades (m : Schema) (v stop : ℕ) : (m.upgrades v stop).Nodup := by
  unfold upgrades
  refine List.nodup_flatMap.mpr ⟨fun c _ ↦ ?_, ?_⟩
  · refine List.Nodup.map (fun i j hij ↦ ?_) List.nodup_range'
    cases hij
    rfl
  · refine List.Nodup.pairwise_of_forall_ne List.nodup_range' fun c _ d _ hcd ↦ ?_
    intro query hc hd
    obtain ⟨i, -, rfl⟩ := List.mem_map.mp hc
    obtain ⟨j, -, hj⟩ := List.mem_map.mp hd
    cases hj
    exact hcd rfl

/-- The upgrade queries are executed in order and none of them twice; the stored version
does not go down; the two threads come to an end, and then every step was executed and
the version of the code is stored. -/
structure Upgrades (C : State → Event → Prop) (m : Schema) (v : ℕ) (s : State) : Prop where
  inOrder : s.executed <+: m.upgrades v m.codeSupports
  once : s.executed.Nodup
  monotone : ∀ e s', C s e → (system m v).step s e = some s' → s.version ≤ s'.version
  terminates : (system m v).Terminates C s
  goesOn : ¬ s.Finished → ∃ e s', C s e ∧ (system m v).step s e = some s'
  finished : s.Finished → s.executed = m.upgrades v m.codeSupports ∧ s.version = m.codeSupports

theorem Schema.upgrades_part_prefix {c i : ℕ} (hv : v ≤ c) (hc : c < m.codeSupports)
    (hi : i ≤ m.schemaUpgrade c) :
    m.upgrades v c ++ Schema.part c 0 i <+: m.upgrades v m.codeSupports := by
  have hstep : m.upgrades v c ++ Schema.part c 0 i <+: m.upgrades v (c + 1) := by
    rw [Schema.upgrades_succ hv, Schema.queries, ← Nat.add_sub_of_le hi, ← Schema.part_append,
      ← List.append_assoc]
    exact List.prefix_append ..
  exact hstep.trans (Schema.upgrades_prefix (Nat.le_succ_of_le hv) hc)

theorem Phase.inOrder {s : State} {r : ℕ} (h : Phase m v s r) :
    s.executed <+: m.upgrades v m.codeSupports := by
  cases h with
  | idle hv hc => exact Schema.upgrades_prefix hv hc
  | waiting hv hc => exact Schema.upgrades_prefix hv (Nat.le_of_lt hc)
  | read hv hc => exact Schema.upgrades_prefix hv (Nat.le_of_lt hc)
  | upgrading hv hc _ hk => exact Schema.upgrades_part_prefix hv hc (by omega)
  | storing hv hc _ hj => exact Schema.upgrades_part_prefix hv hc (by omega)
  | chained hv hc => exact Schema.upgrades_prefix (Nat.le_succ_of_le hv) hc
  | rereading hv hc => exact Schema.upgrades_prefix (Nat.le_succ_of_le hv) (Nat.le_of_lt hc)

theorem Phase.finished {s : State} {r : ℕ} (h : Phase m v s r) (hs : s.Finished) :
    s.executed = m.upgrades v m.codeSupports ∧ s.version = m.codeSupports := by
  obtain ⟨⟨ver, hdone⟩, hqueue⟩ := hs
  cases h with
  | @idle c text hv hc ht =>
      rcases next_cases m c with ⟨hnext, -⟩ | ⟨-, hle⟩
      · rw [hnext] at hdone
        cases hdone
      · obtain rfl := Nat.le_antisymm hc hle
        exact ⟨rfl, ht⟩
  | waiting => cases hqueue
  | read => cases hdone
  | upgrading => cases hdone
  | storing => simp at hqueue
  | chained => cases hqueue
  | rereading => cases hqueue

/-- In every run that reads the version in time, the upgrade does what it should. -/
theorem upgrade_run {m : Schema} {v : ℕ} (hv : 1 ≤ v) (hn : v < m.codeSupports) {s : State}
    (h : (system m v).ReachableVia Timely s) : Upgrades Timely m v s := by
  obtain ⟨r, hphase⟩ : ∃ r, Phase m v s r := by
    refine h.invariant (I := fun s ↦ ∃ r, Phase m v s r) (fun s hi ↦ ⟨_, Phase.init hn hi⟩) ?_
    rintro s e s' ⟨r, hphase⟩ hc he
    obtain ⟨⟨r', -, h'⟩, -⟩ := hphase.step hv hc he
    exact ⟨r', h'⟩
  constructor
  · exact hphase.inOrder
  · exact (m.nodup_upgrades v m.codeSupports).sublist hphase.inOrder.sublist
  · intro e s' hc he
    exact (hphase.step hv hc he).2
  · refine System.terminates_of_rank (I := Phase m v) (fun s r e s' hphase hc he ↦ ?_) hphase
    exact (hphase.step hv hc he).1
  · exact hphase.progress hv
  · exact hphase.finished

/-! A database of version 1 with code of version 3, and one query in each step. -/

def twoSteps : Schema := ⟨3, 0, fun _ ↦ 1⟩

theorem upgrade_run_twoSteps : Upgrades Timely twoSteps 1 ⟨.reading, [], some ['1'], []⟩ :=
  upgrade_run (by decide) (by decide) (.init ⟨['1'], by decide, rfl⟩)

/-- The second read is queued before the lookup of `db_set_setting` is executed. -/
def staleRead : List Event :=
  [.caller, .mysql, .caller, .caller, .caller, .caller, .mysql, .mysql, .mysql, .caller, .caller,
    .mysql, .mysql]

theorem not_upgrades :
    ¬ ∀ s, (system twoSteps 1).Reachable s → Upgrades (fun _ _ ↦ True) twoSteps 1 s := by
  intro h
  have hrun : ((system twoSteps 1).run ⟨.reading, [], some ['1'], []⟩ staleRead).map
      State.executed = some [.schemaUpgrade 1 0, .schemaUpgrade 1 0] := by
    decide
  obtain ⟨s, hs, hexecuted⟩ := Option.map_eq_some_iff.mp hrun
  have hinit : (system twoSteps 1).init ⟨.reading, [], some ['1'], []⟩ :=
    ⟨['1'], by decide, rfl⟩
  have honce := (h s (System.reachable_of_run hinit hs)).once
  rw [hexecuted] at honce
  exact absurd honce (by decide)

end Beirdobot.Upgrade
