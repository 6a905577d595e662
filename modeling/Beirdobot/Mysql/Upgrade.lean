import Beirdobot.Library.System
import Beirdobot.Mysql.Query

/-!
# Upgrading a schema

A transcription of `mysql_upgrade.c` with what it uses of the query thread:
`db_check_schema` and the thread take turns on `QueryQ`, and `db_set_setting` is a
lookup that chains the write when it is executed.
-/

namespace Beirdobot.Upgrade

open Library

/-- The arguments of `db_check_schema`: the version of the code, the queries of
`defSchema`, and those of each `schemaUpgrade[current]` before the one without a
pattern. -/
structure Schema where
  codeSupports : ℕ
  defSchemaCount : ℕ
  schemaUpgrade : ℕ → ℕ

/-- A query of the upgrade in `QueryQ`; the numbers of `QueryTable` are 13 to 16. -/
inductive Query where
  | defSchema (i : ℕ)
  | schemaUpgrade (current i : ℕ)
  | getSetting
  | setSetting (value : CString)
  | updateSetting (value : CString)
  | insertSetting (value : CString)
deriving DecidableEq, Repr

/-- Where `db_check_schema` is: before `db_get_setting`, waiting in it, past it, in a
loop of `db_upgrade_schema`, past the loop of its own. -/
inductive Caller where
  | reading
  | waiting
  | read (verString : Option CString)
  | populating (i : ℕ)
  | upgrading (current i : ℕ)
  | done (ver : ℤ)
deriving DecidableEq, Repr

/-- `executed` has the queries of the schema that were executed. -/
structure State where
  caller : Caller
  queue : List Query
  setting : Option CString
  executed : List Query
deriving DecidableEq, Repr

/-- `db_queue_query` -/
def State.enqueue (s : State) (query : Query) : State := { s with queue := s.queue ++ [query] }

/-- The end of `db_upgrade_schema`, with `db_set_setting`, and of the loop's body. -/
def storeVersion (m : Schema) (s : State) (ver : ℕ) : State :=
  { s.enqueue (.setSetting (Mysql.decimal ver)) with
    caller := if ver < m.codeSupports then .reading else .done ver }

/-- `db_check_schema` up to its next query; a negative version is not an index of
`schemaUpgrade`. -/
def callerStep (m : Schema) (s : State) : Option State :=
  match s.caller with
  | .reading => some { s.enqueue .getSetting with caller := .waiting }
  | .waiting => none
  | .read verString =>
      let ver : ℤ := match verString with
        | none => 0
        | some verString => atoi verString
      if ver < m.codeSupports then
        if ver = 0 then some { s with caller := .populating 0 }
        else if 0 < ver then some { s with caller := .upgrading ver.toNat 0 }
        else none
      else some { s with caller := .done ver }
  | .populating i =>
      if i < m.defSchemaCount then
        some { s.enqueue (.defSchema i) with caller := .populating (i + 1) }
      else some (storeVersion m s m.codeSupports)
  | .upgrading current i =>
      if i < m.schemaUpgrade current then
        some { s.enqueue (.schemaUpgrade current i) with caller := .upgrading current (i + 1) }
      else some (storeVersion m s (current + 1))
  | .done _ => none

/-- `mysql_thread` executes the next query, with `result_get_setting` and
`chain_set_setting`. -/
def mysqlStep (s : State) : Option State :=
  match s.queue with
  | [] => none
  | query :: queue =>
      let s := { s with queue }
      match query with
      | .defSchema _ | .schemaUpgrade _ _ => some { s with executed := s.executed ++ [query] }
      | .getSetting => some { s with caller := .read s.setting }
      | .setSetting value =>
          some (s.enqueue (if s.setting.isSome then .updateSetting value else .insertSetting value))
      | .updateSetting value => some { s with setting := s.setting.map fun _ ↦ value }
      | .insertSetting value => some { s with setting := some value }

inductive Event where
  | caller
  | mysql
deriving DecidableEq, Repr

/-- The upgrade of a database whose stored version is `v`. -/
def system (m : Schema) (v : ℕ) : System State Event where
  init s := ∃ text, atoi text = v ∧ s = ⟨.reading, [], some text, []⟩
  step s
    | .caller => callerStep m s
    | .mysql => mysqlStep s

/-- The version that is stored. -/
def State.version (s : State) : ℤ := (s.setting.map atoi).getD 0

/-! ## What an upgrade is to do -/

/-- Queries of an upgrade step. -/
def Schema.part (current start length : ℕ) : List Query :=
  (List.range' start length).map (.schemaUpgrade current)

/-- The queries of an upgrade step. -/
def Schema.queries (m : Schema) (current : ℕ) : List Query :=
  Schema.part current 0 (m.schemaUpgrade current)

/-- The queries of the steps from one version to another, in order. -/
def Schema.upgrades (m : Schema) (v stop : ℕ) : List Query :=
  (List.range' v (stop - v)).flatMap m.queries

/-- The version is read only when the lookup for the last one to be stored was
executed, so that its write is in the queue. -/
def Timely (s : State) (e : Event) : Prop :=
  e = .caller → s.caller = .reading → ∀ value, Query.setSetting value ∉ s.queue

/-- `db_check_schema` returned, and everything it queued was executed. -/
def State.Finished (s : State) : Prop := (∃ ver, s.caller = .done ver) ∧ s.queue = []

end Beirdobot.Upgrade
