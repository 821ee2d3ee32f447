import Shutter.Library.Replay
import Shutter.Rules.Config
import Shutter.Rules.Sound
import Shutter.RuleTrie.Contents
import Shutter.RuleTrie.Alphabet

/-! The loaders as sequences of calls on the stores.  A round of `load_config` makes the calls for
the rows that are new, since the waterlines stand at the keys of the others. -/

namespace Shutter.Rules

open Shutter.Acsm Shutter.StringMatcher Shutter.RuleTrie Shutter.Library

/-! ### Calls -/

/-- A call by which a loader changes the stores. -/
inductive LoaderCall where
  | addQueryRule (query : List UInt8)
  | addQueryRuleN (query : List UInt8)
  | delQueryRule (query : List UInt8)
  | delQueryRuleN (query : List UInt8)
  | addKey (keyword : List UInt8)
  | delStr (keyword : List UInt8)
  | insertForUserid (rule : List UInt8)
  | insertForResourceid (rule : List UInt8)
  | del (rule : List UInt8)
  | addurl (url : List UInt8)
  | delurl (url : List UInt8)

/-- One call on the stores. -/
def LoaderCall.run (r : Stores) : LoaderCall → Option Stores
  | .addQueryRule query => Rules.addQueryRule r query
  | .addQueryRuleN query => Rules.addQueryRuleN r query
  | .delQueryRule query => some (Rules.delQueryRule r query)
  | .delQueryRuleN query => some (Rules.delQueryRuleN r query)
  | .addKey keyword => Rules.addKey r keyword
  | .delStr keyword => r.onDown (Rules.delStr · keyword)
  | .insertForUserid rule => callTrie RuleTrie.insertForUserid r rule
  | .insertForResourceid rule => callTrie RuleTrie.insertForResourceid r rule
  | .del rule => callTrie RuleTrie.del r rule
  | .addurl url => r.onAutomata (StringMatcher.addurl · url)
  | .delurl url => r.onAutomata (StringMatcher.delurl · url)

/-- The string of a call. -/
def LoaderCall.string : LoaderCall → List UInt8
  | .addQueryRule s | .addQueryRuleN s | .delQueryRule s | .delQueryRuleN s | .addKey s
  | .delStr s | .insertForUserid s | .insertForResourceid s | .del s | .addurl s | .delurl s => s

/-- The row belongs to the web site of the program. -/
def ConfigRow.concerns (row : ConfigRow) : Table → Bool
  | .userBlockConfig | .userMonitorConfig | .resourceBlockConfig | .resourceMonitorConfig =>
    isRenren (row.column 9)
  | .contentMonitorConfig | .contentBlockConfig | .urlMonitorConfig | .urlBlockConfig =>
    isRenren (row.column 8)

/-- The row enables its rule. -/
def ConfigRow.enables (row : ConfigRow) : Table → Bool
  | .urlMonitorConfig | .urlBlockConfig => isValid (row.column 9)
  | .contentMonitorConfig | .contentBlockConfig | .userBlockConfig | .userMonitorConfig
  | .resourceBlockConfig | .resourceMonitorConfig => isValid (row.column 10)

/-- The calls that enable the rule of a row. -/
def ConfigRow.enabling (row : ConfigRow) : Table → List LoaderCall
  | .contentMonitorConfig =>
    .addQueryRuleN (row.column 2) :: if isUp (row.column 9) then [] else [.addKey (row.column 2)]
  | .contentBlockConfig =>
    if isUp (row.column 9) then [.addQueryRule (row.column 2)] else [.addKey (row.column 2)]
  | .userBlockConfig => [.insertForUserid (userRule row)]
  | .resourceBlockConfig => [.insertForResourceid (resourceRule row)]
  | .urlBlockConfig => [.addurl (row.column 2)]
  | .userMonitorConfig | .resourceMonitorConfig | .urlMonitorConfig => []

/-- The calls that disable the rule of a row. -/
def ConfigRow.disabling (row : ConfigRow) : Table → List LoaderCall
  | .contentMonitorConfig => [.delQueryRuleN (row.column 2)]
  | .contentBlockConfig => [.delQueryRule (row.column 2), .delStr (row.column 2)]
  | .userBlockConfig => [.del (userRule row)]
  | .resourceBlockConfig => [.del (resourceRule row)]
  | .urlBlockConfig => [.delurl (row.column 2)]
  | .userMonitorConfig | .resourceMonitorConfig | .urlMonitorConfig => []

/-- The calls of `load_all_config` for a row. -/
def ConfigRow.loads (table : Table) (row : ConfigRow) : List LoaderCall :=
  if row.concerns table && row.enables table then row.enabling table else []

/-- The calls of `load_config` for a row. -/
def ConfigRow.changes (table : Table) (row : ConfigRow) : List LoaderCall :=
  if row.concerns table then
    if row.enables table then row.enabling table else row.disabling table
  else []

theorem loadRow_eq (r : Stores) (row : ConfigRow) (table : Table) :
    loadRow r row table = (row.loads table).foldlM LoaderCall.run r := by
  unfold ConfigRow.loads
  cases table with
  | contentMonitorConfig | contentBlockConfig =>
    by_cases hValid : isValid (row.column 10) <;> by_cases hSite : isRenren (row.column 8) <;>
      by_cases hUp : isUp (row.column 9) <;>
        simp [loadRow, ConfigRow.concerns, ConfigRow.enables, ConfigRow.enabling,
          LoaderCall.run, hValid, hSite, hUp]
  | userBlockConfig | resourceBlockConfig =>
    by_cases hValid : isValid (row.column 10) <;> by_cases hSite : isRenren (row.column 9) <;>
      simp [loadRow, ConfigRow.concerns, ConfigRow.enables, ConfigRow.enabling,
        LoaderCall.run, hValid, hSite]
  | urlBlockConfig =>
    by_cases hValid : isValid (row.column 9) <;> by_cases hSite : isRenren (row.column 8) <;>
      simp [loadRow, ConfigRow.concerns, ConfigRow.enables, ConfigRow.enabling,
        LoaderCall.run, hValid, hSite]
  | userMonitorConfig | resourceMonitorConfig | urlMonitorConfig =>
    simp [loadRow, ConfigRow.enabling]

theorem updateRow_eq (r : Stores) (row : ConfigRow) (table : Table) :
    updateRow r row table = (row.changes table).foldlM LoaderCall.run r := by
  unfold ConfigRow.changes
  cases table with
  | contentMonitorConfig | contentBlockConfig =>
    by_cases hValid : isValid (row.column 10) <;> by_cases hSite : isRenren (row.column 8) <;>
      by_cases hUp : isUp (row.column 9) <;>
        simp [updateRow, ConfigRow.concerns, ConfigRow.enables, ConfigRow.enabling,
          ConfigRow.disabling, LoaderCall.run, hValid, hSite, hUp]
  | userBlockConfig | resourceBlockConfig =>
    by_cases hValid : isValid (row.column 10) <;> by_cases hSite : isRenren (row.column 9) <;>
      simp [updateRow, ConfigRow.concerns, ConfigRow.enables, ConfigRow.enabling,
        ConfigRow.disabling, LoaderCall.run, hValid, hSite]
  | urlBlockConfig =>
    by_cases hValid : isValid (row.column 9) <;> by_cases hSite : isRenren (row.column 8) <;>
      simp [updateRow, ConfigRow.concerns, ConfigRow.enables, ConfigRow.enabling,
        ConfigRow.disabling, LoaderCall.run, hValid, hSite]
  | userMonitorConfig | resourceMonitorConfig | urlMonitorConfig =>
    simp [updateRow, ConfigRow.enabling, ConfigRow.disabling]

/-! ### Loops -/

/-- The calls of `load_all_config` on a database. -/
def loads (db : Database) : List LoaderCall :=
  Table.all.flatMap fun table => (db table).flatMap (ConfigRow.loads table)

/-- The calls of a round of `load_config` on the rows that it reads. -/
def changes (batch : Database) : List LoaderCall :=
  Table.all.flatMap fun table => (batch table).flatMap (ConfigRow.changes table)

/-- The waterlines behind the rows. -/
def raised (waterline : DatabaseWaterline) (rows : Database) : DatabaseWaterline :=
  fun table => (rows table).foldl raise (waterline table)

theorem raised_append (waterline : DatabaseWaterline) (db batch : Database) :
    raised (raised waterline db) batch = raised waterline (db.append batch) := by
  funext table
  simp [raised, Database.append]

theorem foldl_raise_lt {rows : List ConfigRow} {waterline n : Int} :
    rows.foldl raise waterline < n ↔ waterline < n ∧ ∀ row ∈ rows, (row.id : Int) < n := by
  induction rows generalizing waterline with
  | nil => simp
  | cons row rows ih =>
    have hRaise : raise waterline row < n ↔ waterline < n ∧ (row.id : Int) < n := by
      unfold raise
      split <;> omega
    rw [List.foldl_cons, ih, hRaise, List.forall_mem_cons, and_assoc]

section Loops

variable {process : Stores → ConfigRow → Table → Option Stores}
  {calls : Table → ConfigRow → List LoaderCall}

theorem foldlM_fetchRow (h : ∀ r row table, process r row table =
      (calls table row).foldlM LoaderCall.run r) (table : Table) (rows : List ConfigRow)
    (s : Loader) : rows.foldlM (fetchRow process table) s =
      ((rows.flatMap (calls table)).foldlM LoaderCall.run s.stores).map fun stores =>
        ⟨Function.update s.waterline table (rows.foldl raise (s.waterline table)), stores⟩ := by
  induction rows generalizing s with
  | nil =>
    obtain ⟨waterline, stores⟩ := s
    simp
  | cons row rows ih =>
    rw [List.foldlM_cons, fetchRow, h, List.flatMap_cons, List.foldlM_append]
    cases (calls table row).foldlM LoaderCall.run s.stores with
    | none => rfl
    | some stores =>
      simp only [Option.bind_eq_bind, Option.bind_some, ih, Function.update_self,
        Function.update_idem, List.foldl_cons]

/-- The loops over the tables, each of which chooses its rows by its own waterline. -/
theorem foldlM_tables (h : ∀ r row table, process r row table =
      (calls table row).foldlM LoaderCall.run r) (choose : Int → Table → List ConfigRow)
    (tables : List Table) (hNodup : tables.Nodup) (s : Loader) :
    tables.foldlM (fun s table =>
        (choose (s.waterline table) table).foldlM (fetchRow process table) s) s =
      ((tables.flatMap fun table => (choose (s.waterline table) table).flatMap
          (calls table)).foldlM LoaderCall.run s.stores).map fun stores =>
        ⟨fun table => if table ∈ tables then
            (choose (s.waterline table) table).foldl raise (s.waterline table)
          else s.waterline table, stores⟩ := by
  induction tables generalizing s with
  | nil =>
    obtain ⟨waterline, stores⟩ := s
    simp
  | cons first tables ih =>
    obtain ⟨hFirst, hNodup⟩ := List.nodup_cons.mp hNodup
    rw [List.foldlM_cons, foldlM_fetchRow h, List.flatMap_cons, List.foldlM_append]
    cases ((choose (s.waterline first) first).flatMap (calls first)).foldlM LoaderCall.run
        s.stores with
    | none => rfl
    | some stores =>
      have hOther : ∀ table, table ∈ tables → Function.update s.waterline first
          ((choose (s.waterline first) first).foldl raise (s.waterline first)) table =
            s.waterline table := by
        intro table hTable
        exact Function.update_of_ne (ne_of_mem_of_not_mem hTable hFirst) _ _
      simp only [Option.map_some, Option.bind_eq_bind, Option.bind_some]
      rw [ih hNodup]
      have hCalls : (tables.flatMap fun table =>
          (choose (Function.update s.waterline first
            ((choose (s.waterline first) first).foldl raise (s.waterline first)) table)
              table).flatMap (calls table)) =
          tables.flatMap fun table =>
            (choose (s.waterline table) table).flatMap (calls table) := by
        simp only [List.flatMap_def]
        congr 1
        exact List.map_congr_left fun table hTable => by rw [hOther table hTable]
      simp only [hCalls]
      congr 2
      funext stores
      congr 1
      funext table
      by_cases hTable : table ∈ tables
      · rw [if_pos hTable, if_pos (List.mem_cons_of_mem _ hTable), hOther table hTable]
      · rw [if_neg hTable]
        by_cases hEq : table = first
        · subst hEq
          simp
        · simp [hEq, hTable]

end Loops

theorem Table.mem_all (table : Table) : table ∈ Table.all := by
  cases table <;> decide

theorem loadAllConfig_eq (db : Database) (r : Stores) :
    loadAllConfig db r = ((loads db).foldlM LoaderCall.run r).map fun stores =>
      ⟨raised initDatabaseWaterline db, stores⟩ := by
  rw [loadAllConfig, foldlM_tables (fun r row table => loadRow_eq r row table)
    (fun _ table => db table) Table.all (by decide)]
  simp only [Table.mem_all, if_true]
  rfl

theorem loadConfig_eq {db batch : Database} {s : Loader}
    (hNew : ∀ table, (db table).filter (fun row => row.id > s.waterline table) = batch table) :
    loadConfig db s = ((changes batch).foldlM LoaderCall.run s.stores).map fun stores =>
      ⟨raised s.waterline batch, stores⟩ := by
  rw [loadConfig, foldlM_tables (fun r row table => updateRow_eq r row table)
    (fun waterline table => (db table).filter fun row => row.id > waterline) Table.all (by decide)]
  simp only [hNew, Table.mem_all, if_true]
  rfl

/-- The keys of each table increase. -/
def Increasing (db : Database) : Prop :=
  ∀ table, (db table).Pairwise fun row row' => row.id < row'.id

/-- A round reads the new rows, and them only. -/
theorem filter_new {db batch : Database} (h : Increasing (db.append batch)) (table : Table) :
    ((db.append batch) table).filter (fun row => row.id > raised initDatabaseWaterline db table) =
      batch table := by
  obtain ⟨-, -, hNew⟩ := List.pairwise_append.mp (h table)
  rw [Database.append, List.filter_append]
  have hOld :
      (db table).filter (fun row => row.id > raised initDatabaseWaterline db table) = [] := by
    rw [List.filter_eq_nil_iff]
    intro row hRow hLt
    have hAll := (foldl_raise_lt.mp (of_decide_eq_true hLt)).2 row hRow
    omega
  rw [hOld, List.nil_append, List.filter_eq_self]
  intro row hRow
  apply decide_eq_true
  apply foldl_raise_lt.mpr
  refine ⟨?_, ?_⟩
  · simp only [initDatabaseWaterline]
    omega
  · intro row' hRow'
    exact_mod_cast hNew row' hRow' row hRow

theorem everything_append (first : Database) (batches : List Database) (table : Table) :
    ∃ rest, everything first batches table = first table ++ rest := by
  induction batches generalizing first with
  | nil => exact ⟨[], by simp [everything]⟩
  | cons batch batches ih =>
    obtain ⟨rest, hRest⟩ := ih (first.append batch)
    exact ⟨batch table ++ rest, by rw [← List.append_assoc]; exact hRest⟩

theorem Increasing.first {first : Database} {batches : List Database}
    (h : Increasing (everything first batches)) : Increasing first := by
  intro table
  obtain ⟨rest, hRest⟩ := everything_append first batches table
  have hAll := h table
  rw [hRest] at hAll
  exact (List.pairwise_append.mp hAll).1

/-- The rounds make the calls for the rows of their batches. -/
theorem rounds_eq {first : Database} {batches : List Database}
    (h : Increasing (everything first batches)) (r : Stores) :
    rounds first batches ⟨raised initDatabaseWaterline first, r⟩ =
      ((batches.flatMap changes).foldlM LoaderCall.run r).map fun stores =>
        ⟨raised initDatabaseWaterline (everything first batches), stores⟩ := by
  induction batches generalizing first r with
  | nil => rfl
  | cons batch batches ih =>
    have hRest : Increasing (everything (first.append batch) batches) := h
    rw [rounds, loadConfig_eq (filter_new hRest.first), List.flatMap_cons, List.foldlM_append]
    cases (changes batch).foldlM LoaderCall.run r with
    | none => rfl
    | some stores =>
      simp only [Option.map_some, Option.bind_eq_bind, Option.bind_some, raised_append]
      exact ih hRest stores

end Shutter.Rules
