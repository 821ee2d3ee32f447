import Shutter.Rules.Accepter

/-! The loaders of `mysql_conn.c`.  At the start `load_all_config` reads the eight tables of rules,
and every five seconds `load_config` reads the rows whose keys are above those that were read.  The
connection is taken to succeed, and MySQL to return the rows of a query by increasing keys. -/

namespace Shutter.Rules

open Shutter.StringMatcher Shutter.RuleTrie

/-! ### The database -/

/-- A `MYSQL_ROW`: the value of its first column, a key that MySQL counts up, and the columns as C
strings. -/
structure ConfigRow where
  id : Nat
  column : Nat → List UInt8
  terminated : ∀ i, 0 ∉ column i

/-- The tables, in the order in which both loaders read them. -/
inductive Table where
  | contentMonitorConfig
  | contentBlockConfig
  | userBlockConfig
  | userMonitorConfig
  | resourceBlockConfig
  | resourceMonitorConfig
  | urlMonitorConfig
  | urlBlockConfig
deriving DecidableEq

/-- All tables. -/
def Table.all : List Table :=
  [.contentMonitorConfig, .contentBlockConfig, .userBlockConfig, .userMonitorConfig,
    .resourceBlockConfig, .resourceMonitorConfig, .urlMonitorConfig, .urlBlockConfig]

/-- The rows of each table, by increasing keys. -/
abbrev Database := Table → List ConfigRow

/-- The rows of both, one behind the other. -/
def Database.append (db batch : Database) : Database := fun table => db table ++ batch table

/-- A `struct database_waterline`. -/
abbrev DatabaseWaterline := Table → Int

/-- `init_database_waterline`. -/
def initDatabaseWaterline : DatabaseWaterline := fun _ => -1

/-- `is_valid`. -/
def isValid (state : List UInt8) : Bool := state.head? == some 49

/-- `is_up`. -/
def isUp (direction : List UInt8) : Bool := direction.head? == some 49

/-- `is_renren`. -/
def isRenren (website : List UInt8) : Bool := website.head? == some 49

/-! ### The rows -/

/-- The number of bytes that `strtounicode` writes, with the terminator where it gets there. -/
def escapedBytes : List UInt8 → Nat
  | [] => 1
  | b₁ :: src =>
    if b₁ &&& 0x80 = 0 then escapedBytes src + 1
    else match src with
      | b₂ :: b₃ :: src =>
        if b₂ &&& 0xC0 ≠ 0x80 ∨ b₃ &&& 0xC0 ≠ 0x80 then 2 else escapedBytes src + 6
      | _ => 2

/-- `add_str` of a keyword and of its escaped form, which is built in `key`. -/
def addKey (r : Stores) (keyword : List UInt8) : Option Stores :=
  if escapedBytes keyword ≤ 1024 then r.onDown (addKeyword · keyword) else none

/-- The text that is built in `user_rule`. -/
def userRule (row : ConfigRow) : List UInt8 := joinFields (row.column 2) (row.column 3) [42]

/-- The text that is built in `resource_rule`. -/
def resourceRule (row : ConfigRow) : List UInt8 := joinFields [42] (row.column 3) (row.column 2)

/-- A call on the trie with a text that is built in an array of 256 bytes. -/
def callTrie (call : Trie → List UInt8 → Option Trie) (r : Stores) (rule : List UInt8) :
    Option Stores := do
  let rule ← fit256 rule
  r.onTrie (call · rule)

/-- The loops of `load_all_config`, behind the waterline. -/
def loadRow (r : Stores) (row : ConfigRow) : Table → Option Stores
  | .contentMonitorConfig =>
    if !isValid (row.column 10) || !isRenren (row.column 8) then some r
    else do
      let r ← addQueryRuleN r (row.column 2)
      if !isUp (row.column 9) then addKey r (row.column 2) else some r
  | .contentBlockConfig =>
    if !isValid (row.column 10) || !isRenren (row.column 8) then some r
    else if isUp (row.column 9) then addQueryRule r (row.column 2)
    else addKey r (row.column 2)
  | .userBlockConfig =>
    if !isValid (row.column 10) || !isRenren (row.column 9) then some r
    else callTrie insertForUserid r (userRule row)
  | .resourceBlockConfig =>
    if !isValid (row.column 10) || !isRenren (row.column 9) then some r
    else callTrie insertForResourceid r (resourceRule row)
  | .urlBlockConfig =>
    if !isValid (row.column 9) || !isRenren (row.column 8) then some r
    else r.onAutomata (addurl · (row.column 2))
  | .userMonitorConfig | .resourceMonitorConfig | .urlMonitorConfig => some r

/-- The loops of `load_config`, behind the waterline. -/
def updateRow (r : Stores) (row : ConfigRow) : Table → Option Stores
  | .contentMonitorConfig =>
    if !isRenren (row.column 8) then some r
    else if !isValid (row.column 10) then some (delQueryRuleN r (row.column 2))
    else do
      let r ← addQueryRuleN r (row.column 2)
      if !isUp (row.column 9) then addKey r (row.column 2) else some r
  | .contentBlockConfig =>
    if !isRenren (row.column 8) then some r
    else if !isValid (row.column 10) then
      (delQueryRule r (row.column 2)).onDown (delStr · (row.column 2))
    else if isUp (row.column 9) then addQueryRule r (row.column 2)
    else addKey r (row.column 2)
  | .userBlockConfig =>
    if !isRenren (row.column 9) then some r
    else if isValid (row.column 10) then callTrie insertForUserid r (userRule row)
    else callTrie del r (userRule row)
  | .resourceBlockConfig =>
    if !isRenren (row.column 9) then some r
    else if isValid (row.column 10) then callTrie insertForResourceid r (resourceRule row)
    else callTrie del r (resourceRule row)
  | .urlBlockConfig =>
    if !isRenren (row.column 8) then some r
    else if isValid (row.column 9) then r.onAutomata (addurl · (row.column 2))
    else r.onAutomata (delurl · (row.column 2))
  | .userMonitorConfig | .resourceMonitorConfig | .urlMonitorConfig => some r

/-! ### The loaders -/

/-- The waterlines and the stores. -/
structure Loader where
  waterline : DatabaseWaterline
  stores : Stores

/-- The waterline of a table behind a row. -/
def raise (waterline : Int) (row : ConfigRow) : Int :=
  if row.id > waterline then row.id else waterline

/-- One row of a loop. -/
def fetchRow (process : Stores → ConfigRow → Table → Option Stores)
    (table : Table) (s : Loader) (row : ConfigRow) : Option Loader := do
  let stores ← process s.stores row table
  some ⟨Function.update s.waterline table (raise (s.waterline table) row), stores⟩

/-- `load_all_config`. -/
def loadAllConfig (db : Database) (r : Stores) : Option Loader :=
  Table.all.foldlM (fun s table => (db table).foldlM (fetchRow loadRow table) s)
    ⟨initDatabaseWaterline, r⟩

/-- One round of `load_config`. -/
def loadConfig (db : Database) (s : Loader) : Option Loader :=
  Table.all.foldlM (fun s table =>
    ((db table).filter fun row => row.id > s.waterline table).foldlM (fetchRow updateRow table) s) s

/-- The start of the program: `init_loop`, and `load_all_config`. -/
def startUp (db : Database) : Option Loader := do
  let r ← initLoop
  loadAllConfig db r

/-- Each batch of rows reaches the database before a round. -/
def rounds (db : Database) : List Database → Loader → Option Loader
  | [], s => some s
  | batch :: batches, s => do
    let s ← loadConfig (db.append batch) s
    rounds (db.append batch) batches s

/-- The database behind all batches. -/
def everything (first : Database) (batches : List Database) : Database :=
  batches.foldl Database.append first

end Shutter.Rules
