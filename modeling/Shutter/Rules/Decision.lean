import Shutter.Rules.Accepter

/-! The decision on one request of the up stream: `get_decision` of `loop-1831-wxy.c`, and
`trie_chk_rule` of `trie.c`.  The log records, and the identifiers that they hold, are left out. -/

namespace Shutter.Rules

open Shutter.Acsm Shutter.StringMatcher Shutter.RuleTrie

/-- A `struct connection_info`. -/
structure ConnectionInfo where
  userId : List UInt8
  sId : List UInt8
  pType : Int
  rId : List UInt8
  comment : List UInt8
  url : List UInt8

/-- `sprintf(action, "%d", act)`. -/
def decimal (act : Int) : List UInt8 := ascii (toString act).toList

/-- The identifier that `trie_chk_rule` checks in place of an empty one. -/
def orNotFound (id : List UInt8) : List UInt8 :=
  if id = [] then ascii ['N', 'o', 't', 'F', 'o', 'u', 'n', 'd'] else id

/-- `trie_chk_rule`, without the two pattern identifiers. -/
def trieChkRule (t : Trie) (uId sId : List UInt8) (act : Int) (rId : List UInt8) : Option Nat :=
  if act = 0 then some 0
  else do
    let (a, _) ← trieChkRule_ t (orNotFound uId) (decimal act) (orNotFound sId) (-1)
    let (b, _) ← trieChkRule_ t (orNotFound uId) (decimal act) (orNotFound rId) (-1)
    some (a.toNat + b.toNat)

/-- The array `hit_rule_list` of 32 entries, which the hits must fit. -/
def hitRuleList (hits : List Nat) : Option (List Nat) :=
  if hits.length ≤ 32 then some hits else none

/-- `logic_query_match`. -/
def logicQueryMatch (r : Stores) (text : List UInt8) : Option (List Nat) :=
  (r.table.hits (match_ r.automata · text) 0).bind hitRuleList

/-- `logic_query_match_N`. -/
def logicQueryMatchN (r : Stores) (text : List UInt8) : Option (List Nat) :=
  (r.tableN.hits (matchN r.automata · text) 0).bind hitRuleList

/-- The branch of `get_decision` that logs a url: `get_keywords` writes to an array of `url`
entries. -/
def logUrl (r : Stores) (url : Nat) (text : List UInt8) : Option Unit :=
  if url = 0 then some ()
  else do
    let kw ← getKeywords r.automata text
    if kw.length ≤ url then some () else none

/-- `get_decision`. -/
def getDecision (r : Stores) (c : Option ConnectionInfo) : Option Int :=
  match c with
  | none => some (-1)
  | some c => do
    let matched ← urlMatch r.automata c.url
    let lr ← logicQueryMatch r c.comment
    let lrN ← logicQueryMatchN r c.comment
    let checked ← trieChkRule r.trie c.userId c.sId c.pType c.rId
    let url := if c.pType = 13 then 0 else matched
    let trie := if c.pType = 13 then matched + checked else checked
    if url = 0 ∧ lr.length = 0 ∧ lrN.length = 0 ∧ trie = 0 then some 0
    else if 0 < lrN.length ∧ url = 0 ∧ lr.length = 0 ∧ trie = 0 then some 0
    else do
      logUrl r url c.url
      some 1

end Shutter.Rules
