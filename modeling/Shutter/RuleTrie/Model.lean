import Mathlib.Algebra.Order.Ring.Nat
import Mathlib.Data.Fintype.Basic
import Mathlib.Logic.Function.Basic

/-! The wildcard trie of `trie.c`.  Strings are the bytes of C strings without their terminator.
`c2i` returns nothing for a byte that is no digit, no `*` and no space, and a function that uses
its result there returns `none`, as it does where it follows a null pointer. -/

namespace Shutter.RuleTrie

instance neZero_twelve : NeZero 12 := ⟨by decide⟩

/-- A `struct node *`: the null pointer, or the node that it points to. -/
inductive Node where
  | null
  | node (ref : Int16) (patternId : Int) (child : Fin 12 → Node)

/-- `new_node`. -/
def newNode : Node := .node 1 (-1) fun _ => .null

/-- `c2i`. -/
def c2i (c : UInt8) : Option (Fin 12) :=
  if h : 48 ≤ c ∧ c ≤ 57 then some ⟨(c - 48).toNat, by
    have h1 := UInt8.le_iff_toNat_le.mp h.1
    have h2 := UInt8.le_iff_toNat_le.mp h.2
    rw [UInt8.toNat_sub_of_le _ _ h.1]
    simp at h1 h2 ⊢
    omega⟩
  else if c = 42 then some 10
  else if c = 32 then some 11
  else none

/-- `i2c`. -/
def i2c (i : Fin 12) : UInt8 :=
  if i ≤ 9 then UInt8.ofNat i.val + 48 else if i = 10 then 42 else 32

@[simp] theorem c2i_i2c (i : Fin 12) : c2i (i2c i) = some i := by
  revert i
  decide

/-- `is_null`. -/
def isNull : Node → Bool
  | .null => true
  | .node ref _ _ => ref == 0

/-- `has_child`. -/
def hasChild (child : Fin 12 → Node) : Bool := (List.finRange 12).any fun i => !isNull (child i)

/-- `match_`, from the node and the rest of the pattern.  The pair is `*find` and `*pattern_id`. -/
def match_ : Node → List UInt8 → Bool × Int → Option (Bool × Int)
  | .null, _, _ => none
  | .node _ patternId _, [], (find, id) =>
    some (if patternId = -1 then (find, id) else (true, patternId))
  | .node _ _ child, c :: pattern, out =>
    if !hasChild child then some out
    else do
      let idx ← c2i c
      let visited := if isNull (child idx) then some out else match_ (child idx) pattern out
      let out ← visited
      if isNull (child 10) then some out
      else match_ (child 10) ((c :: pattern).dropWhile (· ≠ 32)) out

/-- The step of the two insertions into a child: a new node, or one more reference. -/
def retain : Node → Node
  | .null => newNode
  | .node ref patternId child => .node (ref + 1) patternId child

/-- The loop of the two insertions, and their write of `pattern_id`. -/
def insertPath (id : Int) : Node → List UInt8 → Option Node
  | .null, _ => none
  | .node ref _ child, [] => some (.node ref id child)
  | .node ref patternId child, c :: pattern => do
    let idx ← c2i c
    let tmp ← insertPath id (retain (child idx)) pattern
    some (.node ref patternId (Function.update child idx tmp))

/-- The first loop of `del`: the node that the pattern leads to, or `none` after a `break`. -/
def follow : Node → List UInt8 → Option (Option Node)
  | tmp, [] => some (some tmp)
  | .null, _ :: _ => none
  | .node _ _ child, c :: pattern => do
    let idx ← c2i c
    if isNull (child idx) then some none else follow (child idx) pattern

/-- The step of the second loop of `del` into a child: one reference less, if there is one. -/
def unretain : Node → Node
  | .null => .null
  | .node ref patternId child => .node (if 1 ≤ ref then ref - 1 else ref) patternId child

/-- The second loop of `del`, and its write of `pattern_id`. -/
def release : Node → List UInt8 → Option Node
  | .null, _ => none
  | .node ref _ child, [] => some (.node ref (-1) child)
  | .node ref patternId child, c :: pattern => do
    let idx ← c2i c
    let tmp ← release (unretain (child idx)) pattern
    some (.node ref patternId (Function.update child idx tmp))

/-- The variables of `trie.c`: `trie_tree_root`, `global_pattern_id_for_userid` and
`global_pattern_id_for_resourceid`. -/
structure Trie where
  trieTreeRoot : Node
  globalPatternIdForUserid : Int
  globalPatternIdForResourceid : Int

/-- `init_trie_tree`, with an empty table in the database. -/
def initTrieTree : Trie := ⟨newNode, 0, 1⟩

/-- `insert_for_userid`. -/
def insertForUserid (t : Trie) (pattern : List UInt8) : Option Trie := do
  let root ← insertPath t.globalPatternIdForUserid t.trieTreeRoot pattern
  some { t with trieTreeRoot := root
                globalPatternIdForUserid := t.globalPatternIdForUserid + 2 }

/-- `insert_for_resourceid`. -/
def insertForResourceid (t : Trie) (pattern : List UInt8) : Option Trie := do
  let root ← insertPath t.globalPatternIdForResourceid t.trieTreeRoot pattern
  some { t with trieTreeRoot := root
                globalPatternIdForResourceid := t.globalPatternIdForResourceid + 2 }

/-- `del`. -/
def del (t : Trie) (pattern : List UInt8) : Option Trie := do
  match ← follow t.trieTreeRoot pattern with
  | some (.node _ patternId _) =>
    if patternId = -1 then some t
    else do
      let root ← release t.trieTreeRoot pattern
      some { t with trieTreeRoot := root }
  | _ => some t

/-- `match`: whether a rule matches the tuple, and `*pattern_id`, which is `id` before. -/
def match_tupe (t : Trie) (tupe : List UInt8) (id : Int) : Option (Bool × Int) :=
  match_ t.trieTreeRoot tupe (false, id)

/-! ### Rules by their fields -/

/-- The string that `strcat` builds from three fields. -/
def joinFields (subject action resource : List UInt8) : List UInt8 :=
  subject ++ [32] ++ action ++ [32] ++ resource

/-- `trie_add_rule`. -/
def trieAddRule (t : Trie) (subject action resource : List UInt8) : Option Trie :=
  if subject.head? = some 42 then insertForResourceid t (joinFields subject action resource)
  else if resource.head? = some 42 then insertForUserid t (joinFields subject action resource)
  else some t

/-- `trie_del_rule`. -/
def trieDelRule (t : Trie) (subject action resource : List UInt8) : Option Trie :=
  del t (joinFields subject action resource)

/-- `trie_chk_rule_`. -/
def trieChkRule_ (t : Trie) (subject action resource : List UInt8) (id : Int) :
    Option (Bool × Int) :=
  match_tupe t (joinFields subject action resource) id

end Shutter.RuleTrie
