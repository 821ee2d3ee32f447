import Shutter.StringMatcher

/-! The query rules of `query_table.c`.  A query is a list of words joined by `#` and `&`.  Its
words go to an automaton, and the rule is evaluated over those of them that the automaton finds in a
text.  Strings are the bytes of C strings without their terminator.  The functions come in pairs,
for the blocking rules and, with an `N`, for the monitoring rules. -/

namespace Shutter.Rules

open Shutter.Acsm Shutter.StringMatcher

/-- A `struct query_expression`, without the array `tf`, which each evaluation fills. -/
structure QueryExpression where
  logicOps : List UInt8
  query : List (List UInt8)
  fullText : List UInt8

/-- `is_logic`. -/
def isLogic (c : UInt8) : Bool := c == 35 || c == 38

/-- `still_has_logic`. -/
def stillHasLogic (query : List UInt8) : Bool := query.any isLogic

/-- The word that `parse` copies from a piece of the query. -/
def trim (piece : List UInt8) : List UInt8 := (piece.dropWhile (· = 32)).takeWhile (· ≠ 32)

def QueryExpression.addWord (qe : QueryExpression) (piece : List UInt8) : QueryExpression :=
  { qe with query := qe.query ++ [trim piece] }

/-- The loop of `parse`.  `pending` are the bytes from `start` to `i`, and the list those from `i`
on. -/
def parseLoop : List UInt8 → List UInt8 → QueryExpression → QueryExpression
  | _, [], qe => qe
  | pending, c :: rest, qe =>
    if !stillHasLogic (pending ++ c :: rest) then qe.addWord (pending ++ c :: rest)
    else if isLogic c then
      parseLoop [] rest ({ qe with logicOps := qe.logicOps ++ [c] }.addWord pending)
    else parseLoop (pending ++ [c]) rest qe

/-- The arrays of a `struct query_expression` have room for it. -/
def QueryExpression.Fits (qe : QueryExpression) : Prop :=
  qe.logicOps.length ≤ 3 ∧ qe.query.length ≤ 4 ∧ (∀ w ∈ qe.query, w.length < 256) ∧
    qe.fullText.length < 256

instance (qe : QueryExpression) : Decidable qe.Fits :=
  inferInstanceAs (Decidable (_ ∧ _ ∧ _ ∧ _))

/-- The part of `parse` before its last loop.  It fails where a write leaves the arrays. -/
def parseQuery (query : List UInt8) : Option QueryExpression :=
  let fullText := if 0 < query.length ∧ query.length < 1000 then query else []
  let qe := parseLoop [] query ⟨[], [], fullText⟩
  if qe.Fits then some qe else none

/-- `parse`. -/
def parse (g : Automata) (query : List UInt8) : Option (QueryExpression × Automata) := do
  let qe ← parseQuery query
  let g ← qe.query.foldlM addstr g
  some (qe, g)

/-- `parse_N`. -/
def parseN (g : Automata) (query : List UInt8) : Option (QueryExpression × Automata) := do
  let qe ← parseQuery query
  let g ← qe.query.foldlM addstrN g
  some (qe, g)

/-- A `struct query_table`: the first `query_count` entries of `table`. -/
abbrev QueryTable := List (Option QueryExpression)

/-- The loop of `del_query_rule` and `del_query_rule_N`. -/
def QueryTable.del (table : QueryTable) (query : List UInt8) : QueryTable :=
  table.map (·.filter fun qe => qe.fullText ≠ query)

/-- `populate_tf`, with `in_match_word_list`. -/
def populateTf (qe : QueryExpression) (kw : List Pattern) : List Bool :=
  qe.query.map fun term => decide (term ∈ kw)

/-- The end of `match_` and `match_N`: the branches by `query_word_num` and `logic_ops`.  There is
none for other numbers of words, where the function frees its local array. -/
def evaluate : List UInt8 → List Bool → Option Bool
  | _, [a] => some a
  | o :: _, [a, b] =>
    if o = 35 then some (a || b) else if o = 38 then some (a && b) else none
  | o :: o' :: _, [a, b, c] =>
    if o = 35 ∧ o' = 35 then some (a || b || c)
    else if o = 35 ∧ o' = 38 then some (a || b && c)
    else if o = 38 ∧ o' = 35 then some (a && b || c)
    else if o = 38 ∧ o' = 38 then some (a && b && c)
    else none
  | _, _ => none

/-- The body of `match_` and `match_N`, for the count and the keywords of the text. -/
def QueryExpression.matches (qe : QueryExpression) (found : Option Nat)
    (keywords : Option (List Pattern)) : Option Bool := do
  let ra ← found
  let kw ← keywords
  evaluate qe.logicOps (populateTf qe (kw.take ra))

/-- `match_`. -/
def match_ (g : Automata) (qe : QueryExpression) (text : List UInt8) : Option Bool :=
  qe.matches (kwMatch g text) (getKeywords g text)

/-- `match_N`. -/
def matchN (g : Automata) (qe : QueryExpression) (text : List UInt8) : Option Bool :=
  qe.matches (kwMatchN g text) (getKeywordsN g text)

/-- The loop of `logic_query_match` and `logic_query_match_N` from slot `i` on: the slots of the
rules that match. -/
def QueryTable.hits (m : QueryExpression → Option Bool) : QueryTable → Nat → Option (List Nat)
  | [], _ => some []
  | none :: table, i => hits m table (i + 1)
  | some qe :: table, i => do
    let hit ← m qe
    let rest ← hits m table (i + 1)
    some (if hit then i :: rest else rest)

/-! ### Expressions -/

/-- The words and the operators of a query that `parse` has cut. -/
structure QueryExpression.Cut (qe : QueryExpression) : Prop where
  ops : ∀ c ∈ qe.logicOps, isLogic c
  count : qe.query.length ≤ qe.logicOps.length + 1

theorem parseLoop_cut {pending rest : List UInt8} {qe : QueryExpression} (h : qe.Cut)
    (hCount : qe.query.length ≤ qe.logicOps.length) : (parseLoop pending rest qe).Cut := by
  induction rest generalizing pending qe with
  | nil => exact h
  | cons c rest ih =>
    unfold parseLoop
    split
    · exact ⟨h.ops, by simpa [QueryExpression.addWord] using hCount⟩
    · split
      · rename_i hc
        refine ih ⟨fun o ho => ?_, ?_⟩ ?_
        · rcases List.mem_append.mp ho with ho | ho
          · exact h.ops o ho
          · rwa [List.mem_singleton.mp ho]
        · simp [QueryExpression.addWord]
          omega
        · simpa [QueryExpression.addWord] using hCount
      · exact ih h hCount

theorem parseQuery_cut {query : List UInt8} {qe : QueryExpression}
    (h : parseQuery query = some qe) : qe.Cut := by
  unfold parseQuery at h
  simp only [Option.ite_none_right_eq_some] at h
  obtain ⟨-, h⟩ := h
  rw [← Option.some.inj h]
  exact parseLoop_cut ⟨by simp, by simp⟩ (Nat.le_refl _)

theorem parseLoop_fullText (pending rest : List UInt8) (qe : QueryExpression) :
    (parseLoop pending rest qe).fullText = qe.fullText := by
  induction rest generalizing pending qe with
  | nil => rfl
  | cons c rest ih =>
    unfold parseLoop
    split
    · rfl
    · split
      · exact ih _ _
      · exact ih _ _

theorem QueryExpression.Cut.evaluate {qe : QueryExpression} (h : qe.Cut)
    (hWords : 1 ≤ qe.query.length ∧ qe.query.length ≤ 3) (kw : List Pattern) :
    ∃ hit, Rules.evaluate qe.logicOps (populateTf qe kw) = some hit := by
  obtain ⟨ops, words, fullText⟩ := qe
  obtain ⟨hOps, hCount⟩ := h
  have hLogic : ∀ c, isLogic c = true → c = 35 ∨ c = 38 :=
    fun c hc => by simpa [isLogic] using hc
  match words, ops with
  | [a], _ => exact ⟨_, rfl⟩
  | [a, b], [] => simp at hCount
  | [a, b], o :: ops =>
    rcases hLogic o (hOps o (by simp)) with rfl | rfl <;> exact ⟨_, rfl⟩
  | [a, b, c], [] => simp at hCount
  | [a, b, c], [o] => simp at hCount
  | [a, b, c], o :: o' :: ops =>
    rcases hLogic o (hOps o (by simp)) with rfl | rfl <;>
      rcases hLogic o' (hOps o' (by simp)) with rfl | rfl <;> exact ⟨_, rfl⟩
  | [], _ => simp at hWords
  | _ :: _ :: _ :: _ :: _, _ => simp only [List.length_cons] at hWords; omega

/-! ### Tables -/

theorem QueryTable.hits_congr {m m' : QueryExpression → Option Bool} {table : QueryTable}
    (h : ∀ qe, some qe ∈ table → m qe = m' qe) (i : Nat) :
    table.hits m i = table.hits m' i := by
  induction table generalizing i with
  | nil => rfl
  | cons e table ih =>
    have hRest := ih (fun qe hqe => h qe (List.mem_cons_of_mem _ hqe)) (i + 1)
    cases e with
    | none => exact hRest
    | some qe => rw [hits, hits, hRest, h qe List.mem_cons_self]

theorem QueryTable.hits_total {m : QueryExpression → Option Bool} {table : QueryTable}
    (h : ∀ qe, some qe ∈ table → ∃ hit, m qe = some hit) (i : Nat) :
    ∃ slots, table.hits m i = some slots := by
  induction table generalizing i with
  | nil => exact ⟨[], rfl⟩
  | cons e table ih =>
    obtain ⟨slots, hRest⟩ := ih (fun qe hqe => h qe (List.mem_cons_of_mem _ hqe)) (i + 1)
    cases e with
    | none => exact ⟨slots, hRest⟩
    | some qe =>
      obtain ⟨hit, hHit⟩ := h qe List.mem_cons_self
      exact ⟨_, by rw [hits, hRest, hHit]; rfl⟩

/-- The hits are as many as the rules that match. -/
theorem QueryTable.length_hits {m : QueryExpression → Option Bool} {table : QueryTable} {i : Nat}
    {slots : List Nat} (h : table.hits m i = some slots) :
    slots.length = table.countP fun e => e.any fun qe => m qe = some true := by
  induction table generalizing i slots with
  | nil =>
    obtain rfl : [] = slots := Option.some.inj h
    rfl
  | cons e table ih =>
    cases e with
    | none => exact (ih h).trans (List.countP_cons_of_neg (by simp)).symm
    | some qe =>
      obtain ⟨hit, hHit, hBind⟩ := Option.bind_eq_some_iff.mp h
      obtain ⟨rest, hRest, hSlots⟩ := Option.bind_eq_some_iff.mp hBind
      obtain rfl := Option.some.inj hSlots
      have hLength := ih hRest
      cases hit <;> simp [hHit, hLength]

theorem QueryTable.hits_concat_none (m : QueryExpression → Option Bool) (table : QueryTable)
    (i : Nat) : hits m (table ++ [none]) i = table.hits m i := by
  induction table generalizing i with
  | nil => rfl
  | cons e table ih =>
    cases e with
    | none => exact ih (i + 1)
    | some qe => rw [List.cons_append, hits, hits, ih]

theorem QueryTable.mem_del {table : QueryTable} {query : List UInt8} {qe : QueryExpression} :
    some qe ∈ table.del query ↔ some qe ∈ table ∧ qe.fullText ≠ query := by
  simp only [QueryTable.del, List.mem_map]
  constructor
  · rintro ⟨e, he, hFilter⟩
    obtain ⟨rfl, hText⟩ := Option.filter_eq_some_iff.mp hFilter
    exact ⟨he, by simpa using hText⟩
  · rintro ⟨hqe, hText⟩
    exact ⟨some qe, hqe, Option.filter_eq_some_iff.mpr ⟨rfl, by simpa using hText⟩⟩

theorem QueryTable.del_of_not_mem {table : QueryTable} {query : List UInt8}
    (h : ∀ qe, some qe ∈ table → qe.fullText ≠ query) : table.del query = table := by
  refine (List.map_congr_left fun e he => ?_).trans (List.map_id table)
  cases e with
  | none => rfl
  | some qe => exact Option.filter_eq_some_iff.mpr ⟨rfl, by simpa using h qe he⟩

end Shutter.Rules
