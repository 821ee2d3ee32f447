import Shutter.Rules.Sound
import Mathlib.Data.List.DropRight

/-! Queries as boolean expressions.  The operators cut a query into operands, and `&` binds tighter
than `#`: a text satisfies the query when it has all words of some group of operands between two
`#`.  `match_` computes this for up to three operands, and has no branch for four. -/

namespace Shutter.Rules

open Shutter.Acsm Shutter.StringMatcher

/-! ### Queries -/

/-- The pieces between the operators. -/
def operands (query : List UInt8) : List (List UInt8) := query.splitOnP isLogic

/-- The operands between two `#`, group by group. -/
def groups (query : List UInt8) : List (List (List UInt8)) :=
  (query.splitOnP (· == 35)).map (·.splitOnP (· == 38))

/-- The text has all words of some group. -/
def Satisfies (text query : List UInt8) : Prop :=
  ∃ group ∈ groups query, ∀ operand ∈ group, trim operand <:+: text

instance (text query : List UInt8) : Decidable (Satisfies text query) :=
  inferInstanceAs
    (Decidable (∃ group ∈ groups query, ∀ operand ∈ group, trim operand <:+: text))

/-- The operand has a byte that is no space. -/
def NonBlank (operand : List UInt8) : Prop := ∃ c ∈ operand, c ≠ 32

instance (operand : List UInt8) : Decidable (NonBlank operand) :=
  inferInstanceAs (Decidable (∃ c ∈ operand, c ≠ 32))

theorem NonBlank.trim {operand : List UInt8} (h : NonBlank operand) :
    Rules.trim operand ≠ [] := by
  obtain ⟨c, hc, hNe⟩ := h
  have hDrop : operand.dropWhile (· = 32) ≠ [] := fun hNil => by
    have hAll := List.dropWhile_eq_nil_iff.mp hNil c hc
    exact hNe (by simpa using hAll)
  obtain ⟨b, rest, hRest⟩ := List.exists_cons_of_ne_nil hDrop
  have hb : ¬decide (b = 32) = true := by
    have hHead := List.head_dropWhile_not (fun c : UInt8 => decide (c = 32)) hDrop
    simpa [hRest] using hHead
  rw [Rules.trim, hRest, List.takeWhile_cons_of_pos (by simpa using hb)]
  simp

/-- A query is an operand, or an operand and an operator before a query. -/
theorem query_induction {motive : List UInt8 → Prop}
    (single : ∀ w, (∀ c ∈ w, isLogic c = false) → motive w)
    (operator : ∀ w o query, (∀ c ∈ w, isLogic c = false) → isLogic o = true →
    motive query →
      motive (w ++ o :: query)) (query : List UInt8) : motive query := by
  induction hn : query.length using Nat.strong_induction_on generalizing query with
  | _ n ih =>
    have hSplit := List.takeWhile_append_dropWhile (p := fun c => !isLogic c) (l := query)
    have hPlain : ∀ c ∈ query.takeWhile (fun c => !isLogic c), isLogic c = false :=
      fun c hc => by
      simpa using List.mem_takeWhile_imp hc
    cases hDrop : query.dropWhile fun c => !isLogic c with
    | nil =>
      rw [hDrop, List.append_nil] at hSplit
      exact hSplit ▸ single _ hPlain
    | cons o rest =>
      have ho : isLogic o = true := by
        have hHead := List.head_dropWhile_not (fun c => !isLogic c) (l := query) (by simp [hDrop])
        simpa [hDrop] using hHead
      have hLength := congrArg List.length hSplit
      rw [hDrop, List.length_append, List.length_cons] at hLength
      rw [← hSplit, hDrop]
      exact operator _ o rest hPlain ho (ih rest.length (by omega) rest rfl)

section Pieces

variable {w query : List UInt8} {o : UInt8}

theorem isLogic_iff {c : UInt8} : isLogic c = true ↔ c = 35 ∨ c = 38 := by simp [isLogic]

theorem plain_ne (hw : ∀ c ∈ w, isLogic c = false) :
    (∀ c ∈ w, (c == 35) = false) ∧ ∀ c ∈ w, (c == 38) = false := by
  constructor <;> intro c hc <;> have := hw c hc <;> simp_all [isLogic]

theorem operands_single (hw : ∀ c ∈ w, isLogic c = false) : operands w = [w] :=
  List.splitOnP_eq_singleton hw

theorem operands_operator (hw : ∀ c ∈ w, isLogic c = false) (ho : isLogic o = true) :
    operands (w ++ o :: query) = w :: operands query := by
  rw [operands, List.splitOnP_append_cons_of_forall_mem hw o ho]
  rfl

theorem filter_operator (hw : ∀ c ∈ w, isLogic c = false) (ho : isLogic o = true) :
    (w ++ o :: query).filter isLogic = o :: query.filter isLogic := by
  rw [List.filter_append, List.filter_eq_nil_iff.mpr fun c hc => by simp [hw c hc],
    List.nil_append, List.filter_cons_of_pos ho]

theorem groups_single (hw : ∀ c ∈ w, isLogic c = false) : groups w = [[w]] := by
  obtain ⟨hOr, hAnd⟩ := plain_ne hw
  rw [groups, List.splitOnP_eq_singleton hOr, List.map_singleton, List.splitOnP_eq_singleton hAnd]

theorem groups_or (hw : ∀ c ∈ w, isLogic c = false) :
    groups (w ++ 35 :: query) = [w] :: groups query := by
  obtain ⟨hOr, hAnd⟩ := plain_ne hw
  rw [groups, List.splitOnP_append_cons_of_forall_mem hOr 35 (by decide), List.map_cons,
    List.splitOnP_eq_singleton hAnd]
  rfl

theorem groups_and (hw : ∀ c ∈ w, isLogic c = false) :
    groups (w ++ 38 :: query) = (groups query).modifyHead (w :: ·) := by
  obtain ⟨hOr, hAnd⟩ := plain_ne hw
  have hPrepend : ∀ v : List UInt8, (∀ c ∈ v, (c == 35) = false) →
      (v ++ query).splitOnP (· == 35) = (query.splitOnP (· == 35)).modifyHead (v ++ ·) := by
    intro v hv
    induction v with
    | nil => rw [List.nil_append]; cases query.splitOnP (· == 35) <;> rfl
    | cons c v ih =>
      rw [List.cons_append, List.splitOnP_cons_eq_if_modifyHead, hv c List.mem_cons_self,
        ih fun c hc => hv c (List.mem_cons_of_mem _ hc)]
      cases query.splitOnP (· == 35) <;> rfl
  have hSplit := hPrepend (w ++ [38]) fun c hc => by
    rcases List.mem_append.mp hc with hc | hc
    · exact hOr c hc
    · rw [List.mem_singleton.mp hc]
      rfl
  rw [List.append_assoc, List.singleton_append] at hSplit
  obtain ⟨group, rest, hGroups⟩ :=
    List.exists_cons_of_ne_nil (List.splitOnP_ne_nil (· == 35) query)
  rw [groups, hSplit, groups, hGroups, List.modifyHead_cons, List.map_cons, List.map_cons,
    List.modifyHead_cons, List.append_assoc, List.singleton_append,
    List.splitOnP_append_cons_of_forall_mem hAnd 38 (by decide)]

end Pieces

/-! ### The parser -/

theorem stillHasLogic_of_mem {query : List UInt8} {o : UInt8} (h : o ∈ query)
    (ho : isLogic o = true) : stillHasLogic query = true :=
  List.any_eq_true.mpr ⟨o, h, ho⟩

/-- The loop of `parse` up to the next operator. -/
theorem parseLoop_operator {w query : List UInt8} {o : UInt8} (hw : ∀ c ∈ w, isLogic c = false)
    (ho : isLogic o = true) (pending : List UInt8) (qe : QueryExpression) :
    parseLoop pending (w ++ o :: query) qe =
      parseLoop [] query ({ qe with logicOps := qe.logicOps ++ [o] }.addWord (pending ++ w)) := by
  induction w generalizing pending with
  | nil =>
    have hStill : stillHasLogic (pending ++ o :: query) = true :=
      stillHasLogic_of_mem (by simp) ho
    rw [List.nil_append, parseLoop, hStill, if_neg (by simp), if_pos ho, List.append_nil]
  | cons c w ih =>
    have hStill : stillHasLogic (pending ++ c :: (w ++ o :: query)) = true :=
      stillHasLogic_of_mem (by simp) ho
    rw [List.cons_append, parseLoop, hStill, if_neg (by simp),
      if_neg (by simp [hw c List.mem_cons_self]), ih fun c hc => hw c (List.mem_cons_of_mem _ hc),
      List.append_assoc, List.singleton_append]

/-- The operands whose words `parse` records: it leaves out an empty one at the end. -/
def recorded (query : List UInt8) : List (List UInt8) :=
  if (operands query).getLast? = some [] then (operands query).dropLast else operands query

theorem recorded_sublist (query : List UInt8) : (recorded query).Sublist (operands query) := by
  unfold recorded
  split
  · exact List.dropLast_sublist _
  · exact List.Sublist.refl _

theorem recorded_eq {query : List UInt8} (h : (operands query).getLast? ≠ some []) :
    recorded query = operands query := if_neg h

theorem recorded_filled {query : List UInt8}
    (h : ∀ operand ∈ operands query, NonBlank operand) :
    recorded query = operands query := by
  refine recorded_eq fun hLast => ?_
  obtain ⟨c, hc, -⟩ := h [] (List.mem_of_getLast? hLast)
  cases hc

theorem recorded_operator {w query : List UInt8} {o : UInt8} (hw : ∀ c ∈ w, isLogic c = false)
    (ho : isLogic o = true) : recorded (w ++ o :: query) = w :: recorded query := by
  obtain ⟨operand, rest, hOperands⟩ : ∃ operand rest, operands query = operand :: rest :=
    List.exists_cons_of_ne_nil (List.splitOnP_ne_nil isLogic query)
  unfold recorded
  rw [operands_operator hw ho, hOperands, List.getLast?_cons_cons]
  split <;> rfl

/-- The loop of `parse` records the operators and the words of the operands. -/
theorem parseLoop_eq (query : List UInt8) (qe : QueryExpression) :
    parseLoop [] query qe =
      { qe with logicOps := qe.logicOps ++ query.filter isLogic
                query := qe.query ++ (recorded query).map trim } := by
  induction query using query_induction generalizing qe with
  | single w hw =>
    have hStill : stillHasLogic w = false := by simpa [stillHasLogic] using hw
    have hFilter : w.filter isLogic = [] := List.filter_eq_nil_iff.mpr (by simpa using hw)
    rw [hFilter]
    cases w with
    | nil => simp [parseLoop, recorded, operands]
    | cons c w => simp [parseLoop, hStill, QueryExpression.addWord, recorded, operands_single hw]
  | operator w o query hw ho ih =>
    rw [parseLoop_operator hw ho, ih, filter_operator hw ho, recorded_operator hw ho]
    simp [QueryExpression.addWord]

theorem length_operands (query : List UInt8) :
    (operands query).length = (query.filter isLogic).length + 1 := by
  induction query using query_induction with
  | single w hw =>
    rw [operands_single hw, List.filter_eq_nil_iff.mpr (by simpa using hw)]
    rfl
  | operator w o query hw ho ih =>
    rw [operands_operator hw ho, filter_operator hw ho, List.length_cons, List.length_cons, ih]

theorem length_operand_le {query operand : List UInt8} (h : operand ∈ operands query) :
    operand.length ≤ query.length := by
  induction query using query_induction with
  | single w hw =>
    rw [operands_single hw, List.mem_singleton] at h
    exact Nat.le_of_eq (congrArg List.length h)
  | operator w o query hw ho ih =>
    rw [operands_operator hw ho] at h
    rw [List.length_append, List.length_cons]
    rcases List.mem_cons.mp h with rfl | h
    · exact Nat.le_add_right _ _
    · have := ih h
      omega

theorem length_trim_le (operand : List UInt8) : (trim operand).length ≤ operand.length :=
  (List.takeWhile_sublist _).length_le.trans (List.dropWhile_sublist _).length_le

/-- A query that fits into the arrays, cut by `parse`. -/
theorem parseQuery_recorded {query : List UInt8} (hLength : query.length < 256)
    (hOps : (query.filter isLogic).length ≤ 3) :
    parseQuery query = some ⟨query.filter isLogic, (recorded query).map trim, query⟩ := by
  have hText : (if 0 < query.length ∧ query.length < 1000 then query else []) = query := by
    cases query with
    | nil => rfl
    | cons c query => exact if_pos ⟨Nat.succ_pos _, by omega⟩
  have hWords := (recorded_sublist query).length_le
  rw [length_operands] at hWords
  unfold parseQuery
  simp only [parseLoop_eq, List.nil_append, hText]
  refine if_pos ⟨hOps, ?_, fun w hw => ?_, hLength⟩
  · rw [List.length_map]
    omega
  · obtain ⟨operand, hOperand, rfl⟩ := List.mem_map.mp hw
    have hTrim := length_trim_le operand
    have hLe := length_operand_le ((recorded_sublist query).subset hOperand)
    omega

theorem parseQuery_eq {query : List UInt8} {qe : QueryExpression}
    (hFilled : ∀ operand ∈ operands query, NonBlank operand) (h : parseQuery query = some qe) :
    qe.logicOps = query.filter isLogic ∧ qe.query = (operands query).map trim := by
  simp only [parseQuery, Option.ite_none_right_eq_some, parseLoop_eq, recorded_filled hFilled] at h
  obtain rfl := Option.some.inj h.2
  exact ⟨rfl, rfl⟩

/-! ### The words of a query -/

/-- The operand without the spaces at its ends. -/
def strip (operand : List UInt8) : List UInt8 := (operand.dropWhile (· = 32)).rdropWhile (· = 32)

/-- `parse` copies a word up to its first space. -/
theorem trim_eq_strip {operand : List UInt8} :
    trim operand = strip operand ↔ 32 ∉ strip operand := by
  unfold trim strip
  generalize operand.dropWhile (· = 32) = text
  constructor
  · intro hEq hMem
    rw [← hEq] at hMem
    simpa using List.mem_takeWhile_imp hMem
  · intro hMem
    have hTail : (text.rtakeWhile (· = 32)).takeWhile (· ≠ 32) = [] := by
      refine List.takeWhile_eq_nil_iff.mpr fun hPos => ?_
      simpa using List.mem_rtakeWhile_imp (List.getElem_mem hPos)
    calc text.takeWhile (· ≠ 32)
        = (text.rdropWhile (· = 32) ++ text.rtakeWhile (· = 32)).takeWhile (· ≠ 32) := by
          rw [List.rdropWhile_append_rtakeWhile]
      _ = text.rdropWhile (· = 32) ++ (text.rtakeWhile (· = 32)).takeWhile (· ≠ 32) :=
          List.takeWhile_append_of_pos fun c hc => decide_eq_true (ne_of_mem_of_not_mem hc hMem)
      _ = text.rdropWhile (· = 32) := by rw [hTail, List.append_nil]

/-- The expression has the operators of the query, and a word for each operand. -/
structure QueryExpression.Records (qe : QueryExpression) (query : List UInt8) : Prop where
  logicOps : qe.logicOps = query.filter isLogic
  queryWordNum : qe.query.length = (query.filter isLogic).length + 1
  words : ∀ (i : Nat) (operand : List UInt8), (operands query)[i]? = some operand →
    qe.query[i]? = some (strip operand)

/-- The words are the stripped operands exactly when the query does not end behind an operator and
no operand has a space inside. -/
theorem records_iff {query : List UInt8} (fullText : List UInt8) :
    QueryExpression.Records ⟨query.filter isLogic, (recorded query).map trim, fullText⟩
      query ↔
      (operands query).getLast? ≠ some [] ∧ ∀ operand ∈ operands query,
      32 ∉ strip operand := by
  constructor
  · intro h
    have hCount := h.queryWordNum
    have hLast : (operands query).getLast? ≠ some [] := by
      intro hEnd
      have hPos : 0 < (operands query).length :=
        List.length_pos_of_ne_nil (List.splitOnP_ne_nil isLogic query)
      rw [List.length_map, ← length_operands, recorded, if_pos hEnd,
        List.length_dropLast] at hCount
      omega
    refine ⟨hLast, fun operand hMem => ?_⟩
    obtain ⟨i, hi⟩ := List.mem_iff_getElem?.mp hMem
    have hWord := h.words i operand hi
    rw [List.getElem?_map, recorded_eq hLast, hi] at hWord
    exact trim_eq_strip.mp (Option.some.inj hWord)
  · rintro ⟨hLast, hSpaces⟩
    refine ⟨rfl, ?_, fun i operand hi => ?_⟩
    · rw [List.length_map, recorded_eq hLast, length_operands]
    · rw [List.getElem?_map, recorded_eq hLast, hi, Option.map_some,
        trim_eq_strip.mpr (hSpaces operand (List.mem_of_getElem? hi))]

theorem parse_total (g : Automata) {query : List UInt8} {qe : QueryExpression}
    (h : parseQuery query = some qe) : ∃ g', parse g query = some (qe, g') := by
  obtain ⟨kw, hWords⟩ := foldlM_add_total qe.query g.kw
  exact ⟨{ g with kw }, by simp [parse, h, foldlM_addstr, hWords]⟩

theorem parseN_total (g : Automata) {query : List UInt8} {qe : QueryExpression}
    (h : parseQuery query = some qe) : ∃ g', parseN g query = some (qe, g') := by
  obtain ⟨kwN, hWords⟩ := foldlM_add_total qe.query g.kwN
  exact ⟨{ g with kwN }, by simp [parseN, h, foldlM_addstrN, hWords]⟩

/-- `parse` and `parse_N` record every operand of a query exactly when the query does not end behind
an operator and no operand has a space inside. -/
theorem parse_records_operands (g : Automata) (query : List UInt8)
    (hLength : query.length < 256) (hOps : (query.filter isLogic).length ≤ 3) :
    (∃ qe g₁ g₂, parse g query = some (qe, g₁) ∧ parseN g query = some (qe, g₂) ∧
      qe.Records query) ↔
    (operands query).getLast? ≠ some [] ∧ ∀ operand ∈ operands query,
    32 ∉ strip operand := by
  have hQuery := parseQuery_recorded hLength hOps
  obtain ⟨g₁, hParse⟩ := parse_total g hQuery
  obtain ⟨g₂, hParseN⟩ := parseN_total g hQuery
  rw [← records_iff query]
  constructor
  · rintro ⟨qe, _, _, hRun, -, hRecords⟩
    obtain ⟨rfl, -⟩ := Prod.mk.inj (Option.some.inj (hParse.symm.trans hRun))
    exact hRecords
  · intro hRecords
    exact ⟨_, g₁, g₂, hParse, hParseN, hRecords⟩

/-- The query `ab & c`. -/
theorem parse_records_operands_two :
    ∃ qe g₁ g₂, parse initAc (ascii ['a', 'b', ' ', '&', ' ', 'c']) = some (qe, g₁) ∧
      parseN initAc (ascii ['a', 'b', ' ', '&', ' ', 'c']) = some (qe, g₂) ∧
      qe.Records (ascii ['a', 'b', ' ', '&', ' ', 'c']) :=
  (parse_records_operands initAc _ (by decide) (by decide)).mpr (by decide)

/-- The second word of `a b` is lost. -/
theorem parse_cuts_operand :
    ¬∀ (g : Automata) (query : List UInt8), query ≠ [] → query.length < 256 →
      (query.filter isLogic).length ≤ 3 →
      ∃ qe g₁ g₂, parse g query = some (qe, g₁) ∧ parseN g query = some (qe, g₂) ∧
        qe.Records query := by
  intro h
  obtain ⟨qe, g₁, g₂, hParse, -, hRecords⟩ :=
    h initAc (ascii ['a', ' ', 'b']) (by decide) (by decide) (by decide)
  have hQuery : parseQuery (ascii ['a', ' ', 'b']) =
      some ⟨[], (recorded (ascii ['a', ' ', 'b'])).map trim, ascii ['a', ' ', 'b']⟩ :=
    parseQuery_recorded (by decide) (by decide)
  obtain ⟨g', hRun⟩ := parse_total initAc hQuery
  obtain ⟨rfl, -⟩ := Prod.mk.inj (Option.some.inj (hRun.symm.trans hParse))
  exact absurd (hRecords.words 0 [97, 32, 98] (by decide)) (by decide)

/-! ### The value of a query -/

/-- The value from the first operand of a group on, when the operands of the group so far have the
value `acc`. -/
def valueFrom : Bool → List UInt8 → List Bool → Bool
  | acc, o :: ops, a :: tf => if o = 35 then acc && a || valueFrom true ops tf
    else valueFrom (acc && a) ops tf
  | acc, _, tf => acc && tf.all (· = true)

/-- The recorded operators and truth values give the value of the query. -/
theorem valueFrom_eq (query : List UInt8) (P : List UInt8 → Bool) (acc : Bool) :
    valueFrom acc (query.filter isLogic) ((operands query).map P) =
      match groups query with
      | [] => acc
      | group :: rest => acc && group.all P || rest.any (·.all P) := by
  induction query using query_induction generalizing acc with
  | single w hw =>
    have hFilter : w.filter isLogic = [] := List.filter_eq_nil_iff.mpr (by simpa using hw)
    rw [operands_single hw, groups_single hw, hFilter]
    simp [valueFrom]
  | operator w o query hw ho ih =>
    rw [operands_operator hw ho, filter_operator hw ho, List.map_cons, valueFrom]
    obtain ⟨group, rest, hGroups⟩ : ∃ group rest, groups query = group :: rest :=
      List.exists_cons_of_ne_nil fun hNil => List.splitOnP_ne_nil (· == 35) query
        (List.map_eq_nil_iff.mp hNil)
    rcases isLogic_iff.mp ho with rfl | rfl
    · rw [if_pos rfl, ih, groups_or hw, hGroups]
      simp
    · rw [if_neg (by decide), ih, groups_and hw, hGroups]
      simp [Bool.and_assoc]

/-- The branches of `match_` compute the value. -/
theorem evaluate_eq {ops : List UInt8} {tf : List Bool} (hOps : ∀ o ∈ ops, isLogic o = true)
    (hLength : tf.length = ops.length + 1) (hThree : tf.length ≤ 3) :
    evaluate ops tf = some (valueFrom true ops tf) := by
  match tf, ops with
  | [], _ => simp at hLength
  | [a], [] => cases a <;> rfl
  | [a, b], [o] => rcases isLogic_iff.mp (hOps o (by simp)) with rfl | rfl <;> revert a b <;> decide
  | [a, b, c], [o, o'] =>
    rcases isLogic_iff.mp (hOps o (by simp)) with rfl | rfl <;>
      rcases isLogic_iff.mp (hOps o' (by simp)) with rfl | rfl <;> revert a b c <;> decide
  | _ :: _ :: _ :: _ :: _, _ => simp only [List.length_cons] at hThree; omega

/-- There is no branch for four words. -/
theorem evaluate_four {ops : List UInt8} {tf : List Bool} (h : 3 < tf.length) :
    evaluate ops tf = none := by
  match tf, h with
  | _ :: _ :: _ :: _ :: _, _ => rcases ops with _ | ⟨_, _ | _⟩ <;> rfl

end Shutter.Rules
