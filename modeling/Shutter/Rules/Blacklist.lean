import Shutter.Rules.Decision
import Shutter.RuleTrie.Loads

/-! The table `idblacklist`: the query of `sqlite.c` on it, and the rules that `trie.c` loads from
it.  A row without `*` as `Subject` or `ContentId` is not loaded, so the trie misses it. -/

namespace Shutter.Rules

open Shutter.Acsm Shutter.RuleTrie

/-- The columns that `chk_idblacklist` can test. -/
inductive Column where
  | subject
  | sname
  | action
  | controlTimeFrom
  | controlTimeTo
  | contentId
  | contentType
  deriving DecidableEq

/-- A row whose `Subject`, `Action` and `ContentId` are digits or `*`. -/
structure Row where
  rule : Rule
  rest : Column → List UInt8

/-- The texts of a row. -/
def Row.text (row : Row) : Column → List UInt8
  | .subject => row.rule.subject.bytes
  | .action => row.rule.action.bytes
  | .contentId => row.rule.resource.bytes
  | column => row.rest column

/-- `chk_idblacklist`: the number of the rows that the query selects, which tests each column whose
argument is not empty.  Without a `Subject` the text `where and` is an error, and `nrow` stays 0. -/
def chkIdblacklist (table : List Row) (subject sname action controlTimeFrom controlTimeTo contentId
    contentType : List UInt8) : Nat :=
  let conditions := [(Column.subject, subject), (.sname, sname), (.action, action),
    (.controlTimeFrom, controlTimeFrom), (.controlTimeTo, controlTimeTo), (.contentId, contentId),
    (.contentType, contentType)].filter fun condition => condition.2 ≠ []
  if subject = [] then 0
  else table.countP fun row => conditions.all fun condition =>
    row.text condition.1 = condition.2 ∨ row.text condition.1 = [42]

/-- `chk_rule`. -/
def chkRule (table : List Row) (uId sId : List UInt8) (pType : Int) (rId : List UInt8) : Nat :=
  chkIdblacklist table uId [] (decimal pType) [] [] sId [] +
    chkIdblacklist table uId [] (decimal pType) [] [] rId []

/-- `addrulefromdb`. -/
def addrulefromdb (t : Trie) (table : List Row) : Option Trie :=
  table.foldlM (fun t row => trieAddRule t (row.text .subject) (row.text .action)
    (row.text .contentId)) t

/-! ### Rows -/

/-- The column has the value or `*`. -/
def Takes (f : Field) (text : List UInt8) : Prop := f.bytes = text ∨ f = .any

/-- The row forbids the action of the user on one of the two resources. -/
def Row.Concerns (row : Row) (uId sId : List UInt8) (pType : Int) (rId : List UInt8) : Prop :=
  Takes row.rule.subject uId ∧ Takes row.rule.action (decimal pType) ∧
    (Takes row.rule.resource sId ∨ Takes row.rule.resource rId)

/-- A row that `trie_add_rule` inserts. -/
def Row.Wild (row : Row) : Prop := row.rule.subject = .any ∨ row.rule.resource = .any

instance (row : Row) : Decidable row.Wild := inferInstanceAs (Decidable (_ ∨ _))

/-- The words of the rows that are inserted. -/
def loaded (table : List Row) : Multiset Word :=
  ((table.filter fun row => row.Wild).map fun row => row.rule.word : List Word)

theorem exists_digits (text : List Char) (h : ∀ c ∈ text, c.isDigit) :
    ∃ ks : List (Fin 10), ascii text = ks.map fun k => UInt8.ofNat k.val + 48 := by
  induction text with
  | nil => exact ⟨[], rfl⟩
  | cons c text ih =>
    obtain ⟨ks, hks⟩ := ih fun c hc => h c (List.mem_cons_of_mem _ hc)
    obtain ⟨hLow, hHigh⟩ : 48 ≤ c.toNat ∧ c.toNat ≤ 57 := by
      have hDigit := h c List.mem_cons_self
      simpa [Char.isDigit, UInt32.le_iff_toNat_le] using hDigit
    refine ⟨⟨c.toNat - 48, by omega⟩ :: ks, ?_⟩
    rw [List.map_cons, ← hks]
    have hByte : UInt8.ofNat c.toNat = UInt8.ofNat (c.toNat - 48) + UInt8.ofNat 48 := by
      rw [← UInt8.ofNat_add, Nat.sub_add_cancel hLow]
    exact congrArg (· :: ascii text) hByte

/-- `%d` prints digits for a positive number. -/
theorem decimal_digits {pType : Int} (h : 0 < pType) : ∃ d : Digits, decimal pType = d.bytes := by
  obtain ⟨n, rfl⟩ := Int.eq_ofNat_of_zero_le (Int.le_of_lt h)
  have hText : (toString (n : Int)).toList = Nat.toDigits 10 n := Nat.toList_repr
  obtain ⟨ks, hks⟩ := exists_digits (Nat.toDigits 10 n) fun c hc =>
    Nat.isDigit_of_mem_toDigits (by decide) (by decide) hc
  refine ⟨⟨ks, ?_⟩, by rw [decimal, hText, hks]; rfl⟩
  rintro rfl
  simp [ascii] at hks

theorem takes_iff {f : Field} {d : Digits} : Takes f d.bytes ↔ f.Agrees d := by
  cases f with
  | any => simp [Takes, Field.Agrees]
  | num d' => simp [Takes, Field.Agrees, Field.bytes, Digits.bytes_injective.eq_iff]

/-! ### The two checks -/

theorem chkIdblacklist_pos {table : List Row} {subject action contentId : List UInt8}
    (hSubject : subject ≠ []) (hAction : action ≠ []) (hContentId : contentId ≠ []) :
    0 < chkIdblacklist table subject [] action [] [] contentId [] ↔
      ∃ row ∈ table, Takes row.rule.subject subject ∧ Takes row.rule.action action ∧
        Takes row.rule.resource contentId := by
  simp [chkIdblacklist, hSubject, hAction, hContentId, Row.text, Takes, Field.bytes_any]

/-- The trie behind `addrulefromdb`. -/
theorem addrulefromdb_loaded (table : List Row) {t : Trie} {ins : Multiset Word}
    (h : Loaded t.trieTreeRoot ins) (hNull : t.trieTreeRoot ≠ .null)
    (hUserid : 0 ≤ t.globalPatternIdForUserid)
    (hResourceid : 0 ≤ t.globalPatternIdForResourceid) :
    ∃ t', addrulefromdb t table = some t' ∧ t'.trieTreeRoot ≠ .null ∧
      Loaded t'.trieTreeRoot (ins + loaded table) := by
  induction table generalizing t ins with
  | nil => exact ⟨t, rfl, hNull, by simpa [loaded] using h⟩
  | cons row table ih =>
    have hWord : joinFields (row.text .subject) (row.text .action) (row.text .contentId) =
        row.rule.word.map i2c := row.rule.bytes_eq
    have hSubject : (row.text .subject).head? = some 42 ↔ row.rule.subject = .any :=
      Field.head_bytes
    have hResource : (row.text .contentId).head? = some 42 ↔ row.rule.resource = .any :=
      Field.head_bytes
    unfold addrulefromdb
    rw [List.foldlM_cons, trieAddRule, hWord]
    by_cases hWild : row.Wild
    · have hIns : ins + loaded (row :: table) = row.rule.word ::ₘ ins + loaded table := by
        simp [loaded, hWild, ← Multiset.cons_coe]
      rw [hIns]
      simp only [hSubject, hResource]
      by_cases hAny : row.rule.subject = .any
      · obtain ⟨root, hRun, hNull', -, hRoot⟩ := h.insertPath row.rule.word
          t.globalPatternIdForResourceid (by omega) hNull
        rw [if_pos hAny, insertForResourceid, hRun]
        exact ih hRoot hNull' hUserid
          (show 0 ≤ t.globalPatternIdForResourceid + 2 by omega)
      · obtain ⟨root, hRun, hNull', -, hRoot⟩ := h.insertPath row.rule.word
          t.globalPatternIdForUserid (by omega) hNull
        rw [if_neg hAny, if_pos (hWild.resolve_left hAny), insertForUserid, hRun]
        exact ih hRoot hNull' (show 0 ≤ t.globalPatternIdForUserid + 2 by omega) hResourceid
    · obtain ⟨hAny, hAny'⟩ := not_or.mp hWild
      have hIns : ins + loaded (row :: table) = ins + loaded table := by
        simp [loaded, hWild]
      rw [hIns]
      simp only [hSubject, hResource, if_neg hAny, if_neg hAny']
      exact ih h hNull hUserid hResourceid

/-- The trie finds a tuple by the rows that are inserted and that no count hides. -/
theorem trieChkRule_loaded {table : List Row} {t : Trie} (h : Loaded t.trieTreeRoot (loaded table))
    (hNull : t.trieTreeRoot ≠ .null) (tuple : Tuple) (id : Int) :
    ∃ find id', trieChkRule_ t tuple.subject.bytes tuple.action.bytes tuple.resource.bytes id =
        some (find, id') ∧
      (find = true ↔ ∃ row ∈ table, row.Wild ∧ Shown (loaded table) row.rule.word ∧
        row.rule.Agrees tuple) := by
  obtain ⟨⟨find, id'⟩, hRun, hFind, -⟩ := match_visible hNull tuple.word (false, id)
  refine ⟨find, id', ?_, ?_⟩
  · rw [← tuple.bytes_eq] at hRun
    exact hRun
  · simp only [Bool.false_eq_true, false_or] at hFind
    rw [hFind]
    constructor
    · rintro ⟨id, w, hVisible, hAgree⟩
      obtain ⟨hMem, hShown⟩ := (h.visible hNull).mp ⟨id, hVisible⟩
      obtain ⟨row, hRow, rfl⟩ := List.mem_map.mp (Multiset.mem_coe.mp hMem)
      obtain ⟨hRow, hWild⟩ := List.mem_filter.mp hRow
      exact ⟨row, hRow, by simpa using hWild, hShown, (agree_rule_iff _ _).mp hAgree⟩
    · rintro ⟨row, hRow, hWild, hShown, hAgrees⟩
      have hMem : row.rule.word ∈ loaded table := Multiset.mem_coe.mpr
        (List.mem_map.mpr ⟨row, List.mem_filter.mpr ⟨hRow, by simpa using hWild⟩, rfl⟩)
      obtain ⟨id, hVisible⟩ := (h.visible hNull).mpr ⟨hMem, hShown⟩
      exact ⟨id, _, hVisible, (agree_rule_iff _ _).mpr hAgrees⟩

/-- The trie that `init_trie_tree` loads from the table agrees with the table. -/
def ChecksAgree (table : List Row) (uId sId : List UInt8) (pType : Int) (rId : List UInt8) : Prop :=
  ∃ t n, addrulefromdb initTrieTree table = some t ∧
    trieChkRule t uId sId pType rId = some n ∧
    (0 < n ↔ 0 < chkRule table uId sId pType rId)

/-- The check of the trie agrees with the check of the table exactly when, if some row concerns the
tuple, a row that is inserted and that no count hides does. -/
theorem trie_check_agrees (table : List Row) (u s r : Digits) (pType : Int) (hType : 0 < pType) :
    ChecksAgree table u.bytes s.bytes pType r.bytes ↔
    ((∃ row ∈ table, row.Concerns u.bytes s.bytes pType r.bytes) →
      ∃ row ∈ table, row.Concerns u.bytes s.bytes pType r.bytes ∧ row.Wild ∧
        Shown (loaded table) row.rule.word) := by
  obtain ⟨a, hAction⟩ := decimal_digits hType
  obtain ⟨t, hLoad, hNull, hLoaded⟩ := addrulefromdb_loaded table (t := initTrieTree)
    newNode_loaded (by simp [initTrieTree, newNode]) (Int.le_refl 0) Int.one_nonneg
  rw [Multiset.zero_add] at hLoaded
  obtain ⟨find₁, id₁, hRun₁, hFind₁⟩ :=
    trieChkRule_loaded hLoaded hNull ⟨u, a, s⟩ (-1)
  obtain ⟨find₂, id₂, hRun₂, hFind₂⟩ :=
    trieChkRule_loaded hLoaded hNull ⟨u, a, r⟩ (-1)
  have hNotFound : ∀ d : Digits, orNotFound d.bytes = d.bytes := fun d => if_neg d.bytes_ne_nil
  have hCheck : trieChkRule t u.bytes s.bytes pType r.bytes =
      some (find₁.toNat + find₂.toNat) := by
    have hZero : pType ≠ 0 := by omega
    simp [trieChkRule, hZero, hNotFound, hAction, hRun₁, hRun₂]
  have hConcerns : ∀ row : Row, row.Concerns u.bytes s.bytes pType r.bytes ↔
      row.rule.Agrees ⟨u, a, s⟩ ∨ row.rule.Agrees ⟨u, a, r⟩ := by
    intro row
    simp only [Row.Concerns, hAction, takes_iff, Rule.Agrees]
    tauto
  have hTrie : 0 < find₁.toNat + find₂.toNat ↔ ∃ row ∈ table,
      row.Concerns u.bytes s.bytes pType r.bytes ∧ row.Wild ∧
        Shown (loaded table) row.rule.word := by
    have hPos : 0 < find₁.toNat + find₂.toNat ↔ find₁ = true ∨ find₂ = true := by
      cases find₁ <;> cases find₂ <;> simp
    simp only [hPos, hFind₁, hFind₂, hConcerns]
    constructor
    · rintro (⟨row, hRow, hWild, hShown, hAgrees⟩ | ⟨row, hRow, hWild, hShown, hAgrees⟩)
      · exact ⟨row, hRow, Or.inl hAgrees, hWild, hShown⟩
      · exact ⟨row, hRow, Or.inr hAgrees, hWild, hShown⟩
    · rintro ⟨row, hRow, hAgrees | hAgrees, hWild, hShown⟩
      · exact Or.inl ⟨row, hRow, hWild, hShown, hAgrees⟩
      · exact Or.inr ⟨row, hRow, hWild, hShown, hAgrees⟩
  have hTable : 0 < chkRule table u.bytes s.bytes pType r.bytes ↔
      ∃ row ∈ table, row.Concerns u.bytes s.bytes pType r.bytes := by
    rw [chkRule, hAction, Nat.add_pos_iff_pos_or_pos,
      chkIdblacklist_pos u.bytes_ne_nil a.bytes_ne_nil s.bytes_ne_nil,
      chkIdblacklist_pos u.bytes_ne_nil a.bytes_ne_nil r.bytes_ne_nil]
    simp only [hConcerns, takes_iff, Rule.Agrees]
    constructor
    · rintro (⟨row, hRow, hAgrees⟩ | ⟨row, hRow, hAgrees⟩)
      · exact ⟨row, hRow, Or.inl hAgrees⟩
      · exact ⟨row, hRow, Or.inr hAgrees⟩
    · rintro ⟨row, hRow, hAgrees | hAgrees⟩
      · exact Or.inl ⟨row, hRow, hAgrees⟩
      · exact Or.inr ⟨row, hRow, hAgrees⟩
  constructor
  · rintro ⟨t', n, hLoad', hCheck', hIff⟩ hSome
    obtain rfl := Option.some.inj (hLoad.symm.trans hLoad')
    obtain rfl := Option.some.inj (hCheck.symm.trans hCheck')
    exact hTrie.mp (hIff.mpr (hTable.mpr hSome))
  · intro h
    refine ⟨t, _, hLoad, hCheck, fun hPos => ?_, fun hPos => hTrie.mpr (h (hTable.mp hPos))⟩
    obtain ⟨row, hRow, hConcern, -⟩ := hTrie.mp hPos
    exact hTable.mpr ⟨row, hRow, hConcern⟩

/-- The row `* 8 3`, and a user who adds a friend. -/
theorem trie_check_agrees_any :
    ChecksAgree [⟨⟨.any, .num ⟨[8], by simp⟩, .num ⟨[3], by simp⟩⟩, fun _ => []⟩]
      (Digits.bytes ⟨[1], by simp⟩) (Digits.bytes ⟨[2], by simp⟩) 8
      (Digits.bytes ⟨[3], by simp⟩) := by
  refine (trie_check_agrees _ ⟨[1], by simp⟩ ⟨[2], by simp⟩ ⟨[3], by simp⟩ 8
    (by decide)).mpr ?_
  rintro ⟨row, hRow, hConcerns⟩
  have hWild : row.Wild := by
    rw [List.mem_singleton.mp hRow]
    exact Or.inl rfl
  refine ⟨row, hRow, hConcerns, hWild, shown_of_card_lt ?_ ?_⟩
  · exact Multiset.mem_coe.mpr
      (List.mem_map.mpr ⟨row, List.mem_filter.mpr ⟨hRow, by simpa using hWild⟩, rfl⟩)
  · decide

/-- The row `1 2 3` concerns user 1, action 2 and resource 3, and is not loaded. -/
theorem trie_check_misses_row :
    ¬∀ (table : List Row) (u s r : Digits) (pType : Int), 0 < pType →
      ChecksAgree table u.bytes s.bytes pType r.bytes := by
  intro h
  obtain ⟨t, n, hLoad, hCheck, hIff⟩ := h
    [⟨⟨.num ⟨[1], by simp⟩, .num ⟨[2], by simp⟩, .num ⟨[3], by simp⟩⟩,
      fun _ => []⟩]
    ⟨[1], by simp⟩ ⟨[3], by simp⟩ ⟨[3], by simp⟩ 2 (by decide)
  obtain rfl := Option.some.inj hLoad
  have hMiss : trieChkRule initTrieTree (Digits.bytes ⟨[1], by simp⟩)
    (Digits.bytes ⟨[3], by simp⟩)
      2 (Digits.bytes ⟨[3], by simp⟩) = some 0 := by decide
  obtain rfl := Option.some.inj (hMiss.symm.trans hCheck)
  exact absurd (hIff.mpr (by decide)) (Nat.lt_irrefl 0)

end Shutter.Rules
