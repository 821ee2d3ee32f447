import Shutter.RuleTrie.Match
import Shutter.Library.Run

/-! Rules of three fields, and the runs of insertions and deletions.  A rule is live from its
insertion to its next deletion, whatever happens to the rules that share nodes with it. -/

namespace Shutter.RuleTrie

open Shutter.Library

/-- A non-empty string of digits. -/
structure Digits where
  digits : List (Fin 10)
  nonempty : digits ≠ []
  deriving DecidableEq

/-- A field of a rule: `*` or digits. -/
inductive Field where
  | any
  | num (d : Digits)
  deriving DecidableEq

/-- A rule of three fields. -/
structure Rule where
  subject : Field
  action : Field
  resource : Field
  deriving DecidableEq

/-- A tuple of three strings of digits. -/
structure Tuple where
  subject : Digits
  action : Digits
  resource : Digits

/-- The bytes of the digits. -/
def Digits.bytes (d : Digits) : List UInt8 := d.digits.map fun k => UInt8.ofNat k.val + 48

def Field.bytes : Field → List UInt8
  | .any => [42]
  | .num d => d.bytes

def Rule.bytes (r : Rule) : List UInt8 :=
  joinFields r.subject.bytes r.action.bytes r.resource.bytes

def Tuple.bytes (t : Tuple) : List UInt8 :=
  joinFields t.subject.bytes t.action.bytes t.resource.bytes

/-- A field agrees with equal digits, and `*` with all digits. -/
def Field.Agrees : Field → Digits → Prop
  | .any, _ => True
  | .num d, d' => d = d'

/-- A rule agrees with a tuple field by field. -/
def Rule.Agrees (r : Rule) (t : Tuple) : Prop :=
  r.subject.Agrees t.subject ∧ r.action.Agrees t.action ∧ r.resource.Agrees t.resource

/-! ### Words -/

/-- The child that a digit leads to. -/
def digit (k : Fin 10) : Fin 12 := k.castLE (by decide)

def Digits.word (d : Digits) : Word := d.digits.map digit

def Field.word : Field → Word
  | .any => [10]
  | .num d => d.word

def Rule.word (r : Rule) : Word := r.subject.word ++ 11 :: (r.action.word ++ 11 :: r.resource.word)

def Tuple.word (t : Tuple) : Word :=
    t.subject.word ++ 11 :: (t.action.word ++ 11 :: t.resource.word)

theorem digit_injective : Function.Injective digit := by decide

theorem digit_ne (k : Fin 10) : digit k ≠ 10 ∧ digit k ≠ 11 := by
  revert k
  decide

theorem Digits.bytes_eq (d : Digits) : d.bytes = d.word.map i2c := by
  have hByte : ∀ k : Fin 10, UInt8.ofNat k.val + 48 = i2c (digit k) := by decide
  simp [Digits.bytes, Digits.word, hByte]

theorem Field.bytes_eq (f : Field) : f.bytes = f.word.map i2c := by
  cases f with
  | any => rfl
  | num d => exact d.bytes_eq

theorem Rule.bytes_eq (r : Rule) : r.bytes = r.word.map i2c := by
  have hSpace : i2c 11 = 32 := rfl
  simp [Rule.bytes, Rule.word, joinFields, Field.bytes_eq, hSpace]

theorem Tuple.bytes_eq (t : Tuple) : t.bytes = t.word.map i2c := by
  have hSpace : i2c 11 = 32 := rfl
  simp [Tuple.bytes, Tuple.word, joinFields, Digits.bytes_eq, hSpace]

theorem Digits.bytes_mem {d : Digits} {c : UInt8} (h : c ∈ d.bytes) : c ≠ 42 := by
  have hByte : ∀ k : Fin 10, UInt8.ofNat k.val + 48 ≠ 42 := by decide
  obtain ⟨k, -, rfl⟩ := List.mem_map.mp h
  exact hByte k

theorem Digits.bytes_ne_nil (d : Digits) : d.bytes ≠ [] := by
  simpa [Digits.bytes] using d.nonempty

theorem Field.bytes_any {f : Field} : f.bytes = [42] ↔ f = .any := by
  cases f with
  | any => simp [Field.bytes]
  | num d =>
    simp only [reduceCtorEq, iff_false, Field.bytes]
    intro h
    exact Digits.bytes_mem (d := d) (c := 42) (by rw [h]; simp) rfl

/-- `trie_add_rule` looks at the first byte of a field. -/
theorem Field.head_bytes {f : Field} : f.bytes.head? = some 42 ↔ f = .any := by
  cases f with
  | any => simp [Field.bytes]
  | num d =>
    obtain ⟨c, rest, hd⟩ := List.exists_cons_of_ne_nil (Digits.bytes_ne_nil d)
    have hc : c ≠ 42 := Digits.bytes_mem (d := d) (by rw [hd]; simp)
    simp [Field.bytes, hd, hc]

theorem Digits.word_injective : Function.Injective Digits.word := by
  rintro ⟨d, hd⟩ ⟨d', hd'⟩ h
  obtain rfl := digit_injective.list_map h
  rfl

theorem Digits.bytes_injective : Function.Injective Digits.bytes := by
  intro d d' h
  rw [d.bytes_eq, d'.bytes_eq] at h
  have hByte : Function.Injective i2c := fun i j hij => by
    rw [← Option.some.injEq, ← c2i_i2c i, hij, c2i_i2c]
  exact Digits.word_injective (hByte.list_map h)

theorem Digits.word_ne_star (d : Digits) : d.word ≠ [10] := fun h => by
  have hMem : (10 : Fin 12) ∈ d.word := by simp [h]
  simp [Digits.word, (digit_ne _).1] at hMem

theorem Field.word_injective : Function.Injective Field.word := by
  intro f f' h
  cases f with
  | any =>
    cases f' with
    | any => rfl
    | num d => exact absurd h.symm d.word_ne_star
  | num d =>
    cases f' with
    | any => exact absurd h d.word_ne_star
    | num d' => rw [Digits.word_injective h]

theorem Field.space_not_mem (f : Field) : 11 ∉ f.word := by
  cases f with
  | any => simp [Field.word]
  | num d => simp [Field.word, Digits.word, (digit_ne _).2]

theorem Field.split {f f' : Field} {w w' : Word} (h : f.word ++ 11 :: w = f'.word ++ 11 :: w') :
    f = f' ∧ w = w' := by
  have hTake : ∀ (g : Field) (v : Word), (g.word ++ 11 :: v).takeWhile (· ≠ 11) = g.word :=
    fun g v => by
      rw [List.takeWhile_append_of_pos fun k hk =>
        decide_eq_true (ne_of_mem_of_not_mem hk g.space_not_mem)]
      simp
  have hWord : f.word = f'.word := by rw [← hTake f w, h, hTake]
  rw [hWord, List.append_cancel_left_eq, List.cons.injEq] at h
  exact ⟨Field.word_injective hWord, h.2⟩

theorem Rule.word_injective : Function.Injective Rule.word := by
  rintro ⟨s, a, r⟩ ⟨s', a', r'⟩ h
  obtain ⟨rfl, h⟩ := Field.split h
  obtain ⟨rfl, h⟩ := Field.split h
  obtain rfl := Field.word_injective h
  rfl

/-! ### Agreement of words -/

/-- The rest of a word or of a tuple behind a field. -/
def Rest (w : Word) : Prop := w = [] ∨ ∃ v, w = 11 :: v

theorem agree_digits_iff {xs ys : List (Fin 10)} {w t : Word} (hw : Rest w) (ht : Rest t) :
    Agree (xs.map digit ++ w) (ys.map digit ++ t) ↔ xs = ys ∧ Agree w t := by
  induction xs generalizing ys with
  | nil =>
    cases ys with
    | nil => simp
    | cons y ys =>
      rw [List.map_nil, List.nil_append, List.map_cons, List.cons_append, agree_cons_iff]
      rcases hw with rfl | ⟨v, rfl⟩ <;> simp [(digit_ne y).2.symm]
  | cons x xs ih =>
    have hx := digit_ne x
    cases ys with
    | nil =>
      rw [List.map_nil, List.nil_append, List.map_cons, List.cons_append]
      rcases ht with rfl | ⟨v, rfl⟩
      · simp [agree_nil_iff]
      · rw [agree_cons_iff]
        simp [hx.1, hx.2]
    | cons y ys =>
      rw [List.map_cons, List.cons_append, List.map_cons, List.cons_append, agree_cons_iff]
      simp only [List.cons.injEq, hx.1, false_and, exists_false, or_false,
        digit_injective.eq_iff, and_assoc]
      constructor
      · rintro ⟨v, rfl, rfl, h⟩
        exact ⟨rfl, ih.mp h⟩
      · rintro ⟨rfl, h⟩
        exact ⟨_, rfl, rfl, ih.mpr h⟩

theorem dropWhile_word {d : Digits} {t : Word} (ht : Rest t) :
    (d.word ++ t).dropWhile (· ≠ 11) = t := by
  rw [List.dropWhile_append_of_pos fun k hk => ?_]
  · rcases ht with rfl | ⟨v, rfl⟩ <;> simp
  · obtain ⟨x, -, rfl⟩ := List.mem_map.mp hk
    simpa using (digit_ne x).2

theorem agree_field_iff {f : Field} {d : Digits} {w t : Word} (hw : Rest w) (ht : Rest t) :
    Agree (f.word ++ w) (d.word ++ t) ↔ f.Agrees d ∧ Agree w t := by
  cases f with
  | any =>
    obtain ⟨k, ks, hd⟩ := List.exists_cons_of_ne_nil d.nonempty
    have hWord : d.word ++ t = digit k :: (ks.map digit ++ t) := by simp [Digits.word, hd]
    have hDrop := dropWhile_word (d := d) ht
    rw [hWord] at hDrop ⊢
    rw [agree_cons_iff, hDrop]
    simp [Field.word, Field.Agrees, (digit_ne k).1.symm]
  | num d' =>
    obtain ⟨xs, hxs⟩ := d'
    obtain ⟨ys, hys⟩ := d
    simpa [Field.Agrees, Field.word, Digits.word] using agree_digits_iff hw ht

theorem agree_space_iff {w t : Word} : Agree (11 :: w) (11 :: t) ↔ Agree w t := by
  rw [agree_cons_iff]
  constructor
  · rintro (⟨v, h, hAgree⟩ | ⟨v, h, -⟩)
    · exact (List.cons.inj h).2 ▸ hAgree
    · simp at h
  · exact fun h => Or.inl ⟨w, rfl, h⟩

theorem agree_rule_iff (r : Rule) (t : Tuple) : Agree r.word t.word ↔ r.Agrees t := by
  have hLast := agree_field_iff (f := r.resource) (d := t.resource) (Or.inl rfl) (Or.inl rfl)
  rw [List.append_nil, List.append_nil] at hLast
  unfold Rule.word Tuple.word Rule.Agrees
  rw [agree_field_iff (Or.inr ⟨_, rfl⟩) (Or.inr ⟨_, rfl⟩), agree_space_iff,
    agree_field_iff (Or.inr ⟨_, rfl⟩) (Or.inr ⟨_, rfl⟩), agree_space_iff, hLast]
  simp [Agree.nil]

/-! ### Runs -/

/-- A call that changes the trie. -/
inductive Call where
  | insertForUserid (r : Rule)
  | insertForResourceid (r : Rule)
  | del (r : Rule)

/-- One call on the trie. -/
def Call.run (t : Trie) : Call → Option Trie
  | .insertForUserid r => RuleTrie.insertForUserid t r.bytes
  | .insertForResourceid r => RuleTrie.insertForResourceid t r.bytes
  | .del r => RuleTrie.del t r.bytes

/-- A call that inserts. -/
def Call.inserts : Call → Bool
  | .del _ => false
  | _ => true

/-- The rules that are live, each with the identifier of its latest insertion, and the next
identifiers of the two kinds of insertion. -/
structure LiveRules where
  live : Rule → Option Int
  userid : Int
  resourceid : Int

/-- What a call does to the live rules. -/
def LiveRules.call (rules : LiveRules) : Call → LiveRules
  | .insertForUserid r =>
    { rules with live := Function.update rules.live r (some rules.userid)
                 userid := rules.userid + 2 }
  | .insertForResourceid r =>
    { rules with live := Function.update rules.live r (some rules.resourceid)
                 resourceid := rules.resourceid + 2 }
  | .del r => { rules with live := Function.update rules.live r none }

/-- The live rules after a sequence of calls. -/
def liveRules (calls : List Call) : LiveRules :=
  calls.foldl LiveRules.call ⟨fun _ => none, 0, 1⟩

theorem liveRules_concat (calls : List Call) (call : Call) :
    liveRules (calls ++ [call]) = (liveRules calls).call call := by
  simp [liveRules]

/-- The trie below `root` stands for the insertions `ins` and the live rules. -/
structure Stands (ins : Multiset Word) (words : Word → Option Int) (live : Rule → Option Int)
    (root : Node) : Prop where
  represents : Represents root ins words
  alive : Live ins words
  nonnull : root ≠ .null
  rules : ∀ w id, words w = some id ↔ ∃ r, r.word = w ∧ live r = some id

section Steps

variable {ins : Multiset Word} {words : Word → Option Int} {live : Rule → Option Int}

theorem Stands.word {root : Node} (h : Stands ins words live root) (r : Rule) :
    words r.word = live r := by
  ext id
  rw [h.rules]
  constructor
  · rintro ⟨r', hWord, hLive⟩
    exact Rule.word_injective hWord ▸ hLive
  · exact fun hLive => ⟨r, rfl, hLive⟩

theorem rules_update (h : ∀ w id, words w = some id ↔ ∃ r, r.word = w ∧ live r = some id)
    (r : Rule) (v : Option Int) (w : Word) (id : Int) :
    Function.update words r.word v w = some id ↔
      ∃ r', r'.word = w ∧ Function.update live r v r' = some id := by
  by_cases hw : w = r.word
  · subst hw
    simp [Rule.word_injective.eq_iff]
  · rw [Function.update_of_ne hw, h]
    refine exists_congr fun r' => and_congr_right fun hr' => ?_
    rw [Function.update_of_ne]
    rintro rfl
    exact hw hr'.symm

theorem Stands.insert {root : Node} (h : Stands ins words live root) (r : Rule) {id : Int}
    (hId : id ≠ -1) (hCard : ins.card < 32767) :
    ∃ root', insertPath id root r.bytes = some root' ∧
      Stands (r.word ::ₘ ins) (Function.update words r.word (some id))
        (Function.update live r (some id)) root' := by
  obtain ⟨root', hRun, hNull, -, hRoot⟩ :=
    h.represents.insertPath r.word id h.nonnull hCard
  exact ⟨root', r.bytes_eq ▸ hRun, hRoot, h.alive.insert r.word hId, hNull,
    rules_update h.rules r _⟩

/-- A deletion leaves its rule dead, and does nothing when the rule is dead. -/
theorem Stands.del {t : Trie} (h : Stands ins words live t.trieTreeRoot) (r : Rule) :
    ∃ root' ins' words', RuleTrie.del t r.bytes = some { t with trieTreeRoot := root' } ∧
      Multiset.card ins' ≤ ins.card ∧
        Stands ins' words' (Function.update live r none) root' := by
  have hDead : live r = none → Function.update live r none = live := fun hNone =>
    Function.update_eq_self_iff.mpr hNone.symm
  rcases h.represents.follow r.word h.alive h.nonnull with
    ⟨hFollow, hNone⟩ | ⟨ref, patternId, child, hFollow, hPatternId⟩
  · rw [h.word] at hNone
    refine ⟨t.trieTreeRoot, ins, words, ?_, Nat.le_refl _, by rw [hDead hNone]; exact h⟩
    rw [RuleTrie.del, r.bytes_eq, hFollow]
    rfl
  · rw [h.word] at hPatternId
    rw [RuleTrie.del, r.bytes_eq, hFollow]
    cases hLive : live r with
    | none =>
      rw [hLive] at hPatternId
      refine ⟨t.trieTreeRoot, ins, words, ?_, Nat.le_refl _, by rw [hDead hLive]; exact h⟩
      exact if_pos hPatternId
    | some id =>
      rw [hLive] at hPatternId
      have hWord := (h.word r).trans hLive
      have hId : patternId ≠ -1 := hPatternId ▸ h.alive.id _ _ hWord
      obtain ⟨ins', rfl⟩ := Multiset.exists_cons_of_mem (h.alive.mem _ _ hWord)
      obtain ⟨root', hRun, hNull, -, hRoot⟩ := h.represents.release r.word h.nonnull
      refine ⟨root', ins', _, ?_, by simp, hRoot, h.alive.del, hNull, rules_update h.rules r _⟩
      simp [hId, hRun]

end Steps

/-- The trie holds the live rules, after at most `n` insertions. -/
structure Holds (rules : LiveRules) (n : Nat) (t : Trie) : Prop where
  stands : ∃ ins words, Multiset.card ins ≤ n ∧ Stands ins words rules.live t.trieTreeRoot
  userid : t.globalPatternIdForUserid = rules.userid ∧ 0 ≤ rules.userid
  resourceid : t.globalPatternIdForResourceid = rules.resourceid ∧ 0 ≤ rules.resourceid

theorem initTrieTree_holds : Holds (liveRules []) 0 initTrieTree where
  stands := ⟨0, fun _ => none, by simp, newNode_represents, ⟨by simp, by simp⟩, by
    simp [initTrieTree, newNode], by simp [liveRules]⟩
  userid := ⟨rfl, Int.le_refl 0⟩
  resourceid := ⟨rfl, Int.one_nonneg⟩

theorem Holds.run {rules : LiveRules} {n : Nat} {t : Trie} (h : Holds rules n t) (call : Call)
    (hBound : call.inserts = true → n < 32767) :
    ∃ t', call.run t = some t' ∧ Holds (rules.call call)
      (n + if call.inserts then 1 else 0) t' := by
  obtain ⟨⟨ins, words, hCard, hStands⟩, hUserid, hResourceid⟩ := h
  cases call with
  | insertForUserid r =>
    have hn : n < 32767 := hBound rfl
    obtain ⟨root', hRun, hRoot⟩ := hStands.insert r
      (show rules.userid ≠ -1 by omega) (by omega)
    refine ⟨{ t with trieTreeRoot := root'
                     globalPatternIdForUserid := rules.userid + 2 }, ?_,
      ⟨_, _, ?_, hRoot⟩, ⟨rfl, by simp [LiveRules.call]; omega⟩, hResourceid⟩
    · simp [Call.run, insertForUserid, hUserid.1, hRun]
    · simpa [Call.inserts] using hCard
  | insertForResourceid r =>
    have hn : n < 32767 := hBound rfl
    obtain ⟨root', hRun, hRoot⟩ := hStands.insert r
      (show rules.resourceid ≠ -1 by omega) (by omega)
    refine ⟨{ t with trieTreeRoot := root'
                     globalPatternIdForResourceid := rules.resourceid + 2 }, ?_,
      ⟨_, _, ?_, hRoot⟩, hUserid, ⟨rfl, by simp [LiveRules.call]; omega⟩⟩
    · simp [Call.run, insertForResourceid, hResourceid.1, hRun]
    · simpa [Call.inserts] using hCard
  | del r =>
    obtain ⟨root', ins', words', hRun, hCard', hRoot⟩ := hStands.del r
    exact ⟨_, hRun, ⟨ins', words', hCard'.trans hCard, hRoot⟩, hUserid, hResourceid⟩

/-- After every run of fewer than 32768 insertions, the matcher finds a rule for a tuple exactly
when a live rule agrees with it, and reports the identifier of such a rule. -/
theorem match_correct (calls : List Call) (hCalls : calls.countP Call.inserts < 32768) :
    ∃ t, calls.foldlM Call.run initTrieTree = some t ∧
      ∀ (tuple : Tuple) (id : Int), ∃ find id', match_tupe t tuple.bytes id =
        some (find, id') ∧
        (find = true ↔ ∃ r : Rule, ((liveRules calls).live r).isSome ∧ r.Agrees tuple) ∧
        (find = true → ∃ r : Rule, (liveRules calls).live r = some id' ∧ r.Agrees tuple) := by
  obtain ⟨t, hRun, ⟨ins, words, -, hStands⟩, -, -⟩ := foldlM_invariant Call.run
    (fun done t => Holds (liveRules done) (done.countP Call.inserts) t)
    calls (s := initTrieTree) initTrieTree_holds fun done call rest hSplit t ht => by
      have hBound : call.inserts = true → done.countP Call.inserts < 32767 := fun hInserts => by
        rw [hSplit, List.countP_append, List.countP_cons_of_pos hInserts] at hCalls
        omega
      obtain ⟨t', hStep, ht'⟩ := ht.run call hBound
      refine ⟨t', hStep, ?_⟩
      rw [liveRules_concat, List.countP_append, List.countP_singleton]
      exact ht'
  refine ⟨t, hRun, fun tuple id => ?_⟩
  obtain ⟨⟨find, id'⟩, hMatch, hFind, hId⟩ :=
    hStands.represents.match_ hStands.alive hStands.nonnull tuple.word (false, id)
  have hRule : ∀ id, Matching words tuple.word id ↔
      ∃ r : Rule, (liveRules calls).live r = some id ∧ r.Agrees tuple := fun id => by
    constructor
    · rintro ⟨w, hWord, hAgree⟩
      obtain ⟨r, rfl, hLive⟩ := (hStands.rules w id).mp hWord
      exact ⟨r, hLive, (agree_rule_iff r tuple).mp hAgree⟩
    · rintro ⟨r, hLive, hAgree⟩
      exact ⟨r.word, (hStands.word r).trans hLive, (agree_rule_iff r tuple).mpr hAgree⟩
  simp only [hRule, Bool.false_eq_true, false_or] at hFind hId
  refine ⟨find, id', by rw [match_tupe, tuple.bytes_eq, hMatch], ?_, fun hTrue => ?_⟩
  · rw [hFind, exists_comm]
    simp [Option.isSome_iff_exists]
  · refine hId.resolve_left fun hSame => ?_
    simp [(Prod.mk.inj hSame).1] at hTrue

/-- The rule `1 2 *`, inserted twice and deleted once, no longer matches `1 2 3`. -/
theorem match_correct_insert_insert_del :
    ∃ t, [Call.insertForUserid ⟨.num ⟨[1], by simp⟩, .num ⟨[2], by simp⟩, .any⟩,
        .insertForUserid ⟨.num ⟨[1], by simp⟩, .num ⟨[2], by simp⟩, .any⟩,
        .del ⟨.num ⟨[1], by simp⟩, .num ⟨[2], by simp⟩, .any⟩].foldlM Call.run
          initTrieTree =
        some t ∧
      ∃ id',
        match_tupe t
        (Tuple.bytes ⟨⟨[1], by simp⟩, ⟨[2], by simp⟩, ⟨[3], by simp⟩⟩) 7 =
        some (false, id') := by
  obtain ⟨t, hRun, hMatch⟩ := match_correct
    [.insertForUserid ⟨.num ⟨[1], by simp⟩, .num ⟨[2], by simp⟩, .any⟩,
      .insertForUserid ⟨.num ⟨[1], by simp⟩, .num ⟨[2], by simp⟩, .any⟩,
      .del ⟨.num ⟨[1], by simp⟩, .num ⟨[2], by simp⟩, .any⟩] (by decide)
  obtain ⟨find, id', hRes, hFind, -⟩ :=
    hMatch ⟨⟨[1], by simp⟩, ⟨[2], by simp⟩, ⟨[3], by simp⟩⟩ 7
  refine ⟨t, hRun, id', ?_⟩
  cases find with
  | false => exact hRes
  | true =>
    obtain ⟨r, hLive, -⟩ := hFind.mp rfl
    simp [liveRules, LiveRules.call] at hLive

end Shutter.RuleTrie
