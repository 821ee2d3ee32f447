import Shutter.Acsm.Search
import Mathlib.Data.Multiset.AddSub

/-! The double-buffered automata of `string_matcher.c`.  An update changes the pattern list of the
spare automaton, hands the list to the active one, compiles the spare and swaps the two.  Seen from
outside the pair is a multiset of keywords. -/

namespace Shutter.StringMatcher

open Shutter.Acsm Shutter.Library

/-- Two automata: `a` is the active one, `b` the spare. -/
structure Buffers where
  a : AcsmStruct
  b : AcsmStruct

/-- The pairs `A` and `B`, `NA` and `NB`, `URL_A` and `URL_B`. -/
structure Automata where
  kw : Buffers
  kwN : Buffers
  url : Buffers

/-- `init_ac`, with empty tables in the database. -/
def initAc : Automata :=
    ⟨⟨acsmNew, acsmNew⟩, ⟨acsmNew, acsmNew⟩, ⟨acsmNew, acsmNew⟩⟩

/-! ### Updates -/

/-- The end of an update: the active automaton takes the list of the spare one, the spare one is
compiled, and the two swap. -/
def Buffers.publish (m : Buffers) : Option Buffers := do
  let b ← acsmCompile m.b
  some ⟨b, { m.a with acsmPatterns := m.b.acsmPatterns }⟩

/-- The body of `addstr`, `addstr_N` and `addurl`. -/
def Buffers.add (m : Buffers) (s : List UInt8) : Option Buffers :=
  Buffers.publish ⟨m.a, acsmAddPattern m.b (cstr s)⟩

/-- The body of `delstr`, `delstr_N` and `delurl`. -/
def Buffers.del (m : Buffers) (s : List UInt8) : Option Buffers := do
  let b ← acsmDelPattern m.b (cstr s)
  Buffers.publish ⟨m.a, b⟩

/-- `addstr`. -/
def addstr (g : Automata) (s : List UInt8) : Option Automata := do
  let kw ← g.kw.add s
  some { g with kw }

/-- `addstr_N`. -/
def addstrN (g : Automata) (s : List UInt8) : Option Automata := do
  let kwN ← g.kwN.add s
  some { g with kwN }

/-- `addurl`. -/
def addurl (g : Automata) (s : List UInt8) : Option Automata := do
  let url ← g.url.add s
  some { g with url }

/-- `delstr`. -/
def delstr (g : Automata) (s : List UInt8) : Option Automata := do
  let kw ← g.kw.del s
  some { g with kw }

/-- `delstr_N`. -/
def delstrN (g : Automata) (s : List UInt8) : Option Automata := do
  let kwN ← g.kwN.del s
  some { g with kwN }

/-- `delurl`. -/
def delurl (g : Automata) (s : List UInt8) : Option Automata := do
  let url ← g.url.del s
  some { g with url }

/-! ### Searches -/

/-- `kw_match`. -/
def kwMatch (g : Automata) (s : List UInt8) : Option Nat := acsmSearch g.kw.a (cstr s)

/-- `kw_match_N`. -/
def kwMatchN (g : Automata) (s : List UInt8) : Option Nat := acsmSearch g.kwN.a (cstr s)

/-- `url_match`. -/
def urlMatch (g : Automata) (s : List UInt8) : Option Nat := acsmSearch g.url.a (cstr s)

/-- `get_keywords`. -/
def getKeywords (g : Automata) (s : List UInt8) : Option (List Pattern) :=
  acsmSearchKw g.kw.a (cstr s)

/-- `get_keywords_N`. -/
def getKeywordsN (g : Automata) (s : List UInt8) : Option (List Pattern) :=
  acsmSearchKw g.kwN.a (cstr s)

/-! ### One pair of automata -/

/-- A keyword that an automaton can hold: not empty, and a C string. -/
def Keyword (s : List UInt8) : Prop := s ≠ [] ∧ 0 ∉ s

instance (s : List UInt8) : Decidable (Keyword s) :=
  inferInstanceAs (Decidable (s ≠ [] ∧ 0 ∉ s))

/-- The two automata share a list of keywords. -/
structure Buffers.Shared (m : Buffers) (ps : List Pattern) : Prop where
  active : m.a.acsmPatterns = ps
  spare : m.b.acsmPatterns = ps
  keyword : ∀ p ∈ ps, Keyword p

/-- The automata share a list, and the active one is compiled from it. -/
structure Buffers.Published (m : Buffers) (ps : List Pattern) : Prop extends m.Shared ps where
  searches : m.a.Searches ps

variable {m : Buffers} {ps : List Pattern} {s : List UInt8}

/-- Whatever the active automaton was, an update leaves the one of the list of the spare. -/
theorem Buffers.publish_published (hSpare : m.b.acsmPatterns = ps)
    (hKeyword : ∀ p ∈ ps, Keyword p) : ∃ m', m.publish = some m' ∧ m'.Published ps := by
  obtain ⟨b, hCompile, hPatterns, hSearches⟩ := acsmCompile_searches m.b
  refine ⟨⟨b, { m.a with acsmPatterns := m.b.acsmPatterns }⟩, ?_, ?_⟩
  · rw [Buffers.publish, hCompile]
    rfl
  · exact ⟨⟨hPatterns.trans hSpare, hSpare, hKeyword⟩, hSpare ▸ hSearches⟩

theorem Buffers.Shared.add (h : m.Shared ps) (hs : Keyword s) :
    ∃ m', m.add s = some m' ∧ m'.Published (s :: ps) := by
  refine Buffers.publish_published ?_ fun p hp => ?_
  · simp [acsmAddPattern, h.spare, cstr_eq hs.2]
  · rcases List.mem_cons.mp hp with rfl | hp
    · exact hs
    · exact h.keyword p hp

theorem Buffers.Shared.del (h : m.Shared ps) (hs : Keyword s) (hNonempty : ps ≠ []) :
    ∃ m', m.del s = some m' ∧ m'.Published (ps.erase s) := by
  have hDel : acsmDelPattern m.b (cstr s) = some { m.b with acsmPatterns := ps.erase s } := by
    rw [acsmDelPattern, h.spare, cstr_eq hs.2]
    obtain ⟨p, ps, rfl⟩ := List.exists_cons_of_ne_nil hNonempty
    rw [unlink_eq_erase hs.2 fun q hq => (h.keyword q hq).2]
  rw [Buffers.del, hDel]
  exact Buffers.publish_published (m := ⟨m.a, { m.b with acsmPatterns := ps.erase s }⟩) rfl
    fun p hp => h.keyword p (List.mem_of_mem_erase hp)

theorem Buffers.Published.search (h : m.Published ps) (t : List UInt8) :
    acsmSearch m.a t = some (occurrences ps t) :=
  acsmSearch_eq h.searches (fun p hp => (h.keyword p hp).1) t

/-! ### Runs -/

/-- A call that updates the keywords. -/
inductive Call where
  | addstr (s : List UInt8)
  | delstr (s : List UInt8)

/-- The string of a call. -/
def Call.string : Call → List UInt8
  | .addstr s => s
  | .delstr s => s

/-- One call on the automata. -/
def Call.run (g : Automata) : Call → Option Automata
  | .addstr s => StringMatcher.addstr g s
  | .delstr s => StringMatcher.delstr g s

/-- The keywords that a call leaves, as a multiset: an added string once more, a deleted string
once less. -/
def Call.keywords (ks : Multiset Pattern) : Call → Multiset Pattern
  | .addstr s => s ::ₘ ks
  | .delstr s => ks.erase s

/-- The keywords after a sequence of calls. -/
def keywords (calls : List Call) : Multiset Pattern := calls.foldl Call.keywords 0

theorem keywords_concat (calls : List Call) (call : Call) :
    keywords (calls ++ [call]) = call.keywords (keywords calls) := by
  simp [keywords]

/-- The pair `A`, `B` holds a multiset of keywords. -/
structure Holds (ks : Multiset Pattern) (g : Automata) : Prop where
  shared : g.kw.Shared g.kw.a.acsmPatterns
  keywords : (g.kw.a.acsmPatterns : Multiset Pattern) = ks

/-- One call takes the keywords to those that the multiset says, and publishes them. -/
theorem Holds.run {ks : Multiset Pattern} {g : Automata} (h : Holds ks g) {call : Call}
    (hCall : Keyword call.string) (hDel : ∀ s, call = .delstr s → ks ≠ 0) :
    ∃ g', call.run g = some g' ∧ Holds (call.keywords ks) g' ∧
      g'.kw.Published g'.kw.a.acsmPatterns := by
  cases call with
  | addstr s =>
    obtain ⟨m, hRun, hPublished⟩ := h.shared.add (s := s) hCall
    refine ⟨{ g with kw := m }, ?_, ?_, ?_⟩
    · rw [Call.run, StringMatcher.addstr, hRun]
      rfl
    · refine ⟨by rw [hPublished.active]; exact hPublished.toShared, ?_⟩
      rw [hPublished.active, ← Multiset.cons_coe, h.keywords]
      rfl
    · rw [hPublished.active]
      exact hPublished
  | delstr s =>
    have hNonempty : g.kw.a.acsmPatterns ≠ [] := fun hNil =>
      hDel s rfl (by rw [← h.keywords, hNil, Multiset.coe_nil])
    obtain ⟨m, hRun, hPublished⟩ := h.shared.del (s := s) hCall hNonempty
    refine ⟨{ g with kw := m }, ?_, ?_, ?_⟩
    · rw [Call.run, StringMatcher.delstr, hRun]
      rfl
    · refine ⟨by rw [hPublished.active]; exact hPublished.toShared, ?_⟩
      rw [hPublished.active, Call.keywords, ← h.keywords, Multiset.coe_erase]
      congr 2
      exact lawful_beq_subsingleton _ _
    · rw [hPublished.active]
      exact hPublished

end Shutter.StringMatcher
