import Shutter.Acsm.Bounds
import Shutter.Acsm.Search
import Shutter.Library.Placement

/-! The three searches of `acsmx.c` after a compilation.  They visit the same states, and the lists
of these hold each place of a pattern in the text once. -/

namespace Shutter.Acsm

open Shutter.Library
open scoped List

variable {acsm : AcsmStruct} {ps : List Pattern}

/-- A match as the searches store it: the bytes of the pattern and the `index`. -/
def stored (place : Pattern × Nat) : Pattern × Int := (place.1, place.2)

/-- What the searches have stored behind a part of the text: its places, in some order. -/
def Enumerates (ps : List Pattern) (t : List UInt8) (kws : List Pattern) (offs : List Int) : Prop :=
  kws.length = offs.length ∧ kws.zip offs ~ (placements ps t).map stored

theorem Enumerates.length_eq {t : List UInt8} {kws : List Pattern} {offs : List Int}
    (h : Enumerates ps t kws offs) : offs.length = (placements ps t).length := by
  have hLength := h.2.length_eq
  rw [List.length_zip, h.1, List.length_map, Nat.min_self] at hLength
  exact hLength

/-- The list of the state behind one more byte holds the places that this byte ends. -/
theorem Enumerates.concat (hNonempty : ∀ p ∈ ps, p ≠ []) {t : List UInt8} {kws : List Pattern}
    {offs : List Int} (h : Enumerates ps t kws offs) {c : UInt8} {mlist : List Pattern}
    (hList : mlist ~ ps.filter (· <:+ t ++ [c])) :
    Enumerates ps (t ++ [c]) (kws ++ mlist)
      (offs ++ mlist.map fun p => (t.length : Int) - (p.length : Int) + 1) := by
  refine ⟨by simp [h.1], ?_⟩
  have hIndex : ∀ p ∈ ps.filter (· <:+ t ++ [c]),
      (p, (t.length : Int) - (p.length : Int) + 1) = stored (p, t.length + 1 - p.length) := by
    intro p hp
    have hSuffix : p <:+ t ++ [c] := of_decide_eq_true (List.mem_filter.mp hp).2
    have hLength := hSuffix.length_le
    rw [List.length_append, List.length_singleton] at hLength
    simp only [stored, Prod.mk.injEq, true_and]
    omega
  have hZip : mlist.zip (mlist.map fun p => (t.length : Int) - (p.length : Int) + 1) =
      mlist.map fun p => (p, (t.length : Int) - (p.length : Int) + 1) :=
    List.map_prod_left_eq_zip.symm
  have hNew : mlist.map (fun p => (p, (t.length : Int) - (p.length : Int) + 1)) ~
      (ps.filter (· <:+ t ++ [c])).map fun p => stored (p, t.length + 1 - p.length) := by
    rw [← List.map_congr_left hIndex]
    exact hList.map _
  have hPlaces := (placements_concat hNonempty t c).map stored
  rw [List.map_append, List.map_map] at hPlaces
  rw [List.zip_append h.1, hZip]
  exact (h.2.append hNew).trans hPlaces.symm

/-- The loops of `acsmSearch_kw` and `acsmSearch_offset` on the rest of a text. -/
theorem Enumerates.loops {b : Build} {word : Nat → Pattern}
    (hTable : acsm.acsmStateTable = some b.toStateTable) (hCompiled : Compiled ps word b)
    (hNonempty : ∀ p ∈ ps, p ≠ []) (rest : List UInt8) {done : List UInt8} {s : Nat}
    {kws : List Pattern} {offs : List Int} (hAt : At ps word b done s)
    (h : Enumerates ps done kws offs) :
    ∃ s' kws' offs',
      rest.foldlM (fun (res : Nat × List Pattern) c => (acsm.visit res.1 c).bind fun v =>
        some (v.1, res.2 ++ v.2)) (s, kws) = some (s', kws') ∧
      rest.foldlM (fun (res : Nat × Nat × List Int) c => (acsm.visit res.1 c).bind fun v =>
        some (v.1, res.2.1 + 1, res.2.2 ++
          v.2.map fun p => (res.2.1 : Int) - (p.length : Int) + 1)) (s, done.length, offs) =
        some (s', (done ++ rest).length, offs') ∧
      Enumerates ps (done ++ rest) kws' offs' := by
  induction rest generalizing done s kws offs with
  | nil => exact ⟨s, kws, offs, rfl, by rw [List.append_nil]; rfl, by rwa [List.append_nil]⟩
  | cons c rest ih =>
    obtain ⟨next, hVisit, hNext⟩ := hCompiled.visit hTable hAt c
    obtain ⟨s', kws', offs', hKw, hOffset, hEnd⟩ := ih hNext
      (h.concat hNonempty (hCompiled.matches hNonempty hNext))
    rw [List.append_assoc, List.singleton_append] at hOffset hEnd
    rw [List.length_append, List.length_singleton] at hOffset
    refine ⟨s', kws', offs', ?_, ?_, hEnd⟩
    · rw [List.foldlM_cons, hVisit]
      exact hKw
    · rw [List.foldlM_cons, hVisit]
      exact hOffset

/-- `acsmSearch_kw` and `acsmSearch_offset` store the places of the patterns in one order. -/
theorem searches_enumerate (h : acsm.Searches ps) (hNonempty : ∀ p ∈ ps, p ≠ [])
    (tx : List UInt8) : ∃ kws offs, acsmSearchKw acsm tx = some kws ∧
      acsmSearchOffset acsm tx = some offs ∧ Enumerates ps tx kws offs := by
  obtain ⟨b, word, hTable, hCompiled⟩ := h
  have hStart : Enumerates ps [] [] [] := ⟨rfl, by rw [placements_nil]; rfl⟩
  obtain ⟨s, kws, offs, hKw, hOffset, hFound⟩ :=
    Enumerates.loops hTable hCompiled hNonempty tx hCompiled.at_nil hStart
  refine ⟨kws, offs, ?_, ?_, hFound⟩
  · have hSearch : acsmSearchKw acsm tx = (some (s, kws)).bind fun res => some res.2 := by
      rw [← hKw]
      rfl
    exact hSearch
  · have hSearch : acsmSearchOffset acsm tx =
        (some (s, ([] ++ tx).length, offs)).bind fun res => some res.2.2 := by
      rw [← hOffset]
      rfl
    exact hSearch

end Shutter.Acsm
