import Mathlib.Data.List.Basic
import Mathlib.Algebra.Ring.Int.Defs

/-! The allocator of `MemoryManager.c` and `Arena.c`, without its counters.  A block comes from the
front of the current arena, and a request that does not fit opens one arena of twice the size.  The
blocks of a run lie apart and inside the arenas, but `bytes` starts behind the four bytes of `size`,
so no block is aligned to a pointer. -/

namespace Shutter.MemoryManager

/-- The value of a `long` as an `int`. -/
def toInt (x : Int) : Int := (x + 2 ^ 31) % 2 ^ 32 - 2 ^ 31

/-- `sizeof(void*)`. -/
def pointerSize : Int := 8

/-- `bitToClear`. -/
def bitToClear : Int := pointerSize - 1

/-- `(size + bitToClear) & ~bitToClear`. -/
def clearBits (size : Int) : Int := (size + bitToClear) / pointerSize * pointerSize

/-- `size = (size + bitToClear) & ~bitToClear`, on an `int`. -/
def roundUp (size : Int) : Int := toInt (clearBits size)

/-- `defaultArenaSize`. -/
def defaultArenaSize : Int := 2 ^ 27

/-- The offset of `bytes` in an `Arena`, behind three pointers and an `int`. -/
def bytesOffset : Int := 3 * pointerSize + 4

/-- `arenaHeaderSize`. -/
def arenaHeaderSize : Int := clearBits bytesOffset

/-- `struct Arena`, at the address that `malloc` returned. -/
structure Arena where
  address : Int
  free : Int
  last : Int
  size : Int

/-- The end of the storage of an arena. -/
def Arena.storageEnd (a : Arena) : Int := a.address + (a.size + arenaHeaderSize)

/-- `alloc_from_arena`, with the arena that it leaves. -/
def allocFromArena (arena : Arena) (size : Int) : Option Int × Arena :=
  if size = 0 then (none, arena)
  else
    let size := roundUp size
    if arena.last < arena.free + size then (none, arena)
    else (some arena.free, { arena with free := arena.free + size })

section Malloc

-- the address that `malloc` returns for a number of bytes, with these arenas in use
variable (malloc : List Arena → Int → Int)

/-- `new_arena`. -/
def newArena (size : Int) (next : List Arena) : List Arena :=
  let size := roundUp size
  let size := if size < defaultArenaSize then defaultArenaSize else size
  let arena := malloc next (size + arenaHeaderSize)
  ⟨arena, arena + bytesOffset, arena + bytesOffset + size, size⟩ :: next

/-- `new_memory_manager`: its arenas, the current one first. -/
def newMemoryManager : List Arena := newArena malloc defaultArenaSize []

/-- The arenas of `alloc_from_mm` when it looks for the bytes. -/
def arenaFor (size : Int) (mm : List Arena) : List Arena :=
  let mm := if mm.isEmpty then newArena malloc size mm else mm
  match mm with
  | [] => []
  | arena :: next =>
    if arena.last < arena.free + size then
      newArena malloc (toInt (2 * arena.size)) (arena :: next)
    else arena :: next

/-- `alloc_from_mm`. -/
def allocFromMm (mm : List Arena) (size : Int) : Option Int × List Arena :=
  if size = 0 then (none, mm)
  else
    let size := roundUp size
    match arenaFor malloc size mm with
    | [] => (none, [])
    | arena :: next =>
      let (block, arena) := allocFromArena arena size
      (block, arena :: next)

/-- A request and the block that it got. -/
structure Served where
  size : Int
  block : Option Int

/-- A sequence of requests, and the arenas behind them. -/
def serve (mm : List Arena) : List Int → List Served × List Arena
  | [] => ([], mm)
  | size :: sizes =>
    let (block, mm) := allocFromMm malloc mm size
    let (rest, mm) := serve mm sizes
    (⟨size, block⟩ :: rest, mm)

end Malloc

/-! ### One call -/

theorem roundUp_dvd (size : Int) : pointerSize ∣ roundUp size := by
  have h : pointerSize ∣ clearBits size := Int.dvd_mul_left _ _
  unfold roundUp toInt
  unfold pointerSize at h ⊢
  omega

theorem roundUp_range (size : Int) : -2 ^ 31 ≤ roundUp size ∧ roundUp size < 2 ^ 31 := by
  unfold roundUp toInt
  omega

theorem roundUp_of_dvd {size : Int} (h : pointerSize ∣ size) (hLow : -2 ^ 31 ≤ size)
    (hHigh : size < 2 ^ 31) : roundUp size = size := by
  unfold roundUp toInt clearBits bitToClear
  unfold pointerSize at h ⊢
  omega

/-- A size is rounded once more, which does not change it. -/
@[simp] theorem roundUp_roundUp (size : Int) : roundUp (roundUp size) = roundUp size :=
  roundUp_of_dvd (roundUp_dvd size) (roundUp_range size).1 (roundUp_range size).2

/-- Only the last seven sizes are rounded to a negative one. -/
theorem le_roundUp {size : Int} (hPos : 0 < size) (hFits : size ≤ 2 ^ 31 - 8) :
    size ≤ roundUp size := by
  unfold roundUp toInt clearBits bitToClear pointerSize
  omega

section Call

variable {mm : List Arena}

theorem arenaFor_cases (malloc : List Arena → Int → Int) (size : Int) (arena : Arena)
    (next : List Arena) :
    arenaFor malloc size (arena :: next) = arena :: next ∨
      arenaFor malloc size (arena :: next) =
        newArena malloc (toInt (2 * arena.size)) (arena :: next) := by
  unfold arenaFor
  simp only [List.isEmpty_cons, Bool.false_eq_true, if_false]
  split
  · exact Or.inr rfl
  · exact Or.inl rfl

/-- A call goes to the current arena or to a new one, which has the bytes or not. -/
theorem allocFromMm_cases (malloc : List Arena → Int → Int) {size : Int} (hSize : size ≠ 0)
    (hmm : mm ≠ []) :
    ∃ arena next, (mm = arena :: next ∨
        ∃ size, arena :: next = newArena malloc size mm) ∧
      (allocFromMm malloc mm size = (none, arena :: next) ∨
        arena.free + roundUp size ≤ arena.last ∧ allocFromMm malloc mm size =
          (some arena.free, { arena with free := arena.free + roundUp size } :: next)) := by
  obtain ⟨first, others, rfl⟩ := List.exists_cons_of_ne_nil hmm
  have hCall : ∀ arena next, arenaFor malloc (roundUp size) (first :: others) = arena :: next →
      allocFromMm malloc (first :: others) size = (none, arena :: next) ∨
        arena.free + roundUp size ≤ arena.last ∧ allocFromMm malloc (first :: others) size =
          (some arena.free, { arena with free := arena.free + roundUp size } :: next) := by
    intro arena next hArenas
    simp only [allocFromMm, if_neg hSize, hArenas, allocFromArena, roundUp_roundUp]
    by_cases hZero : roundUp size = 0
    · simp [hZero]
    · by_cases hFull : arena.last < arena.free + roundUp size
      · simp [hZero, hFull]
      · rw [if_neg hZero, if_neg hFull]
        exact Or.inr ⟨Int.not_lt.mp hFull, rfl⟩
  rcases arenaFor_cases malloc (roundUp size) first others with hSame | hNew
  · exact ⟨first, others, Or.inl rfl, hCall first others hSame⟩
  · exact ⟨_, first :: others, Or.inr ⟨toInt (2 * first.size), rfl⟩, hCall _ _ hNew⟩

end Call

/-! ### Alignment -/

/-- The free bytes of every arena start four bytes behind a multiple of the pointer size. -/
def Shifted (mm : List Arena) : Prop := ∀ a ∈ mm, a.free % pointerSize = 4

/-- `malloc` returns storage that is aligned and apart from the storage in use. -/
structure Suitable (malloc : List Arena → Int → Int) : Prop where
  aligned : ∀ arenas bytes, pointerSize ∣ malloc arenas bytes
  apart : ∀ arenas bytes, ∀ a ∈ arenas,
    a.storageEnd ≤ malloc arenas bytes ∨ malloc arenas bytes + bytes ≤ a.address

section Run

variable {malloc : List Arena → Int → Int} {mm : List Arena}

/-- A new arena has at least the default size, and `free` at its `bytes`. -/
theorem newArena_eq (malloc : List Arena → Int → Int) (size : Int) (mm : List Arena) :
    ∃ bytes, defaultArenaSize ≤ bytes ∧
      newArena malloc size mm = ⟨malloc mm (bytes + arenaHeaderSize),
        malloc mm (bytes + arenaHeaderSize) + bytesOffset,
        malloc mm (bytes + arenaHeaderSize) + bytesOffset + bytes, bytes⟩ :: mm := by
  refine ⟨_, ?_, rfl⟩
  split
  · exact Int.le_refl _
  · omega

theorem newArena_shifted (hMalloc : Suitable malloc) (h : Shifted mm) (size : Int) :
    Shifted (newArena malloc size mm) := by
  obtain ⟨bytes, -, hNew⟩ := newArena_eq malloc size mm
  rw [hNew]
  intro a ha
  rcases List.mem_cons.mp ha with rfl | ha
  · have hDvd := hMalloc.aligned mm (bytes + arenaHeaderSize)
    simp only [bytesOffset, pointerSize] at hDvd ⊢
    omega
  · exact h a ha

theorem allocFromMm_shifted (hMalloc : Suitable malloc) (hmm : mm ≠ []) (h : Shifted mm)
    {size : Int} (hSize : size ≠ 0) :
    (allocFromMm malloc mm size).2 ≠ [] ∧ Shifted (allocFromMm malloc mm size).2 ∧
      ∀ p, (allocFromMm malloc mm size).1 = some p → p % pointerSize = 4 := by
  obtain ⟨arena, next, hFrom, hCall⟩ := allocFromMm_cases malloc hSize hmm
  have hArenas : Shifted (arena :: next) := by
    rcases hFrom with rfl | ⟨size, hNew⟩
    · exact h
    · rw [hNew]
      exact newArena_shifted hMalloc h size
  rcases hCall with hCall | ⟨-, hCall⟩
  · rw [hCall]
    exact ⟨by simp, hArenas, by simp⟩
  · rw [hCall]
    have hFree := hArenas arena List.mem_cons_self
    refine ⟨by simp, fun a ha => ?_, fun p hp => ?_⟩
    · rcases List.mem_cons.mp ha with rfl | ha
      · have hDvd := roundUp_dvd size
        unfold pointerSize at hFree hDvd ⊢
        simp only
        omega
      · exact hArenas a (List.mem_cons_of_mem _ ha)
    · obtain rfl := Option.some.inj hp
      exact hFree

/-! ### The layout of the blocks -/

/-- Two requests whose blocks do not share a byte. -/
def Served.Apart (b c : Served) : Prop :=
  ∀ p q, b.block = some p → c.block = some q → p + b.size ≤ q ∨ q + c.size ≤ p

/-- The arenas lie apart, and the blocks in their used bytes, apart from each other. -/
structure Laid (mm : List Arena) (blocks : List Served) : Prop where
  bounds : ∀ a ∈ mm, a.address + bytesOffset ≤ a.free ∧ a.free ≤ a.last ∧
    a.last = a.address + bytesOffset + a.size
  arenas : mm.Pairwise fun a b => a.storageEnd ≤ b.address ∨ b.storageEnd ≤ a.address
  inside : ∀ b ∈ blocks, ∀ p, b.block = some p →
    ∃ a ∈ mm, a.address + bytesOffset ≤ p ∧ p + b.size ≤ a.free
  blocks : blocks.Pairwise Served.Apart

theorem newArena_laid (hMalloc : Suitable malloc) {blocks : List Served} (h : Laid mm blocks)
    (size : Int) : Laid (newArena malloc size mm) blocks := by
  obtain ⟨bytes, hLe, hNew⟩ := newArena_eq malloc size mm
  have hBytes : 0 ≤ bytes := Int.le_trans (by decide) hLe
  rw [hNew]
  refine ⟨fun a ha => ?_, List.pairwise_cons.mpr ⟨fun a ha => ?_, h.arenas⟩,
    fun b hb p hp => ?_,
    h.blocks⟩
  · rcases List.mem_cons.mp ha with rfl | ha
    · exact ⟨Int.le_refl _, Int.le_add_of_nonneg_right hBytes, rfl⟩
    · exact h.bounds a ha
  · have := hMalloc.apart mm (bytes + arenaHeaderSize) a ha
    unfold Arena.storageEnd at this ⊢
    simp only
    omega
  · obtain ⟨a, ha, hInside⟩ := h.inside b hb p hp
    exact ⟨a, List.mem_cons_of_mem _ ha, hInside⟩

/-- A block from the front of the current arena lies behind its blocks, and apart from the
others. -/
theorem Laid.push {arena : Arena} {next : List Arena} {blocks : List Served}
    (h : Laid (arena :: next) blocks) {size bytes : Int} (hSize : 0 ≤ size) (hLe : size ≤ bytes)
    (hFits : arena.free + bytes ≤ arena.last) :
    Laid ({ arena with free := arena.free + bytes } :: next)
      (blocks ++ [⟨size, some arena.free⟩]) := by
  obtain ⟨hFirst, hOthers⟩ := List.pairwise_cons.mp h.arenas
  have hBounds := h.bounds arena List.mem_cons_self
  refine ⟨fun a ha => ?_, List.pairwise_cons.mpr ⟨hFirst, hOthers⟩, fun b hb p hp => ?_,
    List.pairwise_append.mpr ⟨h.blocks, List.pairwise_singleton _ _, fun b hb c hc => ?_⟩⟩
  · rcases List.mem_cons.mp ha with rfl | ha
    · simp only
      omega
    · exact h.bounds a (List.mem_cons_of_mem _ ha)
  · rcases List.mem_append.mp hb with hb | hb
    · obtain ⟨a, ha, hLow, hHigh⟩ := h.inside b hb p hp
      rcases List.mem_cons.mp ha with rfl | ha
      · exact ⟨_, List.mem_cons_self, hLow, by simp only; omega⟩
      · exact ⟨a, List.mem_cons_of_mem _ ha, hLow, hHigh⟩
    · obtain rfl := List.mem_singleton.mp hb
      obtain rfl := Option.some.inj hp
      exact ⟨_, List.mem_cons_self, hBounds.1, by simp only; omega⟩
  · obtain rfl := List.mem_singleton.mp hc
    rintro p q hp hq
    obtain rfl := Option.some.inj hq
    obtain ⟨a, ha, hLow, hHigh⟩ := h.inside b hb p hp
    rcases List.mem_cons.mp ha with rfl | ha
    · exact Or.inl hHigh
    · -- the blocks of another arena end in front of its storage, which lies apart
      have hApart := hFirst a ha
      have hOther := h.bounds a (List.mem_cons_of_mem _ ha)
      unfold Arena.storageEnd arenaHeaderSize clearBits bitToClear bytesOffset pointerSize
        at hApart
      unfold bytesOffset pointerSize at hBounds hOther hLow
      simp only
      omega

theorem Laid.refuse {blocks : List Served} (h : Laid mm blocks) (size : Int) :
    Laid mm (blocks ++ [⟨size, none⟩]) := by
  refine ⟨h.bounds, h.arenas, fun b hb p hp => ?_, List.pairwise_append.mpr
    ⟨h.blocks, List.pairwise_singleton _ _, fun b _ c hc p q _ hq => ?_⟩⟩
  · rcases List.mem_append.mp hb with hb | hb
    · exact h.inside b hb p hp
    · obtain rfl := List.mem_singleton.mp hb
      cases hp
  · obtain rfl := List.mem_singleton.mp hc
    cases hq

theorem allocFromMm_laid (hMalloc : Suitable malloc) (hmm : mm ≠ []) {blocks : List Served}
    (h : Laid mm blocks) {size : Int} (hPos : 0 < size) (hFits : size ≤ 2 ^ 31 - 8) :
    Laid (allocFromMm malloc mm size).2
      (blocks ++ [⟨size, (allocFromMm malloc mm size).1⟩]) := by
  obtain ⟨arena, next, hFrom, hCall⟩ :=
    allocFromMm_cases malloc (show size ≠ 0 by omega) hmm
  have hArenas : Laid (arena :: next) blocks := by
    rcases hFrom with rfl | ⟨size, hNew⟩
    · exact h
    · rw [hNew]
      exact newArena_laid hMalloc h size
  rcases hCall with hCall | ⟨hRoom, hCall⟩
  · rw [hCall]
    exact hArenas.refuse size
  · rw [hCall]
    exact hArenas.push (by omega) (le_roundUp hPos hFits) hRoom

/-- A run of requests that are not rounded to a negative size hands out blocks that lie in the
storage of the arenas and apart from each other. -/
theorem serve_laid (hMalloc : Suitable malloc) {sizes : List Int}
    (hSizes : ∀ s ∈ sizes, 0 < s ∧ s ≤ 2 ^ 31 - 8) (hmm : mm ≠ []) {blocks : List Served}
    (h : Laid mm blocks) :
    Laid (serve malloc mm sizes).2 (blocks ++ (serve malloc mm sizes).1) := by
  induction sizes generalizing mm blocks with
  | nil => simpa [serve] using h
  | cons size sizes ih =>
    obtain ⟨hPos, hFits⟩ := hSizes size List.mem_cons_self
    have hNext : (allocFromMm malloc mm size).2 ≠ [] := by
      obtain ⟨arena, next, -, hCall | ⟨-, hCall⟩⟩ :=
        allocFromMm_cases malloc (show size ≠ 0 by omega) hmm
      · simp [hCall]
      · simp [hCall]
    have hRest := ih (fun s hs => hSizes s (List.mem_cons_of_mem _ hs)) hNext
      (allocFromMm_laid hMalloc hmm h hPos hFits)
    rw [List.append_assoc] at hRest
    exact hRest

/-! ### The blocks of a new manager -/

theorem newMemoryManager_ne_nil : newMemoryManager malloc ≠ [] := List.cons_ne_nil _ _

/-- Whatever a new manager hands out for these sizes lies in its arenas, and apart. -/
theorem newMemoryManager_laid (hMalloc : Suitable malloc) {sizes : List Int}
    (hSizes : ∀ s ∈ sizes, 0 < s ∧ s ≤ 2 ^ 31 - 8) :
    Laid (serve malloc (newMemoryManager malloc) sizes).2
      (serve malloc (newMemoryManager malloc) sizes).1 := by
  have hStart : Laid (newMemoryManager malloc) [] :=
    newArena_laid hMalloc ⟨by simp, List.Pairwise.nil, by simp, List.Pairwise.nil⟩ _
  exact serve_laid hMalloc hSizes newMemoryManager_ne_nil hStart

/-- Each request gets a block of its size that lies in the storage of an arena, is aligned to a
pointer and lies apart from the blocks before. -/
def HandsOut (malloc : List Arena → Int → Int) (sizes : List Int) : Prop :=
  let run := serve malloc (newMemoryManager malloc) sizes
  (∀ b ∈ run.1, ∃ p, b.block = some p ∧
    (∃ a ∈ run.2, a.address ≤ p ∧ p + b.size ≤ a.storageEnd) ∧ pointerSize ∣ p) ∧
  run.1.Pairwise Served.Apart

/-- No request of a new manager gets a block that is aligned. -/
theorem handsOut_iff (malloc : List Arena → Int → Int) (hMalloc : Suitable malloc)
    (sizes : List Int) (hSizes : ∀ s ∈ sizes, 0 < s ∧ s < 2 ^ 31) :
    HandsOut malloc sizes ↔ sizes = [] := by
  constructor
  · rintro ⟨hBlocks, -⟩
    cases sizes with
    | nil => rfl
    | cons size sizes =>
      exfalso
      have hSize : size ≠ 0 := Int.ne_of_gt (hSizes size List.mem_cons_self).1
      have hNew : Shifted (newMemoryManager malloc) :=
        newArena_shifted hMalloc (by simp [Shifted]) _
      obtain ⟨-, -, hMod⟩ := allocFromMm_shifted hMalloc newMemoryManager_ne_nil hNew hSize
      obtain ⟨p, hp, -, hDvd⟩ := hBlocks
        ⟨size, (allocFromMm malloc (newMemoryManager malloc) size).1⟩ List.mem_cons_self
      have h4 := hMod p hp
      have h0 := Int.emod_eq_zero_of_dvd hDvd
      omega
  · rintro rfl
    exact ⟨by simp [serve], List.Pairwise.nil⟩

/-- A `malloc` that goes on behind all the storage in use. -/
def behindAll (arenas : List Arena) (_ : Int) : Int :=
  clearBits (arenas.foldr (fun a last => max a.storageEnd last) 0)

theorem behindAll_suitable : Suitable behindAll := by
  refine ⟨fun arenas _ => Int.dvd_mul_left _ _, fun arenas bytes a ha => Or.inl ?_⟩
  have hMax : a.storageEnd ≤ arenas.foldr (fun a last => max a.storageEnd last) 0 := by
    induction arenas with
    | nil => cases ha
    | cons b arenas ih =>
      rw [List.foldr_cons]
      rcases List.mem_cons.mp ha with rfl | ha
      · exact Int.le_max_left _ _
      · exact Int.le_trans (ih ha) (Int.le_max_right _ _)
  unfold behindAll clearBits bitToClear pointerSize
  omega

theorem handsOut_iff_pointer : HandsOut behindAll [8] ↔ ([8] : List Int) = [] :=
  handsOut_iff behindAll behindAll_suitable [8] (by decide)

/-- The first block of a new manager is at the offset 28 of its storage. -/
theorem handsOut_fails :
    ¬∀ (malloc : List Arena → Int → Int) (sizes : List Int), Suitable malloc →
      (∀ s ∈ sizes, 0 < s ∧ s < 2 ^ 31) → HandsOut malloc sizes := by
  intro h
  obtain ⟨p, hp, -, hDvd⟩ := (h behindAll [8] behindAll_suitable (by decide)).1
    ⟨8, some 28⟩ (List.mem_singleton.mpr rfl)
  obtain rfl := Option.some.inj hp
  exact absurd hDvd (by decide)

end Run

end Shutter.MemoryManager
