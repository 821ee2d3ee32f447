import Shutter.Gunzip.Response
import Shutter.Library.Grammar

/-! The gzip header before the compressed data.  `get_method` runs over the bytes of a fragment
without a test of `insize`, so it stays inside the fragment where the whole header is there. -/

namespace Shutter.Gunzip

open Shutter.Library

/-- `maxPathLen`, the size of `ofname`. -/
def maxPathLen : Nat := 1024

/-! ### Within the fragment -/

/-- `get_byte`, `n` times. -/
def passBytes : Nat → Reader UInt8 Unit
  | 0 => pure ()
  | n + 1 => do
    let _ ← Reader.next
    passBytes n

/-- The extra field, with its length before it. -/
def passExtra : Reader UInt8 Unit := do
  let len₀ ← Reader.next
  let len₁ ← Reader.next
  passBytes (len₀.toNat + 256 * len₁.toNat)

/-- The loop that copies the file name to an array with `room` bytes left.  `part_nb` is 1, so the
name is not discarded. -/
def copyName : Nat → Reader UInt8 Unit
  | _, [] => none
  | 0, _ :: _ => none
  | room + 1, c :: rest => if c = 0 then some ((), rest) else copyName room rest

/-- The loop over the comment. -/
def passComment : Reader UInt8 Unit
  | [] => none
  | c :: rest => if c = 0 then some ((), rest) else passComment rest

/-- `get_method` over the bytes of a fragment.  It fails where it reads behind the fragment, where
it writes behind `ofname`, and where it ends without a value. -/
def methodWithin : Reader UInt8 Int := do
  let magic₀ ← Reader.next
  let magic₁ ← Reader.next
  if magic₀ = 0x1f ∧ (magic₁ = 0x8b ∨ magic₁ = 0x9e) then
    let method ← Reader.next
    if method = 8 then
      let flags ← Reader.next
      passBytes 6
      Reader.only (flags &&& 0x02 ≠ 0) (passBytes 2)
      Reader.only (flags &&& 0x04 ≠ 0) passExtra
      Reader.only (flags &&& 0x08 ≠ 0) (copyName maxPathLen)
      Reader.only (flags &&& 0x10 ≠ 0) passComment
      return 8
    else return -1
  else failure

/-! ### The words of a header -/

/-- A field of the header, which is there when a flag says so. -/
def Field (present : Prop) (shape : List UInt8 → Prop) (w : List UInt8) : Prop :=
  (present ∧ shape w) ∨ (¬present ∧ w = [])

/-- An extra field: its length in two bytes, and that many bytes. -/
def Extra (w : List UInt8) : Prop :=
  ∃ len₀ len₁ bytes, w = len₀ :: len₁ :: bytes ∧
    bytes.length = len₀.toNat + 256 * len₁.toNat

/-- A string with its NUL. -/
inductive Terminated : List UInt8 → Prop
  | nul : Terminated [0]
  | cons {c : UInt8} {w : List UInt8} (hc : c ≠ 0) (hw : Terminated w) : Terminated (c :: w)

/-- The words that `get_method` reads, with the method that it returns. -/
inductive GzipHeader : Int → List UInt8 → Prop
  | unknown {magic method : UInt8} (hMagic : magic = 0x8b ∨ magic = 0x9e)
      (hMethod : method ≠ 8) :
      GzipHeader (-1) [0x1f, magic, method]
  | deflated {magic flags : UInt8} {fixed part extra name comment : List UInt8}
      (hMagic : magic = 0x8b ∨ magic = 0x9e) (hFixed : fixed.length = 6)
      (hPart : Field (flags &&& 0x02 ≠ 0) (·.length = 2) part)
      (hExtra : Field (flags &&& 0x04 ≠ 0) Extra extra)
      (hName : Field (flags &&& 0x08 ≠ 0) (fun w => Terminated w ∧
      w.length ≤ maxPathLen) name)
      (hComment : Field (flags &&& 0x10 ≠ 0) Terminated comment) :
      GzipHeader 8 ([0x1f, magic, 8, flags] ++ fixed ++ part ++ extra ++ name ++ comment)

theorem reads_passBytes (n : Nat) : Reads (passBytes n) fun _ w => w.length = n := by
  induction n with
  | zero =>
    apply (Reads.pure ()).congr
    intro _ w
    simp
  | succ n ih =>
    apply (Reads.next.bind fun _ => ih).congr
    intro _ w
    constructor
    · rintro ⟨b, _, v, rfl, rfl, hv⟩
      simpa using hv
    · intro hLength
      obtain ⟨b, v, rfl⟩ := List.exists_cons_of_length_eq_add_one hLength
      exact ⟨b, [b], v, rfl, rfl, Nat.succ.inj hLength⟩

theorem reads_passExtra : Reads passExtra fun _ w => Extra w := by
  apply (Reads.next.bind fun _ => Reads.next.bind fun _ => reads_passBytes _).congr
  intro _ w
  constructor
  · rintro ⟨len₀, _, _, rfl, rfl, len₁, _, bytes, rfl, rfl, hBytes⟩
    exact ⟨len₀, len₁, bytes, rfl, hBytes⟩
  · rintro ⟨len₀, len₁, bytes, rfl, hBytes⟩
    exact ⟨len₀, [len₀], len₁ :: bytes, rfl, rfl, len₁, [len₁], bytes, rfl,
      rfl, hBytes⟩

/-- The name with its NUL fits into the room. -/
theorem reads_copyName (room : Nat) :
    Reads (copyName room) fun _ w => Terminated w ∧ w.length ≤ room := by
  intro t _ rest
  induction t generalizing room with
  | nil =>
    constructor
    · intro h
      simp [copyName] at h
    · rintro ⟨w, ⟨hw, -⟩, hAppend⟩
      obtain ⟨rfl, -⟩ := List.append_eq_nil_iff.mp hAppend.symm
      cases hw
  | cons c t ih =>
    cases room with
    | zero =>
      constructor
      · intro h
        simp [copyName] at h
      · rintro ⟨w, ⟨hw, hLength⟩, -⟩
        obtain rfl := List.length_eq_zero_iff.mp (Nat.le_zero.mp hLength)
        cases hw
    | succ room =>
      unfold copyName
      by_cases hc : c = 0
      · subst hc
        rw [if_pos rfl]
        constructor
        · intro h
          obtain ⟨-, rfl⟩ := Prod.mk.inj (Option.some.inj h)
          exact ⟨[0], ⟨.nul, by simp⟩, rfl⟩
        · rintro ⟨w, ⟨hw, -⟩, hAppend⟩
          cases hw with
          | nul =>
            obtain ⟨-, rfl⟩ := List.cons.inj hAppend
            rfl
          | cons hd _ => exact absurd (List.cons.inj hAppend).1.symm hd
      · rw [if_neg hc, ih room]
        constructor
        · rintro ⟨w, ⟨hw, hLength⟩, rfl⟩
          exact ⟨c :: w, ⟨.cons hc hw, by simpa using hLength⟩, rfl⟩
        · rintro ⟨w, ⟨hw, hLength⟩, hAppend⟩
          cases hw with
          | nul => exact absurd (List.cons.inj hAppend).1 hc
          | cons _ hw =>
            exact ⟨_, ⟨hw, by simpa using hLength⟩, (List.cons.inj hAppend).2⟩

/-- The loop over the comment is the loop over the name with room for all that is left. -/
theorem copyName_eq_passComment {room : Nat} {t : List UInt8} (h : t.length ≤ room) :
    copyName room t = passComment t := by
  induction t generalizing room with
  | nil => simp [copyName, passComment]
  | cons c t ih =>
    obtain ⟨room, rfl⟩ : ∃ n, room = n + 1 := ⟨room - 1, by simp at h; omega⟩
    unfold copyName passComment
    rw [ih (Nat.le_of_succ_le_succ h)]

theorem reads_passComment : Reads passComment fun _ w => Terminated w := by
  intro t a rest
  rw [← copyName_eq_passComment (Nat.le_refl t.length), reads_copyName t.length t a rest]
  constructor
  · rintro ⟨w, ⟨hw, -⟩, hAppend⟩
    exact ⟨w, hw, hAppend⟩
  · rintro ⟨w, hw, rfl⟩
    exact ⟨w, ⟨hw, by simp⟩, rfl⟩

theorem reads_field {p : Prop} [Decidable p] {x : Reader UInt8 Unit} {shape : List UInt8 → Prop}
    (h : Reads x fun _ w => shape w) : Reads (Reader.only p x) fun _ w => Field p shape w := by
  apply h.only.congr
  intro _ w
  by_cases hp : p
  · simp [Field, hp]
  · simp [Field, hp]

theorem reads_methodWithin : Reads methodWithin GzipHeader := by
  apply (Reads.next.bind fun magic₀ => Reads.next.bind fun magic₁ => Reads.ite
    (fun _ => Reads.next.bind fun method => Reads.ite
      (fun _ => Reads.next.bind fun flags => (reads_passBytes 6).bind fun _ =>
        (reads_field (reads_passBytes 2)).bind fun _ => (reads_field reads_passExtra).bind fun _ =>
        (reads_field (reads_copyName maxPathLen)).bind fun _ =>
        (reads_field reads_passComment).bind fun _ => Reads.pure 8)
      fun _ => Reads.pure (-1))
    fun _ => Reads.failure).congr
  intro v w
  constructor
  · rintro ⟨magic₀, _, _, rfl, rfl, magic₁, _, w, rfl, rfl, h⟩
    by_cases hMagic : magic₀ = 0x1f ∧ (magic₁ = 0x8b ∨ magic₁ = 0x9e)
    · obtain ⟨rfl, hMagic⟩ := hMagic
      rw [if_pos ⟨rfl, hMagic⟩] at h
      obtain ⟨method, _, w, rfl, rfl, h⟩ := h
      by_cases hMethod : method = 8
      · subst hMethod
        rw [if_pos rfl] at h
        obtain ⟨flags, _, _, rfl, rfl, -, fixed, _, rfl, hFixed, -, part, _, rfl,
          hPart, -, extra, _,
          rfl, hExtra, -, name, _, rfl, hName, -, comment, _, rfl, hComment, rfl, rfl⟩ := h
        have hWord := GzipHeader.deflated hMagic hFixed hPart hExtra hName hComment
        simpa using hWord
      · rw [if_neg hMethod] at h
        obtain ⟨rfl, rfl⟩ := h
        exact .unknown hMagic hMethod
    · rw [if_neg hMagic] at h
      exact h.elim
  · intro h
    cases h with
    | unknown hMagic hMethod =>
      refine ⟨0x1f, [0x1f], _, rfl, rfl, _, [_], _, rfl, rfl, ?_⟩
      beta_reduce
      rw [if_pos ⟨rfl, hMagic⟩]
      refine ⟨_, [_], _, rfl, rfl, ?_⟩
      beta_reduce
      rw [if_neg hMethod]
      exact ⟨rfl, rfl⟩
    | @deflated magic flags fixed part extra name comment hMagic hFixed hPart hExtra
        hName hComment =>
      refine ⟨0x1f, [0x1f], _, rfl, rfl, magic, [magic], _, rfl, rfl, ?_⟩
      beta_reduce
      rw [if_pos ⟨rfl, hMagic⟩]
      refine ⟨8, [8], _, rfl, rfl, ?_⟩
      beta_reduce
      rw [if_pos rfl]
      exact ⟨flags, [flags], _, rfl, rfl, (), fixed, part ++
        (extra ++ (name ++ comment)), by simp,
        hFixed, (), part, _, rfl, hPart, (), extra, _, rfl, hExtra, (), name, _, rfl, hName,
        (), comment, [], by simp, hComment, rfl, rfl⟩

/-! ### The fragment in the memory -/

section Memory

variable (fragment behind : List UInt8)

/-- `get_byte` goes on with these bytes of the fragment. -/
structure Reading (rest : List UInt8) (s : State) : Prop where
  inbuf : s.inbuf = fragment ++ behind
  insize : s.insize = fragment.length
  split : ∃ done, fragment = done ++ rest ∧ s.inptr = done.length

/-- Where the reader stays in the fragment, the program does the same. -/
def Follows {α : Type} (x : Reader UInt8 α) (y : Code α) : Prop :=
  ∀ t a rest, x t = some (a, rest) → ∀ s, Reading fragment behind t s →
    ∃ s', y s = .ok a s' ∧ Reading fragment behind rest s'

variable {fragment behind}

theorem Reading.inptr_le {rest : List UInt8} {s : State} (h : Reading fragment behind rest s) :
    s.inptr ≤ s.insize := by
  obtain ⟨done, hSplit, hInptr⟩ := h.split
  have hLength := congrArg List.length hSplit
  rw [List.length_append] at hLength
  rw [hInptr, h.insize]
  omega

theorem Follows.pure {α : Type} (a : α) :
    Follows fragment behind (Pure.pure a) (Pure.pure a) := by
  intro t v rest hRun s hs
  obtain ⟨rfl, rfl⟩ := Prod.mk.inj (Option.some.inj hRun)
  exact ⟨s, rfl, hs⟩

theorem Follows.bind {α β : Type} {x : Reader UInt8 α} {y : Code α} {f : α → Reader UInt8 β}
    {g : α → Code β} (h : Follows fragment behind x y)
    (hf : ∀ a, Follows fragment behind (f a) (g a)) :
    Follows fragment behind (x >>= f) (y >>= g) := by
  intro t b rest hRun s hs
  obtain ⟨⟨a, mid⟩, hFirst, hSecond⟩ := Option.bind_eq_some_iff.mp hRun
  obtain ⟨s₁, hy, hs₁⟩ := h t a mid hFirst s hs
  obtain ⟨s₂, hg, hs₂⟩ := hf a mid b rest hSecond s₁ hs₁
  refine ⟨s₂, ?_, hs₂⟩
  show EStateM.bind y g s = _
  unfold EStateM.bind
  rw [hy]
  exact hg

theorem Follows.ite {α : Type} {p : Prop} [Decidable p] {x x' : Reader UInt8 α} {y y' : Code α}
    (h : Follows fragment behind x y) (h' : Follows fragment behind x' y') :
    Follows fragment behind (if p then x else x') (if p then y else y') := by
  split
  · exact h
  · exact h'

theorem Follows.only {p : Prop} [Decidable p] {x : Reader UInt8 Unit} {y : Code Unit}
    (h : Follows fragment behind x y) :
    Follows fragment behind (Reader.only p x) (onlyIf p () y) := h.ite (Follows.pure ())

theorem Follows.next : Follows fragment behind Reader.next getByte := by
  intro t c rest hRun s hs
  obtain ⟨w, rfl, rfl⟩ := (Reads.next t c rest).mp hRun
  obtain ⟨done, hSplit, hInptr⟩ := hs.split
  have hGet : s.inbuf[s.inptr]?.getD 0 = c := by
    rw [hs.inbuf, hSplit, hInptr]
    simp
  refine ⟨{ s with inptr := s.inptr + 1, taken := s.taken ++ [c] }, ?_, hs.inbuf, hs.insize,
    done ++ [c], by rw [hSplit, List.append_assoc], by simp [hInptr]⟩
  rw [← hGet]
  rfl

theorem follows_passBytes (n : Nat) :
    Follows fragment behind (passBytes n) (skipBytes n) := by
  induction n with
  | zero => exact Follows.pure ()
  | succ n ih => exact Follows.next.bind fun _ => ih

/-- The loop over a string in the memory turns round for each of its bytes. -/
theorem follows_skipString {t rest : List UInt8} {n : Nat} (hRun : passComment t = some ((), rest))
    (hn : t.length ≤ n) {s : State} (hs : Reading fragment behind t s) :
    ∃ s', skipString n s = .ok () s' ∧ Reading fragment behind rest s' := by
  induction t generalizing n s with
  | nil => cases hRun
  | cons c t ih =>
    obtain ⟨n, rfl⟩ : ∃ k, n = k + 1 := ⟨n - 1, by simp at hn; omega⟩
    obtain ⟨s₁, hByte, hs₁⟩ := Follows.next (c :: t) c t rfl s hs
    have hStep : skipString (n + 1) s = onlyIf (c ≠ 0) () (skipString n) s₁ := by
      rw [skipString]
      show EStateM.bind getByte (fun c => onlyIf (c ≠ 0) () (skipString n)) s = _
      unfold EStateM.bind
      rw [hByte]
    rw [hStep]
    unfold passComment at hRun
    by_cases hc : c = 0
    · rw [if_pos hc] at hRun
      obtain ⟨-, rfl⟩ := Prod.mk.inj (Option.some.inj hRun)
      exact ⟨s₁, by rw [onlyIf, if_neg (not_not.mpr hc)]; rfl, hs₁⟩
    · rw [if_neg hc] at hRun
      obtain ⟨s₂, hRest, hs₂⟩ := ih hRun (Nat.le_of_succ_le_succ hn) hs₁
      exact ⟨s₂, by rw [onlyIf, if_pos hc]; exact hRest, hs₂⟩

theorem follows_passComment : Follows fragment behind passComment skipName := by
  intro t _ rest hRun s hs
  obtain ⟨done, hSplit, hInptr⟩ := hs.split
  have hEnough : t.length ≤ s.inbuf.length - s.inptr + 1 := by
    rw [hs.inbuf, hSplit, hInptr]
    simp
    omega
  exact follows_skipString hRun hEnough hs

theorem passComment_of_copyName {room : Nat} {t rest : List UInt8}
    (h : copyName room t = some ((), rest)) : passComment t = some ((), rest) := by
  obtain ⟨w, ⟨hw, -⟩, rfl⟩ := (reads_copyName room t () rest).mp h
  exact (reads_passComment _ () rest).mpr ⟨w, hw, rfl⟩

theorem follows_copyName (room : Nat) : Follows fragment behind (copyName room) skipName :=
  fun t _ rest hRun => follows_passComment t () rest (passComment_of_copyName hRun)

/-- Where the header is in the fragment, `get_method` reads it there, whatever is behind. -/
theorem follows_getMethod (env : Env) :
    Follows fragment behind methodWithin (getMethod env) := by
  refine Follows.next.bind fun magic₀ => Follows.next.bind fun magic₁ => Follows.ite
    (Follows.next.bind fun method => Follows.ite
      (Follows.next.bind fun flags => (follows_passBytes 6).bind fun _ =>
        (follows_passBytes 2).only.bind fun _ => ?_)
      (Follows.pure (-1)))
    fun t a rest hRun => by cases hRun
  refine Follows.bind (Follows.only (Follows.next.bind fun len₀ => Follows.next.bind fun len₁ =>
    follows_passBytes _)) fun _ => ?_
  exact (follows_copyName maxPathLen).only.bind fun _ => follows_passComment.only.bind fun _ =>
    Follows.pure 8

end Memory

/-! ### The whole header -/

/-- `get_method` reads inside the fragment, writes inside `ofname`, and returns `DEFLATED` or -1
with `inptr` at most `insize`. -/
def ParsesWithin (fragment : List UInt8) : Prop :=
  ∃ method rest, methodWithin fragment = some (method, rest) ∧ (method = 8 ∨ method = -1) ∧
    ∀ (env : Env) (behind : List UInt8) (s : State), s.inbuf = fragment ++ behind →
      s.insize = fragment.length → s.inptr = 0 →
      ∃ s', getMethod env s = .ok method s' ∧ s'.inptr ≤ s'.insize

/-- `get_method` stays within the fragment exactly when the fragment begins with the whole
header. -/
theorem parsesWithin_iff (fragment : List UInt8) :
    ParsesWithin fragment ↔ ∃ method w, GzipHeader method w ∧ w <+: fragment := by
  rw [← reads_methodWithin.prefix_iff fragment]
  constructor
  · rintro ⟨method, rest, hRun, -⟩
    exact ⟨method, rest, hRun⟩
  · rintro ⟨method, rest, hRun⟩
    refine ⟨method, rest, hRun, ?_, fun env behind s hInbuf hInsize hInptr => ?_⟩
    · obtain ⟨w, hw, -⟩ := (reads_methodWithin fragment method rest).mp hRun
      cases hw with
      | unknown => exact Or.inr rfl
      | deflated => exact Or.inl rfl
    · obtain ⟨s', hMethod, hs'⟩ := follows_getMethod env fragment method rest hRun s
        ⟨hInbuf, hInsize, [], rfl, hInptr⟩
      exact ⟨s', hMethod, hs'.inptr_le⟩

/-- A fragment that ends behind the first byte of the magic number is read behind its end. -/
theorem parsesWithin_fails : ¬∀ fragment : List UInt8, ParsesWithin fragment := by
  intro h
  obtain ⟨method, rest, hRun, -⟩ := h [0x1f]
  cases hRun

end Shutter.Gunzip
