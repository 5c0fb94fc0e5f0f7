import PeekableReader.Io.Buffer
import PeekableReader.Io.Read

/-!
# Peekable readers

`Peekable R B` is the state shared by `Peekable` and the two `AsyncPeekable` types: the
inner reader, the peek buffer and the capacity to recreate it with. This module holds
what the three flavours have in common, `consume`, `consume_in_place`, the growing of
the peek buffer and the end of `peek_to_string`.

`Fetched p p' d` says that going from `p` to `p'` moved exactly the bytes `d` from the
reader to the end of the peek buffer. Every operation that peeks is specified with it.
-/

namespace PeekableReader

open Buffer Ledger Stream'

/-- `Peekable`, and `AsyncPeekable` of both asynchronous flavours. -/
structure Peekable (R B : Type) where
  reader : R
  buffer : B
  bufCap : Option Nat
  deriving DecidableEq

namespace Peekable

variable {R B : Type} [Buffer B]

def construct (reader : R) (buffer : B) (capacity : Option Nat) : Peekable R B :=
  ⟨reader, buffer, capacity⟩

def withBuffer (reader : R) : Peekable R B := construct reader new none

def withCapacityAndBuffer (reader : R) (capacity : Nat) : Peekable R B :=
  construct reader (withCapacity capacity) (some capacity)

/-- The bytes in the peek buffer. -/
def peeked (p : Peekable R B) : List UInt8 := asSlice p.buffer

@[simp] theorem peeked_mk (reader : R) (buffer : B) (bufCap : Option Nat) :
    (Peekable.mk reader buffer bufCap).peeked = asSlice buffer := rfl

/-- `this.buffer.truncate(len)` -/
def truncate (p : Peekable R B) (len : Nat) : Peekable R B :=
  { p with buffer := Buffer.truncate p.buffer len }

/-- The inherent `consume`: hand out the peek buffer and start a new one. -/
def consume (p : Peekable R B) : B × Peekable R B :=
  let buf := match p.bufCap with
    | some capacity => withCapacity capacity
    | none => new
  (p.buffer, { p with buffer := buf })

def consumeInPlace (p : Peekable R B) : Peekable R B := { p with buffer := clear p.buffer }

@[simp] theorem reader_truncate (p : Peekable R B) (n : Nat) : (p.truncate n).reader = p.reader := rfl

theorem len_buffer [LawfulBuffer B] (p : Peekable R B) : len p.buffer = p.peeked.length :=
  len_eq p.buffer

@[simp] theorem peeked_truncate [LawfulBuffer B] (p : Peekable R B) (n : Nat) :
    (p.truncate n).peeked = p.peeked.take n := asSlice_truncate p.buffer n

theorem peeked_consume [LawfulBuffer B] (p : Peekable R B) : p.consume.2.peeked = [] := by
  obtain ⟨reader, buffer, capacity | _⟩ := p
  · exact asSlice_new
  · exact asSlice_withCapacity _

theorem peeked_consumeInPlace [LawfulBuffer B] (p : Peekable R B) :
    p.consumeInPlace.peeked = [] := asSlice_clear _

end Peekable

/-- Chunk size for growing the peek buffer in unbounded read loops. -/
def readChunk : Nat := 1024

section Grow

variable {B : Type} [Buffer B]

/-- The loop of `grow_peek_buffer`: halve the growth after each refusal. -/
def growLoop (buffer : B) (oldLen growth : Nat) : Except IoError Nat × B :=
  match resize buffer (oldLen + growth) with
  | (.ok (), buffer) => (.ok growth, buffer)
  | (.error e, buffer) =>
    if growth > 1 then growLoop buffer oldLen (growth / 2) else (.error e, buffer)
termination_by growth

def growPeekBuffer (buffer : B) : Except IoError Nat × B :=
  growLoop buffer (len buffer) readChunk

variable [LawfulBuffer B]

theorem growLoop_spec (b : B) {oldLen growth : Nat} (hlen : oldLen = (asSlice b).length)
    (hg : 0 < growth) {res : Except IoError Nat} {b' : B}
    (h : growLoop b oldLen growth = (res, b')) :
    (∀ g, res = .ok g → 0 < g ∧ ∃ room, asSlice b' = asSlice b ++ room ∧ room.length = g) ∧
      (∀ e, res = .error e → asSlice b' = asSlice b) := by
  fun_induction growLoop b oldLen growth generalizing res b' with
  | case1 b growth b₁ hres =>
    cases h
    obtain ⟨room, hroom, hl⟩ := resize_grow hres (by omega)
    exact ⟨by rintro g ⟨⟩; exact ⟨hg, room, hroom, by omega⟩, by rintro e ⟨⟩⟩
  | case2 b growth e b₁ hres hgt ih =>
    have hsame := LawfulBuffer.resize_error hres
    rw [← hsame]
    exact ih (by rw [hsame]; exact hlen) (by omega) h
  | case3 b growth e b₁ hres hle =>
    cases h
    exact ⟨by rintro g ⟨⟩, fun _ _ => LawfulBuffer.resize_error hres⟩

/-- Growing the peek buffer adds room behind its contents, or changes nothing. -/
theorem growPeekBuffer_spec (b : B) {res : Except IoError Nat} {b' : B}
    (h : growPeekBuffer b = (res, b')) :
    (∀ g, res = .ok g → 0 < g ∧ ∃ room, asSlice b' = asSlice b ++ room ∧ room.length = g) ∧
      (∀ e, res = .error e → asSlice b' = asSlice b) :=
  growLoop_spec b (len_eq b) (by decide) h

end Grow

/-! ## The end of `peek_to_string` -/

/-- The error `peek_to_string` fails with at once: the bytes already peeked are not the
beginning of any valid text. -/
def earlyReject (bytes : List UInt8) : Option Utf8Error :=
  match fromUtf8 bytes with
  | .ok _ => none
  | .error e => if e.errorLen.isSome then some e else none

/-- The last `match` of `peek_to_string`, on the outcome of its loop and the peek buffer. -/
def finishString (loopResult : Except IoError Unit) (bytes : List UInt8) (dst : Str) :
    Exec (Except IoError Nat × Str) :=
  match loopResult, fromUtf8 bytes with
  | .ok (), .ok s => return (.ok bytes.length, dst.pushStr s)
  | .ok (), .error e => return (.error (invalidUtf8IoError e), dst)
  | .error io, .ok s => return (.error io, dst.pushStr s)
  | .error io, .error utf8Err => do
    let vut := utf8Err.validUpTo
    if vut ≠ 0 then
      let valid ← slice bytes 0 vut
      match fromUtf8 valid with
      | .ok s => return (.error io, dst.pushStr s)
      | .error _ => .panic .expectFailed
    else return (.error io, dst)

/-- The destination gains a prefix of the peek buffer: all of it on success, and never
more than is valid. The `expect` is never reached with an error. -/
theorem finishString_ends (loopResult : Except IoError Unit) (bytes : List UInt8) (dst : Str) :
    (finishString loopResult bytes dst).Ends fun out =>
      ∃ s : Str, out.2 = dst.pushStr s ∧ s.bytes <+: bytes ∧
        (∀ n, out.1 = .ok n → s.bytes = bytes ∧ n = bytes.length ∧ loopResult = .ok ()) := by
  have hempty : dst = dst.pushStr .empty := (Str.pushStr_empty dst).symm
  unfold finishString
  split
  · next s hs => exact Exec.ends_ok.mpr ⟨s, rfl, by simp [fromUtf8_ok hs], by
      rintro n ⟨⟩; exact ⟨fromUtf8_ok hs, rfl, rfl⟩⟩
  · exact Exec.ends_ok.mpr ⟨.empty, hempty, List.nil_prefix, by rintro n ⟨⟩⟩
  · next s hs => exact Exec.ends_ok.mpr ⟨s, rfl, by simp [fromUtf8_ok hs], by rintro n ⟨⟩⟩
  · next io u hu =>
    obtain ⟨hle, s, hs⟩ := fromUtf8_take_validUpTo hu
    by_cases hv : u.validUpTo = 0
    · simp only [hv, ne_eq, not_true_eq_false, if_false]
      exact Exec.ends_ok.mpr ⟨.empty, hempty, List.nil_prefix, by rintro n ⟨⟩⟩
    · simp only [ne_eq, hv, not_false_eq_true, if_true, slice_front bytes hle, Exec.ok_bind, hs]
      exact Exec.ends_ok.mpr
        ⟨s, rfl, by rw [fromUtf8_ok hs]; exact List.take_prefix _ _, by rintro n ⟨⟩⟩

/-! ## Moving bytes from the reader to the peek buffer -/

section Fetched

variable {R B : Type} [Buffer B]

/-- The bytes `d` moved from the reader to the end of the peek buffer. -/
structure Fetched [Ledger R UInt8] (p p' : Peekable R B) (d : List UInt8) : Prop where
  peeked : p'.peeked = p.peeked ++ d
  hands : Hands p.reader d p'.reader

/-- The ledger of a peekable reader: `d` left it while the reader handed over `e`, and the
peek buffer is what lies between the two. -/
instance [Ledger R UInt8] : Ledger (Peekable R B) UInt8 where
  Hands p d p' := ∃ e, Hands p.reader e p'.reader ∧ p.peeked ++ e = d ++ p'.peeked
  refl p := ⟨[], Ledger.refl _, by simp⟩
  trans {p p' p'' d d'} h h' := by
    obtain ⟨e, he, hp⟩ := h
    obtain ⟨e', he', hp'⟩ := h'
    refine ⟨e ++ e', Ledger.trans he he', ?_⟩
    rw [← List.append_assoc, hp, List.append_assoc, hp', List.append_assoc]

namespace Peekable

variable [Ledger R UInt8] (p : Peekable R B) {reader : R} {e : List UInt8}

/-- Bytes taken off the front of the peek buffer. -/
theorem hands_take {buffer : B} {n : Nat} (h : asSlice buffer = p.peeked.drop n) :
    Hands p (p.peeked.take n) { p with buffer } :=
  ⟨[], Ledger.refl _, by simp [h]⟩

/-- The whole peek buffer, and what the reader hands over after it. -/
theorem hands_clear [LawfulBuffer B] (h : Hands p.reader e reader) :
    Hands p (p.peeked ++ e) { p with reader, buffer := clear p.buffer } :=
  ⟨e, h, by simp⟩

/-- What passes through an empty peek buffer. -/
theorem hands_reader (hp : p.peeked = []) (h : Hands p.reader e reader) :
    Hands p e { p with reader } := by
  have hnil : asSlice p.buffer = [] := hp
  exact ⟨e, h, by simp [hp, hnil]⟩

end Peekable

namespace Fetched

variable [Ledger R UInt8] {p p' p'' : Peekable R B} {d d' : List UInt8}

theorem refl (p : Peekable R B) : Fetched p p [] := ⟨by simp, Ledger.refl _⟩

theorem trans (h : Fetched p p' d) (h' : Fetched p' p'' d') : Fetched p p'' (d ++ d') :=
  ⟨by rw [h'.peeked, h.peeked, List.append_assoc], Ledger.trans h.hands h'.hands⟩

/-- Peeking delivers nothing. -/
theorem delivers_nil (h : Fetched p p' d) : Hands p [] p' := ⟨d, h.hands, by simp [h.peeked]⟩

theorem length_nil (h : Fetched p p' []) : p'.peeked.length = p.peeked.length := by
  simp [h.peeked]

/-- The new bytes are found behind the old length. -/
theorem slice_new (h : Fetched p p' d) {n : Nat} (hn : d.length = n) :
    slice p'.peeked p.peeked.length (p.peeked.length + n) = .ok d := by
  rw [h.peeked, ← hn, slice_append_right]

end Fetched

variable [Source R UInt8]

/-- The bytes that have not been delivered: those peeked, then those of the reader. -/
def Peekable.undelivered (p : Peekable R B) : Seq UInt8 :=
  prepend p.peeked (Source.rest p.reader)

/-- What leaves a peekable reader is what its undelivered stream loses at the front. -/
theorem Peekable.undelivered_of_hands {p p' : Peekable R B} {d : List UInt8} (h : Hands p d p') :
    p.undelivered = prepend d p'.undelivered := by
  obtain ⟨e, he, hp⟩ := h
  rw [Peekable.undelivered, hands_iff_rest.mp he, prepend_prepend, hp, ← prepend_prepend,
    Peekable.undelivered]

theorem Peekable.starts_undelivered {p : Peekable R B} {bytes : List UInt8}
    (h : bytes <+: p.peeked) : Starts bytes p.undelivered := starts_prepend h _

end Fetched

end PeekableReader
