import PeekableReader.Io.Peekable
import PeekableReader.Lib.Simulation

/-!
# Peekable readers that cannot be told apart

`Peekable` is generic in its reader and its buffer, and uses both through their traits only.
So a relation between two readers that their answers respect, and one between two buffers,
extend to a relation between the peekable readers, `Alike`, that every operation respects.

`ReadSim` and `BufferSim` say what is asked of the two relations. The capacity of a buffer
is left out: `fill_peek_buf` alone reads it.
-/

namespace PeekableReader

open Buffer

variable {R R' B B' : Type}

/-- Related readers answer a read alike, and stay related. -/
def ReadSim [Read R] [Read R'] (S : R → R' → Prop) : Prop :=
  ∀ r r' buf, S r r' → Agree (Agree S) (Read.read r buf) (Read.read r' buf)

/-- Related buffers hold the same bytes, answer alike, and stay related. -/
structure BufferSim [Buffer B] [Buffer B'] (T : B → B' → Prop) : Prop where
  new : T new new
  withCapacity (n : Nat) : T (withCapacity n) (withCapacity n)
  asSlice {b : B} {b' : B'} (h : T b b') : asSlice b = asSlice b'
  consume {b : B} {b' : B'} {n : Nat} (h : T b b') (hn : n ≤ (Buffer.asSlice b).length) :
    Exec.Rel T (consume b n) (consume b' n)
  clear {b : B} {b' : B'} (h : T b b') : T (clear b) (clear b')
  resize {b : B} {b' : B'} (h : T b b') (n : Nat) : Agree T (resize b n) (resize b' n)
  truncate {b : B} {b' : B'} (h : T b b') (n : Nat) : T (truncate b n) (truncate b' n)
  setSlice {b : B} {b' : B'} {bytes : List UInt8} (h : T b b')
    (hlen : bytes.length = (Buffer.asSlice b).length) : T (setSlice b bytes) (setSlice b' bytes)

/-- Related buffers have the same capacity. -/
def SameCapacity [Buffer B] [Buffer B'] (T : B → B' → Prop) : Prop :=
  ∀ b b', T b b' → capacity b = capacity b'

/-- Peekable readers with related readers and related buffers. -/
structure Alike (S : R → R' → Prop) (T : B → B' → Prop) (p : Peekable R B) (q : Peekable R' B') :
    Prop where
  reader : S p.reader q.reader
  buffer : T p.buffer q.buffer
  bufCap : p.bufCap = q.bufCap

/-- A reader is related to itself, whatever it does. -/
theorem ReadSim.eq [Read R] : ReadSim (Eq : R → R → Prop) := by
  rintro r _ buf rfl
  exact ⟨rfl, rfl, rfl⟩

/-- A buffer is related to itself, whatever it refuses. -/
theorem BufferSim.eq [Buffer B] : BufferSim (Eq : B → B → Prop) where
  new := rfl
  withCapacity _ := rfl
  asSlice h := congrArg _ h
  consume h _ := by subst h; exact .refl (fun _ => rfl) _
  clear h := congrArg _ h
  resize h n := by subst h; exact ⟨rfl, rfl⟩
  truncate h n := by rw [h]
  setSlice h _ := by rw [h]

namespace BufferSim

variable [Buffer B] [Buffer B'] {T : B → B' → Prop} (hT : BufferSim T)
include hT

/-- The other buffer gives the same answer to a resize. -/
theorem resized {b b₁ : B} {b' : B'} (h : T b b') {n : Nat} {res : Except IoError Unit}
    (hres : Buffer.resize b n = (res, b₁)) :
    ∃ b₁', Buffer.resize b' n = (res, b₁') ∧ T b₁ b₁' := by
  obtain ⟨hsame, hnext⟩ := hT.resize h n
  rw [hres] at hsame hnext
  exact ⟨_, Prod.ext hsame.symm rfl, hnext⟩

/-- Growing goes the same way: the same requests are made, refused and granted. -/
theorem growLoop {b : B} {b' : B'} (h : T b b') (oldLen growth : Nat) :
    Agree T (growLoop b oldLen growth) (growLoop b' oldLen growth) := by
  fun_induction PeekableReader.growLoop b oldLen growth generalizing b' with
  | case1 b growth b₁ hres =>
    obtain ⟨b₁', hres', h₁⟩ := hT.resized h hres
    rw [PeekableReader.growLoop, hres']
    exact ⟨rfl, h₁⟩
  | case2 b growth e b₁ hres hgt ih =>
    obtain ⟨b₁', hres', h₁⟩ := hT.resized h hres
    rw [PeekableReader.growLoop.eq_def b', hres']
    simp only [if_pos hgt]
    exact ih h₁
  | case3 b growth e b₁ hres hle =>
    obtain ⟨b₁', hres', h₁⟩ := hT.resized h hres
    rw [PeekableReader.growLoop, hres']
    simp only [if_neg hle]
    exact ⟨rfl, h₁⟩

/-- The other buffer grows by as much, or refuses as well. -/
theorem grown [LawfulBuffer B] [LawfulBuffer B'] {b b₁ : B} {b' : B'} (h : T b b')
    {res : Except IoError Nat} (hres : growPeekBuffer b = (res, b₁)) :
    ∃ b₁', growPeekBuffer b' = (res, b₁') ∧ T b₁ b₁' := by
  obtain ⟨hsame, hnext⟩ := hT.growLoop h (len b) readChunk
  rw [show PeekableReader.growLoop b (len b) readChunk = _ from hres] at hsame hnext
  have hlen : len b' = len b := by rw [LawfulBuffer.len_eq, LawfulBuffer.len_eq, hT.asSlice h]
  exact ⟨_, Prod.ext (by rw [growPeekBuffer, hlen]; exact hsame.symm) rfl,
    by rw [growPeekBuffer, hlen]; exact hnext⟩

end BufferSim

namespace Alike

variable {S : R → R' → Prop} {T : B → B' → Prop} {p : Peekable R B} {q : Peekable R' B'}

theorem with_buffer (h : Alike S T p q) {b : B} {b' : B'} (hb : T b b') :
    Alike S T { p with buffer := b } { q with buffer := b' } := ⟨h.reader, hb, h.bufCap⟩

theorem with_reader (h : Alike S T p q) {r : R} {r' : R'} (hr : S r r') :
    Alike S T { p with reader := r } { q with reader := r' } := ⟨hr, h.buffer, h.bufCap⟩

variable [Buffer B] [Buffer B'] (hT : BufferSim T)
include hT

theorem peeked (h : Alike S T p q) : p.peeked = q.peeked := hT.asSlice h.buffer

theorem truncate (h : Alike S T p q) (n : Nat) : Alike S T (p.truncate n) (q.truncate n) :=
  h.with_buffer (hT.truncate h.buffer n)

theorem clear (h : Alike S T p q) :
    Alike S T { p with buffer := Buffer.clear p.buffer } { q with buffer := Buffer.clear q.buffer } :=
  h.with_buffer (hT.clear h.buffer)

/-- The new peek buffers are alike, and the ones handed out hold the same bytes. -/
theorem consume (h : Alike S T p q) :
    asSlice p.consume.1 = asSlice q.consume.1 ∧ Alike S T p.consume.2 q.consume.2 := by
  refine ⟨hT.asSlice h.buffer, h.with_buffer ?_⟩
  rw [h.bufCap]
  cases q.bufCap with
  | none => exact hT.new
  | some n => exact hT.withCapacity n

theorem consumeInPlace (h : Alike S T p q) : Alike S T p.consumeInPlace q.consumeInPlace :=
  h.clear hT

/-- Taking bytes off the front that are there. -/
theorem consume_front (h : Alike S T p q) {n : Nat} (hn : n ≤ p.peeked.length) :
    Exec.Rel (fun b b' => Alike S T { p with buffer := b } { q with buffer := b' })
      (Buffer.consume p.buffer n) (Buffer.consume q.buffer n) :=
  (hT.consume h.buffer hn).mono fun _ _ hb => h.with_buffer hb

theorem len_eq [LawfulBuffer B] [LawfulBuffer B'] (h : Alike S T p q) :
    len p.buffer = len q.buffer := by
  rw [p.len_buffer, q.len_buffer, h.peeked hT]

end Alike

end PeekableReader
