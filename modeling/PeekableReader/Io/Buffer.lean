import PeekableReader.Io.Error
import PeekableReader.Lib.Slice

/-!
# The `Buffer` trait

`Buffer` is the trait of `buffer.rs`, with `setSlice` for the writes that go through
`as_mut_slice`. `LawfulBuffer` states what its documentation promises; `resize` may
fail, and may depend on state other than the contents. In a `DeterministicBuffer` that
other state, such as a bound set at creation, is not changed by what a peek does to the
buffer. `AmpleBuffer` says that a capacity covers the length.

`VecBuffer` models the implementation for `Vec<u8>`, which never fails, and
`BoundedBuffer` the buffer of the test-suite that refuses to grow past a bound.
-/

namespace PeekableReader

/-- The trait of `buffer.rs`. -/
class Buffer (B : Type) where
  new : B
  withCapacity (capacity : Nat) : B
  /-- Remove the first `n` bytes. -/
  consume (b : B) (n : Nat) : Exec B
  clear (b : B) : B
  resize (b : B) (len : Nat) : Except IoError Unit × B
  truncate (b : B) (len : Nat) : B
  asSlice (b : B) : List UInt8
  /-- The buffer after its `as_mut_slice` has been written to. -/
  setSlice (b : B) (bytes : List UInt8) : B
  len (b : B) : Nat
  capacity (b : B) : Nat

open Buffer

/-- What the documentation of `Buffer` promises. -/
class LawfulBuffer (B : Type) [Buffer B] : Prop where
  asSlice_new : asSlice (new : B) = []
  asSlice_withCapacity (n : Nat) : asSlice (withCapacity n : B) = []
  len_eq (b : B) : len b = (asSlice b).length
  consume_ok (b : B) {n : Nat} (h : n ≤ (asSlice b).length) :
    ∃ b', consume b n = .ok b' ∧ asSlice b' = (asSlice b).drop n
  asSlice_clear (b : B) : asSlice (clear b) = []
  asSlice_truncate (b : B) (n : Nat) : asSlice (truncate b n) = (asSlice b).take n
  asSlice_setSlice (b : B) {bytes : List UInt8} (h : bytes.length = (asSlice b).length) :
    asSlice (setSlice b bytes) = bytes
  /-- A resize that succeeds sets the length and keeps the common prefix. -/
  resize_ok {b b' : B} {n : Nat} (h : resize b n = (.ok (), b')) :
    (asSlice b').length = n ∧ (asSlice b').take (asSlice b).length = (asSlice b).take n
  /-- A resize that fails leaves the contents alone. -/
  resize_error {b b' : B} {n : Nat} {e : IoError} (h : resize b n = (.error e, b')) :
    asSlice b' = asSlice b

export LawfulBuffer (asSlice_new asSlice_withCapacity len_eq asSlice_clear asSlice_truncate
  asSlice_setSlice)

attribute [simp] asSlice_new asSlice_withCapacity len_eq asSlice_clear asSlice_truncate

/-- The capacity of a buffer is at least its length. -/
class AmpleBuffer (B : Type) [Buffer B] : Prop where
  length_le_capacity (b : B) : (asSlice b).length ≤ capacity b

/-- What peeking makes of a buffer: it resizes, writes and truncates it. -/
inductive Reshapes {B : Type} [Buffer B] (b : B) : B → Prop
  | refl : Reshapes b b
  | resize {b' : B} (h : Reshapes b b') (n : Nat) : Reshapes b (resize b' n).2
  | truncate {b' : B} (h : Reshapes b b') (n : Nat) : Reshapes b (truncate b' n)
  | setSlice {b' : B} (h : Reshapes b b') (bytes : List UInt8) : Reshapes b (setSlice b' bytes)

theorem Reshapes.trans {B : Type} [Buffer B] {b b' b'' : B} (h : Reshapes b b')
    (h' : Reshapes b' b'') : Reshapes b b'' := by
  induction h' with
  | refl => exact h
  | resize _ n ih => exact ih.resize n
  | truncate _ n ih => exact ih.truncate n
  | setSlice _ bytes ih => exact ih.setSlice bytes

/-- Whether a resize succeeds is decided by the contents and the new length, among the
buffers that peeking makes of one buffer. -/
class DeterministicBuffer (B : Type) [Buffer B] : Prop where
  resize_det {b b₁ b₂ : B} (h₁ : Reshapes b b₁) (h₂ : Reshapes b b₂)
    (h : asSlice b₁ = asSlice b₂) (n : Nat) : (resize b₁ n).1 = (resize b₂ n).1

theorem resize_grow {B : Type} [Buffer B] [LawfulBuffer B] {b b' : B} {n : Nat}
    (h : resize b n = (.ok (), b')) (hn : (asSlice b).length ≤ n) :
    ∃ room, asSlice b' = asSlice b ++ room ∧ room.length = n - (asSlice b).length := by
  obtain ⟨hlen, htake⟩ := LawfulBuffer.resize_ok h
  refine ⟨(asSlice b').drop (asSlice b).length, ?_, by simp [hlen]⟩
  rw [List.take_of_length_le hn] at htake
  exact ((List.take_append_drop (asSlice b).length (asSlice b')).symm.trans (by rw [htake]))

/-- Resizing the contents of a vector: cut off, or fill up with zeros. -/
def resized (bytes : List UInt8) (n : Nat) : List UInt8 :=
  bytes.take n ++ List.replicate (n - bytes.length) 0

theorem length_resized (bytes : List UInt8) (n : Nat) : (resized bytes n).length = n := by
  simp [resized]; omega

theorem take_resized (bytes : List UInt8) (n : Nat) :
    (resized bytes n).take bytes.length = bytes.take n := by
  rcases Nat.le_total n bytes.length with h | h
  · simp [resized, Nat.sub_eq_zero_of_le h, List.take_take, Nat.min_eq_right h]
  · simp [resized, List.take_of_length_le h]

/-! ## `Vec<u8>` -/

/-- `Vec<u8>`: its contents and its capacity. -/
structure VecBuffer where
  bytes : List UInt8
  capacity : Nat
  length_le : bytes.length ≤ capacity

namespace VecBuffer

/-- The capacity after making room for `n` bytes: at least doubled when it grows. -/
def grownCapacity (capacity n : Nat) : Nat :=
  if n ≤ capacity then capacity else max (max (2 * capacity) n) 8

theorem le_grownCapacity (capacity n : Nat) : n ≤ grownCapacity capacity n := by
  unfold grownCapacity; split <;> omega

/-- A vector with these contents and no spare capacity. -/
def ofBytes (bytes : List UInt8) : VecBuffer := ⟨bytes, bytes.length, Nat.le_refl _⟩

instance : Buffer VecBuffer where
  new := ⟨[], 0, by simp⟩
  withCapacity capacity := ⟨[], capacity, by simp⟩
  consume b n :=
    if n ≤ b.bytes.length then
      .ok ⟨b.bytes.drop n, b.capacity, by have := b.length_le; simp; omega⟩
    else .panic .drainRange
  clear b := ⟨[], b.capacity, by simp⟩
  resize b n :=
    (.ok (), ⟨resized b.bytes n, grownCapacity b.capacity n,
      by rw [length_resized]; exact le_grownCapacity _ _⟩)
  truncate b n := ⟨b.bytes.take n, b.capacity, by have := b.length_le; simp; omega⟩
  asSlice b := b.bytes
  setSlice b bytes :=
    ⟨bytes.take b.bytes.length, b.capacity, by have := b.length_le; simp; omega⟩
  len b := b.bytes.length
  capacity b := b.capacity

instance : LawfulBuffer VecBuffer where
  asSlice_new := rfl
  asSlice_withCapacity _ := rfl
  len_eq _ := rfl
  consume_ok b n h := by
    have h' : n ≤ b.bytes.length := h
    exact ⟨_, if_pos h', rfl⟩
  asSlice_clear _ := rfl
  asSlice_truncate _ _ := rfl
  asSlice_setSlice b bytes h := by
    change bytes.length = b.bytes.length at h
    exact (congrArg bytes.take h.symm).trans (by simp)
  resize_ok {b b' n} h := by
    cases h
    exact ⟨length_resized _ _, take_resized _ _⟩
  resize_error h := by cases h

instance : AmpleBuffer VecBuffer := ⟨fun b => b.length_le⟩

instance : DeterministicBuffer VecBuffer := ⟨fun _ _ _ _ => rfl⟩

end VecBuffer

/-! ## A buffer with a bound -/

/-- `BoundedBuffer<CAP>` of the test-suite: it fails to resize past `cap` bytes. -/
structure BoundedBuffer (cap : Nat) where
  inner : List UInt8
  deriving DecidableEq

namespace BoundedBuffer

variable {cap : Nat}

/-- The error of a refused resize. -/
def capError : IoError := ⟨.outOfMemory, .message "BoundedBuffer cap"⟩

instance : Buffer (BoundedBuffer cap) where
  new := ⟨[]⟩
  withCapacity _ := ⟨[]⟩
  consume b n := if n ≤ b.inner.length then .ok ⟨b.inner.drop n⟩ else .panic .drainRange
  clear _ := ⟨[]⟩
  resize b n := if cap < n then (.error capError, b) else (.ok (), ⟨resized b.inner n⟩)
  truncate b n := ⟨b.inner.take n⟩
  asSlice b := b.inner
  setSlice b bytes := ⟨bytes.take b.inner.length⟩
  len b := b.inner.length
  capacity _ := cap

theorem resize_eq (b : BoundedBuffer cap) (n : Nat) :
    resize b n = if cap < n then (.error capError, b) else (.ok (), ⟨resized b.inner n⟩) := rfl

instance : LawfulBuffer (BoundedBuffer cap) where
  asSlice_new := rfl
  asSlice_withCapacity _ := rfl
  len_eq _ := rfl
  consume_ok b n h := by
    have h' : n ≤ b.inner.length := h
    exact ⟨_, if_pos h', rfl⟩
  asSlice_clear _ := rfl
  asSlice_truncate _ _ := rfl
  asSlice_setSlice b bytes h := by
    change bytes.length = b.inner.length at h
    exact (congrArg bytes.take h.symm).trans (by simp)
  resize_ok {b b' n} h := by
    rw [resize_eq] at h
    split at h
    · simp at h
    · cases h
      exact ⟨length_resized _ _, take_resized _ _⟩
  resize_error {b b' n e} h := by
    rw [resize_eq] at h
    split at h
    · cases h; rfl
    · simp at h

instance : DeterministicBuffer (BoundedBuffer cap) where
  resize_det {_ b₁ b₂} _ _ _ n := by rw [resize_eq, resize_eq]; split <;> rfl

end BoundedBuffer

end PeekableReader
