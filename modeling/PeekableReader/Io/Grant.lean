import PeekableReader.Io.Peekable

/-!
# Buffers that answer by their contents

Whether a buffer may grow is a property of the implementation. A `Grant` is such a
property in the abstract, a function of the contents and of the length asked for, and
`Follows grant b` says that the buffer `b` behaves that way and will go on doing so.
`growth` is then the outcome of `grow_peek_buffer` as a function of the contents.
-/

namespace PeekableReader

open Buffer

/-- How buffers with some contents answer a request for some length. -/
abbrev Grant := List UInt8 → Nat → Except IoError Unit

/-- What peeking makes of `b` answers as `grant` does. -/
def Follows {B : Type} [Buffer B] (grant : Grant) (b : B) : Prop :=
  ∀ b' : B, Reshapes b b' → ∀ n, (resize b' n).1 = grant (asSlice b') n

theorem Follows.reshapes {B : Type} [Buffer B] {grant : Grant} {b b' : B} (h : Follows grant b)
    (hb : Reshapes b b') : Follows grant b' := fun b'' hb' => h b'' (hb.trans hb')

theorem Follows.truncate {B : Type} [Buffer B] {grant : Grant} {b : B} (h : Follows grant b)
    (n : Nat) : Follows grant (Buffer.truncate b n) := h.reshapes (Reshapes.refl.truncate n)

/-- What peeking makes of `b` answers a request for `n` bytes as `grant` does. -/
def FollowsAt {B : Type} [Buffer B] (grant : Grant) (n : Nat) (b : B) : Prop :=
  ∀ b' : B, Reshapes b b' → (resize b' n).1 = grant (asSlice b') n

theorem Follows.at {B : Type} [Buffer B] {grant : Grant} {b : B} (h : Follows grant b) (n : Nat) :
    FollowsAt grant n b := fun b' hb => h b' hb n

theorem FollowsAt.reshapes {B : Type} [Buffer B] {grant : Grant} {n : Nat} {b b' : B}
    (h : FollowsAt grant n b) (hb : Reshapes b b') : FollowsAt grant n b' :=
  fun b'' hb' => h b'' (hb.trans hb')

theorem DeterministicBuffer.follows {B : Type} [Buffer B] [DeterministicBuffer B] (b : B) :
    ∃ grant, Follows grant b := by
  classical
  let grant : Grant := fun bytes n =>
    if h : ∃ b' : B, Reshapes b b' ∧ asSlice b' = bytes then (resize h.choose n).1 else .ok ()
  refine ⟨grant, ?_⟩
  intro b₁ hb₁ n
  have hb : ∃ b' : B, Reshapes b b' ∧ asSlice b' = asSlice b₁ := ⟨b₁, hb₁, rfl⟩
  simp only [grant, dif_pos hb]
  exact resize_det hb₁ hb.choose_spec.1 hb.choose_spec.2.symm n

/-- The outcome of the loop of `grow_peek_buffer`. -/
def growth (grant : Grant) (bytes : List UInt8) (step : Nat) : Except IoError Nat :=
  match grant bytes (bytes.length + step) with
  | .ok () => .ok step
  | .error e => if step > 1 then growth grant bytes (step / 2) else .error e
termination_by step

section Reshapes

variable {B : Type} [Buffer B]

theorem Reshapes.of_resize {b b' : B} {n : Nat} {result : Except IoError Unit}
    (h : Buffer.resize b n = (result, b')) : Reshapes b b' := by
  have hreshapes := (Reshapes.refl (b := b)).resize n
  rwa [h] at hreshapes

theorem growLoop_reshapes (b : B) (oldLen step : Nat) :
    Reshapes b (growLoop b oldLen step).2 := by
  fun_induction growLoop b oldLen step with
  | case1 b step b' h => exact .of_resize h
  | case2 b step e b' h hgt ih => exact (Reshapes.of_resize h).trans ih
  | case3 b step e b' h hle => exact .of_resize h

theorem Reshapes.of_grow {b b' : B} {result : Except IoError Nat}
    (h : growPeekBuffer b = (result, b')) : Reshapes b b' := by
  have hreshapes := growLoop_reshapes b (len b) readChunk
  rwa [show growLoop b (len b) readChunk = (result, b') from h] at hreshapes

end Reshapes

variable {B : Type} [Buffer B] [LawfulBuffer B] {grant : Grant}

theorem growLoop_fst {b : B} (hgrant : Follows grant b) {oldLen : Nat}
    (hlen : oldLen = (asSlice b).length) (step : Nat) :
    (growLoop b oldLen step).1 = growth grant (asSlice b) step := by
  fun_induction growLoop b oldLen step with
  | case1 b step b' h =>
    have hg := hgrant b .refl (oldLen + step)
    rw [h, hlen] at hg
    rw [growth, ← hg]
  | case2 b step e b' h hgt ih =>
    have hg := hgrant b .refl (oldLen + step)
    have hsame := LawfulBuffer.resize_error h
    rw [h, hlen] at hg
    rw [growth, ← hg]
    simp only [if_pos hgt]
    rw [ih (hgrant.reshapes (.of_resize h)) (by rw [hsame]; exact hlen), hsame]
  | case3 b step e b' h hle =>
    have hg := hgrant b .refl (oldLen + step)
    rw [h, hlen] at hg
    rw [growth, ← hg]
    simp only [if_neg hle]

/-- Growing a peek buffer, by its contents alone. -/
theorem growPeekBuffer_fst {b : B} (hgrant : Follows grant b) :
    (growPeekBuffer b).1 = growth grant (asSlice b) readChunk :=
  growLoop_fst hgrant (len_eq b) readChunk

end PeekableReader
