import PeekableReader.Future.Alike
import PeekableReader.Io.Grow
import PeekableReader.Script.Basic
import PeekableReader.Sync.Calls
import PeekableReader.Tokio.Alike

/-!
# Which buffer is underneath

A peekable reader is generic in its buffer, and a caller cannot tell how the buffer keeps its
bytes or how its capacity grows: any two buffers that never refuse to grow and fill up with
zeros, as `Vec<u8>` does, give the same answers over every session, in all three flavours,
with every reader. Only `fill_peek_buf` asks for the capacity.
-/

namespace PeekableReader

open Buffer

/-- A buffer that never refuses to grow. -/
class InfallibleBuffer (B : Type) [Buffer B] : Prop where
  resize_succeeds (b : B) (n : Nat) : (resize b n).1 = .ok ()

instance : InfallibleBuffer VecBuffer := ⟨fun _ _ => rfl⟩

def SameBytes {B B' : Type} [Buffer B] [Buffer B'] (b : B) (b' : B') : Prop := asSlice b = asSlice b'

section

variable {B B' : Type} [Buffer B] [LawfulBuffer B] [ZeroFilling B] [Buffer B'] [LawfulBuffer B']
  [ZeroFilling B']

/-- Buffers that fill up with zeros, and agree on what they refuse, are told apart by nothing
but their capacity. -/
theorem BufferSim.sameBytes (hagree : ∀ (b : B) (b' : B') n, SameBytes b b' →
    (Buffer.resize b n).1 = (Buffer.resize b' n).1) : BufferSim (SameBytes : B → B' → Prop) where
  new := by simp [SameBytes]
  withCapacity n := by simp [SameBytes]
  asSlice h := h
  consume {b b' n} h hn := by
    obtain ⟨b₁, heq, hbytes⟩ := LawfulBuffer.consume_ok b hn
    obtain ⟨b₁', heq', hbytes'⟩ := LawfulBuffer.consume_ok b' (n := n) (h ▸ hn)
    rw [heq, heq', Exec.rel_ok, SameBytes, hbytes, hbytes', h]
  clear _ := by simp [SameBytes]
  resize {b b'} h n := by
    have hsame := hagree b b' n h
    refine ⟨hsame, ?_⟩
    rcases hres : Buffer.resize b n with ⟨_ | _, b₁⟩ <;>
      rcases hres' : Buffer.resize b' n with ⟨_ | _, b₁'⟩ <;> rw [hres, hres'] at hsame
    · rw [SameBytes, LawfulBuffer.resize_error hres, LawfulBuffer.resize_error hres', h]
    · cases hsame
    · cases hsame
    · rw [SameBytes, ZeroFilling.resize_zeros hres, ZeroFilling.resize_zeros hres', h]
  truncate {b b'} h n := by
    rw [SameBytes, asSlice_truncate, asSlice_truncate, h]
  setSlice {b b' bytes} h hlen := by
    rw [SameBytes, asSlice_setSlice b hlen, asSlice_setSlice b' (h ▸ hlen)]

variable [InfallibleBuffer B] [InfallibleBuffer B']

theorem BufferSim.infallible : BufferSim (SameBytes : B → B' → Prop) :=
  .sameBytes fun b b' n _ =>
    (InfallibleBuffer.resize_succeeds b n).trans (InfallibleBuffer.resize_succeeds b' n).symm

end

/-- No session without `fill_peek_buf` tells two such buffers apart: the answers are the same,
and so are the bytes and the reader it ends with. -/
theorem backends_agree (R R₁ R₂ W B B' : Type) [Read R] [BoundedRead R] [Future.AsyncRead R₁]
    [Future.BoundedAsyncRead R₁] [Tokio.AsyncRead R₂] [Tokio.BoundedAsyncRead R₂] [Tokio.BufMut W]
    [Buffer B] [LawfulBuffer B] [ZeroFilling B] [InfallibleBuffer B] [Buffer B'] [LawfulBuffer B']
    [ZeroFilling B'] [InfallibleBuffer B'] (fuel : Nat) :
    (∀ (ops : List Op) (p : Peekable R B) (q : Peekable R B'), Op.fillPeekBuf ∉ ops →
      Alike Eq SameBytes p q → Exec.Rel (Agree (Alike Eq SameBytes))
        (runCalls (Peekable.call fuel) ops p) (runCalls (Peekable.call fuel) ops q)) ∧
    (∀ (inputs : List Future.Input) (s : Future.Session R₁ B) (s' : Future.Session R₁ B'),
      Future.Input.fillPeekBuf ∉ inputs → s.Alike Eq SameBytes s' →
        Exec.Rel (Agree (Future.Session.Alike Eq SameBytes))
          (runCalls (Future.Session.call fuel) inputs s)
          (runCalls (Future.Session.call fuel) inputs s')) ∧
    ∀ (inputs : List (Tokio.Input W)) (s : Tokio.Session R₂ W B) (s' : Tokio.Session R₂ W B'),
      Tokio.Input.fillPeekBuf ∉ inputs → s.Alike Eq SameBytes s' →
        Exec.Rel (Agree (Tokio.Session.Alike Eq SameBytes))
          (runCalls (Tokio.Session.call fuel) inputs s)
          (runCalls (Tokio.Session.call fuel) inputs s') := by
  refine ⟨?_, ?_, ?_⟩
  · intro ops p q hfill h
    exact Peekable.calls_alike .eq .infallible fuel ops (fun hmem => absurd hmem hfill) h
  · intro inputs s s' hfill h
    exact Future.Session.calls_alike .eq .infallible fuel inputs (fun hmem => absurd hmem hfill) h
  · intro inputs s s' hfill h
    exact Tokio.Session.calls_alike .eq .infallible fuel inputs (fun hmem => absurd hmem hfill) h

/-- A vector with its capacity allocated beforehand, and one that grows when it has to. -/
theorem backends_agree_capacity :
    Exec.Rel (Agree (Alike Eq SameBytes))
      (runCalls (Peekable.call 5) [.peek [0, 0, 0], .read [0]]
        (Peekable.withCapacityAndBuffer (B := VecBuffer) (Script.mk [.data [1, 2, 3]]) 8))
      (runCalls (Peekable.call 5) [.peek [0, 0, 0], .read [0]]
        (Peekable.construct (Script.mk [.data [1, 2, 3]]) (VecBuffer.ofBytes []) (some 8))) := by
  have hagree := (backends_agree Script PollScript PollScript Tokio.SliceSink VecBuffer VecBuffer 5).1
  exact hagree [.peek [0, 0, 0], .read [0]] (.withCapacityAndBuffer _ 8) (.construct _ _ _)
    (by simp) ⟨rfl, rfl, rfl⟩

end PeekableReader
