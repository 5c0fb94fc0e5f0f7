import PeekableReader.Sync.Alike
import PeekableReader.Sync.Session

/-!
# The operations of a session, with all they return

`call` runs an operation and keeps its result and its destination, where `perform` keeps
what the caller sees of the stream. Two peekable readers that are alike answer any sequence
of calls alike.
-/

namespace PeekableReader

open Buffer

variable {R R' B B' : Type} [Read R] [Read R'] [Buffer B] [Buffer B']

namespace Peekable

def call (fuel : Nat) (op : Op) (p : Peekable R B) :
    Exec (Answer (Except IoError Nat) × Peekable R B) :=
  match op with
  | .read buf => do
    let (result, buf, p) ← p.read buf
    return (.gave result [buf], p)
  | .peek buf => do
    let (result, buf, p) ← p.peek fuel buf
    return (.gave result [buf], p)
  | .peekVectored bufs => do
    let (result, bufs, p) ← p.peekVectored fuel bufs
    return (.gave result bufs, p)
  | .peekExact buf => do
    let (result, buf, p) ← p.peekExact fuel buf
    return (.gave (result.map fun () => buf.length) [buf], p)
  | .peekToEnd buf => do
    let (result, buf, p) ← p.peekToEnd fuel buf
    return (.gave result [buf], p)
  | .peekToString buf => do
    let (result, buf, p) ← p.peekToString fuel buf
    return (.gave result [buf.bytes], p)
  | .fillPeekBuf => do
    let (result, p) ← p.fillPeekBuf fuel
    return (.gave result [], p)
  | .consume =>
    let (buffer, p) := p.consume
    .ok (.handed (asSlice buffer), p)
  | .consumeInPlace => .ok (.done, p.consumeInPlace)

variable [BoundedRead R] [LawfulBuffer B] [LawfulBuffer B'] {S : R → R' → Prop} {T : B → B' → Prop}
  {p : Peekable R B} {q : Peekable R' B'}

theorem call_alike (hS : ReadSim S) (hT : BufferSim T) (fuel : Nat) (op : Op)
    (hfill : op = .fillPeekBuf → SameCapacity T) (h : Alike S T p q) :
    Exec.Rel (Agree (Alike S T)) (p.call fuel op) (q.call fuel op) := by
  cases op with
  | read buf =>
    exact (read_alike hS hT h buf).bind_agree₂ fun res buf' p₁ q₁ h₁ => ⟨rfl, h₁⟩
  | peek buf =>
    exact (peek_alike hS hT fuel h buf).bind_agree₂ fun res buf' p₁ q₁ h₁ => ⟨rfl, h₁⟩
  | peekVectored bufs =>
    exact (peekVectored_alike hS hT fuel h bufs).bind_agree₂ fun res bufs' p₁ q₁ h₁ => ⟨rfl, h₁⟩
  | peekExact buf =>
    exact (peekExact_alike hS hT fuel h buf).bind_agree₂ fun res buf' p₁ q₁ h₁ => ⟨rfl, h₁⟩
  | peekToEnd buf =>
    exact (peekToEnd_alike hS hT fuel h buf).bind_agree₂ fun res buf' p₁ q₁ h₁ => ⟨rfl, h₁⟩
  | peekToString buf =>
    exact (peekToString_alike hS hT fuel h buf).bind_agree₂ fun res buf' p₁ q₁ h₁ => ⟨rfl, h₁⟩
  | fillPeekBuf =>
    exact (fillPeekBuf_alike hS hT (hfill rfl) fuel h).bind_agree fun res p₁ q₁ h₁ => ⟨rfl, h₁⟩
  | consume =>
    obtain ⟨hbytes, h₁⟩ := h.consume hT
    exact ⟨congrArg _ hbytes, h₁⟩
  | consumeInPlace => exact ⟨rfl, h.consumeInPlace hT⟩

/-- Over any sequence of calls the answers are the same, and so is the way it ends. -/
theorem calls_alike (hS : ReadSim S) (hT : BufferSim T) (fuel : Nat) (ops : List Op)
    (hfill : Op.fillPeekBuf ∈ ops → SameCapacity T) (h : Alike S T p q) :
    Exec.Rel (Agree (Alike S T)) (runCalls (call fuel) ops p) (runCalls (call fuel) ops q) :=
  runCalls_rel (Alike S T) ops
    (fun op hop _ _ h => call_alike hS hT fuel op (fun heq => hfill (heq ▸ hop)) h) h

end Peekable

end PeekableReader
