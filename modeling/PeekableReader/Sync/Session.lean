import PeekableReader.Io.Transparent
import PeekableReader.Sync.Spec

/-!
# Sessions with a synchronous `Peekable`

A session is any finite sequence of operations on one `Peekable`, each with a
destination of the caller's choice. `perform` runs one operation and returns what the
caller can see of the stream: the bytes that left it, and the bytes that were reported
as peeked.

Whatever the reader answers and wherever the buffer refuses to grow, the bytes that left,
the peek buffer and what the reader still holds make up the original stream.
-/

namespace PeekableReader

open Buffer

/-- The operations on a `Peekable`. -/
inductive Op where
  | read (buf : List UInt8)
  | peek (buf : List UInt8)
  | peekVectored (bufs : List (List UInt8))
  | peekExact (buf : List UInt8)
  | peekToEnd (buf : List UInt8)
  | peekToString (buf : Str)
  | fillPeekBuf
  | consume
  | consumeInPlace

namespace Peekable

variable {R B : Type} [Read R] [Buffer B]

def perform (fuel : Nat) (p : Peekable R B) : Op → Exec (Seen × Peekable R B)
  | .read buf => do
    let (result, buf, p) ← p.read buf
    return (⟨counted result.toOption buf, []⟩, p)
  | .peek buf => do
    let (result, buf, p) ← p.peek fuel buf
    return (⟨[], counted result.toOption buf⟩, p)
  | .peekVectored bufs => do
    let (result, bufs, p) ← p.peekVectored fuel bufs
    return (⟨[], counted result.toOption bufs.flatten⟩, p)
  | .peekExact buf => do
    let (result, buf, p) ← p.peekExact fuel buf
    match result with
    | .ok () => return (⟨[], buf⟩, p)
    | .error _ => return (⟨[], []⟩, p)
  | .peekToEnd buf => do
    let (_, buf', p) ← p.peekToEnd fuel buf
    return (⟨[], buf'.drop buf.length⟩, p)
  | .peekToString buf => do
    let (_, buf', p) ← p.peekToString fuel buf
    return (⟨[], buf'.bytes.drop buf.bytes.length⟩, p)
  | .fillPeekBuf => do
    let (_, p) ← p.fillPeekBuf fuel
    return (⟨[], []⟩, p)
  | .consume =>
    let (buffer, p) := p.consume
    return (⟨asSlice buffer, []⟩, p)
  | .consumeInPlace => return (⟨p.peeked, []⟩, p.consumeInPlace)

/-- One operation of a session, with enough fuel for it to return. -/
def Step (p : Peekable R B) (op : Op) (seen : Seen) (p' : Peekable R B) : Prop :=
  ∃ fuel, p.perform fuel op = .ok (seen, p')

variable [Ledger R UInt8] [LawfulRead R] [LawfulBuffer B]

/-- What one operation of a session does to the stream. -/
theorem perform_post (fuel : Nat) (p : Peekable R B) (op : Op) :
    (p.perform fuel op).Post fun (seen, p') => Transparent p seen p' := by
  cases op with
  | read buf =>
    refine ((read_sat p buf).bind ?_).toPost
    intro out h
    obtain ⟨res, buf', p'⟩ := out
    exact Delivers.transparent h
  | peek buf =>
    refine ((peek_sat fuel p buf).bind ?_).toPost
    intro out h
    obtain ⟨res, buf', p'⟩ := out
    exact Peeks.transparent h
  | peekVectored bufs =>
    refine ((peekVectored_sat fuel p bufs).bind ?_).toPost
    intro out h
    obtain ⟨res, bufs', p'⟩ := out
    exact PeeksVectored.transparent h
  | peekExact buf =>
    refine ((peekExact_sat fuel p buf).bind ?_).toPost
    intro out h
    obtain ⟨res, buf', p'⟩ := out
    obtain ⟨d, hf⟩ := h.fetched
    cases res with
    | ok _ => exact ⟨hf.delivers_nil, (h.exact rfl).2 ▸ List.take_prefix _ _⟩
    | error e => exact ⟨hf.delivers_nil, List.nil_prefix⟩
  | peekToEnd buf =>
    refine ((peekToEnd_sat fuel p buf).bind ?_).toPost
    intro out h
    obtain ⟨res, buf', p'⟩ := out
    exact PeeksToEnd.transparent h
  | peekToString buf =>
    refine ((peekToString_sat fuel p buf).bind ?_).toPost
    intro out h
    obtain ⟨res, buf', p'⟩ := out
    exact PeeksToString.transparent h
  | fillPeekBuf =>
    refine (fillPeekBuf_post fuel p).bind ?_
    intro out h
    obtain ⟨res, p'⟩ := out
    obtain ⟨d, hf⟩ := h.fetched
    exact Exec.Sat.toPost ⟨hf.delivers_nil, List.nil_prefix⟩
  | consume => exact Exec.Sat.toPost (transparent_consume p)
  | consumeInPlace => exact Exec.Sat.toPost (transparent_consumeInPlace p)

end Peekable

end PeekableReader
