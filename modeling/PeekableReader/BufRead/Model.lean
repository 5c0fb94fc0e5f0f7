import PeekableReader.Async.Read
import PeekableReader.Io.Peekable

/-!
# `BufRead` and `AsyncBufRead`

A buffered reader exposes bytes it holds with `fill_buf` and takes them off with
`consume`. The traits of `futures` and `tokio` have one shape, `AsyncBufRead`. A
peekable reader over a buffered one is buffered itself: it exposes its peek buffer, or
what the inner reader exposes if that is empty. The body of `consume` is the same in
all three flavours and forwards what goes beyond the peek buffer.
-/

namespace PeekableReader

open Buffer

/-- `std::io::BufRead` -/
class BufRead (R : Type) where
  fillBuf (r : R) : Except IoError (List UInt8) × R
  consume (r : R) (amt : Nat) : Exec R

/-- `futures_util::AsyncBufRead` and `tokio::io::AsyncBufRead` -/
class AsyncBufRead (R : Type) where
  pollFillBuf (r : R) : Poll (Except IoError (List UInt8)) × R
  consume (r : R) (amt : Nat) : Exec R

namespace Peekable

variable {R B : Type} [Buffer B]

/-- `BufRead::fill_buf` -/
def fillBuf [BufRead R] (p : Peekable R B) : Except IoError (List UInt8) × Peekable R B :=
  let bufferLen := len p.buffer
  if bufferLen > 0 then (.ok (asSlice p.buffer), p)
  else
    let (result, reader) := BufRead.fillBuf p.reader
    (result, { p with reader })

/-- `AsyncBufRead::poll_fill_buf` -/
def pollFillBuf [AsyncBufRead R] (p : Peekable R B) :
    Poll (Except IoError (List UInt8)) × Peekable R B :=
  let bufferLen := len p.buffer
  if bufferLen > 0 then (.ready (.ok (asSlice p.buffer)), p)
  else
    let (poll, reader) := AsyncBufRead.pollFillBuf p.reader
    (poll, { p with reader })

/-- `consume` of the `BufRead` traits, with the `consume` of the inner reader. -/
def consumeWith (inner : R → Nat → Exec R) (p : Peekable R B) (amt : Nat) :
    Exec (Peekable R B) := do
  let bufferLen := len p.buffer
  if bufferLen > 0 then
    let available := min amt bufferLen
    let buffer ← Buffer.consume p.buffer available
    let reader ← inner p.reader (amt - available)
    return { p with reader, buffer }
  else
    let reader ← inner p.reader amt
    return { p with reader }

/-- `BufRead::consume` -/
def consumeAmt [BufRead R] (p : Peekable R B) (amt : Nat) : Exec (Peekable R B) :=
  p.consumeWith BufRead.consume amt

/-- `AsyncBufRead::consume` -/
def asyncConsumeAmt [AsyncBufRead R] (p : Peekable R B) (amt : Nat) : Exec (Peekable R B) :=
  p.consumeWith AsyncBufRead.consume amt

variable [LawfulBuffer B]

/-- What `consume` does: the peek buffer gives what it can, the inner reader the rest. -/
theorem consumeWith_eq (inner : R → Nat → Exec R) (p : Peekable R B) (amt : Nat) :
    ∃ buffer, asSlice buffer = p.peeked.drop (min amt p.peeked.length) ∧
      p.consumeWith inner amt =
        (inner p.reader (amt - min amt p.peeked.length)).bind
          fun reader => .ok { p with reader, buffer } := by
  simp only [consumeWith, len_buffer]
  by_cases hpos : p.peeked.length > 0
  · obtain ⟨buffer, hb, hdrop⟩ :=
      LawfulBuffer.consume_ok p.buffer (n := min amt p.peeked.length) (Nat.min_le_right _ _)
    refine ⟨buffer, hdrop, ?_⟩
    simp only [if_pos hpos, hb, Exec.ok_bind]
    rfl
  · have hnil : p.peeked.length = 0 := by omega
    refine ⟨p.buffer, by rw [hnil, Nat.min_zero]; rfl, ?_⟩
    rw [if_neg hpos, hnil, Nat.min_zero, Nat.sub_zero]
    rfl

/-- Only the inner reader can panic in `consume`. -/
theorem consumeWith_panic {inner : R → Nat → Exec R} {p : Peekable R B} {amt : Nat} {w : Panic}
    (h : p.consumeWith inner amt = .panic w) :
    inner p.reader (amt - min amt p.peeked.length) = .panic w := by
  obtain ⟨buffer, -, heq⟩ := consumeWith_eq inner p amt
  rw [heq] at h
  cases hinner : inner p.reader (amt - min amt p.peeked.length) <;>
    simp [hinner, Exec.bind] at h ⊢
  exact h

end Peekable

end PeekableReader
