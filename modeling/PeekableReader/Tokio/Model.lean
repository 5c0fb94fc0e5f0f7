import PeekableReader.Async.Model

/-!
# The `AsyncPeekable` of the `tokio` module

`poll_read` and `poll_peek` of `tokio.rs`, and the futures of `tokio/`. Destinations are
`ReadBuf`s; `PeekBuf` peeks into a `BufMut`.
-/

namespace PeekableReader.Tokio

open Buffer

variable {R B : Type} [AsyncRead R] [Buffer B]

/-- A poll of the reader with a fresh `ReadBuf` over `buffer.as_mut_slice()[lo..hi]`, and
the length of what is then filled. -/
def readTail : TailRead R B := fun p lo hi => do
  let bytes := p.peeked
  let spare ← slice bytes lo hi
  let (poll, tail, reader) := AsyncRead.pollRead p.reader (ReadBuf.new spare)
  let buffer := setSlice p.buffer (bytes.take lo ++ tail.buf ++ bytes.drop hi)
  return (poll.mapOk fun () => tail.filledBytes.length, { p with reader, buffer })

/-- `AsyncRead::poll_read` -/
def pollRead (p : Peekable R B) (buf : ReadBuf) :
    Exec (Poll (Except IoError Unit) × ReadBuf × Peekable R B) := do
  let bufferLen := len p.buffer
  if bufferLen > 0 then
    let available := buf.remaining
    if available < bufferLen then
      let src ← slice p.peeked 0 available
      let buf ← buf.putSlice src
      let buffer ← Buffer.consume p.buffer available
      return (.ready (.ok ()), buf, { p with buffer })
    else if available = bufferLen then
      let buf ← buf.putSlice p.peeked
      return (.ready (.ok ()), buf, { p with buffer := clear p.buffer })
    else
      let buf ← buf.putSlice p.peeked
      let (poll, buf, reader) := AsyncRead.pollRead p.reader buf
      let p := { p with reader, buffer := clear p.buffer }
      match poll with
      | .ready (.ok ()) => return (.ready (.ok ()), buf, p)
      | .ready (.error _) => return (.ready (.ok ()), buf, p)
      | .pending => return (.ready (.ok ()), buf, p)
  else
    let (poll, buf, reader) := AsyncRead.pollRead p.reader buf
    return (poll, buf, { p with reader })

/-- `AsyncPeek::poll_peek` -/
def pollPeek (fuel : Nat) (p : Peekable R B) (buf : ReadBuf) :
    Exec (Poll (Except IoError Unit) × ReadBuf × Peekable R B) := do
  let bufferLen := len p.buffer
  let available := buf.remaining
  if available = 0 then
    return (.ready (.ok ()), buf, p)
  else if bufferLen ≥ available then
    let src ← slice p.peeked 0 available
    let buf ← buf.putSlice src
    return (.ready (.ok ()), buf, p)
  else
    let want := available - bufferLen
    let oldLen := bufferLen
    match resize p.buffer (oldLen + want) with
    | (.error e, buffer) => return (.ready (.error e), buf, { p with buffer })
    | (.ok (), buffer) =>
      match ← pollRetry readTail fuel { p with buffer } oldLen with
      | (.ready (.ok n), p) =>
        let p := p.truncate (oldLen + n)
        let src ← slice p.peeked 0 (oldLen + n)
        let buf ← buf.putSlice src
        return (.ready (.ok ()), buf, p)
      | (.ready (.error e), p) =>
        let p := p.truncate oldLen
        if e.kind = .wouldBlock then
          if bufferLen > 0 then
            let buf ← buf.putSlice p.peeked
            return (.ready (.ok ()), buf, p)
          else return (.pending, buf, p)
        else return (.ready (.error e), buf, p)
      | (.pending, p) =>
        let p := p.truncate oldLen
        if bufferLen > 0 then
          let buf ← buf.putSlice p.peeked
          return (.ready (.ok ()), buf, p)
        else return (.pending, buf, p)

/-! ## The futures -/

/-- `tokio::Peek` -/
structure Peek (R B : Type) where
  peekable : Peekable R B
  buf : List UInt8
  deriving DecidableEq

def Peek.poll (fuel : Nat) (me : Peek R B) : Exec (Poll (Except IoError Nat) × Peek R B) := do
  let (poll, buf, peekable) ← pollPeek fuel me.peekable (ReadBuf.new me.buf)
  return (poll.mapOk fun () => buf.filledBytes.length, ⟨peekable, buf.buf⟩)

/-- `bytes::BufMut`: a sink that offers one chunk of spare room at a time. -/
class BufMut (W : Type) where
  hasRemainingMut (w : W) : Bool
  /-- The bytes in the chunk that `chunk_mut` returns, whatever they are. -/
  chunkMut (w : W) : List UInt8
  /-- The sink after the chunk has been written to. -/
  setChunk (w : W) (bytes : List UInt8) : W
  /-- Declare the first `n` bytes of the chunk written. -/
  advanceMut (w : W) (n : Nat) : Exec W
  /-- The bytes declared written so far. -/
  written (w : W) : List UInt8

/-- What the documentation of `BufMut` promises. -/
class LawfulBufMut (W : Type) [BufMut W] : Prop where
  chunkMut_setChunk (w : W) {bytes : List UInt8} (h : bytes.length = (BufMut.chunkMut w).length) :
    BufMut.chunkMut (BufMut.setChunk w bytes) = bytes
  written_setChunk (w : W) (bytes : List UInt8) :
    BufMut.written (BufMut.setChunk w bytes) = BufMut.written w
  advanceMut_ok (w : W) {n : Nat} (h : n ≤ (BufMut.chunkMut w).length) :
    ∃ w', BufMut.advanceMut w n = .ok w' ∧
      BufMut.written w' = BufMut.written w ++ (BufMut.chunkMut w).take n

/-- `BufMut` for `&mut [u8]`: the bytes written, and the slice that is left. -/
structure SliceSink where
  done : List UInt8
  left : List UInt8
  deriving DecidableEq, Repr

instance : BufMut SliceSink where
  hasRemainingMut w := !w.left.isEmpty
  chunkMut w := w.left
  setChunk w bytes := { w with left := bytes }
  advanceMut w n :=
    if n ≤ w.left.length then .ok ⟨w.done ++ w.left.take n, w.left.drop n⟩ else .panic .advanceRange
  written w := w.done

instance : LawfulBufMut SliceSink where
  chunkMut_setChunk _ _ _ := rfl
  written_setChunk _ _ := rfl
  advanceMut_ok _ _ h := ⟨_, if_pos h, rfl⟩

/-- `tokio::PeekBuf` -/
structure PeekBuf (R W B : Type) where
  peeker : Peekable R B
  buf : W
  deriving DecidableEq

def PeekBuf.poll {W : Type} [BufMut W] (fuel : Nat) (me : PeekBuf R W B) :
    Exec (Poll (Except IoError Nat) × PeekBuf R W B) := do
  if ¬ BufMut.hasRemainingMut me.buf then return (.ready (.ok 0), me)
  else
    let dst := BufMut.chunkMut me.buf
    let (poll, buf, peeker) ← pollPeek fuel me.peeker (ReadBuf.new dst)
    let sink := BufMut.setChunk me.buf buf.buf
    match poll with
    | .pending => return (.pending, ⟨peeker, sink⟩)
    | .ready (.error e) => return (.ready (.error e), ⟨peeker, sink⟩)
    | .ready (.ok ()) =>
      let n := buf.filledBytes.length
      let sink ← BufMut.advanceMut sink n
      return (.ready (.ok n), ⟨peeker, sink⟩)

/-- `eof` of `tokio/peek_exact.rs` -/
def eof : IoError := ⟨.unexpectedEof, .message "early eof"⟩

/-- The tokio future also returns how many bytes it peeked. -/
def PeekExact.poll (fuel : Nat) (me : PeekExact R B) :
    Exec (Poll (Except IoError Nat) × PeekExact R B) := do
  let total := me.buf.length
  let (poll, me) ← me.pollWith readTail eof fuel
  return (poll.mapOk fun () => total, me)

def PeekToEnd.poll (fuel : Nat) (me : PeekToEnd R B) :
    Exec (Poll (Except IoError Nat) × PeekToEnd R B) :=
  me.pollWith readTail fuel

def PeekToString.poll (fuel : Nat) (me : PeekToString R B) :
    Exec (Poll (Except IoError Nat) × PeekToString R B) :=
  me.pollWith readTail fuel

def FillPeekBuf.poll (me : FillPeekBuf R B) :
    Exec (Poll (Except IoError Nat) × FillPeekBuf R B) :=
  me.pollWith readTail

end PeekableReader.Tokio
