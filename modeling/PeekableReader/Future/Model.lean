import PeekableReader.Async.Model

/-!
# The `AsyncPeekable` of the `future` module

`poll_read`, `poll_peek` and `poll_peek_vectored` of `future.rs`, and the futures of
`future/`. A poll that takes a destination returns its answer, the destination
afterwards and the peekable reader afterwards.
-/

namespace PeekableReader.Future

open Buffer

variable {R B : Type} [AsyncRead R] [Buffer B]

/-- `reader.poll_read(cx, &mut buffer.as_mut_slice()[lo..hi])` -/
def readTail : TailRead R B := fun p lo hi => do
  let bytes := p.peeked
  let spare ← slice bytes lo hi
  let (poll, spare, reader) := AsyncRead.pollRead p.reader spare
  let buffer := setSlice p.buffer (bytes.take lo ++ spare ++ bytes.drop hi)
  return (poll, { p with reader, buffer })

/-- `AsyncRead::poll_read` -/
def pollRead (p : Peekable R B) (buf : List UInt8) :
    Exec (Poll (Except IoError Nat) × List UInt8 × Peekable R B) := do
  let wantRead := buf.length
  let bufferLen := len p.buffer
  if bufferLen > 0 then
    if wantRead < bufferLen then
      let src ← slice p.peeked 0 wantRead
      let buf ← copyFromSlice buf src
      let buffer ← Buffer.consume p.buffer wantRead
      return (.ready (.ok wantRead), buf, { p with buffer })
    else if wantRead = bufferLen then
      let buf ← copyFromSlice buf p.peeked
      return (.ready (.ok wantRead), buf, { p with buffer := clear p.buffer })
    else
      let buf ← copyInto buf 0 bufferLen p.peeked
      let rest ← slice buf bufferLen buf.length
      let (poll, rest, reader) := AsyncRead.pollRead p.reader rest
      let buf := buf.take bufferLen ++ rest
      let p := { p with reader, buffer := clear p.buffer }
      match poll with
      | .ready (.ok bytes) => return (.ready (.ok (bytes + bufferLen)), buf, p)
      | .ready (.error _) => return (.ready (.ok bufferLen), buf, p)
      | .pending => return (.ready (.ok bufferLen), buf, p)
  else
    let (poll, buf, reader) := AsyncRead.pollRead p.reader buf
    return (poll, buf, { p with reader })

/-- `AsyncPeek::poll_peek` -/
def pollPeek (fuel : Nat) (p : Peekable R B) (buf : List UInt8) :
    Exec (Poll (Except IoError Nat) × List UInt8 × Peekable R B) := do
  let wantPeek := buf.length
  let bufferLen := len p.buffer
  if bufferLen > 0 then
    if wantPeek < bufferLen then
      let src ← slice p.peeked 0 wantPeek
      let buf ← copyFromSlice buf src
      return (.ready (.ok wantPeek), buf, p)
    else if wantPeek = bufferLen then
      let buf ← copyFromSlice buf p.peeked
      return (.ready (.ok wantPeek), buf, p)
    else
      match resize p.buffer wantPeek with
      | (.error e, buffer) => return (.ready (.error e), buf, { p with buffer })
      | (.ok (), buffer) =>
        match ← pollRetry readTail fuel { p with buffer } bufferLen with
        | (.ready (.ok n), p) =>
          let p := p.truncate (n + bufferLen)
          let buf ← copyInto buf 0 (bufferLen + n) p.peeked
          return (.ready (.ok (bufferLen + n)), buf, p)
        | (.ready (.error e), p) =>
          let p := p.truncate bufferLen
          if e.kind = .wouldBlock then
            let buf ← copyInto buf 0 bufferLen p.peeked
            return (.ready (.ok bufferLen), buf, p)
          else return (.ready (.error e), buf, p)
        | (.pending, p) =>
          let p := p.truncate bufferLen
          let buf ← copyInto buf 0 bufferLen p.peeked
          return (.ready (.ok bufferLen), buf, p)
  else if wantPeek = 0 then
    return (.ready (.ok 0), buf, p)
  else
    let oldLen := len p.buffer
    match resize p.buffer (oldLen + wantPeek) with
    | (.error e, buffer) => return (.ready (.error e), buf, { p with buffer })
    | (.ok (), buffer) =>
      match ← pollRetry readTail fuel { p with buffer } oldLen with
      | (.ready (.ok n), p) =>
        let p := p.truncate (oldLen + n)
        let src ← slice p.peeked oldLen (oldLen + n)
        let buf ← copyInto buf 0 n src
        return (.ready (.ok n), buf, p)
      | (.ready (.error e), p) =>
        let p := p.truncate oldLen
        if e.kind = .wouldBlock then return (.pending, buf, p)
        else return (.ready (.error e), buf, p)
      | (.pending, p) => return (.pending, buf, p.truncate oldLen)

/-- `AsyncPeek::poll_peek_vectored`, as the trait provides it. -/
def pollPeekVectored (fuel : Nat) (p : Peekable R B) :
    List (List UInt8) → Exec (Poll (Except IoError Nat) × List (List UInt8) × Peekable R B)
  | [] => do
    let (poll, _, p) ← pollPeek fuel p []
    return (poll, [], p)
  | b :: bufs => do
    if b.isEmpty then
      let (poll, bufs, p) ← pollPeekVectored fuel p bufs
      return (poll, b :: bufs, p)
    else
      let (poll, b, p) ← pollPeek fuel p b
      return (poll, b :: bufs, p)

/-! ## The futures -/

/-- `future::Peek` -/
structure Peek (R B : Type) where
  peekable : Peekable R B
  buf : List UInt8
  deriving DecidableEq

def Peek.poll (fuel : Nat) (this : Peek R B) :
    Exec (Poll (Except IoError Nat) × Peek R B) := do
  let (poll, buf, peekable) ← pollPeek fuel this.peekable this.buf
  return (poll, ⟨peekable, buf⟩)

/-- `future::PeekVectored` -/
structure PeekVectored (R B : Type) where
  peekable : Peekable R B
  bufs : List (List UInt8)
  deriving DecidableEq

def PeekVectored.poll (fuel : Nat) (this : PeekVectored R B) :
    Exec (Poll (Except IoError Nat) × PeekVectored R B) := do
  let (poll, bufs, peekable) ← pollPeekVectored fuel this.peekable this.bufs
  return (poll, ⟨peekable, bufs⟩)

def PeekExact.poll (fuel : Nat) (this : PeekExact R B) :
    Exec (Poll (Except IoError Unit) × PeekExact R B) :=
  this.pollWith readTail (.ofKind .unexpectedEof) fuel

def PeekToEnd.poll (fuel : Nat) (this : PeekToEnd R B) :
    Exec (Poll (Except IoError Nat) × PeekToEnd R B) :=
  this.pollWith readTail fuel

def PeekToString.poll (fuel : Nat) (this : PeekToString R B) :
    Exec (Poll (Except IoError Nat) × PeekToString R B) :=
  this.pollWith readTail fuel

def FillPeekBuf.poll (me : FillPeekBuf R B) :
    Exec (Poll (Except IoError Nat) × FillPeekBuf R B) :=
  me.pollWith readTail

end PeekableReader.Future
