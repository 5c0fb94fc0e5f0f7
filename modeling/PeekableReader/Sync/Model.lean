import PeekableReader.Io.Peekable

/-!
# The synchronous `Peekable`

The functions of `lib.rs`, statement by statement. A method that takes `&mut self` and
a destination returns its result, the destination afterwards and the reader afterwards.
Loops take fuel; a loop nested in another starts with the fuel its caller has left.
-/

namespace PeekableReader.Peekable

open Buffer

variable {R B : Type} [Read R] [Buffer B]

/-- `this.reader.read(&mut this.buffer.as_mut_slice()[lo..hi])` -/
def readSpare (p : Peekable R B) (lo hi : Nat) : Exec (Except IoError Nat × Peekable R B) := do
  let bytes := p.peeked
  let spare ← slice bytes lo hi
  let (result, spare, reader) := Read.read p.reader spare
  let buffer := setSlice p.buffer (bytes.take lo ++ spare ++ bytes.drop hi)
  return (result, { p with reader, buffer })

/-- Read into the peek buffer from `lo` on, again after each `Interrupted`. -/
def readRetry (fuel : Nat) (p : Peekable R B) (lo : Nat) :
    Exec (Except IoError Nat × Peekable R B) :=
  match fuel with
  | 0 => .diverge
  | fuel + 1 => do
    match ← readSpare p lo p.peeked.length with
    | (.ok n, p) => return (.ok n, p)
    | (.error e, p) =>
      if e.kind = .interrupted then readRetry fuel p lo else return (.error e, p)

/-- `Read::read` -/
def read (p : Peekable R B) (buf : List UInt8) :
    Exec (Except IoError Nat × List UInt8 × Peekable R B) := do
  let wantPeek := buf.length
  let peekBuf := p.peeked
  let bufferLen := peekBuf.length
  if bufferLen > 0 then
    if wantPeek < bufferLen then
      let src ← slice peekBuf 0 wantPeek
      let buf ← copyFromSlice buf src
      let buffer ← Buffer.consume p.buffer wantPeek
      return (.ok wantPeek, buf, { p with buffer })
    else if wantPeek = bufferLen then
      let buf ← copyFromSlice buf peekBuf
      return (.ok wantPeek, buf, { p with buffer := clear p.buffer })
    else
      let buf ← copyInto buf 0 bufferLen peekBuf
      let rest ← slice buf bufferLen buf.length
      let (result, rest, reader) := Read.read p.reader rest
      let buf := buf.take bufferLen ++ rest
      let p := { p with reader, buffer := clear p.buffer }
      match result with
      | .ok bytes => return (.ok (bytes + bufferLen), buf, p)
      | .error _ => return (.ok bufferLen, buf, p)
  else
    let (result, buf, reader) := Read.read p.reader buf
    return (result, buf, { p with reader })

def peek (fuel : Nat) (p : Peekable R B) (buf : List UInt8) :
    Exec (Except IoError Nat × List UInt8 × Peekable R B) := do
  let wantPeek := buf.length
  let bufferLen := len p.buffer
  if bufferLen > 0 then
    if wantPeek < bufferLen then
      let src ← slice p.peeked 0 wantPeek
      let buf ← copyFromSlice buf src
      return (.ok wantPeek, buf, p)
    else if wantPeek = bufferLen then
      let buf ← copyFromSlice buf p.peeked
      return (.ok wantPeek, buf, p)
    else
      match resize p.buffer wantPeek with
      | (.error e, buffer) => return (.error e, buf, { p with buffer })
      | (.ok (), buffer) =>
        match ← readRetry fuel { p with buffer } bufferLen with
        | (.ok n, p) =>
          let p := p.truncate (n + bufferLen)
          let buf ← copyInto buf 0 (bufferLen + n) p.peeked
          return (.ok (bufferLen + n), buf, p)
        | (.error e, p) => return (.error e, buf, p.truncate bufferLen)
  else if wantPeek = 0 then
    return (.ok 0, buf, p)
  else
    let oldLen := len p.buffer
    match resize p.buffer (oldLen + wantPeek) with
    | (.error e, buffer) => return (.error e, buf, { p with buffer })
    | (.ok (), buffer) =>
      match ← readRetry fuel { p with buffer } oldLen with
      | (.ok n, p) =>
        let p := p.truncate (oldLen + n)
        let src ← slice p.peeked oldLen (oldLen + n)
        let buf ← copyInto buf 0 n src
        return (.ok n, buf, p)
      | (.error e, p) => return (.error e, buf, p.truncate oldLen)

/-- Peek into the first nonempty buffer, or into an empty one if there is none. -/
def peekVectored (fuel : Nat) (p : Peekable R B) :
    List (List UInt8) → Exec (Except IoError Nat × List (List UInt8) × Peekable R B)
  | [] => do
    let (result, _, p) ← peek fuel p []
    return (result, [], p)
  | b :: bufs => do
    if b.isEmpty then
      let (result, bufs, p) ← peekVectored fuel p bufs
      return (result, b :: bufs, p)
    else
      let (result, b, p) ← peek fuel p b
      return (result, b :: bufs, p)

/-- The `loop` of `peek_to_end`. -/
def peekToEndLoop (fuel : Nat) (p : Peekable R B) (buf : List UInt8) :
    Exec (Except IoError Nat × List UInt8 × Peekable R B) :=
  match fuel with
  | 0 => .diverge
  | fuel + 1 => do
    let oldLen := len p.buffer
    match growPeekBuffer p.buffer with
    | (.error e, buffer) => return (.error e, buf, { p with buffer })
    | (.ok growth, buffer) =>
      match ← readSpare { p with buffer } oldLen (oldLen + growth) with
      | (.ok n, p) =>
        if n = 0 then
          let p := p.truncate oldLen
          return (.ok (len p.buffer), buf, p)
        else
          let p := p.truncate (oldLen + n)
          let chunk ← slice p.peeked oldLen (oldLen + n)
          peekToEndLoop fuel p (buf ++ chunk)
      | (.error e, p) =>
        let p := p.truncate oldLen
        if e.kind = .interrupted then peekToEndLoop fuel p buf else return (.error e, buf, p)

def peekToEnd (fuel : Nat) (p : Peekable R B) (buf : List UInt8) :
    Exec (Except IoError Nat × List UInt8 × Peekable R B) :=
  peekToEndLoop fuel p (buf ++ p.peeked)

/-- The `loop` of `peek_to_string`, with its `loop_result`. -/
def peekToStringLoop (fuel : Nat) (p : Peekable R B) :
    Exec (Except IoError Unit × Peekable R B) :=
  match fuel with
  | 0 => .diverge
  | fuel + 1 => do
    let oldLen := len p.buffer
    match growPeekBuffer p.buffer with
    | (.error e, buffer) => return (.error e, { p with buffer })
    | (.ok growth, buffer) =>
      match ← readSpare { p with buffer } oldLen (oldLen + growth) with
      | (.ok n, p) =>
        if n = 0 then return (.ok (), p.truncate oldLen)
        else peekToStringLoop fuel (p.truncate (oldLen + n))
      | (.error e, p) =>
        let p := p.truncate oldLen
        if e.kind = .interrupted then peekToStringLoop fuel p else return (.error e, p)

def peekToString (fuel : Nat) (p : Peekable R B) (buf : Str) :
    Exec (Except IoError Nat × Str × Peekable R B) := do
  match earlyReject p.peeked with
  | some e => return (.error (invalidUtf8IoError e), buf, p)
  | none =>
    let (loopResult, p) ← peekToStringLoop fuel p
    let (result, buf) ← finishString loopResult p.peeked buf
    return (result, buf, p)

/-- The `while` of `peek_exact`. -/
def peekExactLoop (fuel : Nat) (p : Peekable R B) (buf : List UInt8) (filled : Nat) :
    Exec (Except IoError Unit × List UInt8 × Peekable R B) :=
  match fuel with
  | 0 => .diverge
  | fuel + 1 => do
    let total := buf.length
    if filled < total then
      let oldLen := len p.buffer
      let want := total - filled
      match resize p.buffer (oldLen + want) with
      | (.error e, buffer) => return (.error e, buf, { p with buffer })
      | (.ok (), buffer) =>
        match ← readRetry (fuel + 1) { p with buffer } oldLen with
        | (.error e, p) => return (.error e, buf, p.truncate oldLen)
        | (.ok n, p) =>
          let p := p.truncate (oldLen + n)
          if n = 0 then return (.error (.ofKind .unexpectedEof), buf, p)
          else
            let src ← slice p.peeked oldLen (oldLen + n)
            let buf ← copyInto buf filled (filled + n) src
            peekExactLoop fuel p buf (filled + n)
    else return (.ok (), buf, p)

def peekExact (fuel : Nat) (p : Peekable R B) (buf : List UInt8) :
    Exec (Except IoError Unit × List UInt8 × Peekable R B) := do
  let total := buf.length
  let peekBufLen := len p.buffer
  if total ≤ peekBufLen then
    let src ← slice p.peeked 0 total
    let buf ← copyFromSlice buf src
    return (.ok (), buf, p)
  else
    let buf ← copyInto buf 0 peekBufLen p.peeked
    peekExactLoop fuel p buf peekBufLen

def fillPeekBuf (fuel : Nat) (p : Peekable R B) : Exec (Except IoError Nat × Peekable R B) := do
  let cap := capacity p.buffer
  let cur := len p.buffer
  match resize p.buffer cap with
  | (.error e, buffer) => return (.error e, { p with buffer })
  | (.ok (), buffer) =>
    match ← readRetry fuel { p with buffer } cur with
    | (.ok peeked, p) => return (.ok peeked, p.truncate (cur + peeked))
    | (.error e, p) => return (.error e, p.truncate cur)

end PeekableReader.Peekable
