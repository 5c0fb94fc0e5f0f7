import PeekableReader.Async.Read
import PeekableReader.Io.Peekable

/-!
# The futures of both asynchronous flavours

`PeekExact`, `PeekToEnd`, `PeekToString` and `FillPeekBuf` have the same bodies in
`future/` and `tokio/`, up to how the reader is polled with the tail of the peek buffer.
That poll is the parameter `tail`: `tail p lo hi` polls the reader with
`buffer.as_mut_slice()[lo..hi]` and returns the number of bytes that arrived.

A future is a structure of its fields, and `pollWith` is its `poll`. The loop inside a
single poll takes fuel, as in the synchronous model.
-/

namespace PeekableReader

open Buffer

variable {R B : Type} [Buffer B]

/-- A poll of the reader with a range of the peek buffer. -/
abbrev TailRead (R B : Type) :=
  Peekable R B → Nat → Nat → Exec (Poll (Except IoError Nat) × Peekable R B)

/-- Poll the reader with the tail of the peek buffer, again after each `Interrupted`: the
loops of `poll_peek`. -/
def pollRetry (tail : TailRead R B) (fuel : Nat) (p : Peekable R B) (lo : Nat) :
    Exec (Poll (Except IoError Nat) × Peekable R B) :=
  match fuel with
  | 0 => .diverge
  | fuel + 1 => do
    match ← tail p lo p.peeked.length with
    | (.ready (.error e), p) =>
      if e.kind = .interrupted then pollRetry tail fuel p lo else return (.ready (.error e), p)
    | (poll, p) => return (poll, p)

structure PeekExact (R B : Type) where
  peekable : Peekable R B
  buf : List UInt8
  /-- How many bytes of `buf` have been filled so far. -/
  filled : Nat
  deriving DecidableEq

namespace PeekExact

def new (peekable : Peekable R B) (buf : List UInt8) : PeekExact R B := ⟨peekable, buf, 0⟩

/-- The `while` of `poll`. -/
def loop (tail : TailRead R B) (eof : IoError) (fuel : Nat) (this : PeekExact R B) :
    Exec (Poll (Except IoError Unit) × PeekExact R B) :=
  match fuel with
  | 0 => .diverge
  | fuel + 1 => do
    let total := this.buf.length
    if this.filled < total then
      let oldLen := len this.peekable.buffer
      let want := total - this.filled
      match resize this.peekable.buffer (oldLen + want) with
      | (.error e, buffer) =>
        return (.ready (.error e), { this with peekable := { this.peekable with buffer } })
      | (.ok (), buffer) =>
        match ← tail { this.peekable with buffer } oldLen (asSlice buffer).length with
        | (.ready (.ok n), p) =>
          let p := p.truncate (oldLen + n)
          if n = 0 then return (.ready (.error eof), { this with peekable := p })
          else
            let src ← slice p.peeked oldLen (oldLen + n)
            let buf ← copyInto this.buf this.filled (this.filled + n) src
            loop tail eof fuel ⟨p, buf, this.filled + n⟩
        | (.ready (.error e), p) =>
          let this := { this with peekable := p.truncate oldLen }
          if e.kind = .interrupted then loop tail eof fuel this
          else return (.ready (.error e), this)
        | (.pending, p) => return (.pending, { this with peekable := p.truncate oldLen })
    else return (.ready (.ok ()), this)

def pollWith (tail : TailRead R B) (eof : IoError) (fuel : Nat) (this : PeekExact R B) :
    Exec (Poll (Except IoError Unit) × PeekExact R B) := do
  let total := this.buf.length
  if this.filled = 0 then
    let peekBuf := this.peekable.peeked
    let fromPeek := min peekBuf.length total
    let src ← slice peekBuf 0 fromPeek
    let buf ← copyInto this.buf 0 fromPeek src
    let this := { this with buf, filled := fromPeek }
    if this.filled = total then return (.ready (.ok ()), this)
    else loop tail eof fuel this
  else loop tail eof fuel this

end PeekExact

structure PeekToEnd (R B : Type) where
  peekable : Peekable R B
  buf : List UInt8
  /-- Whether the peek buffer has been copied into `buf`. -/
  prefixCopied : Bool
  deriving DecidableEq

namespace PeekToEnd

def new (peekable : Peekable R B) (buf : List UInt8) : PeekToEnd R B := ⟨peekable, buf, false⟩

/-- The `loop` of `poll`. -/
def loop (tail : TailRead R B) (fuel : Nat) (this : PeekToEnd R B) :
    Exec (Poll (Except IoError Nat) × PeekToEnd R B) :=
  match fuel with
  | 0 => .diverge
  | fuel + 1 => do
    let oldLen := len this.peekable.buffer
    match growPeekBuffer this.peekable.buffer with
    | (.error e, buffer) =>
      return (.ready (.error e), { this with peekable := { this.peekable with buffer } })
    | (.ok growth, buffer) =>
      match ← tail { this.peekable with buffer } oldLen (oldLen + growth) with
      | (.ready (.ok n), p) =>
        if n = 0 then
          let p := p.truncate oldLen
          return (.ready (.ok (len p.buffer)), { this with peekable := p })
        else
          let p := p.truncate (oldLen + n)
          let chunk ← slice p.peeked oldLen (oldLen + n)
          loop tail fuel { this with peekable := p, buf := this.buf ++ chunk }
      | (.ready (.error e), p) =>
        let this := { this with peekable := p.truncate oldLen }
        if e.kind = .interrupted then loop tail fuel this else return (.ready (.error e), this)
      | (.pending, p) => return (.pending, { this with peekable := p.truncate oldLen })

def pollWith (tail : TailRead R B) (fuel : Nat) (this : PeekToEnd R B) :
    Exec (Poll (Except IoError Nat) × PeekToEnd R B) :=
  if this.prefixCopied then loop tail fuel this
  else
    loop tail fuel { this with buf := this.buf ++ this.peekable.peeked, prefixCopied := true }

end PeekToEnd

structure PeekToString (R B : Type) where
  peekable : Peekable R B
  buf : Str
  /-- Whether the peek buffer has been validated. -/
  started : Bool
  deriving DecidableEq

namespace PeekToString

def new (peekable : Peekable R B) (buf : Str) : PeekToString R B := ⟨peekable, buf, false⟩

/-- The `loop` of `poll`, with its `loop_result`. -/
def loop (tail : TailRead R B) (fuel : Nat) (p : Peekable R B) :
    Exec (Poll (Except IoError Unit) × Peekable R B) :=
  match fuel with
  | 0 => .diverge
  | fuel + 1 => do
    let oldLen := len p.buffer
    match growPeekBuffer p.buffer with
    | (.error e, buffer) => return (.ready (.error e), { p with buffer })
    | (.ok growth, buffer) =>
      match ← tail { p with buffer } oldLen (oldLen + growth) with
      | (.ready (.ok n), p) =>
        if n = 0 then return (.ready (.ok ()), p.truncate oldLen)
        else loop tail fuel (p.truncate (oldLen + n))
      | (.ready (.error e), p) =>
        let p := p.truncate oldLen
        if e.kind = .interrupted then loop tail fuel p else return (.ready (.error e), p)
      | (.pending, p) => return (.pending, p.truncate oldLen)

/-- `poll` after the prefix has been validated. -/
def resume (tail : TailRead R B) (fuel : Nat) (this : PeekToString R B) :
    Exec (Poll (Except IoError Nat) × PeekToString R B) := do
  match ← loop tail fuel this.peekable with
  | (.pending, p) => return (.pending, { this with peekable := p })
  | (.ready loopResult, p) =>
    let (result, buf) ← finishString loopResult p.peeked this.buf
    return (.ready result, { this with peekable := p, buf })

def pollWith (tail : TailRead R B) (fuel : Nat) (this : PeekToString R B) :
    Exec (Poll (Except IoError Nat) × PeekToString R B) :=
  if this.started then resume tail fuel this
  else
    match earlyReject this.peekable.peeked with
    | some e => .ok (.ready (.error (invalidUtf8IoError e)), this)
    | none => resume tail fuel { this with started := true }

end PeekToString

structure FillPeekBuf (R B : Type) where
  peeker : Peekable R B
  original : Nat
  cap : Nat
  deriving DecidableEq

namespace FillPeekBuf

def new (peeker : Peekable R B) : FillPeekBuf R B :=
  ⟨peeker, len peeker.buffer, capacity peeker.buffer⟩

def pollWith (tail : TailRead R B) (me : FillPeekBuf R B) :
    Exec (Poll (Except IoError Nat) × FillPeekBuf R B) := do
  if me.cap = me.original then return (.ready (.ok 0), me)
  else
    match resize me.peeker.buffer me.cap with
    | (.error e, buffer) =>
      return (.ready (.error e), { me with peeker := { me.peeker with buffer } })
    | (.ok (), buffer) =>
      match ← tail { me.peeker with buffer } me.original (asSlice buffer).length with
      | (.ready (.ok n), p) =>
        return (.ready (.ok n), { me with peeker := p.truncate (me.original + n) })
      | (.ready (.error e), p) =>
        return (.ready (.error e), { me with peeker := p.truncate me.original })
      | (.pending, p) => return (.pending, { me with peeker := p.truncate me.original })

end FillPeekBuf

end PeekableReader
