import PeekableReader.Async.Read
import PeekableReader.Io.Peekable

/-!
# Writing through a peekable reader

A `Peekable` over something that can be written to can be written to itself: it hands the
calls on. The writing traits of `futures` and `tokio` have one shape, `AsyncWrite`; what the
one calls `poll_close` the other calls `poll_shutdown`.
-/

namespace PeekableReader

/-- `std::io::Write` -/
class Write (W : Type) where
  write (w : W) (buf : List UInt8) : Except IoError Nat × W
  flush (w : W) : Except IoError Unit × W

/-- `futures_util::AsyncWrite` and `tokio::io::AsyncWrite` -/
class AsyncWrite (W : Type) where
  pollWrite (w : W) (buf : List UInt8) : Poll (Except IoError Nat) × W
  pollFlush (w : W) : Poll (Except IoError Unit) × W
  /-- `poll_close` or `poll_shutdown` -/
  pollClose (w : W) : Poll (Except IoError Unit) × W

namespace Peekable

variable {R B : Type}

/-- Use the reader, as through `get_mut`. -/
def lend {α : Type} (f : R → α × R) (p : Peekable R B) : α × Peekable R B :=
  let (a, reader) := f p.reader
  (a, { p with reader })

/-- `Write::write` -/
def write [Write R] (p : Peekable R B) (buf : List UInt8) : Except IoError Nat × Peekable R B :=
  p.lend fun r => Write.write r buf

/-- `Write::flush` -/
def flush [Write R] (p : Peekable R B) : Except IoError Unit × Peekable R B := p.lend Write.flush

/-- `AsyncWrite::poll_write` -/
def pollWrite [AsyncWrite R] (p : Peekable R B) (buf : List UInt8) :
    Poll (Except IoError Nat) × Peekable R B := p.lend fun r => AsyncWrite.pollWrite r buf

/-- `AsyncWrite::poll_flush` -/
def pollFlush [AsyncWrite R] (p : Peekable R B) : Poll (Except IoError Unit) × Peekable R B :=
  p.lend AsyncWrite.pollFlush

/-- `AsyncWrite::poll_close` and `AsyncWrite::poll_shutdown` -/
def pollClose [AsyncWrite R] (p : Peekable R B) : Poll (Except IoError Unit) × Peekable R B :=
  p.lend AsyncWrite.pollClose

instance [Write R] : Write (Peekable R B) := ⟨write, flush⟩

instance [AsyncWrite R] : AsyncWrite (Peekable R B) := ⟨pollWrite, pollFlush, pollClose⟩

end Peekable

/-! ## The calls of a writing caller -/

inductive WriteCall where
  | write (buf : List UInt8)
  | flush
  /-- There is no synchronous call to close. -/
  | close
  deriving DecidableEq

/-- The answers of two kinds of writers, a count where one is returned. -/
abbrev Written (ρ : Type → Type) := ρ Nat ⊕ ρ Unit

section

variable {W : Type}

/-- A call on a writer. -/
inductive WriteStep [Write W] (w : W) : WriteCall → Written (Except IoError) → W → Prop
  | write (buf : List UInt8) :
    WriteStep w (.write buf) (.inl (Write.write w buf).1) (Write.write w buf).2
  | flush : WriteStep w .flush (.inr (Write.flush w).1) (Write.flush w).2

/-- A poll of an asynchronous writer. -/
inductive AsyncWriteStep [AsyncWrite W] (w : W) :
    WriteCall → Written (fun α => Poll (Except IoError α)) → W → Prop
  | write (buf : List UInt8) :
    AsyncWriteStep w (.write buf) (.inl (AsyncWrite.pollWrite w buf).1) (AsyncWrite.pollWrite w buf).2
  | flush : AsyncWriteStep w .flush (.inr (AsyncWrite.pollFlush w).1) (AsyncWrite.pollFlush w).2
  | close : AsyncWriteStep w .close (.inr (AsyncWrite.pollClose w).1) (AsyncWrite.pollClose w).2

end

/-! ## A reader and a writer put together -/

variable {I O : Type}

/-- `tokio::io::Join`: what reads from its one part and writes to the other. -/
structure Join (I O : Type) where
  reader : I
  writer : O
  deriving DecidableEq

section Sync

instance [Read I] : Read (Join I O) where
  read j buf :=
    let (result, buf, reader) := Read.read j.reader buf
    (result, buf, { j with reader })

instance [Write O] : Write (Join I O) where
  write j buf :=
    let (result, writer) := Write.write j.writer buf
    (result, { j with writer })
  flush j :=
    let (result, writer) := Write.flush j.writer
    (result, { j with writer })

instance [Read I] [BoundedRead I] : BoundedRead (Join I O) where
  read_length j buf := BoundedRead.read_length j.reader buf
  read_le {j j' buf buf' n} h := by
    rcases hr : Read.read j.reader buf with ⟨result, buf'', reader⟩
    simp only [Read.read, hr, Prod.mk.injEq] at h
    obtain ⟨rfl, -, -⟩ := h
    exact BoundedRead.read_le hr

/-- `Write` for `Vec<u8>` -/
instance : Write (List UInt8) where
  write w buf := (.ok buf.length, w ++ buf)
  flush w := (.ok (), w)

end Sync

section Async

instance [Future.AsyncRead I] : Future.AsyncRead (Join I O) where
  pollRead j buf :=
    let (poll, buf, reader) := Future.AsyncRead.pollRead j.reader buf
    (poll, buf, { j with reader })

instance [Tokio.AsyncRead I] : Tokio.AsyncRead (Join I O) where
  pollRead j rb :=
    let (poll, rb, reader) := Tokio.AsyncRead.pollRead j.reader rb
    (poll, rb, { j with reader })

instance [AsyncWrite O] : AsyncWrite (Join I O) where
  pollWrite j buf :=
    let (poll, writer) := AsyncWrite.pollWrite j.writer buf
    (poll, { j with writer })
  pollFlush j :=
    let (poll, writer) := AsyncWrite.pollFlush j.writer
    (poll, { j with writer })
  pollClose j :=
    let (poll, writer) := AsyncWrite.pollClose j.writer
    (poll, { j with writer })

instance [Future.AsyncRead I] [Future.BoundedAsyncRead I] : Future.BoundedAsyncRead (Join I O) where
  pollRead_length j buf := Future.BoundedAsyncRead.pollRead_length j.reader buf
  pollRead_le {j j' buf buf' n} h := by
    rcases hr : Future.AsyncRead.pollRead j.reader buf with ⟨poll, buf'', reader⟩
    simp only [Future.AsyncRead.pollRead, hr, Prod.mk.injEq] at h
    obtain ⟨rfl, -, -⟩ := h
    exact Future.BoundedAsyncRead.pollRead_le hr

instance [Tokio.AsyncRead I] [Tokio.BoundedAsyncRead I] : Tokio.BoundedAsyncRead (Join I O) where
  pollRead_length j rb := Tokio.BoundedAsyncRead.pollRead_length j.reader rb

/-- `AsyncWrite` for `Vec<u8>` -/
instance : AsyncWrite (List UInt8) where
  pollWrite w buf := (.ready (.ok buf.length), w ++ buf)
  pollFlush w := (.ready (.ok ()), w)
  pollClose w := (.ready (.ok ()), w)

end Async

end PeekableReader
