import PeekableReader.Async.Read
import PeekableReader.Io.Alike
import PeekableReader.Io.Grow
import PeekableReader.Io.Transparent
import PeekableReader.Lib.Dialogue

/-!
# A reader that keeps a log

`Logged` notes every call of a reader: how much room it was offered and what it answered. It
answers as the reader does, so by `Alike` nothing that is said of a peekable reader over it
depends on the log.

`Aim` is what an operation is after, and `Accounts` says how the last call of the reader, with
the peek buffer before the operation and after it, decides the result: when the operation
succeeds and with which count, which answers of the reader are passed on as errors or pending
polls, and what else it may fail with: the refusal of a resize of its peek buffer, the end of
the stream, or bytes in the peek buffer that are not UTF-8.
-/

namespace PeekableReader

open Buffer

/-- One call of a reader. -/
structure Inquiry where
  room : Nat
  reply : Poll (Except IoError Nat)

namespace Inquiry

/-- After data, and after an interruption, the reader may be called again. -/
def GoesOn (q : Inquiry) : Prop :=
  (∃ n, 0 < n ∧ q.reply = .ready (.ok n)) ∨ ∃ e, q.reply = .ready (.error e) ∧ e.kind = .interrupted

theorem GoesOn.data {room n : Nat} (h : n ≠ 0) : (mk room (.ready (.ok n))).GoesOn :=
  .inl ⟨n, Nat.pos_of_ne_zero h, rfl⟩

theorem GoesOn.interrupted {room : Nat} {e : IoError} (h : e.kind = .interrupted) :
    (mk room (.ready (.error e))).GoesOn := .inr ⟨e, rfl, h⟩

/-- The reader was offered some room, so that no bytes at all mean the end of its stream. -/
def HasRoom (q : Inquiry) : Prop := 0 < q.room

/-- The reader was not ready. -/
def Stalls (q : Inquiry) : Prop :=
  q.reply = .pending ∨ ∃ e, q.reply = .ready (.error e) ∧ e.kind = .wouldBlock

end Inquiry

/-- What an operation is after. -/
inductive Aim where
  /-- Deliver up to `want` bytes. -/
  | read (want : Nat)
  /-- Report up to `want` bytes, in one call. -/
  | peek (want : Nat)
  /-- Report up to `want` bytes, in one poll. -/
  | pollPeek (want : Nat)
  /-- Fill `want` bytes, of which `missing` have not been peeked. -/
  | exact (want missing : Nat)
  | toEnd
  | text
  /-- Fill the spare capacity of the peek buffer, in one call. -/
  | fill (spare : Nat)
  /-- Fill the spare capacity of the peek buffer, in one poll. -/
  | pollFill (spare : Nat)

namespace Aim

/-- Only a read into an empty slice, and a call to fill a full buffer, offer the reader no room. -/
def Fits (aim : Aim) (q : Inquiry) : Prop := q.HasRoom ∨ aim = .read 0 ∨ aim = .fill 0

/-- Whether the operation asks the peek buffer for more room. -/
def Grows : Aim → Prop
  | .read _ => False
  | _ => True

/-- Which errors of the reader are passed on, with the peek buffer `b` before the operation. -/
def Passes {B : Type} [Buffer B] (b : B) (kind : ErrorKind) : Aim → Prop
  | .read _ => asSlice b = []
  | .pollPeek _ => kind ≠ .interrupted ∧ kind ≠ .wouldBlock
  | .pollFill _ => True
  | _ => kind ≠ .interrupted

/-- Which answers of the reader make the poll pending. -/
def Waits {B : Type} [Buffer B] (b : B) (q : Inquiry) : Aim → Prop
  | .read _ => asSlice b = [] ∧ q.reply = .pending
  | .pollPeek _ => asSlice b = [] ∧ q.Stalls
  | _ => q.reply = .pending

/-- What success with the count `n` says of the last call, if there was one. -/
def Grants {B : Type} [Buffer B] (b b' : B) (n : Nat) : Aim → Option Inquiry → Prop
  | .read want, none => n = want ∧ want ≤ (asSlice b).length
  -- behind delivered bytes an error or a pending poll is dropped
  | .read want, some q => (asSlice b = [] ∨ (asSlice b).length < want) ∧
      n = (asSlice b).length + q.reply.handed.getD 0 ∧ (q.reply.handed = none → asSlice b ≠ [])
  | .peek want, none => n = want ∧ want ≤ (asSlice b).length
  | .peek want, some q => (asSlice b).length < want ∧
      ∃ m, q.reply = .ready (.ok m) ∧ n = (asSlice b).length + m
  | .pollPeek want, none => n = want ∧ want ≤ (asSlice b).length
  | .pollPeek want, some q => (asSlice b).length < want ∧
      n = (asSlice b).length + q.reply.handed.getD 0 ∧
      (q.reply.handed = none → asSlice b ≠ [] ∧ q.Stalls)
  | .exact want missing, none => missing = 0 ∧ n = want
  | .exact want missing, some q => 0 < missing ∧ n = want ∧ ∃ m, 0 < m ∧ q.reply = .ready (.ok m)
  | .toEnd, some q => q.reply = .ready (.ok 0) ∧ n = (asSlice b').length
  | .text, some q => q.reply = .ready (.ok 0) ∧ n = (asSlice b').length ∧
      ∃ s, fromUtf8 (asSlice b') = .ok s
  | .fill _, some q => q.reply = .ready (.ok n)
  | .pollFill spare, none => spare = 0 ∧ n = 0
  | .pollFill spare, some q => 0 < spare ∧ q.reply = .ready (.ok n)
  | _, none => False

end Aim

/-- The last call of the reader accounts for the result of an operation that took the peek buffer
from `b` to `b'`. -/
inductive Accounts {B : Type} [Buffer B] (b b' : B) :
    Aim → Poll (Except IoError Nat) → Option Inquiry → Prop
  | granted {aim : Aim} {n : Nat} {last : Option Inquiry} (h : aim.Grants b b' n last) :
    Accounts b b' aim (.ready (.ok n)) last
  | stalled {aim : Aim} {q : Inquiry} (h : aim.Waits b q) : Accounts b b' aim .pending (some q)
  | failed {aim : Aim} {q : Inquiry} {e : IoError} (hreply : q.reply = .ready (.error e))
    (h : aim.Passes b e.kind) : Accounts b b' aim (.ready (.error e)) (some q)
  | refused {aim : Aim} {b₁ : B} {n : Nat} {e : IoError} {last : Option Inquiry}
    (hgrows : aim.Grows) (hb : Reshapes b b₁) (h : resize b₁ n = (.error e, b'))
    (hlast : ∀ q, last = some q → q.GoesOn) : Accounts b b' aim (.ready (.error e)) last
  | ended {want missing : Nat} {q : Inquiry} {e : IoError} (hmissing : 0 < missing)
    (hreply : q.reply = .ready (.ok 0)) (he : e.kind = .unexpectedEof) :
    Accounts b b' (.exact want missing) (.ready (.error e)) (some q)
  | rejected {u : Utf8Error} (h : earlyReject (asSlice b) = some u) (hb : b' = b) :
    Accounts b b' .text (.ready (.error (invalidUtf8IoError u))) none
  | invalid {q : Inquiry} {u : Utf8Error} (hreply : q.reply = .ready (.ok 0))
    (h : fromUtf8 (asSlice b') = .error u) :
    Accounts b b' .text (.ready (.error (invalidUtf8IoError u))) (some q)

namespace Accounts

variable {B : Type} [Buffer B] {b b' : B} {aim : Aim} {poll : Poll (Except IoError Nat)}
  {want missing missing' : Nat} {q r : Inquiry}

/-- Behind the peeked bytes the reader was called for more, and nothing was lost if it had none. -/
theorem read_on (b' : B) (hlt : (asSlice b).length < want) (hne : asSlice b ≠ []) :
    Accounts b b' (.read want) (.ready (.ok ((asSlice b).length + q.reply.handed.getD 0))) (some q) :=
  .granted ⟨.inr hlt, rfl, fun _ => hne⟩

/-- With nothing peeked the answer of the reader is that of the read. -/
theorem read_through {room : Nat} (hnil : asSlice b = []) :
    Accounts b b' (.read want) poll (some ⟨room, poll⟩) := by
  cases poll using Poll.casesResult with
  | ok n => exact .granted ⟨.inl hnil, by simp [hnil], by rintro ⟨⟩⟩
  | error e => exact .failed rfl hnil
  | pending => exact .stalled ⟨hnil, rfl⟩

theorem peeked_on {m : Nat} (hlt : (asSlice b).length < want) (hq : q.reply = .ready (.ok m)) :
    Accounts b b' (.pollPeek want) (.ready (.ok ((asSlice b).length + m))) (some q) :=
  .granted ⟨hlt, by simp [hq], by simp [hq]⟩

/-- Peeked bytes are not held back when the reader is not ready. -/
theorem peeked_only (hlt : (asSlice b).length < want) (hne : asSlice b ≠ []) (hq : q.Stalls) :
    Accounts b b' (.pollPeek want) (.ready (.ok (asSlice b).length)) (some q) := by
  have hnone : q.reply.handed = none := by
    rcases hq with hq | ⟨e, hq, -⟩ <;> rw [hq] <;> rfl
  exact .granted ⟨hlt, by simp [hnone], fun _ => ⟨hne, hq⟩⟩

/-- No growth was granted by the buffer that `b` had become. -/
theorem not_grown [LawfulBuffer B] {b₁ : B} {e : IoError} (hgrows : aim.Grows) (hb : Reshapes b b₁)
    (h : growPeekBuffer b₁ = (.error e, b')) : Accounts b b' aim (.ready (.error e)) none := by
  obtain ⟨b₂, hrefused, hres⟩ := exists_refused h
  exact .refused hgrows (hb.trans hrefused.reshapes) hres (by rintro q ⟨⟩)

/-- What may be said of a loop to the end before a call may also be said after one that lets it
go on. -/
theorem toEnd_of_none (h : Accounts b b' .toEnd poll none) (hgo : q.GoesOn) :
    Accounts b b' .toEnd poll (some q) := by
  cases h with
  | granted h => exact h.elim
  | refused hgrows hb h _ => exact .refused hgrows hb h (by rintro _ ⟨⟩; exact hgo)

/-- The call in front handed over what is no longer missing. -/
theorem exact_of_none (h : Accounts b b' (.exact want missing') poll none) (hgo : q.GoesOn)
    (hmissing : 0 < missing) (hdata : missing' = 0 → ∃ m, 0 < m ∧ q.reply = .ready (.ok m)) :
    Accounts b b' (.exact want missing) poll (some q) := by
  cases h with
  | granted h => exact .granted ⟨hmissing, h.2, hdata h.1⟩
  | refused hgrows hb h _ => exact .refused hgrows hb h (by rintro _ ⟨⟩; exact hgo)

theorem exact_of_some (h : Accounts b b' (.exact want missing') poll (some r))
    (hmissing : 0 < missing) : Accounts b b' (.exact want missing) poll (some r) := by
  cases h with
  | granted h => exact .granted ⟨hmissing, h.2⟩
  | stalled h => exact .stalled h
  | failed hreply h => exact .failed hreply h
  | refused hgrows hb h hlast => exact .refused hgrows hb h hlast
  | ended _ hreply he => exact .ended hmissing hreply he

end Accounts

/-- What is asked of the reader by an input with this aim, if it has one, and how that accounts
for its answer. `poll` is what the answer says as that of a poll. -/
inductive Asked {ρ B : Type} [Buffer B] (poll : ρ → Poll (Except IoError Nat)) (b b' : B) :
    Option Aim → Answer ρ → List Inquiry → Prop
  | result {aim : Aim} {result : ρ} {dst : List (List UInt8)} {asked : List Inquiry}
    (h : Dialogue aim.Fits Inquiry.GoesOn (Accounts b b' aim (poll result)) asked) :
    Asked poll b b' (some aim) (.gave result dst) asked
  | handed (bytes : List UInt8) : Asked poll b b' none (.handed bytes) []
  | done : Asked poll b b' none .done []

structure Logged (R : Type) where
  reader : R
  log : List Inquiry

namespace Logged

variable {R : Type}

/-- The log with one more call. -/
def note (l : Logged R) (reader : R) (q : Inquiry) : Logged R := ⟨reader, l.log ++ [q]⟩

/-- A reader, and the same with a log. -/
def Logs (r : R) (l : Logged R) : Prop := l.reader = r

end Logged

open Logged

variable {R : Type}

instance [Read R] : Read (Logged R) where
  read l buf :=
    let (result, buf', reader) := Read.read l.reader buf
    (result, buf', l.note reader ⟨buf.length, .ready result⟩)

instance [Future.AsyncRead R] : Future.AsyncRead (Logged R) where
  pollRead l buf :=
    let (poll, buf', reader) := Future.AsyncRead.pollRead l.reader buf
    (poll, buf', l.note reader ⟨buf.length, poll⟩)

instance [Tokio.AsyncRead R] : Tokio.AsyncRead (Logged R) where
  pollRead l rb :=
    let (poll, rb', reader) := Tokio.AsyncRead.pollRead l.reader rb
    (poll, rb', l.note reader ⟨rb.remaining, poll.mapOk fun () => rb'.filled - rb.filled⟩)

@[simp] theorem Logged.log_read [Read R] (l : Logged R) (buf : List UInt8) :
    (Read.read l buf).2.2.log = l.log ++ [⟨buf.length, .ready (Read.read l buf).1⟩] := rfl

@[simp] theorem Logged.log_pollRead [Future.AsyncRead R] (l : Logged R) (buf : List UInt8) :
    (Future.AsyncRead.pollRead l buf).2.2.log =
      l.log ++ [⟨buf.length, (Future.AsyncRead.pollRead l buf).1⟩] := rfl

@[simp] theorem Logged.log_tokioPollRead [Tokio.AsyncRead R] (l : Logged R) (rb : Tokio.ReadBuf) :
    (Tokio.AsyncRead.pollRead l rb).2.2.log = l.log ++ [⟨rb.remaining,
      (Tokio.AsyncRead.pollRead l rb).1.mapOk fun () =>
        (Tokio.AsyncRead.pollRead l rb).2.1.filled - rb.filled⟩] := rfl

instance [Read R] [BoundedRead R] : BoundedRead (Logged R) where
  read_length l buf := BoundedRead.read_length l.reader buf
  read_le {l l' buf buf' n} h := by
    rcases hread : Read.read l.reader buf with ⟨result, bytes, reader⟩
    simp only [Read.read, hread] at h
    cases h
    exact BoundedRead.read_le hread

instance [Future.AsyncRead R] [Future.BoundedAsyncRead R] : Future.BoundedAsyncRead (Logged R) where
  pollRead_length l buf := Future.BoundedAsyncRead.pollRead_length l.reader buf
  pollRead_le {l l' buf buf' n} h := by
    rcases hread : Future.AsyncRead.pollRead l.reader buf with ⟨poll, bytes, reader⟩
    simp only [Future.AsyncRead.pollRead, hread] at h
    cases h
    exact Future.BoundedAsyncRead.pollRead_le hread

instance [Tokio.AsyncRead R] [Tokio.BoundedAsyncRead R] : Tokio.BoundedAsyncRead (Logged R) where
  pollRead_length l rb := Tokio.BoundedAsyncRead.pollRead_length l.reader rb

instance [Tokio.AsyncRead R] [Tokio.AppendingRead R] : Tokio.AppendingRead (Logged R) where
  pollRead_length l rb := Tokio.BoundedAsyncRead.pollRead_length l.reader rb
  appends {l l' rb rb' poll} h := by
    rcases hread : Tokio.AsyncRead.pollRead l.reader rb with ⟨poll, rb', reader⟩
    simp only [Tokio.AsyncRead.pollRead, hread] at h
    cases h
    exact Tokio.AppendingRead.appends hread

theorem ReadSim.logs [Read R] : ReadSim (Logs : R → Logged R → Prop) := by
  rintro r l buf rfl
  exact ⟨rfl, rfl, rfl⟩

end PeekableReader
