import PeekableReader.Io.Error
import PeekableReader.Lib.Ledger
import PeekableReader.Lib.Resumable
import PeekableReader.Lib.Slice

/-!
# The `AsyncRead` traits

A poll of a reader is ready with a result or pending. The trait of `futures` reads into
a slice and returns a count, as `Read` does; the trait of `tokio` appends to a `ReadBuf`
and returns no count. `Poll.handed` reduces both to the number of bytes handed over.

The laws follow those of `Read`: a poll reports no more than fits, and one that is
pending or fails hands over nothing.
-/

namespace PeekableReader

open Ledger

/-- `ready` with a function applied to a successful result. -/
def Poll.mapOk {ε α β : Type} (f : α → β) : Poll (Except ε α) → Poll (Except ε β)
  | .ready (.ok a) => .ready (.ok (f a))
  | .ready (.error e) => .ready (.error e)
  | .pending => .pending

/-- The count of a poll that is ready with one. -/
def Poll.handed : Poll (Except IoError Nat) → Option Nat
  | .ready (.ok n) => some n
  | _ => none

namespace Poll

/-- A poll is ready with a value, ready with an error or pending. -/
@[elab_as_elim] theorem casesResult {ε α : Type} {motive : Poll (Except ε α) → Prop}
    (ok : ∀ a, motive (ready (.ok a))) (error : ∀ e, motive (ready (.error e)))
    (pending : motive pending) (poll : Poll (Except ε α)) : motive poll := by
  cases poll with
  | pending => exact pending
  | ready result =>
    cases result with
    | ok a => exact ok a
    | error e => exact error e

@[simp] theorem handed_ok (n : Nat) : (ready (.ok n)).handed = some n := rfl
@[simp] theorem handed_error (e : IoError) : (ready (.error e)).handed = none := rfl
@[simp] theorem handed_pending : (pending : Poll (Except IoError Nat)).handed = none := rfl

theorem mapOk_ready {α β : Type} (f : α → β) (result : Except IoError α) :
    (ready result).mapOk f = ready (result.map f) := by
  cases result <;> rfl

/-- A ready poll comes from a ready one. -/
theorem ready_of_mapOk {α β : Type} {f : α → β} {poll : Poll (Except IoError α)}
    {result : Except IoError β} (h : ready result = poll.mapOk f) :
    ∃ answer, poll = ready answer ∧ result = answer.map f := by
  match poll, h with
  | .ready answer, h => exact ⟨answer, rfl, by rw [mapOk_ready] at h; exact ready.inj h⟩

theorem mapOk_eq_pending {α β : Type} {f : α → β} {poll : Poll (Except IoError α)} :
    poll.mapOk f = .pending ↔ poll = .pending := by
  cases poll using Poll.casesResult with
  | ok _ => simp [mapOk]
  | error _ => simp [mapOk]
  | pending => simp [mapOk]

end Poll

namespace Future

/-- `futures_util::AsyncRead` -/
class AsyncRead (R : Type) where
  pollRead (r : R) (buf : List UInt8) : Poll (Except IoError Nat) × List UInt8 × R

class BoundedAsyncRead (R : Type) [AsyncRead R] : Prop where
  pollRead_length (r : R) (buf : List UInt8) : (AsyncRead.pollRead r buf).2.1.length = buf.length
  pollRead_le {r r' : R} {buf buf' : List UInt8} {n : Nat}
    (h : AsyncRead.pollRead r buf = (.ready (.ok n), buf', r')) : n ≤ buf.length

class LawfulAsyncRead (R : Type) [AsyncRead R] [Ledger R UInt8] : Prop
    extends BoundedAsyncRead R where
  pollRead_ok {r r' : R} {buf buf' : List UInt8} {n : Nat}
    (h : AsyncRead.pollRead r buf = (.ready (.ok n), buf', r')) : Hands r (buf'.take n) r'
  pollRead_none {r r' : R} {buf buf' : List UInt8} {poll : Poll (Except IoError Nat)}
    (h : AsyncRead.pollRead r buf = (poll, buf', r')) (hpoll : poll.handed = none) : Hands r [] r'

theorem BoundedAsyncRead.lawful (R : Type) [AsyncRead R] [BoundedAsyncRead R] :
    @LawfulAsyncRead R _ (Ledger.any R UInt8) :=
  @LawfulAsyncRead.mk R _ (Ledger.any R UInt8) _ (fun _ => trivial) (fun _ _ => trivial)

/-- What one poll does, whatever its answer. -/
theorem LawfulAsyncRead.pollRead_spec {R : Type} [AsyncRead R] [Ledger R UInt8]
    [LawfulAsyncRead R] {r r' : R} {buf buf' : List UInt8} {poll : Poll (Except IoError Nat)}
    (h : AsyncRead.pollRead r buf = (poll, buf', r')) :
    buf'.length = buf.length ∧ ∃ d, Hands r d r' ∧
      (∀ n, poll.handed = some n → n ≤ buf.length ∧ d = buf'.take n) ∧
      (poll.handed = none → d = []) := by
  have hlen : buf'.length = buf.length := by
    simpa [h] using BoundedAsyncRead.pollRead_length r buf
  refine ⟨hlen, ?_⟩
  cases poll using Poll.casesResult with
  | ok n =>
    exact ⟨buf'.take n, pollRead_ok h, by rintro m ⟨⟩; exact ⟨BoundedAsyncRead.pollRead_le h, rfl⟩,
      by rintro ⟨⟩⟩
  | error e => exact ⟨[], pollRead_none h rfl, by rintro n ⟨⟩, fun _ => rfl⟩
  | pending => exact ⟨[], pollRead_none h rfl, by rintro n ⟨⟩, fun _ => rfl⟩

end Future

namespace Tokio

/-- `tokio::io::ReadBuf`: a slice and the length of its filled part. -/
structure ReadBuf where
  buf : List UInt8
  filled : Nat
  filled_le : filled ≤ buf.length

namespace ReadBuf

def new (buf : List UInt8) : ReadBuf := ⟨buf, 0, Nat.zero_le _⟩

/-- `ReadBuf::filled` -/
def filledBytes (rb : ReadBuf) : List UInt8 := rb.buf.take rb.filled

def remaining (rb : ReadBuf) : Nat := rb.buf.length - rb.filled

/-- The `ReadBuf` with bytes that fit behind its filled part. -/
def append (rb : ReadBuf) (src : List UInt8) (hfit : src.length ≤ rb.remaining) : ReadBuf where
  buf := rb.filledBytes ++ src ++ rb.buf.drop (rb.filled + src.length)
  filled := rb.filled + src.length
  filled_le := by
    have hle : src.length ≤ rb.buf.length - rb.filled := hfit
    have := rb.filled_le
    simp [filledBytes]
    omega

/-- `ReadBuf::put_slice` -/
def putSlice (rb : ReadBuf) (src : List UInt8) : Exec ReadBuf :=
  if h : src.length ≤ rb.remaining then .ok (rb.append src h) else .panic .putSlice

@[simp] theorem length_filledBytes (rb : ReadBuf) : rb.filledBytes.length = rb.filled := by
  simpa [filledBytes] using rb.filled_le

theorem take_filledBytes (rb : ReadBuf) : rb.buf.take rb.filledBytes.length = rb.filledBytes := by
  rw [length_filledBytes, filledBytes]

@[simp] theorem buf_new (buf : List UInt8) : (new buf).buf = buf := rfl

@[simp] theorem remaining_new (buf : List UInt8) : (new buf).remaining = buf.length := rfl

@[simp] theorem filledBytes_new (buf : List UInt8) : (new buf).filledBytes = [] := by
  simp [filledBytes, new]

@[simp] theorem filledBytes_append (rb : ReadBuf) (src : List UInt8)
    (h : src.length ≤ rb.remaining) : (rb.append src h).filledBytes = rb.filledBytes ++ src :=
  take_append_of_length (by simp [append])

@[simp] theorem length_append (rb : ReadBuf) (src : List UInt8) (h : src.length ≤ rb.remaining) :
    (rb.append src h).buf.length = rb.buf.length := by
  have := rb.filled_le
  simp [append, remaining] at h ⊢
  omega

theorem remaining_append (rb : ReadBuf) (src : List UInt8) (h : src.length ≤ rb.remaining) :
    (rb.append src h).remaining = rb.remaining - src.length := by
  have hfilled : (rb.append src h).filled = rb.filled + src.length := rfl
  rw [remaining, length_append, hfilled, ← Nat.sub_sub, remaining]

theorem append_nil (rb : ReadBuf) (h : ([] : List UInt8).length ≤ rb.remaining) :
    rb.append [] h = rb := by
  cases rb
  simp [append, filledBytes]

/-- A slice that fits is appended to the filled part. -/
theorem putSlice_spec (rb : ReadBuf) (src : List UInt8) (h : src.length ≤ rb.remaining) :
    ∃ rb', rb.putSlice src = .ok rb' ∧ rb'.filledBytes = rb.filledBytes ++ src ∧
      rb'.buf.length = rb.buf.length :=
  ⟨_, dif_pos h, filledBytes_append rb src h, length_append rb src h⟩

end ReadBuf

/-- `tokio::io::AsyncRead` -/
class AsyncRead (R : Type) where
  pollRead (r : R) (rb : ReadBuf) : Poll (Except IoError Unit) × ReadBuf × R

class BoundedAsyncRead (R : Type) [AsyncRead R] : Prop where
  pollRead_length (r : R) (rb : ReadBuf) :
    (AsyncRead.pollRead r rb).2.1.buf.length = rb.buf.length

/-- The law for polls with a `ReadBuf` that has nothing in it yet. -/
class LawfulFreshRead (R : Type) [AsyncRead R] [Ledger R UInt8] : Prop
    extends BoundedAsyncRead R where
  fresh_ok {r r' : R} {buf : List UInt8} {rb : ReadBuf}
    (h : AsyncRead.pollRead r (.new buf) = (.ready (.ok ()), rb, r')) : Hands r rb.filledBytes r'
  fresh_none {r r' : R} {buf : List UInt8} {rb : ReadBuf} {poll : Poll (Except IoError Unit)}
    (h : AsyncRead.pollRead r (.new buf) = (poll, rb, r')) (hpoll : poll ≠ .ready (.ok ())) :
    Hands r [] r'

class LawfulAsyncRead (R : Type) [AsyncRead R] [Ledger R UInt8] : Prop
    extends BoundedAsyncRead R where
  pollRead_ok {r r' : R} {rb rb' : ReadBuf}
    (h : AsyncRead.pollRead r rb = (.ready (.ok ()), rb', r')) :
    ∃ d, rb'.filledBytes = rb.filledBytes ++ d ∧ Hands r d r'
  pollRead_none {r r' : R} {rb rb' : ReadBuf} {poll : Poll (Except IoError Unit)}
    (h : AsyncRead.pollRead r rb = (poll, rb', r')) (hpoll : poll ≠ .ready (.ok ())) :
    rb'.filledBytes = rb.filledBytes ∧ Hands r [] r'

theorem BoundedAsyncRead.lawful (R : Type) [AsyncRead R] [BoundedAsyncRead R] :
    @LawfulFreshRead R _ (Ledger.any R UInt8) :=
  @LawfulFreshRead.mk R _ (Ledger.any R UInt8) _ (fun _ => trivial) (fun _ _ => trivial)

instance {R : Type} [AsyncRead R] [Ledger R UInt8] [LawfulAsyncRead R] : LawfulFreshRead R where
  fresh_ok h := by
    obtain ⟨d, hd, hands⟩ := LawfulAsyncRead.pollRead_ok h
    rw [ReadBuf.filledBytes_new, List.nil_append] at hd
    exact hd ▸ hands
  fresh_none h hpoll := (LawfulAsyncRead.pollRead_none h hpoll).2

/-- What one poll does, whatever its answer. -/
theorem LawfulAsyncRead.pollRead_spec {R : Type} [AsyncRead R] [Ledger R UInt8]
    [LawfulAsyncRead R] {r r' : R} {rb rb' : ReadBuf} {poll : Poll (Except IoError Unit)}
    (h : AsyncRead.pollRead r rb = (poll, rb', r')) :
    rb'.buf.length = rb.buf.length ∧ ∃ d, Hands r d r' ∧
      rb'.filledBytes = rb.filledBytes ++ d ∧ (poll ≠ .ready (.ok ()) → d = []) := by
  have hlen : rb'.buf.length = rb.buf.length := by
    simpa [h] using BoundedAsyncRead.pollRead_length r rb
  refine ⟨hlen, ?_⟩
  by_cases hpoll : poll = .ready (.ok ())
  · subst hpoll
    obtain ⟨d, hd, hands⟩ := pollRead_ok h
    exact ⟨d, hands, hd, fun hne => absurd rfl hne⟩
  · obtain ⟨hsame, hands⟩ := pollRead_none h hpoll
    exact ⟨[], hands, by simpa using hsame, fun _ => rfl⟩

/-- A reader that only ever appends to a `ReadBuf`, and nothing unless it is ready. -/
class AppendingRead (R : Type) [AsyncRead R] : Prop extends BoundedAsyncRead R where
  appends {r r' : R} {rb rb' : ReadBuf} {poll : Poll (Except IoError Unit)}
    (h : AsyncRead.pollRead r rb = (poll, rb', r')) :
    ∃ d, rb'.filledBytes = rb.filledBytes ++ d ∧ (poll ≠ .ready (.ok ()) → d = [])

instance {R : Type} [AsyncRead R] [Ledger R UInt8] [LawfulAsyncRead R] : AppendingRead R where
  appends h := by
    obtain ⟨-, d, -, hd, hnone⟩ := LawfulAsyncRead.pollRead_spec h
    exact ⟨d, hd, hnone⟩

/-- What has been filled in since is what the poll handed over. -/
theorem AppendingRead.filled_eq {R : Type} [AsyncRead R] [AppendingRead R] {r r' : R}
    {rb rb' : ReadBuf} {poll : Poll (Except IoError Unit)}
    (h : AsyncRead.pollRead r rb = (poll, rb', r')) :
    rb'.filled = rb.filled + (poll.mapOk fun () => rb'.filled - rb.filled).handed.getD 0 := by
  obtain ⟨d, hd, hnone⟩ := appends h
  have hfilled : rb'.filled = rb.filled + d.length := by
    simpa using congrArg List.length hd
  cases poll using Poll.casesResult with
  | ok u => simp [Poll.mapOk, hfilled]
  | error e =>
    obtain rfl := hnone (by rintro ⟨⟩)
    exact hfilled
  | pending =>
    obtain rfl := hnone (by rintro ⟨⟩)
    exact hfilled

end Tokio

end PeekableReader
