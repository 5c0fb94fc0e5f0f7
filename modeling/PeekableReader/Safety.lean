import PeekableReader.BufRead.Model
import PeekableReader.Future.Session
import PeekableReader.Script.Basic
import PeekableReader.Sync.Session
import PeekableReader.Tokio.Session

/-!
# No operation panics

A reader need only be bounded: it never reports more bytes than the slice it was given
has room for. What it hands over, and when, is of no account. The buffer is lawful and
its capacity covers its length; it may refuse to grow.

Every panic of the model is a check that the standard library makes at run time: a slice
index, the lengths in `copy_from_slice`, the room in `put_slice`, the range given to
`Buffer::consume`, `advance_mut` and the `expect` in `peek_to_string`.
-/

namespace PeekableReader

/-- No input makes the session panic, and the progress of a future is in bounds. -/
structure Future.Session.Safe {R B : Type} [Future.AsyncRead R] [Buffer B]
    (s : Future.Session R B) : Prop where
  no_panic : ∀ fuel i x w, s.react fuel i = some x → x ≠ .panic w
  filled_le : ∀ f, s = .peekExact f → f.filled ≤ f.buf.length
  original_le : ∀ f, s = .fillPeekBuf f → f.original ≤ f.peeker.peeked.length

/-- No input makes the session panic, and the progress of a future is in bounds. -/
structure Tokio.Session.Safe {R W B : Type} [Tokio.AsyncRead R] [Tokio.BufMut W] [Buffer B]
    (s : Tokio.Session R W B) : Prop where
  no_panic : ∀ fuel i x w, s.react fuel i = some x → x ≠ .panic w
  filled_le : ∀ f, s = .peekExact f → f.filled ≤ f.buf.length
  original_le : ∀ f, s = .fillPeekBuf f → f.original ≤ f.peeker.peeked.length

section

variable {B : Type} [Buffer B] [LawfulBuffer B] [AmpleBuffer B]

theorem Peekable.perform_safe {R : Type} [Read R] [Ledger R UInt8] [LawfulRead R] (fuel : Nat)
    (p : Peekable R B) (op : Op) : (p.perform fuel op).Sat fun _ => True := by
  cases op with
  | read buf => exact (read_sat p buf).bind fun _ _ => trivial
  | peek buf => exact (peek_sat fuel p buf).bind fun _ _ => trivial
  | peekVectored bufs => exact (peekVectored_sat fuel p bufs).bind fun _ _ => trivial
  | peekExact buf =>
    refine (peekExact_sat fuel p buf).bind ?_
    rintro ⟨_ | _, buf', p'⟩ - <;> trivial
  | peekToEnd buf => exact (peekToEnd_sat fuel p buf).bind fun _ _ => trivial
  | peekToString buf => exact (peekToString_sat fuel p buf).bind fun _ _ => trivial
  | fillPeekBuf =>
    exact (fillPeekBuf_sat fuel p (AmpleBuffer.length_le_capacity p.buffer)).bind
      fun _ _ => trivial
  | consume => trivial
  | consumeInPlace => trivial

theorem Future.Session.Inv.safe {R : Type} [Future.AsyncRead R] [Ledger R UInt8]
    [Future.LawfulAsyncRead R] {s : Future.Session R B} (hs : s.Inv) : s.Safe where
  no_panic fuel i x w hx := (react_sat hs hs.ample hx).not_panic w
  filled_le := by
    rintro f rfl
    exact (show f.Resumable from hs).1.filled_le
  original_le := by
    rintro f rfl
    exact Nat.le_of_eq (show f.Valid from hs).original

theorem Tokio.Session.Inv.safe {R W : Type} [Tokio.AsyncRead R] [Ledger R UInt8]
    [Tokio.LawfulFreshRead R] [Tokio.BufMut W] [Tokio.LawfulBufMut W] {s : Tokio.Session R W B}
    (hs : s.Inv) : s.Safe where
  no_panic fuel i x w hx := (react_safe hs hs.ample hx).not_panic w
  filled_le := by
    rintro f rfl
    exact (show f.Resumable from hs).1.filled_le
  original_le := by
    rintro f rfl
    exact Nat.le_of_eq (show f.Valid from hs).original

end

theorem operations_do_not_panic (R R' R'' W B : Type) [Read R] [BoundedRead R]
    [Future.AsyncRead R'] [Future.BoundedAsyncRead R'] [Tokio.AsyncRead R'']
    [Tokio.BoundedAsyncRead R''] [Tokio.BufMut W] [Tokio.LawfulBufMut W] [Buffer B]
    [LawfulBuffer B] [AmpleBuffer B] :
    (∀ fuel (p : Peekable R B) op w, p.perform fuel op ≠ .panic w) ∧
    (∀ (p₀ : Peekable R' B) events s,
      Run Future.Session.Step (.idle p₀) events s → s.Safe) ∧
    (∀ (p₀ : Peekable R'' B) events (s : Tokio.Session R'' W B),
      Run Tokio.Session.Step (.idle p₀) events s → s.Safe) ∧
    (∀ (inner : R → Nat → Exec R) (p : Peekable R B) amt w,
      p.consumeWith inner amt = .panic w → ∃ k ≤ amt, inner p.reader k = .panic w) := by
  refine ⟨fun fuel p op w => ?_, fun p₀ events s run => ?_, fun p₀ events s run => ?_,
    fun inner p amt w h => ⟨_, Nat.sub_le _ _, Peekable.consumeWith_panic h⟩⟩
  · let _ := Ledger.any R UInt8
    have := BoundedRead.lawful R
    exact (Peekable.perform_safe fuel p op).not_panic w
  · let _ := Ledger.any R' UInt8
    have := Future.BoundedAsyncRead.lawful R'
    refine (run.invariant Future.Session.Inv ?_ trivial).safe
    rintro s i seen s' hs ⟨fuel, x, hx, hout⟩
    exact (Future.Session.react_post hs hx _ hout).1
  · let _ := Ledger.any R'' UInt8
    have := Tokio.BoundedAsyncRead.lawful R''
    refine (run.invariant Tokio.Session.Inv ?_ trivial).safe
    rintro s i seen s' hs ⟨fuel, x, hx, hout⟩
    exact (Tokio.Session.react_safe hs hs.ample hx).post hout

theorem operations_do_not_panic_script :
    (∀ fuel (p : Peekable Script VecBuffer) op w, p.perform fuel op ≠ .panic w) ∧
    (∀ (p₀ : Peekable PollScript VecBuffer) events (s : Tokio.Session PollScript Tokio.SliceSink _),
      Run Tokio.Session.Step (.idle p₀) events s → s.Safe) :=
  have safe := operations_do_not_panic Script PollScript PollScript Tokio.SliceSink VecBuffer
  ⟨safe.1, safe.2.2.1⟩

end PeekableReader
