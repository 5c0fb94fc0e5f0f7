import PeekableReader.BufRead.Session
import PeekableReader.Script.Basic

/-!
# The `BufRead` law

Peekable readers over lawful buffered readers keep the `BufRead` contract towards their
callers, and keep their side of it towards the inner reader. `SliceReader` is a lawful
buffered reader of every flavour.
-/

namespace PeekableReader

open Ledger

/-- A buffered reader whose reads are served from its buffer first. -/
class LawfulBufRead (R : Type) [Read R] [BufRead R] [BufSource R] : Prop where
  read : @LawfulRead R _ (BufSource.ledger R)
  fill : LawfulFill (fun r : R => exposed (BufRead.fillBuf r)) BufRead.consume

class Future.LawfulAsyncBufRead (R : Type) [Future.AsyncRead R] [AsyncBufRead R] [BufSource R] :
    Prop where
  read : @Future.LawfulAsyncRead R _ (BufSource.ledger R)
  fill : LawfulFill (fun r : R => polledExposed (AsyncBufRead.pollFillBuf r)) AsyncBufRead.consume

class Tokio.LawfulAsyncBufRead (R : Type) [Tokio.AsyncRead R] [AsyncBufRead R] [BufSource R] :
    Prop where
  read : @Tokio.LawfulAsyncRead R _ (BufSource.ledger R)
  fill : LawfulFill (fun r : R => polledExposed (AsyncBufRead.pollFillBuf r)) AsyncBufRead.consume

theorem bufSession_keepsBufStream (R R' R'' W B : Type) [Read R] [BufRead R] [BufSource R]
    [LawfulBufRead R] [Future.AsyncRead R'] [AsyncBufRead R'] [BufSource R']
    [Future.LawfulAsyncBufRead R'] [Tokio.AsyncRead R''] [AsyncBufRead R''] [BufSource R'']
    [Tokio.LawfulAsyncBufRead R''] [Tokio.BufMut W] [Tokio.LawfulBufMut W] [Buffer B]
    [LawfulBuffer B] :
    KeepsBufStream (Peekable.Step (R := R) (B := B)) id id
      (fun r => exposed (BufRead.fillBuf r)) (fun p => exposed p.fillBuf) Peekable.consumeAmt ∧
    KeepsBufStream (Future.Session.Step (R := R') (B := B)) .idle Future.Session.held
      (fun r => polledExposed (AsyncBufRead.pollFillBuf r)) (fun p => polledExposed p.pollFillBuf)
      Peekable.asyncConsumeAmt ∧
    KeepsBufStream (Tokio.Session.Step (R := R'') (W := W) (B := B)) .idle Tokio.Session.held
      (fun r => polledExposed (AsyncBufRead.pollFillBuf r)) (fun p => polledExposed p.pollFillBuf)
      Peekable.asyncConsumeAmt := by
  simp only [exposed_fillBuf, polledExposed_pollFillBuf]
  refine ⟨?_, ?_, ?_⟩
  · let _ := BufSource.ledger R
    have := LawfulBufRead.read (R := R)
    exact keepsBufStream (fun _ => True) LawfulBufRead.fill (fun _ => rfl) (fun _ => trivial)
      fun p op _ _ _ ⟨fuel, h⟩ => ⟨trivial, (Peekable.perform_post fuel p op _ h).1⟩
  · let _ := BufSource.ledger R'
    have := Future.LawfulAsyncBufRead.read (R := R')
    refine keepsBufStream Future.Session.Inv Future.LawfulAsyncBufRead.fill (fun _ => rfl)
      (fun _ => trivial) ?_
    rintro s i seen s' hs ⟨fuel, x, hx, hout⟩
    obtain ⟨hinv, hands, -⟩ := Future.Session.react_post hs hx _ hout
    exact ⟨hinv, hands⟩
  · let _ := BufSource.ledger R''
    have := Tokio.LawfulAsyncBufRead.read (R := R'')
    refine keepsBufStream Tokio.Session.Inv Tokio.LawfulAsyncBufRead.fill (fun _ => rfl)
      (fun _ => trivial) ?_
    rintro s i seen s' hs ⟨fuel, x, hx, hout⟩
    obtain ⟨hinv, hands, -⟩ := Tokio.Session.react_post hs hx _ hout
    exact ⟨hinv, hands⟩

/-! ## Reading from a slice -/

/-- The readers for `&[u8]`: all that is left is in the buffer. -/
structure SliceReader where
  left : List UInt8
  deriving DecidableEq, Repr

namespace SliceReader

def take (r : SliceReader) (n : Nat) : List UInt8 × SliceReader := (r.left.take n, ⟨r.left.drop n⟩)

def consume (r : SliceReader) (amt : Nat) : Exec SliceReader :=
  if amt ≤ r.left.length then .ok ⟨r.left.drop amt⟩ else .panic .sliceRange

end SliceReader

instance : Read SliceReader where
  read r buf :=
    (.ok (r.take buf.length).1.length, overwrite buf (r.take buf.length).1, (r.take buf.length).2)

instance : Future.AsyncRead SliceReader where
  pollRead r buf :=
    (.ready (.ok (r.take buf.length).1.length), overwrite buf (r.take buf.length).1,
      (r.take buf.length).2)

instance : Tokio.AsyncRead SliceReader where
  pollRead r rb :=
    (.ready (.ok ()), rb.append (r.take rb.remaining).1 (List.length_take_le _ _),
      (r.take rb.remaining).2)

instance : BufRead SliceReader where
  fillBuf r := (.ok r.left, r)
  consume := SliceReader.consume

instance : AsyncBufRead SliceReader where
  pollFillBuf r := (.ready (.ok r.left), r)
  consume := SliceReader.consume

instance : BufSource SliceReader where
  rest r := Stream'.Seq.ofList r.left
  buffered r := r.left

namespace SliceReader

theorem hands_take (r : SliceReader) (n : Nat) :
    @Hands _ _ (BufSource.ledger SliceReader) r (r.take n).1 (r.take n).2 := by
  constructor
  · change Stream'.Seq.ofList r.left = (Stream'.Seq.ofList _).append (Stream'.Seq.ofList _)
    rw [← Stream'.Seq.ofList_append]
    exact congrArg _ (List.take_append_drop n r.left).symm
  · change List.drop (List.take n r.left).length r.left <+: r.left.drop n
    rw [List.length_take]
    rcases Nat.le_total n r.left.length with h | h
    · rw [Nat.min_eq_left h]
    · rw [Nat.min_eq_right h, List.drop_of_length_le (Nat.le_refl _)]
      exact List.nil_prefix

theorem lawfulFill {fill : SliceReader → Option (List UInt8) × SliceReader}
    (h : ∀ r, fill r = (some r.left, r)) : LawfulFill fill consume where
  starts r := ⟨Stream'.Seq.nil, by
    change _ = (Stream'.Seq.ofList _).append _
    rw [Stream'.Seq.append_nil]
    rfl⟩
  fill_some {r r' bytes} hfill := by
    rw [h] at hfill
    cases hfill
    exact ⟨rfl, rfl⟩
  fill_none {r r'} hfill := by
    rw [h] at hfill
    cases hfill
  consume_ok {r amt} hamt := ⟨_, if_pos hamt, (hands_take r amt).1⟩

end SliceReader

instance : LawfulBufRead SliceReader where
  read :=
    letI := BufSource.ledger SliceReader
    { read_length := fun _ _ => length_overwrite (List.length_take_le _ _)
      read_le := by
        rintro r r' buf buf' n h
        cases h
        exact List.length_take_le _ _
      read_ok := by
        rintro r r' buf buf' n h
        cases h
        rw [take_overwrite]
        exact r.hands_take buf.length
      read_error := by rintro r r' buf buf' e h; cases h }
  fill := SliceReader.lawfulFill fun _ => rfl

instance : Future.LawfulAsyncBufRead SliceReader where
  read :=
    letI := BufSource.ledger SliceReader
    { pollRead_length := fun _ _ => length_overwrite (List.length_take_le _ _)
      pollRead_le := by
        rintro r r' buf buf' n h
        cases h
        exact List.length_take_le _ _
      pollRead_ok := by
        rintro r r' buf buf' n h
        cases h
        rw [take_overwrite]
        exact r.hands_take buf.length
      pollRead_none := by rintro r r' buf buf' poll h hpoll; cases h; cases hpoll }
  fill := SliceReader.lawfulFill fun _ => rfl

instance : Tokio.LawfulAsyncBufRead SliceReader where
  read :=
    letI := BufSource.ledger SliceReader
    { pollRead_length := fun _ _ => Tokio.ReadBuf.length_append _ _ (List.length_take_le _ _)
      pollRead_ok := by
        rintro r r' rb rb' h
        cases h
        exact ⟨_, Tokio.ReadBuf.filledBytes_append _ _ _, r.hands_take rb.remaining⟩
      pollRead_none := by rintro r r' rb rb' poll h hpoll; cases h; exact absurd rfl hpoll }
  fill := SliceReader.lawfulFill fun _ => rfl

/-- A slice is exposed, a peek moves two of its bytes, and three are consumed: two from the
peek buffer and one from the reader. -/
theorem bufSession_keepsBufStream_slice :
    3 - min 3 2 ≤ 2 ∧ ∃ (p' : Peekable SliceReader (BoundedBuffer 4)) (d : List UInt8),
      Peekable.consumeAmt ⟨⟨[3, 4]⟩, ⟨[1, 2]⟩, none⟩ 3 = .ok p' ∧ d.length = 3 ∧
        prepend [1, 2] (Source.rest (SliceReader.mk [3, 4])) = prepend d p'.undelivered := by
  have filled : BufStep Peekable.Step id (fun p => exposed p.fillBuf) Peekable.consumeAmt
      ⟨⟨⟨[1, 2, 3, 4]⟩, ⟨[]⟩, none⟩, none⟩ .fillBuf ⟨[], [1, 2, 3, 4]⟩
      ⟨(⟨⟨[1, 2, 3, 4]⟩, ⟨[]⟩, none⟩ : Peekable SliceReader (BoundedBuffer 4)), some 4⟩ :=
    .fillBuf rfl
  have peeked : BufStep Peekable.Step id (fun p => exposed p.fillBuf) Peekable.consumeAmt
      ⟨⟨⟨[1, 2, 3, 4]⟩, ⟨[]⟩, none⟩, some 4⟩ (.call (.peek [0, 0])) ⟨[], [1, 2]⟩
      ⟨(⟨⟨[3, 4]⟩, ⟨[1, 2]⟩, none⟩ : Peekable SliceReader (BoundedBuffer 4)), some 4⟩ :=
    .call ⟨1, by decide +kernel⟩
  have keeps := (bufSession_keepsBufStream SliceReader SliceReader SliceReader Tokio.SliceSink
    (BoundedBuffer 4)).1
  exact keeps.consumes _ _ _ 4 3 ((Run.nil.snoc filled).snoc peeked) (by decide)

end PeekableReader
