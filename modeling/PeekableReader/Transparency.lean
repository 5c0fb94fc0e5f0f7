import PeekableReader.Future.Session
import PeekableReader.Script.Basic
import PeekableReader.Sync.Session
import PeekableReader.Tokio.Session

/-!
# Peeking is transparent to the stream

Over every session with a peekable reader, of any length and whatever the reader and the
buffer answer, no byte of the stream is lost, duplicated or moved, and what is reported
as peeked is what will be delivered next. For the asynchronous flavours this holds after
every single poll, and a future may be dropped at any time.

The reader is any lawful one, with any stream; the buffer is any lawful one, and may
refuse to grow whenever it likes.
-/

namespace PeekableReader

theorem session_keepsStream (R B : Type) [Read R] [Source R UInt8] [LawfulRead R] [Buffer B]
    [LawfulBuffer B] : KeepsStream (Peekable.Step (R := R) (B := B)) id id :=
  keepsStream (fun _ => True) (fun _ => rfl) (fun _ => trivial)
    fun p op _ _ _ ⟨fuel, h⟩ => ⟨trivial, Peekable.perform_post fuel p op _ h⟩

/-- An exact peek that goes on after an interruption, and the read after it. -/
theorem session_keepsStream_script :
    prepend [1, 2] (prepend [3] (Source.rest (Script.mk []))) =
      prepend [] (Source.rest (Script.mk
        [.data [1], .error (.ofKind .interrupted), .data [2, 3]])) := by
  have peeked : Peekable.Step
      ⟨⟨[.data [1], .error (.ofKind .interrupted), .data [2, 3]]⟩, ⟨[]⟩, none⟩
      (.peekExact [0, 0, 0]) ⟨[], [1, 2, 3]⟩
      (⟨⟨[]⟩, ⟨[1, 2, 3]⟩, none⟩ : Peekable Script (BoundedBuffer 3)) :=
    ⟨3, by decide +kernel⟩
  have read : Peekable.Step ⟨⟨[]⟩, ⟨[1, 2, 3]⟩, none⟩ (.read [0, 0]) ⟨[1, 2], []⟩
      (⟨⟨[]⟩, ⟨[3]⟩, none⟩ : Peekable Script (BoundedBuffer 3)) := ⟨0, by decide +kernel⟩
  exact (session_keepsStream Script (BoundedBuffer 3) _ _ _ _ _ _ (Run.nil.snoc peeked) read).1

/-- The same for both asynchronous flavours, after every poll. -/
theorem asyncSession_keepsStream (R R' W B : Type) [Future.AsyncRead R] [Source R UInt8]
    [Future.LawfulAsyncRead R] [Tokio.AsyncRead R'] [Source R' UInt8] [Tokio.LawfulAsyncRead R']
    [Tokio.BufMut W] [Tokio.LawfulBufMut W] [Buffer B] [LawfulBuffer B] :
    KeepsStream (Future.Session.Step (R := R) (B := B)) .idle Future.Session.held ∧
      KeepsStream (Tokio.Session.Step (R := R') (W := W) (B := B)) .idle Tokio.Session.held := by
  constructor
  · refine keepsStream Future.Session.Inv (fun _ => rfl) (fun _ => trivial) ?_
    rintro s i seen s' hs ⟨fuel, x, hx, hout⟩
    exact Future.Session.react_post hs hx _ hout
  · refine keepsStream Tokio.Session.Inv (fun _ => rfl) (fun _ => trivial) ?_
    rintro s i seen s' hs ⟨fuel, x, hx, hout⟩
    exact Tokio.Session.react_post hs hx _ hout

/-- An exact peek that is dropped while it is pending, and the read after it. -/
theorem asyncSession_keepsStream_script :
    prepend [1] (prepend [2] (Source.rest (PollScript.mk [.ready (.data [3])]))) =
        prepend [] (Source.rest (PollScript.mk
          [.ready (.data [1, 2]), .pending, .ready (.data [3])])) ∧
      Starts [1, 2] (prepend [1, 2] (Source.rest (PollScript.mk [.ready (.data [3])]))) := by
  have started : Future.Session.Step
      (.idle ⟨⟨[.ready (.data [1, 2]), .pending, .ready (.data [3])]⟩, ⟨[]⟩, none⟩)
      (.peekExact [0, 0, 0]) ⟨[], []⟩
      (.peekExact (.new ⟨⟨[.ready (.data [1, 2]), .pending, .ready (.data [3])]⟩, ⟨[]⟩, none⟩
        [0, 0, 0]) : Future.Session PollScript (BoundedBuffer 3)) :=
    ⟨0, _, rfl, rfl⟩
  have polled : Future.Session.Step
      (.peekExact (.new ⟨⟨[.ready (.data [1, 2]), .pending, .ready (.data [3])]⟩, ⟨[]⟩, none⟩
        [0, 0, 0])) .poll ⟨[], [1, 2]⟩
      (.peekExact ⟨⟨⟨[.ready (.data [3])]⟩, ⟨[1, 2]⟩, none⟩, [1, 2, 0], 2⟩ :
        Future.Session PollScript (BoundedBuffer 3)) :=
    ⟨2, _, rfl, by decide +kernel⟩
  have dropped : Future.Session.Step
      (.peekExact ⟨⟨⟨[.ready (.data [3])]⟩, ⟨[1, 2]⟩, none⟩, [1, 2, 0], 2⟩) .drop ⟨[], []⟩
      (.idle ⟨⟨[.ready (.data [3])]⟩, ⟨[1, 2]⟩, none⟩ :
        Future.Session PollScript (BoundedBuffer 3)) :=
    ⟨0, _, rfl, rfl⟩
  have read : Future.Session.Step (.idle ⟨⟨[.ready (.data [3])]⟩, ⟨[1, 2]⟩, none⟩)
      (.pollRead [0]) ⟨[1], []⟩
      (.idle ⟨⟨[.ready (.data [3])]⟩, ⟨[2]⟩, none⟩ :
        Future.Session PollScript (BoundedBuffer 3)) :=
    ⟨0, _, rfl, by decide +kernel⟩
  have keeps := (asyncSession_keepsStream PollScript PollScript Tokio.SliceSink
    (BoundedBuffer 3)).1
  exact ⟨(keeps _ _ _ _ _ _ (((Run.nil.snoc started).snoc polled).snoc dropped) read).1,
    (keeps _ _ _ _ _ _ (Run.nil.snoc started) polled).2⟩

end PeekableReader
