import PeekableReader.Async.Transparent
import PeekableReader.Tokio.Spec

/-!
# What the polls of the `tokio` flavour show of the stream
-/

namespace PeekableReader.Tokio

open Buffer

variable {R B : Type} [Buffer B] [Ledger R UInt8] {p p' : Peekable R B}

theorem PutsRead.transparent {rb rb' : ReadBuf} {poll : Poll (Except IoError Unit)}
    (h : PutsRead p rb poll rb' p') :
    Transparent p ⟨rb'.filledBytes.drop rb.filled, []⟩ p' := by
  obtain ⟨-, d, hd, hands, -⟩ := h
  refine ⟨?_, List.nil_prefix⟩
  change Ledger.Hands p (List.drop _ _) p'
  rwa [hd, drop_append_of_length (ReadBuf.length_filledBytes rb)]

theorem PutsPeeked.transparent {rb rb' : ReadBuf} {poll : Poll (Except IoError Unit)}
    (h : PutsPeeked p rb poll rb' p') :
    Transparent p ⟨[], rb'.filledBytes.drop rb.filled⟩ p' := by
  obtain ⟨-, ⟨d, hf⟩, happends, huntouched⟩ := h
  refine ⟨hf.delivers_nil, ?_⟩
  by_cases hpoll : poll = .ready (.ok ())
  · change List.drop _ _ <+: _
    rw [happends hpoll, drop_append_of_length (ReadBuf.length_filledBytes rb)]
    exact List.take_prefix _ _
  · obtain ⟨rfl, -⟩ := huntouched hpoll
    change List.drop _ _ <+: _
    rw [List.drop_of_length_le (Nat.le_of_eq (ReadBuf.length_filledBytes rb'))]
    exact List.nil_prefix

/-- A peek through a `ReadBuf` over the whole slice of its caller. -/
theorem PutsPeeked.transparent_new {buf : List UInt8} {rb : ReadBuf}
    {poll : Poll (Except IoError Unit)} (h : PutsPeeked p (.new buf) poll rb p') :
    Transparent p
      ⟨[], counted (poll.mapOk fun () => rb.filledBytes.length).handed rb.buf⟩ p' := by
  obtain ⟨hands, hreported⟩ := h.transparent
  refine ⟨hands, ?_⟩
  match poll with
  | .ready (.ok ()) =>
    change List.take _ rb.buf <+: _
    rw [rb.take_filledBytes]
    exact hreported
  | .ready (.error e) => exact List.nil_prefix
  | .pending => exact List.nil_prefix

theorem PutsInto.transparent {W : Type} [BufMut W] {f f' : PeekBuf R W B}
    {poll : Poll (Except IoError Nat)} (h : PutsInto f poll f') :
    Transparent f.peeker
      ⟨[], (BufMut.written f'.buf).drop (BufMut.written f.buf).length⟩ f'.peeker := by
  obtain ⟨⟨d, hf⟩, happends, huntouched⟩ := h
  refine ⟨hf.delivers_nil, ?_⟩
  change List.drop _ _ <+: _
  cases hpoll : poll.handed with
  | none => simp [(huntouched hpoll).1]
  | some n =>
    obtain ⟨d, -, hd, hprefix⟩ := happends n hpoll
    rw [hd, List.drop_left]
    exact hprefix

end PeekableReader.Tokio
