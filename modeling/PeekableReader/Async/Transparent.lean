import PeekableReader.Async.Spec
import PeekableReader.Io.Transparent

/-!
# What the polls of a future show of the stream

The progress a future keeps between polls is itself peeked bytes that the caller can
see, in the destination: what a poll shows is transparent whether it is ready or not.
-/

namespace PeekableReader

open Buffer

variable {R B : Type} [Buffer B]

/-- What a poll of `PeekExact` that ends in `f` reports: its destination once it has
succeeded, and before that the part filled so far. -/
def PeekExact.seen {α : Type} (poll : Poll (Except IoError α)) (f : PeekExact R B) : Seen :=
  match poll with
  | .ready (.ok _) => ⟨[], f.buf⟩
  | _ => ⟨[], f.buf.take f.filled⟩

omit [Buffer B] in
@[simp] theorem PeekExact.seen_mapOk {α β : Type} (g : α → β) (poll : Poll (Except IoError α))
    (f : PeekExact R B) : f.seen (poll.mapOk g) = f.seen poll := by
  cases poll using Poll.casesResult with
  | ok _ => rfl
  | error _ => rfl
  | pending => rfl

variable [Ledger R UInt8]

theorem PeekExact.Polled.transparent {f f' : PeekExact R B} {poll : Poll (Except IoError Unit)}
    (h : Polled f poll f') : Transparent f.peekable (PeekExact.seen poll f') f'.peekable := by
  obtain ⟨d, hf⟩ := h.peeks.fetched
  have hfilled : f'.buf.take f'.filled <+: f'.peekable.peeked := by
    rw [h.valid.filled_eq]
    exact List.take_prefix _ _
  cases poll using Poll.casesResult with
  | ok u =>
    refine ⟨hf.delivers_nil, ?_⟩
    change f'.buf <+: _
    rw [(h.peeks.exact rfl).2]
    exact List.take_prefix _ _
  | error e => exact ⟨hf.delivers_nil, hfilled⟩
  | pending => exact ⟨hf.delivers_nil, hfilled⟩

theorem FillPeekBuf.Polled.transparent {f f' : FillPeekBuf R B}
    {poll : Poll (Except IoError Nat)} (h : Polled f poll f') :
    Transparent f.peeker ⟨[], []⟩ f'.peeker := by
  obtain ⟨d, hf⟩ := h.fills.fetched
  exact ⟨hf.delivers_nil, List.nil_prefix⟩

end PeekableReader
