import PeekableReader.Tokio.Transparent

/-!
# Sessions with the `AsyncPeekable` of the `tokio` module

As in the `future` module, with `ReadBuf`s as destinations of the direct polls, and with
`PeekBuf`, whose sink may be any `BufMut`.
-/

namespace PeekableReader.Tokio

open Buffer

inductive Session (R W B : Type) where
  | idle (p : Peekable R B)
  | peek (f : Peek R B)
  | peekBuf (f : PeekBuf R W B)
  | peekExact (f : PeekExact R B)
  | peekToEnd (dst : List UInt8) (f : PeekToEnd R B)
  | peekToString (dst : Str) (f : PeekToString R B)
  | fillPeekBuf (f : FillPeekBuf R B)
  deriving DecidableEq

inductive Input (W : Type) where
  | pollRead (rb : ReadBuf)
  | pollPeek (rb : ReadBuf)
  | consume
  | consumeInPlace
  | peek (buf : List UInt8)
  | peekBuf (buf : W)
  | peekExact (buf : List UInt8)
  | peekToEnd (buf : List UInt8)
  | peekToString (buf : Str)
  | fillPeekBuf
  | poll
  | drop

namespace Session

variable {R W B : Type}

/-- The peekable reader, whoever holds it. -/
def held : Session R W B → Peekable R B
  | idle p => p
  | peek f => f.peekable
  | peekBuf f => f.peeker
  | peekExact f => f.peekable
  | peekToEnd _ f => f.peekable
  | peekToString _ f => f.peekable
  | fillPeekBuf f => f.peeker

/-- The session after a poll of a future: idle again if it was ready. -/
def after {α : Type} (poll : Poll α) (busy : Session R W B) : Session R W B :=
  match poll with
  | .ready _ => idle busy.held
  | .pending => busy

@[simp] theorem held_after {α : Type} (poll : Poll α) (busy : Session R W B) :
    (after poll busy).held = busy.held := by
  cases poll <;> rfl

variable [AsyncRead R] [BufMut W] [Buffer B]

/-- The session's answer to an input, or `none` where the borrow of the reader forbids it. -/
def react (fuel : Nat) : Session R W B → Input W → Option (Exec (Seen × Session R W B))
  | idle p, .pollRead rb => some do
    let (_, rb', p) ← pollRead p rb
    return (⟨rb'.filledBytes.drop rb.filled, []⟩, idle p)
  | idle p, .pollPeek rb => some do
    let (_, rb', p) ← pollPeek fuel p rb
    return (⟨[], rb'.filledBytes.drop rb.filled⟩, idle p)
  | idle p, .consume =>
    let (buffer, p) := p.consume
    some (.ok (⟨asSlice buffer, []⟩, idle p))
  | idle p, .consumeInPlace => some (.ok (⟨p.peeked, []⟩, idle p.consumeInPlace))
  | idle p, .peek buf => some (.ok (⟨[], []⟩, peek ⟨p, buf⟩))
  | idle p, .peekBuf buf => some (.ok (⟨[], []⟩, peekBuf ⟨p, buf⟩))
  | idle p, .peekExact buf => some (.ok (⟨[], []⟩, peekExact (.new p buf)))
  | idle p, .peekToEnd buf => some (.ok (⟨[], []⟩, peekToEnd buf (.new p buf)))
  | idle p, .peekToString buf => some (.ok (⟨[], []⟩, peekToString buf (.new p buf)))
  | idle p, .fillPeekBuf => some (.ok (⟨[], []⟩, fillPeekBuf (.new p)))
  | idle _, .poll => none
  | idle _, .drop => none
  | peek f, .poll => some do
    let (poll, f) ← Peek.poll fuel f
    return (⟨[], counted poll.handed f.buf⟩, after poll (peek f))
  | peekBuf f, .poll => some do
    let (poll, f') ← PeekBuf.poll fuel f
    return (⟨[], (BufMut.written f'.buf).drop (BufMut.written f.buf).length⟩,
      after poll (peekBuf f'))
  | peekExact f, .poll => some do
    let (poll, f) ← PeekExact.poll fuel f
    return (f.seen poll, after poll (peekExact f))
  | peekToEnd dst f, .poll => some do
    let (poll, f) ← PeekToEnd.poll fuel f
    return (⟨[], f.buf.drop dst.length⟩, after poll (peekToEnd dst f))
  | peekToString dst f, .poll => some do
    let (poll, f) ← PeekToString.poll fuel f
    return (⟨[], f.buf.bytes.drop dst.bytes.length⟩, after poll (peekToString dst f))
  | fillPeekBuf f, .poll => some do
    let (poll, f) ← FillPeekBuf.poll f
    return (⟨[], []⟩, after poll (fillPeekBuf f))
  | busy, .drop => some (.ok (⟨[], []⟩, idle busy.held))
  | _, _ => none

/-- One step of a session, with enough fuel for it to return. -/
def Step (s : Session R W B) (i : Input W) (seen : Seen) (s' : Session R W B) : Prop :=
  ∃ fuel x, s.react fuel i = some x ∧ x = .ok (seen, s')

/-- What a future that has been polled and is pending keeps in step with the reader. -/
def Inv : Session R W B → Prop
  | idle _ => True
  | peek _ => True
  | peekBuf _ => True
  | peekExact f => f.Resumable
  | peekToEnd dst f => f.Mirrors dst
  | peekToString dst f => f.buf = dst
  | fillPeekBuf f => f.Valid

/-- The capacity that `fill_peek_buf` found covers the length it found. -/
def Ample : Session R W B → Prop
  | fillPeekBuf f => f.original ≤ f.cap
  | _ => True

omit [AsyncRead R] [BufMut W] in
theorem Inv.ample [AmpleBuffer B] {s : Session R W B} (hs : s.Inv) : s.Ample := by
  cases s with
  | fillPeekBuf f => exact hs.covers inferInstance
  | _ => trivial

omit [AsyncRead R] [BufMut W] in
/-- A poll of a future gives the reader back, or leaves the future to be polled again. -/
theorem polled [Ledger R UInt8] {α : Type} {poll : Poll α} {busy busy' : Session R W B} {seen : Seen}
    (hinv : poll = .pending → busy'.Inv) (h : Transparent busy.held seen busy'.held) :
    (after poll busy').Inv ∧ Transparent busy.held seen (after poll busy').held := by
  rw [held_after]
  refine ⟨?_, h⟩
  cases poll with
  | ready _ => trivial
  | pending => exact hinv rfl

variable [Ledger R UInt8] [LawfulBufMut W] [LawfulBuffer B]

/-- No step but a read of the caller's own `ReadBuf` needs more than the law for fresh
ones: it does not panic, and what it shows is transparent. -/
theorem react_sat [LawfulFreshRead R] {fuel : Nat} {s : Session R W B} (hs : s.Inv)
    (hample : s.Ample) {i : Input W} (hread : ∀ rb, i ≠ .pollRead rb)
    {x : Exec (Seen × Session R W B)} (hx : s.react fuel i = some x) :
    x.Sat fun (seen, s') => s'.Inv ∧ Transparent s.held seen s'.held := by
  cases s with
  | idle p =>
    cases i <;> cases hx
    case pollRead.refl rb => exact absurd rfl (hread rb)
    case pollPeek.refl rb =>
      refine (pollPeek_sat fuel p rb).bind ?_
      intro out h
      obtain ⟨poll, rb', p'⟩ := out
      exact ⟨trivial, h.transparent⟩
    case consume.refl => exact ⟨trivial, transparent_consume p⟩
    case consumeInPlace.refl => exact ⟨trivial, transparent_consumeInPlace p⟩
    case peek.refl buf => exact ⟨trivial, .refl p⟩
    case peekBuf.refl buf => exact ⟨trivial, .refl p⟩
    case peekExact.refl buf => exact ⟨PeekExact.resumable_new p buf, .refl p⟩
    case peekToEnd.refl buf => exact ⟨PeekToEnd.mirrors_new p buf, .refl p⟩
    case peekToString.refl buf => exact ⟨rfl, .refl p⟩
    case fillPeekBuf.refl => exact ⟨FillPeekBuf.valid_new p, .refl p⟩
  | peek f =>
    cases i <;> cases hx
    case poll.refl =>
      refine (Peek.poll_sat fuel f).bind ?_
      rintro ⟨poll, f'⟩ ⟨poll₀, rb, h, hbuf, rfl⟩
      exact polled (fun _ => trivial) (hbuf ▸ h.transparent_new)
    case drop.refl => exact ⟨trivial, .refl _⟩
  | peekBuf f =>
    cases i <;> cases hx
    case poll.refl =>
      refine (PeekBuf.poll_sat fuel f).bind ?_
      intro out h
      obtain ⟨poll, f'⟩ := out
      exact polled (fun _ => trivial) h.transparent
    case drop.refl => exact ⟨trivial, .refl _⟩
  | peekExact f =>
    cases i <;> cases hx
    case poll.refl =>
      refine (PeekExact.poll_sat fuel f hs).bind ?_
      rintro ⟨poll, f'⟩ ⟨poll₀, h, rfl⟩
      exact polled (fun hp => h.resumable (Poll.mapOk_eq_pending.mp hp))
        (by rw [PeekExact.seen_mapOk]; exact h.transparent)
    case drop.refl => exact ⟨trivial, .refl _⟩
  | peekToEnd dst f =>
    cases i <;> cases hx
    case poll.refl =>
      refine (PeekToEnd.pollWith_sat readTail_lawful fuel dst f hs).bind ?_
      intro out h
      obtain ⟨poll, f'⟩ := out
      exact polled (fun _ => h.mirrors) h.peeks.transparent
    case drop.refl => exact ⟨trivial, .refl _⟩
  | peekToString dst f =>
    obtain rfl : f.buf = dst := hs
    cases i <;> cases hx
    case poll.refl =>
      refine (PeekToString.pollWith_sat readTail_lawful fuel f).bind ?_
      intro out h
      obtain ⟨poll, f'⟩ := out
      exact polled (fun hp => h.untouched hp) h.peeks.transparent
    case drop.refl => exact ⟨trivial, .refl _⟩
  | fillPeekBuf f =>
    cases i <;> cases hx
    case poll.refl =>
      refine (FillPeekBuf.pollWith_sat readTail_lawful f hs.original hample).bind ?_
      intro out h
      obtain ⟨poll, f'⟩ := out
      exact polled (fun hp => (hp ▸ h).valid hs) h.transparent
    case drop.refl => exact ⟨trivial, .refl _⟩

/-- No step panics, even if the reader mistreats the caller's own `ReadBuf`. -/
theorem react_safe [LawfulFreshRead R] {fuel : Nat} {s : Session R W B} (hs : s.Inv)
    (hample : s.Ample) {i : Input W} {x : Exec (Seen × Session R W B)}
    (hx : s.react fuel i = some x) : x.Sat fun (_, s') => s'.Inv := by
  by_cases hread : ∀ rb, i ≠ .pollRead rb
  · exact (react_sat hs hample hread hx).mono fun _ h => h.1
  · obtain ⟨rb, rfl⟩ := not_forall_not.mp hread
    cases s <;> cases hx
    case idle.refl p =>
      refine (pollRead_safe p rb).bind ?_
      rintro ⟨poll, rb', p'⟩ -
      exact trivial

/-- Without the capacity covering the length, the same holds of the steps that return. -/
theorem react_post [LawfulAsyncRead R] {fuel : Nat} {s : Session R W B} (hs : s.Inv) {i : Input W}
    {x : Exec (Seen × Session R W B)} (hx : s.react fuel i = some x) :
    x.Post fun (seen, s') => s'.Inv ∧ Transparent s.held seen s'.held := by
  by_cases hample : s.Ample
  · by_cases hread : ∀ rb, i ≠ .pollRead rb
    · exact (react_sat hs hample hread hx).toPost
    · obtain ⟨rb, rfl⟩ := not_forall_not.mp hread
      cases s <;> cases hx
      case idle.refl p =>
        refine ((pollRead_sat p rb).bind ?_).toPost
        intro out h
        obtain ⟨poll, rb', p'⟩ := out
        exact ⟨trivial, h.transparent⟩
  · cases s <;> try exact absurd trivial hample
    case fillPeekBuf f =>
      cases i <;> cases hx
      case poll.refl =>
        refine (FillPeekBuf.pollWith_post readTail_lawful f hs.original).bind ?_
        intro out h
        obtain ⟨poll, f'⟩ := out
        exact Exec.Sat.toPost (polled (fun hp => (hp ▸ h).valid hs) h.transparent)
      case drop.refl => exact Exec.Sat.toPost ⟨trivial, .refl _⟩

end Session

end PeekableReader.Tokio
