import PeekableReader.Async.Transparent
import PeekableReader.Future.Spec

/-!
# Sessions with the `AsyncPeekable` of the `future` module

A session alternates between a reader that is idle and one that a future has borrowed. An
idle reader is polled directly, drained, or lent to a new future. A future is polled,
which gives the reader back once it is ready, or dropped, which gives it back as it is.

The futures that append to a destination are kept with the destination they began with.
-/

namespace PeekableReader.Future

open Buffer

inductive Session (R B : Type) where
  | idle (p : Peekable R B)
  | peek (f : Peek R B)
  | peekVectored (f : PeekVectored R B)
  | peekExact (f : PeekExact R B)
  | peekToEnd (dst : List UInt8) (f : PeekToEnd R B)
  | peekToString (dst : Str) (f : PeekToString R B)
  | fillPeekBuf (f : FillPeekBuf R B)
  deriving DecidableEq

inductive Input where
  | pollRead (buf : List UInt8)
  | pollPeek (buf : List UInt8)
  | pollPeekVectored (bufs : List (List UInt8))
  | consume
  | consumeInPlace
  | peek (buf : List UInt8)
  | peekVectored (bufs : List (List UInt8))
  | peekExact (buf : List UInt8)
  | peekToEnd (buf : List UInt8)
  | peekToString (buf : Str)
  | fillPeekBuf
  | poll
  | drop

namespace Session

variable {R B : Type}

/-- The peekable reader, whoever holds it. -/
def held : Session R B → Peekable R B
  | idle p => p
  | peek f => f.peekable
  | peekVectored f => f.peekable
  | peekExact f => f.peekable
  | peekToEnd _ f => f.peekable
  | peekToString _ f => f.peekable
  | fillPeekBuf f => f.peeker

/-- The session after a poll of a future: idle again if it was ready. -/
def after {α : Type} (poll : Poll α) (busy : Session R B) : Session R B :=
  match poll with
  | .ready _ => idle busy.held
  | .pending => busy

@[simp] theorem held_after {α : Type} (poll : Poll α) (busy : Session R B) :
    (after poll busy).held = busy.held := by
  cases poll <;> rfl

variable [AsyncRead R] [Buffer B]

/-- The session's answer to an input, or `none` where the borrow of the reader forbids it. -/
def react (fuel : Nat) : Session R B → Input → Option (Exec (Seen × Session R B))
  | idle p, .pollRead buf => some do
    let (poll, buf, p) ← pollRead p buf
    return (⟨counted poll.handed buf, []⟩, idle p)
  | idle p, .pollPeek buf => some do
    let (poll, buf, p) ← pollPeek fuel p buf
    return (⟨[], counted poll.handed buf⟩, idle p)
  | idle p, .pollPeekVectored bufs => some do
    let (poll, bufs, p) ← pollPeekVectored fuel p bufs
    return (⟨[], counted poll.handed bufs.flatten⟩, idle p)
  | idle p, .consume =>
    let (buffer, p) := p.consume
    some (.ok (⟨asSlice buffer, []⟩, idle p))
  | idle p, .consumeInPlace => some (.ok (⟨p.peeked, []⟩, idle p.consumeInPlace))
  | idle p, .peek buf => some (.ok (⟨[], []⟩, peek ⟨p, buf⟩))
  | idle p, .peekVectored bufs => some (.ok (⟨[], []⟩, peekVectored ⟨p, bufs⟩))
  | idle p, .peekExact buf => some (.ok (⟨[], []⟩, peekExact (.new p buf)))
  | idle p, .peekToEnd buf => some (.ok (⟨[], []⟩, peekToEnd buf (.new p buf)))
  | idle p, .peekToString buf => some (.ok (⟨[], []⟩, peekToString buf (.new p buf)))
  | idle p, .fillPeekBuf => some (.ok (⟨[], []⟩, fillPeekBuf (.new p)))
  | idle _, .poll => none
  | idle _, .drop => none
  | peek f, .poll => some do
    let (poll, f) ← Peek.poll fuel f
    return (⟨[], counted poll.handed f.buf⟩, after poll (peek f))
  | peekVectored f, .poll => some do
    let (poll, f) ← PeekVectored.poll fuel f
    return (⟨[], counted poll.handed f.bufs.flatten⟩, after poll (peekVectored f))
  | peekExact f, .poll => some do
    let (poll, f) ← PeekExact.poll fuel f
    return (f.seen poll, after poll (peekExact f))
  | peekToEnd dst f, .poll => some do
    let (poll, f) ← PeekToEnd.poll fuel f
    return (⟨[], f.buf.drop dst.length⟩, after poll (peekToEnd dst f))
  | peekToString dst f, .poll => some do
    let (poll, f) ← PeekToString.poll fuel f
    return (⟨[], f.buf.bytes.drop dst.bytes.length⟩, after poll (peekToString dst f))
  | fillPeekBuf f, .poll => some do
    let (poll, f) ← FillPeekBuf.poll f
    return (⟨[], []⟩, after poll (fillPeekBuf f))
  | busy, .drop => some (.ok (⟨[], []⟩, idle busy.held))
  | _, _ => none

/-- One step of a session, with enough fuel for it to return. -/
def Step (s : Session R B) (i : Input) (seen : Seen) (s' : Session R B) : Prop :=
  ∃ fuel x, s.react fuel i = some x ∧ x = .ok (seen, s')

/-- What a future that has been polled and is pending keeps in step with the reader. -/
def Inv : Session R B → Prop
  | idle _ => True
  | peek _ => True
  | peekVectored _ => True
  | peekExact f => f.Resumable
  | peekToEnd dst f => f.Mirrors dst
  | peekToString dst f => f.buf = dst
  | fillPeekBuf f => f.Valid

/-- The capacity that `fill_peek_buf` found covers the length it found. -/
def Ample : Session R B → Prop
  | fillPeekBuf f => f.original ≤ f.cap
  | _ => True

omit [AsyncRead R] in
theorem Inv.ample [AmpleBuffer B] {s : Session R B} (hs : s.Inv) : s.Ample := by
  cases s with
  | fillPeekBuf f => exact hs.covers inferInstance
  | _ => trivial

omit [AsyncRead R] in
/-- A poll of a future gives the reader back, or leaves the future to be polled again. -/
theorem polled [Ledger R UInt8] {α : Type} {poll : Poll α} {busy busy' : Session R B} {seen : Seen}
    (hinv : poll = .pending → busy'.Inv) (h : Transparent busy.held seen busy'.held) :
    (after poll busy').Inv ∧ Transparent busy.held seen (after poll busy').held := by
  rw [held_after]
  refine ⟨?_, h⟩
  cases poll with
  | ready _ => trivial
  | pending => exact hinv rfl

variable [Ledger R UInt8] [LawfulAsyncRead R] [LawfulBuffer B]

/-- No step panics, and what it shows is transparent. -/
theorem react_sat {fuel : Nat} {s : Session R B} (hs : s.Inv) (hample : s.Ample) {i : Input}
    {x : Exec (Seen × Session R B)} (hx : s.react fuel i = some x) :
    x.Sat fun (seen, s') => s'.Inv ∧ Transparent s.held seen s'.held := by
  cases s with
  | idle p =>
    cases i <;> cases hx
    case pollRead.refl buf =>
      refine (pollRead_sat p buf).bind ?_
      intro out h
      obtain ⟨poll, buf', p'⟩ := out
      exact ⟨trivial, h.transparent⟩
    case pollPeek.refl buf =>
      refine (pollPeek_sat fuel p buf).bind ?_
      intro out h
      obtain ⟨poll, buf', p'⟩ := out
      exact ⟨trivial, h.transparent⟩
    case pollPeekVectored.refl bufs =>
      refine (pollPeekVectored_sat fuel p bufs).bind ?_
      intro out h
      obtain ⟨poll, bufs', p'⟩ := out
      exact ⟨trivial, h.transparent⟩
    case consume.refl => exact ⟨trivial, transparent_consume p⟩
    case consumeInPlace.refl => exact ⟨trivial, transparent_consumeInPlace p⟩
    case peek.refl buf => exact ⟨trivial, .refl p⟩
    case peekVectored.refl bufs => exact ⟨trivial, .refl p⟩
    case peekExact.refl buf => exact ⟨PeekExact.resumable_new p buf, .refl p⟩
    case peekToEnd.refl buf => exact ⟨PeekToEnd.mirrors_new p buf, .refl p⟩
    case peekToString.refl buf => exact ⟨rfl, .refl p⟩
    case fillPeekBuf.refl => exact ⟨FillPeekBuf.valid_new p, .refl p⟩
  | peek f =>
    cases i <;> cases hx
    case poll.refl =>
      refine (Peek.poll_sat fuel f).bind ?_
      intro out h
      obtain ⟨poll, f'⟩ := out
      exact polled (fun _ => trivial) h.transparent
    case drop.refl => exact ⟨trivial, .refl _⟩
  | peekVectored f =>
    cases i <;> cases hx
    case poll.refl =>
      refine (PeekVectored.poll_sat fuel f).bind ?_
      intro out h
      obtain ⟨poll, f'⟩ := out
      exact polled (fun _ => trivial) h.transparent
    case drop.refl => exact ⟨trivial, .refl _⟩
  | peekExact f =>
    cases i <;> cases hx
    case poll.refl =>
      refine (PeekExact.pollWith_sat readTail_lawful _ fuel f hs).bind ?_
      intro out h
      obtain ⟨poll, f'⟩ := out
      exact polled (fun hp => h.resumable hp) h.transparent
    case drop.refl => exact ⟨trivial, .refl _⟩
  | peekToEnd dst f =>
    cases i <;> cases hx
    case poll.refl =>
      refine (PeekToEnd.pollWith_sat readTail_lawful fuel dst f hs).bind ?_
      intro out h
      obtain ⟨poll, f'⟩ := out
      exact polled (fun _ => h.mirrors) h.peeks.transparent
    case drop.refl => exact ⟨trivial, .refl _⟩
  | peekToString dst f =>
    obtain rfl : f.buf = dst := hs
    cases i <;> cases hx
    case poll.refl =>
      refine (PeekToString.pollWith_sat readTail_lawful fuel f).bind ?_
      intro out h
      obtain ⟨poll, f'⟩ := out
      exact polled (fun hp => h.untouched hp) h.peeks.transparent
    case drop.refl => exact ⟨trivial, .refl _⟩
  | fillPeekBuf f =>
    cases i <;> cases hx
    case poll.refl =>
      refine (FillPeekBuf.pollWith_sat readTail_lawful f hs.original hample).bind ?_
      intro out h
      obtain ⟨poll, f'⟩ := out
      exact polled (fun hp => (hp ▸ h).valid hs) h.transparent
    case drop.refl => exact ⟨trivial, .refl _⟩

/-- Without the capacity covering the length, the same holds of the steps that return. -/
theorem react_post {fuel : Nat} {s : Session R B} (hs : s.Inv) {i : Input}
    {x : Exec (Seen × Session R B)} (hx : s.react fuel i = some x) :
    x.Post fun (seen, s') => s'.Inv ∧ Transparent s.held seen s'.held := by
  by_cases hample : s.Ample
  · exact (react_sat hs hample hx).toPost
  · cases s <;> try exact absurd trivial hample
    case fillPeekBuf f =>
      cases i <;> cases hx
      case poll.refl =>
        refine (FillPeekBuf.pollWith_post readTail_lawful f hs.original).bind ?_
        intro out h
        obtain ⟨poll, f'⟩ := out
        exact Exec.Sat.toPost (polled (fun hp => (hp ▸ h).valid hs) h.transparent)
      case drop.refl => exact Exec.Sat.toPost ⟨trivial, .refl _⟩

end Session

end PeekableReader.Future
