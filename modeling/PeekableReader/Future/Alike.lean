import PeekableReader.Async.Alike
import PeekableReader.Future.Session

/-!
# Sessions of the `future` module, with all they return

`Session.call` answers an input with all that the call or the poll gives back, where `react`
keeps what the caller sees of the stream. Sessions over peekable readers that are alike
answer any sequence of inputs alike.
-/

namespace PeekableReader.Future

open Buffer

variable {R R' B B' : Type} [AsyncRead R] [AsyncRead R'] [Buffer B] [Buffer B']

/-- Related readers answer a poll alike, and stay related. -/
def PollSim (S : R → R' → Prop) : Prop :=
  ∀ r r' buf, S r r' → Agree (Agree S) (AsyncRead.pollRead r buf) (AsyncRead.pollRead r' buf)

omit [AsyncRead R'] in
theorem PollSim.eq : PollSim (Eq : R → R → Prop) := by
  rintro r _ buf rfl
  exact ⟨rfl, rfl, rfl⟩

section

variable {S : R → R' → Prop} {T : B → B' → Prop} {p : Peekable R B} {q : Peekable R' B'}
  (hS : PollSim S) (hT : BufferSim T)
include hS hT

theorem readTail_alike [BoundedAsyncRead R] : TailSim S T (readTail (R := R)) (readTail (R := R')) := by
  intro p q lo hi h
  unfold readTail
  rw [← h.peeked hT]
  by_cases hrange : lo ≤ hi ∧ hi ≤ p.peeked.length
  · obtain ⟨hlo, hhi⟩ := hrange
    simp only [slice_eq p.peeked hlo hhi, Exec.ok_bind]
    obtain ⟨hpoll, hspare, hreader⟩ := hS _ _ ((p.peeked.take hi).drop lo) h.reader
    have hlen := BoundedAsyncRead.pollRead_length p.reader ((p.peeked.take hi).drop lo)
    rw [← hpoll, ← hspare]
    refine ⟨rfl, hreader, hT.setSlice h.buffer ?_, h.bufCap⟩
    change _ = p.peeked.length
    grind
  · simp only [slice, if_neg hrange]
    exact rfl

variable [LawfulBuffer B] [LawfulBuffer B']

theorem pollRead_alike (h : Alike S T p q) (buf : List UInt8) :
    Exec.Rel (Agree (Agree (Alike S T))) (pollRead p buf) (pollRead q buf) := by
  unfold pollRead
  rw [← h.peeked hT, ← h.len_eq hT]
  by_cases hpos : len p.buffer > 0
  · simp only [if_pos hpos]
    by_cases hlt : buf.length < len p.buffer
    · simp only [if_pos hlt]
      refine .same _ fun src => .same _ fun buf' => ?_
      rw [p.len_buffer] at hlt
      refine (h.consume_front hT (Nat.le_of_lt hlt)).bind ?_
      intro b b' hb
      exact ⟨rfl, rfl, hb⟩
    · simp only [if_neg hlt]
      by_cases heq : buf.length = len p.buffer
      · simp only [if_pos heq]
        exact .same _ fun buf' => ⟨rfl, rfl, h.clear hT⟩
      · simp only [if_neg heq]
        refine .same _ fun buf' => .same _ fun rest => ?_
        obtain ⟨hpoll, hrest, hreader⟩ := hS _ _ rest h.reader
        rw [← hpoll, ← hrest]
        have h₁ := (h.clear hT).with_reader hreader
        cases (AsyncRead.pollRead p.reader rest).1 using Poll.casesResult with
        | ok n => exact ⟨rfl, rfl, h₁⟩
        | error e => exact ⟨rfl, rfl, h₁⟩
        | pending => exact ⟨rfl, rfl, h₁⟩
  · simp only [if_neg hpos]
    obtain ⟨hpoll, hrest, hreader⟩ := hS _ _ buf h.reader
    exact ⟨hpoll, hrest, h.with_reader hreader⟩

variable [BoundedAsyncRead R]

theorem pollPeek_alike (fuel : Nat) (h : Alike S T p q) (buf : List UInt8) :
    Exec.Rel (Agree (Agree (Alike S T))) (pollPeek fuel p buf) (pollPeek fuel q buf) := by
  have htail := readTail_alike hS hT
  unfold pollPeek
  rw [← h.peeked hT, ← h.len_eq hT]
  by_cases hpos : len p.buffer > 0
  · simp only [if_pos hpos]
    by_cases hlt : buf.length < len p.buffer
    · simp only [if_pos hlt]
      exact .same _ fun src => .same _ fun buf' => ⟨rfl, rfl, h⟩
    · simp only [if_neg hlt]
      by_cases heq : buf.length = len p.buffer
      · simp only [if_pos heq]
        exact .same _ fun buf' => ⟨rfl, rfl, h⟩
      · simp only [if_neg heq]
        rcases hres : resize p.buffer buf.length with ⟨_ | _, buffer⟩ <;>
          obtain ⟨buffer', hres', hbuffer⟩ := hT.resized h.buffer hres <;>
          simp only [hres']
        · exact ⟨rfl, rfl, h.with_buffer hbuffer⟩
        · refine (pollRetry_alike htail hT fuel (h.with_buffer hbuffer) _).bind_agree ?_
          intro poll p₁ q₁ h₁
          cases poll using Poll.casesResult with
          | ok n =>
            have h₂ := h₁.truncate hT (n + len p.buffer)
            simp only [h₂.peeked hT]
            exact .same _ fun buf' => ⟨rfl, rfl, h₂⟩
          | error e =>
            have h₂ := h₁.truncate hT (len p.buffer)
            by_cases he : e.kind = .wouldBlock
            · simp only [if_pos he, h₂.peeked hT]
              exact .same _ fun buf' => ⟨rfl, rfl, h₂⟩
            · simp only [if_neg he]
              exact ⟨rfl, rfl, h₂⟩
          | pending =>
            have h₂ := h₁.truncate hT (len p.buffer)
            simp only [h₂.peeked hT]
            exact .same _ fun buf' => ⟨rfl, rfl, h₂⟩
  · simp only [if_neg hpos]
    by_cases hzero : buf.length = 0
    · simp only [if_pos hzero]
      exact ⟨rfl, rfl, h⟩
    · simp only [if_neg hzero]
      rcases hres : resize p.buffer (len p.buffer + buf.length) with ⟨_ | _, buffer⟩ <;>
        obtain ⟨buffer', hres', hbuffer⟩ := hT.resized h.buffer hres <;>
        simp only [hres']
      · exact ⟨rfl, rfl, h.with_buffer hbuffer⟩
      · refine (pollRetry_alike htail hT fuel (h.with_buffer hbuffer) _).bind_agree ?_
        intro poll p₁ q₁ h₁
        cases poll using Poll.casesResult with
        | ok n =>
          have h₂ := h₁.truncate hT (len p.buffer + n)
          simp only [h₂.peeked hT]
          exact .same _ fun src => .same _ fun buf' => ⟨rfl, rfl, h₂⟩
        | error e =>
          by_cases he : e.kind = .wouldBlock
          · simp only [if_pos he]
            exact ⟨rfl, rfl, h₁.truncate hT _⟩
          · simp only [if_neg he]
            exact ⟨rfl, rfl, h₁.truncate hT _⟩
        | pending => exact ⟨rfl, rfl, h₁.truncate hT _⟩

theorem pollPeekVectored_alike (fuel : Nat) (h : Alike S T p q) (bufs : List (List UInt8)) :
    Exec.Rel (Agree (Agree (Alike S T))) (pollPeekVectored fuel p bufs)
      (pollPeekVectored fuel q bufs) := by
  induction bufs with
  | nil =>
    refine (pollPeek_alike hS hT fuel h []).bind_agree₂ ?_
    intro poll _ p₁ q₁ h₁
    exact ⟨rfl, rfl, h₁⟩
  | cons b bufs ih =>
    unfold pollPeekVectored
    by_cases hb : b.isEmpty = true
    · simp only [if_pos hb]
      refine ih.bind_agree₂ ?_
      intro poll bufs' p₁ q₁ h₁
      exact ⟨rfl, rfl, h₁⟩
    · simp only [if_neg hb]
      refine (pollPeek_alike hS hT fuel h b).bind_agree₂ ?_
      intro poll b' p₁ q₁ h₁
      exact ⟨rfl, rfl, h₁⟩

end

/-! ## Sessions -/

namespace Session

/-- The session's answer to an input, with all it gives back. An input that the borrow of
the reader forbids changes nothing. -/
def call (fuel : Nat) (i : Input) (s : Session R B) :
    Exec (Answer (Poll (Except IoError Nat)) × Session R B) :=
  match s, i with
  | idle p, .pollRead buf => do
    let (poll, buf, p) ← pollRead p buf
    return (.gave poll [buf], idle p)
  | idle p, .pollPeek buf => do
    let (poll, buf, p) ← pollPeek fuel p buf
    return (.gave poll [buf], idle p)
  | idle p, .pollPeekVectored bufs => do
    let (poll, bufs, p) ← pollPeekVectored fuel p bufs
    return (.gave poll bufs, idle p)
  | idle p, .consume =>
    let (buffer, p) := p.consume
    .ok (.handed (asSlice buffer), idle p)
  | idle p, .consumeInPlace => .ok (.done, idle p.consumeInPlace)
  | idle p, .peek buf => .ok (.done, peek ⟨p, buf⟩)
  | idle p, .peekVectored bufs => .ok (.done, peekVectored ⟨p, bufs⟩)
  | idle p, .peekExact buf => .ok (.done, peekExact (.new p buf))
  | idle p, .peekToEnd buf => .ok (.done, peekToEnd buf (.new p buf))
  | idle p, .peekToString buf => .ok (.done, peekToString buf (.new p buf))
  | idle p, .fillPeekBuf => .ok (.done, fillPeekBuf (.new p))
  | peek f, .poll => do
    let (poll, f) ← Peek.poll fuel f
    return (.gave poll [f.buf], after poll (peek f))
  | peekVectored f, .poll => do
    let (poll, f) ← PeekVectored.poll fuel f
    return (.gave poll f.bufs, after poll (peekVectored f))
  | peekExact f, .poll => do
    let (poll, f) ← PeekExact.poll fuel f
    return (.gave (poll.mapOk fun () => f.buf.length) [f.buf], after poll (peekExact f))
  | peekToEnd dst f, .poll => do
    let (poll, f) ← PeekToEnd.poll fuel f
    return (.gave poll [f.buf], after poll (peekToEnd dst f))
  | peekToString dst f, .poll => do
    let (poll, f) ← PeekToString.poll fuel f
    return (.gave poll [f.buf.bytes], after poll (peekToString dst f))
  | fillPeekBuf f, .poll => do
    let (poll, f) ← FillPeekBuf.poll f
    return (.gave poll [], after poll (fillPeekBuf f))
  | idle p, _ => .ok (.done, idle p)
  | busy, .drop => .ok (.done, idle busy.held)
  | busy, _ => .ok (.done, busy)

/-- Sessions at the same point, over peekable readers that are alike. -/
inductive Alike (S : R → R' → Prop) (T : B → B' → Prop) : Session R B → Session R' B' → Prop
  | idle {p : Peekable R B} {q : Peekable R' B'} (h : PeekableReader.Alike S T p q) :
    Alike S T (idle p) (idle q)
  | peek {p : Peekable R B} {q : Peekable R' B'} (h : PeekableReader.Alike S T p q)
    (buf : List UInt8) : Alike S T (peek ⟨p, buf⟩) (peek ⟨q, buf⟩)
  | peekVectored {p : Peekable R B} {q : Peekable R' B'} (h : PeekableReader.Alike S T p q)
    (bufs : List (List UInt8)) : Alike S T (peekVectored ⟨p, bufs⟩) (peekVectored ⟨q, bufs⟩)
  | peekExact {f : PeekExact R B} {g : PeekExact R' B'} (h : f.Sim S T g) :
    Alike S T (peekExact f) (peekExact g)
  | peekToEnd (dst : List UInt8) {f : PeekToEnd R B} {g : PeekToEnd R' B'} (h : f.Sim S T g) :
    Alike S T (peekToEnd dst f) (peekToEnd dst g)
  | peekToString (dst : Str) {f : PeekToString R B} {g : PeekToString R' B'} (h : f.Sim S T g) :
    Alike S T (peekToString dst f) (peekToString dst g)
  | fillPeekBuf {f : FillPeekBuf R B} {g : FillPeekBuf R' B'} (h : f.Sim S T g) :
    Alike S T (fillPeekBuf f) (fillPeekBuf g)

variable {S : R → R' → Prop} {T : B → B' → Prop} {s : Session R B} {s' : Session R' B'}

omit [AsyncRead R] [AsyncRead R'] [Buffer B] [Buffer B'] in
theorem Alike.held (h : Alike S T s s') : PeekableReader.Alike S T s.held s'.held := by
  cases h with
  | idle h => exact h
  | peek h _ => exact h
  | peekVectored h _ => exact h
  | peekExact h => exact h.peekable
  | peekToEnd _ h => exact h.peekable
  | peekToString _ h => exact h.peekable
  | fillPeekBuf h => exact h.peeker

omit [AsyncRead R] [AsyncRead R'] [Buffer B] [Buffer B'] in
theorem Alike.after {α : Type} (poll : Poll α) (h : Alike S T s s') :
    Alike S T (Session.after poll s) (Session.after poll s') := by
  cases poll with
  | ready a => exact .idle h.held
  | pending => exact h

variable [LawfulBuffer B] [LawfulBuffer B'] [BoundedAsyncRead R]

theorem call_alike (hS : PollSim S) (hT : BufferSim T) (fuel : Nat) (i : Input)
    (hfill : i = .fillPeekBuf → SameCapacity T) (h : Alike S T s s') :
    Exec.Rel (Agree (Alike S T)) (s.call fuel i) (s'.call fuel i) := by
  have htail := readTail_alike hS hT
  cases h with
  | idle h =>
    cases i with
    | pollRead buf =>
      exact (pollRead_alike hS hT h buf).bind_agree₂ fun _ _ _ _ h₁ => ⟨rfl, .idle h₁⟩
    | pollPeek buf =>
      exact (pollPeek_alike hS hT fuel h buf).bind_agree₂ fun _ _ _ _ h₁ => ⟨rfl, .idle h₁⟩
    | pollPeekVectored bufs =>
      exact (pollPeekVectored_alike hS hT fuel h bufs).bind_agree₂ fun _ _ _ _ h₁ => ⟨rfl, .idle h₁⟩
    | consume =>
      obtain ⟨hbytes, h₁⟩ := h.consume hT
      exact ⟨congrArg _ hbytes, .idle h₁⟩
    | consumeInPlace => exact ⟨rfl, .idle (h.consumeInPlace hT)⟩
    | peek buf => exact ⟨rfl, .peek h buf⟩
    | peekVectored bufs => exact ⟨rfl, .peekVectored h bufs⟩
    | peekExact buf => exact ⟨rfl, .peekExact ⟨h, rfl, rfl⟩⟩
    | peekToEnd buf => exact ⟨rfl, .peekToEnd buf ⟨h, rfl, rfl⟩⟩
    | peekToString buf => exact ⟨rfl, .peekToString buf ⟨h, rfl, rfl⟩⟩
    | fillPeekBuf => exact ⟨rfl, .fillPeekBuf (FillPeekBuf.new_sim hT (hfill rfl) h)⟩
    | poll => exact ⟨rfl, .idle h⟩
    | drop => exact ⟨rfl, .idle h⟩
  | peek h buf =>
    cases i
    case poll =>
      simp only [call, Peek.poll, bind_assoc]
      exact (pollPeek_alike hS hT fuel h buf).bind_agree₂
        fun poll buf' _ _ h₁ => ⟨rfl, .after poll (.peek h₁ buf')⟩
    case drop => exact ⟨rfl, .idle h⟩
    all_goals exact ⟨rfl, .peek h buf⟩
  | peekVectored h bufs =>
    cases i
    case poll =>
      simp only [call, PeekVectored.poll, bind_assoc]
      exact (pollPeekVectored_alike hS hT fuel h bufs).bind_agree₂
        fun poll bufs' _ _ h₁ => ⟨rfl, .after poll (.peekVectored h₁ bufs')⟩
    case drop => exact ⟨rfl, .idle h⟩
    all_goals exact ⟨rfl, .peekVectored h bufs⟩
  | peekExact h =>
    cases i
    case poll =>
      refine (PeekExact.pollWith_sim htail hT _ fuel h).bind_agree ?_
      intro poll f g h₁
      exact ⟨by simp [h₁.buf], .after poll (.peekExact h₁)⟩
    case drop => exact ⟨rfl, .idle h.peekable⟩
    all_goals exact ⟨rfl, .peekExact h⟩
  | peekToEnd dst h =>
    cases i
    case poll =>
      refine (PeekToEnd.pollWith_sim htail hT fuel h).bind_agree ?_
      intro poll f g h₁
      exact ⟨by simp [h₁.buf], .after poll (.peekToEnd dst h₁)⟩
    case drop => exact ⟨rfl, .idle h.peekable⟩
    all_goals exact ⟨rfl, .peekToEnd dst h⟩
  | peekToString dst h =>
    cases i
    case poll =>
      refine (PeekToString.pollWith_sim htail hT fuel h).bind_agree ?_
      intro poll f g h₁
      exact ⟨by simp [h₁.buf], .after poll (.peekToString dst h₁)⟩
    case drop => exact ⟨rfl, .idle h.peekable⟩
    all_goals exact ⟨rfl, .peekToString dst h⟩
  | fillPeekBuf h =>
    cases i
    case poll =>
      exact (FillPeekBuf.pollWith_sim htail hT h).bind_agree
        fun poll f g h₁ => ⟨rfl, .after poll (.fillPeekBuf h₁)⟩
    case drop => exact ⟨rfl, .idle h.peeker⟩
    all_goals exact ⟨rfl, .fillPeekBuf h⟩

/-- Over any sequence of inputs the answers are the same, and so is the way it ends. -/
theorem calls_alike (hS : PollSim S) (hT : BufferSim T) (fuel : Nat) (inputs : List Input)
    (hfill : Input.fillPeekBuf ∈ inputs → SameCapacity T) (h : Alike S T s s') :
    Exec.Rel (Agree (Alike S T)) (runCalls (call fuel) inputs s) (runCalls (call fuel) inputs s') :=
  runCalls_rel (Alike S T) inputs
    (fun i hi _ _ h => call_alike hS hT fuel i (fun heq => hfill (heq ▸ hi)) h) h

end Session

end PeekableReader.Future
