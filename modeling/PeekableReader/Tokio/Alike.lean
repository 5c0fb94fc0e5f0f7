import PeekableReader.Async.Alike
import PeekableReader.Tokio.Session

/-!
# Sessions of the `tokio` module, with all they return

As in the `future` module.
-/

namespace PeekableReader.Tokio

open Buffer

variable {R R' B B' W : Type} [AsyncRead R] [AsyncRead R'] [Buffer B] [Buffer B']

/-- Related readers answer a poll alike, and stay related. -/
def PollSim (S : R → R' → Prop) : Prop :=
  ∀ r r' rb, S r r' → Agree (Agree S) (AsyncRead.pollRead r rb) (AsyncRead.pollRead r' rb)

omit [AsyncRead R'] in
theorem PollSim.eq : PollSim (Eq : R → R → Prop) := by
  rintro r _ rb rfl
  exact ⟨rfl, rfl, rfl⟩

/-- `PeekBuf`s with alike peekable readers and the same sink. -/
structure PeekBuf.Sim (S : R → R' → Prop) (T : B → B' → Prop) (f : PeekBuf R W B)
    (g : PeekBuf R' W B') : Prop where
  peeker : PeekableReader.Alike S T f.peeker g.peeker
  buf : f.buf = g.buf

section

variable {S : R → R' → Prop} {T : B → B' → Prop} {p : Peekable R B} {q : Peekable R' B'}
  (hS : PollSim S) (hT : BufferSim T)
include hS hT

theorem readTail_alike [BoundedAsyncRead R] : TailSim S T (readTail (R := R)) (readTail (R := R')) := by
  intro p q lo hi h
  unfold readTail
  rw [← h.peeked hT]
  by_cases hrange : lo ≤ hi ∧ hi ≤ p.peeked.length
  · obtain ⟨hlo, hhi⟩ := hrange
    simp only [slice_eq p.peeked hlo hhi, Exec.ok_bind]
    obtain ⟨hpoll, hspare, hreader⟩ := hS _ _ (.new ((p.peeked.take hi).drop lo)) h.reader
    have hlen := BoundedAsyncRead.pollRead_length p.reader (.new ((p.peeked.take hi).drop lo))
    rw [ReadBuf.buf_new] at hlen
    rw [← hpoll, ← hspare]
    refine ⟨rfl, hreader, hT.setSlice h.buffer ?_, h.bufCap⟩
    change _ = p.peeked.length
    grind
  · simp only [slice, if_neg hrange]
    exact rfl

variable [LawfulBuffer B] [LawfulBuffer B']

theorem pollRead_alike (h : Alike S T p q) (rb : ReadBuf) :
    Exec.Rel (Agree (Agree (Alike S T))) (pollRead p rb) (pollRead q rb) := by
  unfold pollRead
  rw [← h.peeked hT, ← h.len_eq hT]
  by_cases hpos : len p.buffer > 0
  · simp only [if_pos hpos]
    by_cases hlt : rb.remaining < len p.buffer
    · simp only [if_pos hlt]
      refine .same _ fun src => .same _ fun rb' => ?_
      rw [p.len_buffer] at hlt
      refine (h.consume_front hT (Nat.le_of_lt hlt)).bind ?_
      intro b b' hb
      exact ⟨rfl, rfl, hb⟩
    · simp only [if_neg hlt]
      by_cases heq : rb.remaining = len p.buffer
      · simp only [if_pos heq]
        exact .same _ fun rb' => ⟨rfl, rfl, h.clear hT⟩
      · simp only [if_neg heq]
        refine .same _ fun rb' => ?_
        obtain ⟨hpoll, hrb, hreader⟩ := hS _ _ rb' h.reader
        rw [← hpoll, ← hrb]
        have h₁ := (h.clear hT).with_reader hreader
        cases (AsyncRead.pollRead p.reader rb').1 using Poll.casesResult with
        | ok n => exact ⟨rfl, rfl, h₁⟩
        | error e => exact ⟨rfl, rfl, h₁⟩
        | pending => exact ⟨rfl, rfl, h₁⟩
  · simp only [if_neg hpos]
    obtain ⟨hpoll, hrb, hreader⟩ := hS _ _ rb h.reader
    exact ⟨hpoll, hrb, h.with_reader hreader⟩

variable [BoundedAsyncRead R]

theorem pollPeek_alike (fuel : Nat) (h : Alike S T p q) (rb : ReadBuf) :
    Exec.Rel (Agree (Agree (Alike S T))) (pollPeek fuel p rb) (pollPeek fuel q rb) := by
  have htail := readTail_alike hS hT
  unfold pollPeek
  rw [← h.peeked hT, ← h.len_eq hT]
  by_cases hzero : rb.remaining = 0
  · simp only [if_pos hzero]
    exact ⟨rfl, rfl, h⟩
  · simp only [if_neg hzero]
    by_cases hge : len p.buffer ≥ rb.remaining
    · simp only [if_pos hge]
      exact .same _ fun src => .same _ fun rb' => ⟨rfl, rfl, h⟩
    · simp only [if_neg hge]
      rcases hres : resize p.buffer (len p.buffer + (rb.remaining - len p.buffer)) with
          ⟨_ | _, buffer⟩ <;>
        obtain ⟨buffer', hres', hbuffer⟩ := hT.resized h.buffer hres <;>
        simp only [hres']
      · exact ⟨rfl, rfl, h.with_buffer hbuffer⟩
      · refine (pollRetry_alike htail hT fuel (h.with_buffer hbuffer) _).bind_agree ?_
        intro poll p₁ q₁ h₁
        have h₂ := h₁.truncate hT (len p.buffer)
        cases poll using Poll.casesResult with
        | ok n =>
          have h₃ := h₁.truncate hT (len p.buffer + n)
          simp only [h₃.peeked hT]
          exact .same _ fun src => .same _ fun rb' => ⟨rfl, rfl, h₃⟩
        | error e =>
          by_cases he : e.kind = .wouldBlock
          · simp only [if_pos he]
            by_cases hpos : len p.buffer > 0
            · simp only [if_pos hpos, h₂.peeked hT]
              exact .same _ fun rb' => ⟨rfl, rfl, h₂⟩
            · simp only [if_neg hpos]
              exact ⟨rfl, rfl, h₂⟩
          · simp only [if_neg he]
            exact ⟨rfl, rfl, h₂⟩
        | pending =>
          by_cases hpos : len p.buffer > 0
          · simp only [if_pos hpos, h₂.peeked hT]
            exact .same _ fun rb' => ⟨rfl, rfl, h₂⟩
          · simp only [if_neg hpos]
            exact ⟨rfl, rfl, h₂⟩

theorem PeekBuf.poll_sim [BufMut W] (fuel : Nat) {f : PeekBuf R W B} {g : PeekBuf R' W B'}
    (h : f.Sim S T g) : Exec.Rel (Agree (PeekBuf.Sim S T)) (f.poll fuel) (g.poll fuel) := by
  obtain ⟨p, sink⟩ := f
  obtain ⟨q, _⟩ := g
  obtain ⟨h, rfl⟩ := h
  unfold PeekBuf.poll
  by_cases hroom : BufMut.hasRemainingMut sink = true
  · simp only [hroom, not_true_eq_false, if_false]
    refine (pollPeek_alike hS hT fuel h _).bind_agree₂ ?_
    intro poll rb p₁ q₁ h₁
    cases poll using Poll.casesResult with
    | ok u => exact .same _ fun sink' => ⟨rfl, h₁, rfl⟩
    | error e => exact ⟨rfl, h₁, rfl⟩
    | pending => exact ⟨rfl, h₁, rfl⟩
  · simp only [hroom, Bool.false_eq_true, not_false_eq_true, if_true]
    exact ⟨rfl, h, rfl⟩

end

/-! ## Sessions -/

namespace Session

variable [BufMut W]

/-- The session's answer to an input, with all it gives back; of a `ReadBuf`, its filled part
and the whole of it. An input that the borrow of the reader forbids changes nothing. -/
def call (fuel : Nat) (i : Input W) (s : Session R W B) :
    Exec (Answer (Poll (Except IoError Nat)) × Session R W B) :=
  match s, i with
  | idle p, .pollRead rb => do
    let (poll, rb, p) ← pollRead p rb
    return (.gave (poll.mapOk fun () => rb.filled) [rb.filledBytes, rb.buf], idle p)
  | idle p, .pollPeek rb => do
    let (poll, rb, p) ← pollPeek fuel p rb
    return (.gave (poll.mapOk fun () => rb.filled) [rb.filledBytes, rb.buf], idle p)
  | idle p, .consume =>
    let (buffer, p) := p.consume
    .ok (.handed (asSlice buffer), idle p)
  | idle p, .consumeInPlace => .ok (.done, idle p.consumeInPlace)
  | idle p, .peek buf => .ok (.done, peek ⟨p, buf⟩)
  | idle p, .peekBuf buf => .ok (.done, peekBuf ⟨p, buf⟩)
  | idle p, .peekExact buf => .ok (.done, peekExact (.new p buf))
  | idle p, .peekToEnd buf => .ok (.done, peekToEnd buf (.new p buf))
  | idle p, .peekToString buf => .ok (.done, peekToString buf (.new p buf))
  | idle p, .fillPeekBuf => .ok (.done, fillPeekBuf (.new p))
  | peek f, .poll => do
    let (poll, f) ← Peek.poll fuel f
    return (.gave poll [f.buf], after poll (peek f))
  | peekBuf f, .poll => do
    let (poll, f) ← PeekBuf.poll fuel f
    return (.gave poll [BufMut.written f.buf], after poll (peekBuf f))
  | peekExact f, .poll => do
    let (poll, f) ← PeekExact.poll fuel f
    return (.gave poll [f.buf], after poll (peekExact f))
  | peekToEnd dst f, .poll => do
    let (poll, f) ← PeekToEnd.poll fuel f
    return (.gave poll [f.buf], after poll (peekToEnd dst f))
  | peekToString dst f, .poll => do
    let (poll, f) ← PeekToString.poll fuel f
    return (.gave poll [f.buf.bytes], after poll (peekToString dst f))
  | fillPeekBuf f, .poll => do
    let (poll, f) ← FillPeekBuf.poll f
    return (.gave poll [], after poll (fillPeekBuf f))
  | idle p, _ => .ok (.done, idle p)
  | busy, .drop => .ok (.done, idle busy.held)
  | busy, _ => .ok (.done, busy)

/-- Sessions at the same point, over peekable readers that are alike. -/
inductive Alike (S : R → R' → Prop) (T : B → B' → Prop) : Session R W B → Session R' W B' → Prop
  | idle {p : Peekable R B} {q : Peekable R' B'} (h : PeekableReader.Alike S T p q) :
    Alike S T (idle p) (idle q)
  | peek {p : Peekable R B} {q : Peekable R' B'} (h : PeekableReader.Alike S T p q)
    (buf : List UInt8) : Alike S T (peek ⟨p, buf⟩) (peek ⟨q, buf⟩)
  | peekBuf {f : PeekBuf R W B} {g : PeekBuf R' W B'} (h : f.Sim S T g) :
    Alike S T (peekBuf f) (peekBuf g)
  | peekExact {f : PeekExact R B} {g : PeekExact R' B'} (h : f.Sim S T g) :
    Alike S T (peekExact f) (peekExact g)
  | peekToEnd (dst : List UInt8) {f : PeekToEnd R B} {g : PeekToEnd R' B'} (h : f.Sim S T g) :
    Alike S T (peekToEnd dst f) (peekToEnd dst g)
  | peekToString (dst : Str) {f : PeekToString R B} {g : PeekToString R' B'} (h : f.Sim S T g) :
    Alike S T (peekToString dst f) (peekToString dst g)
  | fillPeekBuf {f : FillPeekBuf R B} {g : FillPeekBuf R' B'} (h : f.Sim S T g) :
    Alike S T (fillPeekBuf f) (fillPeekBuf g)

variable {S : R → R' → Prop} {T : B → B' → Prop} {s : Session R W B} {s' : Session R' W B'}

omit [AsyncRead R] [AsyncRead R'] [Buffer B] [Buffer B'] [BufMut W] in
theorem Alike.held (h : Alike S T s s') : PeekableReader.Alike S T s.held s'.held := by
  cases h with
  | idle h => exact h
  | peek h _ => exact h
  | peekBuf h => exact h.peeker
  | peekExact h => exact h.peekable
  | peekToEnd _ h => exact h.peekable
  | peekToString _ h => exact h.peekable
  | fillPeekBuf h => exact h.peeker

omit [AsyncRead R] [AsyncRead R'] [Buffer B] [Buffer B'] [BufMut W] in
theorem Alike.after {α : Type} (poll : Poll α) (h : Alike S T s s') :
    Alike S T (Session.after poll s) (Session.after poll s') := by
  cases poll with
  | ready a => exact .idle h.held
  | pending => exact h

variable [LawfulBuffer B] [LawfulBuffer B'] [BoundedAsyncRead R]

theorem call_alike (hS : PollSim S) (hT : BufferSim T) (fuel : Nat) (i : Input W)
    (hfill : i = .fillPeekBuf → SameCapacity T) (h : Alike S T s s') :
    Exec.Rel (Agree (Alike S T)) (s.call fuel i) (s'.call fuel i) := by
  have htail := readTail_alike hS hT
  cases h with
  | idle h =>
    cases i with
    | pollRead rb =>
      exact (pollRead_alike hS hT h rb).bind_agree₂ fun _ _ _ _ h₁ => ⟨rfl, .idle h₁⟩
    | pollPeek rb =>
      exact (pollPeek_alike hS hT fuel h rb).bind_agree₂ fun _ _ _ _ h₁ => ⟨rfl, .idle h₁⟩
    | consume =>
      obtain ⟨hbytes, h₁⟩ := h.consume hT
      exact ⟨congrArg _ hbytes, .idle h₁⟩
    | consumeInPlace => exact ⟨rfl, .idle (h.consumeInPlace hT)⟩
    | peek buf => exact ⟨rfl, .peek h buf⟩
    | peekBuf buf => exact ⟨rfl, .peekBuf ⟨h, rfl⟩⟩
    | peekExact buf => exact ⟨rfl, .peekExact ⟨h, rfl, rfl⟩⟩
    | peekToEnd buf => exact ⟨rfl, .peekToEnd buf ⟨h, rfl, rfl⟩⟩
    | peekToString buf => exact ⟨rfl, .peekToString buf ⟨h, rfl, rfl⟩⟩
    | fillPeekBuf => exact ⟨rfl, .fillPeekBuf (FillPeekBuf.new_sim hT (hfill rfl) h)⟩
    | poll => exact ⟨rfl, .idle h⟩
    | drop => exact ⟨rfl, .idle h⟩
  | peek h buf =>
    cases i
    case poll =>
      simp only [call, Peek.poll, bind_assoc]
      exact (pollPeek_alike hS hT fuel h (.new buf)).bind_agree₂
        fun poll rb _ _ h₁ => ⟨rfl, .after _ (.peek h₁ rb.buf)⟩
    case drop => exact ⟨rfl, .idle h⟩
    all_goals exact ⟨rfl, .peek h buf⟩
  | peekBuf h =>
    cases i
    case poll =>
      refine (PeekBuf.poll_sim hS hT fuel h).bind_agree ?_
      intro poll f g h₁
      exact ⟨by simp [h₁.buf], .after poll (.peekBuf h₁)⟩
    case drop => exact ⟨rfl, .idle h.peeker⟩
    all_goals exact ⟨rfl, .peekBuf h⟩
  | peekExact h =>
    cases i
    case poll =>
      simp only [call, PeekExact.poll, bind_assoc]
      refine (PeekExact.pollWith_sim htail hT _ fuel h).bind_agree ?_
      intro poll f g h₁
      exact ⟨by simp [h.buf, h₁.buf], by rw [h.buf]; exact .after _ (.peekExact h₁)⟩
    case drop => exact ⟨rfl, .idle h.peekable⟩
    all_goals exact ⟨rfl, .peekExact h⟩
  | peekToEnd dst h =>
    cases i
    case poll =>
      refine (PeekToEnd.pollWith_sim htail hT fuel h).bind_agree ?_
      intro poll f g h₁
      exact ⟨by simp [h₁.buf], .after poll (.peekToEnd dst h₁)⟩
    case drop => exact ⟨rfl, .idle h.peekable⟩
    all_goals exact ⟨rfl, .peekToEnd dst h⟩
  | peekToString dst h =>
    cases i
    case poll =>
      refine (PeekToString.pollWith_sim htail hT fuel h).bind_agree ?_
      intro poll f g h₁
      exact ⟨by simp [h₁.buf], .after poll (.peekToString dst h₁)⟩
    case drop => exact ⟨rfl, .idle h.peekable⟩
    all_goals exact ⟨rfl, .peekToString dst h⟩
  | fillPeekBuf h =>
    cases i
    case poll =>
      exact (FillPeekBuf.pollWith_sim htail hT h).bind_agree
        fun poll f g h₁ => ⟨rfl, .after poll (.fillPeekBuf h₁)⟩
    case drop => exact ⟨rfl, .idle h.peeker⟩
    all_goals exact ⟨rfl, .fillPeekBuf h⟩

/-- Over any sequence of inputs the answers are the same, and so is the way it ends. -/
theorem calls_alike (hS : PollSim S) (hT : BufferSim T) (fuel : Nat) (inputs : List (Input W))
    (hfill : Input.fillPeekBuf ∈ inputs → SameCapacity T) (h : Alike S T s s') :
    Exec.Rel (Agree (Alike S T)) (runCalls (call fuel) inputs s) (runCalls (call fuel) inputs s') :=
  runCalls_rel (Alike S T) inputs
    (fun i hi _ _ h => call_alike hS hT fuel i (fun heq => hfill (heq ▸ hi)) h) h

end Session

end PeekableReader.Tokio
