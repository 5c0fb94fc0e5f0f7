import PeekableReader.Tokio.Compat

/-!
# One reader in both asynchronous flavours

With the same reader underneath, a caller cannot tell the `AsyncPeekable` of the `tokio` module
from that of the `future` module: a session with the one is a session with the other, answer by
answer, whatever the reader answers and whatever the buffer refuses. An error is known by its
kind, a `ReadBuf` by its unfilled part and a `PeekBuf` over a slice by a `Peek` into that slice.
-/

namespace PeekableReader

open Buffer Tokio

variable {R B : Type}

/-- A poll, with an error reduced to its kind. -/
def Poll.kinds {α : Type} : Poll (Except IoError α) → Poll (Except ErrorKind α)
  | .ready (.ok a) => .ready (.ok a)
  | .ready (.error e) => .ready (.error e.kind)
  | .pending => .pending

theorem Poll.kinds_mapOk {α β : Type} {f : α → β} {poll poll' : Poll (Except IoError α)}
    (h : poll.kinds = poll'.kinds) : (poll.mapOk f).kinds = (poll'.mapOk f).kinds := by
  cases poll using Poll.casesResult <;> cases poll' using Poll.casesResult <;>
    simp_all [Poll.kinds, Poll.mapOk]

/-! ## `PeekExact` with another error at the end of the stream -/

section

variable [Buffer B] {tail : TailRead R B} {eof eof' : IoError}

/-- The same poll, up to what an error of one kind wraps. -/
def SameKind (n : Nat) (out out' : Poll (Except IoError Unit) × PeekExact R B) : Prop :=
  out.1.kinds = out'.1.kinds ∧ out.2 = out'.2 ∧ out.2.buf.length = n

theorem PeekExact.loop_eof (hkind : eof.kind = eof'.kind) (fuel : Nat) (f : PeekExact R B) :
    Exec.Rel (SameKind f.buf.length) (loop tail eof fuel f) (loop tail eof' fuel f) := by
  induction fuel generalizing f with
  | zero => trivial
  | succ fuel ih =>
    unfold loop
    by_cases hlt : f.filled < f.buf.length
    · simp only [if_pos hlt]
      rcases resize f.peekable.buffer (len f.peekable.buffer + (f.buf.length - f.filled)) with
        ⟨e | _, buffer⟩
      · exact ⟨rfl, rfl, rfl⟩
      · refine .same _ ?_
        rintro ⟨poll, p⟩
        cases poll using Poll.casesResult with
        | pending => exact ⟨rfl, rfl, rfl⟩
        | error e =>
          by_cases he : e.kind = .interrupted
          · simp only [if_pos he]
            exact ih { f with peekable := p.truncate (len f.peekable.buffer) }
          · simp only [if_neg he]
            exact ⟨rfl, rfl, rfl⟩
        | ok n =>
          by_cases hn : n = 0
          · simp only [if_pos hn]
            exact ⟨by simp [Poll.kinds, hkind], rfl, rfl⟩
          · simp only [if_neg hn]
            refine .same _ fun src => ?_
            rcases hcopy : copyInto f.buf f.filled (f.filled + n) src with buf | why | _
            · rw [← length_copyInto hcopy]
              exact ih ⟨p.truncate (len f.peekable.buffer + n), buf, f.filled + n⟩
            · rfl
            · trivial
    · simp only [if_neg hlt]
      exact ⟨rfl, rfl, rfl⟩

theorem PeekExact.pollWith_eof (hkind : eof.kind = eof'.kind) (fuel : Nat) (f : PeekExact R B) :
    Exec.Rel (SameKind f.buf.length) (f.pollWith tail eof fuel) (f.pollWith tail eof' fuel) := by
  unfold pollWith
  by_cases hfilled : f.filled = 0
  · simp only [if_pos hfilled]
    refine .same _ fun src => ?_
    rcases hcopy : copyInto f.buf 0 (min f.peekable.peeked.length f.buf.length) src with buf | why | _
    · simp only [Exec.ok_bind]
      rw [← length_copyInto hcopy]
      split
      · exact ⟨rfl, rfl, rfl⟩
      · exact loop_eof hkind fuel ⟨f.peekable, buf, _⟩
    · rfl
    · trivial
  · simp only [if_neg hfilled]
    exact loop_eof hkind fuel f

end

/-! ## The futures over the adapter -/

def PeekExact.behind (f : PeekExact R B) : PeekExact (Compat R) B :=
  ⟨f.peekable.behind, f.buf, f.filled⟩

theorem PeekExact.sim_behind (f : PeekExact R B) : f.Sim Behind Eq f.behind :=
  ⟨f.peekable.alike_behind, rfl, rfl⟩

theorem PeekExact.Sim.eq_behind {f : PeekExact R B} {g : PeekExact (Compat R) B}
    (h : f.Sim Behind Eq g) : g = f.behind := by
  obtain ⟨q, _, _⟩ := g
  obtain ⟨hpeekable, hbuf, hfilled⟩ := h
  cases hpeekable.eq_behind
  cases hbuf
  cases hfilled
  rfl

def PeekToEnd.behind (f : PeekToEnd R B) : PeekToEnd (Compat R) B :=
  ⟨f.peekable.behind, f.buf, f.prefixCopied⟩

theorem PeekToEnd.sim_behind (f : PeekToEnd R B) : f.Sim Behind Eq f.behind :=
  ⟨f.peekable.alike_behind, rfl, rfl⟩

theorem PeekToEnd.Sim.eq_behind {f : PeekToEnd R B} {g : PeekToEnd (Compat R) B}
    (h : f.Sim Behind Eq g) : g = f.behind := by
  obtain ⟨q, _, _⟩ := g
  obtain ⟨hpeekable, hbuf, hcopied⟩ := h
  cases hpeekable.eq_behind
  cases hbuf
  cases hcopied
  rfl

def PeekToString.behind (f : PeekToString R B) : PeekToString (Compat R) B :=
  ⟨f.peekable.behind, f.buf, f.started⟩

theorem PeekToString.sim_behind (f : PeekToString R B) : f.Sim Behind Eq f.behind :=
  ⟨f.peekable.alike_behind, rfl, rfl⟩

theorem PeekToString.Sim.eq_behind {f : PeekToString R B} {g : PeekToString (Compat R) B}
    (h : f.Sim Behind Eq g) : g = f.behind := by
  obtain ⟨q, _, _⟩ := g
  obtain ⟨hpeekable, hbuf, hstarted⟩ := h
  cases hpeekable.eq_behind
  cases hbuf
  cases hstarted
  rfl

def FillPeekBuf.behind (f : FillPeekBuf R B) : FillPeekBuf (Compat R) B :=
  ⟨f.peeker.behind, f.original, f.cap⟩

theorem FillPeekBuf.sim_behind (f : FillPeekBuf R B) : f.Sim Behind Eq f.behind :=
  ⟨f.peeker.alike_behind, rfl, rfl⟩

theorem FillPeekBuf.Sim.eq_behind {f : FillPeekBuf R B} {g : FillPeekBuf (Compat R) B}
    (h : f.Sim Behind Eq g) : g = f.behind := by
  obtain ⟨q, _, _⟩ := g
  obtain ⟨hpeeker, horiginal, hcap⟩ := h
  cases hpeeker.eq_behind
  cases horiginal
  cases hcap
  rfl

namespace Tokio

/-- The call of the `future` module that does the same. -/
def Input.asFuture : Input SliceSink → Future.Input
  | pollRead rb => .pollRead rb.unfilled
  | pollPeek rb => .pollPeek rb.unfilled
  | consume => .consume
  | consumeInPlace => .consumeInPlace
  | peek buf => .peek buf
  | peekBuf sink => .peek sink.left
  | peekExact buf => .peekExact buf
  | peekToEnd buf => .peekToEnd buf
  | peekToString buf => .peekToString buf
  | fillPeekBuf => .fillPeekBuf
  | poll => .poll
  | drop => .drop

/-- The session of the `future` module at the same point. -/
def Session.asFuture : Session R SliceSink B → Future.Session (Compat R) B
  | idle p => .idle p.behind
  | peek f => .peek ⟨f.peekable.behind, f.buf⟩
  | peekBuf f => .peek ⟨f.peeker.behind, f.buf.left⟩
  | peekExact f => .peekExact f.behind
  | peekToEnd dst f => .peekToEnd dst f.behind
  | peekToString dst f => .peekToString dst f.behind
  | fillPeekBuf f => .fillPeekBuf f.behind

/-- What a caller is told by an answer: of a `ReadBuf` the part that was still to be filled, of
a `PeekBuf` what it wrote. -/
def Session.told (s : Session R SliceSink B) (i : Input SliceSink) :
    Answer (Poll (Except IoError Nat)) → Answer (Poll (Except ErrorKind Nat))
  | .done => .done
  | .handed bytes => .handed bytes
  | .gave poll dst =>
    match s, i with
    | idle _, .pollRead rb | idle _, .pollPeek rb =>
      .gave (poll.mapOk (· - rb.filled)).kinds (dst.tail.map (·.drop rb.filled))
    | peek _, .poll => .gave poll.kinds (dst.map (counted poll.handed))
    | peekBuf f, .poll => .gave poll.kinds (dst.map (·.drop f.buf.done.length))
    | _, _ => .gave poll.kinds dst

end Tokio

/-- What a caller is told by an answer. -/
def Future.Session.told (s : Future.Session R B) (i : Future.Input) :
    Answer (Poll (Except IoError Nat)) → Answer (Poll (Except ErrorKind Nat))
  | .done => .done
  | .handed bytes => .handed bytes
  | .gave poll dst =>
    match s, i with
    | peek _, .poll => .gave poll.kinds (dst.map (counted poll.handed))
    | _, _ => .gave poll.kinds dst

/-! ## Sessions -/

/-- An answer as it is told, and the session after it. -/
def Tokio.Session.tell [Tokio.AsyncRead R] [Buffer B] (fuel : Nat) (i : Input SliceSink)
    (s : Session R SliceSink B) :
    Exec (Answer (Poll (Except ErrorKind Nat)) × Session R SliceSink B) :=
  (fun out => (s.told i out.1, out.2)) <$> s.call fuel i

/-- An answer as it is told, and the session after it. -/
def Future.Session.tell [Future.AsyncRead R] [Buffer B] (fuel : Nat) (i : Future.Input)
    (s : Future.Session R B) :
    Exec (Answer (Poll (Except ErrorKind Nat)) × Future.Session R B) :=
  (fun out => (s.told i out.1, out.2)) <$> s.call fuel i

/-- The session of the `tokio` module, and the same in the `future` module. -/
def Twin (s : Tokio.Session R SliceSink B) (t : Future.Session (Compat R) B) : Prop := t = s.asFuture

/-- Answers that tell the same, and twin sessions after them. -/
def Told (s : Tokio.Session R SliceSink B) (i : Input SliceSink)
    (out : Answer (Poll (Except IoError Nat)) × Tokio.Session R SliceSink B)
    (out' : Answer (Poll (Except IoError Nat)) × Future.Session (Compat R) B) : Prop :=
  s.told i out.1 = s.asFuture.told i.asFuture out'.1 ∧ Twin out.2 out'.2

theorem Alike.twin {p : Peekable R B} {q : Peekable (Compat R) B} (h : Alike Behind Eq p q) :
    Twin (.idle p) (.idle q) := by
  rw [h.eq_behind]
  rfl

theorem Twin.after {α β : Type} {poll : Poll α} {poll' : Poll β}
    (hpoll : poll = .pending ↔ poll' = .pending) {s : Tokio.Session R SliceSink B}
    {t : Future.Session (Compat R) B} (h : Twin s t) : Twin (s.after poll) (t.after poll') := by
  cases h
  cases poll <;> cases poll'
  · cases s <;> rfl
  · simp at hpoll
  · simp at hpoll
  · rfl

/-- A fresh `ReadBuf` and its slice. -/
theorem Beside.fresh {dst buf : List UInt8} {rb : ReadBuf} {poll : Poll (Except IoError Unit)}
    {poll' : Poll (Except IoError Nat)} {p : Peekable R B} {q : Peekable (Compat R) B}
    (h : Beside (Alike Behind Eq) (.new dst) (poll, rb, p) (poll', buf, q)) :
    poll' = (poll.mapOk fun () => rb.filledBytes.length) ∧ buf = rb.buf ∧ q = p.behind := by
  obtain ⟨hpoll, hbuf, -, hsim⟩ := h
  refine ⟨?_, hbuf.symm, hsim.eq_behind⟩
  simpa [ReadBuf.new] using hpoll

theorem Beside.told {rb : ReadBuf} {out : Poll (Except IoError Unit) × ReadBuf × Peekable R B}
    {out' : Poll (Except IoError Nat) × List UInt8 × Peekable (Compat R) B}
    (h : Beside (Alike Behind Eq) rb out out') :
    ((out.1.mapOk fun () => out.2.1.filled).mapOk (· - rb.filled)).kinds = out'.1.kinds ∧
      out.2.1.buf.drop rb.filled = out'.2.1 := by
  refine ⟨?_, ?_⟩
  · rw [h.poll]
    cases out.1 using Poll.casesResult <;> rfl
  · rw [h.buf]
    exact List.drop_left' (by simp [rb.filled_le])

section

variable [Tokio.AsyncRead R] [Tokio.BoundedAsyncRead R] [Buffer B] [LawfulBuffer B]

theorem Tokio.Peek.poll_behind (fuel : Nat) (f : Peek R B) :
    Exec.Rel (fun out out' => out' = (out.1, ⟨out.2.peekable.behind, out.2.buf⟩)) (f.poll fuel)
      (Future.Peek.poll fuel ⟨f.peekable.behind, f.buf⟩) := by
  refine (pollPeek_behind fuel f.peekable (.new f.buf)).bind ?_
  rintro ⟨poll, rb, p⟩ ⟨poll', buf, q⟩ h
  obtain ⟨rfl, rfl, rfl⟩ := h.fresh
  rfl

/-- A `PeekBuf` over a slice, and a `Peek` into what is left of it. -/
theorem Tokio.PeekBuf.poll_behind (fuel : Nat) (f : PeekBuf R SliceSink B) :
    Exec.Rel (fun out out' => out'.1 = out.1 ∧ out'.2.peekable = out.2.peeker.behind ∧
        out.2.buf.done.drop f.buf.done.length = counted out'.1.handed out'.2.buf ∧
        (out.1 = .pending → out'.2.buf = out.2.buf.left))
      (f.poll fuel) (Future.Peek.poll fuel ⟨f.peeker.behind, f.buf.left⟩) := by
  obtain ⟨p, done, left⟩ := f
  have hpeek := pollPeek_behind fuel p (.new left)
  unfold PeekBuf.poll
  by_cases hroom : BufMut.hasRemainingMut (SliceSink.mk done left) = true
  · simp only [hroom, not_true_eq_false, if_false]
    refine hpeek.bind ?_
    rintro ⟨poll, rb, p₁⟩ ⟨poll', buf, q₁⟩ h
    obtain ⟨rfl, rfl, rfl⟩ := h.fresh
    cases poll using Poll.casesResult with
    | ok u =>
      have hfit : rb.filledBytes.length ≤ rb.buf.length := by simp [rb.filled_le]
      simp only [BufMut.advanceMut, BufMut.setChunk, if_pos hfit]
      exact ⟨rfl, rfl, List.drop_left, by rintro ⟨⟩⟩
    | error e => exact ⟨rfl, rfl, List.drop_length, by rintro ⟨⟩⟩
    | pending => exact ⟨rfl, rfl, List.drop_length, fun _ => rfl⟩
  · obtain rfl : left = [] := by simpa [BufMut.hasRemainingMut] using hroom
    simp only [hroom, Bool.false_eq_true, not_false_eq_true, if_true]
    obtain ⟨⟨poll, buf, q⟩, hfuture, h⟩ := hpeek.ok_left (a := (.ready (.ok ()), .new [], p)) rfl
    obtain ⟨rfl, rfl, rfl⟩ := h.fresh
    change Future.pollPeek fuel p.behind [] = _ at hfuture
    simp only [Future.Peek.poll, hfuture]
    exact ⟨rfl, rfl, List.drop_length, by rintro ⟨⟩⟩

omit [Tokio.BoundedAsyncRead R] in
/-- The future of `tokio` also returns the length of the destination. -/
theorem Tokio.PeekExact.poll_behind (fuel : Nat) (f : PeekExact R B) :
    Exec.Rel (fun out out' => out.1.kinds = (out'.1.mapOk fun () => out'.2.buf.length).kinds ∧
        out'.2 = out.2.behind)
      (Tokio.PeekExact.poll fuel f) (Future.PeekExact.poll fuel f.behind) := by
  have hkind : eof.kind = (IoError.ofKind .unexpectedEof).kind := rfl
  have hpoll := (PeekExact.pollWith_sim readTail_behind .eq eof fuel f.sim_behind).trans
    (PeekExact.pollWith_eof hkind fuel f.behind)
  rw [← bind_pure (Future.PeekExact.poll fuel f.behind)]
  unfold Tokio.PeekExact.poll Future.PeekExact.poll
  dsimp only
  refine hpoll.bind ?_
  rintro ⟨poll, f₁⟩ ⟨poll', _⟩ ⟨⟨_, _⟩, ⟨rfl, hsim⟩, hkinds, rfl, hlen⟩
  cases hsim.eq_behind
  refine ⟨?_, rfl⟩
  change (poll.mapOk fun () => f.buf.length).kinds = (poll'.mapOk fun () => f₁.buf.length).kinds
  rw [show f₁.buf.length = f.buf.length from hlen]
  exact Poll.kinds_mapOk hkinds

theorem Tokio.Session.call_asFuture (fuel : Nat) (i : Input SliceSink)
    (hread : ∀ rb, i = .pollRead rb → UniformRead R) (s : Session R SliceSink B) :
    Exec.Rel (Told s i) (s.call fuel i) (s.asFuture.call fuel i.asFuture) := by
  have htail := readTail_behind (R := R) (B := B)
  cases s with
  | idle p =>
    have hp := p.alike_behind
    cases i with
    | pollRead rb =>
      have := hread rb rfl
      refine (pollRead_behind p rb).bind ?_
      rintro ⟨poll, rb', p₁⟩ ⟨poll', buf, q₁⟩ h
      obtain ⟨hpoll, hbuf⟩ := h.told
      refine ⟨?_, h.sim.twin⟩
      simp only [told, Future.Session.told, asFuture, Input.asFuture]
      simp [hpoll, hbuf]
    | pollPeek rb =>
      refine (pollPeek_behind fuel p rb).bind ?_
      rintro ⟨poll, rb', p₁⟩ ⟨poll', buf, q₁⟩ h
      obtain ⟨hpoll, hbuf⟩ := h.told
      refine ⟨?_, h.sim.twin⟩
      simp only [told, Future.Session.told, asFuture, Input.asFuture]
      simp [hpoll, hbuf]
    | consume =>
      obtain ⟨hbytes, h₁⟩ := hp.consume .eq
      exact ⟨congrArg Answer.handed hbytes, h₁.twin⟩
    | consumeInPlace => exact ⟨rfl, (hp.consumeInPlace .eq).twin⟩
    | peek buf => exact ⟨rfl, rfl⟩
    | peekBuf buf => exact ⟨rfl, rfl⟩
    | peekExact buf => exact ⟨rfl, rfl⟩
    | peekToEnd buf => exact ⟨rfl, rfl⟩
    | peekToString buf => exact ⟨rfl, rfl⟩
    | fillPeekBuf => exact ⟨rfl, rfl⟩
    | poll => exact ⟨rfl, rfl⟩
    | drop => exact ⟨rfl, rfl⟩
  | peek f =>
    cases i
    case poll =>
      refine (Peek.poll_behind fuel f).bind ?_
      rintro ⟨poll, f₁⟩ _ rfl
      exact ⟨rfl, .after .rfl rfl⟩
    all_goals exact ⟨rfl, rfl⟩
  | peekBuf f =>
    cases i
    case poll =>
      refine (PeekBuf.poll_behind fuel f).bind ?_
      rintro ⟨poll, f₁⟩ ⟨poll', g₁⟩ ⟨hpoll, hreader, hwritten, hleft⟩
      obtain rfl : poll' = poll := hpoll
      refine ⟨?_, ?_⟩
      · exact congrArg (fun bytes => Answer.gave poll'.kinds [bytes]) hwritten
      · obtain ⟨p₁, done, left⟩ := f₁
        obtain ⟨q, buf⟩ := g₁
        obtain rfl : q = p₁.behind := hreader
        cases poll' with
        | ready a => rfl
        | pending =>
          obtain rfl : buf = left := hleft rfl
          rfl
    all_goals exact ⟨rfl, rfl⟩
  | peekExact f =>
    cases i
    case poll =>
      refine (PeekExact.poll_behind fuel f).bind ?_
      rintro ⟨poll, f₁⟩ ⟨poll', _⟩ ⟨hpoll, hf⟩
      cases hf
      refine ⟨congrArg (Answer.gave · [f₁.buf]) hpoll, .after ?_ rfl⟩
      cases poll using Poll.casesResult <;> cases poll' using Poll.casesResult <;>
        simp_all [Poll.kinds, Poll.mapOk]
    all_goals exact ⟨rfl, rfl⟩
  | peekToEnd dst f =>
    cases i
    case poll =>
      refine (PeekToEnd.pollWith_sim htail .eq fuel f.sim_behind).bind_agree ?_
      intro poll f₁ g₁ h
      cases h.eq_behind
      exact ⟨rfl, .after .rfl rfl⟩
    all_goals exact ⟨rfl, rfl⟩
  | peekToString dst f =>
    cases i
    case poll =>
      refine (PeekToString.pollWith_sim htail .eq fuel f.sim_behind).bind_agree ?_
      intro poll f₁ g₁ h
      cases h.eq_behind
      exact ⟨rfl, .after .rfl rfl⟩
    all_goals exact ⟨rfl, rfl⟩
  | fillPeekBuf f =>
    cases i
    case poll =>
      refine (FillPeekBuf.pollWith_sim htail .eq f.sim_behind).bind_agree ?_
      intro poll f₁ g₁ h
      cases h.eq_behind
      exact ⟨rfl, .after .rfl rfl⟩
    all_goals exact ⟨rfl, rfl⟩

theorem Tokio.Session.tell_asFuture (fuel : Nat) (i : Input SliceSink)
    (hread : ∀ rb, i = .pollRead rb → UniformRead R) {s : Session R SliceSink B}
    {t : Future.Session (Compat R) B} (h : Twin s t) :
    Exec.Rel (Agree Twin) (s.tell fuel i) (t.tell fuel i.asFuture) := by
  cases h
  exact (s.call_asFuture fuel i hread).map fun _ _ hout => hout

end

/-! ## Scripted readers -/

theorem PollScript.pollRead_unready {s : PollScript} {rb : ReadBuf}
    (h : (Tokio.AsyncRead.pollRead s rb).1 ≠ .ready (.ok ())) :
    (Tokio.AsyncRead.pollRead s rb).2.1 = rb := by
  simp only [Tokio.AsyncRead.pollRead] at h ⊢
  split <;> simp_all

instance : UniformRead PollScript where
  pollRead_extend s rb := by
    have hroom : (ReadBuf.new rb.unfilled).remaining = rb.remaining := rb.length_unfilled
    simp only [Tokio.AsyncRead.pollRead, hroom]
    split
    · next d es h =>
      have hfit : d.length ≤ rb.remaining := ((PollScript.hands_next h).1 d rfl).1
      simp only [dif_pos hfit, rb.extend_append hfit (hroom ▸ hfit)]
    · rw [rb.extend_new]
    · rw [rb.extend_new]
  unready_filled s buf h := by
    rw [PollScript.pollRead_unready h]
    rfl

/-! ## Any inputs -/

/-- Whatever the inputs, a session of the `tokio` module tells its caller the same as the session
of the `future` module with the same inputs over the same reader, at every poll, and leaves its
reader, its peek buffer and its future in the same state. -/
theorem flavours_indistinguishable (R B : Type) [Tokio.AsyncRead R] [Tokio.BoundedAsyncRead R]
    [Buffer B] [LawfulBuffer B] (fuel : Nat) (inputs : List (Input SliceSink))
    (hread : ∀ rb, Input.pollRead rb ∈ inputs → UniformRead R) (s : Tokio.Session R SliceSink B) :
    Exec.Rel (Agree Twin) (runCalls (Tokio.Session.tell fuel) inputs s)
      (runCalls (Future.Session.tell fuel) (inputs.map Input.asFuture) s.asFuture) := by
  rw [runCalls_map]
  refine runCalls_rel Twin inputs (fun i hi s t h => ?_) rfl
  exact Tokio.Session.tell_asFuture fuel i (fun rb heq => hread rb (heq ▸ hi)) h

/-- A peek past a pending poll, a read in front of the rest, and a `PeekBuf` at the end. -/
theorem flavours_indistinguishable_script :
    Exec.Rel (Agree Twin)
      (runCalls (Tokio.Session.tell 5)
        [.peek [0, 0, 0], .poll, .poll, .pollRead (.new [0, 0, 0]), .peekBuf ⟨[9], [0, 0]⟩, .poll]
        (.idle (Peekable.withBuffer (B := VecBuffer)
          (PollScript.mk [.pending, .ready (.data [1, 2]), .ready (.data [3, 4])]))))
      (runCalls (Future.Session.tell 5)
        [.peek [0, 0, 0], .poll, .poll, .pollRead [0, 0, 0], .peek [0, 0], .poll]
        (.idle (Peekable.withBuffer (B := VecBuffer)
          (Compat.mk (PollScript.mk [.pending, .ready (.data [1, 2]), .ready (.data [3, 4])]))))) :=
  flavours_indistinguishable PollScript VecBuffer 5
    [.peek [0, 0, 0], .poll, .poll, .pollRead (.new [0, 0, 0]), .peekBuf ⟨[9], [0, 0]⟩, .poll]
    (fun _ _ => inferInstance) (.idle (.withBuffer _))

end PeekableReader
