import PeekableReader.Async.Supply
import PeekableReader.Tokio.Session

/-!
# The polls of the `tokio` module end
-/

namespace PeekableReader.Tokio

open Buffer

theorem ReadBuf.putSlice_halts (rb : ReadBuf) (src : List UInt8) :
    (rb.putSlice src).Halts fun _ => True := by
  unfold putSlice
  split <;> trivial

variable {R W B : Type} [AsyncRead R] [BufMut W] [Buffer B] {stalls : Prop}

theorem readTail_uses (S : Supply R stalls) : TailUses S.left stalls (readTail : TailRead R B) := by
  intro p lo hi
  refine .skip (slice_halts _ _ _) fun spare => ?_
  rcases hread : AsyncRead.pollRead p.reader (.new spare) with ⟨poll, tail, reader⟩
  refine ⟨S.left_le hread, fun huses => S.left_lt hread ?_⟩
  rw [ReadBuf.length_filledBytes] at huses
  exact huses

variable (S : Supply R stalls)

theorem pollRead_halts [LawfulBuffer B] (p : Peekable R B) (rb : ReadBuf) :
    (pollRead p rb).Halts fun out => S.left out.2.2.reader ≤ S.left p.reader := by
  unfold pollRead
  rw [p.len_buffer]
  by_cases hpos : p.peeked.length > 0
  · simp only [if_pos hpos]
    by_cases hlt : rb.remaining < p.peeked.length
    · obtain ⟨b, hb, -⟩ := LawfulBuffer.consume_ok p.buffer (Nat.le_of_lt hlt)
      simp only [if_pos hlt, hb]
      exact .skip (slice_halts _ _ _) fun src => .skip (rb.putSlice_halts src) fun rb => Nat.le_refl _
    · simp only [if_neg hlt]
      by_cases heq : rb.remaining = p.peeked.length
      · simp only [if_pos heq]
        exact .skip (rb.putSlice_halts _) fun rb => Nat.le_refl _
      · simp only [if_neg heq]
        refine .skip (rb.putSlice_halts _) fun rb => ?_
        rcases hread : AsyncRead.pollRead p.reader rb with ⟨poll, rb', reader⟩
        have hle := S.left_le hread
        cases poll using Poll.casesResult with
        | ok u => exact hle
        | error e => exact hle
        | pending => exact hle
  · simp only [if_neg hpos]
    rcases hread : AsyncRead.pollRead p.reader rb with ⟨poll, rb', reader⟩
    exact S.left_le hread

theorem pollPeek_halts {fuel : Nat} {p : Peekable R B} (hfuel : S.left p.reader < fuel)
    (rb : ReadBuf) :
    (pollPeek fuel p rb).Halts fun out => Spent S.left stalls out.1 p.reader out.2.2.reader := by
  have htail := readTail_uses (B := B) S
  unfold pollPeek
  by_cases hzero : rb.remaining = 0
  · simp only [if_pos hzero]
    exact .refl _ _
  · simp only [if_neg hzero]
    by_cases hge : len p.buffer ≥ rb.remaining
    · simp only [if_pos hge]
      exact .skip (slice_halts _ _ _) fun src => .skip (rb.putSlice_halts src) fun rb => .refl _ _
    · simp only [if_neg hge]
      rcases resize p.buffer (len p.buffer + (rb.remaining - len p.buffer)) with ⟨e | _, buffer⟩
      · exact .refl _ _
      · refine (pollRetry_halts htail (p := { p with buffer }) _ hfuel).bind ?_
        rintro ⟨poll, p₁⟩ hused
        cases poll using Poll.casesResult with
        | ok n =>
          exact .skip (slice_halts _ _ _) fun src => .skip (rb.putSlice_halts src) fun rb =>
            .of_ready _ hused.1
        | error e =>
          by_cases he : e.kind = .wouldBlock
          · simp only [if_pos he]
            by_cases hpos : len p.buffer > 0
            · simp only [if_pos hpos]
              exact .skip (rb.putSlice_halts _) fun rb => .of_ready _ hused.1
            · simp only [if_neg hpos]
              exact ⟨hused.1, fun hstalls _ => hused.2 (.inr ⟨hstalls, he⟩)⟩
          · simp only [if_neg he]
            exact .of_ready _ hused.1
        | pending =>
          by_cases hpos : len p.buffer > 0
          · simp only [if_pos hpos]
            exact .skip (rb.putSlice_halts _) fun rb => .of_ready _ hused.1
          · simp only [if_neg hpos]
            exact hused.spent

theorem Peek.poll_halts {fuel : Nat} {f : Peek R B} (hfuel : S.left f.peekable.reader < fuel) :
    (f.poll fuel).Halts fun out =>
      Spent S.left stalls out.1 f.peekable.reader out.2.peekable.reader :=
  (pollPeek_halts S hfuel (.new f.buf)).bind fun _ h => h.mapOk _

/-- `advance_mut` is called with no more than the chunk has room for. -/
theorem PeekBuf.poll_halts [BoundedAsyncRead R] [LawfulBuffer B] [LawfulBufMut W] {fuel : Nat}
    {f : PeekBuf R W B} (hfuel : S.left f.peeker.reader < fuel) :
    (f.poll fuel).Halts fun out => Spent S.left stalls out.1 f.peeker.reader out.2.peeker.reader := by
  let _ := Ledger.any R UInt8
  have := BoundedAsyncRead.lawful R
  unfold PeekBuf.poll
  split
  · exact .refl _ _
  · have hends := (pollPeek_halts S hfuel (.new (BufMut.chunkMut f.buf))).ends
      (pollPeek_sat fuel f.peeker (.new (BufMut.chunkMut f.buf)))
    refine hends.halts.bind ?_
    rintro ⟨poll, rb, p⟩ ⟨hspent, hputs⟩
    cases poll using Poll.casesResult with
    | pending => exact ⟨hspent.1, fun hstalls _ => hspent.2 hstalls rfl⟩
    | error e => exact .of_ready _ hspent.1
    | ok u =>
      have hchunk := LawfulBufMut.chunkMut_setChunk f.buf (hputs.length.trans (by simp))
      have hfit : rb.filledBytes.length ≤ (BufMut.chunkMut (BufMut.setChunk f.buf rb.buf)).length := by
        rw [hchunk, rb.length_filledBytes]
        exact rb.filled_le
      obtain ⟨sink, hadvance, -⟩ := LawfulBufMut.advanceMut_ok _ hfit
      simp only [hadvance]
      exact .of_ready _ hspent.1

/-! ## Sessions -/

namespace Session

/-- What is left after a step, which has used some of it if it was a poll that was not the last. -/
def Spends (i : Input W) (s s' : Session R W B) : Prop :=
  S.left s'.held.reader ≤ S.left s.held.reader ∧
    (stalls → i = .poll → (∃ p, s' = .idle p) ∨ S.left s'.held.reader < S.left s.held.reader)

variable {S}

omit [BufMut W] [Buffer B] in
theorem spends_idle {i : Input W} {s : Session R W B} {p : Peekable R B}
    (h : S.left p.reader ≤ S.left s.held.reader) : Spends S i s (.idle p) :=
  ⟨h, fun _ _ => .inl ⟨p, rfl⟩⟩

omit [BufMut W] [Buffer B] in
/-- The start of a future. -/
theorem spends_start {i : Input W} {s s' : Session R W B} (h : s'.held = s.held) (hi : i ≠ .poll) :
    Spends S i s s' := ⟨by rw [h], fun _ heq => absurd heq hi⟩

omit [BufMut W] [Buffer B] in
theorem spends_after {α : Type} {i : Input W} {s busy : Session R W B} {poll : Poll α}
    (h : Spent S.left stalls poll s.held.reader busy.held.reader) : Spends S i s (after poll busy) := by
  refine ⟨by rw [held_after]; exact h.1, fun hstalls _ => ?_⟩
  cases poll with
  | ready result => exact .inl ⟨_, rfl⟩
  | pending => exact .inr (h.2 hstalls rfl)

theorem react_halts [BoundedAsyncRead R] [LawfulBuffer B] [LawfulBufMut W] {fuel : Nat}
    {s : Session R W B} (hfuel : S.left s.held.reader < fuel) {i : Input W}
    {x : Exec (Seen × Session R W B)} (hx : s.react fuel i = some x) :
    x.Halts fun out => Spends S i s out.2 := by
  cases s with
  | idle p =>
    cases i <;> cases hx
    case pollRead.refl rb => exact (pollRead_halts S p rb).bind fun out hle => spends_idle hle
    case pollPeek.refl rb => exact (pollPeek_halts S hfuel rb).bind fun out h => spends_idle h.1
    case consume.refl => exact spends_idle (Nat.le_refl _)
    case consumeInPlace.refl => exact spends_idle (Nat.le_refl _)
    all_goals exact spends_start rfl (by rintro ⟨⟩)
  | peek f =>
    cases i <;> cases hx
    case poll.refl => exact (Peek.poll_halts S hfuel).bind fun out h => spends_after h
    case drop.refl => exact spends_idle (Nat.le_refl _)
  | peekBuf f =>
    cases i <;> cases hx
    case poll.refl => exact (PeekBuf.poll_halts S hfuel).bind fun out h => spends_after h
    case drop.refl => exact spends_idle (Nat.le_refl _)
  | peekExact f =>
    cases i <;> cases hx
    case poll.refl =>
      refine Exec.Halts.bind (P := fun out => Spent S.left stalls out.1 f.peekable.reader
        out.2.peekable.reader) ?_ fun out h => spends_after h
      exact (f.pollWith_halts (readTail_uses S) _ hfuel).bind fun out h => h.mapOk _
    case drop.refl => exact spends_idle (Nat.le_refl _)
  | peekToEnd dst f =>
    cases i <;> cases hx
    case poll.refl =>
      exact (f.pollWith_halts (readTail_uses S) hfuel).bind fun out h => spends_after h
    case drop.refl => exact spends_idle (Nat.le_refl _)
  | peekToString dst f =>
    cases i <;> cases hx
    case poll.refl =>
      exact (f.pollWith_halts (readTail_uses S) hfuel).bind fun out h => spends_after h
    case drop.refl => exact spends_idle (Nat.le_refl _)
  | fillPeekBuf f =>
    cases i <;> cases hx
    case poll.refl =>
      exact (f.pollWith_halts (readTail_uses S)).bind fun out h => spends_after h
    case drop.refl => exact spends_idle (Nat.le_refl _)

end Session

end PeekableReader.Tokio
