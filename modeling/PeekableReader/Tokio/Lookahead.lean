import PeekableReader.Tokio.Session

/-!
# How far ahead a poll of the `tokio` module looks
-/

namespace PeekableReader.Tokio

open Buffer

variable {R W B : Type} [AsyncRead R] [BufMut W] [Buffer B] [LawfulBuffer B]

theorem pollRead_shrinks (p : Peekable R B) (rb : ReadBuf) :
    (pollRead p rb).Post fun out => out.2.2.peeked.length ≤ p.peeked.length := by
  unfold pollRead
  rw [p.len_buffer]
  by_cases hpos : p.peeked.length > 0
  · simp only [if_pos hpos]
    by_cases hlt : rb.remaining < p.peeked.length
    · obtain ⟨b, hb, hdrop⟩ := LawfulBuffer.consume_ok p.buffer (Nat.le_of_lt hlt)
      simp only [if_pos hlt, hb]
      refine .skip _ fun src => .skip _ fun rb => Exec.post_ok.mpr ?_
      rw [Peekable.peeked_mk, hdrop, List.length_drop]
      exact Nat.sub_le _ _
    · simp only [if_neg hlt]
      by_cases heq : rb.remaining = p.peeked.length
      · simp only [if_pos heq]
        exact .skip _ fun rb => Exec.post_ok.mpr (by simp)
      · simp only [if_neg heq]
        refine .skip _ fun rb => ?_
        rcases AsyncRead.pollRead p.reader rb with ⟨poll, rb', reader⟩
        cases poll using Poll.casesResult with
        | ok u => exact Exec.post_ok.mpr (by simp)
        | error e => exact Exec.post_ok.mpr (by simp)
        | pending => exact Exec.post_ok.mpr (by simp)
  · simp only [if_neg hpos]
    exact Exec.post_ok.mpr (Nat.le_refl _)

variable [Ledger R UInt8] [LawfulFreshRead R]

theorem pollPeek_ahead (fuel : Nat) (p : Peekable R B) (rb : ReadBuf) :
    (pollPeek fuel p rb).Post fun out =>
      out.2.2.peeked.length ≤ max p.peeked.length rb.remaining := by
  have hsame : p.peeked.length ≤ max p.peeked.length rb.remaining := Nat.le_max_left _ _
  unfold pollPeek
  rw [p.len_buffer]
  by_cases hzero : rb.remaining = 0
  · simp only [if_pos hzero]
    exact Exec.post_ok.mpr hsame
  · simp only [if_neg hzero]
    by_cases hge : p.peeked.length ≥ rb.remaining
    · simp only [if_pos hge]
      exact .skip _ fun src => .skip _ fun rb => Exec.post_ok.mpr hsame
    · simp only [if_neg hge]
      rcases hres : resize p.buffer (p.peeked.length + (rb.remaining - p.peeked.length)) with
        ⟨e | _, buffer⟩
      · exact Exec.post_ok.mpr ((Fetched.of_resize_error hres).length_nil.trans_le hsame)
      · have hspare := Spare.of_resize hres (by omega)
        refine (pollRetry_sat readTail_lawful fuel hspare).toPost.bind ?_
        rintro ⟨poll, p₁⟩ hread
        cases poll using Poll.casesResult with
        | ok n =>
          refine .skip _ fun src => .skip _ fun dst => Exec.post_ok.mpr ?_
          exact (ReadInto.length_le hread).trans (by omega)
        | error e =>
          have hback := (Spare.rollback hread).length_nil.trans_le hsame
          by_cases he : e.kind = .wouldBlock
          · simp only [if_pos he]
            by_cases hpos : p.peeked.length > 0
            · simp only [if_pos hpos]
              exact .skip _ fun rb => Exec.post_ok.mpr hback
            · simp only [if_neg hpos]
              exact Exec.post_ok.mpr hback
          · simp only [if_neg he]
            exact Exec.post_ok.mpr hback
        | pending =>
          have hback := (Spare.rollback hread).length_nil.trans_le hsame
          by_cases hpos : p.peeked.length > 0
          · simp only [if_pos hpos]
            exact .skip _ fun rb => Exec.post_ok.mpr hback
          · simp only [if_neg hpos]
            exact Exec.post_ok.mpr hback

theorem Peek.poll_ahead (fuel : Nat) (f : Peek R B) :
    (f.poll fuel).Post fun out =>
      out.2.peekable.peeked.length ≤ max f.peekable.peeked.length f.buf.length ∧
        out.2.buf.length = f.buf.length := by
  refine ((pollPeek_ahead fuel f.peekable (.new f.buf)).and
    (pollPeek_sat fuel f.peekable (.new f.buf)).toPost).bind ?_
  rintro ⟨poll, rb, p⟩ ⟨hle, hputs⟩
  exact Exec.post_ok.mpr ⟨hle, hputs.length⟩

/-- A sink that is still waiting for its bytes has the same room as before. -/
theorem PeekBuf.poll_ahead [LawfulBufMut W] (fuel : Nat) (f : PeekBuf R W B) :
    (f.poll fuel).Post fun out =>
      out.2.peeker.peeked.length ≤
          max f.peeker.peeked.length (BufMut.chunkMut f.buf).length ∧
        (out.1 = .pending →
          (BufMut.chunkMut out.2.buf).length = (BufMut.chunkMut f.buf).length) := by
  unfold PeekBuf.poll
  split
  · exact Exec.post_ok.mpr ⟨Nat.le_max_left _ _, by rintro ⟨⟩⟩
  · refine ((pollPeek_ahead fuel f.peeker (.new (BufMut.chunkMut f.buf))).and
      (pollPeek_sat fuel f.peeker (.new (BufMut.chunkMut f.buf))).toPost).bind ?_
    rintro ⟨poll, rb, p⟩ ⟨hle, hputs⟩
    have hchunk := LawfulBufMut.chunkMut_setChunk f.buf (hputs.length.trans (by simp))
    cases poll using Poll.casesResult with
    | pending => exact Exec.post_ok.mpr ⟨hle, fun _ => by rw [hchunk]; exact hputs.length⟩
    | error e => exact Exec.post_ok.mpr ⟨hle, by rintro ⟨⟩⟩
    | ok u => exact .skip _ fun sink => Exec.post_ok.mpr ⟨hle, by rintro ⟨⟩⟩

/-! ## Sessions -/

/-- The inputs that look at most `n` bytes ahead. -/
def Input.Within (n : Nat) : Input W → Prop
  | .pollPeek rb => rb.remaining ≤ n
  | .peek buf => buf.length ≤ n
  | .peekBuf sink => (BufMut.chunkMut sink).length ≤ n
  | .peekExact buf => buf.length ≤ n
  | .peekToEnd _ => False
  | .peekToString _ => False
  | .fillPeekBuf => False
  | _ => True

namespace Session

/-- A future in progress looks at most `n` bytes ahead. -/
def Asks (n : Nat) : Session R W B → Prop
  | idle _ => True
  | peek f => f.buf.length ≤ n
  | peekBuf f => (BufMut.chunkMut f.buf).length ≤ n
  | peekExact f => f.buf.length ≤ n
  | _ => False

/-- Neither what is peeked nor what a future asks for is more than `n` bytes. -/
structure Within (n : Nat) (s : Session R W B) : Prop where
  peeked_le : s.held.peeked.length ≤ n
  asks : s.Asks n

omit [AsyncRead R] [LawfulBuffer B] [Ledger R UInt8] [LawfulFreshRead R] in
/-- A poll that looked no further. -/
theorem within_after {α : Type} {n : Nat} {poll : Poll α} {busy : Session R W B}
    (hlen : busy.held.peeked.length ≤ n) (hbusy : poll = .pending → busy.Within n) :
    (after poll busy).Within n := by
  cases poll with
  | ready result => exact ⟨hlen, trivial⟩
  | pending => exact hbusy rfl

theorem react_within [LawfulBufMut W] {n fuel : Nat} {s : Session R W B} (hs : s.Inv)
    (hn : s.Within n) {i : Input W} (hi : i.Within n) {x : Exec (Seen × Session R W B)}
    (hx : s.react fuel i = some x) : x.Post fun out => out.2.Within n := by
  obtain ⟨hlen, hbusy⟩ := hn
  cases s with
  | idle p =>
    cases i <;> cases hx
    case pollRead.refl rb =>
      refine (pollRead_shrinks p rb).bind ?_
      rintro ⟨poll, rb', p₁⟩ h
      exact Exec.post_ok.mpr ⟨h.trans hlen, trivial⟩
    case pollPeek.refl rb =>
      refine (pollPeek_ahead fuel p rb).bind ?_
      rintro ⟨poll, rb', p₁⟩ h
      exact Exec.post_ok.mpr ⟨h.trans (max_le hlen hi), trivial⟩
    case consume.refl =>
      have hnil : p.consume.2.peeked.length = 0 := congrArg List.length p.peeked_consume
      exact Exec.post_ok.mpr ⟨hnil.trans_le (Nat.zero_le n), trivial⟩
    case consumeInPlace.refl =>
      have hnil : p.consumeInPlace.peeked.length = 0 := congrArg List.length p.peeked_consumeInPlace
      exact Exec.post_ok.mpr ⟨hnil.trans_le (Nat.zero_le n), trivial⟩
    case peek.refl buf => exact Exec.post_ok.mpr ⟨hlen, hi⟩
    case peekBuf.refl sink => exact Exec.post_ok.mpr ⟨hlen, hi⟩
    case peekExact.refl buf => exact Exec.post_ok.mpr ⟨hlen, hi⟩
    all_goals exact hi.elim
  | peek f =>
    cases i <;> cases hx
    case poll.refl =>
      refine (Peek.poll_ahead fuel f).bind ?_
      rintro ⟨poll, f'⟩ ⟨hle, hsame⟩
      have hlen' := hle.trans (max_le hlen hbusy)
      exact Exec.post_ok.mpr (within_after hlen' fun _ => ⟨hlen', hsame.trans_le hbusy⟩)
    case drop.refl => exact Exec.post_ok.mpr ⟨hlen, trivial⟩
  | peekBuf f =>
    cases i <;> cases hx
    case poll.refl =>
      refine (PeekBuf.poll_ahead fuel f).bind ?_
      rintro ⟨poll, f'⟩ ⟨hle, hsame⟩
      have hlen' := hle.trans (max_le hlen hbusy)
      exact Exec.post_ok.mpr (within_after hlen' fun hp => ⟨hlen', (hsame hp).trans_le hbusy⟩)
    case drop.refl => exact Exec.post_ok.mpr ⟨hlen, trivial⟩
  | peekExact f =>
    cases i <;> cases hx
    case poll.refl =>
      refine (PeekExact.poll_sat fuel f hs).toPost.bind ?_
      rintro ⟨poll, f'⟩ ⟨poll₀, hpolled, rfl⟩
      have hlen' := hpolled.peeks.bounded.trans (max_le hlen hbusy)
      exact Exec.post_ok.mpr
        (within_after hlen' fun _ => ⟨hlen', hpolled.peeks.length.trans_le hbusy⟩)
    case drop.refl => exact Exec.post_ok.mpr ⟨hlen, trivial⟩
  | _ => exact hbusy.elim

end Session

end PeekableReader.Tokio
