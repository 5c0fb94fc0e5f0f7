import PeekableReader.Future.Session

/-!
# How far ahead a poll of the `future` module looks
-/

namespace PeekableReader.Future

open Buffer

variable {R B : Type} [AsyncRead R] [Buffer B] [LawfulBuffer B]

theorem pollRead_shrinks (p : Peekable R B) (buf : List UInt8) :
    (pollRead p buf).Post fun out => out.2.2.peeked.length ≤ p.peeked.length := by
  unfold pollRead
  rw [p.len_buffer]
  by_cases hpos : p.peeked.length > 0
  · simp only [if_pos hpos]
    by_cases hlt : buf.length < p.peeked.length
    · obtain ⟨b, hb, hdrop⟩ := LawfulBuffer.consume_ok p.buffer (Nat.le_of_lt hlt)
      simp only [if_pos hlt, hb]
      refine .skip _ fun src => .skip _ fun dst => Exec.post_ok.mpr ?_
      rw [Peekable.peeked_mk, hdrop, List.length_drop]
      exact Nat.sub_le _ _
    · simp only [if_neg hlt]
      by_cases heq : buf.length = p.peeked.length
      · simp only [if_pos heq]
        exact .skip _ fun dst => Exec.post_ok.mpr (by simp)
      · simp only [if_neg heq]
        refine .skip _ fun dst => .skip _ fun rest => ?_
        rcases AsyncRead.pollRead p.reader rest with ⟨poll, rest', reader⟩
        cases poll using Poll.casesResult with
        | ok n => exact Exec.post_ok.mpr (by simp)
        | error e => exact Exec.post_ok.mpr (by simp)
        | pending => exact Exec.post_ok.mpr (by simp)
  · simp only [if_neg hpos]
    exact Exec.post_ok.mpr (Nat.le_refl _)

variable [Ledger R UInt8] [LawfulAsyncRead R]

theorem pollPeek_ahead (fuel : Nat) (p : Peekable R B) (buf : List UInt8) :
    (pollPeek fuel p buf).Post fun out =>
      out.2.2.peeked.length ≤ max p.peeked.length buf.length := by
  have hsame : p.peeked.length ≤ max p.peeked.length buf.length := Nat.le_max_left _ _
  unfold pollPeek
  rw [p.len_buffer]
  by_cases hpos : p.peeked.length > 0
  · simp only [if_pos hpos]
    by_cases hlt : buf.length < p.peeked.length
    · simp only [if_pos hlt]
      exact .skip _ fun src => .skip _ fun dst => Exec.post_ok.mpr hsame
    · simp only [if_neg hlt]
      by_cases heq : buf.length = p.peeked.length
      · simp only [if_pos heq]
        exact .skip _ fun dst => Exec.post_ok.mpr hsame
      · simp only [if_neg heq]
        rcases hres : resize p.buffer buf.length with ⟨e | _, buffer⟩
        · exact Exec.post_ok.mpr ((Fetched.of_resize_error hres).length_nil.trans_le hsame)
        · have hspare := Spare.of_resize hres (by omega)
          refine (pollRetry_sat readTail_lawful fuel hspare).toPost.bind ?_
          rintro ⟨poll, p₁⟩ hread
          cases poll using Poll.casesResult with
          | ok n =>
            refine .skip _ fun dst => Exec.post_ok.mpr ?_
            have hle := ReadInto.length_le hread
            rw [Nat.add_comm _ n] at hle
            exact hle.trans (by omega)
          | error e =>
            have hback := (Spare.rollback hread).length_nil.trans_le hsame
            by_cases he : e.kind = .wouldBlock
            · simp only [if_pos he]
              exact .skip _ fun dst => Exec.post_ok.mpr hback
            · simp only [if_neg he]
              exact Exec.post_ok.mpr hback
          | pending =>
            exact .skip _ fun dst =>
              Exec.post_ok.mpr ((Spare.rollback hread).length_nil.trans_le hsame)
  · simp only [if_neg hpos]
    by_cases hzero : buf.length = 0
    · simp only [if_pos hzero]
      exact Exec.post_ok.mpr hsame
    · simp only [if_neg hzero]
      rcases hres : resize p.buffer (p.peeked.length + buf.length) with ⟨e | _, buffer⟩
      · exact Exec.post_ok.mpr ((Fetched.of_resize_error hres).length_nil.trans_le hsame)
      · have hspare := Spare.of_resize hres (by omega)
        refine (pollRetry_sat readTail_lawful fuel hspare).toPost.bind ?_
        rintro ⟨poll, p₁⟩ hread
        cases poll using Poll.casesResult with
        | ok n =>
          refine .skip _ fun src => .skip _ fun dst => Exec.post_ok.mpr ?_
          exact (ReadInto.length_le hread).trans (by omega)
        | error e =>
          have hback := (Spare.rollback hread).length_nil.trans_le hsame
          by_cases he : e.kind = .wouldBlock
          · simp only [if_pos he]
            exact Exec.post_ok.mpr hback
          · simp only [if_neg he]
            exact Exec.post_ok.mpr hback
        | pending => exact Exec.post_ok.mpr ((Spare.rollback hread).length_nil.trans_le hsame)

theorem pollPeekVectored_ahead (fuel : Nat) (p : Peekable R B) {n : Nat} {bufs : List (List UInt8)}
    (hbufs : ∀ buf ∈ bufs, buf.length ≤ n) :
    (pollPeekVectored fuel p bufs).Post fun out =>
      out.2.2.peeked.length ≤ max p.peeked.length n := by
  induction bufs with
  | nil =>
    refine (pollPeek_ahead fuel p []).bind ?_
    rintro ⟨poll, _, p₁⟩ hle
    exact Exec.post_ok.mpr (hle.trans (by simp))
  | cons b bufs ih =>
    obtain ⟨hb, hbufs⟩ := List.forall_mem_cons.mp hbufs
    unfold pollPeekVectored
    by_cases hempty : b.isEmpty = true
    · simp only [if_pos hempty]
      refine (ih hbufs).bind ?_
      rintro ⟨poll, bufs', p₁⟩ hle
      exact Exec.post_ok.mpr hle
    · simp only [if_neg hempty]
      refine (pollPeek_ahead fuel p b).bind ?_
      rintro ⟨poll, b', p₁⟩ hle
      exact Exec.post_ok.mpr (hle.trans (max_le_max_left _ hb))

theorem Peek.poll_ahead (fuel : Nat) (f : Peek R B) :
    (f.poll fuel).Post fun out =>
      out.2.peekable.peeked.length ≤ max f.peekable.peeked.length f.buf.length ∧
        (out.1 = .pending → out.2.buf = f.buf) := by
  refine ((pollPeek_ahead fuel f.peekable f.buf).and (pollPeek_sat fuel f.peekable f.buf).toPost).bind ?_
  rintro ⟨poll, buf, p⟩ ⟨hle, hpeeks⟩
  refine Exec.post_ok.mpr ⟨hle, ?_⟩
  rintro rfl
  exact hpeeks.1

theorem PeekVectored.poll_ahead {n : Nat} (fuel : Nat) (f : PeekVectored R B)
    (hbufs : ∀ buf ∈ f.bufs, buf.length ≤ n) :
    (f.poll fuel).Post fun out =>
      out.2.peekable.peeked.length ≤ max f.peekable.peeked.length n ∧
        (out.1 = .pending → out.2.bufs = f.bufs) := by
  refine ((pollPeekVectored_ahead fuel f.peekable hbufs).and
    (pollPeekVectored_sat fuel f.peekable f.bufs).toPost).bind ?_
  rintro ⟨poll, bufs, p⟩ ⟨hle, hpeeks⟩
  refine Exec.post_ok.mpr ⟨hle, ?_⟩
  rintro rfl
  exact hpeeks.1

/-! ## Sessions -/

/-- The inputs that look at most `n` bytes ahead. -/
def Input.Within (n : Nat) : Input → Prop
  | .pollPeek buf => buf.length ≤ n
  | .pollPeekVectored bufs => ∀ buf ∈ bufs, buf.length ≤ n
  | .peek buf => buf.length ≤ n
  | .peekVectored bufs => ∀ buf ∈ bufs, buf.length ≤ n
  | .peekExact buf => buf.length ≤ n
  | .peekToEnd _ => False
  | .peekToString _ => False
  | .fillPeekBuf => False
  | _ => True

namespace Session

/-- A future in progress looks at most `n` bytes ahead. -/
def Asks (n : Nat) : Session R B → Prop
  | idle _ => True
  | peek f => f.buf.length ≤ n
  | peekVectored f => ∀ buf ∈ f.bufs, buf.length ≤ n
  | peekExact f => f.buf.length ≤ n
  | _ => False

/-- Neither what is peeked nor what a future asks for is more than `n` bytes. -/
structure Within (n : Nat) (s : Session R B) : Prop where
  peeked_le : s.held.peeked.length ≤ n
  asks : s.Asks n

omit [AsyncRead R] [LawfulBuffer B] [Ledger R UInt8] [LawfulAsyncRead R] in
/-- A poll that looked no further. -/
theorem within_after {α : Type} {n : Nat} {poll : Poll α} {busy : Session R B}
    (hlen : busy.held.peeked.length ≤ n) (hbusy : poll = .pending → busy.Within n) :
    (after poll busy).Within n := by
  cases poll with
  | ready result => exact ⟨hlen, trivial⟩
  | pending => exact hbusy rfl

theorem react_within {n fuel : Nat} {s : Session R B} (hs : s.Inv) (hn : s.Within n) {i : Input}
    (hi : i.Within n) {x : Exec (Seen × Session R B)} (hx : s.react fuel i = some x) :
    x.Post fun out => out.2.Within n := by
  obtain ⟨hlen, hbusy⟩ := hn
  cases s with
  | idle p =>
    have hle {m k : Nat} (h : m ≤ max p.peeked.length k) (hk : k ≤ n) : m ≤ n :=
      h.trans (max_le hlen hk)
    cases i <;> cases hx
    case pollRead.refl buf =>
      refine (pollRead_shrinks p buf).bind ?_
      rintro ⟨poll, buf', p₁⟩ h
      exact Exec.post_ok.mpr ⟨h.trans hlen, trivial⟩
    case pollPeek.refl buf =>
      refine (pollPeek_ahead fuel p buf).bind ?_
      rintro ⟨poll, buf', p₁⟩ h
      exact Exec.post_ok.mpr ⟨hle h hi, trivial⟩
    case pollPeekVectored.refl bufs =>
      refine (pollPeekVectored_ahead fuel p hi).bind ?_
      rintro ⟨poll, bufs', p₁⟩ h
      exact Exec.post_ok.mpr ⟨hle h (Nat.le_refl n), trivial⟩
    case consume.refl =>
      have hnil : p.consume.2.peeked.length = 0 := congrArg List.length p.peeked_consume
      exact Exec.post_ok.mpr ⟨hnil.trans_le (Nat.zero_le n), trivial⟩
    case consumeInPlace.refl =>
      have hnil : p.consumeInPlace.peeked.length = 0 := congrArg List.length p.peeked_consumeInPlace
      exact Exec.post_ok.mpr ⟨hnil.trans_le (Nat.zero_le n), trivial⟩
    case peek.refl buf => exact Exec.post_ok.mpr ⟨hlen, hi⟩
    case peekVectored.refl bufs => exact Exec.post_ok.mpr ⟨hlen, hi⟩
    case peekExact.refl buf => exact Exec.post_ok.mpr ⟨hlen, hi⟩
    all_goals exact hi.elim
  | peek f =>
    cases i <;> cases hx
    case poll.refl =>
      refine (Peek.poll_ahead fuel f).bind ?_
      rintro ⟨poll, f'⟩ ⟨hle, hsame⟩
      have hlen' := hle.trans (max_le hlen hbusy)
      exact Exec.post_ok.mpr
        (within_after hlen' fun hp => ⟨hlen', by rw [Asks, hsame hp]; exact hbusy⟩)
    case drop.refl => exact Exec.post_ok.mpr ⟨hlen, trivial⟩
  | peekVectored f =>
    cases i <;> cases hx
    case poll.refl =>
      refine (PeekVectored.poll_ahead fuel f hbusy).bind ?_
      rintro ⟨poll, f'⟩ ⟨hle, hsame⟩
      have hlen' := hle.trans (max_le hlen (Nat.le_refl n))
      exact Exec.post_ok.mpr
        (within_after hlen' fun hp => ⟨hlen', by rw [Asks, hsame hp]; exact hbusy⟩)
    case drop.refl => exact Exec.post_ok.mpr ⟨hlen, trivial⟩
  | peekExact f =>
    cases i <;> cases hx
    case poll.refl =>
      refine (PeekExact.pollWith_sat readTail_lawful _ fuel f hs).toPost.bind ?_
      rintro ⟨poll, f'⟩ hpolled
      have hlen' := hpolled.peeks.bounded.trans (max_le hlen hbusy)
      exact Exec.post_ok.mpr
        (within_after hlen' fun _ => ⟨hlen', hpolled.peeks.length.trans_le hbusy⟩)
    case drop.refl => exact Exec.post_ok.mpr ⟨hlen, trivial⟩
  | _ => exact hbusy.elim

end Session

end PeekableReader.Future
