import PeekableReader.Async.Supply
import PeekableReader.Future.Session

/-!
# The polls of the `future` module end
-/

namespace PeekableReader.Future

open Buffer

variable {R B : Type} [AsyncRead R] [Buffer B] {stalls : Prop}

theorem readTail_uses (S : Supply R stalls) : TailUses S.left stalls (readTail : TailRead R B) := by
  intro p lo hi
  refine .skip (slice_halts _ _ _) fun spare => ?_
  rcases hread : AsyncRead.pollRead p.reader spare with ⟨poll, spare', reader⟩
  exact ⟨S.left_le hread, S.left_lt hread⟩

variable (S : Supply R stalls)

theorem pollRead_halts [LawfulBuffer B] (p : Peekable R B) (buf : List UInt8) :
    (pollRead p buf).Halts fun out => S.left out.2.2.reader ≤ S.left p.reader := by
  unfold pollRead
  rw [p.len_buffer]
  by_cases hpos : p.peeked.length > 0
  · simp only [if_pos hpos]
    by_cases hlt : buf.length < p.peeked.length
    · obtain ⟨b, hb, -⟩ := LawfulBuffer.consume_ok p.buffer (Nat.le_of_lt hlt)
      simp only [if_pos hlt, hb]
      refine .skip (slice_halts _ _ _) fun src => .skip (copyFromSlice_halts _ _) fun dst => ?_
      exact Nat.le_refl _
    · simp only [if_neg hlt]
      by_cases heq : buf.length = p.peeked.length
      · simp only [if_pos heq]
        exact .skip (copyFromSlice_halts _ _) fun dst => Nat.le_refl _
      · simp only [if_neg heq]
        refine .skip (copyInto_halts _ _ _ _) fun dst => .skip (slice_halts _ _ _) fun rest => ?_
        rcases hread : AsyncRead.pollRead p.reader rest with ⟨poll, rest', reader⟩
        have hle := S.left_le hread
        cases poll using Poll.casesResult with
        | ok n => exact hle
        | error e => exact hle
        | pending => exact hle
  · simp only [if_neg hpos]
    rcases hread : AsyncRead.pollRead p.reader buf with ⟨poll, buf', reader⟩
    exact S.left_le hread

theorem pollPeek_halts {fuel : Nat} {p : Peekable R B} (hfuel : S.left p.reader < fuel)
    (buf : List UInt8) :
    (pollPeek fuel p buf).Halts fun out => Spent S.left stalls out.1 p.reader out.2.2.reader := by
  have htail := readTail_uses (B := B) S
  unfold pollPeek
  by_cases hpos : len p.buffer > 0
  · simp only [if_pos hpos]
    by_cases hlt : buf.length < len p.buffer
    · simp only [if_pos hlt]
      exact .skip (slice_halts _ _ _) fun src => .skip (copyFromSlice_halts _ _) fun dst => .refl _ _
    · simp only [if_neg hlt]
      by_cases heq : buf.length = len p.buffer
      · simp only [if_pos heq]
        exact .skip (copyFromSlice_halts _ _) fun dst => .refl _ _
      · simp only [if_neg heq]
        rcases resize p.buffer buf.length with ⟨e | _, buffer⟩
        · exact .refl _ _
        · refine (pollRetry_halts htail (p := { p with buffer }) _ hfuel).bind ?_
          rintro ⟨poll, p₁⟩ hused
          cases poll using Poll.casesResult with
          | ok n => exact .skip (copyInto_halts _ _ _ _) fun dst => .of_ready _ hused.1
          | error e =>
            by_cases he : e.kind = .wouldBlock
            · simp only [if_pos he]
              exact .skip (copyInto_halts _ _ _ _) fun dst => .of_ready _ hused.1
            · simp only [if_neg he]
              exact .of_ready _ hused.1
          | pending => exact .skip (copyInto_halts _ _ _ _) fun dst => .of_ready _ hused.1
  · simp only [if_neg hpos]
    by_cases hzero : buf.length = 0
    · simp only [if_pos hzero]
      exact .refl _ _
    · simp only [if_neg hzero]
      rcases resize p.buffer (len p.buffer + buf.length) with ⟨e | _, buffer⟩
      · exact .refl _ _
      · refine (pollRetry_halts htail (p := { p with buffer }) _ hfuel).bind ?_
        rintro ⟨poll, p₁⟩ hused
        cases poll using Poll.casesResult with
        | ok n =>
          exact .skip (slice_halts _ _ _) fun src => .skip (copyInto_halts _ _ _ _) fun dst =>
            .of_ready _ hused.1
        | error e =>
          by_cases he : e.kind = .wouldBlock
          · simp only [if_pos he]
            exact ⟨hused.1, fun hstalls _ => hused.2 (.inr ⟨hstalls, he⟩)⟩
          · simp only [if_neg he]
            exact .of_ready _ hused.1
        | pending => exact hused.spent

theorem pollPeekVectored_halts {fuel : Nat} {p : Peekable R B} (hfuel : S.left p.reader < fuel)
    (bufs : List (List UInt8)) :
    (pollPeekVectored fuel p bufs).Halts fun out =>
      Spent S.left stalls out.1 p.reader out.2.2.reader := by
  induction bufs with
  | nil =>
    refine (pollPeek_halts S hfuel []).bind ?_
    rintro ⟨poll, _, p₁⟩ hspent
    exact hspent
  | cons b bufs ih =>
    unfold pollPeekVectored
    by_cases hb : b.isEmpty = true
    · simp only [if_pos hb]
      refine ih.bind ?_
      rintro ⟨poll, bufs', p₁⟩ hspent
      exact hspent
    · simp only [if_neg hb]
      refine (pollPeek_halts S hfuel b).bind ?_
      rintro ⟨poll, b', p₁⟩ hspent
      exact hspent

/-! ## Sessions -/

namespace Session

/-- What is left after a step, which has used some of it if it was a poll that was not the last. -/
def Spends (i : Input) (s s' : Session R B) : Prop :=
  S.left s'.held.reader ≤ S.left s.held.reader ∧
    (stalls → i = .poll → (∃ p, s' = .idle p) ∨ S.left s'.held.reader < S.left s.held.reader)

variable {S}

omit [Buffer B] in
theorem spends_idle {i : Input} {s : Session R B} {p : Peekable R B}
    (h : S.left p.reader ≤ S.left s.held.reader) : Spends S i s (.idle p) :=
  ⟨h, fun _ _ => .inl ⟨p, rfl⟩⟩

omit [Buffer B] in
/-- The start of a future. -/
theorem spends_start {i : Input} {s s' : Session R B} (h : s'.held = s.held) (hi : i ≠ .poll) :
    Spends S i s s' := ⟨by rw [h], fun _ heq => absurd heq hi⟩

omit [Buffer B] in
theorem spends_after {α : Type} {i : Input} {s busy : Session R B} {poll : Poll α}
    (h : Spent S.left stalls poll s.held.reader busy.held.reader) : Spends S i s (after poll busy) := by
  refine ⟨by rw [held_after]; exact h.1, fun hstalls _ => ?_⟩
  cases poll with
  | ready result => exact .inl ⟨_, rfl⟩
  | pending => exact .inr (h.2 hstalls rfl)

theorem react_halts [LawfulBuffer B] {fuel : Nat} {s : Session R B}
    (hfuel : S.left s.held.reader < fuel) {i : Input} {x : Exec (Seen × Session R B)}
    (hx : s.react fuel i = some x) : x.Halts fun out => Spends S i s out.2 := by
  cases s with
  | idle p =>
    cases i <;> cases hx
    case pollRead.refl buf => exact (pollRead_halts S p buf).bind fun out hle => spends_idle hle
    case pollPeek.refl buf => exact (pollPeek_halts S hfuel buf).bind fun out h => spends_idle h.1
    case pollPeekVectored.refl bufs =>
      exact (pollPeekVectored_halts S hfuel bufs).bind fun out h => spends_idle h.1
    case consume.refl => exact spends_idle (Nat.le_refl _)
    case consumeInPlace.refl => exact spends_idle (Nat.le_refl _)
    all_goals exact spends_start rfl (by rintro ⟨⟩)
  | peek f =>
    cases i <;> cases hx
    case poll.refl =>
      refine Exec.Halts.bind (P := fun out => Spent S.left stalls out.1 f.peekable.reader
        out.2.peekable.reader) ?_ fun out h => spends_after h
      exact (pollPeek_halts S hfuel f.buf).bind fun out h => h
    case drop.refl => exact spends_idle (Nat.le_refl _)
  | peekVectored f =>
    cases i <;> cases hx
    case poll.refl =>
      refine Exec.Halts.bind (P := fun out => Spent S.left stalls out.1 f.peekable.reader
        out.2.peekable.reader) ?_ fun out h => spends_after h
      exact (pollPeekVectored_halts S hfuel f.bufs).bind fun out h => h
    case drop.refl => exact spends_idle (Nat.le_refl _)
  | peekExact f =>
    cases i <;> cases hx
    case poll.refl =>
      exact (f.pollWith_halts (readTail_uses S) _ hfuel).bind fun out h => spends_after h
    case drop.refl => exact spends_idle (Nat.le_refl _)
  | peekToEnd dst f =>
    cases i <;> cases hx
    case poll.refl =>
      exact (f.pollWith_halts (readTail_uses S) hfuel).bind fun out h => spends_after h
    case drop.refl => exact spends_idle (Nat.le_refl _)
  | peekToString dst f =>
    cases i <;> cases hx
    case poll.refl =>
      exact (f.pollWith_halts (readTail_uses S) hfuel).bind fun out h => spends_after h
    case drop.refl => exact spends_idle (Nat.le_refl _)
  | fillPeekBuf f =>
    cases i <;> cases hx
    case poll.refl =>
      exact (f.pollWith_halts (readTail_uses S)).bind fun out h => spends_after h
    case drop.refl => exact spends_idle (Nat.le_refl _)

end Session

end PeekableReader.Future
