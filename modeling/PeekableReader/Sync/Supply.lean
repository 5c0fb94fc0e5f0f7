import PeekableReader.Io.Supply
import PeekableReader.Sync.Session

/-!
# Synchronous operations that end

As for the polls: every loop goes round again only after an answer that has used up some of
the reader's supply.
-/

namespace PeekableReader.Peekable

open Buffer

variable {R B : Type} [Read R] [Buffer B] (S : Read.Supply R)

theorem readSpare_halts (p : Peekable R B) (lo hi : Nat) :
    (p.readSpare lo hi).Halts fun out => Used S.left False (.ready out.1) p.reader out.2.reader := by
  refine .skip (slice_halts _ _ _) fun spare => ?_
  rcases hread : Read.read p.reader spare with ⟨result, spare', reader⟩
  exact ⟨S.left_le hread, S.left_lt hread⟩

theorem readRetry_halts {fuel : Nat} {p : Peekable R B} (lo : Nat) (hfuel : S.left p.reader < fuel) :
    (p.readRetry fuel lo).Halts fun out => Used S.left False (.ready out.1) p.reader out.2.reader := by
  induction fuel generalizing p with
  | zero => omega
  | succ fuel ih =>
    refine (readSpare_halts S p lo p.peeked.length).bind ?_
    rintro ⟨result, p₁⟩ hused
    cases result with
    | ok n => exact hused
    | error e =>
      by_cases he : e.kind = .interrupted
      · simp only [if_pos he]
        have hless : S.left p₁.reader < S.left p.reader := hused.2 (.inl he)
        exact (ih (by omega)).mono fun _ h => h.after hused.1
      · simp only [if_neg he]
        exact hused

theorem read_halts [LawfulBuffer B] (p : Peekable R B) (buf : List UInt8) :
    (p.read buf).Halts fun out => S.left out.2.2.reader ≤ S.left p.reader := by
  unfold read
  by_cases hpos : p.peeked.length > 0
  · simp only [if_pos hpos]
    by_cases hlt : buf.length < p.peeked.length
    · obtain ⟨b, hb, -⟩ := LawfulBuffer.consume_ok p.buffer (Nat.le_of_lt hlt)
      simp only [if_pos hlt, hb]
      exact .skip (slice_halts _ _ _) fun src => .skip (copyFromSlice_halts _ _) fun dst =>
        Nat.le_refl _
    · simp only [if_neg hlt]
      by_cases heq : buf.length = p.peeked.length
      · simp only [if_pos heq]
        exact .skip (copyFromSlice_halts _ _) fun dst => Nat.le_refl _
      · simp only [if_neg heq]
        refine .skip (copyInto_halts _ _ _ _) fun dst => .skip (slice_halts _ _ _) fun rest => ?_
        rcases hread : Read.read p.reader rest with ⟨_ | _, rest', reader⟩
        · exact S.left_le hread
        · exact S.left_le hread
  · simp only [if_neg hpos]
    rcases hread : Read.read p.reader buf with ⟨result, buf', reader⟩
    exact S.left_le hread

theorem peek_halts {fuel : Nat} {p : Peekable R B} (hfuel : S.left p.reader < fuel)
    (buf : List UInt8) :
    (p.peek fuel buf).Halts fun out => S.left out.2.2.reader ≤ S.left p.reader := by
  unfold peek
  by_cases hpos : len p.buffer > 0
  · simp only [if_pos hpos]
    by_cases hlt : buf.length < len p.buffer
    · simp only [if_pos hlt]
      exact .skip (slice_halts _ _ _) fun src => .skip (copyFromSlice_halts _ _) fun dst =>
        Nat.le_refl _
    · simp only [if_neg hlt]
      by_cases heq : buf.length = len p.buffer
      · simp only [if_pos heq]
        exact .skip (copyFromSlice_halts _ _) fun dst => Nat.le_refl _
      · simp only [if_neg heq]
        rcases resize p.buffer buf.length with ⟨e | _, buffer⟩
        · exact Nat.le_refl _
        · refine (readRetry_halts S (p := { p with buffer }) _ hfuel).bind ?_
          rintro ⟨result, p₁⟩ hused
          cases result with
          | ok n => exact .skip (copyInto_halts _ _ _ _) fun dst => hused.1
          | error e => exact hused.1
  · simp only [if_neg hpos]
    by_cases hzero : buf.length = 0
    · simp only [if_pos hzero]
      exact Nat.le_refl _
    · simp only [if_neg hzero]
      rcases resize p.buffer (len p.buffer + buf.length) with ⟨e | _, buffer⟩
      · exact Nat.le_refl _
      · refine (readRetry_halts S (p := { p with buffer }) _ hfuel).bind ?_
        rintro ⟨result, p₁⟩ hused
        cases result with
        | ok n =>
          exact .skip (slice_halts _ _ _) fun src => .skip (copyInto_halts _ _ _ _) fun dst => hused.1
        | error e => exact hused.1

theorem peekVectored_halts {fuel : Nat} {p : Peekable R B} (hfuel : S.left p.reader < fuel)
    (bufs : List (List UInt8)) :
    (p.peekVectored fuel bufs).Halts fun out => S.left out.2.2.reader ≤ S.left p.reader := by
  induction bufs with
  | nil => exact (peek_halts S hfuel []).bind fun out hle => hle
  | cons b bufs ih =>
    unfold peekVectored
    by_cases hb : b.isEmpty = true
    · simp only [if_pos hb]
      exact ih.bind fun out hle => hle
    · simp only [if_neg hb]
      exact (peek_halts S hfuel b).bind fun out hle => hle

theorem peekToEndLoop_halts {fuel : Nat} {p : Peekable R B} (hfuel : S.left p.reader < fuel)
    (buf : List UInt8) :
    (p.peekToEndLoop fuel buf).Halts fun out => S.left out.2.2.reader ≤ S.left p.reader := by
  induction fuel generalizing p buf with
  | zero => omega
  | succ fuel ih =>
    unfold peekToEndLoop
    rcases growPeekBuffer p.buffer with ⟨e | growth, buffer⟩
    · exact Nat.le_refl _
    · refine (readSpare_halts S { p with buffer } _ _).bind ?_
      rintro ⟨result, p₁⟩ hused
      cases result with
      | error e =>
        by_cases he : e.kind = .interrupted
        · simp only [if_pos he]
          have hless : S.left p₁.reader < S.left p.reader := hused.2 (.inl he)
          exact (ih (p := p₁.truncate _) (hless.trans_le (Nat.le_of_lt_succ hfuel)) buf).mono
            fun _ h => h.trans hused.1
        · simp only [if_neg he]
          exact hused.1
      | ok n =>
        by_cases hn : n = 0
        · simp only [if_pos hn]
          exact hused.1
        · simp only [if_neg hn]
          have hless : S.left p₁.reader < S.left p.reader := hused.2 (Nat.pos_of_ne_zero hn)
          refine .skip (slice_halts _ _ _) fun chunk => ?_
          exact (ih (p := p₁.truncate _) (hless.trans_le (Nat.le_of_lt_succ hfuel)) _).mono
            fun _ h => h.trans hused.1

theorem peekToStringLoop_halts {fuel : Nat} {p : Peekable R B} (hfuel : S.left p.reader < fuel) :
    (p.peekToStringLoop fuel).Halts fun out => S.left out.2.reader ≤ S.left p.reader := by
  induction fuel generalizing p with
  | zero => omega
  | succ fuel ih =>
    unfold peekToStringLoop
    rcases growPeekBuffer p.buffer with ⟨e | growth, buffer⟩
    · exact Nat.le_refl _
    · refine (readSpare_halts S { p with buffer } _ _).bind ?_
      rintro ⟨result, p₁⟩ hused
      cases result with
      | error e =>
        by_cases he : e.kind = .interrupted
        · simp only [if_pos he]
          have hless : S.left p₁.reader < S.left p.reader := hused.2 (.inl he)
          exact (ih (p := p₁.truncate _) (hless.trans_le (Nat.le_of_lt_succ hfuel))).mono
            fun _ h => h.trans hused.1
        · simp only [if_neg he]
          exact hused.1
      | ok n =>
        by_cases hn : n = 0
        · simp only [if_pos hn]
          exact hused.1
        · simp only [if_neg hn]
          have hless : S.left p₁.reader < S.left p.reader := hused.2 (Nat.pos_of_ne_zero hn)
          exact (ih (p := p₁.truncate _) (hless.trans_le (Nat.le_of_lt_succ hfuel))).mono
            fun _ h => h.trans hused.1

theorem peekToString_halts {fuel : Nat} {p : Peekable R B} (hfuel : S.left p.reader < fuel)
    (buf : Str) :
    (p.peekToString fuel buf).Halts fun out => S.left out.2.2.reader ≤ S.left p.reader := by
  unfold peekToString
  split
  · exact Nat.le_refl _
  · refine (peekToStringLoop_halts S hfuel).bind ?_
    rintro ⟨loopResult, p₁⟩ hle
    exact (finishString_ends loopResult p₁.peeked buf).halts.bind fun out _ => hle

theorem peekExactLoop_halts {fuel : Nat} {p : Peekable R B} (hfuel : S.left p.reader < fuel)
    (buf : List UInt8) (filled : Nat) :
    (p.peekExactLoop fuel buf filled).Halts fun out => S.left out.2.2.reader ≤ S.left p.reader := by
  induction fuel generalizing p buf filled with
  | zero => omega
  | succ fuel ih =>
    unfold peekExactLoop
    by_cases hlt : filled < buf.length
    · simp only [if_pos hlt]
      rcases resize p.buffer (len p.buffer + (buf.length - filled)) with ⟨e | _, buffer⟩
      · exact Nat.le_refl _
      · refine (readRetry_halts S (p := { p with buffer }) _ hfuel).bind ?_
        rintro ⟨result, p₁⟩ hused
        cases result with
        | error e => exact hused.1
        | ok n =>
          by_cases hn : n = 0
          · simp only [if_pos hn]
            exact hused.1
          · simp only [if_neg hn]
            have hless : S.left p₁.reader < S.left p.reader := hused.2 (Nat.pos_of_ne_zero hn)
            refine .skip (slice_halts _ _ _) fun src => .skip (copyInto_halts _ _ _ _) fun dst => ?_
            exact (ih (p := p₁.truncate _) (hless.trans_le (Nat.le_of_lt_succ hfuel)) _ _).mono
              fun _ h => h.trans hused.1
    · simp only [if_neg hlt]
      exact Nat.le_refl _

theorem peekExact_halts {fuel : Nat} {p : Peekable R B} (hfuel : S.left p.reader < fuel)
    (buf : List UInt8) :
    (p.peekExact fuel buf).Halts fun out => S.left out.2.2.reader ≤ S.left p.reader := by
  unfold peekExact
  by_cases hle : buf.length ≤ len p.buffer
  · simp only [if_pos hle]
    exact .skip (slice_halts _ _ _) fun src => .skip (copyFromSlice_halts _ _) fun dst =>
      Nat.le_refl _
  · simp only [if_neg hle]
    exact .skip (copyInto_halts _ _ _ _) fun dst => peekExactLoop_halts S hfuel dst _

theorem fillPeekBuf_halts {fuel : Nat} {p : Peekable R B} (hfuel : S.left p.reader < fuel) :
    (p.fillPeekBuf fuel).Halts fun out => S.left out.2.reader ≤ S.left p.reader := by
  simp only [fillPeekBuf]
  rcases resize p.buffer (capacity p.buffer) with ⟨e | _, buffer⟩
  · exact Nat.le_refl _
  · refine (readRetry_halts S (p := { p with buffer }) _ hfuel).bind ?_
    rintro ⟨result, p₁⟩ hused
    cases result with
    | ok n => exact hused.1
    | error e => exact hused.1

/-- No operation adds to the supply, and each of them ends with fuel beyond what is left. -/
theorem perform_halts [LawfulBuffer B] {fuel : Nat} {p : Peekable R B}
    (hfuel : S.left p.reader < fuel) (op : Op) :
    (p.perform fuel op).Halts fun out => S.left out.2.reader ≤ S.left p.reader := by
  cases op with
  | read buf => exact (read_halts S p buf).bind fun out hle => hle
  | peek buf => exact (peek_halts S hfuel buf).bind fun out hle => hle
  | peekVectored bufs => exact (peekVectored_halts S hfuel bufs).bind fun out hle => hle
  | peekExact buf =>
    refine (peekExact_halts S hfuel buf).bind ?_
    rintro ⟨_ | _, buf', p₁⟩ hle
    · exact hle
    · exact hle
  | peekToEnd buf => exact (peekToEndLoop_halts S hfuel _).bind fun out hle => hle
  | peekToString buf => exact (peekToString_halts S hfuel buf).bind fun out hle => hle
  | fillPeekBuf => exact (fillPeekBuf_halts S hfuel).bind fun out hle => hle
  | consume => exact Nat.le_refl _
  | consumeInPlace => exact Nat.le_refl _

end PeekableReader.Peekable
