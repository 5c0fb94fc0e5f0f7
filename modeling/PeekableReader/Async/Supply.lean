import PeekableReader.Async.Model
import PeekableReader.Io.Supply

/-!
# Polls that end

The loop inside a poll goes round again only after an answer that has used up some of the
reader's supply, so fuel beyond what is left is enough for it.
-/

namespace PeekableReader

open Buffer

variable {R B : Type} [Buffer B]

/-- A poll of the reader with a range of the peek buffer uses up what its answer says. -/
def TailUses (left : R → Nat) (stalls : Prop) (tail : TailRead R B) : Prop :=
  ∀ p lo hi, (tail p lo hi).Halts fun out => Used left stalls out.1 p.reader out.2.reader

variable {left : R → Nat} {stalls : Prop} {tail : TailRead R B}

theorem pollRetry_halts (htail : TailUses left stalls tail) {fuel : Nat} {p : Peekable R B} (lo : Nat)
    (hfuel : left p.reader < fuel) :
    (pollRetry tail fuel p lo).Halts fun out => Used left stalls out.1 p.reader out.2.reader := by
  induction fuel generalizing p with
  | zero => omega
  | succ fuel ih =>
    refine (htail p lo p.peeked.length).bind ?_
    rintro ⟨poll, p₁⟩ hused
    cases poll using Poll.casesResult with
    | ok n => exact hused
    | pending => exact hused
    | error e =>
      by_cases he : e.kind = .interrupted
      · simp only [if_pos he]
        have hlt : left p₁.reader < left p.reader := hused.2 (.inl he)
        exact (ih (by omega)).mono fun _ h => h.after hused.1
      · simp only [if_neg he]
        exact hused

theorem PeekExact.loop_halts (htail : TailUses left stalls tail) (eof : IoError) {fuel : Nat}
    {f : PeekExact R B} (hfuel : left f.peekable.reader < fuel) :
    (loop tail eof fuel f).Halts fun out =>
      Spent left stalls out.1 f.peekable.reader out.2.peekable.reader := by
  induction fuel generalizing f with
  | zero => omega
  | succ fuel ih =>
    unfold loop
    by_cases hlt : f.filled < f.buf.length
    · simp only [if_pos hlt]
      rcases resize f.peekable.buffer (len f.peekable.buffer + (f.buf.length - f.filled)) with
        ⟨e | _, buffer⟩
      · exact .refl _ _
      · refine (htail { f.peekable with buffer } _ _).bind ?_
        rintro ⟨poll, p⟩ hused
        cases poll using Poll.casesResult with
        | pending => exact hused.spent
        | error e =>
          by_cases he : e.kind = .interrupted
          · simp only [if_pos he]
            have hless : left p.reader < left f.peekable.reader := hused.2 (.inl he)
            exact (ih (f := { f with peekable := p.truncate _ })
              (hless.trans_le (Nat.le_of_lt_succ hfuel))).mono fun _ h => h.after hused.1
          · simp only [if_neg he]
            exact .of_ready _ hused.1
        | ok n =>
          by_cases hn : n = 0
          · simp only [if_pos hn]
            exact .of_ready _ hused.1
          · simp only [if_neg hn]
            have hless : left p.reader < left f.peekable.reader := hused.2 (Nat.pos_of_ne_zero hn)
            refine .skip (slice_halts _ _ _) fun src => .skip (copyInto_halts _ _ _ _) fun buf => ?_
            exact (ih (f := ⟨p.truncate _, buf, _⟩)
              (hless.trans_le (Nat.le_of_lt_succ hfuel))).mono fun _ h => h.after hused.1
    · simp only [if_neg hlt]
      exact .refl _ _

theorem PeekExact.pollWith_halts (htail : TailUses left stalls tail) (eof : IoError) {fuel : Nat}
    {f : PeekExact R B} (hfuel : left f.peekable.reader < fuel) :
    (f.pollWith tail eof fuel).Halts fun out =>
      Spent left stalls out.1 f.peekable.reader out.2.peekable.reader := by
  unfold pollWith
  by_cases hfilled : f.filled = 0
  · simp only [if_pos hfilled]
    refine .skip (slice_halts _ _ _) fun src => .skip (copyInto_halts _ _ _ _) fun buf => ?_
    split
    · exact .refl _ _
    · exact loop_halts htail eof (f := ⟨f.peekable, buf, _⟩) hfuel
  · simp only [if_neg hfilled]
    exact loop_halts htail eof hfuel

theorem PeekToEnd.loop_halts (htail : TailUses left stalls tail) {fuel : Nat} {f : PeekToEnd R B}
    (hfuel : left f.peekable.reader < fuel) :
    (loop tail fuel f).Halts fun out =>
      Spent left stalls out.1 f.peekable.reader out.2.peekable.reader := by
  induction fuel generalizing f with
  | zero => omega
  | succ fuel ih =>
    unfold loop
    rcases growPeekBuffer f.peekable.buffer with ⟨e | growth, buffer⟩
    · exact .refl _ _
    · refine (htail { f.peekable with buffer } _ _).bind ?_
      rintro ⟨poll, p⟩ hused
      cases poll using Poll.casesResult with
      | pending => exact hused.spent
      | error e =>
        by_cases he : e.kind = .interrupted
        · simp only [if_pos he]
          have hless : left p.reader < left f.peekable.reader := hused.2 (.inl he)
          exact (ih (f := { f with peekable := p.truncate _ })
            (hless.trans_le (Nat.le_of_lt_succ hfuel))).mono fun _ h => h.after hused.1
        · simp only [if_neg he]
          exact .of_ready _ hused.1
      | ok n =>
        by_cases hn : n = 0
        · simp only [if_pos hn]
          exact .of_ready _ hused.1
        · simp only [if_neg hn]
          have hless : left p.reader < left f.peekable.reader := hused.2 (Nat.pos_of_ne_zero hn)
          refine .skip (slice_halts _ _ _) fun chunk => ?_
          exact (ih (f := { f with peekable := p.truncate _, buf := _ })
            (hless.trans_le (Nat.le_of_lt_succ hfuel))).mono fun _ h => h.after hused.1

theorem PeekToEnd.pollWith_halts (htail : TailUses left stalls tail) {fuel : Nat}
    {f : PeekToEnd R B} (hfuel : left f.peekable.reader < fuel) :
    (f.pollWith tail fuel).Halts fun out =>
      Spent left stalls out.1 f.peekable.reader out.2.peekable.reader := by
  unfold pollWith
  split
  · exact loop_halts htail hfuel
  · exact loop_halts htail (f := { f with buf := _, prefixCopied := true }) hfuel

theorem PeekToString.loop_halts (htail : TailUses left stalls tail) {fuel : Nat} {p : Peekable R B}
    (hfuel : left p.reader < fuel) :
    (loop tail fuel p).Halts fun out => Spent left stalls out.1 p.reader out.2.reader := by
  induction fuel generalizing p with
  | zero => omega
  | succ fuel ih =>
    unfold loop
    rcases growPeekBuffer p.buffer with ⟨e | growth, buffer⟩
    · exact .refl _ _
    · refine (htail { p with buffer } _ _).bind ?_
      rintro ⟨poll, p₁⟩ hused
      cases poll using Poll.casesResult with
      | pending => exact hused.spent
      | error e =>
        by_cases he : e.kind = .interrupted
        · simp only [if_pos he]
          have hless : left p₁.reader < left p.reader := hused.2 (.inl he)
          exact (ih (p := p₁.truncate _)
            (hless.trans_le (Nat.le_of_lt_succ hfuel))).mono fun _ h => h.after hused.1
        · simp only [if_neg he]
          exact .of_ready _ hused.1
      | ok n =>
        by_cases hn : n = 0
        · simp only [if_pos hn]
          exact .of_ready _ hused.1
        · simp only [if_neg hn]
          have hless : left p₁.reader < left p.reader := hused.2 (Nat.pos_of_ne_zero hn)
          exact (ih (p := p₁.truncate _)
            (hless.trans_le (Nat.le_of_lt_succ hfuel))).mono fun _ h => h.after hused.1

theorem PeekToString.resume_halts (htail : TailUses left stalls tail) {fuel : Nat}
    {f : PeekToString R B} (hfuel : left f.peekable.reader < fuel) :
    (resume tail fuel f).Halts fun out =>
      Spent left stalls out.1 f.peekable.reader out.2.peekable.reader := by
  refine (loop_halts htail hfuel).bind ?_
  rintro ⟨poll, p⟩ hspent
  cases poll with
  | pending => exact ⟨hspent.1, fun hstalls _ => hspent.2 hstalls rfl⟩
  | ready loopResult =>
    refine (finishString_ends loopResult p.peeked f.buf).halts.bind ?_
    rintro ⟨result, buf⟩ -
    exact .of_ready _ hspent.1

theorem PeekToString.pollWith_halts (htail : TailUses left stalls tail) {fuel : Nat}
    {f : PeekToString R B} (hfuel : left f.peekable.reader < fuel) :
    (f.pollWith tail fuel).Halts fun out =>
      Spent left stalls out.1 f.peekable.reader out.2.peekable.reader := by
  unfold pollWith
  split
  · exact resume_halts htail hfuel
  · split
    · exact .refl _ _
    · exact resume_halts htail (f := { f with started := true }) hfuel

theorem FillPeekBuf.pollWith_halts (htail : TailUses left stalls tail) (f : FillPeekBuf R B) :
    (f.pollWith tail).Halts fun out =>
      Spent left stalls out.1 f.peeker.reader out.2.peeker.reader := by
  unfold pollWith
  by_cases hfull : f.cap = f.original
  · simp only [if_pos hfull]
    exact .refl _ _
  · simp only [if_neg hfull]
    rcases resize f.peeker.buffer f.cap with ⟨e | _, buffer⟩
    · exact .refl _ _
    · refine (htail { f.peeker with buffer } _ _).bind ?_
      rintro ⟨poll, p⟩ hused
      cases poll using Poll.casesResult with
      | pending => exact hused.spent
      | error e => exact .of_ready _ hused.1
      | ok n => exact .of_ready _ hused.1

end PeekableReader
