import PeekableReader.Async.Model
import PeekableReader.Io.Alike

/-!
# The futures on readers that cannot be told apart

As for the synchronous operations, with `TailSim` for the polls of the reader. The two sides
may poll their readers through different traits, so this is also how the two asynchronous
flavours are compared.
-/

namespace PeekableReader

open Buffer

variable {R R' B B' : Type} [Buffer B] [Buffer B']

/-- Polls of two readers with the same range of alike peek buffers agree. -/
def TailSim (S : R → R' → Prop) (T : B → B' → Prop) (tail : TailRead R B) (tail' : TailRead R' B') :
    Prop :=
  ∀ p q lo hi, Alike S T p q → Exec.Rel (Agree (Alike S T)) (tail p lo hi) (tail' q lo hi)

variable {S : R → R' → Prop} {T : B → B' → Prop} {tail : TailRead R B} {tail' : TailRead R' B'}

theorem pollRetry_alike (htail : TailSim S T tail tail') (hT : BufferSim T) (fuel : Nat)
    {p : Peekable R B} {q : Peekable R' B'} (h : Alike S T p q) (lo : Nat) :
    Exec.Rel (Agree (Alike S T)) (pollRetry tail fuel p lo) (pollRetry tail' fuel q lo) := by
  induction fuel generalizing p q with
  | zero => trivial
  | succ fuel ih =>
    unfold pollRetry
    rw [← h.peeked hT]
    refine (htail p q lo _ h).bind_agree ?_
    intro poll p₁ q₁ h₁
    cases poll using Poll.casesResult with
    | ok n => exact ⟨rfl, h₁⟩
    | pending => exact ⟨rfl, h₁⟩
    | error e =>
      by_cases he : e.kind = .interrupted
      · simp only [if_pos he]
        exact ih h₁
      · simp only [if_neg he]
        exact ⟨rfl, h₁⟩

/-! ## The futures, with alike peekable readers and the same progress -/

structure PeekExact.Sim (S : R → R' → Prop) (T : B → B' → Prop) (f : PeekExact R B)
    (g : PeekExact R' B') : Prop where
  peekable : PeekableReader.Alike S T f.peekable g.peekable
  buf : f.buf = g.buf
  filled : f.filled = g.filled

structure PeekToEnd.Sim (S : R → R' → Prop) (T : B → B' → Prop) (f : PeekToEnd R B)
    (g : PeekToEnd R' B') : Prop where
  peekable : PeekableReader.Alike S T f.peekable g.peekable
  buf : f.buf = g.buf
  prefixCopied : f.prefixCopied = g.prefixCopied

structure PeekToString.Sim (S : R → R' → Prop) (T : B → B' → Prop) (f : PeekToString R B)
    (g : PeekToString R' B') : Prop where
  peekable : PeekableReader.Alike S T f.peekable g.peekable
  buf : f.buf = g.buf
  started : f.started = g.started

structure FillPeekBuf.Sim (S : R → R' → Prop) (T : B → B' → Prop) (f : FillPeekBuf R B)
    (g : FillPeekBuf R' B') : Prop where
  peeker : PeekableReader.Alike S T f.peeker g.peeker
  original : f.original = g.original
  cap : f.cap = g.cap

variable [LawfulBuffer B] [LawfulBuffer B']

section

variable (htail : TailSim S T tail tail') (hT : BufferSim T)
include htail hT

theorem PeekExact.loop_sim (eof : IoError) (fuel : Nat) {f : PeekExact R B} {g : PeekExact R' B'}
    (h : f.Sim S T g) :
    Exec.Rel (Agree (PeekExact.Sim S T)) (loop tail eof fuel f) (loop tail' eof fuel g) := by
  induction fuel generalizing f g with
  | zero => trivial
  | succ fuel ih =>
    obtain ⟨p, buf, filled⟩ := f
    obtain ⟨q, _, _⟩ := g
    obtain ⟨h, rfl, rfl⟩ := h
    unfold loop
    simp only
    rw [← h.len_eq hT]
    by_cases hlt : filled < buf.length
    · simp only [if_pos hlt]
      rcases hres : resize p.buffer (len p.buffer + (buf.length - filled)) with ⟨_ | _, buffer⟩ <;>
        obtain ⟨buffer', hres', hbuffer⟩ := hT.resized h.buffer hres <;>
        simp only [hres']
      · exact ⟨rfl, h.with_buffer hbuffer, rfl, rfl⟩
      · rw [hT.asSlice hbuffer]
        refine (htail _ _ _ _ (h.with_buffer hbuffer)).bind_agree ?_
        intro poll p₁ q₁ h₁
        cases poll using Poll.casesResult with
        | pending => exact ⟨rfl, h₁.truncate hT _, rfl, rfl⟩
        | error e =>
          by_cases he : e.kind = .interrupted
          · simp only [if_pos he]
            exact ih ⟨h₁.truncate hT _, rfl, rfl⟩
          · simp only [if_neg he]
            exact ⟨rfl, h₁.truncate hT _, rfl, rfl⟩
        | ok n =>
          have h₂ := h₁.truncate hT (len p.buffer + n)
          by_cases hn : n = 0
          · simp only [if_pos hn]
            exact ⟨rfl, h₂, rfl, rfl⟩
          · simp only [if_neg hn, h₂.peeked hT]
            exact .same _ fun src => .same _ fun buf' => ih ⟨h₂, rfl, rfl⟩
    · simp only [if_neg hlt]
      exact ⟨rfl, h, rfl, rfl⟩

theorem PeekExact.pollWith_sim (eof : IoError) (fuel : Nat) {f : PeekExact R B}
    {g : PeekExact R' B'} (h : f.Sim S T g) :
    Exec.Rel (Agree (PeekExact.Sim S T)) (f.pollWith tail eof fuel) (g.pollWith tail' eof fuel) := by
  obtain ⟨p, buf, filled⟩ := f
  obtain ⟨q, _, _⟩ := g
  obtain ⟨h, rfl, rfl⟩ := h
  unfold pollWith
  simp only
  rw [← h.peeked hT]
  by_cases hfilled : filled = 0
  · simp only [if_pos hfilled]
    refine .same _ fun src => .same _ fun buf' => ?_
    by_cases htotal : min p.peeked.length buf.length = buf.length
    · simp only [if_pos htotal]
      exact ⟨rfl, h, rfl, rfl⟩
    · simp only [if_neg htotal]
      exact loop_sim htail hT eof fuel ⟨h, rfl, rfl⟩
  · simp only [if_neg hfilled]
    exact loop_sim htail hT eof fuel ⟨h, rfl, rfl⟩

theorem PeekToEnd.loop_sim (fuel : Nat) {f : PeekToEnd R B} {g : PeekToEnd R' B'}
    (h : f.Sim S T g) :
    Exec.Rel (Agree (PeekToEnd.Sim S T)) (loop tail fuel f) (loop tail' fuel g) := by
  induction fuel generalizing f g with
  | zero => trivial
  | succ fuel ih =>
    obtain ⟨p, buf, copied⟩ := f
    obtain ⟨q, _, _⟩ := g
    obtain ⟨h, rfl, rfl⟩ := h
    unfold loop
    simp only
    rw [← h.len_eq hT]
    rcases hres : growPeekBuffer p.buffer with ⟨_ | growth, buffer⟩ <;>
      obtain ⟨buffer', hres', hbuffer⟩ := hT.grown h.buffer hres <;>
      simp only [hres']
    · exact ⟨rfl, h.with_buffer hbuffer, rfl, rfl⟩
    · refine (htail _ _ _ _ (h.with_buffer hbuffer)).bind_agree ?_
      intro poll p₁ q₁ h₁
      cases poll using Poll.casesResult with
      | pending => exact ⟨rfl, h₁.truncate hT _, rfl, rfl⟩
      | error e =>
        by_cases he : e.kind = .interrupted
        · simp only [if_pos he]
          exact ih ⟨h₁.truncate hT _, rfl, rfl⟩
        · simp only [if_neg he]
          exact ⟨rfl, h₁.truncate hT _, rfl, rfl⟩
      | ok n =>
        by_cases hn : n = 0
        · have h₂ := h₁.truncate hT (len p.buffer)
          simp only [if_pos hn, h₂.len_eq hT]
          exact ⟨rfl, h₂, rfl, rfl⟩
        · have h₂ := h₁.truncate hT (len p.buffer + n)
          simp only [if_neg hn, h₂.peeked hT]
          exact .same _ fun chunk => ih ⟨h₂, rfl, rfl⟩

theorem PeekToEnd.pollWith_sim (fuel : Nat) {f : PeekToEnd R B} {g : PeekToEnd R' B'}
    (h : f.Sim S T g) :
    Exec.Rel (Agree (PeekToEnd.Sim S T)) (f.pollWith tail fuel) (g.pollWith tail' fuel) := by
  unfold pollWith
  rw [← h.prefixCopied]
  cases f.prefixCopied with
  | true => exact loop_sim htail hT fuel h
  | false =>
    exact loop_sim htail hT fuel ⟨h.peekable, by simp [h.buf, h.peekable.peeked hT], rfl⟩

theorem PeekToString.loop_sim (fuel : Nat) {p : Peekable R B} {q : Peekable R' B'}
    (h : PeekableReader.Alike S T p q) :
    Exec.Rel (Agree (PeekableReader.Alike S T)) (loop tail fuel p) (loop tail' fuel q) := by
  induction fuel generalizing p q with
  | zero => trivial
  | succ fuel ih =>
    unfold loop
    rw [← h.len_eq hT]
    rcases hres : growPeekBuffer p.buffer with ⟨_ | growth, buffer⟩ <;>
      obtain ⟨buffer', hres', hbuffer⟩ := hT.grown h.buffer hres <;>
      simp only [hres']
    · exact ⟨rfl, h.with_buffer hbuffer⟩
    · refine (htail _ _ _ _ (h.with_buffer hbuffer)).bind_agree ?_
      intro poll p₁ q₁ h₁
      cases poll using Poll.casesResult with
      | pending => exact ⟨rfl, h₁.truncate hT _⟩
      | error e =>
        by_cases he : e.kind = .interrupted
        · simp only [if_pos he]
          exact ih (h₁.truncate hT _)
        · simp only [if_neg he]
          exact ⟨rfl, h₁.truncate hT _⟩
      | ok n =>
        by_cases hn : n = 0
        · simp only [if_pos hn]
          exact ⟨rfl, h₁.truncate hT _⟩
        · simp only [if_neg hn]
          exact ih (h₁.truncate hT _)

theorem PeekToString.resume_sim (fuel : Nat) {f : PeekToString R B} {g : PeekToString R' B'}
    (h : f.Sim S T g) :
    Exec.Rel (Agree (PeekToString.Sim S T)) (resume tail fuel f) (resume tail' fuel g) := by
  unfold resume
  refine (loop_sim htail hT fuel h.peekable).bind_agree ?_
  intro poll p₁ q₁ h₁
  cases poll with
  | pending => exact ⟨rfl, h₁, h.buf, h.started⟩
  | ready result =>
    simp only [h.buf, h₁.peeked hT]
    exact .same _ fun out => ⟨rfl, h₁, rfl, h.started⟩

theorem PeekToString.pollWith_sim (fuel : Nat) {f : PeekToString R B} {g : PeekToString R' B'}
    (h : f.Sim S T g) :
    Exec.Rel (Agree (PeekToString.Sim S T)) (f.pollWith tail fuel) (g.pollWith tail' fuel) := by
  unfold pollWith
  rw [← h.started, ← h.peekable.peeked hT]
  cases f.started with
  | true => exact resume_sim htail hT fuel h
  | false =>
    cases earlyReject f.peekable.peeked with
    | some e => exact ⟨rfl, h⟩
    | none => exact resume_sim htail hT fuel ⟨h.peekable, h.buf, rfl⟩

omit [LawfulBuffer B] [LawfulBuffer B'] in
theorem FillPeekBuf.pollWith_sim {f : FillPeekBuf R B} {g : FillPeekBuf R' B'}
    (h : f.Sim S T g) :
    Exec.Rel (Agree (FillPeekBuf.Sim S T)) (f.pollWith tail) (g.pollWith tail') := by
  obtain ⟨p, original, cap⟩ := f
  obtain ⟨q, _, _⟩ := g
  obtain ⟨h, rfl, rfl⟩ := h
  unfold pollWith
  simp only
  by_cases hfull : cap = original
  · simp only [if_pos hfull]
    exact ⟨rfl, h, rfl, rfl⟩
  · simp only [if_neg hfull]
    rcases hres : resize p.buffer cap with ⟨_ | _, buffer⟩ <;>
      obtain ⟨buffer', hres', hbuffer⟩ := hT.resized h.buffer hres <;>
      simp only [hres']
    · exact ⟨rfl, h.with_buffer hbuffer, rfl, rfl⟩
    · rw [hT.asSlice hbuffer]
      refine (htail _ _ _ _ (h.with_buffer hbuffer)).bind_agree ?_
      intro poll p₁ q₁ h₁
      cases poll using Poll.casesResult with
      | ok n => exact ⟨rfl, h₁.truncate hT _, rfl, rfl⟩
      | error e => exact ⟨rfl, h₁.truncate hT _, rfl, rfl⟩
      | pending => exact ⟨rfl, h₁.truncate hT _, rfl, rfl⟩

end

theorem FillPeekBuf.new_sim (hT : BufferSim T) (hcap : SameCapacity T) {p : Peekable R B}
    {q : Peekable R' B'} (h : PeekableReader.Alike S T p q) : (new p).Sim S T (new q) :=
  ⟨h, h.len_eq hT, hcap _ _ h.buffer⟩

end PeekableReader
