import PeekableReader.Io.Alike
import PeekableReader.Sync.Model

/-!
# The synchronous operations on readers that cannot be told apart

One lemma for each operation: on peekable readers that are alike it gives the same result
and the same destination, panics or runs out of fuel together, and leaves them alike. The
readers may hand over what they like, as long as they keep to the length of the slice.
-/

namespace PeekableReader.Peekable

open Buffer

variable {R R' B B' : Type} [Read R] [BoundedRead R] [Read R'] [Buffer B] [LawfulBuffer B]
  [Buffer B'] [LawfulBuffer B'] {S : R → R' → Prop} {T : B → B' → Prop} {p : Peekable R B}
  {q : Peekable R' B'} (hS : ReadSim S) (hT : BufferSim T)

include hS hT

omit [LawfulBuffer B] [LawfulBuffer B'] in
theorem readSpare_alike (h : Alike S T p q) (lo hi : Nat) :
    Exec.Rel (Agree (Alike S T)) (readSpare p lo hi) (readSpare q lo hi) := by
  unfold readSpare
  rw [← h.peeked hT]
  by_cases hrange : lo ≤ hi ∧ hi ≤ p.peeked.length
  · obtain ⟨hlo, hhi⟩ := hrange
    simp only [slice_eq p.peeked hlo hhi, Exec.ok_bind]
    obtain ⟨hres, hspare, hreader⟩ := hS _ _ ((p.peeked.take hi).drop lo) h.reader
    have hlen := BoundedRead.read_length p.reader ((p.peeked.take hi).drop lo)
    rw [← hres, ← hspare]
    refine ⟨rfl, hreader, hT.setSlice h.buffer ?_, h.bufCap⟩
    change _ = p.peeked.length
    grind
  · simp only [slice, if_neg hrange]
    exact rfl

omit [LawfulBuffer B] [LawfulBuffer B'] in
theorem readRetry_alike (fuel : Nat) (h : Alike S T p q) (lo : Nat) :
    Exec.Rel (Agree (Alike S T)) (readRetry fuel p lo) (readRetry fuel q lo) := by
  induction fuel generalizing p q with
  | zero => trivial
  | succ fuel ih =>
    unfold readRetry
    rw [← h.peeked hT]
    refine (readSpare_alike hS hT h lo _).bind_agree ?_
    intro res p₁ q₁ h₁
    cases res with
    | ok n => exact ⟨rfl, h₁⟩
    | error e =>
      by_cases he : e.kind = .interrupted
      · simp only [if_pos he]
        exact ih h₁
      · simp only [if_neg he]
        exact ⟨rfl, h₁⟩

omit [BoundedRead R] [LawfulBuffer B] [LawfulBuffer B'] in
theorem read_alike (h : Alike S T p q) (buf : List UInt8) :
    Exec.Rel (Agree (Agree (Alike S T))) (read p buf) (read q buf) := by
  unfold read
  rw [← h.peeked hT]
  by_cases hpos : p.peeked.length > 0
  · simp only [if_pos hpos]
    by_cases hlt : buf.length < p.peeked.length
    · simp only [if_pos hlt]
      refine .same _ fun src => .same _ fun buf' => ?_
      refine (h.consume_front hT (Nat.le_of_lt hlt)).bind ?_
      intro b b' hb
      exact ⟨rfl, rfl, hb⟩
    · simp only [if_neg hlt]
      by_cases heq : buf.length = p.peeked.length
      · simp only [if_pos heq]
        exact .same _ fun buf' => ⟨rfl, rfl, h.clear hT⟩
      · simp only [if_neg heq]
        refine .same _ fun buf' => .same _ fun rest => ?_
        obtain ⟨hres, hrest, hreader⟩ := hS _ _ rest h.reader
        rw [← hres, ← hrest]
        cases (Read.read p.reader rest).1 with
        | ok n => exact ⟨rfl, rfl, (h.clear hT).with_reader hreader⟩
        | error e => exact ⟨rfl, rfl, (h.clear hT).with_reader hreader⟩
  · simp only [if_neg hpos]
    obtain ⟨hres, hrest, hreader⟩ := hS _ _ buf h.reader
    exact ⟨hres, hrest, h.with_reader hreader⟩

theorem peek_alike (fuel : Nat) (h : Alike S T p q) (buf : List UInt8) :
    Exec.Rel (Agree (Agree (Alike S T))) (peek fuel p buf) (peek fuel q buf) := by
  unfold peek
  rw [← h.peeked hT, ← h.len_eq hT]
  by_cases hpos : len p.buffer > 0
  · simp only [if_pos hpos]
    by_cases hlt : buf.length < len p.buffer
    · simp only [if_pos hlt]
      exact .same _ fun src => .same _ fun buf' => ⟨rfl, rfl, h⟩
    · simp only [if_neg hlt]
      by_cases heq : buf.length = len p.buffer
      · simp only [if_pos heq]
        exact .same _ fun buf' => ⟨rfl, rfl, h⟩
      · simp only [if_neg heq]
        rcases hres : resize p.buffer buf.length with ⟨_ | _, buffer⟩ <;>
          obtain ⟨buffer', hres', hbuffer⟩ := hT.resized h.buffer hres <;>
          simp only [hres']
        · exact ⟨rfl, rfl, h.with_buffer hbuffer⟩
        · refine (readRetry_alike hS hT fuel (h.with_buffer hbuffer) _).bind_agree ?_
          intro res p₁ q₁ h₁
          cases res with
          | ok n =>
            have h₂ := h₁.truncate hT (n + len p.buffer)
            simp only [h₂.peeked hT]
            exact .same _ fun buf' => ⟨rfl, rfl, h₂⟩
          | error e => exact ⟨rfl, rfl, h₁.truncate hT _⟩
  · simp only [if_neg hpos]
    by_cases hzero : buf.length = 0
    · simp only [if_pos hzero]
      exact ⟨rfl, rfl, h⟩
    · simp only [if_neg hzero]
      rcases hres : resize p.buffer (len p.buffer + buf.length) with ⟨_ | _, buffer⟩ <;>
        obtain ⟨buffer', hres', hbuffer⟩ := hT.resized h.buffer hres <;>
        simp only [hres']
      · exact ⟨rfl, rfl, h.with_buffer hbuffer⟩
      · refine (readRetry_alike hS hT fuel (h.with_buffer hbuffer) _).bind_agree ?_
        intro res p₁ q₁ h₁
        cases res with
        | ok n =>
          have h₂ := h₁.truncate hT (len p.buffer + n)
          simp only [h₂.peeked hT]
          exact .same _ fun src => .same _ fun buf' => ⟨rfl, rfl, h₂⟩
        | error e => exact ⟨rfl, rfl, h₁.truncate hT _⟩

theorem peekVectored_alike (fuel : Nat) (h : Alike S T p q) (bufs : List (List UInt8)) :
    Exec.Rel (Agree (Agree (Alike S T))) (peekVectored fuel p bufs) (peekVectored fuel q bufs) := by
  induction bufs with
  | nil =>
    refine (peek_alike hS hT fuel h []).bind_agree₂ ?_
    intro res _ p₁ q₁ h₁
    exact ⟨rfl, rfl, h₁⟩
  | cons b bufs ih =>
    unfold peekVectored
    by_cases hb : b.isEmpty = true
    · simp only [if_pos hb]
      refine ih.bind_agree₂ ?_
      intro res bufs' p₁ q₁ h₁
      exact ⟨rfl, rfl, h₁⟩
    · simp only [if_neg hb]
      refine (peek_alike hS hT fuel h b).bind_agree₂ ?_
      intro res b' p₁ q₁ h₁
      exact ⟨rfl, rfl, h₁⟩

theorem peekToEndLoop_alike (fuel : Nat) (h : Alike S T p q) (buf : List UInt8) :
    Exec.Rel (Agree (Agree (Alike S T))) (peekToEndLoop fuel p buf) (peekToEndLoop fuel q buf) := by
  induction fuel generalizing p q buf with
  | zero => trivial
  | succ fuel ih =>
    unfold peekToEndLoop
    rw [← h.len_eq hT]
    rcases hres : growPeekBuffer p.buffer with ⟨_ | growth, buffer⟩ <;>
      obtain ⟨buffer', hres', hbuffer⟩ := hT.grown h.buffer hres <;>
      simp only [hres']
    · exact ⟨rfl, rfl, h.with_buffer hbuffer⟩
    · refine (readSpare_alike hS hT (h.with_buffer hbuffer) _ _).bind_agree ?_
      intro res p₁ q₁ h₁
      cases res with
      | ok n =>
        by_cases hn : n = 0
        · have h₂ := h₁.truncate hT (len p.buffer)
          simp only [if_pos hn, h₂.len_eq hT]
          exact ⟨rfl, rfl, h₂⟩
        · have h₂ := h₁.truncate hT (len p.buffer + n)
          simp only [if_neg hn, h₂.peeked hT]
          exact .same _ fun chunk => ih h₂ _
      | error e =>
        have h₂ := h₁.truncate hT (len p.buffer)
        by_cases he : e.kind = .interrupted
        · simp only [if_pos he]
          exact ih h₂ buf
        · simp only [if_neg he]
          exact ⟨rfl, rfl, h₂⟩

theorem peekToEnd_alike (fuel : Nat) (h : Alike S T p q) (buf : List UInt8) :
    Exec.Rel (Agree (Agree (Alike S T))) (peekToEnd fuel p buf) (peekToEnd fuel q buf) := by
  unfold peekToEnd
  rw [← h.peeked hT]
  exact peekToEndLoop_alike hS hT fuel h _

theorem peekToStringLoop_alike (fuel : Nat) (h : Alike S T p q) :
    Exec.Rel (Agree (Alike S T)) (peekToStringLoop fuel p) (peekToStringLoop fuel q) := by
  induction fuel generalizing p q with
  | zero => trivial
  | succ fuel ih =>
    unfold peekToStringLoop
    rw [← h.len_eq hT]
    rcases hres : growPeekBuffer p.buffer with ⟨_ | growth, buffer⟩ <;>
      obtain ⟨buffer', hres', hbuffer⟩ := hT.grown h.buffer hres <;>
      simp only [hres']
    · exact ⟨rfl, h.with_buffer hbuffer⟩
    · refine (readSpare_alike hS hT (h.with_buffer hbuffer) _ _).bind_agree ?_
      intro res p₁ q₁ h₁
      cases res with
      | ok n =>
        by_cases hn : n = 0
        · simp only [if_pos hn]
          exact ⟨rfl, h₁.truncate hT _⟩
        · simp only [if_neg hn]
          exact ih (h₁.truncate hT _)
      | error e =>
        by_cases he : e.kind = .interrupted
        · simp only [if_pos he]
          exact ih (h₁.truncate hT _)
        · simp only [if_neg he]
          exact ⟨rfl, h₁.truncate hT _⟩

theorem peekToString_alike (fuel : Nat) (h : Alike S T p q) (buf : Str) :
    Exec.Rel (Agree (Agree (Alike S T))) (peekToString fuel p buf) (peekToString fuel q buf) := by
  unfold peekToString
  rw [← h.peeked hT]
  cases earlyReject p.peeked with
  | some e => exact ⟨rfl, rfl, h⟩
  | none =>
    refine (peekToStringLoop_alike hS hT fuel h).bind_agree ?_
    intro res p₁ q₁ h₁
    simp only [h₁.peeked hT]
    exact .same _ fun out => ⟨rfl, rfl, h₁⟩

theorem peekExactLoop_alike (fuel : Nat) (h : Alike S T p q) (buf : List UInt8) (filled : Nat) :
    Exec.Rel (Agree (Agree (Alike S T))) (peekExactLoop fuel p buf filled)
      (peekExactLoop fuel q buf filled) := by
  induction fuel generalizing p q buf filled with
  | zero => trivial
  | succ fuel ih =>
    unfold peekExactLoop
    rw [← h.len_eq hT]
    by_cases hlt : filled < buf.length
    · simp only [if_pos hlt]
      rcases hres : resize p.buffer (len p.buffer + (buf.length - filled)) with ⟨_ | _, buffer⟩ <;>
        obtain ⟨buffer', hres', hbuffer⟩ := hT.resized h.buffer hres <;>
        simp only [hres']
      · exact ⟨rfl, rfl, h.with_buffer hbuffer⟩
      · refine (readRetry_alike hS hT (fuel + 1) (h.with_buffer hbuffer) _).bind_agree ?_
        intro res p₁ q₁ h₁
        cases res with
        | error e => exact ⟨rfl, rfl, h₁.truncate hT _⟩
        | ok n =>
          have h₂ := h₁.truncate hT (len p.buffer + n)
          by_cases hn : n = 0
          · simp only [if_pos hn]
            exact ⟨rfl, rfl, h₂⟩
          · simp only [if_neg hn, h₂.peeked hT]
            exact .same _ fun src => .same _ fun buf' => ih h₂ buf' _
    · simp only [if_neg hlt]
      exact ⟨rfl, rfl, h⟩

theorem peekExact_alike (fuel : Nat) (h : Alike S T p q) (buf : List UInt8) :
    Exec.Rel (Agree (Agree (Alike S T))) (peekExact fuel p buf) (peekExact fuel q buf) := by
  unfold peekExact
  rw [← h.peeked hT, ← h.len_eq hT]
  by_cases hle : buf.length ≤ len p.buffer
  · simp only [if_pos hle]
    exact .same _ fun src => .same _ fun buf' => ⟨rfl, rfl, h⟩
  · simp only [if_neg hle]
    exact .same _ fun buf' => peekExactLoop_alike hS hT fuel h buf' _

/-- Filling the peek buffer is the one operation that reads its capacity. -/
theorem fillPeekBuf_alike (hcap : SameCapacity T) (fuel : Nat) (h : Alike S T p q) :
    Exec.Rel (Agree (Alike S T)) (fillPeekBuf fuel p) (fillPeekBuf fuel q) := by
  unfold fillPeekBuf
  rw [← hcap _ _ h.buffer, ← h.len_eq hT]
  rcases hres : resize p.buffer (capacity p.buffer) with ⟨_ | _, buffer⟩ <;>
    obtain ⟨buffer', hres', hbuffer⟩ := hT.resized h.buffer hres <;>
    simp only [hres, hres']
  · exact ⟨rfl, h.with_buffer hbuffer⟩
  · refine (readRetry_alike hS hT fuel (h.with_buffer hbuffer) _).bind_agree ?_
    intro res p₁ q₁ h₁
    cases res with
    | ok n => exact ⟨rfl, h₁.truncate hT _⟩
    | error e => exact ⟨rfl, h₁.truncate hT _⟩

end PeekableReader.Peekable
