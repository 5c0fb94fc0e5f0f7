import PeekableReader.Sync.Session

/-!
# How far ahead an operation looks

A peek at `n` bytes never leaves more than `n` in the peek buffer, unless there were more
before. A read only ever takes bytes out of it.
-/

namespace PeekableReader

open Buffer

variable {R B : Type} [Read R] [Buffer B] [LawfulBuffer B]

namespace Peekable

theorem read_shrinks (p : Peekable R B) (buf : List UInt8) :
    (p.read buf).Post fun out => out.2.2.peeked.length ≤ p.peeked.length := by
  unfold read
  by_cases hpos : p.peeked.length > 0
  · simp only [if_pos hpos]
    by_cases hlt : buf.length < p.peeked.length
    · obtain ⟨b, hb, hdrop⟩ := LawfulBuffer.consume_ok p.buffer (Nat.le_of_lt hlt)
      simp only [if_pos hlt, hb]
      refine .skip _ fun src => .skip _ fun dst => Exec.post_ok.mpr ?_
      rw [peeked_mk, hdrop, List.length_drop]
      exact Nat.sub_le _ _
    · simp only [if_neg hlt]
      by_cases heq : buf.length = p.peeked.length
      · simp only [if_pos heq]
        exact .skip _ fun dst => Exec.post_ok.mpr (by simp)
      · simp only [if_neg heq]
        refine .skip _ fun dst => .skip _ fun rest => ?_
        rcases Read.read p.reader rest with ⟨_ | _, rest', reader⟩
        · exact Exec.post_ok.mpr (by simp)
        · exact Exec.post_ok.mpr (by simp)
  · simp only [if_neg hpos]
    exact Exec.post_ok.mpr (Nat.le_refl _)

variable [Ledger R UInt8] [LawfulRead R]

theorem peek_ahead (fuel : Nat) (p : Peekable R B) (buf : List UInt8) :
    (p.peek fuel buf).Post fun out => out.2.2.peeked.length ≤ max p.peeked.length buf.length := by
  have hsame : p.peeked.length ≤ max p.peeked.length buf.length := Nat.le_max_left _ _
  unfold peek
  simp only [len_buffer]
  by_cases hpos : p.peeked.length > 0
  · simp only [if_pos hpos]
    by_cases hlt : buf.length < p.peeked.length
    · simp only [if_pos hlt]
      exact .skip _ fun src => .skip _ fun dst => Exec.post_ok.mpr hsame
    · simp only [if_neg hlt]
      by_cases heq : buf.length = p.peeked.length
      · simp only [if_pos heq]
        exact .skip _ fun dst => Exec.post_ok.mpr hsame
      · simp only [if_neg heq]
        rcases hres : resize p.buffer buf.length with ⟨e | _, buffer⟩
        · exact Exec.post_ok.mpr ((Fetched.of_resize_error hres).length_nil.trans_le hsame)
        · refine (readRetry_sat fuel (Spare.of_resize hres (by omega))).toPost.bind ?_
          rintro ⟨result, p₁⟩ ⟨hread, -⟩
          cases result with
          | ok n =>
            refine .skip _ fun dst => Exec.post_ok.mpr ?_
            have hle := ReadInto.length_le hread
            rw [Nat.add_comm _ n] at hle
            exact hle.trans (by omega)
          | error e => exact Exec.post_ok.mpr ((Spare.rollback hread).length_nil.trans_le hsame)
  · simp only [if_neg hpos]
    by_cases hzero : buf.length = 0
    · simp only [if_pos hzero]
      exact Exec.post_ok.mpr hsame
    · simp only [if_neg hzero]
      rcases hres : resize p.buffer (p.peeked.length + buf.length) with ⟨e | _, buffer⟩
      · exact Exec.post_ok.mpr ((Fetched.of_resize_error hres).length_nil.trans_le hsame)
      · refine (readRetry_sat fuel (Spare.of_resize hres (by omega))).toPost.bind ?_
        rintro ⟨result, p₁⟩ ⟨hread, -⟩
        cases result with
        | ok n =>
          refine .skip _ fun src => .skip _ fun dst => Exec.post_ok.mpr ?_
          exact (ReadInto.length_le hread).trans (by omega)
        | error e => exact Exec.post_ok.mpr ((Spare.rollback hread).length_nil.trans_le hsame)

theorem peekVectored_ahead (fuel : Nat) (p : Peekable R B) {n : Nat} {bufs : List (List UInt8)}
    (hbufs : ∀ buf ∈ bufs, buf.length ≤ n) :
    (p.peekVectored fuel bufs).Post fun out => out.2.2.peeked.length ≤ max p.peeked.length n := by
  induction bufs with
  | nil =>
    refine (peek_ahead fuel p []).bind ?_
    rintro ⟨result, _, p₁⟩ hle
    exact Exec.post_ok.mpr (hle.trans (by simp))
  | cons b bufs ih =>
    obtain ⟨hb, hbufs⟩ := List.forall_mem_cons.mp hbufs
    unfold peekVectored
    by_cases hempty : b.isEmpty = true
    · simp only [if_pos hempty]
      refine (ih hbufs).bind ?_
      rintro ⟨result, bufs', p₁⟩ hle
      exact Exec.post_ok.mpr hle
    · simp only [if_neg hempty]
      refine (peek_ahead fuel p b).bind ?_
      rintro ⟨result, b', p₁⟩ hle
      exact Exec.post_ok.mpr (hle.trans (max_le_max_left _ hb))

end Peekable

/-- The operations that look at most `n` bytes ahead. -/
def Op.Within (n : Nat) : Op → Prop
  | .peek buf => buf.length ≤ n
  | .peekVectored bufs => ∀ buf ∈ bufs, buf.length ≤ n
  | .peekExact buf => buf.length ≤ n
  | .peekToEnd _ => False
  | .peekToString _ => False
  | .fillPeekBuf => False
  | _ => True

theorem Peekable.perform_ahead [Ledger R UInt8] [LawfulRead R] {n : Nat} (fuel : Nat) (p : Peekable R B)
    {op : Op} (hop : op.Within n) :
    (p.perform fuel op).Post fun out => out.2.peeked.length ≤ max p.peeked.length n := by
  cases op with
  | read buf =>
    refine (read_shrinks p buf).bind ?_
    rintro ⟨result, buf', p₁⟩ hle
    exact Exec.post_ok.mpr (hle.trans (Nat.le_max_left _ _))
  | peek buf =>
    refine (peek_ahead fuel p buf).bind ?_
    rintro ⟨result, buf', p₁⟩ hle
    exact Exec.post_ok.mpr (hle.trans (max_le_max_left _ hop))
  | peekVectored bufs =>
    refine (peekVectored_ahead fuel p hop).bind ?_
    rintro ⟨result, bufs', p₁⟩ hle
    exact Exec.post_ok.mpr hle
  | peekExact buf =>
    refine (peekExact_sat fuel p buf).toPost.bind ?_
    rintro ⟨_ | _, buf', p₁⟩ hpeeks
    · exact Exec.post_ok.mpr (hpeeks.bounded.trans (max_le_max_left _ hop))
    · exact Exec.post_ok.mpr (hpeeks.bounded.trans (max_le_max_left _ hop))
  | peekToEnd buf => exact hop.elim
  | peekToString buf => exact hop.elim
  | fillPeekBuf => exact hop.elim
  | consume =>
    exact Exec.post_ok.mpr ((congrArg List.length p.peeked_consume).trans_le (Nat.zero_le _))
  | consumeInPlace =>
    exact Exec.post_ok.mpr ((congrArg List.length p.peeked_consumeInPlace).trans_le (Nat.zero_le _))

end PeekableReader
