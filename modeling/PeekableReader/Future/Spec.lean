import PeekableReader.Async.Spec
import PeekableReader.Future.Model

/-!
# Specifications of the `future` flavour

`poll_read` and `poll_peek` meet the postconditions of the synchronous operations, with
a poll that is pending or fails counted as having handed over nothing.
-/

namespace PeekableReader.Future

open Buffer Ledger

variable {R B : Type} [AsyncRead R] [Ledger R UInt8] [LawfulAsyncRead R] [Buffer B]
  [LawfulBuffer B]

theorem readTail_lawful : LawfulTail (readTail : TailRead R B) where
  readInto {p₀ p room lo hi} h hlo hhi := by
    obtain ⟨scratch, hp, rfl, hrest⟩ := h
    subst hlo hhi
    rcases hr : AsyncRead.pollRead p.reader scratch with ⟨poll, scratch', reader⟩
    obtain ⟨hlen, d, hd, hsome, hnone⟩ := LawfulAsyncRead.pollRead_spec hr
    simp only [readTail, hp, slice_append_right, Exec.ok_bind, hr, Exec.pure_eq, Exec.sat_ok,
      List.take_left]
    rw [← List.length_append, List.drop_length, List.append_nil]
    exact Spare.readInto hp hrest hlen hd hsome hnone
  short {p lo} h out := by
    have hslice : slice p.peeked lo p.peeked.length = .panic .sliceRange := by
      simp [slice]; omega
    simp [readTail, hslice]

theorem pollRead_sat (p : Peekable R B) (buf : List UInt8) :
    (pollRead p buf).Sat fun (poll, buf', p') => Delivers p buf poll.handed buf' p' := by
  simp only [pollRead, Peekable.len_buffer]
  by_cases hpos : p.peeked.length > 0
  · simp only [if_pos hpos]
    by_cases hlt : buf.length < p.peeked.length
    · obtain ⟨b, hb, hdrop⟩ := LawfulBuffer.consume_ok p.buffer (n := buf.length) (by
        change _ ≤ p.peeked.length; omega)
      have hcopy : buf.length = (p.peeked.take buf.length).length := by grind
      simp only [if_pos hlt, slice_front p.peeked (Nat.le_of_lt hlt), Exec.ok_bind,
        copyFromSlice_eq hcopy, hb, Exec.pure_eq, Exec.sat_ok]
      refine ⟨Nat.le_refl _, hcopy.symm, ?_⟩
      rw [List.take_take, Nat.min_self]
      exact Peekable.hands_take p hdrop
    · simp only [if_neg hlt]
      by_cases heq : buf.length = p.peeked.length
      · simp only [if_pos heq, copyFromSlice_eq heq, Exec.ok_bind, Exec.pure_eq, Exec.sat_ok]
        refine ⟨Nat.le_refl _, heq.symm, ?_⟩
        simpa [heq] using Peekable.hands_clear p (Ledger.refl p.reader)
      · have hge : p.peeked.length ≤ buf.length := by omega
        simp only [if_neg heq, copyInto_front buf rfl hge, Exec.ok_bind,
          List.length_append, slice_append_right, List.take_left]
        rcases hr : AsyncRead.pollRead p.reader (buf.drop p.peeked.length) with
          ⟨poll, rest, reader⟩
        obtain ⟨hlen, d, hd, hsome, hnone⟩ := LawfulAsyncRead.pollRead_spec hr
        rw [List.length_drop] at hlen
        have hserved (hd : Hands p.reader [] reader) :
            Delivers p buf (some p.peeked.length) (p.peeked ++ rest)
              { p with reader, buffer := clear p.buffer } :=
          ⟨hge, by grind, by simpa using Peekable.hands_clear p hd⟩
        cases poll using Poll.casesResult with
        | ok m =>
          obtain ⟨hm, rfl⟩ := hsome m rfl
          rw [List.length_drop] at hm
          refine ⟨by omega, by grind, ?_⟩
          rw [Nat.add_comm, take_append_add]
          exact Peekable.hands_clear p hd
        | error e => exact hserved (hnone rfl ▸ hd)
        | pending => exact hserved (hnone rfl ▸ hd)
  · simp only [if_neg hpos]
    have hnil : p.peeked = [] := List.eq_nil_of_length_eq_zero (by omega)
    rcases hr : AsyncRead.pollRead p.reader buf with ⟨poll, buf', reader⟩
    obtain ⟨hlen, d, hd, hsome, hnone⟩ := LawfulAsyncRead.pollRead_spec hr
    cases poll using Poll.casesResult with
    | ok m =>
      obtain ⟨hm, rfl⟩ := hsome m rfl
      exact ⟨hm, hlen, Peekable.hands_reader p hnil hd⟩
    | error e =>
      exact ⟨hlen, Peekable.hands_reader p hnil (hnone rfl ▸ hd)⟩
    | pending => exact ⟨hlen, Peekable.hands_reader p hnil (hnone rfl ▸ hd)⟩

theorem pollPeek_sat (fuel : Nat) (p : Peekable R B) (buf : List UInt8) :
    (pollPeek fuel p buf).Sat fun (poll, buf', p') => Peeks p buf poll.handed buf' p' := by
  simp only [pollPeek, Peekable.len_buffer]
  by_cases hpos : p.peeked.length > 0
  · simp only [if_pos hpos]
    by_cases hlt : buf.length < p.peeked.length
    · have hcopy : buf.length = (p.peeked.take buf.length).length := by grind
      simp only [if_pos hlt, slice_front p.peeked (Nat.le_of_lt hlt), Exec.ok_bind,
        copyFromSlice_eq hcopy, Exec.pure_eq, Exec.sat_ok]
      exact Peeks.covered p buf (Nat.le_of_lt hlt)
    · simp only [if_neg hlt]
      by_cases heq : buf.length = p.peeked.length
      · simp only [if_pos heq, copyFromSlice_eq heq, Exec.ok_bind, Exec.pure_eq, Exec.sat_ok]
        simpa [heq] using Peeks.covered p buf (Nat.le_of_eq heq)
      · simp only [if_neg heq]
        rcases hres : resize p.buffer buf.length with ⟨_ | _, buffer⟩
        · exact ⟨rfl, .of_resize_error hres⟩
        · refine (pollRetry_sat readTail_lawful fuel (Spare.of_resize hres (by omega))).bind ?_
          intro out hread
          obtain ⟨poll, p₁⟩ := out
          cases poll using Poll.casesResult with
          | ok n =>
            obtain ⟨hlen, hle, hpeek⟩ := Peeks.of_readInto buf hread (by omega)
            simp only [Nat.add_comm n, copyInto_front buf hlen hle, Exec.ok_bind, Exec.pure_eq,
              Exec.sat_ok]
            exact hpeek
          | error e =>
            have hf := Spare.rollback hread
            by_cases he : e.kind = .wouldBlock
            · obtain ⟨hcopy, hpeek⟩ := Peeks.of_rollback buf hf (by omega)
              simp only [if_pos he, hcopy, Exec.ok_bind, Exec.pure_eq, Exec.sat_ok]
              exact hpeek
            · simp only [if_neg he]
              exact ⟨rfl, hf⟩
          | pending =>
            obtain ⟨hcopy, hpeek⟩ := Peeks.of_rollback buf (Spare.rollback hread) (by omega)
            simp only [hcopy, Exec.ok_bind, Exec.pure_eq, Exec.sat_ok]
            exact hpeek
  · have hnil : p.peeked.length = 0 := by omega
    simp only [if_neg hpos]
    by_cases hzero : buf.length = 0
    · simp only [if_pos hzero, Exec.pure_eq, Exec.sat_ok]
      simpa [hzero, List.eq_nil_of_length_eq_zero hzero] using
        Peeks.covered p buf (by omega)
    · simp only [if_neg hzero]
      rcases hres : resize p.buffer (p.peeked.length + buf.length) with ⟨_ | _, buffer⟩
      · exact ⟨rfl, .of_resize_error hres⟩
      · refine (pollRetry_sat readTail_lawful fuel (Spare.of_resize hres (by omega))).bind ?_
        intro out hread
        obtain ⟨poll, p₁⟩ := out
        cases poll using Poll.casesResult with
        | ok n =>
          obtain ⟨hlen, hle, hpeek⟩ := Peeks.of_readInto buf hread (by omega)
          simp only [hnil, Nat.zero_add] at hlen hle hpeek ⊢
          have hsrc : slice (p₁.truncate n).peeked 0 n = .ok (p₁.truncate n).peeked := by
            rw [slice_front _ (Nat.le_of_eq hlen.symm), List.take_of_length_le (Nat.le_of_eq hlen)]
          simp only [hsrc, copyInto_front buf hlen hle, Exec.ok_bind, Exec.pure_eq, Exec.sat_ok]
          exact hpeek
        | error e =>
          have hf := Spare.rollback hread
          by_cases he : e.kind = .wouldBlock
          · simp only [if_pos he]
            exact ⟨rfl, hf⟩
          · simp only [if_neg he]
            exact ⟨rfl, hf⟩
        | pending => exact ⟨rfl, Spare.rollback hread⟩

theorem pollPeekVectored_sat (fuel : Nat) (p : Peekable R B) (bufs : List (List UInt8)) :
    (pollPeekVectored fuel p bufs).Sat fun (poll, bufs', p') =>
      PeeksVectored p bufs poll.handed bufs' p' := by
  induction bufs with
  | nil =>
    refine (pollPeek_sat fuel p []).bind ?_
    intro out hpeek
    obtain ⟨poll, buf', p'⟩ := out
    exact hpeek.vectored_nil
  | cons b bufs ih =>
    unfold pollPeekVectored
    by_cases hb : b.isEmpty = true
    · simp only [if_pos hb]
      refine ih.bind ?_
      intro out hpeek
      obtain ⟨poll, bufs', p'⟩ := out
      exact hpeek.cons_nil (List.isEmpty_iff.mp hb)
    · simp only [if_neg hb]
      refine (pollPeek_sat fuel p b).bind ?_
      intro out hpeek
      obtain ⟨poll, b', p'⟩ := out
      exact hpeek.vectored bufs

theorem Peek.poll_sat (fuel : Nat) (f : Peek R B) :
    (Peek.poll fuel f).Sat fun (poll, f') =>
      Peeks f.peekable f.buf poll.handed f'.buf f'.peekable := by
  refine (pollPeek_sat fuel f.peekable f.buf).bind ?_
  intro out h
  obtain ⟨poll, buf', p'⟩ := out
  exact h

theorem PeekVectored.poll_sat (fuel : Nat) (f : PeekVectored R B) :
    (PeekVectored.poll fuel f).Sat fun (poll, f') =>
      PeeksVectored f.peekable f.bufs poll.handed f'.bufs f'.peekable := by
  refine (pollPeekVectored_sat fuel f.peekable f.bufs).bind ?_
  intro out h
  obtain ⟨poll, bufs', p'⟩ := out
  exact h

end PeekableReader.Future
