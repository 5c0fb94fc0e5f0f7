import PeekableReader.Io.Spare
import PeekableReader.Sync.Model

/-!
# Specifications of the synchronous operations

One lemma for each operation, for a lawful reader and a lawful buffer: it does not
panic, it moves bytes from the reader to the end of the peek buffer only, and what it
reports to the caller is read off the peek buffer it leaves.
-/

namespace PeekableReader.Peekable

open Buffer Ledger

variable {R B : Type} [Read R] [Ledger R UInt8] [LawfulRead R] [Buffer B] [LawfulBuffer B]
  {p₀ p : Peekable R B} {room : Nat}

theorem readSpare_sat (h : Spare p₀ p room) {lo hi : Nat} (hlo : lo = p₀.peeked.length)
    (hhi : hi = lo + room) :
    (readSpare p lo hi).Sat fun out => ReadInto p₀ room out.1.toOption out.2 := by
  obtain ⟨scratch, hp, rfl, hrest⟩ := h
  subst hlo hhi
  rcases hr : Read.read p.reader scratch with ⟨res, scratch', reader⟩
  obtain ⟨hlen, d, hd, hok, herr⟩ := LawfulRead.read_spec hr
  simp only [readSpare, hp, slice_append_right, Exec.ok_bind, hr, Exec.pure_eq, Exec.sat_ok,
    List.take_left]
  rw [← List.length_append, List.drop_length, List.append_nil]
  refine Spare.readInto hp hrest hlen hd ?_ ?_
  · cases res with
    | ok m => rintro n ⟨⟩; exact hok m rfl
    | error e => rintro n ⟨⟩
  · cases res with
    | ok m => rintro ⟨⟩
    | error e => exact fun _ => herr e rfl

/-- The retry loop ends with a read that was not interrupted. -/
theorem readRetry_sat (fuel : Nat) (h : Spare p₀ p room) :
    (readRetry fuel p p₀.peeked.length).Sat fun out =>
      ReadInto p₀ room out.1.toOption out.2 ∧ ∀ e, out.1 = .error e → e.kind ≠ .interrupted := by
  induction fuel generalizing p with
  | zero => trivial
  | succ fuel ih =>
    refine (readSpare_sat h rfl h.length).bind ?_
    intro out hread
    obtain ⟨res, p'⟩ := out
    cases res with
    | ok n => exact ⟨hread, by rintro e ⟨⟩⟩
    | error e =>
      by_cases he : e.kind = .interrupted
      · simp only [if_pos he]
        exact ih hread
      · simp only [if_neg he]
        exact ⟨hread, by rintro e' ⟨⟩; exact he⟩

theorem read_sat (p : Peekable R B) (buf : List UInt8) :
    (read p buf).Sat fun (res, buf', p') => Delivers p buf res.toOption buf' p' := by
  unfold read
  by_cases hpos : p.peeked.length > 0
  · simp only [if_pos hpos]
    by_cases hlt : buf.length < p.peeked.length
    · obtain ⟨b, hb, hdrop⟩ := LawfulBuffer.consume_ok p.buffer (n := buf.length) (by
        change _ ≤ p.peeked.length; omega)
      have hcopy : buf.length = (p.peeked.take buf.length).length := by grind
      simp only [if_pos hlt, slice_front p.peeked (Nat.le_of_lt hlt), Exec.ok_bind,
        copyFromSlice_eq hcopy, hb, Exec.pure_eq, Exec.sat_ok]
      refine ⟨Nat.le_refl _, hcopy.symm, ?_⟩
      rw [List.take_take, Nat.min_self]
      exact hands_take p hdrop
    · simp only [if_neg hlt]
      by_cases heq : buf.length = p.peeked.length
      · simp only [if_pos heq, copyFromSlice_eq heq, Exec.ok_bind, Exec.pure_eq, Exec.sat_ok]
        refine ⟨Nat.le_refl _, heq.symm, ?_⟩
        simpa [heq] using hands_clear p (Ledger.refl p.reader)
      · have hge : p.peeked.length ≤ buf.length := by omega
        simp only [if_neg heq, copyInto_front buf rfl hge, Exec.ok_bind,
          List.length_append, slice_append_right, List.take_left]
        rcases hr : Read.read p.reader (buf.drop p.peeked.length) with ⟨res, rest, reader⟩
        obtain ⟨hlen, d, hd, hok, herr⟩ := LawfulRead.read_spec hr
        rw [List.length_drop] at hlen
        cases res with
        | ok m =>
          obtain ⟨hm, rfl⟩ := hok m rfl
          rw [List.length_drop] at hm
          refine ⟨by omega, by grind, ?_⟩
          rw [Nat.add_comm, take_append_add]
          exact hands_clear p hd
        | error e =>
          obtain rfl := herr e rfl
          refine ⟨hge, by grind, ?_⟩
          simpa using hands_clear p hd
  · simp only [if_neg hpos]
    have hnil : p.peeked = [] := List.eq_nil_of_length_eq_zero (by omega)
    rcases hr : Read.read p.reader buf with ⟨res, buf', reader⟩
    obtain ⟨hlen, d, hd, hok, herr⟩ := LawfulRead.read_spec hr
    cases res with
    | ok m =>
      obtain ⟨hm, rfl⟩ := hok m rfl
      exact ⟨hm, hlen, hands_reader p hnil hd⟩
    | error e =>
      obtain rfl := herr e rfl
      exact ⟨hlen, hands_reader p hnil hd⟩

theorem peek_sat (fuel : Nat) (p : Peekable R B) (buf : List UInt8) :
    (peek fuel p buf).Sat fun (res, buf', p') => Peeks p buf res.toOption buf' p' := by
  unfold peek
  simp only [len_buffer]
  by_cases hpos : p.peeked.length > 0
  · simp only [if_pos hpos]
    by_cases hlt : buf.length < p.peeked.length
    · have hcopy : buf.length = (p.peeked.take buf.length).length := by grind
      simp only [if_pos hlt, slice_front p.peeked (Nat.le_of_lt hlt), Exec.ok_bind,
        copyFromSlice_eq hcopy, Exec.pure_eq, Exec.sat_ok]
      exact Peeks.covered p buf (Nat.le_of_lt hlt)
    · simp only [if_neg hlt]
      by_cases heq : buf.length = p.peeked.length
      · simp only [if_pos heq, copyFromSlice_eq heq, Exec.ok_bind, Exec.pure_eq, Exec.sat_ok]
        simpa [heq] using Peeks.covered p buf (Nat.le_of_eq heq)
      · simp only [if_neg heq]
        rcases hres : resize p.buffer buf.length with ⟨_ | _, buffer⟩
        · exact ⟨rfl, .of_resize_error hres⟩
        · have hspare := Spare.of_resize hres (by omega)
          refine (readRetry_sat fuel hspare).bind ?_
          rintro ⟨res, p₁⟩ ⟨hread, -⟩
          cases res with
          | ok n =>
            obtain ⟨hlen, hle, hpeek⟩ := Peeks.of_readInto buf hread (by omega)
            simp only [Nat.add_comm n, copyInto_front buf hlen hle, Exec.ok_bind, Exec.pure_eq,
              Exec.sat_ok]
            exact hpeek
          | error e => exact ⟨rfl, Spare.rollback hread⟩
  · have hnil : p.peeked.length = 0 := by omega
    simp only [if_neg hpos]
    by_cases hzero : buf.length = 0
    · simp only [if_pos hzero, Exec.pure_eq, Exec.sat_ok]
      simpa [hzero, List.eq_nil_of_length_eq_zero hzero] using
        Peeks.covered p buf (by omega)
    · simp only [if_neg hzero]
      rcases hres : resize p.buffer (p.peeked.length + buf.length) with ⟨_ | _, buffer⟩
      · exact ⟨rfl, .of_resize_error hres⟩
      · have hspare := Spare.of_resize hres (by omega)
        refine (readRetry_sat fuel hspare).bind ?_
        rintro ⟨res, p₁⟩ ⟨hread, -⟩
        cases res with
        | ok n =>
          obtain ⟨hlen, hle, hpeek⟩ := Peeks.of_readInto buf hread (by omega)
          simp only [hnil, Nat.zero_add] at hlen hle hpeek ⊢
          have hsrc : slice (p₁.truncate n).peeked 0 n = .ok (p₁.truncate n).peeked := by
            rw [slice_front _ (Nat.le_of_eq hlen.symm), List.take_of_length_le (Nat.le_of_eq hlen)]
          simp only [hsrc, copyInto_front buf hlen hle, Exec.ok_bind, Exec.pure_eq, Exec.sat_ok]
          exact hpeek
        | error e => exact ⟨rfl, Spare.rollback hread⟩

theorem peekVectored_sat (fuel : Nat) (p : Peekable R B) (bufs : List (List UInt8)) :
    (peekVectored fuel p bufs).Sat fun (res, bufs', p') =>
      PeeksVectored p bufs res.toOption bufs' p' := by
  induction bufs with
  | nil =>
    refine (peek_sat fuel p []).bind ?_
    intro out hpeek
    obtain ⟨res, buf', p'⟩ := out
    exact hpeek.vectored_nil
  | cons b bufs ih =>
    unfold peekVectored
    by_cases hb : b.isEmpty = true
    · simp only [if_pos hb]
      refine ih.bind ?_
      intro out hpeek
      obtain ⟨res, bufs', p'⟩ := out
      exact hpeek.cons_nil (List.isEmpty_iff.mp hb)
    · simp only [if_neg hb]
      refine (peek_sat fuel p b).bind ?_
      intro out hpeek
      obtain ⟨res, b', p'⟩ := out
      exact hpeek.vectored bufs

theorem peekToEndLoop_sat (fuel : Nat) (p : Peekable R B) (buf : List UInt8) :
    (peekToEndLoop fuel p (buf ++ p.peeked)).Sat fun (res, buf', p') =>
      PeeksToEnd p buf res.toOption buf' p' := by
  induction fuel generalizing p with
  | zero => trivial
  | succ fuel ih =>
    simp only [peekToEndLoop, len_buffer]
    rcases hg : growPeekBuffer p.buffer with ⟨_ | growth, buffer⟩
    · have hf : Fetched p { p with buffer } [] := .of_grow_error hg
      refine ⟨⟨[], hf⟩, ?_, by rintro n ⟨⟩⟩
      simp [hf.peeked]
    · refine (readSpare_sat (Spare.of_grow hg).2 rfl rfl).bind ?_
      intro out hread
      obtain ⟨res, p₁⟩ := out
      cases res with
      | ok n =>
        obtain ⟨-, d, hd, hf⟩ := hread
        by_cases hn : n = 0
        · subst hn
          obtain rfl := List.eq_nil_of_length_eq_zero hd
          simp only [if_true, Exec.pure_eq, Exec.sat_ok]
          have hsame := hf.peeked.trans (List.append_nil p.peeked)
          exact ⟨⟨[], hf⟩, congrArg (buf ++ ·) hsame.symm, by rintro m ⟨⟩; rfl⟩
        · simp only [if_neg hn, hf.slice_new hd, Exec.ok_bind]
          rw [List.append_assoc, ← hf.peeked]
          refine (ih _).mono ?_
          intro out h
          obtain ⟨res, buf', p'⟩ := out
          exact h.after hf
      | error e =>
        have hf := Spare.rollback hread
        have hsame : p.peeked = (p₁.truncate p.peeked.length).peeked := by simpa using hf.peeked.symm
        by_cases he : e.kind = .interrupted
        · simp only [if_pos he]
          rw [congrArg (buf ++ ·) hsame]
          refine (ih _).mono ?_
          intro out h
          obtain ⟨res, buf', p'⟩ := out
          exact h.after hf
        · simp only [if_neg he]
          exact ⟨⟨[], hf⟩, by rw [← hsame], by rintro m ⟨⟩⟩

theorem peekToEnd_sat (fuel : Nat) (p : Peekable R B) (buf : List UInt8) :
    (peekToEnd fuel p buf).Sat fun (res, buf', p') => PeeksToEnd p buf res.toOption buf' p' :=
  peekToEndLoop_sat fuel p buf

theorem peekToStringLoop_sat (fuel : Nat) (p : Peekable R B) :
    (peekToStringLoop fuel p).Sat fun (_, p') => ∃ d, Fetched p p' d := by
  induction fuel generalizing p with
  | zero => trivial
  | succ fuel ih =>
    simp only [peekToStringLoop, len_buffer]
    rcases hg : growPeekBuffer p.buffer with ⟨_ | growth, buffer⟩
    · exact ⟨[], .of_grow_error hg⟩
    · refine (readSpare_sat (Spare.of_grow hg).2 rfl rfl).bind ?_
      intro out hread
      obtain ⟨res, p₁⟩ := out
      cases res with
      | ok n =>
        obtain ⟨-, d, hd, hf⟩ := hread
        by_cases hn : n = 0
        · subst hn
          simp only [if_true]
          exact ⟨d, hf⟩
        · simp only [if_neg hn]
          exact (ih _).mono fun _ ⟨d', hf'⟩ => ⟨d ++ d', hf.trans hf'⟩
      | error e =>
        have hf := Spare.rollback hread
        by_cases he : e.kind = .interrupted
        · simp only [if_pos he]
          exact (ih _).mono fun _ ⟨d', hf'⟩ => ⟨d', hf.trans hf'⟩
        · simp only [if_neg he]
          exact ⟨[], hf⟩

theorem peekToString_sat (fuel : Nat) (p : Peekable R B) (buf : Str) :
    (peekToString fuel p buf).Sat fun (res, buf', p') =>
      PeeksToString p buf res.toOption buf' p' := by
  unfold peekToString
  cases earlyReject p.peeked with
  | some e => exact .refused p buf
  | none =>
    refine (peekToStringLoop_sat fuel p).bind ?_
    rintro ⟨loopResult, p'⟩ ⟨d, hf⟩
    refine (finishString_ends loopResult p'.peeked buf).sat.bind ?_
    intro out h
    obtain ⟨res, buf'⟩ := out
    exact .of_finish hf h

theorem peekExactLoop_sat (fuel : Nat) (p : Peekable R B) {buf : List UInt8} {filled : Nat}
    (hlen : filled = p.peeked.length) (hle : filled ≤ buf.length)
    (hbuf : buf.take filled = p.peeked) :
    (peekExactLoop fuel p buf filled).Sat fun (res, buf', p') =>
      PeeksExactly p buf (res = .ok ()) buf' p' := by
  induction fuel generalizing p buf filled with
  | zero => trivial
  | succ fuel ih =>
    simp only [peekExactLoop, len_buffer]
    by_cases hlt : filled < buf.length
    · simp only [if_pos hlt]
      rcases hres : resize p.buffer (p.peeked.length + (buf.length - filled)) with ⟨_ | _, buffer⟩
      · have hf : Fetched p { p with buffer } [] := .of_resize_error hres
        exact .failed hf (by simp [hf.peeked]) (by simp)
      · have hspare := Spare.of_resize hres (by omega)
        refine (readRetry_sat (fuel + 1) hspare).bind ?_
        rintro ⟨res, p₁⟩ ⟨hread, -⟩
        cases res with
        | error e => exact .failed (Spare.rollback hread) (by simp) (by simp)
        | ok n =>
          obtain ⟨hn, d, hd, hf⟩ : ReadInto p _ (some n) p₁ := hread
          have hpeeked := congrArg List.length hf.peeked
          rw [List.length_append, hd] at hpeeked
          by_cases hn0 : n = 0
          · subst hn0
            obtain rfl := List.eq_nil_of_length_eq_zero hd
            exact .failed hf (by simp) (by simp)
          · simp only [if_neg hn0, hf.slice_new hd, Exec.ok_bind]
            rw [copyInto_eq buf (by rw [hd]) (by omega), hbuf]
            have hbuf' : (p.peeked ++ d ++ buf.drop (filled + n)).length = buf.length := by
              simp; omega
            have htake : (p.peeked ++ d ++ buf.drop (filled + n)).take (filled + n) =
                (p₁.truncate (p.peeked.length + n)).peeked := by
              rw [hf.peeked]
              exact take_append_of_length (by grind)
            refine (ih _ (by omega) (by omega) htake).mono ?_
            intro out h
            obtain ⟨res, buf', p'⟩ := out
            exact h.after hf (by omega) hbuf'
    · simp only [if_neg hlt]
      have heq : buf.length = p.peeked.length := by omega
      have hsame : buf = p.peeked := by rw [← hbuf, List.take_of_length_le (by omega)]
      exact ⟨rfl, Nat.le_max_left _ _, ⟨[], .refl p⟩, fun _ =>
        ⟨Nat.le_of_eq heq, by rw [heq, List.take_length]; exact hsame⟩⟩

theorem peekExact_sat (fuel : Nat) (p : Peekable R B) (buf : List UInt8) :
    (peekExact fuel p buf).Sat fun (res, buf', p') => PeeksExactly p buf (res = .ok ()) buf' p' := by
  simp only [peekExact, len_buffer]
  by_cases hle : buf.length ≤ p.peeked.length
  · have hcopy : buf.length = (p.peeked.take buf.length).length := by grind
    simp only [if_pos hle, slice_front p.peeked hle, Exec.ok_bind, copyFromSlice_eq hcopy,
      Exec.pure_eq, Exec.sat_ok]
    exact ⟨hcopy.symm, by omega, ⟨[], .refl p⟩, fun _ => ⟨hle, rfl⟩⟩
  · have hle' : p.peeked.length ≤ buf.length := by omega
    simp only [if_neg hle, copyInto_front buf rfl hle', Exec.ok_bind]
    have hlen : (p.peeked ++ buf.drop p.peeked.length).length = buf.length := by grind
    refine (peekExactLoop_sat fuel p rfl (by omega) (by simp)).mono ?_
    intro out h
    obtain ⟨res, buf', p'⟩ := out
    exact h.after (.refl p) (Nat.le_max_left _ _) hlen

/-- Filling needs a capacity that covers the length, or it runs into a range panic. -/
theorem fillPeekBuf_sat (fuel : Nat) (p : Peekable R B) (hcap : p.peeked.length ≤ capacity p.buffer) :
    (fillPeekBuf fuel p).Sat fun (res, p') => Fills p res.toOption p' := by
  simp only [fillPeekBuf, len_buffer]
  rcases hres : resize p.buffer (capacity p.buffer) with ⟨_ | _, buffer⟩
  · exact Fetched.of_resize_error hres
  · refine (readRetry_sat fuel (Spare.of_resize hres hcap)).bind ?_
    rintro ⟨res, p₁⟩ ⟨hread, -⟩
    cases res with
    | ok n =>
      obtain ⟨-, d, hd, hf⟩ := hread
      exact ⟨d, hd, hf⟩
    | error e => exact Spare.rollback hread

omit [LawfulBuffer B] [LawfulRead R] [Ledger R UInt8] in
/-- Reading behind the end of the buffer is a range panic. -/
theorem readRetry_short (fuel : Nat) {lo : Nat} (h : p.peeked.length < lo)
    (out : Except IoError Nat × Peekable R B) : readRetry fuel p lo ≠ .ok out := by
  cases fuel with
  | zero => simp [readRetry]
  | succ fuel =>
    have hslice : slice p.peeked lo p.peeked.length = .panic .sliceRange := by
      simp [slice]; omega
    simp [readRetry, readSpare, hslice]

/-- Whatever the capacity, filling that returns grew the peek buffer or changed nothing. -/
theorem fillPeekBuf_post (fuel : Nat) (p : Peekable R B) :
    (fillPeekBuf fuel p).Post fun (res, p') => Fills p res.toOption p' := by
  by_cases hcap : p.peeked.length ≤ capacity p.buffer
  · exact (fillPeekBuf_sat fuel p hcap).toPost
  · intro out hout
    obtain ⟨res, p'⟩ := out
    simp only [fillPeekBuf, len_buffer] at hout
    rcases hres : resize p.buffer (capacity p.buffer) with ⟨_ | _, buffer⟩
    · rw [hres] at hout
      cases hout
      exact Fetched.of_resize_error hres
    · rw [hres] at hout
      have hlen : ({ p with buffer } : Peekable R B).peeked.length < p.peeked.length := by
        change (asSlice buffer).length < _
        rw [(LawfulBuffer.resize_ok hres).1]
        omega
      obtain ⟨out, hread, -⟩ := Exec.bind_eq_ok.mp hout
      exact absurd hread (readRetry_short fuel hlen out)

end PeekableReader.Peekable
