import PeekableReader.Async.Model
import PeekableReader.Io.Spare

/-!
# Specifications of the futures

Each `poll` is specified for every lawful `tail`, from any state that polls before it can
have left behind: what is kept between two polls stays in step with the peek buffer.
-/

namespace PeekableReader

open Buffer

variable {R B : Type} [Buffer B] [Ledger R UInt8]

/-- Polling with the tail of the peek buffer reads into its spare room. -/
structure LawfulTail (tail : TailRead R B) : Prop where
  readInto {p₀ p : Peekable R B} {room lo hi : Nat} (h : Spare p₀ p room)
    (hlo : lo = p₀.peeked.length) (hhi : hi = lo + room) :
    (tail p lo hi).Sat fun out => ReadInto p₀ room out.1.handed out.2
  /-- A range that begins behind the end of the buffer panics. -/
  short {p : Peekable R B} {lo : Nat} (h : p.peeked.length < lo)
    (out : Poll (Except IoError Nat) × Peekable R B) : tail p lo p.peeked.length ≠ .ok out

variable [LawfulBuffer B] {tail : TailRead R B}

omit [LawfulBuffer B] in
/-- The retry loop ends with an answer other than `Interrupted`. -/
theorem pollRetry_sat (htail : LawfulTail tail) (fuel : Nat) {p₀ p : Peekable R B} {room : Nat}
    (h : Spare p₀ p room) :
    (pollRetry tail fuel p p₀.peeked.length).Sat fun out => ReadInto p₀ room out.1.handed out.2 := by
  induction fuel generalizing p with
  | zero => trivial
  | succ fuel ih =>
    refine (htail.readInto h rfl h.length).bind ?_
    intro out hread
    obtain ⟨poll, p'⟩ := out
    cases poll using Poll.casesResult with
    | ok n => exact hread
    | pending => exact hread
    | error e =>
      by_cases he : e.kind = .interrupted
      · simp only [if_pos he]
        exact ih hread
      · simp only [if_neg he]
        exact hread

/-! ## `PeekExact` -/

namespace PeekExact

/-- The filled part of the destination is the front of the peek buffer. -/
structure Valid (f : PeekExact R B) : Prop where
  filled_le : f.filled ≤ f.buf.length
  filled_eq : f.buf.take f.filled = f.peekable.peeked.take f.filled
  filled_le_peeked : f.filled ≤ f.peekable.peeked.length

/-- A future that may be polled: nothing is filled, or all that has been peeked. -/
def Resumable (f : PeekExact R B) : Prop :=
  f.Valid ∧ (f.filled = 0 ∨ f.filled = f.peekable.peeked.length)

omit [Ledger R UInt8] [LawfulBuffer B] in
theorem Valid.of_filled {p : Peekable R B} {buf : List UInt8} {filled : Nat}
    (hlen : filled = p.peeked.length) (hle : filled ≤ buf.length)
    (hbuf : buf.take filled = p.peeked) : (⟨p, buf, filled⟩ : PeekExact R B).Valid :=
  ⟨hle, by rw [hbuf, hlen, List.take_length], Nat.le_of_eq hlen⟩

omit [Ledger R UInt8] [LawfulBuffer B] in
theorem resumable_new (p : Peekable R B) (buf : List UInt8) : (new p buf).Resumable :=
  ⟨⟨Nat.zero_le _, by simp [new], Nat.zero_le _⟩, .inl rfl⟩

/-- What a poll of `f` that ends in `f'` has done. -/
structure Polled (f : PeekExact R B) (res : Poll (Except IoError Unit)) (f' : PeekExact R B) :
    Prop where
  peeks : PeeksExactly f.peekable f.buf (res = .ready (.ok ())) f'.buf f'.peekable
  valid : f'.Valid
  resumable : res = .pending → f'.Resumable

omit [LawfulBuffer B] in
/-- Nothing more arrived: the destination stays as it is. -/
theorem Polled.stop {p p' : Peekable R B} {buf : List UInt8} {filled : Nat}
    {res : Poll (Except IoError Unit)} (hf : Fetched p p' []) (hlen : filled = p.peeked.length)
    (hle : filled ≤ buf.length) (hbuf : buf.take filled = p.peeked) (hres : res ≠ .ready (.ok ())) :
    Polled ⟨p, buf, filled⟩ res ⟨p', buf, filled⟩ := by
  have hp : p'.peeked = p.peeked := by simpa using hf.peeked
  have hv : (⟨p', buf, filled⟩ : PeekExact R B).Valid :=
    .of_filled (by rw [hp]; exact hlen) hle (by rw [hp]; exact hbuf)
  exact ⟨.failed hf (by simp [hp]) hres, hv, fun _ => ⟨hv, .inr (by simp [hp, hlen])⟩⟩

theorem loop_sat (htail : LawfulTail tail) (eof : IoError) (fuel : Nat) (p : Peekable R B)
    {buf : List UInt8} {filled : Nat} (hlen : filled = p.peeked.length)
    (hle : filled ≤ buf.length) (hbuf : buf.take filled = p.peeked) :
    (loop tail eof fuel ⟨p, buf, filled⟩).Sat fun (res, f') => Polled ⟨p, buf, filled⟩ res f' := by
  induction fuel generalizing p buf filled with
  | zero => trivial
  | succ fuel ih =>
    simp only [loop, Peekable.len_buffer]
    by_cases hlt : filled < buf.length
    · simp only [if_pos hlt]
      rcases hres : resize p.buffer (p.peeked.length + (buf.length - filled)) with ⟨_ | _, buffer⟩
      · exact .stop (.of_resize_error hres) hlen hle hbuf (by simp)
      · have hspare := Spare.of_resize hres (by omega)
        refine (htail.readInto hspare rfl hspare.length).bind ?_
        intro out hread
        obtain ⟨poll, p₁⟩ := out
        cases poll using Poll.casesResult with
        | pending => exact .stop (Spare.rollback hread) hlen hle hbuf (by simp)
        | error e =>
          have hf := Spare.rollback hread
          have hsame : (p₁.truncate p.peeked.length).peeked = p.peeked := by simpa using hf.peeked
          by_cases he : e.kind = .interrupted
          · simp only [if_pos he]
            refine (ih _ (hlen.trans (congrArg _ hsame.symm)) hle (hbuf.trans hsame.symm)).mono ?_
            intro out h
            obtain ⟨res, f'⟩ := out
            exact ⟨h.peeks.after hf (by simp [hsame]) rfl, h.valid, h.resumable⟩
          · simp only [if_neg he]
            exact .stop hf hlen hle hbuf (by simp)
        | ok n =>
          obtain ⟨hn, d, hd, hf⟩ : ReadInto p _ (some n) p₁ := hread
          have hpeeked := congrArg List.length hf.peeked
          rw [List.length_append, hd] at hpeeked
          by_cases hn0 : n = 0
          · subst hn0
            obtain rfl := List.eq_nil_of_length_eq_zero hd
            exact .stop hf hlen hle hbuf (by simp)
          · simp only [if_neg hn0, hf.slice_new hd, Exec.ok_bind]
            rw [copyInto_eq buf (by rw [hd]) (by omega), hbuf]
            have hlen' : (p.peeked ++ d ++ buf.drop (filled + n)).length = buf.length := by
              simp; omega
            have htake : (p.peeked ++ d ++ buf.drop (filled + n)).take (filled + n) =
                (p₁.truncate (p.peeked.length + n)).peeked := by
              rw [hf.peeked]
              exact take_append_of_length (by grind)
            refine (ih _ (by omega) (by omega) htake).mono ?_
            intro out h
            obtain ⟨res, f'⟩ := out
            exact ⟨h.peeks.after hf (by grind) hlen', h.valid, h.resumable⟩
    · simp only [if_neg hlt]
      have heq : buf.length = p.peeked.length := by omega
      have hsame : buf = p.peeked := by rw [← hbuf, List.take_of_length_le (by omega)]
      refine ⟨⟨rfl, Nat.le_max_left _ _, ⟨[], .refl p⟩, fun _ => ⟨Nat.le_of_eq heq, ?_⟩⟩,
        .of_filled hlen hle hbuf, by rintro ⟨⟩⟩
      exact hsame.trans (by simp [heq])

theorem pollWith_sat (htail : LawfulTail tail) (eof : IoError) (fuel : Nat) (f : PeekExact R B)
    (h : f.Resumable) : (pollWith tail eof fuel f).Sat fun (res, f') => Polled f res f' := by
  obtain ⟨p, buf, filled⟩ := f
  obtain ⟨⟨hle, hbuf, hle'⟩, hfilled⟩ := h
  simp only [pollWith] at hle hbuf hle' hfilled ⊢
  by_cases h0 : filled = 0
  · obtain ⟨n, hn⟩ : ∃ n, n = min p.peeked.length buf.length := ⟨_, rfl⟩
    have hsrc : (p.peeked.take n).length = n := by grind
    have hlen : (p.peeked.take n ++ buf.drop n).length = buf.length := by grind
    have htake : (p.peeked.take n ++ buf.drop n).take n = p.peeked.take n :=
      take_append_of_length hsrc
    simp only [if_pos h0, ← hn, slice_front _ (show n ≤ p.peeked.length by omega), Exec.ok_bind,
      copyInto_front _ hsrc (show n ≤ buf.length by omega)]
    by_cases htotal : n = buf.length
    · simp only [if_pos htotal, Exec.pure_eq, Exec.sat_ok]
      refine ⟨⟨hlen, Nat.le_max_left _ _, ⟨[], .refl p⟩, fun _ => ⟨by grind, ?_⟩⟩,
        ⟨by grind, by simpa using htake, by simp; omega⟩, by rintro ⟨⟩⟩
      simp [htotal]
    · simp only [if_neg htotal]
      refine (loop_sat htail eof fuel p (by omega) (by omega) ?_).mono ?_
      · rw [htake, List.take_of_length_le (by omega)]
      · intro out h
        obtain ⟨res, f'⟩ := out
        exact ⟨h.peeks.after (.refl p) (Nat.le_max_left _ _) hlen, h.valid, h.resumable⟩
  · simp only [if_neg h0]
    have hlen := hfilled.resolve_left h0
    exact loop_sat htail eof fuel p hlen hle (by rw [hbuf, hlen, List.take_length])

end PeekExact

/-! ## `PeekToString` -/

namespace PeekToString

/-- What a poll of `f` that ends in `f'` has done. -/
structure Polled (f : PeekToString R B) (res : Poll (Except IoError Nat)) (f' : PeekToString R B) :
    Prop where
  peeks : PeeksToString f.peekable f.buf res.handed f'.buf f'.peekable
  untouched : res = .pending → f'.buf = f.buf

theorem loop_sat (htail : LawfulTail tail) (fuel : Nat) (p : Peekable R B) :
    (loop tail fuel p).Sat fun (_, p') => ∃ d, Fetched p p' d := by
  induction fuel generalizing p with
  | zero => trivial
  | succ fuel ih =>
    simp only [loop, Peekable.len_buffer]
    rcases hg : growPeekBuffer p.buffer with ⟨_ | growth, buffer⟩
    · exact ⟨[], .of_grow_error hg⟩
    · refine (htail.readInto (Spare.of_grow hg).2 rfl rfl).bind ?_
      intro out hread
      obtain ⟨poll, p₁⟩ := out
      cases poll using Poll.casesResult with
      | pending => exact ⟨[], Spare.rollback hread⟩
      | error e =>
        have hf := Spare.rollback hread
        by_cases he : e.kind = .interrupted
        · simp only [if_pos he]
          exact (ih _).mono fun _ ⟨d', hf'⟩ => ⟨d', hf.trans hf'⟩
        · simp only [if_neg he]
          exact ⟨[], hf⟩
      | ok n =>
        obtain ⟨-, d, hd, hf⟩ : ReadInto p growth (some n) p₁ := hread
        by_cases hn : n = 0
        · subst hn
          simp only [if_true]
          exact ⟨d, hf⟩
        · simp only [if_neg hn]
          exact (ih _).mono fun _ ⟨d', hf'⟩ => ⟨d ++ d', hf.trans hf'⟩

theorem resume_sat (htail : LawfulTail tail) (fuel : Nat) (f : PeekToString R B) :
    (resume tail fuel f).Sat fun (res, f') => Polled f res f' := by
  refine (loop_sat htail fuel f.peekable).bind ?_
  rintro ⟨poll, p'⟩ ⟨d, hf⟩
  cases poll with
  | pending =>
    exact ⟨⟨⟨d, hf⟩, .empty, (Str.pushStr_empty _).symm, List.nil_prefix, by rintro n ⟨⟩⟩,
      fun _ => rfl⟩
  | ready loopResult =>
    refine (finishString_ends loopResult p'.peeked f.buf).sat.bind ?_
    intro out h
    obtain ⟨res, buf'⟩ := out
    have hpeeks := PeeksToString.of_finish hf h
    refine ⟨?_, by rintro ⟨⟩⟩
    cases res with
    | ok n => exact hpeeks
    | error e => exact hpeeks

theorem pollWith_sat (htail : LawfulTail tail) (fuel : Nat) (f : PeekToString R B) :
    (pollWith tail fuel f).Sat fun (res, f') => Polled f res f' := by
  unfold pollWith
  by_cases hstarted : f.started = true
  · rw [if_pos hstarted]
    exact resume_sat htail fuel f
  · rw [if_neg hstarted]
    cases earlyReject f.peekable.peeked with
    | some e => exact ⟨.refused f.peekable f.buf, by rintro ⟨⟩⟩
    | none =>
      refine (resume_sat htail fuel { f with started := true }).mono ?_
      intro out h
      obtain ⟨res, f'⟩ := out
      exact ⟨h.peeks, h.untouched⟩

end PeekToString

/-! ## `PeekToEnd` -/

namespace PeekToEnd

/-- Having started from the destination `dst`, the future holds it, followed by the peek
buffer once that has been copied. -/
def Mirrors (dst : List UInt8) (f : PeekToEnd R B) : Prop :=
  f.buf = if f.prefixCopied then dst ++ f.peekable.peeked else dst

omit [Ledger R UInt8] [LawfulBuffer B] in
theorem mirrors_new (p : Peekable R B) (dst : List UInt8) : Mirrors dst (new p dst) := rfl

/-- What a poll of `f` that ends in `f'` has done, in terms of the first destination. -/
structure Polled (dst : List UInt8) (f : PeekToEnd R B) (res : Poll (Except IoError Nat))
    (f' : PeekToEnd R B) : Prop where
  peeks : PeeksToEnd f.peekable dst res.handed f'.buf f'.peekable
  copied : f'.prefixCopied = true

omit [LawfulBuffer B] in
theorem Polled.mirrors {dst : List UInt8} {f f' : PeekToEnd R B}
    {res : Poll (Except IoError Nat)} (h : Polled dst f res f') : Mirrors dst f' := by
  simp [Mirrors, h.copied, h.peeks.mirrors]

/-- The loop of `peek_to_end` is that of `peek_to_string`, with the destination in step. -/
theorem loop_eq (htail : LawfulTail tail)
    (fuel : Nat) (dst : List UInt8) (p : Peekable R B) :
    loop tail fuel ⟨p, dst ++ p.peeked, true⟩ =
      (fun out => (out.1.map fun result => result.map fun () => out.2.peeked.length,
        ⟨out.2, dst ++ out.2.peeked, true⟩)) <$> PeekToString.loop tail fuel p := by
  induction fuel generalizing p with
  | zero => rfl
  | succ fuel ih =>
    simp only [loop, PeekToString.loop, Peekable.len_buffer]
    rcases hgrow : growPeekBuffer p.buffer with ⟨e | n, buffer⟩
    · have hf : Fetched p { p with buffer } [] := .of_grow_error hgrow
      have hsame := hf.peeked.trans (List.append_nil _)
      simp only [Exec.pure_eq, Exec.map_ok, hsame]
      rfl
    · have hread := htail.readInto (Spare.of_grow hgrow).2 rfl rfl
      simp only [map_bind]
      rcases hrun : tail { p with buffer } p.peeked.length (p.peeked.length + n) with
        ⟨poll, p₁⟩ | why | _
      · rw [hrun] at hread
        simp only [Exec.ok_bind]
        cases poll using Poll.casesResult with
        | pending =>
          have hsame := (Spare.rollback hread).peeked.trans (List.append_nil _)
          simp only [Exec.pure_eq, Exec.map_ok, hsame]
          rfl
        | error e =>
          have hsame := (Spare.rollback hread).peeked.trans (List.append_nil _)
          by_cases he : e.kind = .interrupted
          · simp only [if_pos he]
            rw [← ih, hsame]
          · simp only [if_neg he, Exec.pure_eq, Exec.map_ok, hsame]
            rfl
        | ok m =>
          obtain ⟨-, d, hd, hf⟩ : ReadInto p n (some m) p₁ := hread
          by_cases hm : m = 0
          · subst hm
            obtain rfl := List.eq_nil_of_length_eq_zero hd
            have hsame : (p₁.truncate p.peeked.length).peeked = p.peeked :=
              hf.peeked.trans (List.append_nil _)
            simp only [if_true, Exec.pure_eq, Exec.map_ok, hsame]
            rfl
          · simp only [if_neg hm, hf.slice_new hd, Exec.ok_bind, List.append_assoc]
            rw [← ih, hf.peeked]
      · rfl
      · rfl

theorem loop_sat (htail : LawfulTail tail) (fuel : Nat) (dst : List UInt8) (p : Peekable R B) :
    (loop tail fuel ⟨p, dst ++ p.peeked, true⟩).Sat fun (res, f') =>
      Polled dst ⟨p, dst ++ p.peeked, true⟩ res f' := by
  rw [loop_eq htail]
  apply (PeekToString.loop_sat htail fuel p).map
  intro out hfetched
  obtain ⟨poll, p'⟩ := out
  refine ⟨⟨hfetched, rfl, ?_⟩, rfl⟩
  intro n hn
  cases poll using Poll.casesResult with
  | ok u => cases hn; rfl
  | error e => cases hn
  | pending => cases hn

omit [Ledger R UInt8] [LawfulBuffer B] in
/-- Every poll runs the loop, with the peek buffer copied. -/
theorem Mirrors.pollWith_eq {dst : List UInt8} {f : PeekToEnd R B} (h : Mirrors dst f)
    (tail : TailRead R B) (fuel : Nat) :
    pollWith tail fuel f = loop tail fuel ⟨f.peekable, dst ++ f.peekable.peeked, true⟩ := by
  obtain ⟨p, buf, prefixCopied⟩ := f
  cases prefixCopied with
  | true =>
    obtain rfl : buf = dst ++ p.peeked := h
    rfl
  | false =>
    obtain rfl : buf = dst := h
    rfl

theorem pollWith_sat (htail : LawfulTail tail) (fuel : Nat) (dst : List UInt8) (f : PeekToEnd R B)
    (h : Mirrors dst f) : (pollWith tail fuel f).Sat fun (res, f') => Polled dst f res f' := by
  rw [h.pollWith_eq]
  refine (loop_sat htail fuel dst f.peekable).mono ?_
  intro out h'
  obtain ⟨res, f'⟩ := out
  exact ⟨h'.peeks, h'.copied⟩

end PeekToEnd

/-! ## `FillPeekBuf` -/

namespace FillPeekBuf

/-- The future remembers the length it found, and a capacity that covers it. -/
structure Valid (f : FillPeekBuf R B) : Prop where
  original : f.original = f.peeker.peeked.length
  covers : AmpleBuffer B → f.original ≤ f.cap

omit [Ledger R UInt8] in
theorem valid_new (p : Peekable R B) : (new p).Valid where
  original := p.len_buffer
  covers _ := (len_eq p.buffer).trans_le (AmpleBuffer.length_le_capacity p.buffer)

/-- What a poll of `f` that ends in `f'` has done. -/
structure Polled (f : FillPeekBuf R B) (res : Poll (Except IoError Nat)) (f' : FillPeekBuf R B) :
    Prop where
  fills : Fills f.peeker res.handed f'.peeker
  original : f'.original = f.original
  cap : f'.cap = f.cap

theorem pollWith_sat (htail : LawfulTail tail) (f : FillPeekBuf R B)
    (horiginal : f.original = f.peeker.peeked.length) (hcap : f.original ≤ f.cap) :
    (pollWith tail f).Sat fun (res, f') => Polled f res f' := by
  unfold pollWith
  by_cases hfull : f.cap = f.original
  · rw [if_pos hfull]
    exact ⟨⟨[], rfl, .refl _⟩, rfl, rfl⟩
  · rw [if_neg hfull]
    rcases hres : resize f.peeker.buffer f.cap with ⟨_ | _, buffer⟩
    · exact ⟨.of_resize_error hres, rfl, rfl⟩
    · have hspare : Spare f.peeker { f.peeker with buffer } _ :=
        Spare.of_resize hres (by omega)
      refine (htail.readInto hspare horiginal (horiginal ▸ hspare.length)).bind ?_
      intro out hread
      obtain ⟨poll, p₁⟩ := out
      cases poll using Poll.casesResult with
      | pending => exact ⟨horiginal ▸ Spare.rollback hread, rfl, rfl⟩
      | error e => exact ⟨horiginal ▸ Spare.rollback hread, rfl, rfl⟩
      | ok n =>
        obtain ⟨-, d, hd, hf⟩ : ReadInto f.peeker _ (some n) p₁ := hread
        exact ⟨⟨d, hd, horiginal ▸ hf⟩, rfl, rfl⟩

/-- Whatever the capacity, a poll that returns grew the peek buffer or changed nothing. -/
theorem pollWith_post (htail : LawfulTail tail) (f : FillPeekBuf R B)
    (horiginal : f.original = f.peeker.peeked.length) :
    (pollWith tail f).Post fun (res, f') => Polled f res f' := by
  by_cases hcap : f.original ≤ f.cap
  · exact (pollWith_sat htail f horiginal hcap).toPost
  · intro out hout
    obtain ⟨res, f'⟩ := out
    simp only [pollWith, if_neg (show ¬ f.cap = f.original by omega)] at hout
    rcases hres : resize f.peeker.buffer f.cap with ⟨_ | _, buffer⟩
    · rw [hres] at hout
      cases hout
      exact ⟨.of_resize_error hres, rfl, rfl⟩
    · rw [hres] at hout
      have hlen : ({ f.peeker with buffer } : Peekable R B).peeked.length < f.original := by
        change (asSlice buffer).length < _
        rw [(LawfulBuffer.resize_ok hres).1]
        omega
      obtain ⟨out, hread, -⟩ := Exec.bind_eq_ok.mp hout
      exact absurd hread (htail.short hlen out)

omit [LawfulBuffer B] in
/-- A pending poll leaves a future that may be polled again. -/
theorem Polled.valid {f f' : FillPeekBuf R B} (h : Polled f .pending f') (hv : f.Valid) :
    f'.Valid where
  original := by
    have hf : Fetched f.peeker f'.peeker [] := h.fills
    rw [h.original, hv.original, hf.peeked, List.append_nil]
  covers hample := by
    rw [h.original, h.cap]
    exact hv.covers hample

end FillPeekBuf

end PeekableReader
