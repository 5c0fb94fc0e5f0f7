import PeekableReader.Async.Spec
import PeekableReader.Tokio.Model

/-!
# Specifications of the `tokio` flavour

The polls append to the filled part of a `ReadBuf`. `poll_peek` and the futures only
poll the reader with `ReadBuf`s that have nothing in them yet, and are specified under
the law for these. `poll_read` hands its caller's `ReadBuf` on to the reader.
-/

namespace PeekableReader.Tokio

open Buffer Ledger

variable {R B : Type} [AsyncRead R] [Ledger R UInt8] [Buffer B]

/-- A read appends what it delivers, and delivers nothing unless it is ready. -/
structure PutsRead (p : Peekable R B) (rb : ReadBuf) (poll : Poll (Except IoError Unit))
    (rb' : ReadBuf) (p' : Peekable R B) : Prop where
  length : rb'.buf.length = rb.buf.length
  appends : ∃ d, rb'.filledBytes = rb.filledBytes ++ d ∧ Hands p d p' ∧
    (poll ≠ .ready (.ok ()) → d = [])

/-- A peek appends as much of the peek buffer as there is room for, or changes nothing. -/
structure PutsPeeked (p : Peekable R B) (rb : ReadBuf) (poll : Poll (Except IoError Unit))
    (rb' : ReadBuf) (p' : Peekable R B) : Prop where
  length : rb'.buf.length = rb.buf.length
  fetched : ∃ d, Fetched p p' d
  appends : poll = .ready (.ok ()) →
    rb'.filledBytes = rb.filledBytes ++ p'.peeked.take rb.remaining
  untouched : poll ≠ .ready (.ok ()) → rb' = rb ∧ Fetched p p' []

variable [LawfulBuffer B]

theorem readTail_lawful [LawfulFreshRead R] : LawfulTail (readTail : TailRead R B) where
  readInto {p₀ p room lo hi} h hlo hhi := by
    obtain ⟨scratch, hp, rfl, hrest⟩ := h
    subst hlo hhi
    rcases hr : AsyncRead.pollRead p.reader (ReadBuf.new scratch) with ⟨poll, rb, reader⟩
    have hlen : rb.buf.length = scratch.length := by
      simpa [hr] using BoundedAsyncRead.pollRead_length p.reader (ReadBuf.new scratch)
    simp only [readTail, hp, slice_append_right, Exec.ok_bind, hr, Exec.pure_eq, Exec.sat_ok,
      List.take_left]
    rw [← List.length_append, List.drop_length, List.append_nil]
    by_cases hpoll : poll = .ready (.ok ())
    · subst hpoll
      refine Spare.readInto hp hrest hlen (LawfulFreshRead.fresh_ok hr) ?_ (by rintro ⟨⟩)
      intro n hn
      cases hn
      exact ⟨by have := rb.filled_le; simp; omega, rb.take_filledBytes.symm⟩
    · have hnone : (poll.mapOk fun () => rb.filledBytes.length).handed = none := by
        cases poll using Poll.casesResult with
        | ok u => exact absurd rfl hpoll
        | error e => rfl
        | pending => rfl
      refine Spare.readInto hp hrest hlen (LawfulFreshRead.fresh_none hr hpoll) ?_ (fun _ => rfl)
      intro n hn
      rw [hnone] at hn
      cases hn
  short {p lo} h out := by
    have hslice : slice p.peeked lo p.peeked.length = .panic .sliceRange := by
      simp [slice]; omega
    simp [readTail, hslice]

omit [Ledger R UInt8] in
/-- Reading never panics, whatever the reader does with the `ReadBuf`. -/
theorem pollRead_safe (p : Peekable R B) (rb : ReadBuf) : (pollRead p rb).Sat fun _ => True := by
  simp only [pollRead, Peekable.len_buffer]
  by_cases hpos : p.peeked.length > 0
  · simp only [if_pos hpos]
    by_cases hlt : rb.remaining < p.peeked.length
    · obtain ⟨b, hb, -⟩ := LawfulBuffer.consume_ok p.buffer (n := rb.remaining) (by
        change _ ≤ p.peeked.length; omega)
      obtain ⟨rb', hput, -⟩ := rb.putSlice_spec (p.peeked.take rb.remaining) (by simp)
      simp [if_pos hlt, slice_front p.peeked (Nat.le_of_lt hlt), hput, hb]
    · obtain ⟨rb', hput, -⟩ := rb.putSlice_spec p.peeked (by omega)
      simp only [if_neg hlt, hput, Exec.ok_bind]
      split
      · trivial
      · split <;> trivial
  · simp only [if_neg hpos]
    trivial

theorem pollRead_sat [LawfulAsyncRead R] (p : Peekable R B) (rb : ReadBuf) :
    (pollRead p rb).Sat fun (poll, rb', p') => PutsRead p rb poll rb' p' := by
  simp only [pollRead, Peekable.len_buffer]
  by_cases hpos : p.peeked.length > 0
  · simp only [if_pos hpos]
    by_cases hlt : rb.remaining < p.peeked.length
    · obtain ⟨b, hb, hdrop⟩ := LawfulBuffer.consume_ok p.buffer (n := rb.remaining) (by
        change _ ≤ p.peeked.length; omega)
      obtain ⟨rb', hput, hfilled, hlen⟩ :=
        rb.putSlice_spec (p.peeked.take rb.remaining) (by simp)
      simp only [if_pos hlt, slice_front p.peeked (Nat.le_of_lt hlt), hput, hb, Exec.ok_bind,
        Exec.pure_eq, Exec.sat_ok]
      exact ⟨hlen, _, hfilled, Peekable.hands_take p hdrop, fun h => absurd rfl h⟩
    · obtain ⟨rb', hput, hfilled, hlen⟩ := rb.putSlice_spec p.peeked (by omega)
      simp only [if_neg hlt, hput, Exec.ok_bind]
      by_cases heq : rb.remaining = p.peeked.length
      · simp only [if_pos heq, Exec.pure_eq, Exec.sat_ok]
        refine ⟨hlen, _, hfilled, ?_, fun h => absurd rfl h⟩
        simpa using Peekable.hands_clear p (Ledger.refl p.reader)
      · simp only [if_neg heq]
        rcases hr : AsyncRead.pollRead p.reader rb' with ⟨poll, rb'', reader⟩
        obtain ⟨hlen', d, hd, hfilled', -⟩ := LawfulAsyncRead.pollRead_spec hr
        have hputs : PutsRead p rb (.ready (.ok ())) rb'' { p with reader, buffer := clear p.buffer } :=
          ⟨hlen'.trans hlen, p.peeked ++ d, by rw [hfilled', hfilled, List.append_assoc],
            Peekable.hands_clear p hd, fun h => absurd rfl h⟩
        cases poll using Poll.casesResult with
        | ok u => exact hputs
        | error e => exact hputs
        | pending => exact hputs
  · simp only [if_neg hpos]
    have hnil : p.peeked = [] := List.eq_nil_of_length_eq_zero (by omega)
    rcases hr : AsyncRead.pollRead p.reader rb with ⟨poll, rb', reader⟩
    obtain ⟨hlen, d, hd, hfilled, hnone⟩ := LawfulAsyncRead.pollRead_spec hr
    exact ⟨hlen, d, hfilled, Peekable.hands_reader p hnil hd, hnone⟩

omit [AsyncRead R] [LawfulBuffer B] in
/-- Appending what a topped-up peek buffer holds. -/
theorem PutsPeeked.of_fetched {p p' : Peekable R B} {d : List UInt8} (rb : ReadBuf)
    (hf : Fetched p p' d) (hle : p'.peeked.length ≤ rb.remaining) :
    ∃ rb', rb.putSlice p'.peeked = .ok rb' ∧ PutsPeeked p rb (.ready (.ok ())) rb' p' := by
  obtain ⟨rb', hput, hfilled, hlen⟩ := rb.putSlice_spec _ hle
  refine ⟨rb', hput, hlen, ⟨d, hf⟩, fun _ => ?_, fun h => absurd rfl h⟩
  rw [hfilled, List.take_of_length_le hle]

omit [AsyncRead R] [LawfulBuffer B] in
theorem PutsPeeked.unready {p p' : Peekable R B} {rb : ReadBuf} {poll : Poll (Except IoError Unit)}
    (hf : Fetched p p' []) (hpoll : poll ≠ .ready (.ok ())) : PutsPeeked p rb poll rb p' :=
  ⟨rfl, ⟨[], hf⟩, fun h => absurd h hpoll, fun _ => ⟨rfl, hf⟩⟩

omit [AsyncRead R] [LawfulBuffer B] in
/-- A top-up for which nothing arrived: the bytes at hand are served, if there are any. -/
theorem served_sat {p p' : Peekable R B} {rb : ReadBuf} (hf : Fetched p p' [])
    (hle : p.peeked.length ≤ rb.remaining) :
    Exec.Sat (if p.peeked.length > 0 then do
        let buf ← rb.putSlice p'.peeked
        return (Poll.ready (Except.ok ()), buf, p')
      else return (.pending, rb, p')) fun (poll, rb', p') => PutsPeeked p rb poll rb' p' := by
  by_cases hpos : p.peeked.length > 0
  · have hp : p'.peeked = p.peeked := by simpa using hf.peeked
    obtain ⟨rb', hput, hputs⟩ := PutsPeeked.of_fetched rb hf (by rw [hp]; exact hle)
    simp only [if_pos hpos, hput, Exec.ok_bind, Exec.pure_eq, Exec.sat_ok]
    exact hputs
  · simp only [if_neg hpos]
    exact .unready hf (by simp)

theorem pollPeek_sat [LawfulFreshRead R] (fuel : Nat) (p : Peekable R B) (rb : ReadBuf) :
    (pollPeek fuel p rb).Sat fun (poll, rb', p') => PutsPeeked p rb poll rb' p' := by
  simp only [pollPeek, Peekable.len_buffer]
  by_cases hzero : rb.remaining = 0
  · simp only [if_pos hzero, Exec.pure_eq, Exec.sat_ok]
    exact ⟨rfl, ⟨[], .refl p⟩, fun _ => by simp [hzero], fun h => absurd rfl h⟩
  · simp only [if_neg hzero]
    by_cases hge : p.peeked.length ≥ rb.remaining
    · obtain ⟨rb', hput, hfilled, hlen⟩ :=
        rb.putSlice_spec (p.peeked.take rb.remaining) (by simp)
      simp only [if_pos hge, slice_front p.peeked hge, hput, Exec.ok_bind, Exec.pure_eq,
        Exec.sat_ok]
      exact ⟨hlen, ⟨[], .refl p⟩, fun _ => hfilled, fun h => absurd rfl h⟩
    · simp only [if_neg hge]
      rcases hres : resize p.buffer (p.peeked.length + (rb.remaining - p.peeked.length)) with
        ⟨_ | _, buffer⟩
      · exact .unready (.of_resize_error hres) (by simp)
      · refine (pollRetry_sat readTail_lawful fuel (Spare.of_resize hres (by omega))).bind ?_
        intro out hread
        obtain ⟨poll, p₁⟩ := out
        cases poll using Poll.casesResult with
        | ok n =>
          obtain ⟨hn, d, hd, hf⟩ : ReadInto p _ (some n) p₁ := hread
          have hlen := congrArg List.length hf.peeked
          rw [List.length_append, hd] at hlen
          obtain ⟨rb', hput, hputs⟩ := PutsPeeked.of_fetched rb hf (by omega)
          simp only [slice_front _ (Nat.le_of_eq hlen.symm),
            List.take_of_length_le (Nat.le_of_eq hlen), hput, Exec.ok_bind, Exec.pure_eq,
            Exec.sat_ok]
          exact hputs
        | error e =>
          have hf := Spare.rollback hread
          by_cases he : e.kind = .wouldBlock
          · simp only [if_pos he]
            exact served_sat hf (by omega)
          · simp only [if_neg he]
            exact .unready hf (by simp)
        | pending => exact served_sat (Spare.rollback hread) (by omega)

/-- What `Peek` reports, in the slice it was given. -/
theorem Peek.poll_sat [LawfulFreshRead R] (fuel : Nat) (f : Peek R B) :
    (Peek.poll fuel f).Sat fun (poll, f') =>
      ∃ poll₀ rb, PutsPeeked f.peekable (ReadBuf.new f.buf) poll₀ rb f'.peekable ∧
        f'.buf = rb.buf ∧ poll = poll₀.mapOk fun () => rb.filledBytes.length := by
  refine (pollPeek_sat fuel f.peekable (ReadBuf.new f.buf)).bind ?_
  intro out h
  obtain ⟨poll, rb, p'⟩ := out
  exact ⟨poll, rb, h, rfl, rfl⟩

/-- `PeekBuf` declares written what it reports, and nothing else. -/
structure PutsInto {W : Type} [BufMut W] (f : PeekBuf R W B) (poll : Poll (Except IoError Nat))
    (f' : PeekBuf R W B) : Prop where
  fetched : ∃ d, Fetched f.peeker f'.peeker d
  appends : ∀ n, poll.handed = some n → ∃ d, d.length = n ∧
    BufMut.written f'.buf = BufMut.written f.buf ++ d ∧ d <+: f'.peeker.peeked
  untouched : poll.handed = none →
    BufMut.written f'.buf = BufMut.written f.buf ∧ Fetched f.peeker f'.peeker []

theorem PeekBuf.poll_sat {W : Type} [BufMut W] [LawfulBufMut W] [LawfulFreshRead R] (fuel : Nat)
    (f : PeekBuf R W B) : (PeekBuf.poll fuel f).Sat fun (poll, f') => PutsInto f poll f' := by
  unfold PeekBuf.poll
  by_cases hroom : BufMut.hasRemainingMut f.buf = true
  · rw [if_neg (by simpa using hroom)]
    refine (pollPeek_sat fuel f.peeker (ReadBuf.new (BufMut.chunkMut f.buf))).bind ?_
    intro out h
    obtain ⟨poll, rb, p'⟩ := out
    have hwritten := LawfulBufMut.written_setChunk f.buf rb.buf
    cases poll using Poll.casesResult with
    | pending =>
      exact ⟨h.fetched, by rintro n ⟨⟩, fun _ => ⟨hwritten, (h.untouched (by simp)).2⟩⟩
    | error e =>
      exact ⟨h.fetched, by rintro n ⟨⟩, fun _ => ⟨hwritten, (h.untouched (by simp)).2⟩⟩
    | ok u =>
      have hchunk := LawfulBufMut.chunkMut_setChunk f.buf (h.length.trans (by simp))
      obtain ⟨sink, hadv, hsink⟩ :=
        LawfulBufMut.advanceMut_ok (BufMut.setChunk f.buf rb.buf) (n := rb.filledBytes.length)
          (by rw [hchunk]; simpa using rb.filled_le)
      have hfilled := h.appends rfl
      rw [ReadBuf.filledBytes_new, List.nil_append] at hfilled
      simp only [hadv, Exec.ok_bind, Exec.pure_eq, Exec.sat_ok]
      refine ⟨h.fetched, ?_, by rintro ⟨⟩⟩
      intro n hn
      cases hn
      refine ⟨rb.filledBytes, rfl, ?_, hfilled ▸ List.take_prefix _ _⟩
      rw [hsink, hwritten, hchunk, rb.take_filledBytes]
  · rw [if_pos (by simpa using hroom)]
    refine ⟨⟨[], .refl _⟩, ?_, by rintro ⟨⟩⟩
    intro n hn
    cases hn
    exact ⟨[], rfl, (List.append_nil _).symm, List.nil_prefix⟩

/-- The tokio future makes the same progress and also returns the length. -/
theorem PeekExact.poll_sat [LawfulFreshRead R] (fuel : Nat) (f : PeekExact R B)
    (h : f.Resumable) :
    (PeekExact.poll fuel f).Sat fun (poll, f') =>
      ∃ poll₀, f.Polled poll₀ f' ∧ poll = poll₀.mapOk fun () => f.buf.length := by
  refine (PeekExact.pollWith_sat readTail_lawful eof fuel f h).bind ?_
  intro out h
  obtain ⟨poll, f'⟩ := out
  exact ⟨poll, h, rfl⟩

end PeekableReader.Tokio
