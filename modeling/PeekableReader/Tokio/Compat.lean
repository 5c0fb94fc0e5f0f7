import PeekableReader.Future.Alike
import PeekableReader.Script.Basic
import PeekableReader.Tokio.Alike

/-!
# A reader of `tokio` as a reader of `futures`

`Compat` polls the reader with a fresh `ReadBuf` over the slice it is given. A poll of either
flavour over the one reader then does the same: `poll_peek` always, `poll_read` if the reader
looks at no more than the unfilled part of the `ReadBuf` that is handed on to it.
-/

namespace PeekableReader

open Buffer Tokio

variable {R B : Type}

/-- A reader of `tokio` as a reader of `futures`. -/
structure Compat (R : Type) where
  inner : R
  deriving DecidableEq

instance [Tokio.AsyncRead R] : Future.AsyncRead (Compat R) where
  pollRead c buf :=
    let (poll, rb, inner) := Tokio.AsyncRead.pollRead c.inner (ReadBuf.new buf)
    (poll.mapOk fun () => rb.filledBytes.length, rb.buf, ⟨inner⟩)

/-- A reader, and the same behind the adapter. -/
def Behind (r : R) (c : Compat R) : Prop := c.inner = r

/-- A peekable reader, with its reader behind the adapter. -/
def Peekable.behind (p : Peekable R B) : Peekable (Compat R) B := { p with reader := ⟨p.reader⟩ }

theorem Peekable.alike_behind (p : Peekable R B) : Alike Behind Eq p p.behind := ⟨rfl, rfl, rfl⟩

theorem Alike.eq_behind {p : Peekable R B} {q : Peekable (Compat R) B} (h : Alike Behind Eq p q) :
    q = p.behind := by
  obtain ⟨⟨_⟩, _, _⟩ := q
  obtain ⟨hreader, hbuffer, hcap⟩ := h
  cases hreader
  cases hbuffer
  cases hcap
  rfl

/-- The part of a `ReadBuf` that is still to be filled. -/
def Tokio.ReadBuf.unfilled (rb : ReadBuf) : List UInt8 := rb.buf.drop rb.filled

theorem Tokio.ReadBuf.length_unfilled (rb : ReadBuf) : rb.unfilled.length = rb.remaining := by
  simp [ReadBuf.unfilled, ReadBuf.remaining]

theorem Tokio.ReadBuf.unfilled_append (rb : ReadBuf) {src : List UInt8} (h : src.length ≤ rb.remaining) :
    (rb.append src h).unfilled = rb.unfilled.drop src.length := by
  have := rb.length_filledBytes
  simp only [ReadBuf.unfilled, ReadBuf.append, ReadBuf.filledBytes] at *
  rw [List.drop_drop]
  exact List.drop_left' (by simp [this])

/-- A `ReadBuf`, with another one over its unfilled part put back. -/
def Tokio.ReadBuf.extend (rb tail : ReadBuf) : ReadBuf where
  buf := rb.filledBytes ++ tail.buf
  filled := rb.filled + tail.filled
  filled_le := by
    have := tail.filled_le
    simp
    omega

theorem Tokio.ReadBuf.extend_new (rb : ReadBuf) : rb.extend (.new rb.unfilled) = rb := by
  obtain ⟨buf, filled, _⟩ := rb
  simp [ReadBuf.extend, ReadBuf.new, ReadBuf.unfilled, ReadBuf.filledBytes]

theorem Tokio.ReadBuf.extend_append (rb : ReadBuf) {src : List UInt8} (h : src.length ≤ rb.remaining)
    (h' : src.length ≤ (ReadBuf.new rb.unfilled).remaining) :
    rb.extend ((ReadBuf.new rb.unfilled).append src h') = rb.append src h := by
  obtain ⟨buf, filled, _⟩ := rb
  simp [ReadBuf.extend, ReadBuf.new, ReadBuf.unfilled, ReadBuf.filledBytes, ReadBuf.append]

/-- A reader that looks at the unfilled part of a `ReadBuf` only, and fills nothing in unless it
is ready. -/
class UniformRead (R : Type) [Tokio.AsyncRead R] : Prop where
  pollRead_extend (r : R) (rb : ReadBuf) : Tokio.AsyncRead.pollRead r rb =
    ((Tokio.AsyncRead.pollRead r (.new rb.unfilled)).1,
      rb.extend (Tokio.AsyncRead.pollRead r (.new rb.unfilled)).2.1,
      (Tokio.AsyncRead.pollRead r (.new rb.unfilled)).2.2)
  unready_filled (r : R) (buf : List UInt8)
    (h : (Tokio.AsyncRead.pollRead r (.new buf)).1 ≠ .ready (.ok ())) :
    (Tokio.AsyncRead.pollRead r (.new buf)).2.1.filled = 0

section Tail

variable [Tokio.AsyncRead R] [Buffer B]

/-- Both flavours poll the reader with a range of the peek buffer in the same way. -/
theorem readTail_behind :
    TailSim Behind Eq (Tokio.readTail : TailRead R B) (Future.readTail : TailRead (Compat R) B) := by
  intro p q lo hi h
  rw [h.eq_behind]
  exact .same (slice p.peeked lo hi) fun spare => ⟨rfl, rfl, rfl, rfl⟩

end Tail

/-! ## Destinations -/

/-- A `ReadBuf` and the slice of its unfilled part, after a call that was given both. -/
structure Beside {σ τ : Type} (Sim : σ → τ → Prop) (rb : ReadBuf)
    (out : Poll (Except IoError Unit) × ReadBuf × σ)
    (out' : Poll (Except IoError Nat) × List UInt8 × τ) : Prop where
  poll : out'.1 = out.1.mapOk fun () => out.2.1.filled - rb.filled
  buf : out.2.1.buf = rb.buf.take rb.filled ++ out'.2.1
  filled : out.2.1.filled = rb.filled + out'.1.handed.getD 0
  sim : Sim out.2.2 out'.2.2

section Beside

variable {σ τ : Type} {Sim : σ → τ → Prop} {rb : ReadBuf} {s : σ} {t : τ}

/-- Nothing was put into the destination. -/
theorem Beside.unready {poll : Poll (Except IoError Unit)} {poll' : Poll (Except IoError Nat)}
    (hpoll : poll' = poll.mapOk fun () => 0) (hnone : poll'.handed.getD 0 = 0) (h : Sim s t) :
    Beside Sim rb (poll, rb, s) (poll', rb.unfilled, t) :=
  ⟨by simp [hpoll], by simp [ReadBuf.unfilled], by simp [hnone], h⟩

/-- The same bytes were put into both. -/
theorem Beside.append {src : List UInt8} (hfit : src.length ≤ rb.remaining) (h : Sim s t) :
    Beside Sim rb (.ready (.ok ()), rb.append src hfit, s)
      (.ready (.ok src.length), src ++ rb.unfilled.drop src.length, t) := by
  have hfilled : (rb.append src hfit).filled = rb.filled + src.length := rfl
  refine ⟨by simp [Poll.mapOk, hfilled], ?_, hfilled, h⟩
  simp [ReadBuf.append, ReadBuf.unfilled, ReadBuf.filledBytes]

/-- Bytes that fit, put into both and reported. -/
theorem Beside.put {src : List UInt8} {n : Nat} (hlen : src.length = n) (hfit : n ≤ rb.remaining)
    (h : Sim s t) :
    Exec.Rel (Beside Sim rb) ((rb.putSlice src).bind fun rb => .ok (.ready (.ok ()), rb, s))
      ((copyInto rb.unfilled 0 n src).bind fun buf => .ok (.ready (.ok n), buf, t)) := by
  subst hlen
  rw [ReadBuf.putSlice, dif_pos hfit, copyInto_front _ rfl (by rw [rb.length_unfilled]; exact hfit)]
  exact Beside.append hfit h

/-- Bytes that fill the destination. -/
theorem Beside.fill {src : List UInt8} {n : Nat} (hlen : src.length = n) (hfit : n = rb.remaining)
    (h : Sim s t) :
    Exec.Rel (Beside Sim rb) ((rb.putSlice src).bind fun rb => .ok (.ready (.ok ()), rb, s))
      ((copyFromSlice rb.unfilled src).bind fun buf => .ok (.ready (.ok n), buf, t)) := by
  subst hlen
  rw [ReadBuf.putSlice, dif_pos (Nat.le_of_eq hfit),
    copyFromSlice_eq (by rw [rb.length_unfilled]; exact hfit.symm)]
  have happend := Beside.append (Nat.le_of_eq hfit) h
  rwa [List.drop_of_length_le (by rw [rb.length_unfilled, hfit]), List.append_nil] at happend

end Beside

/-! ## Polls -/

section Polls

variable [Tokio.AsyncRead R] [Buffer B] [LawfulBuffer B]

/-- How much of the peek buffer a poll for `total` bytes leaves to copy out. -/
theorem pollRetry_room [Tokio.BoundedAsyncRead R] (fuel : Nat) (p : Peekable R B) {buffer : B}
    {total : Nat} (hres : resize p.buffer total = (.ok (), buffer)) (hle : p.peeked.length ≤ total) :
    (pollRetry Tokio.readTail fuel { p with buffer } p.peeked.length).Sat fun out =>
      (∀ n, out.1.handed = some n → p.peeked.length + n ≤ total ∧
        (out.2.truncate (p.peeked.length + n)).peeked.length = p.peeked.length + n) ∧
      (out.1.handed = none → (out.2.truncate p.peeked.length).peeked = p.peeked) := by
  let _ := Ledger.any R UInt8
  have := Tokio.BoundedAsyncRead.lawful R
  refine (pollRetry_sat Tokio.readTail_lawful fuel (Spare.of_resize hres hle)).mono ?_
  rintro ⟨poll, p₁⟩ hread
  refine ⟨fun n hn => ?_, fun hnone => ?_⟩
  · simp only [hn] at hread
    obtain ⟨hroom, d, hd, hf⟩ := hread
    exact ⟨by omega, by rw [hf.peeked, List.length_append, hd]⟩
  · simp only [hnone] at hread
    simpa using (Spare.rollback hread).peeked

/-- The retry loops of both flavours end alike, with as much to copy out. -/
theorem pollRetry_behind [Tokio.BoundedAsyncRead R] (fuel : Nat) (p : Peekable R B) {buffer : B}
    {total : Nat} (hres : resize p.buffer total = (.ok (), buffer)) (hle : p.peeked.length ≤ total) :
    Exec.Rel (fun out out' => out' = (out.1, out.2.behind) ∧
        (∀ n, out.1.handed = some n → p.peeked.length + n ≤ total ∧
          (out.2.truncate (p.peeked.length + n)).peeked.length = p.peeked.length + n) ∧
        (out.1.handed = none → (out.2.truncate p.peeked.length).peeked = p.peeked))
      (pollRetry Tokio.readTail fuel { p with buffer } p.peeked.length)
      (pollRetry Future.readTail fuel { p.behind with buffer } p.peeked.length) := by
  refine ((pollRetry_alike readTail_behind .eq fuel
    (p.alike_behind.with_buffer (rfl : buffer = buffer)) p.peeked.length).and_left
    (pollRetry_room fuel p hres hle)).mono ?_
  rintro ⟨poll, p₁⟩ ⟨poll', q₁⟩ ⟨⟨hpoll, h₁⟩, hroom⟩
  exact ⟨Prod.ext hpoll.symm h₁.eq_behind, hroom⟩

/-- A peek that the peek buffer covers. -/
theorem pollPeek_behind_covered (fuel : Nat) {p : Peekable R B} {rb : ReadBuf}
    (hroom : 0 < rb.remaining) (hge : rb.remaining ≤ p.peeked.length) :
    Exec.Rel (Beside (Alike Behind Eq) rb) (Tokio.pollPeek fuel p rb)
      (Future.pollPeek fuel p.behind rb.unfilled) := by
  have hbehind : p.behind.peeked = p.peeked := rfl
  have hbuffer : p.behind.buffer = p.buffer := rfl
  have hlen : (p.peeked.take rb.remaining).length = rb.remaining := by simp; omega
  have hput := Beside.fill hlen rfl p.alike_behind
  simp only [Tokio.pollPeek, Future.pollPeek, rb.length_unfilled, hbuffer, hbehind, p.len_buffer,
    if_neg (Nat.ne_of_gt hroom), ge_iff_le, if_pos hge, gt_iff_lt, if_pos (hroom.trans_le hge)]
  by_cases hlt : rb.remaining < p.peeked.length
  · simp only [if_pos hlt, slice_front p.peeked hge, Exec.ok_bind]
    exact hput
  · have heq : rb.remaining = p.peeked.length := by omega
    rw [List.take_of_length_le (Nat.le_of_eq heq.symm)] at hput
    simp only [if_neg hlt, if_pos heq, slice_front p.peeked hge, Exec.ok_bind,
      List.take_of_length_le (Nat.le_of_eq heq.symm)]
    exact hput

/-- A peek that has to add to the peek buffer. -/
theorem pollPeek_behind_topped [Tokio.BoundedAsyncRead R] (fuel : Nat) {p : Peekable R B}
    {rb : ReadBuf} (hpos : 0 < p.peeked.length) (hlt : p.peeked.length < rb.remaining) :
    Exec.Rel (Beside (Alike Behind Eq) rb) (Tokio.pollPeek fuel p rb)
      (Future.pollPeek fuel p.behind rb.unfilled) := by
  have hbehind : p.behind.peeked = p.peeked := rfl
  have hbuffer : p.behind.buffer = p.buffer := rfl
  have htotal : p.peeked.length + (rb.remaining - p.peeked.length) = rb.remaining := by omega
  simp only [Tokio.pollPeek, Future.pollPeek, rb.length_unfilled, hbuffer, hbehind, p.len_buffer,
    if_neg (by omega : ¬ rb.remaining = 0), ge_iff_le, if_neg (Nat.not_le_of_lt hlt), gt_iff_lt,
    if_pos hpos, if_neg (by omega : ¬ rb.remaining < p.peeked.length),
    if_neg (by omega : ¬ rb.remaining = p.peeked.length), htotal]
  rcases hres : resize p.buffer rb.remaining with ⟨e | _, buffer⟩
  · have hrefused : Alike Behind Eq { p with buffer } { p.behind with buffer } := ⟨rfl, rfl, rfl⟩
    exact Beside.unready rfl rfl hrefused
  · refine (pollRetry_behind fuel p hres (by omega)).bind ?_
    rintro ⟨poll, p₁⟩ _ ⟨rfl, hsome, hnone⟩
    have hcut (n : Nat) : (p₁.behind.truncate n).peeked = (p₁.truncate n).peeked := rfl
    have halike (n : Nat) : Alike Behind Eq (p₁.truncate n) (p₁.behind.truncate n) := ⟨rfl, rfl, rfl⟩
    cases poll using Poll.casesResult with
    | ok n =>
      obtain ⟨hroom, hlen⟩ := hsome n rfl
      simp only [Nat.add_comm n, slice_front _ (Nat.le_of_eq hlen.symm), Exec.ok_bind, hcut,
        List.take_of_length_le (Nat.le_of_eq hlen)]
      exact Beside.put hlen hroom (halike _)
    | error e =>
      by_cases he : e.kind = .wouldBlock
      · simp only [if_pos he, hcut, hnone rfl]
        exact Beside.put rfl (by omega) (halike _)
      · simp only [if_neg he]
        exact .unready rfl rfl (halike _)
    | pending =>
      simp only [hcut, hnone rfl]
      exact Beside.put rfl (by omega) (halike _)

/-- A peek that finds the peek buffer empty. -/
theorem pollPeek_behind_fresh [Tokio.BoundedAsyncRead R] (fuel : Nat) {p : Peekable R B}
    {rb : ReadBuf} (hnil : p.peeked.length = 0) (hroom : 0 < rb.remaining) :
    Exec.Rel (Beside (Alike Behind Eq) rb) (Tokio.pollPeek fuel p rb)
      (Future.pollPeek fuel p.behind rb.unfilled) := by
  have hbuffer : p.behind.buffer = p.buffer := rfl
  simp only [Tokio.pollPeek, Future.pollPeek, rb.length_unfilled, hbuffer, p.len_buffer, hnil,
    if_neg (Nat.ne_of_gt hroom), ge_iff_le, if_neg (Nat.not_le_of_lt hroom), gt_iff_lt,
    Nat.lt_irrefl, if_false, Nat.sub_zero, Nat.zero_add]
  rcases hres : resize p.buffer rb.remaining with ⟨e | _, buffer⟩
  · have hrefused : Alike Behind Eq { p with buffer } { p.behind with buffer } := ⟨rfl, rfl, rfl⟩
    exact Beside.unready rfl rfl hrefused
  · have hretry := pollRetry_behind fuel p hres (by omega)
    rw [hnil] at hretry
    refine hretry.bind ?_
    rintro ⟨poll, p₁⟩ _ ⟨rfl, hsome, -⟩
    have hcut (n : Nat) : (p₁.behind.truncate n).peeked = (p₁.truncate n).peeked := rfl
    have halike (n : Nat) : Alike Behind Eq (p₁.truncate n) (p₁.behind.truncate n) := ⟨rfl, rfl, rfl⟩
    cases poll using Poll.casesResult with
    | ok n =>
      obtain ⟨hroom, hlen⟩ := hsome n rfl
      simp only [Nat.zero_add] at hroom hlen
      simp only [slice_front _ (Nat.le_of_eq hlen.symm), Exec.ok_bind, hcut,
        List.take_of_length_le (Nat.le_of_eq hlen)]
      exact Beside.put hlen hroom (halike _)
    | error e =>
      by_cases he : e.kind = .wouldBlock
      · simp only [if_pos he]
        exact .unready rfl rfl (halike _)
      · simp only [if_neg he]
        exact .unready rfl rfl (halike _)
    | pending => exact .unready rfl rfl (halike _)

theorem pollPeek_behind [Tokio.BoundedAsyncRead R] (fuel : Nat) (p : Peekable R B) (rb : ReadBuf) :
    Exec.Rel (Beside (Alike Behind Eq) rb) (Tokio.pollPeek fuel p rb)
      (Future.pollPeek fuel p.behind rb.unfilled) := by
  rcases Nat.eq_zero_or_pos rb.remaining with hzero | hroom
  · -- there is no room for anything, in either destination
    have hnil : rb.unfilled = [] := List.eq_nil_of_length_eq_zero (by rw [rb.length_unfilled, hzero])
    have hnothing : Beside (Alike Behind Eq) rb (.ready (.ok ()), rb, p)
        (.ready (.ok 0), rb.unfilled, p.behind) := .unready rfl rfl p.alike_behind
    have hbehind : p.behind.peeked = p.peeked := rfl
    have hbuffer : p.behind.buffer = p.buffer := rfl
    simp only [Tokio.pollPeek, Future.pollPeek, rb.length_unfilled, hbuffer, hbehind, p.len_buffer,
      hzero, if_true]
    by_cases hpos : p.peeked.length > 0
    · simp only [hnil, if_pos hpos, slice_front p.peeked (Nat.zero_le _), List.take_zero,
        Exec.ok_bind, copyFromSlice_eq]
      rwa [hnil] at hnothing
    · simp only [if_neg hpos]
      exact hnothing
  · rcases Nat.lt_or_ge p.peeked.length rb.remaining with hlt | hge
    · rcases Nat.eq_zero_or_pos p.peeked.length with hnil | hpos
      · exact pollPeek_behind_fresh fuel hnil hroom
      · exact pollPeek_behind_topped fuel hpos hlt
    · exact pollPeek_behind_covered fuel hroom hge

/-- What a uniform reader puts into a `ReadBuf` and into the slice of its unfilled part. -/
theorem Beside.extend {σ τ : Type} {Sim : σ → τ → Prop} {s : σ} {t : τ} (rb tail : ReadBuf)
    {poll : Poll (Except IoError Unit)} (hunready : poll ≠ .ready (.ok ()) → tail.filled = 0)
    (h : Sim s t) :
    Beside Sim rb (poll, rb.extend tail, s)
      (poll.mapOk fun () => tail.filledBytes.length, tail.buf, t) := by
  have hfilled : (rb.extend tail).filled = rb.filled + tail.filled := rfl
  refine ⟨?_, rfl, ?_, h⟩
  · cases poll using Poll.casesResult <;> simp [Poll.mapOk, hfilled]
  · cases poll using Poll.casesResult with
    | ok u => simp [Poll.mapOk, hfilled]
    | error e => simpa [Poll.mapOk, hfilled] using hunready
    | pending => simpa [Poll.mapOk, hfilled] using hunready

/-- The same with bytes put in front. -/
theorem Beside.append_extend {σ τ : Type} {Sim : σ → τ → Prop} {s : σ} {t : τ} (rb tail : ReadBuf)
    {src : List UInt8} (hfit : src.length ≤ rb.remaining) (h : Sim s t) :
    Beside Sim rb (.ready (.ok ()), (rb.append src hfit).extend tail, s)
      (.ready (.ok (tail.filled + src.length)), src ++ tail.buf, t) := by
  have hfilled : ((rb.append src hfit).extend tail).filled = rb.filled + (tail.filled + src.length) := by
    simp [ReadBuf.extend, ReadBuf.append]
    omega
  refine ⟨by simp [Poll.mapOk, hfilled], ?_, hfilled, h⟩
  change (rb.append src hfit).filledBytes ++ tail.buf = rb.filledBytes ++ (src ++ tail.buf)
  rw [ReadBuf.filledBytes_append, List.append_assoc]

theorem pollRead_behind [UniformRead R] (p : Peekable R B) (rb : ReadBuf) :
    Exec.Rel (Beside (Alike Behind Eq) rb) (Tokio.pollRead p rb)
      (Future.pollRead p.behind rb.unfilled) := by
  have hbehind : p.behind.peeked = p.peeked := rfl
  have hbuffer : p.behind.buffer = p.buffer := rfl
  simp only [Tokio.pollRead, Future.pollRead, rb.length_unfilled, hbuffer, hbehind, p.len_buffer]
  by_cases hpos : p.peeked.length > 0
  · simp only [if_pos hpos]
    by_cases hlt : rb.remaining < p.peeked.length
    · have hlen : (p.peeked.take rb.remaining).length = rb.remaining := by simp; omega
      obtain ⟨b, hb, -⟩ := LawfulBuffer.consume_ok p.buffer (n := rb.remaining) (by
        change _ ≤ p.peeked.length; omega)
      simp only [if_pos hlt, slice_front p.peeked (Nat.le_of_lt hlt), Exec.ok_bind, hb]
      have hleft : Alike Behind Eq { p with buffer := b } { p.behind with buffer := b } :=
        ⟨rfl, rfl, rfl⟩
      exact Beside.fill hlen rfl hleft
    · simp only [if_neg hlt]
      by_cases heq : rb.remaining = p.peeked.length
      · simp only [if_pos heq]
        have hleft : Alike Behind Eq { p with buffer := clear p.buffer }
            { p.behind with buffer := clear p.buffer } := ⟨rfl, rfl, rfl⟩
        exact Beside.fill heq.symm rfl hleft
      · have hfit : p.peeked.length ≤ rb.remaining := by omega
        have hfit' : p.peeked.length ≤ rb.unfilled.length := by rw [rb.length_unfilled]; exact hfit
        have hrest : (rb.append p.peeked hfit).unfilled = rb.unfilled.drop p.peeked.length :=
          rb.unfilled_append hfit
        simp only [if_neg heq, ReadBuf.putSlice, dif_pos hfit, Exec.ok_bind, copyInto_front _ rfl hfit',
          List.length_append, slice_append_right]
        rw [UniformRead.pollRead_extend, hrest]
        have hunready := UniformRead.unready_filled p.reader (rb.unfilled.drop p.peeked.length)
        simp only [Peekable.behind, Future.AsyncRead.pollRead]
        generalize Tokio.AsyncRead.pollRead p.reader (.new (rb.unfilled.drop p.peeked.length)) = out
          at hunready ⊢
        obtain ⟨poll, tail, reader⟩ := out
        have hleft : Alike Behind Eq { p with reader, buffer := clear p.buffer }
            { reader := ⟨reader⟩, buffer := clear p.buffer, bufCap := p.bufCap } := ⟨rfl, rfl, rfl⟩
        have hput := Beside.append_extend rb tail hfit hleft
        cases poll using Poll.casesResult with
        | ok u => simpa [Poll.mapOk] using hput
        | error e =>
          rw [hunready (by simp), Nat.zero_add] at hput
          simpa [Poll.mapOk] using hput
        | pending =>
          rw [hunready (by simp), Nat.zero_add] at hput
          simpa [Poll.mapOk] using hput
  · simp only [if_neg hpos]
    rw [UniformRead.pollRead_extend]
    exact Beside.extend rb _ (UniformRead.unready_filled p.reader rb.unfilled)
      (p.alike_behind.with_reader rfl)

end Polls

end PeekableReader
