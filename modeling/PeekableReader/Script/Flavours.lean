import PeekableReader.Script.Futures

/-!
# Single calls in three flavours

One call of `read` or `peek` on a script, in the three flavours side by side. The two
asynchronous flavours take the destination in different forms, but for the same request
size they give the same answer and leave the same peekable reader, buffer included. A
synchronous call is the call of the `future` flavour on a script that is never pending.
-/

namespace PeekableReader

open Buffer PollScript

variable {B : Type} [Buffer B]

/-- Calls of both flavours for `n` bytes hand `answer` to the caller and leave `p'`: the one
writes to the front of its slice, the other appends to the filled part of its `ReadBuf`. -/
structure Gives (n : Nat) (answer : Poll (Except IoError (List UInt8))) (p' : Peekable PollScript B)
    (future : List UInt8 → Exec (Poll (Except IoError Nat) × List UInt8 × Peekable PollScript B))
    (tokio : Tokio.ReadBuf → Exec (Poll (Except IoError Unit) × Tokio.ReadBuf × Peekable PollScript B)) :
    Prop where
  future (buf : List UInt8) (h : buf.length = n) :
    ∃ buf', future buf = .ok (answer.mapOk List.length, buf', p') ∧
      ∀ d, answer = .ready (.ok d) → buf'.take d.length = d
  tokio (rb : Tokio.ReadBuf) (h : rb.remaining = n) :
    ∃ rb', tokio rb = .ok (answer.mapOk fun _ => (), rb', p') ∧
      ∀ d, answer = .ready (.ok d) → rb'.filledBytes = rb.filledBytes ++ d

theorem putSlice_eq {rb : Tokio.ReadBuf} {src : List UInt8} (h : src.length ≤ rb.remaining) :
    rb.putSlice src = .ok (rb.append src h) := dif_pos h

/-! ## `read` -/

/-- The cases of a read of `n` bytes: past an empty peek buffer, from the peek buffer alone,
or from both. -/
inductive ReadCase (p : Peekable PollScript B) (n : Nat) :
    Poll (Except IoError (List UInt8)) → Peekable PollScript B → Prop
  | direct {answer : Poll (Except IoError (List UInt8))} {es : List PollEvent}
      (empty : p.peeked.length = 0) (next : next n p.reader.events = (answer, es)) :
      ReadCase p n answer { p with reader := ⟨es⟩ }
  | served {buffer : B} (nonempty : 0 < p.peeked.length) (le : n ≤ p.peeked.length)
      (rest : asSlice buffer = p.peeked.drop n) :
      ReadCase p n (.ready (.ok (p.peeked.take n))) { p with buffer }
  | topped {answer : Poll (Except IoError (List UInt8))} {es : List PollEvent}
      (nonempty : 0 < p.peeked.length) (lt : p.peeked.length < n)
      (next : next (n - p.peeked.length) p.reader.events = (answer, es)) :
      ReadCase p n (.ready (.ok (p.peeked ++ answer.bytes)))
        { p with reader := ⟨es⟩, buffer := clear p.buffer }

theorem ReadCase.readsOn {p p' : Peekable PollScript B} {n : Nat}
    {answer : Poll (Except IoError (List UInt8))} (h : ReadCase p n answer p') :
    Script.ReadsOn p.events p'.events := by
  cases h with
  | direct _ hnext => exact next_readsOn hnext
  | served _ _ _ => exact .refl _
  | topped _ _ hnext => exact next_readsOn hnext

section Read

variable [LawfulBuffer B] {p : Peekable PollScript B} {n : Nat} {es : List PollEvent}
  {answer : Poll (Except IoError (List UInt8))}

/-- The reader is polled with the destination itself. -/
theorem pollRead_direct (hempty : p.peeked.length = 0)
    (hnext : next n p.reader.events = (answer, es)) :
    Gives n answer { p with reader := ⟨es⟩ } (Future.pollRead p) (Tokio.pollRead p) where
  future buf h := by
    subst h
    refine ⟨overwrite buf answer.bytes, ?_, ?_⟩
    · simp only [Future.pollRead, p.len_buffer, hempty, gt_iff_lt, Nat.lt_irrefl, if_false,
        pollRead_eq hnext]
      rfl
    · rintro d rfl
      exact take_overwrite buf d
  tokio rb h := by
    subst h
    refine ⟨rb.append answer.bytes (next_bytes_le hnext), ?_, ?_⟩
    · simp only [Tokio.pollRead, p.len_buffer, hempty, gt_iff_lt, Nat.lt_irrefl, if_false,
        tokio_pollRead_eq rb hnext]
      rfl
    · rintro d rfl
      exact rb.filledBytes_append d _

/-- A front of the peek buffer is taken, or all of it. -/
theorem exists_served (hle : n ≤ p.peeked.length) :
    ∃ buffer, asSlice buffer = p.peeked.drop n ∧
      (n < p.peeked.length → Buffer.consume p.buffer n = .ok buffer) ∧
      (n = p.peeked.length → buffer = clear p.buffer) := by
  by_cases hlt : n < p.peeked.length
  · obtain ⟨buffer, hconsume, hrest⟩ := LawfulBuffer.consume_ok p.buffer hle
    exact ⟨buffer, hrest, fun _ => hconsume, fun heq => absurd heq (by omega)⟩
  · refine ⟨clear p.buffer, ?_, fun h => absurd h hlt, fun _ => rfl⟩
    rw [asSlice_clear, List.drop_of_length_le (by omega)]

theorem pollRead_served {buffer : B} (hpos : 0 < p.peeked.length) (hle : n ≤ p.peeked.length)
    (hconsume : n < p.peeked.length → Buffer.consume p.buffer n = .ok buffer)
    (hclear : n = p.peeked.length → buffer = clear p.buffer) :
    Gives n (.ready (.ok (p.peeked.take n))) { p with buffer } (Future.pollRead p)
      (Tokio.pollRead p) where
  future buf h := by
    subst h
    have hcopy : copyFromSlice buf (p.peeked.take buf.length) = .ok (p.peeked.take buf.length) :=
      copyFromSlice_eq (by simpa using hle)
    refine ⟨p.peeked.take buf.length, ?_, ?_⟩
    · simp only [Future.pollRead, p.len_buffer, gt_iff_lt, hpos, if_true]
      rcases Nat.lt_or_eq_of_le hle with hlt | heq
      · simp [hlt, slice_front p.peeked hle, hcopy, hconsume hlt, Poll.mapOk, hle]
      · have htake : p.peeked.take buf.length = p.peeked := by rw [heq, List.take_length]
        rw [htake] at hcopy
        simp [heq, hcopy, hclear heq, Poll.mapOk]
    · intro d hd
      cases hd
      rw [List.length_take, Nat.min_eq_left hle, List.take_take, Nat.min_self]
  tokio rb h := by
    subst h
    refine ⟨rb.append (p.peeked.take rb.remaining) (List.length_take_le _ _), ?_, ?_⟩
    · simp only [Tokio.pollRead, p.len_buffer, gt_iff_lt, hpos, if_true]
      rcases Nat.lt_or_eq_of_le hle with hlt | heq
      · simp [hlt, slice_front p.peeked hle, putSlice_eq (List.length_take_le _ _), hconsume hlt,
          Poll.mapOk]
      · have htake : p.peeked.take rb.remaining = p.peeked := by rw [heq, List.take_length]
        simp [heq, putSlice_eq heq.ge, hclear heq, Poll.mapOk]
    · intro d hd
      cases hd
      exact rb.filledBytes_append _ _

/-- The peek buffer is handed over, and the reader polled for more; an answer without bytes
is dropped. -/
theorem pollRead_topped (hpos : 0 < p.peeked.length) (hlt : p.peeked.length < n)
    (hnext : next (n - p.peeked.length) p.reader.events = (answer, es)) :
    Gives n (.ready (.ok (p.peeked ++ answer.bytes)))
      { p with reader := ⟨es⟩, buffer := clear p.buffer } (Future.pollRead p)
      (Tokio.pollRead p) where
  future buf h := by
    subst h
    have hcopy : copyInto buf 0 p.peeked.length p.peeked = .ok (overwrite buf p.peeked) :=
      copyInto_front buf rfl hlt.le
    have hlength : (overwrite buf p.peeked).length = buf.length := length_overwrite hlt.le
    have hrest : slice (overwrite buf p.peeked) p.peeked.length buf.length =
        .ok (buf.drop p.peeked.length) := by
      rw [← hlength, slice_eq _ (by omega) (Nat.le_refl _), List.take_length, overwrite,
        List.drop_left]
    have hpoll : Future.AsyncRead.pollRead p.reader (buf.drop p.peeked.length) =
        (answer.mapOk List.length, overwrite (buf.drop p.peeked.length) answer.bytes, ⟨es⟩) :=
      pollRead_eq (by rwa [List.length_drop])
    have hdst : (overwrite buf p.peeked).take p.peeked.length ++
        overwrite (buf.drop p.peeked.length) answer.bytes =
          overwrite buf (p.peeked ++ answer.bytes) := by
      rw [take_overwrite]
      simp [overwrite]
    refine ⟨overwrite buf (p.peeked ++ answer.bytes), ?_, ?_⟩
    · simp only [Future.pollRead, p.len_buffer, gt_iff_lt, hpos, if_true, hcopy, hlength, hrest,
        hpoll, Exec.ok_bind, show ¬ buf.length < p.peeked.length by omega,
        show ¬ buf.length = p.peeked.length by omega, if_false, hdst]
      cases answer using Poll.casesResult with
      | ok d => simp [Poll.mapOk, Poll.bytes, Nat.add_comm]
      | error e => simp [Poll.mapOk, Poll.bytes]
      | pending => simp [Poll.mapOk, Poll.bytes]
    · intro d hd
      cases hd
      exact take_overwrite buf _
  tokio rb h := by
    subst h
    have hnext' : next (rb.append p.peeked hlt.le).remaining p.reader.events = (answer, es) := by
      rwa [Tokio.ReadBuf.remaining_append]
    refine ⟨(rb.append p.peeked hlt.le).append answer.bytes (next_bytes_le hnext'), ?_, ?_⟩
    · simp only [Tokio.pollRead, p.len_buffer, gt_iff_lt, hpos, if_true, putSlice_eq hlt.le,
        Exec.ok_bind, show ¬ rb.remaining < p.peeked.length by omega,
        show ¬ rb.remaining = p.peeked.length by omega, if_false, tokio_pollRead_eq _ hnext']
      cases answer using Poll.casesResult with
      | ok d => rfl
      | error e => rfl
      | pending => rfl
    · intro d hd
      cases hd
      simp

theorem pollRead_gives (p : Peekable PollScript B) (n : Nat) :
    ∃ answer p', ReadCase p n answer p' ∧
      Gives n answer p' (Future.pollRead p) (Tokio.pollRead p) := by
  rcases Nat.eq_zero_or_pos p.peeked.length with hempty | hpos
  · rcases hnext : next n p.reader.events with ⟨answer, es⟩
    exact ⟨_, _, .direct hempty hnext, pollRead_direct hempty hnext⟩
  · rcases Nat.lt_or_ge p.peeked.length n with hlt | hle
    · rcases hnext : next (n - p.peeked.length) p.reader.events with ⟨answer, es⟩
      exact ⟨_, _, .topped hpos hlt hnext, pollRead_topped hpos hlt hnext⟩
    · obtain ⟨buffer, hrest, hconsume, hclear⟩ := exists_served hle
      exact ⟨_, _, .served hpos hle hrest, pollRead_served hpos hle hconsume hclear⟩

end Read

/-- A synchronous read is a poll that is ready. -/
theorem pollRead_lift [LawfulBuffer B] (p : Peekable Script B) (buf : List UInt8) :
    Future.pollRead p.lift buf =
      (fun out => (.ready out.1, out.2.1, out.2.2.lift)) <$> p.read buf := by
  simp only [Future.pollRead, Peekable.read, p.lift.len_buffer, Peekable.peeked_lift,
    Peekable.reader_lift, PollScript.pollRead_lift]
  split
  · split
    · simp only [map_bind]
      rfl
    · split
      · simp only [map_bind]
        rfl
      · simp only [map_bind]
        refine bind_congr ?_
        intro dst
        refine bind_congr ?_
        intro rest
        rcases Read.read p.reader rest with ⟨e | n, rest', reader⟩
        · rfl
        · rfl
  · rfl

/-! ## `peek` -/

/-- What a peek makes of the answer of the reader, with `bytes` in the peek buffer. -/
def peekAnswer (bytes : List UInt8) :
    Poll (Except IoError (List UInt8)) → Poll (Except IoError (List UInt8))
  | .ready (.ok d) => .ready (.ok (bytes ++ d))
  | .ready (.error e) =>
    if e.kind = .wouldBlock then if bytes.length = 0 then .pending else .ready (.ok bytes)
    else .ready (.error e)
  | .pending => if bytes.length = 0 then .pending else .ready (.ok bytes)

/-- The cases of a peek at `n` bytes: from the peek buffer alone, with a buffer that refuses
to grow, or with an answer of the reader that is not `Interrupted`. -/
inductive PeekCase (p : Peekable PollScript B) (n : Nat) :
    Poll (Except IoError (List UInt8)) → Peekable PollScript B → Prop
  | covered (le : n ≤ p.peeked.length) : PeekCase p n (.ready (.ok (p.peeked.take n))) p
  | refused {e : IoError} {buffer : B} (lt : p.peeked.length < n)
      (resize : resize p.buffer n = (.error e, buffer)) :
      PeekCase p n (.ready (.error e)) { p with buffer }
  | polled {answer : Poll (Except IoError (List UInt8))} {p' : Peekable PollScript B}
      (lt : p.peeked.length < n)
      (next : next (n - p.peeked.length) (PollScript.settled p.reader.events) = (answer, p'.reader.events))
      (kind : ∀ e, answer = .ready (.error e) → e.kind ≠ .interrupted)
      (peeked : p'.peeked = p.peeked ++ answer.bytes) :
      PeekCase p n (peekAnswer p.peeked answer) p'

theorem PeekCase.readsOn {p p' : Peekable PollScript B} {n : Nat}
    {answer : Poll (Except IoError (List UInt8))} (h : PeekCase p n answer p') :
    Script.ReadsOn p.events p'.events := by
  cases h with
  | covered _ => exact .refl _
  | refused _ _ => exact .refl _
  | polled _ hnext _ _ => exact (strip_settled _).trans (next_readsOn hnext)

section Peek

variable [LawfulBuffer B] {p : Peekable PollScript B} {n fuel : Nat}

theorem pollPeek_covered (hle : n ≤ p.peeked.length) :
    Gives n (.ready (.ok (p.peeked.take n))) p (Future.pollPeek fuel p) (Tokio.pollPeek fuel p) where
  future buf h := by
    subst h
    have hcopy : copyFromSlice buf (p.peeked.take buf.length) = .ok (p.peeked.take buf.length) :=
      copyFromSlice_eq (by simpa using hle)
    refine ⟨p.peeked.take buf.length, ?_, ?_⟩
    · simp only [Future.pollPeek, p.len_buffer, gt_iff_lt]
      rcases Nat.lt_or_eq_of_le hle with hlt | heq
      · simp [hlt, Nat.zero_lt_of_lt hlt, slice_front p.peeked hle, hcopy, Poll.mapOk, hle]
      · have htake : p.peeked.take buf.length = p.peeked := by rw [heq, List.take_length]
        rw [htake] at hcopy
        rcases Nat.eq_zero_or_pos p.peeked.length with hempty | hpos
        · have hbuf : buf = [] := List.eq_nil_of_length_eq_zero (heq.trans hempty)
          simp [hempty, hbuf, Poll.mapOk]
        · simp [heq, hpos, hcopy, Poll.mapOk]
    · intro d hd
      cases hd
      rw [List.length_take, Nat.min_eq_left hle, List.take_take, Nat.min_self]
  tokio rb h := by
    subst h
    refine ⟨rb.append (p.peeked.take rb.remaining) (List.length_take_le _ _), ?_, ?_⟩
    · simp only [Tokio.pollPeek, p.len_buffer, gt_iff_lt]
      by_cases hzero : rb.remaining = 0
      · simp [hzero, Poll.mapOk, Tokio.ReadBuf.append_nil]
      · simp [hzero, hle, slice_front p.peeked hle, putSlice_eq (List.length_take_le _ _), Poll.mapOk]
    · intro d hd
      cases hd
      exact rb.filledBytes_append _ _

theorem pollPeek_refused {e : IoError} {buffer : B} (hlt : p.peeked.length < n)
    (hres : resize p.buffer n = (.error e, buffer)) :
    Gives n (.ready (.error e)) { p with buffer } (Future.pollPeek fuel p)
      (Tokio.pollPeek fuel p) where
  future buf h := by
    subst h
    refine ⟨buf, ?_, by rintro d ⟨⟩⟩
    simp only [Future.pollPeek, p.len_buffer, gt_iff_lt, show ¬ buf.length < p.peeked.length by omega,
      show ¬ buf.length = p.peeked.length by omega, show ¬ buf.length = 0 by omega, if_false]
    split
    · simp only [hres]
      rfl
    · simp only [show p.peeked.length = 0 by omega, Nat.zero_add, hres]
      rfl
  tokio rb h := by
    subst h
    refine ⟨rb, ?_, by rintro d ⟨⟩⟩
    simp only [Tokio.pollPeek, p.len_buffer, ge_iff_le, show ¬ rb.remaining ≤ p.peeked.length by omega,
      show ¬ rb.remaining = 0 by omega, if_false, Nat.add_sub_of_le hlt.le, hres]
    rfl

section Polled

-- the buffer has grown, and the reader has been polled with the room behind its contents
variable {buffer : B} {p₁ : Peekable PollScript B} {answer : Poll (Except IoError (List UInt8))}
  (hlt : p.peeked.length < n) (hres : resize p.buffer n = (.ok (), buffer))
  (hrun : pollRetry Future.readTail fuel { p with buffer } p.peeked.length =
    .ok (answer.mapOk List.length, p₁))
  (hle : answer.bytes.length ≤ n - p.peeked.length)
  (hpeeked : (p₁.truncate (p.peeked.length + answer.bytes.length)).peeked = p.peeked ++ answer.bytes)
include hlt hres hrun hle hpeeked

/-- With nothing peeked before, the answer is handed on as it is. -/
theorem future_pollPeek_empty (hempty : p.peeked.length = 0) (buf : List UInt8) (h : buf.length = n) :
    ∃ buf', Future.pollPeek fuel p buf =
        .ok ((peekAnswer p.peeked answer).mapOk List.length, buf',
          p₁.truncate (p.peeked.length + answer.bytes.length)) ∧
      ∀ d, peekAnswer p.peeked answer = .ready (.ok d) → buf'.take d.length = d := by
  subst h
  have hnil : p.peeked = [] := List.eq_nil_of_length_eq_zero hempty
  rw [hempty] at hrun
  simp only [hnil, List.length_nil, List.nil_append] at hpeeked
  simp only [Future.pollPeek, p.len_buffer, hempty, gt_iff_lt, Nat.lt_irrefl, if_false,
    show ¬ buf.length = 0 by omega, Nat.zero_add, hres, hrun, Exec.ok_bind]
  rw [hnil]
  cases answer using Poll.casesResult with
  | ok d =>
    simp only [Poll.bytes, Nat.zero_add] at hle hpeeked
    have hcopy : copyInto buf 0 d.length d = .ok (overwrite buf d) :=
      copyInto_front buf rfl (by omega)
    refine ⟨overwrite buf d, ?_, ?_⟩
    · simp [Poll.mapOk, hpeeked, hcopy, peekAnswer, Poll.bytes]
    · intro d' hd'
      cases hd'
      exact take_overwrite buf d
  | error e =>
    by_cases he : e.kind = .wouldBlock
    · exact ⟨buf, by simp [Poll.mapOk, peekAnswer, Poll.bytes, he], by simp [peekAnswer, he]⟩
    · exact ⟨buf, by simp [Poll.mapOk, peekAnswer, Poll.bytes, he], by simp [peekAnswer, he]⟩
  | pending => exact ⟨buf, by simp [Poll.mapOk, peekAnswer, Poll.bytes], by simp [peekAnswer]⟩

/-- With bytes at hand, they are served in front of the answer or in its place. -/
theorem future_pollPeek_topped (hpos : 0 < p.peeked.length) (buf : List UInt8) (h : buf.length = n) :
    ∃ buf', Future.pollPeek fuel p buf =
        .ok ((peekAnswer p.peeked answer).mapOk List.length, buf',
          p₁.truncate (p.peeked.length + answer.bytes.length)) ∧
      ∀ d, peekAnswer p.peeked answer = .ready (.ok d) → buf'.take d.length = d := by
  subst h
  have hcopy {d : List UInt8} (hd : d.length ≤ buf.length) :
      copyInto buf 0 d.length d = .ok (overwrite buf d) := copyInto_front buf rfl hd
  simp only [Future.pollPeek, p.len_buffer, gt_iff_lt, hpos, if_true,
    show ¬ buf.length < p.peeked.length by omega, show ¬ buf.length = p.peeked.length by omega,
    if_false, hres, hrun, Exec.ok_bind]
  cases answer using Poll.casesResult with
  | ok d =>
    simp only [Poll.bytes] at hle hpeeked
    have hfit : (p.peeked ++ d).length ≤ buf.length := by rw [List.length_append]; omega
    refine ⟨overwrite buf (p.peeked ++ d), ?_, ?_⟩
    · simp only [Poll.mapOk, Nat.add_comm d.length, hpeeked, Poll.bytes]
      rw [← List.length_append, hcopy hfit]
      rfl
    · intro d' hd'
      cases hd'
      exact take_overwrite buf _
  | error e =>
    simp only [Poll.bytes, List.length_nil, Nat.add_zero, List.append_nil] at hpeeked
    by_cases he : e.kind = .wouldBlock
    · refine ⟨overwrite buf p.peeked, ?_, ?_⟩
      · simp [Poll.mapOk, he, hpeeked, hcopy hlt.le, peekAnswer, hpos.ne', Poll.bytes]
      · simp only [peekAnswer, if_pos he, if_neg hpos.ne']
        intro d hd
        cases hd
        exact take_overwrite buf _
    · exact ⟨buf, by simp [Poll.mapOk, he, peekAnswer, Poll.bytes], by simp [peekAnswer, he]⟩
  | pending =>
    simp only [Poll.bytes, List.length_nil, Nat.add_zero, List.append_nil] at hpeeked
    refine ⟨overwrite buf p.peeked, ?_, ?_⟩
    · simp [Poll.mapOk, hpeeked, hcopy hlt.le, peekAnswer, hpos.ne', Poll.bytes]
    · simp only [peekAnswer, if_neg hpos.ne']
      intro d hd
      cases hd
      exact take_overwrite buf _

theorem tokio_pollPeek_polled (rb : Tokio.ReadBuf) (h : rb.remaining = n) :
    ∃ rb', Tokio.pollPeek fuel p rb =
        .ok ((peekAnswer p.peeked answer).mapOk fun _ => (), rb',
          p₁.truncate (p.peeked.length + answer.bytes.length)) ∧
      ∀ d, peekAnswer p.peeked answer = .ready (.ok d) → rb'.filledBytes = rb.filledBytes ++ d := by
  subst h
  simp only [Tokio.pollPeek, p.len_buffer, ge_iff_le, gt_iff_lt,
    show ¬ rb.remaining ≤ p.peeked.length by omega, show ¬ rb.remaining = 0 by omega, if_false,
    Nat.add_sub_of_le hlt.le, hres, tokio_readTail_eq, hrun, Exec.ok_bind]
  cases answer using Poll.casesResult with
  | ok d =>
    simp only [Poll.bytes] at hle hpeeked
    have hfit : (p.peeked ++ d).length ≤ rb.remaining := by rw [List.length_append]; omega
    refine ⟨rb.append (p.peeked ++ d) hfit, ?_, ?_⟩
    · simp only [Poll.mapOk, hpeeked, Poll.bytes]
      rw [← List.length_append, slice_full]
      simp only [Exec.ok_bind, putSlice_eq hfit]
      rfl
    · intro d' hd'
      cases hd'
      exact rb.filledBytes_append _ _
  | error e =>
    simp only [Poll.bytes, List.length_nil, Nat.add_zero, List.append_nil] at hpeeked
    by_cases he : e.kind = .wouldBlock
    · rcases Nat.eq_zero_or_pos p.peeked.length with hempty | hpos
      · exact ⟨rb, by simp [Poll.mapOk, he, hempty, peekAnswer, Poll.bytes],
          by simp [peekAnswer, he, hempty]⟩
      · refine ⟨rb.append p.peeked hlt.le, ?_, ?_⟩
        · simp [Poll.mapOk, he, hpos, hpeeked, putSlice_eq hlt.le, peekAnswer, hpos.ne', Poll.bytes]
        · simp only [peekAnswer, if_pos he, if_neg hpos.ne']
          intro d hd
          cases hd
          exact rb.filledBytes_append _ _
    · exact ⟨rb, by simp [Poll.mapOk, he, peekAnswer, Poll.bytes], by simp [peekAnswer, he]⟩
  | pending =>
    simp only [Poll.bytes, List.length_nil, Nat.add_zero, List.append_nil] at hpeeked
    rcases Nat.eq_zero_or_pos p.peeked.length with hempty | hpos
    · exact ⟨rb, by simp [Poll.mapOk, hempty, peekAnswer, Poll.bytes], by simp [peekAnswer, hempty]⟩
    · refine ⟨rb.append p.peeked hlt.le, ?_, ?_⟩
      · simp [Poll.mapOk, hpos, hpeeked, putSlice_eq hlt.le, peekAnswer, hpos.ne', Poll.bytes]
      · simp only [peekAnswer, if_neg hpos.ne']
        intro d hd
        cases hd
        exact rb.filledBytes_append _ _

theorem pollPeek_polled :
    Gives n (peekAnswer p.peeked answer) (p₁.truncate (p.peeked.length + answer.bytes.length))
      (Future.pollPeek fuel p) (Tokio.pollPeek fuel p) where
  future buf h := by
    rcases Nat.eq_zero_or_pos p.peeked.length with hempty | hpos
    · exact future_pollPeek_empty hlt hres hrun hle hpeeked hempty buf h
    · exact future_pollPeek_topped hlt hres hrun hle hpeeked hpos buf h
  tokio := tokio_pollPeek_polled hlt hres hrun hle hpeeked

end Polled

/-- Any fuel that exceeds the weight of the script is enough for a peek. -/
theorem pollPeek_gives (p : Peekable PollScript B) (n : Nat) {fuel : Nat}
    (hfuel : Script.weight p.events < fuel) :
    ∃ answer p', PeekCase p n answer p' ∧
      Gives n answer p' (Future.pollPeek fuel p) (Tokio.pollPeek fuel p) := by
  rcases Nat.lt_or_ge p.peeked.length n with hlt | hle
  · rcases hres : resize p.buffer n with ⟨e | _, buffer⟩
    · exact ⟨_, _, .refused hlt hres, pollPeek_refused hlt hres⟩
    · obtain ⟨room, hroom, hlen⟩ := resize_grow hres hlt.le
      obtain ⟨answer, p₁, hrun, hnext, hkind, hpeeked⟩ :=
        pollRetry_script fuel (p := { p with buffer }) hroom rfl hfuel
      have hdata := peeked_truncate_read hpeeked (n := p.peeked.length + answer.bytes.length) rfl
      change pollRetry _ fuel _ p.peeked.length = _ at hrun
      rw [hlen] at hnext
      have hcase : PeekCase p n (peekAnswer p.peeked answer)
          (p₁.truncate (p.peeked.length + answer.bytes.length)) := .polled hlt hnext hkind hdata
      exact ⟨_, _, hcase, pollPeek_polled hlt hres hrun (next_bytes_le hnext) hdata⟩
  · exact ⟨_, _, .covered hle, pollPeek_covered hle⟩

end Peek

/-- A synchronous peek is a poll that is ready, unless the reader answers `WouldBlock`. -/
theorem pollPeek_lift [LawfulBuffer B] {fuel : Nat} (p : Peekable Script B) (buf : List UInt8)
    (hfuel : Script.weight p.reader.events < fuel)
    (hcalm : ∀ e, (PeekableReader.settled p.reader.events).head? = some (.error e) →
      e.kind ≠ .wouldBlock) :
    Future.pollPeek fuel p.lift buf =
      (fun out => (.ready out.1, out.2.1, out.2.2.lift)) <$> p.peek fuel buf := by
  -- the poll after the buffer has grown is the read of the synchronous flavour
  have hpoll {n : Nat} {buffer : B} (hres : resize p.buffer n = (.ok (), buffer))
      (hle : p.peeked.length ≤ n) : ∃ answer q,
        Peekable.readRetry fuel { p with buffer } p.peeked.length = .ok (answer, q) ∧
        pollRetry Future.readTail fuel { p.lift with buffer } p.peeked.length =
          .ok (.ready answer, q.lift) ∧
        ∀ e, answer = .error e → e.kind ≠ .wouldBlock := by
    obtain ⟨room, hroom, -⟩ := resize_grow hres hle
    obtain ⟨answer, q, hrun, hnext, -⟩ :=
      readRetry_script fuel (p := { p with buffer }) hroom rfl hfuel
    refine ⟨_, q, hrun, ?_, ?_⟩
    · have hlift := pollRetry_lift fuel { p with buffer } p.peeked.length
      rwa [show Peekable.readRetry fuel { p with buffer } p.peeked.length = _ from hrun] at hlift
    · intro e he
      cases answer with
      | ok d => cases he
      | error e' =>
        cases he
        exact hcalm e (head_of_next_error hnext)
  simp only [Future.pollPeek, Peekable.peek, p.len_buffer, Peekable.peeked_lift,
    Peekable.buffer_lift]
  split
  · split
    · simp only [map_bind]
      rfl
    · split
      · simp only [map_bind]
        rfl
      · rcases hres : resize p.buffer buf.length with ⟨e | _, buffer⟩
        · rfl
        · obtain ⟨answer, q, hread, hlift, hkind⟩ := hpoll hres (by omega)
          simp only [hread, hlift, Exec.ok_bind]
          cases answer with
          | ok n =>
            simp only [map_bind]
            rfl
          | error e =>
            simp only [if_neg (hkind e rfl)]
            rfl
  · split
    · rfl
    · rcases hres : resize p.buffer (p.peeked.length + buf.length) with ⟨e | _, buffer⟩
      · rfl
      · obtain ⟨answer, q, hread, hlift, hkind⟩ := hpoll hres (Nat.le_add_right _ _)
        simp only [hread, hlift, Exec.ok_bind]
        cases answer with
        | ok n =>
          simp only [map_bind]
          rfl
        | error e =>
          simp only [if_neg (hkind e rfl)]
          rfl

end PeekableReader
