import PeekableReader.Async.Logged
import PeekableReader.Tokio.Alike

/-!
# What the `AsyncPeekable` of the `tokio` module asks of the reader
-/

namespace PeekableReader.Tokio

open Buffer

variable {R W B : Type} [AsyncRead R] [Buffer B]

theorem PollSim.logs : PollSim (Logged.Logs : R → Logged R → Prop) := by
  rintro r l buf rfl
  exact ⟨rfl, rfl, rfl⟩

theorem readTail_asks [LawfulBuffer B] [BoundedAsyncRead R] :
    TailAsks (readTail : TailRead (Logged R) B) := by
  intro p lo hi out hout
  by_cases hrange : lo ≤ hi ∧ hi ≤ p.peeked.length
  · obtain ⟨hlo, hhi⟩ := hrange
    simp only [readTail, slice_eq p.peeked hlo hhi, Exec.ok_bind] at hout
    cases hout
    have hlen := BoundedAsyncRead.pollRead_length p.reader (.new ((p.peeked.take hi).drop lo))
    rw [ReadBuf.buf_new] at hlen
    refine ⟨?_, hlo, ?_, .setSlice .refl _⟩
    · have hroom : (ReadBuf.new ((p.peeked.take hi).drop lo)).remaining = hi - lo := by simp; omega
      rw [Logged.log_tokioPollRead, hroom]
      simp [ReadBuf.new]
    · rw [Peekable.peeked_mk, asSlice_setSlice]
      · grind
      · change _ = p.peeked.length
        grind
  · simp only [readTail, slice, if_neg hrange, Exec.panic_bind] at hout
    cases hout

theorem putSlice_counts {rb rb' : ReadBuf} {src : List UInt8} (h : rb.putSlice src = .ok rb') :
    rb'.filled = rb.filled + src.length ∧ rb'.remaining = rb.remaining - src.length := by
  unfold ReadBuf.putSlice at h
  split at h <;> cases h
  exact ⟨rfl, rb.remaining_append src _⟩

/-- A poll with the number of bytes it has added to the `ReadBuf`. -/
abbrev added (poll : Poll (Except IoError Unit)) (rb rb' : ReadBuf) : Poll (Except IoError Nat) :=
  poll.mapOk fun () => rb'.filled - rb.filled

variable [LawfulBuffer B]

/-- A direct read calls the reader at most once, for what the peek buffer does not cover. -/
theorem pollRead_asks [AppendingRead R] (p : Peekable (Logged R) B) (rb : ReadBuf) :
    (pollRead p rb).Post fun out =>
      Asks (Dialogue (Aim.read rb.remaining).Fits Inquiry.GoesOn
        (Accounts p.buffer out.2.2.buffer (.read rb.remaining) (added out.1 rb out.2.1)))
        p.reader.log out.2.2.reader.log := by
  unfold pollRead
  simp only [p.len_buffer]
  by_cases hpos : p.peeked.length > 0
  · simp only [if_pos hpos]
    by_cases hlt : rb.remaining < p.peeked.length
    · simp only [if_pos hlt]
      refine Exec.Post.bind (fun _ => length_slice) fun src hsrc => ?_
      refine Exec.Post.bind (fun _ => putSlice_counts) fun dst hdst => .skip _ fun b => ?_
      refine Exec.post_ok.mpr (.none (.granted ⟨?_, Nat.le_of_lt hlt⟩))
      change dst.filled - rb.filled = rb.remaining
      omega
    · simp only [if_neg hlt]
      by_cases heq : rb.remaining = p.peeked.length
      · simp only [if_pos heq]
        refine Exec.Post.bind (fun _ => putSlice_counts) fun dst hdst => ?_
        refine Exec.post_ok.mpr (.none (.granted ⟨?_, Nat.le_of_eq heq⟩))
        change dst.filled - rb.filled = rb.remaining
        omega
      · simp only [if_neg heq]
        have hmore : (asSlice p.buffer).length < rb.remaining := by
          change p.peeked.length < _
          omega
        have hne : asSlice p.buffer ≠ [] := List.ne_nil_of_length_pos hpos
        refine Exec.Post.bind (fun _ => putSlice_counts) ?_
        rintro dst ⟨hfilled, hremaining⟩
        have hroom : 0 < dst.remaining := by omega
        rcases hread : AsyncRead.pollRead p.reader dst with ⟨poll, rb', reader⟩
        have hlog := Logged.log_tokioPollRead p.reader dst
        rw [hread] at hlog
        have hon := Accounts.read_on (clear p.buffer) (q := ⟨dst.remaining, added poll dst rb'⟩)
          hmore hne
        have hcount : rb'.filled - rb.filled =
            (asSlice p.buffer).length + (added poll dst rb').handed.getD 0 := by
          have hsince : rb'.filled = dst.filled + (added poll dst rb').handed.getD 0 :=
            AppendingRead.filled_eq hread
          change _ = p.peeked.length + _
          omega
        rw [← hcount] at hon
        cases poll using Poll.casesResult with
        | ok n => exact Exec.post_ok.mpr (hlog ▸ .single (.inl hroom) hon)
        | error e => exact Exec.post_ok.mpr (hlog ▸ .single (.inl hroom) hon)
        | pending => exact Exec.post_ok.mpr (hlog ▸ .single (.inl hroom) hon)
  · simp only [if_neg hpos]
    have hnil : asSlice p.buffer = [] := List.eq_nil_of_length_eq_zero (Nat.eq_zero_of_not_pos hpos)
    rcases hread : AsyncRead.pollRead p.reader rb with ⟨poll, rb', reader⟩
    have hlog := Logged.log_tokioPollRead p.reader rb
    rw [hread] at hlog
    refine Exec.post_ok.mpr (hlog ▸ .single ?_ (.read_through hnil))
    rcases Nat.eq_zero_or_pos rb.remaining with hzero | hroom
    · exact .inr (.inl (congrArg Aim.read hzero))
    · exact .inl hroom

variable [BoundedAsyncRead R]

/-- A direct peek calls the reader only for what the peek buffer does not cover. -/
theorem pollPeek_asks (fuel : Nat) (p : Peekable (Logged R) B) (rb : ReadBuf) :
    (pollPeek fuel p rb).Post fun out =>
      Asks (Conduct p.buffer out.2.2.buffer (.pollPeek rb.remaining) (added out.1 rb out.2.1))
        p.reader.log out.2.2.reader.log := by
  unfold pollPeek
  simp only [p.len_buffer]
  by_cases hzero : rb.remaining = 0
  · simp only [if_pos hzero]
    exact Exec.post_ok.mpr (.none (.granted ⟨by simp [hzero], hzero.trans_le (Nat.zero_le _)⟩))
  · simp only [if_neg hzero]
    by_cases hge : p.peeked.length ≥ rb.remaining
    · simp only [if_pos hge]
      refine Exec.Post.bind (fun _ => length_slice) fun src hsrc => ?_
      refine Exec.Post.bind (fun _ => putSlice_counts) fun dst hdst => ?_
      refine Exec.post_ok.mpr (.none (.granted ⟨?_, hge⟩))
      change dst.filled - rb.filled = rb.remaining
      omega
    · simp only [if_neg hge]
      have hmore : (asSlice p.buffer).length < rb.remaining := Nat.lt_of_not_le hge
      rcases hres : resize p.buffer (p.peeked.length + (rb.remaining - p.peeked.length)) with
        ⟨e | _, buffer⟩
      · exact Exec.post_ok.mpr (.none (.refused trivial .refl hres (by rintro q ⟨⟩)))
      · obtain ⟨hlen, -⟩ := LawfulBuffer.resize_ok hres
        have hlt : p.peeked.length < (asSlice buffer).length := by omega
        refine (pollRetry_asks readTail_asks fuel hlt).bind ?_
        rintro ⟨poll, p₁⟩ ⟨hasks, hlen₁, hkind⟩
        have hkept : (p₁.truncate p.peeked.length).peeked.length = p.peeked.length := by
          change p₁.peeked.length = (asSlice buffer).length at hlen₁
          rw [Peekable.peeked_truncate, List.length_take]
          omega
        -- what is peeked is not held back
        have honly (hpos : p.peeked.length > 0) {q : Inquiry} (hq : q.Stalls) {dst : ReadBuf}
            (hdst : dst.filled = rb.filled + (p₁.truncate p.peeked.length).peeked.length) :
            Accounts p.buffer (p₁.truncate p.peeked.length).buffer (.pollPeek rb.remaining)
              (.ready (.ok (dst.filled - rb.filled))) (some q) := by
          rw [hdst, hkept, Nat.add_sub_cancel_left]
          exact .peeked_only hmore (List.ne_nil_of_length_pos hpos) hq
        have hnil (hpos : ¬ p.peeked.length > 0) : asSlice p.buffer = [] :=
          List.eq_nil_of_length_eq_zero (Nat.eq_zero_of_not_pos hpos)
        cases poll using Poll.casesResult with
        | ok n =>
          refine Exec.Post.bind (fun _ => length_slice) fun src hsrc => ?_
          refine Exec.Post.bind (fun _ => putSlice_counts) fun dst hdst => ?_
          refine Exec.post_ok.mpr (hasks.conduct fun q hq => ?_)
          have hcount : dst.filled - rb.filled = (asSlice p.buffer).length + n := by
            change _ = p.peeked.length + n
            omega
          simp only [added, Poll.mapOk, hcount]
          exact .peeked_on hmore hq
        | pending =>
          by_cases hpos : p.peeked.length > 0
          · simp only [if_pos hpos]
            refine Exec.Post.bind (fun _ => putSlice_counts) fun dst hdst => ?_
            exact Exec.post_ok.mpr (hasks.conduct fun _ hq => honly hpos (.inl hq) hdst.1)
          · simp only [if_neg hpos]
            exact Exec.post_ok.mpr (hasks.conduct fun _ hq => .stalled ⟨hnil hpos, .inl hq⟩)
        | error e =>
          by_cases he : e.kind = .wouldBlock
          · simp only [if_pos he]
            by_cases hpos : p.peeked.length > 0
            · simp only [if_pos hpos]
              refine Exec.Post.bind (fun _ => putSlice_counts) fun dst hdst => ?_
              exact Exec.post_ok.mpr (hasks.conduct fun _ hq => honly hpos (.inr ⟨e, hq, he⟩) hdst.1)
            · simp only [if_neg hpos]
              exact Exec.post_ok.mpr (hasks.conduct fun _ hq => .stalled ⟨hnil hpos, .inr ⟨e, hq, he⟩⟩)
          · simp only [if_neg he]
            exact Exec.post_ok.mpr (hasks.conduct fun _ hq => .failed hq ⟨hkind e rfl, he⟩)

/-- What `PeekBuf` asks for: the chunk its sink offers, if it has room at all. -/
def PeekBuf.want [BufMut W] (f : PeekBuf R W B) : Nat :=
  if BufMut.hasRemainingMut f.buf then (BufMut.chunkMut f.buf).length else 0

theorem PeekBuf.poll_asks [BufMut W] (fuel : Nat) (f : PeekBuf (Logged R) W B) :
    (f.poll fuel).Post fun out =>
      Asks (Conduct f.peeker.buffer out.2.peeker.buffer (.pollPeek f.want) out.1)
        f.peeker.reader.log out.2.peeker.reader.log := by
  unfold PeekBuf.poll want
  by_cases hroom : BufMut.hasRemainingMut f.buf = true
  · simp only [hroom, not_true_eq_false, if_false, if_true]
    refine (pollPeek_asks fuel f.peeker (.new (BufMut.chunkMut f.buf))).bind ?_
    rintro ⟨poll, rb, p⟩ hasks
    rw [ReadBuf.remaining_new] at hasks
    cases poll using Poll.casesResult with
    | ok u =>
      refine .skip _ fun sink => Exec.post_ok.mpr ?_
      rw [ReadBuf.length_filledBytes]
      exact hasks
    | error e => exact Exec.post_ok.mpr hasks
    | pending => exact Exec.post_ok.mpr hasks
  · simp only [hroom, not_false_eq_true, if_true, Bool.false_eq_true, if_false]
    exact Exec.post_ok.mpr (.none (.granted ⟨rfl, Nat.zero_le _⟩))

/-! ## Sessions -/

namespace Session

/-- What an input makes the session go after. -/
def aim {R : Type} [BufMut W] (s : Session R W B) (i : Input W) : Option Aim :=
  match s, i with
  | idle _, .pollRead rb => some (.read rb.remaining)
  | idle _, .pollPeek rb => some (.pollPeek rb.remaining)
  | peek f, .poll => some (.pollPeek f.buf.length)
  | peekBuf f, .poll => some (.pollPeek f.want)
  | peekExact f, .poll => some (.exact f.buf.length f.missing)
  | peekToEnd _ _, .poll => some .toEnd
  | peekToString _ _, .poll => some .text
  | fillPeekBuf f, .poll => some (.pollFill (f.cap - f.original))
  | _, _ => none

/-- How much of the caller's `ReadBuf` is filled before a direct read or peek. -/
def filledBefore (i : Input W) : Nat :=
  match i with
  | .pollRead rb => rb.filled
  | .pollPeek rb => rb.filled
  | _ => 0

/-- What an input asks of the reader on the way from `s` to `s'`; what is in the caller's
`ReadBuf` already does not count. -/
def Asked {R : Type} [BufMut W] (s : Session R W B) (i : Input W)
    (a : Answer (Poll (Except IoError Nat))) (s' : Session R W B) : List Inquiry → Prop :=
  PeekableReader.Asked (Poll.mapOk fun n => n - filledBefore i) s.held.buffer s'.held.buffer (s.aim i) a

omit [AsyncRead R] [BoundedAsyncRead R] [LawfulBuffer B] in
theorem asked_result [BufMut W] {i : Input W} {s s' : Session (Logged R) W B}
    {result added : Poll (Except IoError Nat)} {dst : List (List UInt8)} {goal : Aim}
    (haim : s.aim i = some goal) (hadded : result.mapOk (fun n => n - filledBefore i) = added)
    (h : PeekableReader.Asks
      (Dialogue goal.Fits Inquiry.GoesOn (Accounts s.held.buffer s'.held.buffer goal added))
      s.held.reader.log s'.held.reader.log) :
    PeekableReader.Asks (Asked s i (.gave result dst) s') s.held.reader.log s'.held.reader.log := by
  simp only [Asked, haim]
  subst hadded
  exact h.mono fun _ hasked => .result hasked

omit [AsyncRead R] [BoundedAsyncRead R] [LawfulBuffer B] in
/-- A poll of a future. -/
theorem asked_after [BufMut W] {α : Type} {s busy : Session (Logged R) W B} {poll : Poll α}
    {result : Poll (Except IoError Nat)} {dst : List (List UInt8)} {goal : Aim}
    (haim : s.aim .poll = some goal)
    (h : PeekableReader.Asks (Conduct s.held.buffer busy.held.buffer goal result) s.held.reader.log
      busy.held.reader.log) :
    (Exec.ok (Answer.gave result dst, after poll busy)).Post fun out =>
      PeekableReader.Asks (Asked s .poll out.1 out.2) s.held.reader.log out.2.held.reader.log := by
  have hresult : result.mapOk (fun n => n - filledBefore (.poll : Input W)) = result := by
    cases result using Poll.casesResult <;> rfl
  refine Exec.post_ok.mpr (asked_result haim hresult ?_)
  rw [held_after]
  exact h.mono fun _ => Dialogue.aimed

omit [BoundedAsyncRead R] in
theorem call_asks [AppendingRead R] [BufMut W] (fuel : Nat) (i : Input W) (s : Session (Logged R) W B) :
    (s.call fuel i).Post fun out =>
      PeekableReader.Asks (Asked s i out.1 out.2) s.held.reader.log out.2.held.reader.log := by
  have hadded (poll : Poll (Except IoError Unit)) (rb rb' : ReadBuf) :
      (poll.mapOk fun () => rb'.filled).mapOk (fun n => n - rb.filled) = added poll rb rb' := by
    cases poll using Poll.casesResult <;> rfl
  cases s with
  | idle p =>
    cases i with
    | pollRead rb =>
      refine (pollRead_asks p rb).bind ?_
      rintro ⟨poll, rb', p₁⟩ hasks
      exact Exec.post_ok.mpr (asked_result rfl (hadded poll rb rb') hasks)
    | pollPeek rb =>
      refine (pollPeek_asks fuel p rb).bind ?_
      rintro ⟨poll, rb', p₁⟩ hasks
      exact Exec.post_ok.mpr
        (asked_result rfl (hadded poll rb rb') (hasks.mono fun _ => Dialogue.aimed))
    | consume => exact Exec.post_ok.mpr ⟨[], (List.append_nil _).symm, .handed _⟩
    | _ => exact Exec.post_ok.mpr ⟨[], (List.append_nil _).symm, .done⟩
  | peek f =>
    cases i
    case poll =>
      simp only [call, Peek.poll, bind_assoc]
      refine (pollPeek_asks fuel f.peekable (.new f.buf)).bind ?_
      rintro ⟨poll, rb, p⟩ hasks
      rw [ReadBuf.remaining_new] at hasks
      simp only [pure_bind, ReadBuf.length_filledBytes]
      exact asked_after rfl hasks
    all_goals exact Exec.post_ok.mpr ⟨[], (List.append_nil _).symm, .done⟩
  | peekBuf f =>
    cases i
    case poll =>
      refine (PeekBuf.poll_asks fuel f).bind ?_
      rintro ⟨poll, f₁⟩ hasks
      exact asked_after rfl hasks
    all_goals exact Exec.post_ok.mpr ⟨[], (List.append_nil _).symm, .done⟩
  | peekExact f =>
    cases i
    case poll =>
      simp only [call, PeekExact.poll, bind_assoc]
      refine (PeekExact.pollWith_asks readTail_asks rfl fuel f).bind ?_
      rintro ⟨poll, f₁⟩ ⟨-, hasks⟩
      exact asked_after rfl hasks
    all_goals exact Exec.post_ok.mpr ⟨[], (List.append_nil _).symm, .done⟩
  | peekToEnd dst f =>
    cases i
    case poll =>
      refine (PeekToEnd.pollWith_asks readTail_asks fuel f).bind ?_
      rintro ⟨poll, f₁⟩ hasks
      exact asked_after rfl hasks
    all_goals exact Exec.post_ok.mpr ⟨[], (List.append_nil _).symm, .done⟩
  | peekToString dst f =>
    cases i
    case poll =>
      refine (PeekToString.pollWith_asks readTail_asks fuel f).bind ?_
      rintro ⟨poll, f₁⟩ hasks
      exact asked_after rfl hasks
    all_goals exact Exec.post_ok.mpr ⟨[], (List.append_nil _).symm, .done⟩
  | fillPeekBuf f =>
    cases i
    case poll =>
      refine (FillPeekBuf.pollWith_asks readTail_asks f).bind ?_
      rintro ⟨poll, f₁⟩ hasks
      exact asked_after rfl hasks
    all_goals exact Exec.post_ok.mpr ⟨[], (List.append_nil _).symm, .done⟩

end Session

end PeekableReader.Tokio
