import PeekableReader.Async.Logged
import PeekableReader.Future.Alike
import PeekableReader.Vectored

/-!
# What the `AsyncPeekable` of the `future` module asks of the reader
-/

namespace PeekableReader.Future

open Buffer

variable {R B : Type} [AsyncRead R] [Buffer B]

theorem PollSim.logs : PollSim (Logged.Logs : R → Logged R → Prop) := by
  rintro r l buf rfl
  exact ⟨rfl, rfl, rfl⟩

theorem readTail_asks [LawfulBuffer B] [BoundedAsyncRead R] :
    TailAsks (readTail : TailRead (Logged R) B) := by
  intro p lo hi out hout
  by_cases hrange : lo ≤ hi ∧ hi ≤ p.peeked.length
  · obtain ⟨hlo, hhi⟩ := hrange
    simp only [readTail, slice_eq p.peeked hlo hhi, Exec.ok_bind] at hout
    cases hout
    have hlen := BoundedAsyncRead.pollRead_length p.reader ((p.peeked.take hi).drop lo)
    refine ⟨?_, hlo, ?_, .setSlice .refl _⟩
    · have hroom : ((p.peeked.take hi).drop lo).length = hi - lo := by simp; omega
      rw [Logged.log_pollRead, hroom]
    · rw [Peekable.peeked_mk, asSlice_setSlice]
      · grind
      · change _ = p.peeked.length
        grind
  · simp only [readTail, slice, if_neg hrange, Exec.panic_bind] at hout
    cases hout

variable [LawfulBuffer B]

/-- A direct read calls the reader at most once, for what the peek buffer does not cover. -/
theorem pollRead_asks (p : Peekable (Logged R) B) (buf : List UInt8) :
    (pollRead p buf).Post fun out =>
      Asks (Dialogue (Aim.read buf.length).Fits Inquiry.GoesOn
        (Accounts p.buffer out.2.2.buffer (.read buf.length) out.1))
        p.reader.log out.2.2.reader.log := by
  unfold pollRead
  simp only [p.len_buffer]
  by_cases hpos : p.peeked.length > 0
  · simp only [if_pos hpos]
    by_cases hlt : buf.length < p.peeked.length
    · simp only [if_pos hlt]
      exact .skip _ fun src => .skip _ fun dst => .skip _ fun b =>
        Exec.post_ok.mpr (.none (.granted ⟨rfl, Nat.le_of_lt hlt⟩))
    · simp only [if_neg hlt]
      by_cases heq : buf.length = p.peeked.length
      · simp only [if_pos heq]
        exact .skip _ fun dst => Exec.post_ok.mpr (.none (.granted ⟨rfl, Nat.le_of_eq heq⟩))
      · simp only [if_neg heq]
        have hmore : (asSlice p.buffer).length < buf.length := by
          change p.peeked.length < _
          omega
        have hne : asSlice p.buffer ≠ [] := List.ne_nil_of_length_pos hpos
        have hcopy : (copyInto buf 0 p.peeked.length p.peeked).Post (·.length = buf.length) :=
          fun _ => length_copyInto
        refine hcopy.bind fun dst hdst => ?_
        refine Exec.Post.bind (fun _ => length_slice) fun rest hrest => ?_
        have hroom : (Inquiry.mk rest.length (AsyncRead.pollRead p.reader rest).1).HasRoom := by
          change 0 < rest.length
          omega
        rcases hread : AsyncRead.pollRead p.reader rest with ⟨poll, rest', reader⟩
        have hlog := Logged.log_pollRead p.reader rest
        rw [hread] at hlog hroom
        have hon := Accounts.read_on (clear p.buffer) (q := ⟨rest.length, poll⟩) hmore hne
        cases poll using Poll.casesResult with
        | ok n =>
          rw [Nat.add_comm] at hon
          exact Exec.post_ok.mpr (hlog ▸ .single (.inl hroom) hon)
        | error e => exact Exec.post_ok.mpr (hlog ▸ .single (.inl hroom) hon)
        | pending => exact Exec.post_ok.mpr (hlog ▸ .single (.inl hroom) hon)
  · simp only [if_neg hpos]
    have hnil : asSlice p.buffer = [] := List.eq_nil_of_length_eq_zero (Nat.eq_zero_of_not_pos hpos)
    rcases hread : AsyncRead.pollRead p.reader buf with ⟨poll, buf', reader⟩
    have hlog := Logged.log_pollRead p.reader buf
    rw [hread] at hlog
    refine Exec.post_ok.mpr (hlog ▸ .single ?_ (.read_through hnil))
    rcases Nat.eq_zero_or_pos buf.length with hzero | hroom
    · exact .inr (.inl (congrArg Aim.read hzero))
    · exact .inl hroom

variable [BoundedAsyncRead R]

/-- A direct peek calls the reader only for what the peek buffer does not cover. -/
theorem pollPeek_asks (fuel : Nat) (p : Peekable (Logged R) B) (buf : List UInt8) :
    (pollPeek fuel p buf).Post fun out =>
      Asks (Conduct p.buffer out.2.2.buffer (.pollPeek buf.length) out.1) p.reader.log
        out.2.2.reader.log := by
  unfold pollPeek
  simp only [p.len_buffer]
  by_cases hpos : p.peeked.length > 0
  · have hne : asSlice p.buffer ≠ [] := List.ne_nil_of_length_pos hpos
    simp only [if_pos hpos]
    by_cases hlt : buf.length < p.peeked.length
    · simp only [if_pos hlt]
      exact .skip _ fun src => .skip _ fun dst =>
        Exec.post_ok.mpr (.none (.granted ⟨rfl, Nat.le_of_lt hlt⟩))
    · simp only [if_neg hlt]
      by_cases heq : buf.length = p.peeked.length
      · simp only [if_pos heq]
        exact .skip _ fun dst => Exec.post_ok.mpr (.none (.granted ⟨rfl, Nat.le_of_eq heq⟩))
      · simp only [if_neg heq]
        have hmore : (asSlice p.buffer).length < buf.length := by
          change p.peeked.length < _
          omega
        rcases hres : resize p.buffer buf.length with ⟨e | _, buffer⟩
        · exact Exec.post_ok.mpr (.none (.refused trivial .refl hres (by rintro q ⟨⟩)))
        · obtain ⟨hlen, -⟩ := LawfulBuffer.resize_ok hres
          refine (pollRetry_asks readTail_asks fuel (hlen ▸ hmore)).bind ?_
          rintro ⟨poll, p₁⟩ ⟨hasks, -, hkind⟩
          cases poll using Poll.casesResult with
          | ok n =>
            exact .skip _ fun dst => Exec.post_ok.mpr (hasks.conduct fun _ => .peeked_on hmore)
          | pending =>
            exact .skip _ fun dst =>
              Exec.post_ok.mpr (hasks.conduct fun _ hq => .peeked_only hmore hne (.inl hq))
          | error e =>
            by_cases he : e.kind = .wouldBlock
            · simp only [if_pos he]
              exact .skip _ fun dst =>
                Exec.post_ok.mpr (hasks.conduct fun _ hq => .peeked_only hmore hne (.inr ⟨e, hq, he⟩))
            · simp only [if_neg he]
              exact Exec.post_ok.mpr (hasks.conduct fun _ hq => .failed hq ⟨hkind e rfl, he⟩)
  · have hzero : p.peeked.length = 0 := Nat.eq_zero_of_not_pos hpos
    have hnil : asSlice p.buffer = [] := List.eq_nil_of_length_eq_zero hzero
    simp only [hzero, gt_iff_lt, Nat.lt_irrefl, if_false, Nat.zero_add]
    by_cases hbuf : buf.length = 0
    · simp only [if_pos hbuf]
      exact Exec.post_ok.mpr (.none (.granted ⟨hbuf.symm, hbuf.trans_le (Nat.zero_le _)⟩))
    · simp only [if_neg hbuf]
      have hmore : (asSlice p.buffer).length < buf.length := by
        rw [hnil]
        exact Nat.pos_of_ne_zero hbuf
      rcases hres : resize p.buffer buf.length with ⟨e | _, buffer⟩
      · exact Exec.post_ok.mpr (.none (.refused trivial .refl hres (by rintro q ⟨⟩)))
      · obtain ⟨hlen, -⟩ := LawfulBuffer.resize_ok hres
        refine (pollRetry_asks readTail_asks fuel (hlen ▸ Nat.pos_of_ne_zero hbuf)).bind ?_
        rintro ⟨poll, p₁⟩ ⟨hasks, -, hkind⟩
        cases poll using Poll.casesResult with
        | ok n =>
          refine .skip _ fun src => .skip _ fun dst => Exec.post_ok.mpr (hasks.conduct fun q hq => ?_)
          have hon : Accounts p.buffer (p₁.truncate n).buffer (.pollPeek buf.length)
              (.ready (.ok ((asSlice p.buffer).length + n))) (some q) := .peeked_on hmore hq
          rwa [hnil, List.length_nil, Nat.zero_add] at hon
        | pending => exact Exec.post_ok.mpr (hasks.conduct fun _ hq => .stalled ⟨hnil, .inl hq⟩)
        | error e =>
          by_cases he : e.kind = .wouldBlock
          · simp only [if_pos he]
            exact Exec.post_ok.mpr (hasks.conduct fun _ hq => .stalled ⟨hnil, .inr ⟨e, hq, he⟩⟩)
          · simp only [if_neg he]
            exact Exec.post_ok.mpr (hasks.conduct fun _ hq => .failed hq ⟨hkind e rfl, he⟩)

theorem pollPeekVectored_asks (fuel : Nat) (p : Peekable (Logged R) B) (bufs : List (List UInt8)) :
    (pollPeekVectored fuel p bufs).Post fun out =>
      Asks (Conduct p.buffer out.2.2.buffer (.pollPeek (firstNonempty bufs).length) out.1) p.reader.log
        out.2.2.reader.log := by
  rw [pollPeekVectored_eq]
  refine (pollPeek_asks fuel p (firstNonempty bufs)).bind ?_
  rintro ⟨poll, buf, p₁⟩ hasks
  exact Exec.post_ok.mpr hasks

/-! ## Sessions -/

namespace Session

/-- What an input makes the session go after. -/
def aim {R : Type} (s : Session R B) (i : Input) : Option Aim :=
  match s, i with
  | idle _, .pollRead buf => some (.read buf.length)
  | idle _, .pollPeek buf => some (.pollPeek buf.length)
  | idle _, .pollPeekVectored bufs => some (.pollPeek (firstNonempty bufs).length)
  | peek f, .poll => some (.pollPeek f.buf.length)
  | peekVectored f, .poll => some (.pollPeek (firstNonempty f.bufs).length)
  | peekExact f, .poll => some (.exact f.buf.length f.missing)
  | peekToEnd _ _, .poll => some .toEnd
  | peekToString _ _, .poll => some .text
  | fillPeekBuf f, .poll => some (.pollFill (f.cap - f.original))
  | _, _ => none

/-- What an input asks of the reader on the way from `s` to `s'`. -/
def Asked {R : Type} (s : Session R B) (i : Input) (a : Answer (Poll (Except IoError Nat)))
    (s' : Session R B) : List Inquiry → Prop :=
  PeekableReader.Asked id s.held.buffer s'.held.buffer (s.aim i) a

omit [AsyncRead R] [LawfulBuffer B] [BoundedAsyncRead R] in
theorem asked_result {i : Input} {s s' : Session (Logged R) B} {result : Poll (Except IoError Nat)}
    {dst : List (List UInt8)} {goal : Aim} (haim : s.aim i = some goal)
    (h : PeekableReader.Asks
      (Dialogue goal.Fits Inquiry.GoesOn (Accounts s.held.buffer s'.held.buffer goal result))
      s.held.reader.log s'.held.reader.log) :
    PeekableReader.Asks (Asked s i (.gave result dst) s') s.held.reader.log s'.held.reader.log := by
  simp only [Asked, haim]
  exact h.mono fun _ hasked => .result hasked

omit [AsyncRead R] [LawfulBuffer B] [BoundedAsyncRead R] in
/-- A poll of a future. -/
theorem asked_after {α : Type} {i : Input} {s busy : Session (Logged R) B} {poll : Poll α}
    {result : Poll (Except IoError Nat)} {dst : List (List UInt8)} {goal : Aim}
    (haim : s.aim i = some goal)
    (h : PeekableReader.Asks (Conduct s.held.buffer busy.held.buffer goal result) s.held.reader.log
      busy.held.reader.log) :
    (Exec.ok (Answer.gave result dst, after poll busy)).Post fun out =>
      PeekableReader.Asks (Asked s i out.1 out.2) s.held.reader.log out.2.held.reader.log := by
  refine Exec.post_ok.mpr (asked_result haim ?_)
  rw [held_after]
  exact h.mono fun _ => Dialogue.aimed

theorem call_asks (fuel : Nat) (i : Input) (s : Session (Logged R) B) :
    (s.call fuel i).Post fun out =>
      PeekableReader.Asks (Asked s i out.1 out.2) s.held.reader.log out.2.held.reader.log := by
  cases s with
  | idle p =>
    cases i with
    | pollRead buf =>
      refine (pollRead_asks p buf).bind ?_
      rintro ⟨poll, buf', p₁⟩ hasks
      exact Exec.post_ok.mpr (asked_result rfl hasks)
    | pollPeek buf =>
      refine (pollPeek_asks fuel p buf).bind ?_
      rintro ⟨poll, buf', p₁⟩ hasks
      exact Exec.post_ok.mpr (asked_result rfl (hasks.mono fun _ => Dialogue.aimed))
    | pollPeekVectored bufs =>
      refine (pollPeekVectored_asks fuel p bufs).bind ?_
      rintro ⟨poll, bufs', p₁⟩ hasks
      exact Exec.post_ok.mpr (asked_result rfl (hasks.mono fun _ => Dialogue.aimed))
    | consume => exact Exec.post_ok.mpr ⟨[], (List.append_nil _).symm, .handed _⟩
    | _ => exact Exec.post_ok.mpr ⟨[], (List.append_nil _).symm, .done⟩
  | peek f =>
    cases i
    case poll =>
      simp only [call, Peek.poll, bind_assoc]
      refine (pollPeek_asks fuel f.peekable f.buf).bind ?_
      rintro ⟨poll, buf, p⟩ hasks
      exact asked_after rfl hasks
    all_goals exact Exec.post_ok.mpr ⟨[], (List.append_nil _).symm, .done⟩
  | peekVectored f =>
    cases i
    case poll =>
      simp only [call, PeekVectored.poll, bind_assoc]
      refine (pollPeekVectored_asks fuel f.peekable f.bufs).bind ?_
      rintro ⟨poll, bufs, p⟩ hasks
      exact asked_after rfl hasks
    all_goals exact Exec.post_ok.mpr ⟨[], (List.append_nil _).symm, .done⟩
  | peekExact f =>
    cases i
    case poll =>
      refine (PeekExact.pollWith_asks readTail_asks rfl fuel f).bind ?_
      rintro ⟨poll, f₁⟩ ⟨hbuf, hasks⟩
      rw [← hbuf] at hasks
      exact asked_after (by rw [hbuf]; rfl) hasks
    all_goals exact Exec.post_ok.mpr ⟨[], (List.append_nil _).symm, .done⟩
  | peekToEnd dst f =>
    cases i
    case poll =>
      refine (PeekToEnd.pollWith_asks readTail_asks fuel f).bind ?_
      rintro ⟨poll, f₁⟩ hasks
      exact asked_after rfl hasks
    all_goals exact Exec.post_ok.mpr ⟨[], (List.append_nil _).symm, .done⟩
  | peekToString dst f =>
    cases i
    case poll =>
      refine (PeekToString.pollWith_asks readTail_asks fuel f).bind ?_
      rintro ⟨poll, f₁⟩ hasks
      exact asked_after rfl hasks
    all_goals exact Exec.post_ok.mpr ⟨[], (List.append_nil _).symm, .done⟩
  | fillPeekBuf f =>
    cases i
    case poll =>
      refine (FillPeekBuf.pollWith_asks readTail_asks f).bind ?_
      rintro ⟨poll, f₁⟩ hasks
      exact asked_after rfl hasks
    all_goals exact Exec.post_ok.mpr ⟨[], (List.append_nil _).symm, .done⟩

end Session

end PeekableReader.Future
