import PeekableReader.Async.Logged
import PeekableReader.Sync.Calls
import PeekableReader.Vectored

/-!
# What the synchronous operations ask of the reader

As for the futures. `fill_peek_buf` alone calls the reader with an empty slice, when the peek
buffer is full.
-/

namespace PeekableReader

open Buffer

variable {R B : Type} [Read R] [Buffer B]

namespace Peekable

theorem readSpare_asks [BoundedRead R] [LawfulBuffer B] (p : Peekable (Logged R) B) (lo hi : Nat) :
    (p.readSpare lo hi).Post fun out =>
      out.2.reader.log = p.reader.log ++ [⟨hi - lo, .ready out.1⟩] ∧ lo ≤ hi ∧
        out.2.peeked.length = p.peeked.length ∧ Reshapes p.buffer out.2.buffer := by
  intro out hout
  by_cases hrange : lo ≤ hi ∧ hi ≤ p.peeked.length
  · obtain ⟨hlo, hhi⟩ := hrange
    simp only [readSpare, slice_eq p.peeked hlo hhi, Exec.ok_bind] at hout
    cases hout
    have hlen := BoundedRead.read_length p.reader ((p.peeked.take hi).drop lo)
    refine ⟨?_, hlo, ?_, .setSlice .refl _⟩
    · have hroom : ((p.peeked.take hi).drop lo).length = hi - lo := by simp; omega
      rw [Logged.log_read, hroom]
    · rw [peeked_mk, asSlice_setSlice]
      · grind
      · change _ = p.peeked.length
        grind
  · simp only [readSpare, slice, if_neg hrange, Exec.panic_bind] at hout
    cases hout

theorem readRetry_asks [BoundedRead R] [LawfulBuffer B] {Fit : Inquiry → Prop} (fuel : Nat)
    {p : Peekable (Logged R) B} {lo : Nat}
    (hfit : ∀ q : Inquiry, q.room = p.peeked.length - lo → Fit q) :
    (p.readRetry fuel lo).Post fun out =>
      Asks (Dialogue Fit Inquiry.GoesOn fun last => ∃ q, last = some q ∧ q.reply = .ready out.1)
        p.reader.log out.2.reader.log ∧
      Reshapes p.buffer out.2.buffer ∧ ∀ e, out.1 = .error e → e.kind ≠ .interrupted := by
  induction fuel generalizing p with
  | zero => rintro _ ⟨⟩
  | succ fuel ih =>
    refine (readSpare_asks p lo p.peeked.length).bind ?_
    rintro ⟨result, p₁⟩ ⟨hlog, -, hlen, hreshapes⟩
    have hroom : Fit ⟨p.peeked.length - lo, .ready result⟩ := hfit _ rfl
    have hlast : Asks (Dialogue Fit Inquiry.GoesOn fun last =>
        ∃ q, last = some q ∧ q.reply = .ready result) p.reader.log p₁.reader.log :=
      hlog ▸ .single hroom ⟨_, rfl, rfl⟩
    cases result with
    | ok n => exact Exec.post_ok.mpr ⟨hlast, hreshapes, by rintro e ⟨⟩⟩
    | error e =>
      by_cases he : e.kind = .interrupted
      · simp only [if_pos he]
        refine (ih (hlen ▸ hfit)).mono ?_
        rintro out ⟨hasks, hreshapes', hkind⟩
        rw [hlog] at hasks
        refine ⟨hasks.cons hroom (.interrupted he) ?_ fun _ => id, hreshapes.trans hreshapes', hkind⟩
        rintro ⟨q, ⟨⟩, -⟩
      · simp only [if_neg he]
        exact Exec.post_ok.mpr ⟨hlast, hreshapes, by rintro _ ⟨⟩; exact he⟩

variable [LawfulBuffer B]

omit [LawfulBuffer B] in
/-- A read calls the reader at most once, for what the peek buffer does not cover. -/
theorem read_asks (p : Peekable (Logged R) B) (buf : List UInt8) :
    (p.read buf).Post fun out =>
      Asks (Dialogue (Aim.read buf.length).Fits Inquiry.GoesOn
        (Accounts p.buffer out.2.2.buffer (.read buf.length) (.ready out.1))) p.reader.log
        out.2.2.reader.log := by
  unfold read
  by_cases hpos : p.peeked.length > 0
  · simp only [if_pos hpos]
    by_cases hlt : buf.length < p.peeked.length
    · simp only [if_pos hlt]
      exact .skip _ fun src => .skip _ fun dst => .skip _ fun b =>
        Exec.post_ok.mpr (.none (.granted ⟨rfl, Nat.le_of_lt hlt⟩))
    · simp only [if_neg hlt]
      by_cases heq : buf.length = p.peeked.length
      · simp only [if_pos heq]
        exact .skip _ fun dst => Exec.post_ok.mpr (.none (.granted ⟨rfl, Nat.le_of_eq heq⟩))
      · simp only [if_neg heq]
        have hmore : (asSlice p.buffer).length < buf.length := by
          change p.peeked.length < _
          omega
        have hne : asSlice p.buffer ≠ [] := List.ne_nil_of_length_pos hpos
        have hcopy : (copyInto buf 0 p.peeked.length p.peeked).Post (·.length = buf.length) :=
          fun _ => length_copyInto
        refine hcopy.bind fun dst hdst => ?_
        refine Exec.Post.bind (fun _ => length_slice) fun rest hrest => ?_
        have hroom : (Inquiry.mk rest.length (.ready (Read.read p.reader rest).1)).HasRoom := by
          change 0 < rest.length
          omega
        rcases hread : Read.read p.reader rest with ⟨result, rest', reader⟩
        have hlog := Logged.log_read p.reader rest
        rw [hread] at hlog hroom
        have hon := Accounts.read_on (clear p.buffer) (q := ⟨rest.length, .ready result⟩) hmore hne
        cases result with
        | ok n =>
          rw [Nat.add_comm] at hon
          exact Exec.post_ok.mpr (hlog ▸ .single (.inl hroom) hon)
        | error e => exact Exec.post_ok.mpr (hlog ▸ .single (.inl hroom) hon)
  · simp only [if_neg hpos]
    have hnil : asSlice p.buffer = [] := List.eq_nil_of_length_eq_zero (Nat.eq_zero_of_not_pos hpos)
    rcases hread : Read.read p.reader buf with ⟨result, buf', reader⟩
    have hlog := Logged.log_read p.reader buf
    rw [hread] at hlog
    refine Exec.post_ok.mpr (hlog ▸ .single ?_ (.read_through hnil))
    rcases Nat.eq_zero_or_pos buf.length with hzero | hroom
    · exact .inr (.inl (congrArg Aim.read hzero))
    · exact .inl hroom

variable [BoundedRead R]

/-- A read into the room behind `lo`, of which there is some. -/
theorem readRetry_answered (fuel : Nat) {p : Peekable (Logged R) B} {lo : Nat}
    (hlo : lo < p.peeked.length) :
    (p.readRetry fuel lo).Post fun out =>
      Asks (Answered (.ready out.1)) p.reader.log out.2.reader.log ∧
      Reshapes p.buffer out.2.buffer ∧ ∀ e, out.1 = .error e → e.kind ≠ .interrupted :=
  readRetry_asks fuel fun q hq => by rw [Inquiry.HasRoom, hq]; omega

theorem peek_asks (fuel : Nat) (p : Peekable (Logged R) B) (buf : List UInt8) :
    (p.peek fuel buf).Post fun out =>
      Asks (Conduct p.buffer out.2.2.buffer (.peek buf.length) (.ready out.1)) p.reader.log
        out.2.2.reader.log := by
  unfold peek
  simp only [p.len_buffer]
  by_cases hpos : p.peeked.length > 0
  · simp only [if_pos hpos]
    by_cases hlt : buf.length < p.peeked.length
    · simp only [if_pos hlt]
      exact .skip _ fun src => .skip _ fun dst =>
        Exec.post_ok.mpr (.none (.granted ⟨rfl, Nat.le_of_lt hlt⟩))
    · simp only [if_neg hlt]
      by_cases heq : buf.length = p.peeked.length
      · simp only [if_pos heq]
        exact .skip _ fun dst => Exec.post_ok.mpr (.none (.granted ⟨rfl, Nat.le_of_eq heq⟩))
      · simp only [if_neg heq]
        have hmore : (asSlice p.buffer).length < buf.length := by
          change p.peeked.length < _
          omega
        rcases hres : resize p.buffer buf.length with ⟨e | _, buffer⟩
        · exact Exec.post_ok.mpr (.none (.refused trivial .refl hres (by rintro q ⟨⟩)))
        · obtain ⟨hlen, -⟩ := LawfulBuffer.resize_ok hres
          refine (readRetry_answered fuel (hlen ▸ hmore)).bind ?_
          rintro ⟨result, p₁⟩ ⟨hasks, -, hkind⟩
          cases result with
          | ok n =>
            exact .skip _ fun dst =>
              Exec.post_ok.mpr (hasks.conduct fun _ hq => .granted ⟨hmore, n, hq, rfl⟩)
          | error e => exact Exec.post_ok.mpr (hasks.conduct fun _ hq => .failed hq (hkind e rfl))
  · have hzero : p.peeked.length = 0 := Nat.eq_zero_of_not_pos hpos
    have hnil : asSlice p.buffer = [] := List.eq_nil_of_length_eq_zero hzero
    simp only [hzero, gt_iff_lt, Nat.lt_irrefl, if_false, Nat.zero_add]
    by_cases hbuf : buf.length = 0
    · simp only [if_pos hbuf]
      exact Exec.post_ok.mpr (.none (.granted ⟨hbuf.symm, hbuf.trans_le (Nat.zero_le _)⟩))
    · simp only [if_neg hbuf]
      have hmore : (asSlice p.buffer).length < buf.length := by
        rw [hnil]
        exact Nat.pos_of_ne_zero hbuf
      rcases hres : resize p.buffer buf.length with ⟨e | _, buffer⟩
      · exact Exec.post_ok.mpr (.none (.refused trivial .refl hres (by rintro q ⟨⟩)))
      · obtain ⟨hlen, -⟩ := LawfulBuffer.resize_ok hres
        refine (readRetry_answered fuel (hlen ▸ Nat.pos_of_ne_zero hbuf)).bind ?_
        rintro ⟨result, p₁⟩ ⟨hasks, -, hkind⟩
        cases result with
        | ok n =>
          have hcount : n = (asSlice p.buffer).length + n := by rw [hnil, List.length_nil, Nat.zero_add]
          exact .skip _ fun src => .skip _ fun dst =>
            Exec.post_ok.mpr (hasks.conduct fun _ hq => .granted ⟨hmore, n, hq, hcount⟩)
        | error e => exact Exec.post_ok.mpr (hasks.conduct fun _ hq => .failed hq (hkind e rfl))

theorem peekVectored_asks (fuel : Nat) (p : Peekable (Logged R) B) (bufs : List (List UInt8)) :
    (p.peekVectored fuel bufs).Post fun out =>
      Asks (Conduct p.buffer out.2.2.buffer (.peek (firstNonempty bufs).length) (.ready out.1))
        p.reader.log out.2.2.reader.log := by
  rw [peekVectored_eq]
  refine (peek_asks fuel p (firstNonempty bufs)).bind ?_
  rintro ⟨result, buf, p₁⟩ hasks
  exact Exec.post_ok.mpr hasks

theorem peekToEndLoop_asks (fuel : Nat) {p : Peekable (Logged R) B} {b : B} (hb : Reshapes b p.buffer)
    (buf : List UInt8) :
    (p.peekToEndLoop fuel buf).Post fun out =>
      Asks (Conduct b out.2.2.buffer .toEnd (.ready out.1)) p.reader.log out.2.2.reader.log := by
  induction fuel generalizing p buf with
  | zero => rintro _ ⟨⟩
  | succ fuel ih =>
    unfold peekToEndLoop
    rcases hgrow : growPeekBuffer p.buffer with ⟨e | growth, buffer⟩
    · exact Exec.post_ok.mpr (.none (.not_grown trivial hb hgrow))
    · obtain ⟨hpos, -⟩ := (growPeekBuffer_spec _ hgrow).1 growth rfl
      refine (readSpare_asks { p with buffer } _ _).bind ?_
      rintro ⟨result, p₁⟩ ⟨hlog, -, -, hreshapes⟩
      have hb₁ (n : Nat) : Reshapes b (p₁.truncate n).buffer :=
        ((hb.trans (.of_grow hgrow)).trans hreshapes).truncate n
      rw [Nat.add_sub_cancel_left] at hlog
      have hroom : (Inquiry.mk growth (.ready result)).HasRoom := hpos
      cases result with
      | error e =>
        by_cases he : e.kind = .interrupted
        · simp only [if_pos he]
          refine (ih (hb₁ _) buf).mono ?_
          intro out hasks
          rw [reader_truncate, hlog] at hasks
          exact hasks.toEnd_on hroom (.interrupted he)
        · simp only [if_neg he]
          exact Exec.post_ok.mpr (hlog ▸ .single hroom (.failed rfl he))
      | ok n =>
        by_cases hn : n = 0
        · subst hn
          exact Exec.post_ok.mpr (hlog ▸ .single hroom (.granted ⟨rfl, len_buffer _⟩))
        · simp only [if_neg hn]
          refine .skip _ fun chunk => (ih (hb₁ _) _).mono ?_
          intro out hasks
          rw [reader_truncate, hlog] at hasks
          exact hasks.toEnd_on hroom (.data hn)

theorem peekToEnd_asks (fuel : Nat) (p : Peekable (Logged R) B) (buf : List UInt8) :
    (p.peekToEnd fuel buf).Post fun out =>
      Asks (Conduct p.buffer out.2.2.buffer .toEnd (.ready out.1)) p.reader.log out.2.2.reader.log :=
  peekToEndLoop_asks fuel .refl _

theorem peekToStringLoop_asks (fuel : Nat) {p : Peekable (Logged R) B} {b : B}
    (hb : Reshapes b p.buffer) :
    (p.peekToStringLoop fuel).Post fun out =>
      Asks (Conduct b out.2.buffer .toEnd (.ready (out.1.map fun () => out.2.peeked.length)))
        p.reader.log out.2.reader.log := by
  induction fuel generalizing p with
  | zero => rintro _ ⟨⟩
  | succ fuel ih =>
    unfold peekToStringLoop
    rcases hgrow : growPeekBuffer p.buffer with ⟨e | growth, buffer⟩
    · exact Exec.post_ok.mpr (.none (.not_grown trivial hb hgrow))
    · obtain ⟨hpos, -⟩ := (growPeekBuffer_spec _ hgrow).1 growth rfl
      refine (readSpare_asks { p with buffer } _ _).bind ?_
      rintro ⟨result, p₁⟩ ⟨hlog, -, -, hreshapes⟩
      have hb₁ (n : Nat) : Reshapes b (p₁.truncate n).buffer :=
        ((hb.trans (.of_grow hgrow)).trans hreshapes).truncate n
      rw [Nat.add_sub_cancel_left] at hlog
      have hroom : (Inquiry.mk growth (.ready result)).HasRoom := hpos
      cases result with
      | error e =>
        by_cases he : e.kind = .interrupted
        · simp only [if_pos he]
          refine (ih (hb₁ _)).mono ?_
          intro out hasks
          rw [reader_truncate, hlog] at hasks
          exact hasks.toEnd_on hroom (.interrupted he)
        · simp only [if_neg he]
          exact Exec.post_ok.mpr (hlog ▸ .single hroom (.failed rfl he))
      | ok n =>
        by_cases hn : n = 0
        · subst hn
          exact Exec.post_ok.mpr (hlog ▸ .single hroom (.granted ⟨rfl, rfl⟩))
        · simp only [if_neg hn]
          refine (ih (hb₁ _)).mono ?_
          intro out hasks
          rw [reader_truncate, hlog] at hasks
          exact hasks.toEnd_on hroom (.data hn)

theorem peekToString_asks (fuel : Nat) (p : Peekable (Logged R) B) (buf : Str) :
    (p.peekToString fuel buf).Post fun out =>
      Asks (Conduct p.buffer out.2.2.buffer .text (.ready out.1)) p.reader.log out.2.2.reader.log := by
  unfold peekToString
  cases hearly : earlyReject p.peeked with
  | some e => exact Exec.post_ok.mpr (.none (.rejected hearly rfl))
  | none =>
    refine (peekToStringLoop_asks fuel .refl).bind ?_
    rintro ⟨loopResult, p₁⟩ hasks
    refine (finishString_accounts p.buffer p₁.buffer loopResult buf).bind ?_
    rintro ⟨result, buf'⟩ hresult
    exact Exec.post_ok.mpr (hasks.mono fun asked h => h.mono (fun _ => id) hresult)

theorem peekExactLoop_asks (fuel : Nat) {p : Peekable (Logged R) B} {b : B} (hb : Reshapes b p.buffer)
    (buf : List UInt8) (filled : Nat) :
    (p.peekExactLoop fuel buf filled).Post fun out => out.2.1.length = buf.length ∧
      Asks (Conduct b out.2.2.buffer (.exact buf.length (buf.length - filled))
        (.ready (out.1.map fun () => buf.length))) p.reader.log out.2.2.reader.log := by
  induction fuel generalizing p buf filled with
  | zero => rintro _ ⟨⟩
  | succ fuel ih =>
    unfold peekExactLoop
    by_cases hlt : filled < buf.length
    · have hmissing : 0 < buf.length - filled := Nat.sub_pos_of_lt hlt
      simp only [if_pos hlt]
      rcases hres : resize p.buffer (len p.buffer + (buf.length - filled)) with ⟨e | _, buffer⟩
      · exact Exec.post_ok.mpr ⟨rfl, .none (.refused trivial hb hres (by rintro q ⟨⟩))⟩
      · obtain ⟨hlen, -⟩ := LawfulBuffer.resize_ok hres
        have hlt : len p.buffer < (asSlice buffer).length := by omega
        refine (readRetry_answered (fuel + 1) hlt).bind ?_
        rintro ⟨result, p₁⟩ ⟨hasks, hreshapes, hkind⟩
        have hb₁ (n : Nat) : Reshapes b (p₁.truncate n).buffer :=
          ((hb.trans (.of_resize hres)).trans hreshapes).truncate n
        cases result with
        | error e =>
          exact Exec.post_ok.mpr ⟨rfl, hasks.conduct fun _ hq => .failed hq (hkind e rfl)⟩
        | ok n =>
          by_cases hn : n = 0
          · subst hn
            exact Exec.post_ok.mpr ⟨rfl, hasks.conduct fun _ hq => .ended hmissing hq rfl⟩
          · simp only [if_neg hn]
            refine .skip _ fun src => Exec.Post.bind (fun _ => length_copyInto) fun buf' hbuf => ?_
            refine (ih (hb₁ _) buf' _).mono ?_
            rintro out ⟨hlength, hrest⟩
            rw [hbuf] at hrest
            refine ⟨hlength.trans hbuf, hasks.append (by rintro ⟨q, ⟨⟩, -⟩) ?_
              (fun r h => h.exact_of_some hmissing) hrest⟩
            rintro q ⟨_, ⟨⟩, hq⟩
            have hdata : ∃ m, 0 < m ∧ q.reply = .ready (.ok m) := ⟨n, Nat.pos_of_ne_zero hn, hq⟩
            exact ⟨.inl hdata, fun hnone => hnone.exact_of_none (.inl hdata) hmissing fun _ => hdata⟩
    · simp only [if_neg hlt]
      exact Exec.post_ok.mpr
        ⟨rfl, .none (.granted ⟨Nat.sub_eq_zero_of_le (Nat.le_of_not_lt hlt), rfl⟩)⟩

theorem peekExact_asks (fuel : Nat) (p : Peekable (Logged R) B) (buf : List UInt8) :
    (p.peekExact fuel buf).Post fun out => out.2.1.length = buf.length ∧
      Asks (Conduct p.buffer out.2.2.buffer (.exact buf.length (buf.length - p.peeked.length))
        (.ready (out.1.map fun () => buf.length))) p.reader.log out.2.2.reader.log := by
  unfold peekExact
  simp only [p.len_buffer]
  by_cases htotal : buf.length ≤ p.peeked.length
  · simp only [if_pos htotal]
    refine .skip _ fun src => Exec.Post.bind (fun _ => length_copyFromSlice) fun dst hdst => ?_
    exact Exec.post_ok.mpr ⟨hdst, .none (.granted ⟨Nat.sub_eq_zero_of_le htotal, rfl⟩)⟩
  · simp only [if_neg htotal]
    refine Exec.Post.bind (fun _ => length_copyInto) fun dst hdst => ?_
    simp only [← hdst]
    exact peekExactLoop_asks fuel .refl dst _

theorem fillPeekBuf_asks (fuel : Nat) (p : Peekable (Logged R) B) :
    (p.fillPeekBuf fuel).Post fun out =>
      Asks (Dialogue (Aim.fill (capacity p.buffer - p.peeked.length)).Fits Inquiry.GoesOn
        (Accounts p.buffer out.2.buffer (.fill (capacity p.buffer - p.peeked.length)) (.ready out.1)))
        p.reader.log out.2.reader.log := by
  unfold fillPeekBuf
  rcases hres : resize p.buffer (capacity p.buffer) with ⟨e | _, buffer⟩ <;> simp only [hres]
  · exact Exec.post_ok.mpr (.none (.refused trivial .refl hres (by rintro q ⟨⟩)))
  · obtain ⟨hlen, -⟩ := LawfulBuffer.resize_ok hres
    have hfit (q : Inquiry) (hq : q.room = (asSlice buffer).length - len p.buffer) :
        (Aim.fill (capacity p.buffer - p.peeked.length)).Fits q := by
      rw [hlen, p.len_buffer] at hq
      rcases Nat.eq_zero_or_pos (capacity p.buffer - p.peeked.length) with hzero | hpos
      · exact .inr (.inr (congrArg Aim.fill hzero))
      · exact .inl (Nat.lt_of_lt_of_eq hpos hq.symm)
    refine (readRetry_asks (p := { p with buffer }) fuel hfit).bind ?_
    rintro ⟨result, p₁⟩ ⟨hasks, -, hkind⟩
    cases result with
    | ok n =>
      refine Exec.post_ok.mpr (hasks.mono fun _ h => h.mono (fun _ => id) ?_)
      rintro _ ⟨q, rfl, hq⟩
      exact .granted hq
    | error e =>
      refine Exec.post_ok.mpr (hasks.mono fun _ h => h.mono (fun _ => id) ?_)
      rintro _ ⟨q, rfl, hq⟩
      exact .failed hq (hkind e rfl)

end Peekable

/-! ## Sequences of operations -/

/-- What an operation on `p` is after. -/
def Op.aim (p : Peekable R B) : Op → Option Aim
  | .read buf => some (.read buf.length)
  | .peek buf => some (.peek buf.length)
  | .peekVectored bufs => some (.peek (firstNonempty bufs).length)
  | .peekExact buf => some (.exact buf.length (buf.length - p.peeked.length))
  | .peekToEnd _ => some .toEnd
  | .peekToString _ => some .text
  | .fillPeekBuf => some (.fill (capacity p.buffer - p.peeked.length))
  | .consume | .consumeInPlace => none

/-- What an operation asks of the reader on the way from `p` to `p'`. -/
def Op.Asked (p : Peekable R B) (op : Op) (a : Answer (Except IoError Nat)) (p' : Peekable R B) :
    List Inquiry → Prop :=
  PeekableReader.Asked .ready p.buffer p'.buffer (op.aim p) a

omit [Read R] in
theorem Op.asked_result {op : Op} {p p' : Peekable (Logged R) B} {result : Except IoError Nat}
    {dst : List (List UInt8)} {goal : Aim} (haim : op.aim p = some goal)
    (h : Asks (Dialogue goal.Fits Inquiry.GoesOn (Accounts p.buffer p'.buffer goal (.ready result)))
      p.reader.log p'.reader.log) :
    Asks (op.Asked p (.gave result dst) p') p.reader.log p'.reader.log := by
  simp only [Asked, haim]
  exact h.mono fun _ => .result

theorem Peekable.call_asks [BoundedRead R] [LawfulBuffer B] (fuel : Nat) (op : Op)
    (p : Peekable (Logged R) B) :
    (p.call fuel op).Post fun out =>
      Asks (op.Asked p out.1 out.2) p.reader.log out.2.reader.log := by
  cases op with
  | read buf =>
    refine (p.read_asks buf).bind ?_
    rintro ⟨result, buf', p₁⟩ hasks
    exact Exec.post_ok.mpr (Op.asked_result rfl hasks)
  | peek buf =>
    refine (p.peek_asks fuel buf).bind ?_
    rintro ⟨result, buf', p₁⟩ hasks
    exact Exec.post_ok.mpr (Op.asked_result rfl (hasks.mono fun _ => Dialogue.aimed))
  | peekVectored bufs =>
    refine (p.peekVectored_asks fuel bufs).bind ?_
    rintro ⟨result, bufs', p₁⟩ hasks
    exact Exec.post_ok.mpr (Op.asked_result rfl (hasks.mono fun _ => Dialogue.aimed))
  | peekExact buf =>
    refine (p.peekExact_asks fuel buf).bind ?_
    rintro ⟨result, buf', p₁⟩ ⟨hbuf, hasks⟩
    rw [← hbuf] at hasks
    refine Exec.post_ok.mpr (Op.asked_result ?_ (hasks.mono fun _ => Dialogue.aimed))
    rw [hbuf]
    rfl
  | peekToEnd buf =>
    refine (p.peekToEnd_asks fuel buf).bind ?_
    rintro ⟨result, buf', p₁⟩ hasks
    exact Exec.post_ok.mpr (Op.asked_result rfl (hasks.mono fun _ => Dialogue.aimed))
  | peekToString buf =>
    refine (p.peekToString_asks fuel buf).bind ?_
    rintro ⟨result, buf', p₁⟩ hasks
    exact Exec.post_ok.mpr (Op.asked_result rfl (hasks.mono fun _ => Dialogue.aimed))
  | fillPeekBuf =>
    refine (p.fillPeekBuf_asks fuel).bind ?_
    rintro ⟨result, p₁⟩ hasks
    exact Exec.post_ok.mpr (Op.asked_result rfl hasks)
  | consume => exact Exec.post_ok.mpr ⟨[], (List.append_nil _).symm, .handed _⟩
  | consumeInPlace => exact Exec.post_ok.mpr ⟨[], (List.append_nil _).symm, .done⟩

end PeekableReader
