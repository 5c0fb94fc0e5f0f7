import PeekableReader.Async.Alike
import PeekableReader.Io.Logged

/-!
# What the futures ask of the reader

Within one poll a future calls its reader with room for some bytes each time, goes on only
after data and interruptions, and ends with what the last call accounts for.
-/

namespace PeekableReader

open Buffer

variable {R B : Type} [Buffer B]

/-- What one poll asks of the reader, and how that accounts for its result. -/
abbrev Conduct (b b' : B) (aim : Aim) (poll : Poll (Except IoError Nat)) : List Inquiry → Prop :=
  Dialogue Inquiry.HasRoom Inquiry.GoesOn (Accounts b b' aim poll)

theorem Dialogue.aimed {b b' : B} {aim : Aim} {poll : Poll (Except IoError Nat)}
    {asked : List Inquiry} (h : Conduct b b' aim poll asked) :
    Dialogue aim.Fits Inquiry.GoesOn (Accounts b b' aim poll) asked :=
  h.mono (fun _ => .inl) fun _ => id

/-- A poll of the reader with a range of the peek buffer is one call. -/
def TailAsks (tail : TailRead (Logged R) B) : Prop :=
  ∀ p lo hi, (tail p lo hi).Post fun out =>
    out.2.reader.log = p.reader.log ++ [⟨hi - lo, out.1⟩] ∧ lo ≤ hi ∧
      out.2.peeked.length = p.peeked.length ∧ Reshapes p.buffer out.2.buffer

/-- All calls but the last were interrupted, and this is the answer to the last. -/
abbrev Answered (poll : Poll (Except IoError Nat)) : List Inquiry → Prop :=
  Dialogue Inquiry.HasRoom Inquiry.GoesOn fun last => ∃ q, last = some q ∧ q.reply = poll

/-- A loop to the end goes on after a call that lets it. -/
theorem Asks.toEnd_on {b b' : B} {poll : Poll (Except IoError Nat)} {q : Inquiry}
    {log log' : List Inquiry} (h : Asks (Conduct b b' .toEnd poll) (log ++ [q]) log')
    (hroom : q.HasRoom) (hgo : q.GoesOn) : Asks (Conduct b b' .toEnd poll) log log' :=
  h.cons hroom hgo (fun hnone => hnone.toEnd_of_none hgo) fun _ => id

/-- A result that the last answer accounts for. -/
theorem Asks.conduct {b b' : B} {aim : Aim} {poll poll' : Poll (Except IoError Nat)}
    {log log' : List Inquiry} (h : Asks (Answered poll) log log')
    (haccounts : ∀ q, q.reply = poll → Accounts b b' aim poll' (some q)) :
    Asks (Conduct b b' aim poll') log log' :=
  h.mono fun _ hasked => hasked.mono (fun _ => id) (by
    rintro _ ⟨q, rfl, hq⟩
    exact haccounts q hq)

variable {tail : TailRead (Logged R) B}

/-- A failure of the loop is one of `peek_to_string`. -/
theorem Accounts.text_of_toEnd {b b' : B} {e : IoError} {last : Option Inquiry}
    (h : Accounts b b' .toEnd (.ready (.error e)) last) :
    Accounts b b' .text (.ready (.error e)) last := by
  cases h with
  | failed hreply h => exact .failed hreply h
  | refused _ hb h hlast => exact .refused trivial hb h hlast

/-- What the end of `peek_to_string` makes of its loop. -/
theorem finishString_accounts (b b' : B) (loopResult : Except IoError Unit) (dst : Str) :
    (finishString loopResult (asSlice b') dst).Post fun out => ∀ last,
      Accounts b b' .toEnd (.ready (loopResult.map fun () => (asSlice b').length)) last →
        Accounts b b' .text (.ready out.1) last := by
  unfold finishString
  split
  · next s hs =>
    refine Exec.post_ok.mpr ?_
    rintro (_ | q) ⟨h⟩
    · exact h.elim
    · exact .granted ⟨h.1, rfl, s, hs⟩
  · next e he =>
    refine Exec.post_ok.mpr ?_
    rintro (_ | q) ⟨h⟩
    · exact h.elim
    · exact .invalid h.1 he
  · exact Exec.post_ok.mpr fun _ => .text_of_toEnd
  · next io u _ =>
    by_cases hv : u.validUpTo = 0
    · simp only [hv, ne_eq, not_true_eq_false, if_false]
      exact Exec.post_ok.mpr fun _ => .text_of_toEnd
    · simp only [ne_eq, hv, not_false_eq_true, if_true]
      refine .skip _ fun valid => ?_
      split
      · exact Exec.post_ok.mpr fun _ => .text_of_toEnd
      · rintro _ ⟨⟩

/-- An answer of the reader that is not an interruption ends the loop. -/
theorem pollRetry_asks (htail : TailAsks tail) (fuel : Nat) {p : Peekable (Logged R) B} {lo : Nat}
    (hlo : lo < p.peeked.length) :
    (pollRetry tail fuel p lo).Post fun out =>
      Asks (Answered out.1) p.reader.log out.2.reader.log ∧
        out.2.peeked.length = p.peeked.length ∧
        ∀ e, out.1 = .ready (.error e) → e.kind ≠ .interrupted := by
  induction fuel generalizing p with
  | zero => rintro _ ⟨⟩
  | succ fuel ih =>
    refine (htail p lo p.peeked.length).bind ?_
    rintro ⟨poll, p₁⟩ ⟨hlog, -, hlen, -⟩
    have hroom : (Inquiry.mk (p.peeked.length - lo) poll).HasRoom := Nat.sub_pos_of_lt hlo
    have hlast : Asks (Answered poll) p.reader.log p₁.reader.log := hlog ▸ .single hroom ⟨_, rfl, rfl⟩
    cases poll using Poll.casesResult with
    | ok n => exact Exec.post_ok.mpr ⟨hlast, hlen, by rintro e ⟨⟩⟩
    | pending => exact Exec.post_ok.mpr ⟨hlast, hlen, by rintro e ⟨⟩⟩
    | error e =>
      by_cases he : e.kind = .interrupted
      · simp only [if_pos he]
        refine (ih (hlen ▸ hlo)).mono ?_
        rintro out ⟨hasks, hlen', hkind⟩
        rw [hlog] at hasks
        refine ⟨hasks.cons hroom (.inr ⟨e, rfl, he⟩) ?_ fun _ => id, hlen'.trans hlen, hkind⟩
        rintro ⟨q, ⟨⟩, -⟩
      · simp only [if_neg he]
        exact Exec.post_ok.mpr ⟨hlast, hlen, by rintro _ ⟨⟩; exact he⟩

variable [LawfulBuffer B]

/-! ## `PeekExact` -/

/-- How many bytes the next poll has to fetch. -/
def PeekExact.missing (f : PeekExact R B) : Nat :=
  if f.filled = 0 then f.buf.length - f.peekable.peeked.length else f.buf.length - f.filled

theorem PeekExact.loop_asks (htail : TailAsks tail) {eof : IoError} (heof : eof.kind = .unexpectedEof)
    (fuel : Nat) {f : PeekExact (Logged R) B} {b : B} (hb : Reshapes b f.peekable.buffer) :
    (loop tail eof fuel f).Post fun out => out.2.buf.length = f.buf.length ∧
      Asks (Conduct b out.2.peekable.buffer (.exact f.buf.length (f.buf.length - f.filled))
        (out.1.mapOk fun () => f.buf.length)) f.peekable.reader.log out.2.peekable.reader.log := by
  induction fuel generalizing f with
  | zero => rintro _ ⟨⟩
  | succ fuel ih =>
    unfold loop
    by_cases hlt : f.filled < f.buf.length
    · have hmissing : 0 < f.buf.length - f.filled := Nat.sub_pos_of_lt hlt
      simp only [if_pos hlt]
      rcases hres : resize f.peekable.buffer (len f.peekable.buffer + (f.buf.length - f.filled)) with
        ⟨e | _, buffer⟩
      · exact Exec.post_ok.mpr ⟨rfl, .none (.refused trivial hb hres (by rintro q ⟨⟩))⟩
      · obtain ⟨hlen, -⟩ := LawfulBuffer.resize_ok hres
        refine (htail { f.peekable with buffer } _ _).bind ?_
        rintro ⟨poll, p⟩ ⟨hlog, -, -, hreshapes⟩
        have hb₁ (n : Nat) : Reshapes b (p.truncate n).buffer :=
          ((hb.trans (.of_resize hres)).trans hreshapes).truncate n
        have hroom : (Inquiry.mk ((asSlice buffer).length - len f.peekable.buffer) poll).HasRoom := by
          change 0 < _ - _
          omega
        cases poll using Poll.casesResult with
        | pending => exact Exec.post_ok.mpr ⟨rfl, hlog ▸ .single hroom (.stalled rfl)⟩
        | error e =>
          by_cases he : e.kind = .interrupted
          · simp only [if_pos he]
            refine (ih (f := { f with peekable := p.truncate _ }) (hb₁ _)).mono ?_
            rintro out ⟨hbuf, hasks⟩
            rw [Peekable.reader_truncate, hlog] at hasks
            refine ⟨hbuf, hasks.cons hroom (.interrupted he) ?_ fun _ => id⟩
            intro hnone
            exact hnone.exact_of_none (.interrupted he) hmissing
              fun hzero => absurd hzero (Nat.ne_of_gt hmissing)
          · simp only [if_neg he]
            exact Exec.post_ok.mpr ⟨rfl, hlog ▸ .single hroom (.failed rfl he)⟩
        | ok n =>
          by_cases hn : n = 0
          · subst hn
            exact Exec.post_ok.mpr ⟨rfl, hlog ▸ .single hroom (.ended hmissing rfl heof)⟩
          · simp only [if_neg hn]
            refine .skip _ fun src => Exec.Post.bind (fun _ => length_copyInto) fun buf hbuf => ?_
            refine (ih (f := ⟨p.truncate _, buf, _⟩) (hb₁ _)).mono ?_
            rintro out ⟨hbuf', hasks⟩
            rw [Peekable.reader_truncate, hlog] at hasks
            simp only [hbuf] at hasks
            refine ⟨hbuf'.trans hbuf, hasks.cons hroom (.data hn) ?_ ?_⟩
            · intro hnone
              exact hnone.exact_of_none (.data hn) hmissing fun _ => ⟨n, Nat.pos_of_ne_zero hn, rfl⟩
            · intro r hsome
              exact hsome.exact_of_some hmissing
    · simp only [if_neg hlt]
      exact Exec.post_ok.mpr ⟨rfl, .none (.granted ⟨Nat.sub_eq_zero_of_le (Nat.le_of_not_lt hlt), rfl⟩)⟩

theorem PeekExact.pollWith_asks (htail : TailAsks tail) {eof : IoError}
    (heof : eof.kind = .unexpectedEof) (fuel : Nat) (f : PeekExact (Logged R) B) :
    (f.pollWith tail eof fuel).Post fun out => out.2.buf.length = f.buf.length ∧
      Asks (Conduct f.peekable.buffer out.2.peekable.buffer (.exact f.buf.length f.missing)
        (out.1.mapOk fun () => f.buf.length)) f.peekable.reader.log out.2.peekable.reader.log := by
  unfold pollWith missing
  by_cases hfilled : f.filled = 0
  · simp only [if_pos hfilled]
    refine .skip _ fun src => Exec.Post.bind (fun _ => length_copyInto) fun buf hbuf => ?_
    split
    · next heq =>
      have hle : f.buf.length ≤ f.peekable.peeked.length := by omega
      exact Exec.post_ok.mpr ⟨hbuf, .none (.granted ⟨Nat.sub_eq_zero_of_le hle, rfl⟩)⟩
    · have hloop := loop_asks htail heof fuel
        (f := ⟨f.peekable, buf, min f.peekable.peeked.length f.buf.length⟩) .refl
      simp only [hbuf] at hloop
      rwa [show f.buf.length - min f.peekable.peeked.length f.buf.length =
        f.buf.length - f.peekable.peeked.length by omega] at hloop
  · simp only [if_neg hfilled]
    exact loop_asks htail heof fuel .refl

/-! ## `PeekToEnd` and `PeekToString` -/

theorem PeekToEnd.loop_asks (htail : TailAsks tail) (fuel : Nat) {f : PeekToEnd (Logged R) B} {b : B}
    (hb : Reshapes b f.peekable.buffer) :
    (loop tail fuel f).Post fun out =>
      Asks (Conduct b out.2.peekable.buffer .toEnd out.1) f.peekable.reader.log
        out.2.peekable.reader.log := by
  induction fuel generalizing f with
  | zero => rintro _ ⟨⟩
  | succ fuel ih =>
    unfold loop
    rcases hgrow : growPeekBuffer f.peekable.buffer with ⟨e | growth, buffer⟩
    · exact Exec.post_ok.mpr (.none (.not_grown trivial hb hgrow))
    · obtain ⟨hpos, -⟩ := (growPeekBuffer_spec _ hgrow).1 growth rfl
      refine (htail { f.peekable with buffer } _ _).bind ?_
      rintro ⟨poll, p⟩ ⟨hlog, -, -, hreshapes⟩
      have hb₁ (n : Nat) : Reshapes b (p.truncate n).buffer :=
        ((hb.trans (.of_grow hgrow)).trans hreshapes).truncate n
      rw [Nat.add_sub_cancel_left] at hlog
      have hroom : (Inquiry.mk growth poll).HasRoom := hpos
      cases poll using Poll.casesResult with
      | pending => exact Exec.post_ok.mpr (hlog ▸ .single hroom (.stalled rfl))
      | error e =>
        by_cases he : e.kind = .interrupted
        · simp only [if_pos he]
          refine (ih (f := { f with peekable := p.truncate _ }) (hb₁ _)).mono ?_
          intro out hasks
          rw [Peekable.reader_truncate, hlog] at hasks
          exact hasks.toEnd_on hroom (.interrupted he)
        · simp only [if_neg he]
          exact Exec.post_ok.mpr (hlog ▸ .single hroom (.failed rfl he))
      | ok n =>
        by_cases hn : n = 0
        · subst hn
          exact Exec.post_ok.mpr (hlog ▸ .single hroom (.granted ⟨rfl, Peekable.len_buffer _⟩))
        · simp only [if_neg hn]
          refine .skip _ fun chunk => (ih (f := ⟨p.truncate _, _, _⟩) (hb₁ _)).mono ?_
          intro out hasks
          rw [Peekable.reader_truncate, hlog] at hasks
          exact hasks.toEnd_on hroom (.data hn)

theorem PeekToEnd.pollWith_asks (htail : TailAsks tail) (fuel : Nat) (f : PeekToEnd (Logged R) B) :
    (f.pollWith tail fuel).Post fun out =>
      Asks (Conduct f.peekable.buffer out.2.peekable.buffer .toEnd out.1) f.peekable.reader.log
        out.2.peekable.reader.log := by
  unfold pollWith
  split
  · exact loop_asks htail fuel .refl
  · exact loop_asks htail fuel (f := { f with buf := _, prefixCopied := true }) .refl

theorem PeekToString.loop_asks (htail : TailAsks tail) (fuel : Nat) {p : Peekable (Logged R) B} {b : B}
    (hb : Reshapes b p.buffer) :
    (loop tail fuel p).Post fun out =>
      Asks (Conduct b out.2.buffer .toEnd (out.1.mapOk fun () => out.2.peeked.length)) p.reader.log
        out.2.reader.log := by
  induction fuel generalizing p with
  | zero => rintro _ ⟨⟩
  | succ fuel ih =>
    unfold loop
    rcases hgrow : growPeekBuffer p.buffer with ⟨e | growth, buffer⟩
    · exact Exec.post_ok.mpr (.none (.not_grown trivial hb hgrow))
    · obtain ⟨hpos, -⟩ := (growPeekBuffer_spec _ hgrow).1 growth rfl
      refine (htail { p with buffer } _ _).bind ?_
      rintro ⟨poll, p₁⟩ ⟨hlog, -, -, hreshapes⟩
      have hb₁ (n : Nat) : Reshapes b (p₁.truncate n).buffer :=
        ((hb.trans (.of_grow hgrow)).trans hreshapes).truncate n
      rw [Nat.add_sub_cancel_left] at hlog
      have hroom : (Inquiry.mk growth poll).HasRoom := hpos
      cases poll using Poll.casesResult with
      | pending => exact Exec.post_ok.mpr (hlog ▸ .single hroom (.stalled rfl))
      | error e =>
        by_cases he : e.kind = .interrupted
        · simp only [if_pos he]
          refine (ih (hb₁ _)).mono ?_
          intro out hasks
          rw [Peekable.reader_truncate, hlog] at hasks
          exact hasks.toEnd_on hroom (.interrupted he)
        · simp only [if_neg he]
          exact Exec.post_ok.mpr (hlog ▸ .single hroom (.failed rfl he))
      | ok n =>
        by_cases hn : n = 0
        · subst hn
          exact Exec.post_ok.mpr (hlog ▸ .single hroom (.granted ⟨rfl, rfl⟩))
        · simp only [if_neg hn]
          refine (ih (hb₁ _)).mono ?_
          intro out hasks
          rw [Peekable.reader_truncate, hlog] at hasks
          exact hasks.toEnd_on hroom (.data hn)

theorem PeekToString.resume_asks (htail : TailAsks tail) (fuel : Nat)
    (f : PeekToString (Logged R) B) :
    (resume tail fuel f).Post fun out =>
      Asks (Conduct f.peekable.buffer out.2.peekable.buffer .text out.1) f.peekable.reader.log
        out.2.peekable.reader.log := by
  refine (loop_asks htail fuel .refl).bind ?_
  rintro ⟨poll, p⟩ hasks
  cases poll with
  | pending =>
    refine Exec.post_ok.mpr (hasks.mono fun asked h => h.mono (fun _ => id) ?_)
    rintro _ (h | h)
    exact .stalled h
  | ready loopResult =>
    refine (finishString_accounts f.peekable.buffer p.buffer loopResult f.buf).bind ?_
    rintro ⟨result, buf⟩ hresult
    rw [Poll.mapOk_ready] at hasks
    exact Exec.post_ok.mpr (hasks.mono fun asked h => h.mono (fun _ => id) hresult)

theorem PeekToString.pollWith_asks (htail : TailAsks tail) (fuel : Nat)
    (f : PeekToString (Logged R) B) :
    (f.pollWith tail fuel).Post fun out =>
      Asks (Conduct f.peekable.buffer out.2.peekable.buffer .text out.1) f.peekable.reader.log
        out.2.peekable.reader.log := by
  unfold pollWith
  split
  · exact resume_asks htail fuel f
  · split
    · next e he => exact Exec.post_ok.mpr (.none (.rejected he rfl))
    · exact resume_asks htail fuel { f with started := true }

/-! ## `FillPeekBuf` -/

theorem FillPeekBuf.pollWith_asks (htail : TailAsks tail) (f : FillPeekBuf (Logged R) B) :
    (f.pollWith tail).Post fun out =>
      Asks (Conduct f.peeker.buffer out.2.peeker.buffer (.pollFill (f.cap - f.original)) out.1)
        f.peeker.reader.log out.2.peeker.reader.log := by
  unfold pollWith
  by_cases hfull : f.cap = f.original
  · simp only [if_pos hfull]
    exact Exec.post_ok.mpr (.none (.granted ⟨by rw [hfull, Nat.sub_self], rfl⟩))
  · simp only [if_neg hfull]
    rcases hres : resize f.peeker.buffer f.cap with ⟨e | _, buffer⟩
    · exact Exec.post_ok.mpr (.none (.refused trivial .refl hres (by rintro q ⟨⟩)))
    · obtain ⟨hlen, -⟩ := LawfulBuffer.resize_ok hres
      refine (htail { f.peeker with buffer } _ _).bind ?_
      rintro ⟨poll, p⟩ ⟨hlog, hrange, -⟩
      have hspare : 0 < f.cap - f.original := by omega
      have hroom : (Inquiry.mk ((asSlice buffer).length - f.original) poll).HasRoom := by
        rw [hlen]
        exact hspare
      cases poll using Poll.casesResult with
      | pending => exact Exec.post_ok.mpr (hlog ▸ .single hroom (.stalled rfl))
      | error e => exact Exec.post_ok.mpr (hlog ▸ .single hroom (.failed rfl trivial))
      | ok n => exact Exec.post_ok.mpr (hlog ▸ .single hroom (.granted ⟨hspare, rfl⟩))

end PeekableReader
