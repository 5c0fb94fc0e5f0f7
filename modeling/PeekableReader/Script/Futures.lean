import PeekableReader.Future.Spec
import PeekableReader.Script.Read

/-!
# The futures on scripts

A poll of `PeekExact`, `PeekToEnd` or `PeekToString` on a script either completes, and then
has collected what `collect` says, or is pending, and then has collected a part of it and
left the rest to the next poll. `Collects` states this for one poll, and `drive_collects`
concludes for all polls together: the pending polls of the script leave no trace.
-/

namespace PeekableReader

open Buffer PollScript

variable {B : Type} [Buffer B]

/-- The events the reader still holds, without its pending polls. -/
def Peekable.events (p : Peekable PollScript B) : List Event := strip p.reader.events

/-- How often the reader will still be pending. -/
def Peekable.pendings (p : Peekable PollScript B) : Nat := PollScript.pendings p.reader.events

@[simp] theorem Peekable.events_truncate (p : Peekable PollScript B) (n : Nat) :
    (p.truncate n).events = p.events := rfl

@[simp] theorem Peekable.pendings_truncate (p : Peekable PollScript B) (n : Nat) :
    (p.truncate n).pendings = p.pendings := rfl

omit [Buffer B] in
@[simp] theorem Peekable.events_lift (p : Peekable Script B) : p.lift.events = p.reader.events :=
  strip_lift _

omit [Buffer B] in
@[simp] theorem Peekable.pendings_lift (p : Peekable Script B) : p.lift.pendings = 0 :=
  PollScript.pendings_lift _

/-- What a poll that takes `p` to `p'` has collected. -/
def Collects (plan : Plan) (p p' : Peekable PollScript B) : Poll Outcome → Prop
  | .ready outcome => collect plan p.peeked p.events = (outcome, p'.peeked, p'.events)
  | .pending =>
    collect plan p'.peeked p'.events = collect plan p.peeked p.events ∧
      Script.weight p'.events ≤ Script.weight p.events ∧ p.pendings = p'.pendings + 1

/-- Reading on: `q` is where the reading of `p` has got to. -/
structure Advances (plan : Plan) (p q : Peekable PollScript B) : Prop where
  collect_eq : collect plan p.peeked p.events = collect plan q.peeked q.events
  weight_lt : Script.weight q.events < Script.weight p.events
  pendings_eq : p.pendings = q.pendings

theorem Collects.after {plan : Plan} {p q p' : Peekable PollScript B} {result : Poll Outcome}
    (h : Collects plan q p' result) (hpq : Advances plan p q) : Collects plan p p' result := by
  cases result with
  | ready outcome => exact hpq.collect_eq.trans h
  | pending =>
    obtain ⟨hcollect, hweight, hpend⟩ := h
    exact ⟨hcollect.trans hpq.collect_eq.symm, hweight.trans hpq.weight_lt.le,
      hpq.pendings_eq.trans hpend⟩

theorem Collects.refused {plan : Plan} {p : Peekable PollScript B} {buffer : B} {e : IoError}
    (hplan : plan p.peeked = some (.error e)) (hsame : asSlice buffer = p.peeked) :
    Collects plan p { p with buffer } (.ready (.refused e)) := by
  have hpeeked : ({ p with buffer } : Peekable PollScript B).peeked = p.peeked := hsame
  rw [Collects, hpeeked]
  exact collect_refused hplan

/-- A poll that ends as its collecting does, ready with a result or with a future to poll again. -/
inductive Completes {α σ : Type} (Done : Outcome → α → σ → Prop) (Live : σ → Prop) :
    Poll Outcome → Poll α × σ → Prop
  | ready {outcome : Outcome} {a : α} {s : σ} (h : Done outcome a s) :
      Completes Done Live (.ready outcome) (.ready a, s)
  | pending {s : σ} (h : Live s) : Completes Done Live .pending (.pending, s)

/-- A poll of `s` that returns `out` has collected and ends accordingly. -/
def PollCollects {α σ : Type} (plan : Plan) (view : σ → Peekable PollScript B)
    (Done : Outcome → α → σ → Prop) (Live : σ → Prop) (s : σ) (out : Poll α × σ) : Prop :=
  ∃ result, Collects plan (view s) (view out.2) result ∧ Completes Done Live result out

/-- Polls that collect, one after the other, collect all there is. -/
theorem drive_collects {α σ : Type} {poll : σ → Exec (Poll α × σ)} {plan : Plan}
    {view : σ → Peekable PollScript B} {Done : Outcome → α → σ → Prop} {Live : σ → Prop} {fuel : Nat}
    (hpoll : ∀ s, Live s → Script.weight (view s).events < fuel →
      (poll s).Ends (PollCollects plan view Done Live s))
    (polls : Nat) {s : σ} (hlive : Live s) (hfuel : Script.weight (view s).events < fuel)
    (hpolls : (view s).pendings < polls) :
    (drive poll polls s).Ends fun out => ∃ outcome,
      collect plan (view s).peeked (view s).events =
        (outcome, (view out.2).peeked, (view out.2).events) ∧ Done outcome out.1 out.2 := by
  induction polls generalizing s with
  | zero => omega
  | succ polls ih =>
    apply (hpoll s hlive hfuel).bind
    intro out ⟨result, hcollects, hcompletes⟩
    cases hcompletes with
    | ready hdone => exact Exec.ends_ok.mpr ⟨_, hcollects, hdone⟩
    | @pending t hlive' =>
      obtain ⟨hcollect, hweight, hpend⟩ : Collects plan (view s) (view t) .pending := hcollects
      apply (ih hlive' (by omega) (by omega)).mono
      intro out' ⟨outcome, h, hdone⟩
      exact ⟨outcome, hcollect.symm.trans h, hdone⟩

/-- Futures that poll alike are driven alike. -/
theorem drive_congr {α σ : Type} {poll : σ → Exec (Poll α × σ)} {s t : σ} (h : poll s = poll t)
    (polls : Nat) : drive poll polls s = drive poll polls t := by
  cases polls with
  | zero => rfl
  | succ polls => rw [drive, h, drive]

/-- The cases of a poll with the granted room behind the peek buffer of `p`, by its answer
and the state `p₁` it leaves. -/
inductive TailCase (plan : Plan) (p p₁ : Peekable PollScript B) (room : Nat) :
    Poll (Except IoError Nat) → Prop
  | eof (peeked : (p₁.truncate p.peeked.length).peeked = p.peeked)
      (collects : Collects plan p (p₁.truncate p.peeked.length) (.ready .eof))
      (next : Script.next room p.events = (.ok [], p₁.events)) :
      TailCase plan p p₁ room (.ready (.ok 0))
  | data {d : List UInt8} (pos : d.length ≠ 0) (le : d.length ≤ room)
      (peeked : (p₁.truncate (p.peeked.length + d.length)).peeked = p.peeked ++ d)
      (advances : Advances plan p (p₁.truncate (p.peeked.length + d.length)))
      (next : Script.next room p.events = (.ok d, p₁.events)) :
      TailCase plan p p₁ room (.ready (.ok d.length))
  | interrupted {e : IoError} (kind : e.kind = .interrupted)
      (peeked : (p₁.truncate p.peeked.length).peeked = p.peeked)
      (advances : Advances plan p (p₁.truncate p.peeked.length))
      (next : Script.next room p.events = (.error e, p₁.events)) :
      TailCase plan p p₁ room (.ready (.error e))
  | failed {e : IoError} (kind : e.kind ≠ .interrupted)
      (peeked : (p₁.truncate p.peeked.length).peeked = p.peeked)
      (collects : Collects plan p (p₁.truncate p.peeked.length) (.ready (.failed e)))
      (next : Script.next room p.events = (.error e, p₁.events)) :
      TailCase plan p p₁ room (.ready (.error e))
  | pending (peeked : (p₁.truncate p.peeked.length).peeked = p.peeked)
      (collects : Collects plan p (p₁.truncate p.peeked.length) .pending)
      (same : p₁.events = p.events) :
      TailCase plan p p₁ room .pending

variable [LawfulBuffer B] {plan : Plan}

theorem readTail_cases {p : Peekable PollScript B} {buffer : B} {room : List UInt8}
    (hbuffer : asSlice buffer = p.peeked ++ room) (hplan : plan p.peeked = some (.ok room.length))
    {lo hi : Nat} (hlo : lo = p.peeked.length) (hhi : hi = lo + room.length) :
    ∃ poll p₁, Future.readTail { p with buffer } lo hi = .ok (poll, p₁) ∧
      TailCase plan p p₁ room.length poll := by
  obtain ⟨answer, p₁, hrun, hnext, hpeeked⟩ :=
    readTail_script (p := { p with buffer }) hbuffer hlo hhi
  refine ⟨_, p₁, hrun, ?_⟩
  have hfront (hd : answer.bytes = []) : (p₁.truncate p.peeked.length).peeked = p.peeked := by
    simpa [hd] using peeked_truncate_read (d := answer.bytes) (n := p.peeked.length) hpeeked (by simp [hd])
  cases answer using Poll.casesResult with
  | pending =>
    obtain ⟨hstrip, hpend⟩ := next_pending hnext
    refine .pending (hfront rfl) ⟨?_, ?_, hpend⟩ hstrip
    · rw [hfront rfl]
      exact congrArg _ hstrip
    · exact Nat.le_of_eq (congrArg _ hstrip)
  | error e =>
    obtain ⟨hnext, hpend⟩ := next_ready hnext
    by_cases he : e.kind = .interrupted
    · refine .interrupted he (hfront rfl) ⟨?_, (Script.next_error hnext).2, hpend.symm⟩ hnext
      rw [hfront rfl]
      exact collect_interrupted hplan hnext he
    · refine .failed he (hfront rfl) ?_ hnext
      rw [Collects, hfront rfl]
      exact collect_failed hplan hnext he
  | ok d =>
    obtain ⟨hnext, hpend⟩ := next_ready hnext
    obtain ⟨hle, -, hweight⟩ := Script.next_ok hnext
    by_cases hd : d = []
    · subst hd
      refine .eof (hfront rfl) ?_ hnext
      rw [Collects, hfront rfl]
      exact collect_eof hplan hnext
    · have hdata := peeked_truncate_read hpeeked (n := p.peeked.length + d.length) rfl
      refine .data (by simpa using hd) hle hdata ⟨?_, hweight hd, hpend.symm⟩ hnext
      rw [hdata]
      exact collect_data hplan hnext hd

section Grow

variable {grant : Grant} {p : Peekable PollScript B} {buffer : B}
  (hgrant : Follows grant p.buffer)
include hgrant

theorem growthPlan_error {e : IoError} (h : growPeekBuffer p.buffer = (.error e, buffer)) :
    growthPlan grant p.peeked = some (.error e) := by
  have hfst := growPeekBuffer_fst hgrant
  rw [h] at hfst
  exact congrArg some hfst.symm

theorem growthPlan_ok {n : Nat} (h : growPeekBuffer p.buffer = (.ok n, buffer)) :
    growthPlan grant p.peeked = some (.ok n) := by
  have hfst := growPeekBuffer_fst hgrant
  rw [h] at hfst
  exact congrArg some hfst.symm

end Grow

variable {grant : Grant}

/-! ## `PeekToString` -/

theorem PeekToString.loop_collects (fuel : Nat) {p : Peekable PollScript B}
    (hgrant : Follows grant p.buffer) (hfuel : Script.weight p.events < fuel) :
    (loop Future.readTail fuel p).Ends fun out => ∃ result,
      Collects (growthPlan grant) p out.2 result ∧ Follows grant out.2.buffer ∧
      out.1 = result.map Outcome.loopResult := by
  induction fuel generalizing p with
  | zero => omega
  | succ fuel ih =>
    simp only [loop, Peekable.len_buffer]
    rcases hgrow : growPeekBuffer p.buffer with ⟨e | n, buffer⟩
    · have hsame : asSlice buffer = p.peeked := (growPeekBuffer_spec _ hgrow).2 e rfl
      exact Exec.ends_ok.mpr ⟨.ready (.refused e), .refused (growthPlan_error hgrant hgrow) hsame,
        hgrant.reshapes (.of_grow hgrow), rfl⟩
    · obtain ⟨-, room, hroom, hlen⟩ := (growPeekBuffer_spec _ hgrow).1 n rfl
      have hplan := growthPlan_ok hgrant hgrow
      rw [← hlen] at hplan ⊢
      obtain ⟨poll, p₁, hrun, hcase⟩ := readTail_cases hroom hplan rfl rfl
      have hfollows := hgrant.reshapes ((Reshapes.of_grow hgrow).trans (readTail_reshapes hrun))
      simp only [hrun, Exec.ok_bind]
      cases hcase with
      | eof hpeeked hcollects => exact Exec.ends_ok.mpr ⟨_, hcollects, hfollows.truncate _, rfl⟩
      | @data d hpos hle hpeeked hadv =>
        simp only [if_neg hpos]
        have hw := hadv.weight_lt
        apply (ih (hfollows.truncate _) (by omega)).mono
        intro out hends
        obtain ⟨result, h, hout⟩ := hends
        exact ⟨result, h.after hadv, hout⟩
      | interrupted he hpeeked hadv =>
        simp only [if_pos he]
        have hw := hadv.weight_lt
        apply (ih (hfollows.truncate _) (by omega)).mono
        intro out hends
        obtain ⟨result, h, hout⟩ := hends
        exact ⟨result, h.after hadv, hout⟩
      | failed he hpeeked hcollects =>
        simp only [if_neg he]
        exact Exec.ends_ok.mpr ⟨_, hcollects, hfollows.truncate _, rfl⟩
      | pending hpeeked hcollects =>
        exact Exec.ends_ok.mpr ⟨_, hcollects, hfollows.truncate _, rfl⟩

namespace PeekToString

/-- What `PeekToString` returns, and leaves in the destination `dst`. -/
def Returns (dst : Str) (outcome : Outcome) (result : Except IoError Nat)
    (f : PeekToString PollScript B) : Prop :=
  finishString outcome.loopResult f.peekable.peeked dst = .ok (result, f.buf)

/-- A future that has validated its prefix. -/
def Awaits (dst : Str) (f : PeekToString PollScript B) : Prop := f.started = true ∧ f.buf = dst

theorem pollWith_collects {fuel : Nat} {dst : Str} (f : PeekToString PollScript B)
    (hf : f.Awaits dst ∧ Follows grant f.peekable.buffer)
    (hfuel : Script.weight f.peekable.events < fuel) :
    (pollWith Future.readTail fuel f).Ends
      (PollCollects (growthPlan grant) peekable (Returns dst)
        (fun f => f.Awaits dst ∧ Follows grant f.peekable.buffer) f) := by
  obtain ⟨⟨hstarted, hbuf⟩, hgrant⟩ := hf
  simp only [pollWith, if_pos hstarted, resume]
  apply (loop_collects fuel hgrant hfuel).bind
  intro ⟨poll, p⟩ ⟨result, hcollects, hgrant', hpoll⟩
  cases result with
  | pending =>
    obtain rfl : poll = .pending := hpoll
    exact Exec.ends_ok.mpr ⟨.pending, hcollects, .pending ⟨⟨hstarted, hbuf⟩, hgrant'⟩⟩
  | ready outcome =>
    obtain rfl : poll = .ready outcome.loopResult := hpoll
    obtain ⟨⟨res, buf⟩, hfinish, -⟩ := finishString_ends outcome.loopResult p.peeked f.buf
    simp only [hfinish, Exec.ok_bind]
    rw [hbuf] at hfinish
    exact Exec.ends_ok.mpr ⟨.ready outcome, hcollects, .ready hfinish⟩

end PeekToString

/-! ## `PeekToEnd` -/

/-- The destination grows with the peek buffer. -/
def PeekToEnd.Extends (f f' : PeekToEnd PollScript B) : Prop :=
  f'.prefixCopied = f.prefixCopied ∧
    ∃ d, f'.peekable.peeked = f.peekable.peeked ++ d ∧ f'.buf = f.buf ++ d

theorem PeekToEnd.loop_collects (fuel : Nat) (dst : List UInt8) {p : Peekable PollScript B}
    (hgrant : Follows grant p.buffer) (hfuel : Script.weight p.events < fuel) :
    (loop Future.readTail fuel ⟨p, dst ++ p.peeked, true⟩).Ends fun out => ∃ result,
      Collects (growthPlan grant) p out.2.peekable result ∧
      Follows grant out.2.peekable.buffer ∧ Extends ⟨p, dst ++ p.peeked, true⟩ out.2 ∧
      out.1 = result.map fun outcome =>
        outcome.loopResult.map fun () => out.2.peekable.peeked.length := by
  have hfetched := PeekToString.loop_sat Future.readTail_lawful fuel p
  rw [loop_eq Future.readTail_lawful]
  apply ((PeekToString.loop_collects fuel hgrant hfuel).and_sat hfetched).map
  intro out hout
  obtain ⟨poll, p'⟩ := out
  obtain ⟨⟨result, hcollects, hgrant', hpoll⟩, d, hd⟩ := hout
  refine ⟨result, hcollects, hgrant', ⟨rfl, d, hd.peeked, ?_⟩, ?_⟩
  · simp only [hd.peeked, List.append_assoc]
  · rw [hpoll]
    cases result <;> rfl

namespace PeekToEnd

/-- What `PeekToEnd` returns, and leaves in the destination `dst`. -/
def Returns (dst : List UInt8) (outcome : Outcome) (result : Except IoError Nat)
    (f : PeekToEnd PollScript B) : Prop :=
  result = outcome.loopResult.map (fun () => f.peekable.peeked.length) ∧
    f.buf = dst ++ f.peekable.peeked

/-- A future that is new or has copied the peek buffer behind `dst`. -/
def Awaits (dst : List UInt8) (f : PeekToEnd PollScript B) : Prop :=
  f.buf = if f.prefixCopied then dst ++ f.peekable.peeked else dst

omit [LawfulBuffer B] in
theorem awaits_new (p : Peekable PollScript B) (dst : List UInt8) : (new p dst).Awaits dst := rfl

theorem pollWith_collects {fuel : Nat} {dst : List UInt8} (f : PeekToEnd PollScript B)
    (hf : f.Awaits dst ∧ Follows grant f.peekable.buffer)
    (hfuel : Script.weight f.peekable.events < fuel) :
    (pollWith Future.readTail fuel f).Ends
      (PollCollects (growthPlan grant) peekable (Returns dst)
        (fun f => f.Awaits dst ∧ Follows grant f.peekable.buffer) f) := by
  obtain ⟨hf, hgrant⟩ := hf
  rw [Mirrors.pollWith_eq hf]
  apply (loop_collects fuel dst hgrant hfuel).mono
  intro ⟨poll, f'⟩ ⟨result, hcollects, hgrant', ⟨hcopied, d, hpeeked, hbuf⟩, hpoll⟩
  have hdst : f'.buf = dst ++ f'.peekable.peeked := by
    rw [hbuf, hpeeked, List.append_assoc]
  refine ⟨result, hcollects, ?_⟩
  cases result with
  | pending =>
    obtain rfl : poll = .pending := hpoll
    exact .pending ⟨by rw [Awaits, hcopied, if_pos rfl, hdst], hgrant'⟩
  | ready outcome =>
    obtain rfl : poll = .ready (outcome.loopResult.map fun () => f'.peekable.peeked.length) := hpoll
    exact .ready ⟨rfl, hdst⟩

end PeekToEnd

/-! ## `PeekExact` -/

namespace PeekExact

/-- The destination `dst` has been overwritten with what has been peeked. -/
structure Tracks (dst : List UInt8) (f : PeekExact PollScript B) : Prop where
  filled_eq : f.filled = min f.peekable.peeked.length dst.length
  buf_eq : f.buf = overwrite dst (f.peekable.peeked.take dst.length)

omit [LawfulBuffer B] in
theorem Tracks.length_buf {dst : List UInt8} {f : PeekExact PollScript B} (h : f.Tracks dst) :
    f.buf.length = dst.length := by
  rw [h.buf_eq, length_overwrite (List.length_take_le _ _)]

theorem loop_collects (eofError : IoError) (dst : List UInt8) (fuel : Nat)
    {f : PeekExact PollScript B} (hf : f.Tracks dst) (hgrant : Follows grant f.peekable.buffer)
    (hfuel : Script.weight f.peekable.events < fuel) :
    (loop Future.readTail eofError fuel f).Ends fun out => ∃ result,
      Collects (exactPlan grant dst.length) f.peekable out.2.peekable result ∧
      Follows grant out.2.peekable.buffer ∧ out.2.Tracks dst ∧
      out.1 = result.map (Outcome.exact eofError) := by
  induction fuel generalizing f with
  | zero => omega
  | succ fuel ih =>
    have hlength := hf.length_buf
    have hfilled := hf.filled_eq
    have hmin : min f.peekable.peeked.length dst.length ≤ dst.length := Nat.min_le_right _ _
    simp only [loop, Peekable.len_buffer, hlength]
    by_cases hlt : f.filled < dst.length
    · have hpeeked : f.peekable.peeked.length < dst.length := by omega
      obtain hfilled : f.filled = f.peekable.peeked.length := by omega
      have htarget : f.peekable.peeked.length + (dst.length - f.filled) = dst.length := by omega
      have hbuf : f.buf = overwrite dst f.peekable.peeked := by
        rw [hf.buf_eq, List.take_of_length_le hpeeked.le]
      -- a state with nothing new in the peek buffer tracks the destination as `f` does
      have hsame {q : Peekable PollScript B} (hq : q.peeked = f.peekable.peeked) :
          ({ f with peekable := q } : PeekExact PollScript B).Tracks dst :=
        ⟨by rw [hf.filled_eq, hq], by rw [hf.buf_eq, hq]⟩
      simp only [if_pos hlt, htarget]
      rcases hres : resize f.peekable.buffer dst.length with ⟨e | _, buffer⟩
      · have hbuffer := LawfulBuffer.resize_error hres
        exact Exec.ends_ok.mpr ⟨.ready (.refused e),
          .refused (exactPlan_error (hgrant.at _) hpeeked hres) hbuffer,
          hgrant.reshapes (.of_resize hres), hsame hbuffer, rfl⟩
      · obtain ⟨room, hroom, hlen, hplan⟩ := exactPlan_ok (hgrant.at _) hpeeked hres
        obtain ⟨poll, p₁, hrun, hcase⟩ :=
          readTail_cases hroom hplan rfl (congrArg List.length hroom |>.trans List.length_append)
        have hfollows := hgrant.reshapes ((Reshapes.of_resize hres).trans (readTail_reshapes hrun))
        simp only [hrun, Exec.ok_bind]
        cases hcase with
        | eof hpeeked' hcollects =>
          exact Exec.ends_ok.mpr ⟨_, hcollects, hfollows.truncate _, hsame hpeeked', rfl⟩
        | @data d hpos hle hpeeked' hadv =>
          have hfit : f.peekable.peeked.length + d.length ≤ dst.length :=
            (Nat.add_le_add_left hle _).trans_eq hlen
          simp only [if_neg hpos, slice_of_append hpeeked', Exec.ok_bind, hfilled, hbuf, copyInto_overwrite hfit]
          have hw := hadv.weight_lt
          refine (ih ⟨?_, ?_⟩ (hfollows.truncate _) (Nat.lt_of_lt_of_le hw (by omega))).mono ?_
          · rw [hpeeked', List.length_append]
            exact (Nat.min_eq_left hfit).symm
          · rw [hpeeked', List.take_of_length_le (by rw [List.length_append]; exact hfit)]
          · intro out hout
            obtain ⟨result, h, hrest⟩ := hout
            exact ⟨result, h.after hadv, hrest⟩
        | interrupted he hpeeked' hadv =>
          simp only [if_pos he]
          have hw := hadv.weight_lt
          apply (ih (hsame hpeeked') (hfollows.truncate _) (Nat.lt_of_lt_of_le hw (by omega))).mono
          intro out hout
          obtain ⟨result, h, hrest⟩ := hout
          exact ⟨result, h.after hadv, hrest⟩
        | failed he hpeeked' hcollects =>
          simp only [if_neg he]
          exact Exec.ends_ok.mpr ⟨_, hcollects, hfollows.truncate _, hsame hpeeked', rfl⟩
        | pending hpeeked' hcollects =>
          exact Exec.ends_ok.mpr ⟨_, hcollects, hfollows.truncate _, hsame hpeeked', rfl⟩
    · simp only [if_neg hlt]
      have hplan : exactPlan grant dst.length f.peekable.peeked = none := if_neg (by omega)
      exact Exec.ends_ok.mpr ⟨.ready .done, collect_done hplan, hgrant, hf, rfl⟩

/-- A future that is new or tracks its destination. -/
def Awaits (dst : List UInt8) (f : PeekExact PollScript B) : Prop :=
  f.filled = 0 ∧ f.buf = dst ∨ f.Tracks dst

omit [LawfulBuffer B] in
theorem awaits_new (p : Peekable PollScript B) (dst : List UInt8) : (new p dst).Awaits dst :=
  .inl ⟨rfl, rfl⟩

omit [LawfulBuffer B] in
theorem Awaits.length_buf {dst : List UInt8} {f : PeekExact PollScript B} (h : f.Awaits dst) :
    f.buf.length = dst.length := by
  obtain ⟨-, rfl⟩ | h := h
  · rfl
  · exact h.length_buf

/-- What `PeekExact` returns, and leaves in the destination `dst`. -/
def Returns (eofError : IoError) (dst : List UInt8) (outcome : Outcome)
    (result : Except IoError Unit) (f : PeekExact PollScript B) : Prop :=
  result = outcome.exact eofError ∧ f.Tracks dst

omit [LawfulBuffer B] in
/-- The first poll runs the loop with the front of the peek buffer in place. -/
theorem pollWith_new {R : Type} (tail : TailRead R B) (eofError : IoError) {fuel : Nat}
    (hfuel : 0 < fuel) (p : Peekable R B) (buf : List UInt8) :
    pollWith tail eofError fuel (new p buf) =
      loop tail eofError fuel
        ⟨p, overwrite buf (p.peeked.take buf.length), min p.peeked.length buf.length⟩ := by
  have hsrc : (p.peeked.take (min p.peeked.length buf.length)).length =
      min p.peeked.length buf.length := by simp
  have hcopy : copyInto buf 0 (min p.peeked.length buf.length)
      (p.peeked.take (min p.peeked.length buf.length)) =
        .ok (overwrite buf (p.peeked.take buf.length)) := by
    have htake : p.peeked.take (min p.peeked.length buf.length) = p.peeked.take buf.length := by
      rw [List.take_eq_take_iff]
      omega
    rw [copyInto_front buf hsrc (Nat.min_le_right _ _), ← htake, overwrite, hsrc]
  simp only [pollWith, new, if_true, slice_front p.peeked (Nat.min_le_left _ _), Exec.ok_bind, hcopy]
  by_cases hall : min p.peeked.length buf.length = buf.length
  · obtain ⟨fuel, rfl⟩ := Nat.exists_eq_succ_of_ne_zero hfuel.ne'
    have hlength := length_overwrite (List.length_take_le buf.length p.peeked)
    simp only [loop, hlength, hall, Nat.lt_irrefl, if_true, if_false]
  · exact if_neg hall

omit [LawfulBuffer B] in
/-- Every poll is a run of the loop, with the front of the peek buffer in place. -/
theorem Awaits.pollWith_eq {dst : List UInt8} {f : PeekExact PollScript B} (hf : f.Awaits dst)
    (eofError : IoError) {fuel : Nat} (hfuel : 0 < fuel) :
    ∃ f', pollWith Future.readTail eofError fuel f = loop Future.readTail eofError fuel f' ∧
      f'.peekable = f.peekable ∧ f'.Tracks dst := by
  obtain ⟨p, buf, filled⟩ := f
  by_cases hfilled : filled = 0
  · subst hfilled
    obtain rfl : buf = dst := by
      obtain ⟨-, h⟩ | h := hf
      · exact h
      · obtain ⟨hmin, hbuf⟩ := h
        have hnil : p.peeked.take dst.length = [] := by
          apply List.eq_nil_of_length_eq_zero
          rw [List.length_take, Nat.min_comm]
          exact hmin.symm
        rw [show buf = overwrite dst _ from hbuf, hnil, overwrite_nil]
    exact ⟨_, pollWith_new Future.readTail eofError hfuel p buf, rfl, rfl, rfl⟩
  · refine ⟨_, if_neg hfilled, rfl, ?_⟩
    obtain ⟨h, -⟩ | h := hf
    · exact absurd h hfilled
    · exact h

theorem pollWith_collects (eofError : IoError) {fuel : Nat} {dst : List UInt8}
    (f : PeekExact PollScript B) (hf : f.Awaits dst ∧ Follows grant f.peekable.buffer)
    (hfuel : Script.weight f.peekable.events < fuel) :
    (pollWith Future.readTail eofError fuel f).Ends
      (PollCollects (exactPlan grant dst.length) peekable (Returns eofError dst)
        (fun f => f.Awaits dst ∧ Follows grant f.peekable.buffer) f) := by
  obtain ⟨hf, hgrant⟩ := hf
  obtain ⟨f', hrun, hpeekable, htracks⟩ := hf.pollWith_eq eofError (Nat.zero_lt_of_lt hfuel)
  rw [hrun]
  apply (loop_collects eofError dst fuel htracks (by rwa [hpeekable]) (by rwa [hpeekable])).mono
  intro ⟨poll, f''⟩ ⟨result, hcollects, hgrant', htracks', hpoll⟩
  refine ⟨result, hpeekable ▸ hcollects, ?_⟩
  cases result with
  | pending =>
    obtain rfl : poll = .pending := hpoll
    exact .pending ⟨.inr htracks', hgrant'⟩
  | ready outcome =>
    obtain rfl : poll = .ready (outcome.exact eofError) := hpoll
    exact .ready ⟨rfl, htracks'⟩

end PeekExact

end PeekableReader
