import PeekableReader.Future.Spec
import PeekableReader.Script.Ending
import PeekableReader.Script.Whole

/-!
# Futures that are dropped

A future that is dropped at a pending poll leaves the peekable reader behind, and whatever
its fields held is lost. Here is what a new future for the same operation makes of that.
`PeekExact` and `PeekToEnd` find all they had copied in the peek buffer, and repeat the
copy. `PeekToString` validates a longer prefix before it reads on, and on a reader that
comes to its end of file only reports early what it would have reported in the end.

No buffer is assumed to be deterministic, so two runs are compared poll by poll.
-/

namespace PeekableReader

open Buffer PollScript

variable {B : Type} [Buffer B]

/-- A poll that goes on from `q` waits no longer than one that has yet to get there. -/
theorem PollEnds.after {α σ : Type} {view : σ → Peekable PollScript B} {plan : Plan}
    {p q : Peekable PollScript B} {out : Poll α × σ}
    (h : PollEnds (fun _ => True) (fun g => Waited q (view g)) out) (hpq : Advances plan p q) :
    PollEnds (fun _ => True) (fun g => Waited p (view g)) out :=
  h.imp (fun _ _ _ => trivial) fun _ hg => hg.after hpq

omit [Buffer B] in
/-- Having waited, a future has one pending poll less before it, and no more to read. -/
theorem PollEnds.bounded {α σ : Type} {view : σ → Peekable PollScript B} {Done : α × σ → Prop}
    {Live : σ → Prop} {s : σ} {out : Poll α × σ} {fuel : Nat}
    (h : PollEnds Done (fun t => Live t ∧ Waited (view s) (view t)) out)
    (hfuel : Script.weight (view s).events < fuel) :
    PollEnds Done (fun t => (Live t ∧ Script.weight (view t).events < fuel) ∧
      (view t).pendings < (view s).pendings) out :=
  h.imp (fun _ _ => id) fun _ ⟨hlive, hwait⟩ =>
    ⟨⟨hlive, hwait.weight_le.trans_lt hfuel⟩, hwait.pendings_lt⟩

/-! ## `PeekExact` -/

namespace PeekExact

section Alike

variable {R : Type}

/-- The futures differ in the bytes of their destinations only. -/
structure Alike (f g : PeekExact R B) : Prop where
  peekable : f.peekable = g.peekable
  filled : f.filled = g.filled
  length : f.buf.length = g.buf.length

omit [Buffer B] in
theorem copyInto_alike {buf buf' : List UInt8} (h : buf.length = buf'.length) (lo hi : Nat)
    (src : List UInt8) :
    Exec.Rel (fun out out' => out.length = out'.length) (copyInto buf lo hi src)
      (copyInto buf' lo hi src) := by
  unfold copyInto slice copyFromSlice
  rw [← h]
  have hsame : ((buf'.take hi).drop lo).length = ((buf.take hi).drop lo).length := by simp [h]
  by_cases hrange : lo ≤ hi ∧ hi ≤ buf.length
  · simp only [if_pos hrange, Exec.ok_bind, hsame]
    by_cases hlen : ((buf.take hi).drop lo).length = src.length
    · simp only [if_pos hlen, Exec.ok_bind]
      simp [h]
    · simp only [if_neg hlen, Exec.panic_bind]
      rfl
  · simp only [if_neg hrange, Exec.panic_bind]
    rfl

/-- The loop does not look at the destination. -/
theorem loop_alike (tail : TailRead R B) (eofError : IoError) (fuel : Nat) {f g : PeekExact R B}
    (h : Alike f g) :
    Exec.Rel (fun out out' => out.1 = out'.1 ∧ Alike out.2 out'.2) (loop tail eofError fuel f)
      (loop tail eofError fuel g) := by
  induction fuel generalizing f g with
  | zero => trivial
  | succ fuel ih =>
    obtain ⟨p, buf, filled⟩ := f
    obtain ⟨q, buf', filled'⟩ := g
    obtain ⟨hpeekable, hfilled, hlength⟩ := h
    change p = q at hpeekable
    change filled = filled' at hfilled
    change buf.length = buf'.length at hlength
    subst hpeekable hfilled
    simp only [loop, ← hlength]
    by_cases hlt : filled < buf.length
    · simp only [if_pos hlt]
      rcases resize p.buffer (len p.buffer + (buf.length - filled)) with ⟨e | _, buffer⟩
      · exact ⟨rfl, rfl, rfl, hlength⟩
      · apply (Exec.Rel.refl (R := Eq) (fun _ => rfl) _).bind
        intro out _ heq
        subst heq
        obtain ⟨poll, p₁⟩ := out
        cases poll using Poll.casesResult with
        | pending => exact ⟨rfl, rfl, rfl, hlength⟩
        | error e =>
          by_cases he : e.kind = .interrupted
          · simp only [if_pos he]
            exact ih ⟨rfl, rfl, hlength⟩
          · simp only [if_neg he]
            exact ⟨rfl, rfl, rfl, hlength⟩
        | ok n =>
          by_cases hn : n = 0
          · simp only [if_pos hn]
            exact ⟨rfl, rfl, rfl, hlength⟩
          · simp only [if_neg hn]
            apply (Exec.Rel.refl (R := Eq) (fun _ => rfl) _).bind
            intro src _ heq
            subst heq
            apply (copyInto_alike hlength _ _ src).bind
            intro out out' hout
            exact ih ⟨rfl, rfl, hout⟩
    · simp only [if_neg hlt]
      exact ⟨rfl, rfl, rfl, hlength⟩

end Alike

section Step

variable {R : Type}

/-- A poll runs the loop, with the front of the peek buffer in place. -/
theorem Resumable.pollWith_eq {f : PeekExact R B} (hf : f.Resumable) (tail : TailRead R B)
    (eofError : IoError) {fuel : Nat} (hfuel : 0 < fuel) :
    ∃ f', pollWith tail eofError fuel f = loop tail eofError fuel f' ∧ f'.peekable = f.peekable ∧
      f'.filled = min f.peekable.peeked.length f.buf.length ∧ f'.buf.length = f.buf.length := by
  obtain ⟨p, buf, filled⟩ := f
  obtain ⟨⟨hle, -, -⟩, hfilled⟩ := hf
  by_cases h0 : filled = 0
  · subst h0
    exact ⟨_, pollWith_new tail eofError hfuel p buf, rfl, rfl,
      length_overwrite (List.length_take_le buf.length p.peeked)⟩
  · have hlen : filled = p.peeked.length := hfilled.resolve_left h0
    exact ⟨_, if_neg h0, rfl, hlen ▸ (Nat.min_eq_left hle).symm, rfl⟩

/-- Futures for the same number of bytes, on the same peekable reader. -/
structure Twins (n : Nat) (f g : PeekExact R B) : Prop where
  peekable : f.peekable = g.peekable
  length_left : f.buf.length = n
  length_right : g.buf.length = n
  resumable_left : f.Resumable
  resumable_right : g.Resumable

/-- Both have ended in the same way, and on success with the same bytes. -/
def SameEnd {α : Type} (out out' : Except IoError α × PeekExact R B) : Prop :=
  out.1 = out'.1 ∧ out.2.peekable = out'.2.peekable ∧ ∀ a, out.1 = .ok a → out.2.buf = out'.2.buf

theorem twins_new (p : Peekable R B) {buf buf' : List UInt8} (h : buf.length = buf'.length) :
    Twins buf'.length (new p buf) (new p buf') :=
  ⟨rfl, h, rfl, resumable_new p buf, resumable_new p buf'⟩

/-- The future for another slice that takes the place of `f`. -/
def restart (buf : List UInt8) (f : PeekExact R B) : PeekExact R B := new f.peekable buf

theorem Twins.restart {n : Nat} {f g : PeekExact R B} (h : Twins n f g) {buf : List UInt8}
    (hbuf : buf.length = n) : Twins n (f.restart buf) g :=
  ⟨h.peekable, hbuf, h.length_right, resumable_new _ _, h.resumable_right⟩

variable [Ledger R UInt8] [LawfulBuffer B] {tail : TailRead R B}

theorem pollWith_twins (htail : LawfulTail tail) (eofError : IoError) {fuel : Nat}
    (hfuel : 0 < fuel) {n : Nat} {f g : PeekExact R B} (h : Twins n f g) :
    Exec.Rel (PollRel SameEnd (Twins n)) (pollWith tail eofError fuel f)
      (pollWith tail eofError fuel g) := by
  have hleft := pollWith_sat htail eofError fuel f h.resumable_left
  have hright := pollWith_sat htail eofError fuel g h.resumable_right
  obtain ⟨f', hf, hfpeekable, hffilled, hflength⟩ :=
    h.resumable_left.pollWith_eq tail eofError hfuel
  obtain ⟨g', hg, hgpeekable, hgfilled, hglength⟩ :=
    h.resumable_right.pollWith_eq tail eofError hfuel
  have halike : Alike f' g' := by
    refine ⟨?_, ?_, ?_⟩
    · rw [hfpeekable, hgpeekable, h.peekable]
    · rw [hffilled, hgfilled, h.peekable, h.length_left, h.length_right]
    · rw [hflength, hglength, h.length_left, h.length_right]
  have hloop := loop_alike tail eofError fuel halike
  rw [← hf, ← hg] at hloop
  apply (hloop.and_sat hleft hright).mono
  intro ⟨poll, f₁⟩ ⟨poll', g₁⟩ ⟨⟨hpoll, hsame⟩, hpolled, hpolled'⟩
  obtain rfl : poll = poll' := hpoll
  have hlen : f₁.buf.length = n := hpolled.peeks.length.trans h.length_left
  have hlen' : g₁.buf.length = n := hpolled'.peeks.length.trans h.length_right
  cases poll with
  | pending =>
    exact ⟨hsame.peekable, hlen, hlen', hpolled.resumable rfl, hpolled'.resumable rfl⟩
  | ready result =>
    refine ⟨rfl, hsame.peekable, ?_⟩
    intro a ha
    obtain rfl : result = .ok a := ha
    rw [(hpolled.peeks.exact rfl).2, (hpolled'.peeks.exact rfl).2, hsame.peekable, h.length_left,
      h.length_right]

end Step

section Script

variable [LawfulBuffer B]

/-- A poll on a script ends, and has used up a pending event if it is pending. -/
theorem loop_ends (eofError : IoError) (fuel : Nat) {f : PeekExact PollScript B}
    (hfuel : Script.weight f.peekable.events < fuel) :
    (loop Future.readTail eofError fuel f).Ends
      (PollEnds (fun _ => True) fun g => Waited f.peekable g.peekable) := by
  induction fuel generalizing f with
  | zero => omega
  | succ fuel ih =>
    simp only [loop, Peekable.len_buffer]
    by_cases hlt : f.filled < f.buf.length
    · simp only [if_pos hlt]
      rcases hres : resize f.peekable.buffer
        (f.peekable.peeked.length + (f.buf.length - f.filled)) with ⟨e | _, buffer⟩
      · exact Exec.ends_ok.mpr trivial
      · obtain ⟨room, hroom, hlen⟩ := resize_grow hres (Nat.le_add_right _ _)
        rw [show (asSlice f.peekable.buffer).length = f.peekable.peeked.length from rfl,
          Nat.add_sub_cancel_left] at hlen
        obtain ⟨poll, p₁, hrun, hcase⟩ :=
          readTail_answers hroom rfl (congrArg List.length hroom |>.trans List.length_append)
        simp only [hrun, Exec.ok_bind]
        cases hcase with
        | eof hpeeked hcollects => exact Exec.ends_ok.mpr trivial
        | @data d hpos hle hpeeked hadv =>
          have hcopy : copyInto f.buf f.filled (f.filled + d.length) d = .ok _ :=
            copyInto_eq f.buf rfl (by omega)
          simp only [if_neg hpos, slice_of_append hpeeked, Exec.ok_bind, hcopy]
          have hw := hadv.weight_lt
          exact (ih (Nat.lt_of_lt_of_le hw (Nat.le_of_lt_succ hfuel))).mono fun _ h => h.after hadv
        | interrupted he hpeeked hadv =>
          simp only [if_pos he]
          have hw := hadv.weight_lt
          exact (ih (Nat.lt_of_lt_of_le hw (Nat.le_of_lt_succ hfuel))).mono fun _ h => h.after hadv
        | failed he hpeeked hcollects =>
          simp only [if_neg he]
          exact Exec.ends_ok.mpr trivial
        | pending hpeeked hcollects => exact Exec.ends_ok.mpr hcollects.waited
    · simp only [if_neg hlt]
      exact Exec.ends_ok.mpr trivial

theorem pollWith_ends (eofError : IoError) {fuel : Nat} {f : PeekExact PollScript B}
    (hf : f.Resumable) (hfuel : Script.weight f.peekable.events < fuel) :
    (pollWith Future.readTail eofError fuel f).Ends
      (PollEnds (fun _ => True) fun g => g.Resumable ∧ Waited f.peekable g.peekable) := by
  obtain ⟨f', hrun, hpeekable, -⟩ :=
    hf.pollWith_eq Future.readTail eofError (Nat.zero_lt_of_lt hfuel)
  have hsat := pollWith_sat Future.readTail_lawful eofError fuel f hf
  rw [hrun] at hsat ⊢
  apply ((loop_ends eofError fuel (by rwa [hpeekable])).and_sat hsat).mono
  intro ⟨poll, g⟩ ⟨hends, hpolled⟩
  cases poll with
  | ready result => trivial
  | pending => exact ⟨hpolled.resumable rfl, hpeekable ▸ hends⟩

end Script

end PeekExact

/-! ## `PeekToEnd` -/

namespace PeekToEnd

/-- The future for another destination that takes the place of `f`. -/
def restart {R : Type} (dst : List UInt8) (f : PeekToEnd R B) : PeekToEnd R B := new f.peekable dst

/-- Futures that extend the same destination, on the same peekable reader. -/
structure Twins {R : Type} (dst : List UInt8) (f g : PeekToEnd R B) : Prop where
  peekable : f.peekable = g.peekable
  mirrors_left : Mirrors dst f
  mirrors_right : Mirrors dst g

variable [LawfulBuffer B]

theorem pollWith_twins {R : Type} [Ledger R UInt8] {tail : TailRead R B} (htail : LawfulTail tail)
    (fuel : Nat) {dst : List UInt8} {f g : PeekToEnd R B} (h : Twins dst f g) :
    Exec.Rel (PollRel Eq (Twins dst)) (pollWith tail fuel f) (pollWith tail fuel g) := by
  have hsame : pollWith tail fuel f = pollWith tail fuel g := by
    rw [h.mirrors_left.pollWith_eq, h.mirrors_right.pollWith_eq, h.peekable]
  rw [hsame]
  apply Exec.Rel.of_sat (pollWith_sat htail fuel dst g h.mirrors_right)
  intro ⟨poll, g'⟩ hpolled
  cases poll with
  | ready result => rfl
  | pending => exact ⟨rfl, hpolled.mirrors, hpolled.mirrors⟩

/-- A poll on a script ends, and has used up a pending event if it is pending. -/
theorem pollWith_ends {fuel : Nat} {dst : List UInt8} {f : PeekToEnd PollScript B}
    (hf : Mirrors dst f) (hfuel : Script.weight f.peekable.events < fuel) :
    (pollWith Future.readTail fuel f).Ends
      (PollEnds (fun _ => True) fun g => Mirrors dst g ∧ Waited f.peekable g.peekable) := by
  rw [hf.pollWith_eq, loop_eq Future.readTail_lawful]
  apply (PeekToString.loop_stops fuel hfuel).map
  intro ⟨poll, q⟩ hends
  cases poll with
  | ready loopResult => trivial
  | pending =>
    obtain ⟨hwaited, -⟩ := hends
    exact ⟨rfl, hwaited⟩

end PeekToEnd

/-! ## `PeekToString` -/

/-- As long as it is only peeked into, keeps its bytes and holds a beginning of `total`, the
buffer can be made to hold more. -/
def Grows (b : B) (total : List UInt8) : Prop :=
  ∀ b', Reshapes b b' → asSlice b <+: asSlice b' → asSlice b' <+: total →
    ∃ n b'', growPeekBuffer b' = (.ok n, b'')

theorem Grows.reshapes {b b' : B} {total : List UInt8} (h : Grows b total) (hb : Reshapes b b')
    (hpre : asSlice b <+: asSlice b') : Grows b' total :=
  fun b'' hb' hpre' => h b'' (hb.trans hb') (hpre.trans hpre')

theorem earlyReject_eq_some {bytes : List UInt8} {e : Utf8Error} :
    earlyReject bytes = some e ↔ fromUtf8 bytes = .error e ∧ e.errorLen.isSome := by
  unfold earlyReject
  cases fromUtf8 bytes with
  | ok s => simp
  | error e' =>
    by_cases hlen : e'.errorLen.isSome
    · simp only [if_pos hlen, Option.some.injEq, Except.error.injEq]
      constructor
      · rintro rfl
        exact ⟨rfl, hlen⟩
      · intro h
        exact h.1
    · simp only [if_neg hlen, reduceCtorEq, Except.error.injEq, false_iff]
      rintro ⟨rfl, hlen'⟩
      exact hlen hlen'

/-- What is refused early is refused with anything behind it. -/
theorem earlyReject_append {bytes : List UInt8} {e : Utf8Error} (h : earlyReject bytes = some e)
    (rest : List UInt8) : earlyReject (bytes ++ rest) = some e := by
  obtain ⟨he, hlen⟩ := earlyReject_eq_some.mp h
  exact earlyReject_eq_some.mpr ⟨fromUtf8_append_of_errorLen he hlen rest, hlen⟩

/-- What is refused early is refused in the end, with the same error. -/
theorem finishString_of_earlyReject {bytes : List UInt8} {e : Utf8Error}
    (h : earlyReject bytes = some e) (dst : Str) :
    finishString (.ok ()) bytes dst = .ok (.error (invalidUtf8IoError e), dst) := by
  simp [finishString, (earlyReject_eq_some.mp h).1]

namespace PeekToString

/-- The future for another destination that takes the place of `f`. -/
def restart {R : Type} (dst : Str) (f : PeekToString R B) : PeekToString R B := new f.peekable dst

/-- What has been peeked and what is still to come make up `total`. -/
structure Draining (total : List UInt8) (p : Peekable PollScript B) : Prop where
  ends : EndsInEof p.events
  total_eq : p.peeked ++ toEof p.events = total

/-- From `p` to `q` the reader was pending, on the way to the same end of file. -/
structure Drains (total : List UInt8) (p q : Peekable PollScript B) : Prop where
  waited : Waited p q
  draining : Draining total q
  reshapes : Reshapes p.buffer q.buffer
  isPrefix : p.peeked <+: q.peeked

variable [LawfulBuffer B] {total : List UInt8}

/-- Only a buffer that is refused growth keeps the loop from the end of file. -/
theorem loop_drains (fuel : Nat) {p : Peekable PollScript B} (hp : Draining total p)
    (hfuel : Script.weight p.events < fuel) :
    (loop Future.readTail fuel p).Ends
      (PollEnds (fun out => Grows p.buffer total → out.1 = .ok () ∧ out.2.peeked = total)
        (Drains total p)) := by
  apply (loop_stops fuel hfuel).mono
  intro out h
  refine h.imp ?_ ?_
  · intro stop q hstops hgrows
    cases hstops with
    | @ended d hbytes hending _ =>
      have hstop : stop = .ok () := by
        have hok := endsInEof_iff.mp hp.ends
        rwa [hending] at hok
      refine ⟨hstop, hbytes.trans ?_⟩
      rw [← hp.total_eq, toEof_eq hp.ends, hending]
      rfl
    | @refused d e b₁ b₂ _ hbytes hending hb hb₁ hgrow _ =>
      have htotal := (endsInEof_of_after hending hp.ends).2
      have hpre : asSlice b₁ <+: total := by
        refine ⟨toEof q.events, ?_⟩
        rw [hb₁, hbytes, List.append_assoc, ← htotal]
        exact hp.total_eq
      have hkept : p.peeked <+: asSlice b₁ := ⟨d, (hb₁.trans hbytes).symm⟩
      obtain ⟨n, b', hgrown⟩ := hgrows b₁ hb hkept hpre
      cases hgrow.symm.trans hgrown
  · intro q ⟨hwaited, d, hq⟩
    obtain ⟨hends, htotal⟩ := endsInEof_of_after hq.ending_eq hp.ends
    refine ⟨hwaited, ⟨hends, ?_⟩, hq.reshapes, ⟨d, hq.peeked.symm⟩⟩
    rw [hq.peeked, List.append_assoc, ← htotal, hp.total_eq]

/-- A poll behind the check of the prefix, with the destination untouched until it is ready. -/
theorem resume_drains {fuel : Nat} {dst : Str} {f : PeekToString PollScript B} (hbuf : f.buf = dst)
    (hf : Draining total f.peekable) (hfuel : Script.weight f.peekable.events < fuel) :
    (resume Future.readTail fuel f).Ends
      (PollEnds
        (fun out => Grows f.peekable.buffer total →
          finishString (.ok ()) total dst = .ok (out.1, out.2.buf))
        fun g => g.buf = dst ∧ Drains total f.peekable g.peekable) := by
  apply (loop_drains fuel hf hfuel).bind
  intro ⟨poll, p⟩ hends
  cases poll with
  | pending => exact Exec.ends_ok.mpr ⟨hbuf, hends⟩
  | ready loopResult =>
    obtain ⟨⟨result, buf⟩, hfinish, -⟩ := finishString_ends loopResult p.peeked f.buf
    simp only [hfinish, Exec.ok_bind]
    refine Exec.ends_ok.mpr ?_
    intro hgrows
    obtain ⟨rfl, htotal⟩ : loopResult = .ok () ∧ p.peeked = total := hends hgrows
    rwa [htotal, hbuf] at hfinish

/-- A prefix is not refused, or with the error that ends the whole text. -/
theorem pollWith_drains {fuel : Nat} {dst : Str} {f : PeekToString PollScript B} (hbuf : f.buf = dst)
    (hf : Draining total f.peekable) (hfuel : Script.weight f.peekable.events < fuel) :
    (pollWith Future.readTail fuel f).Ends
      (PollEnds
        (fun out => Grows f.peekable.buffer total →
          finishString (.ok ()) total dst = .ok (out.1, out.2.buf))
        fun g => g.buf = dst ∧ Drains total f.peekable g.peekable) := by
  unfold pollWith
  by_cases hstarted : f.started = true
  · rw [if_pos hstarted]
    exact resume_drains hbuf hf hfuel
  · rw [if_neg hstarted]
    cases hearly : earlyReject f.peekable.peeked with
    | none => exact resume_drains (f := { f with started := true }) hbuf hf hfuel
    | some e =>
      have hfinish := finishString_of_earlyReject
        (earlyReject_append hearly (toEof f.peekable.events)) dst
      rw [hf.total_eq, ← hbuf] at hfinish
      exact Exec.ends_ok.mpr fun _ => hbuf ▸ hfinish

/-- A future on a reader that comes to its end of file, with its destination untouched and a
buffer that grows. -/
structure Undisturbed (dst : Str) (total : List UInt8) (f : PeekToString PollScript B) : Prop where
  buf_eq : f.buf = dst
  draining : Draining total f.peekable
  grows : Grows f.peekable.buffer total

theorem Undisturbed.pollWith_ends {fuel : Nat} {dst : Str} {f : PeekToString PollScript B}
    (h : Undisturbed dst total f) (hfuel : Script.weight f.peekable.events < fuel) :
    (pollWith Future.readTail fuel f).Ends
      (PollEnds (fun out => finishString (.ok ()) total dst = .ok (out.1, out.2.buf)) fun g =>
        Undisturbed dst total g ∧ Waited f.peekable g.peekable) := by
  apply (pollWith_drains h.buf_eq h.draining hfuel).mono
  intro out hout
  exact hout.imp (fun _ _ hdone => hdone h.grows) fun g ⟨hbuf, hq⟩ =>
    ⟨⟨hbuf, hq.draining, h.grows.reshapes hq.reshapes hq.isPrefix⟩, hq.waited⟩

/-! ### Two futures that go on alike -/

/-- Futures with the same destination, on the same peekable reader. Unless they are one and
the same, the check of the prefix makes no difference between them. -/
structure Twins (dst : Str) (total : List UInt8) (f g : PeekToString PollScript B) : Prop where
  peekable : f.peekable = g.peekable
  buf_left : f.buf = dst
  buf_right : g.buf = dst
  draining : Draining total g.peekable
  same : f = g ∨ earlyReject g.peekable.peeked = none

omit [LawfulBuffer B] in
/-- Whether or not the prefix has been validated, the poll goes on behind the check. -/
theorem pollWith_eq_resume (tail : TailRead PollScript B) (fuel : Nat) {f : PeekToString PollScript B}
    (h : earlyReject f.peekable.peeked = none) :
    pollWith tail fuel f = resume tail fuel ⟨f.peekable, f.buf, true⟩ := by
  obtain ⟨p, buf, started⟩ := f
  cases started with
  | true => rfl
  | false =>
    change earlyReject p.peeked = none at h
    simp [pollWith, h]

omit [LawfulBuffer B] in
theorem Twins.pollWith_eq {dst : Str} {f g : PeekToString PollScript B} (h : Twins dst total f g)
    (tail : TailRead PollScript B) (fuel : Nat) : pollWith tail fuel f = pollWith tail fuel g := by
  rcases h.same with rfl | hearly
  · rfl
  · rw [pollWith_eq_resume _ _ hearly, pollWith_eq_resume _ _ (h.peekable ▸ hearly), h.peekable,
      h.buf_left, h.buf_right]

/-- The same result and destination. -/
def SameText (out out' : Except IoError Nat × PeekToString PollScript B) : Prop :=
  out.1 = out'.1 ∧ out.2.buf = out'.2.buf

/-- Both polls end, together; what is left behind pending is one future. -/
theorem Twins.pollWith_twins {fuel : Nat} {dst : Str} {f g : PeekToString PollScript B}
    (h : Twins dst total f g) (hfuel : Script.weight g.peekable.events < fuel) :
    ∃ out out', pollWith Future.readTail fuel f = .ok out ∧
      pollWith Future.readTail fuel g = .ok out' ∧
      PollRel SameText (fun f' g' => Twins dst total f' g' ∧ Waited g.peekable g'.peekable)
        out out' := by
  obtain ⟨⟨poll, g'⟩, hrun, hends⟩ := pollWith_drains h.buf_right h.draining hfuel
  refine ⟨_, _, (h.pollWith_eq _ _).trans hrun, hrun, ?_⟩
  cases poll with
  | ready result => exact ⟨rfl, rfl⟩
  | pending =>
    obtain ⟨hbuf, hq⟩ := hends
    exact ⟨⟨rfl, hbuf, hbuf, hq.draining, .inl rfl⟩, hq.waited⟩

end PeekToString

end PeekableReader
