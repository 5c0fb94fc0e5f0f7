import PeekableReader.Script.Retry
import PeekableReader.Script.Sync

/-!
# `peek_to_end` and `peek_to_string` in three flavours

However one of the two is run on a script, synchronously or as a future of either flavour,
it ends as `Stops` says. `Whole.Always` is what holds of every such run, given enough fuel
and polls.
-/

namespace PeekableReader

open Buffer

variable {B : Type} [Buffer B]

/-- A peekable reader of a script without its pending polls. -/
def Peekable.strip (p : Peekable PollScript B) : Peekable Script B :=
  ⟨⟨p.events⟩, p.buffer, p.bufCap⟩

@[simp] theorem Peekable.peeked_strip (p : Peekable PollScript B) : p.strip.peeked = p.peeked := rfl

omit [Buffer B] in
@[simp] theorem Peekable.events_strip (p : Peekable PollScript B) :
    p.strip.reader.events = p.events := rfl

/-- The reader has reported its end of file, and everything before it has been peeked. -/
def Final.AtEof (p : Peekable PollScript B) (final : Final) : Prop :=
  ∃ d, ending p.events = ⟨d, .ok (), final.events⟩ ∧ final.peeked = p.peeked ++ d

/-- Without an error, it was the end of file that stopped the loop. -/
theorem Stops.atEof {p : Peekable PollScript B} {final : Final}
    (h : Stops p.buffer p.events (.ok ()) final.peeked final.events) : final.AtEof p := by
  cases h with
  | ended hbytes hending _ => exact ⟨_, hending, hbytes⟩
  | refused hstop => cases hstop

namespace Whole

/-- Run in whatever flavour, the operation ends, and `Q` holds of how it does. -/
structure Always (op : Whole) (p : Peekable PollScript B) (Q : Final → Prop) : Prop where
  sync {fuel : Nat} (hfuel : Script.weight p.events < fuel) : (op.sync fuel p.strip).Ends Q
  drive (flavour : AsyncFlavour) {polls fuel : Nat} (hfuel : Script.weight p.events < fuel)
    (hpolls : p.pendings < polls) : (op.drive flavour polls fuel p).Ends Q

theorem Always.mono {op : Whole} {p : Peekable PollScript B} {P Q : Final → Prop}
    (h : op.Always p P) (hPQ : ∀ final, P final → Q final) : op.Always p Q where
  sync hfuel := (h.sync hfuel).mono hPQ
  drive flavour _ _ hfuel hpolls := (h.drive flavour hfuel hpolls).mono hPQ

/-- The `future` flavour of an operation ends like this on every script with these events. -/
def FutureEnds (op : Whole) (p : Peekable PollScript B) (Q : Final → Prop) : Prop :=
  ∀ q : Peekable PollScript B, q.buffer = p.buffer → q.events = p.events → ∀ polls fuel,
    Script.weight q.events < fuel → q.pendings < polls → (op.future polls fuel q).Ends Q

/-- The loops of the other flavours are those of the `future` flavour. -/
theorem always_toEnd {dst : List UInt8} {p : Peekable PollScript B} {Q : Final → Prop}
    (h : (toEnd dst).FutureEnds p Q) : (toEnd dst).Always p Q where
  sync {fuel} hfuel := by
    rw [← future_lift_toEnd]
    exact h p.strip.lift rfl (by simp) 1 fuel (by simpa using hfuel) (by simp)
  drive flavour {polls fuel} hfuel hpolls := by
    cases flavour with
    | future => exact h p rfl rfl polls fuel hfuel hpolls
    | tokio =>
      have hfuture := h p rfl rfl polls fuel hfuel hpolls
      rwa [future, ← tokio_peekToEnd_poll] at hfuture

theorem always_toString {dst : Str} {p : Peekable PollScript B} {Q : Final → Prop}
    (h : (toString dst).FutureEnds p Q) : (toString dst).Always p Q where
  sync {fuel} hfuel := by
    rw [← future_lift_toString]
    exact h p.strip.lift rfl (by simp) 1 fuel (by simpa using hfuel) (by simp)
  drive flavour {polls fuel} hfuel hpolls := by
    cases flavour with
    | future => exact h p rfl rfl polls fuel hfuel hpolls
    | tokio =>
      have hfuture := h p rfl rfl polls fuel hfuel hpolls
      rwa [future, ← tokio_peekToString_poll] at hfuture

end Whole

namespace AsyncFlavour

/-- The poll of `PeekToEnd` of a flavour. -/
def peekToEnd (flavour : AsyncFlavour) (fuel : Nat) :
    PeekToEnd PollScript B → Exec (Poll (Except IoError Nat) × PeekToEnd PollScript B) :=
  match flavour with
  | .future => Future.PeekToEnd.poll fuel
  | .tokio => Tokio.PeekToEnd.poll fuel

/-- The poll of `PeekToString` of a flavour. -/
def peekToString (flavour : AsyncFlavour) (fuel : Nat) :
    PeekToString PollScript B → Exec (Poll (Except IoError Nat) × PeekToString PollScript B) :=
  match flavour with
  | .future => Future.PeekToString.poll fuel
  | .tokio => Tokio.PeekToString.poll fuel

theorem peekToEnd_eq (flavour : AsyncFlavour) (fuel : Nat) (f : PeekToEnd PollScript B) :
    flavour.peekToEnd fuel f = f.pollWith Future.readTail fuel := by
  cases flavour with
  | future => rfl
  | tokio => exact congrFun (Whole.tokio_peekToEnd_poll fuel) f

theorem peekToString_eq (flavour : AsyncFlavour) (fuel : Nat) (f : PeekToString PollScript B) :
    flavour.peekToString fuel f = f.pollWith Future.readTail fuel := by
  cases flavour with
  | future => rfl
  | tokio => exact congrFun (Whole.tokio_peekToString_poll fuel) f

end AsyncFlavour

/-! ## Runs of the futures -/

variable [LawfulBuffer B]

namespace PeekToString

/-- A future that has validated the prefix of `p` and has read on since. -/
structure Reading (p : Peekable PollScript B) (dst : Str) (fuel : Nat)
    (f : PeekToString PollScript B) : Prop where
  started : f.started = true
  buf_eq : f.buf = dst
  gathers : ∃ d, Gathers p d f.peekable
  weight_lt : Script.weight f.peekable.events < fuel

/-- The result and the destination follow from how the loop stops. -/
def Returned (p : Peekable PollScript B) (dst : Str)
    (out : Except IoError Nat × PeekToString PollScript B) : Prop :=
  ∃ stop, Stops p.buffer p.events stop out.2.peekable.peeked out.2.peekable.events ∧
    finishString stop out.2.peekable.peeked dst = .ok (out.1, out.2.buf)

theorem pollWith_stops {p : Peekable PollScript B} {dst : Str} {fuel : Nat}
    {f : PeekToString PollScript B} (hf : f.Reading p dst fuel) :
    (pollWith Future.readTail fuel f).Ends (PollEnds (Returned p dst) fun g =>
      g.Reading p dst fuel ∧ g.peekable.pendings < f.peekable.pendings) := by
  obtain ⟨d, hgathers⟩ := hf.gathers
  simp only [pollWith, if_pos hf.started, resume]
  apply (loop_stops fuel hf.weight_lt).bind
  rintro ⟨poll, q⟩ hends
  cases poll with
  | pending =>
    obtain ⟨hwaited, d', hq⟩ := hends
    exact Exec.ends_ok.mpr ⟨⟨hf.started, hf.buf_eq, ⟨_, hgathers.trans hq⟩,
      hwaited.weight_le.trans_lt hf.weight_lt⟩, hwaited.pendings_lt⟩
  | ready stop =>
    obtain ⟨⟨result, buf⟩, hfinish, -⟩ := finishString_ends stop q.peeked f.buf
    simp only [hfinish, Exec.ok_bind]
    rw [hf.buf_eq] at hfinish
    exact Exec.ends_ok.mpr ⟨stop, hgathers.stops hends, hfinish⟩

theorem drive_stops {p : Peekable PollScript B} (dst : Str) (hearly : earlyReject p.peeked = none)
    {polls fuel : Nat} (hfuel : Script.weight p.events < fuel) (hpolls : p.pendings < polls) :
    (drive (Future.PeekToString.poll fuel) polls (.new p dst)).Ends (Returned p dst) := by
  have hstart : Future.PeekToString.poll fuel (.new p dst) =
      Future.PeekToString.poll fuel ⟨p, dst, true⟩ := by
    simp [Future.PeekToString.poll, pollWith, new, hearly]
  rw [drive_congr hstart]
  exact drive_ends (fun f : PeekToString PollScript B => f.peekable.pendings)
    (fun _ => pollWith_stops) polls ⟨rfl, rfl, ⟨[], .refl p⟩, hfuel⟩ hpolls

end PeekToString

namespace PeekToEnd

/-- A future for `p` that has read on since. -/
structure Reading (p : Peekable PollScript B) (dst : List UInt8) (fuel : Nat)
    (f : PeekToEnd PollScript B) : Prop where
  mirrors : f.Mirrors dst
  gathers : ∃ d, Gathers p d f.peekable
  weight_lt : Script.weight f.peekable.events < fuel

/-- The result follows from how the loop stops, and the destination from the peek buffer. -/
structure Returned (p : Peekable PollScript B) (dst : List UInt8)
    (out : Except IoError Nat × PeekToEnd PollScript B) : Prop where
  stops : ∃ stop, Stops p.buffer p.events stop out.2.peekable.peeked out.2.peekable.events ∧
    out.1 = stop.map fun () => out.2.peekable.peeked.length
  buf_eq : out.2.buf = dst ++ out.2.peekable.peeked

theorem pollWith_stops {p : Peekable PollScript B} {dst : List UInt8} {fuel : Nat}
    {f : PeekToEnd PollScript B} (hf : f.Reading p dst fuel) :
    (pollWith Future.readTail fuel f).Ends (PollEnds (Returned p dst) fun g =>
      g.Reading p dst fuel ∧ g.peekable.pendings < f.peekable.pendings) := by
  obtain ⟨d, hgathers⟩ := hf.gathers
  rw [hf.mirrors.pollWith_eq, loop_eq Future.readTail_lawful]
  obtain ⟨⟨poll, q⟩, hrun, hends⟩ := PeekToString.loop_stops fuel hf.weight_lt
  rw [hrun]
  cases poll with
  | pending =>
    obtain ⟨hwaited, d', hq⟩ := hends
    exact Exec.ends_ok.mpr ⟨⟨rfl, ⟨_, hgathers.trans hq⟩,
      hwaited.weight_le.trans_lt hf.weight_lt⟩, hwaited.pendings_lt⟩
  | ready stop => exact Exec.ends_ok.mpr ⟨⟨stop, hgathers.stops hends, rfl⟩, rfl⟩

theorem drive_stops (p : Peekable PollScript B) (dst : List UInt8) {polls fuel : Nat}
    (hfuel : Script.weight p.events < fuel) (hpolls : p.pendings < polls) :
    (drive (Future.PeekToEnd.poll fuel) polls (.new p dst)).Ends (Returned p dst) :=
  drive_ends (fun f : PeekToEnd PollScript B => f.peekable.pendings) (fun _ => pollWith_stops)
    polls ⟨mirrors_new p dst, ⟨[], .refl p⟩, hfuel⟩ hpolls

end PeekToEnd

namespace Whole

/-- What `peek_to_end` leaves. -/
theorem toEnd_stops (p : Peekable PollScript B) (dst : List UInt8) :
    (toEnd dst).Always p fun final => final.dst = dst ++ final.peeked ∧
      ∃ stop, Stops p.buffer p.events stop final.peeked final.events ∧
        final.result = stop.map fun () => some final.peeked.length := by
  apply always_toEnd
  intro q hbuffer hevents polls fuel hfuel hpolls
  obtain ⟨⟨result, f⟩, hrun, ⟨stop, hstops, hresult⟩, hbuf⟩ :=
    PeekToEnd.drive_stops q dst hfuel hpolls
  rw [hbuffer, hevents] at hstops
  refine ⟨_, by simp only [future, hrun, Exec.ok_bind]; rfl, hbuf, stop, hstops, ?_⟩
  obtain rfl : result = stop.map fun () => f.peekable.peeked.length := hresult
  cases stop <;> rfl

/-- What `peek_to_string` leaves, unless it refuses the text at once. -/
theorem toString_stops (p : Peekable PollScript B) (dst : Str) (hearly : earlyReject p.peeked = none) :
    (toString dst).Always p fun final => ∃ stop result buf,
      Stops p.buffer p.events stop final.peeked final.events ∧
      finishString stop final.peeked dst = .ok (result, buf) ∧
      final.result = result.map some ∧ final.dst = buf.bytes := by
  apply always_toString
  intro q hbuffer hevents polls fuel hfuel hpolls
  have hpeeked : q.peeked = p.peeked := congrArg asSlice hbuffer
  obtain ⟨⟨result, f⟩, hrun, stop, hstops, hfinish⟩ :=
    PeekToString.drive_stops dst (hpeeked ▸ hearly) hfuel hpolls
  rw [hbuffer, hevents] at hstops
  exact ⟨_, by simp only [future, hrun, Exec.ok_bind]; rfl, stop, result, f.buf, hstops, hfinish, rfl,
    rfl⟩

omit [LawfulBuffer B] in
/-- A text that is refused at once is left alone. -/
theorem toString_refused (p : Peekable PollScript B) (dst : Str) {e : Utf8Error}
    (hearly : earlyReject p.peeked = some e) :
    (toString dst).Always p
      (· = ⟨.error (invalidUtf8IoError e), dst.bytes, p.peeked, p.events⟩) := by
  apply always_toString
  intro q hbuffer hevents polls fuel _ hpolls
  have hpeeked : q.peeked = p.peeked := congrArg asSlice hbuffer
  obtain ⟨polls, rfl⟩ := Nat.exists_eq_succ_of_ne_zero (Nat.ne_zero_of_lt hpolls)
  refine ⟨_, ?_, rfl⟩
  simp [future, PeekableReader.drive, Future.PeekToString.poll, PeekToString.pollWith,
    PeekToString.new, hpeeked, hearly, hevents, Except.map]

end Whole

end PeekableReader
