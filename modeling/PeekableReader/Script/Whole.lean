import PeekableReader.Script.Futures

/-!
# Operations on the whole stream

`peek_exact`, `peek_to_end` and `peek_to_string` in the three flavours, run on scripts and
reported in one form, `Final`. `Whole.spec` is what they do in terms of `collect`, and the
main results of this module are that each flavour does that: `Whole.sync_eq_spec` and
`Whole.drive_eq_spec`.
-/

namespace PeekableReader

open Buffer

/-- The operations, with the destination of the caller. -/
inductive Whole where
  | exact (buf : List UInt8)
  | toEnd (buf : List UInt8)
  | toString (buf : Str)
  deriving DecidableEq

/-- What is left when an operation has returned. -/
structure Final where
  /-- The result, with a count where one is returned. -/
  result : Except IoError (Option Nat)
  dst : List UInt8
  peeked : List UInt8
  /-- What the reader still holds, without its pending polls. -/
  events : List Event
  deriving DecidableEq

inductive AsyncFlavour where
  | future
  | tokio
  deriving DecidableEq, Repr

/-- The answer of `peek_exact` to a request for `total` bytes. -/
abbrev ExactReply := Outcome → Nat → Except IoError (Option Nat)

def syncReply : ExactReply := fun outcome _ =>
  (outcome.exact (.ofKind .unexpectedEof)).map fun () => none

/-- The tokio future has its own error, and returns how many bytes it peeked. -/
def tokioReply : ExactReply := fun outcome total =>
  (outcome.exact Tokio.eof).map fun () => some total

def AsyncFlavour.reply : AsyncFlavour → ExactReply
  | future => syncReply
  | tokio => tokioReply

namespace Whole

variable {B : Type} [Buffer B]

/-- Run the synchronous operation. -/
def sync (fuel : Nat) (p : Peekable Script B) : Whole → Exec Final
  | exact buf => do
    let (result, buf, p) ← p.peekExact fuel buf
    return ⟨result.map fun () => none, buf, p.peeked, p.reader.events⟩
  | toEnd buf => do
    let (result, buf, p) ← p.peekToEnd fuel buf
    return ⟨result.map some, buf, p.peeked, p.reader.events⟩
  | toString buf => do
    let (result, buf, p) ← p.peekToString fuel buf
    return ⟨result.map some, buf.bytes, p.peeked, p.reader.events⟩

/-- Drive the future of the `future` module. -/
def future (polls fuel : Nat) (p : Peekable PollScript B) : Whole → Exec Final
  | exact buf => do
    let (result, f) ← PeekableReader.drive (Future.PeekExact.poll fuel) polls (.new p buf)
    return ⟨result.map fun () => none, f.buf, f.peekable.peeked, f.peekable.events⟩
  | toEnd buf => do
    let (result, f) ← PeekableReader.drive (Future.PeekToEnd.poll fuel) polls (.new p buf)
    return ⟨result.map some, f.buf, f.peekable.peeked, f.peekable.events⟩
  | toString buf => do
    let (result, f) ← PeekableReader.drive (Future.PeekToString.poll fuel) polls (.new p buf)
    return ⟨result.map some, f.buf.bytes, f.peekable.peeked, f.peekable.events⟩

/-- Drive the future of the `tokio` module. -/
def tokio (polls fuel : Nat) (p : Peekable PollScript B) : Whole → Exec Final
  | exact buf => do
    let (result, f) ← PeekableReader.drive (Tokio.PeekExact.poll fuel) polls (.new p buf)
    return ⟨result.map some, f.buf, f.peekable.peeked, f.peekable.events⟩
  | toEnd buf => do
    let (result, f) ← PeekableReader.drive (Tokio.PeekToEnd.poll fuel) polls (.new p buf)
    return ⟨result.map some, f.buf, f.peekable.peeked, f.peekable.events⟩
  | toString buf => do
    let (result, f) ← PeekableReader.drive (Tokio.PeekToString.poll fuel) polls (.new p buf)
    return ⟨result.map some, f.buf.bytes, f.peekable.peeked, f.peekable.events⟩

def drive (flavour : AsyncFlavour) (polls fuel : Nat) (p : Peekable PollScript B) (op : Whole) :
    Exec Final :=
  match flavour with
  | .future => op.future polls fuel p
  | .tokio => op.tokio polls fuel p

/-- What the operations do, as functions of the contents of the peek buffer and the events
of the reader. -/
def spec (reply : ExactReply) (grant : Grant) (bytes : List UInt8) (es : List Event) :
    Whole → Exec Final
  | exact buf =>
    let (outcome, bytes, es) := collect (exactPlan grant buf.length) bytes es
    .ok ⟨reply outcome buf.length, overwrite buf (bytes.take buf.length), bytes, es⟩
  | toEnd buf =>
    let (outcome, bytes, es) := collect (growthPlan grant) bytes es
    .ok ⟨outcome.loopResult.map fun () => some bytes.length, buf ++ bytes, bytes, es⟩
  | toString buf =>
    match earlyReject bytes with
    | some e => .ok ⟨.error (invalidUtf8IoError e), buf.bytes, bytes, es⟩
    | none => do
      let (outcome, bytes, es) := collect (growthPlan grant) bytes es
      let (result, buf) ← finishString outcome.loopResult bytes buf
      return ⟨result.map some, buf.bytes, bytes, es⟩

variable [LawfulBuffer B] {grant : Grant}

theorem future_eq_spec {polls fuel : Nat} (p : Peekable PollScript B)
    (hgrant : Follows grant p.buffer) (hfuel : Script.weight p.events < fuel) (hpolls : p.pendings < polls) (op : Whole) :
    op.future polls fuel p = op.spec syncReply grant p.peeked p.events := by
  cases op with
  | exact buf =>
    obtain ⟨⟨result, f⟩, hrun, outcome, hcollect, hresult, htracks⟩ :=
      drive_collects (PeekExact.pollWith_collects (.ofKind .unexpectedEof)) polls
        ⟨PeekExact.awaits_new p buf, hgrant⟩ hfuel hpolls
    change collect _ p.peeked p.events = _ at hcollect
    change PeekableReader.drive (Future.PeekExact.poll fuel) polls _ = _ at hrun
    obtain rfl : result = outcome.exact _ := hresult
    simp only [future, spec, hrun, hcollect, Exec.ok_bind, ← htracks.buf_eq]
    rfl
  | toEnd buf =>
    obtain ⟨⟨result, f⟩, hrun, outcome, hcollect, hresult, hbuf⟩ :=
      drive_collects PeekToEnd.pollWith_collects polls
        ⟨PeekToEnd.awaits_new p buf, hgrant⟩ hfuel hpolls
    change collect _ p.peeked p.events = _ at hcollect
    change PeekableReader.drive (Future.PeekToEnd.poll fuel) polls _ = _ at hrun
    obtain rfl : result = outcome.loopResult.map fun () => f.peekable.peeked.length := hresult
    simp only [future, spec, hrun, hcollect, Exec.ok_bind, ← hbuf]
    cases outcome <;> rfl
  | toString buf =>
    rcases hearly : earlyReject p.peeked with _ | e
    · -- the first poll validates the prefix and goes on as a future that has done so
      have hstart : PeekToString.pollWith Future.readTail fuel (.new p buf) =
          PeekToString.pollWith Future.readTail fuel ⟨p, buf, true⟩ := by
        simp [PeekToString.pollWith, PeekToString.new, hearly]
      obtain ⟨⟨result, f⟩, hrun, outcome, hcollect, hfinish⟩ :=
        drive_collects PeekToString.pollWith_collects polls
          (s := ⟨p, buf, true⟩) ⟨⟨rfl, rfl⟩, hgrant⟩ hfuel hpolls
      rw [← drive_congr hstart] at hrun
      change collect _ p.peeked p.events = _ at hcollect
      change PeekableReader.drive (Future.PeekToString.poll fuel) polls _ = _ at hrun
      change finishString outcome.loopResult f.peekable.peeked buf = .ok (result, f.buf) at hfinish
      simp only [future, spec, hrun, hcollect, hearly, hfinish, Exec.ok_bind]
    · obtain ⟨polls, rfl⟩ := Nat.exists_eq_succ_of_ne_zero (Nat.ne_zero_of_lt hpolls)
      simp [future, spec, hearly, PeekableReader.drive, Future.PeekToString.poll, PeekToString.pollWith,
        PeekToString.new, Except.map]

section Tokio

omit [LawfulBuffer B]

theorem tokio_peekToEnd_poll (fuel : Nat) :
    (Tokio.PeekToEnd.poll fuel : PeekToEnd PollScript B → _) = Future.PeekToEnd.poll fuel := by
  funext f
  simp only [Tokio.PeekToEnd.poll, tokio_readTail_eq, Future.PeekToEnd.poll]

theorem tokio_peekToString_poll (fuel : Nat) :
    (Tokio.PeekToString.poll fuel : PeekToString PollScript B → _) = Future.PeekToString.poll fuel := by
  funext f
  simp only [Tokio.PeekToString.poll, tokio_readTail_eq, Future.PeekToString.poll]

end Tokio

/-- The tokio `PeekExact` collects like the other one and answers with the count. -/
theorem tokio_peekExact_collects {fuel : Nat} {dst : List UInt8} (f : PeekExact PollScript B)
    (hf : f.Awaits dst ∧ Follows grant f.peekable.buffer)
    (hfuel : Script.weight f.peekable.events < fuel) :
    (Tokio.PeekExact.poll fuel f).Ends
      (PollCollects (exactPlan grant dst.length) PeekExact.peekable
        (fun outcome result g => result = (outcome.exact Tokio.eof).map (fun () => dst.length) ∧
          g.Tracks dst) (fun g => g.Awaits dst ∧ Follows grant g.peekable.buffer) f) := by
  simp only [Tokio.PeekExact.poll, tokio_readTail_eq]
  apply (PeekExact.pollWith_collects Tokio.eof f hf hfuel).bind
  intro out ⟨result, hcollects, hcompletes⟩
  refine Exec.ends_ok.mpr ⟨result, hcollects, ?_⟩
  cases hcompletes with
  | pending hlive => exact .pending hlive
  | @ready outcome res g hdone =>
    obtain ⟨rfl, htracks⟩ := hdone
    rw [hf.1.length_buf]
    cases outcome <;> exact .ready ⟨rfl, htracks⟩

theorem tokio_eq_spec {polls fuel : Nat} (p : Peekable PollScript B)
    (hgrant : Follows grant p.buffer) (hfuel : Script.weight p.events < fuel) (hpolls : p.pendings < polls) (op : Whole) :
    op.tokio polls fuel p = op.spec tokioReply grant p.peeked p.events := by
  cases op with
  | exact buf =>
    obtain ⟨⟨result, f⟩, hrun, outcome, hcollect, hresult, htracks⟩ :=
      drive_collects tokio_peekExact_collects polls ⟨PeekExact.awaits_new p buf, hgrant⟩ hfuel hpolls
    change collect _ p.peeked p.events = _ at hcollect
    obtain rfl : result = (outcome.exact Tokio.eof).map fun () => buf.length := hresult
    simp only [tokio, spec, hrun, hcollect, Exec.ok_bind, ← htracks.buf_eq]
    cases outcome <;> rfl
  | toEnd buf =>
    have h := future_eq_spec p hgrant hfuel hpolls (toEnd buf)
    rwa [future, ← tokio_peekToEnd_poll] at h
  | toString buf =>
    have h := future_eq_spec p hgrant hfuel hpolls (toString buf)
    rwa [future, ← tokio_peekToString_poll] at h

theorem drive_eq_spec (flavour : AsyncFlavour) {polls fuel : Nat} (p : Peekable PollScript B)
    (hgrant : Follows grant p.buffer) (hfuel : Script.weight p.events < fuel)
    (hpolls : p.pendings < polls) (op : Whole) :
    op.drive flavour polls fuel p = op.spec flavour.reply grant p.peeked p.events := by
  cases flavour with
  | future => exact future_eq_spec p hgrant hfuel hpolls op
  | tokio => exact tokio_eq_spec p hgrant hfuel hpolls op

end Whole

end PeekableReader
