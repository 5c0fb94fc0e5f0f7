import PeekableReader.Future.Logged
import PeekableReader.Script.Basic
import PeekableReader.Sync.Logged
import PeekableReader.Tokio.Logged

/-!
# What is asked of the reader

A log of the calls of the reader changes nothing, and shows how every operation treats it. The
reader is offered some room in every call but those of a read into an empty slice and of a
synchronous `fill_peek_buf` of a full buffer, so that no bytes at all mean the end of its
stream. Within one operation or poll it is called again only after data or an interruption:
never after the end of its stream, another error or a pending poll. And the last call accounts
for the result, whether it is a count, an error or a pending poll.
-/

namespace PeekableReader

open Buffer Logged

/-- A run with a log beside the same run without: the answers are the same, and each call adds to
the log what it asks. -/
def Recorded {σ τ ι ρ : Type} (Sim : σ → τ → Prop) (call : ι → τ → Exec (Answer ρ × τ))
    (log : τ → List Inquiry) (D : τ → ι → Answer ρ → τ → List Inquiry → Prop) (is : List ι) (t : τ)
    (out : List (Answer ρ) × σ) (out' : List (Answer ρ) × τ) : Prop :=
  Agree Sim out out' ∧ ∃ events : List (ι × Answer ρ × List Inquiry),
    events.map (·.1) = is ∧ events.map (·.2.1) = out.1 ∧
      Run (fun t i o t' => call i t = .ok (o.1, t') ∧ log t' = log t ++ o.2 ∧ D t i o.1 t' o.2) t events
        out'.2

theorem Recorded.of_agree {σ τ ι ρ : Type} {Sim : σ → τ → Prop} {call : ι → σ → Exec (Answer ρ × σ)}
    {call' : ι → τ → Exec (Answer ρ × τ)} {log : τ → List Inquiry}
    {D : τ → ι → Answer ρ → τ → List Inquiry → Prop} {is : List ι} {s : σ} {t : τ}
    (h : Exec.Rel (Agree Sim) (runCalls call is s) (runCalls call' is t))
    (hcall : ∀ i t, (call' i t).Post fun out => Asks (D t i out.1 out.2) (log t) (log out.2)) :
    Exec.Rel (Recorded Sim call' log D is t) (runCalls call is s) (runCalls call' is t) := by
  refine (h.and_post (runCalls_asks log D hcall is t)).mono ?_
  rintro out out' ⟨hout, events, hinputs, hanswers, run⟩
  exact ⟨hout, events, hinputs, hanswers.trans hout.1.symm, run⟩

section Asynchronous

variable (R R' W B : Type) [Future.AsyncRead R] [Future.BoundedAsyncRead R] [Tokio.AsyncRead R']
  [Tokio.AppendingRead R'] [Tokio.BufMut W] [Buffer B] [LawfulBuffer B] (fuel : Nat)

/-- In every session of both flavours each step treats the reader in this way. -/
theorem polls_recorded :
    (∀ (inputs : List Future.Input) (s : Future.Session R B) (t : Future.Session (Logged R) B),
      s.Alike Logs Eq t → Exec.Rel
        (Recorded (Future.Session.Alike Logs Eq) (Future.Session.call fuel)
          (fun t => t.held.reader.log) Future.Session.Asked inputs t)
        (runCalls (Future.Session.call fuel) inputs s) (runCalls (Future.Session.call fuel) inputs t)) ∧
    ∀ (inputs : List (Tokio.Input W)) (s : Tokio.Session R' W B) (t : Tokio.Session (Logged R') W B),
      s.Alike Logs Eq t → Exec.Rel
        (Recorded (Tokio.Session.Alike Logs Eq) (Tokio.Session.call fuel)
          (fun t => t.held.reader.log) Tokio.Session.Asked inputs t)
        (runCalls (Tokio.Session.call fuel) inputs s) (runCalls (Tokio.Session.call fuel) inputs t) := by
  refine ⟨?_, ?_⟩
  · intro inputs s t h
    exact Recorded.of_agree (Future.Session.calls_alike .logs .eq fuel inputs (fun _ b b' hb => hb ▸ rfl) h)
      fun i t => t.call_asks fuel i
  · intro inputs s t h
    exact Recorded.of_agree (Tokio.Session.calls_alike .logs .eq fuel inputs (fun _ b b' hb => hb ▸ rfl) h)
      fun i t => t.call_asks fuel i

end Asynchronous

/-- A stream that is not ready at first. -/
def late : PollScript := ⟨[.pending, .ready (.data [1])]⟩

/-- A peek that meets a pending poll, and then data. -/
theorem polls_recorded_script :
    Exec.Rel (Recorded (Future.Session.Alike Logs Eq) (Future.Session.call 5)
        (fun t => t.held.reader.log) Future.Session.Asked [.peek [0, 0], .poll, .poll]
        (.idle (Peekable.withBuffer (B := VecBuffer) ⟨late, []⟩)))
      (runCalls (Future.Session.call 5) [.peek [0, 0], .poll, .poll]
        (.idle (Peekable.withBuffer (B := VecBuffer) late)))
      (runCalls (Future.Session.call 5) [.peek [0, 0], .poll, .poll]
        (.idle (Peekable.withBuffer (B := VecBuffer) ⟨late, []⟩))) := by
  have hrecorded := (polls_recorded PollScript PollScript Tokio.SliceSink VecBuffer 5).1
  exact hrecorded [.peek [0, 0], .poll, .poll] (.idle (.withBuffer late)) (.idle (.withBuffer ⟨late, []⟩))
    (.idle ⟨rfl, rfl, rfl⟩)

/-- And so does every operation of the synchronous flavour. -/
theorem calls_recorded (R B : Type) [Read R] [BoundedRead R] [Buffer B] [LawfulBuffer B] (fuel : Nat)
    (ops : List Op) (p : Peekable R B) (q : Peekable (Logged R) B) (h : Alike Logs Eq p q) :
    Exec.Rel
      (Recorded (Alike Logs Eq) (Peekable.call fuel) (fun q => q.reader.log) (fun q op => op.Asked q) ops q)
      (runCalls (Peekable.call fuel) ops p) (runCalls (Peekable.call fuel) ops q) :=
  Recorded.of_agree (Peekable.calls_alike .logs .eq fuel ops (fun _ _ _ hb => hb ▸ rfl) h)
    fun op q => q.call_asks fuel op

/-- A stream that is interrupted first. -/
def interrupted : Script := ⟨[.error (.ofKind .interrupted), .data [1]]⟩

/-- An interruption, then data, and the end of the stream. -/
theorem calls_recorded_script :
    Exec.Rel (Recorded (Alike Logs Eq) (Peekable.call 5) (fun q => q.reader.log)
        (fun q op => op.Asked q) [.peekExact [0], .read [0, 0]]
        (Peekable.withBuffer (B := VecBuffer) ⟨interrupted, []⟩))
      (runCalls (Peekable.call 5) [.peekExact [0], .read [0, 0]]
        (Peekable.withBuffer (B := VecBuffer) interrupted))
      (runCalls (Peekable.call 5) [.peekExact [0], .read [0, 0]]
        (Peekable.withBuffer (B := VecBuffer) ⟨interrupted, []⟩)) :=
  calls_recorded Script VecBuffer 5 [.peekExact [0], .read [0, 0]] (.withBuffer interrupted)
    (.withBuffer ⟨interrupted, []⟩) ⟨rfl, rfl, rfl⟩

end PeekableReader
