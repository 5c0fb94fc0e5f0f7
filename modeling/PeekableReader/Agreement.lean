import PeekableReader.Lib.Machine
import PeekableReader.Script.Flavours

/-!
# Three implementations of `peek` and `read`

Over every sequence of peeks and reads on a script without pending polls and `WouldBlock`,
the three flavours show the caller the same at every call, and end with the same peekable
reader: the same buffer and the same events left. The buffer may be any lawful one, and
may decide as it likes whether to grow, since all flavours make the same calls of it.
-/

namespace PeekableReader

variable {B : Type} [Buffer B]

/-- A call of each flavour for the same number of bytes. The destinations may hold anything,
and the `ReadBuf` may have a filled part. -/
structure Request where
  peeking : Bool
  syncBuf : List UInt8
  futureBuf : List UInt8
  readBuf : Tokio.ReadBuf
  futureBuf_length : futureBuf.length = syncBuf.length
  readBuf_remaining : readBuf.remaining = syncBuf.length

/-- What the caller sees: a count and that many bytes, or the kind of an error. -/
abbrev Sight := Poll (Except ErrorKind (Nat × List UInt8))

/-- What is seen of a slice after a call. -/
def sightOf (result : Except IoError Nat) (buf : List UInt8) : Except ErrorKind (Nat × List UInt8) :=
  (result.map fun n => (n, buf.take n)).mapError IoError.kind

/-- What is seen of a `ReadBuf` after a call. -/
def sightIn (before : Tokio.ReadBuf) (result : Except IoError Unit) (after : Tokio.ReadBuf) :
    Except ErrorKind (Nat × List UInt8) :=
  (result.map fun () => (after.filled - before.filled, after.filledBytes.drop before.filled)).mapError
    IoError.kind

/-- The call itself, by the name of the method. -/
def invokeSync (fuel : Nat) (peeking : Bool) (p : Peekable Script B) (buf : List UInt8) :
    Exec (Except IoError Nat × List UInt8 × Peekable Script B) :=
  if peeking then p.peek fuel buf else p.read buf

def invokeFuture (fuel : Nat) (peeking : Bool) (p : Peekable PollScript B) (buf : List UInt8) :
    Exec (Poll (Except IoError Nat) × List UInt8 × Peekable PollScript B) :=
  if peeking then Future.pollPeek fuel p buf else Future.pollRead p buf

def invokeTokio (fuel : Nat) (peeking : Bool) (p : Peekable PollScript B) (rb : Tokio.ReadBuf) :
    Exec (Poll (Except IoError Unit) × Tokio.ReadBuf × Peekable PollScript B) :=
  if peeking then Tokio.pollPeek fuel p rb else Tokio.pollRead p rb

namespace Request

def callSync (fuel : Nat) (r : Request) (p : Peekable Script B) : Exec (Sight × Peekable Script B) := do
  let (result, buf, p) ← invokeSync fuel r.peeking p r.syncBuf
  return (.ready (sightOf result buf), p)

def callFuture (fuel : Nat) (r : Request) (p : Peekable PollScript B) :
    Exec (Sight × Peekable PollScript B) := do
  let (poll, buf, p) ← invokeFuture fuel r.peeking p r.futureBuf
  return (poll.map fun result => sightOf result buf, p)

def callTokio (fuel : Nat) (r : Request) (p : Peekable PollScript B) :
    Exec (Sight × Peekable PollScript B) := do
  let (poll, rb, p) ← invokeTokio fuel r.peeking p r.readBuf
  return (poll.map fun result => sightIn r.readBuf result rb, p)

end Request

/-- A script that never answers `WouldBlock`. -/
def Calm (es : List Event) : Prop := ∀ e, Event.error e ∈ es → e.kind ≠ .wouldBlock

theorem Calm.readsOn {es es' : List Event} (h : Calm es) (hes : Script.ReadsOn es es') : Calm es' :=
  fun e he => h e (hes.mem he)

/-- The sight of an answer. -/
def sight : Except IoError (List UInt8) → Except ErrorKind (Nat × List UInt8)
  | .ok d => .ok (d.length, d)
  | .error e => .error e.kind

theorem sightOf_eq {answer : Except IoError (List UInt8)} {buf : List UInt8}
    (h : ∀ d, Poll.ready answer = .ready (.ok d) → buf.take d.length = d) :
    sightOf (answer.map List.length) buf = sight answer := by
  cases answer with
  | ok d => simp [sightOf, sight, Except.map, Except.mapError, h d rfl]
  | error e => rfl

theorem sightIn_eq {answer : Except IoError (List UInt8)} {rb rb' : Tokio.ReadBuf}
    (h : ∀ d, Poll.ready answer = .ready (.ok d) → rb'.filledBytes = rb.filledBytes ++ d) :
    sightIn rb (answer.map fun _ => ()) rb' = sight answer := by
  cases answer with
  | ok d =>
    have hbytes := h d rfl
    have hfilled : rb'.filled = rb.filled + d.length := by
      simpa using congrArg List.length hbytes
    have hdrop : rb'.filledBytes.drop rb.filled = d := by
      rw [hbytes, drop_append_of_length rb.length_filledBytes]
    simp [sightIn, sight, Except.map, Except.mapError, hfilled, hdrop]
  | error e => rfl

variable [LawfulBuffer B]

/-- The two asynchronous flavours give the same answer. -/
theorem invoke_gives {fuel : Nat} (peeking : Bool) (p : Peekable PollScript B) (n : Nat)
    (hfuel : Script.weight p.events < fuel) :
    ∃ answer q, Script.ReadsOn p.events q.events ∧
      Gives n answer q (invokeFuture fuel peeking p) (invokeTokio fuel peeking p) := by
  cases peeking with
  | true =>
    obtain ⟨answer, q, hcase, h⟩ := pollPeek_gives p n hfuel
    exact ⟨answer, q, hcase.readsOn, h⟩
  | false =>
    obtain ⟨answer, q, hcase, h⟩ := pollRead_gives p n
    exact ⟨answer, q, hcase.readsOn, h⟩

/-- The synchronous call is what the `future` flavour does with the same slice. -/
theorem invokeFuture_lift {fuel : Nat} (peeking : Bool) (p : Peekable Script B) (buf : List UInt8)
    (hcalm : Calm p.reader.events) (hfuel : Script.weight p.reader.events < fuel) :
    invokeFuture fuel peeking p.lift buf =
      (fun out => (.ready out.1, out.2.1, out.2.2.lift)) <$> invokeSync fuel peeking p buf := by
  cases peeking with
  | true =>
    apply pollPeek_lift p buf hfuel
    intro e he
    exact hcalm.readsOn (.settled _) e (List.mem_of_head? he)
  | false => exact pollRead_lift p buf

/-- One call is answered alike, and reads on. -/
theorem call_agrees {fuel : Nat} (r : Request) (p : Peekable Script B) (hcalm : Calm p.reader.events)
    (hfuel : Script.weight p.reader.events < fuel) :
    ∃ seen p', r.callSync fuel p = .ok (seen, p') ∧ r.callFuture fuel p.lift = .ok (seen, p'.lift) ∧
      r.callTokio fuel p.lift = .ok (seen, p'.lift) ∧
      Script.ReadsOn p.reader.events p'.reader.events := by
  obtain ⟨poll, q, hreads, hgives⟩ :=
    invoke_gives r.peeking p.lift r.syncBuf.length (by simpa using hfuel)
  obtain ⟨dst, hrun, hdst⟩ := hgives.future r.syncBuf rfl
  obtain ⟨buf, hfuture, hbuf⟩ := hgives.future r.futureBuf r.futureBuf_length
  obtain ⟨rb, htokio, hrb⟩ := hgives.tokio r.readBuf r.readBuf_remaining
  rw [invokeFuture_lift r.peeking p r.syncBuf hcalm hfuel] at hrun
  obtain ⟨⟨result, dst', p'⟩, hsync, hout⟩ := Exec.map_eq_ok.mp hrun
  obtain ⟨hresult, hrest⟩ := Prod.mk.inj hout
  obtain ⟨rfl, rfl⟩ := Prod.mk.inj hrest
  obtain ⟨answer, rfl, rfl⟩ := Poll.ready_of_mapOk hresult
  rw [Poll.mapOk_ready] at hfuture htokio
  refine ⟨.ready (sight answer), p', ?_, ?_, ?_, by simpa using hreads⟩
  · simp [Request.callSync, hsync, sightOf_eq hdst]
  · simp [Request.callFuture, hfuture, Poll.map, sightOf_eq hbuf]
  · simp [Request.callTokio, htokio, Poll.map, sightIn_eq hrb]

/-- Where the flavours stand side by side, with fuel enough for what is left. -/
structure Matches (fuel : Nat) (p : Peekable Script B) (q : Peekable PollScript B) : Prop where
  lift_eq : q = p.lift
  calm : Calm p.reader.events
  weight_lt : Script.weight p.reader.events < fuel

omit [Buffer B] [LawfulBuffer B] in
theorem Matches.readsOn {fuel : Nat} {p p' : Peekable Script B} {q : Peekable PollScript B}
    (h : Matches fuel p q) (hreads : Script.ReadsOn p.reader.events p'.reader.events) :
    Matches fuel p' p'.lift :=
  ⟨rfl, h.calm.readsOn hreads, hreads.weight_le.trans_lt h.weight_lt⟩

theorem flavours_agree {fuel : Nat} (requests : List Request) (p : Peekable Script B)
    (hcalm : Calm p.reader.events) (hfuel : Script.weight p.reader.events < fuel) :
    ∃ seen p', runCalls (Request.callSync fuel) requests p = .ok (seen, p') ∧
      runCalls (Request.callFuture fuel) requests p.lift = .ok (seen, p'.lift) ∧
      runCalls (Request.callTokio fuel) requests p.lift = .ok (seen, p'.lift) := by
  have hcalls (r : Request) (s : Peekable Script B) (t : Peekable PollScript B)
      (h : Matches fuel s t) :
      (∃ seen s' t', r.callSync fuel s = .ok (seen, s') ∧ r.callFuture fuel t = .ok (seen, t') ∧
        Matches fuel s' t') ∧
      ∃ seen s' t', r.callSync fuel s = .ok (seen, s') ∧ r.callTokio fuel t = .ok (seen, t') ∧
        Matches fuel s' t' := by
    obtain ⟨seen, s', hsync, hfuture, htokio, hreads⟩ := call_agrees r s h.calm h.weight_lt
    obtain rfl := h.lift_eq
    exact ⟨⟨seen, s', _, hsync, hfuture, h.readsOn hreads⟩, seen, s', _, hsync, htokio,
      h.readsOn hreads⟩
  have hstart : Matches fuel p p.lift := ⟨rfl, hcalm, hfuel⟩
  obtain ⟨seen, p', _, hsync, hfuture, ⟨rfl, -, -⟩⟩ :=
    runCalls_agree (Matches fuel) (fun r s t h => (hcalls r s t h).1) requests hstart
  obtain ⟨seen', p'', _, hsync', htokio, ⟨rfl, -, -⟩⟩ :=
    runCalls_agree (Matches fuel) (fun r s t h => (hcalls r s t h).2) requests hstart
  obtain ⟨rfl, rfl⟩ : seen = seen' ∧ p' = p'' := by
    simpa using hsync.symm.trans hsync'
  exact ⟨seen, p', hsync, hfuture, htokio⟩

/-- A peek past an interruption and a read of what it peeked, into a `ReadBuf` with a filled
part. -/
theorem flavours_agree_script :
    ∃ seen p', runCalls (Request.callSync 6)
        [⟨true, [0, 0], [9, 9], ⟨[7, 0, 0], 1, by decide⟩, rfl, rfl⟩,
          ⟨false, [0], [9], .new [5], rfl, rfl⟩]
        ⟨⟨[.error (.ofKind .interrupted), .data [1, 2, 3]]⟩, (⟨[]⟩ : BoundedBuffer 2), none⟩ =
          .ok (seen, p') ∧
      runCalls (Request.callFuture 6)
        [⟨true, [0, 0], [9, 9], ⟨[7, 0, 0], 1, by decide⟩, rfl, rfl⟩,
          ⟨false, [0], [9], .new [5], rfl, rfl⟩]
        (Peekable.lift
          ⟨⟨[.error (.ofKind .interrupted), .data [1, 2, 3]]⟩, (⟨[]⟩ : BoundedBuffer 2), none⟩) =
          .ok (seen, p'.lift) ∧
      runCalls (Request.callTokio 6)
        [⟨true, [0, 0], [9, 9], ⟨[7, 0, 0], 1, by decide⟩, rfl, rfl⟩,
          ⟨false, [0], [9], .new [5], rfl, rfl⟩]
        (Peekable.lift
          ⟨⟨[.error (.ofKind .interrupted), .data [1, 2, 3]]⟩, (⟨[]⟩ : BoundedBuffer 2), none⟩) =
          .ok (seen, p'.lift) := by
  refine flavours_agree _ _ ?_ (by decide)
  intro e he
  simp only [List.mem_cons, Event.error.injEq, reduceCtorEq, List.not_mem_nil, or_false] at he
  subst he
  decide

end PeekableReader
