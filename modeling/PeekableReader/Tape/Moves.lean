import PeekableReader.Agreement
import PeekableReader.Script.Flows

/-!
# The moves of a caller

What a caller of each flavour does for a move on the tape, and is told by it. An asynchronous
caller drives the future of the operation until it is ready; a read is polled with the same
slice until then.
-/

namespace PeekableReader

open Buffer

variable {B : Type} [Buffer B]

/-- What a caller is told by a read or a peek: how many bytes it got, and which. -/
def given (result : Except IoError Nat) (buf : List UInt8) : Answer (Except ErrorKind Nat) :=
  .gave (result.mapError IoError.kind) [counted result.toOption buf]

/-- What a caller is told when the peek buffer has been filled. -/
def filled (result : Except IoError Nat) : Answer (Except ErrorKind Nat) :=
  .gave (result.mapError IoError.kind) []

namespace Whole

def call (fuel : Nat) (p : Peekable Script B) :
    Whole → Exec (Answer (Except ErrorKind Nat) × Peekable Script B)
  | exact buf => do
    let (result, buf, p) ← p.peekExact fuel buf
    return (told (result.map fun () => none) buf, p)
  | toEnd buf => do
    let (result, buf, p) ← p.peekToEnd fuel buf
    return (told (result.map some) buf, p)
  | toString buf => do
    let (result, buf, p) ← p.peekToString fuel buf
    return (told (result.map some) buf.bytes, p)

def await (flavour : AsyncFlavour) (polls fuel : Nat) (p : Peekable PollScript B) :
    Whole → Exec (Answer (Except ErrorKind Nat) × Peekable PollScript B)
  | exact buf =>
    match flavour with
    | .future => do
      let (result, f) ← PeekableReader.drive (Future.PeekExact.poll fuel) polls (.new p buf)
      return (told (result.map fun () => none) f.buf, f.peekable)
    | .tokio => do
      let (result, f) ← PeekableReader.drive (Tokio.PeekExact.poll fuel) polls (.new p buf)
      return (told (result.map some) f.buf, f.peekable)
  | toEnd buf => do
    let (result, f) ← PeekableReader.drive (flavour.peekToEnd fuel) polls (.new p buf)
    return (told (result.map some) f.buf, f.peekable)
  | toString buf => do
    let (result, f) ← PeekableReader.drive (flavour.peekToString fuel) polls (.new p buf)
    return (told (result.map some) f.buf.bytes, f.peekable)

end Whole

/-- A read in progress: the reader and the slice it is polled with. -/
structure Reading (B : Type) where
  peekable : Peekable PollScript B
  buf : List UInt8

namespace AsyncFlavour

def pollRead (flavour : AsyncFlavour) (r : Reading B) :
    Exec (Poll (Except IoError Nat) × Reading B) :=
  match flavour with
  | .future => do
    let (poll, buf, p) ← Future.pollRead r.peekable r.buf
    return (poll, ⟨p, buf⟩)
  | .tokio => do
    let (poll, rb, p) ← Tokio.pollRead r.peekable (.new r.buf)
    return (poll.mapOk fun () => rb.filledBytes.length, ⟨p, rb.buf⟩)

def fillPeekBuf (flavour : AsyncFlavour) :
    FillPeekBuf PollScript B → Exec (Poll (Except IoError Nat) × FillPeekBuf PollScript B) :=
  match flavour with
  | .future => Future.FillPeekBuf.poll
  | .tokio => Tokio.FillPeekBuf.poll

end AsyncFlavour

namespace Move

/-- The move of a synchronous caller. -/
def call (fuel : Nat) (p : Peekable Script B) :
    Move → Exec (Answer (Except ErrorKind Nat) × Peekable Script B)
  | read buf => do
    let (result, buf, p) ← p.read buf
    return (given result buf, p)
  | peek buf => do
    let (result, buf, p) ← p.peek fuel buf
    return (given result buf, p)
  | whole op => op.call fuel p
  | fillPeekBuf => do
    let (result, p) ← p.fillPeekBuf fuel
    return (filled result, p)
  | consume =>
    let (buffer, p) := p.consume
    .ok (.handed (asSlice buffer), p)
  | consumeInPlace => .ok (.done, p.consumeInPlace)

/-- The move of an asynchronous caller. -/
def await (flavour : AsyncFlavour) (polls fuel : Nat) (p : Peekable PollScript B) :
    Move → Exec (Answer (Except ErrorKind Nat) × Peekable PollScript B)
  | read buf => do
    let (result, r) ← drive flavour.pollRead polls ⟨p, buf⟩
    return (given result r.buf, r.peekable)
  | peek buf =>
    match flavour with
    | .future => do
      let (result, f) ← drive (Future.Peek.poll fuel) polls ⟨p, buf⟩
      return (given result f.buf, f.peekable)
    | .tokio => do
      let (result, f) ← drive (Tokio.Peek.poll fuel) polls ⟨p, buf⟩
      return (given result f.buf, f.peekable)
  | whole op => op.await flavour polls fuel p
  | fillPeekBuf => do
    let (result, f) ← drive flavour.fillPeekBuf polls (.new p)
    return (filled result, f.peeker)
  | consume =>
    let (buffer, p) := p.consume
    .ok (.handed (asSlice buffer), p)
  | consumeInPlace => .ok (.done, p.consumeInPlace)

end Move

/-! ## Single polls -/

namespace PollScript

theorem bytes_settled (es : List PollEvent) :
    Script.bytes (strip (settled es)) = Script.bytes (strip es) ∧
      pendings (settled es) = pendings es := by
  induction es with
  | nil => exact ⟨rfl, rfl⟩
  | cons event es ih =>
    match event with
    | .pending => exact ⟨rfl, rfl⟩
    | .ready (.data chunk) => exact ⟨rfl, rfl⟩
    | .ready (.error e) =>
      have hnext : next 0 (.ready (.error e) :: es) = (.ready (.error e), es) := rfl
      by_cases he : e.kind = .interrupted
      · rw [settled_interrupted hnext he, pendings_ready]
        exact ih
      · rw [settled_of_next hnext (by rintro e ⟨⟩; exact he)]
        exact ⟨rfl, rfl⟩

end PollScript

theorem Flows.settled {es : List PollEvent} (h : Flows (PollScript.strip es)) :
    Flows (PollScript.strip (PollScript.settled es)) :=
  fun e he => h e (((List.dropWhile_sublist _).filterMap _).subset he)

/-- One poll of a reader that flows, with room for `room` bytes. -/
inductive FlowCase (room : Nat) (es es' : List PollEvent) : Poll (Except IoError (List UInt8)) → Prop
  | ok {d : List UInt8} (le : d.length ≤ room)
      (bytes : Script.bytes (PollScript.strip es) = d ++ Script.bytes (PollScript.strip es'))
      (more : d = [] → room = 0 ∨ Script.bytes (PollScript.strip es') = []) :
      FlowCase room es es' (.ready (.ok d))
  | interrupted {e : IoError} (kind : e.kind = .interrupted)
      (bytes : Script.bytes (PollScript.strip es) = Script.bytes (PollScript.strip es')) :
      FlowCase room es es' (.ready (.error e))
  | pending (bytes : Script.bytes (PollScript.strip es) = Script.bytes (PollScript.strip es'))
      (pendings : PollScript.pendings es' < PollScript.pendings es) : FlowCase room es es' .pending

theorem Flows.poll {room : Nat} {es es' : List PollEvent} {answer : Poll (Except IoError (List UInt8))}
    (h : Flows (PollScript.strip es)) (hnext : PollScript.next room es = (answer, es')) :
    FlowCase room es es' answer ∧ Flows (PollScript.strip es') := by
  cases answer using Poll.casesResult with
  | pending =>
    obtain ⟨hstrip, hpend⟩ := PollScript.next_pending hnext
    exact ⟨.pending (by rw [hstrip]) (by omega), by rwa [hstrip]⟩
  | error e =>
    obtain ⟨hnext, -⟩ := PollScript.next_ready hnext
    exact ⟨.interrupted (h.interrupted hnext) (Script.next_error hnext).1.symm, h.next hnext⟩
  | ok d =>
    obtain ⟨hnext, -⟩ := PollScript.next_ready hnext
    obtain ⟨hle, hbytes, -⟩ := Script.next_ok hnext
    refine ⟨.ok hle hbytes ?_, h.next hnext⟩
    rintro rfl
    rcases Nat.eq_zero_or_pos room with hzero | hpos
    · exact .inl hzero
    · rw [h.ended hpos hnext] at hbytes
      exact .inr hbytes.symm

/-- What a caller is told by the answer of a reader. -/
def answerOf (answer : Except IoError (List UInt8)) : Answer (Except ErrorKind Nat) :=
  .gave ((answer.map List.length).mapError IoError.kind) [(Poll.ready answer).bytes]

/-- A poll is answered as the tape allows, or is pending and has not moved it. -/
inductive Polled (move : Move) (p p' : Peekable PollScript B) :
    Poll (Answer (Except ErrorKind Nat)) → Prop
  | ready {a : Answer (Except ErrorKind Nat)} (step : p.tape.Step move a p'.tape)
      (flows : Flows p'.events) : Polled move p p' (.ready a)
  | pending (tape_eq : p'.tape = p.tape) (flows : Flows p'.events)
      (weight_le : Script.weight p'.events ≤ Script.weight p.events)
      (pendings_lt : p'.pendings < p.pendings) : Polled move p p' .pending

theorem ReadCase.onTape [LawfulBuffer B] {p p' : Peekable PollScript B} {buf : List UInt8}
    {answer : Poll (Except IoError (List UInt8))} (h : ReadCase p buf.length answer p')
    (hflows : Flows p.events) : Polled (.read buf) p p' (answer.map answerOf) := by
  have hreads := h.readsOn
  cases h with
  | @direct answer es hempty hnext =>
    have hnil : p.peeked = [] := List.eq_nil_of_length_eq_zero hempty
    obtain ⟨hcase, hflows'⟩ := hflows.poll hnext
    have htape' : ({ p with reader := ⟨es⟩ } : Peekable PollScript B).tape =
        ⟨[], Script.bytes (PollScript.strip es)⟩ := congrArg (Tape.mk · _) hnil
    have htape {rest : List UInt8} (h : Script.bytes p.events = rest) : p.tape = ⟨[], rest⟩ := by
      rw [Peekable.tape, Tape.of, hnil, h]
    cases hcase with
    | ok hle hbytes hmore =>
      refine .ready ?_ hflows'
      rw [htape', htape hbytes]
      exact .readOn (.inl rfl) hle fun hd =>
        (hmore hd).imp_left List.eq_nil_of_length_eq_zero
    | @interrupted e hkind hbytes =>
      refine .ready ?_ hflows'
      have htold : answerOf (.error e) = .gave (.error .interrupted) [[]] := by
        rw [← hkind]
        rfl
      rw [htape', htape hbytes, htold]
      exact .readInterrupted
    | pending hbytes hpend =>
      refine .pending ?_ hflows' hreads.weight_le hpend
      rw [htape', htape hbytes]
  | @served buffer hpos hle hrest =>
    refine .ready ?_ hflows
    have hne : p.tape.peeked ≠ [] := List.ne_nil_of_length_pos hpos
    have htold : answerOf (.ok (p.peeked.take buf.length)) =
        .gave (.ok buf.length) [p.peeked.take buf.length] := by
      simp [answerOf, Except.map, Except.mapError, Poll.bytes, hle]
    have htape' : ({ p with buffer } : Peekable PollScript B).tape =
        ⟨p.tape.peeked.drop buf.length, p.tape.rest⟩ := congrArg (Tape.mk · _) hrest
    rw [htold, htape']
    exact .readPeeked hne hle
  | @topped answer es hpos hlt hnext =>
    obtain ⟨hcase, hflows'⟩ := hflows.poll hnext
    have hbytes : Script.bytes p.events = answer.bytes ++ Script.bytes (PollScript.strip es) := by
      cases hcase with
      | ok _ hbytes _ => exact hbytes
      | interrupted _ hbytes => exact hbytes
      | pending hbytes _ => exact hbytes
    have hfits : (p.peeked ++ answer.bytes).length ≤ buf.length := by
      have hle := PollScript.next_bytes_le hnext
      rw [List.length_append]
      omega
    have htape : p.tape = ⟨p.peeked, answer.bytes ++ Script.bytes (PollScript.strip es)⟩ :=
      congrArg _ hbytes
    have htape' : ({ p with reader := ⟨es⟩, buffer := clear p.buffer } : Peekable PollScript B).tape =
        ⟨[], Script.bytes (PollScript.strip es)⟩ := congrArg (Tape.mk · _) (asSlice_clear _)
    refine .ready ?_ hflows'
    rw [htape, htape']
    refine .readOn (.inr hlt) hfits ?_
    intro hnil
    rw [(List.append_eq_nil_iff.mp hnil).1] at hpos
    cases hpos

theorem PeekCase.onTape [LawfulBuffer B] [InfallibleBuffer B] {p p' : Peekable PollScript B}
    {buf : List UInt8} {answer : Poll (Except IoError (List UInt8))}
    (h : PeekCase p buf.length answer p') (hflows : Flows p.events) :
    Polled (.peek buf) p p' (answer.map answerOf) := by
  have hreads := h.readsOn
  -- a peek that gives `d` behind what is at hand
  have hstep {q : Peekable PollScript B} {d : List UInt8} (hq : q.peeked = p.peeked ++ d)
      (hbytes : Script.bytes p.events = d ++ Script.bytes q.events)
      (hfits : d = [] ∨ (p.peeked ++ d).length ≤ buf.length)
      (hmore : p.peeked ++ d = [] → buf = [] ∨ Script.bytes q.events = []) :
      p.tape.Step (.peek buf) (answerOf (.ok ((p.peeked ++ d).take buf.length))) q.tape := by
    have htape : p.tape = ⟨p.peeked, d ++ Script.bytes q.events⟩ := congrArg _ hbytes
    have htape' : q.tape = ⟨p.peeked ++ d, Script.bytes q.events⟩ := congrArg (Tape.mk · _) hq
    rw [htape, htape']
    exact .peek hfits hmore
  cases h with
  | covered hle =>
    refine .ready ?_ hflows
    have hgiven := hstep (q := p) (d := []) (List.append_nil _).symm rfl (.inl rfl) ?_
    · rwa [List.append_nil] at hgiven
    · intro hnil
      rw [List.append_nil] at hnil
      rw [hnil] at hle
      exact .inl (List.eq_nil_of_length_eq_zero (Nat.le_zero.mp hle))
  | refused hlt hres =>
    have hok := InfallibleBuffer.resize_succeeds p.buffer buf.length
    rw [hres] at hok
    cases hok
  | @polled answer p' hlt hnext hkind hpeeked =>
    obtain ⟨hsettled, hsame⟩ := PollScript.bytes_settled p.reader.events
    obtain ⟨hcase, hflows'⟩ := hflows.settled.poll hnext
    cases hcase with
    | @ok d hle hbytes hmore =>
      refine .ready ?_ hflows'
      have hfits : (p.peeked ++ d).length ≤ buf.length := by
        rw [List.length_append]
        omega
      have hgiven := hstep (d := d) hpeeked (hsettled.symm.trans hbytes) (.inr hfits) fun hnil => ?_
      · rwa [List.take_of_length_le hfits] at hgiven
      · obtain hfull | hrest := hmore (List.append_eq_nil_iff.mp hnil).2
        · omega
        · exact .inr hrest
    | interrupted hinterrupted _ => exact absurd hinterrupted (hkind _ rfl)
    | pending hbytes hpend =>
      have hq : p'.peeked = p.peeked := hpeeked.trans (List.append_nil _)
      have hrest : Script.bytes p.events = Script.bytes p'.events := hsettled.symm.trans hbytes
      rcases Nat.eq_zero_or_pos p.peeked.length with hzero | hpos
      · simp only [peekAnswer, if_pos hzero]
        refine .pending ?_ hflows' hreads.weight_le (hpend.trans_eq hsame)
        rw [Peekable.tape, Tape.of, hq, ← hrest]
        rfl
      · simp only [peekAnswer, if_neg hpos.ne']
        refine .ready ?_ hflows'
        have hgiven := hstep (d := []) (by rw [hq, List.append_nil]) hrest (.inl rfl) fun hnil => ?_
        · rwa [List.append_nil, List.take_of_length_le hlt.le] at hgiven
        · rw [(List.append_eq_nil_iff.mp hnil).1] at hpos
          cases hpos

/-! ## Polls until they are ready -/

/-- What holds when a move has come to its end. -/
def Moved (move : Move) (p : Peekable PollScript B)
    (out : Answer (Except ErrorKind Nat) × Peekable PollScript B) : Prop :=
  p.tape.Step move out.1 out.2.tape ∧ Flows out.2.events

/-- A poll of a future that holds a peekable reader, and tells its caller what it returns. -/
def PollsMove {σ : Type} (move : Move) (held : σ → Peekable PollScript B)
    (tell : Except IoError Nat → σ → Answer (Except ErrorKind Nat)) (Live : σ → Prop) (s : σ)
    (out : Poll (Except IoError Nat) × σ) : Prop :=
  Polled move (held s) (held out.2) (out.1.map fun result => tell result out.2) ∧
    (out.1 = .pending → Live out.2)

theorem drive_moved {σ : Type} {poll : σ → Exec (Poll (Except IoError Nat) × σ)} {move : Move}
    {held : σ → Peekable PollScript B} {tell : Except IoError Nat → σ → Answer (Except ErrorKind Nat)}
    {Live : σ → Prop} {polls fuel : Nat}
    (hpoll : ∀ s, Live s → Flows (held s).events → Script.weight (held s).events < fuel →
      (poll s).Ends (PollsMove move held tell Live s))
    {s : σ} (hlive : Live s) (hflows : Flows (held s).events)
    (hfuel : Script.weight (held s).events < fuel) (hpolls : (held s).pendings < polls) :
    (drive poll polls s).Ends fun out => Moved move (held s) (tell out.1 out.2, held out.2) := by
  have hstep (t : σ) (h : (Live t ∧ Flows (held t).events ∧ Script.weight (held t).events < fuel) ∧
      (held t).tape = (held s).tape) :
      (poll t).Ends (PollEnds (fun out => Moved move (held s) (tell out.1 out.2, held out.2)) fun u =>
        ((Live u ∧ Flows (held u).events ∧ Script.weight (held u).events < fuel) ∧
          (held u).tape = (held s).tape) ∧ (held u).pendings < (held t).pendings) := by
    obtain ⟨⟨hlive, hflows, hfuel⟩, htape⟩ := h
    apply (hpoll t hlive hflows hfuel).mono
    rintro ⟨poll, u⟩ ⟨hpolled, hpending⟩
    cases poll with
    | ready result =>
      cases hpolled with
      | ready step flows => exact ⟨htape ▸ step, flows⟩
    | pending =>
      cases hpolled with
      | pending tape_eq flows weight_le pendings_lt =>
        exact ⟨⟨⟨hpending rfl, flows, weight_le.trans_lt hfuel⟩, tape_eq.trans htape⟩, pendings_lt⟩
  exact drive_ends (fun t => (held t).pendings) hstep polls ⟨⟨hlive, hflows, hfuel⟩, rfl⟩ hpolls

section Given

variable {answer : Poll (Except IoError (List UInt8))}

/-- The bytes an answer hands over are those a caller finds at the front of its slice. -/
theorem given_eq {buf : List UInt8} (h : ∀ d, answer = .ready (.ok d) → buf.take d.length = d) :
    ((answer.mapOk List.length).map fun result => given result buf) = answer.map answerOf := by
  cases answer using Poll.casesResult with
  | ok d =>
    simp [Poll.mapOk, Poll.map, given, answerOf, Except.map, Except.mapError, Except.toOption, counted,
      Poll.bytes, h d rfl]
  | error e => rfl
  | pending => rfl

theorem given_readBuf {rb : Tokio.ReadBuf} {buf : List UInt8}
    (h : ∀ d, answer = .ready (.ok d) → rb.filledBytes = (Tokio.ReadBuf.new buf).filledBytes ++ d) :
    (((answer.mapOk fun _ => ()).mapOk fun () => rb.filledBytes.length).map
      fun result => given result rb.buf) = answer.map answerOf := by
  cases answer using Poll.casesResult with
  | ok d =>
    have hd : rb.filledBytes = d := by simpa using h d rfl
    have htake := rb.take_filledBytes
    rw [hd] at htake
    simp [Poll.mapOk, Poll.map, given, answerOf, Except.map, Except.mapError, Except.toOption, counted,
      Poll.bytes, hd, htake, -Tokio.ReadBuf.length_filledBytes]
  | error e => rfl
  | pending => rfl

end Given

variable [LawfulBuffer B]

theorem AsyncFlavour.pollRead_moves (flavour : AsyncFlavour) {buf : List UInt8} (r : Reading B)
    (hlen : r.buf.length = buf.length) (hflows : Flows r.peekable.events) :
    (flavour.pollRead r).Ends (PollsMove (.read buf) Reading.peekable (fun result r => given result r.buf)
      (fun r => r.buf.length = buf.length) r) := by
  obtain ⟨answer, p', hcase, hgives⟩ := pollRead_gives r.peekable buf.length
  have hmoved := hcase.onTape hflows
  cases flavour with
  | future =>
    obtain ⟨buf', hrun, hbuf⟩ := hgives.future r.buf hlen
    have hsat := Future.pollRead_sat r.peekable r.buf
    simp only [pollRead, hrun, Exec.ok_bind] at hsat ⊢
    refine Exec.ends_ok.mpr ⟨given_eq hbuf ▸ hmoved, ?_⟩
    rintro hpending
    obtain rfl : answer = .pending := Poll.mapOk_eq_pending.mp hpending
    exact hsat.1.trans hlen
  | tokio =>
    obtain ⟨rb, hrun, hrb⟩ := hgives.tokio (.new r.buf) hlen
    have hsat := Tokio.pollRead_sat r.peekable (.new r.buf)
    simp only [pollRead, hrun, Exec.ok_bind] at hsat ⊢
    exact Exec.ends_ok.mpr ⟨given_readBuf hrb ▸ hmoved, fun _ => hsat.length.trans hlen⟩

variable [InfallibleBuffer B]

theorem Future.Peek.poll_moves {fuel : Nat} {buf : List UInt8} (f : Peek PollScript B)
    (hlen : f.buf.length = buf.length) (hflows : Flows f.peekable.events)
    (hfuel : Script.weight f.peekable.events < fuel) :
    (Peek.poll fuel f).Ends (PollsMove (.peek buf) Peek.peekable (fun result f => given result f.buf)
      (fun f => f.buf.length = buf.length) f) := by
  obtain ⟨answer, p', hcase, hgives⟩ := pollPeek_gives f.peekable buf.length hfuel
  have hmoved := hcase.onTape hflows
  obtain ⟨buf', hrun, hbuf⟩ := hgives.future f.buf hlen
  have hsat := pollPeek_sat fuel f.peekable f.buf
  simp only [Peek.poll, hrun, Exec.ok_bind] at hsat ⊢
  refine Exec.ends_ok.mpr ⟨given_eq hbuf ▸ hmoved, ?_⟩
  rintro hpending
  obtain rfl : answer = .pending := Poll.mapOk_eq_pending.mp hpending
  exact (congrArg List.length hsat.1).trans hlen

theorem Tokio.Peek.poll_moves {fuel : Nat} {buf : List UInt8} (f : Peek PollScript B)
    (hlen : f.buf.length = buf.length) (hflows : Flows f.peekable.events)
    (hfuel : Script.weight f.peekable.events < fuel) :
    (Peek.poll fuel f).Ends (PollsMove (.peek buf) Peek.peekable (fun result f => given result f.buf)
      (fun f => f.buf.length = buf.length) f) := by
  obtain ⟨answer, p', hcase, hgives⟩ := pollPeek_gives f.peekable buf.length hfuel
  have hmoved := hcase.onTape hflows
  obtain ⟨rb, hrun, hrb⟩ := hgives.tokio (.new f.buf) hlen
  have hsat := pollPeek_sat fuel f.peekable (.new f.buf)
  simp only [Peek.poll, hrun, Exec.ok_bind] at hsat ⊢
  exact Exec.ends_ok.mpr ⟨given_readBuf hrb ▸ hmoved, fun _ => hsat.length.trans hlen⟩

/-- What the future has found still holds when it is polled. -/
def FillPeekBuf.Live (f : FillPeekBuf PollScript B) : Prop :=
  f.original = f.peeker.peeked.length ∧ f.original ≤ f.cap

theorem FillPeekBuf.pollWith_moves (f : FillPeekBuf PollScript B) (hlive : f.Live)
    (hflows : Flows f.peeker.events) :
    (f.pollWith Future.readTail).Ends
      (PollsMove .fillPeekBuf FillPeekBuf.peeker (fun result _ => filled result) Live f) := by
  obtain ⟨p, original, cap⟩ := f
  obtain ⟨horiginal, hle⟩ : original = p.peeked.length ∧ original ≤ cap := hlive
  subst horiginal
  -- so many bytes behind those at hand are a move on the tape
  have hstep {q : Peekable PollScript B} {d : List UInt8} (hq : q.peeked = p.peeked ++ d)
      (hbytes : Script.bytes p.events = d ++ Script.bytes q.events) :
      p.tape.Step .fillPeekBuf (filled (.ok d.length)) q.tape := by
    have htape : p.tape = ⟨p.peeked, d ++ Script.bytes q.events⟩ := congrArg _ hbytes
    have htape' : q.tape = ⟨p.peeked ++ d, Script.bytes q.events⟩ := congrArg (Tape.mk · _) hq
    rw [htape, htape']
    exact .fill
  unfold pollWith
  by_cases hfull : cap = p.peeked.length
  · simp only [if_pos hfull]
    refine Exec.ends_ok.mpr ⟨.ready ?_ hflows, by rintro ⟨⟩⟩
    exact hstep (d := []) (List.append_nil _).symm rfl
  · simp only [if_neg hfull]
    rcases hres : resize p.buffer cap with ⟨e | _, buffer⟩
    · have hok := InfallibleBuffer.resize_succeeds p.buffer cap
      rw [hres] at hok
      cases hok
    · obtain ⟨room, hroom, -⟩ := resize_grow hres hle
      obtain ⟨answer, p₁, hrun, hnext, hpeeked⟩ := readTail_script (p := { p with buffer }) hroom rfl
        (congrArg List.length hroom |>.trans List.length_append)
      change Future.readTail { p with buffer } p.peeked.length _ = _ at hrun
      change p₁.peeked = p.peeked ++ overwrite room _ at hpeeked
      obtain ⟨hcase, hflows'⟩ := hflows.poll hnext
      have hreads := PollScript.next_readsOn hnext
      simp only [hrun, Exec.ok_bind]
      cases hcase with
      | @ok d _ hbytes _ =>
        refine Exec.ends_ok.mpr ⟨.ready ?_ hflows', by rintro ⟨⟩⟩
        exact hstep (peeked_truncate_read hpeeked rfl) hbytes
      | @interrupted e hkind hbytes =>
        have hsame : (p₁.truncate p.peeked.length).peeked = p.peeked := by
          simpa using peeked_truncate_read (d := []) hpeeked rfl
        have htape : (p₁.truncate p.peeked.length).tape = p.tape := by
          rw [Peekable.tape, Tape.of, hsame, Peekable.events_truncate]
          exact congrArg _ hbytes.symm
        have htold : filled (.error e) = .gave (.error .interrupted) [] := by
          rw [← hkind]
          rfl
        refine Exec.ends_ok.mpr ⟨.ready ?_ hflows', by rintro ⟨⟩⟩
        change p.tape.Step _ (filled (.error e)) _
        rw [htape, htold]
        exact .fillInterrupted
      | pending hbytes hpend =>
        have hsame : (p₁.truncate p.peeked.length).peeked = p.peeked := by
          simpa using peeked_truncate_read (d := []) hpeeked rfl
        have htape : (p₁.truncate p.peeked.length).tape = p.tape := by
          rw [Peekable.tape, Tape.of, hsame, Peekable.events_truncate]
          exact congrArg _ hbytes.symm
        exact Exec.ends_ok.mpr ⟨.pending htape hflows' hreads.weight_le hpend,
          fun _ => ⟨congrArg List.length hsame.symm, hle⟩⟩

/-! ## Whole moves -/

omit [LawfulBuffer B] [InfallibleBuffer B]

/-- How a move ends that is seen in the form of its final state. -/
def Final.Shown (final : Final) (out : Answer (Except ErrorKind Nat) × Peekable PollScript B) : Prop :=
  out.1 = final.answer ∧ out.2.tape = final.tape ∧ out.2.events = final.events

theorem Final.Shown.of (result : Except IoError (Option Nat)) (dst : List UInt8)
    (p : Peekable PollScript B) :
    Final.Shown ⟨result, dst, p.peeked, p.events⟩ (told result dst, p) := ⟨rfl, rfl, rfl⟩

theorem Final.OnTape.moved {p : Peekable PollScript B} {op : Whole} {final : Final}
    {out : Answer (Except ErrorKind Nat) × Peekable PollScript B} (h : final.OnTape p.tape op)
    (hshown : final.Shown out) : Moved (.whole op) p out := by
  obtain ⟨hwhole, hflows⟩ := h
  obtain ⟨hanswer, htape, hevents⟩ := hshown
  have hstep := Tape.Step.whole p.tape op
  rw [hwhole] at hstep
  exact ⟨by rw [hanswer, htape]; exact hstep, hevents ▸ hflows⟩

namespace Whole

theorem await_shows (flavour : AsyncFlavour) {polls fuel : Nat} {p : Peekable PollScript B} {op : Whole}
    {final : Final} (h : op.drive flavour polls fuel p = .ok final) :
    (op.await flavour polls fuel p).Ends final.Shown := by
  cases op with
  | exact buf =>
    cases flavour <;> obtain ⟨⟨result, f⟩, hrun, hfinal⟩ := Exec.bind_eq_ok.mp h <;> cases hfinal <;>
      exact ⟨_, by simp only [await, hrun, Exec.ok_bind]; rfl, .of _ _ f.peekable⟩
  | toEnd buf =>
    cases flavour <;> obtain ⟨⟨result, f⟩, hrun, hfinal⟩ := Exec.bind_eq_ok.mp h <;> cases hfinal <;>
      exact ⟨_, by simp only [await, AsyncFlavour.peekToEnd, hrun, Exec.ok_bind]; rfl,
        .of _ _ f.peekable⟩
  | toString buf =>
    cases flavour <;> obtain ⟨⟨result, f⟩, hrun, hfinal⟩ := Exec.bind_eq_ok.mp h <;> cases hfinal <;>
      exact ⟨_, by simp only [await, AsyncFlavour.peekToString, hrun, Exec.ok_bind]; rfl,
        .of _ _ f.peekable⟩

theorem call_shows {fuel : Nat} {p : Peekable Script B} {op : Whole} {final : Final}
    (h : op.sync fuel p = .ok final) :
    (op.call fuel p).Ends fun out => final.Shown (out.1, out.2.lift) := by
  have hshown (result : Except IoError (Option Nat)) (dst : List UInt8) (q : Peekable Script B) :
      Final.Shown ⟨result, dst, q.peeked, q.reader.events⟩ (told result dst, q.lift) := by
    rw [← q.events_lift]
    exact .of result dst q.lift
  cases op <;> obtain ⟨⟨result, dst, q⟩, hrun, hfinal⟩ := Exec.bind_eq_ok.mp h <;> cases hfinal <;>
    exact ⟨_, by simp only [call, hrun, Exec.ok_bind]; rfl, hshown _ _ q⟩

end Whole

section Consume

variable [LawfulBuffer B] {p : Peekable PollScript B}

theorem Moved.consume (hflows : Flows p.events) :
    Moved .consume p (.handed (asSlice p.consume.1), p.consume.2) := by
  have htape : p.consume.2.tape = ⟨[], p.tape.rest⟩ := congrArg (Tape.mk · _) p.peeked_consume
  refine ⟨?_, hflows⟩
  rw [htape]
  exact .consume p.tape

theorem Moved.consumeInPlace (hflows : Flows p.events) : Moved .consumeInPlace p (.done, p.consumeInPlace) := by
  have htape : p.consumeInPlace.tape = ⟨[], p.tape.rest⟩ :=
    congrArg (Tape.mk · _) p.peeked_consumeInPlace
  refine ⟨?_, hflows⟩
  rw [htape]
  exact .consumeInPlace p.tape

end Consume

/-- The move of an asynchronous caller is one on the tape, with fuel and polls enough for it. -/
theorem Move.await_moves [LawfulBuffer B] [InfallibleBuffer B] [AmpleBuffer B] (flavour : AsyncFlavour)
    {polls fuel : Nat} (p : Peekable PollScript B) (hflows : Flows p.events)
    (hfuel : Script.weight p.events < fuel) (hpolls : p.pendings < polls) (move : Move) :
    (move.await flavour polls fuel p).Ends (Moved move p) := by
  cases move with
  | read buf =>
    have hpoll (r : Reading B) (hlen : r.buf.length = buf.length) (hflows : Flows r.peekable.events)
        (_ : Script.weight r.peekable.events < fuel) := flavour.pollRead_moves r hlen hflows
    refine (drive_moved hpoll (s := ⟨p, buf⟩) rfl hflows hfuel hpolls).bind ?_
    intro out hmoved
    exact Exec.ends_ok.mpr hmoved
  | peek buf =>
    cases flavour with
    | future =>
      refine (drive_moved (fun f hlen => Future.Peek.poll_moves f hlen) (s := ⟨p, buf⟩) rfl hflows hfuel
        hpolls).bind ?_
      intro out hmoved
      exact Exec.ends_ok.mpr hmoved
    | tokio =>
      refine (drive_moved (fun f hlen => Tokio.Peek.poll_moves f hlen) (s := ⟨p, buf⟩) rfl hflows hfuel
        hpolls).bind ?_
      intro out hmoved
      exact Exec.ends_ok.mpr hmoved
  | whole op =>
    obtain ⟨final, hrun, htape⟩ := (Whole.always_onTape p hflows op).drive flavour hfuel hpolls
    exact (Whole.await_shows flavour hrun).mono fun out hshown => htape.moved hshown
  | fillPeekBuf =>
    have hflavour : (flavour.fillPeekBuf : FillPeekBuf PollScript B → _) =
        FillPeekBuf.pollWith Future.readTail := by
      cases flavour with
      | future => rfl
      | tokio =>
        funext f
        simp only [AsyncFlavour.fillPeekBuf, Tokio.FillPeekBuf.poll, tokio_readTail_eq]
    have hpoll (f : FillPeekBuf PollScript B) (hlive : f.Live) (hflows : Flows f.peeker.events)
        (_ : Script.weight f.peeker.events < fuel) := f.pollWith_moves hlive hflows
    have hlive : (FillPeekBuf.new p).Live :=
      ⟨len_eq _, (len_eq p.buffer).trans_le (AmpleBuffer.length_le_capacity p.buffer)⟩
    simp only [await, hflavour]
    refine (drive_moved hpoll hlive hflows hfuel hpolls).bind ?_
    intro out hmoved
    exact Exec.ends_ok.mpr hmoved
  | consume => exact Exec.ends_ok.mpr (.consume hflows)
  | consumeInPlace => exact Exec.ends_ok.mpr (.consumeInPlace hflows)

section Synchronous

variable [LawfulBuffer B] {p : Peekable Script B} {q : Peekable PollScript B} {move : Move} {fuel : Nat}
  {answer : Poll (Except IoError (List UInt8))} {buf buf' : List UInt8}

omit [LawfulBuffer B] in
/-- A synchronous call is a poll that is ready. -/
theorem Polled.called {x : Exec (Except IoError Nat × List UInt8 × Peekable Script B)}
    (hpolled : Polled move p.lift q (answer.map answerOf))
    (hbuf : ∀ d, answer = .ready (.ok d) → buf'.take d.length = d)
    (hrun : (fun out => (Poll.ready out.1, out.2.1, out.2.2.lift)) <$> x =
      .ok (answer.mapOk List.length, buf', q)) :
    (x >>= fun (result, buf, p') => pure (given result buf, p')).Ends fun out =>
      Moved move p.lift (out.1, out.2.lift) := by
  obtain ⟨⟨result, dst, p'⟩, hx, hout⟩ := Exec.map_eq_ok.mp hrun
  obtain ⟨hresult, hrest⟩ := Prod.mk.inj hout
  obtain ⟨rfl, rfl⟩ := Prod.mk.inj hrest
  obtain ⟨answer, rfl, rfl⟩ := Poll.ready_of_mapOk hresult
  have htold := given_eq hbuf
  simp only [Poll.mapOk_ready, Poll.map, Poll.ready.injEq] at htold
  simp only [hx, Exec.ok_bind]
  refine Exec.ends_ok.mpr ?_
  cases hpolled with
  | ready step flows => exact ⟨by rw [htold]; exact step, flows⟩

end Synchronous

theorem Flows.calm {es : List Event} (h : Flows es) : Calm es := by
  intro e he hkind
  have hinterrupted : e.kind = .interrupted := h _ he
  rw [hkind] at hinterrupted
  cases hinterrupted

/-- The synchronous `fill_peek_buf` tries again until it is not interrupted. -/
theorem Peekable.fillPeekBuf_moves [LawfulBuffer B] [InfallibleBuffer B] [AmpleBuffer B] {fuel : Nat}
    (p : Peekable Script B) (hflows : Flows p.reader.events)
    (hfuel : Script.weight p.reader.events < fuel) :
    (p.fillPeekBuf fuel).Ends fun out => ∃ d : List UInt8, out.1 = .ok d.length ∧
      out.2.peeked = p.peeked ++ d ∧
      Script.bytes p.reader.events = d ++ Script.bytes out.2.reader.events ∧
      Flows out.2.reader.events := by
  have hle : p.peeked.length ≤ capacity p.buffer := AmpleBuffer.length_le_capacity p.buffer
  simp only [fillPeekBuf, p.len_buffer]
  rcases hres : resize p.buffer (capacity p.buffer) with ⟨e | _, buffer⟩
  · have hok := InfallibleBuffer.resize_succeeds p.buffer (capacity p.buffer)
    rw [hres] at hok
    cases hok
  · obtain ⟨room, hroom, -⟩ := resize_grow hres hle
    obtain ⟨answer, p₁, hrun, hnext, hpeeked⟩ :=
      readRetry_script fuel (p := { p with buffer }) hroom rfl hfuel
    change readRetry fuel { p with buffer } p.peeked.length = _ at hrun
    change Script.next room.length (settled p.reader.events) = _ at hnext
    change p₁.peeked = p.peeked ++ overwrite room _ at hpeeked
    have hsettled : Flows (settled p.reader.events) :=
      fun e he => hflows e ((List.dropWhile_sublist _).subset he)
    simp only [hrun, Exec.ok_bind]
    cases answer with
    | error e => exact absurd (hsettled.interrupted hnext) (next_settled_ne hnext)
    | ok d =>
      have hbytes := (Script.next_ok hnext).2.1
      rw [PeekableReader.bytes_settled] at hbytes
      exact Exec.ends_ok.mpr ⟨d, rfl, peeked_truncate_read hpeeked rfl, hbytes, hsettled.next hnext⟩

/-- And so is the move of a synchronous caller. -/
theorem Move.call_moves [LawfulBuffer B] [InfallibleBuffer B] [AmpleBuffer B] {fuel : Nat}
    (p : Peekable Script B) (hflows : Flows p.reader.events)
    (hfuel : Script.weight p.reader.events < fuel) (move : Move) :
    (move.call fuel p).Ends fun out => Moved move p.lift (out.1, out.2.lift) := by
  have hflows' : Flows p.lift.events := by rwa [p.events_lift]
  have hfuel' : Script.weight p.lift.events < fuel := by rwa [p.events_lift]
  cases move with
  | read buf =>
    obtain ⟨answer, q, hcase, hgives⟩ := pollRead_gives p.lift buf.length
    obtain ⟨buf', hrun, hbuf⟩ := hgives.future buf rfl
    rw [pollRead_lift] at hrun
    exact (hcase.onTape hflows').called hbuf hrun
  | peek buf =>
    obtain ⟨answer, q, hcase, hgives⟩ := pollPeek_gives p.lift buf.length hfuel'
    obtain ⟨buf', hrun, hbuf⟩ := hgives.future buf rfl
    rw [pollPeek_lift p buf hfuel fun e he => hflows.calm.readsOn (.settled _) e (List.mem_of_head? he)]
      at hrun
    exact (hcase.onTape hflows').called hbuf hrun
  | whole op =>
    have hstrip : p.lift.strip = p := by
      rw [Peekable.strip, p.events_lift]
      rfl
    obtain ⟨final, hrun, htape⟩ := (Whole.always_onTape p.lift hflows' op).sync hfuel'
    rw [hstrip] at hrun
    exact (Whole.call_shows hrun).mono fun out hshown => htape.moved hshown
  | fillPeekBuf =>
    apply (p.fillPeekBuf_moves hflows hfuel).bind
    rintro ⟨result, q⟩ ⟨d, rfl, hpeeked, hbytes, hflows⟩
    have htape : p.lift.tape = ⟨p.peeked, d ++ Script.bytes q.lift.events⟩ :=
      congrArg _ ((congrArg _ p.events_lift).trans (hbytes.trans (by rw [q.events_lift])))
    have htape' : q.lift.tape = ⟨p.peeked ++ d, Script.bytes q.lift.events⟩ :=
      congrArg (Tape.mk · _) hpeeked
    refine Exec.ends_ok.mpr ⟨?_, by rwa [q.events_lift]⟩
    rw [htape, htape']
    exact .fill
  | consume => exact Exec.ends_ok.mpr (Moved.consume (p := p.lift) hflows')
  | consumeInPlace => exact Exec.ends_ok.mpr (Moved.consumeInPlace (p := p.lift) hflows')

/-! ## The flavours refine the tape -/

/-- A synchronous move, with fuel enough for the reader. -/
def Move.Called {B : Type} [Buffer B] (p : Peekable Script B) (move : Move)
    (a : Answer (Except ErrorKind Nat)) (p' : Peekable Script B) : Prop :=
  ∃ fuel, Script.weight p.reader.events < fuel ∧ move.call fuel p = .ok (a, p')

/-- An asynchronous move, with fuel and polls enough for the reader. -/
def Move.Awaited {B : Type} [Buffer B] (flavour : AsyncFlavour) (p : Peekable PollScript B)
    (move : Move) (a : Answer (Except ErrorKind Nat)) (p' : Peekable PollScript B) : Prop :=
  ∃ polls fuel, Script.weight p.events < fuel ∧ p.pendings < polls ∧
    move.await flavour polls fuel p = .ok (a, p')

section Refinement

variable (B : Type) [Buffer B] [LawfulBuffer B] [InfallibleBuffer B] [AmpleBuffer B]

theorem Move.called_refines : Refines (Called (B := B)) Tape.Step
    (fun p => Flows p.reader.events) (fun p => p.lift.tape) where
  goes_on p move hflows := by
    obtain ⟨⟨a, p'⟩, hrun, -⟩ := call_moves p hflows (Nat.lt_succ_self _) move
    exact ⟨a, p', _, Nat.lt_succ_self _, hrun⟩
  step p move a p' hflows step := by
    obtain ⟨fuel, hfuel, hrun⟩ := step
    obtain ⟨out, hrun', hstep, hflows'⟩ := call_moves p hflows hfuel move
    rw [hrun] at hrun'
    cases hrun'
    exact ⟨hstep, by rwa [p'.events_lift] at hflows'⟩

theorem Move.awaited_refines (flavour : AsyncFlavour) : Refines (Awaited (B := B) flavour) Tape.Step
    (fun p => Flows p.events) Peekable.tape where
  goes_on p move hflows := by
    obtain ⟨⟨a, p'⟩, hrun, -⟩ :=
      await_moves flavour p hflows (Nat.lt_succ_self _) (Nat.lt_succ_self _) move
    exact ⟨a, p', _, _, Nat.lt_succ_self _, Nat.lt_succ_self _, hrun⟩
  step p move a p' hflows step := by
    obtain ⟨polls, fuel, hfuel, hpolls, hrun⟩ := step
    obtain ⟨out, hrun', hstep, hflows'⟩ := await_moves flavour p hflows hfuel hpolls move
    rw [hrun] at hrun'
    cases hrun'
    exact ⟨hstep, hflows'⟩

end Refinement

end PeekableReader
