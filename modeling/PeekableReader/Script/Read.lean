import PeekableReader.Future.Model
import PeekableReader.Script.Collect
import PeekableReader.Sync.Model
import PeekableReader.Tokio.Model

/-!
# Reading a script into the peek buffer

What one read of a scripted reader does to the spare room of a peek buffer, in all three
flavours. The two asynchronous flavours poll with the tail of the buffer in the same way,
and a synchronous read is a poll of a script that is never pending. What is proved of the
polls of the `future` module therefore carries over to the other two.
-/

namespace PeekableReader

open Buffer

/-- The bytes handed over with an answer. -/
def Poll.bytes : Poll (Except IoError (List UInt8)) → List UInt8
  | .ready (.ok d) => d
  | _ => []

@[simp] theorem overwrite_nil (buf : List UInt8) : overwrite buf [] = buf := by
  simp [overwrite]

theorem overwrite_of_length {buf d : List UInt8} (h : buf.length ≤ d.length) :
    overwrite buf d = d := by
  rw [overwrite, List.drop_of_length_le h, List.append_nil]

/-- Copying further bytes behind those copied before. -/
theorem copyInto_overwrite {buf d d' : List UInt8} (h : d.length + d'.length ≤ buf.length) :
    copyInto (overwrite buf d) d.length (d.length + d'.length) d' = .ok (overwrite buf (d ++ d')) := by
  rw [copyInto_eq _ rfl (by rw [length_overwrite (by omega)]; exact h), take_overwrite]
  simp [overwrite, List.drop_append]

namespace PollScript

variable {room : Nat} {es es' : List PollEvent} {answer : Poll (Except IoError (List UInt8))}

theorem next_bytes_le (h : next room es = (answer, es')) : answer.bytes.length ≤ room := by
  cases answer using Poll.casesResult with
  | ok d => exact ((hands_next h).1 d rfl).1
  | error e => exact Nat.zero_le _
  | pending => exact Nat.zero_le _

/-- A poll of the `future` flavour writes the bytes of the answer to the front. -/
theorem pollRead_eq {s : PollScript} {buf : List UInt8}
    (h : next buf.length s.events = (answer, es')) :
    Future.AsyncRead.pollRead s buf =
      (answer.mapOk List.length, overwrite buf answer.bytes, ⟨es'⟩) := by
  cases answer using Poll.casesResult with
  | ok d => simp [Future.AsyncRead.pollRead, h, Poll.mapOk, Poll.bytes]
  | error e => simp [Future.AsyncRead.pollRead, h, Poll.mapOk, Poll.bytes]
  | pending => simp [Future.AsyncRead.pollRead, h, Poll.mapOk, Poll.bytes]

/-- A poll of the `tokio` flavour appends the bytes of the answer. -/
theorem tokio_pollRead_eq {s : PollScript} (rb : Tokio.ReadBuf)
    (h : next rb.remaining s.events = (answer, es')) :
    Tokio.AsyncRead.pollRead s rb =
      (answer.mapOk fun _ => (), rb.append answer.bytes (next_bytes_le h), ⟨es'⟩) := by
  have hle := next_bytes_le h
  cases answer using Poll.casesResult with
  | ok d =>
    simp only [Poll.bytes] at hle
    simp only [Tokio.AsyncRead.pollRead, h, Poll.mapOk, Poll.bytes, dif_pos hle]
  | error e =>
    simp only [Tokio.AsyncRead.pollRead, h, Poll.mapOk, Poll.bytes, rb.append_nil]
  | pending => simp only [Tokio.AsyncRead.pollRead, h, Poll.mapOk, Poll.bytes, rb.append_nil]

/-- A poll of a script that is never pending is a read. -/
theorem pollRead_lift (s : Script) (buf : List UInt8) :
    Future.AsyncRead.pollRead (mk (lift s.events)) buf =
      (.ready (Read.read s buf).1, (Read.read s buf).2.1, ⟨lift (Read.read s buf).2.2.events⟩) := by
  rw [pollRead_eq (s := mk (lift s.events)) (next_lift buf.length s.events)]
  rcases h : Script.next buf.length s.events with ⟨_ | d, es⟩
  · rw [Script.read_eq_error h]
    simp [Poll.mapOk, Poll.bytes]
  · rw [Script.read_eq_ok h]
    simp [Poll.mapOk, Poll.bytes]

/-- The events from the first one on that is not an interruption. -/
def settled (es : List PollEvent) : List PollEvent :=
  es.dropWhile fun
    | .ready event => event.isInterrupted
    | .pending => false

theorem next_readsOn (h : next room es = (answer, es')) : Script.ReadsOn (strip es) (strip es') := by
  match answer, h with
  | .ready answer, h => exact .next (next_ready h).1
  | .pending, h => rw [(next_pending h).1]; exact .refl _

theorem settled_lift (es : List Event) : settled (lift es) = lift (PeekableReader.settled es) :=
  List.dropWhile_map

/-- A poll that is not answered with `Interrupted` is answered for good. -/
theorem settled_of_next (h : next room es = (answer, es'))
    (hanswer : ∀ e, answer = .ready (.error e) → e.kind ≠ .interrupted) : settled es = es := by
  match es, h with
  | [], _ => rfl
  | .pending :: es, _ => rfl
  | .ready (.data chunk) :: es, _ => rfl
  | .ready (.error e) :: es, h =>
    cases h
    exact List.dropWhile_cons_of_neg (by simpa [Event.isInterrupted] using hanswer e rfl)

theorem settled_of_head
    (h : ∀ e, es.head? = some (.ready (.error e)) → e.kind ≠ .interrupted) : settled es = es := by
  match es, h with
  | [], _ => rfl
  | .pending :: es, _ => rfl
  | .ready (.data chunk) :: es, _ => rfl
  | .ready (.error e) :: es, h =>
    exact List.dropWhile_cons_of_neg (by simpa [Event.isInterrupted] using h e rfl)

/-- An error that is answered is the first event of the script. -/
theorem head_of_next_error {e : IoError} (h : next room es = (.ready (.error e), es')) :
    es.head? = some (.ready (.error e)) := by
  match es, h with
  | .ready (.error e) :: es, h => cases h; rfl

theorem settled_interrupted {e : IoError} (h : next room es = (.ready (.error e), es'))
    (he : e.kind = .interrupted) : settled es = settled es' := by
  match es, h with
  | .ready (.error e) :: es, h =>
    cases h
    exact List.dropWhile_cons_of_pos (by simpa [Event.isInterrupted] using he)

theorem strip_settled (es : List PollEvent) : Script.ReadsOn (strip es) (strip (settled es)) := by
  induction es with
  | nil => exact .refl _
  | cons event es ih =>
    match event with
    | .pending => exact .refl _
    | .ready (.data chunk) => exact .refl _
    | .ready (.error e) =>
      have hnext : next 0 (.ready (.error e) :: es) = (.ready (.error e), es) := rfl
      by_cases he : e.kind = .interrupted
      · rw [settled_interrupted hnext he]
        exact (next_readsOn hnext).trans ih
      · rw [settled_of_next hnext (by rintro e ⟨⟩; exact he)]
        exact .refl _

end PollScript

section Tail

variable {B : Type} [Buffer B]

/-- The two flavours poll a script with the tail of the peek buffer alike. -/
theorem tokio_readTail_eq :
    (Tokio.readTail : TailRead PollScript B) = (Future.readTail : TailRead PollScript B) := by
  funext p lo hi
  refine bind_congr ?_
  intro spare
  rcases h : PollScript.next spare.length p.reader.events with ⟨answer, es⟩
  have htokio := PollScript.tokio_pollRead_eq (Tokio.ReadBuf.new spare) h
  rw [PollScript.pollRead_eq h, htokio]
  have hbuf : ((Tokio.ReadBuf.new spare).append answer.bytes (PollScript.next_bytes_le h)).buf =
      overwrite spare answer.bytes := by
    simp [Tokio.ReadBuf.append, Tokio.ReadBuf.new, Tokio.ReadBuf.filledBytes, overwrite]
  have hpoll : (answer.mapOk fun _ => ()).mapOk (fun _ => answer.bytes.length) =
      answer.mapOk List.length := by
    cases answer using Poll.casesResult with
    | ok d => rfl
    | error e => rfl
    | pending => rfl
  simp [hbuf, hpoll]

theorem readTail_reshapes {p p' : Peekable PollScript B} {lo hi : Nat}
    {poll : Poll (Except IoError Nat)} (h : Future.readTail p lo hi = .ok (poll, p')) :
    Reshapes p.buffer p'.buffer := by
  obtain ⟨spare, -, h⟩ := Exec.bind_eq_ok.mp h
  cases h
  exact Reshapes.refl.setSlice _

theorem readRetry_reshapes (fuel : Nat) {p p' : Peekable Script B} {lo : Nat}
    {result : Except IoError Nat} (h : p.readRetry fuel lo = .ok (result, p')) :
    Reshapes p.buffer p'.buffer := by
  induction fuel generalizing p with
  | zero => cases h
  | succ fuel ih =>
    obtain ⟨⟨result', p₁⟩, hread, h⟩ := Exec.bind_eq_ok.mp h
    have hreshapes : Reshapes p.buffer p₁.buffer := by
      obtain ⟨spare, -, hread⟩ := Exec.bind_eq_ok.mp hread
      cases hread
      exact Reshapes.refl.setSlice _
    cases result' with
    | ok n =>
      cases h
      exact hreshapes
    | error e =>
      by_cases he : e.kind = .interrupted
      · simp only [if_pos he] at h
        exact hreshapes.trans (ih h)
      · simp only [if_neg he] at h
        cases h
        exact hreshapes

/-- A peekable reader of a script, as one that is never pending. -/
def Peekable.lift (p : Peekable Script B) : Peekable PollScript B :=
  ⟨⟨PollScript.lift p.reader.events⟩, p.buffer, p.bufCap⟩

@[simp] theorem Peekable.peeked_lift (p : Peekable Script B) : p.lift.peeked = p.peeked := rfl

omit [Buffer B] in
@[simp] theorem Peekable.buffer_lift (p : Peekable Script B) : p.lift.buffer = p.buffer := rfl

omit [Buffer B] in
theorem Peekable.reader_lift (p : Peekable Script B) :
    p.lift.reader = ⟨PollScript.lift p.reader.events⟩ := rfl

omit [Buffer B] in
theorem Peekable.lift_with_buffer (p : Peekable Script B) (buffer : B) :
    ({ p.lift with buffer } : Peekable PollScript B) =
      ({ p with buffer } : Peekable Script B).lift := rfl

/-- A synchronous read is a poll that is ready. -/
theorem readTail_lift (p : Peekable Script B) (lo hi : Nat) :
    Future.readTail p.lift lo hi =
      (fun out => (.ready out.1, out.2.lift)) <$> Peekable.readSpare p lo hi := by
  simp only [Future.readTail, Peekable.readSpare, Peekable.peeked_lift, map_bind]
  refine bind_congr ?_
  intro spare
  simp only [Peekable.reader_lift, PollScript.pollRead_lift]
  rfl

/-- A synchronous read with retries is a poll with retries that is ready. -/
theorem pollRetry_lift (fuel : Nat) (p : Peekable Script B) (lo : Nat) :
    pollRetry Future.readTail fuel p.lift lo =
      (fun out => (.ready out.1, out.2.lift)) <$> p.readRetry fuel lo := by
  induction fuel generalizing p with
  | zero => rfl
  | succ fuel ih =>
    simp only [pollRetry, Peekable.readRetry, Peekable.peeked_lift, readTail_lift]
    rcases p.readSpare lo p.peeked.length with ⟨⟨e⟩ | ⟨n⟩, q⟩ | why | _
    · simp only [Exec.map_ok, Exec.ok_bind]
      split
      · exact ih q
      · rfl
    · rfl
    · rfl
    · rfl

variable [LawfulBuffer B]

/-- A read with the spare room behind `old`. -/
theorem readTail_script {p : Peekable PollScript B} {old room : List UInt8}
    (h : p.peeked = old ++ room) {lo hi : Nat} (hlo : lo = old.length)
    (hhi : hi = lo + room.length) :
    ∃ answer p', Future.readTail p lo hi = .ok (answer.mapOk List.length, p') ∧
      PollScript.next room.length p.reader.events = (answer, p'.reader.events) ∧
      p'.peeked = old ++ overwrite room answer.bytes := by
  subst hlo hhi
  rcases hnext : PollScript.next room.length p.reader.events with ⟨answer, es⟩
  have hle := PollScript.next_bytes_le hnext
  have hpoll := PollScript.pollRead_eq hnext
  have hset : p.peeked.take old.length ++ overwrite room answer.bytes ++
      p.peeked.drop (old.length + room.length) = old ++ overwrite room answer.bytes := by
    rw [h, List.take_left, ← List.length_append, List.drop_length, List.append_nil]
  refine ⟨answer, ⟨⟨es⟩, setSlice p.buffer (old ++ overwrite room answer.bytes), p.bufCap⟩, ?_, rfl, ?_⟩
  · simp only [Future.readTail, slice_of_append h, Exec.ok_bind, Exec.pure_eq, ← hset]
    rw [hpoll]
  · refine asSlice_setSlice _ ?_
    change _ = p.peeked.length
    rw [h, List.length_append, List.length_append, length_overwrite hle]

/-- What is left of a read after the buffer has been truncated behind the new bytes. -/
theorem peeked_truncate_read {R : Type} {p : Peekable R B} {old room d : List UInt8}
    (h : p.peeked = old ++ overwrite room d) {n : Nat} (hn : n = old.length + d.length) :
    (p.truncate n).peeked = old ++ d := by
  rw [Peekable.peeked_truncate, h, hn, take_append_add, take_overwrite]

/-- The loop of `poll_peek` with the spare room behind `old`. -/
theorem pollRetry_script (fuel : Nat) {p : Peekable PollScript B} {old room : List UInt8}
    (h : p.peeked = old ++ room) {lo : Nat} (hlo : lo = old.length)
    (hfuel : Script.weight (PollScript.strip p.reader.events) < fuel) :
    ∃ answer p', pollRetry Future.readTail fuel p lo = .ok (answer.mapOk List.length, p') ∧
      PollScript.next room.length (PollScript.settled p.reader.events) = (answer, p'.reader.events) ∧
      (∀ e, answer = .ready (.error e) → e.kind ≠ .interrupted) ∧
      p'.peeked = old ++ overwrite room answer.bytes := by
  induction fuel generalizing p with
  | zero => omega
  | succ fuel ih =>
    have hhi : p.peeked.length = lo + room.length := by rw [h, List.length_append, hlo]
    obtain ⟨answer, p₁, hrun, hnext, hpeeked⟩ := readTail_script h hlo hhi
    simp only [pollRetry, hrun, Exec.ok_bind]
    cases answer using Poll.casesResult with
    | ok d =>
      refine ⟨.ready (.ok d), p₁, rfl, ?_, by rintro e ⟨⟩, hpeeked⟩
      rw [PollScript.settled_of_next hnext (by rintro e ⟨⟩), hnext]
    | pending =>
      refine ⟨.pending, p₁, rfl, ?_, by rintro e ⟨⟩, hpeeked⟩
      rw [PollScript.settled_of_next hnext (by rintro e ⟨⟩), hnext]
    | error e =>
      by_cases he : e.kind = .interrupted
      · simp only [Poll.mapOk, if_pos he]
        rw [show (Poll.ready (Except.error e)).bytes = [] from rfl, overwrite_nil] at hpeeked
        have hweight := (Script.next_error (PollScript.next_ready hnext).1).2
        rw [PollScript.settled_interrupted hnext he]
        exact ih hpeeked (by omega)
      · simp only [Poll.mapOk, if_neg he]
        refine ⟨.ready (.error e), p₁, rfl, ?_, by rintro e ⟨⟩; exact he, hpeeked⟩
        rw [PollScript.settled_of_next hnext (by rintro e ⟨⟩; exact he), hnext]

omit [LawfulBuffer B] [Buffer B] in
/-- An answer to a poll that is ready, as an answer to a read. -/
theorem next_of_lift {p' : Peekable Script B} {q : Peekable PollScript B} {room : Nat}
    {es : List Event} {poll : Poll (Except IoError (List UInt8))} {result : Except IoError Nat}
    (hnext : PollScript.next room (PollScript.lift es) = (poll, q.reader.events))
    (hout : (Poll.ready result, p'.lift) = (poll.mapOk List.length, q)) :
    ∃ answer, poll = .ready answer ∧ result = answer.map List.length ∧ q = p'.lift ∧
      Script.next room es = (answer, p'.reader.events) := by
  obtain ⟨hresult, rfl⟩ := Prod.mk.inj hout
  rcases hscript : Script.next room es with ⟨answer, es'⟩
  rw [PollScript.next_lift, hscript] at hnext
  obtain ⟨rfl, hevents⟩ := Prod.mk.inj hnext
  obtain ⟨answer, ⟨⟩, rfl⟩ := Poll.ready_of_mapOk hresult
  have hstrip : p'.reader.events = es' := by
    simpa [Peekable.lift] using (congrArg PollScript.strip hevents).symm
  exact ⟨_, rfl, rfl, rfl, by rw [hstrip]⟩

/-- A synchronous read with the spare room behind `old`. -/
theorem readSpare_script {p : Peekable Script B} {old room : List UInt8}
    (h : p.peeked = old ++ room) {lo hi : Nat} (hlo : lo = old.length)
    (hhi : hi = lo + room.length) :
    ∃ answer p', p.readSpare lo hi = .ok (answer.map List.length, p') ∧
      Script.next room.length p.reader.events = (answer, p'.reader.events) ∧
      p'.peeked = old ++ overwrite room (Poll.ready answer).bytes := by
  obtain ⟨poll, q, hrun, hnext, hpeeked⟩ := readTail_script (p := p.lift) h hlo hhi
  rw [readTail_lift] at hrun
  obtain ⟨⟨result, p'⟩, hread, hout⟩ := Exec.map_eq_ok.mp hrun
  obtain ⟨answer, rfl, rfl, rfl, hscript⟩ := next_of_lift hnext hout
  exact ⟨answer, p', hread, hscript, hpeeked⟩

/-- A synchronous read with retries. -/
theorem readRetry_script (fuel : Nat) {p : Peekable Script B} {old room : List UInt8}
    (h : p.peeked = old ++ room) {lo : Nat} (hlo : lo = old.length)
    (hfuel : Script.weight p.reader.events < fuel) :
    ∃ answer p', p.readRetry fuel lo = .ok (answer.map List.length, p') ∧
      Script.next room.length (settled p.reader.events) = (answer, p'.reader.events) ∧
      p'.peeked = old ++ overwrite room (Poll.ready answer).bytes := by
  have hweight : Script.weight (PollScript.strip p.lift.reader.events) < fuel := by
    simpa [Peekable.lift] using hfuel
  obtain ⟨poll, q, hrun, hnext, -, hpeeked⟩ := pollRetry_script fuel (p := p.lift) h hlo hweight
  rw [pollRetry_lift] at hrun
  obtain ⟨⟨result, p'⟩, hread, hout⟩ := Exec.map_eq_ok.mp hrun
  rw [Peekable.reader_lift, PollScript.settled_lift] at hnext
  obtain ⟨answer, rfl, rfl, rfl, hscript⟩ := next_of_lift hnext hout
  exact ⟨answer, p', hread, hscript, hpeeked⟩

end Tail

end PeekableReader
