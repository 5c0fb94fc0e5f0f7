import PeekableReader.Future.Session
import PeekableReader.Tape.Moves
import PeekableReader.Tokio.Session

/-!
# Futures that are started and dropped

Between its moves an asynchronous caller may start futures, poll them, and drop them when they
are pending or let them end. All this moves nothing but the boundary of the look-ahead: what is
left of the stream is the same, and so is every answer that depends on nothing else.
-/

namespace PeekableReader

open Buffer Ledger

/-! ## Calls that deliver nothing -/

/-- The inputs of a session that read nothing and throw nothing away. -/
def Future.Input.Looks : Input → Prop
  | .pollRead _ | .consume | .consumeInPlace => False
  | _ => True

def Tokio.Input.Looks {W : Type} : Input W → Prop
  | .pollRead _ | .consume | .consumeInPlace => False
  | _ => True

theorem PeekExact.delivered_seen {R B α : Type} (poll : Poll (Except IoError α)) (f : PeekExact R B) :
    (f.seen poll).delivered = [] := by
  cases poll using Poll.casesResult <;> rfl

section Delivered

variable {R W B : Type} [Buffer B] {fuel : Nat}

theorem Future.Session.react_looks [AsyncRead R] {s : Session R B} {i : Input} (hi : i.Looks)
    {x : Exec (Seen × Session R B)} (hx : s.react fuel i = some x) :
    x.Post fun out => out.1.delivered = [] := by
  cases s <;> cases i <;> cases hx <;> first
    | exact hi.elim
    | exact Exec.post_ok.mpr rfl
    | exact .skip _ fun _ => Exec.post_ok.mpr rfl
    | exact .skip _ fun _ => Exec.post_ok.mpr (PeekExact.delivered_seen _ _)

theorem Tokio.Session.react_looks [AsyncRead R] [BufMut W] {s : Session R W B} {i : Input W}
    (hi : i.Looks) {x : Exec (Seen × Session R W B)} (hx : s.react fuel i = some x) :
    x.Post fun out => out.1.delivered = [] := by
  cases s <;> cases i <;> cases hx <;> first
    | exact hi.elim
    | exact Exec.post_ok.mpr rfl
    | exact .skip _ fun _ => Exec.post_ok.mpr rfl
    | exact .skip _ fun _ => Exec.post_ok.mpr (PeekExact.delivered_seen _ _)

end Delivered

/-! ## The ledger of a stream that flows -/

/-- The bytes a script hands over, and that it goes on to flow if it did. -/
@[reducible] def flowing : Ledger PollScript UInt8 where
  Hands s d s' := Script.bytes (PollScript.strip s.events) = d ++ Script.bytes (PollScript.strip s'.events) ∧
    (Flows (PollScript.strip s.events) → Flows (PollScript.strip s'.events))
  refl _ := ⟨rfl, id⟩
  trans h h' := ⟨by rw [h.1, h'.1, List.append_assoc], fun hflows => h'.2 (h.2 hflows)⟩

theorem flowing_hands {room : Nat} {es es' : List PollEvent} {answer : Poll (Except IoError (List UInt8))}
    (hnext : PollScript.next room es = (answer, es')) :
    flowing.Hands (PollScript.mk es) answer.bytes (PollScript.mk es') := by
  obtain ⟨hsome, hnone⟩ := PollScript.hands_next hnext
  have hflows : Flows (PollScript.strip es) → Flows (PollScript.strip es') := fun h => (h.poll hnext).2
  refine ⟨?_, hflows⟩
  cases answer using Poll.casesResult with
  | ok d => exact PollScript.hands_iff.mp (hsome d rfl).2
  | error e => exact PollScript.hands_iff.mp (hnone (by simp))
  | pending => exact PollScript.hands_iff.mp (hnone (by simp))

theorem flowing_lawful : @Future.LawfulAsyncRead PollScript _ flowing := by
  refine @Future.LawfulAsyncRead.mk PollScript _ flowing inferInstance ?_ ?_
  · intro s s' buf buf' n h
    rcases hnext : PollScript.next buf.length s.events with ⟨answer, es⟩
    have hands := flowing_hands hnext
    rw [PollScript.pollRead_eq hnext] at h
    obtain ⟨hanswer, hrest⟩ := Prod.mk.inj h
    obtain ⟨rfl, rfl⟩ := Prod.mk.inj hrest
    cases answer using Poll.casesResult with
    | ok d =>
      cases hanswer
      rw [show (Poll.ready (Except.ok d)).bytes = d from rfl, take_overwrite]
      exact hands
    | error e => cases hanswer
    | pending => cases hanswer
  · intro s s' buf buf' poll h hpoll
    rcases hnext : PollScript.next buf.length s.events with ⟨answer, es⟩
    have hands := flowing_hands hnext
    rw [PollScript.pollRead_eq hnext] at h
    cases answer using Poll.casesResult with
    | ok d => cases h; cases hpoll
    | error e => cases h; exact hands
    | pending => cases h; exact hands

theorem flowing_lawful_tokio : @Tokio.LawfulAsyncRead PollScript _ flowing := by
  refine @Tokio.LawfulAsyncRead.mk PollScript _ flowing inferInstance ?_ ?_
  · intro s s' rb rb' h
    rcases hnext : PollScript.next rb.remaining s.events with ⟨answer, es⟩
    have hands := flowing_hands hnext
    rw [PollScript.tokio_pollRead_eq rb hnext] at h
    obtain ⟨-, hrest⟩ := Prod.mk.inj h
    obtain ⟨rfl, rfl⟩ := Prod.mk.inj hrest
    exact ⟨answer.bytes, rb.filledBytes_append _ _, hands⟩
  · intro s s' rb rb' poll h hpoll
    rcases hnext : PollScript.next rb.remaining s.events with ⟨answer, es⟩
    have hands := flowing_hands hnext
    rw [PollScript.tokio_pollRead_eq rb hnext] at h
    cases answer using Poll.casesResult with
    | ok d => cases h; exact absurd rfl hpoll
    | error e => cases h; exact ⟨by simp [Poll.bytes], hands⟩
    | pending => cases h; exact ⟨by simp [Poll.bytes], hands⟩

/-! ## Between two moves -/

variable {B : Type} [Buffer B]

/-- Some calls of one flavour that deliver nothing, at whatever point they are broken off. -/
def AsyncFlavour.Interlude (flavour : AsyncFlavour) (p q : Peekable PollScript B) : Prop :=
  match flavour with
  | .future => ∃ events s, Run Future.Session.Step (.idle p) events s ∧
      (∀ event ∈ events, event.1.Looks) ∧ s.held = q
  | .tokio => ∃ events s, Run (Tokio.Session.Step (W := Tokio.SliceSink)) (.idle p) events s ∧
      (∀ event ∈ events, event.1.Looks) ∧ s.held = q

/-- Steps that are transparent and deliver nothing move nothing but the boundary of the
look-ahead. -/
theorem same_bytes_of_run {σ ι : Type} {Step : σ → ι → Seen → σ → Prop} {Looks : ι → Prop}
    (Inv : σ → Prop) (held : σ → Peekable PollScript B) {s₀ s : σ} {events : List (ι × Seen)}
    (hstep : ∀ s i seen s', Inv s → Step s i seen s' →
      Inv s' ∧ @Transparent PollScript B _ flowing (held s) seen (held s'))
    (hlooks : ∀ s i seen s', Step s i seen s' → Looks i → seen.delivered = [])
    (run : Run Step s₀ events s) (h₀ : Inv s₀) (hevents : ∀ event ∈ events, Looks event.1)
    (hflows : Flows (held s₀).events) :
    (held s).tape.bytes = (held s₀).tape.bytes ∧ Flows (held s).events := by
  let _ := flowing
  have hands : Hands (held s₀) (events.flatMap (·.2.delivered)) (held s) :=
    run.hands held Seen.delivered
      (fun s i o s' h hs => ⟨(hstep s i o s' h hs).1, (hstep s i o s' h hs).2.1⟩) h₀
  have hsilent := run.forall_event (P := fun event => Looks event.1 → event.2.delivered = []) hlooks
  have hnil : events.flatMap (·.2.delivered) = [] :=
    List.flatMap_eq_nil_iff.mpr fun event hevent => hsilent event hevent (hevents event hevent)
  rw [hnil] at hands
  obtain ⟨e, ⟨hbytes, hflows'⟩, hpeeked⟩ := hands
  refine ⟨?_, hflows' hflows⟩
  change (held s).peeked ++ Script.bytes (held s).events =
    (held s₀).peeked ++ Script.bytes (held s₀).events
  rw [show Script.bytes (held s₀).events = e ++ Script.bytes (held s).events from hbytes,
    ← List.append_assoc, hpeeked, List.nil_append]

theorem AsyncFlavour.Interlude.same_bytes [LawfulBuffer B] {flavour : AsyncFlavour}
    {p q : Peekable PollScript B} (h : flavour.Interlude p q) (hflows : Flows p.events) :
    q.tape.bytes = p.tape.bytes ∧ Flows q.events := by
  let _ := flowing
  cases flavour with
  | future =>
    have := flowing_lawful
    obtain ⟨events, s, run, hlooks, rfl⟩ := h
    refine same_bytes_of_run Future.Session.Inv Future.Session.held ?_ ?_ run trivial hlooks hflows
    · rintro s i seen s' hs ⟨fuel, x, hx, hout⟩
      exact Future.Session.react_post hs hx _ hout
    · rintro s i seen s' ⟨fuel, x, hx, hout⟩ hi
      exact Future.Session.react_looks hi hx _ hout
  | tokio =>
    have := flowing_lawful_tokio
    obtain ⟨events, s, run, hlooks, rfl⟩ := h
    refine same_bytes_of_run Tokio.Session.Inv Tokio.Session.held ?_ ?_ run trivial hlooks hflows
    · rintro s i seen s' hs ⟨fuel, x, hx, hout⟩
      exact Tokio.Session.react_post hs hx _ hout
    · rintro s i seen s' ⟨fuel, x, hx, hout⟩ hi
      exact Tokio.Session.react_looks hi hx _ hout

/-- A move after an interlude. A read or a peek asks for no more than has been peeked. -/
def Move.Resumed (flavour : AsyncFlavour) (p : Peekable PollScript B) (move : Move)
    (a : Answer (Except ErrorKind Nat)) (p' : Peekable PollScript B) : Prop :=
  ∃ q, flavour.Interlude p q ∧ q.tape.Decides move ∧ move.Awaited flavour q a p'

/-- Two callers with the same bytes before them get the same answers, whatever futures each of
them starts and drops between its moves, and however the bytes arrive. -/
theorem interludes_unnoticed {B B' : Type} [Buffer B] [LawfulBuffer B] [InfallibleBuffer B]
    [AmpleBuffer B] [Buffer B'] [LawfulBuffer B'] [InfallibleBuffer B'] [AmpleBuffer B']
    (flavour flavour' : AsyncFlavour) {p p' : Peekable PollScript B} {q q' : Peekable PollScript B'}
    {events events' : List (Move × Answer (Except ErrorKind Nat))} (hp : Flows p.events)
    (hq : Flows q.events) (hbytes : p.tape.bytes = q.tape.bytes)
    (run : Run (Move.Resumed flavour) p events p') (run' : Run (Move.Resumed flavour') q events' q')
    (hsame : events'.map Prod.fst = events.map Prod.fst) :
    events' = events ∧ p'.tape.bytes = q'.tape.bytes := by
  have hstep (s : Peekable PollScript B) (t : Peekable PollScript B') (move : Move)
      (a : Answer (Except ErrorKind Nat)) (s' : Peekable PollScript B)
      (a' : Answer (Except ErrorKind Nat)) (t' : Peekable PollScript B')
      (h : (Flows s.events ∧ Flows t.events) ∧ s.tape.bytes = t.tape.bytes)
      (step : move.Resumed flavour s a s') (step' : move.Resumed flavour' t a' t') :
      a' = a ∧ (Flows s'.events ∧ Flows t'.events) ∧ s'.tape.bytes = t'.tape.bytes := by
    obtain ⟨⟨hs, ht⟩, hbytes⟩ := h
    obtain ⟨u, hinterlude, hdecides, hawaited⟩ := step
    obtain ⟨v, hinterlude', hdecides', hawaited'⟩ := step'
    obtain ⟨hu, hflows⟩ := hinterlude.same_bytes hs
    obtain ⟨hv, hflows'⟩ := hinterlude'.same_bytes ht
    obtain ⟨hmoved, hs'⟩ := (Move.awaited_refines B flavour).step _ _ _ _ hflows hawaited
    obtain ⟨hmoved', ht'⟩ := (Move.awaited_refines B' flavour').step _ _ _ _ hflows' hawaited'
    obtain ⟨hanswer, hrest⟩ :=
      Tape.Step.same_bytes (hu.trans (hbytes.trans hv.symm)) hdecides hdecides' hmoved hmoved'
    exact ⟨hanswer, ⟨hs', ht'⟩, hrest⟩
  obtain ⟨hevents, -, hrest⟩ := run.same hstep run' ⟨⟨hp, hq⟩, hbytes⟩ hsame
  exact ⟨hevents, hrest⟩

theorem AsyncFlavour.Interlude.refl (flavour : AsyncFlavour) (p : Peekable PollScript B) :
    flavour.Interlude p p := by
  cases flavour with
  | future => exact ⟨[], .idle p, .nil, by simp, rfl⟩
  | tokio => exact ⟨[], .idle p, .nil, by simp, rfl⟩

/-- One byte, and two that are not ready at first. -/
def hesitant : PollScript := ⟨[.ready (.data [1]), .pending, .ready (.data [2, 3])]⟩

/-- A future for three bytes is dropped when it is pending; then two are peeked and read. -/
theorem interludes_unnoticed_dropped :
    ∃ events p', Run (Move.Resumed .future) (.withBuffer (B := VecBuffer) hesitant) events p' ∧
      events.map Prod.fst = [.whole (.exact [0, 0]), .read [0, 0]] ∧
      ∀ events' q', Run (Move.Resumed .tokio)
          (.withBuffer (B := VecBuffer) ⟨[.ready (.data [1, 2, 3])]⟩) events' q' →
        events'.map Prod.fst = [.whole (.exact [0, 0]), .read [0, 0]] → events' = events := by
  have started : Future.Session.Step (.idle (.withBuffer (B := VecBuffer) hesitant))
      (.peekExact [0, 0, 0]) _ _ := ⟨0, _, rfl, rfl⟩
  have polled : Future.Session.Step
      (.peekExact (.new (.withBuffer (B := VecBuffer) hesitant) [0, 0, 0])) .poll _ _ :=
    ⟨3, _, rfl, rfl⟩
  obtain ⟨q, hinterlude, hflows, htape⟩ : ∃ q : Peekable PollScript VecBuffer,
      AsyncFlavour.future.Interlude (.withBuffer hesitant) q ∧ Flows q.events ∧
        q.tape = ⟨[1], [2, 3]⟩ :=
    ⟨_, ⟨_, _, (Run.nil.snoc started).snoc polled, by simp [Future.Input.Looks], rfl⟩, by decide, rfl⟩
  have hrefines := Move.awaited_refines VecBuffer .future
  obtain ⟨a, p₁, hpeek⟩ := hrefines.goes_on q (.whole (.exact [0, 0])) hflows
  obtain ⟨hstep, hflows₁⟩ := hrefines.step _ _ _ _ hflows hpeek
  obtain ⟨-, htape₁⟩ := hstep.of_whole
  rw [htape] at htape₁
  obtain ⟨a', p₂, hread⟩ := hrefines.goes_on p₁ (.read [0, 0]) hflows₁
  have hcovered : p₁.tape.Decides (.read [0, 0]) := by
    rw [htape₁]
    exact ⟨by decide, by decide⟩
  have hwhole : q.tape.Decides (.whole (.exact [0, 0])) := trivial
  have run : Run (Move.Resumed .future) (.withBuffer (B := VecBuffer) hesitant) _ p₂ :=
    (Run.nil.snoc ⟨q, hinterlude, hwhole, hpeek⟩).snoc ⟨p₁, .refl _ _, hcovered, hread⟩
  have hp : Flows (Peekable.withBuffer (B := VecBuffer) hesitant).events := by decide
  refine ⟨_, p₂, run, rfl, ?_⟩
  intro events' q' run' hmoves
  have hq : Flows (Peekable.withBuffer (B := VecBuffer)
      (PollScript.mk [.ready (.data [1, 2, 3])])).events := by decide
  exact (interludes_unnoticed .future .tokio hp hq rfl run run' hmoves).1

end PeekableReader
