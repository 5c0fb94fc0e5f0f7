import PeekableReader.Lib.Machine
import PeekableReader.Script.Flavours

/-!
# Hard errors of the reader

A read that finds fewer bytes in the peek buffer than it was asked for hands them over
and polls the reader for more. If the reader fails at that point the bytes are returned
and the error is dropped, in the hope that the reader will repeat it. An error that occurs
once is lost, and what follows it may look like a clean end of file.

`noHardError_iff` says exactly which runs lose none: among the runs that end with a read
of no bytes and see no error, those in which no step `Hides` one.
-/

namespace PeekableReader

open PollScript

variable {B : Type} [Buffer B]

/-- The errors of a script that a retry does not get past. -/
def hardErrors (es : List Event) : List IoError :=
  es.filterMap fun
    | .error e => if e.kind.transient then none else some e
    | .data _ => none

/-- An answer that is a hard error. -/
def hardError : Poll (Except IoError (List UInt8)) → List IoError
  | .ready (.error e) => if e.kind.transient then [] else [e]
  | _ => []

theorem hardErrors_read {room : Nat} {es es' : List Event} {answer : Except IoError (List UInt8)}
    (h : Script.next room es = (answer, es')) :
    hardErrors es = hardError (.ready answer) ++ hardErrors es' := by
  match es, h with
  | [], h => cases h; rfl
  | .error e :: es, h =>
    cases h
    simp only [hardErrors, List.filterMap_cons, hardError]
    cases e.kind.transient <;> rfl
  | .data chunk :: es, h =>
    cases h
    split <;> rfl

theorem hardErrors_next {room : Nat} {es es' : List PollEvent}
    {answer : Poll (Except IoError (List UInt8))} (h : next room es = (answer, es')) :
    hardErrors (strip es) = hardError answer ++ hardErrors (strip es') := by
  match answer, h with
  | .ready answer, h => exact hardErrors_read (next_ready h).1
  | .pending, h => rw [(next_pending h).1]; rfl

/-! ## Reading in three flavours -/

/-- A call of `Read::read`, with its answer. -/
def SyncRead (p : Peekable Script B) (buf : List UInt8) (answer : Poll (Except IoError Nat))
    (p' : Peekable Script B) : Prop :=
  ∃ result buf', p.read buf = .ok (result, buf', p') ∧ answer = .ready result

/-- A call of `poll_read` of the `future` flavour. -/
def FutureRead (p : Peekable PollScript B) (buf : List UInt8) (answer : Poll (Except IoError Nat))
    (p' : Peekable PollScript B) : Prop :=
  ∃ buf', Future.pollRead p buf = .ok (answer, buf', p')

/-- A call of `poll_read` of the `tokio` flavour, with the number of bytes appended. -/
def TokioRead (p : Peekable PollScript B) (rb : Tokio.ReadBuf) (answer : Poll (Except IoError Nat))
    (p' : Peekable PollScript B) : Prop :=
  ∃ poll rb', Tokio.pollRead p rb = .ok (poll, rb', p') ∧
    answer = poll.mapOk fun () => rb'.filled - rb.filled

/-- No call saw an error, and the last one read nothing. -/
def ReadsToEnd {ι : Type} (events : List (ι × Poll (Except IoError Nat))) : Prop :=
  (∀ event ∈ events, ∀ e, event.2 ≠ .ready (.error e)) ∧
    ∃ i, events.getLast? = some (i, .ready (.ok 0))

/-- A read of `n` bytes will drop a hard error of the reader: it finds some bytes, but not
enough, and the reader fails when it is asked for the others. -/
def Hides (p : Peekable PollScript B) (n : Nat) : Prop :=
  0 < p.peeked.length ∧ p.peeked.length < n ∧
    hardError (next (n - p.peeked.length) p.reader.events).1 ≠ []

/-- The runs to the end that meet no hard error are those that hide none. -/
def ReportsUnlessHidden {σ ι : Type} (Step : σ → ι → Poll (Except IoError Nat) → σ → Prop)
    (view : σ → Peekable PollScript B) (size : ι → Nat) : Prop :=
  ∀ s₀ events s, Run Step s₀ events s → ReadsToEnd events →
    (hardErrors (view s).events = hardErrors (view s₀).events ↔
      Run (fun s i answer s' => Step s i answer s' ∧ ¬ Hides (view s) (size i)) s₀ events s)

/-! ## What one read does -/

section Step

variable {p p' : Peekable PollScript B} {n : Nat} {answer : Poll (Except IoError (List UInt8))}

theorem ReadCase.hardErrors_suffix (h : ReadCase p n answer p') :
    hardErrors p'.events <:+ hardErrors p.events := by
  cases h with
  | direct _ hnext => exact ⟨_, (hardErrors_next hnext).symm⟩
  | served _ _ _ => exact List.suffix_rfl
  | topped _ _ hnext => exact ⟨_, (hardErrors_next hnext).symm⟩

/-- A read that sees no error meets a hard error exactly if it hides it. -/
theorem ReadCase.hardErrors_eq_iff (h : ReadCase p n answer p')
    (hanswer : ∀ e, answer ≠ .ready (.error e)) :
    hardErrors p'.events = hardErrors p.events ↔ ¬ Hides p n := by
  cases h with
  | direct hempty hnext =>
    have hnone : hardError answer = [] := by
      cases answer using Poll.casesResult with
      | ok d => rfl
      | error e => exact absurd rfl (hanswer e)
      | pending => rfl
    have heq := hardErrors_next hnext
    rw [hnone, List.nil_append] at heq
    exact ⟨fun _ hides => absurd hides.1 (by omega), fun _ => heq.symm⟩
  | served hpos hle _ => exact ⟨fun _ hides => absurd hides.2.1 (by omega), fun _ => rfl⟩
  | @topped poll es hpos hlt hnext =>
    have heq : hardErrors p.events = hardError poll ++ hardErrors (strip es) := hardErrors_next hnext
    have hiff : Hides p n ↔ hardError poll ≠ [] := by
      rw [Hides, hnext]
      exact ⟨fun h => h.2.2, fun h => ⟨hpos, hlt, h⟩⟩
    rw [hiff, heq, not_not]
    exact List.self_eq_append_left

end Step

/-! ## What a run does -/

section Run

variable {σ ι : Type} {Step : σ → ι → Poll (Except IoError Nat) → σ → Prop}
  {view : σ → Peekable PollScript B} {size : ι → Nat}

/-- A flavour whose calls are reads of scripts. -/
theorem reportsUnlessHidden
    (hstep : ∀ s i answer s', Step s i answer s' →
      ∃ poll, ReadCase (view s) (size i) poll (view s') ∧ answer = poll.mapOk List.length) :
    ReportsUnlessHidden Step view size := by
  intro s₀ events s run hend
  have hle (s : σ) (i : ι) (answer) (s' : σ) (h : Step s i answer s') :
      hardErrors (view s').events <:+ hardErrors (view s).events := by
    obtain ⟨poll, hcase, -⟩ := hstep s i answer s' h
    exact hcase.hardErrors_suffix
  have hkeeps (s : σ) (i : ι) (answer) (s' : σ) (h : Step s i answer s')
      (hanswer : ∀ e, answer ≠ .ready (.error e)) :
      (hardErrors (view s').events).length = (hardErrors (view s).events).length ↔
        ¬ Hides (view s) (size i) := by
    obtain ⟨poll, hcase, rfl⟩ := hstep s i answer s' h
    rw [← hcase.hardErrors_eq_iff fun e he => hanswer e (by rw [he]; rfl)]
    exact ⟨hcase.hardErrors_suffix.eq_of_length, congrArg List.length⟩
  have hsuffix : hardErrors (view s).events <:+ hardErrors (view s₀).events :=
    run.invariant (fun t => hardErrors (view t).events <:+ hardErrors (view s₀).events)
      (fun s i answer s' h hs => (hle s i answer s' hs).trans h) List.suffix_rfl
  rw [← run.constant_iff (fun s => (hardErrors (view s).events).length)
    (fun s i answer s' h => (hle s i answer s' h).length_le) hkeeps hend.1]
  exact ⟨congrArg List.length, hsuffix.eq_of_length⟩

end Run

/-! ## The three flavours -/

section Flavours

variable [LawfulBuffer B]

theorem futureRead_case {p p' : Peekable PollScript B} {buf : List UInt8}
    {answer : Poll (Except IoError Nat)} (h : FutureRead p buf answer p') :
    ∃ poll, ReadCase p buf.length poll p' ∧ answer = poll.mapOk List.length := by
  obtain ⟨buf', hrun⟩ := h
  obtain ⟨poll, q, hcase, hgives⟩ := pollRead_gives p buf.length
  obtain ⟨dst, hrun', -⟩ := hgives.future buf rfl
  cases hrun.symm.trans hrun'
  exact ⟨poll, hcase, rfl⟩

theorem syncRead_case {p p' : Peekable Script B} {buf : List UInt8}
    {answer : Poll (Except IoError Nat)} (h : SyncRead p buf answer p') :
    ∃ poll, ReadCase p.lift buf.length poll p'.lift ∧ answer = poll.mapOk List.length := by
  obtain ⟨result, buf', hrun, rfl⟩ := h
  refine futureRead_case ⟨buf', ?_⟩
  rw [pollRead_lift, hrun]
  rfl

theorem tokioRead_case {p p' : Peekable PollScript B} {rb : Tokio.ReadBuf}
    {answer : Poll (Except IoError Nat)} (h : TokioRead p rb answer p') :
    ∃ poll, ReadCase p rb.remaining poll p' ∧ answer = poll.mapOk List.length := by
  obtain ⟨result, rb', hrun, rfl⟩ := h
  obtain ⟨poll, q, hcase, hgives⟩ := pollRead_gives p rb.remaining
  obtain ⟨dst, hrun', hdst⟩ := hgives.tokio rb rfl
  cases hrun.symm.trans hrun'
  refine ⟨poll, hcase, ?_⟩
  cases poll using Poll.casesResult with
  | ok d =>
    have hfilled : rb'.filled = rb.filled + d.length := by
      simpa using congrArg List.length (hdst d rfl)
    simp [Poll.mapOk, hfilled]
  | error e => rfl
  | pending => rfl

end Flavours

theorem noHardError_iff [LawfulBuffer B] :
    ReportsUnlessHidden (SyncRead (B := B)) Peekable.lift List.length ∧
      ReportsUnlessHidden (FutureRead (B := B)) id List.length ∧
        ReportsUnlessHidden (TokioRead (B := B)) id Tokio.ReadBuf.remaining :=
  ⟨reportsUnlessHidden fun _ _ _ _ h => syncRead_case h,
    reportsUnlessHidden fun _ _ _ _ h => futureRead_case h,
    reportsUnlessHidden fun _ _ _ _ h => tokioRead_case h⟩

/-- A read for more than the peek buffer holds, of a script that only has more data. -/
theorem noHardError_iff_clean :
    Run (fun p buf answer p' => SyncRead p buf answer p' ∧ ¬ Hides p.lift buf.length)
      ⟨⟨[.data [2]]⟩, (⟨[1]⟩ : BoundedBuffer 2), none⟩
      [([0, 0], .ready (.ok 2)), ([0, 0], .ready (.ok 0))] ⟨⟨[]⟩, (⟨[]⟩ : BoundedBuffer 2), none⟩ := by
  have hfirst : SyncRead ⟨⟨[.data [2]]⟩, (⟨[1]⟩ : BoundedBuffer 2), none⟩ [0, 0] (.ready (.ok 2))
      ⟨⟨[]⟩, (⟨[]⟩ : BoundedBuffer 2), none⟩ := ⟨.ok 2, [1, 2], rfl, rfl⟩
  have hlast : SyncRead ⟨⟨[]⟩, (⟨[]⟩ : BoundedBuffer 2), none⟩ [0, 0] (.ready (.ok 0))
      ⟨⟨[]⟩, (⟨[]⟩ : BoundedBuffer 2), none⟩ := ⟨.ok 0, [0, 0], rfl, rfl⟩
  exact (noHardError_iff.1 _ _ _ ((Run.nil.snoc hfirst).snoc hlast)
    ⟨by simp, _, rfl⟩).mp rfl

/-- The connection is reset while a read tops up the one byte peeked, and nothing is seen of
it in any flavour. -/
theorem hardError_hidden :
    (∃ events p, Run SyncRead
        ⟨⟨[.error (.ofKind .connectionReset)]⟩, (⟨[1]⟩ : BoundedBuffer 2), none⟩ events p ∧
      ReadsToEnd events ∧
      hardErrors p.lift.events ≠ hardErrors [.error (.ofKind .connectionReset)]) ∧
    (∃ events p, Run FutureRead
        ⟨⟨[.ready (.error (.ofKind .connectionReset))]⟩, (⟨[1]⟩ : BoundedBuffer 2), none⟩ events p ∧
      ReadsToEnd events ∧ hardErrors p.events ≠ hardErrors [.error (.ofKind .connectionReset)]) ∧
    ∃ events p, Run TokioRead
        ⟨⟨[.ready (.error (.ofKind .connectionReset))]⟩, (⟨[1]⟩ : BoundedBuffer 2), none⟩ events p ∧
      ReadsToEnd events ∧ hardErrors p.events ≠ hardErrors [.error (.ofKind .connectionReset)] := by
  refine ⟨⟨[([0, 0], .ready (.ok 1)), ([0, 0], .ready (.ok 0))], ⟨⟨[]⟩, ⟨[]⟩, none⟩, ?_, ?_, ?_⟩,
    ⟨[([0, 0], .ready (.ok 1)), ([0, 0], .ready (.ok 0))], ⟨⟨[]⟩, ⟨[]⟩, none⟩, ?_, ?_, ?_⟩,
    ⟨[(.new [0, 0], .ready (.ok 1)), (.new [0, 0], .ready (.ok 0))], ⟨⟨[]⟩, ⟨[]⟩, none⟩, ?_, ?_, ?_⟩⟩
  · exact (Run.nil.snoc ⟨.ok 1, [1, 0], rfl, rfl⟩).snoc ⟨.ok 0, [0, 0], rfl, rfl⟩
  · exact ⟨by simp, _, rfl⟩
  · decide
  · exact (Run.nil.snoc ⟨[1, 0], rfl⟩).snoc ⟨[0, 0], rfl⟩
  · exact ⟨by simp, _, rfl⟩
  · decide
  · exact (Run.nil.snoc ⟨.ready (.ok ()), ⟨[1, 0], 1, by decide⟩, rfl, rfl⟩).snoc
      ⟨.ready (.ok ()), ⟨[0, 0], 0, by decide⟩, rfl, rfl⟩
  · exact ⟨by simp, _, rfl⟩
  · decide

end PeekableReader
