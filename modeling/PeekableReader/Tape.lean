import PeekableReader.Tape.Moves

/-!
# Every flavour is a tape with look-ahead

Over a stream that flows, with a buffer that never refuses to grow, every run of every flavour
is a run of the tape: the chunks in which the bytes arrive, what interrupts them, the pending
polls and the kind of buffer are all that it leaves open. A program of moves that do not depend
on what is at hand is therefore answered alike in all flavours, whatever the chunks.
-/

namespace PeekableReader

section Refinement

variable (B : Type) [Buffer B] [LawfulBuffer B] [InfallibleBuffer B] [AmpleBuffer B]

/-- Every program can be run in every flavour, and each of its runs is one on the tape. -/
theorem runs_on_tape :
    (∀ (p : Peekable Script B), Flows p.reader.events →
      (∀ moves, ∃ events p', Run Move.Called p events p' ∧ events.map Prod.fst = moves) ∧
      ∀ events p', Run Move.Called p events p' → Run Tape.Step p.lift.tape events p'.lift.tape) ∧
    ∀ (flavour : AsyncFlavour) (p : Peekable PollScript B), Flows p.events →
      (∀ moves, ∃ events p', Run (Move.Awaited flavour) p events p' ∧ events.map Prod.fst = moves) ∧
      ∀ events p', Run (Move.Awaited flavour) p events p' → Run Tape.Step p.tape events p'.tape := by
  refine ⟨?_, ?_⟩
  · intro p hflows
    have hrefines := Move.called_refines B
    exact ⟨hrefines.exists_run hflows, fun events p' run => (hrefines.run hflows run).1⟩
  · intro flavour p hflows
    have hrefines := Move.awaited_refines B flavour
    exact ⟨hrefines.exists_run hflows, fun events p' run => (hrefines.run hflows run).1⟩

end Refinement

/-- Two chunks with an interruption between them. -/
def chunked : Script := ⟨[.data [1, 2], .error (.ofKind .interrupted), .data [3]]⟩

/-- A look at two bytes, a read of one and a look at the rest. -/
def lookReadLook : List Move := [.whole (.exact [0, 0]), .read [0], .whole (.toEnd [])]

theorem runs_on_tape_script :
    (∃ events p', Run Move.Called (.withBuffer (B := VecBuffer) chunked) events p' ∧
      events.map Prod.fst = lookReadLook) ∧
    ∀ events p', Run Move.Called (.withBuffer (B := VecBuffer) chunked) events p' →
      Run Tape.Step (Peekable.withBuffer (B := VecBuffer) chunked).lift.tape events p'.lift.tape := by
  obtain ⟨hprograms, hruns⟩ := (runs_on_tape VecBuffer).1 (.withBuffer chunked) (by decide)
  exact ⟨hprograms lookReadLook, hruns⟩

/-! ## Programs that leave no choice -/

/-- A run of some flavour with buffers `B`, over some script with the bytes of the tape. -/
inductive Plays (B : Type) [Buffer B] :
    Tape → List (Move × Answer (Except ErrorKind Nat)) → Tape → Prop
  | called {p p' : Peekable Script B} {events : List (Move × Answer (Except ErrorKind Nat))}
      (flows : Flows p.reader.events) (run : Run Move.Called p events p') :
      Plays B p.lift.tape events p'.lift.tape
  | awaited (flavour : AsyncFlavour) {p p' : Peekable PollScript B}
      {events : List (Move × Answer (Except ErrorKind Nat))} (flows : Flows p.events)
      (run : Run (Move.Awaited flavour) p events p') : Plays B p.tape events p'.tape

section Choice

variable {B B' : Type} [Buffer B] [LawfulBuffer B] [InfallibleBuffer B] [AmpleBuffer B]
  [Buffer B'] [LawfulBuffer B'] [InfallibleBuffer B'] [AmpleBuffer B']
  {t t₁ t₂ : Tape} {events events' : List (Move × Answer (Except ErrorKind Nat))}

theorem Plays.run (h : Plays B t events t₁) : Run Tape.Step t events t₁ := by
  cases h with
  | called flows run => exact ((Move.called_refines B).run flows run).1
  | awaited flavour flows run => exact ((Move.awaited_refines B flavour).run flows run).1

/-- Whatever the flavours, the buffers and the chunks: the same program on the same tape is
answered alike, if none of its moves depends on what happens to be at hand. -/
theorem chunks_unnoticed (h : Plays B t events t₁) (h' : Plays B' t events' t₂)
    (hsame : events'.map Prod.fst = events.map Prod.fst)
    (hsure : Determined Tape.Step Tape.Determines (events.map Prod.fst) t) :
    events' = events ∧ t₂ = t₁ :=
  h.run.unique (fun _ _ _ _ _ _ hsure h₁ h₂ => Tape.Step.unique hsure h₁ h₂) h'.run hsame hsure

end Choice

theorem lookReadLook_determined :
    Determined Tape.Step Tape.Determines lookReadLook ⟨[], [1, 2, 3]⟩ := by
  refine ⟨trivial, ?_⟩
  intro a t' hstep
  obtain ⟨-, rfl⟩ := hstep.of_whole
  exact ⟨by decide, fun _ _ _ => ⟨trivial, fun _ _ _ => trivial⟩⟩

/-- Chunks that are read as they come, and the same bytes in whatever other way they come. -/
theorem chunks_unnoticed_split :
    ∃ events t', Plays VecBuffer ⟨[], [1, 2, 3]⟩ events t' ∧ events.map Prod.fst = lookReadLook ∧
      ∀ events' t'', Plays VecBuffer ⟨[], [1, 2, 3]⟩ events' t'' →
        events'.map Prod.fst = lookReadLook → events' = events ∧ t'' = t' := by
  have hflows : Flows (Peekable.withBuffer (B := VecBuffer) chunked).reader.events := by decide
  obtain ⟨events, p', run, hmoves⟩ := (Move.called_refines VecBuffer).exists_run hflows lookReadLook
  refine ⟨events, _, .called hflows run, hmoves, ?_⟩
  intro events' t'' h' hmoves'
  exact chunks_unnoticed (.called hflows run) h' (hmoves'.trans hmoves.symm)
    (hmoves ▸ lookReadLook_determined)

end PeekableReader
