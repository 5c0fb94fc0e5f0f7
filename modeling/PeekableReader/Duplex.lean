import PeekableReader.Future.Alike
import PeekableReader.Io.Write
import PeekableReader.Script.Basic
import PeekableReader.Sync.Calls
import PeekableReader.Tokio.Alike

/-!
# Peeking at one half of a connection and writing to the other

A peekable reader over a connection with two independent halves hands writes on and keeps
its peek buffer out of them. Over any session in which calls that read or peek and calls that
write come in any order, the former answer as they would without the latter, and the latter
reach the writing half as they were made, with its answers.
-/

namespace PeekableReader

variable {R R' R'' I I' I'' O O' O'' W B : Type} [Buffer B]

/-! ## Connections -/

/-- Reading from `R` is reading from its one half, and writing to it is writing to the other. -/
structure Halves [Read R] [Write R] [Read I] [Write O] (inn : R → I) (out : R → O) : Prop where
  read (r : R) (buf : List UInt8) : Agree (Agree fun r' i => inn r' = i ∧ out r' = out r)
    (Read.read r buf) (Read.read (inn r) buf)
  write {r r' : R} {k : WriteCall} {b : Written (Except IoError)} (h : WriteStep r k b r') :
    WriteStep (out r) k b (out r') ∧ inn r' = inn r

structure Future.Halves [Future.AsyncRead R] [AsyncWrite R] [Future.AsyncRead I] [AsyncWrite O]
    (inn : R → I) (out : R → O) : Prop where
  read (r : R) (buf : List UInt8) : Agree (Agree fun r' i => inn r' = i ∧ out r' = out r)
    (AsyncRead.pollRead r buf) (AsyncRead.pollRead (inn r) buf)
  write {r r' : R} {k : WriteCall} {b : Written fun α => Poll (Except IoError α)}
    (h : AsyncWriteStep r k b r') : AsyncWriteStep (out r) k b (out r') ∧ inn r' = inn r

structure Tokio.Halves [Tokio.AsyncRead R] [AsyncWrite R] [Tokio.AsyncRead I] [AsyncWrite O]
    (inn : R → I) (out : R → O) : Prop where
  read (r : R) (rb : ReadBuf) : Agree (Agree fun r' i => inn r' = i ∧ out r' = out r)
    (AsyncRead.pollRead r rb) (AsyncRead.pollRead (inn r) rb)
  write {r r' : R} {k : WriteCall} {b : Written fun α => Poll (Except IoError α)}
    (h : AsyncWriteStep r k b r') : AsyncWriteStep (out r) k b (out r') ∧ inn r' = inn r

/-- A reader and a writer put together are independent. -/
theorem Join.halves [Read I] [Write O] : Halves (Join.reader : Join I O → I) Join.writer where
  read j buf := ⟨rfl, rfl, rfl, rfl⟩
  write {j j' k b} h := by
    cases h with
    | write buf => exact ⟨.write buf, rfl⟩
    | flush => exact ⟨.flush, rfl⟩

/-! ## Sessions -/

/-- A call of a session, or a call that writes. The latter needs the peekable reader at hand,
and not lent to a future. -/
inductive DuplexStep {σ ι α κ β : Type} (call : Nat → ι → σ → Exec (α × σ))
    (WStep : Peekable R B → κ → β → Peekable R B → Prop) (idle : Peekable R B → σ) :
    σ → ι ⊕ κ → α ⊕ β → σ → Prop
  | read {s s' : σ} {i : ι} {a : α} (h : CallStep call s i a s') :
    DuplexStep call WStep idle s (.inl i) (.inl a) s'
  | write {p p' : Peekable R B} {k : κ} {b : β} (h : WStep p k b p') :
    DuplexStep call WStep idle (idle p) (.inr k) (.inr b) (idle p')

/-- Related to its reading half, with this writing half. -/
def HalfOf (inn : R → I) (out : R → O) (o : O) (r : R) (i : I) : Prop := inn r = i ∧ out r = o

omit [Buffer B] in
/-- A write through a peekable reader is a write to its reader. -/
theorem write_through [Write R] {p p' : Peekable R B} {k : WriteCall} {b : Written (Except IoError)}
    (h : WriteStep p k b p') : WriteStep p.reader k b p'.reader ∧ p' = { p with reader := p'.reader } := by
  cases h with
  | write buf => exact ⟨.write buf, rfl⟩
  | flush => exact ⟨.flush, rfl⟩

omit [Buffer B] in
theorem asyncWrite_through [AsyncWrite R] {p p' : Peekable R B} {k : WriteCall}
    {b : Written fun α => Poll (Except IoError α)} (h : AsyncWriteStep p k b p') :
    AsyncWriteStep p.reader k b p'.reader ∧ p' = { p with reader := p'.reader } := by
  cases h with
  | write buf => exact ⟨.write buf, rfl⟩
  | flush => exact ⟨.flush, rfl⟩
  | close => exact ⟨.close, rfl⟩

omit [Buffer B] in
/-- Writes that agree with those of the writing half, beside calls that agree with those of the
reading half. -/
theorem DuplexStep.split {σ τ ι α κ β : Type} {call : Nat → ι → σ → Exec (α × σ)}
    {call' : Nat → ι → τ → Exec (α × τ)} {WStep : Peekable R B → κ → β → Peekable R B → Prop}
    {idle : Peekable R B → σ} {OStep : O → κ → β → O → Prop} (Sim : O → σ → τ → Prop)
    (hcall : ∀ o fuel i s t, Sim o s t → Exec.Rel (Agree (Sim o)) (call fuel i s) (call' fuel i t))
    (hwrite : ∀ o p k b p' t, Sim o (idle p) t → WStep p k b p' →
      ∃ o', OStep o k b o' ∧ Sim o' (idle p') t)
    {s₀ s : σ} {t₀ : τ} {o₀ : O} {events : List ((ι ⊕ κ) × (α ⊕ β))}
    (run : Run (DuplexStep call WStep idle) s₀ events s) (h₀ : Sim o₀ s₀ t₀) :
    ∃ t o, Run (CallStep call') t₀ (events.filterMap leftEvent) t ∧
      Run OStep o₀ (events.filterMap rightEvent) o ∧ Sim o s t := by
  refine run.split (fun s t o => Sim o s t) ?_ ?_ h₀
  · intro s t o i out s' h step
    cases step with
    | read hstep =>
      obtain ⟨fuel, hrun⟩ := hstep
      obtain ⟨⟨a, t'⟩, hrun', hsame, h'⟩ := (hcall o fuel i s t h).ok_left hrun
      cases hsame
      exact ⟨_, t', rfl, ⟨fuel, hrun'⟩, h'⟩
  · intro s t o k out s' h step
    cases step with
    | write hstep =>
      obtain ⟨o', hstep', h'⟩ := hwrite o _ k _ _ t h hstep
      exact ⟨_, o', rfl, hstep', h'⟩

omit [Buffer B] in
/-- A peekable reader stays related when only its writing half changes. -/
theorem Alike.rewrite {inn : R → I} {out : R → O} {o : O} {p p' : Peekable R B} {q : Peekable I B}
    (h : Alike (HalfOf inn out o) Eq p q) (hp' : p' = { p with reader := p'.reader })
    (hsame : inn p'.reader = inn p.reader) :
    out p.reader = o ∧ Alike (HalfOf inn out (out p'.reader)) Eq p' q := by
  obtain ⟨⟨hin, hout⟩, hbuf, hcap⟩ := h
  refine ⟨hout, ⟨hsame.trans hin, rfl⟩, ?_, ?_⟩
  · rw [hp']
    exact hbuf
  · rw [hp']
    exact hcap

omit [Buffer B] in
theorem write_alike [Write R] [Write O] {inn : R → I} {out : R → O}
    (hwrite : ∀ {r r' : R} {k : WriteCall} {b : Written (Except IoError)}, WriteStep r k b r' →
      WriteStep (out r) k b (out r') ∧ inn r' = inn r)
    {o : O} {p p' : Peekable R B} {q : Peekable I B} {k : WriteCall} {b : Written (Except IoError)}
    (h : Alike (HalfOf inn out o) Eq p q) (step : WriteStep p k b p') :
    ∃ o', WriteStep o k b o' ∧ Alike (HalfOf inn out o') Eq p' q := by
  obtain ⟨hstep, hp'⟩ := write_through step
  obtain ⟨hstep', hsame⟩ := hwrite hstep
  obtain ⟨rfl, h'⟩ := h.rewrite hp' hsame
  exact ⟨_, hstep', h'⟩

omit [Buffer B] in
theorem asyncWrite_alike [AsyncWrite R] [AsyncWrite O] {inn : R → I} {out : R → O}
    (hwrite : ∀ {r r' : R} {k : WriteCall} {b : Written fun α => Poll (Except IoError α)},
      AsyncWriteStep r k b r' → AsyncWriteStep (out r) k b (out r') ∧ inn r' = inn r)
    {o : O} {p p' : Peekable R B} {q : Peekable I B} {k : WriteCall}
    {b : Written fun α => Poll (Except IoError α)} (h : Alike (HalfOf inn out o) Eq p q)
    (step : AsyncWriteStep p k b p') :
    ∃ o', AsyncWriteStep o k b o' ∧ Alike (HalfOf inn out o') Eq p' q := by
  obtain ⟨hstep, hp'⟩ := asyncWrite_through step
  obtain ⟨hstep', hsame⟩ := hwrite hstep
  obtain ⟨rfl, h'⟩ := h.rewrite hp' hsame
  exact ⟨_, hstep', h'⟩

omit [Buffer B] in
/-- A peekable reader over the connection, and one over its reading half. -/
theorem Peekable.alike_half (inn : R → I) (out : R → O) (p : Peekable R B) :
    Alike (HalfOf inn out (out p.reader)) Eq p { p with reader := inn p.reader } :=
  ⟨⟨rfl, rfl⟩, rfl, rfl⟩

theorem sameCapacity_eq : SameCapacity (Eq : B → B → Prop) := fun _ _ h => congrArg _ h

theorem writes_apart (R R' R'' I I' I'' O O' O'' W B : Type) [Read R] [BoundedRead R] [Write R]
    [Read I] [Write O] [Future.AsyncRead R'] [Future.BoundedAsyncRead R'] [AsyncWrite R']
    [Future.AsyncRead I'] [AsyncWrite O'] [Tokio.AsyncRead R''] [Tokio.BoundedAsyncRead R'']
    [AsyncWrite R''] [Tokio.AsyncRead I''] [AsyncWrite O''] [Tokio.BufMut W] [Buffer B]
    [LawfulBuffer B] :
    (∀ (inn : R → I) (out : R → O), Halves inn out → ∀ (p₀ : Peekable R B) events p,
      Run (DuplexStep Peekable.call WriteStep id) p₀ events p →
        ∃ q, Run (CallStep Peekable.call) { p₀ with reader := inn p₀.reader }
            (events.filterMap leftEvent) q ∧
          Run WriteStep (out p₀.reader) (events.filterMap rightEvent) (out p.reader) ∧
          Alike (HalfOf inn out (out p.reader)) Eq p q) ∧
    (∀ (inn : R' → I') (out : R' → O'), Future.Halves inn out → ∀ (p₀ : Peekable R' B) events s,
      Run (DuplexStep Future.Session.call AsyncWriteStep .idle) (.idle p₀) events s →
        ∃ t, Run (CallStep Future.Session.call) (.idle { p₀ with reader := inn p₀.reader })
            (events.filterMap leftEvent) t ∧
          Run AsyncWriteStep (out p₀.reader) (events.filterMap rightEvent) (out s.held.reader) ∧
          s.Alike (HalfOf inn out (out s.held.reader)) Eq t) ∧
    ∀ (inn : R'' → I'') (out : R'' → O''), Tokio.Halves inn out → ∀ (p₀ : Peekable R'' B) events
      (s : Tokio.Session R'' W B),
      Run (DuplexStep Tokio.Session.call AsyncWriteStep .idle) (.idle p₀) events s →
        ∃ t, Run (CallStep Tokio.Session.call) (.idle { p₀ with reader := inn p₀.reader })
            (events.filterMap leftEvent) t ∧
          Run AsyncWriteStep (out p₀.reader) (events.filterMap rightEvent) (out s.held.reader) ∧
          s.Alike (HalfOf inn out (out s.held.reader)) Eq t := by
  refine ⟨?_, ?_, ?_⟩
  · intro inn out hh p₀ events p run
    have hsim (o : O) : ReadSim (HalfOf inn out o) := by
      rintro r i buf ⟨rfl, rfl⟩
      exact hh.read r buf
    obtain ⟨q, o, hread, hwrite, halike⟩ := DuplexStep.split
      (fun o => Alike (HalfOf inn out o) Eq)
      (fun o fuel i p q h => Peekable.call_alike (hsim o) .eq fuel i (fun _ => sameCapacity_eq) h)
      (fun o p k b p' q h step => by exact write_alike hh.write h step) run (p₀.alike_half inn out)
    obtain rfl := halike.reader.2
    exact ⟨q, hread, hwrite, halike⟩
  · intro inn out hh p₀ events s run
    have hsim (o : O') : Future.PollSim (HalfOf inn out o) := by
      rintro r i buf ⟨rfl, rfl⟩
      exact hh.read r buf
    obtain ⟨t, o, hread, hwrite, halike⟩ := DuplexStep.split
      (fun o => Future.Session.Alike (HalfOf inn out o) Eq)
      (fun o fuel i s t h =>
        Future.Session.call_alike (hsim o) .eq fuel i (fun _ => sameCapacity_eq) h)
      (fun o p k b p' t h step => by
        cases h with
        | idle h =>
          obtain ⟨o', hstep, h'⟩ := asyncWrite_alike hh.write h step
          exact ⟨o', hstep, .idle h'⟩) run (.idle (p₀.alike_half inn out))
    obtain rfl := halike.held.reader.2
    exact ⟨t, hread, hwrite, halike⟩
  · intro inn out hh p₀ events s run
    have hsim (o : O'') : Tokio.PollSim (HalfOf inn out o) := by
      rintro r i rb ⟨rfl, rfl⟩
      exact hh.read r rb
    obtain ⟨t, o, hread, hwrite, halike⟩ := DuplexStep.split
      (fun o => Tokio.Session.Alike (HalfOf inn out o) Eq)
      (fun o fuel i s t h =>
        Tokio.Session.call_alike (hsim o) .eq fuel i (fun _ => sameCapacity_eq) h)
      (fun o p k b p' t h step => by
        cases h with
        | idle h =>
          obtain ⟨o', hstep, h'⟩ := asyncWrite_alike hh.write h step
          exact ⟨o', hstep, .idle h'⟩) run (.idle (p₀.alike_half inn out))
    obtain rfl := halike.held.reader.2
    exact ⟨t, hread, hwrite, halike⟩

/-- A peek, a write and a read over a reader and a vector put together. -/
theorem writes_apart_join :
    ∃ q, Run (CallStep Peekable.call)
        (⟨⟨[.data [1, 2]]⟩, ⟨[]⟩, none⟩ : Peekable Script (BoundedBuffer 2))
        [(.peek [0], .gave (.ok 1) [[1]]), (.read [0], .gave (.ok 1) [[1]])] q ∧
      Run WriteStep ([] : List UInt8) [(.write [7], .inl (.ok 1))] [7] ∧
      Alike (HalfOf Join.reader Join.writer [7]) Eq
        (⟨⟨⟨[.data [2]]⟩, [7]⟩, ⟨[]⟩, none⟩ : Peekable (Join Script (List UInt8)) (BoundedBuffer 2)) q := by
  have peek : DuplexStep Peekable.call WriteStep id
      (⟨⟨⟨[.data [1, 2]]⟩, []⟩, ⟨[]⟩, none⟩ : Peekable (Join Script (List UInt8)) (BoundedBuffer 2))
      (.inl (.peek [0])) (.inl (.gave (.ok 1) [[1]])) ⟨⟨⟨[.data [2]]⟩, []⟩, ⟨[1]⟩, none⟩ :=
    .read ⟨2, by decide +kernel⟩
  have write : DuplexStep Peekable.call WriteStep id
      (⟨⟨⟨[.data [2]]⟩, []⟩, ⟨[1]⟩, none⟩ : Peekable (Join Script (List UInt8)) (BoundedBuffer 2))
      (.inr (.write [7])) (.inr (.inl (.ok 1))) ⟨⟨⟨[.data [2]]⟩, [7]⟩, ⟨[1]⟩, none⟩ :=
    .write (.write [7])
  have read : DuplexStep Peekable.call WriteStep id
      (⟨⟨⟨[.data [2]]⟩, [7]⟩, ⟨[1]⟩, none⟩ : Peekable (Join Script (List UInt8)) (BoundedBuffer 2))
      (.inl (.read [0])) (.inl (.gave (.ok 1) [[1]])) ⟨⟨⟨[.data [2]]⟩, [7]⟩, ⟨[]⟩, none⟩ :=
    .read ⟨0, by decide +kernel⟩
  have apart := (writes_apart (Join Script (List UInt8)) (Join PollScript (List UInt8))
    (Join PollScript (List UInt8)) Script PollScript PollScript (List UInt8) (List UInt8)
    (List UInt8) Tokio.SliceSink (BoundedBuffer 2)).1
  exact apart Join.reader Join.writer Join.halves _ _ _ (((Run.nil.snoc peek).snoc write).snoc read)

end PeekableReader
