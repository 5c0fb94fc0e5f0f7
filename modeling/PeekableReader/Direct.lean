import PeekableReader.Balance

/-!
# Reading past the peek buffer

`get_mut` lends the reader itself, and its documentation warns that reads of it may lead to
unexpected behaviour. What they lead to is this: a direct read gets bytes that lie behind those
in the peek buffer, and the session goes on behind them. No byte is lost or delivered twice: the
bytes that the reader has handed over are those of the session, in their order, interleaved
with those read directly. And no direct read makes a peek wrong that came before it.
-/

namespace PeekableReader

open Buffer Ledger

variable {R B : Type} [Buffer B]

namespace Peekable

/-- The bytes peeked, the reader on loan, and what becomes of it when it is given back. -/
def getMut (p : Peekable R B) : List UInt8 × R × (R → Peekable R B) :=
  (p.peeked, p.reader, fun reader => { p with reader })

omit [Buffer B] in
def intoComponents (p : Peekable R B) : B × R := (p.buffer, p.reader)

end Peekable

/-- A step of a session, or a read of the reader that `get_mut` lends between two of them. -/
inductive LentStep {σ ι : Type} (HandsOver : R → List UInt8 → R → Prop)
    (Step : σ → ι → Seen → σ → Prop) (idle : Peekable R B → σ) :
    σ → ι ⊕ Unit → Seen ⊕ List UInt8 → σ → Prop
  | session {s s' : σ} {i : ι} {seen : Seen} (h : Step s i seen s') :
    LentStep HandsOver Step idle s (.inl i) (.inl seen) s'
  | direct {p : Peekable R B} {d : List UInt8} {reader : R} (h : HandsOver p.getMut.2.1 d reader) :
    LentStep HandsOver Step idle (idle p) (.inr ()) (.inr d) (idle (p.getMut.2.2 reader))

/-- What the session delivered. -/
def deliveredBy {ι : Type} (events : List (ι × (Seen ⊕ List UInt8))) : List UInt8 :=
  events.flatMap fun event => event.2.elim Seen.delivered fun _ => []

/-- What was read directly. -/
def readDirectly {ι : Type} (events : List (ι × (Seen ⊕ List UInt8))) : List UInt8 :=
  events.flatMap fun event => event.2.elim (fun _ => []) id

/-- What the reader has handed over on the way from `p` to `p'`. -/
def Shared (HandsOver : R → List UInt8 → R → Prop) (p : Peekable R B) (delivered direct : List UInt8)
    (p' : Peekable R B) : Prop :=
  ∃ own all, Path HandsOver p.reader all p'.intoComponents.2 ∧ Interleave own direct all ∧
    p.peeked ++ own = delivered ++ asSlice p'.intoComponents.1

/-- Every run shares the bytes of the reader out, and what a step of the session reports is what
the session delivers next. -/
def Shares {σ ι : Type} (HandsOver : R → List UInt8 → R → Prop) (Step : σ → ι → Seen → σ → Prop)
    (idle : Peekable R B → σ) (held : σ → Peekable R B) : Prop :=
  ∀ (p₀ : Peekable R B) (events : List ((ι ⊕ Unit) × (Seen ⊕ List UInt8))) (s : σ),
    Run (LentStep HandsOver Step idle) (idle p₀) events s →
      Shared HandsOver p₀ (deliveredBy events) (readDirectly events) (held s) ∧
      ∀ (i : ι) (seen : Seen) (s' : σ) (later : List ((ι ⊕ Unit) × (Seen ⊕ List UInt8))) (s'' : σ),
        Step s i seen s' → Run (LentStep HandsOver Step idle) s' later s'' →
          seen.reported <+: deliveredBy later ++ (held s'').peeked

/-- Steps that are transparent for the ledger of the calls share the reader out. -/
theorem shares {σ ι : Type} {HandsOver : R → List UInt8 → R → Prop} {Step : σ → ι → Seen → σ → Prop}
    {idle : Peekable R B → σ} {held : σ → Peekable R B} (Inv : σ → Prop)
    (hheld : ∀ p, held (idle p) = p) (hidle : ∀ p, Inv (idle p))
    (hstep : ∀ s i seen s', Inv s → Step s i seen s' →
      Inv s' ∧ @Transparent R B _ (Ledger.steps HandsOver) (held s) seen (held s')) :
    Shares HandsOver Step idle held := by
  have hinvariant {s s' : σ} {events : List ((ι ⊕ Unit) × (Seen ⊕ List UInt8))} (hs : Inv s)
      (run : Run (LentStep HandsOver Step idle) s events s') : Inv s' := by
    refine run.invariant Inv ?_ hs
    intro s i o s' hs step
    cases step with
    | session h => exact (hstep _ _ _ _ hs h).1
    | direct _ => exact hidle _
  have hshared {s s' : σ} {events : List ((ι ⊕ Unit) × (Seen ⊕ List UInt8))} (hs : Inv s)
      (run : Run (LentStep HandsOver Step idle) s events s') :
      Shared HandsOver (held s) (deliveredBy events) (readDirectly events) (held s') := by
    induction run with
    | nil => exact ⟨[], [], .nil, .nil, List.append_nil _⟩
    | @snoc events s₁ s₂ i o run step ih =>
      obtain ⟨own, all, hpath, hall, hown⟩ := ih
      have hdelivered : deliveredBy (events ++ [(i, o)]) =
          deliveredBy events ++ o.elim Seen.delivered fun _ => [] := by simp [deliveredBy]
      have hdirect : readDirectly (events ++ [(i, o)]) =
          readDirectly events ++ o.elim (fun _ => []) id := by simp [readDirectly]
      rw [hdelivered, hdirect]
      cases step with
      | session h =>
        obtain ⟨-, ⟨e, he, hp⟩, -⟩ := hstep _ _ _ _ (hinvariant hs run) h
        refine ⟨own ++ e, all ++ e, hpath.trans he, ?_, ?_⟩
        · exact (List.append_nil (readDirectly events)).symm ▸ hall.left e
        · rw [← List.append_assoc, hown, List.append_assoc, List.append_assoc]
          exact congrArg (deliveredBy events ++ ·) hp
      | @direct p d reader h =>
        rw [hheld] at hpath hown ⊢
        exact ⟨own, all ++ d, hpath.snoc h, hall.right d, by rw [hown, Sum.elim_inr, List.append_nil]; rfl⟩
  intro p₀ events s run
  refine ⟨hheld p₀ ▸ hshared (hidle p₀) run, ?_⟩
  intro i seen s' later s'' step run'
  obtain ⟨hinv', -, hreported⟩ := hstep s i seen s' (hinvariant (hidle p₀) run) step
  obtain ⟨own, all, -, -, hown⟩ := hshared hinv' run'
  exact hreported.trans ⟨own, hown⟩

/-- In all three flavours, whatever the reader answers to either. -/
theorem direct_reads_interleave (R R₁ R₂ W B : Type) [Read R] [BoundedRead R] [Future.AsyncRead R₁]
    [Future.BoundedAsyncRead R₁] [Tokio.AsyncRead R₂] [Tokio.AppendingRead R₂] [Tokio.BufMut W]
    [Tokio.LawfulBufMut W] [Buffer B] [LawfulBuffer B] :
    Shares (B := B) Read.HandsOver (Peekable.Step (R := R)) id id ∧
      Shares Future.AsyncRead.HandsOver (Future.Session.Step (R := R₁) (B := B)) .idle
        Future.Session.held ∧
      Shares Tokio.AsyncRead.HandsOver (Tokio.Session.Step (R := R₂) (W := W) (B := B)) .idle
        Tokio.Session.held :=
  ⟨shares (fun _ => True) (fun _ => rfl) (fun _ => trivial) fun _ _ _ _ _ h =>
      ⟨trivial, h.transparent⟩,
    shares Future.Session.Inv (fun _ => rfl) (fun _ => trivial)
      fun _ _ _ _ => Future.Session.Step.transparent,
    shares Tokio.Session.Inv (fun _ => rfl) (fun _ => trivial)
      fun _ _ _ _ => Tokio.Session.Step.transparent⟩

/-- A peek at the first of three bytes, a direct read of the second, and a read of two. -/
theorem direct_reads_interleave_script :
    Shared Read.HandsOver (⟨⟨[.data [1, 2, 3]]⟩, ⟨[]⟩, none⟩ : Peekable Script (BoundedBuffer 4))
        [1, 3] [2] ⟨⟨[]⟩, ⟨[]⟩, none⟩ ∧
      [1] <+: [1, 3] ++ ([] : List UInt8) := by
  have peek : Peekable.Step ⟨⟨[.data [1, 2, 3]]⟩, ⟨[]⟩, none⟩ (.peek [0]) ⟨[], [1]⟩
      (⟨⟨[.data [2, 3]]⟩, ⟨[1]⟩, none⟩ : Peekable Script (BoundedBuffer 4)) := ⟨1, by decide +kernel⟩
  have direct : LentStep Read.HandsOver Peekable.Step id
      (⟨⟨[.data [2, 3]]⟩, ⟨[1]⟩, none⟩ : Peekable Script (BoundedBuffer 4)) (.inr ()) (.inr [2])
      ⟨⟨[.data [3]]⟩, ⟨[1]⟩, none⟩ := .direct ⟨[0], .ok 1, [2], rfl, rfl⟩
  have read : Peekable.Step ⟨⟨[.data [3]]⟩, ⟨[1]⟩, none⟩ (.read [0, 0]) ⟨[1, 3], []⟩
      (⟨⟨[]⟩, ⟨[]⟩, none⟩ : Peekable Script (BoundedBuffer 4)) := ⟨0, by decide +kernel⟩
  have shares :=
    (direct_reads_interleave Script PollScript PollScript Tokio.SliceSink (BoundedBuffer 4)).1
  exact ⟨(shares _ _ _ (((Run.nil.snoc (.session peek)).snoc direct).snoc (.session read))).1,
    (shares _ _ _ Run.nil).2 _ _ _ _ _ peek ((Run.nil.snoc direct).snoc (.session read))⟩

end PeekableReader
