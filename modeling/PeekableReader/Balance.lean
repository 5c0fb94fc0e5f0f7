import PeekableReader.Future.Session
import PeekableReader.Script.Basic
import PeekableReader.Sync.Session
import PeekableReader.Tokio.Session

/-!
# The books balance

A reader need not hold a stream: it may make up its answers as it goes. Over every session all
bytes it has handed over, in the order of its calls, have been delivered since or are in the
peek buffer, behind those that were there at first. And what a step reports as peeked comes
true: however the session goes on, these bytes are delivered next, or are still at the front
of the peek buffer.
-/

namespace PeekableReader

open Buffer Ledger

/-- What a reader hands over in one call. -/
def Read.HandsOver {R : Type} [Read R] (r : R) (d : List UInt8) (r' : R) : Prop :=
  ∃ buf result buf', Read.read r buf = (result, buf', r') ∧ d = counted result.toOption buf'

def Future.AsyncRead.HandsOver {R : Type} [AsyncRead R] (r : R) (d : List UInt8) (r' : R) : Prop :=
  ∃ buf poll buf', AsyncRead.pollRead r buf = (poll, buf', r') ∧ d = counted poll.handed buf'

def Tokio.AsyncRead.HandsOver {R : Type} [AsyncRead R] (r : R) (d : List UInt8) (r' : R) : Prop :=
  ∃ rb poll rb', AsyncRead.pollRead r rb = (poll, rb', r') ∧ rb'.filledBytes = rb.filledBytes ++ d

/-! ## Every reader keeps the ledger of its calls -/

theorem LawfulRead.steps (R : Type) [Read R] [BoundedRead R] :
    @LawfulRead R _ (Ledger.steps Read.HandsOver) :=
  @LawfulRead.mk R _ (Ledger.steps Read.HandsOver) _ (fun h => .single ⟨_, _, _, h, rfl⟩)
    (fun h => .single ⟨_, _, _, h, rfl⟩)

theorem Future.LawfulAsyncRead.steps (R : Type) [AsyncRead R] [BoundedAsyncRead R] :
    @LawfulAsyncRead R _ (Ledger.steps AsyncRead.HandsOver) :=
  @LawfulAsyncRead.mk R _ (Ledger.steps AsyncRead.HandsOver) _ (fun h => .single ⟨_, _, _, h, rfl⟩)
    (fun h hpoll => .single ⟨_, _, _, h, by rw [hpoll]; rfl⟩)

theorem Tokio.LawfulAsyncRead.steps (R : Type) [AsyncRead R] [AppendingRead R] :
    @LawfulAsyncRead R _ (Ledger.steps AsyncRead.HandsOver) := by
  refine @LawfulAsyncRead.mk R _ (Ledger.steps AsyncRead.HandsOver) _ ?_ ?_
  · intro r r' rb rb' h
    obtain ⟨d, hd, -⟩ := AppendingRead.appends h
    exact ⟨d, hd, .single ⟨_, _, _, h, hd⟩⟩
  · intro r r' rb rb' poll h hpoll
    obtain ⟨d, hd, hnone⟩ := AppendingRead.appends h
    obtain rfl := hnone hpoll
    rw [List.append_nil] at hd
    exact ⟨hd, .single ⟨_, _, _, h, by rw [hd, List.append_nil]⟩⟩

/-! ## Over whole sessions -/

variable {R B : Type} [Buffer B]

/-- In every run all bytes handed over have been delivered or are peeked, and what a step
reports is what comes next. -/
def Balances {σ ι : Type} (HandsOver : R → List UInt8 → R → Prop) (Step : σ → ι → Seen → σ → Prop)
    (init : Peekable R B → σ) (held : σ → Peekable R B) : Prop :=
  ∀ (p₀ : Peekable R B) (events : List (ι × Seen)) (s : σ), Run Step (init p₀) events s →
    (∃ d, Path HandsOver p₀.reader d (held s).reader ∧
      p₀.peeked ++ d = events.flatMap (·.2.delivered) ++ (held s).peeked) ∧
    ∀ (i : ι) (seen : Seen) (s' : σ) (later : List (ι × Seen)) (s'' : σ), Step s i seen s' →
      Run Step s' later s'' → seen.reported <+: later.flatMap (·.2.delivered) ++ (held s'').peeked

/-- Steps that are transparent for the ledger of the calls balance. -/
theorem balances {σ ι : Type} {HandsOver : R → List UInt8 → R → Prop} {Step : σ → ι → Seen → σ → Prop}
    {init : Peekable R B → σ} {held : σ → Peekable R B} (Inv : σ → Prop)
    (hheld : ∀ p, held (init p) = p) (hinit : ∀ p, Inv (init p))
    (hstep : ∀ s i seen s', Inv s → Step s i seen s' →
      Inv s' ∧ @Transparent R B _ (Ledger.steps HandsOver) (held s) seen (held s')) :
    Balances HandsOver Step init held := by
  let _ := Ledger.steps HandsOver
  have hhands {s s' : σ} {events : List (ι × Seen)} (hs : Inv s) (run : Run Step s events s') :
      Hands (held s) (events.flatMap (·.2.delivered)) (held s') :=
    run.hands held Seen.delivered
      (fun s i o s' h hs => ⟨(hstep s i o s' h hs).1, (hstep s i o s' h hs).2.1⟩) hs
  intro p₀ events s run
  have hinv := run.invariant Inv (fun s i o s' h hs => (hstep s i o s' h hs).1) (hinit p₀)
  refine ⟨?_, ?_⟩
  · have hall := hhands (hinit p₀) run
    rwa [hheld] at hall
  · intro i seen s' later s'' step run'
    obtain ⟨hinv', -, hreported⟩ := hstep s i seen s' hinv step
    obtain ⟨d, -, hd⟩ := hhands hinv' run'
    exact hreported.trans ⟨d, hd⟩

/-- A step is transparent for the ledger of the calls. -/
theorem Peekable.Step.transparent [Read R] [BoundedRead R] [LawfulBuffer B] {p p' : Peekable R B}
    {op : Op} {seen : Seen} (h : p.Step op seen p') :
    @Transparent R B _ (Ledger.steps Read.HandsOver) p seen p' := by
  let _ := Ledger.steps (Read.HandsOver (R := R))
  have := LawfulRead.steps R
  obtain ⟨fuel, h⟩ := h
  exact Peekable.perform_post fuel p op _ h

theorem Future.Session.Step.transparent [AsyncRead R] [BoundedAsyncRead R] [LawfulBuffer B]
    {s s' : Session R B} {i : Input} {seen : Seen} (hs : s.Inv) (h : s.Step i seen s') :
    s'.Inv ∧ @Transparent R B _ (Ledger.steps AsyncRead.HandsOver) s.held seen s'.held := by
  let _ := Ledger.steps (AsyncRead.HandsOver (R := R))
  have := LawfulAsyncRead.steps R
  obtain ⟨fuel, x, hx, hout⟩ := h
  exact react_post hs hx _ hout

theorem Tokio.Session.Step.transparent {W : Type} [AsyncRead R] [AppendingRead R] [BufMut W]
    [LawfulBufMut W] [LawfulBuffer B] {s s' : Session R W B} {i : Input W} {seen : Seen}
    (hs : s.Inv) (h : s.Step i seen s') :
    s'.Inv ∧ @Transparent R B _ (Ledger.steps AsyncRead.HandsOver) s.held seen s'.held := by
  let _ := Ledger.steps (AsyncRead.HandsOver (R := R))
  have := LawfulAsyncRead.steps R
  obtain ⟨fuel, x, hx, hout⟩ := h
  exact react_post hs hx _ hout

theorem Peekable.balances [Read R] [BoundedRead R] [LawfulBuffer B] :
    Balances (B := B) Read.HandsOver (Peekable.Step (R := R)) id id :=
  PeekableReader.balances (fun _ => True) (fun _ => rfl) (fun _ => trivial)
    fun _ _ _ _ _ h => ⟨trivial, h.transparent⟩

theorem Future.Session.balances [AsyncRead R] [BoundedAsyncRead R] [LawfulBuffer B] :
    Balances AsyncRead.HandsOver (Step (R := R) (B := B)) .idle held :=
  PeekableReader.balances Inv (fun _ => rfl) (fun _ => trivial) fun _ _ _ _ => Step.transparent

theorem Tokio.Session.balances {W : Type} [AsyncRead R] [AppendingRead R] [BufMut W] [LawfulBufMut W]
    [LawfulBuffer B] : Balances AsyncRead.HandsOver (Step (R := R) (W := W) (B := B)) .idle held :=
  PeekableReader.balances Inv (fun _ => rfl) (fun _ => trivial) fun _ _ _ _ => Step.transparent

/-- In all three flavours, whatever the reader answers and whatever the buffer refuses. -/
theorem books_balance (R R₁ R₂ W B : Type) [Read R] [BoundedRead R] [Future.AsyncRead R₁]
    [Future.BoundedAsyncRead R₁] [Tokio.AsyncRead R₂] [Tokio.AppendingRead R₂] [Tokio.BufMut W]
    [Tokio.LawfulBufMut W] [Buffer B] [LawfulBuffer B] :
    Balances (B := B) Read.HandsOver (Peekable.Step (R := R)) id id ∧
      Balances Future.AsyncRead.HandsOver (Future.Session.Step (R := R₁) (B := B)) .idle
        Future.Session.held ∧
      Balances Tokio.AsyncRead.HandsOver (Tokio.Session.Step (R := R₂) (W := W) (B := B)) .idle
        Tokio.Session.held :=
  ⟨Peekable.balances, Future.Session.balances, Tokio.Session.balances⟩

/-- A reader that answers with the room it is offered: there is no stream behind it. -/
structure Echo where
  deriving DecidableEq

instance : Read Echo where
  read r buf := (.ok buf.length, buf.map fun _ => buf.length.toUInt8, r)

instance : BoundedRead Echo where
  read_length _ _ := List.length_map _
  read_le h := by cases h; exact Nat.le_refl _

/-- A peek at two bytes, and a read of three. -/
theorem books_balance_echo :
    (∃ d, Path Read.HandsOver Echo.mk d Echo.mk ∧ [] ++ d = [2, 2, 1] ++ []) ∧
      [2, 2] <+: [2, 2, 1] ++ ([] : List UInt8) := by
  have peeked : Peekable.Step ⟨⟨⟩, ⟨[]⟩, none⟩ (.peek [0, 0]) ⟨[], [2, 2]⟩
      (⟨⟨⟩, ⟨[2, 2]⟩, none⟩ : Peekable Echo (BoundedBuffer 3)) := ⟨1, by decide +kernel⟩
  have read : Peekable.Step ⟨⟨⟩, ⟨[2, 2]⟩, none⟩ (.read [0, 0, 0]) ⟨[2, 2, 1], []⟩
      (⟨⟨⟩, ⟨[]⟩, none⟩ : Peekable Echo (BoundedBuffer 3)) := ⟨0, by decide +kernel⟩
  have balanced := (books_balance Echo PollScript PollScript Tokio.SliceSink (BoundedBuffer 3)).1
  exact ⟨(balanced _ _ _ ((Run.nil.snoc peeked).snoc read)).1,
    (balanced _ _ _ Run.nil).2 _ _ _ _ _ peeked (Run.nil.snoc read)⟩

end PeekableReader
