import PeekableReader.Future.Alike
import PeekableReader.Io.Layer
import PeekableReader.Script.Basic
import PeekableReader.Sync.Calls
import PeekableReader.Tokio.Alike

/-!
# A peekable reader over a peekable reader

A `Peekable` may be wrapped once more. Sessions with the outer one keep the stream, however
much either of the two has peeked, and a caller may even reach through `get_mut` and peek at
the inner one in between. An inner one that has peeked nothing is not noticed at all.
-/

namespace PeekableReader

open Buffer Ledger

variable {R R' R'' W B₀ B : Type} [Buffer B₀] [Buffer B]

/-! ## Both layers may peek -/

/-- The operations that deliver nothing. -/
def Op.peeks : Op → Bool
  | .read _ | .consume | .consumeInPlace => false
  | _ => true

/-- An operation on the outer reader, or on the one that its `get_mut` lends. -/
inductive StackInput where
  | outer (op : Op)
  | inner (op : Op)

/-- A step of a session with two layers. What an operation on the inner one shows lies behind
the outer peek buffer, and is not counted. -/
inductive StackStep [Read R] :
    Peekable (Layer R B₀) B → StackInput → Seen → Peekable (Layer R B₀) B → Prop
  | outer {p p' : Peekable (Layer R B₀) B} {op : Op} {seen : Seen} (h : p.Step op seen p') :
    StackStep p (.outer op) seen p'
  | inner {p : Peekable (Layer R B₀) B} {q : Peekable R B₀} {op : Op} {seen : Seen}
    (hop : op.peeks = true) (h : p.reader.below.Step op seen q) :
    StackStep p (.inner op) ⟨[], []⟩ { p with reader := ⟨q⟩ }

/-- An operation that peeks shows no delivered bytes. -/
theorem Peekable.Step.peeks [Read R] {p p' : Peekable R B} {op : Op} {seen : Seen}
    (h : p.Step op seen p') (hop : op.peeks = true) : seen.delivered = [] := by
  obtain ⟨fuel, h⟩ := h
  cases op with
  | read buf => cases hop
  | consume => cases hop
  | consumeInPlace => cases hop
  | peekExact buf =>
    obtain ⟨⟨_ | _, buf', p₁⟩, -, h⟩ := Exec.bind_eq_ok.mp h <;> cases h <;> rfl
  | _ =>
    obtain ⟨out, -, h⟩ := Exec.bind_eq_ok.mp h
    cases h
    rfl

theorem stack_keepsStream (R R' R'' W B₀ B : Type) [Read R] [Source R UInt8] [LawfulRead R]
    [Future.AsyncRead R'] [Source R' UInt8] [Future.LawfulAsyncRead R'] [Tokio.AsyncRead R'']
    [Source R'' UInt8] [Tokio.LawfulAsyncRead R''] [Tokio.BufMut W] [Tokio.LawfulBufMut W]
    [Buffer B₀] [LawfulBuffer B₀] [Buffer B] [LawfulBuffer B] :
    KeepsStream (@StackStep R B₀ B _ _ _) id id ∧
    KeepsStream (Future.Session.Step (R := Layer R' B₀) (B := B)) .idle Future.Session.held ∧
    KeepsStream (Tokio.Session.Step (R := Layer R'' B₀) (W := W) (B := B)) .idle
      Tokio.Session.held := by
  refine ⟨keepsStream (fun _ => True) (fun _ => rfl) (fun _ => trivial) ?_,
    keepsStream Future.Session.Inv (fun _ => rfl) (fun _ => trivial) ?_,
    keepsStream Tokio.Session.Inv (fun _ => rfl) (fun _ => trivial) ?_⟩
  · intro p i seen p' _ step
    refine ⟨trivial, ?_⟩
    cases step with
    | @outer _ op _ h =>
      obtain ⟨fuel, h⟩ := h
      exact (Peekable.perform_post fuel p op) (seen, p') h
    | @inner q op seen hop h =>
      -- nothing leaves the inner stream, so nothing moves between the layers
      have hnil := h.peeks hop
      obtain ⟨fuel, h⟩ := h
      have hands := (Peekable.perform_post fuel p.reader.below op _ h).1
      rw [hnil] at hands
      exact ⟨⟨[], Peekable.undelivered_of_hands hands, List.append_nil _⟩, List.nil_prefix⟩
  · intro s i seen s' hs step
    obtain ⟨fuel, x, hx, hout⟩ := step
    exact Future.Session.react_post hs hx _ hout
  · intro s i seen s' hs step
    obtain ⟨fuel, x, hx, hout⟩ := step
    exact Tokio.Session.react_post hs hx _ hout

/-- Peeks at both layers, and a read through both. -/
theorem stack_keepsStream_script :
    prepend [1, 2] (prepend [] (Source.rest
        (⟨⟨⟨[.data [3, 4]]⟩, ⟨[]⟩, none⟩⟩ : Layer Script (BoundedBuffer 3)))) =
      prepend [] (Source.rest
        (⟨⟨⟨[.data [1, 2], .data [3, 4]]⟩, ⟨[]⟩, none⟩⟩ : Layer Script (BoundedBuffer 3))) := by
  have outer : @StackStep Script (BoundedBuffer 3) (BoundedBuffer 3) _ _ _
      ⟨⟨⟨⟨[.data [1, 2], .data [3, 4]]⟩, ⟨[]⟩, none⟩⟩, ⟨[]⟩, none⟩ (.outer (.peek [0])) ⟨[], [1]⟩
      ⟨⟨⟨⟨[.data [2], .data [3, 4]]⟩, ⟨[]⟩, none⟩⟩, ⟨[1]⟩, none⟩ := .outer ⟨2, by decide +kernel⟩
  have inner : @StackStep Script (BoundedBuffer 3) (BoundedBuffer 3) _ _ _
      ⟨⟨⟨⟨[.data [2], .data [3, 4]]⟩, ⟨[]⟩, none⟩⟩, ⟨[1]⟩, none⟩ (.inner (.peek [0, 0])) ⟨[], []⟩
      ⟨⟨⟨⟨[.data [3, 4]]⟩, ⟨[2]⟩, none⟩⟩, ⟨[1]⟩, none⟩ :=
    StackStep.inner rfl (show Peekable.Step _ _ ⟨[], [2]⟩ _ from ⟨2, by decide +kernel⟩)
  have read : @StackStep Script (BoundedBuffer 3) (BoundedBuffer 3) _ _ _
      ⟨⟨⟨⟨[.data [3, 4]]⟩, ⟨[2]⟩, none⟩⟩, ⟨[1]⟩, none⟩ (.outer (.read [0, 0])) ⟨[1, 2], []⟩
      ⟨⟨⟨⟨[.data [3, 4]]⟩, ⟨[]⟩, none⟩⟩, ⟨[]⟩, none⟩ := .outer ⟨0, by decide +kernel⟩
  have keeps := (stack_keepsStream Script PollScript PollScript Tokio.SliceSink (BoundedBuffer 3)
    (BoundedBuffer 3)).1
  exact (keeps _ _ _ _ _ _ ((Run.nil.snoc outer).snoc inner) read).1

/-! ## An inner layer that has peeked nothing -/

/-- A reader, and a layer over it with nothing in its peek buffer. -/
def Through (r : R) (l : Layer R B₀) : Prop := l.below.reader = r ∧ l.below.peeked = []

section

variable [LawfulBuffer B₀]

theorem through_readSim [Read R] : ReadSim (Through : R → Layer R B₀ → Prop) := by
  intro r l buf h
  obtain ⟨rfl, hnil⟩ := h
  have hread : l.below.read buf = .ok ((Read.read l.below.reader buf).1,
      (Read.read l.below.reader buf).2.1,
      { l.below with reader := (Read.read l.below.reader buf).2.2 }) := by
    simp [Peekable.read, hnil]
  rcases hl : Read.read l buf with ⟨res, buf', l'⟩
  have heq := (Layer.read_eq hl).symm.trans hread
  simp only [Exec.ok.injEq, Prod.mk.injEq] at heq
  obtain ⟨rfl, rfl, hbelow⟩ := heq
  exact ⟨rfl, rfl, by rw [hbelow], by rw [hbelow]; exact hnil⟩

theorem through_futureSim [Future.AsyncRead R] :
    Future.PollSim (Through : R → Layer R B₀ → Prop) := by
  intro r l buf h
  obtain ⟨rfl, hnil⟩ := h
  have hpoll : Future.pollRead l.below buf = .ok ((Future.AsyncRead.pollRead l.below.reader buf).1,
      (Future.AsyncRead.pollRead l.below.reader buf).2.1,
      { l.below with reader := (Future.AsyncRead.pollRead l.below.reader buf).2.2 }) := by
    have hslice : asSlice l.below.buffer = [] := hnil
    simp [Future.pollRead, hslice]
  rcases hl : Future.AsyncRead.pollRead l buf with ⟨poll, buf', l'⟩
  have heq := (Layer.pollRead_eq hl).symm.trans hpoll
  simp only [Exec.ok.injEq, Prod.mk.injEq] at heq
  obtain ⟨rfl, rfl, hbelow⟩ := heq
  exact ⟨rfl, rfl, by rw [hbelow], by rw [hbelow]; exact hnil⟩

theorem through_tokioSim [Tokio.AsyncRead R] : Tokio.PollSim (Through : R → Layer R B₀ → Prop) := by
  intro r l rb h
  obtain ⟨rfl, hnil⟩ := h
  have hpoll : Tokio.pollRead l.below rb = .ok ((Tokio.AsyncRead.pollRead l.below.reader rb).1,
      (Tokio.AsyncRead.pollRead l.below.reader rb).2.1,
      { l.below with reader := (Tokio.AsyncRead.pollRead l.below.reader rb).2.2 }) := by
    have hslice : asSlice l.below.buffer = [] := hnil
    simp [Tokio.pollRead, hslice]
  rcases hl : Tokio.AsyncRead.pollRead l rb with ⟨poll, rb', l'⟩
  have heq := (Layer.tokioPollRead_eq hl).symm.trans hpoll
  simp only [Exec.ok.injEq, Prod.mk.injEq] at heq
  obtain ⟨rfl, rfl, hbelow⟩ := heq
  exact ⟨rfl, rfl, by rw [hbelow], by rw [hbelow]; exact hnil⟩

end

/-- Whatever a session does with a peekable reader, it does alike with a peekable reader over
a layer that has peeked nothing, and leaves that layer so. -/
theorem layer_unnoticed (R R' R'' W B₀ B : Type) [Read R] [BoundedRead R] [Future.AsyncRead R']
    [Future.BoundedAsyncRead R'] [Tokio.AsyncRead R''] [Tokio.BoundedAsyncRead R''] [Tokio.BufMut W]
    [Buffer B₀] [LawfulBuffer B₀] [Buffer B] [LawfulBuffer B] (fuel : Nat) :
    (∀ (ops : List Op) (p : Peekable R B) (q : Peekable (Layer R B₀) B),
      Alike Through Eq p q → Exec.Rel (Agree (Alike Through Eq))
        (runCalls (Peekable.call fuel) ops p) (runCalls (Peekable.call fuel) ops q)) ∧
    (∀ (inputs : List Future.Input) (s : Future.Session R' B) (s' : Future.Session (Layer R' B₀) B),
      s.Alike Through Eq s' → Exec.Rel (Agree (Future.Session.Alike Through Eq))
        (runCalls (Future.Session.call fuel) inputs s)
        (runCalls (Future.Session.call fuel) inputs s')) ∧
    ∀ (inputs : List (Tokio.Input W)) (s : Tokio.Session R'' W B)
      (s' : Tokio.Session (Layer R'' B₀) W B),
      s.Alike Through Eq s' → Exec.Rel (Agree (Tokio.Session.Alike Through Eq))
        (runCalls (Tokio.Session.call fuel) inputs s)
        (runCalls (Tokio.Session.call fuel) inputs s') := by
  have hcap : SameCapacity (Eq : B → B → Prop) := fun _ _ h => congrArg _ h
  refine ⟨?_, ?_, ?_⟩
  · intro ops p q h
    exact Peekable.calls_alike through_readSim .eq fuel ops (fun _ => hcap) h
  · intro inputs s s' h
    exact Future.Session.calls_alike through_futureSim .eq fuel inputs (fun _ => hcap) h
  · intro inputs s s' h
    exact Tokio.Session.calls_alike through_tokioSim .eq fuel inputs (fun _ => hcap) h

/-- Filling the peek buffer and reading, with and without a layer in between. -/
theorem layer_unnoticed_script :
    Exec.Rel (Agree (Alike Through Eq))
      (runCalls (Peekable.call 5) [.fillPeekBuf, .read [0]]
        (Peekable.withBuffer (B := BoundedBuffer 3) (Script.mk [.data [1, 2]])))
      (runCalls (Peekable.call 5) [.fillPeekBuf, .read [0]]
        (Peekable.withBuffer (B := BoundedBuffer 3)
          (Layer.mk (Peekable.withBuffer (B := VecBuffer) (Script.mk [.data [1, 2]]))))) := by
  have hagree := (layer_unnoticed Script PollScript PollScript Tokio.SliceSink VecBuffer
    (BoundedBuffer 3) 5).1
  exact hagree [.fillPeekBuf, .read [0]] (.withBuffer _) (.withBuffer _) ⟨⟨rfl, rfl⟩, rfl, rfl⟩

end PeekableReader
