import PeekableReader.Future.Spec
import PeekableReader.Sync.Spec
import PeekableReader.Tokio.Spec

/-!
# A peekable reader as a reader

`Layer` is a `Peekable` seen through the reading trait it implements, so that it can be the
reader of another one. What a layer has left to hand over is what it holds in its peek buffer
and then what its reader has left. Over a lawful reader it is lawful, in all three flavours.
-/

namespace PeekableReader

open Buffer Ledger

variable {R B : Type} [Buffer B]

structure Layer (R B : Type) where
  below : Peekable R B
  deriving DecidableEq

instance [Source R UInt8] : Source (Layer R B) UInt8 := ⟨fun l => l.below.undelivered⟩

/-- The outcome of code that returns, for a layer that is left with a peekable reader. -/
def Exec.layer {α β : Type} (l : Layer R B) (failed : α) (dst : β) :
    Exec (α × β × Peekable R B) → α × β × Layer R B
  | .ok (a, b, p) => (a, b, ⟨p⟩)
  | _ => (failed, dst, l)

omit [Buffer B] in
theorem Exec.layer_of_ok {α β : Type} {x : Exec (α × β × Peekable R B)} {l l' : Layer R B}
    {failed a : α} {dst b : β} (hx : ∃ out, x = .ok out) (h : x.layer l failed dst = (a, b, l')) :
    x = .ok (a, b, l'.below) := by
  obtain ⟨⟨a', b', p⟩, rfl⟩ := hx
  cases h
  rfl

/-- A read leaves a slice of the same length, whatever its result. -/
theorem Delivers.length_eq [Ledger R UInt8] {p p' : Peekable R B} {buf buf' : List UInt8}
    {res : Option Nat} (h : Delivers p buf res buf' p') : buf'.length = buf.length := by
  cases res with
  | some n => exact h.2.1
  | none => exact h.1

section Sync

variable [Read R]

instance : Read (Layer R B) where
  read l buf := (l.below.read buf).layer l (.error (.ofKind (.other 0))) buf

variable [LawfulBuffer B]

/-- Reading neither panics nor runs out of fuel, whatever the reader does. -/
theorem Peekable.read_returns (p : Peekable R B) (buf : List UInt8) : ∃ out, p.read buf = .ok out := by
  unfold Peekable.read
  by_cases hpos : p.peeked.length > 0
  · simp only [if_pos hpos]
    by_cases hlt : buf.length < p.peeked.length
    · obtain ⟨b, hb, -⟩ := LawfulBuffer.consume_ok p.buffer (n := buf.length) (by
        change _ ≤ p.peeked.length; omega)
      have hcopy : buf.length = (p.peeked.take buf.length).length := by grind
      simp [hlt, slice_front p.peeked (Nat.le_of_lt hlt), copyFromSlice_eq hcopy, hb]
    · simp only [if_neg hlt]
      by_cases heq : buf.length = p.peeked.length
      · simp [heq, copyFromSlice_eq heq]
      · simp only [if_neg heq, copyInto_front buf rfl (by omega : p.peeked.length ≤ buf.length),
          Exec.ok_bind, List.length_append, slice_append_right]
        split <;> exact ⟨_, rfl⟩
  · simp [hpos]

theorem Layer.read_eq {l l' : Layer R B} {buf buf' : List UInt8} {res : Except IoError Nat}
    (h : Read.read l buf = (res, buf', l')) : l.below.read buf = .ok (res, buf', l'.below) :=
  Exec.layer_of_ok (l.below.read_returns buf) h

instance [Source R UInt8] [LawfulRead R] : LawfulRead (Layer R B) where
  read_length l buf := by
    rcases hr : Read.read l buf with ⟨res, buf', l'⟩
    have h := (l.below.read_sat buf).post (Layer.read_eq hr)
    exact h.length_eq
  read_le {l l' buf buf' n} h := ((l.below.read_sat buf).post (Layer.read_eq h)).1
  read_ok {l l' buf buf' n} h :=
    Peekable.undelivered_of_hands ((l.below.read_sat buf).post (Layer.read_eq h)).2.2
  read_error {l l' buf buf' e} h :=
    Peekable.undelivered_of_hands ((l.below.read_sat buf).post (Layer.read_eq h)).2

end Sync

section Future

open Future

variable [Future.AsyncRead R]

instance : Future.AsyncRead (Layer R B) where
  pollRead l buf := (Future.pollRead l.below buf).layer l .pending buf

variable [LawfulBuffer B]

theorem Future.pollRead_returns (p : Peekable R B) (buf : List UInt8) :
    ∃ out, Future.pollRead p buf = .ok out := by
  simp only [Future.pollRead, Peekable.len_buffer]
  by_cases hpos : p.peeked.length > 0
  · simp only [if_pos hpos]
    by_cases hlt : buf.length < p.peeked.length
    · obtain ⟨b, hb, -⟩ := LawfulBuffer.consume_ok p.buffer (n := buf.length) (by
        change _ ≤ p.peeked.length; omega)
      have hcopy : buf.length = (p.peeked.take buf.length).length := by grind
      simp [hlt, slice_front p.peeked (Nat.le_of_lt hlt), copyFromSlice_eq hcopy, hb]
    · simp only [if_neg hlt]
      by_cases heq : buf.length = p.peeked.length
      · simp [heq, copyFromSlice_eq heq]
      · simp only [if_neg heq, copyInto_front buf rfl (by omega : p.peeked.length ≤ buf.length),
          Exec.ok_bind, List.length_append, slice_append_right]
        split <;> exact ⟨_, rfl⟩
  · simp [hpos]

theorem Layer.pollRead_eq {l l' : Layer R B} {buf buf' : List UInt8}
    {poll : Poll (Except IoError Nat)} (h : Future.AsyncRead.pollRead l buf = (poll, buf', l')) :
    Future.pollRead l.below buf = .ok (poll, buf', l'.below) :=
  Exec.layer_of_ok (Future.pollRead_returns l.below buf) h

instance [Source R UInt8] [Future.LawfulAsyncRead R] : Future.LawfulAsyncRead (Layer R B) where
  pollRead_length l buf := by
    rcases hr : Future.AsyncRead.pollRead l buf with ⟨poll, buf', l'⟩
    have h := (Future.pollRead_sat l.below buf).post (Layer.pollRead_eq hr)
    exact h.length_eq
  pollRead_le {l l' buf buf' n} h :=
    ((Future.pollRead_sat l.below buf).post (Layer.pollRead_eq h)).1
  pollRead_ok {l l' buf buf' n} h :=
    Peekable.undelivered_of_hands
      ((Future.pollRead_sat l.below buf).post (Layer.pollRead_eq h)).2.2
  pollRead_none {l l' buf buf' poll} h hnone := by
    have hsat := (Future.pollRead_sat l.below buf).post (Layer.pollRead_eq h)
    simp only [hnone] at hsat
    exact Peekable.undelivered_of_hands hsat.2

end Future

section Tokio

open Tokio

variable [Tokio.AsyncRead R]

instance : Tokio.AsyncRead (Layer R B) where
  pollRead l rb := (Tokio.pollRead l.below rb).layer l .pending rb

variable [LawfulBuffer B]

theorem Tokio.pollRead_returns (p : Peekable R B) (rb : ReadBuf) :
    ∃ out, Tokio.pollRead p rb = .ok out := by
  simp only [Tokio.pollRead, Peekable.len_buffer]
  by_cases hpos : p.peeked.length > 0
  · simp only [if_pos hpos]
    by_cases hlt : rb.remaining < p.peeked.length
    · obtain ⟨b, hb, -⟩ := LawfulBuffer.consume_ok p.buffer (n := rb.remaining) (by
        change _ ≤ p.peeked.length; omega)
      obtain ⟨rb', hput, -⟩ := rb.putSlice_spec (p.peeked.take rb.remaining) (by simp)
      simp [if_pos hlt, slice_front p.peeked (Nat.le_of_lt hlt), hput, hb]
    · obtain ⟨rb', hput, -⟩ := rb.putSlice_spec p.peeked (by omega)
      simp only [if_neg hlt, hput, Exec.ok_bind]
      split
      · exact ⟨_, rfl⟩
      · split <;> exact ⟨_, rfl⟩
  · simp [hpos]

theorem Layer.tokioPollRead_eq {l l' : Layer R B} {rb rb' : ReadBuf}
    {poll : Poll (Except IoError Unit)} (h : Tokio.AsyncRead.pollRead l rb = (poll, rb', l')) :
    Tokio.pollRead l.below rb = .ok (poll, rb', l'.below) :=
  Exec.layer_of_ok (Tokio.pollRead_returns l.below rb) h

instance [Source R UInt8] [Tokio.LawfulAsyncRead R] : Tokio.LawfulAsyncRead (Layer R B) where
  pollRead_length l rb := by
    rcases hr : Tokio.AsyncRead.pollRead l rb with ⟨poll, rb', l'⟩
    exact ((Tokio.pollRead_sat l.below rb).post (Layer.tokioPollRead_eq hr)).length
  pollRead_ok {l l' rb rb'} h := by
    obtain ⟨-, d, hd, hands, -⟩ := (Tokio.pollRead_sat l.below rb).post (Layer.tokioPollRead_eq h)
    exact ⟨d, hd, Peekable.undelivered_of_hands hands⟩
  pollRead_none {l l' rb rb' poll} h hpoll := by
    obtain ⟨-, d, hd, hands, hnone⟩ :=
      (Tokio.pollRead_sat l.below rb).post (Layer.tokioPollRead_eq h)
    obtain rfl := hnone hpoll
    exact ⟨by simpa using hd, Peekable.undelivered_of_hands hands⟩

end Tokio

end PeekableReader
