import PeekableReader.Io.Spare
import PeekableReader.Lib.Machine

/-!
# What a caller sees of the stream

An operation on a peekable reader shows its caller bytes that have left the stream, and
bytes that it reports as peeked. It is `Transparent` when the first are exactly what the
stream lost at its front, and the second stand at the front of what is left. This holds
for every operation that meets the postconditions of `Io.Spare`, of whatever flavour.
-/

namespace PeekableReader

open Buffer Ledger

/-- What the caller of an operation sees of the stream. -/
structure Seen where
  /-- The bytes read, returned by `consume` or dropped by `consume_in_place`. -/
  delivered : List UInt8
  /-- The bytes reported as peeked, or appended to a destination. -/
  reported : List UInt8
  deriving DecidableEq, Repr

/-- The first bytes of a slice, as many as a result counts. -/
def counted : Option Nat → List UInt8 → List UInt8
  | some n, buf => buf.take n
  | none, _ => []

/-- All that a call gives back to its caller. -/
inductive Answer (ρ : Type) where
  /-- Nothing: a future was made or dropped, or the peek buffer thrown away. -/
  | done
  /-- The bytes of the buffer that `consume` hands out. -/
  | handed (bytes : List UInt8)
  /-- The result, and the destinations afterwards. -/
  | gave (result : ρ) (dst : List (List UInt8))
  deriving DecidableEq, Repr

variable {R B : Type} [Buffer B]

section

variable [Ledger R UInt8]

/-- An operation delivers what the stream loses, and reports what the peek buffer holds. -/
def Transparent (p : Peekable R B) (seen : Seen) (p' : Peekable R B) : Prop :=
  Hands p seen.delivered p' ∧ seen.reported <+: p'.peeked

variable {p p' : Peekable R B}

/-- Nothing happened, and nothing is seen. -/
theorem Transparent.refl (p : Peekable R B) : Transparent p ⟨[], []⟩ p :=
  ⟨Ledger.refl p, List.nil_prefix⟩

theorem Delivers.transparent {buf buf' : List UInt8} {res : Option Nat}
    (h : Delivers p buf res buf' p') : Transparent p ⟨counted res buf', []⟩ p' := by
  cases res with
  | some n => exact ⟨h.2.2, List.nil_prefix⟩
  | none => exact ⟨h.2, List.nil_prefix⟩

theorem Peeks.transparent {buf buf' : List UInt8} {res : Option Nat}
    (h : Peeks p buf res buf' p') : Transparent p ⟨[], counted res buf'⟩ p' := by
  cases res with
  | some n =>
    obtain ⟨hn, rfl, d, hf⟩ := h
    refine ⟨hf.delivers_nil, ?_⟩
    change List.take n _ <+: _
    rw [take_append_of_length (by simp; omega)]
    exact List.take_prefix n p'.peeked
  | none => exact ⟨h.2.delivers_nil, List.nil_prefix⟩

theorem PeeksVectored.transparent {bufs bufs' : List (List UInt8)} {res : Option Nat}
    (h : PeeksVectored p bufs res bufs' p') : Transparent p ⟨[], counted res bufs'.flatten⟩ p' := by
  cases res with
  | some n =>
    obtain ⟨-, -, heq, d, hf⟩ := h
    refine ⟨hf.delivers_nil, ?_⟩
    change List.take n _ <+: _
    rw [heq]
    exact List.take_prefix n p'.peeked
  | none => exact ⟨h.2.delivers_nil, List.nil_prefix⟩

theorem PeeksToEnd.transparent {buf buf' : List UInt8} {res : Option Nat}
    (h : PeeksToEnd p buf res buf' p') : Transparent p ⟨[], buf'.drop buf.length⟩ p' := by
  obtain ⟨⟨d, hf⟩, rfl, -⟩ := h
  exact ⟨hf.delivers_nil, by simp⟩

theorem PeeksToString.transparent {buf buf' : Str} {res : Option Nat}
    (h : PeeksToString p buf res buf' p') :
    Transparent p ⟨[], buf'.bytes.drop buf.bytes.length⟩ p' := by
  obtain ⟨⟨d, hf⟩, s, rfl, hs, -⟩ := h
  exact ⟨hf.delivers_nil, by simpa using hs⟩

theorem transparent_consume [LawfulBuffer B] (p : Peekable R B) :
    Transparent p ⟨asSlice p.consume.1, []⟩ p.consume.2 := by
  refine ⟨⟨[], Ledger.refl _, ?_⟩, List.nil_prefix⟩
  cases hcap : p.bufCap <;> simp [Peekable.consume, hcap, Peekable.peeked]

theorem transparent_consumeInPlace [LawfulBuffer B] (p : Peekable R B) :
    Transparent p ⟨p.peeked, []⟩ p.consumeInPlace :=
  ⟨⟨[], Ledger.refl _, by simp [Peekable.consumeInPlace]⟩, List.nil_prefix⟩

end

/-! ## Runs -/

/-- In every run that begins with a peekable reader, after every step, the bytes delivered
so far, the peek buffer and what the reader has not yet handed over make up the original
stream, and what the step reported stands at the front of the undelivered stream. -/
def KeepsStream {σ ι : Type} [Source R UInt8] (Step : σ → ι → Seen → σ → Prop)
    (init : Peekable R B → σ) (held : σ → Peekable R B) : Prop :=
  ∀ (p₀ : Peekable R B) (events : List (ι × Seen)) (s s' : σ) (i : ι) (seen : Seen),
    Run Step (init p₀) events s → Step s i seen s' →
      prepend (events.flatMap (·.2.delivered) ++ seen.delivered)
          (prepend (held s').peeked (Source.rest (held s').reader)) =
        prepend p₀.peeked (Source.rest p₀.reader) ∧
      Starts seen.reported (prepend (held s').peeked (Source.rest (held s').reader))

/-- Transparent steps keep the stream. -/
theorem keepsStream {σ ι : Type} [Source R UInt8] {Step : σ → ι → Seen → σ → Prop}
    {init : Peekable R B → σ} {held : σ → Peekable R B} (Inv : σ → Prop)
    (hheld : ∀ p, held (init p) = p) (hinit : ∀ p, Inv (init p))
    (hstep : ∀ s i seen s', Inv s → Step s i seen s' →
      Inv s' ∧ Transparent (held s) seen (held s')) : KeepsStream Step init held := by
  intro p₀ events s s' i seen run step
  have hinv := run.invariant Inv (fun s i o s' h hs => (hstep s i o s' h hs).1) (hinit p₀)
  have hall := (run.snoc step).hands held Seen.delivered
    (fun s i o s' h hs => ⟨(hstep s i o s' h hs).1, (hstep s i o s' h hs).2.1⟩) (hinit p₀)
  rw [List.flatMap_append, List.flatMap_singleton, hheld] at hall
  exact ⟨(Peekable.undelivered_of_hands hall).symm,
    Peekable.starts_undelivered (hstep s i seen s' hinv step).2.2⟩

end PeekableReader
