import PeekableReader.Balance
import PeekableReader.Future.Lookahead
import PeekableReader.Sync.Lookahead
import PeekableReader.Tokio.Lookahead

/-!
# No further ahead than asked

A caller that only ever looks at `n` bytes, and neither to the end of the stream nor at as many
bytes as the peek buffer has room for, never has more than `n` bytes in the peek buffer. So the
reader is never more than `n` bytes ahead of what has been delivered, however often futures
are started, polled and dropped.
-/

namespace PeekableReader

open Buffer Ledger

variable {R B : Type} [Buffer B]

/-- From at most `n` peeked bytes, inputs that look at most `n` bytes ahead never have the reader
hand over more than `n` bytes that are not yet delivered. -/
def KeepsPace {σ ι : Type} (HandsOver : R → List UInt8 → R → Prop) (Step : σ → ι → Seen → σ → Prop)
    (init : Peekable R B → σ) (held : σ → Peekable R B) (Within : Nat → ι → Prop) : Prop :=
  ∀ (n : Nat) (p₀ : Peekable R B) (events : List (ι × Seen)) (s : σ), Run Step (init p₀) events s →
    (∀ event ∈ events, Within n event.1) → p₀.peeked.length ≤ n →
      (held s).peeked.length ≤ n ∧ ∃ d, Path HandsOver p₀.reader d (held s).reader ∧
        p₀.peeked.length + d.length ≤ (events.flatMap (·.2.delivered)).length + n

/-- What balances, and never peeks too far, keeps pace. -/
theorem Balances.keepsPace {σ ι : Type} {HandsOver : R → List UInt8 → R → Prop}
    {Step : σ → ι → Seen → σ → Prop} {init : Peekable R B → σ} {held : σ → Peekable R B}
    {Within : Nat → ι → Prop} (hbalances : Balances HandsOver Step init held)
    (hwithin : ∀ n p₀ events s, Run Step (init p₀) events s →
      (∀ event ∈ events, Within n event.1) → p₀.peeked.length ≤ n → (held s).peeked.length ≤ n) :
    KeepsPace HandsOver Step init held Within := by
  intro n p₀ events s run hinputs h₀
  have hle := hwithin n p₀ events s run hinputs h₀
  obtain ⟨⟨d, hpath, hd⟩, -⟩ := hbalances p₀ events s run
  refine ⟨hle, d, hpath, ?_⟩
  have hlen := congrArg List.length hd
  rw [List.length_append, List.length_append] at hlen
  omega

theorem reader_keeps_pace (R R₁ R₂ W B : Type) [Read R] [BoundedRead R] [Future.AsyncRead R₁]
    [Future.BoundedAsyncRead R₁] [Tokio.AsyncRead R₂] [Tokio.AppendingRead R₂] [Tokio.BufMut W]
    [Tokio.LawfulBufMut W] [Buffer B] [LawfulBuffer B] :
    KeepsPace (B := B) Read.HandsOver (Peekable.Step (R := R)) id id Op.Within ∧
      KeepsPace Future.AsyncRead.HandsOver (Future.Session.Step (R := R₁) (B := B)) .idle
        Future.Session.held Future.Input.Within ∧
      KeepsPace Tokio.AsyncRead.HandsOver (Tokio.Session.Step (R := R₂) (W := W) (B := B)) .idle
        Tokio.Session.held Tokio.Input.Within := by
  refine ⟨Peekable.balances.keepsPace ?_, Future.Session.balances.keepsPace ?_,
    Tokio.Session.balances.keepsPace ?_⟩
  · intro n p₀ events p run hinputs h₀
    let _ := Ledger.any R UInt8
    have := BoundedRead.lawful R
    refine run.invariant_inputs (fun p => p.peeked.length ≤ n) ?_ hinputs h₀
    rintro p op seen p' hle hop ⟨fuel, hstep⟩
    exact (p.perform_ahead fuel hop _ hstep).trans (max_le hle (Nat.le_refl n))
  · intro n p₀ events s run hinputs h₀
    let _ := Ledger.any R₁ UInt8
    have := Future.BoundedAsyncRead.lawful R₁
    refine (run.invariant_inputs (fun s : Future.Session R₁ B => s.Inv ∧ s.Within n) ?_ hinputs
      ⟨trivial, h₀, trivial⟩).2.peeked_le
    rintro s i seen s' ⟨hs, hn⟩ hi ⟨fuel, x, hx, hout⟩
    exact ⟨(Future.Session.react_post hs hx _ hout).1, Future.Session.react_within hs hn hi hx _ hout⟩
  · intro n p₀ events s run hinputs h₀
    let _ := Ledger.steps (Tokio.AsyncRead.HandsOver (R := R₂))
    have := Tokio.LawfulAsyncRead.steps R₂
    refine (run.invariant_inputs (fun s : Tokio.Session R₂ W B => s.Inv ∧ s.Within n) ?_ hinputs
      ⟨trivial, h₀, trivial⟩).2.peeked_le
    rintro s i seen s' ⟨hs, hn⟩ hi ⟨fuel, x, hx, hout⟩
    exact ⟨(Tokio.Session.react_post hs hx _ hout).1, Tokio.Session.react_within hs hn hi hx _ hout⟩

/-- Two peeks at two bytes with a read of one byte between them, where three were at hand. -/
theorem reader_keeps_pace_script :
    ∃ d, Path Read.HandsOver (Script.mk [.data [1, 2, 3]]) d (Script.mk []) ∧
      0 + d.length ≤ [1].length + 2 := by
  have first : Peekable.Step ⟨⟨[.data [1, 2, 3]]⟩, ⟨[]⟩, none⟩ (.peek [0, 0]) ⟨[], [1, 2]⟩
      (⟨⟨[.data [3]]⟩, ⟨[1, 2]⟩, none⟩ : Peekable Script (BoundedBuffer 4)) := ⟨1, by decide +kernel⟩
  have read : Peekable.Step ⟨⟨[.data [3]]⟩, ⟨[1, 2]⟩, none⟩ (.read [0]) ⟨[1], []⟩
      (⟨⟨[.data [3]]⟩, ⟨[2]⟩, none⟩ : Peekable Script (BoundedBuffer 4)) := ⟨0, by decide +kernel⟩
  have second : Peekable.Step ⟨⟨[.data [3]]⟩, ⟨[2]⟩, none⟩ (.peek [0, 0]) ⟨[], [2, 3]⟩
      (⟨⟨[]⟩, ⟨[2, 3]⟩, none⟩ : Peekable Script (BoundedBuffer 4)) := ⟨1, by decide +kernel⟩
  have pace := (reader_keeps_pace Script PollScript PollScript Tokio.SliceSink (BoundedBuffer 4)).1
  refine (pace 2 _ _ _ (((Run.nil.snoc first).snoc read).snoc second) ?_ (by decide)).2
  simp [Op.Within]

end PeekableReader
