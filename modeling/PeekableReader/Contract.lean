import PeekableReader.Script.Flavours
import PeekableReader.Vectored

/-!
# The contract of `poll_peek`

The trait asks `poll_peek` not to fail with `Interrupted` or `WouldBlock`. Both flavours
retry the one and turn the other into a pending poll, unless there are bytes at hand to
answer with. A poll is pending only if the reader is, and reports nothing only at the end of
file or if nothing was asked for.

`poll_peek_vectored` is documented to ask for as much as fits into the first buffer that is
not empty, and keeps the contract for a request of that length.
-/

namespace PeekableReader

open Buffer PollScript

variable {B : Type} [Buffer B]

/-- The reader's answer to a poll with room for `n` bytes, interruptions aside. -/
def readerAnswer (p : Peekable PollScript B) (n : Nat) : Poll (Except IoError (List UInt8)) :=
  (next n (PollScript.settled p.reader.events)).1

/-- The reader has nothing for now. -/
def Waits (answer : Poll (Except IoError (List UInt8))) : Prop :=
  answer = .pending ∨ ∃ e, answer = .ready (.error e) ∧ e.kind = .wouldBlock

/-- What a peek at `n` bytes may answer. -/
structure KeepsContract (p : Peekable PollScript B) (n : Nat)
    (answer : Poll (Except IoError (List UInt8))) : Prop where
  not_transient : ∀ e, answer = .ready (.error e) → e.kind ≠ .interrupted ∧ e.kind ≠ .wouldBlock
  pending (h : answer = .pending) : 0 < n ∧ p.peeked = [] ∧ Waits (readerAnswer p n)
  empty (h : answer = .ready (.ok [])) :
    n = 0 ∨ p.peeked = [] ∧ readerAnswer p n = .ready (.ok [])
  least : ∀ d, answer = .ready (.ok d) → min n p.peeked.length ≤ d.length

theorem peekAnswer_eq_ok {bytes d : List UInt8} {answer : Poll (Except IoError (List UInt8))}
    (h : peekAnswer bytes answer = .ready (.ok d)) : d = bytes ++ answer.bytes := by
  cases answer using Poll.casesResult <;> grind [peekAnswer, Poll.bytes]

theorem peekAnswer_eq_pending {bytes : List UInt8} {answer : Poll (Except IoError (List UInt8))}
    (h : peekAnswer bytes answer = .pending) : bytes = [] ∧ Waits answer := by
  cases answer using Poll.casesResult <;> grind [peekAnswer, Waits, List.length_eq_zero_iff]

theorem peekAnswer_eq_error {bytes : List UInt8} {answer : Poll (Except IoError (List UInt8))}
    {e : IoError} (h : peekAnswer bytes answer = .ready (.error e)) :
    answer = .ready (.error e) ∧ e.kind ≠ .wouldBlock := by
  cases answer using Poll.casesResult <;> grind [peekAnswer]

/-- Bytes at hand are never held back, so an answer without any is the reader's own. -/
theorem peekAnswer_eq_empty {bytes : List UInt8} {answer : Poll (Except IoError (List UInt8))}
    (h : peekAnswer bytes answer = .ready (.ok [])) : bytes = [] ∧ answer = .ready (.ok []) := by
  cases answer using Poll.casesResult <;>
    grind [peekAnswer, List.length_eq_zero_iff, List.append_eq_nil_iff]

section Case

variable {p p' p'' : Peekable PollScript B} {n : Nat}
  {answer answer' : Poll (Except IoError (List UInt8))}

/-- What a peek reports is what it leaves at the front of the peek buffer. -/
theorem PeekCase.reports {d : List UInt8} (h : PeekCase p n answer p')
    (hd : answer = .ready (.ok d)) : d = p'.peeked.take n := by
  cases h with
  | covered hle => exact (Except.ok.inj (Poll.ready.inj hd)).symm
  | refused _ _ => cases hd
  | polled hlt hnext _ hpeeked =>
    have hle := next_bytes_le hnext
    rw [peekAnswer_eq_ok hd, hpeeked, List.take_of_length_le]
    rw [List.length_append]
    omega

/-- The bytes at hand are reported, as far as they were asked for. -/
theorem PeekCase.least {d : List UInt8} (h : PeekCase p n answer p')
    (hd : answer = .ready (.ok d)) : min n p.peeked.length ≤ d.length := by
  cases h with
  | covered hle =>
    cases hd
    rw [List.length_take]
  | refused _ _ => cases hd
  | polled _ _ _ _ =>
    rw [peekAnswer_eq_ok hd, List.length_append]
    exact (Nat.min_le_right _ _).trans (Nat.le_add_right _ _)

/-- The next peek of the same size finds what this one left at the front. -/
theorem PeekCase.no_less {d d' : List UInt8} (h : PeekCase p n answer p')
    (h' : PeekCase p' n answer' p'') (hd : answer = .ready (.ok d)) (hd' : answer' = .ready (.ok d')) :
    d.length ≤ d'.length := by
  rw [h.reports hd, List.length_take]
  exact h'.least hd'

theorem PeekCase.keepsContract (h : PeekCase p n answer p')
    (hpatient : ∀ n e, (resize p.buffer n).1 = .error e →
      e.kind ≠ .interrupted ∧ e.kind ≠ .wouldBlock) : KeepsContract p n answer := by
  refine ⟨?_, ?_, ?_, fun d => h.least⟩
  · intro e he
    cases h with
    | covered _ => cases he
    | refused _ hres =>
      cases he
      exact hpatient n e (congrArg Prod.fst hres)
    | polled _ _ hkind _ =>
      obtain ⟨hreader, hblock⟩ := peekAnswer_eq_error he
      exact ⟨hkind e hreader, hblock⟩
  · intro hpending
    cases h with
    | covered _ => cases hpending
    | refused _ _ => cases hpending
    | polled hlt hnext _ _ =>
      obtain ⟨hnil, hwaits⟩ := peekAnswer_eq_pending hpending
      rw [hnil, List.length_nil, Nat.sub_zero] at hnext
      exact ⟨Nat.zero_lt_of_lt hlt, hnil, by rwa [readerAnswer, hnext]⟩
  · intro hempty
    cases h with
    | covered hle =>
      have hnil := List.take_eq_nil_iff.mp (Except.ok.inj (Poll.ready.inj hempty))
      grind
    | refused _ _ => cases hempty
    | polled _ hnext _ _ =>
      obtain ⟨hnil, heof⟩ := peekAnswer_eq_empty hempty
      rw [hnil, List.length_nil, Nat.sub_zero] at hnext
      exact .inr ⟨hnil, by rw [readerAnswer, hnext, heof]⟩

end Case

theorem pollPeekVectored_gives [LawfulBuffer B] (p : Peekable PollScript B) (bufs : List (List UInt8))
    {fuel : Nat} (hfuel : Script.weight p.events < fuel) :
    ∃ answer bufs' p', PeekCase p (firstNonempty bufs).length answer p' ∧
      Future.pollPeekVectored fuel p bufs = .ok (answer.mapOk List.length, bufs', p') := by
  obtain ⟨answer, p', hcase, hgives⟩ := pollPeek_gives p (firstNonempty bufs).length hfuel
  obtain ⟨buf', hrun, -⟩ := hgives.future (firstNonempty bufs) rfl
  refine ⟨answer, putFirst buf' bufs, p', hcase, ?_⟩
  rw [Future.pollPeekVectored_eq, hrun]
  rfl

/-- Every peek keeps the contract, and the next one of the same size reports no less. The size
of a peek into several buffers is the length of the first one that is not empty. -/
theorem pollPeek_contract [LawfulBuffer B] (p : Peekable PollScript B) {fuel : Nat}
    (hpatient : ∀ n e, (resize p.buffer n).1 = .error e →
      e.kind ≠ .interrupted ∧ e.kind ≠ .wouldBlock)
    (hfuel : Script.weight p.events < fuel) :
    (∀ n, ∃ answer p', Gives n answer p' (Future.pollPeek fuel p) (Tokio.pollPeek fuel p) ∧
      KeepsContract p n answer ∧
      ∀ d, answer = .ready (.ok d) → ∀ fuel', Script.weight p'.events < fuel' →
        ∃ answer' p'', Gives n answer' p'' (Future.pollPeek fuel' p') (Tokio.pollPeek fuel' p') ∧
          ∀ d', answer' = .ready (.ok d') → d.length ≤ d'.length) ∧
    ∀ bufs, ∃ answer bufs' p', Future.pollPeekVectored fuel p bufs =
        .ok (answer.mapOk List.length, bufs', p') ∧
      KeepsContract p (firstNonempty bufs).length answer ∧
      ∀ d, answer = .ready (.ok d) → ∀ fuel', Script.weight p'.events < fuel' →
        ∀ again, (firstNonempty again).length = (firstNonempty bufs).length →
        ∃ (answer' : Poll (Except IoError (List UInt8))) (again' : List (List UInt8))
            (p'' : Peekable PollScript B),
          Future.pollPeekVectored fuel' p' again = .ok (answer'.mapOk List.length, again', p'') ∧
            ∀ d', answer' = .ready (.ok d') → d.length ≤ d'.length := by
  constructor
  · intro n
    obtain ⟨answer, p', hcase, hgives⟩ := pollPeek_gives p n hfuel
    refine ⟨answer, p', hgives, hcase.keepsContract hpatient, ?_⟩
    intro d hd fuel' hfuel'
    obtain ⟨answer', p'', hcase', hgives'⟩ := pollPeek_gives p' n hfuel'
    exact ⟨answer', p'', hgives', fun d' hd' => hcase.no_less hcase' hd hd'⟩
  · intro bufs
    obtain ⟨answer, bufs', p', hcase, hrun⟩ := pollPeekVectored_gives p bufs hfuel
    refine ⟨answer, bufs', p', hrun, hcase.keepsContract hpatient, ?_⟩
    intro d hd fuel' hfuel' again hagain
    obtain ⟨answer', again', p'', hcase', hrun'⟩ := pollPeekVectored_gives p' again hfuel'
    rw [hagain] at hcase'
    exact ⟨answer', again', p'', hrun', fun d' hd' => hcase.no_less hcase' hd hd'⟩

/-- An interruption is retried, and `WouldBlock` behind it is a pending poll. -/
theorem pollPeek_contract_waits :
    ∃ p : Peekable PollScript (BoundedBuffer 2),
      p = ⟨⟨[.ready (.error (.ofKind .interrupted)), .ready (.error (.ofKind .wouldBlock))]⟩, ⟨[]⟩,
        none⟩ ∧
      ∃ answer p', Gives 2 answer p' (Future.pollPeek 3 p) (Tokio.pollPeek 3 p) ∧
        KeepsContract p 2 answer := by
  have hpatient (n : Nat) (e : IoError) (he : (resize (⟨[]⟩ : BoundedBuffer 2) n).1 = .error e) :
      e.kind ≠ .interrupted ∧ e.kind ≠ .wouldBlock := by
    rw [BoundedBuffer.resize_eq] at he
    grind [BoundedBuffer.capError]
  refine ⟨_, rfl, ?_⟩
  generalize hp : (⟨⟨_⟩, _, none⟩ : Peekable PollScript (BoundedBuffer 2)) = p
  obtain ⟨answer, p', hgives, hkeeps, -⟩ :=
    (pollPeek_contract p (by rwa [← hp]) (show _ < 3 by rw [← hp]; decide)).1 2
  exact ⟨answer, p', hgives, hkeeps⟩

end PeekableReader
