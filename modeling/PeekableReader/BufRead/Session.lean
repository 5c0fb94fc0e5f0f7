import Mathlib.Data.List.Infix
import PeekableReader.BufRead.Model
import PeekableReader.Future.Session
import PeekableReader.Sync.Session
import PeekableReader.Tokio.Session

/-!
# Sessions with a buffered reader

A session with one of the flavours is extended by `fill_buf` and `consume`. The caller
may consume no more than the slice it was last given, and only while nothing has been
delivered since: peeking may move bytes from the inner buffer to the peek buffer in
between, so the split of a `consume` between the two is not that of the slice.

The invariant is that the slice last exposed is still covered by the peek buffer and
the inner buffer together. It is carried by a ledger that also follows the inner buffer.
-/

namespace PeekableReader

open Stream' Ledger Buffer

/-- The bytes a buffered reader holds in its buffer, the first it has to hand over. -/
class BufSource (R : Type) extends Source R UInt8 where
  buffered (r : R) : List UInt8

/-- The ledger of a buffered reader: reads are served from its buffer first. -/
@[reducible] def BufSource.ledger (R : Type) [BufSource R] : Ledger R UInt8 where
  Hands r d r' := Source.rest r = prepend d (Source.rest r') ∧
    (BufSource.buffered r).drop d.length <+: BufSource.buffered r'
  refl r := ⟨(prepend_nil _).symm, by simp⟩
  trans {r r' r'' d d'} h h' := by
    refine ⟨Ledger.trans (σ := R) h.1 h'.1, ?_⟩
    rw [List.length_append, ← List.drop_drop]
    exact (List.IsPrefix.drop h.2 d'.length).trans h'.2

/-- What is known of `fill_buf`, as the slice it exposes if it does, and of `consume`. -/
structure LawfulFill {R : Type} [BufSource R] (fill : R → Option (List UInt8) × R)
    (consume : R → Nat → Exec R) : Prop where
  starts (r : R) : Starts (BufSource.buffered r) (Source.rest r)
  fill_some {r r' : R} {exposed : List UInt8} (h : fill r = (some exposed, r')) :
    exposed = BufSource.buffered r' ∧ Source.rest r' = Source.rest r
  fill_none {r r' : R} (h : fill r = (none, r')) : Source.rest r' = Source.rest r
  consume_ok {r : R} {amt : Nat} (h : amt ≤ (BufSource.buffered r).length) :
    ∃ r', consume r amt = .ok r' ∧
      Source.rest r = prepend ((BufSource.buffered r).take amt) (Source.rest r')

/-- The slice of a successful `fill_buf`. -/
def exposed {R : Type} : Except IoError (List UInt8) × R → Option (List UInt8) × R
  | (result, r) => (result.toOption, r)

/-- The slice of a successful `poll_fill_buf`. -/
def polledExposed {R : Type} : Poll (Except IoError (List UInt8)) × R → Option (List UInt8) × R
  | (.ready result, r) => (result.toOption, r)
  | (.pending, r) => (none, r)

/-! ## The extended sessions -/

/-- A session, and the length of the slice in view of its caller. -/
structure BufState (σ : Type) where
  session : σ
  view : Option Nat

inductive BufInput (ι : Type) where
  | call (i : ι)
  | fillBuf
  | consume (amt : Nat)

section

variable {R B σ ι : Type} [Buffer B] [BufSource R]

/-- The bytes that the peek buffer and the inner buffer hold. -/
def Peekable.inView (p : Peekable R B) : List UInt8 := p.peeked ++ BufSource.buffered p.reader

/-- A step of an extended session, over the steps of a flavour and its `fill_buf` and
`consume`. A call that delivers nothing, as every peek does, keeps the slice in view. -/
inductive BufStep (Step : σ → ι → Seen → σ → Prop) (idle : Peekable R B → σ)
    (fill : Peekable R B → Option (List UInt8) × Peekable R B)
    (consume : Peekable R B → Nat → Exec (Peekable R B)) :
    BufState σ → BufInput ι → Seen → BufState σ → Prop
  | call {s s' : σ} {i : ι} {seen : Seen} {view : Option Nat} (h : Step s i seen s') :
    BufStep Step idle fill consume ⟨s, view⟩ (.call i) seen
      ⟨s', if seen.delivered = [] then view else none⟩
  | fillBuf {p p' : Peekable R B} {bytes : List UInt8} {view : Option Nat}
    (h : fill p = (some bytes, p')) :
    BufStep Step idle fill consume ⟨idle p, view⟩ .fillBuf ⟨[], bytes⟩
      ⟨idle p', some bytes.length⟩
  | noFill {p p' : Peekable R B} {view : Option Nat} (h : fill p = (none, p')) :
    BufStep Step idle fill consume ⟨idle p, view⟩ .fillBuf ⟨[], []⟩ ⟨idle p', none⟩
  | consume {p p' : Peekable R B} {n amt : Nat} (hamt : amt ≤ n) (h : consume p amt = .ok p') :
    BufStep Step idle fill consume ⟨idle p, some n⟩ (.consume amt) ⟨p.inView.take amt, []⟩
      ⟨idle p', none⟩

/-- In every extended session from a peekable reader: the bytes delivered and consumed,
followed by the undelivered stream, are the original stream; what `fill_buf` returns is a
prefix of the undelivered stream, and empty only where the inner reader says it has
reached its end; and a `consume` within the slice in view returns, takes exactly its
amount off the undelivered stream and forwards no more than the inner reader holds. -/
structure KeepsBufStream (Step : σ → ι → Seen → σ → Prop) (idle : Peekable R B → σ)
    (held : σ → Peekable R B) (innerFill : R → Option (List UInt8) × R)
    (fill : Peekable R B → Option (List UInt8) × Peekable R B)
    (consume : Peekable R B → Nat → Exec (Peekable R B)) : Prop where
  stream : ∀ p₀ events st, Run (BufStep Step idle fill consume) ⟨idle p₀, none⟩ events st →
    prepend (events.flatMap (·.2.delivered)) (held st.session).undelivered = p₀.undelivered
  fills : ∀ p₀ events p view bytes p',
    Run (BufStep Step idle fill consume) ⟨idle p₀, none⟩ events ⟨idle p, view⟩ →
    fill p = (some bytes, p') →
      Starts bytes p'.undelivered ∧ p'.undelivered = p.undelivered ∧
      (bytes = [] → p.peeked = [] ∧ (innerFill p.reader).1 = some [])
  consumes : ∀ p₀ events p n amt,
    Run (BufStep Step idle fill consume) ⟨idle p₀, none⟩ events ⟨idle p, some n⟩ → amt ≤ n →
      amt - min amt p.peeked.length ≤ (BufSource.buffered p.reader).length ∧
      ∃ p' d, consume p amt = .ok p' ∧ d.length = amt ∧ p.undelivered = prepend d p'.undelivered

end

section

variable {R B : Type} [Buffer B] [LawfulBuffer B] [BufSource R]
  {innerFill : R → Option (List UInt8) × R} {innerConsume : R → Nat → Exec R}

/-- `fill_buf` of a peekable reader, over that of its inner reader. -/
def fillWith (innerFill : R → Option (List UInt8) × R) (p : Peekable R B) :
    Option (List UInt8) × Peekable R B :=
  if len p.buffer > 0 then (some (asSlice p.buffer), p)
  else ((innerFill p.reader).1, { p with reader := (innerFill p.reader).2 })

omit [LawfulBuffer B] [BufSource R] in
theorem exposed_fillBuf [BufRead R] (p : Peekable R B) :
    exposed p.fillBuf = fillWith (fun r => exposed (BufRead.fillBuf r)) p := by
  by_cases hpos : len p.buffer > 0 <;> simp [Peekable.fillBuf, fillWith, exposed, hpos]

omit [LawfulBuffer B] [BufSource R] in
theorem polledExposed_pollFillBuf [AsyncBufRead R] (p : Peekable R B) :
    polledExposed p.pollFillBuf = fillWith (fun r => polledExposed (AsyncBufRead.pollFillBuf r)) p := by
  by_cases hpos : len p.buffer > 0
  · simp [Peekable.pollFillBuf, fillWith, polledExposed, hpos]
  · rcases h : AsyncBufRead.pollFillBuf p.reader with ⟨_ | _, r⟩ <;>
      simp [Peekable.pollFillBuf, fillWith, polledExposed, hpos, h]

omit [LawfulBuffer B] in
theorem fillWith_none (hinner : LawfulFill innerFill innerConsume) {p p' : Peekable R B}
    (h : fillWith innerFill p = (none, p')) : p'.undelivered = p.undelivered := by
  unfold fillWith at h
  split at h
  · cases h
  · obtain ⟨hnone, rfl⟩ := Prod.mk.inj h
    rw [Peekable.undelivered, Peekable.undelivered,
      hinner.fill_none (r := p.reader) (Prod.ext hnone rfl)]
    rfl

/-- What `fill_buf` exposes is in view, at the front of the undelivered stream. -/
theorem fillWith_some (hinner : LawfulFill innerFill innerConsume) {p p' : Peekable R B}
    {bytes : List UInt8} (h : fillWith innerFill p = (some bytes, p')) :
    Starts bytes p'.undelivered ∧ p'.undelivered = p.undelivered ∧
      (bytes = [] → p.peeked = [] ∧ (innerFill p.reader).1 = some []) ∧
      bytes <+: p'.inView := by
  unfold fillWith at h
  rw [p.len_buffer] at h
  split at h
  · next hpos =>
    obtain ⟨hsome, rfl⟩ := Prod.mk.inj h
    obtain rfl : p.peeked = bytes := Option.some.inj hsome
    refine ⟨Peekable.starts_undelivered (List.prefix_rfl), rfl, fun hnil => ?_,
      List.prefix_append _ _⟩
    rw [hnil] at hpos
    exact absurd hpos (Nat.lt_irrefl 0)
  · next hpos =>
    obtain ⟨hsome, rfl⟩ := Prod.mk.inj h
    have hnil : p.peeked = [] := List.eq_nil_of_length_eq_zero (by omega)
    obtain ⟨rfl, hrest⟩ := hinner.fill_some (r := p.reader) (Prod.ext hsome rfl)
    have hnil' : ({ p with reader := (innerFill p.reader).2 } : Peekable R B).peeked = [] := hnil
    refine ⟨?_, ?_, fun hb => ⟨hnil, by rw [hsome, hb]⟩, ?_⟩
    · rw [Peekable.undelivered, hnil', prepend_nil]
      exact hinner.starts _
    · rw [Peekable.undelivered, Peekable.undelivered, hnil', hnil, prepend_nil, prepend_nil, hrest]
    · rw [Peekable.inView, hnil', List.nil_append]

/-- A `consume` of bytes in view takes exactly these off the undelivered stream. -/
theorem consumeWith_inView (hinner : LawfulFill innerFill innerConsume) {p : Peekable R B}
    {amt : Nat} (hamt : amt ≤ p.inView.length) :
    amt - min amt p.peeked.length ≤ (BufSource.buffered p.reader).length ∧
      ∃ p', p.consumeWith innerConsume amt = .ok p' ∧
        p.undelivered = prepend (p.inView.take amt) p'.undelivered := by
  have hle : amt - min amt p.peeked.length ≤ (BufSource.buffered p.reader).length := by
    rw [Peekable.inView, List.length_append] at hamt
    omega
  obtain ⟨buffer, hbuffer, heq⟩ := Peekable.consumeWith_eq innerConsume p amt
  obtain ⟨reader, hconsume, hrest⟩ := hinner.consume_ok hle
  refine ⟨hle, { p with reader, buffer }, by rw [heq, hconsume]; rfl, ?_⟩
  rw [Peekable.undelivered, Peekable.undelivered, hrest, prepend_prepend, prepend_prepend]
  refine prepend_congr ?_ rfl
  change _ = _ ++ asSlice buffer
  rw [hbuffer, Peekable.inView, List.take_append]
  rcases Nat.le_total amt p.peeked.length with h | h
  · simp [Nat.min_eq_left h, Nat.sub_eq_zero_of_le h]
  · simp [Nat.min_eq_right h, List.take_of_length_le h]

/-- The invariant of the session holds, and the slice in view is covered by the peek buffer
and the inner buffer. -/
def BufState.Sound {σ : Type} (Inv : σ → Prop) (held : σ → Peekable R B) (st : BufState σ) : Prop :=
  Inv st.session ∧ ∀ n, st.view = some n → n ≤ (held st.session).inView.length

omit [LawfulBuffer B] in
/-- Whatever peeking moves, what was in view stays in view. -/
theorem length_inView_le {p p' : Peekable R B}
    (h : @Hands _ _ (@instLedgerPeekableUInt8 R B _ (BufSource.ledger R)) p [] p') :
    p.inView.length ≤ p'.inView.length := by
  obtain ⟨e, ⟨-, hbuffered⟩, hpeeked⟩ := h
  have hlen := hbuffered.length_le
  have hlen' := congrArg List.length hpeeked
  simp only [List.length_drop, List.length_append, List.length_nil] at hlen hlen'
  simp only [Peekable.inView, List.length_append]
  omega

omit [LawfulBuffer B] in
theorem undelivered_of_bufHands {p p' : Peekable R B} {d : List UInt8}
    (h : @Hands _ _ (@instLedgerPeekableUInt8 R B _ (BufSource.ledger R)) p d p') :
    p.undelivered = prepend d p'.undelivered := by
  obtain ⟨e, ⟨hrest, -⟩, hpeeked⟩ := h
  exact Peekable.undelivered_of_hands ⟨e, hrest, hpeeked⟩

variable {σ ι : Type} {Step : σ → ι → Seen → σ → Prop} {idle : Peekable R B → σ}
  {held : σ → Peekable R B}

/-- Transparent steps keep the stream of a buffered reader. -/
theorem keepsBufStream (Inv : σ → Prop) (hinner : LawfulFill innerFill innerConsume)
    (hheld : ∀ p, held (idle p) = p) (hidle : ∀ p, Inv (idle p))
    (hstep : ∀ s i seen s', Inv s → Step s i seen s' → Inv s' ∧
      @Hands _ _ (@instLedgerPeekableUInt8 R B _ (BufSource.ledger R)) (held s) seen.delivered
        (held s')) :
    KeepsBufStream Step idle held innerFill (fillWith innerFill)
      (Peekable.consumeWith innerConsume) := by
  -- one step: the invariants of the session and of the slice in view, and the stream
  have hbuf : ∀ st i seen st', BufState.Sound Inv held st →
      BufStep Step idle (fillWith innerFill) (Peekable.consumeWith innerConsume) st i seen st' →
      BufState.Sound Inv held st' ∧
        (held st.session).undelivered = prepend seen.delivered (held st'.session).undelivered := by
    rintro st i seen st' ⟨hinv, hcovered⟩ step
    cases step with
    | call h =>
      obtain ⟨hinv', hands⟩ := hstep _ _ _ _ hinv h
      refine ⟨⟨hinv', fun n hn => ?_⟩, undelivered_of_bufHands hands⟩
      by_cases hseen : seen.delivered = []
      · rw [if_pos hseen] at hn
        rw [hseen] at hands
        exact (hcovered n hn).trans (length_inView_le hands)
      · rw [if_neg hseen] at hn
        cases hn
    | fillBuf h =>
      obtain ⟨-, hsame, -, hview⟩ := fillWith_some hinner h
      refine ⟨⟨hidle _, ?_⟩, by simp [hheld, hsame]⟩
      intro n hn
      cases hn
      simpa [hheld] using hview.length_le
    | noFill h =>
      refine ⟨⟨hidle _, by rintro n ⟨⟩⟩, by simp [hheld, fillWith_none hinner h]⟩
    | consume hamt h =>
      have hle := hamt.trans (hcovered _ rfl)
      rw [hheld] at hle
      obtain ⟨-, p', hp', hstream⟩ := consumeWith_inView hinner hle
      cases h.symm.trans hp'
      exact ⟨⟨hidle _, by rintro n ⟨⟩⟩, by simpa [hheld] using hstream⟩
  have hrun : ∀ p₀ events st,
      Run (BufStep Step idle (fillWith innerFill) (Peekable.consumeWith innerConsume))
        ⟨idle p₀, none⟩ events st → BufState.Sound Inv held st :=
    fun p₀ events st run => run.invariant (BufState.Sound Inv held) (fun st i seen st' h hs => (hbuf st i seen st' h hs).1)
      ⟨hidle p₀, by rintro n ⟨⟩⟩
  refine ⟨fun p₀ events st run => ?_, fun p₀ events p view bytes p' run h => ?_,
    fun p₀ events p n amt run hamt => ?_⟩
  · induction run with
    | nil => simp [hheld]
    | snoc run step ih =>
      rw [List.flatMap_append, List.flatMap_singleton, ← prepend_prepend,
        ← (hbuf _ _ _ _ (hrun _ _ _ run) step).2]
      exact ih
  · obtain ⟨hstarts, hsame, hnil, -⟩ := fillWith_some hinner h
    exact ⟨hstarts, hsame, hnil⟩
  · have hle := hamt.trans ((hrun _ _ _ run).2 n rfl)
    rw [hheld] at hle
    obtain ⟨hforward, p', hp', hstream⟩ := consumeWith_inView hinner hle
    exact ⟨hforward, p', _, hp', by grind, hstream⟩

end

end PeekableReader
