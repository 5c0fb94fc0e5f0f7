import PeekableReader.Script.Basic
import PeekableReader.Tokio.Spec
import PeekableReader.Vectored

/-!
# Failed and pending peeks

A single peek enlarges the peek buffer before it reads. Where it fails or is pending it
cuts the buffer back: nothing has left the reader, nothing has been added to the peek
buffer, and the destination is as the caller handed it over. If the buffer refuses to grow,
the reader is not even asked.

The futures may be pending any number of times before.
-/

namespace PeekableReader

open Buffer

variable {R B : Type} [Buffer B]

/-- What a call leaves that starts from `s`, for which the peek buffer must first be granted
`target s` bytes: if it hands over nothing, everything as it was, and a reader that was not
called if the length is refused. -/
structure Undone [Ledger R UInt8] {σ δ α : Type} (peekable : σ → Peekable R B) (dst : σ → δ)
    (target : σ → Nat) (s : σ) (poll : Poll (Except IoError α)) (s' : σ) : Prop where
  undone (h : ∀ a, poll ≠ .ready (.ok a)) :
    dst s' = dst s ∧ Fetched (peekable s) (peekable s') []
  uncalled {e : IoError} {buffer : B} (h : resize (peekable s).buffer (target s) = (.error e, buffer)) :
    (peekable s').reader = (peekable s).reader

/-- A future that was pending any number of times, and that changed nothing by it, nor by
the poll that follows unless it hands something over. -/
structure Undoes [Ledger R UInt8] {σ δ α : Type} (peekable : σ → Peekable R B) (dst : σ → δ)
    (target : σ → Nat) (poll : Nat → σ → Exec (Poll (Except IoError α) × σ)) (s₀ : σ) : Prop where
  pending {s : σ} (run : Relation.ReflTransGen (Pends poll) s₀ s) :
    dst s = dst s₀ ∧ Fetched (peekable s₀) (peekable s) []
  step {s : σ} (run : Relation.ReflTransGen (Pends poll) s₀ s) (fuel : Nat) :
    (poll fuel s).Post fun out => Undone peekable dst target s out.1 out.2

/-- It is enough that each poll of a future that is `Valid` undoes what it did. -/
theorem Undoes.of_step [Ledger R UInt8] {σ δ α : Type} {peekable : σ → Peekable R B} {dst : σ → δ}
    {target : σ → Nat} {poll : Nat → σ → Exec (Poll (Except IoError α) × σ)} {s₀ : σ}
    (Valid : σ → Prop) (hstart : Valid s₀)
    (hstep : ∀ fuel s, Valid s → (poll fuel s).Post fun out =>
      Undone peekable dst target s out.1 out.2 ∧ (out.1 = .pending → Valid out.2)) :
    Undoes peekable dst target poll s₀ := by
  have hvalid {s : σ} (run : Relation.ReflTransGen (Pends poll) s₀ s) :
      Valid s ∧ dst s = dst s₀ ∧ Fetched (peekable s₀) (peekable s) [] := by
    apply Pends.invariant _ ⟨hstart, rfl, .refl _⟩ run
    intro fuel s t hs hpoll
    obtain ⟨hs, hdst, hfetched⟩ := hs
    obtain ⟨hundone, hlive⟩ := hstep fuel s hs _ hpoll
    obtain ⟨hdst', hfetched'⟩ := hundone.undone (by simp)
    exact ⟨hlive rfl, hdst'.trans hdst, hfetched.trans hfetched'⟩
  exact ⟨fun run => (hvalid run).2, fun run fuel out hout => (hstep fuel _ (hvalid run).1 out hout).1⟩

/-! ## Readers that are not called -/

section Uncalled

variable {n fuel : Nat} {e : IoError} {buffer : B} (p : Peekable R B)

theorem Peekable.peek_uncalled [LawfulBuffer B] [Read R] {buf : List UInt8}
    (h : resize p.buffer buf.length = (.error e, buffer)) :
    (p.peek fuel buf).Post fun out => out.2.2.reader = p.reader := by
  intro out hout
  simp only [peek, p.len_buffer] at hout
  by_cases hpos : p.peeked.length > 0
  · simp only [if_pos hpos, h] at hout
    grind [Exec.bind_eq_ok, Exec.pure_eq]
  · rw [show p.peeked.length = 0 by omega, Nat.zero_add, h] at hout
    grind [Exec.pure_eq]

theorem Future.pollPeek_uncalled [LawfulBuffer B] [AsyncRead R] {buf : List UInt8}
    (h : resize p.buffer buf.length = (.error e, buffer)) :
    (Future.pollPeek fuel p buf).Post fun out => out.2.2.reader = p.reader := by
  intro out hout
  simp only [pollPeek, p.len_buffer] at hout
  by_cases hpos : p.peeked.length > 0
  · simp only [if_pos hpos, h] at hout
    grind [Exec.bind_eq_ok, Exec.pure_eq]
  · rw [show p.peeked.length = 0 by omega, Nat.zero_add, h] at hout
    grind [Exec.pure_eq]

theorem Tokio.pollPeek_uncalled [LawfulBuffer B] [AsyncRead R] {rb : ReadBuf}
    (h : resize p.buffer rb.remaining = (.error e, buffer)) :
    (Tokio.pollPeek fuel p rb).Post fun out => out.2.2.reader = p.reader := by
  intro out hout
  simp only [pollPeek, p.len_buffer] at hout
  by_cases hge : p.peeked.length ≥ rb.remaining
  · simp only [if_pos hge] at hout
    grind [Exec.bind_eq_ok, Exec.pure_eq]
  · rw [Nat.add_sub_of_le (Nat.le_of_not_le hge), h] at hout
    grind [Exec.pure_eq]

theorem Peekable.fillPeekBuf_uncalled [Read R] (h : resize p.buffer (capacity p.buffer) = (.error e, buffer)) :
    (p.fillPeekBuf fuel).Post fun out => out.2.reader = p.reader := by
  intro out hout
  simp only [fillPeekBuf, h] at hout
  grind [Exec.pure_eq]

theorem FillPeekBuf.pollWith_uncalled {tail : TailRead R B} {f : FillPeekBuf R B}
    (h : resize f.peeker.buffer f.cap = (.error e, buffer)) :
    (f.pollWith tail).Post fun out => out.2.peeker.reader = f.peeker.reader := by
  intro out hout
  simp only [pollWith, h] at hout
  grind [Exec.pure_eq]

end Uncalled

/-! ## The three flavours -/

variable [LawfulBuffer B] [Ledger R UInt8]

/-- The room in the first buffer that is not empty. -/
def vectoredRequest (bufs : List (List UInt8)) : Nat := (firstNonempty bufs).length

/-- Every call of the synchronous flavour. -/
structure Peekable.Undoing (R B : Type) [Read R] [Ledger R UInt8] [Buffer B] : Prop where
  peek (fuel : Nat) (p : Peekable R B) (buf : List UInt8) : (p.peek fuel buf).Post fun out =>
    Undone Prod.fst Prod.snd (fun s => s.2.length) (p, buf) (.ready out.1) (out.2.2, out.2.1)
  peekVectored (fuel : Nat) (p : Peekable R B) (bufs : List (List UInt8)) :
    (p.peekVectored fuel bufs).Post fun out =>
      Undone Prod.fst Prod.snd (fun s => vectoredRequest s.2) (p, bufs) (.ready out.1)
        (out.2.2, out.2.1)
  fillPeekBuf (fuel : Nat) (p : Peekable R B) : (p.fillPeekBuf fuel).Post fun out =>
    Undone id (fun _ => ()) (fun p => capacity p.buffer) p (.ready out.1) out.2

theorem Peekable.undoing [Read R] [LawfulRead R] : Undoing R B where
  peek fuel p buf := by
    intro out hout
    refine ⟨fun hfail => ?_, fun hres => peek_uncalled p hres out hout⟩
    have hpeeks := (peek_sat fuel p buf).post hout
    obtain ⟨result, buf', p'⟩ := out
    cases result with
    | ok n => exact absurd rfl (hfail n)
    | error e => exact hpeeks
  peekVectored fuel p bufs := by
    intro out hout
    refine ⟨fun hfail => ?_, fun hres => ?_⟩
    · have hpeeks := (peekVectored_sat fuel p bufs).post hout
      obtain ⟨result, bufs', p'⟩ := out
      cases result with
      | ok n => exact absurd rfl (hfail n)
      | error e => exact hpeeks
    · rw [peekVectored_eq] at hout
      obtain ⟨out', hout', rfl⟩ := Exec.map_eq_ok.mp hout
      exact peek_uncalled p hres out' hout'
  fillPeekBuf fuel p := by
    intro out hout
    refine ⟨fun hfail => ?_, fun hres => fillPeekBuf_uncalled p hres out hout⟩
    have hfills := fillPeekBuf_post fuel p out hout
    obtain ⟨result, p'⟩ := out
    cases result with
    | ok n => exact absurd rfl (hfail n)
    | error e => exact ⟨rfl, hfills⟩

theorem Poll.handed_eq_none {poll : Poll (Except IoError Nat)} (h : ∀ n, poll ≠ .ready (.ok n)) :
    poll.handed = none := by
  cases poll using Poll.casesResult with
  | ok n => exact absurd rfl (h n)
  | error e => rfl
  | pending => rfl

/-- A poll of `FillPeekBuf`, of whatever flavour. -/
theorem FillPeekBuf.undone {tail : TailRead R B} (htail : LawfulTail tail) {f : FillPeekBuf R B}
    (hf : f.original = f.peeker.peeked.length) : (f.pollWith tail).Post fun out =>
      Undone peeker (fun _ => ()) cap f out.1 out.2 ∧
        (out.1 = .pending → out.2.original = out.2.peeker.peeked.length) := by
  intro out hout
  have hpolled := pollWith_post htail f hf out hout
  refine ⟨⟨fun hfail => ⟨rfl, ?_⟩, fun hres => pollWith_uncalled hres out hout⟩, ?_⟩
  · have hfills := hpolled.fills
    rwa [Poll.handed_eq_none hfail] at hfills
  · intro hpending
    have hfills := hpolled.fills
    rw [hpending] at hfills
    have hsame : Fetched f.peeker out.2.peeker [] := hfills
    rw [hpolled.original, hf, hsame.peeked, List.append_nil]

/-- Every call of the `future` flavour, and its futures. -/
structure Future.Undoing (R B : Type) [AsyncRead R] [Ledger R UInt8] [Buffer B] : Prop where
  pollPeek (fuel : Nat) (p : Peekable R B) (buf : List UInt8) :
    (Future.pollPeek fuel p buf).Post fun out =>
      Undone Prod.fst Prod.snd (fun s => s.2.length) (p, buf) out.1 (out.2.2, out.2.1)
  pollPeekVectored (fuel : Nat) (p : Peekable R B) (bufs : List (List UInt8)) :
    (Future.pollPeekVectored fuel p bufs).Post fun out =>
      Undone Prod.fst Prod.snd (fun s => vectoredRequest s.2) (p, bufs) out.1 (out.2.2, out.2.1)
  peek (f : Peek R B) : Undoes Peek.peekable Peek.buf (fun f => f.buf.length) Peek.poll f
  peekVectored (f : PeekVectored R B) :
    Undoes PeekVectored.peekable PeekVectored.bufs (fun f => vectoredRequest f.bufs)
      PeekVectored.poll f
  fillPeekBuf (p : Peekable R B) :
    Undoes FillPeekBuf.peeker (fun _ => ()) FillPeekBuf.cap (fun _ => FillPeekBuf.poll) (.new p)

section Future

open Future

variable [Future.AsyncRead R] [LawfulAsyncRead R]

theorem Future.pollPeek_undone (fuel : Nat) (p : Peekable R B) (buf : List UInt8) :
    (pollPeek fuel p buf).Post fun out =>
      Undone Prod.fst Prod.snd (fun s => s.2.length) (p, buf) out.1 (out.2.2, out.2.1) := by
  intro out hout
  refine ⟨fun hfail => ?_, fun hres => pollPeek_uncalled p hres out hout⟩
  have hpeeks : Peeks p buf out.1.handed out.2.1 out.2.2 := (pollPeek_sat fuel p buf).post hout
  rwa [Poll.handed_eq_none hfail] at hpeeks

theorem Future.pollPeekVectored_undone (fuel : Nat) (p : Peekable R B) (bufs : List (List UInt8)) :
    (pollPeekVectored fuel p bufs).Post fun out =>
      Undone Prod.fst Prod.snd (fun s => vectoredRequest s.2) (p, bufs) out.1 (out.2.2, out.2.1) := by
  intro out hout
  refine ⟨fun hfail => ?_, fun hres => ?_⟩
  · have hpeeks : PeeksVectored p bufs out.1.handed out.2.1 out.2.2 :=
      (pollPeekVectored_sat fuel p bufs).post hout
    rwa [Poll.handed_eq_none hfail] at hpeeks
  · rw [pollPeekVectored_eq] at hout
    obtain ⟨out', hout', rfl⟩ := Exec.map_eq_ok.mp hout
    exact pollPeek_uncalled p hres out' hout'

theorem Future.undoing : Undoing R B where
  pollPeek := pollPeek_undone
  pollPeekVectored := pollPeekVectored_undone
  peek f := by
    apply Undoes.of_step (fun _ => True) trivial
    intro fuel f _ out hout
    obtain ⟨out', hout', hsame⟩ := Exec.bind_eq_ok.mp hout
    cases hsame
    obtain ⟨hundone, huncalled⟩ := pollPeek_undone fuel f.peekable f.buf out' hout'
    exact ⟨⟨hundone, huncalled⟩, fun _ => trivial⟩
  peekVectored f := by
    apply Undoes.of_step (fun _ => True) trivial
    intro fuel f _ out hout
    obtain ⟨out', hout', hsame⟩ := Exec.bind_eq_ok.mp hout
    cases hsame
    obtain ⟨hundone, huncalled⟩ := pollPeekVectored_undone fuel f.peekable f.bufs out' hout'
    exact ⟨⟨hundone, huncalled⟩, fun _ => trivial⟩
  fillPeekBuf p := .of_step (fun f => f.original = f.peeker.peeked.length)
    (FillPeekBuf.valid_new p).original fun _ _ => FillPeekBuf.undone readTail_lawful

end Future

/-- Every call of the `tokio` flavour, and its futures. -/
structure Tokio.Undoing (R W B : Type) [AsyncRead R] [Ledger R UInt8] [BufMut W] [Buffer B] :
    Prop where
  pollPeek (fuel : Nat) (p : Peekable R B) (rb : ReadBuf) :
    (Tokio.pollPeek fuel p rb).Post fun out =>
      Undone Prod.fst Prod.snd (fun s => s.2.remaining) (p, rb) out.1 (out.2.2, out.2.1)
  peek (f : Peek R B) : Undoes Peek.peekable Peek.buf (fun f => f.buf.length) Peek.poll f
  peekBuf (f : PeekBuf R W B) :
    Undoes PeekBuf.peeker (fun f => BufMut.written f.buf) (fun f => (BufMut.chunkMut f.buf).length)
      PeekBuf.poll f
  fillPeekBuf (p : Peekable R B) :
    Undoes FillPeekBuf.peeker (fun _ => ()) FillPeekBuf.cap (fun _ => FillPeekBuf.poll) (.new p)

section Tokio

open Tokio

variable [Tokio.AsyncRead R] [LawfulFreshRead R]

theorem Tokio.pollPeek_undone (fuel : Nat) (p : Peekable R B) (rb : ReadBuf) :
    (pollPeek fuel p rb).Post fun out =>
      Undone Prod.fst Prod.snd (fun s => s.2.remaining) (p, rb) out.1 (out.2.2, out.2.1) := by
  intro out hout
  refine ⟨fun hfail => ?_, fun hres => pollPeek_uncalled p hres out hout⟩
  have hputs : PutsPeeked p rb out.1 out.2.1 out.2.2 := (pollPeek_sat fuel p rb).post hout
  exact hputs.untouched (hfail ())

theorem Tokio.undoing {W : Type} [BufMut W] [LawfulBufMut W] : Undoing R W B where
  pollPeek := pollPeek_undone
  peek f := by
    apply Undoes.of_step (fun _ => True) trivial
    intro fuel f _ out hout
    obtain ⟨out', hout', hsame⟩ := Exec.bind_eq_ok.mp hout
    cases hsame
    obtain ⟨hundone, huncalled⟩ := pollPeek_undone fuel f.peekable (.new f.buf) out' hout'
    refine ⟨⟨fun hfail => ?_, huncalled⟩, fun _ => trivial⟩
    obtain ⟨hrb, hfetched⟩ := hundone fun a ha => hfail out'.2.1.filledBytes.length (by rw [ha]; rfl)
    exact ⟨congrArg ReadBuf.buf hrb, hfetched⟩
  peekBuf f := by
    apply Undoes.of_step (fun _ => True) trivial
    intro fuel f _ out hout
    refine ⟨⟨fun hfail => ?_, fun hres => ?_⟩, fun _ => trivial⟩
    · exact ((PeekBuf.poll_sat fuel f).post hout).untouched (Poll.handed_eq_none hfail)
    · unfold PeekBuf.poll at hout
      by_cases hroom : BufMut.hasRemainingMut f.buf = true
      · rw [if_neg (by simpa using hroom)] at hout
        obtain ⟨out', hout', hrest⟩ := Exec.bind_eq_ok.mp hout
        have hres' : resize f.peeker.buffer (ReadBuf.new (BufMut.chunkMut f.buf)).remaining = _ := hres
        have hreader := pollPeek_uncalled f.peeker hres' out' hout'
        grind [Exec.bind_eq_ok, Exec.pure_eq]
      · rw [if_pos (by simpa using hroom)] at hout
        cases hout
        rfl
  fillPeekBuf p := .of_step (fun f => f.original = f.peeker.peeked.length)
    (FillPeekBuf.valid_new p).original fun _ _ => FillPeekBuf.undone readTail_lawful

end Tokio

/-- A peek that fails or is pending leaves everything as it was, in every flavour. -/
theorem failed_peeks_undone (R R' R'' W B : Type) [Read R] [Ledger R UInt8] [LawfulRead R]
    [Future.AsyncRead R'] [Ledger R' UInt8] [Future.LawfulAsyncRead R'] [Tokio.AsyncRead R'']
    [Ledger R'' UInt8] [Tokio.LawfulFreshRead R''] [Tokio.BufMut W] [Tokio.LawfulBufMut W]
    [Buffer B] [LawfulBuffer B] :
    Peekable.Undoing R B ∧ Future.Undoing R' B ∧ Tokio.Undoing R'' W B :=
  ⟨Peekable.undoing, Future.undoing, Tokio.undoing⟩

theorem failed_peeks_undone_script :
    Peekable.Undoing Script (BoundedBuffer 3) ∧ Future.Undoing PollScript (BoundedBuffer 3) ∧
      Tokio.Undoing PollScript Tokio.SliceSink (BoundedBuffer 3) :=
  failed_peeks_undone Script PollScript PollScript Tokio.SliceSink (BoundedBuffer 3)

end PeekableReader
