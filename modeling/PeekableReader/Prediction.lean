import PeekableReader.Contract

/-!
# A peek foretells a read

A peek and a read of the same size, made from the same state, ask the reader for the same
room. If its answer is not an error they give the caller the same, and leave the same
stream but for the bytes the read has delivered. A read of as many bytes as a peek has
returned is answered from the peek buffer.

A peek that returned no bytes foretells nothing of the kind: with an empty peek buffer a
read of no bytes is passed on to the reader.
-/

namespace PeekableReader

open Buffer PollScript Stream'

variable {B : Type} [Buffer B]

/-- `p₁` is left by a peek and `p₂` by a read, both with this answer. -/
structure Foretells {R : Type} [Source R UInt8] (answer : Poll (Except IoError (List UInt8)))
    (p₁ p₂ : Peekable R B) : Prop where
  succeeds : ∀ e, answer ≠ .ready (.error e)
  reader : p₂.reader = p₁.reader
  undelivered : p₁.undelivered = prepend answer.bytes p₂.undelivered

/-- It is enough that the peek buffer loses the bytes that are read. -/
theorem Foretells.of_peeked {R : Type} [Source R UInt8] {p₁ p₂ : Peekable R B}
    {answer : Poll (Except IoError (List UInt8))} (hanswer : ∀ e, answer ≠ .ready (.error e))
    (hreader : p₂.reader = p₁.reader) (hpeeked : p₁.peeked = answer.bytes ++ p₂.peeked) :
    Foretells answer p₁ p₂ :=
  ⟨hanswer, hreader, by
    rw [Peekable.undelivered, Peekable.undelivered, prepend_prepend, hpeeked, hreader]⟩

theorem peekAnswer_nil (answer : Poll (Except IoError (List UInt8)))
    (hanswer : ∀ e, answer ≠ .ready (.error e)) : peekAnswer [] answer = answer := by
  cases answer using Poll.casesResult <;> grind [peekAnswer]

/-- With bytes at hand, both a peek and a read serve them in front of what has come. -/
theorem peekAnswer_of_pos {bytes : List UInt8} (answer : Poll (Except IoError (List UInt8)))
    (hbytes : 0 < bytes.length) (hanswer : ∀ e, answer ≠ .ready (.error e)) :
    peekAnswer bytes answer = .ready (.ok (bytes ++ answer.bytes)) := by
  cases answer using Poll.casesResult <;> grind [peekAnswer, Poll.bytes]

section Case

variable [LawfulBuffer B] {p p₁ p₂ : Peekable PollScript B} {n : Nat}
  {answer answer' : Poll (Except IoError (List UInt8))}

theorem PeekCase.foretells (hpeek : PeekCase p n answer p₁) (hread : ReadCase p n answer' p₂)
    (hn : 0 < n) (hgrant : (resize p.buffer n).1 = .ok ())
    (hnext : ∀ e, p.reader.events.head? ≠ some (.ready (.error e))) :
    answer' = answer ∧ Foretells answer p₁ p₂ := by
  cases hpeek with
  | refused _ hres =>
    rw [hres] at hgrant
    cases hgrant
  | covered hle =>
    cases hread with
    | direct hempty _ => omega
    | topped _ hlt _ => omega
    | served hpos _ hrest =>
      refine ⟨rfl, .of_peeked (by simp) rfl ?_⟩
      change p.peeked = p.peeked.take n ++ asSlice _
      rw [hrest, List.take_append_drop]
  | @polled reader _ hlt hpoll hkind hpeeked =>
    rw [PollScript.settled_of_head fun e he => absurd he (hnext e)] at hpoll
    have hanswer (e : IoError) : reader ≠ .ready (.error e) := by
      rintro rfl
      exact hnext e (PollScript.head_of_next_error hpoll)
    cases hread with
    | served _ hle _ => omega
    | direct hempty hpoll' =>
      have hnil : p.peeked = [] := List.eq_nil_of_length_eq_zero hempty
      rw [hempty, Nat.sub_zero, hpoll'] at hpoll
      obtain ⟨rfl, hevents⟩ := Prod.mk.inj hpoll
      rw [hnil, peekAnswer_nil _ hanswer]
      refine ⟨rfl, .of_peeked hanswer (congrArg PollScript.mk hevents) ?_⟩
      change _ = _ ++ p.peeked
      rw [hpeeked, hnil, List.append_nil, List.nil_append]
    | topped hpos _ hpoll' =>
      rw [hpoll'] at hpoll
      obtain ⟨rfl, hevents⟩ := Prod.mk.inj hpoll
      rw [peekAnswer_of_pos _ hpos hanswer]
      refine ⟨rfl, .of_peeked (by simp) (congrArg PollScript.mk hevents) ?_⟩
      change _ = (p.peeked ++ _) ++ asSlice (clear p.buffer)
      rw [asSlice_clear, List.append_nil, hpeeked]

end Case

/-! ## The synchronous flavour -/

/-- Calls for `n` bytes return `answer`, with its bytes at the front of the slice. -/
def Returns (n : Nat) (answer : Except IoError (List UInt8)) (p' : Peekable Script B)
    (call : List UInt8 → Exec (Except IoError Nat × List UInt8 × Peekable Script B)) : Prop :=
  ∀ buf, buf.length = n → ∃ buf', call buf = .ok (answer.map List.length, buf', p') ∧
    ∀ d, answer = .ok d → buf'.take d.length = d

omit [Buffer B] in
theorem Peekable.reader_of_lift {p q : Peekable Script B} (h : p.lift.reader = q.lift.reader) :
    p.reader = q.reader := by
  have hevents := congrArg (fun reader => PollScript.strip reader.events) h
  simp only [lift, strip_lift] at hevents
  exact congrArg Script.mk hevents

omit [Buffer B] in
theorem Peekable.lift_injective : Function.Injective (lift : Peekable Script B → _) := by
  intro p q h
  have hreader := reader_of_lift (congrArg Peekable.reader h)
  have hbuffer : p.lift.buffer = q.lift.buffer := congrArg Peekable.buffer h
  have hbufCap : p.lift.bufCap = q.lift.bufCap := congrArg Peekable.bufCap h
  simp only [lift] at hbuffer hbufCap
  cases p
  cases q
  simp_all

omit [Buffer B] in
/-- A call whose polls on a script that is never pending are known. -/
theorem Returns.of_gives {n : Nat} {answer : Poll (Except IoError (List UInt8))}
    {q : Peekable PollScript B} {tokio}
    {future : List UInt8 → Exec (Poll (Except IoError Nat) × List UInt8 × Peekable PollScript B)}
    {call : List UInt8 → Exec (Except IoError Nat × List UInt8 × Peekable Script B)}
    (hgives : Gives n answer q future tokio)
    (hlift : ∀ buf, buf.length = n →
      future buf = (fun out => (.ready out.1, out.2.1, out.2.2.lift)) <$> call buf) :
    ∃ result p', answer = .ready result ∧ q = p'.lift ∧ Returns n result p' call := by
  have hcall (buf : List UInt8) (h : buf.length = n) : ∃ result p' buf', answer = .ready result ∧
      q = p'.lift ∧ call buf = .ok (result.map List.length, buf', p') ∧
        ∀ d, result = .ok d → buf'.take d.length = d := by
    obtain ⟨buf', hrun, htake⟩ := hgives.future buf h
    rw [hlift buf h] at hrun
    obtain ⟨⟨count, buf'', p'⟩, hcall, hout⟩ := Exec.map_eq_ok.mp hrun
    simp only [Prod.mk.injEq] at hout
    obtain ⟨hpoll, rfl, rfl⟩ := hout
    obtain ⟨result, rfl, rfl⟩ := Poll.ready_of_mapOk hpoll
    refine ⟨result, p', _, rfl, rfl, hcall, ?_⟩
    rintro d rfl
    exact htake d rfl
  obtain ⟨result, p', _, hanswer, hq, -⟩ := hcall (List.replicate n 0) List.length_replicate
  refine ⟨result, p', hanswer, hq, ?_⟩
  intro buf h
  obtain ⟨result', p'', buf', hanswer', hq', hrun, htake⟩ := hcall buf h
  obtain rfl := Poll.ready.inj (hanswer.symm.trans hanswer')
  obtain rfl := Peekable.lift_injective (hq.symm.trans hq')
  exact ⟨buf', hrun, htake⟩

/-! ## Reading what was peeked -/

section Repeat

variable [LawfulBuffer B] {d : List UInt8}

omit [LawfulBuffer B] in
/-- What a peek has put to the front of its slice is at the front of the peek buffer. -/
theorem Peeks.front {R : Type} [Ledger R UInt8] {p p' : Peekable R B} {buf buf' : List UInt8}
    (h : Peeks p buf (some d.length) buf' p') (htake : buf'.take d.length = d) : d <+: p'.peeked := by
  obtain ⟨hn, rfl, -⟩ := h
  rw [take_append_of_length (by rw [List.length_take]; omega)] at htake
  rw [← htake]
  exact List.take_prefix _ _

theorem pollRead_repeats {p : Peekable PollScript B} (hd : d ≠ []) (h : d <+: p.peeked) :
    ∃ p', Gives d.length (.ready (.ok d)) p' (Future.pollRead p) (Tokio.pollRead p) ∧
      p'.reader = p.reader := by
  have hpos : 0 < p.peeked.length := (List.length_pos_iff.mpr hd).trans_le h.length_le
  obtain ⟨buffer, -, hconsume, hclear⟩ := exists_served h.length_le
  refine ⟨{ p with buffer }, ?_, rfl⟩
  have hgives := pollRead_served hpos h.length_le hconsume hclear
  rwa [← List.prefix_iff_eq_take.mp h] at hgives

theorem read_repeats {p : Peekable Script B} (hd : d ≠ []) (h : d <+: p.peeked) :
    ∃ p', Returns d.length (.ok d) p' p.read ∧ p'.reader = p.reader := by
  obtain ⟨q, hgives, hreader⟩ := pollRead_repeats (p := p.lift) hd h
  obtain ⟨result, p', hresult, rfl, hreturns⟩ :=
    Returns.of_gives hgives fun buf _ => pollRead_lift p buf
  obtain rfl := Poll.ready.inj hresult
  exact ⟨p', hreturns, Peekable.reader_of_lift hreader⟩

end Repeat

theorem Foretells.of_lift {answer : Poll (Except IoError (List UInt8))} {p₁ p₂ : Peekable Script B}
    (h : Foretells answer p₁.lift p₂.lift) : Foretells answer p₁ p₂ := by
  have hundelivered (p : Peekable Script B) : p.lift.undelivered = p.undelivered := by
    rw [Peekable.undelivered, Peekable.undelivered, Peekable.peeked_lift]
    simp [Peekable.lift, Source.rest]
  refine ⟨h.succeeds, Peekable.reader_of_lift h.reader, ?_⟩
  rw [← hundelivered, ← hundelivered]
  exact h.undelivered

section Foretold

variable [LawfulBuffer B] {w fuel : Nat} {d : List UInt8}

/-- Unless the peek buffer refuses the length or the reader fails, a read answers as the
peek has done. -/
theorem pollPeek_foretold (p : Peekable PollScript B) (hfuel : Script.weight p.events < fuel)
    (hw : 0 < w) (hgrant : (resize p.buffer w).1 = .ok ())
    (hnext : ∀ e, p.reader.events.head? ≠ some (.ready (.error e))) :
    ∃ answer p₁ p₂, Gives w answer p₁ (Future.pollPeek fuel p) (Tokio.pollPeek fuel p) ∧
      Gives w answer p₂ (Future.pollRead p) (Tokio.pollRead p) ∧ Foretells answer p₁ p₂ := by
  obtain ⟨answer, p₁, hpeek, hgives⟩ := pollPeek_gives p w hfuel
  obtain ⟨answer', p₂, hread, hgives'⟩ := pollRead_gives p w
  obtain ⟨rfl, hforetells⟩ := hpeek.foretells hread hw hgrant hnext
  exact ⟨answer', p₁, p₂, hgives, hgives', hforetells⟩

theorem peek_foretold (p : Peekable Script B) (hfuel : Script.weight p.reader.events < fuel)
    (hw : 0 < w) (hgrant : (resize p.buffer w).1 = .ok ())
    (hnext : ∀ e, p.reader.events.head? ≠ some (.error e)) :
    ∃ answer p₁ p₂, Returns w answer p₁ (p.peek fuel) ∧ Returns w answer p₂ p.read ∧
      Foretells (.ready answer) p₁ p₂ := by
  have hnext' (e : IoError) : p.lift.reader.events.head? ≠ some (.ready (.error e)) := by
    simpa [Peekable.lift, PollScript.lift] using hnext e
  have hcalm (e : IoError)
      (he : (PeekableReader.settled p.reader.events).head? = some (.error e)) :
      e.kind ≠ .wouldBlock := by
    rw [PeekableReader.settled_of_head fun e he => absurd he (hnext e)] at he
    exact absurd he (hnext e)
  obtain ⟨answer, q₁, q₂, hgives, hgives', hforetells⟩ :=
    pollPeek_foretold p.lift (by simpa using hfuel) hw hgrant hnext'
  obtain ⟨result, p₁, rfl, rfl, hreturns⟩ :=
    Returns.of_gives hgives fun buf _ => pollPeek_lift p buf hfuel hcalm
  obtain ⟨result', p₂, hresult, rfl, hreturns'⟩ :=
    Returns.of_gives hgives' fun buf _ => pollRead_lift p buf
  cases hresult
  exact ⟨result, p₁, p₂, hreturns, hreturns', hforetells.of_lift⟩

theorem pollPeek_repeated {p p₁ : Peekable PollScript B} (hd : d ≠ [])
    (hgives : Gives w (.ready (.ok d)) p₁ (Future.pollPeek fuel p) (Tokio.pollPeek fuel p)) :
    ∃ p₂, Gives d.length (.ready (.ok d)) p₂ (Future.pollRead p₁) (Tokio.pollRead p₁) ∧
      p₂.reader = p₁.reader := by
  obtain ⟨buf', hrun, htake⟩ := hgives.future (List.replicate w 0) List.length_replicate
  have hpeeks : Peeks p _ (some d.length) buf' p₁ := (Future.pollPeek_sat fuel p _).post hrun
  exact pollRead_repeats hd (hpeeks.front (htake d rfl))

theorem peek_repeated {p p₁ : Peekable Script B} (hd : d ≠ [])
    (hreturns : Returns w (.ok d) p₁ (p.peek fuel)) :
    ∃ p₂, Returns d.length (.ok d) p₂ p₁.read ∧ p₂.reader = p₁.reader := by
  obtain ⟨buf', hrun, htake⟩ := hreturns (List.replicate w 0) List.length_replicate
  have hpeeks : Peeks p _ (some d.length) buf' p₁ := (Peekable.peek_sat fuel p _).post hrun
  exact read_repeats hd (hpeeks.front (htake d rfl))

end Foretold

theorem peek_foretells_read [LawfulBuffer B] :
    (∀ (p : Peekable Script B) (w fuel : Nat), Script.weight p.reader.events < fuel → 0 < w →
      (resize p.buffer w).1 = .ok () → (∀ e, p.reader.events.head? ≠ some (.error e)) →
        ∃ answer p₁ p₂, Returns w answer p₁ (p.peek fuel) ∧ Returns w answer p₂ p.read ∧
          Foretells (.ready answer) p₁ p₂) ∧
    (∀ (p : Peekable PollScript B) (w fuel : Nat), Script.weight p.events < fuel → 0 < w →
      (resize p.buffer w).1 = .ok () → (∀ e, p.reader.events.head? ≠ some (.ready (.error e))) →
        ∃ answer p₁ p₂, Gives w answer p₁ (Future.pollPeek fuel p) (Tokio.pollPeek fuel p) ∧
          Gives w answer p₂ (Future.pollRead p) (Tokio.pollRead p) ∧ Foretells answer p₁ p₂) ∧
    (∀ (p p₁ : Peekable Script B) (w fuel : Nat) (d : List UInt8), d ≠ [] →
      Returns w (.ok d) p₁ (p.peek fuel) →
        ∃ p₂, Returns d.length (.ok d) p₂ p₁.read ∧ p₂.reader = p₁.reader) ∧
    ∀ (p p₁ : Peekable PollScript B) (w fuel : Nat) (d : List UInt8), d ≠ [] →
      Gives w (.ready (.ok d)) p₁ (Future.pollPeek fuel p) (Tokio.pollPeek fuel p) →
        ∃ p₂, Gives d.length (.ready (.ok d)) p₂ (Future.pollRead p₁) (Tokio.pollRead p₁) ∧
          p₂.reader = p₁.reader := by
  refine ⟨?_, ?_, ?_, ?_⟩
  · intro p w fuel hfuel hw hgrant hnext
    exact peek_foretold p hfuel hw hgrant hnext
  · intro p w fuel hfuel hw hgrant hnext
    exact pollPeek_foretold p hfuel hw hgrant hnext
  · intro p p₁ w fuel d hd hreturns
    exact peek_repeated hd hreturns
  · intro p p₁ w fuel d hd hgives
    exact pollPeek_repeated hd hgives

/-- A peek at two bytes of three foretells the read. -/
theorem peek_foretells_read_chunk :
    ∃ p : Peekable Script VecBuffer, p = ⟨⟨[.data [1, 2, 3]]⟩, .ofBytes [], none⟩ ∧
      ∃ answer p₁ p₂, Returns 2 answer p₁ (p.peek 9) ∧ Returns 2 answer p₂ p.read ∧
        Foretells (.ready answer) p₁ p₂ :=
  ⟨_, rfl, peek_foretells_read.1 _ 2 9 (by decide) (by decide) rfl (by simp)⟩

/-- After a peek that reports the end of file, a read of no bytes reaches the reader. -/
theorem empty_read_not_foretold :
    ∃ p p₁ p₂ : Peekable Script (BoundedBuffer 2), p.peek 9 [0] = .ok (.ok 0, [0], p₁) ∧
      p₁.read [] = .ok (.error (.ofKind .connectionReset), [], p₂) ∧ p₂.reader ≠ p₁.reader :=
  ⟨⟨⟨[.data [], .error (.ofKind .connectionReset)]⟩, ⟨[]⟩, none⟩,
    ⟨⟨[.error (.ofKind .connectionReset)]⟩, ⟨[]⟩, none⟩, ⟨⟨[]⟩, ⟨[]⟩, none⟩, rfl, rfl, by decide⟩

end PeekableReader
