import PeekableReader.Text

/-!
# Peeking to the end

`peek_to_end` keeps its destination in step with the peek buffer at every return and at
every pending poll, and counts its bytes only when the reader has reported its end of file.

With a buffer of a fixed bound, `peek_to_end` and `peek_to_string` succeed exactly on the
streams that leave a byte free: the end of file shows only to a read with some room.
-/

namespace PeekableReader

open Buffer

variable {B : Type} [Buffer B] [LawfulBuffer B]

/-! ## The destination -/

/-- What a run has gathered is in the peek buffer, and in the destination behind `dst`. -/
structure InStep (p : Peekable PollScript B) (dst : List UInt8) (dst' peeked : List UInt8)
    (events : List Event) : Prop where
  mirrors : dst' = dst ++ peeked
  handed : ∃ d, peeked = p.peeked ++ d ∧ Script.bytes p.events = d ++ Script.bytes events

theorem peekToEnd_inStep (p : Peekable PollScript B) (dst : List UInt8) :
    ((Whole.toEnd dst).Always p fun final =>
      InStep p dst final.dst final.peeked final.events ∧
      ∀ n, final.result = .ok n → final.AtEof p ∧
        ∃ appended, final.dst = dst ++ appended ∧ n = some appended.length) ∧
    ∀ (flavour : AsyncFlavour) f,
      Relation.TransGen (Pends flavour.peekToEnd) (.new p dst) f →
        InStep p dst f.buf f.peekable.peeked f.peekable.events := by
  constructor
  · apply (Whole.toEnd_stops p dst).mono
    intro final ⟨hdst, stop, hstops, hresult⟩
    refine ⟨⟨hdst, hstops.handed⟩, ?_⟩
    intro n hn
    cases stop with
    | error e =>
      rw [hresult] at hn
      cases hn
    | ok u =>
      rw [hresult] at hn
      cases hn
      exact ⟨hstops.atEof, final.peeked, hdst, rfl⟩
  · intro flavour f run
    -- a pending poll keeps what the polls before it have gathered
    have hpolled {fuel : Nat} {f g : PeekToEnd PollScript B} (hf : f.Mirrors dst)
        (hpoll : flavour.peekToEnd fuel f = .ok (.pending, g)) :
        g.buf = dst ++ g.peekable.peeked ∧ g.Mirrors dst ∧
          ∃ d, Fetched f.peekable g.peekable d := by
      have hsat := PeekToEnd.pollWith_sat Future.readTail_lawful fuel dst f hf
      rw [← flavour.peekToEnd_eq, hpoll] at hsat
      exact ⟨hsat.peeks.mirrors, hsat.mirrors, hsat.peeks.fetched⟩
    have hrun : f.buf = dst ++ f.peekable.peeked ∧ f.Mirrors dst ∧
        ∃ d, Fetched p f.peekable d := by
      induction run with
      | single hpends =>
        obtain ⟨fuel, hpoll⟩ := hpends
        exact hpolled (PeekToEnd.mirrors_new p dst) hpoll
      | tail _ hpends ih =>
        obtain ⟨-, hmirrors, d, hd⟩ := ih
        obtain ⟨fuel, hpoll⟩ := hpends
        obtain ⟨hbuf, hmirrors', d', hd'⟩ := hpolled hmirrors hpoll
        exact ⟨hbuf, hmirrors', d ++ d', hd.trans hd'⟩
    obtain ⟨hbuf, -, d, hd⟩ := hrun
    exact ⟨hbuf, d, hd.peeked, PollScript.hands_iff.mp hd.hands⟩

/-- The destination `[0]` gains the byte at hand and the byte that arrives after a pending poll. -/
theorem peekToEnd_inStep_resumed :
    ∃ p : Peekable PollScript (BoundedBuffer 3),
      p = ⟨⟨[.pending, .ready (.data [2])]⟩, ⟨[1]⟩, none⟩ ∧
      ∃ final, (Whole.toEnd [0]).drive .tokio 2 9 p = .ok final ∧
        InStep p [0] final.dst final.peeked final.events ∧
        ∀ n, final.result = .ok n → final.AtEof p ∧
          ∃ appended, final.dst = [0] ++ appended ∧ n = some appended.length :=
  ⟨_, rfl, (peekToEnd_inStep _ _).1.drive .tokio (by decide) (by decide)⟩

/-! ## Buffers with a bound -/

omit [LawfulBuffer B] in
theorem Granted.le {b : B} {bound n : Nat} (hbound : BoundedBy bound b) (h : Granted b n) :
    n ≤ bound := by
  obtain ⟨b', hb, m, hm, hres⟩ := h
  exact hm.trans ((hbound b' hb m).mp hres)

/-- The outcome on a stream of the bytes `total`, with room for `bound` of them: it fits with
a byte to spare, or the buffer is filled up and refuses one byte more. -/
structure Final.Fits (p : Peekable PollScript B) (bound : Nat) (total : List UInt8) (final : Final) :
    Prop where
  succeeds : (∃ n, final.result = .ok n) ↔ total.length < bound
  refuses (h : ¬ total.length < bound) :
    (∃ e b, final.result = .error e ∧ Reshapes p.buffer b ∧ asSlice b = total.take bound ∧
      (resize b (bound + 1)).1 = .error e) ∧
    final.peeked = total.take bound ∧ EndsInEof final.events ∧ toEof final.events = total.drop bound

/-- How the loop stops, by whether the stream fits. -/
theorem Stops.bounded {p : Peekable PollScript B} {bound : Nat} (hbound : BoundedBy bound p.buffer)
    (hle : p.peeked.length ≤ bound) (hends : EndsInEof p.events) {stop : Except IoError Unit}
    {bytes : List UInt8} {es : List Event} (h : Stops p.buffer p.events stop bytes es) :
    stop = .ok () ∧ bytes = p.peeked ++ toEof p.events ∧
        (p.peeked ++ toEof p.events).length < bound ∨
      bound ≤ (p.peeked ++ toEof p.events).length ∧
        (∃ e b, stop = .error e ∧ Reshapes p.buffer b ∧
          asSlice b = (p.peeked ++ toEof p.events).take bound ∧
          (resize b (bound + 1)).1 = .error e) ∧
        bytes = (p.peeked ++ toEof p.events).take bound ∧ EndsInEof es ∧
        toEof es = (p.peeked ++ toEof p.events).drop bound := by
  cases h with
  | @ended d hbytes hending hgranted =>
    have htotal : bytes = p.peeked ++ toEof p.events := by
      rw [hbytes, toEof_eq hends, hending]
      rfl
    have hstop := endsInEof_iff.mp hends
    rw [hending] at hstop
    exact .inl ⟨hstop, htotal, htotal ▸ hgranted.le hbound⟩
  | @refused d e b₁ b₂ hstop hbytes hending hb hb₁ hgrow hgranted =>
    obtain ⟨hends', htoEof⟩ := endsInEof_of_after hending hends
    have htotal : p.peeked ++ toEof p.events = bytes ++ toEof es := by
      rw [htoEof, hbytes, List.append_assoc]
      rfl
    -- the buffer is full: it may not grow, and had been granted what it holds
    have hfull : bytes.length = bound := by
      apply Nat.le_antisymm
      · by_cases hd : d = []
        · subst hd
          rw [hbytes, List.append_nil]
          exact hle
        · exact (hgranted hd).le hbound
      · by_contra hlt
        have hroom : (asSlice b₁).length < bound := by rw [hb₁]; omega
        obtain ⟨g, b', hgrown⟩ := (hbound.reshapes hb).grow_iff.mpr hroom
        cases hgrow.symm.trans hgrown
    have htake : (p.peeked ++ toEof p.events).take bound = bytes := by
      rw [htotal, ← hfull, List.take_left]
    obtain ⟨b', hrefused, hlast⟩ := exists_refused hgrow
    rw [hb₁, hfull] at hlast
    refine .inr ⟨?_, ⟨e, b', hstop, hb.trans hrefused.reshapes, ?_, by rw [hlast]⟩, htake.symm,
      hends', ?_⟩
    · rw [htotal, List.length_append, hfull]
      exact Nat.le_add_right _ _
    · rw [hrefused.asSlice_eq, hb₁, htake]
    · rw [htotal, ← hfull, List.drop_left]

/-- It is enough that the result is that of the loop, with some count if it succeeds. -/
theorem Final.Fits.of_stops {p : Peekable PollScript B} {bound : Nat}
    (hbound : BoundedBy bound p.buffer) (hle : p.peeked.length ≤ bound) (hends : EndsInEof p.events)
    {final : Final} {stop : Except IoError Unit}
    (hstops : Stops p.buffer p.events stop final.peeked final.events)
    (hok : stop = .ok () → final.peeked = p.peeked ++ toEof p.events → ∃ n, final.result = .ok n)
    (herror : ∀ e, stop = .error e → final.result = .error e) :
    final.Fits p bound (p.peeked ++ toEof p.events) := by
  obtain ⟨hstop, hbytes, hlt⟩ | ⟨hge, ⟨e, b, hstop, hb⟩, hrest⟩ :=
    hstops.bounded hbound hle hends
  · exact ⟨⟨fun _ => hlt, fun _ => hok hstop hbytes⟩, fun hnot => absurd hlt hnot⟩
  · refine ⟨⟨?_, fun hlt => absurd hlt (Nat.not_lt.mpr hge)⟩,
      fun _ => ⟨⟨e, b, herror e hstop, hb⟩, hrest⟩⟩
    rintro ⟨n, hn⟩
    rw [herror e hstop] at hn
    cases hn

theorem bounded_succeeds_iff (p : Peekable PollScript B) {bound : Nat}
    (hbound : BoundedBy bound p.buffer) (hle : p.peeked.length ≤ bound)
    (hends : EndsInEof p.events) :
    (∀ dst, (Whole.toEnd dst).Always p (Final.Fits p bound (p.peeked ++ toEof p.events))) ∧
    (Utf8.Valid (p.peeked ++ toEof p.events) → ∀ dst,
      (Whole.toString dst).Always p (Final.Fits p bound (p.peeked ++ toEof p.events))) := by
  constructor
  · intro dst
    apply (Whole.toEnd_stops p dst).mono
    intro final ⟨_, stop, hstops, hresult⟩
    refine .of_stops hbound hle hends hstops ?_ ?_
    · rintro rfl -
      exact ⟨_, hresult⟩
    · rintro e rfl
      exact hresult
  · intro hvalid dst
    apply (Whole.toString_stops p dst (earlyReject_eq_none_iff.mpr ⟨_, hvalid⟩)).mono
    intro final ⟨stop, result, buf, hstops, hfinish, hresult, _⟩
    refine .of_stops hbound hle hends hstops ?_ ?_
    · rintro rfl hpeeked
      obtain ⟨buf', hfinish', -⟩ := finishString_valid hvalid dst
      rw [hpeeked, hfinish'] at hfinish
      cases hfinish
      exact ⟨_, hresult⟩
    · rintro e rfl
      obtain ⟨buf', good, hfinish', -⟩ := finishString_failed e final.peeked dst
      rw [hfinish'] at hfinish
      cases hfinish
      exact hresult

/-- Three bytes do not go into three, for want of room to see the end of file. -/
theorem bounded_succeeds_iff_full :
    ∃ p : Peekable PollScript (BoundedBuffer 3),
      p = ⟨⟨[.ready (.data [2]), .pending, .ready (.data [3])]⟩, ⟨[1]⟩, none⟩ ∧
      ∃ final, (Whole.toEnd []).drive .future 2 9 p = .ok final ∧ final.Fits p 3 [1, 2, 3] :=
  ⟨_, rfl, ((bounded_succeeds_iff _ (BoundedBuffer.boundedBy _) (by decide) (by decide)).1 []).drive
    .future (by decide) (by decide)⟩

end PeekableReader
