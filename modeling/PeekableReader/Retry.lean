import PeekableReader.Script.Retry

/-!
# Dropping a future and starting again

Dropping `PeekExact` or `PeekToEnd` at any of its pending polls and starting a new one does
not change how the operation ends, whatever the buffer and the script. The same is true of
`PeekToString` if the reader comes to an end of file, unless it is dropped when what it has
peeked is already invalid and the peek buffer may not grow as far as the end of file: then
the new future refuses at once a text whose reading would have failed.
-/

namespace PeekableReader

open Buffer

variable {B : Type} [Buffer B]

/-- What the future that is ready in the end returns and leaves behind. -/
structure Ended (B : Type) where
  result : Except IoError (Option Nat)
  dst : List UInt8
  peekable : Peekable PollScript B
  deriving DecidableEq

/-- Drive `PeekExact`. At the `k`-th pending poll, `slices k` may hold the slice for a new
future that takes the place of the dropped one. -/
def retryExact (flavour : AsyncFlavour) (polls fuel : Nat) (p : Peekable PollScript B)
    (buf : List UInt8) (slices : Nat → Option (List UInt8)) : Exec (Ended B) :=
  match flavour with
  | .future => do
    let (result, f) ←
      driveRetry (Future.PeekExact.poll fuel) PeekExact.restart polls slices (.new p buf)
    return ⟨result.map fun () => none, f.buf, f.peekable⟩
  | .tokio => do
    let (result, f) ←
      driveRetry (Tokio.PeekExact.poll fuel) PeekExact.restart polls slices (.new p buf)
    return ⟨result.map some, f.buf, f.peekable⟩

/-- Drive `PeekToEnd`. At the `k`-th pending poll, if `drops k`, a new future with a fresh
destination takes the place of the dropped one. -/
def retryToEnd (flavour : AsyncFlavour) (polls fuel : Nat) (p : Peekable PollScript B)
    (dst : List UInt8) (drops : Nat → Bool) : Exec (Ended B) := do
  let poll := match flavour with
    | .future => Future.PeekToEnd.poll fuel
    | .tokio => Tokio.PeekToEnd.poll fuel
  let (result, f) ←
    driveRetry poll PeekToEnd.restart polls (fun k => if drops k then some dst else none) (.new p dst)
  return ⟨result.map some, f.buf, f.peekable⟩

/-- Drive `PeekToString`. At the `k`-th pending poll, if `drops k`, a new future with a fresh
destination takes the place of the dropped one. -/
def retryToString (flavour : AsyncFlavour) (polls fuel : Nat) (p : Peekable PollScript B)
    (dst : Str) (drops : Nat → Bool) : Exec (Ended B) := do
  let poll := match flavour with
    | .future => Future.PeekToString.poll fuel
    | .tokio => Tokio.PeekToString.poll fuel
  let (result, f) ←
    driveRetry poll PeekToString.restart polls (fun k => if drops k then some dst else none) (.new p dst)
  return ⟨result.map some, f.buf.bytes, f.peekable⟩

/-- The peek buffer can grow as far as the end of file wherever the future is dropped with
bytes peeked that no text begins with. -/
def DropsSafely (flavour : AsyncFlavour) (fuel : Nat) (p : Peekable PollScript B) (dst : Str)
    (drops : Nat → Bool) : Prop :=
  let poll := match flavour with
    | .future => Future.PeekToString.poll fuel
    | .tokio => Tokio.PeekToString.poll fuel
  ∀ k f, drops k = true → pendingAt poll k (.new p dst) = some f →
    (earlyReject f.peekable.peeked).isSome → Grows f.peekable.buffer (p.peeked ++ toEof p.events)

/-- The same result, buffer and reader, and on success the same destination. -/
structure Ended.SameExact (r r' : Ended B) : Prop where
  result : r.result = r'.result
  peekable : r.peekable = r'.peekable
  dst : ∀ n, r.result = .ok n → r.dst = r'.dst

variable [LawfulBuffer B] {fuel polls : Nat} {p : Peekable PollScript B}

/-! ## `PeekExact` -/

namespace PeekExact

/-- A poll of either flavour ends, and does not look at the destination. -/
structure Retryable {α : Type} (fuel : Nat)
    (poll : PeekExact PollScript B → Exec (Poll (Except IoError α) × PeekExact PollScript B)) :
    Prop where
  twins {n : Nat} {f g : PeekExact PollScript B} (h : Twins n f g) :
    Exec.Rel (PollRel SameEnd (Twins n)) (poll f) (poll g)
  ends {f : PeekExact PollScript B} (hf : f.Resumable)
    (hfuel : Script.weight f.peekable.events < fuel) :
    (poll f).Ends (PollEnds (fun _ => True) fun g => g.Resumable ∧ Waited f.peekable g.peekable)

theorem retryable (eofError : IoError) (hfuel : 0 < fuel) :
    Retryable fuel (pollWith (Future.readTail (R := PollScript) (B := B)) eofError fuel) where
  twins := pollWith_twins Future.readTail_lawful eofError hfuel
  ends := pollWith_ends eofError

theorem tokio_retryable (hfuel : 0 < fuel) :
    Retryable fuel (Tokio.PeekExact.poll (R := PollScript) (B := B) fuel) where
  twins {n f g} h := by
    simp only [Tokio.PeekExact.poll, tokio_readTail_eq]
    apply ((retryable Tokio.eof hfuel).twins h).bind
    intro out out' hsame
    obtain ⟨poll, f'⟩ := out
    obtain ⟨poll', g'⟩ := out'
    rw [h.length_left, h.length_right]
    cases poll with
    | pending =>
      cases poll' with
      | pending => exact hsame
      | ready result => exact hsame.elim
    | ready result =>
      cases poll' with
      | pending => exact hsame.elim
      | ready result' =>
        obtain ⟨rfl, hpeekable, hbuf⟩ : SameEnd (result, f') (result', g') := hsame
        cases result with
        | ok u => exact ⟨rfl, hpeekable, fun _ _ => hbuf u rfl⟩
        | error e => exact ⟨rfl, hpeekable, by intro a ha; cases ha⟩
  ends {f} hf hw := by
    simp only [Tokio.PeekExact.poll, tokio_readTail_eq]
    apply ((retryable Tokio.eof hfuel).ends hf hw).bind
    intro out hends
    obtain ⟨poll, g⟩ := out
    cases poll using Poll.casesResult with
    | pending => exact Exec.ends_ok.mpr hends
    | ok u => exact Exec.ends_ok.mpr trivial
    | error e => exact Exec.ends_ok.mpr trivial

omit [LawfulBuffer B] in
/-- With drops and without, the future is ready in the end, and in the same way. -/
theorem Retryable.same {α : Type}
    {poll : PeekExact PollScript B → Exec (Poll (Except IoError α) × PeekExact PollScript B)}
    (h : Retryable fuel poll) (hfuel : Script.weight p.events < fuel) (hpolls : p.pendings < polls)
    (buf : List UInt8) {slices : Nat → Option (List UInt8)}
    (hslices : ∀ k slice, slices k = some slice → slice.length = buf.length) :
    ∃ out out', driveRetry poll PeekExact.restart polls slices (.new p buf) = .ok out ∧
      driveRetry poll PeekExact.restart polls (fun _ => none) (.new p buf) = .ok out' ∧
      SameEnd out out' := by
  have hstep (f : PeekExact PollScript B)
      (hf : f.Resumable ∧ Script.weight f.peekable.events < fuel) :
      (poll f).Ends (PollEnds (fun _ => True) fun g =>
        (g.Resumable ∧ Script.weight g.peekable.events < fuel) ∧
          g.peekable.pendings < f.peekable.pendings) :=
    (h.ends hf.1 hf.2).mono fun _ hout => hout.bounded hf.2
  have hagain (slice : List UInt8) (f : PeekExact PollScript B) (_ : slice.length = buf.length)
      (hf : f.Resumable ∧ Script.weight f.peekable.events < fuel) :
      ((f.restart slice).Resumable ∧ Script.weight (f.restart slice).peekable.events < fuel) ∧
        (f.restart slice).peekable.pendings = f.peekable.pendings :=
    ⟨⟨resumable_new f.peekable slice, hf.2⟩, rfl⟩
  have hrejoin (slice : List UInt8) (f g : PeekExact PollScript B)
      (hslice : slice.length = buf.length) (ht : Twins buf.length f g) :
      Twins buf.length (f.restart slice) g := ht.restart hslice
  exact driveRetry_same (fun f : PeekExact PollScript B => f.peekable.pendings) hstep hagain
    (fun f g => h.twins) hrejoin polls slices hslices ⟨resumable_new p buf, hfuel⟩
    (twins_new p rfl) hpolls

end PeekExact

theorem retryExact_same (flavour : AsyncFlavour) (hfuel : Script.weight p.events < fuel)
    (hpolls : p.pendings < polls) (buf : List UInt8) {slices : Nat → Option (List UInt8)}
    (hslices : ∀ k slice, slices k = some slice → slice.length = buf.length) :
    ∃ r r', retryExact flavour polls fuel p buf slices = .ok r ∧
      retryExact flavour polls fuel p buf (fun _ => none) = .ok r' ∧ r.SameExact r' := by
  have hpos := Nat.zero_lt_of_lt hfuel
  cases flavour with
  | future =>
    obtain ⟨out, out', hrun, hrun', hresult, hpeekable, hbuf⟩ :=
      (PeekExact.retryable (.ofKind .unexpectedEof) hpos).same hfuel hpolls buf hslices
    change driveRetry (Future.PeekExact.poll fuel) _ _ _ _ = _ at hrun hrun'
    refine ⟨_, _, by simp only [retryExact, hrun, Exec.ok_bind]; rfl,
      by simp only [retryExact, hrun', Exec.ok_bind]; rfl, ?_, hpeekable, ?_⟩
    · exact congrArg (Except.map fun () => none) hresult
    · intro n hn
      cases hout : out.1 with
      | ok u => exact hbuf u hout
      | error e => simp [hout, Except.map] at hn
  | tokio =>
    obtain ⟨out, out', hrun, hrun', hresult, hpeekable, hbuf⟩ :=
      (PeekExact.tokio_retryable hpos).same hfuel hpolls buf hslices
    refine ⟨_, _, by simp only [retryExact, hrun, Exec.ok_bind]; rfl,
      by simp only [retryExact, hrun', Exec.ok_bind]; rfl, ?_, hpeekable, ?_⟩
    · exact congrArg (Except.map some) hresult
    · intro n hn
      cases hout : out.1 with
      | ok total => exact hbuf total hout
      | error e => simp [hout, Except.map] at hn

/-! ## `PeekToEnd` -/

/-- A schedule that repeats one destination. -/
theorem eq_of_drops {α : Type} {a : α} (drops : Nat → Bool) (k : Nat) (b : α)
    (h : (if drops k then some a else none) = some b) : b = a := by
  split at h
  · exact (Option.some.inj h).symm
  · cases h

theorem PeekToEnd.driveRetry_eq (hfuel : Script.weight p.events < fuel) (hpolls : p.pendings < polls)
    (dst : List UInt8) (drops : Nat → Bool) :
    ∃ out, driveRetry (Future.PeekToEnd.poll fuel) PeekToEnd.restart polls
        (fun k => if drops k then some dst else none) (.new p dst) = .ok out ∧
      driveRetry (Future.PeekToEnd.poll fuel) PeekToEnd.restart polls
        (fun k => if (fun _ => false) k then some dst else none) (.new p dst) = .ok out := by
  have hstep (f : PeekToEnd PollScript B)
      (hf : Mirrors dst f ∧ Script.weight f.peekable.events < fuel) :
      (Future.PeekToEnd.poll fuel f).Ends (PollEnds (fun _ => True) fun g =>
        (Mirrors dst g ∧ Script.weight g.peekable.events < fuel) ∧
          g.peekable.pendings < f.peekable.pendings) := by
    exact (pollWith_ends hf.1 hf.2).mono fun _ hout => hout.bounded hf.2
  have hagain (dst' : List UInt8) (f : PeekToEnd PollScript B) (hdst : dst' = dst)
      (hf : Mirrors dst f ∧ Script.weight f.peekable.events < fuel) :
      (Mirrors dst (f.restart dst') ∧ Script.weight (f.restart dst').peekable.events < fuel) ∧
        (f.restart dst').peekable.pendings = f.peekable.pendings :=
    ⟨⟨hdst ▸ mirrors_new f.peekable dst', hf.2⟩, rfl⟩
  have htwins (f g : PeekToEnd PollScript B) (h : Twins dst f g) :
      Exec.Rel (PollRel Eq (Twins dst)) (Future.PeekToEnd.poll fuel f)
        (Future.PeekToEnd.poll fuel g) := pollWith_twins Future.readTail_lawful fuel h
  have hrejoin (dst' : List UInt8) (f g : PeekToEnd PollScript B) (hdst : dst' = dst)
      (h : Twins dst f g) : Twins dst (f.restart dst') g :=
    ⟨h.peekable, hdst ▸ mirrors_new f.peekable dst', h.mirrors_right⟩
  obtain ⟨out, _, hrun, hrun', rfl⟩ := driveRetry_same
    (fun f : PeekToEnd PollScript B => f.peekable.pendings) hstep hagain htwins hrejoin polls _
    (eq_of_drops drops) ⟨mirrors_new p dst, hfuel⟩ ⟨rfl, mirrors_new p dst, mirrors_new p dst⟩ hpolls
  exact ⟨out, hrun, hrun'⟩

theorem retryToEnd_same (flavour : AsyncFlavour) (hfuel : Script.weight p.events < fuel)
    (hpolls : p.pendings < polls) (dst : List UInt8) (drops : Nat → Bool) :
    ∃ r, retryToEnd flavour polls fuel p dst drops = .ok r ∧
      retryToEnd flavour polls fuel p dst (fun _ => false) = .ok r := by
  obtain ⟨out, hrun, hrun'⟩ := PeekToEnd.driveRetry_eq hfuel hpolls dst drops
  refine ⟨⟨out.1.map some, out.2.buf, out.2.peekable⟩, ?_, ?_⟩
  · cases flavour with
    | future => simp only [retryToEnd, hrun, Exec.ok_bind]; rfl
    | tokio => simp only [retryToEnd, Whole.tokio_peekToEnd_poll, hrun, Exec.ok_bind]; rfl
  · cases flavour with
    | future => simp only [retryToEnd, hrun', Exec.ok_bind]; rfl
    | tokio => simp only [retryToEnd, Whole.tokio_peekToEnd_poll, hrun', Exec.ok_bind]; rfl

/-! ## `PeekToString` -/

namespace PeekToString

/-- However often it is dropped, the future ends as the text up to the end of file decides. -/
theorem Undisturbed.driveRetry_ends {dst : Str} {total : List UInt8} {f : PeekToString PollScript B}
    (h : Undisturbed dst total f) (hfuel : Script.weight f.peekable.events < fuel)
    (hpolls : f.peekable.pendings < polls) {schedule : Nat → Option Str}
    (hschedule : ∀ k dst', schedule k = some dst' → dst' = dst) :
    (driveRetry (Future.PeekToString.poll fuel) PeekToString.restart polls schedule f).Ends
      fun out => finishString (.ok ()) total dst = .ok (out.1, out.2.buf) := by
  have hstep (f : PeekToString PollScript B)
      (hf : Undisturbed dst total f ∧ Script.weight f.peekable.events < fuel) :
      (Future.PeekToString.poll fuel f).Ends
        (PollEnds (fun out => finishString (.ok ()) total dst = .ok (out.1, out.2.buf)) fun g =>
          (Undisturbed dst total g ∧ Script.weight g.peekable.events < fuel) ∧
            g.peekable.pendings < f.peekable.pendings) :=
    (hf.1.pollWith_ends hf.2).mono fun _ hout => hout.bounded hf.2
  have hagain (dst' : Str) (f : PeekToString PollScript B) (hdst : dst' = dst)
      (hf : Undisturbed dst total f ∧ Script.weight f.peekable.events < fuel) :
      (Undisturbed dst total (f.restart dst') ∧
        Script.weight (f.restart dst').peekable.events < fuel) ∧
        (f.restart dst').peekable.pendings = f.peekable.pendings :=
    ⟨⟨⟨hdst, hf.1.draining, hf.1.grows⟩, hf.2⟩, rfl⟩
  exact PeekableReader.driveRetry_ends (fun f : PeekToString PollScript B => f.peekable.pendings)
    hstep hagain polls schedule hschedule ⟨h, hfuel⟩ hpolls

/-- Dropped where the buffer grows as far as the end of file, the future ends as it would
have ended. -/
theorem joins_of_grows {dst : Str} {total : List UInt8} {f : PeekToString PollScript B}
    (hbuf : f.buf = dst) (hf : Draining total f.peekable) (hgrows : Grows f.peekable.buffer total)
    (hfuel : Script.weight f.peekable.events < fuel) (hpolls : f.peekable.pendings < polls)
    {schedule : Nat → Option Str} (hschedule : ∀ k dst', schedule k = some dst' → dst' = dst) :
    Joins (Future.PeekToString.poll fuel) PeekToString.restart SameText polls schedule
      (f.restart dst) f := by
  have hretried : Undisturbed dst total (f.restart dst) := ⟨rfl, hf, hgrows⟩
  have hkept : Undisturbed dst total f := ⟨hbuf, hf, hgrows⟩
  obtain ⟨out, hrun, hout⟩ := hretried.driveRetry_ends hfuel hpolls hschedule
  have hnever (k : Nat) (dst' : Str) (h : none = some dst') : dst' = dst := by cases h
  obtain ⟨out', hrun', hout'⟩ := hkept.driveRetry_ends hfuel hpolls hnever
  rw [driveRetry_none] at hrun'
  exact ⟨out, out', hrun, hrun', by simpa [SameText] using hout.symm.trans hout'⟩

/-- At each drop either the prefix is not refused, and the new future goes on like the old
one, or it is refused as the whole text would have been. -/
theorem driveRetry_same (hfuel : Script.weight p.events < fuel) (hpolls : p.pendings < polls)
    (hend : EndsInEof p.events) {dst : Str} {drops : Nat → Bool}
    (hsafe : DropsSafely .future fuel p dst drops) :
    Joins (Future.PeekToString.poll fuel) PeekToString.restart SameText polls
      (fun k => if drops k then some dst else none) (.new p dst) (.new p dst) := by
  have hstep (f g : PeekToString PollScript B)
      (h : Twins dst (p.peeked ++ toEof p.events) f g ∧ Script.weight g.peekable.events < fuel) :
      ∃ out out', Future.PeekToString.poll fuel f = .ok out ∧
        Future.PeekToString.poll fuel g = .ok out' ∧
        PollRel SameText
          (fun f' g' => (Twins dst (p.peeked ++ toEof p.events) f' g' ∧
            Script.weight g'.peekable.events < fuel) ∧
              g'.peekable.pendings < g.peekable.pendings) out out' := by
    obtain ⟨out, out', hrun, hrun', hrel⟩ := h.1.pollWith_twins h.2
    refine ⟨out, out', hrun, hrun', hrel.imp (fun _ _ => id) ?_⟩
    rintro f' g' ⟨htwins, hwaited⟩
    exact ⟨⟨htwins, hwaited.weight_le.trans_lt h.2⟩, hwaited.pendings_lt⟩
  apply driveRetry_joins (fun f : PeekToString PollScript B => f.peekable.pendings) hstep polls _
    ?_ ⟨⟨rfl, rfl, rfl, ⟨hend, rfl⟩, .inl rfl⟩, hfuel⟩ hpolls
  rintro k dst' f g hdst hpending ⟨htwins, hweight⟩
  obtain rfl := eq_of_drops drops k dst' hdst
  have hdrop : drops k = true := by
    by_contra h
    simp [h] at hdst
  cases hearly : earlyReject g.peekable.peeked with
  | none =>
    exact .inl ⟨⟨htwins.peekable, rfl, htwins.buf_right, htwins.draining, .inr hearly⟩, hweight⟩
  | some e =>
    have hgrows := hsafe k g hdrop hpending (by simp [hearly])
    have hjoins fuel' (hpolls' : g.peekable.pendings < fuel') :=
      joins_of_grows htwins.buf_right htwins.draining hgrows hweight hpolls'
        fun j => eq_of_drops drops (j + (k + 1))
    exact .inr fun fuel' h => by simpa only [restart, htwins.peekable] using hjoins fuel' h

end PeekToString

omit [LawfulBuffer B] in
/-- On a script the polls of the two flavours are the same. -/
theorem DropsSafely.future {flavour : AsyncFlavour} {dst : Str} {drops : Nat → Bool}
    (h : DropsSafely flavour fuel p dst drops) : DropsSafely .future fuel p dst drops := by
  cases flavour with
  | future => exact h
  | tokio => simpa only [DropsSafely, Whole.tokio_peekToString_poll] using h

theorem retryToString_same (flavour : AsyncFlavour) (hfuel : Script.weight p.events < fuel)
    (hpolls : p.pendings < polls) (hend : EndsInEof p.events) {dst : Str} {drops : Nat → Bool}
    (hsafe : DropsSafely flavour fuel p dst drops) :
    ∃ r r', retryToString flavour polls fuel p dst drops = .ok r ∧
      retryToString flavour polls fuel p dst (fun _ => false) = .ok r' ∧
      r.result = r'.result ∧ r.dst = r'.dst := by
  obtain ⟨out, out', hrun, hrun', hresult, hbuf⟩ :=
    PeekToString.driveRetry_same hfuel hpolls hend hsafe.future
  rw [← driveRetry_none PeekToString.restart] at hrun'
  refine ⟨⟨out.1.map some, out.2.buf.bytes, out.2.peekable⟩,
    ⟨out'.1.map some, out'.2.buf.bytes, out'.2.peekable⟩, ?_, ?_, ?_, ?_⟩
  · cases flavour with
    | future => simp only [retryToString, hrun, Exec.ok_bind]; rfl
    | tokio => simp only [retryToString, Whole.tokio_peekToString_poll, hrun, Exec.ok_bind]; rfl
  · cases flavour with
    | future => simp only [retryToString, Bool.false_eq_true, if_false, hrun', Exec.ok_bind]; rfl
    | tokio =>
      simp only [retryToString, Whole.tokio_peekToString_poll, Bool.false_eq_true, if_false, hrun',
        Exec.ok_bind]
      rfl
  · rw [hresult]
  · rw [hbuf]

/-! ## All three -/

theorem retry_harmless (flavour : AsyncFlavour) (p : Peekable PollScript B) {polls fuel : Nat}
    (hfuel : Script.weight p.events < fuel) (hpolls : p.pendings < polls) :
    (∀ (buf : List UInt8) (slices : Nat → Option (List UInt8)),
      (∀ k slice, slices k = some slice → slice.length = buf.length) →
      ∃ r r', retryExact flavour polls fuel p buf slices = .ok r ∧
        retryExact flavour polls fuel p buf (fun _ => none) = .ok r' ∧ r.SameExact r') ∧
    (∀ (dst : List UInt8) (drops : Nat → Bool),
      ∃ r, retryToEnd flavour polls fuel p dst drops = .ok r ∧
        retryToEnd flavour polls fuel p dst (fun _ => false) = .ok r) ∧
    (EndsInEof p.events → ∀ (dst : Str) (drops : Nat → Bool),
      DropsSafely flavour fuel p dst drops →
      ∃ r r', retryToString flavour polls fuel p dst drops = .ok r ∧
        retryToString flavour polls fuel p dst (fun _ => false) = .ok r' ∧
        r.result = r'.result ∧ r.dst = r'.dst) :=
  ⟨fun buf _ hslices => retryExact_same flavour hfuel hpolls buf hslices,
    fun dst drops => retryToEnd_same flavour hfuel hpolls dst drops,
    fun hend _ _ hsafe => retryToString_same flavour hfuel hpolls hend hsafe⟩

/-- The bytes of a character come one by one, in a text that is invalid further on and does
not fit into the peek buffer. -/
def splitCharacter : Peekable PollScript (BoundedBuffer 3) :=
  ⟨⟨[.ready (.data [0xC3]), .pending, .ready (.data [0xA9, 1]), .ready (.data [0xFF])]⟩, ⟨[]⟩, none⟩

/-- Dropped between the two bytes. -/
theorem retry_harmless_character :
    ∃ r r', retryToString .tokio 2 8 splitCharacter .empty (fun _ => true) = .ok r ∧
      retryToString .tokio 2 8 splitCharacter .empty (fun _ => false) = .ok r' ∧
      r.result = r'.result ∧ r.dst = r'.dst := by
  apply (retry_harmless .tokio splitCharacter (by decide) (by decide)).2.2
  · exact .inr (.inr (.inr trivial))
  · have hfirst : (pendingAt (Tokio.PeekToString.poll 8) 0 (.new splitCharacter .empty)).map
        (fun g => (earlyReject g.peekable.peeked).isSome) = some false := by decide +kernel
    have hnone k : pendingAt (Tokio.PeekToString.poll 8) (k + 1) (.new splitCharacter .empty) = none := by
      induction k with
      | zero => exact Option.isNone_iff_eq_none.mp (by decide +kernel)
      | succ k ih => exact pendingAt_succ_eq_none ih
    intro k f _ hf hearly
    cases k with
    | zero =>
      have hvalid := (congrArg _ hf).symm.trans hfirst
      exact absurd (hearly.symm.trans (Option.some.inj hvalid)) (by decide)
    | succ k => cases (hnone k).symm.trans hf

/-- A new future refuses the text at once, where the old one would have been refused room
for the rest of it. -/
theorem retry_not_harmless :
    (∃ r r', retryToString .future 2 5
        ⟨⟨[.ready (.data [0xFF]), .pending, .ready (.data [1])]⟩, (⟨[]⟩ : BoundedBuffer 2), none⟩
        .empty (fun _ => true) = .ok r ∧
      retryToString .future 2 5
        ⟨⟨[.ready (.data [0xFF]), .pending, .ready (.data [1])]⟩, (⟨[]⟩ : BoundedBuffer 2), none⟩
        .empty (fun _ => false) = .ok r' ∧
      r.result ≠ r'.result) ∧
    ∃ r r', retryToString .tokio 2 5
        ⟨⟨[.ready (.data [0xFF]), .pending, .ready (.data [1])]⟩, (⟨[]⟩ : BoundedBuffer 2), none⟩
        .empty (fun _ => true) = .ok r ∧
      retryToString .tokio 2 5
        ⟨⟨[.ready (.data [0xFF]), .pending, .ready (.data [1])]⟩, (⟨[]⟩ : BoundedBuffer 2), none⟩
        .empty (fun _ => false) = .ok r' ∧
      r.result ≠ r'.result := by
  let r : Ended (BoundedBuffer 2) :=
    ⟨.error (invalidUtf8IoError ⟨0, some 1⟩), [], ⟨⟨[.ready (.data [1])]⟩, ⟨[0xFF]⟩, none⟩⟩
  let r' : Ended (BoundedBuffer 2) :=
    ⟨.error BoundedBuffer.capError, [], ⟨⟨[]⟩, ⟨[0xFF, 1]⟩, none⟩⟩
  exact ⟨⟨r, r', by decide +kernel, by decide +kernel, by decide⟩,
    ⟨r, r', by decide +kernel, by decide +kernel, by decide⟩⟩

end PeekableReader
