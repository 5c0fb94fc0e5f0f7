import PeekableReader.Lib.Encoding
import PeekableReader.Script.Drained

/-!
# What `peek_to_string` decides

On a reader that comes to its end of file, `peek_to_string` accepts exactly the valid
texts, wherever the stream was cut: into what was peeked before and what is still to be
read, and into chunks. If the reader or the buffer fails on the way, the destination gains
the longest valid prefix of what has been peeked. A peek buffer with which no valid text
begins is refused before anything is read.
-/

namespace PeekableReader

open Buffer

/-- What is not refused early is the beginning of some valid text. -/
theorem earlyReject_eq_none_iff {bytes : List UInt8} :
    earlyReject bytes = none ↔ ∃ more, Utf8.Valid (bytes ++ more) := by
  unfold earlyReject
  cases hbytes : fromUtf8 bytes with
  | ok s =>
    refine ⟨fun _ => ⟨[], ?_⟩, fun _ => rfl⟩
    rw [List.append_nil]
    exact fromUtf8_ok_iff.mp ⟨s, hbytes⟩
  | error e =>
    rw [← fromUtf8_completable hbytes]
    cases hlen : e.errorLen <;> simp [hlen]

/-! ## The end of `peek_to_string` -/

section Finish

variable {bytes : List UInt8}

theorem finishString_valid (h : Utf8.Valid bytes) (dst : Str) :
    ∃ buf, finishString (.ok ()) bytes dst = .ok (.ok bytes.length, buf) ∧
      buf.bytes = dst.bytes ++ bytes := by
  obtain ⟨s, hs⟩ := fromUtf8_ok_iff.mpr h
  exact ⟨dst.pushStr s, by simp [finishString, hs], by simp [fromUtf8_ok hs]⟩

theorem finishString_invalid (h : ¬ Utf8.Valid bytes) (dst : Str) :
    ∃ e, finishString (.ok ()) bytes dst = .ok (.error (invalidUtf8IoError e), dst) := by
  cases hbytes : fromUtf8 bytes with
  | ok s => exact absurd (fromUtf8_ok_iff.mp ⟨s, hbytes⟩) h
  | error e => exact ⟨e, by simp [finishString, hbytes]⟩

/-- A failed read leaves the longest valid prefix in the destination. -/
theorem finishString_failed (io : IoError) (bytes : List UInt8) (dst : Str) :
    ∃ buf good, finishString (.error io) bytes dst = .ok (.error io, buf) ∧
      buf.bytes = dst.bytes ++ good ∧ Utf8.LongestValid good bytes := by
  cases hbytes : fromUtf8 bytes with
  | ok s =>
    refine ⟨dst.pushStr s, bytes, by simp [finishString, hbytes], by simp [fromUtf8_ok hbytes], ?_⟩
    exact ⟨List.prefix_rfl, fromUtf8_ok_iff.mp ⟨s, hbytes⟩, fun hother _ => hother.length_le⟩
  | error e =>
    have hlongest := fromUtf8_validUpTo hbytes
    by_cases hv : e.validUpTo = 0
    · rw [hv, List.take_zero] at hlongest
      exact ⟨dst, [], by simp [finishString, hbytes, hv], by simp, hlongest⟩
    · obtain ⟨hle, s, hs⟩ := fromUtf8_take_validUpTo hbytes
      refine ⟨dst.pushStr s, _, ?_, by simp [fromUtf8_ok hs], hlongest⟩
      simp [finishString, hbytes, hv, slice_front bytes hle, hs]

end Finish

/-! ## Streams that come to their end -/

variable {B : Type} [Buffer B]

/-- Whatever peeking makes of `b`, it grants every length. -/
def Infallible (b : B) : Prop := ∀ b', Reshapes b b' → ∀ n, (resize b' n).1 = .ok ()

theorem Infallible.grows [LawfulBuffer B] {b b₁ b₂ : B} {e : IoError} (h : Infallible b)
    (hb : Reshapes b b₁) : growPeekBuffer b₁ ≠ (.error e, b₂) := by
  intro hgrow
  obtain ⟨b', hrefused, hlast⟩ := exists_refused hgrow
  have hgranted := h b' (hb.trans hrefused.reshapes) ((asSlice b₁).length + 1)
  rw [hlast] at hgranted
  cases hgranted

/-- The text is appended and counted if it is valid, and nothing is appended if it is not. -/
structure Final.Decides (dst : Str) (text : List UInt8) (final : Final) : Prop where
  accepts : final.result = .ok (some text.length) ∧ final.dst = dst.bytes ++ text ↔ Utf8.Valid text
  rejects (h : ¬ Utf8.Valid text) :
    (∃ e, final.result = .error e ∧ e.kind = .invalidData) ∧ final.dst = dst.bytes

theorem Final.Decides.of_valid {dst : Str} {text : List UInt8} {final : Final}
    (h : Utf8.Valid text) (hresult : final.result = .ok (some text.length))
    (hdst : final.dst = dst.bytes ++ text) : final.Decides dst text :=
  ⟨⟨fun _ => h, fun _ => ⟨hresult, hdst⟩⟩, fun hne => absurd h hne⟩

theorem Final.Decides.of_invalid {dst : Str} {text : List UInt8} {final : Final} {e : Utf8Error}
    (h : ¬ Utf8.Valid text) (hresult : final.result = .error (invalidUtf8IoError e))
    (hdst : final.dst = dst.bytes) : final.Decides dst text := by
  refine ⟨⟨fun ⟨hok, _⟩ => ?_, fun hvalid => absurd hvalid h⟩, fun _ => ⟨⟨_, hresult, rfl⟩, hdst⟩⟩
  rw [hresult] at hok
  cases hok

/-- What the end of `peek_to_string` makes of a text read to its end. -/
theorem Final.Decides.of_finish {dst buf : Str} {final : Final} {result : Except IoError Nat}
    (hfinish : finishString (.ok ()) final.peeked dst = .ok (result, buf))
    (hresult : final.result = result.map some) (hdst : final.dst = buf.bytes) :
    final.Decides dst final.peeked := by
  by_cases hvalid : Utf8.Valid final.peeked
  · obtain ⟨buf', hfinish', hbuf⟩ := finishString_valid hvalid dst
    rw [hfinish'] at hfinish
    cases hfinish
    exact .of_valid hvalid hresult (hdst.trans hbuf)
  · obtain ⟨e, hfinish'⟩ := finishString_invalid hvalid dst
    rw [hfinish'] at hfinish
    cases hfinish
    exact .of_invalid hvalid hresult hdst

variable [LawfulBuffer B]

theorem peekToString_decides (p : Peekable PollScript B) (dst : Str) (hbuffer : Infallible p.buffer)
    (hends : EndsInEof p.events) :
    (Whole.toString dst).Always p (Final.Decides dst (p.peeked ++ toEof p.events)) ∧
      (earlyReject p.peeked = none ↔ ∃ more, Utf8.Valid (p.peeked ++ more)) := by
  refine ⟨?_, earlyReject_eq_none_iff⟩
  cases hearly : earlyReject p.peeked with
  | some e =>
    apply (Whole.toString_refused p dst hearly).mono
    rintro final rfl
    apply Final.Decides.of_invalid _ rfl rfl
    intro hvalid
    rw [earlyReject_eq_none_iff.mpr ⟨_, hvalid⟩] at hearly
    cases hearly
  | none =>
    apply (Whole.toString_stops p dst hearly).mono
    intro final ⟨stop, result, buf, hstops, hfinish, hresult, hdst⟩
    cases hstops with
    | @ended d hbytes hending _ =>
      have htext : final.peeked = p.peeked ++ toEof p.events := by
        rw [hbytes, toEof_eq hends, hending]
        rfl
      obtain rfl : stop = .ok () := by
        have hok := endsInEof_iff.mp hends
        rwa [hending] at hok
      exact htext ▸ .of_finish hfinish hresult hdst
    | refused _ _ _ hb _ hgrow _ => exact absurd hgrow (hbuffer.grows hb)

/-- A euro sign cut behind its first byte, and again while it is read. -/
theorem peekToString_decides_euro :
    ∃ final, (Whole.toString .empty).drive .tokio 2 9
        ⟨⟨[.ready (.data [0x82]), .pending, .ready (.error (.ofKind .interrupted)),
          .ready (.data [0xAC])]⟩, VecBuffer.ofBytes [0xE2], none⟩ = .ok final ∧
      final.Decides .empty [0xE2, 0x82, 0xAC] :=
  (peekToString_decides _ .empty (fun _ _ _ => rfl) (by decide)).1.drive .tokio (by decide) (by decide)

/-! ## Streams that fail -/

/-- The call failed with the error `e` that stopped the reading, and kept what it could. -/
structure Final.Fails (p : Peekable PollScript B) (dst : Str) (e : IoError) (final : Final) : Prop
    where
  result : final.result = .error e
  stops : Stops p.buffer p.events (.error e) final.peeked final.events
  handed : ∃ d, final.peeked = p.peeked ++ d ∧ Script.bytes p.events = d ++ Script.bytes final.events
  keeps : ∃ good, final.dst = dst.bytes ++ good ∧ Utf8.LongestValid good final.peeked

omit [LawfulBuffer B] in
/-- What `peek_to_string` leaves when it has read as far as it could. -/
theorem Final.Fails.of_finish {p : Peekable PollScript B} {dst buf : Str} {e : IoError}
    {final : Final} {result : Except IoError Nat}
    (hstops : Stops p.buffer p.events (.error e) final.peeked final.events)
    (hfinish : finishString (.error e) final.peeked dst = .ok (result, buf))
    (hresult : final.result = result.map some) (hdst : final.dst = buf.bytes) :
    final.Fails p dst e := by
  obtain ⟨buf', good, hfinish', hbuf, hlongest⟩ := finishString_failed e final.peeked dst
  rw [hfinish'] at hfinish
  cases hfinish
  exact ⟨hresult, hstops, hstops.handed, good, hdst.trans hbuf, hlongest⟩

/-- The reader comes to its end of file with no error but interruptions, and the buffer may be
granted the room to see it. -/
structure ReachesEof (p : Peekable PollScript B) : Prop where
  endsInEof : EndsInEof p.events
  granted : Granted p.buffer (p.peeked.length + (toEof p.events).length + 1)

omit [LawfulBuffer B] in
theorem Stops.reachesEof {p : Peekable PollScript B} {bytes : List UInt8} {es : List Event}
    (h : Stops p.buffer p.events (.ok ()) bytes es) : ReachesEof p := by
  cases h with
  | @ended d hbytes hending hgranted =>
    have hends : EndsInEof p.events := endsInEof_iff.mpr (by rw [hending])
    have hd : toEof p.events = d := by rw [toEof_eq hends, hending]
    refine ⟨hends, ?_⟩
    rw [hbytes, List.length_append] at hgranted
    rwa [hd]
  | refused hstop => cases hstop

theorem peekToString_fails (p : Peekable PollScript B) (dst : Str) :
    ((∀ more, ¬ Utf8.Valid (p.peeked ++ more)) → ∃ e : IoError, e.kind = .invalidData ∧ ∀ fuel,
      p.strip.peekToString fuel dst = .ok (.error e, dst, p.strip) ∧
      ∀ flavour : AsyncFlavour,
        flavour.peekToString fuel (.new p dst) = .ok (.ready (.error e), .new p dst)) ∧
    ((∃ more, Utf8.Valid (p.peeked ++ more)) →
      (¬ ReachesEof p → (Whole.toString dst).Always p fun final => ∃ e, final.Fails p dst e) ∧
      (Whole.toString dst).Always p fun final =>
        (∃ e, final.Fails p dst e) ∨ final.AtEof p ∧ final.Decides dst final.peeked) ∧
    ∀ (flavour : AsyncFlavour) f,
      Relation.ReflTransGen (Pends flavour.peekToString) (.new p dst) f → f.buf = dst := by
  refine ⟨?_, ?_, ?_⟩
  · intro hinvalid
    obtain ⟨e, hearly⟩ : ∃ e, earlyReject p.peeked = some e := by
      rw [← Option.ne_none_iff_exists', ne_eq, earlyReject_eq_none_iff]
      rintro ⟨more, hmore⟩
      exact hinvalid more hmore
    refine ⟨invalidUtf8IoError e, rfl, fun fuel => ⟨?_, fun flavour => ?_⟩⟩
    · simp [Peekable.peekToString, hearly]
    · rw [AsyncFlavour.peekToString_eq]
      simp [PeekToString.pollWith, PeekToString.new, hearly]
  · intro hvalid
    have hruns := Whole.toString_stops p dst (earlyReject_eq_none_iff.mpr hvalid)
    constructor
    · intro hreaches
      apply hruns.mono
      rintro final ⟨stop, result, buf, hstops, hfinish, hresult, hdst⟩
      cases stop with
      | ok u => exact absurd hstops.reachesEof hreaches
      | error e => exact ⟨e, .of_finish hstops hfinish hresult hdst⟩
    · apply hruns.mono
      rintro final ⟨stop, result, buf, hstops, hfinish, hresult, hdst⟩
      cases stop with
      | ok u => exact .inr ⟨hstops.atEof, .of_finish hfinish hresult hdst⟩
      | error e => exact .inl ⟨e, .of_finish hstops hfinish hresult hdst⟩
  · intro flavour f run
    have hkeeps (fuel : Nat) (f g : PeekToString PollScript B) (hf : f.buf = dst)
        (hpoll : flavour.peekToString fuel f = .ok (.pending, g)) : g.buf = dst := by
      have hsat := PeekToString.pollWith_sat Future.readTail_lawful fuel f
      rw [← flavour.peekToString_eq, hpoll] at hsat
      rw [hsat.untouched rfl, hf]
    exact Pends.invariant hkeeps rfl run

/-- The reader fails inside a character. -/
theorem peekToString_fails_cut :
    ∃ p : Peekable PollScript VecBuffer,
      p = ⟨⟨[.ready (.data [0xE2]), .ready (.error (.ofKind .connectionReset))]⟩,
        VecBuffer.ofBytes [0x41], none⟩ ∧
      ∃ final, (Whole.toString .empty).sync 9 p.strip = .ok final ∧
        ∃ e, final.Fails p .empty e :=
  ⟨_, rfl, (((peekToString_fails _ .empty).2.1 (earlyReject_eq_none_iff.mp (by decide))).1
    (fun hreaches => absurd hreaches.endsInEof (by decide))).sync (by decide)⟩

end PeekableReader
