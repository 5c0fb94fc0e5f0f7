import PeekableReader.Script.Sync

/-!
# The futures refine the synchronous loops

Driven to completion on a script, `PeekExact`, `PeekToEnd` and `PeekToString` of both
flavours end as the synchronous operation does on the script without its pending polls:
with the same outcome, destination, peek buffer and reader position. The proof goes
through `Whole.spec`, which both sides compute.

The buffer may be bounded, as long as peeking does not move its bound. Every definition
has fuel for its loops, and any amount that exceeds the weight of the script is enough;
so are more polls than the script has pending ones.
-/

namespace PeekableReader

open Buffer

/-- Both succeed, with the same count where both return one, or both fail with errors of
the same kind. -/
def SameOutcome : Except IoError (Option Nat) → Except IoError (Option Nat) → Prop
  | .ok m, .ok n => ∀ i ∈ m, ∀ j ∈ n, i = j
  | .error e, .error e' => e.kind = e'.kind
  | _, _ => False

theorem SameOutcome.refl (result : Except IoError (Option Nat)) : SameOutcome result result := by
  match result with
  | .ok none => simp [SameOutcome]
  | .ok (some n) => simp [SameOutcome]
  | .error e => exact Eq.refl e.kind

/-- The flavours answer an exact peek alike, up to the count and the message. -/
theorem AsyncFlavour.sameOutcome_reply (flavour : AsyncFlavour) (outcome : Outcome) (total : Nat) :
    SameOutcome (flavour.reply outcome total) (syncReply outcome total) := by
  cases flavour with
  | future => exact .refl _
  | tokio => cases outcome <;> simp [reply, tokioReply, syncReply, Outcome.exact, Except.map,
      SameOutcome, Tokio.eof, IoError.ofKind]

/-- What holds of two final states that are the same up to the form of the result. -/
structure Final.Agrees (r r' : Final) : Prop where
  outcome : SameOutcome r.result r'.result
  dst : r.dst = r'.dst
  peeked : r.peeked = r'.peeked
  events : r.events = r'.events

namespace Whole

/-- The specification depends on the flavour in the form of the result only. -/
theorem spec_agrees (flavour : AsyncFlavour) (grant : Grant) (bytes : List UInt8) (es : List Event)
    (op : Whole) :
    ∃ r r', op.spec flavour.reply grant bytes es = .ok r ∧
      op.spec syncReply grant bytes es = .ok r' ∧ r.Agrees r' := by
  cases op with
  | exact buf => exact ⟨_, _, rfl, rfl, flavour.sameOutcome_reply _ _, rfl, rfl, rfl⟩
  | toEnd buf => exact ⟨_, _, rfl, rfl, .refl _, rfl, rfl, rfl⟩
  | toString buf =>
    simp only [spec]
    cases earlyReject bytes with
    | some e => exact ⟨_, _, rfl, rfl, .refl _, rfl, rfl, rfl⟩
    | none =>
      obtain ⟨out, hfinish, -⟩ := finishString_ends
        (collect (growthPlan grant) bytes es).1.loopResult (collect (growthPlan grant) bytes es).2.1 buf
      simp only [hfinish, Exec.ok_bind]
      exact ⟨_, _, rfl, rfl, .refl _, rfl, rfl, rfl⟩

end Whole

theorem drive_refines_sync {B : Type} [Buffer B] [LawfulBuffer B] [DeterministicBuffer B]
    (flavour : AsyncFlavour) (op : Whole) (events : List PollEvent) (buffer : B)
    (bufCap : Option Nat) {polls pollFuel syncFuel : Nat}
    (hpolls : PollScript.pendings events < polls)
    (hpollFuel : Script.weight (PollScript.strip events) < pollFuel)
    (hsyncFuel : Script.weight (PollScript.strip events) < syncFuel) :
    ∃ r r', op.drive flavour polls pollFuel ⟨⟨events⟩, buffer, bufCap⟩ = .ok r ∧
      op.sync syncFuel ⟨⟨PollScript.strip events⟩, buffer, bufCap⟩ = .ok r' ∧
      SameOutcome r.result r'.result ∧ r.dst = r'.dst ∧ r.peeked = r'.peeked ∧
      r.events = r'.events := by
  obtain ⟨grant, hgrant⟩ := DeterministicBuffer.follows buffer
  obtain ⟨r, r', hdrive, hsync, hagrees⟩ :=
    Whole.spec_agrees flavour grant (asSlice buffer) (PollScript.strip events) op
  refine ⟨r, r', ?_, ?_, hagrees.outcome, hagrees.dst, hagrees.peeked, hagrees.events⟩
  · rw [← hdrive]
    exact Whole.drive_eq_spec flavour _ hgrant hpollFuel hpolls op
  · rw [← hsync]
    exact Whole.sync_eq_spec _ hgrant hsyncFuel op

/-- An exact peek into a bounded buffer, pending before and between its bytes. -/
theorem drive_refines_sync_bounded :
    ∃ r r', (Whole.exact [0, 0, 0]).drive .tokio 3 6
        ⟨⟨[.pending, .ready (.data [1, 2]), .pending, .ready (.data [3])]⟩,
          (⟨[]⟩ : BoundedBuffer 3), none⟩ = .ok r ∧
      (Whole.exact [0, 0, 0]).sync 7
        ⟨⟨[.data [1, 2], .data [3]]⟩, (⟨[]⟩ : BoundedBuffer 3), none⟩ = .ok r' ∧
      SameOutcome r.result r'.result ∧ r.dst = r'.dst ∧ r.peeked = r'.peeked ∧
      r.events = r'.events :=
  drive_refines_sync .tokio (.exact [0, 0, 0])
    [.pending, .ready (.data [1, 2]), .pending, .ready (.data [3])] (⟨[]⟩ : BoundedBuffer 3) none
    (by decide) (by decide) (by decide)

end PeekableReader
