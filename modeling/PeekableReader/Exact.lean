import PeekableReader.Script.Ending
import PeekableReader.Script.Sync

/-!
# What `peek_exact` decides

`peek_exact` succeeds exactly if there are enough bytes: those at hand, and those the reader
hands over before its first end of file or hard error. It never reads past what was asked
for, and whatever it has read stays in the peek buffer: after a failure, a request for no
more than that succeeds without the reader.
-/

namespace PeekableReader

open Buffer Script

variable {B : Type} [Buffer B]

/-- What peeking makes of `b` is granted the length `n`. -/
def Grants (b : B) (n : Nat) : Prop := ∀ b', Reshapes b b' → (resize b' n).1 = .ok ()

/-- How a reading that runs into the ending stops. -/
def Ending.outcome (e : Ending) : Outcome :=
  match e.stop with
  | .ok () => .eof
  | .error e => .failed e

section Collect

variable {total : Nat}

/-- If all room is granted, there is as much as is still missing. -/
theorem exactPlan_eq_some {bytes : List UInt8} {room : Except IoError Nat}
    (h : exactPlan (fun _ _ => .ok ()) total bytes = some room) :
    bytes.length < total ∧ room = .ok (total - bytes.length) := by
  rw [exactPlan] at h
  split at h
  · next hlt => exact ⟨hlt, (Option.some.inj h).symm⟩
  · cases h

/-- The first `total` bytes are collected, or all there are before the ending. -/
theorem collect_exactPlan (pre : List UInt8) (es : List Event) (hle : pre.length ≤ total) :
    if total ≤ (pre ++ (ending es).handed).length then
      ∃ es', collect (exactPlan (fun _ _ => .ok ()) total) pre es =
        (.done, (pre ++ (ending es).handed).take total, es')
    else
      collect (exactPlan (fun _ _ => .ok ()) total) pre es =
        ((ending es).outcome, pre ++ (ending es).handed, (ending es).rest) := by
  fun_induction collect (exactPlan (fun _ _ => .ok ()) total) pre es with
  | case1 pre es h =>
    have hge : ¬ pre.length < total := by
      intro hlt
      rw [exactPlan, if_pos hlt] at h
      cases h
    have htotal : pre.length = total := by omega
    rw [if_pos (by rw [List.length_append]; omega)]
    exact ⟨es, by rw [take_append_of_length htotal]⟩
  | case2 pre es e h => cases (exactPlan_eq_some h).2
  | case3 pre es room h es' hnext =>
    obtain ⟨hlt, hroom⟩ := exactPlan_eq_some h
    cases hroom
    have hending := ending_of_eof (by omega) hnext
    rw [hending, List.append_nil, if_neg (by omega)]
    rfl
  | case4 pre es room h d es' hnext hd ih =>
    obtain ⟨hlt, hroom⟩ := exactPlan_eq_some h
    cases hroom
    have hfit : (pre ++ d).length ≤ total := by
      have := (next_ok hnext).1
      rw [List.length_append]
      omega
    have hih := ih hfit
    rw [ending_of_data hnext hd]
    rwa [List.append_assoc] at hih
  | case5 pre es room h e es' hnext he ih =>
    rw [ending_of_interrupted hnext he]
    exact ih hle
  | case6 pre es room h e es' hnext he =>
    obtain ⟨hlt, hroom⟩ := exactPlan_eq_some h
    rw [ending_of_error hnext he, List.append_nil, if_neg (by omega)]
    rfl

end Collect

/-! ## The outcome -/

/-- What `peek_exact` leaves, with a slice that held `dst`. -/
structure DecidesExact (p : Peekable Script B) (dst : List UInt8)
    (out : Except IoError Unit × List UInt8 × Peekable Script B) : Prop where
  succeeds : out.1 = .ok () ↔
    dst.length ≤ (p.peeked ++ (ending p.reader.events).handed).length
  exact (h : out.1 = .ok ()) :
    out.2.1 = (p.peeked ++ bytes p.reader.events).take dst.length
  fails (h : out.1 ≠ .ok ()) :
    out.1 = (ending p.reader.events).outcome.exact (.ofKind .unexpectedEof)
  handed : ∃ d, out.2.2.peeked = p.peeked ++ d ∧
    bytes p.reader.events = d ++ bytes out.2.2.reader.events
  bounded : out.2.2.peeked.length ≤ max p.peeked.length dst.length
  again {fuel : Nat} {dst' : List UInt8} (h : dst'.length ≤ out.2.2.peeked.length) :
    out.2.2.peekExact fuel dst' = .ok (.ok (), out.2.2.peeked.take dst'.length, out.2.2)

variable [LawfulBuffer B]

theorem peekExact_covered {p : Peekable Script B} {dst : List UInt8} (fuel : Nat)
    (h : dst.length ≤ p.peeked.length) :
    p.peekExact fuel dst = .ok (.ok (), p.peeked.take dst.length, p) := by
  have hcopy : copyFromSlice dst (p.peeked.take dst.length) = .ok (p.peeked.take dst.length) :=
    copyFromSlice_eq (by simpa using h)
  simp only [Peekable.peekExact, p.len_buffer, if_pos h, slice_front p.peeked h, hcopy, Exec.ok_bind]
  rfl

/-- Enough bytes were collected. -/
theorem DecidesExact.of_done {p p' : Peekable Script B} {dst : List UInt8}
    (henough : dst.length ≤ (p.peeked ++ (ending p.reader.events).handed).length)
    (hpeeked : p'.peeked = (p.peeked ++ (ending p.reader.events).handed).take dst.length)
    (hhanded : ∃ d, p'.peeked = p.peeked ++ d ∧ bytes p.reader.events = d ++ bytes p'.reader.events) :
    DecidesExact p dst (.ok (), overwrite dst (p'.peeked.take dst.length), p') := by
  have hlength : p'.peeked.length = dst.length := by
    rw [hpeeked, List.length_take, Nat.min_eq_left henough]
  refine ⟨⟨fun _ => henough, fun _ => rfl⟩, fun _ => ?_, fun h => absurd rfl h, hhanded, ?_,
    peekExact_covered _⟩
  · change overwrite dst (p'.peeked.take dst.length) = _
    rw [List.take_of_length_le hlength.le, overwrite_of_length hlength.ge, hpeeked, bytes_ending,
      ← List.append_assoc, List.take_append_of_le_length henough]
  · exact hlength.le.trans (Nat.le_max_right _ _)

/-- The reading ran into the ending before that. -/
theorem DecidesExact.of_ending {p p' : Peekable Script B} {dst dst' : List UInt8}
    (hshort : ¬ dst.length ≤ (p.peeked ++ (ending p.reader.events).handed).length)
    (hpeeked : p'.peeked = p.peeked ++ (ending p.reader.events).handed)
    (hhanded : ∃ d, p'.peeked = p.peeked ++ d ∧ bytes p.reader.events = d ++ bytes p'.reader.events) :
    DecidesExact p dst
      ((ending p.reader.events).outcome.exact (.ofKind .unexpectedEof), dst', p') := by
  have hne : (ending p.reader.events).outcome.exact (.ofKind .unexpectedEof) ≠ .ok () := by
    rw [Ending.outcome]
    split <;> simp [Outcome.exact]
  refine ⟨⟨fun h => absurd h hne, fun h => absurd h hshort⟩, fun h => absurd h hne, fun _ => rfl,
    hhanded, ?_, peekExact_covered _⟩
  change p'.peeked.length ≤ _
  rw [hpeeked]
  exact (Nat.le_of_not_le hshort).trans (Nat.le_max_right _ _)

theorem peekExact_decides (p : Peekable Script B) (dst : List UInt8) {fuel : Nat}
    (hgrant : Grants p.buffer dst.length) (hfuel : weight p.reader.events < fuel) :
    (p.peekExact fuel dst).Ends (DecidesExact p dst) := by
  by_cases hle : dst.length ≤ p.peeked.length
  · rw [peekExact_covered fuel hle]
    refine Exec.ends_ok.mpr ⟨⟨fun _ => ?_, fun _ => rfl⟩, fun _ => ?_, fun h => absurd rfl h,
      ⟨[], by simp⟩, Nat.le_max_left _ _, peekExact_covered _⟩
    · rw [List.length_append]
      exact hle.trans (Nat.le_add_right _ _)
    · exact (List.take_append_of_le_length hle).symm
  · have hfollows : FollowsAt (fun _ _ => .ok ()) dst.length p.buffer := hgrant
    have hcopy : copyInto dst 0 p.peeked.length p.peeked = .ok (overwrite dst p.peeked) :=
      copyInto_front dst rfl (by omega)
    simp only [Peekable.peekExact, p.len_buffer, if_neg hle, hcopy, Exec.ok_bind]
    apply (peekExactLoop_collects dst fuel hfollows (by omega) hfuel).mono
    rintro ⟨result, dst', p'⟩ ⟨outcome, hcollect, hresult, hdst⟩
    obtain rfl : result = outcome.exact _ := hresult
    obtain rfl : dst' = overwrite dst (p'.peeked.take dst.length) := hdst
    have hhanded := collect_bytes (exactPlan (fun _ _ => .ok ()) dst.length) p.peeked p.reader.events
    rw [hcollect] at hhanded
    have hends := collect_exactPlan p.peeked p.reader.events (Nat.le_of_not_le hle)
    rw [hcollect] at hends
    split at hends
    · next henough =>
      obtain ⟨es', hdone⟩ := hends
      simp only [Prod.mk.injEq] at hdone
      obtain ⟨rfl, hpeeked, -⟩ := hdone
      exact .of_done henough hpeeked hhanded
    · next hshort =>
      simp only [Prod.mk.injEq] at hends
      obtain ⟨rfl, hpeeked, -⟩ := hends
      exact .of_ending hshort hpeeked hhanded

/-- The reader hands over two bytes and fails, and the two at hand make four of the five. -/
theorem peekExact_decides_short :
    ∃ p : Peekable Script (BoundedBuffer 5),
      p = ⟨⟨[.data [3], .error (.ofKind .interrupted), .data [4],
        .error (.ofKind .connectionReset)]⟩, ⟨[1, 2]⟩, none⟩ ∧
      (p.peekExact 9 [0, 0, 0, 0, 0]).Ends (DecidesExact p [0, 0, 0, 0, 0]) :=
  ⟨_, rfl, peekExact_decides _ _ (fun b _ => by simp [BoundedBuffer.resize_eq]) (by decide)⟩

end PeekableReader
