import PeekableReader.Io.Transparent
import PeekableReader.Lib.Encoding
import PeekableReader.Lib.Simulation
import PeekableReader.Script.Whole

/-!
# A tape with look-ahead

What a peekable reader is for, with no reader and no buffer in it: a tape that is read from
the front, and can be looked at before it is read. A caller who looks finds the bytes that a
later read takes, and only reading moves the tape.

A move that depends on how much happens to be at hand may be answered in several ways. The
others are determined by the tape alone.
-/

namespace PeekableReader

structure Tape where
  /-- The bytes that have been looked at and not yet read. -/
  peeked : List UInt8
  rest : List UInt8
  deriving DecidableEq

inductive Move where
  | read (buf : List UInt8)
  | peek (buf : List UInt8)
  | whole (op : Whole)
  | fillPeekBuf
  | consume
  | consumeInPlace
  deriving DecidableEq

namespace Tape

/-- The bytes that have not been read. -/
def bytes (t : Tape) : List UInt8 := t.peeked ++ t.rest

/-- The tape after a look at its first `n` bytes. -/
def look (t : Tape) (n : Nat) : Tape :=
  ⟨t.bytes.take (max t.peeked.length n), t.bytes.drop (max t.peeked.length n)⟩

@[simp] theorem take_look (t : Tape) (n : Nat) : (t.look n).peeked.take n = t.bytes.take n := by
  rw [look, List.take_take, Nat.min_eq_left (Nat.le_max_right _ _)]

/-- A look moves what there is up to the `n`-th byte into the look-ahead. -/
theorem look_eq {peeked d rest : List UInt8} {n : Nat}
    (hlen : d.length = min (d ++ rest).length (n - peeked.length)) :
    look ⟨peeked, d ++ rest⟩ n = ⟨peeked ++ d, rest⟩ := by
  rw [List.length_append] at hlen
  simp only [look, bytes, ← List.append_assoc]
  rcases Nat.lt_or_ge d.length (n - peeked.length) with hlt | hge
  · obtain rfl : rest = [] := List.eq_nil_of_length_eq_zero (by omega)
    have hall : (peeked ++ d ++ []).length ≤ max peeked.length n := by simp; omega
    rw [List.take_of_length_le hall, List.drop_of_length_le hall, List.append_nil]
  · have hmax : max peeked.length n = (peeked ++ d).length := by simp; omega
    rw [hmax, List.take_left, List.drop_left]

/-- The tape after a look at all of it. -/
def lookAll (t : Tape) : Tape := ⟨t.bytes, []⟩

open Classical in
/-- The operations on the whole stream. A text that cannot be completed is not looked at. -/
noncomputable def whole (t : Tape) : Whole → Answer (Except ErrorKind Nat) × Tape
  | .exact buf =>
    (.gave (if buf.length ≤ t.bytes.length then .ok buf.length else .error .unexpectedEof)
      [overwrite buf (t.bytes.take buf.length)], t.look buf.length)
  | .toEnd buf => (.gave (.ok t.bytes.length) [buf ++ t.bytes], t.lookAll)
  | .toString buf =>
    if Utf8.Valid t.bytes then
      (.gave (.ok t.bytes.length) [buf.bytes ++ t.bytes], t.lookAll)
    else if ∃ more, Utf8.Valid (t.peeked ++ more) then
      (.gave (.error .invalidData) [buf.bytes], t.lookAll)
    else (.gave (.error .invalidData) [buf.bytes], t)

section Text

variable {t : Tape} {buf : Str}

theorem whole_valid (h : Utf8.Valid t.bytes) :
    t.whole (.toString buf) = (.gave (.ok t.bytes.length) [buf.bytes ++ t.bytes], t.lookAll) := if_pos h

theorem whole_invalid (h : ¬ Utf8.Valid t.bytes) (hmore : ∃ more, Utf8.Valid (t.peeked ++ more)) :
    t.whole (.toString buf) = (.gave (.error .invalidData) [buf.bytes], t.lookAll) :=
  (if_neg h).trans (if_pos hmore)

theorem whole_hopeless (h : ¬ ∃ more, Utf8.Valid (t.peeked ++ more)) :
    t.whole (.toString buf) = (.gave (.error .invalidData) [buf.bytes], t) :=
  (if_neg fun hvalid => h ⟨t.rest, hvalid⟩).trans (if_neg h)

end Text

/-- The moves and what they may be answered. A read or a peek is answered with the bytes it
gives, and with none of them only at the end of the tape, or where none are wanted. -/
inductive Step : Tape → Move → Answer (Except ErrorKind Nat) → Tape → Prop
  /-- What has been looked at is read first. -/
  | readPeeked {t : Tape} {buf : List UInt8} (nonempty : t.peeked ≠ [])
      (covered : buf.length ≤ t.peeked.length) :
      Step t (.read buf) (.gave (.ok buf.length) [t.peeked.take buf.length])
        ⟨t.peeked.drop buf.length, t.rest⟩
  | readOn {peeked d rest buf : List UInt8} (past : peeked = [] ∨ peeked.length < buf.length)
      (fits : (peeked ++ d).length ≤ buf.length) (more : peeked ++ d = [] → buf = [] ∨ rest = []) :
      Step ⟨peeked, d ++ rest⟩ (.read buf) (.gave (.ok (peeked ++ d).length) [peeked ++ d]) ⟨[], rest⟩
  | readInterrupted {rest buf : List UInt8} :
      Step ⟨[], rest⟩ (.read buf) (.gave (.error .interrupted) [[]]) ⟨[], rest⟩
  | peek {peeked d rest buf : List UInt8} (fits : d = [] ∨ (peeked ++ d).length ≤ buf.length)
      (more : peeked ++ d = [] → buf = [] ∨ rest = []) :
      Step ⟨peeked, d ++ rest⟩ (.peek buf)
        (.gave (.ok ((peeked ++ d).take buf.length).length) [(peeked ++ d).take buf.length])
        ⟨peeked ++ d, rest⟩
  | whole (t : Tape) (op : Whole) : Step t (.whole op) (t.whole op).1 (t.whole op).2
  | fill {peeked d rest : List UInt8} :
      Step ⟨peeked, d ++ rest⟩ .fillPeekBuf (.gave (.ok d.length) []) ⟨peeked ++ d, rest⟩
  | fillInterrupted {t : Tape} : Step t .fillPeekBuf (.gave (.error .interrupted) []) t
  | consume (t : Tape) : Step t .consume (.handed t.peeked) ⟨[], t.rest⟩
  | consumeInPlace (t : Tape) : Step t .consumeInPlace .done ⟨[], t.rest⟩

theorem Step.of_whole {t t' : Tape} {op : Whole} {a : Answer (Except ErrorKind Nat)}
    (h : Step t (.whole op) a t') : a = (t.whole op).1 ∧ t' = (t.whole op).2 := by
  cases h
  exact ⟨rfl, rfl⟩

/-- Whether the answer to a move does not depend on how much is at hand. -/
def Determines (t : Tape) : Move → Prop
  | .read buf => t.peeked ≠ [] ∧ buf.length ≤ t.peeked.length
  | .peek buf => buf.length ≤ t.peeked.length
  | .whole _ | .consume | .consumeInPlace => True
  | .fillPeekBuf => False

instance (t : Tape) : DecidablePred t.Determines
  | .read _ => inferInstanceAs (Decidable (_ ∧ _))
  | .peek _ => inferInstanceAs (Decidable (_ ≤ _))
  | .whole _ | .consume | .consumeInPlace => inferInstanceAs (Decidable True)
  | .fillPeekBuf => inferInstanceAs (Decidable False)

theorem Step.of_read {t t' : Tape} {buf : List UInt8} {a : Answer (Except ErrorKind Nat)}
    (hne : t.peeked ≠ []) (hle : buf.length ≤ t.peeked.length) (h : Step t (.read buf) a t') :
    a = .gave (.ok buf.length) [t.peeked.take buf.length] ∧ t' = ⟨t.peeked.drop buf.length, t.rest⟩ := by
  cases h with
  | readPeeked _ _ => exact ⟨rfl, rfl⟩
  | readOn past _ _ =>
    obtain rfl | hlt := past
    · exact absurd rfl hne
    · exact absurd hle (Nat.not_le.mpr hlt)
  | readInterrupted => exact absurd rfl hne

theorem Step.of_peek {t t' : Tape} {buf : List UInt8} {a : Answer (Except ErrorKind Nat)}
    (hle : buf.length ≤ t.peeked.length) (h : Step t (.peek buf) a t') :
    a = .gave (.ok buf.length) [t.peeked.take buf.length] ∧ t' = t := by
  cases h with
  | @peek peeked d rest _ fits _ =>
    change buf.length ≤ peeked.length at hle
    obtain rfl : d = [] := by
      obtain hd | hfits := fits
      · exact hd
      · rw [List.length_append] at hfits
        exact List.eq_nil_of_length_eq_zero (by omega)
    simp [hle]

/-- Where the answer does not depend on what is at hand, there is only one. -/
theorem Step.unique {t t₁ t₂ : Tape} {move : Move} {a₁ a₂ : Answer (Except ErrorKind Nat)}
    (h : t.Determines move) (h₁ : Step t move a₁ t₁) (h₂ : Step t move a₂ t₂) :
    a₁ = a₂ ∧ t₁ = t₂ := by
  cases move with
  | read buf =>
    obtain ⟨rfl, rfl⟩ := h₁.of_read h.1 h.2
    obtain ⟨rfl, rfl⟩ := h₂.of_read h.1 h.2
    exact ⟨rfl, rfl⟩
  | peek buf =>
    obtain ⟨rfl, rfl⟩ := h₁.of_peek h
    obtain ⟨rfl, rfl⟩ := h₂.of_peek h
    exact ⟨rfl, rfl⟩
  | whole op =>
    obtain ⟨rfl, rfl⟩ := h₁.of_whole
    obtain ⟨rfl, rfl⟩ := h₂.of_whole
    exact ⟨rfl, rfl⟩
  | fillPeekBuf => exact h.elim
  | consume => cases h₁; cases h₂; exact ⟨rfl, rfl⟩
  | consumeInPlace => cases h₁; cases h₂; exact ⟨rfl, rfl⟩

/-! ## Wherever the look-ahead ends -/

theorem bytes_look (t : Tape) (n : Nat) : (t.look n).bytes = t.bytes := List.take_append_drop _ _

theorem bytes_lookAll (t : Tape) : t.lookAll.bytes = t.bytes := List.append_nil _

/-- The operations on the whole stream answer by its bytes, and leave them. -/
theorem whole_same_bytes {t u : Tape} (h : t.bytes = u.bytes) (op : Whole) :
    (u.whole op).1 = (t.whole op).1 ∧ (t.whole op).2.bytes = (u.whole op).2.bytes := by
  cases op with
  | exact buf => exact ⟨by simp only [whole, h], by simp only [whole, bytes_look, h]⟩
  | toEnd buf => exact ⟨by simp only [whole, h], by simp only [whole, bytes_lookAll, h]⟩
  | toString buf =>
    by_cases hvalid : Utf8.Valid t.bytes
    · rw [whole_valid hvalid, whole_valid (h ▸ hvalid), bytes_lookAll, bytes_lookAll, h]
      exact ⟨rfl, rfl⟩
    · have hrejects (v : Tape) (hv : v.bytes = t.bytes) :
          (v.whole (.toString buf)).1 = .gave (.error .invalidData) [buf.bytes] ∧
            (v.whole (.toString buf)).2.bytes = t.bytes := by
        by_cases hmore : ∃ more, Utf8.Valid (v.peeked ++ more)
        · rw [whole_invalid (hv ▸ hvalid) hmore, bytes_lookAll]
          exact ⟨rfl, hv⟩
        · rw [whole_hopeless hmore]
          exact ⟨rfl, hv⟩
      rw [(hrejects t rfl).1, (hrejects u h.symm).1, (hrejects t rfl).2, (hrejects u h.symm).2]
      exact ⟨rfl, rfl⟩

/-- A move that is answered with bytes of the tape, and depends neither on how much is at hand nor
on where the look-ahead ends. -/
def Decides (t : Tape) : Move → Prop
  | .consume | .consumeInPlace => False
  | move => t.Determines move

/-- On tapes with the same bytes, such a move is answered alike, and leaves the same bytes. -/
theorem Step.same_bytes {t u t' u' : Tape} {move : Move} {a a' : Answer (Except ErrorKind Nat)}
    (hbytes : t.bytes = u.bytes) (ht : t.Decides move) (hu : u.Decides move)
    (h : Step t move a t') (h' : Step u move a' u') : a' = a ∧ t'.bytes = u'.bytes := by
  have htake {v : Tape} {n : Nat} (hle : n ≤ v.peeked.length) : v.peeked.take n = v.bytes.take n :=
    (List.take_append_of_le_length hle).symm
  cases move with
  | read buf =>
    obtain ⟨rfl, rfl⟩ := h.of_read ht.1 ht.2
    obtain ⟨rfl, rfl⟩ := h'.of_read hu.1 hu.2
    have hdrop {v : Tape} (hle : buf.length ≤ v.peeked.length) :
        bytes ⟨v.peeked.drop buf.length, v.rest⟩ = v.bytes.drop buf.length :=
      (List.drop_append_of_le_length hle).symm
    rw [htake ht.2, htake hu.2, hdrop ht.2, hdrop hu.2, hbytes]
    exact ⟨rfl, rfl⟩
  | peek buf =>
    obtain ⟨rfl, rfl⟩ := h.of_peek ht
    obtain ⟨rfl, rfl⟩ := h'.of_peek hu
    exact ⟨by rw [htake ht, htake hu, hbytes], hbytes⟩
  | whole op =>
    obtain ⟨rfl, rfl⟩ := h.of_whole
    obtain ⟨rfl, rfl⟩ := h'.of_whole
    exact whole_same_bytes hbytes op
  | fillPeekBuf => exact ht.elim
  | consume => exact ht.elim
  | consumeInPlace => exact ht.elim

end Tape

end PeekableReader
