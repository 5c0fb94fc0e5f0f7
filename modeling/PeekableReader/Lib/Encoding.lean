import Mathlib.Data.List.Forall2
import PeekableReader.Lib.Utf8

/-!
# What `from_utf8` decides

Valid UTF-8 is the encoding of a list of characters, with `String.utf8EncodeChar` for the
encoding of one. The scanner of `Lib.Utf8` meets the specification of `core::str::from_utf8`
with respect to it.

## Main results

* `fromUtf8_ok_iff`: the texts accepted are the valid ones.
* `fromUtf8_validUpTo`: `valid_up_to` ends the longest valid prefix.
* `fromUtf8_errorLen`: `error_len` is `none` exactly if the rest is a proper prefix of the
  encoding of some character.
* `fromUtf8_completable`: these are the invalid texts that more bytes can make valid.
-/

namespace PeekableReader

namespace Utf8

/-- The encodings of lists of characters. -/
def Valid (bytes : List UInt8) : Prop := ∃ cs : List Char, bytes = cs.flatMap String.utf8EncodeChar

/-- The bytes pass the tests, one each. -/
def Passes (ps : List (UInt8 → Bool)) (bs : List UInt8) : Prop :=
  List.Forall₂ (fun p b => p b = true) ps bs

/-- A first byte and the bytes after it, as the scanner takes them for a character. -/
def Encodes (b : UInt8) (rest : List UInt8) : Prop := ∃ ps, following b = some ps ∧ Passes ps rest

/-! ## Characters -/

theorem within_iff {lo hi b : UInt8} :
    within lo hi b = true ↔ lo.toNat ≤ b.toNat ∧ b.toNat ≤ hi.toNat := by
  simp [within, UInt8.le_iff_toNat_le]

theorem continuation_iff {b : UInt8} : continuation b = true ↔ 0x80 ≤ b.toNat ∧ b.toNat ≤ 0xBF :=
  within_iff

theorem following_toNat (b : UInt8) : following b =
    if b.toNat < 0x80 then some []
    else if 0xC2 ≤ b.toNat ∧ b.toNat ≤ 0xDF then some [continuation]
    else if b.toNat = 0xE0 then some [within 0xA0 0xBF, continuation]
    else if b.toNat = 0xED then some [within 0x80 0x9F, continuation]
    else if 0xE1 ≤ b.toNat ∧ b.toNat ≤ 0xEF then some [continuation, continuation]
    else if b.toNat = 0xF0 then some [within 0x90 0xBF, continuation, continuation]
    else if 0xF1 ≤ b.toNat ∧ b.toNat ≤ 0xF3 then some [continuation, continuation, continuation]
    else if b.toNat = 0xF4 then some [within 0x80 0x8F, continuation, continuation]
    else none := by
  simp [following, within_iff, UInt8.lt_iff_toNat_lt, ← UInt8.toNat_inj]

theorem toNat_ofNat {n : Nat} (h : n < 256) : (UInt8.ofNat n).toNat = n := by
  simp [Nat.mod_eq_of_lt h]

theorem encodes_one {b : UInt8} {rest : List UInt8} (h : b.toNat < 0x80) : Encodes b rest ↔ rest = [] := by
  simp [Encodes, following_toNat, h, Passes]

theorem encodes_two {b b₁ : UInt8} : Encodes b [b₁] ↔
    (0xC2 ≤ b.toNat ∧ b.toNat ≤ 0xDF) ∧ 0x80 ≤ b₁.toNat ∧ b₁.toNat ≤ 0xBF := by
  simp only [Encodes, following_toNat]
  split_ifs <;> simp [Passes, continuation_iff, within_iff] <;> omega

theorem encodes_three {b b₁ b₂ : UInt8} : Encodes b [b₁, b₂] ↔
    (0xE0 ≤ b.toNat ∧ b.toNat ≤ 0xEF) ∧ (0x80 ≤ b₁.toNat ∧ b₁.toNat ≤ 0xBF) ∧
      (b.toNat = 0xE0 → 0xA0 ≤ b₁.toNat) ∧ (b.toNat = 0xED → b₁.toNat ≤ 0x9F) ∧
      0x80 ≤ b₂.toNat ∧ b₂.toNat ≤ 0xBF := by
  simp only [Encodes, following_toNat]
  split_ifs <;> simp [Passes, continuation_iff, within_iff] <;> omega

theorem encodes_four {b b₁ b₂ b₃ : UInt8} : Encodes b [b₁, b₂, b₃] ↔
    (0xF0 ≤ b.toNat ∧ b.toNat ≤ 0xF4) ∧ (0x80 ≤ b₁.toNat ∧ b₁.toNat ≤ 0xBF) ∧
      (b.toNat = 0xF0 → 0x90 ≤ b₁.toNat) ∧ (b.toNat = 0xF4 → b₁.toNat ≤ 0x8F) ∧
      (0x80 ≤ b₂.toNat ∧ b₂.toNat ≤ 0xBF) ∧ 0x80 ≤ b₃.toNat ∧ b₃.toNat ≤ 0xBF := by
  simp only [Encodes, following_toNat]
  split_ifs <;> simp [Passes, continuation_iff, within_iff] <;> omega

/-- The scanner takes the encoding of a character for one. -/
theorem encodes_utf8EncodeChar (c : Char) :
    ∃ b rest, String.utf8EncodeChar c = b :: rest ∧ Encodes b rest := by
  have hvalid : c.val.toNat < 0xd800 ∨ 0xdfff < c.val.toNat ∧ c.val.toNat < 0x110000 := c.valid
  fun_cases String.utf8EncodeChar c with
  | case1 v h1 =>
    refine ⟨_, _, rfl, (encodes_one ?_).mpr rfl⟩
    rw [toNat_ofNat (by omega)]
    omega
  | case2 v h1 h2 =>
    refine ⟨_, _, rfl, encodes_two.mpr ?_⟩
    rw [toNat_ofNat (by omega), toNat_ofNat (by omega)]
    omega
  | case3 v h1 h2 h3 =>
    refine ⟨_, _, rfl, encodes_three.mpr ?_⟩
    rw [toNat_ofNat (by omega), toNat_ofNat (by omega), toNat_ofNat (by omega)]
    omega
  | case4 v h1 h2 h3 =>
    refine ⟨_, _, rfl, encodes_four.mpr ?_⟩
    rw [toNat_ofNat (by omega), toNat_ofNat (by omega), toNat_ofNat (by omega),
      toNat_ofNat (by omega)]
    omega

/-- The character with a given code point. -/
def charOf (v : Nat) (h : v < 0xd800 ∨ 0xdfff < v ∧ v < 0x110000) : Char :=
  ⟨UInt32.ofNat v, by
    rw [UInt32.isValidChar, UInt32.toNat_ofNat', Nat.mod_eq_of_lt (by omega)]
    exact h⟩

theorem charOf_val {v : Nat} (h : v < 0xd800 ∨ 0xdfff < v ∧ v < 0x110000) :
    (charOf v h).val.toNat = v := by
  rw [charOf, UInt32.toNat_ofNat', Nat.mod_eq_of_lt (by omega)]

theorem ext_ofNat {b : UInt8} {n : Nat} (h : n = b.toNat) : UInt8.ofNat n = b := by
  subst h
  exact UInt8.ofNat_toNat

/-- What the scanner takes for a character is the encoding of one. -/
theorem exists_utf8EncodeChar {b : UInt8} {rest : List UInt8} (h : Encodes b rest) :
    ∃ c, String.utf8EncodeChar c = b :: rest := by
  match rest, h with
  | [], h =>
    have hb : b.toNat < 0x80 := by
      by_contra hb
      simp only [Encodes, following_toNat, if_neg hb] at h
      split_ifs at h <;> simp [Passes] at h
    refine ⟨charOf b.toNat (by omega), ?_⟩
    rw [String.utf8EncodeChar, charOf_val, if_pos (by omega), ext_ofNat rfl]
  | [b₁], h =>
    have hw := encodes_two.mp h
    refine ⟨charOf ((b.toNat - 0xC0) * 64 + (b₁.toNat - 0x80)) (by omega), ?_⟩
    rw [String.utf8EncodeChar, charOf_val, if_neg (by omega), if_pos (by omega)]
    rw [ext_ofNat (b := b) (by omega), ext_ofNat (b := b₁) (by omega)]
  | [b₁, b₂], h =>
    have hw := encodes_three.mp h
    refine ⟨charOf ((b.toNat - 0xE0) * 4096 + (b₁.toNat - 0x80) * 64 + (b₂.toNat - 0x80))
      (by omega), ?_⟩
    rw [String.utf8EncodeChar, charOf_val, if_neg (by omega), if_neg (by omega), if_pos (by omega)]
    rw [ext_ofNat (b := b) (by omega), ext_ofNat (b := b₁) (by omega),
      ext_ofNat (b := b₂) (by omega)]
  | [b₁, b₂, b₃], h =>
    have hw := encodes_four.mp h
    refine ⟨charOf ((b.toNat - 0xF0) * 262144 + (b₁.toNat - 0x80) * 4096 +
      (b₂.toNat - 0x80) * 64 + (b₃.toNat - 0x80)) (by omega), ?_⟩
    rw [String.utf8EncodeChar, charOf_val, if_neg (by omega), if_neg (by omega), if_neg (by omega)]
    rw [ext_ofNat (b := b) (by omega), ext_ofNat (b := b₁) (by omega),
      ext_ofNat (b := b₂) (by omega), ext_ofNat (b := b₃) (by omega)]
  | _ :: _ :: _ :: _ :: _, h =>
    simp only [Encodes, following_toNat] at h
    split_ifs at h <;> simp [Passes] at h

/-! ## The front of the input -/

theorem passes_of_matchTail {ps : List (UInt8 → Bool)} {bs : List UInt8} {seen more : Nat}
    (h : matchTail ps bs seen = .char more) : Passes ps (bs.take ps.length) := by
  fun_induction matchTail ps bs seen with
  | case1 => exact .nil
  | case2 => cases h
  | case3 p ps b bs seen hb ih => exact .cons hb (ih h)
  | case4 => cases h

theorem Passes.matchTail {ps : List (UInt8 → Bool)} {bs : List UInt8} (h : Passes ps bs)
    (tail : List UInt8) (seen : Nat) :
    matchTail ps (bs ++ tail) seen = .char (seen + bs.length) := by
  induction h generalizing seen with
  | nil => rfl
  | cons hb _ ih => grind [Utf8.matchTail]

/-- An input that ends too early can be completed. -/
theorem passes_of_short {ps : List (UInt8 → Bool)} {bs : List UInt8} {seen : Nat}
    (hps : ∀ p ∈ ps, ∃ b, p b = true) (h : matchTail ps bs seen = .short) :
    ∃ more, more ≠ [] ∧ Passes ps (bs ++ more) := by
  have hsome : ∃ more, Passes ps more := by
    clear h
    induction ps with
    | nil => exact ⟨[], .nil⟩
    | cons p ps ih =>
      obtain ⟨b, hb⟩ := hps p (by simp)
      obtain ⟨more, hmore⟩ := ih (fun q hq => hps q (by simp [hq]))
      exact ⟨b :: more, .cons hb hmore⟩
  fun_induction matchTail ps bs seen with
  | case1 => cases h
  | case2 p ps seen =>
    obtain ⟨more, hmore⟩ := hsome
    refine ⟨more, ?_, hmore⟩
    rintro rfl
    cases hmore
  | case3 p ps b bs seen hb ih =>
    have hsome' : ∃ more, Passes ps more := by
      obtain ⟨more, _ | ⟨_, hmore⟩⟩ := hsome
      exact ⟨_, hmore⟩
    obtain ⟨more, hne, hmore⟩ := ih (fun q hq => hps q (by simp [hq])) h hsome'
    exact ⟨more, hne, .cons hb hmore⟩
  | case4 => cases h

/-- No test refuses every byte. -/
theorem following_satisfiable {b : UInt8} {ps : List (UInt8 → Bool)} (h : following b = some ps) :
    ∀ p ∈ ps, ∃ b, p b = true := by
  have hcont : ∃ b, continuation b = true := ⟨0x80, by decide⟩
  rw [following_toNat] at h
  split_ifs at h <;> cases h <;> simp [hcont]
  · exact ⟨0xA0, by decide⟩
  · exact ⟨0x80, by decide⟩
  · exact ⟨0x90, by decide⟩
  · exact ⟨0x80, by decide⟩

theorem Encodes.front {b : UInt8} {rest : List UInt8} (h : Encodes b rest) (tail : List UInt8) :
    front b (rest ++ tail) = .char rest.length := by
  obtain ⟨ps, hps, hpasses⟩ := h
  simpa [Utf8.front, hps] using hpasses.matchTail tail 0

theorem encodes_of_char {b : UInt8} {rest : List UInt8} {more : Nat}
    (h : front b rest = .char more) : Encodes b (rest.take more) := by
  unfold Utf8.front at h
  split at h
  · cases h
  · next ps hps =>
    obtain ⟨rfl, -⟩ := matchTail_char h
    exact ⟨ps, hps, by simpa using passes_of_matchTail h⟩

theorem encodes_of_short {b : UInt8} {rest : List UInt8} (h : front b rest = .short) :
    ∃ more, more ≠ [] ∧ Encodes b (rest ++ more) := by
  unfold Utf8.front at h
  split at h
  · cases h
  · next ps hps =>
    obtain ⟨more, hne, hmore⟩ := passes_of_short (following_satisfiable hps) h
    exact ⟨more, hne, ps, hps, hmore⟩

/-! ## The scan -/

theorem Valid.nil : Valid [] := ⟨[], rfl⟩

theorem Valid.cons {b : UInt8} {rest tail : List UInt8} (h : Encodes b rest) (htail : Valid tail) :
    Valid (b :: rest ++ tail) := by
  obtain ⟨c, hc⟩ := exists_utf8EncodeChar h
  obtain ⟨cs, rfl⟩ := htail
  exact ⟨c :: cs, by rw [List.flatMap_cons, hc]⟩

theorem validateFrom_ok_iff (pos : Nat) {bytes : List UInt8} :
    validateFrom pos bytes = .ok () ↔ Valid bytes := by
  constructor
  · intro h
    induction pos, bytes using validateFrom.induct with
    | case1 pos => exact .nil
    | case2 pos b rest more hfront ih =>
      rw [validateFrom, hfront] at h
      simpa using (ih h).cons (encodes_of_char hfront)
    | case3 pos b rest len hfront => rw [validateFrom, hfront] at h; cases h
    | case4 pos b rest hfront => rw [validateFrom, hfront] at h; cases h
  · rintro ⟨cs, rfl⟩
    induction cs generalizing pos with
    | nil => simp [validateFrom]
    | cons c cs ih =>
      obtain ⟨b, rest, hc, hwhole⟩ := encodes_utf8EncodeChar c
      rw [List.flatMap_cons, hc, List.cons_append, validateFrom, hwhole.front]
      simpa using ih _

/-- Where the scan stops: behind characters, and before bytes that do not begin with one. -/
theorem exists_of_validateFrom_error {pos : Nat} {bytes : List UInt8} {e : Utf8Error}
    (h : validateFrom pos bytes = .error e) :
    ∃ good b rest, bytes = good ++ b :: rest ∧ Valid good ∧ e.validUpTo = pos + good.length ∧
      front b rest = e.errorLen.elim .short .bad := by
  induction pos, bytes using validateFrom.induct with
  | case1 pos => simp [validateFrom] at h
  | case2 pos b rest more hfront ih =>
    have hmore := front_char hfront
    rw [validateFrom, hfront] at h
    obtain ⟨good, b', rest', heq, hgood, hupto, hstop⟩ := ih h
    refine ⟨b :: rest.take more ++ good, b', rest', ?_, hgood.cons (encodes_of_char hfront), ?_, hstop⟩
    · rw [List.append_assoc, ← heq, List.cons_append, List.take_append_drop]
    · grind
  | case3 pos b rest len hfront =>
    rw [validateFrom, hfront] at h
    cases h
    exact ⟨[], b, rest, rfl, .nil, rfl, hfront⟩
  | case4 pos b rest hfront =>
    rw [validateFrom, hfront] at h
    cases h
    exact ⟨[], b, rest, rfl, .nil, rfl, hfront⟩

/-! ## Valid prefixes -/

/-- The longest valid text that stands at the front of the bytes. -/
structure LongestValid (good bytes : List UInt8) : Prop where
  isPrefix : good <+: bytes
  valid : Valid good
  longest {other : List UInt8} (h : other <+: bytes) (hvalid : Valid other) :
    other.length ≤ good.length

theorem valid_append_iff {xs ys : List UInt8} (h : Valid xs) : Valid (xs ++ ys) ↔ Valid ys := by
  rw [← validateFrom_ok_iff 0, validateFrom_append ((validateFrom_ok_iff 0).mpr h),
    validateFrom_ok_iff]

theorem Valid.exists_char {b : UInt8} {rest : List UInt8} (h : Valid (b :: rest)) :
    ∃ more, front b rest = .char more := by
  have hok := (validateFrom_ok_iff 0).mpr h
  rw [validateFrom] at hok
  cases hfront : front b rest with
  | char more => exact ⟨more, rfl⟩
  | bad len => rw [hfront] at hok; cases hok
  | short => rw [hfront] at hok; cases hok

theorem LongestValid.of_front {good rest : List UInt8} {b : UInt8} (hgood : Valid good)
    (hfront : ∀ more, front b rest ≠ .char more) : LongestValid good (good ++ b :: rest) where
  isPrefix := List.prefix_append _ _
  valid := hgood
  longest {other} h hvalid := by
    by_contra hlt
    obtain ⟨more, rfl⟩ := List.prefix_of_prefix_length_le (List.prefix_append _ _) h (by omega)
    rw [List.prefix_append_right_inj] at h
    cases more with
    | nil => simp at hlt
    | cons b' rest' =>
      obtain ⟨rfl, tail, rfl⟩ := List.cons_prefix_cons.mp h
      obtain ⟨more, hchar⟩ := ((valid_append_iff hgood).mp hvalid).exists_char
      apply hfront more
      rw [front_append (by simp [hchar]), hchar]

end Utf8

open Utf8

theorem fromUtf8_ok_iff {bytes : List UInt8} : (∃ s, fromUtf8 bytes = .ok s) ↔ Valid bytes := by
  rw [← validateFrom_ok_iff 0]
  constructor
  · rintro ⟨s, hs⟩
    rw [← fromUtf8_ok hs]
    exact s.valid
  · intro h
    exact ⟨_, fromUtf8_of_valid h⟩

/-- `valid_up_to` is the length of the longest valid prefix. -/
theorem fromUtf8_validUpTo {bytes : List UInt8} {e : Utf8Error} (h : fromUtf8 bytes = .error e) :
    LongestValid (bytes.take e.validUpTo) bytes := by
  obtain ⟨good, b, rest, rfl, hgood, hupto, hstop⟩ :=
    exists_of_validateFrom_error (fromUtf8_error_iff.mp h)
  rw [hupto, Nat.zero_add, List.take_left]
  apply LongestValid.of_front hgood
  rw [hstop]
  cases e.errorLen <;> simp

/-- `error_len` is `none` when the bytes that are left begin a character and end inside it. -/
theorem fromUtf8_errorLen {bytes : List UInt8} {e : Utf8Error} (h : fromUtf8 bytes = .error e) :
    e.errorLen = none ↔
      ∃ c more, more ≠ [] ∧ String.utf8EncodeChar c = bytes.drop e.validUpTo ++ more := by
  obtain ⟨good, b, rest, rfl, hgood, hupto, hstop⟩ :=
    exists_of_validateFrom_error (fromUtf8_error_iff.mp h)
  rw [hupto, Nat.zero_add, List.drop_left]
  cases hlen : e.errorLen with
  | none =>
    rw [hlen] at hstop
    obtain ⟨more, hne, hmore⟩ := encodes_of_short hstop
    obtain ⟨c, hc⟩ := exists_utf8EncodeChar hmore
    exact ⟨fun _ => ⟨c, more, hne, hc⟩, fun _ => rfl⟩
  | some len =>
    rw [hlen] at hstop
    refine ⟨by rintro ⟨⟩, ?_⟩
    rintro ⟨c, more, -, hc⟩
    obtain ⟨b', rest', hc', hencodes⟩ := encodes_utf8EncodeChar c
    obtain ⟨rfl, rfl⟩ : b' = b ∧ rest' = rest ++ more := by grind
    have hchar := hencodes.front []
    rw [List.append_nil, front_append (by simp [hstop]), hstop] at hchar
    cases hchar

/-- Bytes that end inside a character can be completed, and no others that are not valid. -/
theorem fromUtf8_completable {bytes : List UInt8} {e : Utf8Error} (h : fromUtf8 bytes = .error e) :
    e.errorLen = none ↔ ∃ more, Valid (bytes ++ more) := by
  constructor
  · intro hnone
    obtain ⟨c, more, -, hc⟩ := (fromUtf8_errorLen h).mp hnone
    refine ⟨more, ?_⟩
    rw [← List.take_append_drop e.validUpTo bytes, List.append_assoc, ← hc,
      valid_append_iff (fromUtf8_validUpTo h).valid]
    exact ⟨[c], by simp⟩
  · rintro ⟨more, hvalid⟩
    by_contra hsome
    obtain ⟨s, hs⟩ := fromUtf8_ok_iff.mpr hvalid
    rw [fromUtf8_append_of_errorLen h (Option.isSome_iff_ne_none.mpr hsome)] at hs
    cases hs

end PeekableReader
