import Mathlib.Order.Bounds.Basic
import PeekableReader.Io.Grant

/-!
# Growing the peek buffer

`grow_peek_buffer` asks for 1024 more bytes, and for half as many after each refusal, down
to a single one. Nothing is assumed of what a buffer refuses, or of how that changes from
one request to the next, so the outcome is described by the requests that were made.

A buffer that is `BoundedBy` some length grows exactly if it is not full.
-/

namespace PeekableReader

open Buffer

/-- A resize that succeeds fills up with zeros. -/
class ZeroFilling (B : Type) [Buffer B] : Prop where
  resize_zeros {b b' : B} {n : Nat} (h : resize b n = (.ok (), b')) :
    asSlice b' = resized (asSlice b) n

instance : ZeroFilling VecBuffer := ⟨fun h => by cases h; rfl⟩

instance {cap : Nat} : ZeroFilling (BoundedBuffer cap) where
  resize_zeros {b b' n} h := by
    rw [BoundedBuffer.resize_eq] at h
    split at h <;> cases h
    rfl

theorem resized_add (bytes : List UInt8) (n : Nat) :
    resized bytes (bytes.length + n) = bytes ++ List.replicate n 0 := by
  simp [resized, List.take_of_length_le]

section Refusals

variable {B : Type} [Buffer B]

/-- Requests for these lengths, one after the other, were all refused. -/
inductive Refusals : B → List Nat → B → Prop
  | nil (b : B) : Refusals b [] b
  | cons {b b₁ b₂ : B} {n : Nat} {ns : List Nat} {e : IoError}
      (h : resize b n = (.error e, b₁)) (rest : Refusals b₁ ns b₂) : Refusals b (n :: ns) b₂

theorem Refusals.reshapes {b b' : B} {ns : List Nat} (h : Refusals b ns b') : Reshapes b b' := by
  induction h with
  | nil => exact .refl
  | cons h _ ih => exact (Reshapes.of_resize h).trans ih

/-- Each of the requests was refused by a buffer on the way. -/
theorem Refusals.exists_refused {b b' : B} {ns : List Nat} (h : Refusals b ns b') {n : Nat}
    (hn : n ∈ ns) : ∃ b₁ e, Reshapes b b₁ ∧ (resize b₁ n).1 = .error e := by
  induction h with
  | nil => cases hn
  | @cons b _ _ m ns e h _ ih =>
    obtain rfl | hn := List.mem_cons.mp hn
    · exact ⟨b, e, .refl, by rw [h]⟩
    · obtain ⟨b₁, e, hb, he⟩ := ih hn
      exact ⟨b₁, e, (Reshapes.of_resize h).trans hb, he⟩

theorem Refusals.asSlice_eq [LawfulBuffer B] {b b' : B} {ns : List Nat} (h : Refusals b ns b') :
    asSlice b' = asSlice b := by
  induction h with
  | nil => rfl
  | cons h _ ih => rw [ih, LawfulBuffer.resize_error h]

/-- The lengths `len + 2 ^ k`, `len + 2 ^ (k - 1)` and so on, `n` of them. -/
def halvings (len k n : Nat) : List Nat := (List.range n).map fun i => len + 2 ^ (k - i)

theorem halvings_succ (len k n : Nat) :
    halvings len (k + 1) (n + 1) = (len + 2 ^ (k + 1)) :: halvings len k n := by
  simp [halvings, List.range_succ_eq_map]

theorem mem_halvings {len k n j : Nat} (hlt : k - n < j) (hle : j ≤ k) :
    len + 2 ^ j ∈ halvings len k n := by
  refine List.mem_map.mpr ⟨k - j, List.mem_range.mpr (by omega), ?_⟩
  rw [Nat.sub_sub_self hle]

/-- The loop ends with the first request that is granted, or with the one for a single byte. -/
theorem growLoop_cases (len k : Nat) (b : B) :
    ∃ j ≤ k, ∃ b₁ result, Refusals b (halvings len k (k - j)) b₁ ∧
      resize b₁ (len + 2 ^ j) = (result, (growLoop b len (2 ^ k)).2) ∧
      (growLoop b len (2 ^ k)).1 = result.map (fun () => 2 ^ j) ∧
      (∀ e, result = .error e → j = 0) := by
  induction k generalizing b with
  | zero =>
    rcases hres : resize b (len + 2 ^ 0) with ⟨e | _, b'⟩
    · exact ⟨0, Nat.le_refl 0, b, .error e, .nil b, by grind [growLoop], by grind [growLoop, Except.map],
        fun _ _ => rfl⟩
    · exact ⟨0, Nat.le_refl 0, b, .ok (), .nil b, by grind [growLoop], by grind [growLoop, Except.map],
        fun _ _ => rfl⟩
  | succ k ih =>
    rcases hres : resize b (len + 2 ^ (k + 1)) with ⟨e | _, b'⟩
    · have hloop : growLoop b len (2 ^ (k + 1)) = growLoop b' len (2 ^ k) := by
        rw [growLoop, hres]
        simp only [if_pos (Nat.one_lt_two_pow k.succ_ne_zero)]
        rw [Nat.pow_succ, Nat.mul_div_cancel _ (by decide)]
      obtain ⟨j, hj, b₁, result, hrefused, hlast, hfst, hone⟩ := ih b'
      rw [hloop]
      refine ⟨j, Nat.le_succ_of_le hj, b₁, result, ?_, hlast, hfst, hone⟩
      rw [Nat.succ_sub hj, halvings_succ]
      exact .cons hres hrefused
    · refine ⟨k + 1, Nat.le_refl _, b, .ok (), ?_, by rw [growLoop, hres], ?_, by rintro e ⟨⟩⟩
      · rw [Nat.sub_self]
        exact .nil b
      · rw [growLoop, hres]
        rfl

end Refusals

/-! ## The outcome -/

variable {B : Type} [Buffer B] [LawfulBuffer B]

/-- All larger growths had been refused before one was granted. -/
theorem exists_granted {b b' : B} {g : Nat} (h : growPeekBuffer b = (.ok g, b')) :
    ∃ k ≤ 10, g = 2 ^ k ∧ ∃ b₁, Refusals b (halvings (asSlice b).length 10 (10 - k)) b₁ ∧
      resize b₁ ((asSlice b).length + g) = (.ok (), b') := by
  obtain ⟨k, hk, b₁, result, hrefused, hlast, hfst, -⟩ := growLoop_cases (len b) 10 b
  rw [show growLoop b (len b) (2 ^ 10) = _ from h] at hlast hfst
  rw [len_eq] at hrefused hlast
  cases result with
  | error e => cases hfst
  | ok u =>
    cases hfst
    exact ⟨k, hk, rfl, b₁, hrefused, hlast⟩

/-- No growth was granted, not even by one byte. -/
theorem exists_refused {b b' : B} {e : IoError} (h : growPeekBuffer b = (.error e, b')) :
    ∃ b₁, Refusals b (halvings (asSlice b).length 10 10) b₁ ∧
      resize b₁ ((asSlice b).length + 1) = (.error e, b') := by
  obtain ⟨k, -, b₁, result, hrefused, hlast, hfst, hone⟩ := growLoop_cases (len b) 10 b
  rw [show growLoop b (len b) (2 ^ 10) = _ from h] at hlast hfst
  rw [len_eq] at hrefused hlast
  cases result with
  | ok u => cases hfst
  | error e' =>
    cases hfst
    obtain rfl := hone e rfl
    exact ⟨b₁, hrefused, hlast⟩

/-- What peeking makes of `b` can be resized to `bound` bytes and no further. -/
def BoundedBy (bound : Nat) (b : B) : Prop :=
  ∀ b', Reshapes b b' → ∀ n, (resize b' n).1 = .ok () ↔ n ≤ bound

omit [LawfulBuffer B] in
theorem BoundedBy.reshapes {bound : Nat} {b b' : B} (h : BoundedBy bound b) (hb : Reshapes b b') :
    BoundedBy bound b' := fun b'' hb' => h b'' (hb.trans hb')

theorem BoundedBuffer.boundedBy {cap : Nat} (b : BoundedBuffer cap) : BoundedBy cap b := by
  intro b' _ n
  rw [resize_eq]
  split
  · next hlt => simp [hlt]
  · next hle => simpa using hle

section BoundedBy

variable {bound : Nat} {b b' : B} (hbound : BoundedBy bound b)
include hbound

/-- The growth granted is the largest power of two that the bound leaves room for. -/
theorem BoundedBy.isGreatest {g : Nat} (h : growPeekBuffer b = (.ok g, b')) :
    IsGreatest {n | (∃ k, n = 2 ^ k) ∧ n ≤ min 1024 (bound - (asSlice b).length)} g := by
  obtain ⟨k, hk, rfl, b₁, hrefused, hlast⟩ := exists_granted h
  have hfits : (asSlice b).length + 2 ^ k ≤ bound := by
    rw [← hbound b₁ hrefused.reshapes, hlast]
  have hchunk : 2 ^ k ≤ 2 ^ 10 := Nat.pow_le_pow_right (by decide) hk
  refine ⟨⟨⟨k, rfl⟩, by omega⟩, ?_⟩
  rintro _ ⟨⟨j, rfl⟩, hj⟩
  have hpos : 0 < 2 ^ j := Nat.two_pow_pos j
  have hj10 : j ≤ 10 := (Nat.pow_le_pow_iff_right (by decide)).mp (show 2 ^ j ≤ 2 ^ 10 by omega)
  by_contra hlt
  have hkj : k < j := (Nat.pow_lt_pow_iff_right (by decide)).mp (Nat.lt_of_not_le hlt)
  obtain ⟨b₂, e, hb, he⟩ := hrefused.exists_refused (mem_halvings (by omega) hj10)
  have hgranted := (hbound b₂ hb ((asSlice b).length + 2 ^ j)).mpr (by omega)
  rw [hgranted] at he
  cases he

theorem BoundedBy.grow_iff :
    (∃ g b', growPeekBuffer b = (.ok g, b')) ↔ (asSlice b).length < bound := by
  constructor
  · rintro ⟨g, b', h⟩
    obtain ⟨⟨⟨k, rfl⟩, hle⟩, -⟩ := hbound.isGreatest h
    have hpos : 0 < 2 ^ k := Nat.two_pow_pos k
    omega
  · intro hlt
    rcases h : growPeekBuffer b with ⟨e | g, b'⟩
    · obtain ⟨b₁, hrefused, hlast⟩ := exists_refused h
      have hgranted := (hbound b₁ hrefused.reshapes ((asSlice b).length + 1)).mpr hlt
      rw [hlast] at hgranted
      cases hgranted
    · exact ⟨g, b', rfl⟩

end BoundedBy

theorem growPeekBuffer_complete [ZeroFilling B] (b : B) :
    (∀ g b', growPeekBuffer b = (.ok g, b') →
      asSlice b' = asSlice b ++ List.replicate g 0 ∧
      ∃ k ≤ 10, g = 2 ^ k ∧ ∃ b₁, Refusals b (halvings (asSlice b).length 10 (10 - k)) b₁ ∧
        resize b₁ ((asSlice b).length + g) = (.ok (), b')) ∧
    (∀ e b', growPeekBuffer b = (.error e, b') →
      asSlice b' = asSlice b ∧
      ∃ b₁, Refusals b (halvings (asSlice b).length 10 10) b₁ ∧
        resize b₁ ((asSlice b).length + 1) = (.error e, b')) ∧
    ∀ bound, BoundedBy bound b →
      ((∃ g b', growPeekBuffer b = (.ok g, b')) ↔ (asSlice b).length < bound) ∧
      ∀ g b', growPeekBuffer b = (.ok g, b') →
        IsGreatest {n | (∃ k, n = 2 ^ k) ∧ n ≤ min 1024 (bound - (asSlice b).length)} g := by
  refine ⟨?_, ?_, fun bound hbound => ⟨hbound.grow_iff, fun g b' => hbound.isGreatest⟩⟩
  · intro g b' h
    obtain ⟨k, hk, rfl, b₁, hrefused, hlast⟩ := exists_granted h
    refine ⟨?_, k, hk, rfl, b₁, hrefused, hlast⟩
    rw [ZeroFilling.resize_zeros hlast, hrefused.asSlice_eq, resized_add]
  · intro e b' h
    obtain ⟨b₁, hrefused, hlast⟩ := exists_refused h
    exact ⟨by rw [LawfulBuffer.resize_error hlast, hrefused.asSlice_eq], b₁, hrefused, hlast⟩

/-- One byte short of its bound, a buffer grows by one byte. -/
theorem growPeekBuffer_complete_bounded :
    asSlice (growPeekBuffer (⟨[7, 8]⟩ : BoundedBuffer 3)).2 = [7, 8, 0] ∧
      ((∃ g b', growPeekBuffer (⟨[7, 8]⟩ : BoundedBuffer 3) = (.ok g, b')) ↔ 2 < 3) := by
  obtain ⟨hok, -, hbound⟩ := growPeekBuffer_complete (⟨[7, 8]⟩ : BoundedBuffer 3)
  refine ⟨?_, (hbound 3 (BoundedBuffer.boundedBy _)).1⟩
  have hgrow : growPeekBuffer (⟨[7, 8]⟩ : BoundedBuffer 3) = (.ok 1, ⟨[7, 8, 0]⟩) := by
    simp [growPeekBuffer, growLoop, readChunk, BoundedBuffer.resize_eq, Buffer.len, resized]
  rw [hgrow]
  exact (hok 1 _ hgrow).1

end PeekableReader
