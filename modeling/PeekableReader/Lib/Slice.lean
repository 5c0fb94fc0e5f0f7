import PeekableReader.Lib.Exec

/-!
# Checked slices

Range indexing and `copy_from_slice` with the checks the standard library makes at
run time. A range outside the slice, or a copy between slices of different lengths,
is a panic.
-/

namespace PeekableReader

variable {α : Type}

/-- `&xs[lo..hi]` -/
def slice (xs : List α) (lo hi : Nat) : Exec (List α) :=
  if lo ≤ hi ∧ hi ≤ xs.length then .ok ((xs.take hi).drop lo) else .panic .sliceRange

/-- `dst.copy_from_slice(src)`: the contents of `dst` afterwards. -/
def copyFromSlice (dst src : List α) : Exec (List α) :=
  if dst.length = src.length then .ok src else .panic .copyLength

/-- `dst[lo..hi].copy_from_slice(src)`: the contents of `dst` afterwards. -/
def copyInto (dst : List α) (lo hi : Nat) (src : List α) : Exec (List α) := do
  let target ← slice dst lo hi
  let target ← copyFromSlice target src
  return dst.take lo ++ target ++ dst.drop hi

theorem slice_eq (xs : List α) {lo hi : Nat} (hlo : lo ≤ hi) (hhi : hi ≤ xs.length) :
    slice xs lo hi = .ok ((xs.take hi).drop lo) := by
  simp [slice, hlo, hhi]

@[simp] theorem slice_full (xs : List α) : slice xs 0 xs.length = .ok xs := by
  simp [slice]

theorem slice_front (xs : List α) {hi : Nat} (hhi : hi ≤ xs.length) :
    slice xs 0 hi = .ok (xs.take hi) := by
  simp [slice, hhi]

/-- Cutting off a prefix of known length. -/
@[simp] theorem slice_append_right (xs ys : List α) :
    slice (xs ++ ys) xs.length (xs.length + ys.length) = .ok ys := by
  rw [slice_eq _ (Nat.le_add_right _ _) (by simp), ← List.length_append, List.take_length,
    List.drop_left]

theorem slice_of_append {zs xs ys : List α} (h : zs = xs ++ ys) :
    slice zs xs.length (xs.length + ys.length) = .ok ys := by
  rw [h, slice_append_right]

theorem copyFromSlice_eq {dst src : List α} (h : dst.length = src.length) :
    copyFromSlice dst src = .ok src := by
  simp [copyFromSlice, h]

theorem copyInto_eq (dst : List α) {lo hi : Nat} {src : List α} (hlo : lo + src.length = hi)
    (hhi : hi ≤ dst.length) :
    copyInto dst lo hi src = .ok (dst.take lo ++ src ++ dst.drop hi) := by
  have hle : lo ≤ hi := by omega
  have hlen : ((dst.take hi).drop lo).length = src.length := by grind
  simp [copyInto, slice_eq dst hle hhi, copyFromSlice_eq hlen]

/-- Copying to the front keeps what lies behind. -/
theorem copyInto_front (dst : List α) {n : Nat} {src : List α} (hn : src.length = n)
    (h : n ≤ dst.length) : copyInto dst 0 n src = .ok (src ++ dst.drop n) := by
  simpa using copyInto_eq dst (show 0 + src.length = n by omega) h

theorem length_slice {xs ys : List α} {lo hi : Nat} (h : slice xs lo hi = .ok ys) :
    ys.length = hi - lo ∧ lo ≤ hi ∧ hi ≤ xs.length := by
  by_cases hrange : lo ≤ hi ∧ hi ≤ xs.length
  · rw [slice, if_pos hrange] at h
    cases h
    simp
    omega
  · rw [slice, if_neg hrange] at h
    cases h

theorem length_copyFromSlice {dst dst' src : List α} (h : copyFromSlice dst src = .ok dst') :
    dst'.length = dst.length := by
  by_cases hsrc : dst.length = src.length
  · rw [copyFromSlice, if_pos hsrc] at h
    cases h
    exact hsrc.symm
  · rw [copyFromSlice, if_neg hsrc] at h
    cases h

theorem length_copyInto {dst dst' src : List α} {lo hi : Nat} (h : copyInto dst lo hi src = .ok dst') :
    dst'.length = dst.length := by
  obtain ⟨target, htarget, h⟩ := Exec.bind_eq_ok.mp h
  obtain ⟨copied, hcopied, h⟩ := Exec.bind_eq_ok.mp h
  obtain ⟨hlen, hlo, hhi⟩ := length_slice htarget
  have hcopied := length_copyFromSlice hcopied
  cases h
  simp only [List.length_append, List.length_take, List.length_drop, hcopied, hlen]
  omega

/-! ## No fuel is needed -/

theorem slice_halts (xs : List α) (lo hi : Nat) : (slice xs lo hi).Halts fun _ => True := by
  unfold slice
  split <;> trivial

theorem copyFromSlice_halts (dst src : List α) : (copyFromSlice dst src).Halts fun _ => True := by
  unfold copyFromSlice
  split <;> trivial

theorem copyInto_halts (dst : List α) (lo hi : Nat) (src : List α) :
    (copyInto dst lo hi src).Halts fun _ => True :=
  .skip (slice_halts dst lo hi) fun target => .skip (copyFromSlice_halts target src) fun _ => trivial

/-! ## Lists cut at a position -/

theorem take_append_of_length {xs ys : List α} {n : Nat} (h : xs.length = n) :
    (xs ++ ys).take n = xs := by
  subst h; simp

theorem drop_append_of_length {xs ys : List α} {n : Nat} (h : xs.length = n) :
    (xs ++ ys).drop n = ys := by
  subst h; simp

theorem take_append_add (xs ys : List α) (n : Nat) :
    (xs ++ ys).take (xs.length + n) = xs ++ ys.take n := by
  simp [List.take_append, List.take_of_length_le]

end PeekableReader
