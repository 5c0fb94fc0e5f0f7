import Mathlib.Data.Seq.Basic

/-!
# Finite prefixes of possibly infinite streams

A byte source may never end, so what it has not yet handed over is a `Stream'.Seq`.
`prepend` puts a finite list in front of it, and `Starts xs s` says that `s` begins with
`xs`.
-/

namespace PeekableReader

open Stream'

variable {α : Type}

/-- The list `xs` followed by the stream `s`. -/
def prepend (xs : List α) (s : Seq α) : Seq α := (Seq.ofList xs).append s

@[simp] theorem prepend_nil (s : Seq α) : prepend [] s = s := by simp [prepend]

@[simp] theorem prepend_prepend (xs ys : List α) (s : Seq α) :
    prepend xs (prepend ys s) = prepend (xs ++ ys) s := by
  simp [prepend, Seq.ofList_append, Seq.append_assoc]

/-- `s` begins with `xs`. -/
def Starts (xs : List α) (s : Seq α) : Prop := ∃ t, s = prepend xs t

theorem starts_prepend {xs ys : List α} (h : xs <+: ys) (s : Seq α) :
    Starts xs (prepend ys s) := by
  obtain ⟨zs, rfl⟩ := h
  exact ⟨prepend zs s, by simp⟩

/-- Equal streams behind equal lists give equal streams. -/
theorem prepend_congr {xs ys : List α} {s t : Seq α} (hl : xs = ys) (hs : s = t) :
    prepend xs s = prepend ys t := by rw [hl, hs]

end PeekableReader
