import PeekableReader.Future.Spec
import PeekableReader.Sync.Spec

/-!
# Peeking into several buffers

`peek_vectored` and `poll_peek_vectored` look for the first of the buffers that is not
empty, peek into that one and leave the others as they are. The two lemmas that say so
reduce everything about them to a peek into one buffer.
-/

namespace PeekableReader

/-- The first buffer that is not empty, or an empty one if there is none. -/
def firstNonempty : List (List UInt8) → List UInt8
  | [] => []
  | b :: bufs => if b.isEmpty then firstNonempty bufs else b

/-- The buffers with `dst` in place of the first one that is not empty. -/
def putFirst (dst : List UInt8) : List (List UInt8) → List (List UInt8)
  | [] => []
  | b :: bufs => if b.isEmpty then b :: putFirst dst bufs else dst :: bufs

variable {R B : Type} [Buffer B]

theorem Peekable.peekVectored_eq [Read R] (fuel : Nat) (p : Peekable R B) (bufs : List (List UInt8)) :
    p.peekVectored fuel bufs =
      (fun out => (out.1, putFirst out.2.1 bufs, out.2.2)) <$> p.peek fuel (firstNonempty bufs) := by
  induction bufs with
  | nil => rfl
  | cons b bufs ih =>
    simp only [peekVectored, putFirst, firstNonempty]
    split
    · rw [ih]
      rcases p.peek fuel (firstNonempty bufs) with ⟨result, dst, q⟩ | why | _ <;> rfl
    · rfl

theorem Future.pollPeekVectored_eq [AsyncRead R] (fuel : Nat) (p : Peekable R B)
    (bufs : List (List UInt8)) :
    Future.pollPeekVectored fuel p bufs =
      (fun out => (out.1, putFirst out.2.1 bufs, out.2.2)) <$>
        Future.pollPeek fuel p (firstNonempty bufs) := by
  induction bufs with
  | nil => rfl
  | cons b bufs ih =>
    simp only [pollPeekVectored, putFirst, firstNonempty]
    split
    · rw [ih]
      rcases Future.pollPeek fuel p (firstNonempty bufs) with ⟨poll, dst, q⟩ | why | _ <;> rfl
    · rfl

end PeekableReader
