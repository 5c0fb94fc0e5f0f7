import PeekableReader.Io.Error
import PeekableReader.Lib.Exec
import PeekableReader.Lib.Ledger

/-!
# The `Read` trait

A reader is a state machine. `Read.read r buf` is the outcome of reading into a slice
that holds `buf`: the result, the slice afterwards and the reader afterwards. The bytes
a successful read of `n` bytes hands over are the first `n` of the slice; what it leaves
behind them is unspecified.

`BoundedRead` says that a read reports no more than fits. `LawfulRead` adds that what it
reports is what the ledger of the reader records, and that a failed read hands over
nothing.
-/

namespace PeekableReader

open Ledger

/-- `std::io::Read` -/
class Read (R : Type) where
  read (r : R) (buf : List UInt8) : Except IoError Nat × List UInt8 × R

class BoundedRead (R : Type) [Read R] : Prop where
  read_length (r : R) (buf : List UInt8) : (Read.read r buf).2.1.length = buf.length
  read_le {r r' : R} {buf buf' : List UInt8} {n : Nat}
    (h : Read.read r buf = (.ok n, buf', r')) : n ≤ buf.length

class LawfulRead (R : Type) [Read R] [Ledger R UInt8] : Prop extends BoundedRead R where
  read_ok {r r' : R} {buf buf' : List UInt8} {n : Nat}
    (h : Read.read r buf = (.ok n, buf', r')) : Hands r (buf'.take n) r'
  read_error {r r' : R} {buf buf' : List UInt8} {e : IoError}
    (h : Read.read r buf = (.error e, buf', r')) : Hands r [] r'

/-- Without an account of the bytes, being bounded is all there is to being lawful. -/
theorem BoundedRead.lawful (R : Type) [Read R] [BoundedRead R] :
    @LawfulRead R _ (Ledger.any R UInt8) :=
  @LawfulRead.mk R _ (Ledger.any R UInt8) _ (fun _ => trivial) (fun _ => trivial)

/-- What one read does, whatever its result. -/
theorem LawfulRead.read_spec {R : Type} [Read R] [Ledger R UInt8] [LawfulRead R] {r r' : R}
    {buf buf' : List UInt8} {res : Except IoError Nat} (h : Read.read r buf = (res, buf', r')) :
    buf'.length = buf.length ∧ ∃ d, Hands r d r' ∧
      (∀ n, res = .ok n → n ≤ buf.length ∧ d = buf'.take n) ∧ (∀ e, res = .error e → d = []) := by
  have hlen : buf'.length = buf.length := by simpa [h] using BoundedRead.read_length r buf
  refine ⟨hlen, ?_⟩
  cases res with
  | ok n =>
    exact ⟨buf'.take n, read_ok h, by rintro m ⟨⟩; exact ⟨BoundedRead.read_le h, rfl⟩,
      by rintro e ⟨⟩⟩
  | error e =>
    exact ⟨[], read_error h, by rintro n ⟨⟩, fun _ _ => rfl⟩

end PeekableReader
