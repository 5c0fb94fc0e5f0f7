import PeekableReader.Script.Read

/-!
# A synchronous peek at a script

`peek` in its three cases: from the peek buffer alone, with a buffer that refuses to grow,
or with an answer of the reader. It is followed on its own, since it fails with `WouldBlock`
where a poll is pending.
-/

namespace PeekableReader

open Buffer

variable {B : Type} [Buffer B]

variable [LawfulBuffer B] {p : Peekable Script B} {n fuel : Nat}

section Asked

-- the buffer has grown, and the reader has been read with the room behind its contents
variable {buffer : B} {p₁ : Peekable Script B} {answer : Except IoError (List UInt8)}
  (hlt : p.peeked.length < n) (hres : resize p.buffer n = (.ok (), buffer))
  (hrun : Peekable.readRetry fuel { p with buffer } p.peeked.length =
    .ok (answer.map List.length, p₁))
  (hle : (Poll.ready answer).bytes.length ≤ n - p.peeked.length)
  (hpeeked : (p₁.truncate (p.peeked.length + (Poll.ready answer).bytes.length)).peeked =
    p.peeked ++ (Poll.ready answer).bytes)
include hlt hres hrun hle hpeeked

end Asked

end PeekableReader
