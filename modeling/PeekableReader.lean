import PeekableReader.Agreement
import PeekableReader.Backends
import PeekableReader.Balance
import PeekableReader.BufRead.Transparency
import PeekableReader.Compat
import PeekableReader.Concatenation
import PeekableReader.Direct
import PeekableReader.Duplex
import PeekableReader.Exact
import PeekableReader.Filling
import PeekableReader.HardErrors
import PeekableReader.Inquiries
import PeekableReader.Lookahead
import PeekableReader.Prediction
import PeekableReader.Refinement
import PeekableReader.Retry
import PeekableReader.Rollback
import PeekableReader.Safety
import PeekableReader.Stacking
import PeekableReader.Tape
import PeekableReader.Tape.Interludes
import PeekableReader.Termination
import PeekableReader.ToEnd
import PeekableReader.Transients
import PeekableReader.Transparency
