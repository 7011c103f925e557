import TreeCompiler.Proofs.Emission
import TreeCompiler.Proofs.Lookups

/-!
An output with room for only so many bytes.

It gets the first bytes of what an output without limit gets, as many as it has room for. If these
are not all, then emission fails, whatever it would have ended with; and if they are, then nothing
tells the two outputs apart.
-/

namespace TreeCompiler

/-! ### Bytes of lines -/

namespace Sink

variable (written : ByteArray) {n : ℕ}

end Sink

/-! ### Emission -/

namespace Session

variable {s : Session} {p : Program} {e : Emission} {n : ℕ}

end Session

end TreeCompiler
