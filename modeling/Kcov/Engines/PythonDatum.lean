import Kcov.Engines.Python

/-! Reading a datum from a FIFO to which anyone may have written. -/

namespace Kcov.Python

open Bytes

section Datum

variable {f : Stream} {ahead : Nat × Nat}

end Datum

end Kcov.Python
