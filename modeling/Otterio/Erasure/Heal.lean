import Otterio.Erasure.Decode

/-!
# Healing shard files

`Heal` decodes an object from the drives that have it and encodes it again for those that lack it
(`cmd/erasure-lowlevel-heal.go`). The two run side by side, with a pipe between them.
-/

namespace Otterio.Erasure

open Err List

variable (e : Erasure) (rs : ReedSolomon e.dataBlocks e.parityBlocks)

variable {e rs} {D : Bytes} {j : Nat}

end Otterio.Erasure
