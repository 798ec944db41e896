import Otterio.Lock.Exclusion
import Otterio.ObjectLock.Worm
import Otterio.Policy.Forgery
import Otterio.XL.Inline
import Otterio.Erasure.Bitrot
import Otterio.Pools.LastWrite
import Otterio.Listing.Raw
import Otterio.Listing.Merge
import Otterio.Encryption.Compressed
import Otterio.Encryption.BlocksReader
import Otterio.IAM.Index
import Otterio.IAM.Isolation
import Otterio.IAM.Delegation
import Otterio.Listing.Reuse
import Otterio.IAM.Mapping
import Otterio.Listing.Marker
import Otterio.Lock.RefreshQuorum
import Otterio.Lifecycle.Predict
import Otterio.Multipart.Interleave
import Otterio.Listing.Cached
import Otterio.Listing.WalkFilter
import Otterio.Multipart.ListParts
import Otterio.Multipart.Retry
import Otterio.Hash.Verify
import Otterio.Select.LikeReading
import Otterio.Select.DateDiff
import Otterio.Storage.FormatQuorum
import Otterio.Erasure.SetLayout
import Otterio.Policy.Authoritative
import Otterio.Erasure.BulkDelete
import Otterio.XL.LatestMarker
import Otterio.DataUsage.Keep
import Otterio.Lifecycle.Active
import Otterio.Lifecycle.Expiry
import Otterio.Listing.Deduplicate
import Otterio.ObjectLock.Filter
import Otterio.Pools.Space
import Otterio.Erasure.Heal
