import Otterio.Object.Names

/-!
# Server pools

Several pools serve one namespace (`cmd/erasure-server-pool.go`). A call is passed on to one of them:
to the first that has the object, to the first that has the upload, or to one that is drawn with the
free space as weights. The model has one bucket without versions. A pool is a map from names to
objects, with the names and ids of its multipart uploads.

A call returns `none` where the source would panic, at an index outside of the pools.
-/

namespace Otterio.Pools

/-! ## Free space -/

structure Disk where
  totalSpace : UInt64
  usedSpace : UInt64

/-- What the draw of a pool depends on, besides the size of the object. -/
structure Space where
  /-- The drives of a pool, by `StorageUsageInfo`. -/
  disks : Nat → List Disk
  /-- `uint64(float64(total) * (1.0 - diskFillFraction))`. -/
  wantLeft : UInt64 → UInt64
  rand : UInt64

structure PoolAvailableSpace where
  index : Nat
  available : UInt64

/-- One round of `getServerPoolsAvailableSpace`. The source subtracts `-uint64(size)`, so that the size
is added to what is available. -/
def availableSpace (space : Space) (size : Int) (i : Nat) : PoolAvailableSpace :=
  let total := (space.disks i).foldl (fun total disk => total + disk.totalSpace) 0
  let available := (space.disks i).foldl
    (fun available disk => available + (disk.totalSpace - disk.usedSpace)) 0
  let available := if available < UInt64.ofNat size.toNat then 0 else available
  let available :=
    if available > 0 then
      let available := available - -UInt64.ofNat size.toNat
      if available ≤ space.wantLeft total then 0 else available
    else available
  ⟨i, available⟩

/-- `getServerPoolsAvailableSpace` of `n` pools. -/
def getServerPoolsAvailableSpace (n : Nat) (space : Space) (size : Int) : List PoolAvailableSpace :=
  let size := if size < 0 then 0 else size
  (List.range n).map (availableSpace space size)

def totalAvailable (p : List PoolAvailableSpace) : UInt64 :=
  p.foldl (fun total z => total + z.available) 0

/-- The loop of `getAvailablePoolIdx`. -/
def chooseLoop (choose : UInt64) : UInt64 → List PoolAvailableSpace → Option Nat
  | _, [] => none
  | atTotal, pool :: rest =>
    let atTotal := atTotal + pool.available
    if atTotal > choose ∧ pool.available > 0 then some pool.index
    else chooseLoop choose atTotal rest

/-- `getAvailablePoolIdx`; `none` stands for -1. -/
def getAvailablePoolIdx (n : Nat) (space : Space) (size : Int) : Option Nat :=
  let serverPools := getServerPoolsAvailableSpace n space size
  let total := totalAvailable serverPools
  if total = 0 then none else chooseLoop (space.rand % total) 0 serverPools

theorem mem_of_chooseLoop {choose : UInt64} {idx : Nat} : ∀ {atTotal : UInt64} {pools : List PoolAvailableSpace},
      chooseLoop choose atTotal pools = some idx → ∃ p ∈ pools, p.index = idx
  | _, pool :: rest, h => by
    rw [chooseLoop] at h
    split at h
    · exact ⟨pool, List.mem_cons_self, Option.some.inj h⟩
    · obtain ⟨p, hp, hidx⟩ := mem_of_chooseLoop h
      exact ⟨p, List.mem_cons_of_mem _ hp, hidx⟩

theorem getAvailablePoolIdx_lt {n idx : Nat} {space : Space} {size : Int}
    (h : getAvailablePoolIdx n space size = some idx) : idx < n := by
  unfold getAvailablePoolIdx at h
  simp only at h
  split at h
  · cases h
  · obtain ⟨p, hp, rfl⟩ := mem_of_chooseLoop h
    obtain ⟨i, hi, rfl⟩ := List.mem_map.mp hp
    exact List.mem_range.mp hi

/-! ## A pool -/

/-- `ObjectInfo`; `info` stands for the fields that the pools' layer does not look at. -/
structure ObjectInfo (α : Type) where
  name : Bytes
  deleteMarker : Bool
  info : α
deriving DecidableEq, Repr

/-- A pool: its objects, and the names and ids of its uploads. -/
structure Pool (α : Type) where
  objects : Bytes → Option (ObjectInfo α)
  uploads : List (Bytes × Bytes)

variable {α β : Type}

def ObjectInfo.zero [Inhabited α] : ObjectInfo α := ⟨[], false, default⟩

namespace Pool

def getObjectInfo [Inhabited α] (p : Pool α) (object : Bytes) : ObjectInfo α × Option ObjectError :=
  match p.objects object with
  | some objInfo => (objInfo, none)
  | none => (.zero, some (.objectNotFound (decodeDirObject object)))

/-- `PutObject` of a pool; `data` is the object, or the failure of the write. -/
def putObject (object : Bytes) (data : Except ObjectError (ObjectInfo α)) (p : Pool α) :
    Except ObjectError (ObjectInfo α) × Pool α :=
  match data with
  | .error err => (.error err, p)
  | .ok objInfo => (.ok objInfo, { p with objects := Function.update p.objects object (some objInfo) })

/-- `DeleteObject` of a pool, which may fail for a reason of its own. -/
def deleteObject (object : Bytes) (failure : Option ObjectError) (p : Pool α) : Except ObjectError Unit × Pool α :=
  match p.objects object, failure with
  | none, _ => (.error (.objectNotFound (decodeDirObject object)), p)
  | some _, some err => (.error err, p)
  | some _, none => (.ok (), { p with objects := Function.update p.objects object none })

/-- `ListMultipartUploads` of a pool: the ids of the uploads of an object. -/
def listMultipartUploads (p : Pool α) (object : Bytes) : List Bytes :=
  (p.uploads.filter fun upload => upload.1 == object).map Prod.snd

/-- `GetMultipartInfo` of a pool: whether it has the upload. -/
def getMultipartInfo (p : Pool α) (object uploadID : Bytes) : Option ObjectError :=
  if (object, uploadID) ∈ p.uploads then none else some (.invalidUploadID object uploadID)

/-- `NewMultipartUpload` of a pool, which makes the id. -/
def newMultipartUpload (object uploadID : Bytes) (p : Pool α) : Except ObjectError Bytes × Pool α :=
  (.ok uploadID, { p with uploads := (object, uploadID) :: p.uploads })

/-- `CompleteMultipartUpload` of a pool; `data` is the object made of the parts, or the failure. -/
def completeMultipartUpload (object uploadID : Bytes) (data : Except ObjectError (ObjectInfo α))
    (p : Pool α) : Except ObjectError (ObjectInfo α) × Pool α :=
  match p.getMultipartInfo object uploadID, data with
  | some err, _ => (.error err, p)
  | none, .error err => (.error err, p)
  | none, .ok objInfo =>
    (.ok objInfo,
      { objects := Function.update p.objects object (some objInfo)
        uploads := p.uploads.erase (object, uploadID) })

end Pool

/-! ## The pools -/

abbrev Server (α : Type) := List (Pool α)

def isErrObjectNotFound : ObjectError → Bool
  | .objectNotFound _ => true
  | _ => false

def isErrVersionNotFound : ObjectError → Bool
  | .versionNotFound _ _ => true
  | _ => false

/-- The loop of `getPoolIdxExistingWithOpts` over what the pools returned; `none` stands for its
end. -/
def existingLoop : Nat → List (ObjectInfo α × Option ObjectError) → Option (Except ObjectError Nat)
  | _, [] => none
  | i, (_, none) :: _ => some (.ok i)
  | i, (objInfo, some err) :: rest =>
    if objInfo.deleteMarker ∧ objInfo.name ≠ [] then some (.ok i)
    else if isErrObjectNotFound err ∨ isErrVersionNotFound err then existingLoop (i + 1) rest
    else some (.error err)

def poolIdxLoop : Nat → List (ObjectInfo α × Option ObjectError) → Option (Except ObjectError Nat)
  | _, [] => none
  | i, (_, none) :: _ => some (.ok i)
  | i, (objInfo, some err) :: rest =>
    if !isErrObjectNotFound err then some (.error err)
    else if objInfo.deleteMarker ∧ objInfo.name ≠ [] then some (.ok i)
    else poolIdxLoop (i + 1) rest

def objectInfoLoop : List (ObjectInfo α × Option ObjectError) → Option (ObjectInfo α × Option ObjectError)
  | [] => none
  | (objInfo, none) :: _ => some (objInfo, none)
  | (objInfo, some err) :: rest =>
    if !isErrObjectNotFound err ∧ !isErrVersionNotFound err then some (objInfo, some err)
    else objectInfoLoop rest

def onPool (z : Server α) (idx : Nat) (call : Pool α → β × Pool α) : Option (β × Server α) :=
  z[idx]?.map fun p => ((call p).1, z.set idx (call p).2)

namespace Server

variable [Inhabited α]

/-- `getPoolIdxExistingWithOpts` without a version id. -/
def getPoolIdxExisting (z : Server α) (object : Bytes) : Except ObjectError Nat :=
  if z.length = 1 then .ok 0
  else (existingLoop 0 (z.map (·.getObjectInfo object))).getD
    (.error (.objectNotFound (decodeDirObject object)))

/-- `getPoolIdxWithOpts`. The size is doubled for the erasure coding. -/
def getPoolIdx (z : Server α) (object : Bytes) (size : Int) (space : Space) : Except ObjectError Nat :=
  if z.length = 1 then .ok 0
  else
    match poolIdxLoop 0 (z.map (·.getObjectInfo object)) with
    | some r => r
    | none =>
      match getAvailablePoolIdx z.length space (int64 (size * 2)) with
      | none => .error .storageFull
      | some idx => .ok idx

variable (lib : Unicode)

def getObjectInfo (z : Server α) (object : Bytes) : Option (ObjectInfo α × Option ObjectError) :=
  match checkBucketAndObjectNames lib object with
  | some err => some (.zero, some err)
  | none =>
    let object := encodeDirObject object
    if z.length = 1 then z[0]?.map (·.getObjectInfo object)
    else some ((objectInfoLoop (z.map (·.getObjectInfo object))).getD
      (.zero, some (.objectNotFound (decodeDirObject object))))

def putObject (z : Server α) (object : Bytes) (size : Int) (space : Space)
    (data : Except ObjectError (ObjectInfo α)) : Option (Except ObjectError (ObjectInfo α) × Server α) :=
  match checkPutObjectArgs lib object with
  | some err => some (.error err, z)
  | none =>
    let object := encodeDirObject object
    if z.length = 1 then onPool z 0 (Pool.putObject object data)
    else
      match z.getPoolIdx object size space with
      | .error err => some (.error err, z)
      | .ok idx => onPool z idx (Pool.putObject object data)

/-- `DeleteObject` without a version id. -/
def deleteObject (z : Server α) (object : Bytes) (failure : Option ObjectError) :
    Option (Except ObjectError Unit × Server α) :=
  match checkBucketAndObjectNames lib object with
  | some err => some (.error err, z)
  | none =>
    let object := encodeDirObject object
    if z.length = 1 then onPool z 0 (Pool.deleteObject object failure)
    else
      match z.getPoolIdxExisting object with
      | .error err => some (.error err, z)
      | .ok idx => onPool z idx (Pool.deleteObject object failure)

omit [Inhabited α]

/-- `NewMultipartUpload`: where the object already has an upload, or where there is space for a
gigabyte. Whether a pool has the object is not looked at. -/
def newMultipartUpload (z : Server α) (object : Bytes) (space : Space) (uploadID : Bytes) :
    Option (Except ObjectError Bytes × Server α) :=
  match checkObjectArgs lib object with
  | some err => some (.error err, z)
  | none =>
    if z.length = 1 then onPool z 0 (Pool.newMultipartUpload object uploadID)
    else
      match z.findIdx? fun p => (p.listMultipartUploads object).length ≠ 0 with
      | some idx => onPool z idx (Pool.newMultipartUpload object uploadID)
      | none =>
        match getAvailablePoolIdx z.length space (2 ^ 30 * 2) with
        | none => some (.error .storageFull, z)
        | some idx => onPool z idx (Pool.newMultipartUpload object uploadID)

/-- `CompleteMultipartUpload`: in the first pool that has the upload. -/
def completeMultipartUpload (z : Server α) (object uploadID : Bytes) (data : Except ObjectError (ObjectInfo α)) :
    Option (Except ObjectError (ObjectInfo α) × Server α) :=
  match checkObjectArgs lib object with
  | some err => some (.error err, z)
  | none =>
    if z.length = 1 then onPool z 0 (Pool.completeMultipartUpload object uploadID data)
    else
      match z.findIdx? fun p => (p.getMultipartInfo object uploadID).isNone with
      | none => some (.error (.invalidUploadID object uploadID), z)
      | some idx => onPool z idx (Pool.completeMultipartUpload object uploadID data)

end Server

end Otterio.Pools
