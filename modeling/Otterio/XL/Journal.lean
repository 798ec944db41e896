import Otterio.Lib.Run
import Otterio.Storage.Dangling

/-!
# The version journal of an object

`xlMetaV2` lists the versions of one object on one drive, with the data of small versions inline
(`cmd/xl-storage-format-v2.go`). `addVersion`, `updateObjectVersion` and `deleteVersion` are its
operations; the journal an operation leaves behind when it returns an error is dropped, as its
callers do.

* `InlineData` is the list of key and value pairs that `xlMetaInlineData` serialises.
* `UuidLib` stands for the parsing and printing of UUIDs.
* `journal` is the system whose steps are the accepted operations, from the empty journal.
-/

namespace Otterio

open Err

/-! ## Version and directory ids -/

abbrev UUID := BitVec 128

/-- `uuid.Parse` and `UUID.String`: a printed id is read back, and "null" is not an id. -/
structure UuidLib where
  parse : String → Except Error UUID
  toString : UUID → String
  parse_toString : ∀ u, parse (toString u) = .ok u
  parse_null : ∀ u, parse "null" ≠ .ok u

namespace UuidLib

variable (lib : UuidLib)

theorem toString_inj {u v : UUID} (h : lib.toString u = lib.toString v) : u = v := by
  have hu := lib.parse_toString u
  rw [h, lib.parse_toString, Except.ok.injEq] at hu
  exact hu.symm

end UuidLib

def nullVersionID : String := "null"

/-- The id that a version text stands for: "" and "null" stand for the zero id. -/
def UuidLib.versionUUID (lib : UuidLib) (versionID : String) : Except Error UUID :=
  if versionID = "" ∨ versionID = nullVersionID then .ok 0 else lib.parse versionID

/-- Ids printed in decimal, a stand-in for the UUID texts. -/
def decimalIds : UuidLib where
  parse s :=
    if s.toList ≠ [] ∧ s.toList.all Char.isDigit then
      .ok (BitVec.ofNat 128 (Nat.ofDigitChars 10 s.toList 0))
    else .error errFileVersionNotFound
  toString u := u.toNat.repr
  parse_toString u := by
    have hdigits : (Nat.toDigits 10 u.toNat).all Char.isDigit = true := by
      rw [List.all_eq_true]
      exact fun c hc => Nat.isDigit_of_mem_toDigits (by decide) (by decide) hc
    rw [Nat.toList_repr, if_pos ⟨Nat.toDigits_ne_nil, hdigits⟩,
      Nat.ofDigitChars_toDigits (by decide) (by decide), BitVec.ofNat_toNat, BitVec.setWidth_eq]
  parse_null u := by simp

/-- `xlMetaInlineData`: the pairs in their serialised order. -/
abbrev InlineData := List (String × List UInt8)

namespace InlineData

/-- `find`: `none` is the `nil` result. -/
def find (x : InlineData) (key : String) : Option (List UInt8) :=
  (List.find? (fun e => e.1 == key) x).map Prod.snd

def replace (x : InlineData) (key : String) (value : List UInt8) : InlineData :=
  if x.any (fun e => e.1 == key) then x.map fun e => if e.1 == key then (e.1, value) else e
  else x ++ [(key, value)]

def remove (x : InlineData) (key : String) : InlineData := List.filter (fun e => e.1 != key) x

end InlineData

/-! ## Versions -/

/-- The valid erasure algorithm, or another number. -/
inductive ErasureAlgo where
  | invalid
  | reedSolomon
deriving DecidableEq

/-- The valid checksum algorithm, or another number. -/
inductive ChecksumAlgo where
  | invalid
  | highwayHash
deriving DecidableEq

/-- `xlMetaV2DeleteMarker`. The values of `MetaSys`, bytes in the source, are texts. -/
structure DeleteMarker where
  versionID : UUID
  modTime : Int
  metaSys : GoMap String String

structure ObjectV2 where
  versionID : UUID
  dataDir : UUID
  erasureAlgorithm : ErasureAlgo
  erasureM : Int
  erasureN : Int
  erasureBlockSize : Int
  erasureIndex : Int
  erasureDist : List UInt8
  bitrotChecksumAlgo : ChecksumAlgo
  partNumbers : List Int
  partETags : List String
  partSizes : List Int
  partActualSizes : List Int
  size : Int
  modTime : Int
  metaSys : GoMap String String
  metaUser : GoMap String String

/-- `xlMetaV1Object`, without its release tag. -/
structure ObjectV1 where
  version : String
  format : String
  statSize : Int
  statModTime : Time
  erasure : ErasureInfo
  metadata : GoMap String String
  parts : List ObjectPartInfo
  versionID : String
  dataDir : String

/-- `xlMetaV2Version`; `zero` is its zero value, of the invalid type. -/
inductive Version where
  | object (o : ObjectV2)
  | deleteMarker (m : DeleteMarker)
  | legacy (o : ObjectV1)
  | zero

def ObjectV1.valid (m : ObjectV1) : Bool :=
  !(m.statSize < 0 || !validStoragePath m.dataDir || !validStorageErasureInfo m.erasure) &&
    m.parts.all validPart && (m.version == "1.0.1" || m.version == "1.0.0") && m.format == "xl" &&
    isXLMetaErasureInfoValid m.erasure.dataBlocks m.erasure.parityBlocks

def ObjectV2.validData (j : ObjectV2) : Bool :=
  let n := j.partNumbers.length
  !(j.size < 0 || !validStorageErasureInfo
      { dataBlocks := j.erasureM, parityBlocks := j.erasureN, blockSize := j.erasureBlockSize }) &&
    !(n > globalMaxPartID || j.partSizes.length != n || j.partETags.length != n || j.partActualSizes.length != n) &&
    (j.partNumbers.zip j.partSizes).all fun p => !(p.1 ≤ 0 || p.1 > globalMaxPartID || p.2 < 0)

def Version.valid : Version → Bool
  | .legacy o => o.valid
  | .object o => o.erasureAlgorithm == .reedSolomon && o.bitrotChecksumAlgo == .highwayHash &&
      o.validData && o.modTime > 0
  | .deleteMarker m => m.modTime > 0
  | .zero => false

structure XLMeta where
  versions : List Version
  data : InlineData

/-! ## Metadata of a version -/

def reservedMetadataPrefixLower : String := "x-otterio-internal-"

def transitionStatusKey : String := reservedMetadataPrefixLower ++ "transition-status"

def amzBucketReplicationStatus : String := "X-Amz-Replication-Status"

def versionPurgeStatusKey : String := "purgestatus"

/-- `Complete` of `VersionPurgeStatusType`. -/
def purgeComplete : String := "COMPLETE"

/-- `for k, v := range fi.Metadata`, over the pairs whose key is internal or is not. -/
def copyMetadata (src : GoMap String String) (internal : Bool)
    (m : Std.ExtTreeMap String String compare) : Std.ExtTreeMap String String compare :=
  src.orMake.toList.foldl (fun m e =>
    if hasLowerPrefix e.1 reservedMetadataPrefixLower == internal then m.insert e.1 e.2 else m) m

/-- `caseInsensitiveMap(m).Lookup(xhttp.AmzRestore)` finds a value. -/
def hasRestoreHeader (m : GoMap String String) : Bool :=
  (m.get? "x-amz-restore").isSome || (m.get? "X-Amz-Restore").isSome

def removeRestoreHeader (m : GoMap String String) : GoMap String String :=
  m.map fun t => t.filter fun k _ => !equalFold k "x-amz-restore"

/-- The version is in a remote tier and was not restored: `SharedDataDirCount` does not count it. -/
def ObjectV2.tieredAway (o : ObjectV2) : Bool :=
  o.metaSys.getStr transitionStatusKey == transitionComplete && !hasRestoreHeader o.metaUser

/-- "Method not allowed". -/
def Err.errMethodNotAllowed : Error := .other 3

/-- "internal error: invalid version entry generated". -/
def Err.errInvalidVersionEntry : Error := .other 4

/-! ## Adding a version -/

def newObjectV2 (fi : FileInfo) (uv dd : UUID) : ObjectV2 where
  versionID := uv
  dataDir := dd
  size := fi.size
  modTime := fi.modTime.unixNano
  erasureAlgorithm := .reedSolomon
  erasureM := fi.erasure.dataBlocks
  erasureN := fi.erasure.parityBlocks
  erasureBlockSize := fi.erasure.blockSize
  erasureIndex := fi.erasure.index
  bitrotChecksumAlgo := .highwayHash
  erasureDist := fi.erasure.distribution.map fun n => UInt8.ofInt n
  partNumbers := fi.parts.map ObjectPartInfo.number
  partETags := fi.parts.map ObjectPartInfo.etag
  partSizes := fi.parts.map ObjectPartInfo.size
  partActualSizes := fi.parts.map ObjectPartInfo.actualSize
  metaSys := some (copyMetadata fi.metadata true ∅)
  metaUser := some (copyMetadata fi.metadata false ∅)

/-- `old` has the id, the directory, the size and as many parts as the new version. -/
def sameLayout (fi : FileInfo) (uv dd : UUID) (old : ObjectV2) : Bool :=
  old.versionID == uv && old.dataDir == dd && old.size == fi.size &&
    old.partNumbers.length == fi.parts.length && old.partSizes.length == fi.parts.length

/-- `preserveInline`: the first version of the same layout has the same parts. -/
def preserveInline (fi : FileInfo) (uv dd : UUID) : List Version → Bool
  | [] => false
  | .object old :: vs =>
    if sameLayout fi uv dd old then
      old.partNumbers == fi.parts.map ObjectPartInfo.number && old.partSizes == fi.parts.map ObjectPartInfo.size
    else preserveInline fi uv dd vs
  | _ :: vs => preserveInline fi uv dd vs

def inlineAfterAdd (z : XLMeta) (fi : FileInfo) (versionID : String) (uv dd : UUID) : InlineData :=
  if fi.data.length > 0 || fi.size == 0 then z.data.replace versionID fi.data
  else if preserveInline fi uv dd z.versions then z.data
  else z.data.remove versionID

/-- The version that the new one takes the place of. -/
def Version.isReplacedBy (versionID : String) (uv : UUID) : Version → Bool
  | .legacy o => o.versionID == versionID
  | .object o => o.versionID == uv
  | .deleteMarker m => m.versionID == uv
  | .zero => false

/-- The last loop of `AddVersion`. -/
def replaceOrAppend (ventry : Version) (versionID : String) (uv : UUID) : List Version → Result (List Version)
  | [] => .ok [ventry]
  | v :: vs =>
    if !v.valid then .error (.err errFileCorrupt)
    else if v.isReplacedBy versionID uv then .ok (ventry :: vs)
    else (v :: ·) <$> replaceOrAppend ventry versionID uv vs

def addEntry (fi : FileInfo) (uv dd : UUID) : Version :=
  if fi.deleted then .deleteMarker ⟨uv, fi.modTime.unixNano, GoMap.make⟩
  else .object (newObjectV2 fi uv dd)

def addVersion (lib : UuidLib) (z : XLMeta) (fi : FileInfo) : Result XLMeta := do
  Result.ofExcept (validateStorageFileInfo fi true)
  let versionID := if fi.versionID = "" then nullVersionID else fi.versionID
  let uv ← Result.ofExcept (lib.versionUUID versionID)
  let dd ← Result.ofExcept (if fi.dataDir = "" then .ok 0 else lib.parse fi.dataDir)
  let ventry := addEntry fi uv dd
  let data := if fi.deleted then z.data else inlineAfterAdd z fi versionID uv dd
  if !ventry.valid then .error (.err errInvalidVersionEntry)
  else
    let versions ← replaceOrAppend ventry versionID uv z.versions
    return ⟨versions, data⟩

/-! ## Updating the metadata of a version -/

def updateLegacy (fi : FileInfo) (o : ObjectV1) : ObjectV1 :=
  let meta1 := (fi.metadata.copyInto o.metadata.orMake).insert transitionStatusKey fi.transitionStatus
  { o with metadata :=
      if fi.transitionStatus = transitionComplete ∧ !hasRestoreHeader fi.metadata then
        removeRestoreHeader (some meta1)
      else some meta1 }

def updateObject (fi : FileInfo) (o : ObjectV2) : ObjectV2 :=
  let sys := copyMetadata fi.metadata true o.metaSys.orMake
  let user := copyMetadata fi.metadata false o.metaUser.orMake
  { o with
    metaSys := some (if fi.transitionStatus = "" then sys
      else sys.insert transitionStatusKey fi.transitionStatus)
    metaUser :=
      if fi.transitionStatus = transitionComplete ∧ !hasRestoreHeader fi.metadata then
        removeRestoreHeader (some user)
      else some user
    modTime := if fi.modTime = Time.zero then o.modTime else fi.modTime.unixNano }

@[simp] theorem updateObject_versionID (fi : FileInfo) (o : ObjectV2) :
    (updateObject fi o).versionID = o.versionID := by
  simp only [updateObject]

def updateLoop (fi : FileInfo) (versionID : String) (uv : UUID) : List Version → Result (List Version)
  | [] => .error (.err errFileVersionNotFound)
  | v :: vs =>
    if !v.valid then .error (.err errFileCorrupt)
    else match v with
    | .legacy o =>
      if o.versionID = versionID ∨ (o.versionID = nullVersionID ∧ versionID = "") then
        if fi.transitionStatus = "" then .error (.err errMethodNotAllowed)
        else .ok (.legacy (updateLegacy fi o) :: vs)
      else (v :: ·) <$> updateLoop fi versionID uv vs
    | .object o =>
      if o.versionID = uv then .ok (.object (updateObject fi o) :: vs)
      else (v :: ·) <$> updateLoop fi versionID uv vs
    | .deleteMarker _ => .error (.err errMethodNotAllowed)
    | .zero => (v :: ·) <$> updateLoop fi versionID uv vs

def updateObjectVersion (lib : UuidLib) (z : XLMeta) (fi : FileInfo) : Result XLMeta := do
  let versionID := if fi.versionID = "" then nullVersionID else fi.versionID
  let uv ← Result.ofExcept (lib.versionUUID versionID)
  let versions ← updateLoop fi versionID uv z.versions
  return ⟨versions, z.data⟩

/-! ## Deleting a version -/

def sharedDataDirCount (lib : UuidLib) (z : XLMeta) (versionID dataDir : UUID) : Nat :=
  if (z.data.find (lib.toString versionID)).isSome then 0
  else z.versions.countP fun
    | .object o => o.versionID != versionID && !o.tieredAway && o.dataDir == dataDir
    | _ => false

/-- `updateVersion` of `DeleteVersion`: the version is only marked. -/
def updatesVersion (fi : FileInfo) : Bool :=
  if fi.versionPurgeStatus == "" && (fi.deleteMarkerReplicationStatus == "REPLICA" ||
      fi.deleteMarkerReplicationStatus == "") then fi.markDeleted
  else
    (fi.deleted && fi.versionPurgeStatus != purgeComplete &&
      (fi.versionPurgeStatus != "" || fi.deleteMarkerReplicationStatus != "")) ||
    (fi.versionPurgeStatus != "" && fi.versionPurgeStatus != purgeComplete)

def setReplicationState (fi : FileInfo) (m : Std.ExtTreeMap String String compare) :
    Std.ExtTreeMap String String compare :=
  let m := if fi.deleteMarkerReplicationStatus = "" then m
    else m.insert amzBucketReplicationStatus fi.deleteMarkerReplicationStatus
  if fi.versionPurgeStatus = "" then m else m.insert versionPurgeStatusKey fi.versionPurgeStatus

/-- `ventry` of `DeleteVersion`: a new marker, or the zero entry. -/
def deleteEntry (fi : FileInfo) (uv : UUID) : Version :=
  if fi.deleted then
    .deleteMarker ⟨uv, fi.modTime.unixNano, some (setReplicationState fi ∅)⟩
  else .zero

def updateMarker (fi : FileInfo) (m : DeleteMarker) : DeleteMarker :=
  let sys := (m.metaSys.orMake.erase amzBucketReplicationStatus).erase versionPurgeStatusKey
  { m with metaSys := some (setReplicationState fi sys) }

@[simp] theorem updateMarker_versionID (fi : FileInfo) (m : DeleteMarker) :
    (updateMarker fi m).versionID = m.versionID := by
  simp only [updateMarker]

def transitionLegacy (fi : FileInfo) (o : ObjectV1) : ObjectV1 :=
  let meta1 := (fi.metadata.copyInto o.metadata.orMake).insert transitionStatusKey fi.transitionStatus
  { o with metadata :=
      if fi.transitionStatus = transitionComplete then removeRestoreHeader (some meta1)
      else some meta1 }

def transitionObject (fi : FileInfo) (o : ObjectV2) : ObjectV2 :=
  { o with
    metaSys := some ((copyMetadata fi.metadata true o.metaSys.orMake).insert transitionStatusKey
      fi.transitionStatus)
    metaUser := if fi.transitionStatus = transitionComplete then removeRestoreHeader o.metaUser
      else o.metaUser }

@[simp] theorem transitionObject_versionID (fi : FileInfo) (o : ObjectV2) :
    (transitionObject fi o).versionID = o.versionID := by
  simp only [transitionObject]

/-- The versions with the new marker at the end, if there is one. -/
def appendIf (b : Bool) (ventry : Version) (vs : List Version) : List Version :=
  if b then vs ++ [ventry] else vs

/-- What a loop of `DeleteVersion` returns: the versions, the directory to delete and whether no
version is left. -/
abbrev Deleted := List Version × String × Bool

/-- The first loop of `DeleteVersion`, after the versions `pre`. -/
def deleteScan (fi : FileInfo) (versionID : String) (uv : UUID) (pre : List Version) :
    List Version → Result (Option Deleted)
  | [] => .ok none
  | v :: vs =>
    if !v.valid then .error (.err errFileCorrupt)
    else match v with
    | .legacy o =>
      if o.versionID = versionID ∨ (o.versionID = nullVersionID ∧ versionID = "") then
        if fi.transitionStatus ≠ "" then
          .ok (some (pre ++ .legacy (transitionLegacy fi o) :: vs, o.dataDir, false))
        else
          let left := appendIf fi.deleted (deleteEntry fi uv) (pre ++ vs)
          .ok (some (left, o.dataDir, left.isEmpty))
      else deleteScan fi versionID uv (pre ++ [v]) vs
    | .deleteMarker m =>
      if m.versionID = uv then
        let left :=
          if updatesVersion fi then pre ++ .deleteMarker (updateMarker fi m) :: vs
          else appendIf (fi.markDeleted && fi.versionPurgeStatus != purgeComplete)
            (deleteEntry fi uv) (pre ++ vs)
        .ok (some (left, "", left.isEmpty))
      else deleteScan fi versionID uv (pre ++ [v]) vs
    | .object o =>
      if o.versionID = uv ∧ updatesVersion fi then do
        let sys ← o.metaSys.set versionPurgeStatusKey fi.versionPurgeStatus
        let left := pre ++ .object { o with metaSys := sys } :: vs
        return some (left, "", left.isEmpty)
      else deleteScan fi versionID uv (pre ++ [v]) vs
    | .zero => deleteScan fi versionID uv (pre ++ [v]) vs

/-- The directory of a deleted version, unless another version shares it. -/
def freedDir (lib : UuidLib) (z : XLMeta) (o : ObjectV2) : String :=
  if sharedDataDirCount lib z o.versionID o.dataDir > 0 then "" else lib.toString o.dataDir

/-- The second loop of `DeleteVersion`, after the versions `pre`. -/
def deleteObjectScan (lib : UuidLib) (data : InlineData) (fi : FileInfo) (uv : UUID)
    (pre : List Version) : List Version → Result (Option Deleted)
  | [] => .ok none
  | v :: vs =>
    if !v.valid then .error (.err errFileCorrupt)
    else match v with
    | .object o =>
      if o.versionID = uv then
        if fi.transitionStatus ≠ "" then
          let left := pre ++ .object (transitionObject fi o) :: vs
          .ok (some (left, freedDir lib ⟨left, data⟩ o, false))
        else
          let left := appendIf fi.deleted (deleteEntry fi uv) (pre ++ vs)
          .ok (some (left, freedDir lib ⟨pre ++ vs, data⟩ o, left.isEmpty))
      else deleteObjectScan lib data fi uv (pre ++ [v]) vs
    | _ => deleteObjectScan lib data fi uv (pre ++ [v]) vs

/-- `DeleteVersion`: the journal, the data directory to delete and whether no version is left. -/
def deleteVersion (lib : UuidLib) (z : XLMeta) (fi : FileInfo) : Result (XLMeta × String × Bool) :=
  let versionID := if fi.versionID = nullVersionID then "" else fi.versionID
  match lib.versionUUID versionID with
  | .error _ => .error (.err errFileVersionNotFound)
  | .ok uv =>
    if fi.deleted && !(deleteEntry fi uv).valid then .error (.err errInvalidVersionEntry)
    else do
      match ← deleteScan fi versionID uv [] z.versions with
      | some (left, dir, last) => return (⟨left, z.data⟩, dir, last)
      | none =>
        match ← deleteObjectScan lib z.data fi uv [] z.versions with
        | some (left, dir, last) => return (⟨left, z.data⟩, dir, last)
        | none =>
          if fi.deleted then return (⟨z.versions ++ [deleteEntry fi uv], z.data⟩, "", false)
          else .error (.err errFileVersionNotFound)

/-- One accepted call. -/
inductive JournalStep (lib : UuidLib) (z : XLMeta) : XLMeta → Prop where
  | add {z' : XLMeta} (fi : FileInfo) (h : addVersion lib z fi = .ok z') : JournalStep lib z z'
  | update {z' : XLMeta} (fi : FileInfo) (h : updateObjectVersion lib z fi = .ok z') :
      JournalStep lib z z'
  | delete {z' : XLMeta} (fi : FileInfo) {dir : String} {last : Bool}
      (h : deleteVersion lib z fi = .ok (z', dir, last)) : JournalStep lib z z'

/-- The journals that the operations build from the empty one. -/
def journal (lib : UuidLib) : System XLMeta where
  init z := z = ⟨[], []⟩
  step := JournalStep lib

end Otterio
