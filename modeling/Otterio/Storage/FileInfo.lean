import Otterio.Lib.Go

/-!
# Storage errors and the `FileInfo` record

The data that one drive returns for one object version (`cmd/storage-datatypes.go`) and the checks
on it (`cmd/storage-validation.go`, `FileInfo.IsValid` of `cmd/erasure-metadata.go`). Go `int` and
`int64` fields are integers: the checks bound every value they add.
-/

namespace Otterio

/-! ## Errors -/

namespace Err

abbrev storageErr (msg : String) : Error := .str msg

def errCorruptedFormat : Error :=
  storageErr "corrupted backend format, specified disk mount has unexpected previous content"
def errUnformattedDisk : Error := storageErr "unformatted disk found"
def errDiskNotFound : Error := storageErr "disk not found"
def errFaultyRemoteDisk : Error := storageErr "remote disk is faulty"
def errFaultyDisk : Error := storageErr "disk is faulty"
def errDiskAccessDenied : Error := storageErr "disk access denied"
def errFileNotFound : Error := storageErr "file not found"
def errFileVersionNotFound : Error := storageErr "file version not found"
def errVolumeNotFound : Error := storageErr "volume not found"
def errFileAccessDenied : Error := storageErr "file access denied"
def errFileCorrupt : Error := storageErr "file is corrupted"

/-- "Read failed. Insufficient number of disks online", made by `errors.New`. -/
def errErasureReadQuorum : Error := .other 0

end Err

open Err

def baseErrs : List Error := [errDiskNotFound, errFaultyDisk, errFaultyRemoteDisk]

def baseIgnoredErrs : List Error := baseErrs

def objectOpIgnoredErrs : List Error := baseIgnoredErrs ++ [errDiskAccessDenied, errUnformattedDisk]

/-- `IsErr(err, errs...)`: the error is one of `errs`. -/
def isErr (err : Option Error) (errs : List Error) : Bool := errs.any fun e => errorsIs err e

def isErrIgnored (err : Option Error) (ignoredErrs : List Error) : Bool := isErr err ignoredErrs

@[simp] theorem isErrIgnored_none (errs : List Error) : isErrIgnored none errs = false := by
  simp [isErrIgnored, isErr]

/-- `ErasureInfo`, without the checksums. -/
structure ErasureInfo where
  algorithm : String := ""
  dataBlocks : Int := 0
  parityBlocks : Int := 0
  blockSize : Int := 0
  index : Int := 0
  distribution : List Int := []
deriving DecidableEq, Repr

structure ObjectPartInfo where
  etag : String := ""
  number : Int := 0
  size : Int := 0
  actualSize : Int := 0
deriving DecidableEq, Repr

/-- `FileInfo`. The zero value of the type is `({} : FileInfo)`. -/
structure FileInfo where
  volume : String := ""
  name : String := ""
  versionID : String := ""
  deleted : Bool := false
  transitionStatus : String := ""
  dataDir : String := ""
  modTime : Time := Time.zero
  size : Int := 0
  metadata : GoMap String String := none
  parts : List ObjectPartInfo := []
  erasure : ErasureInfo := {}
  markDeleted : Bool := false
  deleteMarkerReplicationStatus : String := ""
  versionPurgeStatus : String := ""
  data : List UInt8 := []

/-! ## Checks -/

def globalMaxPartID : Int := 10000

def blockSizeV1 : Int := 10 * 1024 * 1024

/-- A Windows drive letter followed by a colon. -/
def hasDriveLetter : List Char → Bool
  | a :: b :: _ => b == ':' && (('a' ≤ a && a ≤ 'z') || ('A' ≤ a && a ≤ 'Z'))
  | _ => false

def validStoragePath (name : String) : Bool :=
  let cs := name.toList
  if cs.head? == some '/' || cs.any (fun c => c == '\\' || c == '\x00') then false
  else (cs.splitOn '/').all fun part =>
    !(part == ['.'] || part == ['.', '.']) && !hasDriveLetter part

def validStorageFileInfoPaths (fi : FileInfo) : Bool :=
  validStoragePath fi.name && validStoragePath fi.volume && validStoragePath fi.dataDir

def isXLMetaErasureInfoValid (data parity : Int) : Bool :=
  data > 0 && parity > 0 && data ≥ parity && data ≤ 256 && parity ≤ 256 - data

def validStorageErasureInfo (e : ErasureInfo) : Bool :=
  isXLMetaErasureInfoValid e.dataBlocks e.parityBlocks && e.blockSize > 0 && e.blockSize ≤ blockSizeV1

/-- The check of one part in `validStorageFileInfoData`. -/
def validPart (part : ObjectPartInfo) : Bool := !(part.number ≤ 0 || part.number > globalMaxPartID || part.size < 0)

def validStorageFileInfoData (fi : FileInfo) : Bool :=
  if fi.deleted then true
  else if fi.size < 0 || !validStorageErasureInfo fi.erasure || fi.parts.length > globalMaxPartID then
    false
  else fi.parts.all validPart

def validateStorageFileInfo (fi : FileInfo) (requireData : Bool) : Except Error Unit :=
  if !validStorageFileInfoPaths fi then .error errFileAccessDenied
  else if requireData && !validStorageFileInfoData fi then .error errFileCorrupt
  else .ok ()

def FileInfo.isValid (fi : FileInfo) : Bool :=
  if !validStorageFileInfoPaths fi || !validStorageFileInfoData fi then false
  else if fi.deleted then true
  else
    let dataBlocks := fi.erasure.dataBlocks
    let parityBlocks := fi.erasure.parityBlocks
    let correctIndexes := fi.erasure.index > 0 && fi.erasure.index ≤ dataBlocks + parityBlocks &&
      (fi.erasure.distribution.length : Int) == dataBlocks + parityBlocks
    dataBlocks ≥ parityBlocks && dataBlocks != 0 && parityBlocks != 0 && correctIndexes

/-- A valid object, as opposed to a delete marker, has a layout with `1 ≤ parity ≤ data`. -/
theorem FileInfo.isValid_layout {fi : FileInfo} (hv : fi.isValid = true) (hd : fi.deleted = false) :
    1 ≤ fi.erasure.parityBlocks ∧ fi.erasure.parityBlocks ≤ fi.erasure.dataBlocks := by
  unfold isValid validStorageFileInfoData validStorageErasureInfo isXLMetaErasureInfoValid at hv
  grind

end Otterio
