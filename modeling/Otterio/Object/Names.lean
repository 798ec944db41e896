import Otterio.Lib.Go

/-!
# Names of objects

The names that the object layer accepts (`cmd/object-api-input-checks.go`, `cmd/object-api-utils.go`)
and the encoding of a name that ends in a slash (`cmd/utils.go`). A name is a Go string, so a list of
bytes. The branches for Windows are left out.

The encoding is not injective: a name that ends in a slash and the name with `globalDirSuffix` in its
place are stored under one name. On the names of multipart uploads it does nothing
(`encodeDirObject_of_checkObjectArgs`).
-/

namespace Otterio

def ascii (s : String) : Bytes := s.toList.map Char.toUInt8

def slashSeparator : Bytes := ascii "/"

def globalDirSuffix : Bytes := ascii "__XLDIR__"

def trimSuffix (s suffix : Bytes) : Bytes :=
  if suffix.isSuffixOf s then s.take (s.length - suffix.length) else s

def encodeDirObject (object : Bytes) : Bytes :=
  if slashSeparator.isSuffixOf object then trimSuffix object slashSeparator ++ globalDirSuffix
  else object

def decodeDirObject (object : Bytes) : Bytes :=
  if globalDirSuffix.isSuffixOf object then trimSuffix object globalDirSuffix ++ slashSeparator
  else object

/-- The errors of the object layer for one bucket; `other` stands for those of a pool that the layer
above passes on. -/
inductive ObjectError where
  | objectNotFound (object : Bytes)
  | versionNotFound (object versionID : Bytes)
  | invalidUploadID (object uploadID : Bytes)
  | objectNameInvalid (object : Bytes)
  | objectNameTooLong (object : Bytes)
  | objectNamePrefixAsSlash (object : Bytes)
  | storageFull
  | other (err : Error)
deriving DecidableEq, Repr

/-- The functions of the standard library that read a string as UTF-8. -/
structure Unicode where
  trimSpace : Bytes → Bytes
  validString : Bytes → Bool

variable (lib : Unicode)

def hasBadPathComponent (path : Bytes) : Bool :=
  ((lib.trimSpace path).splitOn 47).any fun p =>
    lib.trimSpace p == ascii ".." || lib.trimSpace p == ascii "."

def isValidObjectPrefix (object : Bytes) : Bool :=
  if hasBadPathComponent lib object then false
  else if !lib.validString object then false
  else if ascii "//" <:+: object then false
  else true

def isValidObjectName (object : Bytes) : Bool :=
  if object.length = 0 then false
  else if slashSeparator.isSuffixOf object then false
  else isValidObjectPrefix lib object

def checkObjectNameForLengthAndSlash (object : Bytes) : Option ObjectError :=
  if object.length > 1024 then some (.objectNameTooLong object)
  else if slashSeparator.isPrefixOf object then some (.objectNamePrefixAsSlash object)
  else none

/-- `checkBucketAndObjectNames` for a valid bucket, so also `checkGetObjArgs` and
`checkDelObjArgs`. -/
def checkBucketAndObjectNames (object : Bytes) : Option ObjectError :=
  if object.length = 0 then some (.objectNameInvalid object)
  else if !isValidObjectPrefix lib object then some (.objectNameInvalid object)
  else none

/-- `checkPutObjectArgs` for a bucket that exists. -/
def checkPutObjectArgs (object : Bytes) : Option ObjectError :=
  match checkObjectNameForLengthAndSlash object with
  | some err => some err
  | none =>
    if object.length = 0 ∨ !isValidObjectPrefix lib object then some (.objectNameInvalid object)
    else none

/-- `checkObjectArgs` for a bucket that exists, so also `checkNewMultipartArgs` and
`checkCompleteMultipartArgs`. -/
def checkObjectArgs (object : Bytes) : Option ObjectError :=
  match checkObjectNameForLengthAndSlash object with
  | some err => some err
  | none => if !isValidObjectName lib object then some (.objectNameInvalid object) else none

variable {lib}

theorem not_slash_of_checkObjectArgs {object : Bytes} (h : checkObjectArgs lib object = none) :
    slashSeparator.isSuffixOf object = false := by
  unfold checkObjectArgs at h
  split at h
  · cases h
  · by_contra hslash
    have hinvalid : isValidObjectName lib object = false := by
      unfold isValidObjectName
      split
      · rfl
      · rw [if_pos (Bool.of_not_eq_false hslash)]
    rw [hinvalid] at h
    cases h

theorem encodeDirObject_of_checkObjectArgs {object : Bytes} (h : checkObjectArgs lib object = none) :
    encodeDirObject object = object := by
  unfold encodeDirObject
  rw [not_slash_of_checkObjectArgs h, if_neg Bool.false_ne_true]

end Otterio
