import Otterio.Lib.Lex
import Otterio.Lib.SortedUnion
import Otterio.Object.Names
import Otterio.Storage.FileInfo

/-!
# Entries of a listing

A listing is a stream of entries in ascending order of their names (`cmd/metacache-entries.go`). An
entry without metadata is a directory. What the metadata of an object decodes to is a parameter of the
model (`MetaDecoder`).
-/

namespace Otterio.Listing

/-- `metaCacheEntry`; the decoded metadata it may carry is left out. -/
structure MetaCacheEntry where
  name : Bytes
  metadata : Bytes
deriving DecidableEq, Repr

def MetaCacheEntry.zero : MetaCacheEntry := ⟨[], []⟩

structure MetaDecoder where
  /-- `getFileInfo`, of the latest version. -/
  fileInfo : MetaCacheEntry → Except Error FileInfo
  /-- `getFileInfoVersions`. -/
  fileInfoVersions : MetaCacheEntry → Except Error (List FileInfo)
  /-- The latest version of an `xlMetaV2` is a delete marker, or there is none that can be read. -/
  isLatestDeletemarker : Bytes → Bool

namespace MetaCacheEntry

def isDir (e : MetaCacheEntry) : Bool := e.metadata.length = 0

def isObject (e : MetaCacheEntry) : Bool := e.metadata.length > 0

def hasPrefix (e : MetaCacheEntry) (s : Bytes) : Bool := s.isPrefixOf e.name

/-- `strings.TrimPrefix`. -/
def trimmed (name pre : Bytes) : Bytes := if pre.isPrefixOf name then name.drop pre.length else name

/-- The separator is not in the text, or at its end only. -/
def endsIn (ext separator : Bytes) : Bool :=
  match indexOf separator ext with
  | none => true
  | some idx => idx + separator.length = ext.length

def isInDir (e : MetaCacheEntry) (dir separator : Bytes) : Bool :=
  if dir.length = 0 then endsIn e.name separator
  else
    let ext := trimmed e.name dir
    if ext.length ≠ e.name.length then endsIn ext separator else false

variable (dec : MetaDecoder)

/-- `isLatestDeletemarker`. The metadata of a directory is not that of an `xlMetaV2`. -/
def isLatestDeletemarker (e : MetaCacheEntry) : Bool :=
  if e.isDir then false else dec.isLatestDeletemarker e.metadata

/-- `fileInfo`: of a directory, one with only its name. -/
def fileInfo (e : MetaCacheEntry) : Except Error FileInfo :=
  if e.isDir then .ok {} else dec.fileInfo e

@[simp] theorem isObject_eq (e : MetaCacheEntry) : e.isObject = !e.isDir := by
  unfold isObject isDir
  rw [← decide_not]
  exact decide_eq_decide.mpr Nat.pos_iff_ne_zero

end MetaCacheEntry

abbrev Ascending (l : List MetaCacheEntry) : Prop := AscendingBy MetaCacheEntry.name l

/-- A decoder that finds the modification time in the first byte. -/
def byteDecoder : MetaDecoder where
  fileInfo e := .ok { modTime := (e.metadata.headD 0).toNat }
  fileInfoVersions e := .ok [{ modTime := (e.metadata.headD 0).toNat }]
  isLatestDeletemarker _ := false

end Otterio.Listing
