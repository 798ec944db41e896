import Otterio.Lib.Deferred
import Otterio.Listing.Entry

/-!
# Walking a directory tree

`WalkDir` (`cmd/metacache-walk.go`) lists the entries of a bucket on one disk. It reads a directory, sorts
its entries by their names, and decides for each by a look at its files whether it is an object. A
directory that is none goes on a stack and is walked when the names have come past it: its entries come
after those of `name-x`, since `-` is before the slash.

* `Node` is the tree on the disk. All reads succeed, and the context is not canceled.
* `scanEntries` is the closure `scanDir` for the entries of a directory, and `Node.scan` is `scanDir`. The
  variable `prefix` is empty below the base directory, and `forward` is set before every call, so both are
  arguments here.
* `xlMetaV2TrimData` is a parameter.
-/

namespace Otterio.Listing

open Err

/-! ## Paths -/

def pathParts : Bytes → List Bytes
  | [] => []
  | c :: s =>
    if c = 47 then pathParts s
    else if s.head?.all (· == 47) then [c] :: pathParts s
    else match pathParts s with
      | [] => [[c]]
      | part :: parts => (c :: part) :: parts

/-- `path.Clean` of a path without the components `.` and `..`. -/
def pathClean (s : Bytes) : Bytes :=
  (if s.head? = some 47 then slashSeparator else []) ++ slashSeparator.intercalate (pathParts s)

def pathJoin (dir elem : Bytes) : Bytes :=
  let joined := if dir = [] then elem else if elem = [] then dir else dir ++ slashSeparator ++ elem
  pathClean joined ++ if slashSeparator.isSuffixOf elem then slashSeparator else []

/-- A part of a path is like the name of a drive. -/
def driveLike : Bytes → Bool
  | c :: 58 :: _ => (97 ≤ c && c ≤ 122) || (65 ≤ c && c ≤ 90)
  | _ => false

/-- A part of a path that `validStoragePath` accepts. -/
def validPart (part : Bytes) : Bool := part ≠ ascii "." && part ≠ ascii ".." && !driveLike part

/-- `validStoragePath`. An empty part is valid, so that only the components matter. -/
def validStoragePath (name : Bytes) : Bool :=
  name.head? ≠ some 47 && !name.contains 92 && !name.contains 0 && (pathParts name).all validPart

def globalDirSuffixWithSlash : Bytes := globalDirSuffix ++ slashSeparator

def xlStorageFormatFile : Bytes := ascii "xl.meta"

def xlStorageFormatFileV1 : Bytes := ascii "xl.json"

/-! ## The tree -/

/-- A file, or a directory with its entries in the order in which the disk lists them. -/
inductive Node where
  | file (data : Bytes)
  | dir (entries : List (Bytes × Node))

abbrev Dir := List (Bytes × Node)

inductive FileRead where
  | ok (data : Bytes)
  | notExist
  | notDir
  | isDir

def Dir.read (dir : Dir) (file : Bytes) : FileRead :=
  match dir.lookup file with
  | none => .notExist
  | some (.file data) => .ok data
  | some (.dir _) => .isDir

def Dir.readIn (dir : Dir) (child file : Bytes) : FileRead :=
  match dir.lookup child with
  | none => .notExist
  | some (.file _) => .notDir
  | some (.dir entries) => Dir.read entries file

def Dir.at (dir : Dir) : List Bytes → Option Node
  | [] => some (.dir dir)
  | [part] => dir.lookup part
  | part :: parts =>
    match dir.lookup part with
    | some (.dir entries) => Dir.at entries parts
    | _ => none

/-! ## The walk -/

/-- `WalkDirOptions`, without the bucket. -/
structure WalkDirOptions where
  baseDir : Bytes := []
  recursive : Bool := true
  reportNotFound : Bool := false
  filterPrefix : Bytes := []
  forwardTo : Bytes := []

/-- A call of `scanDir`, with the variables `prefix` and `forward`. -/
abbrev Scan := Bytes → Bytes → Bytes → List MetaCacheEntry

/-- An entry of a directory, with the scan of it. -/
structure Child where
  name : Bytes
  node : Node
  scan : Scan

/-- The entry as `ListDir` returns it. -/
def Child.entry (c : Child) : Bytes :=
  match c.node with
  | .file _ => c.name
  | .dir _ => c.name ++ slashSeparator

section Scan

variable (trimData : Bytes → Bytes) (o : WalkDirOptions)

/-- The entry is not looked at by the first loop. -/
def skipped (pre forward entry : Bytes) : Bool :=
  (pre.length > 0 && !pre.isPrefixOf entry) || (forward.length > 0 && entry < forward)

/-- What the first loop ends with: the object that the directory itself is, or the entries as they are
then, and those of directory objects. -/
inductive FirstLoop where
  | object (e : MetaCacheEntry)
  | entries (entries dirObjects : List Bytes)

/-- The entry of this round, before those of the rounds after it. -/
def FirstLoop.cons (entry : Bytes) : FirstLoop → FirstLoop
  | .object e => .object e
  | .entries es dirObjects => .entries (entry :: es) dirObjects

def FirstLoop.consDirObject (entry : Bytes) : FirstLoop → FirstLoop
  | .object e => .object e
  | .entries es dirObjects => .entries (entry :: es) (entry :: dirObjects)

/-- The name of the object whose file is in the directory. -/
def rootName (current entry file : Bytes) : Bytes :=
  pathJoin current (trimSuffix (trimSuffix entry file) slashSeparator)

def firstLoop (current pre forward : Bytes) : List Child → FirstLoop
  | [] => .entries [] []
  | c :: rest =>
    let entry := c.entry
    if skipped pre forward entry then (firstLoop current pre forward rest).cons entry
    else match c.node with
      | .dir _ =>
        if globalDirSuffixWithSlash.isSuffixOf entry then
          (firstLoop current pre forward rest).consDirObject
            (trimSuffix entry globalDirSuffixWithSlash ++ slashSeparator)
        else (firstLoop current pre forward rest).cons entry.dropLast
      | .file data =>
        if xlStorageFormatFile.isSuffixOf entry then
          .object ⟨decodeDirObject (rootName current entry xlStorageFormatFile), trimData data⟩
        else if xlStorageFormatFileV1.isSuffixOf entry then
          .object ⟨rootName current entry xlStorageFormatFileV1, data⟩
        else (firstLoop current pre forward rest).cons []

/-- The entries of a directory again. -/
def dirOf (children : List Child) : Dir := children.map fun c => (c.name, c.node)

def lastPart (path : Bytes) : Bytes := (pathParts path).getLastD []

def isDirEmpty (dir : Dir) (child : Bytes) : Bool :=
  match dir.lookup child with
  | some (.dir []) => true
  | _ => false

/-- `forward` for a directory from the stack. -/
def forwardIn (pop : Bytes) : Bytes :=
  if o.forwardTo.length > 0 && pop.isPrefixOf o.forwardTo then o.forwardTo.drop pop.length else []

def popped (children : List Child) (child pop : Bytes) : List MetaCacheEntry :=
  ⟨pop, []⟩ ::
    if o.recursive then
      ((children.find? (·.name == child)).elim [] fun c => c.scan pop [] (forwardIn o pop))
    else []

/-- The round of the second loop for an entry. All entries are directories of `current`, and so is what is
read for them. -/
def scanStep (current : Bytes) (children : List Child) (dirObjects : List Bytes) (entry : Bytes) :
    Deferred.Step UInt8 MetaCacheEntry :=
  let name := pathJoin current entry
  let isDirObj := dirObjects.contains entry
  let path := if isDirObj then name.dropLast ++ globalDirSuffixWithSlash else name
  let child := lastPart path
  match (dirOf children).readIn child xlStorageFormatFile with
  | .ok data =>
    let path := if isDirObj then trimSuffix path globalDirSuffixWithSlash ++ slashSeparator else path
    ⟨name, [⟨path, data⟩], none⟩
  | .notExist =>
    match (dirOf children).readIn child xlStorageFormatFileV1 with
    | .ok data => ⟨name, [⟨path, data⟩], none⟩
    | _ =>
      if !isDirObj && !isDirEmpty (dirOf children) child then
        ⟨name, [], some ⟨path ++ slashSeparator, popped o children child (path ++ slashSeparator)⟩⟩
      else ⟨name, [], none⟩
  | _ => ⟨name, [], none⟩

/-- `scanDir`, for the entries that `ListDir` returns. -/
def scanEntries (children : List Child) : Scan := fun current pre forward =>
  match firstLoop trimData current pre forward children with
  | .object e => [e]
  | .entries es dirObjects =>
    Deferred.run
      (((es.insertionSort (· ≤ ·)).filter (· ≠ [])).map (scanStep o current children dirObjects)) []

mutual

/-- `scanDir`. `ListDir` does not list a path that is not valid. -/
def Node.scan : Node → Scan
  | .file _ => fun _ _ _ => []
  | .dir entries => fun current pre forward =>
    if validStoragePath current then scanEntries trimData o (childrenOf entries) current pre forward
    else []

def childrenOf : List (Bytes × Node) → List Child
  | [] => []
  | e :: rest => childOf e :: childrenOf rest

def childOf : Bytes × Node → Child
  | (name, node) => ⟨name, node, node.scan⟩

end

/-- `WalkDir` of a bucket: the entries that are sent, and the error. -/
def walkDir (root : Dir) : List MetaCacheEntry × Option Error :=
  if !validStoragePath o.baseDir then ([], some errFileAccessDenied)
  else
    -- the base directory may be a directory object, or an object
    let stem := o.baseDir.dropLast
    let slash := slashSeparator.isSuffixOf o.baseDir
    let first :=
      match if slash then Dir.at root (pathParts (stem ++ globalDirSuffix) ++ [xlStorageFormatFile])
        else none with
      | some (.file data) => [⟨o.baseDir, trimData data⟩]
      | _ => []
    let isObject :=
      match if slash then Dir.at root (pathParts o.baseDir ++ [xlStorageFormatFile]) else none with
      | some (.file _) => true
      | _ => false
    if first = [] && isObject then ([], some errFileNotFound)
    else match Dir.at root (pathParts o.baseDir) with
      | some (.dir entries) =>
        (first ++ (Node.dir entries).scan trimData o o.baseDir o.filterPrefix o.forwardTo, none)
      | _ => (first, if o.reportNotFound then some errFileNotFound else none)

end Scan

end Otterio.Listing
