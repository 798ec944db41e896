import Otterio.Storage.ObjectQuorum
import Otterio.Storage.Snapshot

/-!
# Completing a multipart upload

The parts of `CompleteMultipartUpload` of `cmd/erasure-multipart.go` between its storage calls, and the storage
calls on one drive (`cmd/xl-storage.go`).

* `Drive`: what a drive holds of the upload and of the object. `renameData` moves the data directory of the
  upload to the object and commits the metadata; it fails if the directory is gone.
* `checkUploadIDExists`, `electMetadata`: what the code makes of the metadata that it read from all drives.
  The metadata that it goes on with was read from a drive, and the drives that have the same time and data
  directory are online (`electMetadata_spec`).
* `plan`: the validation of the part list, and the metadata that is written then. The entries of the parts
  carry no ETag any more (`plan_spec`).

The drives are numbered by their place in the distribution of the erasure code.
-/

namespace Otterio.Multipart

open Err List Except

/-! ## Requests and drives -/

def errErasureWriteQuorum : Error := .other 37

def errUploadIDNotFound : Error := .other 38

def errFileParentIsFile : Error := storageErr "parent is a file"

def reduceWriteQuorumErrs (o : IterOrder (Option Error × Nat)) (errs : List (Option Error))
    (ignoredErrs : List Error) (writeQuorum : Int) : Option Error :=
  reduceQuorumErrs o errs ignoredErrs writeQuorum errErasureWriteQuorum

structure CompletePart where
  partNumber : Int
  etag : String
deriving DecidableEq, Repr

/-- The configuration and the library functions: `canonicalizeETag` is a regular expression,
`hexDecode` is `hex.DecodeString` and `md5Hex` is `getMD5Hash`. -/
structure Env where
  platform : Platform
  sCfg : StorageClassConfig
  defaultParityCount : Int
  canonicalizeETag : String → String
  hexDecode : String → Option Bytes
  md5Hex : Bytes → String

/-- A call: the part list, the options, what `ParentIsObject` answers, the clock, and the orders in which the
call ranges over maps. -/
structure Request where
  parts : List CompletePart
  mTime : Time
  userETag : String
  requireNewObject : Bool
  parentIsObject : Bool
  now : Time
  voteOrder : VoteOrder
  errOrder : IterOrder (Option Error × Nat)
  hashOrder : IterOrder (String × Nat)

def Request.numbers (req : Request) : List Int := req.parts.map CompletePart.partNumber

/-- `xl.meta` and the part files in the data directory of the upload; the version that the upload creates and
the data directories of the object. -/
structure Drive where
  upload : Option FileInfo
  uploadParts : Option (List Int)
  object : Option FileInfo
  objectParts : String → Option (List Int)

namespace Drive

def readVersion (drive : Drive) : Except Error FileInfo :=
  match drive.upload with
  | some fi => .ok fi
  | none => .error errFileNotFound

/-- `WriteMetadata` of the upload, which has one version. -/
def writeMetadata (fi : FileInfo) (drive : Drive) : Drive := { drive with upload := some fi }

/-- `Delete` of a part file of the upload. -/
def deletePart (number : Int) (drive : Drive) : Drive :=
  { drive with uploadParts := drive.uploadParts.map fun files => files.filter (· ≠ number) }

def trash (dataDir : String) (drive : Drive) : Drive :=
  { drive with objectParts := Function.update drive.objectParts dataDir none }

def trashReplaced (fi : FileInfo) (drive : Drive) : Drive :=
  match drive.object with
  | some old => if fi.versionID = "" ∧ old.deleted = false then drive.trash old.dataDir else drive
  | none => drive

/-- `RenameData` from the upload to the object. The metadata is written to the upload first and renamed
last. -/
def renameData (fi : FileInfo) (drive : Drive) : Drive × Option Error :=
  let drive := ({ drive with upload := some fi } : Drive).trashReplaced fi
  if fi.data = [] ∧ 0 < fi.size then
    let drive := drive.trash fi.dataDir
    match drive.uploadParts with
    | none => (drive, some errFileNotFound)
    | some files =>
      ({ upload := none, uploadParts := none, object := some fi,
         objectParts := Function.update drive.objectParts fi.dataDir (some files) }, none)
  else ({ drive with upload := none, object := some fi }, none)

end Drive

/-! ## The metadata of the upload -/

section Metadata

variable {n : Nat}

/-- What the drives answered: the metadata, or the zero value. -/
def metaArr (reads : Fin n → Except Error FileInfo) : List FileInfo :=
  ofFn fun d => (reads d).toOption.getD {}

def errArr (reads : Fin n → Except Error FileInfo) : List (Option Error) :=
  ofFn fun d => match reads d with
    | .ok _ => none
    | .error e => some e

variable (env : Env) (req : Request)

def checkUploadIDExists (reads : Fin n → Except Error FileInfo) : Option Error :=
  let notFound (e : Error) : Error := if e = errFileNotFound then errUploadIDNotFound else e
  match objectQuorumFromMeta req.voteOrder req.errOrder env.sCfg (metaArr reads) (errArr reads)
      env.defaultParityCount with
  | .error e => some (notFound e)
  | .ok (readQuorum, _) =>
    match reduceReadQuorumErrs req.errOrder (errArr reads) objectOpIgnoredErrs readQuorum with
    | some e => some (notFound e)
    | none =>
      let (modTime, dataDir) := commonTime req.voteOrder (listObjectModtimes (metaArr reads) (errArr reads))
        (listDataDirs (metaArr reads) (errArr reads))
      match findFileInfoInQuorum env.platform req.hashOrder ((metaArr reads).map (⟨·, req.now⟩)) modTime
          dataDir readQuorum.toNat with
      | .error e => some (notFound e)
      | .ok _ => none

/-- The metadata that the call goes on with, the drives that have it, and the write quorum. -/
structure Elected (n : Nat) where
  fi : FileInfo
  online : Fin n → Bool
  writeQuorum : Int

/-- From `objectQuorumFromMeta` to `pickValidFileInfo`. The errors of the reads matter only if they miss the
write quorum. -/
def electMetadata (reads : Fin n → Except Error FileInfo) : Except Error (Elected n) :=
  match objectQuorumFromMeta req.voteOrder req.errOrder env.sCfg (metaArr reads) (errArr reads)
      env.defaultParityCount with
  | .error e => .error e
  | .ok (_, writeQuorum) =>
    if reduceWriteQuorumErrs req.errOrder (errArr reads) objectOpIgnoredErrs writeQuorum =
        some errErasureWriteQuorum then .error errErasureWriteQuorum
    else
      let (onlineDisks, modTime, dataDir) :=
        listOnlineDisks req.voteOrder (ofFn (some : Fin n → Option (Fin n))) (metaArr reads) (errArr reads)
      match findFileInfoInQuorum env.platform req.hashOrder ((metaArr reads).map (⟨·, req.now⟩)) modTime
          dataDir writeQuorum.toNat with
      | .error e => .error e
      | .ok e => .ok ⟨e.fi, fun d => (onlineDisks.getD d none).isSome, writeQuorum⟩

/-! ## The part list -/

inductive CompleteError where
  | storage (e : Error)
  | invalidPart (partNumber : Int) (expETag gotETag : String)
  | partTooSmall (partSize partNumber : Int) (partETag : String)
deriving DecidableEq

def globalMinPartSize : Int := 5 * 1024 * 1024

def objectPart (parts : List ObjectPartInfo) (number : Int) : Option ObjectPartInfo :=
  parts.find? fun part => number == part.number

/-- The loop that validates the parts and builds `fi.Parts`. -/
def completeParts (current : List ObjectPartInfo) : List CompletePart → Except CompleteError (List ObjectPartInfo)
  | [] => .ok []
  | part :: rest =>
    match objectPart current part.partNumber with
    | none => .error (.invalidPart part.partNumber "" part.etag)
    | some cur =>
      let etag := env.canonicalizeETag part.etag
      if cur.etag ≠ etag then .error (.invalidPart part.partNumber cur.etag etag)
      -- Only the last part may be small.
      else if rest ≠ [] ∧ ¬ cur.actualSize ≥ globalMinPartSize then
        .error (.partTooSmall cur.actualSize part.partNumber etag)
      else
        match completeParts current rest with
        | .error e => .error e
        | .ok parts =>
          .ok (⟨"", part.partNumber, cur.size, cur.actualSize⟩ :: parts)

def getCompleteMultipartMD5 (parts : List CompletePart) : String :=
  let bytes := parts.flatMap fun part =>
    match env.hexDecode (env.canonicalizeETag part.etag) with
    | none => part.etag.toUTF8.toList
    | some md5Bytes => md5Bytes
  env.md5Hex bytes ++ "-" ++ toString parts.length

/-- The ETag of a call: the one of its part list, unless the options set one. -/
def completedETag : String :=
  if req.userETag ≠ "" then req.userETag else getCompleteMultipartMD5 env req.parts

/-- `ReservedMetadataPrefix + "actual-size"`. -/
def actualSizeKey : String := "X-Otterio-Internal-actual-size"

/-- What a call has worked out before it writes. -/
structure Plan (n : Nat) where
  current : FileInfo
  fi : FileInfo
  online : Fin n → Bool
  /-- `partsMetadata`, drive by drive. -/
  files : Fin n → FileInfo
  writeQuorum : Int

/-- The update of `fi` with the validated parts. -/
def completedInfo (current : FileInfo) (parts : List ObjectPartInfo) : FileInfo :=
  { current with
    parts
    size := (parts.map ObjectPartInfo.size).sum
    modTime := if req.mTime = Time.zero then req.now else req.mTime
    metadata := some ((current.metadata.orMake.insert "etag" (completedETag env req)).insert actualSizeKey
      (toString (parts.map ObjectPartInfo.actualSize).sum)) }

def rewrite (fi : FileInfo) (file : FileInfo) : FileInfo :=
  if file.isValid then
    { file with size := fi.size, modTime := fi.modTime, metadata := fi.metadata, parts := fi.parts }
  else file

/-- From the metadata of the drives to what is written. -/
def plan (reads : Fin n → Except Error FileInfo) : Except CompleteError (Plan n) :=
  match electMetadata env req reads with
  | .error e => .error (.storage e)
  | .ok elected =>
    match completeParts env elected.fi.parts req.parts with
    | .error e => .error e
    | .ok parts =>
      let fi := completedInfo env req elected.fi parts
      .ok
        { current := elected.fi
          fi
          online := elected.online
          files := fun d => rewrite fi ((reads d).toOption.getD {})
          writeQuorum := elected.writeQuorum }

def Plan.unlisted (p : Plan n) : List ObjectPartInfo :=
  p.current.parts.filter fun part => (objectPart p.fi.parts part.number).isNone

/-- `writeUniqueFileInfo` at one drive. -/
def Plan.writeAt (p : Plan n) (d : Fin n) (drive : Drive) : Drive × Option Error :=
  if p.online d then
    if (p.files d).isValid then (drive.writeMetadata (p.files d), none) else (drive, some errCorruptedFormat)
  else (drive, some errDiskNotFound)

def Plan.renameAt (p : Plan n) (d : Fin n) (drive : Drive) : Drive × Option Error :=
  if p.online d then
    if (p.files d).isValid then drive.renameData (p.files d) else (drive, some errFileCorrupt)
  else (drive, some errDiskNotFound)

def Plan.evalDisks (p : Plan n) (errs : Fin n → Option Error) : Plan n :=
  { p with online := fun d => p.online d && (errs d).isNone }

/-- What the call returns after the renames: the metadata of the first drive that is online. -/
def Plan.result (p : Plan n) (errs : Fin n → Option Error) : Except CompleteError FileInfo :=
  match reduceWriteQuorumErrs req.errOrder (ofFn errs) objectOpIgnoredErrs p.writeQuorum with
  | some e => .error (.storage e)
  | none =>
    match (finRange n).find? (p.evalDisks errs).online with
    | some d => .ok (p.files d)
    | none => .ok p.fi

end Metadata

/-! ## What is elected and planned -/

section Spec

variable {n : Nat} {env : Env} {req : Request}

theorem exists_none_of_reduceWriteQuorumErrs {o : IterOrder (Option Error × Nat)}
    {errs : List (Option Error)} {ignored : List Error} {quorum : Int} (hq : 1 ≤ quorum)
    (h : reduceWriteQuorumErrs o errs ignored quorum = none) : none ∈ errs := by
  unfold reduceWriteQuorumErrs reduceQuorumErrs at h
  dsimp only at h
  split_ifs at h with hcount
  unfold reduceErrs at h hcount
  rcases @electBy_mem _ _ (fun err _ => err.isNone) id
    (o.order (tally (errs.filter fun err => !isErrIgnored err ignored))) (0, none) with hinit | ⟨e, he, heq⟩
  · rw [hinit] at hcount
    omega
  · rw [heq] at h
    have hnone : e.1 = none := h
    rw [IterOrder.mem_order, mem_tally, hnone] at he
    exact (mem_filter.mp he.1).1

/-- An entry that is found is one of those that were read, and matches the elected time and directory. -/
theorem findFileInfoInQuorum_mem {pl : Platform} {o : IterOrder (String × Nat)} {metas : List Examined}
    {modTime : Time} {dataDir : String} {quorum : Nat} (hq : 1 ≤ quorum) {e : Examined}
    (h : findFileInfoInQuorum pl o metas modTime dataDir quorum = .ok e) :
    e ∈ metas ∧ eligible modTime dataDir e = true := by
  unfold findFileInfoInQuorum at h
  dsimp only at h
  rcases @electBy_mem _ _ (fun _ _ => false) id
    (o.order (tally ((metas.map (metaHash pl modTime dataDir)).filter (· != "")))) (0, "") with
    hinit | ⟨x, hx, heq⟩
  · rw [hinit, if_pos (show 0 < quorum from hq)] at h
    cases h
  · rw [heq] at h
    rw [IterOrder.mem_order, mem_tally] at hx
    have hne : x.1 ≠ "" := by simpa using (mem_filter.mp hx.1).2
    split_ifs at h
    split at h
    · next e' hfind =>
      obtain rfl : e' = e := ok.inj h
      have hhash : metaHash pl modTime dataDir e' = x.1 := by simpa using find?_some hfind
      refine ⟨mem_of_find?_eq_some hfind, ?_⟩
      by_contra hnot
      rw [metaHash, if_neg hnot] at hhash
      exact hne hhash.symm
    · cases h

theorem length_metaArr (reads : Fin n → Except Error FileInfo) : (metaArr reads).length = n := length_ofFn

theorem not_isValid_zero : ¬ ({} : FileInfo).isValid = true := by decide

variable {reads : Fin n → Except Error FileInfo}

theorem exists_read_of_mem {fi : FileInfo} (hfi : fi ∈ metaArr reads) (hvalid : fi.isValid = true) :
    ∃ d, reads d = .ok fi := by
  obtain ⟨d, rfl⟩ := mem_ofFn.mp hfi
  refine ⟨d, ?_⟩
  cases hread : reads d with
  | ok m => rfl
  | error e =>
    rw [hread] at hvalid
    exact absurd hvalid not_isValid_zero

theorem one_le_writeQuorum (hn : 2 ≤ n) (hdeleted : ∀ d m, reads d = .ok m → m.deleted = false) {q : Int × Int}
    (h : objectQuorumFromMeta req.voteOrder req.errOrder env.sCfg (metaArr reads) (errArr reads)
      env.defaultParityCount = .ok q) :
    1 ≤ q.2 := by
  have hlatest : ∃ latest, getLatestFileInfo req.voteOrder req.errOrder (metaArr reads) (errArr reads) =
      .ok latest := by
    cases hlatest : getLatestFileInfo req.voteOrder req.errOrder (metaArr reads) (errArr reads) with
    | ok latest => exact ⟨latest, rfl⟩
    | error e =>
      rw [objectQuorumFromMeta, hlatest] at h
      cases h
  obtain ⟨latest, hlatest⟩ := hlatest
  rw [objectQuorumFromMeta_of_latest hlatest] at h
  have hdata : 1 ≤ latest.erasure.dataBlocks := by
    unfold getLatestFileInfo at hlatest
    split at hlatest
    · cases hlatest
    · dsimp only at hlatest
      split_ifs at hlatest with hfew
      rw [length_metaArr, latestMatch_fst] at hfew
      have hpos := Nat.lt_of_lt_of_le (show 0 < n / 2 by omega) (not_lt.mp hfew)
      obtain ⟨t, hmem, hmatch⟩ := latestMatch_snd _ hpos
      rw [ok.inj hlatest] at hmem hmatch
      have hvalid : latest.isValid = true := by
        unfold matchesElected at hmatch
        simp only [Bool.and_eq_true] at hmatch
        exact hmatch.1.1
      obtain ⟨d, hread⟩ := exists_read_of_mem (of_mem_zip hmem).1 hvalid
      have hlayout := FileInfo.isValid_layout hvalid (hdeleted d latest hread)
      omega
  rw [← ok.inj h]
  split_ifs <;> omega

theorem online_iff {o : VoteOrder} {d : Fin n} :
    let online := listOnlineDisks o (ofFn (some : Fin n → Option (Fin n))) (metaArr reads) (errArr reads)
    (online.1.getD d none).isSome = true ↔
      ∃ m, reads d = .ok m ∧ m.isValid = true ∧ m.modTime = online.2.1 ∧ m.dataDir = online.2.2 := by
  unfold listOnlineDisks
  dsimp only
  generalize (commonTime o (listObjectModtimes (metaArr reads) (errArr reads))
    (listDataDirs (metaArr reads) (errArr reads))) = elected
  obtain ⟨modTime, dataDir⟩ := elected
  have hget : (zipWith (fun (e : FileInfo × Time) disk =>
      if matchesElected modTime dataDir e.1 e.2 then disk else none)
      ((metaArr reads).zip (listObjectModtimes (metaArr reads) (errArr reads)))
      (ofFn (some : Fin n → Option (Fin n)))).getD d none =
      if matchesElected modTime dataDir ((reads d).toOption.getD {})
        (match reads d with | .ok m => m.modTime | .error _ => timeSentinel) then some d else none := by
    cases hread : reads d <;> simp [listObjectModtimes, metaArr, errArr, hread, Except.toOption] <;> rfl
  rw [hget]
  cases hread : reads d with
  | ok m =>
    show (if matchesElected modTime dataDir m m.modTime = true then some d else none).isSome = true ↔ _
    have hmatch : matchesElected modTime dataDir m m.modTime = true ↔
        m.isValid = true ∧ m.modTime = modTime ∧ m.dataDir = dataDir := by
      unfold matchesElected
      simp [and_assoc]
    by_cases h : matchesElected modTime dataDir m m.modTime = true
    · rw [if_pos h]
      exact ⟨fun _ => ⟨m, rfl, hmatch.mp h⟩, fun _ => rfl⟩
    · rw [if_neg h]
      refine ⟨fun hnone => absurd hnone Bool.false_ne_true, ?_⟩
      rintro ⟨m', hm', hall⟩
      obtain rfl := ok.inj hm'
      exact absurd (hmatch.mpr hall) h
  | error e =>
    refine ⟨fun hnone => absurd hnone Bool.false_ne_true, ?_⟩
    rintro ⟨m, hm, -⟩
    cases hm

/-- The metadata that is elected is valid and was read from a drive, and every drive with valid metadata of the
same time and directory is online. -/
theorem electMetadata_spec (hn : 2 ≤ n) (hdeleted : ∀ d m, reads d = .ok m → m.deleted = false)
    {elected : Elected n} (h : electMetadata env req reads = .ok elected) :
    (∃ d, reads d = .ok elected.fi) ∧ elected.fi.isValid = true ∧ 1 ≤ elected.writeQuorum ∧
      (∀ d m, reads d = .ok m → m.isValid = true → m.modTime = elected.fi.modTime →
        m.dataDir = elected.fi.dataDir → elected.online d = true) ∧
      ∀ d, elected.online d = true → ∃ m, reads d = .ok m ∧ m.isValid = true := by
  unfold electMetadata at h
  split at h
  · cases h
  · next readQuorum writeQuorum hquorum =>
    have hwq : 1 ≤ writeQuorum := one_le_writeQuorum hn hdeleted hquorum
    split_ifs at h
    dsimp only at h
    split at h
    · cases h
    · next e hfind =>
      obtain ⟨hmem, heligible⟩ := findFileInfoInQuorum_mem (by omega) hfind
      obtain ⟨fi, hfi, rfl⟩ := mem_map.mp hmem
      unfold eligible at heligible
      simp only [Bool.and_eq_true, beq_iff_eq] at heligible
      obtain ⟨⟨hvalid, htime⟩, hdir⟩ := heligible
      obtain rfl := ok.inj h
      refine ⟨exists_read_of_mem hfi hvalid, hvalid, hwq, fun d m hread hv ht hd => ?_, fun d hon => ?_⟩
      · exact online_iff.mpr ⟨m, hread, hv, ht.trans htime, hd.trans hdir⟩
      · obtain ⟨m, hread, hv, -⟩ := online_iff.mp hon
        exact ⟨m, hread, hv⟩

def listedParts (parts : List ObjectPartInfo) (list : List CompletePart) : List ObjectPartInfo :=
  list.map fun part =>
    let cur := (objectPart parts part.partNumber).getD {}
    ⟨"", part.partNumber, cur.size, cur.actualSize⟩

theorem completeParts_eq_ok {current parts : List ObjectPartInfo} {list : List CompletePart}
    (h : completeParts env current list = .ok parts) :
    parts = listedParts current list ∧ ∀ part ∈ list, ∃ cur ∈ current, cur.number = part.partNumber ∧
        cur.etag = env.canonicalizeETag part.etag := by
  induction list generalizing parts with
  | nil =>
    obtain rfl := ok.inj h
    exact ⟨rfl, fun _ hpart => absurd hpart not_mem_nil⟩
  | cons part rest ih =>
    unfold completeParts at h
    split at h
    · cases h
    · next cur hcur =>
      dsimp only at h
      split_ifs at h with hetag
      split at h
      · cases h
      · next parts' hrest =>
        obtain rfl := ok.inj h
        obtain ⟨hparts, hall⟩ := ih hrest
        constructor
        · rw [hparts, listedParts, listedParts, map_cons, hcur]
          rfl
        · rintro q (_ | ⟨_, hq⟩)
          · have hnumber : part.partNumber = cur.number := by simpa using find?_some hcur
            exact ⟨cur, mem_of_find?_eq_some hcur, hnumber.symm, not_not.mp hetag⟩
          · exact hall q hq

def listedSize (parts : List ObjectPartInfo) (list : List CompletePart) : Int :=
  ((listedParts parts list).map ObjectPartInfo.size).sum

theorem getStr_completedInfo (current : FileInfo) (parts : List ObjectPartInfo) :
    (completedInfo env req current parts).metadata.getStr "etag" = completedETag env req := by
  have hkey : ¬ compare actualSizeKey "etag" = .eq := by decide
  have hget : (completedInfo env req current parts).metadata.get? "etag" = some (completedETag env req) := by
    show ((current.metadata.orMake.insert "etag" (completedETag env req)).insert actualSizeKey _)["etag"]? = _
    rw [Std.ExtTreeMap.getElem?_insert, if_neg hkey, Std.ExtTreeMap.getElem?_insert_self]
  rw [GoMap.getStr, hget]
  rfl

def writable (fi : FileInfo) : Bool := !(fi.size < 0 || fi.parts.length > globalMaxPartID) && fi.parts.all validPart

/-- Whether the update of a drive's metadata is valid does not depend on the drive. -/
theorem isValid_rewrite {fi m : FileInfo} (hvalid : m.isValid = true) (hdeleted : m.deleted = false) :
    (rewrite fi m).isValid = writable fi := by
  rw [rewrite, if_pos hvalid]
  unfold FileInfo.isValid validStorageFileInfoData at hvalid ⊢
  unfold writable
  have hpaths : ∀ m' : FileInfo, validStorageFileInfoPaths
      { m' with size := fi.size, modTime := fi.modTime, metadata := fi.metadata, parts := fi.parts } =
        validStorageFileInfoPaths m' := fun _ => rfl
  grind

end Spec

/-- ETags as they are, and a sum that is the text itself. -/
def plainEnv : Env where
  platform := lengthPlatform
  sCfg := {}
  defaultParityCount := 1
  canonicalizeETag := id
  hexDecode _ := none
  md5Hex bytes := String.ofList (bytes.map fun b => Char.ofNat b.toNat)

def plainCall (parts : List CompletePart) : Request where
  parts
  mTime := Time.zero
  userETag := ""
  requireNewObject := false
  parentIsObject := false
  now := 2
  voteOrder := ⟨.asListed, .asListed⟩
  errOrder := .asListed
  hashOrder := .asListed

def twoPartsMeta (index : Int) : FileInfo where
  volume := "multipart"
  name := "upload"
  dataDir := "dir"
  modTime := 1
  metadata := some ∅
  parts := [⟨"a", 1, 10, 10⟩, ⟨"b", 2, 10, 10⟩]
  erasure :=
    { algorithm := "ReedSolomon", dataBlocks := 1, parityBlocks := 1, blockSize := 1, index, distribution := [1, 2] }

end Otterio.Multipart
