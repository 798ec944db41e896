import Otterio.XL.Journal

/-!
# Reading a version

`getFileInfo` finds a version in a journal, turns it into a `FileInfo` and adds its inline data
(`cmd/xl-storage-format-utils.go`, `ToFileInfo` of `cmd/xl-storage-format-v2.go` and
`cmd/xl-storage-format-v1.go`). The fields that only say how the version stands among the others
(`IsLatest`, `NumVersions`, `SuccessorModTime`) are left out.

`VersionOrder` stands for `sort.Slice`, which leaves the order of equal times open.
-/

namespace Otterio

open Err List

/-! ## One version -/

def Version.getModTime : Version → Time
  | .object o => o.modTime
  | .deleteMarker m => m.modTime
  | .legacy o => o.statModTime
  | .zero => Time.zero

/-- The keys of metadata that are not shown. -/
def hiddenMetadata (k : String) : Bool :=
  equalLower k "x-amz-meta-x-amz-unencrypted-content-length" ||
    equalLower k "x-amz-meta-x-amz-unencrypted-content-md5"

/-- One entry of `MetaSys` in `xlMetaV2Object.ToFileInfo`. -/
def addSystemMetadata (fi : FileInfo) (k v : String) : FileInfo :=
  if equalLower k transitionStatusKey then { fi with transitionStatus := v }
  else if equalLower k versionPurgeStatusKey then { fi with versionPurgeStatus := v }
  else if hasLowerPrefix k reservedMetadataPrefixLower then
    { fi with metadata := some (fi.metadata.orMake.insert k v) }
  else fi

/-- "unknown BitrotChecksumAlgo: %v". -/
def Err.errUnknownBitrotChecksumAlgo : Error := .other 5

/-- The text of a version id: "" for the null version. -/
def UuidLib.versionText (lib : UuidLib) (u : UUID) : String := if u = 0 then "" else lib.toString u

/-- The fields that do not depend on the metadata. -/
def ObjectV2.plainFileInfo (lib : UuidLib) (volume path : String) (j : ObjectV2) : FileInfo where
  volume := volume
  name := path
  size := j.size
  modTime := j.modTime
  versionID := lib.versionText j.versionID
  parts := (j.partNumbers.zip (j.partSizes.zip (j.partETags.zip j.partActualSizes))).map fun p =>
    { number := p.1, size := p.2.1, etag := p.2.2.1, actualSize := p.2.2.2 }
  metadata := some (j.metaUser.orMake.filter fun k _ => !hiddenMetadata k)
  erasure :=
    { algorithm := if j.erasureAlgorithm = .reedSolomon then "reedsolomon" else ""
      index := j.erasureIndex
      blockSize := j.erasureBlockSize
      dataBlocks := j.erasureM
      parityBlocks := j.erasureN
      distribution := j.erasureDist.map fun n => (n.toNat : Int) }
  dataDir := lib.toString j.dataDir

/-- `xlMetaV2Object.ToFileInfo`. Several keys of the system metadata that differ in case only are
visited in some order. -/
def ObjectV2.toFileInfo (lib : UuidLib) (volume path : String) (j : ObjectV2) : Except Error FileInfo :=
  if !j.validData then .error errFileCorrupt
  else if !j.partNumbers.isEmpty && j.bitrotChecksumAlgo != .highwayHash then
    .error errUnknownBitrotChecksumAlgo
  else
    .ok (j.metaSys.orMake.toList.foldl (fun fi e => addSystemMetadata fi e.1 e.2)
      (j.plainFileInfo lib volume path))

def DeleteMarker.toFileInfo (lib : UuidLib) (volume path : String) (j : DeleteMarker) : FileInfo :=
  j.metaSys.orMake.toList.foldl
    (fun fi e =>
      if equalLower e.1 "x-amz-replication-status" then
        { fi with deleteMarkerReplicationStatus := e.2 }
      else if equalLower e.1 versionPurgeStatusKey then { fi with versionPurgeStatus := e.2 }
      else fi)
    { volume := volume, name := path, modTime := j.modTime, versionID := lib.versionText j.versionID,
      deleted := true }

def ObjectV1.toFileInfo (volume path : String) (m : ObjectV1) : Except Error FileInfo :=
  if !m.valid then .error errFileCorrupt
  else .ok
    { volume := volume, name := path, modTime := m.statModTime, size := m.statSize,
      metadata := m.metadata, parts := m.parts, erasure := m.erasure, versionID := m.versionID,
      dataDir := m.dataDir, transitionStatus := m.metadata.getStr transitionStatusKey }

def Version.toFileInfo (lib : UuidLib) (volume path : String) : Version → Except Error FileInfo
  | .object o => o.toFileInfo lib volume path
  | .deleteMarker m => .ok (m.toFileInfo lib volume path)
  | .legacy o => o.toFileInfo volume path
  | .zero => .ok {}

/-! ## A version of a journal -/

/-- `sort.Slice` by the time, the latest first. -/
structure VersionOrder where
  sort : List Version → List Version
  perm : ∀ vs, (sort vs).Perm vs
  sorted : ∀ vs, (sort vs).Pairwise fun v w => w.getModTime ≤ v.getModTime

/-- The first of two versions of a sorted list. -/
def Version.NotOlder (v w : Version) : Prop := w.getModTime ≤ v.getModTime

instance : DecidableRel Version.NotOlder := fun v w => Int.decLe w.getModTime v.getModTime

instance : Std.Total Version.NotOlder := ⟨fun v w => Int.le_total w.getModTime v.getModTime⟩

instance : IsTrans Version Version.NotOlder := ⟨fun _ _ _ h₁ h₂ => Int.le_trans h₂ h₁⟩

/-- Sorting by insertion, a stand-in for `sort.Slice`. -/
def byInsertion : VersionOrder where
  sort := List.insertionSort Version.NotOlder
  perm := perm_insertionSort Version.NotOlder
  sorted := pairwise_insertionSort Version.NotOlder

/-- The version that the loop of `xlMetaV2.ToFileInfo` takes. -/
def Version.isRead (versionID : String) (uv : UUID) : Version → Bool
  | .object o => o.versionID == uv
  | .legacy o => o.versionID == versionID
  | .deleteMarker m => m.versionID == uv
  | .zero => false

/-- The loop of `xlMetaV2.ToFileInfo`: a `break` only leaves the `switch`, so that the last match
counts. -/
def lastRead (lib : UuidLib) (volume path versionID : String) (uv : UUID) (vs : List Version) :
    Option (Except Error FileInfo) :=
  vs.foldl (fun found v =>
    if v.isRead versionID uv then some (v.toFileInfo lib volume path) else found) none

def XLMeta.toFileInfo (lib : UuidLib) (ord : VersionOrder) (z : XLMeta)
    (volume path versionID : String) : Except Error FileInfo :=
  match lib.versionUUID versionID with
  | .error _ => .error errFileVersionNotFound
  | .ok uv =>
    if z.versions.any fun v => !v.valid then
      .error (if versionID = "" then errFileNotFound else errFileVersionNotFound)
    else if versionID = "" then
      match ord.sort z.versions with
      | [] => .error errFileNotFound
      | v :: _ => v.toFileInfo lib volume path
    else
      match lastRead lib volume path versionID uv (ord.sort z.versions) with
      | none => .error errFileVersionNotFound
      | some r => r

/-- `getFileInfo`, of the journal that `Load` read. -/
def getFileInfo (lib : UuidLib) (ord : VersionOrder) (z : XLMeta) (volume path versionID : String)
    (data : Bool) : Except Error FileInfo := do
  let fi ← z.toFileInfo lib ord volume path versionID
  if !data then return fi
  else
    let versionID := if fi.versionID = "" then nullVersionID else fi.versionID
    let found := (z.data.find versionID).getD []
    -- Data was once kept under the data directory.
    return { fi with data := if found.isEmpty then (z.data.find fi.dataDir).getD [] else found }

/-! ## What is read -/

def FileInfo.ids (fi : FileInfo) : String × String × Time := (fi.versionID, fi.dataDir, fi.modTime)

theorem addSystemMetadata_ids (fi : FileInfo) (k v : String) : (addSystemMetadata fi k v).ids = fi.ids := by
  unfold addSystemMetadata
  split
  · rfl
  · split
    · rfl
    · split <;> rfl

theorem ObjectV2.toFileInfo_of_valid {lib : UuidLib} {o : ObjectV2} (volume path : String)
    (h : (Version.object o).valid = true) :
    ∃ fi, o.toFileInfo lib volume path = .ok fi ∧
      fi.ids = (lib.versionText o.versionID, lib.toString o.dataDir, o.modTime) := by
  simp only [Version.valid, Bool.and_eq_true, beq_iff_eq] at h
  obtain ⟨⟨⟨-, hbitrot⟩, hdata⟩, -⟩ := h
  refine ⟨_, ?_, foldlRecOn (motive := fun fi : FileInfo => fi.ids = _) o.metaSys.orMake.toList _
    (b := o.plainFileInfo lib volume path) rfl fun fi h e _ => (addSystemMetadata_ids fi e.1 e.2).trans h⟩
  rw [ObjectV2.toFileInfo, hdata, hbitrot]
  simp

/-- A loop that keeps the last match finds the only one. -/
theorem foldl_of_unique {α β : Type} {p : α → Bool} {f : α → β} {l : List α} {a : α} (ha : a ∈ l)
    (hp : p a = true) (hunique : ∀ b ∈ l, p b = true → b = a) :
    l.foldl (fun found b => if p b then some (f b) else found) none = some (f a) := by
  obtain ⟨s, t, rfl⟩ := append_of_mem ha
  rw [foldl_append, foldl_cons, if_pos hp]
  refine foldlRecOn (motive := (· = some (f a))) t _ rfl fun found h b hb => ?_
  split_ifs with hb'
  · rw [hunique b (mem_append_right _ (mem_cons_of_mem _ hb)) hb']
  · exact h

section ToFileInfo

variable {lib : UuidLib} {ord : VersionOrder} {z : XLMeta} {v : Version} {versionID : String}

/-- A text other than "" reads the version that it names, if there is only one. -/
theorem toFileInfo_named {uv : UUID} (volume path : String) (hvalid : ∀ v ∈ z.versions, v.valid = true)
    (hv : v ∈ z.versions) (hne : versionID ≠ "") (hid : lib.versionUUID versionID = .ok uv)
    (hread : v.isRead versionID uv = true) (hunique : ∀ w ∈ z.versions, w.isRead versionID uv = true → w = v) :
    z.toFileInfo lib ord volume path versionID = v.toFileInfo lib volume path := by
  have hany : (z.versions.any fun v => !v.valid) = false := by simpa using hvalid
  have hsort := ord.perm z.versions
  unfold XLMeta.toFileInfo
  rw [hid]
  simp only [hany, Bool.false_eq_true, if_false, if_neg hne]
  rw [lastRead, foldl_of_unique (hsort.mem_iff.mpr hv) hread fun w hw => hunique w (hsort.mem_iff.mp hw)]

theorem toFileInfo_latest (volume path : String) (hvalid : ∀ v ∈ z.versions, v.valid = true)
    (hlatest : (ord.sort z.versions).head? = some v) :
    z.toFileInfo lib ord volume path "" = v.toFileInfo lib volume path := by
  have hany : (z.versions.any fun v => !v.valid) = false := by simpa using hvalid
  unfold XLMeta.toFileInfo UuidLib.versionUUID
  simp only [hany, true_or, if_true, Bool.false_eq_true, if_false]
  cases hsort : ord.sort z.versions with
  | nil => rw [hsort] at hlatest; cases hlatest
  | cons v vs =>
    rw [hsort] at hlatest
    cases hlatest
    rfl

end ToFileInfo

end Otterio
