import Otterio.Storage.Quorum

/-!
# The quorums of an object

`objectQuorumFromMeta` takes both quorums of an object from its latest entry
(`cmd/erasure-metadata.go`); `objectMetadataWriteQuorum` takes the write quorum of a metadata update
from the entry alone (`cmd/erasure-object.go`).

The first one compares the stored data blocks with the parity that the server configuration gives
the object's storage class *now* (`cmd/config/storageclass`), the second one with the stored parity.
So the two intersect for some configurations only.
-/

namespace Otterio

/-! ## Storage classes -/

structure StorageClass where
  parity : Int := 0

/-- `storageclass.Config`, without the `DMA` mode. -/
structure StorageClassConfig where
  standard : StorageClass := {}
  rrs : StorageClass := {}

def storageClassRRS : String := "REDUCED_REDUNDANCY"

def minParityDisks : Int := 2

def defaultRRSParity : Int := minParityDisks

def validateParity (ssParity rrsParity setDriveCount : Int) : Except String Unit :=
  let half := setDriveCount.tdiv 2
  if ssParity > 0 && ssParity < minParityDisks then
    .error s!"Standard storage class parity {ssParity} should be greater than or equal to {minParityDisks}"
  else if rrsParity > 0 && rrsParity < minParityDisks then
    .error s!"Reduced redundancy storage class parity {rrsParity} should be greater than or equal to {minParityDisks}"
  else if ssParity > half then
    .error s!"Standard storage class parity {ssParity} should be less than or equal to {half}"
  else if rrsParity > half then
    .error s!"Reduced redundancy storage class parity {rrsParity} should be less than  or equal to {half}"
  else if ssParity > 0 && rrsParity > 0 && ssParity < rrsParity then
    .error s!"Standard storage class parity disks {ssParity} should be greater than or equal to Reduced redundancy storage class parity disks {rrsParity}"
  else .ok ()

def StorageClassConfig.getParityForSC (sCfg : StorageClassConfig) (sc : String) : Int :=
  if trimSpace sc == storageClassRRS then
    if sCfg.rrs.parity == 0 then defaultRRSParity else sCfg.rrs.parity
  else sCfg.standard.parity

def amzStorageClass : String := "x-amz-storage-class"

/-! ## Quorums -/

def getDefaultParityBlocks (drive : Int) : Int :=
  if drive = 3 ∨ drive = 2 then 1
  else if drive = 4 ∨ drive = 5 then 2
  else if drive = 6 ∨ drive = 7 then 3
  else 4

def getWriteQuorum (drive : Int) : Int :=
  let parity := getDefaultParityBlocks drive
  let quorum := drive - parity
  if quorum = parity then quorum + 1 else quorum

/-- The parity `objectQuorumFromMeta` compares the data blocks with. -/
def configuredParity (sCfg : StorageClassConfig) (defaultParityCount : Int) (fi : FileInfo) : Int :=
  let parityBlocks := sCfg.getParityForSC (fi.metadata.getStr amzStorageClass)
  if parityBlocks ≤ 0 then defaultParityCount else parityBlocks

/-- `objectQuorumFromMeta`: the read and the write quorum. -/
def objectQuorumFromMeta (o : VoteOrder) (oe : IterOrder (Option Error × Nat))
    (sCfg : StorageClassConfig) (partsMetaData : List FileInfo) (errs : List (Option Error))
    (defaultParityCount : Int) : Except Error (Int × Int) :=
  match getLatestFileInfo o oe partsMetaData errs with
  | .error err => .error err
  | .ok latestFileInfo =>
    let dataBlocks := latestFileInfo.erasure.dataBlocks
    let parityBlocks := configuredParity sCfg defaultParityCount latestFileInfo
    let writeQuorum := if dataBlocks = parityBlocks then dataBlocks + 1 else dataBlocks
    .ok (dataBlocks, writeQuorum)

def objectMetadataWriteQuorum (fi : FileInfo) (diskCount : Int) : Int :=
  let writeQuorum := fi.erasure.dataBlocks
  let writeQuorum := if writeQuorum = fi.erasure.parityBlocks then writeQuorum + 1 else writeQuorum
  if writeQuorum ≤ 0 then getWriteQuorum diskCount else writeQuorum

section

variable {o : VoteOrder} {oe : IterOrder (Option Error × Nat)} {sCfg : StorageClassConfig}
  {partsMetaData : List FileInfo} {errs : List (Option Error)} {defaultParityCount : Int}
  {latest : FileInfo}

theorem objectQuorumFromMeta_of_latest (h : getLatestFileInfo o oe partsMetaData errs = .ok latest) :
    objectQuorumFromMeta o oe sCfg partsMetaData errs defaultParityCount = .ok (latest.erasure.dataBlocks,
        if latest.erasure.dataBlocks = configuredParity sCfg defaultParityCount latest then
          latest.erasure.dataBlocks + 1
        else latest.erasure.dataBlocks) := by
  simp only [objectQuorumFromMeta, h]

/-- A positive layout never falls back to the quorum of the number of drives. -/
theorem objectMetadataWriteQuorum_of_pos {fi : FileInfo} (h : 1 ≤ fi.erasure.dataBlocks)
    (diskCount : Int) : objectMetadataWriteQuorum fi diskCount =
      if fi.erasure.dataBlocks = fi.erasure.parityBlocks then fi.erasure.dataBlocks + 1
      else fi.erasure.dataBlocks := by
  unfold objectMetadataWriteQuorum
  simp only
  split <;> rw [if_neg (by omega)]

/-- The write quorum from the stored parity meets every read quorum. -/
theorem dataBlocks_add_objectMetadataWriteQuorum {fi : FileInfo} (hp : 1 ≤ fi.erasure.parityBlocks)
    (hdp : fi.erasure.parityBlocks ≤ fi.erasure.dataBlocks) (diskCount : Int) :
    fi.erasure.dataBlocks + fi.erasure.parityBlocks <
      fi.erasure.dataBlocks + objectMetadataWriteQuorum fi diskCount := by
  rw [objectMetadataWriteQuorum_of_pos (by omega)]
  split <;> omega

/-- **Read and write quorums intersect** on the `N = d + p` drives of a valid layout, and the two
ways of computing the write quorum agree, exactly when the configured parity equals the data blocks
if and only if the stored parity does. -/
theorem readQuorum_meets_writeQuorum_iff {readQuorum writeQuorum : Int}
    (hlatest : getLatestFileInfo o oe partsMetaData errs = .ok latest)
    (hquorum : objectQuorumFromMeta o oe sCfg partsMetaData errs defaultParityCount = .ok (readQuorum, writeQuorum))
    (hp : 1 ≤ latest.erasure.parityBlocks)
    (hdp : latest.erasure.parityBlocks ≤ latest.erasure.dataBlocks) (diskCount : Int) :
    (readQuorum + writeQuorum > latest.erasure.dataBlocks + latest.erasure.parityBlocks ∧
      writeQuorum = objectMetadataWriteQuorum latest diskCount) ↔
    (latest.erasure.dataBlocks = configuredParity sCfg defaultParityCount latest ↔
      latest.erasure.dataBlocks = latest.erasure.parityBlocks) := by
  rw [objectQuorumFromMeta_of_latest hlatest, Except.ok.injEq, Prod.mk.injEq] at hquorum
  obtain ⟨rfl, rfl⟩ := hquorum
  have hmeets := dataBlocks_add_objectMetadataWriteQuorum hp hdp diskCount
  rw [objectMetadataWriteQuorum_of_pos (by omega)] at hmeets ⊢
  constructor
  · rintro ⟨-, heq⟩
    split at heq <;> split at heq <;> omega
  · intro hiff
    simp only [hiff]
    exact ⟨by omega, trivial⟩

end

/-- An object on six drives, three for data and three for parity. -/
def halfParityObject : FileInfo :=
  { volume := "bucket", name := "object", dataDir := "dir", modTime := 1, size := 1, erasure :=
      { algorithm := "ReedSolomon", dataBlocks := 3, parityBlocks := 3, blockSize := 1, index := 1,
        distribution := [1, 2, 3, 4, 5, 6] } }

private theorem latest_halfParityObject (o : VoteOrder) (oe : IterOrder (Option Error × Nat)) :
    getLatestFileInfo o oe (List.replicate 6 halfParityObject) (List.replicate 6 none) = .ok halfParityObject :=
  getLatestFileInfo_replicate o oe (by decide) (by decide) (by decide) (by decide)

/-- After the server's standard parity was set to 2, which `validateParity` accepts, the object that
was written with parity 3 gets disjoint quorums of three drives each. -/
theorem readQuorum_misses_writeQuorum :
    validateParity 2 2 6 = .ok () ∧ objectMetadataWriteQuorum halfParityObject 6 = 4 ∧
    ∀ (o : VoteOrder) (oe : IterOrder (Option Error × Nat)),
      getLatestFileInfo o oe (List.replicate 6 halfParityObject) (List.replicate 6 none) = .ok halfParityObject ∧
      objectQuorumFromMeta o oe { standard := ⟨2⟩, rrs := ⟨2⟩ } (List.replicate 6 halfParityObject)
        (List.replicate 6 none) 3 = .ok (3, 3) := by
  refine ⟨rfl, by decide, fun o oe => ⟨latest_halfParityObject o oe, ?_⟩⟩
  rw [objectQuorumFromMeta_of_latest (latest_halfParityObject o oe)]
  rfl

/-- Under the configuration it was written with, the same object has quorums that intersect. -/
theorem readQuorum_meets_writeQuorum_half :
    (3 : Int) + 4 > 3 + 3 ∧ (4 : Int) = objectMetadataWriteQuorum halfParityObject 6 := by
  have hlatest := latest_halfParityObject ⟨.asListed, .reversed⟩ .asListed
  have hquorum : objectQuorumFromMeta ⟨.asListed, .reversed⟩ .asListed {}
      (List.replicate 6 halfParityObject) (List.replicate 6 none) 3 = .ok (3, 4) := by
    rfl
  exact (readQuorum_meets_writeQuorum_iff hlatest hquorum (by decide) (by decide) 6).mpr (by decide)

end Otterio
