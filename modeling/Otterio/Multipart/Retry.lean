import Otterio.Multipart.Shared

/-!
# Repeating a completion that failed

`CompleteMultipartUpload` of `cmd/erasure-multipart.go` as one call, alone on its upload, in which the lock of
the object, the precondition or the renames may fail (`completeMultipartUpload`).

A call that has validated the part list rewrites the metadata of the upload, and the entries of the parts carry
no ETag any more. So what a refused call leaves on the drives (`leftover`) does not pass the validation of a
repeated call that lists a part (`retry_lists_nothing`). Without parts, the repeated call succeeds if the vote
can elect the metadata that the first call wrote and a write quorum of drives still has it.
-/

namespace Otterio.Multipart

open Err List

variable {n : Nat}

/-! ## One call -/

/-- What fails after the validation: the lock of the object, the precondition, and `RenameData` at drives. -/
structure Faults (n : Nat) where
  lock : Option Error := none
  requireNew : Option Error := none
  rename : Fin n → Option Error := fun _ => none

section Call

variable (env : Env) (req : Request) (faults : Faults n) (drives : Fin n → Drive)

/-- `renameData` at one drive. A call that fails leaves the drive as it is. -/
def Plan.renameOr (p : Plan n) (d : Fin n) (drive : Drive) : Drive × Option Error :=
  match faults.rename d with
  | some e => (drive, some e)
  | none => p.renameAt d drive

def commit (p : Plan n) : (Fin n → Drive) × Except CompleteError FileInfo :=
  match faults.lock with
  | some e => (drives, .error (.storage e))
  | none =>
    match (if req.requireNewObject then faults.requireNew else none) with
    | some e => (drives, .error (.storage e))
    | none =>
      (fun d => (p.renameOr faults d (drives d)).1, p.result req fun d => (p.renameOr faults d (drives d)).2)

def removeParts (parts : List ObjectPartInfo) (drive : Drive) : Drive :=
  parts.foldl (fun drive part => drive.deletePart part.number) drive

def writeAndCommit (p : Plan n) : (Fin n → Drive) × Except CompleteError FileInfo :=
  let errs := fun d => (p.writeAt d (drives d)).2
  let written := fun d => (p.writeAt d (drives d)).1
  match reduceWriteQuorumErrs req.errOrder (ofFn errs) objectOpIgnoredErrs p.writeQuorum with
  | some e => (written, .error (.storage e))
  | none => commit req faults (fun d => removeParts p.unlisted (written d)) (p.evalDisks errs)

def completeMultipartUpload : (Fin n → Drive) × Except CompleteError FileInfo :=
  let reads := fun d => (drives d).readVersion
  match checkUploadIDExists env req reads with
  | some e => (drives, .error (.storage e))
  | none =>
    if req.parentIsObject then (drives, .error (.storage errFileParentIsFile))
    else
      match plan env req reads with
      | .error e => (drives, .error e)
      | .ok p => writeAndCommit req faults drives p

end Call

/-! ## The first call -/

/-- The drives of `has` have the metadata of the upload. -/
def Holds (fi : FileInfo) (has : Fin n → Bool) (drives : Fin n → Drive) : Prop :=
  ∀ d, (drives d).upload = if has d then some (onDrive fi d) else none

variable {fi : FileInfo} {has : Fin n → Bool}

theorem Holds.reads {drives : Fin n → Drive} (h : Holds fi has drives) :
    (fun d => (drives d).readVersion) = sharedReads fi has := by
  funext d
  unfold Drive.readVersion sharedReads
  rw [h d]
  cases has d <;> rfl

theorem upload_removeParts (parts : List ObjectPartInfo) (drive : Drive) :
    (removeParts parts drive).upload = drive.upload := by
  induction parts generalizing drive with
  | nil => rfl
  | cons part rest ih => exact ih (drive.deletePart part.number)

theorem rewrite_onDrive {env : Env} {req : Request} {d : Fin n} (d' : Fin n)
    (hvalid : (onDrive fi d).isValid = true) (parts : List ObjectPartInfo) :
    rewrite (completedInfo env req (onDrive fi d') parts) (onDrive fi d) =
      onDrive (completedInfo env req fi parts) d := by
  rw [rewrite, if_pos hvalid]
  rfl

section Shared

variable {env : Env} {req : Request} {fi : FileInfo} {has : Fin n → Bool} {drives : Fin n → Drive}

/-- What a call works out of shared metadata. -/
def sharedPlan (env : Env) (req : Request) (fi : FileInfo) (has : Fin n → Bool) (d₀ : Fin n)
    (parts : List ObjectPartInfo) : Plan n where
  current := onDrive fi d₀
  fi := completedInfo env req (onDrive fi d₀) parts
  online := has
  files d := if has d then onDrive (completedInfo env req fi parts) d else {}
  writeQuorum := quorumOf env fi

theorem plan_shared (hsound : Sound n fi) (req : Request) (hT : Votable fi.modTime) (hpos : 0 < holders has)
    (hquorum : quorumOf env fi ≤ holders has) :
    ∃ d₀, has d₀ = true ∧ plan env req (sharedReads fi has) =
      match completeParts env fi.parts req.parts with
      | .error e => .error e
      | .ok parts => .ok (sharedPlan env req fi has d₀ parts) := by
  obtain ⟨d₀, hd₀, helected⟩ := electMetadata_shared hsound req hT hpos hquorum
  refine ⟨d₀, hd₀, ?_⟩
  unfold plan
  rw [helected]
  show (match completeParts env fi.parts req.parts with | .error e => _ | .ok parts => _) = _
  cases completeParts env fi.parts req.parts with
  | error e => rfl
  | ok parts =>
    refine congrArg Except.ok ?_
    congr 1
    funext d
    unfold sharedReads
    cases hd : has d with
    | true => exact rewrite_onDrive d₀ (hsound.valid d) parts
    | false => rfl

variable {parts : List ObjectPartInfo}

theorem Sound.completedInfo (hsound : Sound n fi)
    (hwritable : writable (completedInfo env req fi parts) = true) :
    Sound n (Multipart.completedInfo env req fi parts) where
  drives := hsound.drives
  valid d := by
    rw [← rewrite_onDrive d (hsound.valid d), isValid_rewrite (hsound.valid d) hsound.deleted]
    exact hwritable
  deleted := hsound.deleted
  layout := hsound.layout

theorem writeAt_shared (hsound : Sound n fi) {d₀ : Fin n}
    (hwritable : writable (completedInfo env req fi parts) = true) (d : Fin n) (drive : Drive) :
    (sharedPlan env req fi has d₀ parts).writeAt d drive =
      if has d then (drive.writeMetadata (onDrive (completedInfo env req fi parts) d), none)
      else (drive, some errDiskNotFound) := by
  unfold Plan.writeAt
  by_cases hd : has d = true
  · have hfile : (sharedPlan env req fi has d₀ parts).files d = onDrive (completedInfo env req fi parts) d :=
      if_pos hd
    have honline : (sharedPlan env req fi has d₀ parts).online d = true := hd
    simp only [hfile, honline, hd, (hsound.completedInfo hwritable).valid d, if_true]
  · rw [if_neg hd]
    exact if_neg hd

theorem ofFn_shared (e : Error) : ofFn (fun d => if has d then none else some e) = sharedErrs e has := by
  rw [ofFn_eq_map]
  rfl

theorem ignored_errDiskNotFound : ¬ isErrIgnored (some errDiskNotFound) objectOpIgnoredErrs = false := by
  decide

theorem reduceWriteQuorumErrs_shared {o : IterOrder (Option Error × Nat)} {quorum : Int}
    (hquorum : quorum ≤ holders has) (hpos : 0 < holders has) :
    reduceWriteQuorumErrs o (ofFn fun d => if has d then none else some errDiskNotFound)
      objectOpIgnoredErrs quorum = none := by
  rw [ofFn_shared]
  exact reduceQuorumErrs_shared (fun h => absurd h ignored_errDiskNotFound) hquorum hpos

theorem writeAndCommit_shared (hsound : Sound n fi) (d₀ : Fin n) (hpos : 0 < holders has)
    (hquorum : quorumOf env fi ≤ holders has)
    (hwritable : writable (completedInfo env req fi parts) = true) (faults : Faults n)
    (hholds : Holds fi has drives) :
    ∃ written, Holds (completedInfo env req fi parts) has written ∧
      writeAndCommit req faults drives (sharedPlan env req fi has d₀ parts) =
        commit req faults written (sharedPlan env req fi has d₀ parts) := by
  refine ⟨fun d => removeParts (sharedPlan env req fi has d₀ parts).unlisted
    ((sharedPlan env req fi has d₀ parts).writeAt d (drives d)).1, ?_, ?_⟩
  · intro d
    rw [upload_removeParts, writeAt_shared hsound hwritable]
    cases hd : has d with
    | true => rfl
    | false =>
      have hupload := hholds d
      rw [hd] at hupload
      exact hupload
  · have herrs : (fun d => ((sharedPlan env req fi has d₀ parts).writeAt d (drives d)).2) =
        fun d => if has d then none else some errDiskNotFound := by
      funext d
      rw [writeAt_shared hsound hwritable]
      cases has d <;> rfl
    unfold writeAndCommit
    dsimp only
    rw [herrs, show (sharedPlan env req fi has d₀ parts).writeQuorum = quorumOf env fi from rfl,
      reduceWriteQuorumErrs_shared hquorum hpos]
    dsimp only
    congr 1
    unfold Plan.evalDisks sharedPlan
    congr 1
    funext d
    dsimp only
    cases has d <;> rfl

end Shared

/-- The drives that a call leaves with the metadata of the upload, whatever it lists. -/
def Faults.refuses (faults : Faults n) (req : Request) (d : Fin n) : Bool :=
  faults.lock.isSome || (req.requireNewObject && faults.requireNew.isSome) || (faults.rename d).isSome

theorem upload_renameData (fi : FileInfo) (drive : Drive) :
    (drive.renameData fi).1.upload = none ∨ (drive.renameData fi).1.upload = some fi := by
  have htrash : (Drive.trashReplaced fi { drive with upload := some fi }).upload = some fi := by
    unfold Drive.trashReplaced
    split
    · split_ifs <;> rfl
    · rfl
  unfold Drive.renameData
  dsimp only
  split_ifs
  · split
    · exact Or.inr htrash
    · exact Or.inl rfl
  · exact Or.inl rfl

/-- Without bytes there is no data directory to move. -/
theorem renameData_of_size (fi : FileInfo) (hsize : fi.size = 0) (drive : Drive) :
    (drive.renameData fi).1.upload = none ∧ (drive.renameData fi).1.object = some fi ∧
      (drive.renameData fi).2 = none := by
  unfold Drive.renameData
  rw [if_neg (by omega)]
  exact ⟨rfl, rfl, rfl⟩

theorem commit_cases (req : Request) (faults : Faults n) (drives : Fin n → Drive) (p : Plan n) (d : Fin n) :
    (faults.refuses req d = true ∧ (commit req faults drives p).1 d = drives d) ∨
      (faults.refuses req d = false ∧ (commit req faults drives p).1 d = (p.renameAt d (drives d)).1) := by
  unfold commit Faults.refuses
  cases hlock : faults.lock with
  | some e => exact Or.inl ⟨rfl, rfl⟩
  | none =>
    cases hnew : (if req.requireNewObject then faults.requireNew else none) with
    | some e =>
      refine Or.inl ⟨?_, rfl⟩
      split_ifs at hnew with hreq
      simp [hreq, hnew]
    | none =>
      have hpass : (req.requireNewObject && faults.requireNew.isSome) = false := by
        split_ifs at hnew with hreq
        · simp [hnew]
        · simp [hreq]
      dsimp only
      unfold Plan.renameOr
      cases hrename : faults.rename d with
      | some e => exact Or.inl ⟨by simp, rfl⟩
      | none => exact Or.inr ⟨by simp [hpass], rfl⟩

section Leftover

variable {env : Env} {req : Request} {fi : FileInfo} {drives : Fin n → Drive} {info : FileInfo}

/-- What a call has found out when it returns with success. -/
structure Validated (env : Env) (req : Request) (fi : FileInfo) (has : Fin n → Bool)
    (parts : List ObjectPartInfo) : Prop where
  time : Votable fi.modTime
  pos : 0 < holders has
  quorum : quorumOf env fi ≤ holders has
  parent : req.parentIsObject = false
  passes : completeParts env fi.parts req.parts = .ok parts
  writable : writable (completedInfo env req fi parts) = true

theorem validated_of_ok (hsound : Sound n fi) (hholds : Holds fi has drives) {faults : Faults n}
    (h : (completeMultipartUpload env req faults drives).2 = .ok info) : ∃ parts, Validated env req fi has parts := by
  unfold completeMultipartUpload at h
  dsimp only at h
  rw [hholds.reads] at h
  split at h
  · cases h
  · split_ifs at h with hparent
    obtain ⟨elected, helected⟩ : ∃ elected, electMetadata env req (sharedReads fi has) = .ok elected := by
      cases helected : electMetadata env req (sharedReads fi has) with
      | ok elected => exact ⟨elected, rfl⟩
      | error e =>
        simp only [plan, helected] at h
        cases h
    obtain ⟨hT, hpos, hquorum⟩ := electable_of_electMetadata hsound helected
    obtain ⟨d₀, hd₀, hplan⟩ := plan_shared hsound req hT hpos hquorum
    rw [hplan] at h
    cases hparts : completeParts env fi.parts req.parts with
    | error e =>
      rw [hparts] at h
      cases h
    | ok parts =>
      rw [hparts] at h
      refine ⟨parts, hT, hpos, hquorum, by simpa using hparent, hparts, ?_⟩
      unfold writeAndCommit at h
      dsimp only at h
      split at h
      · cases h
      · next hnone =>
        -- A quorum of drives was written, so the metadata is valid.
        have hmem := exists_none_of_reduceWriteQuorumErrs (half_of_quorum hsound hpos hquorum).2.2 hnone
        obtain ⟨d, hd⟩ := mem_ofFn.mp hmem
        unfold Plan.writeAt sharedPlan at hd
        dsimp only at hd
        split_ifs at hd with hhas hvalid
        rw [← rewrite_onDrive d (hsound.valid d), isValid_rewrite (hsound.valid d) hsound.deleted] at hvalid
        exact hvalid

theorem completeMultipartUpload_shared (hsound : Sound n fi) (hholds : Holds fi has drives)
    {parts : List ObjectPartInfo} (h : Validated env req fi has parts) (faults : Faults n) :
    ∃ d₀ written, has d₀ = true ∧ Holds (completedInfo env req fi parts) has written ∧
      completeMultipartUpload env req faults drives =
        commit req faults written (sharedPlan env req fi has d₀ parts) := by
  obtain ⟨d₀, hd₀, hplan⟩ := plan_shared hsound req h.time h.pos h.quorum
  obtain ⟨written, hwritten, hcommit⟩ := writeAndCommit_shared hsound d₀ h.pos h.quorum h.writable faults
    hholds
  refine ⟨d₀, written, hd₀, hwritten, ?_⟩
  unfold completeMultipartUpload
  dsimp only
  rw [hholds.reads, checkUploadIDExists_shared hsound h.time h.pos h.quorum]
  rw [if_neg (by simp [h.parent]), hplan, h.passes]
  exact hcommit

/-- What a call leaves of the upload, when all drives had it: the metadata that it wrote, or nothing at drives
that did not refuse the rename. -/
theorem leftover (hsound : Sound n fi) (hholds : Holds fi (fun _ => true) drives) {parts : List ObjectPartInfo}
    (h : Validated env req fi (fun _ : Fin n => true) parts) (faults : Faults n) :
    ∃ has : Fin n → Bool, Holds (completedInfo env req fi parts) has (completeMultipartUpload env req faults drives).1 ∧
      ((completedInfo env req fi parts).size = 0 → has = faults.refuses req) := by
  obtain ⟨d₀, written, -, hwritten, hcall⟩ := completeMultipartUpload_shared hsound hholds h faults
  rw [hcall]
  have hvalid := (hsound.completedInfo h.writable).valid
  have hrename : ∀ d, (sharedPlan env req fi (fun _ => true) d₀ parts).renameAt d (written d) =
      (written d).renameData (onDrive (completedInfo env req fi parts) d) := by
    intro d
    unfold Plan.renameAt sharedPlan
    simp only [hvalid d, if_true]
  have hupload : ∀ d, ((commit req faults written (sharedPlan env req fi (fun _ => true) d₀ parts)).1 d).upload =
      none ∨ ((commit req faults written (sharedPlan env req fi (fun _ => true) d₀ parts)).1 d).upload =
        some (onDrive (completedInfo env req fi parts) d) := by
    intro d
    rcases commit_cases req faults written (sharedPlan env req fi (fun _ => true) d₀ parts) d with
      ⟨-, hdrive⟩ | ⟨-, hdrive⟩
    · rw [hdrive]
      exact Or.inr (hwritten d)
    · rw [hdrive, hrename]
      exact upload_renameData (onDrive (completedInfo env req fi parts) d) (written d)
  refine ⟨fun d => ((commit req faults written (sharedPlan env req fi (fun _ => true) d₀ parts)).1 d).upload.isSome,
    fun d => ?_, fun hsize => ?_⟩
  · rcases hupload d with hnone | hsome
    · simp only [hnone, Option.isSome_none, Bool.false_eq_true, if_false]
    · simp only [hsome, Option.isSome_some, if_true]
  · funext d
    rcases commit_cases req faults written (sharedPlan env req fi (fun _ => true) d₀ parts) d with
      ⟨hrefuses, hdrive⟩ | ⟨hrefuses, hdrive⟩
    · rw [hdrive, hwritten d, hrefuses]
      rfl
    · rw [hdrive, hrename, hrefuses, (renameData_of_size (onDrive (completedInfo env req fi parts) d) hsize
        (written d)).1]
      rfl

end Leftover

/-! ## The repeated call -/

section Repeated

variable {env : Env} {req again : Request} {fi : FileInfo} {has : Fin n → Bool} {drives between : Fin n → Drive}

theorem commit_of_size (hsound : Sound n fi) {parts : List ObjectPartInfo} (d₀ : Fin n)
    (h : Validated env req fi has parts) (hsize : (completedInfo env req fi parts).size = 0)
    (written : Fin n → Drive) :
    ∃ d₁ : Fin n, (commit req {} written (sharedPlan env req fi has d₀ parts)).2 =
        .ok (onDrive (completedInfo env req fi parts) d₁) ∧
      ∀ d, has d = true → ((commit req {} written (sharedPlan env req fi has d₀ parts)).1 d).object =
        some (onDrive (completedInfo env req fi parts) d) := by
  have hfile : ∀ d, has d = true → (sharedPlan env req fi has d₀ parts).files d =
      onDrive (completedInfo env req fi parts) d := fun d hd => if_pos hd
  have hon : ∀ d, has d = true → (sharedPlan env req fi has d₀ parts).renameAt d (written d) =
      (written d).renameData (onDrive (completedInfo env req fi parts) d) := by
    intro d hd
    unfold Plan.renameAt
    have honline : (sharedPlan env req fi has d₀ parts).online d = true := hd
    simp only [hfile d hd, honline, (hsound.completedInfo h.writable).valid d, if_true]
  have herrs : (fun d => ((sharedPlan env req fi has d₀ parts).renameAt d (written d)).2) =
      fun d => if has d then none else some errDiskNotFound := by
    funext d
    by_cases hd : has d = true
    · rw [hon d hd, if_pos hd, (renameData_of_size (onDrive (completedInfo env req fi parts) d) hsize (written d)).2.2]
    · rw [if_neg hd]
      unfold Plan.renameAt
      rw [if_neg (show ¬ (sharedPlan env req fi has d₀ parts).online d = true from hd)]
  have hcommit : commit req {} written (sharedPlan env req fi has d₀ parts) =
      (fun d => ((sharedPlan env req fi has d₀ parts).renameAt d (written d)).1,
        (sharedPlan env req fi has d₀ parts).result req
          fun d => ((sharedPlan env req fi has d₀ parts).renameAt d (written d)).2) := by
    unfold commit
    cases req.requireNewObject <;> rfl
  rw [hcommit, herrs]
  obtain ⟨d, hd⟩ := holders_pos_iff.mp h.pos
  have honline : (Plan.evalDisks (sharedPlan env req fi has d₀ parts)
      fun d => if has d then none else some errDiskNotFound).online = has := by
    funext d
    unfold Plan.evalDisks sharedPlan
    dsimp only
    cases has d <;> rfl
  obtain ⟨d₁, hfind⟩ : ∃ d₁, (finRange n).find? has = some d₁ :=
    Option.isSome_iff_exists.mp (find?_isSome.mpr ⟨d, mem_finRange d, hd⟩)
  refine ⟨d₁, ?_, fun d hd => ?_⟩
  · unfold Plan.result
    rw [show (sharedPlan env req fi has d₀ parts).writeQuorum = quorumOf env fi from rfl,
      reduceWriteQuorumErrs_shared h.quorum h.pos]
    rw [honline, hfind]
    exact congrArg Except.ok (hfile d₁ (find?_some hfind))
  · dsimp only
    rw [hon d hd]
    exact (renameData_of_size (onDrive (completedInfo env req fi parts) d) hsize (written d)).2.1

/-- The same call: only the clock and the orders of its maps may differ. -/
structure Repeats (req again : Request) : Prop where
  parts : again.parts = req.parts
  mTime : again.mTime = req.mTime
  userETag : again.userETag = req.userETag
  requireNewObject : again.requireNewObject = req.requireNewObject
  parentIsObject : again.parentIsObject = req.parentIsObject

/-- The modification time that a call gives the object. -/
def Request.stamp (req : Request) : Time := if req.mTime = Time.zero then req.now else req.mTime

/-- The same metadata, but for the index of the drive and, unless the call sets it, the modification time. -/
def SameObject (req : Request) (m₁ m₂ : FileInfo) : Prop :=
  m₂ = { m₁ with modTime := m₂.modTime, erasure := { m₁.erasure with index := m₂.erasure.index } } ∧
    (req.mTime ≠ Time.zero → m₂.modTime = m₁.modTime)

/-- The repeated call succeeds, with the object of the first call at all drives that refused it. -/
def Retried (env : Env) (req again : Request) (faults : Faults n) (drives between : Fin n → Drive) : Prop :=
  ∃ info₁ info₂, (completeMultipartUpload env req {} drives).2 = .ok info₁ ∧
    (completeMultipartUpload env again {} between).2 = .ok info₂ ∧ SameObject req info₁ info₂ ∧
    ∀ d, faults.refuses req d = true → ∃ m₁ m₂, ((completeMultipartUpload env req {} drives).1 d).object = some m₁ ∧
        ((completeMultipartUpload env again {} between).1 d).object = some m₂ ∧ SameObject req m₁ m₂

theorem getStr_insert_of_ne {m : GoMap String String} {k k' v : String} (h : ¬ compare k k' = .eq) :
    GoMap.getStr (some (m.orMake.insert k v)) k' = m.getStr k' := by
  have hget : GoMap.get? (some (m.orMake.insert k v)) k' = m.get? k' := by
    show (m.orMake.insert k v)[k']? = _
    rw [Std.ExtTreeMap.getElem?_insert, if_neg h]
    cases m with
    | none => simp [GoMap.orMake, GoMap.get?]
    | some t => rfl
  rw [GoMap.getStr, GoMap.getStr, hget]

theorem quorumOf_completedInfo (parts : List ObjectPartInfo) :
    quorumOf env (completedInfo env req fi parts) = quorumOf env fi := by
  have hclass : (completedInfo env req fi parts).metadata.getStr amzStorageClass =
      fi.metadata.getStr amzStorageClass := by
    have houter := @getStr_insert_of_ne (some (fi.metadata.orMake.insert "etag" (completedETag env req)))
      actualSizeKey amzStorageClass (toString (parts.map ObjectPartInfo.actualSize).sum) (by decide)
    have hinner := @getStr_insert_of_ne fi.metadata "etag" amzStorageClass (completedETag env req) (by decide)
    exact houter.trans hinner
  unfold quorumOf configuredParity
  rw [hclass]
  rfl

/-- Completing twice without parts gives the same metadata, but for the time. -/
theorem completedInfo_again (hsame : Repeats req again) : completedInfo env again (completedInfo env req fi []) [] =
      { completedInfo env req fi [] with modTime := again.stamp } := by
  have hetag : completedETag env again = completedETag env req := by
    unfold completedETag
    rw [hsame.userETag, hsame.parts]
  have hmeta : (completedInfo env again (completedInfo env req fi []) []).metadata =
      (completedInfo env req fi []).metadata := by
    show some _ = some _
    congr 1
    rw [hetag]
    show (((fi.metadata.orMake.insert _ _).insert _ _).insert _ _).insert _ _ =
      (fi.metadata.orMake.insert _ _).insert _ _
    apply Std.ExtTreeMap.ext_getElem?
    intro k
    simp only [Std.ExtTreeMap.getElem?_insert]
    split_ifs <;> rfl
  unfold completedInfo at hmeta ⊢
  dsimp only at hmeta ⊢
  rw [hmeta]
  rfl

theorem sameObject_again (hsame : Repeats req again) (d₁ d₂ : Fin n) :
    SameObject req (onDrive (completedInfo env req fi []) d₁)
      (onDrive (completedInfo env again (completedInfo env req fi []) []) d₂) := by
  rw [completedInfo_again hsame]
  refine ⟨rfl, fun hset => ?_⟩
  show again.stamp = req.stamp
  unfold Request.stamp
  rw [hsame.mTime, if_neg hset, if_neg hset]

theorem writable_nil : writable (completedInfo env req fi []) = true := rfl

end Repeated

/-! ## The result -/

/-- An upload before any completion: all drives have its metadata, and every part has the ETag that it was
uploaded with. -/
structure Pristine (n : Nat) where
  info : FileInfo
  sound : Sound n info
  etag_ne : ∀ part ∈ info.parts, part.etag ≠ ""

section Result

variable {env : Env} {req again : Request} {drives between : Fin n → Drive} {faults : Faults n}

/-- The entries of the parts that a call has written carry no ETag, so a repeated call that passes lists no
part. -/
theorem retry_lists_nothing (up : Pristine n) {parts parts' : List ObjectPartInfo} {has' : Fin n → Bool}
    (hfirst : Validated env req up.info has parts) (hsame : Repeats req again)
    (hagain : Validated env again (completedInfo env req up.info parts) has' parts') : req.parts = [] := by
  by_contra hne
  obtain ⟨part, hpart⟩ := exists_mem_of_ne_nil _ hne
  obtain ⟨hparts, hcurrent⟩ := completeParts_eq_ok hfirst.passes
  obtain ⟨cur, hcur, -, hetag⟩ := hcurrent part hpart
  obtain ⟨cur', hcur', -, hetag'⟩ := (completeParts_eq_ok hagain.passes).2 part (hsame.parts ▸ hpart)
  have hblank : cur'.etag = "" := by
    have hmem : cur' ∈ parts := hcur'
    rw [hparts] at hmem
    obtain ⟨_, -, rfl⟩ := mem_map.mp hmem
    rfl
  exact up.etag_ne cur hcur (hetag.trans (hetag'.symm.trans hblank))

/-- A call that would have succeeded is refused the lock, by the precondition or by drives. Repeating it
succeeds, with the same object, exactly if it lists no part, the vote can elect the time that the first call
wrote, and a write quorum of drives refused it. -/
theorem completeMultipartUpload_retry_iff (up : Pristine n) (hholds : Holds up.info (fun _ => true) drives)
    {info : FileInfo} (hfirst : (completeMultipartUpload env req {} drives).2 = .ok info) (hsame : Repeats req again)
    (hbetween : ∀ d, (between d).upload = ((completeMultipartUpload env req faults drives).1 d).upload) :
    Retried env req again faults drives between ↔
      req.parts = [] ∧ Votable req.stamp ∧ quorumOf env up.info ≤ holders (faults.refuses req) := by
  obtain ⟨parts, hvalidated⟩ := validated_of_ok up.sound hholds hfirst
  obtain ⟨has, hleft, hhas⟩ := leftover up.sound hholds hvalidated faults
  have hleft : Holds (completedInfo env req up.info parts) has between :=
    fun d => (hbetween d).trans (hleft d)
  have hsound := up.sound.completedInfo hvalidated.writable
  have hempty : req.parts = [] → parts = [] := by
    intro hnil
    have hpasses := hvalidated.passes
    rw [hnil] at hpasses
    exact (Except.ok.inj hpasses).symm
  have hone : 1 ≤ quorumOf env up.info := (half_of_quorum up.sound hvalidated.pos hvalidated.quorum).2.2
  constructor
  · rintro ⟨-, info₂, -, hagain, -⟩
    obtain ⟨parts', hvalidated'⟩ := validated_of_ok hsound hleft hagain
    have hnil := retry_lists_nothing up hvalidated hsame hvalidated'
    obtain rfl := hempty hnil
    obtain rfl := hhas rfl
    refine ⟨hnil, hvalidated'.time, ?_⟩
    exact (quorumOf_completedInfo []).symm.trans_le hvalidated'.quorum
  · rintro ⟨hnil, htime, hquorum⟩
    obtain rfl := hempty hnil
    obtain rfl := hhas rfl
    have hvalidated' : Validated env again (completedInfo env req up.info []) (faults.refuses req) [] :=
      { time := htime
        pos := by omega
        quorum := by rw [quorumOf_completedInfo]; exact hquorum
        parent := hsame.parentIsObject.trans hvalidated.parent
        passes := by rw [hsame.parts, hnil]; rfl
        writable := writable_nil }
    obtain ⟨d₀, written, -, -, hcall⟩ := completeMultipartUpload_shared up.sound hholds hvalidated {}
    obtain ⟨d₀', written', -, -, hcall'⟩ := completeMultipartUpload_shared hsound hleft hvalidated' {}
    obtain ⟨d₁, hok, hobject⟩ := commit_of_size up.sound d₀ hvalidated rfl written
    obtain ⟨d₂, hok', hobject'⟩ := commit_of_size hsound d₀' hvalidated' rfl written'
    rw [Retried, hcall, hcall']
    refine ⟨_, _, hok, hok', sameObject_again hsame d₁ d₂, fun d hd => ?_⟩
    exact ⟨_, _, hobject d rfl, hobject' d hd, sameObject_again hsame d d⟩

end Result

section Examples

theorem twoPartsMeta_sound : Sound 2 (twoPartsMeta 1) where
  drives := le_refl 2
  valid := by decide
  deleted := rfl
  layout := by decide

theorem twoPartsMeta_etag_ne : ∀ part ∈ (twoPartsMeta 1).parts, part.etag ≠ "" := by decide

/-- An upload of two parts to two drives. -/
def twoPartsPristine : Pristine 2 where
  info := twoPartsMeta 1
  sound := twoPartsMeta_sound
  etag_ne := twoPartsMeta_etag_ne

def twoPartsDrives (d : Fin 2) : Drive :=
  ⟨some (twoPartsMeta (d + 1)), some [1, 2], none, fun _ => none⟩

theorem twoPartsDrives_holds : Holds twoPartsPristine.info (fun _ => true) twoPartsDrives := fun _ => rfl

def lockTimeout : Faults 2 := { lock := some (storageErr "timeout") }

/-- A call that lists no part can be repeated. -/
theorem completeMultipartUpload_retry_nothing :
    let left := (completeMultipartUpload plainEnv (plainCall []) lockTimeout twoPartsDrives).1
    Retried plainEnv (plainCall []) (plainCall []) lockTimeout twoPartsDrives left := by
  intro left
  have hok : (completeMultipartUpload plainEnv (plainCall []) {} twoPartsDrives).2.isOk = true := by
    decide +kernel
  obtain ⟨info, hinfo⟩ : ∃ info, (completeMultipartUpload plainEnv (plainCall []) {} twoPartsDrives).2 =
      .ok info := by
    cases hresult : (completeMultipartUpload plainEnv (plainCall []) {} twoPartsDrives).2 with
    | ok info => exact ⟨info, rfl⟩
    | error e =>
      rw [hresult] at hok
      cases hok
  exact (completeMultipartUpload_retry_iff twoPartsPristine twoPartsDrives_holds hinfo
    ⟨rfl, rfl, rfl, rfl, rfl⟩ (fun _ => rfl)).mpr ⟨rfl, by decide, by decide⟩

def failure (result : Except CompleteError FileInfo) : Option CompleteError :=
  match result with
  | .error e => some e
  | .ok _ => none

/-- The call would complete part 1, but does not get the lock. Repeated without any fault, it fails: the ETag
of part 1 is gone. -/
theorem completeMultipartUpload_not_retried : let req := plainCall [⟨1, "a"⟩]
    let left := (completeMultipartUpload plainEnv req lockTimeout twoPartsDrives).1
    (completeMultipartUpload plainEnv req {} twoPartsDrives).2.isOk = true ∧
      failure (completeMultipartUpload plainEnv req lockTimeout twoPartsDrives).2 =
        some (.storage (storageErr "timeout")) ∧
      failure (completeMultipartUpload plainEnv req {} left).2 = some (.invalidPart 1 "" "a") := by
  decide +kernel

end Examples

end Otterio.Multipart
