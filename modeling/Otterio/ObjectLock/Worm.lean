import Otterio.ObjectLock.Enforce

/-!
# Retention over runs of requests

What `DELETE`, a multi-object delete, `PutObjectRetention` and a `PUT` with a version id do to one
stored object version (`cmd/object-handlers.go`, `cmd/bucket-handlers.go`). The state is the lock
metadata of the version, or `none` once it was deleted or overwritten.

* `WormLaw`: a version under `COMPLIANCE` survives and keeps its mode and date, one under `GOVERNANCE`
  does unless a request bypasses governance, and one under legal hold survives.
* `WormRequest.Sound`: the condition under which one request keeps the law. The cases it excludes are
  those where a check is skipped (replica headers, a failed or stale lookup, an unreadable
  configuration), where `GOVERNANCE` is not checked (overwrites, the bypass header of
  `PutObjectRetention`), and where the new date is stored with a loss. Every run of sound requests
  keeps the law.
-/

namespace Otterio

/-! ## Requests -/

/-- `rcfg, _ := globalBucketObjectLockSys.Get(bucket); rcfg.LockEnabled`: an error counts as a bucket
without locks. -/
def lockEnabled (cfg : Except Error Retention) : Bool :=
  match cfg with
  | .error _ => false
  | .ok rcfg => rcfg.lockEnabled

structure DeleteRequest where
  /-- The version id of `delOpts`, or its error. -/
  delOpts : Except Error String
  rcfg : Except Error Retention
  /-- `checkRequestAuthType` for `s3:ReplicateDelete`. -/
  replicateDeleteAuth : APIErrorCode
  /-- `opts.VersionPurgeStatus.Empty()`. -/
  purgeStatusEmpty : Bool
  check : DeleteCheck

/-- `DeleteObjectHandler`: the version is deleted. Without a version id a delete marker is put above
it. -/
def deleteObjectHandler (r : DeleteRequest) : Bool :=
  match r.delOpts with
  | .error _ => false
  | .ok versionID =>
    if isReplica r.check.header && r.replicateDeleteAuth ≠ .errNone then false
    else
      -- opts.VersionID holds delete marker version ID to replicate and not yet present on disk
      let vID := if isReplica r.check.header && r.purgeStatusEmpty then "" else versionID
      let apiErr := if lockEnabled r.rcfg && vID ≠ "" then enforceRetentionBypassForDelete r.check
        else .errNone
      apiErr = .errNone && versionID ≠ ""

structure MultiDeleteRequest where
  versionID : String
  /-- `checkRequestAuthType` for `s3:DeleteObject`. -/
  deleteAuth : APIErrorCode
  /-- The version id is empty, `null` or a UUID. -/
  versionIDValid : Bool
  /-- The deletion has to be replicated, and `s3:ReplicateDelete` is refused. -/
  replicateDenied : Bool
  rcfg : Except Error Retention
  check : DeleteCheck

/-- The loop body of `DeleteMultipleObjectsHandler`: the version is deleted. -/
def deleteMultipleObjects (r : MultiDeleteRequest) : Bool :=
  if r.deleteAuth ≠ .errNone then false
  else if !r.versionIDValid then false
  else if r.replicateDenied then false
  else if r.versionID ≠ "" && lockEnabled r.rcfg && enforceRetentionBypassForDelete r.check ≠ .errNone then
    false
  else r.versionID ≠ ""

structure PutRequest where
  check : PutCheck
  /-- The version id of `putOpts`, or its error. -/
  putOpts : Except Error String
  /-- Both read the query parameter `versionId`. -/
  sameVersion : ∀ v v', check.opts = .ok v → putOpts = .ok v' → v = v'
  /-- `isPutActionAllowed` for `s3:ReplicateObject`. -/
  replicateAuth : APIErrorCode
  /-- The caller has `s3:BypassGovernanceRetention`. No check asks for it. -/
  bypassAllowed : Bool

/-- `PutObjectHandler`: the version is overwritten. -/
def putObjectHandler (r : PutRequest) : Bool :=
  match r.putOpts with
  | .error _ => false
  | .ok versionID =>
    if (checkPutObjectLockAllowed r.check).code ≠ .errNone then false
    else if isReplica r.check.header && r.replicateAuth ≠ .errNone then false
    else versionID ≠ ""

structure RetentionRequest where
  rcfg : Except Error Retention
  /-- The body; `none` if it is not a `Retention` document. -/
  doc : Option RetentionXML
  parse : String → Option Time
  /-- The clock when the body is parsed. -/
  nowBody : Option Time
  check : RetentionCheck
  /-- `PutObjectMetadata` succeeds. -/
  stored : Bool

def RetentionRequest.objRetention (r : RetentionRequest) : Except Error ObjectRetention :=
  match r.doc with
  | none => .error Err.errMalformedXML
  | some doc => parseObjectRetention r.parse r.nowBody doc

def UserDefined.setRetention (userDefined : UserDefined) (ret : ObjectRetention) : UserDefined :=
  if ret.mode.valid then
    { userDefined with
      mode := { userDefined.mode with lower := some ret.mode.text }
      retainUntilDate := { userDefined.retainUntilDate with lower := some (Time.rfc3339 ret.retainUntilDate) } }
  else
    { userDefined with
      mode := { userDefined.mode with lower := some "" }
      retainUntilDate := { userDefined.retainUntilDate with lower := some none } }

/-- `PutObjectRetentionHandler`: the new metadata, if the request is accepted. -/
def putObjectRetentionHandler (r : RetentionRequest) : Option UserDefined :=
  if !lockEnabled r.rcfg then none
  else match r.objRetention with
    | .error _ => none
    | .ok objRetention =>
      if enforceRetentionBypassForPut r.check objRetention ≠ .errNone then none
      else if r.check.lookup.info.deleteMarker || !r.stored then none
      else some (r.check.lookup.info.userDefined.setRetention objRetention)

/-! ## Runs -/

inductive WormRequest where
  | delete (r : DeleteRequest)
  | multiDelete (r : MultiDeleteRequest)
  | put (r : PutRequest)
  | putRetention (r : RetentionRequest)

/-- The metadata of the version after a request; `none` if the version is deleted or overwritten. -/
def WormRequest.apply (userDefined : UserDefined) : WormRequest → Option UserDefined
  | .delete r => if deleteObjectHandler r then none else some userDefined
  | .multiDelete r => if deleteMultipleObjects r then none else some userDefined
  | .put r => if putObjectHandler r then none else some userDefined
  | .putRetention r => some ((putObjectRetentionHandler r).getD userDefined)

def wormRun (userDefined : UserDefined) : List WormRequest → Option UserDefined
  | [] => some userDefined
  | r :: rs => (r.apply userDefined).bind fun userDefined => wormRun userDefined rs

/-- The request carries the governance-bypass header, and the caller has the bypass permission. -/
def WormRequest.bypasses : WormRequest → Bool
  | .delete r => isObjectLockGovernanceBypassSet r.check.header && r.check.bypassAuth = .errNone
  | .multiDelete r => isObjectLockGovernanceBypassSet r.check.header && r.check.bypassAuth = .errNone
  | .put r => isObjectLockGovernanceBypassSet r.check.header && r.bypassAllowed
  | .putRetention r => isObjectLockGovernanceBypassSet r.check.header && r.check.bypassAllowed

def WormRequest.now : WormRequest → Option Time
  | .delete r => r.check.now
  | .multiDelete r => r.check.now
  | .put r => r.check.nowExisting
  | .putRetention r => r.check.now

/-- The request is checked before `t`, or without a clock. -/
def WormRequest.Before (t : Time) (r : WormRequest) : Prop := ∀ now, r.now = some now → now < t

/-! ## The law -/

/-- The stored retention has this mode, at least until `t`. -/
def Retains (mode : RetMode) (t : Time) (userDefined : UserDefined) : Prop :=
  (getObjectRetentionMeta userDefined).mode = mode ∧ t ≤ (getObjectRetentionMeta userDefined).retainUntilDate

instance (mode : RetMode) (t : Time) (userDefined : UserDefined) :
    Decidable (Retains mode t userDefined) := inferInstanceAs (Decidable (_ ∧ _))

def OnHold (userDefined : UserDefined) : Prop := (getObjectLegalHoldMeta userDefined).status = .on

instance (userDefined : UserDefined) : Decidable (OnHold userDefined) := inferInstanceAs (Decidable (_ = _))

/-- The version is still there after the run, and `P` holds of it. -/
def Survives (userDefined : UserDefined) (rs : List WormRequest) (P : UserDefined → Prop) : Prop :=
  ∃ after, wormRun userDefined rs = some after ∧ P after

instance (userDefined : UserDefined) (rs : List WormRequest) (P : UserDefined → Prop) [DecidablePred P] :
    Decidable (Survives userDefined rs P) :=
  decidable_of_iff (∃ after ∈ wormRun userDefined rs, P after) Iff.rfl

/-- What retention promises about a run. -/
structure WormLaw (userDefined : UserDefined) (t : Time) (rs : List WormRequest) : Prop where
  compliance : Retains .compliance t userDefined → (∀ r ∈ rs, r.Before t) →
    Survives userDefined rs (Retains .compliance t)
  governance : Retains .governance t userDefined → (∀ r ∈ rs, r.Before t) → (∀ r ∈ rs, r.bypasses = false) →
    Survives userDefined rs (Retains .governance t)
  legalHold : OnHold userDefined → Survives userDefined rs OnHold

/-! ## Requests that keep the law -/

/-- A date that is stored without a loss: a whole second of a year of four digits. -/
def Time.Lossless (t : Time) : Prop := Time.firstYear ≤ t ∧ t < Time.lastYear ∧ t % Time.second = 0

instance (t : Time) : Decidable t.Lossless := inferInstanceAs (Decidable (_ ∧ _ ∧ _))

variable {t : Time}

theorem Time.Lossless.rfc3339 (h : t.Lossless) : Time.rfc3339 t = some t := by
  obtain ⟨hfirst, hlast, hsecond⟩ := h
  simp [Time.rfc3339, Time.format, hfirst, hlast, hsecond]

/-- A lookup of the stored version that does not call it missing. -/
def Lookup.Finds (l : Lookup) (userDefined : UserDefined) : Prop :=
  match l.err with
  | none => l.info.userDefined = userDefined
  | some e => e ≠ .objectNotFound ∧ e ≠ .versionNotFound ∧ ¬ (e = .methodNotAllowed ∧ l.info.deleteMarker = true)

/-- The condition on one request for a version with this metadata. -/
def WormRequest.Sound (userDefined : UserDefined) : WormRequest → Prop
  | .delete r => lockEnabled r.rcfg = true ∧ (isReplica r.check.header && r.purgeStatusEmpty) = false ∧
      r.check.lookup.Finds userDefined
  | .multiDelete r => lockEnabled r.rcfg = true ∧ r.check.lookup.Finds userDefined
  | .put r => lockEnabled r.check.retentionCfg = true ∧ isReplica r.check.header = false ∧
      r.check.lookup.err = none ∧ r.check.lookup.info.userDefined = userDefined ∧
      ((getObjectRetentionMeta userDefined).mode = .governance → (WormRequest.put r).bypasses = true)
  | .putRetention r =>
      (r.check.lookup.err = none → r.check.lookup.info.userDefined = userDefined) ∧
      ∀ ret, r.objRetention = .ok ret → (ret.mode.valid = true → ret.retainUntilDate.Lossless) ∧
        ((getObjectRetentionMeta userDefined).mode = .governance →
          isObjectLockGovernanceBypassSet r.check.header = true → r.check.bypassAllowed = true ∨
            (ret.mode = .governance ∧ (getObjectRetentionMeta userDefined).retainUntilDate ≤ ret.retainUntilDate))

/-- Every request of the run meets the condition when it is handled. -/
def SoundRun (userDefined : UserDefined) : List WormRequest → Prop
  | [] => True
  | r :: rs => r.Sound userDefined ∧ ∀ after, r.apply userDefined = some after → SoundRun after rs

/-- The version may not be deleted or overwritten by this request. -/
def Guarded (userDefined : UserDefined) (r : WormRequest) : Prop :=
  OnHold userDefined ∨ ∃ t, r.Before t ∧ (Retains .compliance t userDefined ∨
    (Retains .governance t userDefined ∧ r.bypasses = false))

theorem retainedAt_ne {now : Option Time} {date : Time} (hnow : ∀ n, now = some n → n < t) (hdate : t ≤ date) :
    retainedAt now date ≠ .errNone := by
  unfold retainedAt
  cases now with
  | none => nofun
  | some n =>
    have hle : ¬ date < n := not_lt.mpr ((hnow n rfl).le.trans hdate)
    simp [hle]

variable {userDefined : UserDefined}

theorem enforceRetentionBypassForDelete_ne {i : DeleteCheck} (hfinds : i.lookup.Finds userDefined)
    (hguard : OnHold userDefined ∨ ∃ t, (∀ n, i.now = some n → n < t) ∧
      (Retains .compliance t userDefined ∨ (Retains .governance t userDefined ∧
        (isObjectLockGovernanceBypassSet i.header && i.bypassAuth = .errNone) = false))) :
    enforceRetentionBypassForDelete i ≠ .errNone := by
  unfold enforceRetentionBypassForDelete
  cases i.opts with
  | error e => exact toAPIErrorCode_some_ne _ _
  | ok versionID =>
    unfold Lookup.Finds at hfinds
    cases herr : i.lookup.err with
    | some e =>
      simp only [herr] at hfinds ⊢
      obtain ⟨hobject, hversion, hmarker⟩ := hfinds
      rw [if_neg hmarker, if_neg (by simp [hobject, hversion])]
      exact e.code_ne _
    | none =>
      simp only [herr] at hfinds ⊢
      rw [hfinds]
      split
      · nofun
      · rename_i hhold
        obtain ⟨t, hnow, hret⟩ := hguard.resolve_left hhold
        obtain ⟨hmode, hdate⟩ | ⟨⟨hmode, hdate⟩, hbypass⟩ := hret
        · simp only [hmode]
          exact retainedAt_ne hnow hdate
        · simp only [hmode]
          split
          · exact retainedAt_ne hnow hdate
          · have hauth : i.bypassAuth ≠ .errNone := by simp_all
            rw [if_pos hauth]
            nofun

theorem checkPutObjectLockAllowed_ne {r : PutRequest} {versionID : String}
    (hsound : (WormRequest.put r).Sound userDefined) (hguard : Guarded userDefined (.put r))
    (hv : r.putOpts = .ok versionID) (hid : versionID ≠ "") :
    (checkPutObjectLockAllowed r.check).code ≠ .errNone := by
  obtain ⟨hlock, hreplica, herr, hfound, hgov⟩ := hsound
  -- The check of the existing version refuses.
  have hrefuses : ExistingRefuses r.check := by
    refine ⟨herr, fun now hnow => ?_⟩
    rw [hfound]
    obtain hhold | ⟨t, hbefore, ⟨hmode, hdate⟩ | ⟨⟨hmode, -⟩, hbypass⟩⟩ := hguard
    · exact .inr hhold
    · exact .inl ⟨hmode, lt_of_lt_of_le (hbefore now hnow) hdate⟩
    · rw [hgov hmode] at hbypass
      cases hbypass
  refine code_ne_of_refusedBeforeHeaders (.inr fun v hopts => ?_) (.inr fun cfg hcfg => ?_)
  · rw [r.sameVersion v versionID hopts hv]
    exact ⟨hid, hreplica, hrefuses⟩
  · simpa [lockEnabled, hcfg] using hlock

/-- A guarded version survives every request, and only `PutObjectRetention` changes it. -/
theorem apply_of_guarded {r : WormRequest} (hsound : r.Sound userDefined) (hguard : Guarded userDefined r) :
    (∃ q, r = .putRetention q) ∨ r.apply userDefined = some userDefined := by
  cases r with
  | putRetention q => exact .inl ⟨q, rfl⟩
  | delete q =>
    obtain ⟨hlock, hreplica, hfinds⟩ := hsound
    have hrefused := enforceRetentionBypassForDelete_ne hfinds hguard
    have hkept : deleteObjectHandler q = false := by
      unfold deleteObjectHandler
      cases q.delOpts with
      | error e => rfl
      | ok versionID => by_cases hid : versionID = "" <;> simp [hlock, hreplica, hrefused, hid]
    exact .inr (by simp [WormRequest.apply, hkept])
  | multiDelete q =>
    obtain ⟨hlock, hfinds⟩ := hsound
    have hrefused := enforceRetentionBypassForDelete_ne hfinds hguard
    have hkept : deleteMultipleObjects q = false := by
      unfold deleteMultipleObjects
      by_cases hid : q.versionID = "" <;> simp [hlock, hrefused, hid]
    exact .inr (by simp [WormRequest.apply, hkept])
  | put q =>
    have hkept : putObjectHandler q = false := by
      unfold putObjectHandler
      cases hv : q.putOpts with
      | error e => rfl
      | ok versionID =>
        by_cases hid : versionID = ""
        · simp [hid]
        · simp [checkPutObjectLockAllowed_ne hsound hguard hv hid]
    exact .inr (by simp [WormRequest.apply, hkept])

/-! ## Retention updates -/

variable {ret : ObjectRetention}

theorem retains_setRetention (hvalid : ret.mode.valid = true)
    (hlossless : ret.retainUntilDate.Lossless) (hdate : t ≤ ret.retainUntilDate) :
    Retains ret.mode t (userDefined.setRetention ret) := by
  simp only [Retains, UserDefined.setRetention, hvalid, ↓reduceIte, getObjectRetentionMeta,
    MetaEntry.get?_lower, parseRetMode_text, hlossless.rfc3339, Option.bind_some, id_eq,
    Option.getD_some, hdate, and_self]

theorem onHold_setRetention (ret : ObjectRetention) (h : OnHold userDefined) :
    OnHold (userDefined.setRetention ret) := by
  unfold UserDefined.setRetention
  split <;> exact h

variable {r : RetentionRequest}

/-- An accepted update was allowed by the check, on the metadata it found. -/
theorem putObjectRetentionHandler_spec {after : UserDefined}
    (h : putObjectRetentionHandler r = some after) :
    ∃ ret, r.objRetention = .ok ret ∧ enforceRetentionBypassForPut r.check ret = .errNone ∧
      after = r.check.lookup.info.userDefined.setRetention ret := by
  unfold putObjectRetentionHandler at h
  split at h
  · cases h
  · cases hret : r.objRetention with
    | error e => simp [hret] at h
    | ok ret =>
      simp only [hret] at h
      split at h
      · cases h
      · rename_i hcode
        split at h
        · cases h
        · exact ⟨ret, rfl, by simpa using hcode, (Option.some.inj h).symm⟩

/-- What the check of an update has allowed. -/
theorem enforceRetentionBypassForPut_spec {i : RetentionCheck}
    (h : enforceRetentionBypassForPut i ret = .errNone) :
    i.lookup.err = none ∧ ∀ t, (∀ n, i.now = some n → n < t) →
      (Retains .compliance t i.lookup.info.userDefined → ret.mode = .compliance ∧
        (getObjectRetentionMeta i.lookup.info.userDefined).retainUntilDate ≤ ret.retainUntilDate) ∧
      (Retains .governance t i.lookup.info.userDefined →
        isObjectLockGovernanceBypassSet i.header = false → ret.mode = .governance ∧
          (getObjectRetentionMeta i.lookup.info.userDefined).retainUntilDate ≤ ret.retainUntilDate) := by
  unfold enforceRetentionBypassForPut at h
  cases hopts : i.opts with
  | error e => simp [hopts] at h
  | ok versionID =>
    cases herr : i.lookup.err with
    | some e => simp [hopts, herr, e.code_ne] at h
    | none =>
      refine ⟨rfl, fun t hbefore => ?_⟩
      cases hnow : i.now with
      | none => simp [hopts, herr, hnow] at h
      | some now =>
        have hlt := hbefore now hnow
        refine ⟨fun ⟨hmode, hdate⟩ => ?_, fun ⟨hmode, hdate⟩ hset => ?_⟩
        · have hlive : ¬ (getObjectRetentionMeta i.lookup.info.userDefined).retainUntilDate < now :=
            not_lt.mpr (hlt.le.trans hdate)
          simp only [hmode, RetMode.valid, ↓reduceIte] at h
          grind
        · have hlive : ¬ (getObjectRetentionMeta i.lookup.info.userDefined).retainUntilDate < now :=
            not_lt.mpr (hlt.le.trans hdate)
          simp only [hmode, RetMode.valid, ↓reduceIte, hset] at h
          grind

variable {P : UserDefined → Prop}

theorem apply_putRetention (hP : P userDefined)
    (hnew : ∀ ret, r.objRetention = .ok ret → enforceRetentionBypassForPut r.check ret = .errNone →
      P (r.check.lookup.info.userDefined.setRetention ret)) :
    ∃ after, (WormRequest.putRetention r).apply userDefined = some after ∧ P after := by
  refine ⟨_, rfl, ?_⟩
  cases h : putObjectRetentionHandler r with
  | none => exact hP
  | some after =>
    obtain ⟨ret, hret, hcode, rfl⟩ := putObjectRetentionHandler_spec h
    exact hnew ret hret hcode

/-! ## Steps and runs -/

section Steps

variable {userDefined : UserDefined} {r : WormRequest} {t : Time}

theorem compliance_apply (hsound : r.Sound userDefined) (hret : Retains .compliance t userDefined)
    (hbefore : r.Before t) : ∃ after, r.apply userDefined = some after ∧ Retains .compliance t after := by
  obtain ⟨q, rfl⟩ | hsame := apply_of_guarded hsound (.inr ⟨t, hbefore, .inl hret⟩)
  · refine apply_putRetention hret fun ret hbody hcode => ?_
    obtain ⟨herr, hspec⟩ := enforceRetentionBypassForPut_spec hcode
    have hfound := hsound.1 herr
    rw [hfound] at hspec ⊢
    obtain ⟨hmode, hdate⟩ := (hspec t hbefore).1 hret
    have hvalid : ret.mode.valid = true := by rw [hmode]; rfl
    rw [← hmode]
    exact retains_setRetention hvalid ((hsound.2 ret hbody).1 hvalid) (hret.2.trans hdate)
  · exact ⟨userDefined, hsame, hret⟩

theorem governance_apply (hsound : r.Sound userDefined) (hret : Retains .governance t userDefined)
    (hbefore : r.Before t) (hbypass : r.bypasses = false) :
    ∃ after, r.apply userDefined = some after ∧ Retains .governance t after := by
  obtain ⟨q, rfl⟩ | hsame := apply_of_guarded hsound (.inr ⟨t, hbefore, .inr ⟨hret, hbypass⟩⟩)
  · refine apply_putRetention hret fun ret hbody hcode => ?_
    obtain ⟨herr, hspec⟩ := enforceRetentionBypassForPut_spec hcode
    have hfound := hsound.1 herr
    obtain ⟨hlossless, hheader⟩ := hsound.2 ret hbody
    rw [hfound] at hspec ⊢
    have hkept : ret.mode = .governance ∧
        (getObjectRetentionMeta userDefined).retainUntilDate ≤ ret.retainUntilDate := by
      cases hset : isObjectLockGovernanceBypassSet q.check.header with
      | false => exact (hspec t hbefore).2 hret hset
      | true =>
        refine (hheader hret.1 hset).resolve_left fun hallowed => ?_
        simp [WormRequest.bypasses, hset, hallowed] at hbypass
    have hvalid : ret.mode.valid = true := by rw [hkept.1]; rfl
    rw [← hkept.1]
    exact retains_setRetention hvalid (hlossless hvalid) (hret.2.trans hkept.2)
  · exact ⟨userDefined, hsame, hret⟩

theorem onHold_apply (hsound : r.Sound userDefined) (hhold : OnHold userDefined) :
    ∃ after, r.apply userDefined = some after ∧ OnHold after := by
  obtain ⟨q, rfl⟩ | hsame := apply_of_guarded hsound (.inl hhold)
  · refine apply_putRetention hhold fun ret _ hcode => ?_
    rw [hsound.1 (enforceRetentionBypassForPut_spec hcode).1]
    exact onHold_setRetention ret hhold
  · exact ⟨userDefined, hsame, hhold⟩

end Steps

theorem survives_of_step {rs : List WormRequest}
    (hstep : ∀ r ∈ rs, ∀ userDefined, r.Sound userDefined → P userDefined →
      ∃ after, r.apply userDefined = some after ∧ P after)
    (hsound : SoundRun userDefined rs) (hP : P userDefined) : Survives userDefined rs P := by
  induction rs generalizing userDefined with
  | nil => exact ⟨userDefined, rfl, hP⟩
  | cons r rs ih =>
    obtain ⟨after, hafter, hPafter⟩ := hstep r List.mem_cons_self userDefined hsound.1 hP
    obtain ⟨last, hlast, hPlast⟩ :=
      ih (fun q hq => hstep q (List.mem_cons_of_mem r hq)) (hsound.2 after hafter) hPafter
    exact ⟨last, by rw [wormRun, hafter, Option.bind_some, hlast], hPlast⟩

/-- Every run of requests that meet the condition keeps the law. -/
theorem wormLaw_of_soundRun (userDefined : UserDefined) (t : Time) (rs : List WormRequest)
    (h : SoundRun userDefined rs) : WormLaw userDefined t rs where
  compliance hret hbefore := survives_of_step
    (fun r hr _ hsound hP => compliance_apply hsound hP (hbefore r hr)) h hret
  governance hret hbefore hbypass := survives_of_step
    (fun r hr _ hsound hP => governance_apply hsound hP (hbefore r hr) (hbypass r hr)) h hret
  legalHold hhold := survives_of_step (fun _ _ _ hsound hP => onHold_apply hsound hP) h hhold

/-! ## Runs that keep and that break the law -/

/-- The metadata of a version under this mode until `until`, as the handlers write it. -/
def retained (mode : RetMode) (untilDate : Time) : UserDefined := ({} : UserDefined).setRetention ⟨mode, untilDate⟩

def oneHeader (name value : String) : Header := fun n => if n = name then [value] else []

def lockedBucket : Except Error Retention := .ok ⟨.unset, 0, true, RetMode.valid_of_no_validity _⟩

def plainCodes : ErrorCodes := ⟨false, fun _ => .other 0, APIErrorCode.other_ne_errNone⟩

/-- A `DELETE` of the version at time 0, by a caller without the bypass permission. -/
def deleteAtZero (header : Header) (userDefined : UserDefined) : WormRequest :=
  .delete ⟨.ok "v", lockedBucket, .errNone, true,
    ⟨plainCodes, header, .ok "v", ⟨⟨userDefined, false⟩, none⟩, some 0, .errAccessDenied⟩⟩

/-- A `PUT` with the version id at time 0. -/
def putAtZero (userDefined : UserDefined) : WormRequest :=
  .put ⟨⟨plainCodes, fun _ => [], lockedBucket, .ok "v", ⟨⟨userDefined, false⟩, none⟩, fun _ => none,
    some 0, some 0, some 0, .errNone⟩, .ok "v", fun _ _ h h' => by cases h; cases h'; rfl, .errNone, false⟩

/-- A `PutObjectRetention` at time 0, for a date that its text denotes, by a caller without the bypass
permission. -/
def putRetentionAtZero (header : Header) (userDefined : UserDefined) (doc : RetentionXML) (date : Time)
    (retentionAllowed : Bool) : WormRequest :=
  .putRetention ⟨lockedBucket, some doc, fun _ => some date, some 0,
    ⟨plainCodes, header, .ok "v", ⟨⟨userDefined, false⟩, none⟩, some 0, false, retentionAllowed⟩, true⟩

/-- A version under `COMPLIANCE` survives a deletion, and its retention can be extended. -/
theorem wormLaw_compliance_extended : let version := retained .compliance (1000 * Time.second)
    let run := [deleteAtZero (fun _ => []) version,
      putRetentionAtZero (fun _ => []) version ⟨"COMPLIANCE", some "later"⟩ (2000 * Time.second) true]
    SoundRun version run ∧ WormLaw version (1000 * Time.second) run := by
  intro version run
  have hsound : SoundRun version run := by
    refine ⟨⟨rfl, rfl, rfl⟩, fun after hafter => ⟨⟨fun _ => ?_, fun ret hret => ?_⟩, fun _ _ => trivial⟩⟩
    · exact Option.some.inj hafter
    · cases hret
      exact ⟨fun _ => by decide, fun _ hset => absurd hset (by decide)⟩
  exact ⟨hsound, wormLaw_of_soundRun _ _ _ hsound⟩

theorem before_of_now {r : WormRequest} (hr : r.now = some 0) (ht : 0 < t) : ∀ q ∈ [r], q.Before t := by
  intro q hq now hnow
  rw [List.mem_singleton.mp hq, hr] at hnow
  cases hnow
  exact ht

/-- A `PUT` overwrites a version under `GOVERNANCE`; the bypass header alone removes `GOVERNANCE`; the
date of `COMPLIANCE` loses its fraction of a second; a replica's `DELETE` is not checked. -/
theorem wormLaw_broken : (let version := retained .governance (1000 * Time.second)
     ¬ WormLaw version (1000 * Time.second) [putAtZero version]) ∧
    (let version := retained .governance (1000 * Time.second)
     ¬ WormLaw version (1000 * Time.second)
       [putRetentionAtZero (oneHeader amzObjectLockBypassRetGovernance "true") version ⟨"", none⟩ 0 false]) ∧
    (let version : UserDefined := ⟨⟨some "COMPLIANCE", none⟩,
       ⟨some (Time.iso8601 (1000 * Time.second + 500 * Time.millisecond)), none⟩, {}⟩
     ¬ WormLaw version (1000 * Time.second + 500 * Time.millisecond)
       [putRetentionAtZero (fun _ => []) version ⟨"COMPLIANCE", some "same date"⟩
         (1000 * Time.second + 500 * Time.millisecond) true]) ∧
    (let version := retained .compliance (1000 * Time.second)
     ¬ WormLaw version (1000 * Time.second)
       [deleteAtZero (oneHeader "X-Amz-Replication-Status" "REPLICA") version]) := by
  refine ⟨fun h => ?_, fun h => ?_, fun h => ?_, fun h => ?_⟩
  · exact absurd (h.governance (by decide) (before_of_now rfl (by decide)) (by decide)) (by decide)
  · exact absurd (h.governance (by decide) (before_of_now rfl (by decide)) (by decide)) (by decide)
  · exact absurd (h.compliance (by decide) (before_of_now rfl (by decide))) (by decide)
  · exact absurd (h.compliance (by decide) (before_of_now rfl (by decide))) (by decide)

end Otterio
