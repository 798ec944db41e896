import Otterio.ObjectLock.Retention

/-!
# Enforcement of object locks

The checks of `cmd/bucket-object-lock.go` that a deletion, a retention update and an overwrite go
through, each with what it reads: the headers, the outcome of `getOpts`, of `GetObjectInfo`, of the
clock and of the permission checks. Every call of `UTCNowNTP` has its own reading.

`DefaultRetentionKept` says that a default retention of the bucket cannot be skipped. That is not
always so: a legal-hold header makes `checkPutObjectLockAllowed` skip the default, and an invalid one
makes it end without an error.
-/

namespace Otterio

/-! ## Lookups -/

/-- The errors of `GetObjectInfo` that the checks tell apart. -/
inductive LookupError where
  | methodNotAllowed
  | objectNotFound
  | versionNotFound
  | other (e : Error)
deriving DecidableEq, Repr

/-- `toAPIErrorCode` of an error of `GetObjectInfo`. -/
def LookupError.code (codes : ErrorCodes) : LookupError → APIErrorCode
  | .other e => toAPIErrorCode codes (some e)
  | e =>
    if codes.canceled then .errClientDisconnected
    else match e with
      | .methodNotAllowed => .errMethodNotAllowed
      | .objectNotFound => .errNoSuchKey
      | _ => .errNoSuchVersion

theorem LookupError.code_ne (codes : ErrorCodes) (e : LookupError) : e.code codes ≠ .errNone := by
  cases e with
  | other e => exact toAPIErrorCode_some_ne codes e
  | _ => simp only [LookupError.code]; split <;> nofun

/-- `ObjectInfo`, as far as the checks read it. -/
structure ObjectInfo where
  userDefined : UserDefined := {}
  deleteMarker : Bool := false

/-- What `GetObjectInfo` returns: with an error, the information may still be filled in. -/
structure Lookup where
  info : ObjectInfo
  err : Option LookupError

/-- `r.Header.Get(xhttp.AmzBucketReplicationStatus) == replication.Replica.String()`. -/
def isReplica (h : Header) : Bool := h.get "X-Amz-Replication-Status" == "REPLICA"

/-- What `enforceRetentionBypassForDelete` reads. -/
structure DeleteCheck where
  codes : ErrorCodes
  header : Header
  /-- The version id of `getOpts`, or its error. -/
  opts : Except Error String
  lookup : Lookup
  now : Option Time
  /-- `checkRequestAuthType` for `s3:BypassGovernanceRetention`. -/
  bypassAuth : APIErrorCode

/-- The check of a retention date that may not be overridden. -/
def retainedAt (now : Option Time) (retainUntilDate : Time) : APIErrorCode :=
  match now with
  | none => .errObjectLocked
  | some t => if !(retainUntilDate < t) then .errObjectLocked else .errNone

def enforceRetentionBypassForDelete (i : DeleteCheck) : APIErrorCode :=
  match i.opts with
  | .error e => toAPIErrorCode i.codes (some e)
  | .ok _ => match i.lookup.err with
    | some gerr =>
      if gerr = .methodNotAllowed ∧ i.lookup.info.deleteMarker then .errNone
      else if gerr = .objectNotFound ∨ gerr = .versionNotFound then .errNone
      else gerr.code i.codes
    | none =>
      let lhold := getObjectLegalHoldMeta i.lookup.info.userDefined
      if lhold.status = .on then .errObjectLocked
      else
        let ret := getObjectRetentionMeta i.lookup.info.userDefined
        match ret.mode with
        | .compliance => retainedAt i.now ret.retainUntilDate
        | .governance =>
          if !isObjectLockGovernanceBypassSet i.header then retainedAt i.now ret.retainUntilDate
          else if i.bypassAuth ≠ .errNone then .errAccessDenied
          else .errNone
        | .unset => .errNone

/-- `isPutRetentionAllowed`. The two arguments are the answers of the bucket policy or of IAM for
`s3:BypassGovernanceRetention` and `s3:PutObjectRetention`. -/
def isPutRetentionAllowed (retMode : RetMode) (byPassSet bypassAllowed retentionAllowed : Bool) : APIErrorCode :=
  let byPassSet := if retMode = .governance && byPassSet then bypassAllowed else byPassSet
  if byPassSet || retentionAllowed then .errNone else .errAccessDenied

structure RetentionCheck where
  codes : ErrorCodes
  header : Header
  /-- The version id of `getOpts`, or its error. -/
  opts : Except Error String
  lookup : Lookup
  now : Option Time
  bypassAllowed : Bool
  retentionAllowed : Bool

/-- `enforceRetentionBypassForPut`, without the `ObjectInfo` it hands on. -/
def enforceRetentionBypassForPut (i : RetentionCheck) (objRetention : ObjectRetention) : APIErrorCode :=
  let byPassSet := isObjectLockGovernanceBypassSet i.header
  let allowed := fun byPassSet =>
    isPutRetentionAllowed objRetention.mode byPassSet i.bypassAllowed i.retentionAllowed
  match i.opts with
  | .error e => toAPIErrorCode i.codes (some e)
  | .ok _ => match i.lookup.err with
    | some err => err.code i.codes
    | none => match i.now with
      | none => .errObjectLocked
      | some t =>
        let ret := getObjectRetentionMeta i.lookup.info.userDefined
        if ret.mode.valid then
          -- Retention has expired you may change whatever you like.
          if ret.retainUntilDate < t then allowed byPassSet
          else match ret.mode with
            | .governance =>
              if !byPassSet && (objRetention.mode ≠ .governance ||
                  objRetention.retainUntilDate < ret.retainUntilDate) then .errObjectLocked
              else allowed byPassSet
            | .compliance =>
              if objRetention.mode ≠ .compliance ||
                  objRetention.retainUntilDate < ret.retainUntilDate then .errObjectLocked
              else allowed false
            | .unset => .errNone
        else allowed byPassSet

/-! ## Overwrite -/

structure PutCheck where
  codes : ErrorCodes
  header : Header
  /-- `globalBucketObjectLockSys.Get`. -/
  retentionCfg : Except Error Retention
  /-- The version id of `getOpts`, or its error. -/
  opts : Except Error String
  lookup : Lookup
  parse : String → Option Time
  /-- The clock at the check of the existing version, at the check of the retention headers, and when
  the default retention starts. -/
  nowExisting : Option Time
  nowHeaders : Option Time
  nowDefault : Option Time
  retentionPermErr : APIErrorCode

/-- The results of `checkPutObjectLockAllowed`. -/
structure PutLock where
  mode : RetMode := .unset
  retainDate : Time := Time.zero
  legalHold : ObjectLegalHold := {}
  code : APIErrorCode

/-- The check of the existing version: what it has, or what refuses the request. -/
def checkExisting (i : PutCheck) : PutLock :=
  match i.nowExisting with
  | none => { code := .errObjectLocked }
  | some t =>
    let r := getObjectRetentionMeta i.lookup.info.userDefined
    if r.mode = .compliance ∧ r.retainUntilDate > t then { code := .errObjectLocked }
    else
      let legalHold := getObjectLegalHoldMeta i.lookup.info.userDefined
      -- Disallow overwriting an object on legal hold
      ⟨r.mode, r.retainUntilDate, legalHold,
        if legalHold.status = .on then .errObjectLocked else .errNone⟩

/-- The rest of `checkPutObjectLockAllowed`, from the legal-hold header on. -/
def checkHeaders (i : PutCheck) (retentionCfg : Retention) (mode : RetMode) (retainDate : Time)
    (legalHold : ObjectLegalHold) : PutLock :=
  let retentionRequested := isObjectLockRetentionRequested i.header
  let legalHoldRequested := isObjectLockLegalHoldRequested i.header
  match if legalHoldRequested then parseObjectLockLegalHoldHeaders i.header else .ok legalHold with
  -- The code is that of `err`, which is `nil` here, and not that of `lerr`.
  | .error _ => ⟨mode, retainDate, {}, toAPIErrorCode i.codes none⟩
  | .ok legalHold =>
    if retentionRequested then
      match parseObjectLockLegalHoldHeaders i.header with
      | .error err => ⟨mode, retainDate, {}, toAPIErrorCode i.codes (some err)⟩
      | .ok legalHold =>
        match parseObjectLockRetentionHeaders i.parse i.nowHeaders i.header with
        | .error err => ⟨mode, retainDate, legalHold, toAPIErrorCode i.codes (some err)⟩
        | .ok (rMode, rDate) =>
          if i.retentionPermErr ≠ .errNone then ⟨mode, retainDate, legalHold, i.retentionPermErr⟩
          else ⟨rMode, rDate, legalHold, .errNone⟩
    -- replica inherits retention metadata only from source
    else if isReplica i.header then ⟨.unset, Time.zero, legalHold, .errNone⟩
    else if retentionCfg.validity > 0 then
      if i.retentionPermErr ≠ .errNone then ⟨mode, retainDate, legalHold, i.retentionPermErr⟩
      else match i.nowDefault with
        | none => ⟨mode, retainDate, legalHold, .errObjectLocked⟩
        | some t =>
          if !legalHoldRequested && retentionCfg.lockEnabled then
            -- inherit retention from bucket configuration
            ⟨retentionCfg.mode, t + retentionCfg.validity, legalHold, .errNone⟩
          else ⟨.unset, Time.zero, legalHold, .errNone⟩
    else ⟨mode, retainDate, legalHold, .errNone⟩

def checkPutObjectLockAllowed (i : PutCheck) : PutLock :=
  match i.retentionCfg with
  | .error _ => { code := .errInvalidBucketObjectLockConfiguration }
  | .ok retentionCfg =>
    if !retentionCfg.lockEnabled then
      if isObjectLockLegalHoldRequested i.header || isObjectLockRetentionRequested i.header then
        { code := .errInvalidBucketObjectLockConfiguration }
      else { code := .errNone }
    else match i.opts with
      | .error e => { code := toAPIErrorCode i.codes (some e) }
      | .ok versionID =>
        if versionID ≠ "" ∧ isReplica i.header = false ∧ i.lookup.err = none then
          let existing := checkExisting i
          if existing.code ≠ .errNone then existing
          else checkHeaders i retentionCfg existing.mode existing.retainDate existing.legalHold
        else checkHeaders i retentionCfg .unset Time.zero {}

/-! ## The default retention -/

/-- The legal-hold header is present, but its value is not `ON` or `OFF`. -/
def LegalHoldInvalid (h : Header) : Prop :=
  isObjectLockLegalHoldRequested h = true ∧ (parseLegalHoldStatus (h.get amzObjectLockLegalHold)).valid = false

/-- The default retention of the bucket cannot be skipped, and an invalid legal-hold header is not
accepted. -/
def DefaultRetentionKept (i : PutCheck) : Prop :=
  (∀ cfg, i.retentionCfg = .ok cfg → cfg.lockEnabled = true → 0 < cfg.validity →
    isReplica i.header = false → isObjectLockRetentionRequested i.header = false →
    (checkPutObjectLockAllowed i).code = .errNone → (checkPutObjectLockAllowed i).mode = cfg.mode ∧
        ∃ t, i.nowDefault = some t ∧ (checkPutObjectLockAllowed i).retainDate = t + cfg.validity) ∧
  (LegalHoldInvalid i.header → (checkPutObjectLockAllowed i).code ≠ .errNone)

/-- The existing version does not let itself be overwritten. -/
def ExistingRefuses (i : PutCheck) : Prop :=
  let r := getObjectRetentionMeta i.lookup.info.userDefined
  i.lookup.err = none ∧ ∀ t, i.nowExisting = some t → (r.mode = .compliance ∧ t < r.retainUntilDate) ∨
      (getObjectLegalHoldMeta i.lookup.info.userDefined).status = .on

/-- The request is refused before its legal-hold header is read. -/
def RefusedBeforeHeaders (i : PutCheck) : Prop :=
  (∀ cfg, i.retentionCfg = .ok cfg → cfg.lockEnabled = false) ∨ ∀ versionID, i.opts = .ok versionID →
      versionID ≠ "" ∧ isReplica i.header = false ∧ ExistingRefuses i

/-- The default retention does not apply to the request, or the request may not have it. -/
def DefaultNotDue (i : PutCheck) : Prop :=
  isObjectLockRetentionRequested i.header = true ∨ isReplica i.header = true ∨
    i.retentionPermErr ≠ .errNone ∨ i.nowDefault = none ∨
    ∀ cfg, i.retentionCfg = .ok cfg → cfg.validity ≤ 0

/-- The request has no legal-hold header, or one that does no harm. -/
def LegalHoldHarmless (i : PutCheck) : Prop :=
  isObjectLockLegalHoldRequested i.header = false ∨ RefusedBeforeHeaders i ∨
    (¬ LegalHoldInvalid i.header ∧ DefaultNotDue i)

theorem checkExisting_code_eq_none_iff {i : PutCheck} (hlookup : i.lookup.err = none) :
    (checkExisting i).code = .errNone ↔ ¬ ExistingRefuses i := by
  unfold checkExisting ExistingRefuses
  cases hnow : i.nowExisting with
  | none => simp [hlookup]
  | some t =>
    simp only [hlookup, Option.some.injEq, forall_eq', true_and, not_or]
    split
    · rename_i hret
      simp [hret]
    · rename_i hret
      simp [hret]

theorem parseObjectLockLegalHoldHeaders_spec (h : Header) :
    (LegalHoldInvalid h ∧ parseObjectLockLegalHoldHeaders h = .error Err.errUnknownWORMModeDirective) ∨
      (¬ LegalHoldInvalid h ∧ ∃ legalHold, parseObjectLockLegalHoldHeaders h = .ok legalHold) := by
  unfold LegalHoldInvalid parseObjectLockLegalHoldHeaders isObjectLockLegalHoldRequested Header.has
    Header.get
  cases h amzObjectLockLegalHold with
  | nil => simp
  | cons v vs => cases hv : (parseLegalHoldStatus v).valid <;> simp [hv]

/-- A request that is refused before its headers are read gets an error, if the bucket has locks or
the request has a legal-hold header. -/
theorem code_ne_of_refusedBeforeHeaders {i : PutCheck} (h : RefusedBeforeHeaders i)
    (hlock : isObjectLockLegalHoldRequested i.header = true ∨
      ∀ cfg, i.retentionCfg = .ok cfg → cfg.lockEnabled = true) :
    (checkPutObjectLockAllowed i).code ≠ .errNone := by
  unfold checkPutObjectLockAllowed
  cases hcfg : i.retentionCfg with
  | error e => nofun
  | ok cfg =>
    cases henabled : cfg.lockEnabled with
    | false =>
      have hrequested := hlock.resolve_right fun hall => by
        rw [hall cfg hcfg] at henabled
        cases henabled
      simp [henabled, hrequested]
    | true =>
      have hopts := h.resolve_left fun hall => by
        rw [hall cfg hcfg] at henabled
        cases henabled
      cases hv : i.opts with
      | error e => simp [henabled]
      | ok versionID =>
        obtain ⟨hid, hreplica, hrefuses⟩ := hopts versionID hv
        have hcode := mt (checkExisting_code_eq_none_iff hrefuses.1).mp (not_not_intro hrefuses)
        simp [henabled, hid, hreplica, hrefuses.1, hcode]

theorem checkPutObjectLockAllowed_eq {i : PutCheck} (h : ¬ RefusedBeforeHeaders i) :
    ∃ cfg mode retainDate legalHold, i.retentionCfg = .ok cfg ∧ cfg.lockEnabled = true ∧
      checkPutObjectLockAllowed i = checkHeaders i cfg mode retainDate legalHold := by
  unfold RefusedBeforeHeaders at h
  push Not at h
  obtain ⟨⟨cfg, hcfg, henabled⟩, versionID, hv, hexisting⟩ := h
  have henabled : cfg.lockEnabled = true := by simpa using henabled
  unfold checkPutObjectLockAllowed
  simp only [hcfg, henabled, hv, Bool.not_true, Bool.false_eq_true, ↓reduceIte]
  by_cases hold : versionID ≠ "" ∧ isReplica i.header = false ∧ i.lookup.err = none
  · have hcode := (checkExisting_code_eq_none_iff hold.2.2).mpr (hexisting hold.1 hold.2.1)
    rw [if_pos hold, if_neg (not_not_intro hcode)]
    exact ⟨cfg, _, _, _, rfl, henabled, rfl⟩
  · rw [if_neg hold]
    exact ⟨cfg, _, _, _, rfl, henabled, rfl⟩

section Headers

variable {i : PutCheck} (cfg : Retention) (mode : RetMode) (retainDate : Time)
  (legalHold : ObjectLegalHold)

theorem checkHeaders_code_of_invalid (h : LegalHoldInvalid i.header) :
    (checkHeaders i cfg mode retainDate legalHold).code = .errNone := by
  obtain ⟨-, herror⟩ | ⟨hvalid, -⟩ := parseObjectLockLegalHoldHeaders_spec i.header
  · simp [checkHeaders, h.1, herror]
  · exact absurd h hvalid

/-- A request that should get the default retention passes only with the permission and a clock. -/
theorem checkHeaders_due (hvalid : ¬ LegalHoldInvalid i.header) (hvalidity : 0 < cfg.validity)
    (hreplica : isReplica i.header = false) (hret : isObjectLockRetentionRequested i.header = false)
    (hcode : (checkHeaders i cfg mode retainDate legalHold).code = .errNone) :
    i.retentionPermErr = .errNone ∧ ∃ t, i.nowDefault = some t := by
  obtain ⟨hinvalid, -⟩ | ⟨-, parsed, hparsed⟩ := parseObjectLockLegalHoldHeaders_spec i.header
  · exact absurd hinvalid hvalid
  by_cases hperm : i.retentionPermErr = .errNone
  · cases hnow : i.nowDefault with
    | some t => exact ⟨hperm, t, rfl⟩
    | none =>
      cases hrequested : isObjectLockLegalHoldRequested i.header <;>
        simp [checkHeaders, hrequested, hparsed, hret, hreplica, hvalidity, hperm, hnow] at hcode
  · cases hrequested : isObjectLockLegalHoldRequested i.header <;>
      simp [checkHeaders, hrequested, hparsed, hret, hreplica, hvalidity, hperm] at hcode

theorem checkHeaders_of_not_requested (h : isObjectLockLegalHoldRequested i.header = false)
    (henabled : cfg.lockEnabled = true) (hvalidity : 0 < cfg.validity)
    (hreplica : isReplica i.header = false) (hret : isObjectLockRetentionRequested i.header = false)
    (hcode : (checkHeaders i cfg mode retainDate legalHold).code = .errNone) :
    (checkHeaders i cfg mode retainDate legalHold).mode = cfg.mode ∧ ∃ t, i.nowDefault = some t ∧
        (checkHeaders i cfg mode retainDate legalHold).retainDate = t + cfg.validity := by
  have hvalid : ¬ LegalHoldInvalid i.header := fun hinvalid => by
    rw [hinvalid.1] at h
    cases h
  obtain ⟨hperm, t, hnow⟩ := checkHeaders_due cfg mode retainDate legalHold hvalid hvalidity hreplica
    hret hcode
  simp [checkHeaders, h, hret, hreplica, henabled, hvalidity, hperm, hnow]

theorem checkHeaders_of_valid (h : isObjectLockLegalHoldRequested i.header = true)
    (hvalid : ¬ LegalHoldInvalid i.header) (hdue : ¬ DefaultNotDue i) (hcfg : i.retentionCfg = .ok cfg) :
    (checkHeaders i cfg mode retainDate legalHold).code = .errNone ∧
      (checkHeaders i cfg mode retainDate legalHold).mode = .unset := by
  obtain ⟨hinvalid, -⟩ | ⟨-, parsed, hparsed⟩ := parseObjectLockLegalHoldHeaders_spec i.header
  · exact absurd hinvalid hvalid
  unfold DefaultNotDue at hdue
  push Not at hdue
  obtain ⟨hret, hreplica, hperm, hnow, hvalidity⟩ := hdue
  have hpositive : 0 < cfg.validity := by
    obtain ⟨cfg', hcfg', hpos⟩ := hvalidity
    rw [hcfg] at hcfg'
    cases hcfg'
    exact hpos
  obtain ⟨t, hnow⟩ := Option.ne_none_iff_exists'.mp hnow
  simp [checkHeaders, h, hparsed, hret, hreplica, hperm, hnow, hpositive]

end Headers

/-- The default retention is kept exactly for the requests whose legal-hold header does no harm. -/
theorem defaultRetentionKept_iff (i : PutCheck) : DefaultRetentionKept i ↔ LegalHoldHarmless i := by
  by_cases hrefused : RefusedBeforeHeaders i
  · refine iff_of_true ⟨?_, ?_⟩ (.inr (.inl hrefused))
    · intro cfg hcfg henabled _ _ _ hcode
      refine absurd hcode (code_ne_of_refusedBeforeHeaders hrefused (.inr fun cfg' hcfg' => ?_))
      rw [hcfg] at hcfg'
      cases hcfg'
      exact henabled
    · intro hinvalid
      exact code_ne_of_refusedBeforeHeaders hrefused (.inl hinvalid.1)
  obtain ⟨cfg, mode, retainDate, legalHold, hcfg, henabled, heq⟩ := checkPutObjectLockAllowed_eq hrefused
  unfold DefaultRetentionKept LegalHoldHarmless
  simp only [heq, hcfg, hrefused, false_or, Except.ok.injEq, forall_eq', henabled, forall_const]
  cases hrequested : isObjectLockLegalHoldRequested i.header with
  | false =>
    refine iff_of_true ⟨?_, fun hinvalid => ?_⟩ (.inl rfl)
    · intro hvalidity hreplica hret hcode
      exact checkHeaders_of_not_requested cfg _ _ _ hrequested henabled hvalidity hreplica hret hcode
    · rw [hinvalid.1] at hrequested
      cases hrequested
  | true =>
    by_cases hinvalid : LegalHoldInvalid i.header
    · simp [hinvalid, checkHeaders_code_of_invalid]
    by_cases hdue : DefaultNotDue i
    · refine iff_of_true ⟨?_, fun h => absurd h hinvalid⟩ (.inr ⟨hinvalid, hdue⟩)
      intro hvalidity hreplica hret hcode
      obtain ⟨hperm, t, hnow⟩ := checkHeaders_due cfg _ _ _ hinvalid hvalidity hreplica hret hcode
      have hnone : cfg.validity ≤ 0 := by
        simpa [DefaultNotDue, hret, hreplica, hperm, hnow, hcfg] using hdue
      omega
    · obtain ⟨hcode, hmode⟩ := checkHeaders_of_valid cfg mode retainDate legalHold hrequested hinvalid
        hdue hcfg
      refine iff_of_false (fun hkept => ?_) (by simp [hinvalid, hdue])
      unfold DefaultNotDue at hdue
      push Not at hdue
      obtain ⟨hret, hreplica, -, -, cfg', hcfg', hvalidity⟩ := hdue
      rw [hcfg] at hcfg'
      cases hcfg'
      -- The mode of the bucket is a valid one.
      have hdefault := hkept.1 hvalidity (by simpa using hreplica) (by simpa using hret) hcode
      have hvalid := cfg.mode_valid hvalidity
      rw [← hdefault.1, hmode] at hvalid
      cases hvalid

/-- An upload with a legal-hold header to a bucket that retains new objects for a day. -/
def legalHoldUpload (legalHold : String) : PutCheck where
  codes := ⟨false, fun _ => .other 0, APIErrorCode.other_ne_errNone⟩
  header := fun name => if name = amzObjectLockLegalHold then [legalHold] else []
  retentionCfg := .ok ⟨.compliance, 24 * 3600 * Time.second, true, fun _ => rfl⟩
  opts := .ok ""
  lookup := ⟨{}, none⟩
  parse := fun _ => none
  nowExisting := some 0
  nowHeaders := some 0
  nowDefault := some 0
  retentionPermErr := .errNone

/-- A valid legal-hold header skips the default retention, and an invalid one is accepted. -/
theorem defaultRetention_skipped : ¬ DefaultRetentionKept (legalHoldUpload "ON") ∧
    ¬ DefaultRetentionKept (legalHoldUpload "maybe") := by
  constructor
  · intro hkept
    have hmode := (hkept.1 _ rfl rfl (by decide) (by decide) (by decide) (by decide)).1
    exact absurd hmode (by decide)
  · intro hkept
    exact hkept.2 ⟨by decide, by decide⟩ (by decide)

end Otterio
