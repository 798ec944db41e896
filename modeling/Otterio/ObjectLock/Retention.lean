import Otterio.Lib.Go

/-!
# Object lock: modes, dates, headers and metadata

The types and functions of `pkg/bucket/object/lock`, and the error codes that the enforcement of
object locks returns.

* The text of a retention date in an object's metadata is modelled by the instant that
  `time.Parse(time.RFC3339, text)` reads from it (`DateText`). `Time.rfc3339` and `Time.iso8601` are
  the texts that the handlers write: they cut the instant to seconds or to milliseconds, and a year
  of five digits cannot be read back.
* The texts of request headers and bodies stay texts; `parse` stands for `time.Parse(time.RFC3339, ·)`.
* `UTCNowNTP` is an `Option Time`: the NTP server may fail.
-/

namespace Otterio

/-! ## Modes and legal holds -/

inductive RetMode where
  /-- The empty string. -/
  | unset
  | governance
  | compliance
deriving DecidableEq, Repr

def RetMode.valid : RetMode → Bool
  | .unset => false
  | .governance | .compliance => true

def parseRetMode (modeStr : String) : RetMode :=
  if equalUpper modeStr "GOVERNANCE" then .governance
  else if equalUpper modeStr "COMPLIANCE" then .compliance
  else .unset

/-- `string(mode)`. -/
def RetMode.text : RetMode → String
  | .unset => ""
  | .governance => "GOVERNANCE"
  | .compliance => "COMPLIANCE"

@[simp] theorem parseRetMode_text (mode : RetMode) : parseRetMode mode.text = mode := by
  cases mode <;> decide

inductive LegalHoldStatus where
  /-- The empty string. -/
  | unset
  | on
  | off
deriving DecidableEq, Repr

def LegalHoldStatus.valid : LegalHoldStatus → Bool
  | .unset => false
  | .on | .off => true

def parseLegalHoldStatus (holdStr : String) : LegalHoldStatus :=
  if equalUpper holdStr "ON" then .on else if equalUpper holdStr "OFF" then .off else .unset

/-! ## Errors -/

namespace Err

/-- "date must be provided in ISO 8601 format" -/
def errInvalidRetentionDate : Error := .other 10
/-- "the retain until date must be in the future" -/
def errPastObjectLockRetainDate : Error := .other 11
/-- "unknown WORM mode directive" -/
def errUnknownWORMModeDirective : Error := .other 12
/-- "x-amz-object-lock-retain-until-date and x-amz-object-lock-mode must both be supplied" -/
def errObjectLockInvalidHeaders : Error := .other 13
/-- "the XML you provided was not well-formed or did not validate against our published schema" -/
def errMalformedXML : Error := .other 14

end Err

inductive APIErrorCode where
  | errNone
  | errAccessDenied
  | errObjectLocked
  | errNoSuchKey
  | errNoSuchVersion
  | errMethodNotAllowed
  | errClientDisconnected
  | errInvalidBucketObjectLockConfiguration
  | errInvalidRetentionDate
  | errPastObjectLockRetainDate
  | errUnknownWORMModeDirective
  | errObjectLockInvalidHeaders
  | errMalformedXML
  | other (code : Nat)
deriving DecidableEq, Repr

theorem APIErrorCode.other_ne_errNone (_ : Error) : APIErrorCode.other 0 ≠ .errNone := by
  simp

/-- What `toAPIErrorCode` depends on besides the error. -/
structure ErrorCodes where
  /-- The context of the request is canceled. -/
  canceled : Bool
  /-- The codes of the errors that are not listed in `toAPIErrorCode` below. -/
  codeOf : Error → APIErrorCode
  codeOf_ne : ∀ e, codeOf e ≠ .errNone

def toAPIErrorCode (codes : ErrorCodes) : Option Error → APIErrorCode
  | none => .errNone
  | some e =>
    if codes.canceled then .errClientDisconnected
    else if e = Err.errInvalidRetentionDate then .errInvalidRetentionDate
    else if e = Err.errPastObjectLockRetainDate then .errPastObjectLockRetainDate
    else if e = Err.errUnknownWORMModeDirective then .errUnknownWORMModeDirective
    else if e = Err.errObjectLockInvalidHeaders then .errObjectLockInvalidHeaders
    else if e = Err.errMalformedXML then .errMalformedXML
    else codes.codeOf e

@[simp] theorem toAPIErrorCode_none (codes : ErrorCodes) : toAPIErrorCode codes none = .errNone := rfl

@[simp] theorem toAPIErrorCode_some_ne (codes : ErrorCodes) (e : Error) :
    toAPIErrorCode codes (some e) ≠ .errNone := by
  have := codes.codeOf_ne e
  unfold toAPIErrorCode
  grind

/-! ## Dates -/

/-- The text of a date, by the instant it denotes; `none` for a text that cannot be read. -/
abbrev DateText := Option Time

namespace Time

def second : Int := 1000000000
def millisecond : Int := 1000000

/-- January 1, year 0, and January 1, year 10000, 00:00:00 UTC: the years of four digits. -/
def firstYear : Time := -62167219200 * second
def lastYear : Time := 253402300800 * second

def format (precision : Int) (t : Time) : DateText :=
  if firstYear ≤ t ∧ t < lastYear then some (t - t % precision) else none

/-- `t.UTC().Format(time.RFC3339)`. -/
def rfc3339 : Time → DateText := format second

/-- `t.UTC().Format(iso8601TimeFormat)`. -/
def iso8601 : Time → DateText := format millisecond

end Time

/-! ## Bucket configuration -/

/-- `Retention`. A positive validity comes with a valid mode, since `DefaultRetention.UnmarshalXML`
accepts no other. -/
structure Retention where
  mode : RetMode
  /-- In nanoseconds. -/
  validity : Int
  lockEnabled : Bool
  mode_valid : 0 < validity → mode.valid = true

/-- Without a validity any mode will do. -/
theorem RetMode.valid_of_no_validity (mode : RetMode) (h : (0 : Int) < 0) : mode.valid = true :=
  absurd h (lt_irrefl 0)

/-- The period of a default retention: `Days` or `Years`, not both. -/
inductive RetentionPeriod where
  | days (n : Nat)
  | years (n : Nat)

/-- `DefaultRetention`, as `UnmarshalXML` accepts it. -/
structure DefaultRetention where
  mode : RetMode
  period : RetentionPeriod
  mode_valid : mode.valid = true

structure LockConfig where
  objectLockEnabled : String
  rule : Option DefaultRetention

/-- `Config.ToRetention`. `addYears` is the calendar of `time.Time.AddDate`. -/
def LockConfig.toRetention (addYears : Time → Nat → Time) (now : Option Time) (config : LockConfig) : Retention :=
  let lockEnabled := config.objectLockEnabled == "Enabled"
  match config.rule with
  | none => ⟨.unset, 0, lockEnabled, RetMode.valid_of_no_validity _⟩
  | some rule =>
    let validity := match now with
      | none => 0
      | some t => match rule.period with
        | .days n => n * (24 * 3600 * Time.second)
        | .years n => addYears t n - t
    ⟨rule.mode, validity, lockEnabled, fun _ => rule.mode_valid⟩

/-! ## Request headers -/

def amzObjectLockBypassRetGovernance : String := "X-Amz-Bypass-Governance-Retention"
def amzObjectLockRetainUntilDate : String := "X-Amz-Object-Lock-Retain-Until-Date"
def amzObjectLockMode : String := "X-Amz-Object-Lock-Mode"
def amzObjectLockLegalHold : String := "X-Amz-Object-Lock-Legal-Hold"

def isObjectLockRetentionRequested (h : Header) : Bool :=
  h.has amzObjectLockMode || h.has amzObjectLockRetainUntilDate

def isObjectLockLegalHoldRequested (h : Header) : Bool := h.has amzObjectLockLegalHold

def isObjectLockGovernanceBypassSet (h : Header) : Bool := equalLower (h.get amzObjectLockBypassRetGovernance) "true"

structure ObjectLegalHold where
  status : LegalHoldStatus := .unset
deriving DecidableEq, Repr

def parseObjectLockLegalHoldHeaders (h : Header) : Except Error ObjectLegalHold :=
  match h amzObjectLockLegalHold with
  | [] => .ok {}
  | holdStatus :: _ =>
    let lh := parseLegalHoldStatus holdStatus
    if !lh.valid then .error Err.errUnknownWORMModeDirective else .ok ⟨lh⟩

def parseObjectLockRetentionHeaders (parse : String → Option Time) (now : Option Time) (h : Header) :
    Except Error (RetMode × Time) :=
  let retMode := h.get amzObjectLockMode
  let dateStr := h.get amzObjectLockRetainUntilDate
  if retMode.isEmpty || dateStr.isEmpty then .error Err.errObjectLockInvalidHeaders
  else
    let rmode := parseRetMode retMode
    if !rmode.valid then .error Err.errUnknownWORMModeDirective
    else match parse dateStr with
      | none => .error Err.errInvalidRetentionDate
      | some retDate => match now with
        | none => .error Err.errPastObjectLockRetainDate
        | some t =>
          if retDate < t then .error Err.errPastObjectLockRetainDate else .ok (rmode, retDate)

/-- `ObjectRetention`; the zero time stands for no date. -/
structure ObjectRetention where
  mode : RetMode := .unset
  retainUntilDate : Time := Time.zero
deriving DecidableEq, Repr

/-- The elements of a `Retention` document. -/
structure RetentionXML where
  mode : String
  retainUntilDate : Option String

/-- `RetentionDate.UnmarshalXML`. -/
def parseRetentionDate (parse : String → Option Time) : Option String → Except Error Time
  | none => .ok Time.zero
  | some dateStr => match parse dateStr with
    | none => .error Err.errInvalidRetentionDate
    | some t => .ok t

/-- `ParseObjectRetention` of a decoded document. -/
def parseObjectRetention (parse : String → Option Time) (now : Option Time) (doc : RetentionXML) :
    Except Error ObjectRetention := do
  let date ← parseRetentionDate parse doc.retainUntilDate
  let mode ←
    if doc.mode = "" then .ok .unset
    else if doc.mode = RetMode.governance.text then .ok .governance
    else if doc.mode = RetMode.compliance.text then .ok .compliance
    else .error Err.errUnknownWORMModeDirective
  if mode.valid && date == Time.zero then .error Err.errMalformedXML
  else if !mode.valid && date != Time.zero then .error Err.errMalformedXML
  else match now with
    | none => .error Err.errPastObjectLockRetainDate
    | some t =>
      if date != Time.zero && date < t then .error Err.errPastObjectLockRetainDate
      else .ok ⟨mode, date⟩

/-! ## Object metadata -/

/-- A metadata entry, under the lower-case name of its header and under the canonical one. -/
structure MetaEntry (α : Type) where
  lower : Option α := none
  canonical : Option α := none
deriving DecidableEq, Repr

/-- `v, ok := meta[strings.ToLower(name)]; if !ok { v, ok = meta[name] }`. -/
def MetaEntry.get? {α : Type} (e : MetaEntry α) : Option α := e.lower <|> e.canonical

@[simp] theorem MetaEntry.get?_lower {α : Type} (v : α) (c : Option α) : MetaEntry.get? ⟨some v, c⟩ = some v := rfl

/-- The object-lock entries of `ObjectInfo.UserDefined`. -/
structure UserDefined where
  mode : MetaEntry String := {}
  retainUntilDate : MetaEntry DateText := {}
  legalHold : MetaEntry String := {}
deriving DecidableEq, Repr

/-- `GetObjectRetentionMeta`. A date that cannot be read is the zero time. -/
def getObjectRetentionMeta (userDefined : UserDefined) : ObjectRetention :=
  match userDefined.mode.get? with
  | none => {}
  | some modeStr =>
    ⟨parseRetMode modeStr, (userDefined.retainUntilDate.get?.bind id).getD Time.zero⟩

def getObjectLegalHoldMeta (userDefined : UserDefined) : ObjectLegalHold :=
  match userDefined.legalHold.get? with
  | none => {}
  | some holdStr => ⟨parseLegalHoldStatus holdStr⟩

end Otterio
