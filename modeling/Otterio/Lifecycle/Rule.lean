import Otterio.Lib.Go

/-!
# Lifecycle rules

`pkg/bucket/lifecycle`: the elements of a lifecycle configuration with their validation, and the filter that
tells which rules act on an object (`FilterActionableRules`).

* An element that was read from XML is `set`. `Validate` does not look at an element that is not.
* Errors are their texts.
* `LifecycleLib` holds the functions of the standard library: the parser of the tags of an object, the
  validity of UTF-8, `time.Time.AddDate` for days, and the random UUIDs of `validateID`.
-/

namespace Otterio.BucketLifecycle

/-- Functions of the standard library and of the UUID package. -/
structure LifecycleLib where
  /-- `url.ParseQuery`: the values of each key. -/
  parseQuery : String → Option (List (String × List String))
  validString : String → Bool
  /-- `t.AddDate(0, 0, days)`. -/
  addDays : Time → Int → Time
  newRandom : Except String String

/-! ## Elements -/

structure PrefixElem where
  string : String
  set : Bool
deriving DecidableEq, Repr

structure Tag where
  key : String
  value : String
deriving DecidableEq, Repr

structure AndElem where
  prefixElem : PrefixElem
  tags : List Tag
deriving DecidableEq, Repr

structure Filter where
  set : Bool
  prefixElem : PrefixElem
  andElem : AndElem
  tag : Tag
deriving DecidableEq, Repr

/-- `Expiration`; `deleteMarker` is the value of `ExpiredObjectDeleteMarker`. -/
structure Expiration where
  days : Int
  date : Time
  deleteMarker : Bool
  deleteMarkerSet : Bool
  set : Bool
deriving DecidableEq, Repr

structure Transition where
  days : Int
  date : Time
  storageClass : String
  set : Bool
deriving DecidableEq, Repr

structure NoncurrentVersionExpiration where
  noncurrentDays : Int
  set : Bool
deriving DecidableEq, Repr

structure NoncurrentVersionTransition where
  noncurrentDays : Int
  storageClass : String
  set : Bool
deriving DecidableEq, Repr

structure Rule where
  id : String
  status : String
  filter : Filter
  prefixElem : PrefixElem
  expiration : Expiration
  transition : Transition
  noncurrentVersionExpiration : NoncurrentVersionExpiration
  noncurrentVersionTransition : NoncurrentVersionTransition
deriving DecidableEq, Repr

structure Lifecycle where
  rules : List Rule
deriving DecidableEq, Repr

/-! ## Validation -/

def errLifecycleTooManyRules : String := "Lifecycle configuration allows a maximum of 1000 rules"
def errLifecycleNoRule : String := "Lifecycle configuration should have at least one rule"
def errLifecycleDuplicateID : String := "Lifecycle configuration has rule with the same ID. Rule ID must be unique."
def errXMLNotWellFormed : String :=
  "The XML you provided was not well-formed or did not validate against our published schema"
def errLifecycleInvalidExpiration : String :=
  "Exactly one of Days (positive integer) or Date (positive ISO 8601 format) should be present inside Expiration."
def errLifecycleInvalidDeleteMarker : String :=
  "Delete marker cannot be specified with Days or Date in a Lifecycle Expiration Policy"
def errTransitionInvalid : String :=
  "Exactly one of Days (0 or greater) or Date (positive ISO 8601 format) should be present inside Expiration."
def errInvalidFilter : String := "Filter must have exactly one of Prefix, Tag, or And specified"
def errInvalidTagKey : String := "The TagKey you have provided is invalid"
def errInvalidTagValue : String := "The TagValue you have provided is invalid"
def errDuplicateTagKey : String := "Duplicate Tag Keys are not allowed"
def errInvalidRuleID : String := "ID length is limited to 255 characters"
def errEmptyRuleStatus : String := "Status should not be empty"
def errInvalidRuleStatus : String := "Status must be set to either Enabled or Disabled"

namespace Expiration

def isDaysNull (e : Expiration) : Bool := e.days == 0
def isDateNull (e : Expiration) : Bool := e.date == Time.zero

/-- `Validate`: an element that is not set is not looked at. -/
def validate (e : Expiration) : Option String :=
  if !e.set then none
  else if (!e.isDaysNull || !e.isDateNull) && e.deleteMarkerSet then some errLifecycleInvalidDeleteMarker
  else if !e.deleteMarkerSet && e.isDaysNull && e.isDateNull then some errXMLNotWellFormed
  else if !e.isDaysNull && !e.isDateNull then some errLifecycleInvalidExpiration
  else none

end Expiration

namespace Transition

def isDaysNull (t : Transition) : Bool := t.days == 0
def isDateNull (t : Transition) : Bool := t.date == Time.zero

def validate (t : Transition) : Option String :=
  if !t.set then none
  else if t.isDaysNull && t.isDateNull then some errXMLNotWellFormed
  else if !t.isDaysNull && !t.isDateNull then some errTransitionInvalid
  else if t.storageClass = "" then some errXMLNotWellFormed
  else none

end Transition

namespace NoncurrentVersionExpiration

def isDaysNull (n : NoncurrentVersionExpiration) : Bool := n.noncurrentDays == 0

def validate (n : NoncurrentVersionExpiration) : Option String :=
  if !n.set then none else if n.noncurrentDays ≤ 0 then some errXMLNotWellFormed else none

end NoncurrentVersionExpiration

namespace NoncurrentVersionTransition

def isDaysNull (n : NoncurrentVersionTransition) : Bool := n.noncurrentDays == 0

def validate (n : NoncurrentVersionTransition) : Option String :=
  if !n.set then none
  else if n.noncurrentDays ≤ 0 || n.storageClass == "" then some errXMLNotWellFormed
  else none

end NoncurrentVersionTransition

namespace Tag

def isEmpty (tag : Tag) : Bool := tag.key == ""

def validate (tag : Tag) : Option String :=
  if tag.key.utf8ByteSize = 0 || tag.key.length > 128 then some errInvalidTagKey
  else if tag.value.length > 256 then some errInvalidTagValue
  else none

end Tag

namespace AndElem

def isEmpty (a : AndElem) : Bool := a.tags.isEmpty && !a.prefixElem.set

def validate (a : AndElem) : Option String :=
  let emptyPrefix := !a.prefixElem.set
  let emptyTags := a.tags.isEmpty
  if emptyPrefix && emptyTags then none
  else if emptyPrefix && !emptyTags || !emptyPrefix && emptyTags then some errXMLNotWellFormed
  else if ¬ (a.tags.map Tag.key).Nodup then some errDuplicateTagKey
  else a.tags.findSome? Tag.validate

end AndElem

namespace Filter

def isEmpty (f : Filter) : Bool := !f.set

def validate (f : Filter) : Option String :=
  if f.isEmpty then some errXMLNotWellFormed
  else if !f.andElem.isEmpty && f.prefixElem.set then some errInvalidFilter
  else if !f.andElem.isEmpty && !f.tag.isEmpty then some errInvalidFilter
  else
    match (if f.andElem.isEmpty then none else f.andElem.validate) with
    | some err => some err
    | none =>
      if f.prefixElem.set && !f.tag.isEmpty then some errInvalidFilter
      else if f.tag.isEmpty then none
      else f.tag.validate

def testTags (lib : LifecycleLib) (f : Filter) (tags : List String) : Bool :=
  if f.andElem.tags.isEmpty && f.tag.isEmpty then true
  else if tags.any fun tag => !tag.toList.contains '=' then false
  else
    match lib.parseQuery ("&".intercalate tags) with
    | none => false
    | some values =>
      if values.any fun (key, value) =>
          key == "" || !lib.validString key || value.length != 1 || !(value.all lib.validString) then false
      else
        let isMatch (tag : Tag) : Bool := tag.isEmpty || values.lookup tag.key == some [tag.value]
        f.andElem.tags.all isMatch && isMatch f.tag

end Filter

namespace Rule

/-- `validateID`. The new id is written to a copy of the rule. -/
def validateID (lib : LifecycleLib) (r : Rule) : Option String :=
  if r.id.utf8ByteSize = 0 then
    match lib.newRandom with
    | .ok _ => none
    | .error err => some err
  else if r.id.utf8ByteSize > 255 then some errInvalidRuleID
  else none

def validateStatus (r : Rule) : Option String :=
  if r.status = "" then some errEmptyRuleStatus
  else if r.status ≠ "Enabled" ∧ r.status ≠ "Disabled" then some errInvalidRuleStatus
  else none

def validatePrefixAndFilter (r : Rule) : Option String :=
  if !r.prefixElem.set && r.filter.isEmpty || r.prefixElem.set && !r.filter.isEmpty then
    some errXMLNotWellFormed
  else if !r.prefixElem.set then r.filter.validate
  else none

def getPrefix (r : Rule) : String :=
  if r.prefixElem.string ≠ "" then r.prefixElem.string
  else if r.filter.prefixElem.string ≠ "" then r.filter.prefixElem.string
  else r.filter.andElem.prefixElem.string

def validate (lib : LifecycleLib) (r : Rule) : Option String :=
  (r.validateID lib).or <| r.validateStatus.or <| r.expiration.validate.or <|
    r.noncurrentVersionExpiration.validate.or <| r.validatePrefixAndFilter.or <| r.transition.validate.or <|
    r.noncurrentVersionTransition.validate.or <|
    if !r.expiration.set && !r.transition.set && !r.noncurrentVersionExpiration.set &&
        !r.noncurrentVersionTransition.set then some errXMLNotWellFormed else none

end Rule

def Lifecycle.validate (lib : LifecycleLib) (lc : Lifecycle) : Option String :=
  if lc.rules.length > 1000 then some errLifecycleTooManyRules
  else if lc.rules.length = 0 then some errLifecycleNoRule
  else (lc.rules.findSome? (Rule.validate lib)).or <|
    if (lc.rules.map Rule.id).Nodup then none else some errLifecycleDuplicateID

/-! ## Objects -/

structure ObjectOpts where
  name : String
  userTags : String
  modTime : Time
  versionID : String
  isLatest : Bool
  deleteMarker : Bool
  numVersions : Int
  successorModTime : Time
  transitionStatus : String
  restoreOngoing : Bool
  restoreExpires : Time
deriving DecidableEq, Repr

def ObjectOpts.expiredObjectDeleteMarker (o : ObjectOpts) : Bool := o.deleteMarker && o.numVersions == 1

/-- The test of `FilterActionableRules` for one rule. -/
def Rule.actionable (lib : LifecycleLib) (obj : ObjectOpts) (rule : Rule) : Bool :=
  rule.status != "Disabled" && hasPrefix obj.name rule.getPrefix &&
    rule.filter.testTags lib ((obj.userTags.toList.splitOn '&').map String.ofList)

def Lifecycle.filterActionableRules (lib : LifecycleLib) (lc : Lifecycle) (obj : ObjectOpts) : List Rule :=
  if obj.name = "" then [] else lc.rules.filter (Rule.actionable lib obj)

/-- A rule of a valid configuration has no Expiration with days and a date, if that was read from XML. -/
theorem Lifecycle.validate_expiration {lib : LifecycleLib} {lc : Lifecycle} (h : lc.validate lib = none)
    {rule : Rule} (hr : rule ∈ lc.rules) (hset : rule.expiration.set = true) :
    rule.expiration.isDaysNull = true ∨ rule.expiration.isDateNull = true := by
  have hrules : lc.rules.findSome? (Rule.validate lib) = none := by
    unfold validate at h
    by_cases hmany : lc.rules.length > 1000
    · rw [if_pos hmany] at h
      cases h
    by_cases hnone : lc.rules.length = 0
    · rw [if_neg hmany, if_pos hnone] at h
      cases h
    rw [if_neg hmany, if_neg hnone] at h
    exact (Option.or_eq_none_iff.mp h).1
  have hrule : rule.validate lib = none := List.findSome?_eq_none_iff.mp hrules rule hr
  have hexp : rule.expiration.validate = none := by
    unfold Rule.validate at hrule
    simp only [Option.or_eq_none_iff] at hrule
    exact hrule.2.2.1
  unfold Expiration.validate at hexp
  rw [hset] at hexp
  by_contra hboth
  rw [not_or, Bool.not_eq_true, Bool.not_eq_true] at hboth
  rw [hboth.1, hboth.2] at hexp
  cases hmarker : rule.expiration.deleteMarkerSet <;> simp [hmarker] at hexp

def untaggedLib : LifecycleLib where
  parseQuery _ := some []
  validString _ := true
  addDays t days := t + days * (86400 * 1000000000)
  newRandom := .ok "uuid"

/-- A rule for all objects that does nothing. -/
def idleRule (id : String) : Rule where
  id
  status := "Enabled"
  filter := ⟨false, ⟨"", false⟩, ⟨⟨"", false⟩, []⟩, ⟨"", ""⟩⟩
  prefixElem := ⟨"", true⟩
  expiration := ⟨0, Time.zero, false, false, false⟩
  transition := ⟨0, Time.zero, "", false⟩
  noncurrentVersionExpiration := ⟨0, false⟩
  noncurrentVersionTransition := ⟨0, "", false⟩

def plainObject : ObjectOpts where
  name := "photo"
  userTags := ""
  modTime := 0
  versionID := ""
  isLatest := true
  deleteMarker := false
  numVersions := 1
  successorModTime := Time.zero
  transitionStatus := ""
  restoreOngoing := false
  restoreExpires := Time.zero

end Otterio.BucketLifecycle
