import Otterio.Lib.Go

/-!
# Wildcards and condition functions

`pkg/wildcard/match.go` and `pkg/bucket/policy/condition`: the condition keys, policy variables, the
23 condition functions with their evaluation, their text and the copy that `Functions.Clone` makes.

* A call that may panic returns `none`. Three do: a `?` of a simple pattern against an empty rest
  (`deepMatchRune`), a policy variable whose key is present without a value
  (`substFuncFromValues`), and an IP condition on a text that is not an IP address.
* `PolicyLib` holds the functions of the standard library and of the SDK that the code calls and
  whose definition is not part of the repository.
* A nil `Function` is the `none` of `Option (Function IPNet)`: `Functions.Clone` stores one when the
  constructor returns an error.
-/

namespace Otterio

/-! ## Wildcards -/

/-- The `*` case of `deepMatchRune`: `rest` is the match of the pattern after the star. -/
def matchStar (rest : List Char → Option Bool) : List Char → Option Bool
  | [] => rest []
  | c :: str => do if ← rest (c :: str) then return true else matchStar rest str

/-- `deepMatchRune`. In simple mode a `?` still drops a character, and panics when there is none. -/
def deepMatchRune (simple : Bool) : List Char → List Char → Option Bool
  | [], str => some str.isEmpty
  | p :: pattern, str =>
    if p = '*' then matchStar (deepMatchRune simple pattern) str
    else match str with
      | [] => if p = '?' && simple then none else some false
      | c :: str => if p = '?' || c = p then deepMatchRune simple pattern str else some false

def matchSimple (pattern name : String) : Option Bool :=
  if pattern = "" then some (name == pattern)
  else if pattern = "*" then some true
  else deepMatchRune true pattern.toList name.toList

/-- `wildcard.Match(pattern, name)`, which never panics (`deepMatchRune_extended`). -/
def wildcardMatch (pattern name : String) : Bool :=
  if pattern = "" then name == pattern
  else if pattern = "*" then true
  else (deepMatchRune false pattern.toList name.toList).getD false

theorem matchStar_isSome {rest : List Char → Option Bool} (h : ∀ str, (rest str).isSome) :
    ∀ str, (matchStar rest str).isSome
  | [] => h []
  | c :: str => by
    obtain ⟨b, hb⟩ := Option.isSome_iff_exists.mp (h (c :: str))
    cases b with
    | true => simp [matchStar, hb]
    | false => simpa [matchStar, hb] using matchStar_isSome h str

theorem deepMatchRune_extended : ∀ pattern str, (deepMatchRune false pattern str).isSome
  | [], _ => rfl
  | p :: pattern, str => by
    have ih := deepMatchRune_extended pattern
    unfold deepMatchRune
    split
    · exact matchStar_isSome ih str
    · cases str with
      | nil => simp
      | cons c str =>
        dsimp only
        split
        · exact ih str
        · rfl

/-! ## Keys -/

abbrev Key := String

namespace Key

/-- `Key.Name`: the key without its prefix. -/
def name (key : Key) : String :=
  if hasPrefix key "aws:" then trimPrefix key "aws:"
  else if hasPrefix key "jwt:" then trimPrefix key "jwt:"
  else if hasPrefix key "ldap:" then trimPrefix key "ldap:"
  else trimPrefix key "s3:"

/-- `Key.VarName`, such as `${aws:username}`. -/
def varName (key : Key) : String := "$\x7b" ++ key ++ "\x7d"

def s3XAmzCopySource : Key := "s3:x-amz-copy-source"
def s3XAmzServerSideEncryption : Key := "s3:x-amz-server-side-encryption"
def s3XAmzServerSideEncryptionCustomerAlgorithm : Key := "s3:x-amz-server-side-encryption-customer-algorithm"
def s3XAmzMetadataDirective : Key := "s3:x-amz-metadata-directive"
def s3XAmzContentSha256 : Key := "s3:x-amz-content-sha256"
def s3LocationConstraint : Key := "s3:LocationConstraint"
def s3SignatureVersion : Key := "s3:signatureversion"
def s3AuthType : Key := "s3:authType"
def awsReferer : Key := "aws:Referer"
def awsSourceIP : Key := "aws:SourceIp"
def awsUserAgent : Key := "aws:UserAgent"
def awsSecureTransport : Key := "aws:SecureTransport"
def awsCurrentTime : Key := "aws:CurrentTime"
def awsEpochTime : Key := "aws:EpochTime"
def awsPrincipalType : Key := "aws:principaltype"
def awsUserID : Key := "aws:userid"
def awsUsername : Key := "aws:username"
def ldapUser : Key := "ldap:user"

def jwtKeys : List Key :=
  ["jwt:sub", "jwt:iss", "jwt:aud", "jwt:jti", "jwt:name", "jwt:upn", "jwt:groups",
    "jwt:given_name", "jwt:family_name", "jwt:middle_name", "jwt:nickname",
    "jwt:preferred_username", "jwt:profile", "jwt:picture", "jwt:website", "jwt:email",
    "jwt:gender", "jwt:birthdate", "jwt:phone_number", "jwt:address", "jwt:scope",
    "jwt:client_id"]

/-- `CommonKeys`: the keys that may be used as policy variables. -/
def commonKeys : List Key :=
  [s3SignatureVersion, s3AuthType, s3XAmzContentSha256, s3LocationConstraint, awsReferer,
    awsSourceIP, awsUserAgent, awsSecureTransport, awsCurrentTime, awsEpochTime, awsPrincipalType,
    awsUserID, awsUsername, ldapUser] ++ jwtKeys

def tagConditionKeyPrefixes : List Key := ["s3:ExistingObjectTag/", "s3:RequestObjectTag/"]

def allSupportedKeys : List Key :=
  [s3SignatureVersion, s3AuthType, s3XAmzCopySource, s3XAmzServerSideEncryption,
    s3XAmzServerSideEncryptionCustomerAlgorithm, s3XAmzMetadataDirective,
    "s3:x-amz-storage-class", s3XAmzContentSha256, s3LocationConstraint, "s3:prefix",
    "s3:delimiter", "s3:max-keys", "s3:versionid", "s3:object-lock-remaining-retention-days",
    "s3:object-lock-mode", "s3:object-lock-legal-hold", "s3:object-lock-retain-until-date",
    "s3:ExistingObjectTag/", "s3:RequestObjectTag/", awsReferer, awsSourceIP, awsUserAgent,
    awsSecureTransport, awsCurrentTime, awsEpochTime, awsPrincipalType, awsUserID, awsUsername,
    ldapUser] ++ jwtKeys

def isValid (key : Key) : Bool :=
  !tagConditionKeyPrefixes.contains key &&
    (allSupportedKeys.contains key || tagConditionKeyPrefixes.any fun pre => hasPrefix key pre)

end Key

/-- A `time.Time` of a date condition: the instant, and the text of `Format(time.RFC3339)`, which
has no fraction of a second. -/
structure DateValue where
  instant : Time
  text : String
deriving DecidableEq, Repr

/-- The functions of the standard library and the SDK used by the policy code. -/
structure PolicyLib (IP IPNet : Type) where
  parseIP : String → Option IP
  parseCIDR : String → Option IPNet
  /-- `IPNet.String`. -/
  netText : IPNet → String
  contains : IPNet → IP → Bool
  /-- `time.Parse(time.RFC3339, s)`. -/
  parseTime : String → Option DateValue
  atoi : String → Option Int
  equalFold : String → String → Bool
  /-- `base64.StdEncoding.EncodeToString`. -/
  encodeBase64 : String → String
  /-- `base64.StdEncoding.DecodeString`. -/
  decodeBase64 : String → Option String
  /-- `s3utils.CheckValidBucketName` returns no error. -/
  validBucketName : String → Bool
  pathClean : String → String

/-- A library that knows the loopback address and no other text. -/
def loopbackLib : PolicyLib Unit Unit where
  parseIP s := if s = "127.0.0.1" then some () else none
  parseCIDR _ := none
  netText _ := ""
  contains _ _ := true
  parseTime _ := none
  atoi _ := none
  equalFold s t := s == t
  encodeBase64 s := s
  decodeBase64 s := some s
  validBucketName _ := true
  pathClean s := s

/-- The texts that `strconv.ParseBool` accepts. -/
def boolTexts : List String := ["1", "t", "T", "true", "TRUE", "True", "0", "f", "F", "false", "FALSE", "False"]

/-! ## Functions -/

inductive StringOp where
  | stringEquals | stringNotEquals | stringEqualsIgnoreCase | stringNotEqualsIgnoreCase
  | binaryEquals | stringLike | stringNotLike
deriving DecidableEq, Repr

inductive NumericOp where
  | numericEquals | numericNotEquals | numericLessThan | numericLessThanEquals
  | numericGreaterThan | numericGreaterThanEquals
deriving DecidableEq, Repr

inductive DateOp where
  | dateEquals | dateNotEquals | dateLessThan | dateLessThanEquals
  | dateGreaterThan | dateGreaterThanEquals
deriving DecidableEq, Repr

/-- `condition.Function`: the implementations of the interface. The key of an IP condition is always
`aws:SourceIp`, which its constructor checks. -/
inductive Function (IPNet : Type) where
  | string (op : StringOp) (k : Key) (values : GoSet String)
  | ipAddress (values : List IPNet)
  | notIPAddress (values : List IPNet)
  | null (k : Key) (value : Bool)
  | boolean (k : Key) (value : String)
  | numeric (op : NumericOp) (k : Key) (value : Int)
  | date (op : DateOp) (k : Key) (value : DateValue)

abbrev Functions (IPNet : Type) := List (Option (Function IPNet))

/-- The values of a request, `map[string][]string`. -/
abbrev Values := String → Option (List String)

namespace StringOp

def name : StringOp → String
  | stringEquals => "StringEquals"
  | stringNotEquals => "StringNotEquals"
  | stringEqualsIgnoreCase => "StringEqualsIgnoreCase"
  | stringNotEqualsIgnoreCase => "StringNotEqualsIgnoreCase"
  | binaryEquals => "BinaryEquals"
  | stringLike => "StringLike"
  | stringNotLike => "StringNotLike"

/-- The comparison of a condition value with a request value. -/
def compare {IP IPNet : Type} (lib : PolicyLib IP IPNet) : StringOp → String → String → Bool
  | stringEquals | stringNotEquals | binaryEquals => (· == ·)
  | stringEqualsIgnoreCase | stringNotEqualsIgnoreCase => lib.equalFold
  | stringLike | stringNotLike => wildcardMatch

/-- The function is the negation of another one. -/
def negated : StringOp → Bool
  | stringNotEquals | stringNotEqualsIgnoreCase | stringNotLike => true
  | _ => false

end StringOp

namespace NumericOp

def name : NumericOp → String
  | numericEquals => "NumericEquals"
  | numericNotEquals => "NumericNotEquals"
  | numericLessThan => "NumericLessThan"
  | numericLessThanEquals => "NumericLessThanEquals"
  | numericGreaterThan => "NumericGreaterThan"
  | numericGreaterThanEquals => "NumericGreaterThanEquals"

/-- The result on a request value, `none` when it is absent or not a number. -/
def holds (rv : Option Int) (value : Int) : NumericOp → Bool
  | numericEquals => rv.any (value == ·)
  | numericNotEquals => !rv.any (value == ·)
  | numericLessThan => rv.any (· < value)
  | numericLessThanEquals => rv.any (· ≤ value)
  | numericGreaterThan => rv.any (· > value)
  | numericGreaterThanEquals => rv.any (· ≥ value)

end NumericOp

namespace DateOp

def name : DateOp → String
  | dateEquals => "DateEquals"
  | dateNotEquals => "DateNotEquals"
  | dateLessThan => "DateLessThan"
  | dateLessThanEquals => "DateLessThanEquals"
  | dateGreaterThan => "DateGreaterThan"
  | dateGreaterThanEquals => "DateGreaterThanEquals"

/-- The name that `String()` prints, which for the two inclusive comparisons is another one. -/
def printedName : DateOp → String
  | dateLessThanEquals | dateGreaterThanEquals => dateNotEquals.name
  | op => op.name

/-- The result on a request value, `none` when it is absent or not a date. -/
def holds (t : Option Time) (value : Time) : DateOp → Bool
  | dateEquals => t.any (value == ·)
  | dateNotEquals => !t.any (value == ·)
  | dateLessThan => t.any (· < value)
  | dateLessThanEquals => t.any fun t => t < value || t == value
  | dateGreaterThan => t.any (· > value)
  | dateGreaterThanEquals => t.any fun t => t > value || t == value

end DateOp

/-! ## Evaluation -/

/-- One round of the loop of `substFuncFromValues`. -/
def substKey (values : Values) (v : String) (key : Key) : Option String :=
  match values key.name with
  | none => some v
  | some [] => none
  | some (rvalue :: _) => some (if rvalue = "" then v else replaceAll v key.varName rvalue)

def substFuncFromValues (values : Values) (v : String) : Option String := Key.commonKeys.foldlM (substKey values) v

namespace Function

variable {IP IPNet : Type} (lib : PolicyLib IP IPNet)

/-- The values that a function on key `k` reads: those under the canonical spelling of the name, or
else those under the name. -/
def requestValue (values : Values) (k : Key) : List String :=
  match values (canonicalHeaderKey k.name) with
  | some vs => vs
  | none => (values k.name).getD []

def key : Function IPNet → Key
  | string _ k _ | null k _ | boolean k _ | numeric _ k _ | date _ k _ => k
  | ipAddress _ | notIPAddress _ => Key.awsSourceIP

def evaluateString (op : StringOp) (k : Key) (fvalues : GoSet String) (values : Values) : Option Bool := do
  let fvalues ← fvalues.elems.mapM (substFuncFromValues values)
  return ((requestValue values k).any fun v => fvalues.any fun fv => op.compare lib fv v)
    != op.negated

def evaluateIPAddress (nets : List IPNet) (values : Values) : Option Bool := do
  let ips ← (requestValue values Key.awsSourceIP).mapM lib.parseIP
  return ips.any fun ip => nets.any fun net => lib.contains net ip

def evaluate (f : Function IPNet) (values : Values) : Option Bool :=
  match f with
  | string op k fvalues => evaluateString lib op k fvalues values
  | ipAddress nets => evaluateIPAddress lib nets values
  | notIPAddress nets => (!·) <$> evaluateIPAddress lib nets values
  | null k value =>
    some (if value then (requestValue values k).isEmpty else !(requestValue values k).isEmpty)
  | boolean k value => some ((requestValue values k).head?.any (value == ·))
  | numeric op k value => some (op.holds ((requestValue values k).head?.bind lib.atoi) value)
  | date op k value =>
    some (op.holds (((requestValue values k).head?.bind lib.parseTime).map (·.instant))
      value.instant)

/-! ## Text and copies -/

/-- `fmt.Sprintf("%v", l)`. -/
def sliceText (l : List String) : String := "[" ++ " ".intercalate l ++ "]"

/-- `fmt.Sprintf("%v:%v:%v", n, key, value)`. -/
def funcText (n : String) (k : Key) (value : String) : String := n ++ ":" ++ k ++ ":" ++ value

def text : Function IPNet → String
  | string op k values => funcText op.name k (sliceText (toSlice values))
  | ipAddress nets =>
    funcText "IpAddress" Key.awsSourceIP (sliceText (sortStrings (nets.map lib.netText)))
  | notIPAddress nets =>
    funcText "NotIpAddress" Key.awsSourceIP (sliceText (sortStrings (nets.map lib.netText)))
  | null k value => funcText "Null" k (toString value)
  | boolean k value => funcText "Bool" k value
  | numeric op k value => funcText op.name k (toString value)
  | date op k value => funcText op.printedName k value.text

def path2BucketAndObject (path : String) : String × String :=
  match splitN2 '/' (trimPrefix path "/") with
  | bucket :: object :: _ => (bucket, object)
  | [bucket] => (bucket, "")
  | [] => ("", "")

/-- A value is accepted for `x-amz-copy-source`. -/
def validCopySource (s : String) : Bool :=
  let (bucket, object) := path2BucketAndObject s
  object != "" && lib.validBucketName bucket

/-- The check of one value in `validateStringEqualsValues` and `validateBinaryEqualsValues`. -/
def validEqualsValue (k : Key) (s : String) : Bool :=
  if k = Key.s3XAmzCopySource then validCopySource lib s
  else if k = Key.s3XAmzServerSideEncryption ∨ k = Key.s3XAmzServerSideEncryptionCustomerAlgorithm then s == "AES256"
  else if k = Key.s3XAmzMetadataDirective then s == "COPY" || s == "REPLACE"
  else if k = Key.s3XAmzContentSha256 then s != ""
  else true

/-- The check of one value in `validateStringLikeValues`. -/
def validLikeValue (k : Key) (s : String) : Bool :=
  if k = Key.s3XAmzCopySource then validCopySource lib s else true

/-- `validateBinaryEqualsValues`, which replaces each value of the set by what it encodes. -/
def decodeBinaryValues (k : Key) (values : GoSet String) : Option (List String) :=
  (toSlice values).foldlM (fun acc s => do
    let d ← lib.decodeBase64 s
    if validEqualsValue lib k d then return (acc.erase s).insert d else none) values.elems

/-- The constructor of the functions on strings, applied to the values of `toMap`. -/
def newStringFunc (op : StringOp) (k : Key) (values : GoSet String) : Option (Function IPNet) :=
  match op with
  | .binaryEquals => do
    let values ← decodeBinaryValues lib k (.ofList (values.elems.map lib.encodeBase64))
    return string .binaryEquals k (.ofList values)
  | .stringLike | .stringNotLike =>
    if values.elems.all (validLikeValue lib k) then some (string op k values) else none
  | _ => if values.elems.all (validEqualsValue lib k) then some (string op k values) else none

/-- `valuesToIPNets` of the texts of the networks, without repetition. -/
def reparseNets (nets : List IPNet) : Option (List IPNet) := (nets.map lib.netText).dedup.mapM lib.parseCIDR

/-- `vfn(key, values)` in `Functions.Clone`: the function built anew from its map. `none` is the nil
function that stands for an error. -/
def rebuild : Function IPNet → Option (Function IPNet)
  | string op k values => newStringFunc lib op k values
  | ipAddress nets => (reparseNets lib nets).map ipAddress
  | notIPAddress nets => (reparseNets lib nets).map notIPAddress
  | null k value => some (null k value)
  | boolean k value =>
    if k = Key.awsSecureTransport ∧ value ∈ boolTexts then some (boolean k value) else none
  | numeric op k value => some (numeric op k value)
  | date op k value => (lib.parseTime value.text).map (date op k)

end Function

namespace Functions

variable {IP IPNet : Type} (lib : PolicyLib IP IPNet)

def evaluate (functions : Functions IPNet) (values : Values) : Option Bool :=
  functions.allM fun f => f.bind fun f => f.evaluate lib values

/-- `Functions.Clone`. A function whose key is not valid has no map and is left out; a nil function
panics. -/
def clone (functions : Functions IPNet) : Option (Functions IPNet) := do
  let cloned ← functions.mapM fun f =>
    f.map fun f => if f.key.isValid then [f.rebuild lib] else []
  return cloned.flatten

/-- `Functions.Equals`: equal lengths, and the text of each function is the text of one of `funcs`.
A nil function panics when it is reached. -/
def equals (functions funcs : Functions IPNet) : Option Bool :=
  if functions.length ≠ funcs.length then some false
  else functions.allM fun fi => do
    let fistr ← fi.map (Function.text lib)
    funcs.anyM fun fj => fj.map fun fj => fistr == fj.text lib

end Functions

end Otterio
