import Otterio.Lib.Rules
import Otterio.Policy.Condition

/-!
# Statements and policies

`pkg/bucket/policy` and `pkg/iam/policy`. The two packages hold the same `Policy` code over different
statements, so a `PolicyKind` says what a statement is (`bucketPolicy`, `iamPolicy`), and the policy
functions are defined once: `Policy.isAllowed`, `Policy.merge`, `dropDuplicateStatements` and the
end of `Policy.unmarshalJSON`, after the document has been decoded and found valid.

A call that panics returns `none`.
-/

namespace Otterio

/-! ## Policies -/

/-- What the policy code asks of a statement and of a request. `hits` is the closure `check` of
`Statement.IsAllowed`, and `byDefault` says that `IsAllowed` answers true before it comes to the
allowing statements. -/
structure PolicyKind (St Args : Type) extends Rules.Kind St Args where
  equals : St → St → Option Bool
  clone : St → Option St
  effect_clone : ∀ {st c}, clone st = some c → effect c = effect st

structure Policy (St : Type) where
  id : String := ""
  version : String := ""
  statements : List St

section Policy

variable {St Args : Type}

def statementIsAllowed (K : PolicyKind St Args) (st : St) (args : Args) : Option Bool :=
  (K.effect st).isAllowed <$> K.hits st args

def Policy.isAllowed (K : PolicyKind St Args) (policy : Policy St) (args : Args) : Option Bool := do
  let denied ← policy.statements.anyM fun st =>
    if K.effect st = .deny then (!·) <$> statementIsAllowed K st args else some false
  if denied then return false
  if K.byDefault args then return true
  policy.statements.anyM fun st =>
    if K.effect st = .allow then statementIsAllowed K st args else some false

/-- The inner loop of `dropDuplicateStatements`: the index of the first statement of a sub-slice
that equals `st`. -/
def indexOfEqual (equals : St → St → Option Bool) (st : St) : List St → Option (Option Nat)
  | [] => some none
  | statement :: rest => do
    if ← equals st statement then return some 0
    return (← indexOfEqual equals st rest).map (· + 1)

/-- The two loops of `dropDuplicateStatements` up to the deletion: for the first statement that is
repeated, the index `j` of its repetition. The sub-slice `Statements[i+1:]` is where `j` counts
from. -/
def findDuplicate (equals : St → St → Option Bool) : List St → Option (Option Nat)
  | [] => some none
  | st :: rest => do
    match ← indexOfEqual equals st rest with
    | some j => return some j
    | none => findDuplicate equals rest

/-- The rounds of `dropDuplicateStatements`. The deletion takes index `j` of the whole slice. -/
def dropRounds (equals : St → St → Option Bool) : Nat → List St → Option (List St)
  | 0, statements => some statements
  | fuel + 1, statements => do
    match ← findDuplicate equals statements with
    | none => return statements
    | some j => dropRounds equals fuel (statements.eraseIdx j)

/-- `dropDuplicateStatements`. Every round deletes a statement, so that their number is enough
fuel (`noRepetition_dropRounds`). -/
def dropDuplicateStatements (equals : St → St → Option Bool) (statements : List St) : Option (List St) :=
  dropRounds equals statements.length statements

def Policy.merge (K : PolicyKind St Args) (policy input : Policy St) : Option (Policy St) :=
  let version := if policy.version ≠ "" then policy.version else input.version
  ((policy.statements ++ input.statements).mapM K.clone).bind fun clones =>
    (dropDuplicateStatements K.equals clones).map fun statements => { version, statements }

end Policy

structure Resource where
  bucketName : String
  pattern : String
deriving DecidableEq, Repr

def resourceText (bucketName objectName : String) : String :=
  if objectName = "" then bucketName
  else if hasPrefix objectName "/" then bucketName ++ objectName
  else bucketName ++ "/" ++ objectName

/-! ## Bucket policies -/

namespace BucketPolicy

variable {IP IPNet : Type} (lib : PolicyLib IP IPNet)

structure Statement (IPNet : Type) where
  sid : String := ""
  effect : Effect
  principal : GoSet String
  actions : GoSet String
  resources : GoSet Resource
  conditions : Functions IPNet := []

/-- `policy.Args`, without the groups. -/
structure Args where
  accountName : String := ""
  action : String
  bucketName : String
  conditionValues : Values := fun _ => none
  isOwner : Bool := false
  objectName : String := ""

def principalMatch (aws : GoSet String) (principal : String) : Option Bool :=
  (toSlice aws).anyM fun pattern => matchSimple pattern principal

def resourceMatch (r : Resource) (resource : String) (values : Values) : Option Bool := do
  return wildcardMatch (← substFuncFromValues values r.pattern) resource

def resourceSetMatch (resources : GoSet Resource) (resource : String) (values : Values) : Option Bool :=
  resources.elems.anyM fun r => resourceMatch r resource values

/-- The closure `check` of `Statement.IsAllowed`. -/
def check (statement : Statement IPNet) (args : Args) : Option Bool := do
  if !(← principalMatch statement.principal args.accountName) then return false
  if !statement.actions.contains args.action then return false
  let resource := resourceText args.bucketName args.objectName
  if !(← resourceSetMatch statement.resources resource args.conditionValues) then return false
  statement.conditions.evaluate lib args.conditionValues

def equals (statement st : Statement IPNet) : Option Bool :=
  if statement.effect ≠ st.effect then some false
  else if !statement.principal.equals st.principal then some false
  else if !statement.actions.equals st.actions then some false
  else if !statement.resources.equals st.resources then some false
  else statement.conditions.equals lib st.conditions

/-- `Statement.Clone`. The statement identifier is not copied. -/
def clone (statement : Statement IPNet) : Option (Statement IPNet) :=
  (statement.conditions.clone lib).map fun conditions => { statement with sid := "", conditions }

end BucketPolicy

/-! ## IAM policies -/

namespace IamPolicy

variable {IP IPNet : Type} (lib : PolicyLib IP IPNet)

structure Statement (IPNet : Type) where
  sid : String := ""
  effect : Effect
  actions : GoSet String
  resources : GoSet Resource
  conditions : Functions IPNet := []

/-- `iampolicy.Args`, without the account, the groups and the claims. -/
structure Args where
  action : String
  bucketName : String
  conditionValues : Values := fun _ => none
  isOwner : Bool := false
  objectName : String := ""
  denyOnly : Bool := false

def supportedAdminActions : List String :=
  ["admin:Heal", "admin:StorageInfo", "admin:DataUsageInfo", "admin:TopLocksInfo",
    "admin:Profiling", "admin:ServerTrace", "admin:ConsoleLog", "admin:KMSKeyStatus",
    "admin:ServerInfo", "admin:OBDInfo", "admin:BandwidthMonitor", "admin:ServiceRestart",
    "admin:ServiceStop", "admin:ConfigUpdate", "admin:CreateUser", "admin:DeleteUser",
    "admin:ListUsers", "admin:EnableUser", "admin:DisableUser", "admin:GetUser",
    "admin:AddUserToGroup", "admin:RemoveUserFromGroup", "admin:GetGroup", "admin:ListGroups",
    "admin:EnableGroup", "admin:DisableGroup", "admin:CreateServiceAccount",
    "admin:UpdateServiceAccount", "admin:RemoveServiceAccount", "admin:ListServiceAccounts",
    "admin:CreatePolicy", "admin:DeletePolicy", "admin:GetPolicy", "admin:AttachUserOrGroupPolicy",
    "admin:ListUserPolicies", "admin:SetBucketQuota", "admin:GetBucketQuota",
    "admin:SetBucketTarget", "admin:GetBucketTarget", "admin:*"]

def isAdmin (statement : Statement IPNet) : Bool := statement.actions.elems.any supportedAdminActions.contains

def actionSetMatch (actions : GoSet String) (action : String) : Bool :=
  actions.elems.any fun r => wildcardMatch r action

/-- `Resource.Match`, which also accepts the cleaned path itself. -/
def resourceMatch (r : Resource) (resource : String) (values : Values) : Option Bool := do
  let pattern ← substFuncFromValues values r.pattern
  let cp := lib.pathClean resource
  return (cp != "." && cp == pattern) || wildcardMatch pattern resource

def resourceSetMatch (resources : GoSet Resource) (resource : String) (values : Values) : Option Bool :=
  resources.elems.anyM fun r => resourceMatch lib r resource values

/-- The closure `check` of `Statement.IsAllowed`. A request for a bucket ends with a slash, and an
admin statement goes without a matching resource. -/
def check (statement : Statement IPNet) (args : Args) : Option Bool := do
  if !actionSetMatch statement.actions args.action then return false
  let resource :=
    if args.objectName = "" then args.bucketName ++ "/"
    else resourceText args.bucketName args.objectName
  if !(← resourceSetMatch lib statement.resources resource args.conditionValues) &&
      !isAdmin statement then return false
  statement.conditions.evaluate lib args.conditionValues

def equals (statement st : Statement IPNet) : Option Bool :=
  if statement.effect ≠ st.effect then some false
  else if !statement.actions.equals st.actions then some false
  else if !statement.resources.equals st.resources then some false
  else statement.conditions.equals lib st.conditions

/-- `Statement.Clone`. The statement identifier is not copied. -/
def clone (statement : Statement IPNet) : Option (Statement IPNet) :=
  (statement.conditions.clone lib).map fun conditions => { statement with sid := "", conditions }

end IamPolicy

section Kinds

variable {IP IPNet : Type} (lib : PolicyLib IP IPNet)

theorem BucketPolicy.effect_of_clone {st c : BucketPolicy.Statement IPNet}
    (h : BucketPolicy.clone lib st = some c) : c.effect = st.effect := by
  obtain ⟨conditions, -, rfl⟩ := Option.map_eq_some_iff.mp h
  rfl

theorem IamPolicy.effect_of_clone {st c : IamPolicy.Statement IPNet}
    (h : IamPolicy.clone lib st = some c) : c.effect = st.effect := by
  obtain ⟨conditions, -, rfl⟩ := Option.map_eq_some_iff.mp h
  rfl

def iamPolicy : PolicyKind (IamPolicy.Statement IPNet) IamPolicy.Args where
  effect st := st.effect
  hits := IamPolicy.check lib
  byDefault args := args.denyOnly || args.isOwner
  withDefault b args := { args with isOwner := b, denyOnly := false }
  byDefault_withDefault b _ := Bool.false_or b
  hits_withDefault _ _ _ := rfl
  equals := IamPolicy.equals lib
  clone := IamPolicy.clone lib
  effect_clone := IamPolicy.effect_of_clone lib

end Kinds

end Otterio
