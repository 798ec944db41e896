import Otterio.IAM.Groups
import Otterio.Lib.Threads
import Otterio.Policy.Statement

/-!
# Combined policies

An authorization takes the documents of the policies of a user, appends the statements of all of them to
the slice of the first, and evaluates the result (`cmd/iam.go`, `GetCombinedPolicy`). The map of
documents is locked for reading only, so authorizations run side by side, and an append to a slice with
spare capacity writes into the array of the document.

`Phase` is where an authorization is, and `op` its next step: one statement is read or written at a time.
`isAllowed` says what an authorization does before: it answers at once, or it has the policies to combine
(`Call`).
-/

namespace Otterio.IAM

/-! ## Documents and slices -/

structure Slice where
  arr : Nat
  len : Nat
  cap : Nat
deriving DecidableEq

def Slice.nil : Slice := ⟨0, 0, 0⟩

/-- A document of `iamPolicyDocsMap`. The array of its statements has room for `spare` more. -/
structure PolicyDoc (St : Type) where
  name : String
  version : String
  statements : List St
  spare : Nat

/-- `iamPolicyDocsMap`. Each document has an array of its own: the address is its position. -/
structure PolicyMap (St : Type) where
  docs : List (PolicyDoc St)
  nodup : (docs.map PolicyDoc.name).Nodup

section

variable {St Args : Type}

def PolicyDoc.slice (doc : PolicyDoc St) (arr : Nat) : Slice :=
  ⟨arr, doc.statements.length, doc.statements.length + doc.spare⟩

namespace PolicyMap

/-- The arrays of the documents. A cell without a statement has the zero value. -/
def memory (map : PolicyMap St) : Memory (Option St) where
  cells a i := map.docs[a]?.bind fun doc => doc.statements[i]?
  next := map.docs.length

/-- `p, found := sys.iamPolicyDocsMap[pname]`. -/
def lookup (map : PolicyMap St) (pname : String) : Option Slice :=
  (map.docs.zipIdx.find? fun e => e.1.name == pname).map fun e => e.1.slice e.2

def availablePolicies (map : PolicyMap St) (policies : List String) : List Slice := policies.filterMap map.lookup

def statements (map : PolicyMap St) (policies : List String) : List St :=
  (policies.filterMap fun pname => map.docs.find? fun doc => doc.name == pname).flatMap
    PolicyDoc.statements

end PolicyMap

/-! ## Steps -/

/-- An authorization that has to combine policies: the answer is that of the combined policy, and if it
allows the request that of the session policy. -/
structure Call (Args : Type) where
  policies : List String
  args : Args
  session : Option Bool

inductive Phase (St : Type) where
  /-- at the head of the loop over the other documents -/
  | appending (combined : Slice) (docs : List Slice)
  /-- `append` within the capacity, before statement `i` of the document -/
  | copying (combined doc : Slice) (i : Nat) (docs : List Slice)
  | storing (combined doc : Slice) (i : Nat) (st : Option St) (docs : List Slice)
  /-- `append` to a new array, with what has been read for it -/
  | growing (combined doc : Slice) (acc : List (Option St)) (docs : List Slice)
  /-- `IsAllowed`, in the loop over the statements that deny -/
  | denying (combined : Slice) (i : Nat)
  /-- `IsAllowed`, in the loop over the statements that allow -/
  | allowing (combined : Slice) (i : Nat)
  | returned (allowed : Option Bool)

structure Thread (St Args : Type) where
  call : Call Args
  phase : Phase St

/-- `GetCombinedPolicy` up to its loop over the other documents. -/
def Call.start (map : PolicyMap St) (call : Call Args) : Thread St Args where
  call
  phase :=
    match map.availablePolicies call.policies with
    | [] => .appending .nil []
    | combined :: docs => .appending combined docs

variable (K : PolicyKind St Args) (extra : Nat → Nat → Nat)

/-- A statement in the first loop of `IsAllowed`. One with the zero value is neither kind. -/
def denyStep (args : Args) (combined : Slice) (i : Nat) : Option St → Phase St
  | none => .denying combined (i + 1)
  | some st =>
    if K.effect st = .deny then
      match statementIsAllowed K st args with
      | none => .returned none
      | some false => .returned (some false)
      | some true => .denying combined (i + 1)
    else .denying combined (i + 1)

/-- A statement in the second loop of `IsAllowed`. -/
def allowStep (args : Args) (combined : Slice) (i : Nat) : Option St → Phase St
  | none => .allowing combined (i + 1)
  | some st =>
    if K.effect st = .allow then
      match statementIsAllowed K st args with
      | none => .returned none
      | some true => .returned (some true)
      | some false => .allowing combined (i + 1)
    else .allowing combined (i + 1)

/-- The next step of an authorization. A slice that grows gets a capacity that the runtime chooses. -/
def phaseOp (args : Args) : Phase St → Op (Option St) (Phase St)
  | .appending combined [] => .next (.denying combined 0)
  | .appending combined (doc :: docs) =>
    if doc.len = 0 then .next (.appending combined docs)
    else if combined.len + doc.len ≤ combined.cap then .next (.copying combined doc 0 docs)
    else .next (.growing combined doc [] docs)
  | .copying combined doc i docs =>
    if i < doc.len then .read doc.arr i fun st => .storing combined doc i st docs
    else .next (.appending { combined with len := combined.len + doc.len } docs)
  | .storing combined doc i st docs =>
    .write combined.arr (combined.len + i) st (.copying combined doc (i + 1) docs)
  | .growing combined doc acc docs =>
    if acc.length < combined.len then
      .read combined.arr acc.length fun st => .growing combined doc (acc ++ [st]) docs
    else if acc.length < combined.len + doc.len then
      .read doc.arr (acc.length - combined.len) fun st => .growing combined doc (acc ++ [st]) docs
    else
      let len := combined.len + doc.len
      .alloc (fun i => acc.getD i none) fun arr => .appending ⟨arr, len, len + extra combined.cap len⟩ docs
  | .denying combined i =>
    if i < combined.len then .read combined.arr i (denyStep K args combined i)
    else .next (if K.byDefault args then .returned (some true) else .allowing combined 0)
  | .allowing combined i =>
    if i < combined.len then .read combined.arr i (allowStep K args combined i)
    else .next (.returned (some false))
  | .returned _ => .stop

def Op.ofPhase (call : Call Args) : Op (Option St) (Phase St) → Op (Option St) (Thread St Args)
  | .stop => .stop
  | .next phase => .next ⟨call, phase⟩
  | .read a i k => .read a i fun st => ⟨call, k st⟩
  | .write a i e phase => .write a i e ⟨call, phase⟩
  | .alloc f k => .alloc f fun a => ⟨call, k a⟩

def threadOp (t : Thread St Args) : Op (Option St) (Thread St Args) :=
  Op.ofPhase t.call (phaseOp K extra t.call.args t.phase)

/-- The authorizations before their first steps. -/
def PolicyMap.begin (map : PolicyMap St) (calls : List (Call Args)) : Config (Option St) (Thread St Args) :=
  ⟨map.memory, calls.map (Call.start map)⟩

/-- What an authorization answers when its combined policy has been evaluated. -/
def Call.answer (call : Call Args) (allowed : Option Bool) : Option Bool := do
  if ← allowed then call.session else return false

end

/-! ## `IsAllowed` -/

section IsAllowed

variable {IP IPNet Doc : Type}

/-- `iampolicy.Args`. A claim is absent, not a string, or a string. -/
structure AuthArgs where
  accountName : String
  groups : List String
  claims : String → Option (Option String)
  args : IamPolicy.Args

/-- What is not under `src`: the names of LDAP, and the JSON of a policy. -/
structure AuthLib (IPNet : Type) where
  normalizeDN : String → Option String
  parseConfig : String → Option (Policy (IamPolicy.Statement IPNet))

def IAMSys.policyDBGetUser (sys : IAMSys Doc) (env : AuthLib IPNet) (now : Time) (name : String)
    (groups : List String) : Except Error (List String) := do
  if !sys.initialized then throw errServerNotInitialized
  if name = "" then throw errInvalidArgument
  let ldap := sys.usersSysType == .ldapUsersSysType
  let name ← if ldap then (env.normalizeDN name).elim (.error errInvalidArgument) .ok else .ok name
  let groups ←
    if ldap then (groups.mapM env.normalizeDN).elim (.error errInvalidArgument) .ok else .ok groups
  let policies ← sys.policyDBGet now name false
  let more ← groups.mapM fun group => sys.policyDBGet now group true
  return policies ++ more.flatten

variable (lib : PolicyLib IP IPNet) (env : AuthLib IPNet)

def isAllowedServiceAccount (map : PolicyMap (IamPolicy.Statement IPNet)) (sys : IAMSys Doc) (now : Time)
    (a : AuthArgs) (parent : String) : Bool ⊕ Call IamPolicy.Args :=
  if a.claims "parent" ≠ some (some parent) then .inl false
  else
    match sys.policyDBGetUser env now parent a.groups with
    | .error _ => .inl false
    | .ok svcPolicies =>
      if map.availablePolicies svcPolicies = [] then .inl false
      else
        match a.claims "sa-policy" with
        | some (some "inherited-policy") => .inr ⟨svcPolicies, a.args, some true⟩
        | some (some _) =>
          match a.claims "sessionPolicy" with
          | some (some spolicyStr) =>
            match env.parseConfig spolicyStr with
            | none => .inl false
            | some subPolicy =>
              if subPolicy.version = "" then .inl false
              else
                let subPolicyArgs := { a.args with isOwner := false, denyOnly := false }
                .inr ⟨svcPolicies, a.args, subPolicy.isAllowed (iamPolicy lib) subPolicyArgs⟩
          | _ => .inl false
        | _ => .inl false

/-- `IsAllowed` without OPA. What it does for temporary credentials is a parameter. -/
def isAllowed (isAllowedSTS : AuthArgs → String → Bool ⊕ Call IamPolicy.Args)
    (map : PolicyMap (IamPolicy.Statement IPNet)) (sys : IAMSys Doc) (now : Time) (a : AuthArgs) :
    Bool ⊕ Call IamPolicy.Args :=
  if a.args.isOwner then .inl true
  else if !sys.initialized then .inl false
  else
    match sys.iamUsersMap[a.accountName]? with
    | none => .inl false
    | some cred =>
      if cred.isTemp then isAllowedSTS a cred.parentUser
      else if cred.isServiceAccount then isAllowedServiceAccount lib env map sys now a cred.parentUser
      else
        match sys.policyDBGetUser env now a.accountName a.groups with
        | .error _ => .inl false
        | .ok policies => if policies = [] then .inl false else .inr ⟨policies, a.args, some true⟩

end IsAllowed

end Otterio.IAM
