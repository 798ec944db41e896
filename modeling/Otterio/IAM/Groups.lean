import Otterio.Lib.Go
import Otterio.Lib.Multimap

/-!
# Users, groups and their policies

`IAMSys` keeps the groups with their members, and an index from users to their groups
(`cmd/iam.go`). Authorization reads the index: `policyDBGet` adds up the policies of a user and of the
groups that the index has for the user.

The store is what it answers to the calls of one operation (`Store`): other nodes change it between the
operations.
-/

namespace Otterio.IAM

open Multimap

/-! ## The state -/

abbrev Table (V : Type) := Std.ExtTreeMap String V compare

/-- `set.StringSet`; `ToSlice` is `toList`, in increasing order. -/
abbrev StringSet := Std.ExtTreeSet String compare

def errServerNotInitialized : Error := .other 30
def errInvalidArgument : Error := .other 20
def errIAMActionNotAllowed : Error := .other 31
def errNoSuchUser : Error := .other 32
def errNoSuchGroup : Error := .other 33
def errGroupNotEmpty : Error := .other 34
def errNoSuchPolicy : Error := .other 35

structure Credentials where
  accessKey : String
  secretKey : String
  expiration : Time
  sessionToken : String
  status : String
  parentUser : String
  groups : List String
deriving DecidableEq

namespace Credentials

/-- `time.Unix(0, 0).UTC()`. -/
def timeSentinel : Time := 0

def lasting (cred : Credentials) : Bool := cred.expiration == Time.zero || cred.expiration == timeSentinel

def isExpired (cred : Credentials) (now : Time) : Bool := !cred.lasting && cred.expiration < now

def isTemp (cred : Credentials) : Bool := cred.sessionToken != "" && !cred.lasting

def isServiceAccount (cred : Credentials) : Bool := cred.parentUser != "" && cred.lasting

def isValid (cred : Credentials) (now : Time) : Bool :=
  cred.status != "off" && 3 ≤ cred.accessKey.utf8ByteSize && 8 ≤ cred.secretKey.utf8ByteSize && !cred.isExpired now

end Credentials

structure GroupInfo where
  version : Int
  status : String
  members : List String
deriving DecidableEq

def statusEnabled : String := "enabled"
def statusDisabled : String := "disabled"

def newGroupInfo (members : List String) : GroupInfo := ⟨1, statusEnabled, members⟩

structure MappedPolicy where
  version : Int
  policies : String
deriving DecidableEq

def MappedPolicy.toSlice (mp : MappedPolicy) : List String :=
  ((mp.policies.toList.splitOn ',').map fun p => trimSpace (String.ofList p)).filter (· != "")

inductive UsersSysType where
  | otterIOUsersSysType
  | ldapUsersSysType
deriving DecidableEq

inductive IAMUserType where
  | regularUser
  | stsUser
  | srvAccUser
deriving DecidableEq

/-- `IAMSys`. `initialized` tells whether there is a store, `etcd` whether it is etcd, and
`configLoaded` whether that channel is closed. -/
structure IAMSys (Doc : Type) where
  usersSysType : UsersSysType
  iamPolicyDocsMap : Table Doc
  iamUsersMap : Table Credentials
  nativeIdentityEpoch : Nat
  iamGroupsMap : Table GroupInfo
  iamUserGroupMemberships : Multimap String String
  iamUserPolicyMap : Table MappedPolicy
  iamGroupPolicyMap : Table MappedPolicy
  initialized : Bool
  etcd : Bool
  configLoaded : Bool

/-- What the store answers to the calls of one operation. -/
structure Store (Doc : Type) where
  saveGroupInfo : String → Option Error
  deleteGroupInfo : String → Option Error
  deleteMappedPolicy : String → Option Error
  deleteUserIdentity : String → Option Error
  loadPolicyDoc : String → Except Error Doc
  loadPolicyDocs : Except Error (Table Doc)
  loadUser : String → IAMUserType → Except Error Credentials
  loadUsers : IAMUserType → Except Error (Table Credentials)
  loadGroup : String → Except Error GroupInfo
  loadGroups : Except Error (Table GroupInfo)
  loadMappedPolicy : String → IAMUserType → Except Error MappedPolicy
  loadMappedPolicies : IAMUserType → Bool → Except Error (Table MappedPolicy)

variable {Doc : Type}

namespace IAMSys

/-- `NewIAMSys`, with a store. -/
def newIAMSys (usersSysType : UsersSysType) (etcd : Bool) : IAMSys Doc where
  usersSysType
  iamPolicyDocsMap := ∅
  iamUsersMap := ∅
  nativeIdentityEpoch := 0
  iamGroupsMap := ∅
  iamUserGroupMemberships := ∅
  iamUserPolicyMap := ∅
  iamGroupPolicyMap := ∅
  initialized := true
  etcd
  configLoaded := false

def updateGroupMembershipsMap (memberships : Multimap String String) (group : String) (gi : GroupInfo) :
    Multimap String String :=
  memberships.addEach gi.members group

def buildUserGroupMemberships (sys : IAMSys Doc) : IAMSys Doc :=
  { sys with
    iamUserGroupMemberships :=
      sys.iamGroupsMap.toList.foldl (fun m e => updateGroupMembershipsMap m e.1 e.2)
        sys.iamUserGroupMemberships }

def removeGroupFromMembershipsMap (memberships : Multimap String String) (group : String) : Multimap String String :=
  memberships.removeAll group

/-! ## Groups -/

def checkMembers (sys : IAMSys Doc) : List String → Option Error
  | [] => none
  | member :: members =>
    match sys.iamUsersMap[member]? with
    | none => some errNoSuchUser
    | some cr => if cr.isTemp then some errIAMActionNotAllowed else checkMembers sys members

def addUsersToGroup (sys : IAMSys Doc) (store : Store Doc) (group : String) (members : List String) :
    Option Error × IAMSys Doc :=
  if !sys.initialized then (some errServerNotInitialized, sys)
  else if group = "" then (some errInvalidArgument, sys)
  else if sys.usersSysType ≠ .otterIOUsersSysType then (some errIAMActionNotAllowed, sys)
  else if let some err := sys.checkMembers members then (some err, sys)
  else
    let found := sys.iamGroupsMap[group]?
    let gi :=
      match found with
      | none => newGroupInfo members
      | some gi =>
        { gi with members := ((∅ : StringSet).insertMany (gi.members ++ members)).toList }
    if let some err := store.saveGroupInfo group then (some err, sys)
    else
      (none, { sys with
        iamGroupsMap := sys.iamGroupsMap.insert group gi
        nativeIdentityEpoch := sys.nativeIdentityEpoch + if found.isNone then 1 else 0
        iamUserGroupMemberships := sys.iamUserGroupMemberships.addEach members group })

def removeUsersFromGroup (sys : IAMSys Doc) (store : Store Doc) (group : String) (members : List String) :
    Option Error × IAMSys Doc :=
  if !sys.initialized then (some errServerNotInitialized, sys)
  else if sys.usersSysType ≠ .otterIOUsersSysType then (some errIAMActionNotAllowed, sys)
  else if group = "" then (some errInvalidArgument, sys)
  else if let some err := sys.checkMembers members then (some err, sys)
  else
    match sys.iamGroupsMap[group]? with
    | none => (some errNoSuchGroup, sys)
    | some gi =>
      if members = [] ∧ gi.members ≠ [] then (some errGroupNotEmpty, sys)
      else if members = [] then
        -- a policy or a group that the store does not have is no error
        let deleted := store.deleteMappedPolicy group
        if deleted ≠ none ∧ deleted ≠ some errNoSuchPolicy then (deleted, sys)
        else
          let deleted := store.deleteGroupInfo group
          if deleted ≠ none ∧ deleted ≠ some errNoSuchGroup then (deleted, sys)
          else
            (none, { sys with
              iamGroupsMap := sys.iamGroupsMap.erase group
              nativeIdentityEpoch := sys.nativeIdentityEpoch + 1
              iamGroupPolicyMap := sys.iamGroupPolicyMap.erase group })
      else
        let s := (∅ : StringSet).insertMany gi.members
        let gi := { gi with members := s.toList.filter fun member => !members.contains member }
        if let some err := store.saveGroupInfo group then (some err, sys)
        else
          (none, { sys with
            iamGroupsMap := sys.iamGroupsMap.insert group gi
            nativeIdentityEpoch := sys.nativeIdentityEpoch + 1
            iamUserGroupMemberships := sys.iamUserGroupMemberships.removeEach members group })

def setGroupStatus (sys : IAMSys Doc) (store : Store Doc) (group : String) (enabled : Bool) :
    Option Error × IAMSys Doc :=
  if !sys.initialized then (some errServerNotInitialized, sys)
  else if sys.usersSysType ≠ .otterIOUsersSysType then (some errIAMActionNotAllowed, sys)
  else if group = "" then (some errInvalidArgument, sys)
  else
    match sys.iamGroupsMap[group]? with
    | none => (some errNoSuchGroup, sys)
    | some gi =>
      let gi := { gi with status := if enabled then statusEnabled else statusDisabled }
      if let some err := store.saveGroupInfo group then (some err, sys)
      else (none, { sys with iamGroupsMap := sys.iamGroupsMap.insert group gi })

def loadGroup (sys : IAMSys Doc) (store : Store Doc) (group : String) : Option Error × IAMSys Doc :=
  if !sys.initialized then (some errServerNotInitialized, sys)
  else if sys.etcd then (none, sys)
  else
    match store.loadGroup group with
    | .error err =>
      if err = errNoSuchGroup then
        (none, { sys with
          iamUserGroupMemberships := removeGroupFromMembershipsMap sys.iamUserGroupMemberships group
          iamGroupsMap := sys.iamGroupsMap.erase group
          iamGroupPolicyMap := sys.iamGroupPolicyMap.erase group })
      else (some err, sys)
    | .ok gi =>
      let memberships := removeGroupFromMembershipsMap sys.iamUserGroupMemberships group
      (none, { sys with
        iamGroupsMap := sys.iamGroupsMap.insert group gi
        iamUserGroupMemberships := updateGroupMembershipsMap memberships group gi })

/-! ## Users -/

/-- A load of one entry; the map stays as it is if there is an error. -/
def setLoaded {V : Type} (m : Table V) (k : String) : Except Error V → Table V
  | .ok v => m.insert k v
  | .error _ => m

/-- The part of `loadUserFromStore` for a user that is not in memory. -/
def loadMissingUser (sys : IAMSys Doc) (store : Store Doc) (accessKey : String) : IAMSys Doc :=
  let load (sys : IAMSys Doc) (user : String) (userType : IAMUserType) : IAMSys Doc :=
    { sys with iamUsersMap := setLoaded sys.iamUsersMap user (store.loadUser user userType) }
  let loadPolicy (sys : IAMSys Doc) (user : String) (userType : IAMUserType) : IAMSys Doc :=
    { sys with
      iamUserPolicyMap := setLoaded sys.iamUserPolicyMap user (store.loadMappedPolicy user userType) }
  let sys := load sys accessKey .regularUser
  if sys.iamUsersMap.contains accessKey then loadPolicy sys accessKey .regularUser
  else
    let sys := load sys accessKey .srvAccUser
    match sys.iamUsersMap[accessKey]? with
    | some svc =>
      let sys :=
        if sys.usersSysType = .otterIOUsersSysType then load sys svc.parentUser .regularUser else sys
      loadPolicy sys svc.parentUser .regularUser
    | none =>
      let sys := load sys accessKey .stsUser
      if sys.iamUsersMap.contains accessKey then loadPolicy sys accessKey .stsUser else sys

def loadUserFromStore (sys : IAMSys Doc) (store : Store Doc) (accessKey : String) : IAMSys Doc :=
  let sys := if sys.iamUsersMap.contains accessKey then sys else sys.loadMissingUser store accessKey
  let policies := (sys.iamUserPolicyMap[accessKey]?.map MappedPolicy.toSlice).getD []
  let docs := policies.foldl (fun docs policy =>
    if docs.contains policy then docs else setLoaded docs policy (store.loadPolicyDoc policy))
    sys.iamPolicyDocsMap
  buildUserGroupMemberships { sys with iamPolicyDocsMap := docs }

/-- `GetUserInfo` for the users of the server: the groups of the user. -/
def getUserInfo (sys : IAMSys Doc) (store : Store Doc) (name : String) : Except Error (List String) × IAMSys Doc :=
  let sys := if sys.configLoaded then sys else sys.loadUserFromStore store name
  match sys.iamUsersMap[name]? with
  | none => (.error errNoSuchUser, sys)
  | some cred =>
    if cred.isTemp || cred.isServiceAccount then (.error errIAMActionNotAllowed, sys)
    else (.ok (sys.iamUserGroupMemberships.values name).toList, sys)

/-- The loop of `DeleteUser` that removes the user from groups. -/
def leaveGroups (sys : IAMSys Doc) (store : Store Doc) (accessKey : String) : List String → Option Error × IAMSys Doc
  | [] => (none, sys)
  | group :: groups =>
    match sys.removeUsersFromGroup store group [accessKey] with
    | (some err, sys) => (some err, sys)
    | (none, sys) => leaveGroups sys store accessKey groups

/-- The loop of `DeleteUser` over the accounts that belong to the user. An account that is deleted here
is not visited again. -/
def deleteDependents (sys : IAMSys Doc) (store : Store Doc) (accessKey : String) : IAMSys Doc :=
  let delete (sys : IAMSys Doc) (u : Credentials) : IAMSys Doc :=
    { sys with
      iamUsersMap := sys.iamUsersMap.erase u.accessKey
      nativeIdentityEpoch :=
        sys.nativeIdentityEpoch + if store.deleteUserIdentity u.accessKey = none then 1 else 0 }
  sys.iamUsersMap.toList.foldl (fun sys e =>
    if (e.2.isServiceAccount || e.2.isTemp) && e.2.parentUser == accessKey then delete sys e.2 else sys) sys

def deleteUser (sys : IAMSys Doc) (store : Store Doc) (accessKey : String) : Option Error × IAMSys Doc :=
  if !sys.initialized then (some errServerNotInitialized, sys)
  else if sys.usersSysType ≠ .otterIOUsersSysType then (some errIAMActionNotAllowed, sys)
  else
    match sys.getUserInfo store accessKey with
    | (.error err, sys) => (some err, sys)
    | (.ok memberOf, sys) =>
      match sys.leaveGroups store accessKey memberOf with
      | (some err, sys) => (some err, sys)
      | (none, sys) =>
        let sys := sys.deleteDependents store accessKey
        -- the error for the mapped policy is ignored, and so is that for a user that is not stored
        let deleted := store.deleteUserIdentity accessKey
        let deleted := if deleted = some errNoSuchUser then none else deleted
        (deleted, { sys with
          iamUsersMap := sys.iamUsersMap.erase accessKey
          nativeIdentityEpoch := sys.nativeIdentityEpoch + if deleted = none then 1 else 0
          iamUserPolicyMap := sys.iamUserPolicyMap.erase accessKey })

/-! ## `Load` -/

/-- The maps that `Load` fills from the store. -/
structure Loaded (Doc : Type) where
  iamPolicyDocsMap : Table Doc
  iamUsersMap : Table Credentials
  iamGroupsMap : Table GroupInfo
  iamUserPolicyMap : Table MappedPolicy
  iamGroupPolicyMap : Table MappedPolicy

/-- The groups that `Load` reads: none if the users are those of an LDAP server. -/
def loadedGroups (sys : IAMSys Doc) (store : Store Doc) : Except Error (Table GroupInfo) :=
  if sys.usersSysType = .otterIOUsersSysType then store.loadGroups else .ok ∅

/-- The first half of `Load`; `canned` are the default policies. -/
def loadMaps (sys : IAMSys Doc) (store : Store Doc) (canned : List (String × Doc)) : Except Error (Loaded Doc) := do
  let docs ← store.loadPolicyDocs
  let docs := canned.foldl (fun docs e => if docs.contains e.1 then docs else docs.insert e.1 e.2) docs
  let regular ←
    if sys.usersSysType = .otterIOUsersSysType then store.loadUsers .regularUser else .ok ∅
  let groups ← sys.loadedGroups store
  let userPolicies ← store.loadMappedPolicies .regularUser false
  let groupPolicies ← store.loadMappedPolicies .regularUser true
  let srvAcc ← store.loadUsers .srvAccUser
  let sts ← store.loadUsers .stsUser
  let stsPolicies ← store.loadMappedPolicies .stsUser false
  return ⟨docs, setAll (setAll regular srvAcc) sts, groups, setAll userPolicies stsPolicies, groupPolicies⟩

def expiredEntries (sys : IAMSys Doc) (now : Time) : List String :=
  (sys.iamUsersMap.toList.filter fun e => e.2.isExpired now).map Prod.fst

/-- A loop of `Load` that deletes users. -/
def deleteEntries (sys : IAMSys Doc) (entries : List String) : IAMSys Doc :=
  { sys with
    iamUsersMap := entries.foldl (fun m k => m.erase k) sys.iamUsersMap
    iamUserPolicyMap := entries.foldl (fun m k => m.erase k) sys.iamUserPolicyMap }

/-- The loops of `Load` that purge users which have expired, then their service accounts, and then users
which have expired in the meantime. -/
def purgeExpired (sys : IAMSys Doc) (now later : Time) : IAMSys Doc :=
  let expired := sys.expiredEntries now
  let sys := sys.deleteEntries expired
  let users := sys.iamUsersMap.toList.foldl (fun (m : Table Credentials) e =>
    if e.2.isServiceAccount && expired.contains e.2.parentUser then m.erase e.2.accessKey else m)
    sys.iamUsersMap
  let sys := { sys with iamUsersMap := users }
  sys.deleteEntries (sys.expiredEntries later)

/-- The second half of `Load`: what was read is merged into the maps. -/
def merge (sys : IAMSys Doc) (loaded : Loaded Doc) (now later : Time) : IAMSys Doc :=
  let sys := { sys with
    iamPolicyDocsMap := setAll sys.iamPolicyDocsMap loaded.iamPolicyDocsMap
    iamUsersMap := setAll sys.iamUsersMap loaded.iamUsersMap
    iamUserPolicyMap := setAll sys.iamUserPolicyMap loaded.iamUserPolicyMap }
  let sys := sys.purgeExpired now later
  buildUserGroupMemberships { sys with
    iamGroupPolicyMap := setAll sys.iamGroupPolicyMap loaded.iamGroupPolicyMap
    iamGroupsMap := setAll sys.iamGroupsMap loaded.iamGroupsMap
    configLoaded := true }

def load (sys : IAMSys Doc) (store : Store Doc) (canned : List (String × Doc)) (now later : Time) :
    Option Error × IAMSys Doc :=
  match sys.loadMaps store canned with
  | .error err => (some err, sys)
  | .ok loaded => (none, sys.merge loaded now later)

def mappedPolicies (m : Table MappedPolicy) (name : String) : List String :=
  (m[name]?.map MappedPolicy.toSlice).getD []

def ownPolicies (sys : IAMSys Doc) (name : String) (parentUser : String) : List String :=
  if !sys.iamUserPolicyMap.contains name && parentUser != "" then
    mappedPolicies sys.iamUserPolicyMap parentUser
  else mappedPolicies sys.iamUserPolicyMap name

/-- The loop of `policyDBGet` over the groups of a user. -/
def groupPolicies (sys : IAMSys Doc) (group : String) : List String :=
  match sys.iamGroupsMap[group]? with
  | none => []
  | some gi => if gi.status = statusDisabled then [] else mappedPolicies sys.iamGroupPolicyMap group

def policyDBGet (sys : IAMSys Doc) (now : Time) (name : String) (isGroup : Bool) : Except Error (List String) :=
  let server := sys.usersSysType == .otterIOUsersSysType
  if isGroup then
    if server then
      match sys.iamGroupsMap[name]? with
      | none => .error errNoSuchGroup
      | some g =>
        if g.status = statusDisabled then .ok [] else .ok (mappedPolicies sys.iamGroupPolicyMap name)
    else .ok (mappedPolicies sys.iamGroupPolicyMap name)
  else
    let u := sys.iamUsersMap[name]?
    if server && u.isNone then .error errNoSuchUser
    else if server && !u.any (·.isValid now) then .ok []
    else
      let parentUser := if server then (u.map (·.parentUser)).getD "" else ""
      .ok (sys.ownPolicies name parentUser ++
        (sys.iamUserGroupMemberships.values name).toList.flatMap sys.groupPolicies)

end IAMSys

end Otterio.IAM
