import Otterio.IAM.Groups

/-!
# Policy mappings on several nodes

A node that changes the policy of a user or a group writes the mapping to the store (`policyDBSet`) and
tells its peers, which load it again (`LoadPolicyMapping`, `LoadUser` of `cmd/iam.go` with the object store
of `cmd/iam-object-store.go`).

* `IAMObjectStore` is the content of the store. A file is there, absent or cannot be read (`Item`); an
  error of the object layer is none of the errors of the IAM code (`StoreFault`).
* `mapping?` is what the store has for a name.
* A load that finds a mapping puts it into the table (`loadMappedPolicy_item`). One that finds none returns
  `errNoSuchPolicy` and leaves the table as it is (`loadMappedPolicy_absent`); both callers ignore that
  error.
-/

namespace Otterio.IAM

/-! ## The object store -/

def errConfigNotFound : Error := .other 36

structure StoreFault where
  err : Error
  ne_config : err ≠ errConfigNotFound
  ne_policy : err ≠ errNoSuchPolicy

/-- What is at a path of the store. `readConfig` treats an empty file as absent. -/
inductive Item (V : Type) where
  | absent
  | item (v : V)
  | fault (f : StoreFault)

namespace Item

variable {V : Type}

/-- `loadIAMConfig`. -/
def load : Item V → Except Error V
  | absent => .error errConfigNotFound
  | item v => .ok v
  | fault f => .error f.err

def get? : Item V → Option V
  | item v => some v
  | _ => none

end Item

/-- Files with their paths, and the paths at which a change fails. -/
structure Files (P V : Type) where
  file : P → Item V
  refuses : P → Option StoreFault

namespace Files

variable {P V : Type} [DecidableEq P]

/-- `saveIAMConfig`. -/
def save (files : Files P V) (p : P) (v : V) : Option Error × Files P V :=
  match files.refuses p with
  | some f => (some f.err, files)
  | none => (none, { files with file := Function.update files.file p (.item v) })

/-- `deleteIAMConfig`. -/
def delete (files : Files P V) (p : P) : Option Error × Files P V :=
  match files.refuses p, files.file p with
  | some f, _ => (some f.err, files)
  | none, .absent => (some errConfigNotFound, files)
  | none, _ => (none, { files with file := Function.update files.file p .absent })

end Files

inductive MappedPolicyPath where
  | users (name : String)
  | stsUsers (name : String)
  | serviceAccounts (name : String)
  | groups (name : String)
deriving DecidableEq

def getMappedPolicyPath (name : String) (userType : IAMUserType) (isGroup : Bool) : MappedPolicyPath :=
  if isGroup then .groups name
  else match userType with
    | .srvAccUser => .serviceAccounts name
    | .stsUser => .stsUsers name
    | .regularUser => .users name

/-- `IAMObjectStore`: the identities and the mappings. -/
structure IAMObjectStore where
  identities : Files (String × IAMUserType) Credentials
  mappings : Files MappedPolicyPath MappedPolicy

namespace IAMObjectStore

def mapping? (store : IAMObjectStore) (name : String) (userType : IAMUserType) (isGroup : Bool) :
    Option MappedPolicy :=
  (store.mappings.file (getMappedPolicyPath name userType isGroup)).get?

def loadMappedPolicy (store : IAMObjectStore) (name : String) (userType : IAMUserType) (isGroup : Bool)
    (m : Table MappedPolicy) : Option Error × Table MappedPolicy :=
  match (store.mappings.file (getMappedPolicyPath name userType isGroup)).load with
  | .error err => (if err = errConfigNotFound then some errNoSuchPolicy else some err, m)
  | .ok p => (none, m.insert name p)

def deleteMappedPolicy (store : IAMObjectStore) (name : String) (userType : IAMUserType) (isGroup : Bool) :
    Option Error × IAMObjectStore :=
  let (err, mappings) := store.mappings.delete (getMappedPolicyPath name userType isGroup)
  (if err = some errConfigNotFound then some errNoSuchPolicy else err, { store with mappings })

def saveMappedPolicy (store : IAMObjectStore) (name : String) (userType : IAMUserType) (isGroup : Bool)
    (mp : MappedPolicy) : Option Error × IAMObjectStore :=
  let (err, mappings) := store.mappings.save (getMappedPolicyPath name userType isGroup) mp
  (err, { store with mappings })

/-- `loadUser`. `reissue` is the session token of a service account, signed with the new key of the server
(`none` if there is nothing to sign). -/
def loadUser (store : IAMObjectStore) (now : Time) (reissue : Credentials → Option String) (user : String)
    (userType : IAMUserType) (m : Table Credentials) : Option Error × Table Credentials × IAMObjectStore :=
  match (store.identities.file (user, userType)).load with
  | .error err => (if err = errConfigNotFound then some errNoSuchUser else some err, m, store)
  | .ok u =>
    if u.isExpired now then
      -- The errors of both deletions are ignored.
      let identities := (store.identities.delete (user, userType)).2
      let mappings := (store.mappings.delete (getMappedPolicyPath user userType false)).2
      (none, m, { identities, mappings })
    else
      let token := if u.isServiceAccount then reissue u else none
      let (err, u, identities) := match token with
        | none => (none, u, store.identities)
        | some sessionToken =>
          let u := { u with sessionToken }
          let (err, identities) := store.identities.save (user, userType) u
          (err, u, identities)
      match err with
      | some err => (some err, m, { store with identities })
      | none =>
        let u := if u.accessKey = "" then { u with accessKey := user } else u
        (none, m.insert user u, { store with identities })

end IAMObjectStore

def newMappedPolicy (policies : String) : MappedPolicy := ⟨1, policies⟩

namespace IAMSys

variable {Doc : Type}

def policyMap (sys : IAMSys Doc) (isGroup : Bool) : Table MappedPolicy :=
  if isGroup then sys.iamGroupPolicyMap else sys.iamUserPolicyMap

def setPolicyMap (sys : IAMSys Doc) (isGroup : Bool) (m : Table MappedPolicy) : IAMSys Doc :=
  if isGroup then { sys with iamGroupPolicyMap := m } else { sys with iamUserPolicyMap := m }

@[simp] theorem policyMap_setPolicyMap (sys : IAMSys Doc) (isGroup : Bool) (m : Table MappedPolicy) :
    (sys.setPolicyMap isGroup m).policyMap isGroup = m := by
  cases isGroup <;> rfl

def loadPolicyMapping (sys : IAMSys Doc) (store : IAMObjectStore) (userOrGroup : String) (isGroup : Bool) :
    Option Error × IAMSys Doc :=
  if !sys.initialized then (some errServerNotInitialized, sys)
  else if sys.etcd then (none, sys)
  else
    let (err, m) := store.loadMappedPolicy userOrGroup .regularUser isGroup (sys.policyMap isGroup)
    let sys := sys.setPolicyMap isGroup m
    if err ≠ none ∧ err ≠ some errNoSuchPolicy then (err, sys) else (none, sys)

def loadUser (sys : IAMSys Doc) (store : IAMObjectStore) (now : Time) (reissue : Credentials → Option String)
    (accessKey : String) (userType : IAMUserType) : Option Error × IAMSys Doc × IAMObjectStore :=
  if !sys.initialized then (some errServerNotInitialized, sys, store)
  else if sys.etcd then (none, sys, store)
  else
    let (err, users, store) := store.loadUser now reissue accessKey userType sys.iamUsersMap
    let sys := { sys with iamUsersMap := users }
    if err ≠ none then (err, sys, store)
    else
      let (err, m) := store.loadMappedPolicy accessKey userType false (sys.policyMap false)
      let sys := sys.setPolicyMap false m
      if err ≠ none ∧ err ≠ some errNoSuchPolicy then (err, sys, store) else (none, sys, store)

def policyDBSet (sys : IAMSys Doc) (store : IAMObjectStore) (normalizeDN : String → Except Error String)
    (name policyName : String) (userType : IAMUserType) (isGroup : Bool) :
    Option Error × IAMSys Doc × IAMObjectStore :=
  if name = "" then (some errInvalidArgument, sys, store)
  else
    match (if sys.usersSysType = .ldapUsersSysType then normalizeDN name else .ok name) with
    | .error _ => (some errInvalidArgument, sys, store)
    | .ok name =>
      if sys.usersSysType = .otterIOUsersSysType ∧ isGroup = false ∧ ¬ sys.iamUsersMap.contains name then
        (some errNoSuchUser, sys, store)
      else if sys.usersSysType = .otterIOUsersSysType ∧ isGroup = true ∧ ¬ sys.iamGroupsMap.contains name then
        (some errNoSuchGroup, sys, store)
      else if policyName = "" then
        let store := if sys.usersSysType = .ldapUsersSysType
          then (store.deleteMappedPolicy name .regularUser false).2 else store
        let (err, store) := store.deleteMappedPolicy name userType isGroup
        if err ≠ none ∧ err ≠ some errNoSuchPolicy then (err, sys, store)
        else (none, sys.setPolicyMap isGroup ((sys.policyMap isGroup).erase name), store)
      else if (newMappedPolicy policyName).toSlice.all sys.iamPolicyDocsMap.contains then
        let (err, store) := store.saveMappedPolicy name userType isGroup (newMappedPolicy policyName)
        if err ≠ none then (err, sys, store)
        else (none, sys.setPolicyMap isGroup
          ((sys.policyMap isGroup).insert name (newMappedPolicy policyName)), store)
      else (some errNoSuchPolicy, sys, store)

/-! ## What a load leaves in the table -/

end IAMSys

section Load

variable {store : IAMObjectStore} {name : String} {userType : IAMUserType} {isGroup : Bool}
  {m : Table MappedPolicy}

theorem loadMappedPolicy_item {p : MappedPolicy} (h : store.mapping? name userType isGroup = some p) :
    store.loadMappedPolicy name userType isGroup m = (none, m.insert name p) := by
  rw [IAMObjectStore.mapping?] at h
  rw [IAMObjectStore.loadMappedPolicy]
  cases hfile : store.mappings.file (getMappedPolicyPath name userType isGroup) with
  | absent => rw [hfile] at h; cases h
  | item v => rw [hfile] at h; cases h; rfl
  | fault f => rw [hfile] at h; cases h

/-- A load without a mapping leaves the table as it is, also if its error is ignored. -/
theorem loadMappedPolicy_absent (h : store.mapping? name userType isGroup = none) :
    (store.loadMappedPolicy name userType isGroup m).2 = m := by
  rw [IAMObjectStore.mapping?] at h
  rw [IAMObjectStore.loadMappedPolicy]
  cases hfile : store.mappings.file (getMappedPolicyPath name userType isGroup) with
  | absent => rfl
  | item v => rw [hfile] at h; cases h
  | fault f => rfl

/-- The table is the one of the store exactly if a name without a stored mapping had none in the table. -/
theorem loadMappedPolicy_exact_iff :
    (store.loadMappedPolicy name userType isGroup m).2[name]? = store.mapping? name userType isGroup ↔
      (store.mapping? name userType isGroup = none → m[name]? = none) := by
  cases h : store.mapping? name userType isGroup with
  | none => rw [loadMappedPolicy_absent h]; simp
  | some p => rw [loadMappedPolicy_item h]; simp

variable {P V : Type}

theorem delete_file [DecidableEq P] (files : Files P V) (p : P) :
    ((files.delete p).2.file p).get? = if files.refuses p = none then none else (files.file p).get? := by
  unfold Files.delete
  cases hr : files.refuses p with
  | some f => simp
  | none =>
    cases hf : files.file p with
    | absent => simp [hf, Item.get?]
    | item v => simp [Item.get?]
    | fault f => simp [Item.get?]

theorem delete_err [DecidableEq P] {files : Files P V} {p : P}
    (h : (files.delete p).1 = none ∨ (files.delete p).1 = some errConfigNotFound) : files.refuses p = none := by
  unfold Files.delete at h
  cases hr : files.refuses p with
  | none => rfl
  | some f =>
    rw [hr] at h
    rcases h with h | h
    · cases h
    · exact absurd (Option.some.inj h) f.ne_config

theorem delete_ne_policy [DecidableEq P] (files : Files P V) (p : P) :
    (files.delete p).1 ≠ some errNoSuchPolicy := by
  unfold Files.delete
  cases files.refuses p with
  | some f => exact fun h => f.ne_policy (Option.some.inj h)
  | none =>
    cases files.file p with
    | absent => exact show some errConfigNotFound ≠ some errNoSuchPolicy by decide
    | item v => simp
    | fault f => simp

/-- The identity has expired, so that `loadUser` deletes it with the mapping, and the store lets it. -/
def Expires (store : IAMObjectStore) (now : Time) (name : String) (userType : IAMUserType) : Prop :=
  (∃ u, store.identities.file (name, userType) = .item u ∧ u.isExpired now = true) ∧
    store.mappings.refuses (getMappedPolicyPath name userType false) = none

theorem loadUser_mapping? {now : Time} {reissue : Credentials → Option String} {users : Table Credentials} :
    (store.loadUser now reissue name userType users).2.2.mapping? name userType false = none ↔
      store.mapping? name userType false = none ∨ Expires store now name userType := by
  rw [IAMObjectStore.loadUser, Expires]
  cases hfile : store.identities.file (name, userType) with
  | absent => simp [Item.load]
  | fault f => simp [Item.load]
  | item u =>
    simp only [Item.load, Item.item.injEq, exists_eq_left']
    by_cases hexp : u.isExpired now = true
    · rw [if_pos hexp]
      simp only [IAMObjectStore.mapping?, delete_file, hexp, true_and]
      by_cases hr : store.mappings.refuses (getMappedPolicyPath name userType false) = none
      · simp [hr]
      · simp [hr]
    · -- Only the identities change.
      rw [if_neg hexp]
      simp only [hexp, false_and, or_false, Bool.false_eq_true]
      cases (if u.isServiceAccount = true then reissue u else none) with
      | none => exact Iff.rfl
      | some token =>
        split <;> exact Iff.rfl

end Load

namespace IAMSys

variable {Doc : Type} {sys sys' : IAMSys Doc} {store store' : IAMObjectStore} {name : String} {isGroup : Bool}

theorem loadPolicyMapping_table (hetcd : sys.etcd = false)
    (h : sys.loadPolicyMapping store name isGroup = (none, sys')) :
    sys'.policyMap isGroup = (store.loadMappedPolicy name .regularUser isGroup (sys.policyMap isGroup)).2 := by
  simp only [loadPolicyMapping, hetcd, Bool.false_eq_true, if_false] at h
  split_ifs at h with hinit herr
  · cases h
  · exact absurd (congrArg Prod.fst h) herr.1
  · cases h
    simp

/-- The store after `loadUser`: an expired identity takes the mapping with it. -/
theorem loadUser_table {now : Time} {reissue : Credentials → Option String} {userType : IAMUserType}
    (hetcd : sys.etcd = false) (h : sys.loadUser store now reissue name userType = (none, sys', store')) :
    store' = (store.loadUser now reissue name userType sys.iamUsersMap).2.2 ∧
      sys'.policyMap false = (store'.loadMappedPolicy name userType false (sys.policyMap false)).2 := by
  simp only [loadUser, hetcd, Bool.false_eq_true, if_false] at h
  split_ifs at h with hinit herr herr'
  · cases h
  · exact absurd (congrArg Prod.fst h) herr
  · exact absurd (congrArg Prod.fst h) herr'.1
  · cases h
    refine ⟨rfl, ?_⟩
    rfl

theorem policyDBSet_removes {node node' : IAMSys Doc} {normalizeDN : String → Except Error String} (hserver : node.usersSysType = .otterIOUsersSysType)
    (h : node.policyDBSet store normalizeDN name "" .regularUser isGroup = (none, node', store')) :
    store'.mapping? name .regularUser isGroup = none := by
  simp only [policyDBSet, hserver, reduceCtorEq, if_false, if_true, true_and] at h
  split_ifs at h with _ _ _ herr
  · cases h
  · cases h
  · cases h
  · exact absurd (congrArg Prod.fst h) herr.1
  · cases h
    have hdel := delete_file store.mappings (getMappedPolicyPath name .regularUser isGroup)
    have hrefuses : store.mappings.refuses (getMappedPolicyPath name .regularUser isGroup) = none := by
      apply delete_err
      by_contra hne
      rw [not_or] at hne
      apply herr
      simp only [IAMObjectStore.deleteMappedPolicy, if_neg hne.2]
      refine ⟨hne.1, fun hpolicy => ?_⟩
      exact delete_ne_policy _ _ hpolicy
    rw [if_pos hrefuses] at hdel
    exact hdel

/-- When the mapping in memory is the stored one after a load, and what a peer keeps of a mapping that was
removed on another node. -/
theorem reloaded_mapping_exact_iff (sys : IAMSys Doc) (store : IAMObjectStore) (name : String)
    (hetcd : sys.etcd = false) :
    (∀ isGroup sys', sys.loadPolicyMapping store name isGroup = (none, sys') →
      ((sys'.policyMap isGroup)[name]? = store.mapping? name .regularUser isGroup ↔
        (store.mapping? name .regularUser isGroup = none → (sys.policyMap isGroup)[name]? = none))) ∧
    (∀ now reissue sys' store', sys.loadUser store now reissue name .regularUser = (none, sys', store') →
        ((sys'.policyMap false)[name]? = store'.mapping? name .regularUser false ↔
          (store.mapping? name .regularUser false = none ∨ Expires store now name .regularUser →
            (sys.policyMap false)[name]? = none))) ∧
    ∀ (node node' : IAMSys Doc) store' sys' normalizeDN isGroup, node.usersSysType = .otterIOUsersSysType →
      node.policyDBSet store normalizeDN name "" .regularUser isGroup = (none, node', store') →
      sys.loadPolicyMapping store' name isGroup = (none, sys') →
        ((sys'.policyMap isGroup)[name]? = none ↔ (sys.policyMap isGroup)[name]? = none) := by
  refine ⟨fun isGroup sys' h => ?_, fun now reissue sys' store' h => ?_,
    fun node node' store' sys' normalizeDN isGroup hserver hset h => ?_⟩
  · rw [loadPolicyMapping_table hetcd h]
    exact loadMappedPolicy_exact_iff
  · obtain ⟨hstore, htable⟩ := loadUser_table hetcd h
    rw [htable, loadMappedPolicy_exact_iff, hstore, loadUser_mapping?]
  · rw [loadPolicyMapping_table hetcd h, loadMappedPolicy_absent (policyDBSet_removes hserver hset)]

def aliceNode : IAMSys Unit :=
  { newIAMSys .otterIOUsersSysType false with
    iamUsersMap := (∅ : Table Credentials).insert "alice" ⟨"alice", "alicesecret", Time.zero, "", "on", "", []⟩
    iamUserPolicyMap := (∅ : Table MappedPolicy).insert "alice" (newMappedPolicy "readwrite")
    configLoaded := true }

def aliceStore : IAMObjectStore where
  identities := ⟨fun _ => .item ⟨"alice", "alicesecret", Time.zero, "", "on", "", []⟩, fun _ => none⟩
  mappings := ⟨fun p => if p = .users "alice" then .item (newMappedPolicy "readwrite") else .absent, fun _ => none⟩

theorem reloaded_mapping_alice :
    ((aliceNode.loadPolicyMapping aliceStore "alice" false).2.policyMap false)["alice"]? =
      some (newMappedPolicy "readwrite") := by
  have h := (reloaded_mapping_exact_iff aliceNode aliceStore "alice" rfl).1 false
    (aliceNode.loadPolicyMapping aliceStore "alice" false).2 rfl
  exact h.mpr fun hnone => absurd hnone (by decide)

/-- The mapping is removed on a node, the peer processes the notification without an error, and the user
keeps the policy there. -/
theorem detached_policy_stays_on_peer :
    let removal := aliceNode.policyDBSet aliceStore .ok "alice" "" .regularUser false
    let peer := aliceNode.loadPolicyMapping removal.2.2 "alice" false
    removal.1 = none ∧ removal.2.2.mapping? "alice" .regularUser false = none ∧
      removal.2.1.policyDBGet 0 "alice" false = .ok [] ∧
      peer.1 = none ∧ peer.2.policyDBGet 0 "alice" false = .ok ["readwrite"] := by
  decide +kernel

end IAMSys

end Otterio.IAM
