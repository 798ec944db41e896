import Otterio.IAM.Groups
import Otterio.Lib.Run

/-!
# The index of group memberships

* `IndexExact.relink`: a call that changes one group keeps the index exact if it has the group's members.
* `IndexExact.merge_iff`: `Load` only adds to the index. It keeps it exact just when no group of the store
  lacks a member that the group has in memory.
* `IndexExact.policiesExact`: with an exact index, the policies of a user are those of the enabled groups
  of which the user is a member.
-/

namespace Otterio.IAM

open Multimap List

variable {Doc : Type}

namespace IAMSys

def IsMember (sys : IAMSys Doc) (user group : String) : Prop :=
  ∃ gi, sys.iamGroupsMap[group]? = some gi ∧ user ∈ gi.members

/-- The index has a group for a user just when the user is a member of it. -/
def IndexExact (sys : IAMSys Doc) : Prop :=
  ∀ user group, group ∈ sys.iamUserGroupMemberships.values user ↔ sys.IsMember user group

variable {sys sys' : IAMSys Doc} {store : Store Doc} {group user : String} {members : List String}

/-! ## Changes of one group -/

variable {gi : GroupInfo}

theorem isMember_insert (h : sys'.iamGroupsMap = sys.iamGroupsMap.insert group gi) :
    sys'.IsMember user group ↔ user ∈ gi.members := by
  unfold IsMember
  rw [h, Std.ExtTreeMap.getElem?_insert_self]
  constructor
  · rintro ⟨gi', heq, hmem⟩
    rwa [Option.some.inj heq]
  · exact fun hmem => ⟨gi, rfl, hmem⟩

theorem isMember_erase (h : sys'.iamGroupsMap = sys.iamGroupsMap.erase group) : ¬ sys'.IsMember user group := by
  rintro ⟨gi, hgi, -⟩
  rw [h, Std.ExtTreeMap.getElem?_erase_self] at hgi
  cases hgi

theorem IndexExact.relink (h : sys.IndexExact) (group : String)
    (hgroups : ∀ g, g ≠ group → sys'.iamGroupsMap[g]? = sys.iamGroupsMap[g]?)
    (hindex : ∀ u g, g ≠ group →
      (g ∈ sys'.iamUserGroupMemberships.values u ↔ g ∈ sys.iamUserGroupMemberships.values u))
    (hgroup : ∀ u, group ∈ sys'.iamUserGroupMemberships.values u ↔ sys'.IsMember u group) :
    sys'.IndexExact := by
  intro u g
  by_cases hg : g = group
  · rw [hg]
    exact hgroup u
  · rw [hindex u g hg, h u g, IsMember, IsMember, hgroups g hg]

variable {g : String}

theorem getElem?_insert_of_ne (hg : g ≠ group) :
    (sys.iamGroupsMap.insert group gi)[g]? = sys.iamGroupsMap[g]? := by
  rw [Std.ExtTreeMap.getElem?_insert, if_neg (mt Std.compare_eq_iff_eq.mp hg.symm)]

theorem getElem?_erase_of_ne (hg : g ≠ group) :
    (sys.iamGroupsMap.erase group)[g]? = sys.iamGroupsMap[g]? := by
  rw [Std.ExtTreeMap.getElem?_erase, if_neg (mt Std.compare_eq_iff_eq.mp hg.symm)]

theorem IndexExact.insert (h : sys.IndexExact)
    (hgroups : sys'.iamGroupsMap = sys.iamGroupsMap.insert group gi)
    (hindex : ∀ u g, g ≠ group →
      (g ∈ sys'.iamUserGroupMemberships.values u ↔ g ∈ sys.iamUserGroupMemberships.values u))
    (hgroup : ∀ u, group ∈ sys'.iamUserGroupMemberships.values u ↔ u ∈ gi.members) :
    sys'.IndexExact :=
  h.relink group (fun g hg => by rw [hgroups, getElem?_insert_of_ne hg]) hindex fun u => by
    rw [hgroup u, isMember_insert hgroups]

theorem IndexExact.erase (h : sys.IndexExact) (hgroups : sys'.iamGroupsMap = sys.iamGroupsMap.erase group)
    (hindex : ∀ u g, g ≠ group →
      (g ∈ sys'.iamUserGroupMemberships.values u ↔ g ∈ sys.iamUserGroupMemberships.values u))
    (hgroup : ∀ u, group ∉ sys'.iamUserGroupMemberships.values u) :
    sys'.IndexExact :=
  h.relink group (fun g hg => by rw [hgroups, getElem?_erase_of_ne hg]) hindex fun u =>
    iff_of_false (hgroup u) (isMember_erase hgroups)

theorem IndexExact.addUsersToGroup (h : sys.IndexExact) : (sys.addUsersToGroup store group members).2.IndexExact := by
  unfold IAMSys.addUsersToGroup
  split
  · exact h
  split
  · exact h
  split
  · exact h
  split
  · exact h
  split
  · exact h
  -- the group has the members it had and the new ones
  refine h.insert rfl ?_ ?_
  · intro u g hg
    rw [mem_addEach]
    exact or_iff_right fun hnew => hg hnew.2
  · intro u
    rw [mem_addEach, h u group, IsMember]
    cases hfound : sys.iamGroupsMap[group]? with
    | none => simp [newGroupInfo]
    | some gi => simp [or_comm]

theorem IndexExact.removeUsersFromGroup (h : sys.IndexExact) :
    (sys.removeUsersFromGroup store group members).2.IndexExact := by
  unfold IAMSys.removeUsersFromGroup
  split
  · exact h
  split
  · exact h
  split
  · exact h
  split
  · exact h
  split
  · exact h
  rename_i gi hfound
  have hmember : ∀ u, sys.IsMember u group ↔ u ∈ gi.members := fun u => by
    simp [IsMember, hfound]
  by_cases hnone : members = []
  · by_cases hempty : gi.members = []
    · -- the group has no members
      simp only [hnone, hempty, ne_eq, not_true_eq_false, and_false, if_false, if_true]
      split
      · exact h
      split
      · exact h
      refine h.erase rfl (fun u g hg => Iff.rfl) fun u hmem => ?_
      rw [h u group, hmember, hempty] at hmem
      exact not_mem_nil hmem
    · rw [if_pos ⟨hnone, hempty⟩]
      exact h
  · simp only [hnone, false_and, if_false]
    split
    · exact h
    refine h.insert rfl ?_ ?_
    · intro u g hg
      rw [mem_removeEach]
      exact and_iff_left fun hgone => hg hgone.2
    · intro u
      rw [mem_removeEach, h u group, hmember]
      simp

theorem IndexExact.setGroupStatus (h : sys.IndexExact) (enabled : Bool) :
    (sys.setGroupStatus store group enabled).2.IndexExact := by
  unfold IAMSys.setGroupStatus
  split
  · exact h
  split
  · exact h
  split
  · exact h
  split
  · exact h
  rename_i gi hfound
  dsimp only
  split
  · exact h
  refine h.insert rfl (fun u g hg => Iff.rfl) fun u => ?_
  rw [h u group]
  simp [IsMember, hfound]

theorem IndexExact.loadGroup (h : sys.IndexExact) : (sys.loadGroup store group).2.IndexExact := by
  unfold IAMSys.loadGroup
  split
  · exact h
  split
  · exact h
  split
  · split
    · -- the store does not have the group
      refine h.erase rfl (fun u g hg => ?_) fun u hmem => ?_
      · rw [removeGroupFromMembershipsMap, mem_removeAll]
        exact and_iff_left hg
      · rw [removeGroupFromMembershipsMap, mem_removeAll] at hmem
        exact hmem.2 rfl
    · exact h
  · refine h.insert rfl (fun u g hg => ?_) fun u => ?_
    · simp only [updateGroupMembershipsMap, removeGroupFromMembershipsMap, mem_addEach, mem_removeAll]
      tauto
    · simp only [updateGroupMembershipsMap, removeGroupFromMembershipsMap, mem_addEach, mem_removeAll]
      tauto

/-! ## Calls that do not change groups -/

structure SameGroups (sys sys' : IAMSys Doc) : Prop where
  groups : sys'.iamGroupsMap = sys.iamGroupsMap
  index : sys'.iamUserGroupMemberships = sys.iamUserGroupMemberships

theorem SameGroups.refl (sys : IAMSys Doc) : SameGroups sys sys := ⟨rfl, rfl⟩

theorem SameGroups.indexExact (hsame : SameGroups sys sys') (h : sys.IndexExact) : sys'.IndexExact := by
  intro u g
  rw [hsame.index, h u g, IsMember, IsMember, hsame.groups]

theorem sameGroups_loadMissingUser (store : Store Doc) (accessKey : String) :
    SameGroups sys (sys.loadMissingUser store accessKey) := by
  unfold loadMissingUser
  dsimp only
  split
  · exact ⟨rfl, rfl⟩
  split
  · split <;> exact ⟨rfl, rfl⟩
  · split <;> exact ⟨rfl, rfl⟩

theorem mem_buildUserGroupMemberships : group ∈ sys.buildUserGroupMemberships.iamUserGroupMemberships.values user ↔
      sys.IsMember user group ∨ group ∈ sys.iamUserGroupMemberships.values user := by
  unfold buildUserGroupMemberships updateGroupMembershipsMap IsMember
  rw [mem_foldl_addEach]
  simp only [Std.ExtTreeMap.mem_toList_iff_getElem?_eq_some]

theorem IndexExact.buildUserGroupMemberships (h : sys.IndexExact) : sys.buildUserGroupMemberships.IndexExact := by
  intro u g
  rw [mem_buildUserGroupMemberships, h u g, or_self]
  rfl

theorem IndexExact.loadUserFromStore (h : sys.IndexExact) (accessKey : String) :
    (sys.loadUserFromStore store accessKey).IndexExact := by
  apply IndexExact.buildUserGroupMemberships
  by_cases hfound : sys.iamUsersMap.contains accessKey
  · simp only [if_pos hfound]
    exact h
  · simp only [if_neg hfound]
    have hload := (sameGroups_loadMissingUser store accessKey).indexExact h
    exact hload

theorem IndexExact.getUserInfo (h : sys.IndexExact) (name : String) : (sys.getUserInfo store name).2.IndexExact := by
  have hload : (if sys.configLoaded then sys else sys.loadUserFromStore store name).IndexExact := by
    split_ifs
    · exact h
    · exact h.loadUserFromStore name
  unfold IAMSys.getUserInfo
  dsimp only
  split
  · exact hload
  · split <;> exact hload

theorem IndexExact.leaveGroups (h : sys.IndexExact) (accessKey : String) (groups : List String) :
    (sys.leaveGroups store accessKey groups).2.IndexExact := by
  induction groups generalizing sys with
  | nil => exact h
  | cons group groups ih =>
    have hremove := @IndexExact.removeUsersFromGroup Doc sys store group [accessKey] h
    unfold IAMSys.leaveGroups
    split
    · rename_i err sys' heq
      rw [heq] at hremove
      exact hremove
    · rename_i sys' heq
      rw [heq] at hremove
      exact ih hremove

theorem sameGroups_deleteDependents (accessKey : String) : SameGroups sys (sys.deleteDependents store accessKey) := by
  refine List.foldlRecOn _ _ (SameGroups.refl sys) fun t ht e _ => ?_
  split
  · exact ⟨ht.groups, ht.index⟩
  · exact ht

theorem IndexExact.deleteUser (h : sys.IndexExact) (accessKey : String) :
    (sys.deleteUser store accessKey).2.IndexExact := by
  unfold IAMSys.deleteUser
  split
  · exact h
  split
  · exact h
  have hinfo := @IndexExact.getUserInfo Doc sys store h accessKey
  split
  · rename_i err sys₁ heq
    rw [heq] at hinfo
    exact hinfo
  rename_i memberOf sys₁ heq
  rw [heq] at hinfo
  have hleave := @IndexExact.leaveGroups Doc sys₁ store hinfo accessKey memberOf
  split
  · rename_i err sys₂ heq₂
    rw [heq₂] at hleave
    exact hleave
  rename_i sys₂ heq₂
  rw [heq₂] at hleave
  have hdelete := (@sameGroups_deleteDependents Doc sys₂ store accessKey).indexExact hleave
  exact hdelete

/-- No group that is read lacks a member that it has in memory. -/
def NoMemberLost (sys : IAMSys Doc) (groups : Table GroupInfo) : Prop :=
  ∀ (group : String) (gi gi' : GroupInfo), sys.iamGroupsMap[group]? = some gi → groups[group]? = some gi' →
    ∀ member ∈ gi.members, member ∈ gi'.members

theorem IndexExact.merge_iff (h : sys.IndexExact) (loaded : Loaded Doc) (now later : Time) :
    (sys.merge loaded now later).IndexExact ↔ sys.NoMemberLost loaded.iamGroupsMap := by
  have hgroups : ∀ g, (sys.merge loaded now later).iamGroupsMap[g]? =
      loaded.iamGroupsMap[g]?.or sys.iamGroupsMap[g]? := fun g =>
    getElem?_setAll sys.iamGroupsMap loaded.iamGroupsMap g
  have hindex : ∀ u g, g ∈ (sys.merge loaded now later).iamUserGroupMemberships.values u ↔
      (sys.merge loaded now later).IsMember u g ∨ sys.IsMember u g := fun u g => by
    rw [← h u g]
    exact mem_buildUserGroupMemberships
  constructor
  · intro hexact group gi gi' hgi hgi' member hmember
    have hmem := (hexact member group).mp ((hindex member group).mpr (.inr ⟨gi, hgi, hmember⟩))
    obtain ⟨gi'', hgi'', hmember'⟩ := hmem
    rw [hgroups, hgi', Option.some_or] at hgi''
    rwa [Option.some.inj hgi'']
  · intro hkeep u g
    rw [hindex]
    refine or_iff_left_of_imp ?_
    rintro ⟨gi, hgi, hmember⟩
    cases hloaded : loaded.iamGroupsMap[g]? with
    | none => exact ⟨gi, by rw [hgroups, hloaded, Option.none_or, hgi], hmember⟩
    | some gi' =>
      exact ⟨gi', by rw [hgroups, hloaded, Option.some_or], hkeep g gi gi' hgi hloaded u hmember⟩

/-- A valid user gets their own policies and those of the enabled groups of which they are a member. -/
def PoliciesExact (sys : IAMSys Doc) : Prop :=
  ∀ (now : Time) (name : String) (cred : Credentials),
    sys.usersSysType = .otterIOUsersSysType → sys.iamUsersMap[name]? = some cred →
    cred.isValid now → ∃ policies, sys.policyDBGet now name false = .ok policies ∧
      ∀ policy, policy ∈ policies ↔ policy ∈ sys.ownPolicies name cred.parentUser ∨
        ∃ group gi, sys.iamGroupsMap[group]? = some gi ∧ name ∈ gi.members ∧
          gi.status ≠ statusDisabled ∧ policy ∈ mappedPolicies sys.iamGroupPolicyMap group

theorem mem_groupPolicies {policy : String} :
    policy ∈ sys.groupPolicies group ↔ ∃ gi, sys.iamGroupsMap[group]? = some gi ∧
      gi.status ≠ statusDisabled ∧ policy ∈ mappedPolicies sys.iamGroupPolicyMap group := by
  unfold groupPolicies
  cases sys.iamGroupsMap[group]? with
  | none => simp
  | some gi => by_cases hdisabled : gi.status = statusDisabled <;> simp [hdisabled]

theorem IndexExact.policiesExact (h : sys.IndexExact) : sys.PoliciesExact := by
  intro now name cred htype hcred hvalid
  refine ⟨sys.ownPolicies name cred.parentUser ++
    (sys.iamUserGroupMemberships.values name).toList.flatMap sys.groupPolicies, ?_, fun policy => ?_⟩
  · simp [policyDBGet, htype, hcred, hvalid]
  · rw [mem_append, mem_flatMap]
    refine or_congr_right ⟨?_, ?_⟩
    · rintro ⟨group, hgroup, hpolicy⟩
      obtain ⟨gi, hgi, hmember⟩ := (h name group).mp (Std.ExtTreeSet.mem_toList.mp hgroup)
      obtain ⟨gi', hgi', hstatus, hmapped⟩ := mem_groupPolicies.mp hpolicy
      obtain rfl : gi = gi' := Option.some.inj (hgi.symm.trans hgi')
      exact ⟨group, gi, hgi, hmember, hstatus, hmapped⟩
    · rintro ⟨group, gi, hgi, hmember, hstatus, hmapped⟩
      exact ⟨group, Std.ExtTreeSet.mem_toList.mpr ((h name group).mpr ⟨gi, hgi, hmember⟩),
        mem_groupPolicies.mpr ⟨gi, hgi, hstatus, hmapped⟩⟩

/-! ## Sequences of calls -/

/-- The calls that change groups, and those that read them from the store. -/
inductive Call (Doc : Type) where
  | addUsersToGroup (group : String) (members : List String)
  | removeUsersFromGroup (group : String) (members : List String)
  | setGroupStatus (group : String) (enabled : Bool)
  | deleteUser (accessKey : String)
  | loadGroup (group : String)
  | load (canned : List (String × Doc)) (now later : Time)

def perform (sys : IAMSys Doc) : Call Doc × Store Doc → Option Error × IAMSys Doc
  | (.addUsersToGroup group members, store) => sys.addUsersToGroup store group members
  | (.removeUsersFromGroup group members, store) => sys.removeUsersFromGroup store group members
  | (.setGroupStatus group enabled, store) => sys.setGroupStatus store group enabled
  | (.deleteUser accessKey, store) => sys.deleteUser store accessKey
  | (.loadGroup group, store) => sys.loadGroup store group
  | (.load canned now later, store) => sys.load store canned now later

def after (sys : IAMSys Doc) (calls : List (Call Doc × Store Doc)) : IAMSys Doc :=
  calls.foldl (fun sys call => (sys.perform call).2) sys

/-- The condition on a call: a `Load` reads no group that lacks a member which it has in memory. -/
def KeepsMembers (sys : IAMSys Doc) : Call Doc × Store Doc → Prop
  | (.load canned _ _, store) =>
    ∀ loaded, sys.loadMaps store canned = .ok loaded → sys.NoMemberLost loaded.iamGroupsMap
  | _ => True

theorem IndexExact.perform_iff (h : sys.IndexExact) (call : Call Doc × Store Doc) :
    (sys.perform call).2.IndexExact ↔ sys.KeepsMembers call := by
  obtain ⟨call, store⟩ := call
  cases call with
  | addUsersToGroup group members => exact iff_of_true h.addUsersToGroup trivial
  | removeUsersFromGroup group members => exact iff_of_true h.removeUsersFromGroup trivial
  | setGroupStatus group enabled => exact iff_of_true (h.setGroupStatus enabled) trivial
  | deleteUser accessKey => exact iff_of_true (h.deleteUser accessKey) trivial
  | loadGroup group => exact iff_of_true h.loadGroup trivial
  | load canned now later =>
    unfold perform KeepsMembers
    simp only [IAMSys.load]
    cases hload : sys.loadMaps store canned with
    | error err => exact iff_of_true h fun loaded hloaded => by cases hloaded
    | ok loaded =>
      rw [h.merge_iff]
      constructor
      · rintro hkeep _ ⟨⟩
        exact hkeep
      · intro hkeep
        exact hkeep loaded rfl

theorem keepsMembers_of_error {call : Call Doc × Store Doc} {err : Error}
    (h : (sys.perform call).1 = some err) : sys.KeepsMembers call := by
  obtain ⟨call, store⟩ := call
  cases call with
  | load canned now later =>
    intro loaded hloaded
    simp only [perform, IAMSys.load, hloaded] at h
    cases h
  | _ => trivial

theorem indexExact_newIAMSys (usersSysType : UsersSysType) (etcd : Bool) :
    (newIAMSys usersSysType etcd : IAMSys Doc).IndexExact := by
  intro u g
  refine iff_of_false ?_ ?_
  · unfold newIAMSys values
    simp
  · rintro ⟨gi, hgi, -⟩
    unfold newIAMSys at hgi
    simp at hgi

/-- After each call without an error the index is exact, and a user gets the policies of the groups of
which they are a member, just when no `Load` reads a group that lacks a member which it has in memory. -/
theorem groupIndex_exact_iff (usersSysType : UsersSysType) (etcd : Bool) (calls : List (Call Doc × Store Doc)) :
    (∀ pre call, pre ++ [call] <+: calls → (((newIAMSys usersSysType etcd).after pre).perform call).1 = none →
      (((newIAMSys usersSysType etcd).after pre).perform call).2.IndexExact ∧
        (((newIAMSys usersSysType etcd).after pre).perform call).2.PoliciesExact) ↔
      ∀ pre call, pre ++ [call] <+: calls → ((newIAMSys usersSysType etcd).after pre).KeepsMembers call := by
  have hinit := @indexExact_newIAMSys Doc usersSysType etcd
  have hrun := @holds_along_iff (IAMSys Doc) (Call Doc × Store Doc) (fun sys call => (sys.perform call).2)
    (fun _ => True) IndexExact KeepsMembers calls (fun _ _ _ _ => trivial)
    (fun sys call _ _ h => h.perform_iff call) _ trivial hinit
  constructor
  · intro hall
    refine hrun.mp fun pre => ?_
    -- a call with an error keeps the index exact as well
    induction pre using List.reverseRecOn with
    | nil => exact fun _ => hinit
    | append_singleton pre call ih =>
      intro hpre
      have hbefore := ih ((prefix_append pre [call]).trans hpre)
      rw [foldl_append]
      cases herr : (((newIAMSys usersSysType etcd).after pre).perform call).1 with
      | none => exact (hall pre call hpre herr).1
      | some err => exact (IndexExact.perform_iff hbefore call).mpr (keepsMembers_of_error herr)
  · intro hkeep pre call hpre _
    have hexact := hrun.mpr hkeep (pre ++ [call]) hpre
    rw [foldl_append] at hexact
    exact ⟨hexact, IndexExact.policiesExact hexact⟩

/-- A store with one user and one group, whose policy is `readwrite`. -/
def staffStore (members : List String) : Store Unit where
  saveGroupInfo _ := none
  deleteGroupInfo _ := none
  deleteMappedPolicy _ := none
  deleteUserIdentity _ := none
  loadPolicyDoc _ := .error errNoSuchPolicy
  loadPolicyDocs := .ok ∅
  loadUser _ _ := .error errNoSuchUser
  loadUsers
    | .regularUser => .ok ((∅ : Table Credentials).insert "alice" ⟨"alice", "alicesecret", Time.zero, "", "on", "", []⟩)
    | _ => .ok ∅
  loadGroup _ := .ok ⟨1, statusEnabled, members⟩
  loadGroups := .ok ((∅ : Table GroupInfo).insert "staff" ⟨1, statusEnabled, members⟩)
  loadMappedPolicy _ _ := .error errNoSuchPolicy
  loadMappedPolicies
    | .regularUser, true => .ok ((∅ : Table MappedPolicy).insert "staff" ⟨1, "readwrite"⟩)
    | _, _ => .ok ∅

/-- Another node removes the only member of a group, and the server loads the store again. The user still
has the policy of the group. -/
theorem groupIndex_keeps_removed_member :
    let sys := (newIAMSys .otterIOUsersSysType false).after [(.load [] 0 0, staffStore ["alice"])]
    let call : Call Unit × Store Unit := (.load [] 0 0, staffStore [])
    (sys.perform call).1 = none ∧ (sys.perform call).2.iamGroupsMap["staff"]? = some ⟨1, statusEnabled, []⟩ ∧
      "staff" ∈ (sys.perform call).2.iamUserGroupMemberships.values "alice" ∧
      (sys.perform call).2.policyDBGet 0 "alice" false = .ok ["readwrite"] ∧
      ¬ (sys.perform call).2.IndexExact := by
  intro sys call
  have hgroups : (sys.perform call).2.iamGroupsMap["staff"]? = some ⟨1, statusEnabled, []⟩ := by
    decide +kernel
  have hindex : "staff" ∈ (sys.perform call).2.iamUserGroupMemberships.values "alice" := by
    decide +kernel
  refine ⟨by decide +kernel, hgroups, hindex, by decide +kernel, fun hexact => ?_⟩
  obtain ⟨gi, hgi, hmember⟩ := (hexact "alice" "staff").mp hindex
  rw [← Option.some.inj hgi] at hmember
  exact not_mem_nil hmember

end IAMSys

end Otterio.IAM
