import Otterio.XL.Outcomes

/-!
# Reclaiming data directories

`DeleteVersion` returns the data directory that `xlStorage.DeleteVersion` then moves to the trash.
Versions may share a directory, so it must not be returned while another version needs it.

* `WellFormed`: the versions have distinct ids and none is a legacy one. Every reachable journal is
  well formed (`wellFormed_of_reachable`).

The returned directory is free to go exactly when the deleted version has no inline data, or no
version that needs the directory shares it.
-/

namespace Otterio

open Err List

/-! ## Well-formed journals -/

def Version.id? : Version → Option UUID
  | .object o => some o.versionID
  | .deleteMarker m => some m.versionID
  | _ => none

def Version.isCurrent : Version → Bool
  | .legacy _ => false
  | _ => true

/-- Distinct ids and no legacy version. -/
structure WellFormed (vs : List Version) : Prop where
  nodup : (vs.filterMap Version.id?).Nodup
  current : ∀ v ∈ vs, v.isCurrent = true

namespace WellFormed

variable {pre post vs : List Version} {v w : Version}

theorem replace (h : WellFormed (pre ++ v :: post)) (hid : w.id? = v.id?)
    (hw : w.isCurrent = true) : WellFormed (pre ++ w :: post) where
  nodup := by
    have hnodup := h.nodup
    rw [filterMap_append, filterMap_cons] at hnodup ⊢
    rwa [hid]
  current u hu := by
    simp only [mem_append, mem_cons] at hu
    obtain hu | rfl | hu := hu
    · exact h.current u (by simp [hu])
    · exact hw
    · exact h.current u (by simp [hu])

theorem remove (h : WellFormed (pre ++ v :: post)) : WellFormed (pre ++ post) where
  nodup := by
    refine h.nodup.sublist (List.Sublist.filterMap _ ?_)
    exact List.Sublist.append_left (sublist_cons_self v post) pre
  current u hu := h.current u (by
    simp only [mem_append, mem_cons] at hu ⊢
    tauto)

theorem append (h : WellFormed vs) (hfresh : ∀ u ∈ vs, w.id? ≠ none → u.id? ≠ w.id?)
    (hw : w.isCurrent = true) : WellFormed (vs ++ [w]) where
  nodup := by
    rw [filterMap_append]
    cases hid : w.id? with
    | none => simpa [hid] using h.nodup
    | some i =>
      have hnew : i ∉ vs.filterMap Version.id? := by
        intro hmem
        obtain ⟨u, hu, hui⟩ := mem_filterMap.mp hmem
        exact hfresh u hu (by simp [hid]) (hui.trans hid.symm)
      have hone : [w].filterMap Version.id? = [i] := by simp [hid]
      rw [hone, nodup_append]
      refine ⟨h.nodup, nodup_singleton i, fun a ha b hb => ?_⟩
      rw [mem_singleton.mp hb]
      exact ne_of_mem_of_not_mem ha hnew
  current u hu := by
    obtain hu | hu := mem_append.mp hu
    · exact h.current u hu
    · rw [mem_singleton.mp hu]
      exact hw

theorem id_ne (h : WellFormed (pre ++ v :: post)) {i : UUID} (hv : v.id? = some i) :
    ∀ u ∈ pre ++ post, u.id? ≠ some i := by
  intro u hu hui
  have hnodup := h.nodup
  grind

end WellFormed

/-- One version is changed without changing its id, or the version with the id is removed. -/
inductive VersionEdit (fi : FileInfo) (uv : UUID) (vs : List Version) : List Version → Prop where
  | change {pre post : List Version} {v w : Version} (hvs : vs = pre ++ v :: post)
      (hid : w.id? = v.id?) (hcur : w.isCurrent = true) : VersionEdit fi uv vs (pre ++ w :: post)
  | remove {pre post : List Version} {v : Version} (hvs : vs = pre ++ v :: post)
      (hid : v.id? = some uv) (b : Bool) :
      VersionEdit fi uv vs (appendIf b (deleteEntry fi uv) (pre ++ post))

/-- The object version with the id is transitioned or removed, and its directory is freed unless it
is shared. -/
inductive ObjectDeleted (lib : UuidLib) (data : InlineData) (fi : FileInfo) (uv : UUID)
    (vs : List Version) : List Version → String → Prop where
  | transition {pre post : List Version} {o : ObjectV2} (hvs : vs = pre ++ .object o :: post)
      (hid : o.versionID = uv) (hstatus : fi.transitionStatus ≠ "") :
      ObjectDeleted lib data fi uv vs (pre ++ .object (transitionObject fi o) :: post)
        (freedDir lib ⟨pre ++ .object (transitionObject fi o) :: post, data⟩ o)
  | remove {pre post : List Version} {o : ObjectV2} (hvs : vs = pre ++ .object o :: post)
      (hid : o.versionID = uv) (hstatus : fi.transitionStatus = "") :
      ObjectDeleted lib data fi uv vs (appendIf fi.deleted (deleteEntry fi uv) (pre ++ post))
        (freedDir lib ⟨pre ++ post, data⟩ o)

/-! ## The operations -/

variable {uv : UUID}

theorem Version.id?_of_isReplacedBy {v : Version} (versionID : String) (hcur : v.isCurrent = true) :
    v.isReplacedBy versionID uv = true ↔ v.id? = some uv := by
  cases v with
  | legacy o => cases hcur
  | object o => simp [isReplacedBy, id?]
  | deleteMarker m => simp [isReplacedBy, id?]
  | zero => simp [isReplacedBy, id?]

theorem addEntry_id? (fi : FileInfo) (uv dd : UUID) :
    (addEntry fi uv dd).id? = some uv ∧ (addEntry fi uv dd).isCurrent = true := by
  unfold addEntry
  cases fi.deleted <;> exact ⟨rfl, rfl⟩

theorem deleteEntry_id? (fi : FileInfo) (uv : UUID) :
    (deleteEntry fi uv).id? = if fi.deleted then some uv else none := by
  unfold deleteEntry
  cases fi.deleted <;> rfl

theorem deleteEntry_isCurrent (fi : FileInfo) (uv : UUID) : (deleteEntry fi uv).isCurrent = true := by
  unfold deleteEntry
  cases fi.deleted <;> rfl

variable {lib : UuidLib} {z z' : XLMeta} {fi : FileInfo} {dir : String} {last : Bool}

/-- What `DeleteVersion` does to a journal without legacy versions. Only the deletion of an object
version frees a directory. -/
theorem deleteVersion_current (hcur : ∀ v ∈ z.versions, v.isCurrent = true)
    (h : deleteVersion lib z fi = .ok (z', dir, last)) :
    ∃ uv, lib.versionUUID fi.versionID = .ok uv ∧ z'.data = z.data ∧
      ((dir = "" ∧ VersionEdit fi uv z.versions z'.versions) ∨
      ObjectDeleted lib z.data fi uv z.versions z'.versions dir ∨
      (dir = "" ∧ (∀ v ∈ z.versions, v.id? ≠ some uv) ∧ z'.versions = z.versions ++ [deleteEntry fi uv])) := by
  obtain ⟨uv, huv, hdata, -, hout⟩ := deleteVersion_cases h
  refine ⟨uv, huv, hdata, ?_⟩
  have hlegacy : ∀ {pre post : List Version} {o : ObjectV1}, z.versions ≠ pre ++ .legacy o :: post := by
    intro pre post o hvs
    have hlegacy := hcur (.legacy o) (by simp [hvs])
    cases hlegacy
  generalize z'.versions = left at hout ⊢
  cases hout with
  | legacyTransition hvs => exact absurd hvs hlegacy
  | legacyRemove hvs => exact absurd hvs hlegacy
  | markerUpdate hvs hid => exact .inl ⟨rfl, .change hvs (by simp [Version.id?]) rfl⟩
  | markerRemove hvs hid => exact .inl ⟨rfl, .remove hvs (congrArg some hid) _⟩
  | objectPurge hvs hid => exact .inl ⟨rfl, .change hvs (by simp [Version.id?]) rfl⟩
  | objectTransition hvs hid hstatus => exact .inr (.inl (.transition hvs hid hstatus))
  | objectRemove hvs hid hstatus => exact .inr (.inl (.remove hvs hid hstatus))
  | append hfresh =>
    refine .inr (.inr ⟨rfl, fun v hv hid => hfresh v hv ?_, rfl⟩)
    cases v with
    | object o => exact Option.some.inj hid
    | deleteMarker m => exact Option.some.inj hid
    | legacy o => cases hid
    | zero => cases hid

/-! ## Every reachable journal is well formed -/

variable {vs : List Version}

theorem WellFormed.appendIf (h : WellFormed vs) (b : Bool) (fi : FileInfo)
    (hfresh : ∀ u ∈ vs, u.id? ≠ some uv) : WellFormed (appendIf b (deleteEntry fi uv) vs) := by
  cases b with
  | false => exact h
  | true =>
    refine h.append (fun u hu hne => ?_) (deleteEntry_isCurrent fi uv)
    rw [deleteEntry_id?] at hne ⊢
    cases hdel : fi.deleted with
    | false => simp [hdel] at hne
    | true => simpa using hfresh u hu

theorem WellFormed.addVersion (hwf : WellFormed z.versions) (h : addVersion lib z fi = .ok z') :
    WellFormed z'.versions := by
  obtain ⟨uv, dd, hadd⟩ := addVersion_cases h
  obtain ⟨hid, hcur⟩ := addEntry_id? fi uv dd
  obtain ⟨pre, v, post, hvs, hrep, heq⟩ | ⟨hnone, heq⟩ := replaceOrAppend_cases hadd.versions
  · rw [hvs] at hwf
    have hv := (Version.id?_of_isReplacedBy _ (hwf.current v (by simp))).mp hrep
    rw [heq]
    exact hwf.replace (hid.trans hv.symm) hcur
  · rw [heq]
    refine hwf.append (fun u hu _ heq => ?_) hcur
    have hrep := hnone u hu
    rw [(Version.id?_of_isReplacedBy _ (hwf.current u hu)).mpr (heq.trans hid)] at hrep
    cases hrep

theorem WellFormed.updateObjectVersion (hwf : WellFormed z.versions)
    (h : updateObjectVersion lib z fi = .ok z') : WellFormed z'.versions := by
  obtain ⟨uv, -, -, hout⟩ := updateObjectVersion_cases h
  generalize z'.versions = left at hout ⊢
  cases hout with
  | @legacy _ _ o hvs =>
    have hcur := hwf.current (.legacy o) (by simp [hvs])
    cases hcur
  | object hvs =>
    rw [hvs] at hwf
    exact hwf.replace (by simp [Version.id?]) rfl

theorem WellFormed.deleteVersion (hwf : WellFormed z.versions)
    (h : deleteVersion lib z fi = .ok (z', dir, last)) : WellFormed z'.versions := by
  obtain ⟨uv, -, -, ⟨-, hedit⟩ | hdel | ⟨-, hfresh, heq⟩⟩ := deleteVersion_current hwf.current h
  · generalize z'.versions = left at hedit ⊢
    cases hedit with
    | change hvs hid hcur =>
      rw [hvs] at hwf
      exact hwf.replace hid hcur
    | remove hvs hid b =>
      rw [hvs] at hwf
      exact hwf.remove.appendIf b fi (hwf.id_ne hid)
  · generalize z'.versions = left at hdel ⊢
    cases hdel with
    | transition hvs hid hstatus =>
      rw [hvs] at hwf
      exact hwf.replace (by simp [Version.id?]) rfl
    | remove hvs hid hstatus =>
      rw [hvs] at hwf
      exact hwf.remove.appendIf _ fi (hwf.id_ne (congrArg some hid))
  · rw [heq]
    exact hwf.appendIf true fi hfresh

theorem wellFormed_of_reachable (h : (journal lib).Reachable z) : WellFormed z.versions := by
  refine h.invariant (I := fun z => WellFormed z.versions) (fun s hs => ?_) fun s t _ hwf hstep => ?_
  · rw [hs]
    exact ⟨nodup_nil, by simp⟩
  · cases hstep with
    | add fi h => exact hwf.addVersion h
    | update fi h => exact hwf.updateObjectVersion h
    | delete fi h => exact hwf.deleteVersion h

/-! ## Who needs a directory -/

/-- The key under which a version's own data is read (`getFileInfo`). -/
def ownKey (lib : UuidLib) (o : ObjectV2) : String :=
  if o.versionID = 0 then nullVersionID else lib.toString o.versionID

/-- The version has no inline data, and it is not away in a tier: it is read from its shards. -/
def NeedsShards (lib : UuidLib) (data : InlineData) (o : ObjectV2) : Prop :=
  data.find (ownKey lib o) = none ∧ o.tieredAway = false

/-- No version of the journal needs the directory. -/
def ReclaimSafe (lib : UuidLib) (z : XLMeta) (dir : String) : Prop :=
  ∀ o, .object o ∈ z.versions → lib.toString o.dataDir = dir → ¬ NeedsShards lib z.data o

theorem hasRestoreHeader_removeRestoreHeader (m : GoMap String String) :
    hasRestoreHeader (removeRestoreHeader m) = false := by
  cases m with
  | none => rfl
  | some t =>
    have h₁ : equalFold "x-amz-restore" "x-amz-restore" = true := by decide
    have h₂ : equalFold "X-Amz-Restore" "x-amz-restore" = true := by decide
    simp [hasRestoreHeader, removeRestoreHeader, GoMap.get?, h₁, h₂]

/-- A version whose transition was completed no longer needs its shards. -/
theorem tieredAway_transitionObject (h : fi.transitionStatus = transitionComplete) (o : ObjectV2) :
    (transitionObject fi o).tieredAway = true := by
  unfold ObjectV2.tieredAway transitionObject
  simp only [h, ↓reduceIte, hasRestoreHeader_removeRestoreHeader]
  simp [GoMap.getStr, GoMap.get?]

variable {o : ObjectV2}

/-- A directory that is freed although the version is not inline is not shared. -/
theorem freedDir_cases (h : freedDir lib z o ≠ "") : freedDir lib z o = lib.toString o.dataDir ∧
    (z.data.find (lib.toString o.versionID) = none → ∀ o', .object o' ∈ z.versions →
      o'.versionID ≠ o.versionID → o'.dataDir = o.dataDir → o'.tieredAway = true) := by
  unfold freedDir at h ⊢
  split at h
  · exact absurd rfl h
  · rename_i hcount
    rw [if_neg hcount]
    refine ⟨rfl, fun hnone o' ho' hid hdir => ?_⟩
    rw [sharedDataDirCount, hnone, if_neg (by simp), Nat.not_lt, Nat.le_zero, countP_eq_zero] at hcount
    have := hcount _ ho'
    simpa [hid, hdir] using this

theorem mem_appendIf_object {b : Bool} :
    .object o ∈ appendIf b (deleteEntry fi uv) vs ↔ .object o ∈ vs := by
  have hne : .object o ≠ deleteEntry fi uv := by
    unfold deleteEntry
    cases fi.deleted <;> exact Version.noConfusion
  cases b <;> simp [appendIf, hne]

/-- The condition on the journal before the deletion: the deleted version is not inline, or no other
version that needs the directory shares it. -/
def SharesSafely (lib : UuidLib) (z : XLMeta) (uv : UUID) : Prop :=
  z.data.find (lib.toString uv) = none ∨
  ∀ o o', .object o ∈ z.versions → o.versionID = uv → .object o' ∈ z.versions →
    o'.versionID ≠ uv → o'.dataDir = o.dataDir → ¬ NeedsShards lib z.data o'

variable {data : InlineData}

/-- Around the deleted version: the condition speaks about the versions before and after it. -/
theorem sharesSafely_iff {pre post : List Version} (hwf : WellFormed (pre ++ .object o :: post))
    (hfree : data.find (lib.toString o.versionID) = none →
      ∀ o', .object o' ∈ pre ++ post → o'.dataDir = o.dataDir → o'.tieredAway = true) :
    SharesSafely lib ⟨pre ++ .object o :: post, data⟩ o.versionID ↔
      ∀ o', .object o' ∈ pre ++ post → o'.dataDir = o.dataDir → ¬ NeedsShards lib data o' := by
  have hother : ∀ o', .object o' ∈ pre ++ post → o'.versionID ≠ o.versionID := fun o' ho' hid =>
    hwf.id_ne (i := o.versionID) rfl _ ho' (congrArg some hid)
  constructor
  · rintro (hnone | hothers) o' ho' hdir hneeds
    · rw [NeedsShards, hfree hnone o' ho' hdir] at hneeds
      cases hneeds.2
    · refine hothers o o' (by simp) rfl ?_ (hother o' ho') hdir hneeds
      simp only [mem_append, mem_cons] at ho' ⊢
      tauto
  · intro h
    refine .inr fun a o' ha haid ho' hid hdir => ?_
    -- The deleted version is the only one with its id.
    have hao : a = o := by
      simp only [mem_append, mem_cons, Version.object.injEq] at ha
      by_contra hne
      exact hother a (by simp only [mem_append]; tauto) haid
    subst hao
    refine h o' ?_ hdir
    simp only [mem_append, mem_cons, Version.object.injEq] at ho' ⊢
    obtain ho' | rfl | ho' := ho'
    · exact .inl ho'
    · exact absurd rfl hid
    · exact .inr ho'

/-- What is left after the deletion: the versions before and after the deleted one, and entries that
need no shards. -/
theorem reclaimSafe_iff_rest {rest left : List Version}
    (hsub : ∀ o', .object o' ∈ rest → .object o' ∈ left)
    (hnew : ∀ o', .object o' ∈ left → .object o' ∈ rest ∨ ¬ NeedsShards lib data o') :
    ReclaimSafe lib ⟨left, data⟩ (lib.toString o.dataDir) ↔
      ∀ o', .object o' ∈ rest → o'.dataDir = o.dataDir → ¬ NeedsShards lib data o' := by
  constructor
  · intro h o' ho' hdir
    exact h o' (hsub o' ho') (congrArg lib.toString hdir)
  · intro h o' ho' hdir
    obtain ho' | hno := hnew o' ho'
    · exact h o' ho' (lib.toString_inj hdir)
    · exact hno

/-- **A data directory is reclaimed safely** exactly when the deleted version is not inline, or no
other version that needs the directory shares it. -/
theorem reclaim_safe_iff {lib : UuidLib} {z z' : XLMeta} {fi : FileInfo} {uv : UUID} {dir : String} {last : Bool}
    (hreach : (journal lib).Reachable z)
    (hstatus : fi.transitionStatus = "" ∨ fi.transitionStatus = transitionComplete)
    (hdelete : deleteVersion lib z fi = .ok (z', dir, last)) (hdir : dir ≠ "")
    (huv : lib.versionUUID fi.versionID = .ok uv) : ReclaimSafe lib z' dir ↔ SharesSafely lib z uv := by
  have hwf := wellFormed_of_reachable hreach
  obtain ⟨uv', huv', hdata, hcases⟩ := deleteVersion_current hwf.current hdelete
  obtain rfl : uv' = uv := Except.ok.inj (huv'.symm.trans huv)
  obtain ⟨rfl, -⟩ | hdel | ⟨rfl, -, -⟩ := hcases
  · exact absurd rfl hdir
  · obtain ⟨vs, data⟩ := z
    obtain ⟨left, data'⟩ := z'
    simp only at hdata hdel hwf
    subst hdata
    cases hdel with
    | @transition pre post o hvs hid hset =>
      subst hvs hid
      have hmem : ∀ o', .object o' ∈ pre ++ post → .object o' ∈ pre ++ .object (transitionObject fi o) :: post := by
        intro o' ho'
        simp only [mem_append, mem_cons] at ho' ⊢
        tauto
      obtain ⟨heq, hfree⟩ := freedDir_cases hdir
      rw [heq, sharesSafely_iff hwf fun hnone o' ho' => hfree hnone o' (hmem o' ho')
        fun hid => hwf.id_ne (i := o.versionID) rfl _ ho' (congrArg some hid)]
      refine reclaimSafe_iff_rest hmem fun o' ho' => ?_
      simp only [mem_append, mem_cons, Version.object.injEq] at ho' ⊢
      obtain ho' | rfl | ho' := ho'
      · exact .inl (.inl ho')
      · -- The version itself is complete now.
        right
        rw [NeedsShards, tieredAway_transitionObject (hstatus.resolve_left hset)]
        simp
      · exact .inl (.inr ho')
    | @remove pre post o hvs hid hset =>
      subst hvs hid
      obtain ⟨heq, hfree⟩ := freedDir_cases hdir
      rw [heq, sharesSafely_iff hwf fun hnone o' ho' => hfree hnone o' ho'
        fun hid => hwf.id_ne (i := o.versionID) rfl _ ho' (congrArg some hid)]
      exact reclaimSafe_iff_rest (fun o' => mem_appendIf_object.mpr)
        fun o' ho' => .inl (mem_appendIf_object.mp ho')
  · exact absurd rfl hdir

/-! ## A shared directory -/

/-- A version whose data is in the directory `9`, and inline as well when there are bytes. -/
def sharingVersion (versionID : String) (data : List UInt8) : FileInfo :=
  { volume := "bucket", name := "object", versionID := versionID, dataDir := "9", modTime := 1,
    size := 1, data := data,
    erasure :=
      { algorithm := "ReedSolomon", dataBlocks := 1, parityBlocks := 1, blockSize := 1, index := 1,
        distribution := [1, 2] } }

def sharingEntry (versionID : UUID) (data : List UInt8) : Version :=
  .object (newObjectV2 (sharingVersion (decimalIds.toString versionID) data) versionID 9)

/-- Version 1 has its shards in the directory; version 2, made from it as `CopyObject` does, keeps
the directory and has inline data. -/
theorem shared_journal_reachable :
    (journal decimalIds).Reachable ⟨[sharingEntry 1 [], sharingEntry 2 [7]], [("2", [7])]⟩ := by
  have hfirst : addVersion decimalIds ⟨[], []⟩ (sharingVersion "1" []) = .ok ⟨[sharingEntry 1 []], []⟩ := rfl
  have hsecond : addVersion decimalIds ⟨[sharingEntry 1 []], []⟩ (sharingVersion "2" [7]) =
      .ok ⟨[sharingEntry 1 [], sharingEntry 2 [7]], [("2", [7])]⟩ := rfl
  exact .step (.step (.init rfl) (.add _ hfirst)) (.add _ hsecond)

/-- Deleting version 2 returns the directory, which version 1 still needs. -/
theorem deleteVersion_frees_needed_dir :
    (journal decimalIds).Reachable ⟨[sharingEntry 1 [], sharingEntry 2 [7]], [("2", [7])]⟩ ∧
    deleteVersion decimalIds ⟨[sharingEntry 1 [], sharingEntry 2 [7]], [("2", [7])]⟩
      { versionID := "2" } = .ok (⟨[sharingEntry 1 []], [("2", [7])]⟩, "9", false) ∧
    ¬ ReclaimSafe decimalIds ⟨[sharingEntry 1 []], [("2", [7])]⟩ "9" := by
  refine ⟨shared_journal_reachable, rfl, fun h => ?_⟩
  exact h _ mem_cons_self rfl ⟨by decide, by decide⟩

/-- The directory of a version that is alone is reclaimed safely. -/
theorem deleteVersion_frees_unshared_dir : ReclaimSafe decimalIds ⟨[], []⟩ "9" := by
  have hadd : addVersion decimalIds ⟨[], []⟩ (sharingVersion "1" []) = .ok ⟨[sharingEntry 1 []], []⟩ := rfl
  have hdelete : deleteVersion decimalIds ⟨[sharingEntry 1 []], []⟩ { versionID := "1" } =
      .ok (⟨[], []⟩, "9", true) := rfl
  exact (reclaim_safe_iff (.step (.init rfl) (.add _ hadd)) (.inl rfl) hdelete (by decide)
    rfl).mpr (.inl rfl)

end Otterio
