import Otterio.XL.Journal

/-!
# What the journal operations do

One inversion lemma for each operation of the journal. A successful call edits the list of versions
in one place, and the lemma says where and how.

* `addVersion_cases`: the entry takes the place of the version it replaces, or the end of the list.
* `updateObjectVersion_cases`: one version is updated (`UpdateOutcome`).
* `deleteVersion_cases`: one version is updated or removed, or a delete marker is added
  (`DeleteOutcome`).
-/

namespace Otterio

open Err Except

/-- The text names the legacy version, in `UpdateObjectVersion` and `DeleteVersion`. -/
def ObjectV1.IsNamed (versionID : String) (o : ObjectV1) : Prop :=
  o.versionID = versionID ∨ (o.versionID = nullVersionID ∧ versionID = "")

/-- The version that a call with this text, of this id, is about. -/
def Version.IsNamed (versionID : String) (uv : UUID) : Version → Prop
  | .legacy o => o.IsNamed versionID
  | .object o => o.versionID = uv
  | .deleteMarker m => m.versionID = uv
  | .zero => False

@[simp] theorem UuidLib.versionUUID_orNull (lib : UuidLib) (versionID : String) :
    lib.versionUUID (if versionID = "" then nullVersionID else versionID) = lib.versionUUID versionID := by
  unfold UuidLib.versionUUID
  split <;> simp_all

@[simp] theorem UuidLib.versionUUID_orEmpty (lib : UuidLib) (versionID : String) :
    lib.versionUUID (if versionID = nullVersionID then "" else versionID) = lib.versionUUID versionID := by
  unfold UuidLib.versionUUID
  split <;> simp_all

variable {versionID : String} {uv : UUID} {vs vs' : List Version}

theorem replaceOrAppend_cases {ventry : Version} (h : replaceOrAppend ventry versionID uv vs = .ok vs') :
    (∃ pre v post, vs = pre ++ v :: post ∧ v.isReplacedBy versionID uv = true ∧ vs' = pre ++ ventry :: post) ∨
    ((∀ v ∈ vs, v.isReplacedBy versionID uv = false) ∧ vs' = vs ++ [ventry]) := by
  induction vs generalizing vs' with
  | nil =>
    rw [replaceOrAppend, ok.injEq] at h
    exact .inr ⟨by simp, h.symm⟩
  | cons v vs ih =>
    rw [replaceOrAppend] at h
    split at h
    · cases h
    · cases hrep : v.isReplacedBy versionID uv with
      | true =>
        rw [hrep, if_pos rfl, ok.injEq] at h
        exact .inl ⟨[], v, vs, rfl, hrep, h.symm⟩
      | false =>
        rw [hrep, if_neg Bool.false_ne_true] at h
        obtain ⟨tail, htail, rfl⟩ := Result.map_eq_ok h
        obtain ⟨pre, w, post, rfl, hw, rfl⟩ | ⟨hall, rfl⟩ := ih htail
        · exact .inl ⟨v :: pre, w, post, rfl, hw, rfl⟩
        · refine .inr ⟨?_, rfl⟩
          intro u hu
          obtain rfl | hu := List.mem_cons.mp hu
          · exact hrep
          · exact hall u hu

structure AddOutcome (lib : UuidLib) (z z' : XLMeta) (fi : FileInfo) (uv dd : UUID) : Prop where
  checked : validateStorageFileInfo fi true = .ok ()
  versionUUID : lib.versionUUID fi.versionID = .ok uv
  dataDir : (if fi.dataDir = "" then .ok 0 else lib.parse fi.dataDir) = .ok dd
  valid : (addEntry fi uv dd).valid = true
  data : z'.data = if fi.deleted then z.data
    else inlineAfterAdd z fi (if fi.versionID = "" then nullVersionID else fi.versionID) uv dd
  versions : replaceOrAppend (addEntry fi uv dd)
    (if fi.versionID = "" then nullVersionID else fi.versionID) uv z.versions = .ok z'.versions

theorem addVersion_cases {lib : UuidLib} {z z' : XLMeta} {fi : FileInfo}
    (h : addVersion lib z fi = .ok z') : ∃ uv dd, AddOutcome lib z z' fi uv dd := by
  obtain ⟨_, hchecked, h⟩ := Result.bind_eq_ok h
  obtain ⟨uv, huv, h⟩ := Result.bind_eq_ok h
  obtain ⟨dd, hdd, h⟩ := Result.bind_eq_ok h
  rw [UuidLib.versionUUID_orNull] at huv
  simp only at h
  split at h
  · cases h
  · rename_i hvalid
    obtain ⟨versions, hversions, heq⟩ := Result.bind_eq_ok h
    cases heq
    refine ⟨uv, dd, ?_, ?_, ?_, by simpa using hvalid, rfl, hversions⟩
    · exact Result.ofExcept_eq_ok hchecked
    · exact Result.ofExcept_eq_ok huv
    · exact Result.ofExcept_eq_ok hdd

/-- What a successful `UpdateObjectVersion` does: one version is updated in its place. -/
inductive UpdateOutcome (fi : FileInfo) (versionID : String) (uv : UUID) (vs : List Version) :
    List Version → Prop where
  | legacy {pre post : List Version} {o : ObjectV1} (hvs : vs = pre ++ .legacy o :: post)
      (hnamed : o.IsNamed versionID) (hstatus : fi.transitionStatus ≠ "") :
      UpdateOutcome fi versionID uv vs (pre ++ .legacy (updateLegacy fi o) :: post)
  | object {pre post : List Version} {o : ObjectV2} (hvs : vs = pre ++ .object o :: post)
      (hid : o.versionID = uv) :
      UpdateOutcome fi versionID uv vs (pre ++ .object (updateObject fi o) :: post)

theorem UpdateOutcome.cons {fi : FileInfo} (v : Version)
    (h : UpdateOutcome fi versionID uv vs vs') : UpdateOutcome fi versionID uv (v :: vs) (v :: vs') := by
  cases h with
  | @legacy pre _ _ hvs hnamed hstatus =>
    exact @UpdateOutcome.legacy _ _ _ _ (v :: pre) _ _ (by simp [hvs]) hnamed hstatus
  | @object pre _ _ hvs hid =>
    exact @UpdateOutcome.object _ _ _ _ (v :: pre) _ _ (by simp [hvs]) hid

theorem updateLoop_cases {fi : FileInfo}
    (h : updateLoop fi versionID uv vs = .ok vs') : UpdateOutcome fi versionID uv vs vs' := by
  induction vs generalizing vs' with
  | nil => cases h
  | cons v vs ih =>
    have hrest : ((v :: ·) <$> updateLoop fi versionID uv vs) = .ok vs' →
        UpdateOutcome fi versionID uv (v :: vs) vs' := by
      intro hmap
      obtain ⟨tail, htail, rfl⟩ := Result.map_eq_ok hmap
      exact (ih htail).cons v
    unfold updateLoop at h
    split at h
    · cases h
    · split at h
      · split at h
        · rename_i hnamed
          split at h
          · cases h
          · rename_i hstatus
            rw [← ok.inj h]
            exact @UpdateOutcome.legacy _ _ _ _ [] _ _ rfl hnamed hstatus
        · exact hrest h
      · split at h
        · rename_i hid
          rw [← ok.inj h]
          exact @UpdateOutcome.object _ _ _ _ [] _ _ rfl hid
        · exact hrest h
      · cases h
      · exact hrest h

theorem updateObjectVersion_cases {lib : UuidLib} {z z' : XLMeta} {fi : FileInfo}
    (h : updateObjectVersion lib z fi = .ok z') :
    ∃ uv, lib.versionUUID fi.versionID = .ok uv ∧ z'.data = z.data ∧
      UpdateOutcome fi (if fi.versionID = "" then nullVersionID else fi.versionID) uv
        z.versions z'.versions := by
  obtain ⟨uv, huv, h⟩ := Result.bind_eq_ok h
  obtain ⟨versions, hversions, heq⟩ := Result.bind_eq_ok h
  rw [UuidLib.versionUUID_orNull] at huv
  cases heq
  exact ⟨uv, Result.ofExcept_eq_ok huv, rfl, updateLoop_cases hversions⟩

/-! ## Deleting a version -/

/-- What a successful `DeleteVersion` does to the versions, and the directory that it returns. -/
inductive DeleteOutcome (lib : UuidLib) (data : InlineData) (fi : FileInfo) (versionID : String)
    (uv : UUID) (vs : List Version) : List Version → String → Prop where
  | legacyTransition {pre post : List Version} {o : ObjectV1} (hvs : vs = pre ++ .legacy o :: post)
      (hnamed : o.IsNamed versionID) (hstatus : fi.transitionStatus ≠ "") :
      DeleteOutcome lib data fi versionID uv vs (pre ++ .legacy (transitionLegacy fi o) :: post)
        o.dataDir
  | legacyRemove {pre post : List Version} {o : ObjectV1} (hvs : vs = pre ++ .legacy o :: post)
      (hnamed : o.IsNamed versionID) (hstatus : fi.transitionStatus = "") :
      DeleteOutcome lib data fi versionID uv vs
        (appendIf fi.deleted (deleteEntry fi uv) (pre ++ post)) o.dataDir
  | markerUpdate {pre post : List Version} {m : DeleteMarker}
      (hvs : vs = pre ++ .deleteMarker m :: post) (hid : m.versionID = uv)
      (hupdates : updatesVersion fi = true) :
      DeleteOutcome lib data fi versionID uv vs (pre ++ .deleteMarker (updateMarker fi m) :: post) ""
  | markerRemove {pre post : List Version} {m : DeleteMarker}
      (hvs : vs = pre ++ .deleteMarker m :: post) (hid : m.versionID = uv)
      (hupdates : updatesVersion fi = false) :
      DeleteOutcome lib data fi versionID uv vs
        (appendIf (fi.markDeleted && fi.versionPurgeStatus != purgeComplete) (deleteEntry fi uv)
          (pre ++ post)) ""
  | objectPurge {pre post : List Version} {o : ObjectV2} {sys : GoMap String String}
      (hvs : vs = pre ++ .object o :: post) (hid : o.versionID = uv)
      (hupdates : updatesVersion fi = true) :
      DeleteOutcome lib data fi versionID uv vs (pre ++ .object { o with metaSys := sys } :: post) ""
  | objectTransition {pre post : List Version} {o : ObjectV2} (hvs : vs = pre ++ .object o :: post)
      (hid : o.versionID = uv) (hstatus : fi.transitionStatus ≠ "") :
      DeleteOutcome lib data fi versionID uv vs (pre ++ .object (transitionObject fi o) :: post)
        (freedDir lib ⟨pre ++ .object (transitionObject fi o) :: post, data⟩ o)
  | objectRemove {pre post : List Version} {o : ObjectV2} (hvs : vs = pre ++ .object o :: post)
      (hid : o.versionID = uv) (hstatus : fi.transitionStatus = "") :
      DeleteOutcome lib data fi versionID uv vs
        (appendIf fi.deleted (deleteEntry fi uv) (pre ++ post))
        (freedDir lib ⟨pre ++ post, data⟩ o)
  | append (hfresh : ∀ v ∈ vs, ¬ v.IsNamed versionID uv) (hdeleted : fi.deleted = true) :
      DeleteOutcome lib data fi versionID uv vs (vs ++ [deleteEntry fi uv]) ""

section Loops

variable {lib : UuidLib} {data : InlineData} {fi : FileInfo} {versionID : String} {uv : UUID}
  {pre vs : List Version} {r : Option Deleted}

/-- A loop of `DeleteVersion` over `vs`, after `pre`: it passes over the versions, or it settles the
call. -/
def Settles (lib : UuidLib) (data : InlineData) (fi : FileInfo) (versionID : String) (uv : UUID)
    (passed : Version → Prop) (pre vs : List Version) (r : Option Deleted) : Prop :=
  (r = none ∧ ∀ v ∈ vs, passed v) ∨
    ∃ left dir last, r = some (left, dir, last) ∧ DeleteOutcome lib data fi versionID uv (pre ++ vs) left dir

theorem Settles.cons {passed : Version → Prop} {v : Version} (hv : passed v)
    (h : Settles lib data fi versionID uv passed (pre ++ [v]) vs r) :
    Settles lib data fi versionID uv passed pre (v :: vs) r := by
  obtain ⟨hnone, hall⟩ | ⟨left, dir, last, hr, hout⟩ := h
  · exact .inl ⟨hnone, List.forall_mem_cons.mpr ⟨hv, hall⟩⟩
  · rw [List.append_assoc] at hout
    exact .inr ⟨left, dir, last, hr, hout⟩

theorem deleteScan_cases (h : deleteScan fi versionID uv pre vs = .ok r) :
    Settles lib data fi versionID uv (fun v => v.IsNamed versionID uv → ∃ o, v = .object o) pre vs r := by
  induction vs generalizing pre with
  | nil =>
    rw [deleteScan, ok.injEq] at h
    exact .inl ⟨h.symm, by simp⟩
  | cons v vs ih =>
    unfold deleteScan at h
    split at h
    · cases h
    · cases v with
      | legacy o =>
        simp only at h
        split at h
        · rename_i hnamed
          split at h
          · rename_i hstatus
            exact .inr ⟨_, _, _, (ok.inj h).symm, .legacyTransition rfl hnamed hstatus⟩
          · rename_i hstatus
            exact .inr ⟨_, _, _, (ok.inj h).symm, .legacyRemove rfl hnamed (not_not.mp hstatus)⟩
        · rename_i hnamed
          exact .cons (fun hn => absurd hn hnamed) (ih h)
      | deleteMarker m =>
        simp only at h
        split at h
        · rename_i hid
          refine .inr ⟨_, _, _, (ok.inj h).symm, ?_⟩
          cases hupdates : updatesVersion fi with
          | true => exact .markerUpdate rfl hid hupdates
          | false => exact .markerRemove rfl hid hupdates
        · rename_i hid
          exact .cons (fun hn => absurd hn hid) (ih h)
      | object o =>
        simp only at h
        split at h
        · rename_i hpurge
          obtain ⟨sys, -, hr⟩ := Result.bind_eq_ok h
          exact .inr ⟨_, _, _, (ok.inj hr).symm, .objectPurge rfl hpurge.1 hpurge.2⟩
        · exact .cons (fun _ => ⟨o, rfl⟩) (ih h)
      | zero => exact .cons (fun hn => hn.elim) (ih h)

theorem deleteObjectScan_cases (h : deleteObjectScan lib data fi uv pre vs = .ok r) :
    Settles lib data fi versionID uv (fun v => ∀ o, v = .object o → o.versionID ≠ uv) pre vs r := by
  induction vs generalizing pre with
  | nil =>
    rw [deleteObjectScan, ok.injEq] at h
    exact .inl ⟨h.symm, by simp⟩
  | cons v vs ih =>
    unfold deleteObjectScan at h
    split at h
    · cases h
    · cases v with
      | object o =>
        simp only at h
        split at h
        · rename_i hid
          split at h
          · rename_i hstatus
            exact .inr ⟨_, _, _, (ok.inj h).symm, .objectTransition rfl hid hstatus⟩
          · rename_i hstatus
            exact .inr ⟨_, _, _, (ok.inj h).symm, .objectRemove rfl hid (not_not.mp hstatus)⟩
        · rename_i hid
          exact .cons (fun o' heq => by cases heq; exact hid) (ih h)
      | legacy o => exact .cons (fun _ heq => by cases heq) (ih h)
      | deleteMarker m => exact .cons (fun _ heq => by cases heq) (ih h)
      | zero => exact .cons (fun _ heq => by cases heq) (ih h)

end Loops

/-- Besides the outcome: the marker that a call with `Deleted` makes was found valid. -/
theorem deleteVersion_cases {lib : UuidLib} {z z' : XLMeta} {fi : FileInfo} {dir : String}
    {last : Bool} (h : deleteVersion lib z fi = .ok (z', dir, last)) :
    ∃ uv, lib.versionUUID fi.versionID = .ok uv ∧ z'.data = z.data ∧
      (fi.deleted = true → (deleteEntry fi uv).valid = true) ∧
      DeleteOutcome lib z.data fi (if fi.versionID = nullVersionID then "" else fi.versionID) uv
        z.versions z'.versions dir := by
  unfold deleteVersion at h
  simp only [UuidLib.versionUUID_orEmpty] at h
  cases huv : lib.versionUUID fi.versionID with
  | error e =>
    rw [huv] at h
    cases h
  | ok uv =>
    rw [huv] at h
    simp only at h
    split at h
    · cases h
    · rename_i hvalid
      have hvalid' : fi.deleted = true → (deleteEntry fi uv).valid = true := by
        intro hdel
        simpa [hdel] using hvalid
      obtain ⟨r, hscan, h⟩ := Result.bind_eq_ok h
      obtain ⟨rfl, hnamed⟩ | ⟨left, dir', last', rfl, hout⟩ := @deleteScan_cases lib z.data _ _ _ _ _ _ hscan
      · obtain ⟨r, hobjects, h⟩ := Result.bind_eq_ok h
        obtain ⟨rfl, hnone⟩ | ⟨left, dir', last', rfl, hout⟩ := deleteObjectScan_cases hobjects
        · simp only at h
          split at h
          · rename_i hdel
            cases h
            refine ⟨uv, rfl, rfl, hvalid', .append (fun v hv hn => ?_) hdel⟩
            obtain ⟨o, rfl⟩ := hnamed v hv hn
            exact hnone _ hv o rfl hn
          · cases h
        · cases h
          exact ⟨uv, rfl, rfl, hvalid', hout⟩
      · cases h
        exact ⟨uv, rfl, rfl, hvalid', hout⟩

end Otterio
