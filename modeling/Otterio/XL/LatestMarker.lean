import Otterio.XL.Read
import Otterio.XL.Reclaim

/-!
# Whether the latest version is a delete marker

An entry of a listing has two answers (`cmd/metacache-entries.go`): `isLatestDeletemarker` looks at the
last record of the journal, and `fileInfo` reads the version with the latest time and keeps it in the
entry, where `isLatestDeletemarker` then finds it. The two agree unless a newest version is of another
kind than the last record.
-/

namespace Otterio

open List

/-- A `metaCacheEntry` with the journal that its metadata load as. -/
structure LoadedEntry where
  name : String
  journal : XLMeta
  cached : Option FileInfo

def Version.isDeleteType : Version → Bool
  | .deleteMarker _ => true
  | _ => false

namespace LoadedEntry

def isLatestDeletemarker (e : LoadedEntry) : Bool :=
  match e.cached with
  | some fi => fi.deleted
  | none => e.journal.versions.getLast?.elim true Version.isDeleteType

/-- `fileInfo`: the decoded metadata, and the entry that keeps them. -/
def fileInfo (lib : UuidLib) (ord : VersionOrder) (bucket : String) (e : LoadedEntry) :
    Except Error (FileInfo × LoadedEntry) :=
  match e.cached with
  | some fi => .ok (fi, e)
  | none => do
    let fi ← getFileInfo lib ord e.journal bucket e.name "" false
    return (fi, { e with cached := some fi })

end LoadedEntry

def XLMeta.Newest (z : XLMeta) (v : Version) : Prop := v ∈ z.versions ∧ ∀ w ∈ z.versions, w.getModTime ≤ v.getModTime

/-- However equal times are sorted, `isLatestDeletemarker` returns `Deleted` of what `fileInfo` returns,
before that call and after it, and this is whether a newest version is a delete marker. -/
def MarkerTestRight (lib : UuidLib) (z : XLMeta) : Prop :=
  ∀ (ord : VersionOrder) (bucket name : String), ∃ fi e,
    LoadedEntry.fileInfo lib ord bucket ⟨name, z, none⟩ = .ok (fi, e) ∧
    LoadedEntry.isLatestDeletemarker ⟨name, z, none⟩ = fi.deleted ∧ e.isLatestDeletemarker = fi.deleted ∧
    ∀ v, z.Newest v → fi.deleted = v.isDeleteType

theorem addSystemMetadata_deleted (fi : FileInfo) (k v : String) :
    (addSystemMetadata fi k v).deleted = fi.deleted := by
  unfold addSystemMetadata
  split_ifs <;> rfl

theorem Version.toFileInfo_deleted (lib : UuidLib) (bucket name : String) {v : Version} (h : v.valid = true) :
    ∃ fi, v.toFileInfo lib bucket name = .ok fi ∧ fi.deleted = v.isDeleteType := by
  cases v with
  | object o =>
    obtain ⟨fi, hfi, -⟩ := @ObjectV2.toFileInfo_of_valid lib o bucket name h
    refine ⟨fi, hfi, ?_⟩
    unfold ObjectV2.toFileInfo at hfi
    split_ifs at hfi
    cases hfi
    exact foldlRecOn (motive := fun fi : FileInfo => fi.deleted = false) _ _ rfl
      fun fi hfi e _ => (addSystemMetadata_deleted fi e.1 e.2).trans hfi
  | deleteMarker m =>
    refine ⟨_, rfl, foldlRecOn (motive := fun fi : FileInfo => fi.deleted = true) _ _ rfl
      fun fi hfi e _ => ?_⟩
    split_ifs <;> exact hfi
  | legacy o =>
    have hvalid : o.valid = true := h
    exact ⟨_, by rw [Version.toFileInfo, ObjectV1.toFileInfo, hvalid]; rfl, rfl⟩
  | zero => cases h

variable {lib : UuidLib} {z : XLMeta}

theorem fileInfo_newest (hne : z.versions ≠ []) (hvalid : ∀ v ∈ z.versions, v.valid = true) (ord : VersionOrder)
    (bucket name : String) : ∃ v fi, z.Newest v ∧ fi.deleted = v.isDeleteType ∧
      LoadedEntry.fileInfo lib ord bucket ⟨name, z, none⟩ = .ok (fi, ⟨name, z, some fi⟩) := by
  have hperm := ord.perm z.versions
  have hsorted := ord.sorted z.versions
  obtain ⟨v, vs, hsort⟩ : ∃ v vs, ord.sort z.versions = v :: vs := by
    apply exists_cons_of_ne_nil
    intro hnil
    rw [hnil] at hperm
    exact hne hperm.nil_eq.symm
  rw [hsort] at hperm hsorted
  have hv : v ∈ z.versions := hperm.mem_iff.mp mem_cons_self
  obtain ⟨fi, hfi, hdeleted⟩ := v.toFileInfo_deleted lib bucket name (hvalid v hv)
  refine ⟨v, fi, ⟨hv, fun w hw => ?_⟩, hdeleted, ?_⟩
  · rcases mem_cons.mp (hperm.mem_iff.mpr hw) with rfl | hw
    · exact le_refl _
    · exact rel_of_pairwise_cons hsorted hw
  · have hread : z.toFileInfo lib ord bucket name "" = v.toFileInfo lib bucket name :=
      toFileInfo_latest bucket name hvalid (by rw [hsort]; rfl)
    show (do let fi ← getFileInfo lib ord z bucket name "" false; _) = _
    rw [getFileInfo, hread, hfi]
    rfl

/-- **The two tests agree** exactly when every newest version is a delete marker if and only if the last
record of the journal is one. -/
theorem markerTestRight_iff (hne : z.versions ≠ []) (hvalid : ∀ v ∈ z.versions, v.valid = true) :
    MarkerTestRight lib z ↔ ∀ v, z.Newest v → v.isDeleteType = (z.versions.getLast hne).isDeleteType := by
  have hlast : ∀ name, LoadedEntry.isLatestDeletemarker ⟨name, z, none⟩ = (z.versions.getLast hne).isDeleteType := by
    intro name
    rw [LoadedEntry.isLatestDeletemarker, getLast?_eq_some_getLast hne]
    rfl
  constructor
  · intro h v hv
    obtain ⟨fi, e, -, hbefore, -, hnewest⟩ := h byInsertion "" ""
    rw [← hlast, hbefore, hnewest v hv]
  · intro h ord bucket name
    obtain ⟨v, fi, hv, hdeleted, hread⟩ := @fileInfo_newest lib z hne hvalid ord bucket name
    refine ⟨fi, _, hread, ?_, rfl, fun w hw => ?_⟩
    · rw [hlast, hdeleted, h v hv]
    · rw [hdeleted, h v hv, h w hw]

/-- One object alone. -/
theorem markerTestRight_single : MarkerTestRight decimalIds ⟨[sharingEntry 1 []], []⟩ := by
  have hvalid : ∀ v ∈ [sharingEntry 1 []], v.valid = true := forall_mem_singleton.mpr rfl
  refine (markerTestRight_iff (z := ⟨[sharingEntry 1 []], []⟩) (cons_ne_nil _ _) hvalid).mpr fun v hv => ?_
  rw [mem_singleton.mp hv.1]
  rfl

/-- A delete marker of the time 2, and after it in the journal a replicated object of the time 1:
`isLatestDeletemarker` returns false, and true once `fileInfo` was called. -/
theorem markerTest_order : let z : XLMeta := ⟨[.deleteMarker ⟨2, 2, none⟩, sharingEntry 1 []], []⟩
    let e : LoadedEntry := ⟨"object", z, none⟩
    (∀ v ∈ z.versions, v.valid = true) ∧ e.isLatestDeletemarker = false ∧
      (e.fileInfo decimalIds byInsertion "bucket").map (fun r => (r.1.deleted, r.2.isLatestDeletemarker)) =
        .ok (true, true) := by
  refine ⟨?_, rfl, rfl⟩
  decide

end Otterio
