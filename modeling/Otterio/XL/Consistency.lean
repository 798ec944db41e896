import Otterio.XL.Outcomes

/-!
# Well-formedness of the journal over its whole life

A journal is consistent when every entry is valid and no two entries have the same id
(`Consistent`). One invalid entry makes every later operation fail with `errFileCorrupt`.

* `Version.effectiveID`: the id of an entry. The null version, the zero UUID and a legacy entry
  have the same one.
* `JournalOp.Sound`: the calls that keep the journal consistent. The others are an update with a
  time before 1970, a call that spells out the zero UUID while there is a legacy entry, and the
  removal of a delete marker that puts the zero entry in its place.
* `LegacyNull`: a legacy entry has the id "null" and the directory "legacy", as `AddLegacy` gives
  them. Every call keeps this.

A call that succeeds leaves a consistent journal consistent exactly when it is sound
(`consistent_apply_iff`), so that a run stays consistent exactly when its calls are sound.
-/

namespace Otterio

open Err List Version

/-! ## Consistent journals -/

/-- The id of an entry; a legacy entry has the id of the null version. -/
def Version.effectiveID : Version → UUID
  | .object o => o.versionID
  | .deleteMarker m => m.versionID
  | .legacy _ => 0
  | .zero => 0

/-- Every entry is valid, and the ids are distinct. -/
structure Consistent (vs : List Version) : Prop where
  valid : ∀ v ∈ vs, v.valid = true
  nodup : (vs.map effectiveID).Nodup

namespace Consistent

variable {pre post vs : List Version} {v w : Version}

theorem nil : Consistent [] := ⟨by simp, nodup_nil⟩

theorem replace_iff (h : Consistent (pre ++ v :: post)) (hid : w.effectiveID = v.effectiveID) :
    Consistent (pre ++ w :: post) ↔ w.valid = true := by
  refine ⟨fun hw => hw.valid w (by simp), fun hw => ⟨fun u hu => ?_, ?_⟩⟩
  · simp only [mem_append, mem_cons] at hu
    obtain hu | rfl | hu := hu
    · exact h.valid u (by simp [hu])
    · exact hw
    · exact h.valid u (by simp [hu])
  · have hnodup := h.nodup
    rw [map_append, map_cons] at hnodup ⊢
    rwa [hid]

theorem change (h : Consistent vs) (hvs : vs = pre ++ v :: post) (hid : w.effectiveID = v.effectiveID)
    (hvalid : w.valid = v.valid) : Consistent (pre ++ w :: post) := by
  subst hvs
  rw [h.replace_iff hid, hvalid]
  exact h.valid v (by simp)

theorem remove (h : Consistent (pre ++ v :: post)) : Consistent (pre ++ post) := by
  have hsub : (pre ++ post).Sublist (pre ++ v :: post) := List.Sublist.append_left (sublist_cons_self v post) pre
  exact ⟨fun u hu => h.valid u (hsub.subset hu), h.nodup.sublist (hsub.map _)⟩

theorem id_ne (h : Consistent (pre ++ v :: post)) : ∀ u ∈ pre ++ post, u.effectiveID ≠ v.effectiveID := by
  have hperm : (pre ++ v :: post).Perm (v :: (pre ++ post)) := perm_middle
  have hnodup := (hperm.map effectiveID).nodup_iff.mp h.nodup
  rw [map_cons, nodup_cons] at hnodup
  intro u hu heq
  exact hnodup.1 (mem_map.mpr ⟨u, hu, heq⟩)

theorem append_iff (h : Consistent vs) :
    Consistent (vs ++ [w]) ↔ w.valid = true ∧ ∀ u ∈ vs, u.effectiveID ≠ w.effectiveID := by
  constructor
  · intro hw
    have hne : ∀ u ∈ vs ++ [], u.effectiveID ≠ w.effectiveID := hw.id_ne
    exact ⟨hw.valid w (by simp), fun u hu => hne u (by simpa using hu)⟩
  · rintro ⟨hw, hne⟩
    refine ⟨fun u hu => ?_, ?_⟩
    · obtain hu | hu := mem_append.mp hu
      · exact h.valid u hu
      · rw [mem_singleton.mp hu]
        exact hw
    · rw [map_append, map_singleton, ← concat_eq_append, nodup_concat]
      refine ⟨fun hmem => ?_, h.nodup⟩
      obtain ⟨u, hu, heq⟩ := mem_map.mp hmem
      exact hne u hu heq

theorem eq_of_id (h : Consistent vs) (hv : v ∈ vs) (hw : w ∈ vs) (hid : v.effectiveID = w.effectiveID) : v = w :=
  inj_on_of_nodup_map h.nodup hv hw hid

end Consistent

/-! ## Calls -/

def legacyDataDir : String := "legacy"

def addLegacy (z : XLMeta) (m : ObjectV1) : Result XLMeta :=
  if !m.valid then .error (.err errFileCorrupt)
  else .ok ⟨[.legacy { m with versionID := nullVersionID, dataDir := legacyDataDir }], z.data⟩

/-- The journals that a life starts with: the empty one, or the one that `AddLegacy` builds. -/
def InitialJournal (z : XLMeta) : Prop := z = ⟨[], []⟩ ∨ ∃ m, addLegacy ⟨[], []⟩ m = .ok z

inductive JournalOp where
  | add (fi : FileInfo)
  | update (fi : FileInfo)
  | delete (fi : FileInfo)

/-- What the call returns: the journal after it, or an error. -/
def JournalOp.apply (lib : UuidLib) (z : XLMeta) : JournalOp → Result XLMeta
  | .add fi => addVersion lib z fi
  | .update fi => updateObjectVersion lib z fi
  | .delete fi => Prod.fst <$> deleteVersion lib z fi

/-- The journal after one call: a call that fails is dropped. -/
def journalStep (lib : UuidLib) (z : XLMeta) (op : JournalOp) : XLMeta :=
  match op.apply lib z with
  | .ok z' => z'
  | .error _ => z

def journalAfter (lib : UuidLib) (z : XLMeta) (ops : List JournalOp) : XLMeta := ops.foldl (journalStep lib) z

/-! ## Sound calls -/

/-- The text is one of the zero UUID, and not one of the null version. -/
def SpellsZero (lib : UuidLib) (versionID : String) : Prop :=
  versionID ≠ "" ∧ versionID ≠ nullVersionID ∧ lib.parse versionID = .ok 0

def HasLegacy (vs : List Version) : Prop := ∃ o, .legacy o ∈ vs

/-- The call adds no second entry for the null version. -/
def NoSecondNull (lib : UuidLib) (z : XLMeta) (fi : FileInfo) : Prop :=
  ¬ (HasLegacy z.versions ∧ SpellsZero lib fi.versionID)

/-- The call has a valid time, or none, or it is about a legacy entry, whose time it leaves alone. -/
def TimeSound (z : XLMeta) (fi : FileInfo) : Prop :=
  fi.modTime = Time.zero ∨ 0 < fi.modTime.unixNano ∨
    (HasLegacy z.versions ∧ (fi.versionID = "" ∨ fi.versionID = nullVersionID))

/-- The call replaces no delete marker by the zero entry. It does so when it marks a version as
deleted without being a delete marker itself, and its replication status is neither empty nor that
of a replica. -/
def MarkerSound (lib : UuidLib) (z : XLMeta) (fi : FileInfo) : Prop :=
  fi.deleted = false → fi.markDeleted = true → fi.versionPurgeStatus = "" →
    fi.deleteMarkerReplicationStatus ≠ "" → fi.deleteMarkerReplicationStatus ≠ "REPLICA" →
    ∀ m, .deleteMarker m ∈ z.versions → lib.versionUUID fi.versionID ≠ .ok m.versionID

/-- The call keeps a consistent journal consistent. -/
def JournalOp.Sound (lib : UuidLib) (z : XLMeta) : JournalOp → Prop
  | .add fi => NoSecondNull lib z fi
  | .update fi => TimeSound z fi
  | .delete fi => NoSecondNull lib z fi ∧ MarkerSound lib z fi

/-! ## Legacy entries -/

/-- The entry is as `AddLegacy` makes it: its id is "null", and its directory "legacy". -/
def ObjectV1.AtNull (o : ObjectV1) : Prop := o.versionID = nullVersionID ∧ o.dataDir = legacyDataDir

/-- The legacy entries are as `AddLegacy` makes them. -/
def LegacyNull (vs : List Version) : Prop := ∀ o, .legacy o ∈ vs → o.AtNull

namespace LegacyNull

variable {pre post vs : List Version} {v w : Version}

theorem replace (h : LegacyNull (pre ++ v :: post))
    (hw : ∀ o, w = .legacy o → o.AtNull) : LegacyNull (pre ++ w :: post) := by
  intro o ho
  simp only [mem_append, mem_cons] at ho
  obtain ho | ho | ho := ho
  · exact h o (by simp [ho])
  · exact hw o ho.symm
  · exact h o (by simp [ho])

theorem remove (h : LegacyNull (pre ++ v :: post)) : LegacyNull (pre ++ post) := by
  intro o ho
  refine h o ?_
  simp only [mem_append, mem_cons] at ho ⊢
  tauto

theorem append (h : LegacyNull vs) (hw : ∀ o, w ≠ .legacy o) : LegacyNull (vs ++ [w]) := by
  intro o ho
  obtain ho | ho := mem_append.mp ho
  · exact h o ho
  · exact absurd (mem_singleton.mp ho).symm (hw o)

end LegacyNull

theorem addEntry_ne_legacy (fi : FileInfo) (uv dd : UUID) (o : ObjectV1) : addEntry fi uv dd ≠ .legacy o := by
  unfold addEntry
  split <;> simp

theorem deleteEntry_ne_legacy (fi : FileInfo) (uv : UUID) (o : ObjectV1) : deleteEntry fi uv ≠ .legacy o := by
  unfold deleteEntry
  split <;> simp

variable {vs : List Version}

theorem LegacyNull.appendIf (h : LegacyNull vs) (b : Bool) (fi : FileInfo)
    (uv : UUID) : LegacyNull (appendIf b (deleteEntry fi uv) vs) := by
  cases b with
  | false => exact h
  | true => exact h.append (deleteEntry_ne_legacy fi uv)

theorem updateLegacy_atNull (fi : FileInfo) (o : ObjectV1) : (updateLegacy fi o).AtNull ↔ o.AtNull := Iff.rfl

theorem transitionLegacy_atNull (fi : FileInfo) (o : ObjectV1) : (transitionLegacy fi o).AtNull ↔ o.AtNull := Iff.rfl

variable {z : XLMeta}

theorem LegacyNull.initial (h : InitialJournal z) : LegacyNull z.versions := by
  obtain rfl | ⟨m, hm⟩ := h
  · simp [LegacyNull]
  · unfold addLegacy at hm
    split at hm
    · cases hm
    · cases hm
      simp [LegacyNull, ObjectV1.AtNull]

variable {versionID : String}

theorem ObjectV1.AtNull.text_of_named {o : ObjectV1} (hnull : o.AtNull)
    (hnamed : o.IsNamed (if versionID = nullVersionID then "" else versionID)) :
    versionID = "" ∨ versionID = nullVersionID := by
  by_cases hn : versionID = nullVersionID
  · exact .inr hn
  · rw [if_neg hn, ObjectV1.IsNamed, hnull.1] at hnamed
    exact .inl (hnamed.resolve_left fun heq => hn heq.symm).2

/-- The changed entry is a legacy one only if it was one before. -/
theorem LegacyNull.change {pre post : List Version} {v w : Version} (h : LegacyNull vs)
    (hvs : vs = pre ++ v :: post) (hw : ∀ o, w = .legacy o → ∃ o', v = .legacy o' ∧ (o.AtNull ↔ o'.AtNull)) :
    LegacyNull (pre ++ w :: post) := by
  subst hvs
  refine h.replace fun o ho => ?_
  obtain ⟨o', rfl, hsame⟩ := hw o ho
  exact hsame.mpr (h o' (by simp))

variable {lib : UuidLib} {z' : XLMeta} {op : JournalOp}

/-- Every call keeps the ids and the directories of the legacy entries. -/
theorem LegacyNull.apply
    (hnull : LegacyNull z.versions) (h : op.apply lib z = .ok z') : LegacyNull z'.versions := by
  cases op with
  | add fi =>
    obtain ⟨uv, dd, hadd⟩ := addVersion_cases h
    obtain ⟨pre, v, post, hvs, -, heq⟩ | ⟨-, heq⟩ := replaceOrAppend_cases hadd.versions
    · rw [heq]
      exact hnull.change hvs fun o ho => absurd ho (addEntry_ne_legacy fi uv dd o)
    · rw [heq]
      exact hnull.append (addEntry_ne_legacy fi uv dd)
  | update fi =>
    obtain ⟨uv, -, -, hout⟩ := updateObjectVersion_cases h
    generalize z'.versions = left at hout ⊢
    cases hout with
    | legacy hvs =>
      refine hnull.change hvs fun o ho => ⟨_, rfl, ?_⟩
      cases ho
      exact updateLegacy_atNull fi _
    | object hvs => exact hnull.change hvs fun o ho => by cases ho
  | delete fi =>
    obtain ⟨⟨z'', dir, last⟩, hdelete, rfl⟩ := Result.map_eq_ok h
    obtain ⟨uv, -, -, -, hout⟩ := deleteVersion_cases hdelete
    generalize z''.versions = left at hout ⊢
    cases hout with
    | legacyTransition hvs =>
      refine hnull.change hvs fun o ho => ⟨_, rfl, ?_⟩
      cases ho
      exact transitionLegacy_atNull fi _
    | legacyRemove hvs => exact (hvs ▸ hnull).remove.appendIf _ fi uv
    | markerUpdate hvs => exact hnull.change hvs fun o ho => by cases ho
    | markerRemove hvs => exact (hvs ▸ hnull).remove.appendIf _ fi uv
    | objectPurge hvs => exact hnull.change hvs fun o ho => by cases ho
    | objectTransition hvs => exact hnull.change hvs fun o ho => by cases ho
    | objectRemove hvs => exact (hvs ▸ hnull).remove.appendIf _ fi uv
    | append => exact hnull.append (deleteEntry_ne_legacy fi uv)

/-! ## Valid entries -/

theorem updateLegacy_valid (fi : FileInfo) (o : ObjectV1) :
    (legacy (updateLegacy fi o)).valid = (legacy o).valid := rfl

theorem transitionLegacy_valid (fi : FileInfo) (o : ObjectV1) :
    (legacy (transitionLegacy fi o)).valid = (legacy o).valid := rfl

theorem updateMarker_valid (fi : FileInfo) (m : DeleteMarker) :
    (deleteMarker (updateMarker fi m)).valid = (deleteMarker m).valid := rfl

theorem transitionObject_valid (fi : FileInfo) (o : ObjectV2) :
    (object (transitionObject fi o)).valid = (object o).valid := rfl

variable {fi : FileInfo}

/-- An update keeps an object version valid unless it gives it a time before 1970. -/
theorem updateObject_valid {o : ObjectV2} (h : (object o).valid = true) :
    (object (updateObject fi o)).valid = true ↔ fi.modTime = Time.zero ∨ 0 < fi.modTime.unixNano := by
  have hdata : (updateObject fi o).validData = o.validData := rfl
  simp only [valid, Bool.and_eq_true, decide_eq_true_eq] at h ⊢
  rw [hdata]
  simp only [updateObject]
  split <;> simp_all

theorem addEntry_effectiveID (fi : FileInfo) (uv dd : UUID) : (addEntry fi uv dd).effectiveID = uv := by
  unfold addEntry
  split <;> rfl

/-- Appending the entry of `DeleteVersion` after the version it names was removed. -/
theorem Consistent.appendIf_iff {b : Bool} {uv : UUID} (h : Consistent vs)
    (hfresh : ∀ u ∈ vs, u.effectiveID ≠ uv) (hvalid : fi.deleted = true → (deleteEntry fi uv).valid = true) :
    Consistent (appendIf b (deleteEntry fi uv) vs) ↔ (b = true → fi.deleted = true) := by
  unfold Otterio.appendIf
  cases b with
  | false => simpa using h
  | true =>
    rw [if_pos rfl, h.append_iff]
    cases hdel : fi.deleted with
    | false => simp [deleteEntry, hdel, Version.valid]
    | true =>
      have hid : (deleteEntry fi uv).effectiveID = uv := by
        simp [deleteEntry, hdel, effectiveID]
      rw [hid]
      exact ⟨fun _ _ => rfl, fun _ => ⟨hvalid hdel, hfresh⟩⟩

/-! ## Sound calls keep a journal consistent, and no others do -/

theorem spellsZero_iff : SpellsZero lib versionID ↔
      versionID ≠ "" ∧ versionID ≠ nullVersionID ∧ lib.versionUUID versionID = .ok 0 := by
  unfold SpellsZero UuidLib.versionUUID
  by_cases h₁ : versionID = ""
  · simp [h₁]
  · by_cases h₂ : versionID = nullVersionID <;> simp [h₁, h₂]

section Call

variable {lib : UuidLib} {z z' : XLMeta} {fi : FileInfo} {uv : UUID} {v : Version}

section

variable (hc : Consistent z.versions)
include hc

/-- A call that names an entry other than a legacy one adds no second null version. -/
theorem noSecondNull_of_named (hv : v ∈ z.versions) (hid : v.effectiveID = uv)
    (huv : lib.versionUUID fi.versionID = .ok uv) (hlegacy : ∀ o, v ≠ .legacy o) : NoSecondNull lib z fi := by
  rintro ⟨⟨o, ho⟩, hzero⟩
  obtain ⟨-, -, hzero⟩ := spellsZero_iff.mp hzero
  have huv0 : uv = 0 := Except.ok.inj (huv.symm.trans hzero)
  exact hlegacy o (hc.eq_of_id hv ho (hid.trans huv0))

/-- A call that names an entry other than a delete marker replaces no delete marker. -/
theorem markerSound_of_named (hv : v ∈ z.versions) (hid : v.effectiveID = uv)
    (huv : lib.versionUUID fi.versionID = .ok uv) (hmarker : ∀ m, v ≠ .deleteMarker m) : MarkerSound lib z fi := by
  intro _ _ _ _ _ m hm heq
  have hidm : m.versionID = uv := Except.ok.inj (heq.symm.trans huv)
  exact hmarker m (hc.eq_of_id hv hm (hid.trans hidm.symm))

/-- No entry is named by the call: the ids differ from its id, unless the call spells out the zero
UUID and there is a legacy entry. -/
theorem fresh_iff_noSecondNull (huv : lib.versionUUID fi.versionID = .ok uv)
    (hobject : ∀ o, .object o ∈ z.versions → o.versionID ≠ uv)
    (hmarker : ∀ m, .deleteMarker m ∈ z.versions → m.versionID ≠ uv)
    (htext : HasLegacy z.versions → fi.versionID ≠ "" ∧ fi.versionID ≠ nullVersionID) :
    (∀ u ∈ z.versions, u.effectiveID ≠ uv) ↔ NoSecondNull lib z fi := by
  constructor
  · rintro hfresh ⟨⟨o, ho⟩, hzero⟩
    obtain ⟨-, -, hzero⟩ := spellsZero_iff.mp hzero
    exact hfresh _ ho (Except.ok.inj (hzero.symm.trans huv))
  · intro hsecond u hu hid
    cases u with
    | object o => exact hobject o hu hid
    | deleteMarker m => exact hmarker m hu hid
    | zero =>
      have hvalid := hc.valid _ hu
      cases hvalid
    | legacy o =>
      obtain ⟨hempty, hne⟩ := htext ⟨o, hu⟩
      have huv0 : uv = 0 := hid.symm
      exact hsecond ⟨⟨o, hu⟩, spellsZero_iff.mpr ⟨hempty, hne, huv0 ▸ huv⟩⟩

theorem consistent_addVersion_iff (hnull : LegacyNull z.versions)
    (h : addVersion lib z fi = .ok z') : Consistent z'.versions ↔ NoSecondNull lib z fi := by
  obtain ⟨uv, dd, hadd⟩ := addVersion_cases h
  obtain ⟨pre, v, post, hvs, hrep, heq⟩ | ⟨hnone, heq⟩ := replaceOrAppend_cases hadd.versions
  · have hv : v ∈ z.versions := by simp [hvs]
    -- A legacy entry is replaced only by a call with the text "null".
    have hid : v.effectiveID = uv ∧ NoSecondNull lib z fi := by
      cases v with
      | legacy o =>
        have htext : nullVersionID = if fi.versionID = "" then nullVersionID else fi.versionID := by
          simpa [isReplacedBy, (hnull o hv).1] using hrep
        have hname : fi.versionID = "" ∨ fi.versionID = nullVersionID := by
          by_cases hempty : fi.versionID = ""
          · exact .inl hempty
          · rw [if_neg hempty] at htext
            exact .inr htext.symm
        have huv := hadd.versionUUID
        rw [UuidLib.versionUUID, if_pos hname] at huv
        refine ⟨Except.ok.inj huv, fun hsecond => ?_⟩
        exact hname.elim hsecond.2.1 hsecond.2.2.1
      | object o =>
        have hid : o.versionID = uv := by simpa [isReplacedBy] using hrep
        exact ⟨hid, noSecondNull_of_named hc hv hid hadd.versionUUID (by simp)⟩
      | deleteMarker m =>
        have hid : m.versionID = uv := by simpa [isReplacedBy] using hrep
        exact ⟨hid, noSecondNull_of_named hc hv hid hadd.versionUUID (by simp)⟩
      | zero => cases hrep
    rw [hvs] at hc
    rw [heq, hc.replace_iff ((addEntry_effectiveID fi uv dd).trans hid.1.symm)]
    exact ⟨fun _ => hid.2, fun _ => hadd.valid⟩
  · rw [heq, hc.append_iff, addEntry_effectiveID, and_iff_right hadd.valid]
    refine fresh_iff_noSecondNull hc hadd.versionUUID (fun o ho hid => ?_) (fun m hm hid => ?_)
      fun ⟨o, ho⟩ => ?_
    · simpa [isReplacedBy, hid] using hnone _ ho
    · simpa [isReplacedBy, hid] using hnone _ hm
    · have hname := hnone _ ho
      rw [isReplacedBy, (hnull o ho).1] at hname
      by_cases hempty : fi.versionID = ""
      · simp [hempty] at hname
      · rw [if_neg hempty, beq_eq_false_iff_ne] at hname
        exact ⟨hempty, hname.symm⟩

theorem consistent_updateObjectVersion_iff (hnull : LegacyNull z.versions)
    (h : updateObjectVersion lib z fi = .ok z') : Consistent z'.versions ↔ TimeSound z fi := by
  obtain ⟨uv, huv, -, hout⟩ := updateObjectVersion_cases h
  generalize z'.versions = left at hout ⊢
  cases hout with
  | @legacy pre post o hvs hnamed hstatus =>
    have ho : .legacy o ∈ z.versions := by simp [hvs]
    have hname : fi.versionID = "" ∨ fi.versionID = nullVersionID := by
      by_cases hempty : fi.versionID = ""
      · exact .inl hempty
      · rw [if_neg hempty, ObjectV1.IsNamed, (hnull o ho).1] at hnamed
        simpa [hempty, eq_comm] using hnamed
    exact iff_of_true (hc.change hvs rfl (updateLegacy_valid fi o)) (.inr (.inr ⟨⟨o, ho⟩, hname⟩))
  | @object pre post o hvs hid =>
    have ho : .object o ∈ z.versions := by simp [hvs]
    have hnot : ¬ (HasLegacy z.versions ∧ (fi.versionID = "" ∨ fi.versionID = nullVersionID)) := by
      rintro ⟨⟨l, hl⟩, hname⟩
      rw [UuidLib.versionUUID, if_pos hname] at huv
      have huv0 : o.versionID = 0 := hid.trans (Except.ok.inj huv).symm
      cases hc.eq_of_id ho hl huv0
    have hvalid := hc.valid _ ho
    rw [hvs] at hc
    rw [hc.replace_iff (by simp [effectiveID]), updateObject_valid hvalid]
    simp [TimeSound, hnot]

end

/-- When a delete marker is removed: the calls that would put the zero entry in its place. -/
theorem removes_marker_iff (hupdates : updatesVersion fi = false) :
    ((fi.markDeleted && fi.versionPurgeStatus != purgeComplete) = true → fi.deleted = true) ↔
      ¬ (fi.deleted = false ∧ fi.markDeleted = true ∧ fi.versionPurgeStatus = "" ∧
        fi.deleteMarkerReplicationStatus ≠ "" ∧ fi.deleteMarkerReplicationStatus ≠ "REPLICA") := by
  unfold updatesVersion at hupdates
  cases hdel : fi.deleted <;> cases hmark : fi.markDeleted <;>
    by_cases hpurge : fi.versionPurgeStatus = "" <;> simp_all [purgeComplete]

theorem consistent_deleteVersion_iff {dir : String} {last : Bool} (hc : Consistent z.versions)
    (hnull : LegacyNull z.versions) (h : deleteVersion lib z fi = .ok (z', dir, last)) :
    Consistent z'.versions ↔ NoSecondNull lib z fi ∧ MarkerSound lib z fi := by
  obtain ⟨uv, huv, -, hvalid, hout⟩ := deleteVersion_cases h
  -- A call that names a legacy entry has the text of the null version.
  have hlegacy : ∀ {o : ObjectV1},
      o.IsNamed (if fi.versionID = nullVersionID then "" else fi.versionID) → .legacy o ∈ z.versions →
      uv = 0 ∧ NoSecondNull lib z fi ∧ MarkerSound lib z fi := by
    intro o hnamed ho
    have hname := (hnull o ho).text_of_named hnamed
    have hzero := huv
    rw [UuidLib.versionUUID, if_pos hname] at hzero
    have huv0 : uv = 0 := (Except.ok.inj hzero).symm
    refine ⟨huv0, fun hsecond => hname.elim hsecond.2.1 hsecond.2.2.1, ?_⟩
    exact markerSound_of_named hc ho huv0.symm huv (by simp)
  have hobject : ∀ {o : ObjectV2}, o.versionID = uv → .object o ∈ z.versions →
      NoSecondNull lib z fi ∧ MarkerSound lib z fi := fun hid ho =>
    ⟨noSecondNull_of_named hc ho hid huv (by simp), markerSound_of_named hc ho hid huv (by simp)⟩
  generalize z'.versions = left at hout ⊢
  cases hout with
  | @legacyTransition pre post o hvs hnamed hstatus =>
    have hsound := (hlegacy hnamed (by simp [hvs])).2
    exact iff_of_true (hc.change hvs rfl (transitionLegacy_valid fi o)) hsound
  | @legacyRemove pre post o hvs hnamed hstatus =>
    obtain ⟨rfl, hsound⟩ := hlegacy hnamed (by simp [hvs])
    rw [hvs] at hc
    have hfresh : ∀ u ∈ pre ++ post, u.effectiveID ≠ 0 := hc.id_ne
    rw [hc.remove.appendIf_iff hfresh hvalid]
    exact ⟨fun _ => hsound, fun _ hdel => hdel⟩
  | @markerUpdate pre post m hvs hid hupdates =>
    have hm : .deleteMarker m ∈ z.versions := by simp [hvs]
    have hsecond := noSecondNull_of_named hc hm hid huv (by simp)
    have hmarker : MarkerSound lib z fi := by
      intro hdel hmark hpurge hstatus hreplica
      simp [updatesVersion, hdel, hpurge, hstatus, hreplica] at hupdates
    exact iff_of_true (hc.change hvs rfl (updateMarker_valid fi m)) ⟨hsecond, hmarker⟩
  | @markerRemove pre post m hvs hid hupdates =>
    have hm : .deleteMarker m ∈ z.versions := by simp [hvs]
    have hsecond := noSecondNull_of_named hc hm hid huv (by simp)
    rw [hvs] at hc
    have hfresh : ∀ u ∈ pre ++ post, u.effectiveID ≠ uv := fun u hu => hid ▸ hc.id_ne u hu
    rw [hc.remove.appendIf_iff hfresh hvalid, removes_marker_iff hupdates]
    constructor
    · intro hnot
      exact ⟨hsecond, fun hdel hmark hpurge hstatus hreplica =>
        absurd ⟨hdel, hmark, hpurge, hstatus, hreplica⟩ hnot⟩
    · rintro ⟨-, hsound⟩ ⟨hdel, hmark, hpurge, hstatus, hreplica⟩
      exact hsound hdel hmark hpurge hstatus hreplica m hm (hid ▸ huv)
  | @objectPurge pre post o sys hvs hid hupdates =>
    have hsound := hobject hid (by simp [hvs])
    exact iff_of_true (hc.change hvs rfl rfl) hsound
  | @objectTransition pre post o hvs hid hstatus =>
    have hsound := hobject hid (by simp [hvs])
    exact iff_of_true (hc.change hvs rfl (transitionObject_valid fi o)) hsound
  | @objectRemove pre post o hvs hid hstatus =>
    have hsound := hobject hid (by simp [hvs])
    rw [hvs] at hc
    have hfresh : ∀ u ∈ pre ++ post, u.effectiveID ≠ uv := fun u hu => hid ▸ hc.id_ne u hu
    rw [hc.remove.appendIf_iff hfresh hvalid]
    exact ⟨fun _ => hsound, fun _ hdel => hdel⟩
  | append hfresh hdel =>
    have hid : (deleteEntry fi uv).effectiveID = uv := by
      simp [deleteEntry, hdel, effectiveID]
    have hmarker : MarkerSound lib z fi := by
      intro hnot
      rw [hdel] at hnot
      cases hnot
    rw [hc.append_iff, hid, and_iff_right (hvalid hdel), and_iff_left hmarker]
    refine fresh_iff_noSecondNull hc huv (fun o ho => hfresh _ ho) (fun m hm => hfresh _ hm)
      fun ⟨o, ho⟩ => ?_
    have hname := hfresh _ ho
    rw [IsNamed, ObjectV1.IsNamed, (hnull o ho).1] at hname
    split at hname <;> simp_all

end Call

theorem consistent_apply_iff (hc : Consistent z.versions)
    (hnull : LegacyNull z.versions) (h : op.apply lib z = .ok z') : Consistent z'.versions ↔ op.Sound lib z := by
  cases op with
  | add fi => exact consistent_addVersion_iff hc hnull h
  | update fi => exact consistent_updateObjectVersion_iff hc hnull h
  | delete fi =>
    obtain ⟨⟨z'', dir, last⟩, hdelete, rfl⟩ := Result.map_eq_ok h
    exact consistent_deleteVersion_iff hc hnull hdelete

/-! ## Runs -/

theorem Consistent.initial (h : InitialJournal z) : Consistent z.versions := by
  obtain rfl | ⟨m, hm⟩ := h
  · exact .nil
  · unfold addLegacy at hm
    split at hm
    · cases hm
    · rename_i hnot
      cases hm
      have hvalid : m.valid = true := by simpa using hnot
      have hdir : validStoragePath legacyDataDir = true := by decide
      have hold : validStoragePath m.dataDir = true := by
        by_contra hno
        simp [ObjectV1.valid, hno] at hvalid
      refine ⟨fun v hv => ?_, nodup_singleton _⟩
      rw [mem_singleton.mp hv]
      simpa [Version.valid, ObjectV1.valid, hdir, hold] using hvalid

/-- **A journal stays consistent over a run** exactly when every call of the run that succeeds is
sound in the journal it meets. -/
theorem consistent_along_iff_sound (lib : UuidLib) {z : XLMeta} (hz : InitialJournal z) (ops : List JournalOp) :
    (∀ pre, pre <+: ops → Consistent (journalAfter lib z pre).versions) ↔ ∀ pre op, pre ++ [op] <+: ops →
        ∀ z', op.apply lib (journalAfter lib z pre) = .ok z' → op.Sound lib (journalAfter lib z pre) := by
  refine holds_along_iff (I := fun z : XLMeta => LegacyNull z.versions)
    (P := fun z : XLMeta => Consistent z.versions)
    (Q := fun (z : XLMeta) (op : JournalOp) => ∀ z', op.apply lib z = .ok z' → op.Sound lib z) ?_ ?_
    (LegacyNull.initial hz) (Consistent.initial hz)
  · intro z op _ hnull
    unfold journalStep
    split
    · rename_i z' h
      exact hnull.apply h
    · exact hnull
  · intro z op _ hnull hc
    unfold journalStep
    split
    · rename_i z' h
      rw [consistent_apply_iff hc hnull h]
      exact ⟨fun hsound _ _ => hsound, fun hsound => hsound z' h⟩
    · rename_i e h
      exact iff_of_true hc fun z' hok => by rw [h] at hok; cases hok

/-! ## Versions that are not named -/

variable {u : Version}

section Others

variable {text : String} {uv : UUID} {pre post : List Version} {v w : Version}

theorem LegacyNull.effectiveID_of_named (hnull : LegacyNull vs) (huv : lib.versionUUID text = .ok uv) (hv : v ∈ vs)
    (hnamed : v.IsNamed text uv) : v.effectiveID = uv := by
  cases v with
  | legacy o =>
    have htext : text = "" ∨ text = nullVersionID :=
      hnamed.elim (fun h => .inr (h.symm.trans (hnull o hv).1)) fun h => .inl h.2
    rw [UuidLib.versionUUID, if_pos htext] at huv
    exact Except.ok.inj huv
  | object o => exact hnamed
  | deleteMarker m => exact hnamed
  | zero => exact hnamed.elim

variable (hnull : LegacyNull vs) (huv : lib.versionUUID text = .ok uv) (hu : u.effectiveID ≠ uv)
include hnull huv hu

theorem mem_replace_iff (hvs : vs = pre ++ v :: post) (hnamed : v.IsNamed text uv)
    (hw : w.effectiveID = v.effectiveID) : u ∈ pre ++ w :: post ↔ u ∈ vs := by
  have hv : v.effectiveID = uv := hnull.effectiveID_of_named huv (by simp [hvs]) hnamed
  grind

theorem mem_remove_iff (hzero : u ≠ .zero) (hvs : vs = pre ++ v :: post) (hnamed : v.IsNamed text uv) (b : Bool)
    (fi : FileInfo) : u ∈ appendIf b (deleteEntry fi uv) (pre ++ post) ↔ u ∈ vs := by
  have hv : v.effectiveID = uv := hnull.effectiveID_of_named huv (by simp [hvs]) hnamed
  grind [appendIf, deleteEntry, effectiveID]

end Others

theorem LegacyNull.journalStep (hnull : LegacyNull z.versions) : LegacyNull (journalStep lib z op).versions := by
  unfold Otterio.journalStep
  split
  · exact hnull.apply ‹_›
  · exact hnull

def JournalOp.info : JournalOp → FileInfo
  | .add fi | .update fi | .delete fi => fi

theorem mem_apply_iff (hnull : LegacyNull z.versions) (hzero : u ≠ .zero)
    (hu : lib.versionUUID op.info.versionID ≠ .ok u.effectiveID) (h : op.apply lib z = .ok z') :
    u ∈ z'.versions ↔ u ∈ z.versions := by
  have hother : ∀ {uv}, lib.versionUUID op.info.versionID = .ok uv → u.effectiveID ≠ uv := fun huv heq =>
    hu (heq ▸ huv)
  cases op with
  | add fi =>
    obtain ⟨uv, dd, hadd⟩ := addVersion_cases h
    have huv := (lib.versionUUID_orNull fi.versionID).trans hadd.versionUUID
    have hu := hother hadd.versionUUID
    obtain ⟨pre, v, post, hvs, hv, heq⟩ | ⟨-, heq⟩ := replaceOrAppend_cases hadd.versions
    · rw [heq]
      have hnamed : v.IsNamed (if fi.versionID = "" then nullVersionID else fi.versionID) uv := by
        cases v with
        | legacy o => exact .inl (beq_iff_eq.mp hv)
        | object o => exact beq_iff_eq.mp hv
        | deleteMarker m => exact beq_iff_eq.mp hv
        | zero => cases hv
      refine mem_replace_iff hnull huv hu hvs hnamed ?_
      rw [addEntry_effectiveID, hnull.effectiveID_of_named huv (by simp [hvs]) hnamed]
    · grind [addEntry_effectiveID]
  | update fi =>
    obtain ⟨uv, huv, -, hout⟩ := updateObjectVersion_cases h
    have hu := hother huv
    rw [← UuidLib.versionUUID_orNull] at huv
    generalize z'.versions = left at hout ⊢
    cases hout with
    | legacy hvs hnamed => exact mem_replace_iff hnull huv hu hvs hnamed rfl
    | object hvs hid => exact mem_replace_iff hnull huv hu hvs hid rfl
  | delete fi =>
    obtain ⟨⟨z'', dir, last⟩, hdelete, rfl⟩ := Result.map_eq_ok h
    obtain ⟨uv, huv, -, -, hout⟩ := deleteVersion_cases hdelete
    have hu := hother huv
    rw [← UuidLib.versionUUID_orEmpty] at huv
    generalize z''.versions = left at hout ⊢
    cases hout with
    | legacyTransition hvs hnamed => exact mem_replace_iff hnull huv hu hvs hnamed rfl
    | legacyRemove hvs hnamed => exact mem_remove_iff hnull huv hu hzero hvs hnamed _ fi
    | markerUpdate hvs hid => exact mem_replace_iff hnull huv hu hvs hid rfl
    | markerRemove hvs hid => exact mem_remove_iff hnull huv hu hzero hvs hid _ fi
    | objectPurge hvs hid => exact mem_replace_iff hnull huv hu hvs hid rfl
    | objectTransition hvs hid => exact mem_replace_iff hnull huv hu hvs hid rfl
    | objectRemove hvs hid => exact mem_remove_iff hnull huv hu hzero hvs hid _ fi
    | append => grind [deleteEntry, effectiveID]

theorem foldl_journalStep_mem_iff (hnull : LegacyNull z.versions) (hzero : u ≠ .zero) {ops : List JournalOp}
    (hu : ∀ op ∈ ops, lib.versionUUID op.info.versionID ≠ .ok u.effectiveID) :
    u ∈ (ops.foldl (journalStep lib) z).versions ↔ u ∈ z.versions := by
  induction ops generalizing z with
  | nil => rfl
  | cons op ops ih =>
    rw [foldl_cons, ih hnull.journalStep fun op hop => hu op (.tail _ hop)]
    unfold journalStep
    split
    · exact mem_apply_iff hnull hzero (hu op (.head _)) ‹_›
    · rfl

/-- **No update is lost.** Calls that do not name a version leave it in the journal as it is, whatever they do
to the others and in whatever order they come. -/
theorem journalAfter_mem_iff (lib : UuidLib) {z : XLMeta} (hz : InitialJournal z) (before ops : List JournalOp)
    {u : Version} (hzero : u ≠ .zero) (hu : ∀ op ∈ ops, lib.versionUUID op.info.versionID ≠ .ok u.effectiveID) :
    u ∈ (journalAfter lib z (before ++ ops)).versions ↔ u ∈ (journalAfter lib z before).versions := by
  have hnull : LegacyNull (journalAfter lib z before).versions :=
    holds_along (P := fun z : XLMeta => LegacyNull z.versions) (Q := fun _ _ => True)
      (fun _ _ h _ => h.journalStep) (.initial hz) before (fun _ _ _ => trivial) before prefix_rfl
  rw [journalAfter, foldl_append]
  exact foldl_journalStep_mem_iff hnull hzero hu

def addMarker (versionID : String) : JournalOp :=
  .add { volume := "bucket", name := "object", versionID := versionID, deleted := true, modTime := 1 }

def markDeletedAs (versionID status : String) : JournalOp :=
  .delete
    { versionID := versionID, markDeleted := true, deleteMarkerReplicationStatus := status }

/-- A replica's delete marker is marked and stays valid. -/
theorem consistent_along_replica : InitialJournal ⟨[], []⟩ ∧
    ∀ pre, pre <+: [addMarker "1", markDeletedAs "1" "REPLICA"] →
      Consistent (journalAfter decimalIds ⟨[], []⟩ pre).versions := by
  refine ⟨.inl rfl, (consistent_along_iff_sound decimalIds (.inl rfl) _).mpr ?_⟩
  intro pre op hpre z' _
  match pre, hpre with
  | [], hpre =>
    obtain rfl : op = addMarker "1" := by simpa using hpre
    rintro ⟨⟨o, ho⟩, -⟩
    cases ho
  | [a], hpre =>
    obtain ⟨rfl, rfl⟩ : a = addMarker "1" ∧ op = markDeletedAs "1" "REPLICA" := by
      simpa using hpre
    refine ⟨?_, fun _ _ _ _ hreplica => absurd rfl hreplica⟩
    rintro ⟨-, -, -, hzero⟩
    cases hzero
  | a :: b :: pre, hpre => simp at hpre

/-- A marker is still there after a second one was added. -/
theorem journalAfter_mem_marker : .deleteMarker ⟨1, 1, GoMap.make⟩ ∈
    (journalAfter decimalIds ⟨[], []⟩ ([addMarker "1"] ++ [addMarker "2"])).versions := by
  refine (journalAfter_mem_iff decimalIds (.inl rfl) [addMarker "1"] _ (by simp) ?_).mpr mem_cons_self
  rintro op (_ | ⟨_, ⟨⟩⟩) h
  cases h

def legacyObject : ObjectV1 where
  version := "1.0.1"
  format := "xl"
  statSize := 0
  statModTime := 1
  erasure := { dataBlocks := 1, parityBlocks := 1, blockSize := 1 }
  metadata := none
  parts := []
  versionID := nullVersionID
  dataDir := legacyDataDir

def plainVersion (versionID : String) : FileInfo :=
  { volume := "bucket", name := "object", versionID := versionID, modTime := 1,
    erasure := { dataBlocks := 1, parityBlocks := 1, blockSize := 1 } }

/-- Three runs that end in an inconsistent journal: a pending delete marker is replaced by the zero
entry; an update sets a time before 1970; a delete marker with the zero UUID joins a legacy entry. -/
theorem consistency_lost : InitialJournal ⟨[], []⟩ ∧ ¬ Consistent (journalAfter decimalIds ⟨[], []⟩
      [addMarker "1", markDeletedAs "1" "PENDING"]).versions ∧
    ¬ Consistent (journalAfter decimalIds ⟨[], []⟩
      [.add (plainVersion "1"), .update { versionID := "1", modTime := -1 }]).versions ∧
    InitialJournal ⟨[.legacy legacyObject], []⟩ ∧
    ¬ Consistent (journalAfter decimalIds ⟨[.legacy legacyObject], []⟩
      [.delete { versionID := "0", deleted := true, modTime := 1 }]).versions := by
  refine ⟨.inl rfl, fun h => ?_, fun h => ?_, .inr ⟨legacyObject, rfl⟩, fun h => ?_⟩
  · have hzero := h.valid .zero mem_cons_self
    cases hzero
  · have hold := h.valid _ mem_cons_self
    cases hold
  · have hnodup : ([0, 0] : List UUID).Nodup := h.nodup
    simp at hnodup

end Otterio
