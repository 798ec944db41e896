import Otterio.ObjectLock.Retention

/-!
# Filtering object-lock metadata

`FilterObjectLockMetadata` removes the object-lock entries that a caller may not see
(`pkg/bucket/object/lock/lock.go`). It looks for the canonical names only, while the entries are stored, and read
first, under the lower-case names.
-/

namespace Otterio

/-- `map[string]string`. -/
abbrev Metadata := String → Option String

namespace Metadata

variable (parse : String → Option Time) (m : Metadata)

/-- The entries that `meta[strings.ToLower(name)]` and `meta[name]` read. -/
def entry (name : String) : MetaEntry String := ⟨m name.toLower, m name⟩

def userDefined : UserDefined where
  mode := m.entry amzObjectLockMode
  retainUntilDate := ⟨(m.entry amzObjectLockRetainUntilDate).lower.map parse,
    (m.entry amzObjectLockRetainUntilDate).canonical.map parse⟩
  legalHold := m.entry amzObjectLockLegalHold

/-- `XMLNS` of what `GetObjectRetentionMeta` and `GetObjectLegalHoldMeta` return; "" in the empty value. -/
def xmlns (name : String) : String :=
  if (m.entry name).get?.isSome then "http://s3.amazonaws.com/doc/2006-03-01/" else ""

end Metadata

/-- The two maps of `FilterObjectLockMetadata`. Without a copy, `dst` is `metadata` itself. -/
structure Filtering where
  metadata : Metadata
  copy : Option Metadata

namespace Filtering

def dst (s : Filtering) : Metadata := s.copy.getD s.metadata

def delete (s : Filtering) (key : String) : Filtering :=
  match s.copy with
  | some dst => { s with copy := some (Function.update dst key none) }
  | none => { s with metadata := Function.update s.metadata key none }

def delKey (s : Filtering) (key : String) : Filtering :=
  if (s.metadata key).isNone then s
  else
    let s := if s.copy.isNone then { s with copy := some s.metadata } else s
    s.delete key

end Filtering

/-- `FilterObjectLockMetadata`: `metadata` afterwards, and the result `dst`. -/
def filterObjectLockMetadata (parse : String → Option Time) (metadata : Metadata)
    (filterRetention filterLegalHold : Bool) : Filtering :=
  let s : Filtering := ⟨metadata, none⟩
  let legalHold := getObjectLegalHoldMeta (metadata.userDefined parse)
  let s := if !legalHold.status.valid || filterLegalHold then s.delKey amzObjectLockLegalHold else s
  let ret := getObjectRetentionMeta (metadata.userDefined parse)
  if !ret.mode.valid || filterRetention then
    (s.delKey amzObjectLockMode).delKey amzObjectLockRetainUntilDate
  else s

/-- The names of the object-lock entries, canonical and in lower case. -/
def lockKeys : List String :=
  let names := [amzObjectLockMode, amzObjectLockRetainUntilDate, amzObjectLockLegalHold]
  names ++ names.map String.toLower

/-- What is filtered reads as empty, other entries are kept, and the map of the caller is not changed. -/
structure Invisible (parse : String → Option Time) (m : Metadata) (filterRetention filterLegalHold : Bool)
    (s : Filtering) : Prop where
  retention : filterRetention = true →
    s.dst.xmlns amzObjectLockMode = "" ∧ getObjectRetentionMeta (s.dst.userDefined parse) = {}
  legalHold : filterLegalHold = true →
    s.dst.xmlns amzObjectLockLegalHold = "" ∧ getObjectLegalHoldMeta (s.dst.userDefined parse) = {}
  others : ∀ key ∉ lockKeys, s.dst key = m key
  input : s.metadata = m

variable {parse : String → Option Time} {m : Metadata} {s : Filtering} {keys : List String}

/-- The map of the caller is as it was, and `dst` is that map without some keys. -/
def Erased (m : Metadata) (keys : List String) (s : Filtering) : Prop :=
  s.metadata = m ∧ ∀ key, s.dst key = if key ∈ keys then none else m key

theorem Erased.delKey (h : Erased m keys s) (key : String) : Erased m (key :: keys) (s.delKey key) := by
  obtain ⟨rfl, hdst⟩ := h
  have hcons : ∀ k, (if k ∈ key :: keys then none else s.metadata k) = Function.update s.dst key none k := by
    intro k
    by_cases hk : k = key <;> simp [hk, hdst]
  simp only [Erased, hcons]
  by_cases hnone : (s.metadata key).isNone
  · rw [Filtering.delKey, if_pos hnone]
    have hkey : s.dst key = none := by rw [hdst, Option.isNone_iff_eq_none.mp hnone, ite_self]
    exact ⟨rfl, fun k => by rw [← hkey, Function.update_eq_self]⟩
  · rw [Filtering.delKey, if_neg hnone]
    obtain ⟨metadata, _ | copy⟩ := s <;> exact ⟨rfl, fun _ => rfl⟩

/-- The result lacks canonical names only, those of what is filtered among them. -/
theorem filterObjectLockMetadata_erased (parse : String → Option Time) (m : Metadata)
    (filterRetention filterLegalHold : Bool) :
    ∃ keys, Erased m keys (filterObjectLockMetadata parse m filterRetention filterLegalHold) ∧
      (∀ key ∈ keys, key ∈ [amzObjectLockMode, amzObjectLockRetainUntilDate, amzObjectLockLegalHold]) ∧
      (filterRetention = true → amzObjectLockMode ∈ keys) ∧
      (filterLegalHold = true → amzObjectLockLegalHold ∈ keys) := by
  have hstart : Erased m [] ⟨m, none⟩ := ⟨rfl, fun _ => rfl⟩
  unfold filterObjectLockMetadata
  dsimp only
  split_ifs with hret hhold hhold
  · exact ⟨_, ((hstart.delKey _).delKey _).delKey _, by simp, by simp, by simp⟩
  · exact ⟨_, (hstart.delKey _).delKey _, by simp, by simp, by simp_all⟩
  · exact ⟨_, hstart.delKey _, by simp, by simp_all, by simp⟩
  · exact ⟨_, hstart, by simp, by simp_all, by simp_all⟩

/-- **What is filtered cannot be read** exactly when its name is not in the map in lower case. -/
theorem invisible_iff (parse : String → Option Time) (m : Metadata) (filterRetention filterLegalHold : Bool) :
    Invisible parse m filterRetention filterLegalHold
        (filterObjectLockMetadata parse m filterRetention filterLegalHold) ↔
      (filterRetention = true → m amzObjectLockMode.toLower = none) ∧
      (filterLegalHold = true → m amzObjectLockLegalHold.toLower = none) := by
  obtain ⟨keys, ⟨hmeta, hdst⟩, hkeys, hret, hhold⟩ :=
    filterObjectLockMetadata_erased parse m filterRetention filterLegalHold
  generalize filterObjectLockMetadata parse m filterRetention filterLegalHold = s at hmeta hdst ⊢
  -- A lower-case name is not among the keys, so that the entry is what was under it.
  have hget : ∀ name ∈ keys, name.toLower ∉ keys → (s.dst.entry name).get? = m name.toLower := by
    intro name hname hlower
    simp [MetaEntry.get?, Metadata.entry, hdst, hname, hlower]
  have hmode : filterRetention = true → (s.dst.entry amzObjectLockMode).get? = m amzObjectLockMode.toLower :=
    fun h => hget _ (hret h) fun hmem => absurd (hkeys _ hmem) (by decide +kernel)
  have hlegal : filterLegalHold = true →
      (s.dst.entry amzObjectLockLegalHold).get? = m amzObjectLockLegalHold.toLower :=
    fun h => hget _ (hhold h) fun hmem => absurd (hkeys _ hmem) (by decide +kernel)
  constructor
  · intro h
    refine ⟨fun hf => ?_, fun hf => ?_⟩
    · have := (h.retention hf).1
      simpa [Metadata.xmlns, hmode hf] using this
    · have := (h.legalHold hf).1
      simpa [Metadata.xmlns, hlegal hf] using this
  · rintro ⟨hm, hl⟩
    refine ⟨fun hf => ?_, fun hf => ?_, fun key hkey => ?_, hmeta⟩
    · have hnone := (hmode hf).trans (hm hf)
      simp [Metadata.xmlns, getObjectRetentionMeta, Metadata.userDefined, hnone]
    · have hnone := (hlegal hf).trans (hl hf)
      simp [Metadata.xmlns, getObjectLegalHoldMeta, Metadata.userDefined, hnone]
    · rw [hdst, if_neg fun hmem => hkey (List.mem_append_left _ (hkeys key hmem))]

/-- An object on hold, as the handlers store it: its status is still there. -/
theorem filterObjectLockMetadata_lower :
    let m : Metadata := fun key => if key = amzObjectLockLegalHold.toLower then some "ON" else none
    getObjectLegalHoldMeta ((filterObjectLockMetadata (fun _ => none) m true true).dst.userDefined fun _ => none) =
      ⟨.on⟩ := by
  decide +kernel

end Otterio
