import Otterio.XL.Consistency
import Otterio.XL.Format
import Otterio.XL.Read

/-!
# Inline data over the life of a journal

The data of small versions is kept in the journal, under a text of the version's id. It is written
under the text of the caller and read under the printed id; a write without data keeps what is there
when the layout of the version is unchanged (`AddVersion`, `xlStorage.DeleteVersion` of
`cmd/xl-storage.go`, `getFileInfo`).

* `JournalOp.store`: one call on the stored journal; there is none before the first `AddVersion` and
  after the last version was deleted.
* `Payload`: what a live object version should be read with, from the history of calls alone
  (`payloadsAfter`): the data of the last write that carried data, as long as no write changed the
  layout.
* `PayloadInv`: the invariant. Besides the binding it says that no data stands under the text of a
  data directory, where `getFileInfo` looks when it finds nothing under the id.
-/

namespace Otterio

open Err List InlineData

/-! ## Inline data as a map -/

namespace InlineData

variable (x : InlineData) (k k' : String) (v : List UInt8)

theorem find_nil : find [] k = none := rfl

theorem find_cons (e : String × List UInt8) : find (e :: x) k = if e.1 = k then some e.2 else find x k := by
  unfold find
  rw [List.find?_cons]
  by_cases he : e.1 = k
  · simp [he]
  · rw [beq_false_of_ne he, if_neg he]

theorem find_append (y : InlineData) : find (x ++ y) k = (find x k).or (find y k) := by
  simp [find, List.find?_append, Option.map_or]

theorem find_eq_none : x.find k = none ↔ x.any (fun e => e.1 == k) = false := by
  simp [find]

theorem find_map_set : find (x.map fun e => if e.1 == k then (e.1, v) else e) k' =
      if k' = k then (find x k).map fun _ => v else find x k' := by
  induction x with
  | nil => simp [find_nil]
  | cons e x ih =>
    rw [map_cons, find_cons, ih, find_cons, find_cons]
    by_cases he : e.1 = k
    · by_cases hk : k' = k
      · simp [he, hk]
      · simp [he, hk, Ne.symm hk]
    · by_cases hk : k' = k <;> simp [he, hk]

theorem find_replace : (x.replace k v).find k' = if k' = k then some v else x.find k' := by
  unfold replace
  split
  · rename_i hany
    rw [find_map_set]
    cases hfind : find x k with
    | none =>
      rw [(find_eq_none x k).mp hfind] at hany
      cases hany
    | some _ => rfl
  · rename_i hany
    have hnone : find x k = none := (find_eq_none x k).mpr (Bool.not_eq_true _ ▸ hany)
    rw [find_append, find_cons, find_nil]
    by_cases hk : k' = k
    · simp [hk, hnone]
    · simp [hk, Ne.symm hk]

theorem find_remove : (x.remove k).find k' = if k' = k then none else x.find k' := by
  unfold remove find
  rw [List.find?_filter]
  split_ifs with hk
  · simp [hk]
  · congr 2
    funext e
    grind

theorem mem_replace {e : String × List UInt8} (h : e ∈ x.replace k v) : e.1 = k ∨ ∃ e' ∈ x, e'.1 = e.1 := by
  unfold replace at h
  split at h
  · obtain ⟨e', he', rfl⟩ := mem_map.mp h
    right
    refine ⟨e', he', ?_⟩
    split <;> rfl
  · obtain h | h := mem_append.mp h
    · exact .inr ⟨e, h, rfl⟩
    · rw [mem_singleton.mp h]
      exact .inl rfl

/-- The data under a key; a missing key has none. -/
def get (key : String) : List UInt8 := (x.find key).getD []

theorem get_replace : (x.replace k v).get k' = if k' = k then v else x.get k' := by
  unfold get
  rw [find_replace]
  split <;> rfl

theorem get_remove : (x.remove k).get k' = if k' = k then [] else x.get k' := by
  unfold get
  rw [find_remove]
  split <;> rfl

theorem get_remove_eq (h : k' ≠ k ∨ x.get k = []) : (x.remove k).get k' = x.get k' := by
  rw [get_remove]
  by_cases hk : k' = k
  · rw [if_pos hk, hk, h.resolve_left (not_not.mpr hk)]
  · rw [if_neg hk]

theorem get_remove_empty (h : x.get k' = []) : (x.remove k).get k' = [] := by
  rw [get_remove, h, ite_self]

end InlineData

/-! ## Storing a journal -/

def keyBytes (key : String) : Bytes := key.toByteArray.data.toList

def keyText (b : Bytes) : Option String := String.fromUTF8? ⟨b.toArray⟩

theorem keyText_keyBytes (key : String) : keyText (keyBytes key) = some key := by
  unfold keyText keyBytes String.fromUTF8?
  rw [dif_pos (by simpa using key.isValidUTF8)]
  rfl

variable {key : String}

theorem keyBytes_ne_nil (h : key ≠ "") : keyBytes key ≠ [] := by
  intro hnil
  have htext := keyText_keyBytes key
  rw [hnil, ← show keyBytes "" = [] from rfl, keyText_keyBytes, Option.some.injEq] at htext
  exact h htext.symm

def InlineData.toPairs (x : InlineData) : List (Bytes × Bytes) := x.map fun e => (keyBytes e.1, e.2)

def InlineData.ofPairs (pairs : List (Bytes × Bytes)) : InlineData :=
  pairs.filterMap fun e => (keyText e.1).map fun key => (key, e.2)

theorem InlineData.ofPairs_toPairs (x : InlineData) : ofPairs x.toPairs = x := by
  unfold ofPairs toPairs
  rw [filterMap_map]
  have hsome : (fun e : Bytes × Bytes => (keyText e.1).map fun key => (key, e.2)) ∘
      (fun e : String × List UInt8 => (keyBytes e.1, e.2)) = some := by
    funext e
    simp [keyText_keyBytes]
  rw [hsome, filterMap_some]

/-- The journal after `AppendTo` and `Load`; `none` when one of them fails. -/
def reload (c : XLCodec Version) (z : XLMeta) : Option XLMeta :=
  match appendTo c ⟨z.versions, .serialize z.data.toPairs⟩ [] with
  | .error _ => none
  | .ok buf =>
    match load c buf with
    | .error _ => none
    | .ok r => some ⟨r.versions, .ofPairs r.data.pairs⟩

/-- All lengths of the journal fit in the 32 bits that the format has for them. -/
structure FitsFormat (c : XLCodec Version) (z : XLMeta) : Prop where
  versions : (c.marshal z.versions).length < 2 ^ 32
  data : InlineBytes.PairsFit z.data.toPairs

variable {z : XLMeta} {c : XLCodec Version}

theorem reload_of_fits (h : FitsFormat c z) (hkeys : ∀ e ∈ z.data, e.1 ≠ "") :
    reload c z = some z := by
  have hvalid : (InlineBytes.serialize z.data.toPairs).validate = .ok () := by
    refine InlineBytes.validate_serialize h.data fun e he => ?_
    obtain ⟨e', he', rfl⟩ := mem_map.mp he
    exact keyBytes_ne_nil (hkeys e' he')
  obtain ⟨b, happend, hload, -⟩ :=
    readsBack_of_fits (z := ⟨z.versions, .serialize z.data.toPairs⟩) hvalid h.versions []
  unfold reload
  rw [happend]
  simp only [nil_append, hload]
  rw [InlineBytes.pairs_serialize h.data, ofPairs_toPairs]

theorem keyBytes_beq (k k' : String) : (keyBytes k == keyBytes k') = (k == k') := by
  rw [Bool.eq_iff_iff, beq_iff_eq, beq_iff_eq]
  refine ⟨fun h => ?_, congrArg keyBytes⟩
  rw [← Option.some_inj, ← keyText_keyBytes, h, keyText_keyBytes]

/-- **The operations on the bytes are those on the list.** Inline data that is stored is searched, replaced
and removed as the journal has it. -/
theorem inlineBytes_refine (x : InlineData) (k : String) (v : List UInt8) (hfits : InlineBytes.PairsFit x.toPairs) :
    let b := InlineBytes.serialize x.toPairs
    b.find (keyBytes k) = x.find k ∧ b.replace (keyBytes k) v = .serialize (x.replace k v).toPairs ∧
      b.remove (keyBytes k) = .serialize (x.remove k).toPairs := by
  intro b
  have hpairs : b.pairs = x.map fun e => (keyBytes e.1, e.2) := InlineBytes.pairs_serialize hfits
  have hversion : b.versionOK = true := by
    simp only [b, InlineBytes.serialize]
    split <;> rfl
  refine ⟨?_, ?_, ?_⟩
  · simp [InlineBytes.find, InlineData.find, hpairs, hversion, find?_map, Function.comp_def, keyBytes_beq]
  · simp only [InlineBytes.replace, InlineData.replace, toPairs, hpairs, any_map, Function.comp_def, keyBytes_beq]
    split
    · rw [map_map, map_map]
      congr 2
      funext e
      simp only [Function.comp_apply, keyBytes_beq]
      split <;> rfl
    · rw [map_append]
      rfl
  · simp only [InlineBytes.remove, InlineData.remove, toPairs, hpairs, any_map, Function.comp_def, keyBytes_beq,
      filter_map, bne]
    split_ifs with hany
    · rfl
    · rw [filter_eq_self.mpr fun e he => by simpa using fun h => hany (any_eq_true.mpr ⟨e, he, by simpa using h⟩)]
      rfl

theorem inlineBytes_refine_null : InlineBytes.PairsFit (toPairs [("null", [1])]) ∧
    (InlineBytes.serialize (toPairs [("null", [1])])).find (keyBytes "null") = some [1] := by
  have hfits : InlineBytes.PairsFit (toPairs [("null", [1])]) := ⟨by decide, by decide +kernel⟩
  exact ⟨hfits, (inlineBytes_refine _ "null" [] hfits).1⟩

/-! ## Calls on the stored journal -/

def transitionPending : String := "pending"

def orNull (versionID : String) : String := if versionID = "" then nullVersionID else versionID

/-- `xlStorage.DeleteVersion`, for a journal that was loaded: the journal to store, or `none` when
the object is moved to the trash. -/
def storageDeleteVersion (lib : UuidLib) (z : XLMeta) (fi : FileInfo) : Result (Option XLMeta) := do
  Result.ofExcept (validateStorageFileInfo fi false)
  let (z', dataDir, lastVersion) ← deleteVersion lib z fi
  if !lastVersion || fi.transitionStatus != "" then
    if dataDir != "" && fi.transitionStatus != transitionPending then
      return some ⟨z'.versions, (z'.data.remove (orNull fi.versionID)).remove dataDir⟩
    else return some z'
  else return none

def errNoJournal (fi : FileInfo) : Error :=
  if fi.versionID = "" then errFileNotFound else errFileVersionNotFound

/-- "AppendTo" or "Load" failed. -/
def Err.errNotStored : Error := .other 6

/-- The journal that a call leaves, before it is stored. Without a journal, only `AddVersion` does
something; `xlStorage.DeleteVersion` with `forceDelMarker` is then an `AddVersion`. -/
def JournalOp.outcome (lib : UuidLib) (stored : Option XLMeta) : JournalOp → Result (Option XLMeta)
  | .add fi => some <$> addVersion lib (stored.getD ⟨[], []⟩) fi
  | .update fi =>
    match stored with
    | none => .error (.err (errNoJournal fi))
    | some z => some <$> updateObjectVersion lib z fi
  | .delete fi =>
    match stored with
    | none => .error (.err (errNoJournal fi))
    | some z => storageDeleteVersion lib z fi

def JournalOp.store (lib : UuidLib) (c : XLCodec Version) (stored : Option XLMeta) (op : JournalOp) :
    Result (Option XLMeta) := do
  match ← op.outcome lib stored with
  | none => return none
  | some z =>
    match reload c z with
    | none => .error (.err errNotStored)
    | some z' => return some z'

/-! ## What a version should be read with -/

/-- The layout of an object version and its data. -/
structure Payload where
  dataDir : UUID
  size : Int
  partNumbers : List Int
  partSizes : List Int
  data : List UInt8

/-- The payload of each object version that is live. -/
abbrev Payloads := UUID → Option Payload

def Payload.IsOf (p : Payload) (o : ObjectV2) : Prop :=
  p.dataDir = o.dataDir ∧ p.size = o.size ∧ p.partNumbers = o.partNumbers ∧ p.partSizes = o.partSizes

/-- The write is asked to save data, which is empty for an empty object. -/
def FileInfo.carriesData (fi : FileInfo) : Bool := fi.data.length > 0 || fi.size == 0

def UuidLib.dirUUID (lib : UuidLib) (dataDir : String) : UUID :=
  if dataDir = "" then 0
  else match lib.parse dataDir with
    | .ok dd => dd
    | .error _ => 0

/-- The payload after a write: the data that it carries, or the data from before if the layout is the
same. -/
def Payload.afterAdd (fi : FileInfo) (dd : UUID) (old : Option Payload) : Payload where
  dataDir := dd
  size := fi.size
  partNumbers := fi.parts.map ObjectPartInfo.number
  partSizes := fi.parts.map ObjectPartInfo.size
  data :=
    if fi.carriesData then fi.data
    else match old with
      | none => []
      | some p =>
        if p.dataDir = dd ∧ p.size = fi.size ∧ p.partNumbers = fi.parts.map ObjectPartInfo.number ∧
          p.partSizes = fi.parts.map ObjectPartInfo.size then p.data
        else []

def HasObject (vs : List Version) (u : UUID) : Prop := ∃ o, .object o ∈ vs ∧ o.versionID = u

open Classical in
/-- The payloads after a call, given the journal that it left: an `AddVersion` of an object sets the
payload of its version, and versions that are no longer there lose theirs. -/
noncomputable def payloadsAfter (lib : UuidLib) (P : Payloads) (vs : List Version) (op : JournalOp) :
    Payloads := fun u =>
  if HasObject vs u then
    match op with
    | .add fi =>
      if fi.deleted = false ∧ lib.versionUUID fi.versionID = .ok u then
        some (Payload.afterAdd fi (lib.dirUUID fi.dataDir) (P u))
      else P u
    | _ => P u
  else none

variable {lib : UuidLib} {P : Payloads} {vs : List Version} {fi : FileInfo} {u : UUID}

theorem payloadsAfter_add (hlive : HasObject vs u) (hdel : fi.deleted = false)
    (hid : lib.versionUUID fi.versionID = .ok u) :
    payloadsAfter lib P vs (.add fi) u = some (Payload.afterAdd fi (lib.dirUUID fi.dataDir) (P u)) := by
  simp only [payloadsAfter, if_pos hlive, if_pos (And.intro hdel hid)]

variable {uv : UUID}

theorem payloadsAfter_add_of_ne (hlive : HasObject vs u) (hid : lib.versionUUID fi.versionID = .ok uv)
    (hne : u ≠ uv) : payloadsAfter lib P vs (.add fi) u = P u := by
  have hother : ¬ (fi.deleted = false ∧ lib.versionUUID fi.versionID = .ok u) := by
    rintro ⟨-, hu⟩
    exact hne (Except.ok.inj (hu.symm.trans hid))
  simp only [payloadsAfter, if_pos hlive, if_neg hother]

def storedVersions (stored : Option XLMeta) : List Version := (stored.getD ⟨[], []⟩).versions

/-- One call, with the payloads beside the stored journal. A call that fails changes nothing. -/
noncomputable def storeStep (lib : UuidLib) (c : XLCodec Version) (s : Option XLMeta × Payloads)
    (op : JournalOp) : Option XLMeta × Payloads :=
  match op.store lib c s.1 with
  | .ok stored => (stored, payloadsAfter lib s.2 (storedVersions stored) op)
  | .error _ => s

/-- The text names the object version to `getFileInfo`: it is a text of its id, or "" and the version
is the latest. -/
def ReadsVersion (lib : UuidLib) (ord : VersionOrder) (z : XLMeta) (o : ObjectV2) (versionID : String) : Prop :=
  (versionID ≠ "" ∧ lib.versionUUID versionID = .ok o.versionID) ∨
    (versionID = "" ∧ (ord.sort z.versions).head? = some (.object o))

/-- Every live object version is read with its payload. -/
def PayloadsRead (lib : UuidLib) (ord : VersionOrder) (s : Option XLMeta × Payloads) : Prop :=
  ∀ z o versionID, s.1 = some z → .object o ∈ z.versions → ReadsVersion lib ord z o versionID →
    ∀ volume path, ∃ fi p, getFileInfo lib ord z volume path versionID true = .ok fi ∧
      s.2 o.versionID = some p ∧ fi.data = p.data

/-! ## The calls that the binding survives -/

/-- The key that the data of a version is read under. -/
def UuidLib.dataKey (lib : UuidLib) (u : UUID) : String :=
  if u = 0 then nullVersionID else lib.toString u

/-- `uuid.Parse` rejects the texts "" and "legacy", which are no ids. -/
structure UuidLib.RejectsWords (lib : UuidLib) : Prop where
  empty : ∀ u, lib.parse "" ≠ .ok u
  legacy : ∀ u, lib.parse legacyDataDir ≠ .ok u

/-- A write of an object version: its text is the printed id, and data and directories have
different names. -/
structure AddKeeps (lib : UuidLib) (z : XLMeta) (fi : FileInfo) : Prop where
  printed : ∀ u, lib.versionUUID fi.versionID = .ok u → orNull fi.versionID = lib.dataKey u
  dirApart : z.data.get (lib.toString (lib.dirUUID fi.dataDir)) = []
  keyApart : fi.data ≠ [] → orNull fi.versionID ≠ lib.toString (lib.dirUUID fi.dataDir) ∧
    ∀ o, .object o ∈ z.versions → orNull fi.versionID ≠ lib.toString o.dataDir

/-- The call keeps the data of the versions apart and in their places. -/
def JournalOp.KeepsData (lib : UuidLib) (z : XLMeta) : JournalOp → Prop
  | .add fi => fi.deleted = false → AddKeeps lib z fi
  | .update _ => True
  | .delete fi =>
    fi.transitionStatus = "" ∨ fi.transitionStatus = transitionPending ∨ z.data.get (orNull fi.versionID) = []

/-- The call leaves a consistent journal that fits the format, and it keeps the data. -/
structure JournalOp.KeepsPayloads (lib : UuidLib) (c : XLCodec Version) (stored : Option XLMeta)
    (op : JournalOp) : Prop where
  sound : op.Sound lib (stored.getD ⟨[], []⟩)
  data : op.KeepsData lib (stored.getD ⟨[], []⟩)
  fits : ∀ z, op.outcome lib stored = .ok (some z) → FitsFormat c z

/-! ## The invariant -/

/-- The journal holds the payloads, each under the key of its version. -/
structure PayloadInv (lib : UuidLib) (z : XLMeta) (P : Payloads) : Prop where
  consistent : Consistent z.versions
  legacyNull : LegacyNull z.versions
  keys : ∀ e ∈ z.data, e.1 ≠ ""
  apart : ∀ o, .object o ∈ z.versions → z.data.get (lib.toString o.dataDir) = []
  bound : ∀ o, .object o ∈ z.versions →
    ∃ p, P o.versionID = some p ∧ p.IsOf o ∧ z.data.get (lib.dataKey o.versionID) = p.data
  unbound : ∀ u, ¬ HasObject z.versions u → P u = none

noncomputable def Payloads.restrict (P : Payloads) (vs : List Version) : Payloads :=
  open Classical in fun u => if HasObject vs u then P u else none

section Keys

variable {lib : UuidLib}

theorem UuidLib.toString_ne {word : String} (h : ∀ u, lib.parse word ≠ .ok u) (u : UUID) : lib.toString u ≠ word := by
  rintro rfl
  exact h u (lib.parse_toString u)

theorem UuidLib.versionUUID_dataKey (hlib : lib.RejectsWords) (u : UUID) :
    lib.versionUUID (lib.dataKey u) = .ok u := by
  unfold UuidLib.dataKey UuidLib.versionUUID
  by_cases hu : u = 0
  · simp [hu]
  · have hword : ¬ (lib.toString u = "" ∨ lib.toString u = nullVersionID) :=
      not_or.mpr ⟨lib.toString_ne hlib.empty u, lib.toString_ne lib.parse_null u⟩
    rw [if_neg hu, if_neg hword, lib.parse_toString]

variable {u v : UUID}

theorem UuidLib.dataKey_inj (hlib : lib.RejectsWords) (h : lib.dataKey u = lib.dataKey v) : u = v := by
  have hu := lib.versionUUID_dataKey hlib u
  rw [h, lib.versionUUID_dataKey hlib, Except.ok.injEq] at hu
  exact hu.symm

theorem UuidLib.dataKey_ne_legacy (u : UUID) (hlib : lib.RejectsWords) : lib.dataKey u ≠ legacyDataDir := by
  unfold UuidLib.dataKey
  split
  · decide
  · exact lib.toString_ne hlib.legacy u

theorem UuidLib.dataKey_ne_of_text (hlib : lib.RejectsWords) {versionID : String}
    (hu : lib.versionUUID versionID = .ok u) (hne : v ≠ u) : lib.dataKey v ≠ orNull versionID := by
  intro h
  have hv := lib.versionUUID_dataKey hlib v
  rw [h, orNull, UuidLib.versionUUID_orNull, hu, Except.ok.injEq] at hv
  exact hne hv.symm

theorem UuidLib.orNull_versionText (hlib : lib.RejectsWords) (u : UUID) :
    orNull (lib.versionText u) = lib.dataKey u := by
  unfold UuidLib.versionText UuidLib.dataKey orNull
  by_cases hu : u = 0
  · rw [if_pos hu, if_pos hu, if_pos rfl]
  · rw [if_neg hu, if_neg hu, if_neg (lib.toString_ne hlib.empty u)]

theorem orNull_ne_empty (versionID : String) : orNull versionID ≠ "" := by
  unfold orNull
  split
  · decide
  · assumption

end Keys

/-! ## Reading under the invariant -/

variable {o : ObjectV2}

theorem Payloads.restrict_of_object (ho : .object o ∈ vs) :
    P.restrict vs o.versionID = P o.versionID :=
  if_pos ⟨o, ho, rfl⟩

theorem Payloads.restrict_of_none (hu : ¬ HasObject vs u) : P.restrict vs u = none := if_neg hu

variable {versionID : String}

theorem eq_object_of_isRead (hc : Consistent vs) (hnull : LegacyNull vs) (ho : .object o ∈ vs)
    (hid : lib.versionUUID versionID = .ok o.versionID) {v : Version} (hv : v ∈ vs)
    (hread : v.isRead versionID o.versionID = true) : v = .object o := by
  refine hc.eq_of_id hv ho ?_
  cases v with
  | object _ | deleteMarker _ => simpa [Version.isRead, Version.effectiveID] using hread
  | zero => cases hread
  | legacy l =>
    have htext : l.versionID = versionID := by simpa [Version.isRead] using hread
    rw [← htext, (hnull l hv).1, UuidLib.versionUUID, if_pos (.inr rfl), Except.ok.injEq] at hid
    exact hid

/-- Under the invariant every live object version is read with its payload. -/
theorem PayloadInv.read {ord : VersionOrder} (hlib : lib.RejectsWords) (h : PayloadInv lib z P) :
    PayloadsRead lib ord (some z, P) := by
  rintro _ o versionID ⟨⟩ ho hreads volume path
  obtain ⟨p, hp, -, hdata⟩ := h.bound o ho
  obtain ⟨fi, hfi, hids⟩ := @ObjectV2.toFileInfo_of_valid lib o volume path (h.consistent.valid _ ho)
  simp only [FileInfo.ids, Prod.mk.injEq] at hids
  obtain ⟨hid, hdir, -⟩ := hids
  have hread : z.toFileInfo lib ord volume path versionID = .ok fi := by
    obtain ⟨hne, htext⟩ | ⟨rfl, hhead⟩ := hreads
    · exact (toFileInfo_named volume path h.consistent.valid ho hne htext (beq_self_eq_true _)
        fun v hv hr => eq_object_of_isRead h.consistent h.legacyNull ho htext hv hr).trans hfi
    · exact (toFileInfo_latest volume path h.consistent.valid hhead).trans hfi
  refine ⟨_, p, by rw [getFileInfo, hread]; rfl, hp, ?_⟩
  have hkey : orNull fi.versionID = lib.dataKey o.versionID := by
    rw [hid, lib.orNull_versionText hlib]
  show (if (z.data.get (orNull fi.versionID)).isEmpty then z.data.get fi.dataDir
    else z.data.get (orNull fi.versionID)) = p.data
  rw [hkey, hdir, hdata, h.apart o ho]
  split
  · rename_i hempty
    exact (List.isEmpty_iff.mp hempty).symm
  · rfl

/-- The same version with other metadata. -/
def ObjectV2.Agrees (o' o : ObjectV2) : Prop :=
  o'.versionID = o.versionID ∧ o'.dataDir = o.dataDir ∧ o'.size = o.size ∧
    o'.partNumbers = o.partNumbers ∧ o'.partSizes = o.partSizes

theorem ObjectV2.Agrees.refl (o : ObjectV2) : o.Agrees o := ⟨rfl, rfl, rfl, rfl, rfl⟩

/-- No object version is new. -/
def ObjectsFrom (vs vs' : List Version) : Prop := ∀ o', .object o' ∈ vs' → ∃ o, .object o ∈ vs ∧ o'.Agrees o

/-- No version is new, and the data of those that are left is as before. -/
theorem PayloadInv.of_sub {z' : XLMeta} (h : PayloadInv lib z P) (hc : Consistent z'.versions)
    (hnull : LegacyNull z'.versions) (hkeys : ∀ e ∈ z'.data, e.1 ≠ "")
    (hsub : ObjectsFrom z.versions z'.versions)
    (hkey : ∀ o', .object o' ∈ z'.versions →
      z'.data.get (lib.dataKey o'.versionID) = z.data.get (lib.dataKey o'.versionID))
    (hdir : ∀ o', .object o' ∈ z'.versions → z.data.get (lib.toString o'.dataDir) = [] →
      z'.data.get (lib.toString o'.dataDir) = []) :
    PayloadInv lib z' (P.restrict z'.versions) where
  consistent := hc
  legacyNull := hnull
  keys := hkeys
  apart o' ho' := by
    obtain ⟨o, ho, -, hdataDir, -⟩ := hsub o' ho'
    exact hdir o' ho' (hdataDir ▸ h.apart o ho)
  bound o' ho' := by
    obtain ⟨o, ho, hid, hdataDir, hsize, hnumbers, hsizes⟩ := hsub o' ho'
    obtain ⟨p, hp, ⟨hpdir, hpsize, hpnumbers, hpsizes⟩, hdata⟩ := h.bound o ho
    refine ⟨p, ?_, ?_, ?_⟩
    · rw [Payloads.restrict_of_object ho', hid, hp]
    · exact ⟨hpdir.trans hdataDir.symm, hpsize.trans hsize.symm, hpnumbers.trans hnumbers.symm,
        hpsizes.trans hsizes.symm⟩
    · rw [hkey o' ho', hid, hdata]
  unbound u hu := Payloads.restrict_of_none hu

/-! ## Writes -/

section Add

variable {lib : UuidLib} {z z' : XLMeta} {fi : FileInfo} {uv dd : UUID} {P : Payloads}

/-- The layout of the version is that of the write. -/
def ObjectV2.HasLayout (o : ObjectV2) (fi : FileInfo) (dd : UUID) : Prop :=
  o.dataDir = dd ∧ o.size = fi.size ∧ o.partNumbers = fi.parts.map ObjectPartInfo.number ∧
    o.partSizes = fi.parts.map ObjectPartInfo.size

theorem sameLayout_of_hasLayout (hid : o.versionID = uv) (h : o.HasLayout fi dd) :
    sameLayout fi uv dd o = true := by
  obtain ⟨hdir, hsize, hnumbers, hsizes⟩ := h
  simp [sameLayout, hid, hdir, hsize, hnumbers, hsizes]

variable {vs : List Version}

/-- The data is preserved if the version was there with the same layout. -/
theorem preserveInline_iff
    (hunique : ∀ o o', .object o ∈ vs → .object o' ∈ vs → o.versionID = uv → o'.versionID = uv → o = o') :
    preserveInline fi uv dd vs = true ↔ ∃ o, .object o ∈ vs ∧ o.versionID = uv ∧ o.HasLayout fi dd := by
  induction vs with
  | nil => simp [preserveInline]
  | cons v vs ih =>
    have ih := ih fun o o' ho ho' =>
      hunique o o' (mem_cons_of_mem _ ho) (mem_cons_of_mem _ ho')
    -- An entry that does not have the layout is passed over.
    have hrest : (∀ o, v = .object o → o.versionID = uv → ¬ o.HasLayout fi dd) →
        ((∃ o, .object o ∈ v :: vs ∧ o.versionID = uv ∧ o.HasLayout fi dd) ↔
          ∃ o, .object o ∈ vs ∧ o.versionID = uv ∧ o.HasLayout fi dd) := by
      intro hv
      constructor
      · rintro ⟨o, ho, hid, hlayout⟩
        obtain heq | ho := mem_cons.mp ho
        · exact absurd hlayout (hv o heq.symm hid)
        · exact ⟨o, ho, hid, hlayout⟩
      · rintro ⟨o, ho, hid, hlayout⟩
        exact ⟨o, mem_cons_of_mem _ ho, hid, hlayout⟩
    cases v with
    | object old =>
      rw [preserveInline]
      split
      · rename_i hsame
        simp only [sameLayout, Bool.and_eq_true, beq_iff_eq] at hsame
        obtain ⟨⟨⟨⟨hid, hdir⟩, hsize⟩, -⟩, -⟩ := hsame
        simp only [Bool.and_eq_true, beq_iff_eq]
        constructor
        · rintro ⟨hnumbers, hsizes⟩
          exact ⟨old, mem_cons_self, hid, hdir, hsize, hnumbers, hsizes⟩
        · rintro ⟨o, ho, hido, -, -, hnumbers, hsizes⟩
          rw [hunique old o mem_cons_self ho hid hido]
          exact ⟨hnumbers, hsizes⟩
      · rename_i hsame
        rw [ih, hrest]
        rintro o ⟨⟩ hid hlayout
        exact hsame (sameLayout_of_hasLayout hid hlayout)
    | deleteMarker _ | legacy _ | zero =>
      rw [preserveInline, ih, hrest fun o ho => by cases ho]
      simp

theorem Consistent.object_unique (hc : Consistent vs) (o o' : ObjectV2) (ho : .object o ∈ vs)
    (ho' : .object o' ∈ vs) (hid : o.versionID = uv) (hid' : o'.versionID = uv) : o = o' := by
  have heq := hc.eq_of_id ho ho' (hid.trans hid'.symm)
  exact Version.object.inj heq

theorem AddOutcome.dirUUID (h : AddOutcome lib z z' fi uv dd) : lib.dirUUID fi.dataDir = dd := by
  have hdir := h.dataDir
  unfold UuidLib.dirUUID
  split at hdir
  · rw [if_pos ‹_›]
    exact Except.ok.inj hdir
  · rw [if_neg ‹_›, hdir]

/-- The object versions after a write: the new one, and those with other ids. -/
theorem AddOutcome.object_mem (h : AddOutcome lib z z' fi uv dd) (hc : Consistent z'.versions)
    (ho : .object o ∈ z'.versions) : .object o = addEntry fi uv dd ∨ (.object o ∈ z.versions ∧ o.versionID ≠ uv) := by
  obtain ⟨pre, v, post, hvs, -, heq⟩ | ⟨-, heq⟩ := replaceOrAppend_cases h.versions
  · rw [heq] at ho hc
    rw [hvs]
    have hne := hc.id_ne
    rw [addEntry_effectiveID] at hne
    simp only [mem_append, mem_cons] at ho
    obtain ho | ho | ho := ho
    · exact .inr ⟨by simp [ho], hne (.object o) (by simp [ho])⟩
    · exact .inl ho
    · exact .inr ⟨by simp [ho], hne (.object o) (by simp [ho])⟩
  · rw [heq] at ho hc
    have hne := hc.id_ne
    rw [addEntry_effectiveID, append_nil] at hne
    obtain ho | ho := mem_append.mp ho
    · exact .inr ⟨ho, hne (.object o) ho⟩
    · exact .inl (mem_singleton.mp ho)

theorem inlineAfterAdd_keys (hkeys : ∀ e ∈ z.data, e.1 ≠ "") (versionID : String) :
    ∀ e ∈ inlineAfterAdd z fi (orNull versionID) uv dd, e.1 ≠ "" := by
  intro e he
  unfold inlineAfterAdd at he
  split at he
  · obtain hkey | ⟨e', he', hkey⟩ := mem_replace _ _ _ he
    · rw [hkey]
      exact orNull_ne_empty versionID
    · rw [← hkey]
      exact hkeys e' he'
  · split at he
    · exact hkeys e he
    · exact hkeys e (mem_filter.mp he).1

theorem get_inlineAfterAdd_of_ne {versionID : String} (hne : key ≠ versionID) :
    (inlineAfterAdd z fi versionID uv dd).get key = z.data.get key := by
  unfold inlineAfterAdd
  split
  · rw [get_replace, if_neg hne]
  · split
    · rfl
    · rw [get_remove, if_neg hne]

theorem get_inlineAfterAdd_empty {versionID : String} (hempty : z.data.get key = [])
    (hne : fi.data ≠ [] → versionID ≠ key) : (inlineAfterAdd z fi versionID uv dd).get key = [] := by
  unfold inlineAfterAdd
  split
  · rw [get_replace]
    split
    · rename_i heq
      by_contra hdata
      exact hne hdata heq.symm
    · exact hempty
  · split
    · exact hempty
    · exact get_remove_empty _ _ _ hempty

theorem get_inlineAfterAdd_self (h : PayloadInv lib z P) :
    (inlineAfterAdd z fi (lib.dataKey uv) uv dd).get (lib.dataKey uv) = (Payload.afterAdd fi dd (P uv)).data := by
  have hpreserve := @preserveInline_iff fi uv dd z.versions h.consistent.object_unique
  unfold inlineAfterAdd Payload.afterAdd FileInfo.carriesData
  split
  · rw [get_replace, if_pos rfl]
  · by_cases hlive : HasObject z.versions uv
    · obtain ⟨o, ho, rfl⟩ := hlive
      obtain ⟨p, hp, ⟨hdir, hsize, hnumbers, hsizes⟩, hdata⟩ := h.bound o ho
      rw [hp]
      simp only [hdir, hsize, hnumbers, hsizes]
      by_cases hlayout : o.HasLayout fi dd
      · rw [if_pos (hpreserve.mpr ⟨o, ho, rfl, hlayout⟩), hdata]
        exact (if_pos hlayout).symm
      · have hnot : ¬ preserveInline fi o.versionID dd z.versions = true := by
          intro htrue
          obtain ⟨o', ho', hid, hlayout'⟩ := hpreserve.mp htrue
          exact hlayout (h.consistent.object_unique o' o ho' ho hid rfl ▸ hlayout')
        rw [if_neg hnot, get_remove, if_pos rfl]
        exact (if_neg hlayout).symm
    · have hnot : ¬ preserveInline fi uv dd z.versions = true := by
        intro htrue
        obtain ⟨o, ho, hid, -⟩ := hpreserve.mp htrue
        exact hlive ⟨o, ho, hid⟩
      rw [if_neg hnot, get_remove, if_pos rfl, h.unbound uv hlive]

/-- The payload of the version that is written, and the others from before. -/
theorem PayloadInv.addVersion (hlib : lib.RejectsWords) (h : PayloadInv lib z P) (hc : Consistent z'.versions)
    (hnull : LegacyNull z'.versions) (hkeeps : fi.deleted = false → AddKeeps lib z fi)
    (hadd : AddOutcome lib z z' fi uv dd) : PayloadInv lib z' (payloadsAfter lib P z'.versions (.add fi)) := by
  cases hdel : fi.deleted with
  | true =>
    have hdata : z'.data = z.data := by rw [hadd.data, if_pos hdel]
    have hafter : payloadsAfter lib P z'.versions (.add fi) = P.restrict z'.versions := by
      funext u
      simp [payloadsAfter, Payloads.restrict, hdel]
    rw [hafter]
    refine h.of_sub hc hnull (hdata ▸ h.keys) (fun o ho => ?_) (fun o ho => by rw [hdata])
      (fun o ho => by rw [hdata]; exact id)
    obtain heq | ⟨hold, -⟩ := hadd.object_mem hc ho
    · rw [addEntry, if_pos hdel] at heq
      cases heq
    · exact ⟨o, hold, .refl o⟩
  | false =>
    have hk := hkeeps hdel
    have hkey : orNull fi.versionID = lib.dataKey uv := hk.printed uv hadd.versionUUID
    have hdata : z'.data = inlineAfterAdd z fi (lib.dataKey uv) uv dd := by
      rw [hadd.data, if_neg (by simp [hdel]), ← hkey, orNull]
    have hdir := hadd.dirUUID
    have hentry : addEntry fi uv dd = .object (newObjectV2 fi uv dd) := by
      rw [addEntry, if_neg (by simp [hdel])]
    refine ⟨hc, hnull, ?_, fun o ho => ?_, fun o ho => ?_, fun u hu => if_neg hu⟩
    · rw [hdata, ← hkey]
      exact inlineAfterAdd_keys h.keys fi.versionID
    · rw [hdata]
      obtain heq | ⟨hold, -⟩ := hadd.object_mem hc ho
      · cases heq.trans hentry
        refine get_inlineAfterAdd_empty (hdir ▸ hk.dirApart) fun hne => ?_
        rw [← hkey, ← hdir]
        exact (hk.keyApart hne).1
      · refine get_inlineAfterAdd_empty (h.apart o hold) fun hne => ?_
        rw [← hkey]
        exact (hk.keyApart hne).2 o hold
    · have hlive : HasObject z'.versions o.versionID := ⟨o, ho, rfl⟩
      rw [hdata]
      obtain heq | ⟨hold, hne⟩ := hadd.object_mem hc ho
      · cases heq.trans hentry
        refine ⟨_, payloadsAfter_add hlive hdel hadd.versionUUID, ?_, ?_⟩
        · exact ⟨hdir, rfl, rfl, rfl⟩
        · rw [hdir]
          exact get_inlineAfterAdd_self h
      · rw [payloadsAfter_add_of_ne hlive hadd.versionUUID hne,
          get_inlineAfterAdd_of_ne fun heq => hne (lib.dataKey_inj hlib heq)]
        exact h.bound o hold

end Add

/-! ## Updates and deletions -/

namespace ObjectsFrom

variable {pre post vs vs' : List Version} {v w : Version}

theorem change (hvs : vs = pre ++ v :: post) (hw : ∀ o', w = .object o' → ∃ o, v = .object o ∧ o'.Agrees o) :
    ObjectsFrom vs (pre ++ w :: post) := by
  subst hvs
  intro o' ho'
  simp only [mem_append, mem_cons] at ho'
  obtain ho' | ho' | ho' := ho'
  · exact ⟨o', by simp [ho'], .refl o'⟩
  · obtain ⟨o, rfl, hagrees⟩ := hw o' ho'.symm
    exact ⟨o, by simp, hagrees⟩
  · exact ⟨o', by simp [ho'], .refl o'⟩

theorem remove (hvs : vs = pre ++ v :: post) : ObjectsFrom vs (pre ++ post) := by
  subst hvs
  intro o ho
  refine ⟨o, ?_, .refl o⟩
  simp only [mem_append, mem_cons] at ho ⊢
  tauto

theorem append (h : ObjectsFrom vs vs') (hw : ∀ o, w ≠ .object o) : ObjectsFrom vs (vs' ++ [w]) := by
  intro o ho
  obtain ho | ho := mem_append.mp ho
  · exact h o ho
  · exact absurd (mem_singleton.mp ho).symm (hw o)

theorem refl (vs : List Version) : ObjectsFrom vs vs := fun o ho => ⟨o, ho, .refl o⟩

end ObjectsFrom

theorem deleteEntry_ne_object (fi : FileInfo) (uv : UUID) (o : ObjectV2) : deleteEntry fi uv ≠ .object o := by
  unfold deleteEntry
  split <;> simp

variable {vs' : List Version}

theorem ObjectsFrom.appendIf (h : ObjectsFrom vs vs') (b : Bool) (fi : FileInfo) (uv : UUID) :
    ObjectsFrom vs (appendIf b (deleteEntry fi uv) vs') := by
  cases b with
  | false => exact h
  | true => exact h.append (deleteEntry_ne_object fi uv)

theorem UpdateOutcome.objectsFrom (h : UpdateOutcome fi versionID uv vs vs') : ObjectsFrom vs vs' := by
  cases h with
  | legacy hvs => exact .change hvs fun o' ho' => by cases ho'
  | object hvs =>
    refine .change hvs fun o' ho' => ⟨_, rfl, ?_⟩
    cases ho'
    exact .refl _

variable {dir : String}

theorem DeleteOutcome.objectsFrom {data : InlineData}
    (h : DeleteOutcome lib data fi versionID uv vs vs' dir) : ObjectsFrom vs vs' := by
  cases h with
  | legacyTransition hvs | markerUpdate hvs => exact .change hvs fun o' ho' => by cases ho'
  | legacyRemove hvs | markerRemove hvs | objectRemove hvs => exact (ObjectsFrom.remove hvs).appendIf _ fi uv
  | objectPurge hvs | objectTransition hvs =>
    refine .change hvs fun o' ho' => ⟨_, rfl, ?_⟩
    cases ho'
    exact .refl _
  | append => exact (ObjectsFrom.refl vs).append (deleteEntry_ne_object fi uv)

section Delete

variable {lib : UuidLib} {z z' : XLMeta} {fi : FileInfo} {uv : UUID} {P : Payloads}

/-- What `xlStorage.DeleteVersion` does to the inline data: it removes the keys of the text and of
the directory, unless there is no directory to delete. -/
theorem storageDeleteVersion_cases {r : Option XLMeta} (h : storageDeleteVersion lib z fi = .ok r) :
    ∃ z' dir last, deleteVersion lib z fi = .ok (z', dir, last) ∧
      (r = none ∨ r = some z' ∨ (dir ≠ "" ∧ fi.transitionStatus ≠ transitionPending ∧
        r = some ⟨z'.versions, (z'.data.remove (orNull fi.versionID)).remove dir⟩)) := by
  obtain ⟨_, -, h⟩ := Result.bind_eq_ok h
  obtain ⟨⟨z', dir, last⟩, hdelete, h⟩ := Result.bind_eq_ok h
  refine ⟨z', dir, last, hdelete, ?_⟩
  simp only at h
  split at h
  · split at h
    · rename_i hremove
      simp only [Bool.and_eq_true, bne_iff_ne] at hremove
      exact .inr (.inr ⟨hremove.1, hremove.2, (Except.ok.inj h).symm⟩)
    · exact .inr (.inl (Except.ok.inj h).symm)
  · exact .inl (Except.ok.inj h).symm

theorem freedDir_eq (h : freedDir lib z o ≠ "") : freedDir lib z o = lib.toString o.dataDir := by
  unfold freedDir at h ⊢
  split at h
  · exact absurd rfl h
  · rename_i hshared
    rw [if_neg hshared]

/-- The keys that are removed hold no data of a version that is left. -/
theorem DeleteOutcome.removed_keys {vs' : List Version} (hlib : lib.RejectsWords)
    (h : PayloadInv lib z P) (huv : lib.versionUUID fi.versionID = .ok uv)
    (hstatus : fi.transitionStatus = "" ∨ z.data.get (orNull fi.versionID) = [])
    (hout : DeleteOutcome lib z.data fi
      (if fi.versionID = nullVersionID then "" else fi.versionID) uv z.versions vs' dir)
    (hdir : dir ≠ "") (ho : .object o ∈ vs') :
    (lib.dataKey o.versionID ≠ orNull fi.versionID ∨ z.data.get (orNull fi.versionID) = []) ∧
      (lib.dataKey o.versionID ≠ dir ∨ z.data.get dir = []) := by
  obtain ⟨old, hold, hagrees⟩ := hout.objectsFrom o ho
  -- A legacy entry has the id of the null version, so that no object version has it.
  have hlegacy : ∀ {l : ObjectV1}, .legacy l ∈ z.versions →
      l.IsNamed (if fi.versionID = nullVersionID then "" else fi.versionID) →
      (lib.dataKey o.versionID ≠ orNull fi.versionID ∨ z.data.get (orNull fi.versionID) = []) ∧
        (lib.dataKey o.versionID ≠ l.dataDir ∨ z.data.get l.dataDir = []) := by
    intro l hl hnamed
    have hnull := h.legacyNull l hl
    have hzero := huv
    rw [UuidLib.versionUUID, if_pos (hnull.text_of_named hnamed), Except.ok.injEq] at hzero
    have hne : o.versionID ≠ uv := by
      intro heq
      have hid : (Version.object old).effectiveID = (Version.legacy l).effectiveID :=
        (hagrees.1.symm.trans heq).trans hzero.symm
      cases h.consistent.eq_of_id hold hl hid
    refine ⟨.inl (lib.dataKey_ne_of_text hlib huv hne), .inl ?_⟩
    rw [hnull.2]
    exact lib.dataKey_ne_legacy _ hlib
  cases hout with
  | legacyTransition hvs hnamed | legacyRemove hvs hnamed => exact hlegacy (by simp [hvs]) hnamed
  | markerUpdate | markerRemove | objectPurge | append => exact absurd rfl hdir
  | @objectTransition pre post o' hvs hid htransition =>
    rw [freedDir_eq hdir]
    exact ⟨.inr (hstatus.resolve_left htransition), .inr (h.apart o' (by simp [hvs]))⟩
  | @objectRemove pre post o' hvs hid =>
    rw [freedDir_eq hdir]
    have hleft : .object o ∈ pre ++ post := by
      obtain ⟨b, hb⟩ : ∃ b, fi.deleted = b := ⟨_, rfl⟩
      rw [hb] at ho
      cases b with
      | false => exact ho
      | true =>
        obtain ho | ho := mem_append.mp ho
        · exact ho
        · exact absurd (mem_singleton.mp ho).symm (deleteEntry_ne_object fi uv o)
    have hne : o.versionID ≠ uv := by
      rw [← hid]
      exact (hvs ▸ h.consistent).id_ne (.object o) hleft
    exact ⟨.inl (lib.dataKey_ne_of_text hlib huv hne), .inr (h.apart o' (by simp [hvs]))⟩

theorem PayloadInv.updateObjectVersion (h : PayloadInv lib z P) (hc : Consistent z'.versions)
    (hnull : LegacyNull z'.versions) (hupdate : updateObjectVersion lib z fi = .ok z') :
    PayloadInv lib z' (P.restrict z'.versions) := by
  obtain ⟨uv, -, hdata, hout⟩ := updateObjectVersion_cases hupdate
  refine h.of_sub hc hnull (hdata ▸ h.keys) hout.objectsFrom (fun o _ => ?_) (fun o _ hempty => ?_)
  · rw [hdata]
  · rw [hdata, hempty]

theorem PayloadInv.nil (lib : UuidLib) (P : Payloads) : PayloadInv lib ⟨[], []⟩ (P.restrict []) where
  consistent := .nil
  legacyNull o ho := by cases ho
  keys e he := by cases he
  apart o ho := by cases ho
  bound o ho := by cases ho
  unbound u hu := Payloads.restrict_of_none hu

theorem PayloadInv.deleteVersion {last : Bool} (hlib : lib.RejectsWords) (h : PayloadInv lib z P)
    (hc : Consistent z'.versions) (hnull : LegacyNull z'.versions) (hkeeps : (JournalOp.delete fi).KeepsData lib z)
    (hdelete : deleteVersion lib z fi = .ok (z', dir, last)) :
    PayloadInv lib z' (P.restrict z'.versions) ∧
    (dir ≠ "" → fi.transitionStatus ≠ transitionPending →
      PayloadInv lib ⟨z'.versions, (z'.data.remove (orNull fi.versionID)).remove dir⟩
        (P.restrict z'.versions)) := by
  obtain ⟨uv, huv, hdata, -, hout⟩ := deleteVersion_cases hdelete
  constructor
  · refine h.of_sub hc hnull (hdata ▸ h.keys) hout.objectsFrom (fun o _ => ?_) (fun o _ hempty => ?_)
    · rw [hdata]
    · rw [hdata, hempty]
  · intro hdir hpending
    have hstatus : fi.transitionStatus = "" ∨ z.data.get (orNull fi.versionID) = [] :=
      hkeeps.imp_right fun hrest => hrest.resolve_left hpending
    refine h.of_sub hc hnull (fun e he => ?_) hout.objectsFrom (fun o ho => ?_)
      (fun o _ hempty => ?_)
    · have hmem := (mem_filter.mp (mem_filter.mp he).1).1
      exact h.keys e (hdata ▸ hmem)
    · obtain ⟨htext, hdirkey⟩ := hout.removed_keys hlib h huv hstatus hdir ho
      rw [hdata, get_remove_eq, get_remove_eq _ _ _ htext]
      exact hdirkey.imp_right (get_remove_empty _ _ _)
    · rw [hdata]
      exact get_remove_empty _ _ _ (get_remove_empty _ _ _ hempty)

end Delete

/-! ## Runs -/

section Runs

variable {lib : UuidLib} {c : XLCodec Version} {P : Payloads} {op : JournalOp} {stored : Option XLMeta}

/-- The journal that a call leaves keeps the invariant, before it is stored. -/
theorem PayloadInv.outcome {r : Option XLMeta} (hlib : lib.RejectsWords)
    (h : PayloadInv lib (stored.getD ⟨[], []⟩) P) (hsound : op.Sound lib (stored.getD ⟨[], []⟩))
    (hdata : op.KeepsData lib (stored.getD ⟨[], []⟩)) (hr : op.outcome lib stored = .ok r) :
    PayloadInv lib (r.getD ⟨[], []⟩) (payloadsAfter lib P (storedVersions r) op) := by
  cases op with
  | add fi =>
    obtain ⟨z', hadd, rfl⟩ := Result.map_eq_ok hr
    have hc : Consistent z'.versions := (consistent_addVersion_iff h.consistent h.legacyNull hadd).mpr hsound
    have happly : (JournalOp.add fi).apply lib (stored.getD ⟨[], []⟩) = .ok z' := hadd
    have hnull := h.legacyNull.apply happly
    obtain ⟨uv, dd, hout⟩ := addVersion_cases hadd
    exact h.addVersion hlib hc hnull hdata hout
  | update fi =>
    cases stored with
    | none => cases hr
    | some z =>
      obtain ⟨z', hupdate, rfl⟩ := Result.map_eq_ok hr
      have hc : Consistent z'.versions :=
        (consistent_updateObjectVersion_iff h.consistent h.legacyNull hupdate).mpr hsound
      have happly : (JournalOp.update fi).apply lib z = .ok z' := hupdate
      have hnull := h.legacyNull.apply happly
      exact h.updateObjectVersion hc hnull hupdate
  | delete fi =>
    cases stored with
    | none => cases hr
    | some z =>
      obtain ⟨z', dir, last, hdelete, hcases⟩ := storageDeleteVersion_cases hr
      have hc : Consistent z'.versions := (consistent_deleteVersion_iff h.consistent h.legacyNull hdelete).mpr hsound
      have happly : (JournalOp.delete fi).apply lib z = .ok z' := by
        rw [JournalOp.apply, hdelete]
        rfl
      have hnull := h.legacyNull.apply happly
      obtain ⟨hkept, hremoved⟩ := h.deleteVersion hlib hc hnull hdata hdelete
      obtain rfl | rfl | ⟨hdir, hpending, rfl⟩ := hcases
      · exact .nil lib P
      · exact hkept
      · exact hremoved hdir hpending

variable {z : XLMeta}

theorem store_of_fits (h : op.outcome lib stored = .ok (some z)) (hfits : FitsFormat c z)
    (hkeys : ∀ e ∈ z.data, e.1 ≠ "") : op.store lib c stored = .ok (some z) := by
  simp only [JournalOp.store, h, bind, Except.bind, reload_of_fits hfits hkeys]
  rfl

theorem PayloadInv.store {r : Option XLMeta} (hlib : lib.RejectsWords) (h : PayloadInv lib (stored.getD ⟨[], []⟩) P)
    (hkeeps : op.KeepsPayloads lib c stored) (hr : op.store lib c stored = .ok r) :
    PayloadInv lib (r.getD ⟨[], []⟩) (payloadsAfter lib P (storedVersions r) op) := by
  obtain ⟨left, hleft, hnone⟩ := Result.bind_eq_ok hr
  have hinv := h.outcome hlib hkeeps.sound hkeeps.data hleft
  cases left with
  | none =>
    cases hnone
    exact hinv
  | some z =>
    rw [store_of_fits hleft (hkeeps.fits z hleft) hinv.keys] at hr
    cases hr
    exact hinv

noncomputable def storedAfter (lib : UuidLib) (c : XLCodec Version) (stored : Option XLMeta)
    (ops : List JournalOp) : Option XLMeta × Payloads :=
  ops.foldl (storeStep lib c) (stored, fun _ => none)

theorem PayloadInv.initial (hz : InitialJournal z) : PayloadInv lib z fun _ => none := by
  have hbare : (∀ o, .object o ∉ z.versions) ∧ z.data = [] := by
    obtain rfl | ⟨m, hm⟩ := hz
    · simp
    · unfold addLegacy at hm
      split at hm
      · cases hm
      · cases hm
        simp
  obtain ⟨hnone, hdata⟩ := hbare
  exact
    { consistent := .initial hz
      legacyNull := .initial hz
      keys := by simp [hdata]
      apart := fun o ho => absurd ho (hnone o)
      bound := fun o ho => absurd ho (hnone o)
      unbound := fun _ _ => rfl }

end Runs

/-- **Every version is read with the data of its last write.** In a run whose successful calls keep
the payloads, every object version that is live is read with its payload, under every text of its
id. -/
theorem payloads_read_along (lib : UuidLib) (hlib : lib.RejectsWords) (c : XLCodec Version)
    (ord : VersionOrder) {stored : Option XLMeta} (hstored : InitialJournal (stored.getD ⟨[], []⟩))
    (ops : List JournalOp)
    (hkeeps : ∀ pre op, pre ++ [op] <+: ops → ∀ r, op.store lib c (storedAfter lib c stored pre).1 = .ok r →
        op.KeepsPayloads lib c (storedAfter lib c stored pre).1) :
    ∀ pre, pre <+: ops → PayloadsRead lib ord (storedAfter lib c stored pre) := by
  have hinv : ∀ pre, pre <+: ops → PayloadInv lib ((storedAfter lib c stored pre).1.getD ⟨[], []⟩)
        (storedAfter lib c stored pre).2 := by
    refine holds_along (P := fun s : Option XLMeta × Payloads => PayloadInv lib (s.1.getD ⟨[], []⟩) s.2)
      (Q := fun s op => ∀ r, op.store lib c s.1 = .ok r → op.KeepsPayloads lib c s.1) ?_
      (PayloadInv.initial hstored) ops hkeeps
    intro s op hs hop
    unfold storeStep
    split
    · rename_i r hr
      exact hs.store hlib (hop r hr) hr
    · exact hs
  intro pre hpre z o versionID hz
  have hlast := hinv pre hpre
  rw [hz] at hlast
  exact hlast.read hlib z o versionID rfl

def smallVersion (versionID dataDir : String) (data : List UInt8) : FileInfo :=
  { plainVersion versionID with dataDir := dataDir, size := 1, data := data }

theorem decimalIds_rejectsWords : decimalIds.RejectsWords where
  empty u h := by cases h
  legacy u h := by cases h

/-- The journal after a small version was written under a text of the id 1. -/
def oneSmall (versionID : String) : XLMeta :=
  ⟨[.object (newObjectV2 (smallVersion versionID "2" [7]) 1 2)], [(versionID, [7])]⟩

/-- The data of a version that was written under its printed id is read. -/
theorem payloads_read_small : InitialJournal ((none : Option XLMeta).getD ⟨[], []⟩) ∧ decimalIds.RejectsWords ∧
    ∀ pre, pre <+: [.add (smallVersion "1" "2" [7])] →
      PayloadsRead decimalIds byInsertion (storedAfter decimalIds plainCodec none pre) := by
  refine ⟨.inl rfl, decimalIds_rejectsWords,
    payloads_read_along decimalIds decimalIds_rejectsWords plainCodec byInsertion (.inl rfl) _ ?_⟩
  intro pre op hpre r _
  match pre, hpre with
  | [], hpre =>
    obtain rfl : op = .add (smallVersion "1" "2" [7]) := by simpa using hpre
    refine ⟨?_, fun _ => ⟨?_, rfl, fun _ => ⟨by decide, ?_⟩⟩, ?_⟩
    · rintro ⟨⟨o, ho⟩, -⟩
      cases ho
    · rintro u ⟨⟩
      rfl
    · intro o ho
      cases ho
    · rintro z ⟨⟩
      exact ⟨by decide +kernel, by decide +kernel, by decide +kernel⟩
  | a :: pre, hpre => simp at hpre

theorem storeStep_of_fits {s : Option XLMeta × Payloads} {op : JournalOp}
    (h : op.outcome lib s.1 = .ok (some z)) (hfits : FitsFormat c z) (hkeys : ∀ e ∈ z.data, e.1 ≠ "") :
    storeStep lib c s op = (some z, payloadsAfter lib s.2 z.versions op) := by
  rw [storeStep, store_of_fits h hfits hkeys]
  rfl

/-- The journal after a version was written whose directory has the text of another version. -/
def twoSmall : XLMeta :=
  ⟨(oneSmall "1").versions ++ [.object (newObjectV2 (smallVersion "3" "1" []) 3 1)], (oneSmall "1").data⟩

/-- Two runs after which a version is read with other data: it was written under another text of its
id, and the read looks under the printed one; its directory has the text of another version's id,
and the read returns the data of that version. -/
theorem payloads_misread : InitialJournal ((none : Option XLMeta).getD ⟨[], []⟩) ∧ decimalIds.RejectsWords ∧
    ¬ PayloadsRead decimalIds byInsertion
      (storedAfter decimalIds plainCodec none [.add (smallVersion "01" "2" [7])]) ∧
    ¬ PayloadsRead decimalIds byInsertion
      (storedAfter decimalIds plainCodec none
        [.add (smallVersion "1" "2" [7]), .add (smallVersion "3" "1" [])]) := by
  refine ⟨.inl rfl, decimalIds_rejectsWords, fun h => ?_, fun h => ?_⟩
  · have hfits : FitsFormat plainCodec (oneSmall "01") :=
      ⟨by decide +kernel, by decide +kernel, by decide +kernel⟩
    rw [storedAfter, foldl_cons, foldl_nil, storeStep_of_fits rfl hfits (by decide)] at h
    obtain ⟨fi, p, hfi, hp, hdata⟩ :=
      h _ _ "1" rfl mem_cons_self (.inl ⟨by decide, rfl⟩) "bucket" "object"
    have hpayload := hp.symm.trans (payloadsAfter_add ⟨_, mem_cons_self, rfl⟩ rfl rfl)
    cases hfi
    cases hpayload
    cases hdata
  · have hfits : FitsFormat plainCodec (oneSmall "1") :=
      ⟨by decide +kernel, by decide +kernel, by decide +kernel⟩
    have hfits' : FitsFormat plainCodec twoSmall :=
      ⟨by decide +kernel, by decide +kernel, by decide +kernel⟩
    have hfirst : storeStep decimalIds plainCodec (none, fun _ => none)
        (.add (smallVersion "1" "2" [7])) = (some (oneSmall "1"), _) :=
      storeStep_of_fits rfl hfits (by decide)
    have hsecond : ∀ P, storeStep decimalIds plainCodec (some (oneSmall "1"), P)
        (.add (smallVersion "3" "1" [])) = (some twoSmall, _) := fun P =>
      storeStep_of_fits rfl hfits' (by decide)
    rw [storedAfter, foldl_cons, foldl_cons, foldl_nil, hfirst, hsecond] at h
    have hmem : .object (newObjectV2 (smallVersion "3" "1" []) 3 1) ∈ twoSmall.versions :=
      mem_cons_of_mem _ mem_cons_self
    obtain ⟨fi, p, hfi, hp, hdata⟩ := h _ _ "3" rfl hmem (.inl ⟨by decide, rfl⟩) "bucket" "object"
    -- The version 3 was not there before.
    have hnew : payloadsAfter decimalIds (fun _ => none) (oneSmall "1").versions
        (.add (smallVersion "1" "2" [7])) 3 = none := by
      refine if_neg ?_
      rintro ⟨o, ho, hid⟩
      cases mem_singleton.mp ho
      cases hid
    have hpayload : some p = some (Payload.afterAdd (smallVersion "3" "1" []) 1 none) := by
      rw [← hnew]
      exact hp.symm.trans (payloadsAfter_add ⟨_, hmem, rfl⟩ rfl rfl)
    cases hpayload
    cases hfi
    cases hdata

end Otterio
