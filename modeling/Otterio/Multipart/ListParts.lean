import Otterio.Lib.Paging
import Otterio.Multipart.Complete

/-!
# Listing the parts of an upload

`AddObjectPart` of `cmd/erasure-metadata.go` and `ListObjectParts` of `cmd/erasure-multipart.go`.

* The parts of an upload are in ascending order with distinct numbers (`ascending_foldl`); a part that is
  uploaded again keeps its place (`numbers_foldl`).
* The listing starts after the part whose number is the marker. If there is no such part it starts at the first
  one, whatever the marker is (`after`): so a page is right exactly if the marker is the number of a part, or
  less than all of them (`listObjectParts_eq`, `isPage_iff`).
* A marker that a page names is the number of a part, and no part has the number 0: following the markers from
  0 lists every part once (`Session.splits`).
-/

namespace Otterio.Multipart

open Err Paging List

/-! ## Parts of an upload -/

def numbers (parts : List ObjectPartInfo) : List Int := parts.map ObjectPartInfo.number

/-- `objectPartIndex`, where no index is -1. -/
def objectPartIndex (parts : List ObjectPartInfo) (partNumber : Int) : Option Nat :=
  parts.findIdx? fun part => partNumber == part.number

/-- `byObjectPartNumber`. -/
def ByNumber (a b : ObjectPartInfo) : Prop := a.number ≤ b.number

instance : DecidableRel ByNumber := fun a b => Int.decLe a.number b.number

instance : Std.Total ByNumber := ⟨fun a b => Int.le_total a.number b.number⟩

instance : IsTrans ObjectPartInfo ByNumber := ⟨fun _ _ _ h₁ h₂ => Int.le_trans h₁ h₂⟩

/-- `AddObjectPart`. The numbers are distinct, so every sort gives the same list. -/
def addObjectPart (parts : List ObjectPartInfo) (partInfo : ObjectPartInfo) : List ObjectPartInfo :=
  match objectPartIndex parts partInfo.number with
  | some i => parts.set i partInfo
  | none => (parts ++ [partInfo]).insertionSort ByNumber

/-- The parts have ascending and distinct numbers. -/
def Ascending (parts : List ObjectPartInfo) : Prop := parts.Pairwise fun a b => a.number < b.number

theorem objectPartIndex_eq_none {parts : List ObjectPartInfo} {k : Int} :
    objectPartIndex parts k = none ↔ k ∉ numbers parts := by
  unfold objectPartIndex numbers
  rw [List.findIdx?_eq_none_iff, mem_map]
  constructor
  · rintro h ⟨part, hpart, rfl⟩
    simpa using h part hpart
  · intro h part hpart
    have hne : k ≠ part.number := fun heq => h ⟨part, hpart, heq.symm⟩
    simpa using hne

theorem objectPartIndex_eq_some {parts : List ObjectPartInfo} {k : Int} {i : Nat}
    (h : objectPartIndex parts k = some i) :
    ∃ part, parts = parts.take i ++ part :: parts.drop (i + 1) ∧ part.number = k := by
  obtain ⟨hi, heq, -⟩ := List.findIdx?_eq_some_iff_getElem.mp h
  exact ⟨parts[i], by simp, (by simpa using heq : k = _).symm⟩

theorem numbers_addObjectPart {parts : List ObjectPartInfo} {part : ObjectPartInfo}
    (h : part.number ∈ numbers parts) : numbers (addObjectPart parts part) = numbers parts := by
  unfold addObjectPart
  cases hi : objectPartIndex parts part.number with
  | none => exact absurd h (objectPartIndex_eq_none.mp hi)
  | some i =>
    obtain ⟨old, hparts, hold⟩ := objectPartIndex_eq_some hi
    have hlt : i < parts.length := by
      have := congrArg List.length hparts
      simp only [length_append, length_take, length_cons, length_drop] at this
      omega
    show numbers (parts.set i part) = _
    conv_rhs => rw [hparts]
    rw [set_eq_take_append_cons_drop, if_pos hlt]
    simp only [numbers, map_append, map_cons, hold]

theorem ascending_iff {parts : List ObjectPartInfo} :
    Ascending parts ↔ (numbers parts).Pairwise (· < ·) := pairwise_map.symm

theorem ascending_addObjectPart {parts : List ObjectPartInfo} (h : Ascending parts) (part : ObjectPartInfo) :
    Ascending (addObjectPart parts part) := by
  by_cases hmem : part.number ∈ numbers parts
  · rw [ascending_iff, numbers_addObjectPart hmem]
    exact ascending_iff.mp h
  · unfold addObjectPart
    rw [objectPartIndex_eq_none.mpr hmem]
    have hperm := perm_insertionSort ByNumber (parts ++ [part])
    have hdistinct : ((parts ++ [part]).insertionSort ByNumber).Pairwise fun a b => a.number ≠ b.number := by
      refine (hperm.pairwise_iff fun hab => hab.symm).mpr ?_
      refine pairwise_append.mpr ⟨h.imp ne_of_lt, pairwise_singleton _ _, ?_⟩
      intro a ha b hb heq
      rw [mem_singleton.mp hb] at heq
      exact hmem (mem_map.mpr ⟨a, ha, heq⟩)
    refine (pairwise_insertionSort ByNumber _).imp₂ ?_ hdistinct
    intro a b hle hne
    exact lt_of_le_of_ne hle hne

theorem ascending_foldl {parts : List ObjectPartInfo} (h : Ascending parts) (uploads : List ObjectPartInfo) :
    Ascending (uploads.foldl addObjectPart parts) := by
  induction uploads generalizing parts with
  | nil => exact h
  | cons part rest ih => exact ih (ascending_addObjectPart h part)

theorem mem_addObjectPart {parts : List ObjectPartInfo} (h : Ascending parts) {part p : ObjectPartInfo} :
    p ∈ addObjectPart parts part ↔ p = part ∨ p ∈ parts ∧ p.number ≠ part.number := by
  unfold addObjectPart
  cases hi : objectPartIndex parts part.number with
  | none =>
    have hne : p ∈ parts → p.number ≠ part.number := fun hp heq =>
      objectPartIndex_eq_none.mp hi (mem_map.mpr ⟨p, hp, heq⟩)
    rw [mem_insertionSort, mem_append, mem_singleton, or_comm]
    exact or_congr_right ⟨fun hp => ⟨hp, hne hp⟩, And.left⟩
  | some i =>
    obtain ⟨hi, hnumber, -⟩ := findIdx?_eq_some_iff_getElem.mp hi
    have hasc := pairwise_iff_getElem.mp h
    have hother : ∀ j (hj : j < parts.length), j ≠ i → parts[j].number ≠ part.number := by
      intro j hj hne
      rw [beq_iff_eq.mp hnumber]
      rcases Nat.lt_or_gt_of_ne hne with hlt | hlt
      · exact (hasc j i hj hi hlt).ne
      · exact (hasc i j hi hj hlt).ne'
    simp only [mem_iff_getElem, length_set, getElem_set]
    grind

/-- **The last upload of a part counts.** After any uploads, repeated or not and in any order, the parts stand
in the order of their numbers, and there is one for each number that was uploaded, the last one. -/
theorem uploads_last (uploads : List ObjectPartInfo) : Ascending (uploads.foldl addObjectPart []) ∧
    ∀ p, p ∈ uploads.foldl addObjectPart [] ↔ uploads.reverse.find? (·.number == p.number) = some p := by
  have hasc : ∀ l : List ObjectPartInfo, Ascending (l.foldl addObjectPart []) := ascending_foldl Pairwise.nil
  refine ⟨hasc uploads, fun p => ?_⟩
  induction uploads using reverseRecOn with
  | nil => simp
  | append_singleton uploads u ih =>
    rw [foldl_append, foldl_cons, foldl_nil, mem_addObjectPart (hasc uploads), ih, reverse_concat, find?_cons]
    by_cases hn : u.number = p.number
    · simp [hn, eq_comm]
    · have hne : p ≠ u := fun heq => hn (heq ▸ rfl)
      simp [beq_false_of_ne hn, hne, Ne.symm hn]

theorem numbers_foldl {parts uploads : List ObjectPartInfo} (h : ∀ part ∈ uploads, part.number ∈ numbers parts) :
    numbers (uploads.foldl addObjectPart parts) = numbers parts := by
  induction uploads generalizing parts with
  | nil => rfl
  | cons part rest ih =>
    have hpart := numbers_addObjectPart (h part mem_cons_self)
    refine (ih fun q hq => ?_).trans hpart
    rw [hpart]
    exact h q (mem_cons_of_mem part hq)

/-! ## One page -/

/-- `PartInfo`, whose actual size the listing leaves out. -/
structure PartInfo where
  partNumber : Int
  lastModified : Time
  etag : String
  size : Int
deriving DecidableEq

structure ListPartsInfo where
  bucket : String := ""
  object : String := ""
  uploadID : String := ""
  partNumberMarker : Int := 0
  nextPartNumberMarker : Int := 0
  maxParts : Int := 0
  isTruncated : Bool := false
  parts : List PartInfo := []
  userDefined : GoMap String String := none

def maxPartsList : Int := 10000

def partInfo (fi : FileInfo) (part : ObjectPartInfo) : PartInfo := ⟨part.number, fi.modTime, part.etag, part.size⟩

/-- The parts that the loop goes through. -/
def after (parts : List ObjectPartInfo) (partNumberMarker : Int) : List ObjectPartInfo :=
  match objectPartIndex parts partNumberMarker with
  | some partIdx => parts.drop (partIdx + 1)
  | none => parts

/-- The loop, which ends when the count gets to 0. -/
def listLoop (fi : FileInfo) : Int → List ObjectPartInfo → List PartInfo
  | _, [] => []
  | count, part :: rest => partInfo fi part :: if count - 1 = 0 then [] else listLoop fi (count - 1) rest

def listParts (fi : FileInfo) (bucket object uploadID : String) (partNumberMarker maxParts : Int) : ListPartsInfo :=
  let result : ListPartsInfo := { bucket, object, uploadID, maxParts, partNumberMarker, userDefined := fi.metadata }
  if fi.parts.length = 0 ∨ maxParts = 0 then result
  else
    let maxParts := if maxParts > maxPartsList then maxPartsList else maxParts
    let parts := after fi.parts partNumberMarker
    let listed := listLoop fi maxParts parts
    if parts.length > listed.length then
      { result with
        parts := listed
        isTruncated := true
        nextPartNumberMarker := (listed.getLast?.map PartInfo.partNumber).getD 0 }
    else { result with parts := listed }

/-- `ListObjectParts`. The drives are read twice, to find the upload and then for its metadata. The part list
of the request is not used. -/
def listObjectParts {n : Nat} (env : Env) (req : Request) (bucket object uploadID : String)
    (checked reads : Fin n → Except Error FileInfo) (partNumberMarker maxParts : Int) : Except Error ListPartsInfo :=
  match checkUploadIDExists env req checked with
  | some e => .error e
  | none =>
    match electMetadata env req reads with
    | .error e => .error e
    | .ok elected => .ok (listParts elected.fi bucket object uploadID partNumberMarker maxParts)

theorem listLoop_eq (fi : FileInfo) {count : Int} (hcount : 1 ≤ count) (parts : List ObjectPartInfo) :
    listLoop fi count parts = (parts.take count.toNat).map (partInfo fi) := by
  induction parts generalizing count with
  | nil => simp [listLoop]
  | cons part rest ih =>
    obtain ⟨k, rfl⟩ : ∃ k : Nat, count = k + 1 := ⟨(count - 1).toNat, by omega⟩
    rw [show ((k : Int) + 1).toNat = k + 1 by omega, take_succ_cons, map_cons, listLoop]
    split_ifs with hend
    · obtain rfl : k = 0 := by omega
      rfl
    · rw [ih (by omega)]
      simp

def pageSize (maxParts : Int) : Nat := (min maxParts maxPartsList).toNat

theorem pageSize_pos {maxParts : Int} (h : 1 ≤ maxParts) : 1 ≤ pageSize maxParts := by
  unfold pageSize maxPartsList
  omega

theorem listParts_eq (fi : FileInfo) (bucket object uploadID : String) (marker : Int) {maxParts : Int}
    (h : 1 ≤ maxParts) :
    let result := listParts fi bucket object uploadID marker maxParts
    result.parts = ((after fi.parts marker).take (pageSize maxParts)).map (partInfo fi) ∧
      result.isTruncated = decide (pageSize maxParts < (after fi.parts marker).length) ∧
      (result.isTruncated = true →
        result.nextPartNumberMarker = (result.parts.getLast?.map PartInfo.partNumber).getD 0) := by
  intro result
  by_cases hnil : fi.parts = []
  · have hafter : after fi.parts marker = [] := by
      rw [hnil]
      rfl
    have hresult : result = ⟨bucket, object, uploadID, marker, 0, maxParts, false, [], fi.metadata⟩ := by
      simp only [result, listParts, hnil, length_nil, true_or, if_true]
    rw [hafter, hresult]
    simp
  · have hsize : (if maxParts > maxPartsList then maxPartsList else maxParts).toNat = pageSize maxParts := by
      unfold pageSize
      split_ifs <;> omega
    have hcount : 1 ≤ if maxParts > maxPartsList then maxPartsList else maxParts := by
      unfold maxPartsList
      split_ifs <;> omega
    have hloop := listLoop_eq fi hcount (after fi.parts marker)
    rw [hsize] at hloop
    have hskip : ¬ (fi.parts.length = 0 ∨ maxParts = 0) := by
      rw [length_eq_zero_iff]
      exact fun h0 => h0.elim hnil (by omega)
    simp only [result, listParts, if_neg hskip, hloop, length_map, length_take]
    split_ifs with hmore
    · exact ⟨rfl, (decide_eq_true (by omega)).symm, fun _ => rfl⟩
    · exact ⟨rfl, (decide_eq_false (by omega)).symm, fun hfalse => by cases hfalse⟩

theorem listObjectParts_eq {n : Nat} {env : Env} {req : Request} {checked reads : Fin n → Except Error FileInfo}
    {elected : Elected n} (hcheck : checkUploadIDExists env req checked = none)
    (helect : electMetadata env req reads = .ok elected) (bucket object uploadID : String) (marker maxParts : Int) :
    listObjectParts env req bucket object uploadID checked reads marker maxParts =
      .ok (listParts elected.fi bucket object uploadID marker maxParts) := by
  unfold listObjectParts
  rw [hcheck, helect]

/-! ## The page of a marker -/

def greater (parts : List ObjectPartInfo) (marker : Int) : List ObjectPartInfo :=
  parts.filter fun part => marker < part.number

/-- The page that a marker should give. -/
structure IsPage (fi : FileInfo) (marker maxParts : Int) (result : ListPartsInfo) : Prop where
  ascending : result.parts.Pairwise fun a b => a.partNumber < b.partNumber
  parts : result.parts = ((greater fi.parts marker).take (min maxParts maxPartsList).toNat).map (partInfo fi)
  isTruncated : result.isTruncated = true ↔ min maxParts maxPartsList < (greater fi.parts marker).length

theorem after_of_mem {parts : List ObjectPartInfo} (hasc : Ascending parts) {marker : Int}
    (h : marker ∈ numbers parts) : after parts marker = greater parts marker := by
  unfold after
  cases hi : objectPartIndex parts marker with
  | none => exact absurd h (objectPartIndex_eq_none.mp hi)
  | some i =>
    obtain ⟨part, hparts, rfl⟩ := objectPartIndex_eq_some hi
    exact (filter_lt_of_append ObjectPartInfo.number hasc hparts).symm

theorem after_of_notMem {parts : List ObjectPartInfo} {marker : Int} (h : marker ∉ numbers parts) :
    after parts marker = parts := by
  unfold after
  rw [objectPartIndex_eq_none.mpr h]

theorem ascending_after {parts : List ObjectPartInfo} (hasc : Ascending parts) (marker : Int) :
    Ascending (after parts marker) := by
  by_cases h : marker ∈ numbers parts
  · rw [after_of_mem hasc h]
    exact hasc.filter _
  · rwa [after_of_notMem h]

theorem numbers_after {parts : List ObjectPartInfo} (hasc : Ascending parts) (marker : Int) :
    numbers (after parts marker) =
      if marker ∈ numbers parts then (numbers parts).filter (marker < ·) else numbers parts := by
  split_ifs with h
  · rw [after_of_mem hasc h, numbers, numbers, filter_map]
    rfl
  · rw [after_of_notMem h]

theorem isPage_of_after_eq {fi : FileInfo} (hasc : Ascending fi.parts) (bucket object uploadID : String)
    {marker maxParts : Int} (hmax : 1 ≤ maxParts) (h : after fi.parts marker = greater fi.parts marker) :
    IsPage fi marker maxParts (listParts fi bucket object uploadID marker maxParts) := by
  obtain ⟨hparts, htruncated, -⟩ := listParts_eq fi bucket object uploadID marker hmax
  refine ⟨?_, ?_, ?_⟩
  · rw [hparts, pairwise_map]
    exact (ascending_after hasc marker).sublist (take_sublist _ _)
  · rw [hparts, h]
    rfl
  · rw [htruncated, h, decide_eq_true_iff, pageSize]
    unfold maxPartsList
    omega

/-- A page is right exactly if the marker is the number of a part or less than all numbers. -/
theorem isPage_iff {fi : FileInfo} (hasc : Ascending fi.parts) (bucket object uploadID : String)
    {marker maxParts : Int} (hmax : 1 ≤ maxParts) :
    IsPage fi marker maxParts (listParts fi bucket object uploadID marker maxParts) ↔
      marker ∈ numbers fi.parts ∨ ∀ part ∈ fi.parts, marker < part.number := by
  constructor
  · intro hpage
    by_cases hmem : marker ∈ numbers fi.parts
    · exact Or.inl hmem
    right
    -- The first part of all is on the page.
    cases hparts : fi.parts with
    | nil => exact fun part hpart => absurd hpart not_mem_nil
    | cons first rest =>
      have hlisted := (listParts_eq fi bucket object uploadID marker hmax).1
      rw [hpage.parts, after_of_notMem hmem] at hlisted
      obtain ⟨k, hk⟩ : ∃ k, pageSize maxParts = k + 1 := ⟨pageSize maxParts - 1, by
        have := pageSize_pos hmax
        omega⟩
      have hfirst : partInfo fi first ∈
          ((greater fi.parts marker).take (min maxParts maxPartsList).toNat).map (partInfo fi) := by
        rw [hlisted, hparts, hk, take_succ_cons, map_cons]
        exact mem_cons_self
      obtain ⟨part, hpart, heq⟩ := mem_map.mp hfirst
      have hgt : marker < part.number := by
        simpa using (mem_filter.mp (mem_of_mem_take hpart)).2
      have hnumber : part.number = first.number := congrArg PartInfo.partNumber heq
      rw [hparts] at hasc
      rintro q (_ | ⟨_, hq⟩)
      · omega
      · have := rel_of_pairwise_cons hasc hq
        omega
  · intro h
    apply isPage_of_after_eq hasc bucket object uploadID hmax
    rcases h with hmem | hall
    · exact after_of_mem hasc hmem
    · have hnot : marker ∉ numbers fi.parts := by
        intro hmem
        obtain ⟨part, hpart, heq⟩ := mem_map.mp hmem
        have := hall part hpart
        omega
      rw [after_of_notMem hnot]
      exact (filter_eq_self.mpr fun part hpart => by simpa using hall part hpart).symm

/-! ## Following the markers -/

/-- Calls of `ListObjectParts` one after the other. Every call finds the upload; between two calls, parts that
exist are uploaded again. -/
structure Session (n : Nat) where
  env : Env
  req : Nat → Request
  checked : Nat → Fin n → Except Error FileInfo
  reads : Nat → Fin n → Except Error FileInfo
  elected : Nat → Elected n
  uploads : List ObjectPartInfo
  reuploads : Nat → List ObjectPartInfo
  drives : 2 ≤ n
  deleted : ∀ i d m, reads i d = .ok m → m.deleted = false
  found : ∀ i, checkUploadIDExists env (req i) (checked i) = none
  elects : ∀ i, electMetadata env (req i) (reads i) = .ok (elected i)
  first : (elected 0).fi.parts = uploads.foldl addObjectPart []
  next : ∀ i, (elected (i + 1)).fi.parts = (reuploads i).foldl addObjectPart (elected i).fi.parts
  known : ∀ i, ∀ part ∈ reuploads i, part.number ∈ numbers (elected i).fi.parts

namespace Session

variable {n : Nat} (S : Session n) (bucket object uploadID : String)

def parts (i : Nat) : List ObjectPartInfo := (S.elected i).fi.parts

def list (i : Nat) (partNumberMarker maxParts : Int) : Except Error ListPartsInfo :=
  listObjectParts S.env (S.req i) bucket object uploadID (S.checked i) (S.reads i) partNumberMarker maxParts

/-- A call of a client that goes on with the marker that the page names. -/
def call (maxParts : Int) : Nat × Int → Option (Page (Nat × Int) PartInfo)
  | (i, partNumberMarker) =>
    match S.list bucket object uploadID i partNumberMarker maxParts with
    | .error _ => none
    | .ok result =>
      some ⟨result.parts, if result.isTruncated then some (i + 1, result.nextPartNumberMarker) else none⟩

theorem list_eq (i : Nat) (marker maxParts : Int) : S.list bucket object uploadID i marker maxParts =
      .ok (listParts (S.elected i).fi bucket object uploadID marker maxParts) :=
  listObjectParts_eq (S.found i) (S.elects i) bucket object uploadID marker maxParts

theorem ascending (i : Nat) : Ascending (S.parts i) := by
  induction i with
  | zero =>
    rw [parts, S.first]
    exact ascending_foldl List.Pairwise.nil S.uploads
  | succ i ih =>
    rw [parts, S.next i]
    exact ascending_foldl ih (S.reuploads i)

theorem numbers_eq (i : Nat) : numbers (S.parts i) = numbers (S.parts 0) := by
  induction i with
  | zero => rfl
  | succ i ih =>
    rw [← ih, parts, S.next i]
    exact numbers_foldl (S.known i)

/-- The metadata that is elected is valid, so the numbers begin at 1. -/
theorem zero_notMem (i : Nat) : 0 ∉ numbers (S.parts i) := by
  obtain ⟨⟨d, hread⟩, hvalid, -⟩ := electMetadata_spec S.drives (S.deleted i) (S.elects i)
  have hdeleted := S.deleted i d _ hread
  unfold FileInfo.isValid validStorageFileInfoData at hvalid
  have hall : (S.elected i).fi.parts.all validPart = true := by grind
  intro hmem
  obtain ⟨part, hpart, hzero⟩ := mem_map.mp hmem
  have hpart := all_eq_true.mp hall part hpart
  unfold validPart at hpart
  simp [hzero] at hpart

/-- The numbers that a client still has to see. -/
def rest : Nat × Int → List Int
  | (i, marker) => numbers (after (S.parts i) marker)

theorem after_getLast {parts : List ObjectPartInfo} (hasc : Ascending parts) {marker : Int} {k : Nat}
    {part : ObjectPartInfo} (hlast : ((after parts marker).take k).getLast? = some part) :
    after parts part.number = (after parts marker).drop k := by
  obtain ⟨front, hfront⟩ := List.getLast?_eq_some_iff.mp hlast
  have hmem : part ∈ after parts marker := by
    apply mem_of_mem_take (i := k)
    rw [hfront]
    exact mem_append_right front mem_cons_self
  obtain ⟨before, hbefore⟩ : ∃ before, parts = before ++ after parts marker := by
    unfold after
    split
    · exact ⟨_, (take_append_drop _ parts).symm⟩
    · exact ⟨[], rfl⟩
  have hparts : parts = (before ++ front) ++ part :: (after parts marker).drop k := by
    calc parts = before ++ ((after parts marker).take k ++ (after parts marker).drop k) := by
          rw [take_append_drop, ← hbefore]
      _ = _ := by rw [hfront]; simp
  have hnumber : part.number ∈ numbers parts := mem_map_of_mem (hbefore ▸ mem_append_right _ hmem)
  rw [after_of_mem hasc hnumber]
  exact filter_lt_of_append ObjectPartInfo.number hasc hparts

theorem splits {maxParts : Int} (hmax : 1 ≤ maxParts) (m : Nat × Int) :
    ∃ page, S.call bucket object uploadID maxParts m = some page ∧
      page.Splits PartInfo.partNumber (fun _ => True) S.rest m := by
  obtain ⟨i, marker⟩ := m
  obtain ⟨hparts, htruncated, hnext⟩ := listParts_eq (S.elected i).fi bucket object uploadID marker hmax
  refine ⟨_, by simp only [call, list_eq]; rfl, ?_⟩
  have hlisted : (listParts (S.elected i).fi bucket object uploadID marker maxParts).parts.map
      PartInfo.partNumber = numbers ((after (S.parts i) marker).take (pageSize maxParts)) := by
    rw [hparts, map_map]
    rfl
  unfold Page.Splits
  rw [hlisted]
  by_cases hmore : pageSize maxParts < (after (S.parts i) marker).length
  · have htrue := htruncated.trans (decide_eq_true hmore)
    rw [if_pos htrue]
    have hpos := pageSize_pos hmax
    obtain ⟨part, hlast⟩ : ∃ part, ((after (S.parts i) marker).take (pageSize maxParts)).getLast? = some part :=
      Option.ne_none_iff_exists'.mp (by
        rw [ne_eq, List.getLast?_eq_none_iff, ← length_eq_zero_iff, length_take]
        omega)
    have hmarker : (listParts (S.elected i).fi bucket object uploadID marker maxParts).nextPartNumberMarker =
        part.number := by
      rw [hnext htrue, hparts, List.getLast?_map]
      show (((((after (S.parts i) marker).take _).getLast?).map _).map _).getD 0 = _
      rw [hlast]
      rfl
    have hleft : S.rest (i + 1, part.number) = numbers ((after (S.parts i) marker).drop (pageSize maxParts)) := by
      rw [← after_getLast (S.ascending i) hlast, rest, numbers_after (S.ascending (i + 1)),
        numbers_after (S.ascending i), S.numbers_eq (i + 1), S.numbers_eq i]
    dsimp only
    rw [hmarker, hleft]
    refine ⟨trivial, ?_, ?_⟩
    · rw [rest, numbers, numbers, numbers, ← map_append, take_append_drop]
    · rw [rest, numbers, numbers, length_map, length_map, length_drop]
      omega
  · have hfalse := htruncated.trans (decide_eq_false hmore)
    rw [if_neg (by rw [hfalse]; exact Bool.false_ne_true)]
    rw [rest, take_of_length_le (not_lt.mp hmore)]

end Session

/-- In a session, a page is right exactly if its marker is the number of a part or less than the numbers of all
parts. Following the markers from 0 gives every part once. -/
theorem listObjectParts_pages_iff {n : Nat} (S : Session n) (bucket object uploadID : String) :
    (∀ i marker maxParts, 1 ≤ maxParts → ((∃ result, S.list bucket object uploadID i marker maxParts = .ok result ∧
          IsPage (S.elected i).fi marker maxParts result) ↔
        marker ∈ numbers (S.parts i) ∨ ∀ part ∈ S.parts i, marker < part.number)) ∧
      ∀ maxParts, 1 ≤ maxParts → ∃ fuel items,
        follow (S.call bucket object uploadID maxParts) fuel (0, 0) = some items ∧
          items.map PartInfo.partNumber = numbers (S.parts 0) := by
  refine ⟨fun i marker maxParts hmax => ?_, fun maxParts hmax => ?_⟩
  · rw [S.list_eq]
    simp only [Except.ok.injEq, exists_eq_left']
    exact isPage_iff (S.ascending i) bucket object uploadID hmax
  · obtain ⟨items, hitems, hall⟩ := follow_eq (fun m _ => S.splits bucket object uploadID hmax m)
      (m := (0, 0)) trivial (Nat.lt_succ_self _)
    refine ⟨_, items, hitems, hall.trans ?_⟩
    rw [Session.rest, after_of_notMem (S.zero_notMem 0)]

section Examples

/-- Both drives answer with the metadata of the upload of two parts. -/
def twoPartsReads (d : Fin 2) : Except Error FileInfo := .ok (twoPartsMeta (d + 1))

def twoPartsElected : Elected 2 :=
  match electMetadata plainEnv (plainCall []) twoPartsReads with
  | .ok elected => elected
  | .error _ => ⟨{}, fun _ => false, 0⟩

theorem twoPartsReads_found : checkUploadIDExists plainEnv (plainCall []) twoPartsReads = none := by
  decide +kernel

theorem twoPartsReads_elects : electMetadata plainEnv (plainCall []) twoPartsReads = .ok twoPartsElected := by
  have hok : (electMetadata plainEnv (plainCall []) twoPartsReads).isOk = true := by decide +kernel
  unfold twoPartsElected
  split
  · next elected helected => exact helected
  · next e he =>
    rw [he] at hok
    cases hok

theorem twoPartsElected_parts : twoPartsElected.fi.parts = [⟨"a", 1, 10, 10⟩, ⟨"b", 2, 10, 10⟩] := by
  decide +kernel

theorem twoPartsElected_uploaded : twoPartsElected.fi.parts =
    [⟨"b", 2, 10, 10⟩, ⟨"a", 1, 10, 10⟩].foldl addObjectPart [] :=
  twoPartsElected_parts.trans (by decide)

theorem twoPartsElected_reuploaded : twoPartsElected.fi.parts =
    [⟨"a", 1, 10, 10⟩].foldl addObjectPart twoPartsElected.fi.parts := by
  decide

theorem twoPartsElected_known :
    ∀ part ∈ [(⟨"a", 1, 10, 10⟩ : ObjectPartInfo)], part.number ∈ numbers twoPartsElected.fi.parts := by
  decide

theorem twoPartsReads_deleted (d : Fin 2) (m : FileInfo) (h : twoPartsReads d = .ok m) : m.deleted = false := by
  obtain rfl := Except.ok.inj h
  rfl

def twoPartsSession : Session 2 where
  env := plainEnv
  req _ := plainCall []
  checked _ := twoPartsReads
  reads _ := twoPartsReads
  elected _ := twoPartsElected
  uploads := [⟨"b", 2, 10, 10⟩, ⟨"a", 1, 10, 10⟩]
  reuploads _ := [⟨"a", 1, 10, 10⟩]
  drives := le_refl 2
  deleted _ := twoPartsReads_deleted
  found _ := twoPartsReads_found
  elects _ := twoPartsReads_elects
  first := twoPartsElected_uploaded
  next _ := twoPartsElected_reuploaded
  known _ := twoPartsElected_known

/-- Page by page, with one part on each. -/
theorem listObjectParts_pages_two : (∃ result, twoPartsSession.list "bucket" "object" "id" 0 1 1 = .ok result ∧
        IsPage (twoPartsSession.elected 0).fi 1 1 result) ∧
      ∃ fuel items, follow (twoPartsSession.call "bucket" "object" "id" 1) fuel (0, 0) = some items ∧
        items.map PartInfo.partNumber = [1, 2] := by
  obtain ⟨hpage, hfollow⟩ := listObjectParts_pages_iff twoPartsSession "bucket" "object" "id"
  refine ⟨(hpage 0 1 1 (by decide)).mpr (Or.inl ?_), ?_⟩
  · decide
  · exact hfollow 1 (by decide)

/-- There is no part 3: the page after the marker 3 lists parts 1 and 2 again. -/
theorem listObjectParts_repeats : ∃ result, twoPartsSession.list "bucket" "object" "id" 0 3 1000 = .ok result ∧
      result.parts.map PartInfo.partNumber = [1, 2] ∧ result.isTruncated = false ∧
      greater (twoPartsSession.parts 0) 3 = [] ∧ ¬ IsPage (twoPartsSession.elected 0).fi 3 1000 result := by
  have hgreater : greater (twoPartsSession.parts 0) 3 = [] := by
    show greater twoPartsElected.fi.parts 3 = []
    decide
  have hlisted : (listParts twoPartsElected.fi "bucket" "object" "id" 3 1000).parts.map PartInfo.partNumber =
      [1, 2] := by decide +kernel
  refine ⟨_, twoPartsSession.list_eq "bucket" "object" "id" 0 3 1000, hlisted, by decide +kernel, hgreater,
    fun hpage => ?_⟩
  have hnil := hpage.parts
  have hlisted' : (listParts (twoPartsSession.elected 0).fi "bucket" "object" "id" 3 1000).parts.map
      PartInfo.partNumber = [1, 2] := hlisted
  rw [hnil] at hlisted'
  cases hlisted'

end Examples

end Otterio.Multipart
