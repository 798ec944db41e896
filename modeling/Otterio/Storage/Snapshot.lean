import Otterio.Lib.Frame
import Otterio.Lib.Tally
import Otterio.Storage.Dangling

/-!
# Selecting one snapshot at read quorum

`findFileInfoInQuorum` picks, among the entries with the elected time and directory, one that at
least `quorum` drives agree on (`cmd/erasure-metadata.go`). It compares entries by the hash of a text
and counts the hashes in a map, over which it ranges in any order.

* `SnapshotKey`: the fields of an entry that the text is made of; `SnapshotKey.text_inj` says that
  the text determines them.
-/

namespace Otterio

open Err List

/-! ## Local data of a transitioned version -/

def amzRestore : String := "x-amz-restore"

namespace Err

def errRestoreHDRMissing : Error := .other 1

def errRestoreHDRMalformed : Error := .other 2

end Err

/-- The library functions the selection rests on: SHA-256 of the UTF-8 bytes of a text, and
`time.Parse` with the layout `http.TimeFormat`. -/
structure Platform where
  sha256 : List Char → List UInt8
  length_sha256 : ∀ s, (sha256 s).length = 32
  parseHTTPTime : String → Except Error Time

/-- `parseRestoreHeaderFromMeta`: whether a restore is ongoing, and its expiry. -/
def parseRestoreHeaderFromMeta (pl : Platform) (metadata : GoMap String String) : Except Error (Bool × Time) :=
  match metadata.get? amzRestore with
  | none => .error errRestoreHDRMissing
  | some restoreHdr =>
    match splitN2 ',' restoreHdr with
    | [status, expires] =>
      match splitN2 '=' status, splitN2 '=' expires with
      | [_, ongoing], [_, expiry] => (pl.parseHTTPTime expiry).map fun t => (ongoing == "true", t)
      | _, _ => .error errRestoreHDRMalformed
    | rslc =>
      if rslc.map trimSpace == ["ongoing-request=true"] then .ok (true, Time.zero)
      else .error errRestoreHDRMalformed

/-- `transitionHasLocalData`, at the time `now`. -/
def transitionHasLocalData (pl : Platform) (now : Time) (fi : FileInfo) : Bool :=
  if fi.transitionStatus != transitionComplete then true
  else
    match parseRestoreHeaderFromMeta pl fi.metadata with
    | .error _ => false
    | .ok (ongoing, expiry) => !ongoing && expiry != Time.zero && now < expiry

/-! ## The selection -/

/-- An entry, with the time `UTCNow` returns when the loop comes to it. -/
structure Examined where
  fi : FileInfo
  now : Time

def hexEncode (bytes : List UInt8) : String :=
  String.ofList (bytes.flatMap fun b => [(b.toNat / 16).digitChar, (b.toNat % 16).digitChar])

/-- `json.Marshal` of a string map. It does not fail. -/
def jsonMarshal : GoMap String String → List Char
  | none => "null".toList
  | some t => jsonObject t.toList

/-- The text an entry is hashed by. -/
def snapshotText (pl : Platform) (e : Examined) : List Char :=
  e.fi.parts.flatMap (fun part => "part.".toList ++ decimal part.number) ++ (bracketed e.fi.erasure.distribution ++
      ((if transitionHasLocalData pl e.now e.fi then decimal e.fi.data.length else []) ++
        (e.fi.transitionStatus.toList ++ '\x00' :: jsonMarshal e.fi.metadata)))

/-- The filter of `findFileInfoInQuorum`. -/
def eligible (modTime : Time) (dataDir : String) (e : Examined) : Bool :=
  e.fi.isValid && e.fi.modTime == modTime && e.fi.dataDir == dataDir

/-- One element of `metaHashes`: empty for an entry that is filtered out. -/
def metaHash (pl : Platform) (modTime : Time) (dataDir : String) (e : Examined) : String :=
  if eligible modTime dataDir e then hexEncode (pl.sha256 (snapshotText pl e)) else ""

def findFileInfoInQuorum (pl : Platform) (o : IterOrder (String × Nat)) (metaArr : List Examined)
    (modTime : Time) (dataDir : String) (quorum : Nat) : Except Error Examined :=
  let metaHashes := metaArr.map (metaHash pl modTime dataDir)
  let metaHashCountMap := tally (metaHashes.filter (· != ""))
  let (maxCount, maxHash) := electBy (fun _ _ => false) id (o.order metaHashCountMap) (0, "")
  if maxCount < quorum then .error errErasureReadQuorum
  else
    match metaArr.find? fun e => metaHash pl modTime dataDir e == maxHash with
    | some e => .ok e
    | none => .error errErasureReadQuorum

/-! ## What the text determines -/

/-- The fields that two entries of one snapshot have in common. -/
structure SnapshotKey where
  partNumbers : List Int
  distribution : List Int
  /-- The length of the inline data, when the data is local. -/
  inlineLength : Option Nat
  transitionStatus : String
  metadata : GoMap String String

instance : DecidableEq (GoMap String String)
  | none, none => .isTrue rfl
  | none, some _ => .isFalse nofun
  | some _, none => .isFalse nofun
  | some t, some t' => decidable_of_iff (t.toList = t'.toList) (by
      rw [Std.ExtTreeMap.toList_inj, Option.some.injEq])

deriving instance DecidableEq for SnapshotKey

def Examined.key (pl : Platform) (e : Examined) : SnapshotKey where
  partNumbers := e.fi.parts.map ObjectPartInfo.number
  distribution := e.fi.erasure.distribution
  inlineLength := if transitionHasLocalData pl e.now e.fi then some e.fi.data.length else none
  transitionStatus := e.fi.transitionStatus
  metadata := e.fi.metadata

def inlineText : Option Nat → List Char
  | some n => decimal n
  | none => []

def SnapshotKey.text (k : SnapshotKey) : List Char :=
  k.partNumbers.flatMap (fun n => "part.".toList ++ decimal n) ++ (bracketed k.distribution ++
      (inlineText k.inlineLength ++ (k.transitionStatus.toList ++ '\x00' :: jsonMarshal k.metadata)))

theorem snapshotText_eq (pl : Platform) (e : Examined) : snapshotText pl e = (e.key pl).text := by
  unfold snapshotText SnapshotKey.text Examined.key inlineText
  rw [flatMap_map]
  cases transitionHasLocalData pl e.now e.fi <;> rfl

variable {a : Option Nat}

theorem inlineText_inj {b : Option Nat} (h : inlineText a = inlineText b) : a = b := by
  cases a with
  | none => cases b with
    | none => rfl
    | some n => exact absurd h.symm (decimal_ne_nil n)
  | some m => cases b with
    | none => exact absurd h (decimal_ne_nil m)
    | some n => exact congrArg some (Int.ofNat.inj (decimal_inj h))

theorem isDigit_of_mem_inlineText {c : Char} (h : c ∈ inlineText a) : c.isDigit = true := by
  cases a with
  | none => cases h
  | some n =>
    rw [inlineText, decimal_natCast] at h
    exact isDigit_of_mem_toDigits h

theorem jsonMarshal_inj {a b : GoMap String String} (h : jsonMarshal a = jsonMarshal b) : a = b := by
  cases a with
  | none => cases b with
    | none => rfl
    | some t => simp [jsonMarshal, jsonObject] at h
  | some t => cases b with
    | none => simp [jsonMarshal, jsonObject] at h
    | some t' => rw [Std.ExtTreeMap.toList_inj.mp (jsonObject_inj h)]

theorem not_mem_jsonMarshal (a : GoMap String String) : '\x00' ∉ jsonMarshal a := by
  cases a with
  | none => decide
  | some t =>
    intro h
    exact absurd (toNat_ge_of_mem_jsonObject h) (by decide)

/-- The status does not begin with a digit, so that it is told from the inline length before it. -/
def SnapshotKey.Framed (k : SnapshotKey) : Prop := ∀ c ∈ k.transitionStatus.toList.head?, c.isDigit = false

instance (k : SnapshotKey) : Decidable k.Framed :=
  inferInstanceAs (Decidable (∀ c ∈ k.transitionStatus.toList.head?, _))

private theorem partTexts_append_inj {l m s t : List _} (hs : s.head? = some '[') (ht : t.head? = some '[')
    (h : l.flatMap (fun n => "part.".toList ++ decimal n) ++ s =
      m.flatMap (fun n => "part.".toList ++ decimal n) ++ t) : l = m ∧ s = t := by
  refine flatMap_append_inj (P := fun s => s.head? = some 'p' ∨ s.head? = some '[')
    (S := fun s => s.head? = some '[') (by simp) (fun _ => .inr) ?_ (by simp) hs ht h
  intro x y s t hs ht h
  have hstop : ∀ {s : List Char}, s.head? = some 'p' ∨ s.head? = some '[' → ∀ c ∈ s.head?, ¬ isNumeral c := by
    rintro s (hs | hs) c hc <;> rw [hs] at hc <;> cases hc <;> decide
  rw [append_assoc, append_assoc] at h
  exact decimal_append_inj (hstop hs) (hstop ht) (append_cancel_left h)

variable {k k' : SnapshotKey}

theorem SnapshotKey.text_inj (hk : k.Framed) (hk' : k'.Framed)
    (h : k.text = k'.text) : k = k' := by
  have hhead : ∀ {k : SnapshotKey}, k.Framed →
      ∀ c ∈ (k.transitionStatus.toList ++ '\x00' :: jsonMarshal k.metadata).head?, ¬ c.isDigit = true := by
    intro k hk c hc
    cases hstatus : k.transitionStatus.toList with
    | nil =>
      rw [hstatus, nil_append, List.head?_cons, Option.mem_some_iff] at hc
      rw [← hc]
      decide
    | cons d l =>
      rw [hstatus, cons_append, List.head?_cons, Option.mem_some_iff] at hc
      rw [← hc, hk d (by simp [hstatus])]
      decide
  obtain ⟨hparts, h⟩ := partTexts_append_inj rfl rfl h
  obtain ⟨hdist, h⟩ := bracketed_append_inj h
  obtain ⟨hinline, h⟩ := append_inj_of_all (fun _ => isDigit_of_mem_inlineText)
    (fun _ => isDigit_of_mem_inlineText) (hhead hk) (hhead hk') h
  obtain ⟨hstatus, h⟩ := append_cons_inj_of_not_mem (not_mem_jsonMarshal _) (not_mem_jsonMarshal _) h
  obtain ⟨parts, dist, inline, status, metadata⟩ := k
  simp only at hparts hdist hinline hstatus h
  rw [hparts, hdist, inlineText_inj hinline, String.toList_inj.mp hstatus, jsonMarshal_inj h]

theorem hexEncode_inj {a b : List UInt8} (h : hexEncode a = hexEncode b) : a = b := by
  have htext := congrArg String.toList h
  rw [hexEncode, hexEncode, String.toList_ofList, String.toList_ofList] at htext
  refine (flatMap_append_inj
    (e := fun b : UInt8 => [(b.toNat / 16).digitChar, (b.toNat % 16).digitChar])
    (P := fun _ => True) (S := (· = [])) (fun _ _ => trivial) (fun _ _ => trivial)
    (fun x y s t _ _ h => ?_) (by simp) rfl rfl (by simpa using htext)).1
  simp only [cons_append, nil_append, List.cons.injEq] at h
  obtain ⟨hhigh, hlow, hst⟩ := h
  have hx := x.toNat_lt
  have hy := y.toNat_lt
  have hhigh := digitChar_inj (by omega) (by omega) hhigh
  have hlow := digitChar_inj (by omega) (by omega) hlow
  exact ⟨UInt8.toNat_inj.mp (by omega), hst⟩

/-! ## What is selected -/

section

variable (pl : Platform) (metaArr : List Examined) (modTime : Time) (dataDir : String)

def classSize (k : SnapshotKey) : Nat :=
  metaArr.countP fun e => eligible modTime dataDir e && decide (e.key pl = k)

/-- The hashes tell the keys apart: SHA-256 has no collision among the texts, and no transition
status begins with a digit. -/
structure Distinguishable : Prop where
  framed : ∀ e ∈ metaArr, eligible modTime dataDir e = true → (e.key pl).Framed
  collisionFree : ∀ e ∈ metaArr, ∀ e' ∈ metaArr, eligible modTime dataDir e = true →
    eligible modTime dataDir e' = true →
    pl.sha256 (snapshotText pl e) = pl.sha256 (snapshotText pl e') →
    snapshotText pl e = snapshotText pl e'

variable {pl metaArr modTime dataDir}

theorem metaHash_eq_empty_iff (pl : Platform) (e : Examined) :
    metaHash pl modTime dataDir e = "" ↔ eligible modTime dataDir e = false := by
  unfold metaHash
  cases eligible modTime dataDir e with
  | false => simp
  | true =>
    simp only [↓reduceIte, Bool.true_eq_false, iff_false]
    intro h
    have hnil : pl.sha256 (snapshotText pl e) = [] := hexEncode_inj h
    have hlen := pl.length_sha256 (snapshotText pl e)
    rw [hnil] at hlen
    cases hlen

variable {e : Examined}

theorem metaHash_eq_iff (hd : Distinguishable pl metaArr modTime dataDir) {e' : Examined}
    (he : e ∈ metaArr) (he' : e' ∈ metaArr) (hel : eligible modTime dataDir e = true) :
    metaHash pl modTime dataDir e' = metaHash pl modTime dataDir e ↔
      eligible modTime dataDir e' = true ∧ e'.key pl = e.key pl := by
  constructor
  · intro h
    have hel' : eligible modTime dataDir e' = true := by
      by_contra hno
      have hempty := (metaHash_eq_empty_iff pl e').mpr (by simpa using hno)
      rw [h, metaHash_eq_empty_iff, hel] at hempty
      cases hempty
    unfold metaHash at h
    rw [if_pos hel, if_pos hel'] at h
    have htext := hd.collisionFree e' he' e he hel' hel (hexEncode_inj h)
    rw [snapshotText_eq, snapshotText_eq] at htext
    exact ⟨hel', SnapshotKey.text_inj (hd.framed e' he' hel') (hd.framed e he hel) htext⟩
  · rintro ⟨hel', hkey⟩
    unfold metaHash
    rw [if_pos hel, if_pos hel', snapshotText_eq, snapshotText_eq, hkey]

theorem count_metaHash (hd : Distinguishable pl metaArr modTime dataDir)
    (he : e ∈ metaArr) (hel : eligible modTime dataDir e = true) :
    ((metaArr.map (metaHash pl modTime dataDir)).filter (· != "")).count
      (metaHash pl modTime dataDir e) = classSize pl metaArr modTime dataDir (e.key pl) := by
  have hne : metaHash pl modTime dataDir e ≠ "" := by
    rw [Ne, metaHash_eq_empty_iff, hel]
    decide
  rw [count_filter (by simpa using hne), List.count, countP_map, classSize]
  refine countP_congr fun e' he' => ?_
  simpa using metaHash_eq_iff hd he he' hel

theorem exists_of_mem_metaHashes {x : String}
    (hx : x ∈ (metaArr.map (metaHash pl modTime dataDir)).filter (· != "")) :
    ∃ e ∈ metaArr, eligible modTime dataDir e = true ∧ metaHash pl modTime dataDir e = x := by
  obtain ⟨hmem, hne⟩ := mem_filter.mp hx
  obtain ⟨e, he, rfl⟩ := mem_map.mp hmem
  refine ⟨e, he, ?_, rfl⟩
  rw [bne_iff_ne, Ne, metaHash_eq_empty_iff, Bool.not_eq_false] at hne
  exact hne

theorem mem_metaHashes (pl : Platform) (he : e ∈ metaArr) (hel : eligible modTime dataDir e = true) :
    metaHash pl modTime dataDir e ∈ (metaArr.map (metaHash pl modTime dataDir)).filter (· != "") := by
  refine mem_filter.mpr ⟨mem_map_of_mem he, ?_⟩
  rw [bne_iff_ne, Ne, metaHash_eq_empty_iff, hel]
  decide

section

variable (hd : Distinguishable pl metaArr modTime dataDir) {quorum : Nat}
include hd

/-- What is returned once the hash of `e` is elected: an entry with the key of `e`. -/
theorem findFileInfoInQuorum_of_elected
    {o : IterOrder (String × Nat)} (he : e ∈ metaArr)
    (hel : eligible modTime dataDir e = true)
    (helect : electBy (fun _ _ => false) id (o.order (tally
      ((metaArr.map (metaHash pl modTime dataDir)).filter (· != "")))) (0, "") =
      (classSize pl metaArr modTime dataDir (e.key pl), metaHash pl modTime dataDir e))
    (hq : quorum ≤ classSize pl metaArr modTime dataDir (e.key pl)) :
    ∃ e' ∈ metaArr, eligible modTime dataDir e' = true ∧ e'.key pl = e.key pl ∧
      findFileInfoInQuorum pl o metaArr modTime dataDir quorum = .ok e' := by
  unfold findFileInfoInQuorum
  simp only [helect, if_neg (Nat.not_lt.mpr hq)]
  cases hfind : metaArr.find? fun e' => metaHash pl modTime dataDir e' == metaHash pl modTime dataDir e with
  | none => exact absurd (List.find?_eq_none.mp hfind e he) (by simp)
  | some e' =>
    have hmem := mem_of_find?_eq_some hfind
    have hhash : metaHash pl modTime dataDir e' = metaHash pl modTime dataDir e := by
      simpa using List.find?_some hfind
    obtain ⟨hel', hkey⟩ := (metaHash_eq_iff hd he hmem hel).mp hhash
    exact ⟨e', hmem, hel', hkey, rfl⟩

/-- In every order, the selection fails when no class reaches the quorum and returns a member of a
class that reaches it otherwise. -/
theorem findFileInfoInQuorum_spec
    (o : IterOrder (String × Nat)) (hq : 1 ≤ quorum) :
    (findFileInfoInQuorum pl o metaArr modTime dataDir quorum = .error errErasureReadQuorum ∧
      ∀ e ∈ metaArr, eligible modTime dataDir e = true → classSize pl metaArr modTime dataDir (e.key pl) < quorum) ∨
    ∃ e ∈ metaArr, eligible modTime dataDir e = true ∧ quorum ≤ classSize pl metaArr modTime dataDir (e.key pl) ∧
      findFileInfoInQuorum pl o metaArr modTime dataDir quorum = .ok e := by
  by_cases hnil : (metaArr.map (metaHash pl modTime dataDir)).filter (· != "") = []
  · left
    constructor
    · unfold findFileInfoInQuorum
      simp only [hnil, tally_nil, IterOrder.order_nil, electBy_nil, if_pos (show 0 < quorum from hq)]
    · intro e he hel
      have := mem_metaHashes pl he hel
      rw [hnil] at this
      cases this
  · obtain ⟨x, hx, helect⟩ := electBy_tally_mem (t := fun _ _ => false) (f := id) o hnil ""
    obtain ⟨e, he, hel, rfl⟩ := exists_of_mem_metaHashes hx
    rw [count_metaHash hd he hel] at helect
    by_cases hlt : classSize pl metaArr modTime dataDir (e.key pl) < quorum
    · left
      constructor
      · unfold findFileInfoInQuorum
        simp only [helect, if_pos hlt]
      · intro e' he' hel'
        have hge := electBy_count_ge (t := fun _ _ => false) (f := id)
          (o.mem_order.mpr (mem_tally_of_mem (mem_metaHashes pl he' hel'))) (0, "")
        rw [helect, count_metaHash hd he' hel'] at hge
        omega
    · right
      obtain ⟨e', he', hel', hkey, hfind⟩ := findFileInfoInQuorum_of_elected hd he hel helect (Nat.not_lt.mp hlt)
      exact ⟨e', he', hel', by rw [hkey]; exact Nat.not_lt.mp hlt, hfind⟩

/-- An order that elects the hash of an entry whose class is as large as any other. -/
theorem exists_order_selecting (he : e ∈ metaArr) (hel : eligible modTime dataDir e = true)
    (hmax : ∀ e' ∈ metaArr, eligible modTime dataDir e' = true → classSize pl metaArr modTime dataDir (e'.key pl) ≤
        classSize pl metaArr modTime dataDir (e.key pl))
    (hq : quorum ≤ classSize pl metaArr modTime dataDir (e.key pl)) :
    ∃ (o : IterOrder (String × Nat)) (e' : Examined), e'.key pl = e.key pl ∧
      findFileInfoInQuorum pl o metaArr modTime dataDir quorum = .ok e' := by
  have hcount := count_metaHash hd he hel
  have hin := mem_tally_of_mem (mem_metaHashes pl he hel)
  rw [hcount] at hin
  obtain ⟨o, l, horder, hl⟩ := IterOrder.exists_order_cons hin
  have helect : electBy (fun _ _ => false) id (o.order (tally
      ((metaArr.map (metaHash pl modTime dataDir)).filter (· != "")))) (0, "") =
      (classSize pl metaArr modTime dataDir (e.key pl), metaHash pl modTime dataDir e) := by
    rw [horder]
    refine electBy_first (tally_count_pos hin) (fun a ha => ?_) ""
    obtain ⟨hx, hc⟩ := mem_tally.mp (hl a ha)
    obtain ⟨e', he', hel', hhash⟩ := exists_of_mem_metaHashes hx
    rw [hc, ← hhash, count_metaHash hd he' hel']
    exact hmax e' he' hel'
  obtain ⟨e', -, -, hkey, hfind⟩ := findFileInfoInQuorum_of_elected hd he hel helect hq
  exact ⟨o, e', hkey, hfind⟩

end

/-! ## One snapshot -/

variable (pl metaArr modTime dataDir)

/-- Two outcomes that a caller cannot tell apart: the same error, or entries with the same key. -/
def SameSnapshot : Except Error Examined → Except Error Examined → Prop
  | .ok e, .ok e' => e.key pl = e'.key pl
  | .error err, .error err' => err = err'
  | _, _ => False

/-- The outcome does not depend on the order of the map; it is an entry exactly when a class
reaches the quorum, and then a member of such a class. -/
structure SelectsOneSnapshot (quorum : Nat) : Prop where
  deterministic : ∀ o o', SameSnapshot pl (findFileInfoInQuorum pl o metaArr modTime dataDir quorum)
    (findFileInfoInQuorum pl o' metaArr modTime dataDir quorum)
  succeeds_iff : ∀ o, (∃ e, findFileInfoInQuorum pl o metaArr modTime dataDir quorum = .ok e) ↔
    ∃ k, quorum ≤ classSize pl metaArr modTime dataDir k
  member : ∀ o e, findFileInfoInQuorum pl o metaArr modTime dataDir quorum = .ok e →
    e ∈ metaArr ∧ eligible modTime dataDir e = true ∧ quorum ≤ classSize pl metaArr modTime dataDir (e.key pl)

/-- At most one class reaches the quorum. -/
def OneClass (quorum : Nat) : Prop :=
  ∀ k k', quorum ≤ classSize pl metaArr modTime dataDir k → quorum ≤ classSize pl metaArr modTime dataDir k' → k = k'

variable {pl metaArr modTime dataDir}

theorem exists_of_classSize_pos (h : 0 < classSize pl metaArr modTime dataDir k) :
    ∃ e ∈ metaArr, eligible modTime dataDir e = true ∧ e.key pl = k := by
  obtain ⟨e, he, hp⟩ := countP_pos_iff.mp h
  exact ⟨e, he, by simpa using hp⟩

theorem classSize_add_le (pl : Platform) (metaArr : List Examined) (modTime : Time)
    (dataDir : String) (hne : k ≠ k') :
    classSize pl metaArr modTime dataDir k + classSize pl metaArr modTime dataDir k' ≤ metaArr.length := by
  unfold classSize
  induction metaArr with
  | nil => simp
  | cons e l ih =>
    grind

variable {quorum : Nat}

theorem selectsOneSnapshot_of_oneClass (hq : 1 ≤ quorum)
    (hd : Distinguishable pl metaArr modTime dataDir) (h : OneClass pl metaArr modTime dataDir quorum) :
    SelectsOneSnapshot pl metaArr modTime dataDir quorum where
  deterministic o o' := by
    obtain ⟨herr, hnone⟩ | ⟨e, he, hel, hsize, hfind⟩ := findFileInfoInQuorum_spec hd o hq
    · obtain ⟨herr', -⟩ | ⟨e', he', hel', hsize', -⟩ := findFileInfoInQuorum_spec hd o' hq
      · rw [herr, herr']
        rfl
      · have := hnone e' he' hel'
        omega
    · obtain ⟨-, hnone⟩ | ⟨e', he', hel', hsize', hfind'⟩ := findFileInfoInQuorum_spec hd o' hq
      · have := hnone e he hel
        omega
      · rw [hfind, hfind']
        exact h _ _ hsize hsize'
  succeeds_iff o := by
    obtain ⟨herr, hnone⟩ | ⟨e, he, hel, hsize, hfind⟩ := findFileInfoInQuorum_spec hd o hq
    · constructor
      · rintro ⟨e, hok⟩
        rw [herr] at hok
        cases hok
      · rintro ⟨k, hk⟩
        obtain ⟨e, he, hel, rfl⟩ := exists_of_classSize_pos (Nat.lt_of_lt_of_le hq hk)
        have := hnone e he hel
        omega
    · exact ⟨fun _ => ⟨_, hsize⟩, fun _ => ⟨e, hfind⟩⟩
  member o e hok := by
    obtain ⟨herr, -⟩ | ⟨e', he', hel', hsize', hfind⟩ := findFileInfoInQuorum_spec hd o hq
    · rw [herr] at hok
      cases hok
    · rw [hfind, Except.ok.injEq] at hok
      subst hok
      exact ⟨he', hel', hsize'⟩

/-- Two classes that reach half of the drives can each be elected. -/
theorem oneClass_of_deterministic (hq : 1 ≤ quorum)
    (hlen : metaArr.length ≤ 2 * quorum) (hd : Distinguishable pl metaArr modTime dataDir)
    (h : ∀ o o', SameSnapshot pl (findFileInfoInQuorum pl o metaArr modTime dataDir quorum)
      (findFileInfoInQuorum pl o' metaArr modTime dataDir quorum)) :
    OneClass pl metaArr modTime dataDir quorum := by
  -- A class that reaches half of the drives is as large as any other one.
  have hselect : ∀ k, quorum ≤ classSize pl metaArr modTime dataDir k →
      ∃ o e, e.key pl = k ∧ findFileInfoInQuorum pl o metaArr modTime dataDir quorum = .ok e := by
    intro k hk
    obtain ⟨e, he, hel, rfl⟩ := exists_of_classSize_pos (Nat.lt_of_lt_of_le hq hk)
    refine exists_order_selecting hd he hel (fun e' he' hel' => ?_) hk
    by_cases heq : e'.key pl = e.key pl
    · rw [heq]
    · have := classSize_add_le pl metaArr modTime dataDir heq
      omega
  intro k k' hk hk'
  obtain ⟨o, e, hkey, hfind⟩ := hselect k hk
  obtain ⟨o', e', hkey', hfind'⟩ := hselect k' hk'
  have hsame := h o o'
  rw [hfind, hfind'] at hsame
  exact hkey ▸ hkey' ▸ hsame

/-- **The read quorum selects one snapshot** on `N = d + p` drives exactly when, for `d = p`, no two
classes have `d` members each. -/
theorem selectsOneSnapshot_iff {d p : Nat} (hlen : metaArr.length = d + p) (hp : 1 ≤ p) (hpd : p ≤ d)
    (hd : Distinguishable pl metaArr modTime dataDir) :
    SelectsOneSnapshot pl metaArr modTime dataDir d ↔ (d = p → OneClass pl metaArr modTime dataDir d) := by
  constructor
  · intro h _
    exact oneClass_of_deterministic (by omega) (by omega) hd h.deterministic
  · intro h
    refine selectsOneSnapshot_of_oneClass (by omega) hd ?_
    by_cases heq : d = p
    · exact h heq
    · -- More data than parity blocks: two classes of `d` members do not fit.
      intro k k' hk hk'
      by_contra hne
      have := classSize_add_le pl metaArr modTime dataDir hne
      omega

end

/-! ## A half-applied metadata update -/

def taggedEntry (tags : String) : Examined where
  fi :=
    { volume := "bucket", name := "object", dataDir := "dir", modTime := 1, size := 1,
      metadata := some ((∅ : Std.ExtTreeMap String String compare).insert "x-amz-tagging" tags),
      erasure :=
        { algorithm := "ReedSolomon", dataBlocks := 2, parityBlocks := 2, blockSize := 1, index := 1,
          distribution := [1, 2, 3, 4] } }
  now := 2

theorem taggedEntry_key_inj {pl : Platform} {a b : String}
    (h : (taggedEntry a).key pl = (taggedEntry b).key pl) : a = b := by
  have htag := congrArg (fun k => k.metadata.getStr "x-amz-tagging") h
  simpa [taggedEntry, Examined.key, GoMap.getStr, GoMap.get?] using htag

/-- A stand-in for SHA-256 that tells apart texts of different lengths. -/
def lengthPlatform : Platform where
  sha256 s := List.replicate 32 (UInt8.ofNat s.length)
  length_sha256 _ := length_replicate
  parseHTTPTime _ := .error errRestoreHDRMalformed

private theorem sha256_taggedEntry_ne : lengthPlatform.sha256 (snapshotText lengthPlatform (taggedEntry "a=1")) ≠
      lengthPlatform.sha256 (snapshotText lengthPlatform (taggedEntry "a=22")) := by
  decide

/-- The stand-in tells the entries of the two examples apart. -/
theorem distinguishable_taggedEntry {metaArr : List Examined}
    (h : ∀ e ∈ metaArr, e = taggedEntry "a=1" ∨ e = taggedEntry "a=22") :
    Distinguishable lengthPlatform metaArr 1 "dir" := by
  constructor
  · intro e he _
    obtain rfl | rfl := h e he <;> exact nofun
  · intro e he e' he' _ _ heq
    obtain rfl | rfl := h e he <;> obtain rfl | rfl := h e' he'
    · rfl
    · exact absurd heq sha256_taggedEntry_ne
    · exact absurd heq.symm sha256_taggedEntry_ne
    · rfl

/-- New tags reached two of four drives: both snapshots have the read quorum of two, and which one
is read depends on the order of the map. -/
theorem selectsOneSnapshot_half_applied :
    ¬ SelectsOneSnapshot lengthPlatform [taggedEntry "a=1", taggedEntry "a=1", taggedEntry "a=22",
      taggedEntry "a=22"] 1 "dir" 2 := by
  intro h
  have hd : Distinguishable lengthPlatform [taggedEntry "a=1", taggedEntry "a=1",
      taggedEntry "a=22", taggedEntry "a=22"] 1 "dir" :=
    distinguishable_taggedEntry fun e he => by simpa using he
  have hone := oneClass_of_deterministic (by decide) (by decide) hd h.deterministic
  have hkeys := hone ((taggedEntry "a=1").key lengthPlatform)
    ((taggedEntry "a=22").key lengthPlatform) (Nat.le_of_eq rfl) (Nat.le_of_eq rfl)
  exact absurd (taggedEntry_key_inj hkeys) (by decide)

/-- New tags that reached one drive only are not read. -/
theorem selectsOneSnapshot_one_drive :
    SelectsOneSnapshot lengthPlatform [taggedEntry "a=1", taggedEntry "a=1", taggedEntry "a=1",
      taggedEntry "a=22"] 1 "dir" 2 := by
  have hmem : ∀ e ∈ [taggedEntry "a=1", taggedEntry "a=1", taggedEntry "a=1", taggedEntry "a=22"],
      e = taggedEntry "a=1" ∨ e = taggedEntry "a=22" := by
    intro e he
    simpa using he
  refine (selectsOneSnapshot_iff (p := 2) rfl (by decide) (by decide)
    (distinguishable_taggedEntry hmem)).mpr ?_
  -- Only the old tags are on two drives or more.
  have hold : ∀ k, 2 ≤ classSize lengthPlatform [taggedEntry "a=1", taggedEntry "a=1",
      taggedEntry "a=1", taggedEntry "a=22"] 1 "dir" k →
      k = (taggedEntry "a=1").key lengthPlatform := by
    intro k hk
    obtain ⟨e, he, -, rfl⟩ := exists_of_classSize_pos (Nat.lt_of_lt_of_le (by decide) hk)
    obtain rfl | rfl := hmem e he
    · rfl
    · exact absurd hk (Nat.not_le.mpr (by decide))
  intro _ k k' hk hk'
  rw [hold k hk, hold k' hk']

end Otterio
