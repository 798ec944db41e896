import Otterio.Listing.WalkTree

/-!
# Completeness and order of a walk

`WalkDir` of a whole bucket, recursively and without a filter.

* `collectAll`: the objects below a directory, entered by a rule. `objectsOf` enters every folder. The walk
  does not enter a folder that it takes for a directory object, or in which the metadata file is a directory
  (`hidden`).
* `scan_spec`: the scan of a folder emits the objects that are not below a hidden folder, each once and with
  its metadata, in the order of the names, and all names begin with the path of the folder.

So nothing is lost exactly if there is no object below a hidden folder (`Shown`).
-/

namespace Otterio.Listing

open List MetaCacheEntry

/-! ## The objects of a tree -/

mutual

def Node.collect (enter : Bytes → Dir → Bool) : Node → Bytes → Bytes → List MetaCacheEntry
  | .file _ => fun _ _ => []
  | .dir sub => fun text n =>
    match metadataOf sub with
    | some data => [⟨text ++ decodeDirObject n, data⟩]
    | none => if enter n sub then collectAll enter sub (text ++ n ++ slashSeparator) else []

def collectAll (enter : Bytes → Dir → Bool) : List (Bytes × Node) → Bytes → List MetaCacheEntry
  | [] => fun _ => []
  | e :: rest => fun text => collectEntry enter e text ++ collectAll enter rest text

def collectEntry (enter : Bytes → Dir → Bool) : Bytes × Node → Bytes → List MetaCacheEntry
  | (n, node) => fun text => node.collect enter text n

end

/-- The walk does not enter the folder: it takes it for a directory object without metadata, or it cannot read
the metadata file because it is a directory. -/
def hidden (n : Bytes) (sub : Dir) : Bool := globalDirSuffix.isSuffixOf n || (sub.lookup xlStorageFormatFile).isSome

/-- The objects that are not below a hidden folder. -/
def shownIn (entries : Dir) (text : Bytes) : List MetaCacheEntry :=
  collectAll (fun n sub => !hidden n sub) entries text

section Collect

variable {enter : Bytes → Dir → Bool}

theorem collectAll_eq (entries : Dir) (text : Bytes) :
    collectAll enter entries text = entries.flatMap fun e => collectEntry enter e text := by
  induction entries with
  | nil => rfl
  | cons e entries ih =>
    show collectEntry enter e text ++ collectAll enter entries text = _
    rw [ih, flatMap_cons]

variable {n text : Bytes} {sub : Dir}

theorem collectEntry_of_object {data : Bytes} (h : metadataOf sub = some data) :
    collectEntry enter (n, .dir sub) text = [⟨text ++ decodeDirObject n, data⟩] := by
  rw [collectEntry, Node.collect, h]

theorem collectEntry_of_folder (h : metadataOf sub = none) : collectEntry enter (n, .dir sub) text =
      if enter n sub then collectAll enter sub (text ++ n ++ [47]) else [] := by
  rw [collectEntry, Node.collect, h]
  rfl

end Collect

/-! ## The steps of a directory -/

section Steps

variable {trimData : Bytes → Bytes} {o : WalkDirOptions} {entries sub : Dir} {n current pre forward : Bytes}
  {cs : List Bytes}

/-- A folder, and a path at which it is scanned. -/
structure Spot (entries : Dir) (cs : List Bytes) (current : Bytes) : Prop where
  folder : Folder entries
  components : ∀ c ∈ cs, Component c
  path : At current cs
  valid : validStoragePath current = true

theorem Spot.child (hp : Spot entries cs current) (h : (n, .dir sub) ∈ entries) (hsub : Folder sub) {s : Bytes}
    (hs : s = [] ∨ s = [47]) : Spot sub (cs ++ [n]) (pathText (cs ++ [n]) ++ s) := by
  have hcs : ∀ c ∈ cs ++ [n], Component c :=
    forall_mem_append.mpr ⟨hp.components, forall_mem_singleton.mpr (hp.folder.names.component _ h)⟩
  have hne : cs ++ [n] ≠ [] := by simp
  refine ⟨hsub, hcs, ?_, valid_pathText hcs s (hs.imp_right fun h => ⟨h, hne⟩)⟩
  rcases hs with rfl | rfl
  · simpa using at_pathText hcs
  · exact at_pathText_slash hcs hne

theorem Spot.inner (hp : Spot entries cs current) (h : (n, .dir sub) ∈ entries) (hsub : Folder sub) :
    Spot sub (cs ++ [n]) (pathText (cs ++ [n])) := by
  simpa using hp.child h hsub (.inl rfl)

theorem stepOf_of_object {data : Bytes} (h : metadataOf sub = some data) (name : Bytes) (walked : Bool)
    (block : List MetaCacheEntry) : stepOf name name walked sub block = ⟨name, [⟨name, data⟩], none⟩ := by
  unfold metadataOf at h
  unfold stepOf
  split at h
  · rw [Option.some.inj h]
  · split at h
    · rw [Option.some.inj h]
    · cases h
  · cases h

theorem scanStep_of_object (hp : Spot entries cs current) (h : (n, .dir sub) ∈ entries)
    (hseen : skipped pre forward (n ++ [47]) = false) {data : Bytes} (hobj : IsObject n sub data) :
    scanStep o current (childrenOf trimData o entries) (dirObjectsOf pre forward entries) (decodeDirObject n) =
      ⟨pathText cs ++ decodeDirObject n, [⟨pathText cs ++ decodeDirObject n, data⟩], none⟩ := by
  rw [scanStep_of_seen hp.folder.names hp.components hp.path h hseen]
  obtain ⟨stem, -, hsuffix, -⟩ | ⟨hsuffix, hdecode⟩ := decodeDirObject_cases n
  · rw [if_pos hsuffix, stepOf, hobj.format hsuffix]
  · rw [hsuffix, if_neg Bool.false_ne_true, hdecode, stepOf_of_object hobj.metadata]

theorem Folder.read_eq (hf : Folder sub) (file : Bytes) :
    Dir.read sub file = if (sub.lookup file).isSome then .isDir else .notExist := by
  unfold Dir.read
  cases hl : sub.lookup file with
  | none => rfl
  | some node =>
    obtain ⟨s, rfl⟩ : ∃ s, node = .dir s := hf.dirs _ (mem_of_lookup hl)
    rfl

theorem stepOf_of_folder (hf : Folder sub) (name path : Bytes) (walked : Bool) (block : List MetaCacheEntry) :
    stepOf name path walked sub block =
      if (sub.lookup xlStorageFormatFile).isSome || !walked || sub.isEmpty then ⟨name, [], none⟩
      else ⟨name, [], some ⟨path ++ [47], ⟨path ++ [47], []⟩ :: block⟩⟩ := by
  unfold stepOf
  rw [hf.read_eq xlStorageFormatFile]
  cases hl : (sub.lookup xlStorageFormatFile).isSome with
  | true => rfl
  | false =>
    rw [hf.read_eq xlStorageFormatFileV1]
    cases (sub.lookup xlStorageFormatFileV1).isSome <;> cases walked <;> cases sub.isEmpty <;> rfl

theorem scanStep_of_folder (hp : Spot entries cs current)
    (h : (n, .dir sub) ∈ entries) (hseen : skipped pre forward (n ++ [47]) = false) (hf : Folder sub) :
    scanStep o current (childrenOf trimData o entries) (dirObjectsOf pre forward entries) (decodeDirObject n) =
      if hidden n sub || sub.isEmpty then ⟨pathText cs ++ decodeDirObject n, [], none⟩
      else ⟨pathText cs ++ decodeDirObject n, [], some ⟨pathText cs ++ n ++ [47],
        ⟨pathText cs ++ n ++ [47], []⟩ :: blockOf trimData o sub (pathText cs ++ n ++ [47])⟩⟩ := by
  rw [scanStep_of_seen hp.folder.names hp.components hp.path h hseen]
  obtain ⟨stem, -, hsuffix, -⟩ | ⟨hsuffix, hdecode⟩ := decodeDirObject_cases n
  · rw [if_pos hsuffix, stepOf_of_folder hf, hidden, hsuffix]
    simp
  · rw [hsuffix, if_neg Bool.false_ne_true, stepOf_of_folder hf, hidden, hsuffix, hdecode, Bool.false_or,
      Bool.not_true, Bool.or_false]

theorem decodeDirObject_inj {m : Bytes} (hn : 47 ∉ n) (hm : 47 ∉ m)
    (h : decodeDirObject n = decodeDirObject m) : n = m := by
  obtain ⟨stem, hstem, -, hdecode⟩ | ⟨-, hdecode⟩ := decodeDirObject_cases n
  · obtain ⟨stem', hstem', -, hdecode'⟩ | ⟨-, hdecode'⟩ := decodeDirObject_cases m
    · rw [hdecode, hdecode'] at h
      rw [hstem, hstem', append_cancel_right h]
    · rw [hdecode, hdecode'] at h
      exact absurd (h ▸ by simp) hm
  · obtain ⟨stem', -, -, hdecode'⟩ | ⟨-, hdecode'⟩ := decodeDirObject_cases m
    · rw [hdecode, hdecode'] at h
      exact absurd (h ▸ by simp) hn
    · rw [← hdecode, h, hdecode']

theorem decodeDirObject_ne_nil (hn : n ≠ []) : decodeDirObject n ≠ [] := by
  obtain ⟨stem, -, -, hdecode⟩ | ⟨-, hdecode⟩ := decodeDirObject_cases n
  · rw [hdecode]
    simp
  · rwa [hdecode]

theorem not_mem_dropLast_decodeDirObject (hn : 47 ∉ n) : 47 ∉ (decodeDirObject n).dropLast := by
  obtain ⟨stem, hstem, -, hdecode⟩ | ⟨-, hdecode⟩ := decodeDirObject_cases n
  · rw [hdecode, dropLast_concat]
    intro h
    exact hn (by simp [hstem, h])
  · rw [hdecode]
    exact fun h => hn (dropLast_subset n h)

theorem textOf_of_skipped (h : skipped pre forward (n ++ [47]) = true) : textOf pre forward n = n ++ [47] := if_pos h

theorem textOf_of_seen (h : skipped pre forward (n ++ [47]) = false) : textOf pre forward n = decodeDirObject n :=
  if_neg (by simp [h])

theorem textOf_cases (hn : Component n) (hne : n ≠ globalDirSuffix) :
    ∃ m, m ≠ [] ∧ 47 ∉ m ∧ (textOf pre forward n = m ∨ textOf pre forward n = m ++ [47]) := by
  cases hs : skipped pre forward (n ++ [47]) with
  | true => exact ⟨n, hn.ne, hn.slash, .inr (textOf_of_skipped hs)⟩
  | false =>
    rw [textOf_of_seen hs]
    obtain ⟨stem, hstem, -, hdecode⟩ | ⟨-, hdecode⟩ := decodeDirObject_cases n
    · refine ⟨stem, ?_, fun h => hn.slash (by simp [hstem, h]), .inr hdecode⟩
      rintro rfl
      exact hne (by simpa using hstem)
    · exact ⟨n, hn.ne, hn.slash, .inl hdecode⟩

/-- The texts of a directory, in order. -/
def filteredTexts (pre forward : Bytes) (entries : Dir) : List Bytes :=
  (entries.map fun e => textOf pre forward e.1).insertionSort (· ≤ ·)

theorem filteredTexts_perm (pre forward : Bytes) (entries : Dir) :
    (filteredTexts pre forward entries).Perm (entries.map fun e => textOf pre forward e.1) :=
  perm_insertionSort _ _

theorem Spot.of_mem_filteredTexts (hp : Spot entries cs current) {t : Bytes}
    (ht : t ∈ filteredTexts pre forward entries) : ∃ m, m ≠ [] ∧ 47 ∉ m ∧ (t = m ∨ t = m ++ [47]) := by
  rw [(filteredTexts_perm pre forward entries).mem_iff] at ht
  obtain ⟨e, he, rfl⟩ := mem_map.mp ht
  exact textOf_cases (hp.folder.names.component e he) (hp.folder.names.ne_suffix e he)

def filteredStep (trimData : Bytes → Bytes) (o : WalkDirOptions) (current pre forward : Bytes) (entries : Dir) :
    Bytes → Deferred.Step UInt8 MetaCacheEntry :=
  scanStep o current (childrenOf trimData o entries) (dirObjectsOf pre forward entries)

theorem scan_eq_run (trimData : Bytes → Bytes) (o : WalkDirOptions) (pre forward : Bytes)
    (hp : Spot entries cs current) :
    (Node.dir entries).scan trimData o current pre forward = Deferred.run ((filteredTexts pre forward entries).map
        (filteredStep trimData o current pre forward entries)) [] := by
  have hne : (filteredTexts pre forward entries).filter (· ≠ []) = filteredTexts pre forward entries := by
    rw [filter_eq_self]
    intro t ht
    obtain ⟨m, hm, -, rfl | rfl⟩ := hp.of_mem_filteredTexts ht <;> simp [hm]
  rw [Node.scan]
  dsimp only
  rw [if_pos hp.valid, scanEntries, firstLoop_eq trimData o current pre forward hp.folder.dirs]
  show Deferred.run (((filteredTexts pre forward entries).filter (· ≠ [])).map _) [] = _
  rw [hne]
  rfl

theorem scan_perm (trimData : Bytes → Bytes) (o : WalkDirOptions) (pre forward : Bytes)
    (hp : Spot entries cs current) :
    ((Node.dir entries).scan trimData o current pre forward).Perm
      (entries.flatMap fun e =>
        (filteredStep trimData o current pre forward entries (textOf pre forward e.1)).all) := by
  rw [scan_eq_run trimData o pre forward hp]
  refine (Deferred.run_perm _ _).trans ?_
  rw [flatMap_nil, nil_append, flatMap_map]
  refine ((filteredTexts_perm pre forward entries).flatMap_right _).trans ?_
  rw [flatMap_map]

theorem isObject_of_ne {name data : Bytes} (h : data ≠ []) : isObject ⟨name, data⟩ = true := by
  unfold isObject
  simpa [length_pos_iff] using h

end Steps

/-! ## The scan of a folder -/

section ScanSpec
def sortedTexts (entries : Dir) : List Bytes :=
  (entries.map fun e => decodeDirObject e.1).insertionSort (· ≤ ·)

variable {trimData : Bytes → Bytes} {o : WalkDirOptions} {entries : Dir}

theorem sortedTexts_sorted (hnames : Names entries) : (sortedTexts entries).Pairwise (· < ·) := by
  have hle : (sortedTexts entries).Pairwise (· ≤ ·) := pairwise_insertionSort _ _
  have hnodup : (sortedTexts entries).Nodup := by
    refine (filteredTexts_perm [] [] entries).nodup_iff.mpr (hnames.nodup.of_map.map_on fun e he e' he' h => ?_)
    exact inj_on_of_nodup_map hnames.nodup he he'
      (decodeDirObject_inj (hnames.component e he).slash (hnames.component e' he').slash h)
  exact hle.imp₂ (fun _ _ => lt_of_le_of_ne) hnodup

/-- What the scan of a folder emits: the objects that are not below a hidden folder, under the path of the
folder, and in order. -/
structure Walked (entries : Dir) (text : Bytes) (out : List MetaCacheEntry) : Prop where
  under : ∀ x ∈ out, text <+: x.name
  sorted : out.Pairwise fun x y => x.name ≤ y.name
  objects : (out.filter isObject).Perm (shownIn entries text)

/-- The step for an entry of a folder, if the folders in it are walked as they should be. -/
structure StepSpec (cs : List Bytes) (e : Bytes × Node) (step : Deferred.Step UInt8 MetaCacheEntry) : Prop where
  key : step.key = pathText cs ++ decodeDirObject e.1
  ordered : step.Ordered name (pathText cs) 47
  objects : (step.all.filter isObject).Perm
    (collectEntry (fun n sub => !hidden n sub) e (pathText cs))

theorem stepSpec {sub : Dir} {n current : Bytes} {cs : List Bytes} (hp : Spot entries cs current)
    (h : (n, .dir sub) ∈ entries)
    (hwalked : Folder sub → Walked sub (pathText cs ++ n ++ [47]) (blockOf trimData o sub (pathText cs ++ n ++ [47]))) :
    StepSpec cs (n, .dir sub)
      (scanStep o current (childrenOf trimData o entries) (dirObjectsOf [] [] entries) (decodeDirObject n)) := by
  have hn := hp.folder.names.component _ h
  have hkey : ∃ t, pathText cs ++ decodeDirObject n = pathText cs ++ t ∧ 47 ∉ t.dropLast :=
    ⟨_, rfl, not_mem_dropLast_decodeDirObject hn.slash⟩
  rcases hp.folder.child h with ⟨data, hobj⟩ | hf
  · rw [scanStep_of_object hp h rfl hobj]
    refine ⟨rfl, ⟨hkey, ?_, fun b hb => by cases hb⟩, ?_⟩
    · intro x hx
      rw [mem_singleton.mp hx]
    · rw [collectEntry_of_object hobj.metadata]
      show ([(⟨pathText cs ++ decodeDirObject n, data⟩ : MetaCacheEntry)].filter _).Perm _
      rw [filter_cons_of_pos (isObject_of_ne hobj.ne)]
      exact List.Perm.refl _
  · rw [scanStep_of_folder hp h rfl hf]
    have hcollect := @collectEntry_of_folder (fun n sub => !hidden n sub) n (pathText cs) sub hf.metadataOf_eq
    by_cases hidle : (hidden n sub || sub.isEmpty) = true
    · rw [if_pos hidle]
      refine ⟨rfl, ⟨hkey, fun x hx => (by cases hx), fun b hb => (by cases hb)⟩, ?_⟩
      have hnone : collectEntry (fun n sub => !hidden n sub) (n, .dir sub) (pathText cs) = [] := by
        rw [hcollect]
        cases hhidden : hidden n sub with
        | true => rfl
        | false =>
          rw [hhidden, Bool.false_or, List.isEmpty_iff] at hidle
          subst hidle
          rfl
      rw [hnone]
      exact List.Perm.refl _
    · rw [if_neg hidle]
      rw [Bool.or_eq_true, not_or] at hidle
      have hdecode : decodeDirObject n = n := by
        obtain ⟨_, -, hsuffix, -⟩ | ⟨-, hdecode⟩ := decodeDirObject_cases n
        · exact absurd (by rw [hidden, hsuffix]; rfl) hidle.1
        · exact hdecode
      obtain ⟨hunder, hsorted, hobjects⟩ := hwalked hf
      refine ⟨rfl, ⟨hkey, fun x hx => (by cases hx), fun b hb => ?_⟩, ?_⟩
      · obtain rfl := Option.some.inj hb
        refine ⟨⟨⟨n, rfl, hn.slash⟩, ?_, ?_⟩, by rw [hdecode]⟩
        · rintro x (_ | ⟨_, hx⟩)
          · exact prefix_refl _
          · exact hunder x hx
        · exact pairwise_cons.mpr ⟨fun x hx => le_of_isPrefix (hunder x hx), hsorted⟩
      · rw [hcollect, if_pos (by simpa using hidle.1)]
        simpa [Deferred.Step.all, isObject, shownIn] using hobjects

theorem scan_walked (hrec : o.recursive = true) (hforward : o.forwardTo = []) (entries : Dir) :
    ∀ cs current, Spot entries cs current →
      Walked entries (pathText cs) ((Node.dir entries).scan trimData o current [] []) := by
  induction entries using dir_induction with
  | h entries ih =>
    intro cs current hp
    have hspec : ∀ e ∈ entries, StepSpec cs e
        (filteredStep trimData o current [] [] entries (decodeDirObject e.1)) := by
      intro e hmem
      obtain ⟨n, sub, rfl⟩ := hp.folder.entry hmem
      refine stepSpec hp hmem fun hf => ?_
      have hblock : blockOf trimData o sub (pathText cs ++ n ++ [47]) =
          (Node.dir sub).scan trimData o (pathText (cs ++ [n])) [] [] := by
        have hnone : forwardIn o (pathText cs ++ n ++ [47]) = [] := by
          rw [forwardIn, hforward]
          rfl
        rw [blockOf, if_pos hrec, hnone, pathText_concat]
      rw [hblock, ← pathText_concat]
      exact ih n sub hmem _ _ (hp.inner hmem hf)
    -- Every text is the text of an entry.
    have htexts : ∀ t ∈ sortedTexts entries, ∃ e ∈ entries, decodeDirObject e.1 = t := fun t ht =>
      mem_map.mp ((filteredTexts_perm [] [] entries).mem_iff.mp ht)
    refine ⟨fun x hx => ?_, ?_, ?_⟩
    · rw [(scan_perm trimData o [] [] hp).mem_iff, mem_flatMap] at hx
      obtain ⟨e, he, hx⟩ := hx
      have h := hspec e he
      rcases mem_append.mp hx with hx | hx
      · rw [h.ordered.out x hx, h.key]
        exact prefix_append _ _
      · obtain ⟨b, hb, hx⟩ := mem_flatMap.mp hx
        obtain ⟨hb, hbkey⟩ := h.ordered.later b (Option.mem_toList.mp hb)
        refine List.IsPrefix.trans ?_ (hb.out x hx)
        rw [hbkey, h.key, append_assoc]
        exact prefix_append _ _
    · have hordered : ∀ t ∈ sortedTexts entries, (filteredStep trimData o current [] [] entries t).Ordered
          name (pathText cs) 47 := by
        intro t ht
        obtain ⟨e, he, rfl⟩ := htexts t ht
        exact (hspec e he).ordered
      rw [scan_eq_run trimData o [] [] hp]
      refine Deferred.run_sorted ?_ (forall_mem_map.mpr hordered) .nil (fun b hb => by cases hb)
        fun b hb => by cases hb
      rw [pairwise_map]
      refine (sortedTexts_sorted hp.folder.names).imp_of_mem fun ht ht' hlt => ?_
      obtain ⟨e, he, rfl⟩ := htexts _ ht
      obtain ⟨e', he', rfl⟩ := htexts _ ht'
      rw [(hspec e he).key, (hspec e' he').key]
      exact (append_lt_append_iff _).mpr hlt
    · refine ((scan_perm trimData o [] [] hp).filter _).trans ?_
      rw [filter_flatMap, shownIn, collectAll_eq]
      exact List.Perm.flatMap_left _ fun e he => (hspec e he).objects

end ScanSpec

end Otterio.Listing
