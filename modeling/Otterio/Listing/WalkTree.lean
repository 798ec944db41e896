import Otterio.Listing.WalkDir

/-!
# Directory trees

`Folder`: the trees that the object layer builds. A directory holds objects, which are directories with a
metadata file, and folders. A name with the suffix `__XLDIR__` marks a directory object.

The first loop of `scanDir` turns an entry into the text by which it is sorted (`textOf`), and the second
loop takes one step for it (`scanStep_of_seen`, `scanStep_of_skipped`).
-/

namespace Otterio.Listing

open List

/-! ## Paths -/

def pathText (cs : List Bytes) : Bytes := cs.flatMap (· ++ slashSeparator)

structure Component (n : Bytes) : Prop where
  ne : n ≠ []
  slash : 47 ∉ n
  backslash : 92 ∉ n
  nul : 0 ∉ n
  part : validPart n = true

instance (n : Bytes) : Decidable (Component n) :=
  decidable_of_iff (n ≠ [] ∧ 47 ∉ n ∧ 92 ∉ n ∧ 0 ∉ n ∧ validPart n = true)
    ⟨fun ⟨h1, h2, h3, h4, h5⟩ => ⟨h1, h2, h3, h4, h5⟩, fun ⟨h1, h2, h3, h4, h5⟩ => ⟨h1, h2, h3, h4, h5⟩⟩

@[simp] theorem slashSeparator_eq : slashSeparator = [47] := rfl

theorem pathText_concat (cs : List Bytes) (n : Bytes) : pathText (cs ++ [n]) = pathText cs ++ n ++ [47] := by
  simp [pathText]

@[simp] theorem pathParts_slash (s : Bytes) : pathParts (47 :: s) = pathParts s := by
  simp [pathParts]

variable {n : Bytes}

theorem pathParts_of_parts {s : Bytes} (hne : n ≠ []) (hn : 47 ∉ n) (hs : s.head?.all (· == 47)) :
    pathParts (n ++ s) = n :: pathParts s := by
  induction n with
  | nil => exact absurd rfl hne
  | cons c n ih =>
    obtain ⟨hc, hn⟩ := not_or.mp (mt mem_cons.mpr hn)
    rw [cons_append, pathParts, if_neg (Ne.symm hc)]
    cases n with
    | nil => rw [nil_append, if_pos hs]
    | cons d n =>
      have hd : d ≠ 47 := fun h => hn (h ▸ .head _)
      rw [if_neg (by simp [hd]), ih (cons_ne_nil d n) hn]

theorem pathParts_append (hne : n ≠ []) (hn : 47 ∉ n) (s : Bytes) :
    pathParts (n ++ 47 :: s) = n :: pathParts s := by
  rw [pathParts_of_parts hne hn rfl, pathParts, if_pos rfl]

theorem pathParts_name (hne : n ≠ []) (hn : 47 ∉ n) : pathParts n = [n] := by
  simpa [pathParts] using pathParts_of_parts hne hn (s := []) rfl

variable {cs : List Bytes}

theorem pathParts_pathText (hcs : ∀ c ∈ cs, Component c) (s : Bytes) :
    pathParts (pathText cs ++ s) = cs ++ pathParts s := by
  induction cs with
  | nil => rfl
  | cons c cs ih =>
    obtain ⟨hc, hcs⟩ := forall_mem_cons.mp hcs
    have : pathText (c :: cs) ++ s = c ++ 47 :: (pathText cs ++ s) := by simp [pathText]
    rw [this, pathParts_append hc.ne hc.slash, ih hcs, cons_append]

theorem intercalate_concat (cs : List Bytes) (n : Bytes) :
    slashSeparator.intercalate (cs ++ [n]) = pathText cs ++ n := by
  induction cs with
  | nil => simp [pathText, List.intercalate]
  | cons c cs ih =>
    cases cs with
    | nil => simp [pathText, List.intercalate]
    | cons d cs =>
      have h : slashSeparator.intercalate (c :: d :: cs ++ [n]) =
          c ++ [47] ++ slashSeparator.intercalate (d :: cs ++ [n]) := by
        simp [List.intercalate, List.intersperse]
      rw [h, ih]
      simp [pathText]

/-- The text names the directory with these components. -/
def At (current : Bytes) (cs : List Bytes) : Prop :=
  (current = [] ∧ cs = []) ∨
    (current ≠ [] ∧ current.head? ≠ some 47 ∧ ∀ s, pathParts (current ++ 47 :: s) = cs ++ pathParts s)

theorem At.pathJoin_eq {current : Bytes} (h : At current cs) {e : Bytes}
    (hne : n ≠ []) (hn : 47 ∉ n) (he : e = n ∨ e = n ++ [47]) : pathJoin current e = pathText cs ++ e := by
  obtain ⟨c, n', rfl⟩ := exists_cons_of_ne_nil hne
  have hc : c ≠ 47 := fun h => hn (h ▸ .head _)
  have hparts : pathParts e = [c :: n'] := by
    obtain rfl | rfl := he
    · exact pathParts_name hne hn
    · exact pathParts_append hne hn []
  have hene : e ≠ [] := by obtain rfl | rfl := he <;> simp
  have hclean : ∀ s : Bytes, s.head? ≠ some 47 → pathParts s = cs ++ [c :: n'] →
      pathClean s = pathText cs ++ (c :: n') := by
    intro s hs hp
    rw [pathClean, if_neg hs, hp, intercalate_concat, nil_append]
  have hjoin : pathClean (if current = [] then e else if e = [] then current
      else current ++ slashSeparator ++ e) = pathText cs ++ (c :: n') := by
    obtain ⟨rfl, rfl⟩ | ⟨hcur, hhead, hcs⟩ := h
    · refine hclean _ ?_ hparts
      obtain rfl | rfl := he <;> simp [hc]
    · rw [if_neg hcur, if_neg hene]
      refine hclean _ ?_ ?_
      · obtain ⟨d, l, rfl⟩ := exists_cons_of_ne_nil hcur
        simpa using hhead
      · rw [slashSeparator_eq, append_assoc, singleton_append, hcs, hparts]
  rw [pathJoin, hjoin]
  obtain rfl | rfl := he
  · have : ¬ slashSeparator.isSuffixOf (c :: n') = true := by
      rw [isSuffixOf_iff_suffix]
      intro hs
      exact hn (hs.subset (by simp))
    rw [if_neg this, append_nil]
  · rw [if_pos (by simp [isSuffixOf_iff_suffix]), append_assoc]
    rfl

section Texts

variable {cs : List Bytes} (hcs : ∀ c ∈ cs, Component c)

include hcs

theorem head?_pathText (s : Bytes) (hne : cs ≠ []) : (pathText cs ++ s).head? ≠ some 47 := by
  obtain ⟨c, cs, rfl⟩ := exists_cons_of_ne_nil hne
  obtain ⟨d, n, hn⟩ := exists_cons_of_ne_nil (hcs c (.head _)).ne
  have hd : d ≠ 47 := fun h => (hcs c (.head _)).slash (by simp [hn, h])
  simp [pathText, hn, hd]

theorem at_pathText : At (pathText cs) cs := by
  by_cases hne : cs = []
  · exact .inl ⟨by rw [hne]; rfl, hne⟩
  · refine .inr ⟨?_, ?_, fun s => ?_⟩
    · obtain ⟨c, cs, rfl⟩ := exists_cons_of_ne_nil hne
      simp [pathText]
    · simpa using head?_pathText hcs [] hne
    · rw [pathParts_pathText hcs, pathParts_slash]

theorem at_pathText_slash (hne : cs ≠ []) : At (pathText cs ++ [47]) cs := by
  refine .inr ⟨by simp, head?_pathText hcs [47] hne, fun s => ?_⟩
  rw [append_assoc, pathParts_pathText hcs, singleton_append, pathParts_slash, pathParts_slash]

theorem valid_pathText (s : Bytes) (hs : s = [] ∨ (s = [47] ∧ cs ≠ [])) :
    validStoragePath (pathText cs ++ s) = true := by
  have hparts : pathParts (pathText cs ++ s) = cs := by
    rw [pathParts_pathText hcs]
    obtain rfl | ⟨rfl, -⟩ := hs <;> simp [pathParts]
  have hbyte (b : UInt8) (hb : b ≠ 47) (h : ∀ c ∈ cs, b ∉ c) : b ∉ pathText cs ++ s := by
    intro hmem
    obtain hmem | hmem := mem_append.mp hmem
    · obtain ⟨c, hc, hmem⟩ := mem_flatMap.mp hmem
      obtain hmem | hmem := mem_append.mp hmem
      · exact h c hc hmem
      · simp [hb] at hmem
    · obtain rfl | ⟨rfl, -⟩ := hs <;> simp [hb] at hmem
  have hhead : (pathText cs ++ s).head? ≠ some 47 := by
    by_cases hne : cs = []
    · obtain rfl | ⟨-, h⟩ := hs
      · simp [hne, pathText]
      · exact absurd hne h
    · exact head?_pathText hcs s hne
  simp only [validStoragePath, hparts, Bool.and_eq_true, decide_eq_true_eq, Bool.not_eq_true',
    all_eq_true, contains_eq_mem, decide_eq_false_iff_not]
  exact ⟨⟨⟨hhead, hbyte 92 (by decide) fun c hc => (hcs c hc).backslash⟩,
    hbyte 0 (by decide) fun c hc => (hcs c hc).nul⟩, fun c hc => (hcs c hc).part⟩

end Texts

theorem decodeDirObject_cases (n : Bytes) :
    (∃ stem, n = stem ++ globalDirSuffix ∧ globalDirSuffix.isSuffixOf n = true ∧ decodeDirObject n = stem ++ [47]) ∨
      (globalDirSuffix.isSuffixOf n = false ∧ decodeDirObject n = n) := by
  cases h : globalDirSuffix.isSuffixOf n with
  | true =>
    obtain ⟨stem, hstem⟩ := isSuffixOf_iff_suffix.mp h
    refine .inl ⟨stem, hstem.symm, rfl, ?_⟩
    rw [decodeDirObject, if_pos h, trimSuffix, if_pos h, ← hstem]
    simp
  | false => exact .inr ⟨rfl, by simp [decodeDirObject, h]⟩

theorem isSuffixOf_concat (n : Bytes) :
    globalDirSuffixWithSlash.isSuffixOf (n ++ [47]) = globalDirSuffix.isSuffixOf n := by
  rw [Bool.eq_iff_iff, isSuffixOf_iff_suffix, isSuffixOf_iff_suffix]
  constructor
  · rintro ⟨t, ht⟩
    refine ⟨t, ?_⟩
    rw [globalDirSuffixWithSlash, slashSeparator_eq, ← append_assoc] at ht
    exact append_cancel_right ht
  · rintro ⟨t, rfl⟩
    exact ⟨t, by simp [globalDirSuffixWithSlash]⟩

theorem trimSuffix_concat (stem : Bytes) :
    trimSuffix (stem ++ globalDirSuffixWithSlash) globalDirSuffixWithSlash = stem := by
  rw [trimSuffix, if_pos (by simp [isSuffixOf_iff_suffix])]
  simp

/-! ## The first loop -/

section Loop

variable (trimData : Bytes → Bytes) (o : WalkDirOptions)

theorem childrenOf_eq (entries : Dir) : childrenOf trimData o entries = entries.map (childOf trimData o) := by
  induction entries with
  | nil => rfl
  | cons e entries ih => rw [childrenOf, ih, map_cons]

theorem dirOf_childrenOf (entries : Dir) : dirOf (childrenOf trimData o entries) = entries := by
  have h : (fun c : Child => (c.name, c.node)) ∘ childOf trimData o = id := by
    funext ⟨_, _⟩
    rfl
  rw [childrenOf_eq, dirOf, map_map, h, map_id]

/-- The text of a directory after the first loop. A directory that is skipped keeps its slash. -/
def textOf (pre forward n : Bytes) : Bytes :=
  if skipped pre forward (n ++ [47]) then n ++ [47] else decodeDirObject n

/-- The directory objects that the first loop finds. -/
def dirObjectsOf (pre forward : Bytes) (entries : Dir) : List Bytes :=
  (entries.filter fun e =>
    !skipped pre forward (e.1 ++ [47]) && globalDirSuffix.isSuffixOf e.1).map fun e => decodeDirObject e.1

theorem firstLoop_eq (current pre forward : Bytes) {entries : Dir} (hdirs : ∀ e ∈ entries, ∃ sub, e.2 = .dir sub) :
    firstLoop trimData current pre forward (childrenOf trimData o entries) =
      .entries (entries.map fun e => textOf pre forward e.1) (dirObjectsOf pre forward entries) := by
  induction entries with
  | nil => rfl
  | cons e entries ih =>
    obtain ⟨he, hrest⟩ := forall_mem_cons.mp hdirs
    obtain ⟨n, node⟩ := e
    obtain ⟨sub, rfl⟩ : ∃ sub, node = .dir sub := he
    have hentry : (childOf trimData o (n, .dir sub)).entry = n ++ [47] := rfl
    have hnode : (childOf trimData o (n, .dir sub)).node = .dir sub := rfl
    rw [childrenOf, firstLoop, ih hrest]
    simp only [hentry, hnode, isSuffixOf_concat]
    cases hs : skipped pre forward (n ++ [47]) with
    | true => simp [FirstLoop.cons, textOf, dirObjectsOf, hs]
    | false =>
      obtain ⟨stem, hstem, hsuffix, hdecode⟩ | ⟨hsuffix, hdecode⟩ := decodeDirObject_cases n
      · have htrim : trimSuffix (n ++ [47]) globalDirSuffixWithSlash = stem := by
          rw [hstem, append_assoc]
          exact trimSuffix_concat stem
        simp [FirstLoop.consDirObject, textOf, dirObjectsOf, hs, hsuffix, htrim, hdecode]
      · simp [FirstLoop.cons, textOf, dirObjectsOf, hs, hsuffix, hdecode]

/-! ## The second loop -/

/-- The step for an entry, by what is read in it. An object comes out under `name` or, with the old format,
under `path`; a directory that may be walked leaves a block. -/
def stepOf (name path : Bytes) (walked : Bool) (sub : Dir) (block : List MetaCacheEntry) :
    Deferred.Step UInt8 MetaCacheEntry :=
  match Dir.read sub xlStorageFormatFile with
  | .ok data => ⟨name, [⟨name, data⟩], none⟩
  | .notExist =>
    match Dir.read sub xlStorageFormatFileV1 with
    | .ok data => ⟨name, [⟨path, data⟩], none⟩
    | _ =>
      if walked && !sub.isEmpty then ⟨name, [], some ⟨path ++ [47], ⟨path ++ [47], []⟩ :: block⟩⟩
      else ⟨name, [], none⟩
  | _ => ⟨name, [], none⟩

/-- The walk of a directory from the stack. -/
def blockOf (sub : Dir) (pop : Bytes) : List MetaCacheEntry :=
  if o.recursive then (Node.dir sub).scan trimData o pop [] (forwardIn o pop) else []

/-- The names of the entries of a directory: components, each of them once, and not the bare suffix of a
directory object. -/
structure Names (entries : Dir) : Prop where
  nodup : (entries.map Prod.fst).Nodup
  component : ∀ e ∈ entries, Component e.1
  ne_suffix : ∀ e ∈ entries, e.1 ≠ globalDirSuffix

variable {trimData o} {entries sub : Dir} {n current pre forward : Bytes} {cs : List Bytes}

theorem lookup_of_mem {node : Node} (hnodup : (entries.map Prod.fst).Nodup) (h : (n, node) ∈ entries) :
    entries.lookup n = some node := by
  induction entries with
  | nil => cases h
  | cons e entries ih =>
    obtain ⟨m, node'⟩ := e
    rw [map_cons, nodup_cons] at hnodup
    obtain heq | hmem := mem_cons.mp h
    · cases heq
      simp
    · have hne : n ≠ m := by
        rintro rfl
        exact hnodup.1 (mem_map.mpr ⟨_, hmem, rfl⟩)
      rw [lookup_cons, beq_false_of_ne hne]
      exact ih hnodup.2 hmem

theorem find?_childrenOf (hnodup : (entries.map Prod.fst).Nodup) (h : (n, .dir sub) ∈ entries) :
    (childrenOf trimData o entries).find? (·.name == n) = some (childOf trimData o (n, .dir sub)) := by
  rw [childrenOf_eq, List.find?_map]
  have hpred : (fun c : Child => c.name == n) ∘ childOf trimData o = fun e => e.1 == n := by
    funext ⟨_, _⟩
    rfl
  rw [hpred, Option.map_eq_some_iff]
  refine ⟨(n, .dir sub), ?_, rfl⟩
  induction entries with
  | nil => cases h
  | cons e entries ih =>
    rw [map_cons, nodup_cons] at hnodup
    obtain heq | hmem := mem_cons.mp h
    · subst heq
      simp
    · have hne : e.1 ≠ n := fun heq => hnodup.1 (mem_map.mpr ⟨_, hmem, heq.symm⟩)
      rw [List.find?_cons_of_neg (by simpa using hne)]
      exact ih hnodup.2 hmem

/-- The step of the second loop, once the name, the path and the entry that is read are known. -/
theorem scanStep_eq {dirObjects : List Bytes} {entry name path : Bytes} {isDirObj : Bool}
    (hnodup : (entries.map Prod.fst).Nodup) (h : (n, .dir sub) ∈ entries)
    (hname : pathJoin current entry = name) (hobj : dirObjects.contains entry = isDirObj)
    (hpath : (if isDirObj then name.dropLast ++ globalDirSuffixWithSlash else name) = path)
    (hchild : lastPart path = n)
    (hout : (if isDirObj then trimSuffix path globalDirSuffixWithSlash ++ [47] else path) = name) :
    scanStep o current (childrenOf trimData o entries) dirObjects entry =
      stepOf name path (!isDirObj) sub (blockOf trimData o sub (path ++ [47])) := by
  have hread (file : Bytes) : Dir.readIn entries n file = Dir.read sub file := by
    rw [Dir.readIn, lookup_of_mem hnodup h]
  have hempty : isDirEmpty entries n = sub.isEmpty := by
    rw [isDirEmpty, lookup_of_mem hnodup h]
    cases sub <;> rfl
  have hpopped (pop : Bytes) : popped o (childrenOf trimData o entries) n pop =
      ⟨pop, []⟩ :: blockOf trimData o sub pop := by
    rw [popped, find?_childrenOf hnodup h]
    rfl
  unfold scanStep stepOf
  simp only [hname, hobj, hpath, hchild, dirOf_childrenOf, hread, hempty, hpopped, hout, slashSeparator_eq] <;>
    cases Dir.read sub xlStorageFormatFile <;> cases Dir.read sub xlStorageFormatFileV1 <;> rfl

theorem lastPart_pathText (hcs : ∀ c ∈ cs, Component c) (hn : Component n) (s : Bytes)
    (hs : s = [] ∨ s = [47]) : lastPart (pathText cs ++ n ++ s) = n := by
  rw [lastPart, append_assoc, pathParts_pathText hcs]
  obtain rfl | rfl := hs
  · rw [append_nil, pathParts_name hn.ne hn.slash]
    simp
  · rw [pathParts_append hn.ne hn.slash]
    simp [pathParts]

theorem contains_dirObjectsOf (hn : 47 ∉ n) : (dirObjectsOf pre forward entries).contains n = false := by
  rw [contains_eq_mem, decide_eq_false_iff_not]
  intro h
  obtain ⟨e, he, heq⟩ := mem_map.mp h
  obtain ⟨-, hsuffix⟩ := Bool.and_eq_true_iff.mp (mem_filter.mp he).2
  obtain ⟨stem, -, -, hdecode⟩ | ⟨hnot, -⟩ := decodeDirObject_cases e.1
  · refine hn (heq ▸ hdecode ▸ ?_)
    simp
  · rw [hnot] at hsuffix
    cases hsuffix

theorem scanStep_of_seen (hnames : Names entries) (hcs : ∀ c ∈ cs, Component c) (hat : At current cs)
    (h : (n, .dir sub) ∈ entries) (hseen : skipped pre forward (n ++ [47]) = false) :
    scanStep o current (childrenOf trimData o entries) (dirObjectsOf pre forward entries)
        (decodeDirObject n) =
      if globalDirSuffix.isSuffixOf n then
        stepOf (pathText cs ++ decodeDirObject n) (pathText cs ++ n ++ [47]) false sub
          (blockOf trimData o sub (pathText cs ++ n ++ [47] ++ [47]))
      else
        stepOf (pathText cs ++ n) (pathText cs ++ n) true sub (blockOf trimData o sub (pathText cs ++ n ++ [47])) := by
  have hn := hnames.component _ h
  obtain ⟨stem, hstem, hsuffix, hdecode⟩ | ⟨hsuffix, hdecode⟩ := decodeDirObject_cases n
  · have hne : stem ≠ [] := by
      rintro rfl
      exact hnames.ne_suffix _ h (by simpa using hstem)
    have hslash : 47 ∉ stem := fun hmem => hn.slash (by simp [hstem, hmem])
    have hobj : (dirObjectsOf pre forward entries).contains (decodeDirObject n) = true := by
      rw [contains_iff_mem]
      exact mem_map.mpr ⟨_, mem_filter.mpr ⟨h, by simp [hseen, hsuffix]⟩, rfl⟩
    have hpath : pathText cs ++ stem ++ globalDirSuffixWithSlash = pathText cs ++ n ++ [47] := by
      simp [globalDirSuffixWithSlash, hstem]
    rw [if_pos hsuffix, scanStep_eq hnames.nodup h (hat.pathJoin_eq hne hslash (.inr hdecode)) hobj]
    · rfl
    · rw [if_pos rfl, hdecode, ← append_assoc, dropLast_concat, hpath]
    · exact lastPart_pathText hcs hn [47] (.inr rfl)
    · rw [if_pos rfl, ← hpath, trimSuffix_concat, hdecode, append_assoc]
  · rw [hsuffix, if_neg Bool.false_ne_true, hdecode,
      scanStep_eq hnames.nodup h (hat.pathJoin_eq hn.ne hn.slash (.inl rfl)) (contains_dirObjectsOf hn.slash)]
    · rfl
    · rfl
    · simpa using lastPart_pathText hcs hn [] (.inl rfl)
    · rfl

/-- The step for an entry that the first loop has skipped. It is not taken for a directory object, unless
there is one of its name. -/
theorem scanStep_of_skipped (hnames : Names entries) (hcs : ∀ c ∈ cs, Component c) (hat : At current cs)
    (h : (n, .dir sub) ∈ entries) (hobj : (dirObjectsOf pre forward entries).contains (n ++ [47]) = false) :
    scanStep o current (childrenOf trimData o entries) (dirObjectsOf pre forward entries) (n ++ [47]) =
      stepOf (pathText cs ++ n ++ [47]) (pathText cs ++ n ++ [47]) true sub
        (blockOf trimData o sub (pathText cs ++ n ++ [47] ++ [47])) := by
  have hn := hnames.component _ h
  rw [scanStep_eq hnames.nodup h (hat.pathJoin_eq hn.ne hn.slash (.inr rfl)) hobj (if_neg Bool.false_ne_true)]
  · rw [← append_assoc]
    rfl
  · rw [← append_assoc]
    exact lastPart_pathText hcs hn [47] (.inr rfl)
  · rfl

end Loop

/-! ## Trees of objects and folders -/

def metadataOf (sub : Dir) : Option Bytes :=
  match Dir.read sub xlStorageFormatFile with
  | .ok data => some data
  | .notExist =>
    match Dir.read sub xlStorageFormatFileV1 with
    | .ok data => some data
    | _ => none
  | _ => none

/-- A directory with a metadata file. A directory object has one of the new format. -/
structure IsObject (n : Bytes) (sub : Dir) (data : Bytes) : Prop where
  metadata : metadataOf sub = some data
  ne : data ≠ []
  format : globalDirSuffix.isSuffixOf n = true → Dir.read sub xlStorageFormatFile = .ok data

/-- A directory of objects and folders. -/
inductive Folder : Dir → Prop
  | mk {entries : Dir} (names : Names entries) (dirs : ∀ e ∈ entries, ∃ sub, e.2 = .dir sub)
      (child : ∀ n sub, (n, .dir sub) ∈ entries → (¬ ∃ data, IsObject n sub data) → Folder sub) :
      Folder entries

/-- What holds of a directory if it holds of the directories in it holds of every directory. -/
theorem dir_induction {P : Dir → Prop} (h : ∀ entries : Dir, (∀ n sub, (n, .dir sub) ∈ entries → P sub) → P entries) :
    ∀ entries : Dir, P entries := by
  intro entries
  apply h
  intro n sub hmem
  have hlt : sizeOf sub < sizeOf entries := by
    have := sizeOf_lt_of_mem hmem
    simp only [Prod.mk.sizeOf_spec, Node.dir.sizeOf_spec] at this
    omega
  exact dir_induction h sub
termination_by entries => sizeOf entries

section

variable {entries : Dir} (h : Folder entries)
include h

theorem Folder.names : Names entries := by
  obtain ⟨names, -, -⟩ := h
  exact names

theorem Folder.dirs : ∀ e ∈ entries, ∃ sub, e.2 = .dir sub := by
  obtain ⟨-, dirs, -⟩ := h
  exact dirs

theorem Folder.entry {e : Bytes × Node} (he : e ∈ entries) :
    ∃ n sub, e = (n, .dir sub) :=
  let ⟨sub, hsub⟩ := h.dirs e he
  ⟨e.1, sub, Prod.ext rfl hsub⟩

theorem Folder.child {sub : Dir}
    (hmem : (n, .dir sub) ∈ entries) : (∃ data, IsObject n sub data) ∨ Folder sub := by
  obtain ⟨-, -, child⟩ := h
  exact (em _).imp_right (child n sub hmem)

end

theorem mem_of_lookup {entries : Dir} {node : Node} (h : entries.lookup n = some node) :
    (n, node) ∈ entries := by
  induction entries with
  | nil => cases h
  | cons e entries ih =>
    rw [lookup_cons] at h
    split at h
    · next heq =>
      cases h
      rw [beq_iff_eq.mp heq]
      exact .head _
    · exact .tail _ (ih h)

theorem Folder.read_ne {sub : Dir} (h : Folder sub) (file data : Bytes) : Dir.read sub file ≠ .ok data := by
  unfold Dir.read
  cases hl : sub.lookup file with
  | none => simp
  | some node =>
    obtain ⟨s, rfl⟩ : ∃ s, node = .dir s := h.dirs _ (mem_of_lookup hl)
    simp

theorem Folder.metadataOf_eq {sub : Dir} (h : Folder sub) : metadataOf sub = none := by
  unfold metadataOf
  split
  · next data hr => exact absurd hr (h.read_ne _ data)
  · split
    · next data hr => exact absurd hr (h.read_ne _ data)
    · rfl
  · rfl

end Otterio.Listing
