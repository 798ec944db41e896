import Otterio.Lib.Frame
import Otterio.Listing.WalkOrder

/-!
# Filtered walks

`WalkDir` with a `FilterPrefix` and a `ForwardTo`. The first loop of `scanDir` passes over the entries that
do not belong to the listing, but it leaves them in the slice, with their slash, and the second loop takes a
step for them as for the others: an object comes out with a slash after its name, a folder with two of them
and with everything in it. If there is a directory object of the name, it comes out twice.

So a filter is harmless only if it has nothing to do. `Unfiltered`: whatever is passed over is a folder
without entries, or one that is not read, and not of the name of a directory object.

* `unfiltered_of_sound`: a walk that emits only objects of the bucket, each once, and no doubled slashes is
  of this kind, if no folder has the suffix of a directory object.
-/

namespace Otterio.Listing

open List Deferred.Step MetaCacheEntry Node

def WalkDirOptions.unfiltered (o : WalkDirOptions) : WalkDirOptions := { o with filterPrefix := [], forwardTo := [] }

section Scans

variable {trimData : Bytes → Bytes} {o : WalkDirOptions} {entries sub : Dir} {n current pre forward : Bytes}
  {cs : List Bytes}

theorem decodeDirObject_suffix (n : Bytes) : decodeDirObject (n ++ globalDirSuffix) = n ++ [47] := by
  have hsuffix : globalDirSuffix.isSuffixOf (n ++ globalDirSuffix) = true := by
    rw [isSuffixOf_iff_suffix]
    exact suffix_append _ _
  obtain ⟨stem, hstem, -, hdecode⟩ | ⟨hnot, -⟩ := decodeDirObject_cases (n ++ globalDirSuffix)
  · rw [hdecode, append_cancel_right hstem]
  · rw [hnot] at hsuffix
    cases hsuffix

theorem contains_dirObjectsOf_iff (hf : Folder entries) :
    (dirObjectsOf pre forward entries).contains (n ++ [47]) = true ↔
      ∃ sub, (n ++ globalDirSuffix, .dir sub) ∈ entries ∧
        skipped pre forward (n ++ globalDirSuffix ++ [47]) = false := by
  rw [contains_iff_mem, dirObjectsOf, mem_map]
  constructor
  · rintro ⟨e, he, heq⟩
    obtain ⟨hmem, hprop⟩ := mem_filter.mp he
    obtain ⟨m, sub, rfl⟩ := hf.entry hmem
    rw [Bool.and_eq_true, Bool.not_eq_true'] at hprop
    obtain ⟨stem, hstem, -, hdecode⟩ | ⟨hnot, -⟩ := decodeDirObject_cases m
    · rw [hdecode] at heq
      obtain rfl := append_cancel_right heq
      subst hstem
      exact ⟨sub, hmem, hprop.1⟩
    · rw [hnot] at hprop
      cases hprop.2
  · rintro ⟨sub, hmem, hseen⟩
    refine ⟨_, mem_filter.mpr ⟨hmem, ?_⟩, decodeDirObject_suffix n⟩
    rw [Bool.and_eq_true, Bool.not_eq_true', isSuffixOf_iff_suffix]
    exact ⟨hseen, suffix_append _ _⟩

/-! ## Filters that have nothing to do -/

/-- A folder in which nothing is read: it is empty, or its metadata file is a directory. -/
structure Silent (sub : Dir) : Prop where
  metadata : metadataOf sub = none
  unread : sub.isEmpty = true ∨ (sub.lookup xlStorageFormatFile).isSome = true

/-- An entry that is passed over makes no difference: nothing is read in it, and it has not the name of a
directory object that is not passed over. -/
structure Harmless (pre forward : Bytes) (entries : Dir) (n : Bytes) (sub : Dir) : Prop where
  silent : Silent sub
  alone : ∀ sub', (n ++ globalDirSuffix, .dir sub') ∈ entries →
    skipped pre forward (n ++ globalDirSuffix ++ [47]) = false → metadataOf sub' = none

theorem Folder.folder_of_metadata (hf : Folder entries) (h : (n, .dir sub) ∈ entries)
    (hmeta : metadataOf sub = none) : Folder sub := by
  rcases hf.child h with ⟨data, hobj⟩ | hsub
  · rw [hobj.metadata] at hmeta
    cases hmeta
  · exact hsub

theorem idle_of_suffixed (hp : Spot entries cs current) (h : (n ++ globalDirSuffix, .dir sub) ∈ entries)
    (hseen : skipped pre forward (n ++ globalDirSuffix ++ [47]) = false) (hmeta : metadataOf sub = none) :
    (filteredStep trimData o current pre forward entries (n ++ [47])).idle = true := by
  have hsub := hp.folder.folder_of_metadata h hmeta
  have hhidden : hidden (n ++ globalDirSuffix) sub = true := by
    rw [hidden, Bool.or_eq_true, isSuffixOf_iff_suffix]
    exact .inl (suffix_append _ _)
  have hstep := @scanStep_of_folder trimData o entries sub _ current pre forward cs hp h hseen hsub
  rw [decodeDirObject_suffix, hhidden] at hstep
  rw [filteredStep, hstep]
  rfl

theorem Harmless.idle (hh : Harmless pre forward entries n sub) (hp : Spot entries cs current)
    (h : (n, .dir sub) ∈ entries) :
    (filteredStep trimData o current pre forward entries (n ++ [47])).idle = true ∧
      (filteredStep trimData o.unfiltered current [] [] entries (decodeDirObject n)).idle = true := by
  have hsub := hp.folder.folder_of_metadata h hh.silent.metadata
  constructor
  · cases hobj : (dirObjectsOf pre forward entries).contains (n ++ [47]) with
    | true =>
      obtain ⟨sub', hmem, hseen⟩ := (contains_dirObjectsOf_iff hp.folder).mp hobj
      exact idle_of_suffixed hp hmem hseen (hh.alone sub' hmem hseen)
    | false =>
      rw [filteredStep, scanStep_of_skipped hp.folder.names hp.components hp.path h hobj, stepOf_of_folder hsub, if_pos]
      · rfl
      · rcases hh.silent.unread with hu | hu <;> simp [hu]
  · have hstep := @scanStep_of_folder trimData o.unfiltered entries sub n current [] [] cs hp h rfl hsub
    rw [filteredStep, hstep, if_pos]
    · rfl
    · rcases hh.silent.unread with hu | hu <;> simp [hidden, hu]

section ShownIn

variable {text : Bytes} {x : MetaCacheEntry}

theorem append_slash_inj {a b t u : Bytes} (ha : 47 ∉ a) (hb : 47 ∉ b) (h : a ++ 47 :: t = b ++ 47 :: u) :
    a = b ∧ t = u := by
  obtain ⟨hab, htu⟩ := append_inj_of_all (fun _ hx => ne_of_mem_of_not_mem hx ha)
    (fun _ hx => ne_of_mem_of_not_mem hx hb) (by simp) (by simp) h
  exact ⟨hab, (List.cons.inj htu).2⟩

theorem mem_shownIn_cases (hf : Folder entries) (h : x ∈ shownIn entries text) : ∃ n sub, (n, .dir sub) ∈ entries ∧
      ((∃ data, metadataOf sub = some data ∧ x = ⟨text ++ decodeDirObject n, data⟩) ∨
        Folder sub ∧ x ∈ shownIn sub (text ++ n ++ [47])) := by
  rw [shownIn, collectAll_eq, mem_flatMap] at h
  obtain ⟨e, hmem, hx⟩ := h
  obtain ⟨n, sub, rfl⟩ := hf.entry hmem
  refine ⟨n, sub, hmem, ?_⟩
  rcases hf.child hmem with ⟨data, hobj⟩ | hsub
  · rw [collectEntry_of_object hobj.metadata] at hx
    exact .inl ⟨data, hobj.metadata, mem_singleton.mp hx⟩
  · rw [collectEntry_of_folder hsub.metadataOf_eq] at hx
    split_ifs at hx
    · exact .inr ⟨hsub, hx⟩
    · cases hx

theorem shownIn_under (entries : Dir) : ∀ text, Folder entries → ∀ x ∈ shownIn entries text,
    ∃ t, t ≠ [] ∧ x.name = text ++ t := by
  induction entries using dir_induction with
  | h entries ih =>
    intro text hf x hx
    obtain ⟨n, sub, hmem, ⟨data, -, rfl⟩ | ⟨hsub, hx⟩⟩ := mem_shownIn_cases hf hx
    · exact ⟨_, decodeDirObject_ne_nil (hf.names.component _ hmem).ne, rfl⟩
    · obtain ⟨t, -, ht⟩ := ih n sub hmem _ hsub x hx
      refine ⟨n ++ [47] ++ t, by simp, ?_⟩
      rw [ht]
      simp only [append_assoc]

theorem decodeDirObject_ne {t : Bytes} (hn : 47 ∉ n) (ht : t ≠ []) (m : Bytes) :
    decodeDirObject n ≠ m ++ 47 :: t := by
  intro heq
  have hslash := not_mem_dropLast_decodeDirObject hn
  rw [heq, dropLast_append_of_ne_nil (cons_ne_nil _ _), dropLast_cons_of_ne_nil ht] at hslash
  exact hslash (by simp)

theorem name_of_mem_collectEntry (hf : Folder entries) (h : (n, .dir sub) ∈ entries)
    (hx : x ∈ collectEntry (fun n sub => !hidden n sub) (n, .dir sub) text) :
    x.name = text ++ decodeDirObject n ∨ ∃ t, t ≠ [] ∧ x.name = text ++ (n ++ 47 :: t) := by
  rcases hf.child h with ⟨data, hobj⟩ | hsub
  · rw [collectEntry_of_object hobj.metadata] at hx
    rw [mem_singleton.mp hx]
    exact .inl rfl
  · rw [collectEntry_of_folder hsub.metadataOf_eq] at hx
    split_ifs at hx
    · obtain ⟨t, ht, hname⟩ := shownIn_under sub _ hsub x hx
      refine .inr ⟨t, ht, ?_⟩
      rw [hname]
      simp only [append_assoc, singleton_append]
    · cases hx

theorem nodup_shownIn (entries : Dir) : ∀ text, Folder entries → (shownIn entries text).Nodup := by
  induction entries using dir_induction with
  | h entries ih =>
    intro text hf
    rw [shownIn, collectAll_eq, nodup_flatMap]
    constructor
    · intro e hmem
      obtain ⟨n, sub, rfl⟩ := hf.entry hmem
      rcases hf.child hmem with ⟨data, hobj⟩ | hsub
      · rw [collectEntry_of_object hobj.metadata]
        exact nodup_singleton _
      · rw [collectEntry_of_folder hsub.metadataOf_eq]
        split_ifs
        · exact ih n sub hmem _ hsub
        · exact nodup_nil
    · have hnames : entries.Pairwise fun e e' => e.1 ≠ e'.1 := pairwise_map.mp hf.names.nodup
      refine hnames.imp_of_mem ?_
      intro e e' hmem hmem' hne x hx hx'
      obtain ⟨n, sub, rfl⟩ := hf.entry hmem
      obtain ⟨m, sub', rfl⟩ := hf.entry hmem'
      have hn := (hf.names.component _ hmem).slash
      have hm := (hf.names.component _ hmem').slash
      rcases name_of_mem_collectEntry hf hmem hx with hname | ⟨t, ht, hname⟩ <;>
        rcases name_of_mem_collectEntry hf hmem' hx' with hname' | ⟨u, hu, hname'⟩ <;>
        rw [hname] at hname' <;> have heq := append_cancel_left hname'
      · exact hne (decodeDirObject_inj hn hm heq)
      · exact decodeDirObject_ne hn hu m heq
      · exact decodeDirObject_ne hm ht n heq.symm
      · exact hne (append_slash_inj hn hm heq).1

end ShownIn

section

variable (hp : Spot entries cs current) (h : (n, .dir sub) ∈ entries)
include hp h

theorem filteredStep_of_object
    (hobj : (dirObjectsOf pre forward entries).contains (n ++ [47]) = false)
    {data : Bytes} (hmeta : metadataOf sub = some data) :
    filteredStep trimData o current pre forward entries (n ++ [47]) =
      ⟨pathText cs ++ n ++ [47], [⟨pathText cs ++ n ++ [47], data⟩], none⟩ := by
  rw [filteredStep, scanStep_of_skipped hp.folder.names hp.components hp.path h hobj, stepOf_of_object hmeta]

theorem filteredStep_of_folder
    (hobj : (dirObjectsOf pre forward entries).contains (n ++ [47]) = false) (hsub : Folder sub) :
    filteredStep trimData o current pre forward entries (n ++ [47]) =
      if (sub.lookup xlStorageFormatFile).isSome || sub.isEmpty then ⟨pathText cs ++ n ++ [47], [], none⟩
      else ⟨pathText cs ++ n ++ [47], [], some ⟨pathText cs ++ n ++ [47] ++ [47],
        ⟨pathText cs ++ n ++ [47] ++ [47], []⟩ :: blockOf trimData o sub (pathText cs ++ n ++ [47] ++ [47])⟩⟩ := by
  rw [filteredStep, scanStep_of_skipped hp.folder.names hp.components hp.path h hobj, stepOf_of_folder hsub,
    Bool.not_true, Bool.or_false]

theorem under_of_seen
    (hseen : skipped pre forward (n ++ [47]) = false)
    (hblock : Folder sub → ∀ x ∈ blockOf trimData o sub (pathText cs ++ n ++ [47]),
      ∃ t, x.name = pathText cs ++ n ++ [47] ++ t) {x : MetaCacheEntry}
    (hx : x ∈ (filteredStep trimData o current pre forward entries (decodeDirObject n)).all) :
    ∃ t, t ≠ [] ∧ x.name = pathText cs ++ t := by
  unfold filteredStep at hx
  have hn := hp.folder.names.component _ h
  rcases hp.folder.child h with ⟨data, hobj⟩ | hsub
  · rw [scanStep_of_object hp h hseen hobj, all_out] at hx
    rw [mem_singleton.mp hx]
    exact ⟨_, decodeDirObject_ne_nil hn.ne, rfl⟩
  · rw [scanStep_of_folder hp h hseen hsub] at hx
    split_ifs at hx
    · cases hx
    · rw [all_later] at hx
      rcases mem_cons.mp hx with rfl | hx
      · exact ⟨n ++ [47], by simp, by simp⟩
      · obtain ⟨t, ht⟩ := hblock hsub x hx
        exact ⟨n ++ [47] ++ t, by simp, by simp [ht]⟩

end

theorem scan_under (trimData : Bytes → Bytes) (o : WalkDirOptions) (entries : Dir) :
    ∀ cs pre forward current, Spot entries cs current →
      ∀ x ∈ (dir entries).scan trimData o current pre forward, ∃ t, t ≠ [] ∧ x.name = pathText cs ++ t := by
  induction entries using dir_induction with
  | h entries ih =>
    intro cs pre forward current hp x hx
    rw [(scan_perm trimData o pre forward hp).mem_iff, mem_flatMap] at hx
    obtain ⟨e, hmem, hx⟩ := hx
    obtain ⟨n, sub, rfl⟩ := hp.folder.entry hmem
    -- A folder is walked under its name with one slash or two.
    have hblock : ∀ n sub, (n, dir sub) ∈ entries → ∀ s : Bytes, s = [] ∨ s = [47] → Folder sub →
        ∀ x ∈ blockOf trimData o sub (pathText cs ++ n ++ [47] ++ s),
          ∃ t, x.name = pathText cs ++ n ++ [47] ++ t := by
      intro n sub hmem s hs hsub x hx
      rw [← pathText_concat] at hx ⊢
      unfold blockOf at hx
      split_ifs at hx
      · obtain ⟨t, -, ht⟩ := ih n sub hmem _ _ _ _ (hp.child hmem hsub hs) x hx
        exact ⟨t, ht⟩
      · cases hx
    have hseenBlock : ∀ n sub, (n, dir sub) ∈ entries → Folder sub →
        ∀ x ∈ blockOf trimData o sub (pathText cs ++ n ++ [47]), ∃ t, x.name = pathText cs ++ n ++ [47] ++ t := by
      intro n sub hmem hsub x hx
      rw [← append_nil (pathText cs ++ n ++ [47])] at hx
      exact hblock n sub hmem [] (.inl rfl) hsub x hx
    cases hs : skipped pre forward (n ++ [47]) with
    | false =>
      rw [textOf_of_seen hs] at hx
      exact under_of_seen hp hmem hs (hseenBlock n sub hmem) hx
    | true =>
      rw [textOf_of_skipped hs] at hx
      cases hobj : (dirObjectsOf pre forward entries).contains (n ++ [47]) with
      | true =>
        obtain ⟨sub', hmem', hseen⟩ := (contains_dirObjectsOf_iff hp.folder).mp hobj
        rw [← decodeDirObject_suffix] at hx
        exact under_of_seen hp hmem' hseen (hseenBlock _ sub' hmem') hx
      | false =>
        rcases hp.folder.child hmem with ⟨data, hdata⟩ | hsub
        · rw [filteredStep_of_object hp hmem hobj hdata.metadata, all_out] at hx
          rw [mem_singleton.mp hx]
          exact ⟨n ++ [47], by simp, by simp⟩
        · rw [filteredStep_of_folder hp hmem hobj hsub] at hx
          split_ifs at hx
          · cases hx
          · rw [all_later] at hx
            rcases mem_cons.mp hx with rfl | hx
            · exact ⟨n ++ [47, 47], by simp, by simp⟩
            · obtain ⟨t, ht⟩ := hblock n sub hmem [47] (.inr rfl) hsub x hx
              exact ⟨n ++ [47] ++ t, by simp, by simp [ht]⟩

/-! ## Sound filtered walks -/

/-- A name without a doubled slash. -/
def Clean (name : Bytes) : Prop := ¬ [47, 47] <:+: name

/-- A scan emits objects of the directory only, each once, and no doubled slashes. -/
structure Sound (entries : Dir) (text : Bytes) (out : List MetaCacheEntry) : Prop where
  clean : ∀ x ∈ out, Clean x.name
  nodup : (out.filter isObject).Nodup
  shown : ∀ x ∈ out, x.isObject = true → x ∈ shownIn entries text

section Sound

theorem Folder.isObject_of_metadata (hf : Folder entries) (h : (n, .dir sub) ∈ entries)
    (hmeta : metadataOf sub ≠ none) : ∃ data, IsObject n sub data := by
  rcases hf.child h with hobj | hsub
  · exact hobj
  · exact absurd hsub.metadataOf_eq hmeta

variable (hs : Sound entries (pathText cs) ((dir entries).scan trimData o current pre forward))
  (hp : Spot entries cs current)

include hs hp

theorem Sound.disjoint {m : Bytes} {sub' : Dir} (h : (n, .dir sub) ∈ entries) (h' : (m, .dir sub') ∈ entries)
    (hne : n ≠ m) {x : MetaCacheEntry} (hobj : x.isObject = true)
    (hx : x ∈ (filteredStep trimData o current pre forward entries (textOf pre forward n)).all)
    (hx' : x ∈ (filteredStep trimData o current pre forward entries (textOf pre forward m)).all) : False := by
  have hnodup := hs.nodup
  rw [((scan_perm trimData o pre forward hp).filter _).nodup_iff, filter_flatMap, nodup_flatMap] at hnodup
  have hsymm : Std.Symm (Function.onFun List.Disjoint fun e : Bytes × Node =>
      (filteredStep trimData o current pre forward entries (textOf pre forward e.1)).all.filter
        isObject) := ⟨fun _ _ hd => hd.symm⟩
  exact hnodup.2.forall h h' (fun heq => hne (congrArg Prod.fst heq)) (mem_filter.mpr ⟨hx, hobj⟩)
    (mem_filter.mpr ⟨hx', hobj⟩)

theorem Sound.alone (h : (n, .dir sub) ∈ entries) (hskip : skipped pre forward (n ++ [47]) = true) {sub' : Dir}
    (h' : (n ++ globalDirSuffix, .dir sub') ∈ entries)
    (hseen : skipped pre forward (n ++ globalDirSuffix ++ [47]) = false) : metadataOf sub' = none := by
  by_contra hmeta
  obtain ⟨data, hobj⟩ := hp.folder.isObject_of_metadata h' hmeta
  have hne : n ≠ n ++ globalDirSuffix := by
    intro heq
    have hlen := congrArg List.length heq
    rw [length_append] at hlen
    have hsuffix : globalDirSuffix.length = 9 := rfl
    omega
  -- Both steps are that of the directory object.
  have hstep : filteredStep trimData o current pre forward entries (n ++ [47]) =
      ⟨pathText cs ++ (n ++ [47]), [⟨pathText cs ++ (n ++ [47]), data⟩], none⟩ := by
    have hobject := @scanStep_of_object trimData o entries sub' _ current pre forward cs hp h' hseen
      data hobj
    rwa [decodeDirObject_suffix] at hobject
  refine hs.disjoint (x := ⟨pathText cs ++ (n ++ [47]), data⟩) hp h h' hne (isObject_of_ne hobj.ne) ?_ ?_
  · rw [textOf_of_skipped hskip, hstep, all_out]
    exact mem_singleton_self _
  · rw [textOf_of_seen hseen, decodeDirObject_suffix, hstep, all_out]
    exact mem_singleton_self _

omit hs hp

end Sound

end Scans

/-! ## Clean names -/

section CleanNames

variable {cs : List Bytes} {t : Bytes}

end CleanNames

/-! ## The walk of a base directory -/

/-- The directory object that the base directory is. -/
def baseObject (trimData : Bytes → Bytes) (o : WalkDirOptions) (root : Dir) : List MetaCacheEntry :=
  match if slashSeparator.isSuffixOf o.baseDir then
      Dir.at root (pathParts (o.baseDir.dropLast ++ globalDirSuffix) ++ [xlStorageFormatFile])
    else none with
  | some (.file data) => [⟨o.baseDir, trimData data⟩]
  | _ => []

/-- The base directory of a walk: a directory of objects and folders, with or without a slash at its end. -/
structure Base (root : Dir) (o : WalkDirOptions) (cs : List Bytes) (entries : Dir) : Prop where
  components : ∀ c ∈ cs, Component c
  baseDir : o.baseDir = pathText cs ∨ o.baseDir ++ [47] = pathText cs
  dir : Dir.at root cs = some (.dir entries)
  folder : Folder entries

section Base

variable {trimData : Bytes → Bytes} {root entries : Dir} {o : WalkDirOptions} {cs : List Bytes}

theorem Dir.at_concat (root : Dir) (cs : List Bytes) (n : Bytes) {entries : Dir}
    (h : Dir.at root cs = some (.dir entries)) : Dir.at root (cs ++ [n]) = entries.lookup n := by
  induction cs generalizing root with
  | nil =>
    obtain rfl := dir.inj (Option.some.inj h)
    rfl
  | cons c cs ih =>
    -- A directory is where the next part is looked up, whether it is reached at the end or before it.
    obtain ⟨sub, hl, hsub⟩ : ∃ sub, root.lookup c = some (.dir sub) ∧ Dir.at sub cs = some (.dir entries) := by
      cases cs with
      | nil => exact ⟨entries, h, rfl⟩
      | cons d cs =>
        rcases hl : root.lookup c with _ | ⟨_ | sub⟩
        · simp [Dir.at, hl] at h
        · simp [Dir.at, hl] at h
        · refine ⟨sub, rfl, ?_⟩
          rw [Dir.at, hl] at h
          · exact h
          · simp
    rw [cons_append, Dir.at, hl]
    · exact ih sub hsub
    · simp

section

variable (h : Base root o cs entries)
include h

theorem Base.stem (hb : o.baseDir ++ [47] = pathText cs) :
    ∃ init n, cs = init ++ [n] ∧ o.baseDir = pathText init ++ n := by
  rcases eq_nil_or_concat cs with rfl | ⟨init, n, rfl⟩
  · exact absurd hb (by simp [pathText])
  · rw [concat_eq_append, pathText_concat] at hb
    exact ⟨init, n, concat_eq_append, append_cancel_right hb⟩

theorem Base.pathParts_eq : pathParts o.baseDir = cs := by
  rcases h.baseDir with hb | hb
  · rw [hb, ← append_nil (pathText cs), pathParts_pathText h.components]
    simp [pathParts]
  · obtain ⟨init, n, rfl, hbase⟩ := h.stem hb
    have hn := h.components n (by simp)
    rw [hbase, pathParts_pathText fun c hc => h.components c (mem_append_left _ hc), pathParts_name hn.ne hn.slash]

theorem Base.head?_ne : o.baseDir.head? ≠ some 47 := by
  by_cases hne : cs = []
  · rcases h.baseDir with hb | hb
    · simp [hb, hne, pathText]
    · simp [hne, pathText] at hb
  · rcases h.baseDir with hb | hb
    · simpa [hb] using head?_pathText h.components [] hne
    · have hhead := head?_pathText h.components [] hne
      rw [append_nil, ← hb] at hhead
      cases hbase : o.baseDir with
      | nil => simp
      | cons c l => simpa [hbase] using hhead

theorem Base.at : At o.baseDir cs := by
  rcases h.baseDir with hb | hb
  · rw [hb]
    exact at_pathText h.components
  · refine .inr ⟨?_, h.head?_ne, fun s => ?_⟩
    · obtain ⟨init, n, rfl, hbase⟩ := h.stem hb
      rw [hbase]
      simp [(h.components n (by simp)).ne]
    · have hsplit : o.baseDir ++ 47 :: s = pathText cs ++ s := by
        rw [← hb]
        simp
      rw [hsplit, pathParts_pathText h.components]

theorem Base.valid : validStoragePath o.baseDir = true := by
  have hvalid := valid_pathText h.components [] (.inl rfl)
  rw [append_nil] at hvalid
  rcases h.baseDir with hb | hb
  · rwa [hb]
  · have hmem : ∀ b, b ∈ o.baseDir → b ∈ pathText cs := fun b hm => hb ▸ mem_append_left _ hm
    have hparts : pathParts (pathText cs) = cs := by
      have := pathParts_pathText h.components []
      simpa [pathParts] using this
    simp only [validStoragePath, Bool.and_eq_true, decide_eq_true_eq, Bool.not_eq_true',
      contains_eq_mem, decide_eq_false_iff_not, h.pathParts_eq, hparts] at hvalid ⊢
    exact ⟨⟨⟨h.head?_ne, fun hm => hvalid.1.1.2 (hmem _ hm)⟩, fun hm => hvalid.1.2 (hmem _ hm)⟩, hvalid.2⟩

theorem Base.spot : Spot entries cs o.baseDir := ⟨h.folder, h.components, h.at, h.valid⟩

end

/-- A walk emits the directory object that the base directory is, and the scan of the directory. -/
theorem walkDir_eq (trimData : Bytes → Bytes) (h : Base root o cs entries) :
    (walkDir trimData o root).1 = baseObject trimData o root ++
      (dir entries).scan trimData o o.baseDir o.filterPrefix o.forwardTo := by
  have hfile : ∀ data, Dir.at root (cs ++ [xlStorageFormatFile]) ≠ some (.file data) := by
    intro data hat
    rw [Dir.at_concat root cs _ h.dir] at hat
    obtain ⟨sub, hsub⟩ := h.folder.dirs _ (mem_of_lookup hat)
    cases hsub
  have hobject : ∀ data, (if slashSeparator.isSuffixOf o.baseDir then
      Dir.at root (cs ++ [xlStorageFormatFile]) else none) ≠ some (.file data) := by
    intro data
    split_ifs
    · exact hfile data
    · simp
  unfold walkDir
  rw [if_neg (by simp [h.valid]), h.pathParts_eq]
  dsimp only
  generalize (if slashSeparator.isSuffixOf o.baseDir then Dir.at root (cs ++ [xlStorageFormatFile])
    else none) = found at hobject ⊢
  rcases found with _ | data | sub
  · rw [Bool.and_false, if_neg Bool.false_ne_true, h.dir]
    rfl
  · exact absurd rfl (hobject data)
  · rw [Bool.and_false, if_neg Bool.false_ne_true, h.dir]
    rfl

theorem mem_baseObject {x : MetaCacheEntry} (h : Base root o cs entries) (hx : x ∈ baseObject trimData o root) :
    x.name = pathText cs := by
  have hslash : slashSeparator.isSuffixOf o.baseDir = true := by
    by_contra hnot
    rw [baseObject, if_neg hnot] at hx
    cases hx
  have hname : x.name = o.baseDir := by
    unfold baseObject at hx
    split at hx
    · rw [mem_singleton.mp hx]
    · cases hx
  rcases h.baseDir with hb | hb
  · rw [hname, hb]
  · obtain ⟨init, n, rfl, hbase⟩ := h.stem hb
    have hn := h.components n (by simp)
    rw [isSuffixOf_iff_suffix, hbase] at hslash
    obtain ⟨m, c, rfl⟩ := (eq_nil_or_concat n).resolve_left hn.ne
    obtain ⟨r, hr⟩ := hslash
    rw [concat_eq_append, ← append_assoc] at hr
    obtain rfl : 47 = c := by simpa using (append_inj' hr rfl).2
    exact absurd (by simp) hn.slash

/-- The name starts with the base directory and the filter, and is not before the one to forward to. -/
def WalkDirOptions.admits (o : WalkDirOptions) (cs : List Bytes) (x : MetaCacheEntry) : Bool :=
  (pathText cs ++ o.filterPrefix).isPrefixOf x.name && !decide (x.name < o.forwardTo)

/-- The filtered walk emits the objects of the walk without a filter that the filter admits, and no doubled
slashes. -/
structure FilteredWalk (trimData : Bytes → Bytes) (o : WalkDirOptions) (cs : List Bytes) (root : Dir) : Prop where
  objects : (walkDir trimData o root).1.filter isObject =
    ((walkDir trimData o.unfiltered root).1.filter isObject).filter (o.admits cs)
  clean : ∀ x ∈ (walkDir trimData o root).1, Clean x.name

theorem Base.unfiltered (h : Base root o cs entries) : Base root o.unfiltered cs entries :=
  ⟨h.components, h.baseDir, h.dir, h.folder⟩

theorem Base.walked (h : Base root o cs entries) (trimData : Bytes → Bytes) (hrec : o.recursive = true) :
    Walked entries (pathText cs) ((Node.dir entries).scan trimData o.unfiltered o.baseDir [] []) := by
  have hrec' : o.unfiltered.recursive = true := hrec
  exact scan_walked hrec' rfl entries cs _ h.spot

theorem nodup_walkDir (trimData : Bytes → Bytes) (hrec : o.recursive = true) (h : Base root o cs entries) :
    ((walkDir trimData o.unfiltered root).1.filter isObject).Nodup := by
  have hwalked := h.walked trimData hrec
  rw [walkDir_eq trimData h.unfiltered, filter_append, nodup_append]
  refine ⟨?_, hwalked.objects.nodup_iff.mpr (nodup_shownIn entries _ h.folder), ?_⟩
  · apply List.Nodup.filter
    unfold baseObject
    split
    · exact nodup_singleton _
    · exact nodup_nil
  · rintro x hx y hy rfl
    obtain ⟨t, ht, hname⟩ := scan_under trimData o.unfiltered entries cs _ _ _ h.spot x
      (mem_filter.mp hy).1
    rw [mem_baseObject h.unfiltered (mem_filter.mp hx).1] at hname
    exact ht (append_right_eq_self.mp hname.symm)

theorem FilteredWalk.sound (hw : FilteredWalk trimData o cs root) (hrec : o.recursive = true)
    (h : Base root o cs entries) :
    Sound entries (pathText cs)
      ((dir entries).scan trimData o o.baseDir o.filterPrefix o.forwardTo) := by
  have hmem : ∀ x ∈ (dir entries).scan trimData o o.baseDir o.filterPrefix o.forwardTo,
      x ∈ (walkDir trimData o root).1 := by
    intro x hx
    rw [walkDir_eq trimData h]
    exact mem_append_right _ hx
  have hwalked := h.walked trimData hrec
  refine ⟨fun x hx => hw.clean x (hmem x hx), ?_, fun x hx hobj => ?_⟩
  · have hnodup : ((walkDir trimData o root).1.filter isObject).Nodup := by
      rw [hw.objects]
      exact (nodup_walkDir trimData hrec h).filter _
    rw [walkDir_eq trimData h, filter_append] at hnodup
    exact hnodup.of_append_right
  · have hin : x ∈ (walkDir trimData o root).1.filter isObject := mem_filter.mpr ⟨hmem x hx, hobj⟩
    rw [hw.objects] at hin
    have hun := (mem_filter.mp (mem_filter.mp hin).1).1
    rw [walkDir_eq trimData h.unfiltered, mem_append] at hun
    rcases hun with hbase | hscan
    · obtain ⟨t, ht, hname⟩ := scan_under trimData o entries cs _ _ _ h.spot x hx
      rw [mem_baseObject h.unfiltered hbase] at hname
      exact absurd (append_right_eq_self.mp hname.symm) ht
    · exact hwalked.objects.mem_iff.mp (mem_filter.mpr ⟨hscan, hobj⟩)

end Base

end Otterio.Listing
