import Otterio.Listing.Entry

/-!
# Merging the streams of the drives

`listPathRaw` (`cmd/metacache-set.go`) reads the streams of several drives side by side. In each round
it looks at the next entry of every drive, takes the entries with the smallest name and calls back with
them: `agreed` if every drive has the entry and all of them match, `partial` otherwise.

* `look`: one drive of a round, and `round`, all of them.
* `rawLoop_spec`: the callbacks of a run. The entries of a round are removed, so that the rest of the
  run is about larger names only.
-/

namespace Otterio

open List

namespace Err

def errNoDrives : Error := .other 27

def errCombined : Error := .other 28

end Err

namespace Listing

open Err

/-- `metacacheReader`: the entries that are left, and the error at the end. -/
structure MetacacheReader where
  entries : List MetaCacheEntry
  err : Error := eof

def MetacacheReader.peek (r : MetacacheReader) : Except Error MetaCacheEntry :=
  match r.entries with
  | [] => .error r.err
  | e :: _ => .ok e

def MetacacheReader.skip (r : MetacacheReader) : MetacacheReader := { r with entries := r.entries.tail }

/-- `matches`, of an entry of the drive `i` and one of the drive `j`. The drives may fail to decode
the same metadata with different errors. -/
def entriesMatch (dec : Nat → MetaDecoder) (i : Nat) (e : MetaCacheEntry) (j : Nat) (other : MetaCacheEntry) : Bool :=
  if e.metadata.length ≠ other.metadata.length ∨ e.name ≠ other.name then false
  else
    match e.fileInfo (dec i), other.fileInfo (dec j) with
    | .ok eFi, .ok oFi =>
      eFi.modTime = oFi.modTime ∧ eFi.size = oFi.size ∧ eFi.versionID = oFi.versionID
    | .error eErr, .error oErr => eErr = oErr
    | _, _ => false

/-- The variables of a round. The entries and errors are those of the drives before the one at hand;
`disk` is the drive of the current entry. -/
structure Round where
  current : MetaCacheEntry := .zero
  disk : Nat := 0
  atEOF : Nat := 0
  fnf : Nat := 0
  hasErr : Nat := 0
  agree : Nat := 0
  topEntries : List MetaCacheEntry := []
  errs : List (Option Error) := []

variable (dec : Nat → MetaDecoder)

/-- A drive in a round; `err` is its error of an earlier round. -/
def look (s : Round) (r : MetacacheReader) (err : Option Error) : Round :=
  let i := s.topEntries.length
  let blank := { s with topEntries := s.topEntries ++ [.zero], errs := s.errs ++ [err] }
  let found (entry : MetaCacheEntry) := { s with topEntries := s.topEntries ++ [entry], errs := s.errs ++ [err] }
  match err with
  | some _ => { blank with hasErr := s.hasErr + 1 }
  | none =>
    match r.peek with
    | .error e =>
      if e = eof then { blank with atEOF := s.atEOF + 1 }
      else if e = errFileNotFound ∨ e = errVolumeNotFound then
        { blank with atEOF := s.atEOF + 1, fnf := s.fnf + 1 }
      else { blank with hasErr := s.hasErr + 1, errs := s.errs ++ [some e] }
    | .ok entry =>
      if s.current.name = [] then
        { found entry with current := entry, disk := i, agree := s.agree + 1 }
      else if entriesMatch dec s.disk s.current i entry then
        { found entry with agree := s.agree + 1 }
      else if entry.name = s.current.name then found entry
      else if entry.name > s.current.name then blank
      else
        { found entry with
          topEntries := s.topEntries.map (fun _ => .zero) ++ [entry]
          agree := 1
          current := entry
          disk := i }

def round (readers : List MetacacheReader) (errs : List (Option Error)) : Round :=
  (readers.zip errs).foldl (fun s p => look dec s p.1 p.2) {}

inductive Callback where
  | agreed (entry : MetaCacheEntry)
  | partialResult (entries : List MetaCacheEntry) (nAgreed : Nat) (errs : List (Option Error))
  | finished (errs : List (Option Error))

/-- The rounds of `listPathRaw`, with the calls made so far. The outer `none` stands for fuel that ran
out. -/
def rawLoop (minDisks : Int) : Nat → List MetacacheReader → List (Option Error) → List Callback →
    Option (List Callback × Option Error)
  | 0, _, _, _ => none
  | fuel + 1, readers, errs, calls =>
    let s := round dec readers errs
    if (s.hasErr : Int) > readers.length - minDisks ∧ s.hasErr > 0 then
      some (calls ++ [.finished s.errs], some errCombined)
    else if s.atEOF + s.hasErr = readers.length then
      some (if s.hasErr > 0 then calls ++ [.finished s.errs] else calls, none)
    else if s.fnf = readers.length then some (calls, some errFileNotFound)
    else if s.agree = readers.length then
      rawLoop minDisks fuel (readers.map (·.skip)) s.errs (calls ++ [.agreed s.current])
    else
      rawLoop minDisks fuel
        (zipWith (fun r e => if e.name ≠ [] then r.skip else r) readers s.topEntries) s.errs
        (calls ++ [.partialResult s.topEntries s.agree s.errs])

def entriesLeft (readers : List MetacacheReader) : Nat := (readers.map (·.entries.length)).sum

/-- `listPathRaw`: every round removes an entry, so that the fuel is enough. -/
def listPathRaw (minDisks : Int) (disks : List MetacacheReader) : Option (List Callback × Option Error) :=
  if disks.length = 0 then some ([], some errNoDrives)
  else rawLoop dec minDisks (entriesLeft disks + 1) disks (disks.map fun _ => none) []

/-! ## A round -/

/-- A stream without errors: ascending names that are not empty. -/
structure MetacacheReader.Clean (r : MetacacheReader) : Prop where
  ascending : Ascending r.entries
  named : ∀ e ∈ r.entries, e.name ≠ []
  err : r.err = eof

/-- The next entry of a stream if it has the name, the empty entry otherwise. -/
def headAt (n : Bytes) (r : MetacacheReader) : MetaCacheEntry :=
  match r.entries with
  | [] => .zero
  | e :: _ => if e.name = n then e else .zero

/-- The next entry of the drive `j` matches an entry of the drive `i`. -/
def headMatches (i : Nat) (e : MetaCacheEntry) (p : MetacacheReader × Nat) : Bool :=
  match p.1.entries with
  | [] => false
  | other :: _ => entriesMatch dec i e p.2 other

variable {dec} {readers : List MetacacheReader} {r : MetacacheReader} {s : Round}

theorem entriesMatch_self (i : Nat) (e : MetaCacheEntry) : entriesMatch dec i e i e = true := by
  unfold entriesMatch
  cases e.fileInfo (dec i) <;> simp

variable {e : MetaCacheEntry}

theorem name_eq_of_entriesMatch {i j : Nat} {other : MetaCacheEntry} (h : entriesMatch dec i e j other = true) :
    other.name = e.name := by
  unfold entriesMatch at h
  split at h
  · cases h
  · rename_i hne
    exact (not_or.mp hne).2 |> not_not.mp |>.symm

variable (dec) in
/-- The current entry is the one with the smallest name of the first drive that has it. -/
structure Found (readers : List MetacacheReader) (s : Round) : Prop where
  named : s.current.name ≠ []
  holder : ∃ r rest, readers[s.disk]? = some r ∧ r.entries = s.current :: rest
  smallest : ∀ r ∈ readers, ∀ e ∈ r.entries.head?, ¬ e.name < s.current.name
  before : ∀ i r, i < s.disk → readers[i]? = some r → (headAt s.current.name r).name = []
  top : s.topEntries = readers.map (headAt s.current.name)
  agree : s.agree = readers.zipIdx.countP (headMatches dec s.disk s.current)

variable (dec) in
/-- What a round has found out about drives without errors. -/
structure RoundOk (readers : List MetacacheReader) (s : Round) : Prop where
  fnf : s.fnf = 0
  hasErr : s.hasErr = 0
  errs : s.errs = readers.map fun _ => none
  atEOF : s.atEOF = readers.countP fun r => r.entries.isEmpty
  length : s.topEntries.length = readers.length
  found : ((∀ r ∈ readers, r.entries = []) ∧ s.current.name = [] ∧ s.agree = 0 ∧
    s.topEntries = readers.map fun _ => .zero) ∨ Found dec readers s

theorem Found.disk_lt (h : Found dec readers s) : s.disk < readers.length := by
  obtain ⟨r, rest, hr, -⟩ := h.holder
  exact (List.getElem?_eq_some_iff.mp hr).1

theorem headAt_eq_zero {n : Bytes} (h : ∀ e ∈ r.entries.head?, e.name ≠ n) : headAt n r = .zero := by
  unfold headAt
  split
  · rfl
  · rename_i e _ hr
    rw [if_neg (h e (by rw [hr]; rfl))]

theorem headMatches_eq_false {i j : Nat} (h : ∀ e' ∈ r.entries.head?, e'.name ≠ e.name) :
    headMatches dec i e (r, j) = false := by
  unfold headMatches
  split
  · rfl
  · rename_i other _ hr
    rw [Bool.eq_false_iff]
    exact fun hm => h other (by rw [show r.entries = _ from hr]; rfl) (name_eq_of_entriesMatch hm)

variable {s' : Round}

theorem Found.append (h : Found dec readers s) (hr : ∀ e ∈ r.entries.head?, ¬ e.name < s.current.name)
    (hcurrent : s'.current = s.current) (hdisk : s'.disk = s.disk)
    (hagree : s'.agree = s.agree + if headMatches dec s.disk s.current (r, readers.length) then 1 else 0)
    (htop : s'.topEntries = s.topEntries ++ [headAt s.current.name r]) : Found dec (readers ++ [r]) s' := by
  constructor
  · rw [hcurrent]
    exact h.named
  · obtain ⟨r', rest', hr', hrest⟩ := h.holder
    rw [hcurrent, hdisk, getElem?_append_left h.disk_lt]
    exact ⟨r', rest', hr', hrest⟩
  · rw [hcurrent]
    exact forall_mem_append.mpr ⟨h.smallest, forall_mem_singleton.mpr hr⟩
  · intro i r' hi hr'
    rw [hdisk] at hi
    rw [getElem?_append_left (hi.trans h.disk_lt)] at hr'
    rw [hcurrent]
    exact h.before i r' hi hr'
  · rw [htop, h.top, hcurrent, map_append, map_singleton]
  · rw [hagree, h.agree, hcurrent, hdisk, zipIdx_append, countP_append,
      zipIdx_singleton, countP_singleton, Nat.zero_add]

theorem Found.blank (h : Found dec readers s) (hr : ∀ e ∈ r.entries.head?, s.current.name < e.name)
    (hcurrent : s'.current = s.current) (hdisk : s'.disk = s.disk) (hagree : s'.agree = s.agree)
    (htop : s'.topEntries = s.topEntries ++ [.zero]) : Found dec (readers ++ [r]) s' := by
  have hne : ∀ e ∈ r.entries.head?, e.name ≠ s.current.name := fun e he => (hr e he).ne'
  refine h.append (fun e he => lt_asymm (hr e he)) hcurrent hdisk ?_ ?_
  · rw [hagree, headMatches_eq_false hne]
    rfl
  · rw [htop, headAt_eq_zero hne]

variable {rest : List MetaCacheEntry}

theorem headAt_of_cons (hr : r.entries = e :: rest) : headAt e.name r = e := by
  rw [headAt, hr]
  exact if_pos rfl

theorem Found.same (h : Found dec readers s) (hr : r.entries = e :: rest) (hname : e.name = s.current.name)
    (hcurrent : s'.current = s.current) (hdisk : s'.disk = s.disk)
    (hagree : s'.agree = s.agree + if entriesMatch dec s.disk s.current readers.length e then 1 else 0)
    (htop : s'.topEntries = s.topEntries ++ [e]) : Found dec (readers ++ [r]) s' := by
  refine h.append ?_ hcurrent hdisk ?_ ?_
  · intro e' he'
    rw [hr] at he'
    rw [← Option.some.inj he', hname]
    exact lt_irrefl _
  · rw [hagree, headMatches]
    simp only [hr]
  · rw [htop, ← hname, headAt_of_cons hr]

theorem Found.fresh (hr : r.entries = e :: rest) (hnamed : e.name ≠ [])
    (hlarger : ∀ r' ∈ readers, ∀ e' ∈ r'.entries.head?, e.name < e'.name) (hcurrent : s'.current = e)
    (hdisk : s'.disk = readers.length) (hagree : s'.agree = 1)
    (htop : s'.topEntries = readers.map (fun _ => .zero) ++ [e]) : Found dec (readers ++ [r]) s' := by
  have hne : ∀ r' ∈ readers, ∀ e' ∈ r'.entries.head?, e'.name ≠ e.name :=
    fun r' hr' e' he' => (hlarger r' hr' e' he').ne'
  have hmatches : headMatches dec readers.length e (r, readers.length) = true := by
    rw [headMatches]
    simp only [hr, entriesMatch_self]
  have hcount : readers.zipIdx.countP (headMatches dec readers.length e) = 0 := by
    rw [countP_eq_zero]
    rintro ⟨r', j⟩ hmem
    rw [headMatches_eq_false (hne r' (fst_mem_of_mem_zipIdx hmem))]
    exact Bool.false_ne_true
  constructor
  · rw [hcurrent]
    exact hnamed
  · refine ⟨r, rest, ?_, by rw [hr, hcurrent]⟩
    rw [hdisk, getElem?_append_right (le_refl _), Nat.sub_self]
    rfl
  · intro r' hr' e' he'
    rw [hcurrent]
    rcases mem_append.mp hr' with hr' | hr'
    · exact lt_asymm (hlarger r' hr' e' he')
    · rw [mem_singleton.mp hr', hr] at he'
      rw [← Option.some.inj he']
      exact lt_irrefl _
  · intro i r' hi hr'
    rw [hdisk] at hi
    rw [getElem?_append_left hi] at hr'
    rw [hcurrent, headAt_eq_zero (hne r' (mem_of_getElem? hr'))]
    rfl
  · rw [htop, hcurrent, map_append, map_singleton, headAt_of_cons hr]
    congr 1
    exact map_congr_left fun r' hr' => (headAt_eq_zero (hne r' hr')).symm
  · rw [hagree, hcurrent, hdisk, zipIdx_append, countP_append, zipIdx_singleton,
      countP_singleton, Nat.zero_add, hmatches, hcount]
    rfl

theorem RoundOk.look (h : RoundOk dec readers s) (hr : r.Clean) :
    RoundOk dec (readers ++ [r]) (look dec s r none) := by
  have herrs : s.errs ++ [none] = (readers ++ [r]).map fun _ => none := by
    rw [h.errs, map_append, map_singleton]
  have hlength : s.topEntries.length + 1 = (readers ++ [r]).length := by
    rw [h.length, length_append, length_singleton]
  unfold Listing.look MetacacheReader.peek
  cases hentries : r.entries with
  | nil =>
    simp only [hr.err, if_true]
    refine ⟨h.fnf, h.hasErr, herrs, ?_, by simpa using hlength, ?_⟩
    · simp [h.atEOF, countP_append, hentries]
    · rcases h.found with ⟨hnone, hcurrent, hagree, htop⟩ | hfound
      · exact .inl ⟨forall_mem_append.mpr ⟨hnone, forall_mem_singleton.mpr hentries⟩, hcurrent, hagree,
          by rw [htop, map_append, map_singleton]⟩
      · exact .inr (hfound.blank (by simp [hentries]) rfl rfl rfl rfl)
  | cons e rest =>
    have hnamed := hr.named e (by rw [hentries]; exact mem_cons_self)
    have hatEOF : s.atEOF = (readers ++ [r]).countP fun r => r.entries.isEmpty := by
      simp [h.atEOF, countP_append, hentries]
    simp only
    rcases h.found with ⟨hnone, hcurrent, hagree, htop⟩ | hfound
    · rw [if_pos hcurrent]
      refine ⟨h.fnf, h.hasErr, herrs, hatEOF, by simpa using hlength, .inr ?_⟩
      refine Found.fresh hentries hnamed ?_ rfl h.length (by simp [hagree]) (by simp [htop])
      intro r' hr' e' he'
      rw [hnone r' hr'] at he'
      cases he'
    · rw [if_neg hfound.named]
      split_ifs with hmatch hname hlater <;>
        refine ⟨h.fnf, h.hasErr, herrs, hatEOF, by simpa using hlength, .inr ?_⟩
      · -- the entry matches the current one
        refine hfound.same hentries (name_eq_of_entriesMatch hmatch) rfl rfl ?_ rfl
        rw [← h.length, if_pos hmatch]
      · -- only its name is the same
        refine hfound.same hentries hname rfl rfl ?_ rfl
        rw [← h.length, if_neg hmatch, Nat.add_zero]
      · -- it comes later
        refine hfound.blank (fun e' he' => ?_) rfl rfl rfl rfl
        rw [hentries] at he'
        exact Option.some.inj he' ▸ hlater
      · -- it is the better current one
        have hsmaller : e.name < s.current.name := lt_of_le_of_ne (not_lt.mp hlater) hname
        refine Found.fresh hentries hnamed (fun r' hr' e' he' => ?_) rfl h.length rfl ?_
        · exact lt_of_lt_of_le hsmaller (not_lt.mp (hfound.smallest r' hr' e' he'))
        · rw [hfound.top, map_map]
          rfl

theorem round_ok (h : ∀ r ∈ readers, r.Clean) :
    RoundOk dec readers (round dec readers (readers.map fun _ => none)) := by
  induction readers using reverseRecOn with
  | nil => exact ⟨rfl, rfl, rfl, rfl, rfl, .inl ⟨by simp, rfl, rfl, rfl⟩⟩
  | append_singleton readers r ih =>
    rw [round, map_append, zip_append (by simp), foldl_append]
    exact (ih fun r' hr' => h r' (mem_append_left _ hr')).look
      (h r (mem_append_right _ (mem_singleton_self r)))

/-! ## The entries of a name -/

def entryAt (n : Bytes) (r : MetacacheReader) : MetaCacheEntry := (copy MetaCacheEntry.name n r.entries).getD .zero

/-- The entries of the drives with a name. -/
def entriesAt (readers : List MetacacheReader) (n : Bytes) : List MetaCacheEntry := readers.map (entryAt n)

variable (dec) in
/-- Every drive has an entry with the name, and it matches that of the first drive. -/
def AllMatch (readers : List MetacacheReader) (n : Bytes) : Prop :=
  ∀ i r, readers[i]? = some r → ∃ e ∈ r.entries, e.name = n ∧
    entriesMatch dec 0 ((entriesAt readers n).headD .zero) i e = true

variable (dec) in
/-- The call for a name: `agreed` if all drives have a matching entry, otherwise `partial` with what
they have. -/
def Exact (readers : List MetacacheReader) (n : Bytes) : Callback → Prop
  | .agreed entry => AllMatch dec readers n ∧ entry = (entriesAt readers n).headD .zero
  | .partialResult entries _ errs =>
    ¬ AllMatch dec readers n ∧ entries = entriesAt readers n ∧ errs = readers.map fun _ => none
  | .finished _ => False

def Named (readers : List MetacacheReader) (n : Bytes) : Prop := ∃ r ∈ readers, ∃ e ∈ r.entries, e.name = n

/-- The stream after the entry with a name. -/
def advance (n : Bytes) (r : MetacacheReader) : MetacacheReader :=
  if (headAt n r).name ≠ [] then r.skip else r

section Advance

variable {n m : Bytes}

variable {e : MetaCacheEntry}

theorem MetacacheReader.Clean.head_or_rest (hr : r.Clean) {rest : List MetaCacheEntry}
    (hentries : r.entries = e :: rest) : ∀ e' ∈ rest, e.name < e'.name := by
  have hasc := hr.ascending
  rw [hentries] at hasc
  exact (pairwise_cons.mp hasc).1

theorem MetacacheReader.Clean.mem_iff_head (hr : r.Clean) (hn : ∀ e ∈ r.entries.head?, ¬ e.name < n)
    (hname : e.name = n) : e ∈ r.entries ↔ r.entries.head? = some e := by
  cases hentries : r.entries with
  | nil => simp
  | cons e₀ rest =>
    rw [head?_cons, Option.some.injEq, mem_cons]
    constructor
    · rintro (rfl | he)
      · rfl
      · refine absurd ?_ (hn e₀ (by rw [hentries]; rfl))
        exact hname ▸ hr.head_or_rest hentries e he
    · rintro rfl
      exact .inl rfl

theorem entryAt_of_mem (hr : r.Clean) (he : e ∈ r.entries) : entryAt e.name r = e := by
  rw [entryAt, hr.ascending.copy_eq he]
  rfl

theorem entryAt_eq_zero (h : ∀ e ∈ r.entries, e.name ≠ n) : entryAt n r = .zero := by
  rw [entryAt, copy_eq_none.mpr h]
  rfl

theorem headAt_eq_entryAt (hr : r.Clean) (hn : ∀ e ∈ r.entries.head?, ¬ e.name < n) : headAt n r = entryAt n r := by
  by_cases h : ∃ e ∈ r.entries, e.name = n
  · obtain ⟨e, he, rfl⟩ := h
    obtain ⟨rest, hrest⟩ := head?_eq_some_iff.mp ((hr.mem_iff_head hn rfl).mp he)
    rw [entryAt_of_mem hr he, headAt_of_cons hrest]
  · push Not at h
    rw [entryAt_eq_zero h, headAt_eq_zero fun e he => h e (mem_of_mem_head? he)]

theorem mem_advance (hr : r.Clean) (hn : ∀ e ∈ r.entries.head?, ¬ e.name < n) (hnamed : n ≠ [])
    (e : MetaCacheEntry) : e ∈ (advance n r).entries ↔ e ∈ r.entries ∧ e.name ≠ n := by
  unfold advance
  by_cases h : ∃ e ∈ r.entries, e.name = n
  · obtain ⟨e₀, he₀, rfl⟩ := h
    obtain ⟨rest, hrest⟩ := head?_eq_some_iff.mp ((hr.mem_iff_head hn rfl).mp he₀)
    rw [headAt_of_cons hrest, if_pos hnamed, MetacacheReader.skip, hrest, tail_cons, mem_cons]
    constructor
    · intro he
      exact ⟨.inr he, (hr.head_or_rest hrest e he).ne'⟩
    · rintro ⟨rfl | he, hne⟩
      · exact absurd rfl hne
      · exact he
  · push Not at h
    rw [headAt_eq_zero fun e he => h e (mem_of_mem_head? he), if_neg (by simp [MetaCacheEntry.zero])]
    exact ⟨fun he => ⟨he, h e he⟩, fun he => he.1⟩

theorem advance_sublist (n : Bytes) (r : MetacacheReader) : (advance n r).entries.Sublist r.entries := by
  unfold advance
  split
  · exact tail_sublist _
  · exact Sublist.refl _

theorem MetacacheReader.Clean.advance (hr : r.Clean) (n : Bytes) : (advance n r).Clean where
  ascending := hr.ascending.sublist (advance_sublist n r)
  named e he := hr.named e ((advance_sublist n r).subset he)
  err := by
    unfold Listing.advance
    split <;> exact hr.err

theorem entryAt_advance (hr : r.Clean) (hn : ∀ e ∈ r.entries.head?, ¬ e.name < n) (hnamed : n ≠ [])
    (hm : m ≠ n) : entryAt m (advance n r) = entryAt m r := by
  by_cases h : ∃ e ∈ r.entries, e.name = m
  · obtain ⟨e, he, rfl⟩ := h
    rw [entryAt_of_mem hr he, entryAt_of_mem (hr.advance n) ((mem_advance hr hn hnamed e).mpr ⟨he, hm⟩)]
  · push Not at h
    rw [entryAt_eq_zero h, entryAt_eq_zero fun e he => h e ((advance_sublist n r).subset he)]

end Advance

section Rounds

variable {n m : Bytes}

/-- A name that all the drives have reached, and some of them have. -/
structure Reached (readers : List MetacacheReader) (n : Bytes) : Prop where
  clean : ∀ r ∈ readers, r.Clean
  named : n ≠ []
  smallest : ∀ r ∈ readers, ∀ e ∈ r.entries.head?, ¬ e.name < n
  mem : Named readers n

theorem Found.reached (h : Found dec readers s) (hclean : ∀ r ∈ readers, r.Clean) :
    Reached readers s.current.name := by
  obtain ⟨r, rest, hr, hrest⟩ := h.holder
  refine ⟨hclean, h.named, h.smallest, r, mem_of_getElem? hr, s.current, ?_, rfl⟩
  rw [hrest]
  exact mem_cons_self

theorem Found.top_eq (h : Found dec readers s) (hclean : ∀ r ∈ readers, r.Clean) :
    s.topEntries = entriesAt readers s.current.name := by
  rw [h.top, entriesAt]
  exact map_congr_left fun r hr => headAt_eq_entryAt (hclean r hr) (h.smallest r hr)

section

variable (h : Reached readers n)
include h

theorem Reached.named_advance :
    Named (readers.map (advance n)) m ↔ Named readers m ∧ m ≠ n := by
  constructor
  · rintro ⟨r', hr', e, he, rfl⟩
    obtain ⟨r, hr, rfl⟩ := mem_map.mp hr'
    obtain ⟨he, hne⟩ := (mem_advance (h.clean r hr) (h.smallest r hr) h.named e).mp he
    exact ⟨⟨r, hr, e, he, rfl⟩, hne⟩
  · rintro ⟨⟨r, hr, e, he, rfl⟩, hne⟩
    exact ⟨_, mem_map_of_mem hr, e, (mem_advance (h.clean r hr) (h.smallest r hr) h.named e).mpr ⟨he, hne⟩, rfl⟩

theorem Reached.lt_of_named (hm : Named readers m) (hne : m ≠ n) : n < m := by
  obtain ⟨r, hr, e, he, rfl⟩ := hm
  cases hentries : r.entries with
  | nil =>
    rw [hentries] at he
    cases he
  | cons e₀ rest =>
    have hle := not_lt.mp (h.smallest r hr e₀ (by rw [hentries]; rfl))
    rw [hentries] at he
    rcases mem_cons.mp he with rfl | he
    · exact lt_of_le_of_ne hle (Ne.symm hne)
    · exact lt_of_le_of_lt hle ((h.clean r hr).head_or_rest hentries e he)

theorem Reached.entriesAt_advance (hm : m ≠ n) :
    entriesAt (readers.map (advance n)) m = entriesAt readers m := by
  rw [entriesAt, map_map]
  exact map_congr_left fun r hr => entryAt_advance (h.clean r hr) (h.smallest r hr) h.named hm

theorem Reached.allMatch_advance (hm : m ≠ n) :
    AllMatch dec (readers.map (advance n)) m ↔ AllMatch dec readers m := by
  unfold AllMatch
  rw [h.entriesAt_advance hm]
  constructor
  · intro hall i r hr
    obtain ⟨e, he, hname, hmatch⟩ := hall i (advance n r) (by rw [getElem?_map, hr]; rfl)
    exact ⟨e, (advance_sublist n r).subset he, hname, hmatch⟩
  · intro hall i r' hr'
    rw [getElem?_map, Option.map_eq_some_iff] at hr'
    obtain ⟨r, hr, rfl⟩ := hr'
    obtain ⟨e, he, hname, hmatch⟩ := hall i r hr
    have hmem := mem_of_getElem? hr
    refine ⟨e, ?_, hname, hmatch⟩
    exact (mem_advance (h.clean r hmem) (h.smallest r hmem) h.named e).mpr ⟨he, hname ▸ hm⟩

theorem Reached.exact_of_advance (hm : m ≠ n) {c : Callback}
    (hc : Exact dec (readers.map (advance n)) m c) : Exact dec readers m c := by
  cases c with
  | agreed entry =>
    obtain ⟨hall, rfl⟩ := hc
    exact ⟨(h.allMatch_advance hm).mp hall, by rw [h.entriesAt_advance hm]⟩
  | partialResult entries nAgreed errs =>
    obtain ⟨hall, rfl, rfl⟩ := hc
    refine ⟨fun hm' => hall ((h.allMatch_advance hm).mpr hm'), h.entriesAt_advance hm, ?_⟩
    rw [map_map]
    rfl
  | finished errs => exact hc

theorem Reached.entriesLeft_lt :
    entriesLeft (readers.map (advance n)) < entriesLeft readers := by
  obtain ⟨r, hr, e, he, rfl⟩ := h.mem
  unfold entriesLeft
  rw [map_map]
  apply sum_lt_sum
  · intro r' _
    exact (advance_sublist e.name r').length_le
  · refine ⟨r, hr, lt_of_le_of_ne (advance_sublist e.name r).length_le fun heq => ?_⟩
    have hself := (advance_sublist e.name r).eq_of_length heq
    rw [← hself] at he
    exact ((mem_advance (h.clean r hr) (h.smallest r hr) h.named e).mp he).2 rfl

end

theorem AllMatch.first (h : AllMatch dec readers n) : ∀ r, readers[0]? = some r → ∃ e ∈ r.entries, e.name = n :=
  fun r hr => (h 0 r hr).imp fun _ he => ⟨he.1, he.2.1⟩

theorem Found.current_of_first (h : Found dec readers s) (hclean : ∀ r ∈ readers, r.Clean)
    (hfirst : ∀ r, readers[0]? = some r → ∃ e ∈ r.entries, e.name = s.current.name) :
    s.disk = 0 ∧ s.current = (entriesAt readers s.current.name).headD .zero := by
  obtain ⟨r₀, hr₀⟩ : ∃ r₀, readers[0]? = some r₀ := ⟨_, getElem?_eq_getElem (Nat.zero_lt_of_lt h.disk_lt)⟩
  obtain ⟨e, he, hname⟩ := hfirst r₀ hr₀
  have hmem := mem_of_getElem? hr₀
  have hdisk : s.disk = 0 := by
    by_contra hne
    have hbefore := h.before 0 r₀ (Nat.pos_of_ne_zero hne) hr₀
    rw [headAt_eq_entryAt (hclean r₀ hmem) (h.smallest r₀ hmem), ← hname,
      entryAt_of_mem (hclean r₀ hmem) he, hname] at hbefore
    exact h.named hbefore
  obtain ⟨r, rest, hr, hrest⟩ := h.holder
  rw [hdisk, hr₀] at hr
  obtain rfl := Option.some.inj hr
  have hcurrent : s.current ∈ r₀.entries := by
    rw [hrest]
    exact mem_cons_self
  refine ⟨hdisk, ?_⟩
  obtain ⟨tail, htail⟩ := head?_eq_some_iff.mp (head?_eq_getElem? .. ▸ hr₀)
  rw [entriesAt, htail, map_cons, headD_cons, entryAt_of_mem (hclean r₀ hmem) hcurrent]

theorem Found.agree_iff (h : Found dec readers s) (hclean : ∀ r ∈ readers, r.Clean) :
    s.agree = readers.length ↔ AllMatch dec readers s.current.name := by
  have hcount : s.agree = readers.length ↔
      ∀ i r, readers[i]? = some r → headMatches dec s.disk s.current (r, i) = true := by
    rw [h.agree, ← @length_zipIdx _ readers 0, countP_eq_length]
    simp only [Prod.forall, mem_zipIdx_iff_getElem?]
    exact ⟨fun hall i r => hall r i, fun hall r i => hall i r⟩
  rw [hcount]
  constructor
  · intro hall
    have hhead : ∀ i r, readers[i]? = some r → ∃ e ∈ r.entries, e.name = s.current.name ∧
        entriesMatch dec s.disk s.current i e = true := by
      intro i r hr
      have hm := hall i r hr
      unfold headMatches at hm
      split at hm
      · cases hm
      · rename_i e rest hentries
        exact ⟨e, by rw [show r.entries = _ from hentries]; exact mem_cons_self, name_eq_of_entriesMatch hm, hm⟩
    obtain ⟨hdisk, hcurrent⟩ := h.current_of_first hclean fun r hr =>
      (hhead 0 r hr).imp fun _ he => ⟨he.1, he.2.1⟩
    rw [hdisk] at hhead
    unfold AllMatch
    rwa [← hcurrent]
  · intro hall i r hr
    obtain ⟨hdisk, hcurrent⟩ := h.current_of_first hclean hall.first
    obtain ⟨e, he, hname, hmatch⟩ := hall i r hr
    have hmem := mem_of_getElem? hr
    obtain ⟨rest, hrest⟩ := head?_eq_some_iff.mp
      (((hclean r hmem).mem_iff_head (h.smallest r hmem) hname).mp he)
    rw [headMatches, hdisk]
    simp only [hrest]
    rwa [← hcurrent] at hmatch

/-! ## A run -/

variable (dec) in
/-- The calls of a run: one for each name, in ascending order. -/
def RawSpec (readers : List MetacacheReader) (calls : List Callback) : Prop :=
  ∃ names : List Bytes, names.Pairwise (· < ·) ∧ (∀ n, n ∈ names ↔ Named readers n) ∧
    Forall₂ (Exact dec readers) names calls

theorem Reached.rawSpec_cons (h : Reached readers n) {c : Callback} {calls : List Callback}
    (hc : Exact dec readers n c) (hcalls : RawSpec dec (readers.map (advance n)) calls) :
    RawSpec dec readers (c :: calls) := by
  obtain ⟨names, hasc, hnames, hexact⟩ := hcalls
  refine ⟨n :: names, pairwise_cons.mpr ⟨?_, hasc⟩, ?_, Forall₂.cons hc ?_⟩
  · intro m hm
    obtain ⟨hm, hne⟩ := h.named_advance.mp ((hnames m).mp hm)
    exact h.lt_of_named hm hne
  · intro m
    rw [mem_cons, hnames, h.named_advance]
    constructor
    · rintro (rfl | hm)
      · exact h.mem
      · exact hm.1
    · intro hm
      by_cases hne : m = n
      · exact .inl hne
      · exact .inr ⟨hm, hne⟩
  · have hlater : ∀ m ∈ names, m ≠ n := fun m hm => (h.named_advance.mp ((hnames m).mp hm)).2
    refine ((forall₂_and_left _ _).mpr ⟨hlater, hexact⟩).imp ?_
    rintro m c' ⟨hne, hc'⟩
    exact h.exact_of_advance hne hc'

theorem Found.skip_eq (h : Found dec readers s) (hclean : ∀ r ∈ readers, r.Clean)
    (hall : AllMatch dec readers s.current.name) : readers.map (·.skip) = readers.map (advance s.current.name) := by
  apply map_congr_left
  intro r hr
  obtain ⟨i, hi⟩ := mem_iff_getElem?.mp hr
  obtain ⟨e, he, hname, -⟩ := hall i r hi
  rw [advance, headAt_eq_entryAt (hclean r hr) (h.smallest r hr), ← hname,
    entryAt_of_mem (hclean r hr) he, if_pos ((hclean r hr).named e he)]

theorem Found.skipUsed_eq (h : Found dec readers s) :
    zipWith (fun r e => if e.name ≠ [] then r.skip else r) readers s.topEntries =
      readers.map (advance s.current.name) := by
  rw [h.top, zipWith_map_right, zipWith_self]
  rfl

theorem rawLoop_spec (minDisks : Int) {fuel : Nat} (hclean : ∀ r ∈ readers, r.Clean)
    (hne : readers ≠ []) (hfuel : entriesLeft readers < fuel) (calls : List Callback) :
    ∃ more, rawLoop dec minDisks fuel readers (readers.map fun _ => none) calls =
      some (calls ++ more, none) ∧ RawSpec dec readers more := by
  induction fuel generalizing readers calls with
  | zero => omega
  | succ fuel ih =>
    have hround := @round_ok dec readers hclean
    rw [rawLoop]
    generalize round dec readers (readers.map fun _ => none) = s at hround ⊢
    have hpos : readers.length ≠ 0 := fun h0 => hne (length_eq_zero_iff.mp h0)
    simp only [hround.hasErr, hround.fnf, hround.errs, Nat.add_zero, gt_iff_lt, lt_self_iff_false,
      and_false, if_false]
    rw [hround.atEOF]
    rcases hround.found with ⟨hnone, -⟩ | hfound
    · rw [if_pos (countP_eq_length.mpr fun r hr => by rw [hnone r hr]; rfl)]
      refine ⟨[], by rw [append_nil], [], Pairwise.nil, fun n => ?_, Forall₂.nil⟩
      simp only [not_mem_nil, false_iff]
      rintro ⟨r, hr, e, he, -⟩
      rw [hnone r hr] at he
      cases he
    · have hreached := hfound.reached hclean
      rw [if_neg, if_neg (Ne.symm hpos)]
      · have hclean' : ∀ r ∈ readers.map (advance s.current.name), r.Clean :=
          forall_mem_map.mpr fun r hr => (hclean r hr).advance _
        have hne' : readers.map (advance s.current.name) ≠ [] := by simpa using hne
        have hfuel' : entriesLeft (readers.map (advance s.current.name)) < fuel :=
          lt_of_lt_of_le hreached.entriesLeft_lt (Nat.lt_succ_iff.mp hfuel)
        have herrs : (readers.map fun _ => (none : Option Error)) =
            (readers.map (advance s.current.name)).map fun _ => none := by
          rw [map_map]
          rfl
        split
        · rename_i hagree
          have hall := (hfound.agree_iff hclean).mp hagree
          rw [hfound.skip_eq hclean hall, herrs]
          obtain ⟨more, hmore, hspec⟩ := ih hclean' hne' hfuel' (calls ++ [.agreed s.current])
          refine ⟨.agreed s.current :: more, ?_,
            hreached.rawSpec_cons ⟨hall, (hfound.current_of_first hclean hall.first).2⟩ hspec⟩
          rw [hmore, append_assoc]
          rfl
        · rename_i hagree
          rw [hfound.skipUsed_eq]
          obtain ⟨more, hmore, hspec⟩ := ih hclean' hne' hfuel'
            (calls ++ [.partialResult s.topEntries s.agree (readers.map fun _ => none)])
          refine ⟨.partialResult s.topEntries s.agree (readers.map fun _ => none) :: more, ?_,
            hreached.rawSpec_cons ⟨?_, hfound.top_eq hclean, rfl⟩ hspec⟩
          · rw [← herrs] at hmore
            rw [hmore, append_assoc]
            rfl
          · exact fun hall => hagree ((hfound.agree_iff hclean).mpr hall)
      · intro hempty
        obtain ⟨r, hr, e, he, -⟩ := hreached.mem
        rw [isEmpty_iff.mp (countP_eq_length.mp hempty r hr)] at he
        cases he

end Rounds

/-- **The merge of the drives' streams.** Over streams in strictly ascending order and without errors,
every name of a stream has one call, in ascending order. The call has the entries of the drives whose
stream has the name and the empty entry for the others, and it is `agreed` exactly when all drives have
a matching entry. -/
theorem listPathRaw_exact (dec : Nat → MetaDecoder) (minDisks : Int) (disks : List MetacacheReader)
    (hclean : ∀ r ∈ disks, r.Clean) :
    ∃ calls err, listPathRaw dec minDisks disks = some (calls, err) ∧ (disks ≠ [] → err = none) ∧
      RawSpec dec disks calls := by
  unfold listPathRaw
  split
  · rename_i hzero
    obtain rfl := length_eq_zero_iff.mp hzero
    refine ⟨[], _, rfl, fun h => absurd rfl h, [], Pairwise.nil, fun n => ?_, Forall₂.nil⟩
    simp [Named]
  · rename_i hpos
    have hne : disks ≠ [] := fun h => hpos (by rw [h]; rfl)
    obtain ⟨calls, hcalls, hspec⟩ := rawLoop_spec minDisks hclean hne (Nat.lt_succ_self (entriesLeft disks)) []
    exact ⟨calls, none, hcalls, fun _ => rfl, hspec⟩

/-- Two drives, of which one does not have the second name. -/
theorem listPathRaw_two : let disks : List MetacacheReader :=
      [{ entries := [⟨ascii "a", [1]⟩, ⟨ascii "b", [1]⟩] }, { entries := [⟨ascii "a", [1]⟩] }]
    (∀ r ∈ disks, r.Clean) ∧ ∃ calls err, listPathRaw (fun _ => byteDecoder) 1 disks = some (calls, err) ∧
        (disks ≠ [] → err = none) ∧ RawSpec (fun _ => byteDecoder) disks calls := by
  intro disks
  have hclean : ∀ r ∈ disks, r.Clean := by
    intro r hr
    simp only [disks, mem_cons, not_mem_nil, or_false] at hr
    rcases hr with rfl | rfl <;> exact ⟨by unfold Ascending AscendingBy; decide, by decide, rfl⟩
  exact ⟨hclean, listPathRaw_exact _ 1 disks hclean⟩

end Listing

end Otterio
