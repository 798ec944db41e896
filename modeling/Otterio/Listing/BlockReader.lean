import Otterio.Listing.Blocks

/-!
# Filtering a block of a stored listing

A block is read by a `metacacheReader` (`cmd/metacache-stream.go`), and `filter`
(`cmd/metacache-set.go`) takes from it what a request asks for: the entries from the marker on that
have the prefix, as far as the limit goes. `FilterSpec` says what comes out of a block whose names
ascend: a beginning of the entries that the request selects, all of them if the reader reports the end
of the stream, and at least as many as the limit if it does not.
-/

namespace Otterio.Listing

open Err List

/-- The options that a stored listing is read with. `listPath` of the server pools answers a request
with a limit of zero itself, and `maxKeysPlusOne` leaves no negative one. -/
structure ReadOptions where
  pre : Bytes
  marker : Bytes
  separator : Bytes
  limit : Nat
  inclDeleted : Bool
  recursive : Bool
  includeDirectories : Bool
  limit_pos : 0 < limit

/-- `metacacheReader`, over the entries that are left of a block. -/
structure BlockReader where
  current : Option MetaCacheEntry
  rest : List MetaCacheEntry
  err : Option Error

namespace BlockReader

/-- `newMetacacheReader`. The writer starts a block with its first entry, so that the data of a block
without entries are empty, and the reader is at their end before it begins. -/
def newMetacacheReader (data : List MetaCacheEntry) : BlockReader where
  current := none
  rest := data
  err := if data = [] then some eof else none

def atEnd : BlockReader where
  current := none
  rest := []
  err := some eof

def forwardTo (r : BlockReader) (s : Bytes) : BlockReader × Option Error :=
  if r.err.isSome then (r, r.err)
  else if s = [] then (r, none)
  else if r.current.any (fun e => ¬ e.name < s) then (r, none)
  else
    match r.rest.dropWhile (fun e => e.name < s) with
    | [] => (atEnd, some eof)
    | e :: rest => ({ current := some e, rest := rest, err := none }, none)

/-- `peek`, with the entry in `current` when there is one. -/
def peek (r : BlockReader) : Except Error (MetaCacheEntry × BlockReader) :=
  match r.err, r.current, r.rest with
  | some err, _, _ => .error err
  | none, some e, _ => .ok (e, r)
  | none, none, [] => .error eof
  | none, none, e :: rest => .ok (e, { current := some e, rest := rest, err := none })

def nextEOF (r : BlockReader) : Bool :=
  match r.err, r.current, r.rest with
  | some err, _, _ => err = eof
  | none, some _, _ => false
  | none, none, rest => rest.isEmpty

section ReadN

variable (dec : MetaDecoder) (n : Nat) (inclDeleted inclDirs : Bool) (pre : Bytes)

def readNLoop (res : List MetaCacheEntry) : List MetaCacheEntry → List MetaCacheEntry × Option Error
  | [] => if res.length < n then (res, some eof) else (res, none)
  | e :: rest =>
    if res.length < n then
      if ¬ e.hasPrefix pre then (res, some eof)
      else if !inclDirs && e.isDir then readNLoop res rest
      else if !inclDeleted && e.isLatestDeletemarker dec then readNLoop res rest
      else readNLoop (res ++ [e]) rest
    else (res, none)

/-- `readN`, of at least no entries. -/
def readN (r : BlockReader) : List MetaCacheEntry × Option Error :=
  if n = 0 then ([], none)
  else if r.err.isSome then ([], r.err)
  else
    let (r, err) := if pre ≠ [] then r.forwardTo pre else (r, none)
    if err.isSome then ([], err)
    else
      match r.peek with
      | .error err => ([], some err)
      | .ok (next, r) =>
        if ¬ next.hasPrefix pre then ([], some eof)
        else
          let res :=
            if (inclDeleted || !next.isLatestDeletemarker dec) && next.hasPrefix pre &&
                (inclDirs || next.isObject) then [next] else []
          readNLoop dec n inclDeleted inclDirs pre res r.rest

end ReadN

section ReadFn

variable {σ : Type} (fn : σ → MetaCacheEntry → σ × Bool)

def readFnLoop (s : σ) : List MetaCacheEntry → σ × BlockReader × Option Error
  | [] => (s, atEnd, some eof)
  | e :: rest =>
    if (fn s e).2 then readFnLoop (fn s e).1 rest
    else ((fn s e).1, { current := none, rest := rest, err := none }, none)

/-- `readFn`, with the variables of the callback. What the callback says to an entry that has been read
ahead is not looked at. -/
def readFn (s : σ) (r : BlockReader) : σ × BlockReader × Option Error :=
  if r.err.isSome then (s, r, r.err)
  else readFnLoop fn (r.current.elim s fun e => (fn s e).1) r.rest

end ReadFn

structure Filtered where
  entries : List MetaCacheEntry
  pastPrefix : Bool

variable (dec : MetaDecoder) (o : ReadOptions)

def filterFn (s : Filtered) (e : MetaCacheEntry) : Filtered × Bool :=
  if o.pre ≠ [] ∧ ¬ e.hasPrefix o.pre then ({ s with pastPrefix := true }, false)
  else if !o.includeDirectories && e.isDir then (s, true)
  else if ¬ e.isInDir o.pre o.separator then (s, true)
  else if !o.inclDeleted && e.isObject && e.isLatestDeletemarker dec then
    (s, s.entries.length < o.limit)
  else ({ s with entries := s.entries ++ [e] }, s.entries.length + 1 < o.limit)

def filter (r : BlockReader) : List MetaCacheEntry × Option Error :=
  let (r, err) := r.forwardTo o.pre
  if err.isSome then ([], err)
  else
    let (r, err) := if o.marker ≠ [] then r.forwardTo o.marker else (r, none)
    if err.isSome then ([], err)
    else if !o.recursive then
      let (s, r, err) := r.readFn (filterFn dec o) ⟨[], false⟩
      if err = some eof ∨ s.pastPrefix ∨ r.nextEOF then (s.entries, some eof) else (s.entries, err)
    else r.readN dec o.limit o.inclDeleted o.includeDirectories o.pre

end BlockReader

/-! ## What a request selects -/

/-- An entry with the prefix is returned. -/
def ReadOptions.accepts (dec : MetaDecoder) (o : ReadOptions) (e : MetaCacheEntry) : Bool :=
  (o.includeDirectories || !e.isDir) && (o.recursive || e.isInDir o.pre o.separator) &&
    (o.inclDeleted || !e.isLatestDeletemarker dec)

/-- The entries that a request asks for. -/
def ReadOptions.selects (dec : MetaDecoder) (o : ReadOptions) (e : MetaCacheEntry) : Bool :=
  !decide (e.name < o.marker) && e.hasPrefix o.pre && o.accepts dec e

/-- What a request gets from a stream: the first entries that it asks for. -/
def ReadOptions.result (dec : MetaDecoder) (o : ReadOptions) (l : List MetaCacheEntry) : List MetaCacheEntry :=
  (l.filter (o.selects dec)).take o.limit

/-- Ascending names, with repetitions. -/
abbrev Sorted (l : List MetaCacheEntry) : Prop := l.Pairwise fun a b => a.name ≤ b.name

variable {dec : MetaDecoder} {o : ReadOptions} {l : List MetaCacheEntry} {e : MetaCacheEntry}

theorem ReadOptions.selects_eq_false_of_lt_marker (h : e.name < o.marker) : o.selects dec e = false := by
  simp [ReadOptions.selects, h]

theorem ReadOptions.selects_eq_false_of_not_hasPrefix (h : e.hasPrefix o.pre = false) : o.selects dec e = false := by
  simp [ReadOptions.selects, h]

theorem ReadOptions.selects_eq_false_of_lt_pre (h : e.name < o.pre) : o.selects dec e = false := by
  apply selects_eq_false_of_not_hasPrefix
  by_contra hpre
  rw [Bool.not_eq_false, MetaCacheEntry.hasPrefix, List.isPrefixOf_iff_prefix] at hpre
  exact not_lt_of_isPrefix hpre h

/-- The entries of a sorted list from the prefix and the marker on. -/
structure Ready (o : ReadOptions) (l : List MetaCacheEntry) : Prop where
  sorted : Sorted l
  pre : ∀ e ∈ l, o.pre ≤ e.name
  marker : ∀ e ∈ l, o.marker ≤ e.name

theorem Ready.tail (h : Ready o (e :: l)) : Ready o l where
  sorted := h.sorted.of_cons
  pre x hx := h.pre x (mem_cons_of_mem e hx)
  marker x hx := h.marker x (mem_cons_of_mem e hx)

theorem filter_eq_nil_of_past (hsorted : Sorted (e :: l)) (hle : o.pre ≤ e.name)
    (he : e.hasPrefix o.pre = false) : (e :: l).filter (o.selects dec) = [] := by
  rw [filter_eq_nil_iff]
  intro x hx
  rw [Bool.not_eq_true]
  apply ReadOptions.selects_eq_false_of_not_hasPrefix
  have hex : e.name ≤ x.name := by
    rcases mem_cons.mp hx with rfl | hx
    · exact le_refl x.name
    · exact rel_of_pairwise_cons hsorted hx
  by_contra hpre
  rw [Bool.not_eq_false, MetaCacheEntry.hasPrefix, List.isPrefixOf_iff_prefix] at hpre
  have hpe := prefix_of_le hle hex hpre
  rw [MetaCacheEntry.hasPrefix, ← Bool.not_eq_true, List.isPrefixOf_iff_prefix] at he
  exact he hpe

theorem Ready.selects_head (h : Ready o (e :: l)) (hpre : e.hasPrefix o.pre = true) :
    o.selects dec e = o.accepts dec e := by
  have hmarker : ¬ e.name < o.marker := not_lt.mpr (h.marker e (by simp))
  simp [ReadOptions.selects, hmarker, hpre]

theorem le_of_mem_dropWhile {s : Bytes} (hl : Sorted l) (he : e ∈ l.dropWhile fun x => x.name < s) : s ≤ e.name := by
  induction l with
  | nil => simp at he
  | cons x l ih =>
    by_cases hx : x.name < s
    · rw [dropWhile_cons_of_pos (by simpa using hx)] at he
      exact ih hl.of_cons he
    · rw [dropWhile_cons_of_neg (by simpa using hx)] at he
      rcases mem_cons.mp he with rfl | he
      · exact not_lt.mp hx
      · exact le_trans (not_lt.mp hx) (rel_of_pairwise_cons hl he)

theorem filter_dropWhile {s : Bytes} (h : ∀ e : MetaCacheEntry, e.name < s → o.selects dec e = false)
    (l : List MetaCacheEntry) :
    (l.dropWhile fun x => x.name < s).filter (o.selects dec) = l.filter (o.selects dec) := by
  induction l with
  | nil => rfl
  | cons x l ih =>
    by_cases hx : x.name < s
    · rw [dropWhile_cons_of_pos (by simpa using hx), ih, filter_cons_of_neg (by simp [h x hx])]
    · rw [dropWhile_cons_of_neg (by simpa using hx)]

/-! ## What a reader gives -/

/-- What comes out of a reader that has all of a list before it. -/
structure FilterSpec (limit : Nat) (all : List MetaCacheEntry) (res : List MetaCacheEntry × Option Error) : Prop where
  beginning : res.1 <+: all
  outcome : res.2 = some eof ∧ res.1 = all ∨ res.2 = none ∧ limit ≤ res.1.length

theorem FilterSpec.of_eof {limit : Nat} {all : List MetaCacheEntry} : FilterSpec limit all (all, some eof) where
  beginning := prefix_rfl
  outcome := .inl ⟨rfl, rfl⟩

namespace BlockReader

def pending (r : BlockReader) : List MetaCacheEntry := r.current.toList ++ r.rest

variable {r : BlockReader}

theorem forwardTo_cases (h : r.err = none) (s : Bytes) : (∃ r', r.forwardTo s = (r', none) ∧ r'.err = none ∧
      (r'.pending = r.pending.dropWhile fun e => e.name < s) ∧ (r.pending ≠ [] → r'.pending ≠ [])) ∨
    r.forwardTo s = (atEnd, some eof) ∧ (r.pending.dropWhile fun e => e.name < s) = [] := by
  unfold forwardTo
  rw [if_neg (by simp [h])]
  by_cases hs : s = []
  · rw [if_pos hs]
    refine .inl ⟨r, rfl, h, ?_, id⟩
    subst hs
    cases r.pending with
    | nil => rfl
    | cons x l =>
      simp [not_lt_nil]
  · rw [if_neg hs]
    by_cases hc : r.current.any (fun e => ¬ e.name < s) = true
    · rw [if_pos hc]
      refine .inl ⟨r, rfl, h, ?_, id⟩
      rw [pending]
      cases hcur : r.current with
      | none => simp [hcur] at hc
      | some c =>
        rw [hcur, Option.any_some] at hc
        rw [Option.toList_some, singleton_append, dropWhile_cons_of_neg]
        simpa using hc
    · rw [if_neg hc]
      have hpending : (r.pending.dropWhile fun e => e.name < s) = r.rest.dropWhile fun e => e.name < s := by
        rw [pending]
        cases hcur : r.current with
        | none => rfl
        | some c =>
          rw [hcur] at hc
          rw [Option.toList_some, singleton_append, dropWhile_cons_of_pos]
          simpa using hc
      rw [hpending]
      cases r.rest.dropWhile fun e => e.name < s with
      | nil => exact .inr ⟨rfl, rfl⟩
      | cons e rest => exact .inl ⟨_, rfl, rfl, rfl, fun _ => cons_ne_nil e rest⟩

theorem peek_eq (h : r.err = none) : r.peek = match r.pending with
      | [] => .error eof
      | e :: rest => .ok (e, { current := some e, rest := rest, err := none }) := by
  obtain ⟨current, rest, err⟩ := r
  obtain rfl : err = none := h
  rcases current with _ | e
  · cases rest <;> rfl
  · rfl

theorem readNLoop_spec (dec : MetaDecoder) (hrec : o.recursive = true) (hl : Ready o l) (res : List MetaCacheEntry) :
    FilterSpec o.limit (res ++ l.filter (o.selects dec))
      (readNLoop dec o.limit o.inclDeleted o.includeDirectories o.pre res l) := by
  induction l generalizing res with
  | nil =>
    rw [readNLoop, filter_nil, append_nil]
    split_ifs with hn
    · exact .of_eof
    · exact ⟨prefix_rfl, .inr ⟨rfl, not_lt.mp hn⟩⟩
  | cons e l ih =>
    rw [readNLoop]
    by_cases hn : res.length < o.limit
    swap
    · rw [if_neg hn]
      exact ⟨prefix_append _ _, .inr ⟨rfl, not_lt.mp hn⟩⟩
    rw [if_pos hn]
    cases hpre : e.hasPrefix o.pre with
    | false =>
      rw [if_pos (by simp), filter_eq_nil_of_past hl.sorted (hl.pre e (by simp)) hpre, append_nil]
      exact .of_eof
    | true =>
      rw [if_neg (by simp)]
      have hsel : o.selects dec e = o.accepts dec e := hl.selects_head hpre
      split_ifs with hdir hdel
      · rw [filter_cons_of_neg]
        · exact ih hl.tail res
        · simp_all [ReadOptions.accepts]
      · rw [filter_cons_of_neg]
        · exact ih hl.tail res
        · simp_all [ReadOptions.accepts]
      · rw [filter_cons_of_pos, append_cons]
        · exact ih hl.tail (res ++ [e])
        · cases hd : o.includeDirectories <;> cases hi : o.inclDeleted <;>
            simp_all [ReadOptions.accepts]

theorem readN_eq (h : r.err = none) (hl : Ready o r.pending) (hne : r.pending ≠ []) :
    r.readN dec o.limit o.inclDeleted o.includeDirectories o.pre =
      readNLoop dec o.limit o.inclDeleted o.includeDirectories o.pre [] r.pending := by
  obtain ⟨e, l, hp⟩ := exists_cons_of_ne_nil hne
  have hdrop : (r.pending.dropWhile fun x => x.name < o.pre) = r.pending := by
    rw [hp, dropWhile_cons_of_neg]
    simpa using hl.pre e (by simp [hp])
  have hforward : ∃ r', (if o.pre ≠ [] then r.forwardTo o.pre else (r, none)) = (r', none) ∧
      r'.err = none ∧ r'.pending = r.pending := by
    split_ifs with hpre
    · rcases forwardTo_cases h o.pre with ⟨r', hr', herr, hpend, -⟩ | ⟨-, hnil⟩
      · exact ⟨r', hr', herr, hpend.trans hdrop⟩
      · exact absurd (hdrop.symm.trans hnil) hne
    · exact ⟨r, rfl, h, rfl⟩
  obtain ⟨r', hr', herr, hpend⟩ := hforward
  have hpeek : r'.peek = .ok (e, { current := some e, rest := l, err := none }) := by
    rw [peek_eq herr, hpend, hp]
  rw [readN, if_neg (Nat.pos_iff_ne_zero.mp o.limit_pos), if_neg (by simp [h]), hr']
  dsimp only
  rw [if_neg (by simp), hpeek, hp, readNLoop, length_nil, if_pos o.limit_pos]
  dsimp only
  cases e.hasPrefix o.pre with
  | false => rfl
  | true =>
    cases hdirs : o.includeDirectories <;> cases hdel : o.inclDeleted <;>
      cases hdir : e.isDir <;> cases hlat : e.isLatestDeletemarker dec <;>
      simp [hdir]

theorem filterFn_cases (dec : MetaDecoder) (hrec : o.recursive = false) (hl : Ready o (e :: l)) (s : Filtered) :
    (e.hasPrefix o.pre = false ∧ filterFn dec o s e = ({ s with pastPrefix := true }, false)) ∨
    (o.selects dec e = false ∧ ∃ more, filterFn dec o s e = (s, more) ∧ (more = false → o.limit ≤ s.entries.length)) ∨
    (o.selects dec e = true ∧ filterFn dec o s e =
      ({ s with entries := s.entries ++ [e] }, decide (s.entries.length + 1 < o.limit))) := by
  unfold filterFn
  cases hpre : e.hasPrefix o.pre with
  | false =>
    have hne : o.pre ≠ [] := by
      intro hnil
      rw [hnil] at hpre
      simp [MetaCacheEntry.hasPrefix] at hpre
    exact .inl ⟨rfl, if_pos ⟨hne, by simp⟩⟩
  | true =>
    rw [if_neg (by simp)]
    have hsel : o.selects dec e = o.accepts dec e := hl.selects_head hpre
    right
    split_ifs with hdir hin hdel
    · refine .inl ⟨?_, true, rfl, by simp⟩
      simp_all [ReadOptions.accepts]
    · refine .inl ⟨?_, _, rfl, by simp⟩
      simp_all [ReadOptions.accepts]
    · refine .inr ⟨?_, rfl⟩
      have hlatest : e.isDir = true → e.isLatestDeletemarker dec = false := by
        intro hd
        simp [MetaCacheEntry.isLatestDeletemarker, hd]
      cases hd : e.isDir <;> cases hi : o.inclDeleted <;> simp_all [ReadOptions.accepts]
    · refine .inl ⟨?_, true, rfl, by simp⟩
      simp_all [ReadOptions.accepts]

theorem filterFn_entries (dec : MetaDecoder) (hrec : o.recursive = false) (hl : Ready o (e :: l)) (s : Filtered) :
    (filterFn dec o s e).1.entries ++ l.filter (o.selects dec) = s.entries ++ (e :: l).filter (o.selects dec) := by
  rcases filterFn_cases dec hrec hl s with ⟨hpre, hfn⟩ | ⟨hsel, more, hfn, -⟩ | ⟨hsel, hfn⟩
  · have hnil : (e :: l).filter (o.selects dec) = [] :=
      filter_eq_nil_of_past hl.sorted (hl.pre e (by simp)) hpre
    rw [hfn, hnil]
    rw [filter_cons_of_neg
      (by simp [ReadOptions.selects_eq_false_of_not_hasPrefix hpre])] at hnil
    rw [hnil]
  · rw [hfn, filter_cons_of_neg (by simp [hsel])]
  · rw [hfn, filter_cons_of_pos hsel, append_assoc]
    rfl

/-- What a run of the callback leaves. -/
structure FnSpec (o : ReadOptions) (dec : MetaDecoder) (all : List MetaCacheEntry) (past : Bool)
    (res : Filtered × BlockReader × Option Error) : Prop where
  beginning : res.1.entries <+: all
  outcome : res.2.2 = some eof ∧ res.1.entries = all ∨ res.2.2 = none ∧ res.2.1.err = none ∧
      res.1.entries ++ res.2.1.pending.filter (o.selects dec) = all ∧
      (res.1.pastPrefix = true ∧ res.1.entries = all ∨ res.1.pastPrefix = past ∧ o.limit ≤ res.1.entries.length)

theorem readFnLoop_spec (dec : MetaDecoder) (hrec : o.recursive = false) (hl : Ready o l) (s : Filtered) :
    FnSpec o dec (s.entries ++ l.filter (o.selects dec)) s.pastPrefix
      (readFnLoop (filterFn dec o) s l) := by
  induction l generalizing s with
  | nil =>
    rw [readFnLoop, filter_nil, append_nil]
    exact ⟨prefix_rfl, .inl ⟨rfl, rfl⟩⟩
  | cons e l ih =>
    have hentries : (filterFn dec o s e).1.entries ++ l.filter (o.selects dec) =
        s.entries ++ (e :: l).filter (o.selects dec) := filterFn_entries dec hrec hl s
    rw [readFnLoop]
    cases hmore : (filterFn dec o s e).2 with
    | true =>
      have hpast : (filterFn dec o s e).1.pastPrefix = s.pastPrefix := by
        rcases filterFn_cases dec hrec hl s with ⟨-, hfn⟩ | ⟨-, more, hfn, -⟩ | ⟨-, hfn⟩
        · rw [hfn] at hmore
          cases hmore
        · rw [hfn]
        · rw [hfn]
      rw [if_pos rfl, ← hentries, ← hpast]
      exact ih hl.tail _
    | false =>
      rw [if_neg (by simp)]
      refine ⟨⟨_, hentries⟩, .inr ⟨rfl, rfl, hentries, ?_⟩⟩
      rcases filterFn_cases dec hrec hl s with ⟨hpre, hfn⟩ | ⟨-, more, hfn, hfull⟩ | ⟨-, hfn⟩
      · rw [hfn, filter_eq_nil_of_past hl.sorted (hl.pre e (by simp)) hpre, append_nil]
        exact .inl ⟨rfl, rfl⟩
      · rw [hfn] at hmore ⊢
        exact .inr ⟨rfl, hfull hmore⟩
      · rw [hfn] at hmore ⊢
        refine .inr ⟨rfl, ?_⟩
        rw [length_append, length_singleton]
        exact not_lt.mp (of_decide_eq_false hmore)

theorem readFn_spec (dec : MetaDecoder) (hrec : o.recursive = false) (h : r.err = none) (hl : Ready o r.pending) :
    ∃ past, FnSpec o dec (r.pending.filter (o.selects dec)) past
        (r.readFn (filterFn dec o) ⟨[], false⟩) ∧
      (past = true → r.pending.filter (o.selects dec) = []) := by
  rw [readFn, if_neg (by simp [h])]
  unfold pending at hl ⊢
  cases hcur : r.current with
  | none =>
    rw [hcur, Option.toList_none, nil_append] at hl
    exact ⟨false, readFnLoop_spec dec hrec hl ⟨[], false⟩, by simp⟩
  | some e =>
    rw [hcur] at hl
    have hspec := readFnLoop_spec dec hrec hl.tail (filterFn dec o ⟨[], false⟩ e).1
    rw [filterFn_entries dec hrec hl, nil_append] at hspec
    refine ⟨_, hspec, fun hpast => ?_⟩
    rcases filterFn_cases dec hrec hl ⟨[], false⟩ with
      ⟨hpre, -⟩ | ⟨-, more, hfn, -⟩ | ⟨-, hfn⟩
    · exact filter_eq_nil_of_past hl.sorted (hl.pre e (by simp)) hpre
    · rw [hfn] at hpast
      cases hpast
    · rw [hfn] at hpast
      cases hpast

theorem nextEOF_iff (h : r.err = none) : r.nextEOF = true ↔ r.pending = [] := by
  obtain ⟨current, rest, err⟩ := r
  obtain rfl : err = none := h
  rcases current with _ | e
  · exact List.isEmpty_iff
  · simp [nextEOF, pending]

/-- The two ways of reading, from the place that the request starts at. -/
theorem filter_ready (h : r.err = none) (hl : Ready o r.pending) (hne : r.pending ≠ []) :
    FilterSpec o.limit (r.pending.filter (o.selects dec))
      (if !o.recursive then
        let (s, r, err) := r.readFn (filterFn dec o) ⟨[], false⟩
        if err = some eof ∨ s.pastPrefix ∨ r.nextEOF then (s.entries, some eof) else (s.entries, err)
      else r.readN dec o.limit o.inclDeleted o.includeDirectories o.pre) := by
  cases hrec : o.recursive with
  | true =>
    rw [if_neg (by simp), readN_eq h hl hne]
    exact readNLoop_spec dec hrec hl []
  | false =>
    rw [if_pos (by simp)]
    obtain ⟨past, hspec, hpast⟩ := readFn_spec dec hrec h hl
    generalize r.readFn (filterFn dec o) ⟨[], false⟩ = res at hspec
    obtain ⟨s, r', err⟩ := res
    dsimp only
    rcases hspec.outcome with ⟨herr, hall⟩ | ⟨herr, hr', hall, hfull⟩
    · rw [if_pos (.inl herr), ← hall]
      exact .of_eof
    · by_cases hend : err = some eof ∨ s.pastPrefix = true ∨ r'.nextEOF = true
      · -- The end of the block is reported only when nothing more is selected.
        rw [if_pos hend]
        have heq : s.entries = r.pending.filter (o.selects dec) := by
          rcases hend with heof | hp | hp
          · rw [show err = none from herr] at heof
            cases heof
          · rcases hfull with ⟨-, heq⟩ | ⟨hsame, -⟩
            · exact heq
            · have hnil := hpast (hsame.symm.trans hp)
              rw [hnil] at hall ⊢
              exact (append_eq_nil_iff.mp hall).1
          · rw [(nextEOF_iff hr').mp hp, filter_nil, append_nil] at hall
            exact hall
        rw [heq]
        exact .of_eof
      · rw [if_neg hend]
        refine ⟨hspec.beginning, ?_⟩
        rcases hfull with ⟨hp, -⟩ | ⟨-, hlimit⟩
        · exact absurd (.inr (.inl hp)) hend
        · exact .inr ⟨herr, hlimit⟩

theorem filter_spec (dec : MetaDecoder) (o : ReadOptions) {data : List MetaCacheEntry} (hdata : Sorted data) :
    FilterSpec o.limit (data.filter (o.selects dec)) (filter dec o (newMetacacheReader data)) := by
  by_cases hnil : data = []
  · subst hnil
    exact .of_eof
  have herr : (newMetacacheReader data).err = none := if_neg hnil
  have hpre : (data.dropWhile fun e => e.name < o.pre).filter (o.selects dec) = data.filter (o.selects dec) :=
    filter_dropWhile (fun e => ReadOptions.selects_eq_false_of_lt_pre) data
  have hsorted : Sorted (data.dropWhile fun e => e.name < o.pre) := hdata.sublist (dropWhile_sublist _)
  unfold filter
  rcases forwardTo_cases herr o.pre with ⟨r, hr, hrerr, hrp, hrne⟩ | ⟨hr, hrp⟩
  swap
  · rw [show (newMetacacheReader data).pending = data from rfl] at hrp
    rw [hr, ← hpre, hrp]
    exact .of_eof
  rw [show (newMetacacheReader data).pending = data from rfl] at hrp
  rw [hr, ← hpre, ← hrp]
  dsimp only
  have hmarker : (if o.marker ≠ [] then r.forwardTo o.marker else (r, none)) = r.forwardTo o.marker := by
    split_ifs with hm
    · rfl
    · rw [not_not.mp hm, forwardTo, if_neg (by simp [hrerr]), if_pos rfl]
  have hfilter : (r.pending.dropWhile fun e => e.name < o.marker).filter (o.selects dec) =
      r.pending.filter (o.selects dec) :=
    filter_dropWhile (fun e => ReadOptions.selects_eq_false_of_lt_marker) r.pending
  rw [← hrp] at hsorted
  rw [hmarker, ← hfilter]
  rcases forwardTo_cases hrerr o.marker with ⟨r', hr', hrerr', hrp', hrne'⟩ | ⟨hr', hrp'⟩
  swap
  · rw [hr', hrp']
    exact .of_eof
  rw [hr', ← hrp']
  have hready : Ready o r'.pending := by
    rw [hrp']
    refine ⟨hsorted.sublist (dropWhile_sublist _), fun e he => ?_, fun e he => le_of_mem_dropWhile hsorted he⟩
    have he' := (dropWhile_sublist _).subset he
    rw [hrp] at he'
    exact le_of_mem_dropWhile hdata he'
  exact filter_ready hrerr' hready (hrne' (hrne hnil))

end BlockReader

end Otterio.Listing
