import Otterio.Listing.BlockReader

/-!
# Listing from the stored blocks

`streamMetadataParts` (`cmd/metacache-set.go`) answers a request from the blocks of a stored listing.
The headers tell it where to start (`findFirstPart`) and when to stop (`pastPrefix`, `endedPrefix`);
every block that it reads goes through `filter`.

The name of the last entry is right in every header, so the start and the stop behind a block are, too.
The name of the first entry lags (`Lagging`), and `pastPrefix` is asked before a block is read. A block
whose first entry is the last one with the prefix is taken to be past the prefix, and the entry is not
returned (`Cut`). Nothing else is lost: `streamMetadataParts_iff`.
-/

namespace Otterio.Listing

open Err List

/-! ## The reader of the blocks -/

def behind (name pre : Bytes) : Bool :=
  if pre = [] ∨ pre.isPrefixOf name then false else pre < name

def MetacacheBlock.pastPrefix (b : MetacacheBlock) (pre : Bytes) : Bool := behind b.first pre

def MetacacheBlock.endedPrefix (b : MetacacheBlock) (pre : Bytes) : Bool := behind b.last pre

/-- The loop of `findFirstPart`. A header that is not there yet is waited for. -/
def findPart (search : Bytes) (i : Int) : List MetacacheBlock → Int × Option Error
  | [] => (-1, some errUnexpectedEOF)
  | b :: blocks =>
    if b.first = [] ∧ b.last = [] ∧ b.eos then (0, some errFileNotFound)
    else if ¬ b.first < search then (i, none)
    else if ¬ b.last < search then (i, none)
    else if b.eos then (-3, some eof)
    else findPart search (i + 1) blocks

/-- The name that a request starts at. -/
def ReadOptions.search (o : ReadOptions) : Bytes := if o.marker = [] then o.pre else o.marker

def findFirstPart (o : ReadOptions) (blocks : List MetacacheBlock) : Int × Option Error :=
  if o.search = [] then (0, none) else findPart o.search 0 blocks

section Read

variable (dec : MetaDecoder) (o : ReadOptions)

/-- The inner loop of `streamMetadataParts`, at the block `partN`. The metadata of the block 0 are
loaded before it. A block that is not there yet is waited for. -/
def readParts (partN : Nat) (entries : List MetaCacheEntry) : List MetacacheBlock → List MetaCacheEntry × Option Error
  | [] => (entries, some errUnexpectedEOF)
  | b :: blocks =>
    if partN ≠ 0 ∧ b.pastPrefix o.pre then (entries, some eof)
    else
      let (e, err) := BlockReader.filter dec o (.newMetacacheReader b.data)
      if o.limit > 0 ∧ (entries ++ e).length > o.limit then ((entries ++ e).take o.limit, none)
      else
        match err with
        | none => (entries ++ e, none)
        | some err =>
          if err ≠ eof then (entries ++ e, some err)
          else if b.eos then (entries ++ e, some eof)
          else if b.endedPrefix o.pre then (entries ++ e, some eof)
          else readParts (partN + 1) (entries ++ e) blocks

/-- `streamMetadataParts`, over blocks that can be read. An error of `findFirstPart` other than the two
that stand for waiting and for the end is not looked at. -/
def streamMetadataParts (blocks : List MetacacheBlock) : List MetaCacheEntry × Option Error :=
  let (partN, err) := findFirstPart o blocks
  if err = some errUnexpectedEOF then ([], some errUnexpectedEOF)
  else if err = some eof then ([], some eof)
  else readParts dec o partN.toNat [] (blocks.drop partN.toNat)

end Read

/-! ## Where an entry is lost -/

/-- The first entry of a list is selected, and the one after it is past the prefix. -/
def LastOfPrefix (dec : MetaDecoder) (o : ReadOptions) (l : List MetaCacheEntry) : Prop :=
  ∃ e next rest, l = e :: next :: rest ∧ o.selects dec e = true ∧ next.hasPrefix o.pre = false

/-- One of the blocks starts with an entry that is lost, when `k` entries are still to be returned. -/
def Cut (dec : MetaDecoder) (o : ReadOptions) : Nat → List MetacacheBlock → Prop
  | _, [] => False
  | k, b :: blocks =>
    LastOfPrefix dec o (b.data ++ entriesOf blocks) ∧ 0 < k ∨
      Cut dec o (k - (b.data.filter (o.selects dec)).length) blocks

variable {dec : MetaDecoder} {o : ReadOptions} {b : MetacacheBlock} {blocks : List MetacacheBlock}
  {k size partN : Nat} {entries l : List MetaCacheEntry}

theorem not_cut_zero (blocks : List MetacacheBlock) : ¬ Cut dec o 0 blocks := by
  induction blocks with
  | nil => exact id
  | cons b blocks ih =>
    rw [Cut, Nat.zero_sub]
    rintro (⟨-, hpos⟩ | hcut)
    · exact absurd hpos (lt_irrefl 0)
    · exact ih hcut

theorem LastOfPrefix.filter_ne_nil (h : LastOfPrefix dec o l) : l.filter (o.selects dec) ≠ [] := by
  obtain ⟨e, next, rest, rfl, hsel, -⟩ := h
  rw [filter_cons_of_pos hsel]
  exact cons_ne_nil _ _

theorem not_cut_of_filter_eq_nil (h : (entriesOf blocks).filter (o.selects dec) = []) : ¬ Cut dec o k blocks := by
  induction blocks generalizing k with
  | nil => exact id
  | cons b blocks ih =>
    rintro (⟨hlast, -⟩ | hcut)
    · exact hlast.filter_ne_nil h
    · rw [entriesOf_cons, filter_append, append_eq_nil_iff] at h
      exact ih h.2 hcut

theorem cut_append {before : List MetacacheBlock} (hlag : Lagging size (before ++ blocks))
    (h : (entriesOf before).filter (o.selects dec) = []) : Cut dec o k (before ++ blocks) ↔ Cut dec o k blocks := by
  induction before with
  | nil => rfl
  | cons b before ih =>
    obtain ⟨hdata, -, -, -, -, -, hlag⟩ := hlag
    rw [entriesOf_cons, filter_append, append_eq_nil_iff] at h
    rw [cons_append, Cut, h.1, length_nil, Nat.sub_zero, ih hlag h.2]
    refine or_iff_right ?_
    rintro ⟨⟨e, next, rest, heq, hsel, -⟩, -⟩
    obtain ⟨x, data, hx⟩ := exists_cons_of_ne_nil hdata
    rw [hx, cons_append, cons.injEq] at heq
    rw [hx, filter_cons_of_pos (heq.1 ▸ hsel)] at h
    exact absurd h.1 (cons_ne_nil _ _)

theorem behind_iff {name pre : Bytes} : behind name pre = true ↔ pre < name ∧ ¬ pre <+: name := by
  unfold behind
  split_ifs with h
  · rcases h with rfl | h
    · simp
    · rw [ isPrefixOf_iff_prefix] at h
      simp [h]
  · rw [not_or, isPrefixOf_iff_prefix] at h
    simp [h.2]

variable {e : MetaCacheEntry}

theorem filter_eq_nil_of_behind (hl : Sorted (e :: l)) (h : behind e.name o.pre = true) :
    (e :: l).filter (o.selects dec) = [] := by
  obtain ⟨hlt, hpre⟩ := behind_iff.mp h
  apply filter_eq_nil_of_past hl hlt.le
  rw [MetaCacheEntry.hasPrefix, ← Bool.not_eq_true, isPrefixOf_iff_prefix]
  exact hpre

/-- When the last name of a block is behind the prefix, so are the blocks after it. -/
theorem filter_eq_nil_of_endedPrefix (hlast : b.last = lastName b.data) (hsorted : Sorted (b.data ++ l))
    (h : b.endedPrefix o.pre = true) : l.filter (o.selects dec) = [] := by
  rw [MetacacheBlock.endedPrefix, hlast] at h
  rcases eq_nil_or_concat b.data with hnil | ⟨data, e, he⟩
  · rw [hnil] at h
    exact absurd (behind_iff.mp h).1 (not_lt_nil _)
  · rw [concat_eq_append] at he
    rw [he, lastName_concat] at h
    rw [he, append_assoc] at hsorted
    have hnil : (e :: l).filter (o.selects dec) = [] :=
      filter_eq_nil_of_behind (hsorted.sublist (sublist_append_right _ _)) h
    rw [filter_eq_nil_iff] at hnil ⊢
    exact fun x hx => hnil x (mem_cons_of_mem e hx)

/-- What becomes of a block that is read: the listing ends with what is asked for, and nothing of the
later blocks belongs to it, or all of the block is taken and the next one follows. -/
theorem readParts_block (dec : MetaDecoder) (entries : List MetaCacheEntry)
    (hsorted : Sorted (b.data ++ entriesOf blocks)) (hlast : b.last = lastName b.data) (heos : b.eos = blocks.isEmpty)
    (hpast : ¬ (partN ≠ 0 ∧ b.pastPrefix o.pre = true)) :
    ((readParts dec o partN entries (b :: blocks)).1 =
        (entries ++ (entriesOf (b :: blocks)).filter (o.selects dec)).take o.limit ∧
      ¬ Cut dec o (o.limit - (entries ++ b.data.filter (o.selects dec)).length) blocks) ∨
    (readParts dec o partN entries (b :: blocks) =
        readParts dec o (partN + 1) (entries ++ b.data.filter (o.selects dec)) blocks ∧
      (entries ++ b.data.filter (o.selects dec)).length ≤ o.limit ∧ blocks ≠ []) := by
  have hspec := BlockReader.filter_spec dec o (hsorted.sublist (sublist_append_left _ _))
  rw [readParts, if_neg hpast, entriesOf_cons, filter_append, ← append_assoc]
  generalize BlockReader.filter dec o (.newMetacacheReader b.data) = res at hspec
  obtain ⟨e, err⟩ := res
  obtain ⟨⟨rest, hrest⟩, houtcome⟩ := hspec
  dsimp only at hrest houtcome ⊢
  -- With the limit reached, what is read of the block is enough.
  have hfull : o.limit ≤ (entries ++ e).length →
      (entries ++ e).take o.limit = (entries ++ b.data.filter (o.selects dec) ++
        (entriesOf blocks).filter (o.selects dec)).take o.limit ∧
      ¬ Cut dec o (o.limit - (entries ++ b.data.filter (o.selects dec)).length) blocks := by
    intro hle
    rw [← hrest, ← append_assoc, append_assoc, take_append_of_le_length hle]
    refine ⟨rfl, ?_⟩
    rw [length_append, Nat.sub_eq_zero_of_le (by omega)]
    exact not_cut_zero blocks
  by_cases hover : o.limit > 0 ∧ (entries ++ e).length > o.limit
  · rw [if_pos hover]
    exact .inl (hfull hover.2.le)
  · rw [if_neg hover]
    have hle : (entries ++ e).length ≤ o.limit := not_lt.mp fun h => hover ⟨o.limit_pos, h⟩
    rcases houtcome with ⟨rfl, rfl⟩ | ⟨rfl, hlimit⟩
    · -- The block is read to its end.
      have hend : (entriesOf blocks).filter (o.selects dec) = [] →
          entries ++ b.data.filter (o.selects dec) = (entries ++ b.data.filter (o.selects dec) ++
            (entriesOf blocks).filter (o.selects dec)).take o.limit ∧
          ¬ Cut dec o (o.limit - (entries ++ b.data.filter (o.selects dec)).length) blocks := by
        intro hnil
        refine ⟨?_, not_cut_of_filter_eq_nil hnil⟩
        rw [hnil, append_nil, take_of_length_le hle]
      cases hb : b.eos with
      | true =>
        rw [heos, List.isEmpty_iff] at hb
        exact .inl (hend (by rw [hb]; rfl))
      | false =>
        rw [heos, isEmpty_eq_false_iff] at hb
        by_cases hended : b.endedPrefix o.pre = true
        · rw [if_pos hended]
          exact .inl (hend (filter_eq_nil_of_endedPrefix hlast hsorted hended))
        · rw [if_neg hended]
          exact .inr ⟨rfl, hle, hb⟩
    · have hge : o.limit ≤ (entries ++ e).length := by
        rw [length_append]
        omega
      have heq : (entries ++ e).take o.limit = entries ++ e := take_of_length_le hle
      rw [← heq]
      exact .inl (hfull hge)

theorem LastOfPrefix.pastPrefix (h : LastOfPrefix dec o l) (hl : Sorted l)
    (hfirst : b.first = secondName l) : b.pastPrefix o.pre = true := by
  obtain ⟨e, next, rest, rfl, hsel, hnext⟩ := h
  rw [MetaCacheEntry.hasPrefix, ← Bool.not_eq_true, isPrefixOf_iff_prefix] at hnext
  have he : o.pre <+: e.name := by
    rw [← isPrefixOf_iff_prefix]
    by_contra hpre
    rw [Bool.not_eq_true] at hpre
    rw [ReadOptions.selects_eq_false_of_not_hasPrefix hpre] at hsel
    cases hsel
  have hle : o.pre ≤ next.name := le_trans (le_of_isPrefix he) (rel_of_pairwise_cons hl (mem_cons_self))
  rw [MetacacheBlock.pastPrefix, hfirst]
  refine behind_iff.mpr ⟨lt_of_le_of_ne hle ?_, hnext⟩
  rintro heq
  exact hnext (heq ▸ prefix_rfl)

/-- The first name of a header is behind the prefix: only the first entry of the block may be selected. -/
theorem filter_of_pastPrefix (dec : MetaDecoder) (hl : Sorted l) (hfirst : b.first = secondName l)
    (h : b.pastPrefix o.pre = true) :
    ∃ e next rest, l = e :: next :: rest ∧ next.hasPrefix o.pre = false ∧
      (next :: rest).filter (o.selects dec) = [] := by
  rw [MetacacheBlock.pastPrefix, hfirst] at h
  match l with
  | [] => exact absurd (behind_iff.mp h).1 (not_lt_nil _)
  | [e] => exact absurd (behind_iff.mp h).1 (not_lt_nil _)
  | e :: next :: rest =>
    refine ⟨e, next, rest, rfl, ?_, filter_eq_nil_of_behind hl.of_cons h⟩
    rw [MetaCacheEntry.hasPrefix, ← Bool.not_eq_true, isPrefixOf_iff_prefix]
    exact (behind_iff.mp h).2

theorem readParts_lagging (hlag : Lagging size blocks) (hne : blocks ≠ [])
    (hsorted : Sorted (entriesOf blocks)) (hpart : partN ≠ 0) (hlen : entries.length ≤ o.limit) :
    (readParts dec o partN entries blocks).1 = (entries ++ (entriesOf blocks).filter (o.selects dec)).take o.limit ↔
      ¬ Cut dec o (o.limit - entries.length) blocks := by
  induction blocks generalizing partN entries with
  | nil => exact absurd rfl hne
  | cons b blocks ih =>
    obtain ⟨hdata, -, -, hfirst, hlast, heos, hlag⟩ := hlag
    rw [entriesOf_cons] at hsorted
    by_cases hpast : b.pastPrefix o.pre = true
    · -- The block is not read.
      obtain ⟨e, next, rest, hl, hnext, hnil⟩ := filter_of_pastPrefix dec hsorted hfirst hpast
      have hlater : (entriesOf blocks).filter (o.selects dec) = [] := by
        obtain ⟨x, data, hx⟩ := exists_cons_of_ne_nil hdata
        rw [hx, cons_append, cons.injEq] at hl
        rw [← hl.2, filter_append, append_eq_nil_iff] at hnil
        exact hnil.2
      rw [readParts, if_pos ⟨hpart, hpast⟩, Cut, or_iff_left (not_cut_of_filter_eq_nil hlater),
        entriesOf_cons, hl, filter_cons, hnil]
      cases hsel : o.selects dec e with
      | false =>
        refine iff_of_true ?_ ?_
        · simpa using (take_of_length_le hlen).symm
        · rintro ⟨⟨e', _, _, heq, hsel', -⟩, -⟩
          obtain rfl : e = e' := (cons.inj heq).1
          rw [hsel] at hsel'
          cases hsel'
      | true =>
        have hcut : LastOfPrefix dec o (e :: next :: rest) := ⟨e, next, rest, rfl, hsel, hnext⟩
        rw [if_pos rfl, and_iff_right hcut, Nat.sub_pos_iff_lt, not_lt]
        constructor
        · intro heq
          by_contra hlt
          rw [take_of_length_le (by simp; omega)] at heq
          simp at heq
        · intro hle
          rw [take_append_of_le_length hle, take_of_length_le hlen]
    · have hnot : ¬ LastOfPrefix dec o (b.data ++ entriesOf blocks) :=
        fun h => hpast (h.pastPrefix hsorted hfirst)
      rw [Cut, or_iff_right (fun h => hnot h.1), Nat.sub_sub, ← length_append]
      have hread : ¬ (partN ≠ 0 ∧ b.pastPrefix o.pre = true) := fun h => hpast h.2
      rcases readParts_block dec entries hsorted hlast heos hread with ⟨heq, hcut⟩ | ⟨heq, hle, hne'⟩
      · exact iff_of_true heq hcut
      · rw [heq, entriesOf_cons, filter_append, ← append_assoc]
        exact ih hlag hne' (hsorted.sublist (sublist_append_right _ _)) (Nat.succ_ne_zero _) hle

/-! ## The block to start at -/

theorem le_lastName (hl : Sorted l) (he : e ∈ l) : e.name ≤ lastName l := by
  rcases eq_nil_or_concat l with rfl | ⟨init, z, rfl⟩
  · cases he
  · rw [concat_eq_append] at hl he ⊢
    rw [lastName_concat]
    rcases mem_append.mp he with he | he
    · exact (pairwise_append.mp hl).2.2 e he z (by simp)
    · rw [mem_singleton.mp he]

theorem lastName_ne_nil (hne : l ≠ []) (hnamed : ∀ e ∈ l, e.name ≠ []) : lastName l ≠ [] := by
  rcases eq_nil_or_concat l with rfl | ⟨init, z, rfl⟩
  · exact absurd rfl hne
  · rw [concat_eq_append] at hnamed ⊢
    rw [lastName_concat]
    exact hnamed z (by simp)

/-- `findFirstPart` passes only over blocks with all their names before the name it looks for. -/
theorem findPart_lagging (search : Bytes) (hlag : Lagging size blocks) (hne : blocks ≠ [])
    (hsorted : Sorted (entriesOf blocks)) (hnamed : ∀ e ∈ entriesOf blocks, e.name ≠ []) (i : Nat) :
    (∃ before b after, blocks = before ++ b :: after ∧
      findPart search i blocks = (((i + before.length : Nat) : Int), none) ∧
      ∀ e ∈ entriesOf before, e.name < search) ∨
    findPart search i blocks = (-3, some eof) ∧ ∀ e ∈ entriesOf blocks, e.name < search := by
  induction blocks generalizing i with
  | nil => exact absurd rfl hne
  | cons b blocks ih =>
    obtain ⟨hdata, -, -, -, hlast, heos, hlag⟩ := hlag
    have hbdata : Sorted b.data := hsorted.sublist (sublist_append_left _ _)
    have hlastne : b.last ≠ [] :=
      hlast ▸ lastName_ne_nil hdata fun e he => hnamed e (mem_append_left _ he)
    have hhere : (∃ before b' after, b :: blocks = before ++ b' :: after ∧
        (((i : Nat) : Int), (none : Option Error)) = (((i + before.length : Nat) : Int), none) ∧
        ∀ e ∈ entriesOf before, e.name < search) := ⟨[], b, blocks, rfl, rfl, by simp⟩
    rw [findPart, if_neg (fun h => hlastne h.2.1)]
    by_cases hfirst : b.first < search
    swap
    · rw [if_pos hfirst]
      exact .inl hhere
    rw [if_neg (not_not.mpr hfirst)]
    by_cases hlt : b.last < search
    swap
    · rw [if_pos hlt]
      exact .inl hhere
    rw [if_neg (not_not.mpr hlt)]
    have hbefore : ∀ e ∈ b.data, e.name < search :=
      fun e he => lt_of_le_of_lt (hlast ▸ le_lastName hbdata he) hlt
    cases hb : b.eos with
    | true =>
      rw [heos, List.isEmpty_iff] at hb
      refine .inr ⟨rfl, ?_⟩
      rw [hb]
      simpa using hbefore
    | false =>
      rw [heos, isEmpty_eq_false_iff] at hb
      rw [if_neg (by simp)]
      have hcast : (i : Int) + 1 = ((i + 1 : Nat) : Int) := by push_cast; rfl
      rw [hcast]
      rcases ih hlag hb (hsorted.sublist (sublist_append_right _ _))
        (fun e he => hnamed e (mem_append_right _ he)) (i + 1) with
        ⟨before, b', after, heq, hfind, hall⟩ | ⟨hfind, hall⟩
      · refine .inl ⟨b :: before, b', after, by rw [heq]; rfl, ?_, ?_⟩
        · rw [hfind, length_cons]
          congr 2
          omega
        · exact forall_mem_append.mpr ⟨hbefore, hall⟩
      · exact .inr ⟨hfind, forall_mem_append.mpr ⟨hbefore, hall⟩⟩

theorem ReadOptions.selects_eq_false_of_lt_search (h : e.name < o.search) : o.selects dec e = false := by
  unfold ReadOptions.search at h
  split_ifs at h
  · exact ReadOptions.selects_eq_false_of_lt_pre h
  · exact ReadOptions.selects_eq_false_of_lt_marker h

theorem filter_eq_nil_of_lt_search (h : ∀ e ∈ l, e.name < o.search) : l.filter (o.selects dec) = [] := by
  rw [filter_eq_nil_iff]
  intro e he
  rw [ReadOptions.selects_eq_false_of_lt_search (h e he)]
  exact Bool.false_ne_true

theorem Lagging.of_append {before : List MetacacheBlock} (h : Lagging size (before ++ blocks)) :
    Lagging size blocks := by
  induction before with
  | nil => exact h
  | cons b before ih => exact ih h.2.2.2.2.2.2

variable {blockEntries : Nat}

/-- The first block is read without a look at its header. -/
theorem readParts_zero_iff (dec : MetaDecoder) (o : ReadOptions) (h : Index blockEntries b blocks)
    (hsorted : Sorted (entriesOf (b :: blocks))) :
    (readParts dec o 0 [] (b :: blocks)).1 = o.result dec (entriesOf (b :: blocks)) ↔
      ¬ Cut dec o (o.limit - (b.data.filter (o.selects dec)).length) blocks := by
  rcases readParts_block dec [] hsorted h.last h.eos (fun hp => hp.1 rfl) with
    ⟨heq, hcut⟩ | ⟨heq, hle, hne⟩
  · exact iff_of_true heq hcut
  · rw [heq, ReadOptions.result, entriesOf_cons, filter_append]
    exact readParts_lagging h.rest hne (hsorted.sublist (sublist_append_right _ _))
      Nat.one_ne_zero hle

/-- A request gets from the blocks what it gets from the stream, unless a block after the first one
starts with the last entry of its prefix. -/
theorem streamMetadataParts_iff (h : Index blockEntries b blocks) (hsorted : Sorted (entriesOf (b :: blocks)))
    (hnamed : ∀ e ∈ entriesOf (b :: blocks), e.name ≠ []) :
    (streamMetadataParts dec o (b :: blocks)).1 = o.result dec (entriesOf (b :: blocks)) ↔
      ¬ Cut dec o (o.limit - (b.data.filter (o.selects dec)).length) blocks := by
  have hzero := readParts_zero_iff dec o h hsorted
  unfold streamMetadataParts findFirstPart
  by_cases hsearch : o.search = []
  · rw [if_pos hsearch]
    exact hzero
  rw [if_neg hsearch, findPart]
  by_cases hempty : b.first = [] ∧ b.last = [] ∧ b.eos = true
  · rw [if_pos hempty]
    exact hzero
  rw [if_neg hempty]
  by_cases hfirst : b.first < o.search
  swap
  · rw [if_pos hfirst]
    exact hzero
  rw [if_neg (not_not.mpr hfirst)]
  by_cases hlt : b.last < o.search
  swap
  · rw [if_pos hlt]
    exact hzero
  rw [if_neg (not_not.mpr hlt)]
  -- The first block is passed over.
  have hblocks : Sorted (entriesOf blocks) := hsorted.sublist (sublist_append_right _ _)
  have hb : b.data.filter (o.selects dec) = [] :=
    filter_eq_nil_of_lt_search fun e he => lt_of_le_of_lt
      (h.last ▸ le_lastName (hsorted.sublist (sublist_append_left _ _)) he) hlt
  rw [entriesOf_cons, ReadOptions.result, filter_append, hb, nil_append, length_nil, Nat.sub_zero]
  have hnone : (entriesOf blocks).filter (o.selects dec) = [] →
      ([] = ((entriesOf blocks).filter (o.selects dec)).take o.limit ↔ ¬ Cut dec o o.limit blocks) := by
    intro hnil
    refine iff_of_true ?_ (not_cut_of_filter_eq_nil hnil)
    rw [hnil, take_nil]
  cases heos : b.eos with
  | true =>
    rw [h.eos, List.isEmpty_iff] at heos
    exact hnone (by rw [heos]; rfl)
  | false =>
    rw [h.eos, isEmpty_eq_false_iff] at heos
    rw [if_neg (by simp)]
    rcases findPart_lagging o.search h.rest heos hblocks
      (fun e he => hnamed e (mem_append_right _ he)) 1 with
      ⟨before, b', after, heq, hfind, hall⟩ | ⟨hfind, hall⟩
    · have hbefore : (entriesOf before).filter (o.selects dec) = [] := filter_eq_nil_of_lt_search hall
      have hrest := h.rest
      rw [heq] at hrest hblocks ⊢
      rw [cut_append hrest hbefore]
      rw [heq] at hfind
      have hsplit : entriesOf (before ++ b' :: after) = entriesOf before ++ entriesOf (b' :: after) := flatMap_append
      have hdrop : (b :: (before ++ b' :: after)).drop (1 + before.length) = b' :: after := by
        rw [Nat.add_comm, drop_succ_cons, drop_left]
      rw [show (0 : Int) + 1 = ((1 : Nat) : Int) from rfl, hfind]
      dsimp only
      rw [if_neg (by simp), if_neg (by simp), Int.toNat_natCast, hdrop, hsplit, filter_append, hbefore, nil_append]
      rw [hsplit] at hblocks
      exact readParts_lagging hrest.of_append (cons_ne_nil _ _)
        (hblocks.sublist (sublist_append_right _ _)) (by omega) (Nat.zero_le _)
    · rw [show (0 : Int) + 1 = ((1 : Nat) : Int) from rfl, hfind]
      exact hnone (filter_eq_nil_of_lt_search hall)

/-! ## The places in the stream -/

/-- The blocks after the first one start at these places. -/
def StartsBlock (blockEntries q : Nat) : Prop := ∃ i, q = (blockEntries - 1) + i * blockSize blockEntries

/-- The entry at the place `q` is selected and within the limit, and the one after it is past the
prefix. -/
def LostAt (dec : MetaDecoder) (o : ReadOptions) (l : List MetaCacheEntry) (q : Nat) : Prop :=
  LastOfPrefix dec o (l.drop q) ∧ (l.take q).countP (o.selects dec) < o.limit

theorem not_lastOfPrefix_nil : ¬ LastOfPrefix dec o [] := by
  rintro ⟨_, _, _, h, -⟩
  cases h

theorem drop_after_block {m : Nat} (hle : b.data.length ≤ m) (hlen : blocks ≠ [] → b.data.length = m) (i : Nat) :
    (b.data ++ entriesOf blocks).drop (m + i) = (entriesOf blocks).drop i := by
  by_cases hne : blocks = []
  · rw [hne, entriesOf_nil, append_nil, drop_nil, drop_of_length_le (by omega)]
  · rw [← hlen hne, drop_length_add_append]

theorem take_after_block {m : Nat} (hle : b.data.length ≤ m) (hlen : blocks ≠ [] → b.data.length = m) (i : Nat) :
    (b.data ++ entriesOf blocks).take (m + i) = b.data ++ (entriesOf blocks).take i := by
  by_cases hne : blocks = []
  · rw [hne, entriesOf_nil, append_nil, take_nil, append_nil, take_of_length_le (by omega)]
  · rw [← hlen hne, take_length_add_append]

theorem cut_iff (h : Lagging size blocks) :
    Cut dec o k blocks ↔ ∃ i, LastOfPrefix dec o ((entriesOf blocks).drop (i * size)) ∧
      ((entriesOf blocks).take (i * size)).countP (o.selects dec) < k := by
  induction blocks generalizing k with
  | nil =>
    refine iff_of_false id ?_
    rintro ⟨i, hlast, -⟩
    rw [entriesOf_nil, drop_nil] at hlast
    exact not_lastOfPrefix_nil hlast
  | cons b blocks ih =>
    obtain ⟨-, hle, hsize, -, -, -, hlag⟩ := h
    rw [Cut, ih hlag, entriesOf_cons, ← countP_eq_length_filter]
    constructor
    · rintro (⟨hlast, hpos⟩ | ⟨i, hlast, hcount⟩)
      · exact ⟨0, by rwa [Nat.zero_mul, drop_zero], by rwa [Nat.zero_mul, take_zero, countP_nil]⟩
      · refine ⟨i + 1, ?_, ?_⟩
        · rwa [Nat.succ_mul, Nat.add_comm, drop_after_block hle hsize]
        · rw [Nat.succ_mul, Nat.add_comm, take_after_block hle hsize, countP_append]
          omega
    · rintro ⟨_ | i, hlast, hcount⟩
      · rw [Nat.zero_mul, drop_zero] at hlast
        rw [Nat.zero_mul, take_zero, countP_nil] at hcount
        exact .inl ⟨hlast, hcount⟩
      · rw [Nat.succ_mul, Nat.add_comm, drop_after_block hle hsize] at hlast
        rw [Nat.succ_mul, Nat.add_comm, take_after_block hle hsize, countP_append] at hcount
        exact .inr ⟨i, hlast, by omega⟩

theorem cut_iff_lostAt (h : Index blockEntries b blocks) :
    Cut dec o (o.limit - (b.data.filter (o.selects dec)).length) blocks ↔
      ∃ q, StartsBlock blockEntries q ∧ LostAt dec o (entriesOf (b :: blocks)) q := by
  rw [cut_iff h.rest, entriesOf_cons, ← countP_eq_length_filter]
  constructor
  · rintro ⟨i, hlast, hcount⟩
    refine ⟨_, ⟨i, rfl⟩, ?_, ?_⟩
    · rwa [drop_after_block h.length_le h.length_eq]
    · rw [take_after_block h.length_le h.length_eq, countP_append]
      omega
  · rintro ⟨q, ⟨i, rfl⟩, hlast, hcount⟩
    rw [drop_after_block h.length_le h.length_eq] at hlast
    rw [take_after_block h.length_le h.length_eq, countP_append] at hcount
    exact ⟨i, hlast, by omega⟩

/-! ## The headers -/

/-- The headers have the names of the first and the last entry. -/
def HeadersExact (blocks : List MetacacheBlock) : Prop :=
  ∀ b ∈ blocks, b.first = headName b.data ∧ b.last = lastName b.data

/-- The mark is on the last block only. -/
def MarkedLast (blocks : List MetacacheBlock) : Prop :=
  ∀ before b after, blocks = before ++ b :: after → b.eos = after.isEmpty

/-- The first entry of a list, if there is one, is followed by another one of the same name. -/
def Repeats (l : List MetaCacheEntry) : Prop :=
  ∀ e rest, l = e :: rest → ∃ next more, rest = next :: more ∧ next.name = e.name

theorem repeats_nil : Repeats [] := by
  intro e rest h
  cases h

theorem secondName_eq_headName_iff (hnamed : ∀ e ∈ l, e.name ≠ []) : secondName l = headName l ↔ Repeats l := by
  match l with
  | [] => exact iff_of_true rfl repeats_nil
  | [e] =>
    have he : e.name ≠ [] := hnamed e (by simp)
    refine iff_of_false (fun h => he h.symm) fun h => ?_
    obtain ⟨next, more, heq, -⟩ := h e [] rfl
    cases heq
  | e :: next :: rest =>
    constructor
    · intro h x more hx
      obtain ⟨rfl, rfl⟩ := cons.inj hx
      exact ⟨next, rest, rfl, h⟩
    · intro h
      obtain ⟨next', more, heq, hname⟩ := h e (next :: rest) rfl
      obtain ⟨rfl, rfl⟩ := cons.inj heq
      exact hname

theorem lagging_first_iff (h : Lagging size blocks) (hnamed : ∀ e ∈ entriesOf blocks, e.name ≠ []) :
    (∀ b ∈ blocks, b.first = headName b.data) ↔ ∀ i, Repeats ((entriesOf blocks).drop (i * size)) := by
  induction blocks with
  | nil => simp [repeats_nil]
  | cons b blocks ih =>
    obtain ⟨hdata, hle, hsize, hfirst, -, -, hlag⟩ := h
    rw [entriesOf_cons] at hnamed ⊢
    have hhead : headName b.data = headName (b.data ++ entriesOf blocks) := by
      obtain ⟨x, data, hx⟩ := exists_cons_of_ne_nil hdata
      rw [hx]
      rfl
    rw [forall_mem_cons, hfirst, hhead, secondName_eq_headName_iff hnamed,
      ih hlag fun e he => hnamed e (mem_append_right _ he)]
    constructor
    · rintro ⟨hrep, hlater⟩ (_ | i)
      · rwa [Nat.zero_mul, drop_zero]
      · rw [Nat.succ_mul, Nat.add_comm, drop_after_block hle hsize]
        exact hlater i
    · intro hrep
      refine ⟨by simpa using hrep 0, fun i => ?_⟩
      have hi := hrep (i + 1)
      rwa [Nat.succ_mul, Nat.add_comm, drop_after_block hle hsize] at hi

theorem lagging_last (h : Lagging size blocks) : ∀ b ∈ blocks, b.last = lastName b.data := by
  induction blocks with
  | nil => simp
  | cons b blocks ih => exact forall_mem_cons.mpr ⟨h.2.2.2.2.1, ih h.2.2.2.2.2.2⟩

theorem lagging_markedLast (h : Lagging size blocks) : MarkedLast blocks := by
  intro before b after heq
  rw [heq] at h
  exact h.of_append.2.2.2.2.2.1

theorem Index.markedLast (h : Index blockEntries b blocks) : MarkedLast (b :: blocks) := by
  rintro (_ | ⟨x, before⟩) b' after heq
  · obtain ⟨rfl, rfl⟩ := cons.inj heq
    exact h.eos
  · exact lagging_markedLast h.rest before b' after (cons.inj heq).2

theorem eq_nil_of_repeats (h : ∀ i, Repeats (l.drop i)) : l = [] := by
  by_contra hne
  obtain ⟨init, e, rfl⟩ := (eq_nil_or_concat l).resolve_left hne
  have hlast : (init.concat e).drop init.length = [e] := by
    rw [concat_eq_append, drop_left]
  obtain ⟨next, more, heq, -⟩ := h init.length e [] hlast
  cases heq

theorem Index.headersExact_iff (h : Index blockEntries b blocks)
    (hnamed : ∀ e ∈ entriesOf (b :: blocks), e.name ≠ []) :
    HeadersExact (b :: blocks) ↔ ∀ q, StartsBlock blockEntries q → Repeats ((entriesOf (b :: blocks)).drop q) := by
  have hexact : HeadersExact (b :: blocks) ↔ b.first = headName b.data ∧ ∀ x ∈ blocks, x.first = headName x.data := by
    have hlast : ∀ x ∈ b :: blocks, x.last = lastName x.data := forall_mem_cons.mpr ⟨h.last, lagging_last h.rest⟩
    unfold HeadersExact
    rw [forall₂_and, and_iff_left hlast, forall_mem_cons]
  rw [entriesOf_cons] at hnamed ⊢
  rw [hexact, lagging_first_iff h.rest fun e he => hnamed e (mem_append_right _ he), h.first]
  have hplaces : (∀ q, StartsBlock blockEntries q → Repeats ((b.data ++ entriesOf blocks).drop q)) ↔
      ∀ i, Repeats ((entriesOf blocks).drop (i * blockSize blockEntries)) := by
    constructor
    · intro hrep i
      have hi := hrep _ ⟨i, rfl⟩
      rwa [drop_after_block h.length_le h.length_eq] at hi
    · rintro hrep q ⟨i, rfl⟩
      rw [drop_after_block h.length_le h.length_eq]
      exact hrep i
  rw [hplaces]
  refine and_iff_right_of_imp fun hrep => ?_
  -- A first block without entries comes before blocks of one entry, and the last of these is exact
  -- only if there is none.
  cases hdata : b.data with
  | cons e data => rfl
  | nil =>
    have hnil : entriesOf blocks = [] := by
      by_cases hne : blocks = []
      · rw [hne, entriesOf_nil]
      · have hlen := h.length_eq hne
        rw [hdata, length_nil] at hlen
        have hsize : blockSize blockEntries = 1 := by
          unfold blockSize
          omega
        rw [hsize] at hrep
        exact eq_nil_of_repeats fun i => by simpa using hrep i
    rw [hnil]
    rfl

/-! ## The stored listing of a stream -/

/-- A stream of entries with names, in ascending order. -/
structure EntryStream where
  entries : List MetaCacheEntry
  sorted : Sorted entries
  named : ∀ e ∈ entries, e.name ≠ []

/-- A stored listing is read as the stream is, for the requests that lose no entry where a block
starts. The headers are those of the blocks only where the entries of a block's start have the same
name, and the mark is on the last block. -/
theorem storedListing_iff (dec : MetaDecoder) (nextBlock : MetacacheBlock → Option Error)
    (blockEntries : Nat) (s : EntryStream) :
    let blocks := (newMetacacheBlockWriter nextBlock blockEntries s.entries).stored
    entriesOf blocks = s.entries ∧
    (∀ o : ReadOptions, (streamMetadataParts dec o blocks).1 = o.result dec s.entries ↔
      ∀ q, StartsBlock blockEntries q → ¬ LostAt dec o s.entries q) ∧
    (HeadersExact blocks ↔ ∀ q, StartsBlock blockEntries q → Repeats (s.entries.drop q)) ∧
    MarkedLast blocks := by
  obtain ⟨b, blocks, hstored, hentries, hindex⟩ :=
    newMetacacheBlockWriter_index nextBlock blockEntries s.entries s.named
  have hsorted : Sorted (entriesOf (b :: blocks)) := hentries ▸ s.sorted
  have hnamed : ∀ e ∈ entriesOf (b :: blocks), e.name ≠ [] := hentries ▸ s.named
  intro stored
  have hblocks : stored = b :: blocks := hstored
  rw [hblocks]
  refine ⟨hentries, fun o => ?_, ?_, hindex.markedLast⟩
  · rw [← hentries, streamMetadataParts_iff hindex hsorted hnamed, cut_iff_lostAt hindex]
    simp only [not_exists, not_and]
  · rw [hindex.headersExact_iff hnamed, hentries]

def objectNamed (name : String) : MetaCacheEntry := ⟨ascii name, [1]⟩

def fourObjects : EntryStream where
  entries := [objectNamed "a", objectNamed "b", objectNamed "p1", objectNamed "q"]
  sorted := by decide
  named := by decide

/-- A request for the objects that start with `p`. -/
def objectsWithP : ReadOptions where
  pre := ascii "p"
  marker := []
  separator := ascii "/"
  limit := 1000
  inclDeleted := false
  recursive := true
  includeDirectories := false
  limit_pos := by decide

/-- The second block holds `p1` and `q` and has the first name `q`: the object `p1` is not listed. -/
theorem storedListing_loses_object :
    let blocks := (newMetacacheBlockWriter (fun _ => none) 3 fourObjects.entries).stored
    blocks.map (fun b => (b.data.map (·.name), b.first, b.last)) = [([ascii "a", ascii "b"], ascii "a", ascii "b"),
       ([ascii "p1", ascii "q"], ascii "q", ascii "q")] ∧
    objectsWithP.result byteDecoder fourObjects.entries = [objectNamed "p1"] ∧
    streamMetadataParts byteDecoder objectsWithP blocks = ([], some eof) := by
  decide +kernel

end Otterio.Listing
