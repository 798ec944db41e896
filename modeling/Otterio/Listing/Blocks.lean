import Otterio.Listing.Entry

/-!
# The blocks of a stored listing

The entries of a listing are stored in blocks (`newMetacacheBlockWriter` in `cmd/metacache-stream.go`).
Every block has a header with the names of its first and last entry, and a mark on the last block.

The writer sets the first name of the header before it finishes the block that is full, and finishing
a block clears the first name. So only the first block has the right one: of every later block the
name is that of the second entry (`Lagging`). The header of a block of one entry even has a name of the
next block, or none.
-/

namespace Otterio.Listing

open List

/-- `metacacheBlock`; the data are the entries that they decode to. -/
structure MetacacheBlock where
  data : List MetaCacheEntry
  n : Nat
  first : Bytes
  last : Bytes
  eos : Bool
deriving DecidableEq, Repr

def entriesOf (blocks : List MetacacheBlock) : List MetaCacheEntry := blocks.flatMap (·.data)

@[simp] theorem entriesOf_nil : entriesOf [] = [] := rfl

@[simp] theorem entriesOf_cons (b : MetacacheBlock) (blocks : List MetacacheBlock) :
    entriesOf (b :: blocks) = b.data ++ entriesOf blocks := flatMap_cons

/-- `metacacheBlockWriter`, with the variables of its goroutine. -/
structure BlockWriter where
  current : MetacacheBlock
  /-- The number of entries since the last block. -/
  n : Nat
  streamErr : Option Error
  /-- The blocks given to `nextBlock`. -/
  stored : List MetacacheBlock

def BlockWriter.start : BlockWriter where
  current := { data := [], n := 0, first := [], last := [], eos := false }
  n := 0
  streamErr := none
  stored := []

section Writer

variable (nextBlock : MetacacheBlock → Option Error) (blockEntries : Nat)

/-- `finishBlock`. The last name stays. -/
def BlockWriter.finishBlock (w : BlockWriter) : BlockWriter where
  current := { w.current with data := [], n := w.current.n + 1, first := [] }
  n := w.n
  streamErr := nextBlock w.current
  stored := w.stored ++ [w.current]

/-- The body of the loop. A write into the buffer does not fail, and it takes the place of the error
of `nextBlock`. -/
def BlockWriter.write (w : BlockWriter) (o : MetaCacheEntry) : BlockWriter :=
  if o.name.length = 0 ∨ w.streamErr.isSome then w
  else
    let first := if w.current.first = [] then o.name else w.current.first
    let w := { w with current := { w.current with first := first } }
    let w := if blockEntries - 1 ≤ w.n then { w.finishBlock nextBlock with n := 0 } else w
    { w with
      n := w.n + 1
      streamErr := none
      current := { w.current with data := w.current.data ++ [o], last := o.name } }

/-- The end of the goroutine, when the channel is closed. -/
def BlockWriter.close (w : BlockWriter) : BlockWriter :=
  if 0 < w.n ∨ w.current.n = 0 then
    BlockWriter.finishBlock nextBlock { w with current := { w.current with eos := true } }
  else w

/-- `newMetacacheBlockWriter`, over a channel of capacity `blockEntries`, when it is done. -/
def newMetacacheBlockWriter (entries : List MetaCacheEntry) : BlockWriter :=
  (entries.foldl (BlockWriter.write nextBlock blockEntries) .start).close nextBlock

end Writer

/-! ## The headers -/

def headName (l : List MetaCacheEntry) : Bytes := (l.head?.map (·.name)).getD []

def lastName (l : List MetaCacheEntry) : Bytes := (l.getLast?.map (·.name)).getD []

def secondName (l : List MetaCacheEntry) : Bytes := headName l.tail

@[simp] theorem lastName_concat (l : List MetaCacheEntry) (e : MetaCacheEntry) : lastName (l ++ [e]) = e.name := by
  simp [lastName]

/-- The blocks after the first one: each has the name of its second entry for that of its first, all
but the last have `size` entries, and the last one has the mark. -/
def Lagging (size : Nat) : List MetacacheBlock → Prop
  | [] => True
  | b :: blocks =>
    b.data ≠ [] ∧ b.data.length ≤ size ∧ (blocks ≠ [] → b.data.length = size) ∧
    b.first = secondName (b.data ++ entriesOf blocks) ∧ b.last = lastName b.data ∧
    b.eos = blocks.isEmpty ∧ Lagging size blocks

/-- The number of entries of the blocks after the first one. -/
def blockSize (blockEntries : Nat) : Nat := max (blockEntries - 1) 1

structure Index (blockEntries : Nat) (b : MetacacheBlock) (blocks : List MetacacheBlock) : Prop where
  length_le : b.data.length ≤ blockEntries - 1
  length_eq : blocks ≠ [] → b.data.length = blockEntries - 1
  first : b.first = headName (b.data ++ entriesOf blocks)
  last : b.last = lastName b.data
  eos : b.eos = blocks.isEmpty
  rest : Lagging (blockSize blockEntries) blocks

/-! ## What the writer stores -/

section Writer

variable {nextBlock : MetacacheBlock → Option Error} {blockEntries : Nat} {w : BlockWriter}
  {o : MetaCacheEntry}

/-- The writer with the first name that the header gets from the next entry. -/
def BlockWriter.named (w : BlockWriter) (o : MetaCacheEntry) : MetacacheBlock :=
  { w.current with first := if w.current.first = [] then o.name else w.current.first }

theorem BlockWriter.write_same (ho : o.name ≠ []) (herr : w.streamErr = none) (hn : w.n < blockEntries - 1) :
    w.write nextBlock blockEntries o = { w with
        n := w.n + 1
        current := { w.named o with data := w.current.data ++ [o], last := o.name } } := by
  have hskip : ¬ (o.name.length = 0 ∨ w.streamErr.isSome = true) := by simp [ho, herr]
  rw [BlockWriter.write, if_neg hskip]
  dsimp only
  rw [if_neg (not_le.mpr hn)]
  simp [BlockWriter.named, herr]

def BlockWriter.next (w : BlockWriter) (o : MetaCacheEntry) : BlockWriter where
  current := { w.current with data := [o], n := w.current.n + 1, first := [], last := o.name }
  n := 1
  streamErr := none
  stored := w.stored ++ [w.named o]

theorem BlockWriter.write_next (ho : o.name ≠ []) (herr : w.streamErr = none)
    (hn : blockEntries - 1 ≤ w.n) : w.write nextBlock blockEntries o = w.next o := by
  have hskip : ¬ (o.name.length = 0 ∨ w.streamErr.isSome = true) := by simp [ho, herr]
  rw [BlockWriter.write, if_neg hskip]
  dsimp only
  rw [if_pos hn]
  rfl

/-- The writer in a block of `size` entries. The header takes its first name from the first entry in the
first block, and from the second entry in the others. -/
structure BlockWriter.InBlock (blockEntries size : Nat) (nameOf : List MetaCacheEntry → Bytes)
    (w : BlockWriter) : Prop where
  kind : nameOf = headName ∧ w.current.n = 0 ∨ nameOf = secondName ∧ w.current.data ≠ []
  named : ∀ e ∈ w.current.data, e.name ≠ []
  n : w.n = w.current.data.length
  n_le : w.n ≤ size
  le_size : blockEntries - 1 ≤ size
  size_le : size ≤ max (blockEntries - 1) w.n
  first : w.current.first = nameOf w.current.data
  last : w.current.last = lastName w.current.data
  eos : w.current.eos = false
  streamErr : w.streamErr = none

variable {size : Nat} {nameOf : List MetaCacheEntry → Bytes}

theorem BlockWriter.inBlock_next (heos : w.current.eos = false) (ho : o.name ≠ []) :
    (w.next o).InBlock blockEntries (blockSize blockEntries) secondName where
  kind := .inr ⟨rfl, by simp [BlockWriter.next]⟩
  named := by simpa [BlockWriter.next] using ho
  n := rfl
  n_le := Nat.le_max_right _ _
  le_size := Nat.le_max_left _ _
  size_le := le_rfl
  first := rfl
  last := rfl
  eos := heos
  streamErr := rfl

theorem headName_append (l : List MetaCacheEntry) (hnamed : ∀ e ∈ l, e.name ≠ []) (r : List MetaCacheEntry) :
    headName (l ++ o :: r) = if headName l = [] then o.name else headName l := by
  match l with
  | [] => rfl
  | e :: l =>
    have he : e.name ≠ [] := hnamed e (by simp)
    show e.name = if e.name = [] then o.name else e.name
    rw [if_neg he]

theorem secondName_append {l : List MetaCacheEntry} (hl : l ≠ []) (hnamed : ∀ e ∈ l, e.name ≠ [])
    (r : List MetaCacheEntry) : secondName (l ++ o :: r) = if secondName l = [] then o.name else secondName l := by
  obtain ⟨e, l, rfl⟩ := exists_cons_of_ne_nil hl
  exact headName_append l (fun e he => hnamed e (mem_cons_of_mem _ he)) r

theorem BlockWriter.InBlock.named_first (h : w.InBlock blockEntries size nameOf) (r : List MetaCacheEntry) :
    (w.named o).first = nameOf (w.current.data ++ o :: r) := by
  have hname : nameOf (w.current.data ++ o :: r) =
      if nameOf w.current.data = [] then o.name else nameOf w.current.data := by
    rcases h.kind with ⟨rfl, -⟩ | ⟨rfl, hdata⟩
    · exact headName_append _ h.named r
    · exact secondName_append hdata h.named r
  rw [hname, ← h.first]
  rfl

/-- From inside a block, the rest of the stream is stored in this block and in later ones. -/
theorem BlockWriter.InBlock.stored (h : w.InBlock blockEntries size nameOf) (entries : List MetaCacheEntry)
    (hnamed : ∀ e ∈ entries, e.name ≠ []) :
    ∃ b blocks, ((entries.foldl (BlockWriter.write nextBlock blockEntries) w).close nextBlock).stored =
        w.stored ++ b :: blocks ∧
      entriesOf (b :: blocks) = w.current.data ++ entries ∧ (w.current.data ≠ [] → b.data ≠ []) ∧
      b.data.length ≤ size ∧ (blocks ≠ [] → b.data.length = size) ∧
      b.first = nameOf (b.data ++ entriesOf blocks) ∧ b.last = lastName b.data ∧
      b.eos = blocks.isEmpty ∧ Lagging (blockSize blockEntries) blocks := by
  induction entries generalizing w size nameOf with
  | nil =>
    have hclose : 0 < w.n ∨ w.current.n = 0 := by
      rcases h.kind with ⟨-, hzero⟩ | ⟨-, hdata⟩
      · exact .inr hzero
      · exact .inl (h.n ▸ length_pos_iff.mpr hdata)
    refine ⟨{ w.current with eos := true }, [], ?_, by simp, id, h.n ▸ h.n_le, by simp,
      by simpa using h.first, h.last, rfl, trivial⟩
    rw [foldl_nil, BlockWriter.close, if_pos hclose]
    rfl
  | cons o entries ih =>
    obtain ⟨ho, hrest⟩ := forall_mem_cons.mp hnamed
    rw [foldl_cons]
    by_cases hn : w.n < blockEntries - 1
    · -- The entry goes into the block.
      rw [write_same ho h.streamErr hn]
      have hw : BlockWriter.InBlock blockEntries size nameOf
          { w with
            n := w.n + 1
            current := { w.named o with data := w.current.data ++ [o], last := o.name } } :=
        { kind := h.kind.imp_right fun hkind => ⟨hkind.1, by simp⟩
          named := by simpa [or_imp, forall_and, ho] using h.named
          n := by simp [h.n]
          n_le := hn.trans_le h.le_size
          le_size := h.le_size
          size_le := h.size_le.trans (max_le_max_left _ (Nat.le_succ _))
          first := h.named_first []
          last := by simp
          eos := h.eos
          streamErr := h.streamErr }
      obtain ⟨b, blocks, hstored, hentries, hdata, hblock⟩ := ih hw hrest
      exact ⟨b, blocks, hstored, by simpa using hentries, fun _ => hdata (by simp), hblock⟩
    · -- The block is full: the entry is the first one of the next block.
      have hfull : blockEntries - 1 ≤ w.n := not_lt.mp hn
      have hsize : w.current.data.length = size := h.n ▸ le_antisymm h.n_le (h.size_le.trans (max_le hfull le_rfl))
      rw [write_next ho h.streamErr hfull]
      obtain ⟨b, blocks, hstored, hentries, hdata, hle, hlen, hfirst, hlast, heos, hlag⟩ :=
        ih (inBlock_next h.eos ho) hrest
      refine ⟨w.named o, b :: blocks, ?_, ?_, id, hsize.le, fun _ => hsize, ?_, h.last, h.eos,
        hdata (by simp [BlockWriter.next]), hle, hlen, hfirst, hlast, heos, hlag⟩
      · rw [hstored]
        exact append_assoc w.stored [w.named o] (b :: blocks)
      · rw [entriesOf_cons, hentries]
        rfl
      · rw [hentries]
        exact h.named_first entries

/-- The blocks hold the stream, and their headers lag. -/
theorem newMetacacheBlockWriter_index (nextBlock : MetacacheBlock → Option Error) (blockEntries : Nat)
    (entries : List MetaCacheEntry) (hnamed : ∀ e ∈ entries, e.name ≠ []) :
    ∃ b blocks, (newMetacacheBlockWriter nextBlock blockEntries entries).stored = b :: blocks ∧
      entriesOf (b :: blocks) = entries ∧ Index blockEntries b blocks := by
  have hstart : BlockWriter.InBlock blockEntries (blockEntries - 1) headName .start :=
    { kind := .inl ⟨rfl, rfl⟩
      named := by simp [BlockWriter.start]
      n := rfl
      n_le := Nat.zero_le _
      le_size := le_rfl
      size_le := le_max_left _ _
      first := rfl
      last := rfl
      eos := rfl
      streamErr := rfl }
  obtain ⟨b, blocks, hstored, hentries, -, hle, hlen, hfirst, hlast, heos, hlag⟩ := hstart.stored entries hnamed
  exact ⟨b, blocks, hstored, hentries, hle, hlen, hfirst, hlast, heos, hlag⟩

end Writer

end Otterio.Listing
