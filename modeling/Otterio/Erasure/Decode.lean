import Otterio.Erasure.ParallelReader

/-!
# Reading a range of an erasure-coded object

`Decode` reads the blocks that a range reaches, reconstructs their data shards and writes the part of
each block that lies in the range (`cmd/erasure-decode.go`, `cmd/erasure-utils.go`). The writer takes
all that it is given.

* `writeDataBlocks_eq`: the data shards of a block, put together, without the bytes before the offset
  and after the length.
* `blockRange_eq`: the part of the range that lies in a block.
* `decodeLoop_eq`: the invariant of the block loop is that all blocks before the current one are
  written.

The result: the range of the original bytes is written, whichever shards are missing and in
whatever order the readers answer.
-/

namespace Otterio

open Err List

namespace Err

def errUnexpected : Error :=
  storageErr "unexpected error, please report this issue at https://github.com/soulteary/otterio/issues"

def errLessData : Error := storageErr "less data available than what was requested"

def errTooFewShards : Error := .other 23

def errShortData : Error := .other 24

end Err

/-! ## Writing the data shards -/

def getDataBlockLen (enBlocks : List Bytes) (dataBlocks : Nat) : Nat :=
  ((enBlocks.take dataBlocks).map length).sum

/-- The loop of `writeDataBlocks`: what it writes. -/
def writeLoop : List Bytes → Nat → Nat → Bytes
  | [], _, _ => []
  | block :: blocks, offset, write =>
    if offset ≥ block.length then writeLoop blocks (offset - block.length) write
    else
      let block := block.drop offset
      if write < block.length then block.take write
      else block ++ writeLoop blocks 0 (write - block.length)

/-- `writeDataBlocks`: what it writes, and with it how much. -/
def writeDataBlocks (enBlocks : List Bytes) (dataBlocks : Nat) (offset length : Int) : Except Error Bytes :=
  if offset < 0 ∨ length < 0 then .error errUnexpected
  else if enBlocks.length < dataBlocks then .error errTooFewShards
  else if getDataBlockLen enBlocks dataBlocks < length then .error errShortData
  else .ok (writeLoop (enBlocks.take dataBlocks) offset.toNat length.toNat)

theorem writeLoop_eq (blocks : List Bytes) (offset write : Nat) :
    writeLoop blocks offset write = (blocks.flatten.drop offset).take write := by
  induction blocks generalizing offset write with
  | nil => simp [writeLoop]
  | cons block blocks ih =>
    rw [writeLoop, flatten_cons]
    split
    · rename_i hskip
      rw [ih, drop_append, drop_eq_nil_of_le hskip, nil_append]
    · have hle : offset ≤ block.length := by omega
      rw [drop_append_of_le_length hle]
      simp only
      split
      · rename_i hshort
        rw [take_append_of_le_length hshort.le]
      · have hwhole : (block.drop offset).take write = block.drop offset :=
          take_of_length_le (by omega)
        rw [ih, drop_zero, take_append, hwhole]

theorem writeDataBlocks_eq {enBlocks : List Bytes} {dataBlocks offset length : Nat}
    (hblocks : dataBlocks ≤ enBlocks.length) (hlength : length ≤ (enBlocks.take dataBlocks).flatten.length) :
    writeDataBlocks enBlocks dataBlocks offset length =
      .ok (((enBlocks.take dataBlocks).flatten.drop offset).take length) := by
  rw [length_flatten] at hlength
  unfold writeDataBlocks getDataBlockLen
  rw [if_neg (by omega), if_neg (by omega), if_neg (by omega), Int.toNat_natCast, Int.toNat_natCast, writeLoop_eq]

/-! ## The block loop -/

def blockRange (blockSize offset length block : Nat) : Nat × Nat :=
  let startBlock := offset / blockSize
  let endBlock := (offset + length) / blockSize
  if startBlock = endBlock then (offset % blockSize, length)
  else if block = startBlock then (offset % blockSize, blockSize - offset % blockSize)
  else if block = endBlock then (0, (offset + length) % blockSize)
  else (0, blockSize)

/-- What `Decode` returns, what it has written and the calls of `ReadAt`. -/
structure Decoded where
  written : Int
  err : Option Error
  out : Bytes
  reads : List ShardRead

structure DecodeState where
  reader : ParallelReader
  out : Bytes
  bytesWritten : Nat
  derr : Option Error
  reads : List ShardRead

def DecodeState.finish (s : DecodeState) (length : Nat) : Decoded :=
  if s.bytesWritten ≠ length then ⟨s.bytesWritten, some errLessData, s.out, s.reads⟩
  else ⟨s.bytesWritten, s.derr, s.out, s.reads⟩

namespace Erasure

variable (e : Erasure) (rs : ReedSolomon e.dataBlocks e.parityBlocks)
  (o : IterOrder (Option Error × Nat)) (sched : Nat → Nat → Nat)

/-- The loop of `Decode`, over the blocks that are left. -/
def decodeLoop (offset length : Nat) : List Nat → DecodeState → Option Decoded
  | [], s => some (s.finish length)
  | block :: blocks, s =>
    let (blockOffset, blockLength) := blockRange e.blockSize offset length block
    if blockLength = 0 then some (s.finish length)
    else
      match s.reader.read o (sched block) with
      | none => none
      | some r =>
        let reads := s.reads ++ r.reads
        if r.bufs.isEmpty && r.err.isSome then some ⟨-1, r.err, s.out, reads⟩
        else
          let derr :=
            if !r.bufs.isEmpty && s.derr.isNone &&
              (errorsIs r.err errFileNotFound || errorsIs r.err errFileCorrupt) then r.err
            else s.derr
          match e.decodeDataBlocks rs r.bufs with
          | .error err => some ⟨-1, some err, s.out, reads⟩
          | .ok bufs =>
            match writeDataBlocks bufs e.dataBlocks blockOffset blockLength with
            | .error err => some ⟨-1, some err, s.out, reads⟩
            | .ok w =>
              decodeLoop offset length blocks
                ⟨r.reader, s.out ++ w, s.bytesWritten + w.length, derr, reads⟩

/-- `Decode`, with a schedule for each block; `none` stands for a call that panics or never
returns. -/
def decode (readers : List ShardReader) (offset length totalLength : Int) (prefer : List Bool) : Option Decoded :=
  if offset < 0 ∨ length < 0 then some ⟨-1, some errInvalidArgument, [], []⟩
  else if offset + length > totalLength then some ⟨-1, some errInvalidArgument, [], []⟩
  else if length = 0 then some ⟨0, none, [], []⟩
  else
    let reader := newParallelReader readers e offset totalLength
    let reader := if prefer.length = readers.length then reader.preferReaders prefer else reader
    let startBlock := offset.toNat / e.blockSize
    let endBlock := (offset.toNat + length.toNat) / e.blockSize
    e.decodeLoop rs o sched offset.toNat length.toNat
      (range' startBlock (endBlock + 1 - startBlock)) ⟨reader, [], 0, none, []⟩

end Erasure

def ShardRead.Before (till : Int) (read : ShardRead) : Prop := (read.offset + read.length : Int) ≤ till

section Range

variable {B offset length k : Nat}

theorem blockRange_eq (hB : 0 < B) (hstart : offset / B ≤ k) (hend : k ≤ (offset + length) / B) :
    k * B + (blockRange B offset length k).1 = max offset (k * B) ∧ (blockRange B offset length k).2 =
        min (offset + length) (k * B + B) - max offset (k * B) := by
  have hoff := Nat.div_add_mod offset B
  have hofflt := Nat.mod_lt offset hB
  have hsum := Nat.div_add_mod (offset + length) B
  have hsumlt := Nat.mod_lt (offset + length) hB
  rw [Nat.mul_comm] at hoff hsum
  unfold blockRange
  simp only
  split
  · rename_i hsame
    have hk : k = offset / B := by omega
    rw [← hsame] at hsum
    rw [hk]
    omega
  · split
    · rename_i hne hk
      rw [hk]
      have hnext : (offset / B + 1) * B ≤ (offset + length) / B * B :=
        Nat.mul_le_mul_right _ (by omega)
      rw [Nat.add_mul] at hnext
      omega
    · have hprev : (offset / B + 1) * B ≤ k * B := Nat.mul_le_mul_right _ (by omega)
      rw [Nat.add_mul] at hprev
      split
      · rename_i hlast
        rw [← hlast] at hsum
        omega
      · have hnext : (k + 1) * B ≤ (offset + length) / B * B := Nat.mul_le_mul_right _ (by omega)
        rw [Nat.add_mul] at hnext
        omega

end Range

/-! ## One block -/

namespace Erasure

section Block

variable {e : Erasure} {rs : ReedSolomon e.dataBlocks e.parityBlocks} {D : Bytes} {k : Nat}
  {good : Nat → Bool} {p : ParallelReader}

/-- The reader is about to read the block `k`. -/
structure AtBlock (e : Erasure) (rs : ReedSolomon e.dataBlocks e.parityBlocks) (D : Bytes)
    (good : Nat → Bool) (k : Nat) (p : ParallelReader) : Prop where
  serves : Serves ((range e.total).map (e.shardStream rs D)) p.readers e.dataBlocks good
  dataBlocks : p.dataBlocks = e.dataBlocks
  offset : p.offset = (k * e.shardLen e.blockSize : Nat)
  shardSize : p.shardSize = e.shardLen e.blockSize
  shardFileSize : p.shardFileSize = e.streamLen D.length
  inPlace : p.readerToBuf = range p.readers.length

theorem getD_streams {i : Nat} (hi : i < e.total) :
    ((range e.total).map (e.shardStream rs D)).getD i [] = e.shardStream rs D i := by
  rw [getD_eq_getElem _ _ (by simpa using hi), getElem_map, getElem_range]

theorem AtBlock.nextSize (h : AtBlock e rs D good k p) (hk : k * e.blockSize < D.length) :
    p.nextSize = e.shardLen (chunkAt e.blockSize D k).length := by
  obtain ⟨hsize, hle⟩ := shard_or_rest hk
  unfold ParallelReader.nextSize
  rw [h.offset, h.shardSize, h.shardFileSize]
  split at hsize
  · omega
  · rw [if_neg (by omega), hsize]

theorem AtBlock.ready (h : AtBlock e rs D good k p) (hk : k * e.blockSize < D.length) :
    ReadReady { p with shardSize := p.nextSize } ((range e.total).map (e.shardStream rs D))
      good where
  serves := by
    simp only [h.dataBlocks]
    exact h.serves
  inPlace := h.inPlace
  data_pos := by
    simp only [h.dataBlocks]
    exact e.params.dataBlocks_pos
  data_le := by
    simp only [h.dataBlocks, h.serves.length, length_map, length_range, total]
    omega
  size_pos := by
    simp only [h.nextSize hk, Int.toNat_natCast]
    exact e.shardLen_pos (length_pos_of_ne_nil (chunkAt_ne_nil hk))
  inside i hi := by
    have hi : i < e.total := by simpa using hi
    simp only [getD_streams hi, h.nextSize hk, h.offset, Int.toNat_natCast]
    exact (shardStream_slice rs hi hk).2

theorem AtBlock.shardAt (h : AtBlock e rs D good k p) (hk : k * e.blockSize < D.length) {i : Nat} (hi : i < e.total) :
    ({ p with shardSize := p.nextSize } : ParallelReader).shardAt
      ((range e.total).map (e.shardStream rs D)) i =
    e.shard rs (chunkAt e.blockSize D k) i := by
  simp only [ParallelReader.shardAt, getD_streams hi, h.nextSize hk, h.offset, Int.toNat_natCast]
  exact (shardStream_slice rs hi hk).1

variable {data : Bytes}

theorem take_encodeData (hdata : data ≠ []) :
    (e.encodeData rs data).take e.dataBlocks = Otterio.split e.dataBlocks data := by
  have hne : data.length ≠ 0 := by simpa using hdata
  rw [encodeData, if_neg hne]
  exact take_left' length_split

theorem decodeDataBlocks_of_part {bufs : List Bytes} (hdata : data ≠ []) (hlength : bufs.length = e.total)
    (hright : ∀ i < e.total, bufs.getD i [] = [] ∨ bufs.getD i [] = e.shard rs data i)
    (henough : e.dataBlocks ≤ bufCount bufs) :
    ∃ out, e.decodeDataBlocks rs bufs = .ok out ∧ out.length = e.total ∧
      out.take e.dataBlocks = Otterio.split e.dataBlocks data := by
  have hd := e.params.dataBlocks_pos
  have hp := e.params.parityBlocks_pos
  have hne : data.length ≠ 0 := by simpa using hdata
  have hpart : IsPart bufs (e.encodeData rs data) := by
    refine forall₂_iff_get.mpr ⟨by rw [hlength, length_encodeData], fun i h₁ h₂ => ?_⟩
    have hi := hright i (hlength ▸ h₁)
    rw [shard, getD_eq_getElem _ _ h₁, getD_eq_getElem _ _ h₂] at hi
    exact hi
  unfold decodeDataBlocks
  by_cases hany : bufs.any isEmpty = true
  · -- A shard is missing.
    rw [if_pos hany, if_neg (by rw [hlength, total]; omega)]
    have hsplit : ∀ s ∈ Otterio.split e.dataBlocks data, s.length = e.shardLen data.length :=
      fun s hs => length_of_mem_split hd hs
    rw [encodeData, if_neg hne] at hpart
    obtain ⟨out, hout, hlen, htake⟩ := rs.reconstructs _ _ bufs length_split hsplit
      (e.shardLen_pos (Nat.pos_of_ne_zero hne)) hpart henough
    exact ⟨out, hout, hlen.trans hlength, htake⟩
  · -- All shards are there.
    rw [if_neg hany, if_pos (.inl rfl)]
    have hall : bufs = e.encodeData rs data := by
      refine ext_getElem (by rw [hlength, length_encodeData]) fun i h₁ h₂ => ?_
      rcases forall₂_iff_get.mp hpart |>.2 i h₁ h₂ with hempty | hfull
      · refine absurd (any_eq_true.mpr ⟨_, getElem_mem h₁, ?_⟩) hany
        exact isEmpty_iff.mpr hempty
      · exact hfull
    exact ⟨bufs, rfl, hlength, by rw [hall, take_encodeData hdata]⟩

variable {offset length : Nat}

theorem writeDataBlocks_block {out : List Bytes} (hdata : data ≠ []) (hout : out.length = e.total)
    (htake : out.take e.dataBlocks = Otterio.split e.dataBlocks data) (hle : offset + length ≤ data.length) :
    writeDataBlocks out e.dataBlocks offset length = .ok ((data.drop offset).take length) := by
  have hflat : (out.take e.dataBlocks).flatten = padded e.dataBlocks data := by
    rw [htake, flatten_split e.params.dataBlocks_pos hdata]
  rw [writeDataBlocks_eq (by rw [hout, total]; omega), hflat]
  · unfold padded
    rw [drop_append_of_le_length (by omega), take_append_of_le_length]
    rw [length_drop]
    omega
  · rw [hflat, padded, length_append]
    omega

theorem AtBlock.step (o : IterOrder (Option Error × Nat)) (sched : Nat → Nat)
    (h : AtBlock e rs D good k p) (hk : k * e.blockSize < D.length) :
    ∃ r out, p.read o sched = some r ∧ r.bufs ≠ [] ∧ e.decodeDataBlocks rs r.bufs = .ok out ∧
      (∀ offset length, offset + length ≤ (chunkAt e.blockSize D k).length →
        writeDataBlocks out e.dataBlocks offset length = .ok (((chunkAt e.blockSize D k).drop offset).take length)) ∧
      (k * e.blockSize + e.blockSize ≤ D.length → AtBlock e rs D good (k + 1) r.reader) ∧
      ∀ read ∈ r.reads, read.offset = k * e.shardLen e.blockSize ∧
        read.length = e.shardLen (chunkAt e.blockSize D k).length := by
  have hne := chunkAt_ne_nil hk
  have hsize := h.nextSize hk
  obtain ⟨r, hread, hr⟩ := readShards_of_ready o sched (h.ready hk)
  have hlength : r.bufs.length = e.total := by simpa using hr.length
  have hright : ∀ i < e.total, r.bufs.getD i [] = [] ∨
      r.bufs.getD i [] = e.shard rs (chunkAt e.blockSize D k) i := fun i hi =>
    h.shardAt hk hi ▸ hr.right i
  have henough : e.dataBlocks ≤ bufCount r.bufs := h.dataBlocks ▸ hr.enough
  obtain ⟨out, hout, houtlen, htake⟩ := decodeDataBlocks_of_part hne hlength hright henough
  refine ⟨r, out, hread, ?_, hout, fun offset length => writeDataBlocks_block hne houtlen htake,
    fun hfull => ?_, fun read hmem => ?_⟩
  · intro hnil
    rw [hnil, length_nil, total] at hlength
    have hd := e.params.dataBlocks_pos
    omega
  · -- After a full block the shards keep their size.
    have hlen : (chunkAt e.blockSize D k).length = e.blockSize := by
      rw [length_chunkAt]
      omega
    rw [hlen] at hsize
    have hserves := hr.serves
    simp only [h.dataBlocks] at hserves
    rw [hr.reader]
    refine ⟨hserves, h.dataBlocks, ?_, hsize, h.shardFileSize, ?_⟩
    · simp only [h.offset, hsize]
      push_cast
      ring
    · simp only [h.inPlace, h.serves.length, hserves.length]
  · obtain ⟨hoff, hlen⟩ := hr.reads read hmem
    simp only [h.offset, hsize, Int.toNat_natCast] at hoff hlen
    exact ⟨hoff, hlen⟩

/-! ## All blocks -/

theorem finish_of_all {s : DecodeState} (hrange : offset + length ≤ D.length)
    (hout : s.out = (D.drop offset).take length) (hwritten : s.bytesWritten = s.out.length) :
    s.finish length = ⟨length, s.derr, (D.drop offset).take length, s.reads⟩ := by
  have hlen : s.bytesWritten = length := by
    rw [hwritten, hout, length_take, length_drop]
    omega
  rw [DecodeState.finish, if_neg (by omega), hlen, hout]

/-- The blocks from `k` on. Those before it are written. -/
theorem decodeLoop_eq (o : IterOrder (Option Error × Nat)) (sched : Nat → Nat → Nat) {m : Nat}
    (hrange : offset + length ≤ D.length) {s : DecodeState} (hm : k + m = (offset + length) / e.blockSize + 1)
    (hstart : offset / e.blockSize ≤ k) (hblock : 0 < m → AtBlock e rs D good k s.reader)
    (hout : s.out = (D.drop offset).take (min (k * e.blockSize) (offset + length) - offset))
    (hwritten : s.bytesWritten = s.out.length)
    (hreads : ∀ read ∈ s.reads, read.Before (e.shardFileOffset offset length D.length)) :
    ∃ derr reads, e.decodeLoop rs o sched offset length (range' k m) s =
        some ⟨length, derr, (D.drop offset).take length, reads⟩ ∧
      ∀ read ∈ reads, read.Before (e.shardFileOffset offset length D.length) := by
  have hB := e.params.blockSize_pos
  have hsum := Nat.div_add_mod (offset + length) e.blockSize
  have hsumlt := Nat.mod_lt (offset + length) hB
  rw [Nat.mul_comm] at hsum
  induction m generalizing k s with
  | zero =>
    -- The last block ends after the range.
    have hall : min (k * e.blockSize) (offset + length) - offset = length := by
      have hk : k * e.blockSize = (offset + length) / e.blockSize * e.blockSize + e.blockSize := by
        rw [show k = (offset + length) / e.blockSize + 1 by omega, Nat.add_mul, Nat.one_mul]
      omega
    rw [hall] at hout
    exact ⟨s.derr, s.reads, by rw [range'_zero, decodeLoop, finish_of_all hrange hout hwritten], hreads⟩
  | succ m ih =>
    have hend : k ≤ (offset + length) / e.blockSize := by omega
    obtain ⟨hoffset, hlength⟩ := blockRange_eq hB hstart hend
    have hfirst : offset < k * e.blockSize + e.blockSize := by
      have hlt := Nat.lt_mul_div_succ offset hB
      have hmono : (offset / e.blockSize + 1) * e.blockSize ≤ (k + 1) * e.blockSize :=
        Nat.mul_le_mul_right _ (by omega)
      rw [Nat.mul_comm] at hlt
      rw [Nat.add_mul k, Nat.one_mul] at hmono
      omega
    rw [range'_succ, decodeLoop]
    generalize blockRange e.blockSize offset length k = range at hoffset hlength ⊢
    obtain ⟨blockOffset, blockLength⟩ := range
    simp only at hoffset hlength ⊢
    split
    · -- The range ends where the block starts.
      have hall : min (k * e.blockSize) (offset + length) - offset = length := by omega
      rw [hall] at hout
      exact ⟨s.derr, s.reads, by rw [finish_of_all hrange hout hwritten], hreads⟩
    · have hk : k * e.blockSize < D.length := by omega
      obtain ⟨r, out, hread, hbufs, hdecode, hwrite, hnext, hcalls⟩ := (hblock (Nat.succ_pos m)).step o (sched k) hk
      have hinside : blockOffset + blockLength ≤ (chunkAt e.blockSize D k).length := by
        rw [length_chunkAt]
        omega
      have hempty : r.bufs.isEmpty = false := by simpa using hbufs
      rw [hread]
      simp only [hempty, Bool.false_and, Bool.false_eq_true, if_false, hdecode, hwrite _ _ hinside]
      refine ih ?_ ?_ ?_ ?_ ?_ ?_
      · omega
      · omega
      · intro hmore
        have hmono : (k + 1) * e.blockSize ≤ (offset + length) / e.blockSize * e.blockSize :=
          Nat.mul_le_mul_right _ (by omega)
        rw [Nat.add_mul, Nat.one_mul] at hmono
        exact hnext (by omega)
      · -- The range up to the block, and its part in the block.
        generalize ha : min (k * e.blockSize) (offset + length) - offset = a at hout
        have hb : min ((k + 1) * e.blockSize) (offset + length) - offset = a + blockLength := by
          rw [Nat.add_mul, Nat.one_mul]
          omega
        have hplace : k * e.blockSize + blockOffset = offset + a := by omega
        have hfit : blockOffset + blockLength ≤ e.blockSize := by
          omega
        rw [hout, chunkAt_slice _ _ hfit, hplace, hb, take_add, drop_drop]
      · simp only [length_append, hwritten]
      · intro read hmem
        rcases mem_append.mp hmem with hmem | hmem
        · exact hreads read hmem
        · obtain ⟨hoff, hlen⟩ := hcalls read hmem
          rw [ShardRead.Before, hoff, hlen]
          exact_mod_cast le_shardFileOffset hk hend

theorem atBlock_new {readers : List ShardReader}
    (hserves : Serves ((range e.total).map (e.shardStream rs D)) readers e.dataBlocks good) :
    AtBlock e rs D good (offset / e.blockSize) (newParallelReader readers e offset D.length) where
  serves := hserves
  dataBlocks := rfl
  offset := by
    simp only [newParallelReader, shardSize_eq, ← Int.ofNat_tdiv]
    push_cast
    rfl
  shardSize := e.shardSize_eq
  shardFileSize := e.shardFileSize_eq D.length
  inPlace := rfl

end Block

end Erasure

/-- **A ranged read returns the range.** The shard streams are those of `Encode`; at least as many of
them as there are data blocks can be read, and the readers of the others are `nil` or fail. Then
`Decode` writes the bytes of the range, reports their number and reads the streams before
`ShardFileOffset` only, for every schedule of its goroutines. -/
theorem decode_eq_range (e : Erasure) (rs : ReedSolomon e.dataBlocks e.parityBlocks)
    (o : IterOrder (Option Error × Nat)) (sched : Nat → Nat → Nat) {D : Bytes} {streams : List Bytes} {n : Nat}
    (hencode : e.encode rs D = some (streams, n)) {readers : List ShardReader} {good : Nat → Bool}
    (hserves : Serves streams readers e.dataBlocks good) {offset length : Nat} (hrange : offset + length ≤ D.length) :
    ∃ derr reads, e.decode rs o sched readers offset length D.length [] =
        some ⟨length, derr, (D.drop offset).take length, reads⟩ ∧
      ∀ read ∈ reads, read.Before (e.shardFileOffset offset length D.length) := by
  rw [e.encode_eq rs, Option.some.injEq, Prod.mk.injEq] at hencode
  obtain ⟨rfl, -⟩ := hencode
  unfold Erasure.decode
  rw [if_neg (by omega), if_neg (by omega)]
  by_cases hzero : length = 0
  · subst hzero
    exact ⟨none, [], by simp, by simp⟩
  · have hprefer : ([] : List Bool).length ≠ readers.length := by
      have hd := e.params.dataBlocks_pos
      rw [hserves.length, length_map, length_range, Erasure.total, length_nil]
      omega
    rw [if_neg (by omega)]
    simp only [if_neg hprefer, Int.toNat_natCast]
    have hle : offset / e.blockSize ≤ (offset + length) / e.blockSize :=
      Nat.div_le_div_right (by omega)
    have hfirst : min (offset / e.blockSize * e.blockSize) (offset + length) - offset = 0 := by
      have hdiv := Nat.div_mul_le_self offset e.blockSize
      omega
    refine Erasure.decodeLoop_eq o sched hrange (by omega) le_rfl
      (fun _ => Erasure.atBlock_new hserves) ?_ rfl (by simp)
    rw [hfirst]
    rfl

def mirrorData : List Bytes → Except Error (List Bytes)
  | [a, b] => .ok (if a.isEmpty then [b, b] else [a, a])
  | _ => .error errTooFewShards

theorem mirrorData_ok (data : List Bytes) (m : Nat) (bufs : List Bytes) (hdata : data.length = 1)
    (hsize : ∀ s ∈ data, s.length = m) (_ : 0 < m) (hpart : IsPart bufs (data ++ data))
    (hcount : 1 ≤ bufs.countP fun b => !b.isEmpty) :
    ∃ out, mirrorData bufs = .ok out ∧ out.length = bufs.length ∧ out.take 1 = data := by
  obtain ⟨s, rfl⟩ := length_eq_one_iff.mp hdata
  rcases hpart with _ | ⟨ha, _ | ⟨hb, _ | _⟩⟩
  rcases ha with rfl | rfl <;> rcases hb with rfl | rfl <;> simp_all [mirrorData]

/-- Two copies, the smallest erasure code. -/
def mirror : ReedSolomon 1 1 where
  parity := id
  reconstructData := mirrorData
  length_parity _ h := h
  parity_size _ _ _ h := h
  reconstructs := mirrorData_ok

theorem mirror_params : ErasureParams 1 1 2 := by
  constructor <;> decide

/-- The range is read from the parity shard alone, in two blocks. -/
theorem decode_from_parity : Serves [[1, 2, 3], [1, 2, 3]]
      [none, some fun off len => .ok ((([1, 2, 3] : Bytes).drop off).take len)] 1 (· == 1) ∧
    ∀ o sched, ∃ derr reads, Erasure.decode ⟨1, 1, 2, mirror_params⟩ mirror o sched
        [none, some fun off len => .ok ((([1, 2, 3] : Bytes).drop off).take len)] 1 2 3 [] =
      some ⟨2, derr, [2, 3], reads⟩ := by
  have hserves : Serves [[1, 2, 3], [1, 2, 3]]
      [none, some fun off len => .ok ((([1, 2, 3] : Bytes).drop off).take len)] 1 (· == 1) := by
    refine ⟨rfl, by decide, ?_, ?_⟩
    · intro i hi
      rw [beq_iff_eq] at hi
      subst hi
      exact ⟨_, rfl, fun off len _ => rfl⟩
    · rintro (_ | _ | i) r hr off len -
      · cases hr
      · cases hr
        exact .inr rfl
      · simp at hr
  refine ⟨hserves, fun o sched => ?_⟩
  obtain ⟨derr, reads, hdecode, -⟩ := @decode_eq_range ⟨1, 1, 2, mirror_params⟩ mirror o sched
    [1, 2, 3] _ 3 rfl _ _ hserves 1 2 (by decide)
  exact ⟨derr, reads, hdecode⟩

end Otterio
