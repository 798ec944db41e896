import Otterio.Lib.Chunks
import Otterio.Storage.FileInfo

/-!
# Erasure coding of a byte string

`Erasure` cuts a byte string into blocks, splits each block into data shards of equal length, adds
parity shards, and appends shard `i` of each block to stream `i` (`cmd/erasure-coding.go`,
`cmd/erasure-encode.go`). The numbers of the source are `int64`; the results here stay below
`totalLength + blockSize`.

* `ReedSolomon`: the coding library, with the two properties that are assumed of it.
* `encode_eq`: a stream is the concatenation of the shards of the blocks (`shardStream`).
-/

namespace Otterio

open Err List

namespace Err

/-- "Invalid arguments specified". -/
def errInvalidArgument : Error := .other 20

def errInvShardNum : Error := .other 21

def errMaxShardNum : Error := .other 22

end Err

/-! ## Parameters -/

/-- The bounds that `NewErasure` checks. -/
structure ErasureParams (dataBlocks parityBlocks blockSize : Nat) : Prop where
  dataBlocks_pos : 0 < dataBlocks
  parityBlocks_pos : 0 < parityBlocks
  blocks_le : dataBlocks + parityBlocks ≤ 256
  blockSize_pos : 0 < blockSize
  blockSize_le : blockSize ≤ blockSizeV1

structure Erasure where
  dataBlocks : Nat
  parityBlocks : Nat
  blockSize : Nat
  params : ErasureParams dataBlocks parityBlocks blockSize

theorem erasureParams_of_checks {dataBlocks parityBlocks blockSize : Int}
    (hsize : ¬ (blockSize ≤ 0 ∨ blockSize > blockSizeV1)) (hpos : ¬ (dataBlocks ≤ 0 ∨ parityBlocks ≤ 0))
    (hmax : ¬ (dataBlocks > 256 ∨ parityBlocks > 256 - dataBlocks)) :
    ErasureParams dataBlocks.toNat parityBlocks.toNat blockSize.toNat := by
  constructor <;> omega

def newErasure (dataBlocks parityBlocks blockSize : Int) : Except Error Erasure :=
  if hsize : blockSize ≤ 0 ∨ blockSize > blockSizeV1 then .error errInvalidArgument
  else if hpos : dataBlocks ≤ 0 ∨ parityBlocks ≤ 0 then .error errInvShardNum
  else if hmax : dataBlocks > 256 ∨ parityBlocks > 256 - dataBlocks then .error errMaxShardNum
  else .ok ⟨dataBlocks.toNat, parityBlocks.toNat, blockSize.toNat, erasureParams_of_checks hsize hpos hmax⟩

def ceilFrac (numerator denominator : Int) : Int :=
  if denominator = 0 then 0
  else
    let (numerator, denominator) :=
      if denominator < 0 then (-numerator, -denominator) else (numerator, denominator)
    let ceil := numerator.tdiv denominator
    if numerator > 0 ∧ numerator.tmod denominator ≠ 0 then ceil + 1 else ceil

namespace Erasure

variable (e : Erasure)

def shardSize : Int := ceilFrac e.blockSize e.dataBlocks

def shardFileSize (totalLength : Int) : Int :=
  if totalLength = 0 then 0
  else if totalLength = -1 then -1
  else
    let numShards := totalLength.tdiv e.blockSize
    let lastBlockSize := totalLength.tmod e.blockSize
    numShards * e.shardSize + ceilFrac lastBlockSize e.dataBlocks

def shardFileOffset (startOffset length totalLength : Int) : Int :=
  let shardFileSize := e.shardFileSize totalLength
  let endShard := (startOffset + length).tdiv e.blockSize
  let tillOffset := endShard * e.shardSize + e.shardSize
  if tillOffset > shardFileSize then shardFileSize else tillOffset

def shardLen (n : Nat) : Nat := (n + e.dataBlocks - 1) / e.dataBlocks

def total : Nat := e.dataBlocks + e.parityBlocks

end Erasure

/-! ## The coding library -/

/-- Each buffer is empty or the shard in its place. -/
def IsPart (bufs shards : List Bytes) : Prop := Forall₂ (fun b s => b = [] ∨ b = s) bufs shards

/-- `reedsolomon.Encoder` for `d` data and `p` parity shards. Parity shards are as long as the data
shards, and any `d` shards are enough to reconstruct the data shards. -/
structure ReedSolomon (d p : Nat) where
  parity : List Bytes → List Bytes
  reconstructData : List Bytes → Except Error (List Bytes)
  length_parity : ∀ data, data.length = d → (parity data).length = p
  parity_size : ∀ data m, data.length = d → (∀ s ∈ data, s.length = m) → ∀ s ∈ parity data, s.length = m
  reconstructs : ∀ data m bufs, data.length = d → (∀ s ∈ data, s.length = m) → 0 < m →
    IsPart bufs (data ++ parity data) → d ≤ bufs.countP (fun b => !b.isEmpty) →
    ∃ out, reconstructData bufs = .ok out ∧ out.length = bufs.length ∧ out.take d = data

/-- The data padded with zeros, for `d` shards of equal length. -/
def padded (d : Nat) (data : Bytes) : Bytes :=
  data ++ replicate (d * ((data.length + d - 1) / d) - data.length) 0

def split (d : Nat) (data : Bytes) : List Bytes :=
  (range d).map (chunkAt ((data.length + d - 1) / d) (padded d data))

namespace Erasure

variable (e : Erasure) (rs : ReedSolomon e.dataBlocks e.parityBlocks)

def encodeData (data : Bytes) : List Bytes :=
  if data.length = 0 then replicate e.total []
  else split e.dataBlocks data ++ rs.parity (split e.dataBlocks data)

/-- `DecodeDataBlocks`. The count of empty buffers stops at the first one. -/
def decodeDataBlocks (data : List Bytes) : Except Error (List Bytes) :=
  let isZero := if data.any isEmpty then 1 else 0
  if isZero = 0 ∨ isZero = data.length then .ok data else rs.reconstructData data

/-- The loop of `Encode`, for writers that do not fail: the streams and the number of bytes read. -/
def encodeLoop : Nat → Bytes → Nat → List Bytes → Option (List Bytes × Nat)
  | 0, _, _, _ => none
  | fuel + 1, src, total, streams =>
    let buf := src.take e.blockSize
    -- `io.ReadFull` reported `io.EOF` or `io.ErrUnexpectedEOF`.
    let eof := src.length < e.blockSize
    if buf.length = 0 ∧ total ≠ 0 then some (streams, total)
    else
      let streams := zipWith (· ++ ·) streams (e.encodeData rs buf)
      let total := total + buf.length
      if eof then some (streams, total)
      else encodeLoop fuel (src.drop e.blockSize) total streams

/-- `Encode`. Every round but the last one reads a byte, so that the fuel is enough. -/
def encode (src : Bytes) : Option (List Bytes × Nat) :=
  e.encodeLoop rs (src.length + 1) src 0 (replicate e.total [])

end Erasure

/-! ## Sizes -/

theorem ceilFrac_natCast (n : Nat) {d : Nat} (hd : 0 < d) : ceilFrac n d = ((n + d - 1) / d : Nat) := by
  have hdiv := Nat.div_add_mod n d
  have hlt := Nat.mod_lt n hd
  have hpos : ¬ ((d : Int) < 0) := by omega
  have hne : (d : Int) ≠ 0 := by omega
  unfold ceilFrac
  simp only [if_neg hne, if_neg hpos, ← Int.ofNat_tdiv, ← Int.ofNat_tmod]
  by_cases hmod : n % d = 0
  · have hceil : (n + d - 1) / d = n / d := by
      apply Nat.div_eq_of_lt_le
      · rw [Nat.mul_comm]
        omega
      · rw [Nat.add_mul, Nat.mul_comm]
        omega
    rw [hceil, if_neg (by simp [hmod])]
  · have hceil : (n + d - 1) / d = n / d + 1 := by
      apply Nat.div_eq_of_lt_le
      · rw [Nat.add_mul, Nat.mul_comm]
        omega
      · rw [Nat.add_mul, Nat.add_mul, Nat.mul_comm]
        omega
    rw [hceil, if_pos ⟨by omega, by exact_mod_cast hmod⟩]
    rfl

namespace Erasure

variable (e : Erasure)

theorem shardSize_eq : e.shardSize = e.shardLen e.blockSize := ceilFrac_natCast _ e.params.dataBlocks_pos

def streamLen (n : Nat) : Nat := n / e.blockSize * e.shardLen e.blockSize + e.shardLen (n % e.blockSize)

theorem shardLen_zero : e.shardLen 0 = 0 := by
  have hd := e.params.dataBlocks_pos
  exact Nat.div_eq_of_lt (by omega)

theorem shardFileSize_eq (n : Nat) : e.shardFileSize n = e.streamLen n := by
  unfold shardFileSize
  by_cases hn : n = 0
  · subst hn
    simp [streamLen, shardLen_zero]
  · have hzero : (n : Int) ≠ 0 := by omega
    have hneg : (n : Int) ≠ -1 := by omega
    simp only [if_neg hzero, if_neg hneg, ← Int.ofNat_tdiv, ← Int.ofNat_tmod, shardSize_eq,
      ceilFrac_natCast _ e.params.dataBlocks_pos]
    rfl

theorem shardLen_mono {m n : Nat} (h : m ≤ n) : e.shardLen m ≤ e.shardLen n :=
  Nat.div_le_div_right (by omega)

theorem shardLen_pos {n : Nat} (h : 0 < n) : 0 < e.shardLen n := by
  have hd := e.params.dataBlocks_pos
  exact Nat.div_pos (by omega) hd

end Erasure

/-! ## Splitting a block -/

section Split

variable {d : Nat} {data : Bytes}

@[simp] theorem length_split : (split d data).length = d := by
  rw [split, length_map, length_range]

theorem length_padded (hd : 0 < d) : (padded d data).length = d * ((data.length + d - 1) / d) := by
  have hdiv := Nat.div_add_mod (data.length + d - 1) d
  have hlt := Nat.mod_lt (data.length + d - 1) hd
  rw [padded, length_append, length_replicate]
  omega

theorem length_of_mem_split (hd : 0 < d) {s : Bytes} (hs : s ∈ split d data) :
    s.length = (data.length + d - 1) / d := by
  obtain ⟨k, hk, rfl⟩ := mem_map.mp hs
  have hk : k < d := mem_range.mp hk
  rw [length_chunkAt, length_padded hd]
  have hmul : (k + 1) * ((data.length + d - 1) / d) ≤ d * ((data.length + d - 1) / d) := Nat.mul_le_mul_right _ hk
  rw [Nat.add_mul, Nat.one_mul] at hmul
  omega

theorem flatten_split (hd : 0 < d) (hdata : data ≠ []) : (split d data).flatten = padded d data := by
  have hlen := length_pos_of_ne_nil hdata
  have hpos : 0 < (data.length + d - 1) / d := Nat.div_pos (by omega) hd
  have hcount : chunkCount ((data.length + d - 1) / d) (padded d data) = d := by
    rw [chunkCount, length_padded hd]
    generalize (data.length + d - 1) / d = per at hpos ⊢
    have hsum : d * per + per - 1 = per - 1 + d * per := by omega
    rw [hsum, Nat.add_mul_div_right _ _ hpos, Nat.div_eq_of_lt (by omega), Nat.zero_add]
  have hsplit : split d data = chunks ((data.length + d - 1) / d) (padded d data) := by
    rw [chunks, hcount, split]
  rw [hsplit, flatten_chunks hpos]

end Split

namespace Erasure

variable (e : Erasure) (rs : ReedSolomon e.dataBlocks e.parityBlocks)

theorem length_encodeData (data : Bytes) : (e.encodeData rs data).length = e.total := by
  unfold encodeData
  split
  · exact length_replicate
  · rw [length_append, rs.length_parity _ length_split, length_split, total]

theorem length_of_mem_encodeData {data s : Bytes} (hs : s ∈ e.encodeData rs data) :
    s.length = e.shardLen data.length := by
  have hsplit : ∀ t ∈ Otterio.split e.dataBlocks data, t.length = e.shardLen data.length :=
    fun t ht => length_of_mem_split e.params.dataBlocks_pos ht
  unfold encodeData at hs
  split at hs
  · rename_i hempty
    rw [eq_of_mem_replicate hs, hempty, e.shardLen_zero]
    rfl
  · obtain hs | hs := mem_append.mp hs
    · exact hsplit s hs
    · exact rs.parity_size _ _ length_split hsplit s hs

/-- Shard `j` of a block. -/
def shard (data : Bytes) (j : Nat) : Bytes := (e.encodeData rs data).getD j []

theorem length_shard {j : Nat} (data : Bytes) (hj : j < e.total) :
    (e.shard rs data j).length = e.shardLen data.length := by
  have hlt : j < (e.encodeData rs data).length := by rw [length_encodeData]; exact hj
  rw [shard, getD_eq_getElem _ _ hlt]
  exact e.length_of_mem_encodeData rs (getElem_mem hlt)

theorem encodeData_eq (data : Bytes) : e.encodeData rs data = (range e.total).map (e.shard rs data) := by
  rw [← e.length_encodeData rs data]
  exact (map_getD_range (e.encodeData rs data) []).symm

/-! ## The streams -/

/-- Stream `j`: the shards of the blocks, one after another. -/
def shardStream (D : Bytes) (j : Nat) : Bytes :=
  ((chunks e.blockSize D).map fun block => e.shard rs block j).flatten

theorem shardStream_cons {D : Bytes} (hD : D ≠ []) (j : Nat) : e.shardStream rs D j =
      e.shard rs (D.take e.blockSize) j ++ e.shardStream rs (D.drop e.blockSize) j := by
  rw [shardStream, chunks_of_ne_nil e.params.blockSize_pos hD, map_cons, flatten_cons, shardStream]

theorem shard_nil {j : Nat} : e.shard rs [] j = [] := by
  rw [shard, encodeData, if_pos length_nil]
  rcases Nat.lt_or_ge j e.total with hj | hj
  · rw [getD_eq_getElem _ _ (by simpa using hj), getElem_replicate]
  · rw [getD_eq_default _ _ (by simpa using hj)]

theorem encodeLoop_eq {fuel : Nat} {src : Bytes} {total : Nat} {acc : Nat → Bytes} (hfuel : src.length < fuel) :
    e.encodeLoop rs fuel src total ((range e.total).map acc) =
      some ((range e.total).map fun j => acc j ++ e.shardStream rs src j, total + src.length) := by
  induction fuel generalizing src total acc with
  | zero => omega
  | succ fuel ih =>
    have hB := e.params.blockSize_pos
    have hzip : zipWith (· ++ ·) ((range e.total).map acc)
        (e.encodeData rs (src.take e.blockSize)) =
        (range e.total).map fun j => acc j ++ e.shard rs (src.take e.blockSize) j := by
      rw [encodeData_eq, zipWith_map, zipWith_self]
    unfold encodeLoop
    simp only [hzip]
    by_cases hsrc : src = []
    · subst hsrc
      have hstream : ∀ j, e.shardStream rs [] j = [] := fun j => by simp [shardStream]
      simp [hstream, shard_nil, hB]
    · have hlen := length_pos_of_ne_nil hsrc
      have hread : ¬ ((src.take e.blockSize).length = 0 ∧ total ≠ 0) := by
        rw [length_take]
        omega
      rw [if_neg hread]
      split
      · -- The last block is read, and with it all of the source.
        have hdrop : src.drop e.blockSize = [] := drop_eq_nil_of_le (by omega)
        have htake : src.take e.blockSize = src := take_of_length_le (by omega)
        simp only [e.shardStream_cons rs hsrc, hdrop, htake]
        simp [shardStream]
      · rw [ih (by rw [length_drop]; omega)]
        simp only [e.shardStream_cons rs hsrc, append_assoc, length_take, length_drop]
        congr 2
        omega

theorem encode_eq (D : Bytes) : e.encode rs D = some ((range e.total).map (e.shardStream rs D), D.length) := by
  have hnil : replicate e.total ([] : Bytes) = (range e.total).map fun _ => [] := by
    rw [map_const', length_range]
  rw [encode, hnil, e.encodeLoop_eq rs (Nat.lt_succ_self _)]
  simp

/-! ## The place of a block in the streams -/

section Place

variable {e} {D : Bytes} {j k : Nat}

theorem chunkAt_ne_nil (hk : k * e.blockSize < D.length) : chunkAt e.blockSize D k ≠ [] := by
  have hB := e.params.blockSize_pos
  intro hnil
  have hlen := length_chunkAt e.blockSize D k
  rw [hnil, length_nil] at hlen
  omega

theorem lt_chunkCount (hk : k * e.blockSize < D.length) : k < chunkCount e.blockSize D := by
  have hB := e.params.blockSize_pos
  have hdiv := div_lt_chunkCount hB hk
  rwa [Nat.mul_div_cancel _ hB] at hdiv

theorem shardStream_slice (hj : j < e.total) (hk : k * e.blockSize < D.length) :
    ((e.shardStream rs D j).drop (k * e.shardLen e.blockSize)).take
        (e.shardLen (chunkAt e.blockSize D k).length) = e.shard rs (chunkAt e.blockSize D k) j ∧
      k * e.shardLen e.blockSize + e.shardLen (chunkAt e.blockSize D k).length ≤ (e.shardStream rs D j).length := by
  have hcount := lt_chunkCount hk
  have hlen := e.length_shard rs (chunkAt e.blockSize D k) hj
  have hpos := e.shardLen_pos (length_pos_of_ne_nil (chunkAt_ne_nil hk))
  have hdrop : (e.shardStream rs D j).drop (k * e.shardLen e.blockSize) = e.shard rs (chunkAt e.blockSize D k) j ++
        (((chunks e.blockSize D).map fun block => e.shard rs block j).drop (k + 1)).flatten := by
    have hk' : k < ((chunks e.blockSize D).map fun block => e.shard rs block j).length := by
      simpa using hcount
    rw [shardStream, drop_flatten_of_uniform hk'.le, drop_eq_getElem_cons hk',
      flatten_cons, getElem_map, getElem_chunks]
    intro i hi hik
    rw [getElem_map, getElem_chunks, e.length_shard rs _ hj,
      length_chunkAt_of_succ_lt e.params.blockSize_pos (by omega)]
  constructor
  · rw [hdrop, ← hlen, take_left]
  · have htotal := congrArg length hdrop
    rw [length_drop, length_append, hlen] at htotal
    omega

/-- What a reader at the block `k` asks for: a shard, or what is left of the stream. -/
theorem shard_or_rest (hk : k * e.blockSize < D.length) :
    (if k * e.shardLen e.blockSize + e.shardLen e.blockSize > e.streamLen D.length then
        e.streamLen D.length - k * e.shardLen e.blockSize
      else e.shardLen e.blockSize) = e.shardLen (chunkAt e.blockSize D k).length ∧
    k * e.shardLen e.blockSize + e.shardLen (chunkAt e.blockSize D k).length ≤ e.streamLen D.length := by
  have hB := e.params.blockSize_pos
  rw [length_chunkAt]
  by_cases hfull : k * e.blockSize + e.blockSize ≤ D.length
  · -- A full block: the shards of the next blocks follow.
    have hmin : min e.blockSize (D.length - k * e.blockSize) = e.blockSize := by omega
    have hle : (k + 1) * e.shardLen e.blockSize ≤ D.length / e.blockSize * e.shardLen e.blockSize := by
      apply Nat.mul_le_mul_right
      rw [Nat.le_div_iff_mul_le hB, Nat.add_mul, Nat.one_mul]
      exact hfull
    rw [Nat.add_mul, Nat.one_mul] at hle
    have hstream : k * e.shardLen e.blockSize + e.shardLen e.blockSize ≤ e.streamLen D.length := by
      unfold streamLen
      omega
    rw [hmin, if_neg (by omega)]
    exact ⟨rfl, hstream⟩
  · -- The last block, which is shorter.
    have hlast : D.length / e.blockSize = k := by
      apply Nat.div_eq_of_lt_le
      · omega
      · rw [Nat.add_mul]
        omega
    have hmod : D.length % e.blockSize = D.length - k * e.blockSize := by
      have hdiv := Nat.div_add_mod D.length e.blockSize
      rw [hlast, Nat.mul_comm] at hdiv
      omega
    have hmin : min e.blockSize (D.length - k * e.blockSize) = D.length - k * e.blockSize := by omega
    have hshort : e.shardLen (D.length - k * e.blockSize) ≤ e.shardLen e.blockSize :=
      e.shardLen_mono (by omega)
    rw [hmin, streamLen, hlast, hmod]
    refine ⟨?_, le_rfl⟩
    split <;> omega

/-- The reads of a block that the range reaches end before `ShardFileOffset`. -/
theorem le_shardFileOffset {offset length : Nat} (hk : k * e.blockSize < D.length)
    (hend : k ≤ (offset + length) / e.blockSize) :
    (k * e.shardLen e.blockSize + e.shardLen (chunkAt e.blockSize D k).length : Int) ≤
      e.shardFileOffset offset length D.length := by
  have hstream := (shard_or_rest hk).2
  have hshard : e.shardLen (chunkAt e.blockSize D k).length ≤ e.shardLen e.blockSize := by
    apply e.shardLen_mono
    rw [length_chunkAt]
    exact min_le_left _ _
  have hmul : k * e.shardLen e.blockSize ≤
      (offset + length) / e.blockSize * e.shardLen e.blockSize := Nat.mul_le_mul_right _ hend
  unfold shardFileOffset
  simp only [shardFileSize_eq, shardSize_eq, ← Int.natCast_add, ← Int.ofNat_tdiv]
  split
  · exact_mod_cast hstream
  · norm_cast
    omega

end Place

end Erasure

end Otterio
