import Otterio.Encryption.Dare
import Otterio.Http.Range

/-!
# The range of an encrypted object

`GetDecryptedRange` maps a range of the plaintext to a range of the stored bytes (`cmd/encryption-v1.go`).
It looks for the part of the first byte and for that of the last one, adding up the sizes of the
plaintexts and of the streams, and rounds to whole packages in both.

* `decryptParts_slice`: packages of consecutive parts, decrypted.
* `getDecryptedRange_eq`: the result, in terms of the parts before, between and after the two.
-/

namespace Otterio.SSE

open PackageCode List

/-! ## The model -/

inductive DecryptError where
  /-- `Object is not encrypted` -/
  | notEncrypted
  | errObjectTampered
  | range (err : RangeError)
deriving DecidableEq, Repr

structure DecryptedRange where
  encOff : Int
  encLength : Int
  skipLen : Int
  seqNumber : Nat
  partStart : Nat
deriving DecidableEq, Repr

/-- The loop that looks for the part of an offset: its number, and the sizes before it. The number
stays 0 if there is none. -/
def locatePart (off : Int) : Nat → Int → Int → List Int → Nat × Int × Int
  | _, cumulativeSum, encCumulativeSum, [] => (0, cumulativeSum, encCumulativeSum)
  | i, cumulativeSum, encCumulativeSum, size :: sizes =>
    if off < cumulativeSum + size then (i, cumulativeSum, encCumulativeSum)
    else
      let encPartSize := (encryptedSize (uint64 size)).getD 0
      locatePart off (i + 1) (cumulativeSum + size) (encCumulativeSum + encPartSize) sizes

def decryptedSizes (o : ObjectInfo) : Option (List Int) :=
  if isEncryptedMultipart o then
    o.parts.mapM fun part => (decryptedSize (uint64 part.size)).map fun size => (size : Int)
  else (decryptedSize (uint64 o.size)).map fun size => [(size : Int)]

/-- The second half of `GetDecryptedRange`: the range of the stored bytes. -/
def encryptedRange (sizes : List Int) (off length : Int) : DecryptedRange :=
  let (partStart, cumulativeSum, encCumulativeSum) := locatePart off 0 0 0 sizes
  let encPackageBlockSize : Int := packageBlockSize + packageMetaSize
  let startPkgNum := (off - cumulativeSum).tdiv packageBlockSize
  let skipLen := (off - cumulativeSum).tmod packageBlockSize
  let encOff := encCumulativeSum + startPkgNum * encPackageBlockSize
  let endOffset := off + length - 1
  let (partEnd, cumulativeSum, encCumulativeSum) :=
    locatePart endOffset partStart cumulativeSum encCumulativeSum (sizes.drop partStart)
  let endPkgNum := (endOffset - cumulativeSum).tdiv packageBlockSize
  let endEncOffset := encCumulativeSum + (endPkgNum + 1) * encPackageBlockSize
  let lastPartSize := (encryptedSize (uint64 (sizes.getD partEnd 0))).getD 0
  let endEncOffset :=
    if endEncOffset > encCumulativeSum + lastPartSize then encCumulativeSum + lastPartSize
    else endEncOffset
  { encOff, encLength := endEncOffset - encOff, skipLen, seqNumber := (startPkgNum % 2 ^ 32).toNat, partStart }

def getDecryptedRange (o : ObjectInfo) (rs : Option HTTPRangeSpec) : Except DecryptError DecryptedRange :=
  if !o.encrypted then .error .notEncrypted
  else
    match rs with
    | none => .ok ⟨0, o.size, 0, 0, 0⟩
    | some rs =>
      match decryptedSizes o with
      | none => .error .errObjectTampered
      | some sizes =>
        match (getOffsetLength (some rs) sizes.sum).val with
        | .error err => .error (.range err)
        | .ok (off, length) => .ok (encryptedRange sizes off length)

/-! ## Sizes -/

variable {keys : Nat → Dare} {o : ObjectInfo} {plains : List Bytes}

abbrev encSize (plain : Bytes) : Nat := streamSize packageBlockSize packageMetaSize plain

theorem le_streamSize (plain : Bytes) : plain.length ≤ encSize plain := by
  unfold encSize streamSize packedSize packageBlockSize packageMetaSize
  split <;> omega

section

variable {plain : Bytes} (h : plain.length ≤ maxDecryptedSize)
include h

theorem uint64_length :
    uint64 (plain.length : Int) = plain.length := by
  apply uint64_natCast
  unfold maxDecryptedSize at h
  omega

theorem uint64_streamSize :
    uint64 (encSize plain : Int) = encSize plain := by
  have hmax : maxEncryptedSize < 2 ^ 64 := by decide
  exact uint64_natCast (lt_of_le_of_lt (packedSize_le h) hmax)

theorem decryptedSize_streamSize :
    decryptedSize (uint64 (encSize plain : Int)) = some plain.length := by
  rw [uint64_streamSize h, decryptedSize_packedSize h]

end

theorem Stored.map_size_eq (h : Stored keys o plains) (hmulti : isEncryptedMultipart o) :
    o.parts.map (·.size) = plains.map fun plain => (encSize plain : Int) := by
  have hmap := congrArg (List.map fun n : Nat => (n : Int)) (map_length_streamsFrom keys packageBlockSize_pos 0 plains)
  rw [map_map, map_map] at hmap
  exact (h.parts hmulti).trans hmap

theorem Stored.decryptedSizes_eq (h : Stored keys o plains) :
    decryptedSizes o = some (plains.map fun plain => (plain.length : Int)) := by
  unfold decryptedSizes
  split
  · rename_i hmulti
    have hmapM : ∀ {parts : List ObjectPartInfo} {plains : List Bytes},
        (∀ plain ∈ plains, plain.length ≤ maxDecryptedSize) →
        parts.map (·.size) = plains.map (fun plain => (encSize plain : Int)) →
        parts.mapM (fun part => (decryptedSize (uint64 part.size)).map fun size => (size : Int)) =
          some (plains.map fun plain => (plain.length : Int)) := by
      intro parts plains hfits hsizes
      induction parts generalizing plains with
      | nil =>
        obtain rfl := map_eq_nil_iff.mp hsizes.symm
        rfl
      | cons part parts ih =>
        rw [map_cons] at hsizes
        obtain ⟨plain, plains, rfl, hsize, hrest⟩ := map_eq_cons_iff.mp hsizes.symm
        have hplain := decryptedSize_streamSize (hfits plain mem_cons_self)
        rw [mapM_cons, ih (fun p hp => hfits p (mem_cons_of_mem _ hp)) hrest.symm, ← hsize, hplain]
        rfl
    exact hmapM h.fits (h.map_size_eq hmulti)
  · rename_i hsingle
    obtain ⟨plain, rfl⟩ := h.single hsingle
    have hsize : o.size = (encSize plain : Int) := by
      rw [h.size, storedBytes, streams, length_streams keys packageBlockSize_pos, map_singleton, sum_singleton]
    rw [hsize, decryptedSize_streamSize (h.fits plain mem_cons_self)]
    rfl

/-- The part of an offset is found, with the sizes of the parts before it. -/
theorem locatePart_spec {off : Int} {i : Nat} {cumulativeSum encCumulativeSum : Int}
    (hfits : ∀ plain ∈ plains, plain.length ≤ maxDecryptedSize) (hlo : cumulativeSum ≤ off)
    (hhi : off < cumulativeSum + plains.flatten.length) :
    ∃ pre plain post, plains = pre ++ plain :: post ∧
      locatePart off i cumulativeSum encCumulativeSum (plains.map fun plain => (plain.length : Int)) =
        (i + pre.length, cumulativeSum + pre.flatten.length, encCumulativeSum + ((pre.map encSize).sum : Nat)) ∧
      cumulativeSum + pre.flatten.length ≤ off ∧
      off < cumulativeSum + pre.flatten.length + plain.length := by
  induction plains generalizing i cumulativeSum encCumulativeSum with
  | nil =>
    rw [flatten_nil, length_nil] at hhi
    omega
  | cons plain plains ih =>
    rw [map_cons, locatePart]
    by_cases hlt : off < cumulativeSum + plain.length
    · refine ⟨[], plain, plains, rfl, ?_, by simpa using hlo, by simpa using hlt⟩
      rw [if_pos hlt]
      simp
    · rw [if_neg hlt]
      have hplain := hfits plain mem_cons_self
      rw [flatten_cons, length_append] at hhi
      obtain ⟨pre, q, post, rfl, hloc, hlo', hhi'⟩ :=
        @ih (i + 1) (cumulativeSum + plain.length) (encCumulativeSum + encSize plain)
          (fun p hp => hfits p (mem_cons_of_mem _ hp)) (by omega) (by push_cast at hhi; omega)
      refine ⟨plain :: pre, q, post, rfl, ?_, ?_, ?_⟩
      · rw [uint64_length hplain, encryptedSize_eq hplain, Option.getD_some]
        rw [hloc]
        simp only [length_cons, flatten_cons, length_append, map_cons, sum_cons]
        push_cast
        refine Prod.ext ?_ (Prod.ext ?_ ?_) <;> simp only [] <;> omega
      · rw [flatten_cons, length_append]
        push_cast
        omega
      · rw [flatten_cons, length_append]
        push_cast
        omega

theorem clip_eq (before between afterLast lastPartSize first : Nat) :
    (if ((before : Int) + between) + afterLast > before + between + lastPartSize then
        (before : Int) + between + lastPartSize else before + between + afterLast) - (before + first) =
      ((between + min afterLast lastPartSize : Nat) : Int) - first := by
  split <;> omega

variable {off length : Nat}

/-- The result for a range that is not empty. The plaintexts are those of the parts before the first
byte, `p` and its successors up to `q` with the last byte, and the others. -/
theorem encryptedRange_eq (hfits : ∀ plain ∈ plains, plain.length ≤ maxDecryptedSize)
    (hpos : 0 < length) (hle : off + length ≤ plains.flatten.length) :
    ∃ pre mid q post, plains = pre ++ (mid ++ q :: post) ∧ ∃ seq skip c : Nat,
      encryptedRange (plains.map fun plain => (plain.length : Int)) off length =
        { encOff := ((pre.map encSize).sum + seq * (packageBlockSize + packageMetaSize) : Nat)
          encLength := ((mid.map encSize).sum + min (c * (packageBlockSize + packageMetaSize)) (encSize q) : Nat) -
              (seq * (packageBlockSize + packageMetaSize) : Nat)
          skipLen := skip
          seqNumber := seq
          partStart := pre.length } ∧
      off = pre.flatten.length + (seq * packageBlockSize + skip) ∧
      seq * packageBlockSize + skip + length ≤ mid.flatten.length + min (c * packageBlockSize) q.length ∧
      ∀ p ∈ (mid ++ [q]).head?, seq * packageBlockSize < p.length := by
  obtain ⟨pre, p, rest, hplains, hstart, hlo, hhi⟩ :=
    @locatePart_spec plains off 0 0 0 hfits (by omega) (by omega)
  simp only [zero_add] at hstart hlo hhi
  have hrest : pre.flatten.length + (p :: rest).flatten.length = plains.flatten.length := by
    rw [hplains, flatten_append, length_append]
  obtain ⟨mid, q, post, hmid, hend, hlo', hhi'⟩ :=
    @locatePart_spec (p :: rest) (off + length - 1) pre.length pre.flatten.length
      ((pre.map encSize).sum : Nat)
      (fun x hx => hfits x (by rw [hplains]; exact mem_append_right _ hx)) (by omega) (by omega)
  have hdrop : (plains.map fun plain => (plain.length : Int)).drop pre.length =
      (p :: rest).map fun plain => (plain.length : Int) := by
    rw [hplains, map_append, drop_left' (length_map _)]
  have hlast : (plains.map fun plain => (plain.length : Int)).getD (pre.length + mid.length) 0 = q.length := by
    rw [hplains, hmid]
    simp
  have hq : q.length ≤ maxDecryptedSize := hfits q (by rw [hplains, hmid]; simp)
  have hp : p.length ≤ maxDecryptedSize := hfits p (by rw [hplains]; simp)
  -- the positions inside the two parts
  obtain ⟨x, hx⟩ : ∃ x : Nat, (off : Int) - pre.flatten.length = x := ⟨off - pre.flatten.length, by omega⟩
  obtain ⟨y, hy⟩ : ∃ y : Nat, (off : Int) + length - 1 - (pre.flatten.length + mid.flatten.length) = y :=
    ⟨off + length - 1 - (pre.flatten.length + mid.flatten.length), by omega⟩
  have hxdiv := Nat.div_add_mod' x packageBlockSize
  have hydiv := Nat.div_add_mod' y packageBlockSize
  have hymod := Nat.mod_lt y packageBlockSize_pos
  refine ⟨pre, mid, q, post, by rw [hplains, hmid], x / packageBlockSize, x % packageBlockSize,
    y / packageBlockSize + 1, ?_, ?_, ?_, ?_⟩
  · unfold encryptedRange
    rw [hstart]
    simp only
    rw [hdrop, hend]
    rw [hlast, uint64_length hq, encryptedSize_eq hq, Option.getD_some, hx, hy, ← Int.ofNat_tdiv,
      ← Int.ofNat_tmod, ← Int.ofNat_tdiv]
    have hseq : x / packageBlockSize < 2 ^ 32 := by
      have hmax : maxDecryptedSize ≤ 2 ^ 32 * packageBlockSize := by decide
      rw [Nat.div_lt_iff_lt_mul packageBlockSize_pos]
      have hlt : x < p.length := by omega
      exact lt_of_lt_of_le hlt (le_trans hp hmax)
    have hseq' : (((x / packageBlockSize : Nat) : Int) % 2 ^ 32).toNat = x / packageBlockSize := by
      rw [Int.emod_eq_of_lt (Int.natCast_nonneg _) (by exact_mod_cast hseq), Int.toNat_natCast]
    rw [hseq']
    generalize x / packageBlockSize = seq
    generalize y / packageBlockSize = last
    rw [← Nat.cast_add packageBlockSize packageMetaSize]
    generalize packageBlockSize + packageMetaSize = package
    simp only [DecryptedRange.mk.injEq]
    exact ⟨(Nat.cast_add _ _).symm, clip_eq _ _ _ _ _, trivial, trivial, trivial⟩
  · omega
  · rw [hxdiv, Nat.add_mul, Nat.one_mul]
    generalize y / packageBlockSize * packageBlockSize = z at *
    omega
  · have hhead : (mid ++ [q]).head? = some p := by
      have hhead : (p :: rest).head? = some p := rfl
      rw [hmid] at hhead
      cases mid <;> simpa using hhead
    intro p' hp'
    obtain rfl : p = p' := Option.some.inj (hhead.symm.trans hp')
    refine lt_of_le_of_lt (Nat.div_mul_le_self x packageBlockSize) ?_
    omega

variable {pre rest : List Bytes}

theorem Stored.map_uint64_eq (h : Stored keys o (pre ++ rest))
    (hmulti : isEncryptedMultipart o) :
    (o.parts.drop pre.length).map (fun part => uint64 part.size) = rest.map encSize := by
  have hall : o.parts.map (fun part => uint64 part.size) = (pre ++ rest).map fun plain => uint64 (encSize plain) := by
    have hmap := congrArg (List.map uint64) (h.map_size_eq hmulti)
    rw [map_map, map_map] at hmap
    exact hmap
  have hrest : rest.map (fun plain => uint64 (encSize plain)) = rest.map encSize :=
    map_congr_left fun plain hplain =>
      uint64_streamSize (h.fits plain (mem_append_right _ hplain))
  rw [map_drop, hall, map_append, drop_left' (length_map _), hrest]

theorem Stored.decryptBlocks_slice {mid post : List Bytes} {q : Bytes} {seqNumber c : Nat}
    (h : Stored keys o (pre ++ (mid ++ q :: post)))
    (hseq : ∀ p ∈ mid.head?, seqNumber * (packageBlockSize + packageMetaSize) ≤ encSize p) :
    decryptBlocks keys o seqNumber pre.length
        (((streamsFrom keys packageBlockSize pre.length mid).flatten ++
          ((keys (pre.length + mid.length)).packed packageBlockSize 0 q).take
            (c * (packageBlockSize + packageMetaSize))).drop
            (seqNumber * (packageBlockSize + packageMetaSize))) =
      some ((mid.flatten ++ q.take (c * packageBlockSize)).drop (seqNumber * packageBlockSize)) := by
  unfold decryptBlocks
  split
  · rename_i hmulti
    rw [h.map_uint64_eq hmulti]
    exact unpackedParts_slice keys packageBlockSize_pos mid q post pre.length seqNumber c hseq
  · rename_i hsingle
    obtain ⟨plain, hplain⟩ := h.single hsingle
    obtain ⟨rfl, rfl, rfl⟩ : pre = [] ∧ mid = [] ∧ post = [] := by
      have hlen := congrArg List.length hplain
      simp only [length_append, length_cons, length_nil] at hlen
      refine ⟨?_, ?_, ?_⟩ <;> apply eq_nil_of_length_eq_zero <;> omega
    have hslice := (keys 0).unpacked_slice_packed packageBlockSize_pos seqNumber c 0 q
    rw [Nat.zero_add] at hslice
    exact hslice

/-! ## The mapped range -/

/-- The range of the stored bytes is inside the object and starts with a package; decrypted from there,
without the bytes to skip, it has the requested bytes. -/
structure RangeMapped (keys : Nat → Dare) (o : ObjectInfo) (plains : List Bytes) (off length : Nat)
    (r : DecryptedRange) : Prop where
  inside : 0 ≤ r.encOff ∧ 0 ≤ r.encLength ∧ r.encOff + r.encLength ≤ (storedBytes keys plains).length
  starts : r.encOff = (((streams keys plains).take r.partStart).flatten.length +
    r.seqNumber * (packageBlockSize + packageMetaSize) : Nat)
  package : ∃ plain, plains[r.partStart]? = some plain ∧
    (r.seqNumber = 0 ∨ r.seqNumber * packageBlockSize < plain.length)
  skips : 0 ≤ r.skipLen
  decrypts : ∃ plain, decryptBlocks keys o r.seqNumber r.partStart
      (((storedBytes keys plains).drop r.encOff.toNat).take r.encLength.toNat) = some plain ∧
    (plain.drop r.skipLen.toNat).take length = (plains.flatten.drop off).take length

/-- A request for the bytes from `off` on: for the whole object, or for a satisfiable range. -/
def Requested (rs : Option HTTPRangeSpec) (total off length : Nat) : Prop :=
  (rs = none ∧ off = 0 ∧ length = total) ∨
    ∃ r : ByteRange, r.Fits ∧ r ≠ .suffix 0 ∧ r.select total = some (off, length) ∧ rs = some r.spec

theorem Stored.encryptedRange_mapped (h : Stored keys o plains) (hpos : 0 < length)
    (hle : off + length ≤ plains.flatten.length) :
    RangeMapped keys o plains off length
      (encryptedRange (plains.map fun plain => (plain.length : Int)) off length) := by
  obtain ⟨pre, mid, q, post, rfl, seq, skip, c, hr, hoff, hlen, hseq⟩ := encryptedRange_eq h.fits hpos hle
  have hpre : (((streams keys (pre ++ (mid ++ q :: post))).take pre.length).flatten).length =
      (pre.map encSize).sum := by
    have hlen : (streamsFrom keys packageBlockSize 0 pre).length = pre.length := by
      simpa using congrArg List.length (map_length_streamsFrom keys packageBlockSize_pos 0 pre)
    rw [streams, streamsFrom_append, ← hlen, take_left, length_streams keys packageBlockSize_pos]
  have htotal : (storedBytes keys (pre ++ (mid ++ q :: post))).length =
      (pre.map encSize).sum + ((mid.map encSize).sum + (encSize q + (post.map encSize).sum)) := by
    rw [storedBytes, streams, length_streams keys packageBlockSize_pos]
    simp
  -- the range starts before it ends
  have horder : seq * (packageBlockSize + packageMetaSize) ≤ (mid.map encSize).sum +
      min (c * (packageBlockSize + packageMetaSize)) (encSize q) :=
    mul_le_slice packageBlockSize_pos (fun p hp => (hseq p hp).le) (by omega)
  have hdata := streams_slice keys packageBlockSize_pos 0 pre mid q post
    (seq * (packageBlockSize + packageMetaSize)) (c * (packageBlockSize + packageMetaSize))
  have hblocks := @Stored.decryptBlocks_slice keys o pre mid post q seq c h fun p hp => by
    refine mul_le_packedSize packageBlockSize_pos (hseq p ?_).le
    cases mid with
    | nil => cases hp
    | cons p' mid => exact hp
  rw [Nat.zero_add] at hdata
  rw [← hdata] at hblocks
  rw [hr]
  refine ⟨?_, ?_, ?_, Int.natCast_nonneg skip, ?_⟩
  · simp only
    generalize seq * (packageBlockSize + packageMetaSize) = first at *
    generalize c * (packageBlockSize + packageMetaSize) = afterLast at *
    omega
  · rw [hpre]
  · cases mid with
    | nil => exact ⟨q, by simp, .inr (hseq q rfl)⟩
    | cons p mid => exact ⟨p, by simp, .inr (hseq p rfl)⟩
  · refine ⟨(mid.flatten ++ q.take (c * packageBlockSize)).drop (seq * packageBlockSize), ?_, ?_⟩
    · rw [Int.toNat_natCast, Int.toNat_sub]
      exact hblocks
    · have hslice : seq * packageBlockSize + skip + length ≤
          (mid.flatten ++ q.take (c * packageBlockSize)).length := by
        rw [length_append, length_take]
        exact hlen
      have hcut : mid.flatten ++ (q ++ post.flatten) =
          (mid.flatten ++ q.take (c * packageBlockSize)) ++ (q.drop (c * packageBlockSize) ++ post.flatten) := by
        rw [append_assoc, ← append_assoc (q.take _), take_append_drop]
      rw [Int.toNat_natCast, drop_drop, hoff, flatten_append, drop_length_add_append,
        flatten_append, flatten_cons, hcut, slice_append _ hslice]

theorem Stored.ne_nil (h : Stored keys o plains) : plains ≠ [] := by
  rintro rfl
  by_cases hmulti : isEncryptedMultipart o
  · have hparts := h.map_size_eq hmulti
    rw [map_nil, map_eq_nil_iff] at hparts
    rw [isEncryptedMultipart, hparts, if_pos length_nil] at hmulti
    cases hmulti
  · obtain ⟨plain, hplain⟩ := h.single hmulti
    cases hplain

theorem Stored.decryptBlocks_rest (h : Stored keys o (pre ++ rest)) (hrest : rest ≠ []) :
    decryptBlocks keys o 0 pre.length (streamsFrom keys packageBlockSize pre.length rest).flatten =
      some rest.flatten := by
  obtain ⟨init, q, rfl⟩ : ∃ init q, rest = init ++ [q] := ⟨_, _, (dropLast_append_getLast hrest).symm⟩
  -- so many packages that all of the last part are among them
  have hslice := @Stored.decryptBlocks_slice keys o pre init [] q 0 (encSize q + q.length) h
    (fun p _ => by exact Nat.zero_le _)
  have hstream : ((keys (pre.length + init.length)).packed packageBlockSize 0 q).length ≤
      (encSize q + q.length) * (packageBlockSize + packageMetaSize) := by
    rw [length_packed _ packageBlockSize_pos]
    exact le_trans (Nat.le_add_right _ _) (Nat.le_mul_of_pos_right _ (by decide))
  have hq : q.length ≤ (encSize q + q.length) * packageBlockSize :=
    le_trans (Nat.le_add_left _ _) (Nat.le_mul_of_pos_right _ (by decide))
  simp only [Nat.zero_mul, drop_zero] at hslice
  rw [take_of_length_le hstream, take_of_length_le hq] at hslice
  have hflatten : (streamsFrom keys packageBlockSize pre.length (init ++ [q])).flatten =
      (streamsFrom keys packageBlockSize pre.length init).flatten ++
        (keys (pre.length + init.length)).packed packageBlockSize 0 q := by
    rw [streamsFrom_append, flatten_append]
    simp [streamsFrom]
  rw [hflatten, hslice, flatten_append]
  simp

theorem Stored.whole_mapped (h : Stored keys o plains) :
    RangeMapped keys o plains 0 plains.flatten.length ⟨0, o.size, 0, 0, 0⟩ := by
  have hsize := h.size
  have hall : decryptBlocks keys o 0 0 (storedBytes keys plains) = some plains.flatten :=
    @Stored.decryptBlocks_rest keys o [] plains h h.ne_nil
  refine ⟨?_, by simp, ?_, le_refl _, plains.flatten, ?_, by simp⟩
  · simp only
    omega
  · cases plains with
    | nil => exact absurd rfl h.ne_nil
    | cons p plains => exact ⟨p, rfl, .inl rfl⟩
  · simp only [Int.toNat_zero, drop_zero]
    rw [take_of_length_le (by omega), hall]

theorem Stored.empty_mapped (h : Stored keys o plains) (hempty : plains.flatten = []) :
    RangeMapped keys o plains 0 0 (encryptedRange (plains.map fun plain => (plain.length : Int)) 0 0) := by
  have hnil : ∀ plain ∈ plains, plain = [] := flatten_eq_nil_iff.mp hempty
  have hloop : ∀ {plains : List Bytes} (i : Nat), (∀ plain ∈ plains, plain = []) →
      locatePart 0 i 0 0 (plains.map fun plain => (plain.length : Int)) = (0, 0, 0) := by
    intro plains i hnil
    induction plains generalizing i with
    | nil => rfl
    | cons p plains ih =>
      obtain rfl := hnil p mem_cons_self
      exact ih (i + 1) fun plain hplain => hnil plain (mem_cons_of_mem _ hplain)
  have hr : encryptedRange (plains.map fun plain => (plain.length : Int)) 0 0 = ⟨0, 0, 0, 0, 0⟩ := by
    unfold encryptedRange
    rw [hloop 0 hnil]
    cases plains with
    | nil => exact absurd rfl h.ne_nil
    | cons p plains =>
      obtain rfl := hnil p mem_cons_self
      have hsize : (encryptedSize (uint64 0)).getD 0 = 0 := by decide
      simp [locatePart, hsize, packageBlockSize, packageMetaSize]
  rw [hr]
  refine ⟨by simp, by simp, ?_, le_refl _, [], ?_, by simp [hempty]⟩
  · cases plains with
    | nil => exact absurd rfl h.ne_nil
    | cons p plains => exact ⟨p, rfl, .inl rfl⟩
  · simp only [Int.toNat_zero, take_zero, decryptBlocks]
    split
    · exact unpackedParts_nil keys _ _ _
    · exact (keys 0).unpacked_nil packageBlockSize 0

theorem select_pos {r : ByteRange} {total : Nat} (hfits : r.Fits) (hr : r ≠ .suffix 0)
    (h : r.select total = some (off, length)) : 0 < length ∨ (total = 0 ∧ off = 0 ∧ length = 0) := by
  cases r with
  | interval first last =>
    simp only [ByteRange.select] at h
    split at h
    · cases h
      have hle := hfits.1
      omega
    · cases h
  | onwards first =>
    simp only [ByteRange.select] at h
    split at h
    · cases h
      omega
    · cases h
  | suffix n =>
    simp only [ByteRange.select, Option.some.injEq, Prod.mk.injEq] at h
    have hn : n ≠ 0 := fun hn => hr (by rw [hn])
    omega

/-- Every satisfiable range of every encrypted object is mapped to packages that have its bytes. -/
theorem getDecryptedRange_mapped (keys : Nat → Dare) (o : ObjectInfo) (plains : List Bytes)
    (rs : Option HTTPRangeSpec) (off length : Nat) (h : Stored keys o plains)
    (hr : Requested rs plains.flatten.length off length) :
    ∃ r, getDecryptedRange o rs = .ok r ∧ RangeMapped keys o plains off length r := by
  unfold getDecryptedRange
  rw [if_neg (by simp [h.encrypted])]
  rcases hr with ⟨rfl, rfl, rfl⟩ | ⟨r, hfits, hne, hsel, rfl⟩
  · exact ⟨_, rfl, h.whole_mapped⟩
  · have htotal : (plains.map fun plain => (plain.length : Int)).sum = plains.flatten.length := by
      rw [length_flatten, Nat.cast_list_sum, map_map]
      rfl
    have hmax : ((plains.flatten.length : Nat) : Int) ≤ maxInt64 := by
      have hle : plains.flatten.length ≤ (storedBytes keys plains).length := by
        rw [storedBytes, streams, length_streams keys packageBlockSize_pos, length_flatten]
        exact sum_le_sum fun plain _ => le_streamSize plain
      have hsize := h.size
      have hsize' := h.size_le
      omega
    have hval := (getOffsetLength_gives hfits hmax).1
    rw [ByteRange.resolved, hsel] at hval
    simp only [h.decryptedSizes_eq, htotal, hval]
    refine ⟨_, rfl, ?_⟩
    rcases select_pos hfits hne hsel with hpos | ⟨hzero, rfl, rfl⟩
    · exact h.encryptedRange_mapped hpos (ByteRange.select_le hsel)
    · exact h.empty_mapped (eq_nil_of_length_eq_zero hzero)

def zeroCode : Dare where
  wrap _ _ c := c ++ List.replicate packageMetaSize 0
  opens _ p := some (p.take (p.length - packageMetaSize))
  length_wrap _ _ c := by rw [length_append, length_replicate]
  opens_wrap _ _ c := by
    rw [length_append, length_replicate, Nat.add_sub_cancel, take_left]

/-- An object of one stream, and a range of two of its bytes. -/
theorem getDecryptedRange_one_stream : let o : ObjectInfo := ⟨35, [], true, false, true, []⟩
    Stored (fun _ => zeroCode) o [[1, 2, 3]] ∧ Requested (some ⟨false, 1, 2⟩) 3 1 2 ∧
      ∃ r, getDecryptedRange o (some ⟨false, 1, 2⟩) = .ok r ∧
        RangeMapped (fun _ => zeroCode) o [[1, 2, 3]] 1 2 r := by
  intro o
  have hstored : Stored (fun _ => zeroCode) o [[1, 2, 3]] :=
    ⟨rfl, by decide, fun h => absurd h (by decide), fun _ => ⟨_, rfl⟩, by rfl, by decide⟩
  have hrequested : Requested (some ⟨false, 1, 2⟩) 3 1 2 :=
    .inr ⟨.interval 1 2, ⟨by decide, by decide⟩, by decide, by decide, rfl⟩
  exact ⟨hstored, hrequested, getDecryptedRange_mapped _ o _ _ 1 2 hstored hrequested⟩

end Otterio.SSE
