import Otterio.Encryption.DecryptedRange

/-!
# The range of a compressed object

Every part of a compressed object is compressed on its own, and then encrypted if the object is. A
range is read from the start of the part of its first byte; `getCompressedOffsets` looks for that part
(`cmd/object-api-utils.go`).

* `compressedLoop_spec`: the part, and the stored sizes before it.
* `addedOffset`: what is added to them for an object that is encrypted in parts. The stored sizes are
  those of the encrypted parts, so that nothing is to be added. But `partNumberToRangeSpec` gives the
  range of the part before the one of the offset, and its start is mapped to an encrypted offset: it
  is 0 for the second part, and not in general for the later ones (`addedOffset_eq_zero_iff`).
-/

namespace Otterio.SSE

open PackageCode List

/-! ## The model -/

/-- The loop of `partNumberToRangeSpec`: start and end of the last of these parts. -/
def partRange (parts : List ObjectPartInfo) : Int × Int :=
  parts.foldl (fun (_, end_) part => (end_ + 1, end_ + 1 + part.actualSize - 1)) (0, -1)

def partNumberToRangeSpec (o : ObjectInfo) (partNumber : Nat) : Option HTTPRangeSpec :=
  if o.size = 0 ∨ o.parts.length = 0 then none
  else
    let (start, end_) := partRange (o.parts.take partNumber)
    some ⟨false, start, end_⟩

/-- The loop of `getCompressedOffsets`: stored sizes, skipped length and number of the first part. -/
def compressedLoop (offset : Int) : Nat → Int → Int → List ObjectPartInfo → Int × Int × Nat
  | _, _, compressedOffset, [] => (compressedOffset, 0, 0)
  | i, cumulativeActualSize, compressedOffset, part :: parts =>
    let cumulativeActualSize := cumulativeActualSize + part.actualSize
    if cumulativeActualSize ≤ offset then
      compressedLoop offset (i + 1) cumulativeActualSize (compressedOffset + part.size) parts
    else (compressedOffset, cumulativeActualSize - part.actualSize, i)

/-- The adjustment for an object that is encrypted in parts. An error is only logged, and leaves the
offset 0. -/
def addedOffset (o : ObjectInfo) (firstPart : Nat) : Int :=
  if isEncryptedMultipart o ∧ firstPart > 0 then
    match getDecryptedRange o (partNumberToRangeSpec o firstPart) with
    | .ok r => r.encOff
    | .error _ => 0
  else 0

/-- `getCompressedOffsets`: compressed offset, bytes to skip, first part. -/
def getCompressedOffsets (o : ObjectInfo) (offset : Int) : Int × Int × Nat :=
  let (compressedOffset, skipLength, firstPart) := compressedLoop offset 0 0 0 o.parts
  (compressedOffset + addedOffset o firstPart, offset - skipLength, firstPart)

/-- A compression whose streams may be put one after the other, as those of `s2`. -/
structure Compression where
  compress : Bytes → Bytes
  decompress : Bytes → Option Bytes
  decompress_flatten : ∀ plains : List Bytes, decompress (plains.map compress).flatten = some plains.flatten

/-- `NewGetObjectReader` for a range of a compressed object: the stored bytes from the compressed offset
on are decrypted and decompressed. -/
def getRange (s2 : Compression) (keys : Nat → Dare) (o : ObjectInfo) (actualSize : Int) (stored : Bytes)
    (off length : Int) : Option Bytes :=
  let (compressedOffset, decOff, firstPart) := getCompressedOffsets o off
  if decOff > actualSize ∨ decOff + length > actualSize then none
  else
    let b := (stored.drop compressedOffset.toNat).take (o.size - compressedOffset).toNat
    (if o.encrypted then decryptBlocks keys o 0 firstPart b else some b).bind fun b =>
      (s2.decompress b).map fun plain => (plain.drop decOff.toNat).take length.toNat

abbrev sizes (parts : List ObjectPartInfo) : Int := (parts.map (·.size)).sum

abbrev actualSizes (parts : List ObjectPartInfo) : Int := (parts.map (·.actualSize)).sum

/-- The offset lies in the part after the first ones. -/
structure InPart (offset : Int) (pre : List ObjectPartInfo) (part : ObjectPartInfo) : Prop where
  lower : actualSizes pre ≤ offset
  upper : offset < actualSizes pre + part.actualSize

theorem compressedLoop_spec {offset : Int} {parts : List ObjectPartInfo} {i : Nat}
    {cumulativeActualSize compressedOffset : Int} (hlo : cumulativeActualSize ≤ offset)
    (hhi : offset < cumulativeActualSize + actualSizes parts) :
    ∃ pre part post, parts = pre ++ part :: post ∧
      compressedLoop offset i cumulativeActualSize compressedOffset parts =
        (compressedOffset + sizes pre, cumulativeActualSize + actualSizes pre, i + pre.length) ∧
      InPart (offset - cumulativeActualSize) pre part := by
  induction parts generalizing i cumulativeActualSize compressedOffset with
  | nil =>
    simp only [actualSizes, map_nil, sum_nil] at hhi
    omega
  | cons part parts ih =>
    simp only [actualSizes, map_cons, sum_cons] at hhi
    rw [compressedLoop]
    by_cases hle : cumulativeActualSize + part.actualSize ≤ offset
    · obtain ⟨pre, q, post, rfl, hloop, hlower, hupper⟩ :=
        @ih (i + 1) (cumulativeActualSize + part.actualSize) (compressedOffset + part.size) hle
          (by simp only [actualSizes]; omega)
      refine ⟨part :: pre, q, post, rfl, ?_, ?_, ?_⟩
      · simp only [if_pos hle, hloop, sizes, actualSizes, map_cons, sum_cons, length_cons]
        refine Prod.ext ?_ (Prod.ext ?_ ?_) <;> simp only [] <;> omega
      · simp only [actualSizes, map_cons, sum_cons] at hlower ⊢
        omega
      · simp only [actualSizes, map_cons, sum_cons] at hupper ⊢
        omega
    · refine ⟨[], part, parts, rfl, ?_, ?_, ?_⟩
      · simp only [if_neg hle, sizes, actualSizes, map_nil, sum_nil, length_nil]
        refine Prod.ext ?_ (Prod.ext ?_ ?_) <;> simp only [] <;> omega
      · simp only [actualSizes, map_nil, sum_nil]
        omega
      · simp only [actualSizes, map_nil, sum_nil]
        omega

/-! ## The adjustment -/

theorem partRange_eq (parts : List ObjectPartInfo) (part : ObjectPartInfo) :
    partRange (parts ++ [part]) = (actualSizes parts, actualSizes parts + part.actualSize - 1) := by
  have hend : ∀ parts : List ObjectPartInfo, (partRange parts).2 = actualSizes parts - 1 := by
    intro parts
    induction parts using List.reverseRecOn with
    | nil => rfl
    | append_singleton parts part ih =>
      rw [partRange, foldl_append, ← partRange]
      simp only [foldl_cons, foldl_nil, ih, actualSizes, map_append, sum_append, map_cons, map_nil, sum_cons, sum_nil]
      omega
  rw [partRange, foldl_append, ← partRange]
  simp only [foldl_cons, foldl_nil, hend]
  refine Prod.ext ?_ ?_ <;> simp only [] <;> omega

/-- The sizes before the part that is found do not exceed the offset, and only grow. -/
theorem locatePart_le {off : Int} {sizes : List Int} {i : Nat} {cumulativeSum encCumulativeSum : Int}
    (hlo : cumulativeSum ≤ off) :
    (locatePart off i cumulativeSum encCumulativeSum sizes).2.1 ≤ off ∧
      encCumulativeSum ≤ (locatePart off i cumulativeSum encCumulativeSum sizes).2.2 := by
  induction sizes generalizing i cumulativeSum encCumulativeSum with
  | nil => exact ⟨hlo, le_refl _⟩
  | cons size sizes ih =>
    rw [locatePart]
    split
    · exact ⟨hlo, le_refl _⟩
    · obtain ⟨hcum, henc⟩ := @ih (i + 1) (cumulativeSum + size)
        (encCumulativeSum + ((encryptedSize (uint64 size)).getD 0 : Nat)) (by omega)
      exact ⟨hcum, le_trans (by omega) henc⟩

/-- The encrypted offset of an offset is 0 just when it is in the first package of the first part. -/
theorem encOff_eq_zero_iff {off length : Int} {size : Nat} {sizes : List Int} (hoff : 0 ≤ off)
    (hpos : 0 < size) (hmax : size ≤ maxDecryptedSize) :
    (encryptedRange ((size : Int) :: sizes) off length).encOff = 0 ↔ off < size ∧ off < packageBlockSize := by
  have hdef : (encryptedRange ((size : Int) :: sizes) off length).encOff =
      (locatePart off 0 0 0 ((size : Int) :: sizes)).2.2 +
        (off - (locatePart off 0 0 0 ((size : Int) :: sizes)).2.1).tdiv packageBlockSize *
          (packageBlockSize + packageMetaSize) := rfl
  rw [hdef, locatePart]
  have hblock : (0 : Int) < packageBlockSize := by decide
  by_cases hlt : off < size
  · rw [if_pos (by omega)]
    simp only [sub_zero, zero_add]
    rw [Int.mul_eq_zero, or_iff_left (by decide), Int.tdiv_eq_ediv_of_nonneg hoff]
    constructor
    · intro hzero
      refine ⟨hlt, ?_⟩
      have hmod := Int.emod_lt_of_pos off hblock
      have hdiv := Int.mul_ediv_add_emod off packageBlockSize
      rw [hzero] at hdiv
      omega
    · exact fun h => Int.ediv_eq_zero_of_lt hoff h.2
  · rw [if_neg (by omega)]
    simp only [zero_add]
    have hsize : uint64 (size : Int) = size := uint64_natCast (by unfold maxDecryptedSize at hmax; omega)
    rw [hsize, encryptedSize_eq hmax, Option.getD_some]
    have henc : 0 < packedSize packageBlockSize packageMetaSize size := by
      unfold packedSize packageBlockSize packageMetaSize
      split <;> omega
    obtain ⟨hcum, hle⟩ := @locatePart_le off sizes 1 size
      (packedSize packageBlockSize packageMetaSize size) (by omega)
    generalize locatePart off 1 size (packedSize packageBlockSize packageMetaSize size) sizes = r at *
    have hmul : 0 ≤ (off - r.2.1).tdiv packageBlockSize * (packageBlockSize + packageMetaSize : Int) :=
      Int.mul_nonneg (Int.tdiv_nonneg (by omega) hblock.le) (by decide)
    constructor
    · intro hzero
      omega
    · exact fun h => absurd h.1 hlt

def plainSize (part : ObjectPartInfo) : Nat := (decryptedSize (uint64 part.size)).getD 0

theorem decryptedSizes_of_multipart {o : ObjectInfo} (h : isEncryptedMultipart o) :
    decryptedSizes o = some (o.parts.map fun part => (plainSize part : Int)) ∧
      ∀ part ∈ o.parts, decryptedSize (uint64 part.size) = some (plainSize part) := by
  have hall : ∀ part ∈ o.parts, decryptedSize (uint64 part.size) = some (plainSize part) := by
    intro part hpart
    unfold plainSize
    cases hsize : decryptedSize (uint64 part.size) with
    | some m => rfl
    | none =>
      have hany : o.parts.any (fun part => (decryptedSize (uint64 part.size)).isNone) = true :=
        any_eq_true.mpr ⟨part, hpart, by rw [hsize]; rfl⟩
      unfold isEncryptedMultipart at h
      rw [hany] at h
      simp at h
  refine ⟨?_, hall⟩
  unfold decryptedSizes
  rw [if_pos h]
  generalize o.parts = parts at hall
  induction parts with
  | nil => rfl
  | cons part parts ih =>
    rw [mapM_cons, hall part mem_cons_self, ih fun part hpart => hall part (mem_cons_of_mem _ hpart)]
    rfl

theorem getOffsetLength_start {start end_ size : Int} (hsize : 0 ≤ size) (hend : -1 < end_) :
    (start < size → ∃ length, (getOffsetLength (some ⟨false, start, end_⟩) size).val = .ok (start, length)) ∧
      (¬ start < size → (getOffsetLength (some ⟨false, start, end_⟩) size).val = .error .errInvalidRange) := by
  have hpos : ¬ size < 0 := by omega
  have hval : (getOffsetLength (some ⟨false, start, end_⟩) size).val =
      (getLength (some ⟨false, start, end_⟩) size).val.map fun length => (start, length) := by
    unfold getOffsetLength
    simp only [bind, pure]
    cases (getLength (some ⟨false, start, end_⟩) size).val <;> rfl
  constructor
  · intro hlt
    have hlength : ∃ length, (getLength (some ⟨false, start, end_⟩) size).val = .ok length := by
      unfold getLength
      simp only [if_neg hpos, Bool.false_eq_true, if_false]
      rw [if_neg (show ¬ start ≥ size by omega), if_pos hend]
      exact ⟨_, rfl⟩
    obtain ⟨length, hlength⟩ := hlength
    exact ⟨length, by rw [hval, hlength, Except.map]⟩
  · intro hge
    have herr : (getLength (some ⟨false, start, end_⟩) size).val = .error .errInvalidRange := by
      unfold getLength
      simp only [if_neg hpos, Bool.false_eq_true, if_false]
      rw [if_pos (show start ≥ size by omega)]
      rfl
    rw [hval, herr, Except.map]

/-- The sizes of a part: positive, and the stored one an `int64`. -/
structure ValidPart (part : ObjectPartInfo) : Prop where
  size_pos : 0 < part.size
  size_le : part.size ≤ maxInt64
  actualSize_pos : 0 < part.actualSize

theorem actualSizes_nonneg {parts : List ObjectPartInfo} (h : ∀ part ∈ parts, ValidPart part) :
    0 ≤ actualSizes parts := by
  refine sum_nonneg fun x hx => ?_
  obtain ⟨part, hpart, rfl⟩ := mem_map.mp hx
  exact (h part hpart).actualSize_pos.le

/-- The part before that of the offset starts neither in the first package of the first part nor after
the end of the plaintext. -/
def ShiftedStart (o : ObjectInfo) (start : Int) : Prop :=
  o.encrypted ∧ isEncryptedMultipart o ∧ o.size ≠ 0 ∧ start < (o.parts.map fun part => (plainSize part : Int)).sum ∧
    ∃ first ∈ o.parts.head?, (plainSize first : Int) ≤ start ∨ packageBlockSize ≤ start

theorem addedOffset_eq_zero_iff {o : ObjectInfo} {pre post : List ObjectPartInfo} {prev part : ObjectPartInfo}
    (hparts : o.parts = pre ++ prev :: part :: post) (hvalid : ∀ part ∈ o.parts, ValidPart part) :
    addedOffset o (pre.length + 1) = 0 ↔ ¬ ShiftedStart o (actualSizes pre) := by
  unfold addedOffset ShiftedStart
  by_cases hmulti : isEncryptedMultipart o
  · rw [if_pos ⟨hmulti, Nat.succ_pos _⟩]
    have hstart : 0 ≤ actualSizes pre :=
      actualSizes_nonneg fun part hpart => hvalid part (by rw [hparts]; exact mem_append_left _ hpart)
    have hprev := hvalid prev (by rw [hparts]; simp)
    by_cases henc : o.encrypted
    · by_cases hsize : o.size = 0
      · have hspec : partNumberToRangeSpec o (pre.length + 1) = none := if_pos (.inl hsize)
        rw [hspec]
        simp [getDecryptedRange, henc, hsize]
      · have hspec : partNumberToRangeSpec o (pre.length + 1) =
            some ⟨false, actualSizes pre, actualSizes pre + prev.actualSize - 1⟩ := by
          have htake : o.parts.take (pre.length + 1) = pre ++ [prev] := by
            rw [hparts, take_length_add_append]
            rfl
          unfold partNumberToRangeSpec
          rw [if_neg (by rw [hparts]; simp [hsize]), htake, partRange_eq]
        obtain ⟨hsizes, hall⟩ := decryptedSizes_of_multipart hmulti
        have hsum : 0 ≤ (o.parts.map fun part => (plainSize part : Int)).sum :=
          sum_nonneg fun x hx => by
            obtain ⟨part, -, rfl⟩ := mem_map.mp hx
            exact Int.natCast_nonneg _
        obtain ⟨hok, herr⟩ := @getOffsetLength_start (actualSizes pre)
          (actualSizes pre + prev.actualSize - 1) _ hsum (by have := hprev.actualSize_pos; omega)
        rw [hspec, getDecryptedRange, if_neg (by simp [henc])]
        simp only [hsizes]
        by_cases hlt : actualSizes pre < (o.parts.map fun part => (plainSize part : Int)).sum
        · obtain ⟨length, hval⟩ := hok hlt
          simp only [hval]
          obtain ⟨first, rest, hcons⟩ : ∃ first rest, o.parts = first :: rest := by
            cases pre with
            | nil => exact ⟨prev, part :: post, hparts⟩
            | cons first pre => exact ⟨first, pre ++ prev :: part :: post, hparts⟩
          have hfirst := hvalid first (by rw [hcons]; exact mem_cons_self)
          have hplain := hall first (by rw [hcons]; exact mem_cons_self)
          have huint : 0 < uint64 first.size := by
            have hpos := hfirst.size_pos
            have hle := hfirst.size_le
            unfold uint64
            unfold maxInt64 at hle
            omega
          rw [hcons, map_cons, encOff_eq_zero_iff hstart (decryptedSize_pos hplain huint) (decryptedSize_le hplain)]
          rw [hcons, map_cons] at hlt
          simp only [henc, hmulti, hsize, hlt, List.head?_cons, Option.mem_some_iff, true_and, ne_eq,
            not_false_eq_true, exists_eq_left', not_or, not_le]
        · simp only [herr hlt]
          simp [hlt]
    · simp [getDecryptedRange, henc]
  · simp [hmulti]

/-! ## The offsets -/

/-- The compressed offset is the size of the parts before that of the offset, the first part is its
number, and the bytes to skip are those before the offset in it. -/
def OffsetsRight (o : ObjectInfo) (offset : Int) : Prop :=
  ∃ pre part post, o.parts = pre ++ part :: post ∧ InPart offset pre part ∧
    getCompressedOffsets o offset = (sizes pre, offset - actualSizes pre, pre.length)

/-- The offset lies in a part, and the one before it has a shifted start. -/
def Shifted (o : ObjectInfo) (offset : Int) : Prop :=
  ∃ pre prev part post, o.parts = pre ++ prev :: part :: post ∧ InPart offset (pre ++ [prev]) part ∧
    ShiftedStart o (actualSizes pre)

theorem actualSizes_append (a b : List ObjectPartInfo) : actualSizes (a ++ b) = actualSizes a + actualSizes b := by
  rw [actualSizes, map_append, sum_append]

theorem InPart.unique {offset : Int} {pre pre' post post' : List ObjectPartInfo} {part part' : ObjectPartInfo}
    (hvalid : ∀ p ∈ pre ++ part :: post, ValidPart p) (h : pre ++ part :: post = pre' ++ part' :: post')
    (hin : InPart offset pre part) (hin' : InPart offset pre' part') : pre.length ≤ pre'.length := by
  by_contra hlt
  -- the first parts and their part would come before the offset
  obtain ⟨r, hr⟩ : pre' ++ [part'] <+: pre := by
    refine prefix_of_prefix_length_le ⟨post', ?_⟩ (prefix_append pre (part :: post)) ?_
    · rw [h, append_assoc]
      rfl
    · rw [length_append, length_singleton]
      omega
  have hnonneg := @actualSizes_nonneg r fun p hp => hvalid p (by
    rw [← hr]
    exact mem_append_left _ (mem_append_right _ hp))
  have hsum : actualSizes pre = actualSizes pre' + part'.actualSize + actualSizes r := by
    rw [← hr, actualSizes_append, actualSizes_append]
    simp [actualSizes]
  have hlo := hin.lower
  have hhi := hin'.upper
  omega

variable {o : ObjectInfo} {offset : Int}

theorem getCompressedOffsets_eq (hlo : 0 ≤ offset) (hhi : offset < actualSizes o.parts) :
    ∃ pre part post, o.parts = pre ++ part :: post ∧ InPart offset pre part ∧ getCompressedOffsets o offset =
        (sizes pre + addedOffset o pre.length, offset - actualSizes pre, pre.length) := by
  obtain ⟨pre, part, post, hparts, hloop, hin⟩ :=
    @compressedLoop_spec offset o.parts 0 0 0 hlo (by rw [zero_add]; exact hhi)
  rw [sub_zero] at hin
  refine ⟨pre, part, post, hparts, hin, ?_⟩
  unfold getCompressedOffsets
  rw [hloop]
  simp only [zero_add]

theorem offsetsRight_iff (hvalid : ∀ part ∈ o.parts, ValidPart part) (hlo : 0 ≤ offset)
    (hhi : offset < actualSizes o.parts) : OffsetsRight o offset ↔ ¬ Shifted o offset := by
  obtain ⟨pre, part, post, hparts, hin, heq⟩ := getCompressedOffsets_eq hlo hhi
  have hright : OffsetsRight o offset ↔ addedOffset o pre.length = 0 := by
    constructor
    · rintro ⟨pre', part', post', hparts', -, heq'⟩
      rw [heq, Prod.mk.injEq, Prod.mk.injEq] at heq'
      obtain ⟨hoff, -, hlen⟩ := heq'
      obtain ⟨rfl, -⟩ := append_inj (hparts.symm.trans hparts') hlen
      omega
    · intro hzero
      refine ⟨pre, part, post, hparts, hin, ?_⟩
      rw [heq, hzero, add_zero]
  rw [hright]
  have hshifted : Shifted o offset ↔ ∃ init prev, pre = init ++ [prev] ∧ ShiftedStart o (actualSizes init) := by
    constructor
    · rintro ⟨init, prev, part', post', hparts', hin', hstart⟩
      have hsplit : pre ++ part :: post = (init ++ [prev]) ++ part' :: post' := by
        rw [← hparts, hparts', append_assoc]
        rfl
      have hle := hin.unique (fun p hp => hvalid p (hparts ▸ hp)) hsplit hin'
      have hge := hin'.unique (fun p hp => hvalid p (by rw [hparts, hsplit]; exact hp)) hsplit.symm hin
      obtain ⟨rfl, -⟩ := append_inj hsplit (le_antisymm hle hge)
      exact ⟨init, prev, rfl, hstart⟩
    · rintro ⟨init, prev, rfl, hstart⟩
      refine ⟨init, prev, part, post, ?_, hin, hstart⟩
      rw [hparts, append_assoc]
      rfl
  rw [hshifted]
  rcases eq_nil_or_concat pre with rfl | ⟨init, prev, rfl⟩
  · have hzero : addedOffset o 0 = 0 := if_neg (fun h => absurd h.2 (Nat.lt_irrefl 0))
    simp [hzero]
  · rw [concat_eq_append, append_assoc] at hparts
    rw [concat_eq_append, length_append, length_singleton, addedOffset_eq_zero_iff hparts hvalid, not_iff_not]
    constructor
    · exact fun h => ⟨init, prev, rfl, h⟩
    · rintro ⟨init', prev', hconcat, h⟩
      obtain ⟨rfl, -⟩ := append_inj' hconcat rfl
      exact h

/-! ## The bytes -/

def pieces (s2 : Compression) (keys : Nat → Dare) (o : ObjectInfo) (plains : List Bytes) : List Bytes :=
  if o.encrypted then streams keys (plains.map s2.compress) else plains.map s2.compress

/-- An object whose parts have these plaintexts. -/
structure Content (s2 : Compression) (keys : Nat → Dare) (o : ObjectInfo) (plains : List Bytes) : Prop where
  actual : o.parts.map (·.actualSize) = plains.map fun plain => (plain.length : Int)
  partSizes : o.parts.map (·.size) = (pieces s2 keys o plains).map fun piece => (piece.length : Int)
  size : o.size = (pieces s2 keys o plains).flatten.length
  encrypted : o.encrypted → Stored keys o (plains.map s2.compress)

theorem sum_lengths (ls : List Bytes) : (ls.map fun l => (l.length : Int)).sum = ls.flatten.length := by
  rw [length_flatten, Nat.cast_list_sum, map_map]
  rfl

theorem drop_flatten_take (L : List Bytes) (k : Nat) :
    L.flatten.drop (L.take k).flatten.length = (L.drop k).flatten := by
  have hsplit : L.flatten = (L.take k).flatten ++ (L.drop k).flatten := by
    rw [← flatten_append, take_append_drop]
  rw [hsplit, drop_left]

variable {s2 : Compression} {keys : Nat → Dare} {plains : List Bytes}

theorem Content.decrypt_eq (h : Content s2 keys o plains) {k : Nat} (hk : k < plains.length) :
    (if o.encrypted then decryptBlocks keys o 0 k ((pieces s2 keys o plains).drop k).flatten
      else some ((pieces s2 keys o plains).drop k).flatten) =
      some ((plains.drop k).map s2.compress).flatten := by
  unfold pieces
  by_cases henc : o.encrypted
  · rw [if_pos henc, if_pos henc]
    have hstored := h.encrypted henc
    have hlen : ((plains.take k).map s2.compress).length = k := by
      rw [length_map, length_take]
      omega
    rw [← take_append_drop k plains, map_append] at hstored
    have hrest := hstored.decryptBlocks_rest (by
      intro hnil
      have hzero := congrArg List.length hnil
      rw [length_map, length_drop, length_nil] at hzero
      omega)
    have hdrop : (streams keys (plains.map s2.compress)).drop k =
        streamsFrom keys packageBlockSize k ((plains.drop k).map s2.compress) := by
      have hstreams : (streamsFrom keys packageBlockSize 0 ((plains.take k).map s2.compress)).length = k := by
        have hmap := congrArg List.length
          (map_length_streamsFrom keys packageBlockSize_pos 0 ((plains.take k).map s2.compress))
        rw [length_map, length_map, hlen] at hmap
        exact hmap
      rw [streams, ← take_append_drop k plains, map_append, streamsFrom_append,
        drop_left' hstreams, hlen, Nat.zero_add, take_append_drop]
    rw [hlen] at hrest
    rw [hdrop, hrest]
  · rw [if_neg henc, if_neg henc, ← map_drop]

theorem Content.getRange_eq (h : Content s2 keys o plains) (hright : OffsetsRight o offset)
    {length : Int} (hlength : 0 ≤ length) (hle : offset + length ≤ actualSizes o.parts) :
    getRange s2 keys o (actualSizes o.parts) (pieces s2 keys o plains).flatten offset length =
      some ((plains.flatten.drop offset.toNat).take length.toNat) := by
  obtain ⟨pre, part, post, hparts, ⟨hlo, hhi⟩, heq⟩ := hright
  have hpre : o.parts.take pre.length = pre := by rw [hparts, take_left]
  have hcount : pre.length < plains.length := by
    have hlen := congrArg List.length h.actual
    rw [length_map, length_map, hparts, length_append, length_cons] at hlen
    omega
  have hactual : actualSizes pre = (plains.take pre.length).flatten.length := by
    have htake := congrArg (List.take pre.length) h.actual
    rw [← map_take, ← map_take, hpre] at htake
    rw [actualSizes, htake, sum_lengths]
  have hsizes : sizes pre = ((pieces s2 keys o plains).take pre.length).flatten.length := by
    have htake := congrArg (List.take pre.length) h.partSizes
    rw [← map_take, ← map_take, hpre] at htake
    rw [sizes, htake, sum_lengths]
  have hb : ((pieces s2 keys o plains).flatten.drop (sizes pre).toNat).take (o.size - sizes pre).toNat =
      ((pieces s2 keys o plains).drop pre.length).flatten := by
    rw [hsizes, Int.toNat_natCast, drop_flatten_take, take_of_length_le]
    have hsplit : (pieces s2 keys o plains).flatten.length =
        ((pieces s2 keys o plains).take pre.length).flatten.length +
          ((pieces s2 keys o plains).drop pre.length).flatten.length := by
      rw [← length_append, ← flatten_append, take_append_drop]
    have hsize := h.size
    omega
  unfold getRange
  rw [heq]
  simp only
  rw [if_neg (by omega), hb, h.decrypt_eq hcount, Option.bind_some, s2.decompress_flatten, Option.map_some]
  have hoff : offset.toNat = (plains.take pre.length).flatten.length + (offset - actualSizes pre).toNat := by
    omega
  rw [hoff, ← drop_drop, drop_flatten_take]

/-- The offsets are right, and every range that starts there has the bytes of the plaintext. -/
structure CompressedRight (o : ObjectInfo) (offset : Int) : Prop where
  offsets : OffsetsRight o offset
  bytes : ∀ s2 keys plains, Content s2 keys o plains → ∀ length : Int, 0 ≤ length →
    offset + length ≤ actualSizes o.parts →
    getRange s2 keys o (actualSizes o.parts) (pieces s2 keys o plains).flatten offset length =
      some ((plains.flatten.drop offset.toNat).take length.toNat)

/-- A range of a compressed object is mapped right unless its start is shifted. -/
theorem compressedRight_iff (o : ObjectInfo) (offset : Int) (hvalid : ∀ part ∈ o.parts, ValidPart part)
    (hlo : 0 ≤ offset) (hhi : offset < actualSizes o.parts) : CompressedRight o offset ↔ ¬ Shifted o offset := by
  rw [← offsetsRight_iff hvalid hlo hhi]
  refine ⟨fun h => h.offsets, fun h => ⟨h, fun s2 keys plains hcontent length hlength hle => ?_⟩⟩
  exact hcontent.getRange_eq h hlength hle

/-- An object that is not encrypted, in its third part. -/
theorem compressedRight_not_encrypted :
    let o : ObjectInfo := ⟨3, [⟨"", 1, 1, 2⟩, ⟨"", 2, 1, 2⟩, ⟨"", 3, 1, 2⟩], false, false, true, []⟩
    (∀ part ∈ o.parts, ValidPart part) ∧ (0 : Int) ≤ 4 ∧ 4 < actualSizes o.parts ∧ CompressedRight o 4 := by
  intro o
  have hvalid : ∀ part ∈ o.parts, ValidPart part := by
    intro part hpart
    simp only [o, mem_cons, not_mem_nil, or_false] at hpart
    rcases hpart with rfl | rfl | rfl <;> exact ⟨by decide, by decide, by decide⟩
  refine ⟨hvalid, by decide, by decide, (compressedRight_iff o 4 hvalid (by decide) (by decide)).mpr ?_⟩
  rintro ⟨_, _, _, _, _, _, henc, _⟩
  exact absurd henc (by decide)

/-- Three parts of 33 stored bytes, each of one byte that decompresses to two. The third part starts at
66, but 66 is added to it. -/
theorem compressedRight_shifted :
    let o : ObjectInfo := ⟨99, [⟨"", 1, 33, 2⟩, ⟨"", 2, 33, 2⟩, ⟨"", 3, 33, 2⟩], true, true, true, []⟩
    (∀ part ∈ o.parts, ValidPart part) ∧ getCompressedOffsets o 4 = (132, 0, 2) ∧ ¬ CompressedRight o 4 := by
  intro o
  have hoffsets : getCompressedOffsets o 4 = (132, 0, 2) := by decide
  refine ⟨?_, hoffsets, ?_⟩
  · intro part hpart
    simp only [o, mem_cons, not_mem_nil, or_false] at hpart
    rcases hpart with rfl | rfl | rfl <;> exact ⟨by decide, by decide, by decide⟩
  · rintro ⟨⟨pre, part, post, hparts, -, heq⟩, -⟩
    rw [hoffsets, Prod.mk.injEq, Prod.mk.injEq] at heq
    obtain ⟨hsizes, -, hlen⟩ := heq
    have hpre : o.parts.take 2 = pre := by rw [hlen, hparts, take_left]
    rw [← hpre] at hsizes
    exact absurd hsizes (by decide)

end Otterio.SSE
