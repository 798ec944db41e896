import Otterio.XL.Codec

/-!
# The bytes of `xl.meta`

How `xlMetaV2` is written (`AppendTo`), read (`Load`) and cut down to its versions
(`xlMetaV2TrimData`), in the three versions of the format that can be read
(`cmd/xl-storage-format-v2.go`):

* 1.0: the header and the versions;
* 1.1: the header, the versions as one byte string, and the inline data;
* 1.2: the same with a checksum of the versions after them.

None of this looks inside a version, so the type `V` of versions is a parameter.

* `xlMetaV2TrimData_eq`: the trimmed buffer ends where the frame ends.

The length of the versions is written in 32 bits. What is written is read back, whole and trimmed,
exactly when the length fits.
-/

namespace Otterio

open Msgpack List

/-! ## Inline data -/

inductive InlineError where
  /-- "xlMetaInlineData: unknown version 0x%x" -/
  | unknownVersion (version : UInt8)
  /-- "xlMetaInlineData: %w", with an error of the reader -/
  | malformed
  /-- "xlMetaInlineData: key %d is length 0" -/
  | emptyKey (i : Nat)
deriving DecidableEq, Repr

/-- `xlMetaInlineData`: the serialised pairs. -/
structure InlineBytes where
  bytes : Bytes
deriving DecidableEq, Repr

namespace InlineBytes

def dataVer : UInt8 := 1

def versionOK (x : InlineBytes) : Bool :=
  match x.bytes with
  | [] => true
  | v :: _ => v > 0 && v ≤ dataVer

def afterVersion (x : InlineBytes) : Bytes := x.bytes.tail

/-- The loops of `find`, `replace`, `rename` and `remove`: the pairs up to the first that cannot be
read. -/
def readPairs : Nat → Bytes → List (Bytes × Bytes)
  | 0, _ => []
  | n + 1, buf =>
    match readMapKey buf with
    | none => []
    | some (key, buf) =>
      match readBytes buf with
      | none => []
      | some (val, buf) => (key, val) :: readPairs n buf

/-- The pairs that these loops see. -/
def pairs (x : InlineBytes) : List (Bytes × Bytes) :=
  match readMapHeader x.afterVersion with
  | none => []
  | some (sz, buf) => readPairs sz buf

/-- `find`: `none` is the `nil` result. -/
def find (x : InlineBytes) (key : Bytes) : Option Bytes :=
  if x.versionOK then (x.pairs.find? fun e => e.1 == key).map Prod.snd else none

/-- The loop of `validate`, from the pair `i` on. -/
def validatePairs (i : Nat) : Nat → Bytes → Except InlineError Unit
  | 0, _ => .ok ()
  | n + 1, buf =>
    match readMapKey buf with
    | none => .error .malformed
    | some (key, buf) =>
      if key.isEmpty then .error (.emptyKey i)
      else match readBytes buf with
        | none => .error .malformed
        | some (_, buf) => validatePairs (i + 1) n buf

def validate (x : InlineBytes) : Except InlineError Unit :=
  match x.bytes with
  | [] => .ok ()
  | v :: _ =>
    if !x.versionOK then .error (.unknownVersion v)
    else match readMapHeader x.afterVersion with
      | none => .error .malformed
      | some (sz, buf) => validatePairs 0 sz buf

def serialize (pairs : List (Bytes × Bytes)) : InlineBytes :=
  if pairs.isEmpty then ⟨[]⟩
  else ⟨dataVer :: (appendMapHeader (pairs.length % 2 ^ 32) ++
    pairs.flatMap fun e => appendString e.1 ++ appendBytes e.2)⟩

/-- `repair`: the pairs up to the first that cannot be read or has an empty key. -/
def repair (x : InlineBytes) : InlineBytes :=
  if !x.versionOK then ⟨[]⟩ else serialize (x.pairs.takeWhile fun e => !e.1.isEmpty)

def replace (x : InlineBytes) (key value : Bytes) : InlineBytes :=
  serialize <|
    if x.pairs.any (fun e => e.1 == key) then
      x.pairs.map fun e => if e.1 == key then (e.1, value) else e
    else x.pairs ++ [(key, value)]

def remove (x : InlineBytes) (key : Bytes) : InlineBytes :=
  if x.pairs.any (fun e => e.1 == key) then serialize (x.pairs.filter fun e => e.1 != key) else x

/-- The number of pairs and their lengths fit in 32 bits. -/
def PairsFit (pairs : List (Bytes × Bytes)) : Prop :=
  pairs.length < 2 ^ 32 ∧ ∀ e ∈ pairs, e.1.length < 2 ^ 32 ∧ e.2.length < 2 ^ 32

def pairBytes (e : Bytes × Bytes) : Bytes := appendString e.1 ++ appendBytes e.2

variable {pairs : List (Bytes × Bytes)}

theorem readPairs_pairBytes (h : ∀ e ∈ pairs, e.1.length < 2 ^ 32 ∧ e.2.length < 2 ^ 32) :
    readPairs pairs.length (pairs.flatMap pairBytes) = pairs := by
  induction pairs with
  | nil => rfl
  | cons e pairs ih =>
    obtain ⟨hkey, hval⟩ := h e mem_cons_self
    rw [length_cons, flatMap_cons, pairBytes, append_assoc, readPairs, readMapKey_appendString hkey]
    simp only
    rw [readBytes_appendBytes hval]
    simp only
    rw [ih fun e he => h e (mem_cons_of_mem _ he)]

theorem validatePairs_pairBytes (i : Nat) (h : ∀ e ∈ pairs, e.1.length < 2 ^ 32 ∧ e.2.length < 2 ^ 32)
    (hne : ∀ e ∈ pairs, e.1 ≠ []) : validatePairs i pairs.length (pairs.flatMap pairBytes) = .ok () := by
  induction pairs generalizing i with
  | nil => rfl
  | cons e pairs ih =>
    obtain ⟨hkey, hval⟩ := h e mem_cons_self
    have hempty : e.1.isEmpty = false := by simpa using hne e mem_cons_self
    rw [length_cons, flatMap_cons, pairBytes, append_assoc, validatePairs, readMapKey_appendString hkey]
    simp only [hempty, Bool.false_eq_true, if_false]
    rw [readBytes_appendBytes hval]
    exact ih (i + 1) (fun e he => h e (mem_cons_of_mem _ he))
      fun e he => hne e (mem_cons_of_mem _ he)

theorem serialize_cons (hne : pairs ≠ []) (hlen : pairs.length < 2 ^ 32) :
    serialize pairs = ⟨dataVer :: (appendMapHeader pairs.length ++ pairs.flatMap pairBytes)⟩ := by
  rw [serialize, if_neg (by simpa using hne), Nat.mod_eq_of_lt hlen]
  rfl

theorem pairs_serialize (h : PairsFit pairs) : (serialize pairs).pairs = pairs := by
  by_cases hne : pairs = []
  · subst hne
    rfl
  · rw [serialize_cons hne h.1, InlineBytes.pairs, afterVersion, tail_cons, readMapHeader_appendMapHeader h.1]
    exact readPairs_pairBytes h.2

theorem validate_serialize (h : PairsFit pairs) (hkeys : ∀ e ∈ pairs, e.1 ≠ []) :
    (serialize pairs).validate = .ok () := by
  by_cases hne : pairs = []
  · subst hne
    rfl
  · rw [serialize_cons hne h.1]
    simp only [validate, versionOK, afterVersion, tail_cons, readMapHeader_appendMapHeader h.1]
    exact validatePairs_pairBytes 0 h.2 hkeys

end InlineBytes

/-! ## Header -/

/-- The errors of `Load`, with what their texts show. -/
inductive FormatError where
  /-- "xlMeta: no data" -/
  | noData
  /-- "xlMeta: unknown XLv2 header, expected %v, got %v" -/
  | unknownHeader (got : Bytes)
  /-- "xlMeta: unknown major version %d found" -/
  | majorTooNew (major : Nat)
  /-- "unknown major metadata version" -/
  | unknownMajor
  /-- "unknown minor metadata version" -/
  | unknownMinor
  /-- "xlMetaV2.Load version(%d), bufLen(%d) %w" -/
  | versionsUnread (minor : Nat)
  /-- "xlMetaV2.Load version(%d), loading CRC: %w" -/
  | crcUnread (minor : Nat)
  /-- "xlMetaV2.Load version(%d), CRC mismatch, want 0x%x, got 0x%x" -/
  | crcMismatch (minor want got : Nat)
  /-- "xlMetaV2.Load %w", or with the version and the length of the versions -/
  | unmarshal (minor : Nat)
deriving DecidableEq, Repr

def xlHeader : Bytes := [0x58, 0x4c, 0x32, 0x20]

def xlVersionMajor : Nat := 1

/-- `xlVersionCurrent`: major version 1, minor version 2, in little-endian order. -/
def xlVersionCurrent : Bytes := [1, 0, 2, 0]

/-- `binary.LittleEndian.Uint16`. -/
def leUint16 (b : Bytes) : Nat := beNat (b.take 2).reverse

/-- The major and the minor version that the four bytes after "XL2 " stand for. -/
def xlVersion (version : Bytes) : Nat × Nat :=
  -- "1   "
  if version = [0x31, 0x20, 0x20, 0x20] then (1, 0)
  else (leUint16 version, leUint16 (version.drop 2))

/-- `checkXL2V1`: the rest of the buffer, the major and the minor version. -/
def checkXL2V1 (buf : Bytes) : Except FormatError (Bytes × Nat × Nat) :=
  if buf.length ≤ 8 then .error .noData
  else if buf.take 4 ≠ xlHeader then .error (.unknownHeader (buf.take 4))
  else
    let version := xlVersion ((buf.drop 4).take 4)
    if version.1 > xlVersionMajor then .error (.majorTooNew version.1)
    else .ok (buf.drop 8, version.1, version.2)

/-! ## Reading, trimming and writing -/

/-- `xlMetaV2`, with the inline data as the bytes that it is. -/
structure RawMeta (V : Type) where
  versions : List V
  data : InlineBytes

section Functions

variable {V : Type} (c : XLCodec V)

/-- The check of the metadata CRC in `Load`, and the bytes after it. -/
def checkCRC (minor : Nat) (v buf : Bytes) : Except FormatError Bytes :=
  if minor ≥ 2 then
    match readUint32 buf with
    | none => .error (.crcUnread minor)
    | some (crc, buf) => if c.crc v = crc then .ok buf else .error (.crcMismatch minor crc (c.crc v))
  else .ok buf

/-- `Load` of the versions 1.1 and 1.2, after the header. -/
def loadFramed (minor : Nat) (buf : Bytes) : Except FormatError (RawMeta V) :=
  match readBytes buf with
  | none => .error (.versionsUnread minor)
  | some (v, buf) => do
    let buf ← checkCRC c minor v buf
    match c.unmarshal v with
    | none => .error (.unmarshal minor)
    | some versions =>
      let data : InlineBytes := ⟨buf⟩
      return ⟨versions, if data.validate = .ok () then data else data.repair⟩

def load (buf : Bytes) : Except FormatError (RawMeta V) := do
  let (buf, major, minor) ← checkXL2V1 buf
  if major = 1 then
    if minor = 0 then
      match c.unmarshal buf with
      | none => .error (.unmarshal 0)
      | some versions => return ⟨versions, ⟨[]⟩⟩
    else if minor = 1 ∨ minor = 2 then loadFramed c minor buf
    else .error .unknownMinor
  else .error .unknownMajor

/-- `xlMetaV2TrimData`. The major and the minor version are bound to each other's names, as in the
source; a reader that fails returns no rest. -/
def xlMetaV2TrimData (buf : Bytes) : Bytes :=
  match checkXL2V1 buf with
  | .error _ => buf
  | .ok (metaBuf, mn, maj) =>
    if maj = 1 ∧ mn < 1 then buf
    else match readBytes metaBuf with
      | none => buf
      | some (_, metaBuf) =>
        let metaBuf :=
          if maj > 1 ∨ mn ≥ 2 then
            match readUint32 metaBuf with
            | none => []
            | some (_, metaBuf) => metaBuf
          else metaBuf
        buf.take (buf.length - metaBuf.length)

/-- `binary.BigEndian.PutUint32(dst[at-4:at], n)`. -/
def putUint32Before (dst : Bytes) (at_ n : Nat) : Bytes := dst.take (at_ - 4) ++ beBytes 4 n ++ dst.drop at_

def appendTo (z : RawMeta V) (dst : Bytes) : Except InlineError Bytes := do
  z.data.validate
  let dst := dst ++ xlHeader ++ xlVersionCurrent ++ [0xc6, 0, 0, 0, 0]
  let dataOffset := dst.length
  let dst := dst ++ c.marshal z.versions
  let dst := putUint32Before dst dataOffset (dst.length - dataOffset)
  let dst := dst ++ appendUint32 (c.crc (dst.drop dataOffset))
  return dst ++ z.data.bytes

end Functions

/-! ## The frame -/

/-- The versions as a byte string, and the checksum after them if there is one. -/
def readFrame (withCRC : Bool) : Reader (Bytes × Option Nat) := do
  let v ← readBytes
  if withCRC then
    let crc ← readUint32
    pure (v, some crc)
  else pure (v, none)

theorem Msgpack.Exact.readFrame (withCRC : Bool) : Exact (readFrame withCRC) := by
  refine Exact.bind Exact.readBytes fun v => ?_
  exact .ite (.bind .readUint32 fun crc => .pure _) (.pure _)

variable {header rest : Bytes}

theorem checkXL2V1_append (hlen : header.length = 8) (hrest : rest ≠ []) : checkXL2V1 (header ++ rest) =
      (checkXL2V1 (header ++ [0])).map fun r => (rest, r.2.1, r.2.2) := by
  have hlong : ∀ tail : Bytes, tail ≠ [] → ¬ 8 + tail.length ≤ 8 := by
    intro tail htail
    have := length_pos_iff.mpr htail
    omega
  have htake : ∀ tail : Bytes, (header ++ tail).take 4 = header.take 4 := fun tail =>
    take_append_of_le_length (by omega)
  have hversion : ∀ tail : Bytes, ((header ++ tail).drop 4).take 4 = (header.drop 4).take 4 := by
    intro tail
    rw [drop_append_of_le_length (by omega), take_append_of_le_length (by rw [length_drop]; omega)]
  have hdrop : ∀ tail : Bytes, (header ++ tail).drop 8 = tail := fun tail => by
    rw [← hlen, drop_left]
  unfold checkXL2V1
  simp only [length_append, htake, hversion, hdrop, hlen]
  rw [if_neg (hlong rest hrest), if_neg (hlong [0] (by simp))]
  by_cases hheader : header.take 4 ≠ xlHeader
  · rw [if_pos hheader, if_pos hheader]
    rfl
  · rw [if_neg hheader, if_neg hheader]
    split <;> rfl

variable {major minor : Nat}

theorem checkXL2V1_ok {buf : Bytes} (h : checkXL2V1 buf = .ok (rest, major, minor)) :
    ∃ header, header.length = 8 ∧ rest ≠ [] ∧ buf = header ++ rest := by
  unfold checkXL2V1 at h
  split at h
  · cases h
  · split at h
    · cases h
    · have hrest : buf.drop 8 = rest := by
        simp only at h
        split at h
        · cases h
        · exact congrArg (fun r => r.1) (Except.ok.inj h)
      refine ⟨buf.take 8, length_take_of_le (by omega), ?_, ?_⟩
      · rw [← hrest, Ne, drop_eq_nil_iff]
        omega
      · rw [← hrest, take_append_drop]

theorem checkXL2V1_rest {rest' : Bytes} (hlen : header.length = 8)
    (h : checkXL2V1 (header ++ rest) = .ok (rest, major, minor)) (hrest : rest ≠ []) (hrest' : rest' ≠ []) :
    checkXL2V1 (header ++ rest') = .ok (rest', major, minor) := by
  rw [checkXL2V1_append hlen hrest] at h
  rw [checkXL2V1_append hlen hrest']
  cases hcheck : checkXL2V1 (header ++ [0]) with
  | error e =>
    rw [hcheck] at h
    cases h
  | ok r =>
    rw [hcheck] at h
    have hversions := congrArg Prod.snd (Except.ok.inj h)
    simp only [Except.map, Except.ok.injEq, Prod.mk.injEq, true_and]
    exact Prod.ext_iff.mp hversions

def hasCRC (major minor : Nat) : Bool := minor > 1 || major ≥ 2

/-- Without a header that can be read, or without a frame, nothing is trimmed. -/
theorem xlMetaV2TrimData_eq {buf metaBuf : Bytes} (h : checkXL2V1 buf = .ok (metaBuf, major, minor))
    (hversion : ¬ (minor = 1 ∧ major < 1)) :
    xlMetaV2TrimData buf =
      match readFrame (hasCRC major minor) metaBuf with
      | none => buf
      | some (_, rest) => buf.take (buf.length - rest.length) := by
  have hcond : (minor > 1 ∨ major ≥ 2) ↔ hasCRC major minor = true := by simp [hasCRC]
  unfold xlMetaV2TrimData
  rw [h]
  simp only [if_neg hversion, hcond]
  cases hread : readBytes metaBuf with
  | none =>
    have hframe : readFrame (hasCRC major minor) metaBuf = none := by
      simp [readFrame, bind, StateT.bind, hread]
    rw [hframe]
  | some r =>
    obtain ⟨v, rest⟩ := r
    have hframe : readFrame (hasCRC major minor) metaBuf =
        (if hasCRC major minor then (readUint32 rest).map fun r => ((v, some r.1), r.2)
          else some ((v, none), rest)) := by
      simp only [readFrame, bind, StateT.bind, hread, Option.bind_some]
      cases hasCRC major minor with
      | false => rfl
      | true =>
        simp only [if_pos, StateT.bind]
        cases readUint32 rest <;> rfl
    rw [hframe]
    cases hasCRC major minor with
    | false => rfl
    | true => cases hcrc : readUint32 rest <;> simp [hcrc]

/-- The frame of a buffer, with the header before it, is what the trimmed buffer is. -/
theorem trim_of_frame {frame tail : Bytes} {r : Bytes × Option Nat} (hlen : header.length = 8)
    (hframe : ∀ tail, readFrame (hasCRC major minor) (frame ++ tail) = some (r, tail))
    (hversion : ¬ (minor = 1 ∧ major < 1))
    (h : checkXL2V1 (header ++ (frame ++ tail)) = .ok (frame ++ tail, major, minor)) :
    xlMetaV2TrimData (header ++ (frame ++ tail)) = header ++ frame := by
  rw [xlMetaV2TrimData_eq h hversion, hframe]
  simp only [length_append]
  rw [← append_assoc]
  refine take_left' ?_
  rw [length_append]
  omega

theorem frame_ne_nil {withCRC : Bool} {frame : Bytes} {r : Bytes × Option Nat}
    (h : ∀ tail, readFrame withCRC (frame ++ tail) = some (r, tail)) : frame ≠ [] := by
  rintro rfl
  have hnil := h []
  cases hnil

/-- **Trimming twice is trimming once.** -/
theorem trim_trim (buf : Bytes) : xlMetaV2TrimData (xlMetaV2TrimData buf) = xlMetaV2TrimData buf := by
  cases hcheck : checkXL2V1 buf with
  | error e => simp [xlMetaV2TrimData, hcheck]
  | ok r =>
    obtain ⟨metaBuf, major, minor⟩ := r
    by_cases hversion : minor = 1 ∧ major < 1
    · have hsame : xlMetaV2TrimData buf = buf := by
        unfold xlMetaV2TrimData
        rw [hcheck]
        exact if_pos hversion
      rw [hsame, hsame]
    · obtain ⟨header, hlen, hne, rfl⟩ := checkXL2V1_ok hcheck
      cases hread : readFrame (hasCRC major minor) metaBuf with
      | none =>
        have hsame : xlMetaV2TrimData (header ++ metaBuf) = header ++ metaBuf := by
          rw [xlMetaV2TrimData_eq hcheck hversion, hread]
        rw [hsame, hsame]
      | some r =>
        obtain ⟨frame, rfl, hframe⟩ := (Exact.readFrame _).used hread
        rw [trim_of_frame hlen hframe hversion hcheck]
        have hcheck' : checkXL2V1 (header ++ (frame ++ [])) = .ok (frame ++ [], major, minor) :=
          checkXL2V1_rest hlen hcheck hne (by simpa using frame_ne_nil hframe)
        have htrim := trim_of_frame hlen hframe hversion hcheck'
        rwa [append_nil] at htrim

/-! ## Reading back -/

section RoundTrip

variable {V : Type} {c : XLCodec V}

/-- What `AppendTo` adds before the inline data, after the header. -/
def XLCodec.frame (c : XLCodec V) (versions : List V) : Bytes :=
  0xc6 :: beBytes 4 (c.marshal versions).length ++ c.marshal versions ++ appendUint32 (c.crc (c.marshal versions))

variable {z : RawMeta V}

theorem appendTo_eq (hvalid : z.data.validate = .ok ()) (dst : Bytes) : appendTo c z dst =
      .ok (dst ++ (xlHeader ++ xlVersionCurrent ++ (c.frame z.versions ++ z.data.bytes))) := by
  set m := c.marshal z.versions with hm
  set front := dst ++ xlHeader ++ xlVersionCurrent with hfront
  have hput : putUint32Before (front ++ [0xc6, 0, 0, 0, 0] ++ m)
      (front ++ [0xc6, 0, 0, 0, 0]).length m.length = front ++ (0xc6 :: beBytes 4 m.length) ++ m := by
    have hsplit : front ++ [0xc6, 0, 0, 0, 0] ++ m = (front ++ [0xc6]) ++ ([0, 0, 0, 0] ++ m) := by simp
    have hdrop : (front ++ [0xc6, 0, 0, 0, 0] ++ m).drop (front ++ [0xc6, 0, 0, 0, 0]).length = m := drop_left
    have htake : (front ++ [0xc6, 0, 0, 0, 0] ++ m).take
        ((front ++ [0xc6, 0, 0, 0, 0]).length - 4) = front ++ [0xc6] := by
      rw [hsplit]
      exact take_left' (by simp)
    rw [putUint32Before, hdrop, htake]
    simp
  have hsize : (front ++ [0xc6, 0, 0, 0, 0] ++ m).length - (front ++ [0xc6, 0, 0, 0, 0]).length = m.length := by
    rw [length_append]
    omega
  have hversions : (front ++ (0xc6 :: beBytes 4 m.length) ++ m).drop
      (front ++ [0xc6, 0, 0, 0, 0]).length = m := by
    refine drop_left' ?_
    simp
  unfold appendTo
  rw [hvalid]
  simp only [← hm, ← hfront, hsize, hput, hversions]
  simp [XLCodec.frame, hfront, ← hm, bind, Except.bind, pure, Except.pure]

theorem checkXL2V1_current {rest : Bytes} (hrest : rest ≠ []) :
    checkXL2V1 (xlHeader ++ xlVersionCurrent ++ rest) = .ok (rest, 1, 2) :=
  checkXL2V1_append rfl hrest

theorem readFrame_frame {versions : List V} (hsize : (c.marshal versions).length < 2 ^ 32) (tail : Bytes) :
    readFrame true (c.frame versions ++ tail) =
      some ((c.marshal versions, some (c.crc (c.marshal versions))), tail) := by
  have hcrc : c.crc (c.marshal versions) < 2 ^ 32 := Nat.mod_lt _ (by decide)
  rw [XLCodec.frame, append_assoc]
  refine bind_eq_some.mpr ⟨_, _, readBytes_bin32 hsize _, ?_⟩
  exact bind_eq_some.mpr ⟨_, _, readUint32_appendUint32 hcrc tail, rfl⟩

variable {buf : Bytes}

theorem readFrame_eq_some {withCRC : Bool} {v rest : Bytes} {crc : Option Nat} :
    readFrame withCRC buf = some ((v, crc), rest) ↔ ∃ mid, readBytes buf = some (v, mid) ∧
        if withCRC then ∃ n, readUint32 mid = some (n, rest) ∧ crc = some n
        else mid = rest ∧ crc = none := by
  cases withCRC with
  | false =>
    constructor
    · intro h
      obtain ⟨v', mid, hread, hpure⟩ := bind_eq_some.mp h
      cases hpure
      exact ⟨_, hread, rfl, rfl⟩
    · rintro ⟨mid, hread, hmid, hcrc⟩
      rw [← hmid, hcrc]
      exact bind_eq_some.mpr ⟨v, mid, hread, rfl⟩
  | true =>
    constructor
    · intro h
      obtain ⟨v', mid, hread, h⟩ := bind_eq_some.mp h
      obtain ⟨n, rest', hcrc, hpure⟩ := bind_eq_some.mp h
      cases hpure
      exact ⟨mid, hread, n, hcrc, rfl⟩
    · rintro ⟨mid, hread, n, hcrc, rfl⟩
      exact bind_eq_some.mpr ⟨v, mid, hread, bind_eq_some.mpr ⟨n, rest, hcrc, rfl⟩⟩

/-- What `Load` keeps of the inline data. -/
def loadedData (rest : Bytes) : InlineBytes :=
  if (InlineBytes.mk rest).validate = .ok () then ⟨rest⟩ else (InlineBytes.mk rest).repair

/-- `Load` of the versions 1.1 and 1.2, in terms of the frame. -/
theorem loadFramed_eq_ok {minor : Nat} : loadFramed c minor buf = .ok z ↔
      ∃ v crc rest, readFrame (hasCRC 1 minor) buf = some ((v, crc), rest) ∧
        (∀ n, crc = some n → c.crc v = n) ∧ c.unmarshal v = some z.versions ∧
        z.data = loadedData rest := by
  have hcond : minor ≥ 2 ↔ hasCRC 1 minor = true := by simp [hasCRC]; omega
  have hdone : ∀ {v rest : Bytes}, (match c.unmarshal v with
        | none => (.error (.unmarshal minor) : Except FormatError (RawMeta V))
        | some versions => .ok ⟨versions, loadedData rest⟩) = .ok z ↔
      c.unmarshal v = some z.versions ∧ z.data = loadedData rest := by
    intro v rest
    cases c.unmarshal v with
    | none => simp
    | some versions =>
      obtain ⟨vs, data⟩ := z
      simp [eq_comm]
  unfold loadFramed
  simp only [readFrame_eq_some]
  cases hread : readBytes buf with
  | none => simp
  | some r =>
    obtain ⟨v, mid⟩ := r
    simp only [checkCRC, hcond]
    cases hasCRC 1 minor with
    | false =>
      refine Iff.trans hdone ⟨fun h => ⟨v, none, mid, ⟨mid, rfl, rfl, rfl⟩, by simp, h⟩, ?_⟩
      rintro ⟨v', crc, rest, ⟨mid', heq, rfl, rfl⟩, -, h⟩
      cases heq
      exact h
    | true =>
      cases hcrc : readUint32 mid with
      | none =>
        refine iff_of_false (by simp [bind, Except.bind]) ?_
        rintro ⟨v', crc, rest, ⟨mid', heq, n, hn, -⟩, -⟩
        cases heq
        rw [hcrc] at hn
        cases hn
      | some r =>
        obtain ⟨n, rest⟩ := r
        simp only
        by_cases hsum : c.crc v = n
        · rw [if_pos hsum]
          refine Iff.trans hdone ⟨fun h => ⟨v, some n, rest, ⟨mid, rfl, n, hcrc, rfl⟩, ?_, h⟩, ?_⟩
          · rintro _ ⟨⟩
            exact hsum
          · rintro ⟨v', crc, rest', ⟨mid', heq, n', hn, -⟩, -, h⟩
            cases heq
            rw [hcrc] at hn
            cases hn
            exact h
        · rw [if_neg hsum]
          refine iff_of_false (by simp [bind, Except.bind]) ?_
          rintro ⟨v', crc, rest', ⟨mid', heq, n', hn, rfl⟩, hok, -⟩
          cases heq
          rw [hcrc] at hn
          cases hn
          exact hsum (hok n rfl)

theorem load_cases (h : load c buf = .ok z) : ∃ metaBuf minor, checkXL2V1 buf = .ok (metaBuf, 1, minor) ∧
      ((minor = 0 ∧ c.unmarshal metaBuf = some z.versions) ∨
        ((minor = 1 ∨ minor = 2) ∧ loadFramed c minor metaBuf = .ok z)) := by
  unfold load at h
  cases hcheck : checkXL2V1 buf with
  | error e =>
    rw [hcheck] at h
    cases h
  | ok r =>
    obtain ⟨metaBuf, major, minor⟩ := r
    rw [hcheck] at h
    simp only [bind, Except.bind] at h
    split at h
    · rename_i hmajor
      subst hmajor
      refine ⟨metaBuf, minor, rfl, ?_⟩
      split at h
      · rename_i hminor
        split at h
        · cases h
        · rename_i versions hunmarshal
          cases h
          exact .inl ⟨hminor, hunmarshal⟩
      · split at h
        · rename_i hminor
          exact .inr ⟨hminor, h⟩
        · cases h
    · cases h

theorem load_framed {metaBuf : Bytes} {minor : Nat} (hcheck : checkXL2V1 buf = .ok (metaBuf, 1, minor))
    (hminor : minor = 1 ∨ minor = 2) : load c buf = loadFramed c minor metaBuf := by
  have hne : minor ≠ 0 := by omega
  simp [load, hcheck, bind, Except.bind, hne, hminor]

theorem load_trim (h : load c buf = .ok z) :
    ∃ z', load c (xlMetaV2TrimData buf) = .ok z' ∧ z'.versions = z.versions := by
  obtain ⟨metaBuf, minor, hcheck, ⟨rfl, hunmarshal⟩ | ⟨hminor, hload⟩⟩ := load_cases h
  · -- The map of version 1.0 is not a byte string, so that nothing is trimmed.
    obtain ⟨r, hmap⟩ := c.unmarshal_map hunmarshal
    have hframe : readFrame (hasCRC 1 0) metaBuf = none := by
      simp [readFrame, bind, StateT.bind, readBytes_eq_none_of_map hmap]
    have hsame : xlMetaV2TrimData buf = buf := by
      rw [xlMetaV2TrimData_eq hcheck (by omega), hframe]
    rw [hsame]
    exact ⟨z, h, rfl⟩
  · obtain ⟨v, crc, rest, hread, hcrc, hunmarshal, -⟩ := loadFramed_eq_ok.mp hload
    obtain ⟨header, hlen, hne, rfl⟩ := checkXL2V1_ok hcheck
    obtain ⟨frame, rfl, hframe⟩ := (Exact.readFrame _).used hread
    rw [trim_of_frame hlen hframe (by omega) hcheck]
    have hcheck' := checkXL2V1_rest hlen hcheck hne (frame_ne_nil hframe)
    rw [load_framed hcheck' hminor]
    have hframe' := hframe []
    rw [append_nil] at hframe'
    exact ⟨⟨z.versions, loadedData []⟩, loadFramed_eq_ok.mpr ⟨v, crc, [], hframe', hcrc, hunmarshal, rfl⟩, rfl⟩

/-- What `AppendTo` writes is read back, and its trimmed part with it. -/
def ReadsBack (c : XLCodec V) (z : RawMeta V) (dst : Bytes) : Prop :=
  ∃ b, appendTo c z dst = .ok (dst ++ b) ∧ load c b = .ok z ∧ xlMetaV2TrimData b <+: b ∧
    load c (xlMetaV2TrimData b) = .ok ⟨z.versions, ⟨[]⟩⟩

theorem frame_append_ne_nil (versions : List V) (rest : Bytes) : c.frame versions ++ rest ≠ [] := by
  simp [XLCodec.frame]

theorem readsBack_of_fits (hvalid : z.data.validate = .ok ()) (hsize : (c.marshal z.versions).length < 2 ^ 32)
    (dst : Bytes) : ReadsBack c z dst := by
  have hload : ∀ rest : Bytes, load c (xlHeader ++ xlVersionCurrent ++ (c.frame z.versions ++ rest)) =
      .ok ⟨z.versions, loadedData rest⟩ := by
    intro rest
    refine loadFramed_eq_ok.mpr ⟨_, _, rest, readFrame_frame hsize rest, ?_, c.unmarshal_marshal _, rfl⟩
    rintro _ ⟨⟩
    rfl
  have htrim : xlMetaV2TrimData (xlHeader ++ xlVersionCurrent ++ (c.frame z.versions ++ z.data.bytes)) =
      xlHeader ++ xlVersionCurrent ++ c.frame z.versions := by
    have hframe : ∀ tail, readFrame (hasCRC 1 2) (c.frame z.versions ++ tail) = some (_, tail) :=
      readFrame_frame hsize
    exact trim_of_frame rfl hframe (by omega) (checkXL2V1_current (frame_append_ne_nil _ _))
  refine ⟨_, appendTo_eq hvalid dst, ?_, ?_, ?_⟩
  · rw [hload, loadedData, if_pos hvalid]
  · rw [htrim, ← append_assoc]
    exact prefix_append _ _
  · rw [htrim, ← append_nil (c.frame z.versions), hload]
    rfl

/-- A longer list of versions is cut off, and what is left cannot be unmarshaled. -/
theorem fits_of_readsBack (hvalid : z.data.validate = .ok ()) {dst : Bytes} (h : ReadsBack c z dst) :
    (c.marshal z.versions).length < 2 ^ 32 := by
  by_contra hlarge
  obtain ⟨b, happend, hload, -⟩ := h
  rw [appendTo_eq hvalid, Except.ok.injEq, append_cancel_left_eq] at happend
  subst happend
  rw [load_framed (checkXL2V1_current (frame_append_ne_nil _ _)) (.inr rfl)] at hload
  obtain ⟨v, crc, rest, hread, -, hunmarshal, -⟩ := loadFramed_eq_ok.mp hload
  obtain ⟨mid, hbytes, -⟩ := readFrame_eq_some.mp hread
  set m := c.marshal z.versions with hm
  have hcut : m.length % 2 ^ 32 < m.length := by
    omega
  have hv : v = m.take (m.length % 2 ^ 32) := by
    rw [XLCodec.frame, ← hm, append_assoc, append_assoc, readBytes_bin32_cut] at hbytes
    rw [readN, if_pos (by simp only [length_append]; omega), Option.some.injEq, Prod.mk.injEq] at hbytes
    rw [← hbytes.1, take_append_of_le_length hcut.le]
  have hshort : c.unmarshal v = none := by
    refine c.unmarshal_short (hv ▸ List.take_prefix _ _) fun heq => ?_
    have hlen := congrArg List.length (hv.symm.trans heq)
    rw [length_take, ← hm] at hlen
    omega
  rw [hunmarshal] at hshort
  cases hshort

/-- **Writing, reading and trimming agree** exactly when the length of the marshaled versions fits
in 32 bits: what is written is read back, whole and trimmed. Trimming is idempotent and keeps the
versions of every buffer that can be read, in any version of the format. -/
theorem format_agrees_iff_fits (c : XLCodec V) {z : RawMeta V} (hvalid : z.data.validate = .ok ()) :
    ((∀ dst, ReadsBack c z dst) ∧ (∀ buf, xlMetaV2TrimData (xlMetaV2TrimData buf) = xlMetaV2TrimData buf) ∧
      ∀ buf z', load c buf = .ok z' → ∃ z'', load c (xlMetaV2TrimData buf) = .ok z'' ∧ z''.versions = z'.versions) ↔
    (c.marshal z.versions).length < 2 ^ 32 := by
  constructor
  · rintro ⟨hback, -⟩
    exact fits_of_readsBack hvalid (hback [])
  · intro hsize
    exact ⟨readsBack_of_fits hvalid hsize, trim_trim, fun buf z' => load_trim⟩

end RoundTrip

/-- A journal with `n` delete markers and no inline data. -/
def markersOnly (n : Nat) : RawMeta Version := ⟨List.replicate n (.deleteMarker ⟨1, 1, none⟩), ⟨[]⟩⟩

/-- A short journal is read back after any prefix. -/
theorem format_agrees_short :
    (markersOnly 1).data.validate = .ok () ∧ ∀ dst, ReadsBack plainCodec (markersOnly 1) dst :=
  ⟨rfl, ((format_agrees_iff_fits plainCodec rfl).mpr (by decide +kernel)).1⟩

/-- With four gigabytes of versions, the length that is written is cut off. -/
theorem format_disagrees : (markersOnly (2 ^ 32)).data.validate = .ok () ∧
    ¬ ReadsBack plainCodec (markersOnly (2 ^ 32)) [] := by
  have hcount : (markersOnly (2 ^ 32)).versions.length = 2 ^ 32 := length_replicate
  have hlong := length_le_marshal (markersOnly (2 ^ 32)).versions
  rw [hcount] at hlong
  exact ⟨rfl, fun h => absurd (fits_of_readsBack rfl h) (not_lt.mpr hlong)⟩

end Otterio
