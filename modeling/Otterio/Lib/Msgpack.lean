import Otterio.Lib.Go

/-!
# MessagePack headers

Readers and appenders of the MessagePack format, as the `msgp` library has them: a reader takes
what it reads from the front of a buffer and returns the rest, or fails; an appender gives the bytes
that it adds at the end.

* `Exact`: a reader that depends only on the bytes it consumes. The readers below are.
* `read…_append…`: a reader reads back what the appender of its type wrote, whatever follows.

Lengths are written in at most 32 bits: the appenders cut off the higher ones, as the library does.
-/

namespace Otterio

open List

namespace Msgpack

/-- A reader of the front of a buffer. -/
abbrev Reader (α : Type) := StateT Bytes Option α

variable {α β : Type}

/-- The reader depends only on the bytes that it consumes. -/
structure Exact (r : Reader α) : Prop where
  used : ∀ {b rest : Bytes} {a : α}, r b = some (a, rest) →
    ∃ used, b = used ++ rest ∧ ∀ tail, r (used ++ tail) = some (a, tail)

variable {r : Reader α} {f : α → Reader β} {b : Bytes}

theorem bind_eq_some {c : β × Bytes} :
    (r >>= f) b = some c ↔ ∃ a rest, r b = some (a, rest) ∧ f a rest = some c := by
  constructor
  · intro h
    obtain ⟨⟨a, rest⟩, hr, hf⟩ := Option.bind_eq_some_iff.mp h
    exact ⟨a, rest, hr, hf⟩
  · rintro ⟨a, rest, hr, hf⟩
    exact Option.bind_eq_some_iff.mpr ⟨⟨a, rest⟩, hr, hf⟩

theorem Exact.pure (a : α) : Exact (Pure.pure a : Reader α) where
  used h := by
    cases h
    exact ⟨[], rfl, fun _ => rfl⟩

theorem Exact.failure : Exact (failure : Reader α) where
  used h := by cases h

theorem Exact.bind (hr : Exact r) (hf : ∀ a, Exact (f a)) : Exact (r >>= f) where
  used h := by
    obtain ⟨a, mid, hra, hfa⟩ := bind_eq_some.mp h
    obtain ⟨used, rfl, hused⟩ := hr.used hra
    obtain ⟨used', rfl, hused'⟩ := (hf a).used hfa
    refine ⟨used ++ used', (append_assoc _ _ _).symm, fun tail => ?_⟩
    rw [append_assoc]
    exact bind_eq_some.mpr ⟨a, used' ++ tail, hused _, hused' tail⟩

theorem Exact.ite {p : Prop} [Decidable p] {s : Reader α} (hr : Exact r) (hs : Exact s) :
    Exact (if p then r else s) := by
  split
  · exact hr
  · exact hs

def readN (n : Nat) : Reader Bytes := fun b =>
  if n ≤ b.length then some (b.take n, b.drop n) else none

variable {n : Nat} {v : Bytes}

theorem readN_append (h : v.length = n) (rest : Bytes) : readN n (v ++ rest) = some (v, rest) := by
  subst h
  simp [readN]

theorem Exact.readN (n : Nat) : Exact (readN n) where
  used {b} _ _ h := by
    unfold Msgpack.readN at h
    split at h
    · rename_i hle
      cases h
      refine ⟨b.take n, (take_append_drop n b).symm, fun tail => ?_⟩
      exact readN_append (length_take_of_le hle) tail
    · cases h

def readByte : Reader UInt8
  | [] => none
  | b :: rest => some (b, rest)

theorem Exact.readByte : Exact readByte where
  used {b} _ _ h := by
    cases b with
    | nil => cases h
    | cons x b =>
      cases h
      exact ⟨[_], rfl, fun _ => rfl⟩

/-! ## Numbers in big-endian order -/

/-- The lowest `w` bytes of a number, the highest first. -/
def beBytes : Nat → Nat → Bytes
  | 0, _ => []
  | w + 1, n => UInt8.ofNat (n / 256 ^ w) :: beBytes w n

def beNat (b : Bytes) : Nat := b.foldl (fun n x => n * 256 + x.toNat) 0

@[simp] theorem beBytes_length (w n : Nat) : (beBytes w n).length = w := by
  induction w with
  | zero => rfl
  | succ w ih => rw [beBytes, length_cons, ih]

theorem foldl_beBytes (w n m : Nat) :
    (beBytes w n).foldl (fun n x => n * 256 + x.toNat) m = m * 256 ^ w + n % 256 ^ w := by
  induction w generalizing m with
  | zero => simp [beBytes, Nat.mod_one]
  | succ w ih =>
    have hbyte : (UInt8.ofNat (n / 256 ^ w)).toNat = n / 256 ^ w % 256 := by simp
    rw [beBytes, foldl_cons, ih, hbyte, pow_succ, Nat.mod_mul]
    ring

theorem beNat_beBytes (w n : Nat) : beNat (beBytes w n) = n % 256 ^ w := by
  rw [beNat, foldl_beBytes, Nat.zero_mul, Nat.zero_add]

def readBE (w : Nat) : Reader Nat := do
  let v ← readN w
  pure (beNat v)

theorem Exact.readBE (w : Nat) : Exact (readBE w) := .bind (.readN w) fun _ => .pure _

theorem readBE_beBytes_cut (w n : Nat) (rest : Bytes) :
    readBE w (beBytes w n ++ rest) = some (n % 256 ^ w, rest) := by
  refine bind_eq_some.mpr ⟨beBytes w n, rest, readN_append (beBytes_length w n) rest, ?_⟩
  rw [beNat_beBytes]
  rfl

theorem readBE_beBytes {w : Nat} (h : n < 256 ^ w) (rest : Bytes) :
    readBE w (beBytes w n ++ rest) = some (n, rest) := by
  rw [readBE_beBytes_cut, Nat.mod_eq_of_lt h]

/-! ## Byte strings -/

/-- The header of a byte string: `bin 8`, `bin 16` or `bin 32`, and the length. -/
def readBytesHeader : Reader Nat := do
  let lead ← readByte
  if lead = 0xc4 then readBE 1
  else if lead = 0xc5 then readBE 2
  else if lead = 0xc6 then readBE 4
  else failure

def readBytes : Reader Bytes := do
  let n ← readBytesHeader
  readN n

def appendBytes (v : Bytes) : Bytes :=
  (if v.length ≤ 0xff then 0xc4 :: beBytes 1 v.length
    else if v.length ≤ 0xffff then 0xc5 :: beBytes 2 v.length
    else 0xc6 :: beBytes 4 v.length) ++ v

theorem Exact.readBytes : Exact readBytes := by
  refine Exact.bind (Exact.bind Exact.readByte fun lead => ?_) Exact.readN
  exact .ite (.readBE 1) (.ite (.readBE 2) (.ite (.readBE 4) .failure))

theorem readBytes_of_header {hdr rest : Bytes}
    (h : readBytesHeader (hdr ++ (v ++ rest)) = some (v.length, v ++ rest)) :
    readBytes (hdr ++ v ++ rest) = some (v, rest) := by
  rw [append_assoc]
  exact bind_eq_some.mpr ⟨_, _, h, readN_append rfl rest⟩

theorem readBytes_bin32 (h : v.length < 2 ^ 32) (rest : Bytes) :
    readBytes (0xc6 :: beBytes 4 v.length ++ v ++ rest) = some (v, rest) :=
  readBytes_of_header (readBE_beBytes (w := 4) h _)

theorem readBytes_bin32_cut (n : Nat) (rest : Bytes) :
    readBytes (0xc6 :: beBytes 4 n ++ rest) = readN (n % 2 ^ 32) rest := by
  have hlen : readBytesHeader (0xc6 :: beBytes 4 n ++ rest) = some (n % 2 ^ 32, rest) := readBE_beBytes_cut 4 n rest
  simp only [readBytes, bind, StateT.bind, hlen, Option.bind_some]

theorem readBytes_appendBytes (h : v.length < 2 ^ 32) (rest : Bytes) :
    readBytes (appendBytes v ++ rest) = some (v, rest) := by
  refine readBytes_of_header ?_
  split
  · exact readBE_beBytes (w := 1) (by omega) _
  · split
    · exact readBE_beBytes (w := 2) (by omega) _
    · exact readBE_beBytes (w := 4) h _

/-! ## Texts -/

/-- The header of a text: `fixstr`, `str 8`, `str 16` or `str 32`, and the length. -/
def readStringHeader : Reader Nat := do
  let lead ← readByte
  if 0xa0 ≤ lead ∧ lead ≤ 0xbf then pure (lead.toNat - 0xa0)
  else if lead = 0xd9 then readBE 1
  else if lead = 0xda then readBE 2
  else if lead = 0xdb then readBE 4
  else failure

def readString : Reader Bytes := do
  let n ← readStringHeader
  readN n

/-- `ReadMapKeyZC`: a text, or a byte string. Only one of the readers accepts the first byte. -/
def readMapKey : Reader Bytes := fun b => readString b <|> readBytes b

def appendString (s : Bytes) : Bytes :=
  (if s.length ≤ 31 then [UInt8.ofNat (0xa0 + s.length)]
    else if s.length ≤ 0xff then 0xd9 :: beBytes 1 s.length
    else if s.length ≤ 0xffff then 0xda :: beBytes 2 s.length
    else 0xdb :: beBytes 4 s.length) ++ s

theorem readStringHeader_fixstr (h : n ≤ 31) (rest : Bytes) :
    readStringHeader (UInt8.ofNat (0xa0 + n) :: rest) = some (n, rest) := by
  interval_cases n <;> rfl

variable {s : Bytes}

theorem readString_appendString (h : s.length < 2 ^ 32) (rest : Bytes) :
    readString (appendString s ++ rest) = some (s, rest) := by
  rw [appendString, append_assoc]
  refine bind_eq_some.mpr ⟨s.length, s ++ rest, ?_, readN_append rfl rest⟩
  split
  · rename_i hle
    exact readStringHeader_fixstr hle _
  · split
    · exact readBE_beBytes (w := 1) (by omega) _
    · split
      · exact readBE_beBytes (w := 2) (by omega) _
      · exact readBE_beBytes (w := 4) (by omega) _

theorem readMapKey_appendString (h : s.length < 2 ^ 32) (rest : Bytes) :
    readMapKey (appendString s ++ rest) = some (s, rest) := by
  rw [readMapKey, readString_appendString h]
  rfl

/-! ## Maps -/

/-- `ReadMapHeaderBytes`: `fixmap`, `map 16` or `map 32`, and the number of entries. -/
def readMapHeader : Reader Nat := do
  let lead ← readByte
  if 0x80 ≤ lead ∧ lead ≤ 0x8f then pure (lead.toNat - 0x80)
  else if lead = 0xde then readBE 2
  else if lead = 0xdf then readBE 4
  else failure

def appendMapHeader (n : Nat) : Bytes :=
  if n ≤ 15 then [UInt8.ofNat (0x80 + n)]
  else if n ≤ 0xffff then 0xde :: beBytes 2 n
  else 0xdf :: beBytes 4 n

theorem readMapHeader_fixmap (h : n ≤ 15) (rest : Bytes) :
    readMapHeader (UInt8.ofNat (0x80 + n) :: rest) = some (n, rest) := by
  interval_cases n <;> rfl

theorem readMapHeader_appendMapHeader (h : n < 2 ^ 32) (rest : Bytes) :
    readMapHeader (appendMapHeader n ++ rest) = some (n, rest) := by
  unfold appendMapHeader
  split
  · rename_i hle
    exact readMapHeader_fixmap hle rest
  · split
    · exact readBE_beBytes (w := 2) (by omega) rest
    · exact readBE_beBytes (w := 4) (by omega) rest

/-- The first byte tells a map from a byte string. -/
theorem readBytes_eq_none_of_map {r : Nat × Bytes} (h : readMapHeader b = some r) :
    readBytes b = none := by
  cases b with
  | nil => rfl
  | cons lead b =>
    by_contra hne
    obtain ⟨⟨v, rest⟩, hread⟩ := Option.ne_none_iff_exists'.mp hne
    obtain ⟨n, mid, hhead, -⟩ := bind_eq_some.mp hread
    obtain ⟨lead', rest', hlead, hhead⟩ := bind_eq_some.mp hhead
    obtain ⟨lead'', rest'', hlead', hmap⟩ := bind_eq_some.mp h
    cases hlead
    cases hlead'
    by_cases h4 : lead = 0xc4
    · subst h4
      cases hmap
    · by_cases h5 : lead = 0xc5
      · subst h5
        cases hmap
      · by_cases h6 : lead = 0xc6
        · subst h6
          cases hmap
        · rw [if_neg h4, if_neg h5, if_neg h6] at hhead
          cases hhead

/-! ## Numbers -/

/-- A signed number of `w` bytes that is not negative. -/
def readSigned (w : Nat) : Reader Nat := do
  let n ← readBE w
  if n < 256 ^ w / 2 then pure n else failure

def readUint64 : Reader Nat := do
  let lead ← readByte
  if lead < 0x80 then pure lead.toNat
  else if lead = 0xcc then readBE 1
  else if lead = 0xcd then readBE 2
  else if lead = 0xce then readBE 4
  else if lead = 0xcf then readBE 8
  else if lead = 0xd0 then readSigned 1
  else if lead = 0xd1 then readSigned 2
  else if lead = 0xd2 then readSigned 4
  else if lead = 0xd3 then readSigned 8
  else failure

def readUint32 : Reader Nat := do
  let n ← readUint64
  if n < 2 ^ 32 then pure n else failure

def appendUint32 (n : Nat) : Bytes :=
  if n < 0x80 then [UInt8.ofNat n]
  else if n ≤ 0xff then 0xcc :: beBytes 1 n
  else if n ≤ 0xffff then 0xcd :: beBytes 2 n
  else 0xce :: beBytes 4 n

theorem Exact.readSigned (w : Nat) : Exact (readSigned w) :=
  .bind (.readBE w) fun _ => .ite (.pure _) .failure

theorem Exact.readUint32 : Exact readUint32 := by
  refine Exact.bind (Exact.bind Exact.readByte fun lead => ?_) fun n => .ite (.pure n) .failure
  exact .ite (.pure _) <| .ite (.readBE 1) <| .ite (.readBE 2) <| .ite (.readBE 4) <|
    .ite (.readBE 8) <| .ite (.readSigned 1) <| .ite (.readSigned 2) <| .ite (.readSigned 4) <|
    .ite (.readSigned 8) .failure

theorem readUint32_appendUint32 (h : n < 2 ^ 32) (rest : Bytes) :
    readUint32 (appendUint32 n ++ rest) = some (n, rest) := by
  have hread : readUint64 (appendUint32 n ++ rest) = some (n, rest) := by
    unfold appendUint32
    split
    · have hlead : UInt8.ofNat n < 0x80 := by
        rw [UInt8.lt_iff_toNat_lt]
        simp
        omega
      refine bind_eq_some.mpr ⟨UInt8.ofNat n, rest, rfl, ?_⟩
      rw [if_pos hlead]
      have hnat : (UInt8.ofNat n).toNat = n := by
        simp
        omega
      rw [hnat]
      rfl
    · split
      · exact readBE_beBytes (w := 1) (by omega) rest
      · split
        · exact readBE_beBytes (w := 2) (by omega) rest
        · exact readBE_beBytes (w := 4) (by omega) rest
  refine bind_eq_some.mpr ⟨n, rest, hread, ?_⟩
  rw [if_pos h]
  rfl

end Msgpack

end Otterio
