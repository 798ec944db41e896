import Otterio.Lib.PrefixCode
import Otterio.XL.Journal

/-!
# Marshaling a list of versions

`XLCodec` is what the format of `xl.meta` needs of the code that is not in this repository's own
files: the generated `MarshalMsg` and `UnmarshalMsg`, and the checksum. `plainCodec` is a codec that
has these properties, with a plain prefix code in the place of the generated one.
-/

namespace Otterio

open Msgpack

/-- The generated `MarshalMsg` and `UnmarshalMsg` of `xlMetaV2`, and `xxhash.Sum64`. -/
structure XLCodec (V : Type) where
  marshal : List V → Bytes
  /-- `UnmarshalMsg`, which leaves alone what follows. -/
  unmarshal : Bytes → Option (List V)
  sum64 : Bytes → Nat
  unmarshal_marshal : ∀ vs, unmarshal (marshal vs) = some vs
  unmarshal_map : ∀ {b vs}, unmarshal b = some vs → ∃ r, readMapHeader b = some r
  unmarshal_short : ∀ {vs part}, part <+: marshal vs → part ≠ marshal vs → unmarshal part = none

/-- `uint32(xxhash.Sum64(v))`. -/
def XLCodec.crc {V : Type} (c : XLCodec V) (v : Bytes) : Nat := c.sum64 v % 2 ^ 32

/-- The header of a map with one entry, and the versions in their code. -/
def plainUnmarshal (V : Type) [Coded V] : Bytes → Option (List V)
  | [] => none
  | b :: rest => if b = 0x81 then (Coded.dec rest).map Prod.fst else none

def prefixCodec (V : Type) [Coded V] : XLCodec V where
  marshal vs := 0x81 :: Coded.enc vs
  unmarshal := plainUnmarshal V
  sum64 := beNat
  unmarshal_marshal vs := by
    have hdec := Coded.dec_enc vs []
    rw [List.append_nil] at hdec
    simp [plainUnmarshal, hdec]
  unmarshal_map {b vs} h := by
    cases b with
    | nil => cases h
    | cons x b =>
      rw [plainUnmarshal] at h
      split at h
      · rename_i hx
        subst hx
        exact ⟨(1, b), rfl⟩
      · cases h
  unmarshal_short {vs part} hpart hne := by
    cases part with
    | nil => rfl
    | cons x part =>
      obtain ⟨rfl, htail⟩ := List.cons_prefix_cons.mp hpart
      have hshort : Coded.dec (α := List V) part = none :=
        Coded.dec_eq_none htail fun heq => hne (heq ▸ rfl)
      simp [plainUnmarshal, hshort]

theorem length_le_marshal {V : Type} [Coded V] (vs : List V) : vs.length ≤ ((prefixCodec V).marshal vs).length := by
  have hlist := Coded.length_le_enc vs
  have hmarshal : (prefixCodec V).marshal vs = 0x81 :: Coded.enc vs := rfl
  rw [hmarshal, List.length_cons]
  omega

/-! ## The code of a version -/

instance : Coded ErasureAlgo :=
  .ofLeftInverse (fun a => a == .reedSolomon) (fun b => if b then .reedSolomon else .invalid)
    fun a => by cases a <;> rfl

instance : Coded ChecksumAlgo :=
  .ofLeftInverse (fun a => a == .highwayHash) (fun b => if b then .highwayHash else .invalid)
    fun a => by cases a <;> rfl

instance : Coded ErasureInfo :=
  .ofLeftInverse
    (fun e => (e.algorithm, e.dataBlocks, e.parityBlocks, e.blockSize, e.index, e.distribution))
    (fun p => ⟨p.1, p.2.1, p.2.2.1, p.2.2.2.1, p.2.2.2.2.1, p.2.2.2.2.2⟩) fun _ => rfl

instance : Coded ObjectPartInfo :=
  .ofLeftInverse (fun p => (p.etag, p.number, p.size, p.actualSize))
    (fun p => ⟨p.1, p.2.1, p.2.2.1, p.2.2.2⟩) fun _ => rfl

instance : Coded DeleteMarker :=
  .ofLeftInverse (fun m => (m.versionID, m.modTime, m.metaSys)) (fun p => ⟨p.1, p.2.1, p.2.2⟩)
    fun _ => rfl

/-- The fields of an object version that describe its shards. -/
abbrev ObjectLayout := UUID × UUID × ErasureAlgo × Int × Int × Int × Int × List UInt8 × ChecksumAlgo

abbrev ObjectContent := List Int × List String × List Int × List Int × Int × Int ×
  GoMap String String × GoMap String String

instance : Coded ObjectV2 :=
  .ofLeftInverse (α := ObjectLayout × ObjectContent)
    (fun o => ((o.versionID, o.dataDir, o.erasureAlgorithm, o.erasureM, o.erasureN,
      o.erasureBlockSize, o.erasureIndex, o.erasureDist, o.bitrotChecksumAlgo),
      (o.partNumbers, o.partETags, o.partSizes, o.partActualSizes, o.size, o.modTime, o.metaSys, o.metaUser)))
    (fun ((v, d, e, m, n, b, i, r, c), (pn, pe, ps, pa, s, t, ms, mu)) =>
      ⟨v, d, e, m, n, b, i, r, c, pn, pe, ps, pa, s, t, ms, mu⟩) fun _ => rfl

instance : Coded ObjectV1 :=
  .ofLeftInverse
    (fun o => (o.version, o.format, o.statSize, o.statModTime, o.erasure, o.metadata, o.parts,
      o.versionID, o.dataDir))
    (fun (v, f, s, t, e, m, p, i, d) => ⟨v, f, s, t, e, m, p, i, d⟩) fun _ => rfl

instance : Coded Version :=
  .ofLeftInverse (α := Option ObjectV2 × Option DeleteMarker × Option ObjectV1)
    (fun
      | .object o => (some o, none, none)
      | .deleteMarker m => (none, some m, none)
      | .legacy o => (none, none, some o)
      | .zero => (none, none, none))
    (fun
      | (some o, _, _) => .object o
      | (_, some m, _) => .deleteMarker m
      | (_, _, some o) => .legacy o
      | _ => .zero)
    fun v => by cases v <;> rfl

def plainCodec : XLCodec Version := prefixCodec Version

end Otterio
