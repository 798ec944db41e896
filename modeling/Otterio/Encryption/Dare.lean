import Otterio.Lib.Packages
import Otterio.Storage.FileInfo

/-!
# Encrypted objects

An encrypted object is one DARE stream, or one for each part if it has been uploaded in parts
(`cmd/encryption-v1.go`). A stream is a sequence of packages of 64 KiB with 32 bytes of overhead each;
its sequence numbers have 32 bits, so that its plaintext has at most `maxDecryptedSize` bytes.

* `Dare`: the code of a stream. It is that of the library and stands for itself with its laws.
-/

namespace Otterio.SSE

open PackageCode

/-! ## Sizes -/

/-- `SSEDAREPackageBlockSize`. -/
def packageBlockSize : Nat := 64 * 1024

/-- `SSEDAREPackageMetaSize`. -/
def packageMetaSize : Nat := 32

def maxDecryptedSize : Nat := 2 ^ 48

def maxEncryptedSize : Nat := maxDecryptedSize + packageMetaSize * 2 ^ 32

def encryptedSize (size : Nat) : Option Nat :=
  if size > maxDecryptedSize then none else some (packedSize packageBlockSize packageMetaSize size)

def decryptedSize (size : Nat) : Option Nat :=
  if size > maxEncryptedSize then none
  else
    let packages := size / (packageBlockSize + packageMetaSize)
    let remaining := size % (packageBlockSize + packageMetaSize)
    if 0 < remaining ∧ remaining ≤ packageMetaSize then none
    else some (packages * packageBlockSize + (remaining - packageMetaSize))

variable {m : Nat}

theorem packedSize_le (h : m ≤ maxDecryptedSize) :
    packedSize packageBlockSize packageMetaSize m ≤ maxEncryptedSize := by
  unfold packedSize maxEncryptedSize maxDecryptedSize packageBlockSize packageMetaSize at *
  split <;> omega

theorem decryptedSize_packedSize (h : m ≤ maxDecryptedSize) :
    decryptedSize (packedSize packageBlockSize packageMetaSize m) = some m := by
  unfold decryptedSize
  rw [if_neg (not_lt.mpr (packedSize_le h))]
  unfold packedSize packageBlockSize packageMetaSize
  split
  · rw [if_neg (by omega)]
    congr 1
    omega
  · rw [if_neg (by omega)]
    congr 1
    omega

variable {size : Nat}

theorem decryptedSize_le (h : decryptedSize size = some m) : m ≤ maxDecryptedSize := by
  unfold decryptedSize at h
  split at h
  · cases h
  · simp only at h
    split at h
    · cases h
    · cases h
      unfold maxEncryptedSize maxDecryptedSize packageBlockSize packageMetaSize at *
      omega

theorem decryptedSize_pos (h : decryptedSize size = some m) (hpos : 0 < size) : 0 < m := by
  unfold decryptedSize at h
  split at h
  · cases h
  · simp only at h
    split at h
    · cases h
    · cases h
      unfold packageBlockSize packageMetaSize at *
      omega

theorem encryptedSize_eq (h : m ≤ maxDecryptedSize) :
    encryptedSize m = some (packedSize packageBlockSize packageMetaSize m) := if_neg (not_lt.mpr h)

/-! ## Objects -/

/-- `ObjectInfo`, as far as decryption reads it: of the metadata, whether it says that the object is
encrypted (`crypto.IsEncrypted`) and uploaded in parts (`crypto.IsMultiPart`). -/
structure ObjectInfo where
  size : Int
  parts : List ObjectPartInfo
  encrypted : Bool
  multiPart : Bool
  backendErasure : Bool
  etag : Bytes

def uint64 (x : Int) : Nat := (x % 2 ^ 64).toNat

@[simp] theorem uint64_natCast (h : m < 2 ^ 64) : uint64 m = m := by
  unfold uint64
  omega

def isEncryptedMultipart (o : ObjectInfo) : Bool :=
  if o.parts.length = 0 then false
  else if !o.multiPart then false
  else if o.parts.any fun part => (decryptedSize (uint64 part.size)).isNone then false
  else !(o.backendErasure && o.etag.length == 32)

/-- The code of a DARE stream under a key. -/
abbrev Dare := PackageCode UInt8 packageMetaSize

/-- The plaintext of consecutive packages, the first of which has this number. -/
def plainOf (key : Dare) (seqNumber : Nat) (b : Bytes) : Option Bytes := key.unpacked packageBlockSize seqNumber b

def streams (keys : Nat → Dare) (plains : List Bytes) : List Bytes := streamsFrom keys packageBlockSize 0 plains

def storedBytes (keys : Nat → Dare) (plains : List Bytes) : Bytes := (streams keys plains).flatten

/-- An object that is stored as the streams of the given plaintexts: one for each of its parts, or only
one. -/
structure Stored (keys : Nat → Dare) (o : ObjectInfo) (plains : List Bytes) : Prop where
  encrypted : o.encrypted
  fits : ∀ plain ∈ plains, plain.length ≤ maxDecryptedSize
  parts : isEncryptedMultipart o → o.parts.map (·.size) = (streams keys plains).map fun s => (s.length : Int)
  single : ¬ isEncryptedMultipart o → ∃ plain, plains = [plain]
  size : o.size = (storedBytes keys plains).length
  size_le : o.size ≤ maxInt64

/-- The reader of `DecryptBlocksRequestR`, read to its end: part by part, each decrypted up to its
size. -/
def decryptBlocks (keys : Nat → Dare) (o : ObjectInfo) (seqNumber partStart : Nat) (b : Bytes) : Option Bytes :=
  if isEncryptedMultipart o then
    unpackedParts keys packageBlockSize partStart seqNumber
      ((o.parts.drop partStart).map fun part => uint64 part.size) b
  else plainOf (keys 0) seqNumber b

theorem packageBlockSize_pos : 0 < packageBlockSize := by decide

end Otterio.SSE
