import Otterio.Lib.Go

/-!
# Readers that verify digests

`NewReader` and `Read` of `pkg/hash/reader.go` and of `pkg/etag/reader.go`, with `io.LimitReader`.

* `Stream`: a byte source and the readers around it. The source answers each read as it likes, within the
  contract of `io.Reader` (`Source`).
* `newReader`: around a hash reader no new one is made. The declared values are merged into the one that is
  there: into its reference values, but not into the reader that computes the MD5 sum.
* `nest`: calls of `NewReader` around each other, in blocks of calls that are merged.
-/

namespace Otterio.Hash

/-- A digit of `hex.EncodeToString`. -/
def hexDigit (n : Nat) : UInt8 := if n < 10 then UInt8.ofNat (48 + n) else UInt8.ofNat (87 + n)

def encodeToString (bytes : Bytes) : Bytes :=
  bytes.flatMap fun b => [hexDigit (b.toNat / 16), hexDigit (b.toNat % 16)]

def fromHexChar (c : UInt8) : Option UInt8 :=
  if 48 ≤ c ∧ c ≤ 57 then some (c - 48)
  else if 97 ≤ c ∧ c ≤ 102 then some (c - 97 + 10)
  else if 65 ≤ c ∧ c ≤ 70 then some (c - 65 + 10)
  else none

def decodeString : Bytes → Option Bytes
  | [] => some []
  | [_] => none
  | a :: b :: rest =>
    match fromHexChar a, fromHexChar b, decodeString rest with
    | some hi, some lo, some bytes => some ((hi * 16 + lo) :: bytes)
    | _, _, _ => none

/-! ## Readers -/

inductive SourceError where
  | eof
  | other (id : Nat)

/-- A byte source: it answers a read with a buffer of `k` bytes by at most `k` bytes. -/
structure Source (S : Type) where
  read : S → Nat → (Bytes × Option SourceError) × S
  le : ∀ s k, (read s k).1.1.length ≤ k

/-- MD5 and SHA-256. A sum is not empty. -/
structure Digests where
  md5 : Bytes → Bytes
  sha256 : Bytes → Bytes
  md5_ne : ∀ bytes, md5 bytes ≠ []
  sha256_ne : ∀ bytes, sha256 bytes ≠ []

/-- The errors of `Read`: `io.EOF`, `etag.VerifyError`, `BadDigest`, `SHA256Mismatch`, and those of the
source. -/
inductive ReadError where
  | eof
  | verify (expected computed : Bytes)
  | badDigest (expectedMD5 calculatedMD5 : Bytes)
  | sha256Mismatch (expectedSHA256 calculatedSHA256 : Bytes)
  | source (id : Nat)
deriving DecidableEq

def SourceError.toReadError : SourceError → ReadError
  | .eof => .eof
  | .other id => .source id

/-- The fields of a hash reader, except its source. `sha256` is what was written to the running hash. -/
structure Fields where
  bytesRead : Nat
  size : Int
  actualSize : Int
  checksum : Bytes
  contentSHA256 : Bytes
  sha256 : Option Bytes

/-- A reader: the byte source, `io.LimitedReader`, `etag.Reader` with what was written to its hash, a reader
that hides another one (`etag.Wrap`), and `hash.Reader`. -/
inductive Stream (S : Type) where
  | source (s : S)
  | limit (n : Int) (r : Stream S)
  | etag (md5 : Bytes) (checksum : Bytes) (readN : Nat) (src : Stream S)
  | wrap (r : Stream S)
  | hash (fields : Fields) (src : Stream S)

def etagString (e : Bytes) : Bytes :=
  if e.length > 16 ∧ e.contains 45 then encodeToString (e.take 16) ++ e.drop 16 else encodeToString e

/-- The check of `etag.Reader` at the end of its source. -/
def etagError (h : Digests) (checksum written : Bytes) (err : Option ReadError) : Option ReadError :=
  if err = some .eof ∧ checksum ≠ [] ∧ h.md5 written ≠ checksum then some (.verify checksum (h.md5 written))
  else err

/-- The check of `hash.Reader` at the end of its source, and the error of its `etag.Reader`. -/
def hashError (h : Digests) (contentSHA256 : Bytes) (sha256 : Option Bytes) (err : Option ReadError) :
    Option ReadError :=
  match err with
  | some .eof =>
    match sha256 with
    | some written =>
      if contentSHA256 ≠ h.sha256 written then
        some (.sha256Mismatch (encodeToString contentSHA256) (encodeToString (h.sha256 written)))
      else some .eof
    | none => some .eof
  | some (.verify expected computed) => some (.badDigest (etagString expected) (etagString computed))
  | err => err

section Read

variable {S : Type} (h : Digests) (src : Source S)

/-- `Read` with a buffer of `k` bytes. -/
def Stream.read : Stream S → Nat → (Bytes × Option ReadError) × Stream S
  | .source s, k =>
    let r := src.read s k
    ((r.1.1, r.1.2.map SourceError.toReadError), .source r.2)
  | .limit n r, k =>
    if n ≤ 0 then (([], some .eof), .limit n r)
    else
      let r := r.read (if (k : Int) > n then n.toNat else k)
      (r.1, .limit (n - r.1.1.length) r.2)
  | .etag md5 checksum readN r, k =>
    let r := r.read k
    let md5 := md5 ++ r.1.1
    ((r.1.1, etagError h checksum md5 r.1.2), .etag md5 checksum (readN + r.1.1.length) r.2)
  | .wrap r, k =>
    let r := r.read k
    (r.1, .wrap r.2)
  | .hash f r, k =>
    let r := r.read k
    let sha256 := f.sha256.map (· ++ r.1.1)
    ((r.1.1, hashError h f.contentSHA256 sha256 r.1.2),
      .hash { f with bytesRead := f.bytesRead + r.1.1.length, sha256 } r.2)

/-- Reads with buffers of the given sizes, up to the first error: the bytes that were delivered, and the
error. -/
def Stream.run : Stream S → List Nat → Bytes × Option ReadError
  | _, [] => ([], none)
  | st, k :: ks =>
    match st.read h src k with
    | ((out, some e), _) => (out, some e)
    | ((out, none), st) =>
      let r := st.run ks
      (out ++ r.1, r.2)

end Read

/-! ## Making readers -/

inductive NewError where
  | badDigest (expectedMD5 calculatedMD5 : Bytes)
  | sha256Mismatch (expectedSHA256 calculatedSHA256 : Bytes)
  | alreadyRead
  | sizeMismatch (want got : Int)

/-- The arguments of `NewReader`, except the source. -/
structure Call where
  size : Int
  md5Hex : Bytes
  sha256Hex : Bytes
  actualSize : Int

section New

variable {S : Type}

def newETagReader (src : Stream S) (checksum : Bytes) : Stream S :=
  match src with
  | .etag md5 checksum' readN r =>
    if readN = 0 ∧ checksum = checksum' then .etag md5 checksum' readN r
    else .etag [] checksum 0 (.etag md5 checksum' readN r)
  | src => .etag [] checksum 0 src

def merge (f : Fields) (src : Stream S) (call : Call) (md5 sha256 : Bytes) : Except NewError (Stream S) :=
  if f.bytesRead > 0 then .error .alreadyRead
  else if f.checksum ≠ [] ∧ md5 ≠ [] ∧ f.checksum ≠ md5 then
    .error (.badDigest (etagString f.checksum) call.md5Hex)
  else if f.contentSHA256 ≠ [] ∧ sha256 ≠ [] ∧ f.contentSHA256 ≠ sha256 then
    .error (.sha256Mismatch (encodeToString f.contentSHA256) call.sha256Hex)
  else if f.size ≥ 0 ∧ call.size ≥ 0 ∧ f.size ≠ call.size then .error (.sizeMismatch f.size call.size)
  else
    let actualSize := if f.actualSize ≤ 0 ∧ call.actualSize ≥ 0 then call.actualSize else f.actualSize
    if f.size < 0 ∧ call.size ≥ 0 then
      .ok (.hash { f with checksum := md5, contentSHA256 := sha256, size := call.size, actualSize }
        (.wrap (.limit call.size src)))
    else .ok (.hash { f with checksum := md5, contentSHA256 := sha256, actualSize } src)

def newReader (src : Stream S) (call : Call) : Except NewError (Stream S) :=
  match decodeString call.md5Hex with
  | none => .error (.badDigest call.md5Hex [])
  | some md5 =>
    match decodeString call.sha256Hex with
    | none => .error (.sha256Mismatch call.sha256Hex [])
    | some sha256 =>
      match src with
      | .hash f r => merge f r call md5 sha256
      | src =>
        .ok (.hash
          { bytesRead := 0
            size := call.size
            actualSize := call.actualSize
            checksum := md5
            contentSHA256 := sha256
            sha256 := if sha256 ≠ [] then some [] else none }
          (newETagReader (if call.size ≥ 0 then .limit call.size src else src) md5))

/-- A call that makes a reader, and the calls that are merged into it. -/
structure Block where
  first : Call
  merged : List Call

/-- A reader that is not merged into is hidden from the call. -/
def hidden (r : Stream S) : Stream S :=
  match r with
  | .hash f src => .wrap (.hash f src)
  | r => r

def nest : List Block → S → Except NewError (Stream S)
  | [], s => .ok (.source s)
  | b :: inner, s =>
    match nest inner s with
    | .error e => .error e
    | .ok r =>
      match newReader (hidden r) b.first with
      | .error e => .error e
      | .ok r => b.merged.foldlM newReader r

end New

end Otterio.Hash
