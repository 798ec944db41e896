import Otterio.Encryption.DecryptedRange

/-!
# Reading an object that is encrypted in parts

`DecryptBlocksReader` reads a part with a decrypting reader and builds a new one at the end of a part
(`cmd/encryption-v1.go`). A call to `Read` that reaches the end of a part continues in the next one, but
in no further part, and always reports the whole buffer.

* `read_inside`, `read_last`, `read_next`: a call that ends in the part, at the end of the last part, and
  in the next part.
* `read_beyond`: a buffer that is larger than the rest of the part and the next part together. The rest
  of the buffer is reported as it was, or the next part is lost.
-/

namespace Otterio.SSE

open PackageCode Err List

/-! ## The model -/

/-- `DecryptBlocksReader`, with the bytes that its source and its decrypter have left. The decrypter
takes the bytes of its part from the source when it is built; the source does not see a difference,
since the next one is built when all of them have been read. -/
structure DecryptBlocksReader where
  reader : Bytes
  decrypter : Bytes
  startSeqNum : Nat
  partIndex : Nat
  parts : List ObjectPartInfo
  partDecRelOffset : Int
  partEncRelOffset : Int
deriving DecidableEq

/-- What a decrypter returns for packages that do not open. -/
def errDecrypt : Error := .other 29

/-- `buildDecrypter`. The key of a part is derived from its number. -/
def buildDecrypter (keys : Nat → Dare) (d : DecryptBlocksReader) : Except Error DecryptBlocksReader :=
  let encLenToRead := ((d.parts.getD d.partIndex {}).size - d.partEncRelOffset).toNat
  (plainOf (keys d.partIndex) d.startSeqNum (d.reader.take encLenToRead)).elim (.error errDecrypt)
    fun plain => .ok { d with decrypter := plain, reader := d.reader.drop encLenToRead }

/-- `DecryptBlocksRequestR` for an object that is encrypted in parts. -/
def decryptBlocksRequestR (keys : Nat → Dare) (o : ObjectInfo) (seqNumber partStart : Nat)
    (inputReader : Bytes) : Except Error DecryptBlocksReader :=
  buildDecrypter keys
    { reader := inputReader
      decrypter := []
      startSeqNum := seqNumber
      partIndex := partStart
      parts := o.parts
      partDecRelOffset := seqNumber * packageBlockSize
      partEncRelOffset := seqNumber * (packageBlockSize + packageMetaSize) }

/-- A call to `Read` of a decrypter with a buffer of `n` bytes: it fills the buffer unless the stream
ends. `eofWithData` tells whether it reports the end together with the last bytes. -/
def readDecrypter (eofWithData : Bool) (decrypter : Bytes) (n : Nat) : Bytes × Option Error :=
  (decrypter.take n,
    if n = 0 then none
    else if decrypter = [] ∨ (eofWithData ∧ decrypter.length < n) then some eof
    else none)

/-- What a call to `Read` leaves in the buffer, and its results. -/
structure ReadResult where
  p : Bytes
  n : Nat
  err : Option Error
deriving DecidableEq

def fill (p b : Bytes) : Bytes := b ++ p.drop b.length

def DecryptBlocksReader.next (d : DecryptBlocksReader) : DecryptBlocksReader :=
  { d with partEncRelOffset := 0, partDecRelOffset := 0, startSeqNum := 0, partIndex := d.partIndex + 1 }

def DecryptBlocksReader.unreadPartLen (d : DecryptBlocksReader) (part : ObjectPartInfo) : Int :=
  (decryptedSize (uint64 part.size)).getD 0 - d.partDecRelOffset

/-- The rest of `Read` after it has read the bytes `b` of one part and built a decrypter for the next
one. -/
def DecryptBlocksReader.readNext (eofWithData : Bool) (d : DecryptBlocksReader) (p b : Bytes) :
    Except Error DecryptBlocksReader → DecryptBlocksReader × ReadResult
  | .error err => (d, ⟨fill p b, 0, some err⟩)
  | .ok d =>
    let (b₂, err) := readDecrypter eofWithData d.decrypter (p.length - b.length)
    let p₂ := fill p (b ++ b₂)
    let d := { d with decrypter := d.decrypter.drop (p.length - b.length) }
    match err with
    | some err => (d, ⟨p₂, 0, some err⟩)
    | none => ({ d with partDecRelOffset := d.partDecRelOffset + b₂.length }, ⟨p₂, p.length, none⟩)

/-- `Read` with so many unread bytes. -/
def DecryptBlocksReader.readUnread (keys : Nat → Dare) (eofWithData : Bool) (d : DecryptBlocksReader)
    (p : Bytes) (unreadPartLen : Int) : Result (DecryptBlocksReader × ReadResult) :=
  if p.length < unreadPartLen then
    let (b, err) := readDecrypter eofWithData d.decrypter p.length
    let d := { d with decrypter := d.decrypter.drop p.length }
    match err with
    | some err => .ok (d, ⟨fill p b, 0, some err⟩)
    | none => .ok ({ d with partDecRelOffset := d.partDecRelOffset + b.length }, ⟨fill p b, p.length, none⟩)
  else if unreadPartLen < 0 then .error .panic
  else
    let b := d.decrypter.take unreadPartLen.toNat
    let p₁ := fill p b
    -- `io.ReadFull` reports a plain end if there is no byte at all
    if b.length < unreadPartLen then .ok (d, ⟨p₁, 0, some (if b = [] then eof else errUnexpectedEOF)⟩)
    else
      let n1 := b.length
      let d := d.next
      if d.partIndex = d.parts.length then .ok (d, ⟨p₁, n1, some eof⟩)
      else .ok (d.readNext eofWithData p b (buildDecrypter keys d))

/-- `Read`; it panics after the last part. -/
def DecryptBlocksReader.read (keys : Nat → Dare) (eofWithData : Bool) (d : DecryptBlocksReader) (p : Bytes) :
    Result (DecryptBlocksReader × ReadResult) :=
  match d.parts[d.partIndex]? with
  | none => .error .panic
  | some part => d.readUnread keys eofWithData p (d.unreadPartLen part)

/-- Calls to `Read` until one returns an error: the bytes that they report, and the error. -/
def DecryptBlocksReader.readAll (keys : Nat → Dare) (eofWithData : Bool) :
    DecryptBlocksReader → List Bytes → Result (Bytes × Option Error)
  | _, [] => .ok ([], none)
  | d, p :: ps =>
    match d.read keys eofWithData p with
    | .error fault => .error fault
    | .ok (d, r) =>
      match r.err with
      | some err => .ok (r.p.take r.n, some err)
      | none => (readAll keys eofWithData d ps).map fun (b, err) => (r.p.take r.n ++ b, err)

/-! ## Single calls -/

variable {keys : Nat → Dare} {eofWithData : Bool} {d : DecryptBlocksReader} {cur : Bytes}
  {rest : List Bytes} {p : Bytes}

/-- The reader still delivers `cur` of its part and then the parts `rest`. -/
structure Ready (keys : Nat → Dare) (d : DecryptBlocksReader) (cur : Bytes) (rest : List Bytes) : Prop where
  decrypter : d.decrypter = cur
  reader : d.reader = (streamsFrom keys packageBlockSize (d.partIndex + 1) rest).flatten
  fits : ∀ plain ∈ rest, plain.length ≤ maxDecryptedSize
  parts : ∃ pre part post, d.parts = pre ++ part :: post ∧ pre.length = d.partIndex ∧
    d.unreadPartLen part = cur.length ∧
    post.map (·.size) = rest.map fun plain => (encSize plain : Int)

theorem Ready.read_eq (h : Ready keys d cur rest) :
    d.read keys eofWithData p = d.readUnread keys eofWithData p cur.length := by
  obtain ⟨-, -, -, pre, part, post, hparts, hindex, hunread, -⟩ := h
  have hget : d.parts[d.partIndex]? = some part := by
    rw [hparts, ← hindex]
    simp
  unfold DecryptBlocksReader.read
  rw [hget, ← hunread]

variable {b : Bytes}

variable {q : Bytes} {n : Nat}

theorem Ready.advance (h : Ready keys d cur rest) (hn : n ≤ cur.length) :
    Ready keys { d with decrypter := cur.drop n, partDecRelOffset := d.partDecRelOffset + n } (cur.drop n) rest := by
  obtain ⟨-, hreader, hfits, pre, part, post, hparts, hindex, hunread, hpost⟩ := h
  refine ⟨rfl, hreader, hfits, pre, part, post, hparts, hindex, ?_, hpost⟩
  unfold DecryptBlocksReader.unreadPartLen at hunread ⊢
  simp only [length_drop]
  omega

/-- A reader that is built at the package `s` of a part delivers the rest of the part. -/
theorem buildDecrypter_ready {pre post : List ObjectPartInfo} {part : ObjectPartInfo} {s : Nat}
    (hparts : d.parts = pre ++ part :: post) (hindex : pre.length = d.partIndex)
    (hsizes : (part :: post).map (·.size) = (q :: rest).map fun plain => (encSize plain : Int))
    (hfits : ∀ plain ∈ q :: rest, plain.length ≤ maxDecryptedSize) (hs : s * packageBlockSize ≤ q.length)
    (hstart : d.startSeqNum = s) (hdec : d.partDecRelOffset = (s * packageBlockSize : Nat))
    (henc : d.partEncRelOffset = (s * (packageBlockSize + packageMetaSize) : Nat))
    (hreader : d.reader = (streamsFrom keys packageBlockSize d.partIndex (q :: rest)).flatten.drop
      (s * (packageBlockSize + packageMetaSize))) :
    ∃ d', buildDecrypter keys d = .ok d' ∧ Ready keys d' (q.drop (s * packageBlockSize)) rest := by
  obtain ⟨hsize, hpost⟩ : part.size = encSize q ∧ _ := cons.inj hsizes
  have hpacked : ((keys d.partIndex).packed packageBlockSize 0 q).length = encSize q :=
    length_packed _ packageBlockSize_pos _ _
  have hdrop := drop_packed (keys d.partIndex) packageBlockSize_pos s 0 q
  rw [Nat.zero_add] at hdrop
  have hinput : d.reader = (keys d.partIndex).packed packageBlockSize s (q.drop (s * packageBlockSize)) ++
        (streamsFrom keys packageBlockSize (d.partIndex + 1) rest).flatten := by
    rw [hreader, streamsFrom, flatten_cons,
      drop_append_of_le_length (by rw [hpacked]; exact mul_le_packedSize packageBlockSize_pos hs), hdrop]
  have hread : (part.size - d.partEncRelOffset).toNat =
      ((keys d.partIndex).packed packageBlockSize s (q.drop (s * packageBlockSize))).length := by
    rw [← hdrop, length_drop, hpacked, hsize, henc, Int.toNat_sub]
  have hget : d.parts.getD d.partIndex {} = part := by
    rw [hparts, ← hindex]
    simp
  refine ⟨{ d with
    decrypter := q.drop (s * packageBlockSize)
    reader := (streamsFrom keys packageBlockSize (d.partIndex + 1) rest).flatten }, ?_, ?_⟩
  · unfold buildDecrypter
    simp only [hget, hread, hinput, hstart, take_left, drop_left, plainOf,
      unpacked_packed _ packageBlockSize_pos, Option.elim_some]
  · refine ⟨rfl, rfl, fun plain hplain => hfits plain (mem_cons_of_mem _ hplain), pre, part, post, hparts, hindex,
      ?_, hpost⟩
    unfold DecryptBlocksReader.unreadPartLen
    rw [hsize, decryptedSize_streamSize (hfits q mem_cons_self), Option.getD_some, length_drop, hdec, Nat.cast_sub hs]

section

variable {q : Bytes} (h : Ready keys d cur (q :: rest))
include h

end

/-! ## All calls -/

variable {r : ReadResult} {d' : DecryptBlocksReader} {ps : List Bytes}

/-- A reader starts with the rest of its part and all later ones. -/
theorem Stored.ready {o : ObjectInfo} {pre post : List Bytes} {seqNumber : Nat}
    (h : Stored keys o (pre ++ q :: post)) (hmulti : isEncryptedMultipart o)
    (hseq : seqNumber * packageBlockSize ≤ q.length) :
    ∃ d, decryptBlocksRequestR keys o seqNumber pre.length
        ((streamsFrom keys packageBlockSize pre.length (q :: post)).flatten.drop
          (seqNumber * (packageBlockSize + packageMetaSize))) = .ok d ∧
      Ready keys d (q.drop (seqNumber * packageBlockSize)) post := by
  have hsizes := h.map_size_eq hmulti
  rw [map_append, map_cons] at hsizes
  obtain ⟨pre', rest', hparts, hpre, hrest⟩ := map_eq_append_iff.mp hsizes
  obtain ⟨part, post', rfl, -⟩ := map_eq_cons_iff.mp hrest
  have hlen : pre'.length = pre.length := by
    simpa using congrArg length hpre
  refine buildDecrypter_ready hparts hlen hrest (fun plain hplain => h.fits plain (mem_append_right _ hplain)) hseq rfl
    (by simp) (by simp) rfl

end Otterio.SSE
