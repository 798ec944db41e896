import Otterio.Erasure.Coding
import Otterio.Lib.Schedule
import Otterio.Storage.Quorum

/-!
# Reading the shards of a block in parallel

`parallelReader.Read` starts as many readers as there are data blocks, and another one for each
reader that is missing or fails, until enough shards are there (`cmd/erasure-decode.go`). Every
reader runs in a goroutine of its own and reports on a channel.

The loop and its goroutines are the events of a `ReadState`, in any order:

* `receive`: the loop takes a trigger from the channel.
* `readAt i`: the goroutine of reader `i` reads and stores what it got.
* `send t`: a goroutine sends its trigger, when the channel has room, and ends.

`readShards_of_ready`: if enough readers serve the streams, every schedule ends with enough shards,
and all of them are right.
-/

namespace Otterio

open Err List

/-! ## Readers -/

/-- An `io.ReaderAt` of one stream, by offset and length. Each place is read at most once, so that
a reader that fails at some time only is covered. A read without an error fills the buffer. -/
abbrev ReaderAt := Nat → Nat → Except Error Bytes

/-- A reader, or `nil`. -/
abbrev ShardReader := Option ReaderAt

structure ShardRead where
  reader : Nat
  offset : Nat
  length : Nat
deriving DecidableEq, Repr

/-- `parallelReader`. Its buffers are reused and left out, and so are the readers of the caller,
where failed ones are cleared for the healing of the object. -/
structure ParallelReader where
  readers : List ShardReader
  dataBlocks : Nat
  errs : List (Option Error)
  offset : Int
  shardSize : Int
  shardFileSize : Int
  readerToBuf : List Nat

def newParallelReader (readers : List ShardReader) (e : Erasure) (offset totalLength : Int) : ParallelReader where
  readers := readers
  dataBlocks := e.dataBlocks
  errs := replicate readers.length none
  offset := offset.tdiv e.blockSize * e.shardSize
  shardSize := e.shardSize
  shardFileSize := e.shardFileSize totalLength
  readerToBuf := range readers.length

/-- The loop of `preferReaders`, over the positions from `i` on. -/
def preferLoop : List Bool → Nat → Nat → List ShardReader → List Nat → List ShardReader × List Nat
  | [], _, _, readers, readerToBuf => (readers, readerToBuf)
  | ok :: prefer, i, next, readers, readerToBuf =>
    if !ok || (readers.getD i none).isNone then preferLoop prefer (i + 1) next readers readerToBuf
    else if i = next then preferLoop prefer (i + 1) (next + 1) readers readerToBuf
    else
      preferLoop prefer (i + 1) (next + 1)
        ((readers.set next (readers.getD i none)).set i (readers.getD next none))
        ((readerToBuf.set next i).set i next)

namespace ParallelReader

def preferReaders (p : ParallelReader) (prefer : List Bool) : ParallelReader :=
  if prefer.length ≠ p.readers.length then p
  else
    let (readers, readerToBuf) := preferLoop prefer 0 0 p.readers p.readerToBuf
    { p with readers := readers, readerToBuf := readerToBuf }

end ParallelReader

/-! ## The loop and its goroutines -/

def bufCount (buf : List Bytes) : Nat := buf.countP fun b => !b.isEmpty

structure ReadState where
  readers : List ShardReader
  errs : List (Option Error)
  /-- `readTriggerCh`. -/
  triggers : List Bool
  readerIndex : Nat
  /-- The goroutines that have not read yet. -/
  started : List Nat
  /-- The triggers of the goroutines that have read. -/
  sending : List Bool
  newBuf : List Bytes
  missingPartsHeal : Bool
  bitrotHeal : Bool
  stopped : Bool
  reads : List ShardRead

inductive ReadEvent where
  | receive
  | readAt (i : Nat)
  | send (trigger : Bool)

namespace ParallelReader

variable (p : ParallelReader)

def canDecode (buf : List Bytes) : Bool := bufCount buf ≥ p.dataBlocks

def startRead : ReadState where
  readers := p.readers
  errs := p.errs
  triggers := replicate p.dataBlocks true
  readerIndex := 0
  started := []
  sending := []
  newBuf := replicate p.readers.length []
  missingPartsHeal := false
  bitrotHeal := false
  stopped := false
  reads := []

/-- The events that can happen. A send waits for room in the channel. -/
def enabled (s : ReadState) : List ReadEvent :=
  (if s.stopped || s.triggers.isEmpty then [] else [.receive]) ++ s.started.map .readAt ++
    (if s.triggers.length < p.readers.length then s.sending.map .send else [])

def receive (s : ReadState) : ReadState :=
  match s.triggers with
  | [] => s
  | readTrigger :: triggers =>
    let s := { s with triggers := triggers }
    if p.canDecode s.newBuf || s.readerIndex == p.readers.length then { s with stopped := true }
    else if !readTrigger then s
    else { s with started := s.started ++ [s.readerIndex], readerIndex := s.readerIndex + 1 }

/-- What a goroutine does up to its report. -/
def readAt (s : ReadState) (i : Nat) : ReadState :=
  let s := { s with started := s.started.erase i }
  match s.readers.getD i none with
  | none => { s with sending := true :: s.sending }
  | some rr =>
    let read : ShardRead := ⟨i, p.offset.toNat, p.shardSize.toNat⟩
    let s := { s with reads := s.reads ++ [read] }
    match rr p.offset.toNat p.shardSize.toNat with
    | .error err =>
      { s with
        missingPartsHeal := s.missingPartsHeal || errorsIs (some err) errFileNotFound
        bitrotHeal := s.bitrotHeal || (!errorsIs (some err) errFileNotFound && errorsIs (some err) errFileCorrupt)
        readers := s.readers.set i none
        errs := s.errs.set i (some err)
        sending := true :: s.sending }
    | .ok b => { s with newBuf := s.newBuf.set (p.readerToBuf.getD i i) b, sending := false :: s.sending }

def send (s : ReadState) (trigger : Bool) : ReadState :=
  { s with sending := s.sending.erase trigger, triggers := s.triggers ++ [trigger] }

def step (s : ReadState) : ReadEvent → ReadState
  | .receive => p.receive s
  | .readAt i => p.readAt s i
  | .send trigger => send s trigger

end ParallelReader

/-- What `Read` returns, with the reader after it and the calls of `ReadAt`. -/
structure ReadResult where
  bufs : List Bytes
  err : Option Error
  reader : ParallelReader
  reads : List ShardRead

/-- The end of `Read`, when the loop was left and all goroutines are done. -/
def ParallelReader.finish (o : IterOrder (Option Error × Nat)) (p : ParallelReader) (s : ReadState) : ReadResult :=
  let p := { p with readers := s.readers, errs := s.errs }
  if p.canDecode s.newBuf then
    let err := if s.missingPartsHeal then some errFileNotFound
      else if s.bitrotHeal then some errFileCorrupt else none
    ⟨s.newBuf, err, { p with offset := p.offset + p.shardSize }, s.reads⟩
  else ⟨[], reduceReadQuorumErrs o s.errs objectOpIgnoredErrs p.dataBlocks, p, s.reads⟩

/-- The size of the next shards: those of the last block may be shorter. -/
def ParallelReader.nextSize (p : ParallelReader) : Int :=
  if p.offset + p.shardSize > p.shardFileSize then p.shardFileSize - p.offset else p.shardSize

/-- `Read` with the size of the shards set; `none` stands for a call that panics or never returns.
The fuel is enough for all events. -/
def ParallelReader.readShards (o : IterOrder (Option Error × Nat)) (sched : Nat → Nat)
    (p : ParallelReader) : Option ReadResult :=
  if p.shardSize = 0 then some ⟨replicate p.readers.length [], none, p, []⟩
  -- The triggers do not fit in the channel, or a buffer has a negative size.
  else if p.dataBlocks > p.readers.length ∨ (p.shardSize < 0 ∧ p.readers.any Option.isSome) then none
  else
    match runEvents p.enabled p.step sched (4 * p.readers.length + p.dataBlocks + 1) 0 p.startRead with
    | none => none
    | some s => if s.stopped then some (p.finish o s) else none

/-- `Read`, under a schedule. The buffers `dst` are emptied first and leave nothing behind. -/
def ParallelReader.read (o : IterOrder (Option Error × Nat)) (sched : Nat → Nat)
    (p : ParallelReader) : Option ReadResult :=
  { p with shardSize := p.nextSize }.readShards o sched

/-! ## Readers that serve the streams -/

/-- The readers of the set `good` return what the streams hold; any other reader is `nil`, fails or
does the same. There are at least `d` readers in the set. -/
structure Serves (streams : List Bytes) (readers : List ShardReader) (d : Nat) (good : Nat → Bool) :
    Prop where
  length : readers.length = streams.length
  enough : d ≤ (range streams.length).countP good
  readable : ∀ i, good i = true → ∃ r, readers.getD i none = some r ∧
    ∀ off len, off + len ≤ (streams.getD i []).length → r off len = .ok (((streams.getD i []).drop off).take len)
  sound : ∀ i r, readers.getD i none = some r → ∀ off len, off + len ≤ (streams.getD i []).length →
      (∃ err, r off len = .error err) ∨ r off len = .ok (((streams.getD i []).drop off).take len)

/-- What a call of `Read` starts with: the shards at its offset are in the streams. -/
structure ReadReady (p : ParallelReader) (streams : List Bytes) (good : Nat → Bool) : Prop where
  serves : Serves streams p.readers p.dataBlocks good
  inPlace : p.readerToBuf = range p.readers.length
  data_pos : 0 < p.dataBlocks
  data_le : p.dataBlocks ≤ p.readers.length
  size_pos : 0 < p.shardSize.toNat
  inside : ∀ i < streams.length, p.offset.toNat + p.shardSize.toNat ≤ (streams.getD i []).length

/-- The shard of stream `i` at the offset of the reader. -/
def ParallelReader.shardAt (p : ParallelReader) (streams : List Bytes) (i : Nat) : Bytes :=
  ((streams.getD i []).drop p.offset.toNat).take p.shardSize.toNat

/-- The invariant of a call. A trigger is on its way for each shard that is still missing
(`triggers`), and as long as the loop runs, it will be told of the last one (`signal`). -/
structure ReadInv (p : ParallelReader) (streams : List Bytes) (good : Nat → Bool) (s : ReadState) :
    Prop where
  length_readers : s.readers.length = p.readers.length
  length_newBuf : s.newBuf.length = p.readers.length
  index_le : s.readerIndex ≤ p.readers.length
  started_nodup : s.started.Nodup
  started_lt : ∀ i ∈ s.started, i < s.readerIndex
  readers : ∀ i r, s.readers.getD i none = some r → p.readers.getD i none = some r
  kept : ∀ i, good i = true → s.readers.getD i none = p.readers.getD i none
  right : ∀ i, s.newBuf.getD i [] = [] ∨ s.newBuf.getD i [] = p.shardAt streams i
  fresh : ∀ i, i ∈ s.started ∨ s.readerIndex ≤ i → s.newBuf.getD i [] = []
  filled : ∀ i, good i = true → i < s.readerIndex → i ∉ s.started → s.newBuf.getD i [] = p.shardAt streams i
  room : s.triggers.length + s.started.length + s.sending.length ≤ p.dataBlocks
  triggers : s.stopped = false →
    s.triggers.count true + s.sending.count true + s.started.length + bufCount s.newBuf = p.dataBlocks
  signal : s.stopped = false → bufCount s.newBuf < p.dataBlocks ∨ false ∈ s.triggers ∨ false ∈ s.sending
  enough : s.stopped = true → p.dataBlocks ≤ bufCount s.newBuf ∨ s.readerIndex = p.readers.length
  reads : ∀ r ∈ s.reads, r.offset = p.offset.toNat ∧ r.length = p.shardSize.toNat

def ParallelReader.measure (p : ParallelReader) (s : ReadState) : Nat :=
  4 * (p.readers.length - s.readerIndex) + 3 * s.started.length + 2 * s.sending.length + s.triggers.length

section Loop

variable {p : ParallelReader} {streams : List Bytes} {good : Nat → Bool} {s : ReadState} {i : Nat}

theorem ReadReady.shardAt_ne_nil (hp : ReadReady p streams good) (hi : i < streams.length) :
    p.shardAt streams i ≠ [] := by
  have hinside := hp.inside i hi
  have hsize := hp.size_pos
  intro hnil
  have hlen := congrArg length hnil
  rw [ParallelReader.shardAt, length_take, length_drop, length_nil] at hlen
  omega

theorem readInv_start (hp : ReadReady p streams good) : ReadInv p streams good p.startRead where
  length_readers := rfl
  length_newBuf := length_replicate
  index_le := Nat.zero_le _
  started_nodup := nodup_nil
  started_lt i hi := by cases hi
  readers i r h := h
  kept i _ := rfl
  right i := by
    left
    simp [ParallelReader.startRead]
  fresh i _ := by simp [ParallelReader.startRead]
  filled i _ hi := by simp [ParallelReader.startRead] at hi
  room := by simp [ParallelReader.startRead]
  triggers _ := by simp [ParallelReader.startRead, bufCount]
  signal _ := by
    left
    have hnone : bufCount p.startRead.newBuf = 0 := by simp [ParallelReader.startRead, bufCount]
    have hpos := hp.data_pos
    omega
  enough h := by cases h
  reads r hr := by cases hr

section

variable (h : ReadInv p streams good s)
include h

theorem ReadInv.receive (hrun : s.stopped = false) (htriggers : s.triggers ≠ []) :
    ReadInv p streams good (p.receive s) ∧ p.measure (p.receive s) < p.measure s := by
  unfold ParallelReader.receive
  have hroom := h.room
  have hcount := h.triggers hrun
  have hle := h.index_le
  cases hchan : s.triggers with
  | nil => exact absurd hchan htriggers
  | cons t triggers =>
    rw [hchan, length_cons] at hroom
    rw [hchan] at hcount
    simp only
    split
    · -- The loop is left.
      rename_i hstop
      refine ⟨{ h with room := ?_, triggers := ?_, signal := ?_, enough := ?_ }, ?_⟩
      · simp only
        omega
      · intro hfalse
        cases hfalse
      · intro hfalse
        cases hfalse
      · intro _
        simpa [ParallelReader.canDecode] using hstop
      · simp only [ParallelReader.measure, hchan, length_cons]
        omega
    · rename_i hgo
      have hmissing : bufCount s.newBuf < p.dataBlocks ∧ s.readerIndex ≠ p.readers.length := by
        simpa [ParallelReader.canDecode] using hgo
      cases t with
      | false =>
        refine ⟨{ h with room := ?_, triggers := ?_, signal := ?_ }, ?_⟩
        · simp only [Bool.not_false, if_true]
          omega
        · intro _
          simpa using hcount
        · intro _
          exact .inl hmissing.1
        · simp only [ParallelReader.measure, hchan, length_cons, Bool.not_false, if_true]
          omega
      | true =>
        rw [count_cons_self] at hcount
        have hnew : s.readerIndex ∉ s.started := fun hmem =>
          absurd (h.started_lt _ hmem) (Nat.lt_irrefl _)
        simp only [Bool.not_true, Bool.false_eq_true, if_false]
        refine ⟨{ h with
          index_le := ?_, started_nodup := ?_, started_lt := ?_, fresh := ?_, filled := ?_,
          room := ?_, triggers := ?_, signal := ?_, enough := ?_ }, ?_⟩
        · simp only
          omega
        · simp only [← concat_eq_append, nodup_concat]
          exact ⟨hnew, h.started_nodup⟩
        · intro i hi
          rcases mem_append.mp hi with hi | hi
          · have := h.started_lt i hi
            simp only
            omega
          · rw [mem_singleton.mp hi]
            exact Nat.lt_succ_self _
        · rintro i (hi | hi)
          · rcases mem_append.mp hi with hi | hi
            · exact h.fresh i (.inl hi)
            · exact h.fresh i (.inr (mem_singleton.mp hi).ge)
          · exact h.fresh i (.inr (Nat.le_of_succ_le hi))
        · intro i hgood hi hnot
          simp only [mem_append, mem_singleton, not_or] at hi hnot
          exact h.filled i hgood (by omega) hnot.1
        · simp only [length_append, length_singleton]
          omega
        · intro _
          simp only [length_append, length_singleton]
          omega
        · intro _
          exact .inl hmissing.1
        · intro hfalse
          rw [hrun] at hfalse
          cases hfalse
        · simp only [ParallelReader.measure, hchan, length_cons, length_append, length_nil]
          omega

theorem ReadInv.noShard (hi : i ∈ s.started) (hbad : good i = false) :
    ReadInv p streams good
      { s with started := s.started.erase i, sending := true :: s.sending } := by
  have hlen := length_erase_of_mem hi
  have hpos := length_pos_of_mem hi
  refine { h with
    started_nodup := h.started_nodup.erase i
    started_lt := fun j hj => h.started_lt j (mem_of_mem_erase hj)
    fresh := fun j hj => h.fresh j (hj.imp_left mem_of_mem_erase)
    filled := ?_, room := ?_, triggers := ?_, signal := ?_ }
  · intro j hgood hj hnot
    have hne : j ≠ i := by
      rintro rfl
      rw [hbad] at hgood
      cases hgood
    exact h.filled j hgood hj fun hmem => hnot ((mem_erase_of_ne hne).mpr hmem)
  · have hroom := h.room
    simp only [length_cons, hlen]
    omega
  · intro hrun
    have hcount := h.triggers hrun
    simp only [count_cons_self, hlen]
    omega
  · intro hrun
    exact (h.signal hrun).imp_right (Or.imp_right (mem_cons_of_mem _))

theorem ReadInv.clear (hbad : good i = false) :
    ReadInv p streams good { s with readers := s.readers.set i none } := by
  have hother : ∀ j, j ≠ i → (s.readers.set i none).getD j none = s.readers.getD j none := by
    intro j hne
    rw [getD_eq_getElem?_getD, getElem?_set_ne hne.symm, ← getD_eq_getElem?_getD]
  have hself : (s.readers.set i none).getD i none = none := by
    rw [getD_eq_getElem?_getD, getElem?_set_self']
    cases s.readers[i]? <;> rfl
  refine { h with length_readers := ?_, readers := ?_, kept := ?_ }
  · simp only [length_set]
    exact h.length_readers
  · intro j r hr
    by_cases hji : j = i
    · rw [hji] at hr
      simp only [hself] at hr
      cases hr
    · simp only [hother j hji] at hr
      exact h.readers j r hr
  · intro j hgood
    have hji : j ≠ i := by
      rintro rfl
      rw [hbad] at hgood
      cases hgood
    simp only [hother j hji]
    exact h.kept j hgood

theorem ReadInv.store (hp : ReadReady p streams good) (hi : i ∈ s.started) :
    ReadInv p streams good
      { s with started := s.started.erase i, newBuf := s.newBuf.set i (p.shardAt streams i),
               sending := false :: s.sending } := by
  have hlen := length_erase_of_mem hi
  have hpos := length_pos_of_mem hi
  have hlt : i < s.newBuf.length := by
    rw [h.length_newBuf]
    exact Nat.lt_of_lt_of_le (h.started_lt i hi) h.index_le
  have hother : ∀ j, j ≠ i → (s.newBuf.set i (p.shardAt streams i)).getD j [] = s.newBuf.getD j [] := by
    intro j hne
    rw [getD_eq_getElem?_getD, getElem?_set_ne hne.symm, ← getD_eq_getElem?_getD]
  have hself : (s.newBuf.set i (p.shardAt streams i)).getD i [] = p.shardAt streams i := by
    rw [getD_eq_getElem?_getD, getElem?_set_self hlt]
    rfl
  -- The place was empty, and the shard is not.
  have hcount : bufCount (s.newBuf.set i (p.shardAt streams i)) = bufCount s.newBuf + 1 := by
    have hold : s.newBuf[i] = [] := by
      rw [← getD_eq_getElem _ [] hlt]
      exact h.fresh i (.inl hi)
    have hnew : p.shardAt streams i ≠ [] :=
      hp.shardAt_ne_nil (by rw [← hp.serves.length, ← h.length_newBuf]; exact hlt)
    rw [bufCount, countP_set hlt, hold, bufCount]
    simp [hnew]
  refine { h with
    length_newBuf := ?_
    started_nodup := h.started_nodup.erase i
    started_lt := fun j hj => h.started_lt j (mem_of_mem_erase hj)
    right := ?_, fresh := ?_, filled := ?_, room := ?_, triggers := ?_, signal := ?_, enough := ?_ }
  · simp only [length_set]
    exact h.length_newBuf
  · intro j
    by_cases hji : j = i
    · rw [hji]
      exact .inr hself
    · simp only [hother j hji]
      exact h.right j
  · intro j hj
    have hji : j ≠ i := by
      rintro rfl
      rcases hj with hj | hj
      · exact absurd hj (Nodup.not_mem_erase h.started_nodup)
      · have hlt := h.started_lt j hi
        simp only at hj
        omega
    simp only [hother j hji]
    exact h.fresh j (hj.imp_left mem_of_mem_erase)
  · intro j hgood hj hnot
    by_cases hji : j = i
    · rw [hji]
      exact hself
    · simp only [hother j hji]
      exact h.filled j hgood hj fun hmem => hnot ((mem_erase_of_ne hji).mpr hmem)
  · have hroom := h.room
    simp only [length_cons, hlen]
    omega
  · intro hrun
    have htriggers := h.triggers hrun
    simp only [hcount, hlen, count_cons_of_ne (show false ≠ true by decide)]
    omega
  · intro _
    exact .inr (.inr mem_cons_self)
  · intro hstop
    have henough := h.enough hstop
    simp only [hcount]
    omega

theorem ReadInv.readAt (hp : ReadReady p streams good) (hi : i ∈ s.started) :
    ReadInv p streams good (p.readAt s i) ∧ p.measure (p.readAt s i) < p.measure s := by
  have hlen := length_erase_of_mem hi
  have hpos := length_pos_of_mem hi
  have hlt : i < streams.length := by
    rw [← hp.serves.length]
    exact Nat.lt_of_lt_of_le (h.started_lt i hi) h.index_le
  unfold ParallelReader.readAt
  simp only
  cases hreader : s.readers.getD i none with
  | none =>
    have hbad : good i = false := by
      by_contra hgood
      obtain ⟨r, hr, -⟩ := hp.serves.readable i (Bool.of_not_eq_false hgood)
      rw [← h.kept i (Bool.of_not_eq_false hgood), hreader] at hr
      cases hr
    refine ⟨h.noShard hi hbad, ?_⟩
    simp only [ParallelReader.measure, length_cons, hlen]
    omega
  | some rr =>
    have hread := hp.serves.sound i rr (h.readers i rr hreader) _ _ (hp.inside i hlt)
    have hreads : ∀ r ∈ s.reads ++ [⟨i, p.offset.toNat, p.shardSize.toNat⟩],
        r.offset = p.offset.toNat ∧ r.length = p.shardSize.toNat :=
      forall_mem_append.mpr ⟨h.reads, forall_mem_singleton.mpr ⟨rfl, rfl⟩⟩
    simp only
    cases hresult : rr p.offset.toNat p.shardSize.toNat with
    | error err =>
      have hbad : good i = false := by
        by_contra hgood
        obtain ⟨r, hr, hok⟩ := hp.serves.readable i (Bool.of_not_eq_false hgood)
        rw [h.readers i rr hreader] at hr
        cases hr
        rw [hok _ _ (hp.inside i hlt)] at hresult
        cases hresult
      refine ⟨{ (h.noShard hi hbad).clear hbad with reads := hreads }, ?_⟩
      simp only [ParallelReader.measure, length_cons, hlen]
      omega
    | ok b =>
      have hb : b = p.shardAt streams i := by
        rw [hresult] at hread
        rcases hread with ⟨err, herr⟩ | hok
        · cases herr
        · exact Except.ok.inj hok
      have hplace : p.readerToBuf.getD i i = i := by
        rw [hp.inPlace, getD_eq_getElem _ _ (by simpa [hp.serves.length] using hlt), getElem_range]
      subst hb
      rw [hplace]
      refine ⟨{ h.store hp hi with reads := hreads }, ?_⟩
      simp only [ParallelReader.measure, length_cons, hlen]
      omega

theorem ReadInv.send {t : Bool} (ht : t ∈ s.sending) :
    ReadInv p streams good (ParallelReader.send s t) ∧ p.measure (ParallelReader.send s t) < p.measure s := by
  have hlen := length_erase_of_mem ht
  have hpos := length_pos_of_mem ht
  refine ⟨{ h with room := ?_, triggers := ?_, signal := ?_ }, ?_⟩
  · have hroom := h.room
    simp only [ParallelReader.send, length_append, length_singleton, hlen]
    omega
  · intro hrun
    have hcount := h.triggers hrun
    cases t with
    | true =>
      have hone : 0 < s.sending.count true := count_pos_iff.mpr ht
      simp only [ParallelReader.send, count_append, count_erase_self]
      simp only [count_singleton_self]
      omega
    | false =>
      simp only [ParallelReader.send, count_append, count_erase_of_ne (show true ≠ false by decide)]
      simpa using hcount
  · intro hrun
    obtain hless | htriggers | hsending := h.signal hrun
    · exact .inl hless
    · exact .inr (.inl (mem_append_left _ htriggers))
    · cases t with
      | true => exact .inr (.inr ((mem_erase_of_ne (by decide)).mpr hsending))
      | false => exact .inr (.inl (mem_append_right _ (mem_singleton_self _)))
  · simp only [ParallelReader.measure, ParallelReader.send, length_append, length_singleton, hlen]
    omega

section

variable (hp : ReadReady p streams good)
include hp

theorem ReadInv.step {event : ReadEvent}
    (hevent : event ∈ p.enabled s) :
    ReadInv p streams good (p.step s event) ∧ p.measure (p.step s event) < p.measure s := by
  simp only [ParallelReader.enabled, mem_append] at hevent
  rcases hevent with (hevent | hevent) | hevent
  · split at hevent
    · cases hevent
    · rename_i hopen
      simp only [Bool.or_eq_true, not_or, Bool.not_eq_true, isEmpty_eq_false_iff] at hopen
      rw [mem_singleton.mp hevent]
      exact h.receive hopen.1 hopen.2
  · obtain ⟨i, hi, rfl⟩ := mem_map.mp hevent
    exact h.readAt hp hi
  · split at hevent
    · obtain ⟨t, ht, rfl⟩ := mem_map.mp hevent
      exact h.send ht
    · cases hevent

/-- When no event is left, the loop has ended and all goroutines are done. -/
theorem ReadInv.finished
    (hend : p.enabled s = []) : s.stopped = true ∧ s.started = [] := by
  simp only [ParallelReader.enabled, append_eq_nil_iff, map_eq_nil_iff] at hend
  obtain ⟨⟨hreceive, hstarted⟩, hsend⟩ := hend
  have hroom := h.room
  have hle := hp.data_le
  have hsending : s.sending = [] := by
    by_contra hne
    have hlen := length_pos_of_ne_nil hne
    rw [if_pos (by omega), map_eq_nil_iff] at hsend
    exact hne hsend
  refine ⟨?_, hstarted⟩
  by_contra hrun
  have hrun : s.stopped = false := Bool.of_not_eq_true hrun
  have hempty : s.triggers = [] := by
    by_contra hne
    rw [if_neg (by simp [hrun, hne])] at hreceive
    cases hreceive
  have hcount := h.triggers hrun
  have hsignal := h.signal hrun
  rw [hempty, hsending, hstarted] at hcount
  simp only [hempty, hsending, not_mem_nil, or_false] at hsignal
  simp only [count_nil, length_nil] at hcount
  omega

theorem ReadInv.enough_of_finished
    (hstop : s.stopped = true) (hstarted : s.started = []) : p.dataBlocks ≤ bufCount s.newBuf := by
  rcases h.enough hstop with hcount | hindex
  · exact hcount
  · -- All readers were started: those of the set have returned their shards.
    have hlist : (range streams.length).map (s.newBuf.getD · []) = s.newBuf := by
      rw [← hp.serves.length, ← h.length_newBuf]
      exact map_getD_range s.newBuf []
    refine hp.serves.enough.trans ?_
    rw [bufCount, ← hlist, countP_map]
    apply countP_mono_left
    intro i hi hgood
    have hlt : i < streams.length := mem_range.mp hi
    have hfilled := h.filled i hgood (by rw [hindex, hp.serves.length]; exact hlt)
      (by rw [hstarted]; exact not_mem_nil)
    simp only [Function.comp_apply, hfilled]
    simpa using hp.shardAt_ne_nil hlt

theorem ReadInv.serves :
    Serves streams s.readers p.dataBlocks good where
  length := h.length_readers.trans hp.serves.length
  enough := hp.serves.enough
  readable i hgood := by
    rw [h.kept i hgood]
    exact hp.serves.readable i hgood
  sound i r hr := hp.serves.sound i r (h.readers i r hr)

end

end

end Loop

/-- What a successful call of `Read` leaves: the shards, at least as many as there are data blocks,
and a reader at the next offset. -/
structure ReadOk (p : ParallelReader) (streams : List Bytes) (good : Nat → Bool) (r : ReadResult) :
    Prop where
  length : r.bufs.length = streams.length
  right : ∀ i, r.bufs.getD i [] = [] ∨ r.bufs.getD i [] = p.shardAt streams i
  enough : p.dataBlocks ≤ bufCount r.bufs
  serves : Serves streams r.reader.readers p.dataBlocks good
  reader : r.reader = { p with
    readers := r.reader.readers, errs := r.reader.errs, offset := p.offset + p.shardSize }
  reads : ∀ read ∈ r.reads, read.offset = p.offset.toNat ∧ read.length = p.shardSize.toNat

/-- **Every schedule reads enough shards.** -/
theorem readShards_of_ready (o : IterOrder (Option Error × Nat)) (sched : Nat → Nat)
    {p : ParallelReader} {streams : List Bytes} {good : Nat → Bool} (hp : ReadReady p streams good) :
    ∃ r, p.readShards o sched = some r ∧ ReadOk p streams good r := by
  have hpos := hp.size_pos
  have hle := hp.data_le
  have hrun : ∃ s, runEvents p.enabled p.step sched (4 * p.readers.length + p.dataBlocks + 1) 0
      p.startRead = some s ∧ ReadInv p streams good s ∧ p.enabled s = [] := by
    refine runEvents_of_measure (fun s event h hevent => h.step hp hevent) sched (readInv_start hp) ?_
    simp [ParallelReader.measure, ParallelReader.startRead]
  obtain ⟨s, hs, hinv, hend⟩ := hrun
  obtain ⟨hstop, hstarted⟩ := hinv.finished hp hend
  have henough := hinv.enough_of_finished hp hstop hstarted
  refine ⟨p.finish o s, ?_, ?_⟩
  · unfold ParallelReader.readShards
    rw [if_neg (by omega), if_neg (by omega), hs]
    simp only [hstop, if_true]
  · unfold ParallelReader.finish ParallelReader.canDecode
    simp only [ge_iff_le, henough, decide_true, if_true]
    exact
      { length := hinv.length_newBuf.trans hp.serves.length
        right := hinv.right
        enough := henough
        serves := hinv.serves hp
        reader := rfl
        reads := hinv.reads }

end Otterio
