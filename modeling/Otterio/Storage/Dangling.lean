import Otterio.Storage.FileInfo

/-!
# Dangling objects

`isObjectDangling` decides from the metadata and the errors of `N` drives whether an object lost too
many of its shards to be read again (`cmd/erasure-healing.go`). A dangling object is deleted, so the
verdict must never fall on an object that can still be recovered.

* `Recoverable C`: the drives that hold the layout class `C` intact, and those whose state is not
  known, are at least as many as the data blocks of `C`.
* `sum_lossReports_le`: a recoverable object has at most as many reported losses as parity blocks,
  when a drive's data error repeats its metadata error, as `disksWithAllParts` makes it.

The verdict compares the losses with the tolerance of the *first* valid entry, whatever class it is
of, and that decides when it is right.
-/

namespace Otterio

open Err List FileInfo

def transitionReferenceKey : String := "x-otterio-internal-transition-reference"

def transitionComplete : String := "complete"

/-- The error says that the file or the version is not on the drive. -/
def isNotFound (err : Option Error) : Bool := isErr err [errFileNotFound, errFileVersionNotFound]

/-- The error says that the metadata is on the drive but corrupted. -/
def isCorrupted (err : Option Error) : Bool := !isNotFound err && errorsIs err errCorruptedFormat

/-- The entry refers to a copy of the object in a remote tier. -/
def FileInfo.isTiered (m : FileInfo) : Bool :=
  m.transitionStatus != "" || m.metadata.getStr transitionReferenceKey != ""

/-- The loop of `isObjectDangling` over the metadata: the valid entry that ends it, or the first
valid entry (`validMeta` when there is none). -/
def scanMeta : List FileInfo → FileInfo → FileInfo ⊕ FileInfo
  | [], validMeta => .inr validMeta
  | m :: metaArr, validMeta =>
    if !m.isValid then scanMeta metaArr validMeta
    else if m.isTiered then .inl m
    else scanMeta metaArr (if !validMeta.isValid then m else validMeta)

/-- `isObjectDangling`: the entry the verdict was taken from, and the verdict. -/
def isObjectDangling (metaArr : List FileInfo) (errs dataErrs : List (Option Error)) : FileInfo × Bool :=
  let notFoundErasureMeta := errs.countP isNotFound
  let corruptedErasureMeta := errs.countP isCorrupted
  let notFoundParts := (errs.zip dataErrs).countP fun e => e.1 != e.2 && isNotFound e.2
  match scanMeta metaArr {} with
  | .inl m => (m, false)
  | .inr validMeta =>
    if validMeta.deleted || validMeta.transitionStatus == transitionComplete then
      (validMeta, corruptedErasureMeta + notFoundErasureMeta > errs.length / 2)
    else if validMeta.erasure.dataBlocks == 0 then (validMeta, true)
    else (validMeta, ((corruptedErasureMeta + notFoundErasureMeta + notFoundParts : Nat) : Int) >
      validMeta.erasure.parityBlocks)

/-! ## What one drive says about the object -/

structure DriveRead where
  fi : FileInfo
  err : Option Error
  dataErr : Option Error

/-- The reads, drive by drive; an empty `dataErrs` stands for no data error on any drive. -/
def driveReads (metaArr : List FileInfo) (errs dataErrs : List (Option Error)) : List DriveRead :=
  List.zipWith (fun e dataErr => ⟨e.1, e.2, dataErr⟩) (metaArr.zip errs)
    (if dataErrs = [] then errs.map fun _ => none else dataErrs)

/-- How often the losses that `isObjectDangling` counts include the drive. -/
def DriveRead.lossReports (r : DriveRead) : Nat :=
  (if isNotFound r.err || isCorrupted r.err then 1 else 0) +
    (if r.err != r.dataErr && isNotFound r.dataErr then 1 else 0)

/-- The drive reports an error that says nothing about the object. -/
def DriveRead.indeterminate (r : DriveRead) : Bool :=
  let err := r.err.or r.dataErr
  err.isSome && !isErr err [errFileNotFound, errFileVersionNotFound, errCorruptedFormat]

/-- The data error of a drive repeats its metadata error, as in `disksWithAllParts`, or is absent. -/
def DriveRead.Follows (r : DriveRead) : Prop := r.err = none ∨ r.dataErr = none ∨ r.dataErr = r.err

instance (r : DriveRead) : Decidable r.Follows := inferInstanceAs (Decidable (_ ∨ _))

/-- A write of the object: its time, its directory and its erasure layout. -/
structure LayoutClass where
  modTime : Time
  dataDir : String
  data : Nat
  parity : Nat
  parity_pos : 1 ≤ parity
  parity_le_data : parity ≤ data

/-- The entry is a valid one of the class, without a transition. -/
def LayoutClass.has (c : LayoutClass) (fi : FileInfo) : Bool :=
  fi.isValid && !fi.deleted && !fi.isTiered && fi.modTime == c.modTime && fi.dataDir == c.dataDir &&
    fi.erasure.dataBlocks == c.data && fi.erasure.parityBlocks == c.parity

def DriveRead.intact (c : LayoutClass) (r : DriveRead) : Bool := r.err.isNone && r.dataErr.isNone && c.has r.fi

/-- Enough drives hold the class, or may hold it, to rebuild the object. -/
structure Recoverable (c : LayoutClass) (metaArr : List FileInfo) (errs dataErrs : List (Option Error)) : Prop where
  metaArr_length : metaArr.length = errs.length
  dataErrs_length : dataErrs = [] ∨ dataErrs.length = errs.length
  drives : c.data + c.parity = errs.length
  enough : c.data ≤ (driveReads metaArr errs dataErrs).countP (DriveRead.intact c) +
    (driveReads metaArr errs dataErrs).countP DriveRead.indeterminate

/-- A drive that follows its metadata error is counted once: as lost, as intact or as unknown. -/
theorem DriveRead.lossReports_add_le (c : LayoutClass) {r : DriveRead} (h : r.Follows) :
    r.lossReports + (if r.intact c then 1 else 0) + (if r.indeterminate then 1 else 0) ≤ 1 := by
  obtain ⟨fi, err, dataErr⟩ := r
  simp only [Follows] at h
  unfold lossReports intact indeterminate isCorrupted isNotFound isErr
  cases err with
  | none => cases dataErr with
    | none => simp; split <;> omega
    | some d => simp; grind
  | some e =>
    obtain h | rfl | rfl := h
    · cases h
    · simp; grind
    · grind

/-- Drives that are each counted once are no more than the drives. -/
private theorem sum_add_countP_le_length {α : Type} {f : α → Nat} {p q : α → Bool} {l : List α}
    (h : ∀ x ∈ l, f x + (if p x then 1 else 0) + (if q x then 1 else 0) ≤ 1) :
    (l.map f).sum + l.countP p + l.countP q ≤ l.length := by
  induction l with
  | nil => simp
  | cons x l ih =>
    have hx := h x mem_cons_self
    have ih := ih fun y hy => h y (mem_cons_of_mem _ hy)
    rw [map_cons, sum_cons, countP_cons, countP_cons, length_cons]
    omega

section

variable {c : LayoutClass} {metaArr : List FileInfo} {errs dataErrs : List (Option Error)}

theorem length_driveReads (hm : metaArr.length = errs.length) (hd : dataErrs = [] ∨ dataErrs.length = errs.length) :
    (driveReads metaArr errs dataErrs).length = errs.length := by
  unfold driveReads
  obtain rfl | hd := hd
  · simp [hm]
  · split <;> simp [hm, hd]

/-- The losses of a recoverable object are within its parity. -/
theorem sum_lossReports_le (h : Recoverable c metaArr errs dataErrs)
    (hf : ∀ r ∈ driveReads metaArr errs dataErrs, r.Follows) :
    ((driveReads metaArr errs dataErrs).map DriveRead.lossReports).sum ≤ c.parity := by
  have honce := sum_add_countP_le_length (f := DriveRead.lossReports) (p := DriveRead.intact c)
    (q := DriveRead.indeterminate) fun r hr => DriveRead.lossReports_add_le c (hf r hr)
  rw [length_driveReads h.metaArr_length h.dataErrs_length] at honce
  have henough := h.enough
  have hdrives := h.drives
  omega

/-! ## The verdict -/

/-- The entries that are skipped or kept leave the first valid entry; a tiered one ends the loop. -/
theorem scanMeta_spec (metaArr : List FileInfo) (validMeta : FileInfo) :
    (∃ m ∈ metaArr, m.isValid = true ∧ m.isTiered = true ∧ scanMeta metaArr validMeta = .inl m) ∨
    ((∀ m ∈ metaArr, m.isValid = true → m.isTiered = false) ∧ scanMeta metaArr validMeta =
        .inr (if validMeta.isValid then validMeta
          else (metaArr.find? isValid).getD validMeta)) := by
  induction metaArr generalizing validMeta with
  | nil => simp [scanMeta]
  | cons m metaArr ih =>
    rw [scanMeta, List.find?_cons]
    cases hv : m.isValid with
    | false =>
      obtain ⟨m', hm', hv', ht', heq⟩ | ⟨hall, heq⟩ := ih validMeta
      · exact .inl ⟨m', mem_cons_of_mem _ hm', hv', ht', heq⟩
      · refine .inr ⟨fun m' hm' hv' => ?_, heq⟩
        obtain rfl | hm' := mem_cons.mp hm'
        · simp [hv] at hv'
        · exact hall m' hm' hv'
    | true =>
      cases ht : m.isTiered with
      | true => exact .inl ⟨m, mem_cons_self, hv, ht, by simp⟩
      | false =>
        obtain ⟨m', hm', hv', ht', heq⟩ | ⟨hall, heq⟩ :=
          ih (if !validMeta.isValid then m else validMeta)
        · exact .inl ⟨m', mem_cons_of_mem _ hm', hv', ht', heq⟩
        · refine .inr ⟨fun m' hm' hv' => ?_, ?_⟩
          · obtain rfl | hm' := mem_cons.mp hm'
            · exact ht
            · exact hall m' hm' hv'
          · rw [heq]
            cases hvm : validMeta.isValid <;> simp [hv, hvm]

/-- The drives that lost the metadata of the object. -/
def metaLosses (errs : List (Option Error)) : Nat :=
  errs.countP fun err => isNotFound err || isCorrupted err

theorem countP_isCorrupted_add (errs : List (Option Error)) :
    errs.countP isCorrupted + errs.countP isNotFound = metaLosses errs := by
  unfold metaLosses
  induction errs with
  | nil => rfl
  | cons err errs ih =>
    have hexcl : isCorrupted err = true → isNotFound err = false := by simp +contextual [isCorrupted]
    grind

private theorem sum_lossReports_zipWith {pads : List (Option Error)}
    (hm : metaArr.length = errs.length) (hp : pads.length = errs.length) :
    ((List.zipWith (fun e dataErr => (⟨e.1, e.2, dataErr⟩ : DriveRead)) (metaArr.zip errs) pads).map
      DriveRead.lossReports).sum =
      metaLosses errs + (errs.zip pads).countP fun e => e.1 != e.2 && isNotFound e.2 := by
  induction errs generalizing metaArr pads with
  | nil => simp [metaLosses]
  | cons err errs ih =>
    obtain ⟨m, metaArr, rfl⟩ := exists_cons_of_length_eq_add_one hm
    obtain ⟨d, pads, rfl⟩ := exists_cons_of_length_eq_add_one hp
    have ih := ih (Nat.succ.inj hm) (Nat.succ.inj hp)
    simp only [zip_cons_cons, zipWith_cons_cons, map_cons, sum_cons,
      countP_cons, metaLosses, DriveRead.lossReports] at ih ⊢
    omega

/-- The counts of `isObjectDangling` are the loss reports of all drives. -/
theorem sum_lossReports_eq (hm : metaArr.length = errs.length) (hd : dataErrs = [] ∨ dataErrs.length = errs.length) :
    ((driveReads metaArr errs dataErrs).map DriveRead.lossReports).sum =
      metaLosses errs + (errs.zip dataErrs).countP fun e => e.1 != e.2 && isNotFound e.2 := by
  unfold driveReads
  obtain rfl | hd := hd
  · rw [if_pos rfl, sum_lossReports_zipWith hm (by simp), zip_nil_right, countP_nil, countP_eq_zero.mpr]
    rintro ⟨err, dataErr⟩ he
    obtain ⟨-, -, rfl⟩ := mem_map.mp (of_mem_zip he).2
    simp [isNotFound, isErr]
  · by_cases hnil : dataErrs = []
    · subst hnil
      rw [eq_nil_of_length_eq_zero hd.symm]
      simp [metaLosses]
    · rw [if_neg hnil, sum_lossReports_zipWith hm hd]

/-- The entry tolerates what the drives report lost: as many losses as its parity or, for a delete
marker, which has no parts, half of the drives. -/
def FileInfo.Tolerates (m : FileInfo) (metaArr : List FileInfo) (errs dataErrs : List (Option Error)) : Prop :=
  if m.deleted then metaLosses errs ≤ errs.length / 2
  else (((driveReads metaArr errs dataErrs).map DriveRead.lossReports).sum : Int) ≤ m.erasure.parityBlocks

/-- The verdict is the one of the first valid entry, unless a valid entry is tiered. -/
theorem isObjectDangling_eq_false_iff_tolerates (hm : metaArr.length = errs.length)
    (hd : dataErrs = [] ∨ dataErrs.length = errs.length) :
    (isObjectDangling metaArr errs dataErrs).2 = false ↔ (∃ m ∈ metaArr, m.isValid = true ∧ m.isTiered = true) ∨
      ∃ m, metaArr.find? isValid = some m ∧ m.Tolerates metaArr errs dataErrs := by
  unfold isObjectDangling
  obtain ⟨m, hmem, hv, ht, hscan⟩ | ⟨hall, hscan⟩ := scanMeta_spec metaArr {}
  · rw [hscan]
    simpa using .inl ⟨m, hmem, hv, ht⟩
  · have hno : ¬ ∃ m ∈ metaArr, m.isValid = true ∧ m.isTiered = true := by
      rintro ⟨m, hmem, hv, ht⟩
      simp [hall m hmem hv] at ht
    rw [hscan, if_neg (by decide), or_iff_right hno]
    cases hfind : metaArr.find? isValid with
    | none => simp [show transitionComplete ≠ "" by decide]
    | some m =>
      have hv : m.isValid = true := List.find?_some hfind
      have hstatus : (m.transitionStatus == transitionComplete) = false := by
        have := hall m (mem_of_find?_eq_some hfind) hv
        simp only [isTiered, Bool.or_eq_false_iff, bne_eq_false_iff_eq] at this
        rw [this.1]
        decide
      simp only [Option.getD_some, hstatus, Bool.or_false, Option.some.injEq, exists_eq_left',
        Tolerates, countP_isCorrupted_add, sum_lossReports_eq hm hd]
      cases hdel : m.deleted with
      | true => simp
      | false =>
        have hlayout := isValid_layout hv hdel
        have hdata : (m.erasure.dataBlocks == 0) = false := by
          rw [beq_eq_false_iff_ne]
          omega
        simp [hdata]

/-- **A recoverable object is not dangling** exactly when one of these holds: a valid entry is
tiered; the first valid entry is of the object's class, and the data errors follow the metadata
errors; the first valid entry tolerates the losses by its own layout. -/
theorem isObjectDangling_eq_false_iff (h : Recoverable c metaArr errs dataErrs) :
    (isObjectDangling metaArr errs dataErrs).2 = false ↔ (∃ m ∈ metaArr, m.isValid = true ∧ m.isTiered = true) ∨
      ∃ m, metaArr.find? isValid = some m ∧
        ((c.has m = true ∧ ∀ r ∈ driveReads metaArr errs dataErrs, r.Follows) ∨
          m.Tolerates metaArr errs dataErrs) := by
  rw [isObjectDangling_eq_false_iff_tolerates h.metaArr_length h.dataErrs_length]
  refine or_congr_right (exists_congr fun m => and_congr_right fun _ => ?_)
  rw [iff_or_self]
  rintro ⟨hclass, hfollows⟩
  have hle := sum_lossReports_le h hfollows
  simp only [LayoutClass.has, Bool.and_eq_true, Bool.not_eq_true', beq_iff_eq] at hclass
  obtain ⟨⟨⟨⟨⟨⟨-, hdel⟩, -⟩, -⟩, -⟩, -⟩, hparity⟩ := hclass
  rw [Tolerates, hdel, if_neg Bool.false_ne_true, hparity]
  exact_mod_cast hle

end

def sixDriveEntry (modTime : Time) (dataDir : String) (data parity index : Int) : FileInfo :=
  { volume := "bucket", name := "object", dataDir := dataDir, modTime := modTime, size := 1, erasure :=
      { algorithm := "ReedSolomon", dataBlocks := data, parityBlocks := parity, blockSize := 1,
        index := index, distribution := [1, 2, 3, 4, 5, 6] } }

/-- The write of the object that is to be kept. -/
def currentClass : LayoutClass := ⟨2, "new", 3, 3, by decide, by decide⟩

/-- The first drive kept a write with one parity block; two drives lost the current one and three
hold it, which is enough for its three data blocks. -/
theorem isObjectDangling_of_stale_first : let metaArr := [sixDriveEntry 1 "old" 5 1 1, sixDriveEntry 2 "new" 3 3 2,
      sixDriveEntry 2 "new" 3 3 3, sixDriveEntry 2 "new" 3 3 4, {}, {}]
    let errs := [none, none, none, none, some errFileNotFound, some errFileNotFound]
    Recoverable currentClass metaArr errs [] ∧ (isObjectDangling metaArr errs []).2 = true :=
  ⟨⟨by decide, by decide, by decide, by decide⟩, by decide⟩

/-- The same drives are judged right when one with the current write comes first. -/
theorem isObjectDangling_of_current_first :
    (isObjectDangling [sixDriveEntry 2 "new" 3 3 1, sixDriveEntry 1 "old" 5 1 2,
      sixDriveEntry 2 "new" 3 3 3, sixDriveEntry 2 "new" 3 3 4, {}, {}]
      [none, none, none, none, some errFileNotFound, some errFileNotFound] []).2 = false :=
  (isObjectDangling_eq_false_iff (c := currentClass)
    ⟨by decide, by decide, by decide, by decide⟩).mpr
    (.inr ⟨sixDriveEntry 2 "new" 3 3 1, rfl, .inl ⟨by decide, by decide⟩⟩)

end Otterio
