import Otterio.Lib.Frame
import Otterio.Lib.Int64
import Otterio.Object.Names

/-!
# Ranges of a request

`parseRequestRangeSpec` reads a `Range` header and `GetOffsetLength` resolves it against the size of a
resource (`cmd/httprange.go`). One structure stands for the three forms, with negative numbers as
marks: a suffix has its length negated as start, and an end of `-1` is none.

* `ByteRange`: the forms themselves, what a header spells (`Spells`) and what RFC 7233 selects
  (`select`).
* `parseRequestRangeSpec_ok`: what the parser accepts.
* `getOffsetLength_gives`: a parsed range resolves to what is selected, in arithmetic that does not
  overflow.

The sign of the last position is checked on its value only, so that `-0` is taken for `0` and the
header `bytes=0--0` for `bytes=0-0`.
-/

namespace Otterio

open List Calc Option

/-! ## The model -/

/-- The errors of a range; an error that prints something has it as an argument. -/
inductive RangeError where
  /-- `'%s' does not start with 'bytes='` -/
  | noPrefixBytes (rangeString : Bytes)
  /-- `'%s' does not have a valid range value` -/
  | noDelimiter (rangeString : Bytes)
  /-- `Byte position ('%s') must not have a sign` -/
  | sign (position : Bytes)
  /-- `'%s' does not have a valid first byte position value` -/
  | invalidFirst (rangeString : Bytes)
  /-- `'%s' does not have a valid last byte position value` -/
  | invalidLast (rangeString : Bytes)
  /-- `First byte position is negative ('%d')` -/
  | negativeFirst (position : Int)
  /-- `Last byte position is negative ('%d')` -/
  | negativeLast (position : Int)
  /-- `'%s' does not have valid range value` -/
  | noPositions (rangeString : Bytes)
  /-- `Resource size cannot be negative` -/
  | negativeSize
  /-- `Unexpected range specification case` -/
  | unexpectedCase
  | errInvalidRange
deriving DecidableEq, Repr

structure HTTPRangeSpec where
  isSuffixLength : Bool
  start : Int
  end_ : Int
deriving DecidableEq, Repr

/-- `GetLength`; a `nil` receiver stands for no range. -/
def getLength (h : Option HTTPRangeSpec) (resourceSize : Int) : Calc (Except RangeError Int) :=
  if resourceSize < 0 then pure (.error .negativeSize)
  else
    match h with
    | none => pure (.ok resourceSize)
    | some h =>
      if h.isSuffixLength then do
        let specifiedLen ← neg h.start
        pure (.ok (if specifiedLen > resourceSize then resourceSize else specifiedLen))
      else if h.start ≥ resourceSize then pure (.error .errInvalidRange)
      else if h.end_ > -1 then do
        let end_ ← (if resourceSize ≤ h.end_ then sub resourceSize 1 else pure h.end_)
        let length ← sub end_ h.start
        let length ← add length 1
        pure (.ok length)
      else if h.end_ = -1 then do
        let length ← sub resourceSize h.start
        pure (.ok length)
      else pure (.error .unexpectedCase)

def getOffsetLength (h : Option HTTPRangeSpec) (resourceSize : Int) : Calc (Except RangeError (Int × Int)) :=
  match h with
  | none => pure (.ok (0, resourceSize))
  | some h => do
    match ← getLength (some h) resourceSize with
    | .error err => pure (.error err)
    | .ok length =>
      if h.isSuffixLength then do
        let start ← add resourceSize h.start
        pure (.ok (if start < 0 then 0 else start, length))
      else pure (.ok (h.start, length))

def isDigit (c : UInt8) : Bool := 48 ≤ c && c ≤ 57

def ofDecimal (digits : Bytes) : Nat := digits.foldl (fun n c => 10 * n + (c.toNat - 48)) 0

/-- `strconv.ParseUint(s, 10, 64)`, without its error. Its limit is left to `parseInt`, which has a
lower one. -/
def parseUint (s : Bytes) : Option Nat := if s ≠ [] ∧ s.all isDigit then some (ofDecimal s) else none

/-- `strconv.ParseInt(s, 10, 64)`, without its error. -/
def parseInt (s : Bytes) : Option Int :=
  match s with
  | 45 :: s => (parseUint s).bind fun un => if un > 2 ^ 63 then none else some (-(un : Int))
  | 43 :: s => (parseUint s).bind fun un => if un ≥ 2 ^ 63 then none else some un
  | s => (parseUint s).bind fun un => if un ≥ 2 ^ 63 then none else some un

/-- The conversion of a byte position: one that is empty is -1. -/
def parsePosition (position : Bytes) (invalid : RangeError) (negative : Int → RangeError) : Except RangeError Int :=
  if position.length > 0 then
    if position.head? = some 43 then .error (.sign position)
    else
      match parseInt position with
      | none => .error invalid
      | some offset => if offset < 0 then .error (negative offset) else .ok offset
  else .ok (-1)

/-- `byteRangePrefix`. -/
def byteRangeStart : Bytes := ascii "bytes="

def rangeOfPositions (rangeString : Bytes) (offsetBegin offsetEnd : Int) : Calc (Except RangeError HTTPRangeSpec) :=
  if offsetBegin > -1 ∧ offsetEnd > -1 then
    if offsetBegin > offsetEnd then pure (.error .errInvalidRange)
    else pure (.ok ⟨false, offsetBegin, offsetEnd⟩)
  else if offsetBegin > -1 then pure (.ok ⟨false, offsetBegin, -1⟩)
  else if offsetEnd > -1 then
    if offsetEnd = 0 then pure (.error .errInvalidRange)
    else do
      let start ← neg offsetEnd
      pure (.ok ⟨true, start, -1⟩)
  else pure (.error (.noPositions rangeString))

def parseRequestRangeSpec (rangeString : Bytes) : Calc (Except RangeError HTTPRangeSpec) :=
  if ¬ byteRangeStart <+: rangeString then pure (.error (.noPrefixBytes rangeString))
  else
    let byteRangeString := rangeString.drop byteRangeStart.length
    let offsetBeginString := byteRangeString.takeWhile (· ≠ 45)
    match byteRangeString.dropWhile (· ≠ 45) with
    | [] => pure (.error (.noDelimiter rangeString))
    | _ :: offsetEndString =>
      match parsePosition offsetBeginString (.invalidFirst rangeString) .negativeFirst with
      | .error err => pure (.error err)
      | .ok offsetBegin =>
        match parsePosition offsetEndString (.invalidLast rangeString) .negativeLast with
        | .error err => pure (.error err)
        | .ok offsetEnd => rangeOfPositions rangeString offsetBegin offsetEnd

/-! ## What a header means -/

/-- The unsigned decimal digits of a number that fits `int64`. -/
def IsPosition (digits : Bytes) (n : Nat) : Prop :=
  digits ≠ [] ∧ (∀ c ∈ digits, isDigit c) ∧ ofDecimal digits = n ∧ (n : Int) ≤ maxInt64

inductive ByteRange where
  | interval (first last : Nat)
  | onwards (first : Nat)
  | suffix (length : Nat)
deriving DecidableEq, Repr

inductive Spells : Bytes → ByteRange → Prop where
  | interval {a b : Bytes} {first last : Nat} (ha : IsPosition a first) (hb : IsPosition b last)
      (h : first ≤ last) : Spells (ascii "bytes=" ++ (a ++ ascii "-" ++ b)) (.interval first last)
  | onwards {a : Bytes} {first : Nat} (ha : IsPosition a first) :
      Spells (ascii "bytes=" ++ (a ++ ascii "-")) (.onwards first)
  | suffix {b : Bytes} {length : Nat} (hb : IsPosition b length) (h : 1 ≤ length) :
      Spells (ascii "bytes=" ++ (ascii "-" ++ b)) (.suffix length)

/-- Offset and length that RFC 7233 selects of a resource, unless the range is not satisfiable: the
positions are inclusive and clipped to the size, and a suffix is the last bytes. -/
def ByteRange.select (size : Nat) : ByteRange → Option (Nat × Nat)
  | .interval first last => if first < size then some (first, min last (size - 1) + 1 - first) else none
  | .onwards first => if first < size then some (first, size - first) else none
  | .suffix length => some (size - min length size, min length size)

variable {r : ByteRange} {size : Nat}

theorem ByteRange.select_le {off len : Nat} (h : r.select size = some (off, len)) : off + len ≤ size := by
  cases r with
  | interval first last | onwards first =>
    simp only [select] at h
    split at h
    · cases h
      omega
    · cases h
  | suffix length =>
    cases h
    omega

def ByteRange.spec : ByteRange → HTTPRangeSpec
  | .interval first last => ⟨false, first, last⟩
  | .onwards first => ⟨false, first, -1⟩
  | .suffix length => ⟨true, -length, -1⟩

/-! ## Positions -/

variable {digits : Bytes} {n : Nat}

theorem IsPosition.not_mem (h : IsPosition digits n) {c : UInt8} (hc : isDigit c = false) :
    c ∉ digits := fun hmem => by
  have hdigit := h.2.1 c hmem
  rw [hc] at hdigit
  cases hdigit

variable {s : Bytes}

theorem parseUint_eq_some : parseUint s = some n ↔ s ≠ [] ∧ (∀ c ∈ s, isDigit c) ∧ ofDecimal s = n := by
  unfold parseUint
  split
  · rename_i h
    rw [some_inj]
    exact ⟨fun hn => ⟨h.1, all_eq_true.mp h.2, hn⟩, fun hn => hn.2.2⟩
  · rename_i h
    refine ⟨fun hn => (nomatch hn), fun hn => absurd ⟨hn.1, all_eq_true.mpr hn.2.1⟩ h⟩

variable {v : Int}

theorem parseInt_digits (hs : s.head? ≠ some 45) (hs' : s.head? ≠ some 43) :
    parseInt s = some v ↔ ∃ n : Nat, IsPosition s n ∧ v = n := by
  have hparse : parseInt s = (parseUint s).bind fun un => if un ≥ 2 ^ 63 then none else some (un : Int) := by
    unfold parseInt
    split
    · exact absurd rfl hs
    · exact absurd rfl hs'
    · rfl
  rw [hparse, bind_eq_some_iff]
  constructor
  · rintro ⟨n, hn, hv⟩
    obtain ⟨hne, hdigits, hdec⟩ := parseUint_eq_some.mp hn
    split at hv
    · cases hv
    · refine ⟨n, ⟨hne, hdigits, hdec, ?_⟩, (some.inj hv).symm⟩
      unfold maxInt64
      omega
  · rintro ⟨n, ⟨hne, hdigits, hdec, hmax⟩, rfl⟩
    refine ⟨n, parseUint_eq_some.mpr ⟨hne, hdigits, hdec⟩, if_neg ?_⟩
    unfold maxInt64 at hmax
    omega

/-- After a minus sign, only a zero is not negative. -/
theorem parseInt_minus {zeros : Bytes} (hv : 0 ≤ v) :
    parseInt (45 :: zeros) = some v ↔ IsPosition zeros 0 ∧ v = 0 := by
  simp only [parseInt]
  rw [bind_eq_some_iff]
  constructor
  · rintro ⟨n, hn, hneg⟩
    obtain ⟨hne, hdigits, hdec⟩ := parseUint_eq_some.mp hn
    split at hneg
    · cases hneg
    · have hneg' := some.inj hneg
      obtain rfl : n = 0 := by omega
      exact ⟨⟨hne, hdigits, hdec, by decide⟩, hneg'.symm⟩
  · rintro ⟨⟨hne, hdigits, hdec, -⟩, rfl⟩
    exact ⟨0, parseUint_eq_some.mpr ⟨hne, hdigits, hdec⟩, rfl⟩

theorem IsPosition.head?_ne (h : IsPosition digits n) {c : UInt8} (hc : isDigit c = false) :
    digits.head? ≠ some c := fun hhead =>
  h.not_mem hc (mem_of_mem_head? hhead)

/-- What is taken for a byte position: nothing, digits, or zeros after a minus sign. -/
theorem parsePosition_eq_ok {invalid : RangeError} {negative : Int → RangeError} :
    parsePosition s invalid negative = .ok v ↔ (s = [] ∧ v = -1) ∨ (∃ n : Nat, IsPosition s n ∧ v = n) ∨
        ∃ zeros, s = 45 :: zeros ∧ IsPosition zeros 0 ∧ v = 0 := by
  unfold parsePosition
  cases s with
  | nil =>
    rw [if_neg (by decide), Except.ok.injEq]
    refine ⟨fun h => .inl ⟨rfl, h.symm⟩, ?_⟩
    rintro (⟨-, hv⟩ | ⟨n, hn, -⟩ | ⟨zeros, hzeros, -⟩)
    · exact hv.symm
    · exact absurd rfl hn.1
    · cases hzeros
  | cons c s =>
    rw [if_pos (show (c :: s).length > 0 from Nat.succ_pos _),
      or_iff_right (show ¬ (c :: s = [] ∧ v = -1) from fun h => cons_ne_nil _ _ h.1)]
    have hparse : ∀ o : Option Int, (match o with
          | none => Except.error invalid
          | some offset => if offset < 0 then .error (negative offset) else .ok offset) = .ok v ↔
        o = some v ∧ 0 ≤ v := by
      rintro (_ | offset)
      · exact ⟨fun h => (nomatch h), fun h => (nomatch h.1)⟩
      · simp only
        split
        · refine ⟨fun h => (nomatch h), fun h => ?_⟩
          obtain rfl := some.inj h.1
          omega
        · rw [Except.ok.injEq, some_inj]
          exact ⟨fun h => ⟨h, by omega⟩, fun h => h.1⟩
    by_cases hplus : c = 43
    · subst hplus
      refine ⟨fun h => (nomatch h), ?_⟩
      rintro (⟨n, hn, -⟩ | ⟨zeros, hzeros, -⟩)
      · exact absurd rfl (hn.head?_ne (by decide))
      · cases hzeros
    · rw [if_neg (by simpa using hplus), hparse]
      by_cases hminus : c = 45
      · subst hminus
        constructor
        · rintro ⟨hv, hpos⟩
          obtain ⟨hzeros, hv⟩ := (parseInt_minus hpos).mp hv
          exact .inr ⟨s, rfl, hzeros, hv⟩
        · rintro (⟨n, hn, -⟩ | ⟨zeros, hzeros, hpos, rfl⟩)
          · exact absurd rfl (hn.head?_ne (by decide))
          · cases hzeros
            exact ⟨(parseInt_minus (le_refl 0)).mpr ⟨hpos, rfl⟩, le_refl 0⟩
      · rw [parseInt_digits (by simpa using hminus) (by simpa using hplus)]
        constructor
        · rintro ⟨hn, -⟩
          exact .inl hn
        · rintro (⟨n, hn, rfl⟩ | ⟨zeros, hzeros, -⟩)
          · exact ⟨⟨n, hn, rfl⟩, Int.natCast_nonneg n⟩
          · cases hzeros
            exact absurd rfl hminus

/-! ## The parser -/

/-- The header is split at its first minus sign. -/
theorem parseRequestRangeSpec_split {a b : Bytes} (ha : 45 ∉ a) : let s := ascii "bytes=" ++ (a ++ 45 :: b)
    parseRequestRangeSpec s =
      match parsePosition a (.invalidFirst s) .negativeFirst with
      | .error err => pure (.error err)
      | .ok offsetBegin =>
        match parsePosition b (.invalidLast s) .negativeLast with
        | .error err => pure (.error err)
        | .ok offsetEnd => rangeOfPositions s offsetBegin offsetEnd := by
  intro s
  have hrest : s.drop byteRangeStart.length = a ++ 45 :: b := drop_left
  have hall : ∀ c ∈ a, decide (c ≠ 45) = true := fun c hc => decide_eq_true (ne_of_mem_of_not_mem hc ha)
  have hbegin : (a ++ 45 :: b).takeWhile (· ≠ 45) = a := by
    rw [takeWhile_append_of_pos hall, takeWhile_cons_of_neg (by decide), append_nil]
  have hend : (a ++ 45 :: b).dropWhile (· ≠ 45) = 45 :: b := by
    rw [dropWhile_append_of_pos hall, dropWhile_cons_of_neg (by decide)]
  unfold parseRequestRangeSpec
  rw [if_neg (not_not.mpr (show byteRangeStart <+: s from prefix_append _ _))]
  simp only [hrest, hbegin, hend]

theorem parseRequestRangeSpec_no_split (h : ∀ a b, 45 ∉ a → s ≠ ascii "bytes=" ++ (a ++ 45 :: b)) :
    ∃ err, parseRequestRangeSpec s = pure (.error err) := by
  unfold parseRequestRangeSpec
  split
  · exact ⟨_, rfl⟩
  · rename_i hstart
    obtain ⟨rest, rfl⟩ := not_not.mp hstart
    have hrest : (byteRangeStart ++ rest).drop byteRangeStart.length = rest := drop_left
    simp only [hrest]
    have hsplit : rest.takeWhile (fun c => decide (c ≠ 45)) ++ rest.dropWhile (fun c => decide (c ≠ 45)) =
        rest := takeWhile_append_dropWhile
    have hhead := List.head?_dropWhile_not (fun c : UInt8 => decide (c ≠ 45)) rest
    cases hend : rest.dropWhile (fun c => decide (c ≠ 45)) with
    | nil => exact ⟨_, rfl⟩
    | cons c b =>
      rw [hend] at hhead hsplit
      obtain rfl : c = 45 := by simpa using hhead
      refine absurd ?_ (h (rest.takeWhile (· ≠ 45)) b ?_)
      · rw [hsplit]
        rfl
      · intro hmem
        exact absurd (mem_takeWhile_imp hmem) (by decide)

theorem IsPosition.inInt64_neg (h : IsPosition digits n) : InInt64 (-(n : Int)) := by
  have hmax := h.2.2.2
  unfold InInt64 maxInt64 at *
  omega

theorem Spells.parseRequestRangeSpec_gives (h : Spells s r) : (parseRequestRangeSpec s).Gives (.ok r.spec) := by
  cases h with
  | @interval a b first last ha hb h =>
    rw [append_assoc, show ascii "-" ++ b = 45 :: b from rfl, parseRequestRangeSpec_split (ha.not_mem (by decide)),
      parsePosition_eq_ok.mpr (.inr (.inl ⟨first, ha, rfl⟩)),
      parsePosition_eq_ok.mpr (.inr (.inl ⟨last, hb, rfl⟩))]
    simp only [rangeOfPositions]
    rw [if_pos (by omega), if_neg (by omega)]
    exact gives_pure _
  | @onwards a first ha =>
    rw [show ascii "-" = [45] from rfl, parseRequestRangeSpec_split (ha.not_mem (by decide)),
      parsePosition_eq_ok.mpr (.inr (.inl ⟨first, ha, rfl⟩)), parsePosition_eq_ok.mpr (.inl ⟨rfl, rfl⟩)]
    exact gives_pure _
  | @suffix b length hb h =>
    rw [show ascii "-" ++ b = [] ++ 45 :: b from rfl, parseRequestRangeSpec_split (by simp),
      parsePosition_eq_ok.mpr (.inl ⟨rfl, rfl⟩), parsePosition_eq_ok.mpr (.inr (.inl ⟨length, hb, rfl⟩))]
    simp only [rangeOfPositions]
    rw [if_neg (by omega), if_neg (by omega), if_pos (by omega), if_neg (by omega)]
    exact (gives_neg hb.inInt64_neg).bind (gives_pure _)

/-- The header `bytes=0--0` with any number of zeros on both sides. -/
def MinusZero (s : Bytes) : Prop :=
  ∃ a b, IsPosition a 0 ∧ IsPosition b 0 ∧ s = ascii "bytes=" ++ (a ++ ascii "--" ++ b)

/-- A minus zero is taken for a zero. -/
theorem MinusZero.parseRequestRangeSpec_eq (h : MinusZero s) :
    parseRequestRangeSpec s = pure (.ok ⟨false, 0, 0⟩) := by
  obtain ⟨a, b, ha, hb, rfl⟩ := h
  rw [append_assoc, show ascii "--" ++ b = 45 :: 45 :: b from rfl,
    parseRequestRangeSpec_split (ha.not_mem (by decide)),
    parsePosition_eq_ok.mpr (.inr (.inl ⟨0, ha, rfl⟩)),
    parsePosition_eq_ok.mpr (.inr (.inr ⟨b, rfl, hb, rfl⟩))]
  rfl

theorem MinusZero.not_spells (h : MinusZero s) (r : ByteRange) : ¬ Spells s r := by
  obtain ⟨a, b, ha, hb, rfl⟩ := h
  -- what follows the first minus sign is neither empty nor digits
  have hsplit : ∀ {a' b' : Bytes}, 45 ∉ a' →
      ascii "bytes=" ++ (a ++ ascii "--" ++ b) = ascii "bytes=" ++ (a' ++ 45 :: b') → b' = 45 :: b := by
    intro a' b' ha' heq
    rw [append_assoc] at heq
    have hrest := (append_inj_of_all (p := (· ≠ 45))
      (fun _ hc => ne_of_mem_of_not_mem hc (ha.not_mem (by decide))) (fun _ hc => ne_of_mem_of_not_mem hc ha')
      (by rintro _ ⟨⟩; decide) (by simp) (append_cancel_left heq)).2
    exact (List.cons.inj hrest).2.symm
  generalize hs : ascii "bytes=" ++ (a ++ ascii "--" ++ b) = s at hsplit
  intro hspells
  cases hspells with
  | @interval a' b' first last ha' hb' h =>
    rw [append_assoc] at hsplit
    obtain rfl := hsplit (ha'.not_mem (by decide)) rfl
    exact hb'.not_mem (by decide) mem_cons_self
  | @onwards a' first ha' => exact absurd (hsplit (ha'.not_mem (by decide)) rfl) (by simp)
  | @suffix b' length hb' h =>
    obtain rfl := @hsplit [] b' (by simp) rfl
    exact hb'.not_mem (by decide) mem_cons_self

theorem parseRequestRangeSpec_cases (s : Bytes) :
    (∃ r, Spells s r) ∨ MinusZero s ∨ ∃ err, parseRequestRangeSpec s = pure (.error err) := by
  by_cases hsplit : ∃ a b, 45 ∉ a ∧ s = ascii "bytes=" ++ (a ++ 45 :: b)
  · obtain ⟨a, b, ha, rfl⟩ := hsplit
    rw [parseRequestRangeSpec_split ha]
    cases hbegin : parsePosition a (.invalidFirst (ascii "bytes=" ++ (a ++ 45 :: b))) .negativeFirst with
    | error err => exact .inr (.inr ⟨err, rfl⟩)
    | ok offsetBegin =>
      cases hend : parsePosition b (.invalidLast (ascii "bytes=" ++ (a ++ 45 :: b))) .negativeLast with
      | error err => exact .inr (.inr ⟨err, rfl⟩)
      | ok offsetEnd =>
        simp only [rangeOfPositions]
        rcases parsePosition_eq_ok.mp hbegin with ⟨rfl, rfl⟩ | ⟨first, hfirst, rfl⟩ | ⟨zeros, rfl, -⟩
        · rcases parsePosition_eq_ok.mp hend with ⟨rfl, rfl⟩ | ⟨length, hlength, rfl⟩ | ⟨zeros, rfl, hzeros, rfl⟩
          · exact .inr (.inr ⟨_, rfl⟩)
          · by_cases hpos : length = 0
            · subst hpos
              exact .inr (.inr ⟨_, rfl⟩)
            · exact .inl ⟨_, .suffix hlength (by omega)⟩
          · exact .inr (.inr ⟨_, rfl⟩)
        · rcases parsePosition_eq_ok.mp hend with ⟨rfl, rfl⟩ | ⟨last, hlast, rfl⟩ | ⟨zeros, rfl, hzeros, rfl⟩
          · exact .inl ⟨_, .onwards hfirst⟩
          · by_cases hle : first ≤ last
            · have hspells := Spells.interval hfirst hlast hle
              rw [append_assoc] at hspells
              exact .inl ⟨_, hspells⟩
            · rw [if_pos (by omega), if_pos (by omega)]
              exact .inr (.inr ⟨_, rfl⟩)
          · by_cases hzero : first = 0
            · subst hzero
              refine .inr (.inl ⟨a, zeros, hfirst, hzeros, ?_⟩)
              rw [append_assoc]
              rfl
            · rw [if_pos (by omega), if_pos (by omega)]
              exact .inr (.inr ⟨_, rfl⟩)
        · exact absurd mem_cons_self ha
  · refine .inr (.inr (parseRequestRangeSpec_no_split fun a b ha hs => hsplit ⟨a, b, ha, hs⟩))

/-! ## Resolving a range -/

/-- The numbers of a range fit `int64`. -/
def ByteRange.Fits : ByteRange → Prop
  | .interval first last => first ≤ last ∧ (last : Int) ≤ maxInt64
  | .onwards first => (first : Int) ≤ maxInt64
  | .suffix length => (length : Int) ≤ maxInt64

theorem Spells.fits (h : Spells s r) : r.Fits := by
  cases h with
  | interval ha hb h => exact ⟨h, hb.2.2.2⟩
  | onwards ha => exact ha.2.2.2
  | suffix hb h => exact hb.2.2.2

def ByteRange.resolved (size : Nat) (r : ByteRange) : Except RangeError (Int × Int) :=
  match r.select size with
  | some (start, length) => .ok (start, length)
  | none => .error .errInvalidRange

theorem getLength_gives (hr : r.Fits) (hsize : (size : Int) ≤ maxInt64) :
    (getLength (some r.spec) size).Gives ((r.resolved size).map (·.2)) := by
  have hfits : ∀ {x : Int}, 0 ≤ x → x ≤ maxInt64 → InInt64 x := fun hlo hhi =>
    ⟨le_trans (by decide) hlo, hhi⟩
  have hsize' : ¬ (size : Int) < 0 := by omega
  unfold ByteRange.resolved
  cases r with
  | interval first last =>
    obtain ⟨hle, hmax⟩ := hr
    show (getLength (some ⟨false, first, last⟩) size).Gives _
    unfold getLength
    by_cases hlt : first < size
    · simp only [ByteRange.select, if_neg hsize', Bool.false_eq_true, if_false, if_pos hlt]
      rw [if_neg (show ¬ (first : Int) ≥ size by omega), if_pos (show (last : Int) > -1 by omega)]
      have hend : (if (size : Int) ≤ (last : Int) then sub size 1 else pure (last : Int)).Gives
          ((min last (size - 1) : Nat) : Int) := by
        by_cases hclip : size ≤ last
        · rw [if_pos (show (size : Int) ≤ last by omega),
            show ((min last (size - 1) : Nat) : Int) = (size : Int) - 1 by omega]
          exact gives_sub (hfits (by omega) (by omega))
        · rw [if_neg (show ¬ (size : Int) ≤ last by omega), show min last (size - 1) = last by omega]
          exact gives_pure _
      have hlength : ((min last (size - 1) + 1 - first : Nat) : Int) =
          ((min last (size - 1) : Nat) : Int) - first + 1 := by omega
      refine hend.bind ((gives_sub (hfits (by omega) (by omega))).bind ?_)
      refine (gives_add (hfits (by omega) (by omega))).bind ?_
      rw [← hlength]
      exact gives_pure _
    · simp only [ByteRange.select, if_neg hsize', Bool.false_eq_true, if_false, if_neg hlt]
      rw [if_pos (show (first : Int) ≥ size by omega)]
      exact gives_pure _
  | onwards first =>
    show (getLength (some ⟨false, first, -1⟩) size).Gives _
    unfold getLength
    by_cases hlt : first < size
    · simp only [ByteRange.select, if_neg hsize', Bool.false_eq_true, if_false, if_pos hlt]
      rw [if_neg (show ¬ (first : Int) ≥ size by omega), if_neg (show ¬ (-1 : Int) > -1 by omega), if_true]
      have hlength : ((size - first : Nat) : Int) = (size : Int) - first := by omega
      refine (gives_sub (hfits (by omega) (by omega))).bind ?_
      rw [← hlength]
      exact gives_pure _
    · simp only [ByteRange.select, if_neg hsize', Bool.false_eq_true, if_false, if_neg hlt]
      rw [if_pos (show (first : Int) ≥ size by omega)]
      exact gives_pure _
  | suffix length =>
    show (getLength (some ⟨true, -length, -1⟩) size).Gives _
    unfold getLength
    simp only [ByteRange.select, if_neg hsize', if_true]
    have hmax : (length : Int) ≤ maxInt64 := hr
    refine (gives_neg (hfits (by omega) (by omega))).bind ?_
    have hlength : (if - -(length : Int) > size then (size : Int) else - -(length : Int)) =
        ((min length size : Nat) : Int) := by
      split <;> omega
    rw [hlength]
    exact gives_pure _

theorem ByteRange.start_of_select {sel : Nat × Nat} (h : r.select size = some sel)
    (hs : r.spec.isSuffixLength = false) : r.spec.start = sel.1 := by
  cases r with
  | suffix length => cases hs
  | interval first last | onwards first =>
    simp only [select] at h
    split at h
    · cases h
      rfl
    · cases h

theorem getOffsetLength_gives (hr : r.Fits) (hsize : (size : Int) ≤ maxInt64) :
    (getOffsetLength (some r.spec) size).Gives (r.resolved size) := by
  refine (getLength_gives hr hsize).bind ?_
  cases r with
  | interval first last | onwards first =>
    unfold ByteRange.resolved
    cases hsel : ByteRange.select size _ with
    | none => exact gives_pure _
    | some sel =>
      have hstart := ByteRange.start_of_select hsel rfl
      rw [hstart]
      exact gives_pure _
  | suffix length =>
    have hmax : (length : Int) ≤ maxInt64 := hr
    have hstart : InInt64 ((size : Int) + -length) := by
      unfold InInt64 maxInt64 at *
      omega
    refine (gives_add hstart).bind ?_
    have hclip : (if (size : Int) + -length < 0 then 0 else (size : Int) + -length) =
        ((size - min length size : Nat) : Int) := by
      split <;> omega
    simp only [hclip]
    exact gives_pure _

/-! ## The header and the range -/

/-- A header is accepted just when it is a range, and resolves to what that range selects: inside the
resource, or `errInvalidRange` if it is not satisfiable. No operation overflows. -/
structure RangeRight (s : Bytes) : Prop where
  accepted : (∃ h, (parseRequestRangeSpec s).val = .ok h) ↔ ∃ r, Spells s r
  fits : (parseRequestRangeSpec s).Fits
  resolves : ∀ h, (parseRequestRangeSpec s).val = .ok h → ∃ r, Spells s r ∧ ∀ size : Nat, (size : Int) ≤ maxInt64 →
      (getOffsetLength (some h) size).Fits ∧ (getOffsetLength (some h) size).val = r.resolved size ∧
      ∀ start length, (getOffsetLength (some h) size).val = .ok (start, length) →
        0 ≤ start ∧ 0 ≤ length ∧ start + length ≤ size

theorem ByteRange.resolved_eq_ok {start length : Int} (h : r.resolved size = .ok (start, length)) :
    0 ≤ start ∧ 0 ≤ length ∧ start + length ≤ size := by
  unfold resolved at h
  split at h
  · rename_i off len hsel
    cases h
    have hle := select_le hsel
    omega
  · cases h

theorem Spells.rangeRight (h : Spells s r) : RangeRight s := by
  obtain ⟨hval, hfits⟩ := h.parseRequestRangeSpec_gives
  refine ⟨⟨fun _ => ⟨r, h⟩, fun _ => ⟨_, hval⟩⟩, hfits, fun spec hspec => ⟨r, h, fun size hsize => ?_⟩⟩
  rw [hval] at hspec
  obtain rfl := Except.ok.inj hspec
  obtain ⟨hres, hfits⟩ := getOffsetLength_gives h.fits hsize
  refine ⟨hfits, hres, fun start length hok => ?_⟩
  rw [hres] at hok
  exact ByteRange.resolved_eq_ok hok

/-- Every header but `bytes=0--0` is treated right. -/
theorem rangeRight_iff (s : Bytes) : RangeRight s ↔ ¬ MinusZero s := by
  constructor
  · intro h hzero
    obtain ⟨r, hr⟩ := h.accepted.mp ⟨_, congrArg val hzero.parseRequestRangeSpec_eq⟩
    exact hzero.not_spells r hr
  · intro h
    rcases parseRequestRangeSpec_cases s with ⟨r, hr⟩ | hzero | ⟨err, herr⟩
    · exact hr.rangeRight
    · exact absurd hzero h
    · have hval : ∀ spec, (parseRequestRangeSpec s).val ≠ .ok spec := by
        intro spec hspec
        rw [herr] at hspec
        cases hspec
      refine ⟨⟨fun ⟨spec, hspec⟩ => absurd hspec (hval spec), fun ⟨r, hr⟩ => ?_⟩, ?_,
        fun spec hspec => absurd hspec (hval spec)⟩
      · exact ⟨_, hr.parseRequestRangeSpec_gives.1⟩
      · rw [herr]
        exact (gives_pure _).2

/-- The last position `-0` is accepted. -/
theorem rangeRight_minus_zero :
    (parseRequestRangeSpec (ascii "bytes=0--0")).val = .ok ⟨false, 0, 0⟩ ∧
      ¬ RangeRight (ascii "bytes=0--0") := by
  refine ⟨by decide, fun h => ?_⟩
  have hpos : IsPosition (ascii "0") 0 := ⟨cons_ne_nil _ _, by decide +kernel, rfl, by decide⟩
  have hzero : MinusZero (ascii "bytes=0--0") := ⟨ascii "0", ascii "0", hpos, hpos, rfl⟩
  obtain ⟨r, hr⟩ := h.accepted.mp ⟨_, congrArg val hzero.parseRequestRangeSpec_eq⟩
  exact hzero.not_spells r hr

end Otterio
