import Mathlib

/-!
# Go values used throughout the model

* `GoMap K V`: a map value, which is `nil` or a table. Equality is extensional and does not depend
  on the order of insertions.
* `Time`: an instant, in nanoseconds since the Unix epoch. Two `time.Time` values of the same
  instant in different locations are the same `Time`, as for `Time.Equal`. `Time.unixNano` is the
  64-bit result of `UnixNano`, which wraps outside the years 1678 to 2262
  (`Time.Representable`).
* `Error`: an `error` value. An error of a string type is compared by its text, any other error by
  its identity, and `errorsIs` follows the chain of wrapped errors as `errors.Is` does.
* `Result α`: what a call ends with, a value, an error or a panic.
* `GoSet α`: a map used as a set; `Header`: the headers of a request, with `canonicalHeaderKey`.
-/

namespace Otterio

open String

/-- A `[]byte` value; `nil` is the empty one. -/
abbrev Bytes := List UInt8

/-- A result of `int64` arithmetic, which wraps. -/
def int64 (x : Int) : Int := x.bmod (2 ^ 64)

def maxInt64 : Int := 2 ^ 63 - 1

theorem int64_eq {x : Int} (hlo : 0 ≤ x) (hhi : x ≤ maxInt64) : int64 x = x := by
  unfold maxInt64 at hhi
  exact Int.bmod_eq_of_le (by omega) (by omega)

/-! ## Maps -/

/-- A Go map value: `nil`, or a table. -/
abbrev GoMap (K V : Type) [Ord K] := Option (Std.ExtTreeMap K V compare)

namespace GoMap

variable {K V : Type} [Ord K] [Std.TransOrd K]

/-- `v, ok := m[k]`. -/
def get? (m : GoMap K V) (k : K) : Option V := m.bind fun t => t[k]?

/-- The map `make` returns. -/
def make : GoMap K V := some ∅

/-- The map itself, or a new one in place of `nil`. -/
def orMake (m : GoMap K V) : Std.ExtTreeMap K V compare := m.getD ∅

/-- `for k, v := range src { m[k] = v }`. The keys of `src` are distinct, so the order is
immaterial. -/
def copyInto (src : GoMap K V) (m : Std.ExtTreeMap K V compare) : Std.ExtTreeMap K V compare :=
  src.orMake.toList.foldl (fun m e => m.insert e.1 e.2) m

end GoMap

/-- `m[k]` of a string map: the empty string when the key is absent. -/
def GoMap.getStr {K : Type} [Ord K] [Std.TransOrd K] (m : GoMap K String) (k : K) : String := (m.get? k).getD ""

/-! ## Strings -/

def isSpace (c : Char) : Bool :=
  (0x09 ≤ c.toNat && c.toNat ≤ 0x0d) || (0x2000 ≤ c.toNat && c.toNat ≤ 0x200a) ||
    [0x20, 0x85, 0xa0, 0x1680, 0x2028, 0x2029, 0x202f, 0x205f, 0x3000].contains c.toNat

def trimSpace (s : String) : String := ofList ((s.toList.dropWhile isSpace).reverse.dropWhile isSpace).reverse

open List in
theorem of_mem_splitOn {α : Type} [DecidableEq α] {a : α} {s part : List α} (h : part ∈ s.splitOn a) :
    a ∉ part ∧ part ⊆ s := by
  induction s generalizing part with
  | nil =>
    obtain rfl : part = [] := by simpa [splitOn_nil] using h
    exact ⟨not_mem_nil, List.Subset.refl _⟩
  | cons d s ih =>
    rw [List.splitOn, splitOnP_cons_eq_if_modifyHead] at h
    by_cases hd : d = a
    · rw [if_pos (beq_iff_eq.mpr hd), mem_cons] at h
      rcases h with rfl | h
      · exact ⟨not_mem_nil, nil_subset _⟩
      · exact ⟨(ih h).1, fun x hx => .tail _ ((ih h).2 hx)⟩
    · rw [if_neg (by simpa using hd)] at h
      rcases hsplit : s.splitOnP (· == a) with _ | ⟨first, rest⟩
      · exact absurd hsplit (splitOnP_ne_nil _ _)
      rw [hsplit, modifyHead_cons, mem_cons] at h
      rcases h with rfl | h
      · have hfirst : a ∉ first ∧ first ⊆ s := ih (by rw [List.splitOn, hsplit]; exact .head _)
        refine ⟨?_, cons_subset_cons d hfirst.2⟩
        rw [mem_cons]
        rintro (rfl | hm)
        · exact hd rfl
        · exact hfirst.1 hm
      · have hrest : a ∉ part ∧ part ⊆ s := ih (by rw [List.splitOn, hsplit]; exact .tail _ h)
        exact ⟨hrest.1, fun x hx => .tail _ (hrest.2 hx)⟩

/-- `strings.SplitN(s, sep, 2)`. -/
def splitN2 (sep : Char) (s : String) : List String :=
  match s.toList.span (· != sep) with
  | (a, []) => [ofList a]
  | (a, _ :: b) => [ofList a, ofList b]

/-- `unicode.ToLower`, for the characters whose lower case is an ASCII character. The others keep a
lower case outside ASCII, so that a comparison with an ASCII text does not see the difference. -/
def lowerAscii (c : Char) : Char :=
  if c = '\u0130' then 'i' else if c = '\u212a' then 'k' else c.toLower

/-- `strings.HasPrefix(strings.ToLower(s), pre)` for a lower-case ASCII `pre`. -/
def hasLowerPrefix (s pre : String) : Bool := pre.toList.isPrefixOf (s.toList.map lowerAscii)

/-- The simple case folding of the characters that fold to a lower-case ASCII letter. -/
def foldAscii (c : Char) : Char :=
  if c = '\u017f' then 's' else if c = '\u212a' then 'k' else c.toLower

/-- `strings.EqualFold(s, t)` for a lower-case ASCII `t`. -/
def equalFold (s t : String) : Bool := s.toList.map foldAscii == t.toList

/-- `strings.ToLower(s) == t` for a lower-case ASCII `t`. -/
def equalLower (s t : String) : Bool := s.toList.map lowerAscii == t.toList

/-- `unicode.ToUpper`, for the characters whose upper case is an ASCII character. -/
def upperAscii (c : Char) : Char :=
  if c = '\u0131' then 'I' else if c = '\u017f' then 'S' else c.toUpper

/-- `strings.ToUpper(s) == t` for an upper-case ASCII `t`. -/
def equalUpper (s t : String) : Bool := s.toList.map upperAscii == t.toList

def hasPrefix (s pre : String) : Bool := pre.toList.isPrefixOf s.toList

def trimPrefix (s pre : String) : String :=
  if hasPrefix s pre then ofList (s.toList.drop pre.toList.length) else s

/-- The loop of `strings.Replace(s, old, new, -1)` for a non-empty `old`. Every step consumes a
character, so that the length of `s` is enough fuel. -/
def replaceAllFrom (old new : List Char) : Nat → List Char → List Char
  | 0, s => s
  | _ + 1, [] => []
  | fuel + 1, c :: s =>
    if old.isPrefixOf (c :: s) then
      new ++ replaceAllFrom old new fuel ((c :: s).drop old.length)
    else c :: replaceAllFrom old new fuel s

/-- `strings.Replace(s, old, new, -1)` for a non-empty `old`. -/
def replaceAll (s old new : String) : String :=
  ofList (replaceAllFrom old.toList new.toList s.toList.length s.toList)

theorem replaceAllFrom_of_notMem {o : Char} {old new : List Char} :
    ∀ {fuel : Nat} {s : List Char}, o ∉ s → replaceAllFrom (o :: old) new fuel s = s
  | 0, _, _ => rfl
  | _ + 1, [], _ => rfl
  | fuel + 1, c :: s, h => by
    obtain ⟨hc, hs⟩ := not_or.mp (mt List.mem_cons.mpr h)
    have hpre : (o :: old).isPrefixOf (c :: s) = false := by
      rw [List.isPrefixOf_cons_cons, beq_false_of_ne hc, Bool.false_and]
    rw [replaceAllFrom, hpre, if_neg Bool.false_ne_true, replaceAllFrom_of_notMem hs]

theorem replaceAll_of_notMem {s old new : String} {o : Char} {rest : List Char}
    (hold : old.toList = o :: rest) (h : o ∉ s.toList) : replaceAll s old new = s := by
  rw [replaceAll, hold, replaceAllFrom_of_notMem h, ofList_toList]

/-! ## Sets -/

/-- A `map[T]struct{}` used as a set: its elements, in the order a `range` visits them. -/
structure GoSet (α : Type) where
  elems : List α
  nodup : elems.Nodup
deriving DecidableEq

namespace GoSet

variable {α : Type} [DecidableEq α]

def ofList (l : List α) : GoSet α := ⟨l.dedup, l.nodup_dedup⟩

/-- `_, ok := s[a]`. -/
def contains (s : GoSet α) (a : α) : Bool := s.elems.contains a

/-- `s.Equals(t)`: equal sizes, and every element of `s` is in `t`. -/
def equals (s t : GoSet α) : Bool := s.elems.length == t.elems.length && s.elems.all t.contains

end GoSet

def sortStrings (l : List String) : List String := l.insertionSort (· ≤ ·)

/-- `ToSlice` of a `set.StringSet`: its elements in increasing order. -/
def toSlice (s : GoSet String) : List String := sortStrings s.elems

/-! ## HTTP headers -/

/-- A character of a header name. -/
def isTokenChar (c : Char) : Bool := c.isAlphanum || "!#$%&'*+-.^_`|~".toList.contains c

/-- The letters of `http.CanonicalHeaderKey`: upper case at the start and after a hyphen, lower case
elsewhere. -/
def canonicalChars : Bool → List Char → List Char
  | _, [] => []
  | upper, c :: s =>
    let c := if upper then c.toUpper else c.toLower
    c :: canonicalChars (c == '-') s

/-- `http.CanonicalHeaderKey(s)`: a text that is not a header name is left alone. -/
def canonicalHeaderKey (s : String) : String :=
  if s.toList.all isTokenChar then ofList (canonicalChars true s.toList) else s

/-- `http.Header` of a request: the values of each canonical name. A name without values is absent,
since `net/http` makes no empty list. -/
abbrev Header := String → List String

namespace Header

/-- `_, ok := h[name]`. -/
def has (h : Header) (name : String) : Bool := !(h name).isEmpty

/-- `h.Get(name)` for a canonical name. -/
def get (h : Header) (name : String) : String := (h name).headD ""

end Header

/-! ## Time -/

/-- An instant, in nanoseconds since the Unix epoch. -/
abbrev Time := Int

namespace Time

/-- `time.Time{}`: January 1, year 1, 00:00:00 UTC. -/
def zero : Time := -62135596800 * 1000000000

/-- `t.UnixNano()`, computed in wrapping 64-bit arithmetic. -/
def unixNano (t : Time) : Int := t.bmod (2 ^ 64)

/-- `time.Unix(0, nano)`. -/
def ofUnixNano (nano : Int) : Time := nano

/-- The instant is recovered from its `UnixNano`. -/
def Representable (t : Time) : Prop := ofUnixNano t.unixNano = t

instance (t : Time) : Decidable t.Representable := inferInstanceAs (Decidable (_ = _))

theorem Representable.unixNano_eq {t : Time} (h : t.Representable) : t.unixNano = t := h

theorem zero_ne_epoch : zero ≠ (0 : Time) := by decide

end Time

/-! ## Errors -/

/-- A non-`nil` Go `error`. A `nil` error is the `none` of `Option Error`. -/
inductive Error where
  /-- A value of a string type. -/
  | str (msg : String)
  /-- A value made by `errors.New` or of another comparable type, with its identity. -/
  | other (id : Nat)
  | wrap (id : Nat) (inner : Error)
deriving DecidableEq, Repr

/-- `errors.Is(err, target)` for a non-`nil` `err`. -/
def Error.is (target : Error) : Error → Bool
  | .wrap id inner => .wrap id inner == target || Error.is target inner
  | e => e == target

def errorsIs (err : Option Error) (target : Error) : Bool := err.any (Error.is target)

@[simp] theorem errorsIs_none (target : Error) : errorsIs none target = false := rfl

namespace Err

def eof : Error := .other 25

def errUnexpectedEOF : Error := .other 26

end Err

/-- How a call fails: it returns an error, or it panics. -/
inductive Fault where
  | err (e : Error)
  | panic
deriving DecidableEq, Repr

abbrev Result (α : Type) := Except Fault α

/-- `x, err := f(); if err != nil { return err }`. -/
def Result.ofExcept {α : Type} : Except Error α → Result α
  | .ok a => .ok a
  | .error e => .error (.err e)

theorem Result.ofExcept_eq_ok {α : Type} {x : Except Error α} {a : α}
    (h : Result.ofExcept x = .ok a) : x = .ok a := by
  cases x with
  | ok b => rw [Except.ok.inj h]
  | error e => cases h

/-- `m[k] = v`, which panics on a `nil` map. -/
def GoMap.set {K V : Type} [Ord K] [Std.TransOrd K] (m : GoMap K V) (k : K) (v : V) : Result (GoMap K V) :=
  match m with
  | none => .error .panic
  | some t => .ok (some (t.insert k v))

theorem Result.map_eq_ok {α β : Type} {x : Result α} {f : α → β} {b : β}
    (h : (f <$> x) = .ok b) : ∃ a, x = .ok a ∧ f a = b := by
  cases x with
  | ok a => exact ⟨a, rfl, Except.ok.inj h⟩
  | error e => cases h

theorem Result.bind_eq_ok {α β : Type} {x : Result α} {f : α → Result β} {b : β}
    (h : (x >>= f) = .ok b) : ∃ a, x = .ok a ∧ f a = .ok b := by
  cases x with
  | ok a => exact ⟨a, rfl, h⟩
  | error e => cases h

end Otterio
