import Otterio.Lib.Chunks

/-!
# Numbered packages

A list is cut into chunks of `n` elements, and each chunk is sealed in a package that is longer by `h`
elements (`packed`). A package is opened with its number; the last one is marked as final. The
packages from number `k` on start at `k * (n + h)` (`drop_packed`), and any number of them can be
opened without the others (`unpacked_slice_packed`).

Several lists are packed one after the other, each on its own (`streamsFrom`). `unpackedParts` opens
packages from one of them on, and whole packages of consecutive lists give the corresponding part of
the lists put together (`unpackedParts_slice`).
-/

namespace Otterio

open List

/-- A way to seal numbered chunks: a package is longer by `h`, and opens with its number. -/
structure PackageCode (α : Type) (h : Nat) where
  /-- The package of a chunk: its number, and whether it is the last one. -/
  wrap : Nat → Bool → List α → List α
  opens : Nat → List α → Option (List α)
  length_wrap : ∀ k final c, (wrap k final c).length = c.length + h
  opens_wrap : ∀ k final c, opens k (wrap k final c) = some c

variable {α : Type} {h : Nat} (code : PackageCode α h) (n : Nat)

namespace PackageCode

/-- The packages of chunks, the first of which has number `k`. -/
def packChunks : Nat → List (List α) → List α
  | _, [] => []
  | k, c :: cs => code.wrap k cs.isEmpty c ++ packChunks (k + 1) cs

def packed (k : Nat) (l : List α) : List α := code.packChunks k (chunks n l)

def openChunks : Nat → List (List α) → Option (List α)
  | _, [] => some []
  | k, p :: ps => (code.opens k p).bind fun c => (openChunks (k + 1) ps).map (c ++ ·)

/-- The list in a sequence of packages, the first of which has number `k`. -/
def unpacked (k : Nat) (b : List α) : Option (List α) := code.openChunks k (chunks (n + h) b)

/-- The length of the packages of `m` elements. -/
def packedSize (n h m : Nat) : Nat := m / n * (n + h) + if m % n = 0 then 0 else m % n + h

@[simp] theorem packed_nil (k : Nat) : code.packed n k [] = [] := by
  rw [packed, chunks_nil, packChunks]

@[simp] theorem unpacked_nil (k : Nat) : code.unpacked n k [] = some [] := by
  rw [unpacked, chunks_nil, openChunks]

variable {n}

theorem packedSize_of_lt {m : Nat} (hpos : 0 < m) (hlt : m < n) : packedSize n h m = m + h := by
  unfold packedSize
  rw [Nat.div_eq_of_lt hlt, Nat.mod_eq_of_lt hlt, if_neg (by omega)]
  omega

/-- The package of the first chunk is as long as a package can be, unless it is the only one. -/
theorem length_wrap_take {l : List α} (k : Nat) (final : Bool) : (code.wrap k final (l.take n)).length = n + h ∨
      (code.wrap k final (l.take n)).length ≤ n + h ∧ l.drop n = [] := by
  rw [code.length_wrap, length_take]
  by_cases hlt : l.length < n
  · exact .inr ⟨by omega, drop_eq_nil_of_le hlt.le⟩
  · exact .inl (by omega)

variable (hn : 0 < n)
include hn

theorem packed_of_ne_nil {l : List α} (k : Nat) (hl : l ≠ []) : code.packed n k l =
      code.wrap k (chunks n (l.drop n)).isEmpty (l.take n) ++ code.packed n (k + 1) (l.drop n) := by
  rw [packed, chunks_of_ne_nil hn hl, packChunks, packed]

theorem unpacked_of_ne_nil {b : List α} (k : Nat) (hb : b ≠ []) :
    code.unpacked n k b = (code.opens k (b.take (n + h))).bind fun c =>
      (code.unpacked n (k + 1) (b.drop (n + h))).map (c ++ ·) := by
  rw [unpacked, chunks_of_ne_nil (Nat.add_pos_left hn _) hb, openChunks, unpacked]

theorem packedSize_of_le {m : Nat} (hle : n ≤ m) : packedSize n h m = n + h + packedSize n h (m - n) := by
  unfold packedSize
  rw [Nat.div_eq_sub_div hn hle, Nat.mod_eq_sub_mod hle, Nat.succ_mul]
  omega

theorem mul_le_packedSize {m j : Nat} (hle : j * n ≤ m) : j * (n + h) ≤ packedSize n h m := by
  have hj : j ≤ m / n := (Nat.le_div_iff_mul_le hn).mpr hle
  exact le_trans (Nat.mul_le_mul_right (n + h) hj) (Nat.le_add_right _ _)

theorem mul_le_of_le_packedSize {m j : Nat} (hle : j * (n + h) ≤ packedSize n h m) : j * n ≤ m := by
  have hdiv := Nat.div_add_mod m n
  have hmod := Nat.mod_lt m hn
  by_contra hlt
  have hj : m / n + 1 ≤ j := by
    by_contra hj
    have hmul : j * n ≤ m / n * n := Nat.mul_le_mul_right n (by omega)
    rw [Nat.mul_comm (m / n)] at hmul
    omega
  have hmul := Nat.mul_le_mul_right (n + h) hj
  rw [Nat.add_mul, Nat.one_mul] at hmul
  unfold packedSize at hle
  split at hle <;> omega

theorem length_packed (k : Nat) (l : List α) : (code.packed n k l).length = packedSize n h l.length := by
  induction l using chunks_induction hn generalizing k with
  | nil => simp [packedSize]
  | cons l hl ih =>
    have hpos := length_pos_of_ne_nil hl
    rw [packed_of_ne_nil code hn k hl, length_append, code.length_wrap, ih, length_take, length_drop]
    by_cases hlt : l.length < n
    · rw [packedSize_of_lt hpos hlt, min_eq_right hlt.le, Nat.sub_eq_zero_of_le hlt.le]
      simp [packedSize]
    · rw [packedSize_of_le hn (not_lt.mp hlt), min_eq_left (not_lt.mp hlt)]

theorem drop_packed (j k : Nat) (l : List α) :
    (code.packed n k l).drop (j * (n + h)) = code.packed n (k + j) (l.drop (j * n)) := by
  induction j generalizing k l with
  | zero => simp
  | succ j ih =>
    by_cases hl : l = []
    · subst hl
      simp
    · have hrest := ih (k + 1) (l.drop n)
      rw [drop_drop, show n + j * n = (j + 1) * n by ring, show k + 1 + j = k + (j + 1) by ring]
        at hrest
      rw [← hrest, packed_of_ne_nil code hn k hl]
      rcases length_wrap_take code k (chunks n (l.drop n)).isEmpty with hlen | ⟨hlen, hnil⟩
      · rw [show (j + 1) * (n + h) = n + h + j * (n + h) by ring, ← hlen, drop_length_add_append]
      · rw [hnil, packed_nil, drop_nil, append_nil]
        apply drop_eq_nil_of_le
        have hmul : (j + 1) * (n + h) = j * (n + h) + (n + h) := by
          ring
        rw [hnil] at hlen
        omega

theorem unpacked_take_packed (j k : Nat) (l : List α) :
    code.unpacked n k ((code.packed n k l).take (j * (n + h))) = some (l.take (j * n)) := by
  induction j generalizing k l with
  | zero => simp
  | succ j ih =>
    by_cases hl : l = []
    · subst hl
      simp
    · have hmul : (j + 1) * (n + h) = n + h + j * (n + h) := by ring
      have hrest := ih (k + 1) (l.drop n)
      rw [packed_of_ne_nil code hn k hl]
      set p := code.wrap k (chunks n (l.drop n)).isEmpty (l.take n) with hp
      have hpos : 0 < p.length := by
        have hlen := length_pos_of_ne_nil hl
        rw [hp, code.length_wrap, length_take]
        omega
      -- the first package, and the other ones of those that are taken
      have htake : ((p ++ code.packed n (k + 1) (l.drop n)).take ((j + 1) * (n + h))).take
            (n + h) = p ∧
          ((p ++ code.packed n (k + 1) (l.drop n)).take ((j + 1) * (n + h))).drop
            (n + h) = (code.packed n (k + 1) (l.drop n)).take (j * (n + h)) := by
        rw [take_take, drop_take, min_eq_left (by omega),
          show (j + 1) * (n + h) - (n + h) = j * (n + h) by omega]
        rcases length_wrap_take code k (chunks n (l.drop n)).isEmpty with hlen | ⟨hlen, hnil⟩
        · rw [← hlen, take_left, drop_left]
          exact ⟨rfl, rfl⟩
        · rw [hnil, packed_nil, append_nil, take_of_length_le hlen, drop_eq_nil_of_le hlen]
          exact ⟨rfl, rfl⟩
      have hne : (p ++ code.packed n (k + 1) (l.drop n)).take ((j + 1) * (n + h)) ≠ [] := by
        intro hnil
        rw [hnil, take_nil] at htake
        rw [← htake.1, length_nil] at hpos
        omega
      rw [unpacked_of_ne_nil code hn k hne, htake.1, htake.2, hp, code.opens_wrap, hrest]
      rw [Option.bind_some, Option.map_some, show (j + 1) * n = n + j * n by ring, take_add]

theorem unpacked_packed (k : Nat) (l : List α) : code.unpacked n k (code.packed n k l) = some l := by
  have hall := unpacked_take_packed code hn ((code.packed n k l).length + l.length) k l
  rw [take_of_length_le, take_of_length_le] at hall
  · exact hall
  · exact le_trans (Nat.le_add_left _ _) (Nat.le_mul_of_pos_right _ hn)
  · exact le_trans (Nat.le_add_right _ _) (Nat.le_mul_of_pos_right _ (Nat.add_pos_left hn h))

theorem unpacked_slice_packed (i j k : Nat) (l : List α) : code.unpacked n (k + i)
        (((code.packed n k l).take (j * (n + h))).drop (i * (n + h))) =
      some ((l.take (j * n)).drop (i * n)) := by
  have hmul : j * (n + h) - i * (n + h) = (j - i) * (n + h) := by
    rw [Nat.sub_mul]
  rw [drop_take, hmul, drop_packed code hn, unpacked_take_packed code hn, drop_take, Nat.sub_mul]

end PackageCode

/-! ## Several lists -/

namespace PackageCode

variable {α : Type} {h : Nat} (keys : Nat → PackageCode α h) {n : Nat}

/-- The packages of lists, the first of which has number `i`, under the codes of their numbers. -/
def streamsFrom (n : Nat) : Nat → List (List α) → List (List α)
  | _, [] => []
  | i, l :: ls => (keys i).packed n 0 l :: streamsFrom n (i + 1) ls

/-- Packages of consecutive lists are opened, from package `seq` of list `i` on. The sizes are those of
all packages of each list. -/
def unpackedParts (n : Nat) : Nat → Nat → List Nat → List α → Option (List α)
  | _, _, [], _ => some []
  | i, seq, size :: sizes, b =>
    let toRead := size - seq * (n + h)
    ((keys i).unpacked n seq (b.take toRead)).bind fun l =>
      (unpackedParts n (i + 1) 0 sizes (b.drop toRead)).map (l ++ ·)

abbrev streamSize (n h : Nat) (l : List α) : Nat := packedSize n h l.length

theorem streamsFrom_append (i : Nat) (a b : List (List α)) :
    streamsFrom keys n i (a ++ b) = streamsFrom keys n i a ++ streamsFrom keys n (i + a.length) b := by
  induction a generalizing i with
  | nil => rfl
  | cons l a ih =>
    rw [cons_append, streamsFrom, streamsFrom, ih, length_cons, cons_append]
    congr 3
    omega

theorem unpackedParts_nil (sizes : List Nat) (i seq : Nat) : unpackedParts keys n i seq sizes [] = some [] := by
  induction sizes generalizing i seq with
  | nil => rfl
  | cons size sizes ih => simp [unpackedParts, ih]

variable (hn : 0 < n)
include hn

theorem map_length_streamsFrom (i : Nat) (ls : List (List α)) :
    (streamsFrom keys n i ls).map List.length = ls.map (streamSize n h) := by
  induction ls generalizing i with
  | nil => rfl
  | cons l ls ih => rw [streamsFrom, map_cons, map_cons, length_packed _ hn, ih]

theorem length_streams (i : Nat) (ls : List (List α)) :
    (streamsFrom keys n i ls).flatten.length = (ls.map (streamSize n h)).sum := by
  rw [length_flatten, map_length_streamsFrom keys hn]

/-- The packages from one of the first list to one of the list `q`, opened. -/
theorem unpackedParts_slice (pre : List (List α)) (q : List α) (post : List (List α)) (i seq c : Nat)
    (hseq : ∀ l ∈ pre.head?, seq * (n + h) ≤ streamSize n h l) :
    unpackedParts keys n i seq ((pre ++ q :: post).map (streamSize n h))
        (((streamsFrom keys n i pre).flatten ++
          ((keys (i + pre.length)).packed n 0 q).take (c * (n + h))).drop (seq * (n + h))) =
      some ((pre.flatten ++ q.take (c * n)).drop (seq * n)) := by
  induction pre generalizing i seq with
  | nil =>
    have hslice := (keys i).unpacked_slice_packed hn seq c 0 q
    rw [Nat.zero_add] at hslice
    have hlen : ((((keys i).packed n 0 q).take (c * (n + h))).drop (seq * (n + h))).length ≤
        streamSize n h q - seq * (n + h) := by
      rw [length_drop, length_take, length_packed _ hn]
      exact Nat.sub_le_sub_right (min_le_right _ _) _
    rw [nil_append, map_cons, unpackedParts, streamsFrom, flatten_nil, nil_append,
      length_nil, Nat.add_zero, take_of_length_le hlen, drop_eq_nil_of_le hlen,
      unpackedParts_nil, hslice]
    simp
  | cons l pre ih =>
    have hl := hseq l rfl
    have hrest := ih (i + 1) 0 (by simp)
    rw [Nat.zero_mul, Nat.zero_mul, drop_zero, drop_zero] at hrest
    have hfirst : (keys i).unpacked n seq (((keys i).packed n 0 l).drop (seq * (n + h))) =
        some (l.drop (seq * n)) := by
      rw [(keys i).drop_packed hn, Nat.zero_add, (keys i).unpacked_packed hn]
    have hlen : (((keys i).packed n 0 l).drop (seq * (n + h))).length = streamSize n h l - seq * (n + h) := by
      rw [length_drop, length_packed _ hn]
    rw [cons_append, map_cons, unpackedParts, streamsFrom, flatten_cons,
      append_assoc, drop_append_of_le_length (by rw [length_packed _ hn]; exact hl), ← hlen,
      take_left, drop_left, hfirst, Option.bind_some, length_cons,
      show i + (pre.length + 1) = i + 1 + pre.length by omega, hrest, Option.map_some,
      flatten_cons, append_assoc,
      drop_append_of_le_length (mul_le_of_le_packedSize hn hl)]

/-- The first of these packages is not after the last one. -/
theorem mul_le_slice {mid : List (List α)} {q : List α} {seq c : Nat}
    (hseq : ∀ l ∈ (mid ++ [q]).head?, seq * n ≤ l.length) (hc : seq * n < mid.flatten.length + min (c * n) q.length) :
    seq * (n + h) ≤ (mid.map (streamSize n h)).sum + min (c * (n + h)) (streamSize n h q) := by
  cases mid with
  | nil =>
    have hq : seq * (n + h) ≤ streamSize n h q := mul_le_packedSize hn (hseq q rfl)
    have hle : seq ≤ c := by
      rw [flatten_nil, length_nil] at hc
      have hmul : seq * n < c * n := by omega
      exact (Nat.lt_of_mul_lt_mul_right hmul).le
    have hmul := Nat.mul_le_mul_right (n + h) hle
    omega
  | cons l mid =>
    have hl : seq * (n + h) ≤ streamSize n h l := mul_le_packedSize hn (hseq l rfl)
    rw [map_cons, sum_cons]
    omega

/-- The packages from a place in the ones of a list to one of a later list. -/
theorem streams_slice (i : Nat) (pre mid : List (List α)) (q : List α) (post : List (List α)) (x c : Nat) :
    ((streamsFrom keys n i (pre ++ (mid ++ q :: post))).flatten.drop
        ((pre.map (streamSize n h)).sum + x)).take
        ((mid.map (streamSize n h)).sum + min c (streamSize n h q) - x) =
      ((streamsFrom keys n (i + pre.length) mid).flatten ++
        ((keys (i + pre.length + mid.length)).packed n 0 q).take c).drop x := by
  have hpre := length_streams keys hn i pre
  have hmid := length_streams keys hn (i + pre.length) mid
  have hq : ((keys (i + pre.length + mid.length)).packed n 0 q).length = streamSize n h q := length_packed _ hn _ _
  rw [streamsFrom_append, streamsFrom_append, streamsFrom, flatten_append, flatten_append,
    flatten_cons, ← hpre, drop_length_add_append, ← drop_take, ← hmid,
    take_length_add_append, ← hq, Nat.min_comm]
  rw [take_append_of_le_length (by omega), ← take_take, take_of_length_le]
  rw [length_take]
  omega

end PackageCode

theorem slice_append {α : Type} {l : List α} (r : List α) {x len : Nat} (h : x + len ≤ l.length) :
    ((l ++ r).drop x).take len = (l.drop x).take len := by
  rw [drop_append_of_le_length (by omega), take_append_of_le_length]
  rw [length_drop]
  omega

end Otterio
