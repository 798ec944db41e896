import Mathlib

/-!
# The union of lists in ascending order of a key

`unionBy` merges two lists that are ascending in a key; where both have a key, `pick` chooses. Its
length may be limited at every step of a fold, since the first elements of a union depend on the first
elements of its parts only (`take_unionBy_take`).

`copy` is the element of a list with a given key. The copies of a union are picked from those of its
parts (`copy_unionBy`, `copy_foldl_unionBy`).
-/

namespace Otterio

open List

variable {α κ : Type} [LinearOrder κ] (key : α → κ) (pick : α → α → α)

/-- The union of two lists; `pick` chooses between two elements with the same key. -/
def unionBy : List α → List α → List α
  | [], b => b
  | x :: a, [] => x :: a
  | x :: a, y :: b =>
    if key x < key y then x :: unionBy a (y :: b)
    else if key y < key x then y :: unionBy (x :: a) b
    else pick x y :: unionBy a b
termination_by a b => a.length + b.length

def AscendingBy (l : List α) : Prop := l.Pairwise fun a b => key a < key b

def copy (k : κ) (l : List α) : Option α := l.find? fun a => key a = k

/-- The choice between two copies that may be absent. -/
def pickCopy : Option α → Option α → Option α
  | none, y => y
  | some x, none => some x
  | some x, some y => some (pick x y)

variable {key pick}

@[simp] theorem unionBy_nil_left (b : List α) : unionBy key pick [] b = b := by
  unfold unionBy
  rfl

@[simp] theorem unionBy_nil_right (a : List α) : unionBy key pick a [] = a := by
  cases a with
  | nil => exact unionBy_nil_left []
  | cons x a =>
    unfold unionBy
    rfl

theorem unionBy_cons_lt {x y : α} (a b : List α) (h : key x < key y) :
    unionBy key pick (x :: a) (y :: b) = x :: unionBy key pick a (y :: b) := by
  rw [unionBy, if_pos h]

theorem unionBy_cons_gt {x y : α} (a b : List α) (h : key y < key x) :
    unionBy key pick (x :: a) (y :: b) = y :: unionBy key pick (x :: a) b := by
  rw [unionBy, if_neg (lt_asymm h), if_pos h]

theorem unionBy_cons_eq {x y : α} (a b : List α) (h : key x = key y) :
    unionBy key pick (x :: a) (y :: b) = pick x y :: unionBy key pick a b := by
  rw [unionBy, if_neg h.not_lt, if_neg h.symm.not_lt]

/-- The first elements of a union, from the first elements of its left part. -/
theorem take_unionBy_take {n m : Nat} (h : n ≤ m) (a b : List α) :
    (unionBy key pick (a.take m) b).take n = (unionBy key pick a b).take n := by
  induction n generalizing m a b with
  | zero => simp
  | succ n ih =>
    obtain ⟨m, rfl⟩ : ∃ k, m = k + 1 := ⟨m - 1, by omega⟩
    cases a with
    | nil => simp
    | cons x a =>
      cases b with
      | nil =>
        rw [unionBy_nil_right, unionBy_nil_right, take_take, min_eq_left h]
      | cons y b =>
        rw [take_succ_cons]
        rcases lt_trichotomy (key x) (key y) with hlt | heq | hgt
        · rw [unionBy_cons_lt _ _ hlt, unionBy_cons_lt _ _ hlt, take_succ_cons, take_succ_cons, ih (by omega)]
        · rw [unionBy_cons_eq _ _ heq, unionBy_cons_eq _ _ heq, take_succ_cons, take_succ_cons, ih (by omega)]
        · have hrest := ih (m := m + 1) (by omega) (x :: a) b
          rw [take_succ_cons] at hrest
          rw [unionBy_cons_gt _ _ hgt, unionBy_cons_gt _ _ hgt, take_succ_cons, take_succ_cons, hrest]

/-- A fold of unions whose parts are cut at every step. -/
theorem foldl_take_unionBy (n : Nat) (ls : List (List α)) (a : List α) :
    ls.foldl (fun a l => (unionBy key pick a l).take n) (a.take n) = (ls.foldl (unionBy key pick) a).take n := by
  induction ls generalizing a with
  | nil => rfl
  | cons l ls ih => rw [foldl_cons, foldl_cons, take_unionBy_take (le_refl n), ih]

section Copies

variable {k : κ}

theorem copy_cons_self {x : α} (l : List α) (h : key x = k) : copy key k (x :: l) = some x := by
  rw [copy, List.find?_cons_of_pos (by simpa using h)]

theorem copy_cons_ne {x : α} (l : List α) (h : key x ≠ k) : copy key k (x :: l) = copy key k l := by
  rw [copy, List.find?_cons_of_neg (by simpa using h)]
  rfl

theorem copy_eq_some {l : List α} {x : α} (h : copy key k l = some x) : x ∈ l ∧ key x = k :=
  ⟨mem_of_find?_eq_some h, by simpa using List.find?_some h⟩

theorem copy_eq_none {l : List α} : copy key k l = none ↔ ∀ x ∈ l, key x ≠ k := by
  rw [copy, List.find?_eq_none]
  simp

theorem copy_of_lt {l : List α} {x : α} (hl : ∀ y ∈ l, key x < key y) (h : k ≤ key x) : copy key k l = none :=
  copy_eq_none.mpr fun y hy => (lt_of_le_of_lt h (hl y hy)).ne'

theorem AscendingBy.copy_eq {l : List α} (hl : AscendingBy key l) {x : α} (hx : x ∈ l) :
    copy key (key x) l = some x := by
  induction l with
  | nil => cases hx
  | cons y l ih =>
    obtain ⟨hy, hl⟩ := pairwise_cons.mp hl
    rcases mem_cons.mp hx with rfl | hx
    · exact copy_cons_self l rfl
    · rw [copy_cons_ne l (hy x hx).ne, ih hl hx]

section

variable (hpick : ∀ x y, key x = key y → key (pick x y) = key x)
include hpick

/-- The copies of a union are picked from those of its parts. -/
theorem copy_unionBy {a b : List α}
    (ha : AscendingBy key a) (hb : AscendingBy key b) (k : κ) :
    copy key k (unionBy key pick a b) = pickCopy pick (copy key k a) (copy key k b) := by
  fun_induction unionBy key pick a b with
  | case1 b => rfl
  | case2 x a => cases copy key k (x :: a) <;> rfl
  | case3 x a y b hlt ih =>
    obtain ⟨hx, ha⟩ := pairwise_cons.mp ha
    by_cases hk : key x = k
    · have hnone : copy key k (y :: b) = none := by
        subst hk
        rw [copy_cons_ne b hlt.ne']
        exact copy_of_lt (pairwise_cons.mp hb).1 hlt.le
      rw [copy_cons_self _ hk, copy_cons_self _ hk, hnone]
      rfl
    · rw [copy_cons_ne _ hk, copy_cons_ne _ hk, ih ha hb]
  | case4 x a y b hnlt hgt ih =>
    obtain ⟨hy, hb⟩ := pairwise_cons.mp hb
    by_cases hk : key y = k
    · have hnone : copy key k (x :: a) = none := by
        subst hk
        rw [copy_cons_ne a hgt.ne']
        exact copy_of_lt (pairwise_cons.mp ha).1 hgt.le
      rw [copy_cons_self _ hk, copy_cons_self _ hk, hnone]
      rfl
    · rw [copy_cons_ne _ hk, copy_cons_ne b hk, ih ha hb]
  | case5 x a y b hnlt hngt ih =>
    have heq : key x = key y := le_antisymm (not_lt.mp hngt) (not_lt.mp hnlt)
    obtain ⟨hx, ha⟩ := pairwise_cons.mp ha
    obtain ⟨hy, hb⟩ := pairwise_cons.mp hb
    by_cases hk : key x = k
    · rw [copy_cons_self _ ((hpick x y heq).trans hk), copy_cons_self _ hk, copy_cons_self _ (heq.symm.trans hk)]
      rfl
    · rw [copy_cons_ne _ (by rwa [hpick x y heq]), copy_cons_ne _ hk, copy_cons_ne _ (by rwa [← heq]), ih ha hb]

theorem mem_keys_unionBy {a b : List α} :
    k ∈ (unionBy key pick a b).map key ↔ k ∈ a.map key ∨ k ∈ b.map key := by
  fun_induction unionBy key pick a b with
  | case1 b => simp
  | case2 x a => simp
  | case3 x a y b hlt ih =>
    simp only [map_cons, mem_cons] at ih ⊢
    rw [ih, or_assoc]
  | case4 x a y b hnlt hgt ih =>
    simp only [map_cons, mem_cons] at ih ⊢
    tauto
  | case5 x a y b hnlt hngt ih =>
    have heq : key x = key y := le_antisymm (not_lt.mp hngt) (not_lt.mp hnlt)
    simp only [map_cons, mem_cons] at ih ⊢
    rw [ih, hpick x y heq, ← heq]
    tauto

theorem AscendingBy.unionBy {a b : List α}
    (ha : AscendingBy key a) (hb : AscendingBy key b) : AscendingBy key (unionBy key pick a b) := by
  have hlater : ∀ {x : α} {a b : List α}, (∀ z ∈ a, key x < key z) → (∀ z ∈ b, key x < key z) →
      ∀ z ∈ Otterio.unionBy key pick a b, key x < key z := by
    intro x a b ha hb z hz
    rcases (mem_keys_unionBy hpick).mp (mem_map_of_mem hz) with h | h
    · obtain ⟨w, hw, heq⟩ := mem_map.mp h
      exact heq ▸ ha w hw
    · obtain ⟨w, hw, heq⟩ := mem_map.mp h
      exact heq ▸ hb w hw
  fun_induction Otterio.unionBy key pick a b with
  | case1 b => exact hb
  | case2 x a => exact ha
  | case3 x a y b hlt ih =>
    obtain ⟨hx, ha⟩ := pairwise_cons.mp ha
    refine pairwise_cons.mpr ⟨hlater hx fun z hz => ?_, ih ha hb⟩
    rcases mem_cons.mp hz with rfl | hz
    · exact hlt
    · exact hlt.trans ((pairwise_cons.mp hb).1 z hz)
  | case4 x a y b hnlt hgt ih =>
    obtain ⟨hy, hb⟩ := pairwise_cons.mp hb
    refine pairwise_cons.mpr ⟨hlater (fun z hz => ?_) hy, ih ha hb⟩
    rcases mem_cons.mp hz with rfl | hz
    · exact hgt
    · exact hgt.trans ((pairwise_cons.mp ha).1 z hz)
  | case5 x a y b hnlt hngt ih =>
    have heq : key x = key y := le_antisymm (not_lt.mp hngt) (not_lt.mp hnlt)
    obtain ⟨hx, ha⟩ := pairwise_cons.mp ha
    obtain ⟨hy, hb⟩ := pairwise_cons.mp hb
    refine pairwise_cons.mpr ⟨hlater (fun z hz => ?_) (fun z hz => ?_), ih ha hb⟩
    · rw [hpick x y heq]
      exact hx z hz
    · rw [hpick x y heq, heq]
      exact hy z hz

theorem mem_keys_foldl (ls : List (List α)) (a : List α) :
    k ∈ (ls.foldl (Otterio.unionBy key pick) a).map key ↔ k ∈ a.map key ∨ ∃ l ∈ ls, k ∈ l.map key := by
  induction ls generalizing a with
  | nil => simp
  | cons l ls ih =>
    rw [foldl_cons, ih, mem_keys_unionBy hpick]
    simp only [mem_cons, exists_eq_or_imp, or_assoc]

theorem AscendingBy.foldl_unionBy
    {ls : List (List α)} (hls : ∀ l ∈ ls, AscendingBy key l) {a : List α} (ha : AscendingBy key a) :
    AscendingBy key (ls.foldl (Otterio.unionBy key pick) a) := by
  induction ls generalizing a with
  | nil => exact ha
  | cons l ls ih =>
    exact ih (fun l' hl' => hls l' (mem_cons_of_mem _ hl'))
      (ha.unionBy hpick (hls l mem_cons_self))

/-- The copies of a fold of unions are picked one after the other. -/
theorem copy_foldl_unionBy {ls : List (List α)}
    (hls : ∀ l ∈ ls, AscendingBy key l) {a : List α} (ha : AscendingBy key a) (k : κ) :
    copy key k (ls.foldl (Otterio.unionBy key pick) a) =
      (ls.filterMap (copy key k)).foldl (fun x y => pickCopy pick x (some y)) (copy key k a) := by
  induction ls generalizing a with
  | nil => rfl
  | cons l ls ih =>
    have hl := hls l mem_cons_self
    rw [foldl_cons, ih (fun l' hl' => hls l' (mem_cons_of_mem _ hl')) (ha.unionBy hpick hl), copy_unionBy hpick ha hl]
    cases hcopy : copy key k l with
    | none =>
      rw [filterMap_cons_none hcopy]
      cases copy key k a <;> rfl
    | some y => rw [filterMap_cons_some hcopy, foldl_cons]

end

omit [LinearOrder κ] in
theorem eq_of_keys_eq {a b : List α} (hkeys : a.map key = b.map key)
    (h : ∀ x ∈ a, ∀ y ∈ b, key x = key y → x = y) : a = b := by
  induction a generalizing b with
  | nil => exact (map_eq_nil_iff.mp hkeys.symm).symm
  | cons x a ih =>
    obtain ⟨y, b, rfl, hy, hb⟩ := map_eq_cons_iff.mp hkeys.symm
    have hhead := h x mem_cons_self y mem_cons_self hy.symm
    have htail := ih hb.symm fun x' hx' y' hy' =>
      h x' (mem_cons_of_mem _ hx') y' (mem_cons_of_mem _ hy')
    rw [hhead, htail]

end Copies

end Otterio
