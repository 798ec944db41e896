import Mathlib

/-!
# Lists in lexicographic order

Texts are lists over a linear order, compared as Go compares strings. The texts with a given prefix are
an interval: a text between the prefix and one of them is one of them (`prefix_of_le`), and a text
after the prefix without it is after all of them (`lt_of_not_isPrefix`).

`indexOf` is the first place of a text in another one.
-/

namespace Otterio

open List

instance instLinearOrderUInt8 : LinearOrder UInt8 where
  le_refl := UInt8.le_refl
  le_trans _ _ _ := UInt8.le_trans
  le_antisymm _ _ := UInt8.le_antisymm
  le_total := UInt8.le_total
  lt_iff_le_not_ge a b := by
    rw [UInt8.not_le]
    exact ⟨fun h => ⟨UInt8.le_of_lt h, h⟩, fun h => h.2⟩
  toDecidableLE := inferInstance
  toDecidableLT := inferInstance

variable {α : Type} [LinearOrder α] {p s t : List α}

theorem not_lt_of_isPrefix (h : p <+: s) : ¬ s < p := h.le

theorem le_of_isPrefix (h : p <+: s) : p ≤ s := not_lt.mp (not_lt_of_isPrefix h)

/-- A text between a prefix and a text with it has it. -/
theorem prefix_of_not_lt (hp : ¬ s < p) (ht : ¬ t < s) (h : p <+: t) : p <+: s := by
  induction p generalizing s t with
  | nil => exact nil_prefix
  | cons a p ih =>
    obtain ⟨r, rfl⟩ := h
    cases s with
    | nil => exact absurd (nil_lt_cons a p) hp
    | cons b s =>
      rw [cons_lt_cons_iff, not_or, not_and] at hp
      rw [cons_append, cons_lt_cons_iff, not_or, not_and] at ht
      obtain rfl : b = a := le_antisymm (not_lt.mp ht.1) (not_lt.mp hp.1)
      exact cons_prefix_cons.mpr ⟨rfl, ih (hp.2 rfl) (ht.2 rfl) (prefix_append p r)⟩

theorem prefix_of_le (hp : p ≤ s) (ht : s ≤ t) (h : p <+: t) : p <+: s :=
  prefix_of_not_lt (not_lt.mpr hp) (not_lt.mpr ht) h

/-- A text after a prefix and without it is after all texts with it. -/
theorem lt_of_not_isPrefix (hp : p ≤ s) (hs : ¬ p <+: s) (h : p <+: t) : t < s := by
  by_contra hlt
  exact hs (prefix_of_le hp (not_lt.mp hlt) h)

theorem append_lt_append_iff (p : List α) : p ++ s < p ++ t ↔ s < t := by
  induction p with
  | nil => rfl
  | cons a p ih => simp [ih]

/-- The first place where `sub` starts in a text. -/
def indexOf (sub : List α) : List α → Option Nat
  | [] => if sub = [] then some 0 else none
  | a :: s => if sub <+: a :: s then some 0 else (indexOf sub s).map (· + 1)

theorem indexOf_eq_none {sub : List α} : indexOf sub s = none ↔ ¬ sub <:+: s := by
  induction s with
  | nil => simp [indexOf]
  | cons a s ih =>
    rw [indexOf, infix_cons_iff]
    split
    · rename_i h
      simp [h]
    · rename_i h
      rw [Option.map_eq_none_iff, ih]
      simp [h]

end Otterio
