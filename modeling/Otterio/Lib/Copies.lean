import Mathlib

/-!
# Copies of a value at several places

A list has at each place a copy of a value or nothing. A read takes the first copy (`first`). As long
as there is one copy only, a change of that place is what the next read sees (`OnlyAt.first_set`). A
second copy is seen after the first one is taken away (`Sole.of_first_set_none`).
-/

namespace Otterio

open List

variable {β : Type} {l : List (Option β)} {idx : Nat}

def first (l : List (Option β)) : Option β := l.findSome? id

def firstPlace (l : List (Option β)) : Option Nat := l.findIdx? Option.isSome

/-- There is no copy but at `idx`. -/
def OnlyAt (l : List (Option β)) (idx : Nat) : Prop := ∀ i b, l[i]? = some (some b) → i = idx

def Sole (l : List (Option β)) : Prop := ∀ (i j : Nat) a b, l[i]? = some (some a) → l[j]? = some (some b) → i = j

@[simp] theorem firstPlace_cons_some (b : β) (l : List (Option β)) : firstPlace (some b :: l) = some 0 := by
  rfl

@[simp] theorem firstPlace_cons_none (l : List (Option β)) : firstPlace (none :: l) = (firstPlace l).map (· + 1) := by
  rw [firstPlace, findIdx?_cons]
  rfl

theorem first_eq_none (h : ∀ (i : Nat) b, l[i]? ≠ some (some b)) : first l = none := by
  rw [first, findSome?_eq_none_iff]
  intro x hx
  obtain ⟨i, hi⟩ := mem_iff_getElem?.mp hx
  cases x with
  | none => rfl
  | some b => exact absurd hi (h i b)

theorem OnlyAt.first_eq (h : OnlyAt l idx) {v : Option β} (hv : l[idx]? = some v) : first l = v := by
  induction l generalizing idx with
  | nil => cases hv
  | cons x l ih =>
    cases idx with
    | zero =>
      obtain rfl := Option.some.inj hv
      cases x with
      | some b => rfl
      | none =>
        have hrest : first l = none :=
          first_eq_none fun i b hi => absurd (h (i + 1) b hi) (Nat.succ_ne_zero i)
        exact hrest
    | succ idx =>
      have hx : x = none := by
        cases x with
        | none => rfl
        | some b => exact absurd (h 0 b rfl) (Nat.succ_ne_zero idx).symm
      subst hx
      exact ih (fun i b hi => Nat.succ.inj (h (i + 1) b hi)) hv

theorem OnlyAt.set (h : OnlyAt l idx) (v : Option β) : OnlyAt (l.set idx v) idx := by
  intro i b hi
  by_contra hne
  rw [getElem?_set_ne (Ne.symm hne)] at hi
  exact hne (h i b hi)

theorem OnlyAt.first_set (h : OnlyAt l idx) (hidx : idx < l.length) (v : Option β) : first (l.set idx v) = v :=
  (h.set v).first_eq (getElem?_set_self hidx)

theorem OnlyAt.sole (h : OnlyAt l idx) : Sole l :=
  fun i j a b hi hj => (h i a hi).trans (h j b hj).symm

theorem getElem?_firstPlace (h : firstPlace l = some idx) : ∃ b, l[idx]? = some (some b) := by
  obtain ⟨hidx, hsome, -⟩ := findIdx?_eq_some_iff_getElem.mp h
  obtain ⟨b, hb⟩ := Option.isSome_iff_exists.mp hsome
  exact ⟨b, by rw [getElem?_eq_getElem hidx, hb]⟩

theorem not_copy_of_firstPlace (h : firstPlace l = none) (i : Nat) (b : β) : l[i]? ≠ some (some b) := by
  intro hi
  have := findIdx?_eq_none_iff.mp h _ (mem_of_getElem? hi)
  cases this

theorem Sole.onlyAt_of_firstPlace (h : Sole l) (hidx : ∀ i, firstPlace l = some i → i = idx) : OnlyAt l idx := by
  intro i b hi
  cases hplace : firstPlace l with
  | none => exact absurd hi (not_copy_of_firstPlace hplace i b)
  | some k =>
    obtain ⟨a, ha⟩ := getElem?_firstPlace hplace
    rw [h i k b a hi ha, hidx k hplace]

theorem OnlyAt.of_sole_set {b : β} (h : Sole (l.set idx (some b))) (hidx : idx < l.length) : OnlyAt l idx := by
  intro i a hi
  by_contra hne
  refine hne (h i idx a b ?_ (getElem?_set_self hidx))
  rw [getElem?_set_ne (Ne.symm hne), hi]

theorem Sole.of_first_set_none (h : first (l.set idx none) = none) : Sole l := by
  have honly : OnlyAt l idx := by
    intro i b hi
    by_contra hne
    rw [first, findSome?_eq_none_iff] at h
    have hcopy : (l.set idx none)[i]? = some (some b) := by
      rw [getElem?_set_ne (Ne.symm hne), hi]
    cases h _ (mem_of_getElem? hcopy)
  exact honly.sole

theorem sole_of_firstPlace_none (h : firstPlace l = none) : Sole l :=
  fun i _ a _ hi => absurd hi (not_copy_of_firstPlace h i a)

end Otterio
