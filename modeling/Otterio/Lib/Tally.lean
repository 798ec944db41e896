import Mathlib.Data.List.Dedup
import Mathlib.Data.List.Perm.Basic
import Mathlib.Tactic

/-!
# Occurrence counts and elections over a map in any order

A loop `for _, x := range xs { m[x]++ }` followed by a loop over `m` that keeps the entry with the
largest count elects one of the values of `xs`. A Go map is ranged over in an unspecified order, so
the second loop sees some permutation of the entries.

* `tally xs`: the entries of the count map. Its keys are the values of `xs`, each once
  (`mem_tally`).
* `electBy`: the election loop, with a rule for ties and a function applied to the winner. Its
  count is the largest one (`electBy_count_ge`), its winner is an entry with that count
  (`electBy_mem`), and a value with strictly more occurrences than any other wins whatever the
  order and the tie rule (`electBy_of_dominant`).
-/

namespace Otterio

open List

/-- An order in which a map's entries are visited. -/
structure IterOrder (α : Type) where
  order : List α → List α
  perm : ∀ l, (order l).Perm l

namespace IterOrder

variable {α : Type}

def asListed : IterOrder α := ⟨id, fun _ => .refl _⟩

def reversed : IterOrder α := ⟨List.reverse, fun l => l.reverse_perm⟩

def first [DecidableEq α] (x : α) : IterOrder α where
  order l := if x ∈ l then x :: l.erase x else l
  perm l := by
    split
    · rename_i h
      exact (perm_cons_erase h).symm
    · exact .refl _

variable {l : List α} {x : α}

theorem exists_order_cons [DecidableEq α] (h : x ∈ l) :
    ∃ (o : IterOrder α) (l' : List α), o.order l = x :: l' ∧ ∀ y ∈ l', y ∈ l :=
  ⟨first x, l.erase x, if_pos h, fun _ => mem_of_mem_erase⟩

@[simp] theorem mem_order (o : IterOrder α) : x ∈ o.order l ↔ x ∈ l := (o.perm l).mem_iff

@[simp] theorem order_nil (o : IterOrder α) : o.order [] = [] := (o.perm []).eq_nil

end IterOrder

variable {α β : Type}

/-! ## The count map -/

section Tally

variable [DecidableEq α]

/-- The entries of the map that `m[x]++` over `xs` builds. -/
def tally (xs : List α) : List (α × Nat) := xs.dedup.map fun x => (x, xs.count x)

variable {xs : List α} {e : α × Nat}

theorem mem_tally : e ∈ tally xs ↔ e.1 ∈ xs ∧ e.2 = xs.count e.1 := by
  unfold tally
  simp only [mem_map, mem_dedup]
  constructor
  · rintro ⟨x, hx, rfl⟩; exact ⟨hx, rfl⟩
  · rintro ⟨hx, hc⟩; exact ⟨e.1, hx, by rw [← hc]⟩

theorem mem_tally_of_mem {x : α} (h : x ∈ xs) : (x, xs.count x) ∈ tally xs := mem_tally.mpr ⟨h, rfl⟩

theorem tally_count_pos (h : e ∈ tally xs) : 0 < e.2 := by
  obtain ⟨hx, hc⟩ := mem_tally.mp h
  rw [hc]
  exact count_pos_iff.mpr hx

@[simp] theorem tally_nil : tally ([] : List α) = [] := rfl

theorem count_add_count_le {x y : α} (h : x ≠ y) (xs : List α) : xs.count x + xs.count y ≤ xs.length := by
  induction xs with
  | nil => simp
  | cons z zs ih =>
    simp only [count_cons, length_cons, beq_iff_eq]
    split <;> split <;> simp_all <;> omega

end Tally

/-! ## The election loop -/

/-- `for k, count := range m { if count > max || count == max && t { max, best = count, f k } }`,
from the pair `(max, best)`. -/
def electBy (t : α → β → Bool) (f : α → β) (entries : List (α × Nat)) (init : Nat × β) : Nat × β :=
  entries.foldl
    (fun st e => if st.1 < e.2 || (st.1 == e.2 && t e.1 st.2) then (e.2, f e.1) else st) init

variable {t : α → β → Bool} {f : α → β}

@[simp] theorem electBy_nil (init : Nat × β) : electBy t f [] init = init := rfl

theorem electBy_cons (e : α × Nat) (l : List (α × Nat)) (init : Nat × β) : electBy t f (e :: l) init = electBy t f l
      (if init.1 < e.2 || (init.1 == e.2 && t e.1 init.2) then (e.2, f e.1) else init) := rfl

theorem electBy_init_le (l : List (α × Nat)) (init : Nat × β) : init.1 ≤ (electBy t f l init).1 := by
  induction l generalizing init with
  | nil => exact Nat.le_refl _
  | cons e l ih =>
    rw [electBy_cons]
    refine Nat.le_trans ?_ (ih _)
    split
    · rename_i h; simp only [Bool.or_eq_true, decide_eq_true_eq, Bool.and_eq_true, beq_iff_eq] at h
      omega
    · exact Nat.le_refl _

variable {l : List (α × Nat)} {e : α × Nat}

theorem electBy_count_ge (he : e ∈ l) (init : Nat × β) : e.2 ≤ (electBy t f l init).1 := by
  induction l generalizing init with
  | nil => cases he
  | cons a l ih =>
    rw [electBy_cons]
    rcases mem_cons.mp he with rfl | he
    · refine Nat.le_trans ?_ (electBy_init_le l _)
      split
      · exact Nat.le_refl _
      · rename_i h; simp only [Bool.or_eq_true, decide_eq_true_eq, not_or] at h; omega
    · exact ih he _

theorem electBy_mem (l : List (α × Nat)) (init : Nat × β) :
    electBy t f l init = init ∨ ∃ e ∈ l, electBy t f l init = (e.2, f e.1) := by
  induction l generalizing init with
  | nil => exact .inl rfl
  | cons a l ih =>
    rw [electBy_cons]
    split
    · rcases ih (a.2, f a.1) with h | ⟨e, he, h⟩
      · exact .inr ⟨a, mem_cons_self, h⟩
      · exact .inr ⟨e, mem_cons_of_mem _ he, h⟩
    · rcases ih init with h | ⟨e, he, h⟩
      · exact .inl h
      · exact .inr ⟨e, mem_cons_of_mem _ he, h⟩

/-- Over positive counts and from count `0`, a nonempty map elects one of its entries. -/
theorem electBy_mem_of_pos (hpos : ∀ e ∈ l, 0 < e.2) (hne : l ≠ []) (b : β) :
    ∃ e ∈ l, electBy t f l (0, b) = (e.2, f e.1) := by
  rcases electBy_mem (t := t) (f := f) l (0, b) with h | h
  · obtain ⟨e, he⟩ := exists_mem_of_ne_nil l hne
    have := electBy_count_ge (t := t) (f := f) he (0, b)
    rw [h] at this
    have := hpos e he
    omega
  · exact h

/-- An entry with strictly more occurrences than every other entry is elected. -/
theorem electBy_of_dominant (he : e ∈ l) (hdom : ∀ e' ∈ l, e'.1 ≠ e.1 → e'.2 < e.2)
    (huniq : ∀ e' ∈ l, e'.1 = e.1 → e' = e) (hpos : 0 < e.2) (b : β) : electBy t f l (0, b) = (e.2, f e.1) := by
  have hge := electBy_count_ge (t := t) (f := f) he (0, b)
  rcases electBy_mem (t := t) (f := f) l (0, b) with h | ⟨e', he', h⟩
  · rw [h] at hge
    omega
  · by_cases hk : e'.1 = e.1
    · rw [h, huniq e' he' hk]
    · have := hdom e' he' hk
      rw [h] at hge
      omega

/-- Without a rule for ties the first of the entries with the largest count is elected. -/
theorem electBy_first (hpos : 0 < e.2) (hmax : ∀ e' ∈ l, e'.2 ≤ e.2) (b : β) :
    electBy (fun _ _ => false) f (e :: l) (0, b) = (e.2, f e.1) := by
  rw [electBy_cons, if_pos (by simpa using hpos)]
  induction l with
  | nil => rfl
  | cons a l ih =>
    have ha := hmax a mem_cons_self
    rw [electBy_cons, if_neg (by simpa using ha)]
    exact ih fun e' he' => hmax e' (mem_cons_of_mem _ he')

/-- An entry that no other one beats, and that the rule for ties prefers, is elected. -/
theorem electBy_of_preferred (he : e ∈ l) (hmax : ∀ e' ∈ l, e'.2 ≤ e.2) (hwins : ∀ b, t e.1 b = true)
    (hkeeps : ∀ e' ∈ l, t e'.1 (f e.1) = true → e'.1 = e.1) {init : Nat × β} (hinit : init.1 ≤ e.2) :
    (electBy t f l init).2 = f e.1 := by
  induction l using List.reverseRecOn with
  | nil => cases he
  | append_singleton l a ih =>
    have hstep : electBy t f (l ++ [a]) init = if (electBy t f l init).1 < a.2 ||
        ((electBy t f l init).1 == a.2 && t a.1 (electBy t f l init).2) then (a.2, f a.1)
        else electBy t f l init := by
      simp [electBy, foldl_append]
    have hle : (electBy t f l init).1 ≤ e.2 := by
      rcases electBy_mem (t := t) (f := f) l init with h | ⟨x, hx, h⟩
      · rw [h]
        exact hinit
      · rw [h]
        exact hmax x (mem_append_left _ hx)
    rw [hstep]
    by_cases hmem : e ∈ l
    · have ih := ih hmem (fun x hx => hmax x (mem_append_left _ hx))
        (fun x hx => hkeeps x (mem_append_left _ hx))
      split_ifs with hbeats
      · have hge := electBy_count_ge (t := t) (f := f) hmem init
        have ha := hmax a (by simp)
        rw [ih] at hbeats
        simp only [Bool.or_eq_true, decide_eq_true_eq, Bool.and_eq_true, beq_iff_eq] at hbeats
        rcases hbeats with hlt | ⟨-, htie⟩
        · omega
        · exact congrArg f (hkeeps a (by simp) htie)
      · exact ih
    · obtain rfl : e = a := by
        rcases mem_append.mp he with h | h
        · exact absurd h hmem
        · exact mem_singleton.mp h
      rw [if_pos]
      simp only [Bool.or_eq_true, decide_eq_true_eq, Bool.and_eq_true, beq_iff_eq, hwins, and_true]
      omega

section Election

variable [DecidableEq α] {xs : List α}

/-- A value with strictly more occurrences than any other one wins, in every order. -/
theorem electBy_tally_of_dominant (o : IterOrder (α × Nat)) {x : α}
    (hx : x ∈ xs) (hdom : ∀ y ∈ xs, y ≠ x → xs.count y < xs.count x) (b : β) :
    electBy t f (o.order (tally xs)) (0, b) = (xs.count x, f x) := by
  have hmem : (x, xs.count x) ∈ o.order (tally xs) := by
    exact o.mem_order.mpr (mem_tally_of_mem hx)
  refine electBy_of_dominant (e := (x, xs.count x)) hmem ?_ ?_ (count_pos_iff.mpr hx) b
  · intro e' he' hne
    rw [o.mem_order] at he'
    obtain ⟨h1, h2⟩ := mem_tally.mp he'
    rw [h2]
    exact hdom _ h1 hne
  · intro e' he' heq
    rw [o.mem_order] at he'
    obtain ⟨-, h2⟩ := mem_tally.mp he'
    exact Prod.ext heq (by rw [h2, heq])

theorem electBy_tally_mem (o : IterOrder (α × Nat)) (hne : xs ≠ []) (b : β) :
    ∃ x ∈ xs, electBy t f (o.order (tally xs)) (0, b) = (xs.count x, f x) := by
  obtain ⟨y, hy⟩ := exists_mem_of_ne_nil xs hne
  have hin : (y, xs.count y) ∈ o.order (tally xs) := by
    exact o.mem_order.mpr (mem_tally_of_mem hy)
  obtain ⟨e, he, h⟩ := electBy_mem_of_pos (t := t) (f := f) (l := o.order (tally xs))
    (fun e he => tally_count_pos (o.mem_order.mp he)) (ne_nil_of_mem hin) b
  obtain ⟨h1, h2⟩ := mem_tally.mp (o.mem_order.mp he)
  exact ⟨e.1, h1, by rw [h, h2]⟩

end Election

end Otterio
