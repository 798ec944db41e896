import Mathlib

/-!
# The first best of a list

A scan over a list keeps the element with the smallest key that it has seen; an element replaces the one
that is kept only if its key is smaller, so of several with the smallest key the first one stays.

* `firstBest_cases`: the scan ends with its start, or with an element that is better than everything before
  it and not worse than anything after it.
* `firstBest_congr`: an element that beats two starts is the result for both.
* `firstBest_insert`: elements that are added to the list can only replace the result by one of them, which
  is then better, or as good and placed before it.
-/

namespace Otterio

open List

variable {α κ : Type} [LinearOrder κ] (key : α → κ)

/-- The better of two; the first one if they are equally good. -/
def firstOf (s c : α) : α := if key c < key s then c else s

def firstBest (init : α) (l : List α) : α := l.foldl (firstOf key) init

theorem firstBest_append (init : α) (l l' : List α) :
    firstBest key init (l ++ l') = firstBest key (firstBest key init l) l' := foldl_append

theorem firstBest_cases (init : α) (l : List α) : (firstBest key init l = init ∧ ∀ c ∈ l, key init ≤ key c) ∨
      ∃ pre x post, l = pre ++ x :: post ∧ firstBest key init l = x ∧ key x < key init ∧
        (∀ c ∈ pre, key x < key c) ∧ ∀ c ∈ post, key x ≤ key c := by
  induction l generalizing init with
  | nil => exact .inl ⟨rfl, fun _ h => absurd h not_mem_nil⟩
  | cons a l ih =>
    show (firstBest key (firstOf key init a) l = _ ∧ _) ∨
      ∃ pre x post, _ ∧ firstBest key (firstOf key init a) l = x ∧ _
    unfold firstOf
    split_ifs with ha
    · rcases ih a with ⟨heq, hall⟩ | ⟨pre, x, post, rfl, heq, hlt, hpre, hpost⟩
      · exact .inr ⟨[], a, l, rfl, heq, ha, fun _ h => absurd h not_mem_nil, hall⟩
      · refine .inr ⟨a :: pre, x, post, rfl, heq, hlt.trans ha, ?_, hpost⟩
        rintro c (_ | ⟨_, hc⟩)
        · exact hlt
        · exact hpre c hc
    · rw [not_lt] at ha
      rcases ih init with ⟨heq, hall⟩ | ⟨pre, x, post, rfl, heq, hlt, hpre, hpost⟩
      · refine .inl ⟨heq, ?_⟩
        rintro c (_ | ⟨_, hc⟩)
        · exact ha
        · exact hall c hc
      · refine .inr ⟨a :: pre, x, post, rfl, heq, hlt, ?_, hpost⟩
        rintro c (_ | ⟨_, hc⟩)
        · exact hlt.trans_le ha
        · exact hpre c hc

variable {init : α} {l : List α}

/-- With more elements the result is not worse. -/
theorem firstBest_anti {l' : List α} (h : l ⊆ l') : key (firstBest key init l') ≤ key (firstBest key init l) := by
  have hle : ∀ c ∈ init :: l', key (firstBest key init l') ≤ key c := by
    rcases firstBest_cases key init l' with ⟨heq, hall⟩ | ⟨pre, x, post, rfl, heq, hlt, hpre, hpost⟩ <;> grind
  rcases firstBest_cases key init l with ⟨heq, -⟩ | ⟨pre, x, post, rfl, heq, -⟩ <;> rw [heq]
  · exact hle init (.head _)
  · exact hle x (.tail _ (h (mem_append_right pre (.head post))))

theorem firstBest_eq_self (h : ∀ c ∈ l, key init ≤ key c) : firstBest key init l = init := by
  rcases firstBest_cases key init l with ⟨heq, -⟩ | ⟨pre, x, post, rfl, -, hlt, -, -⟩
  · exact heq
  · exact absurd hlt (not_lt.mpr (h x (mem_append_right _ (.head _))))

theorem firstBest_split {x : α} {pre post : List α} (hinit : key x < key init) (hpre : ∀ c ∈ pre, key x < key c)
    (hpost : ∀ c ∈ post, key x ≤ key c) : firstBest key init (pre ++ x :: post) = x := by
  have hbefore : key x < key (firstBest key init pre) := by
    rcases firstBest_cases key init pre with ⟨heq, -⟩ | ⟨pre', y, post', rfl, heq, -, -, -⟩
    · rw [heq]
      exact hinit
    · rw [heq]
      exact hpre y (mem_append_right _ (.head _))
  rw [firstBest_append]
  show firstBest key (firstOf key (firstBest key init pre) x) post = x
  rw [firstOf, if_pos hbefore]
  exact firstBest_eq_self key hpost

/-- Elements that are worse than all those of one kind do not matter if there is one of that kind. -/
theorem firstBest_filter (p : α → Prop) [DecidablePred p]
    (hinit : ∀ c ∈ l, p c → key c < key init) (hworse : ∀ c ∈ l, ∀ d ∈ l, p c → ¬ p d → key c < key d)
    (hex : ∃ c ∈ l, p c) : firstBest key init l = firstBest key init (l.filter p) := by
  obtain ⟨c, hc, hpc⟩ := hex
  rcases firstBest_cases key init l with ⟨-, hall⟩ | ⟨pre, x, post, rfl, heq, hlt, hpre, hpost⟩
  · exact absurd (hinit c hc hpc) (not_lt.mpr (hall c hc))
  have hx : x ∈ pre ++ x :: post := mem_append_right _ (.head _)
  have hle : key x ≤ key c := by
    rcases mem_append.mp hc with hc | _ | ⟨_, hc⟩
    · exact (hpre c hc).le
    · exact le_rfl
    · exact hpost c hc
  have hpx : p x := by
    by_contra hpx
    exact absurd (hworse c hc x hx hpc hpx) (not_lt.mpr hle)
  rw [heq, filter_append, filter_cons_of_pos (by simpa using hpx)]
  symm
  apply firstBest_split key hlt
  · exact fun d hd => hpre d (mem_filter.mp hd).1
  · exact fun d hd => hpost d (mem_filter.mp hd).1

theorem firstBest_congr {a b : α} (ha : key (firstBest key a l) < key a)
    (hb : key (firstBest key a l) < key b) : firstBest key b l = firstBest key a l := by
  induction l generalizing a b with
  | nil => exact absurd ha (lt_irrefl _)
  | cons c l ih =>
    change key (firstBest key (firstOf key a c) l) < _ at ha hb
    show firstBest key (firstOf key b c) l = firstBest key (firstOf key a c) l
    by_cases hca : key c < key a
    · rw [firstOf, if_pos hca] at ha hb
      rw [firstOf, firstOf, if_pos hca]
      split_ifs with hcb
      · rfl
      · exact ih (hb.trans_le (not_lt.mp hcb)) hb
    · rw [firstOf, if_neg hca] at ha hb
      rw [firstOf, firstOf, if_neg hca]
      split_ifs with hcb
      · exact ih ha (ha.trans_le (not_lt.mp hca))
      · exact ih ha hb

theorem firstBest_insert (init : α) (l new l' : List α) :
    firstBest key init (l ++ new ++ l') = firstBest key init (l ++ l') ∨ firstBest key init (l ++ new ++ l') ∈ new ∧
        (key (firstBest key init (l ++ new ++ l')) < key (firstBest key init (l ++ l')) ∨
          key (firstBest key init (l ++ new ++ l')) = key (firstBest key init (l ++ l')) ∧
            firstBest key init (l ++ l') ∈ l') := by
  simp only [firstBest_append]
  generalize firstBest key init l = s
  rcases firstBest_cases key s new with ⟨heq, -⟩ | ⟨pre, x, post, hnew, heq, hlt, -, -⟩
  · rw [heq]
    exact .inl rfl
  rw [heq]
  have hmem : x ∈ new := by
    rw [hnew]
    exact mem_append_right _ (.head _)
  rcases firstBest_cases key x l' with ⟨hx, hall⟩ | ⟨_, y, _, _, hy, hyx, -, -⟩
  · -- The new element stays, and the old result is the start or an element of the rest.
    rw [hx]
    refine .inr ⟨hmem, ?_⟩
    rcases firstBest_cases key s l' with ⟨hs, -⟩ | ⟨pre', z, post', rfl, hz, -, -, -⟩
    · rw [hs]
      exact .inl hlt
    · have hz' : z ∈ pre' ++ z :: post' := mem_append_right _ (.head _)
      rw [hz]
      rcases (hall z hz').lt_or_eq with h | h
      · exact .inl h
      · exact .inr ⟨h, hz'⟩
  · left
    symm
    exact firstBest_congr key (hy ▸ hyx) (hy ▸ hyx.trans hlt)

end Otterio
