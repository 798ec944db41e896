import Mathlib

/-!
# Tables, and tables of sets

* `setAll`: a table with the entries of another one, `for k, v := range src { m[k] = v }`.
* `Multimap`: a table of sets. `values m k` is the set of a key, empty if there is none. Values are
  added to and removed from the sets of several keys; the `mem_` lemmas tell what the sets have
  afterwards.
-/

namespace Otterio

open List Option

open Std (ExtTreeMap ExtTreeSet TransOrd LawfulEqOrd)

variable {K V : Type} [Ord K] [TransOrd K] [LawfulEqOrd K]

/-- A table with the entries of `src` written to it. -/
def setAll (m src : ExtTreeMap K V compare) : ExtTreeMap K V compare :=
  src.toList.foldl (fun m e => m.insert e.1 e.2) m

theorem getElem?_foldl_insert {l : List (K × V)} (m : ExtTreeMap K V compare) {k : K} {o : Option V}
    (h : ∀ v, o = some v ↔ (k, v) ∈ l) : (l.foldl (fun m e => m.insert e.1 e.2) m)[k]? = o.or m[k]? := by
  induction l generalizing m o with
  | nil =>
    obtain rfl : o = none := by
      rw [eq_none_iff_forall_ne_some]
      intro v hv
      exact not_mem_nil ((h v).mp hv)
    rfl
  | cons e l ih =>
    obtain ⟨k', v'⟩ := e
    rw [foldl_cons]
    by_cases hmem : ∃ v, (k, v) ∈ l
    · -- a later entry has the key
      obtain ⟨v, hv⟩ := hmem
      have ho : o = some v := (h v).mpr (mem_cons_of_mem _ hv)
      rw [@ih (m.insert k' v') o fun w => ?_, ho, some_or, some_or]
      rw [ho]
      constructor
      · rintro ⟨⟩
        exact hv
      · intro hw
        rw [← ho]
        exact (h w).mpr (mem_cons_of_mem _ hw)
    · have hnone : ∀ w, (none : Option V) = some w ↔ (k, w) ∈ l := fun w =>
        iff_of_false (some_ne_none w).symm fun hw => hmem ⟨w, hw⟩
      rw [@ih (m.insert k' v') none hnone, none_or, ExtTreeMap.getElem?_insert]
      by_cases hk : k' = k
      · rw [if_pos (Std.compare_eq_iff_eq.mpr hk), (h v').mpr (by rw [hk]; exact mem_cons_self), some_or]
      · have ho : o = none := by
          rw [eq_none_iff_forall_ne_some]
          intro v hv
          rcases mem_cons.mp ((h v).mp hv) with heq | hl
          · exact hk (Prod.mk.inj heq).1.symm
          · exact hmem ⟨v, hl⟩
        rw [if_neg (mt Std.compare_eq_iff_eq.mp hk), ho, none_or]

theorem getElem?_setAll (m src : ExtTreeMap K V compare) (k : K) : (setAll m src)[k]? = src[k]?.or m[k]? :=
  getElem?_foldl_insert m fun _ => ExtTreeMap.mem_toList_iff_getElem?_eq_some.symm

/-! ## Tables of sets -/

variable [Ord V] [TransOrd V] [LawfulEqOrd V]

abbrev Multimap (K V : Type) [Ord K] [Ord V] := ExtTreeMap K (ExtTreeSet V compare) compare

namespace Multimap

def values (m : Multimap K V) (k : K) : ExtTreeSet V compare := m[k]?.getD ∅

/-- A value is added to the set of a key, which is made if there is none. -/
def add (m : Multimap K V) (k : K) (v : V) : Multimap K V := m.insert k ((m.values k).insert v)

def remove (m : Multimap K V) (k : K) (v : V) : Multimap K V :=
  match m[k]? with
  | none => m
  | some s => m.insert k (s.erase v)

def addEach (m : Multimap K V) (ks : List K) (v : V) : Multimap K V :=
  ks.foldl (fun m k => m.add k v) m

def removeEach (m : Multimap K V) (ks : List K) (v : V) : Multimap K V :=
  ks.foldl (fun m k => m.remove k v) m

def removeAll (m : Multimap K V) (v : V) : Multimap K V :=
  m.removeEach (m.keys.filter fun k => (m.values k).contains v) v

variable [DecidableEq K] {m : Multimap K V} {k k' : K} {v v' : V}

omit [TransOrd V] [LawfulEqOrd V] in
theorem values_insert (s : ExtTreeSet V compare) : values (m.insert k s) k' = if k = k' then s else m.values k' := by
  unfold values
  rw [ExtTreeMap.getElem?_insert]
  by_cases h : k = k'
  · rw [if_pos (Std.compare_eq_iff_eq.mpr h), if_pos h, getD_some]
  · rw [if_neg (mt Std.compare_eq_iff_eq.mp h), if_neg h]

theorem mem_add : v' ∈ (m.add k v).values k' ↔ (k' = k ∧ v' = v) ∨ v' ∈ m.values k' := by
  rw [add, values_insert]
  by_cases h : k = k'
  · subst h
    rw [if_pos rfl, ExtTreeSet.mem_insert, Std.compare_eq_iff_eq, eq_comm]
    simp
  · rw [if_neg h]
    simp [Ne.symm h]

theorem mem_remove : v' ∈ (m.remove k v).values k' ↔ v' ∈ m.values k' ∧ ¬ (k' = k ∧ v' = v) := by
  unfold remove
  cases hs : m[k]? with
  | none =>
    -- the key has no set
    refine (and_iff_left_of_imp fun hmem => ?_).symm
    rintro ⟨rfl, -⟩
    rw [values, hs, getD_none] at hmem
    exact ExtTreeSet.not_mem_empty hmem
  | some s =>
    rw [values_insert]
    by_cases h : k = k'
    · subst h
      have hvalues : m.values k = s := by rw [values, hs, getD_some]
      rw [if_pos rfl, ExtTreeSet.mem_erase, hvalues, ne_eq, Std.compare_eq_iff_eq, and_comm, eq_comm]
      simp
    · rw [if_neg h]
      simp [Ne.symm h]

theorem mem_addEach {ks : List K} : v' ∈ (m.addEach ks v).values k' ↔ (k' ∈ ks ∧ v' = v) ∨ v' ∈ m.values k' := by
  unfold addEach
  induction ks generalizing m with
  | nil => simp
  | cons k ks ih =>
    rw [foldl_cons, ih, mem_add, mem_cons]
    tauto

/-- Values are added one after the other, each to the sets of its keys. -/
theorem mem_foldl_addEach {W : Type} {f : W → List K} {l : List (V × W)} :
    v' ∈ Multimap.values (l.foldl (fun m e => m.addEach (f e.2) e.1) m) k' ↔
      (∃ w, (v', w) ∈ l ∧ k' ∈ f w) ∨ v' ∈ m.values k' := by
  induction l generalizing m with
  | nil => simp
  | cons e l ih =>
    obtain ⟨v, w⟩ := e
    rw [foldl_cons, ih, mem_addEach]
    simp only [mem_cons, Prod.mk.injEq]
    constructor
    · rintro (⟨w', hw', hk⟩ | ⟨hk, rfl⟩ | hmem)
      · exact .inl ⟨w', .inr hw', hk⟩
      · exact .inl ⟨w, .inl ⟨rfl, rfl⟩, hk⟩
      · exact .inr hmem
    · rintro (⟨w', ⟨rfl, rfl⟩ | hw', hk⟩ | hmem)
      · exact .inr (.inl ⟨hk, rfl⟩)
      · exact .inl ⟨w', hw', hk⟩
      · exact .inr (.inr hmem)

theorem mem_removeEach {ks : List K} :
    v' ∈ (m.removeEach ks v).values k' ↔ v' ∈ m.values k' ∧ ¬ (k' ∈ ks ∧ v' = v) := by
  unfold removeEach
  induction ks generalizing m with
  | nil => simp
  | cons k ks ih =>
    rw [foldl_cons, ih, mem_remove, mem_cons]
    tauto

theorem mem_removeAll : v' ∈ (m.removeAll v).values k' ↔ v' ∈ m.values k' ∧ v' ≠ v := by
  unfold removeAll
  rw [mem_removeEach]
  refine and_congr_right fun hmem => not_congr (and_iff_right_of_imp ?_)
  rintro rfl
  refine mem_filter.mpr ⟨?_, ExtTreeSet.contains_iff_mem.mpr hmem⟩
  -- a key whose set is not empty
  rw [ExtTreeMap.mem_keys, ExtTreeMap.mem_iff_isSome_getElem?]
  cases hs : m[k']? with
  | none =>
    rw [values, hs, getD_none] at hmem
    exact absurd hmem ExtTreeSet.not_mem_empty
  | some s => rfl

end Multimap

end Otterio
