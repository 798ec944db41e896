import Mathlib

/-!
# Totals over a forest

Nodes have weights and children. The total of a node is its weight and what its children pass on to it:
`φ` of their totals, where `φ` is a projection that may drop a part of a weight.

* `Totals.graft`: how the totals change if weights are added to children of one node, old ones and new
  ones. Its total grows by what is added, once each.
-/

namespace Otterio

variable {K M : Type} [AddCommMonoid M] {φ : M →+ M}

def Totals (φ : M →+ M) (children : K → Finset K) (weight t : K → M) : Prop :=
  ∀ k, t k = weight k + ∑ c ∈ children k, φ (t c)

namespace Totals

variable {children : K → Finset K} {weight t : K → M}

theorem eq_zero (h : Totals φ children weight t) {k : K} (hw : weight k = 0) (hc : children k = ∅) : t k = 0 := by
  rw [h k, hw, hc, Finset.sum_empty, add_zero]

/-- If children are always of a lower rank, there are totals. -/
theorem exists_of_rank (rank : K → Nat) (h : ∀ k, ∀ c ∈ children k, rank c < rank k) (weight : K → M) :
    ∃ t, Totals φ children weight t := by
  let total : K → M := (measure rank).wf.fix fun k rec =>
    weight k + ∑ c ∈ (children k).attach, φ (rec c.1 (h k c.1 c.2))
  refine ⟨total, fun k => ?_⟩
  show (measure rank).wf.fix _ k = _
  rw [WellFounded.fix_eq]
  congr 1
  exact Finset.sum_attach (children k) fun c => φ (total c)

variable [DecidableEq K]

/-- The weights `added` come to the nodes `grafts`, which are children of `root` or new, and become
children of `root`. -/
theorem graft (h : Totals φ children weight t) (hφ : ∀ m, φ (φ m) = φ m) {root : K} {grafts : Finset K}
    {added : K → M} (hroot : root ∉ grafts) (hself : root ∉ children root)
    (hnew : ∀ k ∈ grafts, k ∉ children root → weight k = 0 ∧ children k = ∅)
    (hparent : ∀ k, k ≠ root → root ∉ children k ∧ Disjoint (children k) grafts) :
    Totals φ (fun k => if k = root then children root ∪ grafts else children k)
      (fun k => if k ∈ grafts then weight k + φ (added k) else weight k)
      (fun k => if k = root then t root + ∑ g ∈ grafts, φ (added g)
        else if k ∈ grafts then t k + φ (added k) else t k) := by
  intro k
  dsimp only
  by_cases hk : k = root
  · subst hk
    rw [if_pos rfl, if_neg hroot, if_pos rfl]
    have hterm : ∀ c ∈ children k ∪ grafts, φ (if c = k then t k + ∑ g ∈ grafts, φ (added g)
          else if c ∈ grafts then t c + φ (added c) else t c) =
          φ (t c) + if c ∈ grafts then φ (added c) else 0 := by
      intro c hc
      have hne : c ≠ k := by
        rintro rfl
        rcases Finset.mem_union.mp hc with hc | hc
        · exact hself hc
        · exact hroot hc
      rw [if_neg hne]
      split_ifs
      · rw [map_add, hφ]
      · rw [add_zero]
    -- A node that is new passes on nothing but what is added to it.
    have hold : ∑ c ∈ children k ∪ grafts, φ (t c) = ∑ c ∈ children k, φ (t c) := by
      refine (Finset.sum_subset Finset.subset_union_left fun c hc hnot => ?_).symm
      have hgraft := (Finset.mem_union.mp hc).resolve_left hnot
      obtain ⟨hw, hch⟩ := hnew c hgraft hnot
      rw [h.eq_zero hw hch, map_zero]
    rw [Finset.sum_congr rfl hterm, Finset.sum_add_distrib, hold, Finset.sum_ite_mem,
      Finset.inter_eq_right.mpr Finset.subset_union_right, ← add_assoc, ← h k]
  · obtain ⟨hnot, hdisj⟩ := hparent k hk
    have hsame : ∑ c ∈ children k, φ (if c = root then t root + ∑ g ∈ grafts, φ (added g)
        else if c ∈ grafts then t c + φ (added c) else t c) = ∑ c ∈ children k, φ (t c) := by
      refine Finset.sum_congr rfl fun c hc => ?_
      have hne : c ≠ root := fun hc' => hnot (hc' ▸ hc)
      rw [if_neg hne, if_neg (Finset.disjoint_left.mp hdisj hc)]
    rw [if_neg hk, if_neg hk, hsame]
    split_ifs
    · rw [h k]
      abel
    · exact h k

end Totals

end Otterio
