import Otterio.Pools.Server

/-!
# The free space of the pools

`getServerPoolsAvailableSpace` is meant to report what a pool has left once the object is stored. It subtracts
the negated size, and so it adds the size to the free space. The draw is right as long as the sums fit in 64 bits
(`getAvailablePoolIdx_spec`).
-/

namespace Otterio.Pools

open List

namespace Space

variable (space : Space) (size i : Nat)

def free : Nat := ((space.disks i).map fun disk => disk.totalSpace.toNat - disk.usedSpace.toNat).sum

/-- The reserve of a pool, as the code computes it from the total. -/
def reserve : Nat := (space.wantLeft ((space.disks i).foldl (fun total disk => total + disk.totalSpace) 0)).toNat

/-- The pool has room for the object, and more than its reserve is left. -/
def Keeps : Prop := size ≤ space.free i ∧ space.reserve i < space.free i - size

def left : Nat := if size ≤ space.free i ∧ space.reserve i < space.free i - size then space.free i - size else 0

/-- `n` pools report what they should, and whatever is drawn, it is a pool that keeps its reserve, or there is
none. -/
def Accounted (n : Nat) : Prop :=
  (getServerPoolsAvailableSpace n space size).map (fun p => (p.index, p.available.toNat)) =
    (range n).map (fun i => (i, space.left size i)) ∧
  ∀ rand, (getAvailablePoolIdx n { space with rand } size).elim (∀ i < n, ¬ space.Keeps size i)
    fun i => i < n ∧ space.Keeps size i

end Space

theorem toNat_foldl_add {α : Type} (f : α → UInt64) {l : List α} {a : UInt64}
    (h : a.toNat + (l.map fun x => (f x).toNat).sum < 2 ^ 64) :
    (l.foldl (fun sum x => sum + f x) a).toNat = a.toNat + (l.map fun x => (f x).toNat).sum := by
  induction l generalizing a with
  | nil => rfl
  | cons x l ih =>
    rw [map_cons, sum_cons] at h ⊢
    have hadd : (a + f x).toNat = a.toNat + (f x).toNat := by
      rw [UInt64.toNat_add]
      omega
    rw [foldl_cons, ih (by omega), hadd, Nat.add_assoc]

theorem chooseLoop_spec {choose a : UInt64} {pools : List PoolAvailableSpace} (hle : a ≤ choose)
    (hfits : a.toNat + (pools.map (·.available.toNat)).sum < 2 ^ 64)
    (hlt : choose.toNat < a.toNat + (pools.map (·.available.toNat)).sum) :
    ∃ p ∈ pools, p.available ≠ 0 ∧ chooseLoop choose a pools = some p.index := by
  induction pools generalizing a with
  | nil => exact absurd (UInt64.le_iff_toNat_le.mp hle) (not_le.mpr hlt)
  | cons p pools ih =>
    rw [map_cons, sum_cons] at hfits hlt
    by_cases hstop : a + p.available > choose ∧ p.available > 0
    · exact ⟨p, mem_cons_self, (UInt64.ne_of_lt hstop.2).symm, if_pos hstop⟩
    · -- A pool without space does not move the sum, which is still at most `choose`.
      have hadd : (a + p.available).toNat = a.toNat + p.available.toNat := by
        rw [UInt64.toNat_add]
        omega
      have hnext : a + p.available ≤ choose := by
        simp only [gt_iff_lt, UInt64.lt_iff_toNat_lt, UInt64.le_iff_toNat_le, hadd, UInt64.toNat_zero] at hstop hle ⊢
        omega
      obtain ⟨q, hq, hne, hloop⟩ := ih hnext (by omega) (by omega)
      exact ⟨q, mem_cons_of_mem p hq, hne, (if_neg hstop).trans hloop⟩

variable {space : Space} {n size : Nat}

theorem getAvailablePoolIdx_spec {pools : List PoolAvailableSpace}
    (hpools : getServerPoolsAvailableSpace n space size = pools)
    (hfits : (pools.map (·.available.toNat)).sum < 2 ^ 64) :
    (getAvailablePoolIdx n space size).elim (∀ p ∈ pools, p.available = 0)
      fun i => ∃ p ∈ pools, p.available ≠ 0 ∧ p.index = i := by
  rw [← Nat.zero_add (sum _)] at hfits
  have htotal : (totalAvailable pools).toNat = 0 + (pools.map (·.available.toNat)).sum :=
    toNat_foldl_add PoolAvailableSpace.available hfits
  rw [getAvailablePoolIdx, hpools]
  by_cases hzero : totalAvailable pools = 0
  · rw [if_pos hzero]
    intro p hp
    rw [hzero, Nat.zero_add] at htotal
    exact UInt64.toNat_inj.mp (sum_eq_zero_iff.mp htotal.symm _ (mem_map_of_mem hp))
  · have hlt : (space.rand % totalAvailable pools).toNat < (totalAvailable pools).toNat := by
      rw [UInt64.toNat_mod]
      exact Nat.mod_lt _ (Nat.pos_of_ne_zero fun h => hzero (UInt64.toNat_inj.mp h))
    obtain ⟨p, hp, hne, hloop⟩ := chooseLoop_spec UInt64.zero_le hfits (htotal ▸ hlt)
    rw [if_neg hzero, hloop]
    exact ⟨p, hp, hne, rfl⟩

theorem availableSpace_iff {i : Nat} (hsize : size < 2 ^ 63)
    (hused : ∀ disk ∈ space.disks i, disk.usedSpace ≤ disk.totalSpace) (hfits : space.free i < 2 ^ 64) :
    (availableSpace space size i).available.toNat = space.left size i ↔ size = 0 ∨ space.free i < size ∨
      space.free i - size ≤ space.reserve i ∧ (space.free i + size) % 2 ^ 64 ≤ space.reserve i := by
  have hmap : (0 : UInt64).toNat + ((space.disks i).map fun disk => (disk.totalSpace - disk.usedSpace).toNat).sum =
      space.free i := by
    rw [map_congr_left fun disk h => UInt64.toNat_sub_of_le _ _ (hused disk h)]
    exact Nat.zero_add _
  have hfree := (toNat_foldl_add (fun disk : Disk => disk.totalSpace - disk.usedSpace) (hmap.trans_lt hfits)).trans hmap
  have hnat : (UInt64.ofNat size).toNat = size := UInt64.toNat_ofNat_of_lt' (hsize.trans (by decide))
  unfold Space.left availableSpace Space.reserve
  simp only [UInt64.sub_neg, Int.toNat_natCast]
  generalize (space.disks i).foldl (fun available disk => available + (disk.totalSpace - disk.usedSpace)) 0 =
    available at hfree ⊢
  have hsum : (available + UInt64.ofNat size).toNat = (space.free i + size) % 2 ^ 64 := by
    rw [UInt64.toNat_add, hfree, hnat]
  have hless : available < UInt64.ofNat size ↔ space.free i < size := by
    rw [UInt64.lt_iff_toNat_lt, hfree, hnat]
  by_cases hroom : space.free i < size
  · rw [if_pos (hless.mpr hroom), if_neg (UInt64.lt_irrefl 0), UInt64.toNat_zero]
    split_ifs <;> omega
  · rw [if_neg (mt hless.mp hroom)]
    simp only [apply_ite UInt64.toNat, gt_iff_lt, UInt64.lt_iff_toNat_lt, UInt64.le_iff_toNat_le, hsum, hfree,
      UInt64.toNat_zero]
    split_ifs <;> omega

/-- **The space of the pools is accounted for** exactly when nothing is to be stored, or every pool has no room
for the object, or too little is left in it whether the size is subtracted or added. -/
theorem accounted_iff (hsize : size < 2 ^ 63)
    (hused : ∀ i < n, ∀ disk ∈ space.disks i, disk.usedSpace ≤ disk.totalSpace)
    (hfits : ((range n).map space.free).sum < 2 ^ 64) :
    space.Accounted size n ↔ ∀ i < n, size = 0 ∨ space.free i < size ∨
      space.free i - size ≤ space.reserve i ∧ (space.free i + size) % 2 ^ 64 ≤ space.reserve i := by
  have hpools : getServerPoolsAvailableSpace n space size = (range n).map (availableSpace space size) := by
    rw [getServerPoolsAvailableSpace, if_neg (not_lt.mpr (Int.natCast_nonneg size))]
  have hpool : ∀ i < n, _ := fun i hi => availableSpace_iff hsize (hused i hi)
    ((single_le_sum (fun _ _ => Nat.zero_le _) _ (mem_map_of_mem (mem_range.mpr hi))).trans_lt hfits)
  unfold Space.Accounted
  rw [hpools, map_map, map_inj_left]
  constructor
  · exact fun h i hi => (hpool i hi).mp (Prod.ext_iff.mp (h.1 i (mem_range.mpr hi))).2
  · intro h
    have hleft : ∀ i < n, (availableSpace space size i).available.toNat = space.left size i := fun i hi =>
      (hpool i hi).mpr (h i hi)
    refine ⟨fun i hi => Prod.ext rfl (hleft i (mem_range.mp hi)), fun rand => ?_⟩
    have hkeeps : ∀ i < n, (availableSpace space size i).available = 0 ↔ ¬ space.Keeps size i := by
      intro i hi
      rw [← UInt64.toNat_inj, hleft i hi, UInt64.toNat_zero, Space.left, Space.Keeps]
      split_ifs <;> omega
    have hsum : (((range n).map (availableSpace space size)).map (·.available.toNat)).sum < 2 ^ 64 := by
      refine lt_of_le_of_lt ?_ hfits
      rw [map_map]
      refine sum_le_sum fun i hi => ?_
      rw [Function.comp_apply, hleft i (mem_range.mp hi), Space.left]
      split_ifs <;> omega
    have hdraw := @getAvailablePoolIdx_spec { space with rand } n size _ hpools hsum
    cases hidx : getAvailablePoolIdx n { space with rand } size with
    | none =>
      rw [hidx] at hdraw
      exact fun i hi => (hkeeps i hi).mp (hdraw _ (mem_map_of_mem (mem_range.mpr hi)))
    | some i =>
      rw [hidx] at hdraw
      obtain ⟨_, hp, hne, rfl⟩ := hdraw
      obtain ⟨j, hj, rfl⟩ := mem_map.mp hp
      have hj := mem_range.mp hj
      exact ⟨hj, not_not.mp fun hnot => hne ((hkeeps j hj).mpr hnot)⟩

/-- A pool of one drive with 100 bytes, of which 40 are used, and 10 to be kept. -/
def oneDrive : Space := ⟨fun _ => [⟨100, 40⟩], fun _ => 10, 0⟩

theorem accounted_nothing : oneDrive.Accounted 0 1 :=
  (accounted_iff (by decide) (by decide) (by decide)).mpr fun _ _ => .inl rfl

/-- An object of 55 bytes would leave 5. The pool reports 115 and is drawn. -/
theorem accounted_adds : ¬ oneDrive.Keeps 55 0 ∧
    (getServerPoolsAvailableSpace 1 oneDrive 55).map (·.available) = [115] ∧
      getAvailablePoolIdx 1 oneDrive 55 = some 0 := by
  unfold Space.Keeps
  decide

end Otterio.Pools
