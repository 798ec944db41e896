import Mathlib.Logic.Relation
import Otterio.DataUsage.Merge

/-!
# Pruning a data usage cache

`keepBuckets` is meant to drop everything but the root and the given buckets with all that is in them
(`cmd/data-usage-cache.go`). The loop goes over all entries of the map, those of directories in the buckets as well,
and the root keeps all its children. `deleteRecursive` finds nothing, because the entry is deleted before the call.
-/

open Function

namespace Otterio.DataUsage

open List

/-- `deleteRecursive`. Every call deletes an entry, so that fuel for as many calls as there are entries is enough. -/
def deleteRecursive : Nat → Entries → String → Entries
  | 0, cache, _ => cache
  | fuel + 1, cache, h =>
    match cache h with
    | none => cache
    | some existing => existing.children.foldl (deleteRecursive fuel) (update cache h none)

section Keep

variable (hashPath : String → String) (fuel : Nat) (order : List String)

/-- The body of the loop of `keepRootChildren`. An entry that is gone when its turn comes is passed over. -/
def keepStep (root : String) (list : List String) (cache : Entries) (k : String) : Entries :=
  if (cache k).isNone || k = root || k ∈ list then cache
  else deleteRecursive fuel (update cache k none) k

/-- `keepRootChildren`, with the keys of the map in the order in which they are ranged over. -/
def DataUsageCache.keepRootChildren (d : DataUsageCache) (list : List String) : DataUsageCache :=
  if (d.root hashPath).isNone then d
  else { d with cache := order.foldl (keepStep fuel (hashPath d.name) list) d.cache }

def DataUsageCache.keepBuckets (d : DataUsageCache) (b : List String) : DataUsageCache :=
  d.keepRootChildren hashPath fuel order (b.map hashPath)

end Keep

/-- The entry is `b` or below it. -/
def Below (cache : Entries) (b : String) : String → Prop :=
  Relation.ReflTransGen (fun p c => c ∈ childSet cache p) b

/-- What is left of `d` are the root and the listed entries with all that is below them, with the same totals. -/
structure KeepsTrees (root : String) (list : List String) (d left : Entries) : Prop where
  kept : ∀ k, (k = root ∨ ∃ b ∈ list, Below d b k) → left k = d k
  gone : ∀ k, ¬ (k = root ∨ ∃ b ∈ list, Below d b k) → left k = none
  resolved : ∀ p, ∀ c ∈ childSet left p, (left c).isSome
  flattened : ∀ b ∈ list, ∀ fuel, flatten left fuel (left.get b) = flatten d fuel (d.get b)

variable {root : String} {list order : List String} {fuel : Nat}

theorem keepStep_eq (cache : Entries) (k : String) :
    keepStep fuel root list cache k = if k = root ∨ k ∈ list then cache else update cache k none := by
  unfold keepStep
  by_cases hkeep : k = root ∨ k ∈ list
  · rw [if_pos hkeep, if_pos (by simp [or_assoc, hkeep])]
  · rw [if_neg hkeep]
    split_ifs with hnone
    · have hk : cache k = none := by simpa [hkeep, or_assoc] using hnone
      rw [← hk, update_eq_self]
    · cases fuel with
      | zero => rfl
      | succ fuel => rw [deleteRecursive, update_self]

theorem foldl_keepStep (cache : Entries) (k : String) : order.foldl (keepStep fuel root list) cache k =
    if k ∈ order ∧ ¬ (k = root ∨ k ∈ list) then none else cache k := by
  induction order generalizing cache with
  | nil => simp
  | cons x order ih =>
    rw [foldl_cons, ih, keepStep_eq]
    by_cases hkx : k = x
    · subst hkx
      by_cases hkeep : k = root ∨ k ∈ list <;> simp [hkeep]
    · have hsame : (if x = root ∨ x ∈ list then cache else update cache x none) k = cache k := by
        split_ifs
        · rfl
        · exact update_of_ne hkx _ _
      simp only [hsame, mem_cons, hkx, false_or]

theorem flatten_congr {cache cache' : Entries} {S : String → Prop} (hsame : ∀ k, S k → cache' k = cache k)
    (hclosed : ∀ k, S k → ∀ c ∈ childSet cache k, S c) {b : String} (hb : S b) (fuel : Nat) :
    flatten cache' fuel (cache'.get b) = flatten cache fuel (cache.get b) := by
  have hget : ∀ k, S k → cache'.get k = cache.get k := fun k hk => congrArg (·.getD .zero) (hsame k hk)
  induction fuel generalizing b with
  | zero => rfl
  | succ fuel ih =>
    rw [hget b hb, flatten, flatten]
    have hchildren : ∀ c ∈ (cache.get b).children, S c := fun c hc => hclosed b hb c (mem_childSet.mpr hc)
    generalize (cache.get b).children = l at hchildren ⊢
    generalize (cache.get b).usage = usage
    induction l generalizing usage with
    | nil => rfl
    | cons c l ihl =>
      obtain ⟨hc, hl⟩ := forall_mem_cons.mp hchildren
      have hflat := ih hc
      rw [hget c hc] at hflat
      simp only [foldlM_cons, hget c hc, hflat]
      exact bind_congr fun usage => ihl hl usage

/-- **Pruning keeps whole trees** exactly when the root has only listed children and the listed entries have no
children that are not listed. -/
theorem keepsTrees_iff (hashPath : String → String) (fuel : Nat) (order list : List String) (d : DataUsageCache)
    (hresolved : ∀ p, ∀ c ∈ childSet d.cache p, (d.cache c).isSome) (horder : ∀ k, (d.cache k).isSome → k ∈ order) :
    KeepsTrees (hashPath d.name) list d.cache (d.keepRootChildren hashPath fuel order list).cache ↔
      if (d.root hashPath).isSome then
        ∀ k, k = hashPath d.name ∨ k ∈ list → ∀ c ∈ childSet d.cache k, c = hashPath d.name ∨ c ∈ list
      else ∀ k, (d.cache k).isSome → ∃ b ∈ list, Below d.cache b k := by
  unfold DataUsageCache.keepRootChildren
  cases hroot : d.root hashPath with
  | none =>
    have hnone : d.cache (hashPath d.name) = none := hroot
    constructor
    · intro h k hk
      by_contra hnot
      have hgone := h.gone k (not_or.mpr ⟨fun heq => ?_, hnot⟩)
      · exact absurd hgone (Option.isSome_iff_ne_none.mp hk)
      · rw [heq, hnone] at hk
        cases hk
    · refine fun h => ⟨fun _ _ => rfl, fun k hk => ?_, hresolved, fun _ _ _ => rfl⟩
      by_contra hsome
      exact hk (.inr (h k (Option.isSome_iff_ne_none.mpr hsome)))
  | some e =>
    -- The entries that are left are the root and those listed.
    have hleft : ∀ k, order.foldl (keepStep fuel (hashPath d.name) list) d.cache k =
        if k = hashPath d.name ∨ k ∈ list then d.cache k else none := by
      intro k
      rw [foldl_keepStep]
      cases hk : d.cache k with
      | none => simp
      | some e =>
        by_cases hkeep : k = hashPath d.name ∨ k ∈ list <;> simp [horder k (hk ▸ rfl), hkeep]
    show KeepsTrees _ _ _ (order.foldl _ _) ↔ ∀ k, _
    generalize order.foldl (keepStep fuel (hashPath d.name) list) d.cache = left at hleft ⊢
    have hget : ∀ k, (k = hashPath d.name ∨ k ∈ list) → left k = d.cache k := fun k hk => by rw [hleft, if_pos hk]
    constructor
    · intro h k hk c hc
      have hsome := h.resolved k c (by rwa [childSet, Entries.get, hget k hk])
      by_contra hnot
      rw [hleft, if_neg hnot] at hsome
      cases hsome
    · intro h
      refine ⟨fun k hk => hget k ?_, fun k hk => ?_, fun p c hc => ?_, fun b hb => flatten_congr hget h (.inr hb)⟩
      · rcases hk with hk | ⟨b, hb, hbelow⟩
        · exact .inl hk
        · induction hbelow with
          | refl => exact .inr hb
          | tail _ hc ih => exact h _ ih _ hc
      · rw [hleft, if_neg fun hkeep => hk (hkeep.imp_right fun hb => ⟨k, hb, .refl⟩)]
      · by_cases hp : p = hashPath d.name ∨ p ∈ list
        · rw [childSet, Entries.get, hget p hp] at hc
          rw [hget c (h p hp c hc)]
          exact hresolved p c hc
        · simp [childSet, Entries.get, hleft, hp, DataUsageEntry.zero] at hc

theorem keepsTrees_oneBucket : KeepsTrees "/" ["bucket"] (oneBucket 1 2).cache
    ((oneBucket 1 2).keepRootChildren id 2 ["/", "bucket"] ["bucket"]).cache := by
  refine (keepsTrees_iff id 2 ["/", "bucket"] ["bucket"] (oneBucket 1 2) (isTree_oneBucket 1 2).closed ?_).mpr ?_
  · intro k hk
    by_contra hnot
    simp_all [oneBucket]
  · intro k _ c hc
    exact .inr (mem_singleton.mpr (mem_childSet_oneBucket.mp hc).2)

/-- A bucket with one object, which is in a directory. -/
def oneDirectory : DataUsageCache where
  name := "/"
  lastUpdate := 0
  cache k :=
    if k = "/" then some ⟨["bucket"], nodup_singleton _, fun _ => 0⟩
    else if k = "bucket" then some ⟨["bucket/dir"], nodup_singleton _, fun _ => 0⟩
    else if k = "bucket/dir" then some ⟨[], nodup_nil, fun c => if c = .objects then 1 else 0⟩
    else none

/-- The directory is deleted although its bucket is kept. -/
theorem keepBuckets_directory :
    let kept := (oneDirectory.keepBuckets id 3 ["/", "bucket", "bucket/dir"] ["bucket"]).cache
    (kept "bucket").isSome ∧ (kept "bucket/dir").isNone ∧
      (flatten oneDirectory.cache 2 (oneDirectory.cache.get "bucket")).map (· .objects) = some 1 ∧
      (flatten kept 2 (Entries.get kept "bucket")).map (· .objects) = some 0 := by
  decide

end Otterio.DataUsage
