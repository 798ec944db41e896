import Otterio.Lib.Go

/-!
# The lock table of one node

`localLocker` keeps, for each resource, the write lock or the read locks that were granted on it
(`cmd/local-locker.go`). The timestamps, the source and the quorum of an entry are left out: no
operation here reads them.

* `TableOk`: a write lock is the only entry of its resource. Every operation keeps it.
* `grant_granted`, `count_release_of_ne`, `count_le_count_release_add_one`: what requests and releases
  do to the entries of one requester.
-/

open Function

namespace Otterio

open List

structure LockRequesterInfo where
  writer : Bool
  uid : String
  owner : String
deriving DecidableEq, Repr

/-- `dsync.LockArgs`: who asks for which resources. `RLock` and `RUnlock` index the first one. -/
structure LockArgs where
  uid : String
  owner : String
  resources : List String
  nonempty : resources ≠ []

namespace LockArgs

def first (args : LockArgs) : String := args.resources.head args.nonempty

def entry (args : LockArgs) (writer : Bool) : LockRequesterInfo := ⟨writer, args.uid, args.owner⟩

end LockArgs

/-- `lockMap`: a resource without an entry is not in the map. -/
abbrev LockMap := String → List LockRequesterInfo

def isWriteLock : List LockRequesterInfo → Bool
  | [lri] => lri.writer
  | _ => false

namespace LockMap

variable (l : LockMap) (args : LockArgs)

def canTakeUnlock : Bool := args.resources.all fun resource => isWriteLock (l resource)

def canTakeLock : Bool := args.resources.all fun resource => (l resource).isEmpty

def lock : Bool × LockMap :=
  if !l.canTakeLock args then (false, l)
  else (true, args.resources.foldl (fun l resource =>
    update l resource [args.entry true]) l)

/-- `removeEntry`: the first entry of the requester goes. -/
def removeEntry (name : String) : LockMap :=
  update l name ((l name).eraseP fun e => e.uid == args.uid && e.owner == args.owner)

/-- `%s` of a slice of strings. -/
def showResources (resources : List String) : String := "[" ++ " ".intercalate resources ++ "]"

/-- `Unlock`: the error, if any, and the map. -/
def unlock : Option String × LockMap :=
  if !l.canTakeUnlock args then
    (some ("Unlock attempted on a read locked entity: " ++ showResources args.resources), l)
  else (none, args.resources.foldl (fun l resource => l.removeEntry args resource) l)

def rLock : Bool × LockMap :=
  if isWriteLock (l args.first) then (false, l)
  else (true, update l args.first (l args.first ++ [args.entry false]))

/-- `RUnlock`: the error, if any, and the map. -/
def rUnlock : Option String × LockMap :=
  if (l args.first).isEmpty then (none, l)
  else if isWriteLock (l args.first) then
    (some ("RUnlock attempted on a write locked entity: " ++ args.first), l)
  else (none, l.removeEntry args args.first)

end LockMap

/-! ## A write lock is alone -/

/-- A write lock is the only entry of its resource. -/
def TableOk (l : LockMap) : Prop := ∀ resource, ∀ e ∈ l resource, e.writer = true → l resource = [e]

variable {lri : List LockRequesterInfo}

theorem isWriteLock_iff :
    isWriteLock lri = true ↔ ∃ e, lri = [e] ∧ e.writer = true := by
  unfold isWriteLock
  split
  · simp
  · rename_i h
    constructor
    · exact fun h => by cases h
    · rintro ⟨e, rfl, -⟩
      exact absurd rfl (h e)

variable {l : LockMap}

theorem TableOk.update (h : TableOk l) {resource : String}
    (hnew : ∀ e ∈ lri, e.writer = true → lri = [e]) : TableOk (update l resource lri) := by
  intro r e he hw
  by_cases hr : r = resource
  · subst hr
    rw [update_self] at he ⊢
    exact hnew e he hw
  · rw [update_of_ne hr] at he ⊢
    exact h r e he hw

section

variable (h : TableOk l) (args : LockArgs)
include h

theorem TableOk.lock : TableOk (l.lock args).2 := by
  unfold LockMap.lock
  split
  · exact h
  · refine foldlRecOn _ _ h fun l hl resource _ => hl.update fun e he _ => ?_
    rw [mem_singleton.mp he]

theorem TableOk.removeEntry (name : String) :
    TableOk (l.removeEntry args name) := by
  refine h.update fun e he hw => ?_
  have hone := h name e (mem_of_mem_eraseP he) hw
  rw [hone, eraseP_cons] at he ⊢
  cases hmatch : e.uid == args.uid && e.owner == args.owner with
  | true => simp [hmatch] at he
  | false => rfl

theorem TableOk.unlock : TableOk (l.unlock args).2 := by
  unfold LockMap.unlock
  split
  · exact h
  · exact foldlRecOn _ _ h fun l hl resource _ => hl.removeEntry args resource

theorem TableOk.rLock : TableOk (l.rLock args).2 := by
  unfold LockMap.rLock
  split
  · exact h
  · rename_i hread
    refine h.update fun e he hw => ?_
    obtain he | he := mem_append.mp he
    · exact absurd (isWriteLock_iff.mpr ⟨e, h _ e he hw, hw⟩) hread
    · rw [mem_singleton.mp he] at hw
      cases hw

theorem TableOk.rUnlock : TableOk (l.rUnlock args).2 := by
  unfold LockMap.rUnlock
  split
  · exact h
  · split
    · exact h
    · exact h.removeEntry args _

end

/-! ## Granting and releasing -/

namespace LockMap

def grant (l : LockMap) (isRead : Bool) (args : LockArgs) : Bool × LockMap :=
  if isRead then l.rLock args else l.lock args

def release (l : LockMap) (isRead : Bool) (args : LockArgs) : Option String × LockMap :=
  if isRead then l.rUnlock args else l.unlock args

end LockMap

def LockArgs.locked (args : LockArgs) (isRead : Bool) : List String :=
  if isRead then [args.first] else args.resources

theorem TableOk.grant (h : TableOk l) (isRead : Bool) (args : LockArgs) : TableOk (l.grant isRead args).2 := by
  cases isRead with
  | true => exact h.rLock args
  | false => exact h.lock args

theorem TableOk.release (h : TableOk l) (isRead : Bool) (args : LockArgs) : TableOk (l.release isRead args).2 := by
  cases isRead with
  | true => exact h.rUnlock args
  | false => exact h.unlock args

theorem foldl_update_apply {α : Type} (resources : List String) (v : α) (l : String → α) (r : String) :
    resources.foldl (fun l resource => update l resource v) l r = if r ∈ resources then v else l r := by
  induction resources generalizing l with
  | nil => simp
  | cons resource resources ih =>
    rw [foldl_cons, ih]
    by_cases hr : r = resource
    · subst hr; simp
    · simp [hr]

variable {isRead : Bool} {args : LockArgs}

theorem grant_denied (h : (l.grant isRead args).1 = false) : (l.grant isRead args).2 = l := by
  unfold LockMap.grant LockMap.rLock LockMap.lock at *
  grind

theorem grant_granted (h : (l.grant isRead args).1 = true) (r : String) : (l.grant isRead args).2 r =
      if r ∈ args.locked isRead then l r ++ [args.entry (!isRead)] else l r := by
  cases isRead with
  | true =>
    simp only [LockMap.grant, ↓reduceIte, LockMap.rLock] at h ⊢
    split at h
    · cases h
    · rename_i hread
      rw [if_neg hread]
      by_cases hr : r = args.first
      · subst hr; simp [LockArgs.locked]
      · simp [LockArgs.locked, hr]
  | false =>
    simp only [LockMap.grant, Bool.false_eq_true, ↓reduceIte, LockMap.lock] at h ⊢
    split at h
    · cases h
    · rename_i hfree
      rw [if_neg hfree]
      simp only [foldl_update_apply, LockArgs.locked, Bool.false_eq_true, ↓reduceIte, Bool.not_false]
      split
      · rename_i hr
        -- The resource was free.
        have hempty : l r = [] := by
          simp only [LockMap.canTakeLock, Bool.not_eq_true', Bool.not_eq_false, all_eq_true] at hfree
          simpa using hfree r hr
        rw [hempty, nil_append]
      · rfl

private theorem removeEntry_apply (l : LockMap) (args : LockArgs) (name r : String) :
    l.removeEntry args name r = if r = name then
      (l r).eraseP (fun e => e.uid == args.uid && e.owner == args.owner) else l r := by
  unfold LockMap.removeEntry
  by_cases hr : r = name
  · subst hr; simp
  · simp [hr]

variable {x : LockRequesterInfo}

private theorem count_eraseP_of_not {p : LockRequesterInfo → Bool}
    (hx : p x = false) (lri : List LockRequesterInfo) : (lri.eraseP p).count x = lri.count x := by
  induction lri with
  | nil => rfl
  | cons e lri ih =>
    rw [eraseP_cons]
    cases he : p e with
    | true =>
      have hne : e ≠ x := by
        rintro rfl
        rw [hx] at he
        cases he
      simp [hne]
    | false => simp [count_cons, ih]

private theorem count_le_count_eraseP_add_one (p : LockRequesterInfo → Bool) (x : LockRequesterInfo)
    (lri : List LockRequesterInfo) : lri.count x ≤ (lri.eraseP p).count x + 1 := by
  induction lri with
  | nil => simp
  | cons e lri ih =>
    rw [eraseP_cons]
    cases p e with
    | true =>
      rw [cond_true, count_cons]
      split <;> omega
    | false =>
      rw [cond_false, count_cons, count_cons]
      omega

theorem count_release_of_ne (hx : ¬ (x.uid = args.uid ∧ x.owner = args.owner))
    (r : String) : ((l.release isRead args).2 r).count x = (l r).count x := by
  have hp : (x.uid == args.uid && x.owner == args.owner) = false := by simpa using hx
  have hremove : ∀ (l : LockMap) name, (l.removeEntry args name r).count x = (l r).count x := by
    intro l name
    rw [removeEntry_apply]
    split
    · exact count_eraseP_of_not hp _
    · rfl
  unfold LockMap.release LockMap.rUnlock LockMap.unlock
  split
  · split
    · rfl
    · split
      · rfl
      · exact hremove _ _
  · split
    · rfl
    · exact foldlRecOn (motive := fun l' : LockMap => (l' r).count x = (l r).count x) _ _ rfl
        fun l' h name _ => (hremove l' name).trans h

/-- A release removes at most one entry of a requester from a resource. -/
theorem count_le_count_release_add_one (l : LockMap) (isRead : Bool) (args : LockArgs) (x : LockRequesterInfo)
    (r : String) : (l r).count x ≤ ((l.release isRead args).2 r).count x + 1 := by
  unfold LockMap.release LockMap.rUnlock LockMap.unlock
  split
  · split
    · simp
    · split
      · simp
      · simp only [removeEntry_apply]
        split
        · exact count_le_count_eraseP_add_one _ _ _
        · simp
  · split
    · simp
    · rename_i hwrite
      by_cases hr : r ∈ args.resources
      · -- A resource that is write-locked has one entry.
        simp only [LockMap.canTakeUnlock, Bool.not_eq_true', Bool.not_eq_false, all_eq_true] at hwrite
        obtain ⟨e, he, -⟩ := isWriteLock_iff.mp (hwrite r hr)
        have hlen : (l r).count x ≤ (l r).length := count_le_length
        rw [he, length_singleton] at hlen
        rw [he]
        omega
      · have hsame : args.resources.foldl (fun l resource => l.removeEntry args resource) l r = l r := by
          refine foldlRecOn (motive := fun l' : LockMap => l' r = l r) _ _ rfl fun l' hl' name hname => ?_
          rw [removeEntry_apply, if_neg (ne_of_mem_of_not_mem hname hr).symm, hl']
        simp [hsame]

end Otterio
