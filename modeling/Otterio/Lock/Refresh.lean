import Otterio.Lib.Run
import Otterio.Lock.Locker

/-!
# Refreshing and expiring locks

`cmd/local-locker.go` with the time of the last refresh of each entry. A holder calls `Refresh` now and
then; `expireOldLocks` removes the entries that were not refreshed for longer than an interval.

* `TimedMap` is the table with times. A call happens at one instant. The name of an entry is the resource
  that it is filed under.
* `expireList`: the loop of `expireOldLocks` over the entries of a resource. `removeEntry` shifts the
  entries in the array that the loop ranges over, so that the loop reads some of them twice and others not
  at all.
-/

open Function

namespace Otterio

open List

/-! ## The table -/

deriving instance DecidableEq for LockArgs

/-- `lockRequesterInfo` with `TimeLastRefresh`. -/
structure TimedEntry where
  info : LockRequesterInfo
  timeLastRefresh : Time
deriving DecidableEq, Repr

def TimedEntry.isOf (args : LockArgs) (e : TimedEntry) : Bool := e.info.uid == args.uid && e.info.owner == args.owner

abbrev TimedMap := String → List TimedEntry

namespace TimedMap

variable (l : TimedMap) (now : Time) (args : LockArgs)

def untimed : LockMap := fun resource => (l resource).map TimedEntry.info

def lock : Bool × TimedMap :=
  if !l.untimed.canTakeLock args then (false, l)
  else (true, args.resources.foldl (fun l resource =>
    update l resource [⟨args.entry true, now⟩]) l)

def removeEntry (name : String) : TimedMap := update l name ((l name).eraseP (TimedEntry.isOf args))

def unlock : Option String × TimedMap :=
  if !l.untimed.canTakeUnlock args then
    (some ("Unlock attempted on a read locked entity: " ++ LockMap.showResources args.resources), l)
  else (none, args.resources.foldl (fun l resource => l.removeEntry args resource) l)

def rLock : Bool × TimedMap :=
  if isWriteLock (l.untimed args.first) then (false, l)
  else (true, update l args.first (l args.first ++ [⟨args.entry false, now⟩]))

def rUnlock : Option String × TimedMap :=
  if (l args.first).isEmpty then (none, l)
  else if isWriteLock (l.untimed args.first) then
    (some ("RUnlock attempted on a write locked entity: " ++ args.first), l)
  else (none, l.removeEntry args args.first)

def forceUnlock : Option String × TimedMap :=
  if args.uid ≠ "" then (some ("ForceUnlock called with non-empty UID: " ++ args.uid), l)
  else (none, args.resources.foldl (fun l resource => update l resource []) l)

/-- The loop of `Refresh`: the first entry of the requester gets the new time. -/
def touch : List TimedEntry → List TimedEntry
  | [] => []
  | e :: lri => if e.isOf args then { e with timeLastRefresh := now } :: lri else e :: touch lri

/-- `Refresh`: it only looks at the first resource. -/
def refresh : Bool × TimedMap :=
  if (l args.first).any (TimedEntry.isOf args) then
    (true, update l args.first (touch now args (l args.first)))
  else (false, l)

def grant (isRead : Bool) : Bool × TimedMap := if isRead then l.rLock now args else l.lock now args

end TimedMap

/-! ### Expiry -/

/-- The variables of `expireOldLocks` for one resource: the array that the loop ranges over, the number of
its elements that are left in `lris`, and whether the resource was deleted from the map. -/
structure ExpireState where
  array : List TimedEntry
  live : Nat
  deleted : Bool

def ExpireState.lris (s : ExpireState) : List TimedEntry := s.array.take s.live

/-- One round of the loop. The array keeps its length, its last element stays where it was. -/
def expireStep (now interval : Time) (s : ExpireState) (i : Nat) : ExpireState :=
  match s.array[i]? with
  | none => s
  | some e =>
    let same (x : TimedEntry) : Bool := x.info.uid == e.info.uid && x.info.owner == e.info.owner
    if now - e.timeLastRefresh > interval ∧ s.lris.any same then
      if s.live = 1 then { s with deleted := true }
      else { s with array := s.lris.eraseP same ++ s.array.drop (s.live - 1), live := s.live - 1 }
    else s

/-- The entries of a resource after `expireOldLocks`. -/
def expireList (now interval : Time) (lris : List TimedEntry) : List TimedEntry :=
  let s := (List.range lris.length).foldl (expireStep now interval) ⟨lris, lris.length, false⟩
  if s.deleted then [] else s.lris

def TimedMap.expireOldLocks (l : TimedMap) (now interval : Time) : TimedMap :=
  fun resource => expireList now interval (l resource)

/-! ## One lock and its entries -/

theorem LockArgs.first_mem_locked (args : LockArgs) (isRead : Bool) : args.first ∈ args.locked isRead := by
  cases isRead with
  | true => exact mem_singleton_self _
  | false => exact head_mem _

def ownEntries (args : LockArgs) (lri : List TimedEntry) : List TimedEntry := lri.filter (TimedEntry.isOf args)

/-- The request comes from another requester. -/
def LockArgs.Foreign (args other : LockArgs) : Prop := ¬ (other.uid = args.uid ∧ other.owner = args.owner)

variable {args other : LockArgs} {l : TimedMap} {now interval : Time} {r : String} {e : TimedEntry}

theorem LockArgs.Foreign.not_isOf (h : args.Foreign other) (he : e.isOf other = true) :
    e.isOf args = false := by
  rw [Bool.eq_false_iff]
  intro he'
  rw [TimedEntry.isOf, Bool.and_eq_true, beq_iff_eq, beq_iff_eq] at he he'
  exact h ⟨he.1.symm.trans he'.1, he.2.symm.trans he'.2⟩

variable {x : TimedEntry}

theorem isOf_of_same (h : (x.info.uid == e.info.uid && x.info.owner == e.info.owner) = true)
    (hx : x.isOf args = true) : e.isOf args = true := by
  rw [Bool.and_eq_true, beq_iff_eq, beq_iff_eq] at h
  rw [TimedEntry.isOf, ← h.1, ← h.2]
  exact hx

theorem ownEntries_eraseP {p : TimedEntry → Bool} (lri : List TimedEntry)
    (h : ∀ e ∈ lri, p e = true → e.isOf args = false) : ownEntries args (lri.eraseP p) = ownEntries args lri := by
  induction lri with
  | nil => rfl
  | cons e lri ih =>
    have ih := ih fun x hx => h x (.tail _ hx)
    rw [eraseP_cons]
    cases hp : p e with
    | true =>
      have he := h e (.head _) hp
      simp [ownEntries, he]
    | false =>
      unfold ownEntries at ih ⊢
      rw [cond_false, filter_cons, filter_cons, ih]

theorem ownEntries_touch_foreign (h : args.Foreign other) (lri : List TimedEntry) :
    ownEntries args (TimedMap.touch now other lri) = ownEntries args lri := by
  induction lri with
  | nil => rfl
  | cons e lri ih =>
    unfold ownEntries at ih ⊢
    unfold TimedMap.touch
    by_cases he : e.isOf other = true
    · have hown := h.not_isOf he
      have hown' : TimedEntry.isOf args { e with timeLastRefresh := now } = false := hown
      rw [if_pos he, filter_cons, filter_cons, hown, hown', if_neg Bool.false_ne_true, if_neg Bool.false_ne_true]
    · rw [if_neg he, filter_cons, filter_cons, ih]

variable {lri : List TimedEntry}

theorem ownEntries_touch (h : ownEntries args lri = [x]) :
    ownEntries args (TimedMap.touch now args lri) = [{ x with timeLastRefresh := now }] := by
  induction lri with
  | nil => cases h
  | cons e lri ih =>
    unfold ownEntries at h ih ⊢
    unfold TimedMap.touch
    rw [filter_cons] at h
    by_cases he : e.isOf args = true
    · rw [if_pos he] at h ⊢
      obtain ⟨rfl, hrest⟩ := List.cons.inj h
      have he' : TimedEntry.isOf args { e with timeLastRefresh := now } = true := he
      rw [filter_cons, if_pos he', hrest]
    · rw [if_neg he] at h ⊢
      rw [filter_cons, if_neg he, ih h]

theorem length_touch (lri : List TimedEntry) : (TimedMap.touch now other lri).length = lri.length := by
  induction lri with
  | nil => rfl
  | cons e lri ih =>
    unfold TimedMap.touch
    split_ifs
    · rfl
    · rw [length_cons, length_cons, ih]

theorem touch_of_not_any (h : ∀ e ∈ lri, e.isOf other = false) :
    TimedMap.touch now other lri = lri := by
  induction lri with
  | nil => rfl
  | cons e lri ih =>
    unfold TimedMap.touch
    rw [h e (.head _), if_neg Bool.false_ne_true, ih fun x hx => h x (.tail _ hx)]

/-! ### Expiry -/

def TimedEntry.same (e x : TimedEntry) : Bool := x.info.uid == e.info.uid && x.info.owner == e.info.owner

/-- A round that changes something read an old entry, whose requester still has one. It marks the resource
as deleted, or removes the first entry of the requester. -/
theorem expireStep_cases (now interval : Time) (s : ExpireState) (i : Nat) (hlive : s.live ≤ s.array.length) :
    expireStep now interval s i = s ∨ ∃ e ∈ s.array, interval < now - e.timeLastRefresh ∧
      (∃ x ∈ s.lris, e.same x = true) ∧
      (s.live = 1 ∧ expireStep now interval s i = { s with deleted := true } ∨
        s.live ≠ 1 ∧ ∃ array, expireStep now interval s i = { s with array := array, live := s.live - 1 } ∧
          s.live - 1 ≤ array.length ∧ array ⊆ s.array ∧ array.take (s.live - 1) = s.lris.eraseP e.same) := by
  unfold expireStep
  cases he : s.array[i]? with
  | none => exact .inl rfl
  | some e =>
    dsimp only
    split_ifs with hold hone
    · exact .inr ⟨e, mem_of_getElem? he, hold.1, any_eq_true.mp hold.2, .inl ⟨hone, rfl⟩⟩
    · obtain ⟨x, hx, hsame⟩ := any_eq_true.mp hold.2
      have hlen : (s.lris.eraseP e.same).length = s.live - 1 := by
        rw [length_eraseP_of_mem hx hsame, ExpireState.lris, length_take, Nat.min_eq_left hlive]
      refine .inr ⟨e, mem_of_getElem? he, hold.1, ⟨x, hx, hsame⟩, .inr ⟨hone, _, rfl, ?_, ?_, ?_⟩⟩
      · rw [length_append]
        exact hlen ▸ Nat.le_add_right _ _
      · exact append_subset.mpr ⟨fun y hy => mem_of_mem_take (mem_of_mem_eraseP hy), drop_subset _ _⟩
      · exact hlen ▸ take_left
    · exact .inl rfl

/-- What the loop of `expireOldLocks` keeps while the entries of the requester are fresh. -/
structure ExpireInv (args : LockArgs) (now interval : Time) (lris : List TimedEntry) (s : ExpireState) :
    Prop where
  live : s.live ≤ s.array.length
  deleted : s.deleted = false
  own : ownEntries args s.lris = ownEntries args lris
  fresh : ∀ e ∈ s.array, e.isOf args = true → now - e.timeLastRefresh ≤ interval
  length : s.live ≤ lris.length

variable {lris : List TimedEntry}

theorem ExpireInv.step {s : ExpireState} (h : ExpireInv args now interval lris s)
    (hown : ownEntries args lris ≠ []) (i : Nat) :
    ExpireInv args now interval lris (expireStep now interval s i) := by
  obtain hsame | ⟨e, he, hold, ⟨x, hx, hsame⟩, hstep⟩ := expireStep_cases now interval s i h.live
  · exact hsame.symm ▸ h
  have hnot : ∀ x, e.same x = true → x.isOf args = false := by
    intro x hsame
    rw [Bool.eq_false_iff]
    exact fun hisOf => absurd (h.fresh e he (isOf_of_same hsame hisOf)) (not_le.mpr hold)
  rcases hstep with ⟨hone, -⟩ | ⟨-, array, heq, hlive, hsub, herase⟩
  · -- The only entry left is one of the requester, and not an old one.
    exfalso
    have hlen : s.lris.length = 1 := by
      rw [ExpireState.lris, length_take, hone, Nat.min_eq_left (hone ▸ h.live)]
    obtain ⟨y, hy⟩ := length_eq_one_iff.mp hlen
    rw [hy, mem_singleton] at hx
    apply hown
    rw [← h.own, hy, ← hx, ownEntries, filter_cons, hnot x hsame, if_neg Bool.false_ne_true, filter_nil]
  · rw [heq]
    refine ⟨hlive, h.deleted, ?_, fun y hy => h.fresh y (hsub hy), (Nat.sub_le _ _).trans h.length⟩
    rw [← h.own]
    exact (congrArg _ herase).trans (ownEntries_eraseP _ fun y _ => hnot y)

theorem ownEntries_expireList (hown : ownEntries args lris ≠ [])
    (hfresh : ∀ e ∈ lris, e.isOf args = true → now - e.timeLastRefresh ≤ interval) :
    ownEntries args (expireList now interval lris) = ownEntries args lris ∧
      (expireList now interval lris).length ≤ lris.length := by
  have hinit : ExpireInv args now interval lris ⟨lris, lris.length, false⟩ :=
    ⟨le_rfl, rfl, by rw [ExpireState.lris, take_length], hfresh, le_rfl⟩
  have hend := List.foldlRecOn (List.range lris.length) (expireStep now interval) hinit
    fun s hs i _ => hs.step hown i
  unfold expireList
  dsimp only
  rw [hend.deleted, if_neg Bool.false_ne_true]
  refine ⟨hend.own, ?_⟩
  rw [ExpireState.lris, length_take]
  exact (Nat.min_le_left _ _).trans hend.length

/-! ## A lock that is refreshed -/

/-- The calls of a locker, and the runs of `expireOldLocks`. -/
inductive LockerCall where
  | lock (args : LockArgs)
  | rLock (args : LockArgs)
  | unlock (args : LockArgs)
  | rUnlock (args : LockArgs)
  | forceUnlock (args : LockArgs)
  | refresh (args : LockArgs)
  | expire

def LockerCall.perform (interval now : Time) (l : TimedMap) : LockerCall → TimedMap
  | .lock args => (l.lock now args).2
  | .rLock args => (l.rLock now args).2
  | .unlock args => (l.unlock args).2
  | .rUnlock args => (l.rUnlock args).2
  | .forceUnlock args => (l.forceUnlock args).2
  | .refresh args => (l.refresh now args).2
  | .expire => l.expireOldLocks now interval

/-- While the lock is held, its holder only refreshes it, and nobody unlocks its resources by force. -/
def LockerCall.Allowed (args : LockArgs) (isRead : Bool) : LockerCall → Prop
  | .lock other | .rLock other | .unlock other | .rUnlock other => args.Foreign other
  | .forceUnlock other => ∀ r ∈ args.locked isRead, r ∉ other.resources
  | .refresh other => other = args ∨ args.Foreign other
  | .expire => True

/-- The table, the time, and the time of the last refresh of the holder that returned true. -/
structure Lease where
  table : TimedMap
  now : Time
  last : Time

/-- A lock, from its grant on, whose `Refresh` is called and returns true at least once per interval. -/
def lease (args : LockArgs) (isRead : Bool) (interval : Time) : System Lease where
  init s := ∃ l : TimedMap, (∀ r ∈ args.locked isRead, ownEntries args (l r) = []) ∧
    l.grant s.now args isRead = (true, s.table) ∧ s.last = s.now
  step s t := s.now ≤ t.now ∧ t.now ≤ s.last + interval ∧
    ∃ call : LockerCall, call.Allowed args isRead ∧ t.table = call.perform interval t.now s.table ∧
      t.last = match call with
        | .refresh other => if other = args ∧ (s.table.refresh t.now args).1 then t.now else s.last
        | _ => s.last

/-- The lock has one entry on the resource, that was refreshed at `last` or later. A write lock is alone. -/
structure Retained (args : LockArgs) (isRead : Bool) (last : Time) (lri : List TimedEntry) : Prop where
  own : ∃ time, last ≤ time ∧ ownEntries args lri = [⟨args.entry (!isRead), time⟩]
  alone : isRead = false → lri.length = 1

section Retained

variable {isRead : Bool} {last : Time} {lri : List TimedEntry}

theorem Retained.mem (h : Retained args isRead last lri) : ∃ e ∈ lri, e.info = args.entry (!isRead) := by
  obtain ⟨time, -, hown⟩ := h.own
  have hmem : (⟨args.entry (!isRead), time⟩ : TimedEntry) ∈ ownEntries args lri := by
    rw [hown]
    exact .head _
  exact ⟨_, (mem_filter.mp hmem).1, rfl⟩

theorem Retained.ne_nil (h : Retained args isRead last lri) : lri ≠ [] := by
  obtain ⟨e, he, -⟩ := h.mem
  exact ne_nil_of_mem he

theorem Retained.eq_singleton (h : Retained args false last lri) : ∃ e, lri = [e] ∧ e.info = args.entry true := by
  obtain ⟨e, hlri⟩ := length_eq_one_iff.mp (h.alone rfl)
  obtain ⟨x, hx, hinfo⟩ := h.mem
  rw [hlri, mem_singleton] at hx
  exact ⟨e, hlri, hx ▸ hinfo⟩

/-- The own entries, and the number of entries of a writer, are all that counts. -/
theorem Retained.of_own {lri' : List TimedEntry} (h : Retained args isRead last lri)
    (hown : ownEntries args lri' = ownEntries args lri) (hlen : isRead = false → lri'.length ≤ lri.length) :
    Retained args isRead last lri' := by
  obtain ⟨time, hle, htime⟩ := h.own
  refine ⟨⟨time, hle, hown.trans htime⟩, fun hw => ?_⟩
  have hpos : 0 < lri'.length := by
    apply length_pos_of_ne_nil
    rintro rfl
    rw [htime] at hown
    cases hown
  have := hlen hw
  rw [h.alone hw] at this
  omega

theorem lock_of_retained (h : Retained args isRead last (l r)) :
    (r ∈ other.resources → (l.lock now other).1 = false) ∧ (l.lock now other).2 r = l r := by
  have hempty : (l.untimed r).isEmpty = false := by
    simpa [TimedMap.untimed] using h.ne_nil
  have hdenied : r ∈ other.resources → l.untimed.canTakeLock other = false := by
    intro hr
    rw [LockMap.canTakeLock, all_eq_false]
    exact ⟨r, hr, by rw [hempty]; decide⟩
  unfold TimedMap.lock
  constructor
  · intro hr
    rw [hdenied hr]
    rfl
  · split_ifs with hcan
    · rfl
    · have hr : r ∉ other.resources := fun hr => hcan (by rw [hdenied hr]; rfl)
      exact (foldl_update_apply ..).trans (if_neg hr)

theorem rLock_of_retained (h : Retained args false last (l r)) (hr : r = other.first) :
    l.rLock now other = (false, l) := by
  obtain ⟨e, hlri, hinfo⟩ := h.eq_singleton
  unfold TimedMap.rLock
  rw [← hr, if_pos]
  show isWriteLock ((l r).map TimedEntry.info) = true
  rw [hlri, map_singleton, hinfo]
  rfl

section

variable (h : Retained args isRead last (l r)) (hf : args.Foreign other)
include h hf

theorem Retained.removeEntry (name : String) :
    Retained args isRead last (l.removeEntry other name r) := by
  unfold TimedMap.removeEntry
  by_cases hr : r = name
  · subst hr
    rw [update_self]
    exact h.of_own (ownEntries_eraseP _ fun e _ he => hf.not_isOf he) fun _ => length_eraseP_le
  · rw [update_of_ne hr]
    exact h

theorem Retained.rLock :
    Retained args isRead last ((l.rLock now other).2 r) := by
  by_cases hfirst : r = other.first
  · cases hread : isRead with
    | false =>
      subst hread
      rw [rLock_of_retained h hfirst]
      exact h
    | true =>
      subst hread hfirst
      unfold TimedMap.rLock
      split_ifs
      · exact h
      · refine h.of_own ?_ fun hw => by cases hw
        have hnot : TimedEntry.isOf args ⟨other.entry false, now⟩ = false :=
          hf.not_isOf (by simp [TimedEntry.isOf, LockArgs.entry])
        simp [ownEntries, filter_append, hnot]
  · unfold TimedMap.rLock
    split_ifs
    · exact h
    · dsimp only
      rw [update_of_ne hfirst]
      exact h

theorem Retained.unlock :
    Retained args isRead last ((l.unlock other).2 r) := by
  unfold TimedMap.unlock
  split_ifs
  · exact h
  · exact List.foldlRecOn (motive := fun l : TimedMap => Retained args isRead last (l r))
      other.resources _ h
      fun l' hl' name _ => hl'.removeEntry hf name

theorem Retained.rUnlock :
    Retained args isRead last ((l.rUnlock other).2 r) := by
  unfold TimedMap.rUnlock
  split_ifs
  · exact h
  · exact h
  · exact h.removeEntry hf _

end

theorem Retained.forceUnlock (h : Retained args isRead last (l r)) (hr : r ∉ other.resources) :
    Retained args isRead last ((l.forceUnlock other).2 r) := by
  unfold TimedMap.forceUnlock
  split_ifs
  · exact h
  · dsimp only
    rw [foldl_update_apply, if_neg hr]
    exact h

theorem refresh_apply : (l.refresh now other).2 r =
    if r = other.first then TimedMap.touch now other (l r) else l r := by
  unfold TimedMap.refresh
  by_cases hr : r = other.first
  · subst hr
    rw [if_pos rfl]
    split_ifs with hany
    · exact update_self _ _ _
    · -- Without an entry of the requester there is nothing to change.
      symm
      apply touch_of_not_any
      simpa using hany
  · split_ifs
    · exact update_of_ne hr _ _
    · rfl

theorem Retained.refresh_foreign (h : Retained args isRead last (l r)) (hf : args.Foreign other) :
    Retained args isRead last ((l.refresh now other).2 r) := by
  rw [refresh_apply]
  split_ifs
  · exact h.of_own (ownEntries_touch_foreign hf _) fun _ => (length_touch _).le
  · exact h

theorem Retained.refresh_first (h : Retained args isRead last (l args.first)) :
    (l.refresh now args).1 = true ∧ Retained args isRead now ((l.refresh now args).2 args.first) := by
  obtain ⟨time, -, hown⟩ := h.own
  constructor
  · have hmem : (⟨args.entry (!isRead), time⟩ : TimedEntry) ∈ ownEntries args (l args.first) := by
      rw [hown]
      exact .head _
    unfold TimedMap.refresh
    rw [if_pos (any_eq_true.mpr ⟨_, mem_filter.mp hmem⟩)]
  · rw [refresh_apply, if_pos rfl]
    refine ⟨⟨now, le_rfl, ownEntries_touch hown⟩, fun hw => ?_⟩
    rw [length_touch]
    exact h.alone hw

theorem Retained.expire (h : Retained args isRead last (l r)) (hfresh : now ≤ last + interval) :
    Retained args isRead last (l.expireOldLocks now interval r) := by
  obtain ⟨time, htime, hown⟩ := h.own
  have hne : ownEntries args (l r) ≠ [] := by
    rw [hown]
    exact cons_ne_nil _ _
  have hall : ∀ e ∈ l r, e.isOf args = true → now - e.timeLastRefresh ≤ interval := by
    intro e he hisOf
    have hmem : e ∈ ownEntries args (l r) := mem_filter.mpr ⟨he, hisOf⟩
    rw [hown, mem_singleton] at hmem
    rw [hmem]
    rw [sub_le_iff_le_add, add_comm]
    exact hfresh.trans (by gcongr)
  obtain ⟨hsame, hlen⟩ := ownEntries_expireList hne hall
  exact h.of_own hsame fun _ => hlen

theorem Retained.mono {earlier : Time} (h : Retained args isRead last lri) (hle : earlier ≤ last) :
    Retained args isRead earlier lri := by
  obtain ⟨time, htime, hown⟩ := h.own
  exact ⟨⟨time, hle.trans htime, hown⟩, h.alone⟩

theorem Retained.grant {l' : TimedMap} (hnew : ∀ r ∈ args.locked isRead, ownEntries args (l r) = [])
    (h : l.grant now args isRead = (true, l')) (hr : r ∈ args.locked isRead) : Retained args isRead now (l' r) := by
  have hisOf : ∀ writer, TimedEntry.isOf args ⟨args.entry writer, now⟩ = true := fun writer => by
    simp [TimedEntry.isOf, LockArgs.entry]
  cases isRead with
  | true =>
    obtain rfl : r = args.first := mem_singleton.mp hr
    simp only [TimedMap.grant, if_true, TimedMap.rLock] at h
    split_ifs at h
    · cases h
    · obtain rfl := (Prod.mk.inj h).2
      refine ⟨⟨now, le_rfl, ?_⟩, fun hw => by cases hw⟩
      have hnone := hnew _ hr
      rw [ownEntries] at hnone
      rw [update_self, ownEntries, filter_append, hnone, filter_cons, if_pos (hisOf _)]
      rfl
  | false =>
    simp only [TimedMap.grant, Bool.false_eq_true, if_false, TimedMap.lock] at h
    split_ifs at h
    · cases h
    · obtain rfl := (Prod.mk.inj h).2
      have hmem : r ∈ args.resources := hr
      rw [foldl_update_apply, if_pos hmem]
      refine ⟨⟨now, le_rfl, ?_⟩, fun _ => rfl⟩
      rw [ownEntries, filter_cons, if_pos (hisOf _)]
      rfl

end Retained

/-! ## Runs -/

section Lease

variable {isRead : Bool}

/-- What every state of a lease keeps if the first resource is the only one that has to be refreshed. -/
structure LeaseInv (args : LockArgs) (isRead : Bool) (s : Lease) : Prop where
  last : s.last ≤ s.now
  kept : ∀ r ∈ args.locked isRead, Retained args isRead s.last (s.table r)

variable {s : Lease}

theorem LeaseInv.step {t : Lease} (h : LeaseInv args isRead s)
    (hfirst : 0 < interval → ∀ r ∈ args.locked isRead, r = args.first)
    (hstep : (lease args isRead interval).step s t) : LeaseInv args isRead t := by
  obtain ⟨hnow, hfresh, call, hcall, htable, hlast⟩ := hstep
  have hle : s.last ≤ t.now := h.last.trans hnow
  have hkeep : t.last = s.last → (∀ r ∈ args.locked isRead, Retained args isRead s.last (t.table r)) →
      LeaseInv args isRead t := fun hlast h => ⟨hlast ▸ hle, hlast ▸ h⟩
  rw [htable] at hkeep
  cases call with
  | lock other =>
    refine hkeep hlast fun r hr => ?_
    show Retained _ _ _ ((s.table.lock t.now other).2 r)
    rw [(lock_of_retained (h.kept r hr)).2]
    exact h.kept r hr
  | rLock other => exact hkeep hlast fun r hr => (h.kept r hr).rLock hcall
  | unlock other => exact hkeep hlast fun r hr => (h.kept r hr).unlock hcall
  | rUnlock other => exact hkeep hlast fun r hr => (h.kept r hr).rUnlock hcall
  | forceUnlock other => exact hkeep hlast fun r hr => (h.kept r hr).forceUnlock (hcall r hr)
  | expire => exact hkeep hlast fun r hr => (h.kept r hr).expire hfresh
  | refresh other =>
    by_cases hown : other = args
    · subst hown
      have hfirstMem : other.first ∈ other.locked isRead := other.first_mem_locked isRead
      have htrue : (s.table.refresh t.now other).1 = true := (h.kept _ hfirstMem).refresh_first.1
      have hlast' : t.last = t.now := hlast.trans (if_pos ⟨rfl, htrue⟩)
      refine ⟨hlast'.le, fun r hr => ?_⟩
      rw [hlast', htable]
      show Retained _ _ _ ((s.table.refresh t.now other).2 r)
      by_cases hr' : r = other.first
      · rw [hr']
        exact (h.kept _ hfirstMem).refresh_first.2
      · -- Without a positive interval no time passes at all.
        have hint : interval ≤ 0 := le_of_not_gt fun hpos => hr' (hfirst hpos r hr)
        rw [refresh_apply, if_neg hr']
        refine (h.kept r hr).mono (hfresh.trans ?_)
        exact add_le_of_nonpos_right hint
    · have hf : args.Foreign other := hcall.resolve_left hown
      exact hkeep (hlast.trans (if_neg fun hc => hown hc.1)) fun r hr => (h.kept r hr).refresh_foreign hf

theorem LeaseInv.of_reachable (hfirst : 0 < interval → ∀ r ∈ args.locked isRead, r = args.first)
    (h : (lease args isRead interval).Reachable s) : LeaseInv args isRead s := by
  refine h.invariant ?_ fun s t _ hs => hs.step hfirst
  rintro s ⟨l, hnew, hgrant, hlast⟩
  exact ⟨hlast.le, fun r hr => hlast ▸ Retained.grant hnew hgrant hr⟩

end Lease

end Otterio
