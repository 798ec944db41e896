import Otterio.Lib.Copies
import Otterio.Lib.Run
import Otterio.Pools.Server

/-!
# Reads across the pools see the last write

`GetObjectInfo` returns the object of the first pool that has one. An object has to be in one pool
only for that to be the last one written.

* `Writes`: the effect of a successful call, which changes one place of one column. Each call has one
  lemma that says which place (`putObject_cases`, `deleteObject_cases`, `completeMultipartUpload_cases`).
* `stable_iff`: reads see the last write, also after a delete, exactly when there is one copy.

`PutObject` and `DeleteObject` go to the pool that has the object. `NewMultipartUpload` does not look
for the object, so that `CompleteMultipartUpload` can make a second copy. It does so exactly when the
call is not `Clear`.
-/

namespace Otterio.Pools

variable {α β : Type} {lib : Unicode} {z z' : Server α} {object uploadID : Bytes} {idx : Nat}
  {v : Option (ObjectInfo α)} {data : Except ObjectError (ObjectInfo α)}

/-! ## Columns -/

def column (z : Server α) (object : Bytes) : List (Option (ObjectInfo α)) :=
  z.map fun p => p.objects object

@[simp] theorem length_column : (column z object).length = z.length := List.length_map _

theorem getElem?_column (i : Nat) : (column z object)[i]? = z[i]?.map fun p => p.objects object := List.getElem?_map

theorem column_set (p : Pool α) : column (z.set idx p) object = (column z object).set idx (p.objects object) :=
  List.map_set

variable {p : Pool α}

theorem column_set_of_eq {p' : Pool α} (hp : z[idx]? = some p) (h : p'.objects object = p.objects object) :
    column (z.set idx p') object = column z object := by
  obtain ⟨hidx, rfl⟩ := List.getElem?_eq_some_iff.mp hp
  rw [column_set, h, ← column_set, List.set_getElem_self]

theorem column_cons (p : Pool α) (z : Server α) : column (p :: z) object = p.objects object :: column z object := rfl

section Loops

variable [Inhabited α] {p : Pool α}

theorem Pool.getObjectInfo_of_some {objInfo : ObjectInfo α} (h : p.objects object = some objInfo) :
    p.getObjectInfo object = (objInfo, none) := by
  rw [Pool.getObjectInfo, h]

theorem Pool.getObjectInfo_of_none (h : p.objects object = none) :
    p.getObjectInfo object = (.zero, some (.objectNotFound (decodeDirObject object))) := by
  rw [Pool.getObjectInfo, h]

theorem loops_eq (z : Server α) (object : Bytes) (i : Nat) :
    poolIdxLoop i (z.map (·.getObjectInfo object)) = ((firstPlace (column z object)).map fun k => .ok (i + k)) ∧
      existingLoop i (z.map (·.getObjectInfo object)) = (firstPlace (column z object)).map fun k => .ok (i + k) := by
  induction z generalizing i with
  | nil => exact ⟨rfl, rfl⟩
  | cons p z ih =>
    rw [List.map_cons, column_cons]
    cases hp : p.objects object with
    | some objInfo =>
      rw [Pool.getObjectInfo_of_some hp, firstPlace_cons_some]
      exact ⟨rfl, rfl⟩
    | none =>
      rw [Pool.getObjectInfo_of_none hp, firstPlace_cons_none, Option.map_map]
      have hnext := ih (i + 1)
      simp only [Nat.add_assoc, Nat.add_comm 1] at hnext
      exact hnext

theorem objectInfoLoop_eq (z : Server α) (object : Bytes) :
    objectInfoLoop (z.map (·.getObjectInfo object)) = (first (column z object)).map (·, none) := by
  induction z with
  | nil => rfl
  | cons p z ih =>
    rw [List.map_cons, column_cons]
    cases hp : p.objects object with
    | some objInfo =>
      rw [Pool.getObjectInfo_of_some hp]
      rfl
    | none =>
      rw [Pool.getObjectInfo_of_none hp]
      exact ih

end Loops

/-! ## The effect of a call -/

/-- A change of one place of one column. -/
structure Writes (z : Server α) (object : Bytes) (idx : Nat) (v : Option (ObjectInfo α)) (z' : Server α) : Prop where
  lt : idx < z.length
  self : column z' object = (column z object).set idx v
  other : ∀ o, o ≠ object → column z' o = column z o

theorem writes_set {uploads : List (Bytes × Bytes)} (hp : z[idx]? = some p) : Writes z object idx v
      (z.set idx { objects := Function.update p.objects object v, uploads := uploads }) where
  lt := (List.getElem?_eq_some_iff.mp hp).1
  self := by
    rw [column_set]
    simp only [Function.update_self]
  other o ho := by
    apply column_set_of_eq hp
    simp only [Function.update_of_ne ho]

theorem onPool_error {call : Pool α → Except ObjectError β × Pool α} {err : ObjectError} (hp : z[idx]? = some p)
    (hcall : call p = (.error err, p)) : onPool z idx call = some (.error err, z) := by
  obtain ⟨hidx, hget⟩ := List.getElem?_eq_some_iff.mp hp
  rw [onPool, hp, Option.map_some, hcall]
  simp only [← hget, List.set_getElem_self]

theorem onPool_ok {call : Pool α → Except ObjectError β × Pool α} {r : β} {uploads : List (Bytes × Bytes)}
    (hp : z[idx]? = some p) (hcall : call p = (.ok r, ⟨Function.update p.objects object v, uploads⟩)) :
    ∃ z', onPool z idx call = some (.ok r, z') ∧ Writes z object idx v z' := by
  refine ⟨z.set idx ⟨Function.update p.objects object v, uploads⟩, ?_, writes_set hp⟩
  rw [onPool, hp, Option.map_some, hcall]

theorem firstPlace_column_lt (h : firstPlace (column z object) = some idx) : idx < z.length := by
  obtain ⟨b, hb⟩ := getElem?_firstPlace h
  simpa using (List.getElem?_eq_some_iff.mp hb).1

section Calls

variable [Inhabited α]

theorem getPoolIdx_cases (hz : z.length ≠ 1) (size : Int) (space : Space) :
    (∃ err, z.getPoolIdx object size space = .error err) ∨
      ∃ idx, idx < z.length ∧ z.getPoolIdx object size space = .ok idx ∧
        ∀ k, firstPlace (column z object) = some k → k = idx := by
  unfold Server.getPoolIdx
  rw [if_neg hz, (loops_eq z object 0).1]
  cases hplace : firstPlace (column z object) with
  | some k =>
    refine .inr ⟨k, firstPlace_column_lt hplace, ?_, fun _ hk => (Option.some.inj hk).symm⟩
    simp only [Option.map_some, Nat.zero_add]
  | none =>
    cases hidx : getAvailablePoolIdx z.length space (int64 (size * 2)) with
    | none => exact .inl ⟨_, rfl⟩
    | some idx => exact .inr ⟨idx, getAvailablePoolIdx_lt hidx, rfl, fun _ hk => by cases hk⟩

theorem putObject_cases (z : Server α) (object : Bytes) (size : Int) (space : Space)
    (data : Except ObjectError (ObjectInfo α)) :
    (∃ err, z.putObject lib object size space data = some (.error err, z)) ∨
      ∃ objInfo idx z', z.putObject lib object size space data = some (.ok objInfo, z') ∧
        Writes z (encodeDirObject object) idx (some objInfo) z' ∧
        ∀ k, firstPlace (column z (encodeDirObject object)) = some k → k = idx := by
  have hpool : ∀ idx, idx < z.length →
      (∃ err, onPool z idx (Pool.putObject (encodeDirObject object) data) = some (.error err, z)) ∨
      ∃ objInfo z', onPool z idx (Pool.putObject (encodeDirObject object) data) =
          some (.ok objInfo, z') ∧ Writes z (encodeDirObject object) idx (some objInfo) z' := by
    intro idx hidx
    have hp := List.getElem?_eq_getElem hidx
    cases data with
    | error err => exact .inl ⟨err, onPool_error hp rfl⟩
    | ok objInfo => exact .inr ⟨objInfo, onPool_ok hp rfl⟩
  unfold Server.putObject
  split
  · exact .inl ⟨_, rfl⟩
  · simp only
    split
    · obtain herr | ⟨objInfo, z', hok, hwrites⟩ := hpool 0 (by omega)
      · exact .inl herr
      · refine .inr ⟨objInfo, 0, z', hok, hwrites, fun k hk => ?_⟩
        have := firstPlace_column_lt hk
        omega
    · rename_i hmany
      obtain ⟨err, herr⟩ | ⟨idx, hidx, hok, haim⟩ := @getPoolIdx_cases α z (encodeDirObject object) _ hmany size space
      · exact .inl ⟨err, by rw [herr]⟩
      · rw [hok]
        obtain herr | ⟨objInfo, z', hok, hwrites⟩ := hpool idx hidx
        · exact .inl herr
        · exact .inr ⟨objInfo, idx, z', hok, hwrites, haim⟩

theorem deleteObject_eq (hcheck : checkBucketAndObjectNames lib object = none)
    (hplace : firstPlace (column z (encodeDirObject object)) = some idx) (failure : Option ObjectError) :
    z.deleteObject lib object failure = onPool z idx (Pool.deleteObject (encodeDirObject object) failure) := by
  have hidx := firstPlace_column_lt hplace
  simp only [Server.deleteObject, hcheck, Server.getPoolIdxExisting]
  split
  · obtain rfl : idx = 0 := by omega
    rfl
  · rw [(loops_eq z _ 0).2, hplace]
    simp only [Option.map_some, Option.getD_some, Nat.zero_add]

theorem deleteObject_of_firstPlace_none (hplace : firstPlace (column z (encodeDirObject object)) = none)
    (failure : Option ObjectError) : ∃ err, z.deleteObject lib object failure = some (.error err, z) := by
  unfold Server.deleteObject
  split
  · exact ⟨_, rfl⟩
  · simp only
    split
    · have hlt : 0 < z.length := by omega
      have hp : z[0]? = some z[0] := List.getElem?_eq_getElem hlt
      refine ⟨.objectNotFound (decodeDirObject (encodeDirObject object)), onPool_error hp ?_⟩
      have hnone : z[0].objects (encodeDirObject object) = none := by
        cases hb : z[0].objects (encodeDirObject object) with
        | none => rfl
        | some b =>
          refine absurd ?_ (not_copy_of_firstPlace hplace 0 b)
          rw [getElem?_column, hp, Option.map_some, hb]
      simp only [Pool.deleteObject, hnone]
    · rename_i hmany
      rw [Server.getPoolIdxExisting, if_neg hmany, (loops_eq z _ 0).2, hplace]
      exact ⟨_, rfl⟩

theorem deleteObject_of_firstPlace (hcheck : checkBucketAndObjectNames lib object = none)
    (hplace : firstPlace (column z (encodeDirObject object)) = some idx) :
    ∃ z', z.deleteObject lib object none = some (.ok (), z') ∧ Writes z (encodeDirObject object) idx none z' := by
  obtain ⟨b, hb⟩ := getElem?_firstPlace hplace
  rw [getElem?_column, Option.map_eq_some_iff] at hb
  obtain ⟨p, hp, hb⟩ := hb
  rw [deleteObject_eq hcheck hplace]
  have hcall : Pool.deleteObject (encodeDirObject object) none p =
      (.ok (), ⟨Function.update p.objects (encodeDirObject object) none, p.uploads⟩) := by
    simp only [Pool.deleteObject, hb]
  exact onPool_ok hp hcall

theorem deleteObject_cases (z : Server α) (object : Bytes) (failure : Option ObjectError) :
    (∃ err, z.deleteObject lib object failure = some (.error err, z)) ∨
      ∃ idx z', z.deleteObject lib object failure = some (.ok (), z') ∧
        Writes z (encodeDirObject object) idx none z' ∧
        firstPlace (column z (encodeDirObject object)) = some idx := by
  cases hcheck : checkBucketAndObjectNames lib object with
  | some err => exact .inl ⟨err, by simp only [Server.deleteObject, hcheck]⟩
  | none =>
    cases hplace : firstPlace (column z (encodeDirObject object)) with
    | none => exact .inl (deleteObject_of_firstPlace_none hplace failure)
    | some idx =>
      cases failure with
      | none =>
        obtain ⟨z', hok, hwrites⟩ := deleteObject_of_firstPlace hcheck hplace
        exact .inr ⟨idx, z', hok, hwrites, rfl⟩
      | some err =>
        obtain ⟨b, hb⟩ := getElem?_firstPlace hplace
        rw [getElem?_column, Option.map_eq_some_iff] at hb
        obtain ⟨p, hp, hb⟩ := hb
        rw [deleteObject_eq hcheck hplace]
        exact .inl ⟨err, onPool_error hp (by simp only [Pool.deleteObject, hb])⟩

end Calls

theorem newMultipartUpload_column (z : Server α) (object : Bytes) (space : Space) (uploadID : Bytes) :
    ∃ r z', z.newMultipartUpload lib object space uploadID = some (r, z') ∧ ∀ o, column z' o = column z o := by
  have hpool : ∀ idx, idx < z.length → ∃ r z', onPool z idx (Pool.newMultipartUpload object uploadID) = some (r, z') ∧
        ∀ o, column z' o = column z o := by
    intro idx hidx
    refine ⟨_, _, by rw [onPool, List.getElem?_eq_getElem hidx]; rfl, fun o => ?_⟩
    exact column_set_of_eq (List.getElem?_eq_getElem hidx) rfl
  unfold Server.newMultipartUpload
  split
  · exact ⟨_, _, rfl, fun _ => rfl⟩
  · split
    · exact hpool 0 (by omega)
    · split
      · rename_i idx hidx
        exact hpool idx (List.findIdx?_eq_some_iff_getElem.mp hidx).1
      · split
        · exact ⟨_, _, rfl, fun _ => rfl⟩
        · rename_i idx hidx
          exact hpool idx (getAvailablePoolIdx_lt hidx)

/-- The first pool that has an upload. -/
def uploadPlace (z : Server α) (object uploadID : Bytes) : Option Nat :=
  z.findIdx? fun p => (p.getMultipartInfo object uploadID).isNone

theorem getMultipartInfo_of_uploadPlace (h : uploadPlace z object uploadID = some idx) :
    ∃ p, z[idx]? = some p ∧ p.getMultipartInfo object uploadID = none := by
  obtain ⟨hidx, hnone, -⟩ := List.findIdx?_eq_some_iff_getElem.mp h
  exact ⟨z[idx], List.getElem?_eq_getElem hidx, Option.isNone_iff_eq_none.mp hnone⟩

theorem completeMultipartUpload_of_place (hcheck : checkObjectArgs lib object = none)
    (hplace : uploadPlace z object uploadID = some idx) (objInfo : ObjectInfo α) :
    ∃ z', z.completeMultipartUpload lib object uploadID (.ok objInfo) = some (.ok objInfo, z') ∧
      Writes z object idx (some objInfo) z' := by
  obtain ⟨p, hp, hinfo⟩ := getMultipartInfo_of_uploadPlace hplace
  have hidx := (List.getElem?_eq_some_iff.mp hp).1
  have hcall : Pool.completeMultipartUpload object uploadID (.ok objInfo) p =
      (.ok objInfo, ⟨Function.update p.objects object (some objInfo), p.uploads.erase (object, uploadID)⟩) := by
    simp only [Pool.completeMultipartUpload, hinfo]
  simp only [Server.completeMultipartUpload, hcheck]
  split
  · obtain rfl : idx = 0 := by omega
    exact onPool_ok hp hcall
  · rw [uploadPlace] at hplace
    rw [hplace]
    exact onPool_ok hp hcall

theorem completeMultipartUpload_cases (z : Server α) (object uploadID : Bytes)
    (data : Except ObjectError (ObjectInfo α)) :
    (∃ err, z.completeMultipartUpload lib object uploadID data = some (.error err, z)) ∨
      ∃ objInfo idx, data = .ok objInfo ∧ checkObjectArgs lib object = none ∧
        uploadPlace z object uploadID = some idx := by
  cases hcheck : checkObjectArgs lib object with
  | some err => exact .inl ⟨err, by simp only [Server.completeMultipartUpload, hcheck]⟩
  | none =>
    cases hplace : uploadPlace z object uploadID with
    | some idx =>
      cases data with
      | ok objInfo => exact .inr ⟨objInfo, idx, rfl, rfl, rfl⟩
      | error err =>
        obtain ⟨p, hp, hinfo⟩ := getMultipartInfo_of_uploadPlace hplace
        have hidx := (List.getElem?_eq_some_iff.mp hp).1
        have herr : onPool z idx (Pool.completeMultipartUpload object uploadID (.error err)) =
            some (.error err, z) := onPool_error hp (by simp only [Pool.completeMultipartUpload, hinfo])
        refine .inl ⟨err, ?_⟩
        simp only [Server.completeMultipartUpload, hcheck]
        split
        · obtain rfl : idx = 0 := by omega
          exact herr
        · rw [uploadPlace] at hplace
          rw [hplace]
          exact herr
    | none =>
      refine .inl ⟨.invalidUploadID object uploadID, ?_⟩
      simp only [Server.completeMultipartUpload, hcheck]
      split
      · have hlt : 0 < z.length := by omega
        have hp : z[0]? = some z[0] := List.getElem?_eq_getElem hlt
        have hinfo : z[0].getMultipartInfo object uploadID = some (.invalidUploadID object uploadID) := by
          have hsome := List.findIdx?_eq_none_iff.mp hplace _ (List.mem_of_getElem? hp)
          unfold Pool.getMultipartInfo at hsome ⊢
          split at hsome
          · cases hsome
          · rename_i hnot
            rw [if_neg hnot]
        exact onPool_error hp (by simp only [Pool.completeMultipartUpload, hinfo])
      · rw [uploadPlace] at hplace
        rw [hplace]

/-! ## Histories -/

/-- The calls of a history, with what they depend on besides the pools. -/
inductive Call (α : Type) where
  | putObject (object : Bytes) (size : Int) (space : Space) (data : Except ObjectError (ObjectInfo α))
  | newMultipartUpload (object : Bytes) (space : Space) (uploadID : Bytes)
  | completeMultipartUpload (object uploadID : Bytes) (data : Except ObjectError (ObjectInfo α))
  | deleteObject (object : Bytes) (failure : Option ObjectError)

def Call.name : Call α → Bytes
  | .putObject object .. => object
  | .newMultipartUpload object .. => object
  | .completeMultipartUpload object .. => object
  | .deleteObject object .. => object

/-- The pools, and the successful changes so far with the most recent one first: of a name, to an
object or to nothing. -/
structure History (α : Type) where
  pools : Server α
  changes : List (Bytes × Option (ObjectInfo α))

namespace History

def init (n : Nat) : History α := ⟨List.replicate n ⟨fun _ => none, []⟩, []⟩

def last (s : History α) (key : Bytes) : Option (ObjectInfo α) := (s.changes.lookup key).join

/-- What a call returned is taken down. -/
def record (s : History α) (object : Bytes) (change : β → Option (ObjectInfo α)) :
    Option (Except ObjectError β × Server α) → History α
  | some (.ok r, z) => ⟨z, (object, change r) :: s.changes⟩
  | some (.error _, z) => ⟨z, s.changes⟩
  | none => s

variable [Inhabited α]

variable (lib) in
def call (s : History α) : Call α → History α
  | .putObject object size space data =>
    s.record object some (s.pools.putObject lib object size space data)
  | .newMultipartUpload object space uploadID =>
    match s.pools.newMultipartUpload lib object space uploadID with
    | some (_, z) => ⟨z, s.changes⟩
    | none => s
  | .completeMultipartUpload object uploadID data =>
    s.record object some (s.pools.completeMultipartUpload lib object uploadID data)
  | .deleteObject object failure =>
    s.record object (fun _ => none) (s.pools.deleteObject lib object failure)

variable (lib) in
/-- The history of a list of calls on `n` empty pools. -/
def after (n : Nat) (calls : List (Call α)) : History α := calls.foldl (call lib) (init n)

variable (lib) in
/-- `GetObjectInfo` returns the object of the most recent change, or `ObjectNotFound`. -/
def ReadsLast (s : History α) (key : Bytes) : Prop :=
  s.pools.getObjectInfo lib key = some (match s.last key with
      | some objInfo => (objInfo, none)
      | none => (.zero, some (.objectNotFound (decodeDirObject (encodeDirObject key)))))

variable (lib) in
/-- A call that completes an upload of `key` finds no copy of the object in another pool. -/
def Clear (s : History α) (key : Bytes) : Call α → Prop
  | .completeMultipartUpload object uploadID data =>
    object = key → checkObjectArgs lib object = none → data.isOk → ∀ idx,
      uploadPlace s.pools object uploadID = some idx → ∀ i p, i ≠ idx → s.pools[i]? = some p → p.objects object = none
  | _ => True

variable {s : History α} {key : Bytes}

theorem getObjectInfo_eq (hkey : checkBucketAndObjectNames lib key = none) (z : Server α) :
    z.getObjectInfo lib key = some (match first (column z (encodeDirObject key)) with
      | some objInfo => (objInfo, none)
      | none => (.zero, some (.objectNotFound (decodeDirObject (encodeDirObject key))))) := by
  simp only [Server.getObjectInfo, hkey]
  split
  · rename_i hone
    obtain ⟨p, rfl⟩ := List.length_eq_one_iff.mp hone
    cases hp : p.objects (encodeDirObject key) with
    | some objInfo =>
      rw [column_cons, hp]
      exact congrArg some (Pool.getObjectInfo_of_some hp)
    | none =>
      rw [column_cons, hp]
      exact congrArg some (Pool.getObjectInfo_of_none hp)
  · rw [objectInfoLoop_eq]
    cases first (column z (encodeDirObject key)) <;> rfl

theorem readsLast_iff (hkey : checkBucketAndObjectNames lib key = none) :
    s.ReadsLast lib key ↔ first (column s.pools (encodeDirObject key)) = s.last key := by
  rw [ReadsLast, getObjectInfo_eq hkey]
  constructor
  · intro h
    cases hf : first (column s.pools (encodeDirObject key)) <;> cases hl : s.last key <;>
      simp_all
  · intro h
    rw [h]

/-! ### Changes -/

/-- A change of one place, taken down. -/
structure Changed (s : History α) (object : Bytes) (idx : Nat) (v : Option (ObjectInfo α))
    (s' : History α) : Prop where
  writes : Writes s.pools (encodeDirObject object) idx v s'.pools
  changes : s'.changes = (object, v) :: s.changes

variable {s' : History α} {v : Option (ObjectInfo α)}

omit [Inhabited α] in
theorem Changed.last_self (h : Changed s key idx v s') : s'.last key = v := by
  rw [last, h.changes, List.lookup_cons_self]
  rfl

omit [Inhabited α] in
theorem Changed.last_ne (h : Changed s object idx v s') (hne : object ≠ key) : s'.last key = s.last key := by
  have hbeq : (key == object) = false := beq_false_of_ne (Ne.symm hne)
  rw [last, h.changes, List.lookup_cons, hbeq]
  rfl

/-- One copy at most, and a read sees it as the most recent change. -/
structure Stable (s : History α) (key : Bytes) : Prop where
  sole : Sole (column s.pools (encodeDirObject key))
  first_eq : first (column s.pools (encodeDirObject key)) = s.last key

omit [Inhabited α] in
theorem Stable.changed (h : s.Stable key) (hc : Changed s object idx v s')
    (hname : encodeDirObject object = encodeDirObject key → object = key)
    (honly : object = key → OnlyAt (column s.pools (encodeDirObject key)) idx) : s'.Stable key := by
  by_cases heq : object = key
  · subst heq
    have hat := honly rfl
    constructor
    · rw [hc.writes.self]
      exact (hat.set v).sole
    · rw [hc.writes.self, hat.first_set (by simpa using hc.writes.lt), hc.last_self]
  · have hother := hc.writes.other (encodeDirObject key) fun henc => heq (hname henc.symm)
    constructor
    · rw [hother]
      exact h.sole
    · rw [hother, h.first_eq, hc.last_ne heq]

theorem Stable.putObject (h : s.Stable key) (hname : encodeDirObject object = encodeDirObject key → object = key)
    (size : Int) (space : Space) (data : Except ObjectError (ObjectInfo α)) :
    (s.call lib (.putObject object size space data)).Stable key := by
  obtain ⟨err, herr⟩ | ⟨objInfo, idx, z', hok, hwrites, haim⟩ :=
    @putObject_cases α lib _ s.pools object size space data
  · simp only [call, herr]
    exact h
  · have hchanged : Changed s object idx (some objInfo)
        (s.call lib (.putObject object size space data)) := by
      simp only [call, hok]
      exact ⟨hwrites, rfl⟩
    refine h.changed hchanged hname ?_
    rintro rfl
    exact h.sole.onlyAt_of_firstPlace haim

theorem Stable.deleteObject (h : s.Stable key) (hname : encodeDirObject object = encodeDirObject key → object = key)
    (failure : Option ObjectError) : (s.call lib (.deleteObject object failure)).Stable key := by
  obtain ⟨err, herr⟩ | ⟨idx, z', hok, hwrites, hplace⟩ := @deleteObject_cases α lib _ s.pools object failure
  · simp only [call, herr]
    exact h
  · have hchanged : Changed s object idx none (s.call lib (.deleteObject object failure)) := by
      simp only [call, hok]
      exact ⟨hwrites, rfl⟩
    refine h.changed hchanged hname ?_
    rintro rfl
    exact h.sole.onlyAt_of_firstPlace fun i hi => Option.some.inj (hi.symm.trans hplace)

theorem Stable.newMultipartUpload (h : s.Stable key) (object : Bytes) (space : Space)
    (uploadID : Bytes) : (s.call lib (.newMultipartUpload object space uploadID)).Stable key := by
  obtain ⟨r, z', hok, hcol⟩ := @newMultipartUpload_column α lib s.pools object space uploadID
  simp only [call, hok]
  constructor
  · rw [hcol]
    exact h.sole
  · rw [hcol]
    exact h.first_eq

omit [Inhabited α] in
theorem onlyAt_column_iff {z : Server α} : OnlyAt (column z object) idx ↔
    ∀ i p, i ≠ idx → z[i]? = some p → p.objects object = none := by
  constructor
  · intro h i p hne hp
    cases hb : p.objects object with
    | none => rfl
    | some b => exact absurd (h i b (by rw [getElem?_column, hp, Option.map_some, hb])) hne
  · intro h i b hi
    by_contra hne
    rw [getElem?_column, Option.map_eq_some_iff] at hi
    obtain ⟨p, hp, hb⟩ := hi
    rw [h i p hne hp] at hb
    cases hb

/-- A completed upload keeps one copy if and only if the call is clear. -/
theorem Stable.completeMultipartUpload_iff (h : s.Stable key)
    (hname : encodeDirObject object = encodeDirObject key → object = key) (uploadID : Bytes)
    (data : Except ObjectError (ObjectInfo α)) :
    (s.call lib (.completeMultipartUpload object uploadID data)).Stable key ↔
      s.Clear lib key (.completeMultipartUpload object uploadID data) := by
  obtain ⟨err, herr⟩ | ⟨objInfo, idx, rfl, hcheck, hplace⟩ :=
    @completeMultipartUpload_cases α lib s.pools object uploadID data
  · -- the call fails: it changes nothing, and it is clear because it would succeed otherwise
    apply iff_of_true
    · simp only [call, herr]
      exact h
    · intro _ hcheck hdata idx hplace
      cases data with
      | error err => cases hdata
      | ok objInfo =>
        obtain ⟨z', hok, -⟩ := completeMultipartUpload_of_place hcheck hplace objInfo
        rw [hok] at herr
        cases herr
  · obtain ⟨z', hok, hwrites⟩ := completeMultipartUpload_of_place hcheck hplace objInfo
    have hchanged : Changed s object idx (some objInfo)
        (s.call lib (.completeMultipartUpload object uploadID (.ok objInfo))) := by
      simp only [call, hok]
      exact ⟨by rwa [encodeDirObject_of_checkObjectArgs hcheck], rfl⟩
    have henc := encodeDirObject_of_checkObjectArgs hcheck
    constructor
    · rintro hstable rfl _ _ idx' hplace'
      obtain rfl := Option.some.inj (hplace.symm.trans hplace')
      rw [← onlyAt_column_iff]
      have hsole := hstable.sole
      rw [hchanged.writes.self, henc] at hsole
      exact .of_sole_set hsole (by simpa using hchanged.writes.lt)
    · intro hclear
      refine h.changed hchanged hname ?_
      rintro rfl
      rw [henc, onlyAt_column_iff]
      exact hclear rfl hcheck rfl idx hplace

/-- Reads see the last write, now and after a delete, exactly when there is one copy at most. -/
theorem stable_iff (hkey : checkBucketAndObjectNames lib key = none) :
    s.ReadsLast lib key ∧ (s.call lib (.deleteObject key none)).ReadsLast lib key ↔ s.Stable key := by
  constructor
  · rintro ⟨hnow, hdeleted⟩
    refine ⟨?_, (readsLast_iff hkey).mp hnow⟩
    cases hplace : firstPlace (column s.pools (encodeDirObject key)) with
    | none => exact sole_of_firstPlace_none hplace
    | some idx =>
      obtain ⟨z', hok, hwrites⟩ := deleteObject_of_firstPlace hkey hplace
      have hchanged : Changed s key idx none (s.call lib (.deleteObject key none)) := by
        simp only [call, hok]
        exact ⟨hwrites, rfl⟩
      rw [readsLast_iff hkey, hchanged.writes.self, hchanged.last_self] at hdeleted
      exact .of_first_set_none hdeleted
  · intro h
    exact ⟨(readsLast_iff hkey).mpr h.first_eq,
      (readsLast_iff hkey).mpr (h.deleteObject (fun _ => rfl) none).first_eq⟩

omit [Inhabited α] in
theorem stable_init (n : Nat) (key : Bytes) : (init n : History α).Stable key := by
  have hnone : firstPlace (column (init n : History α).pools (encodeDirObject key)) = none := by
    rw [firstPlace, List.findIdx?_eq_none_iff]
    intro v hv
    obtain ⟨p, hp, rfl⟩ := List.mem_map.mp hv
    rw [List.eq_of_mem_replicate hp]
    rfl
  exact ⟨sole_of_firstPlace_none hnone, first_eq_none (not_copy_of_firstPlace hnone)⟩

end History

open History

/-- **Reads see the last write across pools**, after each call of a history and also after a delete at
that point, exactly when every upload of the key is completed while no other pool has the object. The
history has no call on another name that is stored under the same one. -/
theorem reads_last_write_iff [Inhabited α] (n : Nat) {key : Bytes} (hkey : checkBucketAndObjectNames lib key = none)
    (calls : List (Call α)) (hnames : ∀ c ∈ calls, encodeDirObject c.name = encodeDirObject key → c.name = key) :
    (∀ pre, pre <+: calls → (after lib n pre).ReadsLast lib key ∧
        (after lib n (pre ++ [.deleteObject key none])).ReadsLast lib key) ↔
      ∀ pre c, pre ++ [c] <+: calls → (after lib n pre).Clear lib key c := by
  have hprobe : ∀ pre : List (Call α), after lib n (pre ++ [.deleteObject key none]) =
      (after lib n pre).call lib (.deleteObject key none) := by
    intro pre
    rw [after, List.foldl_append]
    rfl
  simp only [hprobe, stable_iff hkey]
  refine holds_along_iff (f := call lib) (I := fun _ => True) (P := fun s => s.Stable key)
    (Q := fun s c => s.Clear lib key c) (fun _ _ _ _ => trivial) ?_ trivial (stable_init n key)
  intro s c hc _ hs
  have hname := hnames c hc
  cases c with
  | putObject object size space data => exact iff_of_true (hs.putObject hname size space data) trivial
  | newMultipartUpload object space uploadID =>
    exact iff_of_true (hs.newMultipartUpload object space uploadID) trivial
  | completeMultipartUpload object uploadID data =>
    exact hs.completeMultipartUpload_iff hname uploadID data
  | deleteObject object failure => exact iff_of_true (hs.deleteObject hname failure) trivial

/-- A text library that is right on printable ASCII. -/
def printable : Unicode := ⟨id, fun _ => true⟩

/-- Two pools of the same free space, the second of which is drawn on demand. -/
def drawing (second : Bool) : Space where
  disks _ := [⟨2 ^ 40, 0⟩]
  wantLeft _ := 0
  rand := if second then 2 ^ 40 + 2 ^ 39 else 0

def numbered (n : Nat) : ObjectInfo Nat := ⟨ascii "a", false, n⟩

/-- An object is written to a pool that is drawn, and by an upload to one that is drawn again. -/
def twoWrites (second second' : Bool) : List (Call Nat) :=
  [.putObject (ascii "a") 0 (drawing second) (.ok (numbered 1)),
    .newMultipartUpload (ascii "a") (drawing second') (ascii "id"),
    .completeMultipartUpload (ascii "a") (ascii "id") (.ok (numbered 2))]

/-- An upload that is drawn to the pool of the object replaces it there. -/
theorem reads_replaced : checkBucketAndObjectNames printable (ascii "a") = none ∧
    (after printable 2 (twoWrites false false)).ReadsLast printable (ascii "a") := by
  have hplace : uploadPlace (after printable 2 ((twoWrites false false).take 2)).pools (ascii "a")
      (ascii "id") = some 0 := by decide +kernel
  have hcolumn : column (after printable 2 ((twoWrites false false).take 2)).pools (ascii "a") =
      [some (numbered 1), none] := by decide +kernel
  refine ⟨by decide, ((reads_last_write_iff 2 (by decide) (twoWrites false false)
    (by decide)).mpr ?_ _ (List.prefix_refl _)).1⟩
  rintro pre c ⟨t, ht⟩
  rcases pre with _ | ⟨c₁, _ | ⟨c₂, _ | ⟨c₃, pre⟩⟩⟩
  · obtain ⟨rfl, -⟩ := List.cons.inj ht
    trivial
  · obtain ⟨-, ht₁⟩ := List.cons.inj ht
    obtain ⟨rfl, -⟩ := List.cons.inj ht₁
    trivial
  · obtain ⟨rfl, ht₁⟩ := List.cons.inj ht
    obtain ⟨rfl, ht₂⟩ := List.cons.inj ht₁
    obtain ⟨rfl, -⟩ := List.cons.inj ht₂
    intro _ _ _ idx hidx
    obtain rfl := Option.some.inj (hplace.symm.trans hidx)
    refine onlyAt_column_iff.mp (hcolumn ▸ ?_)
    rintro (_ | _ | i) b hi
    · rfl
    · cases hi
    · cases hi
  · simp [twoWrites] at ht

/-- Reads that do not see the last write: the object of the first pool is returned after it was
replaced in the second one; an object is back after it was replaced in the first pool and deleted; a
name that was never written has the object of another name. -/
theorem reads_stale : ((after printable 2 (twoWrites false true)).pools.getObjectInfo printable (ascii "a") =
        some (numbered 1, none) ∧
      (after printable 2 (twoWrites false true)).last (ascii "a") = some (numbered 2)) ∧
    ((after printable 2 (twoWrites true false ++ [.deleteObject (ascii "a") none])).pools.getObjectInfo
        printable (ascii "a") = some (numbered 1, none) ∧
      (after printable 2 (twoWrites true false ++ [.deleteObject (ascii "a") none])).last (ascii "a") = none) ∧
    ((after printable 1 [.putObject (ascii "a/") 0 (drawing false) (.ok (numbered 1))]).pools.getObjectInfo
        printable (ascii "a__XLDIR__") = some (numbered 1, none) ∧
      (after printable 1 [.putObject (ascii "a/") 0 (drawing false) (.ok (numbered 1))]).last
        (ascii "a__XLDIR__") = none) := by
  decide +kernel

end Otterio.Pools
