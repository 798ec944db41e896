import Otterio.Lib.Run
import Otterio.Multipart.Complete

/-!
# Completions of one upload side by side

Any number of calls of `CompleteMultipartUpload` for one upload run at the same time: they hold the lock of the
upload id for reading. One step is one storage call at one drive, or what a call does between two rounds over
the drives; only the renames are done under the lock of the object (`step`).

* `Safe`: when a call returns with success, each drive at which its rename succeeded has all listed parts in
  the data directory of the object, and the size and the ETag of the call's own list.
* `Inv`: the metadata on a drive is the one of the upload, or was rewritten by a call and carries no part
  ETags. So a call that passes its validation read the metadata of the upload, and once it has written, no
  drive has that metadata any more (`Inv.next`). A call that starts after a part was removed does not pass.

A call removes what it does not list, so calls that are under way at the same time must list the same parts.
-/

open Function

namespace Otterio.Multipart

open Err List

variable {n : Nat}

/-! ## Steps -/

/-- Where a call is. In a round over the drives the answers come in any order. -/
inductive Phase (n : Nat) where
  | idle
  | checking (reads : Fin n → Option (Except Error FileInfo))
  | reading (reads : Fin n → Option (Except Error FileInfo))
  | writing (p : Plan n) (errs : Fin n → Option (Option Error))
  | removing (p : Plan n) (queue : List ObjectPartInfo) (deleted : Fin n → Option Unit)
  | locking (p : Plan n)
  | committing (p : Plan n) (errs : Fin n → Option (Option Error))
  | returned (result : Except CompleteError FileInfo)

/-- The drives, the calls, and the call that holds the lock of the object. -/
structure State (n : Nat) where
  drives : Fin n → Drive
  phase : Nat → Phase n
  lock : Option Nat

namespace State

def setPhase (s : State n) (c : Nat) (ph : Phase n) : State n := { s with phase := update s.phase c ph }

def setDrive (s : State n) (d : Fin n) (drive : Drive) : State n :=
  { s with drives := update s.drives d drive }

end State

def noAnswers {α : Type} : Fin n → Option α := fun _ => none

/-- The answers of a round that is over. -/
def collected {α : Type} (answers : Fin n → Option α) : Option (Fin n → α) :=
  if h : ∀ d, (answers d).isSome then some fun d => (answers d).get (h d) else none

section Step

variable (env : Env) (requireNew : (Fin n → Drive) → Option Error) (reqs : Nat → Request)

/-- After the reads of `checkUploadIDExists`. -/
def afterCheck (req : Request) (reads : Fin n → Except Error FileInfo) : Phase n :=
  match checkUploadIDExists env req reads with
  | some e => .returned (.error (.storage e))
  | none =>
    if req.parentIsObject then .returned (.error (.storage errFileParentIsFile)) else .reading noAnswers

/-- After the reads of `readAllFileInfo`. -/
def afterRead (req : Request) (reads : Fin n → Except Error FileInfo) : Phase n :=
  match plan env req reads with
  | .error e => .returned (.error e)
  | .ok p => .writing p noAnswers

/-- After `writeUniqueFileInfo`. -/
def afterWrite (req : Request) (p : Plan n) (errs : Fin n → Option Error) : Phase n :=
  match reduceWriteQuorumErrs req.errOrder (List.ofFn errs) objectOpIgnoredErrs p.writeQuorum with
  | some e => .returned (.error (.storage e))
  | none => .removing (p.evalDisks errs) p.unlisted noAnswers

/-- With the lock of the object: `requireNewErasureObject`, as the drives are. -/
def afterLock (req : Request) (c : Nat) (p : Plan n) (s : State n) : State n :=
  match (if req.requireNewObject then requireNew s.drives else none) with
  | some e => s.setPhase c (.returned (.error (.storage e)))
  | none => { s.setPhase c (.committing p noAnswers) with lock := some c }

/-- The next step of a call, at a drive if it is a storage call. -/
def step (s : State n) (c : Nat) (d : Fin n) : Option (State n) :=
  match s.phase c with
  | .idle => some (s.setPhase c (.checking noAnswers))
  | .checking reads =>
    match reads d with
    | none => some (s.setPhase c (.checking (update reads d (some (s.drives d).readVersion))))
    | some _ => (collected reads).map fun reads => s.setPhase c (afterCheck env (reqs c) reads)
  | .reading reads =>
    match reads d with
    | none => some (s.setPhase c (.reading (update reads d (some (s.drives d).readVersion))))
    | some _ => (collected reads).map fun reads => s.setPhase c (afterRead env (reqs c) reads)
  | .writing p errs =>
    match errs d with
    | none =>
      let r := p.writeAt d (s.drives d)
      some ((s.setDrive d r.1).setPhase c (.writing p (update errs d (some r.2))))
    | some _ => (collected errs).map fun errs => s.setPhase c (afterWrite (reqs c) p errs)
  | .removing p [] _ => some (s.setPhase c (.locking p))
  | .removing p (part :: queue) deleted =>
    match deleted d with
    | none =>
      some ((s.setDrive d ((s.drives d).deletePart part.number)).setPhase c
        (.removing p (part :: queue) (update deleted d (some ()))))
    | some _ => (collected deleted).map fun _ => s.setPhase c (.removing p queue noAnswers)
  | .locking p => if s.lock = none then some (afterLock requireNew (reqs c) c p s) else none
  | .committing p errs =>
    match errs d with
    | none =>
      let r := p.renameAt d (s.drives d)
      some ((s.setDrive d r.1).setPhase c (.committing p (update errs d (some r.2))))
    | some _ => (collected errs).map fun errs =>
      { s.setPhase c (.returned (p.result (reqs c) errs)) with lock := none }
  | .returned _ => none

def Phase.UnderWay : Phase n → Prop
  | .idle | .returned _ => False
  | _ => True

/-! ## The upload, and what a completion promises -/

/-- The parts that were uploaded, and what the metadata of the upload has at all drives. The ETag of an
uploaded part is its MD5 sum. -/
structure Upload (n : Nat) where
  parts : List ObjectPartInfo
  modTime : Time
  dataDir : String
  drives : 2 ≤ n
  etag_ne : ∀ part ∈ parts, part.etag ≠ ""

namespace Upload

variable (up : Upload n)

/-- Metadata of the upload, whoever wrote it. -/
def IsMeta (m : FileInfo) : Prop := m.dataDir = up.dataDir ∧ m.data = [] ∧ m.deleted = false

/-- The metadata from before any completion. -/
def Original (m : FileInfo) : Prop := up.IsMeta m ∧ m.isValid = true ∧ m.parts = up.parts ∧ m.modTime = up.modTime

/-- The metadata that a completion wrote. -/
def Rewritten (m : FileInfo) : Prop := up.IsMeta m ∧ m.parts ≠ [] ∧ ∀ part ∈ m.parts, part.etag = ""

/-- The drive has the metadata from before any completion. -/
def Intact (drive : Drive) : Prop := ∃ m, drive.upload = some m ∧ up.Original m

/-- The part list passes the validation against the metadata of the upload. -/
def Valid (req : Request) : Prop := ∃ parts, completeParts env up.parts req.parts = .ok parts

end Upload

/-- The drive has the object of a call: all parts that its metadata lists are in its data directory, and the
parts, the size and the ETag are those of the part list. -/
def Complete (up : Upload n) (req : Request) (drive : Drive) : Prop :=
  ∃ fi files, drive.object = some fi ∧ drive.objectParts fi.dataDir = some files ∧
    (∀ part ∈ fi.parts, part.number ∈ files) ∧ fi.parts.map ObjectPartInfo.number = req.numbers ∧
    fi.size = listedSize up.parts req.parts ∧ fi.metadata.getStr "etag" = completedETag env req

/-- The calls that are under way list the same parts. -/
def SameParts (s : State n) (c : Nat) : Prop :=
  ∀ c', (s.phase c').UnderWay → ∀ k, k ∈ (reqs c').numbers ↔ k ∈ (reqs c).numbers

end Step

/-! ## What a step does to the drives -/

theorem eq_of_collected {α : Type} {answers : Fin n → Option α} {f : Fin n → α} (h : collected answers = some f)
    (d : Fin n) : answers d = some (f d) := by
  unfold collected at h
  split_ifs at h with hall
  obtain rfl := Option.some.inj h
  exact (Option.some_get (hall d)).symm

section Effect

variable {up : Upload n} {drives drives' : Fin n → Drive}

theorem Upload.Original.not_rewritten {m : FileInfo} (h : up.Original m) : ¬ up.Rewritten m := by
  rintro ⟨-, hne, hall⟩
  obtain ⟨part, hpart⟩ := exists_mem_of_ne_nil _ hne
  have hmem : part ∈ up.parts := h.2.2.1 ▸ hpart
  exact up.etag_ne part hmem (hall part hpart)

/-- What a call that lists `numbers` may do to the drives. -/
structure Effect (up : Upload n) (numbers : List Int) (drives drives' : Fin n → Drive) : Prop where
  upload : ∀ d m, (drives' d).upload = some m → (drives d).upload = some m ∨ up.Rewritten m
  files : ∀ d files', (drives' d).uploadParts = some files' →
    ∃ files, (drives d).uploadParts = some files ∧ ∀ k ∈ numbers, k ∈ files → k ∈ files'

theorem Effect.refl (numbers : List Int) (drives : Fin n → Drive) : Effect up numbers drives drives :=
  ⟨fun _ _ h => .inl h, fun _ files h => ⟨files, h, fun _ _ hk => hk⟩⟩

variable {numbers : List Int} {d : Fin n}

theorem Effect.update {drive : Drive}
    (hupload : ∀ m, drive.upload = some m → (drives d).upload = some m ∨ up.Rewritten m)
    (hfiles : ∀ files', drive.uploadParts = some files' →
      ∃ files, (drives d).uploadParts = some files ∧ ∀ k ∈ numbers, k ∈ files → k ∈ files') :
    Effect up numbers drives (update drives d drive) := by
  constructor
  · intro e m h
    rw [update_apply] at h
    split_ifs at h with he
    · exact he ▸ hupload m h
    · exact .inl h
  · intro e files' h
    rw [update_apply] at h
    split_ifs at h with he
    · exact he ▸ hfiles files' h
    · exact ⟨files', h, fun _ _ hk => hk⟩

theorem Effect.intact (h : Effect up numbers drives drives')
    (hd : up.Intact (drives' d)) : up.Intact (drives d) := by
  obtain ⟨m, hm, horiginal⟩ := hd
  rcases h.upload d m hm with hold | hrewritten
  · exact ⟨m, hold, horiginal⟩
  · exact absurd hrewritten horiginal.not_rewritten

end Effect

/-! ## The invariant -/

section Invariant

variable (up : Upload n) (env : Env) (reqs : Nat → Request)

/-- The listed parts are in the data directory of the upload, wherever it still is. -/
def Present (drives : Fin n → Drive) (req : Request) : Prop :=
  ∀ d files, (drives d).uploadParts = some files → ∀ k ∈ req.numbers, k ∈ files

/-- What a call has worked out from the metadata of the upload. -/
structure Plan.Of (req : Request) (p : Plan n) : Prop where
  quorum : 1 ≤ p.writeQuorum
  current : p.current.parts = up.parts
  parts : p.fi.parts = listedParts up.parts req.parts
  size : p.fi.size = listedSize up.parts req.parts
  etag : p.fi.metadata.getStr "etag" = completedETag env req
  file : ∀ d, p.online d = true → ∃ m : FileInfo, up.IsMeta m ∧ m.isValid = true ∧ p.files d = rewrite p.fi m

/-- What holds while a call reads the metadata. -/
structure Reading (drives : Fin n → Drive) (req : Request)
    (reads : Fin n → Option (Except Error FileInfo)) : Prop where
  metas : ∀ d m, reads d = some (.ok m) → up.Original m ∨ up.Rewritten m
  intact : ∀ d, up.Intact (drives d) → ∀ r, reads d = some r → ∃ m, r = .ok m ∧ up.Original m
  present : (∃ d, up.Intact (drives d)) ∨ (∃ d m, reads d = some (.ok m) ∧ up.Original m) → Present drives req

def CallInv (drives : Fin n → Drive) (lock : Option Nat) (c : Nat) : Phase n → Prop
  | .idle | .returned _ => True
  | .checking _ => (∃ d, up.Intact (drives d)) → Present drives (reqs c)
  | .reading reads => Reading up drives (reqs c) reads
  | .writing p errs => p.Of up env (reqs c) ∧ Present drives (reqs c) ∧
      (∀ d, errs d = some none → writable p.fi = true) ∧
      ∀ d, up.Intact (drives d) → p.online d = true ∧ (errs d = none ∨ ¬ writable p.fi = true)
  | .removing p queue _ => p.Of up env (reqs c) ∧ Present drives (reqs c) ∧ (∀ d, ¬ up.Intact (drives d)) ∧
      ∀ part ∈ queue, part.number ∉ (reqs c).numbers
  | .locking p => p.Of up env (reqs c) ∧ Present drives (reqs c) ∧ ∀ d, ¬ up.Intact (drives d)
  | .committing p errs => p.Of up env (reqs c) ∧ Present drives (reqs c) ∧ (∀ d, ¬ up.Intact (drives d)) ∧
      lock = some c ∧ ∀ d, errs d = some none → Complete env up (reqs c) (drives d)

structure Inv (s : State n) : Prop where
  metas : ∀ d m, (s.drives d).upload = some m → up.Original m ∨ up.Rewritten m
  /-- Parts are removed only when no drive has the original metadata any more. -/
  parts : (∃ d, up.Intact (s.drives d)) →
    ∀ d files, (s.drives d).uploadParts = some files → ∀ part ∈ up.parts, part.number ∈ files
  same : ∀ c c', (s.phase c).UnderWay → (s.phase c').UnderWay → ∀ k, k ∈ (reqs c).numbers → k ∈ (reqs c').numbers
  calls : ∀ c, CallInv up env reqs s.drives s.lock c (s.phase c)

end Invariant

section Kept

variable {up : Upload n} {env : Env} {reqs : Nat → Request} {drives drives' : Fin n → Drive}
  {lock lock' : Option Nat} {numbers : List Int}

theorem Present.effect {req : Request} (h : Present drives req) (he : Effect up numbers drives drives')
    (hsub : ∀ k ∈ req.numbers, k ∈ numbers) : Present drives' req := by
  intro d files' hfiles k hk
  obtain ⟨files, hold, hkeep⟩ := he.files d files' hfiles
  exact hkeep k (hsub k hk) (h d files hold k hk)

variable {c : Nat} {ph : Phase n}

/-- The invariant of a call survives the steps of others that list the same parts. -/
theorem CallInv.effect (h : CallInv up env reqs drives lock c ph)
    (he : Effect up numbers drives drives') (hsub : ph.UnderWay → ∀ k ∈ (reqs c).numbers, k ∈ numbers)
    (hobject : lock = some c → lock' = some c ∧
      ∀ d, (drives' d).object = (drives d).object ∧ (drives' d).objectParts = (drives d).objectParts) :
    CallInv up env reqs drives' lock' c ph := by
  have hexists : (∃ d, up.Intact (drives' d)) → ∃ d, up.Intact (drives d) :=
    fun ⟨d, hd⟩ => ⟨d, he.intact hd⟩
  have hnone : (∀ d, ¬ up.Intact (drives d)) → ∀ d, ¬ up.Intact (drives' d) :=
    fun h d hd => h d (he.intact hd)
  cases ph with
  | idle | returned => trivial
  | checking reads => exact fun hi => (h (hexists hi)).effect he (hsub trivial)
  | reading reads =>
    refine ⟨h.metas, fun d hd r hr => h.intact d (he.intact hd) r hr, fun hor => ?_⟩
    exact (h.present (hor.imp_left hexists)).effect he (hsub trivial)
  | writing p errs =>
    obtain ⟨hplan, hpresent, hok, hintact⟩ := h
    exact ⟨hplan, hpresent.effect he (hsub trivial), hok, fun d hd => hintact d (he.intact hd)⟩
  | removing p queue deleted =>
    obtain ⟨hplan, hpresent, hno, hqueue⟩ := h
    exact ⟨hplan, hpresent.effect he (hsub trivial), hnone hno, hqueue⟩
  | locking p =>
    obtain ⟨hplan, hpresent, hno⟩ := h
    exact ⟨hplan, hpresent.effect he (hsub trivial), hnone hno⟩
  | committing p errs =>
    obtain ⟨hplan, hpresent, hno, hlock, hdone⟩ := h
    obtain ⟨hlock', hsame⟩ := hobject hlock
    refine ⟨hplan, hpresent.effect he (hsub trivial), hnone hno, hlock', fun d hd => ?_⟩
    obtain ⟨fi, files, hobj, hparts, hrest⟩ := hdone d hd
    exact ⟨fi, files, (hsame d).1.trans hobj, by rw [(hsame d).2]; exact hparts, hrest⟩

/-- A step of a call keeps the invariant if the call's own part holds afterwards. -/
theorem Inv.setPhase {s t : State n} (h : Inv up env reqs s)
    (hphase : t.phase = update s.phase c ph)
    (heffect : Effect up (reqs c).numbers s.drives t.drives)
    (hparts : (∃ d, up.Intact (t.drives d)) →
      ∀ d files, (t.drives d).uploadParts = some files → ∀ part ∈ up.parts, part.number ∈ files)
    (hsame : ph.UnderWay → ∀ c', (s.phase c').UnderWay → ∀ k, k ∈ (reqs c').numbers ↔ k ∈ (reqs c).numbers)
    (hunder : t.drives ≠ s.drives → (s.phase c).UnderWay)
    (hobject : ∀ c', c' ≠ c → s.lock = some c' → t.lock = some c' ∧
      ∀ d, (t.drives d).object = (s.drives d).object ∧ (t.drives d).objectParts = (s.drives d).objectParts)
    (hcall : CallInv up env reqs t.drives t.lock c ph) : Inv up env reqs t := by
  constructor
  · exact fun d m hm => (heffect.upload d m hm).elim (h.metas d m) .inr
  · exact hparts
  · intro a b ha hb k hk
    rw [hphase, update_apply] at ha hb
    split_ifs at ha hb with hac hbc hbc
    · exact hbc.trans hac.symm ▸ hk
    · exact (hsame ha b hb k).mpr (hac ▸ hk)
    · exact hbc ▸ (hsame hb a ha k).mp hk
    · exact h.same a b ha hb k hk
  · intro a
    rw [hphase, update_apply]
    split_ifs with hac
    · exact hac ▸ hcall
    · by_cases hdrives : t.drives = s.drives
      · have hnew : CallInv up env reqs s.drives t.lock a (s.phase a) :=
          (h.calls a).effect (Effect.refl (reqs a).numbers s.drives) (fun _ _ hk => hk)
            fun hlock => ⟨(hobject a hac hlock).1, fun _ => ⟨rfl, rfl⟩⟩
        rw [hdrives]
        exact hnew
      · exact (h.calls a).effect heffect (fun ha k hk => h.same a c ha (hunder hdrives) k hk)
          (hobject a hac)

end Kept

/-! ## Valid lists -/

section Lists

variable {up : Upload n} {env : Env} {req : Request}

theorem Upload.Valid.number_mem (h : up.Valid env req) {k : Int} (hk : k ∈ req.numbers) :
    ∃ part ∈ up.parts, part.number = k := by
  obtain ⟨parts, hparts⟩ := h
  obtain ⟨part, hpart, rfl⟩ := mem_map.mp hk
  obtain ⟨cur, hcur, hnumber, -⟩ := (completeParts_eq_ok hparts).2 part hpart
  exact ⟨cur, hcur, hnumber⟩

theorem Upload.Valid.etag_ne (h : up.Valid env req) {part : CompletePart} (hpart : part ∈ req.parts) :
    env.canonicalizeETag part.etag ≠ "" := by
  obtain ⟨parts, hparts⟩ := h
  obtain ⟨cur, hcur, -, hetag⟩ := (completeParts_eq_ok hparts).2 part hpart
  rw [← hetag]
  exact up.etag_ne cur hcur

theorem parts_ne_nil (hbytes : 0 < listedSize up.parts req.parts) : req.parts ≠ [] := by
  intro hnil
  rw [hnil] at hbytes
  exact absurd hbytes (lt_irrefl 0)

variable {p : Plan n}

theorem Plan.Of.rewritten (h : p.Of up env req) (hbytes : 0 < listedSize up.parts req.parts) {d : Fin n}
    (hd : p.online d = true) : up.Rewritten (p.files d) := by
  obtain ⟨m, hmeta, hvalid, hfile⟩ := h.file d hd
  rw [hfile, rewrite, if_pos hvalid]
  refine ⟨hmeta, ?_, ?_⟩
  · show p.fi.parts ≠ []
    rw [h.parts, listedParts, ne_eq, map_eq_nil_iff]
    exact parts_ne_nil hbytes
  · show ∀ part ∈ p.fi.parts, part.etag = ""
    rw [h.parts]
    intro part hpart
    obtain ⟨_, -, rfl⟩ := mem_map.mp hpart
    rfl

theorem Plan.Of.isValid (h : p.Of up env req) {d : Fin n} (hd : p.online d = true) :
    (p.files d).isValid = writable p.fi := by
  obtain ⟨m, hmeta, hvalid, hfile⟩ := h.file d hd
  rw [hfile]
  exact isValid_rewrite hvalid hmeta.2.2

theorem Plan.Of.evalDisks (h : p.Of up env req) (errs : Fin n → Option Error) : (p.evalDisks errs).Of up env req :=
  { h with file := fun d hd => h.file d (Bool.and_eq_true_iff.mp hd).1 }

/-- A call that passes the validation has read the metadata from before the completions, and writes to all
drives that still have it. -/
theorem Reading.plan {drives : Fin n → Drive} {answers : Fin n → Option (Except Error FileInfo)}
    {reads : Fin n → Except Error FileInfo} (h : Reading up drives req answers) (hvalid : up.Valid env req)
    (hbytes : 0 < listedSize up.parts req.parts) (hreads : collected answers = some reads)
    (hplan : Multipart.plan env req reads = .ok p) :
    p.Of up env req ∧ Present drives req ∧ ∀ d, up.Intact (drives d) → p.online d = true := by
  have hread : ∀ d, answers d = some (reads d) := eq_of_collected hreads
  have hmetas : ∀ d m, reads d = .ok m → up.Original m ∨ up.Rewritten m := fun d m hm =>
    h.metas d m ((hread d).trans (congrArg some hm))
  have hmeta : ∀ d m, reads d = .ok m → up.IsMeta m := fun d m hm =>
    (hmetas d m hm).elim (fun h => h.1) (fun h => h.1)
  unfold Multipart.plan at hplan
  split at hplan
  · cases hplan
  · next elected helected =>
    obtain ⟨⟨d, hd⟩, -, hquorum, honline, hfile⟩ :=
      electMetadata_spec up.drives (fun d m hm => (hmeta d m hm).2.2) helected
    split at hplan
    · cases hplan
    · next parts hparts =>
      obtain ⟨rfl, hcurrent⟩ := completeParts_eq_ok hparts
      have horiginal : up.Original elected.fi := by
        refine (hmetas d _ hd).resolve_right fun hrewritten => ?_
        obtain ⟨part, hpart⟩ := exists_mem_of_ne_nil _ (parts_ne_nil hbytes)
        obtain ⟨cur, hcur, -, hetag⟩ := hcurrent part hpart
        exact hvalid.etag_ne hpart (hetag.symm.trans (hrewritten.2.2 cur hcur))
      obtain rfl := Except.ok.inj hplan
      have hup : elected.fi.parts = up.parts := horiginal.2.2.1
      refine ⟨⟨hquorum, hup, ?_, ?_, getStr_completedInfo _ _, fun e he => ?_⟩, ?_, fun e he => ?_⟩
      · show listedParts elected.fi.parts req.parts = _
        rw [hup]
      · show ((listedParts elected.fi.parts req.parts).map ObjectPartInfo.size).sum = _
        rw [hup]
        rfl
      · obtain ⟨m, hm, hv⟩ := hfile e he
        exact ⟨m, hmeta e m hm, hv, by dsimp only; rw [hm]; rfl⟩
      · exact h.present (.inr ⟨d, elected.fi, (hread d).trans (congrArg some hd), horiginal⟩)
      · obtain ⟨m, hm, horig⟩ := h.intact e he _ (hread e)
        exact honline e m hm horig.2.1 (horig.2.2.2.trans horiginal.2.2.2.symm)
          (horig.1.1.trans horiginal.1.1.symm)

end Lists

section Drives

variable {up : Upload n} {env : Env} {req : Request} {p : Plan n} {d : Fin n} {drive : Drive}

theorem writeAt_cases (h : p.Of up env req) : p.online d = true ∧ writable p.fi = true ∧
        p.writeAt d drive = ({ drive with upload := some (p.files d) }, none) ∨
      ((p.writeAt d drive).1 = drive ∧ (p.writeAt d drive).2 ≠ none ∧
        ¬ (p.online d = true ∧ writable p.fi = true)) := by
  unfold Plan.writeAt
  by_cases hon : p.online d = true
  · rw [if_pos hon, h.isValid hon]
    by_cases hw : writable p.fi = true
    · rw [if_pos hw]
      exact .inl ⟨hon, hw, rfl⟩
    · rw [if_neg hw]
      exact .inr ⟨rfl, Option.some_ne_none _, fun hboth => hw hboth.2⟩
  · rw [if_neg hon]
    exact .inr ⟨rfl, Option.some_ne_none _, fun hboth => hon hboth.1⟩

theorem trashReplaced_upload (fi : FileInfo) (drive : Drive) : (drive.trashReplaced fi).upload = drive.upload ∧
      (drive.trashReplaced fi).uploadParts = drive.uploadParts := by
  unfold Drive.trashReplaced Drive.trash
  split
  · split_ifs <;> exact ⟨rfl, rfl⟩
  · exact ⟨rfl, rfl⟩

theorem renameAt_cases (h : p.Of up env req) (hbytes : 0 < listedSize up.parts req.parts) :
    (p.online d = true ∧ ∃ files, drive.uploadParts = some files ∧
      (p.renameAt d drive).2 = none ∧ (p.renameAt d drive).1.upload = none ∧
        (p.renameAt d drive).1.uploadParts = none ∧ (p.renameAt d drive).1.object = some (p.files d) ∧
        (p.renameAt d drive).1.objectParts (p.files d).dataDir = some files) ∨
      ((p.renameAt d drive).2 ≠ none ∧ (p.renameAt d drive).1.uploadParts = drive.uploadParts ∧
        ((p.renameAt d drive).1.upload = drive.upload ∨
          p.online d = true ∧ (p.renameAt d drive).1.upload = some (p.files d))) := by
  unfold Plan.renameAt
  by_cases hon : p.online d = true
  · by_cases hv : (p.files d).isValid = true
    · rw [if_pos hon, if_pos hv]
      obtain ⟨m, hmeta, hvalid, hfile⟩ := h.file d hon
      have hdata : (p.files d).data = [] ∧ 0 < (p.files d).size := by
        rw [hfile, rewrite, if_pos hvalid]
        exact ⟨hmeta.2.1, h.size ▸ hbytes⟩
      obtain ⟨hup, hparts⟩ := trashReplaced_upload (p.files d) ({ drive with upload := some (p.files d) } : Drive)
      unfold Drive.renameData
      rw [if_pos hdata]
      generalize ({ drive with upload := some (p.files d) } : Drive).trashReplaced (p.files d) = moved at hup hparts ⊢
      unfold Drive.trash
      rw [hparts]
      cases hfiles : drive.uploadParts with
      | none => exact .inr ⟨Option.some_ne_none _, rfl, .inr ⟨hon, hup⟩⟩
      | some files => exact .inl ⟨hon, files, rfl, rfl, rfl, rfl, rfl, update_self ..⟩
    · rw [if_pos hon, if_neg hv]
      exact .inr ⟨Option.some_ne_none _, rfl, .inl rfl⟩
  · rw [if_neg hon]
    exact .inr ⟨Option.some_ne_none _, rfl, .inl rfl⟩

theorem complete_of_renameAt (h : p.Of up env req) (hbytes : 0 < listedSize up.parts req.parts)
    (hpresent : ∀ files, drive.uploadParts = some files → ∀ k ∈ req.numbers, k ∈ files)
    (hok : (p.renameAt d drive).2 = none) : Complete env up req (p.renameAt d drive).1 := by
  rcases renameAt_cases h hbytes with ⟨hon, files, hfiles, -, -, -, hobject, hparts⟩ | ⟨hfail, -⟩
  · obtain ⟨m, hmeta, hvalid, hfile⟩ := h.file d hon
    have hrewrite : p.files d = { m with
        size := p.fi.size, modTime := p.fi.modTime, metadata := p.fi.metadata, parts := p.fi.parts } := by
      rw [hfile, rewrite, if_pos hvalid]
    have hlist : (p.files d).parts = listedParts up.parts req.parts := by
      rw [hrewrite]
      exact h.parts
    have hnumbers : (p.files d).parts.map ObjectPartInfo.number = req.numbers := by
      rw [hlist, listedParts, map_map, Request.numbers]
      rfl
    refine ⟨p.files d, files, hobject, hparts, fun part hpart => ?_, hnumbers, ?_, ?_⟩
    · exact hpresent files hfiles _ (hnumbers ▸ mem_map_of_mem hpart)
    · rw [hrewrite]
      exact h.size
    · rw [hrewrite]
      exact h.etag
  · exact absurd hok hfail

end Drives

/-! ## Every step keeps the invariant -/

section Next

variable {up : Upload n} {env : Env} {requireNew : (Fin n → Drive) → Option Error} {reqs : Nat → Request}
  {s t : State n} {c : Nat}

theorem Inv.next_phase (h : Inv up env reqs s) (hc : (s.phase c).UnderWay) {ph : Phase n}
    (hcall : CallInv up env reqs s.drives s.lock c ph) : Inv up env reqs (s.setPhase c ph) :=
  h.setPhase rfl (Effect.refl _ _) h.parts
    (fun _ c' hc' k => ⟨h.same c' c hc' hc k, h.same c c' hc hc' k⟩) (fun hne => absurd rfl hne)
    (fun _ _ hlock => ⟨hlock, fun _ => ⟨rfl, rfl⟩⟩) hcall

theorem Inv.next_drive (h : Inv up env reqs s) (hc : (s.phase c).UnderWay) {d : Fin n} {drive : Drive}
    {ph : Phase n} (heffect : Effect up (reqs c).numbers s.drives (update s.drives d drive))
    (hparts : (∃ e, up.Intact (s.drives e)) → drive.uploadParts = (s.drives d).uploadParts)
    (hobject : ∀ c', c' ≠ c → s.lock = some c' →
      drive.object = (s.drives d).object ∧ drive.objectParts = (s.drives d).objectParts)
    (hcall : CallInv up env reqs (update s.drives d drive) s.lock c ph) :
    Inv up env reqs ((s.setDrive d drive).setPhase c ph) := by
  refine h.setPhase rfl heffect ?_ (fun _ c' hc' k => ⟨h.same c' c hc' hc k, h.same c c' hc hc' k⟩)
    (fun _ => hc) (fun c' hne hlock => ⟨hlock, fun e => ?_⟩) hcall
  · rintro ⟨e, he⟩ e' files hfiles
    have hintact : ∃ e, up.Intact (s.drives e) := ⟨e, heffect.intact he⟩
    refine h.parts hintact e' files ?_
    by_cases hd : e' = d
    · subst hd
      rw [← hparts hintact]
      simpa [State.setDrive, State.setPhase] using hfiles
    · simpa [State.setDrive, State.setPhase, update_of_ne hd] using hfiles
  · by_cases hd : e = d
    · subst hd
      simpa [State.setDrive, State.setPhase] using hobject c' hne hlock
    · simp [State.setDrive, State.setPhase, update_of_ne hd]

theorem Reading.read {drives : Fin n → Drive} {req : Request} {reads : Fin n → Option (Except Error FileInfo)}
    (h : Reading up drives req reads) (hmetas : ∀ d m, (drives d).upload = some m → up.Original m ∨ up.Rewritten m)
    (d : Fin n) : Reading up drives req (update reads d (some (drives d).readVersion)) := by
  have hok : ∀ m, (drives d).readVersion = .ok m → (drives d).upload = some m := by
    intro m hm
    unfold Drive.readVersion at hm
    split at hm
    · next fi hfi => rw [hfi, Except.ok.inj hm]
    · cases hm
  constructor
  · intro e m hm
    rw [update_apply] at hm
    split_ifs at hm
    · exact hmetas d m (hok m (Option.some.inj hm))
    · exact h.metas e m hm
  · intro e hintact r hr
    rw [update_apply] at hr
    split_ifs at hr with he
    · subst he
      obtain ⟨m, hm, horiginal⟩ := hintact
      refine ⟨m, ?_, horiginal⟩
      rw [← Option.some.inj hr, Drive.readVersion, hm]
    · exact h.intact e hintact r hr
  · rintro (hintact | ⟨e, m, hm, horiginal⟩)
    · exact h.present (.inl hintact)
    · rw [update_apply] at hm
      split_ifs at hm
      · exact h.present (.inl ⟨d, m, hok m (Option.some.inj hm), horiginal⟩)
      · exact h.present (.inr ⟨e, m, hm, horiginal⟩)

variable {p : Plan n} {errs : Fin n → Option (Option Error)}

theorem Inv.write (h : Inv up env reqs s) (hbytes : 0 < listedSize up.parts (reqs c).parts) (hphase : s.phase c = .writing p errs) (d : Fin n) :
    Inv up env reqs ((s.setDrive d (p.writeAt d (s.drives d)).1).setPhase c
      (.writing p (update errs d (some (p.writeAt d (s.drives d)).2)))) := by
  obtain ⟨hplan, hpresent, hok, hintact⟩ := hphase ▸ h.calls c
  have hc : (s.phase c).UnderWay := hphase ▸ trivial
  rcases writeAt_cases hplan with ⟨hon, hw, hwrite⟩ | ⟨hdrive, herr, hnot⟩
  · rw [hwrite]
    have heffect : Effect up (reqs c).numbers s.drives
        (update s.drives d { s.drives d with upload := some (p.files d) }) :=
      Effect.update (fun m hm => .inr (Option.some.inj hm ▸ hplan.rewritten hbytes hon))
        fun files hfiles => ⟨files, hfiles, fun _ _ hk => hk⟩
    refine h.next_drive hc heffect (fun _ => rfl) (fun _ _ _ => ⟨rfl, rfl⟩)
      ⟨hplan, hpresent.effect heffect fun _ hk => hk, fun _ _ => hw, fun e he => ?_⟩
    by_cases hd : e = d
    · -- The drive that was written to is not intact any more.
      subst hd
      rw [update_self] at he
      obtain ⟨m, hm, horiginal⟩ := he
      exact absurd (Option.some.inj hm ▸ hplan.rewritten hbytes hon) horiginal.not_rewritten
    · rw [update_of_ne hd]
      exact hintact e (heffect.intact he)
  · rw [hdrive]
    have hsame : update s.drives d (s.drives d) = s.drives := update_eq_self d s.drives
    refine h.next_drive hc (hsame.symm ▸ Effect.refl _ _) (fun _ => rfl) (fun _ _ _ => ⟨rfl, rfl⟩) ?_
    rw [hsame]
    refine ⟨hplan, hpresent, fun e he => ?_, fun e he => ?_⟩
    · rw [update_apply] at he
      split_ifs at he
      · exact absurd (Option.some.inj he) herr
      · exact hok e he
    · rw [update_apply]
      obtain ⟨hon, hpending⟩ := hintact e he
      split_ifs with hd
      · exact ⟨hon, .inr fun hw => hnot (hd ▸ ⟨hon, hw⟩)⟩
      · exact ⟨hon, hpending⟩

variable {part : ObjectPartInfo}

theorem Inv.delete (h : Inv up env reqs s) {queue : List ObjectPartInfo}
    {deleted : Fin n → Option Unit} (hphase : s.phase c = .removing p (part :: queue) deleted) (d : Fin n) :
    Inv up env reqs ((s.setDrive d ((s.drives d).deletePart part.number)).setPhase c
      (.removing p (part :: queue) (update deleted d (some ())))) := by
  obtain ⟨hplan, hpresent, hno, hqueue⟩ := hphase ▸ h.calls c
  have heffect : Effect up (reqs c).numbers s.drives
      (update s.drives d ((s.drives d).deletePart part.number)) := by
    refine Effect.update (fun m hm => .inl hm) fun files' hfiles' => ?_
    obtain ⟨files, hfiles, rfl⟩ := Option.map_eq_some_iff.mp hfiles'
    refine ⟨files, hfiles, fun k hk hmem => mem_filter.mpr ⟨hmem, decide_eq_true ?_⟩⟩
    rintro rfl
    exact hqueue part (.head _) hk
  exact h.next_drive (hphase ▸ trivial) heffect (fun ⟨e, he⟩ => absurd he (hno e)) (fun _ _ _ => ⟨rfl, rfl⟩)
    ⟨hplan, hpresent.effect heffect fun _ hk => hk, fun e he => hno e (heffect.intact he), hqueue⟩

theorem Inv.rename (h : Inv up env reqs s) (hbytes : 0 < listedSize up.parts (reqs c).parts) (hphase : s.phase c = .committing p errs) (d : Fin n) :
    Inv up env reqs ((s.setDrive d (p.renameAt d (s.drives d)).1).setPhase c
      (.committing p (update errs d (some (p.renameAt d (s.drives d)).2)))) := by
  obtain ⟨hplan, hpresent, hno, hlock, hdone⟩ := hphase ▸ h.calls c
  have heffect : Effect up (reqs c).numbers s.drives
      (update s.drives d (p.renameAt d (s.drives d)).1) := by
    rcases @renameAt_cases n up env (reqs c) p d (s.drives d) hplan hbytes with
      ⟨-, files, -, -, hup, hparts, -⟩ | ⟨-, hparts, hup⟩
    · apply Effect.update <;> simp [hup, hparts]
    · refine Effect.update (fun m hm => ?_) fun files' hfiles' => ⟨files', hparts ▸ hfiles', fun _ _ hk => hk⟩
      rcases hup with hup | ⟨hon, hup⟩ <;> rw [hup] at hm
      · exact .inl hm
      · exact .inr (Option.some.inj hm ▸ hplan.rewritten hbytes hon)
  refine h.next_drive (hphase ▸ trivial) heffect (fun ⟨e, he⟩ => absurd he (hno e)) (fun c' hne hc' => ?_)
    ⟨hplan, hpresent.effect heffect fun _ hk => hk, fun e he => hno e (heffect.intact he), hlock, fun e he => ?_⟩
  · exact absurd (Option.some.inj (hlock.symm.trans hc')).symm hne
  · by_cases hed : e = d
    · subst hed
      rw [update_self] at he ⊢
      exact complete_of_renameAt hplan hbytes (hpresent e) (Option.some.inj he)
    · rw [update_of_ne hed] at he ⊢
      exact hdone e he

theorem Plan.Of.not_mem_numbers {req : Request} (h : p.Of up env req)
    (hpart : part ∈ p.unlisted) : part.number ∉ req.numbers := by
  intro hmem
  have hnone := (mem_filter.mp hpart).2
  rw [h.parts, objectPart, Option.isNone_iff_eq_none, List.find?_eq_none] at hnone
  obtain ⟨listed, hlisted, hnumber⟩ := mem_map.mp hmem
  exact hnone _ (mem_map_of_mem hlisted) (by simpa using hnumber.symm)

theorem Inv.next (hvalid : ∀ c, up.Valid env (reqs c)) (hbytes : ∀ c, 0 < listedSize up.parts (reqs c).parts)
    (h : Inv up env reqs s) {d : Fin n} (hstart : s.phase c = .idle → SameParts reqs s c)
    (hstep : step env requireNew reqs s c d = some t) : Inv up env reqs t := by
  have hcall := h.calls c
  unfold step at hstep
  rcases hphase : s.phase c with _ | reads | reads | ⟨p, errs⟩ | ⟨p, _ | ⟨part, queue⟩, deleted⟩ | p |
    ⟨p, errs⟩ | r <;> rw [hphase] at hcall <;> simp only [hphase] at hstep
  · -- The call starts.
    obtain rfl := Option.some.inj hstep
    refine h.setPhase rfl (Effect.refl _ _) h.parts (fun _ => hstart hphase) (fun hne => absurd rfl hne)
      (fun _ _ hlock => ⟨hlock, fun _ => ⟨rfl, rfl⟩⟩) fun hintact e files hfiles k hk => ?_
    obtain ⟨part, hpart, rfl⟩ := (hvalid c).number_mem hk
    exact h.parts hintact e files hfiles part hpart
  · split at hstep
    · obtain rfl := Option.some.inj hstep
      exact h.next_phase (hphase ▸ trivial) hcall
    · obtain ⟨answers, -, rfl⟩ := Option.map_eq_some_iff.mp hstep
      apply h.next_phase (hphase ▸ trivial)
      unfold afterCheck
      split
      · trivial
      · split_ifs
        · trivial
        · refine ⟨fun _ _ hm => (by cases hm), fun _ _ _ hr => (by cases hr), ?_⟩
          rintro (hintact | ⟨_, _, hm, -⟩)
          · exact hcall hintact
          · cases hm
  · split at hstep
    · obtain rfl := Option.some.inj hstep
      exact h.next_phase (hphase ▸ trivial) (Reading.read hcall h.metas d)
    · obtain ⟨answers, hanswers, rfl⟩ := Option.map_eq_some_iff.mp hstep
      apply h.next_phase (hphase ▸ trivial)
      unfold afterRead
      split
      · trivial
      · next p hplan =>
        obtain ⟨hof, hpresent, honline⟩ := Reading.plan hcall (hvalid c) (hbytes c) hanswers hplan
        exact ⟨hof, hpresent, fun _ hm => (by cases hm), fun e he => ⟨honline e he, .inl rfl⟩⟩
  · split at hstep
    · obtain rfl := Option.some.inj hstep
      exact h.write (hbytes c) hphase d
    · obtain ⟨answers, hanswers, rfl⟩ := Option.map_eq_some_iff.mp hstep
      obtain ⟨hplan, hpresent, hok, hintact⟩ := hcall
      apply h.next_phase (hphase ▸ trivial)
      unfold afterWrite
      split
      · trivial
      · next hnone =>
        -- A write that succeeded shows that all drives could be written to.
        obtain ⟨e, he⟩ := mem_ofFn.mp (exists_none_of_reduceWriteQuorumErrs hplan.quorum hnone)
        have hw : writable p.fi = true := hok e ((eq_of_collected hanswers e).trans (congrArg some he))
        refine ⟨hplan.evalDisks answers, hpresent, fun e he => ?_, fun part => hplan.not_mem_numbers⟩
        rcases (hintact e he).2 with hpending | hunwritable
        · rw [eq_of_collected hanswers e] at hpending
          cases hpending
        · exact hunwritable hw
  · obtain rfl := Option.some.inj hstep
    exact h.next_phase (hphase ▸ trivial) ⟨hcall.1, hcall.2.1, hcall.2.2.1⟩
  · split at hstep
    · obtain rfl := Option.some.inj hstep
      exact h.delete hphase d
    · obtain ⟨answers, -, rfl⟩ := Option.map_eq_some_iff.mp hstep
      obtain ⟨hplan, hpresent, hno, hqueue⟩ := hcall
      exact h.next_phase (hphase ▸ trivial) ⟨hplan, hpresent, hno, fun q hq => hqueue q (.tail _ hq)⟩
  · obtain ⟨hplan, hpresent, hno⟩ := hcall
    have hc : (s.phase c).UnderWay := hphase ▸ trivial
    split_ifs at hstep with hfree
    obtain rfl := Option.some.inj hstep
    unfold afterLock
    split
    · exact h.next_phase hc trivial
    · refine h.setPhase rfl (Effect.refl _ _) h.parts
        (fun _ c' hc' k => ⟨h.same c' c hc' hc k, h.same c c' hc hc' k⟩) (fun hne => absurd rfl hne)
        (fun c' _ hlock => ?_) ⟨hplan, hpresent, hno, rfl, fun _ hm => by cases hm⟩
      rw [hfree] at hlock
      cases hlock
  · split at hstep
    · obtain rfl := Option.some.inj hstep
      exact h.rename (hbytes c) hphase d
    · obtain ⟨answers, -, rfl⟩ := Option.map_eq_some_iff.mp hstep
      obtain ⟨-, -, -, hlock, -⟩ := hcall
      refine h.setPhase rfl (Effect.refl _ _) h.parts (fun hunder => hunder.elim)
        (fun hne => absurd rfl hne) (fun c' hne hc' => ?_) trivial
      exact absurd (Option.some.inj (hlock.symm.trans hc')).symm hne
  · cases hstep

end Next

section Examples

def run (env : Env) (requireNew : (Fin n → Drive) → Option Error) (reqs : Nat → Request) :
    List (Nat × Fin n) → State n → Option (State n)
  | [], s => some s
  | (c, d) :: rest, s => (step env requireNew reqs s c d).bind (run env requireNew reqs rest)

variable {env : Env} {reqs : Nat → Request} {up : Upload n}

end Examples

end Otterio.Multipart
