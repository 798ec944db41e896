import Otterio.Multipart.Complete

/-!
# Metadata that the drives share

All drives that have the upload have the same metadata, but for the index of the drive; the others answer that
there is none. Then the upload is found and its metadata is elected exactly if the vote can elect the
modification time and a write quorum of drives has the metadata (`electMetadata_shared`,
`electable_of_electMetadata`).
-/

namespace Otterio

open Err List

/-! ## Votes without opposition -/

variable {o : IterOrder (Option Error × Nat)} {quorum : Int} {quorumErr : Error}

/-- No error is reported if enough drives have none, and no error is more frequent. -/
theorem reduceQuorumErrs_eq_none {errs : List (Option Error)}
    {ignored : List Error} (hmem : none ∈ errs)
    (hquorum : quorum ≤ frequency errs none)
    (hmax : ∀ e, isErrIgnored (some e) ignored = false → frequency errs (some e) ≤ frequency errs none) :
    reduceQuorumErrs o errs ignored quorum quorumErr = none := by
  have hin : (none, frequency errs none) ∈ o.order (tally (errs.filter fun err => !isErrIgnored err ignored)) := by
    rw [IterOrder.mem_order, mem_tally]
    exact ⟨mem_filter.mpr ⟨hmem, by simp⟩, (frequency_filter (isErrIgnored_none ignored)).symm⟩
  have hle : ∀ e ∈ o.order (tally (errs.filter fun err => !isErrIgnored err ignored)), e.2 ≤ frequency errs none := by
    rintro ⟨err, k⟩ he
    rw [IterOrder.mem_order, mem_tally, mem_filter, Bool.not_eq_true'] at he
    obtain ⟨⟨-, herr⟩, hk⟩ := he
    refine (hk.trans (frequency_filter herr)).trans_le ?_
    cases err with
    | none => exact le_refl _
    | some e => exact hmax e herr
  have hwinner : (reduceErrs o errs ignored).2 = none := by
    refine electBy_of_preferred (e := (none, frequency errs none)) hin hle (fun _ => rfl) ?_ (Nat.zero_le _)
    rintro ⟨err, k⟩ - hnone
    exact Option.isNone_iff_eq_none.mp hnone
  have hge : frequency errs none ≤ (reduceErrs o errs ignored).1 := electBy_count_ge hin (0, none)
  unfold reduceQuorumErrs
  rw [if_pos (by omega), hwinner]

def Votable (t : Time) : Prop := t ≠ timeSentinel ∧ t.Representable

instance (t : Time) : Decidable (Votable t) := inferInstanceAs (Decidable (_ ∧ _))

section Unopposed

variable {partsMetadata : List FileInfo} {errs : List (Option Error)} {T : Time} {D : String}
  {r : FileInfo × Option Error}

theorem commonTime_snd_of_all (o : VoteOrder) (hr : r ∈ partsMetadata.zip errs) (hnone : r.2 = none)
    (hall : ∀ r ∈ partsMetadata.zip errs, r.2 = none → r.1.dataDir = D) :
    (commonTime o (listObjectModtimes partsMetadata errs) (listDataDirs partsMetadata errs)).2 = D := by
  unfold commonTime
  dsimp only
  have hmem : ∀ x ∈ (listDataDirs partsMetadata errs).filter (· != ""), x = D := by
    intro x hx
    obtain ⟨hx, hne⟩ := mem_filter.mp hx
    rw [listDataDirs_eq_map] at hx
    obtain ⟨r', hr', rfl⟩ := mem_map.mp hx
    cases he : r'.2 with
    | none => simpa [he] using hall r' hr' he
    | some e => simp [he] at hne
  by_cases hnil : (listDataDirs partsMetadata errs).filter (· != "") = []
  · rw [hnil, tally_nil, IterOrder.order_nil, electBy_nil]
    have hin : D ∈ listDataDirs partsMetadata errs := by
      rw [listDataDirs_eq_map]
      exact mem_map.mpr ⟨r, hr, by simp [hnone, hall r hr hnone]⟩
    have := filter_eq_nil_iff.mp hnil D hin
    simpa using (by simpa using this : D = "").symm
  · obtain ⟨x, hx, helected⟩ := electBy_tally_mem (t := fun _ _ => false) (f := id) o.dir hnil ""
    rw [helected]
    exact hmem x hx

theorem commonTime_fst_of_all (o : VoteOrder) (hr : r ∈ partsMetadata.zip errs) (hnone : r.2 = none)
    (hall : ∀ r ∈ partsMetadata.zip errs, r.2 = none → r.1.modTime = T) :
    (commonTime o (listObjectModtimes partsMetadata errs) (listDataDirs partsMetadata errs)).1 = T ↔ Votable T := by
  by_cases hT : T = timeSentinel
  · rw [commonTime_fst_eq_zero o fun r hr he => (hall r hr he).trans hT]
    refine ⟨fun h => absurd (h.trans hT) Time.zero_ne_epoch, fun h => absurd hT h.1⟩
  · obtain ⟨r', hr', he', -, heq⟩ := commonTime_fst_mem o hr hnone (by rw [hall r hr hnone]; exact hT)
    rw [heq, hall r' hr' he']
    exact ⟨fun h => ⟨hT, h⟩, fun h => h.2⟩

end Unopposed

/-- Among entries with the same text, the first one that is eligible is found. -/
theorem findFileInfoInQuorum_of_same {pl : Platform} {o : IterOrder (String × Nat)} {metaArr : List Examined}
    {modTime : Time} {dataDir : String} {text : List Char} (quorum : Nat)
    (hsame : ∀ e ∈ metaArr, eligible modTime dataDir e = true → snapshotText pl e = text)
    (hex : ∃ e ∈ metaArr, eligible modTime dataDir e = true) :
    (quorum ≤ metaArr.countP (eligible modTime dataDir) → ∃ e ∈ metaArr, eligible modTime dataDir e = true ∧
      findFileInfoInQuorum pl o metaArr modTime dataDir quorum = .ok e) ∧
    (¬ quorum ≤ metaArr.countP (eligible modTime dataDir) →
      findFileInfoInQuorum pl o metaArr modTime dataDir quorum = .error errErasureReadQuorum) := by
  have hhash : ∀ e ∈ metaArr, eligible modTime dataDir e = true →
      metaHash pl modTime dataDir e = hexEncode (pl.sha256 text) := by
    intro e he hel
    rw [metaHash, if_pos hel, hsame e he hel]
  have hkept : ∀ e, (metaHash pl modTime dataDir e != "") = eligible modTime dataDir e := by
    intro e
    have hiff : metaHash pl modTime dataDir e = "" ↔ eligible modTime dataDir e = false := metaHash_eq_empty_iff pl e
    cases hel : eligible modTime dataDir e <;> simp_all
  have hlist : (metaArr.map (metaHash pl modTime dataDir)).filter (· != "") =
      replicate (metaArr.countP (eligible modTime dataDir)) (hexEncode (pl.sha256 text)) := by
    rw [filter_map, countP_eq_length_filter]
    refine eq_replicate_iff.mpr ⟨?_, ?_⟩
    · rw [length_map]
      congr 1
      exact filter_congr fun e _ => hkept e
    · intro x hx
      obtain ⟨e, he, rfl⟩ := mem_map.mp hx
      obtain ⟨he, hne⟩ := mem_filter.mp he
      exact hhash e he ((hkept e).symm.trans hne)
  obtain ⟨e₀, he₀, hel₀⟩ := hex
  have hpos : 0 < metaArr.countP (eligible modTime dataDir) := countP_pos_iff.mpr ⟨e₀, he₀, hel₀⟩
  have helected : electBy (fun _ _ => false) id (o.order (tally
      ((metaArr.map (metaHash pl modTime dataDir)).filter (· != "")))) (0, "") =
      (metaArr.countP (eligible modTime dataDir), hexEncode (pl.sha256 text)) := by
    rw [hlist]
    rw [electBy_tally_of_dominant o (x := hexEncode (pl.sha256 text))
      (mem_replicate.mpr ⟨by omega, rfl⟩)
      (fun y hy hne => absurd (mem_replicate.mp hy).2 hne), count_replicate_self]
    rfl
  unfold findFileInfoInQuorum
  dsimp only
  rw [helected]
  constructor
  · intro hquorum
    rw [if_neg (by omega)]
    cases hfind : metaArr.find? fun e => metaHash pl modTime dataDir e == hexEncode (pl.sha256 text) with
    | none => exact absurd (by simpa using hhash e₀ he₀ hel₀) (find?_eq_none.mp hfind e₀ he₀)
    | some e =>
      refine ⟨e, mem_of_find?_eq_some hfind, ?_, rfl⟩
      have heq : metaHash pl modTime dataDir e = hexEncode (pl.sha256 text) := by
        simpa using find?_some hfind
      rw [← hkept, heq, ← hhash e₀ he₀ hel₀, hkept]
      exact hel₀
  · intro hquorum
    rw [if_pos (by omega)]

namespace Multipart

variable {n : Nat}

/-! ## Shared metadata -/

def onDrive (fi : FileInfo) (d : Fin n) : FileInfo := { fi with erasure := { fi.erasure with index := d + 1 } }

/-- What the drives answer if those of `has` have the metadata. -/
def sharedReads (fi : FileInfo) (has : Fin n → Bool) (d : Fin n) : Except Error FileInfo :=
  if has d then .ok (onDrive fi d) else .error errFileNotFound

def holders (has : Fin n → Bool) : Nat := (finRange n).countP has

def quorumOf (env : Env) (fi : FileInfo) : Int :=
  if fi.erasure.dataBlocks = configuredParity env.sCfg env.defaultParityCount fi then fi.erasure.dataBlocks + 1
  else fi.erasure.dataBlocks

/-- The metadata is valid at every drive, and its layout is for these drives. -/
structure Sound (n : Nat) (fi : FileInfo) : Prop where
  drives : 2 ≤ n
  valid : ∀ d : Fin n, (onDrive fi d).isValid = true
  deleted : fi.deleted = false
  layout : fi.erasure.dataBlocks + fi.erasure.parityBlocks = n

variable {fi : FileInfo} {has : Fin n → Bool}

theorem Sound.half (h : Sound n fi) (d : Fin n) :
    1 ≤ fi.erasure.dataBlocks ∧ (n : Int) ≤ 2 * fi.erasure.dataBlocks := by
  have hparity := FileInfo.isValid_layout (h.valid d) h.deleted
  change 1 ≤ fi.erasure.parityBlocks ∧ fi.erasure.parityBlocks ≤ fi.erasure.dataBlocks at hparity
  have := h.layout
  omega

theorem holders_pos_iff : 0 < holders has ↔ ∃ d, has d = true := by
  simp [holders, countP_pos_iff]

/-- The errors of the drives, if those without the metadata answer `e`. -/
def sharedErrs (e : Error) (has : Fin n → Bool) : List (Option Error) :=
  (finRange n).map fun d => if has d then none else some e

theorem errArr_shared (fi : FileInfo) (has : Fin n → Bool) :
    errArr (sharedReads fi has) = sharedErrs errFileNotFound has := by
  rw [errArr, ofFn_eq_map]
  refine map_congr_left fun d _ => ?_
  unfold sharedReads
  split_ifs <;> rfl

theorem zip_shared : (metaArr (sharedReads fi has)).zip (errArr (sharedReads fi has)) =
    (finRange n).map fun d => if has d then (onDrive fi d, none) else ({}, some errFileNotFound) := by
  rw [errArr_shared, sharedErrs, metaArr, ofFn_eq_map, zip_map']
  refine map_congr_left fun d _ => ?_
  unfold sharedReads
  split_ifs <;> rfl

theorem mem_zip_shared {r : FileInfo × Option Error}
    (hr : r ∈ (metaArr (sharedReads fi has)).zip (errArr (sharedReads fi has))) (hnone : r.2 = none) :
    ∃ d, has d = true ∧ r.1 = onDrive fi d := by
  rw [zip_shared] at hr
  obtain ⟨d, -, rfl⟩ := mem_map.mp hr
  split_ifs at hnone ⊢ with hd
  exact ⟨d, hd, rfl⟩

variable {d : Fin n}

theorem zip_shared_mem (hd : has d = true) :
    (onDrive fi d, none) ∈ (metaArr (sharedReads fi has)).zip (errArr (sharedReads fi has)) := by
  rw [zip_shared]
  exact mem_map.mpr ⟨d, mem_finRange d, if_pos hd⟩

/-! ## Elections of shared metadata -/

theorem frequency_none_shared (e : Error) (has : Fin n → Bool) : frequency (sharedErrs e has) none = holders has := by
  rw [frequency, sharedErrs, countP_map]
  refine countP_congr fun d _ => ?_
  cases hd : has d <;> simp [hd]

theorem frequency_some_shared (e : Error) (has : Fin n → Bool) :
    frequency (sharedErrs e has) (some e) + holders has = n := by
  have hlen := length_eq_countP_add_countP (l := finRange n) (p := has)
  rw [length_finRange] at hlen
  have hcount : frequency (sharedErrs e has) (some e) = (finRange n).countP fun d => ¬ has d = true := by
    rw [frequency, sharedErrs, countP_map]
    refine countP_congr fun d _ => ?_
    cases hd : has d <;> simp [hd]
  rw [hcount, holders]
  omega

theorem reduceQuorumErrs_shared {e : Error}
    (hhalf : isErrIgnored (some e) objectOpIgnoredErrs = false → n ≤ 2 * holders has) (hquorum : quorum ≤ holders has)
    (hpos : 0 < holders has) : reduceQuorumErrs o (sharedErrs e has) objectOpIgnoredErrs quorum quorumErr = none := by
  have hnone := frequency_none_shared e has
  obtain ⟨d, hd⟩ := holders_pos_iff.mp hpos
  refine reduceQuorumErrs_eq_none (mem_map.mpr ⟨d, mem_finRange d, if_pos hd⟩) (by omega)
    fun e' he' => ?_
  by_cases heq : e' = e
  · subst heq
    have := frequency_some_shared e' has
    have := hhalf he'
    omega
  · have hzero : frequency (sharedErrs e has) (some e') = 0 := by
      rw [frequency, countP_eq_zero]
      intro x hx
      obtain ⟨d, -, rfl⟩ := mem_map.mp hx
      split_ifs <;> simp [Ne.symm heq]
    omega

section Elect

variable {env : Env} {req : Request} (hsound : Sound n fi)

theorem commonTime_shared (o : VoteOrder) (hd : has d = true) :
    (commonTime o (listObjectModtimes (metaArr (sharedReads fi has)) (errArr (sharedReads fi has)))
      (listDataDirs (metaArr (sharedReads fi has)) (errArr (sharedReads fi has)))) = (fi.modTime, fi.dataDir) ↔
    Votable fi.modTime := by
  rw [← commonTime_fst_of_all o (zip_shared_mem hd) rfl (T := fi.modTime) fun r hr hnone => by
    obtain ⟨d', -, hr⟩ := mem_zip_shared hr hnone
    rw [hr]
    rfl]
  rw [Prod.ext_iff]
  refine and_iff_left ?_
  refine commonTime_snd_of_all o (zip_shared_mem hd) rfl fun r hr hnone => ?_
  obtain ⟨d', -, hr⟩ := mem_zip_shared hr hnone
  rw [hr]
  rfl

include hsound

theorem matches_shared (has : Fin n → Bool) (hT : fi.modTime ≠ timeSentinel) :
    (((metaArr (sharedReads fi has)).zip (listObjectModtimes (metaArr (sharedReads fi has))
      (errArr (sharedReads fi has)))).countP fun e => matchesElected fi.modTime fi.dataDir e.1 e.2) =
      holders has := by
  rw [zip_listObjectModtimes, zip_shared, map_map, countP_map]
  refine countP_congr fun d _ => ?_
  have hvalid := hsound.valid d
  cases hd : has d with
  | true => simpa [hd, matchesElected] using ⟨⟨hvalid, rfl⟩, rfl⟩
  | false => simp [hd, matchesElected, Ne.symm hT]

theorem latestMatch_shared (hT : fi.modTime ≠ timeSentinel) (hpos : 0 < holders has) :
    ∃ d : Fin n, (latestMatch fi.modTime fi.dataDir ((metaArr (sharedReads fi has)).zip
      (listObjectModtimes (metaArr (sharedReads fi has)) (errArr (sharedReads fi has))))).2 = onDrive fi d := by
  have hcount := matches_shared hsound has hT
  obtain ⟨t, hmem, hmatch⟩ := latestMatch_snd (T := fi.modTime) (D := fi.dataDir) _ (hcount ▸ hpos)
  generalize (latestMatch fi.modTime fi.dataDir _).2 = latest at hmem hmatch ⊢
  rw [zip_listObjectModtimes, zip_shared, map_map] at hmem
  obtain ⟨d, -, hentry⟩ := mem_map.mp hmem
  obtain ⟨hinfo, -⟩ := Prod.ext_iff.mp hentry
  dsimp only [Function.comp] at hinfo
  cases hd : has d with
  | true =>
    rw [hd] at hinfo
    exact ⟨d, hinfo.symm⟩
  | false =>
    rw [hd] at hinfo
    rw [← hinfo] at hmatch
    unfold matchesElected at hmatch
    simp only [Bool.and_eq_true] at hmatch
    exact absurd hmatch.1.1 not_isValid_zero

theorem getLatestFileInfo_shared (req : Request) (hT : Votable fi.modTime) (hhalf : n ≤ 2 * holders has)
    (hpos : 0 < holders has) :
    ∃ latest, getLatestFileInfo req.voteOrder req.errOrder (metaArr (sharedReads fi has))
      (errArr (sharedReads fi has)) = .ok latest := by
  obtain ⟨d, hd⟩ := holders_pos_iff.mp hpos
  unfold getLatestFileInfo
  rw [length_metaArr, reduceReadQuorumErrs, errArr_shared, reduceQuorumErrs_shared (fun _ => hhalf)
    (by omega) hpos, ← errArr_shared fi]
  dsimp only
  rw [(commonTime_shared req.voteOrder hd).mpr hT]
  rw [latestMatch_fst, matches_shared hsound has hT.1, if_neg (by omega)]
  exact ⟨_, rfl⟩

theorem quorum_eq (hT : Votable fi.modTime) (hpos : 0 < holders has) {latest : FileInfo}
    (hlatest : getLatestFileInfo req.voteOrder req.errOrder (metaArr (sharedReads fi has))
      (errArr (sharedReads fi has)) = .ok latest) :
    objectQuorumFromMeta req.voteOrder req.errOrder env.sCfg (metaArr (sharedReads fi has))
      (errArr (sharedReads fi has)) env.defaultParityCount = .ok (fi.erasure.dataBlocks, quorumOf env fi) := by
  obtain ⟨d, hd⟩ := holders_pos_iff.mp hpos
  obtain ⟨d', hmatch⟩ := latestMatch_shared hsound hT.1 hpos
  rw [objectQuorumFromMeta_of_latest hlatest]
  unfold getLatestFileInfo at hlatest
  split at hlatest
  · cases hlatest
  · dsimp only at hlatest
    rw [(commonTime_shared req.voteOrder hd).mpr hT] at hlatest
    split_ifs at hlatest
    rw [← Except.ok.inj hlatest, hmatch]
    rfl

theorem objectQuorumFromMeta_shared (hT : Votable fi.modTime) (hhalf : n ≤ 2 * holders has) (hpos : 0 < holders has) :
    objectQuorumFromMeta req.voteOrder req.errOrder env.sCfg (metaArr (sharedReads fi has))
      (errArr (sharedReads fi has)) env.defaultParityCount = .ok (fi.erasure.dataBlocks, quorumOf env fi) := by
  obtain ⟨latest, hlatest⟩ := getLatestFileInfo_shared hsound req hT hhalf hpos
  exact quorum_eq hsound hT hpos hlatest

theorem half_of_quorum (hpos : 0 < holders has) (hquorum : quorumOf env fi ≤ holders has) :
    n ≤ 2 * holders has ∧ fi.erasure.dataBlocks ≤ holders has ∧ 1 ≤ quorumOf env fi := by
  obtain ⟨d, -⟩ := holders_pos_iff.mp hpos
  have := hsound.half d
  unfold quorumOf at hquorum ⊢
  split_ifs at hquorum ⊢ <;> omega

theorem findFileInfoInQuorum_shared (env : Env) (now : Time) (o : IterOrder (String × Nat)) (quorum : Nat)
    (hpos : 0 < holders has) :
    let metas := (metaArr (sharedReads fi has)).map (Examined.mk · now)
    (quorum ≤ holders has → ∃ d, has d = true ∧
      findFileInfoInQuorum env.platform o metas fi.modTime fi.dataDir quorum = .ok ⟨onDrive fi d, now⟩) ∧
    (¬ quorum ≤ holders has → findFileInfoInQuorum env.platform o metas fi.modTime fi.dataDir quorum =
      .error errErasureReadQuorum) := by
  intro metas
  have hmetas : metas = (finRange n).map fun d => ⟨if has d then onDrive fi d else {}, now⟩ := by
    simp only [metas, metaArr, ofFn_eq_map, map_map]
    refine map_congr_left fun d _ => ?_
    unfold sharedReads
    cases hd : has d <;> simp [hd, Except.toOption]
  have hel : ∀ d, eligible fi.modTime fi.dataDir ⟨if has d then onDrive fi d else {}, now⟩ = has d := by
    intro d
    unfold eligible
    cases hd : has d with
    | true => simpa using ⟨⟨hsound.valid d, rfl⟩, rfl⟩
    | false =>
      have hnot := not_isValid_zero
      simp_all
  have hcount : metas.countP (eligible fi.modTime fi.dataDir) = holders has := by
    rw [hmetas, countP_map, holders]
    exact countP_congr fun d _ => by simp [hel]
  have hmem : ∀ e ∈ metas, eligible fi.modTime fi.dataDir e = true → ∃ d, has d = true ∧ e = ⟨onDrive fi d, now⟩ := by
    intro e he heligible
    rw [hmetas] at he
    obtain ⟨d, -, rfl⟩ := mem_map.mp he
    have hd := (hel d).symm.trans heligible
    exact ⟨d, hd, by rw [if_pos hd]⟩
  obtain ⟨d, hd⟩ := holders_pos_iff.mp hpos
  obtain ⟨hok, herror⟩ := @findFileInfoInQuorum_of_same env.platform o metas fi.modTime fi.dataDir
    (snapshotText env.platform ⟨onDrive fi d, now⟩) quorum
    (fun e he heligible => by
      obtain ⟨d', -, rfl⟩ := hmem e he heligible
      rfl)
    ⟨_, by rw [hmetas]; exact mem_map_of_mem (mem_finRange d), (hel d).trans hd⟩
  rw [hcount] at hok herror
  refine ⟨fun hquorum => ?_, herror⟩
  obtain ⟨e, he, heligible, hfound⟩ := hok hquorum
  obtain ⟨d', hd', rfl⟩ := hmem e he heligible
  exact ⟨d', hd', hfound⟩

theorem checkUploadIDExists_shared (hT : Votable fi.modTime) (hpos : 0 < holders has)
    (hquorum : quorumOf env fi ≤ holders has) : checkUploadIDExists env req (sharedReads fi has) = none := by
  obtain ⟨hhalf, hdata, -⟩ := half_of_quorum hsound hpos hquorum
  obtain ⟨d, hd⟩ := holders_pos_iff.mp hpos
  unfold checkUploadIDExists
  rw [objectQuorumFromMeta_shared hsound hT hhalf hpos]
  dsimp only
  have hread : reduceReadQuorumErrs req.errOrder (errArr (sharedReads fi has)) objectOpIgnoredErrs
      fi.erasure.dataBlocks = none := by
    rw [errArr_shared]
    exact reduceQuorumErrs_shared (fun _ => hhalf) hdata hpos
  rw [hread]
  rw [(commonTime_shared req.voteOrder hd).mpr hT]
  obtain ⟨d', -, hfound⟩ := (findFileInfoInQuorum_shared hsound env req.now req.hashOrder
    fi.erasure.dataBlocks.toNat hpos).1 (by omega)
  rw [hfound]

theorem online_shared (o : VoteOrder) {d₀ : Fin n} (hd₀ : has d₀ = true) (hT : Votable fi.modTime) :
    (fun d : Fin n => ((listOnlineDisks o (ofFn (some : Fin n → Option (Fin n))) (metaArr (sharedReads fi has))
      (errArr (sharedReads fi has))).1.getD d none).isSome) = has := by
  funext d
  have helected : (listOnlineDisks o (ofFn (some : Fin n → Option (Fin n))) (metaArr (sharedReads fi has))
      (errArr (sharedReads fi has))).2 = (fi.modTime, fi.dataDir) := (commonTime_shared o hd₀).mpr hT
  rw [Bool.eq_iff_iff]
  refine online_iff.trans ?_
  rw [helected]
  unfold sharedReads
  constructor
  · rintro ⟨m, hm, -⟩
    by_contra hd
    rw [if_neg hd] at hm
    cases hm
  · intro hd
    exact ⟨onDrive fi d, if_pos hd, hsound.valid d, rfl, rfl⟩

theorem electMetadata_shared (req : Request) (hT : Votable fi.modTime) (hpos : 0 < holders has)
    (hquorum : quorumOf env fi ≤ holders has) :
    ∃ d, has d = true ∧ electMetadata env req (sharedReads fi has) = .ok ⟨onDrive fi d, has, quorumOf env fi⟩ := by
  obtain ⟨hhalf, hdata, hone⟩ := half_of_quorum hsound hpos hquorum
  obtain ⟨d, hd⟩ := holders_pos_iff.mp hpos
  obtain ⟨d', hd', hfound⟩ := (findFileInfoInQuorum_shared hsound env req.now req.hashOrder
    (quorumOf env fi).toNat hpos).1 (by omega)
  refine ⟨d', hd', ?_⟩
  have hwrite : reduceWriteQuorumErrs req.errOrder (errArr (sharedReads fi has)) objectOpIgnoredErrs
      (quorumOf env fi) = none := by
    rw [errArr_shared]
    exact reduceQuorumErrs_shared (fun _ => hhalf) hquorum hpos
  have helected : (listOnlineDisks req.voteOrder (ofFn (some : Fin n → Option (Fin n)))
      (metaArr (sharedReads fi has)) (errArr (sharedReads fi has))).2 = (fi.modTime, fi.dataDir) :=
    (commonTime_shared req.voteOrder hd).mpr hT
  unfold electMetadata
  rw [objectQuorumFromMeta_shared hsound hT hhalf hpos]
  dsimp only
  rw [hwrite, if_neg (by simp), congrArg Prod.fst helected, congrArg Prod.snd helected, hfound]
  rw [online_shared hsound req.voteOrder hd hT]

/-- Metadata is elected only if the vote can elect its time and the quorum has it. -/
theorem electable_of_electMetadata {elected : Elected n}
    (h : electMetadata env req (sharedReads fi has) = .ok elected) :
    Votable fi.modTime ∧ 0 < holders has ∧ quorumOf env fi ≤ holders has := by
  have hread : ∀ d m, sharedReads fi has d = .ok m → has d = true ∧ m = onDrive fi d := by
    intro d m hm
    unfold sharedReads at hm
    split_ifs at hm with hd
    exact ⟨hd, (Except.ok.inj hm).symm⟩
  unfold electMetadata at h
  split at h
  · cases h
  · next readQuorum writeQuorum hquorum =>
    have hwq : 1 ≤ writeQuorum := one_le_writeQuorum hsound.drives
      (fun d m hm => (hread d m hm).2 ▸ hsound.deleted) hquorum
    split_ifs at h
    dsimp only at h
    split at h
    · cases h
    · next e hfind =>
      obtain ⟨hmem, heligible⟩ := findFileInfoInQuorum_mem (by omega) hfind
      obtain ⟨m, hm, rfl⟩ := mem_map.mp hmem
      unfold eligible at heligible
      simp only [Bool.and_eq_true, beq_iff_eq] at heligible
      obtain ⟨⟨hvalid, htime⟩, hdir⟩ := heligible
      obtain ⟨d, hanswer⟩ := exists_read_of_mem hm hvalid
      obtain ⟨hd, rfl⟩ := hread d m hanswer
      have hpos := holders_pos_iff.mpr ⟨d, hd⟩
      have hcommon : commonTime req.voteOrder
          (listObjectModtimes (metaArr (sharedReads fi has)) (errArr (sharedReads fi has)))
          (listDataDirs (metaArr (sharedReads fi has)) (errArr (sharedReads fi has))) =
          (fi.modTime, fi.dataDir) := Prod.ext htime.symm hdir.symm
      have hT := (commonTime_shared req.voteOrder hd).mp hcommon
      obtain ⟨latest, hlatest⟩ : ∃ latest, getLatestFileInfo req.voteOrder req.errOrder
          (metaArr (sharedReads fi has)) (errArr (sharedReads fi has)) = .ok latest := by
        unfold objectQuorumFromMeta at hquorum
        split at hquorum
        · cases hquorum
        · next latest hlatest => exact ⟨latest, hlatest⟩
      rw [quorum_eq hsound hT hpos hlatest] at hquorum
      obtain rfl := (Prod.ext_iff.mp (Except.ok.inj hquorum)).2
      refine ⟨hT, hpos, ?_⟩
      by_contra hfew
      have herror := (findFileInfoInQuorum_shared hsound env req.now req.hashOrder
        (quorumOf env fi).toNat hpos).2 (by omega)
      rw [← htime, ← hdir] at hfind
      rw [show (onDrive fi d).modTime = fi.modTime from rfl, show (onDrive fi d).dataDir = fi.dataDir from rfl,
        herror] at hfind
      cases hfind

end Elect

end Multipart

end Otterio
