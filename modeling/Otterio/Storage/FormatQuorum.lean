import Otterio.Storage.Quorum

/-!
# The drive format at read quorum

`getFormatErasureInQuorum` picks the `format.json` that the drives agree on
(`cmd/format-erasure.go`). It votes with a hash of the drive ids written one after the other, wants
half of the drives and ranges over the votes in any order.

* `getFormatErasureInQuorum_eq`: in every order, the first drive of a group with the most votes
  gives the format, if that group reaches half of the drives.
-/

namespace Otterio

open Err List

/-- `formatErasureV3`, with the fields of the embedded `formatMetaV1`. -/
structure FormatErasureV3 where
  version : String
  format : String
  id : String
  erasureVersion : String
  this : String
  sets : List (List String)
  distributionAlgo : String
deriving DecidableEq

/-- `Clone`, through JSON: a `nil` pointer is `null`, which reads back as the zero value. -/
def FormatErasureV3.clone : Option FormatErasureV3 → FormatErasureV3
  | some f => f
  | none => ⟨"", "", "", "", "", [], ""⟩

def layouts (formats : List (Option FormatErasureV3)) : List (List (List String)) := formats.reduceOption.map (·.sets)

def holders (formats : List (Option FormatErasureV3)) (sets : List (List String)) : Nat :=
  (layouts formats).count sets

section Vote

variable {δ : Type} [DecidableEq δ] (sum : List Char → δ)

/-- The hash of a layout: `sum` of the ids of all sets, one after the other. -/
def formatHash (sets : List (List String)) : δ := sum (sets.flatten.flatMap String.toList)

/-- `getFormatErasureInQuorum`. The hash of an unreadable drive is the empty string, here `none`,
which no digest is equal to. -/
def getFormatErasureInQuorum (o : IterOrder (δ × Nat)) (formats : List (Option FormatErasureV3)) :
    Except Error FormatErasureV3 :=
  let hashOf : Option FormatErasureV3 → Option δ := Option.map fun f => formatHash sum f.sets
  let formatHashes := formats.map hashOf
  let elected := electBy (fun _ _ => false) some (o.order (tally formatHashes.reduceOption)) (0, none)
  if elected.1 < formats.length / 2 then .error errErasureReadQuorum
  else
    match formats.find? fun f => hashOf f == elected.2 with
    | some f => .ok { FormatErasureV3.clone f with this := "" }
    | none => .error errErasureReadQuorum

/-- The drives whose layout has the hash of `sets`. -/
def votes (formats : List (Option FormatErasureV3)) (sets : List (List String)) : Nat :=
  ((layouts formats).map (formatHash sum)).count (formatHash sum sets)

/-- No layout has more votes than that of `f`, and no drive before `f` has its hash. -/
structure Leads (formats : List (Option FormatErasureV3)) (f : FormatErasureV3) : Prop where
  most : ∀ sets ∈ layouts formats, votes sum formats sets ≤ votes sum formats f.sets
  first : formats.find? (fun g => g.map (fun g => formatHash sum g.sets) ==
    some (formatHash sum f.sets)) = some (some f)

variable {sum} {formats : List (Option FormatErasureV3)} {f g : FormatErasureV3}

theorem length_layouts_le : (layouts formats).length ≤ formats.length := by
  rw [layouts, length_map]
  exact reduceOption_length_le formats

theorem holders_le_votes (sets : List (List String)) : holders formats sets ≤ votes sum formats sets :=
  count_le_count_map

theorem Leads.mem (hf : Leads sum formats f) : f.sets ∈ layouts formats :=
  mem_map_of_mem (reduceOption_mem_iff.mpr (mem_of_find?_eq_some hf.first))

/-- The layout of a group of most drives is the only one that leads. -/
theorem Leads.eq_of_majority (hf : Leads sum formats f) (hg : Leads sum formats g)
    (hmost : formats.length < 2 * holders formats g.sets) : f = g := by
  have hvotes : holders formats g.sets ≤ votes sum formats g.sets := holders_le_votes _
  by_cases hhash : formatHash sum f.sets = formatHash sum g.sets
  · have hfirst := hf.first
    rw [hhash, hg.first] at hfirst
    exact (Option.some.inj (Option.some.inj hfirst)).symm
  · have htwo := count_add_count_le hhash ((layouts formats).map (formatHash sum))
    rw [length_map] at htwo
    have hlen : (layouts formats).length ≤ formats.length := length_layouts_le
    have hle := hf.most _ hg.mem
    unfold votes at hle hvotes
    omega

variable (sum) in
/-- In every order a leading format is elected, and returned when its group has half of the drives. -/
theorem getFormatErasureInQuorum_eq (o : IterOrder (δ × Nat)) (h : layouts formats ≠ []) :
    ∃ f, Leads sum formats f ∧ getFormatErasureInQuorum sum o formats =
      if votes sum formats f.sets < formats.length / 2 then .error errErasureReadQuorum
      else .ok { f with this := "" } := by
  have hhashes : (formats.map (Option.map fun f => formatHash sum f.sets)).reduceOption =
      (layouts formats).map (formatHash sum) := by
    rw [reduceOption_map, layouts, map_map]; rfl
  have hne : (layouts formats).map (formatHash sum) ≠ [] := by simpa using h
  obtain ⟨x, hx, helect⟩ := electBy_tally_mem (t := fun _ _ => false) (f := some) o hne none
  have hmax : ∀ sets ∈ layouts formats, votes sum formats sets ≤
      ((layouts formats).map (formatHash sum)).count x := by
    intro sets hsets
    have hin : formatHash sum sets ∈ (layouts formats).map (formatHash sum) := mem_map_of_mem hsets
    have hge := electBy_count_ge (t := fun _ _ => false) (f := some)
      (o.mem_order.mpr (mem_tally_of_mem hin)) (0, none)
    rwa [helect] at hge
  obtain ⟨sets, hsets, rfl⟩ := mem_map.mp hx
  obtain ⟨f₀, hf₀, rfl⟩ := mem_map.mp hsets
  -- The drive that is returned need not be the one the vote came from.
  cases hfind : formats.find? (fun g => g.map (fun g => formatHash sum g.sets) == some (formatHash sum f₀.sets)) with
  | none => exact absurd (find?_eq_none.mp hfind _ (reduceOption_mem_iff.mp hf₀)) (by simp)
  | some g =>
    obtain ⟨f, rfl, hf⟩ : ∃ f, g = some f ∧ formatHash sum f.sets = formatHash sum f₀.sets := by
      simpa using find?_some hfind
    have hvotes : votes sum formats f.sets =
        ((layouts formats).map (formatHash sum)).count (formatHash sum f₀.sets) := by rw [votes, hf]
    refine ⟨f, ⟨fun sets hs => hvotes ▸ hmax sets hs, by rwa [hf]⟩, ?_⟩
    simp only [getFormatErasureInQuorum, hhashes, helect, hfind, hvotes, FormatErasureV3.clone]

/-- Without a readable drive the answer is an error, unless the list is one unreadable drive. -/
theorem getFormatErasureInQuorum_unreadable (o : IterOrder (δ × Nat)) (h : layouts formats = [])
    (hne : formats ≠ [none]) : getFormatErasureInQuorum sum o formats = .error errErasureReadQuorum := by
  have hnone : ∀ g ∈ formats, g = none := by
    intro g hg
    cases g with
    | none => rfl
    | some f => exact absurd (reduceOption_mem_iff.mpr hg) (by simp [map_eq_nil_iff.mp h])
  cases formats with
  | nil => simp [getFormatErasureInQuorum]
  | cons a l =>
    obtain rfl := hnone a mem_cons_self
    cases l with
    | nil => exact absurd rfl hne
    | cons b l =>
      have hred : ((none :: b :: l).map (Option.map fun f => formatHash sum f.sets)).reduceOption = [] := by
        rw [reduceOption_map, map_eq_nil_iff.mp h]; rfl
      simp only [getFormatErasureInQuorum, hred, tally_nil, IterOrder.order_nil, electBy_nil]
      exact if_pos (by simp)

variable (sum formats)

/-- One answer, whatever the order, which is an error or has the layout of most of the drives. -/
def Unambiguous : Prop :=
  ∃ r, (∀ o : IterOrder (δ × Nat), getFormatErasureInQuorum sum o formats = r) ∧
    ∀ f, r = .ok f → formats.length < 2 * holders formats f.sets

/-- The vote is unambiguous exactly when the list is not one unreadable drive and a leading drive
whose group has half of the drives shares its layout with most of them. -/
theorem getFormatErasureInQuorum_unambiguous_iff : Unambiguous sum formats ↔
    formats ≠ [none] ∧ ∀ f, Leads sum formats f → formats.length / 2 ≤ votes sum formats f.sets →
      formats.length < 2 * holders formats f.sets := by
  constructor
  · rintro ⟨r, hr, hok⟩
    refine ⟨?_, fun f hf hhalf => ?_⟩
    · rintro rfl
      exact absurd (hok _ (hr .asListed).symm) (by simp [holders, layouts])
    · obtain ⟨g, hg, heq⟩ := getFormatErasureInQuorum_eq sum .asListed (ne_nil_of_mem hf.mem)
      rw [if_neg (Nat.not_lt.mpr (hhalf.trans (hg.most _ hf.mem)))] at heq
      have hmost := hok _ ((hr .asListed).symm.trans heq)
      rwa [hf.eq_of_majority hg hmost]
  · rintro ⟨hne, h⟩
    by_cases hnil : layouts formats = []
    · exact ⟨_, fun o => getFormatErasureInQuorum_unreadable o hnil hne, fun f hf => by cases hf⟩
    · obtain ⟨f, hf, heq⟩  := getFormatErasureInQuorum_eq sum .asListed hnil
      refine ⟨getFormatErasureInQuorum sum .asListed formats, fun o => ?_, fun g hg => ?_⟩
      · obtain ⟨g, hg, heq'⟩ := getFormatErasureInQuorum_eq sum o hnil
        have hvotes := (hg.most _ hf.mem).antisymm (hf.most _ hg.mem)
        rw [heq, heq', hvotes]
        split_ifs with hhalf
        · rfl
        · rw [hg.eq_of_majority hf (h f hf (by omega))]
      · rw [heq] at hg
        split_ifs at hg with hhalf
        cases hg
        exact h f hf (by omega)

/-- Two drives that disagree make up half of two drives each: the order decides. -/
theorem getFormatErasureInQuorum_ambiguous :
    let drive := fun sets => some (FormatErasureV3.mk "1" "xl" "d" "3" "" sets "CRCMOD")
    ¬ Unambiguous id [drive [["a", "b"]], drive [["a", "c"]]] ∧
      ¬ Unambiguous id [drive [["a"], ["b"]], drive [["a", "b"]], drive [["a", "b"]]] ∧
      ¬ Unambiguous id [none] := by
  refine ⟨?_, ?_, ?_⟩
  · rintro ⟨r, hr, hok⟩
    exact absurd (hok _ (hr .asListed).symm) (by decide +kernel)
  · rintro ⟨r, hr, hok⟩
    exact absurd (hok _ (hr .asListed).symm) (by decide +kernel)
  · rintro ⟨r, hr, hok⟩
    exact absurd (hok _ (hr .asListed).symm) (by decide +kernel)

end Vote

end Otterio
