import Otterio.Object.Names

/-!
# Listing markers

`cmd/metacache-marker.go`: `encodeMarker` writes the id of a listing behind the marker, `parseMarker` cuts
it off again. A slice out of bounds panics, here `none`.

* `parseMarker_tagged`: what `parseMarker` returns for a text with the tag, read off at its last `[`.
* `Tagged`, `Closed`: the text contains the beginning of a tag; its last `[` is followed by a `]`.
-/

namespace Otterio.Listing

open List

/-! ## The code -/

def lastIndex (c : UInt8) : Bytes → Int
  | [] => -1
  | d :: s => if 0 ≤ lastIndex c s then lastIndex c s + 1 else if d = c then 0 else -1

/-- The slice `s[lo:hi]`. -/
def slice (s : Bytes) (lo hi : Int) : Option Bytes :=
  if 0 ≤ lo ∧ lo ≤ hi ∧ hi ≤ s.length then some ((s.take hi.toNat).drop lo.toNat) else none

def trim (cutset s : Bytes) : Bytes := (s.dropWhile cutset.contains).rdropWhile cutset.contains

def markerTagVersion : Bytes := ascii "v1"

/-- What every tag begins with. -/
def tagStart : Bytes := ascii "[otterio_cache:" ++ markerTagVersion

/-- `strings.Contains(s, tagStart)`. -/
def Tagged (s : Bytes) : Prop := tagStart <:+: s

instance (s : Bytes) : Decidable (Tagged s) := inferInstanceAs (Decidable (_ <:+: _))

/-- The loop over the tags. The `break` of another version only leaves the switch. -/
def parseTag (uuid tag : Bytes) : Bytes :=
  match tag.splitOn 58 with
  | key :: value :: _ => if key = ascii "id" then value else uuid
  | _ => uuid

/-- The id in the text between the brackets, the first of them included. -/
def parseTags (tagged : Bytes) : Bytes := ((trim (ascii "[]") tagged).splitOn 44).foldl parseTag []

def parseMarker (s : Bytes) : Option (Bytes × Bytes) :=
  if ¬ Tagged s then some (s, [])
  else do
    let marker ← slice s 0 (lastIndex 91 s)
    let tagged ← slice s (lastIndex 91 s) (lastIndex 93 s)
    return (marker, parseTags tagged)

/-- `encodeMarker`; an id with `[`, `:` or `,` is logged and written all the same. -/
def encodeMarker (marker uuid : Bytes) : Bytes :=
  if uuid = [] then marker else marker ++ tagStart ++ ascii ",id:" ++ uuid ++ ascii "]"

/-! ## Last index and split -/

theorem lastIndex_lt (c : UInt8) (s : Bytes) : lastIndex c s < s.length := by
  induction s with
  | nil => exact Int.negSucc_lt_zero 0
  | cons d s ih =>
    unfold lastIndex
    push_cast [length_cons]
    split_ifs <;> omega

variable {c : UInt8} {s : Bytes}

theorem lastIndex_of_not_mem (h : c ∉ s) : lastIndex c s = -1 := by
  induction s with
  | nil => rfl
  | cons d s ih =>
    unfold lastIndex
    rw [ih fun hm => h (.tail _ hm), if_neg (by decide), if_neg fun hd : d = c => h (hd ▸ .head _)]

variable {t : Bytes}

theorem lastIndex_append_left (h : c ∉ t) (s : Bytes) : lastIndex c (s ++ t) = lastIndex c s := by
  induction s with
  | nil => exact lastIndex_of_not_mem h
  | cons d s ih =>
    rw [cons_append]
    unfold lastIndex
    rw [ih]

theorem lastIndex_append (h : c ∉ t) (s : Bytes) : lastIndex c (s ++ c :: t) = s.length := by
  induction s with
  | nil =>
    rw [nil_append]
    unfold lastIndex
    rw [lastIndex_of_not_mem h, if_neg (by decide), if_pos rfl]
    rfl
  | cons d s ih =>
    rw [cons_append]
    unfold lastIndex
    rw [ih, if_pos (Int.natCast_nonneg _)]
    rfl

theorem exists_last (h : c ∈ s) : ∃ u t, s = u ++ c :: t ∧ c ∉ t := by
  obtain ⟨u, t, hs, ht⟩ := eq_append_cons_of_mem (mem_reverse.mpr h)
  refine ⟨t.reverse, u.reverse, ?_, fun hm => ht (mem_reverse.mp hm)⟩
  rw [← reverse_reverse s, hs]
  simp

theorem splitOn_cons {a : UInt8} (xs ys : Bytes) (h : a ∉ xs) : (xs ++ a :: ys).splitOn a = xs :: ys.splitOn a := by
  rw [List.splitOn, @splitOnP_append_cons _ (· == a) _ _ _ (beq_self_eq_true a)]
  have hx : xs.splitOnP (· == a) = [xs] := splitOn_eq_singleton h
  rw [hx]
  rfl

/-! ## Parsing -/

/-- The last `[` of the text is followed by a `]`. -/
def Closed (s : Bytes) : Prop := ∃ u t, s = u ++ 91 :: t ∧ 91 ∉ t ∧ 93 ∈ t

theorem Tagged.bracket (h : Tagged s) : ∃ u t, s = u ++ 91 :: t ∧ 91 ∉ t :=
  exists_last (h.subset (by decide))

theorem slice_zero (u t : Bytes) : slice (u ++ t) 0 u.length = some u := by
  rw [slice, if_pos (by simp)]
  simp

theorem slice_middle (u v w : Bytes) : slice (u ++ v ++ w) u.length (u.length + v.length) = some v := by
  rw [slice, if_pos (by simp)]
  have h : ((u.length : Int) + v.length).toNat = (u ++ v).length := by simp; omega
  rw [h, take_left]
  simp

theorem parseMarker_untagged (h : ¬ Tagged s) : parseMarker s = some (s, []) := by
  rw [parseMarker, if_pos h]

theorem parseMarker_tagged {u v w : Bytes} (h : Tagged (u ++ 91 :: (v ++ 93 :: w))) (hv : 91 ∉ v) (hw : 91 ∉ w)
    (hw' : 93 ∉ w) : parseMarker (u ++ 91 :: (v ++ 93 :: w)) = some (u, parseTags (91 :: v)) := by
  have hstart : lastIndex 91 (u ++ 91 :: (v ++ 93 :: w)) = u.length := by
    apply lastIndex_append
    simp [hv, hw]
  have hsplit : u ++ 91 :: (v ++ 93 :: w) = u ++ (91 :: v) ++ 93 :: w := by simp
  have hend : lastIndex 93 (u ++ 91 :: (v ++ 93 :: w)) = u.length + (91 :: v : Bytes).length := by
    rw [hsplit, lastIndex_append hw', length_append]
    rfl
  rw [parseMarker, if_neg (not_not.mpr h), hstart, hend, slice_zero, hsplit, slice_middle]
  rfl

theorem parseMarker_open {u : Bytes} (h : Tagged (u ++ 91 :: t)) (ht : 91 ∉ t) (ht' : 93 ∉ t) :
    parseMarker (u ++ 91 :: t) = none := by
  have hend : lastIndex 93 (u ++ 91 :: t) < u.length := by
    rw [lastIndex_append_left (by simp [ht'])]
    exact lastIndex_lt _ _
  rw [parseMarker, if_neg (not_not.mpr h), lastIndex_append ht, slice_zero]
  have hslice : slice (u ++ 91 :: t) u.length (lastIndex 93 (u ++ 91 :: t)) = none := by
    rw [slice, if_neg]
    omega
  rw [hslice]
  rfl

/-- `parseMarker` panics exactly on a text with a tag whose last `[` is not closed. -/
theorem parseMarker_isSome_iff (s : Bytes) : (parseMarker s).isSome ↔ ¬ Tagged s ∨ Closed s := by
  by_cases h : Tagged s
  · obtain ⟨u, t, rfl, ht⟩ := h.bracket
    simp only [h, not_true_eq_false, false_or]
    by_cases hc : 93 ∈ t
    · obtain ⟨v, w, rfl, hw⟩ := exists_last hc
      rw [mem_append, mem_cons, not_or, not_or] at ht
      rw [parseMarker_tagged h ht.1 ht.2.2 hw]
      simp only [Option.isSome_some, true_iff]
      exact ⟨u, v ++ 93 :: w, rfl, by simp [ht.1, ht.2.2], hc⟩
    · rw [parseMarker_open h ht hc]
      simp only [Option.isSome_none, Bool.false_eq_true, false_iff]
      rintro ⟨u', t', heq, ht', hc'⟩
      -- The last bracket has one place only.
      have hlen : (u.length : Int) = u'.length := by
        rw [← lastIndex_append ht u, heq, lastIndex_append ht']
      obtain ⟨-, htt⟩ := append_inj heq (by exact_mod_cast hlen)
      obtain rfl : t = t' := by simpa using htt
      exact hc hc'
  · rw [parseMarker_untagged h]
    simp [h]

variable {id : Bytes}

theorem parseMarker_shorter {marker : Bytes} (h : Tagged s) (hp : parseMarker s = some (marker, id)) :
    marker.length < s.length := by
  obtain ⟨u, t, rfl, ht⟩ := h.bracket
  by_cases hc : 93 ∈ t
  · obtain ⟨v, w, rfl, hw⟩ := exists_last hc
    rw [mem_append, mem_cons, not_or, not_or] at ht
    rw [parseMarker_tagged h ht.1 ht.2.2 hw] at hp
    obtain ⟨rfl, -⟩ : u = marker ∧ _ := by simpa using hp
    simp
  · rw [parseMarker_open h ht hc] at hp
    cases hp

/-! ## The way back -/

/-- The ids that `parseMarker` gives back as they were written. -/
structure PlainId (id : Bytes) : Prop where
  bracket : 91 ∉ id
  colon : 58 ∉ id
  comma : 44 ∉ id
  last : id.getLast? ≠ some 93

theorem foldl_parseTag {P : Bytes → Prop} {tags : List Bytes} {uuid : Bytes} (h : P uuid)
    (htags : ∀ tag ∈ tags, ∀ part ∈ tag.splitOn 58, P part) : P (tags.foldl parseTag uuid) := by
  induction tags generalizing uuid with
  | nil => exact h
  | cons tag tags ih =>
    apply ih
    · unfold parseTag
      split
      · next key value rest hparts =>
        split_ifs
        · exact htags tag (.head _) value (by rw [hparts]; exact .tail _ (.head _))
        · exact h
      · exact h
    · exact fun tag' htag => htags tag' (.tail _ htag)

theorem parseTags_plain (tagged : Bytes) : 58 ∉ parseTags tagged ∧ 44 ∉ parseTags tagged := by
  apply foldl_parseTag (P := fun id => 58 ∉ id ∧ 44 ∉ id)
  · exact ⟨not_mem_nil, not_mem_nil⟩
  · intro tag htag part hpart
    have hcomma := (of_mem_splitOn htag).1
    obtain ⟨hcolon, hsub⟩ := of_mem_splitOn hpart
    exact ⟨hcolon, fun hm => hcomma (hsub hm)⟩

/-- What `encodeMarker` writes between the brackets, before the id. -/
def tagHead : Bytes := ascii "otterio_cache:v1,id:"

theorem encodeMarker_eq (h : id ≠ []) (marker : Bytes) :
    encodeMarker marker id = marker ++ 91 :: (tagHead ++ id ++ [93]) := by
  rw [encodeMarker, if_neg h]
  have hhead : tagStart ++ ascii ",id:" = 91 :: tagHead := by decide
  have hlast : ascii "]" = [93] := by decide
  rw [hlast, append_assoc marker, hhead]
  simp

theorem tagged_encodeMarker (h : id ≠ []) (marker : Bytes) : Tagged (encodeMarker marker id) := by
  rw [encodeMarker, if_neg h]
  refine ⟨marker, ascii ",id:" ++ id ++ ascii "]", ?_⟩
  simp

theorem trim_tagHead (id : Bytes) :
    trim (ascii "[]") (91 :: (tagHead ++ id)) = tagHead ++ id.rdropWhile (ascii "[]").contains := by
  have hdrop : (91 :: (tagHead ++ id)).dropWhile (ascii "[]").contains = tagHead ++ id := by
    rw [dropWhile_cons_of_pos (by decide)]
    exact dropWhile_cons_of_neg (by decide)
  rw [trim, hdrop]
  clear hdrop
  induction id using List.reverseRecOn with
  | nil => decide
  | append_singleton id c ih =>
    rw [← append_assoc, rdropWhile_concat, rdropWhile_concat]
    split_ifs
    · exact ih
    · rw [append_assoc]

theorem parseTags_tagHead (hcolon : 58 ∉ id) (hcomma : 44 ∉ id) :
    parseTags (91 :: (tagHead ++ id)) = id.rdropWhile (ascii "[]").contains := by
  rw [parseTags, trim_tagHead]
  generalize hrest : id.rdropWhile (ascii "[]").contains = rest
  have hsub : rest ⊆ id := hrest ▸ (List.rdropWhile_prefix _ _).subset
  have hcolon' : 58 ∉ rest := fun h => hcolon (hsub h)
  have hcomma' : 44 ∉ rest := fun h => hcomma (hsub h)
  have htags : tagHead ++ rest = ascii "otterio_cache:v1" ++ 44 :: (ascii "id" ++ 58 :: rest) := by
    have hhead : tagHead = ascii "otterio_cache:v1" ++ 44 :: (ascii "id" ++ [58]) := by decide
    rw [hhead]
    simp
  have hid : 44 ∉ ascii "id" ++ 58 :: rest := by
    rw [mem_append, mem_cons, not_or, not_or]
    exact ⟨by decide, by decide, hcomma'⟩
  have hpair : (ascii "id" ++ 58 :: rest).splitOn 58 = [ascii "id", rest] := by
    rw [splitOn_cons _ _ (by decide), splitOn_eq_singleton hcolon']
  rw [htags, splitOn_cons _ _ (by decide), splitOn_eq_singleton hid, foldl_cons, foldl_cons, foldl_nil]
  conv_lhs => unfold parseTag
  rw [hpair]
  exact if_pos rfl

theorem rdropWhile_brackets (hbracket : 91 ∉ id) :
    id.rdropWhile (ascii "[]").contains = id ↔ id.getLast? ≠ some 93 := by
  induction id using List.reverseRecOn with
  | nil => simp
  | append_singleton id c _ =>
    have hc : c ≠ 91 := fun h => hbracket (by simp [h])
    have hcontains : (ascii "[]").contains c = true ↔ c = 93 := by
      have hcut : ascii "[]" = [91, 93] := by decide
      simp [hcut, hc]
    rw [rdropWhile_concat, List.getLast?_concat]
    by_cases h : c = 93
    · rw [if_pos (hcontains.mpr h)]
      have hlen := (List.rdropWhile_prefix (ascii "[]").contains id).length_le
      simp only [h, ne_eq, not_true_eq_false, iff_false]
      intro heq
      have := congrArg List.length heq
      rw [length_append, length_singleton] at this
      omega
    · rw [if_neg fun hb => h (hcontains.mp hb)]
      simpa using h

/-- The id of a listing and the marker come back exactly if the id is a plain one. -/
theorem parseMarker_encodeMarker_iff (h : id ≠ []) (marker : Bytes) :
    parseMarker (encodeMarker marker id) = some (marker, id) ↔ PlainId id := by
  have htag := tagged_encodeMarker h marker
  rw [encodeMarker_eq h] at htag ⊢
  by_cases hb : 91 ∈ id
  · refine iff_of_false (fun hp => ?_) fun hplain => hplain.bracket hb
    -- The last bracket is one of the id, and the marker would reach up to it.
    obtain ⟨x, y, rfl, hy⟩ := exists_last hb
    have hs : marker ++ 91 :: (tagHead ++ (x ++ 91 :: y) ++ [93]) =
        (marker ++ 91 :: (tagHead ++ x)) ++ 91 :: (y ++ 93 :: []) := by simp
    rw [hs] at hp htag
    rw [parseMarker_tagged htag hy not_mem_nil not_mem_nil] at hp
    have := congrArg List.length (Prod.mk.inj (Option.some.inj hp)).1
    rw [length_append, length_cons] at this
    omega
  · have hhead : 91 ∉ tagHead ++ id := by
      rw [mem_append, not_or]
      exact ⟨by decide, hb⟩
    rw [parseMarker_tagged htag hhead not_mem_nil not_mem_nil, Option.some_inj, Prod.mk.injEq, and_iff_right rfl]
    constructor
    · intro hid
      have hplain := parseTags_plain (91 :: (tagHead ++ id))
      rw [hid] at hplain
      rw [parseTags_tagHead hplain.1 hplain.2] at hid
      exact ⟨hb, hplain.1, hplain.2, (rdropWhile_brackets hb).mp hid⟩
    · intro hplain
      rw [parseTags_tagHead hplain.colon hplain.comma]
      exact (rdropWhile_brackets hb).mpr hplain.last

theorem parseMarker_bare_iff (marker : Bytes) :
    parseMarker (encodeMarker marker []) = some (marker, []) ↔ ¬ Tagged marker := by
  constructor
  · intro hp htag
    exact absurd (parseMarker_shorter htag hp) (lt_irrefl _)
  · exact parseMarker_untagged

/-- When `parseMarker` returns, and when it undoes `encodeMarker`. -/
theorem marker_safe_reversible_iff (s marker id : Bytes) : ((parseMarker s).isSome ↔ ¬ Tagged s ∨ Closed s) ∧
      (parseMarker (encodeMarker marker id) = some (marker, id) ↔
        (id = [] → ¬ Tagged marker) ∧ (id ≠ [] → PlainId id)) := by
  refine ⟨parseMarker_isSome_iff s, ?_⟩
  by_cases h : id = []
  · subst h
    simpa using parseMarker_bare_iff marker
  · simpa [h] using parseMarker_encodeMarker_iff h marker

/-- A tag that is cut short panics; so does one before a later `[`. A marker that contains a tag is cut. -/
theorem parseMarker_panics : parseMarker (ascii "[otterio_cache:v1") = none ∧
      parseMarker (ascii "a[otterio_cache:v1,id:x]b[") = none ∧
      parseMarker (encodeMarker (ascii "a[otterio_cache:v1,id:x]b") []) = some (ascii "a", ascii "x") := by
  decide +kernel

end Otterio.Listing
