import Otterio.IAM.Combine

/-!
# Authorizations side by side

Authorizations do not see each other's statements just when the documents that fit into the spare
capacity of a document have the same statements at the same places (`SpareAgrees`); that is so if no
array has spare capacity, which the code does not take care of.

* `PhaseInv`: what an authorization knows of the memory. The steps of others keep it if the statements
  agree (`PhaseInv.stable`), and its own steps always keep it (`PhaseInv.step`).
* `reach_denying`: an authorization alone gets to the evaluation of its combined policy.
-/

namespace Otterio.IAM

open List PolicyDoc

variable {St Args : Type}

/-! ## The property and the condition -/

structure Contains (mem : Memory (Option St)) (c : Slice) (l : List St) : Prop where
  len : c.len = l.length
  cells : ∀ (i : Nat) (x : St), l[i]? = some x → mem.cells c.arr i = some x

def Phase.Evaluates (phase : Phase St) (combined : Slice) : Prop :=
  ∃ i, phase = .denying combined i ∨ phase = .allowing combined i

/-- No document has changed; an authorization that evaluates its combined policy has the statements of
its own policies there; and one that has returned has the answer for these statements. -/
structure Isolated (K : PolicyKind St Args) (map : PolicyMap St) (c : Config (Option St) (Thread St Args)) :
    Prop where
  documents : ∀ (a : Nat) (doc : PolicyDoc St), map.docs[a]? = some doc → Contains c.mem (doc.slice a) doc.statements
  evaluates : ∀ t ∈ c.threads, ∀ combined, t.phase.Evaluates combined →
    Contains c.mem combined (map.statements t.call.policies)
  returns : ∀ t ∈ c.threads, ∀ allowed, t.phase = .returned allowed →
    allowed = Policy.isAllowed K { statements := map.statements t.call.policies } t.call.args

/-- The statements of documents, which fit into the spare room of a document. -/
structure Fits (map : PolicyMap St) (doc : PolicyDoc St) (ps : List (PolicyDoc St)) : Prop where
  docs : ∀ p ∈ ps, p ∈ map.docs
  room : (ps.flatMap statements).length ≤ doc.spare

/-- Documents that fit into the spare room of a document have the same statements at the same places. -/
def SpareAgrees (map : PolicyMap St) : Prop :=
  ∀ doc ∈ map.docs, ∀ ps ps', Fits map doc ps → Fits map doc ps' → ∀ (i : Nat) (x y : St),
    (ps.flatMap statements)[i]? = some x → (ps'.flatMap statements)[i]? = some y →
    x = y

/-! ## What is written -/

variable {map : PolicyMap St}

/-- A statement for a cell of a document: one of its own, or one of documents that fit. -/
def Fixed (map : PolicyMap St) (a i : Nat) (e : Option St) : Prop :=
  ∃ doc ps x, map.docs[a]? = some doc ∧ Fits map doc ps ∧
    (doc.statements ++ ps.flatMap statements)[i]? = some x ∧ e = some x

variable {i : Nat} {e : Option St}

theorem Fixed.lt {a : Nat} (h : Fixed map a i e) : a < map.docs.length := by
  obtain ⟨doc, -, -, hdoc, -⟩ := h
  exact (List.getElem?_eq_some_iff.mp hdoc).1

theorem Fixed.unique (hagree : SpareAgrees map) {a : Nat} {e' : Option St} (h : Fixed map a i e)
    (h' : Fixed map a i e') : e = e' := by
  obtain ⟨doc, ps, x, hdoc, hfits, hx, rfl⟩ := h
  obtain ⟨doc', ps', y, hdoc', hfits', hy, rfl⟩ := h'
  obtain rfl : doc = doc' := Option.some.inj (hdoc.symm.trans hdoc')
  congr 1
  by_cases hlt : i < doc.statements.length
  · rw [getElem?_append_left hlt] at hx hy
    exact Option.some.inj (hx.symm.trans hy)
  · rw [getElem?_append_right (not_lt.mp hlt)] at hx hy
    exact hagree doc (mem_of_getElem? hdoc) ps ps' hfits hfits' _ x y hx hy

def Kept (map : PolicyMap St) (mem : Memory (Option St)) : Prop :=
  ∀ (a : Nat) (doc : PolicyDoc St), map.docs[a]? = some doc →
    ∀ (i : Nat) (x : St), doc.statements[i]? = some x → mem.cells a i = some x

variable {doc : PolicyDoc St} {x : St}

theorem fixed_of_statement {a : Nat} (hdoc : map.docs[a]? = some doc)
    (hx : doc.statements[i]? = some x) : Fixed map a i (some x) := by
  refine ⟨doc, [], x, hdoc, ⟨by simp, by simp⟩, ?_, rfl⟩
  rw [flatMap_nil, append_nil, hx]

theorem kept_memory (map : PolicyMap St) : Kept map map.memory := by
  intro a doc hdoc i x hx
  simp only [PolicyMap.memory, hdoc, Option.bind_some, hx]

/-! ## Where the combined statements are -/

variable {own own' : Nat → Prop} {mem mem' : Memory (Option St)} {c d : Slice} {l : List St}
  {p : PolicyDoc St} {ps : List (PolicyDoc St)}

/-- The slice begins with a document and goes on with others. -/
def InPlace (map : PolicyMap St) (c : Slice) (l : List St) : Prop :=
  ∃ (doc : PolicyDoc St) (ps : List (PolicyDoc St)), map.docs[c.arr]? = some doc ∧
    (∀ p ∈ ps, p ∈ map.docs) ∧ c.cap = doc.statements.length + doc.spare ∧
    l = doc.statements ++ ps.flatMap statements

/-- The slice has the statements `l`, in an array of the authorization or in that of a document. -/
structure Holds (map : PolicyMap St) (own : Nat → Prop) (mem : Memory (Option St)) (c : Slice)
    (l : List St) : Prop where
  contains : Contains mem c l
  cap : c.len ≤ c.cap
  place : own c.arr ∨ c.cap = 0 ∨ InPlace map c l

theorem InPlace.append (h : InPlace map c l) (hp : p ∈ map.docs) (len : Nat) :
    InPlace map { c with len } (l ++ p.statements) := by
  obtain ⟨doc, ps, hdoc, hps, hcap, rfl⟩ := h
  refine ⟨doc, ps ++ [p], hdoc, forall_mem_append.mpr ⟨hps, forall_mem_singleton.mpr hp⟩, hcap, ?_⟩
  rw [flatMap_append, flatMap_singleton, append_assoc]

theorem InPlace.fixed (h : InPlace map c l) (hle : l.length ≤ c.cap)
    (hx : l[i]? = some x) : Fixed map c.arr i (some x) := by
  obtain ⟨doc, ps, hdoc, hps, hcap, rfl⟩ := h
  refine ⟨doc, ps, x, hdoc, ⟨hps, ?_⟩, hx, rfl⟩
  rw [length_append] at hle
  omega

theorem Holds.fixed (h : Holds map own mem c l) (hx : l[i]? = some x) :
    own c.arr ∨ Fixed map c.arr i (some x) := by
  have hle := h.contains.len ▸ h.cap
  rcases h.place with hown | hcap | hplace
  · exact .inl hown
  · have hlt := (List.getElem?_eq_some_iff.mp hx).1
    omega
  · exact .inr (hplace.fixed hle hx)

structure IsDoc (map : PolicyMap St) (d : Slice) (p : PolicyDoc St) : Prop where
  doc : map.docs[d.arr]? = some p
  slice : d = p.slice d.arr

theorem IsDoc.len (h : IsDoc map d p) : d.len = p.statements.length := by
  rw [h.slice]
  rfl

theorem IsDoc.mem_docs (h : IsDoc map d p) : p ∈ map.docs := mem_of_getElem? h.doc

theorem Holds.fixed_append (h : Holds map own mem c l) (hd : IsDoc map d p) (hroom : c.len + d.len ≤ c.cap) {j : Nat} (hx : p.statements[j]? = some x) : own c.arr ∨ Fixed map c.arr (c.len + j) (some x) := by
  have hlen := h.contains.len
  have hlt := (List.getElem?_eq_some_iff.mp hx).1
  rw [hd.len] at hroom
  rcases h.place with hown | hcap | hplace
  · exact .inl hown
  · omega
  · refine .inr ((hplace.append hd.mem_docs c.len).fixed (by rwa [length_append, ← hlen]) ?_)
    rw [hlen, getElem?_append_right (Nat.le_add_right _ _), Nat.add_sub_cancel_left, hx]

variable (K : PolicyKind St Args)

/-- The rest of `IsAllowed` in its first loop. -/
def denyRest (args : Args) (all rest : List St) : Option Bool := do
  let denied ← rest.anyM fun st =>
    if K.effect st = .deny then (!·) <$> statementIsAllowed K st args else some false
  if denied then return false
  if K.byDefault args then return true
  all.anyM fun st => if K.effect st = .allow then statementIsAllowed K st args else some false

/-- The rest of `IsAllowed` in its second loop. -/
def allowRest (args : Args) (rest : List St) : Option Bool :=
  rest.anyM fun st => if K.effect st = .allow then statementIsAllowed K st args else some false

/-- What an authorization knows, where `all` are the statements of its policies. -/
def PhaseInv (map : PolicyMap St) (own : Nat → Prop) (mem : Memory (Option St)) (all : List St)
    (args : Args) : Phase St → Prop
  | .appending c ds => ∃ l ps, Holds map own mem c l ∧ Forall₂ (IsDoc map) ds ps ∧
    l ++ ps.flatMap statements = all
  | .copying c d i ds => ∃ l p ps, Holds map own mem c l ∧ IsDoc map d p ∧
    Forall₂ (IsDoc map) ds ps ∧ l ++ p.statements ++ ps.flatMap statements = all ∧
    0 < d.len ∧ c.len + d.len ≤ c.cap ∧ i ≤ d.len ∧
    ∀ (j : Nat) (x : St), j < i → p.statements[j]? = some x → mem.cells c.arr (c.len + j) = some x
  | .storing c d i st ds => ∃ l p ps, Holds map own mem c l ∧ IsDoc map d p ∧
    Forall₂ (IsDoc map) ds ps ∧ l ++ p.statements ++ ps.flatMap statements = all ∧
    0 < d.len ∧ c.len + d.len ≤ c.cap ∧
    (∃ x, p.statements[i]? = some x ∧ st = some x) ∧
    ∀ (j : Nat) (x : St), j < i → p.statements[j]? = some x → mem.cells c.arr (c.len + j) = some x
  | .growing c d acc ds => ∃ l p ps, Holds map own mem c l ∧ IsDoc map d p ∧
    Forall₂ (IsDoc map) ds ps ∧ l ++ p.statements ++ ps.flatMap statements = all ∧
    acc <+: (l ++ p.statements).map some
  | .denying c i => Holds map own mem c all ∧ i ≤ c.len ∧
    Policy.isAllowed K { statements := all } args = denyRest K args all (all.drop i)
  | .allowing c i => Holds map own mem c all ∧ i ≤ c.len ∧
    Policy.isAllowed K { statements := all } args = allowRest K args (all.drop i)
  | .returned allowed => allowed = Policy.isAllowed K { statements := all } args

variable {K} {all : List St} {args : Args}

section Stable

variable (hagree : SpareAgrees map)
  (hothers : Others map.docs.length (Fixed map) own mem mem')
include hagree hothers

theorem stable_cell {a : Nat} (h : mem.cells a i = some x)
    (hfixed : own a ∨ Fixed map a i (some x)) : mem'.cells a i = some x := by
  rcases hfixed with hown | hfixed
  · rw [hothers.owned a i hown, h]
  · rcases hothers.shared a i hfixed.lt with heq | hwritten
    · rw [heq, h]
    · exact Fixed.unique hagree hwritten hfixed

theorem Kept.stable (h : Kept map mem) : Kept map mem' := fun a doc hdoc i x hx =>
  stable_cell hagree hothers (h a doc hdoc i x hx) (.inr (fixed_of_statement hdoc hx))

theorem Holds.stable (h : Holds map own mem c l) : Holds map own mem' c l :=
  ⟨⟨h.contains.len, fun i x hx => stable_cell hagree hothers (h.contains.cells i x hx) (h.fixed hx)⟩, h.cap, h.place⟩

/-- The steps of others keep what an authorization knows. -/
theorem PhaseInv.stable {phase : Phase St} (h : PhaseInv K map own mem all args phase) :
    PhaseInv K map own mem' all args phase := by
  cases phase with
  | appending c ds =>
    obtain ⟨l, ps, hholds, hrest⟩ := h
    exact ⟨l, ps, hholds.stable hagree hothers, hrest⟩
  | copying c d i ds =>
    obtain ⟨l, p, ps, hholds, hd, hds, hall, hpos, hroom, hi, hcopied⟩ := h
    exact ⟨l, p, ps, hholds.stable hagree hothers, hd, hds, hall, hpos, hroom, hi, fun j x hj hx =>
      stable_cell hagree hothers (hcopied j x hj hx) (hholds.fixed_append hd hroom hx)⟩
  | storing c d i st ds =>
    obtain ⟨l, p, ps, hholds, hd, hds, hall, hpos, hroom, hst, hcopied⟩ := h
    exact ⟨l, p, ps, hholds.stable hagree hothers, hd, hds, hall, hpos, hroom, hst, fun j x hj hx =>
      stable_cell hagree hothers (hcopied j x hj hx) (hholds.fixed_append hd hroom hx)⟩
  | growing c d acc ds =>
    obtain ⟨l, p, ps, hholds, hrest⟩ := h
    exact ⟨l, p, ps, hholds.stable hagree hothers, hrest⟩
  | denying c i | allowing c i => exact ⟨h.1.stable hagree hothers, h.2⟩
  | returned allowed => exact h

end Stable

/-! ## Own steps -/

variable {extra : Nat → Nat → Nat}

/-- The invariant after a step, with the arrays that are owned then. -/
def Goes (K : PolicyKind St Args) (map : PolicyMap St) (own : Nat → Prop) (mem : Memory (Option St))
    (all : List St) (args : Args) (r : Memory (Option St) × Phase St) : Prop :=
  ∃ own', Keeps map.docs.length (Fixed map) own own' mem r.1 ∧ Kept map r.1 ∧ PhaseInv K map own' r.1 all args r.2

theorem Goes.same (hkept : Kept map mem) {phase : Phase St} (h : PhaseInv K map own mem all args phase) :
    Goes K map own mem all args (mem, phase) :=
  ⟨own, Keeps.refl own mem, hkept, h⟩

variable {ds : List Slice}

theorem PhaseInv.step_appending (hkept : Kept map mem)
    (h : PhaseInv K map own mem all args (.appending c ds)) :
    Goes K map own mem all args ((phaseOp K extra args (.appending c ds)).run mem (.appending c ds)) := by
  obtain ⟨l, ps, hholds, hds, hall⟩ := h
  cases hds with
  | nil =>
    rw [flatMap_nil, append_nil] at hall
    subst hall
    exact Goes.same hkept ⟨hholds, Nat.zero_le _, rfl⟩
  | @cons d p ds ps hd hds =>
    rw [flatMap_cons, ← append_assoc] at hall
    simp only [phaseOp]
    by_cases hempty : d.len = 0
    · rw [if_pos hempty]
      have hnil : p.statements = [] := eq_nil_of_length_eq_zero (hd.len ▸ hempty)
      rw [hnil, append_nil] at hall
      exact Goes.same hkept ⟨l, ps, hholds, hds, hall⟩
    · rw [if_neg hempty]
      by_cases hroom : c.len + d.len ≤ c.cap
      · rw [if_pos hroom]
        exact Goes.same hkept ⟨l, p, ps, hholds, hd, hds, hall, Nat.pos_of_ne_zero hempty, hroom,
          Nat.zero_le _, fun j x hj => absurd hj (Nat.not_lt_zero j)⟩
      · rw [if_neg hroom]
        exact Goes.same hkept ⟨l, p, ps, hholds, hd, hds, hall, nil_prefix⟩

theorem PhaseInv.step_copying (hkept : Kept map mem)
    (h : PhaseInv K map own mem all args (.copying c d i ds)) :
    Goes K map own mem all args ((phaseOp K extra args (.copying c d i ds)).run mem (.copying c d i ds)) := by
  obtain ⟨l, p, ps, hholds, hd, hds, hall, hpos, hroom, hi, hcopied⟩ := h
  simp only [phaseOp]
  by_cases hlt : i < d.len
  · rw [if_pos hlt]
    have hx : p.statements[i]? = some (p.statements.get ⟨i, hd.len ▸ hlt⟩) := getElem?_eq_getElem _
    exact Goes.same hkept ⟨l, p, ps, hholds, hd, hds, hall, hpos, hroom,
      ⟨_, hx, hkept d.arr p hd.doc i _ hx⟩, hcopied⟩
  · -- all statements of the document have been written
    rw [if_neg hlt]
    obtain rfl : i = d.len := by omega
    have hlen := hholds.contains.len
    refine Goes.same hkept ⟨l ++ p.statements, ps, ⟨⟨?_, fun j x hx => ?_⟩, hroom, ?_⟩, hds, hall⟩
    · rw [length_append, hlen, hd.len]
    · by_cases hj : j < l.length
      · rw [getElem?_append_left hj] at hx
        exact hholds.contains.cells j x hx
      · rw [List.getElem?_append_right (not_lt.mp hj)] at hx
        have hlt' := (List.getElem?_eq_some_iff.mp hx).1
        have hcell := hcopied (j - l.length) x (by rw [hd.len]; exact hlt') hx
        rwa [hlen, Nat.add_sub_cancel' (not_lt.mp hj)] at hcell
    · rcases hholds.place with hown | hcap | hplace
      · exact .inl hown
      · omega
      · exact .inr (.inr (hplace.append hd.mem_docs _))

theorem PhaseInv.step_storing (hown : Private map.docs.length own mem) (hkept : Kept map mem)
    {st : Option St} (h : PhaseInv K map own mem all args (.storing c d i st ds)) :
    Goes K map own mem all args
      ((phaseOp K extra args (.storing c d i st ds)).run mem (.storing c d i st ds)) := by
  obtain ⟨l, p, ps, hholds, hd, hds, hall, hpos, hroom, ⟨x, hx, rfl⟩, hcopied⟩ := h
  have hlen := hholds.contains.len
  have hlt := (List.getElem?_eq_some_iff.mp hx).1
  -- the cell is not one of a statement that is there
  have hcell : ∀ a j, ¬ (a = c.arr ∧ j = c.len + i) →
      (mem.write c.arr (c.len + i) (some x)).cells a j = mem.cells a j := fun a j hne => by
    simp only [Memory.write, if_neg hne]
  simp only [phaseOp]
  refine ⟨own, Keeps.write ?_, ?_, l, p, ps, ⟨⟨hlen, fun j y hy => ?_⟩, hholds.cap, hholds.place⟩, hd, hds,
    hall, hpos, hroom, by rw [hd.len]; exact hlt, fun j y hj hy => ?_⟩
  · exact (hholds.fixed_append hd hroom hx).imp_right fun hfixed => ⟨hfixed.lt, hfixed⟩
  · intro a doc hdoc j y hy
    simp only [Op.run]
    rw [hcell a j]
    · exact hkept a doc hdoc j y hy
    · rintro ⟨rfl, rfl⟩
      have hj := (List.getElem?_eq_some_iff.mp hy).1
      rcases hholds.place with hmine | hcap | ⟨doc', ps', hdoc', -, -, rfl⟩
      · have hge := (hown _ hmine).1
        have ha := (List.getElem?_eq_some_iff.mp hdoc).1
        omega
      · omega
      · obtain rfl : doc = doc' := Option.some.inj (hdoc.symm.trans hdoc')
        rw [length_append] at hlen
        omega
  · have hj := (List.getElem?_eq_some_iff.mp hy).1
    simp only [Op.run]
    rw [hcell]
    · exact hholds.contains.cells j y hy
    · rintro ⟨-, rfl⟩
      omega
  · simp only [Op.run]
    by_cases hji : j = i
    · subst hji
      rw [Memory.write]
      simp only [and_self, if_true]
      exact hx.symm.trans hy
    · rw [hcell]
      · exact hcopied j y (by omega) hy
      · rintro ⟨-, heq⟩
        omega

theorem kept_alloc (hn : map.docs.length ≤ mem.next) (hkept : Kept map mem) (f : Nat → Option St) :
    Kept map (mem.alloc f) := by
  intro a doc hdoc i x hx
  have ha := (List.getElem?_eq_some_iff.mp hdoc).1
  simp only [Memory.alloc, if_neg (show a ≠ mem.next by omega)]
  exact hkept a doc hdoc i x hx

theorem PhaseInv.step_growing (hn : map.docs.length ≤ mem.next) (hkept : Kept map mem) {acc : List (Option St)} (h : PhaseInv K map own mem all args (.growing c d acc ds)) :
    Goes K map own mem all args
      ((phaseOp K extra args (.growing c d acc ds)).run mem (.growing c d acc ds)) := by
  obtain ⟨l, p, ps, hholds, hd, hds, hall, hacc⟩ := h
  have hlen := hholds.contains.len
  have htotal : ((l ++ p.statements).map some).length = c.len + d.len := by
    rw [length_map, length_append, hlen, hd.len]
  -- one more statement has been read
  have hmore : ∀ x, (l ++ p.statements)[acc.length]? = some x → acc ++ [some x] <+: (l ++ p.statements).map some := by
    intro x hx
    obtain ⟨t, ht⟩ := hacc
    have hget : t[0]? = some (some x) := by
      have hmap : ((l ++ p.statements).map some)[acc.length]? = some (some x) := by
        rw [getElem?_map, hx, Option.map_some]
      rwa [← ht, getElem?_append_right le_rfl, Nat.sub_self] at hmap
    cases t with
    | nil => cases hget
    | cons e t =>
      obtain rfl : e = some x := Option.some.inj hget
      exact ⟨t, by rw [← ht, append_assoc, singleton_append]⟩
  simp only [phaseOp]
  by_cases hold : acc.length < c.len
  · rw [if_pos hold]
    have hx : l[acc.length]? = some (l.get ⟨acc.length, hlen ▸ hold⟩) := getElem?_eq_getElem _
    refine Goes.same hkept ⟨l, p, ps, hholds, hd, hds, hall, ?_⟩
    rw [hholds.contains.cells _ _ hx]
    exact hmore _ (by rw [getElem?_append_left (hlen ▸ hold), hx])
  · rw [if_neg hold]
    by_cases hnew : acc.length < c.len + d.len
    · rw [if_pos hnew]
      have hlt : acc.length - c.len < p.statements.length := by
        rw [← hd.len]
        omega
      have hx : p.statements[acc.length - c.len]? = some (p.statements.get ⟨_, hlt⟩) := getElem?_eq_getElem _
      refine Goes.same hkept ⟨l, p, ps, hholds, hd, hds, hall, ?_⟩
      rw [hkept d.arr p hd.doc _ _ hx]
      refine hmore _ ?_
      rw [getElem?_append_right (by omega), ← hlen, hx]
    · -- the new array has all statements
      rw [if_neg hnew]
      have hfull : acc = (l ++ p.statements).map some :=
        hacc.eq_of_length_le (by omega)
      refine ⟨_, Keeps.alloc, kept_alloc hn hkept _, l ++ p.statements, ps,
        ⟨⟨?_, fun i x hx => ?_⟩, Nat.le_add_right _ _, .inl (.inr rfl)⟩, hds, hall⟩
      · rw [length_append, ← hlen, ← hd.len]
      · simp only [Op.run, Memory.alloc, if_true]
        rw [hfull, getD_eq_getElem?_getD, getElem?_map, hx]
        rfl

theorem Contains.next (h : Contains mem c all) (hlt : i < c.len) :
    ∃ st, mem.cells c.arr i = some st ∧ all.drop i = st :: all.drop (i + 1) := by
  rw [h.len] at hlt
  exact ⟨all[i], h.cells i _ (getElem?_eq_getElem hlt), drop_eq_getElem_cons hlt⟩

theorem PhaseInv.step_denying (hkept : Kept map mem) (h : PhaseInv K map own mem all args (.denying c i)) :
    Goes K map own mem all args ((phaseOp K extra args (.denying c i)).run mem (.denying c i)) := by
  obtain ⟨hholds, hi, hrest⟩ := h
  have hlen := hholds.contains.len
  simp only [phaseOp]
  by_cases hlt : i < c.len
  · obtain ⟨st, hcell, hdrop⟩ := hholds.contains.next hlt
    simp only [if_pos hlt, Op.run, hcell]
    rw [hdrop, denyRest, anyM_cons] at hrest
    refine Goes.same hkept ?_
    unfold denyStep
    by_cases hdeny : K.effect st = .deny
    · simp only [if_pos hdeny] at hrest ⊢
      rcases hst : statementIsAllowed K st args with _ | _ | _ <;> rw [hst] at hrest
      · exact hrest.symm
      · exact hrest.symm
      · exact ⟨hholds, hlt, hrest⟩
    · simp only [if_neg hdeny] at hrest ⊢
      exact ⟨hholds, hlt, hrest⟩
  · rw [if_neg hlt]
    have hdrop : all.drop i = [] := drop_eq_nil_of_le (by omega)
    rw [hdrop] at hrest
    refine Goes.same hkept ?_
    by_cases hdefault : K.byDefault args
    · rw [if_pos hdefault]
      refine (hrest.trans ?_).symm
      simp [denyRest, hdefault]
    · rw [if_neg hdefault]
      refine ⟨hholds, Nat.zero_le _, hrest.trans ?_⟩
      simp [denyRest, allowRest, hdefault]

theorem PhaseInv.step_allowing (hkept : Kept map mem)
    (h : PhaseInv K map own mem all args (.allowing c i)) :
    Goes K map own mem all args ((phaseOp K extra args (.allowing c i)).run mem (.allowing c i)) := by
  obtain ⟨hholds, hi, hrest⟩ := h
  have hlen := hholds.contains.len
  simp only [phaseOp]
  by_cases hlt : i < c.len
  · obtain ⟨st, hcell, hdrop⟩ := hholds.contains.next hlt
    simp only [if_pos hlt, Op.run, hcell]
    rw [hdrop, allowRest, anyM_cons] at hrest
    refine Goes.same hkept ?_
    unfold allowStep
    by_cases hallow : K.effect st = .allow
    · simp only [if_pos hallow] at hrest ⊢
      rcases hst : statementIsAllowed K st args with _ | _ | _ <;> rw [hst] at hrest
      · exact hrest.symm
      · exact ⟨hholds, hlt, hrest⟩
      · exact hrest.symm
    · simp only [if_neg hallow] at hrest ⊢
      exact ⟨hholds, hlt, hrest⟩
  · rw [if_neg hlt]
    have hdrop : all.drop i = [] := drop_eq_nil_of_le (by omega)
    rw [hdrop] at hrest
    exact Goes.same hkept hrest.symm

theorem PhaseInv.step (hn : map.docs.length ≤ mem.next) (hown : Private map.docs.length own mem)
    (hkept : Kept map mem) {phase : Phase St} (h : PhaseInv K map own mem all args phase) :
    Goes K map own mem all args ((phaseOp K extra args phase).run mem phase) := by
  cases phase with
  | appending c ds => exact h.step_appending hkept
  | copying c d i ds => exact h.step_copying hkept
  | storing c d i st ds => exact h.step_storing hown hkept
  | growing c d acc ds => exact h.step_growing hn hkept
  | denying c i => exact h.step_denying hkept
  | allowing c i => exact h.step_allowing hkept
  | returned allowed => exact Goes.same hkept h

/-! ## Authorizations -/

/-- What an authorization knows, with the documents. -/
def ThreadInv (K : PolicyKind St Args) (map : PolicyMap St) (own : Nat → Prop)
    (mem : Memory (Option St)) (t : Thread St Args) : Prop :=
  Kept map mem ∧ PhaseInv K map own mem (map.statements t.call.policies) t.call.args t.phase

theorem run_ofPhase (call : Call Args) (o : Op (Option St) (Phase St)) (phase : Phase St) :
    (Op.ofPhase call o).run mem ⟨call, phase⟩ = ((o.run mem phase).1, ⟨call, (o.run mem phase).2⟩) := by
  cases o <;> rfl

theorem run_threadOp (t : Thread St Args) :
    (threadOp K extra t).run mem t = (((phaseOp K extra t.call.args t.phase).run mem t.phase).1,
      ⟨t.call, ((phaseOp K extra t.call.args t.phase).run mem t.phase).2⟩) :=
  run_ofPhase t.call _ t.phase

theorem ThreadInv.step : Guarantees map.docs.length (Fixed map) (threadOp K extra) (ThreadInv K map) := by
  intro own mem t hn hown h
  rw [run_threadOp]
  exact h.2.step hn hown h.1

theorem calls_run (map : PolicyMap St) (calls : List (Call Args)) (schedule : List Nat) :
    ((map.begin calls).run (threadOp K extra) schedule).threads.map Thread.call = calls := by
  induction schedule using reverseRecOn with
  | nil =>
    simp only [Config.run, foldl_nil, PolicyMap.begin, map_map]
    exact map_id calls
  | append_singleton schedule i ih =>
    rw [Config.run_append]
    show ((((map.begin calls).run (threadOp K extra) schedule).step (threadOp K extra) i).threads.map
      Thread.call) = calls
    unfold Config.step
    split
    · exact ih
    · rename_i t ht
      rw [map_set, run_threadOp, ih]
      refine ext_getElem? fun j => ?_
      by_cases hj : i = j
      · subst hj
        have hget := congrArg (fun l => l[i]?) ih
        simp only [List.getElem?_map, ht, Option.map_some] at hget
        rw [← hget, List.getElem?_set_self (List.getElem?_eq_some_iff.mp hget.symm).1]
      · rw [List.getElem?_set_ne hj]

/-! ### The documents of the policies -/

variable {docs : List (PolicyDoc St)}

theorem find_zipIdx (hnodup : (docs.map name).Nodup) {a : Nat} (h : docs[a]? = some doc) (k : Nat) :
    ((docs.zipIdx k).find? fun e => e.1.name == doc.name) = some (doc, k + a) := by
  induction docs generalizing a k with
  | nil => cases h
  | cons first docs ih =>
    rw [map_cons, nodup_cons] at hnodup
    rw [zipIdx_cons]
    cases a with
    | zero =>
      obtain rfl : first = doc := Option.some.inj h
      rw [find?_cons_of_pos (by simp)]
      rfl
    | succ a =>
      have hne : first.name ≠ doc.name := fun heq =>
        hnodup.1 (heq ▸ mem_map_of_mem (mem_of_getElem? h))
      rw [find?_cons_of_neg (by simpa using hne), ih hnodup.2 h, Nat.add_right_comm]
      rfl

theorem find_name (hnodup : (docs.map name).Nodup) {a : Nat} (h : docs[a]? = some doc) : (docs.find? fun e => e.name == doc.name) = some doc := by
  have hmap : docs = (docs.zipIdx 0).map Prod.fst := (zipIdx_map_fst 0 docs).symm
  rw [hmap, find?_map]
  exact congrArg (Option.map Prod.fst) (find_zipIdx hnodup h 0)

theorem lookup_eq {a : Nat} (h : map.docs[a]? = some doc) :
    map.lookup doc.name = some (doc.slice a) := by
  rw [PolicyMap.lookup, find_zipIdx map.nodup h, Option.map_some, Nat.zero_add]

theorem forall₂_available (map : PolicyMap St) (policies : List String) :
    Forall₂ (IsDoc map) (map.availablePolicies policies)
      (policies.filterMap fun pname => map.docs.find? fun doc => doc.name == pname) := by
  unfold PolicyMap.availablePolicies
  induction policies with
  | nil => exact .nil
  | cons pname policies ih =>
    rw [filterMap_cons, filterMap_cons]
    cases hfind : map.docs.find? fun doc => doc.name == pname with
    | none =>
      have hnone : map.lookup pname = none := by
        rw [PolicyMap.lookup, Option.map_eq_none_iff, find?_eq_none]
        rw [find?_eq_none] at hfind
        exact fun e he => hfind e.1 (fst_mem_of_mem_zipIdx he)
      rw [hnone]
      exact ih
    | some doc =>
      obtain ⟨a, hdoc⟩ := getElem?_of_mem (mem_of_find?_eq_some hfind)
      have hname : doc.name = pname := by simpa using find?_some hfind
      have hlookup := lookup_eq hdoc
      rw [hname] at hlookup
      rw [hlookup]
      exact .cons ⟨hdoc, rfl⟩ ih

theorem IsDoc.holds (h : IsDoc map d p) (hkept : Kept map mem) : Holds map own mem d p.statements := by
  refine ⟨⟨h.len, fun i x hx => hkept d.arr p h.doc i x hx⟩, ?_, .inr (.inr ⟨p, [], h.doc, by simp, ?_, ?_⟩)⟩
  · rw [h.slice]
    exact Nat.le_add_right _ _
  · rw [h.slice]
    rfl
  · rw [flatMap_nil, append_nil]

theorem ThreadInv.start (call : Call Args) : ThreadInv K map own map.memory (call.start map) := by
  refine ⟨kept_memory map, ?_⟩
  have hdocs := forall₂_available map call.policies
  unfold Call.start
  simp only [PolicyMap.statements]
  generalize (call.policies.filterMap fun pname => map.docs.find? fun doc => doc.name == pname) = ps at hdocs
  cases hav : map.availablePolicies call.policies with
  | nil =>
    rw [hav] at hdocs
    cases hdocs
    exact ⟨[], [], ⟨⟨rfl, fun i x hx => by cases hx⟩, le_rfl, .inr (.inl rfl)⟩, .nil, rfl⟩
  | cons c ds =>
    rw [hav] at hdocs
    cases hdocs with
    | @cons _ p _ ps hd hds =>
      exact ⟨p.statements, ps, hd.holds (kept_memory map), hds, by rw [flatMap_cons]⟩

theorem ThreadInv.contains {t : Thread St Args} (h : ThreadInv K map own mem t) {combined : Slice}
    (heval : t.phase.Evaluates combined) : Contains mem combined (map.statements t.call.policies) := by
  obtain ⟨-, hphase⟩ := h
  obtain ⟨i, hi | hi⟩ := heval <;> rw [hi] at hphase <;> exact hphase.1.contains

theorem SpareAgrees.isolated (hagree : SpareAgrees map) (calls : List (Call Args)) (schedule : List Nat) :
    Isolated K map ((map.begin calls).run (threadOp K extra) schedule) := by
  obtain ⟨owns, howned⟩ := rely_guarantee (c := map.begin calls)
    (fun own mem mem' t h hothers => ⟨h.1.stable hagree hothers, h.2.stable hagree hothers⟩)
    (@ThreadInv.step _ _ map K extra) le_rfl
    (fun t ht => by
      obtain ⟨call, -, rfl⟩ := mem_map.mp ht
      exact ThreadInv.start call)
    schedule
  have hinv : ∀ t ∈ ((map.begin calls).run (threadOp K extra) schedule).threads,
      ∃ own, ThreadInv K map own ((map.begin calls).run (threadOp K extra) schedule).mem t := by
    intro t ht
    obtain ⟨i, hi⟩ := getElem?_of_mem ht
    exact ⟨owns i, howned.invariant i t hi⟩
  have hkept : Kept map ((map.begin calls).run (threadOp K extra) schedule).mem := by
    cases hthreads : ((map.begin calls).run (threadOp K extra) schedule).threads with
    | nil =>
      have hlen := Config.length_threads_run (threadOp K extra) (map.begin calls) schedule
      rw [hthreads] at hlen
      rw [Config.run_of_nil _ (eq_nil_of_length_eq_zero hlen.symm)]
      exact kept_memory map
    | cons t threads =>
      obtain ⟨own, hown⟩ := hinv t (by rw [hthreads]; exact mem_cons_self)
      exact hown.1
  refine ⟨fun a doc hdoc => ⟨rfl, hkept a doc hdoc⟩, fun t ht combined heval => ?_, fun t ht r hr => ?_⟩
  · obtain ⟨own, hown⟩ := hinv t ht
    exact hown.contains heval
  · obtain ⟨own, -, hphase⟩ := hinv t ht
    rw [hr] at hphase
    exact hphase

/-! ### Alone -/

theorem runThread_threadOp (k : Nat) (mem : Memory (Option St)) (call : Call Args) (phase : Phase St) :
    runThread (threadOp K extra) k mem ⟨call, phase⟩ = ((runThread (phaseOp K extra call.args) k mem phase).1,
        ⟨call, (runThread (phaseOp K extra call.args) k mem phase).2⟩) := by
  induction k generalizing mem phase with
  | zero => rfl
  | succ k ih =>
    rw [runThread, run_threadOp, ih]
    rfl

/-- The number of steps that are left, at most. A document takes at most twice as many steps as there are
statements in all. -/
def stepsLeft : Phase St → Nat
  | .appending c ds =>
    let total := c.len + (ds.map Slice.len).sum
    ds.length * (2 * total + 4) + (2 * total + 5)
  | .copying c d i ds =>
    let total := c.len + d.len + (ds.map Slice.len).sum
    2 * (d.len - i) + 1 + (ds.length * (2 * total + 4) + (2 * total + 5))
  | .storing c d i _ ds =>
    let total := c.len + d.len + (ds.map Slice.len).sum
    2 * (d.len - (i + 1)) + 2 + (ds.length * (2 * total + 4) + (2 * total + 5))
  | .growing c d acc ds =>
    let total := c.len + d.len + (ds.map Slice.len).sum
    c.len + d.len - acc.length + 1 + (ds.length * (2 * total + 4) + (2 * total + 5))
  | .denying c i => (c.len - i) + c.len + 3
  | .allowing c i => (c.len - i) + 1
  | .returned _ => 0

theorem denyStep_cases (i : Nat) (e : Option St) :
    denyStep K args c i e = .denying c (i + 1) ∨ ∃ r, denyStep K args c i e = .returned r := by
  unfold denyStep
  repeat' split
  all_goals simp

theorem allowStep_cases (i : Nat) (e : Option St) :
    allowStep K args c i e = .allowing c (i + 1) ∨ ∃ r, allowStep K args c i e = .returned r := by
  unfold allowStep
  repeat' split
  all_goals simp
/-- An authorization has returned, or its next step makes this number smaller. -/
theorem stepsLeft_lt (mem : Memory (Option St)) (phase : Phase St) : (∃ allowed, phase = .returned allowed) ∨
      stepsLeft ((phaseOp K extra args phase).run mem phase).2 < stepsLeft phase := by
  cases phase with
  | appending c ds =>
    refine .inr ?_
    cases ds with
    | nil =>
      simp only [phaseOp, Op.run, stepsLeft, map_nil, sum_nil, length_nil]
      omega
    | cons d ds =>
      by_cases hempty : d.len = 0
      · simp only [phaseOp, if_pos hempty, Op.run, stepsLeft, map_cons, sum_cons, length_cons]
        rw [hempty, Nat.zero_add, Nat.add_one_mul ds.length]
        omega
      · by_cases hroom : c.len + d.len ≤ c.cap
        · simp only [phaseOp, if_neg hempty, if_pos hroom, Op.run, stepsLeft, map_cons, sum_cons, length_cons]
          rw [← Nat.add_assoc c.len, Nat.add_one_mul ds.length]
          omega
        · simp only [phaseOp, if_neg hempty, if_neg hroom, Op.run, stepsLeft, map_cons, sum_cons,
            length_cons, length_nil]
          rw [← Nat.add_assoc c.len, Nat.add_one_mul ds.length]
          omega
  | copying c d i ds =>
    refine .inr ?_
    simp only [phaseOp]
    split_ifs <;> simp only [Op.run, stepsLeft] <;> omega
  | storing c d i st ds =>
    refine .inr ?_
    simp only [phaseOp, Op.run, stepsLeft]
    omega
  | growing c d acc ds =>
    refine .inr ?_
    simp only [phaseOp]
    split_ifs <;> simp only [Op.run, stepsLeft, length_append, length_singleton] <;> omega
  | denying c i =>
    refine .inr ?_
    by_cases hlt : i < c.len
    · simp only [phaseOp, if_pos hlt, Op.run]
      rcases denyStep_cases i (mem.cells c.arr i) with h | ⟨r, h⟩ <;> rw [h] <;> simp only [stepsLeft] <;> omega
    · simp only [phaseOp, if_neg hlt, Op.run]
      split_ifs <;> simp only [stepsLeft] <;> omega
  | allowing c i =>
    refine .inr ?_
    by_cases hlt : i < c.len
    · simp only [phaseOp, if_pos hlt, Op.run]
      rcases allowStep_cases i (mem.cells c.arr i) with h | ⟨r, h⟩ <;> rw [h] <;> simp only [stepsLeft] <;> omega
    · simp only [phaseOp, if_neg hlt, Op.run, stepsLeft]
      omega
  | returned allowed => exact .inl ⟨allowed, rfl⟩

/-- An authorization that runs alone returns the answer for the statements of its policies. -/
theorem returns_alone (map : PolicyMap St) (call : Call Args) :
    ∃ k, ((map.begin [call]).run (threadOp K extra) (replicate k 0)).threads =
      [⟨call, .returned (Policy.isAllowed K { statements := map.statements call.policies } call.args)⟩] := by
  have hphase : call.start map = ⟨call, (call.start map).phase⟩ := rfl
  obtain ⟨k, allowed, hk⟩ := runThread_finishes (@stepsLeft_lt St Args K call.args extra) map.memory
    (call.start map).phase
  obtain ⟨own, -, hinv⟩ := runThread_invariant (@ThreadInv.step _ _ map K extra) le_rfl
    (fun _ ha => False.elim ha) (ThreadInv.start call) k
  have hthread : runThread (threadOp K extra) k map.memory (call.start map) =
      ((runThread (phaseOp K extra call.args) k map.memory (call.start map).phase).1, ⟨call, .returned allowed⟩) := by
    rw [hphase, runThread_threadOp, hk]
  rw [hthread] at hinv
  refine ⟨k, ?_⟩
  rw [run_replicate (show (map.begin [call]).threads[0]? = some (call.start map) from rfl)]
  simp only [PolicyMap.begin, map_cons, map_nil, set_cons_zero]
  rw [hthread, hinv]

/-! ### The condition is needed -/

/-- Documents that fit are appended in place, whatever is in the memory. -/
theorem reach_denying (mem : Memory (Option St)) (c : Slice)
    (hroom : c.len + (ds.map Slice.len).sum ≤ c.cap) :
    ∃ k, (runThread (phaseOp K extra args) k mem (.appending c ds)).2 =
      .denying { c with len := c.len + (ds.map Slice.len).sum } 0 := by
  induction ds generalizing mem c with
  | nil => exact ⟨1, rfl⟩
  | cons d ds ih =>
    rw [map_cons, sum_cons, ← Nat.add_assoc] at hroom ⊢
    by_cases hempty : d.len = 0
    · rw [hempty, Nat.add_zero] at hroom ⊢
      obtain ⟨k, hk⟩ := ih mem c hroom
      refine ⟨1 + k, ?_⟩
      rw [runThread_add, ← hk]
      simp only [runThread, phaseOp, if_pos hempty, Op.run]
    · -- the statements are copied one after the other
      have hcopy : ∀ j mem, ∃ k, ∃ mem', runThread (phaseOp K extra args) k mem
          (.copying c d (d.len - j) ds) = (mem', .appending { c with len := c.len + d.len } ds) := by
        intro j
        induction j with
        | zero =>
          intro mem
          refine ⟨1, mem, ?_⟩
          simp only [runThread, phaseOp, Nat.sub_zero, lt_irrefl, if_false, Op.run]
        | succ j ihj =>
          intro mem
          by_cases hj : d.len - j = d.len - (j + 1)
          · rw [← hj]
            exact ihj mem
          · obtain ⟨k, mem', hk⟩ :=
              ihj (mem.write c.arr (c.len + (d.len - (j + 1))) (mem.cells d.arr (d.len - (j + 1))))
            refine ⟨2 + k, mem', ?_⟩
            rw [runThread_add, ← hk]
            have hlt : d.len - (j + 1) < d.len := by omega
            simp only [runThread, phaseOp, if_pos hlt, Op.run]
            rw [show d.len - (j + 1) + 1 = d.len - j by omega]
      obtain ⟨k, mem', hk⟩ := hcopy d.len mem
      obtain ⟨k', hk'⟩ := ih mem' { c with len := c.len + d.len } hroom
      rw [Nat.sub_self] at hk
      refine ⟨1 + k + k', ?_⟩
      rw [runThread_add, runThread_add]
      have hfirst : runThread (phaseOp K extra args) 1 mem (.appending c (d :: ds)) = (mem, .copying c d 0 ds) := by
        simp only [runThread, phaseOp, if_neg hempty, if_pos (show c.len + d.len ≤ c.cap by omega), Op.run]
      rw [hfirst, hk]
      exact hk'

/-- The authorization of a user whose policies are a document and others that fit. -/
theorem reach_evaluation (doc : PolicyDoc St) (ps : List (PolicyDoc St)) {a : Nat} (hdoc : map.docs[a]? = some doc)
    (hfits : Fits map doc ps) (args : Args) (mem : Memory (Option St)) :
    let call : Call Args := ⟨doc.name :: ps.map name, args, some true⟩
    map.statements call.policies = doc.statements ++ ps.flatMap statements ∧
      ∃ k, ∃ mem' len, runThread (threadOp K extra) k mem (call.start map) =
        (mem', ⟨call, .denying ⟨a, len, doc.statements.length + doc.spare⟩ 0⟩) := by
  intro call
  have hfound := forall₂_available map call.policies
  -- every name finds its document
  have hfind : ∀ p ∈ map.docs, (map.docs.find? fun q => q.name == p.name) = some p := by
    intro p hp
    obtain ⟨b, hb⟩ := getElem?_of_mem hp
    exact find_name map.nodup hb
  have hmem : ∀ p ∈ doc :: ps, p ∈ map.docs := forall_mem_cons.mpr ⟨mem_of_getElem? hdoc, hfits.docs⟩
  have hdocs : call.policies.filterMap (fun pname => map.docs.find? fun q => q.name == pname) = doc :: ps := by
    rw [show call.policies = (doc :: ps).map name from rfl, filterMap_map]
    exact (filterMap_congr fun p hp => hfind p (hmem p hp)).trans filterMap_some
  have hstatements : map.statements call.policies = doc.statements ++ ps.flatMap statements := by
    rw [PolicyMap.statements, hdocs, flatMap_cons]
  refine ⟨hstatements, ?_⟩
  rw [hdocs] at hfound
  have hds : map.availablePolicies call.policies = doc.slice a :: map.availablePolicies (ps.map name) := by
    rw [PolicyMap.availablePolicies, filterMap_cons_some (lookup_eq hdoc)]
    rfl
  rw [hds, forall₂_cons] at hfound
  have hrest := hfound.2
  set ds := map.availablePolicies (ps.map name)
  have hsum : (ds.map Slice.len).sum = (ps.flatMap statements).length := by
    clear hds hfits hstatements hfound hdocs hmem
    clear_value ds
    induction hrest with
    | nil => rfl
    | cons hd _ ih => rw [map_cons, sum_cons, flatMap_cons, length_append, ih, hd.len]
  have hroom : (doc.slice a).len + (ds.map Slice.len).sum ≤ (doc.slice a).cap := by
    rw [hsum]
    exact Nat.add_le_add_left hfits.room _
  obtain ⟨k, hk⟩ := @reach_denying St Args K args extra ds mem (doc.slice a) hroom
  have hstart : call.start map = ⟨call, .appending (doc.slice a) ds⟩ := by
    unfold Call.start
    rw [hds]
  refine ⟨k, (runThread (phaseOp K extra args) k mem (.appending (doc.slice a) ds)).1,
    (doc.slice a).len + (ds.map Slice.len).sum, ?_⟩
  rw [hstart, runThread_threadOp, hk]
  rfl

/-- Statements that differ are seen by an authorization that has combined its policies before. -/
theorem spareAgrees_of_isolated (args : Args) (h : ∀ (calls : List (Call Args)) (schedule : List Nat),
      Isolated K map ((map.begin calls).run (threadOp K extra) schedule)) : SpareAgrees map := by
  intro doc hdoc ps ps' hfits hfits' i x y hx hy
  obtain ⟨a, ha⟩ := getElem?_of_mem hdoc
  obtain ⟨hst, k, mem₁, len, hrun⟩ := @reach_evaluation St Args map K extra doc ps a ha hfits args map.memory
  obtain ⟨hst', k', mem₂, len', hrun'⟩ := @reach_evaluation St Args map K extra doc ps' a ha hfits' args mem₁
  set call : Call Args := ⟨doc.name :: ps.map name, args, some true⟩
  set call' : Call Args := ⟨doc.name :: ps'.map name, args, some true⟩
  -- one authorization combines its policies, and then the other one
  have hiso := h [call, call'] (replicate k 0 ++ replicate k' 1)
  have hend : (map.begin [call, call']).run (threadOp K extra) (replicate k 0 ++ replicate k' 1) =
      ⟨mem₂, [⟨call, .denying ⟨a, len, doc.statements.length + doc.spare⟩ 0⟩,
        ⟨call', .denying ⟨a, len', doc.statements.length + doc.spare⟩ 0⟩]⟩ := by
    rw [Config.run_append,
      run_replicate (show (map.begin [call, call']).threads[0]? = some (call.start map) from rfl)]
    simp only [PolicyMap.begin, map_cons, map_nil, set_cons_zero, hrun]
    rw [run_replicate (show [_, call'.start map][1]? = some (call'.start map) from rfl), hrun']
    rfl
  rw [hend] at hiso
  have hfirst := (hiso.evaluates _ mem_cons_self _ ⟨0, .inl rfl⟩).cells (doc.statements.length + i) x
  have hsecond := (hiso.evaluates _ (mem_cons_of_mem _ mem_cons_self) _ ⟨0, .inl rfl⟩).cells
    (doc.statements.length + i) y
  simp only [hst, hst', getElem?_append_right (Nat.le_add_right _ _), Nat.add_sub_cancel_left] at hfirst hsecond
  exact Option.some.inj ((hfirst hx).symm.trans (hsecond hy))

/-- An authorization alone returns the answer for the statements of its policies. In every interleaving of
authorizations each one evaluates the statements of its own policies, returns that answer and leaves the
documents as they are, just when the documents that fit into spare capacity agree. -/
theorem authorizations_isolated_iff {IP IPNet : Type} (lib : PolicyLib IP IPNet) (extra : Nat → Nat → Nat)
    (map : PolicyMap (IamPolicy.Statement IPNet)) :
    (∀ call, ∃ k, ((map.begin [call]).run (threadOp (iamPolicy lib) extra) (replicate k 0)).threads =
      [⟨call, .returned (Policy.isAllowed (iamPolicy lib) { statements := map.statements call.policies }
        call.args)⟩]) ∧
    ((∀ (calls : List (Call IamPolicy.Args)) (schedule : List Nat),
      Isolated (iamPolicy lib) map ((map.begin calls).run (threadOp (iamPolicy lib) extra) schedule)) ↔
      SpareAgrees map) :=
  ⟨returns_alone map, spareAgrees_of_isolated { action := "", bucketName := "" },
    fun hagree calls schedule => hagree.isolated calls schedule⟩

def readDoc (name pattern : String) (spare : Nat) : PolicyDoc (IamPolicy.Statement Unit) where
  name
  version := "2012-10-17"
  statements := [{
    effect := .allow
    actions := GoSet.ofList ["s3:GetObject"]
    resources := GoSet.ofList [⟨"data", pattern⟩] }]
  spare

theorem nodup_readDocs : ([readDoc "base" "data/public/*" 1, readDoc "logs" "data/logs/*" 0,
    readDoc "secret" "data/secret/*" 0].map name).Nodup := by
  decide

/-- Three documents. The array of the first has room for one more statement. -/
def readDocs : PolicyMap (IamPolicy.Statement Unit) := ⟨_, nodup_readDocs⟩

/-- A request for an object that only the third document allows. -/
def readSecret (policies : List String) : Call IamPolicy.Args where
  policies
  args := { action := "s3:GetObject", bucketName := "data", objectName := "secret/key" }
  session := some true

def Phase.result {St : Type} : Phase St → Option (Option Bool)
  | .returned allowed => some allowed
  | _ => none

/-- Two users with two policies each. The second combines their policies after the first and before the
first evaluates theirs: the first is allowed a request that none of their policies allows. -/
theorem authorizations_see_each_other : let calls := [readSecret ["base", "logs"], readSecret ["base", "secret"]]
    let schedule := replicate 5 0 ++ replicate 5 1 ++ replicate 6 0
    let c := (readDocs.begin calls).run (threadOp (iamPolicy loopbackLib) fun _ _ => 0) schedule
    Policy.isAllowed (iamPolicy loopbackLib) { statements := readDocs.statements ["base", "logs"] }
        (readSecret []).args = some false ∧
      (c.threads.map fun t => t.phase.result) = [some (some true), none] ∧
      ¬ Isolated (iamPolicy loopbackLib) readDocs c := by
  intro calls schedule c
  have halone : Policy.isAllowed (iamPolicy loopbackLib)
      { statements := readDocs.statements ["base", "logs"] } (readSecret []).args = some false := by
    decide +kernel
  have hresults : (c.threads.map fun t => t.phase.result) = [some (some true), none] := by
    decide +kernel
  refine ⟨halone, hresults, fun hiso => ?_⟩
  have hcalls : c.threads.map Thread.call = calls := calls_run readDocs calls schedule
  obtain ⟨t, threads, hthreads, hresult, -⟩ := map_eq_cons_iff.mp hresults
  rw [hthreads, map_cons, cons.injEq] at hcalls
  have hphase : t.phase = .returned (some true) := by
    cases hp : t.phase with
    | returned allowed =>
      rw [hp] at hresult
      rw [Option.some.inj hresult]
    | _ => rw [hp] at hresult; cases hresult
  have hanswer := hiso.returns t (by rw [hthreads]; exact mem_cons_self) _ hphase
  rw [hcalls.1] at hanswer
  have heq : some true = some false := hanswer.trans halone
  cases heq

end Otterio.IAM
