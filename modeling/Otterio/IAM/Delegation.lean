import Otterio.Policy.Dedupe
import Otterio.Policy.Wildcard

/-!
# Session policies

`validateSubPolicyEscalationWith` (`cmd/iam.go`) decides whether a caller may hand a session policy on: it
asks the caller's policies for every action and every resource of the Allow statements, and gives the
patterns of the session policy as the names of the request (`probe`).

* The patterns of the caller that match such a name contain the pattern, if they have no `?`
  (`Wildcard.Matches.trans`); so every request that the session policy grants is hit by an Allow statement
  of the caller (`Plain.allow_hit`).
* Nothing of the kind holds for the Deny statements: one that does not match the name of a pattern may
  still match some of the requests that the pattern stands for.
-/

namespace Otterio.IAM

open Wildcard Rules List IamPolicy

variable {IP IPNet : Type}

/-! ## The check -/

abbrev PolicyOf (IPNet : Type) := Policy (Statement IPNet)

/-- The errors of `validateSubPolicyEscalationWith`. -/
inductive EscalationError where
  | grants (action : String)
  | grantsOn (action resource : String)
deriving DecidableEq, Repr

/-- The text of the error; `quote` is the verb `%q`. -/
def EscalationError.text (quote : String → String) : EscalationError → String
  | grants action =>
    "session policy grants " ++ quote action ++ " which the caller is not allowed to delegate"
  | grantsOn action resource =>
    "session policy grants " ++ quote action ++ " on " ++ quote resource ++
      " which the caller is not allowed to delegate"

def resourceString (r : Resource) : String := "arn:aws:s3:::" ++ r.pattern

def firstError {α ε : Type} (check : α → Option (Option ε)) : List α → Option (Option ε)
  | [] => some none
  | a :: rest => do
    match ← check a with
    | some err => return some err
    | none => firstError check rest

def probe (callerArgs : Args) (action bucketName objectName : String) : Args :=
  { callerArgs with action, bucketName, objectName, denyOnly := false }

/-- The object name that stands for a resource. -/
def probeObject (r : Resource) : String :=
  if r.bucketName = "" ∨ r.pattern = r.bucketName then ""
  else trimPrefix r.pattern (r.bucketName ++ "/")

/-- One call of `isAllowed`. -/
def delegates (isAllowed : Args → Option Bool) (args : Args)
    (err : EscalationError) : Option (Option EscalationError) :=
  (isAllowed args).map fun ok => if ok then none else some err

/-- The round of `validateSubPolicyEscalationWith` for a statement. -/
def validateStatement (callerArgs : Args) (isAllowed : Args → Option Bool)
    (st : Statement IPNet) : Option (Option EscalationError) :=
  if st.effect ≠ .allow then some none
  else if st.resources.elems.length = 0 then
    firstError (fun action => delegates isAllowed (probe callerArgs action "" "") (.grants action))
      st.actions.elems
  else
    firstError (fun action =>
      firstError (fun r =>
        delegates isAllowed (probe callerArgs action r.bucketName (probeObject r))
          (.grantsOn action (resourceString r))) st.resources.elems) st.actions.elems

/-- `validateSubPolicyEscalationWith`. A call that panics returns `none`. -/
def validateSubPolicyEscalationWith (callerArgs : Args) (subPolicy : Option (PolicyOf IPNet))
    (isAllowed : Args → Option Bool) : Option (Option EscalationError) :=
  match subPolicy with
  | none => some none
  | some policy => firstError (validateStatement callerArgs isAllowed) policy.statements

def Accepted (callerArgs : Args) (subPolicy : PolicyOf IPNet)
    (isAllowed : Args → Option Bool) : Prop :=
  validateSubPolicyEscalationWith callerArgs (some subPolicy) isAllowed = some none

instance (callerArgs : Args) (subPolicy : PolicyOf IPNet)
    (isAllowed : Args → Option Bool) : Decidable (Accepted callerArgs subPolicy isAllowed) :=
  inferInstanceAs (Decidable (_ = _))

variable {α : Type} {l : List α}

theorem firstError_eq_nil_iff {ε : Type} {check : α → Option (Option ε)} :
    firstError check l = some none ↔ ∀ a ∈ l, check a = some none := by
  induction l with
  | nil => simp [firstError]
  | cons a rest ih =>
    rw [firstError, forall_mem_cons, ← ih]
    cases h : check a with
    | none => simp
    | some err => cases err <;> simp

variable {isAllowed : Args → Option Bool}

theorem delegates_eq_nil_iff {args : Args} {err : EscalationError} :
    delegates isAllowed args err = some none ↔ isAllowed args = some true := by
  cases h : isAllowed args with
  | none => simp [delegates, h]
  | some ok => cases ok <;> simp [delegates, h]

/-! ## Requests and scopes -/

structure Request where
  action : String
  bucketName : String
  objectName : String
deriving DecidableEq, Repr

/-- The request with the other arguments of the caller. -/
def Request.args (callerArgs : Args) (req : Request) : Args :=
  probe callerArgs req.action req.bucketName req.objectName

def Request.text (req : Request) : String :=
  if req.objectName = "" then req.bucketName ++ "/" else resourceText req.bucketName req.objectName

/-- An action of a statement with one of its resources, or with none. -/
@[ext]
structure Scope where
  action : String
  resource : Option Resource
deriving DecidableEq, Repr

def scopes (st : Statement IPNet) : List Scope :=
  st.actions.elems.flatMap fun action =>
    if st.resources.elems = [] then [⟨action, none⟩]
    else st.resources.elems.map fun r => ⟨action, some r⟩

def Scope.request (s : Scope) : Request :=
  match s.resource with
  | none => ⟨s.action, "", ""⟩
  | some r => ⟨s.action, r.bucketName, probeObject r⟩

/-- `Resource.Match`, once the policy variables of the pattern have been replaced. -/
def textMatch (lib : PolicyLib IP IPNet) (pattern text : String) : Bool :=
  (lib.pathClean text != "." && lib.pathClean text == pattern) || wildcardMatch pattern text

def Scope.Covers (lib : PolicyLib IP IPNet) (s : Scope) (req : Request) : Prop :=
  wildcardMatch s.action req.action = true ∧ ∀ r ∈ s.resource, textMatch lib r.pattern req.text = true

instance (lib : PolicyLib IP IPNet) (s : Scope) (req : Request) : Decidable (s.Covers lib req) :=
  inferInstanceAs (Decidable (_ ∧ _))

variable {st : Statement IPNet}

theorem mem_scopes {s : Scope} : s ∈ scopes st ↔ s.action ∈ st.actions.elems ∧
      ((st.resources.elems = [] ∧ s.resource = none) ∨ ∃ r ∈ st.resources.elems, s.resource = some r) := by
  obtain ⟨action, resource⟩ := s
  by_cases hr : st.resources.elems = []
  · simp [scopes, hr]
  · simp [scopes, hr, eq_comm]

theorem accepted_iff_scopes {callerArgs : Args} {subPolicy : PolicyOf IPNet} :
    Accepted callerArgs subPolicy isAllowed ↔ ∀ st ∈ subPolicy.statements, st.effect = .allow →
        ∀ s ∈ scopes st, isAllowed (s.request.args callerArgs) = some true := by
  rw [Accepted, validateSubPolicyEscalationWith, firstError_eq_nil_iff]
  refine forall₂_congr fun st _ => ?_
  by_cases he : st.effect = .allow
  · by_cases hr : st.resources.elems = [] <;>
      simp [-mem_flatMap, validateStatement, he, hr, firstError_eq_nil_iff, delegates_eq_nil_iff, scopes,
        forall_mem_flatMap, Scope.request, Request.args]
  · simp [validateStatement, he]

/-! ## Plain policies

What the patterns and the names must be like for a name to stand for what its pattern matches. -/

variable (lib : PolicyLib IP IPNet)

/-- The text of the request is a clean path, or a bucket with a slash. A request for an action of the admin
API names neither bucket nor object. -/
structure Request.Plain (req : Request) : Prop where
  clean : lib.pathClean req.text = req.text ∨
    (req.text = req.bucketName ++ "/" ∧ lib.pathClean req.text = req.bucketName ∧ '/' ∉ req.bucketName.toList)
  admin : (∃ a ∈ supportedAdminActions, wildcardMatch a req.action = true) →
    req.bucketName = "" ∧ req.objectName = ""

/-- A bucket with a key; the name of a bucket; or the beginning of such a name with a star. -/
structure PlainResource (r : Resource) : Prop where
  bucket_ne : r.bucketName ≠ ""
  bucket : '/' ∉ r.bucketName.toList
  pattern :
    (∃ key, key ≠ "" ∧ hasPrefix key "/" = false ∧ r.pattern = r.bucketName ++ "/" ++ key) ∨
    (r.pattern = r.bucketName ∧ '*' ∉ r.pattern.toList ∧ '?' ∉ r.pattern.toList) ∨
    (r.pattern = r.bucketName ∧ ∃ stem, r.pattern = stem ++ "*" ∧ '*' ∉ stem.toList ∧ '?' ∉ stem.toList)

/-- A scope whose name stands for it. The condition values have no part in its pattern. -/
structure Scope.Plain (v : Values) (s : Scope) : Prop where
  request : s.request.Plain lib
  admin : s.resource = none → s.action ∈ supportedAdminActions
  resource : ∀ r ∈ s.resource, PlainResource r
  bucket : ∀ r ∈ s.resource, r.pattern = r.bucketName → lib.pathClean (r.pattern ++ "/") = r.pattern ∧ r.pattern ≠ "."
  subst : ∀ r ∈ s.resource, substFuncFromValues v r.pattern = some r.pattern

/-- A statement of plain scopes. The admin statements are those without resources. -/
structure PlainStatement (v : Values) (st : Statement IPNet) : Prop where
  admin : isAdmin st = true ↔ st.resources.elems = []
  plain : ∀ s ∈ scopes st, s.Plain lib v

/-- A scope whose patterns have no `?` and do not end with a slash. -/
structure Scope.Carrying (s : Scope) : Prop where
  action : '?' ∉ s.action.toList
  resource : ∀ r ∈ s.resource, '?' ∉ r.pattern.toList ∧ r.pattern.toList.getLast? ≠ some '/'

/-- The policies of the caller: plain statements without conditions. -/
structure PlainCaller (v : Values) (caller : PolicyOf IPNet) : Prop where
  statements : ∀ st ∈ caller.statements, PlainStatement lib v st
  carrying : ∀ st ∈ caller.statements, ∀ s ∈ scopes st, s.Carrying

/-- A session policy whose Allow statements are plain. -/
def PlainSub (v : Values) (sub : PolicyOf IPNet) : Prop :=
  ∀ st ∈ sub.statements, st.effect = .allow → PlainStatement lib v st

variable {lib}

theorem slash_mem_text (req : Request) : '/' ∈ req.text.toList := by
  unfold Request.text resourceText
  split
  · simp
  · split
    · next h =>
      obtain ⟨c, hc⟩ := List.isPrefixOf_iff_prefix.mp h
      simp [← hc]
    · simp

variable {p : String} {t : String}

theorem textMatch_of_wildcard (h : wildcardMatch p t = true) : textMatch lib p t = true := by
  simp [textMatch, h]

theorem textMatch_cases (h : textMatch lib p t = true) :
    lib.pathClean t = p ∨ wildcardMatch p t = true := by
  simp only [textMatch, Bool.or_eq_true, Bool.and_eq_true, beq_iff_eq] at h
  exact h.imp And.right id

variable {r : Resource} {action : String}

theorem append_slash_ne (bucket key : String) : bucket ++ "/" ++ key ≠ bucket := by
  intro h
  have hlen := congrArg String.length h
  have hone : "/".length = 1 := rfl
  simp only [String.length_append] at hlen
  omega

variable {key : String}

theorem text_of_key (hb : r.bucketName ≠ "") (hk : key ≠ "") (hslash : hasPrefix key "/" = false)
    (hp : r.pattern = r.bucketName ++ "/" ++ key) : (Scope.request ⟨action, some r⟩).text = r.pattern := by
  have hne : r.pattern ≠ r.bucketName := hp ▸ append_slash_ne r.bucketName key
  have hobj : probeObject r = key := by
    rw [probeObject, if_neg (by simp [hb, hne]), hp, trimPrefix, hasPrefix]
    simp
  simp only [Scope.request, Request.text, hobj, if_neg hk, resourceText, hslash, hp]
  simp

theorem text_of_bucket (hp : r.pattern = r.bucketName) :
    (Scope.request ⟨action, some r⟩).text = r.pattern ++ "/" := by
  simp [Scope.request, Request.text, probeObject, hp]

variable {req : Request}

/-- A pattern that matches the name of a resource matches every text the resource matches. -/
theorem textMatch_trans (hp1 : '?' ∉ p.toList) (hlast : p.toList.getLast? ≠ some '/')
    (hr : PlainResource r) (hname : (Scope.request ⟨action, some r⟩).Plain lib) (hreq : req.Plain lib)
    (hpr : textMatch lib p (Scope.request ⟨action, some r⟩).text = true)
    (hrt : textMatch lib r.pattern req.text = true) : textMatch lib p req.text = true := by
  obtain ⟨hb, hslash, ⟨key, hk, hks, hpat⟩ | hbucket⟩ := hr
  · -- a key: the name is the pattern
    rw [text_of_key hb hk hks hpat] at hpr
    have hmem : '/' ∈ r.pattern.toList := by simp [hpat]
    have hmatch : wildcardMatch r.pattern req.text = true := by
      refine (textMatch_cases hrt).elim (fun h => ?_) id
      obtain hclean | ⟨-, hclean, hbucket⟩ := hreq.clean
      · rw [← hclean, h]
        exact wildcardMatch_refl _
      · exact absurd (hclean ▸ h ▸ hmem) hbucket
    refine textMatch_of_wildcard ?_
    obtain h | h := textMatch_cases hpr
    · have hself : lib.pathClean r.pattern = r.pattern := by
        have := hname.clean
        rw [text_of_key hb hk hks hpat] at this
        refine this.elim id fun ⟨h, _⟩ => ?_
        rw [hpat] at h
        have hlen := congrArg String.length h
        have hbucket : (Scope.request ⟨action, some r⟩).bucketName = r.bucketName := rfl
        simp only [String.length_append, hbucket] at hlen
        exact absurd (String.length_eq_zero_iff.mp (by omega)) hk
      rwa [← h, hself]
    · exact wildcardMatch_trans hp1 h hmatch
  · -- the name of a bucket, or the beginning of one
    have hpat : r.pattern = r.bucketName := hbucket.elim And.left And.left
    have hnamed := hname.clean
    rw [text_of_bucket hpat] at hpr hnamed
    have hne : req.text ≠ r.pattern := fun h => hslash (hpat ▸ h ▸ slash_mem_text req)
    obtain h | h := textMatch_cases hrt
    · obtain hclean | ⟨htext, hclean, -⟩ := hreq.clean
      · exact absurd (hclean ▸ h) hne
      · rwa [htext, ← hclean, h]
    obtain ⟨-, hstar, hone⟩ | ⟨-, stem, hstem, hstar, hone⟩ := hbucket
    · have := ((wildcardMatch_iff _ _).mp h).eq_of_literal hstar hone
      exact absurd (String.toList_inj.mp this) hne
    · refine textMatch_of_wildcard ?_
      obtain hp | hp := textMatch_cases hpr
      · obtain hclean | ⟨-, hclean, -⟩ := hnamed
        · refine absurd ?_ hlast
          rw [← hp, hclean]
          simp
        · have hpb : p = r.pattern := by rw [← hp, hclean, hpat]; rfl
          rwa [hpb]
      · -- the name matches `stem*/`; the star before the slash absorbs what comes before the first slash
        -- of the text, and the last star of `p` what comes after it
        rw [wildcardMatch_iff, hstem, String.toList_append, Matches.literal_append_iff hstar hone] at h
        obtain ⟨w, hw, -⟩ := h
        have hsw : '/' ∈ w := by
          have := slash_mem_text req
          rw [hw, mem_append] at this
          refine this.resolve_left fun h => hslash ?_
          rw [← hpat, hstem]
          simp [h]
        obtain ⟨w₁, w₂, rfl⟩ := append_of_mem hsw
        rw [wildcardMatch_iff] at hp ⊢
        have hmid : Matches '*' '?' (r.pattern ++ "/").toList (stem.toList ++ w₁ ++ ['/']) := by
          rw [hstem, String.toList_append, String.toList_append, append_assoc, append_assoc,
            Matches.literal_append_iff hstar hone]
          exact ⟨_, rfl, Matches.star_of_suffix w₁ (.refl _ _ _)⟩
        have := (hp.trans hp1 hmid).append_of_last hp1 hlast w₂
        simpa [hw] using this

variable {v : Values} {x : Scope}

/-- A scope without `?` that covers the name of a plain scope covers what that scope covers. -/
theorem Scope.covers_trans {y : Scope} (hx : x.Carrying) (hy : y.Plain lib v)
    (hreq : req.Plain lib) (hxy : x.Covers lib y.request) (hyq : y.Covers lib req) : x.Covers lib req := by
  obtain ⟨action, resource⟩ := y
  refine ⟨wildcardMatch_trans hx.action ?_ hyq.1, fun r hr => ?_⟩
  · cases resource <;> exact hxy.1
  · cases resource with
    | none =>
      -- both requests are for an action of the admin API
      obtain ⟨hb, ho⟩ := hreq.admin ⟨action, hy.admin rfl, hyq.1⟩
      have htext : req.text = (Scope.request ⟨action, none⟩).text := by
        simp [Request.text, Scope.request, hb, ho]
      rw [htext]
      exact hxy.2 r hr
    | some r' =>
      exact textMatch_trans (hx.resource r hr).1 (hx.resource r hr).2 (hy.resource r' rfl) hy.request hreq
        (hxy.2 r hr) (hyq.2 r' rfl)

theorem Scope.covers_self (hx : x.Plain lib v) : x.Covers lib x.request := by
  obtain ⟨action, resource⟩ := x
  cases resource with
  | none => exact ⟨wildcardMatch_refl _, by simp⟩
  | some r =>
    refine ⟨wildcardMatch_refl _, ?_⟩
    rintro r' ⟨⟩
    obtain ⟨hb, -, ⟨key, hk, hks, hpat⟩ | ⟨hpat, -⟩ | ⟨hpat, -⟩⟩ := hx.resource r rfl
    · rw [text_of_key hb hk hks hpat]
      exact textMatch_of_wildcard (wildcardMatch_refl _)
    all_goals
      obtain ⟨hclean, hdot⟩ := hx.bucket r rfl hpat
      rw [text_of_bucket hpat]
      simp [textMatch, hclean, hdot]

/-! ## Evaluation -/

variable {f : α → Option Bool}

theorem anyM_eq_any {g : α → Bool} (h : ∀ a ∈ l, f a = some (g a)) :
    l.anyM f = some (l.any g) := by
  induction l with
  | nil => rfl
  | cons a l ih =>
    obtain ⟨ha, hl⟩ := forall_mem_cons.mp h
    rw [anyM_cons, ha, ih hl]
    cases hg : g a <;> simp [hg]

theorem exists_of_anyM (h : l.anyM f = some true) : ∃ a ∈ l, f a = some true := by
  induction l with
  | nil => cases h
  | cons a l ih =>
    cases hf : f a with
    | none => simp [hf] at h
    | some b =>
      cases b with
      | true => exact ⟨a, .head _, hf⟩
      | false =>
        obtain ⟨b, hb, hfb⟩ := ih (by simpa [hf] using h)
        exact ⟨b, .tail _ hb, hfb⟩

/-- A rule list that does not allow by default allows by a rule. -/
theorem hit_of_isAllowed {R A : Type} {K : Rules.Kind R A} {rules : List R} {a : A} (hd : K.byDefault a = false)
    (h : Rules.isAllowed K rules a = some true) : Hit K .allow rules a := by
  unfold Rules.isAllowed at h
  cases hdeny : anyHit K .deny rules a with
  | none => simp [hdeny] at h
  | some b =>
    cases b with
    | true => simp [hdeny] at h
    | false =>
      obtain ⟨r, hr, hrule⟩ := exists_of_anyM (by simpa [hdeny, hd] using h : anyHit K .allow rules a = _)
      by_cases he : K.effect r = .allow
      · exact ⟨r, hr, he, by simpa [he] using hrule⟩
      · simp [he] at hrule

section Plain

variable {callerArgs : Args} {st : Statement IPNet} {req : Request}

theorem exists_covers_iff : (∃ s ∈ scopes st, s.Covers lib req) ↔
      actionSetMatch st.actions req.action = true ∧
        (st.resources.elems = [] ∨ st.resources.elems.any (fun r => textMatch lib r.pattern req.text)) := by
  simp only [mem_scopes, Scope.Covers, actionSetMatch, any_eq_true]
  constructor
  · rintro ⟨⟨action, resource⟩, ⟨ha, ⟨hr, rfl⟩ | ⟨r, hr, rfl⟩⟩, haction, htext⟩
    · exact ⟨⟨action, ha, haction⟩, .inl hr⟩
    · exact ⟨⟨action, ha, haction⟩, .inr ⟨r, hr, htext r rfl⟩⟩
  · rintro ⟨⟨action, ha, haction⟩, hr | ⟨r, hr, htext⟩⟩
    · exact ⟨⟨action, none⟩, ⟨ha, .inl ⟨hr, rfl⟩⟩, haction, by simp⟩
    · exact ⟨⟨action, some r⟩, ⟨ha, .inr ⟨r, hr, rfl⟩⟩, haction, by simpa using htext⟩

/-- `Statement.IsAllowed` of a plain statement comes to the conditions for the requests in its scopes. -/
theorem PlainStatement.check_eq (hst : PlainStatement lib callerArgs.conditionValues st) :
    check lib st (req.args callerArgs) =
      if ∃ s ∈ scopes st, s.Covers lib req then st.conditions.evaluate lib callerArgs.conditionValues
      else some false := by
  have hres (hact : actionSetMatch st.actions req.action = true) :
      resourceSetMatch lib st.resources req.text callerArgs.conditionValues =
        some (st.resources.elems.any fun r => textMatch lib r.pattern req.text) := by
    refine anyM_eq_any fun r hr => ?_
    obtain ⟨action, ha, -⟩ := any_eq_true.mp hact
    have hsubst := (hst.plain ⟨action, some r⟩ (mem_scopes.mpr ⟨ha, .inr ⟨r, hr, rfl⟩⟩)).subst r rfl
    simp [resourceMatch, hsubst, textMatch]
  have hcheck : check lib st (req.args callerArgs) = (do
      if !actionSetMatch st.actions req.action then return false
      if !(← resourceSetMatch lib st.resources req.text callerArgs.conditionValues) &&
        !isAdmin st then return false
      st.conditions.evaluate lib callerArgs.conditionValues) := rfl
  simp only [hcheck, exists_covers_iff, ← hst.admin]
  cases hact : actionSetMatch st.actions req.action with
  | false => simp
  | true =>
    rw [hres hact]
    cases hadmin : isAdmin st <;>
      cases hany : st.resources.elems.any (fun r => textMatch lib r.pattern req.text) <;> simp

/-- `Policy.IsAllowed` answers true. -/
def Grants (lib : PolicyLib IP IPNet) (p : PolicyOf IPNet) (args : Args) : Prop :=
  p.isAllowed (iamPolicy lib) args = some true

instance (lib : PolicyLib IP IPNet) (p : PolicyOf IPNet) (args : Args) : Decidable (Grants lib p args) :=
  inferInstanceAs (Decidable (_ = _))

/-- A statement of the policy with the effect hits the request. -/
def HitBy (lib : PolicyLib IP IPNet) (e : Effect) (p : PolicyOf IPNet) (args : Args) : Prop :=
  Hit (iamPolicy lib).toKind e p.statements args

instance (lib : PolicyLib IP IPNet) (e : Effect) (p : PolicyOf IPNet) (args : Args) :
    Decidable (HitBy lib e p args) :=
  inferInstanceAs (Decidable (Hit _ _ _ _))

def scopesOf (e : Effect) (p : PolicyOf IPNet) : Set Scope := {s | ∃ st ∈ p.statements, st.effect = e ∧ s ∈ scopes st}

variable {caller sub : PolicyOf IPNet}

section Caller

variable (hcond : ∀ st ∈ caller.statements, st.conditions = [])
  (hcaller : PlainCaller lib callerArgs.conditionValues caller)

include hcond hcaller

theorem check_caller (hst : st ∈ caller.statements) : check lib st (req.args callerArgs) =
      some (decide (∃ s ∈ scopes st, s.Covers lib req)) := by
  rw [(hcaller.statements st hst).check_eq, hcond st hst]
  split
  · next h => rw [decide_eq_true h]; rfl
  · next h => rw [decide_eq_false h]

theorem hitBy_iff (e : Effect) :
    HitBy lib e caller (req.args callerArgs) ↔ Covered (Scope.Covers lib) (scopesOf e caller) req := by
  constructor
  · rintro ⟨st, hst, he, hhit⟩
    have := (check_caller hcond hcaller hst).symm.trans hhit
    obtain ⟨s, hs, hcov⟩ := of_decide_eq_true (Option.some_inj.mp this)
    exact ⟨s, ⟨st, hst, he, hs⟩, hcov⟩
  · rintro ⟨s, ⟨st, hst, he, hs⟩, hcov⟩
    refine ⟨st, hst, he, (check_caller hcond hcaller hst).trans ?_⟩
    rw [decide_eq_true ⟨s, hs, hcov⟩]

theorem grants_caller_iff (hown : callerArgs.isOwner = false) : Grants lib caller (req.args callerArgs) ↔
      Granted (Scope.Covers lib) (scopesOf .allow caller) (scopesOf .deny caller) req := by
  have heval : Evaluates (iamPolicy lib).toKind caller.statements (req.args callerArgs) := by
    intro st hst h
    exact Option.some_ne_none _ ((check_caller hcond hcaller hst).symm.trans h)
  have hdef : (iamPolicy lib).byDefault (req.args callerArgs) = false := hown
  have hiff (e : Effect) : Hit (iamPolicy lib).toKind e caller.statements (req.args callerArgs) ↔ _ :=
    hitBy_iff hcond hcaller e
  rw [Grants, Policy.isAllowed_eq, isAllowed_eq_decide heval, Option.some_inj, decide_eq_true_iff, Allowed,
    hdef, hiff, hiff, Granted]
  simp [and_comm]

omit hcond in
theorem carries (e : Effect) : Carries (Scope.Covers lib) Scope.request (Scope.Plain lib callerArgs.conditionValues)
      (Request.Plain lib) (scopesOf e caller) := by
  rintro x ⟨st, hst, -, hx⟩ y hy q hq hxy hyq
  exact Scope.covers_trans (hcaller.carrying st hst x hx) hy hq hxy hyq

end Caller

/-- What a session policy grants is in a scope of one of its Allow statements. -/
theorem exists_scope_of_grants (hsub : PlainSub lib callerArgs.conditionValues sub)
    (hown : callerArgs.isOwner = false) (h : Grants lib sub (req.args callerArgs)) :
    ∃ s ∈ scopesOf .allow sub, s.Covers lib req := by
  rw [Grants, Policy.isAllowed_eq] at h
  have hdef : (iamPolicy lib).byDefault (req.args callerArgs) = false := hown
  obtain ⟨st, hst, he, hhit⟩ := hit_of_isAllowed hdef h
  have hcheck : check lib st (req.args callerArgs) = some true := hhit
  rw [(hsub st hst he).check_eq] at hcheck
  split at hcheck
  · next hs =>
    obtain ⟨s, hs, hcov⟩ := hs
    exact ⟨s, ⟨st, hst, he, hs⟩, hcov⟩
  · cases hcheck

def Scope.policy (IPNet : Type) (s : Scope) : PolicyOf IPNet where
  statements := [
    { effect := .allow
      actions := .ofList [s.action]
      resources := .ofList s.resource.toList }]

variable {s : Scope}

theorem eq_of_mem_policy (hst : st ∈ (s.policy IPNet).statements) {t : Scope}
    (ht : t ∈ scopes st) : t = s := by
  obtain rfl := mem_singleton.mp hst
  obtain ⟨action, _ | r⟩ := s <;> simpa [mem_scopes, GoSet.ofList, Scope.ext_iff] using ht

theorem plainSub_policy (hs : s.Plain lib v) : PlainSub lib v (s.policy IPNet) := by
  intro st hst _
  refine ⟨?_, fun t ht => (eq_of_mem_policy hst ht).symm ▸ hs⟩
  obtain ⟨action, resource⟩ := s
  obtain rfl := mem_singleton.mp hst
  cases resource with
  | none => simpa [isAdmin, GoSet.ofList] using hs.admin rfl
  | some r =>
    have hnot : action ∉ supportedAdminActions := fun h =>
      (hs.resource r rfl).bucket_ne (hs.request.admin ⟨action, h, wildcardMatch_refl action⟩).1
    simpa [isAdmin, GoSet.ofList] using hnot

theorem mem_scopes_policy (IPNet : Type) (s : Scope) : s ∈ scopesOf .allow (s.policy IPNet) := by
  refine ⟨_, .head _, rfl, mem_scopes.mpr ⟨by simp [GoSet.ofList], ?_⟩⟩
  cases s.resource <;> simp [GoSet.ofList]

theorem accepted_policy {isAllowed : Args → Option Bool}
    (h : isAllowed (s.request.args callerArgs) = some true) : Accepted callerArgs (s.policy IPNet) isAllowed := by
  rw [accepted_iff_scopes]
  intro st hst _ t ht
  rwa [eq_of_mem_policy hst ht]

theorem grants_policy (hs : s.Plain lib callerArgs.conditionValues) (h : s.Covers lib req) :
    Grants lib (s.policy IPNet) (req.args callerArgs) := by
  obtain ⟨st, hst, he, hmem⟩ := mem_scopes_policy IPNet s
  have hcheck : check lib st (req.args callerArgs) = _ := (plainSub_policy hs st hst he).check_eq
  rw [if_pos ⟨s, hmem, h⟩] at hcheck
  obtain rfl := mem_singleton.mp hst
  have hhit : (iamPolicy lib).hits _ (req.args callerArgs) = some true := hcheck
  have hdeny : ¬ Hit (iamPolicy lib).toKind .deny (s.policy IPNet).statements (req.args callerArgs) := by
    rintro ⟨st', hst', he', -⟩
    obtain rfl := mem_singleton.mp hst'
    cases he'
  have heval : Evaluates (iamPolicy lib).toKind (s.policy IPNet).statements (req.args callerArgs) := by
    intro st' hst'
    obtain rfl := mem_singleton.mp hst'
    rw [hhit]
    exact Option.some_ne_none _
  rw [Grants, Policy.isAllowed_eq, isAllowed_eq_decide heval, Option.some_inj, decide_eq_true_iff]
  exact ⟨hdeny, .inr ⟨_, .head _, rfl, hhit⟩⟩

end Plain

/-- No Deny statement takes a request away from an Allow statement of the caller, unless it takes the
name of its pattern away as well. -/
def DenyHarmless (lib : PolicyLib IP IPNet) (callerArgs : Args) (caller : PolicyOf IPNet) : Prop :=
  ∀ s ∈ scopesOf .allow caller, ¬ HitBy lib .deny caller (s.request.args callerArgs) →
    ∀ req : Request, req.Plain lib → s.Covers lib req → ¬ HitBy lib .deny caller (req.args callerArgs)

/-- A request that an accepted session policy grants is granted to the caller if and only if no Deny
statement of the caller hits it; and no accepted session policy grants more than the caller has if and only
if the Deny statements of the caller are harmless. -/
theorem subPolicy_within_iff (lib : PolicyLib IP IPNet) (callerArgs : Args)
    (hown : callerArgs.isOwner = false) (caller : PolicyOf IPNet)
    (hcond : ∀ st ∈ caller.statements, st.conditions = [])
    (hcaller : PlainCaller lib callerArgs.conditionValues caller) :
    (∀ sub : PolicyOf IPNet, PlainSub lib callerArgs.conditionValues sub →
      Accepted callerArgs sub (caller.isAllowed (iamPolicy lib)) →
      ∀ req : Request, req.Plain lib → Grants lib sub (req.args callerArgs) →
        (Grants lib caller (req.args callerArgs) ↔ ¬ HitBy lib .deny caller (req.args callerArgs))) ∧
    ((∀ sub : PolicyOf IPNet, PlainSub lib callerArgs.conditionValues sub →
      Accepted callerArgs sub (caller.isAllowed (iamPolicy lib)) →
      ∀ req : Request, req.Plain lib → Grants lib sub (req.args callerArgs) →
        Grants lib caller (req.args callerArgs)) ↔
      DenyHarmless lib callerArgs caller) := by
  have hallow := carries hcaller .allow
  have hplain (s : Scope) (hs : s ∈ scopesOf .allow caller) : s.Plain lib callerArgs.conditionValues := by
    obtain ⟨st, hst, -, hs⟩ := hs
    exact (hcaller.statements st hst).plain s hs
  have hiff := handedOn_iff hallow (carries hcaller .deny) hplain
    (fun s hs => Scope.covers_self (hplain s hs)) fun s hs => hs.request
  have hgrants (req : Request) : Grants lib caller (req.args callerArgs) ↔ _ := grants_caller_iff hcond hcaller hown
  have hdeny (req : Request) : HitBy lib .deny caller (req.args callerArgs) ↔ _ := hitBy_iff hcond hcaller .deny
  -- every granted request is in a scope whose name is granted to the caller
  have hscope {sub : PolicyOf IPNet} (hsub : PlainSub lib callerArgs.conditionValues sub)
      (hacc : Accepted callerArgs sub (caller.isAllowed (iamPolicy lib))) {req : Request}
      (hg : Grants lib sub (req.args callerArgs)) :
      ∃ s : Scope, s.Plain lib callerArgs.conditionValues ∧ s.Covers lib req ∧
        Granted (Scope.Covers lib) (scopesOf .allow caller) (scopesOf .deny caller) s.request := by
    obtain ⟨s, ⟨st, hst, he, hs⟩, hcov⟩ := exists_scope_of_grants hsub hown hg
    exact ⟨s, (hsub st hst he).plain s hs, hcov, (hgrants _).mp (accepted_iff_scopes.mp hacc st hst he s hs)⟩
  refine ⟨fun sub hsub hacc req hreq hg => ?_, ?_⟩
  · obtain ⟨s, hs, hcov, hname⟩ := hscope hsub hacc hg
    rw [hgrants, hdeny]
    exact granted_iff_not_covered hallow hs hname hreq hcov
  · simp only [DenyHarmless, hdeny, ← hiff]
    constructor
    · intro h s hs hname req hreq hcov
      rw [← hgrants] at hname ⊢
      exact h (s.policy IPNet) (plainSub_policy hs) (accepted_policy hname) req hreq
        (grants_policy hs hcov)
    · intro h sub hsub hacc req hreq hg
      obtain ⟨s, hs, hcov, hname⟩ := hscope hsub hacc hg
      exact (hgrants req).mpr (h s hs hname req hreq hcov)

def statementOn (effect : Effect) (action bucketName key : String) : Statement Unit where
  effect := effect
  actions := .ofList [action]
  resources := .ofList [⟨bucketName, bucketName ++ "/" ++ key⟩]

def allButSecret : PolicyOf Unit where
  statements := [statementOn .allow "s3:*" "data" "*", statementOn .deny "s3:GetObject" "data" "secret"]

/-- Reading the objects whose names begin with `key`. -/
def readAll (key : String) : PolicyOf Unit where
  statements := [statementOn .allow "s3:GetObject" "data" key]

/-- The arguments of a caller without condition values. -/
def noArgs : Args := ⟨"", "", fun _ => none, false, "", false⟩

theorem plainStatement_on {effect : Effect}
    (ha : ∀ a ∈ supportedAdminActions, wildcardMatch a action = false) (hk : key ≠ "")
    (hslash : hasPrefix key "/" = false) :
    PlainStatement loopbackLib noArgs.conditionValues (statementOn effect action "data" key) := by
  have hadmin : action ∉ supportedAdminActions := fun h =>
    Bool.false_ne_true ((ha action h).symm.trans (wildcardMatch_refl action))
  refine ⟨by simpa [isAdmin, statementOn, GoSet.ofList] using hadmin, fun s hs => ?_⟩
  obtain rfl : s = ⟨action, some ⟨"data", "data" ++ "/" ++ key⟩⟩ := by
    simpa [mem_scopes, statementOn, GoSet.ofList, Scope.ext_iff] using hs
  refine ⟨⟨.inl rfl, fun ⟨a, hmem, hmatch⟩ => ?_⟩, by simp, ?_, ?_, ?_⟩
  · exact absurd hmatch (by simp [Scope.request, ha a hmem])
  · rintro r ⟨⟩
    exact ⟨show "data" ≠ "" by decide, show '/' ∉ "data".toList by decide, .inl ⟨key, hk, hslash, rfl⟩⟩
  · rintro r ⟨⟩ h
    exact absurd h (append_slash_ne "data" key)
  · rintro r ⟨⟩
    rfl

/-- A session policy for the public objects is within the rights of the caller. -/
theorem readAll_within_allButSecret :
    Accepted noArgs (readAll "public*") (allButSecret.isAllowed (iamPolicy loopbackLib)) ∧
      Grants loopbackLib (readAll "public*") (Request.args noArgs ⟨"s3:GetObject", "data", "public1"⟩) ∧
      Grants loopbackLib allButSecret (Request.args noArgs ⟨"s3:GetObject", "data", "public1"⟩) := by
  have hacc : Accepted noArgs (readAll "public*") (allButSecret.isAllowed (iamPolicy loopbackLib)) := by
    decide +kernel
  have hgrant : Grants loopbackLib (readAll "public*")
      (Request.args noArgs ⟨"s3:GetObject", "data", "public1"⟩) := by
    decide +kernel
  have hs3 : ∀ action ∈ ["s3:*", "s3:GetObject"], ∀ a ∈ supportedAdminActions,
      wildcardMatch a action = false := by
    decide +kernel
  have hcaller : PlainCaller loopbackLib noArgs.conditionValues allButSecret := by
    refine ⟨fun st hst => ?_, fun st hst s hs => ?_⟩
    · simp only [allButSecret, mem_cons, not_mem_nil, or_false] at hst
      obtain rfl | rfl := hst
      · exact plainStatement_on (hs3 _ (.head _)) (by decide) (by decide)
      · exact plainStatement_on (hs3 _ (.tail _ (.head _))) (by decide) (by decide)
    · have hcarry : ∀ st ∈ allButSecret.statements, ∀ s ∈ scopes st, '?' ∉ s.action.toList ∧
          ∀ r ∈ s.resource, '?' ∉ r.pattern.toList ∧ r.pattern.toList.getLast? ≠ some '/' := by
        decide +kernel
      exact ⟨(hcarry st hst s hs).1, (hcarry st hst s hs).2⟩
  have hsub : PlainSub loopbackLib noArgs.conditionValues (readAll "public*") := by
    intro st hst _
    obtain rfl := mem_singleton.mp hst
    exact plainStatement_on (hs3 _ (.tail _ (.head _))) (by decide) (by decide)
  have hreq : Request.Plain loopbackLib ⟨"s3:GetObject", "data", "public1"⟩ := by
    refine ⟨.inl rfl, fun ⟨a, ha, hmatch⟩ => ?_⟩
    exact absurd hmatch (by simp [hs3 "s3:GetObject" (.tail _ (.head _)) a ha])
  have hcond : ∀ st ∈ allButSecret.statements, st.conditions = [] := by
    simp [allButSecret, statementOn]
  refine ⟨hacc, hgrant, ?_⟩
  exact ((subPolicy_within_iff loopbackLib noArgs rfl allButSecret hcond hcaller).1 _ hsub hacc _ hreq
    hgrant).mpr (by decide +kernel)

/-- The caller may read everything in the bucket but one object. A session policy for the whole bucket is
accepted, since the name of its pattern is not the name of that object, and grants the object. The second
caller may use object names of one character only and hands on all of them. -/
theorem subPolicy_exceeds_caller : (Accepted noArgs (readAll "*") (allButSecret.isAllowed (iamPolicy loopbackLib)) ∧
      Grants loopbackLib (readAll "*") (Request.args noArgs ⟨"s3:GetObject", "data", "secret"⟩) ∧
      ¬ Grants loopbackLib allButSecret (Request.args noArgs ⟨"s3:GetObject", "data", "secret"⟩)) ∧
    (Accepted noArgs (readAll "*") ((readAll "?").isAllowed (iamPolicy loopbackLib)) ∧
      Grants loopbackLib (readAll "*") (Request.args noArgs ⟨"s3:GetObject", "data", "secret"⟩) ∧
      ¬ Grants loopbackLib (readAll "?") (Request.args noArgs ⟨"s3:GetObject", "data", "secret"⟩)) := by
  decide +kernel

end Otterio.IAM
