import Otterio.Policy.ConditionValues

/-!
# Which client input reaches a server-derived condition value

Headers and query parameters share one map with the values that the server derives, and a condition
function looks under the canonical header spelling of its key first. So a header `Sourceip` stands
in for the source address, and a query parameter `groups` for a claim that the token does not have.

* `SameResults`: conditions on the `serverKeys`, and policy variables for them, come out the same.
* `reservedHeaders`, `reservedQuery`: the names that reach such a value, directly or through a
  policy variable of another key.
* `unforgeable_of_unreserved`, `unreserved_of_unforgeable`: requests that differ in some names only
  have the same results exactly when no such name is reserved.
* `neverPanics_iff`: no evaluation panics exactly when every text that stands for the source address
  is an IP address.
-/

namespace Otterio

open List Key

/-- The condition keys whose value the server derives. -/
def serverKeys : List Key :=
  [awsSourceIP, awsSecureTransport, awsCurrentTime, awsEpochTime,
    awsPrincipalType, awsUserID, awsUsername, s3SignatureVersion, s3AuthType,
    ldapUser] ++ jwtKeys

/-- The other keys that may be used as policy variables. -/
def otherVariables : List Key := [s3XAmzContentSha256, s3LocationConstraint, awsReferer, awsUserAgent]

def substServerKeys (values : Values) (s : String) : Option String := serverKeys.foldlM (substKey values) s

/-- The headers that reach a condition on a server-derived key. -/
def reservedHeaders : List String :=
  serverKeys.map (fun k => canonicalHeaderKey k.name) ++ ["User-Agent", "Referer"]

/-- The query parameters that reach a condition on a server-derived key. -/
def reservedQuery : List String :=
  serverKeys.map (fun k => canonicalHeaderKey k.name) ++ serverKeys.map (fun k => k.name) ++
    ["LocationConstraint", "x-amz-content-sha256"]

section Spec

variable {IP IPNet : Type} (lib : PolicyLib IP IPNet)

/-- Conditions on server-derived keys have one result on both maps, and so has the substitution of
their policy variables. -/
structure SameResults (v₁ v₂ : Values) : Prop where
  evaluate_eq : ∀ f : Function IPNet, f.key ∈ serverKeys → f.evaluate lib v₁ = f.evaluate lib v₂
  subst_eq : ∀ s, substServerKeys v₁ s = substServerKeys v₂ s

/-- No condition on a server-derived key panics, nor does a substitution. -/
structure NeverPanics (v : Values) : Prop where
  evaluate_ne : ∀ f : Function IPNet, f.key ∈ serverKeys → f.evaluate lib v ≠ none
  subst_ne : ∀ s, substServerKeys v s ≠ none

/-- What the server derives from the two requests is the same. -/
structure SameServerData (env : ServerEnv) (r₁ r₂ : HttpRequest) : Prop where
  sourceIP : getSourceIP env r₁ = getSourceIP env r₂
  tls : r₁.tls = r₂.tls
  authType : r₁.authType = r₂.authType

/-- The requests differ at most in headers with a name in `Hs` and in query parameters with a name
in `Qs`. -/
structure DifferOnlyIn (Hs Qs : Set String) (r₁ r₂ : HttpRequest) : Prop where
  header : ∀ name, name ∉ Hs → r₁.header name = r₂.header name
  query : ∀ name, name ∉ Qs → r₁.query name = r₂.query name

/-- No two claims of the token are stored under one key, so that the order in which they are visited
does not matter. Only the claims `ldapUser` and `user` share a key. -/
def ClaimsSettled (claims : Claims) : Prop := ((claims.filterMap claimEntry).map Prod.fst).Nodup

/-- Headers with a name in `Hs` and query parameters with a name in `Qs` have no bearing on
conditions on server-derived keys. -/
def Unforgeable (Hs Qs : Set String) : Prop :=
  ∀ (env : ServerEnv) (lc username : String) (claims₁ claims₂ : Claims) (r₁ r₂ : HttpRequest),
    claims₁.Perm claims₂ → ClaimsSettled claims₁ → SameServerData env r₁ r₂ →
    DifferOnlyIn Hs Qs r₁ r₂ → SameResults lib (getConditionValues env r₁ lc username claims₁)
        (getConditionValues env r₂ lc username claims₂)

/-- No name in `Hs` is a reserved header, and no name in `Qs` a reserved query parameter. -/
def Unreserved (Hs Qs : Set String) : Prop :=
  (∀ name ∈ Hs, name ∉ reservedHeaders) ∧ ∀ name ∈ Qs, name ∉ reservedQuery

def sourceTexts (env : ServerEnv) (r : HttpRequest) (claims : Claims) : List String :=
  let claim := assigned (claims.filterMap claimEntry)
  let named := r.header "Sourceip" ++ r.query "Sourceip"
  match claim "Sourceip" with
  | some s => [s]
  | none =>
    if named ≠ [] then named
    else match claim "SourceIp" with
      | some s => [s]
      | none => getSourceIP env r :: r.query "SourceIp"

end Spec

/-! ## What a condition reads -/

section Reads

variable {IP IPNet : Type} {lib : PolicyLib IP IPNet} {v v₁ v₂ : Values}

/-- A policy variable reads the first value of its key. -/
theorem substKey_congr {key : Key} (h : (v₁ key.name).map head? = (v₂ key.name).map head?) (s : String) :
    substKey v₁ s key = substKey v₂ s key := by
  unfold substKey
  generalize v₁ key.name = a at h ⊢
  generalize v₂ key.name = b at h ⊢
  rcases a with _ | _ | ⟨x, _⟩ <;> rcases b with _ | _ | ⟨y, _⟩ <;> simp_all

variable {keys : List Key}

theorem foldlM_substKey_congr (h : ∀ k ∈ keys, (v₁ k.name).map head? = (v₂ k.name).map head?)
    (s : String) : keys.foldlM (substKey v₁) s = keys.foldlM (substKey v₂) s := by
  induction keys generalizing s with
  | nil => rfl
  | cons k keys ih =>
    obtain ⟨hk, hkeys⟩ := forall_mem_cons.mp h
    rw [foldlM_cons, foldlM_cons, substKey_congr hk]
    exact congrArg _ (funext fun s => ih hkeys s)

/-- A condition reads the values of its key and substitutes policy variables, no more. -/
theorem Function.evaluate_congr (f : Function IPNet) (hvalue : requestValue v₁ f.key = requestValue v₂ f.key)
    (hsubst : substFuncFromValues v₁ = substFuncFromValues v₂) : f.evaluate lib v₁ = f.evaluate lib v₂ := by
  cases f <;> simp only [Function.key] at hvalue <;>
    simp only [evaluate, evaluateString, evaluateIPAddress, hvalue, hsubst]

/-- A substitution does not panic when no key is present without a value. -/
theorem foldlM_substKey_isSome (h : ∀ k ∈ keys, v k.name ≠ some []) (s : String) :
    (keys.foldlM (substKey v) s).isSome := by
  induction keys generalizing s with
  | nil => rfl
  | cons k keys ih =>
    obtain ⟨hk, hkeys⟩ := forall_mem_cons.mp h
    obtain ⟨t, ht⟩ : ∃ t, substKey v s k = some t := by
      unfold substKey
      rcases hv : v k.name with _ | _ | ⟨x, _⟩
      · exact ⟨s, rfl⟩
      · exact absurd hv hk
      · exact ⟨_, rfl⟩
    rw [foldlM_cons, ht]
    exact ih hkeys t

theorem foldlM_substKey_of_notMem (h : ∀ k ∈ keys, v k.name ≠ some []) {s : String} (hs : '$' ∉ s.toList) :
    keys.foldlM (substKey v) s = some s := by
  induction keys with
  | nil => rfl
  | cons k keys ih =>
    obtain ⟨hk, hkeys⟩ := forall_mem_cons.mp h
    have hvar : k.varName.toList = '$' :: ('\x7b' :: k.toList ++ ['\x7d']) := by
      simp [varName, String.toList_append]
    have hsubst : substKey v s k = some s := by
      unfold substKey
      rcases hv : v k.name with _ | _ | ⟨x, _⟩
      · rfl
      · exact absurd hv hk
      · simp [replaceAll_of_notMem hvar hs]
    rw [foldlM_cons, hsubst]
    exact ih hkeys

theorem mapM_isSome {α β : Type} {f : α → Option β} {l : List α} : (l.mapM f).isSome ↔ ∀ a ∈ l, (f a).isSome := by
  induction l with
  | nil => simp
  | cons a l ih =>
    rw [mapM_cons, forall_mem_cons, ← ih]
    cases f a <;> cases l.mapM f <;> simp

end Reads

/-! ## Requests with the same results -/

section SameResults

variable {IP IPNet : Type} {lib : PolicyLib IP IPNet} {env : ServerEnv} {lc username : String}
  {claims claims₁ claims₂ : Claims} {r r₁ r₂ : HttpRequest}

theorem plainKey_of_mem_serverKeys :
    ∀ k ∈ serverKeys, plainKey k.name = true ∧ plainKey (canonicalHeaderKey k.name) = true := by
  decide +kernel

theorem plainKey_of_mem_commonKeys : ∀ k ∈ commonKeys, plainKey k.name = true := by
  decide +kernel

theorem mem_serverKeys_or_otherVariables :
    ∀ k ∈ commonKeys, k ∈ serverKeys ∨ k ∈ otherVariables := by decide +kernel

theorem appendValues_ne_nil {existing : Option (List String)} {values : List String}
    (h : existing ≠ some []) : appendValues existing values ≠ some [] := by
  unfold appendValues
  split
  · exact h
  · next hne => simpa using fun _ hnil => hne (by simp [hnil])

theorem serverValues_ne_nil (key : String) : serverValues env r lc username claims key ≠ some [] := by
  unfold serverValues
  split <;> simp

variable {key : String}

theorem getConditionValues_ne_nil (h : plainKey key = true) :
    getConditionValues env r lc username claims key ≠ some [] := by
  rw [getConditionValues_plain _ _ _ _ _ h]
  cases assigned (claims.filterMap claimEntry) key with
  | some v => simp
  | none => exact appendValues_ne_nil (appendValues_ne_nil (serverValues_ne_nil key))

theorem header_eq_nil {name : String} (h : canonicalHeaderKey name ≠ name) : r.header name = [] := by
  by_contra hne
  exact h (r.header_canonical name hne)

/-- Two requests with the same server data, the same claims, and the same `User-Agent` and
`Referer`. -/
structure SameBase (env : ServerEnv) (claims₁ claims₂ : Claims) (r₁ r₂ : HttpRequest) : Prop where
  data : SameServerData env r₁ r₂
  claims : claims₁.Perm claims₂
  settled : ClaimsSettled claims₁
  agent : r₁.header "User-Agent" = r₂.header "User-Agent"
  referer : r₁.header "Referer" = r₂.header "Referer"

theorem ne_versionid_of_plainKey (h : plainKey key = true) : key ≠ "versionid" := by
  rintro rfl
  revert h
  decide

section

variable (h : SameBase env claims₁ claims₂ r₁ r₂)
include h

theorem SameBase.assigned_eq (key : String) :
    assigned (claims₁.filterMap claimEntry) key = assigned (claims₂.filterMap claimEntry) key :=
  assigned_perm (h.claims.filterMap claimEntry) h.settled key

theorem SameBase.serverValues_eq (hkey : plainKey key = true) :
    serverValues env r₁ lc username claims₁ key = serverValues env r₂ lc username claims₂ key := by
  have hne := ne_versionid_of_plainKey hkey
  unfold serverValues
  split <;>
    simp_all [principalType, Header.get, h.data.sourceIP, h.data.tls, h.data.authType, h.agent,
      h.referer, h.claims.length_eq]

/-- A plain key holds the same when the header and the query parameter of that name do. -/
theorem SameBase.values_eq (hkey : plainKey key = true)
    (hheader : r₁.header key = r₂.header key) (hquery : r₁.query key = r₂.query key) :
    getConditionValues env r₁ lc username claims₁ key = getConditionValues env r₂ lc username claims₂ key := by
  rw [getConditionValues_plain _ _ _ _ _ hkey, getConditionValues_plain _ _ _ _ _ hkey,
    h.assigned_eq, h.serverValues_eq hkey, hheader, hquery]

end

theorem head?_appendValues (x : String) (xs ys : List String) :
    ∃ zs, appendValues (some (x :: xs)) ys = some (x :: zs) := by
  unfold appendValues
  split
  · exact ⟨xs, rfl⟩
  · exact ⟨xs ++ ys, rfl⟩

section

variable (h : SameBase env claims₁ claims₂ r₁ r₂)
include h

/-- A plain key that the server fills keeps its first value, whatever the header and the query
parameter of that name are. -/
theorem SameBase.head_eq {x : String} (hkey : plainKey key = true)
    (hserver : serverValues env r₁ lc username claims₁ key = some [x]) :
    (getConditionValues env r₁ lc username claims₁ key).map head? =
      (getConditionValues env r₂ lc username claims₂ key).map head? := by
  have hserver₂ : serverValues env r₂ lc username claims₂ key = some [x] := by
    rw [← h.serverValues_eq hkey, hserver]
  obtain ⟨xs₁, h₁⟩ := head?_appendValues x [] (r₁.header key)
  obtain ⟨ys₁, h₁'⟩ := head?_appendValues x xs₁ (r₁.query key)
  obtain ⟨xs₂, h₂⟩ := head?_appendValues x [] (r₂.header key)
  obtain ⟨ys₂, h₂'⟩ := head?_appendValues x xs₂ (r₂.query key)
  rw [getConditionValues_plain _ _ _ _ _ hkey, getConditionValues_plain _ _ _ _ _ hkey,
    h.assigned_eq, hserver, hserver₂, h₁, h₁', h₂, h₂']
  cases assigned (claims₂.filterMap claimEntry) key <;> rfl

/-- The names a policy variable or a condition goes by lead to the same values. -/
theorem SameBase.serverKey_eq
    (hheader : ∀ name ∈ reservedHeaders, r₁.header name = r₂.header name)
    (hquery : ∀ name ∈ reservedQuery, r₁.query name = r₂.query name) {k : Key} (hk : k ∈ serverKeys) :
    getConditionValues env r₁ lc username claims₁ k.name = getConditionValues env r₂ lc username claims₂ k.name ∧
      getConditionValues env r₁ lc username claims₁ (canonicalHeaderKey k.name) =
        getConditionValues env r₂ lc username claims₂ (canonicalHeaderKey k.name) := by
  obtain ⟨hname, hcanon⟩ := plainKey_of_mem_serverKeys k hk
  have hreserved : canonicalHeaderKey k.name ∈ reservedHeaders := mem_append_left _ (mem_map_of_mem hk)
  have hqueryName : k.name ∈ reservedQuery := mem_append_left _ (mem_append_right _ (mem_map_of_mem hk))
  have hqueryCanon : canonicalHeaderKey k.name ∈ reservedQuery :=
    mem_append_left _ (mem_append_left _ (mem_map_of_mem hk))
  refine ⟨h.values_eq hname ?_ (hquery _ hqueryName), h.values_eq hcanon (hheader _ hreserved) (hquery _ hqueryCanon)⟩
  -- A header under the name itself is one under the canonical name, or there is none.
  by_cases hc : canonicalHeaderKey k.name = k.name
  · rw [← hc]
    exact hheader _ hreserved
  · rw [header_eq_nil hc, header_eq_nil hc]

theorem SameBase.otherVariable_eq
    (hquery : ∀ name ∈ reservedQuery, r₁.query name = r₂.query name) {k : Key} (hk : k ∈ otherVariables) :
    (getConditionValues env r₁ lc username claims₁ k.name).map head? =
      (getConditionValues env r₂ lc username claims₂ k.name).map head? := by
  simp only [otherVariables, mem_cons, not_mem_nil, or_false] at hk
  have hfromQuery {name : String} (hplain : plainKey name = true)
      (hcanon : canonicalHeaderKey name ≠ name) (hname : name ∈ reservedQuery) :
      (getConditionValues env r₁ lc username claims₁ name).map head? =
        (getConditionValues env r₂ lc username claims₂ name).map head? := by
    have hnone : r₁.header name = r₂.header name := by
      rw [header_eq_nil hcanon, header_eq_nil hcanon]
    rw [h.values_eq hplain hnone (hquery name hname)]
  rcases hk with rfl | rfl | rfl | rfl
  · exact hfromQuery (by decide) (by decide) (mem_append_right _ (.tail _ (.head _)))
  · exact hfromQuery (by decide) (by decide) (mem_append_right _ (.head _))
  · exact h.head_eq (by decide) rfl
  · exact h.head_eq (by decide) rfl

end

end SameResults

section Unforgeable

variable {IP IPNet : Type} {lib : PolicyLib IP IPNet}

variable {Hs Qs : Set String}

theorem unforgeable_of_unreserved (h : Unreserved Hs Qs) : Unforgeable lib Hs Qs := by
  intro env lc username claims₁ claims₂ r₁ r₂ hperm hsettled hdata hdiff
  have hheader : ∀ name ∈ reservedHeaders, r₁.header name = r₂.header name :=
    fun name hname => hdiff.header name fun hmem => h.1 name hmem hname
  have hquery : ∀ name ∈ reservedQuery, r₁.query name = r₂.query name :=
    fun name hname => hdiff.query name fun hmem => h.2 name hmem hname
  have hbase : SameBase env claims₁ claims₂ r₁ r₂ :=
    { data := hdata, claims := hperm, settled := hsettled
      agent := hheader _ (mem_append_right _ (.head _))
      referer := hheader _ (mem_append_right _ (.tail _ (.head _))) }
  have hheads : ∀ k ∈ commonKeys, (getConditionValues env r₁ lc username claims₁ k.name).map head? =
        (getConditionValues env r₂ lc username claims₂ k.name).map head? := by
    intro k hk
    rcases mem_serverKeys_or_otherVariables k hk with hserver | hother
    · rw [(hbase.serverKey_eq hheader hquery hserver).1]
    · exact hbase.otherVariable_eq hquery hother
  constructor
  · intro f hf
    obtain ⟨hname, hcanon⟩ := hbase.serverKey_eq hheader hquery hf
    refine f.evaluate_congr ?_ (funext fun s => foldlM_substKey_congr hheads s)
    rw [Function.requestValue, Function.requestValue, hname, hcanon]
  · intro s
    refine foldlM_substKey_congr (fun k hk => ?_) s
    rw [(hbase.serverKey_eq hheader hquery hk).1]

/-! ## Requests that forge a value -/

/-- A server whose clock and credentials do not matter. -/
def plainEnv : ServerEnv where
  now := 0
  accessKey := ""
  formatTime _ := ""
  forwardedFor _ := none
  copySourceVersion _ := ""
  parseObjectTags _ := []

/-- A request from the loopback address without headers and query parameters. -/
def plainRequest : HttpRequest where
  header _ := []
  header_canonical _ h := absurd rfl h
  query _ := []
  remoteHost := "127.0.0.1"
  tls := false
  method := "GET"
  authType := .anonymous
  copySourceVersionID := none
  objectTags := none
  requestObjectTags := none

def withHeader (name value : String) : HttpRequest :=
  { plainRequest with
    header := fun n => if n = name ∧ canonicalHeaderKey n = n then [value] else []
    header_canonical := fun n h => by
      by_contra hc
      exact h (if_neg fun hn => hc hn.2) }

def withQuery (name value : String) : HttpRequest :=
  { plainRequest with query := fun n => if n = name then [value] else [] }

/-- The condition values of a request by `alice`. -/
def aliceValues (r : HttpRequest) : Values := getConditionValues plainEnv r "" "alice" []

variable {name : String}

theorem getSourceIP_withHeader {value : String} (h : name ∉ ["X-Forwarded-For", "X-Real-Ip", "Forwarded"]) :
    getSourceIP plainEnv (withHeader name value) = getSourceIP plainEnv plainRequest := by
  simp only [mem_cons, not_mem_nil, or_false, not_or] at h
  obtain ⟨hxff, hreal, hfwd⟩ := h
  simp [getSourceIP, getSourceIPFromHeaders, Header.get, withHeader, plainRequest, Ne.symm hxff,
    Ne.symm hreal, Ne.symm hfwd]

theorem Unforgeable.withHeader (h : Unforgeable lib Hs Qs) (hmem : name ∈ Hs)
    (hfwd : name ∉ ["X-Forwarded-For", "X-Real-Ip", "Forwarded"]) (value : String) :
    SameResults lib (aliceValues plainRequest) (aliceValues (withHeader name value)) := by
  refine h plainEnv "" "alice" [] [] plainRequest (Otterio.withHeader name value) (.refl _) .nil
    ⟨(getSourceIP_withHeader hfwd).symm, rfl, rfl⟩ ⟨fun n hn => ?_, fun _ _ => rfl⟩
  have hne : n ≠ name := fun hn' => hn (hn' ▸ hmem)
  exact (if_neg fun hn' => hne hn'.1).symm

theorem Unforgeable.withQuery (h : Unforgeable lib Hs Qs) (hmem : name ∈ Qs) (value : String) :
    SameResults lib (aliceValues plainRequest) (aliceValues (withQuery name value)) := by
  refine h plainEnv "" "alice" [] [] plainRequest (Otterio.withQuery name value) (.refl _) .nil
    ⟨rfl, rfl, rfl⟩ ⟨fun _ _ => rfl, fun n hn => ?_⟩
  have hne : n ≠ name := fun hn' => hn (hn' ▸ hmem)
  exact (if_neg hne).symm

/-- What `StringEquals` comes to. -/
def stringEqualsResult (k : Key) (fvalues : List String) (values : Values) : Option Bool :=
  (fvalues.mapM (substFuncFromValues values)).map fun fvalues =>
    (Function.requestValue values k).any fun v => fvalues.any (· == v)

theorem stringEqualsResult_of_notMem {v : Values} (h : ∀ k ∈ commonKeys, v k.name ≠ some [])
    {fvalue : String} (hs : '$' ∉ fvalue.toList) (k : Key) :
    stringEqualsResult k [fvalue] v = some (decide (fvalue ∈ Function.requestValue v k)) := by
  have hsubst : substFuncFromValues v fvalue = some fvalue := foldlM_substKey_of_notMem h hs
  have hany : ((Function.requestValue v k).any fun v => [fvalue].any (· == v)) =
      decide (fvalue ∈ Function.requestValue v k) := by
    rw [Bool.eq_iff_iff, any_eq_true, decide_eq_true_iff]
    simp
  simp [stringEqualsResult, hsubst, ← hany]

variable {k : Key}

theorem SameResults.stringEquals {v₁ v₂ : Values} (h : SameResults lib v₁ v₂) (hk : k ∈ serverKeys)
    (fvalue : String) : stringEqualsResult k [fvalue] v₁ = stringEqualsResult k [fvalue] v₂ := by
  have heval (v : Values) : (Function.string .stringEquals k
      ⟨[fvalue], nodup_singleton fvalue⟩).evaluate lib v = stringEqualsResult k [fvalue] v := by
    simp only [Function.evaluate, Function.evaluateString, stringEqualsResult, StringOp.compare,
      StringOp.negated, Bool.bne_false, Option.map_eq_bind]
    rfl
  rw [← heval, ← heval]
  exact h.evaluate_eq _ hk

/-- The values a client can put under a server-derived key: a header or a query parameter with the
canonical name, a query parameter with the name itself. -/
theorem requestValue_forged : ∀ k ∈ serverKeys, "forged" ∉ Function.requestValue (aliceValues plainRequest) k ∧
      "forged" ∈ Function.requestValue
        (aliceValues (withHeader (canonicalHeaderKey k.name) "forged")) k ∧
      "forged" ∈ Function.requestValue
        (aliceValues (withQuery (canonicalHeaderKey k.name) "forged")) k ∧
      "forged" ∈ Function.requestValue (aliceValues (withQuery k.name "forged")) k := by
  decide +kernel

theorem aliceValues_ne_nil (r : HttpRequest) : ∀ k ∈ commonKeys, aliceValues r k.name ≠ some [] := fun k hk =>
  getConditionValues_ne_nil (plainKey_of_mem_commonKeys k hk)

theorem not_sameResults_of_mem {r : HttpRequest} (hk : k ∈ serverKeys)
    (h : "forged" ∈ Function.requestValue (aliceValues r) k) :
    ¬ SameResults lib (aliceValues plainRequest) (aliceValues r) := by
  intro hsame
  have heq := hsame.stringEquals hk "forged"
  have hdollar : '$' ∉ "forged".toList := by decide
  rw [stringEqualsResult_of_notMem (aliceValues_ne_nil _) hdollar,
    stringEqualsResult_of_notMem (aliceValues_ne_nil _) hdollar, Option.some.injEq,
    decide_eq_decide] at heq
  exact (requestValue_forged k hk).1 (heq.mpr h)

/-- The requests that make a policy variable of another key stand for the user, with that key. -/
def variableForgeries : List (HttpRequest × Key) :=
  [(withHeader "User-Agent" "alice", awsUserAgent), (withHeader "Referer" "alice", awsReferer),
    (withQuery "LocationConstraint" "alice", s3LocationConstraint),
    (withQuery "x-amz-content-sha256" "alice", s3XAmzContentSha256)]

theorem stringEqualsResult_variable : ∀ p ∈ variableForgeries,
    stringEqualsResult awsUsername [p.2.varName] (aliceValues plainRequest) ≠
      stringEqualsResult awsUsername [p.2.varName] (aliceValues p.1) := by
  decide +kernel

theorem not_sameResults_of_variable {r : HttpRequest} (h : (r, k) ∈ variableForgeries) :
    ¬ SameResults lib (aliceValues plainRequest) (aliceValues r) := by
  intro hsame
  have hmem : awsUsername ∈ serverKeys := by decide +kernel
  exact stringEqualsResult_variable (r, k) h (hsame.stringEquals hmem k.varName)

theorem not_forwarding_of_reserved : ∀ name ∈ reservedHeaders,
    name ∉ ["X-Forwarded-For", "X-Real-Ip", "Forwarded"] := by decide +kernel

theorem unreserved_of_unforgeable (h : Unforgeable lib Hs Qs) : Unreserved Hs Qs := by
  constructor
  · intro name hmem hres
    have hsame := h.withHeader hmem (not_forwarding_of_reserved name hres)
    rcases mem_append.mp hres with hkey | hvar
    · obtain ⟨k, hk, rfl⟩ := mem_map.mp hkey
      exact not_sameResults_of_mem hk (requestValue_forged k hk).2.1 (hsame "forged")
    · rcases mem_pair.mp hvar with rfl | rfl
      · exact not_sameResults_of_variable (.head _) (hsame "alice")
      · exact not_sameResults_of_variable (.tail _ (.head _)) (hsame "alice")
  · intro name hmem hres
    have hsame := h.withQuery hmem
    rcases mem_append.mp hres with hkey | hvar
    · rcases mem_append.mp hkey with hcanon | hname
      · obtain ⟨k, hk, rfl⟩ := mem_map.mp hcanon
        exact not_sameResults_of_mem hk (requestValue_forged k hk).2.2.1 (hsame "forged")
      · obtain ⟨k, hk, rfl⟩ := mem_map.mp hname
        exact not_sameResults_of_mem hk (requestValue_forged k hk).2.2.2 (hsame "forged")
    · rcases mem_pair.mp hvar with rfl | rfl
      · exact not_sameResults_of_variable (.tail _ (.tail _ (.head _))) (hsame "alice")
      · exact not_sameResults_of_variable (.tail _ (.tail _ (.tail _ (.head _)))) (hsame "alice")

end Unforgeable

section Panics

variable {IP IPNet : Type} {lib : PolicyLib IP IPNet} {env : ServerEnv} {lc username : String}
  {claims : Claims} {r : HttpRequest}

theorem requestValue_sourceIP : Function.requestValue (getConditionValues env r lc username claims) awsSourceIP =
      sourceTexts env r claims := by
  have hname : awsSourceIP.name = "SourceIp" := by decide
  have hcanon : canonicalHeaderKey "SourceIp" = "Sourceip" := by decide
  have hheader : r.header "SourceIp" = [] := header_eq_nil (by decide)
  have hserver : serverValues env r lc username claims "SourceIp" = some [getSourceIP env r] := rfl
  have hnone : serverValues env r lc username claims "Sourceip" = none := rfl
  rw [Function.requestValue, hname, hcanon, getConditionValues_plain _ _ _ _ _ (by decide),
    getConditionValues_plain _ _ _ _ _ (by decide), hheader, hserver, hnone, sourceTexts]
  cases assigned (claims.filterMap claimEntry) "Sourceip" with
  | some s => rfl
  | none =>
    rcases r.header "Sourceip" with _ | ⟨a, as⟩ <;> rcases r.query "Sourceip" with _ | ⟨b, bs⟩
    · cases assigned (claims.filterMap claimEntry) "SourceIp" with
      | some s => rfl
      | none => cases hq : r.query "SourceIp" <;> simp [appendValues]
    all_goals simp [appendValues]

theorem isSome_evaluate (hsource : ∀ s ∈ sourceTexts env r claims, (lib.parseIP s).isSome) (f : Function IPNet) :
    (f.evaluate lib (getConditionValues env r lc username claims)).isSome := by
  have hip (nets : List IPNet) : (Function.evaluateIPAddress lib nets
      (getConditionValues env r lc username claims)).isSome := by
    obtain ⟨ips, hips⟩ := Option.isSome_iff_exists.mp (mapM_isSome.mpr hsource)
    simp [Function.evaluateIPAddress, requestValue_sourceIP, hips]
  cases f with
  | string op k fvalues =>
    have hsubst : ∀ s ∈ fvalues.elems, (substFuncFromValues
        (getConditionValues env r lc username claims) s).isSome := fun s _ =>
      foldlM_substKey_isSome
        (fun k hk => getConditionValues_ne_nil (plainKey_of_mem_commonKeys k hk)) s
    obtain ⟨fvs, hfvs⟩ := Option.isSome_iff_exists.mp (mapM_isSome.mpr hsubst)
    simp [Function.evaluate, Function.evaluateString, hfvs]
  | ipAddress nets => exact hip nets
  | notIPAddress nets => simpa [Function.evaluate] using hip nets
  | null | boolean | numeric | date => rfl

theorem neverPanics_iff : NeverPanics lib (getConditionValues env r lc username claims) ↔
      ∀ s ∈ sourceTexts env r claims, (lib.parseIP s).isSome := by
  constructor
  · intro h
    rw [← mapM_isSome]
    have hne := h.evaluate_ne (.ipAddress []) (.head _)
    rw [Function.evaluate, Function.evaluateIPAddress, requestValue_sourceIP] at hne
    cases hips : (sourceTexts env r claims).mapM lib.parseIP with
    | none => exact absurd (by rw [hips]; rfl) hne
    | some ips => rfl
  · intro hsource
    constructor
    · intro f _
      exact Option.isSome_iff_ne_none.mp (isSome_evaluate hsource f)
    · intro s
      refine Option.isSome_iff_ne_none.mp (foldlM_substKey_isSome (fun k hk => ?_) s)
      exact getConditionValues_ne_nil (plainKey_of_mem_serverKeys k hk).1

end Panics

/-- Requests that differ in some headers and query parameters have the same results on
server-derived keys exactly when none of the names is reserved, and no evaluation panics exactly
when every text that stands for the source address is an IP address. -/
theorem serverValues_unforgeable_iff {IP IPNet : Type} (lib : PolicyLib IP IPNet) :
    (∀ Hs Qs : Set String, Unforgeable lib Hs Qs ↔ Unreserved Hs Qs) ∧
      ∀ (env : ServerEnv) (r : HttpRequest) (lc username : String) (claims : Claims),
        NeverPanics lib (getConditionValues env r lc username claims) ↔
          ∀ s ∈ sourceTexts env r claims, (lib.parseIP s).isSome :=
  ⟨fun _ _ => ⟨unreserved_of_unforgeable, unforgeable_of_unreserved⟩, fun _ _ _ _ _ => neverPanics_iff⟩

/-- A header `Groups` passes for a claim, and a header `Sourceip` that is not an address makes an IP
condition panic. -/
theorem serverValues_forged : SameServerData plainEnv plainRequest (withHeader "Groups" "forged") ∧
      ¬ SameResults loopbackLib (aliceValues plainRequest)
        (aliceValues (withHeader "Groups" "forged")) ∧
      SameServerData plainEnv plainRequest (withHeader "Sourceip" "x") ∧
      NeverPanics loopbackLib (aliceValues plainRequest) ∧
      ¬ NeverPanics loopbackLib (aliceValues (withHeader "Sourceip" "x")) := by
  refine ⟨⟨(getSourceIP_withHeader (by decide)).symm, rfl, rfl⟩, ?_,
    ⟨(getSourceIP_withHeader (by decide)).symm, rfl, rfl⟩, ?_, ?_⟩
  · have hgroups : (canonicalHeaderKey (name "jwt:groups")) = "Groups" := by decide
    have hmem : "jwt:groups" ∈ serverKeys := by decide +kernel
    exact not_sameResults_of_mem hmem (hgroups ▸ (requestValue_forged _ hmem).2.1)
  · exact neverPanics_iff.mpr (by decide)
  · exact mt neverPanics_iff.mp (by decide)

end Otterio
