import Otterio.Policy.Condition

/-!
# The condition values of a request

`getConditionValues` of `cmd/bucket-policy.go` fills one map from five sources, in this order: what
the server knows, the headers, the query parameters, the claims of the session token, the object
tags. Headers and query parameters are appended to the values a key already has; a claim and a tag
replace them.

`getConditionValues_plain` says what is under a key that none of the special cases (object lock
headers, `versionid`, tags) concerns.
-/

namespace Otterio

open List

/-! ## Requests -/

inductive AuthType where
  | unknown | anonymous | presigned | presignedV2 | postPolicy | streamingSigned | signed
  | signedV2 | jwt | sts
deriving DecidableEq, Repr

/-- The parts of an `http.Request` that `getConditionValues` reads. The names of the headers are
canonical, as `net/http` makes them. -/
structure HttpRequest where
  header : Header
  header_canonical : ∀ name, header name ≠ [] → canonicalHeaderKey name = name
  query : String → List String
  /-- The host that `net.SplitHostPort` finds in `r.RemoteAddr`. -/
  remoteHost : String
  /-- `r.TLS != nil`. -/
  tls : Bool
  method : String
  /-- `getRequestAuthType(r)`. -/
  authType : AuthType
  /-- The value of the request context under `copySourceVersionIDContextKey`. -/
  copySourceVersionID : Option String
  /-- The value of the request context under `objectTaggingContextKey`. -/
  objectTags : Option String
  /-- The value of the request context under `requestObjectTaggingContextKey`. -/
  requestObjectTags : Option String

/-- The server's own data, and the library functions that read a text of the request. -/
structure ServerEnv where
  /-- `UTCNow()`. -/
  now : Time
  accessKey : String
  /-- `t.Format(time.RFC3339)`. -/
  formatTime : Time → String
  /-- The first group of `forRegex` in a `Forwarded` header, without quotes. -/
  forwardedFor : String → Option String
  /-- The version in the query of an `X-Amz-Copy-Source` header. -/
  copySourceVersion : String → String
  /-- `tags.ParseObjectTags`, empty for a text that it rejects. -/
  parseObjectTags : String → List (String × String)

/-- The claims of a session token, `map[string]interface{}`, in the order a `range` visits them. A
claim that is not a string has no text. -/
abbrev Claims := List (String × Option String)

/-- The text before the first `", "`. -/
def firstAddress : List Char → List Char
  | [] => []
  | c :: s => if [',', ' '].isPrefixOf (c :: s) then [] else c :: firstAddress s

def getSourceIPFromHeaders (env : ServerEnv) (r : HttpRequest) : String :=
  let xff := r.header.get "X-Forwarded-For"
  let realIP := r.header.get "X-Real-Ip"
  let forwarded := r.header.get "Forwarded"
  if xff ≠ "" then String.ofList (firstAddress xff.toList)
  else if realIP ≠ "" then realIP
  else if forwarded ≠ "" then (env.forwardedFor forwarded).getD ""
  else ""

def getSourceIP (env : ServerEnv) (r : HttpRequest) : String :=
  let addr := getSourceIPFromHeaders env r
  if addr ≠ "" then addr else r.remoteHost

/-! ## The map -/

def principalType (env : ServerEnv) (username : String) (claims : Claims) : String :=
  if username = "" then "Anonymous"
  else if username = env.accessKey then "Account"
  else if 0 < claims.length then "AssumedRole"
  else "User"

def selectedVersion (env : ServerEnv) (r : HttpRequest) : String :=
  match r.copySourceVersionID with
  | some vid => vid
  | none =>
    let vid := trimSpace ((r.query "versionId").headD "")
    if vid = "" ∧ r.method ≠ "GET" ∧ r.method ≠ "HEAD" then
      env.copySourceVersion (r.header.get "X-Amz-Copy-Source")
    else vid

def AuthType.signatureVersion : AuthType → String
  | signedV2 | presignedV2 => "AWS"
  | signed | presigned | streamingSigned | postPolicy => "AWS4-HMAC-SHA256"
  | _ => ""

def AuthType.text : AuthType → String
  | presignedV2 | presigned => "REST-QUERY-STRING"
  | signedV2 | signed | streamingSigned => "REST-HEADER"
  | postPolicy => "POST"
  | _ => ""

def serverValues (env : ServerEnv) (r : HttpRequest) (lc username : String) (claims : Claims) : Values
  | "CurrentTime" => some [env.formatTime env.now]
  | "EpochTime" => some [toString (env.now / 1000000000)]
  | "SecureTransport" => some [toString r.tls]
  | "SourceIp" => some [getSourceIP env r]
  | "UserAgent" => some [r.header.get "User-Agent"]
  | "Referer" => some [r.header.get "Referer"]
  | "principaltype" => some [principalType env username claims]
  | "userid" => some [username]
  | "username" => some [username]
  | "versionid" => some [selectedVersion env r]
  | "signatureversion" => some [r.authType.signatureVersion]
  | "authType" => some [r.authType.text]
  | "LocationConstraint" => if lc ≠ "" then some [lc] else none
  | _ => none

def objectLockHeaders : List String :=
  ["X-Amz-Object-Lock-Mode", "X-Amz-Object-Lock-Legal-Hold", "X-Amz-Object-Lock-Retain-Until-Date"]

/-- The first loop over the headers and over the query parameters: the object lock values go under
their name without `X-Amz-`. -/
def moveObjectLock (args : Values) (m : String → List String) : Values :=
  objectLockHeaders.foldl (fun args objLock =>
    if (m objLock).isEmpty then args
    else Function.update args (trimPrefix objLock "X-Amz-") (some (m objLock))) args

/-- What a key holds after some values have been appended to it. -/
def appendValues (existing : Option (List String)) (values : List String) : Option (List String) :=
  if values.isEmpty then existing else some (existing.getD [] ++ values)

/-- The two loops over the headers and over the query parameters. -/
def addRequestValues (args : Values) (m : String → List String) : Values := fun key =>
  if objectLockHeaders.contains key || equalFold key "versionid" then moveObjectLock args m key
  else appendValues (moveObjectLock args m key) (m key)

/-- A claim that is stored, with its key. -/
def claimEntry : String × Option String → Option (String × String)
  | (k, v) =>
    if equalFold k "versionid" then none
    else v.map fun text => (if k = "ldapUser" then "user" else k, text)

/-- `args[k] = []string{v}` for a list of pairs. -/
def assignAll (args : Values) (entries : List (String × String)) : Values :=
  entries.foldl (fun args e => Function.update args e.1 (some [e.2])) args

/-- A key of the dynamic tag conditions, in any letter case. -/
def isTagKey (key : String) : Bool :=
  hasLowerPrefix key "existingobjecttag/" || hasLowerPrefix key "requestobjecttag/"

def addTags (env : ServerEnv) (pre rawTags : String) (args : Values) : Values :=
  assignAll args ((env.parseObjectTags rawTags).map fun tag => (pre ++ tag.1, tag.2))

def getConditionValues (env : ServerEnv) (r : HttpRequest) (lc username : String) (claims : Claims) : Values :=
  let args := serverValues env r lc username claims
  let args := addRequestValues args r.header
  let args := addRequestValues args r.query
  let args := assignAll args (claims.filterMap claimEntry)
  let args : Values := fun key => if isTagKey key then none else args key
  let args := match r.objectTags with
    | some objectTags => addTags env "ExistingObjectTag/" objectTags args
    | none => args
  addTags env "RequestObjectTag/" (r.requestObjectTags.getD (r.header.get "X-Amz-Tagging")) args

/-! ## The values under one key -/

/-- The text that a list of assignments leaves under a key: the last one. -/
def assigned (entries : List (String × String)) (key : String) : Option String :=
  (entries.reverse.find? fun e => e.1 == key).map (·.2)

theorem assignAll_apply (args : Values) (entries : List (String × String)) (key : String) :
    assignAll args entries key = ((assigned entries key).map ([·])).or (args key) := by
  induction entries generalizing args with
  | nil => rfl
  | cons e entries ih =>
    have hstep : assignAll args (e :: entries) = assignAll (Function.update args e.1 (some [e.2])) entries := rfl
    rw [hstep, ih]
    unfold assigned
    rw [reverse_cons, List.find?_append]
    cases entries.reverse.find? fun e => e.1 == key with
    | some e' => rfl
    | none =>
      by_cases he : e.1 = key
      · simp [← he]
      · simp [he, Function.update_of_ne (Ne.symm he)]

variable {key : String} {entries : List (String × String)}

theorem assigned_eq_none (h : ∀ e ∈ entries, e.1 ≠ key) :
    assigned entries key = none := by
  rw [assigned, List.find?_eq_none.mpr, Option.map_none]
  intro e he
  simpa using h e (mem_reverse.mp he)

/-- When no key is assigned twice, the text under a key is the one paired with it. -/
theorem assigned_eq_some_iff (h : (entries.map Prod.fst).Nodup)
    {v : String} : assigned entries key = some v ↔ (key, v) ∈ entries := by
  constructor
  · intro hv
    obtain ⟨e, he, rfl⟩ := Option.map_eq_some_iff.mp hv
    have hkey : e.1 = key := by simpa using List.find?_some he
    exact hkey ▸ mem_reverse.mp (mem_of_find?_eq_some he)
  · intro hmem
    cases hf : entries.reverse.find? fun e => e.1 == key with
    | none =>
      have hne := List.find?_eq_none.mp hf (key, v) (mem_reverse.mpr hmem)
      exact absurd (beq_self_eq_true key) hne
    | some e =>
      have hkey : e.1 = key := by simpa using List.find?_some hf
      have he : e ∈ entries := mem_reverse.mp (mem_of_find?_eq_some hf)
      rw [assigned, hf, inj_on_of_nodup_map h he hmem hkey, Option.map_some]

theorem assigned_perm {l₁ l₂ : List (String × String)} (hp : l₁.Perm l₂)
    (h : (l₁.map Prod.fst).Nodup) (key : String) : assigned l₁ key = assigned l₂ key := by
  have h₂ : (l₂.map Prod.fst).Nodup := (hp.map Prod.fst).nodup_iff.mp h
  refine Option.ext fun v => ?_
  rw [assigned_eq_some_iff h, assigned_eq_some_iff h₂, hp.mem_iff]

/-- A key that none of the special cases concerns. -/
def plainKey (key : String) : Bool :=
  !isTagKey key && !equalFold key "versionid" && !objectLockHeaders.contains key &&
    !(objectLockHeaders.map (trimPrefix · "X-Amz-")).contains key

variable {args : Values} {m : String → List String}

theorem moveObjectLock_of_notMem
    (h : key ∉ objectLockHeaders.map (trimPrefix · "X-Amz-")) : moveObjectLock args m key = args key := by
  unfold moveObjectLock
  generalize objectLockHeaders = names at h ⊢
  induction names generalizing args with
  | nil => rfl
  | cons objLock names ih =>
    obtain ⟨hne, hrest⟩ := not_or.mp (mt mem_cons.mpr h)
    rw [foldl_cons, ih hrest]
    split
    · rfl
    · exact Function.update_of_ne hne _ _

theorem addRequestValues_plain (h : plainKey key = true) :
    addRequestValues args m key = appendValues (args key) (m key) := by
  simp only [plainKey, Bool.and_eq_true, Bool.not_eq_true'] at h
  obtain ⟨⟨⟨-, hvid⟩, hlock⟩, hmoved⟩ := h
  have hmem : key ∉ objectLockHeaders.map (trimPrefix · "X-Amz-") := by
    simpa using hmoved
  rw [addRequestValues, hlock, hvid, Bool.or_self, if_neg Bool.false_ne_true, moveObjectLock_of_notMem hmem]

variable {pre : String}

theorem addTags_of_not_isTagKey {env : ServerEnv} {rawTags : String} (hpre : ∀ k, isTagKey (pre ++ k) = true)
    (h : isTagKey key = false) : addTags env pre rawTags args key = args key := by
  have hnone : assigned ((env.parseObjectTags rawTags).map fun tag => (pre ++ tag.1, tag.2)) key = none := by
    refine assigned_eq_none fun e he => ?_
    obtain ⟨tag, -, rfl⟩ := mem_map.mp he
    rintro rfl
    rw [hpre] at h
    cases h
  rw [addTags, assignAll_apply, hnone, Option.map_none, Option.none_or]

theorem hasLowerPrefix_append {low : String} (h : pre.toList.map lowerAscii = low.toList)
    (k : String) : hasLowerPrefix (pre ++ k) low = true := by
  rw [hasLowerPrefix, String.toList_append, map_append, h]
  exact List.isPrefixOf_iff_prefix.mpr (prefix_append _ _)

theorem isTagKey_existing (k : String) : isTagKey ("ExistingObjectTag/" ++ k) = true := by
  rw [isTagKey, hasLowerPrefix_append (by decide), Bool.true_or]

theorem isTagKey_request (k : String) : isTagKey ("RequestObjectTag/" ++ k) = true := by
  have hpre : hasLowerPrefix ("RequestObjectTag/" ++ k) "requestobjecttag/" = true :=
    hasLowerPrefix_append (by decide) k
  rw [isTagKey, hpre, Bool.or_true]

/-- What is under a plain key: the claim of that name, or else the server's value followed by the
header and the query parameters of that name. -/
theorem getConditionValues_plain (env : ServerEnv) (r : HttpRequest) (lc username : String) (claims : Claims)
    (h : plainKey key = true) :
    getConditionValues env r lc username claims key = ((assigned (claims.filterMap claimEntry) key).map ([·])).or
        (appendValues (appendValues (serverValues env r lc username claims key) (r.header key))
          (r.query key)) := by
  have htag : isTagKey key = false := by
    simp only [plainKey, Bool.and_eq_true, Bool.not_eq_true'] at h
    exact h.1.1.1
  unfold getConditionValues
  rw [addTags_of_not_isTagKey isTagKey_request htag]
  cases r.objectTags with
  | some objectTags =>
    simp only [addTags_of_not_isTagKey isTagKey_existing htag, htag, Bool.false_eq_true, if_false,
      assignAll_apply, addRequestValues_plain h]
  | none =>
    simp only [htag, Bool.false_eq_true, if_false, assignAll_apply, addRequestValues_plain h]

end Otterio
