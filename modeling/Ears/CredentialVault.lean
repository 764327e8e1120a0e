/-
# Credential tokens (`internal/pkg/appsecret/config_vault.go`)

A vault of a tenant reads credentials from a service that wants a bearer token.  The token
comes from a token endpoint, in answer to a request with the client id and secret of the
tenant, and is kept until it expires.

The token is kept in one variable for the vaults of all tenants, so the vault of one tenant
sends the token of another.  It is unmarshalled in place, field by field, also when the answer
turns out not to decode.  `rightful_of_run` says when the tokens that are sent are the
tenants' own and not expired: as long as a vault finds a token in the cache only if it was
requested for its tenant, the answers of the endpoint have a token and a lifetime, and the
token is sent within it.
-/
import Ears.GoLib
import Ears.Json
import Ears.Runs
import Ears.Tenant

open GoLib

namespace AppSecret

/-! ## Decoding the answer of the token endpoint -/

/-- `SatToken`. -/
structure SatToken where
  accessToken : String := ""
  expiresIn : Int64 := 0
  scope : String := ""
  tokenType : String := ""
  expiresAt : Int64 := 0
  deriving DecidableEq, Repr

/-- The fields that an answer sets. -/
structure Patch where
  accessToken : Option String := none
  expiresIn : Option Int64 := none
  scope : Option String := none
  tokenType : Option String := none
  expiresAt : Option Int64 := none
  deriving DecidableEq, Repr

/-- Write the fields that are set. -/
def Patch.apply (p : Patch) (t : SatToken) : SatToken where
  accessToken := p.accessToken.getD t.accessToken
  expiresIn := p.expiresIn.getD t.expiresIn
  scope := p.scope.getD t.scope
  tokenType := p.tokenType.getD t.tokenType
  expiresAt := p.expiresAt.getD t.expiresAt

/-- Keys match field names up to case; `ſ` and the Kelvin sign count as `s` and `k`. -/
def foldChar (c : Char) : Char :=
  if c.toNat = 0x17f then 's' else if c.toNat = 0x212a then 'k' else c.toLower

/-- The field that a key names. -/
def foldKey (key : String) : String := String.ofList (key.toList.map foldChar)

/-- A value for a string field: the new value, if any, and whether it has the wrong type.  `null`
leaves the field alone. -/
def stringField : Json → Option String × Bool
  | .str s => (some s, true)
  | .null => (none, true)
  | _ => (none, false)

/-- A value for an integer field: only integers in range are accepted. -/
def intField : Json → Option Int64 × Bool
  | .num text =>
      match atoi text.toList with
      | (n, none) => (some (Int64.ofInt n), true)
      | (_, some _) => (none, false)
  | .null => (none, true)
  | _ => (none, false)

/-- One member of an object.  After a value of the wrong type the decoding goes on. -/
def decodeField (r : Patch × Bool) (field : String × Json) : Patch × Bool :=
  match foldKey field.1 with
  | "access_token" =>
      let v := stringField field.2
      ({ r.1 with accessToken := v.1.or r.1.accessToken }, r.2 && v.2)
  | "expires_in" =>
      let v := intField field.2
      ({ r.1 with expiresIn := v.1.or r.1.expiresIn }, r.2 && v.2)
  | "scope" =>
      let v := stringField field.2
      ({ r.1 with scope := v.1.or r.1.scope }, r.2 && v.2)
  | "token_type" =>
      let v := stringField field.2
      ({ r.1 with tokenType := v.1.or r.1.tokenType }, r.2 && v.2)
  | "timestamp" =>
      let v := intField field.2
      ({ r.1 with expiresAt := v.1.or r.1.expiresAt }, r.2 && v.2)
  | _ => r

/-- What `json.Unmarshal` sets in a `SatToken`, and whether it succeeds; a body without a value is
no JSON. -/
def decode : Option Json → Patch × Bool
  | some (.obj fields) => fields.foldl decodeField ({}, true)
  | some .null => ({}, true)
  | _ => ({}, false)

/-! ## Calls -/

/-- The fields of a tenant's configuration that a vault reads. -/
structure TenantConfig where
  clientId : String := ""
  clientIds : List String := []
  clientSecret : String := ""
  deriving DecidableEq, Repr

/-- The client id and secret of a tenant. -/
def TenantConfig.credentials (c : TenantConfig) : Except String (String × String) :=
  let clientId := if c.clientId ≠ "" then c.clientId else c.clientIds.headD ""
  if clientId = "" then .error "tenant has no client IDs"
  else if c.clientSecret = "" then .error "tenant has no client secret"
  else .ok (clientId, c.clientSecret)

/-- The configurations of the tenants. -/
abbrev TenantStore := Tenant.Id → Except String TenantConfig

/-- An answer of the token endpoint: the request it answers, the tenants' configurations when
the request was made, when it came, and what it sets. -/
structure Answer where
  clientId : String
  clientSecret : String
  store : TenantStore
  answered : Int64
  patch : Patch

/-- A request for a credential. -/
structure CredentialRequest where
  url : String
  authorization : String
  partnerId : String

/-- A request that was sent with a bearer token, by a vault of the tenant. -/
structure Use where
  tid : Tenant.Id
  authorization : String
  sent : Int64

/-- A call of `getCredential`: the readings of the clock when it looks at the token, when an
answer has come and when the credential is asked for, the URLs, the errors of
`http.NewRequest`, and the answer of the endpoint. -/
structure Call where
  tid : Tenant.Id
  key : String
  checked : Int64
  answered : Int64
  sent : Int64
  satUrl : String
  satRequest : Option String := none
  answer : Except String (Option Json)
  credentialUrl : String
  credentialRequest : Option String := none

/-- The start of `getSatBearerToken`: a token that has expired is dropped. -/
def dropExpired (satToken : SatToken) (now : Int64) : SatToken :=
  if now ≥ satToken.expiresAt then {} else satToken

/-- The rest of `getSatBearerToken`, when there is no token: the variable `satToken` afterwards,
the answer of the endpoint, and the token. -/
def requestToken (satToken : SatToken) (store : TenantStore) (c : Call) :
    SatToken × Option Answer × Except String String :=
  if c.satUrl = "" then (satToken, none, .error "missing SAT URL")
  else
    match c.satRequest with
    | some err => (satToken, none, .error err)
    | none =>
    match store c.tid with
    | .error err => (satToken, none, .error err)
    | .ok tenantConfig =>
    match tenantConfig.credentials with
    | .error err => (satToken, none, .error err)
    | .ok (clientId, clientSecret) =>
    match c.answer with
    | .error err => (satToken, none, .error err)
    | .ok body =>
        let r := decode body
        let answer : Answer := ⟨clientId, clientSecret, store, c.answered, r.1⟩
        let satToken := r.1.apply satToken
        if r.2 then
          let satToken := { satToken with expiresAt := c.answered + satToken.expiresIn }
          (satToken, some answer, .ok (satToken.tokenType ++ " " ++ satToken.accessToken))
        else (satToken, some answer, .error "cannot unmarshal")

/-- `getSatBearerToken`. -/
def getSatBearerToken (satToken : SatToken) (store : TenantStore) (c : Call) :
    SatToken × Option Answer × Except String String :=
  let satToken := dropExpired satToken c.checked
  if satToken.accessToken ≠ "" then
    (satToken, none, .ok (satToken.tokenType ++ " " ++ satToken.accessToken))
  else requestToken satToken store c

/-- `getCredential`, up to the request. -/
def getCredential (satToken : SatToken) (store : TenantStore) (c : Call) :
    SatToken × Option Answer × Except String CredentialRequest :=
  let r := getSatBearerToken satToken store c
  match r.2.2 with
  | .error err => (r.1, r.2.1, .error err)
  | .ok token =>
      if c.credentialUrl = "" then (r.1, r.2.1, .error "missing credential URL")
      else
        match c.credentialRequest with
        | some err => (r.1, r.2.1, .error err)
        | none =>
            let url := (c.credentialUrl.replace "\x7b\x7bapp\x7d\x7d" c.tid.appId).replace
              "\x7b\x7bkey\x7d\x7d" c.key
            (r.1, r.2.1, .ok ⟨url, token, c.tid.orgId⟩)

/-! ## Runs -/

/-- The variable `satToken`, the configurations of the tenants, the answers of the token endpoint
and the requests for credentials so far. -/
structure Vaults where
  satToken : SatToken
  store : TenantStore
  answers : List Answer
  uses : List Use

/-- A change of the tenants' configurations, or a call of `getCredential`. -/
inductive Action where
  | setStore (store : TenantStore)
  | getCredential (c : Call)

namespace Vaults

/-- No token yet. -/
def start (store : TenantStore) : Vaults := ⟨{}, store, [], []⟩

/-- One step. -/
def step (s : Vaults) : Action → Option Vaults
  | .setStore store => some { s with store := store }
  | .getCredential c =>
      let r := AppSecret.getCredential s.satToken s.store c
      some { s with
        satToken := r.1
        answers := s.answers ++ r.2.1.toList
        uses := s.uses ++
          match r.2.2 with
          | .ok req => [⟨c.tid, req.authorization, c.sent⟩]
          | .error _ => [] }

end Vaults

/-! ## What is asked for -/

/-- The request that is answered carried the client id and secret of the tenant. -/
def Answer.Carries (a : Answer) (tid : Tenant.Id) : Prop :=
  ∃ config, a.store tid = .ok config ∧ config.credentials = .ok (a.clientId, a.clientSecret)

/-- The token that an answer issues. -/
def Answer.accessToken (a : Answer) : String := a.patch.accessToken.getD ""

/-- The lifetime that an answer gives its token. -/
def Answer.expiresIn (a : Answer) : Int64 := a.patch.expiresIn.getD 0

/-- The token was issued for the tenant that sends it, and has not expired. -/
def Rightful (answers : List Answer) (u : Use) : Prop :=
  ∃ a ∈ answers, a.Carries u.tid ∧ a.accessToken ≠ "" ∧
    (∃ tokenType, u.authorization = tokenType ++ " " ++ a.accessToken) ∧
    u.sent.toInt < a.answered.toInt + a.expiresIn.toInt

/-- The call finds a token that it takes to be valid. -/
def Cached (satToken : SatToken) (c : Call) : Prop :=
  c.checked < satToken.expiresAt ∧ satToken.accessToken ≠ ""

/-- A call with a token goes on to ask for the credential. -/
def Call.Sends (c : Call) : Prop := c.credentialUrl ≠ "" ∧ c.credentialRequest = none

namespace Vaults

/-- A call finds a token only if the last answer was to a request for its tenant, and sends it
before it expires; an answer has a token and a lifetime within which the token is sent, or it does
not decode and has no token. -/
def Proper (s : Vaults) : Action → Prop
  | .setStore _ => True
  | .getCredential c =>
      (Cached s.satToken c → c.Sends →
        c.sent < s.satToken.expiresAt ∧ ∀ a, s.answers.getLast? = some a → a.Carries c.tid) ∧
      (¬ Cached s.satToken c → ∀ body, c.answer = .ok body →
        if (decode body).2 then
          (decode body).1.accessToken.getD "" ≠ "" ∧ 0 < ((decode body).1.expiresIn.getD 0).toInt ∧
            (c.Sends → c.sent.toInt <
              c.answered.toInt + ((decode body).1.expiresIn.getD 0).toInt)
        else (decode body).1.accessToken.getD "" = "")

end Vaults

/-! ## What one call does -/

/-- Without a token a call fails, gets an answer and sends its token, or gets an answer that does
not decode. -/
theorem requestToken_cases (satToken : SatToken) (store : TenantStore) (c : Call) :
    (∃ err, requestToken satToken store c = (satToken, none, .error err)) ∨
    ∃ body config clientId clientSecret, c.answer = .ok body ∧ store c.tid = .ok config ∧
      config.credentials = .ok (clientId, clientSecret) ∧
      requestToken satToken store c =
        if (decode body).2 then
          let new := (decode body).1.apply satToken
          ({ new with expiresAt := c.answered + new.expiresIn },
            some ⟨clientId, clientSecret, store, c.answered, (decode body).1⟩,
            .ok (new.tokenType ++ " " ++ new.accessToken))
        else
          ((decode body).1.apply satToken,
            some ⟨clientId, clientSecret, store, c.answered, (decode body).1⟩,
            .error "cannot unmarshal") := by
  unfold requestToken
  split
  · exact Or.inl ⟨_, rfl⟩
  cases c.satRequest with
  | some err => exact Or.inl ⟨_, rfl⟩
  | none =>
  cases hstore : store c.tid with
  | error err => exact Or.inl ⟨_, rfl⟩
  | ok config =>
  cases hcred : config.credentials with
  | error err =>
      dsimp only
      rw [hcred]
      exact Or.inl ⟨_, rfl⟩
  | ok cred =>
  dsimp only
  rw [hcred]
  cases hanswer : c.answer with
  | error err => exact Or.inl ⟨_, rfl⟩
  | ok body => exact Or.inr ⟨body, config, cred.1, cred.2, rfl, rfl, hcred, rfl⟩

/-- A call finds a token or asks for one. -/
theorem getSatBearerToken_eq (satToken : SatToken) (store : TenantStore) (c : Call) :
    (Cached satToken c ∧ getSatBearerToken satToken store c =
      (satToken, none, .ok (satToken.tokenType ++ " " ++ satToken.accessToken))) ∨
    (¬ Cached satToken c ∧ (dropExpired satToken c.checked).accessToken = "" ∧
      getSatBearerToken satToken store c =
        requestToken (dropExpired satToken c.checked) store c) := by
  by_cases hcached : Cached satToken c
  · have hdrop : dropExpired satToken c.checked = satToken :=
      if_neg (Int64.not_le.mpr hcached.1)
    refine Or.inl ⟨hcached, ?_⟩
    unfold getSatBearerToken
    rw [hdrop]
    exact if_pos hcached.2
  · have hempty : (dropExpired satToken c.checked).accessToken = "" := by
      unfold dropExpired
      split
      · rfl
      · rename_i hvalid
        by_contra hne
        exact hcached ⟨Int64.not_le.mp hvalid, hne⟩
    refine Or.inr ⟨hcached, hempty, ?_⟩
    unfold getSatBearerToken
    exact if_neg (not_not.mpr hempty)

/-- A token that has not reached the end of its lifetime as the code computes it has not reached
it. -/
theorem toInt_lt_add {sent answered lifetime : Int64} (hpos : 0 < lifetime.toInt)
    (h : sent < answered + lifetime) : sent.toInt < answered.toInt + lifetime.toInt := by
  have hsent := sent.toInt_lt
  have hlow := answered.le_toInt
  have hhigh := answered.toInt_lt
  have hlife := lifetime.toInt_lt
  rw [Int64.lt_iff_toInt_lt, Int64.toInt_add] at h
  have hle : (answered.toInt + lifetime.toInt).bmod (2 ^ 64) ≤ answered.toInt + lifetime.toInt := by
    rw [Int.bmod_def]
    omega
  omega

/-! ## Whole runs -/

theorem Rightful.append {answers : List Answer} {u : Use} (h : Rightful answers u)
    (more : List Answer) : Rightful (answers ++ more) u := by
  obtain ⟨a, ha, hrest⟩ := h
  exact ⟨a, List.mem_append_left _ ha, hrest⟩

namespace Vaults

variable {s s' : Vaults}

/-- The token in the cache is that of the last answer and expires when that says, and what has
been sent was rightful. -/
structure Inv (s : Vaults) : Prop where
  token : s.satToken.accessToken ≠ "" → ∃ a, s.answers.getLast? = some a ∧
    a.accessToken = s.satToken.accessToken ∧ 0 < a.expiresIn.toInt ∧
    s.satToken.expiresAt = a.answered + a.expiresIn
  uses : ∀ u ∈ s.uses, Rightful s.answers u

theorem inv_start (store : TenantStore) : Inv (start store) where
  token := fun h => absurd rfl h
  uses := fun u hu => by simp [start] at hu

/-- What a call adds to the uses. -/
theorem uses_getCredential {c : Call} {u : Use}
    (hu : u ∈ match (AppSecret.getCredential s.satToken s.store c).2.2 with
      | .ok req => [(⟨c.tid, req.authorization, c.sent⟩ : Use)]
      | .error _ => []) :
    c.Sends ∧ ∃ token, (getSatBearerToken s.satToken s.store c).2.2 = .ok token ∧
      u = ⟨c.tid, token, c.sent⟩ := by
  unfold AppSecret.getCredential at hu
  cases htoken : (getSatBearerToken s.satToken s.store c).2.2 with
  | error err => simp [htoken] at hu
  | ok token =>
      simp only [htoken] at hu
      by_cases hurl : c.credentialUrl = ""
      · simp [hurl] at hu
      · cases hreq : c.credentialRequest with
        | some err => simp [hurl, hreq] at hu
        | none =>
            simp only [hurl, hreq, if_false, List.mem_singleton] at hu
            exact ⟨⟨hurl, hreq⟩, token, rfl, hu⟩

theorem getCredential_fst (satToken : SatToken) (store : TenantStore) (c : Call) :
    (AppSecret.getCredential satToken store c).1 = (getSatBearerToken satToken store c).1 ∧
      (AppSecret.getCredential satToken store c).2.1 =
        (getSatBearerToken satToken store c).2.1 := by
  unfold AppSecret.getCredential
  dsimp only
  split
  · exact ⟨rfl, rfl⟩
  · split
    · exact ⟨rfl, rfl⟩
    · split <;> exact ⟨rfl, rfl⟩

/-- One call. -/
theorem inv_getCredential {c : Call} (h : Inv s) (hproper : s.Proper (.getCredential c))
    (hs : s.step (.getCredential c) = some s') : Inv s' := by
  obtain ⟨htoken, hanswer⟩ := getCredential_fst s.satToken s.store c
  obtain rfl := Option.some.inj hs
  -- the old uses stay rightful, so only the new one is left
  have hsplit : (∀ u, (c.Sends ∧ ∃ token,
        (getSatBearerToken s.satToken s.store c).2.2 = .ok token ∧ u = ⟨c.tid, token, c.sent⟩) →
      Rightful (s.answers ++ (getSatBearerToken s.satToken s.store c).2.1.toList) u) →
      ∀ u ∈ s.uses ++ (match (AppSecret.getCredential s.satToken s.store c).2.2 with
        | .ok req => [(⟨c.tid, req.authorization, c.sent⟩ : Use)]
        | .error _ => []),
        Rightful (s.answers ++ (AppSecret.getCredential s.satToken s.store c).2.1.toList) u := by
    intro hnew u hu
    rw [hanswer]
    rcases List.mem_append.mp hu with hu | hu
    · exact Rightful.append (h.uses u hu) _
    · exact hnew u (uses_getCredential hu)
  rcases getSatBearerToken_eq s.satToken s.store c with ⟨hcached, heq⟩ | ⟨hnot, hempty, heq⟩
  · -- the token is in the cache
    obtain ⟨a, hlast, hacc, hpos, hat⟩ := h.token hcached.2
    refine ⟨?_, hsplit ?_⟩
    · dsimp only
      rw [htoken, hanswer, heq, Option.toList_none, List.append_nil]
      exact h.token
    · rintro u ⟨hsends, token, htok, rfl⟩
      obtain ⟨hsent, hcarries⟩ := hproper.1 hcached hsends
      rw [heq] at htok ⊢
      obtain rfl := Except.ok.inj htok
      rw [hat] at hsent
      refine ⟨a, List.mem_append_left _ (List.mem_of_getLast? hlast), hcarries a hlast, ?_, ?_, ?_⟩
      · rw [hacc]
        exact hcached.2
      · exact ⟨s.satToken.tokenType, by rw [hacc]⟩
      · exact toInt_lt_add hpos hsent
  · rcases requestToken_cases (dropExpired s.satToken c.checked) s.store c with
      ⟨err, hreq⟩ | ⟨body, config, clientId, clientSecret, hbody, hconfig, hcred, hreq⟩
    · -- no answer: there is no token, neither in the cache nor for this call
      refine ⟨?_, hsplit ?_⟩
      · dsimp only
        rw [htoken, heq, hreq]
        exact fun hne => absurd hempty hne
      · rintro u ⟨-, token, htok, -⟩
        rw [heq, hreq] at htok
        simp at htok
    · -- the provider has answered
      have hgood := hproper.2 hnot body hbody
      -- the old token is empty, so a token can only be that of the answer
      have hacc : ((decode body).1.apply (dropExpired s.satToken c.checked)).accessToken =
          (decode body).1.accessToken.getD "" := by
        show (decode body).1.accessToken.getD (dropExpired s.satToken c.checked).accessToken = _
        rw [hempty]
      cases hok : (decode body).2 with
      | false =>
          rw [hok] at hgood hreq
          refine ⟨?_, hsplit ?_⟩
          · dsimp only
            rw [htoken, heq, hreq]
            intro hne
            exact absurd (hacc.trans hgood) hne
          · rintro u ⟨-, token, htok, -⟩
            rw [heq, hreq] at htok
            simp at htok
      | true =>
          rw [hok] at hgood hreq
          obtain ⟨hne, hpos, hsent⟩ := hgood
          have hlife : ((decode body).1.apply (dropExpired s.satToken c.checked)).expiresIn =
              (decode body).1.expiresIn.getD 0 := by
            show (decode body).1.expiresIn.getD _ = _
            cases hin : (decode body).1.expiresIn with
            | none =>
                rw [hin] at hpos
                exact absurd hpos (by decide)
            | some n => rfl
          refine ⟨?_, hsplit ?_⟩
          · dsimp only
            rw [htoken, hanswer, heq, hreq]
            intro _
            refine ⟨_, List.getLast?_concat .., hacc.symm, hpos, ?_⟩
            show c.answered + _ = c.answered + _
            rw [hlife]
            rfl
          · rintro u ⟨hsends, token, htok, rfl⟩
            rw [heq, hreq] at htok ⊢
            obtain rfl := Except.ok.inj htok
            refine ⟨_, List.mem_append_right _ (List.mem_singleton_self _), ⟨config, hconfig, hcred⟩,
              hne, ⟨_, by rw [hacc]; rfl⟩, hsent hsends⟩

theorem inv_step {a : Action} (h : Inv s) (hproper : s.Proper a) (hs : s.step a = some s') :
    Inv s' := by
  cases a with
  | setStore store =>
      obtain rfl := Option.some.inj hs
      exact ⟨h.token, h.uses⟩
  | getCredential c => exact inv_getCredential h hproper hs

/-- **Tokens stay with their tenants.**  In every run of proper calls, every token that was sent
was issued in answer to a request with the client id and secret of the tenant that sends it, and
had not expired. -/
theorem rightful_of_run {store : TenantStore} {as : List Action}
    (hproper : Runs.Along step Proper (start store) as)
    (hrun : Runs.run step (start store) as = some s) : ∀ u ∈ s.uses, Rightful s.answers u := by
  have h : Inv s := Runs.run_induction_along (fun _ _ _ h hg hs => inv_step h hg hs)
    (inv_start store) hproper hrun
  exact h.uses

/-- Two tenants with credentials of their own. -/
def sampleStore : TenantStore := fun tid =>
  if tid = ⟨"acme", "tv"⟩ then .ok { clientId := "a", clientSecret := "sa" }
  else .ok { clientId := "b", clientSecret := "sb" }

/-- An answer with the given token and lifetime. -/
def sampleAnswer (token lifetime : String) : Option Json :=
  some (.obj [("access_token", .str token), ("expires_in", .num lifetime),
    ("token_type", .str "Bearer")])

/-- A call at the given time; the endpoint would answer with the given token and lifetime. -/
def sampleCall (tid : Tenant.Id) (now : Int64) (token lifetime : String) : Call where
  tid := tid
  key := "k"
  checked := now
  answered := now
  sent := now
  satUrl := "sat"
  answer := .ok (sampleAnswer token lifetime)
  credentialUrl := "credentials"

/-- A vault asks for a token, and finds it in the cache later; when it has expired, the vault of
another tenant asks for one and finds it in the cache later. -/
def sampleActions : List Action :=
  [.getCredential (sampleCall ⟨"acme", "tv"⟩ 1000 "x" "60"),
    .getCredential (sampleCall ⟨"acme", "tv"⟩ 1030 "y" "60"),
    .getCredential (sampleCall ⟨"other", "tv"⟩ 1100 "z" "60"),
    .getCredential (sampleCall ⟨"other", "tv"⟩ 1120 "y" "60")]

theorem proper_sampleActions : Runs.Along step Proper (start sampleStore) sampleActions := by
  refine .cons ⟨fun hcached => absurd rfl hcached.2, ?_⟩ rfl <| .cons ⟨?_, ?_⟩ rfl <|
    .cons ⟨?_, ?_⟩ rfl <| .cons ⟨?_, ?_⟩ rfl trivial
  · rintro - body hbody
    obtain rfl := Except.ok.inj hbody
    exact ⟨by decide +kernel, by decide +kernel, fun _ => by decide +kernel⟩
  · rintro - -
    refine ⟨by decide +kernel, fun a ha => ?_⟩
    obtain rfl := Option.some.inj ha
    exact ⟨{ clientId := "a", clientSecret := "sa" }, by decide +kernel, by decide +kernel⟩
  · rintro hnot
    exact absurd ⟨by decide +kernel, by decide +kernel⟩ hnot
  · -- the token of the first tenant has expired
    rintro hcached
    exact absurd hcached.1 (by decide +kernel)
  · rintro - body hbody
    obtain rfl := Except.ok.inj hbody
    exact ⟨by decide +kernel, by decide +kernel, fun _ => by decide +kernel⟩
  · rintro - -
    refine ⟨by decide +kernel, fun a ha => ?_⟩
    obtain rfl := Option.some.inj ha
    exact ⟨{ clientId := "b", clientSecret := "sb" }, by decide +kernel, by decide +kernel⟩
  · rintro hnot
    exact absurd ⟨by decide +kernel, by decide +kernel⟩ hnot

/-- Each tenant sends its own token. -/
theorem rightful_of_run_sample : ∃ s : Vaults,
    Runs.run step (start sampleStore) sampleActions = some s ∧
      s.uses.map (fun u => (u.tid.orgId, u.authorization)) =
        [("acme", "Bearer x"), ("acme", "Bearer x"), ("other", "Bearer z"),
          ("other", "Bearer z")] ∧
      ∀ u ∈ s.uses, Rightful s.answers u :=
  ⟨_, rfl, by decide +kernel, rightful_of_run proper_sampleActions rfl⟩

/-- The vault of one tenant sends the token of another; and a token without a lifetime is sent. -/
theorem not_rightful :
    (∃ s : Vaults, Runs.run step (start sampleStore)
        [.getCredential (sampleCall ⟨"acme", "tv"⟩ 1000 "x" "60"),
          .getCredential (sampleCall ⟨"other", "tv"⟩ 1030 "y" "60")] = some s ∧
      ∃ u ∈ s.uses, ¬ Rightful s.answers u) ∧
    ∃ s : Vaults, Runs.run step (start sampleStore)
        [.getCredential (sampleCall ⟨"acme", "tv"⟩ 1000 "x" "0")] = some s ∧
      ∃ u ∈ s.uses, ¬ Rightful s.answers u := by
  refine ⟨⟨_, rfl, ⟨⟨"other", "tv"⟩, "Bearer x", 1030⟩, ?_, ?_⟩,
    ⟨_, rfl, ⟨⟨"acme", "tv"⟩, "Bearer x", 1000⟩, ?_, ?_⟩⟩
  · exact List.mem_cons_of_mem _ (List.mem_singleton.mpr rfl)
  · rintro ⟨a, ha, ⟨config, hconfig, hcred⟩, -⟩
    obtain rfl := List.mem_singleton.mp ha
    obtain rfl := Except.ok.inj hconfig
    exact absurd hcred (by decide +kernel)
  · exact List.mem_singleton.mpr rfl
  · rintro ⟨a, ha, -, -, -, hsent⟩
    obtain rfl := List.mem_singleton.mp ha
    exact absurd hsent (by decide +kernel)

end Vaults

end AppSecret
