/-
# Authorization by bearer tokens (`pkg/jwt/jwt.go`, `jwtmanagerfx/module.go`)

A token names its subject, its partners and its capabilities.  A client of a tenant is let
through when the tenant lists the subject, the organisation of the tenant is among the partners,
and a capability allows the request: a text `domain:component:api:method`, or the same after one
segment that is ignored, whose scope `api:method` is `*:*`, or `routes:*` on an endpoint for the
routes of the tenant.

`isValid` does not look at what follows the fifth segment, and the regular expressions of
`DefaultJWTVerifier` are not anchored: they match every path that contains `routes`
(`matchString_routes`).  `accepted_iff_authorized` says on which requests this makes a
difference.
-/
import Ears.GoLib
import Ears.Json
import Ears.Tenant

namespace Jwt

/-! ## The verifier -/

/-- `strings.Split(s, sep)` for a separator of one character. -/
def split (s : String) (sep : Char) : List String :=
  (GoLib.split s.toList sep).map String.ofList

/-- `strings.TrimPrefix`. -/
def trimPrefix (s start : String) : String :=
  if GoLib.hasPrefix s start then String.ofList (s.toList.drop start.toList.length) else s

/-- `regexp.MatchString`: a part of the text is matched. -/
def matchString (r : RegularExpression Char) (s : String) : Bool :=
  s.toList.tails.any fun t => t.inits.any r.rmatch

/-- A text that matches itself. -/
def literal (s : String) : RegularExpression Char :=
  s.toList.foldr (fun c r => RegularExpression.char c * r) 1

/-- The characters of `\w`. -/
def wordChars : List Char :=
  "0123456789ABCDEFGHIJKLMNOPQRSTUVWXYZ_abcdefghijklmnopqrstuvwxyz".toList

/-- `[\w]+`. -/
def words : RegularExpression Char :=
  let w := (wordChars.map RegularExpression.char).foldr (· + ·) 0
  w * w.star

/-- `([\w]+/)*routes`. -/
def routesPattern : RegularExpression Char :=
  (words * RegularExpression.char '/').star * literal "routes"

/-- `([\w]+/)*routes/[\w]+`. -/
def routePattern : RegularExpression Char :=
  (words * RegularExpression.char '/').star * literal "routes/" * words

/-- `DefaultJWTVerifier`. -/
def defaultJWTVerifier (path _method scope : String) : Bool :=
  if scope = "*:*" then true
  else if scope = "routes:*" then
    matchString routesPattern path || matchString routePattern path
  else false

/-! ## The consumer -/

/-- An `UnauthorizedError` with its message, or an error of the parser or of the tenant store. -/
inductive AuthError where
  | unauthorized (msg : String)
  | other (msg : String)
  deriving DecidableEq, Repr

/-- The fields of a tenant's configuration that are read here. -/
structure TenantConfig where
  clientIds : List String
  deriving DecidableEq, Repr

/-- `DefaultJWTConsumer`.  `parse` stands for the parser of the tokens, with the keys: it gives
the claims of a valid token. -/
structure DefaultJWTConsumer where
  parse : String → Except AuthError (List (String × Json))
  verifier : String → String → String → Bool
  requireBearerToken : Bool
  domain : String
  component : String
  adminClientIds : List String
  capabilityPrefixes : List String
  tenantStorer : Tenant.Id → Except AuthError TenantConfig

/-- `o.(string)` for the elements of a slice: the others are left out. -/
def strings (elems : List Json) : List String :=
  elems.filterMap fun
    | .str s => some s
    | _ => none

/-- The partners in the claims. -/
def allowedPartners (claims : List (String × Json)) : List String :=
  match claims.lookup "allowedResources" with
  | some (.obj res) =>
      match res.lookup "allowedPartners" with
      | some (.arr os) => strings os
      | _ => []
  | _ => []

namespace DefaultJWTConsumer

variable (sc : DefaultJWTConsumer)

/-- `extractToken`: the partners, the subject and the capabilities. -/
def extractToken (token : String) : Except AuthError (List String × String × List String) :=
  match sc.parse token with
  | .error err => .error err
  | .ok claims =>
      let sub := match claims.lookup "sub" with
        | some (.str sub) => sub
        | _ => ""
      let partners := allowedPartners claims
      if partners = [] then .error (.unauthorized "no allowed partners")
      else
        match claims.lookup "capabilities" with
        | some (.arr os) => .ok (partners, sub, strings os)
        | _ => .error (.unauthorized "missing jwt capabilities")

/-- The segments of a capability, without the configured prefixes. -/
def segments (cap : String) : List String :=
  split (sc.capabilityPrefixes.foldl trimPrefix cap) ':'

/-- `isValid`. -/
def isValid (api method cap : String) : Bool :=
  let ss := sc.segments cap
  if ss.length < 4 then false
  else
    let idx := if ss.length > 4 then 1 else 0
    if sc.domain ≠ ss.getD idx "" then false
    else if sc.component ≠ ss.getD (idx + 1) "" then false
    else sc.verifier api method (ss.getD (idx + 2) "" ++ ":" ++ ss.getD (idx + 3) "")

/-- The part of `VerifyToken` after the token was read. -/
def verifyClaims (api method : String) (tid : Option Tenant.Id) (partners : List String)
    (sub : String) (capabilities : List String) : Except AuthError (List String × String) :=
  if sub = "" then .error (.unauthorized "missing jwt client id")
  else if sub ∈ sc.adminClientIds then .ok (partners, sub)
  else
    match tid with
    | none => .error (.unauthorized "missing tenant id")
    | some tid =>
        match sc.tenantStorer tid with
        | .error err => .error err
        | .ok tenantConfig =>
            if sub ∉ tenantConfig.clientIds then .error (.unauthorized "unauthorized jwt client id")
            else if partners ≠ [] ∧ tid.orgId ∉ partners then
              .error (.unauthorized "unauthorized jwt partner id")
            else if capabilities.any (sc.isValid api method) then .ok (partners, sub)
            else .error (.unauthorized "no matching jwt capabilities")

/-- `VerifyToken`. -/
def verifyToken (token api method : String) (tid : Option Tenant.Id) :
    Except AuthError (List String × String) :=
  if !sc.requireBearerToken then .ok ([], "")
  else if token = "" then .error (.unauthorized "missing token")
  else
    match sc.extractToken token with
    | .error err => .error err
    | .ok (partners, sub, capabilities) =>
        sc.verifyClaims api method tid partners sub capabilities

end DefaultJWTConsumer

/-! ## What a request is to be checked for -/

/-- The endpoints for the routes of a tenant: all routes, one route, and what is done with it. -/
def isRoutesEndpoint (tid : Tenant.Id) (path : String) : Bool :=
  match split path '/' with
  | ["", "ears", "v1", "orgs", orgId, "applications", appId, "routes"] =>
      orgId = tid.orgId && appId = tid.appId
  | ["", "ears", "v1", "orgs", orgId, "applications", appId, "routes", routeId] =>
      orgId = tid.orgId && appId = tid.appId && routeId ≠ ""
  | ["", "ears", "v1", "orgs", orgId, "applications", appId, "routes", routeId, action] =>
      orgId = tid.orgId && appId = tid.appId && routeId ≠ "" &&
        (action = "event" || action = "reload" || action = "toggleEnable")
  | _ => false

/-- The tenant lists the subject, and its organisation is a partner. -/
def DefaultJWTConsumer.Known (sc : DefaultJWTConsumer) (partners : List String) (sub : String)
    (tid : Tenant.Id) : Prop :=
  (∃ tenantConfig, sc.tenantStorer tid = .ok tenantConfig ∧ sub ∈ tenantConfig.clientIds) ∧
    tid.orgId ∈ partners

/-- The two forms of a capability: with the domain, the component, and the scope. -/
def DefaultJWTConsumer.Reads (sc : DefaultJWTConsumer) (cap scope : String) : Prop :=
  ∃ api method, scope = api ++ ":" ++ method ∧
    (sc.segments cap = [sc.domain, sc.component, api, method] ∨
      ∃ ignored, sc.segments cap = [ignored, sc.domain, sc.component, api, method])

/-- A capability that allows a request. -/
def DefaultJWTConsumer.Allows (sc : DefaultJWTConsumer) (path : String) (tid : Tenant.Id)
    (cap : String) : Prop :=
  sc.Reads cap "*:*" ∨ (sc.Reads cap "routes:*" ∧ isRoutesEndpoint tid path = true)

/-- What a client needs that is no admin client. -/
def DefaultJWTConsumer.Authorized (sc : DefaultJWTConsumer) (path : String)
    (tid : Option Tenant.Id) (partners : List String) (sub : String) (capabilities : List String) :
    Prop :=
  ∃ id, tid = some id ∧ sc.Known partners sub id ∧ ∃ cap ∈ capabilities, sc.Allows path id cap

/-- The path contains the text `routes`. -/
def ContainsRoutes (path : String) : Prop := "routes".toList <:+: path.toList

instance (path : String) : Decidable (ContainsRoutes path) :=
  inferInstanceAs (Decidable ("routes".toList <:+: path.toList))

/-- A capability with more segments than the two forms have, which is read like the second. -/
def DefaultJWTConsumer.Overlong (sc : DefaultJWTConsumer) (path cap : String) : Prop :=
  ∃ ignored api method more rest,
    sc.segments cap = ignored :: sc.domain :: sc.component :: api :: method :: more :: rest ∧
    (api ++ ":" ++ method = "*:*" ∨ (api ++ ":" ++ method = "routes:*" ∧ ContainsRoutes path))

/-- A capability for the routes, on a path that contains `routes` but is no endpoint for the
routes of the tenant. -/
def DefaultJWTConsumer.Astray (sc : DefaultJWTConsumer) (path : String) (tid : Tenant.Id)
    (cap : String) : Prop :=
  sc.Reads cap "routes:*" ∧ ContainsRoutes path ∧ isRoutesEndpoint tid path = false

/-! ## The regular expressions match every path that contains `routes` -/

theorem mem_literal {s : String} {x : List Char} : x ∈ (literal s).matches' ↔ x = s.toList := by
  have hgen : ∀ cs x : List Char,
      x ∈ (cs.foldr (fun c r => RegularExpression.char c * r) 1).matches' ↔ x = cs := by
    intro cs
    induction cs with
    | nil => exact fun x => Language.mem_one x
    | cons c cs ih =>
        intro x
        rw [List.foldr_cons, RegularExpression.matches'_mul, Language.mem_mul]
        constructor
        · rintro ⟨a, ha, b, hb, rfl⟩
          rw [(ih b).mp hb, Set.mem_singleton_iff.mp ha]
          rfl
        · rintro rfl
          exact ⟨[c], rfl, cs, (ih cs).mpr rfl, rfl⟩
  exact hgen s.toList x

/-- A part of the text is in the language. -/
theorem matchString_iff {r : RegularExpression Char} {s : String} :
    matchString r s = true ↔ ∃ t, t <:+: s.toList ∧ t ∈ r.matches' := by
  simp only [matchString, List.any_eq_true, List.mem_tails, List.mem_inits,
    RegularExpression.rmatch_iff_matches']
  constructor
  · rintro ⟨t, hsuffix, u, hstarts, hu⟩
    exact ⟨u, hstarts.isInfix.trans hsuffix.isInfix, hu⟩
  · rintro ⟨u, ⟨a, b, hab⟩, hu⟩
    refine ⟨u ++ b, ⟨a, by rw [← hab, List.append_assoc]⟩, u, List.prefix_append u b, hu⟩

/-- The first expression matches exactly the texts that contain `routes`. -/
theorem matchString_routes {s : String} :
    matchString routesPattern s = true ↔ ContainsRoutes s := by
  rw [matchString_iff]
  constructor
  · rintro ⟨t, ht, hmem⟩
    obtain ⟨a, -, b, hb, rfl⟩ := Language.mem_mul.mp hmem
    rw [mem_literal.mp hb] at ht
    exact (List.suffix_append a _).isInfix.trans ht
  · intro h
    refine ⟨_, h, Language.mem_mul.mpr ⟨[], Language.nil_mem_kstar _, _, mem_literal.mpr rfl, rfl⟩⟩

/-- The second expression matches nothing that the first one does not. -/
theorem containsRoutes_of_route {s : String} (h : matchString routePattern s = true) :
    ContainsRoutes s := by
  obtain ⟨t, ht, hmem⟩ := matchString_iff.mp h
  obtain ⟨a, ha, b, -, rfl⟩ := Language.mem_mul.mp hmem
  obtain ⟨c, -, d, hd, rfl⟩ := Language.mem_mul.mp ha
  rw [mem_literal.mp hd] at ht
  refine List.IsInfix.trans ?_ ht
  exact ⟨c, '/' :: b, by simp⟩

/-- What the verifier accepts. -/
theorem defaultJWTVerifier_iff {path method scope : String} :
    defaultJWTVerifier path method scope = true ↔
      scope = "*:*" ∨ (scope = "routes:*" ∧ ContainsRoutes path) := by
  unfold defaultJWTVerifier
  split <;> rename_i hall
  · simp [hall]
  · split <;> rename_i hroutes
    · have hcontains : (matchString routesPattern path || matchString routePattern path) = true ↔
          ContainsRoutes path := by
        rw [Bool.or_eq_true]
        refine ⟨fun h => h.elim matchString_routes.mp containsRoutes_of_route, fun h => ?_⟩
        exact .inl (matchString_routes.mpr h)
      simp [hroutes, hcontains]
    · simp [hall, hroutes]

theorem mem_intersperse_of_mem {x sep : List Char} {xs : List (List Char)} (h : x ∈ xs) :
    x ∈ xs.intersperse sep := by
  induction xs with
  | nil => cases h
  | cons y ys ih =>
      cases ys with
      | nil => exact h
      | cons z zs =>
          rw [List.intersperse_cons_cons]
          rcases List.mem_cons.mp h with rfl | h
          · exact List.mem_cons_self
          · exact List.mem_cons_of_mem _ (List.mem_cons_of_mem _ (ih h))

/-- A text contains the parts it is split into. -/
theorem isInfix_of_mem_split {path part : String} (sep : Char) (h : part ∈ split path sep) :
    part.toList <:+: path.toList := by
  obtain ⟨cs, hcs, rfl⟩ := List.mem_map.mp h
  have hjoin : ([sep] : List Char).intercalate (path.toList.splitOn sep) = path.toList :=
    List.intercalate_splitOn sep
  rw [String.toList_ofList, ← hjoin]
  exact List.infix_of_mem_flatten (mem_intersperse_of_mem hcs)

/-- An endpoint for routes contains `routes`. -/
theorem containsRoutes_of_endpoint {tid : Tenant.Id} {path : String}
    (h : isRoutesEndpoint tid path = true) : ContainsRoutes path := by
  apply isInfix_of_mem_split '/'
  unfold isRoutesEndpoint at h
  split at h <;> rename_i hsplit
  · rw [hsplit]
    simp
  · rw [hsplit]
    simp
  · rw [hsplit]
    simp
  · cases h

/-! ## Capabilities -/

namespace DefaultJWTConsumer

variable {sc : DefaultJWTConsumer} {path method cap : String} {tid : Tenant.Id}

/-- What `isValid` looks at. -/
theorem isValid_iff : sc.isValid path method cap = true ↔
    ∃ api meth, sc.verifier path method (api ++ ":" ++ meth) = true ∧
      (sc.segments cap = [sc.domain, sc.component, api, meth] ∨
        ∃ ignored rest,
          sc.segments cap = ignored :: sc.domain :: sc.component :: api :: meth :: rest) := by
  unfold isValid
  generalize sc.segments cap = ss
  rcases ss with _ | ⟨a, _ | ⟨b, _ | ⟨c, _ | ⟨d, _ | ⟨e, rest⟩⟩⟩⟩⟩
  · simp
  · simp
  · simp
  · simp
  · -- four segments
    constructor
    · intro h
      simp only [List.length_cons, List.length_nil] at h
      by_cases hd : sc.domain = a
      · by_cases hc : sc.component = b
        · refine ⟨c, d, ?_, .inl (by rw [hd, hc])⟩
          simpa [hd, hc] using h
        · simp [hd, hc] at h
      · simp [hd] at h
    · rintro ⟨api, meth, hver, hss | ⟨ignored, rest, hss⟩⟩
      · simp only [List.cons.injEq, and_true] at hss
        obtain ⟨rfl, rfl, rfl, rfl⟩ := hss
        simpa using hver
      · simp at hss
  · -- more than four: the first one is ignored, and so is what follows the fifth
    constructor
    · intro h
      simp only [List.length_cons] at h
      by_cases hd : sc.domain = b
      · by_cases hc : sc.component = c
        · refine ⟨d, e, ?_, .inr ⟨a, rest, by rw [hd, hc]⟩⟩
          simpa [hd, hc] using h
        · simp [hd, hc] at h
      · simp [hd] at h
    · rintro ⟨api, meth, hver, hss | ⟨ignored, rest', hss⟩⟩
      · simp at hss
      · simp only [List.cons.injEq] at hss
        obtain ⟨rfl, rfl, rfl, rfl, rfl, rfl⟩ := hss
        simpa using hver

/-- The capabilities that the code accepts are those that allow the request, the overlong ones,
and those that go astray. -/
theorem isValid_default_iff (hver : sc.verifier = defaultJWTVerifier) (tid : Tenant.Id) :
    sc.isValid path method cap = true ↔
      sc.Allows path tid cap ∨ sc.Overlong path cap ∨ sc.Astray path tid cap := by
  rw [isValid_iff, hver]
  constructor
  · rintro ⟨api, meth, hscope, hss⟩
    rw [defaultJWTVerifier_iff] at hscope
    have hform : sc.Reads cap (api ++ ":" ++ meth) ∨ ∃ ignored more rest, sc.segments cap =
        ignored :: sc.domain :: sc.component :: api :: meth :: more :: rest := by
      rcases hss with hss | ⟨ignored, rest, hss⟩
      · exact .inl ⟨api, meth, rfl, .inl hss⟩
      · cases rest with
        | nil => exact .inl ⟨api, meth, rfl, .inr ⟨ignored, hss⟩⟩
        | cons more rest => exact .inr ⟨ignored, more, rest, hss⟩
    -- the capability for the routes is accepted wherever the path contains `routes`
    rcases hform with hreads | ⟨ignored, more, rest, hss⟩
    · rcases hscope with hall | ⟨hroutes, hcontains⟩
      · exact .inl (.inl (hall ▸ hreads))
      · rw [hroutes] at hreads
        cases hend : isRoutesEndpoint tid path with
        | true => exact .inl (.inr ⟨hreads, hend⟩)
        | false => exact .inr (.inr ⟨hreads, hcontains, hend⟩)
    · exact .inr (.inl ⟨ignored, api, meth, more, rest, hss, hscope⟩)
  · have hof : ∀ scope, sc.Reads cap scope → defaultJWTVerifier path method scope = true →
        ∃ api meth, defaultJWTVerifier path method (api ++ ":" ++ meth) = true ∧
          (sc.segments cap = [sc.domain, sc.component, api, meth] ∨ ∃ ignored rest,
            sc.segments cap = ignored :: sc.domain :: sc.component :: api :: meth :: rest) := by
      rintro scope ⟨api, meth, rfl, hss | ⟨ignored, hss⟩⟩ hscope
      · exact ⟨api, meth, hscope, .inl hss⟩
      · exact ⟨api, meth, hscope, .inr ⟨ignored, [], hss⟩⟩
    rintro ((hall | ⟨hroutes, hend⟩) | ⟨ignored, api, meth, more, rest, hss, hscope⟩ |
      ⟨hroutes, hcontains, -⟩)
    · exact hof _ hall (defaultJWTVerifier_iff.mpr (.inl rfl))
    · exact hof _ hroutes
        (defaultJWTVerifier_iff.mpr (.inr ⟨rfl, containsRoutes_of_endpoint hend⟩))
    · exact ⟨api, meth, defaultJWTVerifier_iff.mpr hscope, .inr ⟨ignored, more :: rest, hss⟩⟩
    · exact hof _ hroutes (defaultJWTVerifier_iff.mpr (.inr ⟨rfl, hcontains⟩))

/-! ## Requests -/

/-- A token that was read has partners. -/
theorem partners_ne_nil {token sub : String} {partners capabilities : List String}
    (h : sc.extractToken token = .ok (partners, sub, capabilities)) : partners ≠ [] := by
  cases hparse : sc.parse token with
  | error err => simp [extractToken, hparse] at h
  | ok claims =>
      by_cases hnil : allowedPartners claims = []
      · simp [extractToken, hparse, hnil] at h
      · simp only [extractToken, hparse, if_neg hnil] at h
        cases hcaps : claims.lookup "capabilities" with
        | none => simp [hcaps] at h
        | some caps =>
            cases caps with
            | arr os =>
                simp only [hcaps, Except.ok.injEq, Prod.mk.injEq] at h
                exact h.1 ▸ hnil
            | null | bool | num | str | obj => simp [hcaps] at h

/-- When a client is accepted that is no admin client. -/
theorem accepted_iff {token api sub : String} {partners capabilities : List String}
    (hreq : sc.requireBearerToken = true) (htoken : token ≠ "")
    (hextract : sc.extractToken token = .ok (partners, sub, capabilities)) (hsub : sub ≠ "")
    (hadmin : sub ∉ sc.adminClientIds) (tid : Option Tenant.Id) :
    (sc.verifyToken token api method tid).isOk = true ↔
      ∃ id, tid = some id ∧ sc.Known partners sub id ∧
        ∃ cap ∈ capabilities, sc.isValid api method cap = true := by
  have hpartners := partners_ne_nil hextract
  simp only [verifyToken, hreq, Bool.not_true, Bool.false_eq_true, if_false, if_neg htoken,
    hextract, verifyClaims, if_neg hsub, if_neg hadmin]
  cases tid with
  | none => simp [Except.isOk, Except.toBool]
  | some id =>
      simp only [Known]
      cases hconfig : sc.tenantStorer id with
      | error err => simp [hconfig, Except.isOk, Except.toBool]
      | ok tenantConfig =>
          by_cases hclient : sub ∈ tenantConfig.clientIds
          · by_cases horg : id.orgId ∈ partners
            · by_cases hcap : capabilities.any (sc.isValid api method) = true
              · simp [hconfig, hclient, horg, hcap, Except.isOk, Except.toBool]
                simpa using hcap
              · simp [hconfig, hclient, horg, hcap, Except.isOk, Except.toBool]
                simpa using hcap
            · simp [hconfig, hclient, horg, hpartners, Except.isOk, Except.toBool]
          · simp [hconfig, hclient, Except.isOk, Except.toBool]

/-- **Exactness.**  With bearer tokens required and `DefaultJWTVerifier`, whether a client that is
no admin client is accepted agrees with whether it is authorized exactly when a known client that
has an overlong capability, or one that goes astray, also has one that allows the request. -/
theorem accepted_iff_authorized (sc : DefaultJWTConsumer) (hreq : sc.requireBearerToken = true)
    (hver : sc.verifier = defaultJWTVerifier) (token path method : String)
    (tid : Option Tenant.Id) (partners : List String) (sub : String) (capabilities : List String)
    (htoken : token ≠ "")
    (hextract : sc.extractToken token = .ok (partners, sub, capabilities)) (hsub : sub ≠ "")
    (hadmin : sub ∉ sc.adminClientIds) :
    ((sc.verifyToken token path method tid).isOk = true ↔
      sc.Authorized path tid partners sub capabilities) ↔
    ∀ id, tid = some id → sc.Known partners sub id →
      (∃ cap ∈ capabilities, sc.Overlong path cap ∨ sc.Astray path id cap) →
      ∃ cap ∈ capabilities, sc.Allows path id cap := by
  rw [accepted_iff hreq htoken hextract hsub hadmin]
  constructor
  · rintro h id rfl hknown ⟨cap, hcap, hbad⟩
    obtain ⟨id', hid, -, hallows⟩ := h.mp ⟨id, rfl, hknown, cap, hcap,
      (isValid_default_iff hver id).mpr (.inr hbad)⟩
    obtain rfl := Option.some.inj hid
    exact hallows
  · intro h
    constructor
    · rintro ⟨id, rfl, hknown, cap, hcap, hvalid⟩
      refine ⟨id, rfl, hknown, ?_⟩
      rcases (isValid_default_iff hver id).mp hvalid with hallows | hbad
      · exact ⟨cap, hcap, hallows⟩
      · exact h id rfl hknown ⟨cap, hcap, hbad⟩
    · rintro ⟨id, rfl, hknown, cap, hcap, hallows⟩
      exact ⟨id, rfl, hknown, cap, hcap, (isValid_default_iff hver id).mpr (.inl hallows)⟩

/-- A consumer with the default verifier.  The only tenant has the application `routes-app`, and
tokens are given by their capability. -/
def sampleConsumer : DefaultJWTConsumer where
  parse cap := .ok [("sub", .str "client"), ("capabilities", .arr [.str cap]),
    ("allowedResources", .obj [("allowedPartners", .arr [.str "acme"])])]
  verifier := defaultJWTVerifier
  requireBearerToken := true
  domain := "ears"
  component := "api"
  adminClientIds := ["admin"]
  capabilityPrefixes := ["x1:"]
  tenantStorer tid :=
    if tid = ⟨"acme", "routes-app"⟩ then .ok ⟨["client"]⟩ else .error (.other "tenant not found")

/-- The capability for the routes, with the prefix, on an endpoint for the routes. -/
theorem accepted_iff_authorized_sample :
    (sampleConsumer.verifyToken "x1:ears:api:routes:*"
        "/ears/v1/orgs/acme/applications/routes-app/routes/r1" "GET"
        (some ⟨"acme", "routes-app"⟩)).isOk = true ↔
      sampleConsumer.Authorized "/ears/v1/orgs/acme/applications/routes-app/routes/r1"
        (some ⟨"acme", "routes-app"⟩) ["acme"] "client" ["x1:ears:api:routes:*"] := by
  apply (accepted_iff_authorized sampleConsumer rfl rfl "x1:ears:api:routes:*" _ _ _ _ _ _
    (by decide) rfl (by decide) (by decide)).mpr
  rintro id hid - -
  obtain rfl := Option.some.inj hid
  refine ⟨_, List.mem_singleton.mpr rfl, .inr ⟨⟨"routes", "*", rfl, .inl ?_⟩, ?_⟩⟩
  · decide +kernel
  · decide +kernel

/-- The capability for the routes lets a client read the senders of a tenant whose application is
called `routes-app`, and a capability with a sixth segment is accepted. -/
theorem not_exact_routes_app :
    ((sampleConsumer.verifyToken "ears:api:routes:*"
        "/ears/v1/orgs/acme/applications/routes-app/senders" "GET"
        (some ⟨"acme", "routes-app"⟩)).isOk = true ∧
      ¬ sampleConsumer.Authorized "/ears/v1/orgs/acme/applications/routes-app/senders"
        (some ⟨"acme", "routes-app"⟩) ["acme"] "client" ["ears:api:routes:*"]) ∧
    (sampleConsumer.verifyToken "y:ears:api:*:*:read"
        "/ears/v1/orgs/acme/applications/routes-app/senders" "GET"
        (some ⟨"acme", "routes-app"⟩)).isOk = true ∧
      ¬ sampleConsumer.Authorized "/ears/v1/orgs/acme/applications/routes-app/senders"
        (some ⟨"acme", "routes-app"⟩) ["acme"] "client" ["y:ears:api:*:*:read"] := by
  have hroutes : sampleConsumer.segments "ears:api:routes:*" = ["ears", "api", "routes", "*"] := by
    decide +kernel
  have hsix : sampleConsumer.segments "y:ears:api:*:*:read" =
      ["y", "ears", "api", "*", "*", "read"] := by
    decide +kernel
  refine ⟨⟨?_, ?_⟩, ?_, ?_⟩
  · apply (accepted_iff rfl (by decide) rfl (by decide) (by decide) _).mpr
    refine ⟨_, rfl, ⟨⟨⟨["client"]⟩, rfl, by decide⟩, by decide⟩, _, List.mem_singleton.mpr rfl, ?_⟩
    apply (isValid_default_iff rfl ⟨"acme", "routes-app"⟩).mpr
    exact .inr (.inr ⟨⟨"routes", "*", rfl, .inl hroutes⟩, by decide +kernel, by decide +kernel⟩)
  · rintro ⟨id, hid, -, cap, hcap, hallows⟩
    obtain rfl := Option.some.inj hid
    obtain rfl := List.mem_singleton.mp hcap
    rcases hallows with ⟨api, meth, hscope, hss | ⟨ignored, hss⟩⟩ | ⟨-, hend⟩
    · rw [hroutes] at hss
      simp only [List.cons.injEq, and_true] at hss
      obtain ⟨-, -, rfl, rfl⟩ := hss
      exact absurd hscope (by decide)
    · simp [hroutes] at hss
    · exact absurd hend (by decide +kernel)
  · decide +kernel
  · rintro ⟨id, -, -, cap, hcap, hallows⟩
    obtain rfl := List.mem_singleton.mp hcap
    rcases hallows with ⟨api, meth, -, hss | ⟨ignored, hss⟩⟩ | ⟨⟨api, meth, -, hss | ⟨ignored, hss⟩⟩, -⟩
    · simp [hsix] at hss
    · simp [hsix] at hss
    · simp [hsix] at hss
    · simp [hsix] at hss

end DefaultJWTConsumer

end Jwt
