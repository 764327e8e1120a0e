/-
# The management API (`internal/pkg/app/handlers_v1.go`, `middlewares.go`)

`NewAPIManager` enters the handlers of the API into a router, and every request that the router
dispatches goes through `authenticateMiddleware` first.  A handler makes calls: to the stores of
tenants, routes and fragments, which all nodes share, and to the token verifier, the routing
table, the tenant cache and the plugins of its own node.  Between two calls of one request the
calls of other requests can happen, so a request is a program over a signature of calls, and a
cluster of nodes that serve requests is a machine for such programs (`machine`).

The stores are those that nodes can share, in DynamoDB and in Redis: they encode what is written
and decode a copy of it for every read.  So no two requests, and no request and a live route of
another, hold the same filter chain.  The store in the memory of a single node, which hands out
the chain that it keeps, is not one of them; for what `AddRoute` does to a chain that others hold
see `RoutingTable.writeFragments`.

What is not in the repository is a parameter: the router of `gorilla/mux` (`Mux`, with what is
known of it), the token parser (in `Jwt.DefaultJWTConsumer`), the decoding of request bodies
(`Content`) and what storage and plugins answer (`Env`).  Logs, metrics and traces are left out,
and so is the lock around the tenant cache: without it, more interleavings are possible.
-/
import Ears.JwtAuthorization
import Ears.ProgramSpecs
import Ears.RegisteredRoutes
import Ears.StorageKeys

open Plugin

namespace Api

/-! ## Data -/

/-- `tenant.Config`. -/
structure TenantConfig where
  tenant : Tenant.Id
  eventsPerSec : ℤ := 0
  clientIds : List String := []
  clientId : String := ""
  clientSecret : String := ""
  openEventApi : Bool := false
  modified : ℤ := 0
  deriving DecidableEq

/-- `CachedTenantConfig`. -/
structure CachedTenantConfig where
  config : TenantConfig
  ts : ℤ

/-- `TENANT_CACHE_TTL_SECS`. -/
def tenantCacheTtlSecs : ℤ := 30

/-- The errors of the stores, of the routing table and of the verifier that the handlers pass
on.  `registration` is a `RouteRegistrationError` around another error, `reload` the one of
`ReloadAllRoutes`, with the ids of the routes that could not be reloaded. -/
inductive Error where
  | tenantNotFound (tid : Tenant.Id)
  | badTenantConfig
  | routeNotFound (tid : Tenant.Id) (routeId : String)
  | validation (text : String)
  | registration (wrapped : Error)
  | plugin (err : RegistrationError)
  | reload (rids : List String)
  | auth (err : Jwt.AuthError)
  | badRequest (message : String)
  | other (text : String)

/-- `ApiError`: `BadRequestError`, `NotFoundError`, `InternalServerError`, `EmptyEventError` and
`EventTooLargeError`. -/
inductive ApiError where
  | badRequest (message : String) (err : Option Error)
  | notFound (message : String)
  | internal (wrapped : Option Error)
  | emptyEvent
  | eventTooLarge

/-- `StatusCode()`. -/
def ApiError.statusCode : ApiError → ℕ
  | .badRequest _ _ => 400
  | .notFound _ => 404
  | .internal _ => 500
  | .emptyEvent => 400
  | .eventTooLarge => 413

/-- `convertToApiError`.  It knows no `BadRequestError`. -/
def convertToApiError : Error → ApiError
  | .tenantNotFound tid =>
      .notFound ("tenant OrgId=" ++ tid.orgId ++ " AppId=" ++ tid.appId ++ " not found")
  | .badTenantConfig => .badRequest "bad tenant config" (some .badTenantConfig)
  | .registration err => .badRequest "bad route config" (some (.registration err))
  | .reload rids => .badRequest "bad route config" (some (.reload rids))
  | .validation text => .badRequest "bad route config" (some (.validation text))
  | .routeNotFound _ routeId => .notFound ("route " ++ routeId ++ " not found")
  | .auth (.unauthorized msg) =>
      .badRequest "jwt authorization failed" (some (.auth (.unauthorized msg)))
  | err => .internal (some err)

/-- `SenderStatus`, `ReceiverStatus` and `FilterStatus`: the fields that the handlers read. -/
structure PluginStatus where
  name : String
  tid : Tenant.Id
  deriving DecidableEq

/-- What the plugin statuses are of. -/
inductive PluginKind where
  | senders
  | receivers
  | filters
  deriving DecidableEq

/-- The variable for the name of one plugin. -/
def PluginKind.nameVar : PluginKind → String
  | .senders => "senderName"
  | .receivers => "receiverName"
  | .filters => "filterName"

/-- What has become of an event: its trace id, and the response of a sender with its status. -/
structure Routed where
  traceId : String
  response : String
  responseStatus : ℤ

/-- A request body that was read: its size, and what decoding it gives. -/
structure Content where
  size : ℕ
  route : Except String Route.Config
  fragment : Except String Route.PluginConfig
  tenantConfig : Except String TenantConfig
  event : Except String Json

/-- A request; missing headers and query parameters are empty, and the body may be unreadable. -/
structure Request where
  method : String
  path : String
  authorization : String
  query : String → String
  contentLength : ℤ
  body : Except String Content

/-- `mux.Vars`; a missing variable is empty. -/
abbrev Vars := String → String

/-- What a handler answers with. -/
inductive Item where
  | version
  | website
  | route (c : Route.Config)
  | routes (cs : List Route.Config)
  | routeId (id : String)
  | routeIds (ids : List String)
  | fragment (pc : Route.PluginConfig)
  | fragments (pcs : List Route.PluginConfig)
  | fragmentId (id : String)
  | config (c : TenantConfig)
  | configs (cs : List TenantConfig)
  | tenant (tid : Tenant.Id)
  | statuses (kind : PluginKind) (ss : List PluginStatus)
  | event (routeId : String) (routed : Routed) (statusCode : ℤ)

/-! ## Calls -/

/-- The calls that a request makes. -/
inductive Op where
  | verifyToken (token path method : String) (tid : Option Tenant.Id)
  | getConfig (tid : Tenant.Id)
  | getAllConfigs
  | setConfig (config : TenantConfig)
  | deleteConfig (tid : Tenant.Id)
  | getRoute (tid : Tenant.Id) (id : String)
  | getAllTenantRoutes (tid : Tenant.Id)
  | setRoute (r : Route.Config)
  | deleteRoute (tid : Tenant.Id) (id : String)
  | getFragment (tid : Tenant.Id) (id : String)
  | getAllFragments
  | getAllTenantFragments (tid : Tenant.Id)
  | setFragment (tid : Tenant.Id) (r : Route.PluginConfig)
  | deleteFragment (tid : Tenant.Id) (id : String)
  | registerAndRunRoute (routeConfig : Route.Config)
  | unregisterAndStopRoute (tid : Tenant.Id) (routeId : String)
  | getAllRegisteredRoutes
  | publishSyncRequest (tid : Tenant.Id) (routeId : String) (add : Bool)
  | publishQuota (tid : Tenant.Id)
  | getTenant (tenantId : String)
  | setTenant (tenantConfig : TenantConfig)
  | routeEvent (tid : Tenant.Id) (routeId : String) (payload : Json)
  | status (kind : PluginKind)

/-- What a call returns. -/
def Op.Res : Op → Type
  | .verifyToken .. => Except Error (List String × String)
  | .getConfig _ => Except Error TenantConfig
  | .getAllConfigs => Except Error (List TenantConfig)
  | .setConfig _ | .deleteConfig _ => Except Error Unit
  | .getRoute _ _ => Except Error Route.Config
  | .getAllTenantRoutes _ => Except Error (List Route.Config)
  | .setRoute _ | .deleteRoute _ _ => Except Error Unit
  | .getFragment _ _ => Except Error Route.PluginConfig
  | .getAllFragments | .getAllTenantFragments _ => Except Error (List Route.PluginConfig)
  | .setFragment _ _ | .deleteFragment _ _ => Except Error Unit
  | .registerAndRunRoute _ | .unregisterAndStopRoute _ _ => Except Error Unit
  | .getAllRegisteredRoutes => List Route.Config
  | .publishSyncRequest _ _ _ | .publishQuota _ => Unit
  | .getTenant _ => Option TenantConfig
  | .setTenant _ => Unit
  | .routeEvent _ _ _ => Except Error Routed
  | .status _ => List PluginStatus

/-- The signature of the calls. -/
abbrev sig : Signature := ⟨Op, Op.Res⟩

/-- A program that may fail with an error. -/
abbrev Call (α : Type) := ExceptT Error (Prog sig) α

/-- A handler: it answers with an item or with an API error. -/
abbrev Answer (α : Type) := ExceptT ApiError (Prog sig) α

/-- One call. -/
def call (o : Op) : Prog sig o.Res := Prog.perform (S := sig) o

/-- One call that may fail. -/
def tryCall {α : Type} (p : Prog sig (Except Error α)) : Call α := ExceptT.mk p

/-- One call that may fail, with its error looked at. -/
def attempt {ε α : Type} (p : Prog sig (Except Error α)) : ExceptT ε (Prog sig) (Except Error α) :=
  ExceptT.lift p

/-- Answer with the converted error when a call fails. -/
def orFail {α : Type} (x : Call α) : Answer α := ExceptT.adapt convertToApiError x

/-! ## The methods of the routing table manager -/

namespace Table

/-- `GetConfig` of the tenant store. -/
def getConfig (tid : Tenant.Id) : Call TenantConfig := tryCall (call (.getConfig tid))

/-- Replace a reference to a fragment by the fragment. -/
def inflate (tid : Tenant.Id) (pc : Route.PluginConfig) : Call Route.PluginConfig :=
  if pc.fragmentName = "" then pure pc
  else do
    let fragment ← tryCall (call (.getFragment tid pc.fragmentName))
    match RoutingTable.inflate (fun _ _ => .ok fragment) tid pc with
    | .error text => throw (.other text)
    | .ok pc => pure pc

/-- The loop of `AddRoute` over the filter chain.  The source writes the fragments into the chain
of its own copy of the route, which nobody else holds yet, so the chain that it continues with is
all there is to say. -/
def inflateFilters (tid : Tenant.Id) : List Route.PluginConfig → Call (List Route.PluginConfig)
  | [] => pure []
  | f :: fs => do
      let f ← inflate tid f
      let fs ← inflateFilters tid fs
      pure (f :: fs)

/-- The configuration that `AddRoute` adds, before it is validated: with fragments inflated. -/
def inflateRoute (c : Route.Config) : Call Route.Config := do
  let sender ← inflate c.tenantId c.sender
  let receiver ← inflate c.tenantId c.receiver
  let filterChain ← inflateFilters c.tenantId c.filterChain
  pure { c with sender := sender, receiver := receiver, filterChain := filterChain }

/-- `AddRoute` after the fragments: the id, `Validate`, the registration and the store.  A route
that could not be stored is unregistered again. -/
def storeRoute (c : Route.Config) : Call Route.Config := do
  match c.validate with
  | .error text => throw (.validation text)
  | .ok () =>
      (tryCall (call (.registerAndRunRoute c))).adapt .registration
      match ← attempt (call (.setRoute c)) with
      | .error err => do
          let _ ← attempt (call (.unregisterAndStopRoute c.tenantId c.id))
          throw err
      | .ok () => do
          call (.publishSyncRequest c.tenantId c.id true)
          pure c

/-- `AddRoute`. -/
def addRoute (c : Route.Config) : Call Route.Config := do
  let c ← inflateRoute c
  storeRoute (RoutingTable.withId c)

/-- `RemoveRoute`: an error of the store is returned after the route has been unregistered. -/
def removeRoute (tid : Tenant.Id) (routeId : String) : Call Unit := do
  if routeId = "" then throw (.other "missing route ID")
  let stored ← attempt (call (.deleteRoute tid routeId))
  call (.publishSyncRequest tid routeId false)
  (tryCall (call (.unregisterAndStopRoute tid routeId))).adapt .registration
  tryCall (pure stored)

/-- `GetRoute`. -/
def getRoute (tid : Tenant.Id) (routeId : String) : Call Route.Config :=
  tryCall (call (.getRoute tid routeId))

/-- `ReloadRoute`. -/
def reloadRoute (tid : Tenant.Id) (routeId : String) : Call Route.Config := do
  let c ← (getRoute tid routeId).adapt .registration
  (tryCall (call (.unregisterAndStopRoute c.tenantId c.id))).adapt .registration
  call (.publishSyncRequest c.tenantId c.id false)
  (tryCall (call (.registerAndRunRoute c))).adapt .registration
  call (.publishSyncRequest c.tenantId c.id true)
  pure c

/-- The loop of `ReloadAllRoutes`: the ids of the routes that could not be reloaded. -/
def reloadEach : List Route.Config → Prog sig (List String)
  | [] => pure []
  | c :: cs => do
      let r ← (reloadRoute c.tenantId c.id).run
      let failed ← reloadEach cs
      match r with
      | .error _ => pure (c.id :: failed)
      | .ok _ => pure failed

/-- `ReloadAllRoutes`: the ids of the routes. -/
def reloadAllRoutes : Call (List String) := do
  let routes ← call .getAllRegisteredRoutes
  match ← reloadEach routes with
  | [] => pure (routes.map Route.Config.id)
  | failed => throw (.reload failed)

/-- `GetAllTenantRoutes`. -/
def getAllTenantRoutes (tid : Tenant.Id) : Call (List Route.Config) :=
  tryCall (call (.getAllTenantRoutes tid))

/-- The loop of `getAllRoutesHandler` over the tenants. -/
def getAllRoutes : List TenantConfig → Call (List Route.Config)
  | [] => pure []
  | config :: configs => do
      let routes ← getAllTenantRoutes config.tenant
      let rest ← getAllRoutes configs
      pure (routes ++ rest)

end Table

/-! ## The handlers -/

/-- `NewGearsEnvelope` without a trace id, as JSON. -/
def newGearsEnvelope (partner app location : String) (payload : Json) : Json :=
  .obj [("message", .obj [("op", .str "process"), ("payload", payload)]),
    ("to", .obj [("partner", .str (if partner = "" then "comcast" else partner)),
      ("app", .str app), ("location", .str location)]),
    ("tx", .obj [])]

/-- The settings of the API that the handlers read. -/
structure Settings where
  maxEventSize : ℤ := 0
  webhookOrg : String := ""
  webhookApp : String := ""
  webhookRouteId : String := ""

/-- Answer with an error in a certain case. -/
def failIf (p : Prop) [Decidable p] (err : ApiError) : Answer Unit :=
  if p then throw err else pure ()

/-- `getTenant`. -/
def getTenant (vars : Vars) : Answer Tenant.Id :=
  match Tenant.getTenant vars with
  | .error message => throw (.badRequest message none)
  | .ok tid => pure tid

/-- `io.ReadAll(r.Body)`. -/
def readAll (r : Request) : Answer Content :=
  match r.body with
  | .error text => throw (.internal (some (.other text)))
  | .ok content => pure content

/-- Answer with a bad request when the body cannot be decoded. -/
def unmarshal {α : Type} (message : String) (x : Except String α) : Answer α :=
  match x with
  | .error text => throw (.badRequest message (some (.other text)))
  | .ok a => pure a

/-- The id of the URL and that of the body have to agree; an empty one is filled in. -/
def checkId (routeId : String) (c : Route.Config) : Answer Route.Config := do
  failIf (routeId ≠ "" ∧ c.id ≠ "" ∧ routeId ≠ c.id)
    (.badRequest ("route ID mismatch " ++ routeId ++ " vs " ++ c.id) none)
  pure (if routeId ≠ "" ∧ c.id = "" then { c with id := routeId } else c)

/-- `addRouteHandler`. -/
def addRouteHandler (r : Request) (vars : Vars) : Answer Item := do
  let tid ← getTenant vars
  let _ ← orFail (Table.getConfig tid)
  let body ← readAll r
  let route ← unmarshal "Cannot unmarshal request body" body.route
  failIf (route.receiver.plugin = "kinesis" ∧ route.region = "")
    (.badRequest "region must be set for route with kinesis receiver" none)
  let route ← checkId (vars "routeId") route
  let route ← orFail (Table.addRoute { route with tenantId := tid })
  pure (.route route)

/-- `enableDisableRouteHandler`. -/
def enableDisableRouteHandler (_ : Request) (vars : Vars) : Answer Item := do
  let tid ← getTenant vars
  let _ ← orFail (Table.getConfig tid)
  let route ← orFail (Table.getRoute tid (vars "routeId"))
  let route ← checkId (vars "routeId") { route with inactive := !route.inactive }
  let route ← orFail (Table.addRoute { route with tenantId := tid })
  pure (.route route)

/-- `reloadRouteHandler`. -/
def reloadRouteHandler (_ : Request) (vars : Vars) : Answer Item := do
  let tid ← getTenant vars
  let _ ← orFail (Table.getConfig tid)
  let route ← orFail (Table.reloadRoute tid (vars "routeId"))
  pure (.route route)

/-- `removeRouteHandler`. -/
def removeRouteHandler (_ : Request) (vars : Vars) : Answer Item := do
  let tid ← getTenant vars
  orFail (Table.removeRoute tid (vars "routeId"))
  pure (.routeId (vars "routeId"))

/-- `getRouteHandler`. -/
def getRouteHandler (_ : Request) (vars : Vars) : Answer Item := do
  let tid ← getTenant vars
  let route ← orFail (Table.getRoute tid (vars "routeId"))
  pure (.route route)

/-- `getAllTenantRoutesHandler`. -/
def getAllTenantRoutesHandler (_ : Request) (vars : Vars) : Answer Item := do
  let tid ← getTenant vars
  let routes ← orFail (Table.getAllTenantRoutes tid)
  pure (.routes routes)

/-- `reloadAllRoutesHandler`. -/
def reloadAllRoutesHandler (_ : Request) (_ : Vars) : Answer Item := do
  let rids ← orFail Table.reloadAllRoutes
  pure (.routeIds rids)

/-- `getAllRoutesHandler`. -/
def getAllRoutesHandler (_ : Request) (_ : Vars) : Answer Item := do
  let configs ← orFail (tryCall (call .getAllConfigs))
  let routes ← orFail (Table.getAllRoutes configs)
  pure (.routes routes)

/-- `getAllSendersHandler`, `getAllReceiversHandler` and `getAllFiltersHandler`: without a tenant
all of them, otherwise those of the tenant, and of these those with the name if there is one. -/
def getAllStatusHandler (kind : PluginKind) (_ : Request) (vars : Vars) : Answer Item := do
  let all ← call (.status kind)
  match Tenant.getTenant vars with
  | .error _ => pure (.statuses kind all)
  | .ok tid =>
      pure (.statuses kind (all.filter fun v =>
        v.tid = tid && (vars kind.nameVar = "" || v.name = vars kind.nameVar)))

/-- The name of the URL is filled in. -/
def nameFragment (fragmentId : String) (pc : Route.PluginConfig) : Route.PluginConfig :=
  if fragmentId ≠ "" ∧ pc.fragmentName = "" then { pc with fragmentName := fragmentId } else pc

/-- `addFragmentHandler`.  The message about a mismatch names the label of the plugin. -/
def addFragmentHandler (r : Request) (vars : Vars) : Answer Item := do
  let tid ← getTenant vars
  let _ ← orFail (Table.getConfig tid)
  let fragmentId := vars "fragmentId"
  let body ← readAll r
  let fragmentConfig ← unmarshal "Cannot unmarshal request body" body.fragment
  failIf (fragmentId ≠ "" ∧ fragmentConfig.fragmentName ≠ "" ∧
      fragmentId ≠ fragmentConfig.fragmentName)
    (.badRequest ("fragment name mismatch " ++ fragmentId ++ " vs " ++ fragmentConfig.name) none)
  let fragmentConfig := nameFragment fragmentId fragmentConfig
  failIf (fragmentConfig.fragmentName = "") (.badRequest "missing fragment name" none)
  orFail (tryCall (call (.setFragment tid fragmentConfig)))
  pure (.fragment fragmentConfig)

/-- `removeFragmentHandler`. -/
def removeFragmentHandler (_ : Request) (vars : Vars) : Answer Item := do
  let tid ← getTenant vars
  orFail (tryCall (call (.deleteFragment tid (vars "fragmentId"))))
  pure (.fragmentId (vars "fragmentId"))

/-- `getFragmentHandler`. -/
def getFragmentHandler (_ : Request) (vars : Vars) : Answer Item := do
  let tid ← getTenant vars
  let fragmentConfig ← orFail (tryCall (call (.getFragment tid (vars "fragmentId"))))
  pure (.fragment fragmentConfig)

/-- `getAllTenantFragmentsHandler`. -/
def getAllTenantFragmentsHandler (_ : Request) (vars : Vars) : Answer Item := do
  let tid ← getTenant vars
  let fragments ← orFail (tryCall (call (.getAllTenantFragments tid)))
  pure (.fragments fragments)

/-- `getAllFragmentsHandler`. -/
def getAllFragmentsHandler (_ : Request) (_ : Vars) : Answer Item := do
  let fragments ← orFail (tryCall (call .getAllFragments))
  pure (.fragments fragments)

/-- `getTenantConfigHandler`. -/
def getTenantConfigHandler (_ : Request) (vars : Vars) : Answer Item := do
  let tid ← getTenant vars
  let config ← orFail (Table.getConfig tid)
  pure (.config config)

/-- `getAllTenantConfigsHandler`. -/
def getAllTenantConfigsHandler (_ : Request) (_ : Vars) : Answer Item := do
  let configs ← orFail (tryCall (call .getAllConfigs))
  pure (.configs configs)

/-- `updateTenantConfigHandler`. -/
def updateTenantConfigHandler (r : Request) (vars : Vars) : Answer Item := do
  let tid ← getTenant vars
  let body ← readAll r
  let tenantConfig ← unmarshal "Cannot unmarshal request body" body.tenantConfig
  let tenantConfig := { tenantConfig with tenant := tid }
  orFail (tryCall (call (.setConfig tenantConfig)))
  call (.publishQuota tid)
  pure (.config tenantConfig)

/-- `addTenantConfigHandler`: an update, unless the tenant was found.  Every error of the store
counts as not found. -/
def addTenantConfigHandler (r : Request) (vars : Vars) : Answer Item := do
  let tid ← getTenant vars
  match ← attempt (call (.getConfig tid)) with
  | .ok _ => throw (.internal (some (.other ("cannot update existing tenant " ++ tid.appId))))
  | .error _ => updateTenantConfigHandler r vars

/-- `deleteTenantConfigHandler`.  The error about routes goes through `convertToApiError`. -/
def deleteTenantConfigHandler (_ : Request) (vars : Vars) : Answer Item := do
  let tid ← getTenant vars
  let routes ← orFail (Table.getAllTenantRoutes tid)
  failIf (0 < routes.length) (convertToApiError (.badRequest "tenant has routes"))
  orFail (tryCall (call (.deleteConfig tid)))
  pure (.tenant tid)

/-- The configuration of the tenant, from the cache if it has one that is not too old. -/
def cachedConfig (tid : Tenant.Id) : Answer TenantConfig := do
  match ← call (.getTenant tid.key) with
  | some config => pure config
  | none => do
      let config ← orFail (Table.getConfig tid)
      call (.setTenant config)
      pure config

/-- `VerifyToken`, with the error converted. -/
def verifyToken (token path method : String) (tid : Option Tenant.Id) : Answer Unit := do
  let _ ← orFail (tryCall (call (.verifyToken token path method tid)))
  pure ()

/-- `getBearerToken`. -/
def getBearerToken (r : Request) : String := Jwt.trimPrefix r.authorization "Bearer "

/-- The authentication in `sendEventHandler`: by the token of the query, or by the bearer token
unless the tenant has an open event API. -/
def authenticateEvent (r : Request) (vars : Vars) (tid : Tenant.Id) (tenantConfig : TenantConfig) :
    Answer Unit :=
  if vars "token" ≠ "" then verifyToken (vars "token") r.path r.method (some tid)
  else if tenantConfig.openEventApi = false then
    verifyToken (getBearerToken r) r.path r.method (some tid)
  else pure ()

/-- The payload of the event, in an envelope if the query asks for one. -/
def eventPayload (vars : Vars) (payload : Json) : Json :=
  if vars "routeToApp" ≠ "" ∧ vars "routeToLocation" ≠ "" then
    newGearsEnvelope (vars "routeToPartner") (vars "routeToApp") (vars "routeToLocation") payload
  else payload

/-- The id of the route that the event is for. -/
def eventRoute (vars : Vars) : String :=
  if vars "routeToRoute" = "" then vars "routeId" else vars "routeToRoute"

/-- `sendEventHandler`. -/
def sendEventHandler (st : Settings) (r : Request) (vars : Vars) : Answer Item := do
  failIf (0 < st.maxEventSize ∧ st.maxEventSize < r.contentLength) .eventTooLarge
  let tid ← getTenant vars
  let tenantConfig ← cachedConfig tid
  authenticateEvent r vars tid tenantConfig
  let body ← readAll r
  failIf (0 < st.maxEventSize ∧ st.maxEventSize < body.size)
    (.internal (some (.other "http: request body too large")))
  failIf (body.size = 0) .emptyEvent
  let payload ← unmarshal "cannot unmarshal request body" body.event
  failIf (eventRoute vars = "") (.internal none)
  let routed ← orFail (tryCall (call (.routeEvent tid (eventRoute vars) (eventPayload vars payload))))
  pure (.event (eventRoute vars) routed
    (if 0 < routed.responseStatus then routed.responseStatus else 200))

/-- The variables that `webhookHandler` sets. -/
def webhookVars (st : Settings) (r : Request) : Vars
  | "orgId" => st.webhookOrg
  | "appId" => st.webhookApp
  | "routeId" => st.webhookRouteId
  | "routeToApp" => r.query "app"
  | "routeToLocation" => r.query "location"
  | "routeToPartner" => r.query "partner"
  | "routeToRoute" => r.query "routeId"
  | "token" => r.query "token"
  | _ => ""

/-- `webhookHandler`: the event goes to the configured route, or to that of the query. -/
def webhookHandler (st : Settings) (r : Request) (_ : Vars) : Answer Item :=
  if st.webhookOrg = "" ∨ st.webhookApp = "" ∨ st.webhookRouteId = "" then
    throw (.internal (some (.other "no global webhook configured")))
  else sendEventHandler st r (webhookVars st r)

/-! ## The router -/

/-- The handlers that `NewAPIManager` enters. -/
inductive HandlerName where
  | version
  | website
  | addRoute
  | sendEvent
  | reloadRoute
  | enableDisableRoute
  | removeRoute
  | getRoute
  | getAllTenantRoutes
  | getAllStatus (kind : PluginKind)
  | addFragment
  | removeFragment
  | getFragment
  | getAllTenantFragments
  | getTenantConfig
  | updateTenantConfig
  | addTenantConfig
  | deleteTenantConfig
  | getAllRoutes
  | reloadAllRoutes
  | getAllTenantConfigs
  | getAllFragments
  | webhook
  deriving DecidableEq

/-- A segment of a path template: a text, or a variable in braces. -/
inductive Segment where
  | lit (text : String)
  | var (name : String)
  deriving DecidableEq

/-- The text of a segment. -/
def Segment.text (vars : Vars) : Segment → String
  | .lit text => text
  | .var name => vars name

/-- A method and a path template with their handler. -/
structure Endpoint where
  method : String
  template : List Segment
  handler : HandlerName

/-- The path of a template. -/
def render (vars : Vars) (template : List Segment) : String :=
  String.ofList (template.flatMap fun seg => '/' :: (seg.text vars).toList)

/-- `/ears/v1/orgs/{orgId}/applications/{appId}`. -/
def tenantPath : List Segment :=
  [.lit "ears", .lit "v1", .lit "orgs", .var "orgId", .lit "applications", .var "appId"]

/-- The endpoints of one tenant, with what follows the path of the tenant. -/
def tenantEndpoints : List Endpoint :=
  [⟨"PUT", [.lit "routes", .var "routeId"], .addRoute⟩,
    ⟨"POST", [.lit "routes", .var "routeId", .lit "event"], .sendEvent⟩,
    ⟨"PUT", [.lit "routes", .var "routeId", .lit "reload"], .reloadRoute⟩,
    ⟨"PUT", [.lit "routes", .var "routeId", .lit "toggleEnable"], .enableDisableRoute⟩,
    ⟨"POST", [.lit "routes"], .addRoute⟩,
    ⟨"DELETE", [.lit "routes", .var "routeId"], .removeRoute⟩,
    ⟨"GET", [.lit "routes", .var "routeId"], .getRoute⟩,
    ⟨"GET", [.lit "routes"], .getAllTenantRoutes⟩,
    ⟨"GET", [.lit "senders", .var "senderName"], .getAllStatus .senders⟩,
    ⟨"GET", [.lit "senders"], .getAllStatus .senders⟩,
    ⟨"GET", [.lit "receivers", .var "receiverName"], .getAllStatus .receivers⟩,
    ⟨"GET", [.lit "receivers"], .getAllStatus .receivers⟩,
    ⟨"GET", [.lit "filters", .var "filterName"], .getAllStatus .filters⟩,
    ⟨"GET", [.lit "filters"], .getAllStatus .filters⟩,
    ⟨"PUT", [.lit "fragments", .var "fragmentId"], .addFragment⟩,
    ⟨"POST", [.lit "fragments"], .addFragment⟩,
    ⟨"DELETE", [.lit "fragments", .var "fragmentId"], .removeFragment⟩,
    ⟨"GET", [.lit "fragments", .var "fragmentId"], .getFragment⟩,
    ⟨"GET", [.lit "fragments"], .getAllTenantFragments⟩,
    ⟨"GET", [.lit "config"], .getTenantConfig⟩,
    ⟨"PUT", [.lit "config"], .updateTenantConfig⟩,
    ⟨"POST", [.lit "config"], .addTenantConfig⟩,
    ⟨"DELETE", [.lit "config"], .deleteTenantConfig⟩,
    ⟨"GET", [], .getTenantConfig⟩,
    ⟨"PUT", [], .updateTenantConfig⟩,
    ⟨"POST", [], .addTenantConfig⟩,
    ⟨"DELETE", [], .deleteTenantConfig⟩]

/-- The endpoints for all tenants, with what follows `/ears/v1`. -/
def globalEndpoints : List Endpoint :=
  [⟨"GET", [.lit "routes"], .getAllRoutes⟩,
    ⟨"PUT", [.lit "routes"], .reloadAllRoutes⟩,
    ⟨"GET", [.lit "tenants"], .getAllTenantConfigs⟩,
    ⟨"GET", [.lit "senders"], .getAllStatus .senders⟩,
    ⟨"GET", [.lit "receivers"], .getAllStatus .receivers⟩,
    ⟨"GET", [.lit "filters"], .getAllStatus .filters⟩,
    ⟨"GET", [.lit "fragments"], .getAllFragments⟩]

/-- The endpoints that need no token for themselves. -/
def openEndpoints : List Endpoint :=
  [⟨"GET", [.lit "ears", .lit "version"], .version⟩,
    ⟨"POST", [.lit "eel", .lit "v1", .lit "events"], .webhook⟩,
    ⟨"POST", [.lit "ears", .lit "v1", .lit "events"], .webhook⟩]

/-- A path template behind another one. -/
def Endpoint.behind (start : List Segment) (e : Endpoint) : Endpoint :=
  { e with template := start ++ e.template }

/-- What `NewAPIManager` enters into the router, apart from the website. -/
def endpoints : List Endpoint :=
  openEndpoints ++ tenantEndpoints.map (Endpoint.behind tenantPath) ++
    globalEndpoints.map (Endpoint.behind [.lit "ears", .lit "v1"])

/-- The request is one for the endpoint: the path is that of the template with texts without
slashes for its variables, and there are no other variables. -/
structure Endpoint.Fits (e : Endpoint) (method path : String) (vars : Vars) : Prop where
  method : e.method = method
  path : path = render vars e.template
  filled : ∀ name, .var name ∈ e.template → vars name ≠ "" ∧ '/' ∉ (vars name).toList
  empty : ∀ name, .var name ∉ e.template → vars name = ""

/-- The router: the handler that it dispatches a method and a path to, with the variables.  It
dispatches to the website what begins with its path, and everything else to an endpoint that
fits. -/
structure Mux where
  dispatch : String → String → Option (HandlerName × Vars)
  sound : ∀ method path h vars, dispatch method path = some (h, vars) →
    (h = .website ∧ GoLib.hasPrefix path "/ears/openapi" = true) ∨
      ∃ e ∈ endpoints, e.handler = h ∧ e.Fits method path vars

/-- The segment is filled as the router fills it. -/
def Segment.Filled (vars : Vars) : Segment → Prop
  | .lit _ => True
  | .var name => vars name ≠ "" ∧ '/' ∉ (vars name).toList

instance (vars : Vars) : (seg : Segment) → Decidable (seg.Filled vars)
  | .lit _ => isTrue trivial
  | .var name => inferInstanceAs (Decidable (vars name ≠ "" ∧ '/' ∉ (vars name).toList))

/-- The variables of a template, from the parts of a path. -/
def fill (template : List Segment) (parts : List String) : Vars := fun name =>
  if .var name ∈ template then ((template.zip parts).lookup (.var name)).getD "" else ""

/-- The first endpoint that fits. -/
def firstFit (method path : String) : List Endpoint → Option (HandlerName × Vars)
  | [] => none
  | e :: es =>
      let vars := fill e.template ((Jwt.split path '/').drop 1)
      if e.method = method ∧ path = render vars e.template ∧ ∀ seg ∈ e.template, seg.Filled vars then
        some (e.handler, vars)
      else firstFit method path es

theorem fits_of_firstFit {method path : String} {es : List Endpoint} {h : HandlerName} {vars : Vars}
    (hfirst : firstFit method path es = some (h, vars)) :
    ∃ e ∈ es, e.handler = h ∧ e.Fits method path vars := by
  induction es with
  | nil => cases hfirst
  | cons e es ih =>
      unfold firstFit at hfirst
      dsimp only at hfirst
      split_ifs at hfirst with hfits
      · obtain ⟨rfl, rfl⟩ := Prod.mk.inj (Option.some.inj hfirst)
        refine ⟨e, List.mem_cons_self, rfl, hfits.1, hfits.2.1, fun name hname => hfits.2.2 _ hname,
          fun name hname => ?_⟩
        unfold fill
        rw [if_neg hname]
      · obtain ⟨e', he', hrest⟩ := ih hfirst
        exact ⟨e', List.mem_cons_of_mem _ he', hrest⟩

/-- A router that tries the endpoints in the order in which they were entered. -/
def Mux.inOrder : Mux where
  dispatch method path := firstFit method path endpoints
  sound _ _ _ _ h := .inr (fits_of_firstFit h)

/-! ## Authentication -/

/-- `[a-zA-Z0-9][…]*[a-zA-Z0-9]` for a class of characters in the middle. -/
def matchesEnds (middle : Char → Bool) (s : String) : Bool :=
  match s.toList with
  | [] => false
  | first :: rest =>
      match rest.getLast? with
      | none => false
      | some last =>
          Route.alphanumeric first && Route.alphanumeric last && rest.dropLast.all middle

/-- `eventUrlValidator`.  No class of characters contains the slash, so the parts of the path
match one by one. -/
def eventUrlValidator (path : String) : Bool :=
  match Jwt.split path '/' with
  | ["", "ears", "v1", "orgs", orgId, "applications", appId, "routes", routeId, "event"] =>
      matchesEnds Tenant.idCharacter orgId && matchesEnds Tenant.idCharacter appId &&
        matchesEnds Route.idCharacter routeId
  | _ => false

/-- The paths under which a token is verified without a tenant. -/
def globalPaths : List String :=
  ["/ears/v1/routes", "/ears/v1/senders", "/ears/v1/receivers", "/ears/v1/filters",
    "/ears/v1/fragments", "/ears/v1/tenants"]

/-- `authenticateMiddleware`. -/
def authenticateMiddleware (r : Request) (vars : Vars) (next : Answer Item) : Answer Item :=
  if r.path = "/ears/version" then next
  else if GoLib.hasPrefix r.path "/ears/openapi" then next
  else if GoLib.hasPrefix r.path "/eel/v1/events" || GoLib.hasPrefix r.path "/ears/v1/events" then
    next
  else if globalPaths.any (GoLib.hasPrefix r.path) then do
    verifyToken (getBearerToken r) r.path r.method none
    next
  else do
    let tid ← getTenant vars
    if eventUrlValidator r.path then next
    else do
      verifyToken (getBearerToken r) r.path r.method (some tid)
      next

/-- The handler of a name. -/
def handler (st : Settings) : HandlerName → Request → Vars → Answer Item
  | .version => fun _ _ => pure .version
  | .website => fun _ _ => pure .website
  | .addRoute => addRouteHandler
  | .sendEvent => sendEventHandler st
  | .reloadRoute => reloadRouteHandler
  | .enableDisableRoute => enableDisableRouteHandler
  | .removeRoute => removeRouteHandler
  | .getRoute => getRouteHandler
  | .getAllTenantRoutes => getAllTenantRoutesHandler
  | .getAllStatus kind => getAllStatusHandler kind
  | .addFragment => addFragmentHandler
  | .removeFragment => removeFragmentHandler
  | .getFragment => getFragmentHandler
  | .getAllTenantFragments => getAllTenantFragmentsHandler
  | .getTenantConfig => getTenantConfigHandler
  | .updateTenantConfig => updateTenantConfigHandler
  | .addTenantConfig => addTenantConfigHandler
  | .deleteTenantConfig => deleteTenantConfigHandler
  | .getAllRoutes => getAllRoutesHandler
  | .reloadAllRoutes => reloadAllRoutesHandler
  | .getAllTenantConfigs => getAllTenantConfigsHandler
  | .getAllFragments => getAllFragmentsHandler
  | .webhook => webhookHandler st

/-- What becomes of a request: `none` when there is no endpoint for it. -/
def serve (mux : Mux) (st : Settings) (r : Request) : Prog sig (Option (Except ApiError Item)) :=
  match mux.dispatch r.method r.path with
  | none => pure none
  | some (h, vars) => some <$> (authenticateMiddleware r vars (handler st h r vars)).run

/-! ## The nodes and the stores -/

/-- What a node keeps for itself. -/
structure Node where
  table : RoutingTable
  cache : AList fun _ : String => CachedTenantConfig

/-- The stores, the nodes and the number of calls so far. -/
structure World (ι : Type) where
  tenants : AList fun _ : Tenant.Id => TenantConfig
  routes : AList fun _ : Tenant.Id × String => Route.Config
  fragments : AList fun _ : Tenant.Id × String => Route.PluginConfig
  nodes : ι → Node
  calls : ℕ

/-- What happens at a call: the time in seconds, the error that storage answers with, and
whether it has done the write all the same, the answers of the plugins, the order in which a
map is visited, what becomes of an event, and the statuses of the plugins. -/
structure Env where
  now : ℤ
  fault : Option Error
  done : Bool
  plugins : ℕ → Answers
  order : List String
  routed : Except Error Routed
  statuses : List PluginStatus

/-- A cluster: the token verifier, whose tenant store is the shared one, the regions of the nodes
and what happens at each call. -/
structure Cluster (ι : Type) where
  verifier : Jwt.DefaultJWTConsumer
  region : ι → String
  env : ℕ → Env

namespace World

variable {ι : Type} [DecidableEq ι] (w : World ι)

/-- The answer to a read. -/
def read {α : Type} (e : Env) (found : Except Error α) : Except Error α :=
  match e.fault with
  | some err => .error err
  | none => found

/-- The answer to a write, and the world after it. -/
def write (e : Env) (w w' : World ι) : Except Error Unit × World ι :=
  match e.fault with
  | some err => (.error err, if e.done then w' else w)
  | none => (.ok (), w')

/-- What is stored for the tenant. -/
def config (tid : Tenant.Id) : Except Error TenantConfig :=
  match w.tenants.lookup tid with
  | some c => .ok c
  | none => .error (.tenantNotFound tid)

/-- The values of a store whose keys meet a condition. -/
def listed {κ α : Type} (s : AList fun _ : κ => α) (p : κ → Bool) : List α :=
  (s.entries.filter fun x => p x.1).map fun x => x.2

/-- Change what a node keeps. -/
def setNode (i : ι) (n : Node) : World ι := { w with nodes := Function.update w.nodes i n }

/-- Change the routing table of a node. -/
def setTable (i : ι) (t : RoutingTable) : World ι := w.setNode i { w.nodes i with table := t }

/-- Change the tenant cache of a node. -/
def setCache (i : ι) (cache : AList fun _ : String => CachedTenantConfig) : World ι :=
  w.setNode i { w.nodes i with cache := cache }

end World

/-- `Option` errors of the routing table as results. -/
def ofRegistration (r : Option RegistrationError) : Except Error Unit :=
  match r with
  | some err => .error (.plugin err)
  | none => .ok ()

namespace Cluster

variable {ι : Type} [DecidableEq ι] (cl : Cluster ι)

/-- `VerifyToken` with the stored tenants. -/
def verify (e : Env) (w : World ι) (token path method : String) (tid : Option Tenant.Id) :
    Except Error (List String × String) :=
  let storer (id : Tenant.Id) : Except Jwt.AuthError Jwt.TenantConfig :=
    match World.read e (w.config id) with
    | .ok c => .ok ⟨c.clientIds⟩
    | .error _ => .error (.other "could not read the tenant")
  match ({ cl.verifier with tenantStorer := storer }).verifyToken token path method tid with
  | .ok who => .ok who
  | .error err => .error (.auth err)

/-- `RouteEvent` on a node: there has to be a live route with a receiver. -/
def routeEvent (e : Env) (t : RoutingTable) (tid : Tenant.Id) (routeId : String) :
    Except Error Routed :=
  match t.liveRouteMap.lookup (tid.keyWithRoute routeId) with
  | none => .error (.other ("no route " ++ routeId))
  | some lrw =>
      match (t.wrappers lrw).receiver with
      | none => .error (.other ("no receiver for route " ++ routeId))
      | some _ => e.routed

/-- What a call on node `i` returns and does. -/
def perform (i : ι) (e : Env) (w : World ι) : (o : Op) → o.Res × World ι
  | .verifyToken token path method tid => (cl.verify e w token path method tid, w)
  | .getConfig tid => (World.read e (w.config tid), w)
  | .getAllConfigs => (World.read e (.ok (World.listed w.tenants fun _ => true)), w)
  | .setConfig c =>
      World.write e w
        { w with tenants := w.tenants.insert c.tenant { c with modified := e.now } }
  | .deleteConfig tid => World.write e w { w with tenants := w.tenants.erase tid }
  | .getRoute tid id =>
      (World.read e (match w.routes.lookup (tid, id) with
        | some c => .ok c
        | none => .error (.routeNotFound tid id)), w)
  | .getAllTenantRoutes tid => (World.read e (.ok (World.listed w.routes fun k => k.1 = tid)), w)
  | .setRoute c => World.write e w { w with routes := w.routes.insert (c.tenantId, c.id) c }
  | .deleteRoute tid id => World.write e w { w with routes := w.routes.erase (tid, id) }
  | .getFragment tid id =>
      (World.read e (match w.fragments.lookup (tid, id) with
        | some pc => .ok pc
        | none => .error (.other ("fragment " ++ id ++ " not found"))), w)
  | .getAllFragments => (World.read e (.ok (World.listed w.fragments fun _ => true)), w)
  | .getAllTenantFragments tid =>
      (World.read e (.ok (World.listed w.fragments fun k => k.1 = tid)), w)
  | .setFragment tid pc =>
      World.write e w { w with fragments := w.fragments.insert (tid, pc.fragmentName) pc }
  | .deleteFragment tid id =>
      World.write e w { w with fragments := w.fragments.erase (tid, id) }
  | .registerAndRunRoute c =>
      let r := (w.nodes i).table.registerAndRunRoute (cl.region i) c e.plugins
      (ofRegistration r.2, w.setTable i r.1)
  | .unregisterAndStopRoute tid routeId =>
      let r := (w.nodes i).table.unregisterAndStopRoute tid routeId
      (ofRegistration r.2, w.setTable i r.1)
  | .getAllRegisteredRoutes => ((w.nodes i).table.getAllRegisteredRoutes e.order, w)
  | .publishSyncRequest _ _ _ => ((), w)
  | .publishQuota _ => ((), w)
  | .getTenant tenantId =>
      if tenantId = "" then (none, w)
      else
        match (w.nodes i).cache.lookup tenantId with
        | none => (none, w)
        | some item =>
            if tenantCacheTtlSecs < e.now - item.ts then
              (none, w.setCache i ((w.nodes i).cache.erase tenantId))
            else (some item.config, w)
  | .setTenant c =>
      ((), w.setCache i ((w.nodes i).cache.insert c.tenant.key ⟨c, e.now⟩))
  | .routeEvent tid routeId _ => (routeEvent e (w.nodes i).table tid routeId, w)
  | .status _ => (e.statuses, w)

/-- The machine that runs requests; request `n` is served by the node `node n`. -/
def machine (node : ℕ → ι) : Machine sig ℕ (World ι) where
  handle n o w :=
    let r := cl.perform (node n) (cl.env w.calls) w o
    (r.1, { r.2 with calls := w.calls + 1 })
  started _ _ := true

/-- All requests before their first call. -/
def start (mux : Mux) (st : Settings) (requests : ℕ → Request) (w : World ι) :
    Threads sig ℕ (Option (Except ApiError Item)) (World ι) where
  state := w
  prog n := serve mux st (requests n)
  log _ := []

end Cluster

end Api
