/-
# The routing table (`internal/pkg/tablemgr/routing_table_manager.go`)

The routing table maps route keys to live routes, and route hashes to live routes.  Routes
with the same hash share one live route, which counts the keys that refer to it.

`registerAndRunRoute` holds the table's lock in three sections and not between them: it
looks the key up, it takes an existing route with another hash off the table
(`unregisterAndStopRoute`), and it enters the new route (`insertRoute`).  Each section is
a function here, and the method is their composition.

What storage, the fragment store and the plugins answer during a call is an argument.
Live routes are objects that are shared by reference, so they live in a heap.  The
configuration of a live route is a copy of the one that it was made from, but its filter chain
is the same array: when `AddRoute` gets a configuration with that array, from a storage that
hands out the array as well, it writes the fragments into the live route's configuration too.
-/
import Ears.LiveRoute
import Ears.Runs

open Plugin

namespace Json

/-- `v == nil`. -/
def isNull : Json → Bool
  | .null => true
  | _ => false

end Json

/-- `RouteValidationError`, `RouteRegistrationError`, or an error of the plugin manager or
another error passed on as it is. -/
inductive RouteError where
  | plain (text : String)
  | plugin (err : RegistrationError)
  | validation (text : String)
  | registration (err : RegistrationError)
  deriving DecidableEq, Repr

/-- The two tables, the live routes behind their entries (addresses from `next` on are
free) and the plugin manager. -/
structure RoutingTable where
  liveRouteMap : Finmap fun _ : String => ℕ
  routeHashMap : Finmap fun _ : String => ℕ
  wrappers : ℕ → LiveRouteWrapper
  next : ℕ
  pluginMgr : Manager

/-- What `AddRoute` reads from its surroundings: the fragment store, the answers of the
plugins and the error of `SetRoute`. -/
structure AddEnv where
  getFragment : Tenant.Id → String → Except String Route.PluginConfig
  plugins : ℕ → Answers
  setRoute : Option String := none

namespace RoutingTable

/-- `NewRoutingTableManager`: empty tables. -/
def empty : RoutingTable where
  liveRouteMap := ∅
  routeHashMap := ∅
  wrappers := fun _ => .newLiveRouteWrapper
    { id := "", tenantId := ⟨"", ""⟩, userId := "", receiver := ⟨"", "", .null, ""⟩,
      sender := ⟨"", "", .null, ""⟩ }
  next := 0
  pluginMgr := newManager

/-- Write the fields of a live route. -/
def setWrapper (t : RoutingTable) (w : ℕ) (lrw : LiveRouteWrapper) : RoutingTable :=
  { t with wrappers := Function.update t.wrappers w lrw }

/-! ## The locked sections -/

/-- `unregisterAndStopRoute`: take the key off the table, and stop the route if this was
the last reference. -/
def unregisterAndStopRoute (t : RoutingTable) (tid : Tenant.Id) (routeId : String) :
    RoutingTable × Option RegistrationError :=
  let key := tid.keyWithRoute routeId
  match t.liveRouteMap.lookup key with
  | none => (t, none)
  | some w =>
      let liveRoute := (t.wrappers w).removeRouteReference
      let t := { t.setWrapper w liveRoute with liveRouteMap := t.liveRouteMap.erase key }
      if liveRoute.refCnt = 0 then
        let r := liveRoute.unregister t.pluginMgr
        ({ t with
            routeHashMap := t.routeHashMap.erase liveRoute.config.hash
            pluginMgr := r.1 }, r.2)
      else (t, none)

/-- The last section of `registerAndRunRoute`: refer to a live route with the same hash, or
register a new one. -/
def insertRoute (t : RoutingTable) (c : Route.Config) (answers : ℕ → Answers) :
    RoutingTable × Option RegistrationError :=
  match t.routeHashMap.lookup c.hash with
  | some w =>
      ({ t.setWrapper w (t.wrappers w).addRouteReference with
          liveRouteMap := t.liveRouteMap.insert c.key w }, none)
  | none =>
      let r := (LiveRouteWrapper.newLiveRouteWrapper c).register t.pluginMgr answers
      let t' := { t.setWrapper t.next r.2.1 with next := t.next + 1, pluginMgr := r.1 }
      match r.2.2 with
      | some err => (t', some err)
      | none =>
          ({ t' with
              liveRouteMap := t.liveRouteMap.insert c.key t.next
              routeHashMap := t.routeHashMap.insert c.hash t.next }, none)

/-! ## `registerAndRunRoute` -/

/-- The route is meant to run here: it is active and its region is empty or ours. -/
def RunsHere (region : String) (c : Route.Config) : Prop :=
  (c.region = "" ∨ region = c.region) ∧ c.inactive = false

instance (region : String) (c : Route.Config) : Decidable (RunsHere region c) :=
  inferInstanceAs (Decidable (_ ∧ _))

/-- `registerAndRunRoute` after the existing route has been dealt with: routes of other
regions and inactive routes are ignored. -/
def startRoute (region : String) (t : RoutingTable) (c : Route.Config) (answers : ℕ → Answers) :
    RoutingTable × Option RegistrationError :=
  if c.region ≠ "" ∧ region ≠ c.region then (t, none)
  else if c.inactive then (t, none)
  else t.insertRoute c answers

/-- `registerAndRunRoute`.  An error of the unregistration is logged and ignored. -/
def registerAndRunRoute (region : String) (t : RoutingTable) (c : Route.Config)
    (answers : ℕ → Answers) : RoutingTable × Option RegistrationError :=
  match t.liveRouteMap.lookup c.key with
  | none => startRoute region t c answers
  | some w =>
      if (t.wrappers w).config.hash = c.hash then (t, none)
      else startRoute region (t.unregisterAndStopRoute c.tenantId c.id).1 c answers

/-! ## The methods of the table -/

/-- Replace a reference to a fragment by the fragment. -/
def inflate (getFragment : Tenant.Id → String → Except String Route.PluginConfig)
    (tid : Tenant.Id) (pc : Route.PluginConfig) : Except String Route.PluginConfig :=
  if pc.fragmentName = "" then .ok pc
  else
    match getFragment tid pc.fragmentName with
    | .error err => .error err
    | .ok fragment =>
        if fragment.plugin = "" then
          .error ("fragment " ++ pc.fragmentName ++ " has no plugin type")
        else if fragment.config.isNull then
          .error ("fragment " ++ pc.fragmentName ++ " has no config")
        else if pc.plugin ≠ "" ∧ pc.plugin ≠ fragment.plugin then
          .error ("fragment type mismatch " ++ pc.plugin ++ " vs " ++ fragment.plugin)
        else if pc.name ≠ "" then .ok { fragment with name := pc.name }
        else .ok fragment

/-- The loop of `AddRoute` over the filter chain, from the position `idx` on: what it writes
into the array of the chain, and the chain it ends with.  A write stays when a later filter
fails. -/
def inflateFilters (getFragment : Tenant.Id → String → Except String Route.PluginConfig)
    (tid : Tenant.Id) (idx : ℕ) : List Route.PluginConfig →
    List (ℕ × Route.PluginConfig) × Except String (List Route.PluginConfig)
  | [] => ([], .ok [])
  | filter :: filters =>
      match inflate getFragment tid filter with
      | .error err => ([], .error err)
      | .ok fragment =>
          let r := inflateFilters getFragment tid (idx + 1) filters
          (if filter.fragmentName = "" then r.1 else (idx, fragment) :: r.1,
            r.2.map (List.cons fragment))

/-- Use the hash as the id if there is none. -/
def withId (c : Route.Config) : Route.Config := if c.id = "" then { c with id := c.hash } else c

/-- `AddRoute` up to the registration: the fragments, the id and `Validate`. -/
def prepare (getFragment : Tenant.Id → String → Except String Route.PluginConfig) :
    Option Route.Config → Except RouteError Route.Config
  | none => .error (.plain "missing route config")
  | some c =>
      match inflate getFragment c.tenantId c.sender with
      | .error err => .error (.plain err)
      | .ok sender =>
      match inflate getFragment c.tenantId c.receiver with
      | .error err => .error (.plain err)
      | .ok receiver =>
      match (inflateFilters getFragment c.tenantId 0 c.filterChain).2 with
      | .error err => .error (.plain err)
      | .ok filterChain =>
      let c := withId { c with sender := sender, receiver := receiver, filterChain := filterChain }
      match c.validate with
      | .error err => .error (.validation err)
      | .ok () => .ok c

/-- What `AddRoute` writes into the array of the filter chain; it gets there when the sender
and the receiver could be inflated. -/
def filterWrites (getFragment : Tenant.Id → String → Except String Route.PluginConfig)
    (c : Route.Config) : List (ℕ × Route.PluginConfig) :=
  match inflate getFragment c.tenantId c.sender, inflate getFragment c.tenantId c.receiver with
  | .ok _, .ok _ => (inflateFilters getFragment c.tenantId 0 c.filterChain).1
  | _, _ => []

/-- The table after these writes: the live routes whose configuration has the same array see
them.  Fragments come out of storage as values, so nothing else is shared. -/
def writeFragments (t : RoutingTable)
    (getFragment : Tenant.Id → String → Except String Route.PluginConfig) :
    Option Route.Config → RoutingTable
  | none => t
  | some c =>
      { t with
        wrappers := fun w =>
          { t.wrappers w with
            config :=
              (t.wrappers w).config.writeFilters c.filterArray (filterWrites getFragment c) } }

/-- `AddRoute`: the configuration that was added, or the error. -/
def addRoute (region : String) (t : RoutingTable) (routeConfig : Option Route.Config)
    (env : AddEnv) : RoutingTable × Except RouteError Route.Config :=
  let t := t.writeFragments env.getFragment routeConfig
  match prepare env.getFragment routeConfig with
  | .error err => (t, .error err)
  | .ok c =>
      match t.registerAndRunRoute region c env.plugins with
      | (t, some err) => (t, .error (.registration err))
      | (t, none) =>
          match env.setRoute with
          | some err => ((t.unregisterAndStopRoute c.tenantId c.id).1, .error (.plain err))
          | none => (t, .ok c)

/-- `RemoveRoute`; `deleteRoute` is the error of `DeleteRoute`. -/
def removeRoute (t : RoutingTable) (tid : Tenant.Id) (routeId : String)
    (deleteRoute : Option String) : RoutingTable × Option RouteError :=
  if routeId = "" then (t, some (.plain "missing route ID"))
  else
    match t.unregisterAndStopRoute tid routeId with
    | (t, some err) => (t, some (.registration err))
    | (t, none) => (t, deleteRoute.map .plain)

/-- `SyncItem`; `getRoute` is what storage holds for the route. -/
def syncItem (region : String) (t : RoutingTable) (tid : Tenant.Id) (routeId : String) (add : Bool)
    (getRoute : Except String Route.Config) (answers : ℕ → Answers) :
    RoutingTable × Option RouteError :=
  if add then
    match getRoute with
    | .error err => (t, some (.plain err))
    | .ok c =>
        let r := t.registerAndRunRoute region c answers
        (r.1, r.2.map .plugin)
  else
    let r := t.unregisterAndStopRoute tid routeId
    (r.1, r.2.map .plugin)

/-! ## Runs -/

/-- A call, with the answers it gets. -/
inductive Op where
  | addRoute (routeConfig : Option Route.Config) (env : AddEnv)
  | removeRoute (tid : Tenant.Id) (routeId : String) (deleteRoute : Option String)
  | syncItem (tid : Tenant.Id) (routeId : String) (add : Bool)
      (getRoute : Except String Route.Config) (answers : ℕ → Answers)

/-- One call after the other. -/
def step (region : String) (t : RoutingTable) : Op → Option RoutingTable
  | .addRoute c env => some (t.addRoute region c env).1
  | .removeRoute tid routeId deleteRoute => some (t.removeRoute tid routeId deleteRoute).1
  | .syncItem tid routeId add getRoute answers =>
      some (t.syncItem region tid routeId add getRoute answers).1

end RoutingTable
