/-
# Route configurations (`pkg/route/types.go`, `pkg/hasher/hasher.go`)

A route takes events from a receiver through a chain of filters to a sender.  `Validate`
checks a configuration; `Hash` is the MD5 digest of its parts written one after the other
with nothing between them, and is what the routing table compares routes by.  The route id
is not part of the hash.

Of a configuration the fields that the routing table reads are modelled.
-/
import Ears.Json
import Ears.Md5
import Ears.Tenant

namespace Hasher

/-- `hasher.String(s)`: the MD5 digest of a text, in hexadecimal. -/
@[irreducible] def string (s : String) : String :=
  String.ofList (Md5.hexDigest (s.toUTF8.data.toList.map UInt8.toNat))

example : string "1234567890" = "e807f1fcf82d132f9bb018ca6738a19f" := by decide +kernel

theorem length_string (s : String) : (string s).toList.length = 32 := by
  unfold string
  rw [String.toList_ofList, Md5.length_hexDigest]

end Hasher

namespace Route

/-- `PluginConfig`: a plugin type, an optional label and the plugin's own configuration. -/
structure PluginConfig where
  plugin : String
  name : String := ""
  config : Json := .null
  fragmentName : String := ""

/-- `Config`.  `filterArray` is the address of the array behind `FilterChain`: copies of the
structure share it. -/
structure Config where
  id : String
  tenantId : Tenant.Id
  userId : String
  region : String := ""
  inactive : Bool := false
  name : String := ""
  receiver : PluginConfig
  sender : PluginConfig
  filterChain : List PluginConfig := []
  filterArray : ℕ := 0
  deliveryMode : String := ""

/-! ## Validate -/

/-- The class `[a-zA-Z0-9]`. -/
def alphanumeric (c : Char) : Bool :=
  ('a' ≤ c && c ≤ 'z') || ('A' ≤ c && c ≤ 'Z') || ('0' ≤ c && c ≤ '9')

/-- The class `[a-zA-Z0-9_\-\.]`. -/
def idCharacter (c : Char) : Bool := alphanumeric c || c == '_' || c == '-' || c == '.'

/-- `ROUTE_ID_REGEX`: at least two characters, the first and the last alphanumeric. -/
def matchesRouteId (s : String) : Bool :=
  match s.toList with
  | [] => false
  | first :: rest =>
      match rest.getLast? with
      | none => false
      | some last => alphanumeric first && alphanumeric last && rest.dropLast.all idCharacter

example : matchesRouteId "r-1" = true ∧ matchesRouteId "r" = false ∧
    matchesRouteId "r." = false := by decide

/-- `PluginConfig.Validate`. -/
def PluginConfig.validate (pc : PluginConfig) : Except String Unit :=
  if pc.plugin = "" then .error "missing plugin type configuration"
  else if pc.name ≠ "" ∧ matchesRouteId pc.name = false then
    .error ("invalid plugin name " ++ pc.name)
  else .ok ()

/-- The loop of `Validate` over the filter chain: the first error stops it. -/
def validateFilters : List PluginConfig → Except String Unit
  | [] => .ok ()
  | f :: fs =>
      match f.validate with
      | .error err => .error err
      | .ok () => validateFilters fs

/-- `Config.Validate`. -/
def Config.validate (rc : Config) : Except String Unit :=
  match rc.sender.validate with
  | .error err => .error err
  | .ok () =>
  match rc.receiver.validate with
  | .error err => .error err
  | .ok () =>
  match validateFilters rc.filterChain with
  | .error err => .error err
  | .ok () =>
  if rc.id = "" then .error "missing ID for plugin configuration"
  else if matchesRouteId rc.id = false then .error ("invalid route ID " ++ rc.id)
  else if rc.name ≠ "" ∧ matchesRouteId rc.name = false then
    .error ("invalid route name " ++ rc.name)
  else if rc.tenantId.orgId = "" then .error "missing org ID for plugin configuration"
  else if rc.tenantId.appId = "" then .error "missing app ID for plugin configuration"
  else if rc.userId = "" then .error "missing user ID for plugin configuration"
  else .ok ()

/-! ## Hash -/

/-- `stringify`, and the text of the configuration in `PluginConfig.Hash`: empty for a
missing configuration. -/
def stringify : Json → String
  | .null => ""
  | v => String.ofList v.marshal

/-- What `PluginConfig.Hash` digests. -/
def PluginConfig.hashText (pc : PluginConfig) : String :=
  pc.name ++ pc.plugin ++ stringify pc.config

/-- `PluginConfig.Hash`. -/
def PluginConfig.hash (pc : PluginConfig) : String := Hasher.string pc.hashText

/-- What `Config.Hash` digests. -/
def Config.hashText (rc : Config) : String :=
  rc.tenantId.orgId ++ rc.tenantId.appId ++ rc.name ++ rc.deliveryMode ++ rc.userId ++
    rc.region ++ (if rc.inactive then "off" else "") ++ rc.receiver.hash ++ rc.sender.hash ++
    rc.filterChain.foldl (fun str f => str ++ f.hash) ""

/-- `Config.Hash`. -/
def Config.hash (rc : Config) : String := Hasher.string rc.hashText

/-- The key of a route in the tables. -/
def Config.key (rc : Config) : String := rc.tenantId.keyWithRoute rc.id

/-- The configuration after writes into an array of filters. -/
def Config.writeFilters (rc : Config) (array : ℕ) (writes : List (ℕ × PluginConfig)) : Config :=
  if rc.filterArray = array then
    { rc with filterChain := writes.foldl (fun chain w => chain.set w.1 w.2) rc.filterChain }
  else rc

@[simp] theorem Config.writeFilters_nil (rc : Config) (array : ℕ) :
    rc.writeFilters array [] = rc := by
  unfold Config.writeFilters
  split <;> rfl

/-! ## Routes that the hash takes for one -/

/-- Two plugins of the same type and label with the same configuration. -/
def PluginConfig.Same (p q : PluginConfig) : Prop :=
  p.name = q.name ∧ p.plugin = q.plugin ∧ p.config = q.config

/-- Two configurations that agree on everything that is hashed. -/
structure Config.Same (c d : Config) : Prop where
  tenantId : c.tenantId = d.tenantId
  name : c.name = d.name
  deliveryMode : c.deliveryMode = d.deliveryMode
  userId : c.userId = d.userId
  region : c.region = d.region
  inactive : c.inactive = d.inactive
  receiver : c.receiver.Same d.receiver
  sender : c.sender.Same d.sender
  filterChain : List.Forall₂ PluginConfig.Same c.filterChain d.filterChain

theorem Config.Same.refl (c : Config) : c.Same c :=
  ⟨rfl, rfl, rfl, rfl, rfl, rfl, ⟨rfl, rfl, rfl⟩, ⟨rfl, rfl, rfl⟩,
    List.forall₂_same.mpr fun _ _ => ⟨rfl, rfl, rfl⟩⟩

/-- No two different routes among `cs` have the same hash. -/
def CollisionFree (cs : Set Config) : Prop :=
  ∀ c ∈ cs, ∀ d ∈ cs, c.hash = d.hash → c.Same d

end Route
