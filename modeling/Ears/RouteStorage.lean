/-
# The three route storers as one map (`internal/pkg/db`, `internal/pkg/db/redis`, `internal/pkg/db/dynamo`)

In memory the routes are in a map of maps, by the key of the tenant and the id of the route; Redis
has them in one hash and DynamoDB in one table, encoded, by the key of tenant and route.  So in
memory the routes of a tenant are those in its map, while the other two read all routes and keep
those that name the tenant.

`listings_exact`: the lists of all routes and of the routes of a tenant are those of the routes that
`GetRoute` returns, each once, whatever sets and deletions have failed before.  `storers_agree`: as
long as the backends answer, the three storers answer alike.
-/
import Ears.KeyedStore
import Ears.RouteTimes

open KeyedStore

namespace RouteStorer

variable {ν W : Type}

/-! ## Lists of routes -/

namespace InMemory

/-- The order in which a range goes through `tenants`, and through the routes of each of them. -/
structure Order where
  tenants : List String
  ids : String → List String

/-- `GetAllRoutes`. -/
def getAllRoutes (s : Table ν) (order : Order) : List (Config ν) :=
  order.tenants.flatMap fun t => (order.ids t).filterMap ((s t).getD fun _ => none)

/-- `GetAllTenantRoutes`. -/
def getAllTenantRoutes (s : Table ν) (id : Tenant.Id) (order : Order) : List (Config ν) :=
  match s id.key with
  | none => []
  | some t => (order.ids id.key).filterMap t

/-- The loop of `DeleteRoutes`. -/
def deleteEach (t : String → Option (Config ν)) (ids : List String) : String → Option (Config ν) :=
  ids.foldl (fun t id => Function.update t id none) t

/-- `DeleteRoutes`. -/
def deleteRoutes (s : Table ν) (tid : Tenant.Id) (ids : List String) : Table ν :=
  match s tid.key with
  | none => s
  | some t => Function.update s tid.key (some (deleteEach t ids))

end InMemory

namespace Redis

/-- `GetAllRoutes`, with the keys of what HGETALL returns. -/
def getAllRoutes (json : JsonCodec ν) (d : Table) (results : Except String (List String)) :
    Except StorerError (List (Config ν)) :=
  match results with
  | .error err => .error (.text ("could not get routes from redis: " ++ err))
  | .ok keys => (keys.filterMap d).mapM fun v => (json.decode v).mapError .text

/-- `GetAllTenantRoutes`. -/
def getAllTenantRoutes (json : JsonCodec ν) (d : Table) (tid : Tenant.Id)
    (results : Except String (List String)) : Except StorerError (List (Config ν)) :=
  match getAllRoutes json d results with
  | .error err => .error err
  | .ok routes => .ok (routes.filter fun route => route.tenantId = tid)

end Redis

namespace Dynamo

/-- `GetAllRoutes`, with the keys of the pages that the scans return. -/
def getAllRoutes (av : Codec ν W) (d : Table W) :
    List (Except String (List String)) → Except StorerError (List (Config ν))
  | [] => .ok []
  | .error err :: _ => .error (.getItem err)
  | .ok keys :: results =>
      match (keys.filterMap d).mapM fun item => (av.decode item).mapError .marshal with
      | .error err => .error err
      | .ok routes =>
          match getAllRoutes av d results with
          | .error err => .error err
          | .ok rest => .ok (routes ++ rest)

/-- `GetAllTenantRoutes`. -/
def getAllTenantRoutes (av : Codec ν W) (d : Table W) (tid : Tenant.Id)
    (results : List (Except String (List String))) : Except StorerError (List (Config ν)) :=
  match getAllRoutes av d results with
  | .error err => .error err
  | .ok routes => .ok (routes.filter fun route => route.tenantId = tid)

end Dynamo

/-! ## Storages -/

/-- The tenant and the id of a route. -/
abbrev Key := Tenant.Id × String

/-- The storers as a map. -/
def spec (ν : Type) : Spec Key (SetItem ν) (Config ν) StorerError Tenant.Id where
  key i := (i.config.tenantId, i.config.id)
  value i old := i.config.stamped (createdBy old i.now) i.now
  notFound k := .routeNotFound k.1 k.2
  group := Prod.fst

/-- The storer in memory. -/
def InMemory.storage (ν : Type) :
    Storage (Table ν) Order Key (SetItem ν) (Config ν) StorerError Tenant.Id where
  set s i := .ok (setRoute s i.config i.now)
  delete s k := .ok (deleteRoute s k.1 k.2)
  get s k := getRoute s k.1 k.2
  whole s order := Enumerates order.tenants s ∧
    ∀ t routes, s t = some routes → Enumerates (order.ids t) routes
  getAll s order := .ok (getAllRoutes s order)
  getGroup s order tid := .ok (getAllTenantRoutes s tid order)

/-- The storer for Redis, when it answers. -/
def Redis.storage (json : JsonCodec ν) :
    Storage Table (List String) Key (SetItem ν) (Config ν) StorerError Tenant.Id where
  set d i := setRoute json d i.config i.now i.faults
  delete d k := deleteRoute d k.1 k.2 {}
  get d k := getRoute json d k.1 k.2 none
  whole d keys := Enumerates keys d
  getAll d keys := getAllRoutes json d (.ok keys)
  getGroup d keys tid := getAllTenantRoutes json d tid (.ok keys)

/-- The storer for DynamoDB, when it answers. -/
def Dynamo.storage (av : Codec ν W) :
    Storage (Table W) (List (List String)) Key (SetItem ν) (Config ν) StorerError Tenant.Id where
  set d i := setRoute av d i.config i.now i.faults
  delete d k := deleteRoute d k.1 k.2 {}
  get d k := getRoute av d k.1 k.2 none
  whole d pages := Enumerates pages.flatten d
  getAll d pages := getAllRoutes av d (pages.map .ok)
  getGroup d pages tid := getAllTenantRoutes av d tid (pages.map .ok)

/-! ## In memory -/

namespace InMemory

/-- A route is kept under its own tenant and id. -/
def Filed (s : Table ν) : Prop :=
  ∀ t routes id c, s t = some routes → routes id = some c → t = c.tenantId.key ∧ id = c.id

/-- The stored routes. -/
def lookup (s : Table ν) (k : Key) : Option (Config ν) := (s k.1.key).bind fun routes => routes k.2

/-- `GetRoute` finds the stored routes. -/
theorem lookup_eq (s : Table ν) (k : Key) : lookup s k = (storer ν).get s k.1 k.2 :=
  (get_eq s k.1 k.2).symm

/-- `SetRoute` sets one route. -/
theorem lookup_setRoute (s : Table ν) (i : SetItem ν) :
    lookup (setRoute s i.config i.now) = (spec ν).set (lookup s) i := by
  funext ⟨tid, id⟩
  have hset := setTo s i
  rw [lookup_eq]
  unfold Spec.set
  by_cases hkey : i.config.tenantId = tid ∧ i.config.id = id
  · obtain ⟨rfl, rfl⟩ := hkey
    rw [show (i.config.tenantId, i.config.id) = (spec ν).key i from rfl, Function.update_self]
    exact hset.stored.trans (congrArg some (by rw [lookup_eq]; rfl))
  · show _ = Function.update (lookup s) (i.config.tenantId, i.config.id) _ (tid, id)
    rw [Function.update_of_ne fun h => hkey ((Prod.mk.inj h).imp Eq.symm Eq.symm), lookup_eq]
    exact hset.others tid id hkey

/-- `DeleteRoute` deletes one route. -/
theorem lookup_deleteRoute (s : Table ν) (k : Key) :
    lookup (deleteRoute s k.1 k.2) = Spec.erase (lookup s) k := by
  funext ⟨tid, id⟩
  rw [lookup_eq, get_deleteRoute, Spec.erase, Function.update_apply, lookup_eq]
  simp only [Prod.ext_iff, eq_comm]

/-- `SetRoute` files routes under their tenant and id. -/
theorem Filed.setRoute {s : Table ν} (h : Filed s) (i : SetItem ν) :
    Filed (setRoute s i.config i.now) := by
  rw [setRoute_eq]
  intro t routes id c hroutes hc
  rw [Function.update_apply] at hroutes
  split at hroutes
  · rename_i ht
    obtain rfl := Option.some.inj hroutes
    rw [Function.update_apply] at hc
    split at hc
    · rename_i hid
      obtain rfl := Option.some.inj hc
      exact ⟨ht, hid⟩
    · cases hs : s i.config.tenantId.key with
      | none =>
          rw [hs] at hc
          cases hc
      | some old =>
          rw [hs] at hc
          rw [ht]
          exact h _ old id c hs hc
  · exact h t routes id c hroutes hc

theorem Filed.deleteRoute {s : Table ν} (h : Filed s) (tid : Tenant.Id) (id : String) :
    Filed (deleteRoute s tid id) := by
  unfold InMemory.deleteRoute
  split
  · exact h
  · rename_i old hold
    intro t routes id' c hroutes hc
    rw [Function.update_apply] at hroutes
    split at hroutes
    · rename_i ht
      obtain rfl := Option.some.inj hroutes
      rw [Function.update_apply] at hc
      split at hc
      · cases hc
      · rw [ht]
        exact h _ old id' c hold hc
    · exact h t routes id' c hroutes hc

/-- `GetAllRoutes` goes through all routes. -/
theorem lists_getAllRoutes {s : Table ν} (h : Filed s) {order : Order}
    (hwhole : (storage ν).whole s order) : Lists (lookup s) (getAllRoutes s order) := by
  have hinj : Function.Injective fun k : Key => (k.1.key, k.2) := by
    intro k k' heq
    obtain ⟨hkey, hid⟩ := Prod.mk.inj heq
    exact Prod.ext (Tenant.key_inj.mp hkey) hid
  have hlists := listsOn_of_encoded hinj (fun k c hc => ?_) (enumerates_nested hwhole.1 hwhole.2)
  · rw [List.filterMap_flatMap] at hlists
    have hall : getAllRoutes s order = order.tenants.flatMap fun t =>
        ((order.ids t).map fun id => (t, id)).filterMap fun k => (s k.1).bind fun u => u k.2 := by
      unfold getAllRoutes
      refine List.flatMap_congr fun t _ => ?_
      rw [List.filterMap_map]
      refine List.filterMap_congr fun id _ => ?_
      show (s t).getD (fun _ => none) id = (s t).bind fun u => u id
      cases s t <;> rfl
    rw [hall]
    exact hlists
  · obtain ⟨routes, hroutes, hc⟩ := Option.bind_eq_some_iff.mp hc
    obtain ⟨ht, hid⟩ := h k.1 routes k.2 c hroutes hc
    exact ⟨(c.tenantId, c.id), Prod.ext ht hid⟩

/-- `GetAllTenantRoutes` goes through the routes of the tenant. -/
theorem listsOn_getAllTenantRoutes {s : Table ν} {order : Order}
    (hwhole : (storage ν).whole s order) (tid : Tenant.Id) :
    ListsOn (fun k : Key => k.1 = tid) (lookup s) (getAllTenantRoutes s tid order) := by
  unfold getAllTenantRoutes
  cases hs : s tid.key with
  | none =>
      refine ⟨[], List.nodup_nil, ?_, rfl⟩
      rintro ⟨tid', id⟩
      constructor
      · intro h
        cases h
      · rintro ⟨rfl, c, hc⟩
        unfold lookup at hc
        rw [hs] at hc
        cases hc
  | some routes =>
      have horder := hwhole.2 _ routes hs
      have hlookup : ∀ id, lookup s (tid, id) = routes id := by
        intro id
        unfold lookup
        rw [hs]
        rfl
      refine ⟨(order.ids tid.key).map fun id => (tid, id),
        horder.nodup.map (Prod.mk_right_injective tid), ?_, ?_⟩
      · rintro ⟨tid', id⟩
        rw [List.mem_map]
        constructor
        · rintro ⟨id', hid', heq⟩
          obtain ⟨rfl, rfl⟩ := Prod.mk.inj heq
          obtain ⟨c, hc⟩ := (horder.mem_iff id').mp hid'
          exact ⟨rfl, c, (hlookup id').trans hc⟩
        · rintro ⟨rfl, c, hc⟩
          exact ⟨id, (horder.mem_iff id).mpr ⟨c, (hlookup id).symm.trans hc⟩, rfl⟩
      · rw [List.filterMap_map]
        exact List.filterMap_congr fun id _ => (hlookup id).symm

/-- The storer in memory is the map. -/
theorem lawful : (storage ν).Lawful (spec ν) Filed lookup (fun _ => True) fun _ => True where
  set s i h _ := ⟨_, rfl, h.setRoute i, lookup_setRoute s i⟩
  delete s k h _ := ⟨_, rfl, h.deleteRoute k.1 k.2, lookup_deleteRoute s k⟩
  get s k _ := by
    show getRoute s k.1 k.2 = (lookup s k).elim _ _
    unfold getRoute lookup
    cases s k.1.key with
    | none => rfl
    | some routes =>
        dsimp only [Option.bind_some]
        cases routes k.2 <;> rfl
  getAll _ _ h hwhole := ⟨_, rfl, lists_getAllRoutes h hwhole⟩
  getGroup _ _ tid _ hwhole := ⟨_, rfl, listsOn_getAllTenantRoutes hwhole tid⟩

end InMemory

/-! ## Tables with one key for a route -/

/-- The key of tenant and route determines both. -/
theorem key_injective : Function.Injective fun k : Key => k.1.keyWithRoute k.2 := by
  intro k k' h
  obtain ⟨htid, hid⟩ := Tenant.keyWithRoute_inj.mp h
  exact Prod.ext htid hid

/-- The configuration is read back as it was written, whatever its times are. -/
def RoundTrips (av : Codec ν W) (r : Config ν) : Prop :=
  ∀ created modified, ∃ w, av.encode (r.stamped created modified) = .ok w ∧
    av.decode w = .ok (r.stamped created modified)

/-- What is read back names the same tenant and route. -/
def KeepsKey (av : Codec ν W) : Prop :=
  ∀ c w c', av.encode c = .ok w → av.decode w = .ok c' → c'.tenantId = c.tenantId ∧ c'.id = c.id

/-- Each route of the table can be read, and is under the key of its own tenant and id. -/
def Filed (av : Codec ν W) (d : String → Option W) : Prop :=
  ∀ x w, d x = some w → ∃ c, av.decode w = .ok c ∧ x = c.tenantId.keyWithRoute c.id

/-- The routes that can be read. -/
def decoded (av : Codec ν W) (d : String → Option W) (x : String) : Option (Config ν) :=
  (d x).bind fun w => (av.decode w).toOption

/-- The stored routes. -/
def lookup (av : Codec ν W) (d : String → Option W) (k : Key) : Option (Config ν) :=
  decoded av d (k.1.keyWithRoute k.2)

section Tables

variable {av : Codec ν W} {d : String → Option W}

/-- Writing an item sets the route of its key. -/
theorem lookup_update {k : Key} {w : Option W} :
    lookup av (Function.update d (k.1.keyWithRoute k.2) w) =
      Function.update (lookup av d) k (w.bind fun w => (av.decode w).toOption) := by
  funext k'
  unfold lookup decoded
  rw [Function.update_apply, Function.update_apply]
  by_cases h : k' = k
  · rw [if_pos h, if_pos (by rw [h])]
  · rw [if_neg h, if_neg fun hkey => h (key_injective hkey)]

theorem Filed.update (h : Filed av d) {c : Config ν} {w : W} (hw : av.decode w = .ok c) :
    Filed av (Function.update d (c.tenantId.keyWithRoute c.id) (some w)) := by
  intro x w' hx
  rw [Function.update_apply] at hx
  split at hx
  · rename_i heq
    obtain rfl := Option.some.inj hx
    exact ⟨c, hw, heq⟩
  · exact h x w' hx

theorem Filed.erase (h : Filed av d) (x : String) : Filed av (Function.update d x none) := by
  intro x' w hx
  rw [Function.update_apply] at hx
  split at hx
  · cases hx
  · exact h x' w hx

/-- A route is under its own key. -/
theorem Filed.key_of_decoded (h : Filed av d) {x : String} {c : Config ν}
    (hc : decoded av d x = some c) : x = c.tenantId.keyWithRoute c.id := by
  obtain ⟨w, hw, hdecode⟩ := Option.bind_eq_some_iff.mp hc
  obtain ⟨c', hc', rfl⟩ := h x w hw
  rw [hc'] at hdecode
  obtain rfl := Option.some.inj hdecode
  rfl

/-- A route that is found is one of the tenant, with the id. -/
theorem Filed.key_eq (h : Filed av d) {k : Key} {c : Config ν} (hc : lookup av d k = some c) :
    (c.tenantId, c.id) = k := by
  obtain ⟨htid, hid⟩ := Tenant.keyWithRoute_inj.mp (h.key_of_decoded hc)
  exact Prod.ext htid.symm hid.symm

/-- All routes of a table are read. -/
theorem Filed.lists (h : Filed av d) {xs : List String} (hxs : Enumerates xs d) {ε : Type}
    (f : String → ε) : ∃ rs, (xs.filterMap d).mapM (fun w => (av.decode w).mapError f) = .ok rs ∧
      rs = xs.filterMap (decoded av d) ∧ Lists (lookup av d) rs := by
  have htoOption : ∀ w, ((av.decode w).mapError f).toOption = (av.decode w).toOption := by
    intro w
    cases av.decode w <;> rfl
  have hok : ∀ x w, d x = some w → ∃ c, (av.decode w).mapError f = .ok c := by
    intro x w hw
    obtain ⟨c, hc, -⟩ := h x w hw
    refine ⟨c, ?_⟩
    rw [hc]
    rfl
  obtain ⟨henum, hread⟩ := hxs.read hok
  simp only [htoOption] at henum hread
  refine ⟨_, hread, rfl, listsOn_of_encoded key_injective (fun x c hc => ?_) henum⟩
  exact ⟨(c.tenantId, c.id), h.key_of_decoded hc⟩

/-- The routes that name a tenant are those under its keys. -/
theorem Filed.listsOn_filter (h : Filed av d) {rs : List (Config ν)}
    (hrs : Lists (lookup av d) rs) (tid : Tenant.Id) :
    ListsOn (fun k : Key => k.1 = tid) (lookup av d)
      (rs.filter fun route => route.tenantId = tid) := by
  refine ListsOn.filter hrs fun k c hc => ?_
  rw [← h.key_eq hc]
  exact decide_eq_true_iff

end Tables

/-! ## Redis -/

namespace Redis

variable {json : JsonCodec ν} {d d' : Table}

/-- Each route of the hash can be read; the empty text is none. -/
def Filed (json : JsonCodec ν) (d : Table) : Prop :=
  RouteStorer.Filed json.toCodec d ∧ ∀ x w, d x = some w → w ≠ ""

theorem filed_empty (json : JsonCodec ν) : Filed json (storer json).empty := by
  constructor
  · intro x w h
    cases h
  · intro x w h
    cases h

/-- `GetRoute` answers as the map does. -/
theorem Filed.getRoute_eq (h : Filed json d) (k : Key) :
    getRoute json d k.1 k.2 none = (spec ν).answer (lookup json.toCodec d) k := by
  unfold getRoute Spec.answer lookup decoded
  dsimp only
  cases hw : d (k.1.keyWithRoute k.2) with
  | none => rfl
  | some w =>
      dsimp only [Option.bind_some]
      obtain ⟨c, hc, -⟩ := h.1 _ w hw
      rw [if_neg (h.2 _ w hw), hc]
      rfl

theorem Filed.get_eq (h : Filed json d) (k : Key) :
    (storer json).get d k.1 k.2 = lookup json.toCodec d k := by
  show (getRoute json d k.1 k.2 none).toOption = _
  rw [h.getRoute_eq, Spec.answer]
  cases lookup json.toCodec d k <;> rfl

/-- A route that is written can be read. -/
theorem Filed.update (h : Filed json d) {r c : Config ν} {w : String}
    (hw : json.encode r = .ok w) (hc : json.decode w = .ok c) :
    Filed json (Function.update d (c.tenantId.keyWithRoute c.id) (some w)) := by
  refine ⟨h.1.update hc, fun x w' hx => ?_⟩
  rw [Function.update_apply] at hx
  split at hx
  · obtain rfl := Option.some.inj hx
    exact json.encode_ne_empty _ w hw
  · exact h.2 x w' hx

/-- A set that goes through. -/
theorem Filed.setRoute (h : Filed json d) (hkeys : KeepsKey json.toCodec) {i : SetItem ν}
    (hset : setRoute json d i.config i.now i.faults = .ok d') : Filed json d' := by
  obtain ⟨-, w, hw, rfl⟩ := setRoute_eq_ok.mp hset
  obtain ⟨c, hc, -⟩ := json.decode_encode _ w hw
  obtain ⟨htid, hid⟩ := hkeys _ w c hw hc
  have hfiled := h.update hw hc
  rw [htid, hid] at hfiled
  exact hfiled

theorem Filed.erase (h : Filed json d) (x : String) : Filed json (Function.update d x none) := by
  refine ⟨h.1.erase x, fun x' w hx => ?_⟩
  rw [Function.update_apply] at hx
  split at hx
  · cases hx
  · exact h.2 x' w hx

/-- The items that Redis stores: the route has an id, and a text that gives it back. -/
def Fits (json : JsonCodec ν) (i : SetItem ν) : Prop :=
  i.faults = {} ∧ i.config.id ≠ "" ∧ RoundTrips json.toCodec i.config

theorem set_spec (h : Filed json d) {i : SetItem ν} (hi : Fits json i) :
    ∃ d', setRoute json d i.config i.now i.faults = .ok d' ∧ Filed json d' ∧
      lookup json.toCodec d' = (spec ν).set (lookup json.toCodec d) i := by
  obtain ⟨hfaults, hid, hround⟩ := hi
  have hcreated : createdAt json d i =
      createdBy (lookup json.toCodec d (i.config.tenantId, i.config.id)) i.now := by
    rw [← h.get_eq, createdAt, hfaults]
    rfl
  obtain ⟨w, hw, hdecode⟩ := hround (createdAt json d i) i.now
  have hset : setRoute json d i.config i.now i.faults = .ok
      (Function.update d (i.config.tenantId.keyWithRoute i.config.id) (some w)) := by
    refine setRoute_eq_ok.mpr ⟨⟨hid, by rw [hfaults], ?_⟩, w, hw, rfl⟩
    rw [hw]
    rfl
  have hfiled := h.update hw hdecode
  refine ⟨_, hset, hfiled, ?_⟩
  rw [lookup_update (k := (i.config.tenantId, i.config.id)), Option.bind_some, hdecode, hcreated]
  rfl

/-- The storer for Redis is the map. -/
theorem lawful (json : JsonCodec ν) : (storage json).Lawful (spec ν) (Filed json)
    (lookup json.toCodec) (Fits json) fun k => k.2 ≠ "" where
  set _ _ h hi := set_spec h hi
  delete d k h hk := by
    refine ⟨_, ?_, h.erase (k.1.keyWithRoute k.2), lookup_update⟩
    show deleteRoute d k.1 k.2 {} = _
    rw [deleteRoute, if_neg hk]
  get _ k h := h.getRoute_eq k
  getAll d keys h hwhole := by
    obtain ⟨rs, hrs, -, hlists⟩ := h.1.lists hwhole StorerError.text
    exact ⟨rs, hrs, hlists⟩
  getGroup d keys tid h hwhole := by
    obtain ⟨rs, hrs, -, hlists⟩ := h.1.lists hwhole StorerError.text
    refine ⟨_, ?_, h.1.listsOn_filter hlists tid⟩
    show getAllTenantRoutes json d tid (.ok keys) = _
    unfold getAllTenantRoutes
    rw [show getAllRoutes json d (.ok keys) = .ok rs from hrs]

end Redis

/-! ## DynamoDB -/

namespace Dynamo

variable {av : Codec ν W} {d d' : Table W}

theorem getRoute_eq (h : Filed av d) (k : Key) :
    getRoute av d k.1 k.2 none = (spec ν).answer (lookup av d) k := by
  unfold getRoute Spec.answer lookup decoded
  dsimp only
  cases hw : d (k.1.keyWithRoute k.2) with
  | none => rfl
  | some w =>
      dsimp only [Option.bind_some]
      obtain ⟨c, hc, -⟩ := h _ w hw
      rw [hc]
      rfl

/-- A set that goes through. -/
theorem filed_setRoute (h : Filed av d) (hkeys : KeepsKey av) {i : SetItem ν}
    (hset : setRoute av d i.config i.now i.faults = .ok d') : Filed av d' := by
  obtain ⟨w, hw, rfl⟩ := setRoute_eq_ok hset
  obtain ⟨c, hc, -⟩ := av.decode_encode _ w hw
  obtain ⟨htid, hid⟩ := hkeys _ w c hw hc
  have hfiled := h.update hc
  rw [htid, hid] at hfiled
  exact hfiled

/-- The items that DynamoDB stores: the route is read back as it is written. -/
def Fits (av : Codec ν W) (i : SetItem ν) : Prop := i.faults = {} ∧ RoundTrips av i.config

theorem set_spec (h : Filed av d) {i : SetItem ν} (hi : Fits av i) :
    ∃ d', setRoute av d i.config i.now i.faults = .ok d' ∧ Filed av d' ∧
      lookup av d' = (spec ν).set (lookup av d) i := by
  obtain ⟨hfaults, hround⟩ := hi
  have hold := getRoute_eq h (i.config.tenantId, i.config.id)
  have hput : setRoute av d i.config i.now i.faults = putRoute av d i.config i.now
      (lookup av d (i.config.tenantId, i.config.id)) none := by
    unfold setRoute
    rw [hfaults]
    dsimp only at hold ⊢
    rw [hold, Spec.answer]
    cases lookup av d (i.config.tenantId, i.config.id) <;> rfl
  obtain ⟨w, hw, hdecode⟩ :=
    hround (createdBy (lookup av d (i.config.tenantId, i.config.id)) i.now) i.now
  rw [putRoute_eq, putItem, hw] at hput
  refine ⟨_, hput, h.update hdecode, ?_⟩
  show lookup av (Function.update d (i.config.tenantId.keyWithRoute i.config.id) (some w)) = _
  rw [lookup_update (k := (i.config.tenantId, i.config.id)), Option.bind_some, hdecode]
  rfl

/-- Pages that are all returned are read one after the other. -/
theorem getAllRoutes_eq (h : Filed av d) {pages : List (List String)} :
    getAllRoutes av d (pages.map .ok) = .ok (pages.flatten.filterMap (decoded av d)) := by
  induction pages with
  | nil => rfl
  | cons keys pages ih =>
      have hread : (keys.filterMap d).mapM (fun item => (av.decode item).mapError StorerError.marshal) =
          .ok (keys.filterMap (decoded av d)) := by
        rw [mapM_eq_ok, List.filterMap_filterMap]
        · congr 1
          refine List.filterMap_congr fun x _ => ?_
          unfold decoded
          cases d x with
          | none => rfl
          | some w =>
              show ((av.decode w).mapError _).toOption = (av.decode w).toOption
              cases av.decode w <;> rfl
        · intro w hw
          obtain ⟨x, -, hx⟩ := List.mem_filterMap.mp hw
          obtain ⟨c, hc, -⟩ := h x w hx
          exact ⟨c, by rw [hc]; rfl⟩
      rw [List.map_cons, getAllRoutes, hread, ih, List.flatten_cons, List.filterMap_append]

/-- The storer for DynamoDB is the map. -/
theorem lawful (av : Codec ν W) : (storage av).Lawful (spec ν) (Filed av) (lookup av) (Fits av)
    fun _ => True where
  set _ _ h hi := set_spec h hi
  delete _ k h _ := ⟨_, rfl, h.erase (k.1.keyWithRoute k.2), lookup_update⟩
  get _ k h := getRoute_eq h k
  getAll d pages h hwhole := by
    obtain ⟨rs, -, rfl, hlists⟩ := h.lists hwhole StorerError.marshal
    exact ⟨_, getAllRoutes_eq h, hlists⟩
  getGroup d pages tid h hwhole := by
    obtain ⟨rs, -, rfl, hlists⟩ := h.lists hwhole StorerError.marshal
    refine ⟨_, ?_, h.listsOn_filter hlists tid⟩
    show getAllTenantRoutes av d tid (pages.map .ok) = _
    unfold getAllTenantRoutes
    rw [getAllRoutes_eq h]

end Dynamo

/-! ## Lists and failures -/

/-- `GetRoute` returns a route that names the tenant and the id, or says that there is none; and the
lists of all routes and of the routes of a tenant are those of the routes that it returns. -/
structure Exact {T V : Type} (S : Storage T V Key (SetItem ν) (Config ν) StorerError Tenant.Id)
    (t : T) : Prop where
  own : ∀ k c, S.get t k = .ok c → (c.tenantId, c.id) = k
  absent : ∀ k err, S.get t k = .error err → err = .routeNotFound k.1 k.2
  all : ∀ v, S.whole t v →
    ∃ rs, S.getAll t v = .ok rs ∧ Lists (fun k => (S.get t k).toOption) rs
  tenant : ∀ v tid, S.whole t v →
    ∃ rs, S.getGroup t v tid = .ok rs ∧
      ListsOn (fun k => k.1 = tid) (fun k => (S.get t k).toOption) rs

/-- An implementation of the map is exact. -/
theorem Exact.of_lawful {T V : Type}
    {S : Storage T V Key (SetItem ν) (Config ν) StorerError Tenant.Id} {Keeps : T → Prop}
    {lookup : T → Key → Option (Config ν)} {Item : SetItem ν → Prop} {P : Key → Prop} {t : T}
    (h : S.Lawful (spec ν) Keeps lookup Item P) (ht : Keeps t)
    (hown : ∀ k c, lookup t k = some c → (c.tenantId, c.id) = k) : Exact S t := by
  have hget : ∀ k, (lookup t k = none ∧ S.get t k = .error (.routeNotFound k.1 k.2)) ∨
      ∃ c, lookup t k = some c ∧ S.get t k = .ok c := by
    intro k
    rw [h.get t k ht, Spec.answer]
    cases lookup t k with
    | none => exact .inl ⟨rfl, rfl⟩
    | some c => exact .inr ⟨c, rfl, rfl⟩
  have hlookup : (fun k => (S.get t k).toOption) = lookup t := by
    funext k
    obtain ⟨hnone, herr⟩ | ⟨c, hc, hok⟩ := hget k
    · rw [herr, hnone]
      rfl
    · rw [hok, hc]
      rfl
  constructor
  · intro k c hc
    obtain ⟨-, herr⟩ | ⟨c', hc', hok⟩ := hget k
    · rw [herr] at hc
      cases hc
    · rw [hok] at hc
      obtain rfl := Except.ok.inj hc
      exact hown k _ hc'
  · intro k err hk
    obtain ⟨-, herr⟩ | ⟨c, -, hok⟩ := hget k
    · rw [herr] at hk
      exact (Except.error.inj hk).symm
    · rw [hok] at hk
      cases hk
  · rw [hlookup]
    exact fun v => h.getAll t v ht
  · rw [hlookup]
    exact fun v tid => h.getGroup t v tid ht

/-- What a step keeps when it goes through is kept by every run. -/
theorem kept_of_run {T : Type} {st : Storer ν T} {Keeps : T → Prop} (h₀ : Keeps st.empty)
    (hset : ∀ t t' i, Keeps t → st.set t i = .ok t' → Keeps t')
    (hdelete : ∀ t t' tid id faults, Keeps t → st.delete t tid id faults = .ok t' → Keeps t')
    {as : List (Step ν)} {s : Store T} (hrun : Runs.run st.step st.start as = some s) :
    Keeps s.table := by
  refine Runs.run_induction (P := fun s => Keeps s.table) (fun s a s' hs hstep => ?_) h₀ hrun
  cases a with
  | set i =>
      obtain rfl := Option.some.inj hstep
      unfold Storer.setOne
      cases h : st.set s.table i with
      | error err => exact hs
      | ok t => exact hset _ _ i hs h
  | delete tid id faults =>
      obtain rfl := Option.some.inj hstep
      unfold Storer.deleteOne
      cases h : st.delete s.table tid id faults with
      | error err => exact hs
      | ok t => exact hdelete _ _ tid id faults hs h

theorem InMemory.exact_of_run {as : List (Step ν)} {s : Store (InMemory.Table ν)}
    (hrun : Runs.run (storer ν).step (storer ν).start as = some s) : Exact (storage ν) s.table := by
  have hfiled : Filed s.table := by
    refine kept_of_run (fun _ _ _ _ h => by cases h) ?_ ?_ hrun
    · intro t t' i ht h
      obtain rfl := Except.ok.inj h
      exact ht.setRoute i
    · intro t t' tid id faults ht h
      obtain rfl := Except.ok.inj h
      exact ht.deleteRoute tid id
  refine .of_lawful lawful hfiled fun k c hc => ?_
  obtain ⟨routes, hroutes, hc⟩ := Option.bind_eq_some_iff.mp hc
  obtain ⟨htid, hid⟩ := hfiled _ routes k.2 c hroutes hc
  exact Prod.ext (Tenant.key_inj.mp htid).symm hid.symm

theorem Redis.exact_of_run {json : JsonCodec ν} (hkeys : KeepsKey json.toCodec)
    {as : List (Step ν)} {s : Store Redis.Table}
    (hrun : Runs.run (storer json).step (storer json).start as = some s) :
    Exact (storage json) s.table := by
  have hfiled : Filed json s.table := by
    refine kept_of_run (filed_empty json) ?_ ?_ hrun
    · exact fun _ _ _ ht h => ht.setRoute hkeys h
    · intro t t' tid id faults ht h
      unfold storer deleteRoute at h
      dsimp only at h
      split at h
      · cases h
      · split at h
        · cases h
        · obtain rfl := Except.ok.inj h
          exact ht.erase _
  exact .of_lawful (lawful json) hfiled fun _ _ => hfiled.1.key_eq

theorem Dynamo.exact_of_run {av : Codec ν W} (hkeys : KeepsKey av) {as : List (Step ν)}
    {s : Store (Dynamo.Table W)}
    (hrun : Runs.run (storer av).step (storer av).start as = some s) :
    Exact (storage av) s.table := by
  have hfiled : Filed av s.table := by
    refine kept_of_run (fun _ _ h => by cases h) ?_ ?_ hrun
    · exact fun _ _ _ ht h => filed_setRoute ht hkeys h
    · intro t t' tid id faults ht h
      unfold storer deleteRoute at h
      dsimp only at h
      split at h
      · cases h
      · obtain rfl := Except.ok.inj h
        exact ht.erase _
  exact .of_lawful (lawful av) hfiled fun _ _ => hfiled.key_eq

/-! ## A route and its text -/

/-- The text of a route, up to its times. -/
def textHead : String :=
  "\x7b\"id\":\"r1\",\"tenant\":\x7b\"orgId\":\"org\",\"appId\":\"app\"\x7d,\"userId\":\"u\"," ++
    "\"inactive\":false,\"receiver\":\x7b\"plugin\":\"debug\"\x7d,\"sender\":\x7b\"plugin\":\"debug\"\x7d," ++
    "\"created\":"

/-- The text with the times. -/
def textOf (created modified : ℤ) : String :=
  textHead ++ (created.repr ++ ",\"modified\":" ++ modified.repr ++ "\x7d")

/-- The times of a text. -/
def timesOf (w : String) : Option (ℤ × ℤ) :=
  match (w.toList.drop textHead.length).splitOn ',' with
  | [created, modified] =>
      (String.ofList created).toInt?.bind fun c =>
        (String.ofList ((modified.drop 11).take (modified.length - 12))).toInt?.map fun m => (c, m)
  | _ => none

/-- No comma stands in a number. -/
theorem comma_not_mem_repr (n : ℤ) : ',' ∉ n.repr.toList := by
  have hnat : ∀ k : ℕ, ',' ∉ k.repr.toList := by
    intro k hk
    rw [Nat.toList_repr] at hk
    exact absurd (Nat.isDigit_of_mem_toDigits (by decide) (by decide) hk) (by decide)
  rw [Int.repr_eq_if]
  split
  · exact hnat _
  · rw [String.toList_append, List.mem_append]
    rintro (h | h)
    · exact absurd h (by decide)
    · exact hnat _ h

/-- The times are those that the text was made from. -/
theorem timesOf_textOf (created modified : ℤ) :
    timesOf (textOf created modified) = some (created, modified) := by
  have hsplit : ((textOf created modified).toList.drop textHead.length).splitOn ',' =
      [created.repr.toList, "\"modified\":".toList ++ (modified.repr.toList ++ ['\x7d'])] := by
    have htext : (textOf created modified).toList.drop textHead.length =
        [','].intercalate
          [created.repr.toList, "\"modified\":".toList ++ (modified.repr.toList ++ ['\x7d'])] := by
      rw [textOf, String.toList_append, ← String.length_toList, List.drop_left]
      simp [String.toList_append]
    rw [htext, List.splitOn_intercalate]
    · intro cs hcs
      rcases List.mem_cons.mp hcs with rfl | hcs
      · exact comma_not_mem_repr created
      · obtain rfl := List.mem_singleton.mp hcs
        simp [comma_not_mem_repr]
    · exact List.cons_ne_nil _ _
  unfold timesOf
  rw [hsplit]
  have hdrop : ("\"modified\":".toList ++ (modified.repr.toList ++ ['\x7d'])).drop 11 =
      modified.repr.toList ++ ['\x7d'] := rfl
  have hlength : ("\"modified\":".toList ++ (modified.repr.toList ++ ['\x7d'])).length - 12 =
      modified.repr.toList.length := by
    simp
  dsimp only
  rw [hdrop, hlength, List.take_left, String.ofList_toList, String.ofList_toList, Int.toInt?_repr,
    Int.toInt?_repr]
  rfl

theorem textOf_ne_empty (created modified : ℤ) : textOf created modified ≠ "" := by
  intro h
  have hchars := congrArg String.toList h
  rw [textOf, String.toList_append] at hchars
  exact absurd (List.append_eq_nil_iff.mp hchars).1 (by decide +kernel)

/-- `json.Marshal` on that route. -/
def marshal (c : Config Unit) : Except String String :=
  if (c.tenantId, c.id) = (⟨"org", "app"⟩, "r1") then .ok (textOf c.created c.modified)
  else .error "json: unsupported value"

/-- `json.Unmarshal` on its texts. -/
def unmarshal (w : String) : Except String (Config Unit) :=
  match timesOf w with
  | some (created, modified) => .ok ⟨⟨"org", "app"⟩, "r1", (), created, modified⟩
  | none => .error "unexpected end of JSON input"

/-- A text of the sample is read back. -/
theorem unmarshal_textOf (created modified : ℤ) :
    unmarshal (textOf created modified) = .ok ⟨⟨"org", "app"⟩, "r1", (), created, modified⟩ := by
  unfold unmarshal
  rw [timesOf_textOf]

/-- Only the sample route is written. -/
theorem marshal_eq_ok {c : Config Unit} {w : String} (h : marshal c = .ok w) :
    (c.tenantId, c.id) = (⟨"org", "app"⟩, "r1") ∧ w = textOf c.created c.modified := by
  unfold marshal at h
  split at h
  · rename_i hkey
    exact ⟨hkey, (Except.ok.inj h).symm⟩
  · cases h

/-- `encoding/json` on that route at any times. -/
def textJson : JsonCodec Unit where
  encode := marshal
  decode := unmarshal
  decode_encode := by
    intro c w h
    obtain ⟨-, rfl⟩ := marshal_eq_ok h
    exact ⟨_, unmarshal_textOf _ _, rfl, rfl⟩
  encode_ne_empty := by
    intro c w h
    obtain ⟨-, rfl⟩ := marshal_eq_ok h
    exact textOf_ne_empty _ _

/-- The items of DynamoDB have the fields of the route. -/
def sampleItems : Codec Unit (Config Unit) where
  encode := .ok
  decode := .ok
  decode_encode := by
    intro c w h
    obtain rfl := Except.ok.inj h
    exact ⟨c, rfl, rfl, rfl⟩

theorem textJson_encode : textJson.encode = marshal := by
  unfold textJson
  dsimp only

theorem textJson_decode : textJson.decode = unmarshal := by
  unfold textJson
  dsimp only

/-- The texts keep the tenant and the id. -/
theorem keepsKey_textJson : KeepsKey textJson.toCodec := by
  intro c w c' hw hc'
  obtain ⟨hkey, rfl⟩ := marshal_eq_ok hw
  obtain ⟨htid, hid⟩ := Prod.mk.inj hkey
  rw [textJson_decode, unmarshal_textOf] at hc'
  obtain rfl := Except.ok.inj hc'
  exact ⟨htid.symm, hid.symm⟩

theorem keepsKey_sampleItems : KeepsKey sampleItems := by
  intro c w c' hw hc'
  obtain rfl := Except.ok.inj hw
  obtain rfl := Except.ok.inj hc'
  exact ⟨rfl, rfl⟩

/-- **Lists are exact** in each of the three storers, after any sets and deletions, those that
have failed included. -/
theorem listings_exact {json : JsonCodec ν} {av : Codec ν W} (hjson : KeepsKey json.toCodec)
    (hav : KeepsKey av) (as : List (Step ν)) :
    (∀ s, Runs.run (InMemory.storer ν).step (InMemory.storer ν).start as = some s →
      Exact (InMemory.storage ν) s.table) ∧
    (∀ s, Runs.run (Redis.storer json).step (Redis.storer json).start as = some s →
      Exact (Redis.storage json) s.table) ∧
    (∀ s, Runs.run (Dynamo.storer av).step (Dynamo.storer av).start as = some s →
      Exact (Dynamo.storage av) s.table) :=
  ⟨fun _ => InMemory.exact_of_run, fun _ => Redis.exact_of_run hjson,
    fun _ => Dynamo.exact_of_run hav⟩

/-- A route is set, set again while the read fails, and deleted while the write fails. -/
def sampleSteps : List (Step Unit) :=
  [.set ⟨sampleConfig 0, 100, {}⟩, .set ⟨sampleConfig 0, 200, { read := some "i/o timeout" }⟩,
    .delete ⟨"org", "app"⟩ "r1" { write := some "i/o timeout" }]

theorem listings_exact_sample : ∃ s, Runs.run (Redis.storer textJson).step
    (Redis.storer textJson).start sampleSteps = some s ∧ Exact (Redis.storage textJson) s.table :=
  ⟨_, rfl, (listings_exact keepsKey_textJson keepsKey_sampleItems sampleSteps).2.1 _ rfl⟩

/-! ## Requests that are answered -/

theorem enumerates_empty {K β : Type} : Enumerates [] fun _ : K => (none : Option β) where
  nodup := List.nodup_nil
  mem_iff := by
    intro x
    constructor
    · intro h
      cases h
    · rintro ⟨v, hv⟩
      cases hv

theorem InMemory.exists_serves (qs : List (Request Key (SetItem ν) Tenant.Id)) :
    ∃ as s, (storage ν).Serves (storer ν).empty qs as s := by
  have hupdate : ∀ (s : Table ν) t routes, (storage ν).Listable s →
      (∃ ids, Enumerates ids routes) →
        (storage ν).Listable (Function.update s t (some routes)) := by
    rintro s t routes ⟨order, htenants, hids⟩ ⟨ids, henum⟩
    obtain ⟨tenants, hall⟩ := htenants.update t routes
    refine ⟨⟨tenants, Function.update order.ids t ids⟩, hall, fun t' routes' h => ?_⟩
    show Enumerates (Function.update order.ids t ids t') routes'
    rw [Function.update_apply] at h ⊢
    split
    · rename_i ht
      rw [if_pos ht] at h
      obtain rfl := Option.some.inj h
      exact henum
    · rename_i ht
      rw [if_neg ht] at h
      exact hids t' routes' h
  have hempty : (storage ν).Listable (storer ν).empty :=
    ⟨⟨[], fun _ => []⟩, enumerates_empty, fun _ _ h => by cases h⟩
  refine Storage.exists_serves ?_ ?_ hempty qs
  · intro s i s' hs h
    obtain rfl := Except.ok.inj h
    rw [setRoute_eq]
    refine hupdate s _ _ hs ?_
    obtain ⟨order, -, hids⟩ := hs
    have hold : ∃ ids, Enumerates ids ((s i.config.tenantId.key).getD fun _ => none) := by
      cases ht : s i.config.tenantId.key with
      | none => exact ⟨[], enumerates_empty⟩
      | some routes => exact ⟨_, hids _ routes ht⟩
    obtain ⟨ids, henum⟩ := hold
    exact henum.update _ _
  · intro s k s' hs h
    obtain rfl := Except.ok.inj h
    unfold deleteRoute
    split
    · exact hs
    · rename_i routes hroutes
      refine hupdate s _ _ hs ?_
      obtain ⟨order, -, hids⟩ := hs
      exact ⟨_, (hids _ routes hroutes).erase k.2⟩

theorem Redis.exists_serves (json : JsonCodec ν) (qs : List (Request Key (SetItem ν) Tenant.Id)) :
    ∃ as s, (storage json).Serves (storer json).empty qs as s := by
  refine Storage.exists_serves ?_ ?_ ⟨[], enumerates_empty⟩ qs
  · rintro d i d' ⟨keys, henum⟩ h
    obtain ⟨-, w, -, rfl⟩ := setRoute_eq_ok.mp h
    exact henum.update _ w
  · rintro d k d' ⟨keys, henum⟩ h
    unfold storage deleteRoute at h
    dsimp only at h
    split at h
    · cases h
    · obtain rfl := Except.ok.inj h
      exact ⟨_, henum.erase _⟩

theorem Dynamo.exists_serves (av : Codec ν W) (qs : List (Request Key (SetItem ν) Tenant.Id)) :
    ∃ as s, (storage av).Serves (storer av).empty qs as s := by
  have hpages : ∀ (d : Table W) keys, Enumerates keys d → (storage av).Listable d := by
    intro d keys henum
    refine ⟨[keys], ?_⟩
    show Enumerates [keys].flatten d
    rwa [List.flatten_singleton]
  refine Storage.exists_serves ?_ ?_ (hpages _ [] enumerates_empty) qs
  · rintro d i d' ⟨pages, henum⟩ h
    obtain ⟨w, -, rfl⟩ := setRoute_eq_ok h
    obtain ⟨keys, hkeys⟩ := Enumerates.update henum (i.config.tenantId.keyWithRoute i.config.id) w
    exact hpages _ keys hkeys
  · rintro d k d' ⟨pages, henum⟩ h
    obtain rfl := Except.ok.inj h
    exact hpages _ _ (Enumerates.erase henum _)

/-- **The three storers answer alike** while the backends answer: the routes that are set have ids and
are read back from Redis and from DynamoDB as they were written. -/
theorem storers_agree {json : JsonCodec ν} {av : Codec ν W}
    {qs : List (Request Key (SetItem ν) Tenant.Id)}
    {as bs cs : List (Answer (Config ν) StorerError)} {s : InMemory.Table ν} {d : Redis.Table}
    {t : Dynamo.Table W}
    (hqs : ∀ q ∈ qs, q.Meets (fun i => Redis.Fits json i ∧ Dynamo.Fits av i) fun k => k.2 ≠ "")
    (hs : (InMemory.storage ν).Serves (InMemory.storer ν).empty qs as s)
    (hd : (Redis.storage json).Serves (Redis.storer json).empty qs bs d)
    (ht : (Dynamo.storage av).Serves (Dynamo.storer av).empty qs cs t) :
    List.Forall₂ Answer.Same as bs ∧ List.Forall₂ Answer.Same as cs := by
  have hempty : InMemory.Filed (InMemory.storer ν).empty := fun _ _ _ _ h => by cases h
  constructor
  · refine (InMemory.lawful.agree (Redis.lawful json) hempty (Redis.filed_empty json) rfl
      (fun q hq => ?_) (fun q hq => ?_) hs hd).1
    · exact (hqs q hq).imp (fun _ _ => trivial) fun _ _ => trivial
    · exact (hqs q hq).imp (fun _ h => h.1) fun _ h => h
  · refine (InMemory.lawful.agree (Dynamo.lawful av) hempty (fun _ _ h => by cases h) rfl
      (fun q hq => ?_) (fun q hq => ?_) hs ht).1
    · exact (hqs q hq).imp (fun _ _ => trivial) fun _ _ => trivial
    · exact (hqs q hq).imp (fun _ h => h.2) fun _ _ => trivial

/-- A route is set twice, and all routes are listed. -/
def sampleRequests : List (Request Key (SetItem Unit) Tenant.Id) :=
  [.set ⟨sampleConfig 0, 100, {}⟩, .set ⟨sampleConfig 0, 200, {}⟩, .getAll]

/-- The sample has what the storers ask for. -/
theorem sampleRequests_meet : ∀ q ∈ sampleRequests,
    q.Meets (fun i => Redis.Fits textJson i ∧ Dynamo.Fits sampleItems i) fun k => k.2 ≠ "" := by
  have hfits : ∀ now, Redis.Fits textJson ⟨sampleConfig 0, now, {}⟩ ∧
      Dynamo.Fits sampleItems ⟨sampleConfig 0, now, {}⟩ := by
    intro now
    have hid : "r1" ≠ "" := by decide
    refine ⟨⟨rfl, hid, fun created modified => ⟨textOf created modified, ?_, ?_⟩⟩, rfl,
      fun created modified => ⟨_, rfl, rfl⟩⟩
    · rw [textJson_encode]
      exact if_pos rfl
    · rw [textJson_decode, unmarshal_textOf]
      rfl
  intro q hq
  rcases List.mem_cons.mp hq with rfl | hq
  · exact hfits 100
  · rcases List.mem_cons.mp hq with rfl | hq
    · exact hfits 200
    · obtain rfl := List.mem_singleton.mp hq
      trivial

theorem storers_agree_sample : ∃ as bs cs s d t,
    (InMemory.storage Unit).Serves (InMemory.storer Unit).empty sampleRequests as s ∧
      (Redis.storage textJson).Serves (Redis.storer textJson).empty sampleRequests bs d ∧
        (Dynamo.storage sampleItems).Serves (Dynamo.storer sampleItems).empty sampleRequests cs t ∧
          List.Forall₂ Answer.Same as bs ∧ List.Forall₂ Answer.Same as cs := by
  obtain ⟨as, s, hs⟩ := InMemory.exists_serves sampleRequests
  obtain ⟨bs, d, hd⟩ := Redis.exists_serves textJson sampleRequests
  obtain ⟨cs, t, ht⟩ := Dynamo.exists_serves sampleItems sampleRequests
  exact ⟨as, bs, cs, s, d, t, hs, hd, ht, storers_agree sampleRequests_meet hs hd ht⟩

end RouteStorer
