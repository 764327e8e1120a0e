/-
# Every call of the management API is permitted

A request may touch the data of a tenant only after its token has been accepted for the tenant,
and the data of all tenants only after it has been accepted without a tenant.  The checks are made
in `authenticateMiddleware`, which decides by the path what to check, and for events in
`sendEventHandler`, which reads the configuration of the tenant first, to find out whether there
is anything to check; the calls are made in the handlers and in the routing table manager.

`Permitted` says which calls a request may make, in terms of what it has been told so far, and
`Shows` what its answer may show.  `every_call_permitted` says that it makes no others and shows
no more, in every interleaving of any number of requests at any number of nodes, whatever storage
answers.  So the stored data of a tenant changes only by requests that were accepted for it
(`unchanged_of_not_accepted`), and what is stored is well formed (`stored_keyed`).
-/
import Ears.ApiManager

open Plugin

namespace Api

/-! ## What a request may do -/

/-- What a request has been told: the paths, methods and tenants for which its token was accepted,
the configurations that it has read from the store and from the cache, and the tenants that had
no routes. -/
structure Seen where
  accepted : List (String × String × Option Tenant.Id) := []
  read : List TenantConfig := []
  cached : List TenantConfig := []
  bare : List Tenant.Id := []

namespace Seen

/-- What is known after a call. -/
def after (g : Seen) : (o : Op) → o.Res → Seen
  | .verifyToken _ path method tid, r =>
      match r with
      | .ok _ => { g with accepted := (path, method, tid) :: g.accepted }
      | .error _ => g
  | .getConfig _, r =>
      match r with
      | .ok c => { g with read := c :: g.read }
      | .error _ => g
  | .getTenant _, r =>
      match r with
      | some c => { g with cached := c :: g.cached }
      | none => g
  | .getAllTenantRoutes tid, r =>
      match r with
      | .ok [] => { g with bare := tid :: g.bare }
      | _ => g
  | _, _ => g

/-- The token of the request was accepted for its path and its method. -/
def Verified (g : Seen) (r : Request) (tid : Option Tenant.Id) : Prop :=
  (r.path, r.method, tid) ∈ g.accepted

/-- The request has seen a configuration of the tenant that opens the event API. -/
def Opened (g : Seen) (tid : Tenant.Id) : Prop :=
  ∃ c, (c ∈ g.read ∨ c ∈ g.cached) ∧ c.tenant = tid ∧ c.openEventApi = true

/-- Nothing is forgotten. -/
structure Le (g g' : Seen) : Prop where
  accepted : g.accepted ⊆ g'.accepted
  read : g.read ⊆ g'.read
  cached : g.cached ⊆ g'.cached
  bare : g.bare ⊆ g'.bare

theorem Le.refl (g : Seen) : g.Le g := ⟨fun _ h => h, fun _ h => h, fun _ h => h, fun _ h => h⟩

theorem Le.trans {g g' g'' : Seen} (h : g.Le g') (h' : g'.Le g'') : g.Le g'' :=
  ⟨fun _ hx => h'.accepted (h.accepted hx), fun _ hx => h'.read (h.read hx),
    fun _ hx => h'.cached (h.cached hx), fun _ hx => h'.bare (h.bare hx)⟩

theorem Verified.mono {g g' : Seen} {r : Request} {tid : Option Tenant.Id} (h : g.Verified r tid)
    (hle : g.Le g') : g'.Verified r tid := hle.accepted h

theorem le_after (g : Seen) (o : Op) (r : o.Res) : g.Le (g.after o r) := by
  have hcons : ∀ {α : Type} (a : α) (l : List α), l ⊆ a :: l := fun a l =>
    List.subset_cons_self a l
  have hsame : ∀ {α : Type} (l : List α), l ⊆ l := fun l => List.Subset.refl l
  cases o with
  | verifyToken token path method tid =>
      cases r with
      | ok who => exact ⟨hcons _ _, hsame _, hsame _, hsame _⟩
      | error err => exact Le.refl g
  | getConfig tid =>
      cases r with
      | ok c => exact ⟨hsame _, hcons _ _, hsame _, hsame _⟩
      | error err => exact Le.refl g
  | getTenant tenantId =>
      cases r with
      | some c => exact ⟨hsame _, hsame _, hcons _ _, hsame _⟩
      | none => exact Le.refl g
  | getAllTenantRoutes tid =>
      cases r with
      | ok routes =>
          cases routes with
          | nil => exact ⟨hsame _, hsame _, hsame _, hcons _ _⟩
          | cons c cs => exact Le.refl g
      | error err => exact Le.refl g
  | _ => exact Le.refl g

end Seen

/-- The router dispatches the request to a handler, for a tenant. -/
def For (mux : Mux) (r : Request) (tid : Tenant.Id) (h : HandlerName) : Prop :=
  ∃ vars, mux.dispatch r.method r.path = some (h, vars) ∧ Tenant.getTenant vars = .ok tid

/-- The request adds a route of the tenant, or toggles one. -/
def Adds (mux : Mux) (r : Request) (tid : Tenant.Id) : Prop :=
  For mux r tid .addRoute ∨ For mux r tid .enableDisableRoute

/-- A route may be stored by a request that adds or toggles one, was accepted for the tenant and
has found the tenant in the store. -/
structure MayStore (mux : Mux) (r : Request) (g : Seen) (tid : Tenant.Id) : Prop where
  verified : g.Verified r (some tid)
  adds : Adds mux r tid
  found : ∃ c ∈ g.read, c.tenant = tid

theorem MayStore.mono {mux : Mux} {r : Request} {g g' : Seen} {tid : Tenant.Id}
    (h : MayStore mux r g tid) (hle : g.Le g') : MayStore mux r g' tid where
  verified := h.verified.mono hle
  adds := h.adds
  found := h.found.imp fun _ hc => ⟨hle.read hc.1, hc.2⟩

/-- A tenant may be deleted by a request for that which was accepted for the tenant and has found
it without routes. -/
structure MayDelete (mux : Mux) (r : Request) (g : Seen) (tid : Tenant.Id) : Prop where
  verified : g.Verified r (some tid)
  deletes : For mux r tid .deleteTenantConfig
  bare : tid ∈ g.bare

/-- The request sends an event to the tenant: to the tenant of its path, or by the webhook to the
tenant that is configured for it. -/
def SendsEvent (mux : Mux) (st : Settings) (r : Request) (tid : Tenant.Id) : Prop :=
  For mux r tid .sendEvent ∨
    ∃ vars, mux.dispatch r.method r.path = some (.webhook, vars) ∧
      Tenant.getTenant (webhookVars st r) = .ok tid

/-- What a request may call.  Only a request that sends an event to a tenant reads and caches the
configuration of the tenant before its token is accepted, to find out whether it needs one, and
only what was read from the store is cached; a route is read, and restarted, for its tenant or
for all; and the plugins are asked for their statuses by the requests for these. -/
def Permitted (mux : Mux) (st : Settings) (r : Request) (g : Seen) : Op → Prop
  | .verifyToken _ path method _ => path = r.path ∧ method = r.method
  | .getConfig tid => g.Verified r (some tid) ∨ SendsEvent mux st r tid
  | .getTenant tenantId => ∃ tid, tid.key = tenantId ∧ SendsEvent mux st r tid
  | .setTenant c => c ∈ g.read ∧ SendsEvent mux st r c.tenant
  | .getAllConfigs | .getAllFragments | .getAllRegisteredRoutes => g.Verified r none
  | .setConfig c => g.Verified r (some c.tenant)
  | .setRoute c => MayStore mux r g c.tenantId
  | .deleteConfig tid => MayDelete mux r g tid
  | .deleteRoute tid _ | .getFragment tid _ | .getAllTenantFragments tid
  | .setFragment tid _ | .deleteFragment tid _ | .publishQuota tid => g.Verified r (some tid)
  | .getRoute tid _ | .getAllTenantRoutes tid | .unregisterAndStopRoute tid _
  | .publishSyncRequest tid _ _ => g.Verified r (some tid) ∨ g.Verified r none
  | .registerAndRunRoute c => g.Verified r (some c.tenantId) ∨ g.Verified r none
  | .routeEvent tid _ _ => SendsEvent mux st r tid ∧ (g.Verified r (some tid) ∨ g.Opened tid)
  | .status kind => g.Verified r none ∨
      ∃ tid, For mux r tid (.getAllStatus kind) ∧ g.Verified r (some tid)

/-- The tenants that an answer tells something about. -/
def Item.tenants : Item → List Tenant.Id
  | .route c => [c.tenantId]
  | .routes cs => cs.map Route.Config.tenantId
  | .config c => [c.tenant]
  | .configs cs => cs.map TenantConfig.tenant
  | .statuses _ ss => ss.map PluginStatus.tid
  | _ => []

/-- An answer tells about tenants that the request was accepted for, unless it was accepted for
all. -/
def Shows (r : Request) (item : Item) (g : Seen) : Prop :=
  g.Verified r none ∨ ∀ tid ∈ item.tenants, g.Verified r (some tid)

theorem shows_of_nil {r : Request} {item : Item} {g : Seen} (h : item.tenants = []) :
    Shows r item g := by
  refine .inr fun tid htid => ?_
  rw [h] at htid
  cases htid

theorem shows_of_singleton {r : Request} {item : Item} {g : Seen} {tid : Tenant.Id}
    (h : item.tenants = [tid]) (hver : g.Verified r (some tid)) : Shows r item g := by
  refine .inr fun tid' htid' => ?_
  rw [h, List.mem_singleton] at htid'
  rwa [htid']

/-- A route with a kinesis receiver has a region, unless the receiver is a fragment. -/
def HasRegion (c : Route.Config) : Prop :=
  c.receiver.plugin = "kinesis" → c.region = "" → c.receiver.fragmentName ≠ ""

/-- A route that the API may store. -/
structure Storable (c : Route.Config) : Prop where
  tenantId : c.tenantId.Accepted
  valid : c.validate = .ok ()
  region : HasRegion c

/-- What is written is well formed. -/
def Sane : Op → Prop
  | .setConfig c => c.tenant.Accepted
  | .setRoute c => Storable c
  | .setFragment tid pc => tid.Accepted ∧ pc.fragmentName ≠ ""
  | _ => True

/-- What the handlers rely on in the answers: what is found is what was asked for. -/
def Found : (o : Op) → o.Res → Prop
  | .getConfig tid, r => ∀ c, r = .ok c → c.tenant = tid
  | .getRoute tid id, r => ∀ c, r = .ok c → c.tenantId = tid ∧ c.id = id ∧ Storable c
  | .getFragment _ id, r => ∀ pc, r = .ok pc → pc.fragmentName = id
  | .getAllTenantRoutes tid, r => ∀ cs, r = .ok cs → ∀ c ∈ cs, c.tenantId = tid
  | .getTenant tenantId, r => ∀ c, r = some c → c.tenant.key = tenantId
  | _, _ => True

/-- The rules that the program of a request follows. -/
abbrev rules (mux : Mux) (st : Settings) (r : Request) : Spec sig Seen :=
  Prog.guarded Seen.after (fun g o => Permitted mux st r g o ∧ Sane o) Found

theorem rules_monotone {mux : Mux} {st : Settings} {r : Request} : (rules mux st r).Monotone :=
  Prog.guarded_monotone _ _ _

/-! ## The methods of the routing table manager -/

section Methods

variable {mux : Mux} {st : Settings} {r : Request} {g : Seen} {ε : Type}

/-- A permitted call that may fail. -/
theorem wpOk_getRoute {tid : Tenant.Id} {id : String}
    (h : g.Verified r (some tid) ∨ g.Verified r none) :
    Prog.wpOk (rules mux st r) (Table.getRoute tid id) g fun c g' =>
      g.Le g' ∧ c.tenantId = tid ∧ c.id = id ∧ Storable c :=
  ⟨⟨h, trivial⟩, fun _ hfound c hc => ⟨Seen.le_after g _ _, hfound c hc⟩⟩

theorem wpOk_getConfig {tid : Tenant.Id} (h : g.Verified r (some tid) ∨ SendsEvent mux st r tid) :
    Prog.wpOk (rules mux st r) (Table.getConfig tid) g fun c g' =>
      g.Le g' ∧ c.tenant = tid ∧ c ∈ g'.read := by
  refine ⟨⟨h, trivial⟩, ?_⟩
  rintro (err | c) hfound c' hc
  · cases hc
  · obtain rfl := Except.ok.inj hc
    exact ⟨Seen.le_after g _ _, hfound c rfl, List.mem_cons_self⟩

/-- A call that may fail, when nothing is asked of the answer. -/
theorem wpOk_orFail {α : Type} {x : Call α} {Q : α → Seen → Prop}
    (h : Prog.wpOk (rules mux st r) x g Q) : Prog.wpOk (rules mux st r) (orFail x) g Q :=
  Prog.wpOk_adapt rules_monotone h

/-- A fragment that is found keeps its name, and a plugin without one is left as it is. -/
theorem wpOk_inflate {tid : Tenant.Id} (h : g.Verified r (some tid)) (pc : Route.PluginConfig) :
    Prog.wpOk (rules mux st r) (Table.inflate tid pc) g fun pc' g' =>
      g.Le g' ∧ (pc.fragmentName = "" → pc' = pc) ∧
        (pc.fragmentName ≠ "" → pc'.fragmentName = pc.fragmentName) := by
  unfold Table.inflate
  split
  · rename_i hname
    rw [Prog.wpOk_pure]
    exact ⟨Seen.Le.refl g, fun _ => rfl, fun hne => absurd hname hne⟩
  · rename_i hname
    refine Prog.wpOk.bind rules_monotone (Q := fun fragment g' => g.Le g' ∧
      fragment.fragmentName = pc.fragmentName) ⟨⟨h, trivial⟩, fun _ hfound a ha =>
        ⟨Seen.le_after g _ _, hfound a ha⟩⟩ ?_
    rintro fragment g' ⟨hle, hfragment⟩
    unfold RoutingTable.inflate
    simp only [if_neg hname]
    split
    · exact Prog.wpOk_throw
    · rename_i pc' hpc'
      rw [Prog.wpOk_pure]
      refine ⟨hle, fun heq => absurd heq hname, fun _ => ?_⟩
      -- the fragment, perhaps with another label
      split_ifs at hpc' <;> cases hpc'
      · exact hfragment
      · exact hfragment

theorem wpOk_inflateFilters {tid : Tenant.Id} (fs : List Route.PluginConfig)
    (h : g.Verified r (some tid)) :
    Prog.wpOk (rules mux st r) (Table.inflateFilters tid fs) g fun _ g' => g.Le g' := by
  induction fs generalizing g with
  | nil =>
      unfold Table.inflateFilters
      rw [Prog.wpOk_pure]
      exact Seen.Le.refl g
  | cons f fs ih =>
      refine Prog.wpOk.bind rules_monotone (wpOk_inflate h f) fun f' g' hf => ?_
      refine Prog.wpOk.bind rules_monotone (ih (h.mono hf.1)) fun fs' g'' hfs => ?_
      rw [Prog.wpOk_pure]
      exact hf.1.trans hfs

theorem wpOk_inflateRoute {c : Route.Config} (h : g.Verified r (some c.tenantId))
    (hregion : HasRegion c) :
    Prog.wpOk (rules mux st r) (Table.inflateRoute c) g fun c' g' =>
      g.Le g' ∧ c'.tenantId = c.tenantId ∧ HasRegion c' := by
  refine Prog.wpOk.bind rules_monotone (wpOk_inflate h c.sender) fun sender g₁ hsender => ?_
  have h₁ := h.mono hsender.1
  refine Prog.wpOk.bind rules_monotone (wpOk_inflate h₁ c.receiver) ?_
  rintro receiver g₂ ⟨hle₂, hsame, hnamed⟩
  refine Prog.wpOk.bind rules_monotone (wpOk_inflateFilters c.filterChain (h₁.mono hle₂)) ?_
  intro filterChain g₃ hle₃
  rw [Prog.wpOk_pure]
  refine ⟨hsender.1.trans (hle₂.trans hle₃), rfl, ?_⟩
  by_cases hname : c.receiver.fragmentName = ""
  · have hreceiver := hsame hname
    unfold HasRegion
    dsimp only
    rw [hreceiver]
    exact hregion
  · intro _ _
    show receiver.fragmentName ≠ ""
    rw [hnamed hname]
    exact hname

/-- The registration, when its route is permitted. -/
theorem wpOk_register {c : Route.Config}
    (h : g.Verified r (some c.tenantId) ∨ g.Verified r none) :
    Prog.wpOk (rules mux st r) ((tryCall (call (.registerAndRunRoute c))).adapt Error.registration) g
      fun _ g' => g.Le g' :=
  Prog.wpOk_adapt rules_monotone ⟨⟨h, trivial⟩, fun _ _ _ _ => Seen.le_after g _ _⟩

theorem wpOk_unregister {tid : Tenant.Id} {routeId : String}
    (h : g.Verified r (some tid) ∨ g.Verified r none) :
    Prog.wpOk (rules mux st r)
      ((tryCall (call (.unregisterAndStopRoute tid routeId))).adapt Error.registration) g
      fun _ g' => g.Le g' :=
  Prog.wpOk_adapt rules_monotone ⟨⟨h, trivial⟩, fun _ _ _ _ => Seen.le_after g _ _⟩

theorem wpOk_publish {tid : Tenant.Id} {routeId : String} {add : Bool}
    (h : g.Verified r (some tid) ∨ g.Verified r none) :
    Prog.wpOk (rules mux st r) (ExceptT.lift (call (.publishSyncRequest tid routeId add)) :
      ExceptT ε (Prog sig) Unit) g fun _ g' => g.Le g' :=
  Prog.wpOk_lift rules_monotone ⟨⟨h, trivial⟩, fun _ _ => Seen.le_after g _ _⟩

/-- `AddRoute` after the fragments. -/
theorem wpOk_storeRoute {c : Route.Config} (h : MayStore mux r g c.tenantId)
    (htid : c.tenantId.Accepted) (hregion : HasRegion c) :
    Prog.wpOk (rules mux st r) (Table.storeRoute c) g fun c' g' => g.Le g' ∧ c' = c := by
  unfold Table.storeRoute
  split
  · exact Prog.wpOk_throw
  · rename_i hvalid
    refine Prog.wpOk.bind rules_monotone (wpOk_register (.inl h.verified)) fun _ g₁ hle₁ => ?_
    have h₁ := h.mono hle₁
    refine Prog.wpOk.bind rules_monotone (Q := fun _ g' => g.Le g')
      (Prog.wpOk_lift rules_monotone ⟨⟨h₁, htid, hvalid, hregion⟩, fun _ _ =>
        hle₁.trans (Seen.le_after g₁ _ _)⟩) ?_
    rintro (err | _) g₂ hle₂
    · refine Prog.wpOk.bind rules_monotone (Q := fun _ _ => True)
        (Prog.wpOk_lift rules_monotone ⟨⟨.inl (h.mono hle₂).verified, trivial⟩, fun _ _ => trivial⟩) ?_
      exact fun _ _ _ => Prog.wpOk_throw
    · refine Prog.wpOk.bind rules_monotone (wpOk_publish (.inl (h.mono hle₂).verified))
        fun _ g₃ hle₃ => ?_
      rw [Prog.wpOk_pure]
      exact ⟨hle₂.trans hle₃, rfl⟩

theorem withId_same (c : Route.Config) : (RoutingTable.withId c).tenantId = c.tenantId ∧
    (RoutingTable.withId c).region = c.region ∧
      (RoutingTable.withId c).receiver = c.receiver := by
  unfold RoutingTable.withId
  split
  · exact ⟨rfl, rfl, rfl⟩
  · exact ⟨rfl, rfl, rfl⟩

/-- `AddRoute` for the tenant of the route. -/
theorem wpOk_addRoute {c : Route.Config} (h : MayStore mux r g c.tenantId)
    (htid : c.tenantId.Accepted) (hregion : HasRegion c) :
    Prog.wpOk (rules mux st r) (Table.addRoute c) g fun c' g' =>
      g.Le g' ∧ c'.tenantId = c.tenantId := by
  refine Prog.wpOk.bind rules_monotone (wpOk_inflateRoute h.verified hregion) ?_
  rintro c' g' ⟨hle, htenant, hregion'⟩
  obtain ⟨hsame, hsameRegion, hsameReceiver⟩ := withId_same c'
  refine (wpOk_storeRoute (by rw [hsame, htenant]; exact h.mono hle)
    (by rw [hsame, htenant]; exact htid) ?_).mono rules_monotone ?_
  · unfold HasRegion
    rw [hsameRegion, hsameReceiver]
    exact hregion'
  · rintro _ g'' ⟨hle', rfl⟩
    exact ⟨hle.trans hle', hsame.trans htenant⟩

theorem wpOk_removeRoute {tid : Tenant.Id} {routeId : String} (h : g.Verified r (some tid)) :
    Prog.wpOk (rules mux st r) (Table.removeRoute tid routeId) g fun _ _ => True := by
  unfold Table.removeRoute
  dsimp only
  split
  · exact Prog.wpOk_throw
  · refine Prog.wpOk.bind rules_monotone (Q := fun _ g' => g.Le g')
      (Prog.wpOk_lift rules_monotone ⟨⟨h, trivial⟩, fun _ _ => Seen.le_after g _ _⟩) ?_
    intro stored g₁ hle₁
    refine Prog.wpOk.bind rules_monotone (wpOk_publish (.inl (h.mono hle₁))) fun _ g₂ hle₂ => ?_
    refine Prog.wpOk.bind rules_monotone (wpOk_unregister (.inl (h.mono (hle₁.trans hle₂)))) ?_
    exact fun _ _ _ _ _ => trivial

/-- `ReloadRoute`, for one tenant or for all. -/
theorem wpOk_reloadRoute {tid : Tenant.Id} {routeId : String}
    (h : g.Verified r (some tid) ∨ g.Verified r none) :
    Prog.wpOk (rules mux st r) (Table.reloadRoute tid routeId) g fun c g' =>
      g.Le g' ∧ c.tenantId = tid := by
  have hmono : ∀ {g'}, g.Le g' → g'.Verified r (some tid) ∨ g'.Verified r none := fun hle =>
    h.imp (fun h => h.mono hle) fun h => h.mono hle
  refine Prog.wpOk.bind rules_monotone (Prog.wpOk_adapt rules_monotone (wpOk_getRoute h)) ?_
  rintro c g₁ ⟨hle₁, rfl, -, -⟩
  refine Prog.wpOk.bind rules_monotone (wpOk_unregister (hmono hle₁)) fun _ g₂ hle₂ => ?_
  have hle₂ := hle₁.trans hle₂
  refine Prog.wpOk.bind rules_monotone (wpOk_publish (hmono hle₂)) fun _ g₃ hle₃ => ?_
  have hle₃ := hle₂.trans hle₃
  refine Prog.wpOk.bind rules_monotone (wpOk_register (hmono hle₃)) fun _ g₄ hle₄ => ?_
  have hle₄ := hle₃.trans hle₄
  refine Prog.wpOk.bind rules_monotone (wpOk_publish (hmono hle₄)) fun _ g₅ hle₅ => ?_
  rw [Prog.wpOk_pure]
  exact ⟨hle₄.trans hle₅, rfl⟩

/-- What is known only grows, also when a program fails. -/
theorem wp_grows {α : Type} {p : Prog sig α} {Q : α → Seen → Prop} {stop : Prop}
    (h : p.wp (rules mux st r) stop g Q) :
    p.wp (rules mux st r) stop g fun a g' => Q a g' ∧ g.Le g' := by
  induction p generalizing g with
  | pure a => exact ⟨h, Seen.Le.refl g⟩
  | call o k ih =>
      refine ⟨h.1, fun res hres => ?_⟩
      refine (ih res (h.2 res hres)).mono rules_monotone id ?_
      rintro a g' ⟨hQ, hle⟩
      exact ⟨hQ, (Seen.le_after g o res).trans hle⟩
  | panic => exact h

/-- The loop of `ReloadAllRoutes` goes on after an error. -/
theorem wp_reloadEach (cs : List Route.Config) (h : g.Verified r none) :
    (Table.reloadEach cs).wp (rules mux st r) True g fun _ _ => True := by
  induction cs generalizing g with
  | nil => exact trivial
  | cons c cs ih =>
      refine Prog.wp.bind rules_monotone (wp_grows (wpOk_reloadRoute (.inr h))) ?_
      rintro res g' ⟨-, hle⟩
      refine Prog.wp.bind rules_monotone (ih (h.mono hle)) fun failed g'' _ => ?_
      cases res with
      | error err => exact trivial
      | ok c' => exact trivial

theorem wpOk_reloadAllRoutes (h : g.Verified r none) :
    Prog.wpOk (rules mux st r) Table.reloadAllRoutes g fun _ g' => g'.Verified r none := by
  refine Prog.wpOk.bind rules_monotone (Q := fun _ g' => g.Le g')
    (Prog.wpOk_lift rules_monotone ⟨⟨h, trivial⟩, fun _ _ => Seen.le_after g _ _⟩) ?_
  intro routes g' hle
  refine Prog.wpOk.bind rules_monotone (Q := fun _ g'' => True ∧ g'.Le g'')
    (Prog.wpOk_lift rules_monotone (wp_grows (wp_reloadEach routes (h.mono hle)))) ?_
  rintro failed g'' ⟨-, hle'⟩
  cases failed with
  | nil =>
      rw [Prog.wpOk_pure]
      exact (h.mono hle).mono hle'
  | cons rid failed => exact Prog.wpOk_throw

theorem wpOk_getAllRoutes (configs : List TenantConfig) (h : g.Verified r none) :
    Prog.wpOk (rules mux st r) (Table.getAllRoutes configs) g fun _ g' => g'.Verified r none := by
  induction configs generalizing g with
  | nil =>
      unfold Table.getAllRoutes
      rw [Prog.wpOk_pure]
      exact h
  | cons config configs ih =>
      refine Prog.wpOk.bind rules_monotone (Q := fun _ g' => g.Le g')
        ⟨⟨.inr h, trivial⟩, fun _ _ _ _ => Seen.le_after g _ _⟩ ?_
      intro routes g' hle
      refine Prog.wpOk.bind rules_monotone (ih (h.mono hle)) fun rest g'' hall => ?_
      rw [Prog.wpOk_pure]
      exact hall

end Methods

/-! ## The handlers -/

section Handlers

variable {mux : Mux} {st : Settings} {r : Request} {g : Seen} {vars : Vars}

/-- The token was accepted for the tenant that the variables name, if they name one. -/
def VerifiedVars (g : Seen) (r : Request) (vars : Vars) : Prop :=
  ∀ tid, Tenant.getTenant vars = .ok tid → g.Verified r (some tid)

theorem VerifiedVars.mono {g' : Seen} (h : VerifiedVars g r vars) (hle : g.Le g') :
    VerifiedVars g' r vars := fun tid htid => (h tid htid).mono hle

theorem wpOk_getTenant : Prog.wpOk (rules mux st r) (getTenant vars) g fun tid g' =>
    g' = g ∧ Tenant.getTenant vars = .ok tid ∧ tid.Accepted := by
  unfold getTenant
  cases htid : Tenant.getTenant vars with
  | error message => exact Prog.wpOk_throw
  | ok tid =>
      rw [Prog.wpOk_pure]
      exact ⟨rfl, rfl, (Tenant.getTenant_eq_ok_iff.mp htid).2⟩

theorem wpOk_failIf {p : Prop} [Decidable p] {err : ApiError} :
    Prog.wpOk (rules mux st r) (failIf p err) g fun _ g' => g' = g ∧ ¬ p := by
  unfold failIf
  split
  · exact Prog.wpOk_throw
  · rename_i hp
    rw [Prog.wpOk_pure]
    exact ⟨rfl, hp⟩

theorem wpOk_readAll : Prog.wpOk (rules mux st r) (readAll r) g fun _ g' => g' = g := by
  unfold readAll
  split
  · exact Prog.wpOk_throw
  · rw [Prog.wpOk_pure]

theorem wpOk_unmarshal {α : Type} {message : String} {x : Except String α} :
    Prog.wpOk (rules mux st r) (unmarshal message x) g fun _ g' => g' = g := by
  unfold unmarshal
  split
  · exact Prog.wpOk_throw
  · rw [Prog.wpOk_pure]

theorem wpOk_checkId {routeId : String} {c : Route.Config} :
    Prog.wpOk (rules mux st r) (checkId routeId c) g fun c' g' =>
      g' = g ∧ c'.receiver = c.receiver ∧ c'.region = c.region := by
  refine Prog.wpOk.bind rules_monotone wpOk_failIf ?_
  rintro _ _ ⟨rfl, -⟩
  rw [Prog.wpOk_pure]
  refine ⟨rfl, ?_, ?_⟩
  · split <;> rfl
  · split <;> rfl

/-- The last part of `addRouteHandler` and `enableDisableRouteHandler`. -/
theorem wpOk_addRoute_of_tenant {tid : Tenant.Id} {routeId : String} {c : Route.Config}
    (h : MayStore mux r g tid) (htid : tid.Accepted) (hregion : HasRegion c) :
    Prog.wpOk (rules mux st r) (do
      let route ← checkId routeId c
      let route ← orFail (Table.addRoute { route with tenantId := tid })
      pure (Item.route route)) g (Shows r) := by
  refine Prog.wpOk.bind rules_monotone wpOk_checkId ?_
  rintro c' g' ⟨rfl, hreceiver, hsame⟩
  refine Prog.wpOk.bind rules_monotone (wpOk_orFail (wpOk_addRoute h htid ?_)) ?_
  · unfold HasRegion
    dsimp only
    rw [hreceiver, hsame]
    exact hregion
  · rintro route g'' ⟨hle, htenant⟩
    rw [Prog.wpOk_pure]
    exact shows_of_singleton rfl (by rw [htenant]; exact h.verified.mono hle)

theorem wpOk_addRouteHandler (h : VerifiedVars g r vars)
    (hfor : mux.dispatch r.method r.path = some (.addRoute, vars)) :
    Prog.wpOk (rules mux st r) (addRouteHandler r vars) g (Shows r) := by
  refine Prog.wpOk.bind rules_monotone wpOk_getTenant ?_
  rintro tid _ ⟨rfl, hvars, htid⟩
  refine Prog.wpOk.bind rules_monotone (wpOk_orFail (wpOk_getConfig (.inl (h tid hvars)))) ?_
  rintro config g₁ ⟨hle, htenant, hread⟩
  have hmay : MayStore mux r g₁ tid :=
    ⟨(h tid hvars).mono hle, .inl ⟨vars, hfor, hvars⟩, config, hread, htenant⟩
  refine Prog.wpOk.bind rules_monotone wpOk_readAll ?_
  rintro body _ rfl
  refine Prog.wpOk.bind rules_monotone wpOk_unmarshal ?_
  rintro route _ rfl
  refine Prog.wpOk.bind rules_monotone wpOk_failIf ?_
  rintro _ _ ⟨rfl, hkinesis⟩
  exact wpOk_addRoute_of_tenant hmay htid fun hplugin hregion =>
    absurd ⟨hplugin, hregion⟩ hkinesis

theorem wpOk_enableDisableRouteHandler (h : VerifiedVars g r vars)
    (hfor : mux.dispatch r.method r.path = some (.enableDisableRoute, vars)) :
    Prog.wpOk (rules mux st r) (enableDisableRouteHandler r vars) g (Shows r) := by
  refine Prog.wpOk.bind rules_monotone wpOk_getTenant ?_
  rintro tid _ ⟨rfl, hvars, htid⟩
  refine Prog.wpOk.bind rules_monotone (wpOk_orFail (wpOk_getConfig (.inl (h tid hvars)))) ?_
  rintro config g₁ ⟨hle, htenant, hread⟩
  have hmay : MayStore mux r g₁ tid :=
    ⟨(h tid hvars).mono hle, .inr ⟨vars, hfor, hvars⟩, config, hread, htenant⟩
  refine Prog.wpOk.bind rules_monotone (wpOk_orFail (wpOk_getRoute (.inl hmay.verified))) ?_
  rintro route g₂ ⟨hle₂, -, -, hstorable⟩
  exact wpOk_addRoute_of_tenant (hmay.mono hle₂) htid hstorable.region

theorem wpOk_reloadRouteHandler (h : VerifiedVars g r vars) :
    Prog.wpOk (rules mux st r) (reloadRouteHandler r vars) g (Shows r) := by
  refine Prog.wpOk.bind rules_monotone wpOk_getTenant ?_
  rintro tid _ ⟨rfl, hvars, -⟩
  refine Prog.wpOk.bind rules_monotone (wpOk_orFail (wpOk_getConfig (.inl (h tid hvars)))) ?_
  rintro _ g₁ ⟨hle, -, -⟩
  refine Prog.wpOk.bind rules_monotone
    (wpOk_orFail (wpOk_reloadRoute (.inl ((h tid hvars).mono hle)))) ?_
  rintro c g₂ ⟨hle₂, rfl⟩
  rw [Prog.wpOk_pure]
  exact shows_of_singleton rfl ((h _ hvars).mono (hle.trans hle₂))

theorem wpOk_removeRouteHandler (h : VerifiedVars g r vars) :
    Prog.wpOk (rules mux st r) (removeRouteHandler r vars) g (Shows r) := by
  refine Prog.wpOk.bind rules_monotone wpOk_getTenant ?_
  rintro tid _ ⟨rfl, hvars, -⟩
  refine Prog.wpOk.bind rules_monotone (wpOk_orFail (wpOk_removeRoute (h tid hvars)))
    fun _ _ _ => ?_
  rw [Prog.wpOk_pure]
  exact shows_of_nil rfl

/-- A handler that makes one call for its tenant and answers with what it returns. -/
theorem wpOk_oneCall {α : Type} {p : Tenant.Id → Prog sig (Except Error α)}
    {item : Tenant.Id → α → Item} (h : VerifiedVars g r vars)
    (hp : ∀ tid, g.Verified r (some tid) → tid.Accepted →
      (p tid).wp (rules mux st r) True g fun res g' => ∀ a, res = .ok a → Shows r (item tid a) g') :
    Prog.wpOk (rules mux st r) (do
      let tid ← getTenant vars
      let a ← orFail (tryCall (p tid))
      pure (item tid a)) g (Shows r) := by
  refine Prog.wpOk.bind rules_monotone wpOk_getTenant ?_
  rintro tid _ ⟨rfl, hvars, htid⟩
  refine Prog.wpOk.bind rules_monotone (wpOk_orFail (hp tid (h tid hvars) htid)) fun _ _ ha => ?_
  rw [Prog.wpOk_pure]
  exact ha

theorem wpOk_getRouteHandler (h : VerifiedVars g r vars) :
    Prog.wpOk (rules mux st r) (getRouteHandler r vars) g (Shows r) :=
  wpOk_oneCall (p := fun tid => call (.getRoute tid (vars "routeId"))) h fun _ hver _ =>
    ⟨⟨.inl hver, trivial⟩, fun _ hfound c hc =>
      shows_of_singleton (congrArg (fun tid => [tid]) (hfound c hc).1)
        (hver.mono (Seen.le_after g _ _))⟩

theorem wpOk_getAllTenantRoutesHandler (h : VerifiedVars g r vars) :
    Prog.wpOk (rules mux st r) (getAllTenantRoutesHandler r vars) g (Shows r) :=
  wpOk_oneCall (p := fun tid => call (.getAllTenantRoutes tid)) h fun _ hver _ =>
    ⟨⟨.inl hver, trivial⟩, fun _ hfound cs hcs =>
      .inr (List.forall_mem_map.mpr fun c hc => by
        rw [hfound cs hcs c hc]
        exact hver.mono (Seen.le_after g _ _))⟩

theorem wpOk_removeFragmentHandler (h : VerifiedVars g r vars) :
    Prog.wpOk (rules mux st r) (removeFragmentHandler r vars) g (Shows r) :=
  wpOk_oneCall (p := fun tid => call (.deleteFragment tid (vars "fragmentId"))) h fun _ hver _ =>
    ⟨⟨hver, trivial⟩, fun _ _ _ _ => shows_of_nil rfl⟩

theorem wpOk_getFragmentHandler (h : VerifiedVars g r vars) :
    Prog.wpOk (rules mux st r) (getFragmentHandler r vars) g (Shows r) :=
  wpOk_oneCall (p := fun tid => call (.getFragment tid (vars "fragmentId"))) h fun _ hver _ =>
    ⟨⟨hver, trivial⟩, fun _ _ _ _ => shows_of_nil rfl⟩

theorem wpOk_getAllTenantFragmentsHandler (h : VerifiedVars g r vars) :
    Prog.wpOk (rules mux st r) (getAllTenantFragmentsHandler r vars) g (Shows r) :=
  wpOk_oneCall (p := fun tid => call (.getAllTenantFragments tid)) h fun _ hver _ =>
    ⟨⟨hver, trivial⟩, fun _ _ _ _ => shows_of_nil rfl⟩

theorem wpOk_getTenantConfigHandler (h : VerifiedVars g r vars) :
    Prog.wpOk (rules mux st r) (getTenantConfigHandler r vars) g (Shows r) :=
  wpOk_oneCall (p := fun tid => call (.getConfig tid)) h fun _ hver _ =>
    ⟨⟨.inl hver, trivial⟩, fun _ hfound c hc =>
      shows_of_singleton (congrArg (fun tid => [tid]) (hfound c hc))
        (hver.mono (Seen.le_after g _ _))⟩

theorem wpOk_addFragmentHandler (h : VerifiedVars g r vars) :
    Prog.wpOk (rules mux st r) (addFragmentHandler r vars) g (Shows r) := by
  refine Prog.wpOk.bind rules_monotone wpOk_getTenant ?_
  rintro tid _ ⟨rfl, hvars, htid⟩
  refine Prog.wpOk.bind rules_monotone (wpOk_orFail (wpOk_getConfig (.inl (h tid hvars)))) ?_
  rintro _ g₁ ⟨hle, -, -⟩
  have hver := (h tid hvars).mono hle
  refine Prog.wpOk.bind rules_monotone wpOk_readAll ?_
  rintro body _ rfl
  refine Prog.wpOk.bind rules_monotone wpOk_unmarshal ?_
  rintro fragmentConfig _ rfl
  refine Prog.wpOk.bind rules_monotone wpOk_failIf ?_
  rintro _ _ ⟨rfl, -⟩
  refine Prog.wpOk.bind rules_monotone wpOk_failIf ?_
  rintro _ _ ⟨rfl, hname⟩
  refine Prog.wpOk.bind rules_monotone (Q := fun _ _ => True) (wpOk_orFail
    ⟨⟨hver, htid, hname⟩, fun _ _ _ _ => trivial⟩) fun _ _ _ => ?_
  rw [Prog.wpOk_pure]
  exact shows_of_nil rfl

theorem wpOk_updateTenantConfigHandler (h : VerifiedVars g r vars) :
    Prog.wpOk (rules mux st r) (updateTenantConfigHandler r vars) g (Shows r) := by
  refine Prog.wpOk.bind rules_monotone wpOk_getTenant ?_
  rintro tid _ ⟨rfl, hvars, htid⟩
  have hver := h tid hvars
  refine Prog.wpOk.bind rules_monotone wpOk_readAll ?_
  rintro body _ rfl
  refine Prog.wpOk.bind rules_monotone wpOk_unmarshal ?_
  rintro tenantConfig g _
  subst g
  refine Prog.wpOk.bind rules_monotone (wpOk_orFail (Q := fun _ g' => Seen.Le _ g')
    ⟨⟨hver, htid⟩, fun _ _ _ _ => Seen.le_after _ _ _⟩) fun _ g₁ hle => ?_
  refine Prog.wpOk.bind rules_monotone (Q := fun _ g₂ => g₁.Le g₂) (Prog.wpOk_lift rules_monotone
    ⟨⟨hver.mono hle, trivial⟩, fun _ _ => Seen.le_after _ _ _⟩) fun _ g₂ hle₂ => ?_
  rw [Prog.wpOk_pure]
  exact shows_of_singleton rfl (hver.mono (hle.trans hle₂))

theorem wpOk_addTenantConfigHandler (h : VerifiedVars g r vars) :
    Prog.wpOk (rules mux st r) (addTenantConfigHandler r vars) g (Shows r) := by
  refine Prog.wpOk.bind rules_monotone wpOk_getTenant ?_
  rintro tid _ ⟨rfl, hvars, -⟩
  refine Prog.wpOk.bind rules_monotone (Q := fun _ g' => Seen.Le _ g') (Prog.wpOk_lift
    rules_monotone ⟨⟨.inl (h tid hvars), trivial⟩, fun _ _ => Seen.le_after _ _ _⟩) ?_
  rintro (err | c) g₁ hle
  · exact wpOk_updateTenantConfigHandler (h.mono hle)
  · exact Prog.wpOk_throw

theorem wpOk_deleteTenantConfigHandler (h : VerifiedVars g r vars)
    (hfor : mux.dispatch r.method r.path = some (.deleteTenantConfig, vars)) :
    Prog.wpOk (rules mux st r) (deleteTenantConfigHandler r vars) g (Shows r) := by
  refine Prog.wpOk.bind rules_monotone wpOk_getTenant ?_
  rintro tid g' ⟨rfl, hvars, -⟩
  have hver := h tid hvars
  refine Prog.wpOk.bind rules_monotone (wpOk_orFail
    (Q := fun routes g'' => g'.Le g'' ∧ (routes = [] → tid ∈ g''.bare))
    ⟨⟨.inl hver, trivial⟩, ?_⟩) ?_
  · rintro res - routes rfl
    refine ⟨Seen.le_after _ _ _, ?_⟩
    rintro rfl
    exact List.mem_cons_self
  rintro routes g₁ ⟨hle, hbare⟩
  refine Prog.wpOk.bind rules_monotone wpOk_failIf ?_
  rintro _ _ ⟨rfl, hnone⟩
  have hmay : MayDelete mux r _ tid :=
    ⟨hver.mono hle, ⟨vars, hfor, hvars⟩, hbare (List.length_eq_zero_iff.mp (by omega))⟩
  refine Prog.wpOk.bind rules_monotone (Q := fun _ _ => True) (wpOk_orFail
    ⟨⟨hmay, trivial⟩, fun _ _ _ _ => trivial⟩) fun _ _ _ => ?_
  rw [Prog.wpOk_pure]
  exact shows_of_nil rfl

/-- A request for one tenant gets the statuses of this tenant out of all. -/
theorem wpOk_getAllStatusHandler (kind : PluginKind)
    (h : g.Verified r none ∨ ∃ tid, Tenant.getTenant vars = .ok tid ∧
      For mux r tid (.getAllStatus kind) ∧ g.Verified r (some tid)) :
    Prog.wpOk (rules mux st r) (getAllStatusHandler kind r vars) g (Shows r) := by
  have hmay : Permitted mux st r g (.status kind) := h.imp_right fun h => h.imp fun _ htid => htid.2
  refine Prog.wpOk.bind rules_monotone (Q := fun _ g' => g.Le g') (Prog.wpOk_lift rules_monotone
    ⟨⟨hmay, trivial⟩, fun _ _ => Seen.le_after g _ _⟩) fun all g' hle => ?_
  rcases h with hall | ⟨tid, htid, -, hver⟩
  · split <;> rw [Prog.wpOk_pure] <;> exact .inl (hall.mono hle)
  · rw [htid]
    dsimp only
    rw [Prog.wpOk_pure]
    refine .inr (List.forall_mem_map.mpr fun s hs => ?_)
    have hs := List.of_mem_filter hs
    rw [Bool.and_eq_true, decide_eq_true_eq] at hs
    rw [hs.1]
    exact hver.mono hle

/-! ## Events -/

/-- The verification of a token of this request. -/
theorem wpOk_verifyToken {token : String} {tid : Option Tenant.Id} :
    Prog.wpOk (rules mux st r) (verifyToken token r.path r.method tid) g fun _ g' =>
      g.Le g' ∧ g'.Verified r tid := by
  refine Prog.wpOk.bind rules_monotone
    (wpOk_orFail (Q := fun _ g' => g.Le g' ∧ g'.Verified r tid) ⟨⟨⟨rfl, rfl⟩, trivial⟩, ?_⟩) ?_
  · rintro (err | who) _ who' hwho
    · cases hwho
    · exact ⟨Seen.le_after g _ _, List.mem_cons_self⟩
  · intro _ g' h
    rw [Prog.wpOk_pure]
    exact h

/-- The configuration of the tenant, from the cache or from the store. -/
theorem wpOk_cachedConfig {tid : Tenant.Id} (h : SendsEvent mux st r tid) :
    Prog.wpOk (rules mux st r) (cachedConfig tid) g fun c g' =>
      c.openEventApi = true → g'.Opened tid := by
  refine Prog.wpOk.bind rules_monotone (Q := fun o g' =>
    ∀ c, o = some c → c.tenant = tid ∧ c ∈ g'.cached)
      (Prog.wpOk_lift rules_monotone ⟨⟨⟨tid, rfl, h⟩, trivial⟩, ?_⟩) ?_
  · rintro o hfound c rfl
    exact ⟨Tenant.key_inj.mp (hfound c rfl), List.mem_cons_self⟩
  · rintro (_ | c) g' hcached
    · refine Prog.wpOk.bind rules_monotone (wpOk_orFail (wpOk_getConfig (.inr h))) ?_
      rintro c g'' ⟨-, rfl, hread⟩
      refine Prog.wpOk.bind rules_monotone (Q := fun _ (g₃ : Seen) => c ∈ g₃.read)
        (Prog.wpOk_lift rules_monotone ⟨⟨⟨hread, h⟩, trivial⟩, fun _ _ => hread⟩) ?_
      intro _ g₃ hread₃
      rw [Prog.wpOk_pure]
      exact fun hopen => ⟨c, .inl hread₃, rfl, hopen⟩
    · rw [Prog.wpOk_pure]
      exact fun hopen => ⟨c, .inr (hcached c rfl).2, (hcached c rfl).1, hopen⟩

/-- The token was accepted, or the event API of the tenant is open. -/
theorem wpOk_authenticateEvent {tid : Tenant.Id} {tenantConfig : TenantConfig}
    (h : tenantConfig.openEventApi = true → g.Opened tid) :
    Prog.wpOk (rules mux st r) (authenticateEvent r vars tid tenantConfig) g fun _ g' =>
      g'.Verified r (some tid) ∨ g'.Opened tid := by
  unfold authenticateEvent
  split
  · exact wpOk_verifyToken.mono rules_monotone fun _ _ h => .inl h.2
  · split
    · exact wpOk_verifyToken.mono rules_monotone fun _ _ h => .inl h.2
    · rename_i hclosed
      rw [Prog.wpOk_pure]
      exact .inr (h (Bool.not_eq_false _ ▸ hclosed))

theorem wpOk_sendEventHandler
    (h : ∀ tid, Tenant.getTenant vars = .ok tid → SendsEvent mux st r tid) :
    Prog.wpOk (rules mux st r) (sendEventHandler st r vars) g (Shows r) := by
  refine Prog.wpOk.bind rules_monotone wpOk_failIf ?_
  rintro _ _ ⟨rfl, -⟩
  refine Prog.wpOk.bind rules_monotone wpOk_getTenant ?_
  rintro tid _ ⟨rfl, hvars, -⟩
  have hsends := h tid hvars
  refine Prog.wpOk.bind rules_monotone (wpOk_cachedConfig hsends) fun tenantConfig g₁ hopen => ?_
  refine Prog.wpOk.bind rules_monotone (wpOk_authenticateEvent hopen) fun _ g₂ hmay => ?_
  refine Prog.wpOk.bind rules_monotone wpOk_readAll ?_
  rintro body _ rfl
  refine Prog.wpOk.bind rules_monotone wpOk_failIf ?_
  rintro _ _ ⟨rfl, -⟩
  refine Prog.wpOk.bind rules_monotone wpOk_failIf ?_
  rintro _ _ ⟨rfl, -⟩
  refine Prog.wpOk.bind rules_monotone wpOk_unmarshal ?_
  rintro payload _ rfl
  refine Prog.wpOk.bind rules_monotone wpOk_failIf ?_
  rintro _ _ ⟨rfl, -⟩
  refine Prog.wpOk.bind rules_monotone (Q := fun _ _ => True) (wpOk_orFail
    ⟨⟨⟨hsends, hmay⟩, trivial⟩, fun _ _ _ _ => trivial⟩) fun _ _ _ => ?_
  rw [Prog.wpOk_pure]
  exact shows_of_nil rfl

theorem wpOk_webhookHandler (hfor : mux.dispatch r.method r.path = some (.webhook, vars)) :
    Prog.wpOk (rules mux st r) (webhookHandler st r vars) g (Shows r) := by
  unfold webhookHandler
  split
  · exact Prog.wpOk_throw
  · exact wpOk_sendEventHandler fun tid htid => .inr ⟨vars, hfor, htid⟩

end Handlers

/-! ## The gate -/

section Gate

variable {mux : Mux} {r : Request} {st : Settings} {vars : Vars} {e : Endpoint} {method path : String}

theorem render_toList (vars : Vars) (template : List Segment) : (render vars template).toList =
    ['/'].intercalate ([] :: template.map fun seg => (seg.text vars).toList) := by
  unfold render
  rw [String.toList_ofList]
  induction template with
  | nil => rfl
  | cons seg rest ih =>
      cases rest with
      | nil => simp
      | cons seg' rest => simp_all

/-- A path is split into the texts of its template. -/
theorem split_render {template : List Segment}
    (h : ∀ seg ∈ template, '/' ∉ (seg.text vars).toList) :
    Jwt.split (render vars template) '/' = "" :: template.map (Segment.text vars) := by
  unfold Jwt.split GoLib.split
  rw [render_toList, List.splitOn_intercalate]
  · simp [Function.comp_def]
  · intro cs hcs
    rcases List.mem_cons.mp hcs with rfl | hcs
    · exact List.not_mem_nil
    · obtain ⟨seg, hseg, rfl⟩ := List.mem_map.mp hcs
      exact h seg hseg
  · exact List.cons_ne_nil _ _

/-- The path of a template without variables. -/
theorem render_of_lit {template : List Segment} (h : ∀ seg ∈ template, ∃ text, seg = .lit text)
    (vars' : Vars) : render vars template = render vars' template := by
  unfold render
  congr 1
  refine List.flatMap_congr fun seg hseg => ?_
  obtain ⟨text, rfl⟩ := h seg hseg
  rfl

/-- Whether the text of a segment has a slash. -/
def Segment.slashed : Segment → Bool
  | .lit text => text.toList.contains '/'
  | .var _ => false

/-- No text of a template has a slash. -/
theorem slash_not_mem_lit : ∀ e ∈ endpoints, ∀ seg ∈ e.template, ∀ text, seg = .lit text →
    '/' ∉ text.toList := by
  have hall : ∀ e ∈ endpoints, ∀ seg ∈ e.template, seg.slashed = false := by decide +kernel
  rintro e he seg hseg text rfl hmem
  have hslash := hall e he _ hseg
  rw [Segment.slashed, List.contains_eq_mem] at hslash
  exact of_decide_eq_false hslash hmem

theorem Endpoint.Fits.split_path (h : e.Fits method path vars) (he : e ∈ endpoints) :
    Jwt.split path '/' = "" :: e.template.map (Segment.text vars) := by
  rw [h.path]
  refine split_render fun seg hseg => ?_
  cases seg with
  | lit text => exact slash_not_mem_lit e he _ hseg text rfl
  | var name => exact (h.filled name hseg).2

/-- Only the path of the endpoint for events is one for `eventUrlValidator`. -/
theorem sendEvent_of_eventUrl (he : e ∈ tenantEndpoints)
    (h : (e.behind tenantPath).Fits method path vars) (hurl : eventUrlValidator path = true) :
    e.handler = .sendEvent := by
  have hmem : e.behind tenantPath ∈ endpoints :=
    List.mem_append_left _ (List.mem_append_right _ (List.mem_map_of_mem he))
  unfold eventUrlValidator at hurl
  rw [h.split_path hmem] at hurl
  fin_cases he <;> first | rfl | cases hurl

/-- The path of a tenant is none of the others that the middleware knows. -/
theorem tenant_path (vars : Vars) (rest : List Segment) :
    render vars (tenantPath ++ rest) ≠ "/ears/version" ∧
      (∀ start ∈ ["/ears/openapi", "/eel/v1/events", "/ears/v1/events"] ++ globalPaths,
        GoLib.hasPrefix (render vars (tenantPath ++ rest)) start = false) := by
  have hlist : ∃ cs, (render vars (tenantPath ++ rest)).toList = "/ears/v1/orgs".toList ++ cs := by
    refine ⟨(.var "orgId" :: .lit "applications" :: .var "appId" :: rest).flatMap fun seg =>
      '/' :: (seg.text vars).toList, ?_⟩
    unfold render tenantPath
    rw [String.toList_ofList]
    simp [Segment.text]
  obtain ⟨cs, hcs⟩ := hlist
  constructor
  · intro heq
    rw [heq] at hcs
    simp at hcs
  · unfold GoLib.hasPrefix
    rw [hcs]
    intro start hstart
    fin_cases hstart <;> rfl

/-- A handler that makes one call and answers with what it returns. -/
theorem wpOk_answer {g : Seen} {α : Type} {x : Call α} {item : α → Item}
    (h : Prog.wpOk (rules mux st r) x g fun _ g' => g'.Verified r none) :
    Prog.wpOk (rules mux st r) (do
      let a ← orFail x
      pure (item a)) g (Shows r) := by
  refine Prog.wpOk.bind rules_monotone (wpOk_orFail h) fun _ _ hall => ?_
  rw [Prog.wpOk_pure]
  exact .inl hall

theorem wpOk_getAllRoutesHandler {g : Seen} (vars : Vars) (h : g.Verified r none) :
    Prog.wpOk (rules mux st r) (getAllRoutesHandler r vars) g (Shows r) := by
  refine Prog.wpOk.bind rules_monotone (Q := fun _ g' => g.Le g') (wpOk_orFail
    ⟨⟨h, trivial⟩, fun _ _ _ _ => Seen.le_after g _ _⟩) fun configs g' hle => ?_
  exact wpOk_answer (wpOk_getAllRoutes configs (h.mono hle))

/-- The handlers for one tenant. -/
theorem wpOk_tenantHandler {g : Seen} (he : e ∈ tenantEndpoints) (h : VerifiedVars g r vars)
    (hany : ∃ tid, Tenant.getTenant vars = .ok tid ∧ g.Verified r (some tid))
    (hfor : mux.dispatch r.method r.path = some (e.handler, vars)) :
    Prog.wpOk (rules mux st r) (handler st e.handler r vars) g (Shows r) := by
  have hstatus : ∀ kind, mux.dispatch r.method r.path = some (.getAllStatus kind, vars) →
      Prog.wpOk (rules mux st r) (getAllStatusHandler kind r vars) g (Shows r) := fun kind hkind =>
    wpOk_getAllStatusHandler kind (.inr (hany.imp fun tid htid =>
      ⟨htid.1, ⟨vars, hkind, htid.1⟩, htid.2⟩))
  fin_cases he
  · exact wpOk_addRouteHandler h hfor
  · exact wpOk_sendEventHandler fun tid htid => .inl ⟨vars, hfor, htid⟩
  · exact wpOk_reloadRouteHandler h
  · exact wpOk_enableDisableRouteHandler h hfor
  · exact wpOk_addRouteHandler h hfor
  · exact wpOk_removeRouteHandler h
  · exact wpOk_getRouteHandler h
  · exact wpOk_getAllTenantRoutesHandler h
  · exact hstatus .senders hfor
  · exact hstatus .senders hfor
  · exact hstatus .receivers hfor
  · exact hstatus .receivers hfor
  · exact hstatus .filters hfor
  · exact hstatus .filters hfor
  · exact wpOk_addFragmentHandler h
  · exact wpOk_addFragmentHandler h
  · exact wpOk_removeFragmentHandler h
  · exact wpOk_getFragmentHandler h
  · exact wpOk_getAllTenantFragmentsHandler h
  · exact wpOk_getTenantConfigHandler h
  · exact wpOk_updateTenantConfigHandler h
  · exact wpOk_addTenantConfigHandler h
  · exact wpOk_deleteTenantConfigHandler h hfor
  · exact wpOk_getTenantConfigHandler h
  · exact wpOk_updateTenantConfigHandler h
  · exact wpOk_addTenantConfigHandler h
  · exact wpOk_deleteTenantConfigHandler h hfor

/-- The handlers for all tenants. -/
theorem wpOk_globalHandler {g : Seen} (he : e ∈ globalEndpoints) (h : g.Verified r none) :
    Prog.wpOk (rules mux st r) (handler st e.handler r vars) g (Shows r) := by
  fin_cases he
  · exact wpOk_getAllRoutesHandler vars h
  · exact wpOk_answer (wpOk_reloadAllRoutes h)
  · exact wpOk_answer (x := tryCall (call .getAllConfigs))
      ⟨⟨h, trivial⟩, fun _ _ _ _ => h.mono (Seen.le_after g _ _)⟩
  · exact wpOk_getAllStatusHandler .senders (.inl h)
  · exact wpOk_getAllStatusHandler .receivers (.inl h)
  · exact wpOk_getAllStatusHandler .filters (.inl h)
  · exact wpOk_answer (x := tryCall (call .getAllFragments))
      ⟨⟨h, trivial⟩, fun _ _ _ _ => h.mono (Seen.le_after g _ _)⟩

/-- What `authenticateMiddleware` does for the endpoints of one tenant. -/
theorem wpOk_tenantEndpoint (he : e ∈ tenantEndpoints)
    (h : (e.behind tenantPath).Fits r.method r.path vars)
    (hfor : mux.dispatch r.method r.path = some (e.handler, vars)) :
    Prog.wpOk (rules mux st r) (authenticateMiddleware r vars (handler st e.handler r vars)) {}
      (Shows r) := by
  obtain ⟨hversion, hother⟩ := tenant_path vars e.template
  have hpath : r.path = render vars (tenantPath ++ e.template) := h.path
  rw [← hpath] at hversion hother
  have hglobal : globalPaths.any (GoLib.hasPrefix r.path) = false :=
    List.any_eq_false.mpr fun start hstart =>
      Bool.not_eq_true _ ▸ hother start (List.mem_append_right _ hstart)
  unfold authenticateMiddleware
  rw [if_neg hversion, hother "/ears/openapi" (by decide), hother "/eel/v1/events" (by decide),
    hother "/ears/v1/events" (by decide), hglobal]
  refine Prog.wpOk.bind rules_monotone wpOk_getTenant ?_
  rintro tid _ ⟨rfl, hvars, -⟩
  split
  · rename_i hurl
    have hsend := sendEvent_of_eventUrl he h hurl
    rw [hsend] at hfor ⊢
    exact wpOk_sendEventHandler fun tid' htid' => .inl ⟨vars, hfor, htid'⟩
  · refine Prog.wpOk.bind rules_monotone wpOk_verifyToken ?_
    rintro _ g ⟨-, hver⟩
    refine wpOk_tenantHandler he (fun tid' htid' => ?_) ⟨_, hvars, hver⟩ hfor
    rw [hvars] at htid'
    obtain rfl := Except.ok.inj htid'
    exact hver

/-- The same for all tenants. -/
theorem wpOk_globalEndpoint (he : e ∈ globalEndpoints)
    (h : (e.behind [.lit "ears", .lit "v1"]).Fits r.method r.path vars) :
    Prog.wpOk (rules mux st r) (authenticateMiddleware r vars (handler st e.handler r vars)) {}
      (Shows r) := by
  have hpath : r.path ∈ globalPaths := by
    rw [h.path, render_of_lit (by fin_cases he <;> simp [Endpoint.behind]) fun _ => ""]
    fin_cases he <;> decide
  have hglobal : globalPaths.any (GoLib.hasPrefix r.path) = true := by
    refine List.any_eq_true.mpr ⟨r.path, hpath, ?_⟩
    exact List.isPrefixOf_iff_prefix.mpr (List.prefix_refl _)
  have hother : r.path ≠ "/ears/version" ∧ GoLib.hasPrefix r.path "/ears/openapi" = false ∧
      GoLib.hasPrefix r.path "/eel/v1/events" = false ∧
      GoLib.hasPrefix r.path "/ears/v1/events" = false := by
    generalize r.path = path at hpath
    fin_cases hpath <;> decide
  unfold authenticateMiddleware
  rw [if_neg hother.1, hother.2.1, hother.2.2.1, hother.2.2.2, hglobal]
  refine Prog.wpOk.bind rules_monotone wpOk_verifyToken ?_
  rintro _ g ⟨-, hver⟩
  exact wpOk_globalHandler he hver

/-- The same for the endpoints that need no token. -/
theorem wpOk_openEndpoint (he : e ∈ openEndpoints) (h : e.Fits r.method r.path vars)
    (hfor : mux.dispatch r.method r.path = some (e.handler, vars)) :
    Prog.wpOk (rules mux st r) (authenticateMiddleware r vars (handler st e.handler r vars)) {}
      (Shows r) := by
  have hnext : Prog.wpOk (rules mux st r) (handler st e.handler r vars) {} (Shows r) := by
    fin_cases he
    · exact Prog.wpOk_pure.mpr (shows_of_nil rfl)
    · exact wpOk_webhookHandler hfor
    · exact wpOk_webhookHandler hfor
  have hpath : r.path ∈ ["/ears/version", "/eel/v1/events", "/ears/v1/events"] := by
    rw [h.path, render_of_lit (by fin_cases he <;> simp) fun _ => ""]
    fin_cases he <;> decide
  have hopen : r.path = "/ears/version" ∨ (GoLib.hasPrefix r.path "/eel/v1/events" ||
      GoLib.hasPrefix r.path "/ears/v1/events") = true := by
    generalize r.path = path at hpath
    fin_cases hpath <;> decide
  unfold authenticateMiddleware
  split
  · exact hnext
  · rename_i hversion
    split
    · exact hnext
    · rw [if_pos (hopen.resolve_left hversion)]
      exact hnext

/-- **A request follows the rules**, whatever the router dispatches it to, and its answer shows
what it may show. -/
theorem wp_serve (mux : Mux) (st : Settings) (r : Request) :
    (serve mux st r).wp (rules mux st r) True {} fun res g =>
      ∀ item, res = some (.ok item) → Shows r item g := by
  have hsome : ∀ h vars, Prog.wpOk (rules mux st r)
      (authenticateMiddleware r vars (handler st h r vars)) {} (Shows r) →
      ((some <$> (authenticateMiddleware r vars (handler st h r vars)).run : Prog sig _)).wp
        (rules mux st r) True {} fun res g => ∀ item, res = some (.ok item) → Shows r item g := by
    intro h vars hwp
    rw [← bind_pure_comp]
    exact Prog.wp.bind rules_monotone hwp fun res g hres item hitem =>
      hres item (Option.some.inj hitem)
  unfold serve
  cases hdispatch : mux.dispatch r.method r.path with
  | none => exact fun _ hitem => by cases hitem
  | some dispatched =>
      obtain ⟨h, vars⟩ := dispatched
      apply hsome
      rcases mux.sound _ _ _ _ hdispatch with ⟨rfl, hweb⟩ | ⟨e, he, rfl, hfits⟩
      · unfold authenticateMiddleware
        rw [if_pos hweb]
        split <;> exact Prog.wpOk_pure.mpr (shows_of_nil rfl)
      · rcases List.mem_append.mp he with he | he
        · rcases List.mem_append.mp he with he | he
          · exact wpOk_openEndpoint he hfits hdispatch
          · obtain ⟨e, hmem, rfl⟩ := List.mem_map.mp he
            exact wpOk_tenantEndpoint (e := e) hmem hfits hdispatch
        · obtain ⟨e, hmem, rfl⟩ := List.mem_map.mp he
          exact wpOk_globalEndpoint (e := e) hmem hfits

end Gate

end Api
