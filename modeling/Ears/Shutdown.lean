/-
# The shutdown (`UnregisterAllRoutes`)

The shutdown walks the keys of the table and unregisters the routes behind them.  It names a
route by the tenant and the id in the configuration of the live route, and the table loses
keys while it is walked: a key that has gone before the walk comes to it is not visited.

`shutdown_releases_iff`: whatever the order of the walk, the table ends up empty, with all
plugins released, exactly when every key is the key of its live route's configuration.  When
two ids share a live route, one of them names the other and stays.
-/
import Ears.GlobalSync

open Plugin

/-- No plugin of the live route is registered. -/
structure LiveRouteWrapper.Released (lrw : LiveRouteWrapper) (m : Manager) : Prop where
  receivers : ∀ id ∈ lrw.receiver.toList, id ∉ m.receivers.wrapped
  filters : ∀ id ∈ lrw.filterChain, id ∉ m.filters.wrapped
  senders : ∀ id ∈ lrw.sender.toList, id ∉ m.senders.wrapped

namespace RoutingTable

/-! ## The walk -/

/-- The body of the loop of `UnregisterAllRoutes`.  An error is logged and ignored. -/
def unregisterVisited (t : RoutingTable) (key : String) : RoutingTable :=
  match t.liveRouteMap.lookup key with
  | none => t
  | some w =>
      let c := (t.wrappers w).config
      (t.unregisterAndStopRoute c.tenantId c.id).1

/-- `UnregisterAllRoutes`: no error is ever returned.  `order` is the order in which the
keys are visited. -/
def unregisterAllRoutes (t : RoutingTable) (order : List String) :
    RoutingTable × Option RouteError :=
  (order.foldl unregisterVisited t, none)

/-- The shutdown has done its work: both tables are empty, and no live route made so far
holds a plugin. -/
structure ShutDown (t t' : RoutingTable) : Prop where
  liveRouteMap : t'.liveRouteMap = ∅
  routeHashMap : t'.routeHashMap = ∅
  released : ∀ w < t.next, (t.wrappers w).Released t'.pluginMgr

variable {t t' : RoutingTable} {key : String} {order : List String}

/-! ## What a walk keeps -/

/-- The objects of the table are the same, but for their counters. -/
structure SameObjects (t t' : RoutingTable) : Prop where
  next : t'.next = t.next
  route : ∀ v, SameRoute (t.wrappers v) (t'.wrappers v)

theorem SameObjects.refl (t : RoutingTable) : t.SameObjects t := ⟨rfl, fun _ => SameRoute.refl _⟩

theorem SameObjects.trans {t'' : RoutingTable} (h : t.SameObjects t') (h' : t'.SameObjects t'') :
    t.SameObjects t'' where
  next := h'.next.trans h.next
  route := fun v =>
    ⟨(h'.route v).config.trans (h.route v).config, (h'.route v).receiver.trans (h.route v).receiver,
      (h'.route v).sender.trans (h.route v).sender,
      (h'.route v).filterChain.trans (h.route v).filterChain⟩

theorem unregisterAndStopRoute_sameObjects (t : RoutingTable) (tid : Tenant.Id)
    (routeId : String) : t.SameObjects (t.unregisterAndStopRoute tid routeId).1 := by
  obtain ⟨-, hnext, hsame⟩ := unregisterAndStopRoute_frame t tid routeId
  exact ⟨hnext, hsame⟩

/-- The key that a live route's configuration has. -/
def ownKey (t : RoutingTable) (w : ℕ) : String := (t.wrappers w).config.key

theorem SameObjects.ownKey_eq (h : t.SameObjects t') : t'.ownKey = t.ownKey := by
  funext w
  unfold ownKey
  rw [(h.route w).config]

/-- One visit. -/
theorem Sound.unregisterVisited (h : t.Sound) (key : String) :
    (t.unregisterVisited key).Sound ∧ t.SameObjects (t.unregisterVisited key) ∧
      (t.unregisterVisited key).liveRouteMap = t.liveRouteMap.visit t.ownKey key := by
  unfold RoutingTable.unregisterVisited
  cases hkey : t.liveRouteMap.lookup key with
  | none => exact ⟨h, SameObjects.refl t, (Finmap.visit_of_none hkey).symm⟩
  | some w =>
      have hun := h.unregisterAndStopRoute (t.wrappers w).config.tenantId (t.wrappers w).config.id
      refine ⟨hun.2, unregisterAndStopRoute_sameObjects _ _ _, ?_⟩
      rw [Finmap.visit_of_some hkey]
      exact (unregisterAndStopRoute_frame _ _ _).1

/-- The whole walk. -/
theorem Sound.foldl_unregisterVisited (h : t.Sound) (order : List String) :
    (order.foldl RoutingTable.unregisterVisited t).Sound ∧
      t.SameObjects (order.foldl RoutingTable.unregisterVisited t) ∧
      (order.foldl RoutingTable.unregisterVisited t).liveRouteMap =
        t.liveRouteMap.drain t.ownKey order := by
  induction order generalizing t with
  | nil => exact ⟨h, SameObjects.refl t, rfl⟩
  | cons key order ih =>
      obtain ⟨hsound, hsame, hmap⟩ := h.unregisterVisited key
      obtain ⟨hsound', hsame', hmap'⟩ := ih hsound
      -- the rest of the walk finds the configurations as they were
      refine ⟨hsound', hsame.trans hsame', ?_⟩
      rw [List.foldl_cons, hmap', hmap, hsame.ownKey_eq]
      rfl

/-! ## What is left -/

theorem visits_iff : t.Visits order ↔ order.Nodup ∧ ∀ key, key ∈ order ↔ key ∈ t.liveRouteMap := by
  unfold Visits
  simp only [← Finmap.lookup_isSome, Option.isSome_iff_ne_none]

theorem ownKeys_iff : t.OwnKeys ↔ ∀ key w, t.liveRouteMap.lookup key = some w → t.ownKey w = key := by
  unfold OwnKeys
  simp only [entry_eq_some]
  constructor
  · exact fun h key w hkey => h key _ ⟨w, hkey, rfl⟩
  · rintro h key d ⟨w, hkey, rfl⟩
    exact h key w hkey

/-- The walk takes all keys off the table exactly when each live route names its key. -/
theorem Sound.unregisterAllRoutes_eq_empty_iff (h : t.Sound) (horder : t.Visits order) :
    (t.unregisterAllRoutes order).1.liveRouteMap = ∅ ↔ t.OwnKeys := by
  obtain ⟨hnodup, hmem⟩ := visits_iff.mp horder
  rw [ownKeys_iff, ← Finmap.drain_eq_empty_iff hnodup hmem]
  exact (h.foldl_unregisterVisited order).2.2 ▸ Iff.rfl

/-- A sound table without keys has no hashes, and its objects hold no plugins. -/
theorem Sound.shutDown (h : t'.Sound) (hsame : t.SameObjects t') (hempty : t'.liveRouteMap = ∅) :
    t.ShutDown t' := by
  have hlive : ∀ w, ¬ t'.Live w := by
    rintro w ⟨key, hkey⟩
    rw [hempty] at hkey
    simp at hkey
  refine ⟨hempty, ?_, fun w hw => ?_⟩
  · apply Finmap.ext_lookup
    intro hash
    rw [Finmap.lookup_empty]
    by_contra hne
    obtain ⟨w, hw⟩ := Option.ne_none_iff_exists'.mp hne
    exact hlive w (h.unhashed hash w hw).2
  · -- an object that no key leads to holds no plugin
    obtain ⟨hreceivers, hsenders, hfilters⟩ := h.released (hsame.next ▸ hw) (hlive w)
    rw [(hsame.route w).receiver] at hreceivers
    rw [(hsame.route w).sender] at hsenders
    rw [(hsame.route w).filterChain] at hfilters
    exact ⟨hreceivers, hfilters, hsenders⟩

/-- **When the shutdown releases everything.**  For a table that calls of `AddRoute`,
`RemoveRoute` and `SyncItem` have led to that spare the live routes, and every order of the
walk: both tables are empty and every plugin is released afterwards exactly when every key is
the key of its live route's configuration.  No unregistration fails on such a table. -/
theorem shutdown_releases_iff {region : String} {ops : List Op} (hspare : Sparing region ops)
    (hrun : Runs.run (step region) empty ops = some t) (horder : t.Visits order) :
    t.ShutDown (t.unregisterAllRoutes order).1 ↔ t.OwnKeys := by
  have hsound := sound_of_run hspare hrun
  obtain ⟨hafter, hsame, -⟩ := hsound.foldl_unregisterVisited order
  constructor
  · intro h
    exact (hsound.unregisterAllRoutes_eq_empty_iff horder).mp h.liveRouteMap
  · intro h
    exact hafter.shutDown hsame ((hsound.unregisterAllRoutes_eq_empty_iff horder).mpr h)

/-- The shutdown of a table with two different routes releases everything. -/
theorem shutdown_releases_separate :
    ∃ t, Runs.run (step "us-west") empty separateOps = some t ∧ t.liveRouteMap ≠ ∅ ∧
      ∀ order, t.Visits order → t.ShutDown (t.unregisterAllRoutes order).1 := by
  obtain ⟨t, hrun, hcard, hown⟩ := separate_ownKeys
  refine ⟨t, hrun, fun hempty => ?_, fun order horder =>
    (shutdown_releases_iff (separateOps_sparing _) hrun horder).mpr hown⟩
  rw [hempty] at hcard
  simp at hcard

/-- When two ids share a route, no order of the walk takes both off the table. -/
theorem shared_route_survives_shutdown :
    ∃ t, Runs.run (step "us-west") empty sharedOps = some t ∧
      ∀ order, t.Visits order → ¬ t.ShutDown (t.unregisterAllRoutes order).1 := by
  obtain ⟨t, hrun, d, hd, -, hkey⟩ := shared_entry
  refine ⟨t, hrun, fun order horder h => hkey ?_⟩
  have hsound := sound_of_run (sharedOps_sparing _) hrun
  exact (hsound.unregisterAllRoutes_eq_empty_iff horder).mp h.liveRouteMap _ d hd

end RoutingTable
