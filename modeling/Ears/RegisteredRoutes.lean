/-
# The registered routes (`GetAllRegisteredRoutes`, `GetRegisteredRoute`, `ReloadAllRoutes`)

The methods that show the routes of the table return the configurations of the live routes.
A live route that several ids share has the configuration of one of them.  `ReloadAllRoutes`
walks the configurations that it is shown, and reloads each of them from storage.

`faithful_iff`: the table is shown as it is, and reloaded as a whole, exactly when every key is
the key of its live route's configuration.
-/
import Ears.GlobalSync
import Ears.DeltaSync

open Plugin

/-- `errs.String` with a name, the values in the order of their keys, and the text of the
wrapped error. -/
def errsString (name : String) (values : List (String × String)) (wrapped : String) : String :=
  let msg :=
    if values = [] then name
    else name ++ " (" ++ " ".intercalate (values.map fun v => v.1 ++ "=" ++ v.2) ++ ")"
  if wrapped = "" then msg else msg ++ ": " ++ wrapped

/-- `RegistrationError.Error`; the name and the plugin are exchanged there. -/
def Plugin.RegistrationError.error (e : RegistrationError) : String :=
  errsString "RegistrationError"
    [("message", e.message), ("name", e.plugin), ("plugin", e.name)] e.err

/-- What `ReloadRoute` wraps in a `RouteRegistrationError`. -/
inductive ReloadError where
  | getRoute (text : String)
  | plugin (err : RegistrationError)
  deriving DecidableEq, Repr

/-- `RouteRegistrationError.Error`. -/
def ReloadError.error : ReloadError → String
  | .getRoute text => errsString "RouteRegistrationError" [] text
  | .plugin err => errsString "RouteRegistrationError" [] err.error

example : (ReloadError.plugin { message := "could not get plugin", plugin := "sqs", name := "in" }).error =
    "RouteRegistrationError: RegistrationError (message=could not get plugin name=sqs plugin=in)" := by
  decide

/-- What `ReloadRoute` reads: the route in storage, and the answers of the plugins. -/
structure ReloadEnv where
  getRoute : Tenant.Id → String → Except String Route.Config
  plugins : ℕ → Answers

/-- The route in storage is the one that was asked for. -/
def ReloadEnv.Keyed (env : ReloadEnv) : Prop :=
  ∀ tid routeId c, env.getRoute tid routeId = .ok c → c.tenantId = tid ∧ c.id = routeId

namespace RoutingTable

/-! ## The methods -/

/-- `GetAllRegisteredRoutes`; `order` is the order in which the keys are visited. -/
def getAllRegisteredRoutes (t : RoutingTable) (order : List String) : List Route.Config :=
  order.filterMap t.entry

/-- `GetRegisteredRoute`. -/
def getRegisteredRoute (t : RoutingTable) (tid : Tenant.Id) (routeId : String) :
    Except String Route.Config :=
  match t.liveRouteMap.lookup (tid.keyWithRoute routeId) with
  | some w => .ok (t.wrappers w).config
  | none => .error ("no live route with ID " ++ routeId)

/-- `ReloadRoute`, with the delta events it publishes. -/
def reloadRoute (region : String) (t : RoutingTable) (tid : Tenant.Id) (routeId : String)
    (env : ReloadEnv) : RoutingTable × List Delta × Except ReloadError Route.Config :=
  match env.getRoute tid routeId with
  | .error err => (t, [], .error (.getRoute err))
  | .ok c =>
      match t.unregisterAndStopRoute c.tenantId c.id with
      | (t, some err) => (t, [], .error (.plugin err))
      | (t, none) =>
          match t.registerAndRunRoute region c env.plugins with
          | (t, some err) => (t, [⟨c.tenantId, c.id, false⟩], .error (.plugin err))
          | (t, none) => (t, [⟨c.tenantId, c.id, false⟩, ⟨c.tenantId, c.id, true⟩], .ok c)

/-- The state of the loop of `ReloadAllRoutes`: the table, the ids and the errors collected so
far, and the delta events. -/
structure Reloading where
  table : RoutingTable
  rids : List String
  errs : Finmap fun _ : String => ReloadError
  published : List Delta

/-- The body of the loop of `ReloadAllRoutes`. -/
def reloadNext (region : String) (env : ℕ → ReloadEnv) (s : Reloading) (rt : Route.Config) :
    Reloading :=
  let r := s.table.reloadRoute region rt.tenantId rt.id (env s.rids.length)
  { table := r.1
    rids := s.rids ++ [rt.id]
    errs :=
      match r.2.2 with
      | .error err => s.errs.insert rt.id err
      | .ok _ => s.errs
    published := s.published ++ r.2.1 }

/-- The text that reports the errors, in an order of their ids. -/
def errRep (errs : Finmap fun _ : String => ReloadError) (rids : List String) : String :=
  "".intercalate (rids.filterMap fun rid => (errs.lookup rid).map fun err =>
    "failed to reload route " ++ rid ++ ": " ++ err.error ++ "\n")

/-- `ReloadAllRoutes`: what the loop ends with, and the error.  `order` is the order of the keys
in the table, `errOrder` that of the errors, and `env n` is what the `n`-th reload reads. -/
def reloadAllRoutes (region : String) (t : RoutingTable) (order : List String)
    (env : ℕ → ReloadEnv) (errOrder : List String) : Reloading × Option String :=
  let s := (t.getAllRegisteredRoutes order).foldl (reloadNext region env) ⟨t, [], ∅, []⟩
  if 0 < s.errs.keys.card then
    (s, some (errsString "RouteRegistrationError" [] (errRep s.errs errOrder)))
  else (s, none)

/-! ## What they are for -/

/-- The delta events of a reload. -/
def reloadDeltas (c : Route.Config) : List Delta :=
  [⟨c.tenantId, c.id, false⟩, ⟨c.tenantId, c.id, true⟩]

/-- All keys were reloaded once each: with the routes that storage has for them, which the table
holds afterwards if they are meant to run here. -/
def ReloadedOnce (region : String) (order : List String) (s : Reloading) : Prop :=
  ∃ reloaded : List Route.Config, (reloaded.map Route.Config.key).Perm order ∧
    s.rids = reloaded.map Route.Config.id ∧
    s.published = reloaded.flatMap reloadDeltas ∧
    ∀ c ∈ reloaded, s.table.hashAt c.key = target region (some c)

/-- The methods show and reload the routes of the table. -/
structure Faithful (region : String) (t : RoutingTable) : Prop where
  all : ∀ order, t.Visits order →
    ((t.getAllRegisteredRoutes order).map Route.Config.key).Perm order
  succeeds : ∀ tid routeId, (∃ c, t.getRegisteredRoute tid routeId = .ok c) ↔
    t.liveRouteMap.lookup (tid.keyWithRoute routeId) ≠ none
  own : ∀ tid routeId c, t.getRegisteredRoute tid routeId = .ok c →
    c.tenantId = tid ∧ c.id = routeId
  reload : ∀ order env errOrder, t.Visits order → (∀ n, (env n).Keyed) →
    (t.reloadAllRoutes region order env errOrder).2 = none →
    ReloadedOnce region order (t.reloadAllRoutes region order env errOrder).1

variable {t : RoutingTable} {region : String} {order : List String} {c : Route.Config}
  {tid : Tenant.Id} {routeId : String} {env : ReloadEnv}

/-! ## The views -/

theorem getRegisteredRoute_eq_ok :
    t.getRegisteredRoute tid routeId = .ok c ↔ t.entry (tid.keyWithRoute routeId) = some c := by
  unfold getRegisteredRoute entry
  cases t.liveRouteMap.lookup (tid.keyWithRoute routeId) with
  | none => simp
  | some w => simp

theorem exists_getRegisteredRoute : (∃ c, t.getRegisteredRoute tid routeId = .ok c) ↔
    t.liveRouteMap.lookup (tid.keyWithRoute routeId) ≠ none := by
  simp only [getRegisteredRoute_eq_ok]
  rw [ne_eq, ← entry_eq_none, ← ne_eq, Option.ne_none_iff_exists']

/-- With every key its own, the configurations are in the order of the keys. -/
theorem OwnKeys.map_key (h : t.OwnKeys) (hlive : ∀ key ∈ order, t.entry key ≠ none) :
    (t.getAllRegisteredRoutes order).map Route.Config.key = order := by
  unfold getAllRegisteredRoutes
  induction order with
  | nil => rfl
  | cons key order ih =>
      obtain ⟨d, hd⟩ := Option.ne_none_iff_exists'.mp (hlive key List.mem_cons_self)
      rw [List.filterMap_cons_some hd, List.map_cons, h key d hd,
        ih fun k hk => hlive k (List.mem_cons_of_mem _ hk)]

/-- A route's key has the route's tenant and id. -/
theorem OwnKeys.own (h : t.OwnKeys) (hc : t.getRegisteredRoute tid routeId = .ok c) :
    c.tenantId = tid ∧ c.id = routeId :=
  Tenant.keyWithRoute_inj.mp (h _ c (getRegisteredRoute_eq_ok.mp hc))

/-! ## A reload -/

/-- A reload that succeeds: the key has what storage has for it, all other keys are left
alone, and two events are published. -/
theorem Sound.reloadRoute_ok (h : t.Sound) {t' : RoutingTable} {deltas : List Delta}
    (hr : t.reloadRoute region tid routeId env = (t', deltas, .ok c)) :
    env.getRoute tid routeId = .ok c ∧ t'.Sound ∧ deltas = reloadDeltas c ∧
      ∀ key, t'.hashAt key = if key = c.key then target region (some c) else t.hashAt key := by
  unfold reloadRoute at hr
  split at hr
  · simp at hr
  · rename_i c' hget
    obtain ⟨hnone, hsound⟩ := h.unregisterAndStopRoute c'.tenantId c'.id
    split at hr
    · simp at hr
    · rename_i t₁ heq
      rw [heq] at hsound
      split at hr
      · simp at hr
      · rename_i t₂ hreg
        obtain ⟨rfl, rfl, hc⟩ : t₂ = t' ∧ _ = deltas ∧ c' = c := by simpa using hr
        subst hc
        have hentry : ∀ k, t₁.entry k = if k = c'.key then none else t.entry k := by
          intro k
          have hk := unregisterAndStopRoute_entry t c'.tenantId c'.id k
          rw [heq] at hk
          exact hk
        -- the key is off the table, so the route is not taken for the one that runs
        have hoff : t₁.hashAt c'.key = none := by
          unfold hashAt
          rw [hentry, if_pos rfl]
          rfl
        have hok : (t₁.registerAndRunRoute region c' env.plugins).2 = none := by rw [hreg]
        have hhash := hsound.register_hashAt hok (by rw [hoff]; simp)
        have hsound₂ := (hsound.registerAndRunRoute region c' env.plugins).1
        rw [hreg] at hhash hsound₂
        refine ⟨hget, hsound₂, rfl, fun key => ?_⟩
        rw [hhash key]
        split
        · rfl
        · rename_i hne
          unfold hashAt
          rw [hentry, if_neg hne]

/-- The state after some configurations have been visited and nothing has failed. -/
structure Reloaded (region : String) (rts : List Route.Config) (s : Reloading)
    (reloaded : List Route.Config) : Prop where
  sound : s.table.Sound
  keys : reloaded.map Route.Config.key = rts.map Route.Config.key
  rids : s.rids = reloaded.map Route.Config.id
  published : s.published = reloaded.flatMap reloadDeltas
  hashAt : ∀ c ∈ reloaded, s.table.hashAt c.key = target region (some c)

/-- The loop, as long as nothing fails. -/
theorem Sound.foldl_reloadNext (h : t.Sound) {env : ℕ → ReloadEnv} (henv : ∀ n, (env n).Keyed)
    {rts : List Route.Config} (hnodup : (rts.map Route.Config.key).Nodup)
    (herrs : (rts.foldl (reloadNext region env) ⟨t, [], ∅, []⟩).errs = ∅) :
    ∃ reloaded, Reloaded region rts (rts.foldl (reloadNext region env) ⟨t, [], ∅, []⟩)
      reloaded := by
  induction rts using List.reverseRecOn with
  | nil => exact ⟨[], h, rfl, rfl, rfl, fun c hc => absurd hc List.not_mem_nil⟩
  | append_singleton rts rt ih =>
      rw [List.map_append, List.nodup_append] at hnodup
      rw [List.foldl_append, List.foldl_cons, List.foldl_nil] at herrs ⊢
      generalize rts.foldl (reloadNext region env) ⟨t, [], ∅, []⟩ = s at herrs ih ⊢
      unfold reloadNext at herrs ⊢
      rcases hr : s.table.reloadRoute region rt.tenantId rt.id (env s.rids.length) with
        ⟨t', deltas, err | c⟩
      · -- an error stays in the map
        rw [hr] at herrs
        have hlook := congrArg (Finmap.lookup rt.id) herrs
        simp at hlook
      · -- what was reloaded before has another key and is left alone
        rw [hr] at herrs
        obtain ⟨reloaded, hs⟩ := ih hnodup.1 herrs
        obtain ⟨hget, hsound, rfl, hhash⟩ := hs.sound.reloadRoute_ok hr
        obtain ⟨htid, hid⟩ := henv _ _ _ _ hget
        have hkey : c.key = rt.key := by
          unfold Route.Config.key
          rw [htid, hid]
        refine ⟨reloaded ++ [c], hsound, ?_, ?_, ?_, ?_⟩
        · rw [List.map_append, List.map_append, hs.keys, List.map_singleton, List.map_singleton, hkey]
        · rw [List.map_append, ← hs.rids, List.map_singleton, hid]
        · rw [List.flatMap_append, ← hs.published, List.flatMap_singleton]
        · intro c' hc'
          show t'.hashAt c'.key = _
          rw [hhash]
          rcases List.mem_append.mp hc' with hc' | hc'
          · rw [if_neg, hs.hashAt c' hc']
            intro heq
            have hmem : c'.key ∈ rts.map Route.Config.key :=
              hs.keys ▸ List.mem_map_of_mem hc'
            exact hnodup.2.2 _ hmem rt.key (by simp) (heq.trans hkey)
          · rw [List.mem_singleton.mp hc', if_pos rfl]

/-- With every key its own, all keys are reloaded. -/
theorem Sound.reloadedOnce (h : t.Sound) (hown : t.OwnKeys) (horder : t.Visits order)
    {env : ℕ → ReloadEnv} (henv : ∀ n, (env n).Keyed) {errOrder : List String}
    (hnone : (t.reloadAllRoutes region order env errOrder).2 = none) :
    ReloadedOnce region order (t.reloadAllRoutes region order env errOrder).1 := by
  have hkeys : (t.getAllRegisteredRoutes order).map Route.Config.key = order :=
    hown.map_key fun key hkey => by rw [ne_eq, entry_eq_none]; exact (horder.2 key).mp hkey
  unfold reloadAllRoutes at hnone ⊢
  dsimp only at hnone ⊢
  split at hnone
  · simp at hnone
  · rename_i hcard
    rw [if_neg hcard]
    have herrs : ((t.getAllRegisteredRoutes order).foldl (reloadNext region env)
        ⟨t, [], ∅, []⟩).errs = ∅ := by
      apply Finmap.ext_lookup
      intro rid
      rw [Finmap.lookup_empty, Finmap.lookup_eq_none, ← Finmap.mem_keys,
        Finset.card_eq_zero.mp (Nat.eq_zero_of_not_pos hcard)]
      exact Finset.notMem_empty rid
    obtain ⟨reloaded, hs⟩ := h.foldl_reloadNext henv (by rw [hkeys]; exact horder.1) herrs
    exact ⟨reloaded, by rw [hs.keys, hkeys], hs.rids, hs.published, hs.hashAt⟩

/-! ## Reachable tables -/

/-- The keys on the table are keys of routes. -/
theorem keyWithRoute_of_run {ops : List Op} (hspare : Sparing region ops)
    (hrun : Runs.run (step region) empty ops = some t) :
    ∀ key d, t.entry key = some d → ∃ tid routeId, key = Tenant.Id.keyWithRoute tid routeId :=
  entries_of_run hspare (P := fun key _ => ∃ tid routeId, key = Tenant.Id.keyWithRoute tid routeId)
    (fun _ _ c _ _ => ⟨c.tenantId, c.id, rfl⟩) (fun _ _ c _ _ _ _ _ _ => ⟨c.tenantId, c.id, rfl⟩)
    hrun

/-- **When the registered routes are faithful.**  For a table that calls of `AddRoute`,
`RemoveRoute` and `SyncItem` have led to that spare the live routes: the methods show each key
once, under its tenant and its id, and reload each key once, exactly when every key is the key
of its live route's configuration. -/
theorem faithful_iff {ops : List Op} (hspare : Sparing region ops)
    (hrun : Runs.run (step region) empty ops = some t) : t.Faithful region ↔ t.OwnKeys := by
  have hsound := sound_of_run hspare hrun
  constructor
  · intro h key d hd
    obtain ⟨tid, routeId, rfl⟩ := keyWithRoute_of_run hspare hrun key d hd
    obtain ⟨htid, hid⟩ := h.own tid routeId d (getRegisteredRoute_eq_ok.mpr hd)
    unfold Route.Config.key
    rw [htid, hid]
  · intro hown
    refine ⟨fun order horder => ?_, fun _ _ => exists_getRegisteredRoute,
      fun _ _ _ hc => hown.own hc,
      fun _ _ _ horder henv hnone => hsound.reloadedOnce hown horder henv hnone⟩
    rw [hown.map_key fun key hkey => by rw [ne_eq, entry_eq_none]; exact (horder.2 key).mp hkey]

/-- A table with two different routes is shown and reloaded as it is. -/
theorem faithful_separate : ∃ t, Runs.run (step "us-west") empty separateOps = some t ∧
    t.liveRouteMap.keys.card = 2 ∧ t.Faithful "us-west" := by
  obtain ⟨t, hrun, hcard, hown⟩ := separate_ownKeys
  exact ⟨t, hrun, hcard, (faithful_iff (separateOps_sparing _) hrun).mpr hown⟩

/-- Of two ids that share a route, the second is shown as the first. -/
theorem shared_route_shown_as_other : ∃ t, Runs.run (step "us-west") empty sharedOps = some t ∧
    (∃ d, t.getRegisteredRoute (sampleRoute "r2" "").tenantId "r2" = .ok d ∧ d.id = "r1") ∧
    ¬ t.Faithful "us-west" := by
  obtain ⟨t, hrun, d, hd, hid, -⟩ := shared_entry
  have hget : t.getRegisteredRoute (sampleRoute "r2" "").tenantId "r2" = .ok d :=
    getRegisteredRoute_eq_ok.mpr hd
  refine ⟨t, hrun, ⟨d, hget, hid⟩, fun h => ?_⟩
  have hother := (h.own _ _ d hget).2
  rw [hid] at hother
  exact absurd hother (by decide)

end RoutingTable
