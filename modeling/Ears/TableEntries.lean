/-
# The entries of the routing table

Seen from outside, the table maps keys to configurations (`entry`), or to the hashes of
configurations (`hashAt`).  One lemma for each operation says what it does to that map;
the methods run their sections one after the other, so a key that is entered is never on
the table.

`target region c` is what the key of a route should be mapped to: the hash of the route
if it is meant to run here, nothing otherwise.
-/
import Ears.TableInvariant

open Plugin

namespace RoutingTable

variable {t : RoutingTable} {w : ℕ} {key : String} {c : Route.Config} {answers : ℕ → Answers}

/-- The configuration of the route that a key refers to. -/
def entry (t : RoutingTable) (key : String) : Option Route.Config :=
  (t.liveRouteMap.lookup key).map fun w => (t.wrappers w).config

/-- The hash of that configuration. -/
def hashAt (t : RoutingTable) (key : String) : Option String :=
  (t.entry key).map Route.Config.hash

theorem entry_eq_some {d : Route.Config} : t.entry key = some d ↔
    ∃ w, t.liveRouteMap.lookup key = some w ∧ (t.wrappers w).config = d := by
  unfold entry
  rw [Option.map_eq_some_iff]

theorem entry_eq_none : t.entry key = none ↔ t.liveRouteMap.lookup key = none := by
  unfold entry
  rw [Option.map_eq_none_iff]

theorem Live.entry (hw : t.Live w) : ∃ key, t.entry key = some (t.wrappers w).config := by
  obtain ⟨key, hkey⟩ := hw
  exact ⟨key, entry_eq_some.mpr ⟨w, hkey, rfl⟩⟩

theorem entry_congr {t' : RoutingTable} {k : String}
    (hmap : t'.liveRouteMap.lookup k = t.liveRouteMap.lookup k)
    (hconfig : ∀ v, t.Live v → (t'.wrappers v).config = (t.wrappers v).config) :
    t'.entry k = t.entry k := by
  unfold RoutingTable.entry
  rw [hmap]
  cases hk : t.liveRouteMap.lookup k with
  | none => rfl
  | some v => exact congrArg some (hconfig v ⟨k, hk⟩)

/-- `unregisterAndStopRoute` removes one entry. -/
theorem unregisterAndStopRoute_entry (t : RoutingTable) (tid : Tenant.Id) (routeId k : String) :
    (t.unregisterAndStopRoute tid routeId).1.entry k =
      if k = tid.keyWithRoute routeId then none else t.entry k := by
  obtain ⟨hmap, -, hsame⟩ := unregisterAndStopRoute_frame t tid routeId
  split
  · rename_i hk
    rw [entry_eq_none, hmap, hk, Finmap.lookup_erase]
  · rename_i hk
    exact entry_congr (by rw [hmap, Finmap.lookup_erase_ne hk]) fun v _ => (hsame v).config

/-- `insertRoute` leaves the other entries alone: a new live route takes a free address. -/
theorem insertRoute_entry_of_ne (hlt : ∀ w, t.Live w → w < t.next) (hk : key ≠ c.key) :
    (t.insertRoute c answers).1.entry key = t.entry key := by
  unfold RoutingTable.insertRoute
  cases t.routeHashMap.lookup c.hash with
  | some w =>
      have hsame : ∀ v, SameRoute (t.wrappers v) (Function.update t.wrappers w
          (t.wrappers w).addRouteReference v) := sameRoute_update ⟨rfl, rfl, rfl, rfl⟩
      exact entry_congr (Finmap.lookup_insert_of_ne _ hk) fun v _ => (hsame v).config
  | none =>
      dsimp only
      split
      · exact entry_congr rfl fun v hv => congrArg _ (Function.update_of_ne (hlt v hv).ne _ _)
      · exact entry_congr (Finmap.lookup_insert_of_ne _ hk) fun v hv =>
          congrArg _ (Function.update_of_ne (hlt v hv).ne _ _)

/-- `insertRoute` enters no key when it fails. -/
theorem insertRoute_error_liveRouteMap (hsome : (t.insertRoute c answers).2.isSome) :
    (t.insertRoute c answers).1.liveRouteMap = t.liveRouteMap := by
  unfold RoutingTable.insertRoute at hsome ⊢
  split at hsome
  · simp at hsome
  · dsimp only at hsome ⊢
    split at hsome
    · rfl
    · simp at hsome

/-- What `insertRoute` does under a key that is not on the table. -/
theorem Sound.insertRoute (h : t.Sound) (hkey : t.entry c.key = none) (answers : ℕ → Answers) :
    (t.insertRoute c answers).1.Sound ∧
    (((t.insertRoute c answers).2 = none ∧
        ∃ d, (t.insertRoute c answers).1.entry c.key = some d ∧ d.hash = c.hash ∧
          (d = c ∨ ∃ k, t.entry k = some d)) ∨
      ((t.insertRoute c answers).2.isSome ∧ (t.insertRoute c answers).1.entry c.key = none)) := by
  rw [entry_eq_none] at hkey
  unfold RoutingTable.insertRoute
  cases hhash : t.routeHashMap.lookup c.hash with
  | some w =>
      -- a route with this hash runs already, and the key gets that one
      obtain ⟨hh, hw⟩ := h.unhashed c.hash w hhash
      have hsame : ∀ v, SameRoute (t.wrappers v) (Function.update t.wrappers w
          (t.wrappers w).addRouteReference v) := sameRoute_update ⟨rfl, rfl, rfl, rfl⟩
      refine ⟨h.insert_shared hkey hw, Or.inl ⟨rfl, (t.wrappers w).config, ?_, hh,
        Or.inr hw.entry⟩⟩
      exact entry_eq_some.mpr ⟨w, Finmap.lookup_insert _, (hsame w).config⟩
  | none =>
      obtain ⟨hconfig, hcnt, hcases, -⟩ := LiveRouteWrapper.register_spec
        (LiveRouteWrapper.newLiveRouteWrapper c) h.mgr ⟨rfl, rfl, rfl⟩ answers
      dsimp only
      rcases hcases with ⟨hnone, hadds, hcomplete⟩ | ⟨hsome, m₁, hadds, hrem, -⟩
      · rw [hnone]
        have hconfig' : _ = c := hconfig
        have hsound := h.insert_new hkey (by rw [hconfig']; exact hhash) hadds hcnt hcomplete
        rw [hconfig'] at hsound
        refine ⟨hsound, Or.inl ⟨rfl, c, ?_, rfl, Or.inl rfl⟩⟩
        refine entry_eq_some.mpr ⟨t.next, Finmap.lookup_insert _, ?_⟩
        show (Function.update t.wrappers t.next _ t.next).config = c
        rw [Function.update_self, hconfig']
      · obtain ⟨err, herr⟩ := Option.isSome_iff_exists.mp hsome
        rw [herr]
        exact ⟨h.insert_failed hadds hrem, Or.inr ⟨rfl, entry_eq_none.mpr hkey⟩⟩

/-! ## The methods -/

/-- `registerAndRunRoute` leaves a route with the same hash alone; otherwise it takes the
key off the table and starts the new route. -/
theorem registerAndRunRoute_eq (region : String) (t : RoutingTable) (c : Route.Config)
    (answers : ℕ → Answers) :
    t.registerAndRunRoute region c answers =
      if t.hashAt c.key = some c.hash then (t, none)
      else startRoute region (t.unregisterAndStopRoute c.tenantId c.id).1 c answers := by
  unfold RoutingTable.registerAndRunRoute hashAt RoutingTable.entry
  cases hkey : t.liveRouteMap.lookup c.key with
  | none =>
      have hun : t.unregisterAndStopRoute c.tenantId c.id = (t, none) := by
        unfold RoutingTable.unregisterAndStopRoute
        dsimp only
        rw [show t.liveRouteMap.lookup (c.tenantId.keyWithRoute c.id) = none from hkey]
      simp [hun]
  | some w => simp

/-- The two tests that keep a route from running here. -/
theorem ite_runsHere {α : Type*} (region : String) (c : Route.Config) (a b : α) :
    (if c.region ≠ "" ∧ region ≠ c.region then a else if c.inactive then a else b) =
      if RunsHere region c then b else a := by
  by_cases hruns : RunsHere region c
  · rw [if_pos hruns]
    obtain ⟨hregion, hactive⟩ := hruns
    rw [if_neg (by tauto), if_neg (by simp [hactive])]
  · rw [if_neg hruns]
    split
    · rfl
    · rename_i hregion
      rw [if_pos]
      by_contra hactive
      exact hruns ⟨by tauto, by simpa using hactive⟩

theorem startRoute_eq (region : String) (t : RoutingTable) (c : Route.Config)
    (answers : ℕ → Answers) :
    startRoute region t c answers =
      if RunsHere region c then t.insertRoute c answers else (t, none) :=
  ite_runsHere region c (t, none) (t.insertRoute c answers)

/-- `registerAndRunRoute` leaves the other entries alone. -/
theorem registerAndRunRoute_entry_of_ne {region : String} (hlt : ∀ w, t.Live w → w < t.next)
    (hk : key ≠ c.key) : (t.registerAndRunRoute region c answers).1.entry key = t.entry key := by
  obtain ⟨hmap, hnext, -⟩ := unregisterAndStopRoute_frame t c.tenantId c.id
  have hlt' : ∀ w, (t.unregisterAndStopRoute c.tenantId c.id).1.Live w →
      w < (t.unregisterAndStopRoute c.tenantId c.id).1.next := by
    rintro w ⟨k, hw⟩
    rw [hmap, Finmap.lookup_erase_eq] at hw
    split at hw
    · simp at hw
    · rw [hnext]
      exact hlt w ⟨k, hw⟩
  have hun : (t.unregisterAndStopRoute c.tenantId c.id).1.entry key = t.entry key := by
    rw [unregisterAndStopRoute_entry]
    exact if_neg hk
  rw [registerAndRunRoute_eq]
  split
  · rfl
  · rw [startRoute_eq]
    split
    · rw [insertRoute_entry_of_ne hlt' hk, hun]
    · exact hun

/-- A registration that fails leaves its key off the table. -/
theorem registerAndRunRoute_error_lookup {region : String}
    (hsome : (t.registerAndRunRoute region c answers).2.isSome) :
    (t.registerAndRunRoute region c answers).1.liveRouteMap.lookup c.key = none := by
  have hkey : (t.unregisterAndStopRoute c.tenantId c.id).1.liveRouteMap.lookup c.key = none := by
    rw [(unregisterAndStopRoute_frame t c.tenantId c.id).1]
    exact Finmap.lookup_erase _ _
  rw [registerAndRunRoute_eq] at hsome ⊢
  split at hsome
  · simp at hsome
  · rename_i hdiff
    rw [if_neg hdiff, startRoute_eq]
    rw [startRoute_eq] at hsome
    split at hsome
    · rename_i hruns
      rw [if_pos hruns, insertRoute_error_liveRouteMap hsome]
      exact hkey
    · simp at hsome

/-- What `registerAndRunRoute` does: afterwards the key of the route has no entry or one with the
hash of the route. -/
theorem Sound.registerAndRunRoute (h : t.Sound) (region : String) (c : Route.Config)
    (answers : ℕ → Answers) :
    (t.registerAndRunRoute region c answers).1.Sound ∧
    (∀ k, k ≠ c.key → (t.registerAndRunRoute region c answers).1.entry k = t.entry k) ∧
    ((t.hashAt c.key = some c.hash ∧ t.registerAndRunRoute region c answers = (t, none)) ∨
      (t.hashAt c.key ≠ some c.hash ∧ ¬ RunsHere region c ∧
        (t.registerAndRunRoute region c answers).2 = none ∧
        (t.registerAndRunRoute region c answers).1.entry c.key = none) ∨
      (t.hashAt c.key ≠ some c.hash ∧ RunsHere region c ∧
        (t.registerAndRunRoute region c answers).2 = none ∧
        ∃ d, (t.registerAndRunRoute region c answers).1.entry c.key = some d ∧ d.hash = c.hash ∧
          (d = c ∨ ∃ k, k ≠ c.key ∧ t.entry k = some d)) ∨
      (t.hashAt c.key ≠ some c.hash ∧ RunsHere region c ∧
        (t.registerAndRunRoute region c answers).2.isSome ∧
        (t.registerAndRunRoute region c answers).1.entry c.key = none)) := by
  have hframe : ∀ k, k ≠ c.key →
      (t.registerAndRunRoute region c answers).1.entry k = t.entry k :=
    fun k hk => registerAndRunRoute_entry_of_ne h.receivers.bound hk
  rw [registerAndRunRoute_eq] at hframe ⊢
  obtain ⟨-, hsound⟩ := h.unregisterAndStopRoute c.tenantId c.id
  have hentry : ∀ k, (t.unregisterAndStopRoute c.tenantId c.id).1.entry k =
      if k = c.key then none else t.entry k := unregisterAndStopRoute_entry t c.tenantId c.id
  have hkey : (t.unregisterAndStopRoute c.tenantId c.id).1.entry c.key = none := by
    rw [hentry, if_pos rfl]
  have hother : ∀ k, k ≠ c.key →
      (t.unregisterAndStopRoute c.tenantId c.id).1.entry k = t.entry k :=
    fun k hk => by rw [hentry, if_neg hk]
  split at hframe
  · rename_i hsame
    rw [if_pos hsame]
    exact ⟨h, fun _ _ => rfl, Or.inl ⟨hsame, rfl⟩⟩
  · rename_i hdiff
    rw [if_neg hdiff]
    rw [startRoute_eq] at hframe ⊢
    split at hframe
    · rename_i hruns
      rw [if_pos hruns]
      obtain ⟨hs, hcases⟩ := hsound.insertRoute hkey answers
      refine ⟨hs, hframe, ?_⟩
      rcases hcases with ⟨hnone, d, hd, hhash, hor⟩ | ⟨hsome, hnone⟩
      · refine Or.inr (Or.inr (Or.inl ⟨hdiff, hruns, hnone, d, hd, hhash, ?_⟩))
        rcases hor with hdc | ⟨k, hk⟩
        · exact Or.inl hdc
        · -- the shared route is under another key, the own one was just taken off
          have hne : k ≠ c.key := by
            rintro rfl
            rw [hkey] at hk
            simp at hk
          exact Or.inr ⟨k, hne, by rw [← hother k hne, hk]⟩
      · exact Or.inr (Or.inr (Or.inr ⟨hdiff, hruns, hsome, hnone⟩))
    · rename_i hruns
      rw [if_neg hruns]
      exact ⟨hsound, hframe, Or.inr (Or.inl ⟨hdiff, hruns, rfl, hkey⟩)⟩

/-- `insertRoute` succeeds when the plugin manager does. -/
theorem insertRoute_succeeds (t : RoutingTable) (c : Route.Config)
    (hok : ∀ i, (answers i).Succeeds) : (t.insertRoute c answers).2 = none := by
  have hreg := LiveRouteWrapper.register_succeeds (LiveRouteWrapper.newLiveRouteWrapper c)
    t.pluginMgr hok
  unfold RoutingTable.insertRoute
  split
  · rfl
  · dsimp only
    rw [hreg]

/-- `registerAndRunRoute` succeeds when the plugin manager does. -/
theorem registerAndRunRoute_succeeds (region : String) (t : RoutingTable) (c : Route.Config)
    (hok : ∀ i, (answers i).Succeeds) : (t.registerAndRunRoute region c answers).2 = none := by
  rw [registerAndRunRoute_eq]
  split
  · rfl
  · rw [startRoute_eq]
    split
    · exact insertRoute_succeeds _ c hok
    · rfl

/-! ## Hashes -/

/-- The hash that a key should be mapped to, for the configuration stored for it. -/
def target (region : String) (o : Option Route.Config) : Option String :=
  o.bind fun c => if RunsHere region c then some c.hash else none

@[simp] theorem target_none (region : String) : target region none = none := rfl

theorem target_some (region : String) (c : Route.Config) :
    target region (some c) = if RunsHere region c then some c.hash else none := rfl

theorem hashAt_eq_some {hash : String} :
    t.hashAt key = some hash ↔ ∃ d, t.entry key = some d ∧ d.hash = hash := by
  unfold hashAt
  rw [Option.map_eq_some_iff]

theorem unregisterAndStopRoute_hashAt (t : RoutingTable) (tid : Tenant.Id) (routeId k : String) :
    (t.unregisterAndStopRoute tid routeId).1.hashAt k =
      if k = tid.keyWithRoute routeId then none else t.hashAt k := by
  unfold hashAt
  rw [unregisterAndStopRoute_entry]
  split <;> rfl

/-- A registration that does not fail puts the right hash under the key, provided that a
route on the table with the hash of the new one tells that the new one runs here. -/
theorem Sound.register_hashAt (h : t.Sound) {region : String}
    (hnone : (t.registerAndRunRoute region c answers).2 = none)
    (hsame : t.hashAt c.key = some c.hash → RunsHere region c) (k : String) :
    (t.registerAndRunRoute region c answers).1.hashAt k =
      if k = c.key then target region (some c) else t.hashAt k := by
  obtain ⟨-, hother, hcases⟩ := h.registerAndRunRoute region c answers
  split
  · rename_i hk
    subst hk
    rw [target_some]
    rcases hcases with ⟨heq, hun⟩ | ⟨-, hruns, -, hentry⟩ | ⟨-, hruns, -, d, hd, hhash, -⟩ |
      ⟨-, -, hsome, -⟩
    · rw [hun, if_pos (hsame heq), heq]
    · rw [if_neg hruns, hashAt, hentry]
      rfl
    · rw [if_pos hruns, hashAt, hd, Option.map_some, hhash]
    · rw [hnone] at hsome
      simp at hsome
  · rename_i hk
    unfold hashAt
    rw [hother k hk]

/-- The table holds the routes of a store that are meant to run here, with their hashes. -/
structure Holds (region : String) (store : String → Option Route.Config) (t : RoutingTable) :
    Prop where
  keys : ∀ key, t.liveRouteMap.lookup key ≠ none ↔ ∃ c, store key = some c ∧ RunsHere region c
  hash : ∀ key w c, t.liveRouteMap.lookup key = some w → store key = some c →
    (t.wrappers w).config.hash = c.hash

theorem hashAt_eq_none : t.hashAt key = none ↔ t.liveRouteMap.lookup key = none := by
  unfold hashAt
  rw [Option.map_eq_none_iff, entry_eq_none]

theorem hashAt_of_lookup (hw : t.liveRouteMap.lookup key = some w) :
    t.hashAt key = some (t.wrappers w).config.hash :=
  hashAt_eq_some.mpr ⟨_, entry_eq_some.mpr ⟨w, hw, rfl⟩, rfl⟩

theorem target_ne_none {region : String} {o : Option Route.Config} :
    target region o ≠ none ↔ ∃ c, o = some c ∧ RunsHere region c := by
  cases o with
  | none => simp
  | some c =>
      rw [target_some]
      split
      · rename_i hruns
        simp [hruns]
      · rename_i hruns
        simp [hruns]

/-- The table holds the routes of a store when every key has the hash it should have. -/
theorem holds_iff {region : String} {store : String → Option Route.Config} :
    Holds region store t ↔ ∀ key, t.hashAt key = target region (store key) := by
  constructor
  · intro h key
    cases hkey : t.liveRouteMap.lookup key with
    | none =>
        rw [hashAt_eq_none.mpr hkey]
        by_contra hne
        exact (h.keys key).mpr (target_ne_none.mp (Ne.symm hne)) hkey
    | some w =>
        obtain ⟨c, hc, hruns⟩ := (h.keys key).mp (by rw [hkey]; simp)
        rw [hashAt_of_lookup hkey, hc, target_some, if_pos hruns, h.hash key w c hkey hc]
  · intro h
    constructor
    · intro key
      rw [← target_ne_none, ← h key, ne_eq, ne_eq, hashAt_eq_none]
    · intro key w c hw hc
      have hkey := h key
      rw [hashAt_of_lookup hw, hc, target_some] at hkey
      split at hkey
      · exact Option.some.inj hkey
      · simp at hkey

/-! ## What the entries have in common -/

/-- A property of the entries is kept by a registration if the new route has it, under its
own configuration or under that of a live route with its hash. -/
theorem Sound.register_entries (h : t.Sound) {region : String} {P : String → Route.Config → Prop}
    (hall : ∀ key d, t.entry key = some d → P key d) (hc : RunsHere region c → P c.key c)
    (hshare : ∀ key d, t.entry key = some d → RunsHere region c → d.hash = c.hash → P c.key d) :
    ∀ key d, (t.registerAndRunRoute region c answers).1.entry key = some d → P key d := by
  obtain ⟨-, hother, hcases⟩ := h.registerAndRunRoute region c answers
  intro key d hd
  rcases eq_or_ne key c.key with rfl | hne
  · rcases hcases with ⟨-, hun⟩ | ⟨-, -, -, hentry⟩ | ⟨-, hruns, -, d', hd', hhash, hor⟩ |
      ⟨-, -, -, hentry⟩
    · rw [hun] at hd
      exact hall _ d hd
    · rw [hentry] at hd
      simp at hd
    · obtain rfl := Option.some.inj (hd.symm.trans hd')
      rcases hor with rfl | ⟨k, -, hk⟩
      · exact hc hruns
      · exact hshare k d hk hruns hhash
    · rw [hentry] at hd
      simp at hd
  · rw [hother key hne] at hd
    exact hall key d hd

/-- A property of all configurations on the table is kept if the new route has it. -/
theorem Sound.register_forall (h : t.Sound) {region : String} {P : Route.Config → Prop}
    (hall : ∀ key d, t.entry key = some d → P d) (hc : RunsHere region c → P c) :
    ∀ key d, (t.registerAndRunRoute region c answers).1.entry key = some d → P d :=
  h.register_entries (P := fun _ d => P d) hall hc fun key d hd _ _ => hall key d hd

/-- Taking a route off the table keeps a property of the entries. -/
theorem unregisterAndStopRoute_entries {P : String → Route.Config → Prop}
    (tid : Tenant.Id) (routeId : String) (hall : ∀ key d, t.entry key = some d → P key d) :
    ∀ key d, (t.unregisterAndStopRoute tid routeId).1.entry key = some d → P key d := by
  intro key d hd
  rw [unregisterAndStopRoute_entry] at hd
  split at hd
  · simp at hd
  · exact hall key d hd

/-! ## Writes into shared arrays -/

/-- What the call writes into a filter chain leaves the configurations of the live routes as
they are: none of them has the array, or it holds the same there already. -/
def Op.Spares (t : RoutingTable) : Op → Prop
  | .addRoute (some c) env => ∀ w, t.Live w →
      (t.wrappers w).config.writeFilters c.filterArray (filterWrites env.getFragment c) =
        (t.wrappers w).config
  | _ => True

/-- All calls of a run that starts with empty tables spare the live routes. -/
def Sparing (region : String) (ops : List Op) : Prop :=
  Runs.Along (step region) (fun t op => op.Spares t) empty ops

variable {rc : Option Route.Config} {env : AddEnv}

/-- Two tables that differ in the configurations of their live routes only. -/
structure Rewritten (t t' : RoutingTable) : Prop where
  liveRouteMap : t'.liveRouteMap = t.liveRouteMap
  routeHashMap : t'.routeHashMap = t.routeHashMap
  next : t'.next = t.next
  pluginMgr : t'.pluginMgr = t.pluginMgr
  wrappers : ∀ w, t'.wrappers w = { t.wrappers w with config := (t'.wrappers w).config }

theorem writeFragments_rewritten (t : RoutingTable)
    (getFragment : Tenant.Id → String → Except String Route.PluginConfig)
    (rc : Option Route.Config) : Rewritten t (t.writeFragments getFragment rc) := by
  cases rc <;> exact ⟨rfl, rfl, rfl, rfl, fun _ => rfl⟩

theorem Rewritten.live {t' : RoutingTable} (h : Rewritten t t') : t'.Live w ↔ t.Live w := by
  unfold Live
  rw [h.liveRouteMap]

theorem spares_iff : (Op.addRoute rc env).Spares t ↔ ∀ w, t.Live w →
    ((t.writeFragments env.getFragment rc).wrappers w).config = (t.wrappers w).config := by
  cases rc with
  | none => exact ⟨fun _ _ _ => rfl, fun _ => trivial⟩
  | some c => exact Iff.rfl

/-- The live routes are the same after a call that spares them. -/
theorem Op.Spares.wrappers (h : (Op.addRoute rc env).Spares t) (hw : t.Live w) :
    (t.writeFragments env.getFragment rc).wrappers w = t.wrappers w := by
  rw [(writeFragments_rewritten t env.getFragment rc).wrappers w, spares_iff.mp h w hw]

theorem Op.Spares.entry (h : (Op.addRoute rc env).Spares t) :
    (t.writeFragments env.getFragment rc).entry = t.entry := by
  funext key
  exact entry_congr (by rw [(writeFragments_rewritten t env.getFragment rc).liveRouteMap])
    (spares_iff.mp h)

/-- The writes of a call that spares the live routes keep the invariant. -/
theorem Sound.writeFragments (h : t.Sound) (hop : (Op.addRoute rc env).Spares t) :
    (t.writeFragments env.getFragment rc).Sound := by
  cases rc with
  | none => exact h
  | some c =>
      have hconfig : ∀ w, t.Live w →
          ((t.writeFragments env.getFragment (some c)).wrappers w).config =
            (t.wrappers w).config := hop
      constructor
      case mgr => exact h.mgr
      case receivers => exact h.receivers
      case filters => exact h.filters
      case senders => exact h.senders
      case hashed =>
        intro key w hkey
        rw [hconfig w ⟨key, hkey⟩]
        exact h.hashed key w hkey
      case unhashed =>
        intro hash w hw
        rw [hconfig w (h.unhashed hash w hw).2]
        exact h.unhashed hash w hw
      case refCnt => exact h.refCnt
      case complete =>
        intro w hw
        rw [hop.wrappers hw]
        exact h.complete w hw

/-! ## Whole calls -/

/-- What `AddRoute` can do once the fragments are written: reject the configuration, fail to
register it, fail to store it and take it off the table again, or add it. -/
theorem addRoute_cases (region : String) (t : RoutingTable) (rc : Option Route.Config)
    (env : AddEnv) {t₀ : RoutingTable} (ht₀ : t.writeFragments env.getFragment rc = t₀) :
    (∃ err, prepare env.getFragment rc = .error err ∧
      t.addRoute region rc env = (t₀, .error err)) ∨
    (∃ c, prepare env.getFragment rc = .ok c ∧
      ((∃ err, (t₀.registerAndRunRoute region c env.plugins).2 = some err ∧
          t.addRoute region rc env =
            ((t₀.registerAndRunRoute region c env.plugins).1, .error (.registration err))) ∨
        (∃ err, (t₀.registerAndRunRoute region c env.plugins).2 = none ∧
          env.setRoute = some err ∧
          t.addRoute region rc env =
            (((t₀.registerAndRunRoute region c env.plugins).1.unregisterAndStopRoute
              c.tenantId c.id).1, .error (.plain err))) ∨
        ((t₀.registerAndRunRoute region c env.plugins).2 = none ∧ env.setRoute = none ∧
          t.addRoute region rc env =
            ((t₀.registerAndRunRoute region c env.plugins).1, .ok c)))) := by
  subst ht₀
  unfold addRoute
  dsimp only
  generalize t.writeFragments env.getFragment rc = t₀
  cases hprep : prepare env.getFragment rc with
  | error err => exact Or.inl ⟨err, rfl, rfl⟩
  | ok c =>
      refine Or.inr ⟨c, rfl, ?_⟩
      rcases hreg : t₀.registerAndRunRoute region c env.plugins with ⟨t', err⟩
      cases err with
      | some err => exact Or.inl ⟨err, rfl, by simp [hreg]⟩
      | none =>
          cases env.setRoute with
          | some err => exact Or.inr (Or.inl ⟨err, rfl, rfl, by simp [hreg]⟩)
          | none => exact Or.inr (Or.inr ⟨rfl, rfl, by simp [hreg]⟩)

theorem Sound.addRoute (h : t.Sound) (region : String) (hop : (Op.addRoute rc env).Spares t) :
    (t.addRoute region rc env).1.Sound := by
  have h₀ := h.writeFragments hop
  rcases addRoute_cases region t rc env rfl with ⟨err, -, heq⟩ | ⟨c, -, ⟨err, -, heq⟩ |
    ⟨err, -, -, heq⟩ | ⟨-, -, heq⟩⟩
  · rw [heq]
    exact h₀
  · rw [heq]
    exact (h₀.registerAndRunRoute region c env.plugins).1
  · rw [heq]
    exact ((h₀.registerAndRunRoute region c env.plugins).1.unregisterAndStopRoute _ _).2
  · rw [heq]
    exact (h₀.registerAndRunRoute region c env.plugins).1

/-- `RemoveRoute` takes the route off the table, unless it has no id. -/
theorem removeRoute_table (t : RoutingTable) (tid : Tenant.Id) (routeId : String)
    (deleteRoute : Option String) :
    (t.removeRoute tid routeId deleteRoute).1 =
      if routeId = "" then t else (t.unregisterAndStopRoute tid routeId).1 := by
  unfold removeRoute
  split
  · rfl
  · rcases t.unregisterAndStopRoute tid routeId with ⟨t', err⟩
    cases err <;> rfl

theorem Sound.removeRoute (h : t.Sound) (tid : Tenant.Id) (routeId : String)
    (deleteRoute : Option String) : (t.removeRoute tid routeId deleteRoute).1.Sound := by
  rw [removeRoute_table]
  split
  · exact h
  · exact (h.unregisterAndStopRoute tid routeId).2

theorem Sound.syncItem (h : t.Sound) (region : String) (tid : Tenant.Id) (routeId : String)
    (add : Bool) (getRoute : Except String Route.Config) (answers : ℕ → Answers) :
    (t.syncItem region tid routeId add getRoute answers).1.Sound := by
  unfold RoutingTable.syncItem
  cases add with
  | true =>
      cases getRoute with
      | error err => exact h
      | ok c => exact (h.registerAndRunRoute region c answers).1
  | false => exact (h.unregisterAndStopRoute tid routeId).2

theorem Sound.step (h : t.Sound) {region : String} {op : Op} {t' : RoutingTable}
    (hop : op.Spares t) (hs : t.step region op = some t') : t'.Sound := by
  cases op with
  | addRoute rc env =>
      obtain rfl := Option.some.inj hs
      exact h.addRoute region hop
  | removeRoute tid routeId deleteRoute =>
      obtain rfl := Option.some.inj hs
      exact h.removeRoute tid routeId deleteRoute
  | syncItem tid routeId add getRoute answers =>
      obtain rfl := Option.some.inj hs
      exact h.syncItem region tid routeId add getRoute answers

/-- The invariant holds after every sequence of calls that spare the live routes, whatever
fails on the way. -/
theorem sound_of_run {region : String} {ops : List Op} (hspare : Sparing region ops)
    (hrun : Runs.run (RoutingTable.step region) empty ops = some t) : t.Sound :=
  Runs.run_induction_along (fun _ _ _ h hop hs => h.step hop hs) sound_empty hspare hrun

/-- The call registers a route with this configuration. -/
def Op.Registers : Op → Route.Config → Prop
  | .addRoute rc env, c => prepare env.getFragment rc = .ok c
  | .removeRoute _ _ _, _ => False
  | .syncItem _ _ add getRoute _, c => add = true ∧ getRoute = .ok c

/-- A call keeps a property of the entries that every registered route has, under its own
configuration or under that of a live route with its hash. -/
theorem Sound.step_entries (h : t.Sound) {region : String} {op : Op} {t' : RoutingTable}
    {P : String → Route.Config → Prop} (hall : ∀ key d, t.entry key = some d → P key d)
    (hc : ∀ c, op.Registers c → RunsHere region c → P c.key c)
    (hshare : ∀ c, op.Registers c → RunsHere region c → ∀ key d, P key d → d.hash = c.hash →
      P c.key d)
    (hop : op.Spares t) (hs : t.step region op = some t') :
    ∀ key d, t'.entry key = some d → P key d := by
  have hreg : ∀ t₀ : RoutingTable, t₀.Sound → t₀.entry = t.entry →
      ∀ c (answers : ℕ → Answers), op.Registers c → ∀ key d,
      (t₀.registerAndRunRoute region c answers).1.entry key = some d → P key d := by
    intro t₀ h₀ hentry c answers hop
    refine h₀.register_entries (by rw [hentry]; exact hall) (hc c hop) ?_
    intro key d hd hruns hhash
    rw [hentry] at hd
    exact hshare c hop hruns key d (hall key d hd) hhash
  cases op with
  | addRoute rc env =>
      obtain rfl := Option.some.inj hs
      -- what the writes leave is sound and has the entries of the table
      have h₀ := h.writeFragments hop
      have hentry := hop.entry
      rcases addRoute_cases region t rc env rfl with ⟨err, -, heq⟩ | ⟨c, hprep, ⟨err, -, heq⟩ |
        ⟨err, -, -, heq⟩ | ⟨-, -, heq⟩⟩
      · rw [heq, hentry]
        exact hall
      · rw [heq]
        exact hreg _ h₀ hentry c env.plugins hprep
      · -- the store failed, and the route was taken off again
        rw [heq]
        exact unregisterAndStopRoute_entries _ _
          (hreg _ h₀ hentry c env.plugins hprep)
      · rw [heq]
        exact hreg _ h₀ hentry c env.plugins hprep
  | removeRoute tid routeId deleteRoute =>
      obtain rfl := Option.some.inj hs
      rw [removeRoute_table]
      split
      · exact hall
      · exact unregisterAndStopRoute_entries tid routeId hall
  | syncItem tid routeId add getRoute answers =>
      obtain rfl := Option.some.inj hs
      unfold RoutingTable.syncItem
      cases add with
      | true =>
          cases getRoute with
          | error err => exact hall
          | ok c => exact hreg t h rfl c answers ⟨rfl, rfl⟩
      | false => exact unregisterAndStopRoute_entries tid routeId hall

theorem entries_of_run {region : String} {ops : List Op} {P : String → Route.Config → Prop}
    (hspare : Sparing region ops)
    (hc : ∀ op ∈ ops, ∀ c, op.Registers c → RunsHere region c → P c.key c)
    (hshare : ∀ op ∈ ops, ∀ c, op.Registers c → RunsHere region c → ∀ key d, P key d →
      d.hash = c.hash → P c.key d)
    (hrun : Runs.run (RoutingTable.step region) empty ops = some t) :
    ∀ key d, t.entry key = some d → P key d := by
  have hinv := Runs.run_induction_along
    (P := fun t => t.Sound ∧ ∀ key d, t.entry key = some d → P key d) ?_
    ⟨sound_empty, fun key d hd => absurd hd (by simp [RoutingTable.entry, RoutingTable.empty])⟩
    (hspare.and (Q := fun op => op ∈ ops) fun _ hop => hop) hrun
  · exact hinv.2
  · rintro t op t' h ⟨hop, hmem⟩ hs
    exact ⟨h.1.step hop hs, h.1.step_entries h.2 (hc op hmem) (hshare op hmem) hop hs⟩

end RoutingTable
