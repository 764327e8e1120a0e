/-
# The routing table refines a map of routes

What the table is for: a map from tenants and route ids to the configuration that was
added last and not removed since (`Spec`).  A sequence of `AddRoute` and `RemoveRoute`
calls in which nothing fails keeps the table in step with that map (`Refines`): the keys
are the routes that are meant to run here, routes with equal hashes share one live route,
the counters count the keys and the plugins of exactly the live routes are registered.

Two configurations with one hash have to be one route, at least among those that were
added: the table compares hashes only.
-/
import Ears.TableEntries

open Plugin

namespace RoutingTable

/-! ## The abstract table -/

/-- The configuration of each route of each tenant. -/
abbrev Spec := Tenant.Id → String → Option Route.Config

namespace Spec

/-- Map one route to a configuration or to nothing. -/
def set (spec : Spec) (tid : Tenant.Id) (routeId : String) (o : Option Route.Config) : Spec :=
  fun tid' routeId' => if tid' = tid ∧ routeId' = routeId then o else spec tid' routeId'

/-- What a call does to the map. -/
def step (spec : Spec) : Op → Spec
  | .addRoute (some c) _ => spec.set c.tenantId (withId c).id (some (withId c))
  | .removeRoute tid routeId _ => spec.set tid routeId none
  | _ => spec

/-- The map after a sequence of calls: the last configuration added and not removed. -/
def ofOps (ops : List Op) : Spec := ops.foldl step fun _ _ => none

theorem ofOps_append (ops : List Op) (op : Op) : ofOps (ops ++ [op]) = (ofOps ops).step op := by
  unfold ofOps
  rw [List.foldl_append]
  rfl

end Spec

/-- No part of the configuration refers to a fragment. -/
def NoFragments (c : Route.Config) : Prop :=
  c.sender.fragmentName = "" ∧ c.receiver.fragmentName = "" ∧
    ∀ f ∈ c.filterChain, f.fragmentName = ""

/-- A call of `AddRoute` with a valid configuration without fragments for which
registration and storage succeed, or a call of `RemoveRoute`. -/
def Op.Succeeds : Op → Prop
  | .addRoute (some c) env => NoFragments c ∧ (withId c).validate = .ok () ∧
      (∀ i, (env.plugins i).Succeeds) ∧ env.setRoute = none
  | .removeRoute _ _ deleteRoute => deleteRoute = none
  | _ => False

/-- The configurations added by a sequence of calls. -/
def addedConfigs (ops : List Op) : Set Route.Config :=
  { c | ∃ c₀ env, Op.addRoute (some c₀) env ∈ ops ∧ c = withId c₀ }

/-! ## The refinement relation -/

/-- All plugins of the route are registered. -/
def Registered (t : RoutingTable) (w : ℕ) : Prop :=
  (t.wrappers w).Complete ∧ (t.wrappers w).Held t.pluginMgr

/-- None of the plugins of the route is registered. -/
def Released (t : RoutingTable) (w : ℕ) : Prop :=
  (∀ id ∈ (t.wrappers w).receiver.toList, id ∉ t.pluginMgr.receivers.wrapped) ∧
    (∀ id ∈ (t.wrappers w).sender.toList, id ∉ t.pluginMgr.senders.wrapped) ∧
    ∀ id ∈ (t.wrappers w).filterChain, id ∉ t.pluginMgr.filters.wrapped

/-- The table holds the routes of the map that are meant to run here. -/
structure Refines (region : String) (spec : Spec) (t : RoutingTable) : Prop where
  keys : ∀ key, t.liveRouteMap.lookup key ≠ none ↔
    ∃ tid routeId c, key = tid.keyWithRoute routeId ∧ spec tid routeId = some c ∧ RunsHere region c
  hash : ∀ tid routeId w c, t.liveRouteMap.lookup (tid.keyWithRoute routeId) = some w →
    spec tid routeId = some c → (t.wrappers w).config.hash = c.hash
  shared : ∀ tid routeId tid' routeId' w w' c c',
    t.liveRouteMap.lookup (tid.keyWithRoute routeId) = some w →
    t.liveRouteMap.lookup (tid'.keyWithRoute routeId') = some w' →
    spec tid routeId = some c → spec tid' routeId' = some c' → (w = w' ↔ c.hash = c'.hash)
  routeHashMap : ∀ hash w, t.routeHashMap.lookup hash = some w ↔
    t.Live w ∧ (t.wrappers w).config.hash = hash
  refCnt : ∀ w, t.Live w → (t.wrappers w).refCnt = (t.liveRouteMap.fiber w).card
  registered : ∀ w, w < t.next → (t.Registered w ↔ t.Live w)
  released : ∀ w, w < t.next → ¬ t.Live w → t.Released w

variable {t : RoutingTable} {region : String} {ops : List Op}

/-! ## What `Sound` says about plugins -/

theorem Sound.registered (h : t.Sound) {w : ℕ} (hw : w < t.next) : t.Registered w ↔ t.Live w := by
  constructor
  · rintro ⟨hcomplete, hheld⟩
    by_contra hnot
    obtain ⟨id, hid⟩ := Option.isSome_iff_exists.mp hcomplete.1
    have hmem : id ∈ (t.wrappers w).receiver.toList := by simp [hid]
    exact h.receivers.released w hw hnot id hmem (hheld.receivers id hmem)
  · intro hlive
    exact ⟨h.complete w hlive, h.held hlive⟩

theorem Sound.released (h : t.Sound) {w : ℕ} (hw : w < t.next) (hnot : ¬ t.Live w) :
    t.Released w :=
  ⟨h.receivers.released w hw hnot, h.senders.released w hw hnot, h.filters.released w hw hnot⟩

/-! ## The invariant of the run -/

theorem inflate_of_no_fragment {getFragment : Tenant.Id → String → Except String Route.PluginConfig}
    {tid : Tenant.Id} {pc : Route.PluginConfig} (h : pc.fragmentName = "") :
    inflate getFragment tid pc = .ok pc := by
  unfold inflate
  rw [if_pos h]

/-- A chain without fragments stays as it is, and nothing is written into it. -/
theorem inflateFilters_of_no_fragments
    {getFragment : Tenant.Id → String → Except String Route.PluginConfig} {tid : Tenant.Id}
    {fs : List Route.PluginConfig} (h : ∀ f ∈ fs, f.fragmentName = "") (idx : ℕ) :
    inflateFilters getFragment tid idx fs = ([], .ok fs) := by
  induction fs generalizing idx with
  | nil => rfl
  | cons f fs ih =>
      have hf := h f List.mem_cons_self
      unfold inflateFilters
      rw [inflate_of_no_fragment hf]
      dsimp only
      rw [ih (fun g hg => h g (List.mem_cons_of_mem _ hg)), if_pos hf]
      rfl

/-- A configuration without fragments only gets an id. -/
theorem prepare_of_no_fragments
    {getFragment : Tenant.Id → String → Except String Route.PluginConfig} {c : Route.Config}
    (h : NoFragments c) (hvalid : (withId c).validate = .ok ()) :
    prepare getFragment (some c) = .ok (withId c) := by
  unfold prepare
  dsimp only
  rw [inflate_of_no_fragment h.1, inflate_of_no_fragment h.2.1,
    inflateFilters_of_no_fragments h.2.2]
  dsimp only
  rw [hvalid]

/-- Without fragments nothing is written. -/
theorem writeFragments_of_no_fragments
    {getFragment : Tenant.Id → String → Except String Route.PluginConfig} {c : Route.Config}
    (h : NoFragments c) (t : RoutingTable) : t.writeFragments getFragment (some c) = t := by
  unfold writeFragments filterWrites
  dsimp only
  rw [inflate_of_no_fragment h.1, inflate_of_no_fragment h.2.1,
    inflateFilters_of_no_fragments h.2.2]
  simp

/-- A call without fragments spares the live routes. -/
theorem spares_of_no_fragments {c : Route.Config} (h : NoFragments c) (env : AddEnv)
    (t : RoutingTable) : (Op.addRoute (some c) env).Spares t := by
  rw [spares_iff]
  intro w _
  rw [writeFragments_of_no_fragments h]

/-- Calls that spare the live routes of any table do so in a run. -/
theorem sparing_of_forall (h : ∀ op ∈ ops, ∀ t, op.Spares t) : Sparing region ops :=
  (Runs.along_of_forall h).imp fun t _ _ hop => hop t

theorem withId_tenantId (c : Route.Config) : (withId c).tenantId = c.tenantId := by
  unfold withId
  split <;> rfl

/-- A call that succeeds is a registration or an unregistration of the table. -/
theorem addRoute_of_succeeds {c : Route.Config} {env : AddEnv}
    (hok : (Op.addRoute (some c) env).Succeeds) (t : RoutingTable) :
    t.addRoute region (some c) env =
      ((t.registerAndRunRoute region (withId c) env.plugins).1, .ok (withId c)) := by
  obtain ⟨hfrag, hvalid, hplugins, hset⟩ := hok
  have hprep : prepare env.getFragment (some c) = .ok (withId c) :=
    prepare_of_no_fragments hfrag hvalid
  have hreg := registerAndRunRoute_succeeds region t (withId c) hplugins
  rcases addRoute_cases region t (some c) env (writeFragments_of_no_fragments hfrag t) with
    ⟨err, herr, -⟩ | ⟨d, hd, hcases⟩
  · rw [hprep] at herr
    simp at herr
  · obtain rfl : withId c = d := by
      rw [hprep] at hd
      exact Except.ok.inj hd
    rcases hcases with ⟨err, herr, -⟩ | ⟨err, -, herr, -⟩ | ⟨-, -, heq⟩
    · rw [hreg] at herr
      simp at herr
    · rw [hset] at herr
      simp at herr
    · exact heq

/-- A valid configuration has an id. -/
theorem id_ne_of_validate {c : Route.Config} (h : c.validate = .ok ()) : c.id ≠ "" := by
  intro hid
  unfold Route.Config.validate at h
  rw [hid] at h
  simp only [if_true] at h
  split at h
  · simp at h
  · split at h
    · simp at h
    · split at h
      · simp at h
      · simp at h

/-- The table after calls that have led to `spec`, with configurations from `S` only. -/
structure Tracks (region : String) (S : Set Route.Config) (spec : Spec) (t : RoutingTable) :
    Prop where
  sound : t.Sound
  hashAt : ∀ tid routeId, t.hashAt (tid.keyWithRoute routeId) = target region (spec tid routeId)
  named : ∀ tid, spec tid "" = none
  form : ∀ key, t.entry key ≠ none → ∃ tid routeId, key = Tenant.Id.keyWithRoute tid routeId
  known : ∀ key d, t.entry key = some d → RunsHere region d ∧ d ∈ S

theorem tracks_empty (region : String) (S : Set Route.Config) :
    Tracks region S (fun _ _ => none) empty where
  sound := sound_empty
  hashAt := fun _ _ => rfl
  named := fun _ => rfl
  form := fun key h => absurd rfl h
  known := fun key d h => absurd h (by simp [entry, RoutingTable.empty])

variable {S : Set Route.Config} {spec : Spec}

/-- The keys of the abstract map and of the table change together. -/
theorem target_set (tid tid' : Tenant.Id) (routeId routeId' : String) (o : Option Route.Config) :
    target region (spec.set tid routeId o tid' routeId') =
      if tid'.keyWithRoute routeId' = tid.keyWithRoute routeId then target region o
      else target region (spec tid' routeId') := by
  unfold Spec.set
  simp only [Tenant.keyWithRoute_inj]
  split <;> rfl

/-- Taking a route off the table. -/
theorem Tracks.unregister (h : Tracks region S spec t) (tid : Tenant.Id) (routeId : String) :
    Tracks region S (spec.set tid routeId none) (t.unregisterAndStopRoute tid routeId).1 where
  sound := (h.sound.unregisterAndStopRoute tid routeId).2
  hashAt := by
    intro tid' routeId'
    rw [unregisterAndStopRoute_hashAt, target_set, h.hashAt]
    rfl
  named := by
    intro tid'
    unfold Spec.set
    split
    · rfl
    · exact h.named tid'
  form := by
    intro key hkey
    rw [unregisterAndStopRoute_entry] at hkey
    split at hkey
    · exact absurd rfl hkey
    · exact h.form key hkey
  known := unregisterAndStopRoute_entries tid routeId h.known

/-- Adding a route from `S`. -/
theorem Tracks.register (h : Tracks region S spec t) (hfree : Route.CollisionFree S)
    {c : Route.Config} (hc : c ∈ S) (hid : c.id ≠ "") {answers : ℕ → Answers}
    (hok : ∀ i, (answers i).Succeeds) :
    Tracks region S (spec.set c.tenantId c.id (some c))
      (t.registerAndRunRoute region c answers).1 := by
  -- a route on the table with the hash of `c` is the same route, and it runs here
  have hsame : t.hashAt c.key = some c.hash → RunsHere region c := by
    intro heq
    obtain ⟨d, hd, hhash⟩ := hashAt_eq_some.mp heq
    obtain ⟨hruns, hdS⟩ := h.known _ d hd
    have hs := hfree d hdS c hc hhash
    unfold RunsHere at hruns ⊢
    rwa [← hs.region, ← hs.inactive]
  have hnone := registerAndRunRoute_succeeds region t c hok
  obtain ⟨hsound, hother, -⟩ := h.sound.registerAndRunRoute region c answers
  refine ⟨hsound, ?_, ?_, ?_, ?_⟩
  · intro tid routeId
    rw [h.sound.register_hashAt hnone hsame, target_set, h.hashAt]
    rfl
  · intro tid
    unfold Spec.set
    rw [if_neg]
    · exact h.named tid
    · exact fun hand => hid hand.2.symm
  · intro key hkey
    rcases eq_or_ne key c.key with rfl | hne
    · exact ⟨c.tenantId, c.id, rfl⟩
    · rw [hother key hne] at hkey
      exact h.form key hkey
  · exact h.sound.register_forall h.known fun hruns => ⟨hruns, hc⟩

/-- One call keeps the table in step. -/
theorem Tracks.step (h : Tracks region S spec t) (hfree : Route.CollisionFree S) {op : Op}
    (hop : op.Succeeds) (hadded : addedConfigs [op] ⊆ S) {t' : RoutingTable}
    (hs : t.step region op = some t') : Tracks region S (spec.step op) t' := by
  cases op with
  | addRoute rc env =>
      cases rc with
      | none => exact hop.elim
      | some c =>
          obtain rfl := Option.some.inj hs
          have hmem : withId c ∈ S := hadded ⟨c, env, List.mem_singleton.mpr rfl, rfl⟩
          have htrack := h.register hfree hmem (id_ne_of_validate hop.2.1) hop.2.2.1
          rw [addRoute_of_succeeds hop]
          rw [withId_tenantId] at htrack
          exact htrack
  | removeRoute tid routeId deleteRoute =>
      obtain rfl := Option.some.inj hs
      rw [removeRoute_table]
      split
      · -- the empty id names no route
        rename_i hid
        subst hid
        have hset : spec.step (.removeRoute tid "" deleteRoute) = spec := by
          funext tid' routeId'
          show spec.set tid "" none tid' routeId' = spec tid' routeId'
          unfold Spec.set
          split
          · rename_i hand
            rw [hand.2, h.named]
          · rfl
        rw [hset]
        exact h
      · exact h.unregister tid routeId
  | syncItem tid routeId add getRoute answers => exact hop.elim

theorem tracks_of_run (hok : ∀ op ∈ ops, op.Succeeds) (hfree : Route.CollisionFree S)
    (hadded : addedConfigs ops ⊆ S) (hrun : Runs.run (step region) empty ops = some t) :
    Tracks region S (Spec.ofOps ops) t := by
  have hinv := Runs.run_induction_trace
    (P := fun tr t => (∀ op ∈ tr, op.Succeeds) → addedConfigs tr ⊆ S →
      Tracks region S (Spec.ofOps tr) t) ?_ (fun _ _ => tracks_empty region S) hrun
  · exact hinv hok hadded
  · intro tr t op t' ih hs hok hadded
    rw [Spec.ofOps_append]
    refine (ih (fun o ho => hok o (by simp [ho])) ?_).step hfree (hok op (by simp)) ?_ hs
    · rintro c ⟨c₀, env, hmem, rfl⟩
      exact hadded ⟨c₀, env, by simp [hmem], rfl⟩
    · rintro c ⟨c₀, env, hmem, rfl⟩
      exact hadded ⟨c₀, env, by simp [List.mem_singleton.mp hmem], rfl⟩

/-- A table that keeps step with the map refines it. -/
theorem Tracks.refines (h : Tracks region S spec t) : Refines region spec t := by
  have hhash : ∀ tid routeId w c, t.liveRouteMap.lookup (tid.keyWithRoute routeId) = some w →
      spec tid routeId = some c → (t.wrappers w).config.hash = c.hash := by
    intro tid routeId w c hw hc
    have heq := h.hashAt tid routeId
    rw [hashAt_of_lookup hw, hc, target_some] at heq
    split at heq
    · exact Option.some.inj heq
    · simp at heq
  refine ⟨?_, hhash, ?_, fun _ _ => h.sound.routeHashMap_lookup, h.sound.refCnt,
    fun _ => h.sound.registered, fun _ => h.sound.released⟩
  · intro key
    constructor
    · intro hne
      obtain ⟨w, hw⟩ := Option.ne_none_iff_exists'.mp hne
      -- a key on the table is the key of a tenant's route
      obtain ⟨tid, routeId, rfl⟩ := h.form key (by rw [ne_eq, entry_eq_none]; exact hne)
      have heq := h.hashAt tid routeId
      rw [hashAt_of_lookup hw] at heq
      cases hc : spec tid routeId with
      | none =>
          rw [hc] at heq
          simp at heq
      | some c =>
          rw [hc, target_some] at heq
          split at heq
          · rename_i hruns
            exact ⟨tid, routeId, c, rfl, hc, hruns⟩
          · simp at heq
    · rintro ⟨tid, routeId, c, rfl, hc, hruns⟩
      have heq := h.hashAt tid routeId
      rw [hc, target_some, if_pos hruns] at heq
      obtain ⟨d, hd, -⟩ := hashAt_eq_some.mp heq
      obtain ⟨w, hw, -⟩ := entry_eq_some.mp hd
      rw [hw]
      simp
  · intro tid routeId tid' routeId' w w' c c' hw hw' hc hc'
    rw [← hhash tid routeId w c hw hc, ← hhash tid' routeId' w' c' hw' hc']
    constructor
    · rintro rfl
      rfl
    · exact h.sound.eq_of_hash ⟨_, hw⟩ ⟨_, hw'⟩

/-- **The table refines the map of routes.**  After every sequence of successful calls of
`AddRoute` and `RemoveRoute`, the table holds the routes that were added last and not
removed since, as far as they are meant to run here. -/
theorem table_refines_spec (hok : ∀ op ∈ ops, op.Succeeds)
    (hfree : Route.CollisionFree (addedConfigs ops))
    (hrun : Runs.run (step region) empty ops = some t) :
    Refines region (Spec.ofOps ops) t :=
  (tracks_of_run hok hfree le_rfl hrun).refines

/-- A route from a debug receiver to a debug sender. -/
def sampleRoute (id name : String) : Route.Config :=
  { id := id, tenantId := ⟨"acme", "tv"⟩, userId := "u1", name := name
    receiver := { plugin := "debug" }, sender := { plugin := "debug" } }

/-- Surroundings in which nothing fails. -/
def sampleEnv : AddEnv where
  getFragment := fun _ _ => .error "no fragments"
  plugins := fun _ => { hash := .ok "h" }

theorem sample_succeeds {id name : String} (hvalid : (sampleRoute id name).validate = .ok ())
    (hid : id ≠ "") : (Op.addRoute (some (sampleRoute id name)) sampleEnv).Succeeds := by
  have hwith : withId (sampleRoute id name) = sampleRoute id name := if_neg hid
  exact ⟨⟨rfl, rfl, by simp [sampleRoute]⟩, by rw [hwith]; exact hvalid,
    fun _ => ⟨rfl, ⟨"h", rfl⟩, rfl, rfl⟩, rfl⟩

/-- A call that adds such a route has no fragments to write. -/
theorem sample_spares (id name : String) (env : AddEnv) (t : RoutingTable) :
    (Op.addRoute (some (sampleRoute id name)) env).Spares t :=
  spares_of_no_fragments ⟨rfl, rfl, by simp [sampleRoute]⟩ env t

theorem sample_same (id id' name : String) : (sampleRoute id name).Same (sampleRoute id' name) :=
  ⟨rfl, rfl, rfl, rfl, rfl, rfl, ⟨rfl, rfl, rfl⟩, ⟨rfl, rfl, rfl⟩, List.Forall₂.nil⟩

/-- Two ids for one route, another route, and one of the ids removed. -/
def sampleOps : List Op :=
  [.addRoute (some (sampleRoute "r1" "")) sampleEnv,
    .addRoute (some (sampleRoute "r2" "")) sampleEnv,
    .addRoute (some (sampleRoute "r3" "other")) sampleEnv,
    .removeRoute ⟨"acme", "tv"⟩ "r1" none]

/-- After these calls the table holds the other two ids. -/
theorem table_refines_spec_sample :
    ∃ t, Runs.run (step "us-west") empty sampleOps = some t ∧
      Refines "us-west" (Spec.ofOps sampleOps) t := by
  have hok : ∀ op ∈ sampleOps, op.Succeeds := by
    simp only [sampleOps, List.forall_mem_cons, List.not_mem_nil, false_implies, implies_true,
      and_true]
    exact ⟨sample_succeeds (by decide) (by decide), sample_succeeds (by decide) (by decide),
      sample_succeeds (by decide) (by decide), rfl⟩
  have hne : (sampleRoute "r1" "").hash ≠ (sampleRoute "r3" "other").hash := by decide +kernel
  have hmem : ∀ c ∈ addedConfigs sampleOps,
      c = sampleRoute "r1" "" ∨ c = sampleRoute "r2" "" ∨ c = sampleRoute "r3" "other" := by
    rintro c ⟨c₀, env, hc, rfl⟩
    simp only [sampleOps, List.mem_cons, Op.addRoute.injEq, Option.some.injEq, List.not_mem_nil,
      or_false, reduceCtorEq] at hc
    rcases hc with ⟨rfl, -⟩ | ⟨rfl, -⟩ | ⟨rfl, -⟩
    · exact Or.inl rfl
    · exact Or.inr (Or.inl rfl)
    · exact Or.inr (Or.inr rfl)
  have hfree : Route.CollisionFree (addedConfigs sampleOps) := by
    intro c hc d hd hhash
    rcases hmem c hc with rfl | rfl | rfl <;> rcases hmem d hd with rfl | rfl | rfl
    · exact sample_same _ _ _
    · exact sample_same _ _ _
    · exact absurd hhash hne
    · exact sample_same _ _ _
    · exact sample_same _ _ _
    · exact absurd hhash hne
    · exact absurd hhash.symm hne
    · exact absurd hhash.symm hne
    · exact sample_same _ _ _
  exact ⟨_, rfl, table_refines_spec hok hfree rfl⟩

/-! ## Fragments in shared arrays -/

/-- A fragment with a log filter. -/
def logFragment (tag : String) : Route.PluginConfig :=
  { plugin := "log", config := .obj [("tag", .str tag)], fragmentName := "f" }

/-- Surroundings with this fragment. -/
def fragmentEnv (tag : String) : AddEnv :=
  { sampleEnv with getFragment := fun _ _ => .ok (logFragment tag) }

/-- A route with a filter, whose chain is the array 1. -/
def fragmentRoute (filter : Route.PluginConfig) : Route.Config :=
  { sampleRoute "r1" "" with filterChain := [filter], filterArray := 1 }

/-- A route is added with a reference to the fragment, the fragment is changed, and the route that
was stored, whose array is that of the live route, is added again as inactive.  The live route
gets another hash before it is taken off the table, and its entry in `routeHashMap` stays. -/
theorem toggled_fragment_leaves_hash :
    ∃ t, Runs.run (step "us-west") empty
        [.addRoute (some (fragmentRoute { plugin := "", fragmentName := "f" })) (fragmentEnv "a"),
          .addRoute (some { fragmentRoute (logFragment "a") with inactive := true })
            (fragmentEnv "b")] = some t ∧
      t.liveRouteMap = ∅ ∧ t.routeHashMap.lookup (fragmentRoute (logFragment "a")).hash = some 0 := by
  refine ⟨_, rfl, ?_⟩
  decide +kernel

end RoutingTable
