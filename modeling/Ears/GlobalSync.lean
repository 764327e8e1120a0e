/-
# The global synchronization (`SynchronizeAllRoutes`)

The periodic check compares the table with the stored routes.  It copies the keys of the
table, stops what is stale, and starts what is missing.  To find the stored route of a key
it uses the tenant and the id in the configuration of the live route, which is the
configuration the live route was made from.  A live route that several ids share has the
id of one of them.

`sync_converges_iff`: the table converges to the stored routes, whatever they are, exactly
when every key on the table is the key of its live route's configuration.
-/
import Ears.TableRefinement

open Plugin

namespace RoutingTable

/-! ## The two loops -/

/-- The state of the check: the table, the copy of its keys, and the number of repairs. -/
structure Repair where
  table : RoutingTable
  lrm : Finmap fun _ : String => ℕ
  mutated : ℕ

/-- `storedRouteMap`: the stored routes by their keys. -/
def storedRouteMap (storedRoutes : List Route.Config) : Finmap fun _ : String => Route.Config :=
  storedRoutes.foldl (fun m c => m.insert c.key c) ∅

/-- The body of the first loop: stop a route that is not stored, or stored with another
hash.  A route that is not stored stays in the copy. -/
def stopStale (stored : Finmap fun _ : String => Route.Config) (s : Repair) (key : String) :
    Repair :=
  match s.lrm.lookup key with
  | none => s
  | some w =>
      let c := (s.table.wrappers w).config
      match stored.lookup c.key with
      | none =>
          { s with
            table := (s.table.unregisterAndStopRoute c.tenantId c.id).1
            mutated := s.mutated + 1 }
      | some storedRoute =>
          if c.hash ≠ storedRoute.hash then
            { table := (s.table.unregisterAndStopRoute c.tenantId c.id).1
              lrm := s.lrm.erase key
              mutated := s.mutated + 1 }
          else s

/-- The body of the second loop: start a stored route that is not in the copy and is meant
to run here.  An error is ignored. -/
def startMissing (region : String) (answers : Route.Config → ℕ → Answers) (s : Repair)
    (storedRoute : Route.Config) : Repair :=
  match s.lrm.lookup storedRoute.key with
  | some _ => s
  | none =>
      if storedRoute.inactive = false then
        if storedRoute.region = "" ∨ storedRoute.region = region then
          { s with
            table := (s.table.registerAndRunRoute region storedRoute (answers storedRoute)).1
            mutated := s.mutated + 1 }
        else s
      else s

/-- `SynchronizeAllRoutes`: the number of repairs and the error.  `order` is the order in
which the keys of the copy are visited. -/
def synchronizeAllRoutes (region : String) (t : RoutingTable)
    (getAllRoutes : Except String (List Route.Config)) (order : List String)
    (answers : Route.Config → ℕ → Answers) : RoutingTable × ℕ × Option String :=
  match getAllRoutes with
  | .error err => (t, 0, some err)
  | .ok storedRoutes =>
      let s := order.foldl (stopStale (storedRouteMap storedRoutes)) ⟨t, t.liveRouteMap, 0⟩
      let s := storedRoutes.foldl (startMissing region answers) s
      (s.table, s.mutated, none)

/-- The order visits every key of the table once. -/
def Visits (t : RoutingTable) (order : List String) : Prop :=
  order.Nodup ∧ ∀ key, key ∈ order ↔ t.liveRouteMap.lookup key ≠ none

/-- A store has one route under a key. -/
def DistinctKeys (store : List Route.Config) : Prop := (store.map Route.Config.key).Nodup

/-- Everything that is registered for the store succeeds. -/
def AllSucceed (store : List Route.Config) (answers : Route.Config → ℕ → Answers) : Prop :=
  ∀ c ∈ store, ∀ i, (answers c i).Succeeds

/-- The configurations of the live routes. -/
def configs (t : RoutingTable) : Set Route.Config := { d | ∃ key, t.entry key = some d }

/-! ## What the synchronization is for -/

/-- The table holds the stored routes that are meant to run here, with the stored hashes. -/
structure Converged (region : String) (store : List Route.Config) (t : RoutingTable) : Prop where
  keys : ∀ key, t.liveRouteMap.lookup key ≠ none ↔ ∃ c ∈ store, c.key = key ∧ RunsHere region c
  hash : ∀ c ∈ store, ∀ w, t.liveRouteMap.lookup c.key = some w →
    (t.wrappers w).config.hash = c.hash

/-- The synchronization leads to the stored routes, and finds nothing to do when it runs
again. -/
def SyncConverges (region : String) (t : RoutingTable) (store : List Route.Config) : Prop :=
  ∀ order answers, t.Visits order → AllSucceed store answers →
    Converged region store (t.synchronizeAllRoutes region (.ok store) order answers).1 ∧
    ∀ store' order' answers', store'.Perm store →
      (t.synchronizeAllRoutes region (.ok store) order answers).1.Visits order' →
      AllSucceed store' answers' →
      ((t.synchronizeAllRoutes region (.ok store) order answers).1.synchronizeAllRoutes region
        (.ok store') order' answers').2 = (0, none)

/-- Every key is the key of its live route's configuration. -/
def OwnKeys (t : RoutingTable) : Prop := ∀ key d, t.entry key = some d → d.key = key

/-- Every key is the key of its live route's configuration, or both are stored with the hash
of the live route. -/
def Fits (t : RoutingTable) (store : List Route.Config) : Prop :=
  ∀ key d, t.entry key = some d → d.key = key ∨
    (∃ c ∈ store, c.key = d.key ∧ c.hash = d.hash) ∧ ∃ c ∈ store, c.key = key ∧ c.hash = d.hash

/-! ## The map of stored routes -/

variable {t : RoutingTable} {region : String} {store : List Route.Config}

theorem lookup_foldl_insert (l : List Route.Config) (m : Finmap fun _ : String => Route.Config)
    (hl : DistinctKeys l) (key : String) (c : Route.Config) :
    (l.foldl (fun m c => m.insert c.key c) m).lookup key = some c ↔
      (c ∈ l ∧ c.key = key) ∨ (key ∉ l.map Route.Config.key ∧ m.lookup key = some c) := by
  induction l generalizing m with
  | nil => simp
  | cons d l ih =>
      obtain ⟨hd, hl⟩ := List.nodup_cons.mp hl
      rw [List.foldl_cons, ih _ hl, Finmap.lookup_insert_eq]
      rcases eq_or_ne key d.key with rfl | hne
      · rw [if_pos rfl, Option.some.injEq]
        have hnot : ¬ (c ∈ l ∧ c.key = d.key) := by
          rintro ⟨hc, hkey⟩
          exact hd (List.mem_map.mpr ⟨c, hc, hkey⟩)
        constructor
        · rintro (h | ⟨-, rfl⟩)
          · exact absurd h hnot
          · exact Or.inl ⟨List.mem_cons_self, rfl⟩
        · rintro (⟨hc, hkey⟩ | ⟨hc, -⟩)
          · rcases List.mem_cons.mp hc with rfl | hc
            · exact Or.inr ⟨hd, rfl⟩
            · exact absurd ⟨hc, hkey⟩ hnot
          · exact absurd List.mem_cons_self hc
      · rw [if_neg hne, List.map_cons, List.mem_cons, List.mem_cons]
        constructor
        · rintro (⟨hc, hkey⟩ | ⟨hkey, hm⟩)
          · exact Or.inl ⟨Or.inr hc, hkey⟩
          · exact Or.inr ⟨by tauto, hm⟩
        · rintro (⟨rfl | hc, hkey⟩ | ⟨hkey, hm⟩)
          · exact absurd hkey.symm hne
          · exact Or.inl ⟨hc, hkey⟩
          · exact Or.inr ⟨by tauto, hm⟩

/-- The map leads to the stored routes. -/
theorem storedRouteMap_lookup (hstore : DistinctKeys store) {key : String} {c : Route.Config} :
    (storedRouteMap store).lookup key = some c ↔ c ∈ store ∧ c.key = key := by
  unfold storedRouteMap
  rw [lookup_foldl_insert store ∅ hstore]
  simp

/-- The table has converged when every key has the hash it should have. -/
theorem converged_iff (hstore : DistinctKeys store) : Converged region store t ↔
    ∀ key, t.hashAt key = target region ((storedRouteMap store).lookup key) := by
  have hlookup : ∀ key c, (storedRouteMap store).lookup key = some c ↔ c ∈ store ∧ c.key = key :=
    fun _ _ => storedRouteMap_lookup hstore
  have hholds : Converged region store t ↔
      Holds region (fun key => (storedRouteMap store).lookup key) t := by
    constructor
    · intro h
      constructor
      · intro key
        simp only [h.keys key, hlookup, and_assoc]
      · intro key w c hw hc
        obtain ⟨hmem, rfl⟩ := (hlookup key c).mp hc
        exact h.hash c hmem w hw
    · intro h
      constructor
      · intro key
        simp only [h.keys key, hlookup, and_assoc]
      · intro c hmem w hw
        exact h.hash c.key w c hw ((hlookup c.key c).mpr ⟨hmem, rfl⟩)
  rw [hholds, holds_iff]

/-! ## The first loop -/

/-- The route is stored under its own key, with its hash. -/
def Matches (stored : Finmap fun _ : String => Route.Config) (d : Route.Config) : Prop :=
  ∃ c, stored.lookup d.key = some c ∧ d.hash = c.hash

/-- The route is stored under its own key, with another hash. -/
def Differs (stored : Finmap fun _ : String => Route.Config) (d : Route.Config) : Prop :=
  ∃ c, stored.lookup d.key = some c ∧ d.hash ≠ c.hash

/-- The key belongs to the configuration of a route that does not match. -/
def Stale (stored : Finmap fun _ : String => Route.Config) (t : RoutingTable)
    (visited : List String) (key : String) : Prop :=
  ∃ k ∈ visited, ∃ d, t.entry k = some d ∧ ¬ Matches stored d ∧ d.key = key

/-- The state after some keys have been visited: stale keys are off the table, and the keys
of routes that differ are off the copy. -/
structure Stopping (stored : Finmap fun _ : String => Route.Config) (t : RoutingTable)
    (visited : List String) (s : Repair) : Prop where
  sound : s.table.Sound
  config : ∀ v, (s.table.wrappers v).config = (t.wrappers v).config
  stopped : ∀ key, Stale stored t visited key → s.table.entry key = none
  kept : ∀ key, ¬ Stale stored t visited key → s.table.entry key = t.entry key
  struck : ∀ key ∈ visited, ∀ d, t.entry key = some d → Differs stored d →
    s.lrm.lookup key = none
  listed : ∀ key, (key ∈ visited → ∀ d, t.entry key = some d → ¬ Differs stored d) →
    s.lrm.lookup key = t.liveRouteMap.lookup key

variable {stored : Finmap fun _ : String => Route.Config} {visited : List String} {s : Repair}
  {key : String} {d : Route.Config}

theorem stale_append {k : String} : Stale stored t (visited ++ [key]) k ↔
    Stale stored t visited k ∨ ∃ d, t.entry key = some d ∧ ¬ Matches stored d ∧ d.key = k := by
  unfold Stale
  simp only [List.mem_append, List.mem_singleton]
  constructor
  · rintro ⟨k', hk' | rfl, h⟩
    · exact Or.inl ⟨k', hk', h⟩
    · exact Or.inr h
  · rintro (⟨k', hk', h⟩ | h)
    · exact ⟨k', Or.inl hk', h⟩
    · exact ⟨key, Or.inr rfl, h⟩

/-- Visiting a key of a route that matches, or a key that is not on the table. -/
theorem Stopping.skip (h : Stopping stored t visited s)
    (hskip : ∀ d, t.entry key = some d → Matches stored d) :
    Stopping stored t (visited ++ [key]) s where
  sound := h.sound
  config := h.config
  stopped := by
    intro k hk
    rcases stale_append.mp hk with hk | ⟨d, hd, hnot, -⟩
    · exact h.stopped k hk
    · exact absurd (hskip d hd) hnot
  kept := fun k hk => h.kept k fun hst => hk (stale_append.mpr (Or.inl hst))
  struck := by
    intro k hk d hd hdiff
    rcases List.mem_append.mp hk with hk | hk
    · exact h.struck k hk d hd hdiff
    · obtain rfl := List.mem_singleton.mp hk
      obtain ⟨c, hc, hhash⟩ := hskip d hd
      obtain ⟨c', hc', hne⟩ := hdiff
      rw [hc] at hc'
      obtain rfl := Option.some.inj hc'
      exact absurd hhash hne
  listed := fun k hk => h.listed k fun hmem => hk (List.mem_append_left _ hmem)

/-- Visiting a key of a route that does not match: the key of its configuration goes. -/
theorem Stopping.stop (h : Stopping stored t visited s) (hd : t.entry key = some d)
    (hnot : ¬ Matches stored d) {lrm : Finmap fun _ : String => ℕ} {mutated : ℕ}
    (hstruck : Differs stored d → lrm.lookup key = none)
    (hlisted : ¬ Differs stored d → lrm.lookup key = s.lrm.lookup key)
    (hother : ∀ k, k ≠ key → lrm.lookup k = s.lrm.lookup k) :
    Stopping stored t (visited ++ [key])
      ⟨(s.table.unregisterAndStopRoute d.tenantId d.id).1, lrm, mutated⟩ where
  sound := (h.sound.unregisterAndStopRoute d.tenantId d.id).2
  config := by
    intro v
    rw [← h.config v]
    exact ((unregisterAndStopRoute_frame _ d.tenantId d.id).2.2 v).config
  stopped := by
    intro k hk
    show (s.table.unregisterAndStopRoute d.tenantId d.id).1.entry k = none
    rw [unregisterAndStopRoute_entry]
    split
    · rfl
    · rename_i hne
      rcases stale_append.mp hk with hk | ⟨d', hd', -, rfl⟩
      · exact h.stopped k hk
      · rw [hd] at hd'
        obtain rfl := Option.some.inj hd'
        exact absurd rfl hne
  kept := by
    intro k hk
    show (s.table.unregisterAndStopRoute d.tenantId d.id).1.entry k = _
    rw [unregisterAndStopRoute_entry, if_neg]
    · exact h.kept k fun hst => hk (stale_append.mpr (Or.inl hst))
    · rintro rfl
      exact hk (stale_append.mpr (Or.inr ⟨d, hd, hnot, rfl⟩))
  struck := by
    intro k hk d' hd' hdiff
    show lrm.lookup k = none
    rcases eq_or_ne k key with rfl | hne
    · rw [hd] at hd'
      obtain rfl := Option.some.inj hd'
      exact hstruck hdiff
    · rw [hother k hne]
      refine h.struck k ?_ d' hd' hdiff
      rcases List.mem_append.mp hk with hk | hk
      · exact hk
      · exact absurd (List.mem_singleton.mp hk) hne
  listed := by
    intro k hk
    show lrm.lookup k = _
    have hold : s.lrm.lookup k = t.liveRouteMap.lookup k :=
      h.listed k fun hmem => hk (List.mem_append_left _ hmem)
    rcases eq_or_ne k key with rfl | hne
    · rw [hlisted (hk (by simp) d hd), hold]
    · rw [hother k hne, hold]

/-- One round of the first loop. -/
theorem Stopping.step (h : Stopping stored t visited s) (hnew : key ∉ visited) :
    Stopping stored t (visited ++ [key]) (stopStale stored s key) := by
  have hlrm : s.lrm.lookup key = t.liveRouteMap.lookup key :=
    h.listed key fun hmem => absurd hmem hnew
  unfold stopStale
  rw [hlrm]
  cases hkey : t.liveRouteMap.lookup key with
  | none =>
      apply h.skip
      intro d hd
      rw [entry_eq_none.mpr hkey] at hd
      simp at hd
  | some w =>
      dsimp only
      rw [h.config w]
      have hd : t.entry key = some (t.wrappers w).config := entry_eq_some.mpr ⟨w, hkey, rfl⟩
      cases hc : stored.lookup (t.wrappers w).config.key with
      | none =>
          -- not stored: the route is stopped, its key stays in the copy of the table
          refine h.stop hd ?_ ?_ (fun _ => rfl) fun _ _ => rfl
          · rintro ⟨c, hc', -⟩
            rw [hc] at hc'
            simp at hc'
          · rintro ⟨c, hc', -⟩
            rw [hc] at hc'
            simp at hc'
      | some c =>
          dsimp only
          split
          · -- stored with another hash: the key is struck from the copy, too
            rename_i hne
            refine h.stop hd ?_ (fun _ => Finmap.lookup_erase _ _) ?_
              fun k hk => Finmap.lookup_erase_ne hk
            · rintro ⟨c', hc', hhash⟩
              rw [hc] at hc'
              obtain rfl := Option.some.inj hc'
              exact hne hhash
            · exact fun hnot => absurd ⟨c, hc, hne⟩ hnot
          · rename_i hhash
            apply h.skip
            intro d hd'
            rw [hd] at hd'
            obtain rfl := Option.some.inj hd'
            exact ⟨c, hc, not_not.mp hhash⟩

/-- The first loop. -/
theorem Stopping.loop (ht : t.Sound) (stored : Finmap fun _ : String => Route.Config)
    {order : List String} (hnodup : order.Nodup) :
    Stopping stored t order (order.foldl (stopStale stored) ⟨t, t.liveRouteMap, 0⟩) := by
  induction order using List.reverseRecOn with
  | nil =>
      exact ⟨ht, fun _ => rfl, fun key ⟨k, hk, _⟩ => absurd hk List.not_mem_nil, fun _ _ => rfl,
        fun key hk => absurd hk List.not_mem_nil, fun _ _ => rfl⟩
  | append_singleton order key ih =>
      rw [List.nodup_append] at hnodup
      rw [List.foldl_append]
      exact (ih hnodup.1).step fun hmem => hnodup.2.2 key hmem key (by simp) rfl

/-! ## The second loop -/

/-- The route is to be started: it is not in the copy and is meant to run here. -/
def Missing (region : String) (lrm : Finmap fun _ : String => ℕ) (c : Route.Config) : Prop :=
  lrm.lookup c.key = none ∧ RunsHere region c

/-- The state after some stored routes have been visited. -/
structure Starting (region : String) (s₀ : Repair) (visited : List Route.Config) (s : Repair) :
    Prop where
  sound : s.table.Sound
  lrm : s.lrm = s₀.lrm
  started : ∀ c ∈ visited, Missing region s₀.lrm c → s.table.hashAt c.key = some c.hash
  kept : ∀ key, (∀ c ∈ visited, Missing region s₀.lrm c → c.key ≠ key) →
    s.table.entry key = s₀.table.entry key
  known : ∀ key d, s.table.entry key = some d →
    d ∈ visited ∨ ∃ k, s₀.table.entry k = some d

variable {s₀ : Repair} {c : Route.Config} {cs : List Route.Config}
  {answers : Route.Config → ℕ → Answers}

theorem startMissing_eq (region : String) (answers : Route.Config → ℕ → Answers) (s : Repair)
    (c : Route.Config) (hmissing : Missing region s.lrm c) :
    startMissing region answers s c =
      { s with
        table := (s.table.registerAndRunRoute region c (answers c)).1
        mutated := s.mutated + 1 } := by
  obtain ⟨hlrm, hregion, hactive⟩ := hmissing
  unfold startMissing
  rw [hlrm]
  dsimp only
  rw [if_pos hactive, if_pos (by tauto)]

theorem startMissing_skip (region : String) (answers : Route.Config → ℕ → Answers) (s : Repair)
    (c : Route.Config) (hmissing : ¬ Missing region s.lrm c) :
    startMissing region answers s c = s := by
  unfold startMissing
  split
  · rfl
  · rename_i hlrm
    split
    · rename_i hactive
      rw [if_neg]
      exact fun hregion => hmissing ⟨hlrm, by tauto, hactive⟩
    · rfl

/-- One round of the second loop. -/
theorem Starting.step (h : Starting region s₀ cs s) (hnew : c.key ∉ cs.map Route.Config.key)
    (hok : ∀ i, (answers c i).Succeeds) :
    Starting region s₀ (cs ++ [c]) (startMissing region answers s c) := by
  by_cases hmissing : Missing region s₀.lrm c
  · rw [startMissing_eq region answers s c (by rw [h.lrm]; exact hmissing)]
    obtain ⟨hsound, hother, -⟩ := h.sound.registerAndRunRoute region c (answers c)
    have hhash := h.sound.register_hashAt (registerAndRunRoute_succeeds region s.table c hok)
      fun _ => hmissing.2
    refine ⟨hsound, h.lrm, ?_, ?_, ?_⟩
    · -- the stored routes have different keys, so those started before are left alone
      intro c' hc' hmissing'
      show (s.table.registerAndRunRoute region c (answers c)).1.hashAt c'.key = _
      rw [hhash]
      rcases List.mem_append.mp hc' with hc' | hc'
      · rw [if_neg, h.started c' hc' hmissing']
        exact fun heq => hnew (List.mem_map.mpr ⟨c', hc', heq⟩)
      · obtain rfl := List.mem_singleton.mp hc'
        rw [if_pos rfl, target_some, if_pos hmissing.2]
    · intro key hkey
      show (s.table.registerAndRunRoute region c (answers c)).1.entry key = _
      rw [hother key (hkey c (by simp) hmissing).symm]
      exact h.kept key fun c' hc' => hkey c' (List.mem_append_left _ hc')
    · refine h.sound.register_forall (P := fun d => d ∈ cs ++ [c] ∨
        ∃ k, s₀.table.entry k = some d) ?_ fun _ => Or.inl (by simp)
      intro key d hd
      rcases h.known key d hd with hmem | hold
      · exact Or.inl (List.mem_append_left _ hmem)
      · exact Or.inr hold
  · rw [startMissing_skip region answers s c (by rw [h.lrm]; exact hmissing)]
    refine ⟨h.sound, h.lrm, ?_, ?_, ?_⟩
    · intro c' hc' hmissing'
      rcases List.mem_append.mp hc' with hc' | hc'
      · exact h.started c' hc' hmissing'
      · obtain rfl := List.mem_singleton.mp hc'
        exact absurd hmissing' hmissing
    · exact fun key hkey => h.kept key fun c' hc' => hkey c' (List.mem_append_left _ hc')
    · intro key d hd
      rcases h.known key d hd with hmem | hold
      · exact Or.inl (List.mem_append_left _ hmem)
      · exact Or.inr hold

/-- The second loop. -/
theorem Starting.loop (region : String) (hs : s₀.table.Sound) (hcs : DistinctKeys cs)
    (hok : AllSucceed cs answers) :
    Starting region s₀ cs (cs.foldl (startMissing region answers) s₀) := by
  induction cs using List.reverseRecOn with
  | nil =>
      exact ⟨hs, rfl, fun c hc => absurd hc List.not_mem_nil, fun _ _ => rfl,
        fun key d hd => Or.inr ⟨key, hd⟩⟩
  | append_singleton cs c ih =>
      unfold DistinctKeys at hcs
      rw [List.map_append, List.nodup_append] at hcs
      rw [List.foldl_append]
      refine (ih hcs.1 fun c' hc' => hok c' (List.mem_append_left _ hc')).step ?_
        (hok c (by simp))
      exact fun hmem => hcs.2.2 c.key hmem c.key (by simp) rfl

/-! ## The whole synchronization -/

variable {order : List String}

/-- The two loops, one after the other. -/
theorem Sound.synchronizeAllRoutes (h : t.Sound) (region : String) (hstore : DistinctKeys store)
    (horder : t.Visits order) (hok : AllSucceed store answers) :
    ∃ s₁ s₂, Stopping (storedRouteMap store) t order s₁ ∧ Starting region s₁ store s₂ ∧
      t.synchronizeAllRoutes region (.ok store) order answers = (s₂.table, s₂.mutated, none) := by
  have hstop := Stopping.loop h (storedRouteMap store) horder.1
  exact ⟨_, _, hstop, Starting.loop region hstop.sound hstore hok, rfl⟩

theorem not_differs (h : Matches stored d) : ¬ Differs stored d := by
  rintro ⟨c', hc', hne⟩
  obtain ⟨c, hc, hhash⟩ := h
  rw [hc] at hc'
  exact hne (Option.some.inj hc' ▸ hhash)

/-- A key that the first loop has left off the table and off the copy, unless it is not
stored, gets its route in the second loop. -/
theorem Starting.hashAt_of_missing (h : Starting region s₀ store s) (hstore : DistinctKeys store)
    (hentry : s₀.table.entry key = none)
    (hlrm : s₀.lrm.lookup key = none ∨ (storedRouteMap store).lookup key = none) :
    s.table.hashAt key = target region ((storedRouteMap store).lookup key) := by
  have hkept : (∀ c ∈ store, Missing region s₀.lrm c → c.key ≠ key) → s.table.hashAt key = none := by
    intro hnone
    unfold hashAt
    rw [h.kept key hnone, hentry]
    rfl
  cases hc : (storedRouteMap store).lookup key with
  | none =>
      apply hkept
      rintro c hmem - rfl
      rw [(storedRouteMap_lookup hstore).mpr ⟨hmem, rfl⟩] at hc
      simp at hc
  | some c =>
      obtain ⟨hmem, rfl⟩ := (storedRouteMap_lookup hstore).mp hc
      rw [hc] at hlrm
      have hnot : s₀.lrm.lookup c.key = none := by simpa using hlrm
      rw [target_some]
      split
      · rename_i hruns
        exact h.started c hmem ⟨hnot, hruns⟩
      · rename_i hruns
        apply hkept
        rintro c' hmem' ⟨-, hruns'⟩ hkey
        rw [(storedRouteMap_lookup hstore).mpr ⟨hmem', hkey⟩] at hc
        exact hruns (Option.some.inj hc ▸ hruns')

/-- A key that is still in the copy is left alone by the second loop. -/
theorem Starting.entry_of_listed (h : Starting region s₀ store s)
    (hlrm : s₀.lrm.lookup key ≠ none) : s.table.entry key = s₀.table.entry key := by
  apply h.kept
  rintro c - ⟨hnone, -⟩ rfl
  exact hlrm hnone

/-- A live route that matches leaves its keys in the copy. -/
theorem Stopping.lrm_of_matches {s₁ : Repair} (h : Stopping stored t visited s₁)
    (hd : t.entry key = some d) (hmatch : Matches stored d) : s₁.lrm.lookup key ≠ none := by
  rw [h.listed key, ne_eq, ← entry_eq_none, hd]
  · simp
  · intro _ d' hd'
    rw [hd] at hd'
    obtain rfl := Option.some.inj hd'
    exact not_differs hmatch

/-- When all live routes match and all stored routes that are meant to run here are live,
there is nothing to do. -/
theorem synchronizeAllRoutes_idle
    (hmatch : ∀ key d, t.entry key = some d → Matches (storedRouteMap store) d)
    (hlive : ∀ c ∈ store, RunsHere region c → t.liveRouteMap.lookup c.key ≠ none) :
    t.synchronizeAllRoutes region (.ok store) order answers = (t, 0, none) := by
  have hstop : ∀ key, stopStale (storedRouteMap store) ⟨t, t.liveRouteMap, 0⟩ key =
      ⟨t, t.liveRouteMap, 0⟩ := by
    intro key
    unfold stopStale
    cases hkey : t.liveRouteMap.lookup key with
    | none => rfl
    | some w =>
        obtain ⟨c, hc, hhash⟩ := hmatch key _ (entry_eq_some.mpr ⟨w, hkey, rfl⟩)
        dsimp only
        rw [hc]
        exact if_neg (not_not.mpr hhash)
  have hstart : ∀ c ∈ store, startMissing region answers ⟨t, t.liveRouteMap, 0⟩ c =
      ⟨t, t.liveRouteMap, 0⟩ := by
    intro c hc
    apply startMissing_skip
    rintro ⟨hnone, hruns⟩
    exact hlive c hc hruns hnone
  unfold RoutingTable.synchronizeAllRoutes
  dsimp only
  rw [List.foldl_fixed' hstop]
  have hfold : store.foldl (startMissing region answers) ⟨t, t.liveRouteMap, 0⟩ =
      ⟨t, t.liveRouteMap, 0⟩ := by
    refine List.foldlRecOn (motive := fun s => s = Repair.mk t t.liveRouteMap 0) store
      (startMissing region answers) rfl ?_
    rintro _ rfl c hc
    exact hstart c hc
  rw [hfold]

/-! ## Live routes under their own keys -/

/-- Two entries with the same hash are the same configuration. -/
theorem Sound.entry_eq_of_hash (h : t.Sound) {k k' : String} {d d' : Route.Config}
    (hd : t.entry k = some d) (hd' : t.entry k' = some d') (hhash : d.hash = d'.hash) : d = d' := by
  obtain ⟨w, hw, rfl⟩ := entry_eq_some.mp hd
  obtain ⟨w', hw', rfl⟩ := entry_eq_some.mp hd'
  rw [h.eq_of_hash ⟨k, hw⟩ ⟨k', hw'⟩ hhash]

/-- Every live route matches and its key is stored with its hash, or its key is its own. -/
def Clear (region : String) (stored : Finmap fun _ : String => Route.Config) (t : RoutingTable) :
    Prop :=
  ∀ key d, t.entry key = some d →
    (Matches stored d ∧ target region (stored.lookup key) = some d.hash) ∨
      (¬ Matches stored d ∧ d.key = key)

theorem clear_of_fits (hfits : Fits t store) (hstore : DistinctKeys store)
    (hfree : Route.CollisionFree ({ c | c ∈ store } ∪ t.configs))
    (hruns : ∀ key d, t.entry key = some d → RunsHere region d) :
    Clear region (storedRouteMap store) t := by
  intro key d hd
  -- a stored route with the hash of a live one is meant to run here
  have htarget : ∀ c ∈ store, c.key = key → c.hash = d.hash →
      target region ((storedRouteMap store).lookup key) = some d.hash := by
    intro c hc hkey hhash
    have hsame := hfree c (Or.inl hc) d (Or.inr ⟨key, hd⟩) hhash
    have hrd := hruns key d hd
    rw [(storedRouteMap_lookup hstore).mpr ⟨hc, hkey⟩, target_some, if_pos, hhash]
    unfold RunsHere at hrd ⊢
    rwa [hsame.region, hsame.inactive]
  rcases hfits key d hd with hown | ⟨⟨c, hc, hkey, hhash⟩, c', hc', hkey', hhash'⟩
  · by_cases hmatch : Matches (storedRouteMap store) d
    · obtain ⟨c, hc, hhash⟩ := hmatch
      obtain ⟨hmem, hkey⟩ := (storedRouteMap_lookup hstore).mp hc
      exact Or.inl ⟨⟨c, hc, hhash⟩, htarget c hmem (hkey.trans hown) hhash.symm⟩
    · exact Or.inr ⟨hmatch, hown⟩
  · exact Or.inl ⟨⟨c, (storedRouteMap_lookup hstore).mpr ⟨hc, hkey⟩, hhash.symm⟩,
      htarget c' hc' hkey' hhash'⟩

theorem Visits.mem (horder : t.Visits order) (hd : t.entry key = some d) : key ∈ order := by
  rw [horder.2, ne_eq, ← entry_eq_none, hd]
  simp

variable {s₁ s₂ : Repair}

/-- The first loop stops the routes that do not match. -/
theorem Clear.stopped (h : Clear region stored t) (horder : t.Visits order)
    (hstop : Stopping stored t order s₁) (hd : t.entry key = some d) (hnot : ¬ Matches stored d) :
    s₁.table.entry key = none := by
  apply hstop.stopped
  rcases h key d hd with ⟨hmatch, -⟩ | ⟨-, hown⟩
  · exact absurd hmatch hnot
  · exact ⟨key, horder.mem hd, d, hd, hnot, hown⟩

/-- The first loop keeps the routes that match. -/
theorem Clear.kept (h : Clear region stored t) (hstop : Stopping stored t order s₁)
    (hd : t.entry key = some d) (hmatch : Matches stored d) : s₁.table.entry key = some d := by
  rw [hstop.kept key, hd]
  rintro ⟨k, -, d', hd', hnot, rfl⟩
  rcases h k d' hd' with ⟨hmatch', -⟩ | ⟨-, hown⟩
  · exact hnot hmatch'
  · rw [hown, hd'] at hd
    exact hnot (Option.some.inj hd ▸ hmatch)

/-- The first loop adds nothing. -/
theorem Stopping.entry_of_some (hstop : Stopping stored t order s₁)
    (hd : s₁.table.entry key = some d) : t.entry key = some d := by
  by_cases hst : Stale stored t order key
  · rw [hstop.stopped key hst] at hd
    simp at hd
  · rw [← hstop.kept key hst, hd]

/-- Both loops together bring every key to the hash it should have. -/
theorem Clear.hashAt (h : Clear region (storedRouteMap store) t) (hstore : DistinctKeys store)
    (horder : t.Visits order) (hstop : Stopping (storedRouteMap store) t order s₁)
    (hstart : Starting region s₁ store s₂) (key : String) :
    s₂.table.hashAt key = target region ((storedRouteMap store).lookup key) := by
  cases hd : t.entry key with
  | none =>
      refine hstart.hashAt_of_missing hstore ?_ (Or.inl ?_)
      · by_contra hne
        obtain ⟨d, hd'⟩ := Option.ne_none_iff_exists'.mp hne
        rw [hstop.entry_of_some hd'] at hd
        simp at hd
      · rw [hstop.listed key fun _ d hd' => by rw [hd] at hd'; simp at hd', ← entry_eq_none]
        exact hd
  | some d =>
      rcases h key d hd with ⟨hmatch, htarget⟩ | ⟨hnot, hown⟩
      · unfold RoutingTable.hashAt
        rw [htarget, hstart.entry_of_listed (hstop.lrm_of_matches hd hmatch),
          h.kept hstop hd hmatch]
        rfl
      · refine hstart.hashAt_of_missing hstore (h.stopped horder hstop hd hnot) ?_
        cases hc : (storedRouteMap store).lookup key with
        | none => exact Or.inr rfl
        | some c =>
            rw [← hown] at hc
            refine Or.inl (hstop.struck key (horder.mem hd) d hd ⟨c, hc, fun hhash => ?_⟩)
            exact hnot ⟨c, hc, hhash⟩

/-- All live routes match afterwards. -/
theorem Clear.matches_of_entry (h : Clear region (storedRouteMap store) t)
    (hstore : DistinctKeys store) (horder : t.Visits order)
    (hstop : Stopping (storedRouteMap store) t order s₁) (hstart : Starting region s₁ store s₂)
    (hd : s₂.table.entry key = some d) : Matches (storedRouteMap store) d := by
  rcases hstart.known key d hd with hmem | ⟨k, hk⟩
  · exact ⟨d, (storedRouteMap_lookup hstore).mpr ⟨hmem, rfl⟩, rfl⟩
  · by_contra hnot
    rw [h.stopped horder hstop (hstop.entry_of_some hk) hnot] at hk
    simp at hk

/-- A synchronization that fits converges. -/
theorem Sound.syncConverges (h : t.Sound) (hstore : DistinctKeys store)
    (hclear : Clear region (storedRouteMap store) t) : SyncConverges region t store := by
  intro order answers horder hok
  obtain ⟨s₁, s₂, hstop, hstart, heq⟩ := h.synchronizeAllRoutes region hstore horder hok
  rw [heq]
  have hconverged := (converged_iff hstore).mpr (hclear.hashAt hstore horder hstop hstart)
  refine ⟨hconverged, ?_⟩
  intro store' order' answers' hperm _ _
  have hstore' : DistinctKeys store' := (hperm.map _).nodup_iff.mpr hstore
  rw [synchronizeAllRoutes_idle]
  · intro key d hd
    obtain ⟨c, hc, hhash⟩ := hclear.matches_of_entry hstore horder hstop hstart hd
    refine ⟨c, ?_, hhash⟩
    rw [storedRouteMap_lookup hstore', hperm.mem_iff, ← storedRouteMap_lookup hstore]
    exact hc
  · intro c hc hruns
    exact (hconverged.keys c.key).mpr ⟨c, hperm.mem_iff.mp hc, rfl, hruns⟩

/-! ## Live routes under other keys -/

/-- The live routes have different hashes. -/
theorem Sound.collisionFree_configs (h : t.Sound) : Route.CollisionFree t.configs := by
  rintro c ⟨k, hk⟩ d ⟨k', hk'⟩ hhash
  rw [h.entry_eq_of_hash hk hk' hhash]
  exact Route.Config.Same.refl d

/-- Every table has an order that visits its keys. -/
theorem visits_toList (t : RoutingTable) : t.Visits t.liveRouteMap.keys.toList := by
  refine ⟨Finset.nodup_toList _, fun key => ?_⟩
  rw [Finset.mem_toList, Finmap.mem_keys, ← Finmap.lookup_isSome, Option.isSome_iff_ne_none]

/-- A synchronization with a store in which the route behind a key is stored under its own key
leaves the key in the copy, so the key is not started anew. -/
theorem Sound.entry_of_matches (h : t.Sound) (hstore : DistinctKeys store) (hd : t.entry key = some d)
    (hmem : d ∈ store) (horder : t.Visits order) (hok : AllSucceed store answers) :
    (t.synchronizeAllRoutes region (.ok store) order answers).1.entry key =
        some d ∧ ¬ Stale (storedRouteMap store) t order key ∨
      (t.synchronizeAllRoutes region (.ok store) order answers).1.entry key = none ∧
        Stale (storedRouteMap store) t order key := by
  obtain ⟨s₁, s₂, hstop, hstart, heq⟩ := h.synchronizeAllRoutes region hstore horder hok
  have hmatch : Matches (storedRouteMap store) d :=
    ⟨d, (storedRouteMap_lookup hstore).mpr ⟨hmem, rfl⟩, rfl⟩
  rw [heq, hstart.entry_of_listed (hstop.lrm_of_matches hd hmatch)]
  by_cases hst : Stale (storedRouteMap store) t order key
  · exact Or.inr ⟨hstop.stopped key hst, hst⟩
  · rw [hstop.kept key hst]
    exact Or.inl ⟨hd, hst⟩

/-- A key that is not the key of its live route's configuration is not brought to the
stored routes by every synchronization. -/
theorem Sound.exists_not_converges (h : t.Sound)
    (hruns : ∀ key d, t.entry key = some d → RunsHere region d) (hd : t.entry key = some d)
    (hne : d.key ≠ key) :
    ∃ store, DistinctKeys store ∧ (∀ c ∈ store, c ∈ t.configs) ∧
      ¬ SyncConverges region t store := by
  have hok : ∀ store, AllSucceed store fun _ _ => { hash := .ok "" } :=
    fun _ _ _ _ => ⟨rfl, ⟨"", rfl⟩, rfl, rfl⟩
  by_cases hother : ∃ k d', t.entry k = some d' ∧ d'.key = key
  · -- the key is stored with the hash of another route, and the copy hides it
    obtain ⟨k, d', hd', hkey⟩ := hother
    have hstore : DistinctKeys [d, d'] := by
      simp only [DistinctKeys, List.map_cons, List.map_nil, List.nodup_cons, List.mem_singleton,
        List.not_mem_nil, not_false_eq_true, List.nodup_nil, and_true]
      rw [hkey]
      exact hne
    have hhash : d.hash ≠ d'.hash := by
      intro heq
      obtain rfl := h.entry_eq_of_hash hd hd' heq
      exact hne hkey
    refine ⟨[d, d'], hstore, ?_, fun hconv => ?_⟩
    · intro c hc
      rcases List.mem_cons.mp hc with rfl | hc
      · exact ⟨key, hd⟩
      · exact ⟨k, List.mem_singleton.mp hc ▸ hd'⟩
    · have hkeys := (converged_iff hstore).mp (hconv _ _ t.visits_toList (hok _)).1 key
      rw [(storedRouteMap_lookup hstore).mpr ⟨by simp, hkey⟩, target_some,
        if_pos (hruns k d' hd')] at hkeys
      obtain ⟨e, he, hehash⟩ := hashAt_eq_some.mp hkeys
      rcases h.entry_of_matches hstore hd (by simp) t.visits_toList (hok _) with ⟨hentry, -⟩ |
        ⟨hentry, -⟩
      · rw [hentry] at he
        exact hhash (Option.some.inj he ▸ hehash)
      · rw [hentry] at he
        simp at he
  · -- the key is not stored, and nothing stops it
    have hstore : DistinctKeys [d] := List.nodup_singleton _
    refine ⟨[d], hstore, ?_, fun hconv => ?_⟩
    · intro c hc
      exact ⟨key, List.mem_singleton.mp hc ▸ hd⟩
    · have hkeys := (converged_iff hstore).mp (hconv _ _ t.visits_toList (hok _)).1 key
      have hnone : (storedRouteMap [d]).lookup key = none := by
        by_contra hsome
        obtain ⟨c, hc⟩ := Option.ne_none_iff_exists'.mp hsome
        obtain ⟨hmem, hkey⟩ := (storedRouteMap_lookup hstore).mp hc
        exact hne (List.mem_singleton.mp hmem ▸ hkey)
      rw [hnone, target_none] at hkeys
      rcases h.entry_of_matches hstore hd (by simp) t.visits_toList (hok _) with ⟨hentry, -⟩ |
        ⟨-, k, -, d', hd', -, hkey⟩
      · unfold hashAt at hkeys
        rw [hentry] at hkeys
        simp at hkeys
      · exact hother ⟨k, d', hd', hkey⟩

/-! ## Reachable tables -/

/-- Only routes that are meant to run here get on the table. -/
theorem runsHere_of_run {ops : List Op} (hspare : Sparing region ops)
    (hrun : Runs.run (step region) empty ops = some t) :
    ∀ key d, t.entry key = some d → RunsHere region d :=
  entries_of_run hspare (P := fun _ d => RunsHere region d) (fun _ _ _ _ hruns => hruns)
    (fun _ _ _ _ _ _ _ hd _ => hd) hrun

/-- **When the synchronization converges.**  For a table that calls of `AddRoute`,
`RemoveRoute` and `SyncItem` have led to that spare the live routes: the synchronization brings
the table to every store that the table fits to, and it brings the table to all stores exactly
when every key is the key of its live route's configuration. -/
theorem sync_converges_iff {ops : List Op} (hspare : Sparing region ops)
    (hrun : Runs.run (step region) empty ops = some t) :
    (∀ store, DistinctKeys store → Route.CollisionFree ({ c | c ∈ store } ∪ t.configs) →
      Fits t store → SyncConverges region t store) ∧
    ((∀ store, DistinctKeys store → Route.CollisionFree ({ c | c ∈ store } ∪ t.configs) →
      SyncConverges region t store) ↔ OwnKeys t) := by
  have hsound := sound_of_run hspare hrun
  have hruns := runsHere_of_run hspare hrun
  have hfits : ∀ store, DistinctKeys store →
      Route.CollisionFree ({ c | c ∈ store } ∪ t.configs) → Fits t store →
      SyncConverges region t store := fun store hstore hfree hfits =>
    hsound.syncConverges hstore (clear_of_fits hfits hstore hfree hruns)
  refine ⟨hfits, fun hall key d hd => ?_, fun hown store hstore hfree => ?_⟩
  · by_contra hne
    obtain ⟨store, hstore, hmem, hnot⟩ := hsound.exists_not_converges hruns hd hne
    refine hnot (hall store hstore fun c hc c' hc' => ?_)
    have hlive : ∀ c ∈ ({ c | c ∈ store } ∪ t.configs : Set Route.Config), c ∈ t.configs := by
      rintro c (hc | hc)
      · exact hmem c hc
      · exact hc
    exact hsound.collisionFree_configs c (hlive c hc) c' (hlive c' hc')
  · exact hfits store hstore hfree fun key d hd => Or.inl (hown key d hd)

/-- Two different routes. -/
def separateOps : List Op :=
  [.addRoute (some (sampleRoute "r1" "")) sampleEnv,
    .addRoute (some (sampleRoute "r3" "other")) sampleEnv]

/-- Their calls write no fragments. -/
theorem separateOps_sparing (region : String) : Sparing region separateOps := by
  apply sparing_of_forall
  simp only [separateOps, List.forall_mem_cons, List.not_mem_nil, false_implies, implies_true,
    and_true]
  exact ⟨sample_spares _ _ _, sample_spares _ _ _⟩

/-- They have a key each, which is their own. -/
theorem separate_ownKeys : ∃ t, Runs.run (step "us-west") empty separateOps = some t ∧
    t.liveRouteMap.keys.card = 2 ∧ OwnKeys t := by
  have heval : (Runs.run (step "us-west") empty separateOps).any (fun t =>
      t.liveRouteMap.keys.card = 2 ∧
        ∀ key ∈ t.liveRouteMap.keys, (t.entry key).any fun d => d.key = key) := by
    decide +kernel
  obtain ⟨t, hrun, heval⟩ := (Option.any_eq_true _ _).mp heval
  obtain ⟨hcard, hown⟩ := of_decide_eq_true heval
  refine ⟨t, hrun, hcard, fun key d hd => ?_⟩
  have h := hown key (Finset.mem_toList.mp (t.visits_toList.mem hd))
  rw [hd] at h
  simpa using h

/-- A table with these two routes is brought to every store. -/
theorem sync_converges_separate :
    ∃ t, Runs.run (step "us-west") empty separateOps = some t ∧
      ∀ store, DistinctKeys store → Route.CollisionFree ({ c | c ∈ store } ∪ t.configs) →
        SyncConverges "us-west" t store := by
  obtain ⟨t, hrun, -, hown⟩ := separate_ownKeys
  exact ⟨t, hrun, (sync_converges_iff (separateOps_sparing _) hrun).2.mpr hown⟩

/-- One route under two ids. -/
def sharedOps : List Op :=
  [.addRoute (some (sampleRoute "r1" "")) sampleEnv,
    .addRoute (some (sampleRoute "r2" "")) sampleEnv]

theorem sharedOps_sparing (region : String) : Sparing region sharedOps := by
  apply sparing_of_forall
  simp only [sharedOps, List.forall_mem_cons, List.not_mem_nil, false_implies, implies_true,
    and_true]
  exact ⟨sample_spares _ _ _, sample_spares _ _ _⟩

/-- The live route has the first id. -/
theorem shared_entry : ∃ t, Runs.run (step "us-west") empty sharedOps = some t ∧
    ∃ d, t.entry (sampleRoute "r2" "").key = some d ∧ d.id = "r1" ∧
      d.key ≠ (sampleRoute "r2" "").key := by
  have heval : (Runs.run (step "us-west") empty sharedOps).any (fun t =>
      (t.entry (sampleRoute "r2" "").key).any fun d =>
        d.id = "r1" ∧ d.key ≠ (sampleRoute "r2" "").key) := by
    decide +kernel
  obtain ⟨t, hrun, hentry⟩ := (Option.any_eq_true _ _).mp heval
  obtain ⟨d, hd, hid⟩ := (Option.any_eq_true _ _).mp hentry
  exact ⟨t, hrun, d, hd, of_decide_eq_true hid⟩

/-- When the store has lost the second id, the synchronization does not stop it. -/
theorem shared_route_survives_sync :
    ∃ t, Runs.run (step "us-west") empty sharedOps = some t ∧
      DistinctKeys [sampleRoute "r1" ""] ∧
      Route.CollisionFree ({ c | c ∈ [sampleRoute "r1" ""] } ∪ t.configs) ∧
      ¬ SyncConverges "us-west" t [sampleRoute "r1" ""] := by
  obtain ⟨t, hrun, d, hd, hid, -⟩ := shared_entry
  have hok : ∀ op ∈ sharedOps, op.Succeeds := by
    simp only [sharedOps, List.forall_mem_cons, List.not_mem_nil, false_implies, implies_true,
      and_true]
    exact ⟨sample_succeeds (by decide) (by decide), sample_succeeds (by decide) (by decide)⟩
  have hmem : ∀ c ∈ addedConfigs sharedOps, c = sampleRoute "r1" "" ∨ c = sampleRoute "r2" "" := by
    rintro c ⟨c₀, env, hc, rfl⟩
    simp only [sharedOps, List.mem_cons, Op.addRoute.injEq, Option.some.injEq, List.not_mem_nil,
      or_false] at hc
    rcases hc with ⟨rfl, -⟩ | ⟨rfl, -⟩
    · exact Or.inl rfl
    · exact Or.inr rfl
  have hfree : Route.CollisionFree (addedConfigs sharedOps) := by
    intro c hc d hd _
    rcases hmem c hc with rfl | rfl <;> rcases hmem d hd with rfl | rfl <;>
      exact sample_same _ _ _
  have htracks := tracks_of_run hok hfree le_rfl hrun
  obtain rfl : d = sampleRoute "r1" "" := by
    rcases hmem d (htracks.known _ d hd).2 with rfl | rfl
    · rfl
    · exact absurd hid (by decide)
  -- the two configurations have one hash, so the first one stands for both
  have hall : ∀ key e, t.entry key = some e → e = sampleRoute "r1" "" := by
    intro key e he
    apply htracks.sound.entry_eq_of_hash he hd
    rcases hmem e (htracks.known _ e he).2 with rfl | rfl <;> rfl
  have hstore : DistinctKeys [sampleRoute "r1" ""] := List.nodup_singleton _
  refine ⟨t, hrun, hstore, ?_, fun hconv => ?_⟩
  · have honly : ∀ c ∈ ({ c | c ∈ [sampleRoute "r1" ""] } ∪ t.configs : Set Route.Config),
        c = sampleRoute "r1" "" := by
      rintro c (hc | ⟨key, hc⟩)
      · exact List.mem_singleton.mp hc
      · exact hall key c hc
    intro c hc c' hc' _
    rw [honly c hc, honly c' hc']
    exact sample_same _ _ _
  · have hanswers : AllSucceed [sampleRoute "r1" ""] fun _ => sampleEnv.plugins :=
      fun _ _ _ => ⟨rfl, ⟨"h", rfl⟩, rfl, rfl⟩
    have hkeys := (hconv _ _ t.visits_toList hanswers).1.keys (sampleRoute "r2" "").key
    rcases htracks.sound.entry_of_matches hstore hd (by simp) t.visits_toList hanswers with
      ⟨hafter, -⟩ | ⟨-, k, -, d', hd', hnot, -⟩
    · have hlive := hkeys.mp (by rw [ne_eq, ← entry_eq_none, hafter]; simp)
      obtain ⟨c, hc, hkey, -⟩ := hlive
      rw [List.mem_singleton.mp hc] at hkey
      exact absurd hkey (by decide)
    · rw [hall k d' hd'] at hnot
      exact hnot ⟨_, (storedRouteMap_lookup hstore).mpr ⟨by simp, rfl⟩, rfl⟩

end RoutingTable
