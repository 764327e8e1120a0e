/-
# The synchronization check (`IsSynchronized`)

`IsSynchronized` compares the number of stored routes with the number of keys, and then looks
for the hash and for the key of each stored route, one apart from the other.
`SynchronizeAllRoutes` compares each live route with the stored route of its configuration's
key, and starts only the routes that are meant to run here.

`isSynchronized_agrees_iff`: the check and the synchronization disagree on three kinds of
tables and stores.
-/
import Ears.GlobalSync

open Plugin

/-- A fold that never counts down, and counts up when it changes something, has changed nothing
when the count is the same in the end. -/
theorem List.foldl_fixed_of_count {σ α : Type*} {f : σ → α → σ} (count : σ → ℕ)
    (hle : ∀ s a, count s ≤ count (f s a)) (hfix : ∀ s a, count (f s a) = count s → f s a = s)
    {l : List α} {s : σ} (h : count (l.foldl f s) = count s) :
    (∀ a ∈ l, f s a = s) ∧ l.foldl f s = s := by
  have hmono : ∀ (l : List α) s, count s ≤ count (l.foldl f s) := by
    intro l
    induction l with
    | nil => exact fun _ => le_rfl
    | cons a l ih => exact fun s => (hle s a).trans (ih (f s a))
  induction l with
  | nil => exact ⟨fun a ha => absurd ha List.not_mem_nil, rfl⟩
  | cons a l ih =>
      have hhead : f s a = s := by
        apply hfix
        have hrest := hmono l (f s a)
        rw [List.foldl_cons] at h
        have := hle s a
        omega
      rw [List.foldl_cons, hhead] at h ⊢
      obtain ⟨hall, heq⟩ := ih h
      exact ⟨List.forall_mem_cons.mpr ⟨hhead, hall⟩, heq⟩

namespace RoutingTable

/-! ## The check -/

/-- `IsSynchronized`. -/
def isSynchronized (t : RoutingTable) (getAllRoutes : Except String (List Route.Config)) :
    Bool × Option String :=
  match getAllRoutes with
  | .error err => (true, some err)
  | .ok storedRoutes =>
      if storedRoutes.length ≠ t.liveRouteMap.keys.card then (false, none)
      else
        (storedRoutes.all fun sr =>
          (t.routeHashMap.lookup sr.hash).isSome && (t.liveRouteMap.lookup sr.key).isSome, none)

/-- Some live route has the hash. -/
def HashLive (t : RoutingTable) (hash : String) : Prop := ∃ key, t.hashAt key = some hash

/-- A key is live exactly when it is stored. -/
def SameKeys (t : RoutingTable) (store : List Route.Config) : Prop :=
  ∀ key, t.entry key ≠ none ↔ key ∈ store.map Route.Config.key

/-- The synchronization has nothing to do: all live routes match, and all stored routes that are
meant to run here are live. -/
structure Idle (region : String) (t : RoutingTable) (store : List Route.Config) : Prop where
  stored : ∀ key d, t.entry key = some d → Matches (storedRouteMap store) d
  live : ∀ c ∈ store, RunsHere region c → t.entry c.key ≠ none

variable {t : RoutingTable} {region : String} {store : List Route.Config} {order : List String}
  {answers : Route.Config → ℕ → Answers} {key : String} {d : Route.Config}

theorem Sound.routeHashMap_isSome (h : t.Sound) {hash : String} :
    (t.routeHashMap.lookup hash).isSome ↔ t.HashLive hash := by
  rw [Option.isSome_iff_exists]
  unfold HashLive
  simp only [h.routeHashMap_lookup, hashAt_eq_some, entry_eq_some]
  constructor
  · rintro ⟨w, ⟨key, hkey⟩, hhash⟩
    exact ⟨key, _, ⟨w, hkey, rfl⟩, hhash⟩
  · rintro ⟨key, d, ⟨w, hkey, rfl⟩, hhash⟩
    exact ⟨w, ⟨key, hkey⟩, hhash⟩

theorem entry_ne_none : t.entry key ≠ none ↔ key ∈ t.liveRouteMap.keys := by
  rw [ne_eq, entry_eq_none, Finmap.lookup_eq_none, not_not, Finmap.mem_keys]

/-- Different stored keys that are all live, and as many as there are, are all there are. -/
theorem sameKeys_iff (hstore : DistinctKeys store) :
    t.SameKeys store ↔ store.length = t.liveRouteMap.keys.card ∧
      ∀ c ∈ store, t.entry c.key ≠ none := by
  have hcard : (store.map Route.Config.key).toFinset.card = store.length := by
    rw [List.toFinset_card_of_nodup hstore, List.length_map]
  have hset : t.SameKeys store ↔ (store.map Route.Config.key).toFinset = t.liveRouteMap.keys := by
    rw [Finset.ext_iff]
    unfold SameKeys
    simp only [entry_ne_none, List.mem_toFinset, Iff.comm]
  rw [hset]
  constructor
  · intro heq
    refine ⟨by rw [← heq, hcard], fun c hc => entry_ne_none.mpr ?_⟩
    rw [← heq, List.mem_toFinset]
    exact List.mem_map_of_mem hc
  · rintro ⟨hlen, hlive⟩
    -- the stored keys are live, and there are as many
    refine Finset.eq_of_subset_of_card_le (fun key hkey => ?_) (by omega)
    obtain ⟨c, hc, rfl⟩ := List.mem_map.mp (List.mem_toFinset.mp hkey)
    exact entry_ne_none.mp (hlive c hc)

/-- What the check finds out: the keys are the same, and all stored hashes are live. -/
theorem Sound.isSynchronized_iff (h : t.Sound) (hstore : DistinctKeys store) :
    (t.isSynchronized (.ok store)).1 = true ↔
      t.SameKeys store ∧ ∀ c ∈ store, t.HashLive c.hash := by
  have hlive : ∀ key : String, (t.liveRouteMap.lookup key).isSome ↔ t.entry key ≠ none := by
    intro key
    rw [Option.isSome_iff_ne_none, ne_eq, ne_eq, entry_eq_none]
  rw [sameKeys_iff hstore]
  unfold RoutingTable.isSynchronized
  dsimp only
  split
  · rename_i hlen
    simp [hlen]
  · rename_i hlen
    rw [not_not] at hlen
    simp only [List.all_eq_true, Bool.and_eq_true, h.routeHashMap_isSome, hlive]
    constructor
    · exact fun hall => ⟨⟨hlen, fun c hc => (hall c hc).2⟩, fun c hc => (hall c hc).1⟩
    · exact fun ⟨⟨_, hkeys⟩, hhashes⟩ c hc => ⟨hhashes c hc, hkeys c hc⟩

/-! ## The synchronization that repairs nothing -/

theorem stopStale_count (stored : Finmap fun _ : String => Route.Config) (s : Repair)
    (key : String) : s.mutated ≤ (stopStale stored s key).mutated ∧
      ((stopStale stored s key).mutated = s.mutated → stopStale stored s key = s) := by
  unfold stopStale
  split
  · exact ⟨le_rfl, fun _ => rfl⟩
  · dsimp only
    split
    · exact ⟨Nat.le_succ _, fun h => absurd h (Nat.succ_ne_self _)⟩
    · split
      · exact ⟨Nat.le_succ _, fun h => absurd h (Nat.succ_ne_self _)⟩
      · exact ⟨le_rfl, fun _ => rfl⟩

theorem startMissing_count (region : String) (answers : Route.Config → ℕ → Answers) (s : Repair)
    (c : Route.Config) : s.mutated ≤ (startMissing region answers s c).mutated ∧
      ((startMissing region answers s c).mutated = s.mutated →
        startMissing region answers s c = s) := by
  by_cases hmissing : Missing region s.lrm c
  · rw [startMissing_eq region answers s c hmissing]
    exact ⟨Nat.le_succ _, fun h => absurd h (Nat.succ_ne_self _)⟩
  · rw [startMissing_skip region answers s c hmissing]
    exact ⟨le_rfl, fun _ => rfl⟩

/-- A visit that changes nothing has found a live route that matches. -/
theorem matches_of_stopStale {stored : Finmap fun _ : String => Route.Config} {s : Repair}
    (hfix : stopStale stored s key = s) {w : ℕ} (hkey : s.lrm.lookup key = some w) :
    Matches stored (s.table.wrappers w).config := by
  have hcount := congrArg Repair.mutated hfix
  unfold stopStale at hcount
  rw [hkey] at hcount
  dsimp only at hcount
  split at hcount
  · simp at hcount
  · rename_i c hc
    split at hcount
    · simp at hcount
    · rename_i hhash
      exact ⟨c, hc, not_not.mp hhash⟩

/-- The synchronization counts no repair exactly when there is nothing to do. -/
theorem mutated_eq_zero_iff (horder : t.Visits order) :
    (t.synchronizeAllRoutes region (.ok store) order answers).2.1 = 0 ↔ t.Idle region store := by
  constructor
  · intro hzero
    change (store.foldl (startMissing region answers)
      (order.foldl (stopStale (storedRouteMap store)) ⟨t, t.liveRouteMap, 0⟩)).mutated = 0 at hzero
    generalize hs₁ : order.foldl (stopStale (storedRouteMap store)) ⟨t, t.liveRouteMap, 0⟩ = s₁
      at hzero
    -- neither loop has counted, so both have left the state as it was
    have hle := List.foldlRecOn (motive := fun s => s₁.mutated ≤ s.mutated) store
      (startMissing region answers) le_rfl
      fun s hs c _ => hs.trans (startMissing_count region answers s c).1
    have hcount₁ : s₁.mutated = 0 := by omega
    obtain ⟨hstop, heq₁⟩ := List.foldl_fixed_of_count Repair.mutated
      (fun s k => (stopStale_count (storedRouteMap store) s k).1)
      (fun s k => (stopStale_count (storedRouteMap store) s k).2) (hs₁ ▸ hcount₁)
    obtain ⟨hstart, -⟩ := List.foldl_fixed_of_count Repair.mutated
      (fun s c => (startMissing_count region answers s c).1)
      (fun s c => (startMissing_count region answers s c).2) (hzero.trans hcount₁.symm)
    rw [hs₁] at heq₁
    subst heq₁
    constructor
    · intro key d hd
      obtain ⟨w, hkey, rfl⟩ := entry_eq_some.mp hd
      exact matches_of_stopStale (hstop key (horder.mem hd)) hkey
    · intro c hc hruns hnone
      have hfix := congrArg Repair.mutated (hstart c hc)
      rw [startMissing_eq region answers _ c ⟨entry_eq_none.mp hnone, hruns⟩] at hfix
      simp at hfix
  · intro h
    rw [synchronizeAllRoutes_idle h.stored fun c hc hruns => ?_]
    rw [ne_eq, ← entry_eq_none]
    exact h.live c hc hruns

/-! ## Where they disagree -/

/-- The synchronization has nothing to do, and a stored route is not meant to run here. -/
def Ignored (region : String) (t : RoutingTable) (store : List Route.Config) : Prop :=
  t.Idle region store ∧ ∃ c ∈ store, ¬ RunsHere region c

/-- The synchronization has nothing to do, and a key of a live route that has another key in its
configuration is not stored, or is stored with a hash that is not live. -/
def Hidden (region : String) (t : RoutingTable) (store : List Route.Config) : Prop :=
  t.Idle region store ∧ ∃ key d, t.entry key = some d ∧ d.key ≠ key ∧
    ∀ c ∈ store, c.key = key → ¬ t.HashLive c.hash

/-- The stored keys are the live keys and the stored hashes are live, and yet some live route is
not stored under its configuration's key with its hash. -/
def Exchanged (t : RoutingTable) (store : List Route.Config) : Prop :=
  t.SameKeys store ∧ (∀ c ∈ store, t.HashLive c.hash) ∧
    ∃ key d, t.entry key = some d ∧ ¬ Matches (storedRouteMap store) d

/-- When the synchronization has nothing to do, the check still finds a difference exactly when
a stored route is not meant to run here or a key is hidden. -/
theorem Idle.not_synchronized_iff (h : t.Idle region store) (hstore : DistinctKeys store)
    (hruns : ∀ c ∈ store, t.HashLive c.hash → RunsHere region c) :
    ¬ (t.SameKeys store ∧ ∀ c ∈ store, t.HashLive c.hash) ↔
      t.Ignored region store ∨ t.Hidden region store := by
  constructor
  · intro hnot
    by_contra hneither
    rw [not_or] at hneither
    obtain ⟨hignored, hhidden⟩ := hneither
    have hall : ∀ c ∈ store, RunsHere region c := by
      intro c hc
      by_contra hc'
      exact hignored ⟨h, c, hc, hc'⟩
    -- a route under its own key is stored there, and under another key it would be hidden
    have hown : ∀ key d, t.entry key = some d → ∃ c ∈ store, c.key = key ∧ t.HashLive c.hash := by
      intro key d hd
      by_cases hkey : d.key = key
      · obtain ⟨c, hc, hhash⟩ := h.stored key d hd
        obtain ⟨hmem, hck⟩ := (storedRouteMap_lookup hstore).mp hc
        exact ⟨c, hmem, hck.trans hkey, key, hashAt_eq_some.mpr ⟨d, hd, hhash⟩⟩
      · by_contra hno
        exact hhidden ⟨h, key, d, hd, hkey, fun c hc hck hl => hno ⟨c, hc, hck, hl⟩⟩
    refine hnot ⟨fun key => ⟨fun hne => ?_, fun hkey => ?_⟩, fun c hc => ?_⟩
    · obtain ⟨d, hd⟩ := Option.ne_none_iff_exists'.mp hne
      obtain ⟨c, hc, hck, -⟩ := hown key d hd
      exact List.mem_map.mpr ⟨c, hc, hck⟩
    · obtain ⟨c, hc, rfl⟩ := List.mem_map.mp hkey
      exact h.live c hc (hall c hc)
    · obtain ⟨d, hd⟩ := Option.ne_none_iff_exists'.mp (h.live c hc (hall c hc))
      obtain ⟨c', hc', hck, hl⟩ := hown c.key d hd
      rwa [List.inj_on_of_nodup_map hstore hc' hc hck] at hl
  · rintro (⟨-, c, hc, hnot⟩ | ⟨-, key, d, hd, -, hkey⟩) ⟨hkeys, hhashes⟩
    · exact hnot (hruns c hc (hhashes c hc))
    · obtain ⟨c, hc, hck⟩ := List.mem_map.mp ((hkeys key).mp (by rw [hd]; simp))
      exact hkey c hc hck (hhashes c hc)

/-- With the same keys, there is nothing to do exactly when all live routes match. -/
theorem SameKeys.idle_iff (h : t.SameKeys store) : t.Idle region store ↔
    ∀ key d, t.entry key = some d → Matches (storedRouteMap store) d := by
  constructor
  · exact Idle.stored
  · exact fun hall => ⟨hall, fun c hc _ => (h c.key).mpr (List.mem_map_of_mem hc)⟩

/-- **When the check agrees with the synchronization.**  For a table that calls of `AddRoute`,
`RemoveRoute` and `SyncItem` have led to that spare the live routes, and a store, whatever the
order in which the synchronization visits the keys and whatever the plugins answer. -/
theorem isSynchronized_agrees_iff {ops : List Op} (hspare : Sparing region ops)
    (hrun : Runs.run (step region) empty ops = some t) (hstore : DistinctKeys store)
    (hfree : Route.CollisionFree ({ c | c ∈ store } ∪ t.configs)) (horder : t.Visits order) :
    ((t.isSynchronized (.ok store)).1 = true ↔
        (t.synchronizeAllRoutes region (.ok store) order answers).2.1 = 0) ↔
      ¬ t.Ignored region store ∧ ¬ t.Hidden region store ∧ ¬ t.Exchanged store := by
  have hsound := sound_of_run hspare hrun
  -- live routes run here, and the hash covers the region and the activity of a route
  have hruns : ∀ c ∈ store, t.HashLive c.hash → RunsHere region c := by
    rintro c hc ⟨key, hkey⟩
    obtain ⟨d, hd, hhash⟩ := hashAt_eq_some.mp hkey
    have hsame := hfree c (Or.inl hc) d (Or.inr ⟨key, hd⟩) hhash.symm
    have hrd := runsHere_of_run hspare hrun key d hd
    unfold RunsHere at hrd ⊢
    rwa [hsame.region, hsame.inactive]
  rw [hsound.isSynchronized_iff hstore, mutated_eq_zero_iff horder]
  by_cases hidle : t.Idle region store
  · -- no repair, so only the first two kinds are possible
    have hnot := hidle.not_synchronized_iff hstore hruns
    have hexchanged : ¬ t.Exchanged store :=
      fun ⟨_, _, key, d, hd, hmatch⟩ => hmatch (hidle.stored key d hd)
    tauto
  · -- a repair, so only the last kind is possible
    have hignored : ¬ t.Ignored region store := fun h => hidle h.1
    have hhidden : ¬ t.Hidden region store := fun h => hidle h.1
    have hexchanged : t.Exchanged store ↔ t.SameKeys store ∧ ∀ c ∈ store, t.HashLive c.hash := by
      constructor
      · exact fun h => ⟨h.1, h.2.1⟩
      · rintro ⟨hkeys, hhashes⟩
        have hstale := mt hkeys.idle_iff.mpr hidle
        push Not at hstale
        exact ⟨hkeys, hhashes, hstale⟩
    tauto

/-- A table with one route. -/
def singleOps : List Op := [.addRoute (some (sampleRoute "r1" "")) sampleEnv]

/-- While the route is stored, both find nothing. -/
theorem isSynchronized_agrees_single :
    ∃ t, Runs.run (step "us-west") empty singleOps = some t ∧ ∀ order answers, t.Visits order →
      ((t.isSynchronized (.ok [sampleRoute "r1" ""])).1 = true ↔
        (t.synchronizeAllRoutes "us-west" (.ok [sampleRoute "r1" ""]) order answers).2.1 = 0) := by
  have heval : (Runs.run (step "us-west") empty singleOps).any (fun t =>
      (t.entry (sampleRoute "r1" "").key).isSome ∧ t.liveRouteMap.keys.card = 1) := by
    decide +kernel
  obtain ⟨t, hrun, heval⟩ := (Option.any_eq_true _ _).mp heval
  obtain ⟨hlive, hcard⟩ := of_decide_eq_true heval
  have hok : ∀ op ∈ singleOps, op.Succeeds := by
    simp only [singleOps, List.forall_mem_cons, List.not_mem_nil, false_implies, implies_true,
      and_true]
    exact sample_succeeds (by decide) (by decide)
  have hadded : ∀ c ∈ addedConfigs singleOps, c = sampleRoute "r1" "" := by
    rintro c ⟨c₀, env, hc, rfl⟩
    simp only [singleOps, List.mem_singleton, Op.addRoute.injEq, Option.some.injEq] at hc
    obtain ⟨rfl, -⟩ := hc
    rfl
  have hfree : ∀ S : Set Route.Config, (∀ c ∈ S, c = sampleRoute "r1" "") →
      Route.CollisionFree S := by
    intro S hS c hc d hd _
    rw [hS c hc, hS d hd]
    exact sample_same _ _ _
  have hspare : Sparing "us-west" singleOps := by
    apply sparing_of_forall
    simp only [singleOps, List.forall_mem_singleton]
    exact sample_spares _ _ _
  have htracks := tracks_of_run hok (hfree _ hadded) le_rfl hrun
  have honly : ∀ key d, t.entry key = some d → d = sampleRoute "r1" "" :=
    fun key d hd => hadded d (htracks.known key d hd).2
  have hstore : DistinctKeys [sampleRoute "r1" ""] := List.nodup_singleton _
  have hmatch : ∀ key d, t.entry key = some d →
      Matches (storedRouteMap [sampleRoute "r1" ""]) d := by
    intro key d hd
    rw [honly key d hd]
    exact ⟨_, (storedRouteMap_lookup hstore).mpr ⟨by simp, rfl⟩, rfl⟩
  refine ⟨t, hrun, fun order answers horder =>
    (isSynchronized_agrees_iff hspare hrun hstore (hfree _ ?_) horder).mpr ⟨?_, ?_, ?_⟩⟩
  · rintro c (hc | ⟨key, hc⟩)
    · exact List.mem_singleton.mp hc
    · exact honly key c hc
  · rintro ⟨-, c, hc, hnot⟩
    rw [List.mem_singleton.mp hc] at hnot
    exact hnot (by decide)
  · rintro ⟨-, key, d, hd, hne, -⟩
    have hkeys : t.SameKeys [sampleRoute "r1" ""] := by
      rw [sameKeys_iff hstore]
      refine ⟨hcard.symm, fun c hc => ?_⟩
      rw [List.mem_singleton.mp hc, ← Option.isSome_iff_ne_none]
      exact hlive
    have hkey := (hkeys key).mp (by rw [hd]; simp)
    rw [List.map_singleton, List.mem_singleton] at hkey
    rw [honly key d hd] at hne
    exact hne hkey.symm
  · rintro ⟨-, -, key, d, hd, hnot⟩
    exact hnot (hmatch key d hd)

/-- A route that is not to run. -/
def inactiveRoute : Route.Config := { sampleRoute "r1" "" with inactive := true }

/-- After an inactive route has been added, the check says that the table is not synchronized,
and the synchronization has nothing to do. -/
theorem inactive_route_not_synchronized :
    ∃ t, Runs.run (step "us-west") empty [.addRoute (some inactiveRoute) sampleEnv] = some t ∧
      DistinctKeys [inactiveRoute] ∧
      Route.CollisionFree ({ c | c ∈ [inactiveRoute] } ∪ t.configs) ∧
      ∀ order answers, t.Visits order →
        (t.isSynchronized (.ok [inactiveRoute])).1 = false ∧
        (t.synchronizeAllRoutes "us-west" (.ok [inactiveRoute]) order answers).2.1 = 0 := by
  have heval : (Runs.run (step "us-west") empty [.addRoute (some inactiveRoute) sampleEnv]).any
      (fun t => t.liveRouteMap.keys = ∅ ∧ (t.isSynchronized (.ok [inactiveRoute])).1 = false) := by
    decide +kernel
  obtain ⟨t, hrun, heval⟩ := (Option.any_eq_true _ _).mp heval
  obtain ⟨hempty, hcheck⟩ := of_decide_eq_true heval
  have hnone : ∀ key, t.entry key = none := by
    intro key
    by_contra hne
    rw [← ne_eq, entry_ne_none, hempty] at hne
    exact absurd hne (Finset.notMem_empty _)
  refine ⟨t, hrun, List.nodup_singleton _, ?_, fun order answers horder =>
    ⟨hcheck, (mutated_eq_zero_iff horder).mpr ⟨fun key d hd => ?_, fun c hc hruns => ?_⟩⟩⟩
  · have honly : ∀ c ∈ ({ c | c ∈ [inactiveRoute] } ∪ t.configs : Set Route.Config),
        c = inactiveRoute := by
      rintro c (hc | ⟨key, hc⟩)
      · exact List.mem_singleton.mp hc
      · rw [hnone key] at hc
        simp at hc
    intro c hc d hd _
    rw [honly c hc, honly d hd]
    exact Route.Config.Same.refl _
  · rw [hnone key] at hd
    simp at hd
  · rw [List.mem_singleton.mp hc] at hruns
    exact absurd hruns (by decide)

end RoutingTable
