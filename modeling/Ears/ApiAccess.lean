/-
# What the management API protects

The rules of `Permitted` over whole runs: any number of requests at any number of nodes, their
calls in any order, with any faults of storage.  Everything that is stored is filed under its own
key and well formed (`World.Keyed`), every call is permitted (`every_call_permitted`), and so what
is stored for a tenant, and what runs for it, changes only by requests that were accepted for the
tenant (`unchanged_of_not_accepted`).
-/
import Ears.ApiMediation
import Ears.TableEntries

open Plugin

/-- What is found after an insertion. -/
theorem AList.of_lookup_insert {κ α : Type} [DecidableEq κ] {s : AList fun _ : κ => α} {k k' : κ}
    {a b : α} (h : (s.insert k a).lookup k' = some b) :
    (k' = k ∧ b = a) ∨ (k' ≠ k ∧ s.lookup k' = some b) := by
  by_cases hk : k' = k
  · subst hk
    rw [AList.lookup_insert] at h
    exact .inl ⟨rfl, (Option.some.inj h).symm⟩
  · rw [AList.lookup_insert_ne hk] at h
    exact .inr ⟨hk, h⟩

theorem AList.of_lookup_erase {κ α : Type} [DecidableEq κ] {s : AList fun _ : κ => α} {k k' : κ}
    {b : α} (h : (s.erase k).lookup k' = some b) : s.lookup k' = some b := by
  by_cases hk : k' = k
  · subst hk
    rw [AList.lookup_erase] at h
    cases h
  · rwa [AList.lookup_erase_ne hk] at h

namespace Api

/-! ## What is stored -/

namespace World

variable {ι : Type} [DecidableEq ι] {w w' : World ι}

/-- Everything is filed under its own key, and well formed. -/
structure Keyed (w : World ι) : Prop where
  tenants : ∀ tid c, w.tenants.lookup tid = some c → c.tenant = tid ∧ tid.Accepted
  routes : ∀ tid id c, w.routes.lookup (tid, id) = some c →
    c.tenantId = tid ∧ c.id = id ∧ Storable c
  fragments : ∀ tid id pc, w.fragments.lookup (tid, id) = some pc →
    pc.fragmentName = id ∧ id ≠ "" ∧ tid.Accepted
  cache : ∀ i key item, (w.nodes i).cache.lookup key = some item → item.config.tenant.key = key
  table : ∀ i, (w.nodes i).table.Sound

omit [DecidableEq ι] in
/-- A write happens or it does not. -/
theorem write_cases (e : Env) (w w' : World ι) : (write e w w').2 = w ∨ (write e w w').2 = w' := by
  unfold write
  split
  · split
    · exact .inr rfl
    · exact .inl rfl
  · exact .inr rfl

omit [DecidableEq ι] in
theorem Keyed.write {e : Env} (h : w.Keyed) (h' : w'.Keyed) : (write e w w').2.Keyed := by
  rcases write_cases e w w' with hw | hw <;> rw [hw] <;> assumption

theorem Keyed.setNode (h : w.Keyed) (i : ι) {n : Node}
    (hcache : ∀ key item, n.cache.lookup key = some item → item.config.tenant.key = key)
    (htable : n.table.Sound) : (w.setNode i n).Keyed := by
  refine { h with cache := fun j => ?_, table := fun j => ?_ }
  · show ∀ key item, (Function.update w.nodes i n j).cache.lookup key = some item → _
    by_cases hj : j = i
    · subst hj
      rw [Function.update_self]
      exact hcache
    · rw [Function.update_of_ne hj]
      exact h.cache j
  · show (Function.update w.nodes i n j).table.Sound
    by_cases hj : j = i
    · subst hj
      rw [Function.update_self]
      exact htable
    · rw [Function.update_of_ne hj]
      exact h.table j

variable (cl : Cluster ι)

/-- What the cache answers: an entry that is too old is dropped. -/
theorem perform_getTenant (i : ι) (e : Env) (w : World ι) (tenantId : String) :
    cl.perform i e w (.getTenant tenantId) = (none, w) ∨
    cl.perform i e w (.getTenant tenantId) =
      (none, w.setCache i ((w.nodes i).cache.erase tenantId)) ∨
    ∃ item, (w.nodes i).cache.lookup tenantId = some item ∧ e.now - item.ts ≤ tenantCacheTtlSecs ∧
      cl.perform i e w (.getTenant tenantId) = (some item.config, w) := by
  simp only [Cluster.perform]
  split_ifs
  · exact .inl rfl
  · cases hitem : (w.nodes i).cache.lookup tenantId with
    | none => exact .inl rfl
    | some item =>
        dsimp only
        split_ifs with hold
        · exact .inr (.inl rfl)
        · exact .inr (.inr ⟨item, rfl, not_lt.mp hold, rfl⟩)

/-- Calls that write what is well formed keep everything so. -/
theorem Keyed.perform (h : w.Keyed) (i : ι) (e : Env) {o : Op} (ho : Sane o) :
    (cl.perform i e w o).2.Keyed := by
  cases o with
  | setConfig c =>
      refine h.write { h with tenants := fun tid c' hc' => ?_ }
      rcases AList.of_lookup_insert hc' with ⟨rfl, rfl⟩ | ⟨-, hc'⟩
      · exact ⟨rfl, ho⟩
      · exact h.tenants tid c' hc'
  | deleteConfig tid =>
      exact h.write { h with tenants := fun tid c hc => h.tenants tid c (AList.of_lookup_erase hc) }
  | setRoute c =>
      refine h.write { h with routes := fun tid id c' hc' => ?_ }
      rcases AList.of_lookup_insert hc' with ⟨hkey, rfl⟩ | ⟨-, hc'⟩
      · obtain ⟨rfl, rfl⟩ := Prod.mk.inj hkey
        exact ⟨rfl, rfl, ho⟩
      · exact h.routes tid id c' hc'
  | deleteRoute tid id =>
      exact h.write { h with
        routes := fun tid id c hc => h.routes tid id c (AList.of_lookup_erase hc) }
  | setFragment tid pc =>
      refine h.write { h with fragments := fun tid' id pc' hpc' => ?_ }
      rcases AList.of_lookup_insert hpc' with ⟨hkey, rfl⟩ | ⟨-, hpc'⟩
      · obtain ⟨rfl, rfl⟩ := Prod.mk.inj hkey
        exact ⟨rfl, ho.2, ho.1⟩
      · exact h.fragments tid' id pc' hpc'
  | deleteFragment tid id =>
      exact h.write { h with
        fragments := fun tid id pc hpc => h.fragments tid id pc (AList.of_lookup_erase hpc) }
  | registerAndRunRoute c =>
      exact h.setNode i (h.cache i) ((h.table i).registerAndRunRoute (cl.region i) c e.plugins).1
  | unregisterAndStopRoute tid routeId =>
      exact h.setNode i (h.cache i) ((h.table i).unregisterAndStopRoute tid routeId).2
  | getTenant tenantId =>
      rcases perform_getTenant cl i e w tenantId with hp | hp | ⟨item, -, -, hp⟩ <;> rw [hp]
      · exact h
      · exact h.setNode i (fun key item hitem => h.cache i key item (AList.of_lookup_erase hitem))
          (h.table i)
      · exact h
  | setTenant c =>
      refine h.setNode i (fun key item hitem => ?_) (h.table i)
      rcases AList.of_lookup_insert hitem with ⟨rfl, rfl⟩ | ⟨-, hitem⟩
      · rfl
      · exact h.cache i key item hitem
  | _ => exact h

omit [DecidableEq ι] in
theorem read_eq_ok {α : Type} {e : Env} {found : Except Error α} {a : α}
    (h : read e found = .ok a) : found = .ok a := by
  unfold read at h
  split at h
  · cases h
  · exact h

/-- A value that is listed is stored under a key of the condition. -/
theorem mem_listed {κ α : Type} [DecidableEq κ] {s : AList fun _ : κ => α} {p : κ → Bool} {a : α}
    (h : a ∈ listed s p) : ∃ k, p k = true ∧ s.lookup k = some a := by
  obtain ⟨⟨k, a⟩, hmem, rfl⟩ := List.mem_map.mp h
  obtain ⟨hentry, hk⟩ := List.mem_filter.mp hmem
  exact ⟨k, hk, AList.mem_lookup_iff.mpr hentry⟩

/-- What is found is what was asked for. -/
theorem Keyed.found (h : w.Keyed) (i : ι) (e : Env) (o : Op) :
    Found o (cl.perform i e w o).1 := by
  cases o with
  | getConfig tid =>
      intro c hc
      have hconfig := read_eq_ok hc
      unfold config at hconfig
      split at hconfig
      · rename_i c' hc'
        obtain rfl := Except.ok.inj hconfig
        exact (h.tenants tid c' hc').1
      · cases hconfig
  | getRoute tid id =>
      intro c hc
      have hroute := read_eq_ok hc
      split at hroute
      · rename_i c' hc'
        obtain rfl := Except.ok.inj hroute
        exact h.routes tid id c' hc'
      · cases hroute
  | getAllTenantRoutes tid =>
      intro cs hcs c hc
      obtain rfl := Except.ok.inj (read_eq_ok hcs)
      obtain ⟨k, hk, hlookup⟩ := mem_listed hc
      obtain ⟨tid', id⟩ := k
      rw [(h.routes tid' id c hlookup).1]
      exact of_decide_eq_true hk
  | getFragment tid id =>
      intro pc hpc
      have hfragment := read_eq_ok hpc
      split at hfragment
      · rename_i pc' hpc'
        obtain rfl := Except.ok.inj hfragment
        exact (h.fragments tid id pc' hpc').1
      · cases hfragment
  | getTenant tenantId =>
      intro c hc
      rcases perform_getTenant cl i e w tenantId with hp | hp | ⟨item, hitem, -, hp⟩ <;> rw [hp] at hc
      · cases hc
      · cases hc
      · obtain rfl := Option.some.inj hc
        exact h.cache i tenantId item hitem
  | _ => exact trivial

/-- A configuration that a request sees is stored when it is read from the store. -/
theorem Keyed.of_mem_read (h : w.Keyed) {g : Seen} {i : ι} {e : Env} {o : Op} {d : TenantConfig}
    (hd : d ∈ (g.after o (cl.perform i e w o).1).read) :
    d ∈ g.read ∨ w.tenants.lookup d.tenant = some d := by
  cases o with
  | getConfig tid =>
      have hfound := h.found cl i e (.getConfig tid)
      generalize hres : (cl.perform i e w (.getConfig tid)).1 = res at hd hfound
      cases res with
      | error err => exact .inl hd
      | ok d' =>
          rcases List.mem_cons.mp hd with rfl | hd
          · right
            have hconfig := read_eq_ok hres
            unfold config at hconfig
            rw [hfound d rfl]
            split at hconfig
            · rename_i c hc
              rw [hc, Except.ok.inj hconfig]
            · cases hconfig
          · exact .inl hd
  | verifyToken token path method tid =>
      cases hres : (cl.perform i e w (.verifyToken token path method tid)).1 <;>
        rw [hres] at hd <;> exact .inl hd
  | getTenant tenantId =>
      cases hres : (cl.perform i e w (.getTenant tenantId)).1 <;> rw [hres] at hd <;> exact .inl hd
  | getAllTenantRoutes tid =>
      rcases hres : (cl.perform i e w (.getAllTenantRoutes tid)).1 with err | (_ | ⟨r, rs⟩) <;>
        rw [hres] at hd <;> exact .inl hd
  | _ => exact .inl hd

/-- It is in the cache of the node, and not too old, when it is read from the cache. -/
theorem Keyed.of_mem_cached (h : w.Keyed) {g : Seen} {i : ι} {e : Env} {o : Op} {d : TenantConfig}
    (hd : d ∈ (g.after o (cl.perform i e w o).1).cached) :
    d ∈ g.cached ∨ ∃ item, (w.nodes i).cache.lookup d.tenant.key = some item ∧ item.config = d ∧
      e.now - item.ts ≤ tenantCacheTtlSecs := by
  cases o with
  | getTenant tenantId =>
      rcases perform_getTenant cl i e w tenantId with hp | hp | ⟨item, hitem, hfresh, hp⟩ <;>
        rw [hp] at hd
      · exact .inl hd
      · exact .inl hd
      · rcases List.mem_cons.mp hd with rfl | hd
        · exact .inr ⟨item, by rw [h.cache i tenantId item hitem, hitem], rfl, hfresh⟩
        · exact .inl hd
  | verifyToken token path method tid =>
      cases hres : (cl.perform i e w (.verifyToken token path method tid)).1 <;>
        rw [hres] at hd <;> exact .inl hd
  | getConfig tid =>
      cases hres : (cl.perform i e w (.getConfig tid)).1 <;> rw [hres] at hd <;> exact .inl hd
  | getAllTenantRoutes tid =>
      rcases hres : (cl.perform i e w (.getAllTenantRoutes tid)).1 with err | (_ | ⟨r, rs⟩) <;>
        rw [hres] at hd <;> exact .inl hd
  | _ => exact .inl hd

/-! ## What a call changes -/

/-- Nothing that is stored for the tenant has changed. -/
structure SameStored (tid : Tenant.Id) (w w' : World ι) : Prop where
  config : w'.tenants.lookup tid = w.tenants.lookup tid
  routes : ∀ id, w'.routes.lookup (tid, id) = w.routes.lookup (tid, id)
  fragments : ∀ id, w'.fragments.lookup (tid, id) = w.fragments.lookup (tid, id)

/-- The same routes of the tenant run on all nodes. -/
def SameLive (tid : Tenant.Id) (w w' : World ι) : Prop :=
  ∀ i id, (w'.nodes i).table.entry (tid.keyWithRoute id) =
    (w.nodes i).table.entry (tid.keyWithRoute id)

omit [DecidableEq ι] in
theorem SameStored.refl (tid : Tenant.Id) (w : World ι) : SameStored tid w w :=
  ⟨rfl, fun _ => rfl, fun _ => rfl⟩

omit [DecidableEq ι] in
theorem SameStored.trans {tid : Tenant.Id} {w'' : World ι} (h : SameStored tid w w')
    (h' : SameStored tid w' w'') : SameStored tid w w'' :=
  ⟨h'.config.trans h.config, fun id => (h'.routes id).trans (h.routes id),
    fun id => (h'.fragments id).trans (h.fragments id)⟩

omit [DecidableEq ι] in
theorem SameStored.write {tid : Tenant.Id} {e : Env} (h : SameStored tid w w') :
    SameStored tid w (World.write e w w').2 := by
  rcases write_cases e w w' with hw | hw <;> rw [hw]
  · exact SameStored.refl tid w
  · exact h

theorem SameLive.setNode {tid : Tenant.Id} {i : ι} {n : Node}
    (h : ∀ id, n.table.entry (tid.keyWithRoute id) =
      (w.nodes i).table.entry (tid.keyWithRoute id)) : SameLive tid w (w.setNode i n) := by
  intro j id
  show (Function.update w.nodes i n j).table.entry _ = _
  by_cases hj : j = i
  · subst hj
    rw [Function.update_self]
    exact h id
  · rw [Function.update_of_ne hj]

end World

/-- The tenant whose stored data a call writes. -/
def Op.writes : Op → Option Tenant.Id
  | .setConfig c => some c.tenant
  | .setRoute c => some c.tenantId
  | .deleteConfig tid | .deleteRoute tid _ | .setFragment tid _ | .deleteFragment tid _ => some tid
  | _ => none

/-- The tenant whose route a call starts or stops. -/
def Op.restarts : Op → Option Tenant.Id
  | .registerAndRunRoute c => some c.tenantId
  | .unregisterAndStopRoute tid _ => some tid
  | _ => none

theorem Permitted.verified_of_writes {mux : Mux} {st : Settings} {r : Request} {g : Seen} {o : Op}
    {tid : Tenant.Id} (h : Permitted mux st r g o) (ho : o.writes = some tid) :
    g.Verified r (some tid) := by
  cases o with
  | setConfig c => exact Option.some.inj ho ▸ h
  | setRoute c => exact Option.some.inj ho ▸ h.verified
  | deleteConfig tid' => exact Option.some.inj ho ▸ h.verified
  | deleteRoute tid' id => exact Option.some.inj ho ▸ h
  | setFragment tid' pc => exact Option.some.inj ho ▸ h
  | deleteFragment tid' id => exact Option.some.inj ho ▸ h
  | _ => cases ho

theorem Permitted.verified_of_restarts {mux : Mux} {st : Settings} {r : Request} {g : Seen}
    {o : Op} {tid : Tenant.Id} (h : Permitted mux st r g o) (ho : o.restarts = some tid) :
    g.Verified r (some tid) ∨ g.Verified r none := by
  cases o with
  | registerAndRunRoute c => exact Option.some.inj ho ▸ h
  | unregisterAndStopRoute tid' routeId => exact Option.some.inj ho ▸ h
  | _ => cases ho

namespace World

variable {ι : Type} [DecidableEq ι] {w : World ι} (cl : Cluster ι)

/-- A call changes what is stored for the tenant that it writes for, at most. -/
theorem sameStored_perform (i : ι) (e : Env) {o : Op} {tid : Tenant.Id}
    (ho : o.writes ≠ some tid) : SameStored tid w (cl.perform i e w o).2 := by
  have hne : ∀ {tid' : Tenant.Id}, some tid' ≠ some tid → tid ≠ tid' := fun h heq => h (by rw [heq])
  have hkey : ∀ {tid' : Tenant.Id} {id id' : String}, some tid' ≠ some tid →
      (tid, id) ≠ (tid', id') := fun h heq => hne h (Prod.mk.inj heq).1
  cases o with
  | setConfig c =>
      exact SameStored.write ⟨AList.lookup_insert_ne (hne ho), fun _ => rfl, fun _ => rfl⟩
  | deleteConfig tid' =>
      exact SameStored.write ⟨AList.lookup_erase_ne (hne ho), fun _ => rfl, fun _ => rfl⟩
  | setRoute c =>
      exact SameStored.write ⟨rfl, fun _ => AList.lookup_insert_ne (hkey ho), fun _ => rfl⟩
  | deleteRoute tid' id =>
      exact SameStored.write ⟨rfl, fun _ => AList.lookup_erase_ne (hkey ho), fun _ => rfl⟩
  | setFragment tid' pc =>
      exact SameStored.write ⟨rfl, fun _ => rfl, fun _ => AList.lookup_insert_ne (hkey ho)⟩
  | deleteFragment tid' id =>
      exact SameStored.write ⟨rfl, fun _ => rfl, fun _ => AList.lookup_erase_ne (hkey ho)⟩
  | getTenant tenantId =>
      rcases perform_getTenant cl i e w tenantId with hp | hp | ⟨item, -, -, hp⟩ <;> rw [hp] <;>
        exact ⟨rfl, fun _ => rfl, fun _ => rfl⟩
  | _ => exact ⟨rfl, fun _ => rfl, fun _ => rfl⟩

/-- A call changes what runs of the tenant whose route it starts or stops, at most. -/
theorem Keyed.sameLive_perform (h : w.Keyed) (i : ι) (e : Env) {o : Op} {tid : Tenant.Id}
    (ho : o.restarts ≠ some tid) : SameLive tid w (cl.perform i e w o).2 := by
  have hkey : ∀ {tid' : Tenant.Id} {id id' : String}, some tid' ≠ some tid →
      tid.keyWithRoute id ≠ tid'.keyWithRoute id' := by
    intro tid' id id' hne heq
    exact hne (by rw [(Tenant.keyWithRoute_inj.mp heq).1])
  have hwrite : ∀ w' : World ι, w'.nodes = w.nodes → SameLive tid w (World.write e w w').2 := by
    intro w' hnodes j id
    rcases write_cases e w w' with hw | hw <;> rw [hw]
    rw [hnodes]
  cases o with
  | registerAndRunRoute c =>
      exact SameLive.setNode fun id => ((h.table i).registerAndRunRoute _ c _).2.1 _ (hkey ho)
  | unregisterAndStopRoute tid' routeId =>
      refine SameLive.setNode fun id => ?_
      dsimp only
      rw [RoutingTable.unregisterAndStopRoute_entry, if_neg (hkey ho)]
  | getTenant tenantId =>
      rcases perform_getTenant cl i e w tenantId with hp | hp | ⟨item, -, -, hp⟩ <;> rw [hp]
      · exact fun _ _ => rfl
      · exact SameLive.setNode fun _ => rfl
      · exact fun _ _ => rfl
  | setTenant c => exact SameLive.setNode fun _ => rfl
  | setConfig c => exact hwrite _ rfl
  | deleteConfig tid' => exact hwrite _ rfl
  | setRoute c => exact hwrite _ rfl
  | deleteRoute tid' id => exact hwrite _ rfl
  | setFragment tid' pc => exact hwrite _ rfl
  | deleteFragment tid' id => exact hwrite _ rfl
  | _ => exact fun _ _ => rfl

end World

/-- A world without tenants. -/
def World.empty {ι : Type} : World ι where
  tenants := ∅
  routes := ∅
  fragments := ∅
  nodes _ := ⟨RoutingTable.empty, ∅⟩
  calls := 0

theorem World.keyed_empty {ι : Type} : (World.empty : World ι).Keyed where
  tenants _ _ h := by cases h
  routes _ _ _ h := by cases h
  fragments _ _ _ h := by cases h
  cache _ _ _ h := by cases h
  table _ := RoutingTable.sound_empty

/-! ## A sample run -/

section Sample

/-- One node that verifies tokens; a token is the id of a client. -/
def sampleCluster : Cluster Unit where
  verifier :=
    { parse := fun client => .ok [("sub", .str client), ("capabilities", .arr []),
        ("allowedResources", .obj [("allowedPartners", .arr [.str "acme"])])]
      verifier := Jwt.defaultJWTVerifier
      requireBearerToken := true
      domain := "ears"
      component := "api"
      adminClientIds := ["admin"]
      capabilityPrefixes := []
      tenantStorer := fun _ => .error (.other "no tenant") }
  region _ := "us-west"
  env n := ⟨n, none, false, fun _ => { hash := .ok "h" }, [], .error (.other "no event"), []⟩

/-- A request with a bearer token and an object as its body. -/
def sampleRequest (method path client : String) : Request where
  method := method
  path := path
  authorization := "Bearer " ++ client
  query _ := ""
  contentLength := 2
  body := .ok ⟨2, .error "no route", .error "no fragment", .ok { tenant := ⟨"", ""⟩ }, .ok (.obj [])⟩

/-- An administrator creates a tenant and sends an event to it; somebody else tries to create
another tenant. -/
def sampleRequests : ℕ → Request
  | 0 => sampleRequest "POST" "/ears/v1/orgs/acme/applications/tv/config" "admin"
  | 1 => sampleRequest "POST" "/ears/v1/orgs/acme/applications/tv/routes/r1/event" "admin"
  | _ => sampleRequest "PUT" "/ears/v1/orgs/acme/applications/radio/config" "intruder"

/-- The requests, with their calls mixed. -/
def sampleTurns : List ℕ := [0, 0, 2, 0, 1, 1, 1, 0, 1, 1]

/-- The run of the sample. -/
abbrev sampleRun : Option (Threads sig ℕ (Option (Except ApiError Item)) (World Unit)) :=
  Runs.run (Threads.step (sampleCluster.machine fun _ => ()))
    (Cluster.start .inOrder {} sampleRequests World.empty) sampleTurns

end Sample

/-! ## Runs -/

section Runs

variable {ι : Type} [DecidableEq ι] {cl : Cluster ι} {node : ℕ → ι} {mux : Mux} {st : Settings}
  {requests : ℕ → Request} {w : World ι} {turns : List ℕ}
  {c c' : Threads sig ℕ (Option (Except ApiError Item)) (World ι)}

/-- What a request has been told. -/
abbrev seen (log : List ((o : Op) × o.Res)) : Seen := Threads.known (S := sig) Seen.after {} log

theorem seen_concat (log : List ((o : Op) × o.Res)) (x : (o : Op) × o.Res) :
    seen (log ++ [x]) = (seen log).after x.1 x.2 :=
  Threads.known_append (S := sig) log x

/-- The token of a request was accepted. -/
def WasAccepted (r : Request) (log : List ((o : Op) × o.Res)) (tid : Option Tenant.Id) : Prop :=
  ∃ token who, (⟨.verifyToken token r.path r.method tid, .ok who⟩ : (o : Op) × o.Res) ∈ log

/-- What is seen comes from the log. -/
theorem mem_accepted_seen {log : List ((o : Op) × o.Res)} {path method : String}
    {tid : Option Tenant.Id} (h : (path, method, tid) ∈ (seen log).accepted) :
    ∃ token who, (⟨.verifyToken token path method tid, .ok who⟩ : (o : Op) × o.Res) ∈ log := by
  induction log using List.reverseRecOn with
  | nil => cases h
  | append_singleton log x ih =>
      have hold : (path, method, tid) ∈ (seen log).accepted →
          ∃ token who, (⟨.verifyToken token path method tid, .ok who⟩ : (o : Op) × o.Res) ∈
            log ++ [x] := fun h => by
        obtain ⟨token, who, hmem⟩ := ih h
        exact ⟨token, who, List.mem_append_left _ hmem⟩
      obtain ⟨o, res⟩ := x
      rw [seen_concat] at h
      cases o with
      | verifyToken token' path' method' tid' =>
          cases res with
          | error err => exact hold h
          | ok who =>
              rcases List.mem_cons.mp h with heq | h
              · obtain ⟨rfl, rfl, rfl⟩ : path = path' ∧ method = method' ∧ tid = tid' := by
                  simpa using heq
                exact ⟨token', who, List.mem_append_right _ (List.mem_singleton.mpr rfl)⟩
              · exact hold h
      | getConfig tid' => cases res <;> exact hold h
      | getTenant tenantId => cases res <;> exact hold h
      | getAllTenantRoutes tid' =>
          rcases res with err | (_ | ⟨d, ds⟩) <;> exact hold h
      | _ => exact hold h

theorem Seen.Verified.wasAccepted {r : Request} {log : List ((o : Op) × o.Res)}
    {tid : Option Tenant.Id} (h : (seen log).Verified r tid) : WasAccepted r log tid :=
  mem_accepted_seen h

/-- The requests have followed the rules and will go on like that, and their answers show what
they may show. -/
abbrev Follows (mux : Mux) (st : Settings) (requests : ℕ → Request)
    (c : Threads sig ℕ (Option (Except ApiError Item)) (World ι)) : Prop :=
  Threads.Follows Seen.after (fun n g o => Permitted mux st (requests n) g o ∧ Sane o) Found {}
    World.Keyed (fun n res g => ∀ item, res = some (.ok item) → Shows (requests n) item g) c

omit [DecidableEq ι] in
theorem follows_start (hw : w.Keyed) :
    Follows mux st requests (Cluster.start mux st requests w) where
  state := hw
  prog n := wp_serve mux st (requests n)
  calls n l o r l' hlog := by simp [Cluster.start] at hlog

theorem keyed_handle {n : ℕ} {o : Op} (h : w.Keyed) (ho : Sane o) :
    ((cl.machine node).handle n o w).2.Keyed ∧ Found o ((cl.machine node).handle n o w).1 := by
  have hkeyed := h.perform cl (node n) (cl.env w.calls) ho
  exact ⟨{ hkeyed with }, h.found cl (node n) (cl.env w.calls) o⟩

theorem Follows.step {n : ℕ} (h : Follows mux st requests c)
    (hs : Threads.step (cl.machine node) c n = some c') : Follows mux st requests c' :=
  Threads.Follows.step (fun _ _ _ _ hI hpre => keyed_handle hI hpre.2) h hs

theorem follows_of_run (hw : w.Keyed)
    (hrun : Runs.run (Threads.step (cl.machine node)) (Cluster.start mux st requests w) turns =
      some c) : Follows mux st requests c :=
  Runs.run_induction (fun _ _ _ => Follows.step) (follows_start hw) hrun

/-- **Everything that is stored is well formed**, in every reachable state: tenants, routes and
fragments are filed under their own ids, tenants are accepted, fragments have names, and stored
routes pass `Validate`. -/
theorem stored_keyed (hw : w.Keyed)
    (hrun : Runs.run (Threads.step (cl.machine node)) (Cluster.start mux st requests w) turns =
      some c) : c.state.Keyed :=
  (follows_of_run hw hrun).state

theorem stored_keyed_sample : ∃ c, sampleRun = some c ∧
    (c.state.tenants.lookup ⟨"acme", "tv"⟩).isSome ∧ c.state.Keyed := by
  have hstored : sampleRun.map (fun c => (c.state.tenants.lookup ⟨"acme", "tv"⟩).isSome) =
      some true := by decide +kernel
  obtain ⟨c, hc, htenant⟩ := Option.map_eq_some_iff.mp hstored
  exact ⟨c, hc, htenant, stored_keyed World.keyed_empty hc⟩

/-- A request that is never its turn makes no calls. -/
theorem log_of_notMem {n : ℕ}
    (hrun : Runs.run (Threads.step (cl.machine node)) (Cluster.start mux st requests w) turns =
      some c) (hn : n ∉ turns) : c.log n = [] := by
  refine Runs.run_induction_along (P := fun c => c.log n = []) (G := fun _ m => m ≠ n)
    (fun c m c' hc hm hs => ?_) rfl (Runs.along_of_forall fun m hm heq => hn (heq ▸ hm)) hrun
  obtain ⟨o, k, -, -, rfl⟩ := Threads.step_cases hs
  rw [Threads.advance_log_of_ne hm.symm]
  exact hc

/-- What was seen is seen. -/
theorem seen_le_step {n m : ℕ} (hs : Threads.step (cl.machine node) c n = some c') :
    (seen (c.log m)).Le (seen (c'.log m)) := by
  obtain ⟨o, k, -, hp, rfl⟩ := Threads.step_cases hs
  by_cases hm : m = n
  · subst hm
    rw [Threads.advance_log_self, seen_concat]
    exact Seen.le_after _ _ _
  · rw [Threads.advance_log_of_ne hm]
    exact Seen.Le.refl _

/-- **What is stored for a tenant changes only by requests that were accepted for it**, and what
runs for it only by requests that were accepted for it or for all tenants. -/
theorem unchanged_of_not_accepted (hw : w.Keyed)
    (hrun : Runs.run (Threads.step (cl.machine node)) (Cluster.start mux st requests w) turns =
      some c) {tid : Tenant.Id} (hnone : ∀ n, ¬ WasAccepted (requests n) (c.log n) (some tid)) :
    World.SameStored tid w c.state ∧
      ((∀ n, ¬ WasAccepted (requests n) (c.log n) none) → World.SameLive tid w c.state) := by
  -- the same with what the requests have seen
  have hrun' := Runs.run_induction (P := fun c => Follows mux st requests c ∧
    ((∀ n, ¬ (seen (c.log n)).Verified (requests n) (some tid)) → World.SameStored tid w c.state ∧
      ((∀ n, ¬ (seen (c.log n)).Verified (requests n) none) → World.SameLive tid w c.state)))
    (fun c n c' hc hs => ?_) ⟨follows_start hw, fun _ => ⟨.refl tid w, fun _ _ _ => rfl⟩⟩ hrun
  · obtain ⟨hstored, hlive⟩ := hrun'.2 fun n h => hnone n h.wasAccepted
    exact ⟨hstored, fun h => hlive fun n hn => h n hn.wasAccepted⟩
  · obtain ⟨hfollows, hsame⟩ := hc
    refine ⟨hfollows.step hs, fun hnot => ?_⟩
    have hold : ∀ m tid', ¬ (seen (c'.log m)).Verified (requests m) tid' →
        ¬ (seen (c.log m)).Verified (requests m) tid' := fun m tid' hm h =>
      hm (h.mono (seen_le_step hs))
    obtain ⟨hstored, hlive⟩ := hsame fun m => hold m _ (hnot m)
    obtain ⟨o, k, -, hp, rfl⟩ := Threads.step_cases hs
    have hpermitted : Permitted mux st (requests n) (seen (c.log n)) o := by
      have hprog := hfollows.prog n
      rw [hp] at hprog
      exact hprog.1.1
    constructor
    · have hstep : World.SameStored tid c.state
          (cl.perform (node n) (cl.env c.state.calls) c.state o).2 :=
        World.sameStored_perform cl _ _ fun ho =>
          hold n _ (hnot n) (hpermitted.verified_of_writes ho)
      exact hstored.trans ⟨hstep.config, hstep.routes, hstep.fragments⟩
    · intro hglobal i id
      have hstep : World.SameLive tid c.state
          (cl.perform (node n) (cl.env c.state.calls) c.state o).2 :=
        hfollows.state.sameLive_perform cl _ _ fun ho =>
          (hpermitted.verified_of_restarts ho).elim (hold n _ (hnot n)) (hold n _ (hglobal n))
      exact (hstep i id).trans (hlive (fun m => hold m _ (hglobal m)) i id)

/-- Only the three requests of the sample make calls. -/
theorem sample_mem_of_log {c : Threads sig ℕ (Option (Except ApiError Item)) (World Unit)}
    (hc : sampleRun = some c) {n : ℕ} {x : (o : Op) × o.Res} (hx : x ∈ c.log n) :
    n ∈ [0, 1, 2] := by
  have hturns : ∀ m ∈ sampleTurns, m ∈ [0, 1, 2] := by decide
  by_contra hn
  rw [log_of_notMem hc fun h => hn (hturns n h)] at hx
  cases hx

/-- A token that is accepted is one for the tenant of the sample. -/
def acceptsOnlyTv : ((o : Op) × o.Res) → Bool
  | ⟨.verifyToken _ _ _ tid, .ok _⟩ => tid = some ⟨"acme", "tv"⟩
  | _ => true

/-- No call of the run has accepted a token for the other tenant, or for all. -/
theorem unchanged_of_not_accepted_sample : ∃ c, sampleRun = some c ∧
    ¬ World.SameStored ⟨"acme", "tv"⟩ World.empty c.state ∧
      World.SameStored ⟨"acme", "radio"⟩ World.empty c.state ∧
        World.SameLive ⟨"acme", "radio"⟩ World.empty c.state := by
  have hlogs : sampleRun.map (fun c => ((c.state.tenants.lookup ⟨"acme", "tv"⟩).isSome,
      [0, 1, 2].all fun n => (c.log n).all acceptsOnlyTv)) = some (true, true) := by
    decide +kernel
  obtain ⟨c, hc, hpair⟩ := Option.map_eq_some_iff.mp hlogs
  obtain ⟨htenant, hall⟩ := Prod.mk.inj hpair
  have hnone : ∀ tid, tid ≠ some ⟨"acme", "tv"⟩ →
      ∀ n, ¬ WasAccepted (sampleRequests n) (c.log n) tid := by
    rintro tid hne n ⟨token, who, hmem⟩
    have hn := sample_mem_of_log hc hmem
    exact hne (of_decide_eq_true (List.all_eq_true.mp (List.all_eq_true.mp hall n hn) _ hmem))
  have hradio : some (⟨"acme", "radio"⟩ : Tenant.Id) ≠ some ⟨"acme", "tv"⟩ := by decide
  obtain ⟨hstored, hlive⟩ := unchanged_of_not_accepted World.keyed_empty hc (hnone _ hradio)
  refine ⟨c, hc, fun hsame => ?_, hstored, hlive (hnone none (by decide))⟩
  rw [hsame.config] at htenant
  cases htenant

end Runs

end Api
