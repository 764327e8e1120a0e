/-
# The tenants of the stored routes

Routes are stored for tenants that exist and tenants are deleted when they have no routes, but
both are checks of a request that writes later.  `tenant_of_route` says that every stored route has
its tenant in every run in which no request that adds or toggles a route of a tenant overlaps
one that deletes the tenant.  Without that, the calls of two such requests can leave a route
without its tenant (`orphan_of_overlap`).
-/
import Ears.ApiAccess

open Plugin

namespace Api

namespace World

variable {ι : Type} [DecidableEq ι] {w : World ι}

/-- Every stored route has its tenant. -/
def Referential (w : World ι) : Prop :=
  ∀ tid id c, w.routes.lookup (tid, id) = some c → (w.tenants.lookup tid).isSome

/-- A tenant is only removed by its deletion. -/
theorem tenants_perform (cl : Cluster ι) (i : ι) (e : Env) {o : Op} {tid : Tenant.Id}
    (h : (w.tenants.lookup tid).isSome) (ho : o ≠ .deleteConfig tid) :
    ((cl.perform i e w o).2.tenants.lookup tid).isSome := by
  by_cases hwrites : o.writes = some tid
  · have hwrite : ∀ w' : World ι, (w'.tenants.lookup tid).isSome →
        ((World.write e w w').2.tenants.lookup tid).isSome := by
      intro w' h'
      rcases write_cases e w w' with hw | hw <;> rw [hw] <;> assumption
    cases o with
    | setConfig c =>
        obtain rfl := Option.some.inj hwrites
        refine hwrite _ ?_
        dsimp only
        rw [AList.lookup_insert]
        rfl
    | deleteConfig tid' => exact absurd (by rw [Option.some.inj hwrites]) ho
    | setRoute c => exact hwrite _ h
    | deleteRoute tid' id => exact hwrite _ h
    | setFragment tid' pc => exact hwrite _ h
    | deleteFragment tid' id => exact hwrite _ h
    | _ => cases hwrites
  · rw [(sameStored_perform cl i e hwrites).config]
    exact h

/-- A route is only added by storing one of its tenant. -/
theorem routes_perform (cl : Cluster ι) (i : ι) (e : Env) {o : Op} {tid : Tenant.Id} {id : String}
    {c : Route.Config} (h : (cl.perform i e w o).2.routes.lookup (tid, id) = some c) :
    w.routes.lookup (tid, id) = some c ∨ ∃ d, o = .setRoute d ∧ d.tenantId = tid := by
  by_cases hwrites : o.writes = some tid
  · have hwrite : ∀ w' : World ι, (World.write e w w').2.routes.lookup (tid, id) = some c →
        w.routes.lookup (tid, id) = some c ∨ w'.routes.lookup (tid, id) = some c := by
      intro w' h'
      rcases write_cases e w w' with hw | hw <;> rw [hw] at h'
      · exact .inl h'
      · exact .inr h'
    cases o with
    | setConfig d => exact (hwrite _ h).elim .inl .inl
    | deleteConfig tid' => exact (hwrite _ h).elim .inl .inl
    | setRoute d => exact .inr ⟨d, rfl, Option.some.inj hwrites⟩
    | deleteRoute tid' id' => exact (hwrite _ h).elim .inl fun h => .inl (AList.of_lookup_erase h)
    | setFragment tid' pc => exact (hwrite _ h).elim .inl .inl
    | deleteFragment tid' id' => exact (hwrite _ h).elim .inl .inl
    | _ => cases hwrites
  · rw [(sameStored_perform cl i e hwrites).routes] at h
    exact .inl h

omit [DecidableEq ι] in
/-- Nothing is listed only when nothing is there. -/
theorem lookup_of_listed_nil {κ α : Type} [DecidableEq κ] {s : AList fun _ : κ => α} {p : κ → Bool}
    (h : listed s p = []) {k : κ} (hk : p k = true) : s.lookup k = none := by
  cases hlookup : s.lookup k with
  | none => rfl
  | some a =>
      have hmem : (⟨k, a⟩ : (_ : κ) × α) ∈ s.entries := AList.mem_lookup_iff.mp hlookup
      have hlisted : a ∈ listed s p :=
        List.mem_map.mpr ⟨⟨k, a⟩, List.mem_filter.mpr ⟨hmem, hk⟩, rfl⟩
      rw [h] at hlisted
      cases hlisted

/-- A tenant that a request has newly seen without routes has none. -/
theorem of_mem_bare (cl : Cluster ι) {g : Seen} {i : ι} {e : Env} {o : Op} {tid : Tenant.Id}
    (h : tid ∈ (g.after o (cl.perform i e w o).1).bare) :
    tid ∈ g.bare ∨ ∀ id, w.routes.lookup (tid, id) = none := by
  cases o with
  | getAllTenantRoutes tid' =>
      rcases hres : (cl.perform i e w (.getAllTenantRoutes tid')).1 with err | (_ | ⟨r, rs⟩) <;>
        rw [hres] at h
      · exact .inl h
      · rcases List.mem_cons.mp h with rfl | h
        · exact .inr fun id => lookup_of_listed_nil (Except.ok.inj (read_eq_ok hres)) (by simp)
        · exact .inl h
      · exact .inl h
  | verifyToken token path method tid' =>
      cases hres : (cl.perform i e w (.verifyToken token path method tid')).1 <;>
        rw [hres] at h <;> exact .inl h
  | getConfig tid' =>
      cases hres : (cl.perform i e w (.getConfig tid')).1 <;> rw [hres] at h <;> exact .inl h
  | getTenant tenantId =>
      cases hres : (cl.perform i e w (.getTenant tenantId)).1 <;> rw [hres] at h <;> exact .inl h
  | _ => exact .inl h

end World

section Runs

variable {ι : Type} [DecidableEq ι] {cl : Cluster ι} {node : ℕ → ι} {mux : Mux} {st : Settings}
  {requests : ℕ → Request} {w : World ι} {turns : List ℕ}
  {c c' : Threads sig ℕ (Option (Except ApiError Item)) (World ι)}

/-- A request has one handler. -/
theorem For.handler_eq {r : Request} {tid tid' : Tenant.Id} {h h' : HandlerName}
    (hfor : For mux r tid h) (hfor' : For mux r tid' h') : h = h' := by
  obtain ⟨vars, hd, -⟩ := hfor
  obtain ⟨vars', hd', -⟩ := hfor'
  rw [hd] at hd'
  exact (Prod.mk.inj (Option.some.inj hd')).1

/-- No request both adds a route and deletes a tenant. -/
theorem Adds.not_deletes {r : Request} {tid tid' : Tenant.Id} (h : Adds mux r tid)
    (h' : For mux r tid' .deleteTenantConfig) : False := by
  rcases h with h | h
  · cases h.handler_eq h'
  · cases h.handler_eq h'

/-- The request has made its first call and not its last. -/
def Midway (c : Threads sig ℕ (Option (Except ApiError Item)) (World ι)) (n : ℕ) : Prop :=
  c.log n ≠ [] ∧ (c.prog n).returned = none

/-- One request adds or toggles a route of a tenant that the other deletes. -/
def Conflict (mux : Mux) (requests : ℕ → Request) (n m : ℕ) : Prop :=
  ∃ tid, Adds mux (requests n) tid ∧ For mux (requests m) tid .deleteTenantConfig

/-- Request `n` makes its next call while no request is midway that it conflicts with. -/
def Apart (mux : Mux) (requests : ℕ → Request)
    (c : Threads sig ℕ (Option (Except ApiError Item)) (World ι)) (n : ℕ) : Prop :=
  ∀ m, Midway c m → ¬ Conflict mux requests n m ∧ ¬ Conflict mux requests m n

/-- What the requests that are midway rely on. -/
structure Consistent (mux : Mux) (st : Settings) (requests : ℕ → Request)
    (c : Threads sig ℕ (Option (Except ApiError Item)) (World ι)) : Prop where
  follows : Follows mux st requests c
  referential : c.state.Referential
  apart : ∀ n m, Midway c n → Midway c m → ¬ Conflict mux requests n m
  found : ∀ n tid, Midway c n → Adds mux (requests n) tid →
    (∃ d ∈ (seen (c.log n)).read, d.tenant = tid) → (c.state.tenants.lookup tid).isSome
  bare : ∀ m tid, Midway c m → For mux (requests m) tid .deleteTenantConfig →
    tid ∈ (seen (c.log m)).bare → ∀ id, c.state.routes.lookup (tid, id) = none

theorem Midway.of_other {n m : ℕ} (hm : m ≠ n)
    (hs : Threads.step (cl.machine node) c n = some c') (h : Midway c' m) : Midway c m := by
  obtain ⟨o, k, -, -, rfl⟩ := Threads.step_cases hs
  unfold Midway at h
  rwa [Threads.advance_log_of_ne hm, Threads.advance_prog_of_ne hm] at h

omit [DecidableEq ι] in
/-- A request that has seen something is midway when it has a call to make. -/
theorem midway_of_call {n : ℕ} {o : Op} {k : o.Res → Prog sig (Option (Except ApiError Item))}
    (hp : c.prog n = .call o k) (hlog : c.log n ≠ []) : Midway c n := by
  refine ⟨hlog, ?_⟩
  rw [hp]
  rfl

omit [DecidableEq ι] in
theorem log_ne_nil_of_read {n : ℕ} {d : TenantConfig} (h : d ∈ (seen (c.log n)).read) :
    c.log n ≠ [] := by
  intro hnil
  rw [hnil] at h
  cases h

omit [DecidableEq ι] in
theorem log_ne_nil_of_bare {n : ℕ} {tid : Tenant.Id} (h : tid ∈ (seen (c.log n)).bare) :
    c.log n ≠ [] := by
  intro hnil
  rw [hnil] at h
  cases h

/-- What the requests that are midway rely on stays so, when the next call conflicts with none
of them. -/
theorem Consistent.step {n : ℕ} (h : Consistent mux st requests c) (hG : Apart mux requests c n)
    (hs : Threads.step (cl.machine node) c n = some c') : Consistent mux st requests c' := by
  have hother : ∀ m, m ≠ n → Midway c' m → Midway c m := fun m hm => Midway.of_other hm hs
  have hfollows := h.follows.step hs
  obtain ⟨o, k, -, hp, rfl⟩ := Threads.step_cases hs
  have hpermitted : Permitted mux st (requests n) (seen (c.log n)) o := by
    have hprog := h.follows.prog n
    rw [hp] at hprog
    exact hprog.1.1
  -- what the call is when it takes away what another request relies on
  have hdelete : ∀ tid, o = .deleteConfig tid →
      For mux (requests n) tid .deleteTenantConfig ∧
        ∀ id, c.state.routes.lookup (tid, id) = none := by
    rintro tid rfl
    exact ⟨hpermitted.deletes, h.bare n tid (midway_of_call hp (log_ne_nil_of_bare hpermitted.bare))
      hpermitted.deletes hpermitted.bare⟩
  have hstore : ∀ r, o = .setRoute r → Adds mux (requests n) r.tenantId ∧
      (c.state.tenants.lookup r.tenantId).isSome := by
    rintro r rfl
    obtain ⟨d, hd, htid⟩ := hpermitted.found
    exact ⟨hpermitted.adds, h.found n _ (midway_of_call hp (log_ne_nil_of_read hd))
      hpermitted.adds ⟨d, hd, htid⟩⟩
  have htenants : ∀ tid, (c.state.tenants.lookup tid).isSome → o ≠ .deleteConfig tid →
      ((Threads.advance (cl.machine node) c n o k).state.tenants.lookup tid).isSome :=
    fun tid => World.tenants_perform cl (node n) (cl.env c.state.calls)
  have hroutes : ∀ tid id r,
      (Threads.advance (cl.machine node) c n o k).state.routes.lookup (tid, id) = some r →
        c.state.routes.lookup (tid, id) = some r ∨ ∃ d, o = .setRoute d ∧ d.tenantId = tid :=
    fun tid id r => World.routes_perform cl (node n) (cl.env c.state.calls)
  refine ⟨hfollows, fun tid id r hr => ?_, fun p m hp' hm => ?_, fun p tid hp' hadds hread => ?_,
    fun m tid hm hdeletes hbare id => ?_⟩
  · rcases hroutes tid id r hr with hr | ⟨d, rfl, rfl⟩
    · refine htenants tid (h.referential tid id r hr) fun ho => ?_
      have hnone := (hdelete tid ho).2 id
      rw [hr] at hnone
      cases hnone
    · exact htenants _ (hstore d rfl).2 (by simp)
  · by_cases hpn : p = n
    · by_cases hmn : m = n
      · rintro ⟨tid, hadds, hdeletes⟩
        rw [hpn] at hadds
        rw [hmn] at hdeletes
        exact hadds.not_deletes hdeletes
      · rw [hpn]
        exact (hG m (hother m hmn hm)).1
    · by_cases hmn : m = n
      · rw [hmn]
        exact (hG p (hother p hpn hp')).2
      · exact h.apart p m (hother p hpn hp') (hother m hmn hm)
  · by_cases hpn : p = n
    · subst hpn
      rw [Threads.advance_log_self, seen_concat] at hread
      obtain ⟨d, hd, rfl⟩ := hread
      refine htenants _ ?_ fun ho => hadds.not_deletes (hdelete _ ho).1
      rcases h.follows.state.of_mem_read cl hd with hd | hstored
      · exact h.found p _ (midway_of_call hp (log_ne_nil_of_read hd)) hadds ⟨d, hd, rfl⟩
      · rw [hstored]
        rfl
    · have hmid := hother p hpn hp'
      rw [Threads.advance_log_of_ne hpn] at hread
      refine htenants tid (h.found p tid hmid hadds hread) fun ho => ?_
      exact (hG p hmid).2 ⟨tid, hadds, (hdelete tid ho).1⟩
  · cases hlookup : (Threads.advance (cl.machine node) c n o k).state.routes.lookup (tid, id) with
    | none => rfl
    | some r =>
        exfalso
        by_cases hmn : m = n
        · subst hmn
          rw [Threads.advance_log_self, seen_concat] at hbare
          rcases hroutes tid id r hlookup with hr | ⟨d, rfl, -⟩
          · have hnone : ∀ id, c.state.routes.lookup (tid, id) = none := by
              rcases World.of_mem_bare cl hbare with hbare | hnone
              · exact h.bare m tid (midway_of_call hp (log_ne_nil_of_bare hbare)) hdeletes hbare
              · exact hnone
            rw [hnone id] at hr
            cases hr
          · exact (hstore d rfl).1.not_deletes hdeletes
        · have hmid := hother m hmn hm
          rw [Threads.advance_log_of_ne hmn] at hbare
          rcases hroutes tid id r hlookup with hr | ⟨d, rfl, rfl⟩
          · rw [h.bare m tid hmid hdeletes hbare id] at hr
            cases hr
          · exact (hG m hmid).1 ⟨_, (hstore d rfl).1, hdeletes⟩

/-- **Every stored route has its tenant** in every run in which no request that adds or toggles a
route of a tenant overlaps one that deletes the tenant. -/
theorem tenant_of_route (hw : w.Keyed) (href : w.Referential)
    (hapart : Runs.Along (Threads.step (cl.machine node)) (Apart mux requests)
      (Cluster.start mux st requests w) turns)
    (hrun : Runs.run (Threads.step (cl.machine node)) (Cluster.start mux st requests w) turns =
      some c) : c.state.Referential := by
  have hstart : Consistent mux st requests (Cluster.start mux st requests w) :=
    ⟨follows_start hw, href, fun _ _ h _ => absurd rfl h.1, fun _ _ h _ _ => absurd rfl h.1,
      fun _ _ h _ _ => absurd rfl h.1⟩
  exact (Runs.run_induction_along (fun _ _ _ h hG hs => h.step hG hs) hstart hapart
    hrun).referential

/-- An administrator creates a tenant, adds a route and deletes the tenant. -/
def tenantRequests : ℕ → Request
  | 0 => sampleRequest "POST" "/ears/v1/orgs/acme/applications/tv/config" "admin"
  | 1 =>
      { sampleRequest "PUT" "/ears/v1/orgs/acme/applications/tv/routes/r1" "admin" with
        body := .ok
          { size := 2
            route := .ok
              { id := ""
                tenantId := ⟨"", ""⟩
                userId := "u1"
                receiver := { plugin := "debug", name := "in" }
                sender := { plugin := "debug", name := "out" } }
            fragment := .error "no fragment"
            tenantConfig := .error "no tenant"
            event := .error "no event" } }
  | 2 => sampleRequest "DELETE" "/ears/v1/orgs/acme/applications/tv/config" "admin"
  | _ => sampleRequest "GET" "/ears/version" "admin"

/-- A run of these requests. -/
abbrev tenantRun (turns : List ℕ) :
    Option (Threads sig ℕ (Option (Except ApiError Item)) (World Unit)) :=
  Runs.run (Threads.step (sampleCluster.machine fun _ => ()))
    (Cluster.start .inOrder {} tenantRequests World.empty) turns

/-- One request after the other: the route stays, and so does the tenant. -/
theorem tenant_of_route_sample : ∃ c, tenantRun [0, 0, 0, 0, 1, 1, 1, 1, 1, 2, 2] = some c ∧
    (c.state.routes.lookup (⟨"acme", "tv"⟩, "r1")).isSome ∧ c.state.Referential := by
  have hstored : (tenantRun [0, 0, 0, 0, 1, 1, 1, 1, 1, 2, 2]).map (fun c =>
      (c.state.routes.lookup (⟨"acme", "tv"⟩, "r1")).isSome) = some true := by decide +kernel
  obtain ⟨c, hc, hroute⟩ := Option.map_eq_some_iff.mp hstored
  -- no other request is midway at any call
  have halone : Runs.Along (Threads.step (sampleCluster.machine fun _ => ()))
      (fun c n => ∀ m ∈ [0, 1, 2], m ≠ n → c.log m = [] ∨ (c.prog m).returned.isSome)
      (Cluster.start .inOrder {} tenantRequests World.empty) [0, 0, 0, 0, 1, 1, 1, 1, 1, 2, 2] := by
    decide +kernel
  have hversion : ∀ m tid h, m ∉ [0, 1, 2] → For .inOrder (tenantRequests m) tid h →
      h = .version := by
    rintro m tid h hm ⟨vars, hd, -⟩
    match m with
    | 0 => exact absurd List.mem_cons_self hm
    | 1 => exact absurd (by decide) hm
    | 2 => exact absurd (by decide) hm
    | m + 3 =>
        have hdispatch : (Mux.inOrder.dispatch "GET" "/ears/version").map Prod.fst =
            some .version := by decide +kernel
        obtain ⟨d, hd', hfst⟩ := Option.map_eq_some_iff.mp hdispatch
        have heq : some d = some (h, vars) := hd'.symm.trans hd
        rw [Option.some.inj heq] at hfst
        exact hfst
  refine ⟨c, hc, hroute, tenant_of_route World.keyed_empty (fun _ _ _ h => by cases h)
    (halone.imp fun s n _ hn m hm => ?_) hc⟩
  by_cases hmn : m = n
  · rw [hmn]
    exact ⟨fun ⟨_, hadds, hdeletes⟩ => hadds.not_deletes hdeletes,
      fun ⟨_, hadds, hdeletes⟩ => hadds.not_deletes hdeletes⟩
  · by_cases hmem : m ∈ [0, 1, 2]
    · rcases hn m hmem hmn with hlog | hreturned
      · exact absurd hlog hm.1
      · rw [hm.2] at hreturned
        cases hreturned
    · constructor
      · rintro ⟨tid, -, hdeletes⟩
        cases hversion m tid _ hmem hdeletes
      · rintro ⟨tid, hadds | hadds, -⟩
        · cases hversion m tid _ hmem hadds
        · cases hversion m tid _ hmem hadds

/-- Whether a request has ended with an item. -/
def succeeded : Option (Option (Except ApiError Item)) → Bool
  | some (some (.ok _)) => true
  | _ => false

theorem exists_of_succeeded {r : Option (Option (Except ApiError Item))} (h : succeeded r = true) :
    ∃ item, r = some (some (.ok item)) := by
  unfold succeeded at h
  split at h
  · exact ⟨_, rfl⟩
  · cases h

/-- The tenant is deleted between the check of the request that adds the route and its write:
all three requests succeed, and the route is stored and registered without its tenant. -/
theorem orphan_of_overlap : ∃ c, tenantRun [0, 0, 0, 0, 1, 1, 2, 2, 2, 1, 1, 1] = some c ∧
    (c.state.routes.lookup (⟨"acme", "tv"⟩, "r1")).isSome ∧
      c.state.tenants.lookup ⟨"acme", "tv"⟩ = none ∧
        ∀ n ∈ [0, 1, 2], ∃ item, (c.prog n).returned = some (some (.ok item)) := by
  have hrun : (tenantRun [0, 0, 0, 0, 1, 1, 2, 2, 2, 1, 1, 1]).map (fun c =>
      ((c.state.routes.lookup (⟨"acme", "tv"⟩, "r1")).isSome,
        (c.state.tenants.lookup ⟨"acme", "tv"⟩).isNone,
        [0, 1, 2].all fun n => succeeded (c.prog n).returned)) = some (true, true, true) := by
    decide +kernel
  obtain ⟨c, hc, hstate⟩ := Option.map_eq_some_iff.mp hrun
  obtain ⟨hroute, hrest⟩ := Prod.mk.inj hstate
  obtain ⟨htenant, hall⟩ := Prod.mk.inj hrest
  refine ⟨c, hc, hroute, Option.isNone_iff_eq_none.mp htenant, fun n hn => ?_⟩
  exact exists_of_succeeded (List.all_eq_true.mp hall n hn)

end Runs

end Api
