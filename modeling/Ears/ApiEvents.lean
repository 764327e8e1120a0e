/-
# Events without a token

An event needs no token when the tenant has an open event API.  `sendEventHandler` learns that
from the tenant cache of its node, or from the store, whose answer it caches for half a minute.

`routed_of_closed` says that a tenant whose event API is never opened gets events only from
requests that were accepted for it.  `routed_of_revoked` says how long an open event API stays
open after it was closed: a request gets through without a token only if it begins before the
entries of the caches have expired that were made by requests which had read the old
configuration.
-/
import Ears.ApiAccess

open Plugin

namespace Api

variable {ι : Type} [DecidableEq ι] {w : World ι} {tid : Tenant.Id} {P : CachedTenantConfig → Prop}

/-! ## The store and the caches -/

/-- The stored configuration of the tenant is closed, and the cached ones meet a condition. -/
structure World.Shut (tid : Tenant.Id) (P : CachedTenantConfig → Prop) (w : World ι) : Prop where
  stored : ∀ d, w.tenants.lookup tid = some d → d.openEventApi = false
  cached : ∀ i item, (w.nodes i).cache.lookup tid.key = some item → P item

/-- The call does not open the event API of the tenant. -/
def Op.KeepsShut (tid : Tenant.Id) : Op → Prop
  | .setConfig d => d.tenant = tid → d.openEventApi = false
  | _ => True

instance (tid : Tenant.Id) : (o : Op) → Decidable (o.KeepsShut tid)
  | .setConfig d => inferInstanceAs (Decidable (d.tenant = tid → d.openEventApi = false))
  | .verifyToken .. | .getConfig _ | .getAllConfigs | .deleteConfig _ | .getRoute _ _
  | .getAllTenantRoutes _ | .setRoute _ | .deleteRoute _ _ | .getFragment _ _ | .getAllFragments
  | .getAllTenantFragments _ | .setFragment _ _ | .deleteFragment _ _ | .registerAndRunRoute _
  | .unregisterAndStopRoute _ _ | .getAllRegisteredRoutes | .publishSyncRequest _ _ _
  | .publishQuota _ | .getTenant _ | .setTenant _ | .routeEvent _ _ _ | .status _ => isTrue trivial

namespace World

/-- A stored configuration was stored before, or is the one that is written. -/
theorem config_perform (cl : Cluster ι) (i : ι) (e : Env) {o : Op} {d : TenantConfig}
    (h : (cl.perform i e w o).2.tenants.lookup tid = some d) :
    w.tenants.lookup tid = some d ∨
      ∃ d', o = .setConfig d' ∧ d'.tenant = tid ∧ d = { d' with modified := e.now } := by
  by_cases hwrites : o.writes = some tid
  · have hwrite : ∀ w' : World ι, (World.write e w w').2.tenants.lookup tid = some d →
        w.tenants.lookup tid = some d ∨ w'.tenants.lookup tid = some d := by
      intro w' h'
      rcases write_cases e w w' with hw | hw <;> rw [hw] at h'
      · exact .inl h'
      · exact .inr h'
    cases o with
    | setConfig d' =>
        refine (hwrite _ h).imp_right fun h => ⟨d', rfl, Option.some.inj hwrites, ?_⟩
        rcases AList.of_lookup_insert h with ⟨-, hd⟩ | ⟨hne, -⟩
        · exact hd
        · exact absurd (Option.some.inj hwrites).symm hne
    | deleteConfig tid' => exact (hwrite _ h).elim .inl fun h => .inl (AList.of_lookup_erase h)
    | setRoute r => exact (hwrite _ h).elim .inl .inl
    | deleteRoute tid' id => exact (hwrite _ h).elim .inl .inl
    | setFragment tid' pc => exact (hwrite _ h).elim .inl .inl
    | deleteFragment tid' id => exact (hwrite _ h).elim .inl .inl
    | _ => cases hwrites
  · rw [(sameStored_perform cl i e hwrites).config] at h
    exact .inl h

omit [DecidableEq ι] in
theorem write_nodes (e : Env) {w' : World ι} (h : w'.nodes = w.nodes) :
    (World.write e w w').2.nodes = w.nodes := by
  rcases write_cases e w w' with hw | hw <;> rw [hw]
  exact h

theorem of_setNode {i j : ι} {n : Node} {key : String} {item : CachedTenantConfig}
    (h : ((w.setNode i n).nodes j).cache.lookup key = some item) :
    (j = i ∧ n.cache.lookup key = some item) ∨ (w.nodes j).cache.lookup key = some item := by
  have hnodes : (w.setNode i n).nodes j = Function.update w.nodes i n j := rfl
  rw [hnodes] at h
  by_cases hj : j = i
  · subst hj
    rw [Function.update_self] at h
    exact .inl ⟨rfl, h⟩
  · rw [Function.update_of_ne hj] at h
    exact .inr h

/-- A cached configuration was cached before, or is put into the cache now. -/
theorem cache_perform (cl : Cluster ι) (i : ι) (e : Env) {o : Op} {j : ι} {key : String}
    {item : CachedTenantConfig}
    (h : ((cl.perform i e w o).2.nodes j).cache.lookup key = some item) :
    (w.nodes j).cache.lookup key = some item ∨
      ∃ d, o = .setTenant d ∧ key = d.tenant.key ∧ item = ⟨d, e.now⟩ := by
  have hwrite : ∀ w' : World ι, ((World.write e w w').2.nodes j).cache.lookup key = some item →
      w'.nodes = w.nodes → (w.nodes j).cache.lookup key = some item := by
    intro w' h' hnodes
    rwa [write_nodes e hnodes] at h'
  cases o with
  | setConfig d => exact .inl (hwrite _ h rfl)
  | deleteConfig tid' => exact .inl (hwrite _ h rfl)
  | setRoute d => exact .inl (hwrite _ h rfl)
  | deleteRoute tid' id => exact .inl (hwrite _ h rfl)
  | setFragment tid' pc => exact .inl (hwrite _ h rfl)
  | deleteFragment tid' id => exact .inl (hwrite _ h rfl)
  | registerAndRunRoute d =>
      rcases of_setNode h with ⟨rfl, h⟩ | h
      · exact .inl h
      · exact .inl h
  | unregisterAndStopRoute tid' routeId =>
      rcases of_setNode h with ⟨rfl, h⟩ | h
      · exact .inl h
      · exact .inl h
  | getTenant tenantId =>
      rcases World.perform_getTenant cl i e w tenantId with hp | hp | ⟨item', -, -, hp⟩ <;>
        rw [hp] at h
      · exact .inl h
      · rcases of_setNode h with ⟨rfl, h⟩ | h
        · exact .inl (AList.of_lookup_erase h)
        · exact .inl h
      · exact .inl h
  | setTenant d =>
      rcases of_setNode h with ⟨rfl, h⟩ | h
      · rcases AList.of_lookup_insert h with ⟨rfl, rfl⟩ | ⟨-, h⟩
        · exact .inr ⟨d, rfl, rfl, rfl⟩
        · exact .inl h
      · exact .inl h
  | _ => exact .inl h

/-- What is closed stays so when no open configuration is stored, and what is cached meets the
condition. -/
theorem Shut.perform (h : w.Shut tid P) (cl : Cluster ι) (i : ι) (e : Env) {o : Op}
    (hset : o.KeepsShut tid) (hput : ∀ d, o = .setTenant d → d.tenant = tid → P ⟨d, e.now⟩) :
    (cl.perform i e w o).2.Shut tid P := by
  refine ⟨fun d hd => ?_, fun j item hitem => ?_⟩
  · rcases config_perform cl i e hd with hd | ⟨d', rfl, htid, rfl⟩
    · exact h.stored d hd
    · exact hset htid
  · rcases cache_perform cl i e hitem with hitem | ⟨d, rfl, hkey, rfl⟩
    · exact h.cached j item hitem
    · exact hput d rfl (Tenant.key_inj.mp hkey.symm)

/-- No entry of a cache is from the future. -/
def Dated (cl : Cluster ι) (w : World ι) : Prop :=
  ∀ i key item, (w.nodes i).cache.lookup key = some item → item.ts ≤ (cl.env w.calls).now

end World

/-! ## The requests -/

section Runs

variable {cl : Cluster ι} {node : ℕ → ι} {mux : Mux} {st : Settings} {requests : ℕ → Request}
  {turns : List ℕ} {c c' : Threads sig ℕ (Option (Except ApiError Item)) (World ι)}

/-- No configuration that was read from the store for the tenant was open. -/
def Seen.ReadShut (g : Seen) (tid : Tenant.Id) : Prop :=
  ∀ d ∈ g.read, d.tenant = tid → d.openEventApi = false

/-- The same for the cache. -/
def Seen.CachedShut (g : Seen) (tid : Tenant.Id) : Prop :=
  ∀ d ∈ g.cached, d.tenant = tid → d.openEventApi = false

theorem shut_seen_nil (tid : Tenant.Id) : (seen []).ReadShut tid ∧ (seen []).CachedShut tid :=
  ⟨fun _ hd => (by cases hd), fun _ hd => (by cases hd)⟩

theorem Seen.ReadShut.after {g : Seen} {i : ι} {e : Env} {o : Op} (hg : g.ReadShut tid)
    (h : w.Shut tid P) (hw : w.Keyed) : (g.after o (cl.perform i e w o).1).ReadShut tid := by
  rintro d hd rfl
  rcases hw.of_mem_read cl hd with hd | hstored
  · exact hg d hd rfl
  · exact h.stored d hstored

/-- Only entries that are not too old are read from the cache. -/
theorem Seen.CachedShut.after {g : Seen} {i : ι} {e : Env} {o : Op} (hg : g.CachedShut tid)
    (h : w.Shut tid P) (hw : w.Keyed)
    (hfresh : ∀ item, P item → e.now - item.ts ≤ tenantCacheTtlSecs →
      item.config.openEventApi = false) :
    (g.after o (cl.perform i e w o).1).CachedShut tid := by
  rintro d hd rfl
  rcases hw.of_mem_cached cl hd with hd | ⟨item, hitem, rfl, hage⟩
  · exact hg d hd rfl
  · exact hfresh item (h.cached i item hitem) hage

theorem seen_le_append (l l' : List ((o : Op) × o.Res)) : (seen l).Le (seen (l ++ l')) := by
  induction l' using List.reverseRecOn with
  | nil =>
      rw [List.append_nil]
      exact Seen.Le.refl _
  | append_singleton l' x ih =>
      rw [← List.append_assoc, seen_concat]
      exact ih.trans (Seen.le_after _ _ _)

/-- The event API of the tenant is closed, up to what is cached: the requests that have not
returned have read no open configuration. -/
structure Draining (mux : Mux) (st : Settings) (requests : ℕ → Request) (tid : Tenant.Id)
    (P : CachedTenantConfig → Prop) (c : Threads sig ℕ (Option (Except ApiError Item)) (World ι)) :
    Prop where
  follows : Follows mux st requests c
  shut : c.state.Shut tid P
  read : ∀ n, (c.prog n).returned = none → (seen (c.log n)).ReadShut tid

/-- The next call of the request does not open the event API of the tenant. -/
abbrev KeepsShut (tid : Tenant.Id)
    (c : Threads sig ℕ (Option (Except ApiError Item)) (World ι)) (n : ℕ) : Prop :=
  Threads.Next (S := sig) (fun _ o => Op.KeepsShut tid o) c n

/-- It stays so when nobody opens it. -/
theorem Draining.step {n : ℕ} (h : Draining mux st requests tid P c)
    (hP : ∀ item, item.config.openEventApi = false → P item)
    (hkeeps : KeepsShut tid c n)
    (hs : Threads.step (cl.machine node) c n = some c') : Draining mux st requests tid P c' := by
  refine ⟨h.follows.step hs, ?_, ?_⟩ <;> obtain ⟨o, k, -, hp, rfl⟩ := Threads.step_cases hs
  · have hpermitted : Permitted mux st (requests n) (seen (c.log n)) o := by
      have hprog := h.follows.prog n
      rw [hp] at hprog
      exact hprog.1.1
    have hnext := h.shut.perform cl (node n) (cl.env c.state.calls)
      ((Threads.next_of_call hp).mp hkeeps) ?_
    · exact ⟨hnext.stored, hnext.cached⟩
    · rintro d rfl htid
      exact hP _ (h.read n (by rw [hp]; rfl) d hpermitted.1 htid)
  · intro m hm
    by_cases hmn : m = n
    · subst hmn
      rw [Threads.advance_log_self, seen_concat]
      exact (h.read m (by rw [hp]; rfl)).after h.shut h.follows.state
    · rw [Threads.advance_prog_of_ne hmn] at hm
      rw [Threads.advance_log_of_ne hmn]
      exact h.read m hm

/-- What the requests of a set have seen is closed. -/
def Unaware (N : Set ℕ) (tid : Tenant.Id)
    (c : Threads sig ℕ (Option (Except ApiError Item)) (World ι)) : Prop :=
  ∀ n ∈ N, (seen (c.log n)).ReadShut tid ∧ (seen (c.log n)).CachedShut tid

/-- It stays so when the caches answer closed configurations only. -/
theorem Unaware.step {N : Set ℕ} {n : ℕ} (hN : Unaware N tid c) (h : Draining mux st requests tid P c)
    (hfresh : ∀ item, P item → (cl.env c.state.calls).now - item.ts ≤ tenantCacheTtlSecs →
      item.config.openEventApi = false)
    (hs : Threads.step (cl.machine node) c n = some c') : Unaware N tid c' := by
  obtain ⟨o, k, -, hp, rfl⟩ := Threads.step_cases hs
  intro m hm
  by_cases hmn : m = n
  · subst hmn
    rw [Threads.advance_log_self, seen_concat]
    exact ⟨(hN m hm).1.after h.shut h.follows.state, (hN m hm).2.after h.shut h.follows.state hfresh⟩
  · rw [Threads.advance_log_of_ne hmn]
    exact hN m hm

omit [DecidableEq ι] in
/-- A request that has seen no open configuration needs a token for its events. -/
theorem Unaware.accepted {N : Set ℕ} {n : ℕ} (hN : Unaware N tid c) (hn : n ∈ N)
    (h : Follows mux st requests c) {l l' : List ((o : Op) × o.Res)} {routeId : String}
    {payload : Json} {res : Except Error Routed}
    (hlog : c.log n = l ++ ⟨.routeEvent tid routeId payload, res⟩ :: l') :
    WasAccepted (requests n) l (some tid) := by
  rcases (h.calls n l (.routeEvent tid routeId payload) res l' hlog).1.2 with
    hver | ⟨d, hd, htid, hopen⟩
  · exact hver.wasAccepted
  · have hle : (seen l).Le (seen (c.log n)) := by
      rw [hlog]
      exact seen_le_append _ _
    have hclosed : d.openEventApi = false := hd.elim
      (fun hd => (hN n hn).1 d (hle.read hd) htid) fun hd => (hN n hn).2 d (hle.cached hd) htid
    rw [hopen] at hclosed
    cases hclosed

theorem calls_step {n : ℕ} (hs : Threads.step (cl.machine node) c n = some c') :
    c'.state.calls = c.state.calls + 1 := by
  obtain ⟨o, k, -, -, rfl⟩ := Threads.step_cases hs
  rfl

/-- It stays so in every run in which nobody opens it. -/
theorem Draining.run {c₀ : Threads sig ℕ (Option (Except ApiError Item)) (World ι)}
    (h : Draining mux st requests tid P c₀)
    (hP : ∀ item, item.config.openEventApi = false → P item)
    (hkeeps : Runs.Along (Threads.step (cl.machine node)) (KeepsShut tid) c₀ turns)
    (hrun : Runs.run (Threads.step (cl.machine node)) c₀ turns = some c) :
    Draining mux st requests tid P c :=
  Runs.run_induction_along (fun _ _ _ h hG hs => h.step hP hG hs) h hkeeps hrun

/-- Requests stay unaware in a run that begins when no cache answers an open configuration any
more. -/
theorem Unaware.run {N : Set ℕ} {c₀ : Threads sig ℕ (Option (Except ApiError Item)) (World ι)}
    (hN : Unaware N tid c₀) (h : Draining mux st requests tid P c₀)
    (hP : ∀ item, item.config.openEventApi = false → P item)
    (hfresh : ∀ k, c₀.state.calls ≤ k → ∀ item, P item →
      (cl.env k).now - item.ts ≤ tenantCacheTtlSecs → item.config.openEventApi = false)
    (hkeeps : Runs.Along (Threads.step (cl.machine node)) (KeepsShut tid) c₀ turns)
    (hrun : Runs.run (Threads.step (cl.machine node)) c₀ turns = some c) : Unaware N tid c := by
  have hinv := Runs.run_induction_along (P := fun c => Draining mux st requests tid P c ∧
    Unaware N tid c ∧ c₀.state.calls ≤ c.state.calls) (fun s n s' hs hG hstep => ?_)
    ⟨h, hN, le_rfl⟩ hkeeps hrun
  · exact hinv.2.1
  · obtain ⟨hdraining, hunaware, hcalls⟩ := hs
    refine ⟨hdraining.step hP hG hstep, hunaware.step hdraining (hfresh _ hcalls) hstep, ?_⟩
    rw [calls_step hstep]
    omega

theorem dated_of_run (hclock : Monotone fun k => (cl.env k).now) (hdated : w.Dated cl)
    (hrun : Runs.run (Threads.step (cl.machine node)) (Cluster.start mux st requests w) turns =
      some c) : c.state.Dated cl := by
  refine Runs.run_induction (P := fun c => c.state.Dated cl) (fun s n s' hs hstep => ?_)
    (show w.Dated cl from hdated) hrun
  intro i key item hitem
  have hle : (cl.env s.state.calls).now ≤ (cl.env s'.state.calls).now :=
    hclock (by rw [calls_step hstep]; omega)
  obtain ⟨o, k, -, -, rfl⟩ := Threads.step_cases hstep
  rcases World.cache_perform cl (node n) (cl.env s.state.calls) hitem with hold | ⟨d, -, -, rfl⟩
  · exact (hs i key item hold).trans hle
  · exact hle

/-- No token is accepted. -/
def acceptsNothing : ((o : Op) × o.Res) → Bool
  | ⟨.verifyToken _ _ _ _, .ok _⟩ => false
  | _ => true

/-- The fifth and last call of a request routes an event for the tenant of the sample. -/
def routesLast (log : List ((o : Op) × o.Res)) : Bool :=
  match log.drop 4 with
  | [⟨.routeEvent tid _ _, _⟩] => tid = ⟨"acme", "tv"⟩
  | _ => false

theorem log_of_routesLast {log : List ((o : Op) × o.Res)} (h : routesLast log = true) :
    ∃ routeId payload res, log = log.take 4 ++
      (⟨.routeEvent ⟨"acme", "tv"⟩ routeId payload, res⟩ : (o : Op) × o.Res) :: [] := by
  unfold routesLast at h
  split at h
  · rename_i tid routeId payload res hdrop
    obtain rfl := of_decide_eq_true h
    exact ⟨routeId, payload, res, by rw [← hdrop, List.take_append_drop]⟩
  · cases h

/-! ## The results -/

/-- **A closed event API takes events only with a token**: as long as no configuration that opens
it is written for the tenant, an event is routed for the tenant only by a request whose token was
accepted for it before. -/
theorem routed_of_closed (hw : w.Keyed)
    (hshut : w.Shut tid fun item => item.config.openEventApi = false)
    (hkeeps : Runs.Along (Threads.step (cl.machine node)) (KeepsShut tid)
      (Cluster.start mux st requests w) turns)
    (hrun : Runs.run (Threads.step (cl.machine node)) (Cluster.start mux st requests w) turns =
      some c) {n : ℕ} {l l' : List ((o : Op) × o.Res)} {routeId : String} {payload : Json}
    {res : Except Error Routed}
    (hlog : c.log n = l ++ ⟨.routeEvent tid routeId payload, res⟩ :: l') :
    WasAccepted (requests n) l (some tid) := by
  have hdraining : Draining mux st requests tid (fun item => item.config.openEventApi = false)
      (Cluster.start mux st requests w) :=
    ⟨follows_start hw, hshut, fun _ _ => (shut_seen_nil tid).1⟩
  have hunaware : Unaware Set.univ tid (Cluster.start mux st requests w) := fun _ _ =>
    shut_seen_nil tid
  exact (hunaware.run hdraining (fun _ h => h) (fun _ _ _ h _ => h) hkeeps hrun).accepted
    (Set.mem_univ n) (follows_of_run hw hrun) hlog

/-- The event of the sample, to a tenant that was created with a closed event API. -/
theorem routed_of_closed_sample : ∃ c l, sampleRun = some c ∧ l <+: c.log 1 ∧ l.length = 4 ∧
    WasAccepted (sampleRequests 1) l (some ⟨"acme", "tv"⟩) := by
  have hlast : sampleRun.map (fun c => routesLast (c.log 1)) = some true := by decide +kernel
  obtain ⟨c, hc, hlast⟩ := Option.map_eq_some_iff.mp hlast
  have hkeeps : Runs.Along (Threads.step (sampleCluster.machine fun _ => ()))
      (KeepsShut ⟨"acme", "tv"⟩) (Cluster.start .inOrder {} sampleRequests World.empty)
      sampleTurns := by decide +kernel
  obtain ⟨routeId, payload, res, hlog⟩ := log_of_routesLast hlast
  refine ⟨c, (c.log 1).take 4, hc, List.take_prefix _ _, ?_, ?_⟩
  · have hlength := congrArg List.length hlog
    simp at hlength
    simp
    omega
  · exact routed_of_closed World.keyed_empty ⟨fun _ hd => (by cases hd), fun _ _ hitem =>
      (by cases hitem)⟩ hkeeps hc hlog

/-- **Closing the event API takes effect**: after the last request has returned that has read an
open configuration of the tenant from the store, and when the time to live of the caches is over
as well, every request that begins needs a token for its events. -/
theorem routed_of_revoked (hw : w.Keyed) (hclock : Monotone fun k => (cl.env k).now)
    (hdated : w.Dated cl) {turns₁ turns₂ turns₃ : List ℕ}
    {c₁ c₂ : Threads sig ℕ (Option (Except ApiError Item)) (World ι)}
    (hrun₁ : Runs.run (Threads.step (cl.machine node)) (Cluster.start mux st requests w) turns₁ =
      some c₁)
    (hclosed : ∀ d, c₁.state.tenants.lookup tid = some d → d.openEventApi = false)
    (hdone : ∀ n, (c₁.prog n).returned = none → (seen (c₁.log n)).ReadShut tid)
    (hkeeps : Runs.Along (Threads.step (cl.machine node)) (KeepsShut tid) c₁ (turns₂ ++ turns₃))
    (hrun₂ : Runs.run (Threads.step (cl.machine node)) c₁ turns₂ = some c₂)
    (hlate : (cl.env c₁.state.calls).now + tenantCacheTtlSecs < (cl.env c₂.state.calls).now)
    (hrun₃ : Runs.run (Threads.step (cl.machine node)) c₂ turns₃ = some c)
    {n : ℕ} (hnew : c₂.log n = []) {l l' : List ((o : Op) × o.Res)} {routeId : String}
    {payload : Json} {res : Except Error Routed}
    (hlog : c.log n = l ++ ⟨.routeEvent tid routeId payload, res⟩ :: l') :
    WasAccepted (requests n) l (some tid) := by
  have hfollows₁ := follows_of_run hw hrun₁
  -- open entries of the caches are not younger than the first part of the run
  have hdraining₁ : Draining mux st requests tid (fun item => item.config.openEventApi = true →
      item.ts ≤ (cl.env c₁.state.calls).now) c₁ :=
    ⟨hfollows₁, ⟨hclosed, fun i item hitem _ => dated_of_run hclock hdated hrun₁ i _ item hitem⟩,
      hdone⟩
  have hP : ∀ item : CachedTenantConfig, item.config.openEventApi = false →
      item.config.openEventApi = true → item.ts ≤ (cl.env c₁.state.calls).now := by
    intro item hfalse htrue
    rw [hfalse] at htrue
    cases htrue
  have hdraining₂ := hdraining₁.run hP hkeeps.of_append hrun₂
  have hunaware₂ : Unaware {m | c₂.log m = []} tid c₂ := by
    rintro m (hm : c₂.log m = [])
    rw [hm]
    exact shut_seen_nil tid
  have hunaware := hunaware₂.run hdraining₂ hP (fun k hk item hitem hage => ?_)
    (hkeeps.tail hrun₂) hrun₃
  · have hrun := Runs.run_append_eq_some.mpr ⟨c₂, Runs.run_append_eq_some.mpr
      ⟨c₁, hrun₁, hrun₂⟩, hrun₃⟩
    exact hunaware.accepted hnew (follows_of_run hw hrun) hlog
  · -- an open entry that is answered would be too young
    by_contra hopen
    have hts := hitem (Bool.eq_true_of_not_eq_false hopen)
    have hnow : (cl.env c₂.state.calls).now ≤ (cl.env k).now := hclock hk
    omega

/-- A tenant is created with an open event API, an event comes without a token, the event API is
closed, an event comes without a token, and one with a token a minute later. -/
def revokedRequests : ℕ → Request
  | 0 => { sampleRequest "POST" "/ears/v1/orgs/acme/applications/tv/config" "admin" with
      body := .ok ⟨2, .error "no route", .error "no fragment",
        .ok { tenant := ⟨"", ""⟩, openEventApi := true }, .error "no event"⟩ }
  | 2 => sampleRequest "PUT" "/ears/v1/orgs/acme/applications/tv/config" "admin"
  | 4 => sampleRequest "POST" "/ears/v1/orgs/acme/applications/tv/routes/r1/event" "admin"
  | _ => sampleRequest "POST" "/ears/v1/orgs/acme/applications/tv/routes/r1/event" ""

/-- One call in a second, and a minute before the last request. -/
def revokedCluster : Cluster Unit :=
  { sampleCluster with
    env := fun n => { sampleCluster.env n with now := if n < 13 then n else n + 60 } }

theorem revokedCluster_clock : Monotone fun k => (revokedCluster.env k).now := by
  intro a b hab
  show (if a < 13 then (a : ℤ) else a + 60) ≤ if b < 13 then (b : ℤ) else b + 60
  split_ifs <;> omega

/-- The calls of the first three requests, of the fourth, and of the last. -/
def revokedTurns : List ℕ × List ℕ × List ℕ :=
  ([0, 0, 0, 0, 1, 1, 1, 1, 2, 2, 2], [3, 3], [4, 4, 4, 4, 4])

/-- A run of these requests. -/
abbrev revokedRun (turns : List ℕ) :
    Option (Threads sig ℕ (Option (Except ApiError Item)) (World Unit)) :=
  Runs.run (Threads.step (revokedCluster.machine fun _ => ()))
    (Cluster.start .inOrder {} revokedRequests World.empty) turns

/-- The fourth request gets its event through without a token, the last one needs one. -/
theorem routed_of_revoked_sample : ∃ c l,
    revokedRun (revokedTurns.1 ++ revokedTurns.2.1 ++ revokedTurns.2.2) = some c ∧
      (c.log 3).length = 2 ∧ (∀ tid, ¬ WasAccepted (revokedRequests 3) (c.log 3) tid) ∧
        l <+: c.log 4 ∧ WasAccepted (revokedRequests 4) l (some ⟨"acme", "tv"⟩) := by
  have hfirst : (revokedRun revokedTurns.1).map (fun c => (c.state.calls,
      (c.state.tenants.lookup ⟨"acme", "tv"⟩).all fun d => d.openEventApi = false,
        [0, 1, 2].all fun n => (c.prog n).returned.isSome,
          decide (Runs.Along (Threads.step (revokedCluster.machine fun _ => ()))
            (KeepsShut ⟨"acme", "tv"⟩) c (revokedTurns.2.1 ++ revokedTurns.2.2)))) =
      some (11, true, true, true) := by decide +kernel
  have hsecond : (revokedRun (revokedTurns.1 ++ revokedTurns.2.1)).map (fun c =>
      (c.state.calls, (c.log 4).isEmpty)) = some (13, true) := by decide +kernel
  have hthird : (revokedRun (revokedTurns.1 ++ revokedTurns.2.1 ++ revokedTurns.2.2)).map (fun c =>
      (routesLast (c.log 4), (c.log 3).length, (c.log 3).all acceptsNothing)) =
        some (true, 2, true) := by decide +kernel
  obtain ⟨c, hc, hlast⟩ := Option.map_eq_some_iff.mp hthird
  obtain ⟨c₂, hc₂, hrun₃⟩ := Runs.run_append_eq_some.mp hc
  obtain ⟨c₁, hc₁, hrun₂⟩ := Runs.run_append_eq_some.mp hc₂
  rw [show revokedRun revokedTurns.1 = some c₁ from hc₁] at hfirst
  rw [show revokedRun (revokedTurns.1 ++ revokedTurns.2.1) = some c₂ from hc₂] at hsecond
  obtain ⟨hcalls₁, hrest⟩ := Prod.mk.inj (Option.some.inj hfirst)
  obtain ⟨hstored, hrest⟩ := Prod.mk.inj hrest
  obtain ⟨hreturned, hkeeps⟩ := Prod.mk.inj hrest
  obtain ⟨hcalls₂, hnew⟩ := Prod.mk.inj (Option.some.inj hsecond)
  obtain ⟨hroutes, hrest⟩ := Prod.mk.inj hlast
  obtain ⟨hlength, hunverified⟩ := Prod.mk.inj hrest
  obtain ⟨routeId, payload, res, hlog⟩ := log_of_routesLast hroutes
  refine ⟨c, (c.log 4).take 4, hc, hlength, ?_, List.take_prefix _ _, ?_⟩
  · rintro tid ⟨token, who, hmem⟩
    cases List.all_eq_true.mp hunverified _ hmem
  refine routed_of_revoked World.keyed_empty revokedCluster_clock
    (fun _ _ _ hitem => by cases hitem) hc₁ (fun d hd => ?_) (fun n hn => ?_)
    (of_decide_eq_true hkeeps) hrun₂ ?_ hrun₃ (List.isEmpty_iff.mp hnew) hlog
  · rw [hd] at hstored
    exact of_decide_eq_true hstored
  · have hturns : ∀ m ∈ revokedTurns.1, m ∈ [0, 1, 2] := by decide
    have hmem : n ∉ [0, 1, 2] := by
      intro hmem
      have hsome := List.all_eq_true.mp hreturned n hmem
      rw [hn] at hsome
      cases hsome
    rw [log_of_notMem hc₁ fun h => hmem (hturns n h)]
    exact (shut_seen_nil _).1
  · rw [hcalls₁, hcalls₂]
    decide

end Runs

end Api
