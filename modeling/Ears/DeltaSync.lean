/-
# Delta synchronization between instances

Several instances share a route store.  `AddRoute` registers the route on its own instance,
stores it, and publishes a delta event; `RemoveRoute` deletes the stored route, publishes,
and unregisters the route on its own instance.  The other instances handle the events one
after the other (`SyncItem`).

A storage that instances share hands out copies, so no two configurations here share the array
of a filter chain.

The steps of the calls and the handlers interleave.  A call is modelled by the step it takes
next (`DeltaPhase`).  Seen from one route, the instances are replicas of one stored value
(`view`), and an orderly step of the cluster is an orderly step of the replicas or nothing
(`view_step`).  So the instances agree once all is done (`agreement`).
-/
import Ears.TableRefinement
import Ears.Replicas

open Plugin

/-- A delta event: `SyncCommand`. -/
structure Delta where
  tid : Tenant.Id
  routeId : String
  add : Bool

/-- The key of the route that the event is about. -/
def Delta.key (m : Delta) : String := m.tid.keyWithRoute m.routeId

/-- An instance: its routing table, and the events it has not handled yet. -/
structure EarsInstance where
  table : RoutingTable
  inbox : List Delta

/-- What a call of `AddRoute` or `RemoveRoute` does next. -/
inductive DeltaPhase where
  | register (c : Route.Config)
  | setRoute (c : Route.Config)
  | publishAdd (c : Route.Config)
  | deleteRoute (tid : Tenant.Id) (routeId : String)
  | publishRemove (tid : Tenant.Id) (routeId : String)
  | unregister (tid : Tenant.Id) (routeId : String)

namespace DeltaPhase

/-- The key of the route that the call is about. -/
def key : DeltaPhase → String
  | .register c | .setRoute c | .publishAdd c => c.key
  | .deleteRoute tid routeId | .publishRemove tid routeId | .unregister tid routeId =>
      tid.keyWithRoute routeId

/-- The call is an `AddRoute` with this configuration. -/
def Adds (p : DeltaPhase) (c : Route.Config) : Prop :=
  p = .register c ∨ p = .setRoute c ∨ p = .publishAdd c

/-- The call has deleted the stored route and not unregistered it yet. -/
def removes : DeltaPhase → Bool
  | .publishRemove _ _ | .unregister _ _ => true
  | .register _ | .setRoute _ | .publishAdd _ | .deleteRoute _ _ => false

/-- The call has registered the route and not stored it yet. -/
def stores : DeltaPhase → Bool
  | .setRoute _ => true
  | _ => false

/-- The configuration that the call registers next. -/
def registers : DeltaPhase → Option Route.Config
  | .register c => some c
  | _ => none

/-- The key that the call deletes next. -/
def deletes : DeltaPhase → Option String
  | .deleteRoute tid routeId => some (tid.keyWithRoute routeId)
  | _ => none

/-- The step as a step of a replica. -/
def view : DeltaPhase → Replicas.Phase Route.Config
  | .register c => .apply c
  | .setRoute c => .write c
  | .publishAdd c => .announce c
  | .deleteRoute _ _ => .delete
  | .publishRemove _ _ => .withdraw
  | .unregister _ _ => .drop

end DeltaPhase

/-- The instances, the shared store, and the calls on their way with their instances. -/
structure Cluster (ι : Type) where
  nodes : ι → EarsInstance
  store : String → Option Route.Config
  calls : ℕ → Option (ι × DeltaPhase)

/-- The answers to one step: of the plugins, and an error of the storage. -/
structure StepEnv where
  plugins : ℕ → Answers
  storage : Option String := none

/-- Nothing fails. -/
def StepEnv.Succeeds (env : StepEnv) : Prop := (∀ i, (env.plugins i).Succeeds) ∧ env.storage = none

/-- A new call in a free slot, the next step of a call, or the handling of an event. -/
inductive ClusterAction (ι : Type) where
  | addRoute (n : ℕ) (i : ι) (routeConfig : Option Route.Config)
      (getFragment : Tenant.Id → String → Except String Route.PluginConfig)
  | removeRoute (n : ℕ) (i : ι) (tid : Tenant.Id) (routeId : String)
  | proceed (n : ℕ) (env : StepEnv)
  | syncItem (i : ι) (env : StepEnv)

/-- Nothing fails. -/
def ClusterAction.Succeeds {ι : Type} : ClusterAction ι → Prop
  | .proceed _ env | .syncItem _ env => env.Succeeds
  | .addRoute _ _ _ _ | .removeRoute _ _ _ _ => True

/-- The slot that an action uses. -/
def ClusterAction.slot {ι : Type} : ClusterAction ι → Option ℕ
  | .addRoute n _ _ _ | .removeRoute n _ _ _ | .proceed n _ => some n
  | .syncItem _ _ => none

namespace Cluster

variable {ι : Type}

/-- Nothing is stored and nothing runs. -/
def start : Cluster ι where
  nodes := fun _ => ⟨RoutingTable.empty, []⟩
  store := fun _ => none
  calls := fun _ => none

/-- What storage answers to `GetRoute`. -/
def getRoute (s : Cluster ι) (key : String) (env : StepEnv) : Except String Route.Config :=
  match env.storage with
  | some err => .error err
  | none =>
      match s.store key with
      | none => .error "RouteNotFoundError"
      | some c => .ok c

section Steps

variable [DecidableEq ι]

/-- Change the table of an instance. -/
def setTable (nodes : ι → EarsInstance) (i : ι) (t : RoutingTable) : ι → EarsInstance :=
  Function.update nodes i { nodes i with table := t }

/-- `PublishSyncRequest`: all other instances get the event. -/
def publishSyncRequest (nodes : ι → EarsInstance) (i : ι) (m : Delta) : ι → EarsInstance :=
  fun j => if j = i then nodes j else { nodes j with inbox := (nodes j).inbox ++ [m] }

/-- The next step of a call on instance `i`. -/
def advance (region : ι → String) (s : Cluster ι) (n : ℕ) (i : ι) (env : StepEnv) :
    DeltaPhase → Cluster ι
  | .register c =>
      let r := (s.nodes i).table.registerAndRunRoute (region i) c env.plugins
      { s with
        nodes := setTable s.nodes i r.1
        calls := Function.update s.calls n
          (match r.2 with
          | some _ => none
          | none => some (i, .setRoute c)) }
  | .setRoute c =>
      match env.storage with
      | some _ =>
          { s with
            nodes := setTable s.nodes i
              ((s.nodes i).table.unregisterAndStopRoute c.tenantId c.id).1
            calls := Function.update s.calls n none }
      | none =>
          { s with
            store := Function.update s.store c.key (some c)
            calls := Function.update s.calls n (some (i, .publishAdd c)) }
  | .publishAdd c =>
      { s with
        nodes := publishSyncRequest s.nodes i ⟨c.tenantId, c.id, true⟩
        calls := Function.update s.calls n none }
  | .deleteRoute tid routeId =>
      { s with
        store :=
          match env.storage with
          | some _ => s.store
          | none => Function.update s.store (tid.keyWithRoute routeId) none
        calls := Function.update s.calls n (some (i, .publishRemove tid routeId)) }
  | .publishRemove tid routeId =>
      { s with
        nodes := publishSyncRequest s.nodes i ⟨tid, routeId, false⟩
        calls := Function.update s.calls n (some (i, .unregister tid routeId)) }
  | .unregister tid routeId =>
      { s with
        nodes := setTable s.nodes i ((s.nodes i).table.unregisterAndStopRoute tid routeId).1
        calls := Function.update s.calls n none }

/-- One step of the cluster.  A call with a configuration that is rejected, or a removal
without an id, returns at once. -/
def step (region : ι → String) (s : Cluster ι) : ClusterAction ι → Option (Cluster ι)
  | .addRoute n i routeConfig getFragment =>
      match s.calls n with
      | some _ => none
      | none =>
          match RoutingTable.prepare getFragment routeConfig with
          | .error _ => some s
          | .ok c => some { s with calls := Function.update s.calls n (some (i, .register c)) }
  | .removeRoute n i tid routeId =>
      match s.calls n with
      | some _ => none
      | none =>
          if routeId = "" then some s
          else some { s with
            calls := Function.update s.calls n (some (i, .deleteRoute tid routeId)) }
  | .proceed n env =>
      match s.calls n with
      | none => none
      | some (i, p) => some (advance region s n i env p)
  | .syncItem i env =>
      match (s.nodes i).inbox with
      | [] => none
      | m :: rest =>
          some { s with
            nodes := Function.update s.nodes i
              ⟨((s.nodes i).table.syncItem (region i) m.tid m.routeId m.add (s.getRoute m.key env)
                env.plugins).1, rest⟩ }

end Steps

/-- The events about a route that wait at an instance. -/
def waiting (s : Cluster ι) (i : ι) (key : String) : List Bool :=
  ((s.nodes i).inbox.filter fun m => m.key = key).map Delta.add

/-- All calls have returned and all events are handled. -/
def Quiet (s : Cluster ι) : Prop := (∀ n, s.calls n = none) ∧ ∀ i, (s.nodes i).inbox = []

/-- No call on its way has the property. -/
def NoCall (s : Cluster ι) (Q : ι → DeltaPhase → Bool) : Prop :=
  ∀ n i p, s.calls n = some (i, p) → Q i p = false

/-- The rules that keep the instances together. -/
inductive Rule where
  /-- A route is registered when no call is between deleting and unregistering it. -/
  | registerUnremoved
  /-- A route is registered when no call on the same instance is about to store it. -/
  | registerAlone
  /-- A route is registered when the last event about it that waits there is not a removal. -/
  | registerTold
  /-- A route is deleted when no call is about to store it. -/
  | deleteStored
  /-- The last event about a route that waits at an instance is not handled while a call there is
  about to store the route. -/
  | syncStored
  deriving DecidableEq

/-- The action meets the rule, when `noCall` tells which calls are not on their way. -/
def Rule.Met [DecidableEq ι] (noCall : (ι → DeltaPhase → Bool) → Prop) (s : Cluster ι) :
    Rule → ClusterAction ι → Prop
  | .registerUnremoved, .proceed n _ => ∀ x ∈ s.calls n, ∀ c ∈ x.2.registers,
      noCall fun _ p => p.removes ∧ p.key = c.key
  | .registerAlone, .proceed n _ => ∀ x ∈ s.calls n, ∀ c ∈ x.2.registers,
      noCall fun j p => j = x.1 ∧ p.stores ∧ p.key = c.key
  | .registerTold, .proceed n _ => ∀ x ∈ s.calls n, ∀ c ∈ x.2.registers,
      (s.waiting x.1 c.key).getLast? ≠ some false
  | .deleteStored, .proceed n _ => ∀ x ∈ s.calls n, ∀ key ∈ x.2.deletes,
      noCall fun _ p => p.stores ∧ p.key = key
  | .syncStored, .syncItem i _ => ∀ m ∈ (s.nodes i).inbox.head?,
      (s.waiting i m.key).length = 1 → noCall fun j p => j = i ∧ p.stores ∧ p.key = m.key
  | _, _ => True

/-- The steps that keep the instances together: nothing fails, and all rules are met. -/
def Orderly [DecidableEq ι] (s : Cluster ι) (a : ClusterAction ι) : Prop :=
  a.Succeeds ∧ ∀ r : Rule, r.Met s.NoCall s a

/-- The configurations that a run adds. -/
def addedConfigs (as : List (ClusterAction ι)) : Set Route.Config :=
  { c | ∃ n i routeConfig getFragment, ClusterAction.addRoute n i routeConfig getFragment ∈ as ∧
    RoutingTable.prepare getFragment routeConfig = .ok c }

/-! ## A call that runs alone -/

section Alone

variable [DecidableEq ι] {region : ι → String} {s : Cluster ι} {n : ℕ} {i : ι} {env : StepEnv}

/-- The steps of an `AddRoute` that runs alone make up the method, for a configuration that
shares its filter chain with no live route. -/
theorem addRoute_alone {rc : Option Route.Config}
    {getFragment : Tenant.Id → String → Except String Route.PluginConfig} {c : Route.Config}
    (hslot : s.calls n = none) (hprep : RoutingTable.prepare getFragment rc = .ok c)
    (halone : (s.nodes i).table.writeFragments getFragment rc = (s.nodes i).table)
    (henv : env.Succeeds) :
    ∃ s', Runs.run (step region) s [.addRoute n i rc getFragment, .proceed n env, .proceed n env,
        .proceed n env] = some s' ∧
      (s'.nodes i).table =
        ((s.nodes i).table.addRoute (region i) rc ⟨getFragment, env.plugins, env.storage⟩).1 ∧
      s'.store = Function.update s.store c.key (some c) := by
  have hreg := RoutingTable.registerAndRunRoute_succeeds (region i) (s.nodes i).table c henv.1
  have hadd : ((s.nodes i).table.addRoute (region i) rc
      ⟨getFragment, env.plugins, env.storage⟩).1 =
      ((s.nodes i).table.registerAndRunRoute (region i) c env.plugins).1 := by
    rcases RoutingTable.addRoute_cases (region i) (s.nodes i).table rc
      ⟨getFragment, env.plugins, env.storage⟩ halone with
      ⟨e, he, -⟩ | ⟨d, hd, ⟨e, he, -⟩ | ⟨e, -, he, -⟩ |
      ⟨-, -, heq⟩⟩
    · rw [hprep] at he
      simp at he
    · rw [← Except.ok.inj (hprep.symm.trans hd), hreg] at he
      simp at he
    · rw [henv.2] at he
      simp at he
    · rw [heq, ← Except.ok.inj (hprep.symm.trans hd)]
  rw [hadd]
  simp only [Runs.run, step, hslot, hprep, Option.bind_some, Function.update_self, advance, hreg,
    henv.2]
  refine ⟨_, rfl, ?_, rfl⟩
  simp [publishSyncRequest, setTable]

/-- The steps of a `RemoveRoute` that runs alone make up the method. -/
theorem removeRoute_alone {tid : Tenant.Id} {routeId : String} (hslot : s.calls n = none)
    (hid : routeId ≠ "") (henv : env.Succeeds) :
    ∃ s', Runs.run (step region) s [.removeRoute n i tid routeId, .proceed n env, .proceed n env,
        .proceed n env] = some s' ∧
      (s'.nodes i).table = ((s.nodes i).table.removeRoute tid routeId env.storage).1 ∧
      s'.store = Function.update s.store (tid.keyWithRoute routeId) none := by
  rw [RoutingTable.removeRoute_table, if_neg hid]
  simp only [Runs.run, step, hslot, if_neg hid, Option.bind_some, Function.update_self, advance,
    henv.2]
  refine ⟨_, rfl, ?_, rfl⟩
  simp [publishSyncRequest, setTable]

end Alone

/-! ## One route -/

/-- What an instance should have live for a stored route. -/
def goal (region : ι → String) (i : ι) (c : Route.Config) : Option String :=
  if RoutingTable.RunsHere (region i) c then some c.hash else none

/-- A call, seen from one route. -/
def callView (key : String) : Option (ι × DeltaPhase) → Option (ι × Replicas.Phase Route.Config)
  | none => none
  | some (i, p) => if p.key = key then some (i, p.view) else none

/-- The cluster, seen from one route. -/
def view (s : Cluster ι) (key : String) : Replicas.State ι Route.Config String where
  stored := s.store key
  live := fun i => (s.nodes i).table.hashAt key
  inbox := fun i => s.waiting i key
  calls := fun n => callView key (s.calls n)

variable {region : ι → String} {s s' : Cluster ι} {n : ℕ} {i : ι} {p : DeltaPhase} {key : String}
  {env : StepEnv} {S : Set Route.Config}

theorem callView_eq_some {o : Option (ι × DeltaPhase)} {q : Replicas.Phase Route.Config} :
    callView key o = some (i, q) ↔ ∃ p, o = some (i, p) ∧ p.key = key ∧ p.view = q := by
  cases o with
  | none => simp [callView]
  | some x =>
      obtain ⟨j, p⟩ := x
      show (if p.key = key then some (j, p.view) else none) = some (i, q) ↔ _
      split
      · rename_i hkey
        simp only [Option.some.injEq, Prod.mk.injEq]
        constructor
        · rintro ⟨rfl, rfl⟩
          exact ⟨p, ⟨rfl, rfl⟩, hkey, rfl⟩
        · rintro ⟨p', ⟨rfl, rfl⟩, -, rfl⟩
          exact ⟨rfl, rfl⟩
      · rename_i hkey
        simp only [Option.some.injEq, Prod.mk.injEq, reduceCtorEq, false_iff]
        rintro ⟨p', ⟨-, rfl⟩, hkey', -⟩
        exact hkey hkey'

/-- A change of one slot, seen from one route. -/
theorem callView_update (calls : ℕ → Option (ι × DeltaPhase)) (o : Option (ι × DeltaPhase)) :
    (fun m => callView key (Function.update calls n o m)) =
      Function.update (fun m => callView key (calls m)) n (callView key o) := by
  funext m
  rcases eq_or_ne m n with rfl | hne
  · rw [Function.update_self, Function.update_self]
  · rw [Function.update_of_ne hne, Function.update_of_ne hne]

/-! ## The invariant of the cluster -/

/-- The table of an instance is sound and holds known routes of its region only. -/
def Fine (region : ι → String) (S : Set Route.Config) (i : ι) (t : RoutingTable) : Prop :=
  t.Sound ∧ ∀ key d, t.entry key = some d → RoutingTable.RunsHere (region i) d ∧ d ∈ S

/-- The tables are fine, the store holds routes under their keys, and seen from each route the
instances are replicas that keep together. -/
structure Inv (region : ι → String) (S : Set Route.Config) (s : Cluster ι) : Prop where
  fine : ∀ i, Fine region S i (s.nodes i).table
  stored : ∀ key c, s.store key = some c → c.key = key ∧ c ∈ S
  pending : ∀ n i p c, s.calls n = some (i, p) → p.Adds c → c ∈ S
  view : ∀ key, Replicas.Inv (goal region) (s.view key)

theorem Inv.sound (h : Inv region S s) (i : ι) : (s.nodes i).table.Sound := (h.fine i).1

theorem Fine.register {t : RoutingTable} (h : Fine region S i t) {c : Route.Config} (hc : c ∈ S)
    (answers : ℕ → Answers) : Fine region S i (t.registerAndRunRoute (region i) c answers).1 :=
  ⟨(h.1.registerAndRunRoute (region i) c answers).1,
    h.1.register_forall h.2 fun hruns => ⟨hruns, hc⟩⟩

theorem Fine.unregister {t : RoutingTable} (h : Fine region S i t) (tid : Tenant.Id)
    (routeId : String) : Fine region S i (t.unregisterAndStopRoute tid routeId).1 :=
  ⟨(h.1.unregisterAndStopRoute tid routeId).2,
    RoutingTable.unregisterAndStopRoute_entries tid routeId h.2⟩

/-- A successful registration, seen from one route. -/
theorem Inv.register_hashAt (h : Inv region S s) (hfree : Route.CollisionFree S)
    (henv : env.Succeeds) {c : Route.Config} (hc : c ∈ S) (i : ι) (key : String) :
    ((s.nodes i).table.registerAndRunRoute (region i) c env.plugins).1.hashAt key =
      if key = c.key then goal region i c else (s.nodes i).table.hashAt key := by
  refine (h.sound i).register_hashAt
    (RoutingTable.registerAndRunRoute_succeeds (region i) _ c henv.1) ?_ key
  -- a live route with the hash of the new one is the same route, so the new one runs here too
  intro heq
  obtain ⟨d, hd, hhash⟩ := RoutingTable.hashAt_eq_some.mp heq
  obtain ⟨hruns, hdS⟩ := (h.fine i).2 _ d hd
  have hs := hfree d hdS c hc hhash
  unfold RoutingTable.RunsHere at hruns ⊢
  rwa [← hs.region, ← hs.inactive]

/-- What handling an event does to the table of the instance, seen from one route. -/
theorem Inv.syncItem_hashAt (h : Inv region S s) (hfree : Route.CollisionFree S)
    (henv : env.Succeeds) (i : ι) (m : Delta) (key : String) :
    ((s.nodes i).table.syncItem (region i) m.tid m.routeId m.add (s.getRoute m.key env)
      env.plugins).1.hashAt key =
      if m.key = key then
        Replicas.receive (goal region) i (s.store key) ((s.nodes i).table.hashAt key) m.add
      else (s.nodes i).table.hashAt key := by
  unfold RoutingTable.syncItem getRoute
  rw [henv.2]
  cases hadd : m.add with
  | false =>
      show ((s.nodes i).table.unregisterAndStopRoute m.tid m.routeId).1.hashAt key = _
      rw [RoutingTable.unregisterAndStopRoute_hashAt]
      show (if key = m.key then none else _) = _
      simp only [eq_comm, Replicas.receive]
  | true =>
      dsimp only
      cases hc : s.store m.key with
      | none =>
          show (s.nodes i).table.hashAt key = _
          split
          · rename_i hkey
            subst hkey
            rw [hc]
            rfl
          · rfl
      | some c =>
          obtain ⟨hkey, hcS⟩ := h.stored m.key c hc
          show ((s.nodes i).table.registerAndRunRoute (region i) c env.plugins).1.hashAt key = _
          rw [h.register_hashAt hfree henv hcS, hkey]
          split
          · rename_i heq
            subst heq
            rw [if_pos rfl, hc]
            rfl
          · rename_i hne
            rw [if_neg (Ne.symm hne)]

/-! ## Steps, seen from one route -/

/-- A slot change of a call about another route is not seen. -/
theorem callView_other (hcall : s.calls n = some (i, p)) (hkey : p.key ≠ key)
    {o : Option (ι × DeltaPhase)} (ho : callView key o = none) :
    (fun m => callView key (Function.update s.calls n o m)) = (s.view key).calls := by
  rw [callView_update, ho]
  have hnone : callView key (s.calls n) = none := by
    rw [hcall]
    exact if_neg hkey
  rw [← hnone]
  exact Function.update_eq_self n fun m => callView key (s.calls m)

/-- A slot change of a call about the route. -/
theorem callView_own {q : DeltaPhase} (hkey : q.key = key) :
    (fun m => callView key (Function.update s.calls n (some (i, q)) m)) =
      Function.update (s.view key).calls n (some (i, q.view)) := by
  rw [callView_update]
  congr 1
  exact if_pos hkey

/-- A new call, seen from its route and from the others. -/
theorem view_newCall (hslot : s.calls n = none) (i : ι) (p : DeltaPhase) (key : String) :
    (p.key ≠ key → ({ s with calls := Function.update s.calls n (some (i, p)) } : Cluster ι).view key =
        s.view key) ∧
      (p.key = key → ({ s with calls := Function.update s.calls n (some (i, p)) } : Cluster ι).view key =
        { s.view key with calls := Function.update (s.view key).calls n (some (i, p.view)) }) := by
  constructor
  · intro hkey
    refine Replicas.State.ext rfl rfl rfl ((callView_update s.calls (some (i, p))).trans ?_)
    have hnone : callView key (some (i, p)) = callView key (s.calls n) := by
      rw [hslot]
      exact if_neg hkey
    rw [hnone]
    exact Function.update_eq_self n (s.view key).calls
  · intro hkey
    exact Replicas.State.ext rfl rfl rfl (callView_own hkey)

variable [DecidableEq ι]

/-- A change of one table, seen from one route. -/
theorem live_setTable (nodes : ι → EarsInstance) (t : RoutingTable) :
    (fun j => (setTable nodes i t j).table.hashAt key) =
      Function.update (fun j => (nodes j).table.hashAt key) i (t.hashAt key) := by
  funext j
  unfold setTable
  rcases eq_or_ne j i with rfl | hne
  · rw [Function.update_self, Function.update_self]
  · rw [Function.update_of_ne hne, Function.update_of_ne hne]

theorem waiting_setTable (t : RoutingTable) :
    (fun j => ((setTable s.nodes i t j).inbox.filter fun m => m.key = key).map Delta.add) =
      (s.view key).inbox := by
  funext j
  unfold setTable
  rcases eq_or_ne j i with rfl | hne
  · rw [Function.update_self]
    rfl
  · rw [Function.update_of_ne hne]
    rfl

theorem live_publish (m : Delta) :
    (fun j => (publishSyncRequest s.nodes i m j).table.hashAt key) = (s.view key).live := by
  funext j
  unfold publishSyncRequest
  split <;> rfl

/-- An event that is published, seen from its route and from the others. -/
theorem waiting_publish (m : Delta) :
    (fun j => ((publishSyncRequest s.nodes i m j).inbox.filter fun m => m.key = key).map Delta.add) =
      if m.key = key then Replicas.publish (s.view key).inbox i m.add else (s.view key).inbox := by
  split
  · rename_i hkey
    funext j
    unfold publishSyncRequest Replicas.publish
    split
    · rfl
    · simp [hkey, view, waiting]
  · rename_i hkey
    funext j
    unfold publishSyncRequest
    split
    · rfl
    · simp [hkey, view, waiting]

/-- A call about another route is not seen. -/
theorem Inv.view_other (h : Inv region S s) (hfree : Route.CollisionFree S) (henv : env.Succeeds)
    (hcall : s.calls n = some (i, p)) (hkey : p.key ≠ key) :
    (advance region s n i env p).view key = s.view key := by
  have hlive : ∀ t : RoutingTable, t.hashAt key = (s.nodes i).table.hashAt key →
      (fun j => (setTable s.nodes i t j).table.hashAt key) = (s.view key).live := by
    intro t ht
    rw [live_setTable, ht]
    exact Function.update_eq_self i fun j => (s.nodes j).table.hashAt key
  have hstore : ∀ o, p.key ≠ key → Function.update s.store p.key o key = s.store key :=
    fun o hne => Function.update_of_ne hne.symm _ _
  cases p with
  | register c =>
      have hc : c ∈ S := h.pending n i _ c hcall (Or.inl rfl)
      have hnone := RoutingTable.registerAndRunRoute_succeeds (region i) (s.nodes i).table c henv.1
      refine Replicas.State.ext rfl (hlive _ ?_) (waiting_setTable _)
        (callView_other hcall hkey ?_)
      · rw [h.register_hashAt hfree henv hc]
        exact if_neg (Ne.symm hkey)
      · rw [hnone]
        exact if_neg hkey
  | setRoute c =>
      unfold advance
      rw [henv.2]
      exact Replicas.State.ext (hstore _ hkey) rfl rfl (callView_other hcall hkey (if_neg hkey))
  | publishAdd c =>
      exact Replicas.State.ext rfl (live_publish _) ((waiting_publish _).trans (if_neg hkey))
        (callView_other hcall hkey rfl)
  | deleteRoute tid routeId =>
      unfold advance
      rw [henv.2]
      exact Replicas.State.ext (hstore _ hkey) rfl rfl (callView_other hcall hkey (if_neg hkey))
  | publishRemove tid routeId =>
      exact Replicas.State.ext rfl (live_publish _) ((waiting_publish _).trans (if_neg hkey))
        (callView_other hcall hkey (if_neg hkey))
  | unregister tid routeId =>
      refine Replicas.State.ext rfl (hlive _ ?_) (waiting_setTable _)
        (callView_other hcall hkey rfl)
      rw [RoutingTable.unregisterAndStopRoute_hashAt]
      exact if_neg (Ne.symm hkey)

/-- A call about the route is a step of the replicas. -/
theorem Inv.view_own (h : Inv region S s) (hfree : Route.CollisionFree S) (henv : env.Succeeds)
    (hcall : s.calls n = some (i, p)) (hkey : p.key = key) :
    (advance region s n i env p).view key =
      Replicas.advance (goal region) (s.view key) n i p.view := by
  subst hkey
  cases p with
  | register c =>
      have hc : c ∈ S := h.pending n i _ c hcall (Or.inl rfl)
      have hnone := RoutingTable.registerAndRunRoute_succeeds (region i) (s.nodes i).table c henv.1
      refine Replicas.State.ext rfl ?_ (waiting_setTable _) ?_
      · refine (live_setTable _ _).trans ?_
        rw [h.register_hashAt hfree henv hc]
        exact congrArg _ (if_pos rfl)
      · unfold advance
        dsimp only
        rw [hnone]
        exact callView_own rfl
  | setRoute c =>
      unfold advance
      rw [henv.2]
      exact Replicas.State.ext (Function.update_self _ _ _) rfl rfl (callView_own rfl)
  | publishAdd c =>
      exact Replicas.State.ext rfl (live_publish _) ((waiting_publish _).trans (if_pos rfl))
        (callView_update _ _)
  | deleteRoute tid routeId =>
      unfold advance
      rw [henv.2]
      exact Replicas.State.ext (Function.update_self _ _ _) rfl rfl (callView_own rfl)
  | publishRemove tid routeId =>
      exact Replicas.State.ext rfl (live_publish _) ((waiting_publish _).trans (if_pos rfl))
        (callView_own rfl)
  | unregister tid routeId =>
      refine Replicas.State.ext rfl ?_ (waiting_setTable _) (callView_update _ _)
      refine (live_setTable _ _).trans ?_
      rw [RoutingTable.unregisterAndStopRoute_hashAt]
      exact congrArg _ (if_pos rfl)

/-- Handling an event, seen from its route and from the others. -/
theorem Inv.view_sync (h : Inv region S s) (hfree : Route.CollisionFree S) (henv : env.Succeeds)
    {m : Delta} {rest : List Delta} (hinbox : (s.nodes i).inbox = m :: rest)
    (hs : step region s (.syncItem i env) = some s') (key : String) :
    (m.key ≠ key → s'.view key = s.view key) ∧
      (m.key = key → Replicas.step (goal region) (s.view key) (.deliver i) = some (s'.view key)) := by
  simp only [step, hinbox, Option.some.injEq] at hs
  have hlive : (s'.view key).live = Function.update (s.view key).live i
      (if m.key = key then
        Replicas.receive (goal region) i (s.store key) ((s.nodes i).table.hashAt key) m.add
      else (s.nodes i).table.hashAt key) := by
    rw [← h.syncItem_hashAt hfree henv, ← hs]
    funext j
    show (Function.update s.nodes i _ j).table.hashAt key = _
    rcases eq_or_ne j i with rfl | hne
    · rw [Function.update_self, Function.update_self]
    · rw [Function.update_of_ne hne, Function.update_of_ne hne]
      rfl
  have hwait : (s'.view key).inbox =
      Function.update (s.view key).inbox i ((rest.filter fun m => m.key = key).map Delta.add) := by
    rw [← hs]
    funext j
    show ((Function.update s.nodes i _ j).inbox.filter _).map _ = _
    rcases eq_or_ne j i with rfl | hne
    · rw [Function.update_self, Function.update_self]
    · rw [Function.update_of_ne hne, Function.update_of_ne hne]
      rfl
  have hstored : (s'.view key).stored = (s.view key).stored := by rw [← hs]; rfl
  have hcalls : (s'.view key).calls = (s.view key).calls := by rw [← hs]; rfl
  constructor
  · -- the event is of another route: the table and the filtered inbox are as before
    intro hkey
    refine Replicas.State.ext hstored ?_ ?_ hcalls
    · rw [hlive, if_neg hkey]
      exact Function.update_eq_self i (s.view key).live
    · have hsame : (rest.filter fun m => m.key = key).map Delta.add = (s.view key).inbox i := by
        show _ = ((s.nodes i).inbox.filter fun m => m.key = key).map Delta.add
        rw [hinbox, List.filter_cons_of_neg (by simpa using hkey)]
      rw [hwait, hsame]
      exact Function.update_eq_self i (s.view key).inbox
  · intro hkey
    have hown : (s.view key).inbox i =
        m.add :: (rest.filter fun m => m.key = key).map Delta.add := by
      show ((s.nodes i).inbox.filter fun m => m.key = key).map Delta.add = _
      rw [hinbox, List.filter_cons_of_pos (by simpa using hkey), List.map_cons]
    simp only [Replicas.step, hown, Option.some.injEq]
    refine Replicas.State.ext hstored.symm ?_ hwait.symm hcalls.symm
    rw [hlive, if_pos hkey]
    rfl

/-- The configurations of an action are known. -/
def Known (S : Set Route.Config) : ClusterAction ι → Prop
  | .addRoute _ _ routeConfig getFragment =>
      ∀ c, RoutingTable.prepare getFragment routeConfig = .ok c → c ∈ S
  | _ => True

theorem removes_iff {p : DeltaPhase} : p.view.Removes ↔ p.removes = true := by
  cases p <;> simp [DeltaPhase.view, DeltaPhase.removes, Replicas.Phase.Removes]

omit [DecidableEq ι] in
/-- A call that is about to write, seen from a route. -/
theorem callView_write {o : Option (ι × DeltaPhase)} {c : Route.Config}
    (h : callView key o = some (i, .write c)) :
    ∃ p, o = some (i, p) ∧ p.stores = true ∧ p.key = key := by
  obtain ⟨p, rfl, hkey, hp⟩ := callView_eq_some.mp h
  refine ⟨p, rfl, ?_, hkey⟩
  cases p <;> simp_all [DeltaPhase.view, DeltaPhase.stores]

/-- An orderly step of a call is orderly, seen from a route. -/
theorem Orderly.proceed (ha : Orderly s (.proceed n env)) (key : String) :
    Replicas.Orderly (s.view key) (.proceed n) := by
  constructor
  · intro i c hn
    obtain ⟨p, hcall, rfl, hp⟩ := callView_eq_some.mp hn
    have hc : c ∈ p.registers := by
      cases p <;> simp_all [DeltaPhase.view, DeltaPhase.registers]
    have hkey : c.key = p.key := by
      cases p <;> simp_all [DeltaPhase.registers, DeltaPhase.key]
    refine ⟨fun m j q hm hq => ?_, fun m d hm => ?_, ?_⟩
    · obtain ⟨p', hcall', hkey', rfl⟩ := callView_eq_some.mp hm
      have hno := ha.2 .registerUnremoved (i, p) hcall c hc m j p' hcall'
      simp [removes_iff.mp hq, hkey', hkey] at hno
    · obtain ⟨p', hcall', hstores, hkey'⟩ := callView_write hm
      have hno := ha.2 .registerAlone (i, p) hcall c hc m i p' hcall'
      simp [hstores, hkey', hkey] at hno
    · rw [← hkey]
      exact ha.2 .registerTold (i, p) hcall c hc
  · intro i hn m j d hm
    obtain ⟨p, hcall, rfl, hp⟩ := callView_eq_some.mp hn
    have hkey : p.key ∈ p.deletes := by
      cases p <;> simp_all [DeltaPhase.view, DeltaPhase.deletes, DeltaPhase.key]
    obtain ⟨p', hcall', hstores, hkey'⟩ := callView_write hm
    have hno := ha.2 .deleteStored (i, p) hcall p.key hkey m j p' hcall'
    simp [hstores, hkey'] at hno

/-- An orderly step of the cluster is an orderly step of the replicas of a route, or not seen
from that route. -/
theorem Inv.view_step (h : Inv region S s) (hfree : Route.CollisionFree S) {a : ClusterAction ι}
    (ha : Orderly s a) (hs : step region s a = some s') (key : String) :
    s'.view key = s.view key ∨ ∃ e, Replicas.Orderly (s.view key) e ∧
      Replicas.step (goal region) (s.view key) e = some (s'.view key) := by
  cases a with
  | addRoute n i rc gf =>
      cases hslot : s.calls n with
      | some x => simp [step, hslot] at hs
      | none =>
          have hview : (s.view key).calls n = none := by
            show callView key (s.calls n) = none
            rw [hslot]
            rfl
          cases hprep : RoutingTable.prepare gf rc with
          | error err =>
              simp only [step, hslot, hprep, Option.some.injEq] at hs
              exact Or.inl (by rw [hs])
          | ok c =>
              simp only [step, hslot, hprep, Option.some.injEq] at hs
              obtain ⟨hunseen, hseen⟩ := view_newCall hslot i (.register c) key
              rw [hs] at hunseen hseen
              rcases eq_or_ne c.key key with rfl | hkey
              · refine Or.inr ⟨.put n i c, trivial, ?_⟩
                simp only [Replicas.step, hview, hseen rfl]
                rfl
              · exact Or.inl (hunseen hkey)
  | removeRoute n i tid routeId =>
      cases hslot : s.calls n with
      | some x => simp [step, hslot] at hs
      | none =>
          have hview : (s.view key).calls n = none := by
            show callView key (s.calls n) = none
            rw [hslot]
            rfl
          simp only [step, hslot] at hs
          split at hs
          · exact Or.inl (by rw [Option.some.inj hs])
          · obtain ⟨hunseen, hseen⟩ := view_newCall hslot i (.deleteRoute tid routeId) key
            rw [Option.some.inj hs] at hunseen hseen
            rcases eq_or_ne (tid.keyWithRoute routeId) key with rfl | hkey
            · refine Or.inr ⟨.remove n i, trivial, ?_⟩
              simp only [Replicas.step, hview, hseen rfl]
              rfl
            · exact Or.inl (hunseen hkey)
  | proceed n env =>
      cases hcall : s.calls n with
      | none => simp [step, hcall] at hs
      | some x =>
          obtain ⟨i, p⟩ := x
          simp only [step, hcall, Option.some.injEq] at hs
          subst hs
          rcases eq_or_ne p.key key with hkey | hkey
          · refine Or.inr ⟨.proceed n, ha.proceed key, ?_⟩
            have hview : (s.view key).calls n = some (i, p.view) :=
              callView_eq_some.mpr ⟨p, hcall, hkey, rfl⟩
            simp only [Replicas.step, hview, h.view_own hfree ha.1 hcall hkey]
          · exact Or.inl (h.view_other hfree ha.1 hcall hkey)
  | syncItem i env =>
      cases hinbox : (s.nodes i).inbox with
      | nil => simp [step, hinbox] at hs
      | cons m rest =>
          obtain ⟨hother, hown⟩ := h.view_sync hfree ha.1 hinbox hs key
          rcases eq_or_ne m.key key with hkey | hkey
          · refine Or.inr ⟨.deliver i, ?_, hown hkey⟩
            -- no call is about to store the route whose last event is handled
            intro hlen n c hn
            subst hkey
            obtain ⟨p, hcall, hstores, hkey'⟩ := callView_write hn
            have hno := ha.2 .syncStored m (by rw [hinbox]; rfl) hlen n i p hcall
            simp [hstores, hkey'] at hno
          · exact Or.inl (hother hkey)

/-! ## Runs -/

omit [DecidableEq ι] in
theorem inv_start (region : ι → String) (S : Set Route.Config) : Inv region S start where
  fine := fun _ => ⟨RoutingTable.sound_empty,
    fun key d hd => absurd hd (by simp [RoutingTable.entry, start, RoutingTable.empty])⟩
  stored := fun key c hc => absurd hc (by simp [start])
  pending := fun n i p c hn => absurd hn (by simp [start])
  view := fun key =>
    { settled := fun i => Or.inl rfl
      apart := fun n m i j p c hn => absurd hn (by simp [view, start, callView])
      single := fun n m i c d hn => absurd hn (by simp [view, start, callView])
      write := fun n i c hn => absurd hn (by simp [view, start, callView])
      removed := fun n i p hn => absurd hn (by simp [view, start, callView]) }

theorem fine_setTable (h : Inv region S s) {t : RoutingTable} (ht : Fine region S i t) (j : ι) :
    Fine region S j (setTable s.nodes i t j).table := by
  unfold setTable
  rcases eq_or_ne j i with rfl | hne
  · rw [Function.update_self]
    exact ht
  · rw [Function.update_of_ne hne]
    exact h.fine j

theorem fine_publish (h : Inv region S s) (m : Delta) (j : ι) :
    Fine region S j (publishSyncRequest s.nodes i m j).table := by
  unfold publishSyncRequest
  split
  · exact h.fine j
  · exact h.fine j

omit [DecidableEq ι] in
/-- The calls after a slot change, if the new call adds a known route. -/
theorem pending_update (h : Inv region S s) {o : Option (ι × DeltaPhase)}
    (ho : ∀ i p c, o = some (i, p) → p.Adds c → c ∈ S) :
    ∀ m i p c, Function.update s.calls n o m = some (i, p) → p.Adds c → c ∈ S := by
  intro m i p c hm hp
  rcases eq_or_ne m n with rfl | hne
  · rw [Function.update_self] at hm
    exact ho i p c hm hp
  · rw [Function.update_of_ne hne] at hm
    exact h.pending m i p c hm hp

/-- The next step of a call keeps the tables, the store and the calls in order. -/
theorem Inv.advance_fine (h : Inv region S s) (hcall : s.calls n = some (i, p))
    (henv : env.Succeeds) :
    (∀ j, Fine region S j ((advance region s n i env p).nodes j).table) ∧
      (∀ key c, (advance region s n i env p).store key = some c → c.key = key ∧ c ∈ S) ∧
      ∀ m j q c, (advance region s n i env p).calls m = some (j, q) → q.Adds c → c ∈ S := by
  cases p with
  | register c =>
      -- the route that is registered is the one the call was made with
      have hc : c ∈ S := h.pending n i _ c hcall (Or.inl rfl)
      refine ⟨fine_setTable h ((h.fine i).register hc env.plugins), h.stored, pending_update h ?_⟩
      intro j q d hd hq
      split at hd
      · simp at hd
      · obtain ⟨-, rfl⟩ := Prod.mk.inj (Option.some.inj hd)
        simp only [DeltaPhase.Adds, reduceCtorEq, DeltaPhase.setRoute.injEq, false_or,
          or_false] at hq
        exact hq ▸ hc
  | setRoute c =>
      have hc : c ∈ S := h.pending n i _ c hcall (Or.inr (Or.inl rfl))
      unfold advance
      rw [henv.2]
      refine ⟨h.fine, ?_, pending_update h ?_⟩
      · intro key d hd
        rcases eq_or_ne key c.key with rfl | hne
        · obtain rfl : c = d := by simpa using hd
          exact ⟨rfl, hc⟩
        · exact h.stored key d (by simpa [Function.update_of_ne hne] using hd)
      · intro j q d hd hq
        obtain ⟨-, rfl⟩ := Prod.mk.inj (Option.some.inj hd)
        simp only [DeltaPhase.Adds, reduceCtorEq, DeltaPhase.publishAdd.injEq, false_or] at hq
        exact hq ▸ hc
  | publishAdd c =>
      exact ⟨fine_publish h _, h.stored, pending_update h fun _ _ _ hd => by simp at hd⟩
  | deleteRoute tid routeId =>
      unfold advance
      rw [henv.2]
      refine ⟨h.fine, ?_, pending_update h ?_⟩
      · intro key d hd
        rcases eq_or_ne key (tid.keyWithRoute routeId) with rfl | hne
        · simp at hd
        · exact h.stored key d (by simpa [Function.update_of_ne hne] using hd)
      · intro j q d hd hq
        obtain ⟨-, rfl⟩ := Prod.mk.inj (Option.some.inj hd)
        simp [DeltaPhase.Adds] at hq
  | publishRemove tid routeId =>
      refine ⟨fine_publish h _, h.stored, pending_update h ?_⟩
      intro j q d hd hq
      obtain ⟨-, rfl⟩ := Prod.mk.inj (Option.some.inj hd)
      simp [DeltaPhase.Adds] at hq
  | unregister tid routeId =>
      exact ⟨fine_setTable h ((h.fine i).unregister tid routeId), h.stored,
        pending_update h fun _ _ _ hd => by simp at hd⟩

/-- Every orderly step keeps the invariant. -/
theorem Inv.step (h : Inv region S s) (hfree : Route.CollisionFree S) {a : ClusterAction ι}
    (ha : Orderly s a) (hknown : Known S a) (hs : step region s a = some s') : Inv region S s' := by
  have hview : ∀ key, Replicas.Inv (goal region) (s'.view key) := by
    intro key
    rcases h.view_step hfree ha hs key with heq | ⟨e, he, hstep⟩
    · rw [heq]
      exact h.view key
    · exact (h.view key).step he hstep
  -- the replicas of each route are in order; what is left are tables, store and calls
  suffices hrest : (∀ j, Fine region S j (s'.nodes j).table) ∧
      (∀ key c, s'.store key = some c → c.key = key ∧ c ∈ S) ∧
      ∀ m j q c, s'.calls m = some (j, q) → q.Adds c → c ∈ S from
    ⟨hrest.1, hrest.2.1, hrest.2.2, hview⟩
  clear hview
  cases a with
  | addRoute n i rc gf =>
      cases hslot : s.calls n with
      | some x => simp [Cluster.step, hslot] at hs
      | none =>
          cases hprep : RoutingTable.prepare gf rc with
          | error err =>
              simp only [Cluster.step, hslot, hprep, Option.some.injEq] at hs
              exact hs ▸ ⟨h.fine, h.stored, h.pending⟩
          | ok c =>
              simp only [Cluster.step, hslot, hprep, Option.some.injEq] at hs
              rw [← hs]
              refine ⟨h.fine, h.stored, pending_update h ?_⟩
              intro j q d hd hq
              obtain ⟨-, rfl⟩ := Prod.mk.inj (Option.some.inj hd)
              simp only [DeltaPhase.Adds, reduceCtorEq, DeltaPhase.register.injEq, or_false] at hq
              exact hq ▸ hknown c hprep
  | removeRoute n i tid routeId =>
      cases hslot : s.calls n with
      | some x => simp [Cluster.step, hslot] at hs
      | none =>
          simp only [Cluster.step, hslot] at hs
          split at hs
          · exact Option.some.inj hs ▸ ⟨h.fine, h.stored, h.pending⟩
          · rw [← Option.some.inj hs]
            refine ⟨h.fine, h.stored, pending_update h ?_⟩
            intro j q d hd hq
            obtain ⟨-, rfl⟩ := Prod.mk.inj (Option.some.inj hd)
            simp [DeltaPhase.Adds] at hq
  | proceed n env =>
      cases hcall : s.calls n with
      | none => simp [Cluster.step, hcall] at hs
      | some x =>
          simp only [Cluster.step, hcall, Option.some.injEq] at hs
          rw [← hs]
          exact h.advance_fine hcall ha.1
  | syncItem i env =>
      cases hinbox : (s.nodes i).inbox with
      | nil => simp [Cluster.step, hinbox] at hs
      | cons m rest =>
          simp only [Cluster.step, hinbox, Option.some.injEq] at hs
          rw [← hs]
          refine ⟨fun j => ?_, h.stored, h.pending⟩
          show Fine region S j (Function.update s.nodes i _ j).table
          rcases eq_or_ne j i with rfl | hne
          · rw [Function.update_self]
            unfold RoutingTable.syncItem getRoute
            rw [show env.storage = none from ha.1.2]
            cases m.add with
            | false => exact (h.fine j).unregister m.tid m.routeId
            | true =>
                cases hc : s.store m.key with
                | none => exact h.fine j
                | some c => exact (h.fine j).register (h.stored m.key c hc).2 env.plugins
          · rw [Function.update_of_ne hne]
            exact h.fine j

omit [DecidableEq ι] in
/-- Seen from a route, a quiet cluster is quiet. -/
theorem Quiet.view (h : s.Quiet) (key : String) : Replicas.Quiet (s.view key) := by
  refine ⟨fun n => ?_, fun i => ?_⟩
  · show callView key (s.calls n) = none
    rw [h.1 n]
    rfl
  · show ((s.nodes i).inbox.filter fun m => m.key = key).map Delta.add = []
    rw [h.2 i]
    rfl

theorem inv_of_run {as : List (ClusterAction ι)} (hfree : Route.CollisionFree (addedConfigs as))
    (horderly : Runs.Along (step region) Orderly start as)
    (hrun : Runs.run (step region) start as = some s) : Inv region (addedConfigs as) s := by
  have hknown : ∀ a ∈ as, Known (addedConfigs as) a := by
    intro a ha
    cases a with
    | addRoute n i rc gf => exact fun c hc => ⟨n, i, rc, gf, ha, hc⟩
    | removeRoute n i tid routeId => trivial
    | proceed n env => trivial
    | syncItem i env => trivial
  exact Runs.run_induction_along
    (fun _ _ _ h ha hs => h.step hfree ha.1 ha.2 hs) (inv_start region _)
    (horderly.and hknown) hrun

/-- The next step of a call changes no other slot. -/
theorem advance_calls (s : Cluster ι) {m : ℕ} (hm : m ≠ n) (i : ι) (env : StepEnv)
    (p : DeltaPhase) : (advance region s n i env p).calls m = s.calls m := by
  cases p with
  | setRoute c =>
      unfold advance
      cases env.storage with
      | none => exact Function.update_of_ne hm _ _
      | some err => exact Function.update_of_ne hm _ _
  | register c => exact Function.update_of_ne hm _ _
  | publishAdd c => exact Function.update_of_ne hm _ _
  | deleteRoute tid routeId => exact Function.update_of_ne hm _ _
  | publishRemove tid routeId => exact Function.update_of_ne hm _ _
  | unregister tid routeId => exact Function.update_of_ne hm _ _

/-- An action changes no slot but its own. -/
theorem step_calls {a : ClusterAction ι} (hs : step region s a = some s')
    (ha : a.slot ≠ some n) : s'.calls n = s.calls n := by
  cases a with
  | addRoute m i rc gf =>
      have hne : n ≠ m := fun heq => ha (congrArg some heq.symm)
      cases hslot : s.calls m with
      | some x => simp [step, hslot] at hs
      | none =>
          simp only [step, hslot] at hs
          split at hs
          · rw [Option.some.inj hs]
          · rw [← Option.some.inj hs]
            exact Function.update_of_ne hne _ _
  | removeRoute m i tid routeId =>
      have hne : n ≠ m := fun heq => ha (congrArg some heq.symm)
      cases hslot : s.calls m with
      | some x => simp [step, hslot] at hs
      | none =>
          simp only [step, hslot] at hs
          split at hs
          · rw [Option.some.inj hs]
          · rw [← Option.some.inj hs]
            exact Function.update_of_ne hne _ _
  | proceed m env =>
      have hne : n ≠ m := fun heq => ha (congrArg some heq.symm)
      cases hcall : s.calls m with
      | none => simp [step, hcall] at hs
      | some x =>
          simp only [step, hcall, Option.some.injEq] at hs
          rw [← hs, advance_calls s hne]
  | syncItem i env =>
      cases hinbox : (s.nodes i).inbox with
      | nil => simp [step, hinbox] at hs
      | cons m rest =>
          simp only [step, hinbox, Option.some.injEq] at hs
          rw [← hs]

/-- No slot from `k` on is used. -/
def Below (k : ℕ) (s : Cluster ι) : Prop := ∀ n, k ≤ n → s.calls n = none

/-- No call in a slot below `k` has the property. -/
def NoCallBelow (k : ℕ) (s : Cluster ι) (Q : ι → DeltaPhase → Bool) : Prop :=
  ∀ n < k, ∀ x ∈ s.calls n, Q x.1 x.2 = false

instance (k : ℕ) (s : Cluster ι) (Q : ι → DeltaPhase → Bool) : Decidable (s.NoCallBelow k Q) :=
  inferInstanceAs (Decidable (∀ n < k, ∀ x ∈ s.calls n, Q x.1 x.2 = false))

instance (k : ℕ) (s : Cluster ι) (r : Rule) (a : ClusterAction ι) :
    Decidable (r.Met (s.NoCallBelow k) s a) := by
  cases r <;> cases a <;> dsimp only [Rule.Met] <;> infer_instance

/-- The action uses a slot below `k` and meets the rules, as far as these slots tell. -/
def Meets (k : ℕ) (rules : List Rule) (s : Cluster ι) (a : ClusterAction ι) : Prop :=
  (∀ n ∈ a.slot, n < k) ∧ ∀ r ∈ rules, r.Met (s.NoCallBelow k) s a

instance (k : ℕ) (rules : List Rule) (s : Cluster ι) (a : ClusterAction ι) :
    Decidable (Meets k rules s a) := inferInstanceAs (Decidable (_ ∧ _))

theorem Rule.Met.mono {r : Rule} {a : ClusterAction ι}
    {noCall noCall' : (ι → DeltaPhase → Bool) → Prop}
    (himp : ∀ Q, noCall Q → noCall' Q) (h : r.Met noCall s a) : r.Met noCall' s a := by
  cases r with
  | registerTold => cases a <;> exact h
  | registerUnremoved =>
      cases a with
      | proceed n env => exact fun x hx c hc => himp _ (h x hx c hc)
      | _ => trivial
  | registerAlone =>
      cases a with
      | proceed n env => exact fun x hx c hc => himp _ (h x hx c hc)
      | _ => trivial
  | deleteStored =>
      cases a with
      | proceed n env => exact fun x hx key hkey => himp _ (h x hx key hkey)
      | _ => trivial
  | syncStored =>
      cases a with
      | syncItem i env => exact fun m hm hlen => himp _ (h m hm hlen)
      | _ => trivial

omit [DecidableEq ι] in
theorem Below.noCall {k : ℕ} (h : s.Below k) {Q : ι → DeltaPhase → Bool} (hQ : s.NoCallBelow k Q) :
    s.NoCall Q := by
  intro n i p hn
  rcases Nat.lt_or_ge n k with hlt | hge
  · exact hQ n hlt (i, p) hn
  · rw [h n hge] at hn
    simp at hn

theorem Below.step {k : ℕ} (h : s.Below k) {a : ClusterAction ι} (ha : ∀ n ∈ a.slot, n < k)
    (hs : step region s a = some s') : s'.Below k := by
  intro n hn
  rw [step_calls hs fun hslot => absurd (ha n hslot) (by omega), h n hn]

/-- All calls below `k` have returned and all events are handled. -/
def quietBelow (k : ℕ) (s : Cluster Bool) : Bool :=
  (∀ n < k, (s.calls n).isNone) ∧ ∀ i, (s.nodes i).inbox.isEmpty

theorem Below.quiet {k : ℕ} {s : Cluster Bool} (h : s.Below k) (hquiet : s.quietBelow k) :
    s.Quiet := by
  obtain ⟨hcalls, hinbox⟩ := of_decide_eq_true hquiet
  refine ⟨fun n => ?_, fun i => List.isEmpty_iff.mp (hinbox i)⟩
  rcases Nat.lt_or_ge n k with hlt | hge
  · exact Option.isNone_iff_eq_none.mp (hcalls n hlt)
  · exact h n hge

/-- Answers with which nothing fails. -/
def sampleStep : StepEnv := { plugins := RoutingTable.sampleEnv.plugins }

theorem sampleStep_succeeds : sampleStep.Succeeds := ⟨fun _ => ⟨rfl, ⟨"h", rfl⟩, rfl, rfl⟩, rfl⟩

/-- Two versions of a route. -/
def sampleVersion (other : Bool) : Route.Config :=
  RoutingTable.sampleRoute "r1" (if other then "other" else "")

/-- The actions of two instances that add and remove these versions. -/
inductive SampleAction where
  | add (n : ℕ) (i : Bool) (other : Bool)
  | remove (n : ℕ) (i : Bool)
  | next (n : ℕ)
  | sync (i : Bool)

def SampleAction.action : SampleAction → ClusterAction Bool
  | .add n i other => .addRoute n i (some (sampleVersion other)) RoutingTable.sampleEnv.getFragment
  | .remove n i => .removeRoute n i ⟨"acme", "tv"⟩ "r1"
  | .next n => .proceed n sampleStep
  | .sync i => .syncItem i sampleStep

variable {acts : List SampleAction}

theorem sample_succeeds : ∀ a ∈ acts.map SampleAction.action, a.Succeeds := by
  intro a ha
  obtain ⟨b, -, rfl⟩ := List.mem_map.mp ha
  cases b with
  | add n i other => trivial
  | remove n i => trivial
  | next n => exact sampleStep_succeeds
  | sync i => exact sampleStep_succeeds

end Cluster
