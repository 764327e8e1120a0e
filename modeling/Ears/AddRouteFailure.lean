/-
# A failed `AddRoute`

`AddRoute` can fail before it touches the table (a fragment, the validation), while it
registers the plugins of the route, or when it stores the route; in the last two cases it
gives back what it has registered.  The route that was live under the key before is not
brought back.

`addRoute_error_unchanged_iff`: a failed call leaves the table as it was exactly when it
failed before the registration or the key was not on the table, and the fragments that it
has written are in the chain of no live route.
-/
import Ears.TableRefinement

open Plugin

namespace Plugin

/-- Two wrappers of the same plugin of the same tenant. -/
structure Wrapper.SamePlugin (w w' : Wrapper) : Prop where
  tid : w'.tid = w.tid
  name : w'.name = w.name
  plugin : w'.plugin = w.plugin
  hash : w'.hash = w.hash
  config : w'.inst.config = w.inst.config
  active : w'.active = w.active

/-- The registered wrappers are the same, up to their ids. -/
def Registry.Renamed (reg reg' : Registry) : Prop :=
  ∃ ρ : ℕ → ℕ, Set.InjOn ρ reg.wrapped ∧ reg'.wrapped = reg.wrapped.image ρ ∧
    ∀ id ∈ reg.wrapped, (reg.objects id).SamePlugin (reg'.objects (ρ id))

/-- The registered wrappers are the same, with their ids. -/
structure Registry.Kept (reg reg' : Registry) : Prop where
  wrapped : reg'.wrapped = reg.wrapped
  objects : ∀ id ∈ reg.wrapped, reg'.objects id = reg.objects id

namespace Registry

variable {reg reg' : Registry} {ids : List ℕ}

theorem Kept.refl (reg : Registry) : reg.Kept reg := ⟨rfl, fun _ _ => rfl⟩

theorem Kept.renamed (h : reg.Kept reg') : reg.Renamed reg' := by
  refine ⟨id, Set.injOn_id _, by rw [h.wrapped, Finset.image_id], fun id hid => ?_⟩
  show (reg.objects id).SamePlugin (reg'.objects id)
  rw [h.objects id hid]
  exact ⟨rfl, rfl, rfl, rfl, rfl, rfl⟩

/-- Taking back the wrappers that were registered leaves those there were before. -/
theorem Extends.drops_kept {reg'' : Registry} (h : reg.Extends reg' ids)
    (hd : reg'.Drops reg'' ids) (hs : reg.Sound) : reg.Kept reg'' :=
  ⟨h.drops_wrapped hd hs, fun id hid => h.drops_objects hd id (hs.lt_next hid)⟩

end Registry

end Plugin

namespace RoutingTable

/-! ## What stays the same -/

/-- The tables, the counters and the registered plugins are the same, up to the identities of
the live routes (`σ`) and of the plugins. -/
structure Unchanged (σ : ℕ → ℕ) (t t' : RoutingTable) : Prop where
  injOn : Set.InjOn σ { w | t.Live w }
  liveRouteMap : ∀ key, t'.liveRouteMap.lookup key = (t.liveRouteMap.lookup key).map σ
  routeHashMap : ∀ hash, t'.routeHashMap.lookup hash = (t.routeHashMap.lookup hash).map σ
  config : ∀ w, t.Live w → (t'.wrappers (σ w)).config = (t.wrappers w).config
  refCnt : ∀ w, t.Live w → (t'.wrappers (σ w)).refCnt = (t.wrappers w).refCnt
  receivers : t.pluginMgr.receivers.Renamed t'.pluginMgr.receivers
  filters : t.pluginMgr.filters.Renamed t'.pluginMgr.filters
  senders : t.pluginMgr.senders.Renamed t'.pluginMgr.senders

/-- The same, with all identities. -/
structure Restored (t t' : RoutingTable) : Prop where
  liveRouteMap : t'.liveRouteMap = t.liveRouteMap
  routeHashMap : t'.routeHashMap = t.routeHashMap
  wrappers : ∀ w, t.Live w → t'.wrappers w = t.wrappers w
  receivers : t.pluginMgr.receivers.Kept t'.pluginMgr.receivers
  filters : t.pluginMgr.filters.Kept t'.pluginMgr.filters
  senders : t.pluginMgr.senders.Kept t'.pluginMgr.senders

variable {t t' : RoutingTable} {w : ℕ} {c : Route.Config} {answers : ℕ → Answers} {region : String}

theorem Restored.refl (t : RoutingTable) : t.Restored t :=
  ⟨rfl, rfl, fun _ _ => rfl, Registry.Kept.refl _, Registry.Kept.refl _, Registry.Kept.refl _⟩

theorem Restored.unchanged (h : t.Restored t') : Unchanged id t t' where
  injOn := Set.injOn_id _
  liveRouteMap := fun key => by rw [h.liveRouteMap, Option.map_id, id]
  routeHashMap := fun hash => by rw [h.routeHashMap, Option.map_id, id]
  config := fun w hw => by rw [id, h.wrappers w hw]
  refCnt := fun w hw => by rw [id, h.wrappers w hw]
  receivers := h.receivers.renamed
  filters := h.filters.renamed
  senders := h.senders.renamed

/-- Nothing but a new object and plugins that were added and removed again. -/
theorem Sound.restored_of_removes (h : t.Sound) {l : LiveRouteWrapper} {m : Manager}
    (hadds : l.Adds t.pluginMgr m) (hrem : l.Removes m t'.pluginMgr)
    (hmap : t'.liveRouteMap = t.liveRouteMap) (hhash : t'.routeHashMap = t.routeHashMap)
    (hwrappers : ∀ w, w ≠ t.next → t'.wrappers w = t.wrappers w) : t.Restored t' where
  liveRouteMap := hmap
  routeHashMap := hhash
  wrappers := fun w hw => hwrappers w (h.receivers.bound w hw).ne
  receivers := hadds.receivers.drops_kept hrem.receivers h.mgr.receivers
  filters := hadds.filters.drops_kept hrem.filters h.mgr.filters
  senders := hadds.senders.drops_kept hrem.senders h.mgr.senders

/-! ## Entering a route and taking it off again -/

/-- A registration that fails restores the table. -/
theorem Sound.insertRoute_error (h : t.Sound) (hsome : (t.insertRoute c answers).2.isSome) :
    t.Restored (t.insertRoute c answers).1 ∧
      (LiveRouteWrapper.ManagerTight t.pluginMgr → (∀ i, (answers i).uuid = none) →
        LiveRouteWrapper.ManagerSame t.pluginMgr (t.insertRoute c answers).1.pluginMgr) := by
  obtain ⟨-, -, hcases, -⟩ := LiveRouteWrapper.register_spec
    (LiveRouteWrapper.newLiveRouteWrapper c) h.mgr ⟨rfl, rfl, rfl⟩ answers
  unfold RoutingTable.insertRoute at hsome ⊢
  cases hhash : t.routeHashMap.lookup c.hash with
  | some w =>
      rw [hhash] at hsome
      simp at hsome
  | none =>
      rw [hhash] at hsome
      dsimp only at hsome ⊢
      rcases hcases with ⟨hnone, -⟩ | ⟨hreg, m₁, hadds, hrem, htight⟩
      · rw [hnone] at hsome
        simp at hsome
      · obtain ⟨err, herr⟩ := Option.isSome_iff_exists.mp hreg
        rw [herr]
        refine ⟨h.restored_of_removes hadds hrem rfl rfl fun w hw => Function.update_of_ne hw _ _,
          fun ht huuid => ?_⟩
        exact hadds.removes_same hrem h.mgr ht (htight ht huuid)

/-- A route that is entered under a live hash and taken off again leaves no trace. -/
theorem Sound.shared_unregister (h : t.Sound) (hkey : t.liveRouteMap.lookup c.key = none)
    (hhash : t.routeHashMap.lookup c.hash = some w) :
    ((t.insertRoute c answers).1.unregisterAndStopRoute c.tenantId c.id).1 = t := by
  have hw : t.Live w := (h.unhashed c.hash w hhash).2
  have hpos := h.refCnt_pos hw
  have hlookup : (t.liveRouteMap.insert c.key w).lookup (c.tenantId.keyWithRoute c.id) = some w :=
    Finmap.lookup_insert _
  unfold RoutingTable.insertRoute RoutingTable.unregisterAndStopRoute
  rw [hhash]
  dsimp only
  rw [hlookup]
  dsimp only
  have hback : (t.wrappers w).addRouteReference.removeRouteReference = t.wrappers w := by
    unfold LiveRouteWrapper.addRouteReference LiveRouteWrapper.removeRouteReference
    rw [add_sub_cancel_right]
  have hself : Function.update t.wrappers w (t.wrappers w).addRouteReference w =
      (t.wrappers w).addRouteReference := Function.update_self _ _ _
  have hmap : (t.liveRouteMap.insert c.key w).erase (c.tenantId.keyWithRoute c.id) =
      t.liveRouteMap := Finmap.erase_insert_self hkey
  simp only [setWrapper, hself, hback, hmap, Function.update_idem, Function.update_eq_self]
  rw [if_neg (by omega)]

/-- A new route that is entered and taken off again restores the table. -/
theorem Sound.new_unregister (h : t.Sound) (hkey : t.liveRouteMap.lookup c.key = none)
    (hhash : t.routeHashMap.lookup c.hash = none) (hnone : (t.insertRoute c answers).2 = none) :
    t.Restored ((t.insertRoute c answers).1.unregisterAndStopRoute c.tenantId c.id).1 ∧
      (LiveRouteWrapper.ManagerTight t.pluginMgr → (∀ i, (answers i).uuid = none) →
        LiveRouteWrapper.ManagerSame t.pluginMgr
          ((t.insertRoute c answers).1.unregisterAndStopRoute c.tenantId c.id).1.pluginMgr) := by
  obtain ⟨hconfig, hcnt, hcases, htight⟩ := LiveRouteWrapper.register_spec
    (LiveRouteWrapper.newLiveRouteWrapper c) h.mgr ⟨rfl, rfl, rfl⟩ answers
  have hlookup : (t.liveRouteMap.insert c.key t.next).lookup (c.tenantId.keyWithRoute c.id) =
      some t.next := Finmap.lookup_insert _
  unfold RoutingTable.insertRoute at hnone ⊢
  rw [hhash] at hnone ⊢
  dsimp only at hnone ⊢
  rcases hcases with ⟨hreg, hadds, -⟩ | ⟨hreg, -⟩
  · rw [hreg]
    set l := ((LiveRouteWrapper.newLiveRouteWrapper c).register t.pluginMgr answers).2.1
    set m := ((LiveRouteWrapper.newLiveRouteWrapper c).register t.pluginMgr answers).1
    have hconfig' : l.config = c := hconfig
    have hzero : l.removeRouteReference.refCnt = 0 := by
      show l.refCnt - 1 = 0
      rw [hcnt]
      rfl
    -- what the registration has added is what the unregistration removes
    have hheld : l.removeRouteReference.Held m :=
      ⟨hadds.held.receivers, hadds.held.filters, hadds.held.senders, hadds.held.nodup⟩
    have hrem : l.Removes m (l.removeRouteReference.unregister m).1 := by
      have hun := (LiveRouteWrapper.unregister_spec hadds.sound hheld).2
      exact ⟨hun.receivers, hun.filters, hun.senders⟩
    have hself : Function.update t.wrappers t.next l t.next = l := Function.update_self _ _ _
    unfold RoutingTable.unregisterAndStopRoute
    simp only [hlookup, setWrapper, hself, if_pos hzero]
    constructor
    · apply h.restored_of_removes hadds hrem
      · exact Finmap.erase_insert_self hkey
      · show (t.routeHashMap.insert c.hash t.next).erase l.config.hash = t.routeHashMap
        rw [hconfig']
        exact Finmap.erase_insert_self hhash
      · intro w hw
        show Function.update (Function.update t.wrappers t.next l) t.next _ w = t.wrappers w
        rw [Function.update_of_ne hw, Function.update_of_ne hw]
    · intro ht huuid
      exact hadds.removes_same hrem h.mgr ht (htight ht huuid)
  · obtain ⟨err, herr⟩ := Option.isSome_iff_exists.mp hreg
    rw [herr] at hnone
    simp at hnone

/-! ## The whole call -/

variable {rc : Option Route.Config} {env : AddEnv} {err : RouteError}

theorem managerSame_refl (m : Manager) : LiveRouteWrapper.ManagerSame m m :=
  ⟨⟨rfl, rfl, rfl, fun _ _ => rfl⟩, ⟨rfl, rfl, rfl, fun _ _ => rfl⟩,
    ⟨rfl, rfl, rfl, fun _ _ => rfl⟩⟩

theorem unregister_of_none {tid : Tenant.Id} {routeId : String}
    (hkey : t.liveRouteMap.lookup (tid.keyWithRoute routeId) = none) :
    t.unregisterAndStopRoute tid routeId = (t, none) := by
  unfold RoutingTable.unregisterAndStopRoute
  dsimp only
  rw [hkey]

/-- What the table is restored to is what the writes have left of it. -/
theorem Op.Spares.restored (hop : (Op.addRoute rc env).Spares t)
    (h : (t.writeFragments env.getFragment rc).Restored t') : t.Restored t' := by
  have hw := writeFragments_rewritten t env.getFragment rc
  exact {
    liveRouteMap := h.liveRouteMap.trans hw.liveRouteMap
    routeHashMap := h.routeHashMap.trans hw.routeHashMap
    wrappers := fun w hl => (h.wrappers w (hw.live.mpr hl)).trans (hop.wrappers hl)
    receivers := hw.pluginMgr ▸ h.receivers
    filters := hw.pluginMgr ▸ h.filters
    senders := hw.pluginMgr ▸ h.senders }

/-- A call that fails after the validation leaves the key off the table. -/
theorem addRoute_error_lookup (hprep : prepare env.getFragment rc = .ok c)
    (herr : (t.addRoute region rc env).2 = .error err) :
    (t.addRoute region rc env).1.liveRouteMap.lookup c.key = none := by
  rcases addRoute_cases region t rc env rfl with ⟨e, he, -⟩ | ⟨d, hd, hcases⟩
  · rw [hprep] at he
    simp at he
  · obtain rfl : c = d := by
      rw [hprep] at hd
      exact Except.ok.inj hd
    rcases hcases with ⟨e, hsome, heq⟩ | ⟨e, -, -, heq⟩ | ⟨-, -, heq⟩
    · rw [heq]
      exact registerAndRunRoute_error_lookup (by rw [hsome]; rfl)
    · rw [heq, (unregisterAndStopRoute_frame _ _ _).1]
      exact Finmap.lookup_erase _ _
    · rw [heq] at herr
      simp at herr

/-- A call that fails leaves the entries of the other keys as the writes have left them. -/
theorem addRoute_entry_of_ne (hlt : ∀ w, t.Live w → w < t.next) {key : String}
    (hkey : ∀ c, prepare env.getFragment rc = .ok c → key ≠ c.key) :
    (t.addRoute region rc env).1.entry key =
      (t.writeFragments env.getFragment rc).entry key := by
  have hwrite := writeFragments_rewritten t env.getFragment rc
  have hlt₀ : ∀ w, (t.writeFragments env.getFragment rc).Live w →
      w < (t.writeFragments env.getFragment rc).next := by
    intro w hw
    rw [hwrite.next]
    exact hlt w (hwrite.live.mp hw)
  rcases addRoute_cases region t rc env rfl with ⟨e, -, heq⟩ | ⟨c, hc, ⟨e, -, heq⟩ |
    ⟨e, -, -, heq⟩ | ⟨-, -, heq⟩⟩
  · rw [heq]
  · rw [heq]
    exact registerAndRunRoute_entry_of_ne hlt₀ (hkey c hc)
  · rw [heq, unregisterAndStopRoute_entry, ← registerAndRunRoute_entry_of_ne hlt₀ (hkey c hc)]
    exact if_neg (hkey c hc)
  · rw [heq]
    exact registerAndRunRoute_entry_of_ne hlt₀ (hkey c hc)

/-- The same table has the same entries. -/
theorem Unchanged.entry {σ : ℕ → ℕ} (h : Unchanged σ t t') : t'.entry = t.entry := by
  funext key
  unfold RoutingTable.entry
  rw [h.liveRouteMap, Option.map_map]
  cases hkey : t.liveRouteMap.lookup key with
  | none => rfl
  | some w => exact congrArg some (h.config w ⟨key, hkey⟩)

/-- A call that has changed the configuration of a live route has changed the table, if the key
of its own route was not there. -/
theorem spares_of_unchanged {σ : ℕ → ℕ} (hlt : ∀ w, t.Live w → w < t.next)
    (hkey : ∀ c, prepare env.getFragment rc = .ok c → t.liveRouteMap.lookup c.key = none)
    (h : Unchanged σ t (t.addRoute region rc env).1) : (Op.addRoute rc env).Spares t := by
  rw [spares_iff]
  rintro w ⟨key, hw⟩
  have hne : ∀ c, prepare env.getFragment rc = .ok c → key ≠ c.key := by
    rintro c hc rfl
    rw [hkey c hc] at hw
    simp at hw
  have hentry : (t.addRoute region rc env).1.entry key =
      (t.writeFragments env.getFragment rc).entry key := addRoute_entry_of_ne hlt hne
  rw [h.entry, entry_eq_some.mpr ⟨w, hw, rfl⟩] at hentry
  obtain ⟨w', hw', heq⟩ := entry_eq_some.mp hentry.symm
  rw [(writeFragments_rewritten t env.getFragment rc).liveRouteMap, hw] at hw'
  obtain rfl := Option.some.inj hw'
  exact heq

/-- A call that fails restores the table if it spares the live routes and the key was not
there. -/
theorem Sound.addRoute_error_restored (h : t.Sound) (hop : (Op.addRoute rc env).Spares t)
    (hprep : prepare env.getFragment rc = .ok c) (hkey : t.liveRouteMap.lookup c.key = none)
    (herr : (t.addRoute region rc env).2 = .error err) :
    t.Restored (t.addRoute region rc env).1 ∧
      (LiveRouteWrapper.ManagerTight t.pluginMgr → (∀ i, (env.plugins i).uuid = none) →
        LiveRouteWrapper.ManagerSame t.pluginMgr (t.addRoute region rc env).1.pluginMgr) := by
  have hwrite := writeFragments_rewritten t env.getFragment rc
  have h₀ := h.writeFragments hop
  suffices hres : (t.writeFragments env.getFragment rc).Restored (t.addRoute region rc env).1 ∧
      (LiveRouteWrapper.ManagerTight t.pluginMgr → (∀ i, (env.plugins i).uuid = none) →
        LiveRouteWrapper.ManagerSame t.pluginMgr (t.addRoute region rc env).1.pluginMgr) from
    ⟨hop.restored hres.1, hres.2⟩
  rw [← hwrite.liveRouteMap] at hkey
  rw [← hwrite.pluginMgr]
  have hcases := addRoute_cases region t rc env rfl
  generalize t.writeFragments env.getFragment rc = t₀ at *
  have hstart : t₀.registerAndRunRoute region c env.plugins =
      if RunsHere region c then t₀.insertRoute c env.plugins else (t₀, none) := by
    rw [← startRoute_eq]
    unfold RoutingTable.registerAndRunRoute
    rw [hkey]
  rcases hcases with ⟨e, he, -⟩ | ⟨d, hd, hcases⟩
  · rw [hprep] at he
    simp at he
  · obtain rfl : c = d := by
      rw [hprep] at hd
      exact Except.ok.inj hd
    rw [hstart] at hcases
    rcases hcases with ⟨e, hsome, heq⟩ | ⟨e, hnone, -, heq⟩ | ⟨-, -, heq⟩
    · -- the registration failed and has given back what it had
      rw [heq]
      split at hsome
      · rename_i hruns
        rw [if_pos hruns]
        exact h₀.insertRoute_error (by rw [hsome]; rfl)
      · simp at hsome
    · -- the store failed, and the route is taken off again
      rw [heq]
      split at hnone
      · rename_i hruns
        rw [if_pos hruns]
        cases hhash : t₀.routeHashMap.lookup c.hash with
        | none => exact h₀.new_unregister hkey hhash hnone
        | some w =>
            rw [h₀.shared_unregister hkey hhash]
            exact ⟨Restored.refl t₀, fun _ _ => managerSame_refl _⟩
      · rename_i hruns
        rw [if_neg hruns, unregister_of_none hkey]
        exact ⟨Restored.refl t₀, fun _ _ => managerSame_refl _⟩
    · rw [heq] at herr
      simp at herr

/-! ## Instances without wrappers -/

/-- `uuid.NewRandom` does not fail during the call. -/
def Op.MakesIds : Op → Prop
  | .addRoute _ env => ∀ i, (env.plugins i).uuid = none
  | .removeRoute _ _ _ => True
  | .syncItem _ _ _ _ answers => ∀ i, (answers i).uuid = none

/-- Taking a route off the table leaves no instance behind. -/
theorem Sound.tight_unregister (h : t.Sound) (ht : LiveRouteWrapper.ManagerTight t.pluginMgr)
    (tid : Tenant.Id) (routeId : String) :
    LiveRouteWrapper.ManagerTight (t.unregisterAndStopRoute tid routeId).1.pluginMgr := by
  unfold RoutingTable.unregisterAndStopRoute
  dsimp only
  cases hkey : t.liveRouteMap.lookup (tid.keyWithRoute routeId) with
  | none => exact ht
  | some w =>
      have hheld := h.held ⟨_, hkey⟩
      have hheld' : (t.wrappers w).removeRouteReference.Held t.pluginMgr :=
        ⟨hheld.receivers, hheld.filters, hheld.senders, hheld.nodup⟩
      dsimp only
      split
      · exact (LiveRouteWrapper.unregister_spec h.mgr hheld').2.tight ht
      · exact ht

/-- Entering a route leaves no instance without wrappers. -/
theorem Sound.tight_insert (h : t.Sound) (ht : LiveRouteWrapper.ManagerTight t.pluginMgr)
    (c : Route.Config) (huuid : ∀ i, (answers i).uuid = none) :
    LiveRouteWrapper.ManagerTight (t.insertRoute c answers).1.pluginMgr := by
  unfold RoutingTable.insertRoute
  split
  · exact ht
  · obtain ⟨-, -, -, htight⟩ := LiveRouteWrapper.register_spec
      (LiveRouteWrapper.newLiveRouteWrapper c) h.mgr ⟨rfl, rfl, rfl⟩ answers
    dsimp only
    split
    · exact htight ht huuid
    · exact htight ht huuid

theorem Sound.tight_register (h : t.Sound) (ht : LiveRouteWrapper.ManagerTight t.pluginMgr)
    (region : String) (c : Route.Config) (huuid : ∀ i, (answers i).uuid = none) :
    LiveRouteWrapper.ManagerTight (t.registerAndRunRoute region c answers).1.pluginMgr := by
  have hun := h.tight_unregister ht c.tenantId c.id
  rw [registerAndRunRoute_eq]
  split
  · exact ht
  · rw [startRoute_eq]
    split
    · exact (h.unregisterAndStopRoute c.tenantId c.id).2.tight_insert hun c huuid
    · exact hun

theorem Sound.tight_step (h : t.Sound) (ht : LiveRouteWrapper.ManagerTight t.pluginMgr) {op : Op}
    (hids : op.MakesIds) (hop : op.Spares t) (hs : t.step region op = some t') :
    LiveRouteWrapper.ManagerTight t'.pluginMgr := by
  cases op with
  | addRoute rc env =>
      obtain rfl := Option.some.inj hs
      have h₀ := h.writeFragments hop
      rw [← (writeFragments_rewritten t env.getFragment rc).pluginMgr] at ht
      rcases addRoute_cases region t rc env rfl with ⟨err, -, heq⟩ | ⟨c, -, ⟨err, -, heq⟩ |
        ⟨err, -, -, heq⟩ | ⟨-, -, heq⟩⟩
      · rw [heq]
        exact ht
      · rw [heq]
        exact h₀.tight_register ht region c hids
      · rw [heq]
        exact (h₀.registerAndRunRoute region c env.plugins).1.tight_unregister
          (h₀.tight_register ht region c hids) _ _
      · rw [heq]
        exact h₀.tight_register ht region c hids
  | removeRoute tid routeId deleteRoute =>
      obtain rfl := Option.some.inj hs
      rw [removeRoute_table]
      split
      · exact ht
      · exact h.tight_unregister ht tid routeId
  | syncItem tid routeId add getRoute answers =>
      obtain rfl := Option.some.inj hs
      unfold RoutingTable.syncItem
      cases add with
      | true =>
          cases getRoute with
          | error err => exact ht
          | ok c => exact h.tight_register ht region c hids
      | false => exact h.tight_unregister ht tid routeId

/-- No instance without wrappers is left behind while ids can be made. -/
theorem tight_of_run {ops : List Op} (hspare : Sparing region ops)
    (hids : ∀ op ∈ ops, op.MakesIds) (hrun : Runs.run (step region) empty ops = some t) :
    LiveRouteWrapper.ManagerTight t.pluginMgr := by
  have hinv := Runs.run_induction_along
    (P := fun t => t.Sound ∧ LiveRouteWrapper.ManagerTight t.pluginMgr) ?_
    ⟨sound_empty, Registry.Tight.empty, Registry.Tight.empty, Registry.Tight.empty⟩
    (hspare.and hids) hrun
  · exact hinv.2
  · rintro t op t' h ⟨hop, hids⟩ hs
    exact ⟨h.1.step hop hs, h.1.tight_step h.2 hids hop hs⟩

/-- **When a failed `AddRoute` changes nothing.**  In every state that calls lead to which spare
the live routes: the two tables, the counters and the registered plugins are what they were
exactly when the configuration was rejected or its key was not on the table, and the call has
spared the live routes.  If moreover ids could always be made, then the plugin manager holds
the same instances with the same counts. -/
theorem addRoute_error_unchanged_iff {ops : List Op} (hspare : Sparing region ops)
    (hrun : Runs.run (step region) empty ops = some t)
    (herr : (t.addRoute region rc env).2 = .error err) :
    ((∃ σ, Unchanged σ t (t.addRoute region rc env).1) ↔
      (∀ c, prepare env.getFragment rc = .ok c → t.liveRouteMap.lookup c.key = none) ∧
        (Op.addRoute rc env).Spares t) ∧
    ((∀ op ∈ ops, op.MakesIds) → (∀ i, (env.plugins i).uuid = none) →
      (∀ c, prepare env.getFragment rc = .ok c → t.liveRouteMap.lookup c.key = none) →
      (Op.addRoute rc env).Spares t →
      LiveRouteWrapper.ManagerSame t.pluginMgr (t.addRoute region rc env).1.pluginMgr) := by
  have hsound := sound_of_run hspare hrun
  have hlt : ∀ w, t.Live w → w < t.next := hsound.receivers.bound
  have hnone : ∀ σ, Unchanged σ t (t.addRoute region rc env).1 →
      ∀ c, prepare env.getFragment rc = .ok c → t.liveRouteMap.lookup c.key = none := by
    intro σ hsame c hprep
    have hlookup := addRoute_error_lookup hprep herr
    rwa [hsame.liveRouteMap, Option.map_eq_none_iff] at hlookup
  cases hprep : prepare env.getFragment rc with
  | error e =>
      have heq : (t.addRoute region rc env).1 = t.writeFragments env.getFragment rc := by
        unfold RoutingTable.addRoute
        rw [hprep]
      rw [heq] at hnone ⊢
      refine ⟨⟨fun ⟨σ, hsame⟩ => ⟨fun c hc => by simp at hc, ?_⟩, fun ⟨_, hop⟩ => ⟨id, ?_⟩⟩, ?_⟩
      · have hsame' : Unchanged σ t (t.addRoute region rc env).1 := heq.symm ▸ hsame
        exact spares_of_unchanged hlt (fun c hc => by simp [hprep] at hc) hsame'
      · exact (hop.restored (Restored.refl _)).unchanged
      · rw [(writeFragments_rewritten t env.getFragment rc).pluginMgr]
        exact fun _ _ _ _ => managerSame_refl _
  | ok c =>
      refine ⟨⟨fun ⟨σ, hsame⟩ => ?_, fun ⟨hkey, hop⟩ => ⟨id, ?_⟩⟩, fun hids huuid hkey hop => ?_⟩
      · rw [← hprep]
        exact ⟨hnone σ hsame, spares_of_unchanged hlt (hnone σ hsame) hsame⟩
      · exact (hsound.addRoute_error_restored hop hprep (hkey c rfl) herr).1.unchanged
      · exact (hsound.addRoute_error_restored hop hprep (hkey c rfl) herr).2
          (tight_of_run hspare hids hrun) huuid

/-- Surroundings in which storing the route fails. -/
def failingEnv : AddEnv := { sampleEnv with setRoute := some "write failed" }

/-- A route that cannot be stored is an error. -/
theorem addRoute_failing (region : String) (t : RoutingTable) {id name : String}
    (hvalid : (sampleRoute id name).validate = .ok ()) (hid : id ≠ "") :
    prepare failingEnv.getFragment (some (sampleRoute id name)) = .ok (sampleRoute id name) ∧
      (t.addRoute region (some (sampleRoute id name)) failingEnv).2 =
        .error (.plain "write failed") := by
  have hwith : withId (sampleRoute id name) = sampleRoute id name := if_neg hid
  have hprep : prepare failingEnv.getFragment (some (sampleRoute id name)) =
      .ok (sampleRoute id name) := by
    rw [prepare_of_no_fragments ⟨rfl, rfl, by simp [sampleRoute]⟩ (by rw [hwith]; exact hvalid),
      hwith]
  have hok : ∀ i, (failingEnv.plugins i).Succeeds := fun _ => ⟨rfl, ⟨"h", rfl⟩, rfl, rfl⟩
  have hreg := registerAndRunRoute_succeeds region t (sampleRoute id name) hok
  refine ⟨hprep, ?_⟩
  rcases addRoute_cases region t (some (sampleRoute id name)) failingEnv
    (writeFragments_of_no_fragments ⟨rfl, rfl, by simp [sampleRoute]⟩ t) with ⟨e, he, -⟩ |
    ⟨d, hd, ⟨e, hsome, -⟩ | ⟨e, -, he, heq⟩ | ⟨-, hnone, -⟩⟩
  · rw [hprep] at he
    simp at he
  · rw [← Except.ok.inj (hprep.symm.trans hd), hreg] at hsome
    simp at hsome
  · rw [heq, ← Option.some.inj he]
  · simp [failingEnv] at hnone

/-- A new route that cannot be stored changes nothing. -/
theorem addRoute_error_unchanged_new :
    ∃ t, Runs.run (step "us-west") empty
        [.addRoute (some (sampleRoute "r3" "other")) sampleEnv] = some t ∧
      (∃ err, (t.addRoute "us-west" (some (sampleRoute "r1" "")) failingEnv).2 = .error err) ∧
      ∃ σ, Unchanged σ t (t.addRoute "us-west" (some (sampleRoute "r1" "")) failingEnv).1 := by
  have heval : (Runs.run (step "us-west") empty
      [.addRoute (some (sampleRoute "r3" "other")) sampleEnv]).any (fun t =>
      t.liveRouteMap.lookup (sampleRoute "r1" "").key = none) := by
    decide +kernel
  obtain ⟨t, hrun, hkey⟩ := (Option.any_eq_true _ _).mp heval
  have hvalid : (sampleRoute "r1" "").validate = .ok () := by decide
  obtain ⟨hprep, herr⟩ := addRoute_failing "us-west" t hvalid (by decide)
  have hspare : Sparing "us-west" [.addRoute (some (sampleRoute "r3" "other")) sampleEnv] := by
    apply sparing_of_forall
    simp only [List.forall_mem_singleton]
    exact sample_spares _ _ _
  refine ⟨t, hrun, ⟨_, herr⟩, (addRoute_error_unchanged_iff hspare hrun herr).1.mpr
    ⟨fun c hc => ?_, sample_spares _ _ _ _⟩⟩
  rw [← Except.ok.inj (hprep.symm.trans hc)]
  exact of_decide_eq_true hkey

/-- An update that cannot be stored takes the route that was live off the table. -/
theorem failed_update_stops_route :
    ∃ t, Runs.run (step "us-west") empty [.addRoute (some (sampleRoute "r1" "")) sampleEnv] =
        some t ∧
      (∃ err, (t.addRoute "us-west" (some (sampleRoute "r1" "new")) failingEnv).2 = .error err) ∧
      ¬ ∃ σ, Unchanged σ t (t.addRoute "us-west" (some (sampleRoute "r1" "new")) failingEnv).1 := by
  have heval : (Runs.run (step "us-west") empty
      [.addRoute (some (sampleRoute "r1" "")) sampleEnv]).any (fun t =>
      t.liveRouteMap.lookup (sampleRoute "r1" "new").key = some 0) := by
    decide +kernel
  obtain ⟨t, hrun, hkey⟩ := (Option.any_eq_true _ _).mp heval
  have hvalid : (sampleRoute "r1" "new").validate = .ok () := by decide
  obtain ⟨hprep, herr⟩ := addRoute_failing "us-west" t hvalid (by decide)
  refine ⟨t, hrun, ⟨_, herr⟩, ?_⟩
  rintro ⟨σ, hsame⟩
  have hnone := addRoute_error_lookup hprep herr
  rw [hsame.liveRouteMap, of_decide_eq_true hkey] at hnone
  simp at hnone

end RoutingTable
