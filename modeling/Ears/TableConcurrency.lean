/-
# The routing table under concurrent calls

`registerAndRunRoute` holds the lock of the table in up to three sections, and other calls
can run between them.  A call is modelled by what it will do in its next section (`Call`),
and a run interleaves the sections of any number of calls.  A call that runs alone does
what the method of `RoutingTable` does (`run_alone`).

The last section enters the key without looking again whether the key is on the table.
`consistent_iff_keyFree` says that this is the only thing that can go wrong: the counters
and the two tables agree in all states of a run exactly when every route that is entered
finds its key free.
-/
import Ears.TableRefinement

open Plugin

namespace RoutingTable

variable {t : RoutingTable} {w : ℕ} {c : Route.Config} {answers : ℕ → Answers} {region : String}

/-! ## What has to hold in every state -/

/-- A route with registered plugins counts the keys that refer to it, and there is one; the
two tables lead to the same routes. -/
structure Consistent (t : RoutingTable) : Prop where
  refCnt : ∀ w < t.next, ¬ t.Released w →
    (t.wrappers w).refCnt = (t.liveRouteMap.fiber w).card ∧ 1 ≤ (t.wrappers w).refCnt
  values : ∀ w, (∃ hash, t.routeHashMap.lookup hash = some w) ↔ t.Live w

theorem Sound.consistent (h : t.Sound) : t.Consistent where
  refCnt := by
    intro w hw hheld
    have hlive : t.Live w := by
      by_contra hnot
      exact hheld (h.released hw hnot)
    exact ⟨h.refCnt w hlive, h.refCnt_pos hlive⟩
  values := by
    intro w
    constructor
    · rintro ⟨hash, hw⟩
      exact (h.unhashed hash w hw).2
    · rintro ⟨key, hw⟩
      exact ⟨_, h.hashed key w hw⟩

/-- The plugins of the route are registered, so the route holds some. -/
theorem not_released (hcomplete : (t.wrappers w).Complete) (hheld : (t.wrappers w).Held t.pluginMgr) :
    ¬ t.Released w := by
  intro hrel
  obtain ⟨id, hid⟩ := Option.isSome_iff_exists.mp hcomplete.1
  have hmem : id ∈ (t.wrappers w).receiver.toList := by simp [hid]
  exact hrel.1 id hmem (hheld.receivers id hmem)

/-! ## Calls -/

/-- A call that is on its way, by the section it runs next: the lookup, the update and the
insertion of `registerAndRunRoute`, or the only section of `unregisterAndStopRoute`. -/
inductive Call where
  | lookup (c : Route.Config)
  | update (c : Route.Config)
  | insert (c : Route.Config)
  | unregister (tid : Tenant.Id) (routeId : String)
  | done

namespace Call

/-- Go on with the insertion, unless the route is not meant to run here. -/
def proceed (region : String) (c : Route.Config) : Call :=
  if c.region ≠ "" ∧ region ≠ c.region then .done
  else if c.inactive then .done
  else .insert c

/-- Run the next section of a call. -/
def next (region : String) (answers : ℕ → Answers) (t : RoutingTable) :
    Call → Option (RoutingTable × Call)
  | .lookup c =>
      match t.liveRouteMap.lookup c.key with
      | none => some (t, proceed region c)
      | some w => if (t.wrappers w).config.hash = c.hash then some (t, .done) else some (t, .update c)
  | .update c => some ((t.unregisterAndStopRoute c.tenantId c.id).1, proceed region c)
  | .insert c => some ((t.insertRoute c answers).1, .done)
  | .unregister tid routeId => some ((t.unregisterAndStopRoute tid routeId).1, .done)
  | .done => none

end Call

/-- A table and the calls that work on it. -/
structure Pool where
  table : RoutingTable
  calls : List Call

/-- A new call, or the next section of a call. -/
inductive PoolAction where
  | register (c : Route.Config)
  | unregister (tid : Tenant.Id) (routeId : String)
  | proceed (i : ℕ) (answers : ℕ → Answers)

namespace Pool

/-- An empty table, and no calls. -/
def start : Pool := ⟨RoutingTable.empty, []⟩

/-- One step of an interleaving. -/
def step (region : String) (p : Pool) : PoolAction → Option Pool
  | .register c => some { p with calls := p.calls ++ [.lookup c] }
  | .unregister tid routeId => some { p with calls := p.calls ++ [.unregister tid routeId] }
  | .proceed i answers =>
      (p.calls[i]?).bind fun call =>
        (call.next region answers p.table).map fun r => ⟨r.1, p.calls.set i r.2⟩

end Pool

/-! ## A call that runs alone -/

/-- Run the next section of the only call. -/
def Call.alone (region : String) (answers : ℕ → Answers) (s : RoutingTable × Call) (_ : Unit) :
    Option (RoutingTable × Call) :=
  s.2.next region answers s.1

theorem Call.proceed_eq (region : String) (c : Route.Config) :
    Call.proceed region c = if RunsHere region c then .insert c else .done :=
  ite_runsHere region c Call.done (Call.insert c)

/-- After the existing route has been dealt with, a call does what `startRoute` does. -/
theorem Call.run_proceed (region : String) (t : RoutingTable) (c : Route.Config)
    (answers : ℕ → Answers) :
    ∃ n, Runs.run (Call.alone region answers) (t, Call.proceed region c) (List.replicate n ()) =
      some ((startRoute region t c answers).1, .done) := by
  rw [Call.proceed_eq, startRoute_eq]
  split
  · exact ⟨1, rfl⟩
  · exact ⟨0, rfl⟩

/-- The sections of a call that runs alone make up `registerAndRunRoute`. -/
theorem Call.run_alone (region : String) (t : RoutingTable) (c : Route.Config)
    (answers : ℕ → Answers) :
    ∃ n, Runs.run (Call.alone region answers) (t, .lookup c) (List.replicate n ()) =
      some ((t.registerAndRunRoute region c answers).1, .done) := by
  unfold registerAndRunRoute
  cases hkey : t.liveRouteMap.lookup c.key with
  | none =>
      obtain ⟨n, hn⟩ := Call.run_proceed region t c answers
      refine ⟨n + 1, ?_⟩
      rw [List.replicate_succ, Runs.run_cons_eq_some]
      exact ⟨(t, Call.proceed region c), by simp [Call.alone, Call.next, hkey], hn⟩
  | some w =>
      dsimp only
      split
      · rename_i hhash
        exact ⟨1, by simp [Call.alone, Call.next, hkey, hhash]⟩
      · rename_i hhash
        obtain ⟨n, hn⟩ := Call.run_proceed region (t.unregisterAndStopRoute c.tenantId c.id).1 c answers
        refine ⟨n + 2, ?_⟩
        rw [List.replicate_succ, Runs.run_cons_eq_some]
        refine ⟨(t, .update c), by simp [Call.alone, Call.next, hkey, hhash], ?_⟩
        rw [List.replicate_succ, Runs.run_cons_eq_some]
        exact ⟨_, rfl, hn⟩

/-! ## One section -/

/-- A registration that fails leaves both tables alone. -/
theorem Sound.insertRoute_failed (h : t.Sound) (hhash : t.routeHashMap.lookup c.hash = none)
    (hfail : ((LiveRouteWrapper.newLiveRouteWrapper c).register t.pluginMgr answers).2.2.isSome) :
    (t.insertRoute c answers).1.Sound := by
  obtain ⟨-, -, hcases, -⟩ := LiveRouteWrapper.register_spec
    (LiveRouteWrapper.newLiveRouteWrapper c) h.mgr ⟨rfl, rfl, rfl⟩ answers
  obtain ⟨err, herr⟩ := Option.isSome_iff_exists.mp hfail
  rcases hcases with ⟨hnone, -⟩ | ⟨-, m₁, hadds, hrem, -⟩
  · rw [hnone] at hfail
    simp at hfail
  · unfold RoutingTable.insertRoute
    rw [hhash]
    dsimp only
    rw [herr]
    exact h.insert_failed hadds hrem

/-- A key that is entered a second time is counted once too often, or still counted by the
route it was taken from. -/
theorem Sound.not_consistent_of_replace (h : t.Sound) {key : String}
    (hkey : t.liveRouteMap.lookup key = some w) {t' : RoutingTable} {v : ℕ}
    (hmap : t'.liveRouteMap = t.liveRouteMap.insert key v) (hnext : t.next ≤ t'.next)
    (hcnt : (t'.wrappers w).refCnt = (t.wrappers w).refCnt + if w = v then 1 else 0)
    (hcomplete : (t'.wrappers w).Complete) (hheld : (t'.wrappers w).Held t'.pluginMgr) :
    ¬ t'.Consistent := by
  intro hcons
  have hw : t.Live w := ⟨key, hkey⟩
  have hlt : w < t'.next := lt_of_lt_of_le (h.receivers.bound w hw) hnext
  have hnew := (hcons.refCnt w hlt (not_released hcomplete hheld)).1
  have hold := h.refCnt w hw
  have hcard := Finmap.card_fiber_replace hkey v w
  rw [if_pos rfl] at hcard
  rw [hmap, hcnt, hold] at hnew
  split at hnew
  · rename_i hwv
    rw [if_pos hwv] at hcard
    omega
  · rename_i hwv
    rw [if_neg hwv] at hcard
    omega

/-- The plugins of a route stay registered when those of another route are added. -/
theorem held_of_adds {lrw l : LiveRouteWrapper} {m m' : Manager} (h : lrw.Held m)
    (hadds : l.Adds m m') : lrw.Held m' where
  receivers := fun id hid => by
    rw [hadds.receivers.wrapped]
    exact Finset.mem_union_left _ (h.receivers id hid)
  filters := fun id hid => by
    rw [hadds.filters.wrapped]
    exact Finset.mem_union_left _ (h.filters id hid)
  senders := fun id hid => by
    rw [hadds.senders.wrapped]
    exact Finset.mem_union_left _ (h.senders id hid)
  nodup := h.nodup

/-- Entering a route under a key that is on the table breaks the table, unless the
registration fails. -/
theorem Sound.insertRoute_taken (h : t.Sound) (hkey : t.liveRouteMap.lookup c.key = some w)
    (hcons : (t.insertRoute c answers).1.Consistent) :
    t.routeHashMap.lookup c.hash = none ∧
      ((LiveRouteWrapper.newLiveRouteWrapper c).register t.pluginMgr answers).2.2.isSome := by
  have hw : t.Live w := ⟨_, hkey⟩
  unfold RoutingTable.insertRoute at hcons
  cases hhash : t.routeHashMap.lookup c.hash with
  | some v =>
      -- the key moves to a running route, and its old route has one reference too many
      rw [hhash] at hcons
      have hupdate : ∀ u, SameRoute (t.wrappers u) (Function.update t.wrappers v
          (t.wrappers v).addRouteReference u) := sameRoute_update ⟨rfl, rfl, rfl, rfl⟩
      have hsame := hupdate w
      have hcomplete := h.complete w hw
      have hheld := h.held hw
      refine absurd hcons (h.not_consistent_of_replace hkey rfl le_rfl ?_ ?_ ?_)
      · show (Function.update t.wrappers v _ w).refCnt = _
        rcases eq_or_ne w v with rfl | hne
        · rw [Function.update_self, if_pos rfl]
          rfl
        · rw [Function.update_of_ne hne, if_neg hne, add_zero]
      · show (Function.update t.wrappers v _ w).Complete
        unfold LiveRouteWrapper.Complete
        rw [hsame.receiver, hsame.sender, hsame.filterChain, hsame.config]
        exact hcomplete
      · exact ⟨hsame.receiver ▸ hheld.receivers, hsame.filterChain ▸ hheld.filters,
          hsame.sender ▸ hheld.senders, hsame.filterChain ▸ hheld.nodup⟩
  | none =>
      refine ⟨rfl, ?_⟩
      by_contra hok
      have hnone : _ = none := Option.not_isSome_iff_eq_none.mp hok
      obtain ⟨-, -, hcases, -⟩ := LiveRouteWrapper.register_spec
        (LiveRouteWrapper.newLiveRouteWrapper c) h.mgr ⟨rfl, rfl, rfl⟩ answers
      rcases hcases with ⟨-, hadds, -⟩ | ⟨hsome, -⟩
      · -- the key moves to the new route, and its old route keeps its reference
        rw [hhash] at hcons
        dsimp only at hcons
        rw [hnone] at hcons
        have hne : w ≠ t.next := (h.receivers.bound w hw).ne
        have hkeep : Function.update t.wrappers t.next
            ((LiveRouteWrapper.newLiveRouteWrapper c).register t.pluginMgr answers).2.1 w =
            t.wrappers w := Function.update_of_ne hne _ _
        refine absurd hcons (h.not_consistent_of_replace hkey rfl (Nat.le_succ _) ?_ ?_ ?_)
        · show (Function.update t.wrappers t.next _ w).refCnt = _
          rw [hkeep, if_neg hne, add_zero]
        · show (Function.update t.wrappers t.next _ w).Complete
          rw [hkeep]
          exact h.complete w hw
        · show (Function.update t.wrappers t.next _ w).Held _
          rw [hkeep]
          exact held_of_adds (h.held hw) hadds
      · rw [hnone] at hsome
        simp at hsome

/-! ## Runs -/

namespace Pool

/-- A call that is about to enter its route finds the key free, or it starts a new route and
fails to register it. -/
def KeyFree (p : Pool) : PoolAction → Prop
  | .proceed i answers => ∀ c, p.calls[i]? = some (.insert c) →
      p.table.liveRouteMap.lookup c.key = none ∨
        p.table.routeHashMap.lookup c.hash = none ∧
          ((LiveRouteWrapper.newLiveRouteWrapper c).register p.table.pluginMgr answers).2.2.isSome
  | _ => True

variable {p p' : Pool} {a : PoolAction}

/-- A step that meets the guard keeps the invariant of the table. -/
theorem sound_step (h : p.table.Sound) (hfree : p.KeyFree a) (hs : p.step region a = some p') :
    p'.table.Sound := by
  cases a with
  | register c =>
      obtain rfl := Option.some.inj hs
      exact h
  | unregister tid routeId =>
      obtain rfl := Option.some.inj hs
      exact h
  | proceed i answers =>
      obtain ⟨call, hcall, hs⟩ := Option.bind_eq_some_iff.mp hs
      obtain ⟨⟨t', call'⟩, hnext, rfl⟩ := Option.map_eq_some_iff.mp hs
      show t'.Sound
      cases call with
      | lookup c =>
          suffices t' = p.table by rw [this]; exact h
          unfold Call.next at hnext
          dsimp only at hnext
          split at hnext
          · simp_all
          · split at hnext <;> simp_all
      | update c =>
          obtain ⟨rfl, -⟩ := Prod.mk.inj (Option.some.inj hnext)
          exact (h.unregisterAndStopRoute c.tenantId c.id).2
      | insert c =>
          obtain ⟨rfl, -⟩ := Prod.mk.inj (Option.some.inj hnext)
          rcases hfree c hcall with hkey | ⟨hhash, hfail⟩
          · exact (h.insertRoute (entry_eq_none.mpr hkey) answers).1
          · exact h.insertRoute_failed hhash hfail
      | unregister tid routeId =>
          obtain ⟨rfl, -⟩ := Prod.mk.inj (Option.some.inj hnext)
          exact (h.unregisterAndStopRoute tid routeId).2
      | done => simp [Call.next] at hnext

/-- A step that leads to a consistent table meets the guard. -/
theorem keyFree_of_consistent (h : p.table.Sound) (hs : p.step region a = some p')
    (hcons : p'.table.Consistent) : p.KeyFree a := by
  cases a with
  | register c => trivial
  | unregister tid routeId => trivial
  | proceed i answers =>
      intro c hcall
      cases hkey : p.table.liveRouteMap.lookup c.key with
      | none => exact Or.inl rfl
      | some w =>
          have heq : p' = ⟨(p.table.insertRoute c answers).1, p.calls.set i .done⟩ := by
            have hs' := hs
            simp only [step, hcall, Option.bind_some, Call.next, Option.map_some] at hs'
            exact (Option.some.inj hs').symm
          rw [heq] at hcons
          exact Or.inr (h.insertRoute_taken hkey hcons)

/-- A step that cannot be taken meets the guard. -/
theorem keyFree_of_none (hs : p.step region a = none) : p.KeyFree a := by
  cases a with
  | register c => trivial
  | unregister tid routeId => trivial
  | proceed i answers =>
      intro c hcall
      simp [step, hcall, Call.next] at hs

/-- **The tables and the counters agree in every state of a run exactly when every route is
entered under a free key.**  The calls and the order of their sections are arbitrary. -/
theorem consistent_iff_keyFree (region : String) (as : List PoolAction) :
    (∀ bs, bs <+: as → ∀ p, Runs.run (step region) start bs = some p → p.table.Consistent) ↔
      Runs.Along (step region) KeyFree start as :=
  Runs.always_iff_along (P := fun p => p.table.Sound) (fun _ h => h.consistent)
    (fun _ _ _ h hfree hs => sound_step h hfree hs)
    (fun _ _ _ h hs hcons => keyFree_of_consistent h hs hcons)
    (fun _ _ hs => keyFree_of_none hs) sound_empty

/-- Two calls register the same route at the same time: both look the key up before one of
them enters it.  Then the route is unregistered. -/
def racingCalls : List PoolAction :=
  [.register (sampleRoute "r1" ""), .register (sampleRoute "r1" ""),
    .proceed 0 sampleEnv.plugins, .proceed 1 sampleEnv.plugins,
    .proceed 0 sampleEnv.plugins, .proceed 1 sampleEnv.plugins,
    .unregister ⟨"acme", "tv"⟩ "r1", .proceed 2 sampleEnv.plugins]

/-- After these calls no key is left, and the route still has its plugins registered. -/
theorem racing_registrations_leak :
    ∃ p, Runs.run (step "us-west") start racingCalls = some p ∧
      p.table.liveRouteMap.keys = ∅ ∧ p.table.Registered 0 ∧ ¬ p.table.Consistent := by
  have heval : (Runs.run (step "us-west") start racingCalls).any (fun p =>
      p.table.liveRouteMap.keys = ∅ ∧ p.table.next = 1 ∧
        (p.table.wrappers 0).receiver = some 1 ∧ (p.table.wrappers 0).sender = some 1 ∧
        (p.table.wrappers 0).filterChain = [] ∧
        (p.table.wrappers 0).config.filterChain.length = 0 ∧
        p.table.pluginMgr.receivers.wrapped = {1} ∧ p.table.pluginMgr.senders.wrapped = {1}) := by
    decide +kernel
  obtain ⟨p, hrun, hp⟩ := (Option.any_eq_true _ _).mp heval
  obtain ⟨hmap, hnext, hrecv, hsend, hchain, hconfig, hrs, hss⟩ := of_decide_eq_true hp
  have hcomplete : (p.table.wrappers 0).Complete := by
    exact ⟨by rw [hrecv]; rfl, by rw [hsend]; rfl, by rw [hchain, hconfig]; rfl⟩
  have hheld : (p.table.wrappers 0).Held p.table.pluginMgr := by
    refine ⟨?_, ?_, ?_, ?_⟩
    · rw [hrecv, hrs]
      simp
    · rw [hchain]
      simp
    · rw [hsend, hss]
      simp
    · rw [hchain]
      exact List.nodup_nil
  refine ⟨p, hrun, hmap, ⟨hcomplete, hheld⟩, fun hcons => ?_⟩
  obtain ⟨hcnt, hpos⟩ := hcons.refCnt 0 (by omega) (not_released hcomplete hheld)
  rw [hcnt, Finmap.fiber, hmap] at hpos
  simp at hpos

end Pool

end RoutingTable
