/-
# The invariant of the routing table

`Sound t` ties the two tables, the reference counters and the plugin manager together: the
routes that the two tables lead to are the same, each under its own hash, a counter is the
number of keys that refer to its route, the plugins of a live route are registered, and a
route that is not live has none.

Each of the locked sections keeps it: `Sound.unregisterAndStopRoute` always, and entering a route
when its key is not on the table yet (`Sound.insert_shared`, `Sound.insert_new`,
`Sound.insert_failed`).
-/
import Ears.RoutingTable

open Plugin

/-! ## Who owns which wrappers of a registry -/

/-- The objects below `next` own wrappers of a registry, each its own; those of the live
objects are registered, the others are not. -/
structure Ownership (reg : Registry) (own : ℕ → List ℕ) (live : ℕ → Prop) (next : ℕ) : Prop where
  bound : ∀ w, live w → w < next
  held : ∀ w, live w → ∀ id ∈ own w, id ∈ reg.wrapped
  released : ∀ w, w < next → ¬ live w → ∀ id ∈ own w, id ∉ reg.wrapped
  disjoint : ∀ w w', w < next → w' < next → w ≠ w' → List.Disjoint (own w) (own w')
  nodup : ∀ w, w < next → (own w).Nodup
  old : ∀ w, w < next → ∀ id ∈ own w, id < reg.next

namespace Ownership

variable {reg reg₁ reg' : Registry} {own : ℕ → List ℕ} {live live' : ℕ → Prop} {next w : ℕ}
  {ids : List ℕ}

theorem congr (h : Ownership reg own live next) (hlive : ∀ w, live' w ↔ live w) :
    Ownership reg own live' next := by
  have heq : live' = live := funext fun w => propext (hlive w)
  rw [heq]
  exact h

theorem update_lt (hw : w < next) : Function.update own next ids w = own w :=
  Function.update_of_ne hw.ne _ _

/-- The wrappers of a new object are its own. -/
theorem disjoint_update (h : Ownership reg own live next) (hnew : ∀ id ∈ ids, reg.next ≤ id)
    {w w' : ℕ} (hw : w < next + 1) (hw' : w' < next + 1) (hne : w ≠ w') :
    List.Disjoint (Function.update own next ids w) (Function.update own next ids w') := by
  have hfresh : ∀ v < next, List.Disjoint (own v) ids := by
    intro v hv id hid hmem
    exact absurd (h.old v hv id hid) (by have := hnew id hmem; omega)
  rcases Nat.lt_succ_iff_lt_or_eq.mp hw with hlt | rfl
  · rw [update_lt hlt]
    rcases Nat.lt_succ_iff_lt_or_eq.mp hw' with hlt' | rfl
    · rw [update_lt hlt']
      exact h.disjoint w w' hlt hlt' hne
    · rw [Function.update_self]
      exact hfresh w hlt
  · rw [Function.update_self]
    rcases Nat.lt_succ_iff_lt_or_eq.mp hw' with hlt' | rfl
    · rw [update_lt hlt']
      exact (hfresh w' hlt').symm
    · exact absurd rfl hne

/-- A new object takes the wrappers it has just registered, and is live. -/
theorem add (h : Ownership reg own live next) (hext : reg.Extends reg' ids)
    (hlive : ∀ w, live' w ↔ live w ∨ w = next) :
    Ownership reg' (Function.update own next ids) live' (next + 1) where
  bound := by
    intro w hw
    rcases (hlive w).mp hw with hw | rfl
    · exact Nat.lt_succ_of_lt (h.bound w hw)
    · exact Nat.lt_succ_self _
  held := by
    intro w hw id hid
    rw [hext.wrapped, Finset.mem_union]
    rcases (hlive w).mp hw with hw | rfl
    · rw [update_lt (h.bound w hw)] at hid
      exact Or.inl (h.held w hw id hid)
    · rw [Function.update_self] at hid
      exact Or.inr (List.mem_toFinset.mpr hid)
  released := by
    intro w hw hnot id hid
    have hlt : w < next := by
      rcases Nat.lt_succ_iff_lt_or_eq.mp hw with hlt | rfl
      · exact hlt
      · exact absurd ((hlive w).mpr (Or.inr rfl)) hnot
    rw [update_lt hlt] at hid
    rw [hext.wrapped, Finset.mem_union, not_or]
    refine ⟨h.released w hlt (fun hl => hnot ((hlive w).mpr (Or.inl hl))) id hid, fun hmem => ?_⟩
    have hle := hext.new id (List.mem_toFinset.mp hmem)
    have hold := h.old w hlt id hid
    omega
  disjoint := fun w w' hw hw' hne => h.disjoint_update hext.new hw hw' hne
  nodup := by
    intro w hw
    rcases Nat.lt_succ_iff_lt_or_eq.mp hw with hlt | rfl
    · rw [update_lt hlt]
      exact h.nodup w hlt
    · rw [Function.update_self]
      exact hext.nodup
  old := by
    intro w hw id hid
    rcases Nat.lt_succ_iff_lt_or_eq.mp hw with hlt | rfl
    · rw [update_lt hlt] at hid
      exact (h.old w hlt id hid).trans_le hext.next
    · rw [Function.update_self] at hid
      exact hext.sound.lt_next (by rw [hext.wrapped]; simp [hid])

/-- A live object gives back its wrappers. -/
theorem drop (h : Ownership reg own live next) (hw : live w) (hdrop : reg.Drops reg' (own w))
    (hlive : ∀ v, live' v ↔ live v ∧ v ≠ w) : Ownership reg' own live' next where
  bound := fun v hv => h.bound v ((hlive v).mp hv).1
  held := by
    intro v hv id hid
    obtain ⟨hv, hne⟩ := (hlive v).mp hv
    rw [hdrop.wrapped, Finset.mem_sdiff, List.mem_toFinset]
    exact ⟨h.held v hv id hid,
      fun hmem => h.disjoint v w (h.bound v hv) (h.bound w hw) hne hid hmem⟩
  released := by
    intro v hv hnot id hid hmem
    rw [hdrop.wrapped, Finset.mem_sdiff, List.mem_toFinset] at hmem
    by_cases hvw : v = w
    · subst hvw
      exact hmem.2 hid
    · exact h.released v hv (fun hl => hnot ((hlive v).mpr ⟨hl, hvw⟩)) id hid hmem.1
  disjoint := h.disjoint
  nodup := h.nodup
  old := by
    intro v hv id hid
    rw [hdrop.next]
    exact h.old v hv id hid

end Ownership

namespace RoutingTable

/-! ## The invariant -/

/-- Some key refers to the route. -/
def Live (t : RoutingTable) (w : ℕ) : Prop := ∃ key, t.liveRouteMap.lookup key = some w

/-- The tables, the reference counters and the plugin manager agree. -/
structure Sound (t : RoutingTable) : Prop where
  mgr : LiveRouteWrapper.ManagerSound t.pluginMgr
  receivers : Ownership t.pluginMgr.receivers (fun w => (t.wrappers w).receiver.toList) t.Live t.next
  filters : Ownership t.pluginMgr.filters (fun w => (t.wrappers w).filterChain) t.Live t.next
  senders : Ownership t.pluginMgr.senders (fun w => (t.wrappers w).sender.toList) t.Live t.next
  hashed : ∀ key w, t.liveRouteMap.lookup key = some w →
    t.routeHashMap.lookup (t.wrappers w).config.hash = some w
  unhashed : ∀ hash w, t.routeHashMap.lookup hash = some w →
    (t.wrappers w).config.hash = hash ∧ t.Live w
  refCnt : ∀ w, t.Live w → (t.wrappers w).refCnt = (t.liveRouteMap.fiber w).card
  complete : ∀ w, t.Live w → (t.wrappers w).Complete

theorem sound_empty : empty.Sound := by
  have hlive : ∀ w, ¬ empty.Live w := by
    rintro w ⟨key, hkey⟩
    exact absurd hkey (by simp [RoutingTable.empty])
  have hown : ∀ own : ℕ → List ℕ, Ownership Registry.empty own empty.Live 0 := fun own =>
    ⟨fun w hw => absurd hw (hlive w), fun w hw => absurd hw (hlive w),
      fun w hw => absurd hw (Nat.not_lt_zero w), fun w _ hw => absurd hw (Nat.not_lt_zero w),
      fun w hw => absurd hw (Nat.not_lt_zero w), fun w hw => absurd hw (Nat.not_lt_zero w)⟩
  exact {
    mgr := ⟨Registry.Sound.empty, Registry.Sound.empty, Registry.Sound.empty⟩
    receivers := hown _
    filters := hown _
    senders := hown _
    hashed := fun key w hkey => absurd ⟨key, hkey⟩ (hlive w)
    unhashed := fun hash w hw => absurd hw (by simp [RoutingTable.empty])
    refCnt := fun w hw => absurd hw (hlive w)
    complete := fun w hw => absurd hw (hlive w) }

variable {t : RoutingTable} {w : ℕ} {key : String}

theorem Sound.held (h : t.Sound) (hw : t.Live w) : (t.wrappers w).Held t.pluginMgr where
  receivers := h.receivers.held w hw
  filters := h.filters.held w hw
  senders := h.senders.held w hw
  nodup := h.filters.nodup w (h.filters.bound w hw)

/-- The hash table leads to the live routes, each under its hash. -/
theorem Sound.routeHashMap_lookup (h : t.Sound) {hash : String} :
    t.routeHashMap.lookup hash = some w ↔ t.Live w ∧ (t.wrappers w).config.hash = hash := by
  constructor
  · intro hw
    exact ⟨(h.unhashed hash w hw).2, (h.unhashed hash w hw).1⟩
  · rintro ⟨⟨key, hkey⟩, rfl⟩
    exact h.hashed key w hkey

/-- Live routes with the same hash are one. -/
theorem Sound.eq_of_hash (h : t.Sound) {v : ℕ} (hv : t.Live v) (hw : t.Live w)
    (heq : (t.wrappers v).config.hash = (t.wrappers w).config.hash) : v = w := by
  have hlv := h.routeHashMap_lookup.mpr ⟨hv, rfl⟩
  rw [heq, h.routeHashMap_lookup.mpr ⟨hw, rfl⟩] at hlv
  exact (Option.some.inj hlv).symm

/-! ## Taking a key off the table -/

/-- The route behind a key has a positive counter. -/
theorem Sound.refCnt_pos (h : t.Sound) (hw : t.Live w) : 0 < (t.wrappers w).refCnt := by
  rw [h.refCnt w hw]
  exact_mod_cast Finmap.card_fiber_pos.mpr hw

/-- A route is still live without one of its keys exactly when it had another. -/
theorem live_erase (hkey : t.liveRouteMap.lookup key = some w) {v : ℕ} :
    (∃ k, (t.liveRouteMap.erase key).lookup k = some v) ↔
      t.Live v ∧ (v = w → 1 < (t.liveRouteMap.fiber w).card) := by
  have hcard := Finmap.card_fiber_erase hkey v
  rw [← Finmap.card_fiber_pos]
  unfold Live
  rw [← Finmap.card_fiber_pos]
  split at hcard
  · rename_i hvw
    subst hvw
    simp only [true_implies]
    omega
  · rename_i hvw
    simp only [hvw, false_implies, and_true]
    omega

/-- Two wrappers that differ in their counters only. -/
structure SameRoute (l l' : LiveRouteWrapper) : Prop where
  config : l'.config = l.config
  receiver : l'.receiver = l.receiver
  sender : l'.sender = l.sender
  filterChain : l'.filterChain = l.filterChain

theorem SameRoute.refl (l : LiveRouteWrapper) : SameRoute l l := ⟨rfl, rfl, rfl, rfl⟩

theorem sameRoute_update {wrappers : ℕ → LiveRouteWrapper} {l : LiveRouteWrapper}
    (h : SameRoute (wrappers w) l) (v : ℕ) :
    SameRoute (wrappers v) (Function.update wrappers w l v) := by
  rcases eq_or_ne v w with rfl | hne
  · rw [Function.update_self]
    exact h
  · rw [Function.update_of_ne hne]
    exact SameRoute.refl _

/-- Routes that stay the same hold the same plugins. -/
theorem SameRoute.plugins {f g : ℕ → LiveRouteWrapper} (h : ∀ v, SameRoute (f v) (g v)) :
    ((fun v => (g v).receiver.toList) = fun v => (f v).receiver.toList) ∧
      ((fun v => (g v).filterChain) = fun v => (f v).filterChain) ∧
      (fun v => (g v).sender.toList) = fun v => (f v).sender.toList := by
  refine ⟨?_, ?_, ?_⟩
  · funext v
    rw [(h v).receiver]
  · funext v
    rw [(h v).filterChain]
  · funext v
    rw [(h v).sender]

/-- A change of reference counters and keys only keeps the invariant if the same routes stay
live and the counters are right. -/
theorem Sound.recount (h : t.Sound) {t' : RoutingTable} (hmgr : t'.pluginMgr = t.pluginMgr)
    (hnext : t'.next = t.next) (hhash : t'.routeHashMap = t.routeHashMap)
    (hsame : ∀ v, SameRoute (t.wrappers v) (t'.wrappers v))
    (hlive : ∀ v, t'.Live v ↔ t.Live v)
    (hcnt : ∀ v, t.Live v → (t'.wrappers v).refCnt = (t'.liveRouteMap.fiber v).card) :
    t'.Sound := by
  obtain ⟨hrecv, hfilter, hsend⟩ := SameRoute.plugins hsame
  have hconfig : ∀ v, (t'.wrappers v).config = (t.wrappers v).config := fun v => (hsame v).config
  constructor
  case mgr =>
    rw [hmgr]
    exact h.mgr
  case receivers =>
    rw [hmgr, hnext, hrecv]
    exact h.receivers.congr hlive
  case filters =>
    rw [hmgr, hnext, hfilter]
    exact h.filters.congr hlive
  case senders =>
    rw [hmgr, hnext, hsend]
    exact h.senders.congr hlive
  case hashed =>
    intro key w hkey
    rw [hhash, hconfig, h.routeHashMap_lookup]
    exact ⟨(hlive w).mp ⟨key, hkey⟩, rfl⟩
  case unhashed =>
    intro hash w hw
    rw [hhash, h.routeHashMap_lookup] at hw
    rw [hconfig, hlive]
    exact hw.symm
  case refCnt =>
    intro w hw
    exact hcnt w ((hlive w).mp hw)
  case complete =>
    intro w hw
    have hc := h.complete w ((hlive w).mp hw)
    unfold LiveRouteWrapper.Complete
    rw [(hsame w).receiver, (hsame w).sender, (hsame w).filterChain, (hsame w).config]
    exact hc

/-- Taking off a key that other keys share only counts. -/
theorem Sound.unregister_shared (h : t.Sound) (hkey : t.liveRouteMap.lookup key = some w)
    (hcnt : (t.wrappers w).refCnt ≠ 1) :
    ({ t.setWrapper w (t.wrappers w).removeRouteReference with
        liveRouteMap := t.liveRouteMap.erase key } : RoutingTable).Sound := by
  have hw : t.Live w := ⟨key, hkey⟩
  have hpos := h.refCnt_pos hw
  have hcard : 1 < (t.liveRouteMap.fiber w).card := by
    have := h.refCnt w hw
    omega
  refine h.recount rfl rfl rfl (sameRoute_update ⟨rfl, rfl, rfl, rfl⟩) ?_ ?_
  · intro v
    show (∃ k, (t.liveRouteMap.erase key).lookup k = some v) ↔ _
    rw [live_erase hkey]
    exact ⟨And.left, fun hv => ⟨hv, fun _ => hcard⟩⟩
  · intro v hv
    have herase := Finmap.card_fiber_erase hkey v
    have hold := h.refCnt v hv
    show (Function.update t.wrappers w _ v).refCnt = ((t.liveRouteMap.erase key).fiber v).card
    rcases eq_or_ne v w with rfl | hne
    · rw [if_pos rfl] at herase
      rw [Function.update_self]
      show (t.wrappers v).refCnt - 1 = _
      omega
    · rw [if_neg hne] at herase
      rw [Function.update_of_ne hne, hold]
      omega

/-- Taking off the last key of a route stops the route and gives its plugins back. -/
theorem Sound.unregister_last (h : t.Sound) (hkey : t.liveRouteMap.lookup key = some w)
    (hcnt : (t.wrappers w).refCnt = 1) {t' : RoutingTable}
    (hmap : t'.liveRouteMap = t.liveRouteMap.erase key)
    (hhash : t'.routeHashMap = t.routeHashMap.erase (t.wrappers w).config.hash)
    (hsame : ∀ v, SameRoute (t.wrappers v) (t'.wrappers v))
    (hother : ∀ v, v ≠ w → t'.wrappers v = t.wrappers v) (hnext : t'.next = t.next)
    (hmgr : (t.wrappers w).Removes t.pluginMgr t'.pluginMgr) : t'.Sound := by
  have hw : t.Live w := ⟨key, hkey⟩
  have hcard : (t.liveRouteMap.fiber w).card = 1 := by
    have := h.refCnt w hw
    omega
  have hlive : ∀ v, t'.Live v ↔ t.Live v ∧ v ≠ w := by
    intro v
    unfold Live
    rw [hmap, live_erase hkey, hcard]
    simp [Live]
  obtain ⟨hrecv, hfilter, hsend⟩ := SameRoute.plugins hsame
  constructor
  case mgr =>
    exact hmgr.sound
  case receivers =>
    rw [hnext, hrecv]
    exact h.receivers.drop hw hmgr.receivers hlive
  case filters =>
    rw [hnext, hfilter]
    exact h.filters.drop hw hmgr.filters hlive
  case senders =>
    rw [hnext, hsend]
    exact h.senders.drop hw hmgr.senders hlive
  case hashed =>
    -- another live route has another hash, so its entry is not the one that is erased
    intro k v hk
    obtain ⟨hv, hne⟩ := (hlive v).mp ⟨k, hk⟩
    rw [hother v hne, hhash, Finmap.lookup_erase_ne, h.routeHashMap_lookup]
    · exact ⟨hv, rfl⟩
    · exact fun heq => hne (h.eq_of_hash hv hw heq)
  case unhashed =>
    intro hash v hv
    rw [hhash, Finmap.lookup_erase_eq] at hv
    split at hv
    · simp at hv
    · rename_i hne
      rw [h.routeHashMap_lookup] at hv
      have hvw : v ≠ w := by
        rintro rfl
        exact hne hv.2.symm
      rw [hother v hvw]
      exact ⟨hv.2, (hlive v).mpr ⟨hv.1, hvw⟩⟩
  case refCnt =>
    intro v hv
    obtain ⟨hv, hne⟩ := (hlive v).mp hv
    have herase := Finmap.card_fiber_erase hkey v
    rw [if_neg hne] at herase
    rw [hother v hne, h.refCnt v hv, hmap]
    omega
  case complete =>
    intro v hv
    obtain ⟨hv, hne⟩ := (hlive v).mp hv
    rw [hother v hne]
    exact h.complete v hv

/-- `unregisterAndStopRoute` takes one key off the table and keeps the routes as they are. -/
theorem unregisterAndStopRoute_frame (t : RoutingTable) (tid : Tenant.Id) (routeId : String) :
    (t.unregisterAndStopRoute tid routeId).1.liveRouteMap =
        t.liveRouteMap.erase (tid.keyWithRoute routeId) ∧
      (t.unregisterAndStopRoute tid routeId).1.next = t.next ∧
      ∀ v, SameRoute (t.wrappers v) ((t.unregisterAndStopRoute tid routeId).1.wrappers v) := by
  unfold RoutingTable.unregisterAndStopRoute
  dsimp only
  cases hkey : t.liveRouteMap.lookup (tid.keyWithRoute routeId) with
  | none => exact ⟨(Finmap.erase_of_lookup_eq_none hkey).symm, rfl, fun _ => SameRoute.refl _⟩
  | some w =>
      have hsame : ∀ v, SameRoute (t.wrappers v) (Function.update t.wrappers w
          (t.wrappers w).removeRouteReference v) := sameRoute_update ⟨rfl, rfl, rfl, rfl⟩
      dsimp only
      split
      · exact ⟨rfl, rfl, hsame⟩
      · exact ⟨rfl, rfl, hsame⟩

/-- On a sound table it does not fail, and keeps the invariant. -/
theorem Sound.unregisterAndStopRoute (h : t.Sound) (tid : Tenant.Id) (routeId : String) :
    (t.unregisterAndStopRoute tid routeId).2 = none ∧
      (t.unregisterAndStopRoute tid routeId).1.Sound := by
  unfold RoutingTable.unregisterAndStopRoute
  dsimp only
  cases hkey : t.liveRouteMap.lookup (tid.keyWithRoute routeId) with
  | none => exact ⟨rfl, h⟩
  | some w =>
      have hsame : ∀ v, SameRoute (t.wrappers v) (Function.update t.wrappers w
          (t.wrappers w).removeRouteReference v) := sameRoute_update ⟨rfl, rfl, rfl, rfl⟩
      have hheld := h.held ⟨_, hkey⟩
      dsimp only
      split
      · rename_i hzero
        have hcnt : (t.wrappers w).refCnt = 1 := by
          have : (t.wrappers w).refCnt - 1 = 0 := hzero
          omega
        have hheld' : (t.wrappers w).removeRouteReference.Held t.pluginMgr :=
          ⟨hheld.receivers, hheld.filters, hheld.senders, hheld.nodup⟩
        have hun := LiveRouteWrapper.unregister_spec h.mgr hheld'
        refine ⟨hun.1, ?_⟩
        exact h.unregister_last hkey hcnt rfl rfl hsame (fun v hne => Function.update_of_ne hne _ _)
          rfl ⟨hun.2.receivers, hun.2.filters, hun.2.senders⟩
      · rename_i hzero
        refine ⟨rfl, h.unregister_shared hkey ?_⟩
        intro hcnt
        apply hzero
        show (t.wrappers w).refCnt - 1 = 0
        omega

/-! ## Entering a route -/

variable {c : Route.Config} {answers : ℕ → Answers}

/-- A new key for a route that is live already. -/
theorem Sound.insert_shared (h : t.Sound) (hkey : t.liveRouteMap.lookup key = none)
    (hw : t.Live w) :
    ({ t.setWrapper w (t.wrappers w).addRouteReference with
        liveRouteMap := t.liveRouteMap.insert key w } : RoutingTable).Sound := by
  refine h.recount rfl rfl rfl (sameRoute_update ⟨rfl, rfl, rfl, rfl⟩) ?_ ?_
  · intro v
    show (∃ k, (t.liveRouteMap.insert key w).lookup k = some v) ↔ _
    have hcard := Finmap.card_fiber_insert hkey w v
    unfold Live
    rw [← Finmap.card_fiber_pos, ← Finmap.card_fiber_pos, hcard]
    split
    · rename_i hvw
      have hpos := Finmap.card_fiber_pos.mpr hw
      rw [hvw]
      omega
    · omega
  · intro v hv
    have hcard := Finmap.card_fiber_insert hkey w v
    have hold := h.refCnt v hv
    show (Function.update t.wrappers w _ v).refCnt = ((t.liveRouteMap.insert key w).fiber v).card
    rw [hcard]
    rcases eq_or_ne v w with rfl | hne
    · rw [Function.update_self, if_pos rfl]
      show (t.wrappers v).refCnt + 1 = _
      omega
    · rw [Function.update_of_ne hne, if_neg hne]
      omega

/-- The wrappers that the objects own, once there is a new object. -/
theorem own_update {wrappers : ℕ → LiveRouteWrapper} {l : LiveRouteWrapper} {next : ℕ}
    (f : LiveRouteWrapper → List ℕ) :
    (fun v => f (Function.update wrappers next l v)) =
      Function.update (fun v => f (wrappers v)) next (f l) := by
  funext v
  rcases eq_or_ne v next with rfl | hne
  · rw [Function.update_self, Function.update_self]
  · rw [Function.update_of_ne hne, Function.update_of_ne hne]

/-- A new live route under a new key and a new hash. -/
theorem Sound.insert_new (h : t.Sound) (hkey : t.liveRouteMap.lookup key = none)
    {l : LiveRouteWrapper} {m' : Manager} (hhash : t.routeHashMap.lookup l.config.hash = none)
    (hadds : l.Adds t.pluginMgr m') (hcnt : l.refCnt = 1) (hcomplete : l.Complete) :
    ({ t.setWrapper t.next l with
        next := t.next + 1
        pluginMgr := m'
        liveRouteMap := t.liveRouteMap.insert key t.next
        routeHashMap := t.routeHashMap.insert l.config.hash t.next } : RoutingTable).Sound := by
  have hlt : ∀ v, t.Live v → v < t.next := h.receivers.bound
  have hfree : ¬ t.Live t.next := fun hl => lt_irrefl _ (hlt _ hl)
  have hlive : ∀ v, (∃ k, (t.liveRouteMap.insert key t.next).lookup k = some v) ↔
      t.Live v ∨ v = t.next := by
    intro v
    unfold Live
    rw [← Finmap.card_fiber_pos, ← Finmap.card_fiber_pos, Finmap.card_fiber_insert hkey]
    split
    · rename_i hv
      simp [hv]
    · rename_i hv
      simp [hv]
  have hold : ∀ v, t.Live v → Function.update t.wrappers t.next l v = t.wrappers v :=
    fun v hv => Function.update_of_ne (hlt v hv).ne _ _
  constructor
  case mgr =>
    exact hadds.sound
  case receivers =>
    show Ownership m'.receivers (fun v => (Function.update t.wrappers t.next l v).receiver.toList) _ _
    rw [own_update fun l => l.receiver.toList]
    exact h.receivers.add hadds.receivers hlive
  case filters =>
    show Ownership m'.filters (fun v => (Function.update t.wrappers t.next l v).filterChain) _ _
    rw [own_update fun l => l.filterChain]
    exact h.filters.add hadds.filters hlive
  case senders =>
    show Ownership m'.senders (fun v => (Function.update t.wrappers t.next l v).sender.toList) _ _
    rw [own_update fun l => l.sender.toList]
    exact h.senders.add hadds.senders hlive
  case hashed =>
    intro k v hk
    show (t.routeHashMap.insert l.config.hash t.next).lookup
      (Function.update t.wrappers t.next l v).config.hash = some v
    rcases (hlive v).mp ⟨k, hk⟩ with hv | rfl
    · have hlook := h.routeHashMap_lookup.mpr ⟨hv, rfl⟩
      rw [hold v hv, Finmap.lookup_insert_of_ne, hlook]
      intro heq
      rw [heq, hhash] at hlook
      simp at hlook
    · rw [Function.update_self, Finmap.lookup_insert]
  case unhashed =>
    intro hash v hv
    show (Function.update t.wrappers t.next l v).config.hash = hash ∧ _
    have hv' : (t.routeHashMap.insert l.config.hash t.next).lookup hash = some v := hv
    rw [Finmap.lookup_insert_eq] at hv'
    split at hv'
    · rename_i heq
      obtain rfl := Option.some.inj hv'
      rw [Function.update_self]
      exact ⟨heq.symm, (hlive _).mpr (Or.inr rfl)⟩
    · obtain ⟨hlv, hh⟩ := h.routeHashMap_lookup.mp hv'
      rw [hold v hlv]
      exact ⟨hh, (hlive v).mpr (Or.inl hlv)⟩
  case refCnt =>
    intro v hv
    show (Function.update t.wrappers t.next l v).refCnt =
      ((t.liveRouteMap.insert key t.next).fiber v).card
    rw [Finmap.card_fiber_insert hkey]
    rcases (hlive v).mp hv with hv | rfl
    · rw [hold v hv, if_neg (hlt v hv).ne, h.refCnt v hv, add_zero]
    · have hzero : (t.liveRouteMap.fiber t.next).card = 0 := by
        by_contra hne
        exact hfree (Finmap.card_fiber_pos.mp (Nat.pos_of_ne_zero hne))
      rw [Function.update_self, if_pos rfl, hzero, hcnt]
      rfl
  case complete =>
    intro v hv
    show (Function.update t.wrappers t.next l v).Complete
    rcases (hlive v).mp hv with hv | rfl
    · rw [hold v hv]
      exact h.complete v hv
    · rw [Function.update_self]
      exact hcomplete

/-- A registration that failed leaves an object that is not live and holds nothing. -/
theorem Sound.insert_failed (h : t.Sound) {l : LiveRouteWrapper} {m₁ m' : Manager}
    (hadds : l.Adds t.pluginMgr m₁) (hrem : l.Removes m₁ m') :
    ({ t.setWrapper t.next l with next := t.next + 1, pluginMgr := m' } : RoutingTable).Sound := by
  have hlt : ∀ v, t.Live v → v < t.next := h.receivers.bound
  have hold : ∀ v, t.Live v → Function.update t.wrappers t.next l v = t.wrappers v :=
    fun v hv => Function.update_of_ne (hlt v hv).ne _ _
  -- the object is live for a moment, as if it were added and dropped again
  have hback : ∀ v, t.Live v ↔ (t.Live v ∨ v = t.next) ∧ v ≠ t.next := by
    intro v
    constructor
    · exact fun hv => ⟨Or.inl hv, (hlt v hv).ne⟩
    · rintro ⟨hv | hv, hne⟩
      · exact hv
      · exact absurd hv hne
  constructor
  case mgr =>
    exact hrem.sound
  case receivers =>
    show Ownership m'.receivers (fun v => (Function.update t.wrappers t.next l v).receiver.toList) _ _
    rw [own_update fun l => l.receiver.toList]
    refine (h.receivers.add hadds.receivers fun _ => Iff.rfl).drop (Or.inr rfl) ?_ hback
    rw [Function.update_self]
    exact hrem.receivers
  case filters =>
    show Ownership m'.filters (fun v => (Function.update t.wrappers t.next l v).filterChain) _ _
    rw [own_update fun l => l.filterChain]
    refine (h.filters.add hadds.filters fun _ => Iff.rfl).drop (Or.inr rfl) ?_ hback
    rw [Function.update_self]
    exact hrem.filters
  case senders =>
    show Ownership m'.senders (fun v => (Function.update t.wrappers t.next l v).sender.toList) _ _
    rw [own_update fun l => l.sender.toList]
    refine (h.senders.add hadds.senders fun _ => Iff.rfl).drop (Or.inr rfl) ?_ hback
    rw [Function.update_self]
    exact hrem.senders
  case hashed =>
    intro k v hk
    show t.routeHashMap.lookup (Function.update t.wrappers t.next l v).config.hash = some v
    rw [hold v ⟨k, hk⟩]
    exact h.hashed k v hk
  case unhashed =>
    intro hash v hv
    show (Function.update t.wrappers t.next l v).config.hash = hash ∧ _
    rw [hold v (h.unhashed hash v hv).2]
    exact h.unhashed hash v hv
  case refCnt =>
    intro v hv
    show (Function.update t.wrappers t.next l v).refCnt = _
    rw [hold v hv]
    exact h.refCnt v hv
  case complete =>
    intro v hv
    show (Function.update t.wrappers t.next l v).Complete
    rw [hold v hv]
    exact h.complete v hv

end RoutingTable
