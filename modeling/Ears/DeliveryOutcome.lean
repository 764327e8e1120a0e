/-
# The outcome of a delivery

An event that a receiver hands to its routes is settled once: when every goroutine of the
delivery has returned, the receiver has been told that the event is done, or that it failed,
and not both (`Delivery.one_outcome`).  This holds for every interleaving, for every heap and
for all library filters but a `js` script that returns an array, and needs senders that ack
or nack what they get.  When the receiver is told that the event is done, no goroutine
touches the ack tree any more (`Delivery.done_means_settled`).

A chain of filters drops its events when the context ends under it.  `startCut` is the
delivery with a mark for that: a goroutine returns `true` if it has dropped events.  The end
of the context is a step of the ack tree too, `none` in the schedule.
-/
import Mathlib.Data.Set.List
import Ears.Custody
import Ears.RouteIsolation

open GoLib

variable {κ ρ ε : Type}

/-! ## Events in hand -/

section InHand

variable {es es' : List (Event κ)} {e : Event κ} {own F : Finset NodeId}

theorem InHand.append (h : InHand es own) (h' : InHand es' F) (hdis : Disjoint own F) :
    InHand (es ++ es') (own ∪ F) := by
  obtain ⟨ns, hmap, hnd, rfl⟩ := h
  obtain ⟨ns', hmap', hnd', rfl⟩ := h'
  refine ⟨ns ++ ns', ?_, ?_, List.toFinset_append⟩
  · rw [List.map_append, List.map_append, hmap, hmap']
  · refine List.nodup_append.mpr ⟨hnd, hnd', fun a ha b hb hab => ?_⟩
    subst hab
    exact Finset.disjoint_left.mp hdis (List.mem_toFinset.mpr ha) (List.mem_toFinset.mpr hb)

theorem InHand.perm (h : InHand es own) (hp : es.Perm es') : InHand es' own := by
  obtain ⟨ns, hmap, hnd, rfl⟩ := h
  have hp' : (ns.map some).Perm (es'.map Event.subTree) := hmap ▸ hp.map Event.subTree
  obtain ⟨xs, hxs⟩ : ∃ xs, es'.map Event.subTree = xs := ⟨_, rfl⟩
  rw [hxs] at hp'
  obtain ⟨ns', rfl⟩ : xs ∈ Set.range (List.map some) := by
    rw [Set.range_list_map]
    intro x hx
    obtain ⟨n, -, rfl⟩ := List.mem_map.mp (hp'.mem_iff.mpr hx)
    exact ⟨n, rfl⟩
  have hns : ns.Perm ns' := (List.map_perm_map_iff (Option.some_injective _)).mp hp'
  exact ⟨ns', hxs, hns.nodup_iff.mp hnd, (List.toFinset_eq_of_perm _ _ hns).symm⟩

/-- The first of the events, and the others. -/
theorem InHand.uncons (h : InHand (e :: es) own) :
    ∃ n F, e.subTree = some n ∧ InHand es F ∧ Disjoint {n} F ∧ own = {n} ∪ F := by
  obtain ⟨ns, hmap, hnd, rfl⟩ := h
  cases ns with
  | nil => simp at hmap
  | cons n ns =>
      rw [List.map_cons, List.map_cons, List.cons.injEq] at hmap
      rw [List.nodup_cons] at hnd
      refine ⟨n, ns.toFinset, hmap.1, ⟨ns, hmap.2, hnd.2, rfl⟩, ?_, by simp⟩
      rw [Finset.disjoint_singleton_left, List.mem_toFinset]
      exact hnd.1

end InHand

/-! ## Chains with a mark -/

namespace Chain

/-- `filterQueue` that also says whether events were dropped. -/
def filterQueueCut (lib : Libs κ) : ℕ → List (Event κ × List (Filterer ρ)) → List (Event κ) →
    EventProg ε (List (Event κ) × Bool)
  | _, [], events => pure (events, false)
  | 0, _ :: _, _ => pure ([], true)
  | alive + 1, (e, []) :: queue, events => filterQueueCut lib alive queue (events ++ [e])
  | alive + 1, (e, f :: fs) :: queue, events => do
      let evts ← f.filter lib e
      if fs = [] then filterQueueCut lib alive queue (events ++ evts)
      else filterQueueCut lib alive (queue ++ evts.map fun e => (e, fs)) events

/-- `Filter(e)` that also says whether events were dropped. -/
def filterCut (lib : Libs κ) (alive : ℕ) (filterers : List (Filterer ρ)) (e : Event κ) :
    EventProg ε (List (Event κ) × Bool) :=
  if filterers = [] then pure ([e], false) else filterQueueCut lib alive [(e, filterers)] []

variable {lib : Libs κ}

theorem filterQueueCut_fst (alive : ℕ) (queue : List (Event κ × List (Filterer ρ)))
    (events : List (Event κ)) :
    (Prod.fst <$> filterQueueCut lib alive queue events : EventProg ε _) =
      filterQueue lib alive queue events := by
  induction alive generalizing queue events with
  | zero =>
      cases queue with
      | nil => rfl
      | cons x queue => rfl
  | succ alive ih =>
      rcases queue with _ | ⟨⟨e, _ | ⟨f, fs⟩⟩, queue⟩
      · rfl
      · exact ih queue _
      · unfold filterQueueCut filterQueue
        rw [map_bind]
        refine bind_congr fun evts => ?_
        split
        · exact ih _ _
        · exact ih _ _

theorem filterCut_fst (alive : ℕ) (filterers : List (Filterer ρ)) (e : Event κ) :
    (Prod.fst <$> filterCut lib alive filterers e : EventProg ε _) =
      filter lib alive filterers e := by
  unfold filterCut filter
  split
  · rfl
  · exact filterQueueCut_fst _ _ _

/-- What is in hand are the events that are still to be filtered and those that came out. -/
theorem wp_filterQueueCut (alive : ℕ) {queue : List (Event κ × List (Filterer ρ))}
    {events : List (Event κ)} {own : Finset NodeId} (hkeeps : ∀ x ∈ queue, ∀ f ∈ x.2, f.Keeps)
    (hown : InHand (queue.map Prod.fst ++ events) own) :
    (filterQueueCut lib alive queue events : EventProg ε _).wp (custody ε) True own
      fun res g => res = ([], true) ∨ InHand res.1 g := by
  induction alive generalizing queue events own with
  | zero =>
      cases queue with
      | nil => exact Or.inr hown
      | cons x queue => exact Or.inl rfl
  | succ alive ih =>
      rcases queue with _ | ⟨⟨e, fs⟩, queue⟩
      · exact Or.inr hown
      · have hqueue : ∀ x ∈ queue, ∀ f ∈ x.2, f.Keeps := fun x hx =>
          hkeeps x (List.mem_cons_of_mem _ hx)
        cases fs with
        | nil =>
            refine ih hqueue (hown.perm ?_)
            rw [← List.append_assoc]
            exact (List.perm_append_singleton e (queue.map Prod.fst ++ events)).symm
        | cons f fs =>
            have hfs : ∀ f' ∈ f :: fs, f'.Keeps := hkeeps (e, f :: fs) List.mem_cons_self
            obtain ⟨n, F, hn, hrest, hdis, rfl⟩ := InHand.uncons hown
            unfold filterQueueCut
            have hf : (f.filter lib e : EventProg ε _).wp (custody ε) True {n} InHand :=
              Filterer.wp_filter (hfs f List.mem_cons_self) hn
            have hf := wp_frame hf hdis
            refine Prog.wp.bind custody_monotone hf ?_
            rintro evts _ ⟨g, hdis', rfl, hg⟩
            have hall := hg.append hrest hdis'
            split
            · refine ih hqueue (hall.perm ?_)
              rw [← List.append_assoc]
              exact List.perm_append_comm
            · refine ih (fun x hx => ?_) (hall.perm ?_)
              · rcases List.mem_append.mp hx with hx | hx
                · exact hqueue x hx
                · obtain ⟨e', -, rfl⟩ := List.mem_map.mp hx
                  exact fun f' hf' => hfs f' (List.mem_cons_of_mem _ hf')
              · rw [List.map_append, List.map_map, List.append_assoc]
                have hid : (Prod.fst ∘ fun e' : Event κ => (e', fs)) = id := rfl
                rw [hid, List.map_id]
                exact (List.perm_append_comm_assoc _ _ _)

theorem wp_filterCut (alive : ℕ) {filterers : List (Filterer ρ)} {e : Event κ} {n : NodeId}
    (hkeeps : ∀ f ∈ filterers, f.Keeps) (hn : e.subTree = some n) :
    (filterCut lib alive filterers e : EventProg ε _).wp (custody ε) True {n}
      fun res g => res = ([], true) ∨ InHand res.1 g := by
  unfold filterCut
  split
  · exact Or.inr (inHand_singleton hn)
  · refine wp_filterQueueCut alive (fun x hx => ?_) (inHand_singleton hn)
    rw [List.mem_singleton.mp hx]
    exact hkeeps

end Chain

/-! ## Routes -/

/-- The sender acks or nacks every event that it gets, and does not panic. -/
def Settles (send : Event κ → EventProg EventError Unit) : Prop :=
  ∀ e n, e.subTree = some n → (send e).wp (custody EventError) False {n} fun _ g => g = ∅

/-- The debug sender acks what it can marshal and nacks the rest. -/
theorem Debug.settles {lib : Libs κ} (hmarshal : ∀ v, (lib.marshal v).Returns) :
    Settles (Debug.send lib) := by
  intro e n hn
  have hmem := Finset.mem_singleton_self n
  unfold Debug.send
  rw [Prog.wp_bind]
  refine (hmarshal e.payload).wp_left custody_heap fun res => ?_
  cases res with
  | error err => exact wp_nack hn hmem (Finset.erase_singleton n)
  | ok text => exact wp_ack hn hmem (Finset.erase_singleton n)

/-- Senders of different events share no node. -/
theorem InHand.apart {send : Event κ → EventProg EventError Unit} (hsend : Settles send)
    {es : List (Event κ)} {own : Finset NodeId} (h : InHand es own) :
    ∃ f, Apart (es.map send) f ∧ (Finset.range (es.map send).length).biUnion f = own := by
  obtain ⟨ns, hmap, hnd, rfl⟩ := h
  have hlen : es.length = ns.length := by simpa using congrArg List.length hmap
  have hnode : ∀ i (hi : i < ns.length), (es.get ⟨i, hlen ▸ hi⟩).subTree = some ns[i] := by
    intro i hi
    have := congrArg (·[i]?) hmap
    simpa [List.getElem?_eq_getElem hi, List.getElem?_eq_getElem (hlen ▸ hi)] using this
  refine ⟨fun i => if hi : i < ns.length then {ns[i]} else ∅, ⟨?_, ?_⟩, ?_⟩
  · intro i p hp
    rw [List.getElem?_map] at hp
    obtain ⟨e, he, rfl⟩ := Option.map_eq_some_iff.mp hp
    obtain ⟨hi, rfl⟩ := List.getElem?_eq_some_iff.mp he
    rw [dif_pos (hlen ▸ hi)]
    exact hsend _ _ (hnode i (hlen ▸ hi))
  · intro i hi j hj hij
    rw [List.length_map, hlen] at hi hj
    rw [dif_pos hi, dif_pos hj, Finset.disjoint_singleton]
    exact fun heq => hij (hnd.getElem_inj_iff.mp heq)
  · ext x
    rw [List.length_map, hlen, Finset.mem_biUnion, List.mem_toFinset, List.mem_iff_getElem]
    constructor
    · rintro ⟨i, hi, hx⟩
      rw [dif_pos (Finset.mem_range.mp hi), Finset.mem_singleton] at hx
      exact ⟨i, Finset.mem_range.mp hi, hx.symm⟩
    · rintro ⟨i, hi, rfl⟩
      refine ⟨i, Finset.mem_range.mpr hi, ?_⟩
      rw [dif_pos hi]
      exact Finset.mem_singleton_self _

/-- The function on one event; it returns whether the chain has dropped events. -/
def NextFn.runCut (lib : Libs κ) (fn : NextFn κ ρ) (evt : Event κ) : EventProg EventError Bool := do
  let (events, cut) ← Chain.filterCut lib fn.alive fn.filterers evt
  Prog.par fn.turns (events.map fn.send)
  pure cut

theorem NextFn.runCut_forget (lib : Libs κ) (fn : NextFn κ ρ) (evt : Event κ) :
    (fun _ => ()) <$> fn.runCut lib evt = fn.run lib evt := by
  unfold NextFn.runCut NextFn.run
  rw [← Chain.filterCut_fst, map_bind, bind_map_left]
  refine bind_congr fun res => ?_
  rw [map_bind]
  exact bind_pure _

/-- A route settles what it gets, unless events are dropped. -/
theorem NextFn.wp_runCut {lib : Libs κ} {fn : NextFn κ ρ} (hkeeps : ∀ f ∈ fn.filterers, f.Keeps)
    (hsend : Settles fn.send) {evt : Event κ} {n : NodeId} (hn : evt.subTree = some n) :
    (fn.runCut lib evt).wp (custody EventError) True {n} fun cut g => cut = true ∨ g = ∅ := by
  refine Prog.wp.bind custody_monotone (Chain.wp_filterCut _ hkeeps hn) ?_
  rintro ⟨events, cut⟩ g (hcut | hg)
  · obtain ⟨rfl, rfl⟩ := Prod.mk.inj hcut
    have hnil : Prog.par fn.turns (([] : List (Event κ)).map fn.send) = pure ⟨⟩ := by
      induction fn.turns with
      | nil => rfl
      | cons t turns ih => exact ih
    show (Prog.par fn.turns (([] : List (Event κ)).map fn.send) >>= fun _ => pure true).wp _ _ _ _
    rw [hnil]
    exact Or.inl rfl
  · obtain ⟨f, hapart, rfl⟩ := hg.apart hsend
    have hpar : (Prog.par fn.turns (events.map fn.send)).wp (custody EventError) True _
        fun _ g' => g' = ∅ :=
      (hapart.wp_par fn.turns).mono custody_monotone (fun _ => trivial) fun _ _ h => h
    exact Prog.wp.bind custody_monotone hpar fun _ _ hempty => Or.inr hempty

/-! ## The threads of a delivery and what each has in hand -/

namespace Delivery

variable (d : Delivery κ ρ)

/-- A step of a delivery: a call of a goroutine, or the end of the context of the ack tree. -/
def stepCtx {α : Type} (c : Threads (heapSig.sum (ackSig EventError)) (Option ℕ) α Store) :
    Option (Option ℕ) → Option (Threads (heapSig.sum (ackSig EventError)) (Option ℕ) α Store)
  | some t => Threads.step d.machine c t
  | none => some { c with state := { c.state with tree := c.state.tree.contextDone } }

/-- The beginning of a delivery whose goroutines tell whether they have dropped events. -/
def startCut : Threads (heapSig.sum (ackSig EventError)) (Option ℕ) Bool Store where
  state := ⟨d.heap, fun _ => 0, d.tree⟩
  prog
    | none => nextLoop d.event d.nextFns >>= fun _ => pure false
    | some w =>
        match d.nextFns.find? fun fn => fn.wid = w with
        | some fn => fn.runCut d.lib (d.clone fn)
        | none => pure false
  log := fun _ => []

/-- A goroutine has returned and has dropped events. -/
def Cut (sched : List (Option (Option ℕ))) (t : Option ℕ) : Prop :=
  ∃ m, Runs.run d.stepCtx d.startCut sched = some m ∧ m.prog t = .pure true

/-- The event comes from a receiver: its node is the root of an ack tree that nothing has
happened to. -/
structure Received : Prop where
  node : d.evt.subTree = some []
  tree : d.tree = .newAckTree

theorem startCut_forget : d.startCut.forget (fun _ => ()) = d.start := by
  unfold startCut start Threads.forget
  congr 1
  funext t
  cases t with
  | none =>
      dsimp only
      rw [map_bind]
      exact bind_pure _
  | some w =>
      dsimp only
      cases d.nextFns.find? fun fn => fn.wid = w with
      | none => rfl
      | some fn => exact fn.runCut_forget d.lib (d.clone fn)

theorem stepCtx_forget {α β : Type} (f : α → β)
    (c : Threads (heapSig.sum (ackSig EventError)) (Option ℕ) α Store) (a : Option (Option ℕ)) :
    d.stepCtx (c.forget f) a = (d.stepCtx c a).map (Threads.forget f) := by
  cases a with
  | none => rfl
  | some t => exact Threads.step_forget f c t

/-- The mark does not change the runs. -/
theorem run_startCut {sched : List (Option (Option ℕ))}
    {c : Threads (heapSig.sum (ackSig EventError)) (Option ℕ) Unit Store}
    (hrun : Runs.run d.stepCtx d.start sched = some c) :
    ∃ m, Runs.run d.stepCtx d.startCut sched = some m ∧ m.forget (fun _ => ()) = c := by
  rw [← startCut_forget, Runs.run_map (d.stepCtx_forget _)] at hrun
  exact Option.map_eq_some_iff.mp hrun

/-- What the proof knows of a thread: `next` has made `k` clones and not acked the event, or
has acked it; a route has nodes below its clone in hand. -/
def Ghost : Option ℕ → Type
  | none => Option ℕ
  | some _ => Finset NodeId

/-- The clones that `next` has made, `none` once it has acked the event. -/
def made (g : ∀ t, Ghost t) : Option ℕ := g none

/-- The nodes that a route has in hand. -/
def held (g : ∀ t, Ghost t) (w : ℕ) : Finset NodeId := g (some w)

/-- The calls of `next` on an event for `len` routes. -/
def nextSpec (len : ℕ) : Spec (heapSig.sum (ackSig EventError)) (Option ℕ)
  | .inr (.newSubTree n), some k, P => n = [] ∧ k < len ∧ P (.ok [k]) (some (k + 1))
  | .inr (.ack n), some k, P => n = [] ∧ k = len ∧ P () none
  | _, _, _ => False

/-- The specification of each thread. -/
def spec : ∀ t, Spec (heapSig.sum (ackSig EventError)) (Ghost t)
  | none => nextSpec d.nextFns.length
  | some _ => custody EventError

/-- When a goroutine has returned: `next` has acked the event, a route has nothing in hand
unless it has dropped events. -/
def Done : ∀ t, Bool → Ghost t → Prop
  | none, _, g => g = (none : Option ℕ)
  | some w, cut, g => w ∈ d.nextFns.map NextFn.wid → cut = true ∨ g = (∅ : Finset NodeId)

theorem nextSpec_monotone (len : ℕ) : (nextSpec len).Monotone := by
  intro o g P P' h hP
  rcases o with o | o
  · exact hP
  · cases o with
    | isAcked n => exact hP
    | newSubTree n =>
        cases g with
        | none => exact hP
        | some k => exact ⟨hP.1, hP.2.1, h _ _ hP.2.2⟩
    | ack n =>
        cases g with
        | none => exact hP
        | some k => exact ⟨hP.1, hP.2.1, h _ _ hP.2.2⟩
    | nack n err => exact hP

/-- `next` clones the event for every route and acks it. -/
theorem wp_nextLoop {evt : Event κ} (hevt : evt.subTree = some []) {len k : ℕ}
    (fns : List (NextFn κ ρ)) (hk : k + fns.length = len) :
    (nextLoop evt fns).wp (nextSpec len) True (some k) fun _ g => g = none := by
  induction fns generalizing k with
  | nil =>
      unfold nextLoop Event.Calls.ack
      rw [hevt]
      exact ⟨rfl, by simpa using hk, rfl⟩
  | cons fn rest ih =>
      unfold nextLoop Event.Calls.clone
      rw [hevt]
      refine ⟨rfl, ?_, ih ?_⟩
      · rw [List.length_cons] at hk
        omega
      · rw [List.length_cons] at hk
        omega

/-- In hand at the beginning: the event, and for each route the clone that it will get. -/
def ghost : ∀ t, Ghost t
  | none => some (0 : ℕ)
  | some _ => ({[]} : Finset NodeId)

/-- Every thread meets its specification. -/
theorem wp_startCut {d : Delivery κ ρ} (hrec : d.Received)
    (hkeeps : ∀ fn ∈ d.nextFns, ∀ f ∈ fn.filterers, f.Keeps)
    (hsend : ∀ fn ∈ d.nextFns, Settles fn.send) (t : Option ℕ) :
    (d.startCut.prog t).wp (d.spec t) True (ghost t) (d.Done t) := by
  have hnode : d.event.subTree = some [] := by
    show d.evt.subTree.map _ = _
    rw [hrec.node]
    rfl
  cases t with
  | none =>
      refine Prog.wp.bind (nextSpec_monotone _) (wp_nextLoop hnode d.nextFns (Nat.zero_add _)) ?_
      rintro _ g rfl
      rfl
  | some w =>
      show (match d.nextFns.find? fun fn : NextFn κ ρ => fn.wid = w with
        | some fn => fn.runCut d.lib (d.clone fn)
        | none => pure false).wp (custody EventError) True {[]} (d.Done (some w))
      cases hfind : d.nextFns.find? fun fn => fn.wid = w with
      | none =>
          intro hw
          obtain ⟨fn, hfn, rfl⟩ := List.mem_map.mp hw
          rw [find_wid d.wids hfn] at hfind
          simp at hfind
      | some fn =>
          have hfn : fn ∈ d.nextFns := List.mem_of_find?_eq_some hfind
          have hroute : (fn.runCut d.lib (d.clone fn)).wp (custody EventError) True {[]}
              fun cut g => cut = true ∨ g = ∅ :=
            NextFn.wp_runCut (hkeeps fn hfn) (hsend fn hfn) hnode
          exact hroute.mono custody_monotone id fun cut g h _ => h

/-! ## The accounts

Every node below a clone is acked, or in hand of the route of the clone, or the receiver has
been told already. -/

/-- The state of the ack tree after the calls `hist`, and what the threads have in hand. -/
structure Accounts (hist : List (AckTree.Op EventError)) (t : AckTree EventError)
    (g : ∀ i, Ghost i) : Prop where
  run : Runs.run AckTree.step .newAckTree hist = some t
  once : (AckTree.ackedNodes hist).Nodup
  clones : (t.node []).numAckExpected = Option.getD (made g) d.nextFns.length + 1
  next : ∀ k, made g = some k → k ≤ d.nextFns.length ∧ AckTree.Op.ack [] ∉ hist
  acked : made g = none → AckTree.Op.ack [] ∈ hist
  waiting : ∀ w, ¬ t.Created [d.position w] → held g w = {[]}
  hand : ∀ w, t.Created [d.position w] → ∀ m ∈ held g w,
    t.Created (m ++ [d.position w]) ∧ AckTree.Op.ack (m ++ [d.position w]) ∉ hist
  settled : ∀ w m, t.Created (m ++ [d.position w]) →
    AckTree.Op.ack (m ++ [d.position w]) ∈ hist ∨ m ∈ held g w ∨
      (t.node []).completed = true

variable {d} {hist : List (AckTree.Op EventError)} {t t' : AckTree EventError}
  {g g' : ∀ i, Ghost i} {w j : ℕ}

theorem held_update (g : ∀ t, Ghost t) (w : ℕ) (F : Finset NodeId) (j : ℕ) :
    held (Function.update g (some w) F) j = if j = w then F else held g j := by
  by_cases hj : j = w
  · subst hj
    rw [if_pos rfl]
    exact Function.update_self ..
  · rw [if_neg hj]
    exact Function.update_of_ne (by simpa using hj) ..

theorem made_update (g : ∀ t, Ghost t) (w : ℕ) (F : Finset NodeId) :
    made (Function.update g (some w) F) = made g :=
  Function.update_of_ne (by simp) ..

theorem held_update_none (g : ∀ t, Ghost t) (k : Option ℕ) (j : ℕ) :
    held (Function.update g none k) j = held g j :=
  Function.update_of_ne (by simp) ..

theorem made_update_none (g : ∀ t, Ghost t) (k : Option ℕ) :
    made (Function.update g none k) = k :=
  Function.update_self ..

/-- The beginning: no call has been made. -/
theorem accounts_start : d.Accounts [] .newAckTree ghost where
  run := rfl
  once := List.nodup_nil
  clones := rfl
  next k hk := by
    obtain rfl : 0 = k := Option.some.inj hk
    exact ⟨Nat.zero_le _, by simp⟩
  acked h := absurd h (Option.some_ne_none 0)
  waiting w _ := rfl
  hand w hc := absurd hc.2 (by simp [AckTree.newAckTree])
  settled w m hc := by
    have hc' := hc.of_suffix (List.suffix_append m [d.position w])
    exact absurd hc'.2 (by simp [AckTree.newAckTree])

namespace Accounts

theorem trace (h : d.Accounts hist t g) : AckTree.Trace hist t := AckTree.trace_of_run h.run

theorem made_le (h : d.Accounts hist t g) : (t.node []).numAckExpected ≤ d.nextFns.length + 1 := by
  have hclones := h.clones
  have hnext := h.next
  revert hclones hnext
  generalize made g = k
  intro hclones hnext
  cases k with
  | none => exact hclones.le
  | some k =>
      rw [hclones]
      exact Nat.succ_le_succ (hnext k rfl).1

/-- The clone at a place is the clone of one route. -/
theorem position_ne (h : d.Accounts hist t g) (hc : t.Created [d.position w]) (hj : j ≠ w) :
    d.position j ≠ d.position w := by
  have hlt : d.position w < d.nextFns.length := by
    have := hc.2
    have := h.made_le
    omega
  refine Delivery.position_ne ?_ hj
  obtain ⟨fn, hfn, hw⟩ := List.findIdx_lt_length.mp hlt
  rw [← of_decide_eq_true hw]
  exact List.mem_map_of_mem hfn

/-- Nodes below the clones of different routes are different. -/
theorem node_ne (h : d.Accounts hist t g) (hc : t.Created [d.position w]) (hj : j ≠ w)
    (m n : NodeId) : m ++ [d.position j] ≠ n ++ [d.position w] := by
  intro heq
  exact h.position_ne hc hj (by simpa using (List.append_inj' heq rfl).2)

/-- A node that has not been acked. -/
theorem unacked (h : d.Accounts hist t g) {n : NodeId} (hn : AckTree.Op.ack n ∉ hist) :
    (t.node n).selfAcked = false := by
  rw [← Bool.not_eq_true]
  exact fun hself => hn (h.trace.acked_mem n hself)

/-- A call that makes no node and only takes nodes out of hands. -/
theorem settle (h : d.Accounts hist t g) {op : AckTree.Op EventError} (hs : t.step op = some t')
    (hop : ∀ n, op ≠ .newSubTree n) (honce : ∀ n, op = .ack n → AckTree.Op.ack n ∉ hist)
    (hnext : made g' = made g ∧ op ≠ .ack [] ∨
      made g = some d.nextFns.length ∧ made g' = none ∧ op = .ack [])
    (hwait : ∀ w, ¬ t.Created [d.position w] → held g' w = held g w)
    (hsub : ∀ w, ∀ m ∈ held g' w,
      m ∈ held g w ∧ op ≠ .ack (m ++ [d.position w]))
    (hrest : ∀ w, ∀ m ∈ held g w, t.Created (m ++ [d.position w]) →
      m ∈ held g' w ∨ op = .ack (m ++ [d.position w]) ∨
        (t'.node []).completed = true) :
    d.Accounts (hist ++ [op]) t' g' := by
  have hexp : ∀ m, (t'.node m).numAckExpected = (t.node m).numAckExpected := by
    intro m
    rcases AckTree.step_cases hs with ⟨n, rfl, hc, rfl⟩ | ⟨n, err, rfl, -, rfl⟩ | ⟨n, rfl, -, rfl⟩ |
      ⟨rfl, rfl⟩
    · exact AckTree.ackNode_numAckExpected _ _
    · exact AckTree.ackNode_numAckExpected _ _
    · exact absurd rfl (hop n)
    · rw [AckTree.contextDone_node]
      split
      · rename_i hm
        rw [hm.1]
      · rfl
  have hcreated : ∀ m, t'.Created m ↔ t.Created m := fun m => AckTree.created_congr hexp
  have hmem : ∀ n, AckTree.Op.ack n ∈ hist ++ [op] ↔ AckTree.Op.ack n ∈ hist ∨ op = .ack n := by
    intro n
    rw [List.mem_append, List.mem_singleton, eq_comm (a := op)]
  refine ⟨?_, ?_, ?_, ?_, ?_, ?_, ?_, ?_⟩
  · refine Runs.run_append_eq_some.mpr ⟨t, h.run, ?_⟩
    rw [Runs.run_singleton, hs]
  · unfold AckTree.ackedNodes
    rw [List.filterMap_append]
    refine List.nodup_append.mpr ⟨h.once, ?_, ?_⟩
    · cases op <;> simp
    · intro a ha b hb hab
      subst hab
      cases op with
      | ack n =>
          obtain rfl : a = n := by simpa using hb
          exact honce a rfl (AckTree.mem_ackedNodes.mp ha)
      | nack n err => simp at hb
      | newSubTree n => simp at hb
      | contextDone => simp at hb
  · rw [hexp, h.clones]
    rcases hnext with ⟨heq, -⟩ | ⟨heq, heq', -⟩
    · rw [heq]
    · rw [heq, heq']
      rfl
  · intro k hk
    rcases hnext with ⟨heq, hne⟩ | ⟨-, heq', -⟩
    · obtain ⟨hle, hnot⟩ := h.next k (heq ▸ hk)
      exact ⟨hle, fun hin => ((hmem []).mp hin).elim hnot hne⟩
    · rw [heq'] at hk
      cases hk
  · intro hk
    rcases hnext with ⟨heq, -⟩ | ⟨-, -, rfl⟩
    · exact List.mem_append_left _ (h.acked (heq ▸ hk))
    · simp
  · intro w hw
    rw [hcreated] at hw
    rw [hwait w hw, h.waiting w hw]
  · intro w hw m hm
    rw [hcreated] at hw
    obtain ⟨hm', hne⟩ := hsub w m hm
    obtain ⟨hc, hnot⟩ := h.hand w hw m hm'
    exact ⟨(hcreated _).mpr hc, fun hin => ((hmem _).mp hin).elim hnot hne⟩
  · intro w m hm
    rw [hcreated] at hm
    rcases h.settled w m hm with hin | hin | hcomp
    · exact Or.inl (List.mem_append_left _ hin)
    · rcases hrest w m hin hm with hin' | rfl | hcomp
      · exact Or.inr (Or.inl hin')
      · exact Or.inl (by simp)
      · exact Or.inr (Or.inr hcomp)
    · exact Or.inr (Or.inr ((AckTree.step_mono hs (m := []) trivial).2.2 hcomp))

/-- A new child of a node in hand. -/
theorem newChild (h : d.Accounts hist t g) {n : NodeId} (hc : t.Created n)
    (hn : AckTree.Op.ack n ∉ hist)
    (hclones : ((t.newSubTree n).1.node []).numAckExpected =
      Option.getD (made g') d.nextFns.length + 1)
    (hnext : ∀ k, made g' = some k → k ≤ d.nextFns.length ∧ AckTree.Op.ack [] ∉ hist)
    (hacked : made g' = none → AckTree.Op.ack [] ∈ hist)
    (hwait : ∀ w, ¬ t.Created [d.position w] → held g' w = {[]})
    (hhand : ∀ w, ∀ m, m ∈ held g' w ↔ m ∈ held g w ∨
      m ++ [d.position w] = ((t.node n).numAckExpected - 1) :: n) :
    d.Accounts (hist ++ [.newSubTree n]) (t.newSubTree n).1 g' := by
  have hpos := h.trace.tally.expected_pos n
  have hself := h.unacked hn
  have hstep : t.step (.newSubTree n) = some (t.newSubTree n).1 := by simp [AckTree.step, hc]
  have hmem : ∀ m, AckTree.Op.ack m ∈ hist ++ [AckTree.Op.newSubTree n] ↔
      AckTree.Op.ack m ∈ hist := by simp
  have hchild : (t.newSubTree n).1.Created (((t.node n).numAckExpected - 1) :: n) :=
    hc.newChild hpos hself
  have hfresh : AckTree.Op.ack (((t.node n).numAckExpected - 1) :: n) ∉ hist :=
    fun hin => (h.trace.mem_acked _ hin).1.ne_newChild rfl
  refine ⟨?_, ?_, hclones, ?_, ?_, ?_, ?_, ?_⟩
  · refine Runs.run_append_eq_some.mpr ⟨t, h.run, ?_⟩
    rw [Runs.run_singleton, hstep]
  · unfold AckTree.ackedNodes
    rw [List.filterMap_append, List.filterMap_cons_none rfl, List.filterMap_nil, List.append_nil]
    exact h.once
  · intro k hk
    rw [hmem]
    exact hnext k hk
  · intro hk
    rw [hmem]
    exact hacked hk
  · exact fun w hw => hwait w fun hw' => hw (hw'.newSubTree n)
  · intro w hw m hm
    rw [hmem]
    rcases (hhand w m).mp hm with hm | hm
    · by_cases hw' : t.Created [d.position w]
      · obtain ⟨hcm, hnot⟩ := h.hand w hw' m hm
        exact ⟨hcm.newSubTree n, hnot⟩
      · rw [h.waiting w hw', Finset.mem_singleton] at hm
        subst hm
        rcases AckTree.newSubTree_created hpos hw with hw | ⟨heq, -⟩
        · exact absurd hw hw'
        · rw [List.nil_append, heq]
          exact ⟨hchild, hfresh⟩
    · rw [hm]
      exact ⟨hchild, hfresh⟩
  · intro w m hm
    rw [hmem]
    rcases AckTree.newSubTree_created hpos hm with hm | ⟨heq, -⟩
    · rcases h.settled w m hm with hin | hin | hcomp
      · exact Or.inl hin
      · exact Or.inr (Or.inl ((hhand w m).mpr (Or.inl hin)))
      · exact Or.inr (Or.inr ((AckTree.step_mono hstep (m := []) trivial).2.2 hcomp))
    · exact Or.inr (Or.inl ((hhand w m).mpr (Or.inr heq)))

/-- `next` clones the event. -/
theorem clone (h : d.Accounts hist t g) {k : ℕ} (hk : made g = some k)
    (hlt : k < d.nextFns.length) :
    d.Accounts (hist ++ [.newSubTree []]) (t.newSubTree []).1
      (Function.update g none (some (k + 1) : Option ℕ)) := by
  have hn := (h.next k hk).2
  have hexp : (t.node []).numAckExpected = k + 1 := by
    rw [h.clones, hk]
    rfl
  refine h.newChild trivial hn ?_ ?_ ?_ ?_ ?_
  · rw [AckTree.newSubTree_node (m := []) trivial, if_pos ⟨rfl, h.unacked hn⟩, made_update_none]
    show (t.node []).numAckExpected + 1 = k + 1 + 1
    rw [hexp]
  · intro k' hk'
    rw [made_update_none, Option.some.injEq] at hk'
    subst hk'
    exact ⟨hlt, hn⟩
  · intro hnone
    rw [made_update_none] at hnone
    cases hnone
  · intro w hw
    rw [held_update_none, h.waiting w hw]
  · intro w m
    rw [held_update_none, or_iff_left_of_imp]
    intro heq
    -- the new clone is what the route has been waiting for
    obtain ⟨rfl, hpos⟩ : m = [] ∧ d.position w = (t.node []).numAckExpected - 1 := by
      cases m with
      | nil => exact ⟨rfl, by simpa using heq⟩
      | cons i m => simp at heq
    have hw : ¬ t.Created [d.position w] := by
      rw [hpos]
      exact fun hc => hc.ne_newChild rfl
    rw [h.waiting w hw]
    exact Finset.mem_singleton_self _

/-- `next` acks the event. -/
theorem ackRoot (h : d.Accounts hist t g) (hk : made g = some d.nextFns.length) :
    d.Accounts (hist ++ [.ack []]) (t.ack []) (Function.update g none (none : Option ℕ)) := by
  refine h.settle rfl (by simp) ?_ (Or.inr ⟨hk, made_update_none g none, rfl⟩) ?_ ?_ ?_
  · intro n hn
    cases hn
    exact (h.next _ hk).2
  · exact fun w _ => held_update_none g none w
  · intro w m hm
    rw [held_update_none] at hm
    exact ⟨hm, by simp⟩
  · intro w m hm _
    rw [held_update_none]
    exact Or.inl hm

/-- The context ends. -/
theorem contextDone (h : d.Accounts hist t g) :
    d.Accounts (hist ++ [.contextDone]) t.contextDone g := by
  refine h.settle rfl (by simp) (by simp) (Or.inl ⟨rfl, by simp⟩) (fun w _ => rfl) ?_ ?_
  · exact fun w m hm => ⟨hm, by simp⟩
  · exact fun w m hm _ => Or.inl hm

section Route

variable {n : NodeId} (h : d.Accounts hist t g) (hw : t.Created [d.position w])
  (hn : n ∈ held g w)
include h hw hn

/-- A route makes a node. -/
theorem routeClone :
    d.Accounts (hist ++ [.newSubTree (n ++ [d.position w])])
      (t.newSubTree (n ++ [d.position w])).1
      (Function.update g (some w) (insert
        (((t.node (n ++ [d.position w])).numAckExpected - 1) :: n) (held g w) : Finset NodeId)) := by
  obtain ⟨hc, hnot⟩ := h.hand w hw n hn
  refine h.newChild hc hnot ?_ ?_ ?_ ?_ ?_
  · rw [AckTree.newSubTree_node (m := []) trivial, if_neg (by simp), made_update]
    exact h.clones
  · rw [made_update]
    exact h.next
  · rw [made_update]
    exact h.acked
  · intro j hj
    have hjw : j ≠ w := by
      rintro rfl
      exact hj hw
    rw [held_update, if_neg hjw, h.waiting j hj]
  · intro j m
    rw [held_update, ← List.cons_append]
    by_cases hj : j = w
    · subst hj
      rw [if_pos rfl, Finset.mem_insert, List.append_cancel_right_eq, or_comm]
    · rw [if_neg hj, or_iff_left (h.node_ne hw hj _ _)]

/-- A route acks a node. -/
theorem routeAck :
    d.Accounts (hist ++ [.ack (n ++ [d.position w])]) (t.ack (n ++ [d.position w]))
      (Function.update g (some w) ((held g w).erase n : Finset NodeId)) := by
  obtain ⟨hc, hnot⟩ := h.hand w hw n hn
  refine h.settle (by simp [AckTree.step, hc]) (by simp) ?_ ?_ ?_ ?_ ?_
  · intro m hm
    cases hm
    exact hnot
  · exact Or.inl ⟨made_update g w _, by simp⟩
  · intro j hj
    have hjw : j ≠ w := by
      rintro rfl
      exact hj hw
    rw [held_update, if_neg hjw]
  · intro j m hm
    rw [held_update] at hm
    by_cases hj : j = w
    · subst hj
      rw [if_pos rfl, Finset.mem_erase] at hm
      exact ⟨hm.2, by simpa using Ne.symm hm.1⟩
    · rw [if_neg hj] at hm
      refine ⟨hm, fun heq => h.node_ne hw hj m n ?_⟩
      exact (AckTree.Op.ack.inj heq).symm
  · intro j m hm _
    rw [held_update]
    by_cases hj : j = w
    · subst hj
      rw [if_pos rfl, Finset.mem_erase]
      by_cases hmn : m = n
      · subst hmn
        exact Or.inr (Or.inl rfl)
      · exact Or.inl ⟨hmn, hm⟩
    · rw [if_neg hj]
      exact Or.inl hm

/-- A nack of a node in hand tells the receiver, if nothing has. -/
theorem nack_completed (err : EventError) :
    ((t.nack (n ++ [d.position w]) err).node []).completed = true := by
  obtain ⟨hc, hnot⟩ := h.hand w hw n hn
  by_cases hroot : (t.node []).completed = true
  · have hstep : t.step (.nack (n ++ [d.position w]) err) =
        some (t.nack (n ++ [d.position w]) err) := by simp [AckTree.step, hc]
    exact (AckTree.step_mono hstep (m := []) trivial).2.2 hroot
  · rw [Bool.not_eq_true] at hroot
    have hinv : t.invoked = [] := h.trace.tally.invoked_eq_nil hroot
    have hopen := h.trace.openPath h.once hinv (List.suffix_refl _) hc hnot
    unfold AckTree.nack
    rw [AckTree.ackNode_some_of_open _ hopen]
    simp

/-- A route nacks a node. -/
theorem routeNack (err : EventError) :
    d.Accounts (hist ++ [.nack (n ++ [d.position w]) err]) (t.nack (n ++ [d.position w]) err)
      (Function.update g (some w) ((held g w).erase n : Finset NodeId)) := by
  obtain ⟨hc, hnot⟩ := h.hand w hw n hn
  refine h.settle (by simp [AckTree.step, hc]) (by simp) (by simp) ?_ ?_ ?_ ?_
  · exact Or.inl ⟨made_update g w _, by simp⟩
  · intro j hj
    have hjw : j ≠ w := by
      rintro rfl
      exact hj hw
    rw [held_update, if_neg hjw]
  · intro j m hm
    rw [held_update] at hm
    refine ⟨?_, by simp⟩
    by_cases hj : j = w
    · subst hj
      rw [if_pos rfl] at hm
      exact Finset.mem_of_mem_erase hm
    · rwa [if_neg hj] at hm
  · exact fun j m _ _ => Or.inr (Or.inr (h.nack_completed hw hn err))

end Route

end Accounts

/-! ## Every call keeps the accounts -/

/-- The calls that were made on the tree, and what is in hand. -/
def Accounted (d : Delivery κ ρ) (s : Store) (g : ∀ t, Ghost t) : Prop :=
  ∃ hist, d.Accounts hist s.tree g

theorem Received.root (hrec : d.Received) (w : ℕ) : d.root w = some [d.position w] := by
  unfold Delivery.root
  rw [hrec.node, hrec.tree]
  simp [AckTree.newAckTree]

theorem act_eq {s : Store} {op : AckTree.Op EventError} (hs : s.tree.step op = some t') :
    s.act op = { s with tree := t' } := by
  unfold Store.act
  rw [hs]

/-- A node in hand can make a child, and the name of the child is its number and the name of
the node. -/
theorem handle_newSubTree (order : Finset String → List String) (w : ℕ) {s : Store} {n c : NodeId}
    (hc : s.tree.Created (n ++ c)) (hn : (s.tree.node (n ++ c)).selfAcked = false) :
    (Store.handle order w (some c) (.inr (.newSubTree n)) s).1 =
      .ok (((s.tree.node (n ++ c)).numAckExpected - 1) :: n) := by
  show (if s.tree.Created (n ++ c) then
    (s.tree.newSubTree (n ++ c)).2.map (fun child => child.take (n.length + 1)) else _) = _
  rw [if_pos hc, newSubTree_name, if_neg (by simp [hn])]

/-- A call of `next`. -/
theorem accounted_next {o : (heapSig.sum (ackSig EventError)).Op} {s : Store}
    {P : (heapSig.sum (ackSig EventError)).Res o → Ghost none → Prop}
    (h : d.Accounted s g) (hP : nextSpec d.nextFns.length o (g none) P) :
    ∃ g', P (Store.handle d.order 0 (some []) o s).1 g' ∧
      d.Accounted (Store.handle d.order 0 (some []) o s).2 (Function.update g none g') := by
  obtain ⟨hist, hacc⟩ := h
  obtain ⟨k, hk⟩ : ∃ k, g none = k := ⟨_, rfl⟩
  rw [hk] at hP
  rcases o with o | o
  · exact hP.elim
  · cases k with
    | none => cases o <;> exact hP.elim
    | some k =>
        have hnot := (hacc.next k hk).2
        have hexp : (s.tree.node []).numAckExpected = k + 1 := by
          rw [hacc.clones, show made g = some k from hk]
          rfl
        cases o with
        | isAcked n => exact hP.elim
        | nack n err => exact hP.elim
        | newSubTree n =>
            obtain ⟨rfl, hlt, hP⟩ := hP
            have hres := handle_newSubTree d.order 0 (c := []) (n := []) trivial
              (hacc.unacked hnot)
            rw [show ([] : NodeId) ++ [] = [] from rfl, hexp, Nat.add_sub_cancel] at hres
            refine ⟨some (k + 1), ?_, hist ++ [.newSubTree []], ?_⟩
            · exact (congrArg (fun r => P r (some (k + 1))) hres).mpr hP
            · show d.Accounts _ (s.act (.newSubTree [])).tree _
              rw [act_eq (show s.tree.step (.newSubTree []) = some (s.tree.newSubTree []).1 from rfl)]
              exact hacc.clone hk hlt
        | ack n =>
            obtain ⟨rfl, rfl, hP⟩ := hP
            refine ⟨none, hP, hist ++ [.ack []], ?_⟩
            show d.Accounts _ (s.act (.ack [])).tree _
            rw [act_eq (show s.tree.step (.ack []) = some (s.tree.ack []) from rfl)]
            exact hacc.ackRoot hk

/-- A call of a route that has been started. -/
theorem accounted_route {o : (heapSig.sum (ackSig EventError)).Op} {s : Store}
    {P : (heapSig.sum (ackSig EventError)).Res o → Finset NodeId → Prop}
    (h : d.Accounted s g) (hw : s.tree.Created [d.position w])
    (hP : custody EventError o (held g w) P) :
    ∃ g', P (Store.handle d.order w (some [d.position w]) o s).1 g' ∧
      d.Accounted (Store.handle d.order w (some [d.position w]) o s).2
        (Function.update g (some w) (g' : Finset NodeId)) := by
  obtain ⟨hist, hacc⟩ := h
  have hself : Function.update g (some w) (held g w : Finset NodeId) = g :=
    Function.update_eq_self ..
  rcases o with o | o
  · refine ⟨held g w, hP _, hist, ?_⟩
    rw [hself]
    have htree : (Store.handleHeap d.order w o s).2.tree = s.tree := by cases o <;> rfl
    show d.Accounts hist (Store.handleHeap d.order w o s).2.tree g
    rwa [htree]
  · cases o with
    | isAcked n =>
        obtain ⟨hn, hP⟩ := hP
        refine ⟨held g w, ?_, hist, ?_⟩
        · show P (s.tree.isAcked (n ++ [d.position w])) _
          rw [show s.tree.isAcked (n ++ [d.position w]) = false from
            hacc.unacked (hacc.hand w hw n hn).2]
          exact hP
        · rwa [hself]
    | newSubTree n =>
        obtain ⟨hn, hP⟩ := hP
        obtain ⟨hc, hnot⟩ := hacc.hand w hw n hn
        refine ⟨insert (((s.tree.node (n ++ [d.position w])).numAckExpected - 1) :: n) (held g w),
          ?_, hist ++ [.newSubTree (n ++ [d.position w])], ?_⟩
        · have hres := handle_newSubTree d.order w hc (hacc.unacked hnot)
          refine (congrArg (fun r => P r _) hres).mpr (hP _ fun hin => ?_)
          exact (hacc.hand w hw _ hin).1.ne_newChild rfl
        · show d.Accounts _ (s.act (.newSubTree (n ++ [d.position w]))).tree _
          rw [act_eq (show s.tree.step (.newSubTree (n ++ [d.position w])) =
            some (s.tree.newSubTree (n ++ [d.position w])).1 by simp [AckTree.step, hc])]
          exact hacc.routeClone hw hn
    | ack n =>
        obtain ⟨hn, hP⟩ := hP
        obtain ⟨hc, -⟩ := hacc.hand w hw n hn
        refine ⟨_, hP, hist ++ [.ack (n ++ [d.position w])], ?_⟩
        show d.Accounts _ (s.act (.ack (n ++ [d.position w]))).tree _
        rw [act_eq (show s.tree.step (.ack (n ++ [d.position w])) =
          some (s.tree.ack (n ++ [d.position w])) by simp [AckTree.step, hc])]
        exact hacc.routeAck hw hn
    | nack n err =>
        obtain ⟨hn, hP⟩ := hP
        obtain ⟨hc, -⟩ := hacc.hand w hw n hn
        refine ⟨_, hP, hist ++ [.nack (n ++ [d.position w]) err], ?_⟩
        show d.Accounts _ (s.act (.nack (n ++ [d.position w]) err)).tree _
        rw [act_eq (show s.tree.step (.nack (n ++ [d.position w]) err) =
          some (s.tree.nack (n ++ [d.position w]) err) by simp [AckTree.step, hc])]
        exact hacc.routeNack hw hn err

/-- **In every run every thread accounts for what it has in hand.** -/
theorem meets_of_run (hrec : d.Received)
    (hkeeps : ∀ fn ∈ d.nextFns, ∀ f ∈ fn.filterers, f.Keeps)
    (hsend : ∀ fn ∈ d.nextFns, Settles fn.send) {sched : List (Option (Option ℕ))}
    {m : Threads (heapSig.sum (ackSig EventError)) (Option ℕ) Bool Store}
    (hrun : Runs.run d.stepCtx d.startCut sched = some m) :
    Threads.Meets d.spec True d.Done d.Accounted m := by
  refine Runs.run_induction (fun c a c' h hs => ?_) ?_ hrun
  · cases a with
    | none =>
        obtain rfl := Option.some.inj hs
        obtain ⟨g, ⟨hist, hacc⟩, hwp⟩ := h
        exact ⟨g, ⟨_, hacc.contextDone⟩, hwp⟩
    | some t =>
        refine Threads.wp_of_step (fun i o s g P hI hstarted hP => ?_) h hs
        cases i with
        | none =>
            show ∃ g', P (Store.handle d.order 0 d.evt.subTree o s).1 g' ∧
              d.Accounted (Store.handle d.order 0 d.evt.subTree o s).2 _
            rw [hrec.node]
            exact accounted_next hI hP
        | some w =>
            have hstarted : ((d.root w).all fun c => decide (s.tree.Created c)) = true := hstarted
            show ∃ g', P (Store.handle d.order w (d.root w) o s).1 g' ∧
              d.Accounted (Store.handle d.order w (d.root w) o s).2 _
            rw [hrec.root w] at hstarted ⊢
            exact accounted_route hI (of_decide_eq_true hstarted) hP
  · refine ⟨ghost, ⟨[], ?_⟩, wp_startCut hrec hkeeps hsend⟩
    show d.Accounts [] d.tree ghost
    rw [hrec.tree]
    exact accounts_start

/-! ## The errors -/

/-- Only the end of the context and nacks start `errFn`. -/
theorem errFn_of_step {op : AckTree.Op EventError} (hs : t.step op = some t')
    {e : AckError EventError} (he : .errFn e ∈ t'.invoked) :
    .errFn e ∈ t.invoked ∨ (op = .contextDone ∧ e = .timeoutError) ∨
      ∃ n err, op = .nack n err ∧ e = .nackError err := by
  rcases AckTree.step_cases hs with ⟨n, rfl, hc, rfl⟩ | ⟨n, err, rfl, -, rfl⟩ | ⟨n, rfl, -, rfl⟩ |
    ⟨rfl, rfl⟩
  · unfold AckTree.ack at he
    rcases AckTree.ackNode_none_invoked (t := t) (n := n) (b := true) with h | h
    · exact Or.inl (h ▸ he)
    · rw [h, List.mem_append, List.mem_singleton] at he
      exact Or.inl (he.resolve_right (by simp))
  · by_cases hopen : t.OpenPath n
    · unfold AckTree.nack at he
      rw [AckTree.ackNode_some_of_open _ hopen, AckTree.markComplete_invoked,
        AckTree.invoke_invoked, List.mem_append, List.mem_singleton] at he
      rcases he with he | he
      · exact Or.inl he
      · exact Or.inr (Or.inr ⟨n, err, rfl, Invocation.errFn.inj he⟩)
    · unfold AckTree.nack at he
      rw [AckTree.ackNode_some_of_not_open _ hopen] at he
      exact Or.inl he
  · rw [AckTree.newSubTree_invoked] at he
    exact Or.inl he
  · unfold AckTree.contextDone at he
    split at he
    · exact Or.inl he
    · rw [AckTree.markComplete_invoked, AckTree.invoke_invoked, List.mem_append,
        List.mem_singleton] at he
      rcases he with he | he
      · exact Or.inl he
      · exact Or.inr (Or.inl ⟨rfl, Invocation.errFn.inj he⟩)

/-- A goroutine has nacked a node with this error. -/
def Nacked {α : Type} (c : Threads (heapSig.sum (ackSig EventError)) (Option ℕ) α Store)
    (err : EventError) : Prop :=
  ∃ t n, ⟨.inr (.nack n err), ()⟩ ∈ c.log t

/-- The reason why `errFn` was started. -/
def Reason {α : Type} (sched : List (Option (Option ℕ)))
    (c : Threads (heapSig.sum (ackSig EventError)) (Option ℕ) α Store) :
    AckError EventError → Prop
  | .nackError err => Nacked c err
  | .timeoutError => none ∈ sched

/-- What a call does to the tree. -/
theorem handle_tree (t : Option ℕ) (o : (heapSig.sum (ackSig EventError)).Op) (s : Store) :
    (d.machine.handle t o s).2.tree = s.tree ∨
      ∃ op, s.tree.step op = some (d.machine.handle t o s).2.tree ∧ op ≠ .contextDone ∧
        ∀ n err, op = .nack n err → ∃ n', o = .inr (.nack n' err) := by
  obtain ⟨w, root, hhandle⟩ : ∃ w root, d.machine.handle t = Store.handle d.order w root := by
    cases t with
    | none => exact ⟨_, _, rfl⟩
    | some w => exact ⟨_, _, rfl⟩
  rw [hhandle]
  rcases o with o | o
  · left
    cases o <;> rfl
  · have hact : ∀ op, (s.act op).tree = s.tree ∨ s.tree.step op = some (s.act op).tree := by
      intro op
      unfold Store.act
      split
      · rename_i t' ht'
        exact Or.inr ht'
      · exact Or.inl rfl
    cases root with
    | none => cases o <;> exact Or.inl rfl
    | some c =>
        cases o with
        | isAcked n => exact Or.inl rfl
        | newSubTree n =>
            exact (hact (.newSubTree (n ++ c))).imp id fun h => ⟨_, h, by simp, by simp⟩
        | ack n => exact (hact (.ack (n ++ c))).imp id fun h => ⟨_, h, by simp, by simp⟩
        | nack n err =>
            refine (hact (.nack (n ++ c) err)).imp id fun h => ⟨_, h, by simp, ?_⟩
            intro n' err' heq
            obtain ⟨-, rfl⟩ := AckTree.Op.nack.inj heq
            exact ⟨n, rfl⟩

/-- After the end of the context the root is complete. -/
theorem completed_of_timeout {α : Type} {sched : List (Option (Option ℕ))}
    {c₀ c : Threads (heapSig.sum (ackSig EventError)) (Option ℕ) α Store}
    (hrun : Runs.run d.stepCtx c₀ sched = some c) (hctx : none ∈ sched) :
    (c.state.tree.node []).completed = true := by
  refine Runs.run_induction_trace
    (P := fun sched (c : Threads _ (Option ℕ) α Store) =>
      none ∈ sched → (c.state.tree.node []).completed = true) ?_ (by simp) hrun hctx
  intro sched c a c' ih hs hctx
  cases a with
  | none =>
      obtain rfl := Option.some.inj hs
      show (c.state.tree.contextDone.node []).completed = true
      rw [AckTree.contextDone_node]
      split
      · rfl
      · rename_i h
        simpa using h
  | some i =>
      have hbefore := ih (by simpa using hctx)
      obtain ⟨o, k, -, -, rfl⟩ := Threads.step_cases hs
      rw [Threads.advance_state]
      rcases handle_tree (d := d) i o c.state with htree | ⟨op, hstep, -⟩
      · rwa [htree]
      · exact (AckTree.step_mono hstep (m := []) trivial).2.2 hbefore

/-- `errFn` is started for a reason. -/
theorem reason_of_run (hrec : d.Received) {sched : List (Option (Option ℕ))}
    {c : Threads (heapSig.sum (ackSig EventError)) (Option ℕ) Unit Store}
    (hrun : Runs.run d.stepCtx d.start sched = some c) {e : AckError EventError}
    (he : .errFn e ∈ c.state.tree.invoked) : Reason sched c e := by
  refine Runs.run_induction_trace
    (P := fun sched c => ∀ e, .errFn e ∈ c.state.tree.invoked → Reason sched c e)
    ?_ ?_ hrun e he
  · intro sched c a c' ih hs e he
    have hkeep : Reason sched c e → Reason (sched ++ [a]) c' e := by
      cases e with
      | timeoutError => exact List.mem_append_left _
      | nackError err =>
          rintro ⟨t, n, hlog⟩
          refine ⟨t, n, ?_⟩
          cases a with
          | none =>
              obtain rfl := Option.some.inj hs
              exact hlog
          | some i =>
              obtain ⟨o, k, -, -, rfl⟩ := Threads.step_cases hs
              by_cases hti : t = i
              · subst hti
                rw [Threads.advance_log_self]
                exact List.mem_append_left _ hlog
              · rwa [Threads.advance_log_of_ne hti]
    cases a with
    | none =>
        obtain rfl := Option.some.inj hs
        rcases errFn_of_step (show c.state.tree.step .contextDone = some _ from rfl) he with
          he | ⟨-, rfl⟩ | ⟨_, _, h, -⟩
        · exact hkeep (ih e he)
        · exact List.mem_append_right _ List.mem_cons_self
        · cases h
    | some i =>
        obtain ⟨o, k, -, -, rfl⟩ := Threads.step_cases hs
        have hlog := Threads.advance_log_self (M := d.machine) (c := c) (i := i) (k := k)
        rw [Threads.advance_state] at he
        rcases handle_tree (d := d) i o c.state with htree | ⟨op, hstep, hctx, hnack⟩
        · rw [htree] at he
          exact hkeep (ih e he)
        · rcases errFn_of_step hstep he with he | ⟨h, -⟩ | ⟨n, err, h, rfl⟩
          · exact hkeep (ih e he)
          · exact absurd h hctx
          · obtain ⟨n', rfl⟩ := hnack n err h
            exact ⟨i, n', hlog ▸ List.mem_append_right _ List.mem_cons_self⟩
  · intro e he
    rw [show d.start.state.tree = d.tree from rfl, hrec.tree] at he
    cases he

/-! ## The outcome -/

/-- The place of a route. -/
theorem position_getElem {p : ℕ} (hp : p < d.nextFns.length) :
    d.position d.nextFns[p].wid = p := by
  refine (List.findIdx_eq hp).mpr ⟨by simp, fun j hj => ?_⟩
  have hj' : j < (d.nextFns.map NextFn.wid).length := by simpa using hj.trans hp
  have hp' : p < (d.nextFns.map NextFn.wid).length := by simpa using hp
  rw [decide_eq_false_iff_not]
  intro heq
  have hmap : (d.nextFns.map NextFn.wid)[j] = (d.nextFns.map NextFn.wid)[p] := by
    rw [List.getElem_map, List.getElem_map, heq]
  exact hj.ne (d.wids.getElem_inj_iff.mp hmap)

/-- When nothing is in hand any more, the receiver has been told. -/
theorem Accounts.completed (h : d.Accounts hist t g) (hmade : made g = none)
    (hheld : ∀ w ∈ d.nextFns.map NextFn.wid, held g w = ∅) : (t.node []).completed = true := by
  by_contra hroot
  refine hroot (h.trace.completed_of_all_acked h.once fun n hn => ?_)
  rcases List.eq_nil_or_concat n with rfl | ⟨m, p, rfl⟩
  · exact h.acked hmade
  · rw [List.concat_eq_append] at hn ⊢
    -- the number of a clone is the place of a route
    have hp : p < d.nextFns.length := by
      have := (hn.of_suffix (List.suffix_append m [p])).2
      have := h.made_le
      omega
    have hw : d.nextFns[p].wid ∈ d.nextFns.map NextFn.wid :=
      List.mem_map_of_mem (List.getElem_mem hp)
    rcases h.settled d.nextFns[p].wid m (by rwa [position_getElem hp]) with hin | hin | hcomp
    · rwa [position_getElem hp] at hin
    · rw [hheld _ hw] at hin
      exact absurd hin (Finset.notMem_empty m)
    · exact absurd hcomp hroot

/-- When `completedFn` has been started, nothing is in hand any more. -/
theorem Accounts.nothing_held (h : d.Accounts hist t g) (hdone : .completedFn ∈ t.invoked) :
    (∀ n, t.Created n → t.isAcked n = true) ∧ made g = none ∧
      ∀ w, t.Created [d.position w] → held g w = ∅ := by
  have hroot : (t.node []).completed = true := by
    by_contra hroot
    rw [Bool.not_eq_true] at hroot
    rw [h.trace.tally.invoked_eq_nil hroot] at hdone
    cases hdone
  have hall : ∀ n, t.Created n → t.isAcked n = true := fun n hn =>
    ((h.trace.tally_once h.once).below hroot (Or.inr hdone) List.nil_suffix hn).2
  have hin : ∀ n, t.Created n → AckTree.Op.ack n ∈ hist := fun n hn =>
    h.trace.acked_mem n (hall n hn)
  refine ⟨hall, ?_, ?_⟩
  · cases hk : made g with
    | none => rfl
    | some k => exact absurd (hin [] trivial) (h.next k hk).2
  · intro w hw
    rw [Finset.eq_empty_iff_forall_notMem]
    intro m hm
    obtain ⟨hc, hnot⟩ := h.hand w hw m hm
    exact hnot (hin _ hc)

section Outcome

variable (hrec : d.Received) (hkeeps : ∀ fn ∈ d.nextFns, ∀ f ∈ fn.filterers, f.Keeps)
  (hsend : ∀ fn ∈ d.nextFns, Settles fn.send) {sched : List (Option (Option ℕ))}
  {c : Threads (heapSig.sum (ackSig EventError)) (Option ℕ) Unit Store}
  (hrun : Runs.run d.stepCtx d.start sched = some c)
include hrec hkeeps hsend hrun

/-- **A delivery has one outcome.**  In every run in which all goroutines return, and drop
events only when the context of the event has ended, exactly one function of the receiver is
started: `completedFn`, or `errFn` with an error that a sender has nacked with, or with a
timeout if the context has ended. -/
theorem one_outcome (hret : ∀ t, c.prog t = .pure ())
    (hcut : ∀ t, d.Cut sched t → none ∈ sched) :
    c.state.tree.invoked = [.completedFn] ∨
      ∃ e, c.state.tree.invoked = [.errFn e] ∧ Reason sched c e := by
  obtain ⟨m, hm, rfl⟩ := run_startCut d hrun
  obtain ⟨g, ⟨hist, hacc⟩, hwp⟩ := meets_of_run hrec hkeeps hsend hm
  have hroot : (m.state.tree.node []).completed = true := by
    by_cases hctx : none ∈ sched
    · exact completed_of_timeout hm hctx
    · have hpure : ∀ t, ∃ cut, m.prog t = .pure cut := by
        intro t
        have hmap : (fun _ => ()) <$> m.prog t = .pure () := hret t
        cases hp : m.prog t with
        | pure cut => exact ⟨cut, rfl⟩
        | call o k => rw [hp] at hmap; cases hmap
        | panic => rw [hp] at hmap; cases hmap
      have hdone : ∀ t cut, m.prog t = .pure cut → d.Done t cut (g t) := by
        intro t cut hp
        have := hwp t
        rwa [hp] at this
      refine hacc.completed ?_ ?_
      · obtain ⟨cut, hp⟩ := hpure none
        exact hdone none cut hp
      · intro w hw
        obtain ⟨cut, hp⟩ := hpure (some w)
        refine (hdone (some w) cut hp hw).resolve_left ?_
        rintro rfl
        exact hctx (hcut (some w) ⟨m, hm, hp⟩)
  have hlen : m.state.tree.invoked.length = 1 := by
    rw [hacc.trace.tally.outcome, if_pos hroot]
  obtain ⟨f, hf⟩ := List.length_eq_one_iff.mp hlen
  cases f with
  | completedFn => exact Or.inl hf
  | errFn e =>
      refine Or.inr ⟨e, hf, reason_of_run hrec hrun ?_⟩
      rw [show (m.forget fun _ => ()).state.tree = m.state.tree from rfl, hf]
      exact List.mem_cons_self

/-- **Done means settled.**  At any moment of any run at which `completedFn` has been
started, every node has been acked, and no goroutine that has been started is about to call
the ack tree. -/
theorem done_means_settled (hdone : .completedFn ∈ c.state.tree.invoked) :
    (∀ n, c.state.tree.Created n → c.state.tree.isAcked n = true) ∧
      ∀ t o k, d.machine.started c.state t = true → c.prog t ≠ .call (.inr o) k := by
  obtain ⟨m, hm, rfl⟩ := run_startCut d hrun
  obtain ⟨g, ⟨hist, hacc⟩, hwp⟩ := meets_of_run hrec hkeeps hsend hm
  obtain ⟨hall, hmade, hheld⟩ := hacc.nothing_held hdone
  refine ⟨hall, fun t o k hstarted hp => ?_⟩
  obtain ⟨k', hk'⟩ : ∃ k', m.prog t = .call (.inr o) k' := by
    have hmap : (fun _ => ()) <$> m.prog t = .call (.inr o) k := hp
    cases hpt : m.prog t with
    | pure cut => rw [hpt] at hmap; cases hmap
    | call o' k' =>
        rw [hpt] at hmap
        cases hmap
        exact ⟨_, rfl⟩
    | panic => rw [hpt] at hmap; cases hmap
  have hT := hwp t
  rw [hk'] at hT
  cases t with
  | none =>
      have hT : nextSpec d.nextFns.length (.inr o) (made g) _ := hT
      rw [hmade] at hT
      cases o <;> exact hT
  | some w =>
      have hw : m.state.tree.Created [d.position w] := by
        have hstarted : ((d.root w).all fun c => decide (m.state.tree.Created c)) = true := hstarted
        rw [hrec.root w] at hstarted
        exact of_decide_eq_true hstarted
      have hT : custody EventError (.inr o) (held g w) _ := hT
      rw [hheld w hw] at hT
      cases o <;> exact absurd hT.1 (Finset.notMem_empty _)

end Outcome

/-! ### A delivery to two routes -/

/-- Library functions whose `Marshal` has an error for values that are too deep. -/
def careful : Libs Unit where
  __ := Libs.plain
  marshal v := do
    match ← ((Libs.plain.marshal v).orError "json: unsupported value") with
    | .ok res => pure res
    | .error err => pure (.error err)

theorem careful_marshal (v : Value) : (careful.marshal v).Returns := by
  refine (Prog.wp_bind _ _).mpr ?_
  refine (Prog.returns_orError _ (Libs.plain.marshal v)).mono (fun o g P P' h hP r => h r g (hP r))
    id fun res g _ => ?_
  cases res with
  | ok res => exact trivial
  | error err => exact trivial

/-- A route that writes its trace id, and one that sends the event. -/
def tracedTwice : Delivery Unit Unit where
  __ := named [{ debugRoute 1 [.trace { path := "payload.id" }] with send := Debug.send careful },
    { debugRoute 2 [] with send := Debug.send careful }] (by decide)
  lib := careful

/-- The second route sends while the first is in its filter, and before `next` acks. -/
def interleaved : List (Option (Option ℕ)) :=
  [some none, some none] ++ List.replicate 4 (some (some 1)) ++ List.replicate 3 (some (some 2)) ++
    [some none] ++ List.replicate 6 (some (some 1))

theorem tracedTwice_received : tracedTwice.Received := ⟨rfl, rfl⟩

theorem tracedTwice_keeps : ∀ fn ∈ tracedTwice.nextFns, ∀ f ∈ fn.filterers, f.Keeps := by
  intro fn hfn f hf
  rcases List.mem_cons.mp hfn with rfl | hfn
  · rw [List.mem_singleton.mp hf]
    trivial
  · rw [List.mem_singleton.mp hfn] at hf
    cases hf

theorem tracedTwice_settles : ∀ fn ∈ tracedTwice.nextFns, Settles fn.send := by
  intro fn hfn
  rcases List.mem_cons.mp hfn with rfl | hfn
  · exact Debug.settles careful_marshal
  · rw [List.mem_singleton.mp hfn]
    exact Debug.settles careful_marshal

/-- A thread that has returned has returned at the end of the run. -/
theorem prog_of_run {α : Type} {sched : List (Option (Option ℕ))}
    {c₀ c : Threads (heapSig.sum (ackSig EventError)) (Option ℕ) α Store} {t : Option ℕ} {a : α}
    (hp : c₀.prog t = .pure a) (hrun : Runs.run d.stepCtx c₀ sched = some c) :
    c.prog t = .pure a := by
  refine Runs.run_induction (P := fun c : Threads _ (Option ℕ) α Store => c.prog t = .pure a)
    (fun s x s' h hs => ?_) hp hrun
  cases x with
  | none =>
      obtain rfl := Option.some.inj hs
      exact h
  | some i => exact Threads.prog_of_step h hs

/-- A thread that is neither `next` nor a route has nothing to do. -/
theorem startCut_prog_of_notMem {w : ℕ} (hw : w ∉ d.nextFns.map NextFn.wid) :
    d.startCut.prog (some w) = .pure false := by
  have hfind : d.nextFns.find? (fun fn : NextFn κ ρ => fn.wid = w) = none := by
    rw [List.find?_eq_none]
    intro fn hfn hwid
    exact hw (List.mem_map.mpr ⟨fn, hfn, of_decide_eq_true hwid⟩)
  unfold startCut
  dsimp only
  rw [hfind]
  rfl

/-- All goroutines of the run return, and none has dropped events. -/
theorem interleaved_returns :
    ∃ m, Runs.run tracedTwice.stepCtx tracedTwice.startCut interleaved = some m ∧
      ∀ t, m.prog t = .pure false := by
  have hreturned : (Runs.run tracedTwice.stepCtx tracedTwice.startCut interleaved).map
      (fun m => [none, some 1, some 2].map fun t => (m.prog t).returned) =
        some [some false, some false, some false] := by decide +kernel
  obtain ⟨m, hm, hmap⟩ := Option.map_eq_some_iff.mp hreturned
  simp only [List.map_cons, List.map_nil, List.cons.injEq, and_true] at hmap
  refine ⟨m, hm, fun t => ?_⟩
  cases t with
  | none => exact Prog.returned_eq_some hmap.1
  | some w =>
      by_cases hw : w ∈ tracedTwice.nextFns.map NextFn.wid
      · rcases List.mem_cons.mp hw with rfl | hw
        · exact Prog.returned_eq_some hmap.2.1
        · rw [List.mem_singleton.mp hw]
          exact Prog.returned_eq_some hmap.2.2
      · exact prog_of_run (startCut_prog_of_notMem hw) hm

theorem one_outcome_tracedTwice :
    ∃ c, Runs.run tracedTwice.stepCtx tracedTwice.start interleaved = some c ∧
      (c.state.tree.invoked = [.completedFn] ∨
        ∃ e, c.state.tree.invoked = [.errFn e] ∧ Reason interleaved c e) := by
  obtain ⟨m, hm, hprog⟩ := interleaved_returns
  have hrun : Runs.run tracedTwice.stepCtx tracedTwice.start interleaved =
      some (m.forget fun _ => ()) := by
    rw [← startCut_forget, Runs.run_map (tracedTwice.stepCtx_forget _), hm]
    rfl
  refine ⟨_, hrun, one_outcome tracedTwice_received tracedTwice_keeps tracedTwice_settles hrun ?_ ?_⟩
  · intro t
    show (fun _ => ()) <$> m.prog t = _
    rw [hprog t]
    rfl
  · rintro t ⟨m', hm', hcut⟩
    obtain rfl : m = m' := Option.some.inj (hm ▸ hm')
    rw [hprog t] at hcut
    cases hcut

theorem done_means_settled_tracedTwice :
    ∃ c, Runs.run tracedTwice.stepCtx tracedTwice.start interleaved = some c ∧
      (∀ n, c.state.tree.Created n → c.state.tree.isAcked n = true) ∧
        ∀ t o k, tracedTwice.machine.started c.state t = true → c.prog t ≠ .call (.inr o) k := by
  have hdone : (Runs.run tracedTwice.stepCtx tracedTwice.start interleaved).map
      (fun c => c.state.tree.invoked) = some [.completedFn] := by decide +kernel
  obtain ⟨c, hc, hinv⟩ := Option.map_eq_some_iff.mp hdone
  refine ⟨c, hc, done_means_settled tracedTwice_received tracedTwice_keeps tracedTwice_settles hc ?_⟩
  rw [hinv]
  exact List.mem_cons_self

end Delivery
