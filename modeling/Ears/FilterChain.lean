/-
# The filter chain (`pkg/filter/chain.go`)

`Chain.Filter` has one queue of work.  It takes a piece of work from the front, calls its
filter, and appends a piece of work for the next filter for each event that the filter
returns; what the last filter returns is the result.  The queue grows while it is walked, and
holds work for two filters at a time.

A filter is any function that returns a list of events and changes the state of the world,
in which it also keeps its own state.  `levels` takes the whole output of one filter to the
next, in order.  `filter_levelByLevel`: the queue does the same calls in the same order, comes
to an end, and returns the same events.
-/
import Ears.LibraryFilters

open GoLib

namespace FilterChain

variable {E σ : Type}

/-! ## The loop over the queue -/

/-- `Filter` of a filter: the events that it returns, and the world afterwards. -/
abbrev Filterer (E σ : Type) := E → σ → List E × σ

/-- A piece of work: an event, the filter to call for it, and the index of the filter. -/
structure Work (E σ : Type) where
  e : E
  f : Filterer E σ
  i : ℕ

/-- What a chain has done: the events to return, the calls of filters by index and event, and
the world. -/
structure Outcome (E σ : Type) where
  events : List E
  calls : List (ℕ × E)
  world : σ

/-- The loop of `Filter` over the queue; `done` says whether the context of the event is
cancelled.  Without fuel for another round there is no outcome. -/
def filterLoop (done : σ → Bool) (filterers : List (Filterer E σ)) :
    ℕ → List (Work E σ) → Outcome E σ → Option (Outcome E σ)
  | _, [], o => some o
  | 0, _ :: _, _ => none
  | fuel + 1, w :: queue, o =>
      if done o.world then some { o with events := [] }
      else
        let r := w.f w.e o.world
        let calls := o.calls ++ [(w.i, w.e)]
        match filterers[w.i + 1]? with
        | some f =>
            filterLoop done filterers fuel (queue ++ r.1.map fun e => ⟨e, f, w.i + 1⟩)
              ⟨o.events, calls, r.2⟩
        | none => filterLoop done filterers fuel queue ⟨o.events ++ r.1, calls, r.2⟩

/-- `Filter(e)` of a chain; without filters the event passes. -/
def filter (done : σ → Bool) (filterers : List (Filterer E σ)) (fuel : ℕ) (e : E) (world : σ) :
    Option (Outcome E σ) :=
  match filterers with
  | [] => some ⟨[e], [], world⟩
  | f :: _ => filterLoop done filterers fuel [⟨e, f, 0⟩] ⟨[], [], world⟩

/-- `Filter(e)` comes to an end with this outcome. -/
def Returns (done : σ → Bool) (filterers : List (Filterer E σ)) (e : E) (world : σ)
    (o : Outcome E σ) : Prop :=
  ∃ n, ∀ fuel ≥ n, filter done filterers fuel e world = some o

/-! ## Level by level -/

/-- One filter for all events in order: what it returns, one list after the other. -/
def level (f : Filterer E σ) : List E → σ → List E × σ
  | [], s => ([], s)
  | e :: es, s =>
      let r := f e s
      let rest := level f es r.2
      (r.1 ++ rest.1, rest.2)

/-- One filter after the other, each for all events that the one before has returned.  `i` is
the index of the first filter. -/
def levels : ℕ → List (Filterer E σ) → List E → σ → Outcome E σ
  | _, [], es, s => ⟨es, [], s⟩
  | i, f :: fs, es, s =>
      let r := level f es s
      let rest := levels (i + 1) fs r.1 r.2
      { rest with calls := es.map (fun e => (i, e)) ++ rest.calls }

variable {done : σ → Bool} {filterers : List (Filterer E σ)} {f : Filterer E σ} {i : ℕ}

/-- The work of one level: the work for the next one is appended in order. -/
theorem filterLoop_level (hctx : ∀ s, done s = false) {g : Filterer E σ}
    (hnext : filterers[i + 1]? = some g) (fuel : ℕ) (es : List E) (queue : List (Work E σ))
    (o : Outcome E σ) :
    filterLoop done filterers (es.length + fuel) (es.map (fun e => ⟨e, f, i⟩) ++ queue) o =
      filterLoop done filterers fuel
        (queue ++ (level f es o.world).1.map fun e => ⟨e, g, i + 1⟩)
        ⟨o.events, o.calls ++ es.map fun e => (i, e), (level f es o.world).2⟩ := by
  induction es generalizing queue o with
  | nil => simp [level]
  | cons e es ih =>
      rw [List.length_cons, show es.length + 1 + fuel = es.length + fuel + 1 by omega,
        List.map_cons, List.cons_append, filterLoop, hctx, if_neg Bool.false_ne_true]
      dsimp only
      rw [hnext]
      dsimp only
      rw [List.append_assoc, ih]
      simp only [level, List.map_append, List.append_assoc, List.map_cons, List.singleton_append]

/-- The work of the last level. -/
theorem filterLoop_last (hctx : ∀ s, done s = false) (hnext : filterers[i + 1]? = none)
    (fuel : ℕ) (es : List E) (o : Outcome E σ) :
    filterLoop done filterers (es.length + fuel) (es.map fun e => ⟨e, f, i⟩) o =
      some ⟨o.events ++ (level f es o.world).1, o.calls ++ es.map fun e => (i, e),
        (level f es o.world).2⟩ := by
  induction es generalizing o with
  | nil =>
      rw [List.map_nil, filterLoop]
      simp [level]
  | cons e es ih =>
      rw [List.length_cons, show es.length + 1 + fuel = es.length + fuel + 1 by omega,
        List.map_cons, filterLoop, hctx, if_neg Bool.false_ne_true]
      dsimp only
      rw [hnext]
      dsimp only
      rw [ih]
      simp only [level, List.append_assoc, List.map_cons, List.singleton_append]

/-- The queue that holds the work of one level comes to an end with the outcome of the levels
from there on. -/
theorem filterLoop_levels (hctx : ∀ s, done s = false) (fs : List (Filterer E σ))
    (f : Filterer E σ) (before : List (Filterer E σ)) (es : List E) (calls : List (ℕ × E))
    (s : σ) :
    ∃ n, ∀ fuel, filterLoop done (before ++ f :: fs) (n + fuel)
        (es.map fun e => ⟨e, f, before.length⟩) ⟨[], calls, s⟩ =
      some { levels before.length (f :: fs) es s with
        calls := calls ++ (levels before.length (f :: fs) es s).calls } := by
  -- the induction is on the filters that are left; the queue holds one level at each step
  induction fs generalizing f before es calls s with
  | nil =>
      have hnext : (before ++ [f])[before.length + 1]? = none := by simp
      refine ⟨es.length, fun fuel => ?_⟩
      rw [filterLoop_last hctx hnext]
      simp [levels]
  | cons g fs ih =>
      have hnext : (before ++ f :: g :: fs)[before.length + 1]? = some g := by simp
      obtain ⟨n, hn⟩ := ih g (before ++ [f]) (level f es s).1
        (calls ++ es.map fun e => (before.length, e)) (level f es s).2
      refine ⟨es.length + n, fun fuel => ?_⟩
      have hlevel := filterLoop_level (f := f) hctx hnext (n + fuel) es [] ⟨[], calls, s⟩
      rw [List.append_nil, List.nil_append] at hlevel
      rw [add_assoc, hlevel]
      rw [List.append_assoc, List.singleton_append, List.length_append, List.length_singleton] at hn
      rw [hn fuel]
      simp [levels]

/-- `Filter` comes to an end with the outcome of the levels. -/
theorem returns_levels (hctx : ∀ s, done s = false) (filterers : List (Filterer E σ)) (e : E)
    (s : σ) : Returns done filterers e s (levels 0 filterers [e] s) := by
  cases filterers with
  | nil => exact ⟨0, fun fuel _ => rfl⟩
  | cons f fs =>
      obtain ⟨n, hn⟩ := filterLoop_levels hctx fs f [] [e] [] s
      refine ⟨n, fun fuel hfuel => ?_⟩
      have h := hn (fuel - n)
      rw [Nat.add_sub_cancel' hfuel] at h
      exact h

/-- There is one outcome. -/
theorem Returns.unique {e : E} {s : σ} {o o' : Outcome E σ} (h : Returns done filterers e s o)
    (h' : Returns done filterers e s o') : o = o' := by
  obtain ⟨n, hn⟩ := h
  obtain ⟨n', hn'⟩ := h'
  have heq := hn (max n n') (le_max_left n n')
  rw [hn' (max n n') (le_max_right n n')] at heq
  exact (Option.some.inj heq).symm

/-! ## Filters without state -/

/-- A filter that neither reads nor changes the world. -/
def stateless (f : E → List E) : Filterer E σ := fun e s => (f e, s)

theorem level_stateless (f : E → List E) (es : List E) (s : σ) :
    level (stateless f) es s = (es.flatMap f, s) := by
  induction es with
  | nil => rfl
  | cons e es ih =>
      rw [level]
      dsimp only [stateless] at ih ⊢
      rw [ih, List.flatMap_cons]

/-- The filters one after the other, for all events. -/
def fanOut (fs : List (E → List E)) (es : List E) : List E := fs.foldl (fun es f => es.flatMap f) es

theorem levels_stateless (i : ℕ) (fs : List (E → List E)) (es : List E) (s : σ) :
    (levels i (fs.map stateless) es s).events = fanOut fs es ∧
      (levels i (fs.map stateless) es s).world = s := by
  induction fs generalizing i es with
  | nil => exact ⟨rfl, rfl⟩
  | cons f fs ih =>
      rw [List.map_cons, levels, level_stateless]
      exact ih (i + 1) (es.flatMap f)

/-- The events go through the filters on their own. -/
theorem fanOut_eq_flatMap (fs : List (E → List E)) (es : List E) :
    fanOut fs es = es.flatMap fun e => fanOut fs [e] := by
  induction fs generalizing es with
  | nil => simp [fanOut]
  | cons f fs ih =>
      show fanOut fs (es.flatMap f) = _
      rw [ih, List.flatMap_assoc]
      congr 1
      funext e
      show _ = fanOut fs ([e].flatMap f)
      rw [ih, List.flatMap_singleton]

theorem fanOut_append (fs gs : List (E → List E)) (es : List E) :
    fanOut (fs ++ gs) es = (fanOut fs es).flatMap fun e => fanOut gs [e] := by
  rw [← fanOut_eq_flatMap]
  exact List.foldl_append

/-- **The chain is a fold level by level.**  While the context of the event is not cancelled,
`Filter` comes to an end; its calls, in order, its events and the world afterwards are those of
one filter after the other, each called for all events of the one before.  And a chain of
filters without state returns what its second part returns for the events of its first part. -/
theorem filter_levelByLevel (hctx : ∀ s, done s = false) :
    (∀ (filterers : List (Filterer E σ)) e s,
      Returns done filterers e s (levels 0 filterers [e] s)) ∧
    ∀ (fs gs : List (E → List E)) (e : E) (s : σ) (mid : Outcome E σ) (outs : E → Outcome E σ),
      Returns done (fs.map stateless) e s mid →
      (∀ m ∈ mid.events, Returns done (gs.map stateless) m s (outs m)) →
      ∃ o, Returns done ((fs ++ gs).map stateless) e s o ∧
        o.events = mid.events.flatMap fun m => (outs m).events := by
  refine ⟨returns_levels hctx, ?_⟩
  intro fs gs e s mid outs hmid houts
  have hfst : mid.events = fanOut fs [e] := by
    rw [hmid.unique (returns_levels hctx _ e s)]
    exact (levels_stateless 0 fs [e] s).1
  refine ⟨_, returns_levels hctx _ e s, ?_⟩
  rw [(levels_stateless 0 (fs ++ gs) [e] s).1, fanOut_append, ← hfst]
  apply List.flatMap_congr
  intro m hm
  rw [(houts m hm).unique (returns_levels hctx _ m s)]
  exact (levels_stateless 0 gs [m] s).1.symm

/-- A filter that returns its event twice, and counts its calls. -/
def double : Filterer String ℕ := fun e n => ([e, e], n + 1)

/-- A filter that numbers the events by the calls before. -/
def number : Filterer String ℕ := fun e n => ([e ++ toString n], n + 1)

/-- Two calls of the second filter come after one of the first. -/
theorem filter_levelByLevel_double :
    Returns (fun _ => false) [double, number] "e" 0
      ⟨["e1", "e2"], [(0, "e"), (1, "e"), (1, "e")], 3⟩ := by
  have hctx : ∀ s : ℕ, (fun _ : ℕ => false) s = false := fun _ => rfl
  exact (filter_levelByLevel hctx).1 [double, number] "e" 0

end FilterChain

/-! ## Chains of library filters -/

namespace Chain

variable {ε κ ρ σ : Type} {lib : Libs κ} {H : Handler (heapSig.sum (ackSig ε)) σ}
  {filterers : List (Filterer ρ)}

/-- A library filter as a filter that changes the state of what handles its calls. -/
def asFilterer (lib : Libs κ) (H : Handler (heapSig.sum (ackSig ε)) σ) (f : Filterer ρ) :
    FilterChain.Filterer (Event κ) σ := fun e s =>
  let r := (f.filter lib e : EventProg ε (List (Event κ))).run H s
  (r.1.getD [], r.2)

/-- No filter of the chain panics. -/
def NoPanic (lib : Libs κ) (H : Handler (heapSig.sum (ackSig ε)) σ)
    (filterers : List (Filterer ρ)) : Prop :=
  ∀ f ∈ filterers, ∀ e s, ((f.filter lib e : EventProg ε (List (Event κ))).run H s).1 ≠ none

theorem run_asFilterer (h : NoPanic lib H filterers) {f : Filterer ρ} (hf : f ∈ filterers)
    (e : Event κ) (s : σ) :
    (f.filter lib e : EventProg ε (List (Event κ))).run H s =
      (some (asFilterer lib H f e s).1, (asFilterer lib H f e s).2) := by
  obtain ⟨evts, hevts⟩ := Option.ne_none_iff_exists'.mp (h f hf e s)
  unfold asFilterer
  dsimp only
  rw [Prod.ext_iff]
  exact ⟨by rw [hevts]; rfl, rfl⟩

/-- The work in the queue is for a filter of the chain. -/
def Planned (lib : Libs κ) (H : Handler (heapSig.sum (ackSig ε)) σ)
    (filterers : List (Filterer ρ)) (w : FilterChain.Work (Event κ) σ) : Prop :=
  ∃ f, filterers[w.i]? = some f ∧ w.f = asFilterer lib H f

/-- The loop over library filters is the loop of the chain. -/
theorem run_filterQueue (h : NoPanic lib H filterers) {fuel : ℕ}
    {queue : List (FilterChain.Work (Event κ) σ)} {o o' : FilterChain.Outcome (Event κ) σ}
    (hqueue : ∀ w ∈ queue, Planned lib H filterers w)
    (hloop : FilterChain.filterLoop (fun _ => false) (filterers.map (asFilterer lib H)) fuel queue
      o = some o') :
    (filterQueue lib fuel (queue.map fun w => (w.e, filterers.drop w.i)) o.events :
      EventProg ε (List (Event κ))).run H o.world = (some o'.events, o'.world) := by
  induction fuel generalizing queue o with
  | zero =>
      cases queue with
      | nil =>
          obtain rfl := Option.some.inj hloop
          rfl
      | cons w queue => simp [FilterChain.filterLoop] at hloop
  | succ fuel ih =>
      cases queue with
      | nil =>
          obtain rfl := Option.some.inj hloop
          rfl
      | cons w queue =>
          obtain ⟨⟨f, hf, hwf⟩, hqueue⟩ := List.forall_mem_cons.mp hqueue
          obtain ⟨hlt, hget⟩ := List.getElem?_eq_some_iff.mp hf
          have hmem : f ∈ filterers := hget ▸ List.getElem_mem hlt
          have hdrop : filterers.drop w.i = f :: filterers.drop (w.i + 1) := by
            rw [← hget, List.drop_eq_getElem_cons hlt]
          rw [List.map_cons, hdrop, filterQueue,
            Prog.run_bind_of_some _ _ (run_asFilterer h hmem w.e o.world)]
          rw [FilterChain.filterLoop, if_neg Bool.false_ne_true, hwf, List.getElem?_map] at hloop
          cases hnext : filterers[w.i + 1]? with
          | none =>
              rw [hnext] at hloop
              -- the last filter: its events are the chain's
              rw [if_pos (List.drop_eq_nil_of_le (List.getElem?_eq_none_iff.mp hnext))]
              exact ih hqueue hloop
          | some g =>
              rw [hnext] at hloop
              obtain ⟨hlt', -⟩ := List.getElem?_eq_some_iff.mp hnext
              -- the returned events are queued for the next filter
              rw [if_neg (by rw [List.drop_eq_nil_iff]; omega)]
              have hrest := ih (fun w' hw' => ?_) hloop
              · rw [List.map_append, List.map_map] at hrest
                exact hrest
              · rcases List.mem_append.mp hw' with hw' | hw'
                · exact hqueue w' hw'
                · obtain ⟨e, -, rfl⟩ := List.mem_map.mp hw'
                  exact ⟨g, hnext, rfl⟩

/-- A chain of library filters goes level by level: unless a filter panics, enough rounds
before the context ends give the events and the state of the levels. -/
theorem run_filter_levels (h : NoPanic lib H filterers) (e : Event κ) (s : σ) :
    ∃ n, ∀ alive ≥ n, (filter lib alive filterers e : EventProg ε (List (Event κ))).run H s =
      (some (FilterChain.levels 0 (filterers.map (asFilterer lib H)) [e] s).events,
        (FilterChain.levels 0 (filterers.map (asFilterer lib H)) [e] s).world) := by
  obtain ⟨n, hn⟩ := FilterChain.returns_levels (fun _ => rfl) (filterers.map (asFilterer lib H)) e s
  refine ⟨n, fun alive halive => ?_⟩
  have hloop := hn alive halive
  unfold filter
  cases hfs : filterers with
  | nil =>
      rw [if_pos rfl]
      rfl
  | cons f fs =>
      rw [hfs] at h hloop
      rw [if_neg (List.cons_ne_nil f fs)]
      refine run_filterQueue h (fun w hw => ?_) hloop
      obtain rfl := List.mem_singleton.mp hw
      exact ⟨f, rfl, rfl⟩

end Chain
