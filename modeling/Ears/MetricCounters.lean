/-
# Velocity counters (`pkg/filter/metrics.go`, `pkg/plugin/metrics.go`)

Filters and plugins count the calls of `LogSuccess`, `LogError` and `LogFilter`.  For each kind
of call there is a counter of the current second, which becomes the velocity when the second is
over.

All kinds share the field `currentSec`.  The first call in a new second starts the second anew for
its own kind only, and the calls of other kinds no longer notice that it is new: their
counters go on from the second in which they were last called.  `velocity_iff` says that
the counters count one second exactly when this does not happen.
-/
import Ears.Runs

namespace Metrics

/-! ## The counters -/

/-- The counters of one kind of calls. -/
structure Counters where
  counter : ℤ := 0
  velocityCounter : ℤ := 0
  currentVelocityCounter : ℤ := 0
  deriving DecidableEq, Repr

/-- The fields that `MetricFilter` and `MetricPlugin` share, with the counters of each kind. -/
structure Metric (K : Type) where
  counters : K → Counters
  currentSec : ℤ
  lastMetricWriteSec : ℤ

/-- The kinds of calls of a filter. -/
inductive FilterKind where
  | success
  | error
  | filter
  deriving DecidableEq, Repr

/-- The kinds of calls of a plugin. -/
inductive PluginKind where
  | success
  | error
  deriving DecidableEq, Repr

/-- `MetricFilter`. -/
abbrev MetricFilter := Metric FilterKind

/-- `MetricPlugin`. -/
abbrev MetricPlugin := Metric PluginKind

/-- What is written to the table syncer. -/
structure EarsMetric where
  successCount : ℤ
  errorCount : ℤ
  filterCount : ℤ
  successVelocity : ℤ
  errorVelocity : ℤ
  filterVelocity : ℤ
  lastEventTs : ℤ
  deriving DecidableEq, Repr

namespace Metric

variable {K : Type} [DecidableEq K]

/-- `NewMetricFilter` and `NewMetricPlugin`, at the given second. -/
def new (now : ℤ) : Metric K := ⟨fun _ => {}, now, now⟩

/-- Write the counters of one kind. -/
def set (m : Metric K) (k : K) (c : Counters) : Metric K :=
  { m with counters := Function.update m.counters k c }

/-- A call of the given kind, in one second; whether the metrics are written afterwards. -/
def log (k : K) (now : ℤ) (m : Metric K) : Metric K × Bool :=
  let c := m.counters k
  let m := m.set k { c with counter := c.counter + 1 }
  let m :=
    if now ≠ m.currentSec then
      let c := m.counters k
      { m.set k { c with
          velocityCounter := c.currentVelocityCounter
          currentVelocityCounter := 0 } with currentSec := now }
    else m
  let c := m.counters k
  let m := m.set k { c with currentVelocityCounter := c.currentVelocityCounter + 1 }
  if now - m.lastMetricWriteSec > 60 then ({ m with lastMetricWriteSec := now }, true)
  else (m, false)

section Log

variable {k k' : K} {now : ℤ} {m : Metric K} {c : Counters}

@[simp] theorem set_counters_self : (m.set k c).counters k = c := Function.update_self ..

@[simp] theorem set_currentSec : (m.set k c).currentSec = m.currentSec := rfl

/-- The metrics after a call, but for the time at which they were written. -/
theorem log_fst : (m.log k now).1.counters = Function.update m.counters k
      ⟨(m.counters k).counter + 1,
        if now ≠ m.currentSec then (m.counters k).currentVelocityCounter
        else (m.counters k).velocityCounter,
        if now ≠ m.currentSec then 1 else (m.counters k).currentVelocityCounter + 1⟩ ∧
    (m.log k now).1.currentSec = now := by
  unfold log
  by_cases hsec : now = m.currentSec
  · simp only [hsec, set_currentSec, ne_eq, not_true_eq_false, if_false, set_counters_self]
    split <;> simp [set]
  · simp only [set_currentSec, ne_eq, hsec, not_false_eq_true, if_true]
    split <;> simp [set]

theorem log_currentSec : (m.log k now).1.currentSec = now := log_fst.2

theorem log_counters_of_ne (h : k' ≠ k) : (m.log k now).1.counters k' = m.counters k' := by
  rw [log_fst.1, Function.update_of_ne h]

theorem log_velocityCounter : ((m.log k now).1.counters k).velocityCounter =
    if now ≠ m.currentSec then (m.counters k).currentVelocityCounter
    else (m.counters k).velocityCounter := by
  rw [log_fst.1, Function.update_self]

theorem log_currentVelocityCounter : ((m.log k now).1.counters k).currentVelocityCounter =
    if now ≠ m.currentSec then 1 else (m.counters k).currentVelocityCounter + 1 := by
  rw [log_fst.1, Function.update_self]

end Log

end Metric

namespace MetricFilter

/-- `getLocalMetric`. -/
def getLocalMetric (f : MetricFilter) : EarsMetric where
  successCount := (f.counters .success).counter
  errorCount := (f.counters .error).counter
  filterCount := (f.counters .filter).counter
  successVelocity := (f.counters .success).velocityCounter
  errorVelocity := (f.counters .error).velocityCounter
  filterVelocity := (f.counters .filter).velocityCounter
  lastEventTs := f.currentSec

/-- A call, with the metrics that a table syncer is given. -/
def logWith (k : FilterKind) (now : ℤ) (f : MetricFilter) : MetricFilter × Option EarsMetric :=
  let (f, written) := f.log k now
  (f, if written then some (getLocalMetric f) else none)

/-- `LogSuccess`. -/
def logSuccess : ℤ → MetricFilter → MetricFilter × Option EarsMetric := logWith .success

/-- `LogError`. -/
def logError : ℤ → MetricFilter → MetricFilter × Option EarsMetric := logWith .error

/-- `LogFilter`. -/
def logFilter : ℤ → MetricFilter → MetricFilter × Option EarsMetric := logWith .filter

/-- The metrics after a call of one of the three. -/
def call (k : FilterKind) (now : ℤ) (f : MetricFilter) : MetricFilter :=
  match k with
  | .success => (logSuccess now f).1
  | .error => (logError now f).1
  | .filter => (logFilter now f).1

theorem call_eq (k : FilterKind) (now : ℤ) (f : MetricFilter) : call k now f = (f.log k now).1 := by
  cases k <;> rfl

end MetricFilter

namespace MetricPlugin

/-- `getLocalMetric`. -/
def getLocalMetric (mp : MetricPlugin) : EarsMetric where
  successCount := (mp.counters .success).counter
  errorCount := (mp.counters .error).counter
  filterCount := 0
  successVelocity := (mp.counters .success).velocityCounter
  errorVelocity := (mp.counters .error).velocityCounter
  filterVelocity := 0
  lastEventTs := mp.currentSec

/-- A call, with the metrics that a table syncer is given. -/
def logWith (k : PluginKind) (now : ℤ) (mp : MetricPlugin) : MetricPlugin × Option EarsMetric :=
  let (mp, written) := mp.log k now
  (mp, if written then some (getLocalMetric mp) else none)

/-- `LogSuccess`. -/
def logSuccess : ℤ → MetricPlugin → MetricPlugin × Option EarsMetric := logWith .success

/-- `LogError`. -/
def logError : ℤ → MetricPlugin → MetricPlugin × Option EarsMetric := logWith .error

/-- The metrics after a call of one of the two. -/
def call (k : PluginKind) (now : ℤ) (mp : MetricPlugin) : MetricPlugin :=
  match k with
  | .success => (logSuccess now mp).1
  | .error => (logError now mp).1

theorem call_eq (k : PluginKind) (now : ℤ) (mp : MetricPlugin) :
    call k now mp = (mp.log k now).1 := by
  cases k <;> rfl

end MetricPlugin

/-! ## Sequences of calls -/

/-- Metrics with the calls so far, each with its second, and the second of the last one. -/
structure Logged (K : Type) where
  metric : Metric K
  calls : List (K × ℤ)
  clock : ℤ

namespace Logged

variable {K : Type} [DecidableEq K]

/-- New metrics. -/
def start (now : ℤ) : Logged K := ⟨.new now, [], now⟩

/-- One call; the clock does not go back. -/
def step (call : K → ℤ → Metric K → Metric K) (s : Logged K) (a : K × ℤ) : Option (Logged K) :=
  if s.clock ≤ a.2 then some ⟨call a.1 a.2 s.metric, a :: s.calls, a.2⟩ else none

/-- The number of calls of a kind in one second. -/
def count (s : Logged K) (k : K) (sec : ℤ) : ℤ := (s.calls.count (k, sec) : ℕ)

/-- The counter of a call's kind counts the calls of the current second, and a velocity that
changes becomes the number of calls in a second that is over. -/
def CountsSecond (call : K → ℤ → Metric K → Metric K) (s : Logged K) (a : K × ℤ) : Prop :=
  ∀ s', step call s a = some s' →
    (s'.metric.counters a.1).currentVelocityCounter = s'.count a.1 a.2 ∧
    ∀ k, (s'.metric.counters k).velocityCounter ≠ (s.metric.counters k).velocityCounter →
      ∃ sec < a.2, (s'.metric.counters k).velocityCounter = s'.count k sec

/-- A call that is not the first one of its second is not the first one of its kind there, unless
it is the first one of its kind at all. -/
def Noticed (s : Logged K) (a : K × ℤ) : Prop :=
  a.2 = s.clock → a ∈ s.calls ∨ ∀ sec, (a.1, sec) ∉ s.calls

/-- The counter of each kind counts the calls of the last second with calls of this kind. -/
structure Inv (s : Logged K) : Prop where
  currentSec : s.metric.currentSec = s.clock
  past : ∀ a ∈ s.calls, a.2 ≤ s.clock
  unused : ∀ k, (∀ sec, (k, sec) ∉ s.calls) → (s.metric.counters k).currentVelocityCounter = 0
  last : ∀ k sec, (k, sec) ∈ s.calls → (∀ sec', (k, sec') ∈ s.calls → sec' ≤ sec) →
    (s.metric.counters k).currentVelocityCounter = s.count k sec

variable {call : K → ℤ → Metric K → Metric K} {s s' : Logged K} {a : K × ℤ} {k : K} {sec : ℤ}

/-! ## One call -/

theorem inv_start (now : ℤ) : Inv (start now : Logged K) where
  currentSec := rfl
  past := fun _ ha => absurd ha List.not_mem_nil
  unused := fun _ _ => rfl
  last := fun _ _ hmem => absurd hmem List.not_mem_nil

theorem step_eq_some (hcall : ∀ k now m, call k now m = (m.log k now).1)
    (hs : step call s a = some s') :
    s.clock ≤ a.2 ∧ s' = ⟨(s.metric.log a.1 a.2).1, a :: s.calls, a.2⟩ := by
  unfold step at hs
  split at hs
  · rename_i hle
    exact ⟨hle, by rw [← Option.some.inj hs, hcall]⟩
  · simp at hs

/-- The counts after a call. -/
theorem count_cons (m : Metric K) (clock : ℤ) : (⟨m, a :: s.calls, clock⟩ : Logged K).count k sec =
    s.count k sec + if a = (k, sec) then 1 else 0 := by
  unfold count
  rw [List.count_cons]
  simp only [beq_iff_eq]
  split <;> simp

theorem count_eq_zero : s.count k sec = 0 ↔ (k, sec) ∉ s.calls := by
  unfold count
  rw [Int.natCast_eq_zero, List.count_eq_zero]

omit [DecidableEq K] in
/-- The last second with calls of a kind. -/
theorem exists_last (h : ¬ ∀ sec, (k, sec) ∉ s.calls) :
    ∃ sec, (k, sec) ∈ s.calls ∧ ∀ sec', (k, sec') ∈ s.calls → sec' ≤ sec := by
  push Not at h
  obtain ⟨sec₀, h₀⟩ := h
  have hfin : Set.Finite {sec | (k, sec) ∈ s.calls} := by
    refine Set.Finite.subset (s.calls.map Prod.snd).toFinset.finite_toSet fun sec hsec => ?_
    simpa using ⟨k, hsec⟩
  obtain ⟨sec, hsec, hmax⟩ := hfin.exists_maximalFor id _ ⟨sec₀, h₀⟩
  refine ⟨sec, hsec, fun sec' hsec' => ?_⟩
  rcases le_total sec' sec with hle | hle
  · exact hle
  · exact hmax hsec' hle

theorem step_of_le (hcall : ∀ k now m, call k now m = (m.log k now).1) {now : ℤ}
    (hle : s.clock ≤ now) : step call s (k, now) =
      some ⟨(s.metric.log k now).1, (k, now) :: s.calls, now⟩ := by
  unfold step
  rw [if_pos hle, hcall]

/-- In a second that is not new, the counter of the kind must already count it. -/
theorem Inv.countsSecond_iff_of_eq (hcall : ∀ k now m, call k now m = (m.log k now).1) (h : Inv s)
    (k : K) : CountsSecond call s (k, s.clock) ↔
      (s.metric.counters k).currentVelocityCounter = s.count k s.clock := by
  have hstep := step_of_le (s := s) (k := k) hcall le_rfl
  have hsame : ¬ s.clock ≠ s.metric.currentSec := not_not.mpr h.currentSec.symm
  have hcurrent : ((s.metric.log k s.clock).1.counters k).currentVelocityCounter =
      (s.metric.counters k).currentVelocityCounter + 1 := by
    rw [Metric.log_currentVelocityCounter, if_neg hsame]
  have hvelocity : ∀ k', ((s.metric.log k s.clock).1.counters k').velocityCounter =
      (s.metric.counters k').velocityCounter := by
    intro k'
    by_cases hk : k' = k
    · rw [hk, Metric.log_velocityCounter, if_neg hsame]
    · rw [Metric.log_counters_of_ne hk]
  constructor
  · intro hcounts
    have hright := (hcounts _ hstep).1
    dsimp only at hright
    rw [hcurrent, count_cons, if_pos rfl] at hright
    exact add_right_cancel hright
  · intro heq s' hs'
    obtain rfl := Option.some.inj (hstep.symm.trans hs')
    refine ⟨?_, fun k' hne => absurd (hvelocity k') hne⟩
    dsimp only
    rw [hcurrent, count_cons, if_pos rfl, heq]

/-- The first call of a second counts, and the velocity is that of the last second with calls of
its kind. -/
theorem Inv.countsSecond_of_lt (hcall : ∀ k now m, call k now m = (m.log k now).1) (h : Inv s)
    {now : ℤ} (hlt : s.clock < now) : CountsSecond call s (k, now) := by
  have hstep := step_of_le (s := s) (k := k) hcall hlt.le
  have hnew : now ≠ s.metric.currentSec := h.currentSec.symm ▸ hlt.ne'
  have hfresh : (k, now) ∉ s.calls := fun hmem => absurd (h.past _ hmem) (not_le.mpr hlt)
  intro s' hs'
  obtain rfl := Option.some.inj (hstep.symm.trans hs')
  refine ⟨?_, fun k' hne => ?_⟩
  · dsimp only
    rw [Metric.log_currentVelocityCounter, if_pos hnew, count_cons, if_pos rfl,
      count_eq_zero.mpr hfresh, zero_add]
  · by_cases hk : k' = k
    swap
    · rw [Metric.log_counters_of_ne hk] at hne
      exact absurd rfl hne
    subst hk
    -- the velocity is the counter, which counts an earlier second
    have hcount : ∃ sec < now, (s.metric.counters k').currentVelocityCounter = s.count k' sec := by
      by_cases hnone : ∀ sec, (k', sec) ∉ s.calls
      · exact ⟨s.clock, hlt, by rw [h.unused k' hnone, count_eq_zero.mpr (hnone _)]⟩
      · obtain ⟨sec, hsec, hmax⟩ := exists_last hnone
        exact ⟨sec, lt_of_le_of_lt (h.past _ hsec) hlt, h.last k' sec hsec hmax⟩
    obtain ⟨sec, hsec, heq⟩ := hcount
    have hne' : (k', now) ≠ (k', sec) := fun h => hsec.ne (Prod.mk.inj h).2.symm
    refine ⟨sec, hsec, ?_⟩
    rw [Metric.log_velocityCounter, if_pos hnew, count_cons, if_neg hne', heq, add_zero]

/-- A counter that goes on from an earlier second does not count this one, and the others do. -/
theorem Inv.countsSecond_iff (hcall : ∀ k now m, call k now m = (m.log k now).1) (h : Inv s)
    (a : K × ℤ) : CountsSecond call s a ↔ Noticed s a := by
  obtain ⟨k, now⟩ := a
  unfold Noticed
  dsimp only
  rcases lt_trichotomy s.clock now with hlt | rfl | hlt
  · exact iff_of_true (h.countsSecond_of_lt hcall hlt) fun heq => absurd heq hlt.ne'
  · rw [h.countsSecond_iff_of_eq hcall]
    constructor
    · intro heq _
      by_contra hnot
      rw [not_or] at hnot
      obtain ⟨sec, hsec, hmax⟩ := exists_last hnot.2
      -- the counter is that of an earlier second, which has calls
      rw [h.last k sec hsec hmax, count_eq_zero.mpr hnot.1] at heq
      exact absurd hsec (count_eq_zero.mp heq)
    · intro hnoticed
      rcases hnoticed rfl with hmem | hnone
      · exact h.last k s.clock hmem fun sec hsec => h.past _ hsec
      · rw [h.unused k hnone, count_eq_zero.mpr (hnone _)]
  · -- the clock does not go back
    refine iff_of_true (fun s' hs => ?_) fun heq => absurd heq hlt.ne
    exact absurd (step_eq_some hcall hs).1 (not_le.mpr hlt)

/-- A call that is noticed keeps the invariant. -/
theorem Inv.step (hcall : ∀ k now m, call k now m = (m.log k now).1) (h : Inv s)
    (hnoticed : Noticed s a) (hs : step call s a = some s') : Inv s' := by
  have hright := ((h.countsSecond_iff hcall a).mpr hnoticed) s' hs
  obtain ⟨hle, rfl⟩ := step_eq_some hcall hs
  obtain ⟨k, now⟩ := a
  refine ⟨Metric.log_currentSec, ?_, ?_, ?_⟩
  · rintro b hb
    rcases List.mem_cons.mp hb with rfl | hb
    · exact le_rfl
    · exact (h.past b hb).trans hle
  · intro k' hnone
    have hk : k' ≠ k := fun heq => hnone now (heq ▸ List.mem_cons_self)
    dsimp only
    rw [Metric.log_counters_of_ne hk]
    exact h.unused k' fun sec hmem => hnone sec (List.mem_cons_of_mem _ hmem)
  · intro k' sec hmem hmax
    by_cases hk : k' = k
    · subst hk
      have hsec : sec = now := by
        refine le_antisymm ?_ (hmax now List.mem_cons_self)
        rcases List.mem_cons.mp hmem with heq | hold
        · exact (Prod.mk.inj heq).2.le
        · exact (h.past _ hold).trans hle
      rw [hsec]
      exact hright.1
    · have hne : ∀ sec, (k, now) ≠ (k', sec) := fun sec heq => hk (Prod.mk.inj heq).1.symm
      dsimp only
      rw [Metric.log_counters_of_ne hk, count_cons, if_neg (hne sec), add_zero]
      refine h.last k' sec ?_ fun sec' hsec' => hmax sec' (List.mem_cons_of_mem _ hsec')
      exact (List.mem_cons.mp hmem).resolve_left (hne sec).symm

/-! ## Whole sequences -/

/-- In every sequence of calls, the counters count one second exactly when every call is
noticed. -/
theorem countsSecond_along (hcall : ∀ k now m, call k now m = (m.log k now).1) (now : ℤ)
    (calls : List (K × ℤ)) :
    Runs.Along (step call) (CountsSecond call) (start now) calls ↔
      Runs.Along (step call) Noticed (start now) calls :=
  Runs.along_iff_along (fun _ a h => h.countsSecond_iff hcall a)
    (fun _ _ _ h hnoticed hs => h.step hcall hnoticed hs) (inv_start now)

/-- **Velocity counters count one second** exactly when no call in a second that is not new is the
first one of its kind since an earlier second, in filters and in plugins. -/
theorem velocity_iff (now : ℤ) (filterCalls : List (FilterKind × ℤ))
    (pluginCalls : List (PluginKind × ℤ)) :
    (Runs.Along (step MetricFilter.call) (CountsSecond MetricFilter.call) (start now) filterCalls ↔
      Runs.Along (step MetricFilter.call) Noticed (start now) filterCalls) ∧
    (Runs.Along (step MetricPlugin.call) (CountsSecond MetricPlugin.call) (start now) pluginCalls ↔
      Runs.Along (step MetricPlugin.call) Noticed (start now) pluginCalls) :=
  ⟨countsSecond_along MetricFilter.call_eq now filterCalls,
    countsSecond_along MetricPlugin.call_eq now pluginCalls⟩

/-- A success, and in the next second an error and a success: the counter of the successes is 2,
in filters and in plugins. -/
theorem velocity_mixed :
    ¬ Runs.Along (step MetricFilter.call) (CountsSecond MetricFilter.call) (start 0)
      [(.success, 0), (.error, 1), (.success, 1)] ∧
    ¬ Runs.Along (step MetricPlugin.call) (CountsSecond MetricPlugin.call) (start 0)
      [(.success, 0), (.error, 1), (.success, 1)] := by
  constructor
  · intro h
    exact absurd ((h.2 _ rfl).2 _ rfl).1 fun hcounts => absurd (hcounts _ rfl).1 (by decide)
  · intro h
    exact absurd ((h.2 _ rfl).2 _ rfl).1 fun hcounts => absurd (hcounts _ rfl).1 (by decide)

end Logged

end Metrics
