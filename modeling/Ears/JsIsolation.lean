/-
# What scripts can see of earlier executions

`Exec` resets the entries `payload`, `metadata`, `event`, `log`, `logInfo` and `logError` of
the map behind `_`, and nothing else of a runtime.  A runtime is `Clean` when nothing else of
it has changed since it was made, and on a clean runtime every script gives what it gives in
a fresh interpreter.

A script that stores something under another key of `_` leaves it to the next script on that
runtime, of whatever tenant.
-/
import Ears.JsInterpreter

open GoLib

namespace Js

variable {κ ε π γ φ C : Type}

/-- Nothing of the runtime has changed but the entries that `Exec` writes. -/
def Goja.Clean (g : Goja π γ φ) (rt : Runtime γ φ) : Prop :=
  rt.globals = g.new ∧ ∃ env, rt.underscore = .goMap env ∧
    ∀ key, execEntries (φ := φ) .nil .nil .nil key = none → env key = baseEnv key

/-- Running the script by itself, in a new runtime, leaves the runtime clean. -/
def Goja.Traceless (g : Goja π γ φ) (order : Finset String → List String) (lib : Libs κ)
    (code : String) (evt : Event κ) (w : Heap × Acks ε) : Prop :=
  ∀ p, g.compileCode code = .ok p → g.Clean (g.execOn order lib p g.newRuntime evt w).1

/-- `Exec(evt, code)` in a fresh interpreter. -/
def Goja.execFresh (g : Goja π γ φ) (order : Finset String → List String) (lib : Libs κ)
    (code : String) (evt : Event κ) (w : Heap × Acks ε) : Result κ ε :=
  match g.compileCode code with
  | .error err => (some (evt, .error (.other err)), w)
  | .ok p => (g.execOn order lib p g.newRuntime evt w).2

variable {g : Goja π γ φ} {order : Finset String → List String} {lib : Libs κ}

/-! ## Clean runtimes -/

theorem Goja.clean_newRuntime : g.Clean g.newRuntime :=
  ⟨rfl, baseEnv, rfl, fun _ _ => rfl⟩

/-- Which entries `Exec` writes does not depend on the event. -/
theorem execEntries_eq_none {payload metadata event : Value} {key : String} :
    execEntries (φ := φ) payload metadata event key = none ↔
      execEntries (φ := φ) .nil .nil .nil key = none := by
  unfold execEntries
  split_ifs <;> simp

/-- A clean runtime with the entries of an event is a new runtime with them. -/
theorem Goja.Clean.fill_eq {rt : Runtime γ φ} (h : g.Clean rt) (payload metadata event : Value) :
    rt.fill payload metadata event = g.newRuntime.fill payload metadata event := by
  obtain ⟨globals, underscore⟩ := rt
  obtain ⟨rfl, env, rfl, henv⟩ := h
  unfold Runtime.fill Goja.newRuntime
  dsimp only
  congr 3
  funext key
  cases hkey : execEntries (φ := φ) payload metadata event key with
  | some entry => rfl
  | none => rw [Option.none_or, Option.none_or, henv key (execEntries_eq_none.mp hkey)]

/-- A clean runtime runs every script as a new one does. -/
theorem Goja.Clean.execute_eq {rt : Runtime γ φ} (h : g.Clean rt) (p : π) :
    g.execute p rt = g.execute p g.newRuntime := by
  unfold Goja.execute
  funext payload metadata event
  rw [h.fill_eq]

/-- On a clean runtime the result is that of a new one, and the runtime stays clean if the
script leaves a new one clean. -/
theorem Goja.Clean.execOn {rt : Runtime γ φ} (h : g.Clean rt) (p : π) (evt : Event κ)
    (w : Heap × Acks ε) :
    (g.execOn order lib p rt evt w).2 = (g.execOn order lib p g.newRuntime evt w).2 ∧
      (g.Clean (g.execOn order lib p g.newRuntime evt w).1 →
        g.Clean (g.execOn order lib p rt evt w).1) := by
  unfold Goja.execOn
  rw [h.execute_eq]
  rcases (runScript lib (g.execute p g.newRuntime) evt).run (Heap.handle order) w.1 with
    ⟨_ | ⟨rt', out⟩, h₁⟩
  · exact ⟨rfl, fun _ => h⟩
  · exact ⟨rfl, id⟩

/-- A new runtime with the entries of an event is clean. -/
theorem Goja.clean_of_fill {rt : Runtime γ φ} {payload metadata event : Value}
    (h : g.newRuntime.fill payload metadata event = some rt) : g.Clean rt := by
  obtain rfl := Option.some.inj h
  refine ⟨rfl, _, rfl, fun key hkey => ?_⟩
  rw [execEntries_eq_none.mpr hkey, Option.none_or]

/-- A script that returns has been run with some data in its environment. -/
theorem run_runScript_eq_some {ρ : Type} {script : Script ρ} {evt : Event κ} {h h' : Heap}
    {x : ρ × Except String Exported}
    (hrun : (runScript lib script evt).run (Heap.handle order) h = (some x, h')) :
    ∃ payload metadata event h₁,
      (script payload metadata event).run (Heap.handle order) h₁ = (some x, h') := by
  unfold runScript at hrun
  obtain ⟨payload, h₁, -, hrun⟩ := (Prog.run_bind_eq_some _ _).mp hrun
  obtain ⟨metadata, h₂, -, hrun⟩ := (Prog.run_bind_eq_some _ _).mp hrun
  obtain ⟨event, h₃, -, hrun⟩ := (Prog.run_bind_eq_some _ _).mp hrun
  obtain ⟨-, h₄, -, hrun⟩ := (Prog.run_bind_eq_some _ _).mp hrun
  obtain ⟨-, h₅, -, hrun⟩ := (Prog.run_bind_eq_some _ _).mp hrun
  exact ⟨payload, metadata, .map event, h₅, hrun⟩

/-- A script leaves no trace when its program changes no runtime. -/
theorem Goja.traceless_of_runProgram {code : String}
    (hkeep : ∀ p, g.compileCode code = .ok p → ∀ rt rt' out h h',
      (g.runProgram p rt).run (Heap.handle order) h = (some (rt', out), h') → rt' = rt)
    (evt : Event κ) (w : Heap × Acks ε) : g.Traceless order lib code evt w := by
  intro p hp
  unfold Goja.execOn
  split
  · exact Goja.clean_newRuntime
  · rename_i rt' out h hrun
    obtain ⟨payload, metadata, event, h₁, hscript⟩ := run_runScript_eq_some hrun
    unfold Goja.execute at hscript
    cases hfill : g.newRuntime.fill payload metadata event with
    | none => simp [hfill] at hscript
    | some rt =>
        rw [hfill] at hscript
        obtain rfl := hkeep p hp rt rt' out h₁ h hscript
        exact Goja.clean_of_fill hfill

/-! ## The cache -/

/-- Every entry of the cache is the program of a script that has been given to `Exec`. -/
def CacheSound (g : Goja π γ φ) (entries : List (String × π)) (codes : List String) : Prop :=
  ∀ entry ∈ entries, ∃ code ∈ codes, entry.1 = progHash code ∧ g.compileCode code = .ok entry.2

/-- More scripts have been given. -/
theorem CacheSound.mono {cache : List (String × π)} {codes codes' : List String}
    (h : CacheSound g cache codes) (hsub : ∀ c ∈ codes, c ∈ codes') :
    CacheSound g cache codes' := by
  intro entry hentry
  obtain ⟨c, hc, hkey⟩ := h entry hentry
  exact ⟨c, hsub c hc, hkey⟩

variable {lru : Lru String π C} {size : C → ℕ} {entries : C → List (String × π)}

/-- When no other script given so far has the same digest, the cache gives the program of
the script. -/
theorem CacheSound.lookup (hlru : lru.Lawful size entries) {cache : C} {codes : List String}
    {code : String} (h : CacheSound g (entries cache) codes)
    (hdigest : ∀ c ∈ codes, progHash c = progHash code → c = code) :
    (g.lookup lru cache code).1 = g.compileCode code ∧
      CacheSound g (entries (g.lookup lru cache code).2) (code :: codes) := by
  have hmore : ∀ c ∈ codes, c ∈ code :: codes := fun c hc => List.mem_cons_of_mem _ hc
  have hget : CacheSound g (entries (lru.get cache (progHash code)).2) (code :: codes) :=
    fun e he => h.mono hmore e (hlru.mem_of_mem_get he)
  unfold Goja.lookup
  rcases hres : lru.get cache (progHash code) with ⟨_ | p, cache'⟩
  · rw [hres] at hget
    cases hcomp : g.compileCode code with
    | error err => exact ⟨rfl, hget⟩
    | ok p =>
        refine ⟨rfl, fun e he => ?_⟩
        rcases hlru.mem_of_mem_add he with rfl | he
        · exact ⟨code, List.mem_cons_self, rfl, hcomp⟩
        · exact hget e he
  · rw [hres] at hget
    obtain ⟨c, hc, hentry, hcomp⟩ := h _ (hlru.mem_of_get (congrArg Prod.fst hres))
    obtain rfl := hdigest c hc hentry.symm
    exact ⟨hcomp.symm, hget⟩

/-! ## Runs -/

/-- The script of a call that is under way. -/
def Call.script : Call κ π γ φ → Option String
  | .waiting _ code _ => some code
  | .holding _ code _ _ => some code
  | _ => none

namespace Interpreter

variable {s s' : Interpreter κ ε π γ φ C} {i j : ℕ} {c : Call κ π γ φ}

/-- Every execution so far has given what it gives in a fresh interpreter. -/
def Isolated (g : Goja π γ φ) (order : Finset String → List String) (lib : Libs κ)
    (s : Interpreter κ ε π γ φ C) : Prop :=
  ∀ x ∈ s.results, x.result = g.execFresh order lib x.code x.evt x.world

/-- The condition on a step: a script that is given to `Exec` has the digest of no other
script, and a script that runs leaves no trace. -/
def Harmless (g : Goja π γ φ) (order : Finset String → List String) (lib : Libs κ)
    (s : Interpreter κ ε π γ φ C) : Action κ ε → Prop
  | .call _ _ code _ => ∀ c ∈ s.codes, progHash c = progHash code → c = code
  | .run i w =>
      match s.calls i with
      | .holding evt code _ _ => g.Traceless order lib code evt w
      | _ => True
  | _ => True

/-- What holds of a call: it works with the program of its script, on a clean runtime. -/
def CallSound (g : Goja π γ φ) : Call κ π γ φ → Prop
  | .idle => True
  | .waiting _ code p => g.compileCode code = .ok p
  | .holding _ code p rt => g.compileCode code = .ok p ∧ g.Clean rt.runtime
  | .returning rt => g.Clean rt.runtime

/-- The invariant of the runs in which every step is harmless. -/
structure Undisturbed (g : Goja π γ φ) (entries : C → List (String × π))
    (order : Finset String → List String) (lib : Libs κ) (s : Interpreter κ ε π γ φ C) :
    Prop where
  cache : CacheSound g (entries s.lruCache) s.codes
  pool : ∀ rt ∈ s.runtimePool, g.Clean rt.runtime
  calls : ∀ i, CallSound g (s.calls i)
  isolated : s.Isolated g order lib

/-- A new interpreter has no entries and no runtimes. -/
theorem Undisturbed.newInterpreter (hlru : lru.Lawful size entries) (n : ℕ) :
    Undisturbed g entries order lib (newInterpreter lru n : Interpreter κ ε π γ φ C) where
  cache := by simp [CacheSound, Js.newInterpreter, hlru.entries_new]
  pool := by simp [Js.newInterpreter]
  calls := fun _ => trivial
  isolated := by simp [Isolated, Js.newInterpreter]

theorem callSound_update {calls : ℕ → Call κ π γ φ} (h : ∀ i, CallSound g (calls i))
    (hc : CallSound g c) (j : ℕ) : CallSound g (Function.update calls i c j) := by
  by_cases hj : j = i
  · subst hj
    rwa [Function.update_self]
  · rw [Function.update_of_ne hj]
    exact h j

/-- A harmless step keeps the invariant. -/
theorem Undisturbed.step (hlru : lru.Lawful size entries) {act : Action κ ε}
    (h : s.Undisturbed g entries order lib) (hG : s.Harmless g order lib act)
    (hs : s.step g lru order lib act = some s') : s'.Undisturbed g entries order lib := by
  rcases step_cases hs with ⟨i, evt, code, w, err, rfl, -, hprog, rfl⟩ |
    ⟨i, evt, code, w, p, rfl, -, hprog, rfl⟩ | ⟨i, now, evt, code, p, rfl, -, -, -, rfl⟩ |
    ⟨i, evt, code, p, rt, pool, rfl, hcall, hpool, rfl⟩ |
    ⟨i, w, evt, code, p, rt, rfl, hcall, rfl⟩ | ⟨i, now, rt, rfl, hcall, -, rfl⟩ |
    ⟨i, now, rt, rfl, hcall, -, -, rfl⟩
  · -- the script does not compile
    obtain ⟨hlookup, hcache⟩ := h.cache.lookup hlru hG
    refine ⟨hcache, h.pool, h.calls, fun x hx => ?_⟩
    rcases List.mem_cons.mp hx with rfl | hx
    · simp only [Goja.execFresh, ← hlookup, hprog]
    · exact h.isolated x hx
  · obtain ⟨hlookup, hcache⟩ := h.cache.lookup hlru hG
    exact ⟨hcache, h.pool, callSound_update h.calls (hlookup.symm.trans hprog), h.isolated⟩
  · refine ⟨h.cache, fun rt hrt => ?_, h.calls, h.isolated⟩
    rcases List.mem_append.mp hrt with hrt | hrt
    · exact h.pool rt hrt
    · obtain rfl := List.mem_singleton.mp hrt
      exact Goja.clean_newRuntime
  · have hsound := h.calls i
    rw [hcall] at hsound
    have hclean := h.pool
    rw [hpool] at hclean
    refine ⟨h.cache, fun r hr => hclean r (List.mem_cons_of_mem _ hr), ?_, h.isolated⟩
    exact callSound_update h.calls ⟨hsound, hclean rt List.mem_cons_self⟩
  · -- the script runs on a clean runtime and leaves it clean
    have hsound := h.calls i
    simp only [Harmless] at hG
    rw [hcall] at hsound hG
    obtain ⟨hprog, hclean⟩ := hsound
    obtain ⟨hres, hkeep⟩ : (g.execOn order lib p _ evt w).2 = _ ∧ _ := hclean.execOn p evt w
    refine ⟨h.cache, h.pool, callSound_update h.calls (hkeep (hG p hprog)), fun x hx => ?_⟩
    rcases List.mem_cons.mp hx with rfl | hx
    · simp only [Goja.execFresh, hprog, hres]
    · exact h.isolated x hx
  · exact ⟨h.cache, h.pool, callSound_update h.calls trivial, h.isolated⟩
  · have hsound := h.calls i
    rw [hcall] at hsound
    refine ⟨h.cache, fun r hr => ?_, callSound_update h.calls trivial, h.isolated⟩
    rcases List.mem_append.mp hr with hr | hr
    · exact h.pool r hr
    · exact List.mem_singleton.mp hr ▸ hsound

/-- Runs of scripts that never leave a trace and have different digests are harmless. -/
theorem along_harmless (scripts : Set String)
    (hdigest : ∀ c ∈ scripts, ∀ c' ∈ scripts, progHash c = progHash c' → c = c')
    (htrace : ∀ c ∈ scripts, ∀ evt (w : Heap × Acks ε), g.Traceless order lib c evt w)
    {acts : List (Action κ ε)} (hacts : ∀ i evt code w, .call i evt code w ∈ acts → code ∈ scripts)
    (hcodes : ∀ c ∈ s.codes, c ∈ scripts)
    (hcalls : ∀ i, ∀ c ∈ (s.calls i).script, c ∈ scripts) :
    Runs.Along (Interpreter.step g lru order lib) (Harmless g order lib) s acts := by
  induction acts generalizing s with
  | nil => trivial
  | cons act acts ih =>
      have hupdate : ∀ (i : ℕ) (c : Call κ π γ φ), (∀ x ∈ c.script, x ∈ scripts) →
          ∀ j, ∀ x ∈ (Function.update s.calls i c j).script, x ∈ scripts := by
        intro i c hc j
        by_cases hj : j = i
        · subst hj
          rwa [Function.update_self]
        · rw [Function.update_of_ne hj]
          exact hcalls j
      -- the scripts of the cache and of the calls are always among those that were given
      have hgiven : ∀ i evt code w, act = .call i evt code w →
          ∀ c ∈ code :: s.codes, c ∈ scripts := by
        rintro i evt code w rfl c hc
        rcases List.mem_cons.mp hc with rfl | hc
        · exact hacts i evt c w List.mem_cons_self
        · exact hcodes c hc
      have hrest := fun s' => ih (s := s') fun i evt code w hmem =>
        hacts i evt code w (List.mem_cons_of_mem _ hmem)
      refine ⟨?_, fun s' hs => ?_⟩
      · cases act with
        | call i evt code w =>
            exact fun c hc => hdigest c (hcodes c hc) code (hacts i evt code w List.mem_cons_self)
        | run i w =>
            simp only [Harmless]
            split
            · rename_i evt code p rt hcall
              exact htrace code (hcalls i code (by rw [hcall]; rfl)) evt w
            · trivial
        | _ => trivial
      · rcases step_cases hs with ⟨i, evt, code, w, err, rfl, -, -, rfl⟩ |
          ⟨i, evt, code, w, p, rfl, -, -, rfl⟩ | ⟨i, now, evt, code, p, rfl, -, -, -, rfl⟩ |
          ⟨i, evt, code, p, rt, pool, rfl, hcall, -, rfl⟩ | ⟨i, w, evt, code, p, rt, rfl, -, rfl⟩ |
          ⟨i, now, rt, rfl, -, -, rfl⟩ | ⟨i, now, rt, rfl, -, -, -, rfl⟩
        · exact hrest _ (hgiven i evt code w rfl) hcalls
        · exact hrest _ (hgiven i evt code w rfl) (hupdate i _ (by
            simpa [Call.script] using hacts i evt code w List.mem_cons_self))
        · exact hrest _ hcodes hcalls
        · exact hrest _ hcodes (hupdate i _ (by
            simpa [Call.script] using hcalls i code (by rw [hcall]; rfl)))
        · exact hrest _ hcodes (hupdate i _ (by simp [Call.script]))
        · exact hrest _ hcodes (hupdate i _ (by simp [Call.script]))
        · exact hrest _ hcodes (hupdate i _ (by simp [Call.script]))

/-- **Scripts that leave no trace do not see each other.**  In every interleaving of `Exec`
calls on an interpreter in which no two scripts have the same digest and each script, run on
its event in a new runtime, changes nothing of it but the entries that `Exec` writes, every
execution gives what it gives in a fresh interpreter. -/
theorem isolated_of_run (g : Goja π γ φ) (lru : Lru String π C) (size : C → ℕ)
    (entries : C → List (String × π)) (hlru : lru.Lawful size entries)
    (order : Finset String → List String) (lib : Libs κ) (n : ℕ) {acts : List (Action κ ε)}
    {s : Interpreter κ ε π γ φ C}
    (hG : Runs.Along (Interpreter.step g lru order lib) (Harmless g order lib)
      (newInterpreter lru n) acts)
    (hrun : Runs.run (Interpreter.step g lru order lib) (newInterpreter lru n) acts = some s) :
    s.Isolated g order lib :=
  (Runs.run_induction_along (P := Undisturbed g entries order lib)
    (fun _ _ _ h hG hs => h.step hlru hG hs) (Undisturbed.newInterpreter hlru n) hG hrun).isolated

/-! ## Two scripts -/

/-- The two programs of `smallGoja`. -/
inductive SmallProgram where
  | returnEvent
  | onlyOnce
  deriving DecidableEq, Repr

/-- A script that hands its event on. -/
def returnEventCode : String := "return _.event;"

/-- A script that hands its event on only the first time. -/
def onlyOnceCode : String := "if (_.seen) \x7b return null; \x7d _.seen = true; return _.event;"

/-- What an engine does with these two scripts. -/
def smallGoja : Goja SmallProgram Unit Unit where
  compile src :=
    if src = wrapSrc returnEventCode then .ok .returnEvent
    else if src = wrapSrc onlyOnceCode then .ok .onlyOnce
    else .error "SyntaxError"
  new := ()
  runProgram p rt :=
    match rt.underscore with
    | .goMap env =>
        let event : Exported := match env "event" with
          | some (.data v) => .value v
          | _ => .value .nil
        match p with
        | .returnEvent => pure (rt, .ok event)
        | .onlyOnce =>
            if (env "seen").isSome then pure (rt, .ok (.value .nil))
            else pure (⟨(), .goMap (Function.update env "seen" (some (.data (.bool true))))⟩,
              .ok event)
    | _ => pure (rt, .error "TypeError")

/-- An event without data, outside of any ack tree. -/
def emptyEvent : Event Unit :=
  { metadata := none, payload := .nil, ctx := (), subTree := none, tid := ⟨"o", "a"⟩, eid := "e",
    userTraceId := "t", created := 0, response := 0, responseStatus := 0 }

/-- The surroundings of the executions. -/
def emptyWorld : Heap × Acks Unit := (.empty, ⟨.newAckTree, []⟩)

/-- Two executions of a script one after the other, on the same runtime. -/
def twice (code : String) : List (Action Unit Unit) :=
  [.call 0 emptyEvent code emptyWorld, .grow 0 0, .take 0, .run 0 emptyWorld, .put 0 0,
    .call 0 emptyEvent code emptyWorld, .take 0, .run 0 emptyWorld]

/-- How many events an execution returned. -/
def Execution.returned (x : Execution Unit Unit) : Option ℕ :=
  x.result.1.map fun res => match res.2 with
    | .ok events => events.length
    | .error _ => 0

/-- The script that hands on its event leaves no trace. -/
theorem traceless_returnEvent (evt : Event Unit) (w : Heap × Acks Unit) :
    smallGoja.Traceless (fun _ => []) Libs.plain returnEventCode evt w := by
  refine Goja.traceless_of_runProgram (fun p hp rt rt' out h h' hrun => ?_) evt w
  have hcomp : smallGoja.compileCode returnEventCode = .ok .returnEvent := by
    simp [Goja.compileCode, smallGoja]
  rw [hcomp] at hp
  cases hp
  obtain ⟨globals, underscore⟩ := rt
  cases underscore with
  | goMap env =>
      simp only [smallGoja, Prog.run_pure, Prod.mk.injEq, Option.some.injEq] at hrun
      exact hrun.1.1.symm
  | object =>
      simp only [smallGoja, Prog.run_pure, Prod.mk.injEq, Option.some.injEq] at hrun
      exact hrun.1.1.symm
  | other =>
      simp only [smallGoja, Prog.run_pure, Prod.mk.injEq, Option.some.injEq] at hrun
      exact hrun.1.1.symm

/-- The script that hands on its event does so both times. -/
theorem isolated_of_run_returnEvent :
    ∃ s, Runs.run (Interpreter.step smallGoja Lru.recent (fun _ => []) Libs.plain)
        (newInterpreter Lru.recent 10) (twice returnEventCode) = some s ∧
      s.results.map Execution.returned = [some 1, some 1] ∧
      s.Isolated smallGoja (fun _ => []) Libs.plain := by
  obtain ⟨s, hs⟩ : ∃ s, Runs.run (Interpreter.step smallGoja Lru.recent (fun _ => []) Libs.plain)
      (newInterpreter Lru.recent 10) (twice returnEventCode) = some s :=
    Option.isSome_iff_exists.mp (by decide +kernel)
  have hreturned : (Runs.run (Interpreter.step smallGoja Lru.recent (fun _ => []) Libs.plain)
      (newInterpreter Lru.recent 10) (twice returnEventCode)).map
      (fun s => s.results.map Execution.returned) = some [some 1, some 1] := by decide +kernel
  rw [hs, Option.map_some, Option.some.injEq] at hreturned
  refine ⟨s, hs, hreturned, isolated_of_run _ Lru.recent Lru.Recent.size
    Lru.Recent.entries Lru.recent_lawful _ _ 10 (along_harmless
    {returnEventCode} ?_ ?_ ?_ ?_ ?_) hs⟩
  · rintro c rfl c' rfl -
    rfl
  · rintro c rfl evt w
    exact traceless_returnEvent evt w
  · intro i evt code w hmem
    simp only [twice, List.mem_cons, Action.call.injEq, reduceCtorEq, List.not_mem_nil,
      or_false, false_or] at hmem
    rcases hmem with ⟨-, -, rfl, -⟩ | ⟨-, -, rfl, -⟩
    · rfl
    · rfl
  · simp [newInterpreter]
  · simp [newInterpreter, Call.script]

/-- A script that marks its runtime through `_` does not see the second event as it would in
a fresh interpreter. -/
theorem not_isolated_onlyOnce :
    ∃ s, Runs.run (Interpreter.step smallGoja Lru.recent (fun _ => []) Libs.plain)
        (newInterpreter Lru.recent 10) (twice onlyOnceCode) = some s ∧
      ¬ s.Isolated smallGoja (fun _ => []) Libs.plain := by
  obtain ⟨s, hs⟩ : ∃ s, Runs.run (Interpreter.step smallGoja Lru.recent (fun _ => []) Libs.plain)
      (newInterpreter Lru.recent 10) (twice onlyOnceCode) = some s :=
    Option.isSome_iff_exists.mp (by decide +kernel)
  refine ⟨s, hs, fun hiso => ?_⟩
  -- the results of the two runs, as far as they can be compared
  have hrun : (Runs.run (Interpreter.step smallGoja Lru.recent (fun _ => []) Libs.plain)
      (newInterpreter Lru.recent 10) (twice onlyOnceCode)).map
      (fun s => s.results.map Execution.returned) = some [some 0, some 1] := by decide +kernel
  have hfresh : (Runs.run (Interpreter.step smallGoja Lru.recent (fun _ => []) Libs.plain)
      (newInterpreter Lru.recent 10) (twice onlyOnceCode)).map (fun s => s.results.map fun x =>
        Execution.returned { x with
          result := smallGoja.execFresh (fun _ => []) Libs.plain x.code x.evt x.world }) =
      some [some 1, some 1] := by decide +kernel
  rw [hs, Option.map_some, Option.some.injEq] at hrun hfresh
  have hsame : s.results.map Execution.returned = s.results.map fun x =>
      Execution.returned { x with
        result := smallGoja.execFresh (fun _ => []) Libs.plain x.code x.evt x.world } := by
    apply List.map_congr_left
    intro x hx
    rw [← hiso x hx]
  rw [hrun, hfresh] at hsame
  simp at hsame

end Interpreter

end Js
