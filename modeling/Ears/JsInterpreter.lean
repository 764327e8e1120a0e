/-
# The script interpreter and its pool of runtimes (`pkg/filter/js/goja.go`)

One interpreter serves all js filters of all tenants.  `Exec` looks the compiled script up in
an LRU cache under the MD5 digest of its source, takes a runtime from a pool, writes the
event's data into the map that the runtime knows as `_`, runs the script and puts the runtime
back unless it has expired.

The engine itself (`github.com/dop251/goja`) is a parameter: compiling, a new runtime, and
running a program in a runtime.  So is the cache (`Lru`).  Property assignments on `_` are
assignments to the Go map that `setEnv` made.  A script can bind `_` to something else; then
`Exec` writes into a copy of it, or panics if it is no object.

`Exec` calls are goroutines.  Each step is what one of them does between two points where it
can wait: looking up the script, making a runtime, taking one, running the script, returning
the runtime.
-/
import Ears.FanOut
import Ears.Lru
import Ears.Md5

open GoLib

namespace Js

/-! ## Runtimes -/

/-- An entry of the map behind `_`: data of an event, a Go function, or anything else that a
script has put there. -/
inductive Entry (φ : Type) where
  | data (v : Value)
  | native (name : String)
  | scripted (x : φ)
  deriving DecidableEq, Repr

/-- What a runtime finds as `_`: the map of `setEnv`, an object of a script, or no object. -/
inductive Underscore (φ : Type) where
  | goMap (env : String → Option (Entry φ))
  | object
  | other

/-- The state of a runtime: everything else in `globals`. -/
structure Runtime (γ φ : Type) where
  globals : γ
  underscore : Underscore φ

/-- The script engine. -/
structure Goja (π γ φ : Type) where
  compile : String → Except String π
  new : γ
  runProgram : π → Runtime γ φ → HeapProg (Runtime γ φ × Except String Exported)

variable {κ ε π γ φ C : Type}

/-- The entries that `setEnv` makes. -/
def baseEnv (key : String) : Option (Entry φ) :=
  if key = "nowms" ∨ key = "now" ∨ key = "esc" then some (.native key) else none

/-- `goja.New()` and `setEnv`. -/
def Goja.newRuntime (g : Goja π γ φ) : Runtime γ φ := ⟨g.new, .goMap baseEnv⟩

/-- The entries that `Exec` writes each time. -/
def execEntries (payload metadata event : Value) (key : String) : Option (Entry φ) :=
  if key = "payload" then some (.data payload)
  else if key = "metadata" then some (.data metadata)
  else if key = "event" then some (.data event)
  else if key = "log" ∨ key = "logInfo" ∨ key = "logError" then some (.native key)
  else none

/-- The runtime after `Exec` has written its entries; `none` when `_` is not a map. -/
def Runtime.fill (rt : Runtime γ φ) (payload metadata event : Value) : Option (Runtime γ φ) :=
  match rt.underscore with
  | .goMap env =>
      some { rt with
        underscore := .goMap fun key => (execEntries payload metadata event key).or (env key) }
  | .object => some rt
  | .other => none

/-- A compiled script in a runtime. -/
def Goja.execute (g : Goja π γ φ) (p : π) (rt : Runtime γ φ) : Script (Runtime γ φ) :=
  fun payload metadata event =>
    match rt.fill payload metadata event with
    | none => Prog.panic
    | some rt => g.runProgram p rt

/-- What an `Exec` leads to: the event and the events or the error it returns, nothing after
a panic, and the heap and the ack tree. -/
abbrev Result (κ ε : Type) :=
  Option (Event κ × Except EventError (List (Event κ))) × Heap × Acks ε

/-- `Exec` once it has a program and a runtime: the runtime as the script leaves it, and the
result. -/
def Goja.execOn (g : Goja π γ φ) (order : Finset String → List String) (lib : Libs κ) (p : π)
    (rt : Runtime γ φ) (evt : Event κ) (w : Heap × Acks ε) : Runtime γ φ × Result κ ε :=
  match (runScript lib (g.execute p rt) evt).run (Heap.handle order) w.1 with
  | (none, h) => (rt, none, h, w.2)
  | (some (rt', out), h) => (rt', (execResult evt out).run (EventProg.handle order) (h, w.2))

/-- The result is that of the function `exec`. -/
theorem Goja.execOn_result (g : Goja π γ φ) (order : Finset String → List String) (lib : Libs κ)
    (p : π) (rt : Runtime γ φ) (evt : Event κ) (w : Heap × Acks ε) :
    (g.execOn order lib p rt evt w).2 =
      (exec lib (.ok (g.execute p rt)) evt).run (EventProg.handle order) w := by
  obtain ⟨h, a⟩ := w
  unfold execOn exec
  dsimp only
  rw [Prog.run_bind, Prog.run_left]
  rcases (runScript lib (g.execute p rt) evt).run (Heap.handle order) h with ⟨_ | ⟨rt', out⟩, h₁⟩
  · rfl
  · rfl

/-! ## Compiling -/

/-- `wrapSrc(src)`. -/
def wrapSrc (src : String) : String := "(function()\x7b" ++ src ++ "\x7d());"

/-- `Compile(code)`, without libraries. -/
def Goja.compileCode (g : Goja π γ φ) (code : String) : Except String π :=
  match g.compile (wrapSrc code) with
  | .error err => .error (err ++ ": " ++ wrapSrc code)
  | .ok p => .ok p

/-- The key of a script in the cache: `fmt.Sprintf("%x", md5.Sum([]byte(code)))`. -/
def progHash (code : String) : String :=
  String.ofList (Md5.hexDigest (code.toUTF8.data.toList.map UInt8.toNat))

/-- The size given to `lru.New`. -/
def lruSize : ℕ := 100

/-- The first part of `Exec`: the program from the cache, or a new one. -/
def Goja.lookup (g : Goja π γ φ) (lru : Lru String π C) (cache : C) (code : String) :
    Except String π × C :=
  match lru.get cache (progHash code) with
  | (some p, cache) => (.ok p, cache)
  | (none, cache) =>
      match g.compileCode code with
      | .error err => (.error err, cache)
      | .ok p => (.ok p, lru.add cache (progHash code) p)

/-! ## The pool -/

/-- A runtime of the pool and the time at which it expires. -/
structure Pooled (γ φ : Type) where
  runtime : Runtime γ φ
  expiresAt : ℕ

/-- Where a call of `Exec` stands. -/
inductive Call (κ π γ φ : Type) where
  | idle
  | waiting (evt : Event κ) (code : String) (p : π)
  | holding (evt : Event κ) (code : String) (p : π) (rt : Pooled γ φ)
  | returning (rt : Pooled γ φ)

/-- A finished execution: what it was given, the heap and the tree it found, the result. -/
structure Execution (κ ε : Type) where
  evt : Event κ
  code : String
  world : Heap × Acks ε
  result : Result κ ε

/-- An interpreter with the calls of `Exec` in it.  `codes` and `results` list the scripts
given to it and the executions finished so far. -/
structure Interpreter (κ ε π γ φ C : Type) where
  maxRuntimes : ℕ
  runtimePool : List (Pooled γ φ)
  runtimeCount : ℤ
  lruCache : C
  calls : ℕ → Call κ π γ φ
  codes : List String
  results : List (Execution κ ε)

/-- `NewInterpreter(WithMaxRuntimes(n))`. -/
def newInterpreter (lru : Lru String π C) (n : ℕ) : Interpreter κ ε π γ φ C where
  maxRuntimes := n
  runtimePool := []
  runtimeCount := 0
  lruCache := lru.new lruSize
  calls := fun _ => .idle
  codes := []
  results := []

/-- `RuntimeTTL`, in nanoseconds. -/
def runtimeTTL : ℕ := 5 * 60 * 10 ^ 9

/-- The steps of the calls.  Times and the world around the interpreter are given by the
surroundings. -/
inductive Action (κ ε : Type) where
  | call (i : ℕ) (evt : Event κ) (code : String) (w : Heap × Acks ε)
  | grow (i : ℕ) (now : ℕ)
  | take (i : ℕ)
  | run (i : ℕ) (w : Heap × Acks ε)
  | put (i : ℕ) (now : ℕ)

namespace Interpreter

/-- Move one call. -/
def setCall (s : Interpreter κ ε π γ φ C) (i : ℕ) (c : Call κ π γ φ) : Interpreter κ ε π γ φ C :=
  { s with calls := Function.update s.calls i c }

/-- One step of one call. -/
def step (g : Goja π γ φ) (lru : Lru String π C) (order : Finset String → List String)
    (lib : Libs κ) (s : Interpreter κ ε π γ φ C) : Action κ ε → Option (Interpreter κ ε π γ φ C)
  | .call i evt code w =>
      match s.calls i with
      | .idle =>
          let s := { s with codes := code :: s.codes }
          match g.lookup lru s.lruCache code with
          | (.error err, cache) =>
              some { s with
                lruCache := cache
                results := ⟨evt, code, w, some (evt, .error (.other err)), w⟩ :: s.results }
          | (.ok p, cache) => some ({ s with lruCache := cache }.setCall i (.waiting evt code p))
      | _ => none
  | .grow i now =>
      match s.calls i with
      | .waiting _ _ _ =>
          -- the pool is a channel with room for `maxRuntimes`
          if s.runtimeCount < s.maxRuntimes ∧ s.runtimePool.length < s.maxRuntimes then
            some { s with
              runtimePool := s.runtimePool ++ [⟨g.newRuntime, now + runtimeTTL⟩]
              runtimeCount := s.runtimeCount + 1 }
          else none
      | _ => none
  | .take i =>
      match s.calls i, s.runtimePool with
      | .waiting evt code p, rt :: pool =>
          some ({ s with runtimePool := pool }.setCall i (.holding evt code p rt))
      | _, _ => none
  | .run i w =>
      match s.calls i with
      | .holding evt code p rt =>
          let res := g.execOn order lib p rt.runtime evt w
          some ({ s with results := ⟨evt, code, w, res.2⟩ :: s.results }.setCall i
            (.returning ⟨res.1, rt.expiresAt⟩))
      | _ => none
  | .put i now =>
      match s.calls i with
      | .returning rt =>
          if rt.expiresAt < now then
            some ({ s with runtimeCount := s.runtimeCount - 1 }.setCall i .idle)
          else if s.runtimePool.length < s.maxRuntimes then
            some ({ s with runtimePool := s.runtimePool ++ [rt] }.setCall i .idle)
          else none
      | _ => none

/-- What a step can be. -/
theorem step_cases {g : Goja π γ φ} {lru : Lru String π C}
    {order : Finset String → List String} {lib : Libs κ} {s s' : Interpreter κ ε π γ φ C}
    {act : Action κ ε} (hs : s.step g lru order lib act = some s') :
    (∃ i evt code w err, act = .call i evt code w ∧ s.calls i = .idle ∧
      (g.lookup lru s.lruCache code).1 = .error err ∧
      s' = { s with
        codes := code :: s.codes
        lruCache := (g.lookup lru s.lruCache code).2
        results := ⟨evt, code, w, some (evt, .error (.other err)), w⟩ :: s.results }) ∨
    (∃ i evt code w p, act = .call i evt code w ∧ s.calls i = .idle ∧
      (g.lookup lru s.lruCache code).1 = .ok p ∧
      s' = { s with
        codes := code :: s.codes
        lruCache := (g.lookup lru s.lruCache code).2
        calls := Function.update s.calls i (.waiting evt code p) }) ∨
    (∃ i now evt code p, act = .grow i now ∧ s.calls i = .waiting evt code p ∧
      s.runtimeCount < s.maxRuntimes ∧ s.runtimePool.length < s.maxRuntimes ∧
      s' = { s with
        runtimePool := s.runtimePool ++ [⟨g.newRuntime, now + runtimeTTL⟩]
        runtimeCount := s.runtimeCount + 1 }) ∨
    (∃ i evt code p rt pool, act = .take i ∧ s.calls i = .waiting evt code p ∧
      s.runtimePool = rt :: pool ∧
      s' = { s with
        runtimePool := pool
        calls := Function.update s.calls i (.holding evt code p rt) }) ∨
    (∃ i w evt code p rt, act = .run i w ∧ s.calls i = .holding evt code p rt ∧
      s' = { s with
        results := ⟨evt, code, w, (g.execOn order lib p rt.runtime evt w).2⟩ :: s.results
        calls := Function.update s.calls i
          (.returning ⟨(g.execOn order lib p rt.runtime evt w).1, rt.expiresAt⟩) }) ∨
    (∃ i now rt, act = .put i now ∧ s.calls i = .returning rt ∧ rt.expiresAt < now ∧
      s' = { s with
        runtimeCount := s.runtimeCount - 1
        calls := Function.update s.calls i .idle }) ∨
    (∃ i now rt, act = .put i now ∧ s.calls i = .returning rt ∧ ¬ rt.expiresAt < now ∧
      s.runtimePool.length < s.maxRuntimes ∧
      s' = { s with
        runtimePool := s.runtimePool ++ [rt]
        calls := Function.update s.calls i .idle }) := by
  cases act with
  | call i evt code w =>
      simp only [step] at hs
      split at hs
      · rename_i hcall
        rcases hl : g.lookup lru s.lruCache code with ⟨err | p, cache⟩
        · rw [hl] at hs
          exact Or.inl ⟨i, evt, code, w, err, rfl, hcall, by rw [hl], by
            rw [hl]
            exact (Option.some.inj hs).symm⟩
        · rw [hl] at hs
          exact Or.inr (Or.inl ⟨i, evt, code, w, p, rfl, hcall, by rw [hl], by
            rw [hl]
            exact (Option.some.inj hs).symm⟩)
      · simp at hs
  | grow i now =>
      simp only [step] at hs
      split at hs
      · rename_i evt code p hcall
        split at hs
        · rename_i hroom
          exact Or.inr (Or.inr (Or.inl ⟨i, now, evt, code, p, rfl, hcall, hroom.1, hroom.2,
            (Option.some.inj hs).symm⟩))
        · simp at hs
      · simp at hs
  | take i =>
      simp only [step] at hs
      split at hs
      · rename_i evt code p rt pool hcall hpool
        exact Or.inr (Or.inr (Or.inr (Or.inl ⟨i, evt, code, p, rt, pool, rfl, hcall, hpool,
          (Option.some.inj hs).symm⟩)))
      · simp at hs
  | run i w =>
      simp only [step] at hs
      split at hs
      · rename_i evt code p rt hcall
        exact Or.inr (Or.inr (Or.inr (Or.inr (Or.inl ⟨i, w, evt, code, p, rt, rfl, hcall,
          (Option.some.inj hs).symm⟩))))
      · simp at hs
  | put i now =>
      simp only [step] at hs
      split at hs
      · rename_i rt hcall
        split at hs
        · rename_i hexp
          exact Or.inr (Or.inr (Or.inr (Or.inr (Or.inr (Or.inl ⟨i, now, rt, rfl, hcall, hexp,
            (Option.some.inj hs).symm⟩)))))
        · rename_i hexp
          split at hs
          · rename_i hroom
            exact Or.inr (Or.inr (Or.inr (Or.inr (Or.inr (Or.inr ⟨i, now, rt, rfl, hcall, hexp,
              hroom, (Option.some.inj hs).symm⟩)))))
          · simp at hs
      · simp at hs

end Interpreter

end Js
