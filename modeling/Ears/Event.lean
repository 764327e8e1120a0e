/-
# Events (`pkg/event/event.go`)

An event carries a payload, metadata and a context, and a node of an ack tree when it
was made with `WithAck` or cloned from such an event.  `SetPayload`, `SetMetadata`,
`SetPathValue`, `SetContext` and `Clone` first ask `IsAcked` of that node and refuse to
work on a settled event.

`Clone` is shallow: the clone has the payload and the metadata of the original by
reference.  Tracing spans, the logger and the fields that only they read are left out;
`New` takes what it reads from its surroundings (time, random ids, the context with the
logger in it) as an argument.
-/
import Ears.AckOutcome
import Ears.GoLib
import Ears.Tenant

open GoLib

/-- The errors of the event operations. -/
inductive EventError where
  | alreadyAckedError
  | noAckHandlersError
  | other (text : String)
  deriving DecidableEq, Repr

/-- The fields of an event; `κ` is the type of contexts.  `subTree` is
the source's field `ack`; `response` and `responseStatus` are the addresses of the response
cells, shared by all clones; `deepcopied` says that `DeepCopy` has been called. -/
structure Event (κ : Type) where
  metadata : Option Ref
  payload : Value
  ctx : κ
  subTree : Option NodeId
  tid : Tenant.Id
  eid : String
  userTraceId : String
  created : ℕ
  response : Ref
  responseStatus : Ref
  deepcopied : Bool := false
  deriving DecidableEq, Repr

namespace Event

variable {κ ε : Type}

/-- The prefixes of path expressions. -/
def PAYLOAD : String := "payload"

@[inherit_doc PAYLOAD]
def METADATA : String := "metadata"

/-- `e.ack != nil && e.ack.IsAcked()`, the test in front of the guarded operations. -/
def isSettled (t : AckTree ε) (e : Event κ) : Bool :=
  match e.subTree with
  | none => false
  | some n => t.isAcked n

/-! ## The guarded operations -/

/-- `SetPayload(payload)`. -/
def setPayload (t : AckTree ε) (e : Event κ) (payload : Value) :
    Event κ × Except EventError Unit :=
  if e.isSettled t then (e, .error .alreadyAckedError)
  else ({ e with payload := payload }, .ok ())

/-- `SetMetadata(metadata)`. -/
def setMetadata (t : AckTree ε) (e : Event κ) (metadata : Option Ref) :
    Event κ × Except EventError Unit :=
  if e.isSettled t then (e, .error .alreadyAckedError)
  else ({ e with metadata := metadata }, .ok ())

/-- `SetContext(ctx)`. -/
def setContext (t : AckTree ε) (e : Event κ) (ctx : κ) : Event κ × Except EventError Unit :=
  if e.isSettled t then (e, .error .alreadyAckedError)
  else ({ e with ctx := ctx }, .ok ())

/-- `splitPath(path)`: split at the dots that no backslash precedes. -/
def splitPath (path : String) : List String :=
  (split (replacePair '\\' '.' ['\\', '\\'] path.toList) '.').map fun segment =>
    String.ofList (replacePair '\\' '\\' ['.'] segment)

example : splitPath "payload.a\\.b.c" = ["payload", "a.b", "c"] := by decide

/-- The loop of `SetPathValue` over the segments after the first: the object to write
to, its parent and the key, with the missing objects on the way made if `createPath`. -/
def descend (path : String) (createPath : Bool) :
    Heap → List String → Value → Value → String →
      Heap × Except (Stop EventError) (Value × Value × String)
  | h, [], obj, parent, key => (h, .ok (obj, parent, key))
  | h, s :: rest, obj, parent, key =>
      if s = "" then descend path createPath h rest obj parent key
      else if rest = [] then (h, .ok (obj, obj, s))
      else match obj with
        | .map r =>
            match h.getKey r s with
            | some child => descend path createPath h rest child obj s
            | none =>
                if createPath then
                  descend path createPath (h.makeMap.1.setKey r s (.map h.makeMap.2)) rest
                    (.map h.makeMap.2) obj s
                else (h, .error (.error (.other ("invalid path " ++ path))))
        | .nilMap =>
            -- reading a nil map finds nothing, writing to it is a panic
            if createPath then (h, .error .panic)
            else (h, .error (.error (.other ("invalid path " ++ path))))
        | _ => (h, .error .panic)

/-- A key with an index, `name[index]`, cut at the first brackets; no text when the
closing bracket comes first, which makes the slice expression of the source panic. -/
def indexedKey (key : String) : String × Option (List Char) :=
  let cs := key.toList
  let i := cs.idxOf '['
  let j := cs.idxOf ']'
  (String.ofList (cs.take i), if i < j then some ((cs.take j).drop (i + 1)) else none)

/-- Write at an index of the array under a key, with the array made or made longer by
one if it has to be. -/
def setElement (h : Heap) (r : Ref) (name : String) (idx : ℕ) (val : Value)
    (createPath : Bool) : Heap × Except (Stop EventError) Unit :=
  let absent := (h.getKey r name).getD .nil = .nil
  if absent ∧ createPath = true ∧ Heap.maxSliceLen < idx + 1 then (h, .error .panic)
  else
    let h :=
      if absent ∧ createPath = true then
        (h.makeSlice (List.replicate (idx + 1) .nil)).1.setKey r name
          (.slice (h.makeSlice (List.replicate (idx + 1) .nil)).2)
      else h
    match h.getKey r name with
    | some (.slice a) =>
        let arr := h.slices a
        if idx < arr.length then (h.setIndex a idx val, .ok ())
        else if Heap.maxSliceLen < idx + 1 ∨ arr.length < idx then (h, .error .panic)
        else
          let (h, a') := h.makeSlice (arr.take idx ++ [val])
          (h.setKey r name (.slice a'), .ok ())
    | _ => (h, .error .panic)

/-- The last part of `SetPathValue`: write the value at the key of a map, whose name is
returned without its index. -/
def assign (h : Heap) (obj : Value) (key : String) (val : Value) (createPath : Bool) :
    Heap × Except (Stop EventError) String :=
  match obj with
  | .map r =>
      if contains key '[' && contains key ']' then
        match indexedKey key with
        | (_, none) => (h, .error .panic)
        | (name, some text) =>
            if 0 ≤ (atoi text).1 then
              match setElement h r name (atoi text).1.toNat val createPath with
              | (h, .ok ()) => (h, .ok name)
              | (h, .error stop) => (h, .error stop)
            else (h, .ok name)
      else (h.setKey r key val, .ok key)
  | .nilMap =>
      if contains key '[' && contains key ']' then
        match indexedKey key with
        | (_, none) => (h, .error .panic)
        | (name, some text) => if 0 ≤ (atoi text).1 then (h, .error .panic) else (h, .ok name)
      else (h, .error .panic)
  | _ => (h, .ok key)

/-- `SetPathValue` from the split of the path on. -/
def setSegments (h : Heap) (e : Event κ) (path : String) (obj val : Value) (createPath : Bool) :
    Heap × Event κ × Except (Stop EventError) (Value × String) :=
  match descend path createPath h (splitPath path).tail obj .nil "" with
  | (h, .error stop) => (h, e, .error stop)
  | (h, .ok (obj, parent, key)) =>
      match assign h obj key val createPath with
      | (h, .error stop) => (h, e, .error stop)
      | (h, .ok key) => (h, e, .ok (parent, key))

/-- `SetPathValue` once the object to start from is known. -/
def setPathFrom (t : AckTree ε) (h : Heap) (e : Event κ) (path : String) (obj val : Value)
    (createPath : Bool) : Heap × Event κ × Except (Stop EventError) (Value × String) :=
  let path := if hasPrefix path "." then PAYLOAD ++ path else path
  let path := if path = "" then PAYLOAD else path
  if path = PAYLOAD ∨ path = PAYLOAD ++ "." then
    match e.setPayload t val with
    | (e, .ok ()) => (h, e, .ok (.nil, ""))
    | (e, .error err) => (h, e, .error (.error err))
  else if path = METADATA ∨ path = METADATA ++ "." then
    match val with
    | .map r => (h, (e.setMetadata t (some r)).1, .error (.error (.other "bad metadata")))
    | .nilMap => (h, (e.setMetadata t none).1, .error (.error (.other "bad metadata")))
    | _ => (h, e, .error (.error (.other "bad metadata")))
  else if !hasPrefix path (PAYLOAD ++ ".") && !hasPrefix path (METADATA ++ ".") then
    (h, e, .error (.error (.other ("bad path " ++ path))))
  else setSegments h e path obj val createPath

/-- `SetPathValue(path, val, createPath)`: the parent object and the key written. -/
def setPathValue (t : AckTree ε) (h : Heap) (e : Event κ) (path : String) (val : Value)
    (createPath : Bool) : Heap × Event κ × Except (Stop EventError) (Value × String) :=
  if e.isSettled t then (h, e, .error (.error .alreadyAckedError))
  else if hasPrefix path (METADATA ++ ".") || path == METADATA then
    match e.metadata with
    | some r => setPathFrom t h e path (.map r) val createPath
    | none =>
        if createPath then
          let e := (e.setMetadata t (some h.makeMap.2)).1
          setPathFrom t h.makeMap.1 e path (.map h.makeMap.2) val createPath
        else (h, e, .error (.error (.other ("path " ++ path ++ " does not exist"))))
  else setPathFrom t h e path e.payload val createPath

/-- `Clone(ctx)`: a new event on a new child of the event's node. -/
def clone (t : AckTree ε) (e : Event κ) (ctx : κ) :
    AckTree ε × Except EventError (Event κ) :=
  match e.subTree with
  | none => (t, .ok { e with ctx := ctx, deepcopied := false })
  | some n =>
      match t.newSubTree n with
      | (t, .error .alreadyAckedError) => (t, .error .alreadyAckedError)
      | (t, .ok child) =>
          (t, .ok { e with ctx := ctx, subTree := some child, deepcopied := false })

/-- `Ack()`. -/
def ack (t : AckTree ε) (e : Event κ) : AckTree ε :=
  match e.subTree with
  | none => t
  | some n => t.ack n

/-- `Nack(err)`. -/
def nack (t : AckTree ε) (e : Event κ) (err : ε) : AckTree ε :=
  match e.subTree with
  | none => t
  | some n => t.nack n err

/-! ## `New` -/

/-- The options of `New`.  For `WithAck`: whether the two functions are there. -/
inductive EventOption where
  | withAck (handledFn errFn : Bool)
  | withId (eid : String)
  | withUserTraceId (traceId : String)
  | withMetadata (metadata : Option Ref)
  | withMetadataKeyValue (key : String) (val : Value)
  | withTenant (tid : Tenant.Id)
  deriving DecidableEq, Repr

/-- What `New` reads from its surroundings: the time, two random ids, the addresses of
the two response cells and the context that carries the logger. -/
structure Surroundings (κ : Type) where
  now : ℕ
  uuid : String
  traceId : String
  response : Ref
  responseStatus : Ref
  subLoggerCtx : κ → κ

/-- One option, applied to the event that is being built.  `WithAck` makes the tree. -/
def applyOption (h : Heap) (t : AckTree ε) (e : Event κ) :
    EventOption → Except EventError (Heap × AckTree ε × Event κ)
  | .withAck handledFn errFn =>
      if handledFn && errFn then .ok (h, .newAckTree, { e with subTree := some [] })
      else .error .noAckHandlersError
  | .withId eid => .ok (h, t, { e with eid := eid })
  | .withUserTraceId traceId => .ok (h, t, { e with userTraceId := traceId })
  | .withMetadata metadata => .ok (h, t, (e.setMetadata t metadata).1)
  | .withMetadataKeyValue key val =>
      match e.metadata with
      | some r => .ok (h.setKey r key val, t, e)
      | none =>
          .ok (h.makeMap.1.setKey h.makeMap.2 key val, t, { e with metadata := some h.makeMap.2 })
  | .withTenant tid => .ok (h, t, { e with tid := tid })

/-- The options in order; the first error stops `New`. -/
def applyOptions (h : Heap) (t : AckTree ε) (e : Event κ) :
    List EventOption → Except EventError (Heap × AckTree ε × Event κ)
  | [] => .ok (h, t, e)
  | o :: os =>
      match applyOption h t e o with
      | .error err => .error err
      | .ok (h, t, e) => applyOptions h t e os

/-- `New(ctx, payload, options...)`. -/
def new (env : Surroundings κ) (h : Heap) (ctx : κ) (payload : Value)
    (options : List EventOption) : Except EventError (Heap × AckTree ε × Event κ) :=
  let e : Event κ :=
    { metadata := none, payload := payload, ctx := ctx, subTree := none, tid := ⟨"", ""⟩,
      eid := env.uuid, userTraceId := "", created := env.now, response := env.response,
      responseStatus := env.responseStatus }
  match applyOptions h .newAckTree e options with
  | .error err => .error err
  | .ok (h, t, e) =>
      let e := if e.userTraceId = "" then { e with userTraceId := env.traceId } else e
      .ok (h, t, (e.setContext t (env.subLoggerCtx ctx)).1)

/-! ## No operation moves an event to another node -/

section Frame

variable (t : AckTree ε) (h : Heap) (e : Event κ)

@[simp] theorem setPayload_subTree (payload : Value) :
    (e.setPayload t payload).1.subTree = e.subTree := by
  unfold setPayload
  split <;> rfl

@[simp] theorem setMetadata_subTree (metadata : Option Ref) :
    (e.setMetadata t metadata).1.subTree = e.subTree := by
  unfold setMetadata
  split <;> rfl

@[simp] theorem setContext_subTree (ctx : κ) : (e.setContext t ctx).1.subTree = e.subTree := by
  unfold setContext
  split <;> rfl

theorem setSegments_event (path : String) (obj val : Value) (createPath : Bool) :
    (setSegments h e path obj val createPath).2.1 = e := by
  unfold setSegments
  split
  · rfl
  · split <;> rfl

theorem setPathFrom_subTree (path : String) (obj val : Value) (createPath : Bool) :
    (setPathFrom t h e path obj val createPath).2.1.subTree = e.subTree := by
  unfold setPathFrom
  dsimp only
  generalize (if (if hasPrefix path "." = true then PAYLOAD ++ path else path) = "" then PAYLOAD
    else if hasPrefix path "." = true then PAYLOAD ++ path else path) = path'
  split
  · have hset := setPayload_subTree t e val
    split <;> simp_all
  · split
    · cases val <;> simp
    · split
      · rfl
      · rw [setSegments_event]

/-- `SetPathValue` does not move an event to another node. -/
@[simp] theorem setPathValue_subTree (path : String) (val : Value) (createPath : Bool) :
    (e.setPathValue t h path val createPath).2.1.subTree = e.subTree := by
  unfold setPathValue
  split
  · rfl
  · split
    · split
      · rw [setPathFrom_subTree]
      · split
        · dsimp only
          rw [setPathFrom_subTree, setMetadata_subTree]
        · rfl
    · rw [setPathFrom_subTree]

end Frame

/-! ## The tree of a new event -/

variable {h h' : Heap} {t : AckTree ε} {e e' : Event κ} {o : EventOption}

/-- While the options are applied the tree is fresh and the event has no node but the root. -/
theorem applyOption_fresh (hsub : e.subTree = none ∨ e.subTree = some [])
    (ho : applyOption h .newAckTree e o = .ok (h', t, e')) :
    t = .newAckTree ∧ (e'.subTree = none ∨ e'.subTree = some []) := by
  cases o with
  | withAck handledFn errFn =>
      simp only [applyOption] at ho
      split at ho
      · obtain ⟨-, rfl, rfl⟩ : h = h' ∧ AckTree.newAckTree = t ∧ _ = e' := by simpa using ho
        exact ⟨rfl, Or.inr rfl⟩
      · simp at ho
  | withId eid =>
      obtain ⟨-, rfl, rfl⟩ : h = h' ∧ AckTree.newAckTree = t ∧ _ = e' := by
        simpa [applyOption] using ho
      exact ⟨rfl, hsub⟩
  | withUserTraceId traceId =>
      obtain ⟨-, rfl, rfl⟩ : h = h' ∧ AckTree.newAckTree = t ∧ _ = e' := by
        simpa [applyOption] using ho
      exact ⟨rfl, hsub⟩
  | withMetadata metadata =>
      obtain ⟨-, rfl, rfl⟩ : h = h' ∧ AckTree.newAckTree = t ∧ _ = e' := by
        simpa [applyOption] using ho
      rw [setMetadata_subTree]
      exact ⟨rfl, hsub⟩
  | withMetadataKeyValue key val =>
      simp only [applyOption] at ho
      split at ho
      · obtain ⟨-, rfl, rfl⟩ : _ = h' ∧ AckTree.newAckTree = t ∧ _ = e' := by simpa using ho
        exact ⟨rfl, hsub⟩
      · obtain ⟨-, rfl, rfl⟩ : _ = h' ∧ AckTree.newAckTree = t ∧ _ = e' := by simpa using ho
        exact ⟨rfl, hsub⟩
  | withTenant tid =>
      obtain ⟨-, rfl, rfl⟩ : h = h' ∧ AckTree.newAckTree = t ∧ _ = e' := by
        simpa [applyOption] using ho
      exact ⟨rfl, hsub⟩

theorem applyOptions_fresh {os : List EventOption}
    (hsub : e.subTree = none ∨ e.subTree = some [])
    (ho : applyOptions h .newAckTree e os = .ok (h', t, e')) :
    t = .newAckTree ∧ (e'.subTree = none ∨ e'.subTree = some []) := by
  induction os generalizing h e with
  | nil =>
      obtain ⟨-, rfl, rfl⟩ : h = h' ∧ AckTree.newAckTree = t ∧ e = e' := by
        simpa [applyOptions] using ho
      exact ⟨rfl, hsub⟩
  | cons o os ih =>
      unfold applyOptions at ho
      split at ho
      · simp at ho
      · rename_i h₁ t₁ e₁ ho₁
        obtain ⟨rfl, hsub₁⟩ := applyOption_fresh hsub ho₁
        exact ih hsub₁ ho

/-- The tree of a new event is fresh, and the event is its root if it has a node. -/
theorem new_fresh {env : Surroundings κ} {ctx : κ} {payload : Value} {os : List EventOption}
    (hnew : new env h ctx payload os = .ok (h', t, e)) :
    t = .newAckTree ∧ (e.subTree = none ∨ e.subTree = some []) := by
  unfold new at hnew
  dsimp only at hnew
  split at hnew
  · simp at hnew
  · rename_i h₁ t₁ e₁ ho
    obtain ⟨rfl, hsub⟩ := applyOptions_fresh (Or.inl rfl) ho
    obtain ⟨-, rfl, rfl⟩ : h₁ = h' ∧ AckTree.newAckTree = t ∧ _ = e := by simpa using hnew
    rw [setContext_subTree]
    refine ⟨rfl, ?_⟩
    split <;> exact hsub

end Event
