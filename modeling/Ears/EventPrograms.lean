/-
# Event operations one call at a time (`pkg/event/event.go`)

The operations of an event as programs over the heap and the ack tree: `GetPathValue` with
its array paths, `SetPathValue`, `Evaluate`, `Clone`, `DeepCopy` and the operations that ask
`IsAcked` first.  The functions of `Ears.Event` are what these programs do when nothing runs
in between (`run_setPathValue`).

Functions of packages that are not part of the repository are fields of `Libs`: the deep
copy, the JSON coder and `reflect.DeepEqual` as programs over the heap, the others as plain
functions.
-/
import Ears.Event
import Ears.HeapPrograms
import Ears.Json

open GoLib

/-- The operations on ack trees that events use. -/
inductive AckOp (ε : Type) where
  | isAcked (n : NodeId)
  | newSubTree (n : NodeId)
  | ack (n : NodeId)
  | nack (n : NodeId) (err : ε)
  deriving DecidableEq, Repr

/-- The node that is operated on. -/
def AckOp.node {ε : Type} : AckOp ε → NodeId
  | .isAcked n => n
  | .newSubTree n => n
  | .ack n => n
  | .nack n _ => n

/-- The ack operations with what they return. -/
def ackSig (ε : Type) : Signature where
  Op := AckOp ε
  Res
    | .isAcked _ => Bool
    | .newSubTree _ => Except AlreadyAckedError NodeId
    | .ack _ => Unit
    | .nack _ _ => Unit

/-- An ack tree with the calls made on it so far. -/
structure Acks (ε : Type) where
  tree : AckTree ε
  history : List (AckTree.Op ε)

namespace Acks

variable {ε : Type}

/-- `NewSubTree()` of a node. -/
def newSubTree (a : Acks ε) (n : NodeId) : Acks ε where
  tree := (a.tree.newSubTree n).1
  history := a.history ++ [.newSubTree n]

/-- `Ack()` of a node. -/
def ack (a : Acks ε) (n : NodeId) : Acks ε where
  tree := a.tree.ack n
  history := a.history ++ [.ack n]

/-- `Nack(err)` of a node. -/
def nack (a : Acks ε) (n : NodeId) (err : ε) : Acks ε where
  tree := a.tree.nack n err
  history := a.history ++ [.nack n err]

/-- The ack operations on one tree. -/
def handle : Handler (ackSig ε) (Acks ε)
  | .isAcked n, a => (a.tree.isAcked n, a)
  | .newSubTree n, a => ((a.tree.newSubTree n).2, a.newSubTree n)
  | .ack n, a => ((), a.ack n)
  | .nack n err, a => ((), a.nack n err)

end Acks

/-- A function over the heap and the ack tree. -/
abbrev EventProg (ε : Type) := Prog (heapSig.sum (ackSig ε))

namespace EventProg

variable {ε : Type}

/-- `IsAcked()` of a node. -/
def isAcked (n : NodeId) : EventProg ε Bool :=
  Prog.perform (S := heapSig.sum (ackSig ε)) (.inr (.isAcked n))

/-- `NewSubTree()` of a node. -/
def newSubTree (n : NodeId) : EventProg ε (Except AlreadyAckedError NodeId) :=
  Prog.perform (S := heapSig.sum (ackSig ε)) (.inr (.newSubTree n))

/-- `Ack()` of a node. -/
def ack (n : NodeId) : EventProg ε Unit :=
  Prog.perform (S := heapSig.sum (ackSig ε)) (.inr (.ack n))

/-- `Nack(err)` of a node. -/
def nack (n : NodeId) (err : ε) : EventProg ε Unit :=
  Prog.perform (S := heapSig.sum (ackSig ε)) (.inr (.nack n err))

/-- The heap and the tree of an event program that runs by itself. -/
abbrev handle (order : Finset String → List String) :
    Handler (heapSig.sum (ackSig ε)) (Heap × Acks ε) :=
  (Heap.handle order).sum Acks.handle

@[simp] theorem run_newSubTree (order : Finset String → List String) (h : Heap) (a : Acks ε)
    (n : NodeId) : (newSubTree n).run (handle order) (h, a) =
      (some (a.tree.newSubTree n).2, h, a.newSubTree n) := rfl

end EventProg

/-- A compiled regular expression. -/
structure Regexp where
  findString : String → String
  replaceAllString : String → String → String

/-- The functions of other packages, and what events and filters read from their
surroundings: trace ids, random ids, the time, and how deep recursion and loops can go. -/
structure Libs (κ : Type) where
  deepCopy : Value → HeapProg Value
  marshal : Value → HeapProg (Except String String)
  unmarshal : List UInt8 → HeapProg (Except String Value)
  deepEqual : Value → Value → HeapProg Bool
  compileRegexp : String → Except String Regexp
  digest : String → String → List UInt8 → List UInt8
  fnv32a : List UInt8 → ℕ
  decodeBase64 : List UInt8 → Except String (List UInt8)
  text : List UInt8 → String
  toUpper : String → String
  toLower : String → String
  traceId : κ → String
  timestamp : String
  surroundings : Event.Surroundings κ
  depth : ℕ

namespace Libs

/-- Copy the entries of one map into another. -/
def copyEntries (copy : Value → HeapProg Value) (r m : Ref) : List String → HeapProg Unit
  | [] => pure ()
  | key :: rest => do
      let v ← HeapProg.getKey r key
      let v ← copy (v.getD .nil)
      HeapProg.setKey m key v
      copyEntries copy r m rest

/-- Copies of the elements of a slice. -/
def copyElems (copy : Value → HeapProg Value) (r : Ref) : List ℕ → HeapProg (List Value)
  | [] => pure []
  | i :: is => do
      let v ← HeapProg.index r i
      let v ← copy v
      let vs ← copyElems copy r is
      pure (v :: vs)

/-- New maps and slices all the way down, for values up to a depth. -/
def copyValue : ℕ → Value → HeapProg Value
  | 0, _ => Prog.panic
  | depth + 1, .map r => do
      let keys ← HeapProg.keys r
      let m ← HeapProg.makeMap
      copyEntries (copyValue depth) r m keys
      pure (.map m)
  | depth + 1, .slice r => do
      let n ← HeapProg.len r
      let vs ← copyElems (copyValue depth) r (List.range n)
      Value.slice <$> HeapProg.makeSlice vs
  | _ + 1, v => pure v

/-- The JSON value behind a Go value, for values up to a depth. -/
def readJson : ℕ → Value → HeapProg Json
  | 0, _ => Prog.panic
  | depth + 1, .map r => do
      let keys ← HeapProg.keys r
      let fields ← keys.mapM fun key => do
        let v ← HeapProg.getKey r key
        let j ← readJson depth (v.getD .nil)
        pure (key, j)
      pure (.obj fields)
  | depth + 1, .slice r => do
      let n ← HeapProg.len r
      let elems ← (List.range n).mapM fun i => do
        let v ← HeapProg.index r i
        readJson depth v
      pure (.arr elems)
  | _ + 1, .bool b => pure (.bool b)
  | _ + 1, .num text => pure (.num text)
  | _ + 1, .str s => pure (.str s)
  | _ + 1, .bytes b => pure (.str (String.ofList (Base64.encode b)))
  | _ + 1, .nil => pure .null
  | _ + 1, .nilMap => pure .null

/-- Library functions for values of a small depth. -/
def plain : Libs Unit where
  deepCopy := copyValue 8
  marshal v := do
    let j ← readJson 8 v
    pure (.ok (String.ofList j.marshal))
  unmarshal _ := pure (.error "unexpected end of JSON input")
  deepEqual v w := do
    let j ← readJson 8 v
    let k ← readJson 8 w
    pure (j.marshal = k.marshal)
  compileRegexp _ := .error "missing argument to repetition operator"
  digest _ _ buf := buf
  fnv32a buf := buf.length
  decodeBase64 buf := .ok buf
  text _ := ""
  toUpper s := String.ofList (s.toList.map Char.toUpper)
  toLower s := String.ofList (s.toList.map Char.toLower)
  traceId _ := "00000000000000000000000000000000"
  timestamp := "0"
  surroundings :=
    { now := 0, uuid := "", traceId := "", response := 0, responseStatus := 0, subLoggerCtx := id }
  depth := 8

end Libs

namespace Event

variable {κ ε : Type}

/-! ## Reading a path -/

/-- The first segments of the paths that are not read from payload or metadata. -/
def TRACE : String := "trace"

@[inherit_doc TRACE]
def TENANT : String := "tenant"

@[inherit_doc TRACE]
def TIMESTAMP : String := "timestamp"

/-- `Metadata()` as an `interface{}`. -/
def metadataValue (e : Event κ) : Value :=
  match e.metadata with
  | some r => .map r
  | none => .nilMap

/-- What the path functions return: the value, its parent and the key. -/
abbrev Found := Value × Value × String

/-- The answer when there is nothing at the path. -/
def notFound : Found := (.nil, .nil, "")

/-- The loop of `GetPathValue` over plain segments. -/
def getSegments : List String → Value → Value → String → HeapProg Found
  | [], obj, parent, key => pure (obj, parent, key)
  | s :: rest, obj, _, _ =>
      match obj with
      | .map r => do
          match ← HeapProg.getKey r s with
          | some child => getSegments rest child obj s
          | none => pure (.nil, obj, s)
      | _ => pure (.nil, obj, s)

/-- White space as `strings.TrimSpace` sees it. -/
def isSpace (c : Char) : Bool :=
  [0x09, 0x0a, 0x0b, 0x0c, 0x0d, 0x20, 0x85, 0xa0, 0x1680, 0x2028, 0x2029, 0x202f, 0x205f,
    0x3000].contains c.toNat || (0x2000 ≤ c.toNat && c.toNat ≤ 0x200a)

/-- `strings.TrimSpace`. -/
def trimSpace (s : List Char) : List Char :=
  ((s.dropWhile isSpace).reverse.dropWhile isSpace).reverse

/-- The segments of an array path after its first dot: a dot between brackets does not
separate.  The last segment is only kept when its last character is a single byte, since
the source compares the position of that character with `len(path)-1`. -/
def arraySegments : List Char → Bool → List Char → List (List Char)
  | [], _, _ => []
  | c :: cs, inArr, segment =>
      let inArr := if c = '[' then true else if c = ']' then false else inArr
      if c = '.' && !inArr then segment :: arraySegments cs inArr []
      else if cs = [] ∧ c.utf8Size = 1 then [segment ++ [c]]
      else arraySegments cs inArr (segment ++ [c])

example : (arraySegments "a[k=v.w].b".toList false []).map String.ofList = ["a[k=v.w]", "b"] := by
  decide +kernel

/-- The element of an array whose entry `k` is the text `v`. -/
def selectElement (curr : Value) (key : String) (a : Ref) (k v : String) :
    List ℕ → HeapProg Found
  | [] => pure notFound
  | i :: is => do
      match ← HeapProg.index a i with
      | .map m =>
          if (← HeapProg.getKey m k) = some (.str v) then pure (.map m, curr, key)
          else selectElement curr key a k v is
      | _ => selectElement curr key a k v is

/-- The element of an array that the text between the brackets names: a selector `k=v` or
an index, which panics when it is negative. -/
def elementAt (curr : Value) (key : String) (a : Ref) (idxStr : List Char) : HeapProg Found := do
  if idxStr.contains '=' then
    match split idxStr '=' with
    | [k, v] =>
        let n ← HeapProg.len a
        selectElement curr key a (String.ofList (trimSpace k)) (String.ofList (trimSpace v))
          (List.range n)
    | _ => pure notFound
  else
    match atoi idxStr with
    | (_, some _) => pure notFound
    | (idx, none) =>
        if (← HeapProg.len a) ≤ idx then pure notFound
        else if idx < 0 then Prog.panic
        else
          let v ← HeapProg.index a idx.toNat
          pure (v, curr, key)

/-- `getChildElement(curr, segment)`. -/
def getChildElement (curr : Value) (segment : List Char) : HeapProg Found :=
  if segment.getLast? ≠ some ']' then
    match curr with
    | .map r => do
        let child ← HeapProg.getKey r (String.ofList segment)
        pure (child.getD .nil, curr, String.ofList segment)
    | .nilMap => pure (.nil, curr, String.ofList segment)
    | _ => pure notFound
  else
    let i := segment.idxOf '['
    match curr with
    | .map r =>
        if '[' ∈ segment then do
          match ← HeapProg.getKey r (String.ofList (segment.take i)) with
          | some (.slice a) =>
              elementAt curr (String.ofList (segment.take i)) a (segment.dropLast.drop (i + 1))
          | _ => pure notFound
        else Prog.panic
    | .nilMap => if '[' ∈ segment then pure notFound else Prog.panic
    | .slice a =>
        -- without an opening bracket the index of the source is -1
        elementAt curr "" a
          (if '[' ∈ segment then segment.dropLast.drop (i + 1) else segment.dropLast)
    | _ => pure notFound

/-- The loop of `evalArrayPath` over the segments. -/
def evalSegments : List (List Char) → Found → HeapProg Found
  | [], found => pure found
  | s :: rest, found =>
      if found.1 = .nil then pure notFound
      else if trimSpace s = [] then evalSegments rest found
      else do
        let found ← getChildElement found.1 (trimSpace s)
        evalSegments rest found

/-- `evalArrayPath(path, curr)`, for the part of the path from its first dot on. -/
def evalArrayPath (path : List Char) (curr : Value) : HeapProg Found :=
  evalSegments (arraySegments path.tail false []) (curr, .nil, "")

/-- `GetPathValue` once the object to start from is known. -/
def getPathFrom (path : String) (obj : Value) : HeapProg Found :=
  if obj = .nil then pure notFound
  else if path = "" ∨ path = "." ∨ path = PAYLOAD ∨ path = METADATA then pure (obj, .nil, "")
  else
    let path := if hasPrefix path "." then PAYLOAD ++ path else path
    if !hasPrefix path (PAYLOAD ++ ".") && !hasPrefix path (METADATA ++ ".") then pure notFound
    else if contains path '[' && contains path ']' then
      evalArrayPath (path.toList.drop (path.toList.idxOf '.')) obj
    else getSegments (splitPath path).tail obj .nil ""

/-- `GetPathValue(path)`: the value, its parent and the key. -/
def getPathValue (lib : Libs κ) (e : Event κ) (path : String) : HeapProg Found :=
  if path = TRACE ++ ".id" then
    pure (.str (if e.userTraceId ≠ "" then e.userTraceId else lib.traceId e.ctx), .nil, "")
  else if path = TENANT ++ ".appId" then pure (.str e.tid.appId, .nil, "")
  else if path = TENANT ++ ".orgId" then pure (.str e.tid.orgId, .nil, "")
  else if path = TIMESTAMP then pure (.str lib.timestamp, .nil, "")
  else
    getPathFrom path
      (if hasPrefix path (METADATA ++ ".") || path == METADATA then e.metadataValue else e.payload)

/-! ## Writing a path -/

namespace Calls

/-- The loop of `SetPathValue` over the segments after the first. -/
def descend (path : String) (createPath : Bool) :
    List String → Value → Value → String → HeapProg (Except EventError Found)
  | [], obj, parent, key => pure (.ok (obj, parent, key))
  | s :: rest, obj, parent, key =>
      if s = "" then descend path createPath rest obj parent key
      else if rest = [] then pure (.ok (obj, obj, s))
      else match obj with
        | .map r => do
            match ← HeapProg.getKey r s with
            | some child => descend path createPath rest child obj s
            | none =>
                if createPath then
                  let m ← HeapProg.makeMap
                  HeapProg.setKey r s (.map m)
                  descend path createPath rest (.map m) obj s
                else pure (.error (.other ("invalid path " ++ path)))
        | .nilMap =>
            if createPath then Prog.panic else pure (.error (.other ("invalid path " ++ path)))
        | _ => Prog.panic

/-- `obj[key] = make([]interface{}, idx+1)`. -/
def makeElements (r : Ref) (name : String) (idx : ℕ) : HeapProg Unit :=
  if Heap.maxSliceLen < idx + 1 then Prog.panic
  else do
    let a ← HeapProg.makeSlice (List.replicate (idx + 1) .nil)
    HeapProg.setKey r name (.slice a)

/-- `obj[key][idx] = val` on an array that is long enough or gets longer by one. -/
def storeElement (r : Ref) (name : String) (idx : ℕ) (val : Value) : HeapProg Unit := do
  match ← HeapProg.getKey r name with
  | some (.slice a) =>
      let n ← HeapProg.len a
      if idx < n then HeapProg.setIndex a idx val
      else if Heap.maxSliceLen < idx + 1 ∨ n < idx then Prog.panic
      else
        let vs ← HeapProg.elems a (List.range idx)
        let a' ← HeapProg.makeSlice (vs ++ [val])
        HeapProg.setKey r name (.slice a')
  | _ => Prog.panic

/-- Write at an index of the array under a key, with the array made or made longer by one
if it has to be. -/
def setElement (r : Ref) (name : String) (idx : ℕ) (val : Value) (createPath : Bool) :
    HeapProg Unit := do
  let old ← HeapProg.getKey r name
  if old.getD .nil = .nil ∧ createPath = true then makeElements r name idx
  storeElement r name idx val

/-- The last part of `SetPathValue`: write the value at the key of a map, whose name is
returned without its index. -/
def assign (obj : Value) (key : String) (val : Value) (createPath : Bool) : HeapProg String :=
  match obj with
  | .map r =>
      if contains key '[' && contains key ']' then
        match indexedKey key with
        | (_, none) => Prog.panic
        | (name, some text) => do
            if 0 ≤ (atoi text).1 then setElement r name (atoi text).1.toNat val createPath
            pure name
      else do
        HeapProg.setKey r key val
        pure key
  | .nilMap =>
      if contains key '[' && contains key ']' then
        match indexedKey key with
        | (_, none) => Prog.panic
        | (name, some text) => if 0 ≤ (atoi text).1 then Prog.panic else pure name
      else Prog.panic
  | _ => pure key

/-- `SetPathValue` from the split of the path on. -/
def setSegments (path : String) (obj val : Value) (createPath : Bool) :
    HeapProg (Except EventError (Value × String)) := do
  match ← descend path createPath (Event.splitPath path).tail obj .nil "" with
  | .error err => pure (.error err)
  | .ok (obj, parent, key) =>
      let key ← assign obj key val createPath
      pure (.ok (parent, key))

/-- `e.ack != nil && e.ack.IsAcked()`. -/
def isSettled (e : Event κ) : EventProg ε Bool :=
  match e.subTree with
  | none => pure false
  | some n => EventProg.isAcked n

/-- `SetPayload(payload)`. -/
def setPayload (e : Event κ) (payload : Value) :
    EventProg ε (Event κ × Except EventError Unit) := do
  if ← isSettled e then pure (e, .error .alreadyAckedError)
  else pure ({ e with payload := payload }, .ok ())

/-- `SetMetadata(metadata)`. -/
def setMetadata (e : Event κ) (metadata : Option Ref) :
    EventProg ε (Event κ × Except EventError Unit) := do
  if ← isSettled e then pure (e, .error .alreadyAckedError)
  else pure ({ e with metadata := metadata }, .ok ())

/-- `SetPathValue` once the object to start from is known. -/
def setPathFrom (e : Event κ) (path : String) (obj val : Value) (createPath : Bool) :
    EventProg ε (Event κ × Except EventError (Value × String)) := do
  let path := if hasPrefix path "." then PAYLOAD ++ path else path
  let path := if path = "" then PAYLOAD else path
  if path = PAYLOAD ∨ path = PAYLOAD ++ "." then
    match ← setPayload e val with
    | (e, .ok ()) => pure (e, .ok (.nil, ""))
    | (e, .error err) => pure (e, .error err)
  else if path = METADATA ∨ path = METADATA ++ "." then
    match val with
    | .map r => do
        let (e, _) ← setMetadata e (some r)
        pure (e, .error (.other "bad metadata"))
    | .nilMap => do
        let (e, _) ← setMetadata e none
        pure (e, .error (.other "bad metadata"))
    | _ => pure (e, .error (.other "bad metadata"))
  else if !hasPrefix path (PAYLOAD ++ ".") && !hasPrefix path (METADATA ++ ".") then
    pure (e, .error (.other ("bad path " ++ path)))
  else
    let res ← (setSegments path obj val createPath).left
    pure (e, res)

/-- `SetPathValue(path, val, createPath)`: the parent object and the key written. -/
def setPathValue (e : Event κ) (path : String) (val : Value) (createPath : Bool) :
    EventProg ε (Event κ × Except EventError (Value × String)) := do
  if ← isSettled e then pure (e, .error .alreadyAckedError)
  else if hasPrefix path (METADATA ++ ".") || path == METADATA then
    match e.metadata with
    | some r => setPathFrom e path (.map r) val createPath
    | none =>
        if createPath then
          let m ← HeapProg.makeMap.left
          let (e, _) ← setMetadata e (some m)
          setPathFrom e path (.map m) val createPath
        else pure (e, .error (.other ("path " ++ path ++ " does not exist")))
  else setPathFrom e path e.payload val createPath

/-! ## The other operations -/

/-- `Clone(ctx)`. -/
def clone (e : Event κ) (ctx : κ) : EventProg ε (Except EventError (Event κ)) :=
  match e.subTree with
  | none => pure (.ok { e with ctx := ctx, deepcopied := false })
  | some n => do
      match ← EventProg.newSubTree n with
      | .error .alreadyAckedError => pure (.error .alreadyAckedError)
      | .ok child =>
          pure (.ok { e with ctx := ctx, subTree := some child, deepcopied := false })

/-- `Ack()`. -/
def ack (e : Event κ) : EventProg ε Unit :=
  match e.subTree with
  | none => pure ()
  | some n => EventProg.ack n

/-- `Nack(err)`. -/
def nack (e : Event κ) (err : ε) : EventProg ε Unit :=
  match e.subTree with
  | none => pure ()
  | some n => EventProg.nack n err

/-- `deepcopy.DeepCopy(e.Metadata()).(map[string]interface{})`; a copy that is no map is a
panic. -/
def copyMetadata (lib : Libs κ) (e : Event κ) : HeapProg (Option Ref) := do
  match ← lib.deepCopy e.metadataValue with
  | .map r => pure (some r)
  | .nilMap => pure none
  | _ => Prog.panic

/-- `DeepCopy()`: only the first call copies. -/
def deepCopy (lib : Libs κ) (e : Event κ) : HeapProg (Event κ) :=
  if e.deepcopied then pure e
  else do
    let payload ← lib.deepCopy e.payload
    let metadata ← copyMetadata lib { e with payload := payload }
    pure { e with payload := payload, metadata := metadata, deepcopied := true }

/-! ## Without anything in between -/

section Sequential

variable (order : Finset String → List String)

/-- What a call of the sequential model returns, with nothing after a panic. -/
def returned {α : Type} : Except (Stop EventError) α → Option (Except EventError α)
  | .ok a => some (.ok a)
  | .error (.error err) => some (.error err)
  | .error .panic => none

/-- The program descends as the function does. -/
theorem run_descend (path : String) (createPath : Bool) (segments : List String) :
    ∀ h obj parent key,
      (descend path createPath segments obj parent key).run (Heap.handle order) h =
        (returned (Event.descend path createPath h segments obj parent key).2,
          (Event.descend path createPath h segments obj parent key).1) := by
  induction segments with
  | nil =>
      intro h obj parent key
      rfl
  | cons s rest ih =>
      intro h obj parent key
      unfold descend Event.descend
      by_cases hs : s = ""
      · rw [if_pos hs, if_pos hs]
        exact ih h obj parent key
      rw [if_neg hs, if_neg hs]
      by_cases hrest : rest = []
      · rw [if_pos hrest, if_pos hrest]
        rfl
      rw [if_neg hrest, if_neg hrest]
      cases obj with
      | map r =>
          dsimp only
          rw [Prog.run_bind_of_some _ _ (HeapProg.run_getKey order h r s)]
          cases h.getKey r s with
          | some child => exact ih h child (.map r) s
          | none =>
              cases createPath with
              | true => exact ih _ (.map h.makeMap.2) (.map r) s
              | false => rfl
      | nilMap => cases createPath <;> rfl
      | _ => rfl

/-- A new array is put under the name, where it is not too long. -/
theorem run_makeElements (h : Heap) (r : Ref) (name : String) (idx : ℕ) :
    (makeElements r name idx).run (Heap.handle order) h =
      if Heap.maxSliceLen < idx + 1 then (none, h)
      else (some (), (h.makeSlice (List.replicate (idx + 1) .nil)).1.setKey r name
        (.slice (h.makeSlice (List.replicate (idx + 1) .nil)).2)) := by
  unfold makeElements
  split <;> rfl

/-- An element is written in place, or the array is made longer by one. -/
theorem run_storeElement (h : Heap) (r : Ref) (name : String) (idx : ℕ) (val : Value) :
    (storeElement r name idx val).run (Heap.handle order) h =
      match h.getKey r name with
      | some (.slice a) =>
          if idx < (h.slices a).length then (some (), h.setIndex a idx val)
          else if Heap.maxSliceLen < idx + 1 ∨ (h.slices a).length < idx then (none, h)
          else (some (), (h.makeSlice ((h.slices a).take idx ++ [val])).1.setKey r name
            (.slice (h.makeSlice ((h.slices a).take idx ++ [val])).2))
      | _ => (none, h) := by
  unfold storeElement
  rw [Prog.run_bind_of_some _ _ (HeapProg.run_getKey order h r name)]
  split
  · rename_i a _
    rw [Prog.run_bind_of_some _ _ (HeapProg.run_len order h a)]
    split
    · rfl
    · split
      · rfl
      · -- `append` at the end: the elements are read one by one and copied
        rename_i hlt hnot
        have hlen : (h.slices a).length = idx := by omega
        have htake : (List.range idx).map (fun i => (h.slices a).getD i .nil) =
            (h.slices a).take idx := by
          rw [← hlen, List.take_length]
          apply List.ext_getElem
          · simp
          · intro i _ hi
            simp [List.getElem?_eq_getElem hi]
        rw [Prog.run_bind_of_some _ _ (HeapProg.run_elems order h a _), htake]
        rfl
  · rfl

/-- The program sets an element as the function does. -/
theorem run_setElement (h : Heap) (r : Ref) (name : String) (idx : ℕ) (val : Value)
    (createPath : Bool) :
    (setElement r name idx val createPath).run (Heap.handle order) h =
      (match (Event.setElement h r name idx val createPath).2 with
        | .ok () => some ()
        | .error _ => none, (Event.setElement h r name idx val createPath).1) := by
  unfold setElement Event.setElement
  rw [Prog.run_bind_of_some _ _ (HeapProg.run_getKey order h r name)]
  by_cases habsent : (h.getKey r name).getD .nil = .nil ∧ createPath = true
  · simp only [habsent, if_true, and_self, true_and]
    rw [Prog.run_bind, run_makeElements]
    by_cases hlong : Heap.maxSliceLen < idx + 1
    · rw [if_pos hlong, if_pos hlong]
    · rw [if_neg hlong, if_neg hlong]
      dsimp only
      -- both go on with the heap that holds the new elements
      generalize Heap.setKey _ r name _ = h'
      rw [run_storeElement]
      rcases h'.getKey r name with _ | v
      · rfl
      · cases v with
        | slice a =>
            dsimp only
            split_ifs <;> rfl
        | _ => rfl
  · have hnot : ¬ ((h.getKey r name).getD .nil = .nil ∧ createPath = true ∧
        Heap.maxSliceLen < idx + 1) := fun hc => habsent ⟨hc.1, hc.2.1⟩
    simp only [if_neg habsent, if_neg hnot]
    rw [run_storeElement]
    rcases h.getKey r name with _ | v
    · rfl
    · cases v with
      | slice a =>
          dsimp only
          split_ifs <;> rfl
      | _ => rfl

/-- Writing at an index returns no error: it writes or panics. -/
theorem setElement_ne_error (h : Heap) (r : Ref) (name : String) (idx : ℕ) (val : Value)
    (createPath : Bool) (err : EventError) :
    (Event.setElement h r name idx val createPath).2 ≠ .error (.error err) := by
  unfold Event.setElement
  dsimp only
  split
  · simp
  · split
    · split_ifs <;> simp
    · simp

/-- An assignment panics or succeeds; it returns no error. -/
theorem assign_ne_error (h : Heap) (obj : Value) (key : String) (val : Value)
    (createPath : Bool) (err : EventError) :
    (Event.assign h obj key val createPath).2 ≠ .error (.error err) := by
  unfold Event.assign
  cases obj with
  | map r =>
      dsimp only
      split
      · rcases indexedKey key with ⟨name, _ | text⟩
        · simp
        · dsimp only
          split
          · have hset := setElement_ne_error h r name (atoi text).1.toNat val createPath err
            split <;> simp_all
          · simp
      · simp
  | nilMap =>
      dsimp only
      split
      · rcases indexedKey key with ⟨name, _ | text⟩
        · simp
        · dsimp only
          split_ifs <;> simp
      · simp
  | _ => simp

/-- The program assigns as the function does. -/
theorem run_assign (h : Heap) (obj : Value) (key : String) (val : Value) (createPath : Bool) :
    (assign obj key val createPath).run (Heap.handle order) h =
      (match (Event.assign h obj key val createPath).2 with
        | .ok name => some name
        | .error _ => none, (Event.assign h obj key val createPath).1) := by
  unfold assign Event.assign
  cases obj with
  | map r =>
      dsimp only
      split
      · rcases indexedKey key with ⟨name, _ | text⟩
        · rfl
        · dsimp only
          by_cases hidx : 0 ≤ (atoi text).1
          · simp only [if_pos hidx]
            rw [Prog.run_bind, run_setElement]
            rcases Event.setElement h r name (atoi text).1.toNat val createPath with
              ⟨h', stop | ⟨⟩⟩
            · rfl
            · rfl
          · simp only [if_neg hidx]
            rfl
      · rfl
  | nilMap =>
      dsimp only
      split
      · rcases indexedKey key with ⟨name, _ | text⟩
        · rfl
        · dsimp only
          split_ifs <;> rfl
      · rfl
  | _ => rfl

/-- The program writes below a path as the function does. -/
theorem run_setSegments (h : Heap) (e : Event κ) (path : String) (obj val : Value)
    (createPath : Bool) :
    (setSegments path obj val createPath).run (Heap.handle order) h =
      (returned (Event.setSegments h e path obj val createPath).2.2,
        (Event.setSegments h e path obj val createPath).1) := by
  unfold setSegments Event.setSegments
  rw [Prog.run_bind, run_descend]
  rcases Event.descend path createPath h (splitPath path).tail obj .nil "" with
    ⟨h', (err | _) | ⟨obj', parent, key⟩⟩
  · rfl
  · rfl
  · simp only [returned]
    rw [Prog.run_bind, run_assign]
    have hne := assign_ne_error h' obj' key val createPath
    generalize Event.assign h' obj' key val createPath = res at hne ⊢
    rcases res with ⟨h'', (err | _) | name⟩
    · exact absurd rfl (hne err)
    · rfl
    · rfl

variable (h : Heap) (a : Acks ε) (e : Event κ)

@[simp] theorem run_isSettled :
    (isSettled e).run (EventProg.handle order) (h, a) = (some (e.isSettled a.tree), h, a) := by
  unfold isSettled Event.isSettled
  cases e.subTree <;> rfl

@[simp] theorem run_setPayload (payload : Value) :
    (setPayload e payload).run (EventProg.handle order) (h, a) =
      (some (e.setPayload a.tree payload), h, a) := by
  unfold setPayload Event.setPayload
  rw [Prog.run_bind_of_some _ _ (run_isSettled order h a e)]
  cases e.isSettled a.tree <;> rfl

@[simp] theorem run_setMetadata (metadata : Option Ref) :
    (setMetadata e metadata).run (EventProg.handle order) (h, a) =
      (some (e.setMetadata a.tree metadata), h, a) := by
  unfold setMetadata Event.setMetadata
  rw [Prog.run_bind_of_some _ _ (run_isSettled order h a e)]
  cases e.isSettled a.tree <;> rfl

/-- The outcome of a call of the sequential model on an event. -/
def outcome {α : Type} (res : Heap × Event κ × Except (Stop EventError) α) (a : Acks ε) :
    Option (Event κ × Except EventError α) × Heap × Acks ε :=
  ((returned res.2.2).map fun x => (res.2.1, x), res.1, a)

/-- So does the whole of `SetPathValue`. -/
theorem run_setPathFrom (path : String) (obj val : Value) (createPath : Bool) :
    (setPathFrom e path obj val createPath).run (EventProg.handle order) (h, a) =
      outcome (Event.setPathFrom a.tree h e path obj val createPath) a := by
  unfold setPathFrom Event.setPathFrom
  dsimp only
  generalize (if (if hasPrefix path "." = true then PAYLOAD ++ path else path) = "" then PAYLOAD
    else if hasPrefix path "." = true then PAYLOAD ++ path else path) = path'
  split
  · rw [Prog.run_bind_of_some _ _ (run_setPayload order h a e val)]
    rcases e.setPayload a.tree val with ⟨e', err | ⟨⟩⟩
    · rfl
    · rfl
  · split
    · cases val with
      | map r =>
          dsimp only
          rw [Prog.run_bind_of_some _ _ (run_setMetadata order h a e (some r))]
          rfl
      | nilMap =>
          dsimp only
          rw [Prog.run_bind_of_some _ _ (run_setMetadata order h a e none)]
          rfl
      | _ => rfl
    · split
      · rfl
      · rw [Prog.run_bind, Prog.run_left, run_setSegments order h e]
        -- the segments are written to the heap only
        have hevent := Event.setSegments_event h e path' obj val createPath
        generalize Event.setSegments h e path' obj val createPath = res at hevent ⊢
        rcases res with ⟨h', e', (err | _) | x⟩
        · obtain rfl : e' = e := hevent
          rfl
        · rfl
        · obtain rfl : e' = e := hevent
          rfl

/-- `SetPathValue` with nothing in between is the sequential function. -/
theorem run_setPathValue (path : String) (val : Value) (createPath : Bool) :
    (setPathValue e path val createPath).run (EventProg.handle order) (h, a) =
      outcome (e.setPathValue a.tree h path val createPath) a := by
  unfold setPathValue Event.setPathValue
  rw [Prog.run_bind_of_some _ _ (run_isSettled order h a e)]
  split
  · rfl
  · split
    · cases hmeta : e.metadata with
      | some r => exact run_setPathFrom order h a e path _ val createPath
      | none =>
          dsimp only
          split
          · rw [Prog.run_bind_of_some _ _
              ((Prog.run_left _ _ _ _ _).trans (by rw [HeapProg.run_makeMap])),
              Prog.run_bind_of_some _ _ (run_setMetadata order _ a e _)]
            exact run_setPathFrom order _ a _ path _ val createPath
          · rfl
    · exact run_setPathFrom order h a e path _ val createPath

/-- `Clone` of an event with a node, with nothing in between. -/
theorem run_clone {n : NodeId} (hn : e.subTree = some n) (ctx : κ) :
    (clone e ctx).run (EventProg.handle order) (h, a) =
      (some (e.clone a.tree ctx).2, h, a.newSubTree n) := by
  unfold clone Event.clone
  rw [hn]
  dsimp only
  rw [Prog.run_bind_of_some _ _ (EventProg.run_newSubTree order h a n)]
  rcases a.tree.newSubTree n with ⟨t', ⟨⟩ | child⟩
  · rfl
  · rfl

/-- `Ack` of an event with a node, with nothing in between. -/
theorem run_ack {n : NodeId} (hn : e.subTree = some n) :
    (ack e).run (EventProg.handle order) (h, a) = (some (), h, a.ack n) := by
  unfold ack
  rw [hn]
  rfl

end Sequential

end Calls

end Event
